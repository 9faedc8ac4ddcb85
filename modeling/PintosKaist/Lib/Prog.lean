/-
A piece of code as the tree of what it does next: an access, and for each answer
to it the rest of the code. Run without a break it is a function on the state
(`run`); taken one access at a time, others can come in between.

A loop is a loop (`run_loop`), and code whose loops are bounded makes a bounded
number of accesses, whatever the answers are (`AtMost`).
-/
import PintosKaist.Lib.While

namespace PintosKaist

open While

/-- Code that makes accesses `o`, each answered by an `ans o`. -/
inductive Prog (ω : Type) (ans : ω → Type) (ρ : Type) where
  | ret (r : ρ)
  /-- An assertion fails. -/
  | fail
  /-- A loop has not ended after the turns it is followed for. -/
  | unended
  | op (o : ω) (rest : ans o → Prog ω ans ρ)

namespace Prog

variable {ω : Type} {ans : ω → Type} {ρ τ σ : Type}

def bind : Prog ω ans ρ → (ρ → Prog ω ans τ) → Prog ω ans τ
  | .ret r, f => f r
  | .fail, _ => .fail
  | .unended, _ => .unended
  | .op o rest, f => .op o fun a => (rest a).bind f

/-- One access, for its answer. -/
def access (o : ω) : Prog ω ans (ans o) := .op o .ret

/-- A value that an assertion says is there. -/
def some? : Option ρ → Prog ω ans ρ
  | some r => .ret r
  | none => .fail

/-- A `while` loop, followed for `fuel` turns. -/
def loop (turn : τ → Prog ω ans (ForInStep τ)) : Nat → τ → Prog ω ans τ
  | 0, _ => .unended
  | fuel + 1, s => (turn s).bind fun
    | .done s' => .ret s'
    | .yield s' => loop turn fuel s'

/-- The code without a break, where `sem` is what an access does. -/
def run (sem : (o : ω) → σ → ans o × σ) : Prog ω ans ρ → σ → Option (ρ × σ)
  | .ret r, s => some (r, s)
  | .fail, _ | .unended, _ => none
  | .op o rest, s => (rest (sem o s).1).run sem (sem o s).2

variable {sem : (o : ω) → σ → ans o × σ} {p : Prog ω ans ρ} {f : ρ → Prog ω ans τ} {s : σ}

@[simp] theorem run_ret {r : ρ} : (ret r : Prog ω ans ρ).run sem s = some (r, s) := rfl

@[simp] theorem run_fail : (fail : Prog ω ans ρ).run sem s = none := rfl

@[simp] theorem run_access {o : ω} : (access o : Prog ω ans (ans o)).run sem s = some (sem o s) := rfl

@[simp] theorem run_some? {r : Option ρ} : (some? r : Prog ω ans ρ).run sem s = r.map fun r => (r, s) := by
  cases r <;> rfl

@[simp] theorem run_bind : (p.bind f).run sem s = (p.run sem s).bind fun r => (f r.1).run sem r.2 := by
  induction p generalizing s with
  | ret r => rfl
  | fail | unended => rfl
  | op o rest ih => exact ih _

/-- What a turn leaves in the variables and in the state, taken together. -/
def packTurn {υ : Type} (pack : σ → τ → υ) : ForInStep τ × σ → ForInStep υ
  | (.done t, s) => .done (pack s t)
  | (.yield t, s) => .yield (pack s t)

/-- **A loop is a loop**: without a break, it is the loop over the state and what
the code has in its variables. -/
theorem run_loop {υ : Type} {pack : σ → τ → υ} {turn : τ → Prog ω ans (ForInStep τ)} {turn' : υ → Option (ForInStep υ)}
    (h : ∀ s t, ((turn t).run sem s).map (packTurn pack) = turn' (pack s t)) {fuel : Nat} {t : τ} :
    whileLoop turn' fuel (pack s t) = ((loop turn fuel t).run sem s).map fun r => pack r.2 r.1 := by
  induction fuel generalizing s t with
  | zero => rfl
  | succ fuel ih =>
    rw [loop, run_bind, whileLoop, ← h s t]
    cases hturn : (turn t).run sem s with
    | none => rfl
    | some r =>
      obtain ⟨r, s'⟩ := r
      cases r with
      | done t' => rfl
      | yield t' => exact ih

/-- A loop whose turns leave the state alone. -/
theorem run_loop_reads {turn : τ → Prog ω ans (ForInStep τ)} {turn' : τ → Option (ForInStep τ)}
    (h : ∀ t, (turn t).run sem s = (turn' t).map fun r => (r, s)) {fuel : Nat} {t : τ} :
    (loop turn fuel t).run sem s = (whileLoop turn' fuel t).map fun t => (t, s) := by
  induction fuel generalizing t with
  | zero => rfl
  | succ fuel ih =>
    rw [loop, run_bind, whileLoop, h t]
    cases turn' t with
    | none => rfl
    | some r =>
      cases r with
      | done t' => rfl
      | yield t' => exact ih

/-! ## How many accesses -/

/-- At most `n` accesses, whatever the answers are. -/
def AtMost : Nat → Prog ω ans ρ → Prop
  | _, .ret _ | _, .fail | _, .unended => True
  | 0, .op .. => False
  | n + 1, .op _ rest => ∀ a, AtMost n (rest a)

@[simp] theorem atMost_ret {n : Nat} {r : ρ} : AtMost n (ret r : Prog ω ans ρ) := by
  cases n <;> trivial

@[simp] theorem atMost_fail {n : Nat} : AtMost n (fail : Prog ω ans ρ) := by
  cases n <;> trivial

@[simp] theorem atMost_unended {n : Nat} : AtMost n (unended : Prog ω ans ρ) := by
  cases n <;> trivial

@[simp] theorem atMost_access {o : ω} : AtMost 1 (access o : Prog ω ans (ans o)) := fun _ => trivial

@[simp] theorem atMost_some? {r : Option ρ} {n : Nat} : AtMost n (some? r : Prog ω ans ρ) := by
  cases r
  · exact atMost_fail
  · exact atMost_ret

theorem AtMost.mono {n m : Nat} (h : AtMost n p) (hle : n ≤ m) : AtMost m p := by
  induction p generalizing n m with
  | ret r => exact atMost_ret
  | fail => exact atMost_fail
  | unended => exact atMost_unended
  | op o rest ih =>
    cases n with
    | zero => exact h.elim
    | succ n =>
      obtain ⟨m, rfl⟩ : ∃ k, m = k + 1 := ⟨m - 1, by omega⟩
      exact fun a => ih a (h a) (Nat.le_of_succ_le_succ hle)

/-- After an access, one less is left. -/
theorem AtMost.rest {n : Nat} {o : ω} {rest : ans o → Prog ω ans ρ} (h : AtMost n (op o rest)) (a : ans o) :
    AtMost (n - 1) (rest a) := by
  cases n with
  | zero => exact h.elim
  | succ n => exact h a

theorem AtMost.bind {n m : Nat} (h : AtMost n p) (hf : ∀ r, AtMost m (f r)) : AtMost (n + m) (p.bind f) := by
  induction p generalizing n with
  | ret r => exact (hf r).mono (Nat.le_add_left ..)
  | fail => exact atMost_fail
  | unended => exact atMost_unended
  | op o rest ih =>
    cases n with
    | zero => exact h.elim
    | succ n =>
      rw [Nat.succ_add]
      exact fun a => ih a (h a)

/-- One piece of code and then another. -/
theorem AtMost.seq {n m k : Nat} (h : AtMost n p) (hf : ∀ r, AtMost m (f r)) (hle : n + m ≤ k) : AtMost k (p.bind f) :=
  (h.bind hf).mono hle

theorem AtMost.ite {c : Prop} [Decidable c] {q : Prog ω ans ρ} {n : Nat} (hp : AtMost n p) (hq : AtMost n q) :
    AtMost n (if c then p else q) := by
  split
  · exact hp
  · exact hq

/-- A loop makes as many accesses as its turns together. -/
theorem AtMost.loop {turn : τ → Prog ω ans (ForInStep τ)} {n : Nat} (h : ∀ t, AtMost n (turn t)) (fuel : Nat) (t : τ) :
    AtMost (fuel * n) (loop turn fuel t) := by
  induction fuel generalizing t with
  | zero => exact atMost_unended
  | succ fuel ih =>
    rw [Nat.succ_mul, Nat.add_comm]
    refine (h t).bind fun r => ?_
    cases r with
    | done t' => exact atMost_ret
    | yield t' => exact ih t'

end Prog
end PintosKaist
