/-
The doubly linked lists of `lib/kernel/list.c`, over a heap that gives each
`struct list_elem` its two links. A pointer that may be NULL is an `Option`;
where the code asserts that one is not, it is the node itself. `none` is a
failed assertion, or NULL followed.
-/
import PintosKaist.Lib.Linked

namespace PintosKaist.LibKernel

open Linked

/-- `struct list`: its two sentinels. -/
structure KList (α : Type*) where
  head : α
  tail : α

section
variable {α : Type*} [DecidableEq α] (h : Heap α)

/-- `is_head`. -/
def isHead (elem : α) : Bool := (h elem).prev.isNone && (h elem).next.isSome

/-- `is_interior`. -/
def isInterior (elem : α) : Bool := (h elem).prev.isSome && (h elem).next.isSome

/-- `is_tail`. -/
def isTail (elem : α) : Bool := (h elem).prev.isSome && (h elem).next.isNone

/-- `list_init`. -/
def listInit (list : KList α) : Heap α :=
  let h := setPrev h list.head none
  let h := setNext h list.head (some list.tail)
  let h := setPrev h list.tail (some list.head)
  setNext h list.tail none

/-- `list_begin`. -/
def listBegin (list : KList α) : Option α := (h list.head).next

/-- `list_end`. -/
def listEnd (list : KList α) : α := list.tail

/-- `list_next`. -/
def listNext (elem : α) : Option α :=
  if isHead h elem || isInterior h elem then (h elem).next else none

/-- `list_prev`. -/
def listPrev (elem : α) : Option α :=
  if isInterior h elem || isTail h elem then (h elem).prev else none

/-- `list_empty`. -/
def listEmpty (list : KList α) : Bool := listBegin h list = some (listEnd list)

/-- `list_insert`. -/
def listInsert (before elem : α) : Option (Heap α) :=
  if isInterior h before || isTail h before then do
    let h := setPrev h elem (h before).prev
    let h := setNext h elem (some before)
    let p ← (h before).prev
    let h := setNext h p (some elem)
    some (setPrev h before (some elem))
  else none

/-- `list_splice`. -/
def listSplice (before first last : α) : Option (Heap α) :=
  if isInterior h before || isTail h before then
    if first = last then some h
    else do
      let last ← listPrev h last
      if isInterior h first && isInterior h last then do
        -- Cleanly remove FIRST...LAST from its current list.
        let p ← (h first).prev
        let h := setNext h p (h last).next
        let n ← (h last).next
        let h := setPrev h n (h first).prev
        -- Splice FIRST...LAST into new list.
        let h := setPrev h first (h before).prev
        let h := setNext h last (some before)
        let p ← (h before).prev
        let h := setNext h p (some first)
        some (setPrev h before (some last))
      else none
  else none

/-- `list_push_front`. -/
def listPushFront (list : KList α) (elem : α) : Option (Heap α) := do
  let before ← listBegin h list
  listInsert h before elem

/-- `list_push_back`. -/
def listPushBack (list : KList α) (elem : α) : Option (Heap α) :=
  listInsert h (listEnd list) elem

/-- `list_remove`: the element after the removed one, and the heap. -/
def listRemove (elem : α) : Option (Option α × Heap α) :=
  if isInterior h elem then do
    let p ← (h elem).prev
    let h := setNext h p (h elem).next
    let n ← (h elem).next
    let h := setPrev h n (h elem).prev
    some ((h elem).next, h)
  else none

/-- `list_front`. -/
def listFront (list : KList α) : Option α :=
  if listEmpty h list then none else (h list.head).next

/-- `list_back`. -/
def listBack (list : KList α) : Option α :=
  if listEmpty h list then none else (h list.tail).prev

/-- `list_pop_front`. -/
def listPopFront (list : KList α) : Option (Option α × Heap α) := do
  let front ← listFront h list
  let (_, h) ← listRemove h front
  some (some front, h)

/-- `list_pop_back`. -/
def listPopBack (list : KList α) : Option (Option α × Heap α) := do
  let back ← listBack h list
  let (_, h) ← listRemove h back
  some (some back, h)

/-- `swap (&e->prev, &e->next)`. -/
def swapLinks (e : α) : Heap α := setNext (setPrev h e (h e).next) e (h e).prev

/-- The `for` loop of `list_reverse`, which goes on along the link that it has
just turned. `none` at fuel 0: a run that has not ended. -/
def reverseLoop (list : KList α) : Nat → Heap α → α → Option (Heap α)
  | 0, _, _ => none
  | fuel + 1, h, e =>
    if e = listEnd list then some h
    else do
      let h := swapLinks h e
      let e ← (h e).prev
      reverseLoop list fuel h e

/-- `list_reverse`. -/
def listReverse (fuel : Nat) (list : KList α) : Option (Heap α) :=
  if listEmpty h list then some h
  else do
    let e ← listBegin h list
    let h ← reverseLoop list fuel h e
    -- swap (&list->head.next, &list->tail.prev)
    let t := (h list.head).next
    let h := setNext h list.head (h list.tail).prev
    let h := setPrev h list.tail t
    -- swap (&list->head.next->prev, &list->tail.prev->next)
    let a ← (h list.head).next
    let b ← (h list.tail).prev
    let t := (h a).prev
    let h := setPrev h a (h b).next
    some (setNext h b t)

/-- `if (duplicates != NULL) list_push_back (duplicates, next)`. -/
def pushDuplicate (duplicates : Option (KList α)) (next : α) : Option (Heap α) :=
  match duplicates with
  | some duplicates => listPushBack h duplicates next
  | none => some h

/-- The `while` loop of `list_unique`. -/
def uniqueLoop (list : KList α) (duplicates : Option (KList α)) (less : α → α → Bool) :
    Nat → Heap α → α → Option (Heap α)
  | 0, _, _ => none
  | fuel + 1, h, elem => do
    let next ← listNext h elem
    if next = listEnd list then some h
    else if !less elem next && !less next elem then do
      let (_, h) ← listRemove h next
      let h ← pushDuplicate h duplicates next
      uniqueLoop list duplicates less fuel h elem
    else uniqueLoop list duplicates less fuel h next

/-- `list_unique`. -/
def listUnique (fuel : Nat) (list : KList α) (duplicates : Option (KList α)) (less : α → α → Bool) :
    Option (Heap α) :=
  if listEmpty h list then some h
  else do
    let elem ← listBegin h list
    uniqueLoop list duplicates less fuel h elem

end

end PintosKaist.LibKernel
