import Mathlib.Logic.Function.Basic
import Mathlib.Data.List.Basic

/-!
# The intrusive doubly linked list (`utils/dlinklist.h`)

`dllist<T>` links objects that inherit `dllist<T>::node`.  The cells below are the
objects of one list: `new` takes an address that was never used before, `delete`
empties the cell.  Every operation that follows a pointer returns `none` when the
pointer is null or its object has been deleted.
-/

namespace Vin64.Utils

/-- A pointer to a list object; `none` is the null pointer. -/
abbrev Ptr := Option Nat

/-- `dllist<T>::node` together with the object that inherits it. -/
structure Node (α : Type) where
  prev : Ptr
  next : Ptr
  val : α
deriving Repr, DecidableEq

/-- `dllist<T>`: `first` and `last` are `_first` and `_last`; `fresh` is the
address the next `new T` returns. -/
structure Dllist (α : Type) where
  cells : Nat → Option (Node α)
  fresh : Nat
  first : Ptr
  last : Ptr

namespace Dllist

variable {α : Type}

/-- `dllist() : _first(0), _last(0)` -/
def empty : Dllist α := ⟨fun _ => none, 0, none, none⟩

/-- `p->`: the object `p` points to. -/
def deref (l : Dllist α) (p : Ptr) : Option (Node α) := p.bind l.cells

/-- Assignment through `p`. -/
def modify (l : Dllist α) (p : Ptr) (f : Node α → Node α) : Option (Dllist α) :=
  match p with
  | none => none
  | some a =>
    match l.cells a with
    | none => none
    | some n => some { l with cells := Function.update l.cells a (some (f n)) }

/-- `new T`, with `node() : _prev(0), _next(0)`. -/
def new (l : Dllist α) (v : α) : Nat × Dllist α :=
  (l.fresh, { l with
    cells := Function.update l.cells l.fresh (some ⟨none, none, v⟩)
    fresh := l.fresh + 1 })

/-- `delete p` -/
def delete (l : Dllist α) (p : Ptr) : Dllist α :=
  match p with
  | none => l
  | some a => { l with cells := Function.update l.cells a none }

/-- The loop of `destroy`.  Each round deletes one object, so `fresh` rounds are
enough for every list that does not run in a circle. -/
def destroyLoop : Nat → Dllist α → Option (Dllist α)
  | 0, l => if l.first = none then some l else none
  | fuel + 1, l =>
    match l.first with
    | none => some l
    | some todel => do
      let n ← l.deref (some todel)
      destroyLoop fuel (delete { l with first := n.next } (some todel))

def destroy (l : Dllist α) : Option (Dllist α) := do
  let l ← destroyLoop l.fresh l
  return { l with first := none, last := none }

def setFirst (l : Dllist α) (self : Nat) : Option (Dllist α) := do
  let l ← l.destroy
  return { l with first := some self, last := some self }

def linkNext (l : Dllist α) (self insert : Ptr) : Option (Dllist α) := do
  let s ← l.deref self
  let l ← l.modify insert fun n => { n with next := s.next }
  let l ← l.modify insert fun n => { n with prev := self }
  let l ← l.modify self fun n => { n with next := insert }
  let i ← l.deref insert
  return if i.next = none then { l with last := insert } else l

def linkPrev (l : Dllist α) (self insert : Ptr) : Option (Dllist α) := do
  let s ← l.deref self
  let l ← l.modify insert fun n => { n with prev := s.prev }
  let l ← l.modify insert fun n => { n with next := self }
  let l ← l.modify self fun n => { n with prev := insert }
  let i ← l.deref insert
  return if i.prev = none then { l with first := insert } else l

/-- `if( self->_prev ) self->_prev->_next = self->_next; else _first = self->_next;` -/
def bypassNext (l : Dllist α) (s : Node α) : Option (Dllist α) :=
  if s.prev = none then some { l with first := s.next }
  else l.modify s.prev fun n => { n with next := s.next }

/-- `if( self->_next ) self->_next->_prev = self->_prev; else _last = self->_prev;` -/
def bypassPrev (l : Dllist α) (s : Node α) : Option (Dllist α) :=
  if s.next = none then some { l with last := s.prev }
  else l.modify s.next fun n => { n with prev := s.prev }

/-- `self` is read again for the second step: the first one may have stored into it. -/
def unlink (l : Dllist α) (self : Ptr) : Option (Dllist α) := do
  let s ← l.deref self
  let l ← l.bypassNext s
  let s ← l.deref self
  let l ← l.bypassPrev s
  let l ← l.modify self fun n => { n with prev := none, next := none }
  return l.delete self

end Dllist

end Vin64.Utils
