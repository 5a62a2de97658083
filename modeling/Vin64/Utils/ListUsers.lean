import Vin64.Utils.Dllist

/-!
# Users of a list

A user creates every node it links and remembers the linked ones.  `setFirst` and `unlink`
delete nodes, so the user forgets them.
-/

namespace Vin64.Utils

structure ListUser (α : Type) where
  list : Dllist α
  linked : List Nat

/-- A call; the inserted node is a new object with the contents `v`. -/
inductive ListCall (α : Type) where
  | setFirst (v : α)
  | linkNext (self : Nat) (v : α)
  | linkPrev (self : Nat) (v : α)
  | unlink (self : Nat)
deriving Repr, DecidableEq

/-- The nodes on the way from `p` to the null pointer; `none` when the way does not end within
`fuel` nodes or follows a deleted link. -/
def Dllist.path {α : Type} (l : Dllist α) (link : Node α → Ptr) : Nat → Ptr → Option (List Nat)
  | _, none => some []
  | 0, some _ => none
  | fuel + 1, some a => do
    let n ← l.deref (some a)
    let rest ← path l link fuel (link n)
    return a :: rest

namespace ListUser

variable {α : Type}

/-- `dllist()` -/
def start : ListUser α := ⟨Dllist.empty, []⟩

def step (s : ListUser α) : ListCall α → Option (ListUser α)
  | .setFirst v => do
    let (insert, l) := s.list.new v
    let l ← l.setFirst insert
    return ⟨l, [insert]⟩
  | .linkNext self v => do
    let (insert, l) := s.list.new v
    let l ← l.linkNext (some self) (some insert)
    return ⟨l, insert :: s.linked⟩
  | .linkPrev self v => do
    let (insert, l) := s.list.new v
    let l ← l.linkPrev (some self) (some insert)
    return ⟨l, insert :: s.linked⟩
  | .unlink self => do
    let l ← s.list.unlink (some self)
    return ⟨l, s.linked.filter fun a => a ≠ self⟩

/-- A call is made on a linked node. -/
def Legal (s : ListUser α) : ListCall α → Prop
  | .setFirst _ => True
  | .linkNext self _ | .linkPrev self _ | .unlink self => self ∈ s.linked

/-- A node is inserted behind the last one or in front of the first one. -/
def AtEnd (s : ListUser α) : ListCall α → Prop
  | .setFirst _ | .unlink _ => True
  | .linkNext self _ => s.list.last = some self
  | .linkPrev self _ => s.list.first = some self

/-- The walks along `_next` and along `_prev` end in null and visit the linked nodes in
opposite order. -/
def WellLinked (s : ListUser α) : Prop :=
  ∃ as, s.list.path Node.next s.list.fresh s.list.first = some as ∧
    s.list.path Node.prev s.list.fresh s.list.last = some as.reverse ∧
    ∀ a, a ∈ as ↔ a ∈ s.linked

end ListUser

end Vin64.Utils
