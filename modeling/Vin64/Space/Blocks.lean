import Vin64.Space.Protect

/-!
# What the searches and the merging of blocks are for

The blocks of a region are a correctly linked list that tiles it.  A search finds the block at
an address, and merging neighbours shows in no attribute word.
-/

namespace Vin64.Space

open Vin64.Utils Vin64.Utils.Dllist Vin64.Lib

namespace VMRegion

/-- The block list of `r` is correctly linked and tiles the region. -/
structure Tiled (r : VMRegion) (es : List (Entry VMBlock)) : Prop where
  layout : Layout r.blocks es []
  prev : PrevOk none es
  tiles : Extent.Tiles r.base (es.map Entry.val) (r.base + r.size)
  stop_le : r.base + r.size ≤ 2 ^ 64
  size_lt : r.size < 2 ^ 64

/-- The block that a search is for: the one that starts at the address, or contains it. -/
def Hits (b : VMBlock) (a : Nat) (equl : Bool) : Prop :=
  if equl then b.base = a else Extent.Covers b a

instance (b : VMBlock) (a : Nat) (equl : Bool) : Decidable (Hits b a equl) :=
  inferInstanceAs (Decidable (if equl then b.base = a else Extent.Covers b a))

/-- The pointer to the first block a search is for, null when there is none. -/
def blockAt (es : List (Entry VMBlock)) (a : Nat) (equl : Bool) : Ptr :=
  (es.find? fun e => Hits e.val a equl).map Entry.addr

/-- Both searches of the list find the block they are for. -/
def SearchesAgree (l : Dllist VMBlock) (es : List (Entry VMBlock)) (a : Nat) (equl : Bool) : Prop :=
  findBlockL2R l a equl none = some (blockAt es a equl) ∧
    findBlockR2L l a equl none = some (blockAt es a equl)

/-- The block a search is for, if there is one, is the last one, and where it has to contain the
address it does not end at `2 ^ 64`. -/
def LastOnly (es : List (Entry VMBlock)) (a : Nat) (equl : Bool) : Prop :=
  ∀ e ∈ es, Hits e.val a equl →
    es.getLast? = some e ∧ (equl = false → Extent.stop e.val < 2 ^ 64)

/-- The call of `mergeSameProtect` for `p` follows no null link, keeps the attribute word of
every address, and leaves `p` neighbours of other attribute words only. -/
def Coalesces (r : VMRegion) (p : Ptr) : Prop :=
  ∃ l q, mergeSameProtect r.blocks p = some l ∧ r.SameAttrs { r with blocks := l } ∧
    l.deref p = some q ∧ (∀ n, l.deref q.next = some n → n.val.attr ≠ q.val.attr) ∧
    ∀ n, l.deref q.prev = some n → n.val.attr ≠ q.val.attr

/-- What `mergeSameProtect` absorbs has the attribute word of `b` throughout.  And `b` is the
first block, or there is a block of another protection behind it, and the one in front of it
has another attribute word. -/
def CoalesceOk (front : List VMBlock) (b : VMBlock) (back : List VMBlock) : Prop :=
  (∀ c ∈ absorbed b.prot back, 0 < c.size → c.attr = b.attr) ∧
    ∀ c ∈ front.getLast?, c.attr ≠ b.attr ∧ ∃ d ∈ back, d.prot ≠ b.prot

end VMRegion

end Vin64.Space
