import Vin64.Utils.Bitmap

/-!
# Runs of calls on a bitmap

A bitmap stands for a sequence of booleans: `resize` cuts it or adds clear bits, `setbit`
stores one bit and `testbit` reads one.  The words behind the sequence may hold bits
beyond `bits()`.
-/

namespace Vin64.Utils

/-- A call on a bitmap; `testbit` and `bits` leave it as it is. -/
inductive BitCall
  | clear
  | resize (bits : Nat)
  | setbit (idx : Nat) (f : Bool)
  | testbit (idx : Nat)
  | bits
deriving DecidableEq

/-- The sequence of booleans after a call -/
def stepSeq (s : List Bool) : BitCall → List Bool
  | .clear => []
  | .resize bits => s.take bits ++ List.replicate (bits - s.length) false
  | .setbit idx f => s.set idx f
  | .testbit _ => s
  | .bits => s

/-- The sequence of booleans after all calls, the first one first. -/
def runSeq (s : List Bool) (calls : List BitCall) : List Bool := calls.foldl stepSeq s

namespace XBitMap

/-- The bitmap after a call -/
def step (m : XBitMap) : BitCall → XBitMap
  | .clear => m.clear
  | .resize bits => m.resize bits
  | .setbit idx f => m.setbit idx f
  | .testbit _ => m
  | .bits => m

/-- The bitmap after all calls, the first one first. -/
def run (m : XBitMap) (calls : List BitCall) : XBitMap := calls.foldl step m

/-- `bits()` and `testbit` show the sequence `s`. -/
def Shows (m : XBitMap) (s : List Bool) : Prop :=
  m.bits = s.length ∧ ∀ idx, m.testbit idx = s.getD idx false

/-- A call of `setbit` is for a bit below the size. -/
def Within (m : XBitMap) : BitCall → Prop
  | .setbit idx _ => idx < m.bits
  | _ => True

/-- A call that makes the bitmap larger adds only bits that are clear in its words. -/
def GrowsClear (m : XBitMap) : BitCall → Prop
  | .resize bits => ∀ idx, m.bits ≤ idx → idx < bits → m.bit idx = false
  | _ => True

/-- Every call of a run meets a condition on the bitmap before the call. -/
def Meets (ok : XBitMap → BitCall → Prop) : XBitMap → List BitCall → Prop
  | _, [] => True
  | m, call :: calls => ok m call ∧ Meets ok (m.step call) calls

/-- The bitmap shows the sequence of booleans after every call of a run. -/
def AlwaysShows (m : XBitMap) (s : List Bool) (calls : List BitCall) : Prop :=
  ∀ done, done <+: calls → (m.run done).Shows (runSeq s done)

/-! ## The searches -/

/-- `find0` says whether there is a clear bit, and where the first one is. -/
def FindsFirst0 (m : XBitMap) : Prop :=
  (m.find0.isSome ↔ ∃ idx < m.bits, m.testbit idx = false) ∧
    ∀ idx, m.find0 = some idx →
      idx < m.bits ∧ m.testbit idx = false ∧ ∀ j < idx, m.testbit j = true

/-- The number of words `findLast1` looks at. -/
def bpp (m : XBitMap) (piece : Nat) : Nat := m.buf.length / max piece 1

/-- `findLast1` says whether there is a set bit in the last words, and where the last set
bit is. -/
def FindsLast1 (m : XBitMap) (piece : Nat) : Prop :=
  ((m.findLast1 piece).isSome ↔
      ∃ idx, (m.buf.length - m.bpp piece) * 32 ≤ idx ∧ m.bit idx = true) ∧
    ∀ idx, m.findLast1 piece = some idx → m.bit idx = true ∧ ∀ j > idx, m.bit j = false

/-- The last words are zero.  Or `t` is the last word that is not: it lies in the first part as
well, the search stops at it, and the index of its first clear bit from the top is the one of
its last set bit. -/
def LastWordOk (m : XBitMap) (piece : Nat) : Prop :=
  (∀ l < m.bpp piece, m.word (m.buf.length - l - 1) = 0#32) ∨
    ∃ t < m.bpp piece, (∀ l > t, m.word l = 0#32) ∧
      (m.word t = 1#32 ∨ m.word t = 0xFFFFFFFE#32) ∧
      m.word (m.buf.length - t - 1) ≠ 0#32 ∧
      ∀ l < t, m.word (m.buf.length - l - 1) ≠ 0#32 → m.word l = BitVec.allOnes 32

end XBitMap

end Vin64.Utils
