import Vin64.Xv.Types

/-!
# Integers in a value (`utils/txvalue.hpp`, `utils/xvalue.imp.cpp`)

The members of a value's union share its 64 bits; an object is its address there, and null is 0.
-/

namespace Vin64.Xv

/-- `xvalue_t`, and the objects whose references it gave up, the last one first. -/
structure XValue where
  type : ValueType
  bsiz : ValueSize
  anyval : BitVec 64
  released : List (BitVec 64)
deriving Repr, DecidableEq

/-! ## `ValueSetType2` -/

/-- `ValueInit`, for a value that is not null. -/
def valueInit (v : XValue) : XValue := { v with type := .dNull, bsiz := .s8, anyval := 0 }

/-- `_release` and `Release` of the object, if there is one. -/
def releaseObject (v : XValue) : XValue :=
  if v.anyval = 0 then v else { v with released := v.anyval :: v.released }

def valueClear (v : XValue) : XValue :=
  match v.type with
  | .dNull | .dInt | .dReal => valueInit v
  | .dLocalStr | .dUtf8Str | .dUniStr | .dArray | .dObject | .dBuffer | .dUnknown =>
    valueInit (releaseObject v)

/-- `made` is the address of the object that is made for the type, if one is. -/
def valueSetType2 (made : BitVec 64) (v : XValue) (vt : ValueType) (vs : ValueSize) :
    Bool × XValue :=
  if v.type = vt then (true, { v with bsiz := vs })
  else
    let v := { valueClear v with type := vt, bsiz := vs }
    match vt with
    | .dNull | .dInt | .dReal => (true, { v with anyval := 0 })
    | .dLocalStr | .dUtf8Str | .dUniStr | .dArray | .dObject | .dBuffer =>
      let v := { v with anyval := made }
      if made = 0 then (false, valueClear v) else (true, v)
    | .dUnknown => (true, v)

/-! ## Integers -/

inductive IntType where
  | int8_t | int16_t | int32_t | int64_t | uint8_t | uint16_t | uint32_t | uint64_t
deriving Repr, DecidableEq

namespace IntType

def bsiz : IntType → ValueSize
  | int8_t | uint8_t => .s8
  | int16_t | uint16_t => .s16
  | int32_t | uint32_t => .s32
  | int64_t | uint64_t => .s64

/-- The conversion to the type of `integer`. -/
def extend (T : IntType) (i : BitVec (8 * T.bsiz.bytes)) : BitVec 64 :=
  match T with
  | int8_t | int16_t | int32_t | int64_t => i.signExtend 64
  | uint8_t | uint16_t | uint32_t | uint64_t => i.setWidth 64

end IntType

/-- The `set` that stores an integer of a width. -/
def setInteger (vs : ValueSize) (i : BitVec 64) (v : XValue) : Bool × XValue :=
  match valueSetType2 0 v .dInt vs with
  | (false, v) => (false, v)
  | (true, v) => (true, { v with anyval := i })

/-- The `set` whose assignment goes to its own parameter. -/
def setParameter (vs : ValueSize) (v : XValue) : Bool × XValue :=
  match valueSetType2 0 v .dInt vs with
  | (false, v) => (false, v)
  | (true, v) => (true, v)

/-- The overloads of `set` for integers. -/
def set (T : IntType) (i : BitVec (8 * T.bsiz.bytes)) (v : XValue) : Bool × XValue :=
  match T with
  | .int8_t => setInteger .s8 (IntType.int8_t.extend i) v
  | .int16_t => setParameter .s16 v
  | .int32_t => setInteger .s32 (IntType.int32_t.extend i) v
  | .int64_t => setInteger .s64 (IntType.int64_t.extend i) v
  | .uint8_t => setInteger .s8 (IntType.uint8_t.extend i) v
  | .uint16_t => setParameter .s16 v
  | .uint32_t => setInteger .s32 (IntType.uint32_t.extend i) v
  | .uint64_t => setInteger .s64 (IntType.uint64_t.extend i) v

/-- The overloads of `get` for integers, one for each width. -/
def get (vs : ValueSize) (v : XValue) : Option (BitVec (8 * vs.bytes)) :=
  if v.type = .dInt then some (v.anyval.setWidth (8 * vs.bytes)) else none

/-! ## What storing is to do -/

/-- The integer that a value holds; any other value counts as 0. -/
def XValue.number (v : XValue) : BitVec 64 := if v.type = .dInt then v.anyval else 0

/-- `set(i)` makes the value this integer. -/
structure Stores (T : IntType) (i : BitVec (8 * T.bsiz.bytes)) (v : XValue) : Prop where
  returns : (set T i v).1 = true
  type : (set T i v).2.type = .dInt
  bsiz : (set T i v).2.bsiz = T.bsiz
  integer : (set T i v).2.anyval = T.extend i
  gets : get T.bsiz (set T i v).2 = some i

end Vin64.Xv
