import Mathlib.Algebra.Group.Int.Defs
import Mathlib.Data.List.Sort

/-!
# The descriptions of exports (`tools/vmdllgen/dll2desc/pdbloader.cpp`, `app.cpp`)

What DIA and the image report are the inputs.  Names are bytes of the local code page.
-/

namespace Vin64.Tools

def SymTagPublicSymbol : Nat := 10

/-- What DIA reports of a symbol.  It may have no address. -/
structure DiaSymbol where
  symTag : Nat
  relativeVirtualAddress : Option (BitVec 32)
  name : List UInt8
  isFunction : Bool
deriving DecidableEq

inductive SymbolType where
  | Data
  | Function
deriving DecidableEq

/-- A `PdbPublicSymbol`, by what its virtual functions return. -/
structure PdbPublicSymbol where
  type : SymbolType
  name : List UInt8
  rva : BitVec 32
deriving DecidableEq

def pdbPublicFunctionSymbol (name : List UInt8) (rva : BitVec 32) : PdbPublicSymbol where
  type := .Function
  name := name
  rva := rva

/-- `PdbPublicDataSymbol::Type` returns `Function` as well. -/
def pdbPublicDataSymbol (name : List UInt8) (rva : BitVec 32) : PdbPublicSymbol where
  type := .Function
  name := name
  rva := rva

/-- One round of the loop over the children of the global scope. -/
def publicSymbol (symbol : DiaSymbol) : Option PdbPublicSymbol :=
  let rva := symbol.relativeVirtualAddress.getD 0xFFFFFFFF#32
  if symbol.symTag ≠ SymTagPublicSymbol then none
  else if symbol.isFunction then some (pdbPublicFunctionSymbol symbol.name rva)
  -- the other branch makes the same object
  else some (pdbPublicFunctionSymbol symbol.name rva)

def getPublicSymbols (symbols : List DiaSymbol) : List PdbPublicSymbol :=
  symbols.filterMap publicSymbol

/-- What the image reports of an export. -/
structure ExportedFunction where
  rva : BitVec 32
  name : Option (List UInt8)
  ordinal : BitVec 16
  forwarded : Bool

/-! ## Text -/

def atSign : UInt8 := 0x40

def isDigit (c : UInt8) : Bool := 0x30 ≤ c && c ≤ 0x39

/-- `isspace` -/
def isSpace (c : UInt8) : Bool := c = 0x20 || (0x09 ≤ c && c ≤ 0x0D)

/-- `&name[name.find_last_of('@') + 1]` -/
def afterLastAt (name : List UInt8) : Option (List UInt8) :=
  if atSign ∈ name then some (name.reverse.takeWhile (· ≠ atSign)).reverse else none

def digitsValue (digits : List UInt8) : Nat :=
  digits.foldl (fun n c => 10 * n + (c.toNat - 0x30)) 0

/-- The decimal number a text begins with: blanks, a sign, and digits. -/
def decimal (text : List UInt8) : Option Int :=
  let body := text.dropWhile isSpace
  let unsigned := if body.head? = some 0x2B ∨ body.head? = some 0x2D then body.tail else body
  let digits := unsigned.takeWhile isDigit
  if digits = [] then none
  else if body.head? = some 0x2D then some (-(digitsValue digits : Int))
  else some (digitsValue digits)

/-- The number fits in an `int`. -/
def FitsInt (n : Int) : Prop := -2 ^ 31 ≤ n ∧ n < 2 ^ 31

instance (n : Int) : Decidable (FitsInt n) := inferInstanceAs (Decidable (_ ∧ _))

/-- What `%d` stores.  For a number that does not fit in an `int` that is not defined. -/
def stored (overflow : Int → BitVec 32) (n : Int) : Int :=
  if FitsInt n then n else (overflow n).toInt

/-- `sscanf( text, "%d", &stack )` -/
def sscanf (overflow : Int → BitVec 32) (text : List UInt8) (stack : Int) : Int :=
  ((decimal text).map (stored overflow)).getD stack

def ascii (text : List Char) : List UInt8 := text.map fun c => UInt8.ofNat c.toNat

/-- `%d` -/
def decText (n : Int) : List UInt8 :=
  (if n < 0 then ascii ['-'] else []) ++ ascii (Nat.toDigits 10 n.natAbs)

/-- The name of an export, cut off by the buffer of 512 bytes. -/
def exportName (f : ExportedFunction) : List UInt8 :=
  match f.name with
  | some name => (name.takeWhile (· ≠ 0)).take 511
  | none => ascii ['#'] ++ decText f.ordinal.toNat

/-- What is written on a line of the file. -/
structure DescLine where
  rva : BitVec 32
  exportName : List UInt8
  paramNum : Int
  isData : Bool

/-! ## The descriptions -/

/-- `std::sort` by address. -/
def sortSymbols (symbols : List PdbPublicSymbol) : List PdbPublicSymbol :=
  symbols.mergeSort fun a b => a.rva ≤ b.rva

/-- `std::lower_bound`: the first symbol that is not below the address, if there is one. -/
def lowerBound (symbols : List PdbPublicSymbol) (rva : BitVec 32) : Option PdbPublicSymbol :=
  (symbols.dropWhile fun s => s.rva < rva).head?

/-- `paramNum` of a function. -/
def functionParams (overflow : Int → BitVec 32) (name : List UInt8) : Int :=
  match afterLastAt name with
  | none => 0
  | some text => (sscanf overflow text 0).tdiv 4

/-- `paramNum` and `isData` of an export. -/
def classify (overflow : Int → BitVec 32) (symbols : List PdbPublicSymbol) (rva : BitVec 32) :
    Int × Bool :=
  match lowerBound symbols rva with
  | none => (0, false)
  | some s =>
    if s.rva = rva then
      match s.type with
      | .Data => (0, true)
      | .Function => (functionParams overflow s.name, false)
    else (0, false)

/-- The lines, one for an export. -/
def generateDesc (overflow : Int → BitVec 32) (symbols : List DiaSymbol)
    (exports : List ExportedFunction) : List DescLine :=
  let sorted := sortSymbols (getPublicSymbols symbols)
  exports.filterMap fun f =>
    if f.forwarded then none
    else
      let (paramNum, isData) := classify overflow sorted f.rva
      some ⟨f.rva, exportName f, paramNum, isData⟩

end Vin64.Tools
