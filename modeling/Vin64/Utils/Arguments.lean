import Mathlib.Algebra.Group.Nat.Defs

/-!
# Command lines and options (`utils/arguments.h`, the `_UNICODE` build)

`none` is a read past a terminator or a write past a buffer.  The counters of `parse_cmdline` are
natural numbers: none exceeds the number of characters of the line by more than two.
-/

namespace Vin64.Utils

abbrev WChar := BitVec 16

def SPACECHAR : WChar := 0x20#16
def DQUOTECHAR : WChar := 0x22#16
def TABCHAR : WChar := 0x09#16
def NULCHAR : WChar := 0x00#16
def SLASHCHAR : WChar := 0x5C#16

/-- The characters before the terminator. -/
structure WStr where
  chars : List WChar
  noNul : NULCHAR ∉ chars
deriving DecidableEq

/-- `*p` -/
def WStr.deref (s : WStr) (p : Nat) : Option WChar := (s.chars ++ [NULCHAR])[p]?

/-- A pointer that only `*ptr++ = x` moves, through `room` elements. -/
structure OutPtr (α : Type) where
  room : Nat
  written : List α

/-- `if (ptr) *ptr++ = x;` -/
def putIf {α : Type} (ptr : Option (OutPtr α)) (x : α) : Option (Option (OutPtr α)) :=
  match ptr with
  | none => some none
  | some b =>
    if b.written.length < b.room then some (some { b with written := b.written ++ [x] }) else none

/-- What `parse_cmdline` writes.  A pointer to an argument is the number of characters written
before it, or null. -/
structure Outs where
  argv : Option (OutPtr (Option Nat))
  args : Option (OutPtr WChar)
  numargs : Nat
  numchars : Nat

/-- `if (args) *args++ = c; ++*numchars;` -/
def Outs.copy (o : Outs) (c : WChar) : Option Outs := do
  let args ← putIf o.args c
  some { o with args := args, numchars := o.numchars + 1 }

/-- `if (argv) *argv++ = ptr; ++*numargs;` -/
def Outs.store (o : Outs) (ptr : Option Nat) : Option Outs := do
  let argv ← putIf o.argv ptr
  some { o with argv := argv, numargs := o.numargs + 1 }

/-- The value of `args`. -/
def Outs.here (o : Outs) : Option Nat := o.args.map (·.written.length)

def isBlank (c : WChar) : Bool := c = SPACECHAR || c = TABCHAR

/-- `while (*p == SPACECHAR || *p == TABCHAR) ++p;` -/
def skipBlanks (line : WStr) : Nat → Nat → Option Nat
  | 0, _ => none
  | fuel + 1, p => do
    let c ← line.deref p
    if isBlank c then skipBlanks line fuel (p + 1) else some p

/-- `if ( *p ) { while ... }` -/
def skipToArg (line : WStr) (p : Nat) : Option Nat := do
  if (← line.deref p) ≠ NULCHAR then skipBlanks line (line.chars.length + 1) p else some p

/-- `while (*p == SLASHCHAR) { ++p; ++numslash; }` -/
def countSlashes (line : WStr) : Nat → Nat → Nat → Option (Nat × Nat)
  | 0, _, _ => none
  | fuel + 1, p, numslash => do
    let c ← line.deref p
    if c = SLASHCHAR then countSlashes line fuel (p + 1) (numslash + 1) else some (p, numslash)

/-- The pointer, `inquote`, `copychar` and `numslash` behind the test for a quote. -/
def atQuote (line : WStr) (p : Nat) (inquote : Bool) (numslash : Nat) :
    Option (Nat × Bool × Bool × Nat) := do
  if (← line.deref p) = DQUOTECHAR then
    if numslash % 2 = 0 then
      -- `p[1]` is read inside quotes only
      let doubled ←
        if inquote then (line.deref (p + 1)).map fun c => decide (c = DQUOTECHAR) else some false
      if doubled then some (p + 1, inquote, true, numslash / 2)
      else some (p, !inquote, false, numslash / 2)
    else some (p, inquote, true, numslash / 2)
  else some (p, inquote, true, numslash)

/-- `while (numslash--)` -/
def copySlashes : Nat → Outs → Option Outs
  | 0, o => some o
  | numslash + 1, o => do copySlashes numslash (← o.copy SLASHCHAR)

/-- The loop through one argument. -/
def scanArg (line : WStr) : Nat → Nat → Bool → Outs → Option (Nat × Bool × Outs)
  | 0, _, _, _ => none
  | fuel + 1, p, inquote, o => do
    let (p, numslash) ← countSlashes line (line.chars.length + 1) p 0
    let (p, inquote, copychar, numslash) ← atQuote line p inquote numslash
    let o ← copySlashes numslash o
    let c ← line.deref p
    if c = NULCHAR || (!inquote && isBlank c) then some (p, inquote, o)
    else
      let o ← if copychar then o.copy c else some o
      scanArg line fuel (p + 1) inquote o

/-- The loop on each argument. -/
def scanArgs (line : WStr) : Nat → Nat → Bool → Outs → Option Outs
  | 0, _, _, _ => none
  | fuel + 1, p, inquote, o => do
    let p ← skipToArg line p
    if (← line.deref p) = NULCHAR then some o
    else
      let o ← o.store o.here
      let (p, inquote, o) ← scanArg line (line.chars.length + 1) p inquote o
      scanArgs line fuel p inquote (← o.copy NULCHAR)

def parseCmdline (line : WStr) (argv : Option (OutPtr (Option Nat)))
    (args : Option (OutPtr WChar)) : Option Outs := do
  let o ← scanArgs line (line.chars.length + 1) 0 false ⟨argv, args, 0, 0⟩
  o.store none

/-- The string at a pointer into a buffer, when a terminator ends it there. -/
def cstrAt (buf : List WChar) (ptr : Option Nat) : Option WStr := do
  let tail := buf.drop (← ptr)
  if NULCHAR ∈ tail then
    some ⟨tail.takeWhile (· ≠ NULCHAR), fun h => by
      simpa using List.all_eq_true.1 List.all_takeWhile NULCHAR h⟩
  else none

/-! ## Options -/

/-- `Arguments::Option`, where `size_t` has `w` bits. -/
structure Opt (w : Nat) where
  descs : List WStr
  desc : WStr
  special : Bool
  maxArgc : BitVec w
  values : List WStr

def emptyStr : WStr := ⟨[], by simp⟩

def Opt.make {w : Nat} (c : BitVec w) (desc : Option WStr) : Opt w where
  descs := []
  desc := desc.getD emptyStr
  special := false
  maxArgc := c
  values := []

def Opt.appendDesc {w : Nat} (o : Opt w) (desc : Option WStr) : Opt w :=
  { o with descs := o.descs ++ desc.toList }

/-- The two `std::map`s, and the text after the help. -/
structure Arguments (w : Nat) where
  wfields : WStr → Option (Opt w)
  walais : WStr → Option WStr
  foots : WStr

namespace Arguments

variable {w : Nat}

def ctor : Arguments w := ⟨fun _ => none, fun _ => none, emptyStr⟩

/-- `!name || !name[0]` -/
def isNone (name : Option WStr) : Bool :=
  match name with
  | none => true
  | some s => s.chars.isEmpty

def setField (a : Arguments w) (name : WStr) (o : Opt w) : Arguments w :=
  { a with wfields := fun n => if n = name then some o else a.wfields n }

def addAlais (a : Arguments w) (alais name : Option WStr) : Bool × Arguments w :=
  match alais, name with
  | some x, some n =>
    if isNone alais || isNone name then (false, a)
    else (true, { a with walais := fun y => if y = x then some n else a.walais y })
  | _, _ => (false, a)

def addOption (a : Arguments w) (name : Option WStr) (maxOpt : BitVec w) (desc : Option WStr) :
    Bool × Arguments w :=
  match name with
  | some n => if isNone name then (false, a) else (true, a.setField n (Opt.make maxOpt desc))
  | none => (false, a)

def addDesc (a : Arguments w) (name desc : Option WStr) : Bool × Arguments w :=
  match name with
  | some n =>
    if isNone name then (false, a)
    else
      match a.wfields n with
      | none => (false, a)
      | some o => (true, a.setField n (o.appendDesc desc))
  | none => (false, a)

def setFoot (a : Arguments w) (desc : Option WStr) : Arguments w :=
  { a with foots := desc.getD emptyStr }

/-- `it->second._special = true` -/
def setSpecial (a : Arguments w) (name : WStr) (o : Opt w) : Arguments w :=
  a.setField name { o with special := true }

/-- `it->second._values.push_back( para )` -/
def pushValue (a : Arguments w) (name para : WStr) : Arguments w :=
  match a.wfields name with
  | none => a
  | some o => a.setField name { o with values := o.values ++ [para] }

/-- The loop over the values of `name`: the arguments left, `c`, and the table. -/
def takeValues (name : WStr) (cmax : BitVec w) :
    List WStr → Nat → Arguments w → List WStr × Nat × Arguments w
  | [], c, a => ([], c, a)
  | para :: rest, c, a =>
    if c < cmax.toNat then
      if (a.wfields para).isSome then (para :: rest, c, a)
      else takeValues name cmax rest (c + 1) (a.pushValue name para)
    else (para :: rest, c, a)

theorem takeValues_length (name : WStr) (cmax : BitVec w) (args : List WStr) (c : Nat)
    (a : Arguments w) : (takeValues name cmax args c a).1.length ≤ args.length := by
  induction args generalizing c a with
  | nil => simp [takeValues]
  | cons para rest ih =>
      rw [takeValues]
      split
      · split
        · simp
        · have h := ih (c + 1) (a.pushValue name para)
          simp only [List.length_cons]
          omega
      · simp

/-- The loop over the arguments from `i` on. -/
def parseFrom (args : List WStr) (ac : Nat) (a : Arguments w) : Nat × Arguments w :=
  match args with
  | [] => (ac, a)
  | warg :: rest =>
    match a.wfields warg with
    | none => (0, a)
    | some o =>
      let r := takeValues warg o.maxArgc rest 0 (a.setSpecial warg o)
      -- `cmax != -1 && c != cmax`
      if o.maxArgc ≠ BitVec.allOnes w ∧ r.2.1 ≠ o.maxArgc.toNat then (0, r.2.2)
      else parseFrom r.1 (ac + 1) r.2.2
termination_by args.length
decreasing_by
  have h := takeValues_length warg o.maxArgc rest 0 (a.setSpecial warg o)
  simp only [List.length_cons]
  omega

end Arguments

/-- The array of `argc` strings. -/
structure ArgVec (w : Nat) where
  words : List WStr
  short : words.length < 2 ^ w

namespace Arguments

variable {w : Nat}

def parse (a : Arguments w) (wargs : ArgVec w) (argi : BitVec w) : Nat × Arguments w :=
  parseFrom (wargs.words.drop argi.toNat) 0 a

def getOption (a : Arguments w) (field : WStr) : Option (Opt w) :=
  match a.wfields field with
  | none => none
  | some o => if !o.special then none else some o

/-- The strings `parse( optstr )` hands on, no strings when it returns at once. -/
def wargsOf (optstr : WStr) : Option (List WStr) := do
  let counted ← parseCmdline optstr none none
  if counted.numargs = 0 ∨ counted.numchars = 0 then some []
  else
    let stored ← parseCmdline optstr (some ⟨counted.numargs, []⟩) (some ⟨counted.numchars + 1, []⟩)
    let tmpptr ← stored.argv
    let tmpbuf ← stored.args
    (tmpptr.written.take (counted.numargs - 1)).mapM (cstrAt tmpbuf.written)

def parseLine (a : Arguments w) (optstr : WStr) : Option (Nat × Arguments w) :=
  (wargsOf optstr).map fun wargs => parseFrom wargs 0 a

/-- The calls that set a table up. -/
inductive Setup (w : Nat) where
  | addAlais (alais name : Option WStr)
  | addOption (name : Option WStr) (maxOpt : BitVec w) (desc : Option WStr)
  | addDesc (name desc : Option WStr)
  | setFoot (desc : Option WStr)

def setup (a : Arguments w) : Setup w → Arguments w
  | .addAlais alais name => (a.addAlais alais name).2
  | .addOption name maxOpt desc => (a.addOption name maxOpt desc).2
  | .addDesc name desc => (a.addDesc name desc).2
  | .setFoot desc => a.setFoot desc

/-- A fresh table after the calls, in order. -/
def after (calls : List (Setup w)) : Arguments w := calls.foldl setup ctor

end Arguments

end Vin64.Utils
