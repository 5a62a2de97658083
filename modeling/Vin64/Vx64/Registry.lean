import Mathlib.Algebra.Group.Nat.Defs
import Mathlib.Data.Multiset.Defs
import Mathlib.Data.Multiset.AddSub

/-!
# The debug registry (`vx64/vx64.c`, `vx64/qemu/exec.c`)

The queues of the CPU state are lists.  `target_ulong` has 64 bits; the `int` counters of the
queries are integers, as there are fewer than 2^31 entries.  Entries with `BP_GDB` are those of the
interface, entries with `BP_CPU` those of the guest's debug registers.
-/

namespace Vin64.Vx64

abbrev TargetUlong := BitVec 64

def TARGET_PAGE_SIZE : TargetUlong := 4096

def BP_MEM_READ : BitVec 32 := 0x01
def BP_MEM_WRITE : BitVec 32 := 0x02
def BP_WATCHPOINT_HIT : BitVec 32 := 0x08
def BP_GDB : BitVec 32 := 0x10
def BP_CPU : BitVec 32 := 0x20

def VXWP_READ : BitVec 32 := 0x1
def VXWP_WRITE : BitVec 32 := 0x2

inductive VXError where
  | VXERR_OK
  | VXERR_FAIL
  | VXERR_INSUF_BUF
deriving Repr, DecidableEq

structure CPUBreakpoint where
  pc : TargetUlong
  flags : BitVec 32
deriving Repr, DecidableEq

structure CPUWatchpoint where
  vaddr : TargetUlong
  lenMask : TargetUlong
  flags : BitVec 32
deriving Repr, DecidableEq

structure VXWatchPoint where
  type : BitVec 32
  gvma : TargetUlong
  size : TargetUlong
deriving Repr, DecidableEq

structure CPUArchState where
  breakpoints : List CPUBreakpoint
  watchpoints : List CPUWatchpoint

namespace CPUArchState

/-! ## `exec.c` -/

def cpuBreakpointInsert (env : CPUArchState) (pc : TargetUlong) (flags : BitVec 32) : CPUArchState :=
  let bp : CPUBreakpoint := ⟨pc, flags⟩
  -- keep all GDB-injected breakpoints in front
  if flags &&& BP_GDB ≠ 0 then { env with breakpoints := bp :: env.breakpoints }
  else { env with breakpoints := env.breakpoints ++ [bp] }

/-- `none` is `-ENOENT`. -/
def cpuBreakpointRemove (env : CPUArchState) (pc : TargetUlong) (flags : BitVec 32) :
    Option CPUArchState :=
  let found : CPUBreakpoint → Bool := fun bp => bp.pc = pc ∧ bp.flags = flags
  if env.breakpoints.any found then some { env with breakpoints := env.breakpoints.eraseP found }
  else none

def cpuBreakpointRemoveAll (env : CPUArchState) (mask : BitVec 32) : CPUArchState :=
  { env with breakpoints := env.breakpoints.filter fun bp => bp.flags &&& mask = 0 }

def watchLenMask (len : TargetUlong) : TargetUlong := ~~~(len - 1)

/-- `none` is `-EINVAL`. -/
def cpuWatchpointInsert (env : CPUArchState) (addr len : TargetUlong) (flags : BitVec 32) :
    Option CPUArchState :=
  let lenMask := watchLenMask len
  if len &&& (len - 1) ≠ 0 ∨ addr &&& ~~~lenMask ≠ 0 ∨ len = 0 ∨ len > TARGET_PAGE_SIZE then none
  else
    let wp : CPUWatchpoint := ⟨addr, lenMask, flags⟩
    if flags &&& BP_GDB ≠ 0 then some { env with watchpoints := wp :: env.watchpoints }
    else some { env with watchpoints := env.watchpoints ++ [wp] }

/-- `none` is `-ENOENT`. -/
def cpuWatchpointRemove (env : CPUArchState) (addr len : TargetUlong) (flags : BitVec 32) :
    Option CPUArchState :=
  let found : CPUWatchpoint → Bool := fun wp =>
    addr = wp.vaddr ∧ watchLenMask len = wp.lenMask ∧ flags = wp.flags &&& ~~~BP_WATCHPOINT_HIT
  if env.watchpoints.any found then some { env with watchpoints := env.watchpoints.eraseP found }
  else none

def cpuWatchpointRemoveAll (env : CPUArchState) (mask : BitVec 32) : CPUArchState :=
  { env with watchpoints := env.watchpoints.filter fun wp => wp.flags &&& mask = 0 }

/-! ## `vx64.c` -/

def status : Option CPUArchState → VXError
  | some _ => .VXERR_OK
  | none => .VXERR_FAIL

def vx64InsertBp (env : CPUArchState) (vma : TargetUlong) : VXError × CPUArchState :=
  (.VXERR_OK, env.cpuBreakpointInsert vma BP_GDB)

def vx64RemoveBp (env : CPUArchState) (vma : TargetUlong) : VXError × CPUArchState :=
  let r := env.cpuBreakpointRemove vma BP_GDB
  (status r, r.getD env)

def vx64RemoveAllBps (env : CPUArchState) : VXError × CPUArchState :=
  (.VXERR_OK, env.cpuBreakpointRemoveAll BP_GDB)

/-- The access bits of a watchpoint type. -/
def accessFlags (type : BitVec 32) : BitVec 32 :=
  (if type &&& VXWP_READ ≠ 0 then BP_MEM_READ else 0) |||
    (if type &&& VXWP_WRITE ≠ 0 then BP_MEM_WRITE else 0)

def vx64InsertWp (env : CPUArchState) (vma size : TargetUlong) (type : BitVec 32) :
    VXError × CPUArchState :=
  let flags := accessFlags type
  if flags = 0 then (.VXERR_FAIL, env)
  else
    let r := env.cpuWatchpointInsert vma size (flags ||| BP_GDB)
    (status r, r.getD env)

def vx64RemoveWp (env : CPUArchState) (vma size : TargetUlong) (type : BitVec 32) :
    VXError × CPUArchState :=
  let flags := accessFlags type
  if flags = 0 then (.VXERR_FAIL, env)
  else
    let r := env.cpuWatchpointRemove vma size (flags ||| BP_GDB)
    (status r, r.getD env)

def vx64RemoveAllWps (env : CPUArchState) : VXError × CPUArchState :=
  (.VXERR_OK, env.cpuWatchpointRemoveAll BP_GDB)

end CPUArchState

/-- What a query leaves: what it wrote to the buffer and the value of `*len`. -/
structure Query (α : Type) where
  result : VXError
  buf : List α
  len : Int
deriving Repr, DecidableEq

/-- The loop of a query over a queue, for a buffer of length `len`. -/
def queryLoop {ε α : Type} (gdb : ε → Bool) (entry : ε → α) (len : Int) :
    List ε → List α → Int → Int → Query α
  | [], buf, numCopied, total =>
    ⟨if numCopied = total then .VXERR_OK else .VXERR_INSUF_BUF, buf, total⟩
  | e :: es, buf, numCopied, total =>
    if gdb e then
      if numCopied < len then
        queryLoop gdb entry len es (buf ++ [entry e]) (numCopied + 1) (total + 1)
      else queryLoop gdb entry len es buf numCopied (total + 1)
    else queryLoop gdb entry len es buf numCopied total

def CPUBreakpoint.gdb (bp : CPUBreakpoint) : Bool := bp.flags &&& BP_GDB ≠ 0

def CPUWatchpoint.gdb (wp : CPUWatchpoint) : Bool := wp.flags &&& BP_GDB ≠ 0

def CPUWatchpoint.entry (wp : CPUWatchpoint) : VXWatchPoint where
  gvma := wp.vaddr
  size := ~~~wp.lenMask + 1
  type := (if wp.flags &&& BP_MEM_READ ≠ 0 then VXWP_READ else 0) |||
    (if wp.flags &&& BP_MEM_WRITE ≠ 0 then VXWP_WRITE else 0)

namespace CPUArchState

def vx64QueryBps (env : CPUArchState) (len : Int) : Query TargetUlong :=
  queryLoop CPUBreakpoint.gdb CPUBreakpoint.pc len env.breakpoints [] 0 0

def vx64QueryWps (env : CPUArchState) (len : Int) : Query VXWatchPoint :=
  queryLoop CPUWatchpoint.gdb CPUWatchpoint.entry len env.watchpoints [] 0 0

end CPUArchState

/-! ## Histories -/

/-- The calls of the interface, and what the guest does: its debug registers insert and remove
entries of their own, and its accesses set and clear hit flags. -/
inductive Call where
  | insertBp (vma : TargetUlong)
  | removeBp (vma : TargetUlong)
  | removeAllBps
  | insertWp (vma size : TargetUlong) (type : BitVec 32)
  | removeWp (vma size : TargetUlong) (type : BitVec 32)
  | removeAllWps
  | hwBreakpoint (pc : TargetUlong)
  | hwWatchpoint (addr len : TargetUlong) (type : BitVec 32)
  | hwBreakpointRemove (i : Nat)
  | hwWatchpointRemove (i : Nat)
  | access (hit : Nat → Bool)

/-- The type bits of a guest watchpoint. -/
def guestFlags (type : BitVec 32) : BitVec 32 :=
  BP_CPU ||| type &&& (BP_MEM_READ ||| BP_MEM_WRITE)

def CPUWatchpoint.setHit (wp : CPUWatchpoint) (hit : Bool) : CPUWatchpoint :=
  { wp with flags := if hit then wp.flags ||| BP_WATCHPOINT_HIT else wp.flags &&& ~~~BP_WATCHPOINT_HIT }

/-- `cpu_*_remove_by_ref` of an entry the guest's debug registers refer to. -/
def eraseGuest {ε : Type} (gdb : ε → Bool) (l : List ε) (i : Nat) : List ε :=
  if (l[i]?).any gdb then l else l.eraseIdx i

def CPUArchState.step (env : CPUArchState) : Call → CPUArchState
  | .insertBp vma => (env.vx64InsertBp vma).2
  | .removeBp vma => (env.vx64RemoveBp vma).2
  | .removeAllBps => env.vx64RemoveAllBps.2
  | .insertWp vma size type => (env.vx64InsertWp vma size type).2
  | .removeWp vma size type => (env.vx64RemoveWp vma size type).2
  | .removeAllWps => env.vx64RemoveAllWps.2
  | .hwBreakpoint pc => env.cpuBreakpointInsert pc BP_CPU
  | .hwWatchpoint addr len type => (env.cpuWatchpointInsert addr len (guestFlags type)).getD env
  | .hwBreakpointRemove i =>
    { env with breakpoints := eraseGuest CPUBreakpoint.gdb env.breakpoints i }
  | .hwWatchpointRemove i =>
    { env with watchpoints := eraseGuest CPUWatchpoint.gdb env.watchpoints i }
  | .access hit => { env with watchpoints := env.watchpoints.mapIdx fun i wp => wp.setHit (hit i) }

/-- The state after the calls, the first one first. -/
def afterCalls (calls : List Call) : CPUArchState := calls.foldl CPUArchState.step ⟨[], []⟩

/-! ## What the registry is for -/

/-- The breakpoints and watchpoints inserted and not yet removed. -/
structure Inserted where
  bps : Multiset TargetUlong
  wps : Multiset VXWatchPoint

/-- The watchpoints that can be inserted: some access, a power of two of at most a page, and an
aligned address. -/
def Acceptable (vma size : TargetUlong) (type : BitVec 32) : Prop :=
  (type &&& VXWP_READ ≠ 0 ∨ type &&& VXWP_WRITE ≠ 0) ∧ (∃ k ≤ 12, size.toNat = 2 ^ k) ∧
    size.toNat ∣ vma.toNat

/-- The watchpoint with the access bits of `type`. -/
def watchPoint (vma size : TargetUlong) (type : BitVec 32) : VXWatchPoint :=
  ⟨type &&& (VXWP_READ ||| VXWP_WRITE), vma, size⟩

open Classical in
noncomputable def Inserted.step (r : Inserted) : Call → Inserted
  | .insertBp vma => { r with bps := vma ::ₘ r.bps }
  | .removeBp vma => { r with bps := r.bps.erase vma }
  | .removeAllBps => { r with bps := 0 }
  | .insertWp vma size type =>
    if Acceptable vma size type then { r with wps := watchPoint vma size type ::ₘ r.wps } else r
  | .removeWp vma size type => { r with wps := r.wps.erase (watchPoint vma size type) }
  | .removeAllWps => { r with wps := 0 }
  | .hwBreakpoint _ | .hwWatchpoint _ _ _ | .hwBreakpointRemove _ | .hwWatchpointRemove _
  | .access _ => r

noncomputable def insertedBy (calls : List Call) : Inserted := calls.foldl Inserted.step ⟨0, 0⟩

/-- A query for a buffer of `n` entries reports `m`: all of it when it fits, else as much as
the buffer holds. -/
structure Query.Reports {α : Type} (q : Query α) (m : Multiset α) (n : Nat) : Prop where
  len : q.len = m.card
  fits : m.card ≤ n → q.result = .VXERR_OK ∧ (q.buf : Multiset α) = m
  short : n < m.card → q.result = .VXERR_INSUF_BUF ∧ q.buf.length = n ∧ (q.buf : Multiset α) ≤ m

end Vin64.Vx64
