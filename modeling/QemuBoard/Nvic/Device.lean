import Mathlib.Algebra.Order.Ring.Int
import Mathlib.Logic.Function.Basic

/-! The interrupt controller of a CPU of the board, `hw/intc/armv7m_nvic.c`. A Cortex-M7 is
v7 without the security extension: there is one bank of exceptions, `AIRCR.PRIS` is clear and
`AIRCR.BFHFNMINS` set. The registers of the CPU that the controller looks at are kept in its
state. -/

namespace QemuBoard.Nvic

namespace Excp

abbrev reset : Nat := 1
abbrev nmi : Nat := 2
abbrev hard : Nat := 3
abbrev mem : Nat := 4
abbrev bus : Nat := 5
abbrev usage : Nat := 6
abbrev svc : Nat := 11
abbrev debug : Nat := 12
abbrev pendsv : Nat := 14
abbrev systick : Nat := 15

end Excp

abbrev firstIrq : Nat := 16

abbrev noexcPrio : Int := 0x100

structure VecInfo where
  prio : Int := 0
  enabled : Bool := false
  pending : Bool := false
  active : Bool := false
  level : Bool := false
  deriving DecidableEq

structure NvicState where
  numIrq : Nat
  numPrioBits : Nat
  vectors : Nat → VecInfo
  prigroup : Nat
  vectpending : Nat
  vectpendingPrio : Int
  exceptionPrio : Int
  excpout : Bool
  basepri : Nat
  primask : Bool
  faultmask : Bool
  /-- `env->v7m.exception`, the number of the exception that is being handled. -/
  exception : Nat
  hfsr : BitVec 32
  /-- The CPU is on its way into a handler, in `v7m_push_stack` or `v7m_exception_taken`. -/
  entering : Bool

def NvicState.put (s : NvicState) (irq : Nat) (f : VecInfo → VecInfo) : NvicState :=
  { s with vectors := Function.update s.vectors irq (f (s.vectors irq)) }

def NvicState.gprio (s : NvicState) (prio : Int) : Int :=
  prio / 2 ^ (s.prigroup + 1) * 2 ^ (s.prigroup + 1)

def excGroupPrio (s : NvicState) (rawprio : Int) : Int :=
  if rawprio < 0 then rawprio else s.gprio rawprio

/-- The local variables of `nvic_recompute_state`. -/
structure Scan where
  pendPrio : Int
  activePrio : Int
  pendIrq : Nat

def Scan.visit (vectors : Nat → VecInfo) (c : Scan) (i : Nat) : Scan :=
  let vec := vectors i
  let c := if vec.enabled ∧ vec.pending ∧ vec.prio < c.pendPrio then
    { c with pendPrio := vec.prio, pendIrq := i } else c
  if vec.active ∧ vec.prio < c.activePrio then { c with activePrio := vec.prio } else c

def scan (s : NvicState) : Scan :=
  (List.range' 1 (s.numIrq - 1)).foldl (Scan.visit s.vectors) ⟨noexcPrio, noexcPrio, 0⟩

def nvicRecomputeState (s : NvicState) : NvicState :=
  let c := scan s
  let activePrio := if c.activePrio > 0 then s.gprio c.activePrio else c.activePrio
  let pendPrio := if c.pendPrio > 0 then s.gprio c.pendPrio else c.pendPrio
  { s with vectpending := c.pendIrq, vectpendingPrio := pendPrio, exceptionPrio := activePrio }

def nvicExecPrio (s : NvicState) : Int :=
  let running := if s.basepri > 0 then excGroupPrio s s.basepri else noexcPrio
  let running := if s.primask then 0 else running
  let running := if s.faultmask then -1 else running
  min running s.exceptionPrio

def armv7mNvicCanTakePendingException (s : NvicState) : Bool :=
  nvicExecPrio s > s.vectpendingPrio

def nvicIrqUpdate (s : NvicState) : NvicState :=
  let s := nvicRecomputeState s
  { s with excpout := s.vectpendingPrio < s.exceptionPrio }

def prioMask (s : NvicState) (prio : Nat) : Nat :=
  prio / 2 ^ (8 - s.numPrioBits) * 2 ^ (8 - s.numPrioBits)

def setPrio (s : NvicState) (irq prio : Nat) : Option NvicState :=
  if irq > Excp.nmi ∧ irq < s.numIrq then
    some (s.put irq fun vec => { vec with prio := prioMask s prio })
  else none

def armv7mNvicClearPending (s : NvicState) (irq : Nat) : Option NvicState :=
  if irq > Excp.reset ∧ irq < s.numIrq then
    if (s.vectors irq).pending then
      some (nvicIrqUpdate (s.put irq fun vec => { vec with pending := false }))
    else some s
  else none

/-- The end of `do_armv7m_nvic_set_pending`. -/
def pend (s : NvicState) (irq : Nat) : NvicState :=
  if (s.vectors irq).pending then s
  else nvicIrqUpdate (s.put irq fun vec => { vec with pending := true })

def synchronous (irq : Nat) : Prop := irq ≥ Excp.hard ∧ irq < Excp.pendsv

instance (irq : Nat) : Decidable (synchronous irq) := inferInstanceAs (Decidable (_ ∧ _))

def escalates (s : NvicState) (irq : Nat) : Prop :=
  excGroupPrio s (s.vectors irq).prio ≥ nvicExecPrio s ∨ (s.vectors irq).enabled = false

instance (s : NvicState) (irq : Nat) : Decidable (escalates s irq) :=
  inferInstanceAs (Decidable (_ ∨ _))

abbrev hfsrForced : BitVec 32 := 0x40000000

abbrev hfsrVecttbl : BitVec 32 := 2

/-- `none` is a failed assertion or `cpu_abort` with a lockup. -/
def doArmv7mNvicSetPending (s : NvicState) (irq : Nat) (derived : Bool) : Option NvicState :=
  if ¬(irq > Excp.reset ∧ irq < s.numIrq) then none
  else if derived ∧ ¬synchronous irq then none
  else if derived ∧ irq = Excp.debug ∧ excGroupPrio s (s.vectors irq).prio ≥ nvicExecPrio s then
    some s
  else if derived ∧ irq = Excp.hard ∧ (s.vectors irq).prio ≥ s.vectpendingPrio then none
  else if synchronous irq ∧ escalates s irq then
    if nvicExecPrio s ≤ (s.vectors Excp.hard).prio then none
    else some (pend { s with hfsr := s.hfsr ||| hfsrForced } Excp.hard)
  else some (pend s irq)

def armv7mNvicSetPending (s : NvicState) (irq : Nat) : Option NvicState :=
  doArmv7mNvicSetPending s irq false

def armv7mNvicSetPendingDerived (s : NvicState) (irq : Nat) : Option NvicState :=
  doArmv7mNvicSetPending s irq true

/-- The bits of `FPCCR` that say which faults the code whose registers are still unsaved could
take. -/
structure Fpccr where
  monrdy : Bool
  bfrdy : Bool
  mmrdy : Bool
  hfrdy : Bool
  ufrdy : Bool
  deriving DecidableEq

/-- The end of `armv7m_nvic_set_pending_lazyfp`. The line to the CPU is left as it is. -/
def pendLazyfp (s : NvicState) (irq : Nat) : NvicState :=
  if (s.vectors irq).pending then s
  else nvicRecomputeState (s.put irq fun vec => { vec with pending := true })

/-- `escalate` of `armv7m_nvic_set_pending_lazyfp`, `none` at `g_assert_not_reached`. -/
def Fpccr.escalate (fpccr : Fpccr) (irq : Nat) : Option Bool :=
  if irq = Excp.debug then some false
  else if irq = Excp.mem then some !fpccr.mmrdy
  else if irq = Excp.usage then some !fpccr.ufrdy
  else if irq = Excp.bus then some !fpccr.bfrdy
  else none

def armv7mNvicSetPendingLazyfp (s : NvicState) (irq : Nat) (fpccr : Fpccr) : Option NvicState :=
  if ¬(irq > Excp.reset ∧ irq < s.numIrq) then none
  else if irq = Excp.debug ∧ fpccr.monrdy = false then some s
  else (fpccr.escalate irq).bind fun escalate =>
    let irq := if escalate then Excp.hard else irq
    let hfsr := if escalate then s.hfsr ||| hfsrForced else s.hfsr
    if escalates s irq ∧ fpccr.hfrdy = false then none
    else some (pendLazyfp { s with hfsr } irq)

def armv7mNvicAcknowledgeIrq (s : NvicState) : Option NvicState :=
  let vec := s.vectors s.vectpending
  if s.vectpending > Excp.reset ∧ s.vectpending < s.numIrq ∧ vec.enabled ∧ vec.pending ∧
      s.vectpendingPrio < nvicExecPrio s then
    let s' := s.put s.vectpending fun vec => { vec with active := true, pending := false }
    some (nvicIrqUpdate { s' with exception := s.vectpending })
  else none

def nvicRettobase (s : NvicState) : Bool :=
  ((List.range' Excp.reset (s.numIrq - 1)).filter fun irq => (s.vectors irq).active).length < 2

/-- With the value it returns: -1 for a return from an inactive exception, else the
`RETTOBASE` bit. -/
def armv7mNvicCompleteIrq (s : NvicState) (irq : Nat) : Option (Int × NvicState) :=
  let vec := s.vectors irq
  let ret := if !vec.active then -1 else if nvicRettobase s then 1 else 0
  if ¬(irq > Excp.reset ∧ irq < s.numIrq) then none
  else if vec.level then
    if irq ≥ firstIrq then
      some (ret, nvicIrqUpdate (s.put irq fun vec => { vec with active := false, pending := true }))
    else none
  else some (ret, nvicIrqUpdate (s.put irq fun vec => { vec with active := false }))

def setIrqLevel (s : NvicState) (n : Nat) (level : Bool) : Option NvicState :=
  let irq := n + firstIrq
  if ¬irq < s.numIrq then none
  else if level ≠ (s.vectors irq).level then
    let s := s.put irq fun vec => { vec with level := level }
    if level then armv7mNvicSetPending s irq else some s
  else some s

def nvicNmiTrigger (s : NvicState) (level : Bool) : Option NvicState :=
  if level then armv7mNvicSetPending s Excp.nmi else some s

def nvicSystickTrigger (s : NvicState) (level : Bool) : Option NvicState :=
  if level then armv7mNvicSetPending s Excp.systick else some s

def forVectors (s : NvicState) (startvec n : Nat) (f : Nat → VecInfo → VecInfo) : NvicState :=
  (List.range n).foldl
    (fun s i => if startvec + i < s.numIrq then s.put (startvec + i) (f i) else s) s

def writeEnable (s : NvicState) (startvec size value : Nat) (setval : Bool) : NvicState :=
  forVectors s startvec (size * 8) fun i vec =>
    if value.testBit i then { vec with enabled := setval } else vec

/-- An interrupt whose line is high and whose handler does not run cannot be cleared. -/
def writePend (s : NvicState) (startvec size value : Nat) (setval : Bool) : NvicState :=
  forVectors s startvec (size * 8) fun i vec =>
    if value.testBit i ∧ ¬(setval = false ∧ vec.level ∧ ¬vec.active) then
      { vec with pending := setval }
    else vec

def writePriority (s : NvicState) (startvec size value : Nat) : NvicState :=
  forVectors s startvec size fun i vec =>
    { vec with prio := prioMask s (value / 2 ^ (i * 8) % 256) }

def shprBank (exc : Nat) : Option Bool :=
  if exc = Excp.mem ∨ exc = Excp.bus ∨ exc = Excp.usage ∨ exc = Excp.svc ∨ exc = Excp.debug ∨
      exc = Excp.pendsv ∨ exc = Excp.systick then some true
  else if exc = 7 ∨ exc = 8 ∨ exc = 9 ∨ exc = 10 ∨ exc = 13 then some false
  else none

def writeShpr (s : NvicState) (hdlidx size value : Nat) : Option NvicState :=
  (List.range size).foldlM (fun s i => do
    if ← shprBank (hdlidx + i) then setPrio s (hdlidx + i) (value / 2 ^ (i * 8) % 256)
    else pure s) s

def writePendPair (s : NvicState) (irq : Nat) (set clear : Bool) : Option NvicState :=
  if set then armv7mNvicSetPending s irq
  else if clear then armv7mNvicClearPending s irq
  else some s

/-- `PENDNMICLR` did not exist in v7. -/
def writeIcsr (s : NvicState) (value : Nat) : Option NvicState := do
  let s ← writePendPair s Excp.nmi (value.testBit 31) false
  let s ← writePendPair s Excp.pendsv (value.testBit 28) (value.testBit 27)
  writePendPair s Excp.systick (value.testBit 26) (value.testBit 25)

def writeShcsr (s : NvicState) (value : Nat) : NvicState :=
  let s := s.put Excp.mem fun vec =>
    { vec with active := value.testBit 0, pending := value.testBit 13, enabled := value.testBit 16 }
  let s := s.put Excp.usage fun vec =>
    { vec with active := value.testBit 3, pending := value.testBit 12, enabled := value.testBit 18 }
  let s := s.put Excp.svc fun vec =>
    { vec with active := value.testBit 7, pending := value.testBit 15 }
  let s := s.put Excp.pendsv fun vec => { vec with active := value.testBit 10 }
  let s := s.put Excp.systick fun vec => { vec with active := value.testBit 11 }
  let s := s.put Excp.bus fun vec =>
    { vec with active := value.testBit 1, pending := value.testBit 14, enabled := value.testBit 17 }
  let s := s.put Excp.debug fun vec => { vec with active := value.testBit 8 }
  nvicIrqUpdate s

/-- The registers that reach the controller's own state; a write of `SYSRESETREQ` asks the
machine for a reset and does nothing here. -/
def nvicWritel (s : NvicState) (offset value : Nat) : Option NvicState :=
  if offset = 0xd04 then writeIcsr s value
  else if offset = 0xd0c then
    if value / 2 ^ 16 = 0x05fa then
      some (nvicIrqUpdate { s with prigroup := value / 2 ^ 8 % 8 })
    else some s
  else if offset = 0xd24 then some (writeShcsr s value)
  else if offset = 0xd2c then some { s with hfsr := s.hfsr &&& ~~~BitVec.ofNat 32 value }
  else if offset = 0xf00 then
    if value % 2 ^ 9 + firstIrq < s.numIrq then armv7mNvicSetPending s (value % 2 ^ 9 + firstIrq)
    else some s
  else some s

def nvicSysregWrite (s : NvicState) (offset size value : Nat) : Option NvicState :=
  if 0x100 ≤ offset ∧ offset ≤ 0x13f then
    some (nvicIrqUpdate (writeEnable s (8 * (offset - 0x100) + firstIrq) size value true))
  else if 0x180 ≤ offset ∧ offset ≤ 0x1bf then
    some (nvicIrqUpdate (writeEnable s (8 * (offset - 0x180) + firstIrq) size value false))
  else if 0x200 ≤ offset ∧ offset ≤ 0x23f then
    some (nvicIrqUpdate (writePend s (8 * (offset - 0x200) + firstIrq) size value true))
  else if 0x280 ≤ offset ∧ offset ≤ 0x2bf then
    some (nvicIrqUpdate (writePend s (8 * (offset - 0x280) + firstIrq) size value false))
  else if 0x300 ≤ offset ∧ offset ≤ 0x33f then some s
  else if 0x400 ≤ offset ∧ offset ≤ 0x5ef then
    some (nvicIrqUpdate (writePriority s (offset - 0x400 + firstIrq) size value))
  else if 0xd18 ≤ offset ∧ offset ≤ 0xd23 then
    (writeShpr s (offset - 0xd14) size value).map nvicIrqUpdate
  else if 0xd28 ≤ offset ∧ offset ≤ 0xd2b then some s
  else if size = 4 then nvicWritel s offset value
  else some s

def resetVectors (irq : Nat) : VecInfo :=
  if irq = Excp.reset then { prio := -3 }
  else if irq = Excp.nmi then { prio := -2, enabled := true }
  else if irq = Excp.hard then { prio := -1, enabled := true }
  else if irq = Excp.svc ∨ irq = Excp.pendsv ∨ irq = Excp.systick then { enabled := true }
  else {}

def armv7mNvicReset (s : NvicState) : NvicState :=
  { s with
    vectors := resetVectors
    prigroup := 0
    vectpending := 0
    vectpendingPrio := noexcPrio
    exceptionPrio := noexcPrio
    excpout := false
    basepri := 0
    primask := false
    faultmask := false
    exception := 0
    hfsr := 0
    entering := false }

def enter (s : NvicState) : NvicState := { s with entering := true }

/-- The CPU looks at the line before each block of code. -/
def armV7mCpuExecInterrupt (s : NvicState) : NvicState :=
  if s.excpout ∧ armv7mNvicCanTakePendingException s then enter s else s

/-- An exception of the CPU, other than an interrupt or a return, in `arm_v7m_cpu_do_interrupt`,
and a fault that stacking makes of it. -/
def armV7mCpuDoInterrupt (s : NvicState) (irq : Nat) (derived : Bool) : Option NvicState :=
  (doArmv7mNvicSetPending s irq derived).map enter

def armV7mLoadVectorFail (s : NvicState) : Option NvicState :=
  armv7mNvicSetPendingDerived { s with hfsr := s.hfsr ||| hfsrVecttbl ||| hfsrForced } Excp.hard

/-- `HELPER(v7m_preserve_fp_state)` when the registers cannot be saved: a fault that has to wait
is only pending. -/
def v7mPreserveFpState (s : NvicState) (irq : Nat) (fpccr : Fpccr) : Option NvicState :=
  (armv7mNvicSetPendingLazyfp s irq fpccr).map fun s =>
    if armv7mNvicCanTakePendingException s then enter s else s

def v7mExceptionTaken (s : NvicState) : Option NvicState :=
  (armv7mNvicAcknowledgeIrq s).map fun s => { s with entering := false }

def clearFaultmask (s : NvicState) : NvicState :=
  { s with faultmask := s.faultmask && s.exception = Excp.nmi }

/-- The frame that a return pops. It cannot be read or `CPACR` forbids its floating-point part, or
it has an exception number, and a floating-point part that may be at fault. -/
inductive Frame
  | fault (irq : Nat)
  | popped (ipsr : Nat) (fp : Option Nat)
  deriving DecidableEq

/-- What a return depends on: `EXC_RETURN`, `CCR.NONBASETHRDENA` and the frame. -/
structure Exit where
  excret : Nat
  nonbasethrdena : Bool
  frame : Frame
  deriving DecidableEq

/-- The integrity checks that come before the frame, with the answer of
`armv7m_nvic_complete_irq`. -/
def Exit.ufault (x : Exit) (ret : Int) : Bool :=
  if ret = -1 then true
  else if x.excret % 16 = 1 then false
  else if x.excret % 16 = 13 ∨ x.excret % 16 = 9 then ret ≠ 1 ∧ x.nonbasethrdena = false
  else true

def Exit.returnToHandler (x : Exit) : Bool := !x.excret.testBit 3

def popFpFault (s : NvicState) : Option Nat → Option NvicState
  | none => some s
  | some irq => armv7mNvicSetPending s irq

/-- The end of `do_v7m_exception_exit`: the mode that the frame brings back is checked last. -/
def Exit.restore (x : Exit) (ipsr : Nat) (s : NvicState) : Option NvicState :=
  let s := { s with exception := ipsr % 2 ^ 9 }
  if x.returnToHandler ≠ decide (s.exception ≠ 0) then
    (armv7mNvicSetPending s Excp.usage).map enter
  else some s

/-- The part of `do_v7m_exception_exit` after `armv7m_nvic_complete_irq`, with its answer. -/
def Exit.resume (x : Exit) (ret : Int) (s : NvicState) : Option NvicState :=
  if x.ufault ret then (armv7mNvicSetPending s Excp.usage).map enter
  else if armv7mNvicCanTakePendingException s then some (enter s)
  else match x.frame with
    | .fault irq => (armv7mNvicSetPending s irq).map enter
    | .popped ipsr fp => (popFpFault s fp).bind (x.restore ipsr)

def doV7mExceptionExit (s : NvicState) (x : Exit) : Option NvicState :=
  if s.exception = 0 then some s
  else (armv7mNvicCompleteIrq (clearFaultmask s) s.exception).bind fun r => x.resume r.1 r.2

inductive Op
  | setIrqLevel (n : Nat) (level : Bool)
  | nmi (level : Bool)
  | systick (level : Bool)
  | write (offset size value : Nat)
  | interrupt
  | raise (irq : Nat) (derived : Bool)
  | loadFail
  | lazyfp (irq : Nat) (fpccr : Fpccr)
  | take
  | ret (x : Exit)
  | basepri (val : Nat)
  | primask (val : Bool)
  | faultmask (val : Bool)
  | reset
  deriving DecidableEq

def Op.exec (s : NvicState) : Op → Option NvicState
  | .setIrqLevel n level => Nvic.setIrqLevel s n level
  | .nmi level => nvicNmiTrigger s level
  | .systick level => nvicSystickTrigger s level
  | .write offset size value => nvicSysregWrite s offset size value
  | .interrupt => some (armV7mCpuExecInterrupt s)
  | .raise irq derived => armV7mCpuDoInterrupt s irq derived
  | .loadFail => armV7mLoadVectorFail s
  | .lazyfp irq fpccr => v7mPreserveFpState s irq fpccr
  | .take => v7mExceptionTaken s
  | .ret x => doV7mExceptionExit s x
  | .basepri val => some { s with basepri := val % 256 }
  | .primask val => some { s with primask := val }
  | .faultmask val => some { s with faultmask := val }
  | .reset => some (armv7mNvicReset s)

end QemuBoard.Nvic
