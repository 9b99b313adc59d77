import QemuBoard.Library.Action
import QemuBoard.Library.Flags
import QemuBoard.Library.Lanes

/-! One CAN controller of the board, `hw/net/can/can.c`: its registers, the reception
of a frame and the callbacks that stay inside the controller. -/

namespace QemuBoard.Can

open Library

abbrev Word := BitVec 32
abbrev Byte := BitVec 8

inductive Reg
  | tfi | tid | tda | tdb | rfi | rid | rda | rdb | sr | cmr | ier
  deriving DecidableEq

def Reg.ofAddr : Nat → Option Reg
  | 0x00 => some .tfi
  | 0x04 => some .tid
  | 0x08 => some .tda
  | 0x0C => some .tdb
  | 0x10 => some .rfi
  | 0x14 => some .rid
  | 0x18 => some .rda
  | 0x1C => some .rdb
  | 0x20 => some .sr
  | 0x24 => some .cmr
  | 0x28 => some .ier
  | _ => none

def dlcPos : Nat := 16
def dlcMask : Word := 0xF#32 <<< dlcPos
abbrev rtr : Word := bit 32 30
abbrev ff : Word := bit 32 31

def ids : Word := 0x7FF#32
def ide : Word := 0x1FFFFFFF#32

namespace Sr

abbrev rbs : Word := bit 32 0
abbrev dos : Word := bit 32 1
abbrev tbs : Word := bit 32 2
abbrev tcs : Word := bit 32 3

end Sr

namespace Cmr

abbrev tr : Word := bit 32 0
abbrev rrb : Word := bit 32 2
abbrev cdo : Word := bit 32 3

end Cmr

namespace Ier

abbrev rie : Word := bit 32 0
abbrev tie : Word := bit 32 1
abbrev doie : Word := bit 32 3

end Ier

def qemuCanEffFlag : Word := 0x80000000#32
def qemuCanRtrFlag : Word := 0x40000000#32
def qemuCanEffMask : Word := 0x1FFFFFFF#32

structure QemuCanFrame where
  canId : Word
  canDlc : Byte
  flags : Byte
  data : Fin 64 → Byte
  deriving DecidableEq

@[ext] structure CanState where
  tfi : Word
  tid : Word
  tda : Word
  tdb : Word
  rfi : Word
  rid : Word
  rda : Word
  rdb : Word
  sr : Word
  cmr : Word
  ier : Word
  irq : Bool
  deriving DecidableEq

inductive Effect
  | irq (level : Bool)
  | receive (frame : QemuCanFrame)
  | value (addr : Nat) (val : Word)
  deriving DecidableEq

abbrev CanM := Action CanState Effect

open Action

def qemuSetIrq (level : Bool) : CanM Unit := do
  modify fun s => { s with irq := level }
  emit (.irq level)

def qemuIrqPulse : CanM Unit := do
  qemuSetIrq true
  qemuSetIrq false

def checkAndSetInterrupt : CanM Unit := do
  let s ← get
  if has (s.ier &&& Ier.rie) (s.sr &&& Sr.rbs) || has (s.ier &&& Ier.doie) (s.sr &&& Sr.dos) then
    qemuSetIrq true
  else if has (s.ier &&& Ier.tie) (s.sr &&& Sr.tcs) then
    qemuIrqPulse

def checkAndClearInterrupt : CanM Unit := do
  let s ← get
  if !(has (s.ier &&& Ier.rie) (s.sr &&& Sr.rbs) || has (s.ier &&& Ier.tie) (s.sr &&& Sr.tcs) ||
      has (s.ier &&& Ier.doie) (s.sr &&& Sr.dos)) then
    qemuSetIrq false

def setStatusBit (statusBit : Word) : CanM Unit := do
  modify fun s => { s with sr := s.sr ||| statusBit }
  checkAndSetInterrupt

def resetStatusBit (statusBit : Word) : CanM Unit := do
  modify fun s => { s with sr := s.sr &&& ~~~statusBit }
  checkAndClearInterrupt

def canCanReceive : CanM Bool := pure true

def storeByte (data : Fin 64 → Byte) (i : Fin 8) (s : CanState) : CanState :=
  let b := (data (i.castLE (by decide))).setWidth 32
  if i.val < 4 then
    { s with rda := s.rda ||| b <<< (i.val * 8) }
  else
    { s with rdb := s.rdb ||| b <<< ((i.val - 4) * 8) }

def canReceive (frame : QemuCanFrame) : CanM Int := do
  emit (.receive frame)
  let s ← get
  if has s.sr Sr.rbs then setStatusBit Sr.dos
  modify fun s => { s with rid := frame.canId &&& qemuCanEffMask }
  modify fun s =>
    { s with
      rfi := (frame.canId &&& qemuCanEffFlag) ||| (frame.canId &&& qemuCanRtrFlag) |||
        ((frame.canDlc.setWidth 32 <<< dlcPos) &&& dlcMask) }
  modify fun s => { s with rda := 0#32, rdb := 0#32 }
  modify (forBelow 8 (storeByte frame.data) frame.canDlc.toNat)
  setStatusBit Sr.rbs
  pure 0

/-- The transmit registers are write-only and read as zero. -/
def canRead (addr : Nat) : CanM Word := do
  let s ← get
  match Reg.ofAddr addr with
  | some .tfi | some .tid | some .tda | some .tdb => pure 0#32
  | some .rfi => pure s.rfi
  | some .rid => pure s.rid
  | some .rda => pure s.rda
  | some .rdb => pure s.rdb
  | some .sr => pure s.sr
  | some .cmr => pure s.cmr
  | some .ier => pure s.ier
  | none => pure 0#32

def loadByte (s : CanState) (i : Fin 8) (data : Fin 64 → Byte) : Fin 64 → Byte :=
  if i.val < 4 then
    Function.update data (i.castLE (by decide)) (((s.tda >>> (i.val * 8)) &&& 0xFF#32).setWidth 8)
  else
    Function.update data (i.castLE (by decide))
      (((s.tdb >>> ((i.val - 4) * 8)) &&& 0xFF#32).setWidth 8)

def CanState.frame (s : CanState) : QemuCanFrame :=
  let canId := 0#32 ||| (s.tfi &&& rtr)
  let canId := canId ||| (s.tfi &&& ff)
  let canId := if has s.tfi ff then canId ||| (s.tid &&& ids) else canId ||| (s.tid &&& ide)
  let canDlc : Byte := if !has s.tfi rtr then ((s.tfi &&& dlcMask) >>> dlcPos).setWidth 8 else 0#8
  { canId := canId
    canDlc := canDlc
    flags := 0x00#8
    data := forBelow 8 (loadByte s) canDlc.toNat fun _ => 0#8 }

def CanState.zero (irq : Bool) : CanState where
  tfi := 0#32
  tid := 0#32
  tda := 0#32
  tdb := 0#32
  rfi := 0#32
  rid := 0#32
  rda := 0#32
  rdb := 0#32
  sr := 0#32
  cmr := 0#32
  ier := 0#32
  irq := irq

def canReset : CanM Unit := do
  modify fun s => .zero s.irq
  qemuSetIrq false

end QemuBoard.Can
