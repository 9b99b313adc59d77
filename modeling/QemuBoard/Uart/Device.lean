import QemuBoard.Library.Flags
import QemuBoard.Library.Timers
import QemuBoard.Library.Trace

/-! The Altera Nios II UART of the board, `hw/char/uart.c`. -/

namespace QemuBoard.Uart

open Library

abbrev Word := BitVec 32
abbrev Byte := BitVec 8

inductive Reg
  | rxdata | txdata | status | control | divisor
  deriving DecidableEq

def Reg.ofAddr : Nat → Option Reg
  | 0x00 => some .rxdata
  | 0x04 => some .txdata
  | 0x08 => some .status
  | 0x0C => some .control
  | 0x10 => some .divisor
  | _ => none

namespace Status

abbrev pe : Word := bit 32 0
abbrev fe : Word := bit 32 1
abbrev brk : Word := bit 32 2
abbrev roe : Word := bit 32 3
abbrev toe : Word := bit 32 4
abbrev tmt : Word := bit 32 5
abbrev trdy : Word := bit 32 6
abbrev rrdy : Word := bit 32 7
abbrev e : Word := bit 32 8

end Status

def clkFreq : Nat := 115200
def nanosecondsPerSecond : Nat := 1000000000

inductive TimerId
  | rx | tx
  deriving DecidableEq

structure UartState where
  timers : TimerList TimerId
  canReceive : Bool
  clkFreq : Nat
  baudrate : Nat
  charTxTime : Nat
  frameSize : Nat
  rxdata : Word
  txdata : Word
  status : Word
  control : Word
  divisor : Word
  txShiftRegister : Byte
  rxShiftRegister : Byte
  irq : Bool
  deriving DecidableEq

structure SerialSetParams where
  speed : Nat
  parity : Char
  dataBits : Nat
  stopBits : Nat
  deriving DecidableEq

/-- What leaves the device: bytes and parameters for the backend, the calls on the
interrupt line, the value of a read. `helper` marks the return from `setStatusBit`
or `resetStatusBit` with the interrupt state it leaves. -/
inductive Effect
  | chrWrite (ch : Byte)
  | setParams (ssp : SerialSetParams)
  | acceptInput
  | irq (level : Bool)
  | helper (control status : Word) (irq : Bool)
  | value (addr : Nat) (val : Word)
  deriving DecidableEq

abbrev UartM := Action UartState Effect

open Action

def qemuSetIrq (level : Bool) : UartM Unit := do
  modify fun s => { s with irq := level }
  emit (.irq level)

def checkAndSetInterrupt : UartM Unit := do
  let s ← get
  if has s.control s.status then qemuSetIrq true

def checkAndClearInterrupt : UartM Unit := do
  let s ← get
  if !has s.control s.status then qemuSetIrq false

def helperReturns : UartM Unit := do
  let s ← get
  emit (.helper s.control s.status s.irq)

def errorBits : Word := Status.pe ||| Status.fe ||| Status.brk ||| Status.roe ||| Status.toe

def withE (status : Word) : Word := if has status errorBits then status ||| Status.e else status

def setStatusBit (statusBit : Word) : UartM Unit := do
  modify fun s => { s with status := s.status ||| statusBit }
  modify fun s => { s with status := withE s.status }
  checkAndSetInterrupt
  helperReturns

def resetStatusBit (statusBit : Word) : UartM Unit := do
  modify fun s => { s with status := s.status &&& ~~~statusBit }
  checkAndClearInterrupt
  helperReturns

def udiv (a b : Nat) : UartM Nat := if b = 0 then abort else pure (a / b)

def updateParams : UartM Unit := do
  let s ← get
  -- divisor + 1 is computed in 32 bits
  let baudrate ← udiv s.clkFreq (s.divisor + 1#32).toNat
  let ssp : SerialSetParams := { speed := baudrate, parity := 'E', dataBits := 8, stopBits := 1 }
  let frameSize := 1 + ssp.dataBits + 1 + ssp.stopBits
  let bitTime ← udiv nanosecondsPerSecond baudrate
  modify fun s =>
    { s with baudrate := baudrate, frameSize := frameSize, charTxTime := bitTime * frameSize }
  emit (.setParams ssp)

/-- `now` is the virtual clock at the call, here and below. -/
def waitForChTxTime (now : Nat) (timer : TimerId) : UartM Unit :=
  modify fun s => { s with timers := s.timers.mod timer (now + s.charTxTime) }

def timeoutRx : UartM Unit := do
  modify fun s => { s with rxdata := s.rxShiftRegister.setWidth 32, canReceive := true }
  let s ← get
  if has s.status Status.rrdy then
    setStatusBit Status.roe
  else
    setStatusBit Status.rrdy

def timeoutTx (now : Nat) : UartM Unit := do
  let s ← get
  emit (.chrWrite s.txShiftRegister)
  if !has s.status Status.trdy then
    resetStatusBit Status.tmt
    setStatusBit Status.trdy
    modify fun s => { s with txShiftRegister := s.txdata.setWidth 8 }
    waitForChTxTime now .tx
  else
    setStatusBit Status.tmt

def uartCanReceive : UartM Nat := pure 1

/-- The notification comes last, so what a backend passes back from inside it are
further calls of this function. -/
def uartReceive (now : Nat) (buf : Byte) : UartM Unit := do
  let s ← get
  if s.canReceive then
    modify fun s => { s with rxShiftRegister := buf, canReceive := false }
    waitForChTxTime now .rx
    emit .acceptInput

/-- `input` are the bytes that the backend passes back while it is notified. -/
def qemuChrFeAcceptInput (now : Nat) : List Byte → UartM Unit
  | [] => emit .acceptInput
  | buf :: input => do
    uartReceive now buf
    qemuChrFeAcceptInput now input

def uartReset (now : Nat) (input : List Byte) : UartM Unit := do
  modify fun s =>
    { s with
      rxdata := 0#32
      txdata := 0#32
      status := Status.trdy ||| Status.tmt
      control := 0#32
      divisor := 1#32
      canReceive := true }
  qemuSetIrq false
  qemuChrFeAcceptInput now input
  updateParams

def uartRead (addr : Nat) : UartM Word := do
  let s ← get
  match Reg.ofAddr addr with
  | some .rxdata =>
    let retvalue := s.rxdata &&& 0xFF#32
    resetStatusBit Status.rrdy
    pure retvalue
  | some .txdata => pure 0#32
  | some .status => pure s.status
  | some .control => pure s.control
  | some .divisor => pure s.divisor
  | none => pure 0#32

def uartWrite (now addr : Nat) (val : Word) : UartM Unit :=
  match Reg.ofAddr addr with
  | some .rxdata => pure ()
  | some .txdata => do
    modify fun s => { s with txdata := val }
    let s ← get
    if has s.status Status.tmt then
      resetStatusBit Status.tmt
      setStatusBit Status.trdy
      modify fun s => { s with txShiftRegister := s.txdata.setWidth 8 }
      waitForChTxTime now .tx
    else if !has s.status Status.trdy then
      setStatusBit Status.toe
    else
      resetStatusBit Status.trdy
  | some .status => do
    modify fun s => { s with status := val }
    checkAndSetInterrupt
    checkAndClearInterrupt
  | some .control => do
    modify fun s => { s with control := val }
    checkAndSetInterrupt
    checkAndClearInterrupt
  | some .divisor => do
    modify fun s => { s with divisor := val }
    updateParams
  | none => pure ()

/-- The state `uart_init` leaves: zeroed memory, both timers created, the clock set. -/
def uartInit : UartState where
  timers := .empty
  canReceive := false
  clkFreq := Uart.clkFreq
  baudrate := 0
  charTxTime := 0
  frameSize := 0
  rxdata := 0#32
  txdata := 0#32
  status := 0#32
  control := 0#32
  divisor := 0#32
  txShiftRegister := 0#8
  rxShiftRegister := 0#8
  irq := false

/-- The event loop takes an expired timer off its list before it calls back. -/
def expire (timer : TimerId) : UartM Unit :=
  modify fun s => { s with timers := s.timers.del timer }

inductive Op
  | read (addr : Nat)
  | write (now addr : Nat) (val : Word)
  | receive (now : Nat) (buf : Byte)
  | timeoutRx
  | timeoutTx (now : Nat)
  | reset (now : Nat) (input : List Byte)
  deriving DecidableEq

def Op.exec : Op → UartM Unit
  | .read addr => do
    let val ← uartRead addr
    emit (.value addr val)
  | .write now addr val => uartWrite now addr val
  | .receive now buf => uartReceive now buf
  | .timeoutRx => do
    expire .rx
    Uart.timeoutRx
  | .timeoutTx now => do
    expire .tx
    Uart.timeoutTx now
  | .reset now input => uartReset now input

def Op.Guard (s : UartState) : Op → Prop
  | .timeoutRx => s.timers.pending .rx = true
  | .timeoutTx _ => s.timers.pending .tx = true
  | _ => True

instance (s : UartState) : (op : Op) → Decidable (op.Guard s)
  | .timeoutRx | .timeoutTx _ => inferInstanceAs (Decidable (_ = true))
  | .read _ | .write _ _ _ | .receive _ _ | .reset _ _ => inferInstanceAs (Decidable True)

def device : System UartState Op Effect := .ofActions Op.Guard Op.exec

abbrev Trace := List (Event UartState Op Effect)

end QemuBoard.Uart
