import QemuBoard.Library.Program
import QemuBoard.Uart.DeviceLaws

/-! The guest's driver, `Demo/uart.c`, as programs over single register accesses, and
the threads that run its functions against the device. -/

namespace QemuBoard.Uart

open Library

inductive Access
  | read (addr : Nat)
  | write (addr : Nat) (val : Word)
  deriving DecidableEq

abbrev accesses : Signature where
  Op := Access
  Res
    | .read _ => Word
    | .write _ _ => Unit

namespace Driver

abbrev DriverM := Prog accesses

def readReg (addr : Nat) : DriverM Word := Prog.request (S := accesses) (.read addr)

def writeReg (addr : Nat) (val : Word) : DriverM Unit :=
  Prog.request (S := accesses) (.write addr val)

def awaitStatus (bit : Word) : DriverM Word :=
  Prog.await (S := accesses) (.read 0x08) fun v : Word => has v bit

def iroe : Word := bit 32 3

def uartInit : DriverM Unit := do
  writeReg 0x0C iroe
  writeReg 0x10 1000#32

/-- The argument is the memory from `s` on; the end of the list is a terminator too. -/
def uartPrintf : List Byte → DriverM Unit
  | [] => pure ()
  | c :: s => do
    if c ≠ 0#8 then
      let _ ← awaitStatus Status.trdy
      writeReg 0x04 (c.setWidth 32)
      uartPrintf s

def uartGetchar : DriverM Byte := do
  let _ ← awaitStatus Status.rrdy
  let v ← readReg 0x00
  pure (v.setWidth 8)

def uartClearInterrupt : DriverM Unit := do
  let v ← readReg 0x08
  writeReg 0x08 (v &&& ~~~Status.roe)

inductive Call : DriverM Unit → Prop
  | init : Call uartInit
  | printf (s : List Byte) : Call (uartPrintf s)
  | getchar : Call do let _ ← uartGetchar
  | clearInterrupt : Call uartClearInterrupt

end Driver

def Op.IsEvent : Op → Prop
  | .receive _ _ | .timeoutRx | .timeoutTx _ => True
  | .read _ | .write _ _ _ | .reset _ _ => False

instance : DecidablePred Op.IsEvent
  | .receive _ _ | .timeoutRx | .timeoutTx _ => inferInstanceAs (Decidable True)
  | .read _ | .write _ _ _ | .reset _ _ => inferInstanceAs (Decidable False)

def access (s : UartState) : (o : Access) → accesses.Res o → UartState → Prop
  | .read addr, v, t => ∃ out, uartRead addr s = some (v, t, out)
  | .write addr val, _, t => ∃ now out, uartWrite now addr val s = some ((), t, out)

/-- Any number of contexts that call the driver, preempted at any access. -/
def driver (ι : Type) : Threads accesses UartState ι Op where
  handle := access
  env s op t := op.IsEvent ∧ ∃ out, device.step s op out t
  menu _ p := Driver.Call p

theorem access_read {s t : UartState} {addr : Nat} {v : Word} :
    access s (.read addr) v t ↔ v = s.readValue addr ∧ t = Op.next s (.read addr) := by
  simp [access, uartRead_run, eq_comm]

theorem access_write {s t : UartState} {addr : Nat} {val : Word} {r : Unit}
    (h : access s (.write addr val) r t) : ∃ now, t = Op.next s (.write now addr val) := by
  obtain ⟨now, out, hrun⟩ := h
  exact ⟨now, (uartWrite_eq_some hrun).1⟩

theorem access_write_next {s : UartState} {addr : Nat} {val : Word} (now : Nat)
    (h : ¬ (Op.write now addr val).Traps s) :
    access s (.write addr val) () (Op.next s (.write now addr val)) :=
  ⟨now, Op.log s (.write now addr val), (exec_write s now addr val).trans (if_neg h)⟩

end QemuBoard.Uart
