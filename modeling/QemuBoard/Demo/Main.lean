import QemuBoard.Can.Driver
import QemuBoard.Library.Relay

/-! The demo, `Demo/main.c`: four tasks that carry eight characters from the UART over CAN0 and
CAN1 back to the UART. -/

namespace QemuBoard.Demo

open Library Can

inductive Buffer
  | characters | characters2
  deriving DecidableEq

/-- What the tasks do besides their calls on the semaphores. The functions of the UART's driver
stand for themselves; those of the CAN driver are made of single accesses. -/
inductive Request
  | uartPrintf (str : List Byte)
  | uartGetchar
  | can (a : Access Buffer)

abbrev requests : Signature where
  Op := Request
  Res
    | .uartPrintf _ => Unit
    | .uartGetchar => Byte
    | .can a => (accesses Buffer).Res a

abbrev TaskM := Prog requests

def uartPrintf (str : List Byte) : TaskM Unit := Prog.request (S := requests) (.uartPrintf str)

def uartGetchar : TaskM Byte := Prog.request (S := requests) .uartGetchar

def driver : Signature.Hom (accesses Buffer) requests where
  op := .can
  res _ r := r

def text (s : String) : List Byte := s.toList.map fun c => BitVec.ofNat 8 c.toNat

def readChar (i : Fin 8) (_ : Unit) : TaskM Unit := do
  let ch ← uartGetchar
  (Driver.store .characters i ch).embed driver

/-- Between `xSemaphoreTake(xSem1)` and `xSemaphoreGive(xSem2)`. -/
def readFromUart : TaskM Unit := do
  uartPrintf (text "(read_from_UART)\n")
  uartPrintf (text "Reading 8 chars...\n")
  Prog.forBelow 8 readChar 8 ()
  uartPrintf (text "(Bye)\n")

/-- Between `xSemaphoreTake(xSem2)` and `xSemaphoreGive(xSem3)`. -/
def writeToCanAndTransmit : TaskM Unit := do
  uartPrintf (text "(write_to_CAN_and_transmit)\n")
  (Driver.canWrite 0 0x123#32 .characters 8#32 1#32 0#32).embed driver
  (Driver.canTransmit 0).embed driver
  uartPrintf (text "(Bye)\n")

/-- `while(!CAN_has_received(1)){}`, where each call is one read of SR. -/
def awaitReceived : TaskM Unit := do
  let _ ← Prog.await (S := requests) (.can (.read can1 0x20)) fun v => has v Sr.rbs
  pure ()

example : Driver.canHasReceived (B := Buffer) 1 =
    .call (.read 1 0x20) fun v => .ret (if has v Sr.rbs then 1 else 0) := rfl

/-- Between `xSemaphoreTake(xSem3)` and `xSemaphoreGive(xSem4)`. -/
def readFromCan : TaskM Unit := do
  uartPrintf (text "(read_from_CAN)\n")
  awaitReceived
  let _ ← (Driver.canReadData 1 .characters2).embed driver
  (Driver.canReleaseReceiveBuffer 1).embed driver
  uartPrintf (text "(Bye)\n")

/-- The `%s` of `sprintf`: the characters from index `i` on up to the first NUL, as far as the
destination has room. -/
def formatString (b : Buffer) : (room i : Nat) → TaskM (List Byte)
  | 0, _ => pure []
  | room + 1, i => do
    let ch ← (Driver.load b i).embed driver
    if ch = 0#8 then pure []
    else do
      let str ← formatString b room (i + 1)
      pure (ch :: str)

/-- Between `xSemaphoreTake(xSem4)` and `xSemaphoreGive(xSem1)`. -/
def writeToUart : TaskM Unit := do
  uartPrintf (text "(write_to_UART)\n")
  let str ← formatString .characters2 50 0
  uartPrintf (str ++ text "\n")
  uartPrintf (text "(Bye)\n")

def body : Fin 4 → TaskM Unit
  | 0 => readFromUart
  | 1 => writeToCanAndTransmit
  | 2 => readFromCan
  | 3 => writeToUart

/-- A character from the UART can be any. -/
def step (w : World Buffer) : (o : Request) → requests.Res o → World Buffer → Prop
  | .uartPrintf _, _, w' => w' = w
  | .uartGetchar, _, w' => w' = w
  | .can a, r, w' => ∃ out, access a w = some (r, w', out)

def pipeline : Threads (Relay.requests requests 4) (Relay.World 4 (World Buffer)) (Fin 4) Empty :=
  Relay.threads step body

/-- `main` has given `xSem1`; both buffers are zero and both controllers reset. -/
def start : Config (Relay.requests requests 4) (Relay.World 4 (World Buffer)) (Fin 4) :=
  .idle ⟨fun i => decide (i = 0), ⟨Net.reset, fun _ _ => 0#8⟩⟩

abbrev Trace := Relay.Trace requests 4 (World Buffer)

def typing : Relay.Notes requests 4 (List Byte) where
  take i l := if i = 0 then [] else l
  work
    | .uartGetchar, ch, l => l ++ [ch]
    | .uartPrintf _, _, l | .can _, _, l => l

def typed (tr : Trace) : List Byte := typing.history [] tr

end QemuBoard.Demo
