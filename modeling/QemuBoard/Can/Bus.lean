import QemuBoard.Can.Device
import QemuBoard.Library.Trace

/-! Controllers on one bus, `net/can/can_core.c`, and the callbacks of `can.c` that
reach other controllers through it. -/

namespace QemuBoard.Can

open Library Action

variable {ι : Type} [DecidableEq ι]

/-- The clients in the order of their insertion. A controller that is not among them
has a null `bus`. -/
structure CanBusState (ι : Type) where
  clients : List ι
  nodup : clients.Nodup

def canBusInsertClient (bus : CanBusState ι) (client : ι) (h : client ∉ bus.clients) :
    CanBusState ι where
  clients := bus.clients ++ [client]
  nodup := by
    rw [← List.concat_eq_append]
    exact bus.nodup.concat h

abbrev can0 : Fin 2 := 0

abbrev can1 : Fin 2 := 1

/-- The bus of the board: `can0` is realized first, then `can1`. -/
def boardBus : CanBusState (Fin 2) :=
  canBusInsertClient (canBusInsertClient ⟨[], List.nodup_nil⟩ can0 (by simp)) can1
    (by simp [canBusInsertClient])

/-- What the bus and `can.c` can do with a client: the callbacks of its `CanBusClientInfo`, and a
function of `can.c` on the controller that it is. -/
structure Clients (κ : Type) where
  canReceive : Action κ Effect Bool
  receive : QemuCanFrame → Action κ Effect Int
  act : {α : Type} → CanM α → Action κ Effect α

abbrev BusM (ι κ : Type) := Action (ι → κ) (ι × Effect)

namespace Clients

variable {κ : Type} (k : Clients κ)

def offer (client : ι) (frame : QemuCanFrame) (ret : Int) (peer : ι) : BusM ι κ Int := do
  if ← on peer k.canReceive then
    if peer = client then
      -- no loopback
      pure ret
    else
      let n ← on peer (k.receive frame)
      pure (if n > 0 then 1 else ret)
  else
    pure ret

def canBusClientSend (bus : CanBusState ι) (client : ι) (frame : QemuCanFrame) : BusM ι κ Int :=
  if client ∉ bus.clients then
    pure (-1)
  else
    bus.clients.foldlM (k.offer client frame) 0

/-- `can_transmit` up to the return from the bus. -/
def sending (bus : CanBusState ι) (c : ι) : BusM ι κ Unit := do
  let s ← on c (k.act get)
  let _ ← k.canBusClientSend bus c s.frame

def completing (c : ι) : BusM ι κ Unit := on c (k.act (setStatusBit Sr.tcs))

def canTransmit (bus : CanBusState ι) (c : ι) : BusM ι κ Unit := do
  k.sending bus c
  k.completing c

def clearing (c : ι) (statusBit command : Word) : BusM ι κ Unit := do
  on c (k.act (resetStatusBit statusBit))
  on c (k.act (modify fun s => { s with cmr := s.cmr &&& ~~~command }))

def acknowledging (c : ι) (val : Word) : BusM ι κ Unit := do
  if has val Cmr.rrb then
    k.clearing c Sr.rbs Cmr.rrb
  if has val Cmr.cdo then
    k.clearing c Sr.dos Cmr.cdo

def requesting (c : ι) : BusM ι κ Unit := do
  on c (k.act (modify fun s => { s with cmr := s.cmr &&& ~~~Cmr.tr }))
  on c (k.act (resetStatusBit Sr.tcs))

def canWrite (bus : CanBusState ι) (c : ι) (addr : Nat) (val : Word) : BusM ι κ Unit :=
  match Reg.ofAddr addr with
  | some .tfi => on c (k.act (modify fun s => { s with tfi := val }))
  | some .tid => on c (k.act (modify fun s => { s with tid := val }))
  | some .tda => on c (k.act (modify fun s => { s with tda := val }))
  | some .tdb => on c (k.act (modify fun s => { s with tdb := val }))
  | some .rfi | some .rid | some .rda | some .rdb | some .sr => pure ()
  | some .cmr => do
    k.acknowledging c val
    if has val Cmr.tr then
      k.requesting c
      k.canTransmit bus c
  | some .ier => do
    on c (k.act (modify fun s => { s with ier := val &&& 0x0F#32 }))
    on c (k.act checkAndSetInterrupt)
    on c (k.act checkAndClearInterrupt)
  | none => pure ()

end Clients

def controllers : Clients CanState where
  canReceive := canCanReceive
  receive := canReceive
  act m := m

abbrev Net (ι : Type) := ι → CanState

abbrev NetM (ι : Type) := BusM ι CanState

abbrev canWrite (bus : CanBusState ι) (c : ι) (addr : Nat) (val : Word) : NetM ι Unit :=
  controllers.canWrite bus c addr val

/-- `receive` is a frame from a client of the bus that is not one of the controllers. -/
inductive Op (ι : Type)
  | read (c : ι) (addr : Nat)
  | write (c : ι) (addr : Nat) (val : Word)
  | reset (c : ι)
  | receive (c : ι) (frame : QemuCanFrame)
  deriving DecidableEq

def Op.exec (bus : CanBusState ι) : Op ι → NetM ι Unit
  | .read c addr =>
    on c do
      let val ← canRead addr
      emit (.value addr val)
  | .write c addr val => canWrite bus c addr val
  | .reset c => on c canReset
  | .receive c frame =>
    on c do
      let _ ← canReceive frame

def network (bus : CanBusState ι) : System (Net ι) (Op ι) (ι × Effect) :=
  .ofActions (fun _ _ => True) (Op.exec bus)

abbrev Trace (ι : Type) := List (Event (Net ι) (Op ι) (ι × Effect))

def Net.reset : Net ι := fun _ => .zero false

end QemuBoard.Can
