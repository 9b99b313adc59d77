import QemuBoard.Can.Bus
import QemuBoard.Library.Ledger
import QemuBoard.Uart.Device

namespace QemuBoard

open Library Action

namespace Uart

def Effect.level (b : Bool) : Effect → Bool
  | .irq level => level
  | _ => b

abbrev Drives {α : Type} (m : UartM α) : Prop := Follows UartState.irq Effect.level m

theorem drives_qemuSetIrq (level : Bool) : Drives (qemuSetIrq level) := by
  intro s a t out h
  obtain ⟨rfl, rfl⟩ : { s with irq := level } = t ∧ [.irq level] = out := by
    simpa [qemuSetIrq, bind_run] using h
  rfl

theorem drives_checkAndSetInterrupt : Drives checkAndSetInterrupt :=
  .bind .get fun _ => .ite (drives_qemuSetIrq true) (.pure ())

theorem drives_checkAndClearInterrupt : Drives checkAndClearInterrupt :=
  .bind .get fun _ => .ite (drives_qemuSetIrq false) (.pure ())

theorem drives_helperReturns : Drives helperReturns := .bind .get fun _ => .emit fun _ => rfl

theorem drives_setStatusBit (b : Word) : Drives (setStatusBit b) := by
  refine .bind (.modify fun _ => rfl) fun _ => ?_
  refine .bind (.modify fun _ => rfl) fun _ => ?_
  exact drives_checkAndSetInterrupt.bind fun _ => drives_helperReturns

theorem drives_resetStatusBit (b : Word) : Drives (resetStatusBit b) := by
  refine .bind (.modify fun _ => rfl) fun _ => ?_
  exact drives_checkAndClearInterrupt.bind fun _ => drives_helperReturns

theorem drives_waitForChTxTime (now : Nat) (timer : TimerId) : Drives (waitForChTxTime now timer) :=
  .modify fun _ => rfl

theorem drives_udiv (a b : Nat) : Drives (udiv a b) := .ite .abort (.pure _)

theorem drives_updateParams : Drives updateParams := by
  apply Follows.get.bind
  intro s
  apply (drives_udiv _ _).bind
  intro baudrate
  apply (drives_udiv _ _).bind
  intro bitTime
  exact .bind (.modify fun _ => rfl) fun _ => .emit fun _ => rfl

theorem drives_load (now : Nat) : Drives (do
    resetStatusBit Status.tmt
    setStatusBit Status.trdy
    modify fun s => { s with txShiftRegister := s.txdata.setWidth 8 }
    waitForChTxTime now .tx) := by
  apply (drives_resetStatusBit _).bind
  intro _
  apply (drives_setStatusBit _).bind
  intro _
  exact .bind (.modify fun _ => rfl) fun _ => drives_waitForChTxTime now .tx

theorem drives_timeoutRx : Drives timeoutRx := by
  refine .bind (.modify fun _ => rfl) fun _ => ?_
  exact .bind .get fun _ => .ite (drives_setStatusBit _) (drives_setStatusBit _)

theorem drives_timeoutTx (now : Nat) : Drives (timeoutTx now) := by
  apply Follows.get.bind
  intro s
  refine .bind (.emit fun _ => rfl) fun _ => ?_
  exact .ite (drives_load now) (drives_setStatusBit _)

theorem drives_uartReceive (now : Nat) (buf : Byte) : Drives (uartReceive now buf) := by
  apply Follows.get.bind
  intro s
  refine .ite ?_ (.pure ())
  refine .bind (.modify fun _ => rfl) fun _ => ?_
  exact (drives_waitForChTxTime now .rx).bind fun _ => .emit fun _ => rfl

theorem drives_qemuChrFeAcceptInput (now : Nat) (input : List Byte) :
    Drives (qemuChrFeAcceptInput now input) := by
  induction input with
  | nil => exact .emit fun _ => rfl
  | cons buf input ih => exact (drives_uartReceive now buf).bind fun _ => ih

theorem drives_uartReset (now : Nat) (input : List Byte) : Drives (uartReset now input) := by
  refine .bind (.modify fun _ => rfl) fun _ => ?_
  apply (drives_qemuSetIrq false).bind
  intro _
  exact (drives_qemuChrFeAcceptInput now input).bind fun _ => drives_updateParams

theorem drives_uartRead (addr : Nat) : Drives (uartRead addr) := by
  apply Follows.get.bind
  intro s
  split
  · exact (drives_resetStatusBit _).bind fun _ => .pure _
  all_goals exact .pure _

theorem drives_uartWrite (now addr : Nat) (val : Word) : Drives (uartWrite now addr val) := by
  rw [uartWrite]
  split
  · exact .pure ()
  · refine .bind (.modify fun _ => rfl) fun _ => .bind .get fun _ => .ite (drives_load now) ?_
    exact .ite (drives_setStatusBit _) (drives_resetStatusBit _)
  · exact .bind (.modify fun _ => rfl) fun _ =>
      drives_checkAndSetInterrupt.bind fun _ => drives_checkAndClearInterrupt
  · exact .bind (.modify fun _ => rfl) fun _ =>
      drives_checkAndSetInterrupt.bind fun _ => drives_checkAndClearInterrupt
  · exact .bind (.modify fun _ => rfl) fun _ => drives_updateParams
  · exact .pure ()

theorem drives_exec (op : Op) : Drives op.exec := by
  cases op with
  | read addr => exact (drives_uartRead addr).bind fun _ => .emit fun _ => rfl
  | write now addr val => exact drives_uartWrite now addr val
  | receive now buf => exact drives_uartReceive now buf
  | timeoutRx => exact .bind (.modify fun _ => rfl) fun _ => drives_timeoutRx
  | timeoutTx now => exact .bind (.modify fun _ => rfl) fun _ => drives_timeoutTx now
  | reset now input => exact drives_uartReset now input

end Uart

namespace Can

def Effect.level (b : Bool) : Effect → Bool
  | .irq level => level
  | _ => b

abbrev Drives {α : Type} (m : CanM α) : Prop := Follows CanState.irq Effect.level m

theorem drives_qemuSetIrq (level : Bool) : Drives (qemuSetIrq level) := by
  intro s a t out h
  obtain ⟨rfl, rfl⟩ : { s with irq := level } = t ∧ [.irq level] = out := by
    simpa [qemuSetIrq, bind_run] using h
  rfl

theorem drives_checkAndSetInterrupt : Drives checkAndSetInterrupt := by
  apply Follows.get.bind
  intro s
  refine .ite (drives_qemuSetIrq true) (.ite ?_ (.pure ()))
  exact (drives_qemuSetIrq true).bind fun _ => drives_qemuSetIrq false

theorem drives_checkAndClearInterrupt : Drives checkAndClearInterrupt :=
  .bind .get fun _ => .ite (drives_qemuSetIrq false) (.pure ())

theorem drives_setStatusBit (b : Word) : Drives (setStatusBit b) :=
  .bind (.modify fun _ => rfl) fun _ => drives_checkAndSetInterrupt

theorem drives_resetStatusBit (b : Word) : Drives (resetStatusBit b) :=
  .bind (.modify fun _ => rfl) fun _ => drives_checkAndClearInterrupt

theorem forBelow_storeByte_irq (data : Fin 64 → Byte) (n : Nat) (s : CanState) :
    (forBelow 8 (storeByte data) n s).irq = s.irq := by
  induction n with
  | zero => rfl
  | succ n ih =>
    rw [forBelow]
    split
    · rw [storeByte]
      split
      · exact ih
      · exact ih
    · exact ih

theorem drives_canReceive (frame : QemuCanFrame) : Drives (canReceive frame) := by
  refine .bind (.emit fun _ => rfl) fun _ => ?_
  apply Follows.get.bind
  intro s
  have hrest : Drives (do
      modify fun s => { s with rid := frame.canId &&& qemuCanEffMask }
      modify fun s =>
        { s with
          rfi := (frame.canId &&& qemuCanEffFlag) ||| (frame.canId &&& qemuCanRtrFlag) |||
            ((frame.canDlc.setWidth 32 <<< dlcPos) &&& dlcMask) }
      modify fun s => { s with rda := 0#32, rdb := 0#32 }
      modify (forBelow 8 (storeByte frame.data) frame.canDlc.toNat)
      setStatusBit Sr.rbs
      pure (0 : Int)) := by
    refine .bind (.modify fun _ => rfl) fun _ => ?_
    refine .bind (.modify fun _ => rfl) fun _ => ?_
    refine .bind (.modify fun _ => rfl) fun _ => ?_
    refine .bind (.modify fun _ => forBelow_storeByte_irq ..) fun _ => ?_
    exact (drives_setStatusBit _).bind fun _ => .pure _
  exact .ite ((drives_setStatusBit _).bind fun _ => hrest) hrest

theorem drives_canRead (addr : Nat) : Drives (canRead addr) := by
  apply Follows.get.bind
  intro s
  split <;> exact .pure _

theorem drives_canReset : Drives canReset :=
  .bind (.modify fun _ => rfl) fun _ => drives_qemuSetIrq false

section Bus

variable {ι : Type} [DecidableEq ι]

abbrev NetDrives {α : Type} (i : ι) (m : NetM ι α) : Prop :=
  Follows (fun net : Net ι => (net i).irq)
    (fun b (x : ι × Effect) => if x.1 = i then x.2.level b else b) m

theorem Drives.on {α : Type} {m : CanM α} (h : Drives m) (i j : ι) : NetDrives i (on j m) :=
  Follows.on h i j

theorem netDrives_offer (i c : ι) (frame : QemuCanFrame) (ret : Int) (peer : ι) :
    NetDrives i (controllers.offer c frame ret peer) := by
  have hcan : Drives canCanReceive := .pure true
  refine .bind (hcan.on i peer) fun _ => .ite (.ite (.pure ret) ?_) (.pure ret)
  exact .bind ((drives_canReceive frame).on i peer) fun _ => .pure _

theorem netDrives_canTransmit (i : ι) (bus : CanBusState ι) (c : ι) :
    NetDrives i (controllers.canTransmit bus c) := by
  have hsend (frame : QemuCanFrame) : NetDrives i (controllers.canBusClientSend bus c frame) :=
    .ite (.pure _) (.foldlM (netDrives_offer i c frame) _ _)
  have hget : Drives (Action.get : CanM CanState) := .get
  exact .bind (.bind (hget.on i c) fun s => (hsend s.frame).bind fun _ => .pure ()) fun _ =>
    (drives_setStatusBit _).on i c

theorem netDrives_canWrite (i : ι) (bus : CanBusState ι) (c : ι) (addr : Nat) (val : Word) :
    NetDrives i (canWrite bus c addr val) := by
  have hput (f : CanState → CanState) (hf : ∀ s, (f s).irq = s.irq) :
      NetDrives i (on c (modify f)) :=
    Drives.on (.modify hf) i c
  have hreset (b : Word) : NetDrives i (on c (resetStatusBit b)) := (drives_resetStatusBit b).on i c
  have hclear (b b' : Word) : NetDrives i (controllers.clearing c b b') :=
    (hreset b).bind fun _ => hput _ fun _ => rfl
  rw [canWrite, Clients.canWrite]
  split
  · exact hput _ fun _ => rfl
  · exact hput _ fun _ => rfl
  · exact hput _ fun _ => rfl
  · exact hput _ fun _ => rfl
  · exact .pure ()
  · exact .pure ()
  · exact .pure ()
  · exact .pure ()
  · exact .pure ()
  · have hoverrun : NetDrives i (do
        if has val Cmr.cdo then
          controllers.clearing c Sr.dos Cmr.cdo) :=
      .ite (hclear _ _) (.pure ())
    have hacknowledge : NetDrives i (controllers.acknowledging c val) :=
      .ite ((hclear _ _).bind fun _ => hoverrun) hoverrun
    have hrequest : NetDrives i (controllers.requesting c) :=
      .bind (hput _ fun _ => rfl) fun _ => hreset _
    exact hacknowledge.bind fun _ =>
      .ite (hrequest.bind fun _ => netDrives_canTransmit i bus c) (.pure ())
  · exact .bind (hput _ fun _ => rfl) fun _ => .bind (drives_checkAndSetInterrupt.on i c) fun _ =>
      drives_checkAndClearInterrupt.on i c
  · exact .pure ()

theorem netDrives_exec (i : ι) (bus : CanBusState ι) (op : Op ι) : NetDrives i (op.exec bus) := by
  cases op with
  | read c addr => exact Drives.on ((drives_canRead addr).bind fun _ => .emit fun _ => rfl) i c
  | write c addr val => exact netDrives_canWrite i bus c addr val
  | reset c => exact drives_canReset.on i c
  | receive c frame => exact Drives.on ((drives_canReceive frame).bind fun _ => .pure ()) i c

end Bus

end Can

end QemuBoard
