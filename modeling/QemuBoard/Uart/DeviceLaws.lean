import QemuBoard.Uart.Device

namespace QemuBoard.Uart

open Library Action

def ParamsOk (clkFreq : Nat) (divisor : Word) : Prop :=
  (divisor + 1#32).toNat ≠ 0 ∧ clkFreq / (divisor + 1#32).toNat ≠ 0

instance (clkFreq : Nat) (divisor : Word) : Decidable (ParamsOk clkFreq divisor) :=
  inferInstanceAs (Decidable (_ ∧ _))

def paramsLog (clkFreq : Nat) (divisor : Word) : List Effect :=
  [.setParams { speed := clkFreq / (divisor + 1#32).toNat, parity := 'E', dataBits := 8,
                stopBits := 1 }]

namespace UartState

@[simps] def setBit (s : UartState) (b : Word) : UartState :=
  { s with
    status := withE (s.status ||| b)
    irq := s.irq || has s.control (withE (s.status ||| b)) }

@[simps] def clearBit (s : UartState) (b : Word) : UartState :=
  { s with
    status := s.status &&& ~~~b
    irq := s.irq && has s.control (s.status &&& ~~~b) }

@[simps] def recheck (s : UartState) : UartState := { s with irq := has s.control s.status }

@[simps] def arm (s : UartState) (now : Nat) (timer : TimerId) : UartState :=
  { s with timers := s.timers.mod timer (now + s.charTxTime) }

@[simps] def disarm (s : UartState) (timer : TimerId) : UartState :=
  { s with timers := s.timers.del timer }

@[simps] def loadShift (s : UartState) (now : Nat) : UartState :=
  { (s.clearBit Status.tmt).setBit Status.trdy with
    txShiftRegister := s.txdata.setWidth 8
    timers := s.timers.mod .tx (now + s.charTxTime) }

@[simps] def params (s : UartState) : UartState :=
  { s with
    baudrate := s.clkFreq / (s.divisor + 1#32).toNat
    frameSize := 11
    charTxTime := nanosecondsPerSecond / (s.clkFreq / (s.divisor + 1#32).toNat) * 11 }

def setLog (s : UartState) (b : Word) : List Effect :=
  (if has s.control (withE (s.status ||| b)) then [.irq true] else []) ++
    [.helper s.control (withE (s.status ||| b)) (s.setBit b).irq]

def clearLog (s : UartState) (b : Word) : List Effect :=
  (if has s.control (s.status &&& ~~~b) then [] else [.irq false]) ++
    [.helper s.control (s.status &&& ~~~b) (s.clearBit b).irq]

def recheckLog (s : UartState) : List Effect := [.irq (has s.control s.status)]

def loadLog (s : UartState) : List Effect :=
  s.clearLog Status.tmt ++ (s.clearBit Status.tmt).setLog Status.trdy

end UartState

open UartState

theorem setStatusBit_run (s : UartState) (b : Word) :
    setStatusBit b s = some ((), s.setBit b, s.setLog b) := by
  simp only [setStatusBit, bind_run, modify_run, checkAndSetInterrupt, get_run, ite_run,
    qemuSetIrq, helperReturns, emit_run, after_some, after_nil, pure_run, setLog, setBit]
  cases has s.control (withE (s.status ||| b)) <;> simp

theorem resetStatusBit_run (s : UartState) (b : Word) :
    resetStatusBit b s = some ((), s.clearBit b, s.clearLog b) := by
  simp only [resetStatusBit, bind_run, modify_run, checkAndClearInterrupt, get_run, ite_run,
    qemuSetIrq, helperReturns, emit_run, after_some, after_nil, pure_run, clearLog, clearBit]
  cases has s.control (s.status &&& ~~~b) <;> simp

theorem recheck_run (s : UartState) :
    (do checkAndSetInterrupt; checkAndClearInterrupt : UartM Unit) s =
      some ((), s.recheck, s.recheckLog) := by
  simp only [bind_run, checkAndSetInterrupt, checkAndClearInterrupt, get_run, ite_run, qemuSetIrq,
    emit_run, modify_run, after_some, after_nil, pure_run, recheckLog, recheck]
  cases h : has s.control s.status <;> simp [h]

theorem loadShift_run (s : UartState) (now : Nat) :
    (do resetStatusBit Status.tmt
        setStatusBit Status.trdy
        modify fun s => { s with txShiftRegister := s.txdata.setWidth 8 }
        waitForChTxTime now .tx : UartM Unit) s = some ((), s.loadShift now, s.loadLog) := by
  simp only [bind_run, resetStatusBit_run, setStatusBit_run, waitForChTxTime, modify_run,
    after_some, List.append_nil, loadLog]
  rfl

theorem updateParams_run (s : UartState) :
    updateParams s =
      if ParamsOk s.clkFreq s.divisor then some ((), s.params, paramsLog s.clkFreq s.divisor)
      else none := by
  simp only [updateParams, bind_run, get_run, udiv, ite_run, abort_run, pure_run, after_nil]
  by_cases h₁ : (s.divisor + 1#32).toNat = 0
  · rw [if_neg (fun h : ParamsOk s.clkFreq s.divisor => h.1 h₁)]
    simp only [if_pos h₁]
  · by_cases h₂ : s.clkFreq / (s.divisor + 1#32).toNat = 0
    · rw [if_neg (fun h : ParamsOk s.clkFreq s.divisor => h.2 h₂)]
      simp only [if_neg h₁, if_pos h₂, after_none]
    · rw [if_pos (show ParamsOk s.clkFreq s.divisor from ⟨h₁, h₂⟩)]
      simp only [if_neg h₁, if_neg h₂, modify_run, emit_run, after_some, List.nil_append, paramsLog,
        params]

def Op.next (s : UartState) : Op → UartState
  | .read addr => if Reg.ofAddr addr = some .rxdata then s.clearBit Status.rrdy else s
  | .write now addr val =>
    match Reg.ofAddr addr with
    | some .txdata =>
      let s := { s with txdata := val }
      if has s.status Status.tmt then s.loadShift now
      else if has s.status Status.trdy then s.clearBit Status.trdy
      else s.setBit Status.toe
    | some .status => { s with status := val }.recheck
    | some .control => { s with control := val }.recheck
    | some .divisor => { s with divisor := val }.params
    | some .rxdata | none => s
  | .receive now buf =>
    if s.canReceive then { s with rxShiftRegister := buf, canReceive := false }.arm now .rx else s
  | .timeoutRx =>
    let t := { s.disarm .rx with rxdata := s.rxShiftRegister.setWidth 32, canReceive := true }
    if has s.status Status.rrdy then t.setBit Status.roe else t.setBit Status.rrdy
  | .timeoutTx now =>
    if has s.status Status.trdy then (s.disarm .tx).setBit Status.tmt
    else (s.disarm .tx).loadShift now
  | .reset now input =>
    let t := { s with
      rxdata := 0#32, txdata := 0#32, status := Status.trdy ||| Status.tmt, control := 0#32
      divisor := 1#32, canReceive := true, irq := false }
    match input with
    | [] => t.params
    | buf :: _ => ({ t with rxShiftRegister := buf, canReceive := false }.arm now .rx).params

def UartState.readValue (s : UartState) (addr : Nat) : Word :=
  match Reg.ofAddr addr with
  | some .rxdata => s.rxdata &&& 0xFF#32
  | some .status => s.status
  | some .control => s.control
  | some .divisor => s.divisor
  | some .txdata | none => 0#32

def Op.log (s : UartState) : Op → List Effect
  | .read addr =>
    (if Reg.ofAddr addr = some .rxdata then s.clearLog Status.rrdy else []) ++
      [.value addr (s.readValue addr)]
  | .write _ addr val =>
    match Reg.ofAddr addr with
    | some .txdata =>
      let s := { s with txdata := val }
      if has s.status Status.tmt then s.loadLog
      else if has s.status Status.trdy then s.clearLog Status.trdy
      else s.setLog Status.toe
    | some .status => { s with status := val }.recheckLog
    | some .control => { s with control := val }.recheckLog
    | some .divisor => paramsLog s.clkFreq val
    | some .rxdata | none => []
  | .receive _ _ => if s.canReceive then [.acceptInput] else []
  | .timeoutRx => if has s.status Status.rrdy then s.setLog Status.roe else s.setLog Status.rrdy
  | .timeoutTx _ =>
    .chrWrite s.txShiftRegister ::
      if has s.status Status.trdy then s.setLog Status.tmt else s.loadLog
  | .reset _ input =>
    .irq false :: (if input = [] then [.acceptInput] else [.acceptInput, .acceptInput]) ++
      paramsLog s.clkFreq 1#32

def Op.Traps (s : UartState) : Op → Prop
  | .write _ addr val => Reg.ofAddr addr = some .divisor ∧ ¬ ParamsOk s.clkFreq val
  | .reset _ _ => ¬ ParamsOk s.clkFreq 1#32
  | .read _ | .receive _ _ | .timeoutRx | .timeoutTx _ => False

instance (s : UartState) : (op : Op) → Decidable (op.Traps s)
  | .write _ _ _ => inferInstanceAs (Decidable (_ ∧ ¬ _))
  | .reset _ _ => inferInstanceAs (Decidable (¬ _))
  | .read _ | .receive _ _ | .timeoutRx | .timeoutTx _ => inferInstanceAs (Decidable False)

theorem uartReceive_run (s : UartState) (now : Nat) (buf : Byte) :
    uartReceive now buf s =
      some ((), Op.next s (.receive now buf), Op.log s (.receive now buf)) := by
  simp only [uartReceive, bind_run, get_run, ite_run, modify_run, waitForChTxTime, emit_run,
    pure_run, Op.next, Op.log, after_nil, after_some, List.nil_append]
  cases s.canReceive <;> simp [arm]

theorem qemuChrFeAcceptInput_busy (now : Nat) (input : List Byte) (s : UartState)
    (h : s.canReceive = false) :
    qemuChrFeAcceptInput now input s = some ((), s, [.acceptInput]) := by
  induction input with
  | nil => rfl
  | cons buf input ih =>
    simp [qemuChrFeAcceptInput, bind_run, uartReceive_run, Op.next, Op.log, h, ih]

theorem uartRead_run (s : UartState) (addr : Nat) :
    uartRead addr s = some (s.readValue addr, Op.next s (.read addr),
      if Reg.ofAddr addr = some .rxdata then s.clearLog Status.rrdy else []) := by
  simp only [uartRead, bind_run, get_run, after_nil, Op.next, readValue]
  cases Reg.ofAddr addr with
  | none => simp
  | some r => cases r <;> simp [bind_run, resetStatusBit_run]

theorem exec_read (s : UartState) (addr : Nat) :
    (Op.read addr).exec s = some ((), Op.next s (.read addr), Op.log s (.read addr)) := by
  rw [Op.exec, bind_of_run (uartRead_run s addr), emit_run, after_some, Op.log]

theorem exec_write (s : UartState) (now addr : Nat) (val : Word) :
    (Op.write now addr val).exec s =
      if (Op.write now addr val).Traps s then none
      else some ((), Op.next s (.write now addr val), Op.log s (.write now addr val)) := by
  simp only [Op.exec, uartWrite, Op.next, Op.log, Op.Traps]
  cases Reg.ofAddr addr with
  | none => simp
  | some r =>
    cases r with
    | rxdata => simp
    | txdata =>
      dsimp only
      rw [bind_of_run (modify_run _ _), after_nil, bind_of_run (get_run _)]
      simp only [after_nil, ite_run, loadShift_run, setStatusBit_run, resetStatusBit_run]
      cases has s.status Status.tmt <;> cases has s.status Status.trdy <;> simp
    | status | control =>
      dsimp only
      rw [bind_of_run (modify_run _ _), after_nil, recheck_run]
      simp
    | divisor =>
      dsimp only
      rw [bind_of_run (modify_run _ _), after_nil, updateParams_run]
      simp only [true_and, ite_not]

theorem exec_reset (s : UartState) (now : Nat) (input : List Byte) :
    (Op.reset now input).exec s =
      if (Op.reset now input).Traps s then none
      else some ((), Op.next s (.reset now input), Op.log s (.reset now input)) := by
  simp only [Op.exec, uartReset, qemuSetIrq, bind_run, modify_run, emit_run, after_nil, after_some,
    Op.next, Op.log, Op.Traps]
  cases input with
  | nil =>
    simp only [qemuChrFeAcceptInput, emit_run, updateParams_run]
    split <;> simp_all
  | cons buf input =>
    simp only [qemuChrFeAcceptInput, bind_run, uartReceive_run, Op.next, Op.log, if_true, arm]
    rw [qemuChrFeAcceptInput_busy _ _ _ rfl]
    simp only [updateParams_run, after_some]
    split <;> simp_all

theorem exec_timeoutRx (s : UartState) :
    Op.timeoutRx.exec s = some ((), Op.next s .timeoutRx, Op.log s .timeoutRx) := by
  simp only [Op.exec, expire, timeoutRx]
  rw [bind_of_run (modify_run _ _), after_nil, bind_of_run (modify_run _ _), after_nil,
    bind_of_run (get_run _), after_nil]
  simp only [ite_run, setStatusBit_run, Op.next, Op.log, disarm]
  cases has s.status Status.rrdy <;> rfl

theorem exec_timeoutTx (s : UartState) (now : Nat) :
    (Op.timeoutTx now).exec s =
      some ((), Op.next s (.timeoutTx now), Op.log s (.timeoutTx now)) := by
  simp only [Op.exec, expire, timeoutTx]
  rw [bind_of_run (modify_run _ _), after_nil, bind_of_run (get_run _), after_nil,
    bind_of_run (emit_run _ _)]
  simp only [ite_run, loadShift_run, setStatusBit_run, Op.next, Op.log]
  cases has s.status Status.trdy <;> rfl

theorem exec_eq (s : UartState) (op : Op) :
    op.exec s = if op.Traps s then none else some ((), op.next s, op.log s) := by
  cases op with
  | read addr => simpa [Op.Traps] using exec_read s addr
  | write now addr val => exact exec_write s now addr val
  | receive now buf => exact (uartReceive_run s now buf).trans (if_neg not_false).symm
  | timeoutRx => simpa [Op.Traps] using exec_timeoutRx s
  | timeoutTx now => simpa [Op.Traps] using exec_timeoutTx s now
  | reset now input => exact exec_reset s now input

theorem uartWrite_eq_some {s t : UartState} {now addr : Nat} {val : Word} {out : List Effect}
    (h : uartWrite now addr val s = some ((), t, out)) :
    t = Op.next s (.write now addr val) ∧ out = Op.log s (.write now addr val) := by
  have he := (exec_write s now addr val).symm.trans h
  split at he
  · simp at he
  · simpa [eq_comm] using he

theorem uartReset_eq_some {s t : UartState} {now : Nat} {input : List Byte} {out : List Effect}
    (h : uartReset now input s = some ((), t, out)) :
    t = Op.next s (.reset now input) ∧ out = Op.log s (.reset now input) := by
  have he := (exec_reset s now input).symm.trans h
  split at he
  · simp at he
  · simpa [eq_comm] using he

/-- All that one step of the device can do. -/
theorem step_iff {s t : UartState} {op : Op} {out : List Effect} :
    device.step s op out t ↔ op.Guard s ∧ ¬ op.Traps s ∧ t = op.next s ∧ out = op.log s := by
  simp only [device, System.ofActions, exec_eq]
  by_cases h : op.Traps s
  · simp [h]
  · simp [h, eq_comm]

@[simp] theorem has_withE {m : Word} (h : has Status.e m = false) (x : Word) :
    has (withE x) m = has x m := by
  unfold withE
  split
  · simp [h]
  · rfl

def Op.ValidDivisor : Op → Prop
  | .write _ addr val => Reg.ofAddr addr = some .divisor → val.toNat < clkFreq
  | .read _ | .receive _ _ | .timeoutRx | .timeoutTx _ | .reset _ _ => True

instance : (op : Op) → Decidable op.ValidDivisor
  | .write _ _ _ => inferInstanceAs (Decidable (_ → _))
  | .read _ | .receive _ _ | .timeoutRx | .timeoutTx _ | .reset _ _ =>
    inferInstanceAs (Decidable True)

def Op.Plain : Op → Prop
  | .write _ addr val =>
    Reg.ofAddr addr ≠ some .status ∧ (Reg.ofAddr addr = some .divisor → val.toNat < clkFreq)
  | .reset _ _ => False
  | .read _ | .receive _ _ | .timeoutRx | .timeoutTx _ => True

instance : (op : Op) → Decidable op.Plain
  | .write _ _ _ => inferInstanceAs (Decidable (_ ∧ (_ → _)))
  | .reset _ _ => inferInstanceAs (Decidable False)
  | .read _ | .receive _ _ | .timeoutRx | .timeoutTx _ => inferInstanceAs (Decidable True)

def Op.Steady : Op → Prop
  | .write _ addr _ => Reg.ofAddr addr ≠ some .status
  | .reset _ _ => False
  | .read _ | .receive _ _ | .timeoutRx | .timeoutTx _ => True

instance : DecidablePred Op.Steady
  | .write _ _ _ => inferInstanceAs (Decidable (_ ≠ _))
  | .reset _ _ => inferInstanceAs (Decidable False)
  | .read _ | .receive _ _ | .timeoutRx | .timeoutTx _ => inferInstanceAs (Decidable True)

theorem Op.Plain.steady {op : Op} (h : op.Plain) : op.Steady := by
  cases op with
  | write now addr val => exact h.1
  | reset now input => exact h
  | read addr | receive now buf | timeoutRx | timeoutTx now => trivial

theorem Op.Plain.validDivisor {op : Op} (h : op.Plain) : op.ValidDivisor := by
  cases op with
  | write now addr val => exact h.2
  | read addr | receive now buf | timeoutRx | timeoutTx now | reset now input => trivial

theorem paramsOk_of_lt {val : Word} (h : val.toNat < clkFreq) : ParamsOk clkFreq val := by
  have hlt : val.toNat + 1 < 2 ^ 32 := by unfold clkFreq at h; omega
  have hval : (val + 1#32).toNat = val.toNat + 1 := by
    rw [BitVec.toNat_add]
    exact Nat.mod_eq_of_lt hlt
  rw [ParamsOk, hval]
  exact ⟨Nat.succ_ne_zero _, (Nat.div_pos (Nat.succ_le_of_lt h) (Nat.succ_pos _)).ne'⟩

theorem next_clkFreq (s : UartState) (op : Op) : (op.next s).clkFreq = s.clkFreq := by
  cases op <;> simp only [Op.next] <;> repeat' split
  all_goals simp

theorem run_clkFreq {s t : UartState} {tr : Trace} (h : device.Run s tr t) :
    t.clkFreq = s.clkFreq := by
  refine h.preserves (I := fun u => u.clkFreq = s.clkFreq) rfl fun hstep hs => ?_
  obtain ⟨-, -, rfl, -⟩ := step_iff.mp hstep
  rw [next_clkFreq, hs]

theorem Op.ValidDivisor.step {s : UartState} {op : Op} (h : op.ValidDivisor)
    (hclk : s.clkFreq = Uart.clkFreq) (hguard : op.Guard s) : ∃ out t, device.step s op out t := by
  refine ⟨_, _, step_iff.mpr ⟨hguard, ?_, rfl, rfl⟩⟩
  cases op with
  | write now addr val =>
    rintro ⟨hreg, hbad⟩
    exact hbad (hclk ▸ paramsOk_of_lt (h hreg))
  | reset now input => exact fun hbad => hbad (hclk ▸ paramsOk_of_lt (by decide))
  | read addr | receive now buf | timeoutRx | timeoutTx now => exact not_false

def Effect.byte? : Effect → Option Byte
  | .chrWrite ch => some ch
  | _ => none

def emitted (l : List Effect) : List Byte := l.filterMap Effect.byte?

@[simp] theorem emitted_nil : emitted [] = [] := rfl

@[simp] theorem emitted_cons (e : Effect) (l : List Effect) :
    emitted (e :: l) = e.byte?.toList ++ emitted l := by
  cases e <;> rfl

@[simp] theorem emitted_append (l l' : List Effect) : emitted (l ++ l') = emitted l ++ emitted l' :=
  List.filterMap_append

@[simp] theorem emitted_setLog (s : UartState) (b : Word) : emitted (s.setLog b) = [] := by
  unfold setLog
  split <;> rfl

@[simp] theorem emitted_clearLog (s : UartState) (b : Word) : emitted (s.clearLog b) = [] := by
  unfold clearLog
  split <;> rfl

@[simp] theorem emitted_loadLog (s : UartState) : emitted s.loadLog = [] := by simp [loadLog]

theorem emitted_log (s : UartState) (op : Op) :
    emitted (op.log s) = match op with | .timeoutTx _ => [s.txShiftRegister] | _ => [] := by
  cases op with
  | read addr => simp only [Op.log]; split <;> simp [Effect.byte?]
  | write now addr val =>
    simp only [Op.log]
    repeat' split
    all_goals simp [Effect.byte?, recheckLog, paramsLog]
  | receive now buf => simp only [Op.log]; split <;> simp [Effect.byte?]
  | timeoutRx => simp only [Op.log]; split <;> simp
  | timeoutTx now => simp only [Op.log]; split <;> simp [Effect.byte?]
  | reset now input => simp only [Op.log]; split <;> simp [Effect.byte?, paramsLog]

end QemuBoard.Uart
