import QemuBoard.Uart.Clock

namespace QemuBoard.Uart

open Library Action UartState

section Property

def Effect.observed : Effect → Bool
  | .value _ _ | .chrWrite _ => true
  | .setParams _ | .acceptInput | .irq _ | .helper _ _ _ => false

/-- What the outside sees of a run: the values read, the bytes put out, and the interrupt line. -/
def observe (m : Action Timed Effect Unit) (w : Timed) : Option (List Effect × Bool) :=
  (m w).map fun r => (r.2.2.filter Effect.observed, r.2.1.uart.irq)

def Input.written : Input → List Byte
  | .write addr val => if Reg.ofAddr addr = some .txdata then [val.setWidth 8] else []
  | .read _ | .receive _ | .elapse _ => []

def Input.received : Input → List Byte
  | .receive buf => [buf]
  | .read _ | .write _ _ | .elapse _ => []

def Input.writesStatus : Input → Bool
  | .write addr _ => Reg.ofAddr addr = some .status
  | .read _ | .receive _ | .elapse _ => false

def resetThen (bytes : List Byte) (l : List Input) : Action Timed Effect Unit := do
  (History.reset bytes).exec
  Input.execAll l

def NoStale (bytes : List Byte) (l : List Input) (w : Timed) : Prop :=
  ∀ v out, resetThen bytes l w = some ((), v, out) →
    (∀ b ∈ emitted out, b ∈ l.flatMap Input.written) ∧
    (v.uart.rxdata = 0#32 ∨
      ∃ b ∈ bytes ++ l.flatMap Input.received, v.uart.rxdata = b.setWidth 32) ∧
    (l.any Input.writesStatus = false → has v.uart.status Status.rrdy = true →
      ∃ b ∈ bytes ++ l.flatMap Input.received, v.uart.rxdata = b.setWidth 32)

def ErasesPast (bytes : List Byte) (w₁ w₂ : Timed) : Prop :=
  ∀ l, observe (resetThen bytes l) w₁ = observe (resetThen bytes l) w₂ ∧
    NoStale bytes l w₁ ∧ NoStale bytes l w₂

/-- `uart_reset` leaves the timers alone, and a byte passed during it is timed by the old divisor.
-/
def Settled (bytes : List Byte) (w₁ w₂ : Timed) : Prop :=
  w₁.uart.timers.pending .tx = false ∧ w₂.uart.timers.pending .tx = false ∧
    if bytes = [] then w₁.uart.timers.pending .rx = false ∧ w₂.uart.timers.pending .rx = false
    else w₁.uart.charTxTime = w₂.uart.charTxTime

instance (bytes : List Byte) (w₁ w₂ : Timed) : Decidable (Settled bytes w₁ w₂) := by
  unfold Settled
  infer_instance

end Property

section Alike

@[simps] def UartState.shifted (s : UartState) (k : Nat) (tx rx : Byte) : UartState :=
  { s with timers := s.timers.shift k, txShiftRegister := tx, rxShiftRegister := rx }

/-- The same device later by `k`, up to shift registers whose timer does not run. -/
def Alike (k : Nat) (s t : UartState) : Prop :=
  ∃ tx rx, t = s.shifted k tx rx ∧ (s.timers.pending .tx = true → tx = s.txShiftRegister) ∧
    (s.timers.pending .rx = true → rx = s.rxShiftRegister)

def Op.delay (k : Nat) : Op → Op
  | .read addr => .read addr
  | .write now addr val => .write (now + k) addr val
  | .receive now buf => .receive (now + k) buf
  | .timeoutRx => .timeoutRx
  | .timeoutTx now => .timeoutTx (now + k)
  | .reset now input => .reset (now + k) input

namespace Alike

variable {k : Nat} {s t : UartState}

theorem keep (h : Alike k s t) (f : UartState → UartState)
    (hf : ∀ s tx rx, f (s.shifted k tx rx) = (f s).shifted k tx rx)
    (htimers : (f s).timers = s.timers) (htx : (f s).txShiftRegister = s.txShiftRegister)
    (hrx : (f s).rxShiftRegister = s.rxShiftRegister) : Alike k (f s) (f t) := by
  obtain ⟨tx, rx, rfl, hs⟩ := h
  exact ⟨tx, rx, hf s tx rx, by rw [htimers, htx, hrx]; exact hs⟩

theorem setBit (h : Alike k s t) (b : Word) : Alike k (s.setBit b) (t.setBit b) :=
  h.keep (·.setBit b) (fun _ _ _ => rfl) rfl rfl rfl

theorem clearBit (h : Alike k s t) (b : Word) : Alike k (s.clearBit b) (t.clearBit b) :=
  h.keep (·.clearBit b) (fun _ _ _ => rfl) rfl rfl rfl

theorem recheck (h : Alike k s t) : Alike k s.recheck t.recheck :=
  h.keep UartState.recheck (fun _ _ _ => rfl) rfl rfl rfl

theorem params (h : Alike k s t) : Alike k s.params t.params :=
  h.keep UartState.params (fun _ _ _ => rfl) rfl rfl rfl

theorem disarm (h : Alike k s t) (timer : TimerId) : Alike k (s.disarm timer) (t.disarm timer) := by
  obtain ⟨tx, rx, rfl, htx, hrx⟩ := h
  refine ⟨tx, rx, ?_, fun hp => htx ?_, fun hp => hrx ?_⟩
  · simp only [UartState.disarm, shifted, TimerList.del_shift]
  · exact (Bool.and_eq_true_iff.mp ((TimerList.pending_del ..).symm.trans hp)).2
  · exact (Bool.and_eq_true_iff.mp ((TimerList.pending_del ..).symm.trans hp)).2

theorem loadShift (h : Alike k s t) (now : Nat) :
    Alike k (s.loadShift now) (t.loadShift (now + k)) := by
  obtain ⟨tx, rx, rfl, -, hrx⟩ := h
  refine ⟨s.txdata.setWidth 8, rx, ?_, fun _ => rfl, fun hp => hrx (by simpa using hp)⟩
  simp only [UartState.loadShift, shifted, UartState.setBit, UartState.clearBit,
    Nat.add_right_comm now k, TimerList.mod_shift]

theorem loadReceive (h : Alike k s t) (now : Nat) (buf : Byte) :
    Alike k ({ s with rxShiftRegister := buf, canReceive := false }.arm now .rx)
      ({ t with rxShiftRegister := buf, canReceive := false }.arm (now + k) .rx) := by
  obtain ⟨tx, rx, rfl, htx, -⟩ := h
  refine ⟨tx, buf, ?_, fun hp => htx (by simpa using hp), fun _ => rfl⟩
  simp only [arm, shifted, Nat.add_right_comm now k, TimerList.mod_shift]

theorem status_eq (h : Alike k s t) : t.status = s.status ∧ t.canReceive = s.canReceive := by
  obtain ⟨tx, rx, rfl, -⟩ := h
  exact ⟨rfl, rfl⟩

theorem log (h : Alike k s t) {op : Op} (hg : op.Guard s) : (op.delay k).log t = op.log s := by
  obtain ⟨tx, rx, rfl, htx, -⟩ := h
  cases op with
  | timeoutTx now =>
    obtain rfl := htx hg
    rfl
  | read addr | write now addr val | receive now buf | timeoutRx | reset now input => rfl

theorem traps (h : Alike k s t) (op : Op) : (op.delay k).Traps t ↔ op.Traps s := by
  obtain ⟨tx, rx, rfl, -⟩ := h
  cases op <;> rfl

theorem next_write (h : Alike k s t) (now addr : Nat) (val : Word) :
    Alike k ((Op.write now addr val).next s) ((Op.write (now + k) addr val).next t) := by
  have hmask : ∀ m, has t.status m = has s.status m := fun m => by rw [h.status_eq.1]
  simp only [Op.next]
  cases Reg.ofAddr addr with
  | none => exact h
  | some r =>
    cases r with
    | rxdata => exact h
    | txdata =>
      have htx := h.keep (fun s => { s with txdata := val }) (fun _ _ _ => rfl) rfl rfl rfl
      simp only [hmask]
      split
      · exact htx.loadShift now
      · split
        · exact htx.clearBit _
        · exact htx.setBit _
    | status =>
      exact (h.keep (fun s => { s with status := val }) (fun _ _ _ => rfl) rfl rfl rfl).recheck
    | control =>
      exact (h.keep (fun s => { s with control := val }) (fun _ _ _ => rfl) rfl rfl rfl).recheck
    | divisor =>
      exact (h.keep (fun s => { s with divisor := val }) (fun _ _ _ => rfl) rfl rfl rfl).params

theorem next_timeoutRx (h : Alike k s t) (hp : s.timers.pending .rx = true) :
    Alike k (Op.timeoutRx.next s) (Op.timeoutRx.next t) := by
  have hrx : t.rxShiftRegister = s.rxShiftRegister := by
    obtain ⟨tx, rx, rfl, -, hrx⟩ := h
    exact hrx hp
  have hdata := (h.disarm .rx).keep
    (fun u => { u with rxdata := s.rxShiftRegister.setWidth 32, canReceive := true })
    (fun _ _ _ => rfl) rfl rfl rfl
  simp only [Op.next, h.status_eq.1, hrx]
  split
  · exact hdata.setBit _
  · exact hdata.setBit _

theorem next (h : Alike k s t) {op : Op} (hg : op.Guard s) :
    Alike k (op.next s) ((op.delay k).next t) := by
  cases op with
  | read addr =>
    simp only [Op.next, Op.delay]
    split
    · exact h.clearBit _
    · exact h
  | write now addr val => exact h.next_write now addr val
  | receive now buf =>
    simp only [Op.next, Op.delay, h.status_eq.2]
    split
    · exact h.loadReceive now buf
    · exact h
  | timeoutRx => exact h.next_timeoutRx hg
  | timeoutTx now =>
    simp only [Op.next, Op.delay, h.status_eq.1]
    split
    · exact (h.disarm .tx).setBit _
    · exact (h.disarm .tx).loadShift now
  | reset now input =>
    have hreset := h.keep (fun s => { s with
      rxdata := 0#32, txdata := 0#32, status := Status.trdy ||| Status.tmt, control := 0#32
      divisor := 1#32, canReceive := true, irq := false }) (fun _ _ _ => rfl) rfl rfl rfl
    cases input with
    | nil => exact hreset.params
    | cons buf input => exact (hreset.loadReceive now buf).params

end Alike

def TimedAlike (k : Nat) (w v : Timed) : Prop := v.now = w.now + k ∧ Alike k w.uart v.uart

namespace TimedAlike

variable {k : Nat} {w v : Timed}

theorem perform (h : TimedAlike k w v) (op : Nat → Op)
    (hop : ∀ now, op (now + k) = (op now).delay k) (hg : (op w.now).Guard w.uart) :
    Agree (TimedAlike k) (Uart.perform op w) (Uart.perform op v) := by
  obtain ⟨hnow, halike⟩ := h
  rw [perform_run, perform_run, hnow, hop, halike.log hg]
  by_cases htraps : (op w.now).Traps w.uart
  · rw [if_pos htraps, if_pos ((halike.traps _).mpr htraps)]
    exact .abort
  · rw [if_neg htraps, if_neg (fun ht => htraps ((halike.traps _).mp ht))]
    exact .done ⟨rfl, halike.next hg⟩

theorem fire (h : TimedAlike k w v) {timer : TimerId} (hp : w.uart.timers.pending timer = true)
    (e : Nat) : Agree (TimedAlike k) (Uart.fire timer e w) (Uart.fire timer (e + k) v) := by
  rw [Uart.fire, Uart.fire, bind_of_run (modify_run _ _), bind_of_run (modify_run _ _), after_nil,
    after_nil]
  have hmax : TimedAlike k { w with now := max w.now e } { v with now := max v.now (e + k) } :=
    ⟨by rw [h.1]; exact Nat.add_max_add_right .., h.2⟩
  cases timer with
  | rx => exact hmax.perform (callback .rx) (fun _ => rfl) hp
  | tx => exact hmax.perform (callback .tx) (fun _ => rfl) hp

theorem elapse (h : TimedAlike k w v) (d : Nat) :
    Agree (TimedAlike k) (Uart.elapse d w) (Uart.elapse d v) := by
  have htarget : v.now + d = w.now + d + k := by rw [h.1, Nat.add_right_comm]
  rw [Uart.elapse, Uart.elapse, htarget]
  refine Agree.bind (runTimers_agree ?_ ?_ rounds h) ?_
  · intro w v h
    obtain ⟨-, tx, rx, heq, -⟩ := h
    rw [heq]
    rfl
  · intro w v timer e l h hw
    exact h.fire (TimerList.pending_of_head hw) e
  · intro _ w' v' h
    exact .done ⟨rfl, h.2⟩

theorem exec (h : TimedAlike k w v) (x : Input) : Agree (TimedAlike k) (x.exec w) (x.exec v) := by
  cases x with
  | read addr => exact h.perform (fun _ => .read addr) (fun _ => rfl) trivial
  | write addr val => exact h.perform (fun now => .write now addr val) (fun _ => rfl) trivial
  | receive buf => exact h.perform (fun now => .receive now buf) (fun _ => rfl) trivial
  | elapse d => exact h.elapse d

theorem execAll (h : TimedAlike k w v) (l : List Input) :
    Agree (TimedAlike k) (Input.execAll l w) (Input.execAll l v) := by
  induction l generalizing w v with
  | nil => exact .done h
  | cons x l ih => exact (h.exec x).bind fun _ _ _ => ih

end TimedAlike

theorem observe_eq {k : Nat} {m : Action Timed Effect Unit} {w v : Timed}
    (h : Agree (TimedAlike k) (m w) (m v)) : observe m w = observe m v := by
  unfold observe
  generalize m w = o at h ⊢
  generalize m v = o' at h ⊢
  cases h with
  | abort => rfl
  | done h =>
    obtain ⟨-, tx, rx, heq, -⟩ := h
    rw [Option.map_some, Option.map_some, heq]
    rfl

def atZero (charTxTime : Nat) : Timed := ⟨0, { uartInit with charTxTime := charTxTime }⟩

theorem alike_reset {s : UartState} (hclk : s.clkFreq = Uart.clkFreq)
    (htx : s.timers.pending .tx = false) {bytes : List Byte}
    (hrx : bytes = [] → s.timers.pending .rx = false) (now : Nat) :
    Alike now ((Op.reset 0 bytes).next (atZero s.charTxTime).uart)
      ((Op.reset now bytes).next s) := by
  cases bytes with
  | nil =>
    have htimers : s.timers = .empty := by
      apply TimerList.eq_empty
      intro i
      cases i with
      | rx => exact hrx rfl
      | tx => exact htx
    refine ⟨s.txShiftRegister, s.rxShiftRegister, ?_, ?_, ?_⟩
    · simp only [Op.next, params, shifted, hclk, htimers]
      rfl
    · simp [Op.next, atZero, uartInit]
    · simp [Op.next, atZero, uartInit]
  | cons buf bytes =>
    have htimers : s.timers.mod .rx (now + s.charTxTime) =
        ((TimerList.empty.mod .rx (0 + s.charTxTime)).shift now) := by
      rw [← TimerList.mod_shift, Nat.add_comm now, Nat.zero_add]
      apply TimerList.mod_eq_empty_mod
      intro i hi
      cases i with
      | rx => exact absurd rfl hi
      | tx => exact htx
    refine ⟨s.txShiftRegister, buf, ?_, ?_, fun _ => rfl⟩
    · simp only [Op.next, arm, params, shifted, hclk, htimers]
      rfl
    · simp [Op.next, atZero, uartInit]

end Alike

section Fresh

/-- Everything on its way through the device is among the bytes `written` and `received`; RRDY may
stand for itself only after a write of STATUS. -/
structure Fresh (written received : List Byte) (statusWritten : Bool) (s : UartState) : Prop where
  tx : s.timers.pending .tx = true → s.txShiftRegister ∈ written ∧ s.txdata.setWidth 8 ∈ written
  rx : s.timers.pending .rx = true → s.rxShiftRegister ∈ received
  data : s.rxdata = 0#32 ∨ ∃ b ∈ received, s.rxdata = b.setWidth 32
  ready : statusWritten = false → has s.status Status.rrdy = true →
    ∃ b ∈ received, s.rxdata = b.setWidth 32

namespace Fresh

variable {written received : List Byte} {statusWritten : Bool} {s : UartState}

theorem clearBit (h : Fresh written received statusWritten s) (i : Nat) :
    Fresh written received statusWritten (s.clearBit (bit 32 i)) where
  tx := h.tx
  rx := h.rx
  data := h.data
  ready hw hr := by
    rw [clearBit_status, has_clear_bit, Bool.and_eq_true] at hr
    exact h.ready hw hr.1

theorem setBit (h : Fresh written received statusWritten s) {b : Word}
    (hb : has b Status.rrdy = false) : Fresh written received statusWritten (s.setBit b) where
  tx := h.tx
  rx := h.rx
  data := h.data
  ready hw hr := h.ready hw (by simpa [hb] using hr)

theorem loadShift (h : Fresh written received statusWritten s) (htx : s.txdata.setWidth 8 ∈ written)
    (now : Nat) : Fresh written received statusWritten (s.loadShift now) where
  tx _ := ⟨htx, htx⟩
  rx hp := h.rx (by simpa using hp)
  data := h.data
  ready hw hr := h.ready hw (by simpa using hr)

theorem timeoutTx (h : Fresh written received statusWritten s) (hp : s.timers.pending .tx = true)
    (now : Nat) : Fresh written received statusWritten ((Op.timeoutTx now).next s) := by
  have hoff : Fresh written received statusWritten (s.disarm .tx) :=
    { h with
      tx := fun hp => by simp at hp
      rx := fun hp => h.rx (by simpa using hp) }
  simp only [Op.next]
  split
  · exact hoff.setBit (by decide)
  · exact hoff.loadShift (h.tx hp).2 now

theorem timeoutRx (h : Fresh written received statusWritten s) (hp : s.timers.pending .rx = true) :
    Fresh written received statusWritten (Op.timeoutRx.next s) := by
  have hdata : ∃ b ∈ received, s.rxShiftRegister.setWidth 32 = b.setWidth 32 := ⟨_, h.rx hp, rfl⟩
  simp only [Op.next]
  split <;> exact
    { tx := fun hp => h.tx (by simpa using hp)
      rx := fun hp => by simp at hp
      data := .inr hdata
      ready := fun _ _ => hdata }

theorem mono (h : Fresh written received statusWritten s) {written' received' : List Byte}
    {statusWritten' : Bool} (hw : written ⊆ written') (hr : received ⊆ received')
    (hs : statusWritten' = false → statusWritten = false) :
    Fresh written' received' statusWritten' s where
  tx hp := ⟨hw (h.tx hp).1, hw (h.tx hp).2⟩
  rx hp := hr (h.rx hp)
  data := h.data.imp_right fun ⟨b, hb, heq⟩ => ⟨b, hr hb, heq⟩
  ready hf hrrdy :=
    have ⟨b, hb, heq⟩ := h.ready (hs hf) hrrdy
    ⟨b, hr hb, heq⟩

theorem write (h : Fresh written received statusWritten s) (now addr : Nat) (val : Word) :
    Fresh (written ++ (Input.write addr val).written) received
      (statusWritten || (Input.write addr val).writesStatus) ((Op.write now addr val).next s) := by
  simp only [Op.next, Input.written, Input.writesStatus]
  cases Reg.ofAddr addr with
  | none => simpa using h
  | some r =>
    cases r with
    | rxdata => simpa using h
    | txdata =>
      have hval : val.setWidth 8 ∈ written ++ [val.setWidth 8] := by simp
      have htx : Fresh (written ++ [val.setWidth 8]) received statusWritten
          { s with txdata := val } :=
        { tx := fun hp => ⟨List.mem_append_left _ (h.tx hp).1, hval⟩
          rx := h.rx
          data := h.data
          ready := h.ready }
      simp only [if_true, reduceCtorEq, Option.some.injEq, decide_false, Bool.or_false]
      split
      · exact htx.loadShift hval now
      · split
        · exact htx.clearBit _
        · exact htx.setBit (by decide)
    | status =>
      simp only [reduceCtorEq, Option.some.injEq, if_false, List.append_nil, decide_true,
        Bool.or_true]
      exact { tx := h.tx, rx := h.rx, data := h.data, ready := fun hf => absurd hf (by decide) }
    | control => simpa using { tx := h.tx, rx := h.rx, data := h.data, ready := h.ready }
    | divisor => simpa using { tx := h.tx, rx := h.rx, data := h.data, ready := h.ready }

theorem receive (h : Fresh written received statusWritten s) (now : Nat) (buf : Byte) :
    Fresh written (received ++ [buf]) statusWritten ((Op.receive now buf).next s) := by
  have hmono := h.mono (List.Subset.refl _) (List.subset_append_left received [buf]) id
  simp only [Op.next]
  split
  · exact
      { tx := fun hp => h.tx (by simpa using hp)
        rx := fun _ => by simp
        data := hmono.data
        ready := hmono.ready }
  · exact hmono

theorem elapse {w v : Timed} {d : Nat} {out : List Effect}
    (h : Fresh written received statusWritten w.uart) (hrun : Uart.elapse d w = some ((), v, out)) :
    Fresh written received statusWritten v.uart ∧ ∀ b ∈ emitted out, b ∈ written := by
  obtain ⟨v', out', hrun', hfresh, -⟩ := elapse_done
    (I := fun v out => Fresh written received statusWritten v.uart ∧ ∀ b ∈ emitted out, b ∈ written)
    w d ⟨h, by simp⟩ (by
      rintro v out timer e ⟨hv, hout⟩ hp
      cases timer with
      | rx => exact ⟨hv.timeoutRx hp, by simpa [callback, emitted_log] using hout⟩
      | tx =>
        refine ⟨hv.timeoutTx hp _, fun b hb => ?_⟩
        rw [emitted_append, emitted_log, List.mem_append] at hb
        rcases hb with hb | hb
        · exact hout b hb
        · rw [List.mem_singleton.mp hb]
          exact (hv.tx hp).1)
  rw [hrun'] at hrun
  obtain ⟨rfl, rfl⟩ : { v' with now := w.now + d } = v ∧ out' = out := by simpa using hrun
  exact hfresh

theorem exec {w v : Timed} {x : Input} {out : List Effect}
    (h : Fresh written received statusWritten w.uart) (hrun : x.exec w = some ((), v, out)) :
    Fresh (written ++ x.written) (received ++ x.received) (statusWritten || x.writesStatus) v.uart ∧
      ∀ b ∈ emitted out, b ∈ written ++ x.written := by
  cases x with
  | read addr =>
    obtain ⟨rfl, rfl⟩ := perform_eq_some (fun _ => .read addr) hrun
    refine ⟨?_, by simp [emitted_log]⟩
    simp only [Input.written, Input.received, Input.writesStatus, List.append_nil, Bool.or_false,
      Op.next]
    split
    · exact h.clearBit _
    · exact h
  | write addr val =>
    obtain ⟨rfl, rfl⟩ := perform_eq_some (fun now => .write now addr val) hrun
    refine ⟨?_, by simp [emitted_log]⟩
    rw [Input.received, List.append_nil]
    exact h.write w.now addr val
  | receive buf =>
    obtain ⟨rfl, rfl⟩ := perform_eq_some (fun now => .receive now buf) hrun
    refine ⟨?_, by simp [emitted_log]⟩
    rw [Input.written, List.append_nil, Input.writesStatus, Bool.or_false]
    exact h.receive w.now buf
  | elapse d => simpa [Input.written, Input.received, Input.writesStatus] using h.elapse hrun

theorem execAll {w v : Timed} {l : List Input} {out : List Effect}
    (h : Fresh written received statusWritten w.uart)
    (hrun : Input.execAll l w = some ((), v, out)) :
    Fresh (written ++ l.flatMap Input.written) (received ++ l.flatMap Input.received)
        (statusWritten || l.any Input.writesStatus) v.uart ∧
      ∀ b ∈ emitted out, b ∈ written ++ l.flatMap Input.written := by
  induction l generalizing w written received statusWritten out with
  | nil =>
    obtain ⟨rfl, rfl⟩ : w = v ∧ [] = out := by simpa [Input.execAll] using hrun
    exact ⟨by simpa using h, by simp⟩
  | cons x l ih =>
    obtain ⟨⟨⟩, u, out₁, out₂, hx, hl, rfl⟩ := exists_of_bind hrun
    obtain ⟨hu, hout₁⟩ := h.exec hx
    obtain ⟨hv, hout₂⟩ := ih hu hl
    simp only [List.append_assoc, ← List.flatMap_cons, Bool.or_assoc, ← List.any_cons] at hv hout₂
    refine ⟨hv, fun b hb => ?_⟩
    rw [emitted_append, List.mem_append] at hb
    rcases hb with hb | hb
    · rw [List.flatMap_cons, ← List.append_assoc]
      exact List.mem_append_left _ (hout₁ b hb)
    · exact hout₂ b hb

end Fresh

end Fresh

section Reset

variable {w : Timed} {bytes : List Byte}

theorem timed_clkFreq {n : Nat} {tr : List (Event Timed History Effect)}
    (h : timed.Run ⟨n, uartInit⟩ tr w) : w.uart.clkFreq = Uart.clkFreq := by
  refine h.preserves (I := fun w => w.uart.clkFreq = Uart.clkFreq) rfl fun {w x out v} hstep hw =>
    ?_
  have hperform : ∀ op : Nat → Op, perform op w = some ((), v, out) →
      v.uart.clkFreq = Uart.clkFreq := by
    intro op hop
    obtain ⟨rfl, -⟩ := perform_eq_some op hop
    rw [next_clkFreq, hw]
  cases x with
  | reset bytes => exact hperform (fun now => .reset now bytes) hstep.2
  | input x =>
    cases x with
    | read addr => exact hperform (fun _ => .read addr) hstep.2
    | write addr val => exact hperform (fun now => .write now addr val) hstep.2
    | receive buf => exact hperform (fun now => .receive now buf) hstep.2
    | elapse d =>
      obtain ⟨v', out', hrun, hclk, -⟩ := elapse_done
        (I := fun v _ => v.uart.clkFreq = Uart.clkFreq) w d hw (by
          intro v out timer e hv _
          rw [Timed.fired_uart, next_clkFreq, hv])
      have hv := hrun.symm.trans hstep.2
      obtain ⟨rfl, -⟩ : { v' with now := w.now + d } = v ∧ out' = out := by simpa using hv
      exact hclk

def Timed.afterReset (w : Timed) (bytes : List Byte) : Timed :=
  { w with uart := (Op.reset w.now bytes).next w.uart }

theorem reset_run (hclk : w.uart.clkFreq = Uart.clkFreq) (bytes : List Byte) :
    (History.reset bytes).exec w =
      some ((), w.afterReset bytes, (Op.reset w.now bytes).log w.uart) := by
  rw [History.exec, perform_of_not_traps _]
  · rfl
  · rw [Op.Traps, hclk]
    exact not_not.mpr (paramsOk_of_lt (by decide))

theorem resetThen_run (hclk : w.uart.clkFreq = Uart.clkFreq) (bytes : List Byte) (l : List Input) :
    resetThen bytes l w = after ((Op.reset w.now bytes).log w.uart)
      (Input.execAll l (w.afterReset bytes)) := by
  rw [resetThen, bind_of_run (reset_run hclk bytes)]

theorem expiry_afterReset (w : Timed) (bytes : List Byte) :
    (w.afterReset bytes).uart.timers.expiry .tx = w.uart.timers.expiry .tx ∧
    (w.afterReset bytes).uart.timers.expiry .rx =
      if bytes = [] then w.uart.timers.expiry .rx else some (w.now + w.uart.charTxTime) := by
  cases bytes <;> simp [Timed.afterReset, Op.next]

theorem status_afterReset (w : Timed) (bytes : List Byte) :
    (w.afterReset bytes).uart.status = Status.trdy ||| Status.tmt := by
  cases bytes <;> rfl

theorem fresh_afterReset (htx : w.uart.timers.pending .tx = false)
    (hrx : bytes = [] → w.uart.timers.pending .rx = false) :
    Fresh [] bytes false (w.afterReset bytes).uart := by
  have hready : has (w.afterReset bytes).uart.status Status.rrdy = false := by
    rw [status_afterReset]
    decide
  cases bytes with
  | nil =>
    exact
      { tx := fun hp => absurd (hp.symm.trans htx) (by decide)
        rx := fun hp => absurd (hp.symm.trans (hrx rfl)) (by decide)
        data := .inl rfl
        ready := fun _ hr => absurd (hr.symm.trans hready) (by decide) }
  | cons buf bytes =>
    exact
      { tx := fun hp => by simp [Timed.afterReset, Op.next, htx] at hp
        rx := fun _ => by simp [Timed.afterReset, Op.next]
        data := .inl rfl
        ready := fun _ hr => absurd (hr.symm.trans hready) (by decide) }

theorem noStale (hclk : w.uart.clkFreq = Uart.clkFreq) (htx : w.uart.timers.pending .tx = false)
    (hrx : bytes = [] → w.uart.timers.pending .rx = false) (l : List Input) :
    NoStale bytes l w := by
  intro v out hrun
  obtain ⟨⟨⟩, u, out₁, out₂, hreset, hl, rfl⟩ := exists_of_bind hrun
  rw [reset_run hclk] at hreset
  obtain ⟨rfl, rfl⟩ : w.afterReset bytes = u ∧ _ = out₁ := by simpa using hreset
  obtain ⟨hfresh, hout⟩ := (fresh_afterReset htx hrx).execAll hl
  exact ⟨by simpa [emitted_log] using hout, hfresh.data, by simpa using hfresh.ready⟩

theorem resetThen_agree (hclk : w.uart.clkFreq = Uart.clkFreq)
    (htx : w.uart.timers.pending .tx = false)
    (hrx : bytes = [] → w.uart.timers.pending .rx = false) (l : List Input) :
    Agree (TimedAlike w.now)
      (resetThen bytes l (atZero w.uart.charTxTime)) (resetThen bytes l w) := by
  have hlog : (Op.reset w.now bytes).log w.uart =
      (Op.reset 0 bytes).log (atZero w.uart.charTxTime).uart := by
    simp only [Op.log, hclk]
    rfl
  rw [resetThen_run hclk, resetThen_run (by rfl), hlog]
  refine (TimedAlike.execAll ⟨?_, alike_reset hclk htx hrx w.now⟩ l).after _
  exact (Nat.zero_add w.now).symm

theorem observe_resetThen (hclk : w.uart.clkFreq = Uart.clkFreq)
    (htx : w.uart.timers.pending .tx = false)
    (hrx : bytes = [] → w.uart.timers.pending .rx = false) (l : List Input) {c : Nat}
    (hc : bytes ≠ [] → w.uart.charTxTime = c) :
    observe (resetThen bytes l) w = observe (resetThen bytes l) (atZero c) := by
  rw [← observe_eq (resetThen_agree hclk htx hrx l)]
  cases bytes with
  | nil =>
    rw [observe, observe, resetThen_run rfl, resetThen_run rfl]
    rfl
  | cons buf bytes => rw [hc (by simp)]

theorem elapse_emits {d e : Nat} (he : w.uart.timers.expiry .tx = some e) (hd : e ≤ w.now + d) :
    ∃ v out, elapse d w = some ((), v, out) ∧ emitted out ≠ [] := by
  obtain ⟨v, out, hrun, hI, hdone⟩ := elapse_done
    (I := fun v out => emitted out ≠ [] ∨ v.uart.timers.expiry .tx = some e) w d (.inr he) (by
      intro v out timer e' hv hp
      cases timer with
      | tx => exact .inl (by simp [callback, emitted_log])
      | rx =>
        refine hv.imp (fun hout => by simp [callback, emitted_log, hout]) fun hexp => ?_
        simp only [Timed.fired_uart, callback, Op.next]
        split <;> simpa using hexp)
  refine ⟨_, out, hrun, hI.resolve_right fun hexp => ?_⟩
  exact absurd (hdone _ _ hexp) (Nat.not_lt.mpr hd)

theorem elapse_rrdy {d e : Nat} (he : w.uart.timers.expiry .rx = some e) (hd : e ≤ w.now + d) :
    ∃ v out, elapse d w = some ((), v, out) ∧ has v.uart.status Status.rrdy = true := by
  obtain ⟨v, out, hrun, hI, hdone⟩ := elapse_done
    (I := fun v _ => has v.uart.status Status.rrdy = true ∨ v.uart.timers.expiry .rx = some e) w d
    (.inr he) (by
      intro v out timer e' hv hp
      cases timer with
      | rx =>
        refine .inl ?_
        simp only [Timed.fired_uart, callback, Op.next]
        split
        case isTrue hr => simp [hr]
        case isFalse => simp
      | tx =>
        refine hv.imp (fun hr => ?_) fun hexp => ?_
        all_goals
          simp only [Timed.fired_uart, callback, Op.next]
          split
        · simpa using hr
        · simpa using hr
        · simpa using hexp
        · simpa using hexp)
  refine ⟨_, out, hrun, hI.resolve_right fun hexp => ?_⟩
  exact absurd (hdone _ _ hexp) (Nat.not_lt.mpr hd)

theorem resetThen_elapse (hclk : w.uart.clkFreq = Uart.clkFreq) {v : Timed} {d : Nat}
    {out : List Effect} (h : elapse d (w.afterReset bytes) = some ((), v, out)) (l : List Input) :
    resetThen bytes (.elapse d :: l) w =
      after ((Op.reset w.now bytes).log w.uart ++ out) (Input.execAll l v) := by
  rw [resetThen_run hclk, execAll_cons_of_run (x := .elapse d) h, after_after]

theorem not_pending_tx (hclk : w.uart.clkFreq = Uart.clkFreq) (h : ∀ l, NoStale bytes l w) :
    w.uart.timers.pending .tx = false := by
  cases hexp : w.uart.timers.expiry .tx with
  | none => simp [TimerList.pending, hexp]
  | some e =>
    obtain ⟨v, out, hrun, hout⟩ := elapse_emits (d := e)
      ((expiry_afterReset w bytes).1.trans hexp) (Nat.le_add_left _ _)
    obtain ⟨b, hb⟩ := List.exists_mem_of_ne_nil _ hout
    have hwritten := (h _ v _ (resetThen_elapse hclk hrun [])).1 b (by simp [hb])
    simp [Input.written] at hwritten

theorem not_pending_rx (hclk : w.uart.clkFreq = Uart.clkFreq) (h : ∀ l, NoStale [] l w) :
    w.uart.timers.pending .rx = false := by
  cases hexp : w.uart.timers.expiry .rx with
  | none => simp [TimerList.pending, hexp]
  | some e =>
    obtain ⟨v, out, hrun, hrrdy⟩ := elapse_rrdy (d := e)
      ((expiry_afterReset w []).2.trans hexp) (Nat.le_add_left _ _)
    have hreceived := (h _ v _ (resetThen_elapse hclk hrun [])).2.2 rfl hrrdy
    simp [Input.received] at hreceived

theorem observe_status (hclk : w.uart.clkFreq = Uart.clkFreq) {v : Timed} {d : Nat}
    {out : List Effect} (h : elapse d (w.afterReset bytes) = some ((), v, out)) :
    observe (resetThen bytes [.elapse d, .read 0x08]) w =
      some (out.filter Effect.observed ++ [.value 0x08 v.uart.status], v.uart.irq) := by
  have hread : (Input.read 0x08).exec v = some ((), v, [.value 0x08 v.uart.status]) := by
    rw [Input.exec, perform_of_not_traps (fun _ => .read 0x08) not_false]
    rfl
  have hlog : ((Op.reset w.now bytes).log w.uart).filter Effect.observed = [] := by
    cases bytes <;> rfl
  rw [observe, resetThen_elapse hclk h, execAll_cons_of_run hread]
  simp [Input.execAll, hlog, Effect.observed]

theorem charTxTime_le {w₁ w₂ : Timed} (hclk₁ : w₁.uart.clkFreq = Uart.clkFreq)
    (hclk₂ : w₂.uart.clkFreq = Uart.clkFreq) (htx : w₂.uart.timers.pending .tx = false)
    (hbytes : bytes ≠ [])
    (h : ∀ l, observe (resetThen bytes l) w₁ = observe (resetThen bytes l) w₂) :
    w₂.uart.charTxTime ≤ w₁.uart.charTxTime := by
  refine Nat.le_of_not_lt fun hlt => ?_
  have hrx₁ := (expiry_afterReset w₁ bytes).2.trans (if_neg hbytes)
  obtain ⟨v₁, out₁, hrun₁, hrrdy⟩ := elapse_rrdy hrx₁ (Nat.le_refl _)
  have hactive : (w₂.afterReset bytes).uart.timers.active =
      [(.rx, w₂.now + w₂.uart.charTxTime)] := by
    cases bytes with
    | nil => exact absurd rfl hbytes
    | cons buf bytes =>
      have hmod := TimerList.mod_eq_empty_mod (t := w₂.uart.timers) (i := .rx)
        (fun i hi => by cases i <;> simp_all) (w₂.now + w₂.uart.charTxTime)
      exact congrArg TimerList.active hmod
  have hrun₂ := elapse_of_not_due (w := w₂.afterReset bytes) (d := w₁.uart.charTxTime)
    (by rw [hactive]; simpa [Timed.afterReset] using hlt)
  have heq := h [.elapse w₁.uart.charTxTime, .read 0x08]
  rw [observe_status hclk₁ hrun₁, observe_status hclk₂ hrun₂, status_afterReset] at heq
  have hlist : out₁.filter Effect.observed ++ [Effect.value 0x08 v₁.uart.status] =
      [Effect.value 0x08 (Status.trdy ||| Status.tmt)] := congrArg Prod.fst (Option.some.inj heq)
  have hmem : Effect.value 0x08 v₁.uart.status ∈ [Effect.value 0x08 (Status.trdy ||| Status.tmt)] :=
    hlist ▸ List.mem_append_right _ (List.mem_singleton_self _)
  obtain ⟨-, hstatus⟩ := (Effect.value.injEq ..).mp (List.mem_singleton.mp hmem)
  rw [hstatus] at hrrdy
  exact absurd hrrdy (by decide)

/-- A reset erases the past of the devices that are settled, and of no others. -/
theorem reset_erases_iff {n₁ n₂ : Nat} {tr₁ tr₂ : List (Event Timed History Effect)} {w₁ w₂ : Timed}
    (h₁ : timed.Run ⟨n₁, uartInit⟩ tr₁ w₁) (h₂ : timed.Run ⟨n₂, uartInit⟩ tr₂ w₂)
    (bytes : List Byte) : ErasesPast bytes w₁ w₂ ↔ Settled bytes w₁ w₂ := by
  have hclk₁ := timed_clkFreq h₁
  have hclk₂ := timed_clkFreq h₂
  constructor
  · intro h
    have htx₁ := not_pending_tx hclk₁ fun l => (h l).2.1
    have htx₂ := not_pending_tx hclk₂ fun l => (h l).2.2
    refine ⟨htx₁, htx₂, ?_⟩
    split
    case isTrue hnil =>
      subst hnil
      exact ⟨not_pending_rx hclk₁ fun l => (h l).2.1, not_pending_rx hclk₂ fun l => (h l).2.2⟩
    case isFalse hne =>
      exact Nat.le_antisymm (charTxTime_le hclk₂ hclk₁ htx₁ hne fun l => (h l).1.symm)
        (charTxTime_le hclk₁ hclk₂ htx₂ hne fun l => (h l).1)
  · rintro ⟨htx₁, htx₂, hrest⟩ l
    have hrx₁ : bytes = [] → w₁.uart.timers.pending .rx = false := fun h => (if_pos h ▸ hrest).1
    have hrx₂ : bytes = [] → w₂.uart.timers.pending .rx = false := fun h => (if_pos h ▸ hrest).2
    have hc : bytes ≠ [] → w₂.uart.charTxTime = w₁.uart.charTxTime :=
      fun h => (if_neg h ▸ hrest).symm
    refine ⟨?_, noStale hclk₁ htx₁ hrx₁ l, noStale hclk₂ htx₂ hrx₂ l⟩
    rw [observe_resetThen hclk₁ htx₁ hrx₁ l fun _ => rfl, observe_resetThen hclk₂ htx₂ hrx₂ l hc]

theorem reset_erases_sent : ∃ tr w,
    timed.Run ⟨0, uartInit⟩ tr w ∧ w.uart.txShiftRegister = 0x41#8 ∧
      ErasesPast [] w ⟨0, uartInit⟩ := by
  have hrun : (timed.restrict fun _ => True).Run ⟨0, uartInit⟩ _ _ := System.Run.replay _
    [.reset [], .input (.write 0x04 0x41#32), .input (.elapse 1000000)] rfl
    (fun _ _ => ⟨trivial, trivial⟩)
  have htimed := hrun.mono And.right
  exact ⟨_, _, htimed, by decide, (reset_erases_iff htimed .nil []).mpr (by decide)⟩

/-- A character that is still in a shift register comes out after the reset, or appears in RXDATA.
-/
theorem reset_leaks : ∃ tr w,
    timed.Run ⟨0, uartInit⟩ tr w ∧ ¬ ErasesPast [] w ⟨0, uartInit⟩ ∧
      observe (resetThen [] [.elapse 1000000, .read 0x08, .read 0x00]) w =
        some ([.chrWrite 0x41#8, .value 0x08 0xE0#32, .value 0x00 0x42#32], false) ∧
      observe (resetThen [] [.elapse 1000000, .read 0x08, .read 0x00]) ⟨0, uartInit⟩ =
        some ([.value 0x08 0x60#32, .value 0x00 0#32], false) := by
  have hrun : (timed.restrict fun _ => True).Run ⟨0, uartInit⟩ _ _ := System.Run.replay _
    [.reset [], .input (.write 0x04 0x41#32), .input (.receive 0x42#8)] rfl
    (fun _ _ => ⟨trivial, trivial⟩)
  have htimed := hrun.mono And.right
  refine ⟨_, _, htimed, fun h => ?_, by decide +kernel, by decide +kernel⟩
  exact absurd (not_pending_tx (timed_clkFreq htimed) fun l => (h l).2.1) (by decide)

end Reset

end QemuBoard.Uart
