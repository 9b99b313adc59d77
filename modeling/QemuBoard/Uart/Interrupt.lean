import QemuBoard.Uart.DeviceLaws

namespace QemuBoard.Uart

open Library UartState

def Level (s : UartState) : Prop := s.irq = has s.control s.status

def HelpersLevel (l : List Effect) : Prop :=
  ∀ control status irq, .helper control status irq ∈ l → irq = has control status

theorem has_mono {x y : Word} (m b : Word) (h : y = x ∨ y = x ||| b) :
    has m x = true → has m y = true := by
  rcases h with rfl | rfl
  · exact id
  · rw [has_comm m (x ||| b), has_or, has_comm m x, Bool.or_eq_true]
    exact .inl

theorem withE_cases (x : Word) : withE x = x ∨ withE x = x ||| Status.e := by
  unfold withE
  split <;> simp

theorem Level.setBit {s : UartState} (h : Level s) (b : Word) : Level (s.setBit b) := by
  have hmono : has s.control s.status = true → has s.control (withE (s.status ||| b)) = true :=
    fun hs => has_mono _ _ (withE_cases _) (has_mono s.control b (.inr rfl) hs)
  unfold Level at *
  rw [setBit_irq, setBit_control, setBit_status, h]
  cases hs : has s.control s.status with
  | false => simp
  | true => simp [hmono hs]

theorem Level.clearBit {s : UartState} (h : Level s) (b : Word) : Level (s.clearBit b) := by
  have hmono : has s.control (s.status &&& ~~~b) = true → has s.control s.status = true := by
    rw [has_iff, has_iff, ← BitVec.and_assoc]
    intro hne h0
    simp [h0] at hne
  unfold Level at *
  rw [clearBit_irq, clearBit_control, clearBit_status, h]
  cases hs : has s.control (s.status &&& ~~~b) with
  | false => simp
  | true => simp [hmono hs]

theorem Level.recheck (s : UartState) : Level s.recheck := rfl

theorem Level.loadShift {s : UartState} (h : Level s) (now : Nat) : Level (s.loadShift now) :=
  (h.clearBit Status.tmt).setBit Status.trdy

theorem HelpersLevel.append {l l' : List Effect} (h : HelpersLevel l) (h' : HelpersLevel l') :
    HelpersLevel (l ++ l') := fun c st i hm =>
  (List.mem_append.mp hm).elim (h c st i) (h' c st i)

theorem Level.helpers {t : UartState} (h : Level t) {l : List Effect}
    (hl : ∀ c st i, .helper c st i ∈ l → Effect.helper c st i = .helper t.control t.status t.irq) :
    HelpersLevel l := by
  intro c st i hm
  obtain ⟨rfl, rfl, rfl⟩ := Effect.helper.inj (hl c st i hm)
  exact h

theorem Level.setLog {s : UartState} (h : Level s) (b : Word) : HelpersLevel (s.setLog b) := by
  apply (h.setBit b).helpers
  intro c st i hm
  unfold UartState.setLog at hm
  split at hm <;> simpa using hm

theorem Level.clearLog {s : UartState} (h : Level s) (b : Word) : HelpersLevel (s.clearLog b) := by
  apply (h.clearBit b).helpers
  intro c st i hm
  unfold UartState.clearLog at hm
  split at hm <;> simpa using hm

theorem Level.loadLog {s : UartState} (h : Level s) : HelpersLevel s.loadLog :=
  (h.clearLog Status.tmt).append ((h.clearBit Status.tmt).setLog Status.trdy)

theorem Level.next {s : UartState} (h : Level s) (op : Op) : Level (op.next s) := by
  cases op with
  | read addr =>
    simp only [Op.next]
    split
    · exact h.clearBit _
    · exact h
  | write now addr val =>
    simp only [Op.next]
    split
    · have h' : Level { s with txdata := val } := h
      split
      · exact h'.loadShift now
      · split
        · exact h'.clearBit _
        · exact h'.setBit _
    · exact .recheck _
    · exact .recheck _
    · exact h
    · exact h
    · exact h
  | receive now buf => simp only [Op.next]; split <;> exact h
  | timeoutRx =>
    have h' : Level { s.disarm .rx with
        rxdata := s.rxShiftRegister.setWidth 32, canReceive := true } := h
    simp only [Op.next]
    split <;> exact h'.setBit _
  | timeoutTx now =>
    have h' : Level (s.disarm .tx) := h
    simp only [Op.next]
    split
    · exact h'.setBit _
    · exact h'.loadShift now
  | reset now input => cases input <;> simp [Op.next, Level]

theorem Level.log {s : UartState} (h : Level s) (op : Op) : HelpersLevel (op.log s) := by
  have hnone : ∀ {l : List Effect}, (∀ c st i, .helper c st i ∉ l) → HelpersLevel l :=
    fun hl c st i hm => absurd hm (hl c st i)
  cases op with
  | read addr =>
    simp only [Op.log]
    refine .append ?_ (hnone (by simp))
    split
    · exact h.clearLog _
    · exact hnone (by simp)
  | write now addr val =>
    simp only [Op.log]
    split
    · have h' : Level { s with txdata := val } := h
      split
      · exact h'.loadLog
      · split
        · exact h'.clearLog _
        · exact h'.setLog _
    all_goals exact hnone (by simp [recheckLog, paramsLog])
  | receive now buf => simp only [Op.log]; split <;> exact hnone (by simp)
  | timeoutRx => simp only [Op.log]; split <;> exact h.setLog _
  | timeoutTx now =>
    have hch : HelpersLevel [.chrWrite s.txShiftRegister] := hnone (by simp)
    simp only [Op.log]
    split
    · exact hch.append (h.setLog _)
    · exact hch.append h.loadLog
  | reset now input =>
    simp only [Op.log]
    split <;> exact hnone (by simp [paramsLog])

theorem Level.reset (s : UartState) (now : Nat) (input : List Byte) :
    Level (Op.next s (.reset now input)) := by
  cases input <;> simp [Op.next, Level]

theorem Level.step {s t : UartState} {op : Op} {out : List Effect} (hstep : device.step s op out t)
    (h : Level s) : Level t := by
  obtain ⟨-, -, rfl, -⟩ := step_iff.mp hstep
  exact h.next op

/-- From a reset, through any order of accesses, received bytes, expirations and
further resets. -/
theorem irq_line_level {s s₀ t : UartState} {now : Nat} {input : List Byte} {out : List Effect}
    {tr : Trace} (hclk : s.clkFreq = Uart.clkFreq)
    (hreset : uartReset now input s = some ((), s₀, out))
    (hrun : (device.restrict Op.ValidDivisor).Run s₀ tr t) :
    (t.irq = true ↔ t.control &&& t.status ≠ 0#32) ∧
    (∀ e ∈ tr, ∀ control status irq, .helper control status irq ∈ e.out →
      (irq = true ↔ control &&& status ≠ 0#32)) ∧
    ∀ op : Op, op.ValidDivisor → op.Guard t → ∃ out u, device.step t op out u := by
  obtain ⟨rfl, -⟩ := uartReset_eq_some hreset
  have hrun' : device.Run _ tr t := hrun.mono And.right
  have h₀ : Level (Op.next s (.reset now input)) := .reset s now input
  refine ⟨?_, ?_, ?_⟩
  · rw [hrun'.preserves h₀ Level.step, has_iff]
  · intro e he control status irq hm
    obtain ⟨hlevel, u, hdev⟩ := hrun'.events h₀ Level.step he
    obtain ⟨-, -, -, hlog⟩ := step_iff.mp hdev
    rw [hlevel.log e.op control status irq (hlog ▸ hm), has_iff]
  · intro op hop hguard
    refine hop.step ?_ hguard
    rw [run_clkFreq hrun', next_clkFreq, hclk]

theorem irq_line_level_receive : ∃ s₀ out tr t,
    uartReset 0 [] uartInit = some ((), s₀, out) ∧
    (device.restrict Op.ValidDivisor).Run s₀ tr t ∧
    t.irq = true ∧ t.control &&& t.status ≠ 0#32 := by
  have hrun : (device.restrict Op.ValidDivisor).Run _ _ _ :=
    .replay (Op.next uartInit (.reset 0 []))
      [.write 1 0x0C 0x80#32, .receive 2 0x61#8, .timeoutRx, .read 0x00, .receive 4 0x62#8,
        .timeoutRx]
      rfl (by decide)
  have h := irq_line_level (s := uartInit) rfl (rfl : uartReset 0 [] uartInit = _) hrun
  exact ⟨_, _, _, _, rfl, hrun, h.1.mpr (by decide), by decide⟩

end QemuBoard.Uart
