import QemuBoard.Uart.Transmitter

namespace QemuBoard.Uart

open Library UartState

section Waiting

/-- Whether someone waits for the transmitter, from TMT and TRDY: nobody does when both
registers are free, and somebody does as long as the shift register is busy. -/
structure Waiting (waits : Bool → Bool → Bool) : Prop where
  busy : ∀ trdy, waits false trdy = true
  free : waits true true = false

def Tx.Attended (waits : Bool → Bool → Bool) (v : Tx) : Prop :=
  waits v.tmt v.trdy = true → v.pending = true

variable {waits : Bool → Bool → Bool} {v : Tx}

theorem Tx.Attended.write (hw : Waiting waits) (h : v.Attended waits) (b : Byte) :
    (v.write b).Attended waits := by
  unfold Tx.Attended Tx.write
  cases htmt : v.tmt with
  | true => simp
  | false =>
    have hp : v.pending = true := h (htmt ▸ hw.busy v.trdy)
    cases v.trdy <;> simp [hp]

theorem Tx.attended_expire (hw : Waiting waits) (v : Tx) : v.expire.Attended waits := by
  unfold Tx.Attended Tx.expire
  cases v.trdy <;> simp [hw.free]

theorem Tx.attended_reset (hw : Waiting waits) (v : Tx) : v.reset.Attended waits := by
  simp [Tx.Attended, Tx.reset, hw.free]

theorem Tx.Attended.act (hw : Waiting waits) (h : v.Attended waits) (a : Option TxAct) :
    (v.act a).Attended waits := by
  cases a with
  | none => exact h
  | some a =>
    cases a with
    | write b => exact h.write hw b
    | expire => exact v.attended_expire hw

end Waiting

def Op.Attends (waits : Bool → Bool → Bool) (s : UartState) (op : Op) : Prop :=
  ∀ now addr val, op = .write now addr val → Reg.ofAddr addr = some .status →
    waits (has val Status.tmt) (has val Status.trdy) = false ∨ s.timers.pending .tx = true

theorem Op.Steady.attends {op : Op} (h : op.Steady) (waits : Bool → Bool → Bool) (s : UartState) :
    op.Attends waits s := by
  rintro now addr val rfl hreg
  exact absurd hreg h

theorem attends_reset (waits : Bool → Bool → Bool) (s : UartState) (now : Nat) (input : List Byte) :
    (Op.reset now input).Attends waits s := by
  intro _ _ _ h
  cases h

theorem next_attended {waits : Bool → Bool → Bool} (hw : Waiting waits) {s : UartState} {op : Op}
    (h : s.tx.Attended waits) : (op.next s).tx.Attended waits ↔ op.Attends waits s := by
  by_cases hsteady : op.Steady
  · rw [next_tx hsteady]
    exact iff_of_true (h.act hw _) (hsteady.attends waits s)
  · cases op with
    | write now addr val =>
      have hreg : Reg.ofAddr addr = some .status := Decidable.not_not.mp hsteady
      have hattends : (Op.write now addr val).Attends waits s ↔
          waits (has val Status.tmt) (has val Status.trdy) = false ∨
            s.timers.pending .tx = true := by
        simp [Op.Attends, hreg]
      rw [hattends, ← Bool.not_eq_true, ← imp_iff_not_or]
      simp [Op.next, Tx.Attended, hreg]
    | reset now input =>
      rw [reset_tx]
      exact iff_of_true (s.tx.attended_reset hw) (attends_reset waits s now input)
    | read addr | receive now buf | timeoutRx | timeoutTx now => exact absurd trivial hsteady

theorem run_attended {waits : Bool → Bool → Bool} (hw : Waiting waits) {s t : UartState}
    {tr : Trace} (h : device.Run s tr t) (h₀ : s.tx.Attended waits) :
    ((∀ e ∈ tr, e.pre.tx.Attended waits) ∧ t.tx.Attended waits) ↔
      ∀ e ∈ tr, e.op.Attends waits e.pre := by
  apply h.always_iff (I := fun u => u.tx.Attended waits) h₀
  intro s op out t hstep hs
  obtain ⟨-, -, rfl, -⟩ := step_iff.mp hstep
  exact next_attended hw hs

def BusyAttended (s : UartState) : Prop :=
  has s.status Status.tmt = false → s.timers.pending .tx = true

def ReadyAttended (s : UartState) : Prop :=
  has s.status Status.tmt = false ∨ has s.status Status.trdy = false → s.timers.pending .tx = true

theorem busyAttended_iff {s : UartState} :
    BusyAttended s ↔ s.tx.Attended fun tmt _ => !tmt := by
  simp [BusyAttended, Tx.Attended]

theorem readyAttended_iff {s : UartState} :
    ReadyAttended s ↔ s.tx.Attended fun tmt trdy => !tmt || !trdy := by
  simp [ReadyAttended, Tx.Attended]

theorem expiries_end {s : UartState} (h : s.timers.pending .tx = true) (n₁ n₂ : Nat) :
    ∃ out t, device.step s (.timeoutTx n₁) out t ∧ has t.status Status.trdy = true ∧
      (has t.status Status.tmt = true ∨
        ∃ out u, device.step t (.timeoutTx n₂) out u ∧ has u.status Status.tmt = true) := by
  refine ⟨_, _, step_iff.mpr ⟨h, not_false, rfl, rfl⟩, ?_⟩
  cases htrdy : has s.status Status.trdy with
  | true => simp [Op.next, htrdy]
  | false =>
    refine ⟨by simp [Op.next, htrdy], .inr ⟨_, _, step_iff.mpr ⟨?_, not_false, rfl, rfl⟩, ?_⟩⟩
    · simp [Op.Guard, Op.next, htrdy]
    · simp [Op.next, htrdy]

/-- A run from a reset never leaves the transmitter busy, or not ready, without a pending expiry
exactly when no STATUS write claims so while `tx_timer` is idle. -/
theorem transmitter_attended_iff {s s₀ t : UartState} {now : Nat} {input : List Byte}
    {out : List Effect} {tr : Trace} (hreset : uartReset now input s = some ((), s₀, out))
    (hrun : device.Run s₀ tr t) :
    (((∀ e ∈ tr, ReadyAttended e.pre) ∧ ReadyAttended t) ↔
      ∀ e ∈ tr, ∀ now addr val, e.op = .write now addr val → Reg.ofAddr addr = some .status →
        has val Status.tmt = true ∧ has val Status.trdy = true ∨ e.pre.timers.pending .tx = true) ∧
    (((∀ e ∈ tr, BusyAttended e.pre) ∧ BusyAttended t) ↔
      ∀ e ∈ tr, ∀ now addr val, e.op = .write now addr val → Reg.ofAddr addr = some .status →
        has val Status.tmt = true ∨ e.pre.timers.pending .tx = true) ∧
    (ReadyAttended t → has t.status Status.tmt = false ∨ has t.status Status.trdy = false →
      ∀ n₁ n₂, ∃ out u, device.step t (.timeoutTx n₁) out u ∧ has u.status Status.trdy = true ∧
        (has u.status Status.tmt = true ∨
          ∃ out v, device.step u (.timeoutTx n₂) out v ∧ has v.status Status.tmt = true)) := by
  obtain ⟨rfl, -⟩ := uartReset_eq_some hreset
  have h₀ : ∀ {waits}, Waiting waits → (Op.next s (.reset now input)).tx.Attended waits := by
    intro waits hw
    rw [reset_tx]
    exact s.tx.attended_reset hw
  have hready : Waiting fun tmt trdy => !tmt || !trdy := ⟨by simp, rfl⟩
  have hbusy : Waiting fun tmt _ => !tmt := ⟨by simp, rfl⟩
  refine ⟨?_, ?_, fun h hwait => expiries_end (h hwait)⟩
  · simpa [readyAttended_iff, Op.Attends] using run_attended hready hrun (h₀ hready)
  · simpa [busyAttended_iff, Op.Attends] using run_attended hbusy hrun (h₀ hbusy)

structure Tx.Wedged (v : Tx) : Prop where
  busy : v.tmt = false
  full : v.trdy = false
  idle : v.pending = false

theorem Tx.Wedged.write {v : Tx} (h : v.Wedged) (b : Byte) : (v.write b).Wedged := by
  have hwrite : v.write b = { v with toe := true, hold := b } := by
    simp [Tx.write, h.busy, h.full]
  rw [hwrite]
  exact ⟨h.busy, h.full, h.idle⟩

theorem run_wedged {s t : UartState} {tr : Trace} (h : (device.restrict Op.Steady).Run s tr t)
    (hs : s.tx.Wedged) : t.tx.Wedged ∧ sent tr = [] := by
  induction h with
  | nil => exact ⟨hs, rfl⟩
  | @snoc tr t op out u _ hstep ih =>
    obtain ⟨hsteady, hdev⟩ := hstep
    obtain ⟨hguard, -, rfl, rfl⟩ := step_iff.mp hdev
    obtain ⟨hw, hsent⟩ := ih
    rw [next_tx hsteady, sent_snoc, hsent]
    cases hact : op.txAct? with
    | none => exact ⟨hw, rfl⟩
    | some a =>
      cases a with
      | write b => exact ⟨hw.write b, rfl⟩
      | expire =>
        have hidle : t.timers.pending .tx = false := hw.idle
        exact absurd (pending_of_expire hguard hact) (by simp [hidle])

/-- STATUS written with 0 after a reset: busy and not ready, with nothing to wait for. No byte
written then is ever put out. -/
theorem status_write_wedges : ∃ s₀ out tr t,
    uartReset 0 [] uartInit = some ((), s₀, out) ∧
    (device.restrict Op.ValidDivisor).Run s₀ tr t ∧
    has t.status Status.tmt = false ∧ has t.status Status.trdy = false ∧
    t.timers.pending .tx = false ∧
    ∀ tr' u, (device.restrict Op.Steady).Run t tr' u →
      has u.status Status.trdy = false ∧ sent tr' = [] := by
  have hrun : (device.restrict Op.ValidDivisor).Run _ _ _ :=
    .replay (Op.next uartInit (.reset 0 [])) [.write 1 0x08 0#32] rfl (by decide)
  refine ⟨_, _, _, _, rfl, hrun, by decide, by decide, by decide, fun tr' u h => ?_⟩
  obtain ⟨hw, hsent⟩ := run_wedged h ⟨by decide, by decide, by decide⟩
  exact ⟨hw.full, hsent⟩

theorem transmitter_attended_example : ∃ s₀ out tr t,
    uartReset 0 [] uartInit = some ((), s₀, out) ∧ device.Run s₀ tr t ∧
    has t.status Status.tmt = false ∧ ReadyAttended t := by
  have hrun : (device.restrict Op.ValidDivisor).Run _ _ _ :=
    .replay (Op.next uartInit (.reset 0 []))
      [.write 1 0x08 (Status.trdy ||| Status.tmt), .write 2 0x04 0x61#32] rfl (by decide)
  have h := transmitter_attended_iff (s := uartInit) (rfl : uartReset 0 [] uartInit = _)
    (hrun.mono And.right)
  refine ⟨_, _, _, _, rfl, hrun.mono And.right, by decide, (h.1.mpr ?_).2⟩
  simp only [List.mem_cons, List.not_mem_nil, or_false]
  rintro e (rfl | rfl) now addr val hop hreg
  · obtain ⟨-, -, rfl⟩ := Op.write.inj hop
    exact .inl (by decide)
  · obtain ⟨-, rfl, -⟩ := Op.write.inj hop
    exact absurd hreg (by decide)

theorem paramsOk_iff {val : Word} : ParamsOk clkFreq val ↔ val.toNat < clkFreq := by
  refine ⟨fun ⟨hne, hbaud⟩ => ?_, paramsOk_of_lt⟩
  have hval : (val + 1#32).toNat = (val.toNat + 1) % 2 ^ 32 := BitVec.toNat_add val 1#32
  have hle : (val + 1#32).toNat ≤ clkFreq := by
    by_contra hlt
    exact hbaud (Nat.div_eq_of_lt (Nat.lt_of_not_le hlt))
  -- 32 bits wrap only at the value whose successor is zero
  have hsucc : (val.toNat + 1) % 2 ^ 32 = val.toNat + 1 := by
    have := val.isLt
    omega
  omega

theorem charTxTime_pos (s : UartState) (hclk : s.clkFreq = Uart.clkFreq)
    (h : ParamsOk s.clkFreq s.divisor) : 0 < s.params.charTxTime := by
  have hle : s.clkFreq / (s.divisor + 1#32).toNat ≤ nanosecondsPerSecond :=
    calc s.clkFreq / (s.divisor + 1#32).toNat ≤ s.clkFreq := Nat.div_le_self _ _
      _ = Uart.clkFreq := hclk
      _ ≤ nanosecondsPerSecond := by decide
  exact Nat.mul_pos (Nat.div_pos hle (Nat.pos_of_ne_zero h.2)) (by decide)

/-- A DIVISOR write in a reachable state divides by zero nowhere, and leaves a positive character
time, exactly when its value is below the clock frequency. -/
theorem divisor_write_iff {s s₀ t : UartState} {now : Nat} {input : List Byte} {out : List Effect}
    {tr : Trace} (hclk : s.clkFreq = Uart.clkFreq)
    (hreset : uartReset now input s = some ((), s₀, out)) (hrun : device.Run s₀ tr t) (n : Nat)
    (val : Word) :
    ((val + 1#32).toNat ≠ 0 ∧ t.clkFreq / (val + 1#32).toNat ≠ 0 ∧
      ∃ out u, uartWrite n 0x10 val t = some ((), u, out) ∧ 0 < u.charTxTime ∧
        n < n + u.charTxTime) ↔ val.toNat < Uart.clkFreq := by
  obtain ⟨rfl, -⟩ := uartReset_eq_some hreset
  have ht : t.clkFreq = Uart.clkFreq := by rw [run_clkFreq hrun, next_clkFreq, hclk]
  have hwrite := exec_write t n 0x10 val
  rw [← paramsOk_iff, ← ht]
  constructor
  · rintro ⟨hne, hbaud, -⟩
    exact ⟨hne, hbaud⟩
  · intro hok
    have htraps : ¬ (Op.write n 0x10 val).Traps t := fun h => h.2 hok
    have hpos := charTxTime_pos { t with divisor := val } ht hok
    rw [if_neg htraps] at hwrite
    exact ⟨hok.1, hok.2, _, _, hwrite, hpos, Nat.lt_add_of_pos_right hpos⟩

/-- After a reset, 0xFFFFFFFF makes the first divisor zero and 115200 the second; the emulator
does not survive either write. -/
theorem divisor_write_traps : ∃ s₀ out,
    uartReset 0 [] uartInit = some ((), s₀, out) ∧
    (0xFFFFFFFF#32 + 1#32).toNat = 0 ∧ uartWrite 1 0x10 0xFFFFFFFF#32 s₀ = none ∧
    s₀.clkFreq / (115200#32 + 1#32).toNat = 0 ∧ uartWrite 1 0x10 115200#32 s₀ = none :=
  ⟨_, _, rfl, by decide, by decide, by decide, by decide⟩

theorem divisor_write_init : ∃ s₀ out,
    uartReset 0 [] uartInit = some ((), s₀, out) ∧
    ∃ out u, uartWrite 1 0x10 1000#32 s₀ = some ((), u, out) ∧ 0 < u.charTxTime := by
  have h := (divisor_write_iff (s := uartInit) rfl (rfl : uartReset 0 [] uartInit = _) .nil 1
    1000#32).mpr (by decide)
  obtain ⟨-, -, out, u, hwrite, hpos, -⟩ := h
  exact ⟨_, _, rfl, out, u, hwrite, hpos⟩

end QemuBoard.Uart
