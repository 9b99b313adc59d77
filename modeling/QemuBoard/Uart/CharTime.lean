import Mathlib.Algebra.Order.Field.Basic
import Mathlib.Algebra.Order.Field.Rat
import Mathlib.Tactic.Ring
import QemuBoard.Uart.DeviceLaws

namespace QemuBoard.Uart

open Library UartState

section Quotient

variable {f d d' : Nat}

theorem mul_div_le_div_div (a : Nat) (h : 0 < f / d) : a * d / f ≤ a / (f / d) := by
  rw [Nat.le_div_iff_mul_le h]
  have hf : 0 < f := Nat.lt_of_lt_of_le h (Nat.div_le_self f d)
  have hmul : a * d / f * (f / d) * d ≤ a * d := by
    calc a * d / f * (f / d) * d
      _ = a * d / f * (f / d * d) := Nat.mul_assoc _ _ _
      _ ≤ a * d / f * f := Nat.mul_le_mul_left _ (Nat.div_mul_le_self f d)
      _ ≤ a * d := Nat.div_mul_le_self _ _
  have hd : 0 < d := by
    apply Nat.pos_of_ne_zero
    rintro rfl
    simp at h
  exact Nat.le_of_mul_le_mul_right hmul hd

theorem lt_two_mul_div (h : 0 < f / d) (hd : 0 < d) : f < 2 * (f / d) * d := by
  have hsucc : f < (f / d + 1) * d := by
    rw [Nat.mul_comm]
    exact Nat.lt_mul_div_succ f hd
  apply Nat.lt_of_lt_of_le hsucc
  apply Nat.mul_le_mul_right
  omega

theorem div_div_mul_lt {a : Nat} (ha : 0 < a) (h : 0 < f / d) (hd : 0 < d) :
    a / (f / d) * f < 2 * a * d := by
  rcases Nat.eq_zero_or_pos (a / (f / d)) with hz | hpos
  · rw [hz, Nat.zero_mul]
    exact Nat.mul_pos (Nat.mul_pos (by decide) ha) hd
  · calc a / (f / d) * f
      _ < a / (f / d) * (2 * (f / d) * d) := Nat.mul_lt_mul_of_pos_left (lt_two_mul_div h hd) hpos
      _ = 2 * (a / (f / d) * (f / d)) * d := by ring
      _ ≤ 2 * a * d := by
        apply Nat.mul_le_mul_right
        apply Nat.mul_le_mul_left
        exact Nat.div_mul_le_self a (f / d)

theorem div_div_mono (a : Nat) (hd : 0 < d) (hdd : d ≤ d') (h : 0 < f / d') :
    a / (f / d) ≤ a / (f / d') := by
  apply Nat.div_le_div_left _ h
  exact Nat.div_le_div_left hdd hd

end Quotient

def charTime (clkFreq divisor : Nat) : Nat :=
  nanosecondsPerSecond / (clkFreq / (divisor + 1)) * 11

section CharTime

variable {f d d' : Nat}

theorem le_charTime (h : d + 1 ≤ f) :
    11 * (nanosecondsPerSecond * (d + 1) / f) ≤ charTime f d := by
  rw [charTime, Nat.mul_comm]
  apply Nat.mul_le_mul_right
  exact mul_div_le_div_div _ (Nat.div_pos h (Nat.succ_pos d))

theorem charTime_mul_lt (h : d + 1 ≤ f) :
    charTime f d * f < 22 * nanosecondsPerSecond * (d + 1) := by
  have hlt := div_div_mul_lt (a := nanosecondsPerSecond) (by decide)
    (Nat.div_pos h (Nat.succ_pos d)) (Nat.succ_pos d)
  calc charTime f d * f
    _ = 11 * (nanosecondsPerSecond / (f / (d + 1)) * f) := by rw [charTime]; ring
    _ < 11 * (2 * nanosecondsPerSecond * (d + 1)) := Nat.mul_lt_mul_of_pos_left hlt (by decide)
    _ = 22 * nanosecondsPerSecond * (d + 1) := by ring

theorem charTime_pos (hf : f ≤ nanosecondsPerSecond) (h : d + 1 ≤ f) : 0 < charTime f d := by
  have hbaud : f / (d + 1) ≤ nanosecondsPerSecond := Nat.le_trans (Nat.div_le_self _ _) hf
  apply Nat.mul_pos _ (by decide)
  exact Nat.div_pos hbaud (Nat.div_pos h (Nat.succ_pos d))

theorem charTime_le (f d : Nat) : charTime f d ≤ 11 * nanosecondsPerSecond := by
  rw [charTime, Nat.mul_comm]
  apply Nat.mul_le_mul_left
  exact Nat.div_le_self _ _

theorem charTime_mono (hdd : d ≤ d') (h : d' + 1 ≤ f) : charTime f d ≤ charTime f d' := by
  apply Nat.mul_le_mul_right
  exact div_div_mono _ (Nat.succ_pos d) (Nat.succ_le_succ hdd) (Nat.div_pos h (Nat.succ_pos d'))

end CharTime

theorem updateParams_charTime (s : UartState) (hf : s.clkFreq ≤ nanosecondsPerSecond)
    (hd : s.divisor.toNat + 1 ≤ s.clkFreq) :
    ∃ t out, updateParams s = some ((), t, out) ∧
      t.charTxTime = charTime s.clkFreq s.divisor.toNat := by
  have hlt : s.divisor.toNat + 1 < 2 ^ 32 := by
    unfold nanosecondsPerSecond at hf
    omega
  have hsucc : (s.divisor + 1#32).toNat = s.divisor.toNat + 1 := by
    rw [BitVec.toNat_add]
    exact Nat.mod_eq_of_lt hlt
  have hok : ParamsOk s.clkFreq s.divisor := by
    rw [ParamsOk, hsucc]
    exact ⟨Nat.succ_ne_zero _, (Nat.div_pos hd (Nat.succ_pos _)).ne'⟩
  refine ⟨s.params, paramsLog s.clkFreq s.divisor, ?_, ?_⟩
  · rw [updateParams_run, if_pos hok]
  · rw [params_charTxTime, hsucc, charTime]

/-- Never shorter than eleven whole bit times, always under twice the exact frame time, and
longer for a larger divisor. -/
theorem charTxTime_faithful (s : UartState) (hf : s.clkFreq ≤ 10 ^ 9)
    (hd : s.divisor.toNat + 1 ≤ s.clkFreq) :
    ∃ t out, updateParams s = some ((), t, out) ∧
      11 * (10 ^ 9 * (s.divisor.toNat + 1) / s.clkFreq) ≤ t.charTxTime ∧
      (t.charTxTime : ℚ) < 22 * 10 ^ 9 * (s.divisor.toNat + 1) / s.clkFreq ∧
      0 < t.charTxTime ∧ t.charTxTime ≤ 11 * 10 ^ 9 ∧
      ∀ s' : UartState, s'.clkFreq = s.clkFreq → s.divisor.toNat ≤ s'.divisor.toNat →
        s'.divisor.toNat + 1 ≤ s.clkFreq →
        ∃ t' out', updateParams s' = some ((), t', out') ∧ t.charTxTime ≤ t'.charTxTime := by
  obtain ⟨t, out, hrun, ht⟩ := updateParams_charTime s hf hd
  refine ⟨t, out, hrun, ?_⟩
  rw [ht]
  refine ⟨le_charTime hd, ?_, charTime_pos hf hd, charTime_le _ _, ?_⟩
  · have hpos : 0 < s.clkFreq := Nat.lt_of_lt_of_le (Nat.succ_pos _) hd
    rw [lt_div_iff₀ (by exact_mod_cast hpos)]
    have hlt := charTime_mul_lt hd
    unfold nanosecondsPerSecond at hlt
    exact_mod_cast hlt
  · intro s' hclk hle hd'
    obtain ⟨t', out', hrun', ht'⟩ := updateParams_charTime s' (hclk ▸ hf) (hclk ▸ hd')
    refine ⟨t', out', hrun', ?_⟩
    rw [ht', hclk]
    exact charTime_mono hle hd'

theorem charTxTime_faithful_reset :
    ∃ t out, updateParams { uartInit with divisor := 1#32 } = some ((), t, out) ∧
      (t.charTxTime : ℚ) < 22 * 10 ^ 9 * ((1#32 : Word).toNat + 1) / (115200 : Nat) ∧
      0 < t.charTxTime := by
  obtain ⟨t, out, hrun, -, hlt, hpos, -⟩ :=
    charTxTime_faithful { uartInit with divisor := 1#32 } (by decide) (by decide)
  exact ⟨t, out, hrun, hlt, hpos⟩

end QemuBoard.Uart
