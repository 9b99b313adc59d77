import QemuBoard.Nvic.Delivery

/-! How the guest sets its interrupts up, with the functions of `core_cm7.h` and the constants
of `FreeRTOSConfig.h`, and what the masks of the CPU do to them. -/

namespace QemuBoard.Nvic

open Library

variable {s t z s₀ : NvicState} {n m : Nat} {before tr : List (Event NvicState Op Empty)}

/-- `__NVIC_PRIO_BITS` of `ARMCM7.h`; the controller of the board has four. -/
abbrev nvicPrioBits : Nat := 3

abbrev configPrioBits : Nat := 4

abbrev configLibraryMaxSyscallInterruptPriority : Nat := 5

/-- The value that a critical section of the kernel writes to `BASEPRI`. -/
abbrev configMaxSyscallInterruptPriority : Nat :=
  configLibraryMaxSyscallInterruptPriority <<< (8 - configPrioBits)

/-- For a device interrupt: the byte `NVIC->IP[IRQn]`. -/
def nvicSetPriority (irqn priority : Nat) : Op :=
  .write (0x400 + irqn) 1 (priority <<< (8 - nvicPrioBits) &&& 0xff)

def nvicEnableIRQ (irqn : Nat) : Op :=
  .write (0x100 + 4 * (irqn >>> 5)) 4 (1 <<< (irqn &&& 0x1f))

def interruptInit (irqn : Nat) : List Op :=
  [nvicSetPriority irqn configMaxSyscallInterruptPriority, nvicEnableIRQ irqn]

abbrev lpuart0IRQn : Nat := 141
abbrev flexCan0IRQn : Nat := 109
abbrev flexCan1IRQn : Nat := 113

section ForVectors

variable {startvec size : Nat} {f : Nat → VecInfo → VecInfo}

theorem forVectors_succ : forVectors s startvec (size + 1) f =
    if startvec + size < (forVectors s startvec size f).numIrq then
      (forVectors s startvec size f).put (startvec + size) (f size)
    else forVectors s startvec size f := by
  rw [forVectors, List.range_succ, List.foldl_append]
  rfl

theorem forVectors_numIrq : (forVectors s startvec size f).numIrq = s.numIrq := by
  induction size with
  | zero => rfl
  | succ size ih =>
    rw [forVectors_succ]
    split
    · exact ih
    · exact ih

theorem forVectors_vectors (i : Nat) : (forVectors s startvec size f).vectors i =
    if startvec ≤ i ∧ i < startvec + size ∧ i < s.numIrq then f (i - startvec) (s.vectors i)
    else s.vectors i := by
  induction size with
  | zero => simpa [forVectors] using fun hle hlt _ => absurd hle (not_le.mpr hlt)
  | succ size ih =>
    rw [forVectors_succ, forVectors_numIrq]
    by_cases hi : i = startvec + size
    · -- the vector that the last turn reaches
      have hold : (forVectors s startvec size f).vectors i = s.vectors i := by
        rw [ih, if_neg (by omega)]
      subst hi
      split
      · rw [put_vectors_self, hold, if_pos (by omega), Nat.add_sub_cancel_left]
      · rw [hold, if_neg (by omega)]
    · have hiff : startvec ≤ i ∧ i < startvec + (size + 1) ∧ i < s.numIrq ↔
          startvec ≤ i ∧ i < startvec + size ∧ i < s.numIrq := by omega
      simp only [hiff]
      split
      · rw [put_vectors_of_ne hi, ih]
      · exact ih

end ForVectors

section Priorities

def Op.priorityByte (n : Nat) : Op → Option Nat
  | .write offset size value =>
    if 0x400 ≤ offset ∧ offset ≤ 0x5ef ∧ offset ≤ 0x400 + n ∧ 0x400 + n < offset + size then
      some (value / 2 ^ ((0x400 + n - offset) * 8) % 256)
    else none
  | _ => none

theorem sysregWrite_priority {offset size value : Nat} (hlow : 0x400 ≤ offset)
    (hhigh : offset ≤ 0x5ef) : nvicSysregWrite s offset size value =
      some (nvicIrqUpdate (writePriority s (offset - 0x400 + firstIrq) size value)) := by
  rw [nvicSysregWrite, if_neg (by omega), if_neg (by omega), if_neg (by omega), if_neg (by omega),
    if_neg (by omega), if_pos ⟨hlow, hhigh⟩]

def assigned (n : Nat) (s : NvicState) (op : Op) : Option Int :=
  (op.priorityByte n).map fun byte => (prioMask s byte : Int)

theorem prio_write {offset size value : Nat} (hn : n + firstIrq < s.numIrq)
    (hlow : 0x400 ≤ offset) (hhigh : offset ≤ 0x5ef)
    (h : nvicSysregWrite s offset size value = some t) : (t.vectors (n + firstIrq)).prio =
      (assigned n s (.write offset size value)).getD (s.vectors (n + firstIrq)).prio := by
  rw [sysregWrite_priority hlow hhigh] at h
  obtain rfl := Option.some.inj h
  change ((forVectors s _ size _).vectors (n + firstIrq)).prio = _
  rw [forVectors_vectors, assigned, Op.priorityByte]
  have hiff : offset - 0x400 + firstIrq ≤ n + firstIrq ∧
      n + firstIrq < offset - 0x400 + firstIrq + size ∧ n + firstIrq < s.numIrq ↔
      0x400 ≤ offset ∧ offset ≤ 0x5ef ∧ offset ≤ 0x400 + n ∧ 0x400 + n < offset + size := by omega
  simp only [hiff]
  split
  case isTrue hcond =>
    have hindex : n + firstIrq - (offset - 0x400 + firstIrq) = 0x400 + n - offset := by omega
    rw [hindex]
    rfl
  case isFalse => rfl

theorem resetVectors_prio (n : Nat) : (resetVectors (n + firstIrq)).prio = 0 := by
  have hext : ∀ i < firstIrq, n + firstIrq ≠ i := fun i hi => (hi.trans_le (Nat.le_add_left ..)).ne'
  rw [resetVectors, if_neg (hext _ (by decide)), if_neg (hext _ (by decide)),
    if_neg (hext _ (by decide))]
  split <;> rfl

theorem prio_step (hn : n + firstIrq < s.numIrq) {op : Op} {out : List Empty}
    (hstep : controller.step s op out t) : (t.vectors (n + firstIrq)).prio =
      if op = .reset then 0 else (assigned n s op).getD (s.vectors (n + firstIrq)).prio := by
  have hother (hreset : op ≠ .reset) (hne : ∀ offset size value, op = .write offset size value →
      ¬(0x400 ≤ offset ∧ offset ≤ 0x5ef)) :
      (t.vectors (n + firstIrq)).prio = (s.vectors (n + firstIrq)).prio := by
    refine field_step (fun _ _ _ _ => rfl) (Nat.le_add_left ..) hstep hreset
      (fun _ _ _ _ _ => rfl) ?_
    exact fun offset size value heq hlow hhigh => absurd ⟨hlow, hhigh⟩ (hne offset size value heq)
  cases op with
  | write offset size value =>
    rw [if_neg Op.noConfusion]
    by_cases hprio : 0x400 ≤ offset ∧ offset ≤ 0x5ef
    · exact prio_write hn hprio.1 hprio.2 hstep.2.1
    · have hnone : assigned n s (.write offset size value) = none := by
        rw [assigned, Op.priorityByte, if_neg fun h => hprio ⟨h.1, h.2.1⟩]
        rfl
      rw [hnone]
      apply hother Op.noConfusion
      rintro _ _ _ ⟨⟩
      exact hprio
  | reset =>
    obtain rfl := Option.some.inj hstep.2.1
    exact resetVectors_prio n
  | setIrqLevel | nmi | systick | interrupt | raise | loadFail | lazyfp | take | ret | basepri
  | primask | faultmask =>
    exact hother Op.noConfusion fun _ _ _ => Op.noConfusion

def LeftToDriver (n : Nat) (tr : List (Event NvicState Op Empty)) : Prop :=
  ∀ e ∈ tr, (e.op.priorityByte n).isSome = true →
    e.op = nvicSetPriority n configMaxSyscallInterruptPriority

instance (n : Nat) (tr : List (Event NvicState Op Empty)) : Decidable (LeftToDriver n tr) :=
  inferInstanceAs (Decidable (∀ e ∈ tr, _))

/-- The shift by the five bits above `__NVIC_PRIO_BITS` leaves nothing of a priority that is
shifted already. -/
theorem assigned_driver :
    assigned n s (nvicSetPriority n configMaxSyscallInterruptPriority) = some 0 ∨
      assigned n s (nvicSetPriority n configMaxSyscallInterruptPriority) = none := by
  rw [assigned, nvicSetPriority, Op.priorityByte]
  split
  · left
    have hbyte : configMaxSyscallInterruptPriority <<< (8 - nvicPrioBits) &&& 0xff = 0 := by decide
    simp [hbyte, prioMask]
  · exact .inr rfl

theorem driver_prio (hn : n + firstIrq < z.numIrq) (hrun : controller.Run (armv7mNvicReset z) tr s)
    (hdriver : LeftToDriver n tr) : (s.vectors (n + firstIrq)).prio = 0 := by
  induction hrun with
  | nil => exact resetVectors_prio n
  | @snoc tr t op out u hrun hstep ih =>
    rw [LeftToDriver, List.forall_mem_append, List.forall_mem_singleton] at hdriver
    have hnum : n + firstIrq < t.numIrq := (numIrq_run hrun).symm ▸ hn
    rw [prio_step hnum hstep, ih hdriver.1]
    split
    · rfl
    · cases hbyte : op.priorityByte n with
      | none => rw [assigned, hbyte]; rfl
      | some byte =>
        have hop : op = _ := hdriver.2 (by rw [hbyte]; rfl)
        rw [hop]
        rcases assigned_driver (n := n) (s := t) with h | h <;> rw [h] <;> rfl

end Priorities

section Masking

def boardController : NvicState := { twoLines with numIrq := 241 + firstIrq }

/-- The handlers of the drivers do not interrupt each other. -/
theorem drivers_exclusive (hreach : controller.Run (armv7mNvicReset z) before s₀)
    (hidle : Nested s₀ []) (hrun : controller.Run s₀ tr s) (hcalm : ∀ e ∈ tr, e.op.Calm)
    (hunwind : Unwinds tr) (hn : n + firstIrq < z.numIrq) (hm : m + firstIrq < z.numIrq)
    (hdrivern : LeftToDriver n (before ++ tr)) (hdriverm : LeftToDriver m (before ++ tr))
    (hne : n ≠ m) (hactive : (s.vectors (n + firstIrq)).active = true) :
    (s.vectors (m + firstIrq)).active = false := by
  have hvalid₀ := valid_reset z ((Nat.le_add_left ..).trans_lt hn)
  have hnested := hidle.run (hvalid₀.run hreach) hrun hcalm hunwind
  have hboth := hreach.trans hrun
  have hentered : ∀ k, k + firstIrq < z.numIrq → (s.vectors (k + firstIrq)).active = true →
      k + firstIrq ∈ handlerStack tr := by
    intro k hk hactive
    apply (hnested.active _ _).mp hactive
    rw [mem_exceptions, numIrq_run hboth]
    exact ⟨Nat.le_add_left_of_le (by decide), hk⟩
  have hsame : groupOf s (n + firstIrq) = groupOf s (m + firstIrq) := by
    rw [groupOf, groupOf, driver_prio hn hboth hdrivern, driver_prio hm hboth hdriverm]
  have hapart : (handlerStack tr).Pairwise fun i j => groupOf s i ≠ groupOf s j :=
    hnested.strict.imp fun hlt => hlt.ne
  have hsymm : Std.Symm fun i j => groupOf s i ≠ groupOf s j := ⟨fun _ _ => Ne.symm⟩
  apply Bool.eq_false_of_not_eq_true
  intro hactivem
  exact hapart.forall (hentered n hn hactive) (hentered m hm hactivem)
    (fun heq => hne (Nat.add_right_cancel heq)) hsame

def driversReady : List (Event NvicState Op Empty) × NvicState :=
  (play (armv7mNvicReset boardController)
    (interruptInit lpuart0IRQn ++ interruptInit flexCan0IRQn)).get (by decide +kernel)

theorem drivers_exclusive_board : ∃ tr s, controller.Run driversReady.2 tr s ∧
    (s.vectors (flexCan0IRQn + firstIrq)).active = true ∧
    (s.vectors (lpuart0IRQn + firstIrq)).active = false := by
  have hreach : controller.Run (armv7mNvicReset boardController) driversReady.1 driversReady.2 :=
    run_get _ (interruptInit lpuart0IRQn ++ interruptInit flexCan0IRQn) (by decide +kernel)
  have hidle : Nested driversReady.2 [] :=
    ⟨by decide +kernel, by decide +kernel, by decide +kernel, by decide +kernel⟩
  have hrun := run_get driversReady.2 [.setIrqLevel lpuart0IRQn true,
    .setIrqLevel flexCan0IRQn true, .interrupt, .take] (by decide +kernel)
  exact ⟨_, _, hrun, by decide +kernel, drivers_exclusive hreach hidle hrun (by decide +kernel)
    (by decide +kernel) (n := flexCan0IRQn) (by decide) (by decide) (by decide +kernel)
    (by decide +kernel) (by decide) (by decide +kernel)⟩

end Masking

end QemuBoard.Nvic
