import QemuBoard.Nvic.Preemption

namespace QemuBoard.Nvic

open Library

variable {s t z : NvicState} {n irq : Nat} {tr : List (Event NvicState Op Empty)}

section Lines

def Op.drives (n : Nat) : Op → Option Bool
  | .setIrqLevel m level => if m = n then some level else none
  | _ => none

def lineLevel (n : Nat) (tr : List (Event NvicState Op Empty)) : Bool :=
  (lastSince (fun e => e.op.drives n) (fun e => e.op = .reset) tr).getD false

theorem level_setIrqLevel {level : Bool} (h : setIrqLevel s n level = some t) :
    (t.vectors (n + firstIrq)).level = level := by
  rw [Nvic.setIrqLevel] at h
  split_ifs at h with hnum hne hlevel
  · have helem := elementary_field (g := VecInfo.level) (fun _ _ _ _ => rfl) (n + firstIrq)
    rw [(Footprint.setPending helem h).vectors _ rfl, put_vectors_self]
  · obtain rfl := Option.some.inj h
    rw [put_vectors_self]
  · obtain rfl := Option.some.inj h
    exact (not_not.mp hne).symm

theorem resetVectors_level (i : Nat) : (resetVectors i).level = false := by
  rw [resetVectors]
  split_ifs <;> rfl

theorem level_step {op : Op} {out : List Empty} (hstep : controller.step s op out t) :
    (t.vectors (n + firstIrq)).level =
      if op = .reset then false else (op.drives n).getD (s.vectors (n + firstIrq)).level := by
  have hother (hreset : op ≠ .reset) (hne : ∀ level, op ≠ .setIrqLevel n level) :
      (t.vectors (n + firstIrq)).level = (s.vectors (n + firstIrq)).level := by
    refine field_step (fun _ _ _ _ => rfl) (Nat.le_add_left ..) hstep hreset ?_
      fun _ _ _ _ _ _ _ _ => rfl
    rintro m level rfl hm
    exact absurd (Nat.add_right_cancel hm ▸ rfl) (hne level)
  cases op with
  | setIrqLevel m level =>
    rw [if_neg Op.noConfusion, Op.drives]
    split
    case isTrue hm => exact level_setIrqLevel (hm ▸ hstep.2.1)
    case isFalse hm =>
      refine hother Op.noConfusion fun level' heq => hm ?_
      injection heq
  | reset =>
    obtain rfl := Option.some.inj hstep.2.1
    exact resetVectors_level _
  | nmi | systick | write | interrupt | raise | loadFail | lazyfp | take | ret | basepri | primask
  | faultmask =>
    exact hother Op.noConfusion fun _ => Op.noConfusion

theorem level_run (hrun : controller.Run (armv7mNvicReset z) tr s) :
    (s.vectors (n + firstIrq)).level = lineLevel n tr := by
  induction hrun with
  | nil => exact resetVectors_level _
  | @snoc tr t op out u _ hstep ih =>
    rw [level_step hstep, ih, lineLevel, lineLevel, lastSince_snoc]
    by_cases hop : op = .reset
    · simp [hop]
    · cases hdrives : op.drives n with
      | none => simp [hop]
      | some level => simp [hop]

end Lines

theorem Valid.held (hvalid : Valid s) (hn : n + firstIrq < s.numIrq)
    (hlevel : (s.vectors (n + firstIrq)).level = true)
    (hactive : (s.vectors (n + firstIrq)).active = false) :
    (s.vectors (n + firstIrq)).pending = true ∧
      ((s.vectors (n + firstIrq)).enabled = true → Preempts s (n + firstIrq) →
        armv7mNvicCanTakePendingException s = true) := by
  have hpending := ((hvalid.good (n + firstIrq)).held hlevel).resolve_right (by simp [hactive])
  refine ⟨hpending, fun henabled hpre =>
    hvalid.canTake_iff.mpr ⟨n + firstIrq, ?_, ⟨henabled, hpending⟩, hpre⟩⟩
  rw [mem_exceptions]
  exact ⟨Nat.le_add_left_of_le (by decide), hn⟩

section Edges

def Op.Clears (irq : Nat) : Op → Prop
  | .write offset size value => 0x280 ≤ offset ∧ offset ≤ 0x2bf ∧
      ∃ k < size * 8, value.testBit k = true ∧ 8 * (offset - 0x280) + firstIrq + k = irq
  | .reset => True
  | _ => False

def Settles (irq : Nat) (e : Event NvicState Op Empty) : Prop :=
  e.op = .take ∧ e.pre.vectpending = irq ∨ e.op.Clears irq

abbrev KeepsPending (irq i : Nat) (v v' : VecInfo) : Prop :=
  i = irq → v.pending = true → v'.pending = true

theorem elementary_keepsPending (hirq : firstIrq ≤ irq) : Elementary (KeepsPending irq) where
  refl _ _ _ := id
  trans h h' hi := h' hi ∘ h hi
  pend _ _ _ _ := rfl
  unpend _ _ hlt hi := absurd hlt (not_lt.mpr (hi ▸ hirq))
  enable _ _ _ _ := id

theorem permits_keepsPending {offset size value : Nat} (hirq : firstIrq ≤ irq)
    (hclears : ¬(Op.write offset size value).Clears irq) (hgroup : size = 4 → offset ≠ 0xd0c) :
    Footprint.Permits (KeepsPending irq) offset size value where
  clear hlow hhigh k hk hbit _ hi := absurd ⟨hlow, hhigh, k, hk, hbit, hi⟩ hclears
  prio _ _ _ _ _ _ := id
  system _ _ _ _ _ _ _ := id
  handlers _ _ _ _ _ _ _ hlt hi := absurd hlt (not_lt.mpr (hi ▸ hirq))
  group := hgroup

theorem pend_pending (s : NvicState) (irq : Nat) : ((pend s irq).vectors irq).pending = true := by
  rw [pend]
  split
  case isTrue hpending => exact hpending
  case isFalse =>
    change (Function.update s.vectors irq _ irq).pending = true
    rw [Function.update_self]

theorem pending_rise (h : setIrqLevel s n true = some t)
    (hlow : (s.vectors (n + firstIrq)).level = false) :
    (t.vectors (n + firstIrq)).pending = true := by
  have hext : firstIrq ≤ n + firstIrq := Nat.le_add_left ..
  have hsync := not_synchronous ((by decide : Excp.pendsv ≤ firstIrq).trans hext)
  rw [Nvic.setIrqLevel, hlow, if_pos Bool.noConfusion, if_pos rfl] at h
  split_ifs at h with hnum
  have hpend := setPending_eq (s := s.put (n + firstIrq) fun vec => { vec with level := true })
    (reset_lt (hard_lt hext).le) hnum hsync
  obtain rfl := Option.some.inj (hpend.symm.trans h)
  exact pend_pending ..

theorem pending_step (hirq : firstIrq ≤ irq) {op : Op} {out : List Empty}
    (hstep : controller.step s op out t) (hsettles : ¬Settles irq ⟨s, op, out⟩)
    (hpending : (s.vectors irq).pending = true) : (t.vectors irq).pending = true := by
  obtain ⟨-, hexec, -⟩ := hstep
  rw [Settles, not_or] at hsettles
  have hother (hop : op ≠ .take ∧ (∀ x, op ≠ .ret x) ∧ op ≠ .reset) :
      (t.vectors irq).pending = true := by
    refine (exec_vectors (elementary_keepsPending hirq) hop (fun _ _ _ _ _ => id) ?_ hexec).2 _ rfl
      hpending
    rintro offset size value rfl hgroup
    exact permits_keepsPending hirq hsettles.2 hgroup
  cases op with
  | take =>
    obtain ⟨-, rfl⟩ := exceptionTaken_eq hexec
    have hne : irq ≠ s.vectpending := fun heq => hsettles.1 ⟨rfl, heq.symm⟩
    change (Function.update s.vectors s.vectpending _ irq).pending = true
    rwa [Function.update_of_ne hne]
  | ret x =>
    apply (exceptionExit_eq (elementary_keepsPending hirq) hexec).2.2 irq rfl
    rw [completed]
    split
    · simp [hpending]
    · exact hpending
  | reset => exact absurd trivial hsettles.2
  | setIrqLevel | nmi | systick | write | interrupt | raise | loadFail | lazyfp | basepri | primask
  | faultmask =>
    exact hother ⟨Op.noConfusion, fun _ => Op.noConfusion, Op.noConfusion⟩

theorem pending_run (hirq : firstIrq ≤ irq) (hrun : controller.Run s tr t)
    (hpending : (s.vectors irq).pending = true) :
    (t.vectors irq).pending = true ∨
      ∃ e ∈ tr, (e.pre.vectors irq).pending = true ∧ Settles irq e := by
  induction hrun with
  | nil => exact .inl hpending
  | @snoc tr t op out u _ hstep ih =>
    rcases ih with hp | ⟨e, he, hsettled⟩
    · by_cases hsettles : Settles irq ⟨t, op, out⟩
      · exact .inr ⟨_, List.mem_append_right _ (List.mem_singleton_self _), hp, hsettles⟩
      · exact .inl (pending_step hirq hstep hsettles hp)
    · exact .inr ⟨e, List.mem_append_left _ he, hsettled⟩

end Edges

/-- A rising edge of a line is not lost: whatever happens after it, the interrupt is pending
until the CPU takes it, the guest gives it up by name or the controller is reset. Masks, other
interrupts, changes of priority, disabling it and the fall of the line do not lose it. -/
theorem edge_not_lost {pre post : List (Event NvicState Op Empty)} {e : Event NvicState Op Empty}
    (hrun : controller.Run (armv7mNvicReset z) (pre ++ e :: post) s)
    (he : e.op = .setIrqLevel n true) (hlow : lineLevel n pre = false) :
    (s.vectors (n + firstIrq)).pending = true ∨
      ∃ x ∈ post, (x.pre.vectors (n + firstIrq)).pending = true ∧ Settles (n + firstIrq) x := by
  obtain ⟨hpre, -⟩ := hrun.split
  obtain ⟨u, hstep, hpost⟩ := hrun.after
  have hexec : setIrqLevel e.pre n true = some u := by
    rw [he] at hstep
    exact hstep.2.1
  exact pending_run (Nat.le_add_left ..) hpost
    (pending_rise hexec ((level_run hpre).trans hlow))

def maskedCpu : List (Event NvicState Op Empty) × NvicState :=
  (play (armv7mNvicReset twoLines) [.write 0x100 4 1, .primask true]).get (by decide +kernel)

def raisedLine : NvicState := (setIrqLevel maskedCpu.2 0 true).get (by decide +kernel)

theorem raisedLine_step : controller.step maskedCpu.2 (.setIrqLevel 0 true) [] raisedLine :=
  ⟨by decide +kernel, (Option.some_get _).symm, rfl⟩

theorem edge_not_lost_twoLines : ∃ post s, controller.Run (armv7mNvicReset twoLines)
      (maskedCpu.1 ++ ⟨maskedCpu.2, .setIrqLevel 0 true, []⟩ :: post) s ∧
    ((s.vectors (0 + firstIrq)).pending = true ∨ ∃ x ∈ post,
      (x.pre.vectors (0 + firstIrq)).pending = true ∧ Settles (0 + firstIrq) x) := by
  have hpre : controller.Run (armv7mNvicReset twoLines) maskedCpu.1 maskedCpu.2 :=
    run_get _ [.write 0x100 4 1, .primask true] (by decide +kernel)
  have hpost := run_get raisedLine [.setIrqLevel 0 false] (by decide +kernel)
  have hrun := hpre.trans (hpost.cons raisedLine_step)
  exact ⟨_, _, hrun, edge_not_lost hrun rfl (by decide +kernel)⟩

end QemuBoard.Nvic
