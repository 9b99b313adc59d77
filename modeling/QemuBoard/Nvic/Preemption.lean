import QemuBoard.Nvic.Entry

namespace QemuBoard.Nvic

open Library

variable {s t z s₀ : NvicState} {i irq : Nat} {before tr : List (Event NvicState Op Empty)}

abbrev groupOf (s : NvicState) (i : Nat) : Int := excGroupPrio s (s.vectors i).prio

section ExecPrio

theorem execPrio_le_basepri (h : s.basepri > 0) : nvicExecPrio s ≤ excGroupPrio s s.basepri := by
  have hnonneg : 0 ≤ excGroupPrio s s.basepri := by
    rw [excGroupPrio, if_neg (not_lt.mpr (Int.natCast_nonneg _))]
    exact gprio_nonneg (Int.natCast_nonneg _)
  apply (min_le_left ..).trans
  rw [if_pos h]
  split_ifs
  · exact le_trans (by decide) hnonneg
  · exact hnonneg
  · exact le_rfl

theorem execPrio_le_primask (h : s.primask = true) : nvicExecPrio s ≤ 0 := by
  apply (min_le_left ..).trans
  simp only [h, if_true]
  split_ifs <;> decide

theorem execPrio_le_faultmask (h : s.faultmask = true) : nvicExecPrio s ≤ -1 := by
  apply (min_le_left ..).trans
  simp only [h, if_true]
  exact le_rfl

end ExecPrio

structure Preempts (s : NvicState) (irq : Nat) : Prop where
  active : ∀ i ∈ exceptions s, (s.vectors i).active = true → groupOf s irq < groupOf s i
  basepri : s.basepri > 0 → groupOf s irq < excGroupPrio s s.basepri
  primask : s.primask = true → groupOf s irq < 0
  faultmask : s.faultmask = true → groupOf s irq < -1

theorem Valid.preempts (h : Valid s) (hlt : groupOf s irq < nvicExecPrio s) : Preempts s irq where
  active _ hi hactive :=
    hlt.trans_le (execPrio_le_exceptionPrio.trans (h.settled.exceptionPrio_le hi hactive))
  basepri hpos := hlt.trans_le (execPrio_le_basepri hpos)
  primask hmask := hlt.trans_le (execPrio_le_primask hmask)
  faultmask hmask := hlt.trans_le (execPrio_le_faultmask hmask)

theorem excGroupPrio_le (s : NvicState) (a : Int) : excGroupPrio s a ≤ a := by
  rw [excGroupPrio]
  split
  · exact le_rfl
  · exact Int.ediv_mul_le a (by positivity)

theorem Preempts.lt_exceptionPrio (hpre : Preempts s irq) (h : Valid s) :
    groupOf s irq < s.exceptionPrio := by
  obtain ⟨n, hleast⟩ := scan_active s
  rw [h.settled.exceptionPrio]
  rcases hleast.found with heq | ⟨hmem, hactive, hkey, -⟩
  · have hnone : (scan s).activePrio = noexcPrio := congrArg Prod.fst heq
    rw [hnone, excGroupPrio_noexc h.prigroup]
    exact (excGroupPrio_le s _).trans_lt (Int.lt_of_le_sub_one (h.good irq).prio_le)
  · have hkey : (s.vectors n).prio = (scan s).activePrio := hkey
    rw [← hkey]
    exact hpre.active n hmem hactive

theorem Valid.lt_execPrio_iff (h : Valid s) : groupOf s irq < nvicExecPrio s ↔ Preempts s irq := by
  refine ⟨h.preempts, fun hpre => lt_min ?_ (hpre.lt_exceptionPrio h)⟩
  split_ifs with hfault hprimask hbasepri
  · exact hpre.faultmask hfault
  · exact hpre.primask hprimask
  · exact hpre.basepri hbasepri
  · exact (excGroupPrio_le s _).trans_lt (Int.lt_of_le_sub_one (h.good irq).prio_le)

theorem Valid.taken (h : Valid s) (htake : armv7mNvicCanTakePendingException s = true) :
    Next s s.vectpending ∧ groupOf s s.vectpending < nvicExecPrio s := by
  obtain ⟨hnext, hprio⟩ := h.settled.next h.prigroup htake
  exact ⟨hnext, hprio.symm.trans_lt (of_decide_eq_true htake)⟩

theorem Valid.canTake_iff (h : Valid s) : armv7mNvicCanTakePendingException s = true ↔
    ∃ i ∈ exceptions s, Ready s.vectors i ∧ Preempts s i := by
  constructor
  · intro htake
    obtain ⟨hnext, hlt⟩ := h.taken htake
    exact ⟨_, hnext.exists_, hnext.ready, h.preempts hlt⟩
  · intro ⟨i, hi, hready, hpre⟩
    exact h.settled.canTake hi hready (h.lt_execPrio_iff.mpr hpre)

def twoLines : NvicState where
  numIrq := 18
  numPrioBits := 4
  vectors := resetVectors
  prigroup := 0
  vectpending := 0
  vectpendingPrio := noexcPrio
  exceptionPrio := noexcPrio
  excpout := false
  basepri := 0
  primask := false
  faultmask := false
  exception := 0
  hfsr := 0
  entering := false

/-- From a reset on, whatever the lines, the guest and the CPU do in any order, the emulator
gives up exactly on a fault of a CPU that could not take a HardFault any more and on the return
from an exception number that the controller does not have. In particular the assertions of
`armv7m_nvic_acknowledge_irq` hold for every exception that is taken. -/
theorem assertions_hold (hrun : controller.Run (armv7mNvicReset z) tr s)
    (hnum : firstIrq < z.numIrq) {op : Op} (hguard : op.Guard s) :
    op.exec s = none ↔ op.GivesUp s := by
  have hvalid := (valid_reset z hnum).run hrun
  rcases hvalid.step hguard with ⟨hup, hnone⟩ | ⟨hno, t, ht, -⟩
  · exact ⟨fun _ => hup, fun _ => hnone⟩
  · rw [ht]
    exact ⟨fun hnone => absurd hnone (Option.some_ne_none t), fun hup => absurd hup hno⟩

def foreignReturn : Exit := ⟨1, false, .popped 300 none⟩

/-- The return from exception 300 fails the assertion of `armv7m_nvic_complete_irq`. -/
theorem assertions_hold_foreign : ∃ tr s, controller.Run (armv7mNvicReset twoLines) tr s ∧
    s.exception = 300 ∧ (Op.ret foreignReturn).Guard s ∧ (Op.ret foreignReturn).exec s = none := by
  have hrun := run_get (armv7mNvicReset twoLines)
    [.write 0x100 4 1, .setIrqLevel 0 true, .interrupt,
    .take, .setIrqLevel 0 false, .ret foreignReturn] (by decide +kernel)
  refine ⟨_, _, hrun, by decide +kernel, by decide +kernel, ?_⟩
  exact (assertions_hold hrun (by decide) (by decide +kernel)).mpr
    ⟨by decide +kernel, .inl (by decide +kernel)⟩

section Nesting

def Op.Calm : Op → Prop
  | .write offset size _ => ¬(0x400 ≤ offset ∧ offset ≤ 0x5ef) ∧
    ¬(0xd18 ≤ offset ∧ offset ≤ 0xd23) ∧
      (size = 4 → offset ≠ 0xd0c ∧ offset ≠ 0xd24)
  | .reset => False
  | _ => True

instance : DecidablePred Op.Calm
  | .write offset size _ => inferInstanceAs (Decidable (¬(0x400 ≤ offset ∧ offset ≤ 0x5ef) ∧
      ¬(0xd18 ≤ offset ∧ offset ≤ 0xd23) ∧ (size = 4 → offset ≠ 0xd0c ∧ offset ≠ 0xd24)))
  | .reset => inferInstanceAs (Decidable False)
  | .setIrqLevel .. | .nmi _ | .systick _ | .interrupt | .raise .. | .loadFail | .lazyfp .. | .take
  | .ret _ | .basepri _ | .primask _ | .faultmask _ => inferInstanceAs (Decidable True)

def nest (stack : List Nat) (e : Event NvicState Op Empty) : List Nat :=
  match e.op with
  | .take => e.pre.vectpending :: stack
  | .ret _ => stack.tail
  | _ => stack

def handlerStack (tr : List (Event NvicState Op Empty)) : List Nat := tr.foldl nest []

/-- The active exceptions are those on the stack, each more urgent than the ones below it, and
the CPU handles the topmost, unless it is between two handlers. -/
structure Nested (s : NvicState) (stack : List Nat) : Prop where
  active : ∀ i ∈ exceptions s, (s.vectors i).active = true ↔ i ∈ stack
  exists_ : ∀ i ∈ stack, i ∈ exceptions s
  strict : stack.Pairwise fun i j => groupOf s i < groupOf s j
  exception : s.entering = false → s.exception = stack.headD 0

abbrev Steady (_ : Nat) (v v' : VecInfo) : Prop := v'.active = v.active ∧ v'.prio = v.prio

theorem elementary_steady : Elementary Steady where
  refl _ _ := ⟨rfl, rfl⟩
  trans h h' := ⟨h'.1.trans h.1, h'.2.trans h.2⟩
  pend _ _ := ⟨rfl, rfl⟩
  unpend _ _ _ := ⟨rfl, rfl⟩
  enable _ _ _ := ⟨rfl, rfl⟩

variable {stack : List Nat}

theorem excGroupPrio_congr (h : t.prigroup = s.prigroup) (a : Int) :
    excGroupPrio t a = excGroupPrio s a := by
  rw [excGroupPrio, excGroupPrio, NvicState.gprio, NvicState.gprio, h]

theorem Nested.steady (h : Nested s stack) (hfoot : Footprint Steady s t) : Nested t stack := by
  have hexc : exceptions t = exceptions s := by rw [exceptions, exceptions, hfoot.numIrq]
  have hgroup : ∀ i, groupOf t i = groupOf s i := by
    intro i
    rw [groupOf, (hfoot.vectors i).2, excGroupPrio_congr hfoot.prigroup]
  refine ⟨?_, ?_, ?_, fun hout => hfoot.exception.trans (h.exception (hfoot.entering ▸ hout))⟩
  · intro i hi
    rw [(hfoot.vectors i).1]
    exact h.active i (hexc ▸ hi)
  · rw [hexc]
    exact h.exists_
  · simp only [hgroup]
    exact h.strict

theorem Nested.enter (h : Nested s stack) : Nested (enter s) stack :=
  ⟨h.active, h.exists_, h.strict, fun hout => Bool.noConfusion hout⟩

theorem groupOf_acknowledged (i : Nat) : groupOf (acknowledged s) i = groupOf s i := by
  change excGroupPrio s (Function.update s.vectors s.vectpending _ i).prio = _
  rw [Function.update_apply]
  split
  case isTrue hi => rw [hi]
  case isFalse => rfl

theorem Nested.take (h : Nested s stack) (hvalid : Valid s)
    (htake : armv7mNvicCanTakePendingException s = true) :
    Nested { acknowledged s with entering := false } (s.vectpending :: stack) := by
  obtain ⟨hnext, hlt⟩ := hvalid.taken htake
  have hpre := hvalid.preempts hlt
  refine ⟨?_, List.forall_mem_cons.mpr ⟨hnext.exists_, h.exists_⟩, ?_, fun _ => rfl⟩
  · intro i hi
    change (Function.update s.vectors s.vectpending _ i).active = true ↔ _
    rw [Function.update_apply, List.mem_cons]
    split
    case isTrue heq => simp [heq]
    case isFalse hne => simpa [hne] using h.active i hi
  · have hgroup : ∀ i, groupOf { acknowledged s with entering := false } i = groupOf s i :=
      groupOf_acknowledged
    simp only [hgroup]
    refine List.pairwise_cons.mpr ⟨fun j hj => ?_, h.strict⟩
    exact hpre.active j (h.exists_ j hj) ((h.active j (h.exists_ j hj)).mpr hj)

def Op.Restores (stack : List Nat) : Op → Prop
  | .ret ⟨_, _, .popped ipsr _⟩ => ipsr % 2 ^ 9 = stack.tail.headD 0
  | _ => True

instance (stack : List Nat) : (op : Op) → Decidable (op.Restores stack)
  | .ret ⟨_, _, .popped ipsr _⟩ => inferInstanceAs (Decidable (ipsr % 2 ^ 9 = stack.tail.headD 0))
  | .ret ⟨_, _, .fault _⟩ | .setIrqLevel .. | .nmi _ | .systick _ | .write .. | .interrupt
  | .raise .. | .loadFail | .lazyfp .. | .take | .basepri _ | .primask _ | .faultmask _ | .reset =>
    inferInstanceAs (Decidable True)

theorem Op.Restores.popped {x : Exit} {ipsr : Nat} {fp : Option Nat} (h : (Op.ret x).Restores stack)
    (hframe : x.frame = .popped ipsr fp) : ipsr % 2 ^ 9 = stack.tail.headD 0 := by
  obtain ⟨excret, nonbasethrdena, frame⟩ := x
  obtain rfl : frame = .popped ipsr fp := hframe
  exact h

theorem Nested.ret (h : Nested s stack) (hout : s.entering = false) {x : Exit}
    (hrestores : (Op.ret x).Restores stack) (ht : doV7mExceptionExit s x = some t) :
    Nested t stack.tail := by
  have hexception := h.exception hout
  obtain ⟨hnum, hgroup, hvectors⟩ := exceptionExit_eq elementary_steady ht
  have hexc : exceptions t = exceptions s := by rw [exceptions, exceptions, hnum]
  have hsame : ∀ i, groupOf t i = groupOf s i := by
    intro i
    rw [groupOf, (hvectors i).2, excGroupPrio_congr hgroup, completed]
    split <;> rfl
  cases stack with
  | nil =>
    -- in thread mode nothing is returned from
    have hthread : s.exception = 0 := hexception
    rw [doV7mExceptionExit, if_pos hthread] at ht
    obtain rfl := Option.some.inj ht
    exact h
  | cons top rest =>
    obtain ⟨htop, hrest⟩ := List.pairwise_cons.mp h.strict
    have hin : ∀ i ∈ rest, i ∈ exceptions s := fun i hi => h.exists_ i (List.mem_cons_of_mem top hi)
    have htopmost : s.exception = top := hexception
    have hne : top ≠ 0 :=
      Nat.pos_iff_ne_zero.mp (mem_exceptions.mp (h.exists_ top List.mem_cons_self)).1
    refine ⟨?_, ?_, ?_, fun hback => ?_⟩
    · intro i hi
      have hact := h.active i (hexc ▸ hi)
      rw [(hvectors i).1, completed, htopmost]
      split
      case isTrue heq =>
        -- strictly more urgent than what lies below, it is not on the stack twice
        have hnot : i ∉ rest := fun hmem => absurd (heq.1 ▸ htop i hmem) (lt_irrefl _)
        simp [hnot]
      case isFalse hother =>
        have hother : i ≠ top := fun heq => hother ⟨heq, hne⟩
        simpa [hother] using hact
    · rw [hexc]
      exact hin
    · simp only [hsame]
      exact hrest
    · obtain ⟨ipsr, fp, hframe, hipsr⟩ := exceptionExit_back ht (htopmost ▸ hne) hback
      exact hipsr.trans (hrestores.popped hframe)

def Unwinds (tr : List (Event NvicState Op Empty)) : Prop :=
  ∀ k (h : k < tr.length), tr[k].op.Restores (handlerStack (tr.take k))

instance (tr : List (Event NvicState Op Empty)) : Decidable (Unwinds tr) :=
  inferInstanceAs
    (Decidable (∀ k (h : k < tr.length), tr[k].op.Restores (handlerStack (tr.take k))))

theorem Unwinds.snoc {e : Event NvicState Op Empty} (h : Unwinds (tr ++ [e])) :
    Unwinds tr ∧ e.op.Restores (handlerStack tr) := by
  constructor
  · intro k hk
    have hrestores := h k (by simpa using hk.trans (Nat.lt_succ_self _))
    rwa [List.take_append_of_le_length hk.le, List.getElem_append_left hk] at hrestores
  · simpa using h tr.length (by simp)

theorem Op.Calm.permits {offset size value : Nat} (h : (Op.write offset size value).Calm) :
    Footprint.Permits Steady offset size value where
  clear _ _ _ _ _ _ := ⟨rfl, rfl⟩
  prio hlow hhigh := absurd ⟨hlow, hhigh⟩ h.1
  system hlow hhigh := absurd ⟨hlow, hhigh⟩ h.2.1
  handlers hsize hoffset := absurd hoffset (h.2.2 hsize).2
  group hsize := (h.2.2 hsize).1

theorem Op.Calm.footprint {op : Op} (h : op.Calm) (htake : op ≠ .take) (hret : ∀ x, op ≠ .ret x)
    (hexec : op.exec s = some t) : ∃ u, Footprint Steady s u ∧ (t = u ∨ t = enter u) := by
  refine Footprint.exec elementary_steady ⟨htake, hret, ?_⟩ (fun _ _ _ _ => ⟨rfl, rfl⟩) ?_ hexec
  · rintro rfl
    exact h
  · rintro offset size value rfl
    exact h.permits

theorem Nested.step (h : Nested s stack) (hvalid : Valid s) {op : Op} {out : List Empty}
    (hcalm : op.Calm) (hstep : controller.step s op out t)
    (hret : op.Restores stack) : Nested t (nest stack ⟨s, op, out⟩) := by
  obtain ⟨hguard, hexec, -⟩ := hstep
  cases op with
  | take =>
    obtain ⟨htake, rfl⟩ := exceptionTaken_eq hexec
    exact h.take hvalid htake
  | ret x => exact h.ret hguard.1 hret hexec
  | setIrqLevel | nmi | systick | write | interrupt | raise | loadFail | lazyfp | basepri | primask
  | faultmask | reset =>
    obtain ⟨u, hfoot, rfl | rfl⟩ := hcalm.footprint Op.noConfusion (fun _ => Op.noConfusion) hexec
    · exact h.steady hfoot
    · exact (h.steady hfoot).enter

theorem Nested.run (h : Nested s₀ []) (hvalid : Valid s₀) (hrun : controller.Run s₀ tr s)
    (hcalm : ∀ e ∈ tr, e.op.Calm) (hunwind : Unwinds tr) : Nested s (handlerStack tr) := by
  suffices h : Valid s ∧ Nested s (handlerStack tr) from h.2
  induction hrun with
  | nil => exact ⟨hvalid, h⟩
  | snoc _ hstep ih =>
    rw [List.forall_mem_append, List.forall_mem_singleton] at hcalm
    obtain ⟨hvalid, hnested⟩ := ih hcalm.1 hunwind.snoc.1
    refine ⟨hvalid.preserved hstep, ?_⟩
    rw [handlerStack, List.foldl_append]
    exact hnested.step hvalid hcalm.2 hstep hunwind.snoc.2

/-- Handlers nest. From a state in which nothing is handled the active exceptions are those
entered and not left yet, each strictly more urgent than the one it interrupted, and the CPU is
in the last one entered. -/
theorem handlers_nest (hreach : controller.Run (armv7mNvicReset z) before s₀)
    (hnum : firstIrq < z.numIrq) (hidle : Nested s₀ []) (hrun : controller.Run s₀ tr s)
    (hcalm : ∀ e ∈ tr, e.op.Calm) (hunwind : Unwinds tr) : Nested s (handlerStack tr) :=
  hidle.run ((valid_reset z hnum).run hreach) hrun hcalm hunwind

def urgentSecond : List (Event NvicState Op Empty) × NvicState :=
  (play (armv7mNvicReset twoLines) [.write 0x100 4 3, .write 0x400 1 0x80]).get (by decide +kernel)

theorem handlers_nest_twoLines : ∃ tr s, controller.Run urgentSecond.2 tr s ∧
    handlerStack tr = [16] ∧ Nested s (handlerStack tr) := by
  have hreach := run_get (armv7mNvicReset twoLines) [.write 0x100 4 3, .write 0x400 1 0x80]
    (by decide +kernel)
  have hidle : Nested urgentSecond.2 [] :=
    ⟨by decide +kernel, by decide +kernel, by decide +kernel, by decide +kernel⟩
  have hrun := run_get urgentSecond.2 [.setIrqLevel 0 true, .interrupt, .take, .setIrqLevel 1 true,
    .interrupt, .take, .setIrqLevel 1 false, .ret ⟨1, false, .popped 16 none⟩] (by decide +kernel)
  exact ⟨_, _, hrun, by decide +kernel,
    handlers_nest hreach (by decide) hidle hrun (by decide +kernel) (by decide +kernel)⟩

end Nesting

end QemuBoard.Nvic
