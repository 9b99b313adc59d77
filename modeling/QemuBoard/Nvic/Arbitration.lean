import QemuBoard.Library.Arbiter
import QemuBoard.Nvic.Device
import Mathlib.Tactic.Positivity

namespace QemuBoard.Nvic

open Library

variable {s t : NvicState} {irq i : Nat} {f : VecInfo → VecInfo}

@[simp] theorem put_vectors_self : (s.put irq f).vectors irq = f (s.vectors irq) :=
  Function.update_self ..

theorem put_vectors_of_ne (h : i ≠ irq) : (s.put irq f).vectors i = s.vectors i :=
  Function.update_of_ne h ..

theorem put_put (g : VecInfo → VecInfo) :
    (s.put irq f).put irq g = s.put irq fun vec => g (f vec) := by
  simp [NvicState.put]

@[simp] theorem update_vectors : (nvicIrqUpdate s).vectors = s.vectors := rfl

@[simp] theorem update_numIrq : (nvicIrqUpdate s).numIrq = s.numIrq := rfl

section Priority

variable {a b : Int}

theorem gprio_mono (h : a ≤ b) : s.gprio a ≤ s.gprio b := by
  have hpow : (0 : Int) < 2 ^ (s.prigroup + 1) := by positivity
  exact Int.mul_le_mul_of_nonneg_right (Int.ediv_le_ediv hpow h) hpow.le

theorem gprio_nonneg (h : 0 ≤ a) : 0 ≤ s.gprio a := by
  have hpow : (0 : Int) ≤ 2 ^ (s.prigroup + 1) := by positivity
  exact Int.mul_nonneg (Int.ediv_nonneg h hpow) hpow

theorem excGroupPrio_mono (h : a ≤ b) : excGroupPrio s a ≤ excGroupPrio s b := by
  rw [excGroupPrio, excGroupPrio]
  split_ifs with ha hb hb
  · exact h
  · exact ha.le.trans (gprio_nonneg (not_lt.mp hb))
  · exact absurd (h.trans_lt hb) ha
  · exact gprio_mono h

theorem excGroupPrio_noexc (h : s.prigroup ≤ 7) : excGroupPrio s noexcPrio = noexcPrio := by
  have hall : ∀ g ≤ 7, (0x100 : Int) / 2 ^ (g + 1) * 2 ^ (g + 1) = 0x100 := by decide
  exact hall s.prigroup h

theorem masked_eq : (if a > 0 then s.gprio a else a) = excGroupPrio s a := by
  rw [excGroupPrio]
  split_ifs with hpos hneg hneg
  · exact absurd (hpos.trans hneg) (lt_irrefl 0)
  · rfl
  · rfl
  · have hzero : a = 0 := le_antisymm (not_lt.mp hpos) (not_lt.mp hneg)
    simp [hzero, NvicState.gprio]

end Priority

abbrev Ready (vectors : Nat → VecInfo) (i : Nat) : Prop :=
  (vectors i).enabled = true ∧ (vectors i).pending = true

abbrev Active (vectors : Nat → VecInfo) (i : Nat) : Prop := (vectors i).active = true

abbrev prioOf (vectors : Nat → VecInfo) (i : Nat) : Int := (vectors i).prio

theorem foldl_visit (vectors : Nat → VecInfo) (l : List Nat) (c : Scan) (n : Nat) :
    l.foldl (Scan.visit vectors) c =
      ⟨(l.foldl (least (Ready vectors) (prioOf vectors)) (c.pendPrio, c.pendIrq)).1,
        (l.foldl (least (Active vectors) (prioOf vectors)) (c.activePrio, n)).1,
        (l.foldl (least (Ready vectors) (prioOf vectors)) (c.pendPrio, c.pendIrq)).2⟩ := by
  induction l generalizing c n with
  | nil => rfl
  | cons i l ih =>
    rw [List.foldl_cons, List.foldl_cons, List.foldl_cons, ih _ (least (Active vectors)
      (prioOf vectors) (c.activePrio, n) i).2]
    simp only [Scan.visit, least, Ready, Active, prioOf, and_assoc]
    split_ifs <;> rfl

abbrev exceptions (s : NvicState) : List Nat := List.range' 1 (s.numIrq - 1)

theorem mem_exceptions : i ∈ exceptions s ↔ 1 ≤ i ∧ i < s.numIrq := by
  rw [List.mem_range'_1]
  omega

theorem scan_pending (s : NvicState) :
    Least (Ready s.vectors) (prioOf s.vectors) (noexcPrio, 0) (exceptions s)
      ((scan s).pendPrio, (scan s).pendIrq) := by
  rw [scan, foldl_visit _ _ _ 0]
  exact least_foldl (noexcPrio, 0) List.pairwise_lt_range'

theorem scan_active (s : NvicState) : ∃ n,
    Least (Active s.vectors) (prioOf s.vectors) (noexcPrio, 0) (exceptions s)
      ((scan s).activePrio, n) := by
  rw [scan, foldl_visit _ _ _ 0]
  exact ⟨_, least_foldl (noexcPrio, 0) List.pairwise_lt_range'⟩

abbrev lazyFaults : List Nat := [Excp.hard, Excp.mem, Excp.bus, Excp.usage]

/-- The cached results are those of the state as it is. The line may be low for a fault of lazy
stacking, which the CPU takes without being told by its line. -/
structure Settled (s : NvicState) : Prop where
  vectpending : s.vectpending = (scan s).pendIrq
  vectpendingPrio : s.vectpendingPrio = excGroupPrio s (scan s).pendPrio
  exceptionPrio : s.exceptionPrio = excGroupPrio s (scan s).activePrio
  excpout : s.excpout = decide (s.vectpendingPrio < s.exceptionPrio) ∨
    s.excpout = false ∧ s.vectpending ∈ lazyFaults

theorem settled_update (s : NvicState) : Settled (nvicIrqUpdate s) where
  vectpending := rfl
  vectpendingPrio := masked_eq
  exceptionPrio := masked_eq
  excpout := .inl rfl

theorem scan_level (level : Bool) :
    scan (s.put irq fun vec => { vec with level := level }) = scan s := by
  have hvisit : ∀ c i, Scan.visit (s.put irq fun vec => { vec with level := level }).vectors c i =
      Scan.visit s.vectors c i := by
    intro c i
    by_cases h : i = irq
    · simp [Scan.visit, h]
    · rw [Scan.visit, put_vectors_of_ne h]
      rfl
  rw [scan, scan]
  congr 1
  funext c i
  exact hvisit c i

theorem Settled.level (h : Settled s) (level : Bool) :
    Settled (s.put irq fun vec => { vec with level := level }) where
  vectpending := h.vectpending.trans (by rw [scan_level])
  vectpendingPrio := h.vectpendingPrio.trans (by rw [scan_level]; rfl)
  exceptionPrio := h.exceptionPrio.trans (by rw [scan_level]; rfl)
  excpout := h.excpout

theorem scan_activePrio (hnum : t.numIrq = s.numIrq)
    (h : ∀ i, (t.vectors i).active = (s.vectors i).active ∧
      (t.vectors i).prio = (s.vectors i).prio) :
    (scan t).activePrio = (scan s).activePrio := by
  have hleast : least (Active t.vectors) (prioOf t.vectors) =
      least (Active s.vectors) (prioOf s.vectors) := by
    funext best i
    simp only [least, Active, prioOf, h i]
  rw [scan, scan, foldl_visit _ _ _ 0, foldl_visit _ _ _ 0, hnum, hleast]

structure Pends (s t : NvicState) : Prop where
  vectors : ∀ i, (t.vectors i).active = (s.vectors i).active ∧
    (t.vectors i).prio = (s.vectors i).prio ∧ (t.vectors i).enabled = (s.vectors i).enabled
  pending : ∀ i, (s.vectors i).pending = true → (t.vectors i).pending = true
  numIrq : t.numIrq = s.numIrq
  prigroup : t.prigroup = s.prigroup
  basepri : t.basepri = s.basepri
  primask : t.primask = s.primask
  faultmask : t.faultmask = s.faultmask
  entering : t.entering = s.entering
  exception : t.exception = s.exception

namespace Pends

theorem refl : Pends s s :=
  ⟨fun _ => ⟨rfl, rfl, rfl⟩, fun _ => id, rfl, rfl, rfl, rfl, rfl, rfl, rfl⟩

theorem trans {u : NvicState} (h : Pends s t) (h' : Pends t u) : Pends s u where
  vectors i := by
    obtain ⟨hactive, hprio, henabled⟩ := h.vectors i
    obtain ⟨hactive', hprio', henabled'⟩ := h'.vectors i
    exact ⟨hactive'.trans hactive, hprio'.trans hprio, henabled'.trans henabled⟩
  pending i := h'.pending i ∘ h.pending i
  numIrq := h'.numIrq.trans h.numIrq
  prigroup := h'.prigroup.trans h.prigroup
  basepri := h'.basepri.trans h.basepri
  primask := h'.primask.trans h.primask
  faultmask := h'.faultmask.trans h.faultmask
  entering := h'.entering.trans h.entering
  exception := h'.exception.trans h.exception

theorem put (irq : Nat) (hf : ∀ v : VecInfo, (f v).active = v.active ∧ (f v).prio = v.prio ∧
      (f v).enabled = v.enabled ∧ (v.pending = true → (f v).pending = true)) :
    Pends s (s.put irq f) := by
  refine ⟨fun i => ?_, fun i => ?_, rfl, rfl, rfl, rfl, rfl, rfl, rfl⟩
  · by_cases hi : i = irq
    · rw [hi, put_vectors_self]
      exact ⟨(hf _).1, (hf _).2.1, (hf _).2.2.1⟩
    · rw [put_vectors_of_ne hi]
      exact ⟨rfl, rfl, rfl⟩
  · by_cases hi : i = irq
    · rw [hi, put_vectors_self]
      exact (hf _).2.2.2
    · rw [put_vectors_of_ne hi]
      exact id

theorem pend (irq : Nat) : Pends s (pend s irq) := by
  rw [Nvic.pend]
  split
  · exact refl
  · have h := put (s := s) (f := fun vec => { vec with pending := true }) irq
      fun _ => ⟨rfl, rfl, rfl, fun _ => rfl⟩
    exact ⟨h.vectors, h.pending, rfl, rfl, rfl, rfl, rfl, rfl, rfl⟩

theorem group (h : Pends s t) (a : Int) : excGroupPrio t a = excGroupPrio s a := by
  rw [excGroupPrio, excGroupPrio, NvicState.gprio, NvicState.gprio, h.prigroup]

theorem exceptionPrio (h : Pends s t) (hs : Settled s) (ht : Settled t) :
    t.exceptionPrio = s.exceptionPrio := by
  rw [ht.exceptionPrio, hs.exceptionPrio, h.group,
    scan_activePrio h.numIrq fun i => ⟨(h.vectors i).1, (h.vectors i).2.1⟩]

theorem execPrio (h : Pends s t) (hs : Settled s) (ht : Settled t) :
    nvicExecPrio t = nvicExecPrio s := by
  rw [nvicExecPrio, nvicExecPrio, h.basepri, h.primask, h.faultmask, h.group,
    h.exceptionPrio hs ht]

theorem pendPrio (h : Pends s t) : (scan t).pendPrio ≤ (scan s).pendPrio := by
  have hprio : prioOf t.vectors = prioOf s.vectors := funext fun i => (h.vectors i).2.1
  have hexc : exceptions t = exceptions s := by rw [exceptions, exceptions, h.numIrq]
  have ht := scan_pending t
  rw [hprio, hexc] at ht
  refine (scan_pending s).mono ht fun i hi => ⟨?_, h.pending i hi.2⟩
  rw [(h.vectors i).2.2]
  exact hi.1

theorem canTake (h : Pends s t) (hs : Settled s) (ht : Settled t)
    (htake : armv7mNvicCanTakePendingException s = true) :
    armv7mNvicCanTakePendingException t = true := by
  apply decide_eq_true
  have hlt : s.vectpendingPrio < nvicExecPrio s := of_decide_eq_true htake
  rw [hs.vectpendingPrio] at hlt
  rw [ht.vectpendingPrio, h.execPrio hs ht, h.group]
  exact (excGroupPrio_mono h.pendPrio).trans_lt hlt

end Pends

theorem Settled.canTake (h : Settled s) (hi : i ∈ exceptions s) (hready : Ready s.vectors i)
    (hlt : excGroupPrio s (s.vectors i).prio < nvicExecPrio s) :
    armv7mNvicCanTakePendingException s = true := by
  apply decide_eq_true
  rw [h.vectpendingPrio]
  exact (excGroupPrio_mono ((scan_pending s).le i hi hready)).trans_lt hlt

theorem Settled.recompute (h : Settled s) (hpends : Pends s t) (hout : t.excpout = s.excpout)
    (hirq : irq ∈ lazyFaults) (hnew : ∀ i, Ready t.vectors i → Ready s.vectors i ∨ i = irq) :
    Settled (nvicRecomputeState t) := by
  refine ⟨rfl, masked_eq, masked_eq, ?_⟩
  have hactive : (nvicRecomputeState t).exceptionPrio = s.exceptionPrio := by
    rw [h.exceptionPrio, ← hpends.group, ← scan_activePrio hpends.numIrq fun i =>
      ⟨(hpends.vectors i).1, (hpends.vectors i).2.1⟩]
    exact masked_eq
  have hpend : (nvicRecomputeState t).vectpendingPrio = excGroupPrio s (scan t).pendPrio :=
    masked_eq.trans (hpends.group _)
  have hlow : (nvicRecomputeState t).vectpendingPrio ≤ s.vectpendingPrio := by
    rw [hpend, h.vectpendingPrio]
    exact excGroupPrio_mono hpends.pendPrio
  change t.excpout = _ ∨ t.excpout = false ∧ (scan t).pendIrq ∈ lazyFaults
  rw [hout, hactive]
  have hprio : prioOf t.vectors = prioOf s.vectors := funext fun i => (hpends.vectors i).2.1
  have hexc : exceptions t = exceptions s := by rw [exceptions, exceptions, hpends.numIrq]
  have hleast := scan_pending t
  rw [hprio, hexc] at hleast
  have hready : ∀ i, Ready s.vectors i → Ready t.vectors i := fun i hi =>
    ⟨(hpends.vectors i).2.2.trans hi.1, hpends.pending i hi.2⟩
  rcases (scan_pending s).insert hleast hready hnew with hsame | hfound
  · obtain ⟨hkey, hfirst⟩ := Prod.ext_iff.mp hsame
    have hkey : (scan t).pendPrio = (scan s).pendPrio := hkey
    have hfirst : (scan t).pendIrq = (scan s).pendIrq := hfirst
    rw [hpend, hkey, ← h.vectpendingPrio, hfirst, ← h.vectpending]
    exact h.excpout
  · have hfound : (scan t).pendIrq = irq := hfound
    rw [hfound]
    rcases h.excpout with hline | hline
    · by_cases hlt : s.vectpendingPrio < s.exceptionPrio
      · left
        rw [hline, decide_eq_true hlt, decide_eq_true (hlow.trans_lt hlt)]
      · exact .inr ⟨hline.trans (decide_eq_false hlt), hirq⟩
    · exact .inr ⟨hline.1, hirq⟩

theorem Settled.lazyfp (h : Settled s) (hirq : irq ∈ lazyFaults) : Settled (pendLazyfp s irq) := by
  rw [pendLazyfp]
  split
  case isTrue => exact h
  case isFalse =>
    refine h.recompute (.put irq fun _ => ⟨rfl, rfl, rfl, fun _ => rfl⟩) rfl hirq fun i hready => ?_
    by_cases hi : i = irq
    · exact .inr hi
    · left
      rwa [Ready, put_vectors_of_ne hi] at hready

theorem Settled.exceptionPrio_le (h : Settled s) (hi : i ∈ exceptions s)
    (hactive : (s.vectors i).active = true) :
    s.exceptionPrio ≤ excGroupPrio s (s.vectors i).prio := by
  obtain ⟨n, hleast⟩ := scan_active s
  rw [h.exceptionPrio]
  exact excGroupPrio_mono (hleast.le i hi hactive)

theorem Settled.exceptionPrio_le_noexc (h : Settled s) (hgroup : s.prigroup ≤ 7) :
    s.exceptionPrio ≤ noexcPrio := by
  obtain ⟨n, hleast⟩ := scan_active s
  rw [h.exceptionPrio, ← excGroupPrio_noexc hgroup]
  exact excGroupPrio_mono hleast.le_start

theorem execPrio_le_exceptionPrio : nvicExecPrio s ≤ s.exceptionPrio := min_le_right ..

/-- The exception `irq` is the one to be taken next: of those that are enabled and pending it
has the lowest priority value, and of these the lowest number. -/
structure Next (s : NvicState) (irq : Nat) : Prop where
  exists_ : irq ∈ exceptions s
  ready : Ready s.vectors irq
  le : ∀ i ∈ exceptions s, Ready s.vectors i → (s.vectors irq).prio ≤ (s.vectors i).prio
  first : ∀ i ∈ exceptions s, Ready s.vectors i → (s.vectors i).prio = (s.vectors irq).prio →
    irq ≤ i

theorem Settled.next (h : Settled s) (hgroup : s.prigroup ≤ 7)
    (htake : armv7mNvicCanTakePendingException s = true) :
    Next s s.vectpending ∧ s.vectpendingPrio = excGroupPrio s (s.vectors s.vectpending).prio := by
  obtain ⟨hstart, hle, hfound, hfirst⟩ := scan_pending s
  have htake : s.vectpendingPrio < nvicExecPrio s := of_decide_eq_true htake
  rw [← h.vectpending] at hfound hfirst
  rcases hfound with heq | ⟨hmem, hready, hkey, hlt⟩
  · -- without a candidate the priority is that of no exception
    have hnone : (scan s).pendPrio = noexcPrio := congrArg Prod.fst heq
    rw [h.vectpendingPrio, hnone, excGroupPrio_noexc hgroup] at htake
    have hle := execPrio_le_exceptionPrio.trans (h.exceptionPrio_le_noexc hgroup)
    exact absurd htake (not_lt.mpr hle)
  · have hkey : (s.vectors s.vectpending).prio = (scan s).pendPrio := hkey
    refine ⟨⟨hmem, hready, fun i hi hi' => ?_, fun i hi hi' heq => ?_⟩, ?_⟩
    · rw [hkey]
      exact hle i hi hi'
    · exact hfirst hlt i hi hi' (heq.trans hkey)
    · rw [hkey, h.vectpendingPrio]

end QemuBoard.Nvic
