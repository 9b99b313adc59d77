import QemuBoard.Library.Trace
import QemuBoard.Nvic.Arbitration

namespace QemuBoard.Nvic

open Library

def Frame.Guard : Frame → Prop
  | .fault irq => synchronous irq
  | .popped _ fp => ∀ irq ∈ fp, synchronous irq

instance : (frame : Frame) → Decidable frame.Guard
  | .fault irq => inferInstanceAs (Decidable (synchronous irq))
  | .popped _ none => isTrue fun irq h => absurd h (Option.not_mem_none irq)
  | .popped _ (some irq) => decidable_of_iff (synchronous irq) (by simp [Frame.Guard])

/-- What can happen: a line that exists changes, at any time; the guest writes an aligned
register, changes a mask, returns, causes a synchronous exception or a fault of lazy stacking
or is interrupted; on the way into a handler only faults happen until the handler begins. -/
def Op.Guard (s : NvicState) : Op → Prop
  | .setIrqLevel n _ => n + firstIrq < s.numIrq
  | .write offset size _ =>
    s.entering = false ∧ (size = 1 ∨ size = 2 ∨ size = 4) ∧ offset % size = 0
  | .raise irq derived => synchronous irq ∧ (derived = true → s.entering = true)
  | .loadFail | .take => s.entering = true
  | .lazyfp irq _ => s.entering = false ∧ (irq = Excp.mem ∨ irq = Excp.bus ∨ irq = Excp.usage)
  | .ret x => s.entering = false ∧ x.frame.Guard
  | .interrupt | .basepri _ | .primask _ | .faultmask _ => s.entering = false
  | .nmi _ | .systick _ | .reset => True

instance (s : NvicState) : (op : Op) → Decidable (op.Guard s)
  | .setIrqLevel n _ => inferInstanceAs (Decidable (n + firstIrq < s.numIrq))
  | .write offset size _ => inferInstanceAs (Decidable
      (s.entering = false ∧ (size = 1 ∨ size = 2 ∨ size = 4) ∧ offset % size = 0))
  | .raise irq derived => inferInstanceAs (Decidable
      (synchronous irq ∧ (derived = true → s.entering = true)))
  | .loadFail | .take => inferInstanceAs (Decidable (s.entering = true))
  | .lazyfp irq _ => inferInstanceAs (Decidable
      (s.entering = false ∧ (irq = Excp.mem ∨ irq = Excp.bus ∨ irq = Excp.usage)))
  | .ret x => inferInstanceAs (Decidable (s.entering = false ∧ x.frame.Guard))
  | .interrupt | .basepri _ | .primask _ | .faultmask _ =>
    inferInstanceAs (Decidable (s.entering = false))
  | .nmi _ | .systick _ | .reset => inferInstanceAs (Decidable True)

/-- An operation that aborts the emulator takes no step. -/
def controller : System NvicState Op Empty where
  step s op out t := op.Guard s ∧ op.exec s = some t ∧ out = []

def play (s : NvicState) : List Op → Option (List (Event NvicState Op Empty) × NvicState)
  | [] => some ([], s)
  | op :: ops =>
    if op.Guard s then do
      let t ← op.exec s
      let (tr, u) ← play t ops
      return (⟨s, op, []⟩ :: tr, u)
    else none

theorem run_play (ops : List Op) {s t : NvicState} {tr : List (Event NvicState Op Empty)}
    (h : play s ops = some (tr, t)) : controller.Run s tr t := by
  induction ops generalizing s tr with
  | nil =>
    cases h
    exact .nil
  | cons op ops ih =>
    rw [play] at h
    split_ifs at h with hguard
    obtain ⟨u, hu, h⟩ := Option.bind_eq_some_iff.mp h
    obtain ⟨⟨tr', t'⟩, ht, h⟩ := Option.bind_eq_some_iff.mp h
    cases h
    exact (ih ht).cons ⟨hguard, hu, rfl⟩

theorem run_get (s : NvicState) (ops : List Op) (h : (play s ops).isSome = true) :
    controller.Run s ((play s ops).get h).1 ((play s ops).get h).2 :=
  run_play ops (Option.some_get h).symm

variable {s t : NvicState} {irq i : Nat} {v : VecInfo} {f : VecInfo → VecInfo}

structure Good (i : Nat) (v : VecInfo) : Prop where
  prio_le : v.prio ≤ 255
  configurable : Excp.hard < i → 0 ≤ v.prio
  fixed : i = Excp.hard → v.prio = -1 ∧ v.enabled = true
  low : i ≤ Excp.reset → v.enabled = false
  external : v.level = true → firstIrq ≤ i
  held : v.level = true → v.pending = true ∨ v.active = true

namespace Good

theorem setPending (h : Good i v) : Good i { v with pending := true } :=
  { h with held := fun _ => .inl rfl }

theorem clearPending (h : Good i v) (hlevel : v.level = true → v.active = true) :
    Good i { v with pending := false } :=
  { h with held := fun hl => .inr (hlevel hl) }

theorem system (h : Good i v) (hi : Excp.hard < i) (hi' : i < firstIrq) (a p e : Bool) :
    Good i { v with active := a, pending := p, enabled := e } where
  prio_le := h.prio_le
  configurable := h.configurable
  fixed heq := absurd heq hi.ne'
  low hle := absurd (hle.trans_lt (by decide)) hi.not_gt
  external := h.external
  held hl := absurd (h.external hl) (not_le.mpr hi')

theorem setEnabled (h : Good i v) (hi : Excp.hard < i) (e : Bool) :
    Good i { v with enabled := e } :=
  { h with
    fixed := fun heq => absurd heq hi.ne'
    low := fun hle => absurd (hle.trans_lt (by decide)) hi.not_gt }

theorem setPrio (h : Good i v) (hi : Excp.hard < i) {prio : Nat} (hprio : prio ≤ 255) :
    Good i { v with prio := prio } :=
  { h with
    prio_le := Int.ofNat_le.mpr hprio
    configurable := fun _ => Int.natCast_nonneg prio
    fixed := fun heq => absurd heq hi.ne' }

end Good

/-- What holds of a state before its cache is brought up to date. -/
structure Sound (s : NvicState) : Prop where
  good : ∀ i, Good i (s.vectors i)
  numIrq : firstIrq < s.numIrq
  prigroup : s.prigroup ≤ 7

structure Consistent (s : NvicState) : Prop extends Sound s where
  settled : Settled s

theorem Sound.put (h : Sound s) (hf : Good irq (f (s.vectors irq))) : Sound (s.put irq f) where
  good i := by
    by_cases hi : i = irq
    · rw [hi, put_vectors_self]
      exact hf
    · rw [put_vectors_of_ne hi]
      exact h.good i
  numIrq := h.numIrq
  prigroup := h.prigroup

theorem Sound.update (h : Sound s) : Consistent (nvicIrqUpdate s) :=
  { h with settled := settled_update s }

theorem Sound.forVectors (h : Sound s) (startvec n : Nat) (f : Nat → VecInfo → VecInfo)
    (hf : ∀ i v, Good (startvec + i) v → Good (startvec + i) (f i v)) :
    Sound (forVectors s startvec n f) := by
  rw [Nvic.forVectors]
  generalize List.range n = l
  induction l generalizing s with
  | nil => exact h
  | cons i l ih =>
    rw [List.foldl_cons]
    apply ih
    split
    · exact h.put (hf i _ (h.good _))
    · exact h

theorem Consistent.pend (h : Consistent s) (irq : Nat) : Consistent (pend s irq) := by
  rw [Nvic.pend]
  split
  · exact h
  · exact (h.toSound.put (h.good irq).setPending).update

def Succeeds (r : Option NvicState) : Prop := ∃ t, r = some t ∧ Consistent t

theorem Consistent.succeeds (h : Consistent s) : Succeeds (some s) := ⟨s, rfl, h⟩

theorem Succeeds.bind {r : Option NvicState} {g : NvicState → Option NvicState} (h : Succeeds r)
    (hg : ∀ {s}, Consistent s → Succeeds (g s)) : Succeeds (r >>= g) := by
  obtain ⟨t, rfl, ht⟩ := h
  exact hg ht

theorem hard_lt (h : firstIrq ≤ i) : Excp.hard < i := lt_of_lt_of_le (by decide) h

theorem reset_lt (h : Excp.hard ≤ i) : Excp.reset < i := lt_of_lt_of_le (by decide) h

theorem not_synchronous (h : Excp.pendsv ≤ i) : ¬synchronous i :=
  fun hs => absurd hs.2 (not_lt.mpr h)

theorem setPending_eq (hi : Excp.reset < irq) (hirq : irq < s.numIrq) (hsync : ¬synchronous irq) :
    armv7mNvicSetPending s irq = some (pend s irq) := by
  simp [armv7mNvicSetPending, doArmv7mNvicSetPending, hi, hirq, hsync]

theorem Consistent.setPending (h : Consistent s) (hi : Excp.reset < irq) (hirq : irq < s.numIrq)
    (hsync : ¬synchronous irq) : Succeeds (armv7mNvicSetPending s irq) :=
  ⟨_, setPending_eq hi hirq hsync, h.pend irq⟩

theorem Sound.lt_numIrq (h : Sound s) (hirq : irq < firstIrq) : irq < s.numIrq :=
  hirq.trans h.numIrq

theorem Consistent.clearSystemPending (h : Consistent s) (hi : Excp.reset < irq)
    (hirq : irq < firstIrq) :
    Succeeds (armv7mNvicClearPending s irq) := by
  rw [armv7mNvicClearPending, if_pos ⟨hi, h.lt_numIrq hirq⟩]
  split
  · apply Consistent.succeeds
    apply (h.toSound.put _).update
    apply (h.good irq).clearPending
    intro hlevel
    exact absurd ((h.good irq).external hlevel) (not_le.mpr hirq)
  · exact h.succeeds

theorem Consistent.setIrqLevel (h : Consistent s) {n : Nat} (hn : n + firstIrq < s.numIrq)
    (level : Bool) :
    Succeeds (setIrqLevel s n level) := by
  have hgood := h.good (n + firstIrq)
  rw [Nvic.setIrqLevel, if_neg (not_not.mpr hn)]
  split
  case isFalse => exact h.succeeds
  case isTrue hne =>
    cases level with
    | false =>
      -- the falling edge is only noted
      have hsound : Sound (s.put (n + firstIrq) fun vec => { vec with level := false }) := by
        apply h.toSound.put
        exact
          { hgood with
            external := fun h => Bool.noConfusion h
            held := fun h => Bool.noConfusion h }
      exact Consistent.succeeds { hsound with settled := h.settled.level false }
    | true =>
      have hext : firstIrq ≤ n + firstIrq := Nat.le_add_left ..
      have hsync : ¬synchronous (n + firstIrq) := not_synchronous ((by decide : _ ≤ _).trans hext)
      have hput : Consistent (nvicIrqUpdate (s.put (n + firstIrq) fun vec =>
          { vec with level := true, pending := true })) := by
        apply (h.toSound.put _).update
        exact { hgood with external := fun _ => hext, held := fun _ => .inl rfl }
      refine ⟨_, setPending_eq (reset_lt (hard_lt hext).le) hn hsync, ?_⟩
      rw [Nvic.pend]
      split
      case isTrue hpending =>
        -- already pending: the line alone is noted
        have hpending : (s.vectors (n + firstIrq)).pending = true := by simpa using hpending
        have hsound : Sound (s.put (n + firstIrq) fun vec => { vec with level := true }) := by
          apply h.toSound.put
          exact { hgood with external := fun _ => hext, held := fun _ => .inl hpending }
        exact { hsound with settled := h.settled.level true }
      case isFalse =>
        rw [put_put]
        exact hput

def acknowledged (s : NvicState) : NvicState :=
  nvicIrqUpdate { s.put s.vectpending fun vec => { vec with active := true, pending := false } with
    exception := s.vectpending }

theorem Consistent.acknowledge (h : Consistent s)
    (htake : armv7mNvicCanTakePendingException s = true) :
    armv7mNvicAcknowledgeIrq s = some (acknowledged s) ∧ Consistent (acknowledged s) := by
  obtain ⟨hnext, -⟩ := h.settled.next h.prigroup htake
  have hin := mem_exceptions.mp hnext.exists_
  have hgood := h.good s.vectpending
  have hreset : Excp.reset < s.vectpending := by
    by_contra hle
    exact Bool.noConfusion ((hgood.low (not_lt.mp hle)).symm.trans hnext.ready.1)
  have hassert : s.vectpending > Excp.reset ∧ s.vectpending < s.numIrq ∧
      (s.vectors s.vectpending).enabled = true ∧ (s.vectors s.vectpending).pending = true ∧
      s.vectpendingPrio < nvicExecPrio s :=
    ⟨hreset, hin.2, hnext.ready.1, hnext.ready.2, of_decide_eq_true htake⟩
  have hput : Sound (s.put s.vectpending fun vec =>
      { vec with active := true, pending := false }) :=
    h.toSound.put { hgood with held := fun _ => .inr rfl }
  exact ⟨if_pos hassert, Sound.update ⟨hput.good, hput.numIrq, hput.prigroup⟩⟩

theorem Consistent.complete (h : Consistent s) (hi : Excp.reset < irq) (hirq : irq < s.numIrq) :
    ∃ ret t, armv7mNvicCompleteIrq s irq = some (ret, t) ∧ Consistent t ∧ t.numIrq = s.numIrq := by
  have hgood := h.good irq
  rw [armv7mNvicCompleteIrq, if_neg (not_not.mpr ⟨hi, hirq⟩)]
  split
  case isTrue hlevel =>
    rw [if_pos (hgood.external hlevel)]
    refine ⟨_, _, rfl, ?_, rfl⟩
    exact (h.toSound.put { hgood with held := fun _ => .inl rfl }).update
  case isFalse hlevel =>
    refine ⟨_, _, rfl, ?_, rfl⟩
    exact (h.toSound.put { hgood with held := fun hl => absurd hl hlevel }).update

theorem prioMask_le (s : NvicState) {prio : Nat} (h : prio ≤ 255) : prioMask s prio ≤ 255 :=
  (Nat.div_mul_le_self ..).trans h

theorem byte_le (value k : Nat) : value / k % 256 ≤ 255 :=
  Nat.le_of_lt_succ (Nat.mod_lt _ (by decide))

section Writes

variable {startvec size value : Nat}

theorem Sound.writeEnable (h : Sound s) (hstart : firstIrq ≤ startvec) (setval : Bool) :
    Sound (writeEnable s startvec size value setval) := by
  apply h.forVectors
  intro i v hv
  split
  · exact hv.setEnabled (hard_lt (hstart.trans (Nat.le_add_right ..))) setval
  · exact hv

theorem Sound.writePend (h : Sound s) (setval : Bool) :
    Sound (writePend s startvec size value setval) := by
  apply h.forVectors
  intro i v hv
  split
  case isTrue hwrite =>
    cases setval with
    | true => exact hv.setPending
    | false =>
      apply hv.clearPending
      intro hlevel
      by_contra hactive
      exact hwrite.2 ⟨rfl, hlevel, hactive⟩
  case isFalse => exact hv

theorem Sound.writePriority (h : Sound s) (hstart : firstIrq ≤ startvec) :
    Sound (writePriority s startvec size value) := by
  apply h.forVectors
  intro i v hv
  exact hv.setPrio (hard_lt (hstart.trans (Nat.le_add_right ..))) (prioMask_le s (byte_le ..))

theorem Sound.setPrio (h : Sound s) {prio : Nat} (hi : Excp.hard < irq) (hirq : irq < firstIrq)
    (hprio : prio ≤ 255) : ∃ t, setPrio s irq prio = some t ∧ Sound t := by
  rw [Nvic.setPrio, if_pos ⟨lt_trans (by decide) hi, h.lt_numIrq hirq⟩]
  exact ⟨_, rfl, h.put ((h.good irq).setPrio hi (prioMask_le s hprio))⟩

theorem Sound.writeShpr (h : Sound s) (value : Nat) {hdlidx : Nat} (hlow : Excp.hard < hdlidx)
    (hhigh : hdlidx + size ≤ firstIrq) : ∃ t, writeShpr s hdlidx size value = some t ∧ Sound t := by
  rw [Nvic.writeShpr]
  have hall : ∀ i ∈ List.range size, Excp.hard < hdlidx + i ∧ hdlidx + i < firstIrq := by
    intro i hi
    have := List.mem_range.mp hi
    omega
  generalize List.range size = l at hall
  induction l generalizing s with
  | nil => exact ⟨s, rfl, h⟩
  | cons i l ih =>
    obtain ⟨hi, hl⟩ := List.forall_mem_cons.mp hall
    have hbank : ∀ exc < firstIrq, Excp.hard < exc → ∃ b, shprBank exc = some b := by decide
    obtain ⟨b, hb⟩ := hbank _ hi.2 hi.1
    obtain ⟨t, ht, hsound⟩ := h.setPrio hi.1 hi.2 (byte_le value (2 ^ (i * 8)))
    cases b with
    | false =>
      simpa [List.foldlM_cons, hb] using ih h hl
    | true =>
      simpa [List.foldlM_cons, hb, ht] using ih hsound hl

end Writes

theorem Consistent.writePendPair (h : Consistent s) (hi : Excp.reset < irq) (hirq : irq < firstIrq)
    (hsync : ¬synchronous irq) (set clear : Bool) : Succeeds (writePendPair s irq set clear) := by
  rw [Nvic.writePendPair]
  split_ifs
  · exact h.setPending hi (h.lt_numIrq hirq) hsync
  · exact h.clearSystemPending hi hirq
  · exact h.succeeds

theorem Consistent.writeIcsr (h : Consistent s) (value : Nat) : Succeeds (writeIcsr s value) := by
  apply (h.writePendPair (by decide) (by decide) (by decide) _ _).bind
  intro s h
  apply (h.writePendPair (by decide) (by decide) (by decide) _ _).bind
  intro s h
  exact h.writePendPair (by decide) (by decide) (by decide) _ _

theorem Sound.system (h : Sound s) (irq : Nat) (hi : Excp.hard < irq) (hirq : irq < firstIrq)
    (a p e : VecInfo → Bool) :
    Sound (s.put irq fun vec => { vec with active := a vec, pending := p vec, enabled := e vec }) :=
  h.put ((h.good irq).system hi hirq _ _ _)

theorem Sound.writeShcsr (h : Sound s) (value : Nat) : Consistent (writeShcsr s value) := by
  have h := h.system Excp.mem (by decide) (by decide) (fun _ => value.testBit 0)
    (fun _ => value.testBit 13) fun _ => value.testBit 16
  have h := h.system Excp.usage (by decide) (by decide) (fun _ => value.testBit 3)
    (fun _ => value.testBit 12) fun _ => value.testBit 18
  have h := h.system Excp.svc (by decide) (by decide) (fun _ => value.testBit 7)
    (fun _ => value.testBit 15) VecInfo.enabled
  have h := h.system Excp.pendsv (by decide) (by decide) (fun _ => value.testBit 10)
    VecInfo.pending VecInfo.enabled
  have h := h.system Excp.systick (by decide) (by decide) (fun _ => value.testBit 11)
    VecInfo.pending VecInfo.enabled
  have h := h.system Excp.bus (by decide) (by decide) (fun _ => value.testBit 1)
    (fun _ => value.testBit 14) fun _ => value.testBit 17
  have h := h.system Excp.debug (by decide) (by decide) (fun _ => value.testBit 8)
    VecInfo.pending VecInfo.enabled
  exact h.update

theorem Consistent.registers (h : Consistent s) (basepri : Nat) (primask faultmask : Bool)
    (exception : Nat) (hfsr : BitVec 32) (entering : Bool) :
    Consistent { s with basepri, primask, faultmask, exception, hfsr, entering } where
  good := h.good
  numIrq := h.numIrq
  prigroup := h.prigroup
  settled := ⟨h.settled.vectpending, h.settled.vectpendingPrio, h.settled.exceptionPrio,
    h.settled.excpout⟩

theorem Consistent.writel (h : Consistent s) (offset value : Nat) :
    Succeeds (nvicWritel s offset value) := by
  rw [nvicWritel]
  split_ifs with hicsr haircr hkey hshcsr hhfsr hstir hnum
  · exact h.writeIcsr value
  · apply Consistent.succeeds
    apply Sound.update
    exact { h.toSound with prigroup := Nat.le_of_lt_succ (Nat.mod_lt _ (by decide)) }
  · exact h.succeeds
  · exact (h.toSound.writeShcsr value).succeeds
  · exact (h.registers _ _ _ _ _ _).succeeds
  · have hext : firstIrq ≤ value % 2 ^ 9 + firstIrq := Nat.le_add_left ..
    exact h.setPending (reset_lt (hard_lt hext).le) hnum
      (not_synchronous ((by decide : _ ≤ _).trans hext))
  · exact h.succeeds
  · exact h.succeeds

theorem Consistent.sysregWrite (h : Consistent s) {offset size : Nat} (value : Nat)
    (hsize : size = 1 ∨ size = 2 ∨ size = 4) (halign : offset % size = 0) :
    Succeeds (nvicSysregWrite s offset size value) := by
  rw [nvicSysregWrite]
  split_ifs with h1 h2 h3 h4 h5 h6 h7 h8 h9
  · exact (h.toSound.writeEnable (Nat.le_add_left ..) true).update.succeeds
  · exact (h.toSound.writeEnable (Nat.le_add_left ..) false).update.succeeds
  · exact (h.toSound.writePend true).update.succeeds
  · exact (h.toSound.writePend false).update.succeeds
  · exact h.succeeds
  · exact (h.toSound.writePriority (Nat.le_add_left ..)).update.succeeds
  · have hlow : Excp.hard < offset - 0xd14 := by
      rw [show Excp.hard = 3 from rfl]
      omega
    have hhigh : offset - 0xd14 + size ≤ firstIrq := by
      rw [show firstIrq = 16 from rfl]
      rcases hsize with rfl | rfl | rfl <;> omega
    obtain ⟨t, ht, hsound⟩ := h.toSound.writeShpr value hlow hhigh
    exact ⟨_, by rw [ht]; rfl, hsound.update⟩
  · exact h.succeeds
  · exact h.writel offset value
  · exact h.succeeds

theorem resetVectors_quiet (i : Nat) : (resetVectors i).pending = false ∧
    (resetVectors i).active = false ∧ (resetVectors i).level = false := by
  rw [resetVectors]
  split_ifs <;> exact ⟨rfl, rfl, rfl⟩

theorem good_resetVectors (i : Nat) : Good i (resetVectors i) where
  prio_le := by
    rw [resetVectors]
    split_ifs <;> decide
  configurable hi := by
    rw [resetVectors, if_neg (reset_lt hi.le).ne', if_neg (lt_trans (by decide) hi).ne',
      if_neg hi.ne']
    split_ifs <;> decide
  fixed hi := by
    rw [hi]
    exact ⟨rfl, rfl⟩
  low hi := by
    have hall : ∀ i ≤ Excp.reset, (resetVectors i).enabled = false := by decide
    exact hall i hi
  external hl := Bool.noConfusion ((resetVectors_quiet i).2.2.symm.trans hl)
  held hl := Bool.noConfusion ((resetVectors_quiet i).2.2.symm.trans hl)

theorem scan_quiet (h : ∀ i, (s.vectors i).pending = false ∧ (s.vectors i).active = false) :
    scan s = ⟨noexcPrio, noexcPrio, 0⟩ := by
  have hvisit : ∀ i, Scan.visit s.vectors ⟨noexcPrio, noexcPrio, 0⟩ i =
      ⟨noexcPrio, noexcPrio, 0⟩ := by
    intro i
    simp [Scan.visit, h i]
  rw [scan]
  induction List.range' 1 (s.numIrq - 1) with
  | nil => rfl
  | cons i l ih => rw [List.foldl_cons, hvisit, ih]

theorem consistent_reset (s : NvicState) (hnum : firstIrq < s.numIrq) :
    Consistent (armv7mNvicReset s) where
  good := good_resetVectors
  numIrq := hnum
  prigroup := Nat.zero_le _
  settled := by
    have hscan : scan (armv7mNvicReset s) = ⟨noexcPrio, noexcPrio, 0⟩ :=
      scan_quiet fun i => ⟨(resetVectors_quiet i).1, (resetVectors_quiet i).2.1⟩
    have hgroup := excGroupPrio_noexc (s := armv7mNvicReset s) (Nat.zero_le 7)
    refine ⟨?_, ?_, ?_, .inl rfl⟩
    · rw [hscan]
      rfl
    · rw [hscan, hgroup]
      rfl
    · rw [hscan, hgroup]
      rfl

end QemuBoard.Nvic
