import QemuBoard.Nvic.Effects

namespace QemuBoard.Nvic

open Library

variable {s t : NvicState} {irq : Nat} {derived : Bool}

section Faults

/-- The CPU locks up: it would need a HardFault and cannot take one. -/
def Lockup (s : NvicState) (irq : Nat) (derived : Bool) : Prop :=
  nvicExecPrio s ≤ -1 ∧ ¬(derived = true ∧ irq = Excp.debug) ∨
    derived = true ∧ irq = Excp.hard ∧ s.vectpendingPrio ≤ -1

theorem Sound.neg_one_le (h : Sound s) (hirq : Excp.hard ≤ irq) :
    -1 ≤ excGroupPrio s (s.vectors irq).prio := by
  have hneg : excGroupPrio s (-1) = -1 := if_pos (by decide)
  rw [← hneg]
  apply excGroupPrio_mono
  rcases hirq.eq_or_lt with rfl | hlt
  · exact ((h.good _).fixed rfl).1.ge
  · exact le_trans (by decide) ((h.good irq).configurable hlt)

theorem Sound.excGroupPrio_hard (h : Sound s) : excGroupPrio s (s.vectors Excp.hard).prio = -1 := by
  rw [((h.good _).fixed rfl).1]
  rfl

theorem Sound.escalates_of_lockup (h : Sound s) (hirq : Excp.hard ≤ irq)
    (hlock : nvicExecPrio s ≤ -1) : escalates s irq :=
  .inl (hlock.trans (h.neg_one_le hirq))

theorem Sound.escalates_hard (h : Sound s) : escalates s Excp.hard ↔ nvicExecPrio s ≤ -1 := by
  rw [escalates, h.excGroupPrio_hard, ((h.good _).fixed rfl).2]
  simp

theorem Consistent.mem_exceptions (h : Consistent s) (hi : Excp.hard ≤ irq)
    (hirq : irq < firstIrq) :
    irq ∈ exceptions s :=
  Nvic.mem_exceptions.mpr ⟨(reset_lt hi).le, h.lt_numIrq hirq⟩

theorem pend_ready (h : (s.vectors irq).enabled = true) : Ready (pend s irq).vectors irq := by
  rw [pend]
  split
  case isTrue hpending => exact ⟨h, hpending⟩
  case isFalse =>
    rw [update_vectors, Ready, put_vectors_self]
    exact ⟨h, rfl⟩

theorem Consistent.canTake_pend (h : Consistent s) (hi : Excp.hard ≤ irq) (hirq : irq < firstIrq)
    (hesc : ¬escalates s irq) : armv7mNvicCanTakePendingException (Nvic.pend s irq) = true := by
  have hpends : Pends s (Nvic.pend s irq) := .pend irq
  have hvalid := h.pend irq
  rw [escalates, not_or, not_le, Bool.not_eq_false] at hesc
  refine hvalid.settled.canTake (hvalid.mem_exceptions hi hirq) (pend_ready hesc.2) ?_
  rw [hpends.execPrio h.settled hvalid.settled, hpends.group, (hpends.vectors irq).2.1]
  exact hesc.1

structure Pended (s t : NvicState) (irq : Nat) (derived : Bool) : Prop where
  valid : Consistent t
  pends : Pends s t
  takable : derived = true ∧ irq = Excp.debug ∧ t = s ∨ armv7mNvicCanTakePendingException t = true

theorem Consistent.setPendingSync (h : Consistent s) (hsync : synchronous irq) (derived : Bool) :
    Lockup s irq derived ∧ doArmv7mNvicSetPending s irq derived = none ∨
      ¬Lockup s irq derived ∧ ∃ t, doArmv7mNvicSetPending s irq derived = some t ∧
        Pended s t irq derived := by
  have hfixed := (h.good Excp.hard).fixed rfl
  have hin : irq > Excp.reset ∧ irq < s.numIrq :=
    ⟨reset_lt hsync.1, h.lt_numIrq (hsync.2.trans (by decide))⟩
  have hirq : irq < firstIrq := hsync.2.trans (by decide)
  have hterm : derived = true ∧ irq = Excp.hard ∧ (s.vectors irq).prio ≥ s.vectpendingPrio ↔
      derived = true ∧ irq = Excp.hard ∧ s.vectpendingPrio ≤ -1 := by
    refine and_congr_right fun _ => and_congr_right fun hhard => ?_
    rw [hhard, hfixed.1]
  rw [doArmv7mNvicSetPending, if_neg (not_not.mpr hin), hfixed.1]
  split_ifs with hasync hignored hterminal hescalate hlock
  · exact absurd hsync hasync.2
  · obtain ⟨hderived, hdebug, -⟩ := hignored
    refine .inr ⟨?_, s, rfl, h, .refl, .inl ⟨hderived, hdebug, rfl⟩⟩
    rintro (hlock | hlock)
    · exact hlock.2 ⟨hderived, hdebug⟩
    · exact absurd (hdebug.symm.trans hlock.2.1) (by decide)
  · exact .inl ⟨.inr (hterm.mp hterminal), rfl⟩
  · refine .inl ⟨.inl ⟨hlock, fun hdebug => hignored ⟨hdebug.1, hdebug.2, ?_⟩⟩, rfl⟩
    exact hlock.trans (h.neg_one_le hsync.1)
  · have hforced := h.registers s.basepri s.primask s.faultmask s.exception (s.hfsr ||| hfsrForced)
      s.entering
    have hpends : Pends s (Nvic.pend { s with hfsr := s.hfsr ||| hfsrForced } Excp.hard) := by
      have hpend := Pends.pend (s := { s with hfsr := s.hfsr ||| hfsrForced }) Excp.hard
      exact ⟨hpend.vectors, hpend.pending, hpend.numIrq, hpend.prigroup, hpend.basepri,
        hpend.primask, hpend.faultmask, hpend.entering, hpend.exception⟩
    refine .inr ⟨?_, _, rfl, hforced.pend _, hpends,
      .inr (hforced.canTake_pend le_rfl (by decide) ?_)⟩
    · rintro (hlock' | hlock')
      · exact hlock hlock'.1
      · exact hterminal (hterm.mpr hlock')
    · exact fun hesc => hlock (hforced.escalates_hard.mp hesc)
  · have hesc : ¬escalates s irq := fun hesc => hescalate ⟨hsync, hesc⟩
    refine .inr ⟨?_, _, rfl, h.pend irq, .pend irq, .inr (h.canTake_pend hsync.1 hirq hesc)⟩
    rintro (hlock | hlock)
    · exact hesc (h.escalates_of_lockup hsync.1 hlock.1)
    · exact hterminal (hterm.mpr hlock)

end Faults

section LazyStacking

variable {fpccr : Fpccr}

def Fpccr.target (fpccr : Fpccr) (irq : Nat) : Nat :=
  if fpccr.escalate irq = some true then Excp.hard else irq

def LazyLockup (s : NvicState) (irq : Nat) (fpccr : Fpccr) : Prop :=
  escalates s (fpccr.target irq) ∧ fpccr.hfrdy = false

theorem Fpccr.escalate_eq_some (fpccr : Fpccr)
    (hirq : irq = Excp.mem ∨ irq = Excp.bus ∨ irq = Excp.usage) :
    ∃ escalate, fpccr.escalate irq = some escalate ∧
      fpccr.target irq = if escalate then Excp.hard else irq := by
  have hsome : ∃ escalate, fpccr.escalate irq = some escalate := by
    rcases hirq with rfl | rfl | rfl <;> exact ⟨_, rfl⟩
  obtain ⟨escalate, h⟩ := hsome
  refine ⟨escalate, h, ?_⟩
  rw [Fpccr.target, h]
  simp only [Option.some.injEq]

theorem Consistent.pendLazyfp (h : Consistent s) (hirq : irq ∈ lazyFaults) :
    Consistent (pendLazyfp s irq) := by
  refine ⟨?_, h.settled.lazyfp hirq⟩
  rw [Nvic.pendLazyfp]
  split
  · exact h.toSound
  · have hput := h.toSound.put (f := fun vec => { vec with pending := true })
      (h.good irq).setPending
    exact ⟨hput.good, hput.numIrq, hput.prigroup⟩

theorem Consistent.setPendingLazyfp (h : Consistent s) (fpccr : Fpccr)
    (hirq : irq = Excp.mem ∨ irq = Excp.bus ∨ irq = Excp.usage) :
    LazyLockup s irq fpccr ∧ armv7mNvicSetPendingLazyfp s irq fpccr = none ∨
      ¬LazyLockup s irq fpccr ∧ ∃ hfsr, armv7mNvicSetPendingLazyfp s irq fpccr =
        some (Nvic.pendLazyfp { s with hfsr } (fpccr.target irq)) := by
  obtain ⟨escalate, hescalate, htarget⟩ := fpccr.escalate_eq_some hirq
  have hin : irq > Excp.reset ∧ irq < s.numIrq := by
    rcases hirq with rfl | rfl | rfl <;> exact ⟨by decide, h.lt_numIrq (by decide)⟩
  have hdebug : ¬(irq = Excp.debug ∧ fpccr.monrdy = false) := by
    rcases hirq with rfl | rfl | rfl <;> exact fun hd => absurd hd.1 (by decide)
  rw [armv7mNvicSetPendingLazyfp, if_neg (not_not.mpr hin), if_neg hdebug, hescalate]
  simp only [Option.bind_some, ← htarget]
  split
  case isTrue hlock => exact .inl ⟨hlock, rfl⟩
  case isFalse hlock => exact .inr ⟨hlock, _, rfl⟩

theorem Fpccr.target_mem (fpccr : Fpccr)
    (hirq : irq = Excp.mem ∨ irq = Excp.bus ∨ irq = Excp.usage) :
    fpccr.target irq ∈ lazyFaults := by
  rw [Fpccr.target]
  split
  · decide
  · rcases hirq with rfl | rfl | rfl <;> decide

end LazyStacking

structure Valid (s : NvicState) : Prop extends Consistent s where
  takable : s.entering = true → armv7mNvicCanTakePendingException s = true

theorem Consistent.outside (h : Consistent s) (hout : s.entering = false) : Valid s :=
  { h with takable := fun hin => Bool.noConfusion (hout.symm.trans hin) }

theorem Consistent.enter (h : Consistent s)
    (htake : armv7mNvicCanTakePendingException s = true) : Valid (enter s) :=
  ⟨h.registers _ _ _ _ _ _, fun _ => htake⟩

section Exits

/-- A return raises a fault of its own, once its exception is complete: an integrity check
fails, the frame cannot be read or brings back the wrong mode. -/
def Exit.Faults (x : Exit) (ret : Int) (s : NvicState) : Prop :=
  x.ufault ret = true ∨ armv7mNvicCanTakePendingException s = false ∧
    match x.frame with
    | .fault _ => True
    | .popped ipsr fp => fp.isSome = true ∨ x.returnToHandler ≠ decide (ipsr % 2 ^ 9 ≠ 0)

theorem Consistent.fault (h : Consistent s) (hsync : synchronous irq) :
    nvicExecPrio s ≤ -1 ∧ armv7mNvicSetPending s irq = none ∨
      ¬nvicExecPrio s ≤ -1 ∧ ∃ t, armv7mNvicSetPending s irq = some t ∧ Consistent t ∧ Pends s t ∧
        armv7mNvicCanTakePendingException t = true := by
  have hlock : Lockup s irq false ↔ nvicExecPrio s ≤ -1 := by simp [Lockup]
  rw [← hlock]
  refine (h.setPendingSync hsync false).imp_right fun ⟨hno, t, ht, hpended⟩ => ⟨hno, t, ht, ?_⟩
  exact ⟨hpended.valid, hpended.pends, hpended.takable.resolve_left fun h => Bool.noConfusion h.1⟩

theorem Consistent.enterFault (h : Consistent s) (hsync : synchronous irq) :
    nvicExecPrio s ≤ -1 ∧ (armv7mNvicSetPending s irq).map Nvic.enter = none ∨
      ¬nvicExecPrio s ≤ -1 ∧
        ∃ t, (armv7mNvicSetPending s irq).map Nvic.enter = some t ∧ Valid t := by
  rcases h.fault hsync with ⟨hlock, hnone⟩ | ⟨hno, t, ht, hvalid, -, htake⟩
  · exact .inl ⟨hlock, by rw [hnone]; rfl⟩
  · exact .inr ⟨hno, Nvic.enter t, by rw [ht]; rfl, hvalid.enter htake⟩

theorem Consistent.restore (h : Consistent s) (hout : s.entering = false) (x : Exit) (ipsr : Nat) :
    (x.returnToHandler ≠ decide (ipsr % 2 ^ 9 ≠ 0) ∧ nvicExecPrio s ≤ -1) ∧
        x.restore ipsr s = none ∨
      ¬(x.returnToHandler ≠ decide (ipsr % 2 ^ 9 ≠ 0) ∧ nvicExecPrio s ≤ -1) ∧
        ∃ t, x.restore ipsr s = some t ∧ Valid t := by
  have hback : Consistent { s with exception := ipsr % 2 ^ 9 } := h.registers _ _ _ _ _ _
  rw [Exit.restore]
  dsimp only
  split
  case isTrue hmode =>
    simp only [hmode, ne_eq, not_false_eq_true, true_and]
    exact hback.enterFault (by decide)
  case isFalse hmode =>
    exact .inr ⟨fun hlock => hmode hlock.1, _, rfl, hback.outside hout⟩

theorem Consistent.resume (h : Consistent s) (hout : s.entering = false) {x : Exit}
    (hx : x.frame.Guard) (ret : Int) :
    (x.Faults ret s ∧ nvicExecPrio s ≤ -1) ∧ x.resume ret s = none ∨
      ¬(x.Faults ret s ∧ nvicExecPrio s ≤ -1) ∧ ∃ t, x.resume ret s = some t ∧ Valid t := by
  rw [Exit.resume, Exit.Faults]
  by_cases hcheck : x.ufault ret = true
  · simp only [hcheck, if_true, true_or, true_and]
    exact h.enterFault (by decide)
  · rw [if_neg hcheck]
    by_cases htake : armv7mNvicCanTakePendingException s = true
    · rw [if_pos htake]
      refine .inr ⟨?_, _, rfl, h.enter htake⟩
      rintro ⟨hfault | hfault, -⟩
      · exact hcheck hfault
      · exact Bool.noConfusion (htake.symm.trans hfault.1)
    · rw [if_neg htake]
      simp only [hcheck, Bool.eq_false_of_not_eq_true htake, Bool.false_eq_true, false_or, true_and]
      cases hframe : x.frame with
      | fault irq =>
        rw [hframe] at hx
        simpa using h.enterFault hx
      | popped ipsr fp =>
        rw [hframe] at hx
        cases fp with
        | none => simpa [popFpFault] using h.restore hout x ipsr
        | some irq =>
          simp only [popFpFault]
          rcases h.fault (hx irq rfl) with ⟨hlock, hnone⟩ | ⟨hno, t, ht, hvalid, hpends, -⟩
          · rw [hnone]
            exact .inl ⟨⟨.inl rfl, hlock⟩, rfl⟩
          · have hexec := hpends.execPrio h.settled hvalid.settled
            obtain ⟨-, u, hu, hres⟩ := (hvalid.restore
              (hpends.entering.trans hout) x ipsr).resolve_left
              fun hlock => hno (hexec ▸ hlock.1.2)
            refine .inr ⟨fun hlock => hno hlock.2, u, ?_, hres⟩
            rw [ht]
            exact hu

end Exits

section Steps

theorem Valid.pends (h : Valid s) (ht : Consistent t) (hpends : Pends s t) : Valid t :=
  { ht with
    takable := fun hin => hpends.canTake h.settled ht.settled (h.takable (hpends.entering ▸ hin)) }

theorem Pends.setIrqLevel {n : Nat} {level : Bool} (h : setIrqLevel s n level = some t) :
    Pends s t := by
  have hext : firstIrq ≤ n + firstIrq := Nat.le_add_left ..
  have hput : Pends s (s.put (n + firstIrq) fun vec => { vec with level := level }) :=
    .put _ fun _ => ⟨rfl, rfl, rfl, id⟩
  rw [Nvic.setIrqLevel] at h
  dsimp only at h
  split_ifs at h with hnum
  · have hpend := setPending_eq (s := s.put (n + firstIrq) fun vec => { vec with level := level })
      (reset_lt (hard_lt hext).le) hnum (not_synchronous ((by decide : _ ≤ _).trans hext))
    obtain rfl := Option.some.inj (hpend.symm.trans h)
    exact hput.trans (.pend _)
  · obtain rfl := Option.some.inj h
    exact hput
  · obtain rfl := Option.some.inj h
    exact .refl

/-- Where the emulator gives up: on a fault of a CPU that could not take a HardFault any more,
and on the return from an exception number that the controller does not have. -/
def Op.GivesUp (s : NvicState) : Op → Prop
  | .raise irq derived => Lockup s irq derived
  | .loadFail => Lockup s Excp.hard true
  | .lazyfp irq fpccr => LazyLockup s irq fpccr
  | .ret x => s.exception ≠ 0 ∧ (¬(Excp.reset < s.exception ∧ s.exception < s.numIrq) ∨
      ∃ ret t, armv7mNvicCompleteIrq (clearFaultmask s) s.exception = some (ret, t) ∧
        x.Faults ret t ∧ nvicExecPrio t ≤ -1)
  | _ => False

def Op.Ends (s : NvicState) (op : Op) : Prop :=
  op.GivesUp s ∧ op.exec s = none ∨ ¬op.GivesUp s ∧ ∃ t, op.exec s = some t ∧ Valid t

theorem Valid.trigger (h : Valid s) (irq : Nat) (hi : Excp.reset < irq) (hirq : irq < firstIrq)
    (hsync : ¬synchronous irq) (level : Bool) :
    ∃ t, (if level then armv7mNvicSetPending s irq else some s) = some t ∧ Valid t := by
  cases level with
  | false => exact ⟨s, rfl, h⟩
  | true =>
    refine ⟨_, setPending_eq hi (h.lt_numIrq hirq) hsync, h.pends (h.pend irq) (.pend irq)⟩

theorem entering_sysregWrite {offset size value : Nat}
    (h : nvicSysregWrite s offset size value = some t) : t.entering = s.entering := by
  by_cases hgroup : size = 4 ∧ offset = 0xd0c
  · obtain ⟨rfl, rfl⟩ := hgroup
    have hwrite : nvicSysregWrite s 0xd0c 4 value = if value / 2 ^ 16 = 0x05fa then
        some (nvicIrqUpdate { s with prigroup := value / 2 ^ 8 % 8 }) else some s := rfl
    rw [hwrite] at h
    split at h <;> obtain rfl := Option.some.inj h <;> rfl
  · refine (Footprint.write elementary_true ⟨fun _ _ _ _ _ _ => trivial, fun _ _ _ _ _ => trivial,
      fun _ _ _ _ _ _ => trivial, fun _ _ _ _ _ _ _ _ => trivial, ?_⟩ h).entering
    exact fun hsize hoffset => hgroup ⟨hsize, hoffset⟩

theorem Valid.raise (h : Valid s) (hsync : synchronous irq)
    (hderived : derived = true → s.entering = true) : (Op.raise irq derived).Ends s := by
  rcases h.setPendingSync hsync derived with ⟨hlock, hnone⟩ | ⟨hno, t, ht, hpended⟩
  · exact .inl ⟨hlock, by rw [Op.exec, armV7mCpuDoInterrupt, hnone]; rfl⟩
  · refine .inr ⟨hno, enter t, by rw [Op.exec, armV7mCpuDoInterrupt, ht]; rfl, ?_⟩
    refine ⟨hpended.valid.registers _ _ _ _ _ _, fun _ => ?_⟩
    rcases hpended.takable with ⟨hd, -, rfl⟩ | htake
    · exact h.takable (hderived hd)
    · exact htake

theorem Valid.loadFail (h : Valid s) : Op.loadFail.Ends s := by
  have hstatus := h.registers s.basepri s.primask s.faultmask s.exception
    (s.hfsr ||| hfsrVecttbl ||| hfsrForced) s.entering
  have hsync : synchronous Excp.hard := by decide
  rcases hstatus.setPendingSync hsync true with
    ⟨hlock, hnone⟩ | ⟨hno, t, ht, hpended⟩
  · exact .inl ⟨hlock, hnone⟩
  · refine .inr ⟨hno, t, ht, hpended.valid, fun _ => ?_⟩
    exact hpended.takable.resolve_left fun hdebug => absurd hdebug.2.1 (by decide)

theorem Valid.lazyfp (h : Valid s) {fpccr : Fpccr} (hout : s.entering = false)
    (hirq : irq = Excp.mem ∨ irq = Excp.bus ∨ irq = Excp.usage) :
    (Op.lazyfp irq fpccr).Ends s := by
  rcases h.setPendingLazyfp fpccr hirq with ⟨hlock, hnone⟩ | ⟨hno, hfsr, hsome⟩
  · exact .inl ⟨hlock, by rw [Op.exec, v7mPreserveFpState, hnone]; rfl⟩
  · refine .inr ⟨hno, _, by rw [Op.exec, v7mPreserveFpState, hsome]; rfl, ?_⟩
    have hstatus := h.registers s.basepri s.primask s.faultmask s.exception hfsr s.entering
    have hpended := hstatus.pendLazyfp (fpccr.target_mem hirq)
    dsimp only
    split
    case isTrue htake => exact hpended.enter htake
    case isFalse =>
      apply hpended.outside
      rw [pendLazyfp]
      split <;> exact hout

theorem Valid.take (h : Valid s) (hin : s.entering = true) :
    v7mExceptionTaken s = some { acknowledged s with entering := false } ∧
      Valid { acknowledged s with entering := false } := by
  obtain ⟨hack, hvalid⟩ := h.acknowledge (h.takable hin)
  refine ⟨by rw [v7mExceptionTaken, hack]; rfl, Consistent.outside ?_ rfl⟩
  exact hvalid.registers _ _ _ _ _ _

theorem completeIrq_none (h : ¬(Excp.reset < irq ∧ irq < s.numIrq)) :
    armv7mNvicCompleteIrq s irq = none := by
  rw [armv7mNvicCompleteIrq, if_pos h]

theorem entering_completeIrq {r : Int × NvicState} (h : armv7mNvicCompleteIrq s irq = some r) :
    r.2.entering = s.entering := by
  rw [armv7mNvicCompleteIrq] at h
  generalize (if !(s.vectors irq).active then (-1 : Int) else if nvicRettobase s then 1 else 0) =
    ret
    at h
  split_ifs at h <;> obtain rfl := Option.some.inj h <;> rfl

theorem Valid.ret (h : Valid s) (hout : s.entering = false) {x : Exit} (hx : x.frame.Guard) :
    (Op.ret x).Ends s := by
  rw [Op.Ends, Op.GivesUp, Op.exec, doV7mExceptionExit]
  by_cases hthread : s.exception = 0
  · rw [if_pos hthread]
    exact .inr ⟨fun hup => hup.1 hthread, s, rfl, h⟩
  · rw [if_neg hthread]
    by_cases hin : Excp.reset < s.exception ∧ s.exception < s.numIrq
    · have hclear : Consistent (clearFaultmask s) := h.registers _ _ _ _ _ _
      obtain ⟨ret, t, ht, hvalid, -⟩ := hclear.complete hin.1 hin.2
      have hout : t.entering = false := (entering_completeIrq ht).trans hout
      have hiff : s.exception ≠ 0 ∧ (¬(Excp.reset < s.exception ∧ s.exception < s.numIrq) ∨
          ∃ ret t, armv7mNvicCompleteIrq (clearFaultmask s) s.exception = some (ret, t) ∧
            x.Faults ret t ∧ nvicExecPrio t ≤ -1) ↔ x.Faults ret t ∧ nvicExecPrio t ≤ -1 := by
        simp [hthread, hin, ht]
      rw [hiff, ht]
      exact hvalid.resume hout hx ret
    · exact .inl ⟨⟨hthread, .inl hin⟩, by rw [completeIrq_none (s := clearFaultmask s) hin]; rfl⟩

theorem Valid.step (h : Valid s) {op : Op} (hguard : op.Guard s) : op.Ends s := by
  have hgoes {r : NvicState} (hexec : op.exec s = some r) (hvalid : Valid r) (hno : ¬op.GivesUp s) :
      op.Ends s := .inr ⟨hno, r, hexec, hvalid⟩
  cases op with
  | setIrqLevel n level =>
    obtain ⟨t, ht, hvalid⟩ := h.setIrqLevel hguard level
    exact hgoes ht (h.pends hvalid (.setIrqLevel ht)) id
  | nmi level =>
    obtain ⟨t, ht, hvalid⟩ := h.trigger Excp.nmi (by decide) (by decide) (by decide) level
    exact hgoes ht hvalid id
  | systick level =>
    obtain ⟨t, ht, hvalid⟩ := h.trigger Excp.systick (by decide) (by decide) (by decide) level
    exact hgoes ht hvalid id
  | write offset size value =>
    obtain ⟨hout, hsize, halign⟩ := hguard
    obtain ⟨t, ht, hvalid⟩ := h.sysregWrite value hsize halign
    exact hgoes ht (hvalid.outside ((entering_sysregWrite ht).trans hout)) id
  | interrupt =>
    refine hgoes rfl ?_ id
    rw [armV7mCpuExecInterrupt]
    split
    case isTrue htake => exact h.enter htake.2
    case isFalse => exact h
  | raise irq derived => exact h.raise hguard.1 hguard.2
  | loadFail => exact h.loadFail
  | lazyfp irq fpccr => exact h.lazyfp hguard.1 hguard.2
  | take =>
    obtain ⟨htaken, hvalid⟩ := h.take hguard
    exact hgoes htaken hvalid id
  | ret x => exact h.ret hguard.1 hguard.2
  | basepri val => exact hgoes rfl ((h.registers _ _ _ _ _ _).outside hguard) id
  | primask val => exact hgoes rfl ((h.registers _ _ _ _ _ _).outside hguard) id
  | faultmask val => exact hgoes rfl ((h.registers _ _ _ _ _ _).outside hguard) id
  | reset => exact hgoes rfl ((consistent_reset s h.numIrq).outside rfl) id

theorem valid_reset (s : NvicState) (hnum : firstIrq < s.numIrq) : Valid (armv7mNvicReset s) :=
  (consistent_reset s hnum).outside rfl

theorem Valid.preserved (h : Valid s) {op : Op} {out : List Empty}
    (hstep : controller.step s op out t) : Valid t := by
  obtain ⟨hguard, hexec, -⟩ := hstep
  rcases h.step hguard with ⟨-, hnone⟩ | ⟨-, t', ht', hvalid⟩
  · exact absurd (hnone.symm.trans hexec) (Option.some_ne_none _).symm
  · obtain rfl := Option.some.inj (ht'.symm.trans hexec)
    exact hvalid

theorem Valid.run {s₀ : NvicState} {tr : List (Event NvicState Op Empty)} (h : Valid s₀)
    (hrun : controller.Run s₀ tr s) : Valid s :=
  hrun.preserves h fun hstep hvalid => hvalid.preserved hstep

end Steps

end QemuBoard.Nvic
