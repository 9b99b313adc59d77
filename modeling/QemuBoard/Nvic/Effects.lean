import QemuBoard.Nvic.Invariants

namespace QemuBoard.Nvic

open Library

variable {s t u : NvicState} {irq : Nat}

theorem shprBank_lt {exc : Nat} (h : shprBank exc = some true) : exc < firstIrq := by
  rw [shprBank] at h
  split_ifs at h with hexc
  · rcases hexc with rfl | rfl | rfl | rfl | rfl | rfl | rfl <;> decide
  · exact absurd h (by decide)

/-- A relation between old and new contents of a vector that pending and enabling respect. -/
structure Elementary (R : Nat → VecInfo → VecInfo → Prop) : Prop where
  refl : ∀ i v, R i v v
  trans : ∀ {i u v w}, R i u v → R i v w → R i u w
  pend : ∀ i v, R i v { v with pending := true }
  unpend : ∀ i v, i < firstIrq → R i v { v with pending := false }
  enable : ∀ i v b, R i v { v with enabled := b }

structure Footprint (R : Nat → VecInfo → VecInfo → Prop) (s t : NvicState) : Prop where
  vectors : ∀ i, R i (s.vectors i) (t.vectors i)
  numIrq : t.numIrq = s.numIrq
  exception : t.exception = s.exception
  prigroup : t.prigroup = s.prigroup
  entering : t.entering = s.entering

variable {R : Nat → VecInfo → VecInfo → Prop} (hR : Elementary R)

namespace Footprint

include hR

theorem refl : Footprint R s s := ⟨fun i => hR.refl i _, rfl, rfl, rfl, rfl⟩

theorem trans (h : Footprint R s t) (h' : Footprint R t u) : Footprint R s u where
  vectors i := hR.trans (h.vectors i) (h'.vectors i)
  numIrq := h'.numIrq.trans h.numIrq
  exception := h'.exception.trans h.exception
  prigroup := h'.prigroup.trans h.prigroup
  entering := h'.entering.trans h.entering

theorem put {f : VecInfo → VecInfo} (h : Footprint R s t) (hf : ∀ v, R irq v (f v)) :
    Footprint R s (t.put irq f) where
  vectors i := by
    by_cases hi : i = irq
    · rw [hi, put_vectors_self]
      exact hR.trans (h.vectors irq) (hf _)
    · rw [put_vectors_of_ne hi]
      exact h.vectors i
  numIrq := h.numIrq
  exception := h.exception
  prigroup := h.prigroup
  entering := h.entering

omit hR in
theorem update (h : Footprint R s t) : Footprint R s (nvicIrqUpdate t) :=
  ⟨h.vectors, h.numIrq, h.exception, h.prigroup, h.entering⟩

omit hR in
theorem hfsr (h : Footprint R s t) (hfsr : BitVec 32) : Footprint R s { t with hfsr } :=
  ⟨h.vectors, h.numIrq, h.exception, h.prigroup, h.entering⟩

theorem pend (irq : Nat) : Footprint R s (pend s irq) := by
  rw [Nvic.pend]
  split
  · exact refl hR
  · exact ((refl hR).put hR (hR.pend irq)).update

theorem setPending {derived : Bool} (h : doArmv7mNvicSetPending s irq derived = some t) :
    Footprint R s t := by
  rw [doArmv7mNvicSetPending] at h
  split_ifs at h
  · obtain rfl := Option.some.inj h
    exact refl hR
  · obtain rfl := Option.some.inj h
    exact ((refl hR).hfsr _).trans hR (pend hR Excp.hard)
  · obtain rfl := Option.some.inj h
    exact pend hR irq

theorem setIrqLevel {n : Nat} {level : Bool}
    (hlevel : ∀ v, R (n + firstIrq) v { v with level := level })
    (h : setIrqLevel s n level = some t) : Footprint R s t := by
  have hput := (refl hR (s := s)).put hR hlevel
  rw [Nvic.setIrqLevel] at h
  split_ifs at h
  · exact hput.trans hR (setPending hR h)
  · obtain rfl := Option.some.inj h
    exact hput
  · obtain rfl := Option.some.inj h
    exact refl hR

theorem clearPending (h : armv7mNvicClearPending s irq = some t) (hirq : irq < firstIrq) :
    Footprint R s t := by
  rw [armv7mNvicClearPending] at h
  split_ifs at h
  · obtain rfl := Option.some.inj h
    exact ((refl hR).put hR fun v => hR.unpend irq v hirq).update
  · obtain rfl := Option.some.inj h
    exact refl hR

theorem forVectors (startvec n : Nat) (f : Nat → VecInfo → VecInfo)
    (hf : ∀ k < n, ∀ v, R (startvec + k) v (f k v)) :
    Footprint R s (forVectors s startvec n f) := by
  rw [Nvic.forVectors]
  have hf : ∀ k ∈ List.range n, ∀ v, R (startvec + k) v (f k v) :=
    fun k hk => hf k (List.mem_range.mp hk)
  generalize List.range n = l at hf
  suffices hgen : ∀ t, Footprint R s t → Footprint R s (l.foldl
      (fun s i => if startvec + i < s.numIrq then s.put (startvec + i) (f i) else s) t) from
    hgen s (refl hR)
  induction l with
  | nil => exact fun t ht => ht
  | cons k l ih =>
    intro t ht
    obtain ⟨hk, hl⟩ := List.forall_mem_cons.mp hf
    rw [List.foldl_cons]
    apply ih hl
    split
    · exact ht.put hR hk
    · exact ht

theorem writePendPair {set clear : Bool} (h : writePendPair s irq set clear = some t)
    (hirq : irq < firstIrq) : Footprint R s t := by
  rw [Nvic.writePendPair] at h
  split_ifs at h
  · exact setPending hR h
  · exact clearPending hR h hirq
  · obtain rfl := Option.some.inj h
    exact refl hR

theorem writeIcsr {value : Nat} (h : writeIcsr s value = some t) : Footprint R s t := by
  rw [Nvic.writeIcsr] at h
  obtain ⟨s₁, h₁, h⟩ := Option.bind_eq_some_iff.mp h
  obtain ⟨s₂, h₂, h⟩ := Option.bind_eq_some_iff.mp h
  exact ((writePendPair hR h₁ (by decide)).trans hR (writePendPair hR h₂ (by decide))).trans hR
    (writePendPair hR h (by decide))

theorem writeShpr {hdlidx size value : Nat}
    (hprio : ∀ i v p, i < firstIrq → R i v { v with prio := p })
    (h : writeShpr s hdlidx size value = some t) : Footprint R s t := by
  rw [Nvic.writeShpr] at h
  generalize List.range size = l at h
  suffices hgen : ∀ u, Footprint R s u → l.foldlM (fun s i => do
      if ← shprBank (hdlidx + i) then Nvic.setPrio s (hdlidx + i) (value / 2 ^ (i * 8) % 256)
      else pure s) u = some t → Footprint R s t from hgen s (refl hR) h
  clear h
  induction l with
  | nil =>
    intro u hu h
    obtain rfl := Option.some.inj h
    exact hu
  | cons k l ih =>
    intro u hu h
    rw [List.foldlM_cons] at h
    obtain ⟨u', hu', h⟩ := Option.bind_eq_some_iff.mp h
    obtain ⟨b, hb, hu'⟩ := Option.bind_eq_some_iff.mp hu'
    apply ih u' _ h
    cases b with
    | false =>
      obtain rfl := Option.some.inj hu'
      exact hu
    | true =>
      simp only [if_true, Nvic.setPrio] at hu'
      split at hu'
      · obtain rfl := Option.some.inj hu'
        exact hu.put hR fun v => hprio _ v _ (shprBank_lt hb)
      · exact absurd hu' (by simp)

theorem writeShcsr (value : Nat)
    (hsys : ∀ i v a p e, i < firstIrq → R i v { v with active := a, pending := p, enabled := e }) :
    Footprint R s (writeShcsr s value) := by
  have h := (refl hR (s := s)).put hR fun v => hsys Excp.mem v (value.testBit 0)
    (value.testBit 13) (value.testBit 16) (by decide)
  have h := h.put hR fun v => hsys Excp.usage v (value.testBit 3)
    (value.testBit 12) (value.testBit 18) (by decide)
  have h := h.put hR fun v => hsys Excp.svc v (value.testBit 7)
    (value.testBit 15) v.enabled (by decide)
  have h := h.put hR fun v => hsys Excp.pendsv v (value.testBit 10) v.pending v.enabled (by decide)
  have h := h.put hR fun v => hsys Excp.systick v (value.testBit 11) v.pending v.enabled (by decide)
  have h := h.put hR fun v => hsys Excp.bus v (value.testBit 1)
    (value.testBit 14) (value.testBit 17) (by decide)
  have h := h.put hR fun v => hsys Excp.debug v (value.testBit 8) v.pending v.enabled (by decide)
  exact h.update

structure Permits (R : Nat → VecInfo → VecInfo → Prop) (offset size value : Nat) : Prop where
  clear : 0x280 ≤ offset → offset ≤ 0x2bf → ∀ k < size * 8, value.testBit k = true →
    ∀ v, R (8 * (offset - 0x280) + firstIrq + k) v { v with pending := false }
  prio : 0x400 ≤ offset → offset ≤ 0x5ef → ∀ i v p, R i v { v with prio := p }
  system : 0xd18 ≤ offset → offset ≤ 0xd23 → ∀ i v p, i < firstIrq → R i v { v with prio := p }
  handlers : size = 4 → offset = 0xd24 →
    ∀ i v a p e, i < firstIrq → R i v { v with active := a, pending := p, enabled := e }
  group : size = 4 → offset ≠ 0xd0c

theorem writel {offset size value : Nat} (hperm : Permits R offset size value) (hsize : size = 4)
    (h : nvicWritel s offset value = some t) : Footprint R s t := by
  rw [nvicWritel] at h
  split_ifs at h with hicsr haircr hkey hshcsr hhfsr hstir hnum
  · exact writeIcsr hR h
  · exact absurd haircr (hperm.group hsize)
  · exact absurd haircr (hperm.group hsize)
  · obtain rfl := Option.some.inj h
    exact writeShcsr hR value (hperm.handlers hsize hshcsr)
  · obtain rfl := Option.some.inj h
    exact (refl hR).hfsr _
  · exact setPending hR h
  · obtain rfl := Option.some.inj h
    exact refl hR
  · obtain rfl := Option.some.inj h
    exact refl hR

theorem writeEnable (startvec size value : Nat) (setval : Bool) :
    Footprint R s (writeEnable s startvec size value setval) := by
  apply forVectors hR
  intro k _ v
  split
  · exact hR.enable ..
  · exact hR.refl ..

theorem writePend (startvec size value : Nat) {setval : Bool}
    (hclear : setval = false → ∀ k < size * 8, value.testBit k = true →
      ∀ v, R (startvec + k) v { v with pending := false }) :
    Footprint R s (writePend s startvec size value setval) := by
  apply forVectors hR
  intro k hk v
  split
  case isTrue hbit =>
    cases setval with
    | true => exact hR.pend ..
    | false => exact hclear rfl k hk hbit.1 v
  case isFalse => exact hR.refl ..

theorem write {offset size value : Nat} (hperm : Permits R offset size value)
    (h : nvicSysregWrite s offset size value = some t) : Footprint R s t := by
  rw [nvicSysregWrite] at h
  split_ifs at h with h1 h2 h3 h4 h5 h6 h7 h8 h9
  · obtain rfl := Option.some.inj h
    exact (writeEnable hR ..).update
  · obtain rfl := Option.some.inj h
    exact (writeEnable hR ..).update
  · obtain rfl := Option.some.inj h
    exact (writePend hR _ _ _ fun hset => Bool.noConfusion hset).update
  · obtain rfl := Option.some.inj h
    exact (writePend hR _ _ _ fun _ => hperm.clear h4.1 h4.2).update
  · obtain rfl := Option.some.inj h
    exact refl hR
  · obtain rfl := Option.some.inj h
    exact (forVectors hR _ _ _ fun k _ v => hperm.prio h6.1 h6.2 ..).update
  · obtain ⟨u, hu, rfl⟩ := Option.map_eq_some_iff.mp h
    exact (writeShpr hR (hperm.system h7.1 h7.2) hu).update
  · obtain rfl := Option.some.inj h
    exact refl hR
  · exact writel hR hperm h9 h
  · obtain rfl := Option.some.inj h
    exact refl hR

theorem trigger {level : Bool}
    (h : (if level then armv7mNvicSetPending s irq else some s) = some t) : Footprint R s t := by
  split at h
  · exact setPending hR h
  · obtain rfl := Option.some.inj h
    exact refl hR

theorem setPendingLazyfp {fpccr : Fpccr} (h : armv7mNvicSetPendingLazyfp s irq fpccr = some t) :
    Footprint R s t := by
  have hpend : ∀ (s : NvicState) irq, Footprint R s (pendLazyfp s irq) := by
    intro s irq
    rw [pendLazyfp]
    split
    · exact refl hR
    · have hput := (refl hR (s := s)).put hR (hR.pend irq)
      exact ⟨hput.vectors, hput.numIrq, hput.exception, hput.prigroup, hput.entering⟩
  rw [armv7mNvicSetPendingLazyfp] at h
  by_cases hin : ¬(irq > Excp.reset ∧ irq < s.numIrq)
  · rw [if_pos hin] at h
    exact absurd h (Option.some_ne_none _).symm
  rw [if_neg hin] at h
  split at h
  · obtain rfl := Option.some.inj h
    exact refl hR
  · obtain ⟨escalate, -, h⟩ := Option.bind_eq_some_iff.mp h
    dsimp only at h
    generalize (if escalate = true then s.hfsr ||| hfsrForced else s.hfsr) = hfsr at h
    generalize (if escalate = true then Excp.hard else irq) = target at h
    split at h
    · exact absurd h (Option.some_ne_none _).symm
    · obtain rfl := Option.some.inj h
      exact ((refl hR).hfsr _).trans hR (hpend _ _)

theorem exec {op : Op} (hop : op ≠ .take ∧ (∀ x, op ≠ .ret x) ∧ op ≠ .reset)
    (hlevel : ∀ n level, op = .setIrqLevel n level →
      ∀ v, R (n + firstIrq) v { v with level := level })
    (hperm : ∀ offset size value, op = .write offset size value → Permits R offset size value)
    (h : op.exec s = some t) :
    ∃ u, Footprint R s u ∧ (t = u ∨ t = enter u) := by
  cases op with
  | setIrqLevel n level => exact ⟨t, setIrqLevel hR (hlevel n level rfl) h, .inl rfl⟩
  | nmi level => exact ⟨t, trigger hR h, .inl rfl⟩
  | systick level => exact ⟨t, trigger hR h, .inl rfl⟩
  | write offset size value => exact ⟨t, write hR (hperm offset size value rfl) h, .inl rfl⟩
  | interrupt =>
    obtain rfl := Option.some.inj h
    rw [armV7mCpuExecInterrupt]
    split
    · exact ⟨s, refl hR, .inr rfl⟩
    · exact ⟨s, refl hR, .inl rfl⟩
  | raise irq derived =>
    obtain ⟨u, hu, rfl⟩ := Option.map_eq_some_iff.mp h
    exact ⟨u, setPending hR hu, .inr rfl⟩
  | loadFail => exact ⟨t, ((refl hR).hfsr _).trans hR (setPending hR h), .inl rfl⟩
  | lazyfp irq fpccr =>
    obtain ⟨u, hu, rfl⟩ := Option.map_eq_some_iff.mp h
    refine ⟨u, setPendingLazyfp hR hu, ?_⟩
    split
    · exact .inr rfl
    · exact .inl rfl
  | take => exact absurd rfl hop.1
  | ret x => exact absurd rfl (hop.2.1 x)
  | basepri val | primask val | faultmask val =>
    refine ⟨t, ?_, .inl rfl⟩
    obtain rfl := Option.some.inj h
    exact ⟨fun i => hR.refl i _, rfl, rfl, rfl, rfl⟩
  | reset => exact absurd rfl hop.2.2

theorem popFpFault {fp : Option Nat} (h : popFpFault s fp = some t) : Footprint R s t := by
  cases fp with
  | none =>
    obtain rfl := Option.some.inj h
    exact refl hR
  | some irq => exact setPending hR h

theorem resume {x : Exit} {ret : Int} (h : x.resume ret s = some t) :
    Footprint R s { t with exception := s.exception, entering := s.entering } := by
  have hsame {t : NvicState} (hfoot : Footprint R s t) (exception : Nat) (entering : Bool) :
      Footprint R s { { t with exception, entering } with
        exception := s.exception, entering := s.entering } :=
    ⟨hfoot.vectors, hfoot.numIrq, rfl, hfoot.prigroup, rfl⟩
  have hfault {irq : Nat} (h : (armv7mNvicSetPending s irq).map enter = some t) :
      Footprint R s { t with exception := s.exception, entering := s.entering } := by
    obtain ⟨u, hu, rfl⟩ := Option.map_eq_some_iff.mp h
    exact hsame (setPending hR hu) u.exception true
  rw [Exit.resume] at h
  split_ifs at h
  · exact hfault h
  · obtain rfl := Option.some.inj h
    exact hsame (refl hR) s.exception true
  · cases hframe : x.frame with
    | fault irq =>
      simp only [hframe] at h
      exact hfault h
    | popped ipsr fp =>
      simp only [hframe] at h
      obtain ⟨u, hu, h⟩ := Option.bind_eq_some_iff.mp h
      have hfoot := popFpFault hR hu
      rw [Exit.restore] at h
      dsimp only at h
      split at h
      · obtain ⟨w, hw, rfl⟩ := Option.map_eq_some_iff.mp h
        have hfault := setPending hR hw
        exact ⟨fun i => hR.trans (hfoot.vectors i) (hfault.vectors i),
          hfault.numIrq.trans hfoot.numIrq, rfl, hfault.prigroup.trans hfoot.prigroup, rfl⟩
      · obtain rfl := Option.some.inj h
        exact hsame hfoot (ipsr % 2 ^ 9) u.entering

end Footprint

/-- What a return from the exception `irq` makes of a vector: the exception is pending again if
its line is still high. There is nothing to return from in thread mode. -/
def completed (irq i : Nat) (v : VecInfo) : VecInfo :=
  if i = irq ∧ irq ≠ 0 then { v with active := false, pending := v.pending || v.level } else v

theorem completeIrq_eq {r : Int × NvicState} (h : armv7mNvicCompleteIrq s irq = some r)
    (hne : irq ≠ 0) : r.2.numIrq = s.numIrq ∧ r.2.prigroup = s.prigroup ∧
      ∀ i, r.2.vectors i = completed irq i (s.vectors i) := by
  have hput : ∀ f : VecInfo → VecInfo, f (s.vectors irq) = completed irq irq (s.vectors irq) →
      nvicIrqUpdate (s.put irq f) = r.2 → r.2.numIrq = s.numIrq ∧ r.2.prigroup = s.prigroup ∧
        ∀ i, r.2.vectors i = completed irq i (s.vectors i) := by
    intro f hf hr
    rw [← hr]
    refine ⟨rfl, rfl, fun i => ?_⟩
    change (s.put irq f).vectors i = _
    by_cases hi : i = irq
    · rw [hi, put_vectors_self, hf]
    · rw [put_vectors_of_ne hi, completed, if_neg fun h => hi h.1]
  rw [armv7mNvicCompleteIrq] at h
  generalize (if !(s.vectors irq).active then (-1 : Int) else if nvicRettobase s then 1 else 0) =
    ret
    at h
  split_ifs at h with hin hlevel hext
  · exact hput _ (by simp [completed, hlevel, hne]) (congrArg Prod.snd (Option.some.inj h))
  · exact hput _ (by simp [completed, hlevel, hne]) (congrArg Prod.snd (Option.some.inj h))

theorem exceptionExit_eq (hR : Elementary R) {x : Exit} (h : doV7mExceptionExit s x = some t) :
    t.numIrq = s.numIrq ∧ t.prigroup = s.prigroup ∧
      ∀ i, R i (completed s.exception i (s.vectors i)) (t.vectors i) := by
  rw [doV7mExceptionExit] at h
  split at h
  case isTrue hthread =>
    obtain rfl := Option.some.inj h
    refine ⟨rfl, rfl, fun i => ?_⟩
    rw [completed, if_neg fun h => h.2 hthread]
    exact hR.refl i _
  case isFalse hne =>
    obtain ⟨r, hr, h⟩ := Option.bind_eq_some_iff.mp h
    obtain ⟨hnum, hgroup, hvectors⟩ := completeIrq_eq hr hne
    have hfoot := Footprint.resume hR h
    refine ⟨hfoot.numIrq.trans hnum, hfoot.prigroup.trans hgroup, fun i => ?_⟩
    have hresumed := hfoot.vectors i
    rwa [hvectors] at hresumed

theorem exceptionExit_back {x : Exit} (h : doV7mExceptionExit s x = some t) (hne : s.exception ≠ 0)
    (hout : t.entering = false) :
    ∃ ipsr fp, x.frame = .popped ipsr fp ∧ t.exception = ipsr % 2 ^ 9 := by
  have henter {r : Option NvicState} (h : r.map enter = some t) : False := by
    obtain ⟨u, -, rfl⟩ := Option.map_eq_some_iff.mp h
    exact Bool.noConfusion hout
  rw [doV7mExceptionExit, if_neg hne] at h
  obtain ⟨r, -, h⟩ := Option.bind_eq_some_iff.mp h
  rw [Exit.resume] at h
  split_ifs at h
  · exact (henter h).elim
  · obtain rfl := Option.some.inj h
    exact Bool.noConfusion hout
  · cases hframe : x.frame with
    | fault irq =>
      simp only [hframe] at h
      exact (henter h).elim
    | popped ipsr fp =>
      simp only [hframe] at h
      obtain ⟨u, -, h⟩ := Option.bind_eq_some_iff.mp h
      rw [Exit.restore] at h
      dsimp only at h
      split at h
      · exact (henter h).elim
      · obtain rfl := Option.some.inj h
        exact ⟨ipsr, fp, rfl, rfl⟩

theorem exceptionTaken_eq (h : v7mExceptionTaken s = some t) :
    armv7mNvicCanTakePendingException s = true ∧ t = { acknowledged s with entering := false } := by
  obtain ⟨u, hu, rfl⟩ := Option.map_eq_some_iff.mp h
  rw [armv7mNvicAcknowledgeIrq] at hu
  split at hu
  case isTrue hassert =>
    obtain rfl := Option.some.inj hu
    exact ⟨decide_eq_true hassert.2.2.2.2, rfl⟩
  case isFalse => exact absurd hu (Option.some_ne_none _).symm

theorem aircr_vectors {value : Nat} (h : nvicSysregWrite s 0xd0c 4 value = some t) :
    t.numIrq = s.numIrq ∧ t.vectors = s.vectors := by
  have hwrite : nvicSysregWrite s 0xd0c 4 value = if value / 2 ^ 16 = 0x05fa then
      some (nvicIrqUpdate { s with prigroup := value / 2 ^ 8 % 8 }) else some s := rfl
  rw [hwrite] at h
  split at h
  · obtain rfl := Option.some.inj h
    exact ⟨rfl, rfl⟩
  · obtain rfl := Option.some.inj h
    exact ⟨rfl, rfl⟩

theorem exec_vectors (hR : Elementary R) {op : Op}
    (hop : op ≠ .take ∧ (∀ x, op ≠ .ret x) ∧ op ≠ .reset)
    (hlevel : ∀ n level, op = .setIrqLevel n level →
      ∀ v, R (n + firstIrq) v { v with level := level })
    (hperm : ∀ offset size value, op = .write offset size value → (size = 4 → offset ≠ 0xd0c) →
      Footprint.Permits R offset size value)
    (h : op.exec s = some t) : t.numIrq = s.numIrq ∧ ∀ i, R i (s.vectors i) (t.vectors i) := by
  by_cases hgroup : ∃ value, op = .write 0xd0c 4 value
  · obtain ⟨value, rfl⟩ := hgroup
    obtain ⟨hnum, hvectors⟩ := aircr_vectors h
    rw [hvectors]
    exact ⟨hnum, fun i => hR.refl i _⟩
  · obtain ⟨u, hfoot, rfl | rfl⟩ := Footprint.exec hR hop hlevel (fun offset size value heq =>
      hperm offset size value heq fun hsize hoffset =>
        hgroup ⟨value, heq.trans (hsize ▸ hoffset ▸ rfl)⟩) h
    · exact ⟨hfoot.numIrq, hfoot.vectors⟩
    · exact ⟨hfoot.numIrq, hfoot.vectors⟩

theorem elementary_true : Elementary fun _ _ _ => True where
  refl _ _ := trivial
  trans _ _ := trivial
  pend _ _ := trivial
  unpend _ _ _ := trivial
  enable _ _ _ := trivial

theorem numIrq_exec {op : Op} (hop : op ≠ .take ∧ (∀ x, op ≠ .ret x) ∧ op ≠ .reset)
    (h : op.exec s = some t) : t.numIrq = s.numIrq := by
  refine (exec_vectors elementary_true hop (fun _ _ _ _ => trivial) ?_ h).1
  exact fun _ _ _ _ hgroup => ⟨fun _ _ _ _ _ _ => trivial, fun _ _ _ _ _ => trivial,
    fun _ _ _ _ _ _ => trivial, fun _ _ _ _ _ _ _ _ => trivial, hgroup⟩

theorem numIrq_step {op : Op} {out : List Empty} (hstep : controller.step s op out t) :
    t.numIrq = s.numIrq := by
  obtain ⟨-, hexec, -⟩ := hstep
  cases op with
  | take =>
    obtain ⟨-, rfl⟩ := exceptionTaken_eq hexec
    rfl
  | ret x => exact (exceptionExit_eq elementary_true hexec).1
  | reset =>
    obtain rfl := Option.some.inj hexec
    rfl
  | setIrqLevel | nmi | systick | write | interrupt | raise | loadFail | lazyfp | basepri | primask
  | faultmask =>
    exact numIrq_exec ⟨Op.noConfusion, fun _ => Op.noConfusion, Op.noConfusion⟩ hexec

theorem numIrq_run {tr : List (Event NvicState Op Empty)} (hrun : controller.Run s tr t) :
    t.numIrq = s.numIrq :=
  hrun.preserves (I := fun t => t.numIrq = s.numIrq) rfl fun hstep h => (numIrq_step hstep).trans h

section Fields

variable {α : Type} {g : VecInfo → α}
  (hg : ∀ v a p e, g { v with active := a, pending := p, enabled := e } = g v)

include hg

theorem elementary_field (irq : Nat) : Elementary fun i v v' => i = irq → g v' = g v where
  refl _ _ _ := rfl
  trans h h' hi := (h' hi).trans (h hi)
  pend _ v _ := hg v v.active true v.enabled
  unpend _ v _ _ := hg v v.active false v.enabled
  enable _ v e _ := hg v v.active v.pending e

theorem field_step (hirq : firstIrq ≤ irq) {op : Op} {out : List Empty}
    (hstep : controller.step s op out t) (hreset : op ≠ .reset)
    (hlevel : ∀ n level, op = .setIrqLevel n level → n + firstIrq = irq →
      ∀ v, g { v with level := level } = g v)
    (hprio : ∀ offset size value, op = .write offset size value → 0x400 ≤ offset → offset ≤ 0x5ef →
      ∀ v p, g { v with prio := p } = g v) : g (t.vectors irq) = g (s.vectors irq) := by
  obtain ⟨-, hexec, -⟩ := hstep
  by_cases htake : op = .take
  · subst htake
    obtain ⟨-, rfl⟩ := exceptionTaken_eq hexec
    change g (Function.update s.vectors s.vectpending _ irq) = _
    rw [Function.update_apply]
    split
    case isTrue heq =>
      rw [heq]
      exact hg _ true false _
    case isFalse => rfl
  by_cases hret : ∃ x, op = .ret x
  · obtain ⟨x, rfl⟩ := hret
    obtain ⟨-, -, hvectors⟩ := exceptionExit_eq (elementary_field hg irq) hexec
    rw [hvectors irq rfl, completed]
    split
    · exact hg _ false _ _
    · rfl
  · refine (exec_vectors (elementary_field hg irq) ⟨htake, not_exists.mp hret, hreset⟩
      (fun n level heq v hi => hlevel n level heq hi v) ?_ hexec).2 _ rfl
    exact fun offset size value heq hgroup => {
      clear := fun _ _ _ _ _ v _ => hg v v.active false v.enabled
      prio := fun hlow hhigh _ v p _ => hprio offset size value heq hlow hhigh v p
      system := fun _ _ _ _ _ hlt hi => absurd hlt (not_lt.mpr (hi ▸ hirq))
      handlers := fun _ _ _ v a p e _ _ => hg v a p e
      group := hgroup }

end Fields

end QemuBoard.Nvic
