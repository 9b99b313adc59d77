import QemuBoard.Board.Dispatch
import QemuBoard.Board.Topology

namespace QemuBoard.Board

open Library

variable {ρ : Type} {d d' : AddressSpaceDispatch ρ} {t : Radix Nat} {f : Nat → Translation ρ}
  {n addr : Nat}

section Views

variable {view : FlatView ρ} {r : FlatRange ρ}

def Target.translation (x : Target ρ) : Translation ρ := ⟨.region x.mr, x.offset, x.attrs⟩

def FlatView.over (view : FlatView ρ) (f : Nat → Translation ρ) (addr : Nat) : Translation ρ :=
  ((view.lookup addr).map Target.translation).getD (f addr)

def FlatView.Bounded (view : FlatView ρ) : Prop :=
  ∀ r ∈ view, 0 ≤ r.addr.start ∧ r.addr.stop ≤ 2 ^ 64

theorem Faithful.bounded [DecidableEq ρ] {mr : MemoryRegion ρ}
    (h : Faithful mr view) : view.Bounded := by
  have hin : ∀ r ∈ view, ∀ a, r.addr.Has a → 0 ≤ a ∧ a < 2 ^ 64 := by
    intro r hr a ha
    have hlook := h.lookup a
    rw [FlatView.lookup, h.sorted.look_of_mem hr ha] at hlook
    by_contra hout
    rw [if_neg hout] at hlook
    exact absurd hlook (by simp)
  intro r hr
  have hsize := h.sorted.filled r hr
  have hfirst := hin r hr r.addr.start ⟨le_rfl, by rw [Span.stop]; omega⟩
  have hlast := hin r hr (r.addr.stop - 1) ⟨by rw [Span.stop]; omega, by omega⟩
  exact ⟨hfirst.1, by omega⟩

theorem sectionFromFlatRange_has (hbounded : 0 ≤ r.addr.start) (hsize : 0 < r.addr.size)
    (addr : Nat) :
    ((sectionFromFlatRange r).offsetWithinAddressSpace ≤ addr ∧
      addr < (sectionFromFlatRange r).offsetWithinAddressSpace + (sectionFromFlatRange r).size) ↔
      r.addr.Has addr := by
  simp only [sectionFromFlatRange, Span.Has, Span.stop]
  omega

theorem sectionFromFlatRange_translation (hbounded : 0 ≤ r.addr.start) :
    (sectionFromFlatRange r).translation addr = (r.target addr).translation := by
  simp only [MemoryRegionSection.translation, sectionFromFlatRange, Target.translation,
    FlatRange.target, Translation.mk.injEq, true_and, and_true]
  omega

theorem over_cons (hsorted : FlatView.Sorted (r :: view)) (hbounded : 0 ≤ r.addr.start) :
    FlatView.over view (shown f (sectionFromFlatRange r)) = FlatView.over (r :: view) f := by
  funext addr
  rw [FlatView.over, FlatView.over, shown, lookup_cons,
    if_congr (sectionFromFlatRange_has hbounded (hsorted.filled r List.mem_cons_self) addr) rfl rfl,
    sectionFromFlatRange_translation hbounded]
  split
  case isTrue hin =>
    have hnone : FlatView.lookup view addr = none := hsorted.look_tail hin.2
    rw [hnone]
    rfl
  case isFalse => rfl

theorem Built.addView (hsorted : view.Sorted) (hbounded : view.Bounded) (h : Built d t f)
    (hused : Used d t)
    (hfree : ∀ r ∈ view, ∀ addr : Nat, r.addr.Has addr → f addr = unassigned addr)
    (hlen : d.sections.length + 5 * view.length ≤ targetPageSize) :
    ∃ d' t', view.foldlM (fun d r => flatviewAddToDispatch d (sectionFromFlatRange r)) d = some d' ∧
      Built d' t' (view.over f) ∧ d'.sections.length ≤ targetPageSize := by
  induction view generalizing d t f with
  | nil => exact ⟨d, t, rfl, h, hlen⟩
  | cons r view ih =>
    rw [List.length_cons] at hlen
    have hstart := (hbounded r List.mem_cons_self).1
    have hstop := (hbounded r List.mem_cons_self).2
    obtain ⟨hsize, hafter, htail⟩ := Ascending.cons_iff.mp hsorted
    have hhas := sectionFromFlatRange_has hstart hsize
    have hadd : Addable f (sectionFromFlatRange r) := by
      refine ⟨⟨r.mr, rfl⟩, ?_, ?_, fun addr hlow hhigh =>
        hfree r List.mem_cons_self addr ((hhas addr).mp ⟨hlow, hhigh⟩)⟩
      · simp only [sectionFromFlatRange]
        omega
      · simp only [sectionFromFlatRange, Span.stop] at hstop ⊢
        omega
    obtain ⟨d₁, t₁, hcall, hbuilt, hused₁, hlen₁⟩ := h.add hused hadd (by omega)
    have hfree₁ : ∀ x ∈ view, ∀ addr : Nat, x.addr.Has addr →
        shown f (sectionFromFlatRange r) addr = unassigned addr := by
      intro x hx addr haddr
      have hle := hafter x hx
      rw [shown, if_neg]
      · exact hfree x (List.mem_cons_of_mem r hx) addr haddr
      · rw [hhas addr]
        exact fun hin => absurd (hle.trans haddr.1) (not_le.mpr hin.2)
    obtain ⟨d', t', hfold, hbuilt', hlen'⟩ :=
      ih htail (fun x hx => hbounded x (List.mem_cons_of_mem r hx)) hbuilt
      hused₁ hfree₁ (by omega)
    refine ⟨d', t', ?_, over_cons hsorted hstart ▸ hbuilt', hlen'⟩
    rw [List.foldlM_cons, hcall]
    exact hfold

end Views

theorem built_new (allocHint : Nat) :
    Built (addressSpaceDispatchNew (ρ := ρ) allocHint) .empty unassigned ∧
      Used (addressSpaceDispatchNew (ρ := ρ) allocHint) .empty := by
  have hsections : (addressSpaceDispatchNew (ρ := ρ) allocHint).sections = [dummySection] := rfl
  refine ⟨⟨⟨⟨∅, ⟨rfl, rfl⟩, fun m hm => absurd hm (Set.notMem_empty m)⟩, trivial, fun x => by simp,
    rfl⟩, rfl, Nat.one_pos, fun n hn => hn.elim, fun k hk => absurd hk (Nat.not_lt_zero k),
      fun addr haddr => ?_, ?_,
    Nat.zero_le _⟩, ?_⟩
  · change Shows dummySection addr _
    refine ⟨?_, Nat.zero_le _, (Nat.zero_add _).symm ▸ haddr⟩
    simp [MemoryRegionSection.translation, dummySection, unassigned]
  · intro s hs hregion
    rw [hsections, List.mem_singleton] at hs
    obtain ⟨mr, hmr⟩ := hregion
    exact absurd (hs ▸ hmr) (by simp [dummySection])
  · intro n k hpage
    have hlt : n < 1 := hpage.lt
    exact absurd (Nat.lt_one_iff.mp hlt) hpage.pos

/-- The compacted map goes wrong only where there is nothing, and `section_covers_addr` tells. -/
theorem Built.compact (h : Built d t f) (haddr : addr < 2 ^ 64) :
    physPageFind (addressSpaceDispatchCompact d) addr = pageOf t addr := by
  rw [addressSpaceDispatchCompact]
  split
  case isFalse => exact h.find haddr
  case isTrue =>
    obtain ⟨own, hrep, hbound⟩ := h.rep
    obtain ⟨own', hrep', -⟩ := compact_spec h.plain.fits le_rfl h.notLeaf hrep hbound
    have hwalk := walk_eq (d := { d with
      map := (physPageCompact pL2Levels d.map d.physMap).1
      physMap := (physPageCompact pL2Levels d.map d.physMap).2 }) addr hrep' h.plain.fits.compact
    rcases Radix.find_compact pL2Bits t pL2Levels (addr / targetPageSize) with hsame | ⟨hnone, hhas⟩
    · refine physPageFind_of_walk h haddr (hwalk.trans ?_) rfl
      rw [pageOf, pageOf, Radix.look, hsame]
      rfl
    · have hzero : pageOf t addr = physSectionUnassigned := by
        rw [pageOf, Radix.look, hnone]
        rfl
      rw [hzero, physPageFind, hwalk]
      dsimp only
      cases hfind : (t.compact pL2Bits).find pL2Bits pL2Levels (addr / targetPageSize) with
      | none =>
        have hempty : pageOf (t.compact pL2Bits) addr = physSectionUnassigned := by
          rw [pageOf, Radix.look, hfind]
          rfl
        rw [hempty, ite_self]
      | some x =>
        have hx : pageOf (t.compact pL2Bits) addr = x := by
          rw [pageOf, Radix.look, hfind]
          rfl
        rw [hx]
        rcases h.pages x (hhas x hfind) with rfl | hpage
        · exact ite_self _
        · have hother : ¬sectionCoversAddr (d.sectionAt x) addr := fun hcovers =>
            hpage.pos (((hpage.covers addr haddr).mp hcovers).symm.trans hzero)
          exact if_neg hother

structure Ready (d : AddressSpaceDispatch ρ) (t : Radix Nat) (f : Nat → Translation ρ) : Prop where
  mru : d.mruSection = none
  find : ∀ addr < 2 ^ 64, physPageFind d addr = pageOf t addr
  page : ∀ addr, pageOf t addr = physSectionUnassigned ∨ IsPage d t (pageOf t addr)
  dummy : d.sectionAt physSectionUnassigned = dummySection
  inner : ∀ addr k, (d.sectionAt (sectionNo d t addr)).mr ≠ .subpage k
  shows : ∀ addr < 2 ^ 64, Shows (d.sectionAt (sectionNo d t addr)) addr (f addr)
  whole : Whole d.sections f
  length : d.sections.length ≤ targetPageSize

theorem Built.ready (h : Built d t f) (hlen : d.sections.length ≤ targetPageSize) :
    Ready (addressSpaceDispatchCompact d) t f := by
  have hsections : (addressSpaceDispatchCompact d).sections = d.sections := by
    rw [addressSpaceDispatchCompact]
    split <;> rfl
  have hsubpages : (addressSpaceDispatchCompact d).subpages = d.subpages := by
    rw [addressSpaceDispatchCompact]
    split <;> rfl
  have hsectionAt : ∀ n, (addressSpaceDispatchCompact d).sectionAt n = d.sectionAt n := fun n => by
    rw [AddressSpaceDispatch.sectionAt, hsections]
    rfl
  have hsubpageAt : ∀ k, subpageAt (addressSpaceDispatchCompact d) k = subpageAt d k := fun k => by
    rw [subpageAt, hsubpages]
    rfl
  have hno : ∀ addr, sectionNo (addressSpaceDispatchCompact d) t addr = sectionNo d t addr :=
    fun addr => sectionNo_congr rfl (hsectionAt _) fun k _ => by rw [hsubpageAt]
  have hgrows : Grows d (addressSpaceDispatchCompact d) :=
    ⟨⟨[], by rw [hsections, List.append_nil]⟩, hsubpages ▸ le_rfl, fun k _ => by rw [hsubpageAt]⟩
  refine ⟨?_, fun addr => h.compact, fun addr => ?_, ?_, fun addr k => ?_, fun addr haddr => ?_, ?_,
    hsections ▸ hlen⟩
  · rw [addressSpaceDispatchCompact]
    split <;> exact h.mru
  · exact (h.page addr).imp_right fun hpage => hpage.grows hgrows fun _ _ => Iff.rfl
  · rw [hsectionAt, h.dummy]
  · rw [hno, hsectionAt]
    rcases h.region addr with hzero | ⟨-, mr, hmr⟩
    · rw [hzero, h.dummy]
      simp [dummySection]
    · rw [hmr]
      simp
  · rw [hno, hsectionAt]
    exact h.shows addr haddr
  · rw [hsections]
    exact h.whole

theorem ready_flatviewDispatch {view : FlatView ρ} (allocHint : Nat) (hsorted : view.Sorted)
    (hbounded : view.Bounded) (hlen : 5 * view.length < targetPageSize) :
    ∃ d t, flatviewDispatch allocHint view = some d ∧ Ready d t (view.over unassigned) := by
  obtain ⟨hbuilt, hused⟩ := built_new (ρ := ρ) allocHint
  have hone : (addressSpaceDispatchNew (ρ := ρ) allocHint).sections.length = 1 := rfl
  obtain ⟨d, t, hfold, hview, hlen'⟩ := hbuilt.addView hsorted hbounded hused (fun _ _ _ _ => rfl)
    (by omega)
  refine ⟨addressSpaceDispatchCompact d, t, ?_, hview.ready hlen'⟩
  rw [flatviewDispatch, hfold]
  rfl

section Lookups

def seen (mr : MemoryRegion ρ) (addr : Nat) : Translation ρ :=
  if addr < 2 ^ 64 then ((resolve addr mr 0 {}).map Target.translation).getD (unassigned addr)
  else unassigned addr

theorem Faithful.over [DecidableEq ρ] {mr : MemoryRegion ρ} {view : FlatView ρ}
    (h : Faithful mr view) :
    view.over unassigned = seen mr := by
  funext addr
  rw [FlatView.over, seen, h.lookup addr]
  by_cases haddr : addr < 2 ^ 64
  · rw [if_pos haddr, if_pos ⟨Int.natCast_nonneg addr, by omega⟩]
  · rw [if_neg haddr, if_neg (by omega)]
    rfl

theorem ready_topology [DecidableEq ρ] {mr : MemoryRegion ρ} {view : FlatView ρ} (allocHint : Nat)
    (hview : generateMemoryTopology (some mr) = some view) (hlen : view.length ≤ 204) :
    ∃ d t, flatviewDispatch allocHint view = some d ∧ Ready d t (seen mr) := by
  have hfaithful := faithful_topology hview
  have hsections : 5 * view.length < targetPageSize := by
    have : targetPageSize = 1024 := rfl
    omega
  obtain ⟨d, t, hdispatch, hready⟩ :=
    ready_flatviewDispatch allocHint hfaithful.sorted hfaithful.bounded hsections
  exact ⟨d, t, hdispatch, hfaithful.over ▸ hready⟩

/-- Threads that look up addresses in one dispatch, without a lock. `found` is what a thread has
found in the map and not yet stored in `mru_section`. -/
structure Lookups (τ ρ : Type) where
  dispatch : AddressSpaceDispatch ρ
  found : τ → Option Nat

inductive LookupOp (τ : Type)
  | translate (i : τ) (addr plen : Nat) (resolveSubpage : Bool)
  | store (i : τ)

variable {τ : Type} [DecidableEq τ]

/-- A translation depends on `mru_section` as it was when the thread read it. -/
def LookupOp.exec (isRam : ρ → Bool) : LookupOp τ → Action (Lookups τ ρ) (Translation ρ × Nat) Unit
  | .translate i addr plen resolveSubpage => fun s =>
    some ((), { s with found := Function.update s.found i (lookupSection s.dispatch addr).2 },
      [(addressSpaceTranslateInternal isRam s.dispatch addr plen resolveSubpage).1])
  | .store i => fun s => (s.found i).map fun n =>
    ((), ⟨{ s.dispatch with mruSection := some n }, Function.update s.found i none⟩, [])

/-- A thread stores what it has found before it looks up the next address. -/
def LookupOp.Enabled (s : Lookups τ ρ) : LookupOp τ → Prop
  | .translate i addr _ _ => s.found i = none ∧ addr < 2 ^ 64
  | .store _ => True

def lookups (isRam : ρ → Bool) : System (Lookups τ ρ) (LookupOp τ) (Translation ρ × Nat) :=
  .ofActions (fun s op => op.Enabled s) (LookupOp.exec isRam)

variable {isRam : ρ → Bool} {m : Option Nat} {s s' : Lookups τ ρ}

def Serves (d : AddressSpaceDispatch ρ) (t : Radix Nat) (m : Option Nat) : Prop :=
  ∀ n, m = some n → n = physSectionUnassigned ∨ IsPage d t n

structure Consistent (d : AddressSpaceDispatch ρ) (t : Radix Nat) (s : Lookups τ ρ) : Prop where
  dispatch : s.dispatch = { d with mruSection := s.dispatch.mruSection }
  mru : Serves d t s.dispatch.mruSection
  found : ∀ i, Serves d t (s.found i)

theorem Ready.lookupSection (h : Ready d t f) (hserves : Serves d t m) (haddr : addr < 2 ^ 64) :
    (lookupSection { d with mruSection := m } addr).1 = pageOf t addr ∧
      Serves d t (Board.lookupSection { d with mruSection := m } addr).2 := by
  have hfind : physPageFind { d with mruSection := m } addr = pageOf t addr := h.find addr haddr
  rw [Board.lookupSection]
  split
  case h_1 n hhit =>
    obtain ⟨hm, hcovers⟩ := Option.filter_eq_some_iff.mp hhit
    obtain ⟨hpos, hcovers⟩ := of_decide_eq_true hcovers
    have hpage := (hserves n hm).resolve_left hpos
    exact ⟨((hpage.covers addr haddr).mp hcovers).symm, nofun⟩
  case h_2 =>
    rw [hfind]
    exact ⟨rfl, fun n hn => Option.some.inj hn ▸ h.page addr⟩

theorem Consistent.update (h : Consistent d t s) (i : τ) (hserves : Serves d t m) (j : τ) :
    Serves d t (Function.update s.found i m j) := by
  by_cases hj : j = i
  · subst hj
    rw [Function.update_self]
    exact hserves
  · rw [Function.update_of_ne hj]
    exact h.found j

theorem Consistent.step (hready : Ready d t f) (h : Consistent d t s) {op : LookupOp τ}
    {out : List (Translation ρ × Nat)} (hstep : (lookups isRam).step s op out s') :
    Consistent d t s' := by
  obtain ⟨henabled, hexec⟩ := hstep
  cases op with
  | translate i addr plen resolveSubpage =>
    obtain ⟨rfl, -⟩ := (Prod.mk.inj (Prod.mk.inj (Option.some.inj hexec)).2)
    have hserves := (hready.lookupSection h.mru henabled.2).2
    rw [← h.dispatch] at hserves
    exact ⟨h.dispatch, h.mru, h.update i hserves⟩
  | store i =>
    obtain ⟨n, hfound, hs'⟩ := Option.map_eq_some_iff.mp hexec
    obtain ⟨rfl, -⟩ := (Prod.mk.inj (Prod.mk.inj hs').2)
    exact ⟨by rw [h.dispatch], fun x hx => Option.some.inj hx ▸ h.found i n hfound,
      h.update i nofun⟩

/-- What a lookup is to answer. A subpage is seen only by those who ask for it, and hands the access
to the same address. The length of an access to RAM ends before what is seen changes. -/
structure Answers (isRam : ρ → Bool) (f : Nat → Translation ρ) (subpages : List Subpage)
    (addr plen : Nat) (resolveSubpage : Bool) (answer : Translation ρ × Nat) : Prop where
  seen : (∀ k, answer.1.mr ≠ .subpage k) → answer.1 = f addr
  subpage : ∀ k, answer.1.mr = .subpage k → resolveSubpage = false ∧
    ∃ p, subpages[k]? = some p ∧ p.base + answer.1.xlat = addr
  bound : answer.2 ≤ plen
  ram : ∀ mr, answer.1.mr = .region mr → isRam mr = true → (0 < plen → 0 < answer.2) ∧
    ∀ k < answer.2, f (addr + k) = { answer.1 with xlat := answer.1.xlat + k }
  io : (∀ mr, answer.1.mr = .region mr → isRam mr = false) → answer.2 = plen

theorem Answers.eq_seen {subpages : List Subpage} {plen : Nat} {answer : Translation ρ × Nat}
    (h : Answers isRam f subpages addr plen true answer) : answer.1 = f addr :=
  h.seen fun k hk => absurd (h.subpage k hk).1 (by decide)

theorem sectionAt_mem {mr : ρ} (h : (d.sectionAt n).mr = .region mr) :
    d.sectionAt n ∈ d.sections := by
  rw [AddressSpaceDispatch.sectionAt, List.getD_eq_getElem?_getD] at h ⊢
  cases hget : d.sections[n]? with
  | none =>
    rw [hget] at h
    exact absurd h (by simp [dummySection])
  | some s => exact List.mem_of_getElem? hget

theorem clamp_eq {s : MemoryRegionSection ρ} {addr plen : Nat}
    (h : ∀ mr, s.mr = .region mr → isRam mr = false) :
    s.clamp isRam addr plen = plen := by
  rw [MemoryRegionSection.clamp]
  split
  case h_1 mr hmr => rw [if_neg (by simp [h mr hmr])]
  case h_2 => rfl
  case h_3 => rfl

theorem clamp_ram {s : MemoryRegionSection ρ} {addr plen : Nat} {mr : ρ} (h : s.mr = .region mr)
    (hram : isRam mr = true) :
    s.clamp isRam addr plen = min (s.size - (addr - s.offsetWithinAddressSpace)) plen := by
  rw [MemoryRegionSection.clamp, h]
  exact if_pos hram

theorem Ready.answers_section (h : Ready d t f) (haddr : addr < 2 ^ 64) (plen : Nat)
    (resolveSubpage : Bool) :
    Answers isRam f d.subpages addr plen resolveSubpage
      ((d.sectionAt (sectionNo d t addr)).translation addr,
        (d.sectionAt (sectionNo d t addr)).clamp isRam addr plen) := by
  have hshows := h.shows addr haddr
  have hstart := hshows.start
  have hstop := hshows.stop
  refine ⟨fun _ => hshows.translation, fun k hk => absurd hk (h.inner addr k), ?_,
    fun mr hmr hram => ?_, clamp_eq⟩
  · rw [MemoryRegionSection.clamp]
    split
    case h_1 => split_ifs <;> simp
    case h_2 => exact le_rfl
    case h_3 => exact le_rfl
  · rw [clamp_ram hmr hram]
    refine ⟨fun hpos => by simp only [lt_min_iff]; omega, fun k hk => ?_⟩
    rw [(h.whole _ (sectionAt_mem hmr) ⟨mr, hmr⟩).2 (addr + k) (by omega)
      (by simp only [lt_min_iff] at hk; omega)]
    simp only [MemoryRegionSection.translation, Translation.mk.injEq, true_and, and_true]
    push_cast
    omega

theorem Ready.answers (h : Ready d t f) (haddr : addr < 2 ^ 64) (plen : Nat)
    (resolveSubpage : Bool) :
    Answers isRam f d.subpages addr plen resolveSubpage
      ((d.sectionAt (resolveSection d addr resolveSubpage (pageOf t addr))).translation addr,
        (d.sectionAt (resolveSection d addr resolveSubpage (pageOf t addr))).clamp isRam addr
          plen) := by
  by_cases hsub : resolveSubpage = false ∧ ∃ k, (d.sectionAt (pageOf t addr)).mr = .subpage k
  · obtain ⟨rfl, k, hmr⟩ := hsub
    have hpage : IsPage d t (pageOf t addr) := by
      refine (h.page addr).resolve_left fun hzero => ?_
      rw [hzero, h.dummy] at hmr
      exact absurd hmr (by simp [dummySection])
    have hisSub := hpage.subpage hmr
    have hsection : resolveSection d addr false (pageOf t addr) = pageOf t addr := rfl
    have hclamp : (d.sectionAt (pageOf t addr)).clamp isRam addr plen = plen :=
      clamp_eq fun mr hregion => absurd (hmr.symm.trans hregion) (by simp)
    rw [hsection, hclamp]
    refine ⟨fun hnot => absurd hmr (hnot k), fun k' hk' => ⟨rfl, subpageAt d k, ?_, ?_⟩, le_rfl,
      fun mr hregion => absurd (hmr.symm.trans hregion) (by simp), fun _ => rfl⟩
    · obtain rfl : k = k' := SectionMr.subpage.inj (hmr.symm.trans hk')
      rw [List.getElem?_eq_getElem hisSub.lt, subpageAt, List.getD_eq_getElem?_getD,
        List.getElem?_eq_getElem hisSub.lt]
      rfl
    · rw [hisSub.sectionAt]
      simp [MemoryRegionSection.translation]
  · have hsection : resolveSection d addr resolveSubpage (pageOf t addr) = sectionNo d t addr := by
      unfold resolveSection sectionNo
      cases resolveSubpage with
      | true =>
        cases (d.sectionAt (pageOf t addr)).mr <;> rfl
      | false =>
        cases hmr : (d.sectionAt (pageOf t addr)).mr with
        | subpage k => exact absurd ⟨rfl, k, hmr⟩ hsub
        | unassigned => rfl
        | region mr => rfl
    rw [hsection]
    exact h.answers_section haddr plen resolveSubpage

theorem Ready.translate (h : Ready d t f) (hserves : Serves d t m) (haddr : addr < 2 ^ 64)
    (plen : Nat) (resolveSubpage : Bool) :
    (addressSpaceTranslateInternal isRam { d with mruSection := m } addr plen resolveSubpage).1 =
      ((d.sectionAt (resolveSection d addr resolveSubpage (pageOf t addr))).translation addr,
        (d.sectionAt (resolveSection d addr resolveSubpage (pageOf t addr))).clamp isRam addr
          plen) := by
  rw [← (h.lookupSection hserves haddr).1]
  rfl

theorem Ready.answers_translate (h : Ready d t f) (haddr : addr < 2 ^ 64) (plen : Nat)
    (resolveSubpage : Bool) :
    Answers isRam f d.subpages addr plen resolveSubpage
      (addressSpaceTranslateInternal isRam d addr plen resolveSubpage).1 := by
  have hserves : Serves d t d.mruSection := fun _ hn => absurd (h.mru.symm.trans hn) nofun
  rw [h.translate (m := d.mruSection) hserves haddr]
  exact h.answers haddr plen resolveSubpage

/-- The dispatch of a flat view of at most 204 ranges is made without a failed assertion: even five
sections for each leave a number for all. Whatever order any number of threads look addresses up
in it in, and whatever sections they leave in `mru_section`, each lookup is answered as if it
were the first, with what the tree shows. -/
theorem translations_agree [DecidableEq ρ] (isRam : ρ → Bool) {mr : MemoryRegion ρ}
    {view : FlatView ρ} (allocHint : Nat) (hview : generateMemoryTopology (some mr) = some view)
    (hlen : view.length ≤ 204) :
    ∃ d, flatviewDispatch allocHint view = some d ∧
      ∀ {tr : List (Event (Lookups τ ρ) (LookupOp τ) (Translation ρ × Nat))} {s : Lookups τ ρ},
        (lookups isRam).Run ⟨d, fun _ => none⟩ tr s →
        ∀ e ∈ tr, ∀ i addr plen resolveSubpage, e.op = .translate i addr plen resolveSubpage →
          e.out = [(addressSpaceTranslateInternal isRam d addr plen resolveSubpage).1] ∧
          Answers isRam (seen mr) d.subpages addr plen resolveSubpage
            (addressSpaceTranslateInternal isRam d addr plen resolveSubpage).1 := by
  obtain ⟨d, t, hdispatch, hready⟩ := ready_topology allocHint hview hlen
  refine ⟨d, hdispatch, fun {tr s} hrun e he i addr plen resolveSubpage hop => ?_⟩
  have hinit : Consistent d t (⟨d, fun _ => none⟩ : Lookups τ ρ) :=
    ⟨rfl, fun _ hn => absurd (hready.mru.symm.trans hn) nofun, fun _ => nofun⟩
  obtain ⟨hpre, s', hstep⟩ := hrun.events hinit (fun hstep h => h.step hready hstep) he
  rw [hop] at hstep
  obtain ⟨⟨-, haddr⟩, hexec⟩ := hstep
  obtain ⟨-, hout⟩ := (Prod.mk.inj (Prod.mk.inj (Option.some.inj hexec)).2)
  refine ⟨?_, hready.answers_translate haddr plen resolveSubpage⟩
  rw [← hout, hpre.dispatch, hready.translate hpre.mru haddr,
    ← hready.translate (m := d.mruSection) hinit.mru haddr]

theorem translations_agree_devices : ∃ d,
    flatviewDispatch 0 (memoryMap 0) = some d ∧
      ∃ tr s, (lookups fun _ => false).Run (⟨d, fun _ => none⟩ : Lookups Cpu Region) tr s ∧
        tr.map Event.out = [[(⟨.region .uart0, 4, {}⟩, 4)], [(⟨.region .can1, 40, {}⟩, 2)]] := by
  have hview : generateMemoryTopology (some (armv7mContainer 0)) = some (memoryMap 0) := by
    rw [← cpuView_eq_rendered, cpuView_eq]
  obtain ⟨d, hdispatch, hagree⟩ :=
    translations_agree (τ := Cpu) (fun _ => false) 0 hview (by decide)
  have hstep : ∀ (s : Lookups Cpu Region) i addr plen, s.found i = none → addr < 2 ^ 64 →
      (lookups fun _ => false).step s (.translate i addr plen true) _ _ :=
    fun _ _ _ _ hfound haddr => ⟨⟨hfound, haddr⟩, rfl⟩
  have hrun := System.Run.snoc
    (.snoc .nil (hstep ⟨d, fun _ => none⟩ 0 (uart0Ba + 4) 4 rfl (by decide)))
    (hstep _ 1 (can1Ba + 40) 2 rfl (by decide))
  obtain ⟨-, hanswers₁⟩ := hagree hrun _ (List.mem_cons_self ..) _ _ _ _ rfl
  obtain ⟨-, hanswers₂⟩ := hagree hrun _ (List.mem_cons_of_mem _ (List.mem_cons_self ..))
    _ _ _ _ rfl
  refine ⟨d, hdispatch, _, _, hrun, ?_⟩
  have hseen₁ : seen (armv7mContainer 0) (uart0Ba + 4) =
    ⟨.region .uart0, 4, {}⟩ := by decide +kernel
  have hseen₂ : seen (armv7mContainer 0) (can1Ba + 40) =
    ⟨.region .can1, 40, {}⟩ := by decide +kernel
  have hplen₁ := hanswers₁.io fun _ _ => rfl
  have hplen₂ := hanswers₂.io fun _ _ => rfl
  simp [Prod.ext_iff, hanswers₁.eq_seen, hanswers₂.eq_seen, hseen₁, hseen₂, hplen₁, hplen₂]

end Lookups

end QemuBoard.Board
