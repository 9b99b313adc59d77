import QemuBoard.Board.Rendering
import QemuBoard.Library.Ranked

namespace QemuBoard.Board

open Library

variable {ρ : Type}

/-- One call of `memory_region_add_subregion_overlap`. -/
structure Mapping (ρ : Type) where
  offset : Nat
  priority : Int
  subregion : MemoryRegion ρ

def Mapping.placed (m : Mapping ρ) : MemoryRegion ρ := m.subregion.place m.offset m.priority

def Mapping.add (mr : MemoryRegion ρ) (m : Mapping ρ) : MemoryRegion ρ :=
  memoryRegionAddSubregionOverlap mr m.offset m.subregion m.priority

section Overlap

variable {f : Fields ρ} {terminates : Bool} {base a : Int} {attrs : Attributes}

theorem place_priority (mr : MemoryRegion ρ) (offset : Nat) (priority : Int) :
    (mr.place offset priority).fields.priority = priority := by
  cases mr <;> rfl

theorem resolveFirst_eq_findSome (subs : List (MemoryRegion ρ)) :
    resolveFirst a subs base attrs = subs.findSome? fun mr => resolve a mr base attrs := by
  induction subs with
  | nil => rfl
  | cons mr subs ih =>
    rw [resolveFirst, ih, List.findSome?_cons]
    cases resolve a mr base attrs <;> rfl

theorem foldl_add (subs : List (MemoryRegion ρ)) (mappings : List (Mapping ρ)) :
    mappings.foldl Mapping.add (.plain f terminates subs) =
      .plain f terminates
        ((mappings.map Mapping.placed).foldl (enlist fun mr => mr.fields.priority) subs) := by
  induction mappings generalizing subs with
  | nil => rfl
  | cons m mappings ih => exact ih _

/-- What is seen at an address of a container, whatever was mapped into it and in whatever
order: of the mappings that answer there, the one of the highest priority, and among equals
the one made last. -/
theorem mapped_resolve (before after : List (Mapping ρ)) (m : Mapping ρ) (t : Target ρ)
    (hrange : f.enabled ∧ (f.range base).Has a)
    (hm : resolve a m.placed (base + f.addr) (attrs.or f.attrs) = some t)
    (hbefore : ∀ m' ∈ before, resolve a m'.placed (base + f.addr) (attrs.or f.attrs) ≠ none →
      m'.priority ≤ m.priority)
    (hafter : ∀ m' ∈ after, resolve a m'.placed (base + f.addr) (attrs.or f.attrs) ≠ none →
      m'.priority < m.priority) :
    resolve a ((before ++ m :: after).foldl Mapping.add (.plain f terminates [])) base attrs =
      some t := by
  have hleads : Leads (fun mr => resolve a mr (base + f.addr) (attrs.or f.attrs)) m.placed
      (((before ++ m :: after).map Mapping.placed).foldl
        (enlist fun mr => mr.fields.priority) []) := by
    rw [List.map_append, List.map_cons]
    apply leads_enlisted
    · simpa [Mapping.placed, place_priority] using hbefore
    · simpa [Mapping.placed, place_priority] using hafter
  rw [foldl_add, resolve, if_pos hrange, resolveFirst_eq_findSome, hleads.findSome hm]
  rfl

/-- The SysTick registers are seen among those of the system, though they were mapped before. -/
theorem mapped_resolve_systick : resolve 0xe000e014
    (([⟨0xe0000000, -1, memoryRegionInitIo 0 0x100000⟩, ⟨0xe000e010, 1, memoryRegionInitIo 1 0xe0⟩,
        ⟨0xe000e000, 0, memoryRegionInitIo 2 0x1000⟩] : List (Mapping Nat)).foldl Mapping.add
      (memoryRegionInit 3 (2 ^ 64 - 1))) 0 {} = some ⟨1, 4, 0, true, {}⟩ :=
  mapped_resolve [⟨0xe0000000, -1, memoryRegionInitIo 0 0x100000⟩]
    [⟨0xe000e000, 0, memoryRegionInitIo 2 0x1000⟩] ⟨0xe000e010, 1, memoryRegionInitIo 1 0xe0⟩ _
    (by decide) (by decide) (by decide) (by decide)

end Overlap

section Root

variable {view : FlatView ρ} {mr next : MemoryRegion ρ} {f : Fields ρ} {base : Int} {clip : Span}
  {attrs : Attributes}

/-- One turn of the loop of `memory_region_get_flatview_root`. -/
inductive Descends : MemoryRegion ρ → MemoryRegion ρ → Prop
  | target {f : Fields ρ} {target : MemoryRegion ρ} (henabled : f.enabled = true)
      (hsize : f.size ≥ target.fields.size) : Descends (.alias f target 0) target
  | child {f : Fields ρ} {subs : List (MemoryRegion ρ)} {child : MemoryRegion ρ}
      (henabled : f.enabled = true) (honly : enabledChildren subs = [child])
      (haddr : child.fields.addr = 0) (hsize : f.size ≥ child.fields.size) :
      Descends (.plain f false subs) child

def renderInside (view : FlatView ρ) (mr : MemoryRegion ρ) (base : Int) (clip : Span)
    (attrs : Attributes) : Option (FlatView ρ) :=
  match mr with
  | .alias f target aliasOffset =>
    renderMemoryRegion view target (base + f.addr - target.fields.addr - aliasOffset) clip
      (attrs.or f.attrs)
  | .plain f terminates subregions => do
    let view ← renderSubregions view subregions (base + f.addr) clip (attrs.or f.attrs)
    renderContents view f terminates (base + f.addr) clip (attrs.or f.attrs)

theorem renderMemoryRegion_eq : renderMemoryRegion view mr base clip attrs =
    if mr.fields.enabled = false then some view
    else if addrrangeIntersects (mr.fields.range base) clip = false then some view
    else renderInside view mr base ((mr.fields.range base).meet clip) attrs := by
  cases mr <;> rw [renderMemoryRegion] <;> rfl

theorem render_disabled (h : mr.fields.enabled = false) :
    renderMemoryRegion view mr base clip attrs = some view := by
  rw [renderMemoryRegion_eq, if_pos h]

theorem renderSubregions_enabledChildren (subs : List (MemoryRegion ρ)) :
    renderSubregions view (enabledChildren subs) base clip attrs =
      renderSubregions view subs base clip attrs := by
  induction subs generalizing view with
  | nil => rfl
  | cons mr subs ih =>
    rw [enabledChildren, List.filter_cons]
    split
    case isTrue =>
      simp only [renderSubregions]
      congr 1
      funext view
      exact ih
    case isFalse hdisabled =>
      rw [renderSubregions, render_disabled (Bool.eq_false_iff.mpr hdisabled)]
      exact ih

theorem renderContents_empty {terminates : Bool}
    (hinter : addrrangeIntersects (f.range base) clip = true)
    (h : ((f.range base).meet clip).size = 0) :
    renderContents view f terminates (base + f.addr) ((f.range base).meet clip) attrs =
      some view := by
  cases terminates with
  | false => rfl
  | true => rw [renderContents_true hinter, h, fillGaps_zero]

theorem meet_empty {r1 r2 : Span} (hinter : addrrangeIntersects r1 r2 = true)
    (h : r2.size = 0) : (r1.meet r2).size = 0 := by
  rw [addrrangeIntersects_iff] at hinter
  simp only [Span.Has, Span.stop, Span.meet] at hinter ⊢
  omega

mutual

theorem renderMemoryRegion_empty (view : FlatView ρ) (mr : MemoryRegion ρ) (base : Int)
    (clip : Span) (attrs : Attributes)
    (h : addrrangeIntersects (mr.fields.range base) clip = true →
      ((mr.fields.range base).meet clip).size = 0) :
    renderMemoryRegion view mr base clip attrs = some view := by
  match mr with
  | .alias f target aliasOffset =>
    rw [renderMemoryRegion]
    split_ifs with _ hinter
    · rfl
    · rfl
    · have hempty := h (Bool.not_eq_false _ ▸ hinter)
      exact renderMemoryRegion_empty view target _ _ _ fun hinner => meet_empty hinner hempty
  | .plain f terminates subregions =>
    rw [renderMemoryRegion]
    split_ifs with _ hinter
    · rfl
    · rfl
    · have hinter : addrrangeIntersects (f.range base) clip = true := Bool.not_eq_false _ ▸ hinter
      apply Option.bind_eq_some_iff.mpr
      exact ⟨view, renderSubregions_empty view subregions _ _ _ (h hinter),
        renderContents_empty hinter (h hinter)⟩

theorem renderSubregions_empty (view : FlatView ρ) (subregions : List (MemoryRegion ρ))
    (base : Int) (clip : Span) (attrs : Attributes) (h : clip.size = 0) :
    renderSubregions view subregions base clip attrs = some view := by
  match subregions with
  | [] => rfl
  | subregion :: rest =>
    apply Option.bind_eq_some_iff.mpr
    exact ⟨view, renderMemoryRegion_empty view subregion base clip attrs fun hinter =>
      meet_empty hinter h, renderSubregions_empty view rest base clip attrs h⟩

end

theorem render_size_zero (h : mr.fields.size = 0) :
    renderMemoryRegion view mr base clip attrs = some view := by
  apply renderMemoryRegion_empty
  intro hinter
  rw [addrrangeIntersects_iff] at hinter
  simp only [Span.Has, Span.stop, Span.meet, Fields.range, h] at hinter ⊢
  omega

theorem render_within (haddr : f.addr = mr.fields.addr) (hsize : f.size ≥ mr.fields.size) :
    (if addrrangeIntersects (f.range base) clip = false then some view
      else renderMemoryRegion view mr base ((f.range base).meet clip) attrs) =
    renderMemoryRegion view mr base clip attrs := by
  by_cases hempty : f.size = 0
  · have hzero : mr.fields.size = 0 := by omega
    rw [render_size_zero hzero, render_size_zero hzero, ite_self]
  have hmeet : (mr.fields.range base).meet ((f.range base).meet clip) =
      (mr.fields.range base).meet clip := by
    simp only [Span.meet, Span.stop, Fields.range, Span.mk.injEq]
    omega
  have hinter : addrrangeIntersects (mr.fields.range base) clip = true ↔
      addrrangeIntersects (f.range base) clip = true ∧
        addrrangeIntersects (mr.fields.range base) ((f.range base).meet clip) = true := by
    simp only [addrrangeIntersects_iff, Span.Has, Span.meet, Span.stop, Fields.range]
    omega
  rw [renderMemoryRegion_eq, renderMemoryRegion_eq, hmeet]
  simp only [← Bool.not_eq_true, hinter]
  split_ifs <;> simp_all

theorem Descends.inside (h : Descends mr next) (haddr : mr.fields.addr = next.fields.addr)
    (hattrs : mr.fields.attrs = {}) :
    renderInside view mr base clip attrs = renderMemoryRegion view next base clip attrs := by
  have hor : attrs.or {} = attrs := by simp [Attributes.or]
  cases h with
  | @target f _ henabled hsize =>
    have haddr : f.addr = next.fields.addr := haddr
    have hattrs : f.attrs = {} := hattrs
    rw [renderInside, haddr, hattrs, hor]
    congr 1
    omega
  | @child f subs _ henabled honly hchild hsize =>
    have haddr : f.addr = next.fields.addr := haddr
    have hattrs : f.attrs = {} := hattrs
    rw [renderInside, ← renderSubregions_enabledChildren, honly, haddr, hchild, hattrs, hor]
    simp [renderSubregions, renderContents]

theorem Descends.render (h : Descends mr next) (haddr : mr.fields.addr = next.fields.addr)
    (hattrs : mr.fields.attrs = {}) :
    renderMemoryRegion view mr base clip attrs = renderMemoryRegion view next base clip attrs := by
  have hkept : mr.fields.enabled = true ∧ mr.fields.size ≥ next.fields.size := by
    cases h with
    | target henabled hsize => exact ⟨henabled, hsize⟩
    | child henabled _ _ hsize => exact ⟨henabled, hsize⟩
  rw [renderMemoryRegion_eq, hkept.1, if_neg (by decide), h.inside haddr hattrs,
    render_within haddr hkept.2]

def Passable (mr : MemoryRegion ρ) : Prop :=
  ∀ x y, Relation.ReflTransGen Descends mr x → Descends x y →
    x.fields.addr = y.fields.addr ∧ x.fields.attrs = {}

section Shared

variable [DecidableEq ρ]

theorem Passable.step (h : Passable mr) (hnext : Descends mr next) :
    Passable next ∧ generateMemoryTopology (some next) = generateMemoryTopology (some mr) := by
  obtain ⟨haddr, hattrs⟩ := h mr next .refl hnext
  refine ⟨fun x y hx hxy => h x y (.head hnext hx) hxy, ?_⟩
  rw [generateMemoryTopology, generateMemoryTopology, hnext.render haddr hattrs]

theorem topology_disabled (h : mr.fields.enabled = false) :
    generateMemoryTopology (some mr) = generateMemoryTopology none := by
  rw [generateMemoryTopology, generateMemoryTopology, render_disabled h]
  rfl

/-- Rendering an address space from the region further down that
`memory_region_get_flatview_root` finds, so that flat views are shared, gives what rendering it
from its own root would. -/
theorem shared_flatview (h : Passable mr) :
    generateMemoryTopology (memoryRegionGetFlatviewRoot mr) =
      generateMemoryTopology (some mr) := by
  fun_induction memoryRegionGetFlatviewRoot mr with
  | case1 f target off hdisabled =>
    symm
    apply topology_disabled
    exact hdisabled
  | case2 f target off henabled hwhole ih =>
    obtain ⟨rfl, hsize⟩ := hwhole
    obtain ⟨hpass, heq⟩ := h.step (.target (Bool.not_eq_false _ ▸ henabled) hsize)
    rw [ih hpass, heq]
  | case3 => rfl
  | case4 f terminates subs hdisabled =>
    symm
    apply topology_disabled
    exact hdisabled
  | case5 => rfl
  | case6 f terminates subs henabled hcontainer hnone =>
    -- without an enabled child there is nothing to see
    rw [Bool.not_eq_true] at hcontainer
    subst hcontainer
    simp only [generateMemoryTopology, renderMemoryRegion, ← renderSubregions_enabledChildren subs,
      hnone]
    split_ifs <;> rfl
  | case7 f terminates subs henabled hcontainer child honly hwhole ih =>
    rw [Bool.not_eq_true] at hcontainer
    subst hcontainer
    obtain ⟨hpass, heq⟩ := h.step (.child (Bool.not_eq_false _ ▸ henabled) honly hwhole.1 hwhole.2)
    rw [ih hpass, heq]
  | case8 => rfl
  | case9 => rfl

def wrapped : MemoryRegion Nat :=
  memoryRegionAddSubregion (memoryRegionInit 0 0x1000) 0 (memoryRegionInitIo 1 0x1000)

theorem passable_wrapped : Passable wrapped := by
  have hinner : ∀ y, ¬Descends ((memoryRegionInitIo 1 0x1000).place 0 0) y := by
    intro y h
    cases h
  have houter : ∀ y, Descends wrapped y → y = (memoryRegionInitIo 1 0x1000).place 0 0 := by
    rintro y h
    cases h with
    | child _ honly => exact (List.singleton_inj.mp honly).symm
  intro x y hx hxy
  rcases hx.cases_head with rfl | ⟨z, hz, hzx⟩
  · obtain rfl := houter y hxy
    exact ⟨rfl, rfl⟩
  · obtain rfl := houter z hz
    rcases hzx.cases_head with rfl | ⟨w, hw, -⟩
    · exact absurd hxy (hinner y)
    · exact absurd hw (hinner w)

theorem shared_flatview_wrapped : generateMemoryTopology (memoryRegionGetFlatviewRoot wrapped) =
    some [⟨1, 0, ⟨0, 0x1000⟩, 0, true, {}⟩] :=
  (shared_flatview passable_wrapped).trans (by decide)

end Shared

end Root

end QemuBoard.Board
