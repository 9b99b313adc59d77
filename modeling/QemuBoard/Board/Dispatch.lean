import QemuBoard.Board.PhysMap
import QemuBoard.Board.Rendering
import QemuBoard.Library.Trace

/-! How an address of an address space is looked up, `system/physmem.c`: the sections of a flat
view in the map of pages, pages that several sections share, and the section that was used last. -/

namespace QemuBoard.Board

open Library

variable {ρ : Type}

/-- The `mr` of a section: `io_mem_unassigned`, a `subpage_t`, or a region of the address space. -/
inductive SectionMr (ρ : Type)
  | unassigned
  | subpage (k : Nat)
  | region (mr : ρ)
  deriving DecidableEq

structure MemoryRegionSection (ρ : Type) where
  mr : SectionMr ρ
  offsetWithinAddressSpace : Nat
  offsetWithinRegion : Int
  size : Nat
  attrs : Attributes
  deriving DecidableEq

structure Subpage where
  base : Nat
  subSection : Nat → Nat

/-- `sections` and `subpages` are what `map` holds besides its nodes, and `allocHint` is the
static variable of `phys_map_node_reserve`. -/
structure AddressSpaceDispatch (ρ : Type) where
  mruSection : Option Nat
  physMap : PhysPageEntry
  map : PhysPageMap
  sections : List (MemoryRegionSection ρ)
  subpages : List Subpage
  allocHint : Nat

def targetPageSize : Nat := 2 ^ targetPageBits

def dummySection : MemoryRegionSection ρ := ⟨.unassigned, 0, 0, 2 ^ 64, {}⟩

namespace AddressSpaceDispatch

def sectionAt (d : AddressSpaceDispatch ρ) (n : Nat) : MemoryRegionSection ρ :=
  d.sections.getD n dummySection

end AddressSpaceDispatch

def sectionCoversAddr (s : MemoryRegionSection ρ) (addr : Nat) : Prop :=
  s.size ≥ 2 ^ 64 ∨ s.offsetWithinAddressSpace ≤ addr ∧
    addr ≤ s.offsetWithinAddressSpace + s.size - 1

instance (s : MemoryRegionSection ρ) (addr : Nat) : Decidable (sectionCoversAddr s addr) :=
  inferInstanceAs (Decidable (_ ∨ _))

def physPageFind (d : AddressSpaceDispatch ρ) (addr : Nat) : Nat :=
  let n := physPageWalk d.map (addr >>> targetPageBits) (pL2Levels + 1) pL2Levels d.physMap
  if sectionCoversAddr (d.sectionAt n) addr then n else physSectionUnassigned

def physPageSet (d : AddressSpaceDispatch ρ) (index nb leaf : Nat) :
    Option (AddressSpaceDispatch ρ) := do
  let (allocHint, map) := physMapNodeReserve d.allocHint d.map (3 * pL2Levels)
  let (map, physMap, _, _) ← physPageSetLevel leaf (pL2Levels - 1) map d.physMap index nb
  return { d with allocHint, map, physMap }

/-- Fails where the assertion does. -/
def physSectionAdd (d : AddressSpaceDispatch ρ) (s : MemoryRegionSection ρ) :
    Option (Nat × AddressSpaceDispatch ρ) :=
  if d.sections.length < targetPageSize then
    some (d.sections.length, { d with sections := d.sections ++ [s] })
  else
    none

def subpageRegister (d : AddressSpaceDispatch ρ) (k start stop n : Nat) : AddressSpaceDispatch ρ :=
  if start ≥ targetPageSize ∨ stop ≥ targetPageSize then
    d
  else
    { d with
      subpages := d.subpages.modify k fun mmio => { mmio with
        subSection := fun idx => if start ≤ idx ∧ idx ≤ stop then n else mmio.subSection idx } }

def subpageInit (base : Nat) : Subpage := ⟨base, fun _ => physSectionUnassigned⟩

/-- The branch of `register_subpage` for a page without a subpage. -/
def subpageInstall (d : AddressSpaceDispatch ρ) (base : Nat) : Option (AddressSpaceDispatch ρ) := do
  let k := d.subpages.length
  let d := { d with subpages := d.subpages ++ [subpageInit base] }
  let (n, d) ← physSectionAdd d ⟨.subpage k, base, 0, targetPageSize, {}⟩
  physPageSet d (base >>> targetPageBits) 1 n

def subpageFill (d : AddressSpaceDispatch ρ) (k : Nat) (s : MemoryRegionSection ρ) :
    Option (AddressSpaceDispatch ρ) := do
  let start := s.offsetWithinAddressSpace % targetPageSize
  let (n, d) ← physSectionAdd d s
  return subpageRegister d k start (start + s.size - 1) n

def registerSubpage (d : AddressSpaceDispatch ρ) (s : MemoryRegionSection ρ) :
    Option (AddressSpaceDispatch ρ) :=
  let base := s.offsetWithinAddressSpace / targetPageSize * targetPageSize
  match (d.sectionAt (physPageFind d base)).mr with
  | .unassigned => do
    let d' ← subpageInstall d base
    subpageFill d' d.subpages.length s
  | .subpage k => subpageFill d k s
  -- the assertion
  | .region _ => none

def registerMultipage (d : AddressSpaceDispatch ρ) (s : MemoryRegionSection ρ) :
    Option (AddressSpaceDispatch ρ) := do
  let (n, d) ← physSectionAdd d s
  let numPages := s.size >>> targetPageBits
  if numPages = 0 then
    none
  else
    physPageSet d (s.offsetWithinAddressSpace >>> targetPageBits) numPages n

namespace MemoryRegionSection

def take (s : MemoryRegionSection ρ) (size : Nat) : MemoryRegionSection ρ := { s with size }

def drop (s : MemoryRegionSection ρ) (size : Nat) : MemoryRegionSection ρ :=
  { s with
    size := s.size - size
    offsetWithinAddressSpace := s.offsetWithinAddressSpace + size
    offsetWithinRegion := s.offsetWithinRegion + size }

end MemoryRegionSection

/-- The whole pages of a section and what is left after them. -/
def registerPages (d : AddressSpaceDispatch ρ) (remain : MemoryRegionSection ρ) :
    Option (AddressSpaceDispatch ρ) :=
  if remain.size ≥ targetPageSize then do
    let now := remain.take (remain.size / targetPageSize * targetPageSize)
    let d ← registerMultipage d now
    if remain.size = now.size then
      return d
    else
      registerSubpage d (remain.drop now.size)
  else
    registerSubpage d remain

def flatviewAddToDispatch (d : AddressSpaceDispatch ρ) (s : MemoryRegionSection ρ) :
    Option (AddressSpaceDispatch ρ) :=
  if s.offsetWithinAddressSpace % targetPageSize ≠ 0 then do
    let left := targetPageSize - s.offsetWithinAddressSpace % targetPageSize
    let now := s.take (min left s.size)
    let d ← registerSubpage d now
    if s.size = now.size then
      return d
    else
      registerPages d (s.drop now.size)
  else
    registerPages d s

def addressSpaceDispatchNew (allocHint : Nat) : AddressSpaceDispatch ρ where
  mruSection := none
  physMap := ⟨1, physMapNodeNil⟩
  map := ⟨0, 0, fun _ _ => ⟨0, 0⟩⟩
  sections := [dummySection]
  subpages := []
  allocHint

def addressSpaceDispatchCompact (d : AddressSpaceDispatch ρ) : AddressSpaceDispatch ρ :=
  if d.physMap.skip ≠ 0 then
    let (map, physMap) := physPageCompact pL2Levels d.map d.physMap
    { d with map, physMap }
  else
    d

def sectionFromFlatRange (r : FlatRange ρ) : MemoryRegionSection ρ :=
  ⟨.region r.mr, r.addr.start.toNat, r.offsetInRegion, r.addr.size.toNat, r.attrs⟩

/-- The end of `generate_memory_topology`. -/
def flatviewDispatch (allocHint : Nat) (view : FlatView ρ) : Option (AddressSpaceDispatch ρ) := do
  let d ← view.foldlM (fun d r => flatviewAddToDispatch d (sectionFromFlatRange r))
    (addressSpaceDispatchNew allocHint)
  return addressSpaceDispatchCompact d

def subpageAt (d : AddressSpaceDispatch ρ) (k : Nat) : Subpage := d.subpages.getD k ⟨0, fun _ => 0⟩

def mruHit (d : AddressSpaceDispatch ρ) (addr : Nat) : Option Nat :=
  d.mruSection.filter fun n => n ≠ physSectionUnassigned ∧ sectionCoversAddr (d.sectionAt n) addr

def resolveSection (d : AddressSpaceDispatch ρ) (addr : Nat) (resolveSubpage : Bool)
    (n : Nat) : Nat :=
  match resolveSubpage, (d.sectionAt n).mr with
  | true, .subpage k => (subpageAt d k).subSection (addr % targetPageSize)
  | _, _ => n

/-- The section of the page of an address, and what is to be stored as the one used last. -/
def lookupSection (d : AddressSpaceDispatch ρ) (addr : Nat) : Nat × Option Nat :=
  match mruHit d addr with
  | some n => (n, none)
  | none => (physPageFind d addr, some (physPageFind d addr))

def addressSpaceLookupRegion (d : AddressSpaceDispatch ρ) (addr : Nat) (resolveSubpage : Bool) :
    Nat × AddressSpaceDispatch ρ :=
  let (n, store) := lookupSection d addr
  (resolveSection d addr resolveSubpage n, { d with mruSection := store.or d.mruSection })

structure Translation (ρ : Type) where
  mr : SectionMr ρ
  xlat : Int
  attrs : Attributes
  deriving DecidableEq

namespace MemoryRegionSection

def translation (s : MemoryRegionSection ρ) (addr : Nat) : Translation ρ :=
  ⟨s.mr, addr - s.offsetWithinAddressSpace + s.offsetWithinRegion, s.attrs⟩

def clamp (isRam : ρ → Bool) (s : MemoryRegionSection ρ) (addr plen : Nat) : Nat :=
  match s.mr with
  | .region mr => if isRam mr then min (s.size - (addr - s.offsetWithinAddressSpace)) plen else plen
  | .unassigned | .subpage _ => plen

end MemoryRegionSection

def addressSpaceTranslateInternal (isRam : ρ → Bool) (d : AddressSpaceDispatch ρ) (addr plen : Nat)
    (resolveSubpage : Bool) : (Translation ρ × Nat) × AddressSpaceDispatch ρ :=
  let (n, d) := addressSpaceLookupRegion d addr resolveSubpage
  let s := d.sectionAt n
  ((s.translation addr, s.clamp isRam addr plen), d)

variable {d d' : AddressSpaceDispatch ρ} {t : Radix Nat} {n addr : Nat}

section Pages

abbrev pageOf (t : Radix Nat) (addr : Nat) : Nat :=
  t.look pL2Bits physSectionUnassigned pL2Levels (addr / targetPageSize)

structure MapOk (d : AddressSpaceDispatch ρ) (t : Radix Nat) : Prop where
  rep : ∃ own, Rep d.map.nodes t d.physMap own ∧ ∀ m ∈ own, m < d.map.nodesNb
  plain : PlainPages pL2Levels t
  notLeaf : ∀ x, t ≠ .leaf x
  mru : d.mruSection = none

theorem walk_eq {own : Set Nat} (addr : Nat) (hrep : Rep d.map.nodes t d.physMap own)
    (hfits : t.Fits pL2Bits pL2Levels) :
    physPageWalk d.map (addr >>> targetPageBits) (pL2Levels + 1) pL2Levels d.physMap =
      pageOf t addr := by
  rw [physPageWalk_eq hrep hfits (Nat.lt_succ_self _), Nat.shiftRight_eq_div_pow]
  rfl

theorem physMapNodeReserve_spec (allocHint : Nat) (map : PhysPageMap) (nodes : Nat) :
    (physMapNodeReserve allocHint map nodes).2.nodes = map.nodes ∧
      (physMapNodeReserve allocHint map nodes).2.nodesNb = map.nodesNb ∧
      map.nodesNb + nodes ≤ (physMapNodeReserve allocHint map nodes).2.nodesNbAlloc := by
  rw [physMapNodeReserve]
  split
  case isTrue => exact ⟨rfl, rfl, le_max_right ..⟩
  case isFalse hroom => exact ⟨rfl, rfl, by simpa using hroom⟩

theorem physPageSet_spec {index nb leaf : Nat} (h : MapOk d t)
    (hroom : d.map.nodesNb + 3 * pL2Levels ≤ physMapNodeNil) (hnil : leaf ≠ physMapNodeNil)
    (hleaf : leaf ≠ physSectionUnassigned) (hnb : 0 < nb) (hend : index + nb ≤ pageSpan pL2Levels)
    (hfree : ∀ p, index ≤ p → p < index + nb →
      t.look pL2Bits physSectionUnassigned pL2Levels p = physSectionUnassigned) :
    ∃ d' t', physPageSet d index nb leaf = some d' ∧ MapOk d' t' ∧
      (∀ p < pageSpan pL2Levels, t'.look pL2Bits physSectionUnassigned pL2Levels p =
        if index ≤ p ∧ p < index + nb then leaf
          else t.look pL2Bits physSectionUnassigned pL2Levels p) ∧
      (∀ x, t'.Has pL2Bits x → x = leaf ∨ x = physSectionUnassigned ∨ t.Has pL2Bits x) ∧
      d'.sections = d.sections ∧ d'.subpages = d.subpages ∧
      d'.map.nodesNb ≤ d.map.nodesNb + 11 := by
  obtain ⟨own, hrep, hbound⟩ := h.rep
  obtain ⟨hnodes, hnodesNb, halloc⟩ := physMapNodeReserve_spec d.allocHint d.map (3 * pL2Levels)
  have hlevels : pL2Levels - 1 + 1 = pL2Levels := by decide
  have heleven : 2 * (pL2Levels - 1) + 1 = 11 := by decide
  have hroom' : 11 ≤ 3 * pL2Levels := by decide
  have hallocs : t.allocsNode pL2Bits physSectionUnassigned index (index + nb) (pL2Levels - 1) 0 ≤
      2 * (pL2Levels - 1) + 1 := Radix.allocsNode_le
  have hplain := h.plain
  have hfree' : FreePages index (index + nb) pL2Levels 0 t :=
    fun p _ _ hlow hhigh => hfree p hlow hhigh
  rw [← hlevels] at hplain hfree' hend
  have hblock : Block index (index + nb) (pL2Levels - 1 + 1) 0 :=
    ⟨Nat.dvd_zero _, by omega, by omega, by omega⟩
  obtain ⟨map', physMap', own', hcall, hrep', hchange⟩ := setLevel_spec hnil (pL2Levels - 1)
    (hnodes.symm ▸ hrep) (hnodesNb.symm ▸ hbound) hplain h.notLeaf hfree' hblock (by omega)
  rw [Nat.max_zero, Nat.add_sub_cancel_left] at hcall
  have hset : physPageSet d index nb leaf = some { d with
      allocHint := (physMapNodeReserve d.allocHint d.map (3 * pL2Levels)).1, map := map',
        physMap := physMap' } := by
    simp only [physPageSet, hcall, Option.bind_eq_bind, Option.bind_some]
    rfl
  have hlook : ∀ p < pageSpan (pL2Levels - 1 + 1), _ := fun p hp =>
    Radix.look_fillNode (a := leaf) hplain (Nat.dvd_zero _)
      (by omega : index < index + nb) hfree' h.notLeaf
      (Nat.zero_le p) ((Nat.zero_add _).symm ▸ hp)
  have hbound' := hchange.bound (hnodesNb.symm ▸ hbound)
  have hnb' := hchange.nodesNb
  refine ⟨_, _, hset, ⟨⟨own', hrep', hbound'⟩, ?_, fun x => by simp [Radix.fillNode], h.mru⟩,
    ?_, fun x hx => hx.fillNode, rfl, rfl, ?_⟩
  · rw [← hlevels]
    exact hplain.fillNode hleaf
  · rw [← hlevels]
    exact hlook
  · change map'.nodesNb ≤ _
    omega

end Pages

section Sections

def sectionNo (d : AddressSpaceDispatch ρ) (t : Radix Nat) (addr : Nat) : Nat :=
  match (d.sectionAt (pageOf t addr)).mr with
  | .subpage k => (subpageAt d k).subSection (addr % targetPageSize)
  | .unassigned | .region _ => pageOf t addr

def unassigned (addr : Nat) : Translation ρ := ⟨.unassigned, addr, {}⟩

structure IsSubpage (d : AddressSpaceDispatch ρ) (t : Radix Nat) (n k : Nat) : Prop where
  sectionAt : d.sectionAt n = ⟨.subpage k, (subpageAt d k).base, 0, targetPageSize, {}⟩
  lt : k < d.subpages.length
  base : (subpageAt d k).base < 2 ^ 64
  pageOf : pageOf t (subpageAt d k).base = n
  only : ∀ addr < 2 ^ 64, Board.pageOf t addr = n →
    addr / targetPageSize = (subpageAt d k).base / targetPageSize

theorem IsSubpage.mr {k : Nat} (h : IsSubpage d t n k) : (d.sectionAt n).mr = .subpage k := by
  rw [h.sectionAt]

/-- The section is one that pages have: it covers those that have it and no other. -/
structure IsPage (d : AddressSpaceDispatch ρ) (t : Radix Nat) (n : Nat) : Prop where
  pos : n ≠ physSectionUnassigned
  lt : n < d.sections.length
  covers : ∀ addr < 2 ^ 64, sectionCoversAddr (d.sectionAt n) addr ↔ pageOf t addr = n
  mr : (∃ mr, (d.sectionAt n).mr = .region mr) ∨ ∃ k, IsSubpage d t n k

/-- The section is the one for an address, where `x` is seen. -/
structure Shows (s : MemoryRegionSection ρ) (addr : Nat) (x : Translation ρ) : Prop where
  translation : s.translation addr = x
  start : s.offsetWithinAddressSpace ≤ addr
  stop : addr < s.offsetWithinAddressSpace + s.size

def Whole (sections : List (MemoryRegionSection ρ)) (f : Nat → Translation ρ) : Prop :=
  ∀ s ∈ sections, (∃ mr, s.mr = .region mr) →
    0 < s.size ∧ ∀ addr, s.offsetWithinAddressSpace ≤ addr →
    addr < s.offsetWithinAddressSpace + s.size → f addr = s.translation addr

/-- The dispatch of an address space under construction, that shows `f`. -/
structure Built (d : AddressSpaceDispatch ρ) (t : Radix Nat) (f : Nat → Translation ρ) : Prop
    extends MapOk d t where
  dummy : d.sectionAt physSectionUnassigned = dummySection
  nonempty : physSectionUnassigned < d.sections.length
  pages : ∀ n, t.Has pL2Bits n → n = physSectionUnassigned ∨ IsPage d t n
  inner : ∀ k < d.subpages.length, ∀ idx, (subpageAt d k).subSection idx = physSectionUnassigned ∨
    (subpageAt d k).subSection idx < d.sections.length ∧
      ∃ mr, (d.sectionAt ((subpageAt d k).subSection idx)).mr = .region mr
  shows : ∀ addr < 2 ^ 64, Shows (d.sectionAt (sectionNo d t addr)) addr (f addr)
  whole : Whole d.sections f
  nodes : d.map.nodesNb ≤ 11 * d.sections.length

def Used (d : AddressSpaceDispatch ρ) (t : Radix Nat) : Prop :=
  ∀ n k, IsPage d t n → (d.sectionAt n).mr = .subpage k →
    ∃ idx < targetPageSize, (subpageAt d k).subSection idx ≠ physSectionUnassigned

variable {f : Nat → Translation ρ}

theorem Built.page (h : Built d t f) (addr : Nat) :
    pageOf t addr = physSectionUnassigned ∨ IsPage d t (pageOf t addr) := by
  by_cases hzero : pageOf t addr = physSectionUnassigned
  · exact .inl hzero
  · refine h.pages _ ?_
    have hfound : t.find pL2Bits pL2Levels (addr / targetPageSize) = some (pageOf t addr) := by
      unfold pageOf Radix.look at *
      cases hfind : t.find pL2Bits pL2Levels (addr / targetPageSize) with
      | none => rw [hfind] at hzero; exact absurd rfl hzero
      | some x => rfl
    exact Radix.has_of_find hfound

theorem physPageFind_of_walk (h : Built d t f) (haddr : addr < 2 ^ 64)
    (hwalk : physPageWalk d'.map (addr >>> targetPageBits) (pL2Levels + 1) pL2Levels d'.physMap =
      pageOf t addr) (hsections : d'.sections = d.sections) :
    physPageFind d' addr = pageOf t addr := by
  have hcovers : sectionCoversAddr (d'.sectionAt (pageOf t addr)) addr := by
    have hsame : d'.sectionAt (pageOf t addr) = d.sectionAt (pageOf t addr) := by
      rw [AddressSpaceDispatch.sectionAt, hsections]
      rfl
    rw [hsame]
    rcases h.page addr with hzero | hpage
    · rw [hzero, h.dummy]
      exact .inl le_rfl
    · exact (hpage.covers addr haddr).mpr rfl
  rw [physPageFind, hwalk]
  exact if_pos hcovers

theorem Built.find (h : Built d t f) (haddr : addr < 2 ^ 64) :
    physPageFind d addr = pageOf t addr := by
  obtain ⟨own, hrep, -⟩ := h.rep
  exact physPageFind_of_walk h haddr (walk_eq addr hrep h.plain.fits) rfl

theorem Built.region (h : Built d t f) (addr : Nat) : sectionNo d t addr = physSectionUnassigned ∨
    sectionNo d t addr < d.sections.length ∧
      ∃ mr, (d.sectionAt (sectionNo d t addr)).mr = .region mr := by
  rcases h.page addr with hzero | hpage
  · left
    rw [sectionNo, hzero, h.dummy]
    rfl
  · rcases hpage.mr with ⟨mr, hmr⟩ | ⟨k, hsub⟩
    · have hno : sectionNo d t addr = pageOf t addr := by rw [sectionNo, hmr]
      rw [hno]
      exact .inr ⟨hpage.lt, mr, hmr⟩
    · have hno : sectionNo d t addr = (subpageAt d k).subSection (addr % targetPageSize) := by
        rw [sectionNo, hsub.mr]
      rw [hno]
      exact h.inner k hsub.lt _

theorem Built.free (h : Built d t f) (haddr : addr < 2 ^ 64) (hfree : f addr = unassigned addr) :
    sectionNo d t addr = physSectionUnassigned := by
  refine (h.region addr).resolve_right fun ⟨_, mr, hmr⟩ => ?_
  have hshows := congrArg Translation.mr ((h.shows addr haddr).translation.trans hfree)
  rw [MemoryRegionSection.translation, hmr] at hshows
  exact absurd hshows (by simp [unassigned])

structure Grows (d d' : AddressSpaceDispatch ρ) : Prop where
  sections : ∃ ext, d'.sections = d.sections ++ ext
  subpages : d.subpages.length ≤ d'.subpages.length
  base : ∀ k < d.subpages.length, (subpageAt d' k).base = (subpageAt d k).base

theorem Grows.sectionAt (h : Grows d d') (hn : n < d.sections.length) :
    d'.sectionAt n = d.sectionAt n := by
  obtain ⟨ext, hext⟩ := h.sections
  rw [AddressSpaceDispatch.sectionAt, AddressSpaceDispatch.sectionAt, hext,
    List.getD_eq_getElem?_getD, List.getD_eq_getElem?_getD, List.getElem?_append_left hn]

theorem Grows.length (h : Grows d d') : d.sections.length ≤ d'.sections.length := by
  obtain ⟨ext, hext⟩ := h.sections
  rw [hext, List.length_append]
  exact Nat.le_add_right ..

theorem IsPage.subpage {k : Nat} (h : IsPage d t n) (hmr : (d.sectionAt n).mr = .subpage k) :
    IsSubpage d t n k := by
  rcases h.mr with ⟨mr, hregion⟩ | ⟨k', hsub⟩
  · exact absurd (hmr.symm.trans hregion) (by simp)
  · obtain rfl : k = k' := SectionMr.subpage.inj (hmr.symm.trans hsub.mr)
    exact hsub

theorem IsPage.grows {t' : Radix Nat} (h : IsPage d t n) (hgrows : Grows d d')
    (hpage : ∀ addr < 2 ^ 64, pageOf t' addr = n ↔ pageOf t addr = n) : IsPage d' t' n := by
  have hsame := hgrows.sectionAt h.lt
  refine ⟨h.pos, h.lt.trans_le hgrows.length, fun addr haddr => ?_, ?_⟩
  · rw [hsame, h.covers addr haddr, hpage addr haddr]
  · rcases h.mr with hregion | ⟨k, hsub⟩
    · exact .inl (hsame ▸ hregion)
    · have hbase := hgrows.base k hsub.lt
      refine .inr ⟨k, by rw [hsame, hbase, hsub.sectionAt], hsub.lt.trans_le hgrows.subpages,
        hbase ▸ hsub.base, ?_, ?_⟩
      · rw [hbase, hpage _ hsub.base]
        exact hsub.pageOf
      · intro addr haddr hn
        rw [hbase]
        exact hsub.only addr haddr ((hpage addr haddr).mp hn)

theorem Built.room (h : Built d t f) (hlen : d.sections.length ≤ targetPageSize) :
    d.map.nodesNb + 3 * pL2Levels ≤ physMapNodeNil := by
  have hnodes := h.nodes
  have hpage : targetPageSize = 1024 := by decide
  have hlevels : pL2Levels = 6 := by decide
  have hnil : physMapNodeNil = 67108863 := by decide
  omega

def shown (f : Nat → Translation ρ) (s : MemoryRegionSection ρ) (addr : Nat) : Translation ρ :=
  if s.offsetWithinAddressSpace ≤ addr ∧ addr < s.offsetWithinAddressSpace + s.size then
    s.translation addr
  else
    f addr

structure Addable (f : Nat → Translation ρ) (s : MemoryRegionSection ρ) : Prop where
  region : ∃ mr, s.mr = .region mr
  pos : 0 < s.size
  stop : s.offsetWithinAddressSpace + s.size ≤ 2 ^ 64
  free : ∀ addr, s.offsetWithinAddressSpace ≤ addr → addr < s.offsetWithinAddressSpace + s.size →
    f addr = unassigned addr

theorem Addable.whole {sections : List (MemoryRegionSection ρ)} {s : MemoryRegionSection ρ}
    (h : Addable f s) (hwhole : Whole sections f) : Whole (sections ++ [s]) (shown f s) := by
  intro x hx hregion
  rcases List.mem_append.mp hx with hold | hnew
  · obtain ⟨hpos, hseen⟩ := hwhole x hold hregion
    refine ⟨hpos, fun addr hlow hhigh => ?_⟩
    obtain ⟨mr, hmr⟩ := hregion
    rw [shown, if_neg]
    · exact hseen addr hlow hhigh
    · -- nothing was seen where the new section is
      intro hin
      have hfree := congrArg Translation.mr ((h.free addr hin.1 hin.2).symm.trans
        (hseen addr hlow hhigh))
      exact absurd (hfree.trans hmr) (by simp [unassigned])
  · rw [List.mem_singleton.mp hnew]
    exact ⟨h.pos, fun addr hlow hhigh => if_pos ⟨hlow, hhigh⟩⟩

theorem sectionNo_congr {t' : Radix Nat} (hpage : pageOf t' addr = pageOf t addr)
    (hsection : d'.sectionAt (pageOf t addr) = d.sectionAt (pageOf t addr))
    (hsub : ∀ k, (d.sectionAt (pageOf t addr)).mr = .subpage k →
      (subpageAt d' k).subSection (addr % targetPageSize) =
        (subpageAt d k).subSection (addr % targetPageSize)) :
    sectionNo d' t' addr = sectionNo d t addr := by
  rw [sectionNo, sectionNo, hpage, hsection]
  split
  case h_1 k hmr => exact hsub k hmr
  case h_2 => rfl
  case h_3 => rfl

theorem Built.seen {t' : Radix Nat} (h : Built d t f) (haddr : addr < 2 ^ 64) (hgrows : Grows d d')
    (hpage : pageOf t' addr = pageOf t addr)
    (hsub : ∀ k, (d.sectionAt (pageOf t addr)).mr = .subpage k →
      (subpageAt d' k).subSection (addr % targetPageSize) =
        (subpageAt d k).subSection (addr % targetPageSize)) :
    Shows (d'.sectionAt (sectionNo d' t' addr)) addr (f addr) := by
  have hlt : pageOf t addr < d.sections.length := by
    rcases h.page addr with hzero | hpage
    · exact hzero ▸ h.nonempty
    · exact hpage.lt
  have hlt' : sectionNo d t addr < d.sections.length := by
    rcases h.region addr with hzero | hregion
    · exact hzero ▸ h.nonempty
    · exact hregion.1
  rw [sectionNo_congr hpage (hgrows.sectionAt hlt) hsub, hgrows.sectionAt hlt']
  exact h.shows addr haddr

theorem pageSize_pos : 0 < targetPageSize := by decide

theorem Built.freePage {p : Nat} (h : Built d t f) (hused : Used d t)
    (hend : p * targetPageSize + targetPageSize ≤ 2 ^ 64)
    (hfree : ∀ idx < targetPageSize, f (p * targetPageSize + idx) =
      unassigned (p * targetPageSize + idx)) :
    t.look pL2Bits physSectionUnassigned pL2Levels p = physSectionUnassigned := by
  have hpage : ∀ idx < targetPageSize, pageOf t (p * targetPageSize + idx) =
      t.look pL2Bits physSectionUnassigned pL2Levels p := by
    intro idx hidx
    rw [pageOf, Nat.add_comm, Nat.add_mul_div_right _ _ pageSize_pos, Nat.div_eq_of_lt hidx,
      Nat.zero_add]
  have hmod : ∀ idx < targetPageSize, (p * targetPageSize + idx) % targetPageSize = idx := by
    intro idx hidx
    rw [Nat.add_comm, Nat.add_mul_mod_self_right, Nat.mod_eq_of_lt hidx]
  have hno : ∀ idx < targetPageSize, sectionNo d t (p * targetPageSize + idx) =
      physSectionUnassigned :=
    fun idx hidx => h.free (by omega) (hfree idx hidx)
  rw [← hpage 0 pageSize_pos]
  refine (h.page _).resolve_right fun hisPage => ?_
  rcases hisPage.mr with ⟨mr, hmr⟩ | ⟨k, hsub⟩
  · have hsame : sectionNo d t (p * targetPageSize + 0) = pageOf t (p * targetPageSize + 0) := by
      rw [sectionNo, hmr]
    exact hisPage.pos (hsame.symm.trans (hno 0 pageSize_pos))
  · have hmr := hsub.mr
    obtain ⟨idx, hidx, hne⟩ := hused _ k hisPage hmr
    rw [hpage 0 pageSize_pos] at hmr
    have hsame : sectionNo d t (p * targetPageSize + idx) = (subpageAt d k).subSection idx := by
      rw [sectionNo, hpage idx hidx, hmr, hmod idx hidx]
    exact hne (hsame.symm.trans (hno idx hidx))

theorem physSectionAdd_eq (hlen : d.sections.length < targetPageSize) (s : MemoryRegionSection ρ) :
    physSectionAdd d s = some (d.sections.length, { d with sections := d.sections ++ [s] }) :=
  if_pos hlen

theorem sectionAt_last {s : MemoryRegionSection ρ} (h : d'.sections = d.sections ++ [s]) :
    d'.sectionAt d.sections.length = s := by
  rw [AddressSpaceDispatch.sectionAt, h]
  simp

structure OfPages (s : MemoryRegionSection ρ) (lo nb : Nat) : Prop where
  start : s.offsetWithinAddressSpace = lo * targetPageSize
  size : s.size = nb * targetPageSize
  pos : 0 < nb
  stop : lo + nb ≤ pageSpan pL2Levels

theorem OfPages.has {s : MemoryRegionSection ρ} {lo nb : Nat} (h : OfPages s lo nb) (addr : Nat) :
    (lo ≤ addr / targetPageSize ∧ addr / targetPageSize < lo + nb) ↔
      s.offsetWithinAddressSpace ≤ addr ∧ addr < s.offsetWithinAddressSpace + s.size := by
  have hpage : targetPageSize = 1024 := by decide
  rw [h.start, h.size, hpage]
  omega

theorem OfPages.covers {s : MemoryRegionSection ρ} {lo nb : Nat} (h : OfPages s lo nb)
    (haddr : addr < 2 ^ 64) : sectionCoversAddr s addr ↔
      lo ≤ addr / targetPageSize ∧ addr / targetPageSize < lo + nb := by
  have hpage : targetPageSize = 1024 := by decide
  have hspan : pageSpan pL2Levels = 2 ^ 54 := by decide
  have hpos := h.pos
  have hstop := h.stop
  rw [sectionCoversAddr, h.start, h.size, hpage]
  omega

structure PageAdded (d : AddressSpaceDispatch ρ) (t : Radix Nat) (s : MemoryRegionSection ρ)
    (subpages : List Subpage) (lo nb : Nat) (d' : AddressSpaceDispatch ρ) (t' : Radix Nat) : Prop
    extends MapOk d' t' where
  pageOf : ∀ addr < 2 ^ 64, pageOf t' addr =
    if lo ≤ addr / targetPageSize ∧ addr / targetPageSize < lo + nb then d.sections.length
    else pageOf t addr
  sections : d'.sections = d.sections ++ [s]
  subpages : d'.subpages = subpages
  has : ∀ x, t'.Has pL2Bits x → x = d.sections.length ∨ x = physSectionUnassigned ∨ t.Has pL2Bits x
  nodes : d'.map.nodesNb ≤ 11 * d'.sections.length

theorem Built.addPage {s : MemoryRegionSection ρ} {lo nb : Nat} (h : Built d t f)
    (subpages : List Subpage) (hs : OfPages s lo nb) (hlen : d.sections.length < targetPageSize)
    (hfree : ∀ p, lo ≤ p → p < lo + nb →
      t.look pL2Bits physSectionUnassigned pL2Levels p = physSectionUnassigned) :
    ∃ d' t',
      physPageSet { d with sections := d.sections ++ [s], subpages } lo nb d.sections.length =
        some d' ∧ PageAdded d t s subpages lo nb d' t' := by
  have hpage : targetPageSize = 1024 := by decide
  have hspan : pageSpan pL2Levels = 2 ^ 54 := by decide
  have hnil : physMapNodeNil = 67108863 := by decide
  have hmap : MapOk { d with sections := d.sections ++ [s], subpages } t :=
    ⟨h.rep, h.plain, h.notLeaf, h.mru⟩
  obtain ⟨d', t', hset, hmap', hlook, hhas, hsections, hsubpages, hnodes⟩ :=
    physPageSet_spec hmap (h.room hlen.le) (by omega) (Nat.ne_of_gt h.nonempty) hs.pos hs.stop hfree
  refine ⟨d', t', hset, hmap', fun addr haddr => hlook _ (by rw [hspan, hpage]; omega), hsections,
    hsubpages, hhas, ?_⟩
  have hold := h.nodes
  rw [hsections, List.length_append, List.length_singleton]
  exact hnodes.trans (by simp only; omega)

section Added

variable {s : MemoryRegionSection ρ} {subpages : List Subpage} {lo nb : Nat} {t' : Radix Nat}

theorem PageAdded.length (h : PageAdded d t s subpages lo nb d' t') :
    d'.sections.length = d.sections.length + 1 := by
  simp [h.sections]

theorem PageAdded.subpageAt_old {k : Nat} (h : PageAdded d t s subpages lo nb d' t')
    (hsub : d.subpages <+: subpages) (hk : k < d.subpages.length) :
    subpageAt d' k = subpageAt d k := by
  obtain ⟨ext, rfl⟩ := hsub
  rw [subpageAt, subpageAt, h.subpages, List.getD_eq_getElem?_getD, List.getD_eq_getElem?_getD,
    List.getElem?_append_left hk]

theorem PageAdded.subpageAt_fresh {x : Subpage}
    (h : PageAdded d t s (d.subpages ++ [x]) lo nb d' t') :
    subpageAt d' d.subpages.length = x := by
  rw [subpageAt, h.subpages]
  simp

theorem PageAdded.grows (h : PageAdded d t s subpages lo nb d' t')
    (hsub : d.subpages <+: subpages) : Grows d d' := by
  refine ⟨⟨[s], h.sections⟩, ?_, fun k hk => by rw [h.subpageAt_old hsub hk]⟩
  rw [h.subpages]
  exact hsub.length_le

theorem PageAdded.old (h : PageAdded d t s subpages lo nb d' t') (hgrows : Grows d d')
    (hfree : ∀ p, lo ≤ p → p < lo + nb →
      t.look pL2Bits physSectionUnassigned pL2Levels p = physSectionUnassigned)
    (hpage : IsPage d t n) : IsPage d' t' n := by
  refine hpage.grows hgrows fun addr haddr => ?_
  rw [h.pageOf addr haddr]
  split
  case isTrue hin =>
    rw [Board.pageOf, hfree _ hin.1 hin.2]
    exact iff_of_false (fun heq => absurd hpage.lt (heq ▸ lt_irrefl _)) fun heq =>
      hpage.pos heq.symm
  case isFalse => rfl

theorem PageAdded.covers (h : PageAdded d t s subpages lo nb d' t') (hs : OfPages s lo nb)
    (hlt : ∀ addr, Board.pageOf t addr < d.sections.length) (haddr : addr < 2 ^ 64) :
    sectionCoversAddr (d'.sectionAt d.sections.length) addr ↔
      Board.pageOf t' addr = d.sections.length := by
  rw [sectionAt_last h.sections, hs.covers haddr, h.pageOf addr haddr]
  split
  case isTrue hin => exact iff_of_true hin rfl
  case isFalse hout => exact iff_of_false hout (hlt addr).ne

theorem Built.pageOf_lt (h : Built d t f) (addr : Nat) : pageOf t addr < d.sections.length := by
  rcases h.page addr with hzero | hpage
  · exact hzero ▸ h.nonempty
  · exact hpage.lt

theorem PageAdded.subpage {k : Nat} (h : PageAdded d t s subpages lo nb d' t')
    (hbuilt : Built d t f)
    (hgrows : Grows d d') (hpage : IsPage d' t' n) (hsub : (d'.sectionAt n).mr = .subpage k) :
    n = d.sections.length ∨ IsPage d t n ∧ (d.sectionAt n).mr = .subpage k := by
  have hisSub := hpage.subpage hsub
  have hpageOf := h.pageOf _ hisSub.base
  rw [hisSub.pageOf] at hpageOf
  split_ifs at hpageOf
  · exact .inl hpageOf
  · have hold : IsPage d t n := hpageOf ▸ (hbuilt.page _).resolve_left (hpageOf ▸ hpage.pos)
    exact .inr ⟨hold, hgrows.sectionAt hold.lt ▸ hsub⟩

theorem PageAdded.built {f' : Nat → Translation ρ} (h : PageAdded d t s subpages lo nb d' t')
    (hbuilt : Built d t f) (hgrows : Grows d d')
    (hfree : ∀ p, lo ≤ p → p < lo + nb →
      t.look pL2Bits physSectionUnassigned pL2Levels p = physSectionUnassigned)
    (hnew : IsPage d' t' d.sections.length)
    (hinner : ∀ k < d'.subpages.length, (k < d.subpages.length ∧ subpageAt d' k = subpageAt d k) ∨
      ∀ idx, (subpageAt d' k).subSection idx = physSectionUnassigned)
    (hshows : ∀ addr < 2 ^ 64, Shows (d'.sectionAt (sectionNo d' t' addr)) addr (f' addr))
    (hwhole : Whole (d.sections ++ [s]) f') : Built d' t' f' := by
  refine ⟨h.toMapOk, ?_, hbuilt.nonempty.trans_le hgrows.length, ?_, ?_, hshows,
    h.sections ▸ hwhole, h.nodes⟩
  · rw [hgrows.sectionAt hbuilt.nonempty]
    exact hbuilt.dummy
  · intro x hx
    rcases h.has x hx with rfl | hzero | hold
    · exact .inr hnew
    · exact .inl hzero
    · exact (hbuilt.pages x hold).imp_right (h.old hgrows hfree)
  · intro k hk idx
    rcases hinner k hk with ⟨hk', hsame⟩ | hempty
    · rw [hsame]
      refine (hbuilt.inner k hk' idx).imp_right fun ⟨hlt, hregion⟩ =>
        ⟨hlt.trans_le hgrows.length, ?_⟩
      rw [hgrows.sectionAt hlt]
      exact hregion
    · exact .inl (hempty idx)

end Added

theorem Built.freePages {s : MemoryRegionSection ρ} {lo nb : Nat} (h : Built d t f)
    (hused : Used d t) (hadd : Addable f s) (hs : OfPages s lo nb) (p : Nat) (hlow : lo ≤ p)
    (hhigh : p < lo + nb) :
    t.look pL2Bits physSectionUnassigned pL2Levels p = physSectionUnassigned := by
  have hpage : targetPageSize = 1024 := by decide
  have hspan : pageSpan pL2Levels = 2 ^ 54 := by decide
  have hstop := hs.stop
  refine h.freePage hused (by rw [hpage]; omega) fun idx hidx => ?_
  have hdiv : (p * targetPageSize + idx) / targetPageSize = p := by
    rw [hpage] at hidx ⊢
    omega
  have hin := (hs.has (p * targetPageSize + idx)).mp (by rw [hdiv]; exact ⟨hlow, hhigh⟩)
  exact hadd.free _ hin.1 hin.2

theorem Built.multipage {s : MemoryRegionSection ρ} {lo nb : Nat} (h : Built d t f)
    (hused : Used d t) (hadd : Addable f s) (hs : OfPages s lo nb)
    (hlen : d.sections.length < targetPageSize) :
    ∃ d' t', registerMultipage d s = some d' ∧ Built d' t' (shown f s) ∧ Used d' t' ∧
      d'.sections.length = d.sections.length + 1 := by
  have hfree := h.freePages hused hadd hs
  obtain ⟨d', t', hset, hadded⟩ := h.addPage d.subpages hs hlen hfree
  have hgrows := hadded.grows (List.prefix_refl _)
  have hlast := sectionAt_last hadded.sections
  obtain ⟨mr, hmr⟩ := hadd.region
  have hnew : IsPage d' t' d.sections.length := by
    refine ⟨Nat.ne_of_gt h.nonempty, by rw [hadded.length]; omega,
      fun addr haddr => hadded.covers hs h.pageOf_lt haddr, ?_⟩
    rw [hlast]
    exact .inl ⟨mr, hmr⟩
  have hsubpage : ∀ k, subpageAt d' k = subpageAt d k := fun k => by
    rw [subpageAt, subpageAt, hadded.subpages]
  refine ⟨d', t', ?_, hadded.built h hgrows hfree hnew
    (fun k hk => .inl ⟨by rwa [hadded.subpages] at hk, hsubpage k⟩) ?_ (hadd.whole h.whole), ?_,
    hadded.length⟩
  · have hindex : s.offsetWithinAddressSpace >>> targetPageBits = lo := by
      rw [Nat.shiftRight_eq_div_pow, hs.start]
      exact Nat.mul_div_cancel lo pageSize_pos
    have hpages : s.size >>> targetPageBits = nb := by
      rw [Nat.shiftRight_eq_div_pow, hs.size]
      exact Nat.mul_div_cancel nb pageSize_pos
    simp only [registerMultipage, physSectionAdd_eq hlen, Option.bind_eq_bind, Option.bind_some,
      hindex, hpages, hs.pos.ne', if_false]
    exact hset
  · intro addr haddr
    have hpageOf := hadded.pageOf addr haddr
    rw [shown, if_congr (hs.has addr).symm rfl rfl]
    split_ifs at hpageOf ⊢ with hin
    · have hno : sectionNo d' t' addr = d.sections.length := by
        rw [sectionNo, hpageOf, hlast, hmr]
      rw [hno, hlast]
      exact ⟨rfl, ((hs.has addr).mp hin).1, ((hs.has addr).mp hin).2⟩
    · exact h.seen haddr hgrows hpageOf fun k _ => by rw [hsubpage]
  · intro x k hpage hsub
    rcases hadded.subpage h hgrows hpage hsub with rfl | ⟨hold, hsub⟩
    · rw [hlast, hmr] at hsub
      exact absurd hsub (by simp)
    · rw [hsubpage]
      exact hused x k hold hsub

def UsedBut (k : Nat) (d : AddressSpaceDispatch ρ) (t : Radix Nat) : Prop :=
  ∀ n k', IsPage d t n → (d.sectionAt n).mr = .subpage k' → k' ≠ k →
    ∃ idx < targetPageSize, (subpageAt d k').subSection idx ≠ physSectionUnassigned

theorem Built.isPage {k : Nat} (h : Built d t f)
    (hmr : (d.sectionAt (pageOf t addr)).mr = .subpage k) :
    IsPage d t (pageOf t addr) := by
  refine (h.page addr).resolve_left fun hzero => ?_
  rw [hzero, h.dummy] at hmr
  exact absurd hmr (by simp [dummySection])

section Install

variable {p : Nat} {t' : Radix Nat}

def subpageSection (d : AddressSpaceDispatch ρ) (p : Nat) : MemoryRegionSection ρ :=
  ⟨.subpage d.subpages.length, p * targetPageSize, 0, targetPageSize, {}⟩

abbrev Installed (d : AddressSpaceDispatch ρ) (t : Radix Nat) (p : Nat)
    (d' : AddressSpaceDispatch ρ) (t' : Radix Nat) : Prop :=
  PageAdded d t (subpageSection d p) (d.subpages ++ [subpageInit (p * targetPageSize)]) p 1 d' t'

theorem page_mul (p : Nat) : p * targetPageSize / targetPageSize = p :=
  Nat.mul_div_cancel p pageSize_pos

theorem ofPages_subpageSection (d : AddressSpaceDispatch ρ) (hp : p < pageSpan pL2Levels) :
    OfPages (subpageSection d p) p 1 :=
  ⟨rfl, (Nat.one_mul _).symm, Nat.one_pos, hp⟩

theorem Built.install (h : Built d t f) (hp : p < pageSpan pL2Levels)
    (hzero : t.look pL2Bits physSectionUnassigned pL2Levels p = physSectionUnassigned)
    (hlen : d.sections.length < targetPageSize) :
    ∃ d' t', subpageInstall d (p * targetPageSize) = some d' ∧ Installed d t p d' t' := by
  obtain ⟨d', t', hset, hadded⟩ := h.addPage (d.subpages ++ [subpageInit (p * targetPageSize)])
    (ofPages_subpageSection d hp) hlen fun p' hlow hhigh => by
      obtain rfl : p' = p := by omega
      exact hzero
  refine ⟨d', t', ?_, hadded⟩
  have hindex : (p * targetPageSize) >>> targetPageBits = p := by
    rw [Nat.shiftRight_eq_div_pow]
    exact page_mul p
  have hadd := physSectionAdd_eq
    (d := { d with subpages := d.subpages ++ [subpageInit (p * targetPageSize)] }) hlen
    (subpageSection d p)
  simp only [subpageInstall, hindex]
  exact (congrArg (Option.bind · _) hadd).trans hset

theorem Installed.old {k : Nat} (h : Installed d t p d' t') (hk : k < d.subpages.length) :
    subpageAt d' k = subpageAt d k :=
  h.subpageAt_old (List.prefix_append ..) hk

theorem Installed.pageOf (h : Installed d t p d' t') (hp : p < pageSpan pL2Levels)
    (haddr : addr / targetPageSize = p) : pageOf t' addr = d.sections.length := by
  have hpage : targetPageSize = 1024 := by decide
  have hspan : pageSpan pL2Levels = 2 ^ 54 := by decide
  rw [PageAdded.pageOf h addr (by rw [hpage] at haddr; omega), if_pos (by omega)]

theorem Installed.isPage (h : Installed d t p d' t') (hbuilt : Built d t f)
    (hp : p < pageSpan pL2Levels) : IsPage d' t' d.sections.length := by
  have hfresh := h.subpageAt_fresh
  refine ⟨Nat.ne_of_gt hbuilt.nonempty, by rw [h.length]; omega,
    fun addr haddr => h.covers (ofPages_subpageSection d hp) hbuilt.pageOf_lt haddr,
    .inr ⟨d.subpages.length, ?_, by simp [h.subpages], ?_, ?_, fun addr haddr hn => ?_⟩⟩
  · rw [sectionAt_last h.sections, hfresh]
    rfl
  · have hpage : targetPageSize = 1024 := by decide
    have hspan : pageSpan pL2Levels = 2 ^ 54 := by decide
    rw [hfresh]
    change p * targetPageSize < _
    rw [hpage]
    omega
  · rw [hfresh]
    exact h.pageOf hp (page_mul p)
  · rw [PageAdded.pageOf h addr haddr] at hn
    rw [hfresh]
    change _ = p * targetPageSize / targetPageSize
    rw [page_mul]
    split_ifs at hn with hinside
    · omega
    · exact absurd hn (hbuilt.pageOf_lt addr).ne

theorem Installed.shows (h : Installed d t p d' t') (hbuilt : Built d t f)
    (hzero : t.look pL2Bits physSectionUnassigned pL2Levels p = physSectionUnassigned)
    (haddr : addr < 2 ^ 64) : Shows (d'.sectionAt (sectionNo d' t' addr)) addr (f addr) := by
  have hgrows := h.grows (List.prefix_append ..)
  have hpageOf := PageAdded.pageOf h addr haddr
  split_ifs at hpageOf with hinside
  · obtain rfl : addr / targetPageSize = p := by omega
    have hno : sectionNo d t addr = physSectionUnassigned := by
      rw [sectionNo, Board.pageOf, hzero, hbuilt.dummy]
      rfl
    have hno' : sectionNo d' t' addr = physSectionUnassigned := by
      rw [sectionNo, hpageOf, sectionAt_last h.sections]
      change (subpageAt d' d.subpages.length).subSection _ = _
      rw [h.subpageAt_fresh]
      rfl
    rw [hno', hgrows.sectionAt hbuilt.nonempty, ← hno]
    exact hbuilt.shows addr haddr
  · refine hbuilt.seen haddr hgrows hpageOf fun k hmr => ?_
    rw [h.old ((hbuilt.isPage hmr).subpage hmr).lt]

theorem Installed.built (h : Installed d t p d' t') (hbuilt : Built d t f)
    (hp : p < pageSpan pL2Levels)
    (hzero : t.look pL2Bits physSectionUnassigned pL2Levels p = physSectionUnassigned) :
    Built d' t' f := by
  refine PageAdded.built h hbuilt (h.grows (List.prefix_append ..)) (fun p' hlow hhigh => ?_)
    (h.isPage hbuilt hp) (fun k hk => ?_) (fun addr haddr => h.shows hbuilt hzero haddr)
    fun x hx => ?_
  · obtain rfl : p' = p := by omega
    exact hzero
  · rw [h.subpages, List.length_append] at hk
    rcases Nat.lt_or_eq_of_le (Nat.le_of_lt_succ hk) with hlt | rfl
    · exact .inl ⟨hlt, h.old hlt⟩
    · exact .inr fun idx => by rw [h.subpageAt_fresh]; rfl
  · rcases List.mem_append.mp hx with hx | hx
    · exact hbuilt.whole x hx
    · rw [List.mem_singleton.mp hx]
      rintro ⟨mr, hmr⟩
      exact absurd hmr (by simp [subpageSection])

theorem Installed.usedBut (h : Installed d t p d' t') (hbuilt : Built d t f) (hused : Used d t) :
    UsedBut d.subpages.length d' t' := by
  intro x k hpage hsub hne
  rcases h.subpage hbuilt (h.grows (List.prefix_append ..)) hpage hsub with rfl | ⟨hold, hsub⟩
  · rw [sectionAt_last h.sections] at hsub
    exact absurd (SectionMr.subpage.inj hsub).symm hne
  · rw [h.old (hold.subpage hsub).lt]
    exact hused x k hold hsub

end Install

structure SubpageAdded (d : AddressSpaceDispatch ρ) (k : Nat) (s : MemoryRegionSection ρ)
    (d' : AddressSpaceDispatch ρ) : Prop where
  sections : d'.sections = d.sections ++ [s]
  map : d'.map = d.map
  physMap : d'.physMap = d.physMap
  mru : d'.mruSection = d.mruSection
  length : d'.subpages.length = d.subpages.length
  base : ∀ k', (subpageAt d' k').base = (subpageAt d k').base
  other : ∀ k' ≠ k, subpageAt d' k' = subpageAt d k'
  subSection : ∀ idx, (subpageAt d' k).subSection idx =
    if s.offsetWithinAddressSpace % targetPageSize ≤ idx ∧
        idx < s.offsetWithinAddressSpace % targetPageSize + s.size then d.sections.length
    else (subpageAt d k).subSection idx

theorem subpageFill_spec {s : MemoryRegionSection ρ} {k : Nat} (hk : k < d.subpages.length)
    (hpos : 0 < s.size)
    (hfits : s.offsetWithinAddressSpace % targetPageSize + s.size ≤ targetPageSize)
    (hlen : d.sections.length < targetPageSize) :
    ∃ d', subpageFill d k s = some d' ∧ SubpageAdded d k s d' := by
  have hstart := Nat.mod_lt s.offsetWithinAddressSpace pageSize_pos
  have hget : ∀ (g : Subpage → Subpage) k', (d.subpages.modify k g).getD k' ⟨0, fun _ => 0⟩ =
      if k' = k then g (subpageAt d k) else subpageAt d k' := by
    intro g k'
    simp only [subpageAt, List.getD_eq_getElem?_getD, List.getElem?_modify]
    split
    case isTrue heq =>
      subst heq
      simp [List.getElem?_eq_getElem hk]
    case isFalse hne => simp [Ne.symm hne]
  refine ⟨subpageRegister { d with sections := d.sections ++ [s] } k
    (s.offsetWithinAddressSpace % targetPageSize)
    (s.offsetWithinAddressSpace % targetPageSize + s.size - 1) d.sections.length, ?_, ?_⟩
  · simp only [subpageFill, physSectionAdd_eq hlen, Option.bind_eq_bind, Option.bind_some]
    rfl
  · rw [subpageRegister, if_neg (by omega)]
    refine ⟨rfl, rfl, rfl, rfl, List.length_modify .., fun k' => ?_, fun k' hne => ?_,
      fun idx => ?_⟩
    · rw [subpageAt, hget]
      split
      case isTrue heq => rw [heq]
      case isFalse => rfl
    · rw [subpageAt, hget, if_neg hne]
    · rw [subpageAt, hget, if_pos rfl]
      refine if_congr ?_ rfl rfl
      omega

theorem SubpageAdded.grows {s : MemoryRegionSection ρ} {k : Nat}
    (h : SubpageAdded d k s d') : Grows d d' :=
  ⟨⟨[s], h.sections⟩, h.length.ge, fun k _ => h.base k⟩

section Fill

variable {s : MemoryRegionSection ρ} {k : Nat}

theorem SubpageAdded.inner (h : SubpageAdded d k s d') (hbuilt : Built d t f)
    (hregion : ∃ mr, s.mr = .region mr) {k' : Nat} (hk' : k' < d'.subpages.length) (idx : Nat) :
    (subpageAt d' k').subSection idx = physSectionUnassigned ∨
      (subpageAt d' k').subSection idx < d'.sections.length ∧
        ∃ mr, (d'.sectionAt ((subpageAt d' k').subSection idx)).mr = .region mr := by
  have hlength : d'.sections.length = d.sections.length + 1 := by simp [h.sections]
  have hold : (subpageAt d k').subSection idx = physSectionUnassigned ∨
      (subpageAt d k').subSection idx < d'.sections.length ∧
        ∃ mr, (d'.sectionAt ((subpageAt d k').subSection idx)).mr = .region mr := by
    refine (hbuilt.inner k' (h.length ▸ hk') idx).imp_right fun ⟨hlt, hmr⟩ => ⟨by omega, ?_⟩
    rw [h.grows.sectionAt hlt]
    exact hmr
  by_cases hk : k' = k
  · subst hk
    rw [h.subSection]
    split
    case isTrue =>
      refine .inr ⟨by omega, ?_⟩
      rw [sectionAt_last h.sections]
      exact hregion
    case isFalse => exact hold
  · rw [h.other k' hk]
    exact hold

theorem SubpageAdded.shows (h : SubpageAdded d k s d') (hbuilt : Built d t f)
    (hmr : (d.sectionAt (pageOf t s.offsetWithinAddressSpace)).mr = .subpage k)
    (hfits : s.offsetWithinAddressSpace % targetPageSize + s.size ≤ targetPageSize)
    (hstart : s.offsetWithinAddressSpace < 2 ^ 64) (haddr : addr < 2 ^ 64) :
    Shows (d'.sectionAt (sectionNo d' t addr)) addr (shown f s addr) := by
  have hsize : targetPageSize = 1024 := by decide
  have hpage := hbuilt.isPage hmr
  rw [shown]
  split
  case isTrue hin =>
    have hdiv : addr / targetPageSize = s.offsetWithinAddressSpace / targetPageSize := by
      rw [hsize] at hfits ⊢
      omega
    have hmod : addr % targetPageSize =
        s.offsetWithinAddressSpace % targetPageSize + (addr - s.offsetWithinAddressSpace) := by
      rw [hsize] at hfits ⊢
      omega
    have hno : sectionNo d' t addr = d.sections.length := by
      rw [sectionNo, pageOf, hdiv, h.grows.sectionAt hpage.lt, hmr]
      change (subpageAt d' k).subSection _ = _
      rw [h.subSection, if_pos (by omega)]
    rw [hno, sectionAt_last h.sections]
    exact ⟨rfl, hin.1, hin.2⟩
  case isFalse hout =>
    refine hbuilt.seen haddr h.grows rfl fun k' hmr' => ?_
    by_cases hk : k' = k
    · -- the subpage is that of the same page
      subst hk
      have hdiv := (((hbuilt.isPage hmr').subpage hmr').only addr haddr rfl).trans
        ((hpage.subpage hmr).only s.offsetWithinAddressSpace hstart rfl).symm
      rw [h.subSection, if_neg]
      rw [hsize] at hdiv ⊢
      omega
    · rw [h.other k' hk]

theorem SubpageAdded.used (h : SubpageAdded d k s d') (hbuilt : Built d t f)
    (hused : UsedBut k d t) (hpos : 0 < s.size) : Used d' t := by
  intro x k' hpage hsub
  by_cases hk : k' = k
  · subst hk
    refine ⟨s.offsetWithinAddressSpace % targetPageSize, Nat.mod_lt _ pageSize_pos, ?_⟩
    rw [h.subSection, if_pos (by omega)]
    exact Nat.ne_of_gt hbuilt.nonempty
  · have hpageOf := (hpage.subpage hsub).pageOf
    have hold : IsPage d t x := hpageOf ▸ (hbuilt.page _).resolve_left (hpageOf ▸ hpage.pos)
    rw [h.grows.sectionAt hold.lt] at hsub
    rw [h.other k' hk]
    exact hused x k' hold hsub hk

theorem Built.fill (h : Built d t f) (hused : UsedBut k d t) (hadd : Addable f s)
    (hmr : (d.sectionAt (pageOf t s.offsetWithinAddressSpace)).mr = .subpage k)
    (hfits : s.offsetWithinAddressSpace % targetPageSize + s.size ≤ targetPageSize)
    (hlen : d.sections.length < targetPageSize) :
    ∃ d', subpageFill d k s = some d' ∧ Built d' t (shown f s) ∧ Used d' t ∧
      d'.sections.length = d.sections.length + 1 := by
  have hpos := hadd.pos
  have hstop := hadd.stop
  obtain ⟨d', hcall, hadded⟩ := subpageFill_spec ((h.isPage hmr).subpage hmr).lt hpos hfits hlen
  have hgrows := hadded.grows
  have hlength : d'.sections.length = d.sections.length + 1 := by simp [hadded.sections]
  refine ⟨d', hcall, ?_, hadded.used h hused hpos, hlength⟩
  constructor
  case toMapOk =>
    refine ⟨?_, h.plain, h.notLeaf, hadded.mru.trans h.mru⟩
    rw [hadded.map, hadded.physMap]
    exact h.rep
  case dummy =>
    rw [hgrows.sectionAt h.nonempty]
    exact h.dummy
  case nonempty => exact h.nonempty.trans_le hgrows.length
  case pages =>
    exact fun x hx => (h.pages x hx).imp_right fun hx => hx.grows hgrows fun _ _ => Iff.rfl
  case inner => exact fun k' hk' idx => hadded.inner h hadd.region hk' idx
  case shows => exact fun addr haddr => hadded.shows h hmr hfits (by omega) haddr
  case whole => exact hadded.sections ▸ hadd.whole h.whole
  case nodes =>
    have hnodes := h.nodes
    rw [hadded.map]
    omega

end Fill

def Adds (d : AddressSpaceDispatch ρ) (f : Nat → Translation ρ) (s : MemoryRegionSection ρ)
    (k : Nat) (r : Option (AddressSpaceDispatch ρ)) : Prop :=
  ∃ d' t', r = some d' ∧ Built d' t' (shown f s) ∧ Used d' t' ∧
    d'.sections.length ≤ d.sections.length + k

variable {s : MemoryRegionSection ρ}

theorem Built.registerSubpage (h : Built d t f) (hused : Used d t) (hadd : Addable f s)
    (hfits : s.offsetWithinAddressSpace % targetPageSize + s.size ≤ targetPageSize)
    (hlen : d.sections.length + 2 ≤ targetPageSize) : Adds d f s 2 (registerSubpage d s) := by
  have hsize : targetPageSize = 1024 := by decide
  have hspan : pageSpan pL2Levels = 2 ^ 54 := by decide
  have hpos := hadd.pos
  have hstop := hadd.stop
  have hbase : (s.offsetWithinAddressSpace / targetPageSize * targetPageSize) / targetPageSize =
      s.offsetWithinAddressSpace / targetPageSize := Nat.mul_div_cancel _ pageSize_pos
  have hfind : physPageFind d (s.offsetWithinAddressSpace / targetPageSize * targetPageSize) =
      pageOf t s.offsetWithinAddressSpace := by
    rw [h.find (by rw [hsize]; omega), pageOf, pageOf, hbase]
  have hno := h.free (by omega) (hadd.free s.offsetWithinAddressSpace le_rfl (by omega))
  simp only [Board.registerSubpage, hfind]
  rcases h.page s.offsetWithinAddressSpace with hzero | hpage
  · have hp : s.offsetWithinAddressSpace / targetPageSize < pageSpan pL2Levels := by
      rw [hsize, hspan]
      omega
    obtain ⟨d₁, t₁, hinstall, hnew⟩ := h.install hp hzero (by omega)
    have hmr : (d₁.sectionAt (pageOf t₁ s.offsetWithinAddressSpace)).mr =
        .subpage d.subpages.length := by
      rw [hnew.pageOf hp rfl, sectionAt_last hnew.sections]
      rfl
    have hlen₁ := hnew.length
    obtain ⟨d', hfill, hbuilt', hused', hlen'⟩ := (hnew.built h hp hzero).fill
      (hnew.usedBut h hused) hadd hmr hfits (by omega)
    refine ⟨d', t₁, ?_, hbuilt', hused', by omega⟩
    rw [hzero, h.dummy]
    simp only [dummySection, hinstall, Option.bind_eq_bind, Option.bind_some]
    exact hfill
  · rcases hpage.mr with ⟨mr, hmr⟩ | ⟨k, hsub⟩
    · rw [sectionNo, hmr] at hno
      exact absurd hno hpage.pos
    · obtain ⟨d', hfill, hbuilt', hused', hlen'⟩ :=
        h.fill (fun n k' hn hk' _ => hused n k' hn hk') hadd
        hsub.mr hfits (by omega)
      refine ⟨d', t, ?_, hbuilt', hused', by omega⟩
      rw [hsub.mr]
      exact hfill

theorem translation_drop (size : Nat) : (s.drop size).translation addr = s.translation addr := by
  simp only [MemoryRegionSection.translation, MemoryRegionSection.drop, Translation.mk.injEq,
    true_and, and_true]
  push_cast
  omega

theorem shown_drop {size : Nat} (hle : size ≤ s.size) :
    shown (shown f (s.take size)) (s.drop size) = shown f s := by
  funext addr
  have hdrop : (s.drop size).offsetWithinAddressSpace = s.offsetWithinAddressSpace + size := rfl
  have hrest : (s.drop size).size = s.size - size := rfl
  rw [shown, shown, shown, translation_drop, hdrop, hrest]
  change (if _ then _ else if s.offsetWithinAddressSpace ≤ addr ∧
    addr < s.offsetWithinAddressSpace + size then
    s.translation addr else f addr) = _
  by_cases hin : s.offsetWithinAddressSpace ≤ addr ∧ addr < s.offsetWithinAddressSpace + s.size
  · rw [if_pos hin]
    split_ifs
    · rfl
    · rfl
    · omega
  · rw [if_neg hin, if_neg (by omega), if_neg (by omega)]

theorem Addable.take {size : Nat} (h : Addable f s) (hpos : 0 < size) (hle : size ≤ s.size) :
    Addable f (s.take size) := by
  have hstop := h.stop
  refine ⟨h.region, hpos, ?_, fun addr hlow hhigh => h.free addr hlow ?_⟩
  · simp only [MemoryRegionSection.take]
    omega
  · simp only [MemoryRegionSection.take] at hhigh
    omega

theorem Addable.drop {size : Nat} (h : Addable f s) (hlt : size < s.size) :
    Addable (shown f (s.take size)) (s.drop size) := by
  have hstop := h.stop
  refine ⟨h.region, ?_, ?_, fun addr hlow hhigh => ?_⟩
  · simp only [MemoryRegionSection.drop]
    omega
  · simp only [MemoryRegionSection.drop]
    omega
  · simp only [MemoryRegionSection.drop] at hlow hhigh
    rw [shown, if_neg]
    · exact h.free addr (by omega) (by omega)
    · simp only [MemoryRegionSection.take]
      omega

theorem Adds.split {n k m : Nat} {r : AddressSpaceDispatch ρ → Option (AddressSpaceDispatch ρ)}
    {r₁ : Option (AddressSpaceDispatch ρ)} (hadd : Addable f s) (hle : n ≤ s.size)
    (hfirst : Adds d f (s.take n) k r₁)
    (hrest : n < s.size → ∀ d₁ t₁, Built d₁ t₁ (shown f (s.take n)) → Used d₁ t₁ →
      d₁.sections.length ≤ d.sections.length + k → Addable (shown f (s.take n)) (s.drop n) →
      Adds d₁ (shown f (s.take n)) (s.drop n) m (r d₁)) :
    Adds d f s (k + m) (r₁.bind fun d₁ => if s.size = n then some d₁ else r d₁) := by
  obtain ⟨d₁, t₁, rfl, hbuilt, hused, hlen⟩ := hfirst
  rw [Option.bind_some]
  split
  case isTrue hwhole =>
    refine ⟨d₁, t₁, rfl, ?_, hused, by omega⟩
    subst hwhole
    exact hbuilt
  case isFalse hpart =>
    have hlt : n < s.size := by omega
    obtain ⟨d', t', hcall, hbuilt', hused', hlen'⟩ :=
      hrest hlt d₁ t₁ hbuilt hused hlen (hadd.drop hlt)
    exact ⟨d', t', hcall, shown_drop (f := f) hle ▸ hbuilt', hused', by omega⟩

theorem Built.registerPages (h : Built d t f) (hused : Used d t) (hadd : Addable f s)
    (halign : s.offsetWithinAddressSpace % targetPageSize = 0)
    (hlen : d.sections.length + 3 ≤ targetPageSize) : Adds d f s 3 (registerPages d s) := by
  have hsize : targetPageSize = 1024 := by decide
  have hspan : pageSpan pL2Levels = 2 ^ 54 := by decide
  have hpos := hadd.pos
  have hstop := hadd.stop
  rw [Board.registerPages]
  split
  case isTrue hpages =>
    have hle : s.size / targetPageSize * targetPageSize ≤ s.size := Nat.div_mul_le_self ..
    have hof : OfPages (s.take (s.size / targetPageSize * targetPageSize))
        (s.offsetWithinAddressSpace / targetPageSize) (s.size / targetPageSize) := by
      refine ⟨?_, rfl, Nat.div_pos hpages pageSize_pos, ?_⟩
      · change s.offsetWithinAddressSpace = _
        rw [hsize] at halign ⊢
        omega
      · rw [hsize] at halign ⊢
        omega
    refine Adds.split (n := s.size / targetPageSize * targetPageSize) (k := 1) (m := 2) hadd hle ?_
      fun hlt d₁ t₁ hbuilt hused hlen₁ hadd₁ => ?_
    · obtain ⟨d', t', hcall, hbuilt, hused', hlen'⟩ :=
        h.multipage hused (hadd.take (by rw [hsize] at hpages ⊢; omega) hle) hof (by omega)
      exact ⟨d', t', hcall, hbuilt, hused', hlen'.le⟩
    · refine hbuilt.registerSubpage hused hadd₁ ?_ (by omega)
      change (s.offsetWithinAddressSpace + _) % _ + (s.size - _) ≤ _
      rw [hsize] at halign ⊢
      omega
  case isFalse hsmall =>
    obtain ⟨d', t', hcall, hbuilt, hused', hlen'⟩ :=
      h.registerSubpage hused hadd (by omega) (by omega)
    exact ⟨d', t', hcall, hbuilt, hused', by omega⟩

theorem Built.add (h : Built d t f) (hused : Used d t) (hadd : Addable f s)
    (hlen : d.sections.length + 5 ≤ targetPageSize) : Adds d f s 5 (flatviewAddToDispatch d s) := by
  have hsize : targetPageSize = 1024 := by decide
  have hpos := hadd.pos
  rw [flatviewAddToDispatch]
  split
  case isTrue hodd =>
    have hle : min (targetPageSize - s.offsetWithinAddressSpace % targetPageSize) s.size ≤ s.size :=
      min_le_right ..
    have hmod := Nat.mod_lt s.offsetWithinAddressSpace pageSize_pos
    refine Adds.split (n := min (targetPageSize - s.offsetWithinAddressSpace % targetPageSize)
      s.size) (k := 2) (m := 3) hadd hle ?_ fun hlt d₁ t₁ hbuilt hused hlen₁ hadd₁ => ?_
    · refine h.registerSubpage hused (hadd.take (by rw [hsize] at hmod ⊢; omega) hle) ?_ (by omega)
      change s.offsetWithinAddressSpace % targetPageSize + min _ _ ≤ _
      omega
    · refine hbuilt.registerPages hused hadd₁ ?_ (by omega)
      change (s.offsetWithinAddressSpace + min _ _) % _ = 0
      rw [hsize] at hodd hlt ⊢
      omega
  case isFalse heven =>
    obtain ⟨d', t', hcall, hbuilt, hused', hlen'⟩ :=
      h.registerPages hused hadd (by omega) (by omega)
    exact ⟨d', t', hcall, hbuilt, hused', by omega⟩

end Sections

end QemuBoard.Board
