import QemuBoard.Library.Radix
import Mathlib.Algebra.BigOperators.Intervals
import Mathlib.Data.Set.Lattice
import Mathlib.Order.CompletePartialOrder

/-! The multi-level map from pages to sections, `PhysPageMap` in `system/physmem.c`: its nodes in
an array, entries that refer to them by their index, and entries compacted to pass over nodes with
a single child. An entry that a function is given a pointer to is passed and returned here. -/

namespace QemuBoard.Board

open Library

structure PhysPageEntry where
  skip : Nat
  ptr : Nat
  deriving DecidableEq

def physMapNodeNil : Nat := 2 ^ 26 - 1
def physSectionUnassigned : Nat := 0

/-- The page of a CPU with a memory protection unit. -/
def targetPageBits : Nat := 10
def addrSpaceBits : Nat := 64
def pL2Bits : Nat := 9
def pL2Size : Nat := 2 ^ pL2Bits
def pL2Levels : Nat := (addrSpaceBits - targetPageBits - 1) / pL2Bits + 1

structure PhysPageMap where
  nodesNb : Nat
  nodesNbAlloc : Nat
  nodes : Nat → Nat → PhysPageEntry

namespace PhysPageMap

def put (map : PhysPageMap) (n i : Nat) (e : PhysPageEntry) : PhysPageMap :=
  { map with nodes := Function.update map.nodes n (Function.update (map.nodes n) i e) }

end PhysPageMap

/-- `allocHint` is the static variable of the function. -/
def physMapNodeReserve (allocHint : Nat) (map : PhysPageMap) (nodes : Nat) : Nat × PhysPageMap :=
  if map.nodesNb + nodes > map.nodesNbAlloc then
    let nodesNbAlloc := max allocHint (map.nodesNb + nodes)
    (nodesNbAlloc, { map with nodesNbAlloc })
  else
    (allocHint, map)

def physMapNodeAlloc (map : PhysPageMap) (leaf : Bool) : Option (Nat × PhysPageMap) :=
  let ret := map.nodesNb
  if ret = physMapNodeNil ∨ ret = map.nodesNbAlloc then
    none
  else
    let e : PhysPageEntry := if leaf then ⟨0, physSectionUnassigned⟩ else ⟨1, physMapNodeNil⟩
    some (ret, { map with nodesNb := ret + 1, nodes := Function.update map.nodes ret fun _ => e })

abbrev SetLevel := PhysPageMap → PhysPageEntry → Nat → Nat →
  Option (PhysPageMap × PhysPageEntry × Nat × Nat)

/-- The loop over the entries of node `n` from number `i` on; `k` of them are left. -/
def physPageSetEntries (below : SetLevel) (step leaf n : Nat) :
    (k i : Nat) → PhysPageMap → (index nb : Nat) → Option (PhysPageMap × Nat × Nat)
  | 0, _, map, index, nb => some (map, index, nb)
  | k + 1, i, map, index, nb =>
    if nb = 0 then
      some (map, index, nb)
    else if index % step = 0 ∧ nb ≥ step then
      physPageSetEntries below step leaf n k (i + 1) (map.put n i ⟨0, leaf⟩) (index + step)
        (nb - step)
    else do
      let (map, lp, index, nb) ← below map (map.nodes n i) index nb
      physPageSetEntries below step leaf n k (i + 1) (map.put n i lp) index nb

def physPageEnter (level : Nat) (map : PhysPageMap) (lp : PhysPageEntry) :
    Option (PhysPageMap × PhysPageEntry) :=
  if lp.skip ≠ 0 ∧ lp.ptr = physMapNodeNil then do
    let (ptr, map) ← physMapNodeAlloc map (level = 0)
    return (map, { lp with ptr })
  else
    return (map, lp)

def physPageSetNode (below : SetLevel) (leaf level : Nat) : SetLevel := fun map lp index nb => do
  let (map, lp) ← physPageEnter level map lp
  let i := (index >>> (level * pL2Bits)) % pL2Size
  let (map, index, nb) ←
    physPageSetEntries below (1 <<< (level * pL2Bits)) leaf lp.ptr (pL2Size - i) i map index nb
  return (map, lp, index, nb)

def physPageSetLevel (leaf : Nat) : Nat → SetLevel
  | 0 => physPageSetNode (fun _ _ _ _ => none) leaf 0
  | level + 1 => physPageSetNode (physPageSetLevel leaf level) leaf (level + 1)

abbrev Compact := PhysPageMap → PhysPageEntry → PhysPageMap × PhysPageEntry

/-- What the loop of `phys_page_compact` has seen: the entries in use, and the last of them. -/
structure CompactScan where
  map : PhysPageMap
  valid : Nat
  validPtr : Nat

def physPageCompactEntry (below : Compact) (n : Nat) (scan : CompactScan) (i : Nat) : CompactScan :=
  let p := scan.map.nodes n i
  if p.ptr = physMapNodeNil then
    scan
  else if p.skip ≠ 0 then
    let (map, p) := below scan.map p
    ⟨map.put n i p, scan.valid + 1, i⟩
  else
    ⟨scan.map, scan.valid + 1, i⟩

def physPageLift (lp : PhysPageEntry) (scan : CompactScan) : PhysPageEntry :=
  let child := scan.map.nodes lp.ptr scan.validPtr
  if scan.valid ≠ 1 then
    lp
  else if pL2Levels ≥ 1 <<< 6 ∧ lp.skip + child.skip ≥ 1 <<< 6 then
    lp
  else if child.skip = 0 then
    ⟨0, child.ptr⟩
  else
    ⟨lp.skip + child.skip, child.ptr⟩

def physPageCompactNode (below : Compact) : Compact := fun map lp =>
  if lp.ptr = physMapNodeNil then
    (map, lp)
  else
    let scan := (List.range pL2Size).foldl (physPageCompactEntry below lp.ptr) ⟨map, 0, pL2Size⟩
    (scan.map, physPageLift lp scan)

/-- `depth` bounds the recursion. -/
def physPageCompact : (depth : Nat) → Compact
  | 0 => fun map lp => (map, lp)
  | depth + 1 => physPageCompactNode (physPageCompact depth)

/-- The loop of `phys_page_find`: the number of a section. `fuel` bounds the turns. -/
def physPageWalk (map : PhysPageMap) (index : Nat) : (fuel i : Nat) → PhysPageEntry → Nat
  | 0, _, lp => lp.ptr
  | fuel + 1, i, lp =>
    if lp.skip = 0 ∨ i < lp.skip then
      lp.ptr
    else if lp.ptr = physMapNodeNil then
      physSectionUnassigned
    else
      physPageWalk map index fuel (i - lp.skip)
        (map.nodes lp.ptr ((index >>> ((i - lp.skip) * pL2Bits)) % pL2Size))

section Representation

def nodeOwn (n : Nat) (parts : Nat → Set Nat) : Set Nat := {m | m = n ∨ ∃ d < pL2Size, m ∈ parts d}

structure Separate (n : Nat) (parts : Nat → Set Nat) : Prop where
  own : ∀ d < pL2Size, n ∉ parts d
  apart : ∀ d < pL2Size, ∀ d' < pL2Size, d ≠ d' → Disjoint (parts d) (parts d')

/-- The entry stands for the tree, and its nodes are those in `own`. -/
def Rep (nodes : Nat → Nat → PhysPageEntry) : Radix Nat → PhysPageEntry → (own : Set Nat) → Prop
  | .leaf a, e, own => e = ⟨0, a⟩ ∧ a ≠ physMapNodeNil ∧ own = ∅
  | .empty, e, own => e = ⟨1, physMapNodeNil⟩ ∧ own = ∅
  | .node skip c, e, own => e.skip = skip ∧ skip ≠ 0 ∧ e.ptr ≠ physMapNodeNil ∧
      ∃ parts, (∀ d < pL2Size, Rep nodes (c d) (nodes e.ptr d) (parts d)) ∧ Separate e.ptr parts ∧
        own = nodeOwn e.ptr parts

variable {nodes nodes' : Nat → Nat → PhysPageEntry} {t : Radix Nat} {e : PhysPageEntry}
  {own : Set Nat}

theorem Rep.frame (h : Rep nodes t e own) (heq : ∀ n ∈ own, nodes' n = nodes n) :
    Rep nodes' t e own := by
  induction t generalizing e own with
  | leaf a => exact h
  | empty => exact h
  | node skip c ih =>
    obtain ⟨hskip, hne, hptr, parts, hrep, hsep, rfl⟩ := h
    refine ⟨hskip, hne, hptr, parts, fun d hd => ?_, hsep, rfl⟩
    rw [heq e.ptr (.inl rfl)]
    exact ih d (hrep d hd) fun n hn => heq n (.inr ⟨d, hd, hn⟩)

theorem physPageWalk_eq {map : PhysPageMap} {index fuel i : Nat} (h : Rep map.nodes t e own)
    (hfits : t.Fits pL2Bits i) (hfuel : i < fuel) :
    physPageWalk map index fuel i e = t.look pL2Bits physSectionUnassigned i index := by
  induction t generalizing e own i fuel with
  | leaf a =>
    obtain ⟨rfl, -⟩ := h
    cases fuel with
    | zero => rfl
    | succ fuel => exact if_pos (.inl rfl)
  | empty =>
    obtain ⟨rfl, -⟩ := h
    have hpos : 0 < i := hfits
    obtain ⟨fuel, rfl⟩ := Nat.exists_eq_succ_of_ne_zero (Nat.ne_zero_of_lt hfuel)
    rw [physPageWalk, if_neg (by simp; omega), if_pos rfl]
    rfl
  | node skip c ih =>
    obtain ⟨rfl, -, hptr, parts, hrep, -⟩ := h
    obtain ⟨hpos, hle, hc⟩ := hfits
    obtain ⟨fuel, rfl⟩ := Nat.exists_eq_succ_of_ne_zero (Nat.ne_zero_of_lt hfuel)
    rw [physPageWalk, if_neg (by omega), if_neg hptr, Nat.shiftRight_eq_div_pow]
    exact ih _ (hrep _ Radix.digit_lt) (hc _ Radix.digit_lt) (by omega)

end Representation

section Nodes

structure Holds (map : PhysPageMap) (n : Nat) (c : Nat → Radix Nat) (parts : Nat → Set Nat) :
    Prop where
  rep : ∀ d < pL2Size, Rep map.nodes (c d) (map.nodes n d) (parts d)
  separate : Separate n parts
  bound : ∀ m ∈ nodeOwn n parts, m < map.nodesNb

structure Changes (map map' : PhysPageMap) (own own' : Set Nat) (k : Nat) : Prop where
  nodesNb : map'.nodesNb = map.nodesNb + k
  nodesNbAlloc : map'.nodesNbAlloc = map.nodesNbAlloc
  kept : ∀ m ∉ own, m < map.nodesNb → map'.nodes m = map.nodes m
  fresh : ∀ m ∈ own', m ∈ own ∨ map.nodesNb ≤ m ∧ m < map'.nodesNb

variable {map map' map'' : PhysPageMap} {own own' own'' part : Set Nat} {k k' n i : Nat}
  {c : Nat → Radix Nat} {parts : Nat → Set Nat} {t : Radix Nat} {e : PhysPageEntry}

theorem Changes.refl (map : PhysPageMap) (own : Set Nat) : Changes map map own own 0 :=
  ⟨rfl, rfl, fun _ _ _ => rfl, fun _ h => .inl h⟩

theorem Changes.trans (h : Changes map map' own own' k) (h' : Changes map' map'' own' own'' k') :
    Changes map map'' own own'' (k + k') := by
  refine ⟨?_, h'.nodesNbAlloc.trans h.nodesNbAlloc, fun m hm hlt => ?_, fun m hm => ?_⟩
  · rw [h'.nodesNb, h.nodesNb, Nat.add_assoc]
  · have hout : m ∉ own' := fun hin => (h.fresh m hin).elim hm fun hnew => by omega
    rw [h'.kept m hout (by rw [h.nodesNb]; omega), h.kept m hm hlt]
  · have hnb := h.nodesNb
    have hnb' := h'.nodesNb
    rcases h'.fresh m hm with hm | hnew
    · exact (h.fresh m hm).imp_right fun hnew => by omega
    · exact .inr (by omega)

theorem Changes.bound (h : Changes map map' own own' k) (hbound : ∀ m ∈ own, m < map.nodesNb) :
    ∀ m ∈ own', m < map'.nodesNb := by
  intro m hm
  have hnb := h.nodesNb
  rcases h.fresh m hm with hm | hnew
  · have hlt := hbound m hm
    omega
  · exact hnew.2

theorem put_nodes_ne {m : Nat} (h : m ≠ n) : (map.put n i e).nodes m = map.nodes m :=
  Function.update_of_ne h ..

theorem put_nodes_self (d : Nat) :
    (map.put n i e).nodes n d = if d = i then e else map.nodes n d := by
  change Function.update map.nodes n _ n d = _
  rw [Function.update_self, Function.update_apply]

theorem Holds.put (h : Holds map n c parts) (hi : i < pL2Size) (hrep : Rep map'.nodes t e part)
    (hchange : Changes map map' (parts i) part k) :
    Holds (map'.put n i e) n (Function.update c i t) (Function.update parts i part) ∧
      Changes map (map'.put n i e) (nodeOwn n parts)
        (nodeOwn n (Function.update parts i part)) k := by
  have hn : n < map.nodesNb := h.bound n (.inl rfl)
  have hnew : n ∉ part := fun hin =>
    (hchange.fresh n hin).elim (h.separate.own i hi) fun hnew => by omega
  have hdisjoint : ∀ d < pL2Size, d ≠ i → Disjoint part (parts d) := by
    intro d hd hne
    refine Set.disjoint_left.mpr fun m hm hmd => ?_
    rcases hchange.fresh m hm with hm | hnew
    · exact Set.disjoint_left.mp (h.separate.apart i hi d hd (Ne.symm hne)) hm hmd
    · have hlt := h.bound m (.inr ⟨d, hd, hmd⟩)
      omega
  have hchanges : Changes map (map'.put n i e) (nodeOwn n parts)
      (nodeOwn n (Function.update parts i part)) k := by
    refine ⟨hchange.nodesNb, hchange.nodesNbAlloc, fun m hm hlt => ?_, ?_⟩
    · rw [put_nodes_ne fun heq => hm (.inl heq)]
      exact hchange.kept m (fun hin => hm (.inr ⟨i, hi, hin⟩)) hlt
    · rintro m (rfl | ⟨d, hd, hm⟩)
      · exact .inl (.inl rfl)
      · rw [Function.update_apply] at hm
        split at hm
        · exact (hchange.fresh m hm).imp_left fun hm => .inr ⟨i, hi, hm⟩
        · exact .inl (.inr ⟨d, hd, hm⟩)
  refine ⟨⟨fun d hd => ?_, ⟨fun d hd => ?_, fun d hd d' hd' hne => ?_⟩, ?_⟩, hchanges⟩
  · rw [put_nodes_self]
    by_cases hdi : d = i
    · subst hdi
      rw [if_pos rfl, Function.update_self, Function.update_self]
      exact hrep.frame fun m hm => put_nodes_ne fun heq => hnew (heq ▸ hm)
    · rw [if_neg hdi, Function.update_of_ne hdi, Function.update_of_ne hdi,
        hchange.kept n (h.separate.own i hi) hn]
      refine (h.rep d hd).frame fun m hm => ?_
      have hne : m ≠ n := fun heq => h.separate.own d hd (heq ▸ hm)
      rw [put_nodes_ne hne]
      refine hchange.kept m ?_ (h.bound m (.inr ⟨d, hd, hm⟩))
      exact Set.disjoint_left.mp (h.separate.apart d hd i hi hdi) hm
  · rw [Function.update_apply]
    split
    · exact hnew
    · exact h.separate.own d hd
  · rw [Function.update_apply, Function.update_apply]
    split_ifs with hdi hdi' hdi'
    · exact absurd (hdi.trans hdi'.symm) hne
    · exact hdisjoint d' hd' hdi'
    · exact (hdisjoint d hd hdi).symm
    · exact h.separate.apart d hd d' hd' hne
  · exact hchanges.bound h.bound

end Nodes

section Setting

variable {leaf level n i k lo hi base : Nat} {below f : SetLevel} {map map' : PhysPageMap}
  {t : Radix Nat} {e : PhysPageEntry} {own : Set Nat} {c : Nat → Radix Nat} {parts : Nat → Set Nat}

abbrev pageSpan (level : Nat) : Nat := Radix.span pL2Bits level

abbrev fillPages (leaf lo hi level base : Nat) (t : Radix Nat) : Radix Nat :=
  t.fill pL2Bits physSectionUnassigned leaf lo hi level base

abbrev pageAllocs (lo hi level base : Nat) (t : Radix Nat) : Nat :=
  t.allocs pL2Bits physSectionUnassigned lo hi level base

abbrev FreePages (lo hi level base : Nat) (t : Radix Nat) : Prop :=
  t.Free pL2Bits physSectionUnassigned lo hi level base

abbrev PlainPages (level : Nat) (t : Radix Nat) : Prop :=
  t.Plain pL2Bits physSectionUnassigned level

structure Block (lo hi level base : Nat) : Prop where
  aligned : pageSpan level ∣ base
  nonempty : lo < hi
  before : base < hi
  after : lo < base + pageSpan level

def Sets (leaf level : Nat) (f : SetLevel) : Prop :=
  ∀ {map t e own base lo hi}, Rep map.nodes t e own → (∀ m ∈ own, m < map.nodesNb) →
    PlainPages (level + 1) t → (∀ x, t ≠ .leaf x) → FreePages lo hi (level + 1) base t →
    Block lo hi (level + 1) base →
    map.nodesNb + t.allocsNode pL2Bits physSectionUnassigned lo hi level base ≤
      min map.nodesNbAlloc physMapNodeNil →
    ∃ map' e' own', f map e (max lo base) (hi - max lo base) =
        some (map', e', min hi (base + pageSpan (level + 1)),
          hi - min hi (base + pageSpan (level + 1))) ∧
      Rep map'.nodes (t.fillNode pL2Bits physSectionUnassigned leaf lo hi level base) e' own' ∧
      Changes map map' own own' (t.allocsNode pL2Bits physSectionUnassigned lo hi level base)

def entryAllocs (lo hi level base i : Nat) (c : Nat → Radix Nat) : Nat :=
  ∑ d ∈ Finset.Ico i pL2Size, pageAllocs lo hi level (base + d * pageSpan level) (c d)

/-- The loop over the entries of node `n` is at number `i`. -/
structure Entries (lo hi level base n i : Nat) (map : PhysPageMap) (c : Nat → Radix Nat)
    (parts : Nat → Set Nat) : Prop where
  block : Block lo hi (level + 1) base
  start : lo < base + i * pageSpan level + pageSpan level
  holds : Holds map n c parts
  plain : ∀ d, i ≤ d → d < pL2Size → PlainPages level (c d)
  free : ∀ d, i ≤ d → d < pL2Size → FreePages lo hi level (base + d * pageSpan level) (c d)
  room : map.nodesNb + entryAllocs lo hi level base i c ≤ min map.nodesNbAlloc physMapNodeNil

def nextPage (lo hi level base i : Nat) : Nat := min hi (max lo (base + i * pageSpan level))

theorem Holds.congr {c' : Nat → Radix Nat} (h : Holds map n c parts)
    (heq : ∀ d < pL2Size, c' d = c d) :
    Holds map n c' parts :=
  ⟨fun d hd => heq d hd ▸ h.rep d hd, h.separate, h.bound⟩

theorem entryAllocs_succ (hi' : i < pL2Size) : entryAllocs lo hi level base i c =
    pageAllocs lo hi level (base + i * pageSpan level) (c i) +
      entryAllocs lo hi level base (i + 1) c :=
  Finset.sum_eq_sum_Ico_succ_bot hi' _

theorem entryAllocs_update (t : Radix Nat) :
    entryAllocs lo hi level base (i + 1) (Function.update c i t) =
      entryAllocs lo hi level base (i + 1) c := by
  refine Finset.sum_congr rfl fun d hd => ?_
  rw [Function.update_of_ne]
  have := (Finset.mem_Ico.mp hd).1
  omega

theorem Entries.advance {part : Set Nat} (h : Entries lo hi level base n i map c parts)
    (hi' : i < pL2Size) (hrep : Rep map'.nodes t e part)
    (hchange : Changes map map' (parts i) part
      (pageAllocs lo hi level (base + i * pageSpan level) (c i))) :
    Entries lo hi level base n (i + 1) (map'.put n i e) (Function.update c i t)
      (Function.update parts i part) := by
  have hlater : ∀ d, i + 1 ≤ d → Function.update c i t d = c d :=
    fun d hd => Function.update_of_ne (by omega) ..
  refine ⟨h.block, ?_, (h.holds.put hi' hrep hchange).1, fun d hd hd' => ?_, fun d hd hd' => ?_, ?_⟩
  · have := h.start
    rw [Nat.succ_mul]
    omega
  · rw [hlater d hd]
    exact h.plain d (by omega) hd'
  · rw [hlater d hd]
    exact h.free d (by omega) hd'
  · have hroom := h.room
    have hnb : (map'.put n i e).nodesNb = _ := hchange.nodesNb
    have halloc : (map'.put n i e).nodesNbAlloc = _ := hchange.nodesNbAlloc
    rw [entryAllocs_succ hi'] at hroom
    rw [entryAllocs_update, hnb, halloc]
    omega

theorem pageSpan_succ : pageSpan (level + 1) = pL2Size * pageSpan level := Radix.span_succ

theorem Entries.next (h : Entries lo hi level base n i map c parts)
    (hnb : nextPage lo hi level base i < hi) :
    nextPage lo hi level base i = max lo (base + i * pageSpan level) ∧
      (nextPage lo hi level base i % pageSpan level = 0 ↔ lo ≤ base + i * pageSpan level) := by
  have hnext : nextPage lo hi level base i = max lo (base + i * pageSpan level) := by
    unfold nextPage at *
    omega
  refine ⟨hnext, ?_⟩
  have hstart := h.start
  have hdvd : pageSpan level ∣ base + i * pageSpan level := Radix.block_dvd h.block.aligned
  rw [hnext]
  constructor
  · intro hmod
    by_contra hlt
    rw [max_eq_left (by omega)] at hmod
    have hrest := Nat.le_of_dvd (by omega) (Nat.dvd_sub (Nat.dvd_of_mod_eq_zero hmod) hdvd)
    omega
  · intro hle
    rw [max_eq_right hle]
    exact Nat.mod_eq_zero_of_dvd hdvd

theorem setEntry_spec (hbelow : ∀ l, level = l + 1 → Sets leaf l below)
    (hleaf : leaf ≠ physMapNodeNil)
    (h : Entries lo hi level base n i map c parts) (hi' : i < pL2Size)
    (hnb : nextPage lo hi level base i < hi) :
    ∃ map' e part, physPageSetEntries below (pageSpan level) leaf n (k + 1) i map
          (nextPage lo hi level base i) (hi - nextPage lo hi level base i) =
        physPageSetEntries below (pageSpan level) leaf n k (i + 1) (map'.put n i e)
          (nextPage lo hi level base (i + 1)) (hi - nextPage lo hi level base (i + 1)) ∧
      Rep map'.nodes (fillPages leaf lo hi level (base + i * pageSpan level) (c i)) e part ∧
      Changes map map' (parts i) part (pageAllocs lo hi level (base + i * pageSpan level)
        (c i)) := by
  obtain ⟨hnext, haligned⟩ := h.next hnb
  have hstart := h.start
  have hpos : 0 < pageSpan level := Radix.span_pos
  have hsucc : nextPage lo hi level base (i + 1) =
      min hi (base + i * pageSpan level + pageSpan level) := by
    rw [nextPage, Nat.succ_mul]
    omega
  rw [physPageSetEntries, if_neg (by omega)]
  by_cases hwhole : nextPage lo hi level base i % pageSpan level = 0 ∧
      hi - nextPage lo hi level base i ≥ pageSpan level
  · have hle := haligned.mp hwhole.1
    have hend : base + i * pageSpan level + pageSpan level ≤ hi := by omega
    refine ⟨map, ⟨0, leaf⟩, ∅, ?_, ?_, ?_⟩
    · rw [if_pos hwhole]
      congr 1 <;> omega
    · rw [fillPages, Radix.fill_within ⟨hle, hend⟩]
      exact ⟨rfl, hleaf, rfl⟩
    · rw [pageAllocs, Radix.allocs_eq_zero (.inr (.inr ⟨hle, hend⟩))]
      exact ⟨rfl, rfl, fun _ _ _ => rfl, fun _ hm => absurd hm (Set.notMem_empty _)⟩
  · rw [if_neg hwhole]
    cases level with
    | zero =>
      have hone : pageSpan 0 = 1 := by decide
      exact absurd ⟨by rw [hone, Nat.mod_one], by omega⟩ hwhole
    | succ l =>
      have hmeet : ¬(hi ≤ base + i * pageSpan (l + 1) ∨
          base + i * pageSpan (l + 1) + pageSpan (l + 1) ≤ lo) := by
        omega
      have hpart : ¬(lo ≤ base + i * pageSpan (l + 1) ∧
          base + i * pageSpan (l + 1) + pageSpan (l + 1) ≤ hi) := by
        omega
      have hplain := h.plain i le_rfl hi'
      have hfree := h.free i le_rfl hi'
      have hroom := h.room
      rw [entryAllocs_succ hi', pageAllocs, Radix.allocs_node hmeet hpart] at hroom
      obtain ⟨map', e, own, hcall, hrep, hchange⟩ := hbelow l rfl (h.holds.rep i hi')
        (fun m hm => h.holds.bound m (.inr ⟨i, hi', hm⟩)) hplain
        (hfree.not_leaf hplain hmeet h.block.nonempty) hfree
        ⟨Radix.block_dvd h.block.aligned, h.block.nonempty, by omega, hstart⟩ (by omega)
      refine ⟨map', e, own, ?_, ?_, ?_⟩
      · rw [hnext, hcall, hsucc]
        rfl
      · rw [fillPages, Radix.fill_node hmeet hpart]
        exact hrep
      · rw [pageAllocs, Radix.allocs_node hmeet hpart]
        exact hchange

theorem setEntries_spec (hbelow : ∀ l, level = l + 1 → Sets leaf l below)
    (hleaf : leaf ≠ physMapNodeNil)
    (hik : i + k = pL2Size) (h : Entries lo hi level base n i map c parts) :
    ∃ map' parts', physPageSetEntries below (pageSpan level) leaf n k i map
          (nextPage lo hi level base i) (hi - nextPage lo hi level base i) =
        some (map', min hi (base + pageSpan (level + 1)),
          hi - min hi (base + pageSpan (level + 1))) ∧
      Holds map' n (fun d => if d < i then c d else
        fillPages leaf lo hi level (base + d * pageSpan level) (c d)) parts' ∧
      Changes map map' (nodeOwn n parts) (nodeOwn n parts') (entryAllocs lo hi level base i c) := by
  have hafter := h.block.after
  induction k generalizing i map c parts with
  | zero =>
    obtain rfl : i = pL2Size := hik
    have hnext : nextPage lo hi level base pL2Size = min hi (base + pageSpan (level + 1)) := by
      rw [nextPage, ← pageSpan_succ, max_eq_right hafter.le]
    refine ⟨map, parts, ?_, h.holds.congr fun d hd => if_pos hd, ?_⟩
    · rw [physPageSetEntries, hnext]
    · rw [entryAllocs, Finset.Ico_self, Finset.sum_empty]
      exact .refl ..
  | succ k ih =>
    have hi' : i < pL2Size := by omega
    by_cases hnb : nextPage lo hi level base i < hi
    · obtain ⟨map₁, e, part, hturn, hrep, hchange⟩ := setEntry_spec (k := k) hbelow hleaf h hi' hnb
      obtain ⟨map', parts', hloop, hholds, hchange'⟩ :=
        ih (by omega) (h.advance hi' hrep hchange)
      refine ⟨map', parts', hturn.trans hloop, hholds.congr fun d hd => ?_, ?_⟩
      · rcases Nat.lt_trichotomy d i with hlt | rfl | hlt
        · rw [if_pos hlt, if_pos (by omega), Function.update_of_ne hlt.ne]
        · rw [if_neg (lt_irrefl d), if_pos (by omega), Function.update_self]
        · rw [if_neg (by omega), if_neg (by omega), Function.update_of_ne hlt.ne']
      · rw [entryAllocs_succ hi']
        rw [entryAllocs_update] at hchange'
        exact (h.holds.put hi' hrep hchange).2.trans hchange'
    · -- no page is left, and the other entries are after the last one
      have hlohi := h.block.nonempty
      have hdone : hi ≤ base + i * pageSpan level := by
        unfold nextPage at hnb
        omega
      have hrest : ∀ d, i ≤ d → hi ≤ base + d * pageSpan level := fun d hd =>
        hdone.trans (Nat.add_le_add_left (Nat.mul_le_mul_right _ hd) _)
      have hlast : base + i * pageSpan level + pageSpan level ≤ base + pageSpan (level + 1) :=
        Radix.block_le hi'
      have hnext : nextPage lo hi level base i = hi := by
        unfold nextPage
        omega
      refine ⟨map, parts, ?_, h.holds.congr fun d _ => ?_, ?_⟩
      · rw [physPageSetEntries, if_pos (by omega), hnext, min_eq_left (by omega)]
      · split
        · rfl
        · exact Radix.fill_apart (.inl (hrest d (by omega)))
      · have hnone : entryAllocs lo hi level base i c = 0 :=
          Finset.sum_eq_zero fun d hd => Radix.allocs_eq_zero
            (.inl (hrest d (Finset.mem_Ico.mp hd).1))
        rw [hnone]
        exact .refl ..

theorem enter_spec (hrep : Rep map.nodes t e own) (hbound : ∀ m ∈ own, m < map.nodesNb)
    (hplain : PlainPages (level + 1) t) (hnotleaf : ∀ x, t ≠ .leaf x)
    (hroom : map.nodesNb + t.made ≤ min map.nodesNbAlloc physMapNodeNil) :
    ∃ map' e' parts, physPageEnter level map e = some (map', e') ∧ e'.skip = 1 ∧
      e'.ptr ≠ physMapNodeNil ∧
      Holds map' e'.ptr (t.children physSectionUnassigned level) parts ∧
      Changes map map' own (nodeOwn e'.ptr parts) t.made := by
  cases t with
  | leaf x => exact absurd rfl (hnotleaf x)
  | empty =>
    obtain ⟨rfl, rfl⟩ := hrep
    have hmade : (Radix.empty : Radix Nat).made = 1 := rfl
    let fresh : PhysPageEntry :=
      if decide (level = 0) then ⟨0, physSectionUnassigned⟩ else ⟨1, physMapNodeNil⟩
    let map' : PhysPageMap := { map with
      nodesNb := map.nodesNb + 1, nodes := Function.update map.nodes map.nodesNb fun _ => fresh }
    have halloc : physMapNodeAlloc map (level = 0) = some (map.nodesNb, map') :=
      if_neg (by omega)
    refine ⟨map', ⟨1, map.nodesNb⟩, fun _ => ∅, ?_, rfl, by simp only; omega, ⟨?_, ?_, ?_⟩, ?_⟩
    · rw [physPageEnter, if_pos ⟨Nat.one_ne_zero, rfl⟩, halloc]
      rfl
    · intro d _
      have hentry : map'.nodes map.nodesNb d = fresh :=
        congrFun (Function.update_self map.nodesNb (fun _ => fresh) map.nodes) d
      rw [hentry]
      cases level with
      | zero => exact ⟨rfl, by decide, rfl⟩
      | succ level => exact ⟨rfl, rfl⟩
    · exact ⟨fun _ _ => Set.notMem_empty _, fun _ _ _ _ _ => Set.disjoint_empty _⟩
    · rintro m (rfl | ⟨d, -, hm⟩)
      · exact Nat.lt_succ_self _
      · exact absurd hm (Set.notMem_empty _)
    · refine ⟨rfl, rfl, fun m _ hlt => Function.update_of_ne hlt.ne .., ?_⟩
      rintro m (rfl | ⟨d, -, hm⟩)
      · exact .inr ⟨le_rfl, Nat.lt_succ_self _⟩
      · exact absurd hm (Set.notMem_empty _)
  | node skip c =>
    obtain ⟨hskip, -, hptr, parts, hparts, hsep, rfl⟩ := hrep
    obtain ⟨rfl, -⟩ := hplain
    refine ⟨map, e, parts, if_neg fun h => hptr h.2, hskip, hptr, ⟨hparts, hsep, hbound⟩, .refl ..⟩

structure First (lo hi level base i : Nat) : Prop where
  lt : i < pL2Size
  next : nextPage lo hi level base i = max lo base
  start : lo < base + i * pageSpan level + pageSpan level
  before : ∀ d < i, base + d * pageSpan level + pageSpan level ≤ lo

theorem Block.first (h : Block lo hi (level + 1) base) :
    First lo hi level base (Radix.digit pL2Bits level (max lo base)) := by
  have hpos : 0 < pageSpan level := Radix.span_pos
  have hwhole : 0 < pageSpan (level + 1) := Radix.span_pos
  have hbefore := h.before
  have hafter := h.after
  have hlohi := h.nonempty
  have hblock : base + Radix.digit pL2Bits level (max lo base) * pageSpan level ≤ max lo base ∧
      max lo base < base + Radix.digit pL2Bits level (max lo base) * pageSpan level +
        pageSpan level :=
    Radix.digit_block h.aligned (le_max_right lo base)
      (max_lt hafter (Nat.lt_add_of_pos_right hwhole))
  have hlt : Radix.digit pL2Bits level (max lo base) < pL2Size := Radix.digit_lt
  generalize Radix.digit pL2Bits level (max lo base) = i at hblock hlt ⊢
  refine ⟨hlt, ?_, by omega, fun d hd => ?_⟩
  · unfold nextPage
    omega
  · have hmul := Nat.mul_le_mul_right (pageSpan level) (Nat.succ_le_of_lt hd)
    rw [Nat.succ_mul] at hmul
    omega

theorem First.entryAllocs (h : First lo hi level base i) :
    entryAllocs lo hi level base i c =
      ∑ d ∈ Finset.range pL2Size, pageAllocs lo hi level (base + d * pageSpan level) (c d) := by
  rw [Board.entryAllocs, Finset.range_eq_Ico,
    ← Finset.sum_Ico_consecutive _ (Nat.zero_le i) h.lt.le]
  rw [Finset.sum_eq_zero (s := Finset.Ico 0 i), Nat.zero_add]
  exact fun d hd => Radix.allocs_eq_zero (.inr (.inl (h.before d (Finset.mem_Ico.mp hd).2)))

theorem setNode_spec (hbelow : ∀ l, level = l + 1 → Sets leaf l below)
    (hleaf : leaf ≠ physMapNodeNil) :
    Sets leaf level (physPageSetNode below leaf level) := by
  intro map t e own base lo hi hrep hbound hplain hnotleaf hfree hblock hroom
  have hfirst := hblock.first
  have hsum := hfirst.entryAllocs (c := t.children physSectionUnassigned level)
  have hallocs : t.allocsNode pL2Bits physSectionUnassigned lo hi level base = t.made +
      entryAllocs lo hi level base (Radix.digit pL2Bits level (max lo base))
        (t.children physSectionUnassigned level) := by
    rw [hsum]
    rfl
  rw [hallocs] at hroom ⊢
  obtain ⟨map₁, e₁, parts, henter, hskip, hptr, hholds, hchange⟩ :=
    enter_spec hrep hbound hplain hnotleaf (by omega)
  have hentries : Entries lo hi level base e₁.ptr (Radix.digit pL2Bits level (max lo base)) map₁
      (t.children physSectionUnassigned level) parts := by
    refine ⟨hblock, hfirst.start, hholds, fun d _ hd => hplain.children hd,
      fun d _ hd => hfree.children hplain hblock.aligned hnotleaf hd, ?_⟩
    rw [hchange.nodesNb, hchange.nodesNbAlloc]
    omega
  obtain ⟨map₂, parts', hloop, hholds', hchange'⟩ := setEntries_spec hbelow hleaf
    (Nat.add_sub_cancel' hfirst.lt.le) hentries
  refine ⟨map₂, e₁, nodeOwn e₁.ptr parts', ?_, ⟨hskip, Nat.one_ne_zero, hptr, parts', ?_,
    hholds'.separate, rfl⟩, hchange.trans hchange'⟩
  · have hdigit : (max lo base >>> (level * pL2Bits)) % pL2Size =
        Radix.digit pL2Bits level (max lo base) := by
      rw [Nat.shiftRight_eq_div_pow]
      rfl
    have hstep : 1 <<< (level * pL2Bits) = pageSpan level := Nat.one_shiftLeft _
    rw [hfirst.next] at hloop
    simp only [physPageSetNode, henter, Option.bind_eq_bind, Option.bind_some, hdigit, hstep, hloop]
    rfl
  · intro d hd
    have hrep' := hholds'.rep d hd
    split at hrep'
    case isTrue hlt =>
      have hsame : fillPages leaf lo hi level (base + d * pageSpan level)
          (t.children physSectionUnassigned level d) = t.children physSectionUnassigned level d :=
        Radix.fill_apart (.inr (hfirst.before d hlt))
      change Rep _ (fillPages leaf lo hi level (base + d * pageSpan level) _) _ _
      rw [hsame]
      exact hrep'
    case isFalse => exact hrep'

theorem setLevel_spec (hleaf : leaf ≠ physMapNodeNil) (level : Nat) :
    Sets leaf level (physPageSetLevel leaf level) := by
  induction level with
  | zero => exact setNode_spec (fun l hl => absurd hl (Nat.succ_ne_zero l).symm) hleaf
  | succ level ih =>
    refine setNode_spec (fun l hl => ?_) hleaf
    obtain rfl := Nat.succ.inj hl
    exact ih

end Setting

section Compacting

variable {n i depth : Nat} {map map₀ : PhysPageMap} {t : Radix Nat} {e : PhysPageEntry}
  {own : Set Nat} {c : Nat → Radix Nat} {parts : Nat → Set Nat} {scan : CompactScan}
  {below : Compact}

def Compacts (f : Compact) (t : Radix Nat) : Prop :=
  ∀ {map e own}, Rep map.nodes t e own → (∀ m ∈ own, m < map.nodesNb) →
    ∃ own', Rep (f map e).1.nodes (t.compact pL2Bits) (f map e).2 own' ∧
      Changes map (f map e).1 own own' 0

def inUse (c : Nat → Radix Nat) (k : Nat) : List Nat :=
  (List.range k).filter fun d => !(c d).isEmpty

structure Scanned (map : PhysPageMap) (n : Nat) (c : Nat → Radix Nat) (parts : Nat → Set Nat)
    (i : Nat) (scan : CompactScan) : Prop where
  entries : ∃ parts', Holds scan.map n (fun d => if d < i then (c d).compact pL2Bits else c d)
    parts' ∧
    Changes map scan.map (nodeOwn n parts) (nodeOwn n parts') 0
  valid : scan.valid = (inUse c i).length
  validPtr : scan.validPtr = (inUse c i).getLastD pL2Size

theorem inUse_succ (c : Nat → Radix Nat) (i : Nat) :
    inUse c (i + 1) = inUse c i ++ if (c i).isEmpty then [] else [i] := by
  rw [inUse, List.range_succ, List.filter_append, List.filter_singleton]
  cases (c i).isEmpty <;> rfl

theorem inUse_succ_of_empty (h : (c i).isEmpty = true) : inUse c (i + 1) = inUse c i := by
  rw [inUse_succ, h, if_pos rfl, List.append_nil]

theorem inUse_succ_of_nonempty (h : (c i).isEmpty = false) :
    inUse c (i + 1) = inUse c i ++ [i] := by
  rw [inUse_succ, h, if_neg Bool.false_ne_true]

theorem Scanned.pass (h : Scanned map n c parts i scan) (hsame : (c i).compact pL2Bits = c i) :
    ∃ parts', Holds scan.map n (fun d => if d < i + 1 then (c d).compact pL2Bits else c d) parts' ∧
      Changes map scan.map (nodeOwn n parts) (nodeOwn n parts') 0 := by
  obtain ⟨parts', hholds, hchange⟩ := h.entries
  refine ⟨parts', hholds.congr fun d _ => ?_, hchange⟩
  rcases Nat.lt_trichotomy d i with hlt | rfl | hlt
  · rw [if_pos hlt, if_pos (by omega)]
  · rw [if_pos (by omega), if_neg (by omega), hsame]
  · rw [if_neg (by omega), if_neg (by omega)]

theorem Scanned.step (h : Scanned map n c parts i scan) (hi : i < pL2Size)
    (hbelow : (∀ x, c i ≠ .leaf x) → Compacts below (c i)) :
    Scanned map n c parts (i + 1) (physPageCompactEntry below n scan i) := by
  obtain ⟨parts', hholds, hchange⟩ := h.entries
  have hrep := hholds.rep i hi
  simp only [lt_irrefl, if_false] at hrep
  cases hci : c i with
  | leaf a =>
    rw [hci] at hrep
    obtain ⟨hentry, ha, -⟩ := hrep
    have hstep : physPageCompactEntry below n scan i = ⟨scan.map, scan.valid + 1, i⟩ := by
      simp [physPageCompactEntry, hentry, ha]
    have huse := inUse_succ_of_nonempty (c := c) (i := i) (by rw [hci]; rfl)
    rw [hstep]
    refine ⟨h.pass (by rw [hci]; rfl), ?_, ?_⟩
    · rw [huse, List.length_append, h.valid]
      rfl
    · rw [huse, List.getLastD_concat]
  | empty =>
    rw [hci] at hrep
    have hstep : physPageCompactEntry below n scan i = scan := by
      simp [physPageCompactEntry, hrep.1]
    have huse := inUse_succ_of_empty (c := c) (i := i) (by rw [hci]; rfl)
    rw [hstep]
    refine ⟨h.pass (by rw [hci]; rfl), ?_, ?_⟩
    · rw [huse, h.valid]
    · rw [huse, h.validPtr]
  | node skip c' =>
    obtain ⟨part, hrep', hchange'⟩ := hbelow (fun x => by simp [hci]) hrep
      fun m hm => hholds.bound m (.inr ⟨i, hi, hm⟩)
    obtain ⟨hput, hputs⟩ := hholds.put hi hrep' hchange'
    rw [hci] at hrep
    obtain ⟨hskip, hne, hptr, -⟩ := hrep
    have hstep : physPageCompactEntry below n scan i =
        ⟨(below scan.map (scan.map.nodes n i)).1.put n i (below scan.map (scan.map.nodes n i)).2,
          scan.valid + 1, i⟩ := by
      simp [physPageCompactEntry, hptr, hskip, hne]
    have huse := inUse_succ_of_nonempty (c := c) (i := i) (by rw [hci]; rfl)
    rw [hstep]
    refine ⟨⟨_, hput.congr fun d _ => ?_, hchange.trans hputs⟩, ?_, ?_⟩
    · rcases Nat.lt_trichotomy d i with hlt | rfl | hlt
      · rw [if_pos (by omega), Function.update_of_ne hlt.ne, if_pos hlt]
      · rw [if_pos (by omega), Function.update_self]
      · rw [if_neg (by omega), Function.update_of_ne hlt.ne', if_neg (by omega)]
    · rw [huse, List.length_append, h.valid]
      rfl
    · rw [huse, List.getLastD_concat]

theorem Scanned.run (hholds : Holds map n c parts)
    (hbelow : ∀ i < pL2Size, (∀ x, c i ≠ .leaf x) → Compacts below (c i)) (hi : i ≤ pL2Size) :
    Scanned map n c parts i
      ((List.range i).foldl (physPageCompactEntry below n) ⟨map, 0, pL2Size⟩) := by
  induction i with
  | zero =>
    refine ⟨⟨parts, hholds.congr fun d _ => if_neg (Nat.not_lt_zero d), .refl ..⟩, rfl, rfl⟩
  | succ i ih =>
    rw [List.range_succ, List.foldl_append]
    exact (ih (by omega)).step (by omega) (hbelow i (by omega))

theorem Rep.lift {skip : Nat} (hrep : Rep map.nodes t e own) (hne : t.isEmpty = false) :
    Rep map.nodes (t.lift skip) (if e.skip = 0 then ⟨0, e.ptr⟩ else ⟨skip + e.skip, e.ptr⟩)
      own := by
  cases t with
  | leaf a =>
    obtain ⟨rfl, ha, rfl⟩ := hrep
    exact ⟨rfl, ha, rfl⟩
  | empty => exact absurd hne Bool.true_eq_false.mp
  | node skip' c =>
    obtain ⟨rfl, hne, hptr, hparts⟩ := hrep
    rw [if_neg hne]
    exact ⟨rfl, by omega, hptr, hparts⟩

theorem Scanned.lift (h : Scanned map e.ptr c parts pL2Size scan) (hskip : e.skip ≠ 0)
    (hptr : e.ptr ≠ physMapNodeNil) :
    ∃ own', Rep scan.map.nodes ((Radix.node e.skip c).compact pL2Bits) (physPageLift e scan) own' ∧
      Changes map scan.map (nodeOwn e.ptr parts) own' 0 := by
  obtain ⟨parts', hholds, hchange⟩ := h.entries
  have hrep : ∀ d < pL2Size,
      Rep scan.map.nodes ((c d).compact pL2Bits) (scan.map.nodes e.ptr d) (parts' d) := by
    intro d hd
    have hrep := hholds.rep d hd
    rwa [if_pos hd] at hrep
  rw [Radix.compact]
  split
  case h_1 d honly =>
    have hone : inUse c pL2Size = [d] := honly
    have hvalid : scan.valid = 1 := by rw [h.valid, hone]; rfl
    have hvalidPtr : scan.validPtr = d := by rw [h.validPtr, hone]; rfl
    have hmem : d ∈ inUse c pL2Size := hone ▸ List.mem_cons_self
    have hd : d < pL2Size := List.mem_range.mp (List.mem_filter.mp hmem).1
    have hne : ((c d).compact pL2Bits).isEmpty = false := by
      rw [Radix.isEmpty_compact]
      exact (Bool.not_eq_true' _).mp (List.mem_filter.mp hmem).2
    have hlift : physPageLift e scan = if (scan.map.nodes e.ptr d).skip = 0 then
        ⟨0, (scan.map.nodes e.ptr d).ptr⟩
      else ⟨e.skip + (scan.map.nodes e.ptr d).skip, (scan.map.nodes e.ptr d).ptr⟩ := by
      rw [physPageLift, hvalidPtr, if_neg (not_not.mpr hvalid), if_neg fun hbits => ?_]
      exact absurd hbits.1 (by decide)
    rw [hlift]
    refine ⟨parts' d, (hrep d hd).lift hne, hchange.nodesNb, hchange.nodesNbAlloc, hchange.kept,
      fun m hm => hchange.fresh m (.inr ⟨d, hd, hm⟩)⟩
  case h_2 hmany =>
    have hlift : physPageLift e scan = e := by
      refine if_pos fun hvalid => ?_
      obtain ⟨d, hone⟩ := List.length_eq_one_iff.mp (h.valid.symm.trans hvalid)
      exact hmany d hone
    rw [hlift]
    exact ⟨nodeOwn e.ptr parts', ⟨rfl, hskip, hptr, parts', hrep, hholds.separate, rfl⟩, hchange⟩

theorem compactNode_spec (hbelow : ∀ c : Nat → Radix Nat, ∀ skip, t = .node skip c →
      ∀ d < pL2Size, (∀ x, c d ≠ .leaf x) → Compacts below (c d))
    (hnotleaf : ∀ x, t ≠ .leaf x) : Compacts (physPageCompactNode below) t := by
  intro map e own hrep hbound
  cases t with
  | leaf x => exact absurd rfl (hnotleaf x)
  | empty =>
    have hnil : e.ptr = physMapNodeNil := by rw [hrep.1]
    have hcall : physPageCompactNode below map e = (map, e) := if_pos hnil
    rw [hcall]
    exact ⟨own, hrep, .refl ..⟩
  | node skip c =>
    obtain ⟨rfl, hskip, hptr, parts, hparts, hsep, rfl⟩ := hrep
    have hscan := Scanned.run ⟨hparts, hsep, hbound⟩ (hbelow c _ rfl) (le_refl pL2Size)
    generalize hfold : (List.range pL2Size).foldl (physPageCompactEntry below e.ptr)
      ⟨map, 0, pL2Size⟩ =
      scan at hscan
    have hcall : physPageCompactNode below map e = (scan.map, physPageLift e scan) := by
      simp only [physPageCompactNode, hptr, if_false, hfold]
    rw [hcall]
    exact hscan.lift hskip hptr

theorem compact_spec (hfits : t.Fits pL2Bits i) (hdepth : i ≤ depth) (hnotleaf : ∀ x, t ≠ .leaf x) :
    Compacts (physPageCompact depth) t := by
  induction depth generalizing i t with
  | zero =>
    cases t with
    | leaf x => exact absurd rfl (hnotleaf x)
    | empty =>
      have hpos : 0 < i := hfits
      omega
    | node skip c =>
      obtain ⟨hpos, hle, -⟩ := hfits
      omega
  | succ depth ih =>
    refine compactNode_spec ?_ hnotleaf
    rintro c skip rfl d hd hleaf
    obtain ⟨hpos, -, hc⟩ := hfits
    exact ih (hc d hd) (by omega) hleaf

end Compacting

end QemuBoard.Board
