import QemuBoard.Board.Memory
import Mathlib.Algebra.Ring.Int.Defs
import Mathlib.Data.List.Chain

namespace QemuBoard.Board

open Library

variable {ρ : Type}

structure Target (ρ : Type) where
  mr : ρ
  offset : Int
  dirtyLogMask : Nat
  romdMode : Bool
  attrs : Attributes
  deriving DecidableEq

def FlatRange.target (r : FlatRange ρ) (a : Int) : Target ρ :=
  ⟨r.mr, r.offsetInRegion + (a - r.addr.start), r.dirtyLogMask, r.romdMode, r.attrs⟩

def FlatView.lookup (view : FlatView ρ) (a : Int) : Option (Target ρ) :=
  look FlatRange.addr FlatRange.target view a

abbrev FlatView.Sorted (view : FlatView ρ) : Prop := Ascending FlatRange.addr view

def Fields.range (f : Fields ρ) (base : Int) : Span := ⟨base + f.addr, f.size⟩

def Fields.target (f : Fields ρ) (base : Int) (attrs : Attributes) (a : Int) : Target ρ :=
  ⟨f.mr, a - (base + f.addr), f.dirtyLogMask, f.romdMode, attrs⟩

mutual

/-- The meaning of the tree at one address: a region hides what lies under its range, an
alias shows a window of its target, and the first subregion that answers is the one seen. -/
def resolve (a : Int) (mr : MemoryRegion ρ) (base : Int) (attrs : Attributes) :
    Option (Target ρ) :=
  match mr with
  | .alias f target aliasOffset =>
    if f.enabled ∧ (f.range base).Has a then
      resolve a target (base + f.addr - target.fields.addr - aliasOffset) (attrs.or f.attrs)
    else none
  | .plain f terminates subregions =>
    if f.enabled ∧ (f.range base).Has a then
      (resolveFirst a subregions (base + f.addr) (attrs.or f.attrs)).or
        (if terminates then some (f.target base (attrs.or f.attrs) a) else none)
    else none

def resolveFirst (a : Int) (subregions : List (MemoryRegion ρ)) (base : Int)
    (attrs : Attributes) : Option (Target ρ) :=
  match subregions with
  | [] => none
  | subregion :: rest => (resolve a subregion base attrs).or (resolveFirst a rest base attrs)

end

section Gaps

variable {fr r : FlatRange ρ} {ranges view : FlatView ρ} {base off remain k a : Int}

def gap (fr : FlatRange ρ) (base off remain a : Int) : Option (Target ρ) :=
  if Span.Has ⟨base, remain⟩ a then
    some (FlatRange.target { fr with offsetInRegion := off, addr := ⟨base, remain⟩ } a)
  else none

theorem gap_empty : gap fr base off 0 a = none :=
  if_neg (Span.not_has_of_size (le_refl _) a)

theorem gap_skip (ha : ¬Span.Has ⟨base, k⟩ a) (hk : 0 ≤ k) :
    gap fr (base + k) (off + k) (remain - k) a = gap fr base off remain a := by
  have hiff : Span.Has ⟨base + k, remain - k⟩ a ↔ Span.Has ⟨base, remain⟩ a := by
    simp only [Span.Has, Span.stop] at ha ⊢
    omega
  simp only [gap, hiff, FlatRange.target]
  congr 3
  omega

theorem lookup_cons : FlatView.lookup (r :: ranges) a =
    if r.addr.Has a then some (r.target a) else FlatView.lookup ranges a :=
  look_cons

theorem gap_of_has (ha : Span.Has ⟨base, k⟩ a) (hk : k ≤ remain) :
    gap fr base off remain a =
      some (FlatRange.target { fr with offsetInRegion := off, addr := ⟨base, k⟩ } a) := by
  apply if_pos
  simp only [Span.Has, Span.stop] at ha ⊢
  omega

def piece (fr : FlatRange ρ) (base off now : Int) : FlatView ρ :=
  if now ≠ 0 then [{ fr with offsetInRegion := off, addr := ⟨base, now⟩ }] else []

theorem piece_zero : piece fr base off 0 = [] := if_neg (not_not.mpr rfl)

theorem fillGaps_nil : fillGaps fr [] base off remain = some (piece fr base off remain) := rfl

theorem fillGaps_zero : fillGaps fr ranges base off 0 = some ranges := by
  cases ranges <;> simp [fillGaps]

theorem int128Get64_bind {α : Type} (h : 0 ≤ a) (f : Int → Option α) :
    (int128Get64 a >>= f) = f a ∨ (int128Get64 a >>= f) = none ∧ 2 ^ 64 ≤ a := by
  rw [int128Get64]
  split
  · exact .inl rfl
  · exact .inr ⟨rfl, by omega⟩

/-- How one turn of the loop gets past the range `r`: `now` is what fits before it, and up
to `k` the region lies under it. -/
structure Passes (r : FlatRange ρ) (base remain now k : Int) : Prop where
  nonneg : 0 ≤ now
  le : now ≤ k
  le_remain : k ≤ remain
  before : now = 0 ∨ base + now ≤ r.addr.start
  under : k = now ∨ r.addr.start ≤ base + now ∧ base + k ≤ r.addr.stop
  past : k = remain ∨ r.addr.stop ≤ base + k

def passed (fr r : FlatRange ρ) (ranges : FlatView ρ) (base off remain now k : Int) :
    Option (FlatView ρ) :=
  (fillGaps fr ranges (base + k) (off + k) (remain - k)).map fun view =>
    piece fr base off now ++ r :: view

theorem fillGaps_cons (fr : FlatRange ρ) (ranges : FlatView ρ) (base off : Int)
    (hsize : 0 < r.addr.size) (hremain : 0 ≤ remain) :
    ∃ now k, Passes r base remain now k ∧
      (fillGaps fr (r :: ranges) base off remain = passed fr r ranges base off remain now k ∨
        fillGaps fr (r :: ranges) base off remain = none ∧ 2 ^ 64 ≤ remain) := by
  have hstop : r.addr.stop = r.addr.start + r.addr.size := rfl
  by_cases hzero : remain = 0
  · refine ⟨0, 0, ?passes, .inl ?turn⟩
    case passes => constructor <;> omega
    case turn => simp [hzero, passed, fillGaps_zero, piece_zero]
  by_cases hpast : base ≥ r.addr.stop
  · refine ⟨0, 0, ?passes, .inl ?turn⟩
    case passes => constructor <;> omega
    case turn => simp [fillGaps, hzero, hpast, passed, piece_zero, Option.map_eq_bind]
  by_cases hbefore : base < r.addr.start
  · -- the region is seen before `r`, and then passes under it
    obtain ⟨now, hnow⟩ : ∃ now, now = min remain (r.addr.start - base) := ⟨_, rfl⟩
    obtain ⟨skip, hskip⟩ :
        ∃ skip, skip = min (base + now + (remain - now)) r.addr.stop - (base + now) := ⟨_, rfl⟩
    refine ⟨now, now + skip, ?passes, ?turn⟩
    case passes => constructor <;> omega
    case turn =>
      have hne : now ≠ 0 := by omega
      rw [fillGaps, if_neg hzero, if_neg hpast, if_pos hbefore, ← hnow]
      rcases int128Get64_bind (a := now) (by omega) _ with hget | ⟨hfail, hbig⟩
      case inr => exact .inr ⟨hfail, by omega⟩
      rw [hget, ← hskip]
      rcases int128Get64_bind (a := skip) (by omega) _ with hget | ⟨hfail, hbig⟩
      case inr => exact .inr ⟨hfail, by omega⟩
      left
      rw [hget, passed, Option.map_eq_bind, piece, if_pos hne]
      simp only [add_assoc, sub_add_eq_sub_sub]
      rfl
  · obtain ⟨now, hnow⟩ : ∃ now, now = min (base + remain) r.addr.stop - base := ⟨_, rfl⟩
    refine ⟨0, now, ?passes, ?turn⟩
    case passes => constructor <;> omega
    case turn =>
      rw [fillGaps, if_neg hzero, if_neg hpast, if_neg hbefore, ← hnow]
      rcases int128Get64_bind (a := now) (by omega) _ with hget | ⟨hfail, hbig⟩
      case inr => exact .inr ⟨hfail, by omega⟩
      left
      rw [hget, passed, Option.map_eq_bind, piece_zero]
      rfl

theorem fillGaps_cons_some (hsize : 0 < r.addr.size) (hremain : 0 ≤ remain)
    (h : fillGaps fr (r :: ranges) base off remain = some view) :
    ∃ now k rest, Passes r base remain now k ∧
      fillGaps fr ranges (base + k) (off + k) (remain - k) = some rest ∧
      view = piece fr base off now ++ r :: rest := by
  obtain ⟨now, k, hpasses, heq | ⟨hfail, -⟩⟩ := fillGaps_cons fr ranges base off hsize hremain
  case inr => exact absurd (hfail.symm.trans h) (Option.some_ne_none _).symm
  obtain ⟨rest, hrest, rfl⟩ := Option.map_eq_some_iff.mp (heq.symm.trans h)
  exact ⟨now, k, rest, hpasses, hrest, rfl⟩

theorem fillGaps_succeeds (h : FlatView.Sorted ranges) (hremain : 0 ≤ remain)
    (hbound : remain < 2 ^ 64) : ∃ view, fillGaps fr ranges base off remain = some view := by
  induction ranges generalizing base off remain with
  | nil => exact ⟨_, fillGaps_nil⟩
  | cons r ranges ih =>
    obtain ⟨hsize, -, htail⟩ := Ascending.cons_iff.mp h
    obtain ⟨now, k, hpasses, heq | ⟨-, hbig⟩⟩ := fillGaps_cons fr ranges base off hsize hremain
    case inr => exact absurd hbound (not_lt.mpr hbig)
    have hnow := hpasses.nonneg
    have hle := hpasses.le
    have hk := hpasses.le_remain
    obtain ⟨rest, hrest⟩ :
        ∃ rest, fillGaps fr ranges (base + k) (off + k) (remain - k) = some rest :=
      ih htail (by omega) (by omega)
    rw [heq, passed, hrest]
    exact ⟨_, rfl⟩

theorem lookup_append {left : FlatView ρ} : FlatView.lookup (left ++ ranges) a =
    (FlatView.lookup left a).or (FlatView.lookup ranges a) := by
  induction left with
  | nil => rfl
  | cons r left ih =>
    rw [List.cons_append, lookup_cons, lookup_cons, ih]
    split <;> rfl

theorem lookup_piece : FlatView.lookup (piece fr base off remain) a = gap fr base off remain a := by
  by_cases hzero : remain = 0
  · rw [hzero, gap_empty, piece_zero]
    rfl
  · rw [piece, if_pos hzero, lookup_cons]
    rfl

theorem lookup_fillGaps (h : FlatView.Sorted ranges) (hremain : 0 ≤ remain)
    (hview : fillGaps fr ranges base off remain = some view) :
    view.lookup a = (FlatView.lookup ranges a).or (gap fr base off remain a) := by
  induction ranges generalizing base off remain view with
  | nil =>
    obtain rfl := Option.some.inj hview
    exact lookup_piece
  | cons r ranges ih =>
    obtain ⟨hsize, -, htail⟩ := Ascending.cons_iff.mp h
    obtain ⟨now, k, rest, ⟨hnow, hle, hk, hbefore, hunder, -⟩, hrest, rfl⟩ :=
      fillGaps_cons_some hsize hremain hview
    have hstop : r.addr.stop = r.addr.start + r.addr.size := rfl
    rw [lookup_append, lookup_cons, lookup_cons, lookup_piece, ih htail (by omega) hrest]
    by_cases hr : r.addr.Has a
    · have hnot : ¬Span.Has ⟨base, now⟩ a := by
        simp only [Span.Has, Span.stop] at hr ⊢
        omega
      simp [hr, gap, hnot]
    rw [if_neg hr, if_neg hr]
    by_cases hpiece : Span.Has ⟨base, now⟩ a
    · -- what lies before `r` lies before the ranges that follow it
      have hbelow : a < r.addr.stop := by
        simp only [Span.Has, Span.stop] at hpiece ⊢
        omega
      have hnone : FlatView.lookup ranges a = none := h.look_tail hbelow
      rw [hnone, Option.none_or, gap_of_has hpiece (hle.trans hk), gap_of_has hpiece le_rfl]
      rfl
    · have hskip : ¬Span.Has ⟨base, k⟩ a := by
        simp only [Span.Has, Span.stop] at hr hpiece ⊢
        omega
      have hnone : gap fr base off now a = none := if_neg hpiece
      rw [hnone, Option.none_or, gap_skip hskip (hnow.trans hle)]

theorem mem_piece (h : r ∈ piece fr base off remain) : r.addr = ⟨base, remain⟩ ∧ remain ≠ 0 := by
  rw [piece] at h
  split at h
  case isTrue hne =>
    rw [List.mem_singleton.mp h]
    exact ⟨rfl, hne⟩
  case isFalse => exact absurd h List.not_mem_nil

theorem start_fillGaps {lo : Int} (h : FlatView.Sorted ranges) (hremain : 0 ≤ remain)
    (hbase : lo ≤ base) (hlo : ∀ r ∈ ranges, lo ≤ r.addr.start)
    (hview : fillGaps fr ranges base off remain = some view) : ∀ r ∈ view, lo ≤ r.addr.start := by
  induction ranges generalizing base off remain view with
  | nil =>
    obtain rfl := Option.some.inj hview
    intro r hr
    rw [(mem_piece hr).1]
    exact hbase
  | cons r ranges ih =>
    obtain ⟨hsize, -, htail⟩ := Ascending.cons_iff.mp h
    obtain ⟨now, k, rest, ⟨hnow, hle, hk, -, -, -⟩, hrest, rfl⟩ :=
      fillGaps_cons_some hsize hremain hview
    intro x hx
    rcases List.mem_append.mp hx with hpiece | hx
    · rw [(mem_piece hpiece).1]
      exact hbase
    rcases List.mem_cons.mp hx with rfl | hlater
    · exact hlo x List.mem_cons_self
    · have hlo' : ∀ y ∈ ranges, lo ≤ y.addr.start := fun y hy => hlo y (List.mem_cons_of_mem r hy)
      exact ih htail (by omega) (by omega) hlo' hrest x hlater

theorem sorted_fillGaps (h : FlatView.Sorted ranges) (hremain : 0 ≤ remain)
    (hview : fillGaps fr ranges base off remain = some view) : view.Sorted := by
  induction ranges generalizing base off remain view with
  | nil =>
    obtain rfl := Option.some.inj hview
    refine ⟨fun x hx => ?_, ?_⟩
    · obtain ⟨haddr, hne⟩ := mem_piece hx
      rw [haddr]
      simp only
      omega
    · split
      · exact List.pairwise_singleton _ _
      · exact .nil
  | cons r ranges ih =>
    obtain ⟨hsize, hafter, htail⟩ := Ascending.cons_iff.mp h
    obtain ⟨now, k, rest, ⟨hnow, hle, hk, hbefore, hunder, hpast⟩, hrest, rfl⟩ :=
      fillGaps_cons_some hsize hremain hview
    have hlater : ∀ x ∈ rest, r.addr.stop ≤ x.addr.start := by
      rcases hpast with rfl | hstop
      · rw [sub_self, fillGaps_zero] at hrest
        exact Option.some.inj hrest ▸ hafter
      · exact start_fillGaps htail (by omega) hstop hafter hrest
    have hsorted : FlatView.Sorted (r :: rest) :=
      Ascending.cons_iff.mpr ⟨hsize, hlater, ih htail (by omega) hrest⟩
    by_cases hzero : now = 0
    · rw [hzero, piece_zero]
      exact hsorted
    · have hfront : base + now ≤ r.addr.start := hbefore.resolve_left hzero
      have hstop : r.addr.stop = r.addr.start + r.addr.size := rfl
      rw [piece, if_pos hzero, List.singleton_append]
      refine Ascending.cons_iff.mpr ⟨by simp only; omega, ?_, hsorted⟩
      intro x hx
      simp only [Span.stop]
      rcases List.mem_cons.mp hx with rfl | hx
      · exact hfront
      · have := hlater x hx
        omega

end Gaps

theorem addrrangeIntersects_iff {r1 r2 : Span} :
    addrrangeIntersects r1 r2 = true ↔ r1.Has r2.start ∨ r2.Has r1.start := by
  simp only [addrrangeIntersects, Bool.or_eq_true, decide_eq_true_eq]

theorem addrrangeIntersects_of_has {r1 r2 : Span} {a : Int} (h1 : r1.Has a) (h2 : r2.Has a) :
    addrrangeIntersects r1 r2 = true := by
  rw [addrrangeIntersects_iff]
  simp only [Span.Has, Span.stop] at h1 h2 ⊢
  omega

theorem meet_size_nonneg {r1 r2 : Span} (h : addrrangeIntersects r1 r2 = true)
    (h1 : 0 ≤ r1.size) (h2 : 0 ≤ r2.size) : 0 ≤ (r1.meet r2).size := by
  rw [addrrangeIntersects_iff] at h
  simp only [Span.Has, Span.stop, Span.meet] at h ⊢
  omega

theorem meet_start {r1 r2 : Span} (h : addrrangeIntersects r1 r2 = true) (h1 : r1.size ≤ 2 ^ 64) :
    0 ≤ (r1.meet r2).start - r1.start ∧ (r1.meet r2).start - r1.start < 2 ^ 64 := by
  rw [addrrangeIntersects_iff] at h
  simp only [Span.Has, Span.stop, Span.meet] at h ⊢
  omega

/-- The result is a view that shows what `view` shows, and below it `shown` within the clip. -/
structure Renders (view result : FlatView ρ) (clip : Span) (shown : Int → Option (Target ρ)) :
    Prop where
  sorted : FlatView.Sorted result
  lookup : ∀ a, result.lookup a = (view.lookup a).or (if clip.Has a then shown a else none)

section Renders

variable {view result result' : FlatView ρ} {clip : Span} {shown shown' : Int → Option (Target ρ)}
  {f : Fields ρ} {base : Int} {attrs : Attributes}

theorem Renders.nothing (hview : view.Sorted) (h : ∀ a, clip.Has a → shown a = none) :
    Renders view view clip shown where
  sorted := hview
  lookup a := by
    split
    case isTrue ha => rw [h a ha, Option.or_none]
    case isFalse => rw [Option.or_none]

theorem Renders.trans (h : Renders view result clip shown)
    (h' : Renders result result' clip shown') :
    Renders view result' clip fun a => (shown a).or (shown' a) where
  sorted := h'.sorted
  lookup a := by
    rw [h'.lookup, h.lookup, Option.or_assoc]
    split <;> rfl

theorem Renders.region {body : Option (FlatView ρ)} (hview : view.Sorted)
    (h : f.enabled → addrrangeIntersects (f.range base) clip = true → body = some result →
      Renders view result ((f.range base).meet clip) shown)
    (hresult : (if f.enabled = false then some view
      else if addrrangeIntersects (f.range base) clip = false then some view
      else body) = some result) :
    Renders view result clip fun a =>
      if f.enabled ∧ (f.range base).Has a then shown a else none := by
  split_ifs at hresult with henabled hinter
  · obtain rfl := Option.some.inj hresult
    apply Renders.nothing hview
    intro a _
    simp [henabled]
  · obtain rfl := Option.some.inj hresult
    apply Renders.nothing hview
    intro a ha
    apply if_neg
    intro ⟨_, hrange⟩
    rw [addrrangeIntersects_of_has hrange ha] at hinter
    exact Bool.noConfusion hinter
  · rw [Bool.not_eq_false] at henabled hinter
    have hinner := h henabled hinter hresult
    refine ⟨hinner.sorted, fun a => ?_⟩
    rw [hinner.lookup]
    congr 1
    simp only [Span.has_meet, henabled, true_and]
    split_ifs <;> simp_all

theorem renderContents_true (h : addrrangeIntersects (f.range base) clip = true) :
    renderContents view f true (base + f.addr) ((f.range base).meet clip) attrs =
      fillGaps ⟨f.mr, 0, (f.range base).meet clip, f.dirtyLogMask, f.romdMode, attrs⟩ view
        ((f.range base).meet clip).start (((f.range base).meet clip).start - (base + f.addr))
        ((f.range base).meet clip).size := by
  obtain ⟨hnonneg, hlt⟩ := meet_start h (by have := f.size_le; simp only [Fields.range]; omega)
  exact (int128Get64_bind hnonneg _).resolve_right fun hfail => absurd hlt (not_lt.mpr hfail.2)

theorem Renders.contents {terminates : Bool} (hview : view.Sorted) (hclip : 0 ≤ clip.size)
    (hinter : addrrangeIntersects (f.range base) clip = true)
    (h : renderContents view f terminates (base + f.addr) ((f.range base).meet clip) attrs =
      some result) :
    Renders view result ((f.range base).meet clip)
      fun a => if terminates then some (f.target base attrs a) else none := by
  cases terminates with
  | false =>
    obtain rfl := Option.some.inj h
    exact Renders.nothing hview fun _ _ => rfl
  | true =>
    rw [renderContents_true hinter] at h
    have hsize := meet_size_nonneg hinter (Int.natCast_nonneg f.size) hclip
    refine ⟨sorted_fillGaps hview hsize h, fun a => ?_⟩
    rw [lookup_fillGaps hview hsize h]
    simp only [gap, FlatRange.target, Fields.target, if_true]
    congr 4
    omega

theorem region_succeeds {body : Option (FlatView ρ)}
    (h : addrrangeIntersects (f.range base) clip = true → ∃ result, body = some result) :
    ∃ result, (if f.enabled = false then some view
      else if addrrangeIntersects (f.range base) clip = false then some view
      else body) = some result := by
  split_ifs with henabled hinter
  · exact ⟨view, rfl⟩
  · exact ⟨view, rfl⟩
  · exact h (Bool.not_eq_false _ ▸ hinter)

theorem renderContents_succeeds {terminates : Bool} (hview : view.Sorted) (hclip : 0 ≤ clip.size)
    (hinter : addrrangeIntersects (f.range base) clip = true) (h : terminates → f.size < 2 ^ 64) :
    ∃ result, renderContents view f terminates (base + f.addr) ((f.range base).meet clip) attrs =
      some result := by
  cases terminates with
  | false => exact ⟨view, rfl⟩
  | true =>
    rw [renderContents_true hinter]
    apply fillGaps_succeeds hview (meet_size_nonneg hinter (Int.natCast_nonneg f.size) hclip)
    have hbound := h rfl
    simp only [Span.meet, Span.stop, Fields.range]
    omega

end Renders

mutual

theorem renders_memoryRegion (view : FlatView ρ) (mr : MemoryRegion ρ) (base : Int) (clip : Span)
    (attrs : Attributes) (hview : view.Sorted) (hclip : 0 ≤ clip.size) {result : FlatView ρ}
    (h : renderMemoryRegion view mr base clip attrs = some result) :
    Renders view result clip fun a => resolve a mr base attrs := by
  match mr with
  | .alias f target aliasOffset =>
    rw [renderMemoryRegion] at h
    simp only [resolve]
    refine Renders.region hview (fun _ hinter hbody => ?_) h
    have hsize := meet_size_nonneg hinter (Int.natCast_nonneg f.size) hclip
    exact renders_memoryRegion view target _ _ _ hview hsize hbody
  | .plain f terminates subregions =>
    rw [renderMemoryRegion] at h
    simp only [resolve]
    refine Renders.region hview (fun _ hinter hbody => ?_) h
    have hsize := meet_size_nonneg hinter (Int.natCast_nonneg f.size) hclip
    obtain ⟨below, hbelow, hcontents⟩ := Option.bind_eq_some_iff.mp hbody
    have hsubs := renders_subregions view subregions _ _ _ hview hsize hbelow
    exact hsubs.trans (Renders.contents hsubs.sorted hclip hinter hcontents)

theorem renders_subregions (view : FlatView ρ) (subregions : List (MemoryRegion ρ)) (base : Int)
    (clip : Span) (attrs : Attributes) (hview : view.Sorted) (hclip : 0 ≤ clip.size)
    {result : FlatView ρ} (h : renderSubregions view subregions base clip attrs = some result) :
    Renders view result clip fun a => resolveFirst a subregions base attrs := by
  match subregions with
  | [] =>
    obtain rfl := Option.some.inj h
    apply Renders.nothing hview
    intro a _
    rfl
  | subregion :: rest =>
    obtain ⟨next, hnext, hrest⟩ := Option.bind_eq_some_iff.mp h
    have hhead := renders_memoryRegion view subregion base clip attrs hview hclip hnext
    exact hhead.trans (renders_subregions next rest base clip attrs hhead.sorted hclip hrest)

end

mutual

def MemoryRegion.Bounded : MemoryRegion ρ → Prop
  | .alias _ target _ => target.Bounded
  | .plain f terminates subregions => (terminates → f.size < 2 ^ 64) ∧ AllBounded subregions

def AllBounded : List (MemoryRegion ρ) → Prop
  | [] => True
  | subregion :: rest => subregion.Bounded ∧ AllBounded rest

end

mutual

theorem renderMemoryRegion_succeeds (view : FlatView ρ) (mr : MemoryRegion ρ) (base : Int)
    (clip : Span) (attrs : Attributes) (hview : view.Sorted) (hclip : 0 ≤ clip.size)
    (h : mr.Bounded) : ∃ result, renderMemoryRegion view mr base clip attrs = some result := by
  match mr with
  | .alias f target aliasOffset =>
    rw [renderMemoryRegion]
    apply region_succeeds
    intro hinter
    have hsize := meet_size_nonneg hinter (Int.natCast_nonneg f.size) hclip
    exact renderMemoryRegion_succeeds view target _ _ _ hview hsize h
  | .plain f terminates subregions =>
    rw [renderMemoryRegion]
    apply region_succeeds
    intro hinter
    have hsize := meet_size_nonneg hinter (Int.natCast_nonneg f.size) hclip
    obtain ⟨below, hbelow⟩ := renderSubregions_succeeds view subregions (base + f.addr)
      ((f.range base).meet clip) (attrs.or f.attrs) hview hsize h.2
    have hsorted := (renders_subregions _ _ _ _ _ hview hsize hbelow).sorted
    obtain ⟨result, hcontents⟩ := renderContents_succeeds hsorted hclip hinter h.1
    exact ⟨result, Option.bind_eq_some_iff.mpr ⟨below, hbelow, hcontents⟩⟩

theorem renderSubregions_succeeds (view : FlatView ρ) (subregions : List (MemoryRegion ρ))
    (base : Int) (clip : Span) (attrs : Attributes) (hview : view.Sorted) (hclip : 0 ≤ clip.size)
    (h : AllBounded subregions) :
    ∃ result, renderSubregions view subregions base clip attrs = some result := by
  match subregions with
  | [] => exact ⟨view, rfl⟩
  | subregion :: rest =>
    obtain ⟨next, hnext⟩ :=
      renderMemoryRegion_succeeds view subregion base clip attrs hview hclip h.1
    have hsorted := (renders_memoryRegion view subregion base clip attrs hview hclip hnext).sorted
    obtain ⟨result, hrest⟩ := renderSubregions_succeeds next rest base clip attrs hsorted hclip h.2
    exact ⟨result, Option.bind_eq_some_iff.mpr ⟨next, hnext, hrest⟩⟩

end

section Halves

def whole : MemoryRegion Nat := memoryRegionInitIo 1 0x1000

def halves : MemoryRegion Nat :=
  let mr := memoryRegionInit 0 0x1000
  let mr := memoryRegionAddSubregion mr 0 (memoryRegionInitAlias 2 whole 0 0x800)
  memoryRegionAddSubregion mr 0x800 (memoryRegionInitAlias 3 whole 0x800 0x800)

theorem resolve_whole (a base : Int) : resolve a whole base {} =
    if base ≤ a ∧ a < base + 0x1000 then some ⟨1, a - base, 0, true, {}⟩ else none := by
  simp [whole, memoryRegionInitIo, memoryRegionDoInit, resolve, resolveFirst, Fields.range,
    Fields.target, Span.Has, Span.stop, Attributes.or]

theorem halves_eq : halves = .plain { mr := 0, size := 0x1000 } false
    [.alias { mr := 3, size := 0x800, addr := 0x800 } whole 0x800,
      .alias { mr := 2, size := 0x800 } whole 0] :=
  rfl

theorem resolve_halves (a : Int) : resolve a halves 0 {} = resolve a whole 0 {} := by
  have haddr : whole.fields.addr = 0 := rfl
  rw [halves_eq]
  simp only [resolve, resolveFirst, Fields.range, Span.Has, Span.stop, Attributes.or, Bool.or_self,
    resolve_whole, haddr, Nat.cast_zero, Nat.cast_ofNat, zero_add, add_zero, sub_zero, sub_self,
    true_and]
  by_cases hin : 0 ≤ a ∧ a < 0x1000
  · by_cases hhalf : 0x800 ≤ a
    · simp [hin, hhalf]
    · simp [hin, hhalf, not_le.mp hhalf]
  · simp [hin]

theorem bounded_halves : halves.Bounded := by
  simp [halves_eq, MemoryRegion.Bounded, AllBounded, whole, memoryRegionInitIo, memoryRegionDoInit]

end Halves

section Simplify

variable {r last next : FlatRange ρ} {rest view : FlatView ρ} {a : Int}

theorem target_eq_iff : last.target = next.target ↔
    last.mr = next.mr ∧
      last.offsetInRegion - last.addr.start = next.offsetInRegion - next.addr.start ∧
      last.dirtyLogMask = next.dirtyLogMask ∧ last.romdMode = next.romdMode ∧
      last.attrs = next.attrs := by
  constructor
  · intro h
    have hzero := congrFun h 0
    simp only [FlatRange.target, Target.mk.injEq] at hzero
    exact ⟨hzero.1, by omega, hzero.2.2.1, hzero.2.2.2.1, hzero.2.2.2.2⟩
  · intro ⟨hmr, hoff, hmask, hromd, hattrs⟩
    funext a
    simp only [FlatRange.target, Target.mk.injEq]
    exact ⟨hmr, by omega, hmask, hromd, hattrs⟩

structure Grown (r last : FlatRange ρ) : Prop where
  stop : r.addr.stop = last.addr.stop
  target : r.target = last.target

theorem lookup_joined (hadj : r.addr.stop = next.addr.start) (htarget : r.target = next.target)
    (hr : 0 ≤ r.addr.size) (hnext : 0 ≤ next.addr.size) :
    FlatView.lookup ({ r with addr := ⟨r.addr.start, r.addr.size + next.addr.size⟩ } :: rest) a =
      FlatView.lookup (r :: next :: rest) a := by
  have hhas : Span.Has ⟨r.addr.start, r.addr.size + next.addr.size⟩ a ↔
      r.addr.Has a ∨ next.addr.Has a := by
    simp only [Span.Has, Span.stop] at hadj ⊢
    omega
  have heq := congrFun htarget a
  simp only [lookup_cons, hhas]
  split_ifs <;> simp_all [FlatRange.target]

variable [DecidableEq ρ]

theorem canMerge_iff : canMerge last next = true ↔
    last.addr.stop = next.addr.start ∧ last.target = next.target ∧
      last.attrs.unmergeable = false := by
  have hattrs : last.attrs = next.attrs ↔ last.attrs.readonly = next.attrs.readonly ∧
      last.attrs.nonvolatile = next.attrs.nonvolatile ∧
      last.attrs.unmergeable = next.attrs.unmergeable := by
    rw [← Attributes.mk.injEq]
  rw [target_eq_iff, hattrs]
  simp only [canMerge, Bool.and_eq_true, decide_eq_true_eq, Bool.not_eq_true']
  have heq : last.addr.stop = last.addr.start + last.addr.size := rfl
  constructor
  · intro ⟨⟨⟨⟨⟨⟨⟨⟨hstop, hmr⟩, hoff⟩, hmask⟩, hromd⟩, hro⟩, hnv⟩, hun⟩, hun'⟩
    exact ⟨hstop, ⟨hmr, by omega, hmask, hromd, hro, hnv, hun.trans hun'.symm⟩, hun⟩
  · intro ⟨hstop, ⟨hmr, hoff, hmask, hromd, hro, hnv, hun'⟩, hun⟩
    exact ⟨⟨⟨⟨⟨⟨⟨⟨hstop, hmr⟩, by omega⟩, hmask⟩, hromd⟩, hro⟩, hnv⟩, hun⟩, hun'.symm.trans hun⟩

theorem Grown.canMerge (h : Grown r last) : canMerge r next = canMerge last next := by
  have hattrs : r.attrs = last.attrs := (target_eq_iff.mp h.target).2.2.2.2
  rw [Bool.eq_iff_iff, canMerge_iff, canMerge_iff, h.stop, h.target, hattrs]

theorem Grown.merge (h : Grown r last) (hmerge : Board.canMerge last next = true) :
    Grown { r with addr := ⟨r.addr.start, r.addr.size + next.addr.size⟩ } next := by
  obtain ⟨hstop, htarget, -⟩ := canMerge_iff.mp hmerge
  refine ⟨?_, h.target.trans htarget⟩
  have := h.stop
  simp only [Span.stop] at this hstop ⊢
  omega

structure Merges (r : FlatRange ρ) (rest result : FlatView ρ) : Prop where
  sorted : FlatView.Sorted result
  lookup : ∀ a, FlatView.lookup result a = FlatView.lookup (r :: rest) a
  head : ∃ r' rest', result = r' :: rest' ∧ r'.addr.start = r.addr.start ∧ r'.target = r.target
  merged : result.IsChain fun r s => Board.canMerge r s = false

theorem Merges.cons (h : Merges next rest view) (hsorted : FlatView.Sorted (r :: next :: rest))
    (hmerge : canMerge r next = false) : Merges r (next :: rest) (r :: view) := by
  obtain ⟨hsize, hafter, -⟩ := Ascending.cons_iff.mp hsorted
  obtain ⟨r', rest', rfl, hstart, htarget⟩ := h.head
  refine ⟨?_, ?_, ⟨r, r' :: rest', rfl, rfl, rfl⟩, ?_⟩
  · refine Ascending.cons_iff.mpr ⟨hsize, fun x hx => ?_, h.sorted⟩
    exact (hafter next List.mem_cons_self).trans (hstart ▸ h.sorted.start_le x hx)
  · intro a
    rw [lookup_cons, h.lookup, ← lookup_cons]
  · refine .cons_cons ?_ h.merged
    rw [Bool.eq_false_iff, ne_eq, canMerge_iff] at hmerge ⊢
    rw [hstart, htarget]
    exact hmerge

theorem merges_mergeRuns (hgrown : Grown r last) (h : FlatView.Sorted (r :: rest)) :
    Merges r rest (mergeRuns r last rest) := by
  induction rest generalizing r last with
  | nil => exact ⟨h, fun _ => rfl, ⟨r, [], rfl, rfl, rfl⟩, .singleton r⟩
  | cons next rest ih =>
    obtain ⟨hsize, hafter, htail⟩ := Ascending.cons_iff.mp h
    obtain ⟨hnext, hnextafter, hrest⟩ := Ascending.cons_iff.mp htail
    rw [mergeRuns]
    split
    case isTrue hmerge =>
      obtain ⟨hstop, htarget, -⟩ := canMerge_iff.mp hmerge
      have hadj := hgrown.stop.trans hstop
      have hjoin : FlatView.Sorted
          ({ r with addr := ⟨r.addr.start, r.addr.size + next.addr.size⟩ } :: rest) := by
        refine Ascending.cons_iff.mpr ⟨by simp only; omega, fun x hx => ?_, hrest⟩
        have := hnextafter x hx
        simp only [Span.stop] at this hadj ⊢
        omega
      obtain ⟨hsorted, hlookup, hhead, hmerged⟩ := ih (hgrown.merge hmerge) hjoin
      refine ⟨hsorted, fun a => ?_, hhead, hmerged⟩
      rw [hlookup, lookup_joined hadj (hgrown.target.trans htarget) hsize.le hnext.le]
    case isFalse hmerge =>
      apply (ih ⟨rfl, rfl⟩ htail).cons h
      rw [hgrown.canMerge]
      exact Bool.not_eq_true _ ▸ hmerge

/-- The flat view of a tree of regions is in order, without overlaps or ranges that could be
merged, and shows at every address of the address space what the tree means there. -/
structure Faithful (mr : MemoryRegion ρ) (view : FlatView ρ) : Prop where
  sorted : FlatView.Sorted view
  merged : view.IsChain fun r s => Board.canMerge r s = false
  lookup : ∀ a, FlatView.lookup view a = if 0 ≤ a ∧ a < 2 ^ 64 then resolve a mr 0 {} else none

theorem faithful_topology {mr : MemoryRegion ρ}
    (h : generateMemoryTopology (some mr) = some view) : Faithful mr view := by
  obtain ⟨ranges, hranges, rfl⟩ := Option.map_eq_some_iff.mp h
  have hrender := renders_memoryRegion [] mr 0 ⟨0, 2 ^ 64⟩ {} .nil (by decide) hranges
  cases ranges with
  | nil => exact ⟨.nil, .nil, fun a => hrender.lookup a⟩
  | cons r rest =>
    have hmerges := merges_mergeRuns ⟨rfl, rfl⟩ hrender.sorted
    refine ⟨hmerges.sorted, hmerges.merged, fun a => ?_⟩
    exact (hmerges.lookup a).trans (hrender.lookup a)

theorem topology_succeeds {mr : MemoryRegion ρ} (h : mr.Bounded) :
    ∃ view, generateMemoryTopology (some mr) = some view := by
  obtain ⟨ranges, hranges⟩ :=
    renderMemoryRegion_succeeds [] mr 0 ⟨0, 2 ^ 64⟩ {} .nil (by decide) h
  exact ⟨flatviewSimplify ranges, congrArg (Option.map _) hranges⟩

/-- Rendering keeps the meaning of the tree, however its regions overlap and whatever aliases
there are: the ranges are in order and apart, no two neighbours could be one, and at every
address of the address space they show what the tree means there. It gives up on no tree but
one where a region with contents takes the whole address space. -/
theorem rendering_preserves (mr : MemoryRegion ρ) :
    (∀ view, generateMemoryTopology (some mr) = some view →
      FlatView.Sorted view ∧ (view.IsChain fun r s => Board.canMerge r s = false) ∧
      ∀ a, FlatView.lookup view a = if 0 ≤ a ∧ a < 2 ^ 64 then resolve a mr 0 {} else none) ∧
    (mr.Bounded → ∃ view, generateMemoryTopology (some mr) = some view) := by
  refine ⟨fun view hview => ?_, topology_succeeds⟩
  have hfaithful := faithful_topology hview
  exact ⟨hfaithful.sorted, hfaithful.merged, hfaithful.lookup⟩

theorem rendering_preserves_halves : ∃ view, generateMemoryTopology (some halves) = some view ∧
    FlatView.lookup view 0x900 = some ⟨1, 0x900, 0, true, {}⟩ := by
  obtain ⟨hpreserves, hsucceeds⟩ := rendering_preserves halves
  obtain ⟨view, hview⟩ := hsucceeds bounded_halves
  refine ⟨view, hview, ?_⟩
  rw [(hpreserves view hview).2.2, resolve_halves, resolve_whole]
  rfl

end Simplify

section Canonical

variable {r s : FlatRange ρ} {v w : FlatView ρ} {a : Int}

theorem target_eq_of_apply (h : r.target a = s.target a) : r.target = s.target := by
  simp only [FlatRange.target, Target.mk.injEq] at h
  exact target_eq_iff.mpr ⟨h.1, by omega, h.2.2.1, h.2.2.2.1, h.2.2.2.2⟩

theorem has_start (h : FlatView.Sorted (r :: v)) : r.addr.Has r.addr.start := by
  have hsize := (Ascending.cons_iff.mp h).1
  simp only [Span.Has, Span.stop]
  omega

theorem lookup_start (h : FlatView.Sorted (r :: v)) :
    FlatView.lookup (r :: v) r.addr.start = some (r.target r.addr.start) := by
  rw [lookup_cons, if_pos (has_start h)]

theorem start_le_of_lookup {t : Target ρ} (h : FlatView.Sorted (r :: v))
    (ha : FlatView.lookup (r :: v) a = some t) : r.addr.start ≤ a := by
  by_contra hbelow
  have hnone : FlatView.lookup (r :: v) a = none :=
    look_eq_none fun x hx hhas => hbelow ((h.start_le x hx).trans hhas.1)
  rw [hnone] at ha
  exact absurd ha (Option.some_ne_none _).symm

variable [DecidableEq ρ]

structure Canonical (view : FlatView ρ) : Prop where
  sorted : FlatView.Sorted view
  merged : view.IsChain fun r s => canMerge r s = false
  mergeable : ∀ r ∈ view, r.attrs.unmergeable = false

theorem Canonical.tail (h : Canonical (r :: v)) : Canonical v :=
  ⟨h.sorted.tail, h.merged.tail, fun x hx => h.mergeable x (List.mem_cons_of_mem r hx)⟩

theorem Canonical.stop_le (hv : Canonical (r :: v))
    (hlookup : FlatView.lookup (r :: v) = FlatView.lookup (s :: w))
    (hstart : r.addr.start = s.addr.start) (htarget : r.target = s.target) :
    s.addr.stop ≤ r.addr.stop := by
  by_contra hlonger
  obtain ⟨hsize, hafter, htail⟩ := Ascending.cons_iff.mp hv.sorted
  have hhas : s.addr.Has r.addr.stop := ⟨by simp only [Span.stop]; omega, not_le.mp hlonger⟩
  have hfound : FlatView.lookup v r.addr.stop = some (r.target r.addr.stop) := by
    have hat := congrFun hlookup r.addr.stop
    rw [lookup_cons, lookup_cons, if_pos hhas, if_neg fun h => absurd h.2 (lt_irrefl _)] at hat
    rw [hat, htarget]
  cases v with
  | nil => exact absurd hfound (Option.some_ne_none _).symm
  | cons next v =>
    have hnext : r.addr.stop = next.addr.start :=
      le_antisymm (hafter next List.mem_cons_self) (start_le_of_lookup htail hfound)
    rw [hnext, lookup_start htail] at hfound
    have hmerge : canMerge r next = true := canMerge_iff.mpr
      ⟨hnext, (target_eq_of_apply (Option.some.inj hfound)).symm, hv.mergeable r List.mem_cons_self⟩
    rw [(List.isChain_cons_cons.mp hv.merged).1] at hmerge
    exact absurd hmerge (by decide)

theorem Canonical.head_eq (hv : Canonical (r :: v)) (hw : Canonical (s :: w))
    (hlookup : FlatView.lookup (r :: v) = FlatView.lookup (s :: w)) : r = s := by
  have hr := lookup_start hv.sorted
  have hs := lookup_start hw.sorted
  have hstart : r.addr.start = s.addr.start := le_antisymm
    (start_le_of_lookup hv.sorted ((congrFun hlookup _).trans hs))
    (start_le_of_lookup hw.sorted ((congrFun hlookup _).symm.trans hr))
  rw [hlookup, hstart, hs] at hr
  have htarget := target_eq_of_apply (Option.some.inj hr).symm
  have hstop : r.addr.stop = s.addr.stop := le_antisymm
    (hw.stop_le hlookup.symm hstart.symm htarget.symm) (hv.stop_le hlookup hstart htarget)
  obtain ⟨hmr, hoff, hmask, hromd, hattrs⟩ := target_eq_iff.mp htarget
  obtain ⟨mr, off, ⟨start, size⟩, mask, romd, attrs⟩ := r
  obtain ⟨mr', off', ⟨start', size'⟩, mask', romd', attrs'⟩ := s
  simp only [Span.stop] at *
  simp only [FlatRange.mk.injEq, Span.mk.injEq]
  exact ⟨hmr, by omega, ⟨hstart, by omega⟩, hmask, hromd, hattrs⟩

theorem Canonical.eq (hv : Canonical v) (hw : Canonical w)
    (hlookup : FlatView.lookup v = FlatView.lookup w) : v = w := by
  induction v generalizing w with
  | nil =>
    cases w with
    | nil => rfl
    | cons s w =>
      have hfound := (congrFun hlookup _).trans (lookup_start hw.sorted)
      exact absurd hfound (Option.some_ne_none _).symm
  | cons r v ih =>
    cases w with
    | nil =>
      have hfound := (congrFun hlookup _).symm.trans (lookup_start hv.sorted)
      exact absurd hfound (Option.some_ne_none _).symm
    | cons s w =>
      obtain rfl := hv.head_eq hw hlookup
      refine congrArg (r :: ·) (ih hv.tail hw.tail (funext fun a => ?_))
      by_cases ha : r.addr.Has a
      · exact (hv.sorted.look_tail ha.2).trans (hw.sorted.look_tail ha.2).symm
      · have hat := congrFun hlookup a
        rwa [lookup_cons, lookup_cons, if_neg ha, if_neg ha] at hat

def Mergeable (mr : MemoryRegion ρ) : Prop :=
  ∀ a t, resolve a mr 0 {} = some t → t.attrs.unmergeable = false

theorem canonical_topology {mr : MemoryRegion ρ}
    (hview : generateMemoryTopology (some mr) = some v) (h : Mergeable mr) : Canonical v := by
  have hfaithful := faithful_topology hview
  refine ⟨hfaithful.sorted, hfaithful.merged, fun r hr => ?_⟩
  have hsize := hfaithful.sorted.filled r hr
  have hlookup : FlatView.lookup v r.addr.start = some (r.target r.addr.start) :=
    hfaithful.sorted.look_of_mem hr ⟨le_rfl, by simp only [Span.stop]; omega⟩
  rw [hfaithful.lookup] at hlookup
  split at hlookup
  case isTrue => exact h _ _ hlookup
  case isFalse => exact absurd hlookup (Option.some_ne_none _).symm

/-- The flat view is a canonical form: two trees that are rendered have the same ranges exactly
when they mean the same at every address of the address space. -/
theorem rendering_canonical {mr mr' : MemoryRegion ρ}
    (hview : generateMemoryTopology (some mr) = some v)
    (hview' : generateMemoryTopology (some mr') = some w)
    (h : Mergeable mr) (h' : Mergeable mr') :
    v = w ↔ ∀ a, 0 ≤ a → a < 2 ^ 64 → resolve a mr 0 {} = resolve a mr' 0 {} := by
  have hlookup := (faithful_topology hview).lookup
  have hlookup' := (faithful_topology hview').lookup
  constructor
  · intro heq a hlow hhigh
    have hat := hlookup a
    rw [heq, hlookup', if_pos ⟨hlow, hhigh⟩, if_pos ⟨hlow, hhigh⟩] at hat
    exact hat.symm
  · intro hsame
    refine (canonical_topology hview h).eq (canonical_topology hview' h') (funext fun a => ?_)
    rw [hlookup, hlookup']
    split
    case isTrue ha => exact hsame a ha.1 ha.2
    case isFalse => rfl

theorem mergeable_whole : Mergeable whole := by
  intro a t h
  rw [resolve_whole] at h
  split at h
  case isTrue =>
    obtain rfl := Option.some.inj h
    rfl
  case isFalse => exact absurd h (Option.some_ne_none _).symm

theorem rendering_canonical_halves : generateMemoryTopology (some halves) =
    some [⟨1, 0, ⟨0, 0x1000⟩, 0, true, {}⟩] := by
  have hmergeable : Mergeable halves := fun a t h => mergeable_whole a t (resolve_halves a ▸ h)
  obtain ⟨view, hview⟩ := topology_succeeds bounded_halves
  have hwhole : generateMemoryTopology (some whole) = some [⟨1, 0, ⟨0, 0x1000⟩, 0, true, {}⟩] := by
    decide
  rw [hview, (rendering_canonical hview hwhole hmergeable mergeable_whole).mpr
    fun a _ _ => resolve_halves a]

end Canonical

end QemuBoard.Board
