import Mathlib.Algebra.Order.BigOperators.Group.Finset
import Mathlib.Algebra.BigOperators.Group.Finset.Piecewise
import Mathlib.Tactic.Ring

namespace QemuBoard.Library

/-- A node reads one digit, `skip` places below the last one that was read. -/
inductive Radix (α : Type)
  | leaf (a : α)
  | empty
  | node (skip : Nat) (children : Nat → Radix α)

namespace Radix

variable {α : Type} {b : Nat} {dflt a x : α} {t : Radix α} {i d p lo hi base : Nat}

def span (b i : Nat) : Nat := 2 ^ (i * b)

def digit (b i p : Nat) : Nat := p / span b i % 2 ^ b

def find (b : Nat) : Radix α → Nat → Nat → Option α
  | leaf a, _, _ => some a
  | empty, _, _ => none
  | node skip c, i, p => (c (digit b (i - skip) p)).find b (i - skip) p

def look (b : Nat) (dflt : α) (t : Radix α) (i p : Nat) : α := (t.find b i p).getD dflt

/-- A tree at level `i` that no node is left out of. Above level 0 no leaf has the default. -/
def Plain (b : Nat) (dflt : α) : Nat → Radix α → Prop
  | 0, t => ∃ a, t = leaf a
  | _ + 1, leaf a => a ≠ dflt
  | _ + 1, empty => True
  | i + 1, node skip c => skip = 1 ∧ ∀ d < 2 ^ b, Plain b dflt i (c d)

section Digits

theorem span_pos : 0 < span b i := Nat.two_pow_pos _

theorem span_succ : span b (i + 1) = 2 ^ b * span b i := by
  unfold span
  ring

theorem digit_lt : digit b i p < 2 ^ b := Nat.mod_lt _ (Nat.two_pow_pos b)

theorem digit_block (hbase : span b (i + 1) ∣ base) (hlow : base ≤ p)
    (hhigh : p < base + span b (i + 1)) :
    base + digit b i p * span b i ≤ p ∧ p < base + digit b i p * span b i + span b i := by
  obtain ⟨k, rfl⟩ := hbase
  have hpos : 0 < span b i := span_pos
  obtain ⟨r, rfl⟩ := Nat.exists_eq_add_of_le hlow
  rw [span_succ] at *
  have hr : r < 2 ^ b * span b i := by omega
  have hdigit : digit b i (2 ^ b * span b i * k + r) = r / span b i := by
    have hquot : (2 ^ b * span b i * k + r) / span b i = r / span b i + 2 ^ b * k := by
      rw [show 2 ^ b * span b i * k + r = r + span b i * (2 ^ b * k) by ring,
        Nat.add_mul_div_left _ _ hpos]
    rw [digit, hquot, Nat.add_mul_mod_self_left, Nat.mod_eq_of_lt]
    exact (Nat.div_lt_iff_lt_mul hpos).mpr hr
  have hlow' := Nat.div_mul_le_self r (span b i)
  have hhigh' := Nat.lt_div_mul_add hpos (a := r)
  rw [hdigit]
  omega

theorem block_le (hd : d < 2 ^ b) : base + d * span b i + span b i ≤ base + span b (i + 1) := by
  have hmul := Nat.mul_le_mul_right (span b i) (Nat.succ_le_of_lt hd)
  rw [span_succ]
  rw [Nat.succ_mul] at hmul
  omega

theorem digit_of_block (hbase : span b (i + 1) ∣ base) (hd : d < 2 ^ b)
    (hlow : base + d * span b i ≤ p) (hhigh : p < base + d * span b i + span b i) :
    digit b i p = d := by
  have hle : base + d * span b i + span b i ≤ base + span b (i + 1) := block_le hd
  have hblock := digit_block hbase (by omega : base ≤ p) (by omega)
  rcases Nat.lt_trichotomy (digit b i p) d with hlt | heq | hlt
  · have hmul := Nat.mul_le_mul_right (span b i) (Nat.succ_le_of_lt hlt)
    rw [Nat.succ_mul] at hmul
    omega
  · exact heq
  · have hmul := Nat.mul_le_mul_right (span b i) (Nat.succ_le_of_lt hlt)
    rw [Nat.succ_mul] at hmul
    omega

theorem block_dvd (hbase : span b (i + 1) ∣ base) : span b i ∣ base + d * span b i := by
  rw [span_succ] at hbase
  exact Nat.dvd_add ((Nat.dvd_mul_left ..).trans hbase) (Nat.dvd_mul_left ..)

end Digits

section Fill

def children (dflt : α) (i : Nat) : Radix α → Nat → Radix α
  | node _ c => c
  | leaf _ | empty => fun _ => if i = 0 then leaf dflt else empty

variable (b dflt a lo hi)

/-- The part from `base` of a tree, at level `i`, with the keys from `lo` up to `hi` set to `a`. -/
def fill : Nat → Nat → Radix α → Radix α
  | 0, base, t => if lo ≤ base ∧ base < hi then leaf a else t
  | i + 1, base, t =>
    if hi ≤ base ∨ base + span b (i + 1) ≤ lo then t
    else if lo ≤ base ∧ base + span b (i + 1) ≤ hi then leaf a
    else node 1 fun d => fill i (base + d * span b i) (t.children dflt i d)

def fillNode (i base : Nat) (t : Radix α) : Radix α :=
  node 1 fun d => fill b dflt a lo hi i (base + d * span b i) (t.children dflt i d)

def made : Radix α → Nat
  | node .. => 0
  | leaf _ | empty => 1

def allocs : Nat → Nat → Radix α → Nat
  | 0, _, _ => 0
  | i + 1, base, t =>
    if hi ≤ base ∨ base + span b (i + 1) ≤ lo then 0
    else if lo ≤ base ∧ base + span b (i + 1) ≤ hi then 0
    else t.made +
      ∑ d ∈ Finset.range (2 ^ b), allocs i (base + d * span b i) (t.children dflt i d)

def allocsNode (i base : Nat) (t : Radix α) : Nat :=
  t.made + ∑ d ∈ Finset.range (2 ^ b),
    (t.children dflt i d).allocs b dflt lo hi i (base + d * span b i)

variable {b dflt a lo hi}

theorem fill_apart (h : hi ≤ base ∨ base + span b i ≤ lo) : t.fill b dflt a lo hi i base = t := by
  cases i with
  | zero =>
    have hone : span b 0 = 1 := by simp [span]
    rw [fill, if_neg (by omega)]
  | succ i => rw [fill, if_pos h]

theorem fill_within (h : lo ≤ base ∧ base + span b i ≤ hi) :
    t.fill b dflt a lo hi i base = leaf a := by
  have hspan : 0 < span b i := span_pos
  cases i with
  | zero => rw [fill, if_pos (by omega)]
  | succ i => rw [fill, if_neg (by omega), if_pos h]

theorem fill_node (hmeet : ¬(hi ≤ base ∨ base + span b (i + 1) ≤ lo))
    (hpart : ¬(lo ≤ base ∧ base + span b (i + 1) ≤ hi)) :
    t.fill b dflt a lo hi (i + 1) base = t.fillNode b dflt a lo hi i base := by
  rw [fill, if_neg hmeet, if_neg hpart, fillNode]

theorem allocs_node (hmeet : ¬(hi ≤ base ∨ base + span b (i + 1) ≤ lo))
    (hpart : ¬(lo ≤ base ∧ base + span b (i + 1) ≤ hi)) :
    t.allocs b dflt lo hi (i + 1) base = t.allocsNode b dflt lo hi i base := by
  rw [allocs, if_neg hmeet, if_neg hpart, allocsNode]

theorem Plain.children (h : Plain b dflt (i + 1) t) (hd : d < 2 ^ b) :
    Plain b dflt i (t.children dflt i d) := by
  have hfresh : Plain b dflt i (if i = 0 then leaf dflt else empty) := by
    cases i with
    | zero => exact ⟨dflt, rfl⟩
    | succ i => exact trivial
  cases t with
  | leaf a => exact hfresh
  | empty => exact hfresh
  | node skip c => exact h.2 d hd

theorem look_children (h : Plain b dflt (i + 1) t) (hleaf : ∀ a, t ≠ leaf a) :
    look b dflt (t.children dflt i (digit b i p)) i p = look b dflt t (i + 1) p := by
  cases t with
  | leaf a => exact absurd rfl (hleaf a)
  | empty =>
    rw [Radix.children]
    split <;> rfl
  | node skip c =>
    obtain ⟨rfl, -⟩ := h
    rfl

theorem Plain.fill (h : Plain b dflt i t) (ha : a ≠ dflt) :
    Plain b dflt i (t.fill b dflt a lo hi i base) := by
  induction i generalizing base t with
  | zero =>
    rw [Radix.fill]
    split
    · exact ⟨a, rfl⟩
    · exact h
  | succ i ih =>
    rw [Radix.fill]
    split_ifs
    · exact h
    · exact ha
    · exact ⟨rfl, fun d hd => ih (h.children hd)⟩

def Free (b : Nat) (dflt : α) (lo hi i base : Nat) (t : Radix α) : Prop :=
  ∀ p, base ≤ p → p < base + span b i → lo ≤ p → p < hi → look b dflt t i p = dflt

theorem Free.children (h : Plain b dflt (i + 1) t) (hbase : span b (i + 1) ∣ base)
    (hfree : Free b dflt lo hi (i + 1) base t) (hleaf : ∀ x, t ≠ leaf x) (hd : d < 2 ^ b) :
    Free b dflt lo hi i (base + d * span b i) (t.children dflt i d) := by
  intro p hlow hhigh hlo hhi
  have hdigit : digit b i p = d := digit_of_block hbase hd hlow hhigh
  have hle : base + d * span b i + span b i ≤ base + span b (i + 1) := block_le hd
  rw [← hdigit, look_children h hleaf]
  exact hfree p (by omega) (by omega) hlo hhi

theorem Free.not_leaf (hfree : Free b dflt lo hi (i + 1) base t) (h : Plain b dflt (i + 1) t)
    (hmeet : ¬(hi ≤ base ∨ base + span b (i + 1) ≤ lo)) (hlohi : lo < hi) (x : α) : t ≠ leaf x := by
  rintro rfl
  have hspan : 0 < span b (i + 1) := span_pos
  exact h (hfree (max base lo) (by omega) (by omega) (by omega) (by omega))

theorem look_fillNode_of (h : Plain b dflt (i + 1) t) (hbase : span b (i + 1) ∣ base)
    (hfree : Free b dflt lo hi (i + 1) base t) (hleaf : ∀ x, t ≠ leaf x)
    (hlow : base ≤ p) (hhigh : p < base + span b (i + 1))
    (hfill : ∀ {base t}, Plain b dflt i t → span b i ∣ base → Free b dflt lo hi i base t →
      base ≤ p → p < base + span b i → look b dflt (t.fill b dflt a lo hi i base) i p =
        if lo ≤ p ∧ p < hi then a else look b dflt t i p) :
    look b dflt (t.fillNode b dflt a lo hi i base) (i + 1) p =
      if lo ≤ p ∧ p < hi then a else look b dflt t (i + 1) p := by
  have hblock := digit_block hbase hlow hhigh
  have hchild := hfill (h.children digit_lt) (block_dvd hbase)
    (hfree.children h hbase hleaf digit_lt) hblock.1 hblock.2
  rw [look_children h hleaf] at hchild
  exact hchild

theorem look_fill (h : Plain b dflt i t) (hbase : span b i ∣ base) (hlohi : lo < hi)
    (hfree : Free b dflt lo hi i base t) (hlow : base ≤ p) (hhigh : p < base + span b i) :
    look b dflt (t.fill b dflt a lo hi i base) i p =
      if lo ≤ p ∧ p < hi then a else look b dflt t i p := by
  induction i generalizing base t with
  | zero =>
    have hone : span b 0 = 1 := by simp [span]
    obtain rfl : base = p := by omega
    rw [fill]
    split <;> rfl
  | succ i ih =>
    rw [fill]
    split
    case isTrue hapart => rw [if_neg (by omega)]
    case isFalse hmeet =>
      split
      case isTrue hwithin =>
        rw [if_pos (by omega)]
        rfl
      case isFalse =>
        exact look_fillNode_of h hbase hfree (hfree.not_leaf h hmeet hlohi) hlow hhigh ih

theorem look_fillNode (h : Plain b dflt (i + 1) t) (hbase : span b (i + 1) ∣ base) (hlohi : lo < hi)
    (hfree : Free b dflt lo hi (i + 1) base t) (hleaf : ∀ x, t ≠ leaf x)
    (hlow : base ≤ p) (hhigh : p < base + span b (i + 1)) :
    look b dflt (t.fillNode b dflt a lo hi i base) (i + 1) p =
      if lo ≤ p ∧ p < hi then a else look b dflt t (i + 1) p :=
  look_fillNode_of h hbase hfree hleaf hlow hhigh fun h hbase hfree hlow hhigh =>
    look_fill h hbase hlohi hfree hlow hhigh

theorem Plain.fillNode (h : Plain b dflt (i + 1) t) (ha : a ≠ dflt) :
    Plain b dflt (i + 1) (t.fillNode b dflt a lo hi i base) :=
  ⟨rfl, fun _ hd => (h.children hd).fill ha⟩

end Fill

section Allocs

theorem sum_le_two {n k₁ k₂ : Nat} {f : Nat → Nat} (d₁ d₂ : Nat)
    (h : ∀ d < n, f d ≤ (if d = d₁ then k₁ else 0) + if d = d₂ then k₂ else 0) :
    ∑ d ∈ Finset.range n, f d ≤ k₁ + k₂ := by
  refine (Finset.sum_le_sum fun d hd => h d (Finset.mem_range.mp hd)).trans ?_
  rw [Finset.sum_add_distrib, Finset.sum_ite_eq', Finset.sum_ite_eq']
  split_ifs <;> omega

theorem allocs_eq_zero (h : hi ≤ base ∨ base + span b i ≤ lo ∨ (lo ≤ base ∧ base + span b i ≤ hi)) :
    t.allocs b dflt lo hi i base = 0 := by
  cases i with
  | zero => rfl
  | succ i =>
    rw [allocs]
    split_ifs with hapart hwithin
    · rfl
    · rfl
    · omega

theorem made_le (t : Radix α) : t.made ≤ 1 := by
  cases t <;> simp [made]

theorem allocs_succ_le (b : Nat) (dflt : α) (lo hi i base : Nat) (t : Radix α) :
    t.allocs b dflt lo hi (i + 1) base ≤
    1 + ∑ d ∈ Finset.range (2 ^ b),
      (t.children dflt i d).allocs b dflt lo hi i (base + d * span b i) := by
  rw [allocs]
  split_ifs
  · exact Nat.zero_le _
  · exact Nat.zero_le _
  · exact Nat.add_le_add_right (made_le t) _

theorem eq_div_of_block (hlow : base + d * span b i ≤ p)
    (hhigh : p < base + d * span b i + span b i) :
    d = (p - base) / span b i := by
  symm
  apply Nat.div_eq_of_lt_le
  · omega
  · rw [Nat.succ_mul]
    omega

theorem allocs_le_of_low (hlo : lo ≤ base) : t.allocs b dflt lo hi i base ≤ i := by
  induction i generalizing base t with
  | zero => exact Nat.zero_le _
  | succ i ih =>
    have hsum : ∑ d ∈ Finset.range (2 ^ b),
        (t.children dflt i d).allocs b dflt lo hi i (base + d * span b i) ≤ i + 0 := by
      refine sum_le_two ((hi - base) / span b i) 0 fun d _ => ?_
      split
      case isTrue => exact (ih (by omega)).trans (Nat.le_add_right ..)
      case isFalse hne =>
        rw [allocs_eq_zero]
        · exact Nat.zero_le _
        · by_contra hcut
          exact hne (eq_div_of_block (by omega) (by omega))
    have hsucc := allocs_succ_le b dflt lo hi i base t
    omega

theorem allocs_le_of_high (hhi : base + span b i ≤ hi) : t.allocs b dflt lo hi i base ≤ i := by
  induction i generalizing base t with
  | zero => exact Nat.zero_le _
  | succ i ih =>
    have hsum : ∑ d ∈ Finset.range (2 ^ b),
        (t.children dflt i d).allocs b dflt lo hi i (base + d * span b i) ≤ i + 0 := by
      refine sum_le_two ((lo - base) / span b i) 0 fun d hd => ?_
      have hend : base + d * span b i + span b i ≤ base + span b (i + 1) := block_le hd
      split
      case isTrue => exact (ih (hend.trans hhi)).trans (Nat.le_add_right ..)
      case isFalse hne =>
        rw [allocs_eq_zero]
        · exact Nat.zero_le _
        · by_contra hcut
          exact hne (eq_div_of_block (by omega) (by omega))
    have hsucc := allocs_succ_le b dflt lo hi i base t
    omega

theorem sum_allocs_le (base : Nat) (t : Radix α)
    (hall : ∀ {base t}, allocs b dflt lo hi i base t ≤ 2 * i) :
    ∑ d ∈ Finset.range (2 ^ b),
      (t.children dflt i d).allocs b dflt lo hi i (base + d * span b i) ≤ i + i := by
  refine sum_le_two ((lo - base) / span b i) ((hi - base) / span b i) fun d _ => ?_
  set c := base + d * span b i with hc
  by_cases hstart : c < lo ∧ lo < c + span b i
  · rw [if_pos (eq_div_of_block (by omega) (by omega))]
    by_cases hend : c + span b i ≤ hi
    · exact (allocs_le_of_high hend).trans (Nat.le_add_right ..)
    · by_cases hbefore : hi ≤ c
      · rw [allocs_eq_zero (.inl hbefore)]
        exact Nat.zero_le _
      · rw [if_pos (eq_div_of_block (by omega) (by omega))]
        exact hall.trans (by omega)
  · by_cases hend : c < hi ∧ hi < c + span b i ∧ lo ≤ c
    · rw [if_pos (c := d = (hi - base) / span b i) (eq_div_of_block (by omega) (by omega))]
      exact (allocs_le_of_low hend.2.2).trans (Nat.le_add_left ..)
    · rw [allocs_eq_zero (by omega)]
      exact Nat.zero_le _

theorem allocs_le : t.allocs b dflt lo hi i base ≤ 2 * i := by
  induction i generalizing base t with
  | zero => exact Nat.zero_le _
  | succ i ih =>
    have hsum := sum_allocs_le base t ih
    have hsucc := allocs_succ_le b dflt lo hi i base t
    omega

/-- One node at each level for the start of the range, one for its end, and the one at the top. -/
theorem allocsNode_le : t.allocsNode b dflt lo hi i base ≤ 2 * i + 1 := by
  have hall : ∀ {base : Nat} {t : Radix α}, t.allocs b dflt lo hi i base ≤ 2 * i := allocs_le
  have hsum := sum_allocs_le base t hall
  have hmade := made_le t
  rw [allocsNode]
  omega

end Allocs

section Compact

def isEmpty : Radix α → Bool
  | empty => true
  | leaf _ | node .. => false

theorem isEmpty_iff : t.isEmpty = true ↔ t = empty := by
  cases t <;> simp [isEmpty]

def lift (skip : Nat) : Radix α → Radix α
  | leaf a => leaf a
  | empty => empty
  | node skip' c => node (skip + skip') c

def compact (b : Nat) : Radix α → Radix α
  | leaf a => leaf a
  | empty => empty
  | node skip c =>
    match (List.range (2 ^ b)).filter fun d => !(c d).isEmpty with
    | [d] => lift skip ((c d).compact b)
    | _ => node skip fun d => (c d).compact b

theorem isEmpty_lift (skip : Nat) (t : Radix α) : (t.lift skip).isEmpty = t.isEmpty := by
  cases t <;> rfl

theorem isEmpty_compact (b : Nat) (t : Radix α) : (t.compact b).isEmpty = t.isEmpty := by
  induction t with
  | leaf a => rfl
  | empty => rfl
  | node skip c ih =>
    rw [compact]
    split
    case h_1 d honly =>
      have hd : d ∈ (List.range (2 ^ b)).filter fun d => !(c d).isEmpty :=
        honly ▸ List.mem_cons_self
      rw [isEmpty_lift, ih]
      exact (Bool.not_eq_true' _).mp (List.mem_filter.mp hd).2
    case h_2 => rfl

def Has (b : Nat) (x : α) : Radix α → Prop
  | leaf a => a = x
  | empty => False
  | node _ c => ∃ d < 2 ^ b, Has b x (c d)

theorem has_of_find (h : t.find b i p = some x) : t.Has b x := by
  induction t generalizing i with
  | leaf a => exact Option.some.inj h
  | empty => exact absurd h (by simp [find])
  | node skip c ih => exact ⟨_, digit_lt, ih _ h⟩

theorem find_lift (skip : Nat) (t : Radix α) :
    (t.lift skip).find b i p = t.find b (i - skip) p := by
  cases t with
  | leaf a => rfl
  | empty => rfl
  | node skip' c =>
    rw [lift, find, find, Nat.sub_sub]

/-- The digits that are passed over are not read any more. A key that was there is found as
before, and one that was not may now be found where another one is. -/
theorem find_compact (b : Nat) (t : Radix α) (i p : Nat) :
    (t.compact b).find b i p = t.find b i p ∨
      t.find b i p = none ∧ ∀ x, (t.compact b).find b i p = some x → t.Has b x := by
  induction t generalizing i with
  | leaf a => exact .inl rfl
  | empty => exact .inl rfl
  | node skip c ih =>
    rw [compact]
    split
    case h_1 d honly =>
      have hmem : ∀ d', d' ∈ [d] ↔ d' < 2 ^ b ∧ (c d').isEmpty = false := by
        intro d'
        rw [← honly, List.mem_filter, List.mem_range, Bool.not_eq_true']
      have hd : d < 2 ^ b := ((hmem d).mp List.mem_cons_self).1
      have hhas : ∀ x, ((c d).compact b).find b (i - skip) p = some x → (node skip c).Has b x := by
        intro x hx
        rcases ih d (i - skip) with heq | ⟨-, hhas⟩
        · exact ⟨d, hd, has_of_find (heq.symm.trans hx)⟩
        · exact ⟨d, hd, hhas x hx⟩
      rw [find_lift, find]
      by_cases hdigit : digit b (i - skip) p = d
      · rw [hdigit]
        rcases ih d (i - skip) with heq | ⟨hnone, -⟩
        · exact .inl heq
        · exact .inr ⟨hnone, hhas⟩
      · have hempty : (c (digit b (i - skip) p)).isEmpty = true := by
          by_contra hne
          rw [Bool.not_eq_true] at hne
          exact hdigit (List.mem_singleton.mp ((hmem _).mpr ⟨digit_lt, hne⟩))
        refine .inr ⟨?_, hhas⟩
        rw [isEmpty_iff.mp hempty, find]
    case h_2 =>
      rcases ih (digit b (i - skip) p) (i - skip) with heq | ⟨hnone, hhas⟩
      · exact .inl heq
      · exact .inr ⟨hnone, fun x hx => ⟨_, digit_lt, hhas x hx⟩⟩

def Fits (b : Nat) : Nat → Radix α → Prop
  | _, leaf _ => True
  | i, empty => 0 < i
  | i, node skip c => 0 < skip ∧ skip ≤ i ∧ ∀ d < 2 ^ b, Fits b (i - skip) (c d)

theorem Plain.fits (h : Plain b dflt i t) : Fits b i t := by
  induction i generalizing t with
  | zero =>
    obtain ⟨a, rfl⟩ := h
    exact trivial
  | succ i ih =>
    cases t with
    | leaf a => exact trivial
    | empty => exact Nat.succ_pos i
    | node skip c =>
      obtain ⟨rfl, hc⟩ := h
      exact ⟨Nat.one_pos, Nat.le_add_left .., fun d hd => ih (hc d hd)⟩

theorem Fits.lift {skip : Nat} (h : Fits b (i - skip) t) (hskip : skip ≤ i) :
    Fits b i (t.lift skip) := by
  cases t with
  | leaf a => exact trivial
  | empty => exact Nat.lt_of_lt_of_le h (Nat.sub_le ..)
  | node skip' c =>
    obtain ⟨hpos, hle, hc⟩ := h
    refine ⟨by omega, by omega, fun d hd => ?_⟩
    rw [← Nat.sub_sub]
    exact hc d hd

theorem Fits.compact (h : Fits b i t) : Fits b i (t.compact b) := by
  induction t generalizing i with
  | leaf a => exact trivial
  | empty => exact h
  | node skip c ih =>
    obtain ⟨hpos, hle, hc⟩ := h
    rw [Radix.compact]
    split
    case h_1 d honly =>
      have hd : d ∈ (List.range (2 ^ b)).filter fun d => !(c d).isEmpty :=
        honly ▸ List.mem_cons_self
      exact (ih d (hc d (List.mem_range.mp (List.mem_filter.mp hd).1))).lift hle
    case h_2 => exact ⟨hpos, hle, fun d hd => ih d (hc d hd)⟩

theorem Has.children (h : (t.children dflt i d).Has b x) (hd : d < 2 ^ b) :
    x = dflt ∨ t.Has b x := by
  have hfresh : Has b x (if i = 0 then leaf dflt else empty) → x = dflt := by
    split
    · exact fun h => Eq.symm h
    · exact fun h => absurd h id
  cases t with
  | leaf a => exact .inl (hfresh h)
  | empty => exact .inl (hfresh h)
  | node skip c => exact .inr ⟨d, hd, h⟩

theorem Has.fillNode_of (h : (t.fillNode b dflt a lo hi i base).Has b x)
    (hfill : ∀ {base t}, Has b x (fill b dflt a lo hi i base t) → x = a ∨ x = dflt ∨ t.Has b x) :
    x = a ∨ x = dflt ∨ t.Has b x := by
  obtain ⟨d, hd, h⟩ := h
  rcases hfill h with h | h | h
  · exact .inl h
  · exact .inr (.inl h)
  · exact .inr (h.children hd)

theorem Has.fill (h : (t.fill b dflt a lo hi i base).Has b x) : x = a ∨ x = dflt ∨ t.Has b x := by
  induction i generalizing base t with
  | zero =>
    rw [Radix.fill] at h
    split at h
    · exact .inl (Eq.symm h)
    · exact .inr (.inr h)
  | succ i ih =>
    rw [Radix.fill] at h
    split_ifs at h
    · exact .inr (.inr h)
    · exact .inl (Eq.symm h)
    · exact Has.fillNode_of h ih

theorem Has.fillNode (h : (t.fillNode b dflt a lo hi i base).Has b x) :
    x = a ∨ x = dflt ∨ t.Has b x :=
  h.fillNode_of Has.fill

end Compact

end Radix

end QemuBoard.Library
