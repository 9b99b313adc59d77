import Mathlib.Data.List.Perm.Basic
import Mathlib.Data.List.Nodup

namespace QemuBoard.Library

variable {ι : Type} [DecidableEq ι]

/-- Timers of equal expiry stand in the order in which they were armed. -/
structure TimerList (ι : Type) where
  active : List (ι × Nat)
  nodup : (active.map Prod.fst).Nodup
  sorted : active.Pairwise (fun a b => a.2 ≤ b.2)
  deriving DecidableEq

attribute [ext] TimerList

namespace TimerList

def lookup (i : ι) : List (ι × Nat) → Option Nat
  | [] => none
  | (j, e) :: l => if j = i then some e else lookup i l

def insert (i : ι) (e : Nat) : List (ι × Nat) → List (ι × Nat)
  | [] => [(i, e)]
  | (j, f) :: l => if f ≤ e then (j, f) :: insert i e l else (i, e) :: (j, f) :: l

omit [DecidableEq ι] in
theorem insert_perm (i : ι) (e : Nat) (l : List (ι × Nat)) :
    (insert i e l).Perm ((i, e) :: l) := by
  induction l with
  | nil => exact .refl _
  | cons p l ih =>
    obtain ⟨j, f⟩ := p
    simp only [insert]
    split
    · exact (ih.cons _).trans (.swap _ _ _)
    · exact .refl _

omit [DecidableEq ι] in
theorem insert_sorted (i : ι) (e : Nat) {l : List (ι × Nat)}
    (h : l.Pairwise (fun a b => a.2 ≤ b.2)) :
    (insert i e l).Pairwise (fun a b => a.2 ≤ b.2) := by
  induction l with
  | nil => simp [insert]
  | cons p l ih =>
    obtain ⟨j, f⟩ := p
    obtain ⟨hf, hl⟩ := List.pairwise_cons.mp h
    simp only [insert]
    split
    case isTrue hfe =>
      refine List.pairwise_cons.mpr ⟨fun q hq => ?_, ih hl⟩
      rcases List.mem_cons.mp ((insert_perm i e l).mem_iff.mp hq) with rfl | hq
      · exact hfe
      · exact hf q hq
    case isFalse hfe =>
      refine List.pairwise_cons.mpr ⟨fun q hq => ?_, h⟩
      rcases List.mem_cons.mp hq with rfl | hq
      · exact Nat.le_of_not_le hfe
      · exact Nat.le_trans (Nat.le_of_not_le hfe) (hf q hq)

theorem lookup_insert (i j : ι) (e : Nat) {l : List (ι × Nat)} (h : i ∉ l.map Prod.fst) :
    lookup j (insert i e l) = if i = j then some e else lookup j l := by
  induction l with
  | nil => rfl
  | cons p l ih =>
    obtain ⟨k, f⟩ := p
    simp only [List.map_cons, List.mem_cons, not_or] at h
    simp only [insert]
    split
    · simp only [lookup, ih h.2]
      by_cases hkj : k = j
      · have hij : i ≠ j := fun hij => h.1 (hij.trans hkj.symm)
        simp [hkj, hij]
      · simp [hkj]
    · simp only [lookup]

theorem lookup_filter (i j : ι) (l : List (ι × Nat)) :
    lookup j (l.filter (fun p => p.1 ≠ i)) = if i = j then none else lookup j l := by
  induction l with
  | nil => simp [lookup]
  | cons p l ih =>
    obtain ⟨k, f⟩ := p
    by_cases hki : k = i
    · subst hki
      rw [List.filter_cons_of_neg (by simp), ih]
      by_cases hkj : k = j <;> simp [lookup, hkj]
    · rw [List.filter_cons_of_pos (by simpa using hki)]
      simp only [lookup, ih]
      by_cases hkj : k = j
      · have hij : i ≠ j := fun hij => hki (hkj.trans hij.symm)
        simp [hkj, hij]
      · simp [hkj]

theorem lookup_eq_none {i : ι} {l : List (ι × Nat)} : lookup i l = none ↔ i ∉ l.map Prod.fst := by
  induction l with
  | nil => simp [lookup]
  | cons p l ih =>
    obtain ⟨k, f⟩ := p
    by_cases hki : k = i
    · simp [lookup, hki]
    · simp [lookup, hki, ih, Ne.symm hki]

def expiry (t : TimerList ι) (i : ι) : Option Nat := lookup i t.active

def pending (t : TimerList ι) (i : ι) : Bool := (t.expiry i).isSome

def empty : TimerList ι where
  active := []
  nodup := List.nodup_nil
  sorted := List.Pairwise.nil

def del (t : TimerList ι) (i : ι) : TimerList ι where
  active := t.active.filter (fun p => p.1 ≠ i)
  nodup := t.nodup.sublist (List.filter_sublist.map _)
  sorted := t.sorted.sublist List.filter_sublist

omit [DecidableEq ι] in
theorem nodup_insert {i : ι} {e : Nat} {l : List (ι × Nat)} (hi : i ∉ l.map Prod.fst)
    (h : (l.map Prod.fst).Nodup) : ((insert i e l).map Prod.fst).Nodup := by
  have hp := (insert_perm i e l).map Prod.fst
  exact hp.nodup_iff.mpr (List.nodup_cons.mpr ⟨hi, h⟩)

theorem not_mem_del (t : TimerList ι) (i : ι) : i ∉ (t.del i).active.map Prod.fst := by
  simp [del]

/-- Arming a timer moves it if it is armed already. -/
def mod (t : TimerList ι) (i : ι) (e : Nat) : TimerList ι where
  active := insert i e (t.del i).active
  nodup := nodup_insert (t.not_mem_del i) (t.del i).nodup
  sorted := insert_sorted i e (t.del i).sorted

@[simp] theorem expiry_del (t : TimerList ι) (i j : ι) :
    (t.del i).expiry j = if i = j then none else t.expiry j :=
  lookup_filter i j t.active

@[simp] theorem expiry_mod (t : TimerList ι) (i j : ι) (e : Nat) :
    (t.mod i e).expiry j = if i = j then some e else t.expiry j := by
  have h := lookup_insert i j e (t.not_mem_del i)
  rw [expiry, mod, h]
  split
  case isTrue => rfl
  case isFalse hij => exact (expiry_del t i j).trans (if_neg hij)

@[simp] theorem pending_empty (i : ι) : (empty : TimerList ι).pending i = false := rfl

@[simp] theorem pending_del (t : TimerList ι) (i j : ι) :
    (t.del i).pending j = (!decide (i = j) && t.pending j) := by
  by_cases h : i = j <;> simp [pending, h]

@[simp] theorem pending_mod (t : TimerList ι) (i j : ι) (e : Nat) :
    (t.mod i e).pending j = (decide (i = j) || t.pending j) := by
  by_cases h : i = j <;> simp [pending, h]

theorem active_eq_nil {t : TimerList ι} (h : ∀ i, t.pending i = false) : t.active = [] := by
  rw [List.eq_nil_iff_forall_not_mem]
  intro p hp
  have hnone : t.expiry p.1 = none := by simpa [pending] using h p.1
  exact lookup_eq_none.mp hnone (List.mem_map_of_mem hp)

theorem pending_of_head {t : TimerList ι} {i : ι} {e : Nat} {l : List (ι × Nat)}
    (h : t.active = (i, e) :: l) : t.pending i = true := by
  simp [pending, expiry, h, lookup]

theorem mem_of_lookup {i : ι} {e : Nat} {l : List (ι × Nat)} (h : lookup i l = some e) :
    (i, e) ∈ l := by
  induction l with
  | nil => simp [lookup] at h
  | cons p l ih =>
    obtain ⟨j, f⟩ := p
    rw [lookup] at h
    split at h
    case isTrue hji =>
      obtain rfl : f = e := Option.some.inj h
      simp [hji]
    case isFalse => exact List.mem_cons_of_mem _ (ih h)

theorem lt_of_head {t : TimerList ι} {n : Nat} (h : ∀ p ∈ t.active.head?, n < p.2) {i : ι} {e : Nat}
    (he : t.expiry i = some e) : n < e := by
  have hmem := mem_of_lookup he
  have hsorted := t.sorted
  cases hl : t.active with
  | nil => simp [hl] at hmem
  | cons p l =>
    have hp : n < p.2 := h p (by simp [hl])
    rw [hl] at hmem hsorted
    rcases List.mem_cons.mp hmem with rfl | hin
    · exact hp
    · exact Nat.lt_of_lt_of_le hp ((List.pairwise_cons.mp hsorted).1 _ hin)

@[simps] def shift (t : TimerList ι) (k : Nat) : TimerList ι where
  active := t.active.map fun p => (p.1, p.2 + k)
  nodup := by
    rw [List.map_map]
    exact t.nodup
  sorted := by
    rw [List.pairwise_map]
    exact t.sorted.imp fun h => Nat.add_le_add_right h k

theorem del_shift (t : TimerList ι) (k : Nat) (i : ι) : (t.shift k).del i = (t.del i).shift k := by
  ext1
  simp only [del, shift, List.filter_map]
  rfl

omit [DecidableEq ι] in
theorem insert_map (i : ι) (e k : Nat) (l : List (ι × Nat)) :
    insert i (e + k) (l.map fun p => (p.1, p.2 + k)) =
      (insert i e l).map fun p => (p.1, p.2 + k) := by
  induction l with
  | nil => rfl
  | cons p l ih =>
    simp only [List.map_cons, insert, Nat.add_le_add_iff_right, ih]
    split <;> rfl

theorem mod_shift (t : TimerList ι) (k : Nat) (i : ι) (e : Nat) :
    (t.shift k).mod i (e + k) = (t.mod i e).shift k := by
  have hdel : ((t.shift k).del i).active = _ := congrArg active (del_shift t k i)
  ext1
  rw [mod]
  dsimp only
  rw [hdel]
  exact insert_map i e k (t.del i).active

theorem eq_empty {t : TimerList ι} (h : ∀ i, t.pending i = false) : t = empty :=
  TimerList.ext (active_eq_nil h)

theorem mod_eq_empty_mod {t : TimerList ι} {i : ι} (h : ∀ j, j ≠ i → t.pending j = false)
    (e : Nat) :
    t.mod i e = empty.mod i e := by
  have hdel : t.del i = empty := by
    apply eq_empty
    intro j
    by_cases hj : j = i
    · simp [hj]
    · simp [h j hj]
  ext1
  rw [mod, mod]
  dsimp only
  rw [hdel]
  rfl

end TimerList

end QemuBoard.Library
