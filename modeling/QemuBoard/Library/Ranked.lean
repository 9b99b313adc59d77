import Mathlib.Data.List.Sort

namespace QemuBoard.Library

variable {α β : Type} {rank : α → Int} {ask : α → Option β} {x z : α} {acc l : List α} {b : β}

def enlist (rank : α → Int) (acc : List α) (x : α) : List α :=
  acc.orderedInsert (fun x y => rank x ≥ rank y) x

theorem mem_enlist : z ∈ enlist rank acc x ↔ z = x ∨ z ∈ acc := List.mem_orderedInsert _

abbrev Descending (rank : α → Int) (l : List α) : Prop := l.Pairwise fun x y => rank x ≥ rank y

theorem Descending.enlist (h : Descending rank acc) (x : α) :
    Descending rank (enlist rank acc x) := by
  have : Std.Total fun x y : α => rank x ≥ rank y := ⟨fun x y => le_total (rank y) (rank x)⟩
  have : IsTrans α fun x y => rank x ≥ rank y := ⟨fun _ _ _ hxy hyz => hyz.trans hxy⟩
  exact List.Pairwise.orderedInsert x acc h

theorem Descending.foldl (h : Descending rank acc) (l : List α) :
    Descending rank (l.foldl (Library.enlist rank) acc) := by
  induction l generalizing acc with
  | nil => exact h
  | cons x l ih => exact ih (h.enlist x)

theorem mem_foldl_enlist : z ∈ l.foldl (enlist rank) acc ↔ z ∈ l ∨ z ∈ acc := by
  induction l generalizing acc with
  | nil => simp
  | cons x l ih =>
    rw [List.foldl_cons, ih, mem_enlist, List.mem_cons]
    tauto

def Leads (ask : α → Option β) (x : α) (l : List α) : Prop :=
  ∃ before after, l = before ++ x :: after ∧ ∀ y ∈ before, ask y = none

namespace Leads

theorem cons (h : Leads ask x l) (hz : ask z = none) : Leads ask x (z :: l) := by
  obtain ⟨before, after, rfl, hbefore⟩ := h
  exact ⟨z :: before, after, rfl, List.forall_mem_cons.mpr ⟨hz, hbefore⟩⟩

theorem head (l : List α) : Leads ask x (x :: l) :=
  ⟨[], l, rfl, fun _ h => absurd h List.not_mem_nil⟩

theorem findSome (h : Leads ask x l) (hx : ask x = some b) : l.findSome? ask = some b := by
  obtain ⟨before, after, rfl, hbefore⟩ := h
  rw [List.findSome?_append, List.findSome?_eq_none_iff.mpr hbefore]
  simp [hx]

theorem enlist_self (h : ∀ y ∈ acc, ask y ≠ none → rank y ≤ rank x) :
    Leads ask x (enlist rank acc x) := by
  induction acc with
  | nil => exact head []
  | cons y acc ih =>
    rw [enlist, List.orderedInsert_cons]
    split
    case isTrue => exact head _
    case isFalse hlt =>
      have hhead := List.forall_mem_cons.mp h
      exact (ih hhead.2).cons (not_not.mp fun hy => hlt (hhead.1 hy))

theorem enlist_of_lt (h : Leads ask x acc) (hdesc : Descending rank acc)
    (hz : ask z ≠ none → rank z < rank x) : Leads ask x (enlist rank acc z) := by
  obtain ⟨before, after, rfl, hbefore⟩ := h
  have hsilent : rank z ≥ rank x → ask z = none := fun hle =>
    not_not.mp fun hne => absurd (hz hne) (not_lt.mpr hle)
  induction before with
  | nil =>
    rw [List.nil_append, enlist, List.orderedInsert_cons]
    split
    case isTrue hle => exact (head after).cons (hsilent hle)
    case isFalse => exact head _
  | cons y before ih =>
    have hcons := List.pairwise_cons.mp hdesc
    have hall := List.forall_mem_cons.mp hbefore
    have hyx : rank y ≥ rank x := hcons.1 x (by simp)
    rw [List.cons_append, enlist, List.orderedInsert_cons]
    split
    case isTrue hle =>
      exact Leads.cons ⟨y :: before, after, rfl, hbefore⟩ (hsilent (hyx.trans hle))
    case isFalse => exact (ih hall.2 hcons.2).cons hall.1

theorem foldl (h : Leads ask x acc) (hdesc : Descending rank acc)
    (hl : ∀ z ∈ l, ask z ≠ none → rank z < rank x) : Leads ask x (l.foldl (enlist rank) acc) := by
  induction l generalizing acc with
  | nil => exact h
  | cons z l ih =>
    have hall := List.forall_mem_cons.mp hl
    exact ih (h.enlist_of_lt hdesc hall.1) (hdesc.enlist z) hall.2

end Leads

/-- Of all enlisted, the one who leads is of the highest rank among those who answer, and the
newest of that rank. -/
theorem leads_enlisted {before after : List α}
    (hbefore : ∀ y ∈ before, ask y ≠ none → rank y ≤ rank x)
    (hafter : ∀ y ∈ after, ask y ≠ none → rank y < rank x) :
    Leads ask x ((before ++ x :: after).foldl (enlist rank) []) := by
  have hdesc : Descending rank (before.foldl (enlist rank) []) := Descending.foldl .nil before
  rw [List.foldl_append, List.foldl_cons]
  apply Leads.foldl _ (hdesc.enlist x) hafter
  apply Leads.enlist_self
  intro y hy
  apply hbefore y
  exact (mem_foldl_enlist.mp hy).resolve_right List.not_mem_nil

end QemuBoard.Library
