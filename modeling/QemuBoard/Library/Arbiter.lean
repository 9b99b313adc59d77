import Mathlib.Data.List.Induction
import Mathlib.Algebra.Order.Group.Int

namespace QemuBoard.Library

variable {p : Nat → Prop} {key : Nat → Int}

def least (p : Nat → Prop) [DecidablePred p] (key : Nat → Int) (best : Int × Nat) (i : Nat) :
    Int × Nat :=
  if p i ∧ key i < best.1 then (key i, i) else best

/-- What a pass over `l` from `start` finds. -/
structure Least (p : Nat → Prop) (key : Nat → Int) (start : Int × Nat) (l : List Nat)
    (best : Int × Nat) : Prop where
  le_start : best.1 ≤ start.1
  le : ∀ i ∈ l, p i → best.1 ≤ key i
  found : best = start ∨ best.2 ∈ l ∧ p best.2 ∧ key best.2 = best.1 ∧ best.1 < start.1
  first : best.1 < start.1 → ∀ i ∈ l, p i → key i = best.1 → best.2 ≤ i

theorem least_foldl [DecidablePred p] (start : Int × Nat) {l : List Nat} (hl : l.Pairwise (· < ·)) :
    Least p key start l (l.foldl (least p key) start) := by
  induction l using List.reverseRecOn with
  | nil =>
    refine ⟨le_rfl, fun _ h => absurd h List.not_mem_nil, .inl rfl, fun h => ?_⟩
    exact absurd h (lt_irrefl _)
  | append_singleton l i ih =>
    obtain ⟨hl, -, hlast⟩ := List.pairwise_append.mp hl
    have hbefore : ∀ j ∈ l, j < i := fun j hj => hlast j hj i (List.mem_singleton_self i)
    obtain ⟨hstart, hle, hfound, hfirst⟩ := ih hl
    rw [List.foldl_append, List.foldl_cons, List.foldl_nil]
    generalize l.foldl (least p key) start = best at *
    rw [least]
    split
    case isTrue h =>
      refine ⟨(h.2.le).trans hstart, ?_, ?_, ?_⟩
      · intro j hj hpj
        rcases List.mem_append.mp hj with hj | hj
        · exact h.2.le.trans (hle j hj hpj)
        · rw [List.mem_singleton.mp hj]
      · exact .inr ⟨by simp, h.1, rfl, h.2.trans_le hstart⟩
      · intro _ j hj hpj hkey
        rcases List.mem_append.mp hj with hj | hj
        · -- an equal key further back would have been found already
          exact absurd (hle j hj hpj) (not_le.mpr (hkey ▸ h.2))
        · rw [List.mem_singleton.mp hj]
    case isFalse h =>
      refine ⟨hstart, ?_, ?_, ?_⟩
      · intro j hj hpj
        rcases List.mem_append.mp hj with hj | hj
        · exact hle j hj hpj
        · rw [List.mem_singleton.mp hj] at hpj ⊢
          exact not_lt.mp fun hlt => h ⟨hpj, hlt⟩
      · exact hfound.imp_right fun hf => ⟨List.mem_append_left _ hf.1, hf.2⟩
      · intro hlt j hj hpj hkey
        rcases List.mem_append.mp hj with hj | hj
        · exact hfirst hlt j hj hpj hkey
        · rw [List.mem_singleton.mp hj]
          rcases hfound with rfl | hf
          · exact absurd hlt (lt_irrefl _)
          · exact (hbefore _ hf.1).le

namespace Least

variable {p' : Nat → Prop} {start best best' : Int × Nat} {l : List Nat}

theorem mono (h : Least p key start l best) (h' : Least p' key start l best')
    (hp : ∀ i, p i → p' i) : best'.1 ≤ best.1 := by
  rcases h.found with heq | ⟨hmem, hpb, hkey, -⟩
  · rw [heq]
    exact h'.le_start
  · rw [← hkey]
    exact h'.le _ hmem (hp _ hpb)

theorem insert {j : Nat} (h : Least p key start l best) (h' : Least p' key start l best')
    (hp : ∀ i, p i → p' i) (hnew : ∀ i, p' i → p i ∨ i = j) : best' = best ∨ best'.2 = j := by
  have hle := h.mono h' hp
  rcases h'.found with heq' | ⟨hmem', hpb', hkey', hlt'⟩
  · rcases h.found with heq | ⟨-, -, -, hlt⟩
    · exact .inl (heq'.trans heq.symm)
    · rw [heq'] at hle
      exact absurd hlt (not_lt.mpr hle)
  · rcases hnew _ hpb' with hpb | hj
    · left
      have hkey : best'.1 = best.1 := le_antisymm hle (hkey' ▸ h.le _ hmem' hpb)
      have hlt : best.1 < start.1 := hkey ▸ hlt'
      obtain ⟨hmem, hpb₀, hkey₀, -⟩ := h.found.resolve_left fun heq =>
        absurd (heq ▸ hlt) (lt_irrefl _)
      refine Prod.ext hkey (le_antisymm ?_ ?_)
      · exact h'.first hlt' _ hmem (hp _ hpb₀) (hkey₀.trans hkey.symm)
      · exact h.first hlt _ hmem' hpb (hkey'.trans hkey)
    · exact .inr hj

end Least

end QemuBoard.Library
