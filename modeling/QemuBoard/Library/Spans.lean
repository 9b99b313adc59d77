import Mathlib.Data.List.Basic
import Mathlib.Algebra.Order.Group.Int

namespace QemuBoard.Library

structure Span where
  start : Int
  size : Int
  deriving DecidableEq

namespace Span

def stop (r : Span) : Int := r.start + r.size

def Has (r : Span) (a : Int) : Prop := r.start ≤ a ∧ a < r.stop

instance (r : Span) (a : Int) : Decidable (r.Has a) := inferInstanceAs (Decidable (_ ∧ _))

def meet (r s : Span) : Span :=
  ⟨max r.start s.start, min r.stop s.stop - max r.start s.start⟩

theorem has_meet (r s : Span) (a : Int) : (r.meet s).Has a ↔ r.Has a ∧ s.Has a := by
  simp only [Has, meet, stop]
  omega

theorem not_has_of_size {r : Span} (h : r.size ≤ 0) (a : Int) : ¬r.Has a := by
  simp only [Has, stop]
  omega

end Span

variable {α β : Type} {span : α → Span} {l : List α} {x : α} {a : Int}

/-- None is empty, and each ends before all that follow it start. -/
structure Ascending (span : α → Span) (l : List α) : Prop where
  filled : ∀ x ∈ l, 0 < (span x).size
  apart : l.Pairwise fun x y => (span x).stop ≤ (span y).start

def look (span : α → Span) (read : α → Int → β) (l : List α) (a : Int) : Option β :=
  (l.find? fun x => (span x).Has a).map (read · a)

variable {read : α → Int → β}

@[simp] theorem look_nil : look span read [] a = none := rfl

theorem look_cons :
    look span read (x :: l) a = if (span x).Has a then some (read x a) else look span read l a := by
  simp only [look, List.find?_cons]
  split <;> simp_all

theorem look_eq_none (h : ∀ x ∈ l, ¬(span x).Has a) : look span read l a = none := by
  simp only [look, Option.map_eq_none_iff, List.find?_eq_none, decide_eq_true_eq]
  exact h

namespace Ascending

theorem nil : Ascending span [] := ⟨fun _ h => absurd h List.not_mem_nil, .nil⟩

theorem cons_iff : Ascending span (x :: l) ↔
    0 < (span x).size ∧ (∀ y ∈ l, (span x).stop ≤ (span y).start) ∧ Ascending span l := by
  constructor
  · intro h
    have happart := List.pairwise_cons.mp h.apart
    exact ⟨h.filled x List.mem_cons_self, happart.1,
      fun y hy => h.filled y (List.mem_cons_of_mem x hy), happart.2⟩
  · intro ⟨hsize, hx, hl⟩
    exact ⟨List.forall_mem_cons.mpr ⟨hsize, hl.filled⟩, List.pairwise_cons.mpr ⟨hx, hl.apart⟩⟩

theorem tail (h : Ascending span (x :: l)) : Ascending span l := (cons_iff.mp h).2.2

theorem start_le (h : Ascending span (x :: l)) : ∀ y ∈ x :: l, (span x).start ≤ (span y).start := by
  obtain ⟨hsize, hafter, -⟩ := cons_iff.mp h
  refine List.forall_mem_cons.mpr ⟨le_rfl, fun y hy => ?_⟩
  have hstop : (span x).stop ≤ (span y).start := hafter y hy
  simp only [Span.stop] at hstop
  omega

theorem look_tail (h : Ascending span (x :: l)) (ha : a < (span x).stop) :
    look span read l a = none := by
  apply look_eq_none
  intro y hy hhas
  have hle := (cons_iff.mp h).2.1 y hy
  exact absurd (hle.trans hhas.1) (by omega)

theorem look_of_mem (h : Ascending span l) (hx : x ∈ l) (ha : (span x).Has a) :
    look span read l a = some (read x a) := by
  induction l with
  | nil => exact absurd hx List.not_mem_nil
  | cons y l ih =>
    rw [look_cons]
    rcases List.mem_cons.mp hx with rfl | hmem
    · rw [if_pos ha]
    · have hle := (cons_iff.mp h).2.1 x hmem
      have hnot : ¬(span y).Has a := fun hy => absurd (hle.trans ha.1) (not_le.mpr hy.2)
      rw [if_neg hnot]
      exact ih h.tail hmem

end Ascending

end QemuBoard.Library
