import QemuBoard.Library.Action
import QemuBoard.Library.Timers

namespace QemuBoard.Library

open QemuBoard.Library.Action

variable {σ ι ε : Type}

section Run

variable (active : σ → List (ι × Nat)) (fire : ι → Nat → Action σ ε Unit)

def runTimers (target : Nat) : Nat → Action σ ε Unit
  | 0 => pure ()
  | rounds + 1 => do
    let s ← get
    match active s with
    | [] => pure ()
    | (i, e) :: _ =>
      if e ≤ target then do
        fire i e
        runTimers target rounds
      else pure ()

variable {active fire} {target : Nat}

theorem runTimers_of_not_due (active : σ → List (ι × Nat)) (fire : ι → Nat → Action σ ε Unit)
    {s : σ} (h : ∀ p ∈ (active s).head?, target < p.2) (rounds : Nat) :
    runTimers active fire target rounds s = some ((), s, []) := by
  cases rounds with
  | zero => rfl
  | succ rounds =>
    rw [runTimers, bind_of_run (get_run s), after_nil]
    cases hs : active s with
    | nil => rfl
    | cons p l =>
      have hp : ¬ p.2 ≤ target := Nat.not_le.mpr (h p (by simp [hs]))
      simp [hp]

theorem runTimers_of_due {s t : σ} {i : ι} {e : Nat} {l : List (ι × Nat)} {out : List ε}
    (hs : active s = (i, e) :: l) (he : e ≤ target) (hfire : fire i e s = some ((), t, out))
    (rounds : Nat) : runTimers active fire target (rounds + 1) s =
      after out (runTimers active fire target rounds t) := by
  rw [runTimers, bind_of_run (get_run s), after_nil]
  simp only [hs, he, if_true, bind_of_run hfire]

theorem due_or_not_due (active : σ → List (ι × Nat)) (target : Nat) (s : σ) :
    (∃ i e l, active s = (i, e) :: l ∧ e ≤ target) ∨ ∀ p ∈ (active s).head?, target < p.2 := by
  cases hs : active s with
  | nil => exact .inr (by simp)
  | cons p l =>
    by_cases hp : p.2 ≤ target
    · exact .inl ⟨p.1, p.2, l, rfl, hp⟩
    · exact .inr (by simpa using hp)

/-- The loop ends with no timer due, if every callback counts down to an empty list within the
rounds, and keeps what every callback keeps. -/
theorem runTimers_done {I : σ → List ε → Prop} (target : Nat) (rank : σ → Nat)
    (zero : ∀ {s}, rank s = 0 → active s = [])
    (step : ∀ {s i e l out}, I s out → active s = (i, e) :: l → e ≤ target →
      ∃ t out', fire i e s = some ((), t, out') ∧ rank t < rank s ∧ I t (out ++ out'))
    {rounds : Nat} {s : σ} (hrounds : rank s ≤ rounds) {out : List ε} (hI : I s out) :
    ∃ t out', runTimers active fire target rounds s = some ((), t, out') ∧ I t (out ++ out') ∧
      ∀ p ∈ (active t).head?, target < p.2 := by
  induction rounds generalizing s out with
  | zero =>
    refine ⟨s, [], rfl, by simpa using hI, ?_⟩
    rw [zero (Nat.le_zero.mp hrounds)]
    simp
  | succ rounds ih =>
    rcases due_or_not_due active target s with ⟨i, e, l, hs, he⟩ | hnone
    · obtain ⟨t, out', hfire, hrank, ht⟩ := step hI hs he
      obtain ⟨u, out'', hrest, hu, hdone⟩ := ih (by omega) ht
      refine ⟨u, out' ++ out'', ?_, by simpa using hu, hdone⟩
      rw [runTimers_of_due hs he hfire, hrest, after_some]
    · exact ⟨s, [], runTimers_of_not_due active fire hnone _, by simpa using hI, hnone⟩

theorem runTimers_agree {R : σ → σ → Prop} {k : Nat}
    (shift : ∀ {s t}, R s t → active t = (active s).map fun p => (p.1, p.2 + k))
    (step : ∀ {s t i e l}, R s t → active s = (i, e) :: l → Agree R (fire i e s) (fire i (e + k) t))
    (rounds : Nat) {s t : σ} (h : R s t) :
    Agree R (runTimers active fire target rounds s)
      (runTimers active fire (target + k) rounds t) := by
  induction rounds generalizing s t with
  | zero => exact .done h
  | succ rounds ih =>
    rw [runTimers, runTimers, bind_of_run (get_run s), bind_of_run (get_run t), after_nil,
      after_nil]
    have ht := shift h
    cases hs : active s with
    | nil =>
      rw [hs] at ht
      rw [ht]
      exact .done h
    | cons p l =>
      rw [hs, List.map_cons] at ht
      rw [ht]
      dsimp only
      by_cases he : p.2 ≤ target
      · rw [if_pos he, if_pos (Nat.add_le_add_right he k)]
        exact (step h hs).bind fun _ _ _ => ih
      · rw [if_neg he, if_neg (fun hle => he (Nat.le_of_add_le_add_right hle))]
        exact .done h

end Run

end QemuBoard.Library
