import QemuBoard.Library.Action

namespace QemuBoard.Library.Action

variable {σ τ ε α β γ ι : Type} {view : σ → β} {upd : β → ε → β}

/-- The view after the action is the one before it, with the entries of the log applied. -/
def Follows (view : σ → β) (upd : β → ε → β) (m : Action σ ε α) : Prop :=
  ∀ s a t out, m s = some (a, t, out) → view t = out.foldl upd (view s)

namespace Follows

theorem pure (a : α) : Follows view upd (pure a) := by
  intro s a' t out h
  obtain ⟨rfl, rfl, rfl⟩ : a = a' ∧ s = t ∧ [] = out := by simpa using h
  rfl

theorem bind {m : Action σ ε α} {f : α → Action σ ε γ} (hm : Follows view upd m)
    (hf : ∀ a, Follows view upd (f a)) : Follows view upd (m >>= f) := by
  intro s c u out h
  obtain ⟨a, t, l₁, l₂, hms, hft, rfl⟩ := exists_of_bind h
  rw [List.foldl_append, ← hm s a t l₁ hms]
  exact hf a t c u l₂ hft

theorem get : Follows view upd Action.get := by
  intro s a t out h
  obtain ⟨rfl, rfl, rfl⟩ : s = a ∧ s = t ∧ [] = out := by simpa using h
  rfl

theorem modify {f : σ → σ} (hf : ∀ s, view (f s) = view s) : Follows view upd (modify f) := by
  intro s a t out h
  obtain ⟨rfl, rfl⟩ : f s = t ∧ [] = out := by simpa using h
  exact hf s

theorem emit {e : ε} (he : ∀ b, upd b e = b) : Follows view upd (emit e) := by
  intro s a t out h
  obtain ⟨rfl, rfl⟩ : s = t ∧ [e] = out := by simpa using h
  exact (he _).symm

theorem abort : Follows view upd (abort : Action σ ε α) := by
  intro s a t out h
  simp at h

theorem ite {c : Prop} [Decidable c] {m n : Action σ ε α} (hm : Follows view upd m)
    (hn : Follows view upd n) : Follows view upd (if c then m else n) := by
  split
  · exact hm
  · exact hn

theorem foldlM {visit : γ → ι → Action σ ε γ} (h : ∀ b i, Follows view upd (visit b i))
    (l : List ι) (b : γ) : Follows view upd (l.foldlM visit b) := by
  induction l generalizing b with
  | nil => exact pure b
  | cons i l ih =>
    rw [List.foldlM_cons]
    exact (h b i).bind ih

theorem on [DecidableEq ι] {view : τ → β} {m : Action τ ε α} (hm : Follows view upd m) (i j : ι) :
    Follows (fun s : ι → τ => view (s i)) (fun b (x : ι × ε) => if x.1 = i then upd b x.2 else b)
      (on j m) := by
  intro s a t out h
  rw [Action.on] at h
  split at h
  case h_1 => exact absurd h (by simp)
  case h_2 a' t' l hms =>
    obtain ⟨rfl, rfl, rfl⟩ : a' = a ∧ Function.update s j t' = t ∧ l.map (Prod.mk j) = out := by
      simpa using h
    dsimp only
    rw [List.foldl_map]
    by_cases hj : j = i
    · subst hj
      simp only [Function.update_self, if_true]
      exact hm _ _ _ _ hms
    · rw [Function.update_of_ne (Ne.symm hj)]
      simp only [hj, if_false, List.foldl_fixed]

end Follows

end QemuBoard.Library.Action
