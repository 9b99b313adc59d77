import QemuBoard.Library.Trace

namespace QemuBoard.Library

variable {σ α ε : Type}

structure Alarm (M : System σ α ε) where
  clock : σ → Nat
  time : α → Nat
  expiry : σ → Option Nat
  arms : σ → α → Option Nat
  fires : α → Prop
  clock_le : ∀ {s a out t}, M.step s a out t → clock s ≤ time a
  clock_eq : ∀ {s a out t}, M.step s a out t → clock t = time a
  due : ∀ {s a out t}, M.step s a out t → fires a → ∃ x, expiry s = some x ∧ x ≤ time a
  armed : ∀ {s a out t p}, M.step s a out t → arms s a = some p → expiry t = some (time a + p)
  spent : ∀ {s a out t}, M.step s a out t → arms s a = none → fires a → expiry t = none
  kept : ∀ {s a out t}, M.step s a out t → arms s a = none → ¬ fires a → expiry t = expiry s

namespace Alarm

variable {M : System σ α ε} (A : Alarm M) {s t : σ} {a : α} {out : List ε}

def lastPeriod (tr : List (Event σ α ε)) : Option Nat :=
  lastSince (fun e => A.arms e.pre e.op) (fun _ => false) tr

theorem lastPeriod_snoc (tr : List (Event σ α ε)) (e : Event σ α ε) :
    A.lastPeriod (tr ++ [e]) = (A.arms e.pre e.op).or (A.lastPeriod tr) := by
  rw [lastPeriod, lastSince_snoc]
  rfl

/-- If the timer is running, it ends no earlier than its last period after `now`. -/
def Paced (now : Nat) (last : Option Nat) (s : σ) : Prop :=
  ∀ x, A.expiry s = some x → ∃ p, last = some p ∧ now + p ≤ x

theorem paced_step {now : Nat} {last : Option Nat} (hstep : M.step s a out t)
    (hnow : now ≤ A.time a)
    (h : ¬ A.fires a → A.Paced now last s) : A.Paced now ((A.arms s a).or last) t := by
  intro x hx
  cases harms : A.arms s a with
  | some p =>
    rw [A.armed hstep harms] at hx
    obtain rfl : A.time a + p = x := Option.some.inj hx
    exact ⟨p, rfl, Nat.add_le_add_right hnow p⟩
  | none =>
    rw [Option.none_or]
    by_cases hfires : A.fires a
    · rw [A.spent hstep harms hfires] at hx
      cases hx
    · rw [A.kept hstep harms hfires] at hx
      exact h hfires x hx

theorem run_paced {pre mid : List (Event σ α ε)} {e : Event σ α ε}
    (h : M.Run s (pre ++ e :: mid) t) (he : A.fires e.op) :
    A.time e.op ≤ A.clock t ∧ A.Paced (A.time e.op) (A.lastPeriod (pre ++ e :: mid)) t := by
  generalize htr : pre ++ e :: mid = tr at h
  induction h generalizing mid with
  | nil => simp at htr
  | @snoc tr t a out u _ hstep ih =>
    rw [lastPeriod_snoc, A.clock_eq hstep]
    rcases List.eq_nil_or_concat mid with rfl | ⟨mid, x, rfl⟩
    · obtain ⟨rfl, hlast⟩ := List.append_inj' htr rfl
      obtain rfl : e = ⟨t, a, out⟩ := by simpa using hlast
      exact ⟨Nat.le_refl _, A.paced_step hstep (Nat.le_refl _) fun hfires => absurd he hfires⟩
    · rw [List.concat_eq_append, ← List.cons_append, ← List.append_assoc] at htr
      obtain ⟨hclock, hpaced⟩ := ih (List.append_inj' htr rfl).1
      have hle := Nat.le_trans hclock (A.clock_le hstep)
      exact ⟨hle, A.paced_step hstep hle fun _ => hpaced⟩

/-- Two firings are at least one period apart, the one that the timer was armed with last. -/
theorem spaced {pre mid post : List (Event σ α ε)} {e e' : Event σ α ε}
    (h : M.Run s (pre ++ e :: (mid ++ e' :: post)) t) (he : A.fires e.op) (he' : A.fires e'.op) :
    ∃ p, A.lastPeriod (pre ++ e :: mid) = some p ∧ A.time e.op + p ≤ A.time e'.op := by
  rw [← List.cons_append, ← List.append_assoc] at h
  obtain ⟨hrun, u, hstep⟩ := h.split
  obtain ⟨x, hx, hdue⟩ := A.due hstep he'
  obtain ⟨p, hp, hle⟩ := (A.run_paced hrun he).2 x hx
  exact ⟨p, hp, Nat.le_trans hle hdue⟩

end Alarm

end QemuBoard.Library
