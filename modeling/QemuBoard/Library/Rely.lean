import QemuBoard.Library.Program

namespace QemuBoard.Library

variable {S : Signature} {σ τ ι ε : Type}

namespace Threads

/-- `K t w` reads: what the knowledge `t` says holds in `w`. Every program of a thread starts
with the knowledge `t₀`, and `learn` is how an answer adds to it. -/
structure Relies (M : Threads S σ ι ε) (I : σ → Prop) (K : τ → σ → Prop) (t₀ : τ)
    (pre : S.Op → τ → Prop) (learn : τ → (o : S.Op) → S.Res o → τ → Prop) : Prop where
  start : ∀ {w}, I w → K t₀ w
  menu : ∀ {i p}, M.menu i p → p.Wp pre learn (fun _ _ => True) t₀
  handle : ∀ {w o r w' t}, I w → K t w → pre o t → M.handle w o r w' →
    I w' ∧ ∃ t', learn t o r t' ∧ K t' w'
  stable : ∀ {w o r w' t u}, I w → K t w → pre o t → M.handle w o r w' → K u w → K u w'
  env : ∀ {w e w'}, I w → M.env w e w' → I w' ∧ ∀ u, K u w → K u w'

variable [DecidableEq ι] {M : Threads S σ ι ε} {I : σ → Prop} {K : τ → σ → Prop} {t₀ : τ}
  {pre : S.Op → τ → Prop} {learn : τ → (o : S.Op) → S.Res o → τ → Prop}

def Knows (K : τ → σ → Prop) (pre : S.Op → τ → Prop)
    (learn : τ → (o : S.Op) → S.Res o → τ → Prop) (w : σ) (p : Prog S Unit) : Prop :=
  ∃ t, K t w ∧ p.Wp pre learn (fun _ _ => True) t

omit [DecidableEq ι] in
theorem Relies.knows_of_handle {w w' : σ} {o : S.Op} {r : S.Res o} {t : τ} {p : Prog S Unit}
    (hM : M.Relies I K t₀ pre learn) (hI : I w) (ht : K t w) (hpre : pre o t)
    (hw : M.handle w o r w') (h : Knows K pre learn w p) : Knows K pre learn w' p := by
  obtain ⟨u, hu, hp⟩ := h
  exact ⟨u, hM.stable hI ht hpre hw hu, hp⟩

theorem Relies.step {c c' : Config S σ ι} {l : Label S ι ε} (hM : M.Relies I K t₀ pre learn)
    (h : M.Step c l c') (hI : I c.world) (hc : ∀ i, Knows K pre learn c.world (c.prog i)) :
    I c'.world ∧ ∀ i, Knows K pre learn c'.world (c'.prog i) := by
  cases h with
  | start _ hp => exact ⟨hI, forall_update hc ⟨t₀, hM.start hI, hM.menu hp⟩⟩
  | @call i o r w k hi hw =>
    obtain ⟨t, ht, hwp⟩ := hc i
    rw [hi] at hwp
    obtain ⟨hI', t', hstep, ht'⟩ := hM.handle hI ht hwp.1 hw
    exact ⟨hI', forall_update (fun j => hM.knows_of_handle hI ht hwp.1 hw (hc j))
      ⟨t', ht', hwp.2 r t' hstep⟩⟩
  | @pass i o r w p k hi hw _ =>
    obtain ⟨t, ht, hwp⟩ := hc i
    rw [hi] at hwp
    obtain ⟨hI', t', hstep, ht'⟩ := hM.handle hI ht hwp.1 hw
    exact ⟨hI', forall_update (fun j => hM.knows_of_handle hI ht hwp.1 hw (hc j))
      ⟨t', ht', (hwp.2 r t' hstep).2⟩⟩
  | @again i o r w p k hi hw hfail =>
    obtain ⟨t, ht, hwp⟩ := hc i
    rw [hi] at hwp
    obtain ⟨-, t', hstep, -⟩ := hM.handle hI ht hwp.1 hw
    -- what the thread knows makes its wait pass at once
    exact absurd (hwp.2 r t' hstep).1 (by simp [hfail])
  | env hw =>
    obtain ⟨hI', hu⟩ := hM.env hI hw
    refine ⟨hI', fun j => ?_⟩
    obtain ⟨t, ht, hwp⟩ := hc j
    exact ⟨t, hu t ht, hwp⟩

theorem Relies.run {w : σ} {c : Config S σ ι}
    {tr : List (Event (Config S σ ι) (Label S ι ε) Empty)} (hM : M.Relies I K t₀ pre learn)
    (hI : I w) (h : M.system.Run (Config.idle w) tr c) :
    I c.world ∧ ∀ i, Knows K pre learn c.world (c.prog i) := by
  apply h.preserves (I := fun c => I c.world ∧ ∀ i, Knows K pre learn c.world (c.prog i))
  · exact ⟨hI, fun _ => ⟨t₀, hM.start hI, trivial⟩⟩
  · rintro c l out c' ⟨-, hstep⟩ ⟨hI, hc⟩
    exact hM.step hstep hI hc

end Threads

end QemuBoard.Library
