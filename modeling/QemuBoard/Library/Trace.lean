import QemuBoard.Library.Action

namespace QemuBoard.Library

variable {σ α ε ν β : Type}

structure Event (σ α ε : Type) where
  pre : σ
  op : α
  out : List ε

structure System (σ α ε : Type) where
  step : σ → α → List ε → σ → Prop

namespace System

/-- The system of a device's callbacks. A callback that aborts takes no step. -/
def ofActions (guard : σ → α → Prop) (act : α → Action σ ε Unit) : System σ α ε where
  step s op out t := guard s op ∧ act op s = some ((), t, out)

def restrict (M : System σ α ε) (p : α → Prop) : System σ α ε where
  step s op out t := p op ∧ M.step s op out t

inductive Run (M : System σ α ε) (s : σ) : List (Event σ α ε) → σ → Prop
  | nil : Run M s [] s
  | snoc {tr t op out u} : Run M s tr t → M.step t op out u → Run M s (tr ++ [⟨t, op, out⟩]) u

variable {M : System σ α ε} {s t u : σ} {tr : List (Event σ α ε)}

theorem Run.preserves {I : σ → Prop} (h : M.Run s tr t) (init : I s)
    (step : ∀ {s op out t}, M.step s op out t → I s → I t) : I t := by
  induction h with
  | nil => exact init
  | snoc _ hstep ih => exact step hstep ih

theorem Run.split {pre post : List (Event σ α ε)} {e : Event σ α ε}
    (h : M.Run s (pre ++ e :: post) t) : M.Run s pre e.pre ∧ ∃ u, M.step e.pre e.op e.out u := by
  generalize htr : pre ++ e :: post = tr at h
  induction h generalizing post with
  | nil => simp at htr
  | snoc hrun hstep ih =>
    rcases List.eq_nil_or_concat post with rfl | ⟨post, x, rfl⟩
    · obtain ⟨rfl, he⟩ := List.append_inj' htr rfl
      obtain rfl : e = _ := by simpa using he
      exact ⟨hrun, _, hstep⟩
    · rw [List.concat_eq_append, ← List.cons_append, ← List.append_assoc] at htr
      exact ih (List.append_inj' htr rfl).1

theorem Run.after {pre post : List (Event σ α ε)} {e : Event σ α ε}
    (h : M.Run s (pre ++ e :: post) t) : ∃ u, M.step e.pre e.op e.out u ∧ M.Run u post t := by
  generalize htr : pre ++ e :: post = tr at h
  induction h generalizing post with
  | nil => simp at htr
  | snoc hrun hstep ih =>
    rcases List.eq_nil_or_concat post with rfl | ⟨post, x, rfl⟩
    · obtain ⟨rfl, he⟩ := List.append_inj' htr rfl
      obtain rfl : e = _ := by simpa using he
      exact ⟨_, hstep, .nil⟩
    · rw [List.concat_eq_append, ← List.cons_append, ← List.append_assoc] at htr
      obtain ⟨hpre, hx⟩ := List.append_inj' htr rfl
      obtain rfl : x = _ := by simpa using hx
      obtain ⟨u, hu, hpost⟩ := ih hpre
      rw [List.concat_eq_append]
      exact ⟨u, hu, hpost.snoc hstep⟩

theorem Run.events {I : σ → Prop} (h : M.Run s tr t) (init : I s)
    (step : ∀ {s op out t}, M.step s op out t → I s → I t) {e : Event σ α ε} (he : e ∈ tr) :
    I e.pre ∧ ∃ u, M.step e.pre e.op e.out u := by
  obtain ⟨pre, post, rfl⟩ := List.append_of_mem he
  obtain ⟨hpre, hstep⟩ := h.split
  exact ⟨hpre.preserves init step, hstep⟩

theorem Run.always_iff {I : σ → Prop} {ok : σ → α → Prop} (h : M.Run s tr t) (init : I s)
    (step : ∀ {s op out t}, M.step s op out t → I s → (I t ↔ ok s op)) :
    ((∀ e ∈ tr, I e.pre) ∧ I t) ↔ ∀ e ∈ tr, ok e.pre e.op := by
  induction h with
  | nil => simpa using init
  | @snoc tr t op out u _ hstep ih =>
    have hsplit : ((∀ e ∈ tr ++ [⟨t, op, out⟩], I e.pre) ∧ I u) ↔
        ((∀ e ∈ tr, I e.pre) ∧ I t) ∧ I u := by
      simp [or_imp, forall_and]
    rw [hsplit, and_congr_right fun hI => step hstep hI.2, ih]
    simp [or_imp, forall_and]

/-- What all steps but those that `stop` preserve holds up to the first of these. -/
theorem Run.until {I : σ → Prop} (stop : α → Prop) (h : M.Run s tr t) (init : I s)
    (step : ∀ {s op out t}, M.step s op out t → ¬ stop op → I s → I t) :
    ((∀ e ∈ tr, ¬ stop e.op) ∧ I t) ∨
      ∃ pre e post, tr = pre ++ e :: post ∧ (∀ x ∈ pre, ¬ stop x.op) ∧ stop e.op ∧ I e.pre := by
  induction h with
  | nil => exact .inl ⟨fun e he => absurd he List.not_mem_nil, init⟩
  | @snoc tr t op out u _ hstep ih =>
    rcases ih with ⟨hall, hI⟩ | ⟨pre, e, post, rfl, hall, hstop, hI⟩
    · by_cases hop : stop op
      · exact .inr ⟨tr, ⟨t, op, out⟩, [], rfl, hall, hop, hI⟩
      · refine .inl ⟨fun e he => ?_, step hstep hop hI⟩
        rcases List.mem_append.mp he with he | he
        · exact hall e he
        · rw [List.mem_singleton.mp he]
          exact hop
    · exact .inr ⟨pre, e, post ++ [⟨t, op, out⟩], by simp, hall, hstop, hI⟩

theorem Run.trans {tr' : List (Event σ α ε)} (h : M.Run s tr t) (h' : M.Run t tr' u) :
    M.Run s (tr ++ tr') u := by
  induction h' with
  | nil => simpa using h
  | snoc _ hstep ih =>
    rw [← List.append_assoc]
    exact ih.snoc hstep

theorem Run.mono {N : System σ α ε} (h : M.Run s tr t)
    (sub : ∀ {s op out t}, M.step s op out t → N.step s op out t) : N.Run s tr t := by
  induction h with
  | nil => exact .nil
  | snoc _ hstep ih => exact ih.snoc (sub hstep)

theorem Run.cons {op : α} {out : List ε} (hstep : M.step s op out t) (h : M.Run t tr u) :
    M.Run s (⟨s, op, out⟩ :: tr) u :=
  (Run.nil.snoc hstep).trans h

/-- A run with some of its operations left out, where those kept act the same without them. -/
theorem Run.erase (R : σ → σ → Prop) (keep : α → Bool) {s' : σ} (h : M.Run s tr t) (h₀ : R s s')
    (drop : ∀ {s op out t s'}, M.step s op out t → keep op = false → R s s' → R t s')
    (sim : ∀ {s op out t s'}, M.step s op out t → keep op = true → R s s' →
      ∃ out' t', M.step s' op out' t' ∧ R t t') :
    ∃ tr' t', M.Run s' tr' t' ∧ R t t' ∧ tr'.map Event.op = (tr.map Event.op).filter keep := by
  induction h with
  | nil => exact ⟨[], s', .nil, h₀, rfl⟩
  | @snoc tr t op out u _ hstep ih =>
    obtain ⟨tr', t', hrun, hR, hops⟩ := ih
    cases hkeep : keep op with
    | false =>
      refine ⟨tr', t', hrun, drop hstep hkeep hR, ?_⟩
      simp [hops, hkeep]
    | true =>
      obtain ⟨out', u', hstep', hR'⟩ := sim hstep hkeep hR
      refine ⟨_, u', hrun.snoc hstep', hR', ?_⟩
      simp [hops, hkeep]

theorem filterMap_of_erase {tr' : List (Event σ α ε)} {keep : α → Bool} {act? : α → Option β}
    (h : tr'.map Event.op = (tr.map Event.op).filter keep)
    (hdrop : ∀ {op}, keep op = false → act? op = none) :
    (tr'.filterMap fun e => act? e.op) = tr.filterMap fun e => act? e.op := by
  have hmap : ∀ l : List (Event σ α ε), (l.filterMap fun e => act? e.op) =
      (l.map Event.op).filterMap act? := fun l => (List.filterMap_map (f := Event.op)).symm
  rw [hmap, hmap, h, List.filterMap_filter]
  congr 1
  funext op
  cases hkeep : keep op with
  | false => simp [hdrop hkeep]
  | true => simp

def replay (act : α → Action σ ε Unit) : σ → List α → Option (List (Event σ α ε) × σ)
  | s, [] => some ([], s)
  | s, op :: ops =>
    match act op s with
    | none => none
    | some (_, t, out) => (replay act t ops).map fun r => (⟨s, op, out⟩ :: r.1, r.2)

theorem Run.replay {guard : σ → α → Prop} {act : α → Action σ ε Unit} {p : α → Prop} (s : σ)
    (ops : List α) (h : replay act s ops = some (tr, t))
    (ok : ∀ e ∈ tr, p e.op ∧ guard e.pre e.op) :
    ((ofActions guard act).restrict p).Run s tr t := by
  induction ops generalizing s tr with
  | nil =>
    obtain ⟨rfl, rfl⟩ : [] = tr ∧ s = t := by simpa [System.replay] using h
    exact .nil
  | cons op ops ih =>
    simp only [System.replay] at h
    cases hact : act op s with
    | none => simp [hact] at h
    | some r =>
      obtain ⟨⟨⟩, v, out⟩ := r
      simp only [hact, Option.map_eq_some_iff] at h
      obtain ⟨⟨tr', t'⟩, hr, heq⟩ := h
      obtain ⟨rfl, rfl⟩ : ⟨s, op, out⟩ :: tr' = tr ∧ t' = t := by simpa using heq
      have hok := ok ⟨s, op, out⟩ (by simp)
      exact .cons ⟨hok.1, hok.2, hact⟩ (ih _ hr fun e he => ok e (by simp [he]))

theorem Run.replay_get {guard : σ → α → Prop} {act : α → Action σ ε Unit} (s : σ) (ops : List α)
    (h : (System.replay act s ops).isSome = true)
    (ok : ∀ e ∈ ((System.replay act s ops).get h).1, guard e.pre e.op) :
    (ofActions guard act).Run s ((System.replay act s ops).get h).1
      ((System.replay act s ops).get h).2 :=
  (Run.replay (p := fun _ => True) s ops (Option.some_get h).symm fun e he =>
    ⟨trivial, ok e he⟩).mono
    fun hstep => hstep.2

end System

def outputs (next : σ → α → σ) (out : σ → α → List β) : σ → List α → List β
  | _, [] => []
  | s, a :: l => out s a ++ outputs next out (next s a) l

theorem outputs_concat (next : σ → α → σ) (out : σ → α → List β) (s : σ) (l : List α) (a : α) :
    outputs next out s (l ++ [a]) = outputs next out s l ++ out (l.foldl next s) a := by
  induction l generalizing s with
  | nil => simp [outputs]
  | cons b l ih => simp [outputs, ih]

/-- A part of the system that moves by some of the operations only, as a deterministic machine:
what is seen of it in a run is what the machine puts out. -/
theorem System.Run.outputs {δ : Type} {M : System σ α ε} {s t : σ} {tr : List (Event σ α ε)}
    {view : σ → ν} {act? : α → Option β} {next : ν → β → ν} {out : ν → β → List δ}
    {obs : Event σ α ε → List δ} (h : M.Run s tr t)
    (step : ∀ {s op l t}, M.step s op l t → view t = (act? op).elim (view s) (next (view s)) ∧
      obs ⟨s, op, l⟩ = (act? op).elim [] (out (view s))) :
    view t = (tr.filterMap fun e => act? e.op).foldl next (view s) ∧
      tr.flatMap obs = Library.outputs next out (view s) (tr.filterMap fun e => act? e.op) := by
  induction h with
  | nil => exact ⟨rfl, rfl⟩
  | @snoc tr t op l u _ hstep ih =>
    obtain ⟨hview, hobs⟩ := step hstep
    cases hact : act? op with
    | none =>
      simp only [hact, Option.elim_none] at hview hobs
      simpa [hact, hview, hobs] using ih
    | some a =>
      simp only [hact, Option.elim_some] at hview hobs
      simp [hact, hview, hobs, ih.1, ih.2, outputs_concat]

/-- Some event satisfied `P`, which may look at what came before it, and none
since then satisfied `Q`. -/
def Since (P : List ν → ν → Prop) (Q : ν → Prop) (tr : List ν) : Prop :=
  ∃ pre e post, tr = pre ++ e :: post ∧ P pre e ∧ ∀ x ∈ post, ¬ Q x

@[simp] theorem since_nil (P : List ν → ν → Prop) (Q : ν → Prop) : ¬ Since P Q [] := by
  rintro ⟨pre, e, post, h, _⟩
  simp at h

theorem since_snoc (P : List ν → ν → Prop) (Q : ν → Prop) (tr : List ν) (e : ν) :
    Since P Q (tr ++ [e]) ↔ P tr e ∨ (¬ Q e ∧ Since P Q tr) := by
  constructor
  · rintro ⟨pre, x, post, h, hp, hq⟩
    rcases List.eq_nil_or_concat post with rfl | ⟨post, y, rfl⟩
    · obtain ⟨rfl, hx⟩ := List.append_inj' h rfl
      obtain rfl : e = x := by simpa using hx
      exact .inl hp
    · rw [List.concat_eq_append, ← List.cons_append, ← List.append_assoc] at h
      obtain ⟨rfl, hy⟩ := List.append_inj' h rfl
      obtain rfl : e = y := by simpa using hy
      exact .inr ⟨hq e (by simp), pre, x, post, rfl, hp, fun z hz => hq z (by simp [hz])⟩
  · rintro (hp | ⟨hq, pre, x, post, rfl, hp, hpost⟩)
    · exact ⟨tr, e, [], rfl, hp, by simp⟩
    · refine ⟨pre, x, post ++ [e], by simp, hp, fun z hz => ?_⟩
      rcases List.mem_append.mp hz with hz | hz
      · exact hpost z hz
      · rw [List.mem_singleton.mp hz]
        exact hq

/-- The last value that `f` finds, forgotten at every event that satisfies `q`. -/
def lastSince (f : ν → Option β) (q : ν → Bool) (tr : List ν) : Option β :=
  tr.foldl (fun acc e => if q e then none else (f e).or acc) none

theorem lastSince_snoc (f : ν → Option β) (q : ν → Bool) (tr : List ν) (e : ν) :
    lastSince f q (tr ++ [e]) = if q e then none else (f e).or (lastSince f q tr) := by
  simp [lastSince, List.foldl_append]

end QemuBoard.Library
