import Mathlib.Data.List.Basic
import Mathlib.Logic.Function.Basic

namespace QemuBoard.Library

/-- A callback of an emulated device: a step on the state that may abort the emulator, and that
logs what it did to the outside. -/
def Action (σ ε α : Type) : Type := σ → Option (α × σ × List ε)

namespace Action

variable {σ τ ε α β γ : Type}

def after (l : List ε) : Option (α × σ × List ε) → Option (α × σ × List ε)
  | none => none
  | some (a, s, l') => some (a, s, l ++ l')

@[simp] theorem after_none (l : List ε) : after l (none : Option (α × σ × List ε)) = none := rfl

@[simp] theorem after_some (l l' : List ε) (a : α) (s : σ) :
    after l (some (a, s, l')) = some (a, s, l ++ l') := rfl

@[simp] theorem after_nil (o : Option (α × σ × List ε)) : after [] o = o := by
  cases o <;> rfl

@[simp] theorem after_after (l l' : List ε) (o : Option (α × σ × List ε)) :
    after l (after l' o) = after (l ++ l') o := by
  cases o with
  | none => rfl
  | some r => simp [after]

def ret (a : α) : Action σ ε α := fun s => some (a, s, [])

def andThen (m : Action σ ε α) (f : α → Action σ ε β) : Action σ ε β := fun s =>
  match m s with
  | none => none
  | some (a, t, l) => after l (f a t)

instance : Monad (Action σ ε) where
  pure := ret
  bind := andThen

def abort : Action σ ε α := fun _ => none

def get : Action σ ε σ := fun s => some (s, s, [])

def modify (f : σ → σ) : Action σ ε Unit := fun s => some ((), f s, [])

def emit (e : ε) : Action σ ε Unit := fun s => some ((), s, [e])

@[simp] theorem pure_run (a : α) (s : σ) : (pure a : Action σ ε α) s = some (a, s, []) := rfl

@[simp] theorem get_run (s : σ) : (get : Action σ ε σ) s = some (s, s, []) := rfl

@[simp] theorem modify_run (f : σ → σ) (s : σ) :
    (modify f : Action σ ε Unit) s = some ((), f s, []) := rfl

@[simp] theorem emit_run (e : ε) (s : σ) : (emit e : Action σ ε Unit) s = some ((), s, [e]) := rfl

@[simp] theorem abort_run (s : σ) : (abort : Action σ ε α) s = none := rfl

theorem bind_run (m : Action σ ε α) (f : α → Action σ ε β) (s : σ) :
    (m >>= f) s = match m s with | none => none | some (a, t, l) => after l (f a t) := rfl

theorem bind_of_run {m : Action σ ε α} {s t : σ} {a : α} {l : List ε}
    (h : m s = some (a, t, l)) (f : α → Action σ ε β) : (m >>= f) s = after l (f a t) := by
  simp [bind_run, h]

theorem exists_of_bind {m : Action σ ε α} {f : α → Action σ ε β} {s u : σ} {b : β} {l : List ε}
    (h : (m >>= f) s = some (b, u, l)) :
    ∃ a t l₁ l₂, m s = some (a, t, l₁) ∧ f a t = some (b, u, l₂) ∧ l = l₁ ++ l₂ := by
  rw [bind_run] at h
  cases hm : m s with
  | none => simp [hm] at h
  | some r =>
    obtain ⟨a, t, l₁⟩ := r
    rw [hm] at h
    dsimp only at h
    cases hf : f a t with
    | none => simp [hf] at h
    | some r =>
      obtain ⟨b', u', l₂⟩ := r
      obtain ⟨rfl, rfl, rfl⟩ : b' = b ∧ u' = u ∧ l₁ ++ l₂ = l := by simpa [hf] using h
      exact ⟨a, t, l₁, l₂, rfl, hf, rfl⟩

theorem ret_bind (a : α) (f : α → Action σ ε β) : ((pure a : Action σ ε α) >>= f) = f a := by
  funext s
  rw [bind_of_run (pure_run a s), after_nil]

theorem bind_ret (m : Action σ ε α) : (m >>= pure) = m := by
  funext s
  rw [bind_run]
  cases m s with
  | none => rfl
  | some r => simp

theorem bind_assoc (m : Action σ ε α) (f : α → Action σ ε β) (g : β → Action σ ε γ) :
    (m >>= f) >>= g = m >>= fun a => f a >>= g := by
  funext s
  simp only [bind_run]
  cases m s with
  | none => rfl
  | some r =>
    obtain ⟨a, t, l⟩ := r
    dsimp only
    cases f a t with
    | none => rfl
    | some r =>
      obtain ⟨b, u, l'⟩ := r
      simp

@[simp] theorem ite_run (c : Prop) [Decidable c] (m n : Action σ ε α) (s : σ) :
    (if c then m else n : Action σ ε α) s = if c then m s else n s := by
  split <;> rfl

/-- An action of one component of a system, its log marked with the component. -/
def on {ι : Type} [DecidableEq ι] (i : ι) (m : Action τ ε α) : Action (ι → τ) (ι × ε) α := fun s =>
  match m (s i) with
  | none => none
  | some (a, t, l) => some (a, Function.update s i t, l.map (Prod.mk i))

theorem on_of_run {ι : Type} [DecidableEq ι] {i : ι} {m : Action τ ε α} {s : ι → τ} {a : α} {t : τ}
    {l : List ε} (h : m (s i) = some (a, t, l)) :
    on i m s = some (a, Function.update s i t, l.map (Prod.mk i)) := by
  simp [on, h]

theorem foldlM_on {ι : Type} [DecidableEq ι] {visit : β → ι → Action (ι → τ) (ι × ε) β}
    (p : ι → Bool) (result : β → τ → β) (next : τ → τ) (log : τ → List ε)
    (hskip : ∀ b i s, p i = false → visit b i s = some (b, s, []))
    (hact : ∀ b i s, p i = true → visit b i s =
      some (result b (s i), Function.update s i (next (s i)), (log (s i)).map (Prod.mk i)))
    {l : List ι} (hnd : l.Nodup) (b : β) (s : ι → τ) :
    l.foldlM visit b s =
      some ((l.filter p).foldl (fun b i => result b (s i)) b,
        fun j => if j ∈ l.filter p then next (s j) else s j,
        (l.filter p).flatMap fun j => (log (s j)).map (Prod.mk j)) := by
  induction l generalizing b s with
  | nil => simp
  | cons i l ih =>
    obtain ⟨hi, hnd⟩ := List.nodup_cons.mp hnd
    rw [List.foldlM_cons]
    cases hp : p i with
    | false =>
      rw [bind_of_run (hskip b i s hp), after_nil, ih hnd, List.filter_cons_of_neg (by simp [hp])]
    | true =>
      -- the components still to come are as they were before this one acted
      have hkeep : ∀ j ∈ l.filter p, Function.update s i (next (s i)) j = s j := by
        intro j hj
        have hne : j ≠ i := fun e => hi (e ▸ List.mem_of_mem_filter hj)
        rw [Function.update_of_ne hne]
      rw [bind_of_run (hact b i s hp), ih hnd, after_some, List.filter_cons_of_pos hp]
      have hresult : (l.filter p).foldl (fun b j => result b (Function.update s i (next (s i)) j))
          (result b (s i)) = (i :: l.filter p).foldl (fun b j => result b (s j)) b := by
        rw [List.foldl_cons]
        apply List.foldl_ext
        intro b j hj
        rw [hkeep j hj]
      have hnext : (fun j => if j ∈ l.filter p then next (Function.update s i (next (s i)) j)
          else Function.update s i (next (s i)) j) =
          fun j => if j ∈ i :: l.filter p then next (s j) else s j := by
        funext j
        by_cases hj : j ∈ l.filter p
        · rw [if_pos hj, if_pos (List.mem_cons_of_mem i hj), hkeep j hj]
        · rw [if_neg hj, Function.update_apply]
          by_cases hji : j = i
          · simp [hji]
          · simp [hji, hj]
      have hlog : ((l.filter p).flatMap fun j =>
          (log (Function.update s i (next (s i)) j)).map (Prod.mk j)) =
          (l.filter p).flatMap fun j => (log (s j)).map (Prod.mk j) := by
        apply List.flatMap_congr
        intro j hj
        rw [hkeep j hj]
      rw [hresult, hnext, hlog, List.flatMap_cons]

def eval (m : Action σ ε α) (s : σ) : Option (α × σ) := (m s).map fun r => (r.1, r.2.1)

theorem eval_of_run {m : Action σ ε α} {s t : σ} {a : α} {l : List ε} (h : m s = some (a, t, l)) :
    m.eval s = some (a, t) := by
  simp [eval, h]

theorem eval_bind (m : Action σ ε α) (f : α → Action σ ε β) (s : σ) :
    (m >>= f).eval s = (m.eval s).bind fun r => (f r.1).eval r.2 := by
  simp only [eval, bind_run]
  cases m s with
  | none => rfl
  | some r =>
    obtain ⟨a, t, l⟩ := r
    simp only [Option.map_some, Option.bind_some]
    cases f a t <;> rfl

def within (part : σ → τ) (put : τ → σ → σ) (m : Action τ ε α) : Action σ ε α := fun s =>
  match m (part s) with
  | none => none
  | some (a, t, l) => some (a, put t s, l)

theorem within_of_run {part : σ → τ} {put : τ → σ → σ} {m : Action τ ε α} {s : σ} {a : α} {t : τ}
    {l : List ε} (h : m (part s) = some (a, t, l)) :
    within part put m s = some (a, put t s, l) := by
  simp [within, h]

def Keeps (P : σ → Prop) (m : Action σ ε α) : Prop := ∀ ⦃s a t l⦄, m s = some (a, t, l) → P s → P t

theorem Keeps.pure {P : σ → Prop} (a : α) : Keeps P (pure a : Action σ ε α) := by
  intro s a' t l h hs
  cases h
  exact hs

theorem Keeps.bind {P : σ → Prop} {m : Action σ ε α} {f : α → Action σ ε β} (hm : Keeps P m)
    (hf : ∀ a, Keeps P (f a)) : Keeps P (m >>= f) := by
  intro s b u l h hs
  obtain ⟨a, t, l₁, l₂, hrun, hrest, -⟩ := exists_of_bind h
  exact hf a hrest (hm hrun hs)

theorem Keeps.ite {P : σ → Prop} {c : Prop} [Decidable c] {m n : Action σ ε α} (hm : Keeps P m)
    (hn : Keeps P n) : Keeps P (if c then m else n) := by
  split
  · exact hm
  · exact hn

theorem Keeps.foldlM {P : σ → Prop} {f : β → α → Action σ ε β} {xs : List α} (b : β)
    (hf : ∀ b, ∀ x ∈ xs, Keeps P (f b x)) : Keeps P (xs.foldlM f b) := by
  induction xs generalizing b with
  | nil => exact .pure b
  | cons x xs ih =>
    rw [List.foldlM_cons]
    exact (hf b x List.mem_cons_self).bind fun b => ih b fun b y hy =>
      hf b y (List.mem_cons_of_mem x hy)

theorem Keeps.forM {P : σ → Prop} {f : α → Action σ ε PUnit} {xs : List α}
    (hf : ∀ x ∈ xs, Keeps P (f x)) : Keeps P (xs.forM f) := by
  induction xs with
  | nil => exact .pure _
  | cons x xs ih =>
    exact (hf x List.mem_cons_self).bind fun _ => ih fun y hy => hf y (List.mem_cons_of_mem x hy)

/-- Two runs of actions agree: both abort, or they return the same and log the same in related
states. -/
inductive Agree (R : σ → τ → Prop) :
    Option (α × σ × List ε) → Option (α × τ × List ε) → Prop
  | abort : Agree R none none
  | done {a : α} {s : σ} {t : τ} {l : List ε} (h : R s t) :
    Agree R (some (a, s, l)) (some (a, t, l))

theorem Agree.after {R : σ → τ → Prop} {o : Option (α × σ × List ε)} {o' : Option (α × τ × List ε)}
    (h : Agree R o o') (l : List ε) : Agree R (Action.after l o) (Action.after l o') := by
  cases h with
  | abort => exact .abort
  | done h => exact .done h

theorem Agree.bind {R R' : σ → τ → Prop} {m : Action σ ε α} {m' : Action τ ε α} {s : σ} {t : τ}
    (h : Agree R (m s) (m' t)) {f : α → Action σ ε β} {f' : α → Action τ ε β}
    (hf : ∀ a s t, R s t → Agree R' (f a s) (f' a t)) : Agree R' ((m >>= f) s) ((m' >>= f') t) := by
  rw [bind_run, bind_run]
  generalize m s = o at h ⊢
  generalize m' t = o' at h ⊢
  cases h with
  | abort => exact .abort
  | done h => exact (hf _ _ _ h).after _

end Action

end QemuBoard.Library
