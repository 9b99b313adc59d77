import QemuBoard.Library.Program
import Mathlib.Algebra.Ring.Nat
import Mathlib.Data.Fin.Basic

namespace QemuBoard.Library.Relay

inductive Request (S : Signature) (n : Nat)
  | take (i : Fin n)
  | give (i : Fin n)
  | work (o : S.Op)

abbrev requests (S : Signature) (n : Nat) : Signature where
  Op := Request S n
  Res
    | .take _ | .give _ => Unit
    | .work o => S.Res o

variable {S : Signature} {n : Nat} {σ γ : Type}

def take (i : Fin n) : Prog (requests S n) Unit := Prog.request (S := requests S n) (.take i)

def give (i : Fin n) : Prog (requests S n) Unit := Prog.request (S := requests S n) (.give i)

def working : Signature.Hom S (requests S n) where
  op := .work
  res _ r := r

structure World (n : Nat) (σ : Type) where
  sem : Fin n → Bool
  shared : σ

/-- A semaphore is available or not; a take waits until it is. -/
def handle (step : σ → (o : S.Op) → S.Res o → σ → Prop) (w : World n σ) :
    (o : Request S n) → (requests S n).Res o → World n σ → Prop
  | .take i, _, w' => w.sem i = true ∧ w' = { w with sem := Function.update w.sem i false }
  | .give i, _, w' => w' = { w with sem := Function.update w.sem i true }
  | .work o, r, w' => ∃ s, step w.shared o r s ∧ w' = { w with shared := s }

section Trace

abbrev Trace (S : Signature) (n : Nat) (σ : Type) :=
  List (Event (Config (requests S n) (World n σ) (Fin n))
    (Label (requests S n) (Fin n) Empty) Empty)

def taken? : Label (requests S n) (Fin n) Empty → Option (Fin n)
  | .answer _ (.take j) _ => some j
  | _ => none

def Took (i : Fin n) : Label (requests S n) (Fin n) Empty → Prop
  | .answer j (.take _) _ => j = i
  | _ => False

def Gave (i : Fin n) : Label (requests S n) (Fin n) Empty → Prop
  | .answer j (.give _) _ => j = i
  | _ => False

def takes (tr : Trace S n σ) : List (Fin n) := tr.filterMap fun e => taken? e.op

def Between (tr : Trace S n σ) (i : Fin n) : Prop :=
  Since (fun _ e => Took i e.op) (fun e => Gave i e.op) tr

/-- What is remembered of the steps: at a take, and of the answer to work. -/
structure Notes (S : Signature) (n : Nat) (γ : Type) where
  take : Fin n → γ → γ
  work : (o : S.Op) → S.Res o → γ → γ

def Notes.add (notes : Notes S n γ) (g : γ) : Label (requests S n) (Fin n) Empty → γ
  | .answer _ (.take i) _ => notes.take i g
  | .answer _ (.work o) r => notes.work o r g
  | .answer _ (.give _) _ | .start _ _ | .env _ => g

def Notes.history (notes : Notes S n γ) (g : γ) (tr : Trace S n σ) : γ :=
  tr.foldl (fun g e => notes.add g e.op) g

theorem takes_snoc (tr : Trace S n σ) (c : Config (requests S n) (World n σ) (Fin n))
    (l : Label (requests S n) (Fin n) Empty) :
    takes (tr ++ [⟨c, l, []⟩]) = takes tr ++ (taken? l).toList := by
  rw [takes, List.filterMap_append]
  cases h : taken? l <;> simp [takes, h]

theorem between_snoc (tr : Trace S n σ) (c : Config (requests S n) (World n σ) (Fin n))
    (l : Label (requests S n) (Fin n) Empty) (i : Fin n) :
    Between (tr ++ [⟨c, l, []⟩]) i ↔ Took i l ∨ (¬ Gave i l ∧ Between tr i) :=
  since_snoc _ _ tr _

theorem history_snoc (notes : Notes S n γ) (g : γ) (tr : Trace S n σ)
    (c : Config (requests S n) (World n σ) (Fin n)) (l : Label (requests S n) (Fin n) Empty) :
    notes.history g (tr ++ [⟨c, l, []⟩]) = notes.add (notes.history g tr) l := by
  simp [Notes.history, List.foldl_append]

end Trace

variable [NeZero n]

def task (body : Fin n → Prog S Unit) (i : Fin n) : Prog (requests S n) Unit := do
  take i
  (body i).embed working
  give (i + 1)

def threads (step : σ → (o : S.Op) → S.Res o → σ → Prop) (body : Fin n → Prog S Unit) :
    Threads (requests S n) (World n σ) (Fin n) Empty where
  handle := handle step
  env _ _ _ := False
  menu i p := p = task body i

def turn (m : Nat) : Fin n := Fin.ofNat n m

theorem turn_succ (m : Nat) : (turn (m + 1) : Fin n) = turn m + 1 := by
  apply Fin.ext
  simp [turn, Fin.ofNat, Fin.val_add]

def noted (step : σ → (o : S.Op) → S.Res o → σ → Prop) (notes : Notes S n γ) (t : σ × γ) (o : S.Op)
    (r : S.Res o) (t' : σ × γ) : Prop :=
  step t.1 o r t'.1 ∧ t'.2 = notes.work o r t.2

variable {step : σ → (o : S.Op) → S.Res o → σ → Prop} {body : Fin n → Prog S Unit}
  {notes : Notes S n γ} {pre : S.Op → σ × γ → Prop} {Φ : Fin n → σ × γ → Prop}

def AtHead (body : Fin n → Prog S Unit) (c : Config (requests S n) (World n σ) (Fin n))
    (i : Fin n) : Prop :=
  c.prog i = .ret () ∨ c.prog i = task body i

variable (step body notes pre Φ) in
def Carries : Prop :=
  ∀ i s g, Φ i (s, g) →
    (body i).Wp pre (noted step notes) (fun _ => Φ (i + 1)) (s, notes.take i g)

section Step

variable (step body notes pre Φ) in
structure Free (g : γ) (tr : Trace S n σ) (c : Config (requests S n) (World n σ) (Fin n))
    (m : Nat) : Prop where
  order : takes tr = (List.range m).map turn
  sem : ∀ j, c.world.sem j = decide (j = turn m)
  head : ∀ j, AtHead body c j
  between : ∀ j, ¬ Between tr j
  holds : Φ (turn m) (c.world.shared, notes.history g tr)

variable (step body notes pre Φ) in
/-- No semaphore is available, and the task of turn `m` has `p` left to do. -/
structure Busy (g : γ) (tr : Trace S n σ) (c : Config (requests S n) (World n σ) (Fin n)) (m : Nat)
    (p : Prog S Unit) : Prop where
  order : takes tr = (List.range (m + 1)).map turn
  sem : ∀ j, c.world.sem j = false
  head : ∀ j, j ≠ turn m → AtHead body c j
  prog : c.prog (turn m) = p.embed working >>= fun _ => give (turn m + 1)
  between : ∀ j, Between tr j ↔ j = turn m
  holds : p.Wp pre (noted step notes) (fun _ => Φ (turn m + 1)) (c.world.shared, notes.history g tr)

variable {c : Config (requests S n) (World n σ) (Fin n)} {tr : Trace S n σ} {g : γ} {m : Nat}
  {p : Prog S Unit}

@[simps] def moved (c : Config (requests S n) (World n σ) (Fin n)) (w : World n σ) (i : Fin n)
    (p : Prog (requests S n) Unit) : Config (requests S n) (World n σ) (Fin n) :=
  ⟨w, Function.update c.prog i p⟩

theorem AtHead.moved_of_ne {i j : Fin n} (h : AtHead body c j) (hj : j ≠ i) (w : World n σ)
    (p : Prog (requests S n) Unit) : AtHead body (moved c w i p) j := by
  rw [AtHead, moved_prog, Function.update_of_ne hj]
  exact h

theorem AtHead.moved {i j : Fin n} (h : j ≠ i → AtHead body c j) {p : Prog (requests S n) Unit}
    (hp : p = .ret () ∨ p = task body i) (w : World n σ) :
    AtHead body (Relay.moved c w i p) j := by
  by_cases hj : j = i
  · subst hj
    rw [AtHead, moved_prog, Function.update_self]
    exact hp
  · exact (h hj).moved_of_ne hj w p

theorem Free.start (h : Free body notes Φ g tr c m) (i : Fin n) :
    Free body notes Φ g (tr ++ [⟨c, .start i (task body i), []⟩])
      (moved c c.world i (task body i)) m where
  order := by simpa [takes_snoc, taken?] using h.order
  sem := h.sem
  head j := AtHead.moved (fun _ => h.head j) (.inr rfl) _
  between j := by simpa [between_snoc, Took, Gave] using h.between j
  holds := by
    rw [history_snoc]
    exact h.holds

theorem Free.take (hΦ : Carries step body notes pre Φ) (h : Free body notes Φ g tr c m) :
    Busy step body notes pre Φ g (tr ++ [⟨c, .answer (turn m) (.take (turn m)) (), []⟩])
      (moved c { c.world with sem := Function.update c.world.sem (turn m) false } (turn m)
        ((body (turn m)).embed working >>= fun _ => give (turn m + 1))) m (body (turn m)) where
  order := by simp [takes_snoc, taken?, h.order, List.range_succ]
  sem j := by
    by_cases hj : j = turn m
    · simp [hj]
    · simp [hj, h.sem]
  head j hj := (h.head j).moved_of_ne hj _ _
  prog := by rw [moved_prog, Function.update_self]
  between j := by simp [between_snoc, Took, Gave, h.between j, eq_comm]
  holds := by
    rw [history_snoc]
    exact hΦ _ _ _ h.holds

theorem Busy.start {i : Fin n} (h : Busy step body notes pre Φ g tr c m p)
    (hi : c.prog i = .ret ()) :
    Busy step body notes pre Φ g (tr ++ [⟨c, .start i (task body i), []⟩])
      (moved c c.world i (task body i)) m p where
  order := by simpa [takes_snoc, taken?] using h.order
  sem := h.sem
  head j hj := AtHead.moved (fun _ => h.head j hj) (.inr rfl) _
  prog := by
    have hne : turn m ≠ i := by
      rintro rfl
      have hp := h.prog.symm.trans hi
      cases p <;> cases hp
    rw [moved_prog, Function.update_of_ne hne]
    exact h.prog
  between j := by simpa [between_snoc, Took, Gave] using h.between j
  holds := by
    rw [history_snoc]
    exact h.holds

theorem Busy.passOn {a : Unit} (h : Busy step body notes pre Φ g tr c m (.ret a)) :
    Free body notes Φ g (tr ++ [⟨c, .answer (turn m) (.give (turn m + 1)) (), []⟩])
      (moved c { c.world with sem := Function.update c.world.sem (turn m + 1) true } (turn m)
        (.ret ())) (m + 1) where
  order := by simpa [takes_snoc, taken?] using h.order
  sem j := by
    rw [turn_succ]
    by_cases hj : j = turn m + 1
    · simp [hj]
    · simp [hj, h.sem]
  head j := AtHead.moved (h.head j) (.inl rfl) _
  between j := by simp [between_snoc, Took, Gave, h.between j, eq_comm]
  holds := by
    rw [turn_succ, history_snoc]
    exact h.holds

theorem Busy.work {o : S.Op} {r : S.Res o} {s : σ} {q : Prog S Unit}
    (h : Busy step body notes pre Φ g tr c m p)
    (hq : q.Wp pre (noted step notes) (fun _ => Φ (turn m + 1))
      (s, notes.work o r (notes.history g tr))) :
    Busy step body notes pre Φ g (tr ++ [⟨c, .answer (turn m) (.work o) r, []⟩])
      (moved c { c.world with shared := s } (turn m)
        (q.embed working >>= fun _ => give (turn m + 1))) m q where
  order := by simpa [takes_snoc, taken?] using h.order
  sem := h.sem
  head j hj := (h.head j hj).moved_of_ne hj _ _
  prog := by rw [moved_prog, Function.update_self]
  between j := by simpa [between_snoc, Took, Gave] using h.between j
  holds := by
    rw [history_snoc]
    exact hq

theorem AtHead.next? {i : Fin n} {q : Prog (requests S n) Unit} (h : AtHead body c i)
    (hq : c.prog i = q) {o : Request S n} (ho : q.next? = some o) :
    o = .take i ∧ q = .call (.take i) fun _ => (body i).embed working >>= fun _ =>
      give (i + 1) := by
  rcases h with h | h
  · rw [← hq, h] at ho
    cases ho
  · obtain rfl := hq.symm.trans h
    exact ⟨(Option.some.inj ho).symm, rfl⟩

variable (step body notes pre Φ) in
def InTurn (g : γ) (tr : Trace S n σ) (c : Config (requests S n) (World n σ) (Fin n)) : Prop :=
  (∃ m, Free body notes Φ g tr c m) ∨ ∃ m p, Busy step body notes pre Φ g tr c m p

theorem Free.inTurn {c' : Config (requests S n) (World n σ) (Fin n)}
    {l : Label (requests S n) (Fin n) Empty} (hΦ : Carries step body notes pre Φ)
    (h : Free body notes Φ g tr c m) (hstep : (threads step body).Step c l c') :
    InTurn step body notes pre Φ g (tr ++ [⟨c, l, []⟩]) c' := by
  cases hstep with
  | start hi hp =>
    obtain rfl := hp
    exact .inl ⟨m, h.start _⟩
  | @call i o r w k hi hw =>
    obtain ⟨rfl, hcall⟩ := (h.head i).next? hi rfl
    obtain ⟨hsem, rfl⟩ := hw
    obtain rfl : i = turn m := by simpa [hsem] using (h.sem i).symm
    cases hcall
    exact .inr ⟨m, _, h.take hΦ⟩
  | pass hi | again hi =>
    obtain ⟨rfl, hpoll⟩ := (h.head _).next? hi rfl
    cases hpoll
  | env hw => exact hw.elim

theorem Busy.inTurn {c' : Config (requests S n) (World n σ) (Fin n)}
    {l : Label (requests S n) (Fin n) Empty} (h : Busy step body notes pre Φ g tr c m p)
    (hstep : (threads step body).Step c l c') :
    InTurn step body notes pre Φ g (tr ++ [⟨c, l, []⟩]) c' := by
  -- every other task waits for a semaphore that nobody has given
  have hwho : ∀ {i q} {o : Request S n} {r : (requests S n).Res o} {w}, c.prog i = q →
      q.next? = some o → handle step c.world o r w → i = turn m := by
    intro i q o r w hq ho hw
    by_contra hi
    obtain ⟨rfl, -⟩ := (h.head i hi).next? hq ho
    exact absurd (hw.1.symm.trans (h.sem i)) (by decide)
  cases hstep with
  | start hi hp =>
    obtain rfl := hp
    exact .inr ⟨m, p, h.start hi⟩
  | @call i o r w k hi hw =>
    obtain rfl := hwho hi rfl hw
    have hp := h.prog.symm.trans hi
    cases p with
    | ret a =>
      cases hp
      obtain rfl := hw
      exact .inl ⟨m + 1, h.passOn⟩
    | call o k =>
      cases hp
      obtain ⟨s, hs, rfl⟩ := hw
      exact .inr ⟨m, k r, h.work (h.holds.2 r _ ⟨hs, rfl⟩)⟩
    | poll o q k => cases hp
  | @pass i o r w q k hi hw hpass =>
    obtain rfl := hwho hi rfl hw
    have hp := h.prog.symm.trans hi
    cases p with
    | ret a | call o k => cases hp
    | poll o q k =>
      cases hp
      obtain ⟨s, hs, rfl⟩ := hw
      exact .inr ⟨m, k r, h.work (h.holds.2 r _ ⟨hs, rfl⟩).2⟩
  | @again i o r w q k hi hw hfail =>
    obtain rfl := hwho hi rfl hw
    have hp := h.prog.symm.trans hi
    cases p with
    | ret a | call o k => cases hp
    | poll o q k =>
      cases hp
      obtain ⟨s, hs, rfl⟩ := hw
      exact absurd ((h.holds.2 r (s, notes.work o r _) ⟨hs, rfl⟩).1.symm.trans hfail) (by decide)
  | env hw => exact hw.elim

theorem InTurn.next {c' : Config (requests S n) (World n σ) (Fin n)}
    {l : Label (requests S n) (Fin n) Empty} (hΦ : Carries step body notes pre Φ)
    (h : InTurn step body notes pre Φ g tr c) (hstep : (threads step body).Step c l c') :
    InTurn step body notes pre Φ g (tr ++ [⟨c, l, []⟩]) c' := by
  rcases h with ⟨m, h⟩ | ⟨m, p, h⟩
  · exact h.inTurn hΦ hstep
  · exact h.inTurn hstep

theorem inTurn_of_run (hΦ : Carries step body notes pre Φ) {s : σ} (hs : Φ 0 (s, g))
    (h : (threads step body).system.Run (Config.idle ⟨fun j => decide (j = 0), s⟩) tr c) :
    InTurn step body notes pre Φ g tr c := by
  induction h with
  | nil =>
    have hzero : (turn 0 : Fin n) = 0 := rfl
    exact .inl ⟨0,
      { order := rfl
        sem := fun j => by rw [hzero]; rfl
        head := fun j => .inl rfl
        between := fun j => since_nil _ _
        holds := hs }⟩
  | snoc _ hstep ih =>
    obtain ⟨rfl, hstep⟩ := hstep
    exact ih.next hΦ hstep

end Step

namespace InTurn

variable {c : Config (requests S n) (World n σ) (Fin n)} {tr : Trace S n σ} {g : γ}

theorem exclusive (h : InTurn step body notes pre Φ g tr c) :
    (∃ i, (∀ j, c.world.sem j = decide (j = i)) ∧ ∀ j, ¬ Between tr j) ∨
      ((∀ j, c.world.sem j = false) ∧ ∃ i, ∀ j, Between tr j ↔ j = i) := by
  rcases h with ⟨m, h⟩ | ⟨m, p, h⟩
  · exact .inl ⟨turn m, h.sem, h.between⟩
  · exact .inr ⟨h.sem, turn m, h.between⟩

theorem order (h : InTurn step body notes pre Φ g tr c) :
    takes tr = (List.range (takes tr).length).map turn := by
  rcases h with ⟨m, h⟩ | ⟨m, p, h⟩ <;> simp [h.order]

theorem between_unique (h : InTurn step body notes pre Φ g tr c) {i j : Fin n}
    (hi : Between tr i) (hj : Between tr j) : i = j := by
  rcases h.exclusive with ⟨-, -, hnone⟩ | ⟨-, k, hk⟩
  · exact absurd hi (hnone i)
  · exact ((hk i).mp hi).trans ((hk j).mp hj).symm

theorem order_of_between (h : InTurn step body notes pre Φ g tr c) {i : Fin n}
    (hi : Between tr i) : ∃ m, i = turn m ∧ takes tr = (List.range (m + 1)).map turn := by
  rcases h with ⟨m, h⟩ | ⟨m, p, h⟩
  · exact absurd hi (h.between i)
  · exact ⟨m, (h.between i).mp hi, h.order⟩

theorem always (h : InTurn step body notes pre Φ g tr c) {J : σ × γ → Prop}
    (hΦ : ∀ i t, Φ i t → J t) (hpre : ∀ o t, pre o t → J t) :
    J (c.world.shared, notes.history g tr) := by
  rcases h with ⟨m, h⟩ | ⟨m, p, h⟩
  · exact hΦ _ _ h.holds
  · cases p with
    | ret a => exact hΦ _ _ h.holds
    | call o k => exact hpre _ _ h.holds.1
    | poll o q k => exact hpre _ _ h.holds.1

theorem request (h : InTurn step body notes pre Φ g tr c) {i : Fin n} {o : Request S n}
    (hi : (c.prog i).next? = some o) (ho : o ≠ .take i) :
    Between tr i ∧ (∀ j, c.world.sem j = false) ∧
      ∀ o', o = .work o' → pre o' (c.world.shared, notes.history g tr) := by
  rcases h with ⟨m, h⟩ | ⟨m, p, h⟩
  · exact absurd ((h.head i).next? rfl hi).1 ho
  · obtain rfl : i = turn m := by
      by_contra hne
      exact ho ((h.head i hne).next? rfl hi).1
    refine ⟨(h.between _).mpr rfl, h.sem, ?_⟩
    rintro o' rfl
    rw [h.prog] at hi
    cases p with
    | ret a => cases hi
    | call o k =>
      cases hi
      exact h.holds.1
    | poll o q k =>
      cases hi
      exact h.holds.1

end InTurn

section Progress

theorem run_turn (body : Fin n → Prog S Unit) (m : Nat) {s s' : σ}
    (h : Exec step (body (turn m)) s () s') :
    ∃ tr, (threads step body).system.Run (Config.idle ⟨fun j => decide (j = turn m), s⟩) tr
      (Config.idle ⟨fun j => decide (j = turn (m + 1)), s'⟩) := by
  have hsem :
      Function.update (Function.update (fun j : Fin n => decide (j = turn m)) (turn m) false)
        (turn m + 1) true = fun j => decide (j = turn (m + 1)) := by
    funext j
    rw [turn_succ, Function.update_apply, Function.update_apply]
    by_cases hj : j = turn m + 1
    · simp [hj]
    · by_cases hm : j = turn m <;> simp [hj, hm]
  have hbody : ∀ sem : Fin n → Bool,
      Exec (handle step) ((body (turn m)).embed working) ⟨sem, s⟩ () ⟨sem, s'⟩ := by
    intro sem
    exact h.embed working (World.mk sem) (fun hw => ⟨_, hw, rfl⟩) fun _ => Function.surjective_id
  have htask : Exec (handle step) (task body (turn m)) ⟨fun j => decide (j = turn m), s⟩ ()
      ⟨fun j => decide (j = turn (m + 1)), s'⟩ := by
    rw [← hsem]
    refine .call (r := ()) ⟨decide_eq_true rfl, rfl⟩ ((hbody _).bind ?_)
    exact .call (r := ()) rfl .ret
  exact Threads.run_of_menu (turn m) _ rfl rfl htask

end Progress

end QemuBoard.Library.Relay
