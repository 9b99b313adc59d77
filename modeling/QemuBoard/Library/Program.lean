import QemuBoard.Library.Trace

namespace QemuBoard.Library

structure Signature where
  Op : Type
  Res : Op → Type

structure Signature.Hom (S T : Signature) where
  op : S.Op → T.Op
  res : ∀ o, T.Res (op o) → S.Res o

variable {S T : Signature} {σ τ ι ε α β : Type}

/-- `poll o p k` repeats the request `o` until its answer passes `p`. -/
inductive Prog (S : Signature) (α : Type) : Type
  | ret (a : α)
  | call (o : S.Op) (k : S.Res o → Prog S α)
  | poll (o : S.Op) (p : S.Res o → Bool) (k : S.Res o → Prog S α)

namespace Prog

def andThen (f : α → Prog S β) : Prog S α → Prog S β
  | .ret a => f a
  | .call o k => .call o fun r => andThen f (k r)
  | .poll o p k => .poll o p fun r => andThen f (k r)

instance : Monad (Prog S) where
  pure := .ret
  bind p f := p.andThen f

def request (o : S.Op) : Prog S (S.Res o) := .call o .ret

def await (o : S.Op) (p : S.Res o → Bool) : Prog S (S.Res o) := .poll o p .ret

@[simp] theorem pure_eq (a : α) : (pure a : Prog S α) = .ret a := rfl

@[simp] theorem ret_bind (a : α) (f : α → Prog S β) : (Prog.ret a >>= f) = f a := rfl

@[simp] theorem call_bind (o : S.Op) (k : S.Res o → Prog S α) (f : α → Prog S β) :
    (Prog.call o k >>= f) = .call o fun r => k r >>= f := rfl

@[simp] theorem poll_bind (o : S.Op) (p : S.Res o → Bool) (k : S.Res o → Prog S α)
    (f : α → Prog S β) : (Prog.poll o p k >>= f) = .poll o p fun r => k r >>= f := rfl

theorem bind_ret (p : Prog S α) : (p >>= fun a => .ret a) = p := by
  induction p with
  | ret a => rfl
  | call o k ih =>
    rw [call_bind]
    exact congrArg (Prog.call o) (funext ih)
  | poll o q k ih =>
    rw [poll_bind]
    exact congrArg (Prog.poll o q) (funext ih)

/-- The program as one action. A busy-wait that fails once would go on for ever, since
nobody else acts. -/
def run (act : (o : S.Op) → Action σ ε (S.Res o)) : Prog S α → Action σ ε α
  | .ret a => pure a
  | .call o k => do
    let r ← act o
    run act (k r)
  | .poll o p k => do
    let r ← act o
    if p r then run act (k r) else Action.abort

theorem run_call {act : (o : S.Op) → Action σ ε (S.Res o)} {o : S.Op} {k : S.Res o → Prog S α}
    {s t : σ} {r : S.Res o} {l : List ε} (h : act o s = some (r, t, l)) :
    (Prog.call o k).run act s = Action.after l ((k r).run act t) := by
  rw [run, Action.bind_of_run h]

def forBelow (cap : Nat) (f : Fin cap → α → Prog S α) : Nat → α → Prog S α
  | 0, a => .ret a
  | n + 1, a => do
    let b ← forBelow cap f n a
    if h : n < cap then f ⟨n, h⟩ b else .ret b

theorem run_bind (act : (o : S.Op) → Action σ ε (S.Res o)) (p : Prog S α) (f : α → Prog S β) :
    (p >>= f).run act = p.run act >>= fun a => (f a).run act := by
  induction p with
  | ret a =>
    funext s
    simp [run, Action.bind_run]
  | call o k ih =>
    simp only [call_bind, run, Action.bind_assoc, ih]
  | poll o p k ih =>
    simp only [poll_bind, run, Action.bind_assoc, ih]
    congr 1
    funext r s
    split <;> rfl

def recording (act : (o : S.Op) → Action σ ε (S.Res o)) (o : S.Op) : Action σ S.Op (S.Res o) :=
  fun s => (act o s).map fun r => (r.1, r.2.1, [o])

def Guards (pre : S.Op → Prop) (res : ∀ o, S.Res o → Prop) : Prog S α → Prop
  | .ret _ => True
  | .call o k => pre o ∧ ∀ r, res o r → (k r).Guards pre res
  | .poll o p k => pre o ∧ ∀ r, res o r → p r = true → (k r).Guards pre res

theorem Guards.bind {pre : S.Op → Prop} {res : ∀ o, S.Res o → Prop} {p : Prog S α}
    {f : α → Prog S β} (hp : p.Guards pre res) (hf : ∀ a, (f a).Guards pre res) :
    (p >>= f).Guards pre res := by
  induction p with
  | ret a => exact hf a
  | call o k ih => exact ⟨hp.1, fun r hr => ih r (hp.2 r hr)⟩
  | poll o p k ih => exact ⟨hp.1, fun r hr hpass => ih r (hp.2 r hr hpass)⟩

theorem Guards.forBelow {pre : S.Op → Prop} {res : ∀ o, S.Res o → Prop} {cap : Nat}
    {f : Fin cap → α → Prog S α} (hf : ∀ i a, (f i a).Guards pre res) (n : Nat) (a : α) :
    (Prog.forBelow cap f n a).Guards pre res := by
  induction n with
  | zero => trivial
  | succ n ih =>
    refine ih.bind fun b => ?_
    split
    · exact hf _ b
    · trivial

def embed (h : Signature.Hom S T) : Prog S α → Prog T α
  | .ret a => .ret a
  | .call o k => .call (h.op o) fun r => (k (h.res o r)).embed h
  | .poll o p k => .poll (h.op o) (fun r => p (h.res o r)) fun r => (k (h.res o r)).embed h

theorem Guards.embed {pre : S.Op → Prop} {res : ∀ o, S.Res o → Prop} {pre' : T.Op → Prop}
    {res' : ∀ o, T.Res o → Prop} (h : Signature.Hom S T) (hpre : ∀ o, pre o → pre' (h.op o))
    (hres : ∀ o r, res' (h.op o) r → res o (h.res o r)) {p : Prog S α} (hp : p.Guards pre res) :
    (p.embed h).Guards pre' res' := by
  induction p with
  | ret a => trivial
  | call o k ih => exact ⟨hpre o hp.1, fun r hr => ih _ (hp.2 _ (hres o r hr))⟩
  | poll o q k ih =>
    exact ⟨hpre o hp.1, fun r hr hpass => ih _ (hp.2 _ (hres o r hr) hpass)⟩

def next? : Prog S α → Option S.Op
  | .ret _ => none
  | .call o _ => some o
  | .poll o _ _ => some o

/-- Alone in its world, the program makes each request where `pre` holds, never waits, and ends
where `post` holds. -/
def Wp (pre : S.Op → τ → Prop) (step : τ → (o : S.Op) → S.Res o → τ → Prop) (post : α → τ → Prop) :
    Prog S α → τ → Prop
  | .ret a, t => post a t
  | .call o k, t => pre o t ∧ ∀ r t', step t o r t' → (k r).Wp pre step post t'
  | .poll o p k, t => pre o t ∧ ∀ r t', step t o r t' → p r = true ∧ (k r).Wp pre step post t'

section Wp

variable {pre : S.Op → τ → Prop} {step : τ → (o : S.Op) → S.Res o → τ → Prop}

theorem Wp.bind {post : β → τ → Prop} {p : Prog S α} {f : α → Prog S β} {t : τ}
    (h : p.Wp pre step (fun a => (f a).Wp pre step post) t) : (p >>= f).Wp pre step post t := by
  induction p generalizing t with
  | ret a => exact h
  | call o k ih => exact ⟨h.1, fun r t' ht => ih r (h.2 r t' ht)⟩
  | poll o q k ih => exact ⟨h.1, fun r t' ht => ⟨(h.2 r t' ht).1, ih r (h.2 r t' ht).2⟩⟩

theorem Wp.mono {post post' : α → τ → Prop} {p : Prog S α} {t : τ} (h : p.Wp pre step post t)
    (hpost : ∀ a t, post a t → post' a t) : p.Wp pre step post' t := by
  induction p generalizing t with
  | ret a => exact hpost a t h
  | call o k ih => exact ⟨h.1, fun r t' ht => ih r (h.2 r t' ht)⟩
  | poll o q k ih => exact ⟨h.1, fun r t' ht => ⟨(h.2 r t' ht).1, ih r (h.2 r t' ht).2⟩⟩

theorem Wp.forBelow {cap : Nat} {f : Fin cap → α → Prog S α} (I : Nat → α → τ → Prop)
    (hf : ∀ (i : Fin cap) a t, I i a t → (f i a).Wp pre step (I (i + 1)) t) {n : Nat}
    (hn : n ≤ cap) {a : α}
    {t : τ} (h : I 0 a t) : (Prog.forBelow cap f n a).Wp pre step (I n) t := by
  induction n with
  | zero => exact h
  | succ n ih =>
    refine ((ih (by omega)).mono fun b t hb => ?_).bind
    rw [dif_pos (Nat.lt_of_succ_le hn)]
    exact hf ⟨n, hn⟩ b t hb

theorem Wp.embed {pre' : T.Op → τ → Prop} {step' : τ → (o : T.Op) → T.Res o → τ → Prop}
    {post : α → τ → Prop} (h : Signature.Hom S T) (hpre : ∀ o t, pre o t → pre' (h.op o) t)
    (hstep : ∀ t o r t', step' t (h.op o) r t' → step t o (h.res o r) t') {p : Prog S α} {t : τ}
    (hp : p.Wp pre step post t) : (p.embed h).Wp pre' step' post t := by
  induction p generalizing t with
  | ret a => exact hp
  | call o k ih =>
    exact ⟨hpre o t hp.1, fun r t' ht => ih _ (hp.2 _ t' (hstep t o r t' ht))⟩
  | poll o q k ih =>
    refine ⟨hpre o t hp.1, fun r t' ht => ?_⟩
    obtain ⟨hq, hk⟩ := hp.2 _ t' (hstep t o r t' ht)
    exact ⟨hq, ih _ hk⟩

end Wp

end Prog

def Answers (handle : σ → (o : S.Op) → S.Res o → σ → Prop) (p : Prog S α) (w : σ) (q : Prog S α)
    (w' : σ) : Prop :=
  ∃ o k r, p = .call o k ∧ handle w o r w' ∧ q = k r

inductive Exec (handle : σ → (o : S.Op) → S.Res o → σ → Prop) : Prog S α → σ → α → σ → Prop
  | ret {a w} : Exec handle (.ret a) w a w
  | call {o k r a w w' w''} : handle w o r w' → Exec handle (k r) w' a w'' →
      Exec handle (.call o k) w a w''
  | pass {o p k r a w w' w''} : handle w o r w' → p r = true → Exec handle (k r) w' a w'' →
      Exec handle (.poll o p k) w a w''
  | again {o p k r a w w' w''} : handle w o r w' → p r = false →
      Exec handle (.poll o p k) w' a w'' → Exec handle (.poll o p k) w a w''

namespace Exec

variable {handle : σ → (o : S.Op) → S.Res o → σ → Prop} {w w' w'' : σ} {a : α} {b : β}

theorem bind {p : Prog S α} {f : α → Prog S β} (hp : Exec handle p w a w')
    (hf : Exec handle (f a) w' b w'') : Exec handle (p >>= f) w b w'' := by
  induction hp with
  | ret => exact hf
  | call hw _ ih => exact .call hw (ih hf)
  | pass hw hpass _ ih => exact .pass hw hpass (ih hf)
  | again hw hfail _ ih => exact .again hw hfail (ih hf)

theorem embed {handle' : τ → (o : T.Op) → T.Res o → τ → Prop} (h : Signature.Hom S T) (lift : σ → τ)
    (hh : ∀ {w o r w'}, handle w o (h.res o r) w' → handle' (lift w) (h.op o) r (lift w'))
    (hres : ∀ o, Function.Surjective (h.res o)) {p : Prog S α} (hp : Exec handle p w a w') :
    Exec handle' (p.embed h) (lift w) a (lift w') := by
  induction hp with
  | ret => exact .ret
  | @call o k r a w w' w'' hw _ ih =>
    obtain ⟨r, rfl⟩ := hres o r
    exact .call (hh hw) ih
  | @pass o p k r a w w' w'' hw hpass _ ih =>
    obtain ⟨r, rfl⟩ := hres o r
    exact .pass (hh hw) hpass ih
  | @again o p k r a w w' w'' hw hfail _ ih =>
    obtain ⟨r, rfl⟩ := hres o r
    exact .again (hh hw) hfail ih

theorem forBelow {cap : Nat} {f : Fin cap → α → Prog S α} (a : Nat → α) (w : Nat → σ)
    (hf : ∀ i : Fin cap, Exec handle (f i (a i)) (w i) (a (i + 1)) (w (i + 1))) {n : Nat}
    (hn : n ≤ cap) : Exec handle (Prog.forBelow cap f n (a 0)) (w 0) (a n) (w n) := by
  induction n with
  | zero => exact .ret
  | succ n ih =>
    refine (ih (by omega)).bind ?_
    rw [dif_pos (Nat.lt_of_succ_le hn)]
    exact hf ⟨n, hn⟩

end Exec

/-- Threads that run programs of their menu one after the other, and an environment that
acts on the world between any two requests. -/
structure Threads (S : Signature) (σ ι ε : Type) where
  handle : σ → (o : S.Op) → S.Res o → σ → Prop
  env : σ → ε → σ → Prop
  menu : ι → Prog S Unit → Prop

structure Config (S : Signature) (σ ι : Type) where
  world : σ
  prog : ι → Prog S Unit

def Config.idle (w : σ) : Config S σ ι := ⟨w, fun _ => .ret ()⟩

inductive Label (S : Signature) (ι ε : Type)
  | start (i : ι) (p : Prog S Unit)
  | answer (i : ι) (o : S.Op) (r : S.Res o)
  | env (e : ε)

def Label.IsEnv : Label S ι ε → Prop
  | .env _ => True
  | .start _ _ | .answer _ _ _ => False

namespace Threads

variable [DecidableEq ι]

inductive Step (M : Threads S σ ι ε) : Config S σ ι → Label S ι ε → Config S σ ι → Prop
  | start {c i p} : c.prog i = .ret () → M.menu i p →
      Step M c (.start i p) ⟨c.world, Function.update c.prog i p⟩
  | call {c i o r w k} : c.prog i = .call o k → M.handle c.world o r w →
      Step M c (.answer i o r) ⟨w, Function.update c.prog i (k r)⟩
  | pass {c i o r w p k} : c.prog i = .poll o p k → M.handle c.world o r w → p r = true →
      Step M c (.answer i o r) ⟨w, Function.update c.prog i (k r)⟩
  | again {c i o r w p k} : c.prog i = .poll o p k → M.handle c.world o r w → p r = false →
      Step M c (.answer i o r) ⟨w, c.prog⟩
  | env {c e w} : M.env c.world e w → Step M c (.env e) ⟨w, c.prog⟩

def system (M : Threads S σ ι ε) : System (Config S σ ι) (Label S ι ε) Empty where
  step c l out c' := out = [] ∧ M.Step c l c'

theorem run_of_exec {M : Threads S σ ι ε} {p : Prog S Unit} {w w' : σ} {i : ι}
    (h : Exec M.handle p w () w') (prog : ι → Prog S Unit) :
    ∃ tr, M.system.Run ⟨w, Function.update prog i p⟩ tr ⟨w', Function.update prog i (.ret ())⟩ := by
  generalize ha : () = a at h
  induction h with
  | ret => exact ⟨_, .nil⟩
  | @call o k r a w w' w'' hw _ ih =>
    obtain ⟨tr, hrun⟩ := ih ha
    have hstep : M.Step ⟨w, Function.update prog i (.call o k)⟩ (.answer i o r) _ :=
      .call (Function.update_self i _ prog) hw
    rw [Function.update_idem] at hstep
    exact ⟨_, .cons ⟨rfl, hstep⟩ hrun⟩
  | @pass o p k r a w w' w'' hw hpass _ ih =>
    obtain ⟨tr, hrun⟩ := ih ha
    have hstep : M.Step ⟨w, Function.update prog i (.poll o p k)⟩ (.answer i o r) _ :=
      .pass (Function.update_self i _ prog) hw hpass
    rw [Function.update_idem] at hstep
    exact ⟨_, .cons ⟨rfl, hstep⟩ hrun⟩
  | again hw hfail _ ih =>
    obtain ⟨tr, hrun⟩ := ih ha
    exact ⟨_, .cons ⟨rfl, .again (Function.update_self i _ prog) hw hfail⟩ hrun⟩

theorem run_of_menu {M : Threads S σ ι ε} {p : Prog S Unit} {w w' : σ} (i : ι)
    (prog : ι → Prog S Unit) (hi : prog i = .ret ()) (hm : M.menu i p)
    (h : Exec M.handle p w () w') : ∃ tr, M.system.Run ⟨w, prog⟩ tr ⟨w', prog⟩ := by
  obtain ⟨tr, hrun⟩ := run_of_exec (i := i) h prog
  rw [← hi, Function.update_eq_self] at hrun
  exact ⟨_, .cons ⟨rfl, .start hi hm⟩ hrun⟩

theorem forall_update {P : Prog S Unit → Prop} {prog : ι → Prog S Unit} {i : ι} {p : Prog S Unit}
    (h : ∀ j, P (prog j)) (hp : P p) (j : ι) : P (Function.update prog i p j) :=
  (Function.forall_update_iff prog fun _ => P).mpr ⟨hp, fun j _ => h j⟩ j

variable {M : Threads S σ ι ε} {I : σ → Prop} {pre : S.Op → Prop} {res : ∀ o, S.Res o → Prop}

/-- A world that every thread and the environment keep in order stays in order. -/
structure Keeps (M : Threads S σ ι ε) (I : σ → Prop) (pre : S.Op → Prop)
    (res : ∀ o, S.Res o → Prop) : Prop where
  menu : ∀ {i p}, M.menu i p → p.Guards pre res
  handle : ∀ {w o r w'}, I w → pre o → M.handle w o r w' → res o r ∧ I w'
  env : ∀ {w e w'}, I w → M.env w e w' → I w'

theorem Keeps.step {c c' : Config S σ ι} {l : Label S ι ε} (hM : M.Keeps I pre res)
    (h : M.Step c l c') (hI : I c.world) (hc : ∀ i, (c.prog i).Guards pre res) :
    I c'.world ∧ ∀ i, (c'.prog i).Guards pre res := by
  cases h with
  | start _ hp => exact ⟨hI, forall_update hc (hM.menu hp)⟩
  | @call i o r w k hi hw =>
    obtain ⟨hpre, hk⟩ : (Prog.call o k).Guards pre res := hi ▸ hc i
    obtain ⟨hr, hI'⟩ := hM.handle hI hpre hw
    exact ⟨hI', forall_update hc (hk r hr)⟩
  | @pass i o r w p k hi hw hpass =>
    obtain ⟨hpre, hk⟩ : (Prog.poll o p k).Guards pre res := hi ▸ hc i
    obtain ⟨hr, hI'⟩ := hM.handle hI hpre hw
    exact ⟨hI', forall_update hc (hk r hr hpass)⟩
  | @again i o r w p k hi hw _ =>
    obtain ⟨hpre, -⟩ : (Prog.poll o p k).Guards pre res := hi ▸ hc i
    exact ⟨(hM.handle hI hpre hw).2, hc⟩
  | env hw => exact ⟨hM.env hI hw, hc⟩

theorem Keeps.run {w : σ} {c : Config S σ ι} {tr : List (Event (Config S σ ι) (Label S ι ε) Empty)}
    (hM : M.Keeps I pre res) (hI : I w) (h : M.system.Run (Config.idle w) tr c) :
    I c.world ∧ ∀ i, (c.prog i).Guards pre res := by
  apply h.preserves (I := fun c => I c.world ∧ ∀ i, (c.prog i).Guards pre res)
  · exact ⟨hI, fun _ => trivial⟩
  · rintro c l out c' ⟨-, hstep⟩ ⟨hI, hc⟩
    exact hM.step hstep hI hc

theorem Keeps.answered {w : σ} {c : Config S σ ι}
    {tr : List (Event (Config S σ ι) (Label S ι ε) Empty)} (hM : M.Keeps I pre res) (hI : I w)
    (h : M.system.Run (Config.idle w) tr c) {e : Event (Config S σ ι) (Label S ι ε) Empty}
    (he : e ∈ tr) {i : ι} {o : S.Op} {r : S.Res o} (ho : e.op = .answer i o r) : pre o := by
  obtain ⟨⟨-, hguards⟩, c', -, hstep⟩ :=
    h.events (I := fun c => I c.world ∧ ∀ i, (c.prog i).Guards pre res) ⟨hI, fun _ => trivial⟩
      (fun hstep hc => hM.step hstep.2 hc.1 hc.2) he
  rw [ho] at hstep
  have hi := hguards i
  cases hstep with
  | call hp _ | pass hp _ _ | again hp _ _ =>
    rw [hp] at hi
    exact hi.1

end Threads

end QemuBoard.Library
