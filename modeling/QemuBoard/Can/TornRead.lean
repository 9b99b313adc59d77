import QemuBoard.Library.Rely
import QemuBoard.Can.Transfer

namespace QemuBoard.Can

open Library Driver

variable {B ι : Type}

inductive Reading (B : Type)
  | dlc
  | id
  | data (buf : B)

inductive Outcome (B : Type)
  | dlc (d : Int)
  | id (x : Word)
  | data (buf : B) (d : Int)

def Reading.prog (n : Fin 2) : Reading B → DriverM B (Outcome B)
  | .dlc => do
    let d ← canReadDlc n.val
    pure (.dlc d)
  | .id => do
    let x ← canReadId n.val
    pure (.id x)
  | .data buf => do
    let d ← canReadData n.val buf
    pure (.data buf d)

abbrev calls (B : Type) : Signature where
  Op := Access B ⊕ Outcome B
  Res
    | .inl o => (accesses B).Res o
    | .inr _ => Unit

def registers : Signature.Hom (accesses B) (calls B) where
  op := Sum.inl
  res _ r := r

def Reading.calling (n : Fin 2) (r : Reading B) : Prog (calls B) Unit := do
  let x ← (r.prog n).embed registers
  Prog.request (S := calls B) (.inr x)

structure Readout (B : Type) where
  board : World B
  outcomes : List (Outcome B)

section System

variable [DecidableEq B]

def Readout.access (w : Readout B) : (o : (calls B).Op) → (calls B).Res o → Readout B → Prop
  | .inl o, r, w' => (∃ out, Can.access o w.board = some (r, w'.board, out)) ∧
      w'.outcomes = w.outcomes
  | .inr x, _, w' => w' = { w with outcomes := w.outcomes ++ [x] }

/-- Contexts that read controller `n`, and operations on the network between their accesses. -/
def readers (ι : Type) (n : Fin 2) (may : Net (Fin 2) → Op (Fin 2) → Prop) :
    Threads (calls B) (Readout B) ι (Op (Fin 2)) where
  handle := Readout.access
  env w op w' := may w.board.net op ∧ w' = { w with board := w.board.step op }
  menu _ p := ∃ r : Reading B, p = r.calling n

end System

section Window

variable {κ : Type} [DecidableEq κ]

/-- No CMR write to `n` with RRB or CDO, and no reset of `n`. -/
def Op.InWindow (n : κ) : Op κ → Prop
  | .write d addr val =>
    d = n → Reg.ofAddr addr = some .cmr → has val Cmr.rrb = false ∧ has val Cmr.cdo = false
  | .reset d => d ≠ n
  | .read _ _ | .receive _ _ => True

def Op.Arrives (bus : CanBusState κ) (n : κ) (net : Net κ) (op : Op κ) : Prop :=
  ∃ frame, op.mailAct? bus net n = some (.arrive frame)

theorem Op.InWindow.mailbox {n : κ} {op : Op κ} (h : op.InWindow n) (bus : CanBusState κ)
    (net : Net κ) :
    op.Arrives bus n net ∨ (op.next bus net n).mailbox = (net n).mailbox := by
  rw [next_mailbox]
  by_cases hn : n = op.target
  · rw [Op.Arrives, Op.mailAct?, if_pos hn]
    cases op with
    | read d addr => exact .inr rfl
    | write d addr val =>
      rw [Op.ownAct?]
      split
      case isTrue hreg =>
        obtain ⟨hrrb, hcdo⟩ := h hn.symm hreg
        exact .inr (by simp [Mailbox.act, hrrb, hcdo, CanState.mailbox])
      case isFalse => exact .inr rfl
    | reset d => exact absurd hn.symm h
    | receive d frame => exact .inl ⟨frame, rfl⟩
  · rw [Op.Arrives, Op.mailAct?, if_neg hn]
    cases op.sent? net with
    | none => exact .inr (by simp [Mailbox.act])
    | some frame =>
      by_cases hp : n ∈ bus.peers op.target
      · exact .inl ⟨frame, by simp [hp]⟩
      · exact .inr (by simp [hp, Mailbox.act])

theorem Op.Arrives.mailbox {bus : CanBusState κ} {n : κ} {net : Net κ} {op : Op κ}
    (h : op.Arrives bus n net) (hfull : has (net n).sr Sr.rbs = true) :
    has (op.next bus net n).sr Sr.rbs = true ∧ has (op.next bus net n).sr Sr.dos = true := by
  obtain ⟨frame, hact⟩ := h
  have hmail := next_mailbox bus net op n
  rw [hact] at hmail
  have hrbs : has (op.next bus net n).sr Sr.rbs = _ := congrArg Mailbox.full hmail
  have hdos : has (op.next bus net n).sr Sr.dos = _ := congrArg Mailbox.overrun hmail
  rw [hrbs, hdos]
  simp [Mailbox.act, hfull]

def Op.Calm (bus : CanBusState κ) (n : κ) (net : Net κ) (op : Op κ) : Prop :=
  (op.next bus net n).mailbox = (net n).mailbox

end Window

section Guards

variable {n : Fin 2} {Q : Nat → Byte → Prop} {R : Nat → Word → Prop}

def Reads (n : Fin 2) (Q : Nat → Byte → Prop) : Access B → Prop
  | .read c addr => c = n ∧ addr ∈ [0x10, 0x14, 0x18, 0x1C]
  | .store _ i v => i < 8 ∧ Q i v
  | .write _ _ _ | .load _ _ => False

def Answered (R : Nat → Word → Prop) : (o : Access B) → (accesses B).Res o → Prop
  | .read _ addr, v => R addr v
  | .write _ _ _, _ | .load _ _, _ | .store _ _ _, _ => True

theorem answered_any (o : Access B) (r : (accesses B).Res o) : Answered (fun _ _ => True) o r := by
  cases o <;> trivial

theorem guards_readByte (hlow : ∀ i v, i < 4 → R 0x18 v → Q i (lane v i))
    (hhigh : ∀ i v, 4 ≤ i → R 0x1C v → Q i (lane v (i - 4))) (buf : B) (i : Fin 8) :
    (readByte n buf i ()).Guards (Reads n Q) (Answered R) := by
  unfold readByte
  split
  case isTrue hi =>
    refine ⟨⟨rfl, by decide⟩, fun v hv => ⟨⟨i.isLt, ?_⟩, fun _ _ => trivial⟩⟩
    rw [lane_mask]
    exact hlow i v hi hv
  case isFalse hi =>
    refine ⟨⟨rfl, by decide⟩, fun v hv => ⟨⟨i.isLt, ?_⟩, fun _ _ => trivial⟩⟩
    rw [lane_mask]
    exact hhigh i v (Nat.le_of_not_lt hi) hv

theorem guards_canReadData (hlow : ∀ i v, i < 4 → R 0x18 v → Q i (lane v i))
    (hhigh : ∀ i v, 4 ≤ i → R 0x1C v → Q i (lane v (i - 4))) (buf : B) :
    (canReadData n.val buf).Guards (Reads n Q) (Answered R) := by
  rw [canReadData, select_val]
  refine ⟨⟨rfl, by decide⟩, fun v _ => ?_⟩
  exact (Prog.Guards.forBelow (fun i _ => guards_readByte hlow hhigh buf i) _ _).bind
    fun _ => trivial

theorem guards_prog (hlow : ∀ i v, i < 4 → R 0x18 v → Q i (lane v i))
    (hhigh : ∀ i v, 4 ≤ i → R 0x1C v → Q i (lane v (i - 4))) (r : Reading B) :
    (r.prog n).Guards (Reads n Q) (Answered R) := by
  cases r with
  | dlc =>
    rw [Reading.prog, canReadDlc, select_val]
    exact ⟨⟨rfl, by decide⟩, fun v _ => trivial⟩
  | id =>
    rw [Reading.prog, canReadId, select_val]
    refine Prog.Guards.bind ⟨⟨rfl, by decide⟩, fun v _ => ?_⟩ fun _ => trivial
    show Prog.Guards _ _ (ite _ _ _)
    split
    · exact ⟨⟨rfl, by decide⟩, fun v _ => trivial⟩
    · exact ⟨⟨rfl, by decide⟩, fun v _ => trivial⟩
  | data buf => exact (guards_canReadData hlow hhigh buf).bind fun _ => trivial

def Requests (n : Fin 2) : (calls B).Op → Prop
  | .inl o => Reads n (fun _ _ => True) o
  | .inr _ => True

theorem guards_calling (r : Reading B) :
    (r.calling n).Guards (Requests n) fun _ _ => True := by
  have hprog := guards_prog (n := n) (Q := fun _ _ => True) (R := fun _ _ => True)
    (fun _ _ _ _ => trivial) (fun _ _ _ _ => trivial) r
  exact (hprog.embed registers (fun _ h => h) fun o r _ => answered_any o r).bind fun x =>
    ⟨trivial, fun _ _ => trivial⟩

end Guards

variable [DecidableEq B] {n : Fin 2}

theorem access_reads {Q : Nat → Byte → Prop} {o : Access B} {w w' : World B}
    {r : (accesses B).Res o} {out : List (Fin 2 × Effect)} (h : Reads n Q o)
    (ha : access o w = some (r, w', out)) : w'.net = w.net := by
  cases o with
  | read c addr =>
    cases (access_read w c addr).symm.trans ha
    rfl
  | store b i v =>
    cases ha
    rfl
  | write c addr val | load b i => exact h.elim

theorem regValue_of_rxBuffer {s s' : CanState} (h : s.rxBuffer = s'.rxBuffer) {addr : Nat}
    (ha : addr ∈ [0x10, 0x14, 0x18, 0x1C]) :
    s.regValue (Reg.ofAddr addr) = s'.regValue (Reg.ofAddr addr) := by
  simp only [List.mem_cons, List.not_mem_nil, or_false] at ha
  rcases ha with rfl | rfl | rfl | rfl
  · exact congrArg RxBuffer.rfi h
  · exact congrArg RxBuffer.rid h
  · exact congrArg RxBuffer.rda h
  · exact congrArg RxBuffer.rdb h

theorem access_of_rxBuffer {Q : Nat → Byte → Prop} {o : Access B} {w w' v : World B}
    {r : (accesses B).Res o} {out : List (Fin 2 × Effect)} (ho : Reads n Q o)
    (hbuffer : (w'.net n).rxBuffer = (w.net n).rxBuffer) (hmem : w'.mem = w.mem)
    (ha : access o w = some (r, v, out)) :
    ∃ v', access o w' = some (r, v', out) ∧ (v'.net n).rxBuffer = (v.net n).rxBuffer ∧
      v'.mem = v.mem := by
  cases o with
  | read c addr =>
    obtain ⟨rfl, haddr⟩ := ho
    cases (access_read w c addr).symm.trans ha
    rw [access_read, regValue_of_rxBuffer hbuffer haddr]
    exact ⟨w', rfl, hbuffer, hmem⟩
  | store b i v =>
    cases ha
    exact ⟨w'.put b i v, rfl, hbuffer, by rw [World.put, hmem]⟩
  | write c addr val | load b i => exact ho.elim

theorem call_of_rxBuffer {α : Type} {p : DriverM B α} {w w' u : World B} {a : α}
    (hp : p.Guards (Reads n fun _ _ => True) (Answered fun _ _ => True))
    (hbuffer : (w'.net n).rxBuffer = (w.net n).rxBuffer) (hmem : w'.mem = w.mem)
    (h : call p w = some (a, u)) : ∃ u', call p w' = some (a, u') ∧ u'.mem = u.mem := by
  induction p generalizing w w' with
  | ret b =>
    cases h
    exact ⟨w', rfl, hmem⟩
  | call o k ih =>
    obtain ⟨r, v, out, ha⟩ := access_total o w
    obtain ⟨v', ha', hbuffer', hmem'⟩ := access_of_rxBuffer hp.1 hbuffer hmem ha
    rw [call_call ha] at h
    rw [call_call ha']
    exact ih r (hp.2 r (answered_any o r)) hbuffer' hmem' h
  | poll o q k ih =>
    obtain ⟨r, v, out, ha⟩ := access_total o w
    obtain ⟨v', ha', hbuffer', hmem'⟩ := access_of_rxBuffer hp.1 hbuffer hmem ha
    rw [call_poll ha] at h
    rw [call_poll ha']
    split at h
    case isTrue hq =>
      rw [if_pos hq]
      exact ih r (hp.2 r (answered_any o r) hq) hbuffer' hmem' h
    case isFalse => cases h

section Window

abbrev ReadEvent (B ι : Type) :=
  Event (Config (calls B) (Readout B) ι) (Label (calls B) ι (Op (Fin 2))) Empty

def Arrival (n : Fin 2) (e : ReadEvent B ι) : Prop :=
  match e.op with
  | .env op => op.Arrives boardBus n e.pre.world.board.net
  | .start _ _ | .answer _ _ _ => False

theorem net_of_requests {o : (calls B).Op} {r : (calls B).Res o} {w w' : Readout B}
    (h : Requests n o) (ha : w.access o r w') : w'.board.net = w.board.net := by
  cases o with
  | inl o =>
    obtain ⟨⟨out, ha⟩, -⟩ := ha
    exact access_reads h ha
  | inr x =>
    cases ha
    rfl

theorem keeps_full : (readers (B := B) ι n fun _ op => op.InWindow n).Keeps
    (fun w => has (w.board.net n).sr Sr.rbs = true) (Requests n) fun _ _ => True where
  menu := by
    rintro _ _ ⟨r, rfl⟩
    exact guards_calling r
  handle {w o r w'} hfull ho ha := ⟨trivial, by rwa [net_of_requests ho ha]⟩
  env := by
    rintro w op _ hfull ⟨hop, rfl⟩
    rcases hop.mailbox boardBus w.board.net with harr | hcalm
    · exact (harr.mailbox hfull).1
    · exact (congrArg Mailbox.full hcalm).trans hfull

variable [DecidableEq ι]

theorem step_calm {c c' : Config (calls B) (Readout B) ι} {l : Label (calls B) ι (Op (Fin 2))}
    (h : (readers ι n fun _ op => op.InWindow n).Step c l c')
    (hfull : has (c.world.board.net n).sr Sr.rbs = true)
    (hc : ∀ i, (c.prog i).Guards (Requests n) fun _ _ => True)
    (hdos : has (c'.world.board.net n).sr Sr.dos = false) :
    has (c.world.board.net n).sr Sr.dos = false ∧
      (readers ι n (Op.Calm boardBus n)).Step c l c' ∧ ¬ Arrival n ⟨c, l, []⟩ := by
  cases h with
  | start hi hm => exact ⟨hdos, .start hi hm, id⟩
  | @call i o r w k hi ha =>
    obtain ⟨ho, -⟩ : (Prog.call o k).Guards (Requests n) fun _ _ => True := hi ▸ hc i
    exact ⟨net_of_requests ho ha ▸ hdos, .call hi ha, id⟩
  | @pass i o r w p k hi ha hpass =>
    obtain ⟨ho, -⟩ : (Prog.poll o p k).Guards (Requests n) fun _ _ => True := hi ▸ hc i
    exact ⟨net_of_requests ho ha ▸ hdos, .pass hi ha hpass, id⟩
  | @again i o r w p k hi ha hfail =>
    obtain ⟨ho, -⟩ : (Prog.poll o p k).Guards (Requests n) fun _ _ => True := hi ▸ hc i
    exact ⟨net_of_requests ho ha ▸ hdos, .again hi ha hfail, id⟩
  | @env op w hw =>
    obtain ⟨hop, rfl⟩ := hw
    have hno : ¬ op.Arrives boardBus n c.world.board.net := fun harr =>
      absurd ((harr.mailbox hfull).2.symm.trans hdos) (by decide)
    have hcalm := (hop.mailbox boardBus c.world.board.net).resolve_left hno
    exact ⟨(congrArg Mailbox.overrun hcalm).symm.trans hdos, .env ⟨hcalm, rfl⟩, hno⟩

theorem run_calm {w : Readout B} {c : Config (calls B) (Readout B) ι} {tr : List (ReadEvent B ι)}
    (hfull : has (w.board.net n).sr Sr.rbs = true)
    (hrun : (readers ι n fun _ op => op.InWindow n).system.Run (Config.idle w) tr c)
    (hdos : has (c.world.board.net n).sr Sr.dos = false) :
    (readers ι n (Op.Calm boardBus n)).system.Run (Config.idle w) tr c ∧
      ∀ e ∈ tr, ¬ Arrival n e := by
  induction hrun with
  | nil => exact ⟨.nil, by simp⟩
  | snoc hrun hstep ih =>
    obtain ⟨rfl, hstep⟩ := hstep
    obtain ⟨hfull', hguards⟩ := keeps_full.run hfull hrun
    obtain ⟨hdos', hcalm, hno⟩ := step_calm hstep hfull' hguards hdos
    obtain ⟨hpre, hall⟩ := ih hdos'
    refine ⟨.snoc hpre ⟨rfl, hcalm⟩, fun e he => ?_⟩
    rcases List.mem_append.mp he with he | he
    · exact hall e he
    · rw [List.mem_singleton.mp he]
      exact hno

end Window

theorem wp_of_call {α : Type} {ok : World B → Prop} {pre : Access B → Prop}
    {res : ∀ o : Access B, (accesses B).Res o → Prop} {p : DriverM B α} {t u : World B} {a : α}
    (hres : ∀ {o t r t' out}, ok t → pre o → access o t = some (r, t', out) → res o r ∧ ok t')
    (hp : p.Guards pre res) (ht : ok t) (hcall : call p t = some (a, u)) :
    p.Wp (fun o _ => pre o) (fun t o r t' => ∃ out, access o t = some (r, t', out))
      (fun b v => b = a ∧ v = u) t := by
  induction p generalizing t with
  | ret b => exact Prod.mk.inj (Option.some.inj hcall)
  | call o k ih =>
    refine ⟨hp.1, ?_⟩
    rintro r t' ⟨out, ha⟩
    obtain ⟨hr, ht'⟩ := hres ht hp.1 ha
    exact ih r (hp.2 r hr) ht' ((call_call ha).symm.trans hcall)
  | poll o q k ih =>
    refine ⟨hp.1, ?_⟩
    rintro r t' ⟨out, ha⟩
    obtain ⟨hr, ht'⟩ := hres ht hp.1 ha
    rw [call_poll ha] at hcall
    split at hcall
    case isTrue hq => exact ⟨hq, ih r (hp.2 r hr hq) ht' hcall⟩
    case isFalse => cases hcall

theorem call_prog (w : World B) (r : Reading B) : ∃ x u, call (r.prog n) w = some (x, u) := by
  cases r with
  | dlc => exact ⟨_, _, by rw [Reading.prog, call_bind, call_canReadDlc]; rfl⟩
  | id => exact ⟨_, _, by rw [Reading.prog, call_bind, call_canReadId]; rfl⟩
  | data buf => exact ⟨_, _, by rw [Reading.prog, call_bind, call_canReadData]; rfl⟩

section Calm

variable (n) (w₀ : World B)

/-- The world `t` of a call that runs alone from `w₀`: what it stored is in the memory of `w`. -/
structure Shadows (t : World B) (w : Readout B) : Prop where
  net : t.net = w₀.net
  mem : ∀ b i, t.mem b i = (w₀.net n).rxByte i → w.board.mem b i = (w₀.net n).rxByte i

structure Untorn (w : Readout B) : Prop where
  buffer : (w.board.net n).rxBuffer = (w₀.net n).rxBuffer
  mem : ∀ b i, w.board.mem b i = w₀.mem b i ∨ i < 8 ∧ w.board.mem b i = (w₀.net n).rxByte i
  outcomes : ∀ x ∈ w.outcomes, ∃ (r : Reading B) (t : World B),
    call (r.prog n) w₀ = some (x, t) ∧ Shadows n w₀ t w

def Asks : (calls B).Op → World B → Prop
  | .inl o, _ => Reads n (fun i v => v = (w₀.net n).rxByte i) o
  | .inr x, t => ∃ r : Reading B, call (r.prog n) w₀ = some (x, t)

def Learns (t : World B) : (o : (calls B).Op) → (calls B).Res o → World B → Prop
  | .inl o, r, t' => ∃ out, access o t = some (r, t', out)
  | .inr _, _, t' => t' = t

variable {n w₀}

theorem rxByte_low {s : CanState} (i : Nat) (v : Word) (hi : i < 4)
    (hv : v = s.regValue (Reg.ofAddr 0x18)) : lane v i = s.rxByte i := by
  rw [CanState.rxByte, if_pos hi, hv]
  rfl

theorem rxByte_high {s : CanState} (i : Nat) (v : Word) (hi : 4 ≤ i)
    (hv : v = s.regValue (Reg.ofAddr 0x1C)) : lane v (i - 4) = s.rxByte i := by
  rw [CanState.rxByte, if_neg (Nat.not_lt.mpr hi), hv]
  rfl

theorem put_mem_apply (w : World B) (b b' : B) (i i' : Nat) (v : Byte) :
    (w.put b i v).mem b' i' = if b' = b ∧ i' = i then v else w.mem b' i' := by
  rw [World.put_mem, Function.update_apply]
  by_cases hb : b' = b
  · simp [hb, Function.update_apply]
  · simp [hb]

theorem Shadows.put {t : World B} {w : Readout B} (h : Shadows n w₀ t w) (b : B) (i : Nat) :
    Shadows n w₀ t { w with board := w.board.put b i ((w₀.net n).rxByte i) } := by
  refine ⟨h.net, fun b' i' hb => ?_⟩
  rw [put_mem_apply]
  split
  case isTrue hbi => rw [hbi.2]
  case isFalse => exact h.mem b' i' hb

theorem Shadows.put_put {t : World B} {w : Readout B} (h : Shadows n w₀ t w) (b : B) (i : Nat) :
    Shadows n w₀ (t.put b i ((w₀.net n).rxByte i))
      { w with board := w.board.put b i ((w₀.net n).rxByte i) } := by
  refine ⟨h.net, fun b' i' hb => ?_⟩
  rw [put_mem_apply] at hb ⊢
  split
  case isTrue hbi => rw [hbi.2]
  case isFalse hbi =>
    rw [if_neg hbi] at hb
    exact h.mem b' i' hb

theorem Untorn.put {w : Readout B} (h : Untorn n w₀ w) (b : B) {i : Nat} (hi : i < 8) :
    Untorn n w₀ { w with board := w.board.put b i ((w₀.net n).rxByte i) } := by
  refine ⟨h.buffer, fun b' i' => ?_, fun x hx => ?_⟩
  · rw [put_mem_apply]
    split
    case isTrue hbi => exact .inr ⟨hbi.2 ▸ hi, by rw [hbi.2]⟩
    case isFalse => exact h.mem b' i'
  · obtain ⟨r, t, hcall, ht⟩ := h.outcomes x hx
    exact ⟨r, t, hcall, ht.put b i⟩

theorem Untorn.report {t : World B} {w : Readout B} {x : Outcome B} (h : Untorn n w₀ w)
    (ht : Shadows n w₀ t w) (hx : ∃ r : Reading B, call (r.prog n) w₀ = some (x, t)) :
    Untorn n w₀ { w with outcomes := w.outcomes ++ [x] } := by
  refine ⟨h.buffer, h.mem, fun y hy => ?_⟩
  rcases List.mem_append.mp hy with hy | hy
  · obtain ⟨r, u, hcall, hu⟩ := h.outcomes y hy
    exact ⟨r, u, hcall, hu.net, hu.mem⟩
  · obtain ⟨r, hcall⟩ := hx
    rw [List.mem_singleton.mp hy]
    exact ⟨r, t, hcall, ht.net, ht.mem⟩

theorem Untorn.handle {t : World B} {w w' : Readout B} {o : (calls B).Op} {r : (calls B).Res o}
    (h : Untorn n w₀ w) (ht : Shadows n w₀ t w) (ho : Asks n w₀ o t) (ha : w.access o r w') :
    Untorn n w₀ w' ∧ (∃ t', Learns t o r t' ∧ Shadows n w₀ t' w') ∧
      ∀ u, Shadows n w₀ u w → Shadows n w₀ u w' := by
  cases o with
  | inl o =>
    obtain ⟨board, outcomes⟩ := w'
    obtain ⟨⟨out, ha⟩, rfl : outcomes = w.outcomes⟩ := ha
    cases o with
    | read c addr =>
      obtain ⟨rfl, haddr⟩ := ho
      cases (access_read w.board c addr).symm.trans ha
      have hbuffer : (t.net c).rxBuffer = (w.board.net c).rxBuffer := by rw [ht.net, h.buffer]
      refine ⟨h, ⟨t, ⟨[], ?_⟩, ht⟩, fun u hu => hu⟩
      rw [access_read, regValue_of_rxBuffer hbuffer haddr]
    | store b i v =>
      obtain ⟨hi, rfl⟩ := ho
      cases ha
      exact ⟨h.put b hi, ⟨_, ⟨[], rfl⟩, ht.put_put b i⟩, fun u hu => hu.put b i⟩
    | write c addr val | load b i => exact ho.elim
  | inr x =>
    cases ha
    exact ⟨h.report ht ho, ⟨t, rfl, ht.net, ht.mem⟩, fun u hu => ⟨hu.net, hu.mem⟩⟩

theorem answered_alone {o : Access B} {t t' : World B} {r : (accesses B).Res o}
    {out : List (Fin 2 × Effect)} (ht : t.net = w₀.net)
    (ho : Reads n (fun i v => v = (w₀.net n).rxByte i) o) (ha : access o t = some (r, t', out)) :
    Answered (fun addr v => v = (w₀.net n).regValue (Reg.ofAddr addr)) o r ∧ t'.net = w₀.net := by
  refine ⟨?_, (access_reads ho ha).trans ht⟩
  cases o with
  | read c addr =>
    obtain ⟨rfl, -⟩ := ho
    cases (access_read t c addr).symm.trans ha
    rw [Answered, ht]
  | write c addr val | load b i | store b i v => trivial

theorem relies_calm : (readers ι n (Op.Calm boardBus n)).Relies (Untorn n w₀) (Shadows n w₀) w₀
    (Asks n w₀) Learns where
  start h := ⟨rfl, fun b i hb => (h.mem b i).elim (fun h => h.trans hb) And.right⟩
  menu := by
    rintro _ _ ⟨r, rfl⟩
    obtain ⟨x, u, hcall⟩ := call_prog (n := n) w₀ r
    have hwp := wp_of_call answered_alone (guards_prog rxByte_low rxByte_high r) rfl hcall
    refine Prog.Wp.bind ((hwp.embed registers (fun o t h => h) fun t o r t' h => h).mono ?_)
    rintro x t ⟨rfl, rfl⟩
    exact ⟨⟨r, hcall⟩, fun _ _ _ => trivial⟩
  handle h ht ho ha := ⟨(h.handle ht ho ha).1, (h.handle ht ho ha).2.1⟩
  stable h ht ho ha := (h.handle ht ho ha).2.2 _
  env := by
    rintro w op _ h ⟨hcalm, rfl⟩
    have hshadow : ∀ u, Shadows n w₀ u w → Shadows n w₀ u { w with board := w.board.step op } :=
      fun u hu => ⟨hu.net, hu.mem⟩
    refine ⟨⟨(congrArg Mailbox.buffer hcalm).trans h.buffer, h.mem, fun x hx => ?_⟩, hshadow⟩
    obtain ⟨r, t, hcall, ht⟩ := h.outcomes x hx
    exact ⟨r, t, hcall, hshadow t ht⟩

section Outcomes

def Outcome.Of (n : Fin 2) (w t : World B) : Outcome B → Prop
  | .dlc d => call (canReadDlc n.val) w = some (d, t)
  | .id x => call (canReadId n.val) w = some (x, t)
  | .data buf d => call (canReadData n.val buf) w = some (d, t)

theorem of_call_prog {r : Reading B} {x : Outcome B} {w t : World B}
    (h : call (r.prog n) w = some (x, t)) : x.Of n w t := by
  cases r with
  | dlc | id | data buf =>
    rw [Reading.prog, call_bind, Option.bind_eq_some_iff] at h
    obtain ⟨⟨d, u⟩, hd, hx⟩ := h
    cases hx
    exact hd

variable {w : Readout B} (h : Untorn n w₀ w)

include h

theorem Untorn.dlc {d : Int} (hd : .dlc d ∈ w.outcomes) :
    call (canReadDlc n.val) w₀ = some (d, w₀) := by
  obtain ⟨r, t, hcall, -⟩ := h.outcomes _ hd
  have hof : call (canReadDlc n.val) w₀ = some (d, t) := of_call_prog hcall
  obtain ⟨-, rfl⟩ := Prod.mk.inj (Option.some.inj ((call_canReadDlc w₀ n).symm.trans hof))
  exact hof

theorem Untorn.id {x : Word} (hx : .id x ∈ w.outcomes) :
    call (canReadId n.val) w₀ = some (x, w₀) := by
  obtain ⟨r, t, hcall, -⟩ := h.outcomes _ hx
  have hof : call (canReadId n.val) w₀ = some (x, t) := of_call_prog hcall
  obtain ⟨-, rfl⟩ := Prod.mk.inj (Option.some.inj ((call_canReadId w₀ n).symm.trans hof))
  exact hof

theorem Untorn.data {buf : B} {d : Int} (hd : .data buf d ∈ w.outcomes) :
    ∃ w', call (canReadData n.val buf) w₀ = some (d, w') ∧
      ∀ i : Nat, i < 8 → i < d → w.board.mem buf i = w'.mem buf i := by
  obtain ⟨r, t, hcall, ht⟩ := h.outcomes _ hd
  have hof : call (canReadData n.val buf) w₀ = some (d, t) := of_call_prog hcall
  refine ⟨t, hof, fun i hi hid => ?_⟩
  obtain ⟨rfl, hmem⟩ :=
    Prod.mk.inj (Option.some.inj ((call_canReadData w₀ n buf).symm.trans hof))
  have hlt := dlc_lt (w₀.net n).rfi
  rw [BitVec.toInt_eq_toNat_of_lt (by omega), Int.ofNat_lt] at hid
  have hbyte : t.mem buf i = (w₀.net n).rxByte i := by
    rw [← hmem]
    simp only [Function.update_self, hi, hid, and_self, if_true]
  exact (ht.mem buf i hbyte).trans hbyte.symm

end Outcomes

end Calm

variable [DecidableEq ι]

/-- Calls on a controller with RBS set, while frames arrive and the guest does all but release,
acknowledge or reset: DOS tells whether what they read is of one frame. -/
theorem torn_read_detected {w : World B} {c : Config (calls B) (Readout B) ι}
    {tr : List (ReadEvent B ι)} (hrbs : has (w.net n).sr Sr.rbs = true)
    (hrun : (readers ι n fun _ op => op.InWindow n).system.Run (Config.idle ⟨w, []⟩) tr c) :
    (has (c.world.board.net n).sr Sr.dos = false →
      (∀ d, .dlc d ∈ c.world.outcomes → call (canReadDlc n.val) w = some (d, w)) ∧
      (∀ x, .id x ∈ c.world.outcomes → call (canReadId n.val) w = some (x, w)) ∧
      (∀ buf d, .data buf d ∈ c.world.outcomes →
        ∃ w', call (canReadData n.val buf) w = some (d, w') ∧
          ∀ i : Nat, i < 8 → i < d → c.world.board.mem buf i = w'.mem buf i) ∧
      ∀ buf i, c.world.board.mem buf i = w.mem buf i ∨
        i < 8 ∧ c.world.board.mem buf i = (w.net n).rxByte i) ∧
    ((∃ e ∈ tr, Arrival n e) → has (c.world.board.net n).sr Sr.dos = true) := by
  constructor
  · intro hdos
    obtain ⟨hcalm, -⟩ := run_calm hrbs hrun hdos
    have hstart : Untorn n w ⟨w, []⟩ := ⟨rfl, fun b i => .inl rfl, by simp⟩
    have h := (relies_calm.run hstart hcalm).1
    exact ⟨fun d => h.dlc, fun x => h.id, fun buf d => h.data, h.mem⟩
  · rintro ⟨e, he, harr⟩
    rw [← Bool.not_eq_false]
    exact fun hdos => (run_calm hrbs hrun hdos).2 e he harr

theorem torn_read_detected_calm : ∃ (w : World Unit) (tr : List (ReadEvent Unit Unit))
    (c : Config (calls Unit) (Readout Unit) Unit),
    has (w.net can1).sr Sr.rbs = true ∧
    (readers Unit can1 fun _ op => op.InWindow can1).system.Run (Config.idle ⟨w, []⟩) tr c ∧
    has (c.world.board.net can1).sr Sr.dos = false ∧ .dlc 2 ∈ c.world.outcomes ∧
    call (canReadDlc can1.val) w = some (2, w) := by
  let w : World Unit := World.step
    (World.step ⟨Net.reset, fun _ _ => 0#8⟩ (.write can0 0x00 0x20000#32)) (.write can0 0x24 Cmr.tr)
  let M := readers (B := Unit) Unit can1 fun _ op => op.InWindow can1
  have h₁ : M.system.Run (Config.idle ⟨w, []⟩) _ _ :=
    .snoc .nil ⟨rfl, .start (i := ()) rfl ⟨.dlc, rfl⟩⟩
  have hread : Readout.access ⟨w, []⟩ (.inl (.read can1 0x10)) 0x20000#32 ⟨w, []⟩ :=
    ⟨⟨[], access_read w can1 0x10⟩, rfl⟩
  have h₂ := h₁.snoc ⟨rfl, .call (i := ()) rfl hread⟩
  have hfill : (Op.write can1 0x08 1#32).InWindow can1 := fun _ h => by cases h
  have h₃ := h₂.snoc ⟨rfl, .env ⟨hfill, rfl⟩⟩
  have h₄ := h₃.snoc ⟨rfl, .call (i := ()) (r := ()) rfl rfl⟩
  have h := torn_read_detected (by decide) h₄
  have hmem : Outcome.dlc 2 ∈ [(Outcome.dlc 2 : Outcome Unit)] := List.mem_singleton.mpr rfl
  exact ⟨w, _, _, by decide, h₄, by decide, hmem, (h.1 (by decide)).1 2 hmem⟩

end QemuBoard.Can
