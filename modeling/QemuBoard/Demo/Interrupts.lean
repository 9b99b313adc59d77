import QemuBoard.Library.Preempt
import QemuBoard.Can.TornRead
import QemuBoard.Demo.Main

namespace QemuBoard.Demo

open Library Can

def can1Handler : TaskM Unit := do
  (Driver.canClearInterrupt 1).embed driver
  uartPrintf (text "CAN1: Interrupt received\n")

/-- The rounds of the task and the calls of the handler, while CAN0 transmits. -/
def reception : Threads requests (World Buffer) Context (Op (Fin 2)) where
  handle := step
  env w op w' := op.target = can0 ∧ w' = w.step op
  menu
    | .task, p => p = readFromCan
    | .handler, p => p = can1Handler

def interrupted : System (Config requests (World Buffer) Context)
    (Label requests Context (Op (Fin 2))) Empty :=
  reception.preemptive fun w => (w.net can1).irq = true

abbrev IrqEvent :=
  Event (Config requests (World Buffer) Context) (Label requests Context (Op (Fin 2))) Empty

def received (w : World Buffer) : Bool := has (w.net can1).sr Sr.rbs

section Trace

def arriving? (e : IrqEvent) : Option QemuCanFrame :=
  match e.op with
  | .env op => op.sent? e.pre.world.net
  | .start _ _ | .answer _ _ _ => none

def fresh? (e : IrqEvent) : Option QemuCanFrame :=
  if received e.pre.world then none else arriving? e

def Begins (e : IrqEvent) : Prop :=
  match e.op with
  | .answer .task (.can (.read c addr)) _ => c = can1 ∧ addr = 0x10
  | _ => False

def Unread (tr : List IrqEvent) : Prop := Since (fun _ e => (fresh? e).isSome) Begins tr

def lastFresh (tr : List IrqEvent) : Option QemuCanFrame := lastSince fresh? (fun _ => false) tr

def Releasing (p : TaskM Unit) : Prop :=
  match p.next? with
  | some (.can (.read c addr)) | some (.can (.write c addr _)) => c = can1 ∧ addr = 0x24
  | _ => False

/-- The task has done its last load of RDA or RDB and not yet released the buffer: of the call of
`CAN_read_data` at most the store of the last byte is left. -/
def Loaded : TaskM Unit → Prop
  | .call (.can (.store _ _ _)) k => Releasing (k ())
  | p => Releasing p

/-- The handler is entered only while the task releases the buffer. A frame reaches CAN1 with RBS
set only after the last load, and with RBS clear only while the task is not about to release. -/
def Orderly (e : IrqEvent) : Prop :=
  match e.op with
  | .start .handler _ => Releasing (e.pre.prog .task)
  | .env _ => (arriving? e).isSome →
      if received e.pre.world then Loaded (e.pre.prog .task) else ¬ Releasing (e.pre.prog .task)
  | .start .task _ | .answer _ _ _ => True

def Delivered (frame : QemuCanFrame) (mem : Buffer → Nat → Byte) : Prop :=
  ∀ i < 8, i < frame.canDlc.toNat → mem .characters2 i = frame.payload i

structure ReadBack (tr : List IrqEvent) (c : Config requests (World Buffer) Context) : Prop where
  returned : Releasing (c.prog .task)
  begun : ¬ Unread tr
  data : ∃ frame, lastFresh tr = some frame ∧ Delivered frame c.world.mem

variable {tr : List IrqEvent} {e : IrqEvent}

theorem lastFresh_snoc : lastFresh (tr ++ [e]) = (fresh? e).or (lastFresh tr) := by
  rw [lastFresh, lastSince_snoc]
  rfl

theorem unread_snoc : Unread (tr ++ [e]) ↔ (fresh? e).isSome ∨ ¬ Begins e ∧ Unread tr :=
  since_snoc _ _ _ _

end Trace

section Phases

def bye : TaskM Unit := uartPrintf (text "(Bye)\n")

def release : TaskM Unit := do
  (Driver.canReleaseReceiveBuffer 1).embed driver
  bye

def await : TaskM Unit :=
  .poll (.can (.read can1 0x20)) (fun v => has v Sr.rbs) fun _ => do
    let _ ← (Driver.canReadData 1 .characters2).embed driver
    release

inductive Waits : TaskM Unit → Prop
  | done : Waits (.ret ())
  | start : Waits (.call (.uartPrintf (text "(read_from_CAN)\n")) fun _ => await)
  | poll : Waits await
  | bye : Waits (.call (.uartPrintf (text "(Bye)\n")) .ret)

inductive Releases : TaskM Unit → Prop
  | read : Releases release
  | write {v : Word} (hv : has v Cmr.rrb = true) :
      Releases (.call (.can (.write can1 0x24 v)) fun _ => bye)

example : readFromCan = .call (.uartPrintf (text "(read_from_CAN)\n")) fun _ => await := rfl

/-- What is left of a call of `CAN_read_data`: it only reads the receive registers and, alone from
here on, ends with the data of the frame in the buffer. -/
structure Rest (w : World Buffer) (frame : QemuCanFrame)
    (q : Driver.DriverM Buffer Int) : Prop where
  guards : q.Guards (Reads can1 fun _ _ => True) (Answered fun _ _ => True)
  ends : ∃ d u, call q w = some (d, u) ∧ Delivered frame u.mem

inductive TaskAt (w : World Buffer) (tr : List IrqEvent) (p : TaskM Unit) : Prop
  | waiting (hp : Waits p) (hfull : received w = true ↔ Unread tr)
      (hframe : Unread tr → ∃ frame, lastFresh tr = some frame ∧
        Holds (w.net can1) frame.canDlc.toNat frame.payload)
  | reading (q : Driver.DriverM Buffer Int) (frame : QemuCanFrame)
      (hp : p = do let _ ← q.embed driver; release) (hq : q.next?.isSome) (hrest : Rest w frame q)
      (hlast : lastFresh tr = some frame) (hfull : received w = true)
      (hunread : Unread tr → q.next? = some (.read can1 0x10))
  | releasing (hp : Releases p) (hbegun : ¬ Unread tr)
      (hdata : received w = true → ∃ frame, lastFresh tr = some frame ∧ Delivered frame w.mem)

variable {w w' : World Buffer} {tr : List IrqEvent} {p : TaskM Unit} {e : IrqEvent}

section Rest

variable {frame : QemuCanFrame} {o : Access Buffer} {r : (accesses Buffer).Res o}
  {out : List (Fin 2 × Effect)}

theorem Rest.whole (h : Holds (w.net can1) frame.canDlc.toNat frame.payload) :
    Rest w frame (Driver.canReadData 1 .characters2) where
  guards := Can.guards_canReadData (n := can1) (fun _ _ _ _ => trivial) (fun _ _ _ _ => trivial) _
  ends := by
    refine ⟨_, _, h.call_canReadData .characters2, fun i hi hd => ?_⟩
    simp [hi, hd]

theorem Rest.call {k : (accesses Buffer).Res o → Driver.DriverM Buffer Int}
    (h : Rest w frame (.call o k)) (ha : access o w = some (r, w', out)) :
    Rest w' frame (k r) ∧ received w' = received w := by
  obtain ⟨⟨ho, hk⟩, d, u, hcall, hdata⟩ := h
  rw [call_call ha] at hcall
  exact ⟨⟨hk r (answered_any o r), d, u, hcall, hdata⟩,
    by rw [received, access_reads ho ha, received]⟩

theorem Rest.poll {t : (accesses Buffer).Res o → Bool}
    {k : (accesses Buffer).Res o → Driver.DriverM Buffer Int} (h : Rest w frame (.poll o t k))
    (ha : access o w = some (r, w', out)) :
    t r = true ∧ Rest w' frame (k r) ∧ received w' = received w := by
  obtain ⟨⟨ho, hk⟩, d, u, hcall, hdata⟩ := h
  rw [call_poll ha] at hcall
  split at hcall
  case isTrue ht =>
    exact ⟨ht, ⟨hk r (answered_any o r) ht, d, u, hcall, hdata⟩,
      by rw [received, access_reads ho ha, received]⟩
  case isFalse => cases hcall

theorem Rest.of_can1 {q : Driver.DriverM Buffer Int} (h : Rest w frame q)
    (hnet : w'.net can1 = w.net can1) (hmem : w'.mem = w.mem) : Rest w' frame q := by
  obtain ⟨hguards, d, u, hcall, hdata⟩ := h
  obtain ⟨u', hcall', hmem'⟩ := call_of_rxBuffer hguards (by rw [hnet]) hmem hcall
  exact ⟨hguards, d, u', hcall', hmem' ▸ hdata⟩

theorem Rest.not_releasing {q : Driver.DriverM Buffer Int} (h : Rest w frame q)
    (hq : q.next?.isSome) : ¬ Releasing (do let _ ← q.embed driver; release) := by
  have hreads : ∀ o : Access Buffer, Reads can1 (fun _ _ => True) o → ∀ k,
      ¬ Releasing (.call (.can o) k) := by
    intro o ho k h
    cases o with
    | read c addr =>
      obtain rfl : addr = 0x24 := h.2
      exact absurd ho.2 (by decide)
    | store b i v => exact h
    | write c addr val | load b i => exact ho
  cases q with
  | ret d => cases hq
  | call o k => exact hreads o h.guards.1 _
  | poll o t k => exact hreads o h.guards.1 fun _ => release

theorem Rest.of_loaded {q : Driver.DriverM Buffer Int} (h : Rest w frame q) (hq : q.next?.isSome)
    (hl : Loaded (do let _ ← q.embed driver; release)) (hmem : w'.mem = w.mem) :
    Rest w' frame q := by
  cases q with
  | ret d => cases hq
  | poll o t k => exact absurd hl (h.not_releasing hq)
  | call o k =>
    cases o with
    | read c addr | write c addr val | load b i => exact absurd hl (h.not_releasing hq)
    | store b i v =>
      obtain ⟨hguards, d, u, hcall, hdata⟩ := h
      have hrest : Rest _ frame (k ()) :=
        (Rest.call ⟨hguards, d, u, hcall, hdata⟩ (rfl : access (.store b i v) w = some _)).1
      replace hl : Releasing (do let _ ← (k ()).embed driver; release) := hl
      rw [call_call (rfl : access (.store b i v) w = some _)] at hcall
      cases hk : k () with
      | ret d' =>
        rw [hk] at hcall
        cases hcall
        have hcall' := call_call (k := k) (rfl : access (.store b i v) w' = some _)
        rw [hk] at hcall'
        refine ⟨hguards, d', _, hcall', ?_⟩
        simpa [hmem] using hdata
      | call o' k' | poll o' t' k' =>
        rw [hk] at hrest hl
        exact absurd hl (hrest.not_releasing rfl)

end Rest

theorem Releases.releasing (h : Releases p) : Releasing p := by
  cases h with
  | read => exact ⟨rfl, rfl⟩
  | write hv => exact ⟨rfl, rfl⟩

theorem Waits.not_releasing (h : Waits p) : ¬ Releasing p := by
  cases h with
  | done | start | bye => exact id
  | poll => exact fun h => absurd h.2 (by decide)

theorem Waits.not_loaded (h : Waits p) : ¬ Loaded p := by
  cases h with
  | done | start | bye => exact id
  | poll => exact fun h => absurd h.2 (by decide)

def Quiet (e : IrqEvent) : Prop := fresh? e = none ∧ ¬ Begins e

theorem TaskAt.quiet (h : TaskAt w tr p) (he : Quiet e) : TaskAt w (tr ++ [e]) p := by
  have hlast : lastFresh (tr ++ [e]) = lastFresh tr := by
    rw [lastFresh_snoc, he.1]
    rfl
  have hunread : Unread (tr ++ [e]) ↔ Unread tr := by
    rw [unread_snoc, he.1]
    simp [he.2]
  cases h with
  | waiting hp hfull hframe =>
    refine .waiting hp (hfull.trans hunread.symm) fun h => ?_
    rw [hlast]
    exact hframe (hunread.mp h)
  | reading q frame hp hq hrest hfresh hfull hq' =>
    exact .reading q frame hp hq hrest (hlast.trans hfresh) hfull fun h => hq' (hunread.mp h)
  | releasing hp hbegun hdata =>
    refine .releasing hp (fun h => hbegun (hunread.mp h)) ?_
    rw [hlast]
    exact hdata

theorem fresh_of_answer {i : Context} {o : Request} {r : requests.Res o}
    (he : e.op = .answer i o r) : fresh? e = none := by
  simp [fresh?, arriving?, he]

section Task

theorem received_command (w : World Buffer) (v : Word) :
    received (w.step (.write can1 0x24 v)) = (received w && !has v Cmr.rrb) :=
  congrArg Mailbox.full (next_mailbox boardBus w.net (.write can1 0x24 v) can1)

theorem TaskAt.of_rest {frame : QemuCanFrame} {o : Access Buffer} {r : (accesses Buffer).Res o}
    {q q' : Driver.DriverM Buffer Int} (he : e.op = .answer .task (.can o) r)
    (hrest : Rest w' frame q') (hlast : lastFresh tr = some frame) (hfull : received w' = true)
    (hq : q.next? = some o) (hunread : Unread tr → q.next? = some (.read can1 0x10)) :
    TaskAt w' (tr ++ [e]) (do let _ ← q'.embed driver; release) := by
  have hbegun : ¬ Unread (tr ++ [e]) := by
    rw [unread_snoc, fresh_of_answer he]
    rintro (h | ⟨hb, h⟩)
    · cases h
    · obtain rfl := Option.some.inj (hq.symm.trans (hunread h))
      exact hb (by simp [Begins, he])
  have hlast' : lastFresh (tr ++ [e]) = some frame := by
    rw [lastFresh_snoc, fresh_of_answer he]
    exact hlast
  cases q' with
  | ret d =>
    obtain ⟨-, _, _, hcall, hdata⟩ := hrest
    cases hcall
    exact .releasing .read hbegun fun _ => ⟨frame, hlast', hdata⟩
  | call o k | poll o t k =>
    exact .reading _ frame rfl rfl hrest hlast' hfull fun h => absurd h hbegun

theorem TaskAt.call {o : Request} {k : requests.Res o → TaskM Unit} {r : requests.Res o}
    (h : TaskAt w tr (.call o k)) (hw : step w o r w') (he : e.op = .answer .task o r) :
    TaskAt w' (tr ++ [e]) (k r) := by
  cases h with
  | waiting hp hfull hframe =>
    cases hp with
    | start =>
      cases hw
      exact (TaskAt.waiting .poll hfull hframe).quiet ⟨fresh_of_answer he, by simp [Begins, he]⟩
    | bye =>
      cases hw
      exact (TaskAt.waiting .done hfull hframe).quiet ⟨fresh_of_answer he, by simp [Begins, he]⟩
  | reading q frame hp hq hrest hlast hfull hunread =>
    cases q with
    | ret d => cases hq
    | call o₀ k₀ =>
      replace hp : Prog.call o k = Prog.call (S := requests) (.can o₀) fun r =>
        (k₀ r).embed driver >>= fun _ => release := hp
      cases hp
      obtain ⟨out, ha⟩ := hw
      obtain ⟨hrest', hsame⟩ := hrest.call ha
      exact .of_rest he hrest' hlast (hsame.trans hfull) rfl hunread
    | poll o₀ t k₀ => cases hp
  | releasing hp hbegun hdata =>
    cases hp with
    | read =>
      obtain ⟨out, ha⟩ := hw
      cases (access_read w can1 0x24).symm.trans ha
      exact (TaskAt.releasing (.write (by simp)) hbegun hdata).quiet
        ⟨fresh_of_answer he, by simp [Begins, he, driver]⟩
    | @write v hv =>
      obtain ⟨out, ha⟩ := hw
      cases (access_write w can1 0x24 v).symm.trans ha
      have hempty : received (w.step (.write can1 0x24 v)) = false := by simp [received_command, hv]
      have hwait : TaskAt (w.step (.write can1 0x24 v)) tr bye :=
        .waiting .bye (by simp [hempty, hbegun]) fun h => absurd h hbegun
      exact hwait.quiet ⟨fresh_of_answer he, by simp [Begins, he]⟩

theorem TaskAt.pass {o : Request} {t : requests.Res o → Bool} {k : requests.Res o → TaskM Unit}
    {r : requests.Res o} (h : TaskAt w tr (.poll o t k)) (hw : step w o r w') (hpass : t r = true)
    (he : e.op = .answer .task o r) : TaskAt w' (tr ++ [e]) (k r) := by
  cases h with
  | waiting hp hfull hframe =>
    cases hp with
    | poll =>
      obtain ⟨out, ha⟩ := hw
      cases (access_read w can1 0x20).symm.trans ha
      -- the poll has seen RBS, so the frame in the buffer is the last fresh one
      obtain ⟨frame, hlast, hholds⟩ := hframe (hfull.mp hpass)
      have hread : TaskAt w tr _ := .reading (Driver.canReadData 1 .characters2) frame rfl rfl
        (.whole hholds) hlast hpass fun _ => rfl
      exact hread.quiet ⟨fresh_of_answer he, by simp [Begins, he]⟩
  | reading q frame hp hq hrest hlast hfull hunread =>
    cases q with
    | ret d => cases hq
    | call o₀ k₀ => cases hp
    | poll o₀ t₀ k₀ =>
      replace hp : Prog.poll o t k = Prog.poll (S := requests) (.can o₀) t₀ fun r =>
        (k₀ r).embed driver >>= fun _ => release := hp
      cases hp
      obtain ⟨out, ha⟩ := hw
      obtain ⟨-, hrest', hsame⟩ := hrest.poll ha
      exact .of_rest he hrest' hlast (hsame.trans hfull) rfl hunread
  | releasing hp hbegun hdata => cases hp

theorem TaskAt.again {o : Request} {t : requests.Res o → Bool} {k : requests.Res o → TaskM Unit}
    {r : requests.Res o} (h : TaskAt w tr (.poll o t k)) (hw : step w o r w') (hfail : t r = false)
    (he : e.op = .answer .task o r) : TaskAt w' (tr ++ [e]) (.poll o t k) := by
  cases h with
  | waiting hp hfull hframe =>
    cases hp with
    | poll =>
      obtain ⟨out, ha⟩ := hw
      cases (access_read w can1 0x20).symm.trans ha
      exact (TaskAt.waiting .poll hfull hframe).quiet ⟨fresh_of_answer he, by simp [Begins, he]⟩
  | reading q frame hp hq hrest hlast hfull hunread =>
    cases q with
    | ret d => cases hq
    | call o₀ k₀ => cases hp
    | poll o₀ t₀ k₀ =>
      replace hp : Prog.poll o t k = Prog.poll (S := requests) (.can o₀) t₀ fun r =>
        (k₀ r).embed driver >>= fun _ => release := hp
      cases hp
      obtain ⟨out, ha⟩ := hw
      cases (hrest.poll ha).1.symm.trans hfail
  | releasing hp hbegun hdata => cases hp

end Task

section Others

def Acks : Request → Prop
  | .uartPrintf _ => True
  | .can (.read c addr) | .can (.write c addr _) => c = can1 ∧ addr = 0x24
  | .uartGetchar | .can (.load _ _) | .can (.store _ _ _) => False

theorem guards_can1Handler : can1Handler.Guards Acks fun _ _ => True :=
  ⟨⟨rfl, rfl⟩, fun _ _ => ⟨⟨rfl, rfl⟩, fun _ _ => ⟨trivial, fun _ _ => trivial⟩⟩⟩

theorem TaskAt.of_releasing (h : TaskAt w tr p) (hp : Releasing p) :
    Releases p ∧ ¬ Unread tr ∧
      (received w = true → ∃ frame, lastFresh tr = some frame ∧ Delivered frame w.mem) := by
  cases h with
  | waiting hwait _ _ => exact absurd hp hwait.not_releasing
  | reading q frame hq hsome hrest _ _ _ =>
    subst hq
    exact absurd hp (hrest.not_releasing hsome)
  | releasing hrel hbegun hdata => exact ⟨hrel, hbegun, hdata⟩

theorem TaskAt.acknowledge {o : Request} {r : requests.Res o} (h : TaskAt w tr p)
    (hp : Releasing p) (ho : Acks o) (hw : step w o r w') (he : e.op = .answer .handler o r) :
    TaskAt w' (tr ++ [e]) p := by
  have hquiet : Quiet e := ⟨fresh_of_answer he, by simp [Begins, he]⟩
  cases o with
  | uartPrintf str =>
    cases hw
    exact h.quiet hquiet
  | uartGetchar => exact ho.elim
  | can a =>
    obtain ⟨out, ha⟩ := hw
    cases a with
    | read c addr =>
      cases (access_read w c addr).symm.trans ha
      exact h.quiet hquiet
    | write c addr v =>
      obtain ⟨rfl, rfl⟩ := ho
      cases (access_write w can1 0x24 v).symm.trans ha
      obtain ⟨hrel, hbegun, hdata⟩ := h.of_releasing hp
      refine TaskAt.quiet (.releasing hrel hbegun fun hfull => hdata ?_) hquiet
      rw [received_command, Bool.and_eq_true] at hfull
      exact hfull.1
    | load b i | store b i v => exact ho.elim

theorem TaskAt.of_can1 (h : TaskAt w tr p) (hnet : w'.net can1 = w.net can1)
    (hmem : w'.mem = w.mem) : TaskAt w' tr p := by
  have hreceived : received w' = received w := by rw [received, hnet, received]
  cases h with
  | waiting hp hfull hframe =>
    refine .waiting hp (by rw [hreceived, hfull]) ?_
    rw [hnet]
    exact hframe
  | reading q frame hp hq hrest hlast hfull hunread =>
    exact .reading q frame hp hq (hrest.of_can1 hnet hmem) hlast (hreceived.trans hfull) hunread
  | releasing hp hbegun hdata =>
    refine .releasing hp hbegun ?_
    rw [hreceived, hmem]
    exact hdata

theorem next_can1 {op : Op (Fin 2)} (ht : op.target = can0) (net : Net (Fin 2)) :
    op.next boardBus net can1 =
      match op.sent? net with
      | some frame => (net can1).received frame
      | none => net can1 := by
  have hne : can1 ≠ op.target := by
    rw [ht]
    decide
  have hmem : can1 ∈ boardBus.peers op.target := by
    rw [ht]
    decide
  rw [next_other boardBus net hne]
  cases op.sent? net with
  | none => rfl
  | some frame => exact if_pos hmem

theorem holds_received (s : CanState) {frame : QemuCanFrame} (hdlc : frame.canDlc.toNat < 16) :
    Holds (s.received frame) frame.canDlc.toNat frame.payload := by
  constructor
  case full => simp
  case dlc => rw [CanState.received_rfi, encode_dlc, Nat.mod_eq_of_lt hdlc]
  case byte =>
    intro i hi
    rw [CanState.rxByte_received s frame hi]
    split
    case isTrue => rfl
    case isFalse hd => simp [QemuCanFrame.payload, Can.copied, hd]

theorem sent_dlc_lt {op : Op (Fin 2)} {net : Net (Fin 2)} {frame : QemuCanFrame}
    (h : op.sent? net = some frame) : frame.canDlc.toNat < 16 := by
  cases op with
  | write c addr val =>
    rw [Op.sent?] at h
    split at h
    case isTrue =>
      cases h
      rw [frame_dlc]
      split
      · decide
      · exact dlc_lt _
    case isFalse => cases h
  | read c addr | reset c | receive c frame => cases h

theorem TaskAt.env {c : Config requests (World Buffer) Context} {op : Op (Fin 2)}
    {out : List Empty} (h : TaskAt c.world tr (c.prog .task)) (ht : op.target = can0)
    (hord : Orderly ⟨c, .env op, out⟩) :
    TaskAt (c.world.step op) (tr ++ [⟨c, .env op, out⟩]) (c.prog .task) := by
  have hcan1 := next_can1 ht c.world.net
  cases hs : op.sent? c.world.net with
  | none =>
    rw [hs] at hcan1
    refine TaskAt.quiet (h.of_can1 hcan1 rfl) ⟨?_, id⟩
    simp [fresh?, arriving?, hs]
  | some frame =>
    rw [hs] at hcan1
    have hfull : received (c.world.step op) = true := by simp [received, hcan1]
    have harrive := hord (by simp [arriving?, hs])
    dsimp only at harrive
    cases h with
    | waiting hp _ _ =>
      have hfresh : fresh? ⟨c, .env op, out⟩ = some frame := by
        split at harrive
        case isTrue => exact absurd harrive hp.not_loaded
        case isFalse hempty => simp [fresh?, arriving?, hs, hempty]
      have hunread : Unread (tr ++ [⟨c, .env op, out⟩]) := unread_snoc.mpr (.inl (by simp [hfresh]))
      refine .waiting hp (by simp [hfull, hunread]) fun _ => ⟨frame, ?_, ?_⟩
      · rw [lastFresh_snoc, hfresh]
        rfl
      · rw [World.step_net, hcan1]
        exact holds_received _ (sent_dlc_lt hs)
    | reading q frame' hp hq hrest hlast hold hunread =>
      rw [if_pos hold, hp] at harrive
      refine TaskAt.quiet ?_ ⟨by simp [fresh?, hold], id⟩
      exact .reading q frame' hp hq (hrest.of_loaded hq harrive rfl) hlast hfull hunread
    | releasing hp hbegun hdata =>
      have hold : received c.world = true := by
        by_contra hempty
        rw [if_neg hempty] at harrive
        exact harrive hp.releasing
      refine TaskAt.quiet (.releasing hp hbegun fun _ => hdata hold) ⟨?_, id⟩
      simp [fresh?, hold]

end Others

end Phases

section Runs

structure InOrder (c : Config requests (World Buffer) Context) (tr : List IrqEvent) : Prop where
  task : TaskAt c.world tr (c.prog .task)
  handler : (c.prog .handler).Guards Acks fun _ _ => True
  -- the handler was entered while the task releases, and the task waits for it
  busy : c.prog .handler = .ret () ∨ Releasing (c.prog .task)

variable {c c' : Config requests (World Buffer) Context} {tr : List IrqEvent}
  {l : Label requests Context (Op (Fin 2))} {out : List Empty}

theorem InOrder.ack {o : Request} (h : InOrder c tr) (ho : (c.prog .handler).next? = some o) :
    Acks o ∧ Releasing (c.prog .task) := by
  have hguards := h.handler
  have hbusy := h.busy
  cases hp : c.prog .handler with
  | ret _ =>
    rw [hp] at ho
    cases ho
  | call o' k =>
    rw [hp] at ho hguards hbusy
    cases ho
    exact ⟨hguards.1, hbusy.resolve_left fun h => by cases h⟩
  | poll o' t k =>
    rw [hp] at ho hguards hbusy
    cases ho
    exact ⟨hguards.1, hbusy.resolve_left fun h => by cases h⟩

theorem TaskAt.begin {w : World Buffer} (h : TaskAt w tr (.ret ())) : TaskAt w tr readFromCan := by
  cases h with
  | waiting _ hfull hframe => exact .waiting .start hfull hframe
  | reading q frame hp hq _ _ _ _ =>
    cases q with
    | ret d => cases hq
    | call o k | poll o t k => cases hp
  | releasing hp _ _ => cases hp

theorem InOrder.of_task {w : World Buffer} {p : TaskM Unit} {tr' : List IrqEvent}
    (hidle : c.prog .handler = .ret ()) (hp : TaskAt w tr' p) :
    InOrder ⟨w, Function.update c.prog .task p⟩ tr' where
  task := hp
  handler := by
    change (c.prog .handler).Guards Acks fun _ _ => True
    rw [hidle]
    trivial
  busy := .inl hidle

theorem InOrder.of_handler {w : World Buffer} {p : TaskM Unit} {tr' : List IrqEvent}
    (htask : TaskAt w tr' (c.prog .task)) (hrel : Releasing (c.prog .task))
    (hp : p.Guards Acks fun _ _ => True) :
    InOrder ⟨w, Function.update c.prog .handler p⟩ tr' where
  task := htask
  handler := hp
  busy := .inr hrel

theorem InOrder.step (h : InOrder c tr) (hstep : interrupted.step c l out c')
    (hord : Orderly ⟨c, l, out⟩) : InOrder c' (tr ++ [⟨c, l, out⟩]) := by
  obtain ⟨hmay, -, hstep⟩ := hstep
  have htask := h.task
  have hguards := h.handler
  cases hstep with
  | @start i p hi hm =>
    have hquiet : Quiet ⟨c, .start i p, out⟩ := ⟨by simp [fresh?, arriving?], id⟩
    cases i with
    | task =>
      cases hm
      rw [hi] at htask
      exact .of_task hmay (htask.begin.quiet hquiet)
    | handler =>
      cases hm
      exact .of_handler (htask.quiet hquiet) hord guards_can1Handler
  | @call i o r w k hi hw =>
    cases i with
    | task =>
      rw [hi] at htask
      exact .of_task hmay (htask.call hw rfl)
    | handler =>
      obtain ⟨ho, hrel⟩ := h.ack (congrArg Prog.next? hi)
      rw [hi] at hguards
      exact .of_handler (htask.acknowledge hrel ho hw rfl) hrel (hguards.2 r trivial)
  | @pass i o r w t k hi hw hpass =>
    cases i with
    | task =>
      rw [hi] at htask
      exact .of_task hmay (htask.pass hw hpass rfl)
    | handler =>
      obtain ⟨ho, hrel⟩ := h.ack (congrArg Prog.next? hi)
      rw [hi] at hguards
      exact .of_handler (htask.acknowledge hrel ho hw rfl) hrel (hguards.2 r trivial hpass)
  | @again i o r w t k hi hw hfail =>
    cases i with
    | task =>
      rw [hi] at htask
      exact ⟨hi ▸ htask.again hw hfail rfl, hguards, h.busy⟩
    | handler =>
      obtain ⟨ho, hrel⟩ := h.ack (congrArg Prog.next? hi)
      exact ⟨htask.acknowledge hrel ho hw rfl, hguards, h.busy⟩
  | @env op w hw =>
    obtain ⟨ht, rfl⟩ := hw
    exact ⟨htask.env ht hord, hguards, h.busy⟩

theorem run_inOrder {w : World Buffer} (hempty : received w = false)
    (hrun : interrupted.Run (Config.idle w) tr c) (hord : ∀ e ∈ tr, Orderly e) : InOrder c tr := by
  induction hrun with
  | nil =>
    have hnone : ¬ Unread [] := since_nil _ _
    have htask : TaskAt w [] (.ret ()) :=
      .waiting .done (by simp [hempty, hnone]) fun h => absurd h hnone
    exact ⟨htask, trivial, .inl rfl⟩
  | snoc _ hstep ih =>
    have hpre := ih fun e he => hord e (List.mem_append_left _ he)
    exact hpre.step hstep (hord _ (List.mem_append_right _ (List.mem_singleton_self _)))

theorem TaskAt.received_step {w w' : World Buffer} {p : TaskM Unit} {o : Request}
    {r : requests.Res o} (h : TaskAt w tr p) (hp : ¬ Releasing p) (ho : p.next? = some o)
    (hw : step w o r w') : received w' = received w := by
  cases h with
  | waiting hwait _ _ =>
    cases hwait with
    | done => cases ho
    | start | bye =>
      cases ho
      cases hw
      rfl
    | poll =>
      cases ho
      obtain ⟨out, ha⟩ := hw
      cases (access_read w can1 0x20).symm.trans ha
      rfl
  | reading q frame hq hsome hrest _ _ _ =>
    subst hq
    cases q with
    | ret d => cases hsome
    | call o k =>
      cases ho
      obtain ⟨out, ha⟩ := hw
      exact (hrest.call ha).2
    | poll o t k =>
      cases ho
      obtain ⟨out, ha⟩ := hw
      exact (hrest.poll ha).2.2
  | releasing hrel _ _ => exact absurd hrel.releasing hp

theorem InOrder.received_answer {i : Context} {o : Request} {r : requests.Res o}
    {w : World Buffer} (h : InOrder c tr) (hrel : ¬ Releasing (c.prog .task))
    (ho : (c.prog i).next? = some o) (hw : Demo.step c.world o r w) :
    received w = received c.world := by
  cases i with
  | task => exact h.task.received_step hrel ho hw
  | handler => exact absurd (h.ack ho).2 hrel

theorem InOrder.clears (h : InOrder c tr) (hstep : interrupted.step c l out c')
    (hset : received c.world = true) (hclear : received c'.world = false) :
    Releasing (c.prog .task) := by
  obtain ⟨-, -, hstep⟩ := hstep
  by_contra hrel
  have hkept : received c'.world = true := by
    cases hstep with
    | start => exact hset
    | call hi hw | pass hi hw _ | again hi hw _ =>
      exact (h.received_answer hrel (congrArg Prog.next? hi) hw).trans hset
    | @env op w hw =>
      obtain ⟨ht, rfl⟩ := hw
      have hcan1 := next_can1 ht c.world.net
      rw [received, World.step_net, hcan1]
      cases op.sent? c.world.net with
      | none => exact hset
      | some frame => simp
  rw [hclear] at hkept
  cases hkept

/-- After `CAN_init(1)`, in every run whose steps are all orderly. -/
theorem frames_read_back {w w₀ : World Buffer} (hempty : received w = false)
    (hinit : Can.call (Driver.canInit 1) w = some ((), w₀))
    (hrun : interrupted.Run (Config.idle w₀) tr c) (hord : ∀ e ∈ tr, Orderly e) :
    (∀ l out c', interrupted.step c l out c' → received c.world = true →
      received c'.world = false → ReadBack tr c) ∧
    (Unread tr → received c.world = true) := by
  have hstart : received w₀ = false := by
    cases (Driver.call_orReg w can1 0x28 (Ier.rie ||| Ier.doie)).symm.trans hinit
    exact (congrArg Mailbox.full (next_mailbox boardBus w.net _ can1)).trans hempty
  have h := run_inOrder hstart hrun hord
  refine ⟨fun l out c' hstep hset hclear => ?_, fun hunread => ?_⟩
  · have hrel := h.clears hstep hset hclear
    obtain ⟨-, hbegun, hdata⟩ := h.task.of_releasing hrel
    exact ⟨hrel, hbegun, hdata hset⟩
  · cases h.task with
    | waiting _ hfull _ => exact hfull.mpr hunread
    | reading _ _ _ _ _ _ hfull _ => exact hfull
    | releasing _ hbegun _ => exact absurd hunread hbegun

section Examples

theorem step_round (hi : c.prog .task = .ret ()) (hidle : c.prog .handler = .ret ()) :
    interrupted.step c (.start .task readFromCan) []
      ⟨c.world, Function.update c.prog .task readFromCan⟩ :=
  ⟨hidle, rfl, .start hi rfl⟩

theorem step_enter (hi : c.prog .handler = .ret ()) (hirq : (c.world.net can1).irq = true) :
    interrupted.step c (.start .handler can1Handler) []
      ⟨c.world, Function.update c.prog .handler can1Handler⟩ :=
  ⟨hirq, rfl, .start hi rfl⟩

theorem step_transmit (op : Op (Fin 2)) (ht : op.target = can0) :
    interrupted.step c (.env op) [] ⟨c.world.step op, c.prog⟩ :=
  ⟨trivial, rfl, .env ⟨ht, rfl⟩⟩

theorem step_read (w : World Buffer) (addr : Nat) :
    step w (.can (.read can1 addr)) ((w.net can1).regValue (Reg.ofAddr addr)) w :=
  ⟨[], access_read w can1 addr⟩

theorem step_write (w : World Buffer) (addr : Nat) (v : Word) :
    step w (.can (.write can1 addr v)) () (w.step (.write can1 addr v)) :=
  ⟨_, access_write w can1 addr v⟩

def initialized : World Buffer :=
  World.step ⟨Net.reset, fun _ _ => 0#8⟩ (.write can1 0x28 (Ier.rie ||| Ier.doie))

theorem call_canInit_reset :
    Can.call (Driver.canInit 1) ⟨Net.reset, fun _ _ => 0#8⟩ = some ((), initialized) := by
  have hcall := Driver.call_orReg (⟨Net.reset, fun _ _ => 0#8⟩ : World Buffer) can1 0x28
    (Ier.rie ||| Ier.doie)
  have hval : (Net.reset can1).regValue (Reg.ofAddr 0x28) ||| (Ier.rie ||| Ier.doie) =
    Ier.rie ||| Ier.doie := by decide
  rw [hval] at hcall
  exact hcall

/-- A frame of one byte, read and released before the handler is entered; a second frame arrives
when the byte is loaded and not yet stored. -/
theorem frames_read_back_byte : ∃ w₀ tr c l c',
    Can.call (Driver.canInit 1) ⟨Net.reset, fun _ _ => 0#8⟩ = some ((), w₀) ∧
    interrupted.Run (Config.idle w₀) tr c ∧ (∀ e ∈ tr, Orderly e) ∧
    interrupted.step c l [] c' ∧ received c'.world = false ∧ ReadBack tr c := by
  have hstart : interrupted.Run (Config.idle initialized) [] _ := .nil
  have h₁ := hstart.snoc (step_round rfl rfl)
  have h₂ := h₁.snoc (Threads.preemptive_call (i := .task) (r := ()) rfl (fun _ => rfl) rfl)
  have h₃ := h₂.snoc (step_transmit (.write can0 0x00 0x10000#32) rfl)
  have h₄ := h₃.snoc (step_transmit (.write can0 0x24 Cmr.tr) rfl)
  have h₅ := h₄.snoc (Threads.preemptive_pass (i := .task) rfl (fun _ => rfl) (step_read _ 0x20)
    (by decide))
  have h₆ := h₅.snoc (Threads.preemptive_call (i := .task) rfl (fun _ => rfl) (step_read _ 0x10))
  have h₇ := h₆.snoc (Threads.preemptive_call (i := .task) rfl (fun _ => rfl) (step_read _ 0x18))
  have h₈ := h₇.snoc (step_transmit (.write can0 0x24 Cmr.tr) rfl)
  have h₉ := h₈.snoc (Threads.preemptive_call (i := .task) (r := ()) rfl (fun _ => rfl) ⟨[], rfl⟩)
  have h₁₀ := h₉.snoc (Threads.preemptive_call (i := .task) rfl (fun _ => rfl) (step_read _ 0x24))
  refine ⟨_, _, _, _, _, call_canInit_reset, h₁₀, ?orderly,
    Threads.preemptive_call (i := .task) rfl (fun _ => rfl) (step_write _ 0x24 _), by decide,
    (frames_read_back (by decide) call_canInit_reset h₁₀ ?orderly).1 _ _ _
      (Threads.preemptive_call (i := .task) rfl (fun _ => rfl) (step_write _ 0x24 _))
      (by decide) (by decide)⟩
  simp only [List.forall_mem_append, List.forall_mem_singleton, List.nil_append]
  refine ⟨⟨⟨⟨⟨⟨⟨⟨⟨trivial, trivial⟩, fun h => by cases h⟩, fun _ h => ?_⟩, trivial⟩, trivial⟩,
    trivial⟩, fun _ => ?_⟩, trivial⟩, trivial⟩
  · exact absurd h.2 (by decide)
  · exact ⟨rfl, rfl⟩

/-- The handler acknowledges a frame that the task has not seen, and the task goes on polling. -/
theorem frame_acknowledged_unread : ∃ w₀ tr c l c',
    Can.call (Driver.canInit 1) ⟨Net.reset, fun _ _ => 0#8⟩ = some ((), w₀) ∧
    interrupted.Run (Config.idle w₀) tr c ∧ Unread tr ∧ received c.world = true ∧
    interrupted.step c l [] c' ∧ received c'.world = false ∧
    Unread (tr ++ [⟨c, l, []⟩]) ∧ c'.prog .task = await := by
  have hstart : interrupted.Run (Config.idle initialized) [] _ := .nil
  have h₁ := hstart.snoc (step_round rfl rfl)
  have h₂ := h₁.snoc (Threads.preemptive_call (i := .task) (r := ()) rfl (fun _ => rfl) rfl)
  have h₃ := h₂.snoc (step_transmit (.write can0 0x00 0x10000#32) rfl)
  have h₄ := h₃.snoc (step_transmit (.write can0 0x24 Cmr.tr) rfl)
  have h₅ := h₄.snoc (step_enter rfl (by decide))
  have h₆ := h₅.snoc (Threads.preemptive_call (i := .handler) rfl (fun h => by cases h)
    (step_read _ 0x24))
  refine ⟨_, _, _, _, _, call_canInit_reset, h₆, ?_, by decide,
    Threads.preemptive_call (i := .handler) rfl (fun h => by cases h)
      (step_write _ 0x24 _), by decide, ?_, rfl⟩
  · exact unread_snoc.mpr (.inr ⟨id, unread_snoc.mpr (.inr ⟨id, unread_snoc.mpr (.inl rfl)⟩)⟩)
  · refine unread_snoc.mpr (.inr ⟨id, ?_⟩)
    exact unread_snoc.mpr (.inr ⟨id, unread_snoc.mpr (.inr ⟨id, unread_snoc.mpr (.inl rfl)⟩)⟩)

end Examples

end Runs

end QemuBoard.Demo
