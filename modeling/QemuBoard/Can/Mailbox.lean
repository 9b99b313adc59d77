import QemuBoard.Can.BusLaws

namespace QemuBoard.Can

open Library CanState

variable {ι : Type} [DecidableEq ι]

def RxBuffer.zero : RxBuffer where
  rfi := 0#32
  rid := 0#32
  rda := 0#32
  rdb := 0#32

/-- A place for one frame, which the other controllers fill and the owner releases. -/
structure Mailbox where
  buffer : RxBuffer
  full : Bool
  overrun : Bool

inductive MailAct
  | arrive (frame : QemuCanFrame)
  | command (val : Word)
  | reset

def Mailbox.act (v : Mailbox) : Option MailAct → Mailbox
  | none => v
  | some (.arrive frame) =>
    { buffer := frame.encode, full := true, overrun := v.overrun || v.full }
  | some (.command val) =>
    { v with full := v.full && !has val Cmr.rrb, overrun := v.overrun && !has val Cmr.cdo }
  | some .reset => { buffer := .zero, full := false, overrun := false }

@[simps] def CanState.mailbox (s : CanState) : Mailbox where
  buffer := s.rxBuffer
  full := has s.sr Sr.rbs
  overrun := has s.sr Sr.dos

def Op.ownAct? : Op ι → Option MailAct
  | .read _ _ => none
  | .write _ addr val =>
    if Reg.ofAddr addr = some .cmr then some (.command val) else none
  | .reset _ => some .reset
  | .receive _ frame => some (.arrive frame)

def Op.mailAct? (bus : CanBusState ι) (net : Net ι) (c : ι) (op : Op ι) : Option MailAct :=
  if c = op.target then op.ownAct?
  else if c ∈ bus.peers op.target then (op.sent? net).map .arrive
  else none

theorem mailbox_received (s : CanState) (frame : QemuCanFrame) :
    (s.received frame).mailbox = s.mailbox.act (some (.arrive frame)) := by
  cases h : has s.sr Sr.rbs <;> simp [mailbox, Mailbox.act, h, rxBuffer]

theorem mailbox_acknowledge (s : CanState) (val : Word) :
    (s.acknowledge val).mailbox = s.mailbox.act (some (.command val)) := by
  cases hr : has val Cmr.rrb <;> cases hd : has val Cmr.cdo <;>
    simp [acknowledge, hr, hd, mailbox, Mailbox.act, rxBuffer]

theorem mailbox_command (s : CanState) (val : Word) :
    (s.command val).mailbox = s.mailbox.act (some (.command val)) := by
  rw [← mailbox_acknowledge]
  cases h : has val Cmr.tr <;> simp [command, h, mailbox, rxBuffer]

omit [DecidableEq ι] in
theorem mailbox_own (s : CanState) (op : Op ι) : (op.own s).mailbox = s.mailbox.act op.ownAct? := by
  cases op with
  | read c addr => rfl
  | write c addr val =>
    simp only [Op.own, Op.ownAct?]
    cases hreg : Reg.ofAddr addr with
    | none => rfl
    | some r =>
      cases r with
      | cmr => exact mailbox_command s val
      | tfi | tid | tda | tdb | rfi | rid | rda | rdb | sr | ier => rfl
  | reset c =>
    simp [Op.own, Op.ownAct?, Mailbox.act, mailbox, CanState.zero, rxBuffer, RxBuffer.zero]
  | receive c frame => exact mailbox_received s frame

/-- Every controller simulates its mailbox, whoever the operation is made to. -/
theorem next_mailbox (bus : CanBusState ι) (net : Net ι) (op : Op ι) (c : ι) :
    (op.next bus net c).mailbox = (net c).mailbox.act (op.mailAct? bus net c) := by
  by_cases h : c = op.target
  · subst h
    rw [next_target, Op.mailAct?, if_pos rfl, mailbox_own]
  · rw [next_other bus net h, Op.mailAct?, if_neg h]
    cases hs : op.sent? net with
    | none => simp [Mailbox.act]
    | some frame =>
      by_cases hp : c ∈ bus.peers op.target
      · simp [hp, mailbox_received]
      · simp [hp, Mailbox.act]

def Op.Guest : Op ι → Prop
  | .receive _ _ => False
  | .read _ _ | .write _ _ _ | .reset _ => True

instance : DecidablePred (@Op.Guest ι)
  | .receive _ _ => inferInstanceAs (Decidable False)
  | .read _ _ | .write _ _ _ | .reset _ => inferInstanceAs (Decidable True)

def arrival (c : ι) (e : Event (Net ι) (Op ι) (ι × Effect)) : Option QemuCanFrame :=
  if c = e.op.target then none else e.op.sent? e.pre

def commands (c : ι) (bit : Word) (e : Event (Net ι) (Op ι) (ι × Effect)) : Bool :=
  match e.op with
  | .write d addr val => c = d ∧ Reg.ofAddr addr = some .cmr ∧ has val bit
  | .reset d => c = d
  | .read _ _ | .receive _ _ => false

def resets (c : ι) (e : Event (Net ι) (Op ι) (ι × Effect)) : Bool := e.op = .reset c

def Unreleased (c : ι) (tr : Trace ι) : Prop :=
  Since (fun _ e => (arrival c e).isSome) (fun e => commands c Cmr.rrb e) tr

def Overrun (c : ι) (tr : Trace ι) : Prop :=
  Since (fun pre e => (arrival c e).isSome ∧ Unreleased c pre) (fun e => commands c Cmr.cdo e) tr

def lastArrival (c : ι) (tr : Trace ι) : Option QemuCanFrame := lastSince (arrival c) (resets c) tr

structure Mailbox.History (v : Mailbox) (c : ι) (tr : Trace ι) : Prop where
  buffer : v.buffer = ((lastArrival c tr).map QemuCanFrame.encode).getD .zero
  full : v.full = true ↔ Unreleased c tr
  overrun : v.overrun = true ↔ Overrun c tr

section Act

variable (bus : CanBusState ι) (net : Net ι) (op : Op ι) (c : ι)

variable {bus op} in
theorem arrival_act (hbus : ∀ c, c ∈ bus.clients) (hop : op.Guest) (out : List (ι × Effect)) :
    arrival c ⟨net, op, out⟩ =
      match op.mailAct? bus net c with
      | some (.arrive frame) => some frame
      | _ => none := by
  unfold arrival Op.mailAct?
  by_cases h : c = op.target
  · cases op with
    | write d addr val => by_cases hr : Reg.ofAddr addr = some .cmr <;> simp [h, Op.ownAct?, hr]
    | receive d frame => exact hop.elim
    | read d addr | reset d => simp [h, Op.ownAct?]
  · cases op.sent? net <;> simp [h, CanBusState.mem_peers, hbus]

theorem commands_act (bit : Word) (out : List (ι × Effect)) :
    commands c bit ⟨net, op, out⟩ =
      match op.mailAct? bus net c with
      | some (.command val) => has val bit
      | some .reset => true
      | _ => false := by
  by_cases h : c = op.target
  · cases op with
    | write d addr val =>
      by_cases hr : Reg.ofAddr addr = some .cmr <;>
        simp [commands, Op.mailAct?, show c = d from h, Op.target, Op.ownAct?, hr]
    | reset d => simp [commands, Op.mailAct?, show c = d from h, Op.target, Op.ownAct?]
    | read d addr | receive d frame => simp [commands, Op.mailAct?, h, Op.ownAct?]
  · have hact : op.mailAct? bus net c = none ∨
        ∃ frame, op.mailAct? bus net c = some (.arrive frame) := by
      rw [Op.mailAct?, if_neg h]
      cases op.sent? net <;> by_cases hp : c ∈ bus.peers op.target <;> simp [hp]
    have hcommands : commands c bit ⟨net, op, out⟩ = false := by
      cases op with
      | write d addr val => simp [commands, show c ≠ d from h]
      | reset d => simp [commands, show c ≠ d from h]
      | read d addr | receive d frame => rfl
    rcases hact with hact | ⟨frame, hact⟩ <;> simp [hcommands, hact]

theorem resets_act (out : List (ι × Effect)) : resets c ⟨net, op, out⟩ =
    match op.mailAct? bus net c with
    | some .reset => true
    | _ => false := by
  -- a reset is the command that no value of CMR gives
  have h : resets c ⟨net, op, out⟩ = commands c 0#32 ⟨net, op, out⟩ := by
    cases op with
    | reset d => simp [resets, commands, eq_comm]
    | write d addr val => simp [resets, commands, has]
    | read d addr | receive d frame => simp [resets, commands]
  rw [h, commands_act bus]
  cases op.mailAct? bus net c with
  | none => rfl
  | some act => cases act <;> simp [has]

end Act

theorem Mailbox.History.step {bus : CanBusState ι} {net : Net ι} {c : ι} {tr : Trace ι} {op : Op ι}
    (h : (net c).mailbox.History c tr) (hbus : ∀ c, c ∈ bus.clients) (hop : op.Guest)
    (out : List (ι × Effect)) :
    (op.next bus net c).mailbox.History c (tr ++ [⟨net, op, out⟩]) := by
  obtain ⟨hbuffer, hfull, hoverrun⟩ := h
  rw [next_mailbox]
  constructor
  · rw [lastArrival, lastSince_snoc, arrival_act net c hbus hop, resets_act bus, ← lastArrival]
    cases op.mailAct? bus net c with
    | none => simpa [Mailbox.act] using hbuffer
    | some act =>
      cases act with
      | command val => simpa [Mailbox.act] using hbuffer
      | arrive frame | reset => rfl
  · rw [Unreleased, since_snoc, arrival_act net c hbus hop, commands_act bus, ← Unreleased]
    cases op.mailAct? bus net c with
    | none => simpa [Mailbox.act] using hfull
    | some act =>
      cases act with
      | command val => simp [Mailbox.act, ← hfull, and_comm]
      | arrive frame | reset => simp [Mailbox.act]
  · rw [Overrun, since_snoc, arrival_act net c hbus hop, commands_act bus, ← Overrun]
    cases op.mailAct? bus net c with
    | none => simpa [Mailbox.act] using hoverrun
    | some act =>
      cases act with
      | command val => simp [Mailbox.act, ← hoverrun, and_comm]
      | arrive frame => simp [Mailbox.act, ← hoverrun, ← hfull, or_comm]
      | reset => simp [Mailbox.act]

theorem run_mailbox {bus : CanBusState ι} {net : Net ι} {tr : Trace ι}
    (hbus : ∀ c, c ∈ bus.clients) (h : ((network bus).restrict Op.Guest).Run Net.reset tr net)
    (c : ι) : (net c).mailbox.History c tr := by
  induction h with
  | nil =>
    constructor
    · rfl
    · simp [Net.reset, CanState.zero, Unreleased]
    · simp [Net.reset, CanState.zero, Overrun]
  | snoc _ hstep ih =>
    obtain ⟨hop, hdev⟩ := hstep
    obtain ⟨rfl, -⟩ := step_iff.mp hdev
    exact ih.step hbus hop _

def Effect.frame? : Effect → Option QemuCanFrame
  | .receive frame => some frame
  | .irq _ | .value _ _ => none

def receipts (c : ι) (out : List (ι × Effect)) : List QemuCanFrame :=
  out.filterMap fun x => if x.1 = c then x.2.frame? else none

section Receipts

variable (c : ι)

@[simp] theorem receipts_append (l l' : List (ι × Effect)) :
    receipts c (l ++ l') = receipts c l ++ receipts c l' := by
  simp [receipts, List.filterMap_append]

theorem receipts_map (d : ι) (l : List Effect) :
    receipts c (l.map (Prod.mk d)) = if d = c then l.filterMap Effect.frame? else [] := by
  by_cases h : d = c <;> simp [receipts, List.filterMap_map, h]

@[simp] theorem frames_raiseLog (s : CanState) : s.raiseLog.filterMap Effect.frame? = [] := by
  unfold raiseLog
  split <;> rfl

@[simp] theorem frames_lowerLog (s : CanState) : s.lowerLog.filterMap Effect.frame? = [] := by
  unfold lowerLog
  split <;> rfl

@[simp] theorem frames_receiveLog (s : CanState) (frame : QemuCanFrame) :
    (s.receiveLog frame).filterMap Effect.frame? = [frame] := by
  unfold receiveLog setLog
  split <;> simp [Effect.frame?]

@[simp] theorem frames_acknowledgeLog (s : CanState) (val : Word) :
    (s.acknowledgeLog val).filterMap Effect.frame? = [] := by
  unfold acknowledgeLog clearLog
  repeat' split
  all_goals simp

theorem receipts_deliverLog {peers : List ι} (h : peers.Nodup) (frame : QemuCanFrame)
    (net : Net ι) :
    receipts c (Net.deliverLog peers frame net) = if c ∈ peers then [frame] else [] := by
  induction peers with
  | nil => rfl
  | cons p peers ih =>
    obtain ⟨hp, hnd⟩ := List.nodup_cons.mp h
    have hcons : Net.deliverLog (p :: peers) frame net =
      ((net p).receiveLog frame).map (Prod.mk p) ++ Net.deliverLog peers frame net := rfl
    rw [hcons, receipts_append, receipts_map, ih hnd]
    by_cases hc : p = c
    · subst hc
      simp [hp]
    · simp [hc, Ne.symm hc]

theorem receipts_transmit {addr : Nat} {val : Word} (bus : CanBusState ι) (net : Net ι) (d : ι)
    (hreg : Reg.ofAddr addr = some .cmr) (htr : has val Cmr.tr = true) :
    receipts c ((Op.write d addr val).log bus net) =
      if c ∈ bus.peers d then [(net d).frame] else [] := by
  simp only [Op.log, hreg, htr, if_true, receipts_append, receipts_map, frames_acknowledgeLog,
    clearLog, setLog, frames_lowerLog, frames_raiseLog, ite_self, List.nil_append, List.append_nil]
  exact receipts_deliverLog c (bus.nodup_peers d) _ net

end Receipts

theorem next_guest_registers {op : Op ι} {c : ι} (bus : CanBusState ι) (net : Net ι)
    (h : c ≠ op.target) :
    (op.next bus net c).tfi = (net c).tfi ∧ (op.next bus net c).tid = (net c).tid ∧
    (op.next bus net c).tda = (net c).tda ∧ (op.next bus net c).tdb = (net c).tdb ∧
    (op.next bus net c).cmr = (net c).cmr ∧ (op.next bus net c).ier = (net c).ier := by
  rw [next_other bus net h]
  cases op.sent? net with
  | none => simp
  | some frame =>
    by_cases hp : c ∈ bus.peers op.target <;> simp [hp]

/-- From reset, through any order of accesses and resets on controllers of one bus. -/
theorem receive_bookkeeping {bus : CanBusState ι} {net : Net ι} {tr : Trace ι}
    (hbus : ∀ c, c ∈ bus.clients) (hrun : ((network bus).restrict Op.Guest).Run Net.reset tr net) :
    (∀ c, (net c).rxBuffer =
      ((lastSince (arrival c) (resets c) tr).map QemuCanFrame.encode).getD RxBuffer.zero) ∧
    (∀ c, has (net c).sr Sr.rbs = true ↔
      Since (fun _ e => (arrival c e).isSome) (fun e => commands c Cmr.rrb e) tr) ∧
    (∀ c, has (net c).sr Sr.dos = true ↔
      Since (fun pre e => (arrival c e).isSome ∧ Unreleased c pre)
        (fun e => commands c Cmr.cdo e) tr) ∧
    (∀ c addr val out net', Reg.ofAddr addr = some .cmr → has val Cmr.tr = true →
      (network bus).step net (.write c addr val) out net' →
      ∀ d, receipts d out = if d = c then [] else [(net c).frame]) ∧
    (∀ op out net', (network bus).step net op out net' → ∀ c, c ≠ op.target →
      (net' c).tfi = (net c).tfi ∧ (net' c).tid = (net c).tid ∧ (net' c).tda = (net c).tda ∧
      (net' c).tdb = (net c).tdb ∧ (net' c).cmr = (net c).cmr ∧ (net' c).ier = (net c).ier) := by
  have hmail := run_mailbox hbus hrun
  refine ⟨fun c => (hmail c).buffer, fun c => (hmail c).full, fun c => (hmail c).overrun, ?_, ?_⟩
  · intro c addr val out net' hreg htr hstep d
    obtain ⟨-, rfl⟩ := step_iff.mp hstep
    rw [receipts_transmit d bus net c hreg htr]
    by_cases h : d = c <;> simp [CanBusState.mem_peers, hbus, h]
  · intro op out net' hstep c hc
    obtain ⟨rfl, -⟩ := step_iff.mp hstep
    exact next_guest_registers bus net hc

theorem receive_bookkeeping_twice : ∃ tr net,
    ((network boardBus).restrict Op.Guest).Run Net.reset tr net ∧
    ((net 1).rxBuffer = ⟨0x10000#32, 0#32, 0x62#32, 0#32⟩ ∧ has (net 1).sr Sr.dos = true) ∧
    Since (fun pre e => (arrival 1 e).isSome ∧ Unreleased 1 pre)
      (fun e => commands (1 : Fin 2) Cmr.cdo e) tr := by
  have hrun : ((network boardBus).restrict Op.Guest).Run _ _ _ :=
    .replay Net.reset
      [.write 0 0x00 0x10000#32, .write 0 0x08 0x61#32, .write 0 0x24 Cmr.tr,
        .write 0 0x08 0x62#32, .write 0 0x24 Cmr.tr] rfl (by decide)
  have h := receive_bookkeeping (by decide) hrun
  exact ⟨_, _, hrun, by decide, (h.2.2.1 1).mp (by decide)⟩

end QemuBoard.Can
