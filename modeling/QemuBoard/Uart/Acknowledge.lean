import QemuBoard.Uart.Driver
import QemuBoard.Uart.Transmitter

namespace QemuBoard.Uart

open Library UartState

def Sound (st : Word) : Prop := has st errorBits = true → has st Status.e = true

def unroe (st : Word) : Word := st &&& ~~~Status.roe

@[simp] theorem unroe_or (x y : Word) : unroe (x ||| y) = unroe x ||| unroe y := by
  simp only [unroe, BitVec.and_comm _ (~~~Status.roe), BitVec.and_or_distrib_left]

@[simp] theorem unroe_clear (x m : Word) : unroe (x &&& ~~~m) = unroe x &&& ~~~m := by
  rw [unroe, unroe]
  ac_rfl

@[simp] theorem unroe_unroe (x : Word) : unroe (unroe x) = unroe x := by
  simp only [unroe, BitVec.and_assoc, BitVec.and_self]

theorem has_unroe {i : Nat} (x : Word) (h : 3 ≠ i) :
    has (unroe x) (bit 32 i) = has x (bit 32 i) := by
  simp [unroe, h]

theorem sound_withE (x : Word) : Sound (withE x) := by
  unfold Sound withE
  split
  case isTrue => simp
  case isFalse h => exact fun h' => absurd h' h

theorem Sound.clear {x m : Word} (h : Sound x) (herr : errorBits &&& ~~~m = errorBits)
    (he : Status.e &&& ~~~m = Status.e) : Sound (x &&& ~~~m) := by
  unfold Sound
  rw [has_clear herr, has_clear he]
  exact h

theorem Sound.unroe {x : Word} (h : Sound x) : Sound (unroe x) := by
  intro herr
  rw [has_unroe x (by decide)]
  apply h
  rw [has_iff] at herr ⊢
  intro h0
  apply herr
  rw [Uart.unroe, BitVec.and_assoc, BitVec.and_comm (~~~Status.roe), ← BitVec.and_assoc, h0]
  exact BitVec.zero_and

theorem withE_or {x b : Word} (h : Sound x) (hb : has b errorBits = false) :
    withE (x ||| b) = x ||| b := by
  unfold withE
  split
  case isTrue herr =>
    rw [has_or, hb, Bool.or_false] at herr
    exact or_bit_of_has (by rw [has_or, h herr, Bool.true_or])
  case isFalse => rfl

theorem withE_or_roe (x : Word) : withE (x ||| Status.roe) = x ||| Status.roe ||| Status.e := by
  have h : has (x ||| Status.roe) errorBits = true := by
    rw [has_or, show has Status.roe errorBits = true by decide, Bool.or_true]
  rw [withE, if_pos h]

def Op.eventStatus (st : Word) : Op → Word
  | .timeoutRx =>
    if has st Status.rrdy then st ||| Status.roe ||| Status.e else st ||| Status.rrdy
  | .timeoutTx _ =>
    if has st Status.trdy then st ||| Status.tmt else (st &&& ~~~Status.tmt) ||| Status.trdy
  | .read _ | .write _ _ _ | .receive _ _ | .reset _ _ => st

theorem Sound.clearTmt {x : Word} (h : Sound x) : Sound (x &&& ~~~Status.tmt) :=
  h.clear (by decide) (by decide)

theorem next_status {s : UartState} {op : Op} (h : Sound s.status) (hop : op.IsEvent) :
    (op.next s).status = op.eventStatus s.status := by
  cases op with
  | receive now buf =>
    simp only [Op.next, Op.eventStatus]
    split <;> rfl
  | timeoutRx =>
    simp only [Op.next, Op.eventStatus]
    split
    · exact withE_or_roe s.status
    · exact withE_or h (by decide)
  | timeoutTx now =>
    simp only [Op.next, Op.eventStatus]
    split
    · exact withE_or h (by decide)
    · exact withE_or h.clearTmt (by decide)
  | read addr | write now addr val | reset now input => exact hop.elim

theorem Sound.next_event {s : UartState} {op : Op} (h : Sound s.status) (hop : op.IsEvent) :
    Sound (op.next s).status := by
  cases op with
  | receive now buf =>
    simp only [Op.next]
    split <;> exact h
  | timeoutRx =>
    simp only [Op.next]
    split <;> exact sound_withE _
  | timeoutTx now =>
    simp only [Op.next]
    split <;> exact sound_withE _
  | read addr | write now addr val | reset now input => exact hop.elim

theorem unroe_eventStatus (st : Word) (op : Op) :
    unroe (op.eventStatus st) = unroe (op.eventStatus (unroe st)) := by
  cases op with
  | timeoutRx =>
    simp only [Op.eventStatus, has_unroe st (show 3 ≠ 7 by decide)]
    split <;> simp
  | timeoutTx now =>
    simp only [Op.eventStatus, has_unroe st (show 3 ≠ 6 by decide)]
    split <;> simp
  | read addr | write now addr val | receive now buf | reset now input => simp [Op.eventStatus]

@[simps] def UartState.mask (s : UartState) : UartState :=
  { s with status := unroe s.status, irq := false }

theorem mask_next {s : UartState} {op : Op} (h : Sound s.status) (hop : op.IsEvent) :
    (op.next s).mask = (op.next s.mask).mask := by
  have hst : unroe (op.next s).status = unroe (op.next s.mask).status := by
    rw [next_status h hop, next_status (s := s.mask) h.unroe hop]
    exact unroe_eventStatus s.status op
  have hrrdy := has_unroe s.status (show 3 ≠ 7 by decide)
  have htrdy := has_unroe s.status (show 3 ≠ 6 by decide)
  rw [mask, mask, hst]
  cases op with
  | receive now buf =>
    simp only [Op.next, mask_canReceive]
    split <;> rfl
  | timeoutRx =>
    simp only [Op.next, mask_status, hrrdy]
    split <;> rfl
  | timeoutTx now =>
    simp only [Op.next, mask_status, htrdy]
    split <;> rfl
  | read addr | write now addr val | reset now input => exact hop.elim

abbrev events : System UartState Op Effect := device.restrict Op.IsEvent

def runEvents (s : UartState) (ops : List Op) : UartState := ops.foldl (fun s op => op.next s) s

theorem run_events {s t : UartState} {tr : Trace} (h : events.Run s tr t) :
    t = runEvents s (tr.map Event.op) ∧ ∀ op ∈ tr.map Event.op, op.IsEvent := by
  induction h with
  | nil => simp [runEvents]
  | snoc _ hstep ih =>
    obtain ⟨hop, hdev⟩ := hstep
    obtain ⟨-, -, rfl, -⟩ := step_iff.mp hdev
    constructor
    · simp [runEvents, ih.1]
    · intro op hmem
      rcases List.mem_append.mp (List.map_append ▸ hmem) with hmem | hmem
      · exact ih.2 op hmem
      · simp_all

theorem mask_runEvents {s t : UartState} {ops : List Op} (hops : ∀ op ∈ ops, op.IsEvent)
    (hs : Sound s.status) (ht : Sound t.status) (h : s.mask = t.mask) :
    (runEvents s ops).mask = (runEvents t ops).mask := by
  induction ops generalizing s t with
  | nil => exact h
  | cons op ops ih =>
    have hop := hops op (by simp)
    refine ih (fun o ho => hops o (by simp [ho])) (hs.next_event hop) (ht.next_event hop) ?_
    rw [mask_next hs hop, mask_next ht hop, h]

theorem status_runEvents {s : UartState} {ops : List Op} (hops : ∀ op ∈ ops, op.IsEvent)
    (hs : Sound s.status) : (runEvents s ops).status = ops.foldl Op.eventStatus s.status := by
  induction ops generalizing s with
  | nil => rfl
  | cons op ops ih =>
    have hop := hops op (by simp)
    rw [List.foldl_cons, ← next_status hs hop]
    exact ih (fun o ho => hops o (by simp [ho])) (hs.next_event hop)

theorem sound_runEvents {s : UartState} {ops : List Op} (hops : ∀ op ∈ ops, op.IsEvent)
    (hs : Sound s.status) : Sound (runEvents s ops).status := by
  induction ops generalizing s with
  | nil => exact hs
  | cons op ops ih =>
    exact ih (fun o ho => hops o (by simp [ho])) (hs.next_event (hops op (by simp)))

def UartState.clearRoe (s : UartState) : UartState := { s with status := unroe s.status }.recheck

/-- The events of `tr` end in `t` if ROE is cleared at one point among them. -/
def Linearizable (s : UartState) (tr : Trace) (t : UartState) : Prop :=
  ∃ tr₁ tr₂ mid, (tr₁ ++ tr₂).map Event.op = tr.map Event.op ∧ events.Run s tr₁ mid ∧
    events.Run mid.clearRoe tr₂ t ∧ sent (tr₁ ++ tr₂) = sent tr

theorem linearizable_iff_status {s s₁ : UartState} {tr : Trace} (hs : Sound s.status)
    (hrun : events.Run s tr s₁) :
    Linearizable s tr { s₁ with status := unroe s.status }.recheck ↔
      unroe s₁.status = unroe s.status := by
  obtain ⟨hs₁, hops⟩ := run_events hrun
  constructor
  · rintro ⟨tr₁, tr₂, mid, htr, hrun₁, hrun₂, -⟩
    obtain ⟨hmid, hops₁⟩ := run_events hrun₁
    obtain ⟨hfin, hops₂⟩ := run_events hrun₂
    have hsound : Sound mid.status := hmid ▸ sound_runEvents hops₁ hs
    have hmask : mid.mask = mid.clearRoe.mask := by simp [mask, clearRoe, recheck]
    have hsim := mask_runEvents hops₂ hsound hsound.unroe hmask
    have hall : s₁ = runEvents mid (tr₂.map Event.op) := by
      rw [hs₁, ← htr, List.map_append, runEvents, List.foldl_append, hmid]
      rfl
    rw [← hall, ← hfin] at hsim
    simpa using congrArg UartState.status hsim
  · intro heq
    exact ⟨tr, [], s₁, by simp, hrun, by rw [clearRoe, heq]; exact .nil, by simp⟩

/-- No event that changes STATUS falls into the window: an expiry of a timer does
unless it finds the bits that it sets already set. -/
def Quiet (st : Word) (ops : List Op) : Prop :=
  (∀ now, .timeoutTx now ∈ ops → has st Status.tmt = true ∧ has st Status.trdy = true) ∧
  (.timeoutRx ∈ ops → has st Status.rrdy = true ∧ has st Status.e = true)

def txRank (st : Word) : Nat :=
  if has st Status.trdy then if has st Status.tmt then 2 else 1 else 0

def rxRank (st : Word) : Nat := (has st Status.rrdy).toNat + (has st Status.e).toNat

def Op.isTimeoutTx : Op → Bool
  | .timeoutTx _ => true
  | _ => false

def Op.isTimeoutRx : Op → Bool
  | .timeoutRx => true
  | _ => false

theorem txRank_unroe (st : Word) : txRank (unroe st) = txRank st := by
  simp [txRank, has_unroe]

theorem rxRank_unroe (st : Word) : rxRank (unroe st) = rxRank st := by
  simp [rxRank, has_unroe]

theorem txRank_eventStatus (st : Word) (op : Op) :
    txRank (op.eventStatus st) = if op.isTimeoutTx then min (txRank st + 1) 2 else txRank st := by
  cases op with
  | timeoutTx now =>
    cases ht : has st Status.trdy <;> cases hm : has st Status.tmt <;>
      simp [Op.eventStatus, Op.isTimeoutTx, txRank, ht, hm]
  | timeoutRx =>
    cases hr : has st Status.rrdy <;> simp [Op.eventStatus, Op.isTimeoutTx, txRank, hr]
  | read addr | write now addr val | receive now buf | reset now input => rfl

theorem rxRank_eventStatus (st : Word) (op : Op) :
    rxRank (op.eventStatus st) = if op.isTimeoutRx then min (rxRank st + 1) 2 else rxRank st := by
  cases op with
  | timeoutRx =>
    cases hr : has st Status.rrdy <;> cases he : has st Status.e <;>
      simp [Op.eventStatus, Op.isTimeoutRx, rxRank, hr, he]
  | timeoutTx now =>
    cases ht : has st Status.trdy <;> simp [Op.eventStatus, Op.isTimeoutRx, rxRank, ht]
  | read addr | write now addr val | receive now buf | reset now input => rfl

theorem txRank_foldl (st : Word) (ops : List Op) :
    txRank (ops.foldl Op.eventStatus st) = min (txRank st + ops.countP Op.isTimeoutTx) 2 := by
  induction ops generalizing st with
  | nil =>
    have h : txRank st ≤ 2 := by
      unfold txRank
      repeat' split
      all_goals decide
    simp [h]
  | cons op ops ih =>
    rw [List.foldl_cons, ih, txRank_eventStatus, List.countP_cons]
    split <;> omega

theorem rxRank_foldl (st : Word) (ops : List Op) :
    rxRank (ops.foldl Op.eventStatus st) = min (rxRank st + ops.countP Op.isTimeoutRx) 2 := by
  induction ops generalizing st with
  | nil =>
    have h : rxRank st ≤ 2 := Nat.add_le_add (Bool.toNat_le _) (Bool.toNat_le _)
    simp [h]
  | cons op ops ih =>
    rw [List.foldl_cons, ih, rxRank_eventStatus, List.countP_cons]
    split <;> omega

theorem txRank_eq_two (st : Word) :
    txRank st = 2 ↔ has st Status.tmt = true ∧ has st Status.trdy = true := by
  unfold txRank
  cases has st Status.trdy <;> cases has st Status.tmt <;> decide

theorem rxRank_eq_two (st : Word) :
    rxRank st = 2 ↔ has st Status.rrdy = true ∧ has st Status.e = true := by
  unfold rxRank
  cases has st Status.rrdy <;> cases has st Status.e <;> decide

theorem countP_timeoutTx_pos (ops : List Op) :
    0 < ops.countP Op.isTimeoutTx ↔ ∃ now, .timeoutTx now ∈ ops := by
  rw [List.countP_pos_iff]
  constructor
  · rintro ⟨op, hmem, hop⟩
    cases op with
    | timeoutTx now => exact ⟨now, hmem⟩
    | read addr | write now addr val | receive now buf | timeoutRx | reset now input => cases hop
  · rintro ⟨now, hmem⟩
    exact ⟨_, hmem, rfl⟩

theorem countP_timeoutRx_pos (ops : List Op) :
    0 < ops.countP Op.isTimeoutRx ↔ .timeoutRx ∈ ops := by
  rw [List.countP_pos_iff]
  constructor
  · rintro ⟨op, hmem, hop⟩
    cases op with
    | timeoutRx => exact hmem
    | read addr | write now addr val | receive now buf | timeoutTx now | reset now input =>
        cases hop
  · intro hmem
    exact ⟨_, hmem, rfl⟩

theorem quiet_iff (st : Word) (ops : List Op) :
    Quiet st ops ↔ (0 < ops.countP Op.isTimeoutTx → txRank st = 2) ∧
      (0 < ops.countP Op.isTimeoutRx → rxRank st = 2) := by
  rw [txRank_eq_two, rxRank_eq_two, countP_timeoutTx_pos, countP_timeoutRx_pos, forall_exists_index]
  rfl

theorem unroe_eventStatus_of_quiet {st : Word} {op : Op} {ops : List Op}
    (h : Quiet st (op :: ops)) : unroe (op.eventStatus st) = unroe st := by
  cases op with
  | timeoutTx now =>
    obtain ⟨htmt, htrdy⟩ := h.1 now (by simp)
    rw [Op.eventStatus, if_pos htrdy, or_bit_of_has htmt]
  | timeoutRx =>
    obtain ⟨hrrdy, he⟩ := h.2 (by simp)
    have hroe : unroe Status.roe = 0#32 := by decide
    have hbit : unroe Status.e = Status.e := by decide
    rw [Op.eventStatus, if_pos hrrdy, unroe_or, unroe_or, hroe, BitVec.or_zero, hbit]
    exact or_bit_of_has ((has_unroe st (by decide)).trans he)
  | read addr | write now addr val | receive now buf | reset now input => rfl

theorem unroe_foldl_iff (st : Word) (ops : List Op) :
    unroe (ops.foldl Op.eventStatus st) = unroe st ↔ Quiet st ops := by
  constructor
  · intro h
    have htx := congrArg txRank h
    have hrx := congrArg rxRank h
    rw [txRank_unroe, txRank_unroe, txRank_foldl] at htx
    rw [rxRank_unroe, rxRank_unroe, rxRank_foldl] at hrx
    rw [quiet_iff]
    omega
  · induction ops generalizing st with
    | nil => exact fun _ => rfl
    | cons op ops ih =>
      intro h
      have hstep := unroe_eventStatus_of_quiet h
      rw [List.foldl_cons, ih _ ?_, hstep]
      -- what makes the rest quiet is the same before and after the first event
      rw [quiet_iff, ← txRank_unroe, ← rxRank_unroe, hstep, txRank_unroe, rxRank_unroe]
      rw [quiet_iff, List.countP_cons, List.countP_cons] at h
      omega

def Access.Sound : Access → Prop
  | .write addr val => Reg.ofAddr addr = some .status → Uart.Sound val
  | .read _ => True

def AnswerSound : (o : Access) → accesses.Res o → Prop
  | .read addr, v => Reg.ofAddr addr = some .status → Uart.Sound v
  | .write _ _, _ => True

theorem Sound.next_write {s : UartState} {now addr : Nat} {val : Word} (h : Sound s.status)
    (hval : Reg.ofAddr addr = some .status → Sound val) :
    Sound (Op.next s (.write now addr val)).status := by
  simp only [Op.next]
  cases hreg : Reg.ofAddr addr with
  | none => exact h
  | some r =>
    cases r with
    | txdata =>
      dsimp only
      repeat' split
      · exact sound_withE _
      · exact h.clear (by decide) (by decide)
      · exact sound_withE _
    | status => exact hval hreg
    | rxdata | control | divisor => exact h

theorem Sound.next_read {s : UartState} (h : Sound s.status) (addr : Nat) :
    Sound (Op.next s (.read addr)).status := by
  simp only [Op.next]
  split
  · exact h.clear (by decide) (by decide)
  · exact h

theorem call_guards {p : Driver.DriverM Unit} (h : Driver.Call p) :
    p.Guards Access.Sound AnswerSound := by
  cases h with
  | init =>
    refine ⟨fun h => ?_, fun _ _ => ⟨fun h => ?_, fun _ _ => trivial⟩⟩ <;> simp [Reg.ofAddr] at h
  | printf s =>
    induction s with
    | nil => trivial
    | cons c s ih =>
      rw [Driver.uartPrintf]
      split
      · refine ⟨trivial, fun _ _ _ => ⟨fun h => ?_, fun _ _ => ih⟩⟩
        simp [Reg.ofAddr] at h
      · trivial
  | getchar => exact ⟨trivial, fun _ _ _ => ⟨trivial, fun _ _ => trivial⟩⟩
  | clearInterrupt => exact ⟨trivial, fun v hv => ⟨fun h => (hv h).unroe, fun _ _ => trivial⟩⟩

theorem driver_keeps (ι : Type) :
    (driver ι).Keeps (fun s => Sound s.status) Access.Sound AnswerSound where
  menu h := call_guards h
  handle := by
    intro s o r t hs hpre h
    cases o with
    | read addr =>
      obtain ⟨rfl, rfl⟩ := access_read.mp h
      refine ⟨fun hreg => ?_, hs.next_read addr⟩
      simpa [readValue, hreg] using hs
    | write addr val =>
      obtain ⟨now, rfl⟩ := access_write (r := ()) h
      exact ⟨trivial, hs.next_write hpre⟩
  env := by
    rintro s op t hs ⟨hop, out, hstep⟩
    obtain ⟨-, -, rfl, -⟩ := step_iff.mp hstep
    exact hs.next_event hop

def ClearsWith (s : UartState) (tr : Trace) (t : UartState) : Prop :=
  ∃ p s' s₁, Answers access Driver.uartClearInterrupt s p s' ∧ events.Run s' tr s₁ ∧
    Answers access p s₁ (.ret ()) t

theorem uartClearInterrupt_eq : Driver.uartClearInterrupt =
    .call (S := accesses) (.read 0x08) fun v : Word =>
      .call (S := accesses) (.write 0x08 (v &&& ~~~Status.roe)) .ret := rfl

theorem ClearsWith.elim {s t : UartState} {tr : Trace} (h : ClearsWith s tr t) :
    ∃ s₁, events.Run s tr s₁ ∧ t = { s₁ with status := unroe s.status }.recheck := by
  obtain ⟨_, _, s₁, ⟨o, k, v, hp, hread, rfl⟩, hrun, o', k', r, hp', hwrite, -⟩ := h
  rw [uartClearInterrupt_eq] at hp
  cases hp
  obtain ⟨rfl, rfl⟩ := access_read.mp hread
  cases hp'
  obtain ⟨now, rfl⟩ := access_write hwrite
  exact ⟨s₁, hrun, rfl⟩

/-- In every state that any number of contexts calling the driver can reach, the
acknowledge is linearizable exactly if the window between its accesses is quiet. -/
theorem acknowledge_linearizable_iff {ι : Type} [DecidableEq ι] {now : Nat} {input : List Byte}
    {s₀ t : UartState} {out : List Effect} {c : Config accesses UartState ι}
    {dtr : List (Event (Config accesses UartState ι) (Label accesses ι Op) Empty)} {tr : Trace}
    (hreset : uartReset now input uartInit = some ((), s₀, out))
    (hreach : (driver ι).system.Run (.idle s₀) dtr c) (hclear : ClearsWith c.world tr t) :
    Linearizable c.world tr t ↔ Quiet c.world.status (tr.map Event.op) := by
  have hinit : Sound s₀.status := by
    obtain ⟨rfl, -⟩ := uartReset_eq_some hreset
    have hst : (Op.next uartInit (.reset now input)).status = Status.trdy ||| Status.tmt := by
      cases input <;> rfl
    rw [hst]
    exact fun h => absurd h (by decide)
  have hsound := ((driver_keeps ι).run hinit hreach).1
  obtain ⟨s₁, hrun, rfl⟩ := hclear.elim
  obtain ⟨hs₁, hops⟩ := run_events hrun
  rw [linearizable_iff_status hsound hrun, hs₁, status_runEvents hops hsound, unroe_foldl_iff]

def initialised : UartState :=
  Op.next (Op.next (Op.next uartInit (.reset 0 [])) (.write 0 0x0C Driver.iroe))
    (.write 0 0x10 1000#32)

def printed : UartState := Op.next initialised (.write 0 0x04 0x61#32)

theorem printed_reachable :
    ∃ dtr, (driver Unit).system.Run (.idle (Op.next uartInit (.reset 0 []))) dtr
      ⟨printed, fun _ => .ret ()⟩ := by
  have hinit : Exec access Driver.uartInit (Op.next uartInit (.reset 0 [])) ()
      initialised :=
    .call (r := ()) (access_write_next 0 (by decide))
      (.call (r := ()) (access_write_next 0 (by decide)) .ret)
  have hprintf : Exec access (Driver.uartPrintf [0x61#8]) initialised () printed :=
    .pass (access_read.mpr ⟨rfl, rfl⟩) rfl (.call (r := ()) (access_write_next 0 (by decide)) .ret)
  obtain ⟨tr₁, h₁⟩ :=
    Threads.run_of_menu (M := driver Unit) () (fun _ => .ret ()) rfl Driver.Call.init hinit
  obtain ⟨tr₂, h₂⟩ :=
    Threads.run_of_menu (M := driver Unit) () (fun _ => .ret ()) rfl (Driver.Call.printf _) hprintf
  exact ⟨_, h₁.trans h₂⟩

theorem clearsWith_next {s s₁ : UartState} {tr : Trace} (h : events.Run s tr s₁) :
    ClearsWith s tr { s₁ with status := unroe s.status }.recheck :=
  ⟨_, s, s₁, ⟨_, _, _, rfl, access_read.mpr ⟨rfl, rfl⟩, rfl⟩, h,
    _, _, (), rfl, access_write_next 0 (by simp [Op.Traps, Reg.ofAddr]), rfl⟩

/-- The expiry of the transmitter's timer falls between the read and the write: TMT is
written back as 0 with no timer pending. -/
theorem acknowledge_wedges : ∃ s₀ out dtr c tr t,
    uartReset 0 [] uartInit = some ((), s₀, out) ∧
    (driver Unit).system.Run (.idle s₀) dtr c ∧ ClearsWith c.world tr t ∧
    (has t.status Status.tmt = false ∧ t.timers.pending .tx = false) ∧
    ¬ Linearizable c.world tr t := by
  obtain ⟨dtr, hreach⟩ := printed_reachable
  have hrun : events.Run printed _ _ := .replay printed [.timeoutTx 95652172] rfl (by decide)
  refine ⟨_, _, dtr, _, _, _, (rfl : uartReset 0 [] uartInit = _), hreach, clearsWith_next hrun,
    by decide, ?_⟩
  rw [linearizable_iff_status (fun h => absurd h (by decide)) hrun]
  decide

theorem acknowledge_linearizable_receive : ∃ s₀ out dtr c tr t,
    uartReset 0 [] uartInit = some ((), s₀, out) ∧
    (driver Unit).system.Run (.idle s₀) dtr c ∧ ClearsWith c.world tr t ∧
    tr.map Event.op = [.receive 7 0x62#8] ∧ Linearizable c.world tr t := by
  obtain ⟨dtr, hreach⟩ := printed_reachable
  have hrun : events.Run printed _ _ := .replay printed [.receive 7 0x62#8] rfl (by decide)
  have hclear := clearsWith_next hrun
  refine ⟨_, _, dtr, _, _, _, (rfl : uartReset 0 [] uartInit = _), hreach, hclear, rfl, ?_⟩
  refine (acknowledge_linearizable_iff (rfl : uartReset 0 [] uartInit = _) hreach hclear).mpr ?_
  exact ⟨by simp, by simp⟩

end QemuBoard.Uart
