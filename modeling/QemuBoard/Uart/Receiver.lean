import QemuBoard.Library.Lanes
import QemuBoard.Uart.DeviceLaws

namespace QemuBoard.Uart

open Library UartState

/-- The part of the device that a received byte goes through: the shift register, then `rxdata`. -/
structure Rx where
  rrdy : Bool
  roe : Bool
  canReceive : Bool
  pending : Bool
  shift : Byte
  data : Byte

namespace Rx

def receive (v : Rx) (b : Byte) : Rx :=
  if v.canReceive then { v with canReceive := false, pending := true, shift := b } else v

def expire (v : Rx) : Rx :=
  { v with
    rrdy := true, roe := v.roe || v.rrdy, canReceive := true, pending := false, data := v.shift }

def read (v : Rx) : Rx := { v with rrdy := false }

end Rx

@[simps] def UartState.rx (s : UartState) : Rx where
  rrdy := has s.status Status.rrdy
  roe := has s.status Status.roe
  canReceive := s.canReceive
  pending := s.timers.pending .rx
  shift := s.rxShiftRegister
  data := s.rxdata.setWidth 8

inductive RxAct
  | receive (b : Byte)
  | expire
  | read

def Rx.act (v : Rx) : Option RxAct → Rx
  | none => v
  | some (.receive b) => v.receive b
  | some .expire => v.expire
  | some .read => v.read

def Op.rxAct? : Op → Option RxAct
  | .read addr => if Reg.ofAddr addr = some .rxdata then some .read else none
  | .receive _ buf => some (.receive buf)
  | .timeoutRx => some .expire
  | .write _ _ _ | .timeoutTx _ | .reset _ _ => none

/-- The device simulates the abstract receiver. -/
theorem next_rx {s : UartState} {op : Op} (h : op.Steady) :
    (op.next s).rx = s.rx.act op.rxAct? := by
  cases op with
  | read addr =>
    by_cases hreg : Reg.ofAddr addr = some .rxdata
    · simp [Op.next, Op.rxAct?, hreg, Rx.act, Rx.read, rx]
    · simp [Op.next, Op.rxAct?, hreg, Rx.act]
  | write now addr val =>
    simp only [Op.next, Op.rxAct?, Rx.act]
    cases hreg : Reg.ofAddr addr with
    | none => rfl
    | some r =>
      cases r with
      | txdata =>
        dsimp only
        repeat' split
        all_goals simp [rx]
      | status => exact absurd hreg h
      | rxdata | control | divisor => simp [rx]
  | receive now buf =>
    cases hc : s.canReceive <;> simp [Op.next, Op.rxAct?, Rx.act, Rx.receive, rx, hc]
  | timeoutRx =>
    simp only [Op.next, Op.rxAct?, Rx.act, Rx.expire]
    split <;> simp [rx, *]
  | timeoutTx now =>
    simp only [Op.next, Op.rxAct?, Rx.act]
    split <;> simp [rx]
  | reset now input => exact h.elim

def accepted (tr : Trace) : List Byte :=
  tr.filterMap fun e =>
    match e.op with
    | .receive _ buf => if e.pre.canReceive then some buf else none
    | _ => none

def transferred (tr : Trace) : List Byte :=
  tr.filterMap fun e =>
    match e.op with
    | .timeoutRx => some e.pre.rxShiftRegister
    | _ => none

def IsTransfer (e : Event UartState Op Effect) : Prop := e.op.rxAct? = some .expire

def IsRxRead (e : Event UartState Op Effect) : Prop := e.op.rxAct? = some .read

def Unread (tr : Trace) : Prop := Since (fun _ e => IsTransfer e) IsRxRead tr

def Lost (tr : Trace) : Prop := Since (fun pre e => IsTransfer e ∧ Unread pre) (fun _ => False) tr

def Effect.value? : Effect → Option Word
  | .value _ val => some val
  | _ => none

def readsReady (tr : Trace) : List Word :=
  tr.flatMap fun e =>
    match e.op.rxAct? with
    | some .read => if has e.pre.status Status.rrdy then e.out.filterMap Effect.value? else []
    | _ => []

def lastTransferred (tr : Trace) : Byte := (transferred tr).getLast?.getD 0#8

structure Rx.History (v : Rx) (tr : Trace) : Prop where
  busy : v.canReceive = false ↔ v.pending = true
  bytes : accepted tr = transferred tr ++ if v.pending then [v.shift] else []
  ready : v.rrdy = true ↔ Unread tr
  data : v.data = lastTransferred tr
  overrun : v.roe = true ↔ Lost tr
  order : v.roe = false →
    readsReady tr ++ (if v.rrdy then [v.data.setWidth 32] else []) =
      (transferred tr).map (BitVec.setWidth 32)

section Snoc

variable (tr : Trace) (s : UartState) (op : Op)

theorem accepted_snoc (out : List Effect) : accepted (tr ++ [⟨s, op, out⟩]) =
    accepted tr ++ match op.rxAct? with
      | some (.receive b) => if s.canReceive then [b] else []
      | _ => [] := by
  cases op with
  | receive now buf => cases h : s.canReceive <;> simp [accepted, Op.rxAct?, h]
  | read addr => by_cases h : Reg.ofAddr addr = some .rxdata <;> simp [accepted, Op.rxAct?, h]
  | write now addr val | timeoutRx | timeoutTx now | reset now input => simp [accepted, Op.rxAct?]

theorem transferred_snoc (out : List Effect) : transferred (tr ++ [⟨s, op, out⟩]) =
    transferred tr ++ match op.rxAct? with
      | some .expire => [s.rxShiftRegister]
      | _ => [] := by
  cases op with
  | read addr => by_cases h : Reg.ofAddr addr = some .rxdata <;> simp [transferred, Op.rxAct?, h]
  | receive now buf | write now addr val | timeoutRx | timeoutTx now | reset now input =>
    simp [transferred, Op.rxAct?]

theorem unread_snoc (out : List Effect) : Unread (tr ++ [⟨s, op, out⟩]) ↔
    match op.rxAct? with
      | some .expire => True
      | some .read => False
      | _ => Unread tr := by
  rw [Unread, since_snoc]
  simp only [IsTransfer, IsRxRead]
  split <;> simp_all [Unread, IsTransfer]

theorem lost_snoc (out : List Effect) : Lost (tr ++ [⟨s, op, out⟩]) ↔
    Lost tr ∨ (op.rxAct? = some .expire ∧ Unread tr) := by
  rw [Lost, since_snoc]
  simp only [IsTransfer, not_false_iff, true_and]
  exact or_comm

theorem values_clearLog (b : Word) : (s.clearLog b).filterMap Effect.value? = [] := by
  unfold clearLog
  split <;> rfl

variable {s op} in
theorem values_read (h : op.rxAct? = some .read) :
    (op.log s).filterMap Effect.value? = [(s.rxdata.setWidth 8).setWidth 32] := by
  cases op with
  | read addr =>
    by_cases hreg : Reg.ofAddr addr = some .rxdata
    · simp [hreg, Op.log, List.filterMap_append, values_clearLog, readValue, and_ff, Effect.value?]
    · simp [Op.rxAct?, hreg] at h
  | receive now buf | write now addr val | timeoutRx | timeoutTx now | reset now input =>
    simp [Op.rxAct?] at h

theorem readsReady_snoc : readsReady (tr ++ [⟨s, op, op.log s⟩]) =
    readsReady tr ++ match op.rxAct? with
      | some .read => if has s.status Status.rrdy then [(s.rxdata.setWidth 8).setWidth 32] else []
      | _ => [] := by
  simp only [readsReady, List.flatMap_append, List.flatMap_singleton]
  cases hact : op.rxAct? with
  | none => rfl
  | some a =>
    cases a with
    | read => simp [values_read hact]
    | receive b | expire => rfl

end Snoc

theorem rxPending_of_expire {s : UartState} {op : Op} (h : op.Guard s)
    (ha : op.rxAct? = some .expire) : s.timers.pending .rx = true := by
  cases op with
  | timeoutRx => exact h
  | read addr => by_cases hr : Reg.ofAddr addr = some .rxdata <;> simp [Op.rxAct?, hr] at ha
  | receive now buf | write now addr val | timeoutTx now | reset now input => simp [Op.rxAct?] at ha

section Step

variable {s : UartState} {tr : Trace} {op : Op}

theorem Rx.History.skip (h : s.rx.History tr)
    (hact : op.rxAct? = none ∨ ∃ b, op.rxAct? = some (.receive b) ∧ s.canReceive = false) :
    s.rx.History (tr ++ [⟨s, op, op.log s⟩]) := by
  have hacc : accepted (tr ++ [⟨s, op, op.log s⟩]) = accepted tr := by
    rcases hact with hact | ⟨b, hact, hc⟩
    · simp [accepted_snoc, hact]
    · simp [accepted_snoc, hact, hc]
  have htrans : transferred (tr ++ [⟨s, op, op.log s⟩]) = transferred tr := by
    rcases hact with hact | ⟨b, hact, -⟩ <;> simp [transferred_snoc, hact]
  have hunread : Unread (tr ++ [⟨s, op, op.log s⟩]) ↔ Unread tr := by
    rcases hact with hact | ⟨b, hact, -⟩ <;> simp [unread_snoc, hact]
  have hlost : Lost (tr ++ [⟨s, op, op.log s⟩]) ↔ Lost tr := by
    rcases hact with hact | ⟨b, hact, -⟩ <;> simp [lost_snoc, hact]
  have hreads : readsReady (tr ++ [⟨s, op, op.log s⟩]) = readsReady tr := by
    rcases hact with hact | ⟨b, hact, -⟩ <;> simp [readsReady_snoc, hact]
  constructor
  case busy => exact h.busy
  case bytes => rw [hacc, htrans, h.bytes]
  case ready => rw [hunread, h.ready]
  case data => rw [lastTransferred, htrans, h.data, lastTransferred]
  case overrun => rw [hlost, h.overrun]
  case order => rw [hreads, htrans]; exact h.order

theorem Rx.History.receive (h : s.rx.History tr) {b : Byte} (hact : op.rxAct? = some (.receive b))
    (hc : s.canReceive = true) :
    (s.rx.act (some (.receive b))).History (tr ++ [⟨s, op, op.log s⟩]) := by
  have hidle : s.timers.pending .rx = false := by
    cases hp : s.timers.pending .rx with
    | false => rfl
    | true => simpa [hc] using h.busy.mpr hp
  constructor
  case busy => simp [Rx.act, Rx.receive, hc]
  case bytes =>
    simpa [accepted_snoc, transferred_snoc, hact, hc, Rx.act, Rx.receive, hidle] using h.bytes
  case ready => simpa [unread_snoc, hact, Rx.act, Rx.receive, hc] using h.ready
  case data => simpa [lastTransferred, transferred_snoc, hact, Rx.act, Rx.receive, hc] using h.data
  case overrun => simpa [lost_snoc, hact, Rx.act, Rx.receive, hc] using h.overrun
  case order =>
    simpa [readsReady_snoc, transferred_snoc, hact, Rx.act, Rx.receive, hc] using h.order

theorem Rx.History.expire (h : s.rx.History tr) (hact : op.rxAct? = some .expire)
    (hp : s.timers.pending .rx = true) :
    (s.rx.act (some .expire)).History (tr ++ [⟨s, op, op.log s⟩]) := by
  have hready := h.ready
  have hover := h.overrun
  have horder := h.order
  simp only [rx_roe, rx_rrdy, rx_data] at hready hover horder
  constructor
  case busy => simp [Rx.act, Rx.expire]
  case bytes => simpa [accepted_snoc, transferred_snoc, hact, Rx.act, Rx.expire, hp] using h.bytes
  case ready => simp [unread_snoc, hact, Rx.act, Rx.expire]
  case data => simp [lastTransferred, transferred_snoc, hact, Rx.act, Rx.expire]
  case overrun => simp [lost_snoc, hact, Rx.act, Rx.expire, hover, hready]
  case order =>
    simp only [Rx.act, Rx.expire, rx_roe, rx_rrdy, Bool.or_eq_false_iff, readsReady_snoc,
      transferred_snoc, hact, List.append_nil, if_true, List.map_append]
    rintro ⟨hroe, hrrdy⟩
    simpa [hrrdy] using horder hroe

theorem Rx.History.read (h : s.rx.History tr) (hact : op.rxAct? = some .read) :
    (s.rx.act (some .read)).History (tr ++ [⟨s, op, op.log s⟩]) := by
  constructor
  case busy => exact h.busy
  case bytes => simpa [accepted_snoc, transferred_snoc, hact, Rx.act, Rx.read] using h.bytes
  case ready => simp [unread_snoc, hact, Rx.act, Rx.read]
  case data => simpa [lastTransferred, transferred_snoc, hact, Rx.act, Rx.read] using h.data
  case overrun => simpa [lost_snoc, hact, Rx.act, Rx.read] using h.overrun
  case order => simpa [readsReady_snoc, transferred_snoc, hact, Rx.act, Rx.read] using h.order

theorem Rx.History.step (h : s.rx.History tr) (hplain : op.Plain) (hguard : op.Guard s) :
    (op.next s).rx.History (tr ++ [⟨s, op, op.log s⟩]) := by
  rw [next_rx hplain.steady]
  cases hact : op.rxAct? with
  | none => exact h.skip (.inl hact)
  | some a =>
    cases a with
    | receive b =>
      cases hc : s.canReceive with
      | false =>
        have hsame : s.rx.act (some (.receive b)) = s.rx := by simp [Rx.act, Rx.receive, hc]
        rw [hsame]
        exact h.skip (.inr ⟨b, hact, hc⟩)
      | true => exact h.receive hact hc
    | expire => exact h.expire hact (rxPending_of_expire hguard hact)
    | read => exact h.read hact

end Step

theorem run_history {s t : UartState} {tr : Trace} (h : (device.restrict Op.Plain).Run s tr t)
    (h₀ : s.rx.History []) : t.rx.History tr := by
  induction h with
  | nil => exact h₀
  | snoc _ hstep ih =>
    obtain ⟨hplain, hdev⟩ := hstep
    obtain ⟨hguard, -, rfl, rfl⟩ := step_iff.mp hdev
    exact ih.step hplain hguard

/-- From a reset that finds the receiver's timer idle, through any order of accesses,
received bytes and expirations. -/
theorem receiver_delivers {s s₀ t : UartState} {now : Nat} {input : List Byte} {out : List Effect}
    {tr : Trace} (hclk : s.clkFreq = Uart.clkFreq)
    (hreset : uartReset now input s = some ((), s₀, out)) (hidle : s₀.timers.pending .rx = false)
    (hrun : (device.restrict Op.Plain).Run s₀ tr t) :
    (t.canReceive = false ↔ t.timers.pending .rx = true) ∧
    (accepted tr = transferred tr ++ if t.timers.pending .rx then [t.rxShiftRegister] else []) ∧
    (has t.status Status.rrdy = true ↔ Since (fun _ e => IsTransfer e) IsRxRead tr) ∧
    (∀ pre e post, tr = pre ++ e :: post → IsRxRead e →
      e.out.filterMap Effect.value? = [((transferred pre).getLast?.getD 0#8).setWidth 32]) ∧
    (has t.status Status.roe = true ↔
      ∃ pre e mid e' post, tr = pre ++ e :: (mid ++ e' :: post) ∧ IsTransfer e ∧ IsTransfer e' ∧
        ∀ x ∈ mid, ¬ IsRxRead x) ∧
    (has t.status Status.roe = false →
      readsReady tr ++ (if has t.status Status.rrdy then [t.rxdata &&& 0xFF#32] else []) ++
        (if t.timers.pending .rx then [t.rxShiftRegister.setWidth 32] else []) =
      (accepted tr).map (BitVec.setWidth 32)) ∧
    ∀ op : Op, op.Plain → op.Guard t → ∃ out u, device.step t op out u := by
  obtain ⟨rfl, -⟩ := uartReset_eq_some hreset
  have h₀ : (Op.next s (.reset now input)).rx.History [] := by
    cases input with
    | cons buf input => simp [Op.next] at hidle
    | nil =>
      have hp : s.timers.pending .rx = false := hidle
      constructor <;>
        simp [Op.next, hp, accepted, transferred, readsReady, lastTransferred, Unread, Lost]
  have hh := run_history hrun h₀
  refine ⟨hh.busy, hh.bytes, hh.ready, ?_, hh.overrun.trans ?_, ?_, ?_⟩
  · rintro pre e post rfl hread
    obtain ⟨hpre, u, -, hstep⟩ := hrun.split
    obtain ⟨-, -, -, hlog⟩ := step_iff.mp hstep
    rw [hlog, values_read hread]
    exact congrArg (fun b => [BitVec.setWidth 32 b]) (run_history hpre h₀).data
  · constructor
    · rintro ⟨_, e', post, rfl, ⟨he', pre, e, mid, rfl, he, hmid⟩, -⟩
      exact ⟨pre, e, mid, e', post, by simp, he, he', hmid⟩
    · rintro ⟨pre, e, mid, e', post, rfl, he, he', hmid⟩
      exact ⟨pre ++ e :: mid, e', post, by simp, ⟨he', pre, e, mid, rfl, he, hmid⟩, fun _ _ => id⟩
  · intro hroe
    have hbytes := hh.bytes
    simp only [rx_pending, rx_shift] at hbytes
    rw [and_ff, hbytes, List.map_append, ← hh.order hroe]
    cases t.timers.pending .rx <;> rfl
  · intro op hop hguard
    refine hop.validDivisor.step ?_ hguard
    rw [run_clkFreq (hrun.mono And.right), next_clkFreq, hclk]

theorem receiver_delivers_three : ∃ s₀ out tr t,
    uartReset 0 [] uartInit = some ((), s₀, out) ∧ s₀.timers.pending .rx = false ∧
    (device.restrict Op.Plain).Run s₀ tr t ∧ has t.status Status.roe = false ∧
    readsReady tr ++ (if has t.status Status.rrdy then [t.rxdata &&& 0xFF#32] else []) ++
      (if t.timers.pending .rx then [t.rxShiftRegister.setWidth 32] else []) =
    [0x61#32, 0x62#32, 0x63#32] := by
  have hrun : (device.restrict Op.Plain).Run _ _ _ :=
    .replay (Op.next uartInit (.reset 0 []))
      [.receive 1 0x61#8, .timeoutRx, .read 0x00, .receive 3 0x62#8, .timeoutRx, .receive 5 0x63#8]
      rfl (by decide)
  have h := receiver_delivers (s := uartInit) rfl (rfl : uartReset 0 [] uartInit = _) rfl hrun
  exact ⟨_, _, _, _, rfl, rfl, hrun, by decide, (h.2.2.2.2.2.1 (by decide)).trans (by decide)⟩

end QemuBoard.Uart
