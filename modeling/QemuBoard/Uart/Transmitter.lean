import QemuBoard.Uart.DeviceLaws

namespace QemuBoard.Uart

open Library UartState

/-- The part of the device that a transmission goes through, as a machine of its own. -/
structure Tx where
  tmt : Bool
  trdy : Bool
  toe : Bool
  pending : Bool
  shift : Byte
  hold : Byte

namespace Tx

def write (v : Tx) (b : Byte) : Tx :=
  if v.tmt then { v with tmt := false, trdy := true, pending := true, shift := b, hold := b }
  else if v.trdy then { v with trdy := false, hold := b }
  else { v with toe := true, hold := b }

def expire (v : Tx) : Tx :=
  if v.trdy then { v with tmt := true, pending := false }
  else { v with tmt := false, trdy := true, pending := true, shift := v.hold }

def reset (v : Tx) : Tx := { v with tmt := true, trdy := true, toe := false, hold := 0#8 }

def inFlight (v : Tx) : List Byte :=
  (if v.tmt then [] else [v.shift]) ++ (if v.trdy then [] else [v.hold])

end Tx

theorem Tx.expire_trdy (v : Tx) : v.expire.trdy = true := by
  unfold Tx.expire
  split
  · assumption
  · rfl

structure TxWrite where
  trdy : Bool
  byte : Byte

/-- The written bytes in order, each with whether the next write overwrote it in
`txdata`, which is to say that TRDY was clear at the next write. -/
def marks : List TxWrite → List (Byte × Bool)
  | [] => []
  | [w] => [(w.byte, false)]
  | w :: w' :: ws => (w.byte, !w'.trdy) :: marks (w' :: ws)

def kept (ws : List TxWrite) : List Byte := ((marks ws).filter (fun m => !m.2)).map Prod.fst

def Overwritten (ws : List TxWrite) : Prop := ∃ m ∈ marks ws, m.2 = true

theorem marks_bytes (ws : List TxWrite) : (marks ws).map Prod.fst = ws.map TxWrite.byte := by
  fun_induction marks ws with
  | case1 => rfl
  | case2 w => rfl
  | case3 w w' ws ih => simpa using ih

theorem marks_concat (ws : List TxWrite) (u w : TxWrite) :
    marks (ws ++ [u, w]) = (marks (ws ++ [u])).dropLast ++
      [(u.byte, !w.trdy), (w.byte, false)] := by
  induction ws with
  | nil => rfl
  | cons x ws ih =>
    cases ws with
    | nil => rfl
    | cons y ws =>
      have hne : marks (y :: (ws ++ [u])) ≠ [] := by cases ws <;> simp [marks]
      simp only [List.cons_append, marks] at ih ⊢
      rw [ih, List.dropLast_cons_of_ne_nil hne, List.cons_append]

theorem marks_last (ws : List TxWrite) (u : TxWrite) :
    marks (ws ++ [u]) = (marks (ws ++ [u])).dropLast ++ [(u.byte, false)] := by
  rcases List.eq_nil_or_concat ws with rfl | ⟨ws, x, rfl⟩
  · rfl
  · rw [List.concat_eq_append, List.append_assoc, List.singleton_append, marks_concat]
    simp [List.dropLast_append_of_ne_nil]

theorem kept_ready (ws : List TxWrite) {w : TxWrite} (h : w.trdy = true) :
    kept (ws ++ [w]) = kept ws ++ [w.byte] := by
  rcases List.eq_nil_or_concat ws with rfl | ⟨ws, u, rfl⟩
  · rfl
  · rw [List.concat_eq_append, List.append_assoc, List.singleton_append, kept, kept, marks_concat,
      marks_last ws u]
    simp [h]

theorem kept_busy {ws : List TxWrite} (hne : ws ≠ []) {w : TxWrite} (h : w.trdy = false) :
    kept (ws ++ [w]) = (kept ws).dropLast ++ [w.byte] := by
  rcases List.eq_nil_or_concat ws with rfl | ⟨ws, u, rfl⟩
  · exact absurd rfl hne
  · rw [List.concat_eq_append, List.append_assoc, List.singleton_append, kept, kept, marks_concat,
      marks_last ws u]
    simp [h]

theorem overwritten_concat {ws : List TxWrite} (hne : ws ≠ []) (w : TxWrite) :
    Overwritten (ws ++ [w]) ↔ Overwritten ws ∨ w.trdy = false := by
  rcases List.eq_nil_or_concat ws with rfl | ⟨ws, u, rfl⟩
  · exact absurd rfl hne
  · rw [List.concat_eq_append, List.append_assoc, List.singleton_append, Overwritten, Overwritten,
      marks_concat, marks_last ws u]
    simp [or_and_right, exists_or]

structure Tx.Queue (v : Tx) (ws : List TxWrite) (out : List Byte) : Prop where
  busy : v.tmt = false ↔ v.pending = true
  holding : v.trdy = false → v.tmt = false
  bytes : out ++ v.inFlight = kept ws
  overrun : v.toe = true ↔ Overwritten ws

theorem Tx.Queue.ne_nil {v : Tx} {ws : List TxWrite} {out : List Byte} (h : v.Queue ws out)
    (hv : v.tmt = false) : ws ≠ [] := by
  rintro rfl
  have := h.bytes
  simp [Tx.inFlight, hv, kept, marks] at this

theorem Tx.Queue.write {v : Tx} {ws : List TxWrite} {out : List Byte} (h : v.Queue ws out)
    (b : Byte) : (v.write b).Queue (ws ++ [⟨v.trdy, b⟩]) out := by
  have hb := h.bytes
  unfold Tx.inFlight at hb
  cases htmt : v.tmt with
  | true =>
    -- the shift register is free, so nothing waits in txdata either
    have htrdy : v.trdy = true := by
      cases ht : v.trdy with
      | true => rfl
      | false => simp [h.holding ht] at htmt
    have hw : Overwritten (ws ++ [⟨true, b⟩]) ↔ Overwritten ws := by
      by_cases hne : ws = []
      · simp [hne, Overwritten, marks]
      · simp [overwritten_concat hne]
    simp only [htmt, htrdy, if_true, List.append_nil] at hb
    constructor
    · simp [Tx.write, htmt]
    · simp [Tx.write, htmt]
    · simp [Tx.write, htmt, Tx.inFlight, htrdy, kept_ready, hb]
    · simpa [Tx.write, htmt, htrdy, hw] using h.overrun
  | false =>
    have hne := h.ne_nil htmt
    cases htrdy : v.trdy with
    | true =>
      simp only [htmt, htrdy, if_true, Bool.false_eq_true, if_false, List.append_nil] at hb
      constructor
      · simpa [Tx.write, htmt, htrdy] using h.busy
      · simp [Tx.write, htmt, htrdy]
      · simp [Tx.write, htmt, Tx.inFlight, htrdy, kept_ready, ← hb]
      · simpa [Tx.write, htmt, htrdy, overwritten_concat hne] using h.overrun
    | false =>
      simp only [htmt, htrdy, Bool.false_eq_true, if_false] at hb
      constructor
      · simpa [Tx.write, htmt, htrdy] using h.busy
      · simp [Tx.write, htmt, htrdy]
      · simp [Tx.write, htmt, Tx.inFlight, htrdy, kept_busy hne, ← hb,
          List.dropLast_append_of_ne_nil]
      · simp [Tx.write, htmt, htrdy, overwritten_concat hne]

theorem Tx.Queue.expire {v : Tx} {ws : List TxWrite} {out : List Byte} (h : v.Queue ws out)
    (hp : v.pending = true) : v.expire.Queue ws (out ++ [v.shift]) := by
  have hb := h.bytes
  have htmt := h.busy.mpr hp
  cases htrdy : v.trdy with
  | true | false =>
    constructor
    · simp [Tx.expire, htrdy]
    · simp [Tx.expire, htrdy]
    · simpa [Tx.expire, htrdy, Tx.inFlight, htmt] using hb
    · simpa [Tx.expire, htrdy] using h.overrun

theorem Tx.Queue.overwritten_write {v : Tx} {ws : List TxWrite} {out : List Byte}
    (h : v.Queue ws out) (b : Byte) :
    Overwritten (ws ++ [⟨v.trdy, b⟩]) ↔ Overwritten ws ∨ v.trdy = false := by
  rw [← (h.write b).overrun, ← h.overrun, Tx.write]
  cases htmt : v.tmt with
  | true =>
    have htrdy : v.trdy ≠ false := fun ht => by simp [h.holding ht] at htmt
    simp [htrdy]
  | false => cases htrdy : v.trdy <;> simp

@[simps] def UartState.tx (s : UartState) : Tx where
  tmt := has s.status Status.tmt
  trdy := has s.status Status.trdy
  toe := has s.status Status.toe
  pending := s.timers.pending .tx
  shift := s.txShiftRegister
  hold := s.txdata.setWidth 8

theorem tx_loadShift (s : UartState) (now : Nat) :
    (s.loadShift now).tx =
      { s.tx with tmt := false, trdy := true, pending := true, shift := s.txdata.setWidth 8 } := by
  simp [tx]

inductive TxAct
  | write (b : Byte)
  | expire

def Tx.act (v : Tx) : Option TxAct → Tx
  | none => v
  | some (.write b) => v.write b
  | some .expire => v.expire

def Op.txAct? : Op → Option TxAct
  | .write _ addr val =>
    if Reg.ofAddr addr = some .txdata then some (.write (val.setWidth 8)) else none
  | .timeoutTx _ => some .expire
  | .read _ | .receive _ _ | .timeoutRx | .reset _ _ => none

/-- The device simulates the abstract transmitter; nothing on the receive side, no
read and no other register moves it. -/
theorem next_tx {s : UartState} {op : Op} (h : op.Steady) :
    (op.next s).tx = s.tx.act op.txAct? := by
  cases op with
  | read addr =>
    simp only [Op.next, Op.txAct?, Tx.act]
    split <;> simp [tx]
  | write now addr val =>
    simp only [Op.next, Op.txAct?]
    cases hreg : Reg.ofAddr addr with
    | none => simp [Tx.act]
    | some r =>
      cases r with
      | txdata =>
        simp only [Tx.act, Tx.write, tx_tmt, tx_trdy, if_true]
        split
        · rw [tx_loadShift]
          rfl
        · split
          · simp [tx, *]
          · simp [tx, *]
      | status => exact absurd hreg h
      | rxdata | control | divisor => simp [Tx.act, tx]
  | receive now buf =>
    simp only [Op.next, Op.txAct?, Tx.act]
    split <;> simp [tx]
  | timeoutRx =>
    simp only [Op.next, Op.txAct?, Tx.act]
    split <;> simp [tx]
  | timeoutTx now =>
    simp only [Op.next, Op.txAct?, Tx.act, Tx.expire, tx_trdy]
    split
    · simp [tx, *]
    · rw [tx_loadShift]
      simp [tx]
  | reset now input => exact h.elim

def Tx.emit (v : Tx) : TxAct → List Byte
  | .write _ => []
  | .expire => [v.shift]

theorem emitted_txAct (s : UartState) (op : Op) :
    emitted (op.log s) = op.txAct?.elim [] s.tx.emit := by
  rw [emitted_log]
  cases op with
  | write now addr val =>
    by_cases h : Reg.ofAddr addr = some .txdata <;> simp [Op.txAct?, h, Tx.emit]
  | read addr | receive now buf | timeoutRx | timeoutTx now | reset now input => rfl

def sent (tr : Trace) : List Byte := emitted (tr.flatMap Event.out)

def txWrite? (e : Event UartState Op Effect) : Option TxWrite :=
  match e.op.txAct? with
  | some (.write b) => some ⟨has e.pre.status Status.trdy, b⟩
  | some .expire | none => none

def txWrites (tr : Trace) : List TxWrite := tr.filterMap txWrite?

theorem txWrites_snoc (tr : Trace) (e : Event UartState Op Effect) :
    txWrites (tr ++ [e]) = txWrites tr ++ (txWrite? e).toList := by
  cases h : txWrite? e <;> simp [txWrites, List.filterMap_append, h]

theorem sent_snoc (tr : Trace) (s : UartState) (op : Op) :
    sent (tr ++ [⟨s, op, op.log s⟩]) =
      sent tr ++ match op.txAct? with | some .expire => [s.txShiftRegister] | _ => [] := by
  simp only [sent, List.flatMap_append, emitted_append, List.flatMap_singleton, emitted_log]
  cases op with
  | write now addr val => by_cases h : Reg.ofAddr addr = some .txdata <;> simp [Op.txAct?, h]
  | read addr | receive now buf | timeoutRx | timeoutTx now | reset now input => rfl

theorem pending_of_expire {s : UartState} {op : Op} (h : op.Guard s)
    (ha : op.txAct? = some .expire) : s.timers.pending .tx = true := by
  cases op with
  | timeoutTx now => exact h
  | write now addr val =>
    by_cases hr : Reg.ofAddr addr = some .txdata <;> simp [Op.txAct?, hr] at ha
  | read addr | receive now buf | timeoutRx | reset now input => simp [Op.txAct?] at ha

theorem run_queue {s t : UartState} {tr : Trace} (h : (device.restrict Op.Plain).Run s tr t)
    (h₀ : s.tx.Queue [] []) : t.tx.Queue (txWrites tr) (sent tr) := by
  induction h with
  | nil => exact h₀
  | @snoc tr t op out u _ hstep ih =>
    obtain ⟨hplain, hdev⟩ := hstep
    obtain ⟨hguard, -, rfl, rfl⟩ := step_iff.mp hdev
    rw [next_tx hplain.steady, sent_snoc, txWrites_snoc]
    cases hact : op.txAct? with
    | none => simpa [txWrite?, hact, Tx.act] using ih
    | some a =>
      cases a with
      | write b => simpa [txWrite?, hact, Tx.act] using ih.write b
      | expire => simpa [txWrite?, hact, Tx.act] using ih.expire (pending_of_expire hguard hact)

def txBytes (tr : Trace) : List Byte :=
  tr.filterMap fun e =>
    match e.op with
    | .write _ addr val => if Reg.ofAddr addr = some .txdata then some (val.setWidth 8) else none
    | _ => none

theorem txWrites_bytes (tr : Trace) : (txWrites tr).map TxWrite.byte = txBytes tr := by
  simp only [txWrites, txBytes, List.map_filterMap]
  congr 1
  funext e
  obtain ⟨s, op, out⟩ := e
  cases op with
  | write now addr val =>
    by_cases h : Reg.ofAddr addr = some .txdata <;> simp [txWrite?, Op.txAct?, h]
  | read addr | receive now buf | timeoutRx | timeoutTx now | reset now input => rfl

theorem kept_of_not_overwritten {ws : List TxWrite} (h : ¬ Overwritten ws) :
    kept ws = ws.map TxWrite.byte := by
  rw [← marks_bytes, kept, List.filter_eq_self.mpr]
  intro m hm
  simpa using fun hm' => h ⟨m, hm, hm'⟩

theorem reset_tx (s : UartState) (now : Nat) (input : List Byte) :
    (Op.next s (.reset now input)).tx = s.tx.reset := by
  cases input <;> simp [Op.next, tx, Tx.reset]

theorem queue_reset {s : UartState} {now : Nat} {input : List Byte}
    (h : (Op.next s (.reset now input)).timers.pending .tx = false) :
    (Op.next s (.reset now input)).tx.Queue [] [] := by
  have hp : s.tx.reset.pending = false := (reset_tx s now input) ▸ h
  rw [reset_tx]
  exact ⟨by simpa [Tx.reset] using hp, by simp [Tx.reset], rfl,
    by simp [Tx.reset, Overwritten, marks]⟩

/-- From a reset that finds the transmitter's timer idle, through any order of
accesses, received bytes and expirations. -/
theorem transmitter_queue {s s₀ t : UartState} {now : Nat} {input : List Byte} {out : List Effect}
    {tr : Trace} (hclk : s.clkFreq = Uart.clkFreq)
    (hreset : uartReset now input s = some ((), s₀, out)) (hidle : s₀.timers.pending .tx = false)
    (hrun : (device.restrict Op.Plain).Run s₀ tr t) :
    (has t.status Status.tmt = false ↔ t.timers.pending .tx = true) ∧
    (has t.status Status.trdy = false → has t.status Status.tmt = false) ∧
    (sent tr ++ (if has t.status Status.tmt then [] else [t.txShiftRegister]) ++
      (if has t.status Status.trdy then [] else [t.txdata.setWidth 8]) = kept (txWrites tr)) ∧
    (marks (txWrites tr)).map Prod.fst = txBytes tr ∧
    (has t.status Status.toe = true ↔ ∃ m ∈ marks (txWrites tr), m.2 = true) ∧
    (has t.status Status.toe = false →
      sent tr ++ (if has t.status Status.tmt then [] else [t.txShiftRegister]) ++
        (if has t.status Status.trdy then [] else [t.txdata.setWidth 8]) = txBytes tr) ∧
    ∀ op : Op, op.Plain → op.Guard t → ∃ out u, device.step t op out u := by
  obtain ⟨rfl, -⟩ := uartReset_eq_some hreset
  have hq := run_queue hrun (queue_reset hidle)
  have hbytes : (marks (txWrites tr)).map Prod.fst = txBytes tr :=
    (marks_bytes _).trans (txWrites_bytes tr)
  refine ⟨hq.busy, hq.holding, (List.append_assoc _ _ _).trans hq.bytes, hbytes, hq.overrun, ?_, ?_⟩
  · intro htoe
    have hnot : ¬ Overwritten (txWrites tr) := fun h =>
      Bool.false_ne_true (htoe.symm.trans (hq.overrun.mpr h))
    rw [← txWrites_bytes, ← kept_of_not_overwritten hnot, ← hq.bytes, List.append_assoc]
    rfl
  · intro op hop hguard
    refine hop.validDivisor.step ?_ hguard
    rw [run_clkFreq (hrun.mono And.right), next_clkFreq, hclk]

theorem transmitter_queue_overrun : ∃ s₀ out tr t,
    uartReset 0 [] uartInit = some ((), s₀, out) ∧ s₀.timers.pending .tx = false ∧
    (device.restrict Op.Plain).Run s₀ tr t ∧ has t.status Status.toe = true ∧
    sent tr ++ (if has t.status Status.tmt then [] else [t.txShiftRegister]) ++
      (if has t.status Status.trdy then [] else [t.txdata.setWidth 8]) = [0x61#8, 0x63#8] := by
  have hrun : (device.restrict Op.Plain).Run _ _ _ :=
    .replay (Op.next uartInit (.reset 0 []))
      [.write 1 0x04 0x61#32, .write 2 0x04 0x62#32, .write 3 0x04 0x63#32, .timeoutTx 4]
      rfl (by decide)
  have h := transmitter_queue (s := uartInit) rfl (rfl : uartReset 0 [] uartInit = _) rfl hrun
  exact ⟨_, _, _, _, rfl, rfl, hrun, h.2.2.2.2.1.mpr (by decide), h.2.2.1.trans (by decide)⟩

end QemuBoard.Uart
