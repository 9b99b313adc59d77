import QemuBoard.Uart.Interrupt
import QemuBoard.Uart.Receiver
import QemuBoard.Uart.Transmitter
import Mathlib.Logic.Function.Conjugate

namespace QemuBoard.Uart

open Library UartState

section Status

theorem withE_eq (x : Word) : withE x = x ||| if has x errorBits then Status.e else 0#32 := by
  unfold withE
  split <;> simp

theorem withE_withE_or (x c : Word) : withE (withE x ||| c) = withE (x ||| c) := by
  have hbits : has (withE x ||| c) errorBits = has (x ||| c) errorBits := by
    rw [has_or, has_or, has_withE (by decide)]
  rw [withE_eq (withE x ||| c), withE_eq (x ||| c), hbits, has_or]
  cases hx : has x errorBits with
  | false => rw [withE, hx, if_neg Bool.false_ne_true]
  | true =>
    rw [withE, hx, if_pos rfl, Bool.true_or, if_pos rfl]
    ac_rfl

def raise (b x : Word) : Word := withE (x ||| b)

def lower (b x : Word) : Word := x &&& ~~~b

theorem raise_comm (b c : Word) : Function.Commute (raise b) (raise c) := by
  intro x
  rw [raise, raise, withE_withE_or, raise, raise, withE_withE_or, BitVec.or_assoc, BitVec.or_comm c,
    ← BitVec.or_assoc]

theorem lower_comm (b c : Word) : Function.Commute (lower b) (lower c) := by
  intro x
  rw [lower, lower, lower, lower, BitVec.and_assoc, BitVec.and_comm (~~~c), ← BitVec.and_assoc]

theorem raise_lower_comm {b c : Word} (hb : b &&& ~~~c = b)
    (herr : errorBits &&& ~~~c = errorBits) (he : Status.e &&& ~~~c = Status.e) :
    Function.Commute (raise b) (lower c) := by
  intro x
  have hor : x &&& ~~~c ||| b = (x ||| b) &&& ~~~c := by rw [BitVec.and_or_distrib_right, hb]
  rw [raise, lower, lower, raise, hor, withE_eq, withE_eq (x ||| b), has_clear herr]
  split
  · rw [BitVec.and_or_distrib_right (x := x ||| b), he]
  · rw [BitVec.or_zero, BitVec.or_zero]

inductive TxUpdate : (Word → Word) → Prop
  | load : TxUpdate (raise Status.trdy ∘ lower Status.tmt)
  | hold : TxUpdate (lower Status.trdy)
  | overrun : TxUpdate (raise Status.toe)
  | done : TxUpdate (raise Status.tmt)

inductive RxUpdate : (Word → Word) → Prop
  | none : RxUpdate id
  | read : RxUpdate (lower Status.rrdy)
  | ready : RxUpdate (raise Status.rrdy)
  | overrun : RxUpdate (raise Status.roe)

/-- The two sides work on disjoint bits, and neither lowers an error bit or E. -/
theorem TxUpdate.comm {f g : Word → Word} (hf : TxUpdate f) (hg : RxUpdate g) :
    Function.Commute f g := by
  cases hg with
  | none => exact .id_right
  | read =>
    have hraise : ∀ {b}, b &&& ~~~Status.rrdy = b →
        Function.Commute (raise b) (lower Status.rrdy) :=
      fun hb => raise_lower_comm hb (by decide) (by decide)
    cases hf with
    | load => exact (hraise (by decide)).comp_left (lower_comm _ _)
    | hold => exact lower_comm _ _
    | overrun | done => exact hraise (by decide)
  | ready | overrun =>
    cases hf with
    | load =>
      exact (raise_comm _ _).comp_left
        (raise_lower_comm (by decide) (by decide) (by decide)).symm
    | hold => exact (raise_lower_comm (by decide) (by decide) (by decide)).symm
    | overrun | done => exact raise_comm _ _

end Status

def Op.IsTx (op : Op) : Prop := op.txAct?.isSome = true

def Op.IsRx (op : Op) : Prop := op.rxAct?.isSome = true

theorem isTx_iff {op : Op} : op.IsTx ↔
    (∃ now addr val, op = .write now addr val ∧ Reg.ofAddr addr = some .txdata) ∨
      ∃ now, op = .timeoutTx now := by
  cases op with
  | write now addr val =>
    by_cases h : Reg.ofAddr addr = some .txdata <;> simp [Op.IsTx, Op.txAct?, h]
  | read addr | receive now buf | timeoutRx | timeoutTx now | reset now input =>
    simp [Op.IsTx, Op.txAct?]

theorem isRx_iff {op : Op} : op.IsRx ↔
    (∃ addr, op = .read addr ∧ Reg.ofAddr addr = some .rxdata) ∨
      (∃ now buf, op = .receive now buf) ∨ op = .timeoutRx := by
  cases op with
  | read addr => by_cases h : Reg.ofAddr addr = some .rxdata <;> simp [Op.IsRx, Op.rxAct?, h]
  | write now addr val | receive now buf | timeoutRx | timeoutTx now | reset now input =>
    simp [Op.IsRx, Op.rxAct?]

structure TxView where
  tx : Tx
  txdata : Word
  charTxTime : Nat
  expiry : Option Nat

def UartState.txView (s : UartState) : TxView where
  tx := s.tx
  txdata := s.txdata
  charTxTime := s.charTxTime
  expiry := s.timers.expiry .tx

structure RxView where
  rx : Rx
  rxdata : Word
  charTxTime : Nat
  expiry : Option Nat

def UartState.rxView (s : UartState) : RxView where
  rx := s.rx
  rxdata := s.rxdata
  charTxTime := s.charTxTime
  expiry := s.timers.expiry .rx

theorem txView_of_isRx {b : Op} (hb : b.IsRx) (s : UartState) : (b.next s).txView = s.txView := by
  rcases isRx_iff.mp hb with ⟨addr, rfl, hreg⟩ | ⟨now, buf, rfl⟩ | rfl
  · simp [Op.next, hreg, txView, tx]
  · simp only [Op.next]
    split <;> simp [txView, tx]
  · simp only [Op.next]
    split <;> simp [txView, tx]

theorem rxView_of_isTx {a : Op} (ha : a.IsTx) (s : UartState) : (a.next s).rxView = s.rxView := by
  rcases isTx_iff.mp ha with ⟨now, addr, val, rfl, hreg⟩ | ⟨now, rfl⟩
  · simp only [Op.next, hreg]
    repeat' split
    all_goals simp [rxView, rx]
  · simp only [Op.next]
    split <;> simp [rxView, rx]

section Views

variable {s t : UartState}

theorem tmt_of_txView (h : s.txView = t.txView) :
    has s.status Status.tmt = has t.status Status.tmt :=
  congrArg (fun v : TxView => v.tx.tmt) h

theorem trdy_of_txView (h : s.txView = t.txView) :
    has s.status Status.trdy = has t.status Status.trdy :=
  congrArg (fun v : TxView => v.tx.trdy) h

theorem rrdy_of_rxView (h : s.rxView = t.rxView) :
    has s.status Status.rrdy = has t.status Status.rrdy :=
  congrArg (fun v : RxView => v.rx.rrdy) h

theorem txView_congr {a : Op} (ha : a.IsTx) (h : s.txView = t.txView) :
    (a.next s).txView = (a.next t).txView := by
  have htmt := tmt_of_txView h
  have htrdy := trdy_of_txView h
  simp only [txView, TxView.mk.injEq, tx, Tx.mk.injEq] at h
  rcases isTx_iff.mp ha with ⟨now, addr, val, rfl, hreg⟩ | ⟨now, rfl⟩
  · simp only [Op.next, hreg, htmt, htrdy]
    repeat' split
    all_goals simp [txView, tx, h]
  · simp only [Op.next, htrdy]
    split <;> simp [txView, tx, h]

theorem rxView_congr {b : Op} (hb : b.IsRx) (h : s.rxView = t.rxView) :
    (b.next s).rxView = (b.next t).rxView := by
  have hrrdy := rrdy_of_rxView h
  simp only [rxView, RxView.mk.injEq, rx, Rx.mk.injEq] at h
  rcases isRx_iff.mp hb with ⟨addr, rfl, hreg⟩ | ⟨now, buf, rfl⟩ | rfl
  · simp [Op.next, hreg, rxView, rx, h]
  · simp only [Op.next, h.1.2.2.1]
    split <;> simp [rxView, rx, h]
  · simp only [Op.next, hrrdy]
    split <;> simp [rxView, rx, h]

end Views

theorem txUpdate_of_isTx {a : Op} (ha : a.IsTx) (s : UartState) :
    ∃ f, TxUpdate f ∧ ∀ t : UartState, t.txView = s.txView → (a.next t).status = f t.status := by
  rcases isTx_iff.mp ha with ⟨now, addr, val, rfl, hreg⟩ | ⟨now, rfl⟩
  · cases hm : has s.status Status.tmt with
    | true =>
      refine ⟨_, .load, fun t h => ?_⟩
      simp [Op.next, hreg, tmt_of_txView h, hm, raise, lower]
    | false =>
      cases hr : has s.status Status.trdy with
      | true =>
        refine ⟨_, .hold, fun t h => ?_⟩
        simp [Op.next, hreg, tmt_of_txView h, hm, trdy_of_txView h, hr, lower]
      | false =>
        refine ⟨_, .overrun, fun t h => ?_⟩
        simp [Op.next, hreg, tmt_of_txView h, hm, trdy_of_txView h, hr, raise]
  · cases hr : has s.status Status.trdy with
    | true =>
      refine ⟨_, .done, fun t h => ?_⟩
      simp [Op.next, trdy_of_txView h, hr, raise]
    | false =>
      refine ⟨_, .load, fun t h => ?_⟩
      simp [Op.next, trdy_of_txView h, hr, raise, lower]

theorem rxUpdate_of_isRx {b : Op} (hb : b.IsRx) (s : UartState) :
    ∃ g, RxUpdate g ∧ ∀ t : UartState, t.rxView = s.rxView → (b.next t).status = g t.status := by
  rcases isRx_iff.mp hb with ⟨addr, rfl, hreg⟩ | ⟨now, buf, rfl⟩ | rfl
  · refine ⟨_, .read, fun t _ => ?_⟩
    simp [Op.next, hreg, lower]
  · refine ⟨_, .none, fun t _ => ?_⟩
    simp only [Op.next]
    split <;> rfl
  · cases hr : has s.status Status.rrdy with
    | true =>
      refine ⟨_, .overrun, fun t h => ?_⟩
      simp [Op.next, rrdy_of_rxView h, hr, raise]
    | false =>
      refine ⟨_, .ready, fun t h => ?_⟩
      simp [Op.next, rrdy_of_rxView h, hr, raise]

/-- The same registers, parameters and interrupt line, and the same expiries. Timers that expire
together may stand in either order in the list. -/
structure Same (s t : UartState) : Prop where
  expiry : ∀ i, s.timers.expiry i = t.timers.expiry i
  fields : { s with timers := t.timers } = t

def UartState.config (s : UartState) : Nat × Nat × Nat × Word × Word :=
  (s.clkFreq, s.baudrate, s.frameSize, s.control, s.divisor)

theorem config_next {op : Op} (h : op.IsTx ∨ op.IsRx) (s : UartState) :
    (op.next s).config = s.config := by
  rcases h with h | h
  · rcases isTx_iff.mp h with ⟨now, addr, val, rfl, hreg⟩ | ⟨now, rfl⟩
    · simp only [Op.next, hreg]
      repeat' split
      all_goals rfl
    · simp only [Op.next]
      split <;> rfl
  · rcases isRx_iff.mp h with ⟨addr, rfl, hreg⟩ | ⟨now, buf, rfl⟩ | rfl
    · simp only [Op.next, hreg, if_true]
      rfl
    · simp only [Op.next]
      split <;> rfl
    · simp only [Op.next]
      split <;> rfl

theorem Same.of_views {s t : UartState} (hs : Level s) (ht : Level t) (htx : s.txView = t.txView)
    (hrx : s.rxView = t.rxView) (hconf : s.config = t.config) (hstatus : s.status = t.status) :
    Same s t := by
  simp only [txView, TxView.mk.injEq, tx, Tx.mk.injEq] at htx
  simp only [rxView, RxView.mk.injEq, rx, Rx.mk.injEq] at hrx
  simp only [config, Prod.mk.injEq] at hconf
  constructor
  · intro i
    cases i with
    | rx => exact hrx.2.2.2
    | tx => exact htx.2.2.2
  · have hirq : s.irq = t.irq := by rw [hs, ht, hstatus, hconf.2.2.2.1]
    cases s
    cases t
    simp_all

theorem next_comm {a b : Op} (ha : a.IsTx) (hb : b.IsRx) {s : UartState} (hs : Level s) :
    Same (b.next (a.next s)) (a.next (b.next s)) := by
  have htx := txView_of_isRx hb s
  have hrx := rxView_of_isTx ha s
  apply Same.of_views ((hs.next a).next b) ((hs.next b).next a)
  · rw [txView_of_isRx hb]
    exact (txView_congr ha htx).symm
  · rw [rxView_of_isTx ha]
    exact rxView_congr hb hrx
  · simp only [config_next (.inl ha), config_next (.inr hb)]
  · obtain ⟨f, hf, hfa⟩ := txUpdate_of_isTx ha s
    obtain ⟨g, hg, hgb⟩ := rxUpdate_of_isRx hb s
    rw [hgb _ hrx, hfa s rfl, hfa _ htx, hgb s rfl]
    exact ((hf.comm hg) s.status).symm

def values (l : List Effect) : List Word := l.filterMap Effect.value?

@[simp] theorem values_nil : values [] = [] := rfl

@[simp] theorem values_cons (e : Effect) (l : List Effect) :
    values (e :: l) = e.value?.toList ++ values l := by
  cases e <;> rfl

@[simp] theorem values_append (l l' : List Effect) : values (l ++ l') = values l ++ values l' :=
  List.filterMap_append

@[simp] theorem values_setLog (s : UartState) (b : Word) : values (s.setLog b) = [] := by
  unfold setLog
  split <;> rfl

theorem values_log (s : UartState) (op : Op) :
    values (op.log s) = match op with | .read addr => [s.readValue addr] | _ => [] := by
  have hclear : ∀ (s : UartState) (b : Word), values (s.clearLog b) = [] := values_clearLog
  cases op with
  | read addr =>
    simp only [Op.log]
    split <;> simp [Effect.value?, hclear]
  | write now addr val =>
    simp only [Op.log]
    repeat' split
    all_goals simp [Effect.value?, recheckLog, paramsLog, loadLog, hclear]
  | receive now buf => simp only [Op.log]; split <;> simp [Effect.value?]
  | timeoutRx => simp only [Op.log]; split <;> simp
  | timeoutTx now => simp only [Op.log]; split <;> simp [Effect.value?, loadLog, hclear]
  | reset now input => simp only [Op.log]; split <;> simp [Effect.value?, paramsLog]

section Sides

variable {a b : Op} {s t : UartState}

theorem emitted_of_isRx (hb : b.IsRx) (s : UartState) : emitted (b.log s) = [] := by
  rw [emitted_log]
  rcases isRx_iff.mp hb with ⟨addr, rfl, hreg⟩ | ⟨now, buf, rfl⟩ | rfl <;> rfl

theorem values_of_isTx (ha : a.IsTx) (s : UartState) : values (a.log s) = [] := by
  rw [values_log]
  rcases isTx_iff.mp ha with ⟨now, addr, val, rfl, hreg⟩ | ⟨now, rfl⟩ <;> rfl

theorem emitted_congr (ha : a.IsTx) (h : s.txView = t.txView) :
    emitted (a.log s) = emitted (a.log t) := by
  rw [emitted_log, emitted_log]
  rcases isTx_iff.mp ha with ⟨now, addr, val, rfl, hreg⟩ | ⟨now, rfl⟩
  · rfl
  · exact congrArg (fun v : TxView => [v.tx.shift]) h

theorem values_congr (hb : b.IsRx) (h : s.rxView = t.rxView) :
    values (b.log s) = values (b.log t) := by
  rw [values_log, values_log]
  rcases isRx_iff.mp hb with ⟨addr, rfl, hreg⟩ | ⟨now, buf, rfl⟩ | rfl
  · simp only [readValue, hreg]
    exact congrArg (fun v : RxView => [v.rxdata &&& 0xFF#32]) h
  · rfl
  · rfl

theorem guard_of_isRx (ha : a.IsTx) (hb : b.IsRx) (h : a.Guard s) : a.Guard (b.next s) := by
  rcases isTx_iff.mp ha with ⟨now, addr, val, rfl, hreg⟩ | ⟨now, rfl⟩
  · trivial
  · exact (congrArg (fun v : TxView => v.tx.pending) (txView_of_isRx hb s)).trans h

theorem guard_of_isTx (ha : a.IsTx) (hb : b.IsRx) (h : b.Guard s) : b.Guard (a.next s) := by
  rcases isRx_iff.mp hb with ⟨addr, rfl, hreg⟩ | ⟨now, buf, rfl⟩ | rfl
  · trivial
  · trivial
  · exact (congrArg (fun v : RxView => v.rx.pending) (rxView_of_isTx ha s)).trans h

theorem not_traps (h : a.IsTx ∨ a.IsRx) (s : UartState) : ¬ a.Traps s := by
  rcases h with h | h
  · rcases isTx_iff.mp h with ⟨now, addr, val, rfl, hreg⟩ | ⟨now, rfl⟩
    · simp [Op.Traps, hreg]
    · exact not_false
  · rcases isRx_iff.mp h with ⟨addr, rfl, hreg⟩ | ⟨now, buf, rfl⟩ | rfl <;> exact not_false

end Sides

def txActs (tr : Trace) : List TxAct := tr.filterMap fun e => e.op.txAct?

def rxActs (tr : Trace) : List RxAct := tr.filterMap fun e => e.op.rxAct?

def rxValues (tr : Trace) : List Word :=
  tr.flatMap fun e =>
    match e.op.rxAct? with
    | some .read => values e.out
    | _ => []

def Rx.value (v : Rx) : RxAct → List Word
  | .read => [v.data.setWidth 32]
  | .receive _ | .expire => []

theorem values_rxAct (s : UartState) (op : Op) :
    (match op.rxAct? with | some .read => values (op.log s) | _ => []) =
      op.rxAct?.elim [] s.rx.value := by
  cases hact : op.rxAct? with
  | none => rfl
  | some a =>
    cases a with
    | read => exact values_read hact
    | receive b | expire => rfl

theorem Op.IsRx.txAct_none {op : Op} (h : op.IsRx) : op.txAct? = none := by
  rcases isRx_iff.mp h with ⟨addr, rfl, hreg⟩ | ⟨now, buf, rfl⟩ | rfl <;> rfl

theorem Op.IsTx.rxAct_none {op : Op} (h : op.IsTx) : op.rxAct? = none := by
  rcases isTx_iff.mp h with ⟨now, addr, val, rfl, hreg⟩ | ⟨now, rfl⟩ <;> rfl

theorem traps_congr {s t : UartState} (h : s.clkFreq = t.clkFreq) (op : Op) :
    op.Traps s ↔ op.Traps t := by
  cases op <;> simp [Op.Traps, h]

section Runs

variable {s t : UartState} {tr : Trace}

theorem run_sent (h : (device.restrict Op.Steady).Run s tr t) :
    sent tr = outputs (fun v a => v.act (some a)) Tx.emit s.tx (txActs tr) := by
  have hflat : sent tr = tr.flatMap fun e => emitted e.out := List.filterMap_flatMap
  rw [hflat]
  refine (h.outputs ?_).2
  rintro s op l t ⟨hsteady, hdev⟩
  obtain ⟨-, -, rfl, rfl⟩ := step_iff.mp hdev
  refine ⟨?_, emitted_txAct s op⟩
  rw [next_tx hsteady]
  cases op.txAct? <;> rfl

theorem run_rxValues (h : (device.restrict Op.Steady).Run s tr t) :
    rxValues tr = outputs (fun v a => v.act (some a)) Rx.value s.rx (rxActs tr) := by
  refine (h.outputs ?_).2
  rintro s op l t ⟨hsteady, hdev⟩
  obtain ⟨-, -, rfl, rfl⟩ := step_iff.mp hdev
  refine ⟨?_, values_rxAct s op⟩
  rw [next_rx hsteady]
  cases op.rxAct? <;> rfl

theorem run_without {ν : Type} (view : UartState → ν) (f : ν → Op → ν) (keep : Op → Bool)
    (h : (device.restrict Op.Steady).Run s tr t)
    (hnext : ∀ {s op}, Op.Steady op → view (op.next s) = f (view s) op)
    (hdrop : ∀ {v op}, keep op = false → f v op = v)
    (hguard : ∀ {s s' op}, keep op = true → view s = view s' → Op.Guard s op → Op.Guard s' op) :
    ∃ tr' t', (device.restrict Op.Steady).Run s tr' t' ∧
      tr'.map Event.op = (tr.map Event.op).filter keep := by
  have herase := h.erase (fun u u' => view u = view u' ∧ u.clkFreq = u'.clkFreq) keep
    ⟨rfl, rfl⟩ ?_ ?_
  · obtain ⟨tr', t', hrun, -, hops⟩ := herase
    exact ⟨tr', t', hrun, hops⟩
  · rintro s op out t s' ⟨hsteady, hdev⟩ hkeep ⟨hview, hclk⟩
    obtain ⟨-, -, rfl, -⟩ := step_iff.mp hdev
    rw [hnext hsteady, hdrop hkeep, next_clkFreq]
    exact ⟨hview, hclk⟩
  · rintro s op out t s' ⟨hsteady, hdev⟩ hkeep ⟨hview, hclk⟩
    obtain ⟨hg, htraps, rfl, -⟩ := step_iff.mp hdev
    have htraps' : ¬ op.Traps s' := fun h => htraps ((traps_congr hclk op).mpr h)
    refine ⟨_, _, ⟨hsteady, step_iff.mpr ⟨hguard hkeep hview hg, htraps', rfl, rfl⟩⟩, ?_, ?_⟩
    · rw [hnext hsteady, hnext hsteady, hview]
    · rw [next_clkFreq, next_clkFreq, hclk]

theorem run_withoutRx (h : (device.restrict Op.Steady).Run s tr t) : ∃ tr' t',
    (device.restrict Op.Steady).Run s tr' t' ∧
      tr'.map Event.op = (tr.map Event.op).filter (fun op => op.rxAct?.isNone) ∧
      sent tr' = sent tr := by
  have hdrop : ∀ {op : Op}, op.rxAct?.isNone = false → op.txAct? = none := fun hrx =>
    Op.IsRx.txAct_none (by simpa [Op.IsRx, Option.isSome_iff_ne_none] using hrx)
  have hguard : ∀ {s s' : UartState} {op : Op}, op.rxAct?.isNone = true → s.tx = s'.tx →
      op.Guard s → op.Guard s' := by
    intro s s' op hkeep htx hg
    cases op with
    | timeoutTx now => exact (congrArg Tx.pending htx).symm.trans hg
    | timeoutRx => simp [Op.rxAct?] at hkeep
    | read addr | write now addr val | receive now buf | reset now input => trivial
  obtain ⟨tr', t', hrun, hops⟩ := run_without UartState.tx (fun v op => v.act op.txAct?)
    (fun op => op.rxAct?.isNone) h next_tx (fun hrx => by rw [hdrop hrx, Tx.act]) hguard
  refine ⟨tr', t', hrun, hops, ?_⟩
  rw [run_sent hrun, run_sent h, txActs, txActs, System.filterMap_of_erase hops hdrop]

theorem run_withoutTx (h : (device.restrict Op.Steady).Run s tr t) : ∃ tr' t',
    (device.restrict Op.Steady).Run s tr' t' ∧
      tr'.map Event.op = (tr.map Event.op).filter (fun op => op.txAct?.isNone) ∧
      rxValues tr' = rxValues tr := by
  have hdrop : ∀ {op : Op}, op.txAct?.isNone = false → op.rxAct? = none := fun htx =>
    Op.IsTx.rxAct_none (by simpa [Op.IsTx, Option.isSome_iff_ne_none] using htx)
  have hguard : ∀ {s s' : UartState} {op : Op}, op.txAct?.isNone = true → s.rx = s'.rx →
      op.Guard s → op.Guard s' := by
    intro s s' op hkeep hrx hg
    cases op with
    | timeoutRx => exact (congrArg Rx.pending hrx).symm.trans hg
    | timeoutTx now => simp [Op.txAct?] at hkeep
    | read addr | write now addr val | receive now buf | reset now input => trivial
  obtain ⟨tr', t', hrun, hops⟩ := run_without UartState.rx (fun v op => v.act op.rxAct?)
    (fun op => op.txAct?.isNone) h next_rx (fun htx => by rw [hdrop htx, Rx.act]) hguard
  refine ⟨tr', t', hrun, hops, ?_⟩
  rw [run_rxValues hrun, run_rxValues h, rxActs, rxActs, System.filterMap_of_erase hops hdrop]

end Runs

/-- Events of the two sides commute, and without STATUS writes and resets neither side can tell
what happens on the other. -/
theorem full_duplex :
    (∀ (s : UartState) (a b : Op), Level s → a.IsTx → b.IsRx → a.Guard s → b.Guard s →
      ∃ l₁ u l₂ t m₁ v m₂ w,
        (device.step s a l₁ u ∧ device.step u b l₂ t) ∧
        (device.step s b m₁ v ∧ device.step v a m₂ w) ∧ Same t w ∧
        emitted (l₁ ++ l₂) = emitted (m₁ ++ m₂) ∧ values (l₁ ++ l₂) = values (m₁ ++ m₂)) ∧
    (∀ s tr t tr' t', (device.restrict Op.Steady).Run s tr t →
      (device.restrict Op.Steady).Run s tr' t' →
      (txActs tr = txActs tr' → sent tr = sent tr') ∧
      (rxActs tr = rxActs tr' → rxValues tr = rxValues tr')) ∧
    (∀ s tr t, (device.restrict Op.Steady).Run s tr t →
      (∃ tr' t', (device.restrict Op.Steady).Run s tr' t' ∧
        tr'.map Event.op = (tr.map Event.op).filter (fun op => op.rxAct?.isNone) ∧
        sent tr' = sent tr) ∧
      (∃ tr' t', (device.restrict Op.Steady).Run s tr' t' ∧
        tr'.map Event.op = (tr.map Event.op).filter (fun op => op.txAct?.isNone) ∧
        rxValues tr' = rxValues tr)) := by
  refine ⟨?_, ?_, fun s tr t h => ⟨run_withoutRx h, run_withoutTx h⟩⟩
  · intro s a b hs ha hb hga hgb
    have h₁ : device.step s a _ _ := step_iff.mpr ⟨hga, not_traps (.inl ha) s, rfl, rfl⟩
    have h₂ : device.step (a.next s) b _ _ :=
      step_iff.mpr ⟨guard_of_isTx ha hb hgb, not_traps (.inr hb) _, rfl, rfl⟩
    have h₃ : device.step s b _ _ := step_iff.mpr ⟨hgb, not_traps (.inr hb) s, rfl, rfl⟩
    have h₄ : device.step (b.next s) a _ _ :=
      step_iff.mpr ⟨guard_of_isRx ha hb hga, not_traps (.inl ha) _, rfl, rfl⟩
    refine ⟨_, _, _, _, _, _, _, _, ⟨h₁, h₂⟩, ⟨h₃, h₄⟩, next_comm ha hb hs, ?_, ?_⟩
    · simp only [emitted_append, emitted_of_isRx hb, List.append_nil, List.nil_append]
      exact (emitted_congr ha (txView_of_isRx hb s)).symm
    · simp only [values_append, values_of_isTx ha, List.append_nil, List.nil_append]
      exact values_congr hb (rxView_of_isTx ha s)
  · intro s tr t tr' t' h h'
    constructor
    · intro hacts
      rw [run_sent h, run_sent h', hacts]
    · intro hacts
      rw [run_rxValues h, run_rxValues h', hacts]

theorem full_duplex_reset : ∃ l₁ u l₂ t m₁ v m₂ w,
    (device.step (Op.next uartInit (.reset 0 [])) (.write 1 0x04 0x61#32) l₁ u ∧
      device.step u (.receive 1 0x62#8) l₂ t) ∧
    (device.step (Op.next uartInit (.reset 0 [])) (.receive 1 0x62#8) m₁ v ∧
      device.step v (.write 1 0x04 0x61#32) m₂ w) ∧ Same t w := by
  obtain ⟨l₁, u, l₂, t, m₁, v, m₂, w, htx, hrx, hsame, -⟩ :=
    full_duplex.1 (Op.next uartInit (.reset 0 [])) (.write 1 0x04 0x61#32) (.receive 1 0x62#8)
      rfl rfl rfl trivial trivial
  exact ⟨l₁, u, l₂, t, m₁, v, m₂, w, htx, hrx, hsame⟩

end QemuBoard.Uart
