import QemuBoard.Can.Mailbox

namespace QemuBoard.Can

open Library CanState

variable {ι : Type} [DecidableEq ι]

def LineAtLevel (s : CanState) : Prop := s.irq = s.level

namespace LineAtLevel

variable {s : CanState}

theorem setBit (h : LineAtLevel s) (b : Word) : LineAtLevel (s.setBit b) := by
  unfold LineAtLevel level at *
  rw [setBit_irq, h]
  cases hi : has s.ier Ier.rie <;> cases hr : has s.sr Sr.rbs <;> simp [level, hi, hr]

theorem clearBit (h : LineAtLevel s) {i : Nat} : LineAtLevel (s.clearBit (bit 32 i)) := by
  unfold LineAtLevel level at *
  rw [clearBit_irq, h]
  cases hi : has s.ier Ier.rie <;> cases hr : has s.sr Sr.rbs <;> simp [level, hi, hr]

theorem received (h : LineAtLevel s) (frame : QemuCanFrame) : LineAtLevel (s.received frame) := by
  unfold LineAtLevel level at *
  rw [received_irq, h]
  cases hi : has s.ier Ier.rie <;> cases has s.sr Sr.rbs <;> simp [hi]

theorem acknowledge (h : LineAtLevel s) (val : Word) : LineAtLevel (s.acknowledge val) := by
  have hrelease : LineAtLevel s.release := h.clearBit
  unfold CanState.acknowledge
  cases has val Cmr.rrb <;> cases has val Cmr.cdo
  · exact h
  · exact h.clearBit
  · exact hrelease
  · exact hrelease.clearBit

theorem command (h : LineAtLevel s) (val : Word) : LineAtLevel (s.command val) := by
  have hack := h.acknowledge val
  unfold CanState.command
  split
  · have hrequest : LineAtLevel (s.acknowledge val).request := hack.clearBit
    exact hrequest.setBit _
  · exact hack

theorem recheck (s : CanState) : LineAtLevel s.raise.lower := by
  have hlevel : s.raise.level = s.level := rfl
  change ((s.irq || s.level) && s.raise.level) = s.level
  rw [hlevel]
  cases s.level <;> simp

theorem zero : LineAtLevel (.zero false) := by simp [LineAtLevel, CanState.zero, level]

theorem write (h : LineAtLevel s) (val : Word) (r : Option Reg) : LineAtLevel (s.write val r) := by
  cases r with
  | none => exact h
  | some r =>
    cases r with
    | cmr => exact h.command val
    | ier => exact recheck _
    | tfi | tid | tda | tdb | rfi | rid | rda | rdb | sr => exact h

omit [DecidableEq ι] in
theorem own (h : LineAtLevel s) (op : Op ι) : LineAtLevel (op.own s) := by
  cases op with
  | read c addr => exact h
  | write c addr val => exact h.write val _
  | reset c => exact zero
  | receive c frame => exact h.received frame

end LineAtLevel

theorem lineAtLevel_next {bus : CanBusState ι} {net : Net ι} {c : ι} (op : Op ι)
    (h : LineAtLevel (net c)) : LineAtLevel (op.next bus net c) :=
  next_of_own (fun op h => h.own op) op h

theorem run_lineAtLevel {bus : CanBusState ι} {net : Net ι} {tr : Trace ι}
    (h : (network bus).Run Net.reset tr net) (c : ι) : LineAtLevel (net c) :=
  run_of_own (fun op h => h.own op) h .zero

def DocumentedLevel (s : CanState) : Prop :=
  s.irq = true ↔ (has s.ier Ier.rie = true ∧ has s.sr Sr.rbs = true) ∨
    (has s.ier Ier.doie = true ∧ has s.sr Sr.dos = true)

def covers (rie doie rbs dos : Bool) : Bool := !(doie && dos) || (rie && rbs)

@[simp] theorem covers_no_overrun (rie doie rbs : Bool) : covers rie doie rbs false = true := by
  simp [covers]

theorem LineAtLevel.documented_iff {s : CanState} (h : LineAtLevel s) :
    DocumentedLevel s ↔
      covers (has s.ier Ier.rie) (has s.ier Ier.doie) (has s.sr Sr.rbs) (has s.sr Sr.dos) =
        true := by
  unfold DocumentedLevel covers
  rw [h, level]
  cases has s.ier Ier.rie <;> cases has s.ier Ier.doie <;> cases has s.sr Sr.rbs <;>
    cases has s.sr Sr.dos <;> decide

def Op.enable? (c : ι) : Op ι → Option Word
  | .write d addr val => if c = d ∧ Reg.ofAddr addr = some .ier then some val else none
  | .read _ _ | .reset _ | .receive _ _ => none

/-- The condition on an operation, in terms of the registers of `c` before it: a write of
IER, a write of CMR and an arriving frame must not leave an enabled overrun uncovered. -/
def Op.keepsCovered (bus : CanBusState ι) (net : Net ι) (c : ι) (op : Op ι) : Bool :=
  let s := net c
  match op.enable? c, op.mailAct? bus net c with
  | some val, _ =>
    covers (has val Ier.rie) (has val Ier.doie) (has s.sr Sr.rbs) (has s.sr Sr.dos)
  | none, some (.command val) =>
    covers (has s.ier Ier.rie) (has s.ier Ier.doie) (has s.sr Sr.rbs && !has val Cmr.rrb)
      (has s.sr Sr.dos && !has val Cmr.cdo)
  | none, some (.arrive _) =>
    covers (has s.ier Ier.rie) (has s.ier Ier.doie) true (has s.sr Sr.dos || has s.sr Sr.rbs)
  | none, some .reset | none, none => true

theorem ier_write_own (s : CanState) (val : Word) (r : Option Reg) :
    (s.write val r).ier = if r = some .ier then val &&& 0x0F#32 else s.ier := by
  cases r with
  | none => rfl
  | some r =>
    cases r with
    | cmr => cases h : has val Cmr.tr <;> simp [CanState.write, CanState.command, h]
    | tfi | tid | tda | tdb | rfi | rid | rda | rdb | sr | ier => rfl

theorem next_documented_iff {bus : CanBusState ι} {net : Net ι} {c : ι} (op : Op ι)
    (hline : LineAtLevel (net c)) (hdoc : DocumentedLevel (net c)) :
    DocumentedLevel (op.next bus net c) ↔ op.keepsCovered bus net c = true := by
  have hmail := next_mailbox bus net op c
  have hrbs : has (op.next bus net c).sr Sr.rbs = _ := congrArg Mailbox.full hmail
  have hdos : has (op.next bus net c).sr Sr.dos = _ := congrArg Mailbox.overrun hmail
  rw [hline.documented_iff] at hdoc
  rw [(lineAtLevel_next op hline).documented_iff, hrbs, hdos]
  by_cases hc : c = op.target
  · subst hc
    rw [next_target]
    cases op with
    | read d addr =>
      simpa [Op.keepsCovered, Op.enable?, Op.mailAct?, Op.ownAct?, Mailbox.act, Op.own] using hdoc
    | write d addr val =>
      simp only [Op.own, ier_write_own, Op.keepsCovered, Op.enable?, Op.mailAct?, Op.ownAct?]
      by_cases hier : Reg.ofAddr addr = some .ier
      · have hrie : has (val &&& 0x0F#32) Ier.rie = has val Ier.rie := by simp [has_bit]
        have hdoie : has (val &&& 0x0F#32) Ier.doie = has val Ier.doie := by simp [has_bit]
        simp [hier, hrie, hdoie, Mailbox.act, Op.target]
      · by_cases hcmr : Reg.ofAddr addr = some .cmr
        · simp [hcmr, Mailbox.act, Op.target]
        · simpa [hier, hcmr, Mailbox.act, Op.target] using hdoc
    | reset d => simp [Op.keepsCovered, Op.enable?, Op.mailAct?, Op.ownAct?, Mailbox.act, Op.own]
    | receive d frame =>
      simp [Op.keepsCovered, Op.enable?, Op.mailAct?, Op.ownAct?, Mailbox.act, Op.own]
  · have hier := (next_guest_registers bus net hc).2.2.2.2.2
    have hother : op.enable? c = none := by
      cases op with
      | write d addr val => simp [Op.enable?, show c ≠ d from hc]
      | read d addr | reset d | receive d frame => rfl
    rw [hier]
    cases hact : op.mailAct? bus net c with
    | none => simpa [Op.keepsCovered, hact, hother, Mailbox.act] using hdoc
    | some act => cases act <;> simp [Op.keepsCovered, hact, hother, Mailbox.act]

/-- The line is the documented level in all states of a run exactly if every step keeps
enabled overruns covered. -/
theorem irq_documented_iff {bus : CanBusState ι} {net : Net ι} {tr : Trace ι}
    (hrun : (network bus).Run Net.reset tr net) (c : ι) :
    ((∀ e ∈ tr, DocumentedLevel (e.pre c)) ∧ DocumentedLevel (net c)) ↔
      ∀ e ∈ tr, e.op.keepsCovered bus e.pre c = true := by
  induction hrun with
  | nil => simp [DocumentedLevel, Net.reset, CanState.zero]
  | @snoc tr net op out net' hrun hstep ih =>
    obtain ⟨rfl, -⟩ := step_iff.mp hstep
    have hline := run_lineAtLevel hrun c
    simp only [List.forall_mem_append, List.forall_mem_singleton]
    rw [← ih]
    constructor
    · rintro ⟨⟨hpre, hnet⟩, hnext⟩
      exact ⟨⟨hpre, hnet⟩, (next_documented_iff op hline hnet).mp hnext⟩
    · rintro ⟨⟨hpre, hnet⟩, hkeeps⟩
      exact ⟨⟨hpre, hnet⟩, (next_documented_iff op hline hnet).mpr hkeeps⟩

theorem irq_documented_both : ∃ tr net,
    (network boardBus).Run Net.reset tr net ∧ has (net 1).sr Sr.dos = true ∧
    (∀ e ∈ tr, DocumentedLevel (e.pre 1)) ∧ DocumentedLevel (net 1) := by
  have hrun : ((network boardBus).restrict fun _ => True).Run _ _ _ :=
    .replay Net.reset
      [.write 1 0x28 (Ier.rie ||| Ier.doie), .write 0 0x24 Cmr.tr, .write 0 0x24 Cmr.tr] rfl
      (by decide)
  have h := irq_documented_iff (hrun.mono And.right) 1
  exact ⟨_, _, hrun.mono And.right, by decide, h.mpr (by decide)⟩

/-- With DOIE alone an overrun does not raise the line. -/
theorem irq_not_documented : ∃ tr net,
    (network boardBus).Run Net.reset tr net ∧
    (∀ e ∈ tr, (e.op.enable? 1).all (fun val => !has val Ier.tie) = true) ∧
    (has (net 1).ier Ier.doie = true ∧ has (net 1).sr Sr.dos = true ∧ (net 1).irq = false) ∧
    ¬ DocumentedLevel (net 1) := by
  have hrun : ((network boardBus).restrict fun _ => True).Run _ _ _ :=
    .replay Net.reset
      [.write 1 0x28 Ier.doie, .write 0 0x24 Cmr.tr, .write 0 0x24 Cmr.tr] rfl (by decide)
  refine ⟨_, _, hrun.mono And.right, by decide, by decide, fun h => ?_⟩
  exact absurd (h.mpr (by decide)) (by decide)

end QemuBoard.Can
