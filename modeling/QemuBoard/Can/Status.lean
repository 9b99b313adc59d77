import QemuBoard.Can.DriverLaws

namespace QemuBoard.Can

open Library CanState

def deviceBits : Word := Sr.rbs ||| Sr.dos ||| Sr.tcs

section Unset

variable {s : CanState} {m : Word}

theorem not_has_acknowledge (h : has s.sr m = false) (val : Word) :
    has (s.acknowledge val).sr m = false := by
  unfold acknowledge
  cases has val Cmr.rrb <;> cases has val Cmr.cdo
  · exact h
  · exact has_and_of_not_has h _
  · exact has_and_of_not_has h _
  · exact has_and_of_not_has (has_and_of_not_has h _) _

variable (hm : has deviceBits m = false)

include hm

theorem not_has_bits : has Sr.rbs m = false ∧ has Sr.dos m = false ∧ has Sr.tcs m = false := by
  simpa [deviceBits, and_assoc] using hm

theorem not_has_command (h : has s.sr m = false) (val : Word) :
    has (s.command val).sr m = false := by
  have hack := not_has_acknowledge h val
  unfold command
  split
  · rw [setBit_sr, has_or, request_sr, clearBit_sr, has_and_of_not_has hack,
      (not_has_bits hm).2.2, Bool.or_false]
  · exact hack

theorem not_has_received (h : has s.sr m = false) (frame : QemuCanFrame) :
    has (s.received frame).sr m = false := by
  obtain ⟨hrbs, hdos, -⟩ := not_has_bits hm
  rw [received_sr, has_or, hrbs, Bool.or_false]
  split
  · rw [has_or, h, hdos, Bool.or_false]
  · exact h

theorem not_has_own {ι : Type} (op : Op ι) (h : has s.sr m = false) :
    has (op.own s).sr m = false := by
  cases op with
  | read c addr => exact h
  | write c addr val =>
    simp only [Op.own]
    cases Reg.ofAddr addr with
    | none => exact h
    | some r =>
      cases r with
      | cmr => exact not_has_command hm h val
      | tfi | tid | tda | tdb | rfi | rid | rda | rdb | sr | ier => exact h
  | reset c => exact has_zero m
  | receive c frame => exact not_has_received hm h frame

end Unset

theorem run_not_has {ι : Type} [DecidableEq ι] {bus : CanBusState ι} {net : Net ι} {tr : Trace ι}
    {m : Word} (hm : has deviceBits m = false) (h : (network bus).Run Net.reset tr net) (c : ι) :
    has (net c).sr m = false :=
  run_of_own (P := fun s => has s.sr m = false) (not_has_own hm) h (has_zero m)

structure Message where
  tfi : Word
  tid : Word
  tda : Word
  tdb : Word

section Guest

variable {B : Type}

/-- As documented: wait for TBS, fill the transmit buffer, request the transmission. -/
def sendRounds (n : Fin 2) : List Message → Driver.DriverM B Unit
  | [] => pure ()
  | m :: l => do
    let _ ← Prog.await (S := accesses B) (.read n 0x20) fun v => has v Sr.tbs
    Driver.writeReg n 0x00 m.tfi
    Driver.writeReg n 0x04 m.tid
    Driver.writeReg n 0x08 m.tda
    Driver.writeReg n 0x0C m.tdb
    Driver.writeReg n 0x24 Cmr.tr
    sendRounds n l

variable [DecidableEq B]

/-- One guest for each controller, each sending any number of messages, and between any two of
their accesses whatever else can happen to the controllers. -/
def senders (B : Type) [DecidableEq B] : Threads (accesses B) (World B) (Fin 2) (Op (Fin 2)) where
  handle w o r w' := ∃ out, access o w = some (r, w', out)
  env w op w' := w' = w.step op
  menu n p := ∃ l, p = sendRounds n l

def Locked (w : World B) : Prop := ∀ c, has (w.net c).sr Sr.tbs = false

omit [DecidableEq B] in
theorem Locked.step {w : World B} (h : Locked w) (op : Op (Fin 2)) : Locked (w.step op) := fun c =>
  next_of_own (P := fun s => has s.sr Sr.tbs = false) (not_has_own (by decide)) op (h c)

def Access.IsPoll : Access B → Prop
  | .read _ addr => addr = 0x20
  | .write _ _ _ | .load _ _ | .store _ _ _ => False

def AnsweredLocked : (o : Access B) → (accesses B).Res o → Prop
  | .read _ addr, v => addr = 0x20 → has (v : Word) Sr.tbs = false
  | .write _ _ _, _ | .load _ _, _ | .store _ _ _, _ => True

theorem senders_keeps : (senders B).Keeps Locked Access.IsPoll AnsweredLocked where
  menu := by
    rintro n p ⟨l, rfl⟩
    cases l with
    | nil => trivial
    | cons m l =>
      -- the wait does not end, so nothing behind it is reached
      refine ⟨rfl, fun v hv hpass => ?_⟩
      have hclear : has (v : Word) Sr.tbs = false := hv rfl
      cases hclear.symm.trans hpass
  handle := by
    rintro w o r w' hw ho ⟨out, ha⟩
    cases o with
    | read c addr =>
      obtain rfl : addr = 0x20 := ho
      cases (access_read w c 0x20).symm.trans ha
      exact ⟨fun _ => hw c, hw⟩
    | write c addr val | load b i | store b i v => exact ho.elim
  env := by
    rintro w op w' hw rfl
    exact hw.step op

end Guest

/-- In no state that can be reached does TBS read 1, and a guest that waits for it never makes
another access, whatever goes on around it. -/
theorem transmit_buffer_locked {ι : Type} [DecidableEq ι] {bus : CanBusState ι} {tr : Trace ι}
    {net : Net ι} (hrun : (network bus).Run Net.reset tr net) (c : ι) {B : Type} [DecidableEq B]
    {mem : B → Nat → Byte}
    {l : List (Event (Config (accesses B) (World B) (Fin 2))
      (Label (accesses B) (Fin 2) (Op (Fin 2))) Empty)}
    {d : Config (accesses B) (World B) (Fin 2)}
    (hguest : (senders B).system.Run (.idle ⟨Net.reset, mem⟩) l d) :
    has (net c).sr Sr.tbs = false ∧ ∀ e ∈ l, ∀ n o r, e.op = .answer n o r → o.IsPoll := by
  constructor
  · exact run_not_has (by decide) hrun c
  · intro e he n o r ho
    have hlocked : Locked (⟨Net.reset, mem⟩ : World B) := fun _ => has_zero _
    exact senders_keeps.answered hlocked hguest he ho

theorem transmit_buffer_locked_polled : ∃ l d,
    (senders Unit).system.Run (.idle ⟨Net.reset, fun _ _ => 0#8⟩) l d ∧ l.length = 2 ∧
    has (Net.reset can0).sr Sr.tbs = false ∧
    ∀ e ∈ l, ∀ n o r, e.op = .answer n o r → o.IsPoll := by
  have hstart : (senders Unit).system.Run (.idle ⟨Net.reset, fun _ _ => 0#8⟩) _ _ :=
    .snoc .nil ⟨rfl, .start (i := can0) rfl ⟨[⟨0#32, 0#32, 0#32, 0#32⟩], rfl⟩⟩
  have hpoll := hstart.snoc ⟨rfl, .again (i := can0) rfl ⟨_, access_read _ can0 0x20⟩ rfl⟩
  have hrun : (network boardBus).Run Net.reset [] Net.reset := .nil
  exact ⟨_, _, hpoll, rfl, transmit_buffer_locked hrun can0 hpoll⟩

/-- Out of reset TBS is clear, and a guest that waits for it does not come to its first frame. -/
theorem transmit_buffer_locked_at_reset :
    has (Net.reset can0).sr Sr.tbs = false ∧
    call (sendRounds can0 [⟨0x10000#32, 0x123#32, 0x61#32, 0#32⟩])
      ⟨Net.reset, fun (_ : Unit) _ => 0#8⟩ = none := by
  constructor
  · decide
  · rfl

end QemuBoard.Can
