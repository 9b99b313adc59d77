import QemuBoard.Can.Transfer
import QemuBoard.Demo.Main

namespace QemuBoard.Demo

open Library Can

section Assertions

def Request.IsTransmit : Request → Prop
  | .can (.read c addr) | .can (.write c addr _) => c = can0 ∧ addr = 0x24
  | .can (.load _ _) | .can (.store _ _ _) | .uartPrintf _ | .uartGetchar => False

def Request.IsPoll : Request → Prop
  | .can (.read c addr) => c = can1 ∧ addr = 0x20
  | .can (.write _ _ _) | .can (.load _ _) | .can (.store _ _ _) => False
  | .uartPrintf _ | .uartGetchar => False

def Request.formats? : Request → Option Nat
  | .can (.load .characters2 i) => some i
  | _ => none

def Contains (w : World Buffer) (b : Buffer) (l : List Byte) : Prop :=
  l = (List.range 8).map (w.mem b)

/-- What is to hold when a task makes a request, with the characters of the round. -/
structure Checked (o : Request) (t : World Buffer × List Byte) : Prop where
  dos : has (t.1.net 1).sr Sr.dos = false
  transmit : o.IsTransmit → has (t.1.net 1).sr Sr.rbs = false
  poll : o.IsPoll → has (t.1.net 1).sr Sr.rbs = true
  format : ∀ i, o.formats? = some i → i ≤ 8 ∧ Contains t.1 .characters2 t.2

structure Ready (full : Bool) (w : World Buffer) : Prop where
  dos : has (w.net 1).sr Sr.dos = false
  rbs : has (w.net 1).sr Sr.rbs = full
  cmr : ∀ c, (w.net c).cmr = 0#32
  nul : w.mem .characters2 8 = 0#8

/-- What holds while the semaphore of task `i` is available. -/
def Assertion (i : Fin 4) (t : World Buffer × List Byte) : Prop :=
  match i with
  | 0 => Ready false t.1
  | 1 => Ready false t.1 ∧ Contains t.1 .characters t.2
  | 2 => Ready true t.1 ∧ Contains t.1 .characters t.2 ∧
      Holds (t.1.net can1) 8 (t.1.mem .characters)
  | 3 => Ready false t.1 ∧ Contains t.1 .characters2 t.2

end Assertions

section Rules

variable {w w' : World Buffer} {l : List Byte} {α : Type}
  {post : α → World Buffer × List Byte → Prop}

abbrev Meets (p : TaskM α) (post : α → World Buffer × List Byte → Prop)
    (t : World Buffer × List Byte) : Prop :=
  p.Wp Checked (Relay.noted step typing) post t

theorem meets_printf {str : List Byte} (hdos : has (w.net 1).sr Sr.dos = false)
    {post : Unit → World Buffer × List Byte → Prop} (h : post () (w, l)) :
    Meets (uartPrintf str) post (w, l) := by
  refine ⟨⟨hdos, False.elim, False.elim, nofun⟩, ?_⟩
  rintro ⟨⟩ ⟨w', l'⟩ ⟨rfl, rfl⟩
  exact h

theorem meets_access {a : Access Buffer} {k : (accesses Buffer).Res a → Driver.DriverM Buffer α}
    {r : (accesses Buffer).Res a} {out : List (Fin 2 × Effect)} (hpre : Checked (.can a) (w, l))
    (ha : access a w = some (r, w', out)) (hk : Meets ((k r).embed driver) post (w', l)) :
    Meets ((Prog.call a k : Driver.DriverM Buffer α).embed driver) post (w, l) := by
  refine ⟨hpre, ?_⟩
  rintro r' ⟨w'', l''⟩ ⟨⟨out', ha'⟩, rfl⟩
  have heq := ha.symm.trans ha'
  simp only [Option.some.injEq] at heq
  cases heq
  exact hk

def Tame : Access Buffer → Prop
  | .read _ addr => addr ≠ 0x24 ∧ addr ≠ 0x20
  | .write c addr _ => c = can0 ∧ Reg.ofAddr addr ≠ some .cmr
  | .load b _ => b = .characters
  | .store b i _ => b = .characters2 ∧ i < 8

theorem Tame.checked {a : Access Buffer} (ha : Tame a) (hdos : has (w.net 1).sr Sr.dos = false) :
    Checked (.can a) (w, l) where
  dos := hdos
  transmit h := by
    cases a with
    | read c addr => exact absurd h.2 ha.1
    | write c addr val =>
      obtain ⟨-, rfl⟩ := h
      exact absurd rfl ha.2
    | load b i | store b i v => exact h.elim
  poll h := by
    cases a with
    | read c addr => exact absurd h.2 ha.2
    | write c addr val | load b i | store b i v => exact h.elim
  format i h := by
    cases a with
    | load b j =>
      obtain rfl : b = .characters := ha
      cases h
    | read c addr | write c addr val | store b j v => cases h

theorem Tame.ready {a : Access Buffer} (ha : Tame a) {full : Bool} (h : Ready full w)
    {r : (accesses Buffer).Res a} {out : List (Fin 2 × Effect)}
    (hrun : access a w = some (r, w', out)) : Ready full w' := by
  cases a with
  | read c addr =>
    rw [access_read] at hrun
    cases hrun
    exact h
  | write c addr val =>
    rw [access_write] at hrun
    cases hrun
    obtain ⟨rfl, hcmr⟩ := ha
    have hone : (w.step (.write 0 addr val)).net 1 = w.net 1 := by
      rw [World.step_net, next_other _ _ (show (1 : Fin 2) ≠ 0 by decide)]
      simp [Op.sent?, hcmr]
    exact
      { dos := by rw [hone, h.dos]
        rbs := by rw [hone, h.rbs]
        cmr := fun c => next_cmr boardBus _ (h.cmr c)
        nul := h.nul }
  | load b i =>
    cases hrun
    exact h
  | store b i v =>
    cases hrun
    obtain ⟨rfl, hi⟩ := ha
    exact { h with nul := by simpa [Function.update_of_ne (show 8 ≠ i by omega)] using h.nul }

section Call

variable {p : Driver.DriverM Buffer α} {full : Bool} {a : α}

theorem ready_of_call (hp : p.Guards Tame fun _ _ => True) (hw : Ready full w)
    (hcall : call p w = some (a, w')) : Ready full w' := by
  induction p generalizing w with
  | ret b =>
    obtain ⟨-, rfl⟩ : b = a ∧ w = w' := by simpa using hcall
    exact hw
  | call o k ih =>
    obtain ⟨r, v, out, hv⟩ := access_total o w
    exact ih r (hp.2 r trivial) (hp.1.ready hw hv) ((call_call hv).symm.trans hcall)
  | poll o q k ih =>
    obtain ⟨r, v, out, hv⟩ := access_total o w
    rw [call_poll hv] at hcall
    split at hcall
    case isTrue hq => exact ih r (hp.2 r trivial hq) (hp.1.ready hw hv) hcall
    case isFalse => cases hcall

theorem meets_call (hp : p.Guards Tame fun _ _ => True) (hw : Ready full w)
    (hcall : call p w = some (a, w')) (hpost : post a (w', l)) :
    Meets (p.embed driver) post (w, l) := by
  induction p generalizing w with
  | ret b =>
    obtain ⟨rfl, rfl⟩ : b = a ∧ w = w' := by simpa using hcall
    exact hpost
  | call o k ih =>
    refine ⟨hp.1.checked hw.dos, ?_⟩
    rintro r ⟨v, l'⟩ ⟨⟨out, hv⟩, rfl⟩
    exact ih r (hp.2 r trivial) (hp.1.ready hw hv) ((call_call hv).symm.trans hcall)
  | poll o q k ih =>
    refine ⟨hp.1.checked hw.dos, ?_⟩
    rintro r ⟨v, l'⟩ ⟨⟨out, hv⟩, rfl⟩
    rw [call_poll hv] at hcall
    split at hcall
    case isTrue hq => exact ⟨hq, ih r (hp.2 r trivial hq) (hp.1.ready hw hv) hcall⟩
    case isFalse => cases hcall

end Call

end Rules

section Bodies

variable {w : World Buffer} {l : List Byte}

theorem Ready.put {full : Bool} (h : Ready full w) (i : Nat) (v : Byte) :
    Ready full (w.put .characters i v) :=
  { h with nul := by simpa using h.nul }

theorem meets_readChar {i : Fin 8} (h : Ready false w)
    (hl : l = (List.range i).map (w.mem .characters)) :
    Meets (readChar i ()) (fun _ t =>
      Ready false t.1 ∧ t.2 = (List.range (i + 1)).map (t.1.mem .characters)) (w, l) := by
  refine Prog.Wp.bind ⟨⟨h.dos, False.elim, False.elim, nofun⟩, ?_⟩
  rintro ch ⟨w', l'⟩ ⟨hw', hl'⟩
  obtain rfl : w = w' := hw'.symm
  obtain rfl : l' = l ++ [ch] := hl'
  refine meets_access ⟨h.dos, False.elim, False.elim, nofun⟩ rfl ⟨h.put i ch, ?_⟩
  have hbelow : (List.range i).map (Function.update (w.mem .characters) i.val ch) =
      (List.range i).map (w.mem .characters) := by
    refine List.map_congr_left fun j hj => Function.update_of_ne ?_ _ _
    exact (List.mem_range.mp hj).ne
  simp [List.range_succ, hbelow, hl]

theorem meets_readFromUart (h : Ready false w) :
    Meets readFromUart (fun _ => Assertion 1) (w, []) := by
  refine Prog.Wp.bind (meets_printf h.dos ?_)
  refine Prog.Wp.bind (meets_printf h.dos ?_)
  refine Prog.Wp.bind (Prog.Wp.mono (Prog.Wp.forBelow (fun i _ t =>
    Ready false t.1 ∧ t.2 = (List.range i).map (t.1.mem .characters))
    ?_ (Nat.le_refl 8) ⟨h, rfl⟩) ?_)
  · rintro i ⟨⟩ ⟨w, l⟩ ⟨hw, hl⟩
    exact meets_readChar hw hl
  · rintro ⟨⟩ ⟨w, l⟩ ⟨hw, hl⟩
    exact meets_printf hw.dos ⟨hw, hl⟩

theorem guards_canWrite (canId canDlc isExtendedId isRemoteFrame : Word) :
    (Driver.canWrite 0 canId Buffer.characters canDlc isExtendedId isRemoteFrame).Guards Tame
      fun _ _ => True := by
  simp [Driver.canWrite, Driver.select, Driver.writeReg, Driver.loadWord, Driver.load, Prog.request,
    Prog.Guards, Tame, Reg.ofAddr]

theorem guards_canReadData :
    (Driver.canReadData 1 Buffer.characters2).Guards Tame fun _ _ => True := by
  refine ⟨⟨by decide, by decide⟩, fun v _ => ?_⟩
  refine (Prog.Guards.forBelow (fun i _ => ?_) _ _).bind fun _ => trivial
  unfold Driver.readByte
  split <;> exact ⟨⟨by decide, by decide⟩, fun _ _ => ⟨⟨rfl, i.isLt⟩, fun _ _ => trivial⟩⟩

theorem Ready.step_cmr {full : Bool} (h : Ready full w) (op : Op (Fin 2)) (c : Fin 2) :
    ((w.step op).net c).cmr = 0#32 :=
  next_cmr boardBus op (h.cmr c)

theorem meets_command {post : Unit → World Buffer × List Byte → Prop} {full : Bool} {c : Fin 2}
    (bits : Word) (h : Ready full w) (hfree : c = can0 → full = false)
    (hpost : post () (w.step (.write c 0x24 bits), l)) :
    Meets ((Driver.orReg c 0x24 bits).embed driver) post (w, l) := by
  have hval : (w.net c).regValue (Reg.ofAddr 0x24) ||| bits = bits := by
    simp [Reg.ofAddr, CanState.regValue, h.cmr]
  have hread : Checked (.can (.read c 0x24)) (w, l) :=
    { dos := h.dos
      transmit := fun ht => h.rbs.trans (hfree ht.1)
      poll := fun hp => absurd hp.2 (by decide)
      format := fun i hi => by cases hi }
  have hwrite : ∀ v, Checked (.can (.write c 0x24 v)) (w, l) := fun v =>
    { dos := h.dos
      transmit := fun ht => h.rbs.trans (hfree ht.1)
      poll := False.elim
      format := fun i hi => by cases hi }
  refine meets_access hread (access_read w c 0x24) ?_
  refine meets_access (hwrite _) (access_write w c 0x24 _) ?_
  rw [hval]
  exact hpost

def filled (w : World Buffer) : World Buffer :=
  { w with
    net := Function.update w.net can0
      (Driver.written (w.net can0) can0 0x123#32 (w.mem .characters) 8#32 1#32 0#32) }

theorem call_filled (w : World Buffer) :
    call (Driver.canWrite 0 0x123#32 .characters 8#32 1#32 0#32) w = some ((), filled w) :=
  Driver.call_canWrite w 0 0x123#32 .characters 8#32 1#32 0#32

theorem Ready.filled (h : Ready false w) : Ready false (Demo.filled w) :=
  ready_of_call (guards_canWrite _ _ _ _) h (call_filled w)

theorem Ready.sent (h : Ready false w) :
    Ready true ((Demo.filled w).step (.write 0 0x24 Cmr.tr)) ∧
      Holds (((Demo.filled w).step (.write 0 0x24 Cmr.tr)).net 1) 8 (w.mem .characters) := by
  have hsent : ((Demo.filled w).step (.write 0 0x24 Cmr.tr)).net =
      Driver.sent w.net 0 0x123#32 (w.mem .characters) 8#32 1#32 0#32 := rfl
  have hholds := holds_sent w.net (show (0 : Fin 2) ≠ 1 by decide) 0x123#32 1#32
    (w.mem .characters) 8
  have hone := sent_other w.net (show (0 : Fin 2) ≠ 1 by decide) 0x123#32 (w.mem .characters) 8#32
    1#32 0#32
  rw [hsent]
  refine ⟨?_, hholds⟩
  constructor
  case dos =>
    rw [hsent, hone]
    simp [h.rbs, h.dos]
  case rbs =>
    rw [hsent]
    exact hholds.full
  case cmr => exact h.filled.step_cmr _
  case nul => exact h.nul

theorem meets_writeToCanAndTransmit (h : Ready false w) (hl : Contains w .characters l) :
    Meets writeToCanAndTransmit (fun _ => Assertion 2) (w, l) := by
  refine Prog.Wp.bind (meets_printf h.dos ?_)
  refine Prog.Wp.bind (meets_call (guards_canWrite _ _ _ _) h (call_filled w) ?_)
  refine Prog.Wp.bind (meets_command Cmr.tr h.filled (fun _ => rfl) ?_)
  exact meets_printf h.sent.1.dos ⟨h.sent.1, hl, h.sent.2⟩

theorem meets_awaitReceived {post : Unit → World Buffer × List Byte → Prop} (h : Ready true w)
    (hpost : post () (w, l)) : Meets awaitReceived post (w, l) := by
  refine ⟨⟨h.dos, fun ht => absurd ht.1 (by decide), fun _ => h.rbs, fun i hi => by cases hi⟩, ?_⟩
  rintro r ⟨w', l'⟩ ⟨⟨out, hr⟩, hl'⟩
  rw [access_read] at hr
  cases hr
  obtain rfl : l' = l := hl'
  exact ⟨h.rbs, hpost⟩

def copied (w : World Buffer) : World Buffer :=
  { w with
    mem := Function.update w.mem .characters2 fun i =>
      if i < min 8 8 then w.mem .characters i else w.mem .characters2 i }

theorem Ready.copied (h : Ready true w) (hholds : Holds (w.net 1) 8 (w.mem .characters)) :
    Ready true (Demo.copied w) :=
  ready_of_call guards_canReadData h (hholds.call_canReadData .characters2)

theorem contains_copied (hl : Contains w .characters l) :
    Contains (Demo.copied w) .characters2 l := by
  rw [Contains, hl]
  refine List.map_congr_left fun i hi => ?_
  simp [Demo.copied, List.mem_range.mp hi]

theorem Ready.release (h : Ready true w) : Ready false (w.step (.write 1 0x24 Cmr.rrb)) := by
  have hone : (w.step (.write 1 0x24 Cmr.rrb)).net 1 = (w.net 1).release := by
    rw [World.step_net]
    exact (next_target boardBus w.net (.write 1 0x24 Cmr.rrb)).trans rfl
  exact
    { dos := by rw [hone]; simp [h.dos]
      rbs := by rw [hone]; simp
      cmr := h.step_cmr _
      nul := h.nul }

theorem meets_readFromCan (h : Ready true w) (hl : Contains w .characters l)
    (hholds : Holds (w.net 1) 8 (w.mem .characters)) :
    Meets readFromCan (fun _ => Assertion 3) (w, l) := by
  have hcopied := h.copied hholds
  refine Prog.Wp.bind (meets_printf h.dos ?_)
  refine Prog.Wp.bind (meets_awaitReceived h ?_)
  refine Prog.Wp.bind (meets_call guards_canReadData h (hholds.call_canReadData .characters2) ?_)
  refine Prog.Wp.bind (meets_command Cmr.rrb hcopied (by decide) ?_)
  exact meets_printf hcopied.release.dos ⟨hcopied.release, contains_copied hl⟩

theorem meets_formatString (h : Ready false w) (hl : Contains w .characters2 l) (room : Nat)
    {i : Nat} (hi : i ≤ 8) :
    Meets (formatString .characters2 room i) (fun _ t => t = (w, l)) (w, l) := by
  induction room generalizing i with
  | zero => rfl
  | succ room ih =>
    have hpre : Checked (.can (.load .characters2 i)) (w, l) :=
      { dos := h.dos
        transmit := False.elim
        poll := False.elim
        format := fun j hj => ⟨Option.some.inj hj ▸ hi, hl⟩ }
    refine Prog.Wp.bind (meets_access hpre rfl ?_)
    change Prog.Wp _ _ _ (if w.mem .characters2 i = 0#8 then _ else _) _
    split
    case isTrue => rfl
    case isFalse hne =>
      have hlt : i ≠ 8 := fun h8 => hne (h8 ▸ h.nul)
      refine Prog.Wp.bind ((ih (by omega)).mono ?_)
      rintro str t rfl
      rfl

theorem meets_writeToUart (h : Ready false w) (hl : Contains w .characters2 l) :
    Meets writeToUart (fun _ => Assertion 0) (w, l) := by
  refine Prog.Wp.bind (meets_printf h.dos ?_)
  refine Prog.Wp.bind ((meets_formatString h hl 50 (Nat.zero_le 8)).mono ?_)
  rintro str t rfl
  refine Prog.Wp.bind (meets_printf h.dos ?_)
  exact meets_printf h.dos h

theorem carries : Relay.Carries step body typing Checked Assertion := by
  intro i w l h
  match i with
  | 0 => exact meets_readFromUart h
  | 1 => exact meets_writeToCanAndTransmit h.1 h.2
  | 2 => exact meets_readFromCan h.1 h.2.1 h.2.2
  | 3 => exact meets_writeToUart h.1 h.2

theorem ready_start : Ready false ⟨Net.reset, fun _ _ => 0#8⟩ where
  dos := rfl
  rbs := rfl
  cmr _ := rfl
  nul := rfl

theorem inTurn {tr : Trace}
    {c : Config (Relay.requests requests 4) (Relay.World 4 (World Buffer)) (Fin 4)}
    (h : pipeline.system.Run start tr c) :
    Relay.InTurn step body typing Checked Assertion [] tr c := by
  exact Relay.inTurn_of_run carries ready_start h

end Bodies

section Progress

variable {w w' : World Buffer} {α : Type}

theorem exec_printf (w : World Buffer) (str : List Byte) : Exec step (uartPrintf str) w () w :=
  .call (r := ()) rfl .ret

theorem exec_driver {p : Driver.DriverM Buffer α} {a : α} (h : call p w = some (a, w')) :
    Exec step (p.embed driver) w a w' := by
  induction p generalizing w with
  | ret b =>
    obtain ⟨rfl, rfl⟩ : b = a ∧ w = w' := by simpa using h
    exact .ret
  | call o k ih =>
    obtain ⟨r, v, out, hv⟩ := access_total o w
    exact .call ⟨out, hv⟩ (ih r ((call_call hv).symm.trans h))
  | poll o q k ih =>
    obtain ⟨r, v, out, hv⟩ := access_total o w
    rw [call_poll hv] at h
    split at h
    case isTrue hq => exact .pass ⟨out, hv⟩ hq (ih r h)
    case isFalse => cases h

def typedWorld (w : World Buffer) (chars : Nat → Byte) (n : Nat) : World Buffer :=
  { w with
    mem := Function.update w.mem .characters fun i =>
      if i < n then chars i else w.mem .characters i }

theorem exec_readChar (w : World Buffer) (chars : Nat → Byte) (i : Fin 8) :
    Exec step (readChar i ()) (typedWorld w chars i) () (typedWorld w chars (i + 1)) := by
  have hput : (typedWorld w chars i).put .characters i (chars i) = typedWorld w chars (i + 1) := by
    simp only [typedWorld, World.put, Function.update_self, Function.update_idem]
    congr 2
    funext j
    rw [Function.update_apply]
    by_cases hj : j = i
    · simp [hj]
    · simp only [hj, if_false, show j < i.val + 1 ↔ j < i.val by omega]
  rw [← hput]
  exact .call (r := chars i) rfl (exec_driver (Driver.call_store _ _ _ _))

theorem exec_readFromUart (w : World Buffer) (chars : Nat → Byte) :
    Exec step readFromUart w () (typedWorld w chars 8) := by
  have hzero : typedWorld w chars 0 = w := by simp [typedWorld]
  have hloop := Exec.forBelow (fun _ => ()) (typedWorld w chars) (exec_readChar w chars)
    (Nat.le_refl 8)
  rw [hzero] at hloop
  exact (exec_printf w _).bind ((exec_printf w _).bind (hloop.bind (exec_printf _ _)))

theorem exec_awaitReceived (h : has (w.net 1).sr Sr.rbs = true) : Exec step awaitReceived w () w :=
  .pass ⟨_, access_read w 1 0x20⟩ h .ret

theorem exec_formatString (w : World Buffer) (b : Buffer) (room i : Nat) :
    ∃ str, Exec step (formatString b room i) w str w := by
  induction room generalizing i with
  | zero => exact ⟨[], .ret⟩
  | succ room ih =>
    obtain ⟨str, hstr⟩ := ih (i + 1)
    have hload := exec_driver (Driver.call_load w b i)
    by_cases hch : w.mem b i = 0#8
    · exact ⟨[], hload.bind (by rw [if_pos hch]; exact .ret)⟩
    · exact ⟨_, hload.bind (by rw [if_neg hch]; exact hstr.bind .ret)⟩

theorem exec_writeToUart (w : World Buffer) : Exec step writeToUart w () w := by
  obtain ⟨str, hstr⟩ := exec_formatString w .characters2 50 0
  exact (exec_printf w _).bind (hstr.bind ((exec_printf w _).bind (exec_printf w _)))

theorem exec_writeToCanAndTransmit (h : Ready false w) :
    Exec step writeToCanAndTransmit w () ((filled w).step (.write 0 0x24 Cmr.tr)) := by
  have hsend := exec_driver (Driver.call_canTransmit (filled w) 0 (h.filled.cmr 0))
  exact (exec_printf w _).bind ((exec_driver (call_filled w)).bind
    (hsend.bind (exec_printf _ _)))

theorem exec_readFromCan (h : Ready true w) (hholds : Holds (w.net 1) 8 (w.mem .characters)) :
    Exec step readFromCan w () ((copied w).step (.write 1 0x24 Cmr.rrb)) := by
  have hread := exec_driver (hholds.call_canReadData .characters2)
  have hrelease := exec_driver
    (Driver.call_canReleaseReceiveBuffer (copied w) 1 ((h.copied hholds).cmr 1))
  exact (exec_printf w _).bind ((exec_awaitReceived h.rbs).bind
    (hread.bind (hrelease.bind (exec_printf _ _))))

theorem round_runs (h : Ready false w) (chars : Nat → Byte) :
    ∃ tr w', pipeline.system.Run (.idle ⟨fun i => decide (i = 0), w⟩) tr
        (.idle ⟨fun i => decide (i = 0), w'⟩) ∧ Ready false w' ∧
      ∀ i < 8, w'.mem .characters2 i = chars i := by
  have htyped : Ready false (typedWorld w chars 8) :=
    { h with nul := by simpa [typedWorld] using h.nul }
  obtain ⟨hsent, hholds⟩ := htyped.sent
  have hdone := (hsent.copied hholds).release
  obtain ⟨tr₁, h₁⟩ := Relay.run_turn body 0 (exec_readFromUart w chars)
  obtain ⟨tr₂, h₂⟩ := Relay.run_turn body 1 (exec_writeToCanAndTransmit htyped)
  obtain ⟨tr₃, h₃⟩ := Relay.run_turn body 2 (exec_readFromCan hsent hholds)
  obtain ⟨tr₄, h₄⟩ := Relay.run_turn body 3 (exec_writeToUart _)
  refine ⟨_, _, ((h₁.trans h₂).trans h₃).trans h₄, hdone, fun i hi => ?_⟩
  simp [copied, filled, typedWorld, hi]

end Progress

section Safety

variable {tr : Trace} {c : Config (Relay.requests requests 4) (Relay.World 4 (World Buffer))
  (Fin 4)}

def Accesses (p : Prog (Relay.requests requests 4) Unit) (b : Buffer) : Prop :=
  (∃ i, p.next? = some (.work (.can (.load b i)))) ∨
    ∃ i v, p.next? = some (.work (.can (.store b i v)))

theorem between_of_accesses (h : pipeline.system.Run start tr c) {i : Fin 4} {b : Buffer}
    (hi : Accesses (c.prog i) b) : Relay.Between tr i := by
  rcases hi with ⟨j, hj⟩ | ⟨j, v, hj⟩ <;> exact ((inTurn h).request hj nofun).1

theorem count_turn (k : Nat) (i : Fin 4) : ((List.range (4 * k)).map Relay.turn).count i = k := by
  induction k with
  | zero => rfl
  | succ k ih =>
    have hrange : List.range (4 * (k + 1)) =
        List.range (4 * k) ++ [4 * k, 4 * k + 1, 4 * k + 2, 4 * k + 3] := by
      simp [Nat.mul_succ, List.range_succ]
    have hturn : [4 * k, 4 * k + 1, 4 * k + 2, 4 * k + 3].map Relay.turn =
        [0, 1, 2, (3 : Fin 4)] := by
      simp [Relay.turn, Fin.ofNat]
    have hone : ∀ i : Fin 4, [0, 1, 2, (3 : Fin 4)].count i = 1 := by decide
    rw [hrange, List.map_append, List.count_append, ih, hturn, hone]

theorem count_of_between (h : pipeline.system.Run start tr c) (hi : Relay.Between tr 3) :
    ∃ k, ∀ j, (Relay.takes tr).count j = k := by
  obtain ⟨m, hm, horder⟩ := (inTurn h).order_of_between hi
  have hmod : m % 4 = 3 := (congrArg Fin.val hm).symm
  have hround : m + 1 = 4 * (m / 4 + 1) := by omega
  refine ⟨m / 4 + 1, fun j => ?_⟩
  rw [horder, hround, count_turn]

/-- In every state that the scheduler can reach. -/
theorem pipeline_safe (h : pipeline.system.Run start tr c) :
    -- one semaphore is available, or one task is between its take and its give
    ((∃ i, (∀ j, c.world.sem j = decide (j = i)) ∧ ∀ j, ¬ Relay.Between tr j) ∨
      ((∀ j, c.world.sem j = false) ∧ ∃ i, ∀ j, Relay.Between tr j ↔ j = i)) ∧
    -- two tasks never access the buffers at once
    (∀ i j b b', Accesses (c.prog i) b → Accesses (c.prog j) b' → i = j) ∧
    -- no semaphore is given that is available
    (∀ i j, (c.prog i).next? = some (.give j) → c.world.sem j = false) ∧
    -- the turns go round
    Relay.takes tr = (List.range (Relay.takes tr).length).map Relay.turn ∧
    has (c.world.shared.net 1).sr Sr.dos = false ∧
    -- the busy-wait finds a frame, and the transmission a free buffer
    (∀ o : Request, (c.prog 2).next? = some (.work o) → o.IsPoll →
      has (c.world.shared.net 1).sr Sr.rbs = true) ∧
    (∀ o : Request, (c.prog 1).next? = some (.work o) → o.IsTransmit →
      has (c.world.shared.net 1).sr Sr.rbs = false) ∧
    -- in round `k` the string is made of the characters of round `k`
    ∀ i, (c.prog 3).next? = some (.work (.can (.load .characters2 i))) →
      (∃ k, ∀ j, (Relay.takes tr).count j = k) ∧ i ≤ 8 ∧
        typed tr = (List.range 8).map (c.world.shared.mem .characters2) := by
  have hturn := inTurn h
  refine ⟨hturn.exclusive, ?_, ?_, hturn.order, ?_, ?_, ?_, ?_⟩
  · intro i j b b' hi hj
    exact hturn.between_unique (between_of_accesses h hi) (between_of_accesses h hj)
  · intro i j hi
    exact (hturn.request hi nofun).2.1 j
  · exact hturn.always (J := fun t => has (t.1.net 1).sr Sr.dos = false)
      (fun i t ht => match i with
        | 0 => ht.dos
        | 1 => ht.1.dos
        | 2 => ht.1.dos
        | 3 => ht.1.dos)
      (fun o t ht => ht.dos)
  · intro o ho hpoll
    exact ((hturn.request ho nofun).2.2 o rfl).poll hpoll
  · intro o ho htransmit
    exact ((hturn.request ho nofun).2.2 o rfl).transmit htransmit
  · intro i hi
    obtain ⟨hbetween, -, hchecked⟩ := hturn.request hi nofun
    exact ⟨count_of_between h hbetween, (hchecked _ rfl).format i rfl⟩

theorem pipeline_safe_round : ∃ tr c, pipeline.system.Run start tr c ∧
    (∀ i < 8, c.world.shared.mem .characters2 i = BitVec.ofNat 8 (0x41 + i)) ∧
    has (c.world.shared.net 1).sr Sr.dos = false := by
  obtain ⟨tr, w, hrun, -, hchars⟩ := round_runs ready_start fun i => BitVec.ofNat 8 (0x41 + i)
  obtain ⟨-, -, -, -, hdos, -⟩ := pipeline_safe hrun
  exact ⟨tr, _, hrun, hchars, hdos⟩

end Safety

end QemuBoard.Demo
