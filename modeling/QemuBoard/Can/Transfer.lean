import QemuBoard.Can.DriverLaws
import QemuBoard.Can.Mailbox

namespace QemuBoard.Can

open Library CanState

section Frame

theorem and_and_eq_zero {x m k : Word} (h : m &&& k = 0#32) : x &&& m &&& k = 0#32 := by
  rw [BitVec.and_assoc, h, BitVec.and_zero]

theorem and_and_eq_self {x m k : Word} (h : m &&& k = m) : x &&& m &&& k = x &&& m := by
  rw [BitVec.and_assoc, h]

theorem and_f_toNat (x : Word) : (x &&& 0xF#32).toNat = x.toNat % 16 := by
  rw [BitVec.toNat_and]
  exact Nat.and_two_pow_sub_one_eq_mod x.toNat 4

theorem dlcField_toNat (x : Word) :
    (((x <<< dlcPos) &&& dlcMask) >>> dlcPos).toNat = x.toNat % 16 := by
  have hmask : (x <<< dlcPos) &&& dlcMask = (x &&& 0xF#32) <<< dlcPos := by
    rw [dlcMask, BitVec.shiftLeft_and_distrib]
  rw [hmask, BitVec.toNat_ushiftRight, BitVec.toNat_shiftLeft, and_f_toNat, dlcPos,
    Nat.shiftLeft_eq,
    Nat.shiftRight_eq_div_pow]
  omega

theorem encode_dlc (frame : QemuCanFrame) :
    ((frame.encode.rfi &&& dlcMask) >>> dlcPos).toNat = frame.canDlc.toNat % 16 := by
  have hflags : frame.encode.rfi &&& dlcMask =
      (frame.canDlc.setWidth 32 <<< dlcPos) &&& dlcMask := by
    rw [QemuCanFrame.encode]
    simp only [BitVec.and_comm _ dlcMask, BitVec.and_or_distrib_left]
    simp only [BitVec.and_comm dlcMask]
    rw [and_and_eq_zero (by decide), and_and_eq_zero (by decide), and_and_eq_self (BitVec.and_self)]
    simp
  rw [hflags, dlcField_toNat, BitVec.toNat_setWidth]
  omega

theorem dlc_lt (x : Word) : ((x &&& dlcMask) >>> dlcPos).toNat < 16 := by
  have hle : (x &&& dlcMask).toNat ≤ 0xF0000 := by
    rw [BitVec.toNat_and]
    exact Nat.and_le_right
  rw [BitVec.toNat_ushiftRight, dlcPos, Nat.shiftRight_eq_div_pow]
  omega

theorem frame_dlc (s : CanState) :
    s.frame.canDlc.toNat = if has s.tfi rtr then 0 else ((s.tfi &&& dlcMask) >>> dlcPos).toNat := by
  have hlt := dlc_lt s.tfi
  have hdlc : s.frame.canDlc =
    if !has s.tfi rtr then ((s.tfi &&& dlcMask) >>> dlcPos).setWidth 8 else 0#8 := rfl
  rw [hdlc]
  cases has s.tfi rtr with
  | true => rfl
  | false =>
    simp only [Bool.not_false, if_true, Bool.false_eq_true, if_false, BitVec.toNat_setWidth]
    omega

theorem frame_canId (s : CanState) :
    s.frame.canId =
      0#32 ||| (s.tfi &&& rtr) ||| (s.tfi &&& ff) |||
        (s.tid &&& if has s.tfi ff then ids else ide) := by
  unfold frame
  cases has s.tfi ff <;> rfl

theorem encode_rid (s : CanState) :
    s.frame.encode.rid = s.tid &&& if has s.tfi ff then ids else ide := by
  have hid : ∀ m : Word, m = ids ∨ m = ide → s.tid &&& m &&& qemuCanEffMask = s.tid &&& m := by
    rintro m (rfl | rfl) <;> exact and_and_eq_self (by decide)
  rw [QemuCanFrame.encode]
  simp only [frame_canId, BitVec.and_comm _ qemuCanEffMask, BitVec.and_or_distrib_left]
  simp only [BitVec.and_comm qemuCanEffMask]
  rw [and_and_eq_zero (by decide), and_and_eq_zero (by decide), hid _ (by split <;> simp)]
  simp

theorem encode_ff (s : CanState) : has s.frame.encode.rfi ff = has s.tfi ff := by
  have hconst : (qemuCanEffFlag.getLsbD 31 = true ∧ qemuCanRtrFlag.getLsbD 31 = false) ∧
      dlcMask.getLsbD 31 = false ∧ (rtr.getLsbD 31 = false ∧ ff.getLsbD 31 = true) ∧
      (∀ m : Word, m = ids ∨ m = ide → m.getLsbD 31 = false) := by
    refine ⟨by decide, by decide, by decide, ?_⟩
    rintro m (rfl | rfl) <;> decide
  obtain ⟨⟨heff, hrtr⟩, hdlc, ⟨hr, hf⟩, hid⟩ := hconst
  have hmask := hid (if has s.tfi ff then ids else ide) (by split <;> simp)
  rw [QemuCanFrame.encode, has_bit, has_bit]
  simp only [frame_canId, BitVec.getLsbD_or, BitVec.getLsbD_and, heff, hrtr, hdlc, hr, hf, hmask]
  simp

end Frame

section Window

variable {ι : Type} [DecidableEq ι]

def Op.LeavesBuffer (c : ι) : Op ι → Prop
  | .read _ _ => True
  | .write d addr val =>
    Reg.ofAddr addr = some .cmr → has val (if d = c then Cmr.rrb else Cmr.tr) = false
  | .reset d => d ≠ c
  | .receive d _ => d ≠ c

instance (c : ι) : DecidablePred (Op.LeavesBuffer c)
  | .read _ _ => inferInstanceAs (Decidable True)
  | .write _ _ _ => inferInstanceAs (Decidable (_ → _))
  | .reset _ => inferInstanceAs (Decidable (_ ≠ _))
  | .receive _ _ => inferInstanceAs (Decidable (_ ≠ _))

theorem Op.LeavesBuffer.mailAct? {c : ι} {op : Op ι} (h : op.LeavesBuffer c) (bus : CanBusState ι)
    (net : Net ι) :
    op.mailAct? bus net c = none ∨
      ∃ val, op.mailAct? bus net c = some (.command val) ∧ has val Cmr.rrb = false := by
  by_cases hc : c = op.target
  · cases op with
    | read d addr => exact .inl (if_pos hc)
    | write d addr val =>
      obtain rfl : c = d := hc
      by_cases hreg : Reg.ofAddr addr = some .cmr
      · refine .inr ⟨val, by simp [Op.mailAct?, Op.target, Op.ownAct?, hreg], ?_⟩
        simpa using h hreg
      · exact .inl (by simp [Op.mailAct?, Op.target, Op.ownAct?, hreg])
    | reset d => exact absurd hc.symm h
    | receive d frame => exact absurd hc.symm h
  · refine .inl ?_
    have hsent : op.sent? net = none := by
      cases op with
      | write d addr val =>
        have hne : d ≠ c := Ne.symm hc
        by_cases hreg : Reg.ofAddr addr = some .cmr
        · have htr : has val Cmr.tr = false := by simpa [hne] using h hreg
          simp [Op.sent?, htr]
        · simp [Op.sent?, hreg]
      | read d addr | reset d | receive d frame => rfl
    simp [Op.mailAct?, hc, hsent]

theorem run_leavesBuffer {bus : CanBusState ι} {net net' : Net ι} {tr : Trace ι} {c : ι}
    (h : ((network bus).restrict (Op.LeavesBuffer c)).Run net tr net') :
    (net' c).rxBuffer = (net c).rxBuffer ∧
      has (net' c).sr Sr.rbs = has (net c).sr Sr.rbs := by
  induction h with
  | nil => exact ⟨rfl, rfl⟩
  | @snoc _ u op _ _ _ hstep ih =>
    obtain ⟨hop, hdev⟩ := hstep
    obtain ⟨rfl, -⟩ := step_iff.mp hdev
    have hmail := next_mailbox bus u op c
    have hbuffer : (op.next bus u c).rxBuffer = _ := congrArg Mailbox.buffer hmail
    have hfull : has (op.next bus u c).sr Sr.rbs = _ := congrArg Mailbox.full hmail
    rw [← ih.1, ← ih.2, hbuffer, hfull]
    rcases hop.mailAct? bus u with hact | ⟨val, hact, hrrb⟩
    · simp [hact, Mailbox.act]
    · simp [hact, Mailbox.act, hrrb]

theorem cmr_command {s : CanState} (h : s.cmr = 0#32) (val : Word) :
    (s.command val).cmr = 0#32 := by
  unfold CanState.command CanState.acknowledge
  cases has val Cmr.rrb <;> cases has val Cmr.cdo <;> cases has val Cmr.tr <;> simp [h]

omit [DecidableEq ι] in
theorem cmr_own {s : CanState} (op : Op ι) (h : s.cmr = 0#32) : (op.own s).cmr = 0#32 := by
  cases op with
  | write d addr val =>
    simp only [Op.own]
    cases Reg.ofAddr addr with
    | none => exact h
    | some r =>
      cases r with
      | cmr => exact cmr_command h val
      | tfi | tid | tda | tdb | rfi | rid | rda | rdb | sr | ier => exact h
  | reset d => rfl
  | read d addr | receive d frame => exact h

theorem next_cmr (bus : CanBusState ι) {net : Net ι} {c : ι} (op : Op ι) (h : (net c).cmr = 0#32) :
    (op.next bus net c).cmr = 0#32 :=
  next_of_own (P := fun s => s.cmr = 0#32) cmr_own op h

theorem run_cmr {bus : CanBusState ι} {net : Net ι} {tr : Trace ι}
    (h : (network bus).Run Net.reset tr net) (c : ι) : (net c).cmr = 0#32 :=
  run_of_own (P := fun s => s.cmr = 0#32) cmr_own h rfl

end Window

section Send

variable {B : Type} [DecidableEq B]

theorem mem_boardBus (c : Fin 2) : c ∈ boardBus.clients := by
  revert c
  decide

theorem frameInfo_bits (e r : Bool) (d : Fin 16) :
    let x : Word := (BitVec.ofBool e).setWidth 32 <<< 31 |||
      (BitVec.ofBool r).setWidth 32 <<< 30 |||
      BitVec.ofNat 32 d <<< dlcPos
    has x ff = e ∧ has x rtr = r ∧ ((x &&& dlcMask) >>> dlcPos).toNat = d := by
  revert e r d
  decide

theorem and_f (x : Word) : x &&& 0xF#32 = BitVec.ofNat 32 (x.toNat % 16) := by
  apply BitVec.eq_of_toNat_eq
  rw [and_f_toNat, BitVec.toNat_ofNat]
  omega

theorem frameInfo_zero (canDlc isExtendedId isRemoteFrame : Word) :
    let x := Driver.frameInfo 0 canDlc isExtendedId isRemoteFrame
    has x ff = isExtendedId.getLsbD 0 ∧ has x rtr = isRemoteFrame.getLsbD 0 ∧
      ((x &&& dlcMask) >>> dlcPos).toNat = canDlc.toNat % 16 := by
  have h := frameInfo_bits (isExtendedId.getLsbD 0) (isRemoteFrame.getLsbD 0)
    ⟨canDlc.toNat % 16, Nat.mod_lt _ (by decide)⟩
  rw [← BitVec.and_one_eq_setWidth_ofBool_getLsbD, ← BitVec.and_one_eq_setWidth_ofBool_getLsbD,
    ← and_f] at h
  exact h

theorem frameInfo_one (canDlc isExtendedId isRemoteFrame : Word) :
    let x := Driver.frameInfo 1 canDlc isExtendedId isRemoteFrame
    has x ff = false ∧ has x rtr = false ∧
      ((x &&& dlcMask) >>> dlcPos).toNat = canDlc.toNat % 16 := by
  have h := frameInfo_bits false false ⟨canDlc.toNat % 16, Nat.mod_lt _ (by decide)⟩
  have hzero : ∀ k : Nat, (BitVec.ofBool false).setWidth 32 <<< k = 0#32 := by
    intro k
    exact BitVec.zero_shiftLeft k
  simp only [hzero, BitVec.zero_or, ← and_f] at h
  exact h

theorem frameInfo_data (c : Fin 2) (canDlc isExtendedId : Word) :
    let x := Driver.frameInfo c canDlc isExtendedId 0#32
    has x rtr = false ∧ ((x &&& dlcMask) >>> dlcPos).toNat = canDlc.toNat % 16 := by
  match c with
  | 0 => exact (frameInfo_zero canDlc isExtendedId 0#32).2
  | 1 => exact (frameInfo_one canDlc isExtendedId 0#32).2

theorem dlc_written (s : CanState) (c : Fin 2) (canId isExtendedId : Word) (bytes : Nat → Byte)
    (d : Fin 16) :
    (Driver.written s c canId bytes (BitVec.ofNat 32 d) isExtendedId 0#32).frame.canDlc.toNat =
      d := by
  obtain ⟨hrtr, hdlc⟩ := frameInfo_data c (BitVec.ofNat 32 d) isExtendedId
  rw [frame_dlc]
  simp only [Driver.written, hrtr, hdlc, BitVec.toNat_ofNat, Bool.false_eq_true, if_false]
  omega

theorem txByte_written (s : CanState) (c : Fin 2) (canId canDlc isExtendedId isRemoteFrame : Word)
    (bytes : Nat → Byte) {i : Nat} (h : i < 8) :
    (Driver.written s c canId bytes canDlc isExtendedId isRemoteFrame).txByte i = bytes i := by
  rw [txByte, Driver.written]
  split
  case isTrue h4 => rw [lane_ofLanes _ h4]
  case isFalse h4 =>
    have hi : i - 4 < 4 := by omega
    rw [lane_ofLanes _ hi, show 4 + (i - 4) = i by omega]

def Driver.sent (net : Net (Fin 2)) (c : Fin 2) (canId : Word) (bytes : Nat → Byte)
    (canDlc isExtendedId isRemoteFrame : Word) : Net (Fin 2) :=
  (Op.write c 0x24 Cmr.tr).next boardBus
    (Function.update net c (written (net c) c canId bytes canDlc isExtendedId isRemoteFrame))

theorem call_send {net : Net (Fin 2)} {c : Fin 2} (hcmr : (net c).cmr = 0#32)
    (mem : B → Nat → Byte) (canId canDlc isExtendedId isRemoteFrame : Word) (data : B) :
    call (do
        Driver.canWrite c.val canId data canDlc isExtendedId isRemoteFrame
        Driver.canTransmit c.val) ⟨net, mem⟩ =
      some ((), ⟨Driver.sent net c canId (mem data) canDlc isExtendedId isRemoteFrame, mem⟩) := by
  rw [call_bind, Driver.call_canWrite, Option.bind_some, Driver.call_canTransmit]
  · rfl
  · simpa [Driver.written] using hcmr

theorem sent_other (net : Net (Fin 2)) {n m : Fin 2} (hnm : n ≠ m) (canId : Word)
    (bytes : Nat → Byte) (canDlc isExtendedId isRemoteFrame : Word) :
    Driver.sent net n canId bytes canDlc isExtendedId isRemoteFrame m =
      (net m).received
        (Driver.written (net n) n canId bytes canDlc isExtendedId isRemoteFrame).frame := by
  have hpeer : m ∈ boardBus.peers n :=
    CanBusState.mem_peers.mpr ⟨mem_boardBus n, mem_boardBus m, hnm.symm⟩
  rw [Driver.sent, next_other _ _ (show m ≠ Op.target (.write n 0x24 Cmr.tr) from hnm.symm)]
  simp [Op.sent?, Reg.ofAddr, Op.target, hpeer, hnm.symm]

structure Holds (s : CanState) (d : Nat) (bytes : Nat → Byte) : Prop where
  full : has s.sr Sr.rbs
  dlc : ((s.rfi &&& dlcMask) >>> dlcPos).toNat = d
  byte : ∀ i < 8, s.rxByte i = if i < d then bytes i else 0#8

theorem holds_sent (net : Net (Fin 2)) {n m : Fin 2} (hnm : n ≠ m) (canId isExtendedId : Word)
    (bytes : Nat → Byte) (d : Fin 16) :
    Holds (Driver.sent net n canId bytes (BitVec.ofNat 32 d) isExtendedId 0#32 m) d bytes := by
  have hd := dlc_written (net n) n canId isExtendedId bytes d
  rw [sent_other net hnm]
  constructor
  case full => simp
  case dlc =>
    rw [received_rfi, encode_dlc, hd]
    omega
  case byte =>
    intro i hi
    rw [rxByte_received _ _ hi, payload_frame, hd, txByte_written _ _ _ _ _ _ _ hi]
    simp [hi]

theorem Holds.of_rxBuffer {s s' : CanState} {d : Nat} {bytes : Nat → Byte} (h : Holds s d bytes)
    (hbuffer : s'.rxBuffer = s.rxBuffer) (hrbs : has s'.sr Sr.rbs = has s.sr Sr.rbs) :
    Holds s' d bytes := by
  obtain ⟨hrfi, -, hrda, hrdb⟩ := (RxBuffer.mk.injEq ..).mp hbuffer
  constructor
  case full => rw [hrbs, h.full]
  case dlc => rw [hrfi, h.dlc]
  case byte =>
    intro i hi
    rw [← h.byte i hi, rxByte, rxByte, hrda, hrdb]

theorem Holds.call_canHasReceived {w : World B} {c : Fin 2} {d : Nat} {bytes : Nat → Byte}
    (h : Holds (w.net c) d bytes) : call (Driver.canHasReceived c.val) w = some (1, w) := by
  rw [Driver.call_canHasReceived, if_pos h.full]

theorem Holds.call_canReadData {w : World B} {c : Fin 2} {d : Nat} {bytes : Nat → Byte}
    (h : Holds (w.net c) d bytes) (buf : B) :
    call (Driver.canReadData c.val buf) w = some ((d : Int), { w with
      mem := Function.update w.mem buf fun i =>
        if i < min d 8 then bytes i else w.mem buf i }) := by
  have hlt := dlc_lt (w.net c).rfi
  have hint : (((w.net c).rfi &&& dlcMask) >>> dlcPos).toInt = (d : Int) := by
    rw [BitVec.toInt_eq_toNat_of_lt (by omega), h.dlc]
  have hbytes : (fun i => if i < 8 ∧ i < d then (w.net c).rxByte i else w.mem buf i) =
      fun i => if i < min d 8 then bytes i else w.mem buf i := by
    funext i
    by_cases hi : i < 8 ∧ i < d
    · rw [if_pos hi, if_pos (by omega), h.byte i hi.1, if_pos hi.2]
    · rw [if_neg hi, if_neg (by omega)]
  rw [Driver.call_canReadData, hint, h.dlc, hbytes]

theorem Holds.lanes {s : CanState} {d : Nat} {bytes : Nat → Byte} (h : Holds s d bytes) :
    (∀ i < 4, min d 8 ≤ i → lane s.rda i = 0#8) ∧
      ∀ i < 4, min d 8 ≤ i + 4 → lane s.rdb i = 0#8 := by
  constructor
  · intro i hi hd
    have hbyte := h.byte i (by omega)
    rwa [rxByte, if_pos hi, if_neg (by omega)] at hbyte
  · intro i hi hd
    have hbyte := h.byte (i + 4) (by omega)
    rwa [rxByte, if_neg (by omega), if_neg (by omega), Nat.add_sub_cancel] at hbyte

/-- The payload reaches the other driver, whatever happens on the bus meanwhile except for
another frame to the receiver, its release and its reset. -/
theorem payload_survives {tr : Trace (Fin 2)} {net : Net (Fin 2)} {n m : Fin 2}
    (hrun : (network boardBus).Run Net.reset tr net) (hnm : n ≠ m) (mem : B → Nat → Byte)
    (canId isExtendedId : Word) (data : B) (d : Fin 16) :
    ∃ net₁, call (do
        Driver.canWrite n.val canId data (BitVec.ofNat 32 d) isExtendedId 0#32
        Driver.canTransmit n.val) ⟨net, mem⟩ = some ((), ⟨net₁, mem⟩) ∧
      ∀ tr' net₂, ((network boardBus).restrict (Op.LeavesBuffer m)).Run net₁ tr' net₂ →
        ∀ (mem₂ : B → Nat → Byte) (buf : B),
          call (Driver.canHasReceived m.val) ⟨net₂, mem₂⟩ = some (1, ⟨net₂, mem₂⟩) ∧
          (∃ mem₃, call (Driver.canReadData m.val buf) ⟨net₂, mem₂⟩ =
              some ((d.val : Int), ⟨net₂, mem₃⟩) ∧
            (∀ i < min d.val 8, mem₃ buf i = mem data i) ∧
            ∀ b i, (b = buf → min d.val 8 ≤ i) → mem₃ b i = mem₂ b i) ∧
          (∀ i < 4, min d.val 8 ≤ i → lane (net₂ m).rda i = 0#8) ∧
          ∀ i < 4, min d.val 8 ≤ i + 4 → lane (net₂ m).rdb i = 0#8 := by
  refine ⟨_, call_send (run_cmr hrun n) mem canId _ isExtendedId 0#32 data, ?_⟩
  intro tr' net₂ hwindow mem₂ buf
  obtain ⟨hbuffer, hrbs⟩ := run_leavesBuffer hwindow
  have hholds : Holds (net₂ m) d (mem data) :=
    (holds_sent net hnm canId isExtendedId (mem data) d).of_rxBuffer hbuffer hrbs
  refine ⟨Holds.call_canHasReceived (w := ⟨net₂, mem₂⟩) hholds,
    ⟨_, Holds.call_canReadData (w := ⟨net₂, mem₂⟩) hholds buf, ?_, ?_⟩, hholds.lanes⟩
  · intro i hi
    rw [Function.update_self]
    exact if_pos hi
  · intro b i hb
    rw [Function.update_apply]
    split
    case isTrue h =>
      rw [h]
      exact if_neg (Nat.not_lt.mpr (hb h))
    case isFalse => rfl

theorem payload_survives_seven : ∃ net₁,
    call (do
      Driver.canWrite 0 0x123#32 () 7#32 1#32 0#32
      Driver.canTransmit 0) ⟨(Op.receive 1 (CanState.zero false).frame).next boardBus Net.reset,
        fun _ i => BitVec.ofNat 8 (0x41 + i)⟩ =
      some ((), ⟨net₁, fun _ i => BitVec.ofNat 8 (0x41 + i)⟩) ∧
    ∃ mem₃, call (Driver.canReadData 1 ()) ⟨net₁, fun _ _ => 0#8⟩ = some (7, ⟨net₁, mem₃⟩) ∧
      (∀ i < 7, mem₃ () i = BitVec.ofNat 8 (0x41 + i)) ∧ mem₃ () 7 = 0#8 := by
  have hrun : (network boardBus).Run Net.reset _
      ((Op.receive 1 (CanState.zero false).frame).next boardBus Net.reset) :=
    .snoc .nil (step_iff.mpr ⟨rfl, rfl⟩)
  obtain ⟨net₁, hsend, hread⟩ := payload_survives hrun (show (0 : Fin 2) ≠ 1 by decide)
    (fun (_ : Unit) i => BitVec.ofNat 8 (0x41 + i)) 0x123#32 1#32 () 7
  obtain ⟨-, ⟨mem₃, hcall, hbytes, hrest⟩, -⟩ := hread [] net₁ .nil (fun _ _ => 0#8) ()
  exact ⟨net₁, hsend, mem₃, hcall, hbytes, hrest () 7 fun _ => by decide⟩

end Send

section Identifier

variable {B : Type} [DecidableEq B]

def extensionBits : Word := 0x1FFFF800#32

theorem and_ids_eq_and_ide_iff (x : Word) : x &&& ids = x &&& ide ↔ x &&& extensionBits = 0#32 := by
  constructor
  · intro h
    calc x &&& extensionBits
      _ = x &&& ide &&& extensionBits := by rw [BitVec.and_assoc]; rfl
      _ = x &&& ids &&& extensionBits := by rw [h]
      _ = 0#32 := and_and_eq_zero (by decide)
  · intro h
    calc x &&& ids
      _ = x &&& ids ||| x &&& extensionBits := by rw [h, BitVec.or_zero]
      _ = x &&& ide := by rw [← BitVec.and_or_distrib_left]; rfl

theorem Driver.call_canReadId (w : World B) (c : Fin 2) :
    call (canReadId c.val) w =
      some (if has (w.net c).rfi ff then (w.net c).rid &&& ids else (w.net c).rid, w) := by
  have hwide : ∀ x : Word, (x.setWidth 64 &&& ide).setWidth 32 = x := by
    intro x
    rw [BitVec.setWidth_and, BitVec.setWidth_setWidth_of_le _ (by decide), BitVec.setWidth_eq,
      show ide.setWidth 32 = BitVec.allOnes 32 by decide, BitVec.and_allOnes]
  cases hff : has (w.net c).rfi ff with
  | true => simp [canReadId, select_val, call_bind, Reg.ofAddr, CanState.regValue, hff]
  | false => simp [canReadId, select_val, call_bind, Reg.ofAddr, CanState.regValue, hff, hwide]

theorem call_canReadId_sent (net : Net (Fin 2)) (mem : B → Nat → Byte) (canId : Word)
    (bytes : Nat → Byte) (canDlc isExtendedId isRemoteFrame : Word) :
    let net₁ := Driver.sent net 0 canId bytes canDlc isExtendedId isRemoteFrame
    has (net₁ 1).rfi ff = isExtendedId.getLsbD 0 ∧
      call (Driver.canReadId 1) ⟨net₁, mem⟩ =
        some (canId &&& (if isExtendedId.getLsbD 0 then ids else ide), ⟨net₁, mem⟩) := by
  intro net₁
  have hff : has (Driver.frameInfo 0 canDlc isExtendedId isRemoteFrame) ff =
      isExtendedId.getLsbD 0 := (frameInfo_zero canDlc isExtendedId isRemoteFrame).1
  have hone : net₁ 1 = _ := sent_other net (show (0 : Fin 2) ≠ 1 by decide) canId bytes canDlc
    isExtendedId isRemoteFrame
  have hrfi : has (net₁ 1).rfi ff = isExtendedId.getLsbD 0 := by
    rw [hone, received_rfi, encode_ff, Driver.written, hff]
  have hrid : (net₁ 1).rid = canId &&& (if isExtendedId.getLsbD 0 then ids else ide) := by
    rw [hone, received_rid, encode_rid, Driver.written, hff]
  refine ⟨hrfi, ?_⟩
  have hcall := Driver.call_canReadId ⟨net₁, mem⟩ 1
  rw [hrfi, hrid] at hcall
  rw [show ((1 : Fin 2).val : Int) = 1 from rfl] at hcall
  rw [hcall]
  cases isExtendedId.getLsbD 0 with
  | true => simp [BitVec.and_assoc]
  | false => simp

/-- `CAN_write` and `CAN_transmit` on the first controller, then `CAN_read_ID` on the second:
the frame format arrives, and of the identifier the 29 bits of an extended frame or the 11 bits
of a standard one. -/
def IdentifierSurvives (w : World B) (canId : Word) (data : B)
    (canDlc isExtendedId isRemoteFrame : Word) : Prop :=
  ∃ w₁, call (do
      Driver.canWrite 0 canId data canDlc isExtendedId isRemoteFrame
      Driver.canTransmit 0) w = some ((), w₁) ∧
    has (w₁.net can1).rfi ff = isExtendedId.getLsbD 0 ∧
    call (Driver.canReadId 1) w₁ =
      some (if isExtendedId.getLsbD 0 then canId &&& 0x1FFFFFFF#32 else canId &&& 0x7FF#32, w₁)

theorem identifierSurvives_iff_mask {net : Net (Fin 2)} (hcmr : (net 0).cmr = 0#32)
    (mem : B → Nat → Byte) (canId : Word) (data : B) (canDlc isExtendedId isRemoteFrame : Word) :
    IdentifierSurvives ⟨net, mem⟩ canId data canDlc isExtendedId isRemoteFrame ↔
      (if isExtendedId.getLsbD 0 then canId &&& 0x1FFFFFFF#32 else canId &&& 0x7FF#32) =
        canId &&& if isExtendedId.getLsbD 0 then ids else ide := by
  have hsend := call_send hcmr mem canId canDlc isExtendedId isRemoteFrame data
  obtain ⟨hff, hread⟩ :=
    call_canReadId_sent net mem canId (mem data) canDlc isExtendedId isRemoteFrame
  constructor
  · rintro ⟨w₁, hsend', -, hread'⟩
    obtain rfl : w₁ = _ := congrArg Prod.snd (Option.some.inj (hsend'.symm.trans hsend))
    exact congrArg Prod.fst (Option.some.inj (hread'.symm.trans hread))
  · intro h
    exact ⟨_, hsend, hff, h ▸ hread⟩

/-- The masks are swapped, so exactly the identifiers on which they agree come through. -/
theorem identifier_survives_iff {tr : Trace (Fin 2)} {net : Net (Fin 2)}
    (hrun : (network boardBus).Run Net.reset tr net) (mem : B → Nat → Byte) (canId : Word)
    (data : B) (canDlc isExtendedId isRemoteFrame : Word) :
    IdentifierSurvives ⟨net, mem⟩ canId data canDlc isExtendedId isRemoteFrame ↔
      canId &&& extensionBits = 0#32 := by
  rw [identifierSurvives_iff_mask (run_cmr hrun 0), ← and_ids_eq_and_ide_iff]
  cases isExtendedId.getLsbD 0 with
  | true => exact eq_comm
  | false => exact Iff.rfl

theorem identifier_survives_demo :
    IdentifierSurvives ⟨Net.reset, fun (_ : Unit) _ => 0#8⟩ 0x123#32 () 8#32 1#32 0#32 :=
  (identifier_survives_iff .nil _ _ _ _ _ _).mpr (by decide)

/-- An extended frame arrives with the low 11 bits, so that two identifiers become one, and a
standard frame with all 29. -/
theorem identifier_lost :
    ¬ IdentifierSurvives ⟨Net.reset, fun (_ : Unit) _ => 0#8⟩ 0x12345678#32 () 8#32 1#32 0#32 ∧
    ¬ IdentifierSurvives ⟨Net.reset, fun (_ : Unit) _ => 0#8⟩ 0x12345678#32 () 8#32 0#32 0#32 ∧
    ∀ canId : Word, canId = 0x12345678#32 ∨ canId = 0x678#32 →
      (call (do
        Driver.canWrite 0 canId () 8#32 1#32 0#32
        Driver.canTransmit 0
        Driver.canReadId 1) ⟨Net.reset, fun (_ : Unit) _ => 0#8⟩).map Prod.fst = some 0x678#32 := by
  rw [identifierSurvives_iff_mask rfl, identifierSurvives_iff_mask rfl]
  refine ⟨by decide, by decide, ?_⟩
  rintro canId (rfl | rfl) <;> decide +kernel

end Identifier

end QemuBoard.Can
