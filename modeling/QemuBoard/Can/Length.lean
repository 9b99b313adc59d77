import QemuBoard.Can.Forward

namespace QemuBoard.Can

open Library CanState

section Stores

variable {B : Type} [DecidableEq B]

def Access.storesTo (data : B) : Access B → Bool
  | .store b _ _ => b = data
  | .read _ _ | .write _ _ _ | .load _ _ => false

def stored (data : B) (accs : List (Access B)) : Nat := accs.countP (Access.storesTo data)

theorem stored_append (data : B) (l l' : List (Access B)) :
    stored data (l ++ l') = stored data l + stored data l' := List.countP_append

def record {α : Type} (p : Driver.DriverM B α) : Action (World B) (Access B) α :=
  p.run (Prog.recording (S := accesses B) access)

theorem record_bind {α β : Type} (p : Driver.DriverM B α) (f : α → Driver.DriverM B β) :
    record (p >>= f) = record p >>= fun a => record (f a) := Prog.run_bind ..

theorem record_readReg (c : Fin 2) (addr : Nat) (w : World B) :
    record (Driver.readReg c addr) w =
      some ((w.net c).regValue (Reg.ofAddr addr), w, [.read c addr]) := by
  have hread : Prog.recording (S := accesses B) access (.read c addr) w =
      some ((w.net c).regValue (Reg.ofAddr addr), w, [.read c addr]) := by
    rw [Prog.recording, access_read]
    rfl
  rw [record, Driver.readReg, Prog.request, Prog.run_call hread]
  rfl

theorem record_store (data : B) (i : Nat) (b : Byte) (w : World B) :
    record (Driver.store data i b) w = some ((), w.put data i b, [.store data i b]) := rfl

theorem record_readByte (c : Fin 2) (data : B) (i : Fin 8) (w : World B) :
    ∃ v l, record (Driver.readByte c data i ()) w = some ((), v, l) ∧ stored data l = 1 := by
  unfold Driver.readByte
  split
  · rw [record_bind, Action.bind_of_run (record_readReg c 0x18 w), record_store]
    exact ⟨_, _, rfl, by simp [stored, Access.storesTo]⟩
  · rw [record_bind, Action.bind_of_run (record_readReg c 0x1C w), record_store]
    exact ⟨_, _, rfl, by simp [stored, Access.storesTo]⟩

theorem record_readBytes (c : Fin 2) (data : B) (n : Nat) (w : World B) :
    ∃ v l, record (Prog.forBelow 8 (Driver.readByte c data) n ()) w = some ((), v, l) ∧
      stored data l = min n 8 := by
  induction n with
  | zero => exact ⟨w, [], rfl, rfl⟩
  | succ n ih =>
    obtain ⟨v, l, hloop, hl⟩ := ih
    rw [Prog.forBelow, record_bind, Action.bind_of_run hloop]
    split
    case isTrue h =>
      obtain ⟨v', l', hround, hl'⟩ := record_readByte c data ⟨n, h⟩ v
      refine ⟨v', l ++ l', ?_, ?_⟩
      · rw [hround, Action.after_some]
      · rw [stored_append, hl, hl']
        omega
    case isFalse h =>
      refine ⟨v, l, ?_, ?_⟩
      · exact congrArg (fun l => some ((), v, l)) (List.append_nil l)
      · rw [hl]
        omega

theorem record_canReadData (c : Fin 2) (data : B) (w : World B) :
    ∃ v l, record (Driver.canReadData c.val data) w =
        some ((((w.net c).rfi &&& dlcMask) >>> dlcPos).toInt, v, l) ∧
      stored data l = min (((w.net c).rfi &&& dlcMask) >>> dlcPos).toNat 8 := by
  obtain ⟨v, l, hloop, hl⟩ :=
    record_readBytes c data (((w.net c).rfi &&& dlcMask) >>> dlcPos).toNat w
  have hrfi : record (Driver.readReg c 0x10) w = some ((w.net c).rfi, w, [.read c 0x10]) :=
    record_readReg c 0x10 w
  refine ⟨v, .read c 0x10 :: l, ?_, ?_⟩
  · rw [Driver.canReadData, Driver.select_val, record_bind, Action.bind_of_run hrfi]
    dsimp only
    rw [record_bind, Action.bind_of_run hloop]
    exact congrArg (fun l => some (_, v, .read c 0x10 :: l)) (List.append_nil l)
  · rw [← hl]
    rfl

/-- The length of the frame that `n` has to send is the number of its bytes: on the bus, and for
the driver that reads it from the other controller before another frame gets there. -/
structure LengthConsistent (B : Type) [DecidableEq B] (net : Net (Fin 2)) (n : Fin 2) : Prop where
  capped : (net n).frame.canDlc.toNat ≤ 8
  zero : ∀ j : Fin 64, (net n).frame.canDlc.toNat ≤ j → (net n).frame.data j = 0#8
  counted : has (net n).tfi rtr = false →
    ∀ val out net₁, has val Cmr.tr = true →
      (network boardBus).step net (.write n 0x24 val) out net₁ →
    ∀ m, m ≠ n → ∀ tr net₂, ((network boardBus).restrict (Op.LeavesBuffer m)).Run net₁ tr net₂ →
    ∀ (mem : B → Nat → Byte) (data : B), ∃ r v l,
      record (Driver.canReadData m.val data) ⟨net₂, mem⟩ = some (r, v, l) ∧
      r = stored data l ∧ call (Driver.canReadDlc m.val) ⟨net₂, mem⟩ = some (r, ⟨net₂, mem⟩)

theorem frame_data_of_le (s : CanState) {j : Fin 64} (h : s.frame.canDlc.toNat ≤ j) :
    s.frame.data j = 0#8 := by
  rw [frame_data, if_neg]
  exact fun hj => Nat.not_lt.mpr h hj.2

theorem dlc_received {net net₁ net₂ : Net (Fin 2)} {n m : Fin 2} {val : Word}
    {out : List (Fin 2 × Effect)} {tr : Trace (Fin 2)} (htr : has val Cmr.tr = true)
    (hstep : (network boardBus).step net (.write n 0x24 val) out net₁) (hm : m ≠ n)
    (hrun : ((network boardBus).restrict (Op.LeavesBuffer m)).Run net₁ tr net₂) :
    (((net₂ m).rfi &&& dlcMask) >>> dlcPos).toNat = (net n).frame.canDlc.toNat := by
  have hpeer : m ∈ boardBus.peers n :=
    CanBusState.mem_peers.mpr ⟨mem_boardBus n, mem_boardBus m, hm⟩
  have hbuffer : (net₂ m).rxBuffer = (net n).frame.encode :=
    (run_leavesBuffer hrun).1.trans (rxBuffer_request hstep htr hpeer)
  have hrfi : (net₂ m).rfi = (net n).frame.encode.rfi := congrArg RxBuffer.rfi hbuffer
  have hlt : (net n).frame.canDlc.toNat < 16 := by
    rw [frame_dlc]
    split
    · decide
    · exact dlc_lt _
  rw [hrfi, encode_dlc, Nat.mod_eq_of_lt hlt]

theorem counted_of_dlc_le {w : World B} {c : Fin 2} (data : B)
    (h : (((w.net c).rfi &&& dlcMask) >>> dlcPos).toNat ≤ 8) :
    ∃ r v l, record (Driver.canReadData c.val data) w = some (r, v, l) ∧ r = stored data l ∧
      call (Driver.canReadDlc c.val) w = some (r, w) := by
  obtain ⟨v, l, hread, hl⟩ := record_canReadData c data w
  refine ⟨_, v, l, hread, ?_, Driver.call_canReadDlc w c⟩
  have hlt := dlc_lt (w.net c).rfi
  rw [BitVec.toInt_eq_toNat_of_lt (by omega), hl, Nat.min_eq_left h]

/-- The frame takes over the reserved length codes 9 to 15 as they are, so of the data frames
those and only those have a length that is not the number of their bytes. -/
theorem length_consistent_iff (net : Net (Fin 2)) (n : Fin 2) :
    LengthConsistent B net n ↔
      has (net n).tfi rtr = true ∨ (((net n).tfi &&& dlcMask) >>> dlcPos).toNat ≤ 8 := by
  have hdlc := frame_dlc (net n)
  constructor
  · intro h
    cases hrtr : has (net n).tfi rtr with
    | true => exact .inl rfl
    | false =>
      rw [hrtr, if_neg Bool.false_ne_true] at hdlc
      exact .inr (hdlc ▸ h.capped)
  · intro h
    have hle : (net n).frame.canDlc.toNat ≤ 8 := by
      rw [hdlc]
      split
      case isTrue => exact Nat.zero_le 8
      case isFalse hrtr => exact h.resolve_left hrtr
    refine ⟨hle, fun j hj => frame_data_of_le _ hj, ?_⟩
    intro _ val out net₁ htr hstep m hm tr net₂ hrun mem data
    have hfield := dlc_received htr hstep hm hrun
    exact counted_of_dlc_le data (hfield ▸ hle)

end Stores

/-- A length code of nine goes out as it is, and the driver at the other end returns nine for the
eight bytes that it stores. -/
theorem length_not_consistent : ∃ tr net net₁ out,
    (network boardBus).Run Net.reset tr net ∧
    (network boardBus).step net (.write can0 0x24 Cmr.tr) out net₁ ∧
    (net can0).frame.canDlc = 9#8 ∧ ¬ LengthConsistent Unit net can0 ∧
    ∃ v l, record (Driver.canReadData 1 ()) ⟨net₁, fun _ _ => 0#8⟩ = some (9, v, l) ∧
      stored () l = 8 := by
  have hrun : ((network boardBus).restrict fun _ => True).Run _ _ _ :=
    .replay Net.reset [.write can0 0x00 0x90000#32] rfl (by decide)
  refine ⟨_, _, _, _, hrun.mono And.right, step_iff.mpr ⟨rfl, rfl⟩, by decide, ?_, ?_⟩
  · intro h
    exact absurd h.capped (by decide)
  · obtain ⟨v, l, hread, hl⟩ := record_canReadData (B := Unit) can1 () ⟨_, fun _ _ => 0#8⟩
    exact ⟨v, l, hread, hl⟩

section Remote

theorem canDlc_remote {s : CanState} (h : has s.tfi rtr = true) : s.frame.canDlc.toNat = 0 := by
  rw [frame_dlc, if_pos h]

theorem payload_remote {s : CanState} (h : has s.tfi rtr = true) :
    s.frame.payload = fun _ => 0#8 := by
  funext i
  rw [payload_frame, canDlc_remote h, if_neg]
  exact fun hi => Nat.not_lt_zero i hi.2

theorem frame_remote {s t : CanState} (hs : has s.tfi rtr = true) (ht : has t.tfi rtr = true)
    (hff : has s.tfi ff = has t.tfi ff) (hid : s.tid = t.tid) : s.frame = t.frame := by
  ext1
  · rw [frame_canId, frame_canId, and_bit, and_bit, and_bit, and_bit, hs, ht, hff, hid]
  · apply BitVec.eq_of_toNat_eq
    rw [canDlc_remote hs, canDlc_remote ht]
  · rfl
  · funext j
    rw [frame_data_of_le s, frame_data_of_le t]
    · rw [canDlc_remote ht]
      exact Nat.zero_le j
    · rw [canDlc_remote hs]
      exact Nat.zero_le j

/-- A remote request arrives as a request, without a length and without data, whatever length was
asked for. -/
theorem remote_request {ι : Type} [DecidableEq ι] {bus : CanBusState ι} {c : ι} {net net' : Net ι}
    {val : Word} {out : List (ι × Effect)} (hrtr : has (net c).tfi rtr = true)
    (htr : has val Cmr.tr = true) (hc : c ∈ bus.clients)
    (hstep : (network bus).step net (.write c 0x24 val) out net') :
    (∀ d ∈ bus.clients, d ≠ c → has (net' d).rfi rtr = true ∧
      ((net' d).rfi &&& dlcMask) >>> dlcPos = 0#32 ∧ (net' d).rda = 0#32 ∧ (net' d).rdb = 0#32) ∧
    ∀ tfi, has tfi rtr = true → has tfi ff = has (net c).tfi ff →
      { net c with tfi := tfi }.frame = (net c).frame := by
  constructor
  · intro d hd hne
    have hbuffer := rxBuffer_request hstep htr (CanBusState.mem_peers.mpr ⟨hc, hd, hne⟩)
    have hrfi : (net' d).rfi = (net c).frame.encode.rfi := congrArg RxBuffer.rfi hbuffer
    have hrda : (net' d).rda = ofLanes (net c).frame.payload := congrArg RxBuffer.rda hbuffer
    have hrdb : (net' d).rdb = ofLanes fun i => (net c).frame.payload (i + 4) :=
      congrArg RxBuffer.rdb hbuffer
    refine ⟨?_, ?_, ?_, ?_⟩
    · rw [hrfi, has, encode_rfi_rtr, ← has, hrtr]
    · rw [hrfi, encode_rfi_dlc, if_pos hrtr]
      rfl
    · rw [hrda, payload_remote hrtr, ofLanes_zero]
    · rw [hrdb, payload_remote hrtr, ofLanes_zero]
  · intro tfi hremote hff
    exact frame_remote hremote hrtr hff rfl

theorem remote_request_four : ∃ tr net net' out,
    (network boardBus).Run Net.reset tr net ∧ has (net can0).tfi rtr = true ∧
    (network boardBus).step net (.write can0 0x24 Cmr.tr) out net' ∧
    has (net' can1).rfi rtr = true ∧ ((net' can1).rfi &&& dlcMask) >>> dlcPos = 0#32 := by
  obtain ⟨tr, net, hrun, hrtr⟩ : ∃ tr net, (network boardBus).Run Net.reset tr net ∧
      has (net can0).tfi rtr = true := by
    have hrun : ((network boardBus).restrict fun _ => True).Run _ _ _ :=
      .replay Net.reset [.write can0 0x00 (rtr ||| 0x40000#32)] rfl (by decide)
    exact ⟨_, _, hrun.mono And.right, by decide⟩
  have hstep : (network boardBus).step net (.write can0 0x24 Cmr.tr) _ _ :=
    step_iff.mpr ⟨rfl, rfl⟩
  have h := (remote_request hrtr (by decide) (mem_boardBus can0) hstep).1 can1
    (mem_boardBus can1) (by decide)
  exact ⟨tr, net, _, _, hrun, hrtr, hstep, h.1, h.2.1⟩

/-- Four bytes are requested, and the request arrives for none. -/
theorem remote_length_lost : ∃ tr net net' out,
    (network boardBus).Run Net.reset tr net ∧
    (has (net can0).tfi rtr = true ∧ ((net can0).tfi &&& dlcMask) >>> dlcPos = 4#32) ∧
    (network boardBus).step net (.write can0 0x24 Cmr.tr) out net' ∧
    (has (net' can1).rfi rtr = true ∧ ((net' can1).rfi &&& dlcMask) >>> dlcPos = 0#32) := by
  have hrun : ((network boardBus).restrict fun _ => True).Run _ _ _ :=
    .replay Net.reset [.write can0 0x00 (rtr ||| 0x40000#32)] rfl (by decide)
  exact ⟨_, _, _, _, hrun.mono And.right, by decide, step_iff.mpr ⟨rfl, rfl⟩, by decide⟩

end Remote

end QemuBoard.Can
