import QemuBoard.Can.Transfer

namespace QemuBoard.Can

open Library CanState

variable {ι : Type} [DecidableEq ι]

attribute [ext] QemuCanFrame

namespace CanState

def idMask (s : CanState) : Word := if has s.tfi ff then ids else ide

/-- Two controllers hold the same message, whatever stands in reserved bits and in data bytes past
its length. -/
structure SameMessage (s t : CanState) : Prop where
  format : s.tfi &&& ff = t.tfi &&& ff
  remote : s.tfi &&& rtr = t.tfi &&& rtr
  length : s.tfi &&& dlcMask = t.tfi &&& dlcMask
  identifier : s.tid &&& s.idMask = t.tid &&& t.idMask
  data : has s.tfi rtr = false →
    ∀ i < min ((s.tfi &&& dlcMask) >>> dlcPos).toNat 8, s.txByte i = t.txByte i

theorem frame_data (s : CanState) (j : Fin 64) :
    s.frame.data j = if j.val < 8 ∧ j.val < s.frame.canDlc.toNat then s.txByte j else 0#8 :=
  forBelow_loadByte s s.frame.canDlc.toNat j

theorem SameMessage.frame {s t : CanState} (h : s.SameMessage t) : s.frame = t.frame := by
  have hrtr : has s.tfi rtr = has t.tfi rtr := by rw [has, has, h.remote]
  have hid : s.frame.canId = t.frame.canId := by
    rw [frame_canId, frame_canId, h.remote, h.format]
    exact congrArg _ h.identifier
  have hdlc : s.frame.canDlc = t.frame.canDlc := by
    apply BitVec.eq_of_toNat_eq
    rw [frame_dlc, frame_dlc, hrtr, h.length]
  have hdata : s.frame.data = t.frame.data := by
    funext j
    rw [frame_data, frame_data, ← hdlc]
    split
    case isFalse => rfl
    case isTrue hj =>
      rw [frame_dlc] at hj
      cases hr : has s.tfi rtr with
      | true => simp [hr] at hj
      | false => exact h.data hr j (by simpa [hr, and_comm] using hj)
  exact QemuCanFrame.ext hid hdlc rfl hdata

end CanState

def seen (c : ι) (out : List (ι × Effect)) : List (ι × Effect) := out.filter fun e => e.1 ≠ c

theorem seen_own (c : ι) (l : List Effect) : seen c (l.map (Prod.mk c)) = [] := by
  simp [seen, List.filter_eq_nil_iff]

theorem seen_append (c : ι) (l l' : List (ι × Effect)) : seen c (l ++ l') = seen c l ++ seen c l' :=
  List.filter_append ..

theorem seen_deliverLog {bus : CanBusState ι} {c : ι} (frame : QemuCanFrame) (net : Net ι) :
    seen c (Net.deliverLog (bus.peers c) frame net) = Net.deliverLog (bus.peers c) frame net := by
  rw [seen, List.filter_eq_self]
  intro e he
  simpa using (CanBusState.mem_peers.mp (Net.mem_deliverLog he)).2.2

theorem seen_request {bus : CanBusState ι} {c : ι} {val : Word} (htr : has val Cmr.tr = true)
    (net : Net ι) :
    seen c ((Op.write c 0x24 val).log bus net) =
      Net.deliverLog (bus.peers c) (net c).frame net := by
  have hlog : (Op.write c 0x24 val).log bus net =
      ((net c).acknowledgeLog val).map (Prod.mk c) ++
        ((((net c).acknowledge val).clearLog Sr.tcs).map (Prod.mk c) ++
          (Net.deliverLog (bus.peers c) (net c).frame net ++
            (((net c).acknowledge val).request.setLog Sr.tcs).map (Prod.mk c))) := by
    simp [Op.log, Reg.ofAddr, htr]
  rw [hlog]
  simp only [seen_append, seen_own, seen_deliverLog, List.nil_append, List.append_nil]

theorem next_request {bus : CanBusState ι} {c j : ι} {val : Word} (htr : has val Cmr.tr = true)
    (net : Net ι) (hj : j ≠ c) :
    (Op.write c 0x24 val).next bus net j =
      if j ∈ bus.peers c then (net j).received (net c).frame else net j := by
  have hsent : (Op.write c 0x24 val).sent? net = some (net c).frame :=
    if_pos ⟨rfl, htr⟩
  rw [next_other bus net hj, hsent]
  rfl

/-- Requests of the same message put the same frame on the bus, whatever else stands in the
transmit registers, and the other controllers cannot tell them apart. -/
theorem request_noninterference (bus : CanBusState ι) {c : ι} {net net' : Net ι} {val val' : Word}
    (hothers : ∀ j, j ≠ c → net j = net' j) (hmsg : (net c).SameMessage (net' c))
    (htr : has val Cmr.tr = true) (htr' : has val' Cmr.tr = true) :
    (net c).frame = (net' c).frame ∧
    ∃ m out m' out', canWrite bus c 0x24 val net = some ((), m, out) ∧
      canWrite bus c 0x24 val' net' = some ((), m', out') ∧
      (∀ j, j ≠ c → m j = m' j) ∧ seen c out = seen c out' := by
  have hframe := hmsg.frame
  refine ⟨hframe, _, _, _, _, canWrite_run .., canWrite_run .., ?_, ?_⟩
  · intro j hj
    rw [next_request htr net hj, next_request htr' net' hj, hframe, hothers j hj]
  · rw [seen_request htr, seen_request htr', hframe]
    apply List.flatMap_congr
    intro j hj
    rw [hothers j (CanBusState.mem_peers.mp hj).2.2]

def cleanMessage : Net (Fin 2) :=
  Function.update Net.reset can0
    { CanState.zero false with tfi := 0x10000#32, tid := 0x5#32, tda := 0x61#32 }

def staleMessage : Net (Fin 2) :=
  Function.update Net.reset can0
    { CanState.zero false with
      tfi := 0x10001#32, tid := 0x80000005#32, tda := 0x64636261#32, tdb := 0x65#32 }

theorem request_noninterference_stale : ∃ m out m' out',
    canWrite boardBus can0 0x24 Cmr.tr cleanMessage = some ((), m, out) ∧
    canWrite boardBus can0 0x24 Cmr.tr staleMessage = some ((), m', out') ∧ m can1 = m' can1 := by
  have hothers : ∀ j, j ≠ can0 → cleanMessage j = staleMessage j := by
    intro j hj
    rw [cleanMessage, staleMessage, Function.update_of_ne hj, Function.update_of_ne hj]
  have hmsg : (cleanMessage can0).SameMessage (staleMessage can0) :=
    ⟨by decide, by decide, by decide, by decide, by decide⟩
  obtain ⟨-, m, out, m', out', hrun, hrun', hsame, -⟩ :=
    request_noninterference boardBus hothers hmsg (rfl : has Cmr.tr Cmr.tr = true)
      (rfl : has Cmr.tr Cmr.tr = true)
  exact ⟨m, out, m', out', hrun, hrun', hsame can1 (by decide)⟩

namespace CanState

def txBuffer (s : CanState) : RxBuffer where
  rfi := s.tfi
  rid := s.tid
  rda := s.tda
  rdb := s.tdb

theorem dlcField_setWidth (x : Word) :
    ((((x &&& dlcMask) >>> dlcPos).setWidth 8).setWidth 32 <<< dlcPos) &&& dlcMask =
      x &&& dlcMask := by
  apply BitVec.eq_of_getLsbD_eq
  intro i hi
  interval_cases i <;> simp [dlcMask, dlcPos]

theorem frame_eff (s : CanState) : s.frame.canId &&& qemuCanEffFlag = s.tfi &&& ff := by
  have hid : ∀ m : Word, m = ids ∨ m = ide → s.tid &&& m &&& qemuCanEffFlag = 0#32 := by
    rintro m (rfl | rfl) <;> exact and_and_eq_zero (by decide)
  rw [frame_canId]
  simp only [BitVec.and_or_distrib_right]
  rw [hid _ (by split <;> simp), and_and_eq_zero (by decide), and_and_eq_self (by decide)]
  simp

theorem frame_rtr (s : CanState) : s.frame.canId &&& qemuCanRtrFlag = s.tfi &&& rtr := by
  have hid : ∀ m : Word, m = ids ∨ m = ide → s.tid &&& m &&& qemuCanRtrFlag = 0#32 := by
    rintro m (rfl | rfl) <;> exact and_and_eq_zero (by decide)
  rw [frame_canId]
  simp only [BitVec.and_or_distrib_right]
  rw [hid _ (by split <;> simp), and_and_eq_self (by decide), and_and_eq_zero (by decide)]
  simp

theorem encode_rfi (s : CanState) :
    s.frame.encode.rfi = (s.tfi &&& ff) ||| (s.tfi &&& rtr) |||
      if has s.tfi rtr then 0#32 else s.tfi &&& dlcMask := by
  have hdlc : (s.frame.canDlc.setWidth 32 <<< dlcPos) &&& dlcMask =
      if has s.tfi rtr then 0#32 else s.tfi &&& dlcMask := by
    have hframe : s.frame.canDlc =
        if !has s.tfi rtr then ((s.tfi &&& dlcMask) >>> dlcPos).setWidth 8 else 0#8 := rfl
    rw [hframe]
    cases has s.tfi rtr with
    | true => simp
    | false => exact dlcField_setWidth s.tfi
  rw [QemuCanFrame.encode, frame_eff, frame_rtr, hdlc]

theorem encode_rfi_and (s : CanState) (m : Word) :
    s.frame.encode.rfi &&& m = (s.tfi &&& ff &&& m) ||| (s.tfi &&& rtr &&& m) |||
      if has s.tfi rtr then 0#32 else s.tfi &&& dlcMask &&& m := by
  rw [encode_rfi, BitVec.and_or_distrib_right, BitVec.and_or_distrib_right]
  cases has s.tfi rtr <;> simp

theorem encode_rfi_ff (s : CanState) : s.frame.encode.rfi &&& ff = s.tfi &&& ff := by
  rw [encode_rfi_and, and_and_eq_self (by decide), and_and_eq_zero (by decide),
    and_and_eq_zero (by decide)]
  simp

theorem encode_rfi_rtr (s : CanState) : s.frame.encode.rfi &&& rtr = s.tfi &&& rtr := by
  rw [encode_rfi_and, and_and_eq_zero (by decide), and_and_eq_self (by decide),
    and_and_eq_zero (by decide)]
  simp

theorem encode_rfi_dlc (s : CanState) :
    s.frame.encode.rfi &&& dlcMask = if has s.tfi rtr then 0#32 else s.tfi &&& dlcMask := by
  rw [encode_rfi_and, and_and_eq_zero (by decide), and_and_eq_zero (by decide),
    and_and_eq_self (by decide)]
  simp

theorem encode_of_txBuffer {s t : CanState} (h : t.txBuffer = s.frame.encode) :
    t.frame.encode = s.frame.encode := by
  have hfi : t.tfi = s.frame.encode.rfi := congrArg RxBuffer.rfi h
  have hid : t.tid = s.frame.encode.rid := congrArg RxBuffer.rid h
  have hff : t.tfi &&& ff = s.tfi &&& ff := by rw [hfi, encode_rfi_ff]
  have hrtr : t.tfi &&& rtr = s.tfi &&& rtr := by rw [hfi, encode_rfi_rtr]
  have hdlc : t.tfi &&& dlcMask = if has s.tfi rtr then 0#32 else s.tfi &&& dlcMask := by
    rw [hfi, encode_rfi_dlc]
  have hhas : has t.tfi rtr = has s.tfi rtr := by rw [has, has, hrtr]
  have hlen : t.frame.canDlc = s.frame.canDlc := by
    apply BitVec.eq_of_toNat_eq
    rw [frame_dlc, frame_dlc, hhas, hdlc]
    cases has s.tfi rtr <;> rfl
  have hbytes : t.frame.payload = s.frame.payload := by
    funext i
    rw [payload_frame, hlen]
    split
    case isTrue hi =>
      have hrx := rxByte_received s s.frame hi.1
      rw [← hrx]
      have hda : t.tda = s.frame.encode.rda := congrArg RxBuffer.rda h
      have hdb : t.tdb = s.frame.encode.rdb := congrArg RxBuffer.rdb h
      rw [txByte, rxByte, hda, hdb]
      rfl
    case isFalse hi =>
      rw [payload_frame, if_neg hi]
  ext1
  · rw [encode_rfi, encode_rfi, hff, hrtr, hhas, hdlc]
    cases has s.tfi rtr <;> rfl
  · rw [encode_rid, hfi, encode_ff, hid, encode_rid]
    exact and_and_eq_self BitVec.and_self
  · rw [QemuCanFrame.encode, QemuCanFrame.encode, hbytes]
  · rw [QemuCanFrame.encode, QemuCanFrame.encode, hbytes]

end CanState

section Relay

variable {bus : CanBusState ι}

theorem rxBuffer_request {c j : ι} {net net' : Net ι} {val : Word} {out : List (ι × Effect)}
    (h : (network bus).step net (.write c 0x24 val) out net') (htr : has val Cmr.tr = true)
    (hj : j ∈ bus.peers c) : (net' j).rxBuffer = (net c).frame.encode := by
  obtain ⟨rfl, -⟩ := step_iff.mp h
  rw [next_request htr net (CanBusState.mem_peers.mp hj).2.2, if_pos hj]
  rfl

def copy (d : ι) (R : RxBuffer) : List (Op ι) :=
  [.write d 0x00 R.rfi, .write d 0x04 R.rid, .write d 0x08 R.rda, .write d 0x0C R.rdb]

def relay (d : ι) (R : RxBuffer) (val : Word) : List (Op ι) := copy d R ++ [.write d 0x24 val]

theorem txBuffer_copy (d : ι) (R : RxBuffer) (net : Net ι) :
    (((copy d R).foldl (fun net op => op.next bus net) net) d).txBuffer = R := by
  have hwrite : ∀ (addr : Nat) (val : Word) (net : Net ι),
      (Op.write d addr val).next bus net d = (net d).write val (Reg.ofAddr addr) :=
    fun addr val net => next_target bus net (.write d addr val)
  simp only [copy, List.foldl_cons, List.foldl_nil, hwrite]
  rfl

theorem run_relay {d : ι} {R : RxBuffer} {val : Word} {net net' : Net ι} {tr : Trace ι}
    (h : (network bus).Run net tr net') (hops : tr.map Event.op = relay d R val) :
    ∃ net₁ out, (net₁ d).txBuffer = R ∧ (network bus).step net₁ (.write d 0x24 val) out net' := by
  have hend := run_foldl h
  rw [hops, relay, List.foldl_append] at hend
  exact ⟨_, _, txBuffer_copy d R net, step_iff.mpr ⟨hend, rfl⟩⟩

/-- Requests that pass a message on: each sends what some receiver of the one before has kept,
anything else may have happened in between. -/
inductive Relayed (bus : CanBusState ι) (c₀ : ι) (net₀ : Net ι) : ι → Net ι → Prop
  | sent : Relayed bus c₀ net₀ c₀ net₀
  | relay {c j d : ι} {net net₁ net₂ : Net ι} {val : Word} {out : List (ι × Effect)} :
      Relayed bus c₀ net₀ c net → j ∈ bus.peers c → (net₁ d).txBuffer = (net j).rxBuffer →
      has val Cmr.tr = true → (network bus).step net₁ (.write d 0x24 val) out net₂ →
      Relayed bus c₀ net₀ d net₂

theorem Relayed.rxBuffer {c₀ c : ι} {s : CanState} {net₀ net : Net ι}
    (h₀ : ∀ j ∈ bus.peers c₀, (net₀ j).rxBuffer = s.frame.encode)
    (h : Relayed bus c₀ net₀ c net) : ∀ j ∈ bus.peers c, (net j).rxBuffer = s.frame.encode := by
  induction h with
  | sent => exact h₀
  | relay _ hj hcopy htr hstep ih =>
    intro k hk
    rw [rxBuffer_request hstep htr hk]
    exact encode_of_txBuffer (hcopy.trans (ih _ hj))

/-- What the receivers of a request keep is the same at every controller that gets it from one of
them, at first or at second hand. -/
theorem store_and_forward {c i : ι} {net net₀ : Net ι} {val : Word} {out : List (ι × Effect)}
    (hstep : (network bus).step net (.write c 0x24 val) out net₀) (htr : has val Cmr.tr = true)
    (hi : i ∈ bus.peers c) :
    (∀ (d : ι) (val' : Word) (net₁ net₂ : Net ι) (tr : Trace ι), has val' Cmr.tr = true →
      (network bus).Run net₁ tr net₂ → tr.map Event.op = relay d (net₀ i).rxBuffer val' →
      ∀ j ∈ bus.peers d, (net₂ j).rxBuffer = (net₀ i).rxBuffer) ∧
    ∀ (d : ι) (net₂ : Net ι), Relayed bus c net₀ d net₂ →
      ∀ j ∈ bus.peers d, (net₂ j).rxBuffer = (net₀ i).rxBuffer := by
  have h₀ : ∀ j ∈ bus.peers c, (net₀ j).rxBuffer = (net c).frame.encode :=
    fun j hj => rxBuffer_request hstep htr hj
  have hchain : ∀ {d : ι} {net₂ : Net ι}, Relayed bus c net₀ d net₂ →
      ∀ j ∈ bus.peers d, (net₂ j).rxBuffer = (net₀ i).rxBuffer := by
    intro d net₂ h j hj
    rw [h.rxBuffer h₀ j hj, h₀ i hi]
  refine ⟨?_, fun d net₂ h => hchain h⟩
  intro d val' net₁ net₂ tr htr' hrun hops
  obtain ⟨net', out', hcopy, hlast⟩ := run_relay hrun hops
  exact hchain (.relay .sent hi hcopy htr' hlast)

end Relay

theorem store_and_forward_echo : ∃ net₀ net₂ : Net (Fin 2),
    (net₀ can1).rxBuffer.rda = 0x61#32 ∧ (net₂ can0).rxBuffer = (net₀ can1).rxBuffer := by
  have hstep : (network boardBus).step staleMessage (.write can0 0x24 Cmr.tr) _ _ :=
    step_iff.mpr ⟨rfl, rfl⟩
  have hi : can1 ∈ boardBus.peers can0 := by decide
  have hrun : ((network boardBus).restrict fun _ => True).Run
      ((Op.write can0 0x24 Cmr.tr).next boardBus staleMessage) _ _ :=
    .replay _ (relay can1
      (((Op.write can0 0x24 Cmr.tr).next boardBus staleMessage) can1).rxBuffer Cmr.tr) rfl
      (by intro e _; exact ⟨trivial, trivial⟩)
  have h := (store_and_forward hstep rfl hi).1 can1 Cmr.tr _ _ _ rfl (hrun.mono And.right) rfl
    can0 (by decide)
  exact ⟨_, _, by decide, h⟩

end QemuBoard.Can
