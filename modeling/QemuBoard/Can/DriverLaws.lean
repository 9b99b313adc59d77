import QemuBoard.Can.Driver

namespace QemuBoard.Can

open Library

variable {B α β : Type}

namespace World

@[simps] def step (w : World B) (op : Op (Fin 2)) : World B :=
  { w with net := op.next boardBus w.net }

variable [DecidableEq B]

@[simps] def put (w : World B) (b : B) (i : Nat) (v : Byte) : World B :=
  { w with mem := Function.update w.mem b (Function.update (w.mem b) i v) }

end World

variable [DecidableEq B]

theorem access_read (w : World B) (c : Fin 2) (addr : Nat) :
    access (.read c addr) w = some ((w.net c).regValue (Reg.ofAddr addr), w, []) := by
  have h := Action.on_of_run (i := c) (s := w.net) (canRead_run (w.net c) addr)
  rw [Function.update_eq_self] at h
  rw [access, Action.within_of_run h]
  rfl

theorem access_write (w : World B) (c : Fin 2) (addr : Nat) (val : Word) :
    access (.write c addr val) w =
      some ((), w.step (.write c addr val), (Op.write c addr val).log boardBus w.net) := by
  rw [access, Action.within_of_run (canWrite_run boardBus c addr val w.net)]
  rfl

@[simp] theorem call_ret (a : α) (w : World B) : call (.ret a) w = some (a, w) := rfl

theorem call_bind (p : Driver.DriverM B α) (f : α → Driver.DriverM B β) (w : World B) :
    call (p >>= f) w = (call p w).bind fun r => call (f r.1) r.2 := by
  rw [call, Prog.run_bind, Action.eval_bind]
  rfl

theorem access_total (o : Access B) (w : World B) : ∃ r v out, access o w = some (r, v, out) := by
  cases o with
  | read c addr => exact ⟨_, _, _, access_read w c addr⟩
  | write c addr val => exact ⟨_, _, _, access_write w c addr val⟩
  | load b i | store b i v => exact ⟨_, _, _, rfl⟩

theorem call_call {o : Access B} {k : (accesses B).Res o → Driver.DriverM B α}
    {r : (accesses B).Res o} {w v : World B} {out : List (Fin 2 × Effect)}
    (h : access o w = some (r, v, out)) : call (.call o k) w = call (k r) v := by
  rw [call, Prog.run, Action.eval_bind, Action.eval_of_run h, Option.bind_some]
  rfl

theorem call_poll {o : Access B} {q : (accesses B).Res o → Bool}
    {k : (accesses B).Res o → Driver.DriverM B α} {r : (accesses B).Res o} {w v : World B}
    {out : List (Fin 2 × Effect)} (h : access o w = some (r, v, out)) :
    call (.poll o q k) w = if q r then call (k r) v else none := by
  rw [call, Prog.run, Action.eval_bind, Action.eval_of_run h, Option.bind_some]
  split <;> rfl

namespace Driver

@[simp] theorem call_readReg (w : World B) (c : Fin 2) (addr : Nat) :
    call (readReg c addr) w = some ((w.net c).regValue (Reg.ofAddr addr), w) := by
  apply Action.eval_of_run
  rw [readReg, Prog.request, Prog.run_call (access_read w c addr)]
  rfl

@[simp] theorem call_writeReg (w : World B) (c : Fin 2) (addr : Nat) (val : Word) :
    call (writeReg c addr val) w = some ((), w.step (.write c addr val)) := by
  apply Action.eval_of_run
  rw [writeReg, Prog.request, Prog.run_call (access_write w c addr val)]
  rfl

@[simp] theorem call_load (w : World B) (b : B) (i : Nat) :
    call (load b i) w = some (w.mem b i, w) := rfl

@[simp] theorem call_store (w : World B) (b : B) (i : Nat) (v : Byte) :
    call (store b i v) w = some ((), w.put b i v) := rfl

omit [DecidableEq B] in
theorem select_val (c : Fin 2) (invalid : α) (body : Fin 2 → DriverM B α) :
    select (c.val : Int) invalid body = body c := by
  match c with
  | 0 => rfl
  | 1 => rfl

@[simp] theorem call_orReg (w : World B) (c : Fin 2) (addr : Nat) (bits : Word) :
    call (orReg c addr bits) w =
      some ((), w.step (.write c addr ((w.net c).regValue (Reg.ofAddr addr) ||| bits))) := by
  simp [orReg, call_bind]

@[simp] theorem call_loadWord (w : World B) (data : B) (i : Nat) :
    call (loadWord data i) w = some (ofLanes fun j => w.mem data (i + j), w) := by
  simp [loadWord, call_bind, ofLanes, place]

def written (s : CanState) (c : Fin 2) (canId : Word) (bytes : Nat → Byte)
    (canDlc isExtendedId isRemoteFrame : Word) : CanState :=
  { s with
    tid := canId
    tfi := frameInfo c canDlc isExtendedId isRemoteFrame
    tda := ofLanes bytes
    tdb := ofLanes fun j => bytes (4 + j) }

theorem call_canWrite (w : World B) (c : Fin 2) (canId : Word) (data : B)
    (canDlc isExtendedId isRemoteFrame : Word) :
    call (canWrite c.val canId data canDlc isExtendedId isRemoteFrame) w =
      some ((), { w with
        net := Function.update w.net c
          (written (w.net c) c canId (w.mem data) canDlc isExtendedId isRemoteFrame) }) := by
  have hnext : ∀ (net : Net (Fin 2)) (addr : Nat) (val : Word), Reg.ofAddr addr ≠ some .cmr →
      (Op.write c addr val).next boardBus net =
        Function.update net c ((net c).write val (Reg.ofAddr addr)) := by
    intro net addr val h
    simp [Op.next, Op.sent?, h, Op.target, Op.own]
  simp [canWrite, select_val, call_bind, World.step, hnext, Reg.ofAddr, CanState.write, written]

theorem call_canTransmit (w : World B) (c : Fin 2) (hcmr : (w.net c).cmr = 0#32) :
    call (canTransmit c.val) w = some ((), w.step (.write c 0x24 Cmr.tr)) := by
  simp [canTransmit, select_val, Reg.ofAddr, CanState.regValue, hcmr]

theorem call_canReleaseReceiveBuffer (w : World B) (c : Fin 2) (hcmr : (w.net c).cmr = 0#32) :
    call (canReleaseReceiveBuffer c.val) w = some ((), w.step (.write c 0x24 Cmr.rrb)) := by
  simp [canReleaseReceiveBuffer, select_val, Reg.ofAddr, CanState.regValue, hcmr]

theorem call_canHasReceived (w : World B) (c : Fin 2) :
    call (canHasReceived c.val) w = some (if has (w.net c).sr Sr.rbs then 1 else 0, w) := by
  simp [canHasReceived, select_val, call_bind, Reg.ofAddr, CanState.regValue]

theorem call_canReadDlc (w : World B) (c : Fin 2) :
    call (canReadDlc c.val) w = some ((((w.net c).rfi &&& dlcMask) >>> dlcPos).toInt, w) := by
  simp [canReadDlc, select_val, call_bind, Reg.ofAddr, CanState.regValue]

theorem call_readByte (w : World B) (c : Fin 2) (data : B) (i : Fin 8) :
    call (readByte c data i ()) w = some ((), w.put data i ((w.net c).rxByte i)) := by
  unfold readByte CanState.rxByte
  split <;> simp [call_bind, Reg.ofAddr, CanState.regValue, ← lane_mask]

theorem call_readBytes (w : World B) (c : Fin 2) (data : B) (n : Nat) :
    call (Prog.forBelow 8 (readByte c data) n ()) w =
      some ((), { w with
        mem := Function.update w.mem data fun i =>
          if i < 8 ∧ i < n then (w.net c).rxByte i else w.mem data i }) := by
  induction n with
  | zero => simp [Prog.forBelow]
  | succ n ih =>
    rw [Prog.forBelow, call_bind, ih, Option.bind_some]
    split
    case isTrue h =>
      have hround : Function.update
          (fun i => if i < 8 ∧ i < n then (w.net c).rxByte i else w.mem data i) n
            ((w.net c).rxByte n) =
          fun i => if i < 8 ∧ i < n + 1 then (w.net c).rxByte i else w.mem data i := by
        funext i
        rw [Function.update_apply]
        by_cases hi : i = n
        · simp [hi, h]
        · simp only [hi, if_false, show i < n + 1 ↔ i < n by omega]
      rw [call_readByte, World.put]
      simp only [Function.update_self, Function.update_idem, hround]
    case isFalse h =>
      have hbound : ∀ i, (i < 8 ∧ i < n + 1) ↔ (i < 8 ∧ i < n) := by omega
      simp only [call_ret, hbound]

theorem call_canReadData (w : World B) (c : Fin 2) (data : B) :
    call (canReadData c.val data) w =
      some ((((w.net c).rfi &&& dlcMask) >>> dlcPos).toInt, { w with
        mem := Function.update w.mem data fun i =>
          if i < 8 ∧ i < (((w.net c).rfi &&& dlcMask) >>> dlcPos).toNat then (w.net c).rxByte i
          else w.mem data i }) := by
  simp [canReadData, select_val, call_bind, Reg.ofAddr, CanState.regValue, call_readBytes]

end Driver

end QemuBoard.Can
