import Mathlib.Logic.Equiv.Basic
import QemuBoard.Can.Transfer

namespace QemuBoard.Can

open Library CanState

section Rename

variable {ι κ : Type} [DecidableEq ι] [DecidableEq κ]

def Op.map (f : ι → κ) : Op ι → Op κ
  | .read c addr => .read (f c) addr
  | .write c addr val => .write (f c) addr val
  | .reset c => .reset (f c)
  | .receive c frame => .receive (f c) frame

def Net.rename (e : ι ≃ κ) (net : Net ι) : Net κ := fun j => net (e.symm j)

omit [DecidableEq ι] [DecidableEq κ] in
@[simp] theorem Net.rename_apply (e : ι ≃ κ) (net : Net ι) (c : ι) :
    net.rename e (e c) = net c := by
  rw [Net.rename, e.symm_apply_apply]

omit [DecidableEq ι] [DecidableEq κ] in
@[simp] theorem Op.target_map (f : ι → κ) (op : Op ι) : (op.map f).target = f op.target := by
  cases op <;> rfl

omit [DecidableEq ι] [DecidableEq κ] in
@[simp] theorem Op.own_map (f : ι → κ) (op : Op ι) (s : CanState) :
    (op.map f).own s = op.own s := by
  cases op <;> rfl

omit [DecidableEq ι] [DecidableEq κ] in
@[simp] theorem Op.sent?_rename (e : ι ≃ κ) (op : Op ι) (net : Net ι) :
    (op.map e).sent? (net.rename e) = op.sent? net := by
  cases op with
  | write c addr val => simp [Op.map, Op.sent?]
  | read c addr | reset c | receive c frame => rfl

theorem next_rename (e : ι ≃ κ) {bus : CanBusState ι} {bus' : CanBusState κ}
    (hpeers : ∀ c j, e j ∈ bus'.peers (e c) ↔ j ∈ bus.peers c) (op : Op ι) (net : Net ι) :
    (op.map e).next bus' (net.rename e) = (op.next bus net).rename e := by
  funext j
  obtain ⟨c, rfl⟩ := e.surjective j
  rw [Net.rename_apply]
  by_cases hc : c = op.target
  · subst hc
    have hown := next_target bus' (net.rename e) (op.map e)
    rw [Op.target_map, Op.own_map, Net.rename_apply] at hown
    rw [hown, next_target]
  · have hec : e c ≠ (op.map e).target := by
      rw [Op.target_map]
      exact fun h => hc (e.injective h)
    rw [next_other bus' _ hec, next_other bus net hc, Op.sent?_rename, Op.target_map,
      Net.rename_apply]
    cases op.sent? net with
    | none => rfl
    | some frame => simp only [hpeers]

end Rename

def other : Fin 2 ≃ Fin 2 := Equiv.swap can0 can1

variable {B : Type}

@[simps] def World.swap (w : World B) : World B := { w with net := w.net.rename other }

theorem World.swap_step (w : World B) (op : Op (Fin 2)) :
    w.swap.step (op.map other) = (w.step op).swap := by
  have hpeers : ∀ c j, other j ∈ boardBus.peers (other c) ↔ j ∈ boardBus.peers c := by decide
  rw [World.step, World.swap, World.swap, next_rename other hpeers]
  rfl

theorem rename_other (net : Net (Fin 2)) : net.rename other can1 = net can0 :=
  Net.rename_apply other net can0

variable [DecidableEq B] {α β : Type}

def Mirrors (p q : Driver.DriverM B α) : Prop :=
  ∀ w : World B, call q w.swap = (call p w).map fun r => (r.1, r.2.swap)

namespace Mirrors

theorem ret (a : α) : Mirrors (B := B) (pure a) (pure a) := fun _ => rfl

theorem bind {p q : Driver.DriverM B α} {f g : α → Driver.DriverM B β} (hp : Mirrors p q)
    (hf : ∀ a, Mirrors (f a) (g a)) : Mirrors (p >>= f) (q >>= g) := by
  intro w
  rw [call_bind, call_bind, hp w]
  cases call p w with
  | none => rfl
  | some r => exact hf r.1 r.2

theorem readReg (addr : Nat) :
    Mirrors (B := B) (Driver.readReg can0 addr) (Driver.readReg can1 addr) := by
  intro w
  rw [Driver.call_readReg, Driver.call_readReg, World.swap_net, rename_other]
  rfl

theorem writeReg (addr : Nat) (val : Word) :
    Mirrors (B := B) (Driver.writeReg can0 addr val) (Driver.writeReg can1 addr val) := by
  intro w
  rw [Driver.call_writeReg, Driver.call_writeReg]
  exact congrArg (fun v => some ((), v)) (w.swap_step (.write can0 addr val))

theorem load (b : B) (i : Nat) : Mirrors (Driver.load b i) (Driver.load b i) := fun _ => rfl

theorem store (b : B) (i : Nat) (v : Byte) : Mirrors (Driver.store b i v) (Driver.store b i v) :=
  fun _ => rfl

theorem forBelow {cap : Nat} {f g : Fin cap → α → Driver.DriverM B α}
    (hf : ∀ i a, Mirrors (f i a) (g i a)) (n : Nat) (a : α) :
    Mirrors (Prog.forBelow cap f n a) (Prog.forBelow cap g n a) := by
  induction n with
  | zero => exact ret a
  | succ n ih =>
    apply ih.bind
    intro b
    split
    · exact hf _ b
    · exact ret b

theorem orReg (addr : Nat) (bits : Word) :
    Mirrors (B := B) (Driver.orReg can0 addr bits) (Driver.orReg can1 addr bits) :=
  (readReg addr).bind fun v => writeReg addr (v ||| bits)

theorem loadWord (data : B) (i : Nat) : Mirrors (Driver.loadWord data i) (Driver.loadWord data i) :=
  (load data i).bind fun _ => (load data _).bind fun _ => (load data _).bind fun _ =>
    (load data _).bind fun _ => ret _

theorem readByte (data : B) (i : Fin 8) (u : Unit) :
    Mirrors (Driver.readByte can0 data i u) (Driver.readByte can1 data i u) := by
  unfold Driver.readByte
  split
  · exact (readReg 0x18).bind fun v => store data i _
  · exact (readReg 0x1C).bind fun v => store data i _

theorem canReadData (data : B) : Mirrors (Driver.canReadData 0 data) (Driver.canReadData 1 data) :=
  (readReg 0x10).bind fun _ => (forBelow (readByte data) _ ()).bind fun _ => ret _

theorem canReadId : Mirrors (B := B) (Driver.canReadId 0) (Driver.canReadId 1) := by
  refine (readReg 0x10).bind fun rfi => ?_
  split
  · exact (readReg 0x14).bind fun _ => ret _
  · exact (readReg 0x14).bind fun _ => ret _

theorem canWrite {canDlc isExtendedId isRemoteFrame : Word}
    (h : Driver.frameInfo can0 canDlc isExtendedId isRemoteFrame =
      Driver.frameInfo can1 canDlc isExtendedId isRemoteFrame) (canId : Word) (data : B) :
    Mirrors (Driver.canWrite 0 canId data canDlc isExtendedId isRemoteFrame)
      (Driver.canWrite 1 canId data canDlc isExtendedId isRemoteFrame) := by
  refine (writeReg 0x04 canId).bind fun _ => ?_
  rw [h]
  exact (writeReg 0x00 _).bind fun _ => (loadWord data 0).bind fun tda =>
    (writeReg 0x08 tda).bind fun _ => (loadWord data 4).bind fun tdb => writeReg 0x0C tdb

end Mirrors

inductive DriverCall (B : Type)
  | write (canId : Word) (data : B) (canDlc isExtendedId isRemoteFrame : Word)
  | transmit
  | hasReceived
  | readDlc
  | readId
  | readData (data : B)
  | readStatusBit (statusBit : Word)
  | releaseReceiveBuffer
  | clearDataOverrun
  | clearInterrupt

namespace DriverCall

abbrev Res : DriverCall B → Type
  | .write _ _ _ _ _ | .transmit => Unit
  | .releaseReceiveBuffer | .clearDataOverrun | .clearInterrupt => Unit
  | .readId => Word
  | .hasReceived | .readDlc | .readData _ | .readStatusBit _ => Int

def prog (canNumber : Int) : (f : DriverCall B) → Driver.DriverM B f.Res
  | .write canId data canDlc isExtendedId isRemoteFrame =>
    Driver.canWrite canNumber canId data canDlc isExtendedId isRemoteFrame
  | .transmit => Driver.canTransmit canNumber
  | .hasReceived => Driver.canHasReceived canNumber
  | .readDlc => Driver.canReadDlc canNumber
  | .readId => Driver.canReadId canNumber
  | .readData data => Driver.canReadData canNumber data
  | .readStatusBit statusBit => Driver.canReadStatusBit canNumber statusBit
  | .releaseReceiveBuffer => Driver.canReleaseReceiveBuffer canNumber
  | .clearDataOverrun => Driver.canClearDataOverrun canNumber
  | .clearInterrupt => Driver.canClearInterrupt canNumber

/-- For the second controller and the swapped states the call returns the same, leaves the same
memory and the states swapped again. -/
def Symmetric (f : DriverCall B) (w : World B) : Prop :=
  call (f.prog 1) w.swap = (call (f.prog 0) w).map fun r => (r.1, r.2.swap)

def Unflagged : DriverCall B → Prop
  | .write _ _ _ isExtendedId isRemoteFrame =>
    isExtendedId.getLsbD 0 = false ∧ isRemoteFrame.getLsbD 0 = false
  | .transmit | .hasReceived | .readDlc | .readId | .readData _ | .readStatusBit _
  | .releaseReceiveBuffer | .clearDataOverrun | .clearInterrupt => True

end DriverCall

theorem frameInfo_eq_iff (canDlc isExtendedId isRemoteFrame : Word) :
    Driver.frameInfo can0 canDlc isExtendedId isRemoteFrame =
        Driver.frameInfo can1 canDlc isExtendedId isRemoteFrame ↔
      isExtendedId.getLsbD 0 = false ∧ isRemoteFrame.getLsbD 0 = false := by
  obtain ⟨hff, hrtr, -⟩ := frameInfo_zero canDlc isExtendedId isRemoteFrame
  constructor
  · intro h
    obtain ⟨hff', hrtr', -⟩ := frameInfo_one canDlc isExtendedId isRemoteFrame
    rw [← hff, ← hrtr]
    rw [← h] at hff' hrtr'
    exact ⟨hff', hrtr'⟩
  · rintro ⟨hext, hremote⟩
    have hbit : ∀ x : Word, x.getLsbD 0 = false → x &&& 0x1#32 = 0#32 := by
      intro x hx
      rw [BitVec.and_one_eq_setWidth_ofBool_getLsbD, hx]
      rfl
    simp [Driver.frameInfo, hbit _ hext, hbit _ hremote]

theorem frameInfo_eq_of_symmetric {w : World B} {canId canDlc isExtendedId isRemoteFrame : Word}
    {data : B}
    (h : (DriverCall.write canId data canDlc isExtendedId isRemoteFrame).Symmetric w) :
    Driver.frameInfo can0 canDlc isExtendedId isRemoteFrame =
      Driver.frameInfo can1 canDlc isExtendedId isRemoteFrame := by
  have hzero := Driver.call_canWrite w can0 canId data canDlc isExtendedId isRemoteFrame
  have hone := Driver.call_canWrite w.swap can1 canId data canDlc isExtendedId isRemoteFrame
  have hworlds := hone.symm.trans (h.trans (congrArg (Option.map _) hzero))
  have htfi :=
    congrArg (fun r : Option (Unit × World B) => r.map fun r => (r.2.net can1).tfi) hworlds
  simpa [Driver.written, rename_other] using htfi.symm

/-- Every function treats the two controllers alike, but for the flags of `CAN_write`, which only
the branch of the first one passes on. -/
theorem driver_symmetric_iff (f : DriverCall B) (w : World B) : f.Symmetric w ↔ f.Unflagged := by
  cases f with
  | write canId data canDlc isExtendedId isRemoteFrame =>
    refine ⟨fun h => (frameInfo_eq_iff ..).mp (frameInfo_eq_of_symmetric h), fun h => ?_⟩
    exact Mirrors.canWrite ((frameInfo_eq_iff ..).mpr h) canId data w
  | transmit => exact iff_of_true (Mirrors.orReg 0x24 Cmr.tr w) trivial
  | hasReceived => exact iff_of_true (((Mirrors.readReg 0x20).bind fun _ => .ret _) w) trivial
  | readDlc => exact iff_of_true (((Mirrors.readReg 0x10).bind fun _ => .ret _) w) trivial
  | readId => exact iff_of_true (Mirrors.canReadId w) trivial
  | readData data => exact iff_of_true (Mirrors.canReadData data w) trivial
  | readStatusBit statusBit =>
    exact iff_of_true (((Mirrors.readReg 0x20).bind fun _ => .ret _) w) trivial
  | releaseReceiveBuffer => exact iff_of_true (Mirrors.orReg 0x24 Cmr.rrb w) trivial
  | clearDataOverrun => exact iff_of_true (Mirrors.orReg 0x24 Cmr.cdo w) trivial
  | clearInterrupt => exact iff_of_true (Mirrors.orReg 0x24 (Cmr.rrb ||| Cmr.cdo) w) trivial

/-- An extended frame, and a remote frame, become plain ones on the second controller. -/
theorem driver_not_symmetric :
    ¬ (DriverCall.write 0x123#32 () 8#32 1#32 0#32).Symmetric ⟨Net.reset, fun _ _ => 0#8⟩ ∧
    ¬ (DriverCall.write 0x123#32 () 8#32 0#32 1#32).Symmetric ⟨Net.reset, fun _ _ => 0#8⟩ := by
  constructor
  · intro h
    exact absurd (frameInfo_eq_of_symmetric h) (by decide)
  · intro h
    exact absurd (frameInfo_eq_of_symmetric h) (by decide)

end QemuBoard.Can
