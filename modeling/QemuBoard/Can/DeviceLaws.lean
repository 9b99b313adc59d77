import QemuBoard.Can.Device

namespace QemuBoard.Can

open Library Action

@[ext] structure RxBuffer where
  rfi : Word
  rid : Word
  rda : Word
  rdb : Word
  deriving DecidableEq

def copied (data : Fin 64 → Byte) (n i : Nat) : Byte :=
  if h : i < 8 then if i < n then data ⟨i, by omega⟩ else 0#8 else 0#8

theorem copied_self (data : Fin 64 → Byte) (n : Nat) : copied data n n = 0#8 := by simp [copied]

theorem copied_succ {n : Nat} (data : Fin 64 → Byte) (h : n < 8) :
    copied data (n + 1) = Function.update (copied data n) n (data ⟨n, by omega⟩) := by
  funext i
  rw [Function.update_apply]
  by_cases hi : i = n
  · subst hi
    simp [copied, h]
  · simp [copied, hi, show i < n + 1 ↔ i < n by omega]

theorem copied_of_le {n : Nat} (data : Fin 64 → Byte) (h : ¬ n < 8) :
    copied data (n + 1) = copied data n := by
  funext i
  unfold copied
  split
  · simp [show i < n by omega, show i < n + 1 by omega]
  · rfl

namespace QemuCanFrame

def payload (frame : QemuCanFrame) : Nat → Byte := copied frame.data frame.canDlc.toNat

def encode (frame : QemuCanFrame) : RxBuffer where
  rfi := (frame.canId &&& qemuCanEffFlag) ||| (frame.canId &&& qemuCanRtrFlag) |||
    ((frame.canDlc.setWidth 32 <<< dlcPos) &&& dlcMask)
  rid := frame.canId &&& qemuCanEffMask
  rda := ofLanes frame.payload
  rdb := ofLanes fun i => frame.payload (i + 4)

end QemuCanFrame

namespace CanState

@[simps] def rxBuffer (s : CanState) : RxBuffer where
  rfi := s.rfi
  rid := s.rid
  rda := s.rda
  rdb := s.rdb

/-- The only pairing of an enable bit and a status bit at the same position. -/
def level (s : CanState) : Bool := has s.ier Ier.rie && has s.sr Sr.rbs

@[simps] def raise (s : CanState) : CanState := { s with irq := s.irq || s.level }

@[simps] def lower (s : CanState) : CanState := { s with irq := s.irq && s.level }

@[simps] def setBit (s : CanState) (b : Word) : CanState :=
  { s with sr := s.sr ||| b, irq := s.irq || { s with sr := s.sr ||| b }.level }

@[simps] def clearBit (s : CanState) (b : Word) : CanState :=
  { s with sr := s.sr &&& ~~~b, irq := s.irq && { s with sr := s.sr &&& ~~~b }.level }

def raiseLog (s : CanState) : List Effect := if s.level then [.irq true] else []

def lowerLog (s : CanState) : List Effect := if s.level then [] else [.irq false]

def setLog (s : CanState) (b : Word) : List Effect := { s with sr := s.sr ||| b }.raiseLog

def clearLog (s : CanState) (b : Word) : List Effect := { s with sr := s.sr &&& ~~~b }.lowerLog

@[simps] def received (s : CanState) (frame : QemuCanFrame) : CanState :=
  { s with
    rfi := frame.encode.rfi
    rid := frame.encode.rid
    rda := frame.encode.rda
    rdb := frame.encode.rdb
    sr := (if has s.sr Sr.rbs then s.sr ||| Sr.dos else s.sr) ||| Sr.rbs
    irq := s.irq || has s.ier Ier.rie }

def receiveLog (s : CanState) (frame : QemuCanFrame) : List Effect :=
  .receive frame :: ((if has s.sr Sr.rbs then s.setLog Sr.dos else []) ++ s.setLog Sr.rbs)

def regValue (s : CanState) : Option Reg → Word
  | some .rfi => s.rfi
  | some .rid => s.rid
  | some .rda => s.rda
  | some .rdb => s.rdb
  | some .sr => s.sr
  | some .cmr => s.cmr
  | some .ier => s.ier
  | some .tfi | some .tid | some .tda | some .tdb | none => 0#32

end CanState

open CanState

theorem raise_condition (s : CanState) :
    (has (s.ier &&& Ier.rie) (s.sr &&& Sr.rbs) || has (s.ier &&& Ier.doie) (s.sr &&& Sr.dos)) =
      s.level := by
  simp [level]

theorem pulse_condition (s : CanState) : has (s.ier &&& Ier.tie) (s.sr &&& Sr.tcs) = false := by
  simp

theorem lower_condition (s : CanState) :
    (has (s.ier &&& Ier.rie) (s.sr &&& Sr.rbs) || has (s.ier &&& Ier.tie) (s.sr &&& Sr.tcs) ||
      has (s.ier &&& Ier.doie) (s.sr &&& Sr.dos)) = s.level := by
  simp [level]

theorem checkAndSetInterrupt_run (s : CanState) :
    checkAndSetInterrupt s = some ((), s.raise, s.raiseLog) := by
  simp only [checkAndSetInterrupt, bind_of_run (get_run s), after_nil, ite_run, raise_condition,
    pulse_condition]
  cases h : s.level <;> simp [raise, raiseLog, h, qemuSetIrq, bind_run]

theorem checkAndClearInterrupt_run (s : CanState) :
    checkAndClearInterrupt s = some ((), s.lower, s.lowerLog) := by
  simp only [checkAndClearInterrupt, bind_of_run (get_run s), after_nil, ite_run, lower_condition]
  cases h : s.level <;> simp [lower, lowerLog, h, qemuSetIrq, bind_run]

theorem setStatusBit_run (s : CanState) (b : Word) :
    setStatusBit b s = some ((), s.setBit b, s.setLog b) := by
  rw [setStatusBit, bind_of_run (modify_run _ _), after_nil, checkAndSetInterrupt_run]
  rfl

theorem resetStatusBit_run (s : CanState) (b : Word) :
    resetStatusBit b s = some ((), s.clearBit b, s.clearLog b) := by
  rw [resetStatusBit, bind_of_run (modify_run _ _), after_nil, checkAndClearInterrupt_run]
  rfl

theorem storeByte_low {i : Fin 8} (data : Fin 64 → Byte) (s : CanState) (h : i.val < 4) :
    storeByte data i s =
      { s with rda := s.rda ||| place (data (i.castLE (by decide))) i.val } := by
  simp [storeByte, h, place]

theorem storeByte_high {i : Fin 8} (data : Fin 64 → Byte) (s : CanState) (h : ¬ i.val < 4) :
    storeByte data i s =
      { s with rdb := s.rdb ||| place (data (i.castLE (by decide))) (i.val - 4) } := by
  simp [storeByte, h, place]

theorem storeByte_copied {n : Nat} (data : Fin 64 → Byte) (s : CanState) (h : n < 8) :
    storeByte data ⟨n, h⟩
        { s with
          rda := ofLanes (copied data n)
          rdb := ofLanes fun i => copied data n (i + 4) } =
      { s with
        rda := ofLanes (copied data (n + 1))
        rdb := ofLanes fun i => copied data (n + 1) (i + 4) } := by
  rw [copied_succ data h]
  by_cases h4 : n < 4
  · have hrdb : (ofLanes fun i => Function.update (copied data n) n (data ⟨n, by omega⟩) (i + 4)) =
        ofLanes fun i => copied data n (i + 4) := by
      apply ofLanes_congr
      intro i _
      rw [Function.update_of_ne (by omega)]
    rw [storeByte_low _ _ h4, ofLanes_or_place h4 (copied_self data n), hrdb]
    rfl
  · have hn : n - 4 + 4 = n := by omega
    have hrda : ofLanes (Function.update (copied data n) n (data ⟨n, by omega⟩)) =
        ofLanes (copied data n) := by
      apply ofLanes_congr
      intro i hi
      rw [Function.update_of_ne (by omega)]
    have hrdb : (fun i => Function.update (copied data n) n (data ⟨n, by omega⟩) (i + 4)) =
        Function.update (fun i => copied data n (i + 4)) (n - 4) (data ⟨n, by omega⟩) := by
      funext i
      simp only [Function.update_apply, show i = n - 4 ↔ i + 4 = n by omega]
    rw [storeByte_high _ _ h4, ofLanes_or_place (by dsimp only; omega) (by rw [hn, copied_self]),
      hrda, hrdb]
    rfl

theorem forBelow_storeByte {s : CanState} (data : Fin 64 → Byte) (n : Nat) (ha : s.rda = 0#32)
    (hb : s.rdb = 0#32) : forBelow 8 (storeByte data) n s =
      { s with
        rda := ofLanes (copied data n)
        rdb := ofLanes fun i => copied data n (i + 4) } := by
  induction n with
  | zero =>
    have h : copied data 0 = fun _ => 0#8 := by
      funext i
      simp [copied]
    ext <;> simp [forBelow, h, ha, hb]
  | succ n ih =>
    rw [forBelow, ih]
    by_cases h : n < 8
    · rw [dif_pos h, storeByte_copied data s h]
    · rw [dif_neg h, copied_of_le data h]

theorem canReceive_run (s : CanState) (frame : QemuCanFrame) :
    canReceive frame s = some (0, s.received frame, s.receiveLog frame) := by
  simp only [canReceive, bind_run, emit_run, get_run, ite_run, setStatusBit_run, modify_run,
    pure_run, after_some, forBelow_storeByte]
  -- whether the first update raises the line or not, the second one ends at RIE
  cases hrbs : has s.sr Sr.rbs <;>
    simp [hrbs, receiveLog, received, setLog, raiseLog, setBit, level, QemuCanFrame.encode,
      QemuCanFrame.payload]

theorem canRead_run (s : CanState) (addr : Nat) :
    canRead addr s = some (s.regValue (Reg.ofAddr addr), s, []) := by
  rw [canRead, bind_of_run (get_run s), after_nil]
  cases Reg.ofAddr addr with
  | none => rfl
  | some r => cases r <;> rfl

theorem canReset_run (s : CanState) : canReset s = some ((), .zero false, [.irq false]) := rfl

namespace CanState

def txByte (s : CanState) (i : Nat) : Byte := if i < 4 then lane s.tda i else lane s.tdb (i - 4)

def rxByte (s : CanState) (i : Nat) : Byte := if i < 4 then lane s.rda i else lane s.rdb (i - 4)

theorem loadByte_eq (s : CanState) (i : Fin 8) (data : Fin 64 → Byte) :
    loadByte s i data = Function.update data (i.castLE (by decide)) (s.txByte i) := by
  unfold loadByte txByte
  split <;> rw [lane_mask]

theorem forBelow_loadByte (s : CanState) (n : Nat) (j : Fin 64) :
    forBelow 8 (loadByte s) n (fun _ => 0#8) j =
      if j.val < 8 ∧ j.val < n then s.txByte j else 0#8 := by
  induction n with
  | zero => simp [forBelow]
  | succ n ih =>
    rw [forBelow]
    split
    case isTrue h =>
      rw [loadByte_eq, Function.update_apply, ih]
      by_cases hj : j.val = n
      · have hj' : j = (⟨n, h⟩ : Fin 8).castLE (by decide) := Fin.ext hj
        simp [hj', h]
      · have hj' : j ≠ (⟨n, h⟩ : Fin 8).castLE (by decide) := fun e => hj (congrArg Fin.val e)
        simp only [hj', if_false, show j.val < n + 1 ↔ j.val < n by omega]
    case isFalse h =>
      rw [ih]
      simp only [show (j.val < 8 ∧ j.val < n + 1) ↔ (j.val < 8 ∧ j.val < n) by omega]

theorem payload_frame (s : CanState) (i : Nat) :
    s.frame.payload i = if i < 8 ∧ i < s.frame.canDlc.toNat then s.txByte i else 0#8 := by
  unfold QemuCanFrame.payload copied
  by_cases h8 : i < 8
  · by_cases hn : i < s.frame.canDlc.toNat
    · have hdata := forBelow_loadByte s s.frame.canDlc.toNat ⟨i, by omega⟩
      simp only [h8, hn, and_self, if_true, dite_true] at hdata ⊢
      exact hdata
    · simp [h8, hn]
  · simp [h8]

theorem rxByte_received (s : CanState) (frame : QemuCanFrame) {i : Nat} (h : i < 8) :
    (s.received frame).rxByte i = frame.payload i := by
  rw [rxByte, received_rda, received_rdb, QemuCanFrame.encode]
  split
  case isTrue h4 => rw [lane_ofLanes _ h4]
  case isFalse h4 =>
    have hi : i - 4 < 4 := by omega
    rw [lane_ofLanes _ hi, show i - 4 + 4 = i by omega]

end CanState

end QemuBoard.Can
