import QemuBoard.Can.BusLaws
import QemuBoard.Library.Program

/-! The guest's driver, `Demo/can.c`, as programs over single accesses to the registers
of the two controllers and to the caller's buffers. -/

namespace QemuBoard.Can

open Library

/-- A buffer of type `B` is an array of bytes; `load` and `store` are `b[i]`. -/
inductive Access (B : Type)
  | read (c : Fin 2) (addr : Nat)
  | write (c : Fin 2) (addr : Nat) (val : Word)
  | load (b : B) (i : Nat)
  | store (b : B) (i : Nat) (v : Byte)

abbrev accesses (B : Type) : Signature where
  Op := Access B
  Res
    | .read _ _ => Word
    | .load _ _ => Byte
    | .write _ _ _ | .store _ _ _ => Unit

namespace Driver

abbrev DriverM (B : Type) := Prog (accesses B)

variable {B : Type}

def readReg (c : Fin 2) (addr : Nat) : DriverM B Word :=
  Prog.request (S := accesses B) (.read c addr)

def writeReg (c : Fin 2) (addr : Nat) (val : Word) : DriverM B Unit :=
  Prog.request (S := accesses B) (.write c addr val)

def load (b : B) (i : Nat) : DriverM B Byte := Prog.request (S := accesses B) (.load b i)

def store (b : B) (i : Nat) (v : Byte) : DriverM B Unit :=
  Prog.request (S := accesses B) (.store b i v)

def orReg (c : Fin 2) (addr : Nat) (bits : Word) : DriverM B Unit := do
  let v ← readReg c addr
  writeReg c addr (v ||| bits)

def select {α : Type} (canNumber : Int) (invalid : α) (body : Fin 2 → DriverM B α) : DriverM B α :=
  match canNumber with
  | 0 => body can0
  | 1 => body can1
  | _ => pure invalid

def ide : BitVec 64 := 0x1FFFFFFFF#64

def canInit (canNumber : Int) : DriverM B Unit :=
  select canNumber () fun c => orReg c 0x28 (Ier.rie ||| Ier.doie)

def loadWord (data : B) (i : Nat) : DriverM B Word := do
  let b₀ ← load data i
  let b₁ ← load data (i + 1)
  let b₂ ← load data (i + 2)
  let b₃ ← load data (i + 3)
  pure (b₀.setWidth 32 ||| b₁.setWidth 32 <<< 8 ||| b₂.setWidth 32 <<< 16 ||| b₃.setWidth 32 <<< 24)

/-- Only the branch of controller 0 passes on the two flags. -/
def frameInfo (c : Fin 2) (canDlc isExtendedId isRemoteFrame : Word) : Word :=
  match c with
  | 0 => (isExtendedId &&& 0x1#32) <<< 31 ||| (isRemoteFrame &&& 0x1#32) <<< 30 |||
      (canDlc &&& 0xF#32) <<< dlcPos
  | 1 => (canDlc &&& 0xF#32) <<< dlcPos

def canWrite (canNumber : Int) (canId : Word) (data : B)
    (canDlc isExtendedId isRemoteFrame : Word) : DriverM B Unit :=
  select canNumber () fun c => do
    writeReg c 0x04 canId
    writeReg c 0x00 (frameInfo c canDlc isExtendedId isRemoteFrame)
    let tda ← loadWord data 0
    writeReg c 0x08 tda
    let tdb ← loadWord data 4
    writeReg c 0x0C tdb

def canTransmit (canNumber : Int) : DriverM B Unit :=
  select canNumber () fun c => orReg c 0x24 Cmr.tr

def canHasReceived (canNumber : Int) : DriverM B Int :=
  select canNumber 0 fun c => do
    let v ← readReg c 0x20
    pure (if has v Sr.rbs then 1 else 0)

def canReadDlc (canNumber : Int) : DriverM B Int :=
  select canNumber 0 fun c => do
    let v ← readReg c 0x10
    pure ((v &&& dlcMask) >>> dlcPos).toInt

def canReadId (canNumber : Int) : DriverM B Word :=
  select canNumber 0#32 fun c => do
    let rfi ← readReg c 0x10
    if has rfi ff then
      let rid ← readReg c 0x14
      pure (rid &&& ids)
    else
      -- the mask has 33 bits, so the AND is made in 64
      let rid ← readReg c 0x14
      pure ((rid.setWidth 64 &&& ide).setWidth 32)

def readByte (c : Fin 2) (data : B) (i : Fin 8) (_ : Unit) : DriverM B Unit := do
  if i.val < 4 then
    let v ← readReg c 0x18
    store data i (((v >>> (i.val * 8)) &&& 0xFF#32).setWidth 8)
  else
    let v ← readReg c 0x1C
    store data i (((v >>> ((i.val - 4) * 8)) &&& 0xFF#32).setWidth 8)

def canReadData (canNumber : Int) (data : B) : DriverM B Int :=
  select canNumber (-1) fun c => do
    let v ← readReg c 0x10
    let dlc := (v &&& dlcMask) >>> dlcPos
    Prog.forBelow 8 (readByte c data) dlc.toNat ()
    pure dlc.toInt

def canReadStatusBit (canNumber : Int) (statusBit : Word) : DriverM B Int :=
  select canNumber 0 fun c => do
    let v ← readReg c 0x20
    pure (if has v statusBit then 1 else 0)

def canReleaseReceiveBuffer (canNumber : Int) : DriverM B Unit :=
  select canNumber () fun c => orReg c 0x24 Cmr.rrb

def canClearDataOverrun (canNumber : Int) : DriverM B Unit :=
  select canNumber () fun c => orReg c 0x24 Cmr.cdo

def canClearInterrupt (canNumber : Int) : DriverM B Unit :=
  select canNumber () fun c => orReg c 0x24 (Cmr.rrb ||| Cmr.cdo)

end Driver

@[ext] structure World (B : Type) where
  net : Net (Fin 2)
  mem : B → Nat → Byte

def access {B : Type} [DecidableEq B] :
    (o : Access B) → Action (World B) (Fin 2 × Effect) ((accesses B).Res o)
  | .read c addr => Action.within World.net (fun net w => { w with net := net })
      (Action.on c (canRead addr))
  | .write c addr val => Action.within World.net (fun net w => { w with net := net })
      (canWrite boardBus c addr val)
  | .load b i => do
    let w ← Action.get
    pure (w.mem b i)
  | .store b i v =>
    Action.modify fun w =>
      { w with mem := Function.update w.mem b (Function.update (w.mem b) i v) }

/-- A call that runs to its end with nobody in between: its result and what it leaves. -/
def call {B α : Type} [DecidableEq B] (p : Driver.DriverM B α) (w : World B) :
    Option (α × World B) :=
  (p.run access).eval w

end QemuBoard.Can
