import QemuBoard.Board.Translation
import QemuBoard.Library.Bytes

/-! How an access of the guest reaches a region: the loads and stores of `accel/tcg/cputlb.c`, the
subpages and the accesses to a flat view of `system/physmem.c`, and the dispatch to the operations
of a region of `system/memory.c`. The host and the target are little-endian. -/

namespace QemuBoard.Board

open Library Action

abbrev MemTxResult := Nat

def memtxOk : MemTxResult := 0
def memtxDecodeError : MemTxResult := 2

structure MemoryRegionOps (σ ε : Type) where
  read : Nat → Nat → Action σ ε (MemTxResult × Nat)
  write : Nat → Nat → Nat → Action σ ε MemTxResult
  bigEndian : Bool := false
  accepts : Nat → Nat → Bool → Bool := fun _ _ _ => true
  validMinAccessSize : Nat := 0
  validMaxAccessSize : Nat := 0
  validUnaligned : Bool := false
  implMinAccessSize : Nat := 0
  implMaxAccessSize : Nat := 0
  implUnaligned : Bool := false

section Dispatch

variable {σ ε α : Type}

def unassignedMemOps : MemoryRegionOps σ ε where
  read _ _ := pure (memtxOk, 0)
  write _ _ _ := pure memtxOk
  accepts _ _ _ := false

def deviceOps (read : Nat → Nat → Action σ ε Nat) (write : Nat → Nat → Nat → Action σ ε Unit) :
    MemoryRegionOps σ ε where
  read addr size := do
    let value ← read addr size
    return (memtxOk, value)
  write addr value size := do
    write addr value size
    return memtxOk

def adjustEndianness (ops : MemoryRegionOps σ ε) (data size : Nat) (bigEndian : Bool) : Nat :=
  if bigEndian ≠ ops.bigEndian then bswap size data else data

def memoryRegionShiftReadAccess (value : Nat) (shift : Int) (size tmp : Nat) : Nat :=
  if shift ≥ 0 then value ||| ((tmp % 256 ^ size) <<< shift.toNat) % 2 ^ 64
  else value ||| (tmp % 256 ^ size) >>> (-shift).toNat

def memoryRegionShiftWriteAccess (value : Nat) (shift : Int) (size : Nat) : Nat :=
  if shift ≥ 0 then value >>> shift.toNat % 256 ^ size
  else value <<< (-shift).toNat % 256 ^ size

/-- `accessFn` gets the offset, the size and the shift of each part. -/
def accessWithAdjustedSize (ops : MemoryRegionOps σ ε) (size : Nat)
    (accessFn : Nat → Nat → Int → α → Action σ ε α) (a : α) : Action σ ε α :=
  let accessSizeMin := if ops.implMinAccessSize = 0 then 1 else ops.implMinAccessSize
  let accessSizeMax := if ops.implMaxAccessSize = 0 then 4 else ops.implMaxAccessSize
  let accessSize := max (min size accessSizeMax) accessSizeMin
  (List.range' 0 ((size + accessSize - 1) / accessSize) accessSize).foldlM
    (fun a i => accessFn i accessSize
      (if ops.bigEndian then ((size : Int) - accessSize - i) * 8 else i * 8) a) a

def memoryRegionReadAccessor (ops : MemoryRegionOps σ ε) (addr i size : Nat) (shift : Int)
    (a : MemTxResult × Nat) : Action σ ε (MemTxResult × Nat) := do
  let (r, tmp) ← ops.read (addr + i) size
  return (a.1 ||| r, memoryRegionShiftReadAccess a.2 shift size tmp)

def memoryRegionWriteAccessor (ops : MemoryRegionOps σ ε) (addr value i size : Nat) (shift : Int)
    (a : MemTxResult) : Action σ ε MemTxResult := do
  let r ← ops.write (addr + i) (memoryRegionShiftWriteAccess value shift size) size
  return a ||| r

def memoryRegionAccessValid (ops : MemoryRegionOps σ ε) (addr size : Nat) (isWrite : Bool) : Bool :=
  if ¬ops.accepts addr size isWrite then false
  else if ¬ops.validUnaligned ∧ addr &&& (size - 1) ≠ 0 then false
  else if ops.validMaxAccessSize = 0 then true
  else ¬(size > ops.validMaxAccessSize ∨ size < ops.validMinAccessSize)

def memoryRegionDispatchRead (ops : MemoryRegionOps σ ε) (addr size : Nat) (bigEndian : Bool) :
    Action σ ε (MemTxResult × Nat) :=
  if memoryRegionAccessValid ops addr size false then do
    let (r, value) ← accessWithAdjustedSize ops size (memoryRegionReadAccessor ops addr)
      (memtxOk, 0)
    return (r, adjustEndianness ops value size bigEndian)
  else
    pure (memtxDecodeError, 0)

def memoryRegionDispatchWrite (ops : MemoryRegionOps σ ε) (addr data size : Nat)
    (bigEndian : Bool) :
    Action σ ε MemTxResult :=
  if memoryRegionAccessValid ops addr size true then
    accessWithAdjustedSize ops size
      (memoryRegionWriteAccessor ops addr (adjustEndianness ops data size bigEndian)) memtxOk
  else
    pure memtxDecodeError

def ctz : Nat → Nat → Nat
  | 0, _ => 0
  | w + 1, n => if n % 2 = 1 then 0 else ctz w (n / 2) + 1

/-- `addr & -addr` as an `unsigned`. -/
def alignSizeMax (addr : Nat) : Nat := if addr = 0 then 0 else 2 ^ ctz 64 addr % 2 ^ 32

def pow2floor (n : Nat) : Nat := if n = 0 then 0 else 2 ^ n.log2

def memoryAccessSize (ops : MemoryRegionOps σ ε) (l addr : Nat) : Nat :=
  let accessSizeMax := if ops.validMaxAccessSize = 0 then 4 else ops.validMaxAccessSize
  let accessSizeMax :=
    if ¬ops.implUnaligned ∧ alignSizeMax addr ≠ 0 ∧ alignSizeMax addr < accessSizeMax then
      alignSizeMax addr
    else
      accessSizeMax
  pow2floor (if l > accessSizeMax then accessSizeMax else l)

end Dispatch

/-- What the regions of an address space are made of: the operations of each, and the memory of
those that are RAM. -/
structure Regions (ρ σ ε : Type) where
  ops : ρ → MemoryRegionOps σ ε
  isRam : ρ → Bool
  readonly : ρ → Bool
  load : ρ → Nat → Nat → Action σ ε (List Nat)
  store : ρ → Nat → List Nat → Action σ ε Unit

section Flat

variable {ρ σ ε : Type} (regions : Regions ρ σ ε) (d : AddressSpaceDispatch ρ)

def memoryAccessIsDirect (mr : SectionMr ρ) (isWrite : Bool) : Option ρ :=
  match mr with
  | .region mr => if regions.isRam mr ∧ ¬(isWrite ∧ regions.readonly mr) then some mr else none
  | .unassigned | .subpage _ => none

def Regions.resolvedOps : SectionMr ρ → MemoryRegionOps σ ε
  | .region mr => regions.ops mr
  | .unassigned | .subpage _ => unassignedMemOps

def flatviewTranslate (addr len : Nat) : Translation ρ × Nat :=
  (addressSpaceTranslateInternal regions.isRam d addr len true).1

def flatviewAccessValid (isWrite : Bool) : (fuel addr len : Nat) → Bool
  | 0, _, _ => true
  | fuel + 1, addr, len =>
    if len = 0 then true
    else
      let (x, l) := flatviewTranslate regions d addr len
      match memoryAccessIsDirect regions x.mr isWrite with
      | some _ => flatviewAccessValid isWrite fuel (addr + l) (len - l)
      | none =>
        let l := memoryAccessSize (regions.resolvedOps x.mr) l addr
        memoryRegionAccessValid (regions.resolvedOps x.mr) x.xlat.toNat l isWrite &&
          flatviewAccessValid isWrite fuel (addr + l) (len - l)

def flatviewWriteContinueStep (x : Translation ρ) (l : Nat) (buf : List Nat) :
    Action σ ε (MemTxResult × Nat) :=
  match memoryAccessIsDirect regions x.mr true with
  | some mr => do
    regions.store mr x.xlat.toNat (buf.take l)
    return (memtxOk, l)
  | none => do
    let l := memoryAccessSize (regions.resolvedOps x.mr) l x.xlat.toNat
    let r ← memoryRegionDispatchWrite (regions.resolvedOps x.mr) x.xlat.toNat
      (Nat.ofDigits 256 (buf.take l)) l false
    return (r, l)

def flatviewWriteContinue : (fuel addr : Nat) → (buf : List Nat) → Action σ ε MemTxResult
  | 0, _, _ => pure memtxOk
  | fuel + 1, addr, buf => do
    let (x, l) := flatviewTranslate regions d addr buf.length
    let (r, l) ← flatviewWriteContinueStep regions x l buf
    if buf.length = l then return r
    else do
      let r' ← flatviewWriteContinue fuel (addr + l) (buf.drop l)
      return r ||| r'

def flatviewWrite (addr : Nat) (buf : List Nat) : Action σ ε MemTxResult :=
  flatviewWriteContinue regions d buf.length addr buf

def flatviewReadContinueStep (x : Translation ρ) (l : Nat) : Action σ ε (MemTxResult × List Nat) :=
  match memoryAccessIsDirect regions x.mr false with
  | some mr => do
    let bytes ← regions.load mr x.xlat.toNat l
    return (memtxOk, bytes)
  | none => do
    let l := memoryAccessSize (regions.resolvedOps x.mr) l x.xlat.toNat
    let (r, value) ← memoryRegionDispatchRead (regions.resolvedOps x.mr) x.xlat.toNat l false
    return (r, leBytes l value)

def flatviewReadContinue : (fuel addr len : Nat) → Action σ ε (MemTxResult × List Nat)
  | 0, _, _ => pure (memtxOk, [])
  | fuel + 1, addr, len => do
    let (x, l) := flatviewTranslate regions d addr len
    let (r, bytes) ← flatviewReadContinueStep regions x l
    if len = bytes.length then return (r, bytes)
    else do
      let (r', rest) ← flatviewReadContinue fuel (addr + bytes.length) (len - bytes.length)
      return (r ||| r', bytes ++ rest)

def flatviewRead (addr len : Nat) : Action σ ε (MemTxResult × List Nat) :=
  flatviewReadContinue regions d len addr len

def addressSpaceLdl (addr : Nat) : Action σ ε (MemTxResult × Nat) :=
  let (x, l) := flatviewTranslate regions d addr 4
  match memoryAccessIsDirect regions x.mr false with
  | some mr =>
    if l < 4 then memoryRegionDispatchRead (regions.ops mr) x.xlat.toNat 4 false
    else do
      let bytes ← regions.load mr x.xlat.toNat 4
      return (memtxOk, Nat.ofDigits 256 bytes)
  | none => memoryRegionDispatchRead (regions.resolvedOps x.mr) x.xlat.toNat 4 false

def addressSpaceStl (addr val : Nat) : Action σ ε MemTxResult :=
  let (x, l) := flatviewTranslate regions d addr 4
  match memoryAccessIsDirect regions x.mr true with
  | some mr =>
    if l < 4 then memoryRegionDispatchWrite (regions.ops mr) x.xlat.toNat val 4 false
    else do
      regions.store mr x.xlat.toNat (leBytes 4 val)
      return memtxOk
  | none => memoryRegionDispatchWrite (regions.resolvedOps x.mr) x.xlat.toNat val 4 false

def addressSpaceWriteRom : (fuel addr : Nat) → (buf : List Nat) → Action σ ε Unit
  | 0, _, _ => pure ()
  | fuel + 1, addr, buf =>
    if buf.length = 0 then pure ()
    else
      let (x, l) := flatviewTranslate regions d (addr % 2 ^ 64) buf.length
      match memoryAccessIsDirect regions x.mr false with
      | some mr => do
        regions.store mr x.xlat.toNat (buf.take l)
        addressSpaceWriteRom fuel (addr + l) (buf.drop l)
      | none =>
        let l := memoryAccessSize (regions.resolvedOps x.mr) l x.xlat.toNat
        addressSpaceWriteRom fuel (addr + l) (buf.drop l)

def fillbufSize : Nat := 512

def addressSpaceSet (c : Nat) : (fuel addr len : Nat) → Action σ ε MemTxResult
  | 0, _, _ => pure memtxOk
  | fuel + 1, addr, len =>
    if len = 0 then pure memtxOk
    else do
      let l := min len fillbufSize
      let error ← flatviewWrite regions d (addr % 2 ^ 64) (List.replicate l c)
      let error' ← addressSpaceSet c fuel (addr + l) (len - l)
      return error ||| error'

def subpageOps (subpage : Subpage) : MemoryRegionOps σ ε where
  read addr len := do
    let (r, buf) ← flatviewRead regions d (addr + subpage.base) len
    return (r, if r ≠ memtxOk then 0 else Nat.ofDigits 256 buf)
  write addr value len := flatviewWrite regions d (addr + subpage.base) (leBytes len value)
  accepts addr len isWrite := flatviewAccessValid regions d isWrite len (addr + subpage.base) len
  validMinAccessSize := 1
  validMaxAccessSize := 8
  implMinAccessSize := 1
  implMaxAccessSize := 8

def sectionOps : SectionMr ρ → MemoryRegionOps σ ε
  | .unassigned => unassignedMemOps
  | .subpage k => subpageOps regions d (subpageAt d k)
  | .region mr => regions.ops mr

end Flat

structure MemOp where
  size : Fin 4
  align : Fin 8 := 0
  deriving DecidableEq

def moUnaln : Fin 8 := 0
def moAlign : Fin 8 := 7

def memopSize (op : MemOp) : Nat := 2 ^ op.size.val

def memopAlignmentBits (memop : MemOp) : Nat :=
  if memop.align = moUnaln then 0
  else if memop.align = moAlign then memop.size
  else memop.align

/-- What the TLB has for a page: the encoded section and offset of one that takes `TLB_MMIO`, or the
memory behind the page, with `TLB_DISCARD_WRITE`. -/
inductive TlbEntry (ρ : Type)
  | mmio (xlatSection : Nat)
  | ram (mr : ρ) (addend : Int) (discardWrite : Bool)

section Guest

variable {ρ σ ε : Type} (regions : Regions ρ σ ε) (d : AddressSpaceDispatch ρ)

def tlbSetPage (page : Nat) : TlbEntry ρ :=
  let n := (addressSpaceLookupRegion d page false).1
  let s := d.sectionAt n
  let xlat := (s.translation page).xlat
  let iotlb := .mmio ((n + xlat - page) % 2 ^ 64).toNat
  match s.mr with
  | .region mr => if regions.isRam mr then .ram mr (xlat - page) s.attrs.readonly else iotlb
  | .unassigned | .subpage _ => iotlb

def ioPrepare (xlatSection addr : Nat) : SectionMr ρ × Nat :=
  ((d.sectionAt (xlatSection % targetPageSize)).mr,
    (xlatSection / targetPageSize * targetPageSize + addr) % 2 ^ 64)

def pieceSize (size addr : Nat) : Nat := 2 ^ ctz 32 (size ||| addr ||| 8)

/-- Returns what is left of the value, or nothing where the access fails and the CPU takes an
exception. -/
def intStMmioLeN (ops : MemoryRegionOps σ ε) :
    (fuel valLe addr size mrOffset : Nat) → Action σ ε (Option Nat)
  | 0, valLe, _, _, _ => pure (some valLe)
  | fuel + 1, valLe, addr, size, mrOffset => do
    let thisSize := pieceSize size addr
    let r ← memoryRegionDispatchWrite ops mrOffset valLe thisSize false
    if r ≠ memtxOk then return none
    else if thisSize = 8 then return some 0
    else if size - thisSize = 0 then return some (valLe >>> (thisSize * 8))
    else
      intStMmioLeN ops fuel (valLe >>> (thisSize * 8)) (addr + thisSize) (size - thisSize)
        (mrOffset + thisSize)

def intLdMmioBeN (ops : MemoryRegionOps σ ε) :
    (fuel retBe addr size mrOffset : Nat) → Action σ ε (Option Nat)
  | 0, retBe, _, _, _ => pure (some retBe)
  | fuel + 1, retBe, addr, size, mrOffset => do
    let thisSize := pieceSize size addr
    let (r, value) ← memoryRegionDispatchRead ops mrOffset thisSize true
    if r ≠ memtxOk then return none
    else if thisSize = 8 then return some value
    else if size - thisSize = 0 then return some ((retBe <<< (thisSize * 8)) % 2 ^ 64 ||| value)
    else
      intLdMmioBeN ops fuel ((retBe <<< (thisSize * 8)) % 2 ^ 64 ||| value) (addr + thisSize)
        (size - thisSize) (mrOffset + thisSize)

def doStMmioLeN (xlatSection valLe addr size : Nat) : Action σ ε (Option Nat) :=
  let (mr, mrOffset) := ioPrepare d xlatSection addr
  intStMmioLeN (sectionOps regions d mr) size valLe addr size mrOffset

def doLdMmioBeN (xlatSection retBe addr size : Nat) : Action σ ε (Option Nat) :=
  let (mr, mrOffset) := ioPrepare d xlatSection addr
  intLdMmioBeN (sectionOps regions d mr) size retBe addr size mrOffset

def doStLeN (valLe addr size : Nat) : Action σ ε (Option Nat) :=
  match tlbSetPage regions d (addr / targetPageSize * targetPageSize) with
  | .mmio xlatSection => doStMmioLeN regions d xlatSection valLe addr size
  | .ram mr addend discardWrite =>
    if discardWrite then pure (some (valLe >>> (size * 8)))
    else do
      regions.store mr (addr + addend).toNat (leBytes size valLe)
      return some (valLe >>> (size * 8))

def doLdBeN (retBe addr size : Nat) : Action σ ε (Option Nat) :=
  match tlbSetPage regions d (addr / targetPageSize * targetPageSize) with
  | .mmio xlatSection => doLdMmioBeN regions d xlatSection retBe addr size
  | .ram mr addend _ => do
    let bytes ← regions.load mr (addr + addend).toNat size
    return some (bytes.foldl (fun retBe b => (retBe <<< 8) % 2 ^ 64 ||| b) retBe)

/-- The store to the one or two pages that `mmu_lookup` finds. Addresses are 32 bits wide. -/
def doStPages (size addr value : Nat) : Action σ ε Bool :=
  let size0 := targetPageSize - addr % targetPageSize
  if size ≤ size0 then do
    let rest ← doStLeN regions d value addr size
    return rest.isSome
  else do
    let rest ← doStLeN regions d value addr size0
    match rest with
    | none => return false
    | some value => do
      let rest ← doStLeN regions d value ((addr + size0) % 2 ^ 32) (size - size0)
      return rest.isSome

def doLdPages (size addr : Nat) : Action σ ε (Option Nat) :=
  let size0 := targetPageSize - addr % targetPageSize
  if size ≤ size0 then do
    let ret ← doLdBeN regions d 0 addr size
    return ret.map (bswap size)
  else do
    let ret ← doLdBeN regions d 0 addr size0
    match ret with
    | none => return none
    | some ret => do
      let ret ← doLdBeN regions d ret ((addr + size0) % 2 ^ 32) (size - size0)
      return ret.map (bswap size)

/-- `do_st1_mmu` up to `do_st8_mmu`. `mmu_lookup` has checked the alignment before the first byte is
stored. -/
def doStMmu (memop : MemOp) (addr value : Nat) : Action σ ε Bool :=
  if addr % 2 ^ memopAlignmentBits memop ≠ 0 then pure false
  else doStPages regions d (memopSize memop) addr value

def doLdMmu (memop : MemOp) (addr : Nat) : Action σ ε (Option Nat) :=
  if addr % 2 ^ memopAlignmentBits memop ≠ 0 then pure none
  else doLdPages regions d (memopSize memop) addr

/-- A word of a stack frame, whether it could be written. The MPU is off. -/
def v7mStackWrite (addr value : Nat) : Action σ ε Bool := do
  let txres ← addressSpaceStl regions d addr value
  return txres = memtxOk

def v7mPushStack : (frameptr : Nat) → (words : List Nat) → Action σ ε Bool
  | _, [] => pure true
  | frameptr, word :: words => do
    let ok ← v7mStackWrite regions d frameptr word
    if ok then v7mPushStack ((frameptr + 4) % 2 ^ 32) words else return false

end Guest

end QemuBoard.Board
