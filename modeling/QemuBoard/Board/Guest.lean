import QemuBoard.Board.Machine
import QemuBoard.Board.Transfer

namespace QemuBoard.Board

open Library Action

def Region.isRam : Region → Bool
  | .itcm | .dtcm | .sram _ | .pflash _ | .dflash _ => true
  | _ => false

def Region.readonly : Region → Bool
  | .pflash _ | .dflash _ => true
  | _ => false

def readUart (addr _size : Nat) : MachineM Nat := do
  let value ← onUart (Uart.uartRead addr)
  return value.toNat

def writeUart (now addr value _size : Nat) : MachineM Unit :=
  onUart (Uart.uartWrite now addr (.ofNat 32 value))

def uartOps (now : Nat) : MemoryRegionOps Machine Effect := deviceOps readUart (writeUart now)

def readCan (c : Fin 2) (addr _size : Nat) : MachineM Nat := do
  let value ← onCans (on c (Can.canRead addr))
  return value.toNat

def writeCan (c : Fin 2) (addr value _size : Nat) : MachineM Unit :=
  onCans (Can.canWrite Can.boardBus c addr (.ofNat 32 value))

def canOps (c : Fin 2) : MemoryRegionOps Machine Effect := deviceOps (readCan c) (writeCan c)

/-- The regions of the board at time `now`. `ppb` stands for those of the private peripheral bus.
RAM has the operations that `memory_region_init` gives to every region. -/
def boardRegions (now : Nat) (ppb : Region → MemoryRegionOps Machine Effect) :
    Regions Region Machine Effect where
  ops
    | .uart0 => uartOps now
    | .can0 => canOps Can.can0
    | .can1 => canOps Can.can1
    | .defaultmem i => ppb (.defaultmem i)
    | .sysregmem i => ppb (.sysregmem i)
    | .systickmem i => ppb (.systickmem i)
    | _ => unassignedMemOps
  isRam := Region.isRam
  readonly := Region.readonly
  load mr offset len := do
    let m ← get
    return (List.range len).map fun k => (m.ram mr (offset + k)).toNat
  store mr offset bytes := modify fun m => { m with
    ram := Function.update m.ram mr fun a =>
      if offset ≤ a ∧ a < offset + bytes.length then .ofNat 8 (bytes.getD (a - offset) 0)
      else m.ram mr a }

def cpuDispatch (allocHint : Nat) (i : Cpu) : AddressSpaceDispatch Region :=
  ((cpuView i).bind (flatviewDispatch allocHint)).getD (addressSpaceDispatchNew allocHint)

theorem containerView_eq (i : Cpu) :
    generateMemoryTopology (some (armv7mContainer i)) = some (memoryMap i) := by
  rw [← cpuView_eq_rendered, cpuView_eq]

theorem ready_cpuDispatch (allocHint : Nat) (i : Cpu) :
    flatviewDispatch allocHint (memoryMap i) = some (cpuDispatch allocHint i) ∧
      ∃ t, Ready (cpuDispatch allocHint i) t (seen (armv7mContainer i)) := by
  have hlen : (memoryMap i).length ≤ 204 := by decide +revert
  obtain ⟨d, t, hdispatch, hready⟩ := ready_topology allocHint (containerView_eq i) hlen
  have heq : cpuDispatch allocHint i = d := by
    rw [cpuDispatch, cpuView_eq, Option.bind_some, hdispatch, Option.getD_some]
  exact ⟨heq ▸ hdispatch, t, heq ▸ hready⟩

/-- A load or a store of the guest that lies within the registers of a device, where the view has
at most 204 ranges: if it has to be aligned and is not, the CPU takes an exception and the device
is not called. Otherwise the device is called for pieces that follow on one another, each aligned
and of 1, 2 or 4 bytes, that have every byte of the access once. The bytes are stored and come
back in the order of their addresses, and an aligned access of up to 4 bytes is one call. -/
theorem accesses_delivered {ρ σ ε : Type} [DecidableEq ρ] (regions : Regions ρ σ ε)
    {mr : MemoryRegion ρ} {view : FlatView ρ} (allocHint : Nat)
    (hview : generateMemoryTopology (some mr) = some view) (hlen : view.length ≤ 204) :
    ∃ d, flatviewDispatch allocHint view = some d ∧
      ∀ (memop : MemOp) {m read write delta addr},
        DeviceAt regions (seen mr) m read write delta addr (addr + memopSize memop) →
        (addr % 2 ^ memopAlignmentBits memop ≠ 0 → doLdMmu regions d memop addr = pure none ∧
          ∀ value, doStMmu regions d memop addr value = pure false) ∧
        (addr % 2 ^ memopAlignmentBits memop = 0 →
          (∃ ks, Cut (register delta addr) (memopSize memop) ks ∧ doLdMmu regions d memop addr = (do
            let bytes ← readTiles read ks (register delta addr)
            return some (Nat.ofDigits 256 bytes))) ∧
          ∀ value < 2 ^ 64, ∃ ks, Cut (register delta addr) (memopSize memop) ks ∧
            doStMmu regions d memop addr value = (do
              writeTiles write ks (register delta addr) (leBytes (memopSize memop) value)
              return true)) := by
  obtain ⟨d, t, hdispatch, hready⟩ := ready_topology allocHint hview hlen
  refine ⟨d, hdispatch, fun memop {m read write delta addr} hdevice => ⟨?unaligned, ?aligned⟩⟩
  case unaligned =>
    intro htrap
    exact ⟨if_pos htrap, fun value => if_pos htrap⟩
  case aligned =>
    intro haligned
    obtain ⟨hpos, hsize⟩ := memopSize_bounds memop
    have hpass := not_not.mpr haligned
    refine ⟨?_, fun value hvalue => ?_⟩
    · rw [doLdMmu, if_neg hpass]
      exact hdevice.doLdPages hready hpos hsize le_rfl
    · rw [doStMmu, if_neg hpass]
      exact hdevice.doStPages hready hpos hsize le_rfl hvalue

theorem seen_uart0 {a : Nat} (hlow : uart0Ba ≤ a) (hhigh : a < uart0Ba + 20) :
    seen (armv7mContainer cpu0) a = ⟨.region .uart0, a + -(uart0Ba : Int), {}⟩ := by
  obtain ⟨k, rfl⟩ := Nat.exists_eq_add_of_le hlow
  have hk : k < 20 := by omega
  clear hlow hhigh
  revert k
  decide +kernel

theorem uart0_deviceAt (now : Nat) {lo hi : Nat} (hlow : uart0Ba ≤ lo) (hhigh : hi ≤ uart0Ba + 20) :
    DeviceAt (boardRegions now fun _ => unassignedMemOps) (seen (armv7mContainer cpu0)) .uart0
      readUart (writeUart now) (-(uart0Ba : Int)) lo hi where
  ops := rfl
  io := rfl
  seen a ha hlt := ⟨{}, seen_uart0 (hlow.trans ha) (hlt.trans_le hhigh)⟩
  start := by omega
  stop := by omega
  space := hhigh.trans (by decide)
  aligned := by decide

/-- A halfword at an odd address of the UART is two calls, or an exception where it has to be
aligned. -/
theorem accesses_delivered_uart : ∃ d, flatviewDispatch 0 (memoryMap cpu0) = some d ∧
    doStMmu (boardRegions 1 fun _ => unassignedMemOps) d ⟨1, moUnaln⟩ (uart0Ba + 0xf) 0x302 = (do
      onUart (Uart.uartWrite 1 0xf 2#32)
      onUart (Uart.uartWrite 1 0x10 3#32)
      return true) ∧
    doStMmu (boardRegions 1 fun _ => unassignedMemOps) d ⟨1, moAlign⟩ (uart0Ba + 0xf) 0x302 =
      pure false := by
  obtain ⟨d, hdispatch, haccess⟩ := accesses_delivered (boardRegions 1 fun _ => unassignedMemOps) 0
    (containerView_eq cpu0) (by decide)
  have hdevice : DeviceAt _ _ _ _ _ _ (uart0Ba + 0xf) (uart0Ba + 0xf + 2) :=
    uart0_deviceAt 1 (by decide) (by decide)
  refine ⟨d, hdispatch, ?_, ?_⟩
  · obtain ⟨-, hstore⟩ := (haccess ⟨1, moUnaln⟩ hdevice).2 (by decide)
    obtain ⟨ks, hcut, hrun⟩ := hstore 0x302 (by decide)
    rw [hcut.odd_halfword (by decide)] at hrun
    rw [hrun]
    simp only [writeTiles, Action.bind_assoc, ret_bind]
    rfl
  · exact ((haccess ⟨1, moAlign⟩ hdevice).1 (by decide)).2 0x302

end QemuBoard.Board
