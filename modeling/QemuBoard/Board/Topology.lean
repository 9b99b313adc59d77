import QemuBoard.Board.Containers

/-! The memory of the board, as `nxps32k3_realize` (`hw/arm/nxp_s32k3.c`) and, for each CPU,
`armv7m_realize` (`hw/arm/armv7m.c`) lay it out. -/

namespace QemuBoard.Board

open Library

abbrev Cpu := Fin 3

inductive Region
  | system | itcm | dtcm | uart0 | can0 | can1 | pflash0Alias
  | cpuSysmem (i : Cpu) | sysmemAlias (i : Cpu)
  | sram (i : Cpu) | pflash (i : Cpu) | dflash (i : Cpu)
  | container (i : Cpu) | defaultmem (i : Cpu) | sysregmem (i : Cpu) | systickmem (i : Cpu)
  deriving DecidableEq

def itcmBa : Nat := 0x00000000
def itcmSize : Nat := 0x10000
def dtcmBa : Nat := 0x20000000
def dtcmSize : Nat := 0x20000
def sramSize : Nat := 0x40000
def pflash0Ba : Nat := 0x00400000
def pflashSize : Nat := 0x200000
def dflash0Ba : Nat := 0x10000000
def dflashSize : Nat := 0xA000
def uart0Ba : Nat := 0x40328000
def can0Ba : Nat := 0x40304000
def can1Ba : Nat := 0x40308000

def sramBa (i : Cpu) : Nat := 0x20400000 + i * 0x40000

/-- `get_system_memory()` after `nxps32k3_realize`; the peripherals are mapped by
`sysbus_mmio_map`. -/
def systemMemory : MemoryRegion Region :=
  let mr := memoryRegionInit .system (2 ^ 64 - 1)
  let mr := memoryRegionAddSubregion mr itcmBa (memoryRegionInitRam .itcm itcmSize)
  let mr := memoryRegionAddSubregion mr dtcmBa (memoryRegionInitRam .dtcm dtcmSize)
  let mr := memoryRegionAddSubregion mr uart0Ba (memoryRegionInitIo .uart0 20)
  let mr := memoryRegionAddSubregion mr can0Ba (memoryRegionInitIo .can0 44)
  memoryRegionAddSubregion mr can1Ba (memoryRegionInitIo .can1 44)

/-- `cpu_sysmem[i]`. Every CPU has its program and data flash at the same address. -/
def cpuSysmem (i : Cpu) : MemoryRegion Region :=
  let mr := memoryRegionInit (.cpuSysmem i) (2 ^ 64 - 1)
  let mr := memoryRegionAddSubregionOverlap mr 0
    (memoryRegionInitAlias (.sysmemAlias i) systemMemory 0 (2 ^ 64 - 1)) (-1)
  let pflash := memoryRegionInitRom (.pflash i) pflashSize
  let mr := memoryRegionAddSubregion mr (sramBa i) (memoryRegionInitRam (.sram i) sramSize)
  let mr := memoryRegionAddSubregion mr pflash0Ba pflash
  let mr := memoryRegionAddSubregion mr dflash0Ba (memoryRegionInitRom (.dflash i) dflashSize)
  if i = 0 then
    memoryRegionAddSubregion mr 0
      (memoryRegionInitAlias .pflash0Alias (pflash.place pflash0Ba 0) 0 itcmSize)
  else
    mr

/-- The `container` of the CPU. A Cortex-M7 has neither the v8 aliases nor RAS, and the board
turns the bit bands off. -/
def armv7mContainer (i : Cpu) : MemoryRegion Region :=
  let mr := memoryRegionInit (.container i) (2 ^ 64 - 1)
  let mr := memoryRegionAddSubregionOverlap mr 0 (cpuSysmem i) (-1)
  let mr := memoryRegionAddSubregionOverlap mr 0xe0000000
    (memoryRegionInitIo (.defaultmem i) 0x100000) (-1)
  let mr := memoryRegionAddSubregion mr 0xe000e000 (memoryRegionInitIo (.sysregmem i) 0x1000)
  memoryRegionAddSubregionOverlap mr 0xe000e010 (memoryRegionInitIo (.systickmem i) 0xe0) 1

def cpuView (i : Cpu) : Option (FlatView Region) :=
  generateMemoryTopology (memoryRegionGetFlatviewRoot (armv7mContainer i))

theorem flatviewRoot_of_children {ρ : Type} {f : Fields ρ} {terminates : Bool}
    {subs : List (MemoryRegion ρ)} (henabled : f.enabled = true)
    (hmany : 2 ≤ (enabledChildren subs).length) :
    memoryRegionGetFlatviewRoot (.plain f terminates subs) = some (.plain f terminates subs) := by
  rw [memoryRegionGetFlatviewRoot, if_neg (by simp [henabled])]
  split
  · rfl
  · split
    case h_1 hnone => simp [hnone] at hmany
    case h_2 honly => simp [honly] at hmany
    case h_3 => rfl

theorem cpuView_eq_rendered (i : Cpu) :
    cpuView i = generateMemoryTopology (some (armv7mContainer i)) := by
  have hroot : memoryRegionGetFlatviewRoot (armv7mContainer i) = some (armv7mContainer i) :=
    flatviewRoot_of_children rfl (by decide +revert)
  rw [cpuView, hroot]

section Map

variable (mr : Region) (start size : Nat)

def ramRange : FlatRange Region := ⟨mr, 0, ⟨start, size⟩, 2, true, {}⟩

def romRange : FlatRange Region := ⟨mr, 0, ⟨start, size⟩, 2, true, { readonly := true }⟩

def ioRange (offset : Nat) : FlatRange Region := ⟨mr, offset, ⟨start, size⟩, 0, true, {}⟩

end Map

/-- The memory map of CPU `i`. The start of the program flash hides the ITCM from CPU 0. -/
def memoryMap (i : Cpu) : FlatView Region :=
  [if i = 0 then romRange (.pflash 0) 0 itcmSize else ramRange .itcm itcmBa itcmSize,
    romRange (.pflash i) pflash0Ba pflashSize,
    romRange (.dflash i) dflash0Ba dflashSize,
    ramRange .dtcm dtcmBa dtcmSize,
    ramRange (.sram i) (sramBa i) sramSize,
    ioRange .can0 can0Ba 44 0,
    ioRange .can1 can1Ba 44 0,
    ioRange .uart0 uart0Ba 20 0,
    ioRange (.defaultmem i) 0xe0000000 0xe000 0,
    ioRange (.sysregmem i) 0xe000e000 0x10 0,
    ioRange (.systickmem i) 0xe000e010 0xe0 0,
    ioRange (.sysregmem i) 0xe000e0f0 0xf10 0xf0,
    ioRange (.defaultmem i) 0xe000f000 0xf1000 0xf000]

theorem cpuView_eq (i : Cpu) : cpuView i = some (memoryMap i) := by
  rw [cpuView_eq_rendered]
  decide +revert

end QemuBoard.Board
