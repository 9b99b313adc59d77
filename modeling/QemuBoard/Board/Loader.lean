import QemuBoard.Board.Frames
import QemuBoard.Board.Guest

/-! The image of the firmware, which `rom_reset` of `hw/core/loader.c` writes to the memory at
every reset of the machine, in the address space of CPU 0. -/

namespace QemuBoard.Board

open Library Action

/-- A segment of the image: the bytes of the file, and zeros up to `romsize`. -/
structure Rom where
  addr : Nat
  data : List Uart.Byte
  romsize : Nat

def Rom.bytes (rom : Rom) : List Nat := rom.data.map BitVec.toNat

section Reset

variable {ρ σ ε : Type} (regions : Regions ρ σ ε) (d : AddressSpaceDispatch ρ)

def Rom.load (rom : Rom) : Action σ ε Unit := do
  addressSpaceWriteRom regions d rom.bytes.length rom.addr rom.bytes
  let zeros := rom.romsize - rom.bytes.length
  let _ ← addressSpaceSet regions d 0 zeros (rom.addr + rom.bytes.length) zeros

-- `rom_free_data` is for segments with `isrom` set, and there is none
def romReset (roms : List Rom) : Action σ ε Unit := roms.forM (Rom.load regions d)

variable {regions d} {roms : List Rom} {P : σ → Prop}

theorem keeps_romReset (hwrites : WritesKeep P regions d)
    (hstore : ∀ rom ∈ roms, ∀ j x l, flatviewTranslate regions d ((rom.addr + j) % 2 ^ 64)
      (rom.bytes.length - j) = (x, l) → ∀ mr, memoryAccessIsDirect regions x.mr false = some mr →
      Keeps P (regions.store mr x.xlat.toNat ((rom.bytes.drop j).take l))) :
    Keeps P (romReset regions d roms) := by
  refine .forM fun rom hrom => ?_
  have hdata := keeps_writeRom (fun j _ => hstore rom hrom j) rom.bytes.length 0
  exact hdata.bind fun _ => (hwrites.addressSpaceSet ..).bind fun _ => .pure _

end Reset

def qemuSystemReset (ppb : Region → MemoryRegionOps Machine Effect) (allocHint now : Nat)
    (roms : List Rom) (input : List Uart.Byte) : MachineM Unit := do
  qemuDevicesReset now input
  romReset (boardRegions now ppb) (cpuDispatch allocHint cpu0) roms

section Leaves

variable {ρ : Type}

mutual

def MemoryRegion.leaves : MemoryRegion ρ → List ρ
  | .alias _ target _ => target.leaves
  | .plain f terminates subregions => allLeaves subregions ++ if terminates then [f.mr] else []

def allLeaves : List (MemoryRegion ρ) → List ρ
  | [] => []
  | subregion :: rest => subregion.leaves ++ allLeaves rest

end

variable {t : Target ρ} {a : Int}

mutual

theorem resolve_leaf (mr : MemoryRegion ρ) (base : Int) (attrs : Attributes)
    (h : resolve a mr base attrs = some t) : t.mr ∈ mr.leaves ∧ 0 ≤ t.offset := by
  match mr with
  | .alias f target aliasOffset =>
    rw [resolve] at h
    split at h
    case isTrue => exact resolve_leaf target _ _ h
    case isFalse => exact absurd h (Option.some_ne_none _).symm
  | .plain f terminates subregions =>
    rw [resolve] at h
    split at h
    case isTrue hin =>
      rcases Option.or_eq_some_iff.mp h with hsub | ⟨-, hown⟩
      · obtain ⟨hmem, hoffset⟩ := resolveFirst_leaf subregions _ _ hsub
        exact ⟨List.mem_append_left _ hmem, hoffset⟩
      · split at hown
        case isTrue hterm =>
          obtain rfl := Option.some.inj hown
          refine ⟨List.mem_append_right _ ?_, sub_nonneg.mpr hin.2.1⟩
          rw [if_pos hterm]
          exact List.mem_singleton_self f.mr
        case isFalse => exact absurd hown (Option.some_ne_none _).symm
    case isFalse => exact absurd h (Option.some_ne_none _).symm

theorem resolveFirst_leaf (subregions : List (MemoryRegion ρ)) (base : Int) (attrs : Attributes)
    (h : resolveFirst a subregions base attrs = some t) :
    t.mr ∈ allLeaves subregions ∧ 0 ≤ t.offset := by
  match subregions with
  | [] => exact absurd h (Option.some_ne_none _).symm
  | subregion :: rest =>
    rcases Option.or_eq_some_iff.mp h with hhead | ⟨-, hrest⟩
    · obtain ⟨hmem, hoffset⟩ := resolve_leaf subregion base attrs hhead
      exact ⟨List.mem_append_left _ hmem, hoffset⟩
    · obtain ⟨hmem, hoffset⟩ := resolveFirst_leaf rest base attrs hrest
      exact ⟨List.mem_append_right _ hmem, hoffset⟩

end

end Leaves

/-- `rom_check_and_register_reset` looks for the segment in the system memory. -/
def Rom.isrom (rom : Rom) : Bool :=
  (resolve rom.addr systemMemory 0 {}).any fun target => target.mr.isRam && target.mr.readonly

/-- The flash is not in the system memory, so that its segments too are written at every reset. -/
theorem isrom_eq_false (rom : Rom) : rom.isrom = false := by
  have hwritable : ∀ mr ∈ systemMemory.leaves, mr.readonly = false := by decide
  rw [Rom.isrom]
  cases h : resolve rom.addr systemMemory 0 {} with
  | none => rfl
  | some target =>
    have hreadonly := hwritable target.mr (resolve_leaf systemMemory 0 {} h).1
    rw [Option.any_some, hreadonly, Bool.and_false]

section Image

theorem seen_region {ρ : Type} {tree : MemoryRegion ρ} {mr : ρ} {addr : Nat}
    (h : (seen tree addr).mr = .region mr) : addr < 2 ^ 64 ∧ 0 ≤ (seen tree addr).xlat := by
  rw [seen] at h ⊢
  split at h
  case isTrue haddr =>
    rw [if_pos haddr]
    refine ⟨haddr, ?_⟩
    cases hresolve : resolve addr tree 0 {} with
    | none =>
      rw [hresolve] at h
      exact absurd h (by simp [unassigned])
    | some target => exact (resolve_leaf tree 0 {} hresolve).2
  case isFalse => exact absurd h (by simp [unassigned])

def Image (roms : List Rom) (mr : Region) (offset : Nat) (byte : Uart.Byte) : Prop :=
  ∃ rom ∈ roms, ∃ k, rom.data[k]? = some byte ∧
    (seen (armv7mContainer cpu0) ((rom.addr + k) % 2 ^ 64)).mr = .region mr ∧
    (seen (armv7mContainer cpu0) ((rom.addr + k) % 2 ^ 64)).xlat = offset

variable {roms : List Rom} {rom : Rom} {d : AddressSpaceDispatch Region} {t : Radix Nat}
  {regions : Regions Region Machine Effect} {mr : Region}

theorem Image.piece (hrom : rom ∈ roms) (hready : Ready d t (seen (armv7mContainer cpu0)))
    {j l : Nat} {x : Translation Region}
    (hx : flatviewTranslate regions d ((rom.addr + j) % 2 ^ 64) (rom.bytes.length - j) = (x, l))
    (hdirect : memoryAccessIsDirect regions x.mr false = some mr) {a : Nat}
    (hlow : x.xlat.toNat ≤ a) (hhigh : a < x.xlat.toNat + ((rom.bytes.drop j).take l).length) :
    Image roms mr a (.ofNat 8 (((rom.bytes.drop j).take l).getD (a - x.xlat.toNat) 0)) := by
  obtain ⟨hmr, hram, -⟩ := memoryAccessIsDirect_eq_some hdirect
  have haddr : (rom.addr + j) % 2 ^ 64 < 2 ^ 64 := Nat.mod_lt _ (by decide)
  have hanswers : Answers regions.isRam (seen (armv7mContainer cpu0)) d.subpages
      ((rom.addr + j) % 2 ^ 64) (rom.bytes.length - j) true (x, l) :=
    hx ▸ hready.answers_translate haddr (rom.bytes.length - j) true
  obtain ⟨k, rfl⟩ := Nat.exists_eq_add_of_le hlow
  rw [List.length_take, List.length_drop] at hhigh
  have hk : k < l := by omega
  have hlt : j + k < rom.data.length := by
    have hlen : rom.bytes.length = rom.data.length := List.length_map _
    omega
  have hbyte : ((rom.bytes.drop j).take l).getD k 0 = rom.data[j + k].toNat := by
    rw [List.getD_eq_getElem?_getD, List.getElem?_take_of_lt hk, List.getElem?_drop, Rom.bytes,
      List.getElem?_map, List.getElem?_eq_getElem hlt]
    rfl
  have hat : seen (armv7mContainer cpu0) ((rom.addr + j) % 2 ^ 64 + k) =
      { x with xlat := x.xlat + k } := (hanswers.ram mr hmr hram).2 k hk
  have hregion := (congrArg Translation.mr hat).trans hmr
  have hspace := (seen_region hregion).1
  have hfirst : x = seen (armv7mContainer cpu0) ((rom.addr + j) % 2 ^ 64) := hanswers.eq_seen
  have hstart : 0 ≤ x.xlat := hfirst ▸ (seen_region (hfirst ▸ hmr)).2
  have hmod : (rom.addr + (j + k)) % 2 ^ 64 = (rom.addr + j) % 2 ^ 64 + k := by omega
  rw [Nat.add_sub_cancel_left, hbyte, BitVec.ofNat_toNat, BitVec.setWidth_eq]
  refine ⟨rom, hrom, j + k, List.getElem?_eq_getElem hlt, ?_, ?_⟩
  · rw [hmod]
    exact hregion
  · rw [hmod, hat]
    dsimp only
    omega

end Image

end QemuBoard.Board
