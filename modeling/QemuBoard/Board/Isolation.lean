import QemuBoard.Board.Loader
import QemuBoard.Board.Wiring

namespace QemuBoard.Board

open Library Action

theorem Ready.range_of_section {ρ : Type} {d : AddressSpaceDispatch ρ} {t : Radix Nat}
    {view : FlatView ρ} (h : Ready d t (view.over unassigned)) {s : MemoryRegionSection ρ}
    (hs : s ∈ d.sections) {mr : ρ} (hmr : s.mr = .region mr) :
    ∃ r ∈ view, r.mr = mr ∧ r.attrs = s.attrs := by
  obtain ⟨hpos, hseen⟩ := h.whole s hs ⟨mr, hmr⟩
  have hfirst := hseen s.offsetWithinAddressSpace le_rfl (by omega)
  rw [FlatView.over, FlatView.lookup, look] at hfirst
  cases hfind : view.find? fun r => r.addr.Has s.offsetWithinAddressSpace with
  | none =>
    rw [hfind] at hfirst
    exact absurd ((congrArg Translation.mr hfirst).trans hmr) (by simp [unassigned])
  | some r =>
    rw [hfind] at hfirst
    refine ⟨r, List.mem_of_find?_eq_some hfind, ?_, congrArg Translation.attrs hfirst⟩
    exact SectionMr.region.inj ((congrArg Translation.mr hfirst).trans hmr)

theorem range_of_cpuDispatch {allocHint : Nat} {i : Cpu} {s : MemoryRegionSection Region}
    (hs : s ∈ (cpuDispatch allocHint i).sections) {mr : Region} (hmr : s.mr = .region mr) :
    ∃ r ∈ memoryMap i, r.mr = mr ∧ r.attrs = s.attrs := by
  obtain ⟨-, t, hready⟩ := ready_cpuDispatch allocHint i
  rw [← (faithful_topology (containerView_eq i)).over] at hready
  exact hready.range_of_section hs hmr

def Contents (mr : Region) (Q : (Nat → Uart.Byte) → Prop) (m : Machine) : Prop := Q (m.ram mr)

section Memory

variable {α : Type} {mr : Region} {Q : (Nat → Uart.Byte) → Prop}

theorem keeps_onUart (act : Uart.UartM α) : Keeps (Contents mr Q) (onUart act) := by
  intro m a t out h hm
  obtain ⟨uart, l, nvics, -, -, rfl, -⟩ := onUart_eq_some h
  exact hm

theorem keeps_onCans (act : Can.NetM (Fin 2) α) : Keeps (Contents mr Q) (onCans act) := by
  intro m a t out h hm
  obtain ⟨cans, l, nvics, -, -, rfl, -⟩ := onCans_eq_some h
  exact hm

theorem keeps_onNvic (i : Cpu) (act : Nvic.NvicState → Option Nvic.NvicState) :
    Keeps (Contents mr Q) (onNvic i act) := by
  intro m a t out h hm
  obtain ⟨nvic, -, rfl, -⟩ := onNvic_eq_some h
  exact hm

theorem keeps_qemuDevicesReset (now : Nat) (input : List Uart.Byte) :
    Keeps (Contents mr Q) (qemuDevicesReset now input) := by
  refine (keeps_onUart _).bind fun _ => (keeps_onCans _).bind fun _ => ?_
  refine (keeps_onCans _).bind fun _ => ?_
  intro m a t out h hm
  cases h
  exact hm

structure LeavesMemory (ppb : Region → MemoryRegionOps Machine Effect) : Prop where
  read : ∀ x mr Q addr size, Keeps (Contents mr Q) ((ppb x).read addr size)
  write : ∀ x mr Q addr value size, Keeps (Contents mr Q) ((ppb x).write addr value size)

variable {ppb : Region → MemoryRegionOps Machine Effect}

theorem LeavesMemory.ops (h : LeavesMemory ppb) (now : Nat) (x : Region) :
    (∀ addr size, Keeps (Contents mr Q) (((boardRegions now ppb).ops x).read addr size)) ∧
      ∀ addr value size,
        Keeps (Contents mr Q) (((boardRegions now ppb).ops x).write addr value size) := by
  have hread : ∀ {act : MachineM Nat}, Keeps (Contents mr Q) act → Keeps (Contents mr Q) (do
      let value ← act
      return (memtxOk, value)) := fun hact => hact.bind fun _ => .pure _
  cases x with
  | uart0 =>
    refine ⟨fun _ _ => hread ((keeps_onUart _).bind fun _ => .pure _), fun _ _ _ => ?_⟩
    exact (keeps_onUart _).bind fun _ => .pure _
  | can0 | can1 =>
    refine ⟨fun _ _ => hread ((keeps_onCans _).bind fun _ => .pure _), fun _ _ _ => ?_⟩
    exact (keeps_onCans _).bind fun _ => .pure _
  | defaultmem i | sysregmem i | systickmem i => exact ⟨h.read _ mr Q, h.write _ mr Q⟩
  | system | itcm | dtcm | pflash0Alias | cpuSysmem | sysmemAlias | sram | pflash | dflash
  | container => exact ⟨fun _ _ => .pure _, fun _ _ _ => .pure _⟩

theorem LeavesMemory.reads (h : LeavesMemory ppb) (now : Nat) (d : AddressSpaceDispatch Region) :
    ReadsKeep (Contents mr Q) (boardRegions now ppb) d := by
  refine ⟨fun _ _ x _ => (h.ops now x).1, fun x offset len => ?_⟩
  intro m a t out hrun hm
  cases hrun
  exact hm

theorem keeps_store {x : Region} (hne : mr ≠ x) (now offset : Nat) (bytes : List Nat) :
    Keeps (Contents mr Q) ((boardRegions now ppb).store x offset bytes) := by
  intro m a t out hrun hm
  cases hrun
  dsimp only [Contents]
  rw [Function.update_of_ne hne]
  exact hm

def Writable (i : Cpu) (mr : Region) : Prop :=
  ∃ r ∈ memoryMap i, r.mr = mr ∧ (r.attrs.readonly = false ∨ mr.readonly = false)

instance (i : Cpu) (mr : Region) : Decidable (Writable i mr) :=
  inferInstanceAs (Decidable (∃ r ∈ memoryMap i, _))

theorem LeavesMemory.writes {i : Cpu} (h : LeavesMemory ppb) (hnot : ¬Writable i mr)
    (now allocHint : Nat) :
    WritesKeep (Contents mr Q) (boardRegions now ppb) (cpuDispatch allocHint i) := by
  refine ⟨fun _ _ x _ => (h.ops now x).2, fun s hs x hx hwrite offset bytes => ?_⟩
  obtain ⟨r, hr, hrmr, hattrs⟩ := range_of_cpuDispatch hs hx
  apply keeps_store
  rintro rfl
  exact hnot ⟨r, hr, hrmr, hattrs ▸ hwrite⟩

variable {roms : List Rom} {c : Nat → Uart.Byte}

def Burnt (roms : List Rom) (mr : Region) (c c' : Nat → Uart.Byte) : Prop :=
  ∀ a, c' a = c a ∨ Image roms mr a (c' a)

theorem keeps_storeImage {rom : Rom} (hrom : rom ∈ roms) {allocHint now j l : Nat}
    {x : Translation Region} {mr' : Region}
    (hx : flatviewTranslate (boardRegions now ppb) (cpuDispatch allocHint cpu0)
      ((rom.addr + j) % 2 ^ 64) (rom.bytes.length - j) = (x, l))
    (hdirect : memoryAccessIsDirect (boardRegions now ppb) x.mr false = some mr') :
    Keeps (Contents mr (Burnt roms mr c))
      ((boardRegions now ppb).store mr' x.xlat.toNat ((rom.bytes.drop j).take l)) := by
  by_cases hne : mr = mr'
  case neg => exact keeps_store hne _ _ _
  subst hne
  intro m u t out hrun hm a
  cases hrun
  dsimp only
  rw [Function.update_self]
  split
  case isTrue hin =>
    obtain ⟨-, pages, hready⟩ := ready_cpuDispatch allocHint cpu0
    exact .inr (Image.piece hrom hready hx hdirect hin.1 hin.2)
  case isFalse => exact hm a

theorem burnt_romReset (h : LeavesMemory ppb) (hnot : ¬Writable cpu0 mr) (now allocHint : Nat) :
    Keeps (Contents mr (Burnt roms mr c))
      (romReset (boardRegions now ppb) (cpuDispatch allocHint cpu0) roms) :=
  keeps_romReset (h.writes hnot now allocHint) fun _ hrom _ _ _ hx _ hdirect =>
    keeps_storeImage hrom hx hdirect

theorem hidden_romReset (h : LeavesMemory ppb) (hnot : ∀ r ∈ memoryMap cpu0, r.mr ≠ mr)
    (now allocHint : Nat) : Keeps (Contents mr Q)
      (romReset (boardRegions now ppb) (cpuDispatch allocHint cpu0) roms) := by
  have hwritable : ¬Writable cpu0 mr := fun ⟨r, hr, hmr, _⟩ => hnot r hr hmr
  refine keeps_romReset (h.writes hwritable now allocHint) fun rom _ j x l hx mr' hdirect => ?_
  apply keeps_store
  rintro rfl
  obtain ⟨n, hn⟩ := flatviewTranslate_section (boardRegions now ppb) (cpuDispatch allocHint cpu0)
    ((rom.addr + j) % 2 ^ 64) (rom.bytes.length - j)
  have hmr := hn.symm.trans ((congrArg (fun p => p.1.mr) hx).trans
    (memoryAccessIsDirect_eq_some hdirect).1)
  obtain ⟨r, hr, hrmr, -⟩ := range_of_cpuDispatch (sectionAt_mem hmr) hmr
  exact hnot r hr hrmr

end Memory

/-- What happens on the board: the accesses of the CPUs, the stack frames they push and the words
they read at exceptions, resets, and what the other parts do. -/
inductive GuestOp
  | load (i : Cpu) (now : Nat) (memop : MemOp) (addr : Nat)
  | store (i : Cpu) (now : Nat) (memop : MemOp) (addr value : Nat)
  | pop (i : Cpu) (now addr : Nat)
  | push (i : Cpu) (now frameptr : Nat) (words : List Nat)
  | reset (now : Nat) (input : List Uart.Byte)
  | part (p : Part)

section Runs

variable (ppb : Region → MemoryRegionOps Machine Effect) (allocHint : Cpu → Nat) (roms : List Rom)

def GuestOp.exec : GuestOp → MachineM Unit
  | .load i now memop addr => do
    let _ ← doLdMmu (boardRegions now ppb) (cpuDispatch (allocHint i) i) memop addr
  | .store i now memop addr value => do
    let _ ← doStMmu (boardRegions now ppb) (cpuDispatch (allocHint i) i) memop addr value
  | .pop i now addr => do
    let _ ← addressSpaceLdl (boardRegions now ppb) (cpuDispatch (allocHint i) i) addr
  | .push i now frameptr words => do
    let _ ← v7mPushStack (boardRegions now ppb) (cpuDispatch (allocHint i) i) frameptr words
  | .reset now input => qemuSystemReset ppb (allocHint cpu0) now roms input
  | .part p => p.exec

/-- Memory changes by the writes of the CPUs and at resets, and the devices are reset with it. -/
def GuestOp.Enabled (m : Machine) : GuestOp → Prop
  | .part (.ram ..) | .part (.reset ..) => False
  | .part p => p.own ∧ p.Enabled m
  | _ => True

def guests : System Machine GuestOp Effect :=
  .ofActions (fun m op => op.Enabled m) (GuestOp.exec ppb allocHint roms)

variable {ppb allocHint roms} {mr : Region} {m t : Machine} {Q : (Nat → Uart.Byte) → Prop}

def GuestOp.WritesBy (i : Cpu) : GuestOp → Prop
  | .store j .. | .push j .. => j = i
  | _ => False

def GuestOp.IsReset : GuestOp → Prop
  | .reset .. => True
  | _ => False

theorem contents_step (hppb : LeavesMemory ppb) {op : GuestOp} {out : List Effect}
    (hstep : (guests ppb allocHint roms).step m op out t)
    (hwrites : ∀ i, op.WritesBy i → ¬Writable i mr)
    (hreset : op.IsReset → ∀ now, Keeps (Contents mr Q)
      (romReset (boardRegions now ppb) (cpuDispatch (allocHint cpu0) cpu0) roms))
    (hm : Contents mr Q m) : Contents mr Q t := by
  obtain ⟨henabled, hexec⟩ := hstep
  cases op with
  | load i now memop addr =>
    have hreads : ReadsKeep (Contents mr Q) _ _ := hppb.reads now (cpuDispatch (allocHint i) i)
    exact ((hreads.doLdMmu memop addr).bind fun _ => .pure _) hexec hm
  | store i now memop addr value =>
    have hkeeps := hppb.writes (Q := Q) (hwrites i rfl) now (allocHint i)
    exact ((hkeeps.doStMmu memop addr value).bind fun _ => .pure _) hexec hm
  | pop i now addr =>
    have hreads : ReadsKeep (Contents mr Q) _ _ := hppb.reads now (cpuDispatch (allocHint i) i)
    exact ((hreads.addressSpaceLdl addr).bind fun _ => .pure _) hexec hm
  | push i now frameptr words =>
    have hkeeps := hppb.writes (Q := Q) (hwrites i rfl) now (allocHint i)
    exact ((hkeeps.v7mPushStack frameptr words).bind fun _ => .pure _) hexec hm
  | reset now input =>
    exact ((keeps_qemuDevicesReset now input).bind fun _ => hreset True.intro now) hexec hm
  | part p =>
    cases p with
    | uart op => exact keeps_onUart _ hexec hm
    | can op => exact keeps_onCans _ hexec hm
    | nvic i op =>
      have hexec : onNvic i (fun s => op.exec s) m = some ((), t, out) := hexec
      exact keeps_onNvic i _ hexec hm
    | ram mr offset byte => exact henabled.elim
    | reset now input => exact henabled.elim

theorem contents_run (hppb : LeavesMemory ppb) {tr : List (Event Machine GuestOp Effect)}
    (hrun : (guests ppb allocHint roms).Run m tr t)
    (hwrites : ∀ e ∈ tr, ∀ i, e.op.WritesBy i → ¬Writable i mr)
    (hreset : ∀ e ∈ tr, e.op.IsReset → ∀ now, Keeps (Contents mr Q)
      (romReset (boardRegions now ppb) (cpuDispatch (allocHint cpu0) cpu0) roms))
    (hm : Contents mr Q m) : Contents mr Q t := by
  induction hrun with
  | nil => exact hm
  | @snoc tr t op out u hrun hstep ih =>
    have hlast : (⟨t, op, out⟩ : Event Machine GuestOp Effect) ∈ tr ++ [⟨t, op, out⟩] := by simp
    apply contents_step hppb hstep (hwrites _ hlast) (hreset _ hlast)
    exact ih (fun e he => hwrites e (List.mem_append_left _ he))
      (fun e he => hreset e (List.mem_append_left _ he))

/-- Whatever the CPUs load and store and push, in whatever order the devices run and the machine is
reset: the program and data flash change at a reset only, to what the image has there. The SRAM
of a CPU changes only by the writes of that CPU, and that of CPU 0 at a reset too. The ITCM
changes only by the writes of the CPUs other than 0. -/
theorem memory_isolated (hppb : LeavesMemory ppb) {tr : List (Event Machine GuestOp Effect)}
    (hrun : (guests ppb allocHint roms).Run m tr t) :
    (∀ i, ∀ mr ∈ [.pflash i, .dflash i], ∀ a, t.ram mr a = m.ram mr a ∨
      (∃ e ∈ tr, e.op.IsReset) ∧ Image roms mr a (t.ram mr a)) ∧
    (∀ i, (∀ e ∈ tr, ¬e.op.WritesBy i ∧ (i = cpu0 → ¬e.op.IsReset)) →
      t.ram (.sram i) = m.ram (.sram i)) ∧
    ((∀ e ∈ tr, ∀ i, e.op.WritesBy i → i = cpu0) → t.ram .itcm = m.ram .itcm) := by
  have hflash : ∀ i, ∀ mr ∈ [Region.pflash i, .dflash i], ∀ j, ¬Writable j mr := by decide
  have hsram : ∀ i j, Writable i (.sram j) → i = j := by decide
  have hother : ∀ i, i ≠ cpu0 → ∀ r ∈ memoryMap cpu0, r.mr ≠ .sram i := by decide
  have hitcm : ∀ r ∈ memoryMap cpu0, r.mr ≠ .itcm := by decide
  refine ⟨fun i mr hmr a => ?flash, fun i hno => ?sram, fun honly => ?itcm⟩
  case flash =>
    by_cases hreset : ∃ e ∈ tr, e.op.IsReset
    · have hburnt : Contents mr (Burnt roms mr (m.ram mr)) t :=
        contents_run hppb hrun (fun e _ j _ => hflash i mr hmr j)
          (fun e _ _ now => burnt_romReset hppb (hflash i mr hmr cpu0) now _) fun a => .inl rfl
      exact (hburnt a).imp_right fun himage => ⟨hreset, himage⟩
    · have hsame : Contents mr (· = m.ram mr) t :=
        contents_run hppb hrun (fun e _ j _ => hflash i mr hmr j)
          (fun e he h => absurd ⟨e, he, h⟩ hreset) rfl
      exact .inl (congrFun hsame a)
  case sram =>
    refine contents_run (Q := (· = m.ram (.sram i))) hppb hrun ?_ ?_ rfl
    · intro e he j hwrites hwritable
      exact (hno e he).1 (hsram j i hwritable ▸ hwrites)
    · intro e he hreset now
      exact hidden_romReset hppb (hother i fun hi => (hno e he).2 hi hreset) now _
  case itcm =>
    refine contents_run (Q := (· = m.ram .itcm)) hppb hrun ?_ ?_ rfl
    · intro e he j hwrites ⟨r, hr, hmr, _⟩
      exact hitcm r (honly e he j hwrites ▸ hr) hmr
    · intro e he hreset now
      exact hidden_romReset hppb hitcm now _

theorem memory_isolated_uart : ∃ tr t,
    (guests (fun _ => unassignedMemOps) (fun _ => 0) []).Run started tr t ∧
    tr.map Event.op = [.store cpu0 1 ⟨2, moUnaln⟩ (uart0Ba + 0x10) 1000] ∧
    t.ram (.pflash cpu0) 0 = started.ram (.pflash cpu0) 0 ∧
      t.ram (.sram 1) = started.ram (.sram 1) := by
  have hppb : LeavesMemory fun _ => unassignedMemOps :=
    ⟨fun _ _ _ _ _ => .pure _, fun _ _ _ _ _ _ => .pure _⟩
  obtain ⟨-, pages, hready⟩ := ready_cpuDispatch 0 cpu0
  have hdevice : DeviceAt _ _ _ _ _ _ (uart0Ba + 0x10) (uart0Ba + 0x10 + 4) :=
    uart0_deviceAt 1 (by decide) (by decide)
  obtain ⟨ks, hcut, hstore⟩ :=
    hdevice.doStPages hready (by decide : 0 < 4) (by decide) le_rfl (by decide : 1000 < 2 ^ 64)
  rw [hcut.whole (by decide) (by decide)] at hstore
  have hexec : GuestOp.exec (fun _ => unassignedMemOps) (fun _ => 0) []
      (.store cpu0 1 ⟨2, moUnaln⟩ (uart0Ba + 0x10) 1000) =
      onUart (Uart.uartWrite 1 0x10 1000#32) := by
    rw [GuestOp.exec, doStMmu, if_neg (by decide)]
    rw [show memopSize ⟨2, moUnaln⟩ = 4 from rfl, hstore]
    simp only [writeTiles, Action.bind_assoc, ret_bind]
    exact bind_ret _
  have hsome : (onUart (Uart.uartWrite 1 0x10 1000#32) started).isSome = true := by decide +kernel
  obtain ⟨⟨⟨⟩, t, out⟩, hwrite⟩ := Option.isSome_iff_exists.mp hsome
  have hstep : (guests (fun _ => unassignedMemOps) (fun _ => 0) []).step started
      (.store cpu0 1 ⟨2, moUnaln⟩ (uart0Ba + 0x10) 1000) out t :=
    ⟨True.intro, (congrFun hexec started).trans hwrite⟩
  have hrun := System.Run.snoc .nil hstep
  obtain ⟨hflash, hsram, -⟩ := memory_isolated hppb hrun
  refine ⟨_, t, hrun, rfl, ?_, hsram 1 ?_⟩
  · refine (hflash cpu0 _ List.mem_cons_self 0).resolve_right fun hreset => ?_
    simp [GuestOp.IsReset] at hreset
  · simp [GuestOp.WritesBy, cpu0]

end Runs

end QemuBoard.Board
