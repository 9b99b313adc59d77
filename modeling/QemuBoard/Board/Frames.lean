import QemuBoard.Board.Access

namespace QemuBoard.Board

open Library Action

variable {ρ σ ε : Type} {P : σ → Prop} {regions : Regions ρ σ ε} {d : AddressSpaceDispatch ρ}
  {ops : MemoryRegionOps σ ε}

theorem keeps_dispatchRead (h : ∀ addr size, Keeps P (ops.read addr size)) (addr size : Nat)
    (bigEndian : Bool) : Keeps P (memoryRegionDispatchRead ops addr size bigEndian) := by
  refine .ite (.bind (.foldlM _ fun a i _ => ?_) fun _ => .pure _) (.pure _)
  exact (h _ _).bind fun _ => .pure _

theorem keeps_dispatchWrite (h : ∀ addr value size, Keeps P (ops.write addr value size))
    (addr data size : Nat) (bigEndian : Bool) :
    Keeps P (memoryRegionDispatchWrite ops addr data size bigEndian) := by
  refine .ite (.foldlM _ fun a i _ => ?_) (.pure _)
  exact (h _ _ _).bind fun _ => .pure _

theorem keeps_intStMmioLeN (h : ∀ addr value size, Keeps P (ops.write addr value size))
    (fuel valLe addr size mrOffset : Nat) :
    Keeps P (intStMmioLeN ops fuel valLe addr size mrOffset) := by
  induction fuel generalizing valLe addr size mrOffset with
  | zero => exact .pure _
  | succ fuel ih =>
    refine (keeps_dispatchWrite h _ _ _ _).bind fun _ => ?_
    exact .ite (.pure _) (.ite (.pure _) (.ite (.pure _) (ih _ _ _ _)))

theorem keeps_intLdMmioBeN (h : ∀ addr size, Keeps P (ops.read addr size))
    (fuel retBe addr size mrOffset : Nat) :
    Keeps P (intLdMmioBeN ops fuel retBe addr size mrOffset) := by
  induction fuel generalizing retBe addr size mrOffset with
  | zero => exact .pure _
  | succ fuel ih =>
    refine (keeps_dispatchRead h _ _ _).bind fun done => ?_
    cases done
    exact .ite (.pure _) (.ite (.pure _) (.ite (.pure _) (ih _ _ _ _)))

theorem flatviewTranslate_section (regions : Regions ρ σ ε) (d : AddressSpaceDispatch ρ)
    (addr len : Nat) : ∃ n, (flatviewTranslate regions d addr len).1.mr = (d.sectionAt n).mr :=
  ⟨_, rfl⟩

theorem memoryAccessIsDirect_eq_some {mr : SectionMr ρ} {isWrite : Bool} {m : ρ}
    (h : memoryAccessIsDirect regions mr isWrite = some m) :
    mr = .region m ∧ regions.isRam m = true ∧ (isWrite = true → regions.readonly m = false) := by
  cases mr with
  | unassigned => exact absurd h (by simp [memoryAccessIsDirect])
  | subpage k => exact absurd h (by simp [memoryAccessIsDirect])
  | region mr =>
    rw [memoryAccessIsDirect] at h
    split at h
    case isTrue hram =>
      obtain rfl := Option.some.inj h
      exact ⟨rfl, hram.1, fun hwrite => by simpa [hwrite] using hram.2⟩
    case isFalse => exact absurd h (by simp)

theorem tlbSetPage_ram {page : Nat} {mr : ρ} {addend : Int} {discardWrite : Bool}
    (h : tlbSetPage regions d page = .ram mr addend discardWrite) :
    ∃ s ∈ d.sections, s.mr = .region mr ∧ s.attrs.readonly = discardWrite := by
  simp only [tlbSetPage] at h
  split at h
  case h_1 mr' hmr =>
    split at h
    case isTrue =>
      obtain ⟨rfl, -, rfl⟩ := TlbEntry.ram.inj h
      exact ⟨_, sectionAt_mem hmr, hmr, rfl⟩
    case isFalse => exact absurd h (by simp)
  case h_2 => exact absurd h (by simp)
  case h_3 => exact absurd h (by simp)

/-- No write that a section leads to changes `P`: neither one by the operations of its region nor,
where the memory of the region can be written, a store to it. -/
structure WritesKeep (P : σ → Prop) (regions : Regions ρ σ ε) (d : AddressSpaceDispatch ρ) :
    Prop where
  ops : ∀ s ∈ d.sections, ∀ mr, s.mr = .region mr → ∀ addr value size,
    Keeps P ((regions.ops mr).write addr value size)
  store : ∀ s ∈ d.sections, ∀ mr, s.mr = .region mr →
    s.attrs.readonly = false ∨ regions.readonly mr = false →
    ∀ offset bytes, Keeps P (regions.store mr offset bytes)

namespace WritesKeep

theorem resolvedOps (h : WritesKeep P regions d) (n addr value size : Nat) :
    Keeps P ((regions.resolvedOps (d.sectionAt n).mr).write addr value size) := by
  cases hmr : (d.sectionAt n).mr with
  | unassigned => exact .pure _
  | subpage k => exact .pure _
  | region mr => exact h.ops _ (sectionAt_mem hmr) mr hmr addr value size

theorem direct (h : WritesKeep P regions d) {n : Nat} {mr : ρ}
    (hdirect : memoryAccessIsDirect regions (d.sectionAt n).mr true = some mr) (offset : Nat)
    (bytes : List Nat) : Keeps P (regions.store mr offset bytes) := by
  obtain ⟨hmr, -, hreadonly⟩ := memoryAccessIsDirect_eq_some hdirect
  exact h.store _ (sectionAt_mem hmr) mr hmr (.inr (hreadonly rfl)) offset bytes

theorem step (h : WritesKeep P regions d) {x : Translation ρ} {n : Nat}
    (hx : x.mr = (d.sectionAt n).mr) (l : Nat) (buf : List Nat) :
    Keeps P (flatviewWriteContinueStep regions x l buf) := by
  rw [flatviewWriteContinueStep]
  split
  case h_1 mr hdirect =>
    rw [hx] at hdirect
    exact (h.direct hdirect _ _).bind fun _ => .pure _
  case h_2 =>
    rw [hx]
    exact (keeps_dispatchWrite (h.resolvedOps n) _ _ _ _).bind fun _ => .pure _

theorem flatviewWrite (h : WritesKeep P regions d) (fuel addr : Nat) (buf : List Nat) :
    Keeps P (flatviewWriteContinue regions d fuel addr buf) := by
  induction fuel generalizing addr buf with
  | zero => exact .pure _
  | succ fuel ih =>
    obtain ⟨n, hn⟩ := flatviewTranslate_section regions d addr buf.length
    rw [flatviewWriteContinue]
    refine (h.step hn _ _).bind fun done => ?_
    cases done
    exact .ite (.pure _) ((ih _ _).bind fun _ => .pure _)

theorem sectionOps (h : WritesKeep P regions d) (n addr value size : Nat) :
    Keeps P ((sectionOps regions d (d.sectionAt n).mr).write addr value size) := by
  cases hmr : (d.sectionAt n).mr with
  | unassigned => exact .pure _
  | subpage k => exact h.flatviewWrite _ _ _
  | region mr => exact h.ops _ (sectionAt_mem hmr) mr hmr addr value size

theorem doStLeN (h : WritesKeep P regions d) (valLe addr size : Nat) :
    Keeps P (doStLeN regions d valLe addr size) := by
  rw [Board.doStLeN]
  split
  case h_1 => exact keeps_intStMmioLeN (h.sectionOps _) _ _ _ _ _
  case h_2 mr addend discardWrite htlb =>
    obtain ⟨s, hs, hmr, hreadonly⟩ := tlbSetPage_ram htlb
    split
    case isTrue => exact .pure _
    case isFalse hwrite =>
      have hwritable := hreadonly.trans (Bool.eq_false_iff.mpr hwrite)
      exact (h.store s hs mr hmr (.inl hwritable) _ _).bind fun _ => .pure _

theorem doStMmu (h : WritesKeep P regions d) (memop : MemOp) (addr value : Nat) :
    Keeps P (doStMmu regions d memop addr value) := by
  refine .ite (.pure _) ?_
  refine .ite ((h.doStLeN _ _ _).bind fun _ => .pure _) ((h.doStLeN _ _ _).bind fun rest => ?_)
  cases rest with
  | none => exact .pure _
  | some value => exact (h.doStLeN _ _ _).bind fun _ => .pure _

theorem addressSpaceStl (h : WritesKeep P regions d) (addr value : Nat) :
    Keeps P (addressSpaceStl regions d addr value) := by
  obtain ⟨n, hn⟩ := flatviewTranslate_section regions d addr 4
  rw [Board.addressSpaceStl]
  dsimp only
  rw [hn]
  split
  case h_1 mr hdirect =>
    obtain ⟨hmr, -, -⟩ := memoryAccessIsDirect_eq_some hdirect
    refine .ite ?_ ((h.direct hdirect _ _).bind fun _ => .pure _)
    exact keeps_dispatchWrite (h.ops _ (sectionAt_mem hmr) mr hmr) _ _ _ _
  case h_2 => exact keeps_dispatchWrite (h.resolvedOps n) _ _ _ _

theorem v7mPushStack (h : WritesKeep P regions d) (frameptr : Nat) (words : List Nat) :
    Keeps P (v7mPushStack regions d frameptr words) := by
  induction words generalizing frameptr with
  | nil => exact .pure _
  | cons word words ih =>
    refine ((h.addressSpaceStl frameptr word).bind fun _ => .pure _).bind fun ok => ?_
    exact .ite (ih _) (.pure _)

theorem addressSpaceSet (h : WritesKeep P regions d) (c fuel addr len : Nat) :
    Keeps P (addressSpaceSet regions d c fuel addr len) := by
  induction fuel generalizing addr len with
  | zero => exact .pure _
  | succ fuel ih =>
    refine .ite (.pure _) ((h.flatviewWrite _ _ _).bind fun _ => ?_)
    exact (ih _ _).bind fun _ => .pure _

end WritesKeep

theorem keeps_writeRom {addr : Nat} {data : List Nat}
    (h : ∀ j < data.length, ∀ x l, flatviewTranslate regions d ((addr + j) % 2 ^ 64)
      (data.length - j) = (x, l) → ∀ mr, memoryAccessIsDirect regions x.mr false = some mr →
      Keeps P (regions.store mr x.xlat.toNat ((data.drop j).take l)))
    (fuel j : Nat) : Keeps P (addressSpaceWriteRom regions d fuel (addr + j) (data.drop j)) := by
  induction fuel generalizing j with
  | zero => exact .pure _
  | succ fuel ih =>
    rw [addressSpaceWriteRom]
    split
    case isTrue => exact .pure _
    case isFalse hleft =>
      rw [List.length_drop] at hleft ⊢
      obtain ⟨x, l, hx⟩ : ∃ x l, flatviewTranslate regions d ((addr + j) % 2 ^ 64)
          (data.length - j) = (x, l) := ⟨_, _, rfl⟩
      simp only [hx, List.drop_drop, Nat.add_assoc]
      split
      case h_1 mr hdirect =>
        exact (h j (by omega) x l hx mr hdirect).bind fun _ => ih (j + l)
      case h_2 => exact ih _

structure ReadsKeep (P : σ → Prop) (regions : Regions ρ σ ε) (d : AddressSpaceDispatch ρ) :
    Prop where
  ops : ∀ s ∈ d.sections, ∀ mr, s.mr = .region mr →
    ∀ addr size, Keeps P ((regions.ops mr).read addr size)
  load : ∀ mr offset len, Keeps P (regions.load mr offset len)

namespace ReadsKeep

theorem resolvedOps (h : ReadsKeep P regions d) (n addr size : Nat) :
    Keeps P ((regions.resolvedOps (d.sectionAt n).mr).read addr size) := by
  cases hmr : (d.sectionAt n).mr with
  | unassigned => exact .pure _
  | subpage k => exact .pure _
  | region mr => exact h.ops _ (sectionAt_mem hmr) mr hmr addr size

theorem step (h : ReadsKeep P regions d) {x : Translation ρ} {n : Nat}
    (hx : x.mr = (d.sectionAt n).mr) (l : Nat) :
    Keeps P (flatviewReadContinueStep regions x l) := by
  rw [flatviewReadContinueStep]
  split
  case h_1 mr _ => exact (h.load _ _ _).bind fun _ => .pure _
  case h_2 =>
    rw [hx]
    exact (keeps_dispatchRead (h.resolvedOps n) _ _ _).bind fun _ => .pure _

theorem flatviewRead (h : ReadsKeep P regions d) (fuel addr len : Nat) :
    Keeps P (flatviewReadContinue regions d fuel addr len) := by
  induction fuel generalizing addr len with
  | zero => exact .pure _
  | succ fuel ih =>
    obtain ⟨n, hn⟩ := flatviewTranslate_section regions d addr len
    rw [flatviewReadContinue]
    refine (h.step hn _).bind fun done => ?_
    cases done
    exact .ite (.pure _) ((ih _ _).bind fun _ => .pure _)

theorem sectionOps (h : ReadsKeep P regions d) (n addr size : Nat) :
    Keeps P ((sectionOps regions d (d.sectionAt n).mr).read addr size) := by
  cases hmr : (d.sectionAt n).mr with
  | unassigned => exact .pure _
  | subpage k => exact (h.flatviewRead _ _ _).bind fun _ => .pure _
  | region mr => exact h.ops _ (sectionAt_mem hmr) mr hmr addr size

theorem doLdBeN (h : ReadsKeep P regions d) (retBe addr size : Nat) :
    Keeps P (doLdBeN regions d retBe addr size) := by
  rw [Board.doLdBeN]
  split
  case h_1 => exact keeps_intLdMmioBeN (h.sectionOps _) _ _ _ _ _
  case h_2 => exact (h.load _ _ _).bind fun _ => .pure _

theorem doLdMmu (h : ReadsKeep P regions d) (memop : MemOp) (addr : Nat) :
    Keeps P (doLdMmu regions d memop addr) := by
  refine .ite (.pure _) ?_
  refine .ite ((h.doLdBeN _ _ _).bind fun _ => .pure _) ((h.doLdBeN _ _ _).bind fun ret => ?_)
  cases ret with
  | none => exact .pure _
  | some ret => exact (h.doLdBeN _ _ _).bind fun _ => .pure _

theorem addressSpaceLdl (h : ReadsKeep P regions d) (addr : Nat) :
    Keeps P (addressSpaceLdl regions d addr) := by
  obtain ⟨n, hn⟩ := flatviewTranslate_section regions d addr 4
  rw [Board.addressSpaceLdl]
  dsimp only
  rw [hn]
  split
  case h_1 mr hdirect =>
    obtain ⟨hmr, -, -⟩ := memoryAccessIsDirect_eq_some hdirect
    refine .ite ?_ ((h.load _ _ _).bind fun _ => .pure _)
    exact keeps_dispatchRead (h.ops _ (sectionAt_mem hmr) mr hmr) _ _ _
  case h_2 => exact keeps_dispatchRead (h.resolvedOps n) _ _ _

end ReadsKeep

end QemuBoard.Board
