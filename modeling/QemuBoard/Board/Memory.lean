import QemuBoard.Library.Spans
import Mathlib.Algebra.Ring.Nat
import Mathlib.Data.List.Sort

/-! The memory API of `system/memory.c`: the tree of memory regions, how a region is put into
its container, and how an address space is rendered from the tree. An `AddrRange` is a
`Span` there: `addrrange_end` is its `stop`, `addrrange_contains` is `Has` and
`addrrange_intersection` is `meet`. `Int128` is `Int`. -/

namespace QemuBoard.Board

open Library

structure Attributes where
  readonly : Bool := false
  nonvolatile : Bool := false
  unmergeable : Bool := false
  deriving DecidableEq

def Attributes.or (x y : Attributes) : Attributes :=
  ⟨x.readonly || y.readonly, x.nonvolatile || y.nonvolatile, x.unmergeable || y.unmergeable⟩

/-- The fields of a `MemoryRegion` apart from what it holds. `mr` stands for the address of
the object, and `dirtyLogMask` for what `memory_region_get_dirty_log_mask` returns. -/
structure Fields (ρ : Type) where
  mr : ρ
  size : Nat
  size_le : size ≤ 2 ^ 64 := by decide
  addr : Nat := 0
  priority : Int := 0
  enabled : Bool := true
  attrs : Attributes := {}
  romdMode : Bool := true
  dirtyLogMask : Nat := 0
  deriving DecidableEq

/-- A region with `alias` set, or one with subregions and possibly contents of its own. -/
inductive MemoryRegion (ρ : Type)
  | alias (fields : Fields ρ) (target : MemoryRegion ρ) (aliasOffset : Nat)
  | plain (fields : Fields ρ) (terminates : Bool) (subregions : List (MemoryRegion ρ))

variable {ρ : Type}

namespace MemoryRegion

def fields : MemoryRegion ρ → Fields ρ
  | .alias f _ _ | .plain f _ _ => f

def place (offset : Nat) (priority : Int) : MemoryRegion ρ → MemoryRegion ρ
  | .alias f target off => .alias { f with addr := offset, priority } target off
  | .plain f terminates subs => .plain { f with addr := offset, priority } terminates subs

end MemoryRegion

/-- The size is a `uint64_t`, the largest of which stands for the whole address space. -/
def memoryRegionDoInit (mr : ρ) (size : Nat) : Fields ρ where
  mr
  size := if size = 2 ^ 64 - 1 then 2 ^ 64 else size % 2 ^ 64
  size_le := by split <;> omega

def memoryRegionInit (mr : ρ) (size : Nat) : MemoryRegion ρ :=
  .plain (memoryRegionDoInit mr size) false []

def memoryRegionInitIo (mr : ρ) (size : Nat) : MemoryRegion ρ :=
  .plain (memoryRegionDoInit mr size) true []

-- `1 << DIRTY_MEMORY_CODE` is added for whatever has a RAM block
def memoryRegionInitRam (mr : ρ) (size : Nat) : MemoryRegion ρ :=
  .plain { memoryRegionDoInit mr size with dirtyLogMask := 2 } true []

def memoryRegionInitRom (mr : ρ) (size : Nat) : MemoryRegion ρ :=
  .plain { memoryRegionDoInit mr size with dirtyLogMask := 2, attrs := { readonly := true } } true
    []

def memoryRegionInitAlias (mr : ρ) (orig : MemoryRegion ρ) (offset size : Nat) : MemoryRegion ρ :=
  .alias (memoryRegionDoInit mr size) orig offset

/-- The region goes before the first one whose priority it reaches. An alias has no use for
subregions. -/
def memoryRegionUpdateContainerSubregions (mr subregion : MemoryRegion ρ) : MemoryRegion ρ :=
  match mr with
  | .alias f target off => .alias f target off
  | .plain f terminates subs =>
    .plain f terminates
      (subs.orderedInsert (fun x other => x.fields.priority ≥ other.fields.priority) subregion)

def memoryRegionAddSubregionOverlap (mr : MemoryRegion ρ) (offset : Nat)
    (subregion : MemoryRegion ρ) (priority : Int) : MemoryRegion ρ :=
  memoryRegionUpdateContainerSubregions mr (subregion.place offset priority)

def memoryRegionAddSubregion (mr : MemoryRegion ρ) (offset : Nat) (subregion : MemoryRegion ρ) :
    MemoryRegion ρ :=
  memoryRegionAddSubregionOverlap mr offset subregion 0

structure FlatRange (ρ : Type) where
  mr : ρ
  offsetInRegion : Int
  addr : Span
  dirtyLogMask : Nat
  romdMode : Bool
  attrs : Attributes
  deriving DecidableEq

abbrev FlatView (ρ : Type) := List (FlatRange ρ)

def addrrangeIntersects (r1 r2 : Span) : Bool := r1.Has r2.start || r2.Has r1.start

def int128Get64 (a : Int) : Option Int := if 0 ≤ a ∧ a < 2 ^ 64 then some a else none

/-- The loop that renders a region "into any gaps left by the current view", from its
position `base` on; `fr` holds the fields all the new ranges share. -/
def fillGaps (fr : FlatRange ρ) :
    FlatView ρ → (base offsetInRegion remain : Int) → Option (FlatView ρ)
  | [], base, offsetInRegion, remain =>
    some (if remain ≠ 0 then [{ fr with offsetInRegion, addr := ⟨base, remain⟩ }] else [])
  | r :: ranges, base, offsetInRegion, remain =>
    if remain = 0 then
      some (r :: ranges)
    else if base ≥ r.addr.stop then do
      let view ← fillGaps fr ranges base offsetInRegion remain
      return r :: view
    else if base < r.addr.start then do
      let now ← int128Get64 (min remain (r.addr.start - base))
      let skip ← int128Get64 (min (base + now + (remain - now)) r.addr.stop - (base + now))
      let view ← fillGaps fr ranges (base + now + skip) (offsetInRegion + now + skip)
        (remain - now - skip)
      return { fr with offsetInRegion, addr := ⟨base, now⟩ } :: r :: view
    else do
      let now ← int128Get64 (min (base + remain) r.addr.stop - base)
      let view ← fillGaps fr ranges (base + now) (offsetInRegion + now) (remain - now)
      return r :: view

/-- The end of `render_memory_region`, for what the region has of its own. -/
def renderContents (view : FlatView ρ) (f : Fields ρ) (terminates : Bool) (base : Int) (clip : Span)
    (attrs : Attributes) : Option (FlatView ρ) :=
  if terminates = false then some view
  else do
    let offsetInRegion ← int128Get64 (clip.start - base)
    fillGaps ⟨f.mr, 0, clip, f.dirtyLogMask, f.romdMode, attrs⟩ view clip.start offsetInRegion
      clip.size

mutual

def renderMemoryRegion (view : FlatView ρ) (mr : MemoryRegion ρ) (base : Int) (clip : Span)
    (attrs : Attributes) : Option (FlatView ρ) :=
  match mr with
  | .alias f target aliasOffset =>
    if f.enabled = false then some view
    else if addrrangeIntersects ⟨base + f.addr, f.size⟩ clip = false then some view
    else
      renderMemoryRegion view target (base + f.addr - target.fields.addr - aliasOffset)
        (Span.meet ⟨base + f.addr, f.size⟩ clip) (attrs.or f.attrs)
  | .plain f terminates subregions =>
    if f.enabled = false then some view
    else if addrrangeIntersects ⟨base + f.addr, f.size⟩ clip = false then some view
    else do
      let clip := Span.meet ⟨base + f.addr, f.size⟩ clip
      let view ← renderSubregions view subregions (base + f.addr) clip (attrs.or f.attrs)
      renderContents view f terminates (base + f.addr) clip (attrs.or f.attrs)

def renderSubregions (view : FlatView ρ) (subregions : List (MemoryRegion ρ)) (base : Int)
    (clip : Span) (attrs : Attributes) : Option (FlatView ρ) :=
  match subregions with
  | [] => some view
  | subregion :: rest => do
    let view ← renderMemoryRegion view subregion base clip attrs
    renderSubregions view rest base clip attrs

end

section Simplify

variable [DecidableEq ρ]

def canMerge (r1 r2 : FlatRange ρ) : Bool :=
  r1.addr.stop = r2.addr.start && r1.mr = r2.mr &&
    r1.offsetInRegion + r1.addr.size = r2.offsetInRegion &&
    r1.dirtyLogMask = r2.dirtyLogMask && r1.romdMode = r2.romdMode &&
    r1.attrs.readonly = r2.attrs.readonly && r1.attrs.nonvolatile = r2.attrs.nonvolatile &&
    !r1.attrs.unmergeable && !r2.attrs.unmergeable

/-- The loops of `flatview_simplify`: `r` is the range at `i`, grown so far, and `last` the
range at `j - 1` as it was found. -/
def mergeRuns (r last : FlatRange ρ) : FlatView ρ → FlatView ρ
  | [] => [r]
  | next :: rest =>
    if canMerge last next then
      mergeRuns { r with addr := ⟨r.addr.start, r.addr.size + next.addr.size⟩ } next rest
    else
      r :: mergeRuns next next rest

def flatviewSimplify : FlatView ρ → FlatView ρ
  | [] => []
  | r :: rest => mergeRuns r r rest

def generateMemoryTopology : Option (MemoryRegion ρ) → Option (FlatView ρ)
  | none => some []
  | some mr => (renderMemoryRegion [] mr 0 ⟨0, 2 ^ 64⟩ {}).map flatviewSimplify

end Simplify

/-- The children `memory_region_get_flatview_root` looks at. -/
def enabledChildren (subregions : List (MemoryRegion ρ)) : List (MemoryRegion ρ) :=
  subregions.filter fun child => child.fields.enabled

def memoryRegionGetFlatviewRoot : MemoryRegion ρ → Option (MemoryRegion ρ)
  | .alias f target aliasOffset =>
    if f.enabled = false then none
    else if aliasOffset = 0 ∧ f.size ≥ target.fields.size then memoryRegionGetFlatviewRoot target
    else some (.alias f target aliasOffset)
  | .plain f terminates subregions =>
    if f.enabled = false then none
    else if terminates then some (.plain f terminates subregions)
    else
      match _hchildren : enabledChildren subregions with
      | [] => none
      | [child] =>
        -- the only enabled child, included in its entirety
        if child.fields.addr = 0 ∧ f.size ≥ child.fields.size then
          memoryRegionGetFlatviewRoot child
        else
          some (.plain f terminates subregions)
      | _ => some (.plain f terminates subregions)
termination_by mr => sizeOf mr
decreasing_by
  · simp
    omega
  · have hmem : child ∈ subregions := by
      apply List.mem_of_mem_filter (p := fun child => child.fields.enabled)
      rw [show subregions.filter _ = _ from _hchildren]
      exact List.mem_singleton_self child
    have := List.sizeOf_lt_of_mem hmem
    simp
    omega

end QemuBoard.Board
