import QemuBoard.Board.Access
import Mathlib.Data.Nat.Prime.Basic

namespace QemuBoard.Board

open Library Action

section Sizes

variable {w n j l addr size : Nat}

theorem two_pow_ctz_dvd (w n : Nat) : 2 ^ ctz w n ∣ n := by
  induction w generalizing n with
  | zero => exact Nat.one_dvd n
  | succ w ih =>
    rw [ctz]
    split
    case isTrue => exact Nat.one_dvd n
    case isFalse heven =>
      have hn : n = n / 2 * 2 := by omega
      rw [Nat.pow_succ]
      nth_rewrite 2 [hn]
      exact Nat.mul_dvd_mul_right (ih (n / 2)) 2

theorem le_ctz (hj : j ≤ w) (hdvd : 2 ^ j ∣ n) : j ≤ ctz w n := by
  induction w generalizing n j with
  | zero => exact hj
  | succ w ih =>
    cases j with
    | zero => exact Nat.zero_le _
    | succ j =>
      have heven : 2 ∣ n := (Dvd.intro_left _ (Nat.pow_succ ..).symm).trans hdvd
      rw [ctz, if_neg (by omega)]
      refine Nat.succ_le_succ (ih (by omega) ?_)
      rw [Nat.pow_succ'] at hdvd
      exact Nat.dvd_div_of_mul_dvd hdvd

theorem two_pow_dvd_or {a b : Nat} : 2 ^ j ∣ a ||| b ↔ 2 ^ j ∣ a ∧ 2 ^ j ∣ b := by
  simp only [Nat.dvd_iff_mod_eq_zero, Nat.or_mod_two_pow, Nat.or_eq_zero_iff]

theorem pieceSize_dvd (size addr : Nat) :
    pieceSize size addr ∣ size ∧ pieceSize size addr ∣ addr ∧ pieceSize size addr ∣ 8 := by
  have hdvd := two_pow_ctz_dvd 32 (size ||| addr ||| 8)
  rw [two_pow_dvd_or, two_pow_dvd_or] at hdvd
  exact ⟨hdvd.1.1, hdvd.1.2, hdvd.2⟩

theorem pieceSize_eq (hsize : size ∣ 8) (haddr : size ∣ addr) : pieceSize size addr = size := by
  obtain ⟨j, hj, rfl⟩ := (Nat.dvd_prime_pow Nat.prime_two (m := 3)).mp hsize
  refine Nat.dvd_antisymm (pieceSize_dvd _ addr).1 (Nat.pow_dvd_pow 2 (le_ctz (by omega) ?_))
  exact two_pow_dvd_or.mpr ⟨two_pow_dvd_or.mpr ⟨dvd_rfl, haddr⟩, hsize⟩

theorem memopSize_bounds (memop : MemOp) : 0 < memopSize memop ∧ memopSize memop ≤ 8 :=
  ⟨Nat.two_pow_pos _, Nat.pow_le_pow_right (by decide) (Nat.le_of_lt_succ memop.size.isLt)⟩

theorem pow2floor_spec (hpos : 0 < n) : pow2floor n ≤ n ∧ ∃ j, pow2floor n = 2 ^ j := by
  rw [pow2floor, if_neg hpos.ne']
  exact ⟨Nat.log2_self_le hpos.ne', n.log2, rfl⟩

theorem pow2floor_two_pow (j : Nat) : pow2floor (2 ^ j) = 2 ^ j := by
  rw [pow2floor, if_neg (Nat.pow_pos (by decide)).ne', Nat.log2_two_pow]

variable {σ ε : Type} {read : Nat → Nat → Action σ ε Nat}
  {write : Nat → Nat → Nat → Action σ ε Unit}

theorem alignment_bound (addr : Nat) : ∃ j ≤ 2, 2 ^ j ∣ addr ∧ (∀ i ≤ 2, 2 ^ i ∣ addr → i ≤ j) ∧
    (if alignSizeMax addr ≠ 0 ∧ alignSizeMax addr < 4 then alignSizeMax addr else 4) = 2 ^ j := by
  have hdvd := two_pow_ctz_dvd 64 addr
  split
  case isTrue hsmall =>
    obtain ⟨hne, hlt⟩ := hsmall
    have haddr : addr ≠ 0 := fun h => hne (if_pos h)
    rw [alignSizeMax, if_neg haddr] at hne hlt ⊢
    by_cases hc : ctz 64 addr < 32
    · rw [Nat.mod_eq_of_lt (Nat.pow_lt_pow_right (by decide) hc)] at hlt ⊢
      refine ⟨ctz 64 addr, ?_, hdvd, fun i hi => le_ctz (by omega), rfl⟩
      exact ((Nat.pow_lt_pow_iff_right (by decide)).mp (hlt : _ < 2 ^ 2)).le
    · exact absurd (Nat.mod_eq_zero_of_dvd (Nat.pow_dvd_pow 2 (not_lt.mp hc))) hne
  case isFalse hlarge =>
    refine ⟨2, le_rfl, ?_, fun i hi _ => hi, rfl⟩
    by_cases haddr : addr = 0
    · exact haddr ▸ Nat.dvd_zero _
    · rw [alignSizeMax, if_neg haddr] at hlarge
      refine (Nat.pow_dvd_pow 2 ?_).trans hdvd
      by_contra hsmall
      have hc : ctz 64 addr < 2 := not_le.mp hsmall
      rw [Nat.mod_eq_of_lt (Nat.pow_lt_pow_right (by decide) (by omega))] at hlarge
      exact hlarge ⟨(Nat.pow_pos (by decide)).ne', Nat.pow_lt_pow_right (by decide) hc⟩

theorem memoryAccessSize_device (read : Nat → Nat → Action σ ε Nat)
    (write : Nat → Nat → Nat → Action σ ε Unit) (addr : Nat) (hl : 0 < l) :
    0 < memoryAccessSize (deviceOps read write) l addr ∧
      memoryAccessSize (deviceOps read write) l addr ≤ l ∧
      memoryAccessSize (deviceOps read write) l addr ∣ 4 ∧
      memoryAccessSize (deviceOps read write) l addr ∣ addr ∧
      (l ∣ 4 → l ∣ addr → memoryAccessSize (deviceOps read write) l addr = l) := by
  obtain ⟨j, hj, haddr, hlargest, hbound⟩ := alignment_bound addr
  have hsize : memoryAccessSize (deviceOps read write) l addr = pow2floor (min l (2 ^ j)) := by
    rw [← hbound]
    simp only [memoryAccessSize, deviceOps, if_true, Bool.false_eq_true, not_false_eq_true,
      true_and]
    congr 1
    split_ifs <;> omega
  have hpos : 0 < min l (2 ^ j) := lt_min hl (Nat.pow_pos (by decide))
  obtain ⟨hle, i, hi⟩ := pow2floor_spec hpos
  have hij : 2 ^ i ∣ 2 ^ j := by
    refine Nat.pow_dvd_pow 2 ((Nat.pow_le_pow_iff_right (by decide : 1 < 2)).mp ?_)
    exact hi ▸ hle.trans (min_le_right ..)
  rw [hsize]
  refine ⟨hi ▸ Nat.pow_pos (by decide), hle.trans (min_le_left ..), ?_, ?_, fun hl4 hladdr => ?_⟩
  · exact hi ▸ hij.trans (Nat.pow_dvd_pow 2 hj)
  · exact hi ▸ hij.trans haddr
  · obtain ⟨i', hi', rfl⟩ := (Nat.dvd_prime_pow Nat.prime_two (m := 2)).mp hl4
    rw [min_eq_left (Nat.pow_le_pow_right (by decide) (hlargest i' hi' hladdr)), pow2floor_two_pow]

theorem dvd_eight (h : n ∣ 8) : n = 1 ∨ n = 2 ∨ n = 4 ∨ n = 8 := by
  obtain ⟨j, hj, rfl⟩ := (Nat.dvd_prime_pow Nat.prime_two (m := 3)).mp h
  interval_cases j <;> decide

end Sizes

section Device

variable {σ ε : Type} {read : Nat → Nat → Action σ ε Nat}
  {write : Nat → Nat → Nat → Action σ ε Unit} {addr n : Nat}

def deviceParts (n : Nat) : List Nat := if n = 8 then [4, 4] else [n]

structure Cut (addr n : Nat) (ks : List Nat) : Prop where
  tiles : Tiles 4 addr ks
  sum : ks.sum = n
  whole : n ∣ 4 → n ∣ addr → ks = [n]

theorem Cut.append {k : Nat} {ks ks' : List Nat} (h : Cut addr k ks)
    (h' : Cut (addr + k) (n - k) ks')
    (hlt : k < n) (hwhole : n ∣ 4 → n ∣ addr → k = n) : Cut addr n (ks ++ ks') := by
  refine ⟨h.tiles.append (h.sum.symm ▸ h'.tiles), ?_,
    fun hn haddr => absurd (hwhole hn haddr) hlt.ne⟩
  rw [List.sum_append, h.sum, h'.sum]
  omega

theorem Cut.single (hpos : 0 < n) (hn : n ∣ 4) (haddr : n ∣ addr) : Cut addr n [n] :=
  ⟨.single hpos hn haddr, List.sum_singleton, fun _ _ => rfl⟩

theorem Cut.odd_halfword {ks : List Nat} (h : Cut addr 2 ks) (hodd : addr % 2 = 1) :
    ks = [1, 1] := by
  obtain ⟨htiles, hsum, -⟩ := h
  match ks with
  | [] => exact absurd hsum (by decide)
  | [k] =>
    obtain rfl : k = 2 := hsum
    exact absurd (Nat.mod_eq_zero_of_dvd htiles.2.2.1) (by omega)
  | k :: l :: ks =>
    obtain ⟨hk, -, -, hl, -, -, hrest⟩ := htiles
    simp only [List.sum_cons] at hsum
    obtain ⟨rfl, rfl, hzero⟩ : k = 1 ∧ l = 1 ∧ ks.sum = 0 := by omega
    cases ks with
    | nil => rfl
    | cons k ks =>
      have := hrest.1
      simp only [List.sum_cons] at hzero
      omega

theorem cut_deviceParts (hn : n ∣ 8) (haddr : n ∣ addr) : Cut addr n (deviceParts n) := by
  rcases dvd_eight hn with rfl | rfl | rfl | rfl
  · exact ⟨.single (by decide) (by decide) haddr, rfl, fun _ _ => rfl⟩
  · exact ⟨.single (by decide) (by decide) haddr, rfl, fun _ _ => rfl⟩
  · exact ⟨.single (by decide) (by decide) haddr, rfl, fun _ _ => rfl⟩
  · have hfour : 4 ∣ addr := (by decide : 4 ∣ 8).trans haddr
    exact ⟨⟨by decide, dvd_rfl, hfour, by decide, dvd_rfl, hfour.add dvd_rfl, trivial⟩, rfl,
      fun h => absurd h (by decide)⟩

theorem accessValid_device (hn : n ∣ 8) (haddr : n ∣ addr) (isWrite : Bool) :
    memoryRegionAccessValid (deviceOps read write) addr n isWrite = true := by
  obtain ⟨j, -, rfl⟩ := (Nat.dvd_prime_pow Nat.prime_two (m := 3)).mp hn
  have haligned : addr &&& (2 ^ j - 1) = 0 := by
    rw [Nat.and_two_pow_sub_one_eq_mod]
    exact Nat.mod_eq_zero_of_dvd haddr
  simp [memoryRegionAccessValid, deviceOps, haligned]

section Adjusted

variable {α : Type} {ops : MemoryRegionOps σ ε} {accessFn : Nat → Nat → Int → α → Action σ ε α}
  {a : α}

theorem accessWithAdjustedSize_whole (hendian : ops.bigEndian = false)
    (hmin : ops.implMinAccessSize ≤ 1)
    (hpos : 0 < n) (hmax : n ≤ if ops.implMaxAccessSize = 0 then 4 else ops.implMaxAccessSize) :
    accessWithAdjustedSize ops n accessFn a = accessFn 0 n 0 a := by
  have hone : (if ops.implMinAccessSize = 0 then 1 else ops.implMinAccessSize) = 1 := by
    split_ifs <;> omega
  have hcount : (n + n - 1) / n = 1 := Nat.div_eq_of_lt_le (by omega) (by omega)
  simp only [accessWithAdjustedSize, hone, hendian, min_eq_left hmax,
    max_eq_left (Nat.succ_le_of_lt hpos), hcount]
  exact bind_ret _

theorem accessWithAdjustedSize_halves :
    accessWithAdjustedSize (deviceOps read write) 8 accessFn a = (do
      let a ← accessFn 0 4 0 a
      accessFn 4 4 32 a) := by
  have hparts : List.range' 0 ((8 + 4 - 1) / 4) 4 = [0, 4] := rfl
  have hendian : (deviceOps read write).bigEndian = false := rfl
  have hsize : max (min 8 (if (deviceOps read write).implMaxAccessSize = 0 then 4
      else (deviceOps read write).implMaxAccessSize))
      (if (deviceOps read write).implMinAccessSize = 0 then 1
        else (deviceOps read write).implMinAccessSize) = 4 := rfl
  simp only [accessWithAdjustedSize, hsize, hendian, hparts, List.foldlM_cons, List.foldlM_nil]
  exact congrArg (accessFn 0 4 0 a >>= ·) (funext fun a => bind_ret _)

end Adjusted

theorem writeAccessor_device (read : Nat → Nat → Action σ ε Nat)
    (write : Nat → Nat → Nat → Action σ ε Unit) (addr value i k : Nat) :
    memoryRegionWriteAccessor (deviceOps read write) addr value i k (i * 8 : Nat) memtxOk = (do
      write (addr + i) (value / 256 ^ i % 256 ^ k) k
      return memtxOk) := by
  have hshift : memoryRegionShiftWriteAccess value (i * 8 : Nat) k = value / 256 ^ i % 256 ^ k := by
    rw [memoryRegionShiftWriteAccess, if_pos (Int.natCast_nonneg _), Int.toNat_natCast,
      Nat.shiftRight_eq_div_pow, Nat.mul_comm, Nat.pow_mul]
  simp only [memoryRegionWriteAccessor, deviceOps, hshift, Action.bind_assoc, ret_bind]
  rfl

theorem dispatchWrite_device (hn : n ∣ 8) (haddr : n ∣ addr) (data : Nat) :
    memoryRegionDispatchWrite (deviceOps read write) addr data n false = (do
      writeTiles write (deviceParts n) addr (leBytes n data)
      return memtxOk) := by
  have hpos : 0 < n := Nat.pos_of_dvd_of_pos hn (by decide)
  have hendian : adjustEndianness (deviceOps read write) data n false = data := rfl
  have haccess := writeAccessor_device read write addr data
  rw [memoryRegionDispatchWrite, accessValid_device hn haddr, if_pos rfl, hendian, deviceParts]
  split
  case isTrue hn8 =>
    subst hn8
    have hfirst := haccess 0 4
    have hsecond := haccess 4 4
    rw [accessWithAdjustedSize_halves]
    refine (congrArg (· >>= _) hfirst).trans ?_
    have hlow : (leBytes 8 data).take 4 = leBytes 4 data := take_leBytes (by decide) data
    have hhigh : (leBytes 8 data).drop 4 = leBytes 4 (data / 256 ^ 4) :=
      drop_leBytes (by decide) data
    have htake : (leBytes 4 (data / 256 ^ 4)).take 4 = leBytes 4 (data / 256 ^ 4) :=
      take_leBytes le_rfl _
    simp only [Action.bind_assoc, ret_bind, writeTiles, hlow, hhigh, htake, ofDigits_leBytes]
    refine congrArg₂ (· >>= ·) ?_ (funext fun _ => hsecond)
    rw [Nat.pow_zero, Nat.div_one, Nat.add_zero]
  case isFalse hn8 =>
    have hle : n ≤ 4 := by
      rcases dvd_eight hn with rfl | rfl | rfl | rfl <;> simp_all
    have hwhole : accessWithAdjustedSize (deviceOps read write) n
        (memoryRegionWriteAccessor (deviceOps read write) addr data) memtxOk = _ :=
      accessWithAdjustedSize_whole rfl (Nat.zero_le 1) hpos hle
    rw [hwhole]
    refine (haccess 0 n).trans ?_
    rw [writeTiles, writeTiles, Action.bind_assoc,
      List.take_of_length_le (length_leBytes n data).le,
      ofDigits_leBytes, Nat.pow_zero, Nat.div_one]
    simp only [ret_bind]
    rfl

theorem readAccessor_device (read : Nat → Nat → Action σ ε Nat)
    (write : Nat → Nat → Nat → Action σ ε Unit) (addr value i k : Nat) :
    memoryRegionReadAccessor (deviceOps read write) addr i k (i * 8 : Nat) (memtxOk, value) = (do
      let tmp ← read (addr + i) k
      return (memtxOk, value ||| ((tmp % 256 ^ k) <<< (i * 8)) % 2 ^ 64)) := by
  have hshift : ∀ tmp, memoryRegionShiftReadAccess value (i * 8 : Nat) k tmp =
      value ||| ((tmp % 256 ^ k) <<< (i * 8)) % 2 ^ 64 := fun tmp => by
    rw [memoryRegionShiftReadAccess, if_pos (Int.natCast_nonneg _), Int.toNat_natCast]
  simp only [memoryRegionReadAccessor, deviceOps, hshift, Action.bind_assoc, ret_bind]
  rfl

theorem adjustEndianness_ofDigits {bs : List Nat} (hbs : ∀ b ∈ bs, b < 256) (bigEndian : Bool) :
    adjustEndianness (deviceOps read write) (Nat.ofDigits 256 bs) bs.length bigEndian =
      Nat.ofDigits 256 (if bigEndian then bs.reverse else bs) := by
  cases bigEndian with
  | false => rfl
  | true => exact bswap_ofDigits hbs

theorem or_halves (v u : Nat) :
    0 ||| ((v % 256 ^ 4) <<< (0 * 8)) % 2 ^ 64 ||| ((u % 256 ^ 4) <<< (4 * 8)) % 2 ^ 64 =
      Nat.ofDigits 256 (leBytes 4 v ++ leBytes 4 u) := by
  have hv : v % 256 ^ 4 < 256 ^ 4 := Nat.mod_lt _ (by decide)
  have hu : u % 256 ^ 4 < 256 ^ 4 := Nat.mod_lt _ (by decide)
  have hlow : v % 256 ^ 4 % 2 ^ 64 = v % 256 ^ 4 := Nat.mod_eq_of_lt (hv.trans (by decide))
  have hhigh : (u % 256 ^ 4) <<< (4 * 8) % 2 ^ 64 = (u % 256 ^ 4) <<< (4 * 8) :=
    Nat.mod_eq_of_lt (by rw [Nat.shiftLeft_eq]; omega)
  rw [Nat.zero_or, Nat.zero_mul, Nat.shiftLeft_zero, hlow, hhigh, Nat.or_comm, shiftLeft_or hv,
    Nat.ofDigits_append, ofDigits_leBytes, ofDigits_leBytes, length_leBytes]
  omega

theorem or_whole (hle : n ≤ 4) (v : Nat) :
    0 ||| ((v % 256 ^ n) <<< (0 * 8)) % 2 ^ 64 = Nat.ofDigits 256 (leBytes n v) := by
  have hlt : v % 256 ^ n < 2 ^ 64 := by
    refine (Nat.mod_lt _ (Nat.pow_pos (by decide))).trans_le ?_
    exact (Nat.pow_le_pow_right (by decide) (hle.trans (by decide : 4 ≤ 8)))
  rw [ofDigits_leBytes, Nat.zero_or, Nat.zero_mul, Nat.shiftLeft_zero, Nat.mod_eq_of_lt hlt]

theorem dispatchRead_device (hn : n ∣ 8) (haddr : n ∣ addr) (bigEndian : Bool) :
    memoryRegionDispatchRead (deviceOps read write) addr n bigEndian = (do
      let bs ← readTiles read (deviceParts n) addr
      return (memtxOk, Nat.ofDigits 256 (if bigEndian then bs.reverse else bs))) := by
  have hpos : 0 < n := Nat.pos_of_dvd_of_pos hn (by decide)
  have haccess := readAccessor_device read write addr
  rw [memoryRegionDispatchRead, accessValid_device hn haddr, if_pos rfl, deviceParts]
  split
  case isTrue hn8 =>
    subst hn8
    have hfirst := haccess 0 0 4
    rw [accessWithAdjustedSize_halves]
    refine (congrArg (fun m => (m >>= _) >>= _) hfirst).trans ?_
    simp only [readTiles, Action.bind_assoc, ret_bind, Nat.add_zero]
    refine congrArg (read addr 4 >>= ·) (funext fun v => ?_)
    refine (congrArg (· >>= _) (haccess _ 4 4)).trans ?_
    simp only [Action.bind_assoc, ret_bind]
    refine congrArg (read (addr + 4) 4 >>= ·) (funext fun u => ?_)
    have hbytes : ∀ b ∈ leBytes 4 v ++ leBytes 4 u, b < 256 := fun b hb =>
      (List.mem_append.mp hb).elim lt_of_mem_leBytes lt_of_mem_leBytes
    rw [or_halves, List.append_nil, ← adjustEndianness_ofDigits hbytes]
    rfl
  case isFalse hn8 =>
    have hle : n ≤ 4 := by
      rcases dvd_eight hn with rfl | rfl | rfl | rfl <;> simp_all
    have hwhole : accessWithAdjustedSize (deviceOps read write) n
        (memoryRegionReadAccessor (deviceOps read write) addr) (memtxOk, 0) = _ :=
      accessWithAdjustedSize_whole rfl (Nat.zero_le 1) hpos hle
    rw [hwhole]
    refine (congrArg (· >>= _) (haccess 0 0 n)).trans ?_
    simp only [readTiles, Action.bind_assoc, ret_bind, Nat.add_zero]
    refine congrArg (read addr n >>= ·) (funext fun v => ?_)
    have hadjust : adjustEndianness (deviceOps read write) (Nat.ofDigits 256 (leBytes n v))
        (leBytes n v).length bigEndian = _ :=
      adjustEndianness_ofDigits (fun _ => lt_of_mem_leBytes) bigEndian
    rw [length_leBytes] at hadjust
    rw [or_whole hle, List.append_nil, hadjust]

end Device

section Flat

variable {ρ σ ε : Type} {regions : Regions ρ σ ε} {d : AddressSpaceDispatch ρ} {m : ρ}
  {read : Nat → Nat → Action σ ε Nat} {write : Nat → Nat → Nat → Action σ ε Unit} {delta : Int}
  {lo hi a k fuel : Nat}

/-- From `lo` up to `hi` a device is seen, `delta` bytes from its registers. -/
structure Window (regions : Regions ρ σ ε) (d : AddressSpaceDispatch ρ) (m : ρ)
    (read : Nat → Nat → Action σ ε Nat) (write : Nat → Nat → Nat → Action σ ε Unit) (delta : Int)
    (lo hi : Nat) : Prop where
  ops : regions.ops m = deviceOps read write
  io : regions.isRam m = false
  translate : ∀ a len, lo ≤ a → a < hi →
    ∃ attrs, flatviewTranslate regions d a len = (⟨.region m, a + delta, attrs⟩, len)
  start : 0 ≤ lo + delta
  aligned : (targetPageSize : Int) ∣ delta

def register (delta : Int) (a : Nat) : Nat := (a + delta).toNat

theorem Window.register_add (h : Window regions d m read write delta lo hi) (ha : lo ≤ a)
    (k : Nat) :
    register delta (a + k) = register delta a + k := by
  have hstart := h.start
  rw [register, register]
  omega

theorem Window.dvd_register (h : Window regions d m read write delta lo hi) (ha : lo ≤ a)
    (hk : k ∣ targetPageSize) : k ∣ register delta a ↔ k ∣ a := by
  have hstart := h.start
  have hcast : ((register delta a : Nat) : Int) = a + delta := Int.toNat_of_nonneg (by omega)
  rw [← Int.natCast_dvd_natCast, hcast, ← Int.natCast_dvd_natCast]
  exact (Int.dvd_add_left ((Int.natCast_dvd_natCast.mpr hk).trans h.aligned))

theorem dvd_pageSize (h : k ∣ 8) : k ∣ targetPageSize := h.trans (by decide)

theorem Window.indirect (h : Window regions d m read write delta lo hi) (isWrite : Bool) :
    memoryAccessIsDirect regions (.region m) isWrite = none := by
  rw [memoryAccessIsDirect, if_neg]
  simp [h.io]

theorem Window.valid (h : Window regions d m read write delta lo hi) (isWrite : Bool) {len : Nat}
    (hfuel : len ≤ fuel) (ha : lo ≤ a) (hhi : a + len ≤ hi) :
    flatviewAccessValid regions d isWrite fuel a len = true := by
  induction fuel generalizing a len with
  | zero => rfl
  | succ fuel ih =>
    rw [flatviewAccessValid]
    split
    case isTrue => rfl
    case isFalse hlen =>
      obtain ⟨attrs, htranslate⟩ := h.translate a len ha (by omega)
      obtain ⟨hpos, hle, hfour, hdvd, -⟩ := memoryAccessSize_device read write a
        (Nat.pos_of_ne_zero hlen)
      have height : memoryAccessSize (deviceOps read write) len a ∣ 8 := hfour.trans (by decide)
      have hregister := (h.dvd_register ha (dvd_pageSize height)).mpr hdvd
      rw [htranslate]
      simp only [h.indirect, Regions.resolvedOps, h.ops]
      rw [Bool.and_eq_true]
      exact ⟨accessValid_device height hregister isWrite, ih (by omega) (by omega) (by omega)⟩

theorem Window.flatviewWrite (h : Window regions d m read write delta lo hi) {buf : List Nat}
    (hfuel : buf.length ≤ fuel) (hpos : 0 < buf.length) (ha : lo ≤ a) (hhi : a + buf.length ≤ hi)
    (hbuf : ∀ b ∈ buf, b < 256) :
    ∃ ks, Cut (register delta a) buf.length ks ∧ flatviewWriteContinue regions d fuel a buf = (do
      writeTiles write ks (register delta a) buf
      return memtxOk) := by
  induction fuel generalizing a buf with
  | zero => omega
  | succ fuel ih =>
    obtain ⟨attrs, htranslate⟩ := h.translate a buf.length ha (by omega)
    obtain ⟨hkpos, hle, hfour, hdvd, hwhole⟩ := memoryAccessSize_device read write
      (register delta a) hpos
    generalize hk : memoryAccessSize (deviceOps read write) buf.length (register delta a) = k at *
    have height : k ∣ 8 := hfour.trans (by decide)
    have htake : ∀ b ∈ buf.take k, b < 256 := fun b hb => hbuf b (List.mem_of_mem_take hb)
    have hlen : (buf.take k).length = k := List.length_take_of_le hle
    have hparts : deviceParts k = [k] := (cut_deviceParts height hdvd).whole hfour hdvd
    have hstep : flatviewWriteContinueStep regions ⟨.region m, a + delta, attrs⟩ buf.length buf =
      (do
        writeTiles write [k] (register delta a) (buf.take k)
        return (memtxOk, k)) := by
      have hbytes := leBytes_ofDigits htake
      rw [hlen] at hbytes
      simp only [flatviewWriteContinueStep, h.indirect, Regions.resolvedOps, h.ops]
      change (do
        let r ← memoryRegionDispatchWrite (deviceOps read write) (register delta a)
          (Nat.ofDigits 256 (buf.take
          (memoryAccessSize (deviceOps read write) buf.length (register delta a))))
          (memoryAccessSize (deviceOps read write) buf.length (register delta a)) false
        return (r, memoryAccessSize (deviceOps read write) buf.length (register delta a))) = _
      rw [hk, dispatchWrite_device height hdvd, hparts, hbytes, Action.bind_assoc]
      simp only [ret_bind]
    rw [flatviewWriteContinue, htranslate]
    simp only [hstep, Action.bind_assoc, ret_bind]
    by_cases hall : buf.length = k
    · refine ⟨[k], by rw [hall]; exact .single hkpos hfour hdvd, ?_⟩
      simp only [if_pos hall, List.take_of_length_le hall.le]
    · have hrest : (buf.drop k).length = buf.length - k := List.length_drop
      obtain ⟨ks, hcut, hwrite⟩ := ih (by omega : (buf.drop k).length ≤ fuel) (by omega)
        (by omega : lo ≤ a + k) (by omega) fun b hb => hbuf b (List.mem_of_mem_drop hb)
      rw [h.register_add ha, hrest] at hcut
      refine ⟨[k] ++ ks, (Cut.single hkpos hfour hdvd).append hcut (by omega) hwhole, ?_⟩
      have hsum : [k].sum = (buf.take k).length := by rw [hlen, List.sum_singleton]
      have htiles := writeTiles_append write ks (buf.drop k) (register delta a) hsum
      rw [List.take_append_drop, hlen] at htiles
      simp only [if_neg hall, hwrite, h.register_add ha, htiles, Action.bind_assoc, ret_bind]
      rfl

theorem Window.flatviewRead (h : Window regions d m read write delta lo hi) {len : Nat}
    (hfuel : len ≤ fuel) (hpos : 0 < len) (ha : lo ≤ a) (hhi : a + len ≤ hi) :
    ∃ ks, Cut (register delta a) len ks ∧ flatviewReadContinue regions d fuel a len = (do
      let bs ← readTiles read ks (register delta a)
      return (memtxOk, bs)) := by
  induction fuel generalizing a len with
  | zero => omega
  | succ fuel ih =>
    obtain ⟨attrs, htranslate⟩ := h.translate a len ha (by omega)
    obtain ⟨hkpos, hle, hfour, hdvd, hwhole⟩ := memoryAccessSize_device read write
      (register delta a) hpos
    generalize hk : memoryAccessSize (deviceOps read write) len (register delta a) = k at *
    have height : k ∣ 8 := hfour.trans (by decide)
    have hparts : deviceParts k = [k] := (cut_deviceParts height hdvd).whole hfour hdvd
    have hstep : flatviewReadContinueStep regions ⟨.region m, a + delta, attrs⟩ len = (do
        let bs ← readTiles read [k] (register delta a)
        return (memtxOk, bs)) := by
      simp only [flatviewReadContinueStep, h.indirect, Regions.resolvedOps, h.ops]
      change (do
        let done ← memoryRegionDispatchRead (deviceOps read write) (register delta a)
          (memoryAccessSize (deviceOps read write) len (register delta a)) false
        return (done.1, leBytes (memoryAccessSize (deviceOps read write) len (register delta a))
          done.2)) = _
      rw [hk, dispatchRead_device height hdvd, hparts]
      simp only [Action.bind_assoc, ret_bind]
      refine readTiles_bind_congr fun bs hlen hbs => ?_
      rw [List.sum_singleton] at hlen
      subst hlen
      exact congrArg (fun bs => pure (memtxOk, bs)) (leBytes_ofDigits hbs)
    rw [flatviewReadContinue, htranslate]
    simp only [hstep, Action.bind_assoc, ret_bind]
    by_cases hall : len = k
    · refine ⟨[k], by rw [hall]; exact .single hkpos hfour hdvd,
        readTiles_bind_congr fun bs hlen _ => ?_⟩
      rw [List.sum_singleton] at hlen
      rw [if_pos (hall.trans hlen.symm)]
    · obtain ⟨ks, hcut, hread⟩ := ih (by omega : len - k ≤ fuel) (by omega) (by omega : lo ≤ a + k)
        (by omega)
      rw [h.register_add ha] at hcut hread
      refine ⟨[k] ++ ks, (Cut.single hkpos hfour hdvd).append hcut (by omega) hwhole, ?_⟩
      rw [readTiles_append]
      simp only [Action.bind_assoc, ret_bind]
      refine readTiles_bind_congr fun bs hlen _ => ?_
      rw [List.sum_singleton] at hlen
      subst hlen
      rw [if_neg hall, hread]
      simp only [Action.bind_assoc, ret_bind, List.sum_singleton]
      rfl

structure Delivers (ops : MemoryRegionOps σ ε) (mrOffset : Nat → Nat)
    (read : Nat → Nat → Action σ ε Nat) (write : Nat → Nat → Nat → Action σ ε Unit) (delta : Int)
    (lo hi : Nat) : Prop where
  add : ∀ a k, lo ≤ a → mrOffset (a + k) = mrOffset a + k
  register_add : ∀ a k, lo ≤ a → register delta (a + k) = register delta a + k
  dvd : ∀ a k, lo ≤ a → k ∣ 8 → (k ∣ register delta a ↔ k ∣ a)
  write : ∀ a n, n ∣ 8 → n ∣ a → lo ≤ a → a + n ≤ hi → ∀ value, ∃ ks, Cut (register delta a) n ks ∧
    memoryRegionDispatchWrite ops (mrOffset a) value n false = (do
      writeTiles write ks (register delta a) (leBytes n value)
      return memtxOk)
  read : ∀ a n, n ∣ 8 → n ∣ a → lo ≤ a → a + n ≤ hi → ∃ ks, Cut (register delta a) n ks ∧
    memoryRegionDispatchRead ops (mrOffset a) n true = (do
      let bs ← readTiles read ks (register delta a)
      return (memtxOk, Nat.ofDigits 256 bs.reverse))

theorem Window.delivers (h : Window regions d m read write delta lo hi) :
    Delivers (regions.ops m) (register delta) read write delta lo hi := by
  refine ⟨fun a k ha => h.register_add ha k, fun a k ha => h.register_add ha k,
    fun a k ha hk => h.dvd_register ha (dvd_pageSize hk), fun a n hn hdvd ha _ value => ?_,
    fun a n hn hdvd ha _ => ?_⟩
  · have hregister := (h.dvd_register ha (dvd_pageSize hn)).mpr hdvd
    exact ⟨deviceParts n, cut_deviceParts hn hregister,
      h.ops ▸ dispatchWrite_device hn hregister value⟩
  · have hregister := (h.dvd_register ha (dvd_pageSize hn)).mpr hdvd
    exact ⟨deviceParts n, cut_deviceParts hn hregister,
      h.ops ▸ dispatchRead_device hn hregister true⟩

variable {p : Subpage} {n : Nat}

theorem Window.subpage_valid (h : Window regions d m read write delta lo hi)
    (hbase : targetPageSize ∣ p.base)
    (hlo : p.base ≤ lo) (hn : n ∣ 8) (hdvd : n ∣ a) (ha : lo ≤ a) (hhi : a + n ≤ hi)
    (isWrite : Bool) :
    memoryRegionAccessValid (subpageOps regions d p) (a - p.base) n isWrite = true := by
  have hpos : 0 < n := Nat.pos_of_dvd_of_pos hn (by decide)
  have hle : n ≤ 8 := Nat.le_of_dvd (by decide) hn
  have haccepts : (subpageOps regions d p).accepts (a - p.base) n isWrite = true := by
    change flatviewAccessValid regions d isWrite n (a - p.base + p.base) n = true
    rw [Nat.sub_add_cancel (hlo.trans ha)]
    exact h.valid isWrite le_rfl ha hhi
  have haligned : (a - p.base) &&& (n - 1) = 0 := by
    have hoffset : n ∣ a - p.base := Nat.dvd_sub hdvd ((dvd_pageSize hn).trans hbase)
    obtain ⟨j, -, rfl⟩ := (Nat.dvd_prime_pow Nat.prime_two (m := 3)).mp hn
    rw [Nat.and_two_pow_sub_one_eq_mod]
    exact Nat.mod_eq_zero_of_dvd hoffset
  have hmax : (subpageOps regions d p).validMaxAccessSize = 8 := rfl
  have hmin : (subpageOps regions d p).validMinAccessSize = 1 := rfl
  simp only [memoryRegionAccessValid, haccepts, haligned, hmax, hmin]
  simp
  omega

theorem subpage_writeAccessor (hbase : p.base ≤ a) (value : Nat) :
    memoryRegionWriteAccessor (subpageOps regions d p) (a - p.base) value 0 n 0 memtxOk = (do
      let r ← flatviewWriteContinue regions d n a (leBytes n value)
      return memtxOk ||| r) := by
  have hshift : memoryRegionShiftWriteAccess value 0 n = value % 256 ^ n := rfl
  rw [memoryRegionWriteAccessor, hshift]
  change (do
    let r ← flatviewWriteContinue regions d (leBytes n (value % 256 ^ n)).length
      (a - p.base + 0 + p.base) (leBytes n (value % 256 ^ n))
    return memtxOk ||| r) = _
  rw [leBytes_mod, length_leBytes, Nat.add_zero, Nat.sub_add_cancel hbase]

theorem subpage_readAccessor {ks : List Nat} (hbase : p.base ≤ a) (hle : n ≤ 8) (hsum : ks.sum = n)
    (hread : flatviewReadContinue regions d n a n = (do
      let bs ← readTiles read ks (register delta a)
      return (memtxOk, bs))) :
    memoryRegionReadAccessor (subpageOps regions d p) (a - p.base) 0 n 0 (memtxOk, 0) = (do
      let bs ← readTiles read ks (register delta a)
      return (memtxOk, Nat.ofDigits 256 bs)) := by
  simp only [memoryRegionReadAccessor, subpageOps, Board.flatviewRead, Nat.add_zero,
    Nat.sub_add_cancel hbase, hread, Action.bind_assoc, ret_bind]
  refine readTiles_bind_congr fun bs hlen hbs => ?_
  have hlt := ofDigits_lt hbs
  rw [hlen, hsum] at hlt
  have hword : Nat.ofDigits 256 bs < 2 ^ 64 := hlt.trans_le (Nat.pow_le_pow_right (by decide) hle)
  have hshift : memoryRegionShiftReadAccess 0 0 n (Nat.ofDigits 256 bs) =
      0 ||| (Nat.ofDigits 256 bs % 256 ^ n) <<< 0 % 2 ^ 64 := rfl
  rw [Nat.mod_eq_of_lt hlt, Nat.shiftLeft_zero, Nat.mod_eq_of_lt hword, Nat.zero_or] at hshift
  simp only [ne_eq, not_true_eq_false, if_false, hshift]
  rfl

theorem Window.delivers_subpage (h : Window regions d m read write delta lo hi)
    (hbase : targetPageSize ∣ p.base) (hlo : p.base ≤ lo) :
    Delivers (subpageOps regions d p) (· - p.base) read write delta lo hi := by
  refine ⟨fun a k ha => by omega, fun a k ha => h.register_add ha k,
    fun a k ha hk => h.dvd_register ha (dvd_pageSize hk), fun a n hn hdvd ha hhi value => ?_,
    fun a n hn hdvd ha hhi => ?_⟩
  · have hpos : 0 < n := Nat.pos_of_dvd_of_pos hn (by decide)
    have hle : n ≤ 8 := Nat.le_of_dvd (by decide) hn
    have hlen := length_leBytes n value
    obtain ⟨ks, hcut, hwrite⟩ := h.flatviewWrite hlen.le (hlen.symm ▸ hpos) ha (hlen.symm ▸ hhi)
      fun b hb => lt_of_mem_leBytes hb
    rw [hlen] at hcut
    refine ⟨ks, hcut, ?_⟩
    have hwhole : accessWithAdjustedSize (subpageOps regions d p) n
        (memoryRegionWriteAccessor (subpageOps regions d p) (a - p.base) value) memtxOk = _ :=
      accessWithAdjustedSize_whole rfl le_rfl hpos hle
    rw [memoryRegionDispatchWrite, h.subpage_valid hbase hlo hn hdvd ha hhi, if_pos rfl]
    refine (hwhole.trans (subpage_writeAccessor (hlo.trans ha) value)).trans ?_
    simp only [hwrite, Action.bind_assoc, ret_bind]
    rfl
  · have hpos : 0 < n := Nat.pos_of_dvd_of_pos hn (by decide)
    have hle : n ≤ 8 := Nat.le_of_dvd (by decide) hn
    obtain ⟨ks, hcut, hread⟩ := h.flatviewRead (le_refl n) hpos ha hhi
    refine ⟨ks, hcut, ?_⟩
    have hwhole : accessWithAdjustedSize (subpageOps regions d p) n
        (memoryRegionReadAccessor (subpageOps regions d p) (a - p.base)) (memtxOk, 0) = _ :=
      accessWithAdjustedSize_whole rfl le_rfl hpos hle
    rw [memoryRegionDispatchRead, h.subpage_valid hbase hlo hn hdvd ha hhi, if_pos rfl, hwhole,
      subpage_readAccessor (hlo.trans ha) hle hcut.sum hread]
    simp only [Action.bind_assoc, ret_bind]
    refine readTiles_bind_congr fun bs hlen hbs => ?_
    rw [hcut.sum] at hlen
    subst hlen
    exact congrArg (fun v => pure (memtxOk, v)) (bswap_ofDigits hbs)

end Flat

section Pieces

variable {σ ε : Type} {ops : MemoryRegionOps σ ε} {mrOffset : Nat → Nat}
  {read : Nat → Nat → Action σ ε Nat} {write : Nat → Nat → Nat → Action σ ε Unit} {delta : Int}
  {lo hi a size fuel : Nat}

theorem shiftRight_bytes (value k : Nat) : value >>> (k * 8) = value / 256 ^ k := by
  rw [Nat.shiftRight_eq_div_pow, Nat.mul_comm, Nat.pow_mul]

theorem Delivers.piece (h : Delivers ops mrOffset read write delta lo hi) (hpos : 0 < size)
    (ha : lo ≤ a) :
    pieceSize size a ∣ 8 ∧ pieceSize size a ∣ a ∧ 0 < pieceSize size a ∧ pieceSize size a ≤ size ∧
      (size ∣ 4 → size ∣ register delta a → pieceSize size a = size) := by
  obtain ⟨hsize, hdvd, height⟩ := pieceSize_dvd size a
  refine ⟨height, hdvd, Nat.pos_of_dvd_of_pos hsize hpos, Nat.le_of_dvd hpos hsize,
    fun hfour hreg => ?_⟩
  have hsize8 : size ∣ 8 := hfour.trans (by decide)
  exact pieceSize_eq hsize8 ((h.dvd a size ha hsize8).mp hreg)

theorem Delivers.store (h : Delivers ops mrOffset read write delta lo hi) {value : Nat}
    (hfuel : size ≤ fuel) (hpos : 0 < size) (hsize : size ≤ 8) (ha : lo ≤ a) (hhi : a + size ≤ hi)
    (hvalue : value < 2 ^ 64) :
    ∃ ks, Cut (register delta a) size ks ∧ intStMmioLeN ops fuel value a size (mrOffset a) = (do
      writeTiles write ks (register delta a) (leBytes size value)
      return some (value / 256 ^ size)) := by
  induction fuel generalizing a size value with
  | zero => omega
  | succ fuel ih =>
    obtain ⟨height, hdvd, hkpos, hle, hwhole⟩ := h.piece (a := a) hpos ha
    obtain ⟨ks, hcut, hwrite⟩ := h.write a _ height hdvd ha (by omega) value
    simp only [intStMmioLeN]
    generalize hk : pieceSize size a = k at *
    simp only [hwrite, Action.bind_assoc, ret_bind, ne_eq, not_true_eq_false, if_false,
      shiftRight_bytes]
    by_cases hall : size = k
    · subst hall
      refine ⟨ks, hcut, ?_⟩
      by_cases hk8 : size = 8
      · have hzero : value / 256 ^ size = 0 := by
          rw [hk8]
          exact Nat.div_eq_of_lt hvalue
        rw [if_pos hk8, hzero]
      · rw [if_neg hk8, Nat.sub_self, if_pos rfl]
    · have hk8 : k ≠ 8 := by omega
      rw [if_neg hk8, if_neg (by omega)]
      have hvalue' : value / 256 ^ k < 2 ^ 64 := (Nat.div_le_self ..).trans_lt hvalue
      obtain ⟨ks', hcut', hstore⟩ := ih (by omega : size - k ≤ fuel) (by omega) (by omega)
        (by omega : lo ≤ a + k) (by omega) hvalue'
      rw [h.register_add a k ha] at hcut' hstore
      refine ⟨ks ++ ks', hcut.append hcut' (by omega) hwhole, ?_⟩
      have hbytes : leBytes size value = leBytes k value ++
          leBytes (size - k) (value / 256 ^ k) := by
        rw [← leBytes_add, Nat.add_sub_cancel' hle]
      have hsum : ks.sum = (leBytes k value).length := by rw [hcut.sum, length_leBytes]
      have htiles := writeTiles_append write ks' (leBytes (size - k) (value / 256 ^ k))
        (register delta a) hsum
      have hrest : value / 256 ^ k / 256 ^ (size - k) = value / 256 ^ size := by
        rw [Nat.div_div_eq_div_mul, ← Nat.pow_add, Nat.add_sub_cancel' hle]
      rw [← h.add a k ha, hstore, hbytes, htiles, Action.bind_assoc, length_leBytes, hrest]

theorem or_piece {i k retBe : Nat} {bs : List Nat} (hret : retBe < 256 ^ i) (hword : i + k ≤ 8)
    (hlen : bs.length = k) (hbs : ∀ b ∈ bs, b < 256) :
    (retBe <<< (k * 8)) % 2 ^ 64 ||| Nat.ofDigits 256 bs.reverse =
        retBe * 256 ^ k + Nat.ofDigits 256 bs.reverse ∧
      retBe * 256 ^ k + Nat.ofDigits 256 bs.reverse < 256 ^ (i + k) := by
  have hbytes : ∀ b ∈ bs.reverse, b < 256 := fun b hb => hbs b (List.mem_reverse.mp hb)
  have hlt := ofDigits_lt hbytes
  rw [List.length_reverse, hlen] at hlt
  have hbound : retBe * 256 ^ k + 256 ^ k ≤ 256 ^ (i + k) := by
    rw [Nat.pow_add, ← Nat.succ_mul]
    exact Nat.mul_le_mul_right _ hret
  have hfits : 256 ^ (i + k) ≤ 2 ^ 64 := Nat.pow_le_pow_right (n := 256) (by decide) hword
  have hshift : retBe <<< (k * 8) = retBe * 256 ^ k := by
    rw [Nat.shiftLeft_eq, Nat.mul_comm k, Nat.pow_mul]
  have hmod : (retBe <<< (k * 8)) % 2 ^ 64 = retBe <<< (k * 8) := Nat.mod_eq_of_lt (by omega)
  exact ⟨by rw [hmod, shiftLeft_or hlt], by omega⟩

theorem Delivers.load (h : Delivers ops mrOffset read write delta lo hi) {i : Nat}
    (hfuel : size ≤ fuel)
    (hpos : 0 < size) (hsize : i + size ≤ 8) (ha : lo ≤ a) (hhi : a + size ≤ hi) :
    ∃ ks, Cut (register delta a) size ks ∧ ∀ retBe < 256 ^ i,
      intLdMmioBeN ops fuel retBe a size (mrOffset a) = (do
        let bs ← readTiles read ks (register delta a)
        return some (retBe * 256 ^ size + Nat.ofDigits 256 bs.reverse)) := by
  induction fuel generalizing a size i with
  | zero => omega
  | succ fuel ih =>
    obtain ⟨height, hdvd, hkpos, hle, hwhole⟩ := h.piece (a := a) hpos ha
    obtain ⟨ks, hcut, hread⟩ := h.read a _ height hdvd ha (by omega)
    simp only [intLdMmioBeN]
    generalize hk : pieceSize size a = k at *
    simp only [hread, Action.bind_assoc, ret_bind, ne_eq, not_true_eq_false, if_false]
    by_cases hall : size = k
    · subst hall
      refine ⟨ks, hcut, fun retBe hret => readTiles_bind_congr fun bs hlen hbs => ?_⟩
      by_cases hk8 : size = 8
      · have hzero : retBe = 0 := by
          obtain rfl : i = 0 := by omega
          exact Nat.lt_one_iff.mp hret
        rw [if_pos hk8, hzero, Nat.zero_mul, Nat.zero_add]
      · rw [if_neg hk8, Nat.sub_self, if_pos rfl, (or_piece hret hsize (hlen.trans hcut.sum) hbs).1]
    · have hk8 : k ≠ 8 := by omega
      have hmore : size - k ≠ 0 := by omega
      obtain ⟨ks', hcut', hload⟩ := ih (i := i + k) (by omega : size - k ≤ fuel) (by omega)
        (by omega) (by omega : lo ≤ a + k) (by omega)
      rw [h.register_add a k ha] at hcut' hload
      refine ⟨ks ++ ks', hcut.append hcut' (by omega) hwhole, fun retBe hret => ?_⟩
      rw [readTiles_append, hcut.sum]
      simp only [Action.bind_assoc, ret_bind]
      refine readTiles_bind_congr fun bs hlen hbs => ?_
      obtain ⟨heq, hlt⟩ := or_piece hret (by omega) (hlen.trans hcut.sum) hbs
      rw [if_neg hk8, if_neg hmore, heq, ← h.add a k ha, hload _ hlt]
      refine readTiles_bind_congr fun bs' hlen' _ => ?_
      rw [hcut'.sum] at hlen'
      refine congrArg (fun v => pure (some v)) ?_
      rw [List.reverse_append, Nat.ofDigits_append, List.length_reverse, hlen', Nat.add_mul,
        Nat.mul_assoc, ← Nat.pow_add, Nat.add_sub_cancel' hle, Nat.mul_comm (256 ^ (size - k))]
      omega

end Pieces

section Guest

variable {ρ σ ε : Type} {regions : Regions ρ σ ε} {d : AddressSpaceDispatch ρ} {t : Radix Nat}
  {f : Nat → Translation ρ} {m : ρ} {read : Nat → Nat → Action σ ε Nat}
  {write : Nat → Nat → Nat → Action σ ε Unit} {delta : Int} {lo hi a : Nat}

/-- From `lo` up to `hi` the device `m` is seen, which sets no access sizes and is mapped at a
multiple of the page size. -/
structure DeviceAt (regions : Regions ρ σ ε) (f : Nat → Translation ρ) (m : ρ)
    (read : Nat → Nat → Action σ ε Nat) (write : Nat → Nat → Nat → Action σ ε Unit) (delta : Int)
    (lo hi : Nat) : Prop where
  ops : regions.ops m = deviceOps read write
  io : regions.isRam m = false
  seen : ∀ a, lo ≤ a → a < hi → ∃ attrs, f a = ⟨.region m, a + delta, attrs⟩
  start : 0 ≤ lo + delta
  stop : hi + delta ≤ 2 ^ 64
  space : hi ≤ 2 ^ 32
  aligned : (targetPageSize : Int) ∣ delta

theorem DeviceAt.mono {lo' hi' : Nat} (h : DeviceAt regions f m read write delta lo hi)
    (hlo : lo ≤ lo') (hhi : hi' ≤ hi) : DeviceAt regions f m read write delta lo' hi' := by
  have hstart := h.start
  have hstop := h.stop
  have hspace := h.space
  exact ⟨h.ops, h.io, fun a ha hlt => h.seen a (by omega) (by omega), by omega, by omega, by omega,
    h.aligned⟩

theorem DeviceAt.window (h : DeviceAt regions f m read write delta lo hi) (hready : Ready d t f) :
    Window regions d m read write delta lo hi := by
  refine ⟨h.ops, h.io, fun a len ha hlt => ?_, h.start, h.aligned⟩
  have hspace := h.space
  have hanswers : Answers regions.isRam f d.subpages a len true _ :=
    hready.answers_translate (by omega) len true
  obtain ⟨attrs, hseen⟩ := h.seen a ha hlt
  have hfirst := hanswers.eq_seen
  rw [hseen] at hfirst
  refine ⟨attrs, Prod.ext hfirst (hanswers.io fun mr hmr => ?_)⟩
  rw [hfirst] at hmr
  rw [← SectionMr.region.inj hmr]
  exact h.io

theorem pageOf_page (t : Radix Nat) (a : Nat) :
    pageOf t (a / targetPageSize * targetPageSize) = pageOf t a := by
  rw [pageOf, pageOf, Nat.mul_div_cancel _ pageSize_pos]

theorem Ready.lookupPage (h : Ready d t f) (ha : a < 2 ^ 64) :
    (addressSpaceLookupRegion d (a / targetPageSize * targetPageSize) false).1 = pageOf t a := by
  have hserves : Serves d t d.mruSection := fun _ hn => absurd (h.mru.symm.trans hn) nofun
  have hstart : a / targetPageSize * targetPageSize < 2 ^ 64 := (Nat.div_mul_le_self ..).trans_lt ha
  have hpage := (h.lookupSection (m := d.mruSection) hserves hstart).1
  rw [pageOf_page] at hpage
  exact hpage

theorem ioPrepare_eq {n off : Nat} {xlat : Int} (hn : n < targetPageSize)
    (hoff : (off : Int) = a + xlat) (hlt : off < 2 ^ 64)
    (haligned : (targetPageSize : Int) ∣ xlat) :
    ioPrepare d (((n : Int) + xlat) % 2 ^ 64).toNat a = ((d.sectionAt n).mr, off) := by
  have hsize : targetPageSize = 1024 := by decide
  rw [hsize] at hn haligned
  obtain ⟨q, rfl⟩ := haligned
  rw [ioPrepare, hsize]
  refine Prod.ext ?_ ?_
  · refine congrArg (fun n => (d.sectionAt n).mr) ?_
    push_cast
    omega
  · dsimp only
    push_cast at hoff ⊢
    omega

/-- The TLB sends accesses to the page of `lo` to operations that hand them on to the device. -/
def HandedOn (regions : Regions ρ σ ε) (d : AddressSpaceDispatch ρ)
    (read : Nat → Nat → Action σ ε Nat) (write : Nat → Nat → Nat → Action σ ε Unit) (delta : Int)
    (lo hi : Nat) : Prop :=
  ∃ xlatSection mr mrOffset,
    tlbSetPage regions d (lo / targetPageSize * targetPageSize) = .mmio xlatSection ∧
    ioPrepare d xlatSection lo = (mr, mrOffset lo) ∧
    Delivers (sectionOps regions d mr) mrOffset read write delta lo hi

theorem DeviceAt.handedOn_region (h : DeviceAt regions f m read write delta lo hi)
    (hready : Ready d t f) (hlt : lo < hi) (hpage : IsPage d t (pageOf t lo))
    (hshows : Shows (d.sectionAt (pageOf t lo)) lo (f lo)) :
    HandedOn regions d read write delta lo hi := by
  have hspace := h.space
  have hstop := h.stop
  have hnlt := hpage.lt.trans_le hready.length
  have hn := hready.lookupPage (a := lo) (by omega)
  obtain ⟨attrs, hseen⟩ := h.seen lo le_rfl hlt
  obtain ⟨hmr, hxlat, -⟩ := Translation.mk.inj (hshows.translation.trans hseen)
  have hxlat' : ((d.sectionAt (pageOf t lo)).translation
      (lo / targetPageSize * targetPageSize)).xlat =
        (lo / targetPageSize * targetPageSize : Nat) + delta := by
    simp only [MemoryRegionSection.translation]
    omega
  have hregister : ((register delta lo : Nat) : Int) = lo + delta := Int.toNat_of_nonneg h.start
  have hprepare : ioPrepare d (((pageOf t lo : Nat) + delta) % 2 ^ 64).toNat lo =
      ((d.sectionAt (pageOf t lo)).mr, register delta lo) :=
    ioPrepare_eq hnlt hregister (by omega) h.aligned
  refine ⟨_, .region m, register delta, ?_, hmr ▸ hprepare, (h.window hready).delivers⟩
  simp only [tlbSetPage, hn, hmr, h.io, hxlat', Bool.false_eq_true, if_false]
  rw [Int.add_left_comm, add_sub_cancel_left]

theorem subpage_base {k : Nat} (hsub : IsSubpage d t (pageOf t a) k)
    (hpage : IsPage d t (pageOf t a)) (ha : a < 2 ^ 64) :
    (subpageAt d k).base = a / targetPageSize * targetPageSize := by
  have hsize : targetPageSize = 1024 := by decide
  have hcovers := (hpage.covers (a / targetPageSize * targetPageSize)
    ((Nat.div_mul_le_self ..).trans_lt ha)).mpr (pageOf_page t a)
  have honly := hsub.only a ha rfl
  rw [hsub.sectionAt, sectionCoversAddr] at hcovers
  dsimp only at hcovers
  rw [hsize] at hcovers honly ⊢
  omega

theorem DeviceAt.handedOn_subpage {k : Nat} (h : DeviceAt regions f m read write delta lo hi)
    (hready : Ready d t f) (hlt : lo < hi) (hpage : IsPage d t (pageOf t lo))
    (hsub : IsSubpage d t (pageOf t lo) k) : HandedOn regions d read write delta lo hi := by
  have hspace := h.space
  have hnlt := hpage.lt.trans_le hready.length
  have hn := hready.lookupPage (a := lo) (by omega)
  have hbase := subpage_base (a := lo) hsub hpage (by omega)
  have hxlat : ((d.sectionAt (pageOf t lo)).translation
      (lo / targetPageSize * targetPageSize)).xlat = 0 := by
    simp only [hsub.sectionAt, MemoryRegionSection.translation, hbase]
    omega
  have hle : (subpageAt d k).base ≤ lo := hbase ▸ Nat.div_mul_le_self ..
  have hdvd : targetPageSize ∣ (subpageAt d k).base := hbase ▸ Nat.dvd_mul_left ..
  have hprepare : ioPrepare d (((pageOf t lo : Nat) + -((subpageAt d k).base : Int)) %
      2 ^ 64).toNat lo = ((d.sectionAt (pageOf t lo)).mr, lo - (subpageAt d k).base) :=
    ioPrepare_eq hnlt (by omega) (by omega)
      (Int.dvd_neg.mpr (Int.natCast_dvd_natCast.mpr hdvd))
  refine ⟨_, .subpage k, (· - (subpageAt d k).base), ?_, hsub.mr ▸ hprepare,
    (h.window hready).delivers_subpage hdvd hle⟩
  simp only [tlbSetPage, hn, hsub.mr, hxlat, hbase]
  rw [Int.add_zero, Int.sub_eq_add_neg]

theorem DeviceAt.handedOn (h : DeviceAt regions f m read write delta lo hi) (hready : Ready d t f)
    (hlt : lo < hi) : HandedOn regions d read write delta lo hi := by
  have hspace := h.space
  have hshows := hready.shows lo (by omega)
  rcases hready.page lo with hzero | hpage
  · -- nothing is seen at a page without a section
    obtain ⟨attrs, hseen⟩ := h.seen lo le_rfl hlt
    have hno : sectionNo d t lo = physSectionUnassigned := by
      rw [sectionNo, hzero, hready.dummy]
      rfl
    rw [hno, hready.dummy] at hshows
    exact absurd (congrArg Translation.mr (hshows.translation.trans hseen))
      (by simp [MemoryRegionSection.translation, dummySection])
  · rcases hpage.mr with ⟨mr, hmr⟩ | ⟨k, hsub⟩
    · have hno : sectionNo d t lo = pageOf t lo := by rw [sectionNo, hmr]
      exact h.handedOn_region hready hlt hpage (hno ▸ hshows)
    · exact h.handedOn_subpage hready hlt hpage hsub

variable {size : Nat}

theorem DeviceAt.doStLeN (h : DeviceAt regions f m read write delta lo hi) (hready : Ready d t f)
    {value : Nat}
    (hpos : 0 < size) (hsize : size ≤ 8) (hhi : lo + size ≤ hi) (hvalue : value < 2 ^ 64) :
    ∃ ks, Cut (register delta lo) size ks ∧ doStLeN regions d value lo size = (do
      writeTiles write ks (register delta lo) (leBytes size value)
      return some (value / 256 ^ size)) := by
  obtain ⟨xlatSection, mr, mrOffset, htlb, hprepare, hdelivers⟩ := h.handedOn hready (by omega)
  obtain ⟨ks, hcut, hstore⟩ := hdelivers.store le_rfl hpos hsize le_rfl hhi hvalue
  refine ⟨ks, hcut, ?_⟩
  simp only [Board.doStLeN, htlb, doStMmioLeN, hprepare]
  exact hstore

theorem DeviceAt.doLdBeN (h : DeviceAt regions f m read write delta lo hi) (hready : Ready d t f)
    {i : Nat} (hpos : 0 < size) (hsize : i + size ≤ 8) (hhi : lo + size ≤ hi) :
    ∃ ks, Cut (register delta lo) size ks ∧ ∀ retBe < 256 ^ i, doLdBeN regions d retBe lo size = (do
      let bs ← readTiles read ks (register delta lo)
      return some (retBe * 256 ^ size + Nat.ofDigits 256 bs.reverse)) := by
  obtain ⟨xlatSection, mr, mrOffset, htlb, hprepare, hdelivers⟩ := h.handedOn hready (by omega)
  obtain ⟨ks, hcut, hload⟩ := hdelivers.load le_rfl hpos hsize le_rfl hhi
  refine ⟨ks, hcut, fun retBe hret => ?_⟩
  simp only [Board.doLdBeN, htlb, doLdMmioBeN, hprepare]
  exact hload retBe hret

theorem DeviceAt.within (h : DeviceAt regions f m read write delta lo hi) (hready : Ready d t f)
    (hsize : size ∣ 4) (haddr : size ∣ register delta lo) :
    size ≤ targetPageSize - lo % targetPageSize := by
  have hpage := dvd_pageSize (hsize.trans (by decide : 4 ∣ 8))
  have hlo : size ∣ lo := ((h.window hready).dvd_register le_rfl hpage).mp haddr
  have hmod : size ∣ lo % targetPageSize := (Nat.dvd_mod_iff hpage).mpr hlo
  exact Nat.le_of_dvd (Nat.sub_pos_of_lt (Nat.mod_lt _ pageSize_pos)) (Nat.dvd_sub hpage hmod)

theorem DeviceAt.doStPages (h : DeviceAt regions f m read write delta lo hi) (hready : Ready d t f)
    {value : Nat}
    (hpos : 0 < size) (hsize : size ≤ 8) (hhi : lo + size ≤ hi) (hvalue : value < 2 ^ 64) :
    ∃ ks, Cut (register delta lo) size ks ∧ doStPages regions d size lo value = (do
      writeTiles write ks (register delta lo) (leBytes size value)
      return true) := by
  have hspace := h.space
  simp only [Board.doStPages]
  split
  case isTrue =>
    obtain ⟨ks, hcut, hstore⟩ := h.doStLeN hready hpos hsize hhi hvalue
    refine ⟨ks, hcut, ?_⟩
    simp only [hstore, Action.bind_assoc, ret_bind]
    rfl
  case isFalse hcross =>
    have hmod := Nat.mod_lt lo pageSize_pos
    generalize hk : targetPageSize - lo % targetPageSize = k at *
    obtain ⟨ks, hcut, hstore⟩ := h.doStLeN hready (by omega : 0 < k) (by omega) (by omega) hvalue
    have hnext : DeviceAt regions f m read write delta (lo + k) hi := h.mono (by omega) le_rfl
    have hvalue' : value / 256 ^ k < 2 ^ 64 := (Nat.div_le_self ..).trans_lt hvalue
    obtain ⟨ks', hcut', hstore'⟩ := hnext.doStLeN hready (by omega : 0 < size - k) (by omega)
      (by omega) hvalue'
    rw [(h.window hready).register_add le_rfl] at hcut' hstore'
    refine ⟨ks ++ ks', hcut.append hcut' (by omega) fun h4 haddr =>
      absurd (h.within hready h4 haddr) (hk ▸ hcross), ?_⟩
    have hbytes : leBytes size value = leBytes k value ++ leBytes (size - k) (value / 256 ^ k) := by
      rw [← leBytes_add, Nat.add_sub_cancel' (by omega)]
    have hsum : ks.sum = (leBytes k value).length := by rw [hcut.sum, length_leBytes]
    have htiles := writeTiles_append write ks' (leBytes (size - k) (value / 256 ^ k))
      (register delta lo) hsum
    rw [length_leBytes] at htiles
    have hwrap : (lo + k) % 2 ^ 32 = lo + k := Nat.mod_eq_of_lt (by omega)
    simp only [hstore, hwrap, hstore', hbytes, htiles, Action.bind_assoc, ret_bind]
    rfl

theorem DeviceAt.doLdPages (h : DeviceAt regions f m read write delta lo hi) (hready : Ready d t f)
    (hpos : 0 < size) (hsize : size ≤ 8) (hhi : lo + size ≤ hi) :
    ∃ ks, Cut (register delta lo) size ks ∧ doLdPages regions d size lo = (do
      let bs ← readTiles read ks (register delta lo)
      return some (Nat.ofDigits 256 bs)) := by
  have hspace := h.space
  have hswap : ∀ bs : List Nat, bs.length = size → (∀ b ∈ bs, b < 256) →
      bswap size (Nat.ofDigits 256 bs.reverse) = Nat.ofDigits 256 bs := by
    rintro bs rfl hbs
    have hbytes : ∀ b ∈ bs.reverse, b < 256 := fun b hb => hbs b (List.mem_reverse.mp hb)
    have hreverse := bswap_ofDigits hbytes
    rwa [List.length_reverse, List.reverse_reverse] at hreverse
  simp only [Board.doLdPages]
  split
  case isTrue =>
    obtain ⟨ks, hcut, hload⟩ := h.doLdBeN hready (i := 0) hpos (by omega) hhi
    refine ⟨ks, hcut, ?_⟩
    rw [hload 0 (by decide)]
    simp only [Action.bind_assoc, ret_bind]
    refine readTiles_bind_congr fun bs hlen hbs => ?_
    rw [Nat.zero_mul, Nat.zero_add, Option.map_some, hswap bs (hlen.trans hcut.sum) hbs]
  case isFalse hcross =>
    have hmod := Nat.mod_lt lo pageSize_pos
    generalize hk : targetPageSize - lo % targetPageSize = k at *
    obtain ⟨ks, hcut, hload⟩ := h.doLdBeN hready (i := 0) (by omega : 0 < k) (by omega) (by omega)
    have hnext : DeviceAt regions f m read write delta (lo + k) hi := h.mono (by omega) le_rfl
    obtain ⟨ks', hcut', hload'⟩ := hnext.doLdBeN hready (i := k) (by omega : 0 < size - k)
      (by omega) (by omega)
    rw [(h.window hready).register_add le_rfl] at hcut' hload'
    refine ⟨ks ++ ks', hcut.append hcut' (by omega) fun h4 haddr =>
      absurd (h.within hready h4 haddr) (hk ▸ hcross), ?_⟩
    have hwrap : (lo + k) % 2 ^ 32 = lo + k := Nat.mod_eq_of_lt (by omega)
    rw [hload 0 (by decide), readTiles_append, hcut.sum]
    simp only [hwrap, Action.bind_assoc, ret_bind]
    refine readTiles_bind_congr fun bs hlen hbs => ?_
    have hbytes : ∀ b ∈ bs.reverse, b < 256 := fun b hb => hbs b (List.mem_reverse.mp hb)
    have hlt := ofDigits_lt hbytes
    rw [List.length_reverse, hlen, hcut.sum] at hlt
    rw [Nat.zero_mul, Nat.zero_add, hload' _ hlt]
    simp only [Action.bind_assoc, ret_bind]
    refine readTiles_bind_congr fun bs' hlen' hbs' => ?_
    have hvalue : Nat.ofDigits 256 bs.reverse * 256 ^ (size - k) + Nat.ofDigits 256 bs'.reverse =
        Nat.ofDigits 256 (bs ++ bs').reverse := by
      rw [List.reverse_append, Nat.ofDigits_append, List.length_reverse, hlen', hcut'.sum,
        Nat.mul_comm, Nat.add_comm]
    rw [hvalue, Option.map_some, hswap (bs ++ bs')]
    · rw [List.length_append, hlen, hlen', hcut.sum, hcut'.sum]
      omega
    · exact fun b hb => (List.mem_append.mp hb).elim (hbs b) (hbs' b)

end Guest

end QemuBoard.Board
