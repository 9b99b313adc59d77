import Mathlib.Data.BitVec
import Mathlib.Tactic.IntervalCases

namespace QemuBoard.Library

/-- `for (i = 0; i < n && i < cap; i++) f(i)` -/
def forBelow {α : Type} (cap : Nat) (f : Fin cap → α → α) : Nat → α → α
  | 0, a => a
  | n + 1, a => if h : n < cap then f ⟨n, h⟩ (forBelow cap f n a) else forBelow cap f n a

theorem and_ff (x : BitVec 32) : x &&& 0xFF#32 = (x.setWidth 8).setWidth 32 := by
  have h : (x &&& 0xFF#32).toNat = x.toNat % 256 := by
    rw [BitVec.toNat_and]
    exact Nat.and_two_pow_sub_one_eq_mod x.toNat 8
  apply BitVec.eq_of_toNat_eq
  rw [h, BitVec.toNat_setWidth, BitVec.toNat_setWidth]
  omega

def lane (x : BitVec 32) (i : Nat) : BitVec 8 := (x >>> (i * 8)).setWidth 8

def place (b : BitVec 8) (i : Nat) : BitVec 32 := b.setWidth 32 <<< (i * 8)

theorem getLsbD_lane (x : BitVec 32) (i k : Nat) :
    (lane x i).getLsbD k = (decide (k < 8) && x.getLsbD (i * 8 + k)) := by
  rw [lane, BitVec.getLsbD_setWidth, BitVec.getLsbD_ushiftRight]

theorem lane_mask (x : BitVec 32) (i : Nat) :
    ((x >>> (i * 8)) &&& 0xFF#32).setWidth 8 = lane x i := by
  rw [and_ff, lane]
  simp

@[simp] theorem lane_or (x y : BitVec 32) (i : Nat) : lane (x ||| y) i = lane x i ||| lane y i := by
  apply BitVec.eq_of_getLsbD_eq
  intro k _
  simp only [BitVec.getLsbD_or, getLsbD_lane, Bool.and_or_distrib_left]

theorem lane_place {i : Nat} (b : BitVec 8) (hi : i < 4) (j : Nat) :
    lane (place b i) j = if i = j then b else 0#8 := by
  apply BitVec.eq_of_getLsbD_eq
  intro k hk
  rw [getLsbD_lane, place, BitVec.getLsbD_shiftLeft, BitVec.getLsbD_setWidth]
  split
  case isTrue h =>
    have hin : i * 8 + k < 32 := by omega
    have hk32 : k < 32 := by omega
    simp [← h, hk, hin, hk32]
  case isFalse h =>
    -- the bit asked for lies below or above the byte that was placed
    by_cases hlt : j * 8 + k < i * 8
    · simp [hlt]
    · have hb : b.getLsbD (j * 8 + k - i * 8) = false := BitVec.getLsbD_of_ge _ _ (by omega)
      simp [hb]

theorem eq_of_lane_eq {x y : BitVec 32} (h : ∀ i < 4, lane x i = lane y i) : x = y := by
  apply BitVec.eq_of_getLsbD_eq
  intro k hk
  have hmod : k % 8 < 8 := Nat.mod_lt k (by decide)
  have hlane := congrArg (fun b => b.getLsbD (k % 8)) (h (k / 8) (by omega))
  simpa only [getLsbD_lane, hmod, decide_true, Bool.true_and, Nat.div_add_mod'] using hlane

def ofLanes (f : Nat → BitVec 8) : BitVec 32 :=
  place (f 0) 0 ||| place (f 1) 1 ||| place (f 2) 2 ||| place (f 3) 3

theorem lane_ofLanes {i : Nat} (f : Nat → BitVec 8) (hi : i < 4) : lane (ofLanes f) i = f i := by
  simp only [ofLanes, lane_or, lane_place, Nat.reduceLT]
  interval_cases i <;> simp

theorem ofLanes_or_place {i : Nat} {f : Nat → BitVec 8} (hi : i < 4) (hf : f i = 0#8)
    (b : BitVec 8) : ofLanes f ||| place b i = ofLanes (Function.update f i b) := by
  apply eq_of_lane_eq
  intro j hj
  rw [lane_or, lane_ofLanes f hj, lane_ofLanes _ hj, lane_place b hi, Function.update_apply]
  by_cases h : j = i
  · simp [h, hf]
  · simp [h, Ne.symm h]

theorem ofLanes_congr {f g : Nat → BitVec 8} (h : ∀ i < 4, f i = g i) : ofLanes f = ofLanes g := by
  simp [ofLanes, h]

@[simp] theorem ofLanes_zero : ofLanes (fun _ => 0#8) = 0#32 := by decide

end QemuBoard.Library
