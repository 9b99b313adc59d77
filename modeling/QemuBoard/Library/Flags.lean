import Mathlib.Data.BitVec

namespace QemuBoard.Library

variable {w : Nat}

def bit (w i : Nat) : BitVec w := 1#w <<< i

/-- The truth value C gives to `x & m`. -/
def has (x m : BitVec w) : Bool := x &&& m != 0#w

theorem has_iff {x m : BitVec w} : has x m = true ↔ x &&& m ≠ 0#w := by simp [has]

theorem has_eq_false_iff {x m : BitVec w} : has x m = false ↔ x &&& m = 0#w := by simp [has]

theorem has_bit (x : BitVec w) (i : Nat) : has x (bit w i) = x.getLsbD i := by
  have h : bit w i = BitVec.twoPow w i := (BitVec.twoPow_eq w i).symm
  rw [has, h, BitVec.and_twoPow]
  cases hx : x.getLsbD i with
  | false => simp
  | true =>
    have hi : i < w := BitVec.lt_of_getLsbD hx
    have hne : BitVec.twoPow w i ≠ 0#w := by
      intro h0
      have := congrArg (fun y => y.getLsbD i) h0
      simp [hi] at this
    simp [hne]

theorem and_bit (x : BitVec w) (i : Nat) :
    x &&& bit w i = if has x (bit w i) then bit w i else 0#w := by
  rw [has_bit, bit, ← BitVec.twoPow_eq, BitVec.and_twoPow]

@[simp] theorem has_zero (m : BitVec w) : has 0#w m = false := by simp [has]

@[simp] theorem has_or (x y m : BitVec w) : has (x ||| y) m = (has x m || has y m) := by
  rw [Bool.eq_iff_iff]
  simp only [Bool.or_eq_true, has_iff, BitVec.and_comm _ m, BitVec.and_or_distrib_left, ne_eq,
    BitVec.or_eq_zero_iff]
  tauto

theorem has_and_of_not_has {x n : BitVec w} (h : has x n = false) (y : BitVec w) :
    has (x &&& y) n = false := by
  rw [has_eq_false_iff] at h ⊢
  rw [BitVec.and_assoc, BitVec.and_comm y, ← BitVec.and_assoc, h, BitVec.zero_and]

theorem has_comm (x y : BitVec w) : has x y = has y x := by rw [has, has, BitVec.and_comm]

@[simp] theorem has_clear_self (x m : BitVec w) : has (x &&& ~~~m) m = false := by
  rw [has_eq_false_iff, BitVec.and_assoc]
  simp

theorem has_clear {m n : BitVec w} (h : n &&& ~~~m = n) (x : BitVec w) :
    has (x &&& ~~~m) n = has x n := by
  rw [has, has, BitVec.and_assoc, BitVec.and_comm (~~~m), h]

@[simp] theorem has_bit_bit (i j : Nat) : has (bit w i) (bit w j) = decide (i = j ∧ i < w) := by
  rw [has_bit, bit, ← BitVec.twoPow_eq, BitVec.getLsbD_twoPow, Bool.eq_iff_iff]
  simp only [Bool.and_eq_true, decide_eq_true_eq]
  tauto

@[simp] theorem has_clear_bit (x : BitVec w) (i j : Nat) :
    has (x &&& ~~~bit w i) (bit w j) = (has x (bit w j) && decide (i ≠ j)) := by
  by_cases h : i = j
  · simp [h]
  · rw [has_bit, has_bit, BitVec.getLsbD_and, BitVec.getLsbD_not, bit, ← BitVec.twoPow_eq,
      BitVec.getLsbD_twoPow]
    cases hx : x.getLsbD j with
    | false => rfl
    | true => simp [h, BitVec.lt_of_getLsbD hx]

theorem or_bit_of_has {x : BitVec w} {i : Nat}
    (h : has x (bit w i) = true) : x ||| bit w i = x := by
  apply BitVec.eq_of_getLsbD_eq
  intro j _
  rw [has_bit] at h
  rw [BitVec.getLsbD_or, bit, ← BitVec.twoPow_eq, BitVec.getLsbD_twoPow]
  by_cases hij : i = j
  · simp [← hij, h]
  · simp [hij]

@[simp] theorem has_and_bit (x y : BitVec w) (i j : Nat) :
    has (x &&& bit w i) (y &&& bit w j) =
      (decide (i = j) && has x (bit w i) && has y (bit w j)) := by
  have hij : (x &&& bit w i) &&& (y &&& bit w j) = (x &&& y) &&& (bit w i &&& bit w j) := by
    ac_rfl
  by_cases h : i = j
  · subst h
    have hxy : has (x &&& y) (bit w i) = (has x (bit w i) && has y (bit w i)) := by
      simp [has_bit]
    rw [has, hij, BitVec.and_self, ← has, hxy]
    simp
  · have hz : bit w i &&& bit w j = 0#w := by
      rw [← has_eq_false_iff, has_bit_bit]
      simp [h]
    rw [has, hij, hz]
    simp [h]

end QemuBoard.Library
