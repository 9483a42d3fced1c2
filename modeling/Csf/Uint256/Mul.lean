import Csf.Uint256.Shift

/-!
# 256-bit integers: multiplication

`uint256_mul` adds a shifted right operand for every bit of the left one, so every
one of its additions can lose a carry. What is lost adds up and never cancels: the
product is right exactly when no addition on the way to it loses anything, and until
then the partial sums are the true ones.
-/

namespace Csf.Uint256

/-- The product after the bits of the left operand below `k`. -/
def productBelow (left right : UInt256) : ℕ → UInt256
  | 0 => uint256CreateFromU64 0
  | k + 1 =>
      if left.value.testBit k then
        uint256Add (productBelow left right k) (uint256LeftShift right (UInt32.ofNat k))
      else productBelow left right k

/-- Bit `j` of limb `i` is bit `j + 64 * i` of the value. -/
theorem testBit_value (v : UInt256) (i : Fin 4) {j : ℕ} (hj : j < 64) :
    v.value.testBit (j + i * 64) = (uint256GetBits v i).toNat.testBit j := by
  rw [← v.limb_value, limb, Nat.testBit_mod_two_pow, Nat.testBit_div_two_pow,
    Nat.mul_comm 64]
  simp [hj]

/-- The loops go through the bits in order. -/
theorem mul_eq_productBelow (left right : UInt256) :
    uint256Mul left right = productBelow left right 256 := by
  have hinner : ∀ (i : Fin 4) (n : ℕ), n ≤ 64 →
      (List.range n).foldl (mulStep left right i) (productBelow left right (i * 64)) =
        productBelow left right (n + i * 64) := by
    intro i n
    induction n with
    | zero =>
        intro _
        rw [Nat.zero_add]
        rfl
    | succ n ih =>
        intro hn
        rw [List.range_succ, List.foldl_append, ih (by omega), List.foldl_cons, List.foldl_nil,
          Nat.add_right_comm, productBelow, testBit_value left i (by omega), mulStep]
        simp only [and_bit_ne_zero (show n < 64 by omega)]
        rfl
  have hrange : List.finRange 4 = [0, 1, 2, 3] := rfl
  have h0 := hinner 0 64 (le_refl 64)
  have h1 := hinner 1 64 (le_refl 64)
  have h2 := hinner 2 64 (le_refl 64)
  have h3 := hinner 3 64 (le_refl 64)
  simp only [Fin.val_zero, Fin.val_one, Fin.val_two, show ((3 : Fin 4) : ℕ) = 3 from rfl,
    Nat.zero_mul, Nat.add_zero, Nat.one_mul, Nat.reduceMul, Nat.reduceAdd] at h0 h1 h2 h3
  rw [uint256Mul, hrange]
  simp only [List.foldl_cons, List.foldl_nil]
  rw [← h3, ← h2, ← h1, ← h0]
  rfl

/-- What the additions below bit `k` lose. -/
def lostBelow (left right : UInt256) : ℕ → ℕ
  | 0 => 0
  | k + 1 => lostBelow left right k +
      if left.value.testBit k then
        deficit (productBelow left right k) (uint256LeftShift right (UInt32.ofNat k))
      else 0

theorem deficit_le (left right : UInt256) : deficit left right ≤ 2 ^ 128 + 2 ^ 192 := by
  have h1 := lost_le_one left.data[1] right.data[1] (carryInto left right 1)
  have h2 := lost_le_one left.data[2] right.data[2] (carryInto left right 2)
  rw [deficit, lostAt, lostAt]
  exact (by omega : 2 ^ 128 * lost left.data[1] right.data[1] (carryInto left right 1) +
    2 ^ 192 * lost left.data[2] right.data[2] (carryInto left right 2) ≤ 2 ^ 128 + 2 ^ 192)

theorem lostBelow_le (left right : UInt256) (k : ℕ) :
    lostBelow left right k ≤ k * (2 ^ 128 + 2 ^ 192) := by
  induction k with
  | zero => exact Nat.zero_le _
  | succ k ih =>
      rw [lostBelow, Nat.succ_mul]
      refine Nat.add_le_add ih ?_
      split
      · exact deficit_le _ _
      · exact Nat.zero_le _

/-- The shifted operand that is added for bit `k`. -/
theorem shifted_value (right : UInt256) {k : ℕ} (hk : k < 256) :
    (uint256LeftShift right (UInt32.ofNat k)).value = right.value * 2 ^ k % 2 ^ 256 := by
  have htoNat : (UInt32.ofNat k).toNat = k := Nat.mod_eq_of_lt (by omega)
  rw [leftShift_value right (by omega), htoNat]

/-- The partial products are short of the true ones by what has been lost. -/
theorem productBelow_value (left right : UInt256) {k : ℕ} (hk : k ≤ 256) :
    ((productBelow left right k).value + lostBelow left right k) % 2 ^ 256 =
      left.value % 2 ^ k * right.value % 2 ^ 256 := by
  induction k with
  | zero =>
      have hzero : (uint256CreateFromU64 0).value = 0 := by decide
      rw [productBelow, lostBelow, hzero, pow_zero, Nat.mod_one, Nat.zero_mul]
  | succ k ih =>
      have hprev := ih (by omega)
      have hlow : left.value % 2 ^ (k + 1) =
          left.value % 2 ^ k + 2 ^ k * (left.value.testBit k).toNat := by
        rw [Nat.mod_pow_succ, Nat.toNat_testBit]
      rw [hlow, Nat.add_mul, productBelow, lostBelow]
      cases hbit : left.value.testBit k with
      | false => simpa using hprev
      | true =>
          have hsum := uint256Add_value (productBelow left right k)
            (uint256LeftShift right (UInt32.ofNat k))
          have hshift := shifted_value right (show k < 256 by omega)
          simp only [if_true, Bool.toNat_true, Nat.mul_one]
          rw [Nat.mul_comm (2 ^ k)]
          omega

/-- The partial products are the true ones exactly as long as nothing has been lost. -/
theorem productBelow_value_iff (left right : UInt256) {k : ℕ} (hk : k ≤ 256) :
    (productBelow left right k).value = left.value % 2 ^ k * right.value % 2 ^ 256 ↔
      lostBelow left right k = 0 := by
  have hvalue := productBelow_value left right hk
  have hlt := (productBelow left right k).value_lt
  have hle := lostBelow_le left right k
  have hbound : k * (2 ^ 128 + 2 ^ 192) ≤ 256 * (2 ^ 128 + 2 ^ 192) := Nat.mul_le_mul_right _ hk
  omega

/-- Nothing is lost exactly when no addition of true partial products loses a carry. -/
theorem lostBelow_eq_zero_iff (left right : UInt256) {k : ℕ} (hk : k ≤ 256) :
    lostBelow left right k = 0 ↔ ∀ m < k, left.value.testBit m = true →
      ¬CarryLost (left.value % 2 ^ m * right.value % 2 ^ 256)
        (right.value * 2 ^ m % 2 ^ 256) := by
  induction k with
  | zero => simp [lostBelow]
  | succ k ih =>
      have hprev := ih (by omega)
      rw [lostBelow, Nat.add_eq_zero_iff, hprev, Nat.forall_lt_succ_right, and_congr_right_iff]
      intro hnone
      have hproduct := (productBelow_value_iff left right (show k ≤ 256 by omega)).mpr
        (hprev.mpr hnone)
      rw [← hproduct, ← shifted_value right (show k < 256 by omega), ← deficit_eq_zero_iff]
      cases left.value.testBit k <;> simp

/-- `uint256_mul` denotes the product modulo `2 ^ 256` exactly when, for every bit `m` that
is set in the left operand, the partial product of the bits below `m` and the right operand
shifted by `m` do not meet the place where `uint256_add` loses a carry. -/
theorem uint256Mul_denotes_iff (left right : UInt256) :
    (uint256Mul left right).value = left.value * right.value % 2 ^ 256 ↔
      ∀ m < 256, left.value.testBit m = true →
        ¬CarryLost (left.value % 2 ^ m * right.value % 2 ^ 256)
          (right.value * 2 ^ m % 2 ^ 256) := by
  have hproduct := productBelow_value_iff left right (le_refl 256)
  rw [Nat.mod_eq_of_lt left.value_lt] at hproduct
  rw [mul_eq_productBelow, hproduct, lostBelow_eq_zero_iff left right (le_refl 256)]

/-- Three times `2 ^ 128 - 1` is not found. -/
theorem uint256Mul_three : ¬∀ left right : UInt256,
    (uint256Mul left right).value = left.value * right.value % 2 ^ 256 := by
  intro hall
  exact absurd (hall (uint256CreateFromU64 3) ones128) (by decide +kernel)

end Csf.Uint256
