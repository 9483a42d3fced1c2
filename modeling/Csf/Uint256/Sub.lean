import Csf.Uint256.Add

/-!
# 256-bit integers: negation and subtraction

Negation never meets the place where `uint256_add` loses a carry, for the 1 that
it adds has no limb of ones. Subtraction does: where a limb of the left operand is
all ones, that of the right one is zero, and the limbs below do not borrow.
-/

namespace Csf.Uint256

/-- The value with all bits inverted. -/
theorem complement_value (v : UInt256) :
    UInt256.value { data := v.data.map (~~~·) } = 2 ^ 256 - 1 - v.value := by
  have hnot : ∀ x : UInt64, (~~~x).toNat = 2 ^ 64 - 1 - x.toNat := by
    intro x
    simp
  have h0 := v.data[0].toNat_lt
  have h1 := v.data[1].toNat_lt
  have h2 := v.data[2].toNat_lt
  have h3 := v.data[3].toNat_lt
  rw [UInt256.value_eq, v.value_eq]
  simp only [Vector.getElem_map, hnot]
  omega

/-- `uint256_negate` denotes the negation modulo `2 ^ 256`. -/
theorem negate_value (v : UInt256) :
    (uint256Negate v).value = (2 ^ 256 - v.value) % 2 ^ 256 := by
  have hone : UInt256.value { data := #v[1, 0, 0, 0] } = 1 := by decide
  have hlt := v.value_lt
  have hnot : ¬CarryLost (UInt256.value { data := v.data.map (~~~·) })
      (UInt256.value { data := #v[1, 0, 0, 0] }) := by
    rw [hone, carryLost_iff]
    simp [limb]
  have hsum := (uint256Add_value_iff _ _).mpr ((deficit_eq_zero_iff _ _).mpr hnot)
  rw [uint256Negate, hsum, hone, complement_value]
  omega

/-- **Negation.** `uint256_negate` denotes the negation modulo `2 ^ 256` of every value, so
it is its own inverse and maps zero to zero. -/
theorem uint256Negate_denotes (v : UInt256) :
    (uint256Negate v).value = (2 ^ 256 - v.value) % 2 ^ 256 ∧
      uint256Negate (uint256Negate v) = v ∧
      uint256Negate (uint256CreateFromU64 0) = uint256CreateFromU64 0 := by
  have hzero : (uint256CreateFromU64 0).value = 0 := by decide
  have hlt := v.value_lt
  refine ⟨negate_value v, ?_, ?_⟩
  · apply UInt256.value_injective
    rw [negate_value, negate_value]
    omega
  · apply UInt256.value_injective
    rw [negate_value, hzero, Nat.sub_zero, Nat.mod_self]

/-- The subtraction of two numbers meets the place where a carry is lost. -/
def BorrowLost (a b : ℕ) : Prop :=
  ∃ i ∈ [1, 2], limb a i = 2 ^ 64 - 1 ∧ limb b i = 0 ∧
    0 < b % 2 ^ (64 * i) ∧ b % 2 ^ (64 * i) ≤ a % 2 ^ (64 * i)

instance (a b : ℕ) : Decidable (BorrowLost a b) := by
  unfold BorrowLost
  infer_instance

theorem borrowLost_iff {a b : ℕ} (hb : b < 2 ^ 256) :
    BorrowLost a b ↔ CarryLost a ((2 ^ 256 - b) % 2 ^ 256) := by
  rw [carryLost_iff]
  have hunfold : BorrowLost a b ↔
      (limb a 1 = 2 ^ 64 - 1 ∧ limb b 1 = 0 ∧ 0 < b % 2 ^ 64 ∧ b % 2 ^ 64 ≤ a % 2 ^ 64) ∨
      (limb a 2 = 2 ^ 64 - 1 ∧ limb b 2 = 0 ∧ 0 < b % 2 ^ 128 ∧ b % 2 ^ 128 ≤ a % 2 ^ 128) := by
    simp [BorrowLost]
  rw [hunfold]
  -- a limb of the negation is all ones with a carry above it where nothing below is zero
  have hfirst : limb b 1 = 0 ∧ 0 < b % 2 ^ 64 ∧ b % 2 ^ 64 ≤ a % 2 ^ 64 ↔
      limb ((2 ^ 256 - b) % 2 ^ 256) 1 = 2 ^ 64 - 1 ∧
        2 ^ 64 ≤ a % 2 ^ 64 + (2 ^ 256 - b) % 2 ^ 256 % 2 ^ 64 := by
    simp only [limb]
    omega
  have hsecond : limb b 2 = 0 ∧ 0 < b % 2 ^ 128 ∧ b % 2 ^ 128 ≤ a % 2 ^ 128 ↔
      limb ((2 ^ 256 - b) % 2 ^ 256) 2 = 2 ^ 64 - 1 ∧
        2 ^ 128 ≤ a % 2 ^ 128 + (2 ^ 256 - b) % 2 ^ 256 % 2 ^ 128 := by
    simp only [limb]
    omega
  rw [hfirst, hsecond]

/-- `uint256_sub` denotes the difference modulo `2 ^ 256` exactly for the operands that do
not make limb 1 or limb 2 a limb of ones less zero, over limbs that do not borrow. -/
theorem uint256Sub_denotes_iff (left right : UInt256) :
    ((uint256Sub left right).value : ℤ) = ((left.value : ℤ) - right.value) % 2 ^ 256 ↔
      ¬BorrowLost left.value right.value := by
  have hlt := right.value_lt
  rw [borrowLost_iff hlt, ← negate_value, ← deficit_eq_zero_iff, ← uint256Add_value_iff,
    negate_value, uint256Sub]
  omega

/-- `2 ^ 128 - 1` less 1 borrows nothing, and is not found. -/
theorem uint256Sub_ones128 : ¬∀ left right : UInt256,
    ((uint256Sub left right).value : ℤ) = ((left.value : ℤ) - right.value) % 2 ^ 256 := by
  intro hall
  exact absurd (hall ones128 (uint256CreateFromU64 1)) (by decide +kernel)

end Csf.Uint256
