import Csf.Uint256.Mul
import Csf.Uint256.Sub

/-!
# 256-bit integers: where the operations can be relied on

Addition, and with it subtraction and multiplication, loses a carry for some operands. Below
`2 ^ 129 - 2 ^ 64` none is lost (`exact_below`), and no greater bound would do for addition
and subtraction. And some laws hold of all values (`laws`), because the additions that they
come down to never meet two limbs of ones.
-/

namespace Csf.Uint256

/-- `uint256_create_from_u64(0)` -/
def zero : UInt256 := uint256CreateFromU64 0

/-- `uint256_leftShift(uint256_create_from_u64(1), k)` -/
def powerOfTwo (k : ℕ) : UInt256 := uint256LeftShift (uint256CreateFromU64 1) (UInt32.ofNat k)

variable {a b : ℕ} {left right v : UInt256}

/-! ## Small numbers -/

/-- A carry is lost by large numbers only. -/
theorem CarryLost.le (h : CarryLost a b) : 2 ^ 129 - 2 ^ 64 ≤ a + b := by
  rw [carryLost_iff] at h
  simp only [limb] at h
  omega

theorem BorrowLost.lt (h : BorrowLost a b) : 2 ^ 128 - 2 ^ 64 < a := by
  obtain ⟨i, hi, hlimb, -, hpos, hle⟩ := h
  simp only [List.mem_cons, List.not_mem_nil, or_false] at hi
  rcases hi with rfl | rfl
  all_goals
    simp only [limb] at hlimb
    omega

theorem uint256Add_exact (h : left.value + right.value < 2 ^ 129 - 2 ^ 64) :
    (uint256Add left right).value = left.value + right.value := by
  have hnot : ¬CarryLost left.value right.value := fun hlost => absurd hlost.le (by omega)
  rw [(uint256Add_value_iff left right).mpr ((deficit_eq_zero_iff left right).mpr hnot)]
  exact Nat.mod_eq_of_lt (by omega)

theorem uint256Sub_value (h : ¬BorrowLost left.value right.value) :
    (uint256Sub left right).value = (left.value + (2 ^ 256 - right.value)) % 2 ^ 256 := by
  have hlt := right.value_lt
  rw [borrowLost_iff hlt, ← negate_value, ← deficit_eq_zero_iff, ← uint256Add_value_iff,
    negate_value] at h
  rw [uint256Sub, h]
  omega

theorem uint256Sub_exact (h : left.value ≤ 2 ^ 128 - 2 ^ 64) (hle : right.value ≤ left.value) :
    (uint256Sub left right).value = left.value - right.value := by
  have hnot : ¬BorrowLost left.value right.value := fun hlost => absurd hlost.lt (by omega)
  rw [uint256Sub_value hnot]
  omega

/-- The product, where no sum on the way to it loses a carry. -/
theorem uint256Mul_value (h : ∀ m < 256, left.value.testBit m = true →
      ¬CarryLost (left.value % 2 ^ m * right.value % 2 ^ 256) (right.value * 2 ^ m % 2 ^ 256)) :
    (uint256Mul left right).value = left.value * right.value % 2 ^ 256 := by
  have hproduct := productBelow_value_iff left right (le_refl 256)
  rw [Nat.mod_eq_of_lt left.value_lt] at hproduct
  rw [mul_eq_productBelow]
  exact hproduct.mpr ((lostBelow_eq_zero_iff left right (le_refl 256)).mpr h)

/-- The partial products stay below the product. -/
theorem uint256Mul_exact (h : left.value * right.value < 2 ^ 129 - 2 ^ 64) :
    (uint256Mul left right).value = left.value * right.value := by
  rw [uint256Mul_value fun m hm hbit hlost => ?_]
  · exact Nat.mod_eq_of_lt (by omega)
  · have hpart : left.value % 2 ^ m + 2 ^ m ≤ left.value := by
      have hmod : left.value % 2 ^ (m + 1) = left.value % 2 ^ m + 2 ^ m := by
        rw [Nat.mod_pow_succ, ← Nat.toNat_testBit, hbit, Bool.toNat_true, Nat.mul_one]
      exact hmod ▸ Nat.mod_le _ _
    have hsum := hlost.le
    have hmods := Nat.add_le_add (Nat.mod_le (left.value % 2 ^ m * right.value) (2 ^ 256))
      (Nat.mod_le (right.value * 2 ^ m) (2 ^ 256))
    have hall : left.value % 2 ^ m * right.value + right.value * 2 ^ m ≤
        left.value * right.value := by
      rw [Nat.mul_comm right.value, ← Nat.add_mul]
      exact Nat.mul_le_mul_right _ hpart
    omega

/-- **Small numbers.** Below `2 ^ 129 - 2 ^ 64` sums and products are exact, and so are the
differences of numbers up to `2 ^ 128 - 2 ^ 64`; the next sum and the next difference are not
all found. -/
theorem exact_below :
    (∀ left right : UInt256, left.value + right.value < 2 ^ 129 - 2 ^ 64 →
      (uint256Add left right).value = left.value + right.value) ∧
    (∀ left right : UInt256, left.value * right.value < 2 ^ 129 - 2 ^ 64 →
      (uint256Mul left right).value = left.value * right.value) ∧
    (∀ left right : UInt256, left.value ≤ 2 ^ 128 - 2 ^ 64 → right.value ≤ left.value →
      (uint256Sub left right).value = left.value - right.value) ∧
    (∃ left right : UInt256, left.value + right.value = 2 ^ 129 - 2 ^ 64 ∧
      (uint256Add left right).value ≠ left.value + right.value) ∧
    ∃ left right : UInt256, left.value = 2 ^ 128 - 2 ^ 64 + 1 ∧ right.value ≤ left.value ∧
      (uint256Sub left right).value ≠ left.value - right.value := by
  refine ⟨fun _ _ => uint256Add_exact, fun _ _ => uint256Mul_exact,
    fun _ _ => uint256Sub_exact, ?_, ?_⟩
  · exact ⟨ones128, { data := #v[1, 0xFFFFFFFFFFFFFFFF, 0, 0] }, by decide +kernel⟩
  · exact ⟨{ data := #v[1, 0xFFFFFFFFFFFFFFFF, 0, 0] }, uint256CreateFromU64 1, by decide +kernel⟩

/-- The square of the greatest number of 64 bits. -/
theorem exact_below_square :
    (uint256Mul (uint256CreateFromU64 0xFFFFFFFFFFFFFFFF)
      (uint256CreateFromU64 0xFFFFFFFFFFFFFFFF)).value = (2 ^ 64 - 1) * (2 ^ 64 - 1) := by
  have hvalue : (uint256CreateFromU64 0xFFFFFFFFFFFFFFFF).value = 2 ^ 64 - 1 := by decide
  rw [exact_below.2.1 _ _ (by rw [hvalue]; omega), hvalue]

/-! ## All numbers -/

theorem eq_of_bits (h : ∀ i, uint256GetBits left i = uint256GetBits right i) : left = right := by
  have hdata : left.data = right.data := Vector.ext fun i hi => h ⟨i, hi⟩
  cases left
  cases right
  exact congrArg UInt256.mk hdata

/-- The two operands are treated alike, at the place where a carry is lost too. -/
theorem uint256Add_comm (left right : UInt256) : uint256Add left right = uint256Add right left := by
  have hcarry : ∀ i, carryInto left right i = carryInto right left i := by
    intro i
    induction i with
    | zero => rfl
    | succ i ih =>
        rw [carryInto, carryInto, ih]
        simp only [carryOut, UInt64.add_comm (uint256GetBits left _), or_comm]
  refine eq_of_bits fun i => ?_
  rw [uint256Add_data, uint256Add_data, hcarry, UInt64.add_comm (uint256GetBits left i)]

theorem zero_value : zero.value = 0 := by decide

theorem uint256Add_value_of_not (h : ¬CarryLost left.value right.value) :
    (uint256Add left right).value = (left.value + right.value) % 2 ^ 256 :=
  (uint256Add_value_iff left right).mpr ((deficit_eq_zero_iff left right).mpr h)

theorem uint256Add_zero (v : UInt256) : uint256Add v zero = v := by
  have hnot : ¬CarryLost v.value zero.value := by
    rw [zero_value, carryLost_iff]
    simp [limb]
  apply UInt256.value_injective
  rw [uint256Add_value_of_not hnot, zero_value]
  exact Nat.mod_eq_of_lt v.value_lt

theorem uint256Sub_self (v : UInt256) : uint256Sub v v = zero := by
  have hlt := v.value_lt
  have hnot : ¬BorrowLost v.value v.value := by
    rintro ⟨i, -, hones, hnone, -⟩
    exact absurd (hones.symm.trans hnone) (by decide)
  apply UInt256.value_injective
  rw [uint256Sub_value hnot, zero_value]
  omega

theorem uint256Sub_zero (v : UInt256) : uint256Sub v zero = v := by
  have hlt := v.value_lt
  have hnot : ¬BorrowLost v.value zero.value := by
    rintro ⟨i, -, -, -, hpos, -⟩
    rw [zero_value, Nat.zero_mod] at hpos
    exact Nat.lt_irrefl 0 hpos
  apply UInt256.value_injective
  rw [uint256Sub_value hnot, zero_value]
  omega

/-! ## Powers of two -/

theorem powerOfTwo_value {k : ℕ} (hk : k < 256) : (powerOfTwo k).value = 2 ^ k := by
  have hone : (uint256CreateFromU64 1).value = 1 := by decide
  rw [powerOfTwo, shifted_value _ hk, hone, Nat.one_mul]
  exact Nat.mod_eq_of_lt (Nat.pow_lt_pow_right (by omega) hk)

/-- A power of two has no limb of ones: two bits of it would be set. -/
theorem limb_pow_ne (p i : ℕ) : limb (2 ^ p) i ≠ 2 ^ 64 - 1 := by
  intro hlimb
  have hbit : ∀ j < 64, p = j + 64 * i := by
    intro j hj
    have hset : (limb (2 ^ p) i).testBit j = true := by
      rw [hlimb, Nat.testBit_two_pow_sub_one]
      exact decide_eq_true hj
    rw [limb, Nat.testBit_mod_two_pow, Nat.testBit_div_two_pow, Nat.testBit_two_pow] at hset
    simpa [hj] using hset
  have h0 := hbit 0 (by omega)
  have h1 := hbit 1 (by omega)
  omega

theorem not_carryLost_pow (a p : ℕ) : ¬CarryLost a (2 ^ p % 2 ^ 256) := by
  rintro ⟨i, -, -, hones, -⟩
  rcases Nat.lt_or_ge p 256 with hp | hp
  · rw [Nat.mod_eq_of_lt (Nat.pow_lt_pow_right (by omega) hp)] at hones
    exact limb_pow_ne p i hones
  · rw [Nat.mod_eq_zero_of_dvd (Nat.pow_dvd_pow 2 hp)] at hones
    simp [limb] at hones

theorem not_carryLost_zero (b : ℕ) : ¬CarryLost 0 b := by
  rintro ⟨i, -, hones, -⟩
  simp [limb] at hones

/-- A shift by way of the product: one sum, onto zero. -/
theorem powerOfTwo_mul (v : UInt256) {k : ℕ} (hk : k < 256) :
    uint256Mul (powerOfTwo k) v = uint256LeftShift v (UInt32.ofNat k) := by
  apply UInt256.value_injective
  rw [shifted_value v hk, uint256Mul_value fun m _ hbit => ?_, powerOfTwo_value hk, Nat.mul_comm]
  rw [powerOfTwo_value hk, Nat.testBit_two_pow] at hbit
  obtain rfl := of_decide_eq_true hbit
  rw [powerOfTwo_value hk, Nat.mod_self, Nat.zero_mul, Nat.zero_mod]
  exact not_carryLost_zero _

/-- And the other way round: a power of two is added for every bit. -/
theorem mul_powerOfTwo (v : UInt256) {k : ℕ} (hk : k < 256) :
    uint256Mul v (powerOfTwo k) = uint256LeftShift v (UInt32.ofNat k) := by
  apply UInt256.value_injective
  rw [shifted_value v hk, uint256Mul_value fun m _ _ => ?_, powerOfTwo_value hk]
  rw [powerOfTwo_value hk, ← pow_add]
  exact not_carryLost_pow _ _

theorem leftShift_leftShift (v : UInt256) {j k : ℕ} (h : j + k < 2 ^ 31) :
    uint256LeftShift (uint256LeftShift v (UInt32.ofNat j)) (UInt32.ofNat k) =
      uint256LeftShift v (UInt32.ofNat (j + k)) := by
  have htoNat : ∀ n < 2 ^ 31, (UInt32.ofNat n).toNat = n :=
    fun n hn => Nat.mod_eq_of_lt (by omega)
  have hvalue : ∀ (u : UInt256), ∀ n < 2 ^ 31,
      (uint256LeftShift u (UInt32.ofNat n)).value = u.value * 2 ^ n % 2 ^ 256 := by
    intro u n hn
    rw [leftShift_value u (by rw [htoNat n hn]; exact hn), htoNat n hn]
  apply UInt256.value_injective
  rw [hvalue _ k (by omega), hvalue v j (by omega), hvalue v (j + k) h, Nat.mod_mul_mod,
    Nat.mul_assoc, ← pow_add]

/-- **Laws.** What holds of all values, a carry being lost or not: addition is commutative,
zero is neutral for it and for subtraction, a value less itself is zero, a product with a power
of two on either side is a shift, and shifts add up. -/
theorem laws (v w : UInt256) :
    uint256Add v w = uint256Add w v ∧ uint256Add v zero = v ∧ uint256Sub v zero = v ∧
    uint256Sub v v = zero ∧ uint256Add v (uint256Negate v) = zero ∧
    (∀ k < 256, uint256Mul (powerOfTwo k) v = uint256LeftShift v (UInt32.ofNat k) ∧
      uint256Mul v (powerOfTwo k) = uint256LeftShift v (UInt32.ofNat k)) ∧
    ∀ j k, j + k < 2 ^ 31 →
      uint256LeftShift (uint256LeftShift v (UInt32.ofNat j)) (UInt32.ofNat k) =
        uint256LeftShift v (UInt32.ofNat (j + k)) :=
  ⟨uint256Add_comm v w, uint256Add_zero v, uint256Sub_zero v, uint256Sub_self v, uint256Sub_self v,
    fun _ hk => ⟨powerOfTwo_mul v hk, mul_powerOfTwo v hk⟩, fun _ _ => leftShift_leftShift v⟩

/-- Three times `2 ^ 7`, from both sides. -/
theorem laws_three : uint256Mul (powerOfTwo 7) (uint256CreateFromU64 3) =
    uint256Mul (uint256CreateFromU64 3) (powerOfTwo 7) := by
  obtain ⟨-, -, -, -, -, hpower, -⟩ := laws (uint256CreateFromU64 3) zero
  exact (hpower 7 (by omega)).1.trans (hpower 7 (by omega)).2.symm

end Csf.Uint256
