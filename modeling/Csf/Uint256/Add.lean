import Csf.Uint256.Funcs

/-!
# 256-bit integers: addition

The carry that `uint256_add` computes is right but at one place: two limbs of
ones and a carry into them. There the wrapped sum is all ones again, not below
either limb, and the carry is lost. `uint256Add_value` accounts for what is lost;
the sum is right exactly when nothing is.
-/

namespace Csf.Uint256

/-! ## Values -/

theorem UInt256.value_eq (v : UInt256) : v.value = v.data[0].toNat + 2 ^ 64 * v.data[1].toNat +
    2 ^ 128 * v.data[2].toNat + 2 ^ 192 * v.data[3].toNat := by
  obtain ⟨⟨⟨l⟩, hl⟩⟩ := v
  match l, hl with
  | [a, b, c, d], _ =>
      show Nat.ofDigits (2 ^ 64) [a.toNat, b.toNat, c.toNat, d.toNat] = a.toNat +
        2 ^ 64 * b.toNat + 2 ^ 128 * c.toNat + 2 ^ 192 * d.toNat
      simp only [Nat.ofDigits_cons, Nat.ofDigits_nil]
      ring

theorem UInt256.value_lt (v : UInt256) : v.value < 2 ^ 256 := by
  rw [v.value_eq]
  have h0 := v.data[0].toNat_lt
  have h1 := v.data[1].toNat_lt
  have h2 := v.data[2].toNat_lt
  have h3 := v.data[3].toNat_lt
  omega

/-- Limb `i` of a number. -/
def limb (a i : ℕ) : ℕ := a / 2 ^ (64 * i) % 2 ^ 64

theorem UInt256.limb_value (v : UInt256) (i : Fin 4) :
    limb v.value i = (uint256GetBits v i).toNat := by
  have h0 := v.data[0].toNat_lt
  have h1 := v.data[1].toNat_lt
  have h2 := v.data[2].toNat_lt
  have h3 := v.data[3].toNat_lt
  rw [limb, v.value_eq]
  fin_cases i <;> simp [uint256GetBits] <;> omega

theorem UInt256.value_injective {v w : UInt256} (h : v.value = w.value) : v = w := by
  obtain ⟨data⟩ := v
  obtain ⟨data'⟩ := w
  congr 1
  refine Vector.ext fun i hi => ?_
  have hlimb := congrArg (limb · i) h
  have hv := UInt256.limb_value ⟨data⟩ ⟨i, hi⟩
  have hw := UInt256.limb_value ⟨data'⟩ ⟨i, hi⟩
  rw [← UInt64.toNat_inj]
  exact (hv.symm.trans hlimb).trans hw

/-! ## One limb -/

/-- Two limbs and a carry that `carryOut` gets wrong. -/
def Lost (one two carry : UInt64) : Prop :=
  one.toNat = 2 ^ 64 - 1 ∧ two.toNat = 2 ^ 64 - 1 ∧ carry = 1

instance (one two carry : UInt64) : Decidable (Lost one two carry) := by
  unfold Lost
  infer_instance

/-- What is lost at a limb, in units of the next one. -/
def lost (one two carry : UInt64) : ℕ := if Lost one two carry then 1 else 0

theorem toNat_carryOut (one two carry : UInt64) :
    (carryOut one two carry).toNat = if (one + two + carry).toNat < one.toNat ∨
      (one + two + carry).toNat < two.toNat then 1 else 0 := by
  simp only [carryOut, UInt64.lt_iff_toNat_lt]
  split_ifs <;> rfl

theorem carryOut_le_one (one two carry : UInt64) : (carryOut one two carry).toNat ≤ 1 := by
  rw [toNat_carryOut]
  split_ifs <;> omega

/-- The sum of two limbs and a carry is the wrapped sum, the carry out and what is lost. -/
theorem limb_sum {one two carry : UInt64} (hcarry : carry.toNat ≤ 1) :
    one.toNat + two.toNat + carry.toNat = (one + two + carry).toNat +
      2 ^ 64 * ((carryOut one two carry).toNat + lost one two carry) := by
  have hone := one.toNat_lt
  have htwo := two.toNat_lt
  have hsum : (one + two + carry).toNat =
      (one.toNat + two.toNat + carry.toNat) % 2 ^ 64 := by
    simp [UInt64.toNat_add]
  have hlost : lost one two carry =
      if one.toNat = 2 ^ 64 - 1 ∧ two.toNat = 2 ^ 64 - 1 ∧ carry.toNat = 1 then 1 else 0 := by
    have hcarry' : carry = 1 ↔ carry.toNat = 1 := by
      rw [← UInt64.toNat_inj]
      rfl
    simp only [lost, Lost, hcarry']
  rw [toNat_carryOut, hlost, hsum]
  split_ifs <;> omega

/-- The carry out is the true carry, but where it is lost. -/
theorem carryOut_eq_iff {one two carry : UInt64} (hcarry : carry.toNat ≤ 1) :
    (carryOut one two carry).toNat = (one.toNat + two.toNat + carry.toNat) / 2 ^ 64 ↔
      ¬Lost one two carry := by
  have hsum := @limb_sum one two carry hcarry
  have hlt := (one + two + carry).toNat_lt
  by_cases hlost : Lost one two carry
  · rw [lost, if_pos hlost] at hsum
    simp only [hlost, not_true_eq_false, iff_false]
    omega
  · rw [lost, if_neg hlost] at hsum
    simp only [hlost, not_false_eq_true, iff_true]
    omega

/-! ## The loop -/

/-- The carry that the loop of `uint256_add` passes into limb `i`. -/
def carryInto (left right : UInt256) : ℕ → UInt64
  | 0 => 0
  | i + 1 =>
      if h : i < 4 then
        carryOut (uint256GetBits left ⟨i, h⟩) (uint256GetBits right ⟨i, h⟩) (carryInto left right i)
      else 0

theorem carryInto_le_one (left right : UInt256) (i : ℕ) :
    (carryInto left right i).toNat ≤ 1 := by
  cases i with
  | zero => exact Nat.zero_le 1
  | succ i =>
      rw [carryInto]
      split
      · exact carryOut_le_one _ _ _
      · exact Nat.zero_le 1

/-- What the loop loses between limb `i` and the next. -/
def lostAt (left right : UInt256) (i : Fin 4) : ℕ :=
  lost (uint256GetBits left i) (uint256GetBits right i) (carryInto left right i)

theorem uint256Add_data (left right : UInt256) (i : Fin 4) :
    uint256GetBits (uint256Add left right) i =
      uint256GetBits left i + uint256GetBits right i + carryInto left right i := by
  have hrange : List.finRange 4 = [0, 1, 2, 3] := rfl
  fin_cases i <;>
    simp [uint256Add, hrange, addStep, uint256GetBits, carryInto]

/-- The loop at limb `i`. -/
theorem limb_add (left right : UInt256) (i : Fin 4) : (uint256GetBits left i).toNat +
    (uint256GetBits right i).toNat + (carryInto left right i).toNat =
      (uint256GetBits (uint256Add left right) i).toNat +
        2 ^ 64 * ((carryInto left right (i + 1)).toNat + lostAt left right i) := by
  have hnext : carryInto left right (i + 1) =
      carryOut (uint256GetBits left i) (uint256GetBits right i) (carryInto left right i) := by
    rw [carryInto, dif_pos i.isLt]
  rw [uint256Add_data, hnext]
  exact limb_sum (carryInto_le_one left right i)

/-- Nothing is lost at the first limb, for nothing is carried into it. -/
theorem lostAt_zero (left right : UInt256) : lostAt left right 0 = 0 := by
  rw [lostAt, lost, if_neg]
  intro hlost
  exact absurd hlost.2.2 (by simp [carryInto])

/-- Everything that the loop loses, but at the last limb. -/
def deficit (left right : UInt256) : ℕ :=
  2 ^ 128 * lostAt left right 1 + 2 ^ 192 * lostAt left right 2

theorem lost_le_one (one two carry : UInt64) : lost one two carry ≤ 1 := by
  rw [lost]
  split_ifs <;> omega

/-- The sum falls short of the true sum by what is lost. -/
theorem uint256Add_value (left right : UInt256) :
    ((uint256Add left right).value + deficit left right) % 2 ^ 256 =
      (left.value + right.value) % 2 ^ 256 := by
  have hlimb := limb_add left right
  have hfirst := lostAt_zero left right
  have hzero : (carryInto left right 0).toNat = 0 := rfl
  have h0 : left.data[0].toNat + right.data[0].toNat + (carryInto left right 0).toNat =
      (uint256Add left right).data[0].toNat +
        2 ^ 64 * ((carryInto left right 1).toNat + lostAt left right 0) := hlimb 0
  have h1 : left.data[1].toNat + right.data[1].toNat + (carryInto left right 1).toNat =
      (uint256Add left right).data[1].toNat +
        2 ^ 64 * ((carryInto left right 2).toNat + lostAt left right 1) := hlimb 1
  have h2 : left.data[2].toNat + right.data[2].toNat + (carryInto left right 2).toNat =
      (uint256Add left right).data[2].toNat +
        2 ^ 64 * ((carryInto left right 3).toNat + lostAt left right 2) := hlimb 2
  have h3 : left.data[3].toNat + right.data[3].toNat + (carryInto left right 3).toNat =
      (uint256Add left right).data[3].toNat +
        2 ^ 64 * ((carryInto left right 4).toNat + lostAt left right 3) := hlimb 3
  -- the carries between the limbs cancel, and that out of the last one is dropped
  have hsum : left.value + right.value = (uint256Add left right).value + deficit left right +
      2 ^ 256 * ((carryInto left right 4).toNat + lostAt left right 3) := by
    rw [left.value_eq, right.value_eq, UInt256.value_eq, deficit]
    omega
  rw [hsum, Nat.add_mul_mod_self_left]

/-- The sum is right exactly when nothing is lost. -/
theorem uint256Add_value_iff (left right : UInt256) :
    (uint256Add left right).value = (left.value + right.value) % 2 ^ 256 ↔
      deficit left right = 0 := by
  have hsum := uint256Add_value left right
  have hlt := (uint256Add left right).value_lt
  have h1 := lost_le_one left.data[1] right.data[1] (carryInto left right 1)
  have h2 := lost_le_one left.data[2] right.data[2] (carryInto left right 2)
  have hbound : deficit left right < 2 ^ 256 := by
    rw [deficit, lostAt, lostAt]
    exact (by omega : 2 ^ 128 * lost left.data[1] right.data[1] (carryInto left right 1) +
      2 ^ 192 * lost left.data[2] right.data[2] (carryInto left right 2) < 2 ^ 256)
  omega

/-- The addition of two numbers meets the place where a carry is lost: limb 1 or limb 2 is
all ones in both, and the limbs below it carry. -/
def CarryLost (a b : ℕ) : Prop :=
  ∃ i ∈ [1, 2], limb a i = 2 ^ 64 - 1 ∧ limb b i = 2 ^ 64 - 1 ∧
    2 ^ (64 * i) ≤ a % 2 ^ (64 * i) + b % 2 ^ (64 * i)

instance (a b : ℕ) : Decidable (CarryLost a b) := by
  unfold CarryLost
  infer_instance

theorem carryLost_iff (a b : ℕ) : CarryLost a b ↔
    (limb a 1 = 2 ^ 64 - 1 ∧ limb b 1 = 2 ^ 64 - 1 ∧ 2 ^ 64 ≤ a % 2 ^ 64 + b % 2 ^ 64) ∨
    (limb a 2 = 2 ^ 64 - 1 ∧ limb b 2 = 2 ^ 64 - 1 ∧ 2 ^ 128 ≤ a % 2 ^ 128 + b % 2 ^ 128) := by
  simp [CarryLost]

theorem lostAt_eq_zero_iff {left right : UInt256} {i : Fin 4} : lostAt left right i = 0 ↔
    ¬(limb left.value i = 2 ^ 64 - 1 ∧ limb right.value i = 2 ^ 64 - 1 ∧
      (carryInto left right i).toNat = 1) := by
  have hone : carryInto left right i = 1 ↔ (carryInto left right i).toNat = 1 := by
    rw [← UInt64.toNat_inj]
    rfl
  have hiff : lostAt left right i = 0 ↔
      ¬Lost (uint256GetBits left i) (uint256GetBits right i) (carryInto left right i) := by
    rw [lostAt, lost]
    split
    · next hlost => exact iff_of_false one_ne_zero (not_not_intro hlost)
    · next hlost => exact iff_of_true rfl hlost
  rw [hiff, left.limb_value, right.limb_value, ← hone]
  rfl

/-- Nothing is lost exactly when the numbers do not meet that place. -/
theorem deficit_eq_zero_iff (left right : UInt256) :
    deficit left right = 0 ↔ ¬CarryLost left.value right.value := by
  have h0 : left.data[0].toNat + right.data[0].toNat + (carryInto left right 0).toNat =
      (uint256Add left right).data[0].toNat +
        2 ^ 64 * ((carryInto left right 1).toNat + lostAt left right 0) := limb_add left right 0
  have h1 : left.data[1].toNat + right.data[1].toNat + (carryInto left right 1).toNat =
      (uint256Add left right).data[1].toNat +
        2 ^ 64 * ((carryInto left right 2).toNat + lostAt left right 1) := limb_add left right 1
  have hzero : (carryInto left right 0).toNat = 0 := rfl
  have hfirst := lostAt_zero left right
  have hlow : ∀ v : UInt256, v.value % 2 ^ 64 = v.data[0].toNat ∧
      v.value % 2 ^ 128 = v.data[0].toNat + 2 ^ 64 * v.data[1].toNat ∧
      v.data[0].toNat < 2 ^ 64 ∧ v.data[1].toNat < 2 ^ 64 := by
    intro v
    have hlt0 := v.data[0].toNat_lt
    have hlt1 := v.data[1].toNat_lt
    rw [v.value_eq]
    omega
  obtain ⟨hl64, hl128, hl0, hl1⟩ := hlow left
  obtain ⟨hr64, hr128, hr0, hr1⟩ := hlow right
  have hs0 := (uint256Add left right).data[0].toNat_lt
  have hs1 := (uint256Add left right).data[1].toNat_lt
  have hc1 := carryInto_le_one left right 1
  have hc2 := carryInto_le_one left right 2
  -- the carry into limb 1 is the true one, and that into limb 2 too if nothing is lost before
  have hinto1 : (carryInto left right 1).toNat = 1 ↔
      2 ^ 64 ≤ left.value % 2 ^ 64 + right.value % 2 ^ 64 := by
    omega
  have hinto2 : lostAt left right 1 = 0 → ((carryInto left right 2).toNat = 1 ↔
      2 ^ 128 ≤ left.value % 2 ^ 128 + right.value % 2 ^ 128) := by
    intro hlost
    omega
  have hlost1 : lostAt left right 1 = 0 ↔ ¬(limb left.value 1 = 2 ^ 64 - 1 ∧
      limb right.value 1 = 2 ^ 64 - 1 ∧ (carryInto left right 1).toNat = 1) :=
    lostAt_eq_zero_iff
  have hlost2 : lostAt left right 2 = 0 ↔ ¬(limb left.value 2 = 2 ^ 64 - 1 ∧
      limb right.value 2 = 2 ^ 64 - 1 ∧ (carryInto left right 2).toNat = 1) :=
    lostAt_eq_zero_iff
  rw [hinto1] at hlost1
  have hparts : deficit left right = 0 ↔ lostAt left right 1 = 0 ∧ lostAt left right 2 = 0 := by
    rw [deficit]
    omega
  rw [hparts, carryLost_iff, not_or, ← hlost1, and_congr_right_iff]
  intro hnone
  rw [hlost2, hinto2 hnone]

/-- The carry out of a limb is the true carry but for two limbs of ones with a carry in;
and `uint256_add` denotes the sum modulo `2 ^ 256` exactly for the operands that do not
bring that about at limb 1 or limb 2. -/
theorem uint256Add_denotes_iff (left right : UInt256) :
    (∀ one two carry : UInt64, carry.toNat ≤ 1 →
      ((carryOut one two carry).toNat = (one.toNat + two.toNat + carry.toNat) / 2 ^ 64 ↔
        ¬(one.toNat = 2 ^ 64 - 1 ∧ two.toNat = 2 ^ 64 - 1 ∧ carry = 1))) ∧
    ((uint256Add left right).value = (left.value + right.value) % 2 ^ 256 ↔
      ¬CarryLost left.value right.value) := by
  refine ⟨fun one two carry hcarry => carryOut_eq_iff hcarry, ?_⟩
  rw [uint256Add_value_iff, deficit_eq_zero_iff]

/-- `2 ^ 128 - 1` -/
def ones128 : UInt256 := { data := #v[0xFFFFFFFFFFFFFFFF, 0xFFFFFFFFFFFFFFFF, 0, 0] }

/-- Adding `2 ^ 128 - 1` to itself loses the carry out of limb 1. -/
theorem uint256Add_ones128 : ¬∀ left right : UInt256,
    (uint256Add left right).value = (left.value + right.value) % 2 ^ 256 := by
  intro hall
  exact absurd (hall ones128 ones128) (by decide +kernel)

theorem uint256Add_denotes_iff_one :
    (carryOut 5 (0xFFFFFFFFFFFFFFFF) 1).toNat = 1 ∧
      (uint256Add ones128 (uint256CreateFromU64 1)).value = 2 ^ 128 := by
  refine ⟨?_, ?_⟩
  · rw [((uint256Add_denotes_iff ones128 ones128).1 5 0xFFFFFFFFFFFFFFFF 1
      (by decide)).mpr (by decide)]
    decide
  · rw [(uint256Add_denotes_iff ones128 (uint256CreateFromU64 1)).2.mpr (by decide +kernel)]
    decide +kernel

end Csf.Uint256
