import Csf.Uint256.Add

/-!
# 256-bit integers: the left shift

`uint256_leftShift` moves the bits in place, from the most significant one down,
so that every bit is read before it is overwritten. `moveBits` is the invariant of
the inner loop; one round of the outer loop doubles the value modulo `2 ^ 256`.
-/

namespace Csf.Uint256

/-! ## Bits of a limb -/

theorem toNat_bit {k : ℕ} (hk : k < 64) : (bit k).toNat = 2 ^ k := by
  have hpow : 2 ^ k < 2 ^ 64 := Nat.pow_lt_pow_right (by omega) hk
  have hk64 : k.toUInt64.toNat = k := Nat.mod_eq_of_lt (by omega)
  rw [bit, UInt64.toNat_shiftLeft, hk64, Nat.mod_eq_of_lt hk]
  simpa [Nat.shiftLeft_eq] using hpow

theorem testBit_bit {k : ℕ} (hk : k < 64) (p : ℕ) :
    (bit k).toNat.testBit p = decide (k = p) := by
  rw [toNat_bit hk, Nat.testBit_two_pow]

/-- A bit that is set is found. -/
theorem and_bit_ne_zero {x : UInt64} {k : ℕ} (hk : k < 64) :
    x &&& bit k ≠ 0 ↔ x.toNat.testBit k = true := by
  rw [ne_eq, ← UInt64.toNat_inj, UInt64.toNat_and, toNat_bit hk]
  show ¬x.toNat &&& 2 ^ k = 0 ↔ _
  rw [Nat.and_two_pow]
  cases x.toNat.testBit k <;> simp

/-- `putBit` changes its bit only. -/
theorem testBit_putBit {x : UInt64} {k p : ℕ} (hk : k < 64) (hp : p < 64) (b : Bool) :
    (putBit x k b).toNat.testBit p = if p = k then b else x.toNat.testBit p := by
  unfold putBit
  split
  · next hb =>
      rw [UInt64.toNat_or, Nat.testBit_or, testBit_bit hk]
      by_cases hpk : p = k
      · simp [hpk, hb]
      · simp [hpk, Ne.symm hpk]
  · next hb =>
      have hnot : (~~~bit k).toNat.testBit p = !decide (k = p) := by
        have hlt := (bit k).toNat_lt
        have hsub : UInt64.size - 1 - (bit k).toNat = 2 ^ 64 - ((bit k).toNat + 1) := by
          simp only [UInt64.size]
          omega
        rw [UInt64.toNat_not, hsub, Nat.testBit_two_pow_sub_succ hlt, testBit_bit hk]
        simp [hp]
      rw [UInt64.toNat_and, Nat.testBit_and, hnot]
      by_cases hpk : p = k
      · simp [hpk, hb]
      · simp [hpk, Ne.symm hpk]

/-- A number of 64 bits that has every bit of another one place further, and `b` in the
first place. -/
theorem double_of_testBit {x y : ℕ} {b : Bool} (hy : y < 2 ^ 64)
    (h : ∀ p < 64, y.testBit p = if p = 0 then b else x.testBit (p - 1)) :
    y = (2 * x + b.toNat) % 2 ^ 64 := by
  refine Nat.eq_of_testBit_eq fun p => ?_
  rw [Nat.testBit_mod_two_pow]
  by_cases hp : p < 64
  · rw [h p hp]
    cases p with
    | zero => cases b <;> simp [hp]
    | succ p =>
        have hhalf : (2 * x + b.toNat) / 2 = x := by
          have hb := b.toNat_le
          omega
        rw [Nat.testBit_succ, hhalf]
        simp [hp]
  · rw [Nat.testBit_lt_two_pow (lt_of_lt_of_le hy (Nat.pow_le_pow_right (by omega)
      (Nat.le_of_not_lt hp)))]
    simp [hp]

/-! ## One round -/

/-- The bit that a round brings into limb `j` from the limb below it. -/
def bitInto (v : UInt256) (j : Fin 4) : Bool :=
  if j = 0 then false else (uint256GetBits v (j - 1)).toNat.testBit 63

theorem pred_ne {j : Fin 4} : j - 1 ≠ j := by
  revert j
  decide

theorem moveBit_data {j i : Fin 4} {v : UInt256} {k : ℕ} (hi : i ≠ j) :
    uint256GetBits (moveBit j v k) i = uint256GetBits v i := by
  have hne : (j : ℕ) ≠ (i : ℕ) := fun h => hi (Fin.ext h.symm)
  show (v.data.set j _)[(i : ℕ)] = v.data[(i : ℕ)]
  rw [Vector.getElem_set_ne _ _ hne]

theorem testBit_moveBit {j : Fin 4} {v : UInt256} {k p : ℕ} (hk : k < 64) (hp : p < 64) :
    (uint256GetBits (moveBit j v k) j).toNat.testBit p = if p = k then
      (if k = 0 then bitInto v j else (uint256GetBits v j).toNat.testBit (k - 1))
    else (uint256GetBits v j).toNat.testBit p := by
  have hself : uint256GetBits (moveBit j v k) j = putBit v.data[j] k
      (if k = 0 then (if j = 0 then false else decide (v.data[j - 1] &&& bit 63 ≠ 0))
        else decide (v.data[j] &&& bit (k - 1) ≠ 0)) := by
    show (v.data.set j _)[(j : ℕ)] = _
    rw [Vector.getElem_set_self]
  rw [hself, testBit_putBit hk hp]
  have hlow : ∀ {x : UInt64} {m : ℕ}, m < 64 →
      decide (x &&& bit m ≠ 0) = x.toNat.testBit m := by
    intro x m hm
    rw [Bool.eq_iff_iff, decide_eq_true_iff, and_bit_ne_zero hm]
  rw [hlow (by omega), hlow (by omega), bitInto]
  rfl

/-- The loop over `k`: with the bits from `n` on moved, it moves the rest. -/
theorem moveBits {j : Fin 4} {v : UInt256} : ∀ {n : ℕ} {r : UInt256}, n ≤ 64 →
    (∀ i ≠ j, uint256GetBits r i = uint256GetBits v i) →
    (∀ p < 64, (uint256GetBits r j).toNat.testBit p = if n ≤ p then
      (if p = 0 then bitInto v j else (uint256GetBits v j).toNat.testBit (p - 1))
      else (uint256GetBits v j).toNat.testBit p) →
    let r' := (List.range n).reverse.foldl (moveBit j) r
    (∀ i ≠ j, uint256GetBits r' i = uint256GetBits v i) ∧
      ∀ p < 64, (uint256GetBits r' j).toNat.testBit p =
        if p = 0 then bitInto v j else (uint256GetBits v j).toNat.testBit (p - 1) := by
  intro n
  induction n with
  | zero =>
      intro r _ hothers hbits
      refine ⟨hothers, fun p hp => ?_⟩
      rw [List.range_zero, List.reverse_nil, List.foldl_nil, hbits p hp, if_pos (Nat.zero_le p)]
  | succ n ih =>
      intro r hn hothers hbits
      rw [List.range_succ, List.reverse_append, List.reverse_singleton, List.singleton_append,
        List.foldl_cons]
      refine ih (by omega) ?_ ?_
      · intro i hi
        rw [moveBit_data hi, hothers i hi]
      · intro p hp
        rw [testBit_moveBit (by omega) hp]
        have hinto : bitInto r j = bitInto v j := by
          rw [bitInto, bitInto, hothers (j - 1) pred_ne]
        by_cases hpn : p = n
        · -- the bit on the right of bit `n` has not been overwritten
          subst hpn
          rw [if_pos rfl, if_pos (le_refl p), hinto]
          split_ifs with hzero
          · rfl
          · rw [hbits (p - 1) (by omega), if_neg (by omega)]
        · rw [if_neg hpn, hbits p hp]
          have hle : n + 1 ≤ p ↔ n ≤ p := by omega
          simp only [hle]

/-- The loop over `k` doubles a limb, and brings in the bit from below. -/
theorem moveLimb_spec (v : UInt256) (j : Fin 4) :
    (uint256GetBits (moveLimb v j) j).toNat =
        (2 * (uint256GetBits v j).toNat + (bitInto v j).toNat) % 2 ^ 64 ∧
      ∀ i ≠ j, uint256GetBits (moveLimb v j) i = uint256GetBits v i := by
  obtain ⟨hothers, hbits⟩ := moveBits (j := j) (v := v) (n := 64) (r := v) (le_refl 64)
    (fun _ _ => rfl) (fun p hp => by rw [if_neg (by omega)])
  exact ⟨double_of_testBit (UInt64.toNat_lt _) hbits, hothers⟩

/-- One round doubles the value. -/
theorem shiftOnce_value (v : UInt256) : (shiftOnce v).value = 2 * v.value % 2 ^ 256 := by
  have hrange : (List.finRange 4).reverse = [3, 2, 1, 0] := rfl
  obtain ⟨h3, k3⟩ := moveLimb_spec v 3
  obtain ⟨h2, k2⟩ := moveLimb_spec (moveLimb v 3) 2
  obtain ⟨h1, k1⟩ := moveLimb_spec (moveLimb (moveLimb v 3) 2) 1
  obtain ⟨h0, k0⟩ := moveLimb_spec (moveLimb (moveLimb (moveLimb v 3) 2) 1) 0
  -- a limb is moved before the one below it
  have hlimb : ∀ {a : UInt256} {j : Fin 4}, j ≠ 0 →
      (bitInto a j).toNat = (uint256GetBits a (j - 1)).toNat / 2 ^ 63 := by
    intro a j hj
    have hlt := (uint256GetBits a (j - 1)).toNat_lt
    rw [bitInto, if_neg hj, Nat.testBit_eq_decide_div_mod_eq]
    by_cases hhigh : (uint256GetBits a (j - 1)).toNat / 2 ^ 63 % 2 = 1
    · simp only [hhigh, decide_true, Bool.toNat_true]
      omega
    · simp only [hhigh, decide_false, Bool.toNat_false]
      omega
  have hw : shiftOnce v = moveLimb (moveLimb (moveLimb (moveLimb v 3) 2) 1) 0 := by
    rw [shiftOnce, hrange]
    simp only [List.foldl_cons, List.foldl_nil]
  have e3 : (uint256GetBits (shiftOnce v) 3).toNat =
      (2 * (uint256GetBits v 3).toNat + (uint256GetBits v 2).toNat / 2 ^ 63) % 2 ^ 64 := by
    have hinto : (bitInto v 3).toNat = (uint256GetBits v 2).toNat / 2 ^ 63 := hlimb (by decide)
    rw [hw, k0 3 (by decide), k1 3 (by decide), k2 3 (by decide), h3, hinto]
  have e2 : (uint256GetBits (shiftOnce v) 2).toNat =
      (2 * (uint256GetBits v 2).toNat + (uint256GetBits v 1).toNat / 2 ^ 63) % 2 ^ 64 := by
    have hinto : (bitInto (moveLimb v 3) 2).toNat =
        (uint256GetBits (moveLimb v 3) 1).toNat / 2 ^ 63 := hlimb (by decide)
    rw [hw, k0 2 (by decide), k1 2 (by decide), h2, hinto, k3 2 (by decide), k3 1 (by decide)]
  have e1 : (uint256GetBits (shiftOnce v) 1).toNat =
      (2 * (uint256GetBits v 1).toNat + (uint256GetBits v 0).toNat / 2 ^ 63) % 2 ^ 64 := by
    have hinto : (bitInto (moveLimb (moveLimb v 3) 2) 1).toNat =
        (uint256GetBits (moveLimb (moveLimb v 3) 2) 0).toNat / 2 ^ 63 := hlimb (by decide)
    rw [hw, k0 1 (by decide), h1, hinto, k2 1 (by decide), k3 1 (by decide), k2 0 (by decide),
      k3 0 (by decide)]
  have e0 : (uint256GetBits (shiftOnce v) 0).toNat =
      2 * (uint256GetBits v 0).toNat % 2 ^ 64 := by
    have hinto : (bitInto (moveLimb (moveLimb (moveLimb v 3) 2) 1) 0).toNat = 0 := by
      rw [bitInto, if_pos rfl, Bool.toNat_false]
    rw [hw, h0, hinto, k1 0 (by decide), k2 0 (by decide), k3 0 (by decide), Nat.add_zero]
  simp only [uint256GetBits, Fin.getElem_fin, Fin.val_zero, Fin.val_one, Fin.val_two,
    show ((3 : Fin 4) : ℕ) = 3 from rfl] at e0 e1 e2 e3
  have b0 := v.data[0].toNat_lt
  have b1 := v.data[1].toNat_lt
  have b2 := v.data[2].toNat_lt
  have b3 := v.data[3].toNat_lt
  rw [UInt256.value_eq, e0, e1, e2, e3, v.value_eq]
  omega

/-- `uint256_leftShift` multiplies by a power of two modulo `2 ^ 256`. -/
theorem leftShift_value (v : UInt256) {shift : UInt32} (hshift : shift.toNat < 2 ^ 31) :
    (uint256LeftShift v shift).value = v.value * 2 ^ shift.toNat % 2 ^ 256 := by
  have hint : shift.toInt32.toInt.toNat = shift.toNat := by
    have htoInt : shift.toInt32.toInt = shift.toNat :=
      BitVec.toInt_eq_toNat_of_lt (by
        show 2 * shift.toNat < 2 ^ 32
        omega)
    rw [htoInt, Int.toNat_natCast]
  have hrounds : ∀ n : ℕ, (shiftOnce^[n] v).value = v.value * 2 ^ n % 2 ^ 256 := by
    intro n
    induction n with
    | zero =>
        show v.value = v.value * 2 ^ 0 % 2 ^ 256
        rw [pow_zero, mul_one, Nat.mod_eq_of_lt v.value_lt]
    | succ n ih =>
        rw [Function.iterate_succ_apply', shiftOnce_value, ih, Nat.mul_mod_mod, pow_succ]
        congr 1
        ring
  rw [uint256LeftShift, hint, hrounds]

/-- **Left shift.** Every shift that is not negative as an `int` multiplies by a power of
two modulo `2 ^ 256`; the shifts from 256 on leave zero. -/
theorem uint256LeftShift_denotes (v : UInt256) {shift : UInt32} (hshift : shift.toNat < 2 ^ 31) :
    (uint256LeftShift v shift).value = v.value * 2 ^ shift.toNat % 2 ^ 256 ∧
      (256 ≤ shift.toNat → uint256LeftShift v shift = uint256CreateFromU64 0) := by
  refine ⟨leftShift_value v hshift, fun hlarge => ?_⟩
  have hzero : (uint256CreateFromU64 0).value = 0 := by decide
  have hdvd : 2 ^ 256 ∣ v.value * 2 ^ shift.toNat :=
    Dvd.dvd.mul_left (Nat.pow_dvd_pow 2 hlarge) v.value
  apply UInt256.value_injective
  rw [leftShift_value v hshift, Nat.mod_eq_zero_of_dvd hdvd, hzero]

theorem uint256LeftShift_denotes_ones128 :
    (uint256LeftShift ones128 129).value = 2 ^ 256 - 2 ^ 129 ∧
      uint256LeftShift ones128 256 = uint256CreateFromU64 0 := by
  refine ⟨?_, (uint256LeftShift_denotes ones128 (by decide)).2 (by decide)⟩
  rw [(uint256LeftShift_denotes ones128 (by decide)).1]
  decide

end Csf.Uint256
