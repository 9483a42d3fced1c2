import Mathlib

/-!
# Regions of a memory

A memory is a function from addresses to cells, a region an interval `[b, e)` of
addresses. `slice` lists the contents of a region; `AgreeOn` and `SameOutside` say
that two memories have one region, or everything but one region, in common.
-/

namespace Csf.Lib.Region

variable {α : Type*} {m m' m'' : ℕ → α} {b k e : ℕ}

/-- The contents of `[b, e)`. -/
def slice (m : ℕ → α) (b e : ℕ) : List α := (List.range' b (e - b)).map m

def AgreeOn (b e : ℕ) (m m' : ℕ → α) : Prop := ∀ i, b ≤ i → i < e → m' i = m i

def SameOutside (b e : ℕ) (m m' : ℕ → α) : Prop := ∀ i, i < b ∨ e ≤ i → m' i = m i

/-! ## Slices -/

@[simp] theorem length_slice (m : ℕ → α) (b e : ℕ) : (slice m b e).length = e - b := by
  rw [slice, List.length_map, List.length_range']

@[simp] theorem slice_self (m : ℕ → α) (b : ℕ) : slice m b b = [] := by
  rw [slice, Nat.sub_self]
  rfl

theorem slice_eq_nil (h : e ≤ b) : slice m b e = [] := by
  rw [slice, Nat.sub_eq_zero_of_le h]
  rfl

theorem getElem?_slice (m : ℕ → α) (b e i : ℕ) :
    (slice m b e)[i]? = if i < e - b then some (m (b + i)) else none := by
  rw [slice, List.getElem?_map]
  split
  · next h => rw [List.getElem?_range' h, Nat.one_mul, Option.map_some]
  · next h =>
      rw [List.getElem?_eq_none (by rw [List.length_range']; omega), Option.map_none]

/-- A region is cut in two. -/
theorem slice_append (m : ℕ → α) (hbk : b ≤ k) (hke : k ≤ e) :
    slice m b k ++ slice m k e = slice m b e := by
  have hlen : e - b = (k - b) + (e - k) := by omega
  have hstart : b + 1 * (k - b) = k := by omega
  rw [slice, slice, slice, hlen, ← List.map_append, ← List.range'_append, hstart]

theorem slice_cons (m : ℕ → α) (h : b < e) : slice m b e = m b :: slice m (b + 1) e := by
  have hlen : e - b = (e - (b + 1)) + 1 := by omega
  rw [slice, slice, hlen, List.range'_succ, List.map_cons]

theorem slice_concat (m : ℕ → α) (h : b ≤ k) : slice m b (k + 1) = slice m b k ++ [m k] := by
  rw [← slice_append m h (Nat.le_succ k), slice_cons m (Nat.lt_succ_self k), slice_self]

theorem slice_congr (h : AgreeOn b e m m') : slice m' b e = slice m b e := by
  refine List.map_congr_left fun i hi => ?_
  obtain ⟨hbi, hie⟩ := List.mem_range'_1.mp hi
  exact h i hbi (by omega)

theorem agreeOn_of_slice_eq (h : slice m' b e = slice m b e) : AgreeOn b e m m' := by
  intro i hbi hie
  have hget : (slice m' b e)[i - b]? = (slice m b e)[i - b]? := by rw [h]
  have hlt : i - b < e - b := by omega
  have hadd : b + (i - b) = i := by omega
  rw [getElem?_slice, getElem?_slice, if_pos hlt, if_pos hlt, hadd] at hget
  exact Option.some.inj hget

/-! ## Writes -/

theorem slice_update (m : ℕ → α) {i : ℕ} (hi : i < e - b) (v : α) :
    slice (Function.update m (b + i) v) b e = (slice m b e).set i v := by
  refine List.ext_getElem? fun j => ?_
  rw [List.getElem?_set, getElem?_slice, getElem?_slice, length_slice, if_pos hi]
  by_cases hj : i = j
  · subst hj
    rw [if_pos hi, if_pos rfl, Function.update_self]
  · have hne : b + j ≠ b + i := by omega
    rw [if_neg hj, Function.update_of_ne hne]

theorem slice_update_concat (m : ℕ → α) (h : b ≤ k) (v : α) :
    slice (Function.update m k v) b (k + 1) = slice m b k ++ [v] := by
  have hagree : AgreeOn b k m (Function.update m k v) :=
    fun i _ hi => Function.update_of_ne (Nat.ne_of_lt hi) v m
  rw [slice_concat _ h, slice_congr hagree, Function.update_self]

theorem sameOutside_update (m : ℕ → α) {i : ℕ} (hb : b ≤ i) (he : i < e) (v : α) :
    SameOutside b e m (Function.update m i v) := by
  intro j hj
  have hne : j ≠ i := by omega
  exact Function.update_of_ne hne v m

/-! ## Agreement -/

theorem AgreeOn.mono {b' e' : ℕ} (h : AgreeOn b e m m') (hb : b ≤ b') (he : e' ≤ e) :
    AgreeOn b' e' m m' := fun i hi hi' => h i (hb.trans hi) (hi'.trans_le he)

theorem AgreeOn.update (h : AgreeOn b e m m') (i : ℕ) (v : α) :
    AgreeOn b e (Function.update m i v) (Function.update m' i v) := by
  intro j hj hj'
  by_cases hij : j = i
  · rw [hij, Function.update_self, Function.update_self]
  · rw [Function.update_of_ne hij, Function.update_of_ne hij]
    exact h j hj hj'

/-- Two changes in one part that agree on this part. -/
theorem AgreeOn.of_part {n n' : ℕ → α} {b' e' : ℕ} (h : AgreeOn b e m n)
    (hm : SameOutside b' e' m m') (hn : SameOutside b' e' n n') (h' : AgreeOn b' e' m' n') :
    AgreeOn b e m' n' := by
  intro i hi hi'
  by_cases hpart : b' ≤ i ∧ i < e'
  · exact h' i hpart.1 hpart.2
  · have hout : i < b' ∨ e' ≤ i := by omega
    rw [hm i hout, hn i hout]
    exact h i hi hi'

theorem SameOutside.refl (b e : ℕ) (m : ℕ → α) : SameOutside b e m m := fun _ _ => rfl

theorem SameOutside.trans (h : SameOutside b e m m') (h' : SameOutside b e m' m'') :
    SameOutside b e m m'' := fun i hi => (h' i hi).trans (h i hi)

theorem SameOutside.mono {b' e' : ℕ} (h : SameOutside b' e' m m') (hb : b ≤ b') (he : e' ≤ e) :
    SameOutside b e m m' := fun i hi => h i (by omega)

/-- A change in one region leaves a disjoint one alone. -/
theorem SameOutside.agreeOn {b' e' : ℕ} (h : SameOutside b' e' m m') (hd : e ≤ b' ∨ e' ≤ b) :
    AgreeOn b e m m' := fun i hi hi' => h i (by omega)

/-- Two memories that agree on a region and outside of it are one. -/
theorem eq_of_agreeOn_of_sameOutside (h : AgreeOn b e m m') (h' : SameOutside b e m m') :
    m' = m := by
  funext i
  by_cases hi : b ≤ i ∧ i < e
  · exact h i hi.1 hi.2
  · exact h' i (by omega)

end Csf.Lib.Region
