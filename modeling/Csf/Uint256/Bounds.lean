import Csf.Uint256.Hex

/-!
# 256-bit integers: the buffers of `uint256_create_from_hex`

Where only the buffers themselves may be read and written, no string of digits is read:
`strtoul` finds no end to the 16 digits of `temp`, and from 65 digits on the first write
is before `new_hex`.
-/

namespace Csf.Uint256

open Csf.Lib.Hex

/-- Memory of which nothing but the buffers may be read. -/
def isolated (newHex : Vector UInt8 65) : Heap := { newHex := newHex, beyond := fun _ => [] }

/-- All that `uint256_create_from_hex` reads and writes lies inside of `new_hex`, a `temp` or
the string. -/
def StaysInside (newHex : Vector UInt8 65) (hex : List UInt8) : Prop :=
  ∃ v, uint256CreateFromHex (isolated newHex) hex = .ok v

/-! ## `strtoul` on a slice without an end -/

theorem scanDigits_digits {t : List UInt8} (ht : ∀ c ∈ t, IsDigit c) (v n : ℕ) :
    scanDigits t v n = none := by
  induction t generalizing v n with
  | nil => rfl
  | cons c t ih =>
      rw [scanDigits, if_pos (ht c List.mem_cons_self)]
      exact ih (fun d hd => ht d (List.mem_cons_of_mem _ hd)) _ _

/-- Digits alone do not tell `strtoul` where to stop. -/
theorem strtoul_unended {t : List UInt8} (ht : ∀ c ∈ t, IsDigit c) : strtoul t = none := by
  have hrest : ∀ n, ∀ c ∈ (t.dropWhile isSpace).drop n, IsDigit c := fun n c hc =>
    ht c ((List.dropWhile_suffix _).subset (List.mem_of_mem_drop hc))
  simp only [strtoul, scanDigits_digits (hrest _), Option.map_none]

/-- The first 64 characters of `new_hex` are digits. -/
def Filled (newHex : Vector UInt8 65) : Prop :=
  ∀ (j : ℕ) (c : UInt8), j < 64 → newHex[j]? = some c → IsDigit c

theorem Filled.fillZeros (newHex : Vector UInt8 65) : Filled (fillZeros newHex) := by
  intro j c hj hc
  obtain ⟨-, rfl⟩ := Vector.getElem?_eq_some_iff.mp hc
  rw [fillZeros_get newHex hj]
  exact Or.inl ⟨le_rfl, by decide⟩

theorem copyDigit_filled {hex : List UInt8} (hhex : ∀ c ∈ hex, IsDigit c) {i : ℕ}
    (hi : i < hex.length) {b b' : Vector UInt8 65} (hb : Filled b)
    (h : copyDigit hex b i = .ok b') : Filled b' := by
  rw [copyDigit] at h
  split at h
  · cases h
    intro j c hj hc
    rw [Vector.getElem?_set] at hc
    split at hc
    · rw [← Option.some.inj hc, List.getD_eq_getElem _ _ hi]
      exact hhex _ (List.getElem_mem hi)
    · exact hb j c hj hc
  · exact absurd h (by simp)

/-- The second loop does not run past the end of the string. -/
theorem copyHex_count_le (n : ℕ) : (UInt32.ofNat n).toInt32.toInt.toNat ≤ n := by
  refine (Csf.Lib.toNat_toInt_toInt32_le _).trans ?_
  rw [UInt32.toNat_ofNat']
  exact Nat.mod_le _ _

/-- The copied string leaves `new_hex` full of digits, if it is copied at all. -/
theorem copyHex_filled {hex : List UInt8} (hhex : ∀ c ∈ hex, IsDigit c) {b b' : Vector UInt8 65}
    (hb : Filled b) (h : copyHex hex b = .ok b') : Filled b' := by
  refine Csf.Lib.foldlM_keeps h hb fun i hi b₁ b₂ hb₁ hstep => ?_
  exact copyDigit_filled hhex ((List.mem_range.mp hi).trans_le (copyHex_count_le _)) hb₁ hstep

/-- No slice of digits is parsed inside of its buffer. -/
theorem parseSlice_filled {b : Vector UInt8 65} (hb : Filled b) (newHex : Vector UInt8 65)
    (i : Fin 4) : parseSlice (isolated newHex) b i = .error .read := by
  have hslice : ∀ c ∈ (b.toList.drop (i * 16)).take 16, IsDigit c := by
    intro c hc
    obtain ⟨k, hk, rfl⟩ := List.mem_iff_getElem.mp hc
    rw [List.length_take] at hk
    rw [List.getElem_take, List.getElem_drop, Vector.getElem_toList]
    exact hb _ _ (by omega) (Vector.getElem?_eq_getElem _)
  have hcopy : strncpy (b.toList.drop (i * 16)) 16 = (b.toList.drop (i * 16)).take 16 := by
    refine strncpy_eq ?_ fun c hc => (isDigit_plain (hslice c hc)).2.2.2.2.2
    rw [List.length_drop, Vector.length_toList]
    omega
  rw [parseSlice]
  simp only [hcopy, isolated, List.append_nil, strtoul_unended hslice]

/-! ## Which access is the first outside -/

/-- Up to 64 digits, it is the read of `temp[16]`. -/
theorem create_short {hex : List UInt8} (hhex : ∀ c ∈ hex, IsDigit c) (hlen : hex.length ≤ 64)
    (newHex : Vector UInt8 65) :
    uint256CreateFromHex (isolated newHex) hex = .error .read := by
  obtain ⟨b, hcopy, -⟩ := copyHex_eq hex newHex hlen
  have hb := copyHex_filled hhex (Filled.fillZeros newHex) hcopy
  have hnew : (isolated newHex).newHex = newHex := rfl
  rw [uint256CreateFromHex, hnew, hcopy, Csf.Lib.ok_bind, parseSlice_filled hb, Csf.Lib.error_bind]

/-- From 65 digits on it is the write of the first one, so many bytes before `new_hex` as
there are too many. -/
theorem create_long {hex : List UInt8} (hlen : 64 < hex.length) (hlt : hex.length < 2 ^ 31)
    (heap : Heap) :
    uint256CreateFromHex heap hex = .error (.write (2 ^ 64 - (hex.length - 64))) := by
  have hindex : (64 - UInt64.ofNat hex.length + UInt64.ofNat 0).toNat =
      2 ^ 64 - (hex.length - 64) := by
    have h64 : (64 : UInt64).toNat = 64 := rfl
    rw [UInt64.toNat_add, UInt64.toNat_sub, UInt64.toNat_ofNat', UInt64.toNat_ofNat', h64]
    omega
  have hcount : hex.length = (hex.length - 1) + 1 := by omega
  have hfirst : ∀ b, copyDigit hex b 0 = .error (.write (2 ^ 64 - (hex.length - 64))) := by
    intro b
    unfold copyDigit
    simp only [hindex]
    rw [dif_neg (by omega)]
  have hcopy : ∀ b, copyHex hex b = .error (.write (2 ^ 64 - (hex.length - 64))) := by
    intro b
    rw [copyHex, copyHex_count hlt]
    nth_rewrite 1 [hcount]
    rw [List.range_succ_eq_map, List.foldlM_cons, hfirst, Csf.Lib.error_bind]
  rw [uint256CreateFromHex, hcopy, Csf.Lib.error_bind]

/-- **Buffers.** No string of digits, of whatever length, is read inside of the buffers. -/
theorem not_staysInside {hex : List UInt8} (hhex : ∀ c ∈ hex, IsDigit c)
    (newHex : Vector UInt8 65) : ¬StaysInside newHex hex := by
  rintro ⟨v, hv⟩
  rw [uint256CreateFromHex, Csf.Lib.bind_eq_ok] at hv
  obtain ⟨b, hcopy, hv⟩ := hv
  have hb := copyHex_filled hhex (Filled.fillZeros newHex) hcopy
  rw [parseSlice_filled hb, Csf.Lib.error_bind] at hv
  exact absurd hv (by simp)

theorem isDigit_one : ∀ c ∈ ([49] : List UInt8), IsDigit c := by simp [IsDigit]

theorem not_staysInside_one : ¬StaysInside (Vector.replicate 65 0) [49] :=
  not_staysInside isDigit_one _

/-- `1` is read past the end of `temp`. -/
theorem one_not_inside :
    ¬∀ newHex hex, (∀ c ∈ hex, IsDigit c) → StaysInside newHex hex := by
  intro hall
  obtain ⟨v, hv⟩ := hall (Vector.replicate 65 0) [49] isDigit_one
  rw [create_short isDigit_one (by decide)] at hv
  exact absurd hv (by simp)

end Csf.Uint256
