import Mathlib

/-!
# Fixed-width hexadecimal

Numbers as a fixed number of lowercase hexadecimal digits, most significant
first, as ASCII bytes. `ofHexDigits` reads them back; on numbers that fit the
width it is the inverse, so the rendering is injective there.
-/

namespace Csf.Lib.Hex

/-- The ASCII code of a hexadecimal digit: `0`-`9`, then `a`-`f`. -/
def hexDigit (d : Nat) : UInt8 := UInt8.ofNat (if d < 10 then d + 48 else d + 87)

/-- The value of a hexadecimal digit. -/
def digitValue (c : UInt8) : Nat := if c.toNat < 58 then c.toNat - 48 else c.toNat - 87

/-- The low `n` hexadecimal digits of `v`, most significant first. -/
def hexDigits : (n : Nat) → (v : Nat) → List UInt8
  | 0, _ => []
  | n + 1, v => hexDigits n (v / 16) ++ [hexDigit (v % 16)]

/-- The number that a list of digits denotes. -/
def ofHexDigits (s : List UInt8) : Nat := s.foldl (fun v c => 16 * v + digitValue c) 0

theorem toNat_hexDigit {d : Nat} (h : d < 16) :
    (hexDigit d).toNat = if d < 10 then d + 48 else d + 87 := by
  rw [hexDigit, UInt8.toNat_ofNat', Nat.mod_eq_of_lt]
  split <;> omega

theorem digitValue_hexDigit {d : Nat} (h : d < 16) : digitValue (hexDigit d) = d := by
  rw [digitValue, toNat_hexDigit h]
  split <;> split <;> omega

@[simp] theorem length_hexDigits (n v : Nat) : (hexDigits n v).length = n := by
  induction n generalizing v with
  | zero => rfl
  | succ n ih => rw [hexDigits, List.length_append, ih, List.length_singleton]

/-- Every character of a rendering is a digit. -/
theorem mem_hexDigits {n v : Nat} {c : UInt8} (h : c ∈ hexDigits n v) :
    ∃ d, d < 16 ∧ c = hexDigit d := by
  induction n generalizing v with
  | zero => exact absurd h List.not_mem_nil
  | succ n ih =>
      rcases List.mem_append.mp h with h | h
      · exact ih h
      · exact ⟨v % 16, Nat.mod_lt _ (by decide), List.mem_singleton.mp h⟩

/-- Digits are printable: they lie between `0` and `f`. -/
theorem hexDigits_range {n v : Nat} {c : UInt8} (h : c ∈ hexDigits n v) :
    48 ≤ c.toNat ∧ c.toNat ≤ 102 := by
  obtain ⟨d, hd, rfl⟩ := mem_hexDigits h
  rw [toNat_hexDigit hd]
  split <;> omega

@[simp] theorem hexDigits_zero (n : Nat) : hexDigits n 0 = List.replicate n 48 := by
  induction n with
  | zero => rfl
  | succ n ih =>
      rw [hexDigits, ih, List.replicate_succ']
      rfl

/-- Reading a rendering back gives the number, modulo the width. -/
theorem ofHexDigits_hexDigits (n v : Nat) : ofHexDigits (hexDigits n v) = v % 16 ^ n := by
  induction n generalizing v with
  | zero => simp [hexDigits, ofHexDigits, Nat.mod_one]
  | succ n ih =>
      have hd := digitValue_hexDigit (Nat.mod_lt v (by decide : 0 < 16))
      have hn := ih (v / 16)
      unfold ofHexDigits at hn ⊢
      rw [hexDigits, List.foldl_append, List.foldl_cons, List.foldl_nil, hn, hd, pow_succ',
        Nat.mod_mul]
      omega

/-! ## Order -/

/-- Of two strings of one length with a character behind, the strings are compared first. -/
theorem concat_lt_concat {c d : UInt8} : ∀ {s t : List UInt8}, s.length = t.length →
    (s ++ [c] < t ++ [d] ↔ s < t ∨ s = t ∧ c < d) := by
  intro s
  induction s with
  | nil =>
      intro t hlen
      obtain rfl := List.length_eq_zero_iff.mp hlen.symm
      simp [List.cons_lt_cons_iff]
  | cons b s ih =>
      intro t hlen
      cases t with
      | nil => exact absurd hlen (by simp)
      | cons e t =>
          have hrest := ih (Nat.succ.inj hlen)
          rw [List.cons_append, List.cons_append, List.cons_lt_cons_iff, hrest,
            List.cons_lt_cons_iff, List.cons.injEq]
          tauto

theorem hexDigit_lt_iff {d e : Nat} (hd : d < 16) (he : e < 16) :
    hexDigit d < hexDigit e ↔ d < e := by
  rw [UInt8.lt_iff_toNat_lt, toNat_hexDigit hd, toNat_hexDigit he]
  split_ifs <;> omega

theorem hexDigits_inj {n v w : Nat} (hv : v < 16 ^ n) (hw : w < 16 ^ n) :
    hexDigits n v = hexDigits n w ↔ v = w := by
  constructor
  · intro h
    have hvalue := congrArg ofHexDigits h
    rwa [ofHexDigits_hexDigits, ofHexDigits_hexDigits, Nat.mod_eq_of_lt hv,
      Nat.mod_eq_of_lt hw] at hvalue
  · rintro rfl
    rfl

/-- The order of numbers is that of their renderings as strings. -/
theorem hexDigits_lt_iff {n : Nat} : ∀ {v w : Nat}, v < 16 ^ n → w < 16 ^ n →
    (hexDigits n v < hexDigits n w ↔ v < w) := by
  induction n with
  | zero =>
      intro v w hv hw
      have hzero : v = w := by
        rw [pow_zero] at hv hw
        omega
      simp [hexDigits, hzero]
  | succ n ih =>
      intro v w hv hw
      rw [pow_succ] at hv hw
      have hv' : v / 16 < 16 ^ n := by omega
      have hw' : w / 16 < 16 ^ n := by omega
      have hlen : (hexDigits n (v / 16)).length = (hexDigits n (w / 16)).length := by simp
      rw [hexDigits, hexDigits, concat_lt_concat hlen, ih hv' hw', hexDigits_inj hv' hw',
        hexDigit_lt_iff (Nat.mod_lt _ (by decide)) (Nat.mod_lt _ (by decide))]
      omega

/-! ## Digits in either case -/

/-- A hexadecimal digit, in either case. -/
def IsDigit (c : UInt8) : Prop :=
  48 ≤ c.toNat ∧ c.toNat ≤ 57 ∨ 65 ≤ c.toNat ∧ c.toNat ≤ 70 ∨ 97 ≤ c.toNat ∧ c.toNat ≤ 102

instance (c : UInt8) : Decidable (IsDigit c) := by
  unfold IsDigit
  infer_instance

/-- A letter in lowercase, any other character as it is. -/
def lower (c : UInt8) : UInt8 := if 65 ≤ c.toNat ∧ c.toNat ≤ 90 then c + 32 else c

theorem toNat_lower {c : UInt8} (h : IsDigit c) : (lower c).toNat =
    if c.toNat ≤ 57 then c.toNat else if c.toNat ≤ 70 then c.toNat + 32 else c.toNat := by
  have hadd : (c + 32).toNat = (c.toNat + 32) % 256 := by simp
  rw [IsDigit] at h
  rw [lower]
  split_ifs <;> omega

/-- A digit in lowercase is the digit of its value. -/
theorem hexDigit_digitValue {c : UInt8} (h : IsDigit c) :
    digitValue (lower c) < 16 ∧ hexDigit (digitValue (lower c)) = lower c := by
  have hlower := toNat_lower h
  have hvalue : digitValue (lower c) =
      if (lower c).toNat < 58 then (lower c).toNat - 48 else (lower c).toNat - 87 := rfl
  rw [IsDigit] at h
  have hlt : digitValue (lower c) < 16 := by
    rw [hvalue, hlower]
    split_ifs <;> omega
  refine ⟨hlt, ?_⟩
  rw [← UInt8.toNat_inj, toNat_hexDigit hlt, hvalue, hlower]
  split_ifs <;> omega

theorem isDigit_hexDigit {d : Nat} (h : d < 16) :
    IsDigit (hexDigit d) ∧ lower (hexDigit d) = hexDigit d := by
  have hnat := toNat_hexDigit h
  refine ⟨?_, ?_⟩
  · rw [IsDigit, hnat]
    split_ifs <;> omega
  · rw [lower, if_neg]
    rw [hnat]
    split_ifs <;> omega

theorem ofHexDigits_append (s t : List UInt8) :
    ofHexDigits (s ++ t) = ofHexDigits s * 16 ^ t.length + ofHexDigits t := by
  have hfrom : ∀ (t : List UInt8) (v : Nat),
      t.foldl (fun v c => 16 * v + digitValue c) v = v * 16 ^ t.length + ofHexDigits t := by
    intro t
    induction t with
    | nil => simp [ofHexDigits]
    | cons c t ih =>
        intro v
        rw [ofHexDigits, List.foldl_cons, List.foldl_cons, ih, ih, List.length_cons, pow_succ]
        ring
  rw [ofHexDigits, List.foldl_append, hfrom, ← ofHexDigits]

theorem ofHexDigits_replicate (n : Nat) : ofHexDigits (List.replicate n 48) = 0 := by
  rw [← hexDigits_zero, ofHexDigits_hexDigits, Nat.zero_mod]

/-- A string of lowercase digits is the rendering of its value in its own width. -/
theorem hexDigits_ofHexDigits {s : List UInt8} (h : ∀ c ∈ s, IsDigit c ∧ lower c = c) :
    hexDigits s.length (ofHexDigits s) = s ∧ ofHexDigits s < 16 ^ s.length := by
  induction s using List.reverseRecOn with
  | nil => exact ⟨rfl, Nat.one_pos⟩
  | append_singleton s c ih =>
      obtain ⟨hs, hlt⟩ := ih fun d hd => h d (List.mem_append_left _ hd)
      obtain ⟨hdigit, hlower⟩ := h c (List.mem_append_right _ (List.mem_singleton.mpr rfl))
      obtain ⟨hvalue, hback⟩ := hexDigit_digitValue hdigit
      rw [hlower] at hvalue hback
      have hsingle : ofHexDigits [c] = digitValue c := by simp [ofHexDigits]
      have hstep : ofHexDigits (s ++ [c]) = 16 * ofHexDigits s + digitValue c := by
        rw [ofHexDigits_append, hsingle, List.length_singleton]
        ring
      rw [List.length_append, List.length_singleton, hexDigits, hstep]
      refine ⟨?_, ?_⟩
      · rw [show (16 * ofHexDigits s + digitValue c) / 16 = ofHexDigits s by omega,
          show (16 * ofHexDigits s + digitValue c) % 16 = digitValue c by omega, hs, hback]
      · rw [pow_succ]
        omega

/-- A rendering of a wide number is that of its high part and that of its low part. -/
theorem hexDigits_add (m n v : Nat) :
    hexDigits (m + n) v = hexDigits m (v / 16 ^ n) ++ hexDigits n v := by
  induction n generalizing v with
  | zero => simp [hexDigits]
  | succ n ih =>
      rw [← Nat.add_assoc, hexDigits, ih, hexDigits, Nat.div_div_eq_div_mul, ← pow_succ',
        List.append_assoc]

theorem hexDigits_mod (n v : Nat) : hexDigits n (v % 16 ^ n) = hexDigits n v := by
  induction n generalizing v with
  | zero => rfl
  | succ n ih =>
      rw [hexDigits, hexDigits, pow_succ', Nat.mod_mul_right_mod, Nat.mod_mul_right_div_self, ih]

/-! ## Leading zeros -/

/-- A string without its leading zeros, but for one digit. -/
def stripZeros : List UInt8 → List UInt8
  | c :: d :: s => if c = 48 then stripZeros (d :: s) else c :: d :: s
  | s => s

/-- What is left is a suffix, the rest zeros; it is not empty and has no leading zero, but
for `0` itself. -/
theorem stripZeros_spec {s : List UInt8} (hs : s ≠ []) :
    (∃ n, s = List.replicate n 48 ++ stripZeros s) ∧ stripZeros s ≠ [] ∧
      ((stripZeros s).head? = some 48 → stripZeros s = [48]) := by
  induction s with
  | nil => exact absurd rfl hs
  | cons c s ih =>
      cases s with
      | nil =>
          refine ⟨⟨0, rfl⟩, List.cons_ne_nil _ _, fun hhead => ?_⟩
          exact congrArg (· :: []) (Option.some.inj hhead)
      | cons d s =>
          obtain ⟨⟨n, hn⟩, hne, hzero⟩ := ih (List.cons_ne_nil _ _)
          rw [stripZeros]
          split
          · next hc =>
              refine ⟨⟨n + 1, ?_⟩, hne, hzero⟩
              rw [hc, List.replicate_succ, List.cons_append, ← hn]
          · next hc =>
              refine ⟨⟨0, rfl⟩, List.cons_ne_nil _ _, fun hhead => ?_⟩
              exact absurd (Option.some.inj hhead) hc

/-- The lowercase numeral of a number, without leading zeros. -/
structure Canonical (s : List UInt8) (v : Nat) : Prop where
  digits : ∀ c ∈ s, IsDigit c ∧ lower c = c
  value : ofHexDigits s = v
  nonempty : s ≠ []
  head : s.head? = some 48 → s = [48]

/-- A digit string in lowercase without its leading zeros is the numeral of its value. -/
theorem canonical_stripZeros {s : List UInt8} (hs : s ≠ [])
    (hdigits : ∀ c ∈ s, IsDigit c ∧ lower c = c) :
    Canonical (stripZeros s) (ofHexDigits s) := by
  obtain ⟨⟨n, hn⟩, hne, hhead⟩ := stripZeros_spec hs
  refine ⟨fun c hc => hdigits c ?_, ?_, hne, hhead⟩
  · rw [hn]
    exact List.mem_append_right _ hc
  · nth_rewrite 2 [hn]
    rw [ofHexDigits_append, ofHexDigits_replicate, Nat.zero_mul, Nat.zero_add]

/-- A digit other than `0` has a positive value. -/
theorem digitValue_pos {c : UInt8} (h : IsDigit c) (hlower : lower c = c) (hc : c ≠ 48) :
    0 < digitValue c := by
  have hnat := toNat_lower h
  have hne : c.toNat ≠ 48 := fun hz => hc (UInt8.toNat_inj.mp hz)
  rw [hlower] at hnat
  rw [IsDigit] at h
  rw [digitValue]
  split_ifs at hnat ⊢ <;> omega

/-- The numeral of a number is its rendering in as many digits as it has. -/
theorem Canonical.eq_hexDigits {s : List UInt8} {v : Nat} (h : Canonical s v) :
    s = hexDigits (Nat.log 16 v + 1) v := by
  obtain ⟨hback, hlt⟩ := hexDigits_ofHexDigits h.digits
  rw [h.value] at hback hlt
  suffices hlen : s.length = Nat.log 16 v + 1 by rw [← hlen, hback]
  obtain ⟨c, t, hs⟩ := List.exists_cons_of_ne_nil h.nonempty
  by_cases hzero : c = 48
  · -- only the numeral of zero starts with a zero
    have hone : s = [48] := h.head (by rw [hs, hzero, List.head?_cons])
    have hv : v = 0 := by rw [← h.value, hone]; rfl
    rw [hone, hv, Nat.log_zero_right, List.length_singleton]
  · obtain ⟨hdigit, hlower⟩ := h.digits c (by rw [hs]; exact List.mem_cons_self)
    have hpos := digitValue_pos hdigit hlower hzero
    have hvalue : v = digitValue c * 16 ^ t.length + ofHexDigits t := by
      rw [← h.value, hs, ← List.singleton_append, ofHexDigits_append]
      simp [ofHexDigits]
    have hle : 16 ^ t.length ≤ v := by
      rw [hvalue]
      exact le_trans (Nat.le_mul_of_pos_left _ hpos) (Nat.le_add_right _ _)
    rw [hs, List.length_cons] at hlt ⊢
    rw [(Nat.log_eq_iff (Or.inr ⟨by decide, (Nat.pow_pos (by decide)).trans_le hle |>.ne'⟩)).mpr
      ⟨hle, hlt⟩]

/-- A number has one such numeral. -/
theorem Canonical.unique {s t : List UInt8} {v : Nat} (hs : Canonical s v)
    (ht : Canonical t v) : s = t := by
  rw [hs.eq_hexDigits, ht.eq_hexDigits]

end Csf.Lib.Hex
