import Mathlib

/-!
# Conversions of C

Unsigned numbers as bounds of loops that count in an `int`; and `strtol`, `strtoul` and
`atoi` in base 10, on strings of ASCII bytes without their NUL. `scan` finds what all of
them read: white space, a sign and the digits; they differ in how they fit the number into
their result.
-/

namespace Csf.Lib

/-! ## `int` -/

/-- A number that an `int` can hold bounds a loop as it is. -/
theorem toNat_toInt_toInt32 {x : UInt32} (h : x.toNat < 2 ^ 31) :
    x.toInt32.toInt.toNat = x.toNat := by
  rw [← Int32.toInt_toBitVec, UInt32.toBitVec_toInt32, BitVec.toInt_eq_toNat_of_lt]
  · rfl
  · show 2 * x.toNat < 2 ^ 32
    omega

/-- One that it cannot hold is negative, and the loop is not entered. -/
theorem toNat_toInt_toInt32_le (x : UInt32) : x.toInt32.toInt.toNat ≤ x.toNat := by
  have hx := x.toNat_lt
  rw [← Int32.toInt_toBitVec, UInt32.toBitVec_toInt32, BitVec.toInt_eq_toNat_bmod,
    UInt32.toNat_toBitVec, Int.bmod]
  omega

end Csf.Lib

namespace Csf.Lib.Decimal

/-! ## Decimal strings -/

/-- A decimal digit in ASCII. -/
def IsDigit (c : UInt8) : Prop := 48 ≤ c.toNat ∧ c.toNat ≤ 57

instance (c : UInt8) : Decidable (IsDigit c) := by
  unfold IsDigit
  infer_instance

/-- `isspace` -/
def isSpace (c : UInt8) : Bool := c = 32 ∨ 9 ≤ c ∧ c ≤ 13

/-- The number that a list of digits denotes. -/
def value (s : List UInt8) : ℕ := s.foldl (fun v c => 10 * v + (c.toNat - 48)) 0

/-- What the conversions read of a string. -/
structure Scan where
  negative : Bool
  magnitude : ℕ
  /-- where the first character stands that is not read; 0 where there is no digit -/
  stop : ℕ
deriving DecidableEq, Repr

def scan (s : List UInt8) : Scan :=
  let blanks := (s.takeWhile isSpace).length
  let rest := s.dropWhile isSpace
  let sign := if rest.head? = some 43 ∨ rest.head? = some 45 then 1 else 0
  let digits := (rest.drop sign).takeWhile (IsDigit ·)
  { negative := rest.head? = some 45
    magnitude := value digits
    stop := if digits = [] then 0 else blanks + sign + digits.length }

/-- `strtol(s, &end, 10)` for a `long` of 64 bits, at whose ends it saturates. -/
def strtol (s : List UInt8) : ℤ :=
  if (scan s).negative then max (-2 ^ 63) (-(scan s).magnitude)
  else min (2 ^ 63 - 1) (scan s).magnitude

/-- `atoi(s)`: the `long` cut down to an `int`. -/
def atoi (s : List UInt8) : Int32 := Int32.ofInt (strtol s)

/-- `strtoul(s, &end, 10)` for an `unsigned long` of 64 bits, with `end`. A sign negates
the result, but not the greatest one, where it saturates. -/
def strtoul (s : List UInt8) : UInt64 × ℕ :=
  (if 2 ^ 64 ≤ (scan s).magnitude then UInt64.ofNat (2 ^ 64 - 1)
    else if (scan s).negative then -UInt64.ofNat (scan s).magnitude
    else UInt64.ofNat (scan s).magnitude, (scan s).stop)

/-! ## Strings of digits -/

/-- A digit is none of the characters that `scan` reads before the digits. -/
theorem isDigit_plain {c : UInt8} (h : IsDigit c) : isSpace c = false ∧ c ≠ 43 ∧ c ≠ 45 := by
  have hne : ∀ d : UInt8, c.toNat ≠ d.toNat → c ≠ d := fun d hd he => hd (congrArg _ he)
  obtain ⟨hlow, hhigh⟩ := h
  refine ⟨?_, hne _ ?_, hne _ ?_⟩
  · have h32 : c ≠ 32 := hne _ (by simp; omega)
    have h13 : ¬c ≤ 13 := by rw [UInt8.le_iff_toNat_le]; simp; omega
    simp [isSpace, h32, h13]
  all_goals simp; omega

/-- Digits are read up to the first character that is none. -/
theorem scan_digits_append {s rest : List UInt8} (hs : ∀ c ∈ s, IsDigit c) (hne : s ≠ [])
    (hrest : rest.takeWhile (IsDigit ·) = []) :
    scan (s ++ rest) = { negative := false, magnitude := value s, stop := s.length } := by
  cases s with
  | nil => exact absurd rfl hne
  | cons c s =>
      obtain ⟨hspace, hplus, hminus⟩ := isDigit_plain (hs c List.mem_cons_self)
      have hblanks : (c :: s ++ rest).takeWhile isSpace = [] := by
        rw [List.cons_append, List.takeWhile_cons, hspace]
        rfl
      have hnumeral : (c :: s ++ rest).dropWhile isSpace = c :: s ++ rest := by
        rw [List.cons_append, List.dropWhile_cons, hspace]
        rfl
      have hdigits : (c :: s ++ rest).takeWhile (IsDigit ·) = c :: s := by
        rw [List.takeWhile_append_of_pos (by simpa using hs), hrest, List.append_nil]
      have hhead : (c :: s ++ rest).head? = some c := rfl
      simp only [scan, hblanks, hnumeral, hhead, Option.some.injEq, hplus, hminus,
        or_self, if_false, List.drop_zero, hdigits, List.length_nil, Nat.add_zero, Nat.zero_add,
        decide_false, reduceCtorEq]

/-- A string of digits is read whole. -/
theorem scan_digits {s : List UInt8} (hs : ∀ c ∈ s, IsDigit c) :
    scan s = { negative := false, magnitude := value s, stop := s.length } := by
  cases s with
  | nil => rfl
  | cons c s =>
      have hscan := scan_digits_append hs (List.cons_ne_nil c s) List.takeWhile_nil
      rw [List.append_nil] at hscan
      exact hscan

theorem strtol_digits {s : List UInt8} (hs : ∀ c ∈ s, IsDigit c) :
    strtol s = min (2 ^ 63 - 1) (value s : ℤ) := by
  rw [strtol, scan_digits hs, if_neg Bool.false_ne_true]

/-- `strtoul` reads any number of an `unsigned long` off its digits. -/
theorem strtoul_digits {s : List UInt8} (hs : ∀ c ∈ s, IsDigit c) (hlt : value s < 2 ^ 64) :
    strtoul s = (UInt64.ofNat (value s), s.length) := by
  rw [strtoul, scan_digits hs, if_neg (by simpa using hlt), if_neg Bool.false_ne_true]

/-- `atoi`, read as unsigned, keeps the low 32 bits of the number. -/
theorem toNat_atoi {s : List UInt8} (hs : ∀ c ∈ s, IsDigit c) :
    (atoi s).toUInt32.toNat = min (2 ^ 63 - 1) (value s) % 2 ^ 32 := by
  rw [atoi, strtol_digits hs]
  show (BitVec.ofInt 32 _).toNat = _
  rw [BitVec.toNat_ofInt]
  omega

/-- Numbers of 32 bits survive. -/
theorem toNat_atoi_of_lt {s : List UInt8} (hs : ∀ c ∈ s, IsDigit c) (hlt : value s < 2 ^ 32) :
    (atoi s).toUInt32.toNat = value s := by
  rw [toNat_atoi hs]
  omega

/-- Every number has a decimal numeral. -/
theorem exists_numeral (n : ℕ) : ∃ s ≠ [], (∀ c ∈ s, IsDigit c) ∧ value s = n := by
  have hdigit : ∀ d < 10, IsDigit (UInt8.ofNat (d + 48)) ∧
      (UInt8.ofNat (d + 48)).toNat - 48 = d := by decide
  induction n using Nat.strong_induction_on with
  | _ n ih =>
      obtain ⟨hlast, hvalue⟩ := hdigit (n % 10) (Nat.mod_lt n (Nat.succ_pos 9))
      by_cases hn : n < 10
      · refine ⟨[UInt8.ofNat (n % 10 + 48)], List.cons_ne_nil _ _, by simpa using hlast, ?_⟩
        rw [value, List.foldl_cons, List.foldl_nil, hvalue]
        omega
      · -- the digits of the quotient, then the remainder
        obtain ⟨s, -, hs, hsv⟩ := ih (n / 10) (by omega)
        refine ⟨s ++ [UInt8.ofNat (n % 10 + 48)], by simp, ?_, ?_⟩
        · intro c hc
          rcases List.mem_append.mp hc with hc | hc
          · exact hs c hc
          · exact List.mem_singleton.mp hc ▸ hlast
        · rw [value] at hsv
          rw [value, List.foldl_append, hsv, List.foldl_cons, List.foldl_nil, hvalue]
          omega

/-! ## The numeral of a number -/

/-- What `%lu` and `<<` write. -/
def numeral (n : ℕ) : List UInt8 := (Nat.toDigits 10 n).map fun c => c.toNat.toUInt8

theorem toNat_digit {c : Char} {n : ℕ} (h : c ∈ Nat.toDigits 10 n) :
    48 ≤ c.toNat ∧ c.toNat ≤ 57 ∧ c.toNat.toUInt8.toNat = c.toNat := by
  obtain ⟨hlow, hhigh⟩ :=
    Char.isDigit_iff_toNat.mp (Nat.isDigit_of_mem_toDigits (by decide) (by decide) h)
  have hnine : '9'.toNat = 57 := rfl
  refine ⟨hlow, hhigh, ?_⟩
  show c.toNat % 256 = c.toNat
  omega

theorem isDigit_numeral {n : ℕ} {c : UInt8} (h : c ∈ numeral n) : IsDigit c := by
  obtain ⟨d, hd, rfl⟩ := List.mem_map.mp h
  obtain ⟨hlow, hhigh, hnat⟩ := toNat_digit hd
  rw [IsDigit, hnat]
  exact ⟨hlow, hhigh⟩

/-- The digits denote the number. -/
theorem value_numeral (n : ℕ) : value (numeral n) = n := by
  have hdigits : (Nat.toDigits 10 n).foldl
      (fun v c => 10 * v + (c.toNat.toUInt8.toNat - 48)) 0 =
      Nat.ofDigitChars 10 (Nat.toDigits 10 n) 0 :=
    List.foldl_ext _ _ _ fun v c hc => by rw [(toNat_digit hc).2.2]; rfl
  rw [value, numeral, List.foldl_map, hdigits, Nat.ofDigitChars_ten_toDigits]

theorem numeral_injective : Function.Injective numeral := fun m n h => by
  have hvalue := congrArg value h
  rw [value_numeral, value_numeral] at hvalue
  exact hvalue

theorem numeral_ne_nil (n : ℕ) : numeral n ≠ [] :=
  fun h => Nat.toDigits_ne_nil (List.map_eq_nil_iff.mp h)

end Csf.Lib.Decimal
