import Csf.Lib.Conversion
import Csf.Lib.Hex

/-!
# Formatted extraction

`is >> c` for a character and `is >> std::hex >> n` for a `uint32_t`, on the text that is
left in the stream: white space is skipped, and where the extraction fails there is no
result. A numeral may carry a sign, the prefix `0x` and leading zeros; one that does not fit
in 32 bits makes the extraction fail, and a minus sign negates in 32 bits. `char_iff` and
`hex32_iff` say which texts are accepted.
-/

namespace Csf.Lib.Extract

open Decimal (isSpace)

/-! ## What the operators do -/

/-- `is >> c` -/
def char (text : List UInt8) : Option (UInt8 × List UInt8) :=
  match text.dropWhile isSpace with
  | [] => none
  | c :: rest => some (c, rest)

/-- A sign, which is minus or not, and what follows it. -/
def sign : List UInt8 → Bool × List UInt8
  | [] => (false, [])
  | c :: rest => if c = 45 then (true, rest) else if c = 43 then (false, rest) else (false, c :: rest)

/-- The prefix of hexadecimal numerals taken off. -/
def dropRadix : List UInt8 → List UInt8
  | [] => []
  | [c] => [c]
  | c :: d :: rest => if c = 48 ∧ (d = 120 ∨ d = 88) then rest else c :: d :: rest

/-- `is >> std::hex >> n` -/
def hex32 (text : List UInt8) : Option (UInt32 × List UInt8) :=
  let signed := sign (text.dropWhile isSpace)
  let text := dropRadix signed.2
  let digits := text.takeWhile (Hex.IsDigit ·)
  let magnitude := Hex.ofHexDigits (digits.map Hex.lower)
  if digits = [] ∨ 2 ^ 32 ≤ magnitude then none
  else some (if signed.1 then -UInt32.ofNat magnitude else UInt32.ofNat magnitude,
    text.dropWhile (Hex.IsDigit ·))

/-! ## How a number may be written -/

def Blank (s : List UInt8) : Prop := ∀ c ∈ s, isSpace c = true

/-- The digits of a number, in either case and with any leading zeros. -/
structure Digits (s : List UInt8) (n : ℕ) : Prop where
  nonempty : s ≠ []
  digits : ∀ c ∈ s, Hex.IsDigit c
  value : Hex.ofHexDigits (s.map Hex.lower) = n

/-- A number as it may be written: with the prefix or without it. -/
inductive Numeral : List UInt8 → ℕ → Prop where
  | plain {s : List UInt8} {n : ℕ} : Digits s n → Numeral s n
  | radix {s : List UInt8} {n : ℕ} (c : UInt8) : c = 120 ∨ c = 88 → Digits s n →
      Numeral (48 :: c :: s) n

/-- The signs, and none. -/
def signs : List (List UInt8) := [[], [43], [45]]

/-- What a sign makes of a number. -/
def withSign (mark : List UInt8) (n : ℕ) : UInt32 :=
  if mark = [45] then -UInt32.ofNat n else UInt32.ofNat n

/-- Text that a numeral does not run on into: no digit, and no `x` behind a single zero. -/
def Stops (s rest : List UInt8) : Prop :=
  ∀ c ∈ rest.head?, ¬Hex.IsDigit c ∧ (s = [48] → ¬(c = 120 ∨ c = 88))

/-- A text that begins, after white space, with a number of 32 bits, and what is behind it. -/
inductive Begins : List UInt8 → UInt32 → List UInt8 → Prop where
  | intro {blanks mark s rest : List UInt8} {n : ℕ} : Blank blanks → mark ∈ signs →
      Numeral s n → n < 2 ^ 32 → Stops s rest →
      Begins (blanks ++ (mark ++ (s ++ rest))) (withSign mark n) rest

variable {text rest blanks mark s : List UInt8} {c : UInt8} {n : ℕ} {v : UInt32}

/-! ## Characters -/

theorem dropWhile_blank (h : Blank blanks) (hc : isSpace c = false) :
    (blanks ++ c :: rest).dropWhile isSpace = c :: rest := by
  rw [List.dropWhile_append_of_pos h, List.dropWhile_cons_of_neg (by simp [hc])]

/-- The first character that is no white space is the one that is extracted. -/
theorem char_iff : char text = some (c, rest) ↔
    ∃ blanks, Blank blanks ∧ isSpace c = false ∧ text = blanks ++ c :: rest := by
  constructor
  · intro h
    have hskip := List.takeWhile_append_dropWhile (p := isSpace) (l := text)
    have hhead := List.head?_dropWhile_not isSpace text
    unfold char at h
    split at h
    · exact absurd h (by simp)
    · next d more hdrop =>
        rw [Option.some.injEq, Prod.mk.injEq] at h
        obtain ⟨rfl, rfl⟩ := h
        rw [hdrop] at hskip hhead
        exact ⟨text.takeWhile isSpace, fun e he => List.mem_takeWhile_imp he,
          by simpa using hhead, hskip.symm⟩
  · rintro ⟨blanks, hblank, hc, rfl⟩
    rw [char, dropWhile_blank hblank hc]

/-! ## Numerals are read back -/

theorem not_isDigit_of_isSpace (h : isSpace c = true) : ¬Hex.IsDigit c := by
  rw [isSpace, decide_eq_true_iff, UInt8.le_iff_toNat_le, UInt8.le_iff_toNat_le] at h
  have h13 : (13 : UInt8).toNat = 13 := rfl
  rw [Hex.IsDigit]
  rcases h with rfl | ⟨-, h⟩
  · decide
  · omega

/-- White space stops every numeral. -/
theorem Blank.stops (h : Blank blanks) (hne : blanks ≠ []) : Stops s (blanks ++ rest) := by
  cases blanks with
  | nil => exact absurd rfl hne
  | cons b blanks =>
      have hb : isSpace b = true := h b List.mem_cons_self
      intro c hc
      obtain rfl : b = c := Option.some.inj hc
      refine ⟨not_isDigit_of_isSpace hb, fun _ hx => ?_⟩
      rcases hx with rfl | rfl <;> exact absurd hb (by decide)

/-- A digit is neither white space nor a sign. -/
theorem isDigit_plain (h : Hex.IsDigit c) : isSpace c = false ∧ c ≠ 45 ∧ c ≠ 43 := by
  refine ⟨?_, ?_, ?_⟩
  · by_contra hspace
    exact not_isDigit_of_isSpace (Bool.eq_true_of_not_eq_false hspace) h
  all_goals
    rintro rfl
    exact absurd h (by decide)

theorem sign_mark (hmark : mark ∈ signs) (hc : Hex.IsDigit c) :
    sign (mark ++ c :: rest) = (decide (mark = [45]), c :: rest) := by
  obtain ⟨-, hminus, hplus⟩ := isDigit_plain hc
  simp only [signs, List.mem_cons, List.not_mem_nil, or_false] at hmark
  rcases hmark with rfl | rfl | rfl
  · show sign (c :: rest) = _
    rw [sign, if_neg hminus, if_neg hplus]
    rfl
  · rfl
  · rfl

/-- Neither a sign nor a digit is skipped as white space. -/
theorem skip_mark (hblank : Blank blanks) (hmark : mark ∈ signs) (hc : Hex.IsDigit c) :
    (blanks ++ (mark ++ c :: rest)).dropWhile isSpace = mark ++ c :: rest := by
  simp only [signs, List.mem_cons, List.not_mem_nil, or_false] at hmark
  rcases hmark with rfl | rfl | rfl
  · exact dropWhile_blank hblank (isDigit_plain hc).1
  · exact dropWhile_blank hblank (by decide)
  · exact dropWhile_blank hblank (by decide)

/-- Digits alone do not begin like the prefix. -/
theorem Digits.dropRadix (h : Digits s n) (hstop : Stops s rest) :
    dropRadix (s ++ rest) = s ++ rest := by
  match s, h.nonempty, h.digits, hstop with
  | [d], _, _, hstop =>
      cases rest with
      | nil => rfl
      | cons e rest =>
          obtain ⟨-, hx⟩ := hstop e rfl
          exact if_neg fun hradix => hx (congrArg (· :: []) hradix.1) hradix.2
  | d :: e :: s, _, hdigits, _ =>
      have he : Hex.IsDigit e := hdigits e (by simp)
      refine if_neg fun hradix => ?_
      rcases hradix.2 with rfl | rfl <;> exact absurd he (by decide)

theorem Digits.span (h : Digits s n) (hstop : ∀ c ∈ rest.head?, ¬Hex.IsDigit c) :
    (s ++ rest).takeWhile (Hex.IsDigit ·) = s ∧ (s ++ rest).dropWhile (Hex.IsDigit ·) = rest := by
  have hpos : ∀ c ∈ s, decide (Hex.IsDigit c) = true := fun c hc => decide_eq_true (h.digits c hc)
  rw [List.takeWhile_append_of_pos hpos, List.dropWhile_append_of_pos hpos]
  cases rest with
  | nil => simp
  | cons c rest =>
      have hc : decide (Hex.IsDigit c) = false := decide_eq_false (hstop c rfl)
      rw [List.takeWhile_cons_of_neg (by simp [hc]), List.dropWhile_cons_of_neg (by simp [hc])]
      simp

/-- A numeral begins with a digit, and without its prefix it is its digits. -/
theorem Numeral.begins (h : Numeral s n) (hstop : Stops s rest) :
    ∃ c more, s = c :: more ∧ Hex.IsDigit c ∧
      ∃ digits, Digits digits n ∧ Extract.dropRadix (s ++ rest) = digits ++ rest := by
  cases h with
  | plain hdigits =>
      cases s with
      | nil => exact absurd rfl hdigits.nonempty
      | cons c more =>
          exact ⟨c, more, rfl, hdigits.digits c List.mem_cons_self, _, hdigits,
            hdigits.dropRadix hstop⟩
  | radix c hc hdigits =>
      exact ⟨48, _, rfl, by decide, _, hdigits, if_pos ⟨rfl, hc⟩⟩

/-- A number of 32 bits is read back from any way to write it. -/
theorem Begins.hex32_eq (h : Begins text v rest) : hex32 text = some (v, rest) := by
  obtain ⟨hblank, hmark, hs, hfits, hstop⟩ := h
  obtain ⟨c, more, rfl, hc, digits, hdigits, hdrop⟩ := hs.begins hstop
  obtain ⟨htake, hleft⟩ := hdigits.span fun c hc => (hstop c hc).1
  rw [List.cons_append] at hdrop
  rw [List.cons_append, hex32, skip_mark hblank hmark hc, sign_mark hmark hc]
  have hread := not_or.mpr ⟨hdigits.nonempty, Nat.not_le.mpr hfits⟩
  simp only [hdrop, htake, hleft, hdigits.value, if_neg hread, decide_eq_true_eq, withSign]

/-! ## What is read was there -/

theorem sign_parts (text : List UInt8) :
    ∃ mark ∈ signs, text = mark ++ (sign text).2 ∧ (sign text).1 = decide (mark = [45]) := by
  cases text with
  | nil => exact ⟨[], by decide, rfl, rfl⟩
  | cons c text =>
      by_cases hminus : c = 45
      · subst hminus
        exact ⟨[45], by decide, rfl, rfl⟩
      · by_cases hplus : c = 43
        · subst hplus
          exact ⟨[43], by decide, rfl, rfl⟩
        · refine ⟨[], by decide, ?_, ?_⟩ <;> rw [sign, if_neg hminus, if_neg hplus] <;> rfl

theorem dropRadix_parts (text : List UInt8) :
    (dropRadix text = text ∧ ∀ c rest, text = 48 :: c :: rest → ¬(c = 120 ∨ c = 88)) ∨
      ∃ c, (c = 120 ∨ c = 88) ∧ text = 48 :: c :: dropRadix text := by
  match text with
  | [] => exact .inl ⟨rfl, by simp⟩
  | [_] => exact .inl ⟨rfl, by simp⟩
  | c :: d :: rest =>
      by_cases hradix : c = 48 ∧ (d = 120 ∨ d = 88)
      · obtain ⟨rfl, hd⟩ := hradix
        refine .inr ⟨d, hd, ?_⟩
        rw [dropRadix, if_pos ⟨rfl, hd⟩]
      · refine .inl ⟨if_neg hradix, fun d' rest' h hx => hradix ?_⟩
        rw [List.cons.injEq, List.cons.injEq] at h
        obtain ⟨rfl, rfl, -⟩ := h
        exact ⟨rfl, hx⟩

/-- The digits behind a prefix or none are a numeral. -/
theorem numeral_of_digits {unsigned digits : List UInt8} (hdigits : Digits digits n)
    (hsplit : digits ++ rest = dropRadix unsigned) (hstop : ∀ c ∈ rest.head?, ¬Hex.IsDigit c) :
    ∃ s, Numeral s n ∧ Stops s rest ∧ unsigned = s ++ rest := by
  rcases dropRadix_parts unsigned with ⟨hplain, hnone⟩ | ⟨c, hc, hradix⟩
  · rw [hplain] at hsplit
    refine ⟨digits, .plain hdigits, fun c hc => ⟨hstop c hc, fun hzero => ?_⟩, hsplit.symm⟩
    cases rest with
    | nil => exact absurd hc (by simp)
    | cons d rest =>
        obtain rfl : d = c := Option.some.inj hc
        exact hnone d rest (by rw [← hsplit, hzero]; rfl)
  · exact ⟨48 :: c :: digits, .radix c hc hdigits, fun d hd => ⟨hstop d hd, by simp⟩,
      hradix.trans (congrArg (48 :: c :: ·) hsplit.symm)⟩

/-- **Numerals.** Exactly the texts that begin with a number of 32 bits are accepted. -/
theorem hex32_iff : hex32 text = some (v, rest) ↔ Begins text v rest := by
  refine ⟨fun h => ?_, Begins.hex32_eq⟩
  obtain ⟨mark, hmark, hsigned, hminus⟩ := sign_parts (text.dropWhile isSpace)
  have hskip := List.takeWhile_append_dropWhile (p := isSpace) (l := text)
  unfold hex32 at h
  simp only at h
  generalize (sign (text.dropWhile isSpace)).1 = negative at h hminus
  generalize (sign (text.dropWhile isSpace)).2 = unsigned at h hsigned
  split at h
  · exact absurd h (by simp)
  · next hread =>
      obtain ⟨hnonempty, hfits⟩ := not_or.mp hread
      rw [Option.some.injEq, Prod.mk.injEq] at h
      obtain ⟨rfl, rfl⟩ := h
      have hdigits : Digits ((dropRadix unsigned).takeWhile (Hex.IsDigit ·)) _ :=
        ⟨hnonempty, fun c hc => by simpa using List.mem_takeWhile_imp hc, rfl⟩
      have hstop : ∀ c ∈ ((dropRadix unsigned).dropWhile (Hex.IsDigit ·)).head?,
          ¬Hex.IsDigit c := by
        intro c hc hdigit
        have hnot := List.head?_dropWhile_not (fun c => decide (Hex.IsDigit c)) (dropRadix unsigned)
        rw [Option.mem_def.mp hc] at hnot
        exact absurd (decide_eq_true hdigit) (by simpa using hnot)
      obtain ⟨s, hs, hstops, hunsigned⟩ :=
        numeral_of_digits hdigits List.takeWhile_append_dropWhile hstop
      have hblank : Blank (text.takeWhile isSpace) := fun c hc => List.mem_takeWhile_imp hc
      have hbegins := Begins.intro hblank hmark hs (Nat.not_le.mp hfits) hstops
      rw [← hunsigned, ← hsigned, hskip] at hbegins
      simpa only [hminus, decide_eq_true_eq, withSign] using hbegins

theorem Numeral.length_pos (h : Numeral s n) : 0 < s.length := by
  cases h with
  | plain hdigits => exact List.length_pos_iff.mpr hdigits.nonempty
  | radix c hc hdigits => exact Nat.succ_pos _

/-- Every number takes something off the text. -/
theorem hex32_shorter (h : hex32 text = some (v, rest)) : rest.length < text.length := by
  obtain ⟨-, -, hs, -, -⟩ := hex32_iff.mp h
  have hpos := hs.length_pos
  simp only [List.length_append]
  omega

end Csf.Lib.Extract
