import Mathlib.Data.List.TakeWhile

/-!
# Input streams and `getline`

A stream is the text still to be read and whether it is good; it is good until an
operation meets the end of the text. `getline` leaves its string alone when the
stream is not good, and replaces it otherwise.

The lines of a text are what `getline` takes from it, one after the other.
-/

namespace Csf.Lib

universe u

/-- `std::istream`, over the characters `α`. -/
structure Istream (α : Type u) where
  text : List α
  good : Bool
deriving DecidableEq, Repr

/-- A stream that nothing has been read from. -/
def Istream.new {α : Type u} (text : List α) : Istream α := { text := text, good := true }

variable {α : Type u} [DecidableEq α]

/-- `std::getline(is, str, delim)`: the string and the stream after it. -/
def getline (delim : α) (is : Istream α) (str : List α) : List α × Istream α :=
  if is.good then
    match is.text.dropWhile (· ≠ delim) with
    | [] => (is.text, { text := [], good := false })
    | _ :: rest => (is.text.takeWhile (· ≠ delim), { text := rest, good := true })
  else (str, is)

/-- The lines of a text; the last one may lack its delimiter. -/
def lines (delim : α) : List α → List (List α)
  | [] => []
  | c :: text =>
      if c = delim then [] :: lines delim text
      else match lines delim text with
        | [] => [[c]]
        | line :: more => (c :: line) :: more

variable {delim : α} {text part rest str : List α}

/-! ## `getline` -/

theorem span_delim (rest : List α) (h : delim ∉ part) :
    (part ++ delim :: rest).takeWhile (· ≠ delim) = part ∧
      (part ++ delim :: rest).dropWhile (· ≠ delim) = delim :: rest := by
  have hpos : ∀ c ∈ part, decide (c ≠ delim) = true := by
    intro c hc
    have hne : c ≠ delim := by
      rintro rfl
      exact h hc
    simpa using hne
  rw [List.takeWhile_append_of_pos hpos, List.dropWhile_append_of_pos hpos]
  simp

/-- Up to the delimiter, which is taken off the stream. -/
theorem getline_delim (h : delim ∉ part) (str : List α) :
    getline delim (.new (part ++ delim :: rest)) str = (part, .new rest) := by
  obtain ⟨htake, hdrop⟩ := span_delim rest h
  unfold getline
  simp only [Istream.new, if_true, hdrop, htake]

/-- Without a delimiter, up to the end. -/
theorem getline_end (h : delim ∉ text) (str : List α) :
    getline delim (.new text) str = (text, { text := [], good := false }) := by
  have hdrop : text.dropWhile (· ≠ delim) = [] := by
    rw [List.dropWhile_eq_nil_iff]
    intro c hc
    have hne : c ≠ delim := by
      rintro rfl
      exact h hc
    simpa using hne
  unfold getline
  simp only [Istream.new, if_true, hdrop]

/-- A text with a delimiter in it begins with its first field. -/
theorem getline_mem (h : delim ∈ text) (str : List α) :
    ∃ part rest, text = part ++ delim :: rest ∧ delim ∉ part ∧
      getline delim (.new text) str = (part, .new rest) := by
  obtain ⟨part, rest, rfl, hfirst⟩ := List.eq_append_cons_of_mem h
  exact ⟨part, rest, rfl, hfirst, getline_delim hfirst str⟩

/-- What is read begins the text. -/
theorem getline_begins (delim : α) (text str : List α) :
    (getline delim (.new text) str).1 <+: text := by
  by_cases h : delim ∈ text
  · obtain ⟨part, rest, rfl, -, hget⟩ := getline_mem h str
    rw [hget]
    exact List.prefix_append _ _
  · exact ⟨[], (List.append_nil _).trans (congrArg Prod.fst (getline_end h str))⟩

/-! ## Lines -/

theorem lines_delim (h : delim ∉ part) :
    lines delim (part ++ delim :: rest) = part :: lines delim rest := by
  induction part with
  | nil => simp [lines]
  | cons c part ih =>
      rw [List.mem_cons, not_or] at h
      rw [List.cons_append, lines, if_neg (Ne.symm h.1), ih h.2]

theorem lines_end (h : delim ∉ text) (hne : text ≠ []) : lines delim text = [text] := by
  induction text with
  | nil => exact absurd rfl hne
  | cons c text ih =>
      rw [List.mem_cons, not_or] at h
      rw [lines, if_neg (Ne.symm h.1)]
      rcases eq_or_ne text [] with rfl | htext
      · rfl
      · rw [ih h.2 htext]

/-- A stream at its end has no lines. -/
theorem lines_eq_nil_iff : lines delim text = [] ↔ text = [] := by
  constructor
  · intro h
    by_contra hne
    by_cases hmem : delim ∈ text
    · obtain ⟨part, rest, rfl, hfirst⟩ := List.eq_append_cons_of_mem hmem
      rw [lines_delim hfirst] at h
      exact absurd h (by simp)
    · rw [lines_end hmem hne] at h
      exact absurd h (by simp)
  · rintro rfl
    rfl

/-- As long as there are lines, `getline` takes the next one. -/
theorem lines_getline (hne : text ≠ []) (str : List α) :
    lines delim text = (getline delim (.new text) str).1 ::
      lines delim (getline delim (.new text) str).2.text := by
  by_cases h : delim ∈ text
  · obtain ⟨part, rest, rfl, hfirst, hget⟩ := getline_mem h str
    rw [hget, lines_delim hfirst]
    rfl
  · rw [getline_end h, lines_end h hne]
    rfl

/-! ## Streams that end where they are not good -/

/-- A stream that is not good has been read to its end. -/
def Istream.Sound (is : Istream α) : Prop := is.good = false → is.text = []

omit [DecidableEq α] in
theorem Istream.sound_new (text : List α) : (Istream.new text).Sound :=
  fun h => absurd h (by simp [Istream.new])

omit [DecidableEq α] in
/-- With text left, the stream is good. -/
theorem Istream.Sound.eq_new {is : Istream α} (h : is.Sound) (hne : is.text ≠ []) :
    is = .new is.text := by
  obtain ⟨text, good⟩ := is
  cases good with
  | true => rfl
  | false => exact absurd (h rfl) hne

theorem Istream.Sound.getline {is : Istream α} (h : is.Sound) (str : List α) :
    (getline delim is str).2.Sound := by
  obtain ⟨text, good⟩ := is
  cases good with
  | false => exact h
  | true =>
      show (Lib.getline delim (.new text) str).2.Sound
      by_cases hmem : delim ∈ text
      · obtain ⟨part, rest, -, -, hget⟩ := getline_mem hmem str
        rw [hget]
        exact Istream.sound_new rest
      · rw [getline_end hmem]
        exact fun _ => rfl

/-- At the end, an empty string stays empty, and so does the stream. -/
theorem Istream.getline_done {is : Istream α} (h : is.text = []) :
    Lib.getline delim is [] = ([], { text := [], good := false }) := by
  obtain ⟨text, good⟩ := is
  obtain rfl : text = [] := h
  cases good <;> rfl

end Csf.Lib
