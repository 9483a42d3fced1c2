import Csf.Hexdump.Grammar

/-!
# Hexdump: reading a dump back

`readBack` cuts a dump into lines and reads the hex columns of each. It inverts
the program on every list of read results: the digits of a column never look
like padding, and nothing before a line's end is a newline.
-/

namespace Csf.Hexdump

open Csf.Lib Csf.Lib.Hex

/-- The lines of a text in which every line is ended by a newline. -/
def textLines (text : List UInt8) : List (List UInt8) := (text.splitOn 10).dropLast

/-- The byte in a hex column, if the column is not padding. -/
def readColumn (s : List UInt8) : Option UInt8 :=
  if s.head? = some 32 then none else some (UInt8.ofNat (ofHexDigits (s.take 2)))

/-- The bytes in the sixteen hex columns of a line. -/
def readColumns (l : List UInt8) : List UInt8 :=
  (List.range 16).filterMap fun i => readColumn ((l.drop (10 + 3 * i)).take 3)

/-- The bytes in the hex columns of all lines. -/
def readBack (text : List UInt8) : List UInt8 := (textLines text).flatMap readColumns

/-- A line up to its newline. -/
def lineBody (k : Nat) (bytes : List UInt8) : List UInt8 :=
  hexDigits 8 (16 * k % 2 ^ 32) ++ [58, 32] ++ columns bytes ++ [32] ++ bytes.map shown

/-! ## Lines -/

/-- Cutting a text at its newlines gives back the lines it was made of. -/
theorem textLines_flatten : ∀ {ls : List (List UInt8)}, (∀ l ∈ ls, (10 : UInt8) ∉ l) →
    textLines (ls.map (· ++ [10])).flatten = ls := by
  intro ls
  induction ls with
  | nil => exact fun _ => rfl
  | cons l ls ih =>
      intro h
      have hl := h l List.mem_cons_self
      have hrest := ih fun l' hl' => h l' (List.mem_cons_of_mem _ hl')
      unfold textLines at hrest ⊢
      rw [List.map_cons, List.flatten_cons, List.append_assoc, List.singleton_append,
        List.splitOn_append_cons_self, List.splitOn_eq_singleton hl, List.singleton_append,
        List.dropLast_cons_of_ne_nil (List.splitOn_ne_nil _ _), hrest]

theorem column_ne_newline {o : Option UInt8} {c : UInt8} (h : c ∈ column o) : c ≠ 10 := by
  cases o with
  | none =>
      rintro rfl
      exact absurd h (by decide)
  | some b =>
      rcases List.mem_append.mp h with h | h
      · rintro rfl
        exact absurd (hexDigits_range h).1 (by decide)
      · rw [List.mem_singleton.mp h]
        decide

theorem newline_notMem_lineBody (k : Nat) (bytes : List UInt8) :
    (10 : UInt8) ∉ lineBody k bytes := by
  simp only [lineBody, List.mem_append, not_or]
  refine ⟨⟨⟨⟨?_, by decide⟩, ?_⟩, by decide⟩, ?_⟩
  · exact fun h => absurd (hexDigits_range h).1 (by decide)
  · intro h
    obtain ⟨i, -, hi⟩ := List.mem_flatMap.mp h
    exact column_ne_newline hi rfl
  · intro h
    obtain ⟨b, -, hb⟩ := List.mem_map.mp h
    exact absurd (shown_range b).1 (by rw [hb]; decide)

theorem map_mapIdx {α β γ : Type*} (g : β → γ) (f : Nat → α → β) (l : List α) :
    (l.mapIdx f).map g = l.mapIdx fun i a => g (f i a) :=
  List.ext_getElem? fun i => by simp [Function.comp_def]

theorem dumpLines_eq (chunks : List Chunk) :
    dumpLines chunks = (chunks.mapIdx fun k c => lineBody k c.val).map (· ++ [10]) := by
  rw [dumpLines, map_mapIdx]
  rfl

/-- The lines of a dump. -/
theorem textLines_dump (chunks : List Chunk) :
    textLines (dumpLines chunks).flatten = chunks.mapIdx fun k c => lineBody k c.val := by
  rw [dumpLines_eq]
  refine textLines_flatten fun l hl => ?_
  obtain ⟨k, hk, rfl⟩ := List.mem_mapIdx.mp hl
  exact newline_notMem_lineBody k _

/-! ## Columns -/

theorem length_column (o : Option UInt8) : (column o).length = 3 := by
  cases o <;> simp [column]

theorem readColumn_column (o : Option UInt8) : readColumn (column o) = o := by
  cases o with
  | none => rfl
  | some b =>
      have hb := b.toNat_lt
      have hfirst : ∃ d rest, hexDigits 2 b.toNat = d :: rest ∧ d ≠ 32 := by
        cases h : hexDigits 2 b.toNat with
        | nil => exact absurd (congrArg List.length h) (by simp)
        | cons d rest =>
            refine ⟨d, rest, rfl, ?_⟩
            rintro rfl
            exact absurd (hexDigits_range (h ▸ List.mem_cons_self)).1 (by decide)
      obtain ⟨d, rest, hd, hne⟩ := hfirst
      have htake : (column (some b)).take 2 = hexDigits 2 b.toNat := by
        rw [column, List.take_append_of_le_length (by simp), List.take_of_length_le (by simp)]
      have hhead : (column (some b)).head? ≠ some 32 := by
        rw [column, hd]
        simpa using hne
      rw [readColumn, if_neg hhead, htake, ofHexDigits_hexDigits,
        Nat.mod_eq_of_lt (show b.toNat < 16 ^ 2 from hb)]
      simp

/-- Fields of a fixed width are found by their position. -/
theorem take_drop_flatMap {α β : Type*} {f : α → List β} {w : Nat} (hw : ∀ a, (f a).length = w)
    (rest : List β) : ∀ (l : List α) {i : Nat} (hi : i < l.length),
    ((l.flatMap f ++ rest).drop (w * i)).take w = f l[i] := by
  intro l
  induction l with
  | nil => exact fun hi => absurd hi (by simp)
  | cons a l ih =>
      intro i hi
      rw [List.flatMap_cons, List.append_assoc]
      cases i with
      | zero => rw [Nat.mul_zero, List.drop_zero, ← hw a, List.take_left]; rfl
      | succ i =>
          have hdrop : w * (i + 1) = (f a).length + w * i := by
            rw [hw a, Nat.mul_succ, Nat.add_comm]
          rw [hdrop, ← List.drop_drop, List.drop_left]
          exact ih (Nat.lt_of_succ_lt_succ hi)

theorem filterMap_getElem? {α : Type*} (l : List α) (n : Nat) :
    (List.range n).filterMap (fun i => l[i]?) = l.take n := by
  induction n with
  | zero => rfl
  | succ n ih =>
      rw [List.range_succ, List.filterMap_append, ih, List.take_add_one]
      cases h : l[n]? <;> simp [h]

/-- Reading the columns of a line gives the bytes of its read result. -/
theorem readColumns_lineBody (k : Nat) {bytes : List UInt8} (h : bytes.length ≤ 16) :
    readColumns (lineBody k bytes) = bytes := by
  have hfield : ∀ i ∈ List.range 16,
      readColumn (((lineBody k bytes).drop (10 + 3 * i)).take 3) = bytes[i]? := by
    intro i hi
    have hlt : i < (List.range 16).length := by simpa using hi
    have hhead : (hexDigits 8 (16 * k % 2 ^ 32) ++ [58, 32]).length = 10 := by simp
    have hbody : lineBody k bytes = (hexDigits 8 (16 * k % 2 ^ 32) ++ [58, 32]) ++
        ((List.range 16).flatMap (fun i => column bytes[i]?) ++ ([32] ++ bytes.map shown)) := by
      simp only [lineBody, columns, List.append_assoc]
    have hcolumn := take_drop_flatMap (fun i => length_column bytes[i]?)
      ([32] ++ bytes.map shown) (List.range 16) hlt
    rw [List.getElem_range] at hcolumn
    rw [hbody, ← hhead, ← List.drop_drop, List.drop_left, hcolumn, readColumn_column]
  rw [readColumns, List.filterMap_congr hfield, filterMap_getElem?, List.take_of_length_le h]

/-- The bytes on the lines of a dump, line by line. -/
theorem map_readColumns_dump (chunks : List Chunk) :
    (textLines (dumpLines chunks).flatten).map readColumns = chunks.map Subtype.val := by
  rw [textLines_dump, map_mapIdx]
  refine List.ext_getElem? fun i => ?_
  simp only [List.getElem?_mapIdx, List.getElem?_map]
  exact congrArg (Option.map · chunks[i]?) (funext fun c => readColumns_lineBody i c.property)

theorem readBack_dump (chunks : List Chunk) :
    readBack (dumpLines chunks).flatten = stream chunks := by
  rw [readBack, List.flatMap_def, map_readColumns_dump, stream]

/-- The output of the program on any non-empty read results has one line of the
grammar per result, and its hex columns are the input. -/
theorem main_lossless (locals : Frame) (chunks : List Chunk) (hne : ∀ c ∈ chunks, c.val ≠ [])
    (rest : List ReadResult) :
    ∃ out, main locals (delivered chunks rest) = .ok (out, rest) ∧
      out = (chunks.mapIdx fun k c => line k c.val).flatten ∧ readBack out = stream chunks :=
  ⟨_, main_eq locals hne rest, rfl, readBack_dump chunks⟩

/-- Locals as the stack may have left them. -/
def garbage : Frame :=
  { offset := 7, dataBuf := Vector.replicate 17 7, offset2 := Vector.replicate 9 7
    asciival := Vector.replicate 3 7 }

/-- A full result with a NUL and a newline in it, then a short one. -/
theorem main_lossless_two : ∃ out, main garbage (delivered
      [⟨[0, 10, 65, 200, 32, 126, 127, 255, 1, 2, 3, 4, 5, 6, 7, 8], by decide⟩,
        ⟨[104, 105], by decide⟩] []) = .ok (out, []) ∧
    readBack out = [0, 10, 65, 200, 32, 126, 127, 255, 1, 2, 3, 4, 5, 6, 7, 8, 104, 105] := by
  obtain ⟨out, hmain, -, hback⟩ := main_lossless garbage
    [⟨[0, 10, 65, 200, 32, 126, 127, 255, 1, 2, 3, 4, 5, 6, 7, 8], by decide⟩,
      ⟨[104, 105], by decide⟩] (by simp) []
  exact ⟨out, hmain, hback⟩

end Csf.Hexdump
