import Csf.Hexdump.Funcs
import Csf.Lib.Hex
import Csf.Lib.Except

/-!
# Hexdump: the grammar of its output

One specification per C function in terms of the contents of its arrays, and
from them `main_eq`: on any non-empty results of `read` the program writes one
`line` per result. Every array access is in bounds and every string that is
written ends at the terminator its function stored.
-/

namespace Csf.Hexdump

open Csf.Lib Csf.Lib.Hex

/-- A byte as the right-hand column shows it. -/
def shown (b : UInt8) : UInt8 := if 32 ≤ b.toNat ∧ b.toNat ≤ 126 then b else 46

/-- One of the sixteen hex columns. -/
def column : Option UInt8 → List UInt8
  | some b => hexDigits 2 b.toNat ++ [32]
  | none => [32, 32, 32]

/-- The sixteen hex columns of a line. -/
def columns (bytes : List UInt8) : List UInt8 :=
  (List.range 16).flatMap fun i => column bytes[i]?

/-- The line of the `k`-th read result. -/
def line (k : Nat) (bytes : List UInt8) : List UInt8 :=
  hexDigits 8 (16 * k % 2 ^ 32) ++ [58, 32] ++ columns bytes ++ [32] ++ bytes.map shown ++ [10]

/-! ## Arrays -/

section

variable {n : Nat}

/-- Storing at the position after `a`. -/
theorem store_spec {s : Vector UInt8 n} {a c : List UInt8} {b : UInt8} (x : UInt8)
    (hs : s.toList = a ++ b :: c) :
    ∃ s', store s a.length x = .ok s' ∧ s'.toList = a ++ x :: c := by
  have hlen : a.length < n := by
    have := congrArg List.length hs
    simp at this
    omega
  refine ⟨s.set a.length x hlen, ?_, ?_⟩
  · simp [store, hlen]
  · rw [Vector.toList_set, hs]
    simp

theorem load_spec {s : Vector UInt8 n} {a c : List UInt8} {b : UInt8}
    (hs : s.toList = a ++ b :: c) : load s a.length = .ok b := by
  have hlen : a.length < n := by
    have := congrArg List.length hs
    simp at this
    omega
  rw [load, dif_pos hlen]
  have : s.toList[a.length]? = some b := by simp [hs]
  simpa [hlen] using this

/-! ## Strings -/

theorem stringLength_eq {t : List UInt8} (ht : ∀ c ∈ t, c ≠ 0) (rest : List UInt8) :
    ∀ length : Nat, length + t.length < 2 ^ 31 →
    stringLength (t ++ 0 :: rest) length = .ok (length + t.length) := by
  induction t with
  | nil =>
      intro length _
      rfl
  | cons c t ih =>
      intro length hlen
      rw [List.length_cons] at hlen
      have hc : c ≠ 0 := ht c List.mem_cons_self
      rw [List.cons_append, stringLength, if_neg hc, if_pos (by omega),
        ih (fun c hc => ht c (List.mem_cons_of_mem _ hc)) _ (by omega), List.length_cons]
      exact congrArg Except.ok (by omega)

/-- `hex_write_string` writes everything before the first NUL. -/
theorem hexWriteString_spec {s : Vector UInt8 n} {t rest : List UInt8}
    (hs : s.toList = t ++ 0 :: rest) (ht : ∀ c ∈ t, c ≠ 0) (hlen : t.length < 2 ^ 31) :
    hexWriteString s = .ok t := by
  rw [hexWriteString, hs, stringLength_eq ht rest 0 (by omega), ok_bind, Nat.zero_add,
    List.take_left]
  rfl

/-- A string of 2^31 characters is past the range of `length`. -/
theorem stringLength_overflow {t : List UInt8} (ht : ∀ c ∈ t, c ≠ 0) (rest : List UInt8) :
    ∀ length : Nat, length < 2 ^ 31 → 2 ^ 31 ≤ length + t.length →
    stringLength (t ++ rest) length = .error .undefined := by
  induction t with
  | nil =>
      intro length hlt hlen
      rw [List.length_nil] at hlen
      omega
  | cons c t ih =>
      intro length hlt hlen
      rw [List.length_cons] at hlen
      rw [List.cons_append, stringLength, if_neg (ht c List.mem_cons_self)]
      split
      · next hnext => exact ih (fun c hc => ht c (List.mem_cons_of_mem _ hc)) _ hnext (by omega)
      · rfl

/-! ## Digits -/

/-- The character the digit loop stores. -/
theorem digit_eq (value : UInt32) :
    (let temp := value % 16
     let temp := if temp < 10 then temp + 48 else temp + 87
     temp.toUInt8) = hexDigit (value.toNat % 16) := by
  have hlt : value.toNat % 16 < 16 := Nat.mod_lt _ (by decide)
  have hmod : (value % 16).toNat = value.toNat % 16 := by simp
  apply UInt8.toNat_inj.mp
  rw [toNat_hexDigit hlt]
  by_cases h : value % 16 < 10
  · have hlt10 : value.toNat % 16 < 10 := by
      have := UInt32.lt_iff_toNat_lt.mp h
      rwa [hmod] at this
    simp [h, hlt10]
    omega
  · have hge10 : ¬ value.toNat % 16 < 10 := fun hlt10 => h (UInt32.lt_iff_toNat_lt.mpr (by
      rw [hmod]
      exact hlt10))
    simp [h, hge10]
    omega

/-- The digit loop fills `m` zeros with the digits of a value of at most `m`
digits. -/
theorem formatDigits_spec (m : Nat) : ∀ (value : UInt32) (sbuf : Vector UInt8 n)
    (rest : List UInt8), sbuf.toList = List.replicate m 48 ++ rest → value.toNat < 16 ^ m →
    ∃ s', formatDigits value ((m : Int) - 1) sbuf = .ok s' ∧
      s'.toList = hexDigits m value.toNat ++ rest := by
  induction m with
  | zero =>
      intro value sbuf rest hs hv
      have h0 : value = 0 := UInt32.toNat_inj.mp (by simpa using hv)
      subst h0
      exact ⟨sbuf, by rw [formatDigits, dif_pos rfl], by simpa using hs⟩
  | succ m ih =>
      intro value sbuf rest hs hv
      by_cases h0 : value = 0
      · subst h0
        exact ⟨sbuf, by rw [formatDigits, dif_pos rfl], by simpa using hs⟩
      · have hs' : sbuf.toList = List.replicate m 48 ++ 48 :: rest := by
          rw [hs, List.replicate_succ']
          simp
        obtain ⟨s₁, hstore, hs₁⟩ := store_spec (hexDigit (value.toNat % 16)) hs'
        rw [List.length_replicate] at hstore
        have hnext : (value >>> 4).toNat = value.toNat / 16 := toNat_shiftRight_four value
        obtain ⟨s₂, hrest, hs₂⟩ := ih (value >>> 4) s₁ _ hs₁ (by
          rw [hnext, Nat.div_lt_iff_lt_mul (by decide), ← pow_succ]
          exact hv)
        refine ⟨s₂, ?_, ?_⟩
        · have hj : ((m + 1 : Nat) : Int) - 1 = m := by omega
          have hdigit := digit_eq value
          rw [formatDigits, dif_neg h0, hj]
          simp only [] at hdigit ⊢
          rw [hdigit, hstore]
          exact hrest
        · rw [hs₂, hnext, hexDigits, List.append_assoc]
          rfl

theorem fillZeros_spec (count : Nat) : ∀ (i : Nat) (sbuf : Vector UInt8 n)
    (rest : List UInt8), sbuf.toList = List.replicate i 48 ++ rest → count ≤ rest.length →
    ∃ s', fillZeros count i sbuf = .ok s' ∧
      s'.toList = List.replicate (i + count) 48 ++ rest.drop count := by
  induction count with
  | zero =>
      intro i sbuf rest hs _
      exact ⟨sbuf, rfl, hs⟩
  | succ count ih =>
      intro i sbuf rest hs hcount
      cases rest with
      | nil => simp at hcount
      | cons c rest =>
          obtain ⟨s₁, hstore, hs₁⟩ := store_spec 48 hs
          rw [List.length_replicate] at hstore
          obtain ⟨s₂, hfill, hs₂⟩ := ih (i + 1) s₁ rest (by
            rw [hs₁, List.replicate_succ', List.append_assoc]
            rfl) (by simpa using hcount)
          refine ⟨s₂, by rw [fillZeros, hstore, ok_bind, hfill], ?_⟩
          rw [hs₂, List.drop_succ_cons, Nat.add_assoc, Nat.add_comm 1 count]

end

/-- `hex_format_offset` stores the eight digits of the offset and a NUL, and nothing behind
them. -/
theorem hexFormatOffset_frame {m : Nat} (offset : UInt32) (sbuf : Vector UInt8 (9 + m)) :
    ∃ s', hexFormatOffset offset sbuf = .ok s' ∧
      s'.toList = hexDigits 8 offset.toNat ++ 0 :: sbuf.toList.drop 9 := by
  obtain ⟨s₁, hfill, hs₁⟩ := fillZeros_spec 8 0 sbuf sbuf.toList (by simp) (by simp; omega)
  rw [Nat.zero_add] at hs₁
  obtain ⟨c, rest, hc⟩ : ∃ c rest, sbuf.toList.drop 8 = c :: rest :=
    List.exists_cons_of_length_pos (by simp; omega)
  obtain ⟨s₂, hdigits, hs₂⟩ := formatDigits_spec 8 offset s₁ _ hs₁ offset.toNat_lt
  rw [hc] at hs₂
  obtain ⟨s₃, hstore, hs₃⟩ := store_spec 0 hs₂
  rw [length_hexDigits] at hstore
  have hrest : sbuf.toList.drop 9 = rest := by
    rw [← List.drop_drop (i := 1) (j := 8), hc]
    rfl
  refine ⟨s₃, ?_, by rw [hs₃, hrest]⟩
  rw [hexFormatOffset, hfill, ok_bind]
  refine (congrArg (· >>= _) hdigits).trans ?_
  exact hstore

theorem hexFormatOffset_spec (offset : UInt32) (sbuf : Vector UInt8 9) :
    ∃ s', hexFormatOffset offset sbuf = .ok s' ∧
      s'.toList = hexDigits 8 offset.toNat ++ [0] := by
  obtain ⟨s', hformat, hs'⟩ := hexFormatOffset_frame (m := 0) offset sbuf
  have hnothing : sbuf.toList.drop 9 = [] := List.drop_of_length_le (by simp)
  exact ⟨s', hformat, by rw [hs', hnothing]⟩

/-- Offsets as strings: eight lowercase digits of the offset, which differ as the offsets do
and have their order. -/
theorem hexFormatOffset_strings : ∃ string : UInt32 → List UInt8,
    (∀ (m : Nat) (offset : UInt32) (sbuf : Vector UInt8 (9 + m)), ∃ s',
      hexFormatOffset offset sbuf = .ok s' ∧
      s'.toList = string offset ++ 0 :: sbuf.toList.drop 9) ∧
    (∀ offset, (string offset).length = 8 ∧
      (∀ c ∈ string offset, IsDigit c ∧ lower c = c) ∧
      ofHexDigits (string offset) = offset.toNat) ∧
    Function.Injective string ∧ ∀ a b, string a < string b ↔ a < b := by
  refine ⟨fun offset => hexDigits 8 offset.toNat, fun m => hexFormatOffset_frame, ?_, ?_, ?_⟩
  · intro offset
    refine ⟨length_hexDigits 8 offset.toNat, fun c hc => ?_, ?_⟩
    · obtain ⟨d, hd, rfl⟩ := mem_hexDigits hc
      exact isDigit_hexDigit hd
    · have hlt : offset.toNat < 16 ^ 8 := offset.toNat_lt
      rw [ofHexDigits_hexDigits, Nat.mod_eq_of_lt hlt]
  · intro a b h
    exact UInt32.toNat_inj.mp ((hexDigits_inj a.toNat_lt b.toNat_lt).mp h)
  · intro a b
    rw [hexDigits_lt_iff a.toNat_lt b.toNat_lt, UInt32.lt_iff_toNat_lt]

/-- `hex_format_byte_as_hex` stores the two digits of the byte. -/
theorem hexFormatByteAsHex_spec (byteval : UInt8) (sbuf : Vector UInt8 3) :
    ∃ s', hexFormatByteAsHex byteval sbuf = .ok s' ∧
      s'.toList = hexDigits 2 byteval.toNat ++ [0] := by
  obtain ⟨a, b, c, habc⟩ : ∃ a b c, sbuf.toList = [a, b, c] := List.length_eq_three.mp (by simp)
  obtain ⟨s₁, h₁, hs₁⟩ := store_spec (a := []) 48 habc
  obtain ⟨s₂, h₂, hs₂⟩ := store_spec (a := [48]) 48 hs₁
  obtain ⟨s₃, h₃, hs₃⟩ := store_spec (a := [48, 48]) 0 hs₂
  have h₁ : store sbuf 0 48 = .ok s₁ := h₁
  have h₂ : store s₁ 1 48 = .ok s₂ := h₂
  have h₃ : store s₂ 2 0 = .ok s₃ := h₃
  have hbyte : byteval.toUInt32.toNat = byteval.toNat := by simp
  obtain ⟨s₄, h₄, hs₄⟩ := formatDigits_spec 2 byteval.toUInt32 s₃ [0] hs₃ (by
    rw [hbyte]
    exact byteval.toNat_lt)
  rw [hbyte] at hs₄
  refine ⟨s₄, ?_, hs₄⟩
  rw [hexFormatByteAsHex, h₁, ok_bind, h₂, ok_bind, h₃, ok_bind]
  exact h₄

/-! ## One line -/

theorem hexWriteString_space : hexWriteString space = .ok [32] := by rfl

theorem hexWriteString_colon : hexWriteString colon = .ok [58, 32] := by rfl

theorem hexWriteString_newline : hexWriteString newline = .ok [10] := by rfl

theorem shown_eq (b : UInt8) : hexToPrintable b = shown b := by
  have hlt : b < 32 ↔ b.toNat < 32 := UInt8.lt_iff_toNat_lt
  have hgt : b > 126 ↔ 126 < b.toNat := UInt8.lt_iff_toNat_lt
  unfold hexToPrintable shown
  simp only [hlt, hgt]
  split <;> split <;> first | rfl | omega

/-- A shown byte is printable. -/
theorem shown_range (b : UInt8) : 32 ≤ (shown b).toNat ∧ (shown b).toNat ≤ 126 := by
  unfold shown
  split
  · next h => exact h
  · decide

theorem ne_zero_of_range {c : UInt8} {lo : Nat} (hlo : 0 < lo) (h : lo ≤ c.toNat) : c ≠ 0 := by
  rintro rfl
  rw [UInt8.toNat_zero] at h
  omega

/-- One hex column. -/
theorem hexColumn_spec {dataBuf : Vector UInt8 17} {bytes rest : List UInt8}
    (hs : dataBuf.toList = bytes ++ rest) {nread : UInt32} (hn : nread.toNat = bytes.length)
    (i : Nat) (asciival : Vector UInt8 3) :
    ∃ asciival', hexColumn nread dataBuf i asciival = .ok (column bytes[i]?, asciival') := by
  by_cases hi : i < bytes.length
  · have hload : load dataBuf i = .ok bytes[i] := by
      have hsplit : dataBuf.toList = bytes.take i ++ bytes[i] :: (bytes.drop (i + 1) ++ rest) := by
        rw [hs, ← List.cons_append, List.getElem_cons_drop, ← List.append_assoc,
          List.take_append_drop]
      have := load_spec hsplit
      rwa [List.length_take, min_eq_left (Nat.le_of_lt hi)] at this
    obtain ⟨asciival', hformat, hascii⟩ := hexFormatByteAsHex_spec bytes[i] asciival
    have hwrite : hexWriteString asciival' = .ok (hexDigits 2 bytes[i].toNat) :=
      hexWriteString_spec hascii
        (fun c hc => ne_zero_of_range (by decide) (hexDigits_range hc).1) (by simp)
    refine ⟨asciival', ?_⟩
    simp only [hexColumn, hn, if_pos hi, hload, hformat, hwrite, hexWriteString_space, ok_bind,
      List.getElem?_eq_getElem hi]
    rfl
  · refine ⟨asciival, ?_⟩
    simp only [hexColumn, hn, if_neg hi, hexWriteString_space, ok_bind,
      List.getElem?_eq_none (Nat.le_of_not_lt hi)]
    rfl

theorem hexColumns_spec {dataBuf : Vector UInt8 17} {bytes rest : List UInt8}
    (hs : dataBuf.toList = bytes ++ rest) {nread : UInt32} (hn : nread.toNat = bytes.length) :
    ∀ (count i : Nat) (asciival : Vector UInt8 3),
    ∃ asciival', hexColumns nread dataBuf count i asciival =
      .ok ((List.range' i count).flatMap fun i => column bytes[i]?, asciival') := by
  intro count
  induction count with
  | zero =>
      intro i asciival
      exact ⟨asciival, rfl⟩
  | succ count ih =>
      intro i asciival
      obtain ⟨a₁, h₁⟩ := hexColumn_spec hs hn i asciival
      obtain ⟨a₂, h₂⟩ := ih (i + 1) a₁
      refine ⟨a₂, ?_⟩
      rw [hexColumns, h₁, ok_bind]
      simp only [h₂, ok_bind, List.range'_succ, List.flatMap_cons]
      rfl

/-- The loop over `data_buf` turns its first bytes into what is shown. -/
theorem printableLoop_spec (count : Nat) : ∀ (dataBuf : Vector UInt8 17)
    (front bytes rest : List UInt8), dataBuf.toList = front ++ bytes ++ rest →
    bytes.length = count →
    ∃ s', printableLoop count front.length dataBuf = .ok s' ∧
      s'.toList = front ++ bytes.map shown ++ rest := by
  induction count with
  | zero =>
      intro dataBuf front bytes rest hs hb
      rw [List.length_eq_zero_iff] at hb
      subst hb
      exact ⟨dataBuf, rfl, hs⟩
  | succ count ih =>
      intro dataBuf front bytes rest hs hb
      cases bytes with
      | nil => simp at hb
      | cons b bytes =>
          have hs' : dataBuf.toList = front ++ b :: (bytes ++ rest) := by simp [hs]
          obtain ⟨s₁, hstore, hs₁⟩ := store_spec (shown b) hs'
          obtain ⟨s₂, hloop, hs₂⟩ := ih s₁ (front ++ [shown b]) bytes rest
            (by simp [hs₁]) (by simpa using hb)
          refine ⟨s₂, ?_, by simp [hs₂]⟩
          rw [printableLoop, load_spec hs', ok_bind, shown_eq, hstore, ok_bind]
          simpa using hloop

/-- The body of the loop writes one line and advances the offset. -/
theorem printLine_spec {f : Frame} {bytes rest : List UInt8} {nread : UInt32} {k : Nat}
    (hs : f.dataBuf.toList = bytes ++ 0 :: rest) (hlen : bytes.length ≤ 16)
    (hn : nread.toNat = bytes.length) (hk : f.offset.toNat = 16 * k % 2 ^ 32) :
    ∃ f', printLine nread f = .ok (line k bytes, f') ∧ f'.offset = f.offset + 16 := by
  obtain ⟨offset2, hoffset, hoffset2⟩ := hexFormatOffset_spec f.offset f.offset2
  have haddress : hexWriteString offset2 = .ok (hexDigits 8 (16 * k % 2 ^ 32)) := by
    rw [← hk]
    exact hexWriteString_spec hoffset2
      (fun c hc => ne_zero_of_range (by decide) (hexDigits_range hc).1) (by simp)
  obtain ⟨asciival, hcolumns⟩ := hexColumns_spec hs hn 16 0 f.asciival
  obtain ⟨dataBuf, hprintable, hdata⟩ :=
    printableLoop_spec bytes.length f.dataBuf [] bytes (0 :: rest) hs rfl
  have htext : hexWriteString dataBuf = .ok (bytes.map shown) :=
    hexWriteString_spec hdata (by
      intro c hc
      obtain ⟨b, -, rfl⟩ := List.mem_map.mp hc
      exact ne_zero_of_range (by decide) (shown_range b).1) (by simp; omega)
  refine ⟨{ offset := f.offset + 16, dataBuf := dataBuf, offset2 := offset2
            asciival := asciival }, ?_, rfl⟩
  rw [List.length_nil] at hprintable
  simp only [printLine, hoffset, haddress, hexWriteString_colon, hcolumns, hexWriteString_space,
    hn, hprintable, htext, hexWriteString_newline, ok_bind]
  rw [← List.range_eq_range']
  rfl

/-! ## The whole output -/

/-- A chunk read into the buffer is followed by the terminator. -/
theorem hexRead_spec (chunk : Chunk) (dataBuf : Vector UInt8 17) :
    ∃ s' rest, hexRead (.bytes chunk) dataBuf = .ok (UInt32.ofNat chunk.val.length, s') ∧
      s'.toList = chunk.val ++ 0 :: rest := by
  obtain ⟨bytes, hlen⟩ := chunk
  have hn : (UInt32.ofNat bytes.length).toNat = bytes.length := by
    rw [UInt32.toNat_ofNat', Nat.mod_eq_of_lt (by omega)]
  obtain ⟨s₁, hread, hs₁⟩ : ∃ s₁, readInto bytes dataBuf = .ok s₁ ∧
      s₁.toList = bytes ++ dataBuf.toList.drop bytes.length :=
    ⟨_, dif_pos (by omega), by simp⟩
  cases hrest : dataBuf.toList.drop bytes.length with
  | nil =>
      have := congrArg List.length hrest
      simp at this
      omega
  | cons c rest =>
      rw [hrest] at hs₁
      obtain ⟨s₂, hstore, hs₂⟩ := store_spec 0 hs₁
      refine ⟨s₂, rest, ?_, hs₂⟩
      simp only [hexRead, hread, ok_bind, hn, hstore]
      rfl

/-- Non-empty results are written out line by line, whatever follows them. -/
theorem mainLoop_chunks (tail : List ReadResult) : ∀ (chunks : List Chunk) (k : Nat) (f : Frame),
    (∀ c ∈ chunks, c.val ≠ []) → f.offset.toNat = 16 * k % 2 ^ 32 →
    ∃ f', mainLoop (chunks.map .bytes ++ tail) f = (mainLoop tail f').map fun r =>
      ((chunks.mapIdx fun i c => line (k + i) c.val).flatten ++ r.1, r.2) := by
  intro chunks
  induction chunks with
  | nil =>
      intro k f _ _
      refine ⟨f, ?_⟩
      rw [List.map_nil, List.nil_append]
      cases mainLoop tail f <;> rfl
  | cons chunk chunks ih =>
      intro k f hne hk
      obtain ⟨s, r, hread, hs⟩ := hexRead_spec chunk f.dataBuf
      have hlen := chunk.property
      have hn : (UInt32.ofNat chunk.val.length).toNat = chunk.val.length := by
        rw [UInt32.toNat_ofNat', Nat.mod_eq_of_lt (by omega)]
      have hpos : ¬ UInt32.ofNat chunk.val.length = 0 := by
        intro h0
        rw [h0] at hn
        exact hne chunk List.mem_cons_self (List.length_eq_zero_iff.mp hn.symm)
      obtain ⟨f', hline, hoffset⟩ := printLine_spec (f := { f with dataBuf := s }) hs hlen hn hk
      have hk' : f'.offset.toNat = 16 * (k + 1) % 2 ^ 32 := by
        rw [hoffset, UInt32.toNat_add, hk]
        simp
        omega
      obtain ⟨f'', hrest⟩ := ih (k + 1) f' (fun c hc => hne c (List.mem_cons_of_mem _ hc)) hk'
      refine ⟨f'', ?_⟩
      simp only [List.map_cons, List.cons_append, mainLoop, hread, ok_bind, if_neg hpos, hline,
        hrest, List.mapIdx_cons, List.flatten_cons, Nat.add_zero]
      cases mainLoop tail f'' with
      | error e => rfl
      | ok r =>
          simp only [Except.map, ok_bind, Nat.add_assoc, Nat.add_comm 1, List.append_assoc]
          rfl

theorem mainLoop_eq (rest : List ReadResult) (chunks : List Chunk) (k : Nat) (f : Frame)
    (hne : ∀ c ∈ chunks, c.val ≠ []) (hk : f.offset.toNat = 16 * k % 2 ^ 32) :
    mainLoop (delivered chunks rest) f =
      .ok ((chunks.mapIdx fun i c => line (k + i) c.val).flatten, rest) := by
  obtain ⟨f', hmain⟩ := mainLoop_chunks (.bytes ⟨[], Nat.zero_le 16⟩ :: rest) chunks k f hne hk
  obtain ⟨s, r, hread, -⟩ := hexRead_spec ⟨[], Nat.zero_le 16⟩ f'.dataBuf
  have hstop : mainLoop (.bytes ⟨[], Nat.zero_le 16⟩ :: rest) f' = .ok ([], rest) := by
    simp only [mainLoop, hread, ok_bind]
    rfl
  rw [delivered, hmain, hstop, Except.map, List.append_nil]

/-- The lines of the dump of a list of read results. -/
def dumpLines (chunks : List Chunk) : List (List UInt8) := chunks.mapIdx fun k c => line k c.val

/-- The program writes one line per non-empty read result and stops at the
empty one. -/
theorem main_eq (locals : Frame) {chunks : List Chunk} (hne : ∀ c ∈ chunks, c.val ≠ [])
    (rest : List ReadResult) :
    main locals (delivered chunks rest) = .ok ((dumpLines chunks).flatten, rest) := by
  rw [main, mainLoop_eq rest chunks 0 _ hne rfl]
  simp only [Nat.zero_add]
  rfl

end Csf.Hexdump
