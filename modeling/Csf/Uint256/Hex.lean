import Csf.Lib.Conversion
import Csf.Lib.Except
import Csf.Lib.Hex
import Csf.Uint256.Add

/-!
# 256-bit integers: hexadecimal

`uint256_create_from_hex` right-aligns its argument in a field of 64 digits and
reads four slices of 16 with `strtoul`; `uint256_format_as_hex` prints 64 digits
and removes the leading zeros. The blocks that `malloc` returns have contents that
nothing determines, and `strtoul` reads past the 16 bytes of a slice: `Heap` has
those bytes.
-/

namespace Csf.Uint256

open Csf.Lib.Hex

/-- A read or a write outside of its buffer. -/
inductive Fault where
  | write (index : ℕ)
  | read
deriving DecidableEq, Repr

/-- What memory holds: the first contents of `new_hex`, and the bytes that follow each
of the blocks `temp`. -/
structure Heap where
  newHex : Vector UInt8 65
  beyond : Fin 4 → List UInt8

/-! ## The C library -/

/-- `isspace` -/
def isSpace (c : UInt8) : Bool := c = 32 ∨ 9 ≤ c ∧ c ≤ 13

/-- `strncpy(dest, src, n)`: the bytes up to the first NUL, padded with NULs. -/
def strncpy (src : List UInt8) (n : ℕ) : List UInt8 :=
  let s := (src.takeWhile (· ≠ 0)).take n
  s ++ List.replicate (n - s.length) 0

/-- The value of the digits at the start of `s` and their number; `none` where the
memory ends before a byte that is not a digit. -/
def scanDigits : (s : List UInt8) → (v n : ℕ) → Option (ℕ × ℕ)
  | [], _, _ => none
  | c :: s, v, n =>
    if IsDigit c then scanDigits s (16 * v + digitValue (lower c)) (n + 1) else some (v, n)

/-- The prefix `0x`, where a digit follows it. -/
def prefixLength : List UInt8 → ℕ
  | 48 :: x :: c :: _ => if (x = 120 ∨ x = 88) ∧ IsDigit c then 2 else 0
  | _ => 0

/-- The result of `strtoul` on `n` digits of value `v`; it saturates. -/
def strtoulResult (negative : Bool) (v : ℕ) : UInt64 :=
  if 2 ^ 64 ≤ v then UInt64.ofNat (2 ^ 64 - 1)
  else if negative then -UInt64.ofNat v else UInt64.ofNat v

/-- `strtoul(s, &end, 16)`: the value and the index of `end`, which is the start of the
string where there is no digit. -/
def strtoul (s : List UInt8) : Option (UInt64 × ℕ) :=
  let blanks := (s.takeWhile isSpace).length
  let rest := s.dropWhile isSpace
  let sign := if rest.head? = some 43 ∨ rest.head? = some 45 then 1 else 0
  let start := sign + prefixLength (rest.drop sign)
  (scanDigits (rest.drop start) 0 0).map fun (v, n) =>
    if n = 0 then (0, 0) else (strtoulResult (rest.head? = some 45) v, blanks + start + n)

/-! ## The functions -/

/-- The first loop of `uint256_create_from_hex`, which fills `new_hex` with `0`. -/
def fillZeros (newHex : Vector UInt8 65) : Vector UInt8 65 :=
  (List.finRange 64).foldl
    (fun newHex (i : Fin 64) => newHex.set i 48 (Nat.lt_succ_of_lt i.isLt)) newHex

/-- The body of its second loop: the index is computed as a `size_t`. -/
def copyDigit (hex : List UInt8) (newHex : Vector UInt8 65) (i : ℕ) :
    Except Fault (Vector UInt8 65) :=
  let index := (64 - UInt64.ofNat hex.length + UInt64.ofNat i).toNat
  if h : index < 65 then .ok (newHex.set index (hex.getD i 0)) else .error (.write index)

/-- The second loop, which counts up to `(int)strlen(hex)`. -/
def copyHex (hex : List UInt8) (newHex : Vector UInt8 65) : Except Fault (Vector UInt8 65) :=
  (List.range (UInt32.ofNat hex.length).toInt32.toInt.toNat).foldlM (copyDigit hex) newHex

/-- The body of its third loop: the limb that slice `i` denotes. -/
def parseSlice (heap : Heap) (newHex : Vector UInt8 65) (i : Fin 4) : Except Fault UInt64 :=
  let temp := strncpy (newHex.toList.drop (i * 16)) 16
  match strtoul (temp ++ heap.beyond i) with
  | some (val, _) => .ok val
  | none => .error .read

/-- `uint256_create_from_hex`, of a string without its NUL. -/
def uint256CreateFromHex (heap : Heap) (hex : List UInt8) : Except Fault UInt256 := do
  let newHex ← copyHex hex (fillZeros heap.newHex)
  let data3 ← parseSlice heap newHex 0
  let data2 ← parseSlice heap newHex 1
  let data1 ← parseSlice heap newHex 2
  let data0 ← parseSlice heap newHex 3
  return { data := #v[data0, data1, data2, data3] }

/-- `sprintf(hex, "%016lx%016lx%016lx%016lx", ...)` -/
def printLimbs (val : UInt256) : List UInt8 :=
  hexDigits 16 (uint256GetBits val 3).toNat ++ hexDigits 16 (uint256GetBits val 2).toNat ++
    hexDigits 16 (uint256GetBits val 1).toNat ++ hexDigits 16 (uint256GetBits val 0).toNat

/-- The loop of `uint256_format_as_hex`. -/
def dropZeros : (hex : List UInt8) → List UInt8
  | [] => []
  | c :: hex =>
    if (c :: hex).length ≠ 1 then if c = 48 then dropZeros hex else c :: hex else c :: hex

/-- `uint256_format_as_hex` -/
def uint256FormatAsHex (val : UInt256) : List UInt8 := dropZeros (printLimbs val)

/-- No byte that follows a slice is a digit. -/
def Heap.Clean (heap : Heap) : Prop :=
  ∀ i, ∃ c rest, heap.beyond i = c :: rest ∧ ¬IsDigit c

/-! ## The C library on digits -/

theorem scanDigits_append {t : List UInt8} (ht : ∀ c ∈ t, IsDigit c) {c : UInt8}
    (hc : ¬IsDigit c) (rest : List UInt8) (v n : ℕ) :
    scanDigits (t ++ c :: rest) v n =
      some (v * 16 ^ t.length + ofHexDigits (t.map lower), n + t.length) := by
  induction t generalizing v n with
  | nil =>
      rw [List.nil_append, scanDigits, if_neg hc]
      simp [ofHexDigits]
  | cons d t ih =>
      have hd := ht d List.mem_cons_self
      have hsplit : ofHexDigits ((d :: t).map lower) =
          digitValue (lower d) * 16 ^ t.length + ofHexDigits (t.map lower) := by
        rw [List.map_cons, ← List.singleton_append, ofHexDigits_append, List.length_map]
        simp [ofHexDigits]
      rw [List.cons_append, scanDigits, if_pos hd, ih fun e he => ht e (List.mem_cons_of_mem _ he),
        hsplit, List.length_cons, pow_succ]
      congr 2
      · ring
      · omega

/-- The value of up to 16 digits fits a limb. -/
theorem ofHexDigits_lower_lt {t : List UInt8} (ht : ∀ c ∈ t, IsDigit c) :
    ofHexDigits (t.map lower) < 16 ^ t.length := by
  have hlower : ∀ c ∈ t.map lower, IsDigit c ∧ lower c = c := by
    intro c hc
    obtain ⟨d, hd, rfl⟩ := List.mem_map.mp hc
    obtain ⟨hlt, hback⟩ := hexDigit_digitValue (ht d hd)
    rw [← hback]
    exact isDigit_hexDigit hlt
  simpa using (hexDigits_ofHexDigits hlower).2

/-- A digit is none of the characters that `strtoul` skips, nor an `x` or a NUL. -/
theorem isDigit_plain {c : UInt8} (h : IsDigit c) :
    isSpace c = false ∧ c ≠ 43 ∧ c ≠ 45 ∧ c ≠ 120 ∧ c ≠ 88 ∧ c ≠ 0 := by
  rw [IsDigit] at h
  have hne : ∀ d : UInt8, c.toNat ≠ d.toNat → c ≠ d := fun d hd he => hd (congrArg _ he)
  refine ⟨?_, hne _ ?_, hne _ ?_, hne _ ?_, hne _ ?_, hne _ ?_⟩
  · have h32 : c ≠ 32 := hne _ (by simp; omega)
    have h13 : ¬c ≤ 13 := by rw [UInt8.le_iff_toNat_le]; simp; omega
    simp [isSpace, h32, h13]
  all_goals simp; omega

/-- `strtoul` on a slice of digits, whatever follows the first byte after it. -/
theorem strtoul_digits {t : List UInt8} (ht : ∀ c ∈ t, IsDigit c) (hlen : t.length = 16)
    {c : UInt8} (hc : ¬IsDigit c) (rest : List UInt8) :
    strtoul (t ++ c :: rest) = some (UInt64.ofNat (ofHexDigits (t.map lower)), 16) := by
  have hscan := scanDigits_append ht hc rest 0 0
  have hlt := ofHexDigits_lower_lt ht
  rw [hlen] at hscan hlt
  obtain ⟨a, b, t, rfl⟩ : ∃ a b t', t = a :: b :: t' := by
    match t, hlen with
    | a :: b :: t', _ => exact ⟨a, b, t', rfl⟩
  obtain ⟨hspace, hplus, hminus, -⟩ := isDigit_plain (ht a List.mem_cons_self)
  obtain ⟨-, -, -, hx, hX, -⟩ := isDigit_plain (ht b (by simp))
  -- neither a sign nor `0x` can begin a slice of digits: its second byte is no `x`
  have hprefix : prefixLength (a :: b :: (t ++ c :: rest)) = 0 := by
    unfold prefixLength
    split
    · next h =>
        obtain ⟨-, rfl, -⟩ : a = 48 ∧ b = _ ∧ t ++ c :: rest = _ := by simpa using h
        rw [if_neg]
        simp [hx, hX]
    · rfl
  rw [List.cons_append, List.cons_append] at hscan ⊢
  have hdrop : (a :: b :: (t ++ c :: rest)).dropWhile isSpace = a :: b :: (t ++ c :: rest) := by
    rw [List.dropWhile_cons, hspace]
    rfl
  have hblanks : (a :: b :: (t ++ c :: rest)).takeWhile isSpace = [] := by
    rw [List.takeWhile_cons, hspace]
    rfl
  -- sixteen digits do not overflow, so the value is not clamped
  have hresult : strtoulResult false (ofHexDigits ((a :: b :: t).map lower)) =
      UInt64.ofNat (ofHexDigits ((a :: b :: t).map lower)) := by
    rw [strtoulResult, if_neg (by omega), if_neg Bool.false_ne_true]
  rw [Nat.zero_mul, Nat.zero_add, Nat.zero_add] at hscan
  simp only [strtoul, hdrop, hblanks, List.head?_cons, Option.some.injEq, hplus, hminus, or_self,
    if_false, List.drop_zero, hprefix, Nat.add_zero, hscan, Option.map_some, decide_false, hresult]
  rfl

theorem strncpy_eq {src : List UInt8} {n : ℕ} (hlen : n ≤ src.length)
    (h : ∀ c ∈ src.take n, c ≠ 0) : strncpy src n = src.take n := by
  have htake : (src.takeWhile (· ≠ 0)).take n = src.take n := by
    have hsplit : (src.take n ++ src.drop n).takeWhile (· ≠ 0) =
        src.take n ++ (src.drop n).takeWhile (· ≠ 0) :=
      List.takeWhile_append_of_pos (by simpa using h)
    rw [List.take_append_drop] at hsplit
    rw [hsplit, List.take_append_of_le_length (by simp [hlen]), List.take_take, Nat.min_self]
  rw [strncpy, htake, List.length_take, Nat.min_eq_left hlen, Nat.sub_self, List.replicate_zero,
    List.append_nil]

/-! ## The field of 64 digits -/

theorem fillZeros_get (newHex : Vector UInt8 65) {j : ℕ} (hj : j < 64) :
    (fillZeros newHex)[j] = 48 := by
  have hfold : ∀ (l : List (Fin 64)) (b : Vector UInt8 65), (⟨j, hj⟩ ∈ l ∨ b[j] = 48) →
      (l.foldl (fun b (i : Fin 64) => b.set i 48 (Nat.lt_succ_of_lt i.isLt)) b)[j] = 48 := by
    intro l
    induction l with
    | nil =>
        intro b h
        exact h.resolve_left List.not_mem_nil
    | cons i l ih =>
        intro b h
        refine ih _ ?_
        by_cases hi : i = ⟨j, hj⟩
        · right
          rw [hi, Vector.getElem_set_self]
        · have hne : i.val ≠ j := fun he => hi (Fin.ext he)
          rcases h with h | h
          · exact Or.inl ((List.mem_cons.mp h).resolve_left (Ne.symm hi))
          · right
            rw [Vector.getElem_set_ne _ _ hne, h]
  exact hfold _ _ (Or.inl (List.mem_finRange _))

/-- The index computed for digit `i` of a string that fits the field. -/
theorem copyDigit_index {n i : ℕ} (hn : n ≤ 64) (hi : i < n) :
    (64 - UInt64.ofNat n + UInt64.ofNat i).toNat = 64 - n + i := by
  have h64 : (64 : UInt64).toNat = 64 := rfl
  have hle : UInt64.ofNat n ≤ 64 := by
    rw [UInt64.le_iff_toNat_le, UInt64.toNat_ofNat', h64]
    omega
  rw [UInt64.toNat_add, UInt64.toNat_sub_of_le _ _ hle, UInt64.toNat_ofNat', UInt64.toNat_ofNat',
    h64]
  omega

/-- After `n` rounds of the second loop, `n` digits are in place. -/
theorem copyHex_prefix (hex : List UInt8) (b : Vector UInt8 65) (hlen : hex.length ≤ 64) {n : ℕ}
    (hn : n ≤ hex.length) :
    ∃ b', (List.range n).foldlM (copyDigit hex) b = .ok b' ∧ ∀ (j : ℕ) (hj : j < 64), b'[j] =
      if 64 - hex.length ≤ j ∧ j < 64 - hex.length + n then hex.getD (j - (64 - hex.length)) 0
      else b[j] := by
  induction n with
  | zero =>
      refine ⟨b, rfl, fun j hj => ?_⟩
      rw [if_neg (by omega)]
  | succ n ih =>
      obtain ⟨b', hrun, hget⟩ := ih (by omega)
      have hindex := copyDigit_index hlen hn
      have hstep : copyDigit hex b' n =
          .ok (b'.set (64 - hex.length + n) (hex.getD n 0) (by omega)) := by
        unfold copyDigit
        simp only [hindex]
        rw [dif_pos (by omega)]
      refine ⟨b'.set (64 - hex.length + n) (hex.getD n 0) (by omega), ?_, fun j hj => ?_⟩
      · rw [List.range_succ, List.foldlM_append, hrun]
        show (List.foldlM (copyDigit hex) b' [n]) = _
        rw [List.foldlM_cons, hstep]
        rfl
      · rw [Vector.getElem_set, hget j hj]
        by_cases hj' : 64 - hex.length + n = j
        · rw [if_pos hj', if_pos (by omega), ← hj', Nat.add_sub_cancel_left]
        · rw [if_neg hj']
          congr 1
          exact propext (by omega)

/-- The field that a string is right-aligned in. -/
def pad (hex : List UInt8) : List UInt8 := List.replicate (64 - hex.length) 48 ++ hex

theorem length_pad {hex : List UInt8} (hlen : hex.length ≤ 64) : (pad hex).length = 64 := by
  rw [pad, List.length_append, List.length_replicate]
  omega

/-- The bound of the second loop is an `int` made of a `size_t`. -/
theorem copyHex_count {n : ℕ} (hn : n < 2 ^ 31) : (UInt32.ofNat n).toInt32.toInt.toNat = n := by
  have hnat : (UInt32.ofNat n).toNat = n := by
    rw [UInt32.toNat_ofNat']
    omega
  rw [Csf.Lib.toNat_toInt_toInt32 (by rw [hnat]; exact hn), hnat]

/-- The first two loops put the padded string into `new_hex`. -/
theorem copyHex_eq (hex : List UInt8) (b : Vector UInt8 65) (hlen : hex.length ≤ 64) :
    ∃ b', copyHex hex (fillZeros b) = .ok b' ∧ b'.toList.take 64 = pad hex := by
  obtain ⟨b', hrun, hget⟩ := copyHex_prefix hex (fillZeros b) hlen le_rfl
  refine ⟨b', by rw [copyHex, copyHex_count (by omega), hrun], ?_⟩
  have hpad := length_pad hlen
  refine List.ext_getElem (by simp [hpad]) fun j hj hj' => ?_
  rw [hpad] at hj'
  rw [List.getElem_take, Vector.getElem_toList, hget j hj', fillZeros_get b hj']
  by_cases hlow : j < 64 - hex.length
  · rw [if_neg (by omega)]
    simp only [pad]
    rw [List.getElem_append_left (by simpa using hlow), List.getElem_replicate]
  · rw [if_pos (by omega)]
    simp only [pad]
    rw [List.getElem_append_right (by simpa using hlow)]
    simp only [List.length_replicate]
    exact List.getD_eq_getElem _ _ _

/-- Slice `i` of the field. -/
def slice (hex : List UInt8) (i : ℕ) : List UInt8 := ((pad hex).drop (i * 16)).take 16

theorem pad_digits {hex : List UInt8} (hhex : ∀ c ∈ hex, IsDigit c) : ∀ c ∈ pad hex, IsDigit c := by
  intro c hc
  rcases List.mem_append.mp hc with hc | hc
  · rw [(List.mem_replicate.mp hc).2]
    exact Or.inl ⟨le_rfl, by decide⟩
  · exact hhex c hc

theorem slice_digits {hex : List UInt8} (hhex : ∀ c ∈ hex, IsDigit c) (hlen : hex.length ≤ 64)
    (i : Fin 4) : (∀ c ∈ slice hex i, IsDigit c) ∧ (slice hex i).length = 16 := by
  refine ⟨fun c hc => ?_, ?_⟩
  · exact pad_digits hhex c (List.mem_of_mem_drop (List.mem_of_mem_take hc))
  · rw [slice, List.length_take, List.length_drop, length_pad hlen]
    omega

/-- The number that the digits of a slice denote. -/
def sliceValue (hex : List UInt8) (i : ℕ) : ℕ := ofHexDigits ((slice hex i).map lower)

/-- A slice is parsed to its number. -/
theorem parseSlice_eq {heap : Heap} (hclean : heap.Clean) {hex : List UInt8}
    (hhex : ∀ c ∈ hex, IsDigit c) (hlen : hex.length ≤ 64) {b : Vector UInt8 65}
    (hb : b.toList.take 64 = pad hex) (i : Fin 4) :
    parseSlice heap b i = .ok (UInt64.ofNat (sliceValue hex i)) := by
  obtain ⟨hdigits, hlength⟩ := slice_digits hhex hlen i
  have hslice : (b.toList.drop (i * 16)).take 16 = slice hex i := by
    rw [slice, ← hb, List.drop_take, List.take_take, Nat.min_eq_left (by omega)]
  have hcopy : strncpy (b.toList.drop (i * 16)) 16 = slice hex i := by
    rw [strncpy_eq, hslice]
    · rw [List.length_drop, Vector.length_toList]
      omega
    · rw [hslice]
      exact fun c hc => (isDigit_plain (hdigits c hc)).2.2.2.2.2
  obtain ⟨c, rest, hbeyond, hc⟩ := hclean i
  rw [parseSlice, sliceValue]
  simp only [hcopy, hbeyond, strtoul_digits hdigits hlength hc]

/-- The numbers of the four slices make up that of the whole string. -/
theorem sliceValue_sum {hex : List UInt8} (hlen : hex.length ≤ 64) :
    ofHexDigits (hex.map lower) = sliceValue hex 3 + 2 ^ 64 * sliceValue hex 2 +
      2 ^ 128 * sliceValue hex 1 + 2 ^ 192 * sliceValue hex 0 := by
  have hpad : ofHexDigits ((pad hex).map lower) = ofHexDigits (hex.map lower) := by
    have hzeros : (List.replicate (64 - hex.length) (48 : UInt8)).map lower =
        List.replicate (64 - hex.length) 48 := by
      rw [List.map_replicate]
      rfl
    rw [pad, List.map_append, hzeros, ofHexDigits_append, ofHexDigits_replicate, Nat.zero_mul,
      Nat.zero_add]
  have hcut : ∀ i : ℕ, i < 4 → ofHexDigits (((pad hex).drop (i * 16)).map lower) =
      sliceValue hex i * 16 ^ (64 - (i + 1) * 16) +
        ofHexDigits (((pad hex).drop ((i + 1) * 16)).map lower) := by
    intro i hi
    have hdrop : ((pad hex).drop (i * 16)).drop 16 = (pad hex).drop ((i + 1) * 16) := by
      rw [List.drop_drop, Nat.succ_mul]
    have hlength : ((pad hex).drop ((i + 1) * 16)).length = 64 - (i + 1) * 16 := by
      rw [List.length_drop, length_pad hlen]
    nth_rewrite 1 [← List.take_append_drop 16 ((pad hex).drop (i * 16))]
    rw [List.map_append, ofHexDigits_append, hdrop, List.length_map, hlength, sliceValue, slice]
  have hend : ofHexDigits (((pad hex).drop 64).map lower) = 0 := by
    rw [List.drop_eq_nil_of_le (length_pad hlen).le]
    rfl
  -- one cut after each slice, the most significant first
  have h0 := hcut 0 (by decide)
  have h1 := hcut 1 (by decide)
  have h2 := hcut 2 (by decide)
  have h3 := hcut 3 (by decide)
  simp only [Nat.zero_mul, List.drop_zero, Nat.zero_add, Nat.one_mul, Nat.reduceMul, Nat.reduceAdd,
    Nat.reduceSub, Nat.reducePow] at h0 h1 h2 h3
  rw [← hpad]
  omega

/-- `uint256_create_from_hex` denotes the number that the digits do. -/
theorem create_value {heap : Heap} (hclean : heap.Clean) {hex : List UInt8}
    (hhex : ∀ c ∈ hex, IsDigit c) (hlen : hex.length ≤ 64) :
    ∃ v, uint256CreateFromHex heap hex = .ok v ∧ v.value = ofHexDigits (hex.map lower) := by
  obtain ⟨b, hcopy, hb⟩ := copyHex_eq hex heap.newHex hlen
  have hparse := parseSlice_eq hclean hhex hlen hb
  let limb (i : ℕ) : UInt64 := UInt64.ofNat (sliceValue hex i)
  have hlimb : ∀ i : Fin 4, (limb i).toNat = sliceValue hex i := by
    intro i
    obtain ⟨hdigits, hlength⟩ := slice_digits hhex hlen i
    have hlt := ofHexDigits_lower_lt hdigits
    rw [hlength] at hlt
    rw [UInt64.toNat_ofNat', Nat.mod_eq_of_lt]
    exact lt_of_lt_of_eq hlt (by decide)
  refine ⟨{ data := #v[limb 3, limb 2, limb 1, limb 0] }, ?_, ?_⟩
  · rw [uint256CreateFromHex, hcopy]
    simp only [Csf.Lib.ok_bind, hparse]
    rfl
  · have h0 := hlimb 0
    have h1 := hlimb 1
    have h2 := hlimb 2
    have h3 := hlimb 3
    rw [UInt256.value_eq, sliceValue_sum hlen]
    show (limb 3).toNat + 2 ^ 64 * (limb 2).toNat + 2 ^ 128 * (limb 1).toNat +
      2 ^ 192 * (limb 0).toNat = _
    exact congrArg₂ _ (congrArg₂ _ (congrArg₂ _ h3 (congrArg _ h2)) (congrArg _ h1))
      (congrArg _ h0)

/-! ## Formatting -/

theorem dropZeros_eq (s : List UInt8) : dropZeros s = stripZeros s := by
  induction s with
  | nil => rfl
  | cons c s ih =>
      cases s with
      | nil => rfl
      | cons d s =>
          rw [dropZeros, stripZeros, ih, if_pos]
          simp

/-- The four limbs print as the 64 digits of the number. -/
theorem printLimbs_eq (v : UInt256) : printLimbs v = hexDigits 64 v.value := by
  have hsplit : ∀ (n : ℕ) (x : UInt64) (y : ℕ),
      hexDigits (n + 16) (x.toNat + 2 ^ 64 * y) = hexDigits n y ++ hexDigits 16 x.toNat := by
    intro n x y
    have hx := x.toNat_lt
    rw [hexDigits_add, ← hexDigits_mod 16 (x.toNat + 2 ^ 64 * y)]
    congr 2 <;> omega
  have hvalue : v.value = v.data[0].toNat + 2 ^ 64 *
      (v.data[1].toNat + 2 ^ 64 * (v.data[2].toNat + 2 ^ 64 * v.data[3].toNat)) := by
    rw [v.value_eq]
    ring
  rw [hvalue, hsplit 48, hsplit 32, hsplit 16, printLimbs]
  rfl

/-- `uint256_format_as_hex` prints the numeral of the number. -/
theorem format_canonical (v : UInt256) : Canonical (uint256FormatAsHex v) v.value := by
  have hdigits : ∀ c ∈ printLimbs v, IsDigit c ∧ lower c = c := by
    intro c hc
    rw [printLimbs_eq] at hc
    obtain ⟨d, hd, rfl⟩ := mem_hexDigits hc
    exact isDigit_hexDigit hd
  have hne : printLimbs v ≠ [] := by
    rw [printLimbs_eq, ← List.length_pos_iff, length_hexDigits]
    exact Nat.succ_pos _
  have hcanonical := canonical_stripZeros hne hdigits
  have hlt := v.value_lt
  rw [printLimbs_eq, ofHexDigits_hexDigits, Nat.mod_eq_of_lt (lt_of_lt_of_eq hlt (by norm_num)),
    ← printLimbs_eq, ← dropZeros_eq] at hcanonical
  exact hcanonical

/-- The numeral of a value has at most 64 digits. -/
theorem format_length (v : UInt256) : (uint256FormatAsHex v).length ≤ 64 := by
  have hne : printLimbs v ≠ [] := by
    rw [printLimbs_eq, ← List.length_pos_iff, length_hexDigits]
    exact Nat.succ_pos _
  obtain ⟨⟨n, hn⟩, -⟩ := stripZeros_spec hne
  have hlen := congrArg List.length hn
  rw [printLimbs_eq, length_hexDigits, List.length_append, ← printLimbs_eq, ← dropZeros_eq] at hlen
  exact (Nat.le_add_left _ _).trans hlen.ge

/-- **Hexadecimal round trips.** A value is read back from its numeral, which is the
canonical one; a string of up to 64 digits comes back in lowercase without its leading
zeros. No byte behind a slice may continue its digits. -/
theorem hex_round_trip {heap : Heap} (hclean : heap.Clean) :
    (∀ v, uint256CreateFromHex heap (uint256FormatAsHex v) = .ok v ∧
      Canonical (uint256FormatAsHex v) v.value) ∧
    ∀ s : List UInt8, (∀ c ∈ s, IsDigit c) → 1 ≤ s.length → s.length ≤ 64 →
      (uint256CreateFromHex heap s).map uint256FormatAsHex = .ok (stripZeros (s.map lower)) := by
  refine ⟨fun v => ?_, fun s hs hone hlen => ?_⟩
  · have hcanonical := format_canonical v
    obtain ⟨w, hcreate, hvalue⟩ :=
      create_value hclean (fun c hc => (hcanonical.digits c hc).1) (format_length v)
    have hlower : (uint256FormatAsHex v).map lower = uint256FormatAsHex v :=
      (List.map_congr_left fun c hc => (hcanonical.digits c hc).2).trans (List.map_id _)
    rw [hlower, hcanonical.value] at hvalue
    exact ⟨hcreate.trans (congrArg _ (UInt256.value_injective hvalue)), hcanonical⟩
  · obtain ⟨v, hcreate, hvalue⟩ := create_value hclean hs hlen
    have hlower : ∀ c ∈ s.map lower, IsDigit c ∧ lower c = c := by
      intro c hc
      obtain ⟨d, hd, rfl⟩ := List.mem_map.mp hc
      obtain ⟨hlt, hback⟩ := hexDigit_digitValue (hs d hd)
      rw [← hback]
      exact isDigit_hexDigit hlt
    have hne : s.map lower ≠ [] := by
      rw [← List.length_pos_iff, List.length_map]
      exact hone
    -- a value has one canonical numeral, so this is the one that is printed
    have hcanonical := canonical_stripZeros hne hlower
    rw [← hvalue] at hcanonical
    rw [hcreate]
    exact congrArg Except.ok ((format_canonical v).unique hcanonical)

/-- Read back in memory that holds a NUL after each block. -/
theorem hex_round_trip_nul :
    Heap.Clean { newHex := Vector.replicate 65 0, beyond := fun _ => [0] } ∧
    uint256CreateFromHex { newHex := Vector.replicate 65 0, beyond := fun _ => [0] }
        (uint256FormatAsHex { data := #v[7, 0, 0, 1] }) = .ok { data := #v[7, 0, 0, 1] } ∧
    (uint256CreateFromHex { newHex := Vector.replicate 65 0, beyond := fun _ => [0] }
        [48, 48, 67, 97, 70]).map uint256FormatAsHex = .ok [99, 97, 102] := by
  have hclean : Heap.Clean { newHex := Vector.replicate 65 0, beyond := fun _ => [0] } :=
    fun _ => ⟨0, [], rfl, by decide⟩
  refine ⟨hclean, ((hex_round_trip hclean).1 _).1, ?_⟩
  rw [(hex_round_trip hclean).2 [48, 48, 67, 97, 70] (by decide +kernel) (by decide) (by decide)]
  exact congrArg Except.ok (by decide +kernel)

end Csf.Uint256
