import Mathlib

/-!
# Byte memory

A 64-bit byte-addressed memory with little-endian loads and stores of any
width. A window of memory is described from a base: `off base i` is the address
`i` bytes past it, and below 2^64 two such addresses are equal exactly when
their offsets are, so disjointness is arithmetic on natural numbers.
-/

namespace Csf.Lib.X86

abbrev Word := BitVec 64

abbrev Memory := Word → UInt8

/-- The `n` bytes from `a` on, as a number. -/
def readBytes (m : Memory) : (n : Nat) → (a : Word) → Nat
  | 0, _ => 0
  | n + 1, a => (m a).toNat + 256 * readBytes m n (a + 1)

/-- Store the low `n` bytes of `v` from `a` on. -/
def writeBytes (m : Memory) (n : Nat) (a : Word) (v : Nat) : Memory := fun x =>
  if (x - a).toNat < n then UInt8.ofNat (v / 256 ^ (x - a).toNat) else m x

/-- The address `i` bytes past `base`. -/
def off (base : Word) (i : Nat) : Word := base + BitVec.ofNat 64 i

section

variable {base : Word} {m : Memory}

@[simp] theorem off_add (base : Word) (i k : Nat) :
    off base i + BitVec.ofNat 64 k = off base (i + k) := by
  rw [off, off, BitVec.add_assoc, BitVec.ofNat_add]

@[simp] theorem off_sub {i k : Nat} (h : k ≤ i) :
    off base i - BitVec.ofNat 64 k = off base (i - k) := by
  obtain ⟨j, rfl⟩ := Nat.exists_eq_add_of_le' h
  rw [← off_add, Nat.add_sub_cancel, BitVec.add_sub_cancel]

/-- The distance between two addresses of a window. -/
theorem toNat_off_sub_off (base : Word) {i j : Nat} (hi : i < 2 ^ 64) (hj : j < 2 ^ 64) :
    (off base i - off base j).toNat = if j ≤ i then i - j else 2 ^ 64 + i - j := by
  have hdiff : off base i - off base j = BitVec.ofNat 64 i - BitVec.ofNat 64 j := by
    unfold off
    abel
  rw [hdiff, BitVec.toNat_sub, BitVec.toNat_ofNat, BitVec.toNat_ofNat, Nat.mod_eq_of_lt hi,
    Nat.mod_eq_of_lt hj]
  split <;> omega

/-- A store, seen from the window. -/
theorem writeBytes_off {n i j : Nat} {v : Nat} (hi : i < 2 ^ 64) (hj : j + n ≤ 2 ^ 64) :
    writeBytes m n (off base j) v (off base i) =
      if j ≤ i ∧ i < j + n then UInt8.ofNat (v / 256 ^ (i - j)) else m (off base i) := by
  rcases Nat.eq_zero_or_pos n with rfl | hn
  · simp [writeBytes]
  · have hdist := toNat_off_sub_off base hi (show j < 2 ^ 64 by omega)
    unfold writeBytes
    rw [hdist]
    by_cases h : j ≤ i
    · simp only [h, true_and, if_true]
      by_cases hlt : i < j + n
      · rw [if_pos (by omega), if_pos hlt]
      · rw [if_neg (by omega), if_neg hlt]
    · rw [if_neg (by rw [if_neg h]; omega), if_neg (fun hc => h hc.1)]

/-- A store outside a byte. -/
theorem writeBytes_off_of_outside {n i j : Nat} {v : Nat} (hi : i < 2 ^ 64)
    (hj : j + n ≤ 2 ^ 64) (h : i < j ∨ j + n ≤ i) :
    writeBytes m n (off base j) v (off base i) = m (off base i) := by
  rw [writeBytes_off hi hj, if_neg (by omega)]

theorem readBytes_lt (m : Memory) : ∀ (n : Nat) (a : Word), readBytes m n a < 256 ^ n := by
  intro n
  induction n with
  | zero => exact fun _ => by simp [readBytes]
  | succ n ih =>
      intro a
      have hhead := (m a).toNat_lt
      have htail := ih (a + 1)
      rw [readBytes, pow_succ]
      omega

/-- Loads see only the bytes they cover. -/
theorem readBytes_congr {m' : Memory} : ∀ {n i : Nat},
    (∀ k, i ≤ k → k < i + n → m' (off base k) = m (off base k)) →
    readBytes m' n (off base i) = readBytes m n (off base i) := by
  intro n
  induction n with
  | zero => exact fun _ => rfl
  | succ n ih =>
      intro i h
      have hnext : off base i + 1 = off base (i + 1) := off_add base i 1
      rw [readBytes, readBytes, h i (Nat.le_refl i) (by omega), hnext,
        ih fun k hk hk' => h k (by omega) (by omega)]

/-- Part of a store, read back. -/
theorem readBytes_writeBytes_part (base : Word) (m : Memory) {n : Nat} (v : Nat) {j : Nat}
    (hj : j + n ≤ 2 ^ 64) :
    ∀ {k d : Nat}, d + k ≤ n →
    readBytes (writeBytes m n (off base j) v) k (off base (j + d)) = v / 256 ^ d % 256 ^ k := by
  intro k
  induction k with
  | zero => exact fun _ => by simp [readBytes, Nat.mod_one]
  | succ k ih =>
      intro d hd
      have hnext : off base (j + d) + 1 = off base (j + (d + 1)) := off_add base (j + d) 1
      rw [readBytes, hnext, ih (by omega), writeBytes_off (by omega) hj, if_pos (by omega),
        Nat.add_sub_cancel_left, UInt8.toNat_ofNat', pow_succ 256 d, ← Nat.div_div_eq_div_mul,
        pow_succ' 256 k, Nat.mod_mul]

/-- What was stored is read back. -/
theorem readBytes_writeBytes {n v j : Nat} (hj : j + n ≤ 2 ^ 64) (hv : v < 256 ^ n) :
    readBytes (writeBytes m n (off base j) v) n (off base j) = v := by
  have hpart := readBytes_writeBytes_part base m v hj (show 0 + n ≤ n by omega)
  rwa [Nat.add_zero, pow_zero, Nat.div_one, Nat.mod_eq_of_lt hv] at hpart

theorem readBytes_one (m : Memory) (a : Word) : readBytes m 1 a = (m a).toNat := by
  simp [readBytes]

/-! ## Arrays in a window -/

/-- The bytes `l` lie in memory from offset `i` on. -/
def Holds (base : Word) (m : Memory) (i : Nat) (l : List UInt8) : Prop :=
  ∀ k b, l[k]? = some b → m (off base (i + k)) = b

theorem Holds.append_left {i : Nat} {l l' : List UInt8} (h : Holds base m i (l ++ l')) :
    Holds base m i l := by
  intro k b hk
  apply h k b
  rw [List.getElem?_append_left (List.getElem?_eq_some_iff.mp hk).1, hk]

theorem Holds.append_right {i : Nat} {l l' : List UInt8} (h : Holds base m i (l ++ l')) :
    Holds base m (i + l.length) l' := by
  intro k b hk
  rw [Nat.add_assoc]
  apply h (l.length + k) b
  rw [List.getElem?_append_right (by omega), Nat.add_sub_cancel_left, hk]

/-- An array and the byte behind it. -/
theorem Holds.concat {i : Nat} {l : List UInt8} (h : Holds base m i l) :
    Holds base m i (l ++ [m (off base (i + l.length))]) := by
  intro k b hk
  rw [List.getElem?_append] at hk
  split at hk
  · exact h k b hk
  · next hge =>
      have hk0 : k - l.length = 0 := by
        have := (List.getElem?_eq_some_iff.mp hk).1
        rw [List.length_singleton] at this
        omega
      rw [hk0] at hk
      rw [show k = l.length by omega]
      exact Option.some.inj hk

/-- The byte at a position of an array. -/
theorem Holds.head {i : Nat} {b : UInt8} {l : List UInt8} (h : Holds base m i (b :: l)) :
    m (off base i) = b := h 0 b rfl

/-- An array is where it was if none of its bytes changed. -/
theorem Holds.congr {m' : Memory} {i : Nat} {l : List UInt8} (h : Holds base m i l)
    (hm : ∀ k, i ≤ k → k < i + l.length → m' (off base k) = m (off base k)) :
    Holds base m' i l := by
  intro k b hk
  have hlt := (List.getElem?_eq_some_iff.mp hk).1
  rw [hm (i + k) (by omega) (by omega)]
  exact h k b hk

/-- Every stretch of memory holds some array. -/
theorem exists_holds (base : Word) (m : Memory) (i n : Nat) :
    ∃ l : List UInt8, l.length = n ∧ Holds base m i l := by
  refine ⟨(List.range n).map fun k => m (off base (i + k)), by simp, ?_⟩
  intro k b hk
  rw [List.getElem?_map] at hk
  obtain ⟨j, hj, rfl⟩ := Option.map_eq_some_iff.mp hk
  rw [List.getElem?_range (by
    have := (List.getElem?_eq_some_iff.mp hj).1
    simpa using this)] at hj
  rw [Option.some.inj hj]

/-- Overwriting one byte of an array. -/
theorem Holds.write {i : Nat} {l l' : List UInt8} {b c : UInt8} {v : Nat}
    (h : Holds base m i (l ++ b :: l')) (hc : UInt8.ofNat v = c)
    (hi : i + (l ++ b :: l').length ≤ 2 ^ 64) :
    Holds base (writeBytes m 1 (off base (i + l.length)) v) i (l ++ c :: l') := by
  rw [List.length_append, List.length_cons] at hi
  intro k d hk
  have hklt := (List.getElem?_eq_some_iff.mp hk).1
  rw [List.length_append, List.length_cons] at hklt
  rw [writeBytes_off (by omega) (by omega)]
  by_cases heq : k = l.length
  · subst heq
    rw [if_pos (by omega), Nat.sub_self, pow_zero, Nat.div_one, hc]
    simpa using hk
  · rw [if_neg (by omega)]
    apply h k d
    rw [List.getElem?_append] at hk ⊢
    split at hk
    · next hlt => rw [if_pos hlt, hk]
    · next hge =>
        rw [if_neg hge]
        obtain ⟨p, hp⟩ : ∃ p, k - l.length = p + 1 := ⟨k - l.length - 1, by omega⟩
        rw [hp] at hk ⊢
        exact hk

/-- Store the bytes of an array one after the other. -/
def storeAll (base : Word) (m : Memory) (i : Nat) : List UInt8 → Memory
  | [] => m
  | b :: l => storeAll base (writeBytes m 1 (off base i) b.toNat) (i + 1) l

theorem storeAll_of_outside {l : List UInt8} : ∀ {m : Memory} {i k : Nat}, k < 2 ^ 64 →
    i + l.length ≤ 2 ^ 64 → k < i ∨ i + l.length ≤ k →
    storeAll base m i l (off base k) = m (off base k) := by
  induction l with
  | nil => exact fun _ _ _ => rfl
  | cons b l ih =>
      intro m i k hk hi ho
      rw [List.length_cons] at hi ho
      rw [storeAll, ih hk (by omega) (by omega)]
      exact writeBytes_off_of_outside hk (by omega) (by omega)

theorem holds_storeAll {l : List UInt8} : ∀ {m : Memory} {i : Nat}, i + l.length ≤ 2 ^ 64 →
    Holds base (storeAll base m i l) i l := by
  induction l with
  | nil => exact fun _ k b hk => absurd hk (by simp)
  | cons b l ih =>
      intro m i hi k c hk
      rw [List.length_cons] at hi
      cases k with
      | zero =>
          have hc : b = c := Option.some.inj hk
          rw [Nat.add_zero, storeAll, storeAll_of_outside (by omega) (by omega) (by omega),
            writeBytes_off (by omega) (by omega), if_pos (by omega), Nat.sub_self, pow_zero,
            Nat.div_one, UInt8.ofNat_toNat, hc]
      | succ k =>
          have hpos : i + (k + 1) = i + 1 + k := by omega
          rw [hpos, storeAll]
          exact ih (by omega) k c hk

end

end Csf.Lib.X86
