import Csf.CacheSim.Struct
import Csf.Lib.Conversion
import Csf.Lib.Except

/-!
# Cache simulator: geometry checks and address fields

`handle_error`, `is_power_of_two`, `log_2`, `readIndex` and `readTag`. The
field readers collect bits one at a time; `gatherBits_eq` reads the result as
a quotient and a remainder, and `readIndex_eq`, `readTag_eq` follow for every
geometry whose fields fit in 32 bits.
-/

namespace Csf.CacheSim

open Csf.Lib

/-! ## Powers of two -/

theorem toNat_shiftRight_one (n : UInt32) : (n >>> 1).toNat = n.toNat / 2 := by
  simp [Nat.shiftRight_eq_div_pow]

theorem shiftRight_one_ne_zero {n : UInt32} (h0 : n ≠ 0) (h1 : n ≠ 1) : n >>> 1 ≠ 0 := by
  intro h
  have hn := congrArg UInt32.toNat h
  rw [toNat_shiftRight_one] at hn
  have := mt UInt32.toNat_inj.mp h0
  have := mt UInt32.toNat_inj.mp h1
  simp at *
  omega

theorem toNat_shiftRight_one_lt {n : UInt32} (h0 : n ≠ 0) : (n >>> 1).toNat < n.toNat := by
  have := mt UInt32.toNat_inj.mp h0
  rw [toNat_shiftRight_one]
  simp at this
  omega

/-- The `while (n != 1)` loop of `is_power_of_two`. -/
def isPowerOfTwoLoop (n : UInt32) (hn : n ≠ 0) : Bool :=
  if h1 : n = 1 then true
  else if n % 2 ≠ 0 then false
  else isPowerOfTwoLoop (n >>> 1) (shiftRight_one_ne_zero hn h1)
termination_by n.toNat
decreasing_by exact toNat_shiftRight_one_lt hn

/-- `is_power_of_two` -/
def isPowerOfTwo (n : UInt32) : Bool :=
  if h : n = 0 then false else isPowerOfTwoLoop n h

/-- The loop of `log_2`, from a counter of `log`. -/
def log2Loop (i : UInt32) (hi : i ≠ 0) (log : UInt32) : UInt32 :=
  if h1 : i = 1 then log
  else log2Loop (i >>> 1) (shiftRight_one_ne_zero hi h1) (log + 1)
termination_by i.toNat
decreasing_by exact toNat_shiftRight_one_lt hi

/-- `log_2`; on 0 its loop shifts zero forever. -/
def log2 (num : UInt32) : Except Fault UInt32 :=
  if h : num = 0 then .error .diverges else .ok (log2Loop num h 0)

theorem isPowerOfTwoLoop_iff (n : UInt32) (hn : n ≠ 0) :
    isPowerOfTwoLoop n hn = true ↔ ∃ k, n.toNat = 2 ^ k := by
  fun_induction isPowerOfTwoLoop n hn with
  | case1 hn => exact ⟨fun _ => ⟨0, rfl⟩, fun _ => rfl⟩
  | case2 n hn h1 hodd =>
      simp only [Bool.false_eq_true, false_iff, not_exists]
      intro k hk
      -- an odd number other than 1 is no power of two
      have hmod := mt UInt32.toNat_inj.mp hodd
      have hne := mt UInt32.toNat_inj.mp h1
      simp only [UInt32.toNat_mod, UInt32.reduceToNat, hk] at hmod hne
      cases k with
      | zero => exact hne rfl
      | succ k => exact hmod (by rw [pow_succ]; omega)
  | case3 n hn h1 heven ih =>
      have hmod : n.toNat % 2 = 0 := by
        have := congrArg UInt32.toNat (not_not.mp heven)
        simpa using this
      have hne := mt UInt32.toNat_inj.mp h1
      simp only [UInt32.reduceToNat] at hne
      -- the loop goes on with half of an even number
      rw [ih, toNat_shiftRight_one]
      constructor
      · rintro ⟨k, hk⟩
        exact ⟨k + 1, by rw [pow_succ]; omega⟩
      · rintro ⟨k, hk⟩
        cases k with
        | zero => exact absurd hk hne
        | succ k => exact ⟨k, by rw [pow_succ] at hk; omega⟩

/-- `is_power_of_two` decides being a power of two. -/
theorem isPowerOfTwo_iff (n : UInt32) : isPowerOfTwo n = true ↔ ∃ k, n.toNat = 2 ^ k := by
  unfold isPowerOfTwo
  split
  · next h =>
      simp only [Bool.false_eq_true, false_iff, not_exists]
      intro k hk
      have : 0 < 2 ^ k := Nat.two_pow_pos k
      simp only [h, UInt32.toNat_zero] at hk
      omega
  · exact isPowerOfTwoLoop_iff n _

theorem log2Loop_eq {k : Nat} : ∀ {i : UInt32} (hi : i ≠ 0) (log : UInt32),
    i.toNat = 2 ^ k → log2Loop i hi log = log + UInt32.ofNat k := by
  induction k with
  | zero =>
      intro i hi log h
      have h1 : i = 1 := UInt32.toNat_inj.mp h
      rw [log2Loop, dif_pos h1]
      simp
  | succ k ih =>
      intro i hi log h
      have h1 : i ≠ 1 := by
        rintro rfl
        have : 0 < 2 ^ k := Nat.two_pow_pos k
        simp only [UInt32.toNat_one, pow_succ] at h
        omega
      rw [log2Loop, dif_neg h1, ih _ _ (by rw [toNat_shiftRight_one, h, pow_succ]; omega)]
      rw [UInt32.ofNat_add, UInt32.add_assoc, UInt32.add_comm 1]
      rfl

/-- On a power of two `log_2` returns its exponent. -/
theorem log2_eq {n : UInt32} {k : Nat} (h : n.toNat = 2 ^ k) :
    log2 n = .ok (UInt32.ofNat k) := by
  have h0 : n ≠ 0 := by
    rintro rfl
    have : 0 < 2 ^ k := Nat.two_pow_pos k
    simp only [UInt32.toNat_zero] at h
    omega
  rw [log2, dif_neg h0, log2Loop_eq h0 0 h, UInt32.zero_add]

/-- The exponent of a 32-bit power of two is below 32. -/
theorem exponent_lt {n : UInt32} {k : Nat} (h : n.toNat = 2 ^ k) : k < 32 :=
  (Nat.pow_lt_pow_iff_right (by decide : 1 < 2)).mp (h ▸ n.toNat_lt)

/-! ## `handle_error` -/

/-- `handle_error`: the lines it prints to `std::cerr` and the code it returns.
The test of `num_blocks` prints and goes on. -/
def handleError (cfg : Config) : List String × Nat :=
  if !isPowerOfTwo cfg.numSets then
    (["Number of sets must be a power of 2"], 1)
  else
    let printed :=
      if !isPowerOfTwo cfg.numBlocks then ["Number of blocks must be a power of 2"] else []
    if !isPowerOfTwo cfg.numBytes then
      (printed ++ ["Block size must be a power of 2"], 3)
    else if cfg.numBytes < 4 then
      (printed ++ ["Byte size in each block must be greater than 4."], 4)
    else if !cfg.allocation && !cfg.write then
      (printed ++ ["Write-back and no-write-allocate were both specified"], 5)
    else (printed, 0)

/-- What `handle_error` lets through. -/
structure Config.Accepted (cfg : Config) : Prop where
  numSets : ∃ k, cfg.numSets.toNat = 2 ^ k
  numBytes : ∃ k, cfg.numBytes.toNat = 2 ^ k
  minBytes : 4 ≤ cfg.numBytes.toNat
  policies : cfg.allocation = true ∨ cfg.write = true

/-- `handle_error` returns 0 exactly on the accepted configurations. -/
theorem handleError_eq_zero_iff (cfg : Config) :
    (handleError cfg).2 = 0 ↔ cfg.Accepted := by
  have hlt : cfg.numBytes < 4 ↔ cfg.numBytes.toNat < 4 := UInt32.lt_iff_toNat_lt
  constructor
  · intro h
    have hs : isPowerOfTwo cfg.numSets = true := by
      by_contra hs
      simp [handleError, Bool.eq_false_iff.mpr hs] at h
    have hb : isPowerOfTwo cfg.numBytes = true := by
      by_contra hb
      simp [handleError, hs, Bool.eq_false_iff.mpr hb] at h
    have h4 : ¬ cfg.numBytes < 4 := by
      intro h4
      simp [handleError, hs, hb, h4] at h
    have hp : ¬ (!cfg.allocation && !cfg.write) = true := by
      intro hp
      simp only [handleError, hs, hb, h4, hp, Bool.not_true, Bool.false_eq_true, if_false,
        if_true] at h
      exact absurd h (by decide)
    refine ⟨(isPowerOfTwo_iff _).mp hs, (isPowerOfTwo_iff _).mp hb, by rw [hlt] at h4; omega, ?_⟩
    simpa [or_iff_not_imp_left] using hp
  · rintro ⟨hs, hb, hmin, hp⟩
    have h4 : ¬ cfg.numBytes < 4 := by rw [hlt]; omega
    have hw : (!cfg.allocation && !cfg.write) = false := by
      rcases hp with h | h <;> simp [h]
    simp [handleError, (isPowerOfTwo_iff _).mpr hs, (isPowerOfTwo_iff _).mpr hb, h4, hw]

/-- A configuration whose three sizes are powers of two and whose cache can be
addressed with 32 bits. -/
structure Config.Geometry (cfg : Config) : Prop where
  numSets : ∃ k, cfg.numSets.toNat = 2 ^ k
  numBlocks : ∃ k, cfg.numBlocks.toNat = 2 ^ k
  numBytes : ∃ k, cfg.numBytes.toNat = 2 ^ k
  minBytes : 4 ≤ cfg.numBytes.toNat
  fits : cfg.numSets.toNat * cfg.numBytes.toNat ≤ 2 ^ 32

/-! ## Address fields -/

/-- `1 << n` in 32 bits: undefined from 32 on. -/
def shiftOne (n : UInt32) : Except Fault UInt32 :=
  if n < 32 then .ok (1 <<< n) else .error .undefined

/-- The loop shared by `readIndex` and `readTag`: `count` times, copy bit
`offset` of the address to bit `i` of the field and advance both. -/
def gatherBits (address : UInt32) :
    (count : Nat) → (i offset field : UInt32) → Except Fault UInt32
  | 0, _, _, field => .ok field
  | count + 1, i, offset, field => do
      let probe ← shiftOne offset
      let field ←
        if address &&& probe ≠ 0 then do
          let bit ← shiftOne i
          pure (field ||| bit)
        else pure field
      gatherBits address count (i + 1) (offset + 1) field

/-- How often `for (int i = 0; i < (int) size; i++)` runs. -/
def loopCount (size : UInt32) : Nat := size.toInt32.toInt.toNat

/-- `readIndex` -/
def readIndex (address numSets numBytes : UInt32) : Except Fault UInt32 := do
  let offset ← log2 numBytes
  let indexSize ← log2 numSets
  gatherBits address (loopCount indexSize) 0 offset 0

/-- `readTag` -/
def readTag (address numSets numBytes : UInt32) : Except Fault UInt32 := do
  let tagOffset := (← log2 numBytes) + (← log2 numSets)
  let tagSize := 32 - tagOffset
  gatherBits address (loopCount tagSize) 0 tagOffset 0

theorem loopCount_of_lt (size : UInt32) (h : size.toNat < 2 ^ 31) :
    loopCount size = size.toNat :=
  toNat_toInt_toInt32 h

theorem toNat_add_one {x : UInt32} (h : x.toNat + 1 < 2 ^ 32) : (x + 1).toNat = x.toNat + 1 := by
  rw [UInt32.toNat_add, UInt32.toNat_one, Nat.mod_eq_of_lt h]

theorem shiftOne_eq {n : UInt32} (h : n.toNat < 32) :
    shiftOne n = .ok (1 <<< n) ∧ ((1 : UInt32) <<< n).toNat = 2 ^ n.toNat := by
  refine ⟨if_pos (UInt32.lt_iff_toNat_lt.mpr h), ?_⟩
  have hpow : 2 ^ n.toNat < 2 ^ 32 := Nat.pow_lt_pow_right (by decide) h
  rw [UInt32.toNat_shiftLeft, UInt32.toNat_one, Nat.shiftLeft_eq, Nat.one_mul,
    Nat.mod_eq_of_lt h, Nat.mod_eq_of_lt hpow]

/-- Probing one bit of an address. -/
theorem and_probe_ne_zero {address probe : UInt32} {n : Nat} (h : probe.toNat = 2 ^ n) :
    address &&& probe ≠ 0 ↔ address.toNat / 2 ^ n % 2 = 1 := by
  have hbit : (address &&& probe).toNat = (address.toNat.testBit n).toNat * 2 ^ n := by
    rw [UInt32.toNat_and, h, Nat.and_two_pow]
  rw [ne_eq, ← UInt32.toNat_inj, hbit, UInt32.toNat_zero, ← Nat.toNat_testBit]
  cases address.toNat.testBit n <;> simp

/-- The bits gathered so far are the low digits of a quotient; each round of
the loop appends the next digit. -/
theorem gatherBits_eq (address : UInt32) : ∀ (count : Nat) (i offset field : UInt32),
    i.toNat + count ≤ 32 → offset.toNat + count ≤ 32 → field.toNat < 2 ^ i.toNat →
    ∃ r, gatherBits address count i offset field = .ok r ∧
      r.toNat = field.toNat + 2 ^ i.toNat * (address.toNat / 2 ^ offset.toNat % 2 ^ count) := by
  intro count
  induction count with
  | zero =>
      intro i offset field _ _ _
      exact ⟨field, rfl, by simp [Nat.mod_one]⟩
  | succ count ih =>
      intro i offset field hi ho hf
      obtain ⟨hprobe, hprobeVal⟩ := shiftOne_eq (n := offset) (by omega)
      obtain ⟨hbit, hbitVal⟩ := shiftOne_eq (n := i) (by omega)
      have hi' : (i + 1).toNat = i.toNat + 1 := toNat_add_one (by omega)
      have ho' : (offset + 1).toNat = offset.toNat + 1 := toNat_add_one (by omega)
      -- the remaining digits, once this one is split off
      have hsplit : address.toNat / 2 ^ offset.toNat % 2 ^ (count + 1) =
          address.toNat / 2 ^ offset.toNat % 2 +
            2 * (address.toNat / 2 ^ (offset.toNat + 1) % 2 ^ count) := by
        rw [pow_succ', Nat.mod_mul, Nat.div_div_eq_div_mul, ← pow_succ]
      unfold gatherBits
      simp only [hprobe, hbit, ok_bind]
      by_cases hset : address &&& (1 <<< offset) ≠ 0
      · have hone := (and_probe_ne_zero hprobeVal).mp hset
        have hor : (field ||| (1 <<< i)).toNat = field.toNat + 2 ^ i.toNat := by
          rw [UInt32.toNat_or, hbitVal, Nat.or_comm, ← Nat.mul_one (2 ^ i.toNat),
            ← Nat.two_pow_add_eq_or_of_lt hf]
          omega
        obtain ⟨r, hr, hval⟩ := ih (i + 1) (offset + 1) (field ||| (1 <<< i))
          (by omega) (by omega) (by rw [hor, hi', pow_succ]; omega)
        refine ⟨r, by simpa [if_pos hset] using hr, ?_⟩
        rw [hval, hor, hi', ho', hsplit, hone, pow_succ]
        ring
      · have hzero : address.toNat / 2 ^ offset.toNat % 2 = 0 := by
          have := mt (and_probe_ne_zero hprobeVal).mpr hset
          omega
        obtain ⟨r, hr, hval⟩ := ih (i + 1) (offset + 1) field (by omega) (by omega)
          (by rw [hi', pow_succ]; omega)
        refine ⟨r, by simpa [if_neg hset] using hr, ?_⟩
        rw [hval, hi', ho', hsplit, hzero, pow_succ]
        ring

/-- In a geometry that fits, `readIndex` is the block number modulo the number
of sets. -/
theorem readIndex_eq {numSets numBytes : UInt32} {s b : Nat} (hs : numSets.toNat = 2 ^ s)
    (hb : numBytes.toNat = 2 ^ b) (hfit : s + b ≤ 32) (address : UInt32) :
    ∃ r, readIndex address numSets numBytes = .ok r ∧
      r.toNat = address.toNat / numBytes.toNat % numSets.toNat := by
  have hsv : (UInt32.ofNat s).toNat = s := UInt32.toNat_ofNat_of_lt (by
    have := exponent_lt hs
    simp [UInt32.size]
    omega)
  have hbv : (UInt32.ofNat b).toNat = b := UInt32.toNat_ofNat_of_lt (by
    have := exponent_lt hb
    simp [UInt32.size]
    omega)
  obtain ⟨r, hr, hval⟩ := gatherBits_eq address s 0 (UInt32.ofNat b) 0
    (by simp; omega) (by rw [hbv]; omega) (by simp)
  refine ⟨r, ?_, ?_⟩
  · simp [readIndex, log2_eq hs, log2_eq hb, loopCount_of_lt (UInt32.ofNat s)
      (by rw [hsv]; omega), hsv, hr]
  · rw [hval, hbv, hs, hb]
    simp

/-- In a geometry that fits, `readTag` is the block number divided by the
number of sets. -/
theorem readTag_eq {numSets numBytes : UInt32} {s b : Nat} (hs : numSets.toNat = 2 ^ s)
    (hb : numBytes.toNat = 2 ^ b) (hfit : s + b ≤ 32) (address : UInt32) :
    ∃ r, readTag address numSets numBytes = .ok r ∧
      r.toNat = address.toNat / numBytes.toNat / numSets.toNat := by
  obtain ⟨o, ho, hov⟩ : ∃ o, UInt32.ofNat b + UInt32.ofNat s = o ∧ o.toNat = b + s := by
    refine ⟨_, rfl, ?_⟩
    rw [UInt32.toNat_add, UInt32.toNat_ofNat', UInt32.toNat_ofNat']
    omega
  obtain ⟨size, hsz, hsize⟩ : ∃ size, 32 - o = size ∧ size.toNat = 32 - (b + s) := by
    refine ⟨_, rfl, ?_⟩
    rw [UInt32.toNat_sub_of_le, hov]
    · rfl
    · rw [UInt32.le_iff_toNat_le, hov]
      exact (by omega : b + s ≤ 32)
  obtain ⟨r, hr, hval⟩ := gatherBits_eq address (32 - (b + s)) 0 o 0
    (by simp) (by rw [hov]; omega) (by simp)
  refine ⟨r, ?_, ?_⟩
  · simp only [readTag, log2_eq hs, log2_eq hb, ok_bind, ho, hsz,
      loopCount_of_lt size (by rw [hsize]; omega), hsize, hr]
  · have hlt : address.toNat / 2 ^ (b + s) < 2 ^ (32 - (b + s)) := by
      rw [Nat.div_lt_iff_lt_mul (Nat.two_pow_pos _), ← pow_add]
      exact (by simpa [show 32 - (b + s) + (b + s) = 32 by omega] using address.toNat_lt)
    rw [hval, hov, Nat.mod_eq_of_lt hlt, hs, hb, Nat.div_div_eq_div_mul, ← pow_add]
    simp

/-! ## Geometries that do not fit -/

/-- A field that could be gathered lies within the address. -/
theorem gatherBits_fits {address : UInt32} : ∀ {count : Nat} {i offset field r : UInt32},
    gatherBits address count i offset field = .ok r →
    count = 0 ∨ offset.toNat + count ≤ 32 := by
  intro count
  induction count with
  | zero => exact fun _ => .inl rfl
  | succ count ih =>
      intro i offset field r h
      right
      unfold gatherBits at h
      obtain ⟨probe, hprobe, h⟩ := bind_eq_ok.mp h
      have hlt : offset.toNat < 32 := by
        by_contra hge
        rw [shiftOne, if_neg (fun hlt => hge (UInt32.lt_iff_toNat_lt.mp hlt))] at hprobe
        exact absurd hprobe (by simp)
      have hnext : (offset + 1).toNat = offset.toNat + 1 := toNat_add_one (by omega)
      have hrest : ∃ i' field', gatherBits address count i' (offset + 1) field' = .ok r := by
        split at h
        · obtain ⟨bit, -, h⟩ := bind_eq_ok.mp h
          exact ⟨_, _, h⟩
        · exact ⟨_, _, h⟩
      obtain ⟨i', field', hrest⟩ := hrest
      rcases ih hrest with hzero | hle
      · omega
      · omega

/-- An address whose set index could be read comes from a geometry that fits. -/
theorem fits_of_readIndex {cfg : Config} (ha : cfg.Accepted) {address index : UInt32}
    (h : readIndex address cfg.numSets cfg.numBytes = .ok index) :
    cfg.numSets.toNat * cfg.numBytes.toNat ≤ 2 ^ 32 := by
  obtain ⟨s, hs⟩ := ha.numSets
  obtain ⟨b, hb⟩ := ha.numBytes
  have hs32 := exponent_lt hs
  have hb32 := exponent_lt hb
  have hsv : (UInt32.ofNat s).toNat = s := UInt32.toNat_ofNat_of_lt (by simp [UInt32.size]; omega)
  have hbv : (UInt32.ofNat b).toNat = b := UInt32.toNat_ofNat_of_lt (by simp [UInt32.size]; omega)
  simp only [readIndex, log2_eq hs, log2_eq hb, ok_bind] at h
  have hle : s + b ≤ 32 := by
    rcases gatherBits_fits h with hzero | hle
    · rw [loopCount_of_lt _ (by rw [hsv]; omega), hsv] at hzero
      omega
    · rw [loopCount_of_lt _ (by rw [hsv]; omega), hsv, hbv] at hle
      omega
  rw [hs, hb, ← pow_add]
  exact Nat.pow_le_pow_right (by decide) hle

/-- The fields of an address: no shift is undefined, they are the exact quotients, the index
is that of a set, and just the addresses of one block share them. -/
def FieldsExact (cfg : Config) (address : UInt32) : Prop :=
  ∃ index tag, readIndex address cfg.numSets cfg.numBytes = .ok index ∧
    readTag address cfg.numSets cfg.numBytes = .ok tag ∧
    index.toNat = address.toNat / cfg.numBytes.toNat % cfg.numSets.toNat ∧
    tag.toNat = address.toNat / (cfg.numBytes.toNat * cfg.numSets.toNat) ∧
    index.toNat < cfg.numSets.toNat ∧
    ∀ other : UInt32, readIndex other cfg.numSets cfg.numBytes = .ok index ∧
      readTag other cfg.numSets cfg.numBytes = .ok tag ↔
        other.toNat / cfg.numBytes.toNat = address.toNat / cfg.numBytes.toNat

theorem fieldsExact_of_fits {cfg : Config} (ha : cfg.Accepted)
    (hfit : cfg.numSets.toNat * cfg.numBytes.toNat ≤ 2 ^ 32) (address : UInt32) :
    FieldsExact cfg address := by
  obtain ⟨s, hs⟩ := ha.numSets
  obtain ⟨b, hb⟩ := ha.numBytes
  have hsum : s + b ≤ 32 := by
    rw [hs, hb, ← pow_add] at hfit
    exact (Nat.pow_le_pow_iff_right (by decide)).mp hfit
  have hsets : 0 < cfg.numSets.toNat := hs ▸ Nat.two_pow_pos s
  obtain ⟨index, hindex, hindexVal⟩ := readIndex_eq hs hb hsum address
  obtain ⟨tag, htag, htagVal⟩ := readTag_eq hs hb hsum address
  refine ⟨index, tag, hindex, htag, hindexVal, ?_, hindexVal ▸ Nat.mod_lt _ hsets, fun other => ?_⟩
  · rw [htagVal, Nat.div_div_eq_div_mul]
  · obtain ⟨index', hindex', hindexVal'⟩ := readIndex_eq hs hb hsum other
    obtain ⟨tag', htag', htagVal'⟩ := readTag_eq hs hb hsum other
    rw [hindex', htag', Except.ok.injEq, Except.ok.injEq, ← UInt32.toNat_inj, ← UInt32.toNat_inj,
      hindexVal, htagVal, hindexVal', htagVal']
    constructor
    · -- a block number is its quotient and its remainder by the number of sets
      rintro ⟨hmod, hdiv⟩
      rw [← Nat.div_add_mod (other.toNat / cfg.numBytes.toNat) cfg.numSets.toNat, hmod, hdiv,
        Nat.div_add_mod]
    · intro hblock
      rw [hblock]
      exact ⟨rfl, rfl⟩

/-- **Address fields.** In a configuration that `handle_error` lets through, the fields of
any address are the quotients exactly when the cache can be addressed with 32 bits. -/
theorem fieldsExact_iff_fits {cfg : Config} (ha : (handleError cfg).2 = 0) (address : UInt32) :
    FieldsExact cfg address ↔ cfg.numSets.toNat * cfg.numBytes.toNat ≤ 2 ^ 32 := by
  rw [handleError_eq_zero_iff] at ha
  constructor
  · -- where `readIndex` shifts by less than 32 throughout, the fields fit
    rintro ⟨index, tag, hindex, -⟩
    exact fits_of_readIndex ha hindex
  · exact fun hfit => fieldsExact_of_fits ha hfit address

/-- `2 ^ 16` sets of one block of `numBytes` bytes. -/
def manySets (numBytes : UInt32) : Config :=
  { numSets := 65536, numBlocks := 1, numBytes := numBytes, allocation := true, write := true
    lru := true }

theorem manySets_accepted {numBytes : UInt32} (hb : ∃ k, numBytes.toNat = 2 ^ k)
    (hmin : 4 ≤ numBytes.toNat) : (handleError (manySets numBytes)).2 = 0 :=
  (handleError_eq_zero_iff _).mpr ⟨⟨16, rfl⟩, hb, hmin, Or.inl rfl⟩

theorem fieldsExact_iff_fits_manySets : FieldsExact (manySets 65536) 0x12345678 :=
  (fieldsExact_iff_fits (manySets_accepted ⟨16, rfl⟩ (by decide)) _).mpr (by decide)

/-- With blocks of twice that size the fields of an address take up 33 bits. -/
theorem manySets_undefined :
    ¬∀ cfg : Config, (handleError cfg).2 = 0 → ∀ address, FieldsExact cfg address := by
  intro hall
  have haccept : (handleError (manySets 131072)).2 = 0 :=
    manySets_accepted ⟨17, rfl⟩ (by decide)
  obtain ⟨index, tag, hindex, -⟩ := hall (manySets 131072) haccept 0
  have hfit := fits_of_readIndex ((handleError_eq_zero_iff _).mp haccept) hindex
  exact absurd hfit (by decide)

end Csf.CacheSim
