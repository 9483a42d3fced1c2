import Csf.Hexdump.AsmFuncs

/-!
# Hexdump: where the assembly functions agree with the C functions

The assembly functions work on whole registers and signed bytes, the C functions
on the types they declare. The digit loops have no bound: with bits left above
the argument they store digits below `sbuf`. `hex_to_printable` compares all 64
bits, and `hex_write_string` stops at the first byte from 128 on, as well as at
the terminator.
-/

namespace Csf.Hexdump.Asm

open Csf.Lib Csf.Lib.Hex Csf.Lib.X86 Csf.Lib.X86.Reg

/-- Called with `v` in `%rdi` and `sbuf` at the address in `%rsi`, the assembly
function at `l` stores in `sbuf` what the C function does, and nothing anywhere
else in the memory of its caller. -/
def FormatsAlike (n : Nat) (l : Label)
    (format : Vector UInt8 n → Except Fault (Vector UInt8 n)) (v : Word) : Prop :=
  ∀ (lib : Libc) (base : Word) (ret d : Nat) (s : Cpu) (sbuf : Vector UInt8 n),
    Entered base (pos l) ret s → s.regs rdi = v → s.regs rsi = off base d → 72 ≤ d →
    d + n ≤ 2 ^ 64 → Holds base s.mem d sbuf.toList →
    ∃ sbuf', format sbuf = .ok sbuf' ∧
      Eventually program lib.run (fun s' => s'.pc = ret ∧ Holds base s'.mem d sbuf'.toList ∧
        Unchanged base (2 ^ 64) d (d + n) s.mem s'.mem) s

/-- `hex_format_offset` takes the low 32 bits of `v`. -/
def OffsetAlike (v : Word) : Prop :=
  FormatsAlike 9 .hexFormatOffset (hexFormatOffset (UInt32.ofNat v.toNat)) v

/-- `hex_format_byte_as_hex` takes the low 8 bits of `v`. -/
def ByteAlike (v : Word) : Prop :=
  FormatsAlike 3 .hexFormatByteAsHex (hexFormatByteAsHex (UInt8.ofNat v.toNat)) v

/-- `hex_to_printable` takes the low 8 bits of `v`: it returns the same low byte
as the C function, and stores nothing in the memory of its caller. -/
def PrintableAlike (v : Word) : Prop :=
  ∀ (lib : Libc) (base : Word) (ret : Nat) (s : Cpu), Entered base (pos .hexToPrintable) ret s →
    s.regs rdi = v →
    Eventually program lib.run (fun s' => s'.pc = ret ∧
      UInt8.ofNat (s'.regs rax).toNat = hexToPrintable (UInt8.ofNat v.toNat) ∧
      Unchanged base (2 ^ 64) 72 72 s.mem s'.mem) s

/-- Given `text` and a terminator, both versions of `hex_write_string` pass the
string and its length to `write`. -/
structure WritesAlike (text : List UInt8) : Prop where
  c : ∀ (n : Nat) (s : Vector UInt8 n) (rest : List UInt8), s.toList = text ++ 0 :: rest →
    hexWriteString s = .ok text
  asm : ∀ (lib : Libc) (base : Word) (ret d : Nat) (s : Cpu),
    Entered base (pos .hexWriteString) ret s → s.regs rdi = off base d → 72 ≤ d →
    d + text.length < 2 ^ 64 → Holds base s.mem d (text ++ [0]) →
    Eventually program lib.run (fun u => program[u.pc]? = some (.external .write) ∧
      u.regs rdi = 1 ∧ u.regs rsi = off base d ∧ (u.regs rdx).toNat = text.length ∧
      Holds base u.mem d text) s

/-! ## Digits below the buffer -/

section

variable {base : Word} {top ret d n : Nat} {valueReg indexReg : Reg} {slots : List Reg} {s : Cpu}
  {ext : Extern → Cpu → Option Cpu} {loop finish : Nat} {Q : Cpu → Prop}

theorem hexDigit_ne_zero {v : Nat} (h : v < 16) : hexDigit v ≠ 0 := by
  intro hzero
  have hval := toNat_hexDigit h
  rw [hzero] at hval
  split at hval
  all_goals
    have : (0 : UInt8).toNat = 0 := rfl
    omega

/-- The address `j + 1` bytes below the buffer. -/
theorem off_below {j : Nat} (hj : j + 1 ≤ d) (hj' : j < 2 ^ 64) :
    off base d + (BitVec.ofNat 64 (2 ^ 64 - j) - 1) = off base (d - j - 1) := by
  have hsub : (BitVec.ofNat 64 (2 ^ 64 - j) : Word) = - BitVec.ofNat 64 j := by
    apply BitVec.eq_of_toNat_eq
    rw [BitVec.toNat_neg, BitVec.toNat_ofNat, BitVec.toNat_ofNat, Nat.mod_eq_of_lt hj']
  have hone : off base (d - j - 1) + BitVec.ofNat 64 (j + 1) = off base d := by
    rw [off_add]
    congr 1
    omega
  rw [hsub, ← hone, BitVec.ofNat_add]
  show _ + (BitVec.ofNat 64 j + 1) + (-BitVec.ofNat 64 j - 1) = _
  abel

/-- A round past the front of the buffer: `j` digits are below it already. -/
theorem DigitLoop.overrun {j v : Nat} {digits : List UInt8} {c : UInt8} {t t' : Cpu}
    (h : DigitLoop base top ret d n valueReg indexReg slots { s with mem := t.mem } (2 ^ 64 - j) v
      digits t) (hd : 72 + j < d) (hd' : d + digits.length ≤ 2 ^ 64) (hj : j < 2 ^ 64)
    (hdepth : slots.length ≤ 7) (hst : Stored valueReg indexReg slots c t t') :
    DigitLoop base top ret d n valueReg indexReg slots { s with mem := t'.mem } (2 ^ 64 - (j + 1))
      (v / 16) digits t' ∧
    t'.mem (off base (d - j - 1)) = c ∧
    ∀ i, d - j ≤ i → i < 2 ^ 64 → t'.mem (off base i) = t.mem (off base i) := by
  obtain ⟨w, hw, hmem⟩ := hst.mem
  rw [h.buffer, h.position, off_below (by omega) hj] at hmem
  have hout : ∀ i, i < 2 ^ 64 → i < d - j - 1 ∨ d - j ≤ i →
      t'.mem (off base i) = t.mem (off base i) := by
    intro i hi ho
    rw [hmem]
    exact writeBytes_off_of_outside hi (by omega) (by omega)
  refine ⟨⟨?_, ?_, ?_, ?_, ?_, ?_⟩, ?_, fun i hi hi' => hout i hi' (.inr hi)⟩
  · have hmoved := (h.inside.rebase (d - j - 1) (d - j)).mono (by omega) hdepth
      (hst.regs rsp (by simp)) hst.saved fun i _ hi ho =>
        hout i (lt_of_lt_of_le hi h.inside.top_le) ho
    exact hmoved.rebase d (d + n)
  · rw [hst.regs rsi (by simp), h.buffer]
  · rw [hst.value, h.value]
  · rw [hst.position, h.position, show 2 ^ 64 - j = 2 ^ 64 - (j + 1) + 1 by omega,
      BitVec.ofNat_add]
    exact congrArg (· - 1) (BitVec.add_sub_cancel _ _)
  · exact h.holds.congr fun i hi hi' => hout i (by omega) (by omega)
  · rw [hst.world, h.world]
  · rw [hmem, writeBytes_off (by omega) (by omega), if_pos (by omega), Nat.sub_self, pow_zero,
      Nat.div_one, hw]

theorem DigitLoop.rebase {m v : Nat} {digits : List UInt8} {t : Cpu}
    (h : DigitLoop base top ret d n valueReg indexReg slots s m v digits t) :
    DigitLoop base top ret d n valueReg indexReg slots { s with mem := t.mem } m v digits t :=
  ⟨h.inside.rebase d (d + n), h.buffer, h.value, h.position, h.holds, h.world⟩

variable (base top ret s) in
/-- With digits left over, the loop ends with one of them right below the buffer.
At most `k` digits are left, and `j` are below the buffer already. -/
theorem Rounds.overrun (h : Rounds ext loop finish n valueReg indexReg slots)
    (hdepth : slots.length ≤ 7) {digits : List UInt8} (hd' : d + digits.length ≤ 2 ^ 64)
    (htop : d ≤ top)
    (hfinish : ∀ (t' : Cpu) (m : Nat), t'.pc = finish →
      DigitLoop base top ret d n valueReg indexReg slots { s with mem := t'.mem } m 0 digits t' →
      t'.mem (off base (d - 1)) ≠ 0 → Eventually program ext Q t') (k : Nat) :
    ∀ (j v : Nat) (t : Cpu), t.pc = loop →
    DigitLoop base top ret d n valueReg indexReg slots { s with mem := t.mem } (2 ^ 64 - j) v
      digits t → v < 16 ^ k → 72 + j + k < d →
    (0 < j ∨ v = 0 → t.mem (off base (d - 1)) ≠ 0) → Eventually program ext Q t := by
  -- a test changes nothing outside the buffer
  have hkept : ∀ {j v : Nat} {t t' : Cpu}, 72 + j < d →
      DigitLoop base top ret d n valueReg indexReg slots { s with mem := t.mem } (2 ^ 64 - j) v
        digits t' → t'.mem (off base (d - 1)) = t.mem (off base (d - 1)) :=
    fun hj h' => h'.inside.unchanged (d - 1) (by omega) (by omega) (.inl (by omega))
  have hstop : ∀ {j : Nat} {t t' : Cpu}, 72 + j < d → t'.pc = finish →
      DigitLoop base top ret d n valueReg indexReg slots { s with mem := t.mem } (2 ^ 64 - j) 0
        digits t' → t.mem (off base (d - 1)) ≠ 0 → Eventually program ext Q t' := by
    intro j t t' hj hpc' h' hbelow
    refine hfinish t' _ hpc' h'.rebase ?_
    rw [hkept hj h']
    exact hbelow
  induction k with
  | zero =>
      intro j v t hpc hloop hv hd hbelow
      have hv0 : v = 0 := by simpa using hv
      subst hv0
      exact h Q base top ret d _ t _ 0 digits (by omega) hpc hloop
        (fun _ t' hpc' h' => hstop (by omega) hpc' h' (hbelow (.inr rfl)))
        fun hne => absurd rfl hne
  | succ k ih =>
      intro j v t hpc hloop hv hd hbelow
      refine h Q base top ret d _ t _ v digits (by omega) hpc hloop (fun hv0 t' hpc' h' => ?_)
        fun _ t₁ t₂ h₁ hst hpc₂ => ?_
      · subst hv0
        exact hstop (by omega) hpc' h' (hbelow (.inr rfl))
      · have hle := h₁.inside.top_le
        obtain ⟨h₂, hstored, hrest⟩ :=
          h₁.rebase.overrun (by omega) hd' (by omega) hdepth hst
        refine ih (j + 1) (v / 16) t₂ hpc₂ h₂ ?_ (by omega) fun _ => ?_
        · rw [Nat.div_lt_iff_lt_mul (by omega), ← pow_succ]
          exact hv
        · rcases Nat.eq_zero_or_pos j with rfl | hj
          · rw [Nat.sub_zero] at hstored
            rw [hstored]
            exact hexDigit_ne_zero (Nat.mod_lt _ (by omega))
          · rw [hrest (d - 1) (by omega) (by omega), hkept (by omega) h₁]
            exact hbelow (.inl hj)

/-- A buffer that is full is at the front of the loop. -/
theorem DigitLoop.front {v : Nat} {digits : List UInt8} {t : Cpu}
    (h : DigitLoop base top ret d n valueReg indexReg slots s 0 v digits t) :
    DigitLoop base top ret d n valueReg indexReg slots { s with mem := t.mem } (2 ^ 64 - 0) v
      digits t :=
  ⟨h.rebase.inside, h.buffer, h.value, h.position, h.holds, h.world⟩

variable (base top ret s) in
/-- A value of more than `m` digits in a buffer for `m`. -/
theorem Rounds.fill_overrun (h : Rounds ext loop finish n valueReg indexReg slots)
    (hdepth : slots.length ≤ 7) (hd' : d + n ≤ 2 ^ 64) (htop : d ≤ top) {m k v : Nat} {t : Cpu}
    {rest : List UInt8} (hpc : t.pc = loop)
    (hloop : DigitLoop base top ret d n valueReg indexReg slots s m v
      (List.replicate m 48 ++ rest) t)
    (hlen : m + rest.length = n) (hv : 16 ^ m ≤ v) (hk : v < 16 ^ (m + k)) (hd : 72 + k < d)
    (hfinish : ∀ (t' : Cpu) (m' : Nat), t'.pc = finish →
      DigitLoop base top ret d n valueReg indexReg slots { s with mem := t'.mem } m' 0
        (hexDigits m v ++ rest) t' →
      t'.mem (off base (d - 1)) ≠ 0 → Eventually program ext Q t') :
    Eventually program ext Q t := by
  refine h.fill base top ret s (by omega) hd' hdepth m t rest v hpc hloop hlen
    (fun _ _ _ _ hsmall => absurd hsmall (Nat.not_lt_of_le hv)) fun t₁ hpc₁ h₁ hover => ?_
  have hdigits : (hexDigits m v ++ rest).length = n := by
    rw [List.length_append, length_hexDigits, hlen]
  refine h.overrun base top ret s hdepth (by rw [hdigits]; exact hd') htop hfinish k 0 _ t₁ hpc₁
    h₁.front ?_ (by omega) ?_
  · rw [Nat.div_lt_iff_lt_mul (by positivity), ← pow_add, Nat.add_comm k m]
    exact hk
  · rintro (hj | hzero)
    · exact absurd hj (by omega)
    · exact absurd hzero hover

/-- More than eight digits. -/
theorem hexFormatOffset_overrun (h : Entered base (pos .hexFormatOffset) ret s)
    (hsi : s.regs rsi = off base d) (hd : 96 ≤ d) (hd' : d + 9 ≤ 2 ^ 64)
    (hv : 2 ^ 32 ≤ (s.regs rdi).toNat) :
    Eventually program ext (fun s' => s'.pc = ret ∧ s'.mem (off base (d - 1)) ≠ 0) s := by
  refine fillChar_enter (show 72 ≤ 2 ^ 64 by omega) (le_refl _) h hsi (by omega) hd'
    fun t last hpc hloop => ?_
  refine fillChar_rounds.fill_overrun base (2 ^ 64) ret s (k := 8) (by decide) hd' (by omega) hpc
    hloop rfl hv (s.regs rdi).isLt (by omega) fun t₂ m hpc₂ h₂ hbelow => ?_
  refine (finishFormat_run (by omega) hd' hpc₂ (by simp) h₂).trans fun t' ht => .now ?_
  obtain ⟨hdone, -, -⟩ := ht
  refine ⟨hdone.pc, ?_⟩
  rw [hdone.unchanged (d - 1) (by omega) (by omega) (.inl (by omega))]
  exact hbelow

/-- More than two digits. -/
theorem hexFormatByteAsHex_overrun (h : Entered base (pos .hexFormatByteAsHex) ret s)
    (hsi : s.regs rsi = off base d) (hd : 96 ≤ d) (hd' : d + 3 ≤ 2 ^ 64)
    (hv : 2 ^ 8 ≤ (s.regs rdi).toNat) :
    Eventually program ext (fun s' => s'.pc = ret ∧ s'.mem (off base (d - 1)) ≠ 0) s := by
  refine formatByteLoop_enter (show 72 ≤ 2 ^ 64 by omega) (le_refl _) h hsi (by omega) hd'
    fun t hpc hloop => ?_
  refine formatByteLoop_rounds.fill_overrun base (2 ^ 64) ret s (k := 14) (by decide) hd'
    (by omega) hpc hloop rfl hv (s.regs rdi).isLt (by omega) fun t₂ m hpc₂ h₂ hbelow => ?_
  refine (formatByteFinish_run (by omega) hpc₂ h₂).trans fun t' ht => .now ?_
  obtain ⟨hdone, -, -⟩ := ht
  refine ⟨hdone.pc, ?_⟩
  rw [hdone.unchanged (d - 1) (by omega) (by omega) (.inl (by omega))]
  exact hbelow

end

/-! ## Calls that go wrong -/

/-- On entry to a function with `v` in `%rdi`, `bytes` 96 bytes into a memory of
zeros, and a return address behind the program. -/
def entry (l : Label) (v : Word) (bytes : List UInt8) : Cpu :=
  { pc := pos l
    regs := fun r => if r = rsp then off 0 64 else if r = rsi then off 0 96 else v
    mem := storeAll 0 (writeBytes (fun _ => 0) 8 (off 0 64) program.length) 96 bytes
    flags := none
    world := { input := [], output := [] } }

theorem entered_entry (l : Label) (v : Word) {bytes : List UInt8}
    (hlen : 96 + bytes.length ≤ 2 ^ 64) :
    Entered 0 (pos l) program.length (entry l v bytes) := by
  refine ⟨rfl, rfl, ?_⟩
  show readBytes (storeAll 0 _ 96 bytes) 8 (off 0 64) = _
  rw [readBytes_congr fun k hk hk' => storeAll_of_outside (by omega) hlen (by omega)]
  exact readBytes_writeBytes (by omega) (lt_of_lt_of_le length_program (by omega))

/-- Behind the program a run is over. -/
theorem step_behind {lib : Libc} {t : Cpu} (hpc : t.pc = program.length) :
    step program lib.run t = none := by
  rw [step, List.getElem?_eq_none_iff.mpr (by omega)]

/-- A digit right below the buffer is one too many. -/
theorem not_formatsAlike_of_overrun {n : Nat} {l : Label}
    {format : Vector UInt8 n → Except Fault (Vector UInt8 n)} {v : Word} (hn : 96 + n ≤ 2 ^ 64)
    (hrun : Eventually program quietLibc.run
      (fun s' => s'.pc = program.length ∧ s'.mem (off 0 (96 - 1)) ≠ 0) (entry l v [])) :
    ¬ FormatsAlike n l format v := by
  intro h
  have hentered : Entered 0 (pos l) program.length (entry l v []) := entered_entry l v (by decide)
  obtain ⟨buf, hlen, hholds⟩ := exists_holds 0 (entry l v []).mem 96 n
  obtain ⟨sbuf', -, hformat⟩ := h quietLibc 0 program.length 96 _ ⟨buf.toArray, by simp [hlen]⟩
    hentered rfl rfl (by omega) hn (by simpa using hholds)
  obtain ⟨t, ⟨-, -, hunchanged⟩, -, hdigit⟩ :=
    hformat.meet hrun (fun t ht => step_behind ht.1) fun t ht => step_behind ht.1
  apply hdigit
  rw [hunchanged (96 - 1) (by omega) (by omega) (.inl (by omega))]
  show writeBytes (fun _ => 0) 8 (off 0 64) program.length (off 0 (96 - 1)) = 0
  exact writeBytes_off_of_outside (by omega) (by omega) (by omega)

theorem offsetAlike_iff (v : Word) : OffsetAlike v ↔ v.toNat < 2 ^ 32 := by
  constructor
  · intro h
    by_contra hv
    refine not_formatsAlike_of_overrun (by omega) ?_ h
    exact hexFormatOffset_overrun (entered_entry _ v (by decide)) rfl (le_refl _) (by omega)
      (Nat.le_of_not_lt hv)
  · intro hv lib base ret d s sbuf hs hdi hsi hd hd' _
    obtain ⟨sbuf', hformat, hdigits⟩ := hexFormatOffset_spec (UInt32.ofNat v.toNat) sbuf
    refine ⟨sbuf', hformat, ?_⟩
    refine (hexFormatOffset_run (show 72 ≤ 2 ^ 64 by omega) (le_refl _) hs hsi hd hd'
      (by rw [hdi]; exact hv)).trans fun t ht => .now ?_
    obtain ⟨hdone, hholds, -⟩ := ht
    refine ⟨hdone.pc, ?_, hdone.unchanged⟩
    rw [hdigits, UInt32.toNat_ofNat', Nat.mod_eq_of_lt hv, ← hdi]
    exact hholds

theorem byteAlike_iff (v : Word) : ByteAlike v ↔ v.toNat < 2 ^ 8 := by
  constructor
  · intro h
    by_contra hv
    refine not_formatsAlike_of_overrun (by omega) ?_ h
    exact hexFormatByteAsHex_overrun (entered_entry _ v (by decide)) rfl (le_refl _) (by omega)
      (Nat.le_of_not_lt hv)
  · intro hv lib base ret d s sbuf hs hdi hsi hd hd' _
    have hbyte : (s.regs rdi).toNat = (UInt8.ofNat v.toNat).toNat := by
      rw [hdi, UInt8.toNat_ofNat', Nat.mod_eq_of_lt hv]
    obtain ⟨sbuf', hformat, hdigits⟩ := hexFormatByteAsHex_spec (UInt8.ofNat v.toNat) sbuf
    refine ⟨sbuf', hformat, ?_⟩
    refine (hexFormatByteAsHex_run (show 72 ≤ 2 ^ 64 by omega) (le_refl _) hs hsi hd hd'
      hbyte).trans fun t ht => .now ?_
    obtain ⟨hdone, hholds, -⟩ := ht
    refine ⟨hdone.pc, ?_, hdone.unchanged⟩
    rw [hdigits]
    exact hholds

/-- What `hex_to_printable` returns against what the C function returns. -/
theorem printable_eq_iff (v : Word) :
    UInt8.ofNat (if 32 ≤ v.toNat ∧ v.toNat ≤ 126 then v else 46).toNat =
        hexToPrintable (UInt8.ofNat v.toNat) ↔
      v.toNat < 2 ^ 8 ∨ v.toNat % 2 ^ 8 < 32 ∨ 126 < v.toNat % 2 ^ 8 ∨ v.toNat % 2 ^ 8 = 46 := by
  have hbyte : (UInt8.ofNat v.toNat).toNat = v.toNat % 2 ^ 8 := UInt8.toNat_ofNat'
  have hperiod : UInt8.ofNat (46 : Word).toNat = 46 := rfl
  rw [shown_eq, shown, hbyte]
  by_cases hv : 32 ≤ v.toNat ∧ v.toNat ≤ 126
  · have hmod : v.toNat % 2 ^ 8 = v.toNat := Nat.mod_eq_of_lt (by omega)
    rw [if_pos hv, hmod, if_pos hv]
    exact iff_of_true rfl (.inl (by omega))
  · rw [if_neg hv, hperiod]
    split
    · rw [← UInt8.toNat_inj, hbyte]
      show 46 = _ ↔ _
      omega
    · exact iff_of_true rfl (by omega)

theorem printableAlike_iff (v : Word) : PrintableAlike v ↔
    v.toNat < 2 ^ 8 ∨ v.toNat % 2 ^ 8 < 32 ∨ 126 < v.toNat % 2 ^ 8 ∨ v.toNat % 2 ^ 8 = 46 := by
  rw [← printable_eq_iff]
  constructor
  · intro h
    have hentered : Entered 0 (pos .hexToPrintable) program.length (entry .hexToPrintable v []) :=
      entered_entry _ v (by decide)
    have hdi : (entry .hexToPrintable v []).regs rdi = v := rfl
    have hrun : Eventually program quietLibc.run _ (entry .hexToPrintable v []) :=
      hexToPrintable_run (show 72 ≤ 2 ^ 64 by omega) (le_refl _) hentered hdi
    obtain ⟨t, ⟨-, hresult, -⟩, -, hrax, -⟩ :=
      (h quietLibc 0 program.length _ hentered hdi).meet hrun (fun t ht => step_behind ht.1)
        fun t ht => step_behind ht.1.pc
    rw [← hresult, hrax]
  · intro hv lib base ret s hs hdi
    refine (hexToPrintable_run (show 72 ≤ 2 ^ 64 by omega) (le_refl _) hs hdi).trans
      fun t ht => .now ?_
    obtain ⟨hdone, hrax, -, -⟩ := ht
    exact ⟨hdone.pc, by rw [hrax, hv], hdone.unchanged⟩

/-- Each function agrees with the C function of its name on the contents of
`%rdi` that fit the type the C function declares; `hex_to_printable` does on
those as well whose low byte is shown as a period anyway. -/
theorem arguments_alike_iff (v : Word) :
    (OffsetAlike v ↔ v.toNat < 2 ^ 32) ∧ (ByteAlike v ↔ v.toNat < 2 ^ 8) ∧
    (PrintableAlike v ↔ v.toNat < 2 ^ 8 ∨ v.toNat % 2 ^ 8 < 32 ∨ 126 < v.toNat % 2 ^ 8 ∨
      v.toNat % 2 ^ 8 = 46) :=
  ⟨offsetAlike_iff v, byteAlike_iff v, printableAlike_iff v⟩

/-- A bit above the argument. -/
theorem high_bit_disagrees :
    ¬ OffsetAlike 0x100000000 ∧ ¬ ByteAlike 0x141 ∧ ¬ PrintableAlike 0x141 := by
  rw [offsetAlike_iff, byteAlike_iff, printableAlike_iff]
  decide

/-! ## Strings -/

section

variable {text : List UInt8}

/-- A string with a byte from 128 on, up to the first such byte. -/
theorem exists_high (h : ¬ ∀ c ∈ text, c.toNat < 128) :
    ∃ (front : List UInt8) (high : UInt8) (back : List UInt8), text = front ++ high :: back ∧
      128 ≤ high.toNat ∧ ∀ c ∈ front, c.toNat < 128 := by
  induction text with
  | nil => exact absurd (by simp) h
  | cons c text ih =>
      by_cases hc : c.toNat < 128
      · have htext : ¬ ∀ c ∈ text, c.toNat < 128 := fun hall => h (by
          intro c' hc'
          rcases List.mem_cons.mp hc' with rfl | hc'
          · exact hc
          · exact hall c' hc')
        obtain ⟨front, high, back, rfl, hhigh, hfront⟩ := ih htext
        refine ⟨c :: front, high, back, rfl, hhigh, ?_⟩
        intro c' hc'
        rcases List.mem_cons.mp hc' with rfl | hc'
        · exact hc
        · exact hfront c' hc'
      · exact ⟨[], c, text, rfl, Nat.le_of_not_lt hc, by simp⟩

/-- Characters below 128 do not end the length loop. -/
theorem pos_of_ne_zero {c : UInt8} (h : c ≠ 0) (hlt : c.toNat < 128) :
    0 < c.toNat ∧ c.toNat < 128 :=
  ⟨Nat.pos_of_ne_zero fun hzero => h (UInt8.toNat_inj.mp hzero), hlt⟩

/-- The C function counts in an `int`. -/
theorem length_lt_of_writesAlike (htext : ∀ c ∈ text, c ≠ 0) (h : WritesAlike text) :
    text.length < 2 ^ 31 := by
  by_contra hlen
  obtain ⟨n, s, hs⟩ : ∃ (n : Nat) (s : Vector UInt8 n), s.toList = text ++ [0] :=
    ⟨_, ⟨(text ++ [0]).toArray, rfl⟩, by simp⟩
  have hwrite := h.c n s [] hs
  rw [hexWriteString, hs, stringLength_overflow htext [0] 0 (by omega) (by omega)] at hwrite
  exact absurd hwrite (by simp)

/-- libc, refusing the calls of `write` that pass any number of characters but
`n`. -/
def Libc.writing (lib : Libc) (n : Nat) : Extern → Cpu → Option Cpu
  | .read, s => lib.run .read s
  | .write, s => if (s.regs rdx).toNat = n then lib.run .write s else none

theorem Libc.restricts_writing (lib : Libc) (n : Nat) : Restricts (lib.writing n) lib.run := by
  intro x s s' h
  cases x with
  | read => exact h
  | write =>
      rw [Libc.writing] at h
      split at h
      · exact h
      · exact absurd h (by simp)

/-- Up to a byte from 128 on, a string is passed as if it ended there, and there
is no other call of `write`. -/
theorem write_front {front : List UInt8} {high : UInt8} {back : List UInt8}
    (hfront : ∀ c ∈ front, 0 < c.toNat ∧ c.toNat < 128) (hhigh : 128 ≤ high.toNat)
    (hlen : front.length + back.length < 2 ^ 31) {n : Nat} {u : Cpu}
    (hu : steps program quietLibc.run n
      (entry .hexWriteString (off 0 96) (front ++ high :: back ++ [0])) = some u)
    (hline : program[u.pc]? = some (.external .write)) (hrdi : u.regs rdi = 1) :
    (u.regs rdx).toNat = front.length := by
  have hroom : 96 + (front ++ high :: back ++ [0]).length ≤ 2 ^ 64 := by
    simp only [List.length_append, List.length_cons, List.length_nil]
    omega
  have hentered := entered_entry .hexWriteString (off 0 96) hroom
  have hholds : Holds 0 (entry .hexWriteString (off 0 96) (front ++ high :: back ++ [0])).mem 96
      (front ++ [high]) := by
    have hall : Holds 0 (entry .hexWriteString (off 0 96) (front ++ high :: back ++ [0])).mem 96
        (front ++ [high] ++ (back ++ [0])) := by
      have hsplit : front ++ [high] ++ (back ++ [0]) = front ++ high :: back ++ [0] := by simp
      rw [hsplit]
      exact holds_storeAll hroom
    exact hall.append_left
  have hrun : Eventually program (quietLibc.writing front.length)
      (fun s' => s'.pc = program.length)
      (entry .hexWriteString (off 0 96) (front ++ high :: back ++ [0])) := by
    refine hexWriteString_call (show 72 ≤ 2 ^ 64 by omega) (le_refl _) hentered rfl hfront
      (.inr hhigh) hholds (by omega) (by omega) fun w hpc hin hrdi hrsi hrdx hheld hworld => ?_
    have hcount : (w.regs rdx).toNat = front.length := by
      rw [hrdx, BitVec.toNat_ofNat, Nat.mod_eq_of_lt (by omega)]
    have hext : quietLibc.writing front.length .write w = quietLibc.run .write w := by
      rw [Libc.writing, if_pos hcount]
    exact (writeString_run (show (0 : Word).toNat + 72 ≤ 2 ^ 64 by decide) (by omega) hext hpc
      (hin.narrow (le_refl 72) (by omega)) hrdi hrsi hrdx (by omega) hheld
      hworld).trans fun t ht => .now ht.1.pc
  have hwrite := hrun.not_refused (quietLibc.restricts_writing _) (fun t ht => step_behind ht) hu
    hline (by rw [Libc.run, if_pos hrdi])
  rw [Libc.writing] at hwrite
  split at hwrite
  · assumption
  · exact absurd hwrite (by simp)

/-- The assembly function stops at a byte from 128 on. -/
theorem low_of_writesAlike (htext : ∀ c ∈ text, c ≠ 0) (h : WritesAlike text) :
    ∀ c ∈ text, c.toNat < 128 := by
  have hlen := length_lt_of_writesAlike htext h
  by_contra hhigh
  obtain ⟨front, high, back, rfl, hstop, hlow⟩ := exists_high hhigh
  rw [List.length_append, List.length_cons] at hlen
  have hfront : ∀ c ∈ front, 0 < c.toNat ∧ c.toNat < 128 := fun c hc =>
    pos_of_ne_zero (htext c (List.mem_append_left _ hc)) (hlow c hc)
  have hroom : 96 + (front ++ high :: back ++ [0]).length ≤ 2 ^ 64 := by
    simp only [List.length_append, List.length_cons, List.length_nil]
    omega
  have hcall := h.asm quietLibc 0 program.length 96 _
    (entered_entry .hexWriteString (off 0 96) hroom) rfl (by omega)
    (by rw [List.length_append, List.length_cons]; omega) (holds_storeAll hroom)
  obtain ⟨n, u, hu, hline, hrdi, -, hcount, -⟩ := hcall.steps
  rw [write_front hfront hstop (by omega) hu hline hrdi, List.length_append,
    List.length_cons] at hcount
  omega

/-- Both versions of `hex_write_string` pass the whole string exactly when its
bytes are below 128 and an `int` counts them. -/
theorem writesAlike_iff (htext : ∀ c ∈ text, c ≠ 0) :
    WritesAlike text ↔ (∀ c ∈ text, c.toNat < 128) ∧ text.length < 2 ^ 31 := by
  constructor
  · intro h
    exact ⟨low_of_writesAlike htext h, length_lt_of_writesAlike htext h⟩
  · rintro ⟨hlow, hlen⟩
    refine ⟨fun n s rest hs => hexWriteString_spec hs htext hlen, ?_⟩
    intro lib base ret d s hentered hdi hd hroom hholds
    have hchars : ∀ c ∈ text, 0 < c.toNat ∧ c.toNat < 128 := fun c hc =>
      pos_of_ne_zero (htext c hc) (hlow c hc)
    refine hexWriteString_call (show 72 ≤ 2 ^ 64 by omega) (le_refl _) hentered hdi hchars
      (.inl rfl) hholds hd hroom fun u hpc hin hrdi hrsi hrdx hheld hworld => .now ?_
    refine ⟨?_, hrdi, hrsi, ?_, hheld.append_left⟩
    · rw [hpc]
      with_unfolding_all rfl
    · rw [hrdx, BitVec.toNat_ofNat, Nat.mod_eq_of_lt (by omega)]

end

/-- `hi` is written alike. -/
theorem writesAlike_iff_hi : WritesAlike [104, 105] :=
  (writesAlike_iff (by simp)).mpr (by simp)

/-- Two bytes of one letter: the assembly function writes nothing. -/
theorem letter_not_writesAlike : ¬ WritesAlike [195, 169] := by
  intro h
  have hlow := low_of_writesAlike (by simp) h 195 (by simp)
  exact absurd hlow (by decide)

end Csf.Hexdump.Asm
