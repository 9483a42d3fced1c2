import Csf.Hexdump.Asm
import Csf.Lib.X86.Call
import Csf.Hexdump.Grammar

/-!
# Hexdump: the assembly functions

One specification per function of `asm_hexfuncs.S`, for a caller whose stack
pointer is anywhere: the window of memory is based 64 bytes below the return
address, so offsets from 72 on belong to the caller. A function returns there
with the callee-saved registers and all of the caller's memory outside its
destination as they were, having stored, returned or written what the C
function of the same name does.
-/

namespace Csf.Hexdump.Asm

open Csf.Lib.X86 Csf.Lib.X86.Reg Csf.Lib.Hex

set_option maxRecDepth 4000

/-- The line of a label. -/
def pos (l : Label) : Nat := (labelIndex program l).getD 0

theorem labelIndex_pos (l : Label) : labelIndex program l = some (pos l) := by
  cases l <;> with_unfolding_all rfl

theorem length_program : program.length < 2 ^ 64 := by decide +kernel

/-- The line `n` behind a known one. -/
theorem line_at {t : Cpu} {p : Nat} (hpc : t.pc = p) (n : Nat) {line : Line Label Extern}
    (h : program[p + n]? = some line) : program[t.pc + n]? = some line := hpc ▸ h

/-- The straight-line code that begins `n` lines behind a known one. -/
theorem ops_at {t : Cpu} {p : Nat} (hpc : t.pc = p) (n : Nat) {k : Nat}
    {lines : Code} (h : (program.drop (p + n)).take k = lines) :
    (program.drop (t.pc + n)).take k = lines := hpc ▸ h

variable {base : Word} {top ret : Nat} {s : Cpu} {lib : Libc}
  {ok : Cpu → Bool} {ext : Extern → Cpu → Option Cpu}

/-! ## `hex_to_printable` -/

/-- The two comparisons are signed, and let through what is between 32 and 126
as a number of 64 bits. -/
theorem hexToPrintable_run (htop : 72 ≤ top) (htop' : top ≤ 2 ^ 64)
    (h : Entered base (pos .hexToPrintable) ret s) {v : Word} (hv : s.regs rdi = v) :
    Eventually program ext (fun s' => Returned base top ret 72 72 s s' ∧
      s'.regs rax = (if 32 ≤ v.toNat ∧ v.toNat ≤ 126 then v else 46) ∧
      s'.regs rdi = s.regs rdi ∧ s'.world = s.world) s := by
  -- both ends pop and return; they differ in what `%rax` holds there
  have hend : ∀ t : Cpu, program[t.pc]? = some (popq r12) → program[t.pc + 1]? = some .ret →
      Inside base top ret 72 72 [r12] s t →
      t.regs rax = (if 32 ≤ v.toNat ∧ v.toNat ≤ 126 then v else 46) →
      t.regs rdi = s.regs rdi → t.world = s.world →
      Eventually program ext (fun s' => Returned base top ret 72 72 s s' ∧
        s'.regs rax = (if 32 ≤ v.toNat ∧ v.toNat ≤ 126 then v else 46) ∧
        s'.regs rdi = s.regs rdi ∧ s'.world = s.world) t := by
    intro t hpop hret hin hrax hrdi hworld
    refine hin.leave (by decide) hpop hret fun t' hdone hregs hworld' _ => ?_
    refine ⟨hdone, ?_, ?_, ?_⟩
    · rw [hregs rax (by decide) (by decide), hrax]
    · rw [hregs rdi (by decide) (by decide), hrdi]
    · rw [hworld', hworld]
  have hperiod : ∀ t : Cpu, t.pc = pos .convertToPeriod → Inside base top ret 72 72 [r12] s t →
      t.regs rdi = s.regs rdi → t.world = s.world → ¬ (32 ≤ v.toNat ∧ v.toNat ≤ 126) →
      Eventually program ext (fun s' => Returned base top ret 72 72 s s' ∧
        s'.regs rax = (if 32 ≤ v.toNat ∧ v.toNat ≤ 126 then v else 46) ∧
        s'.regs rdi = s.regs rdi ∧ s'.world = s.world) t := by
    intro t hpc hin hrdi hworld hrange
    apply Eventually.label (l := .convertToPeriod) (by rw [hpc]; with_unfolding_all rfl)
    apply Eventually.ops [.mov .q 46 rax] (by rw [State.next_pc, hpc]; with_unfolding_all rfl) rfl
    apply hend
    · rw [State.next_pc, State.setReg_pc, State.next_pc, hpc]
      with_unfolding_all rfl
    · rw [State.next_pc, State.setReg_pc, State.next_pc, hpc]
      with_unfolding_all rfl
    · exact hin.mono (by omega) (by decide) (by simp) (by simp [saved]) (by simp)
    · simp [State.read, hrange]
    · simpa using hrdi
    · simpa using hworld
  apply Eventually.label (l := .hexToPrintable) (by rw [h.pc]; with_unfolding_all rfl)
  refine (h.inside 72 72 htop htop').pushq r12 (by decide) (by decide) (by decide)
    (by rw [State.next_pc, h.pc]; with_unfolding_all rfl) fun t hpc hin hregs hworld _ => ?_
  rw [State.next_pc, h.pc] at hpc
  have hrdi : t.regs rdi = v := (hregs rdi (by decide)).trans hv
  have hrdi' : t.regs rdi = s.regs rdi := hregs rdi (by decide)
  apply Eventually.ops [.mov .q rdi r12, .cmp .q 32 r12] (by rw [hpc]; with_unfolding_all rfl) rfl
  refine Eventually.jcc (c := .l) (f := .compare .q 32 v)
    (line_at hpc 2 (by with_unfolding_all rfl)) (by simp [State.read, hrdi])
    (labelIndex_pos .convertToPeriod) (fun hlow => ?_) (fun hlow => ?_)
  · apply hperiod
    · rfl
    · exact hin.mono (by omega) (by decide) (by simp) (by simp [saved]) (by simp)
    · simpa using hrdi'
    · simpa using hworld
    · rintro ⟨hge, hle⟩
      have hsmall : v.toNat < 2 ^ (Width.q.bits - 1) := lt_of_le_of_lt hle (by decide)
      rw [Cond.holds_l (by decide) hsmall, decide_eq_true_iff] at hlow
      exact absurd hge (Nat.not_le_of_lt hlow)
  · -- no sign: the rest is as for numbers
    have hsmall : v.toNat < 2 ^ (Width.q.bits - 1) := by
      by_contra hneg
      have hless : (Flags.compare .q 32 v).less = true :=
        Flags.compare_less_of_neg (by decide) (by
          rw [Nat.mod_eq_of_lt (show v.toNat < 2 ^ Width.q.bits from v.isLt)]
          exact Nat.le_of_not_lt hneg)
      rw [Cond.holds, hless] at hlow
      exact absurd hlow (by decide)
    rw [Cond.holds_l (by decide) hsmall, decide_eq_false_iff_not] at hlow
    apply Eventually.ops [.cmp .q 126 r12]
      (ops_at hpc 3 (by with_unfolding_all rfl)) rfl
    refine Eventually.jcc (c := .g) (f := .compare .q 126 v)
      (line_at hpc 4 (by with_unfolding_all rfl)) (by simp [State.read, hrdi])
      (labelIndex_pos .convertToPeriod) (fun hhigh => ?_) (fun hhigh => ?_)
    · rw [Cond.holds_g (by decide) hsmall, decide_eq_true_iff] at hhigh
      apply hperiod
      · rfl
      · exact hin.mono (by omega) (by decide) (by simp) (by simp [saved]) (by simp)
      · simpa using hrdi'
      · simpa using hworld
      · exact fun hrange => absurd hrange.2 (Nat.not_le_of_lt hhigh)
    · rw [Cond.holds_g (by decide) hsmall, decide_eq_false_iff_not] at hhigh
      have hrange : 32 ≤ v.toNat ∧ v.toNat ≤ 126 := ⟨Nat.le_of_not_lt hlow, Nat.le_of_not_lt hhigh⟩
      apply Eventually.ops [.mov .q r12 rax]
        (ops_at hpc 5 (by with_unfolding_all rfl)) rfl
      apply hend
      · exact line_at hpc 6 (by with_unfolding_all rfl)
      · exact line_at hpc 7 (by with_unfolding_all rfl)
      · exact hin.mono (by omega) (by decide) (by simp) (by simp [saved]) (by simp)
      · simp [State.read, hrange, hrdi]
      · simpa using hrdi'
      · simpa using hworld

/-- A byte is shown as the C function shows it. -/
theorem hexToPrintable_spec (htop : 72 ≤ top) (htop' : top ≤ 2 ^ 64)
    (h : Entered base (pos .hexToPrintable) ret s) {c : UInt8}
    (hc : (s.regs rdi).toNat = c.toNat) :
    Eventually program ext (fun s' => Returned base top ret 72 72 s s' ∧
      (s'.regs rax).toNat = (shown c).toNat ∧ s'.regs rdi = s.regs rdi ∧
      s'.world = s.world) s := by
  refine (hexToPrintable_run htop htop' h rfl).trans fun t ht => .now ?_
  obtain ⟨hdone, hrax, hrdi, hworld⟩ := ht
  refine ⟨hdone, ?_, hrdi, hworld⟩
  rw [hrax, hc, shown]
  split
  · exact hc
  · rfl

/-! ## Digit loops

Both formatting functions print a value from right to left into a buffer that
holds zeros. They differ in the registers they use and in how the branches of
the loop are laid out. -/

variable {d n : Nat} {valueReg indexReg : Reg} {slots : List Reg} {Q : Cpu → Prop}

/-- A state inside a formatting function: `v` is left to print, the next digit
goes to position `m - 1`, and the buffer of `n` bytes at offset `d` holds
`digits`. -/
structure DigitLoop (base : Word) (top ret d n : Nat) (valueReg indexReg : Reg) (slots : List Reg)
    (s : Cpu) (m v : Nat) (digits : List UInt8) (t : Cpu) : Prop where
  inside : Inside base top ret d (d + n) slots s t
  buffer : t.regs rsi = off base d
  value : (t.regs valueReg).toNat = v
  position : t.regs indexReg = BitVec.ofNat 64 m - 1
  holds : Holds base t.mem d digits
  world : t.world = s.world

/-- Instructions that touch none of the loop's registers and no memory. -/
theorem DigitLoop.of_regs {m v : Nat} {digits : List UInt8} {t t' : Cpu}
    (h : DigitLoop base top ret d n valueReg indexReg slots s m v digits t) (hd : 72 ≤ d)
    (hdepth : slots.length ≤ 7) (hregs : ∀ r ∈ [rsp, rsi, valueReg, indexReg], t'.regs r = t.regs r)
    (hsaved : ∀ r ∈ saved, r ∉ slots → t'.regs r = t.regs r) (hmem : t'.mem = t.mem)
    (hworld : t'.world = t.world) :
    DigitLoop base top ret d n valueReg indexReg slots s m v digits t' := by
  refine ⟨h.inside.mono hd hdepth (hregs _ (by simp)) hsaved fun i _ _ _ => by rw [hmem], ?_, ?_,
    ?_, ?_, ?_⟩
  · rw [hregs _ (by simp), h.buffer]
  · rw [hregs _ (by simp), h.value]
  · rw [hregs _ (by simp), h.position]
  · rw [hmem]
    exact h.holds
  · rw [hworld, h.world]

/-- Storing one byte of the buffer. -/
theorem DigitLoop.store {m v m' v' w : Nat} {l rest : List UInt8} {b c : UInt8} {t t' : Cpu}
    (h : DigitLoop base top ret d n valueReg indexReg slots s m v (l ++ b :: rest) t) (hd : 72 ≤ d)
    (hd' : d + n ≤ 2 ^ 64) (hdepth : slots.length ≤ 7) (hlen : l.length + 1 + rest.length = n)
    (hmem : t'.mem = writeBytes t.mem 1 (off base (d + l.length)) w) (hw : UInt8.ofNat w = c)
    (hregs : ∀ r ∈ [rsp, rsi], t'.regs r = t.regs r)
    (hsaved : ∀ r ∈ saved, r ∉ slots → t'.regs r = t.regs r) (hworld : t'.world = t.world)
    (hvalue : (t'.regs valueReg).toNat = v') (hindex : t'.regs indexReg = BitVec.ofNat 64 m' - 1) :
    DigitLoop base top ret d n valueReg indexReg slots s m' v' (l ++ c :: rest) t' := by
  refine ⟨h.inside.mono hd hdepth (hregs _ (by simp)) hsaved fun i _ hi ho => ?_, ?_, hvalue,
    hindex, ?_, ?_⟩
  · rw [hmem]
    exact writeBytes_off_of_outside (lt_of_lt_of_le hi h.inside.top_le) (by omega) (by omega)
  · rw [hregs _ (by simp), h.buffer]
  · rw [hmem]
    exact h.holds.write hw (by rw [List.length_append, List.length_cons]; omega)
  · rw [hworld, h.world]

/-- The position of the next digit. -/
theorem DigitLoop.index_eq {m v : Nat} {digits : List UInt8} {t : Cpu}
    (h : DigitLoop base top ret d n valueReg indexReg slots s (m + 1) v digits t) :
    t.regs indexReg = BitVec.ofNat 64 m := by
  rw [h.position, BitVec.ofNat_add]
  exact BitVec.add_sub_cancel _ _

/-- What the stores of a round do, wherever the position is: `c` is stored
there, and the loop moves on to the next digit. -/
structure Stored (valueReg indexReg : Reg) (slots : List Reg) (c : UInt8) (t t' : Cpu) : Prop where
  mem : ∃ w, UInt8.ofNat w = c ∧ t'.mem = writeBytes t.mem 1 (t.regs rsi + t.regs indexReg) w
  regs : ∀ r ∈ [rsp, rsi], t'.regs r = t.regs r
  saved : ∀ r ∈ saved, r ∉ slots → t'.regs r = t.regs r
  value : (t'.regs valueReg).toNat = (t.regs valueReg).toNat / 16
  position : t'.regs indexReg = t.regs indexReg - 1
  world : t'.world = t.world

/-- A round inside the buffer. -/
theorem DigitLoop.stored {m v : Nat} {l rest : List UInt8} {b c : UInt8} {t t' : Cpu}
    (h : DigitLoop base top ret d n valueReg indexReg slots s (m + 1) v (l ++ b :: rest) t)
    (hd : 72 ≤ d) (hd' : d + n ≤ 2 ^ 64) (hdepth : slots.length ≤ 7) (hl : l.length = m)
    (hlen : m + 1 + rest.length = n) (hst : Stored valueReg indexReg slots c t t') :
    DigitLoop base top ret d n valueReg indexReg slots s m (v / 16) (l ++ c :: rest) t' := by
  obtain ⟨w, hw, hmem⟩ := hst.mem
  refine h.store hd hd' hdepth (by rw [hl]; exact hlen) ?_ hw hst.regs hst.saved hst.world ?_ ?_
  · rw [hmem, h.buffer, h.index_eq, off_add, hl]
  · rw [hst.value, h.value]
  · rw [hst.position, h.index_eq]

/-- A digit loop of the program: at the line `loop` it goes on to `finish` when
no digit is left, and back to `loop` after a round otherwise. -/
def Rounds (ext : Extern → Cpu → Option Cpu) (loop finish n : Nat) (valueReg indexReg : Reg)
    (slots : List Reg) : Prop :=
  ∀ (Q : Cpu → Prop) (base : Word) (top ret d : Nat) (s t : Cpu) (m v : Nat) (digits : List UInt8),
    72 ≤ d → t.pc = loop → DigitLoop base top ret d n valueReg indexReg slots s m v digits t →
    (v = 0 → ∀ t' : Cpu, t'.pc = finish →
      DigitLoop base top ret d n valueReg indexReg slots s m v digits t' →
      Eventually program ext Q t') →
    (v ≠ 0 → ∀ t₁ t' : Cpu, DigitLoop base top ret d n valueReg indexReg slots s m v digits t₁ →
      Stored valueReg indexReg slots (hexDigit (v % 16)) t₁ t' → t'.pc = loop →
      Eventually program ext Q t') →
    Eventually program ext Q t

variable {loop finish : Nat}

variable (base top ret s) in
/-- A digit loop fills the buffer from the right, and either stops there or is
back at its first line with digits left over. -/
theorem Rounds.fill (h : Rounds ext loop finish n valueReg indexReg slots) (hd : 72 ≤ d)
    (hd' : d + n ≤ 2 ^ 64) (hdepth : slots.length ≤ 7) (m : Nat) :
    ∀ (t : Cpu) (rest : List UInt8) (v : Nat), t.pc = loop →
    DigitLoop base top ret d n valueReg indexReg slots s m v (List.replicate m 48 ++ rest) t →
    m + rest.length = n →
    (∀ (t' : Cpu) (m' : Nat), t'.pc = finish →
      DigitLoop base top ret d n valueReg indexReg slots s m' 0 (hexDigits m v ++ rest) t' →
      v < 16 ^ m → Eventually program ext Q t') →
    (∀ t' : Cpu, t'.pc = loop →
      DigitLoop base top ret d n valueReg indexReg slots s 0 (v / 16 ^ m)
        (hexDigits m v ++ rest) t' →
      v / 16 ^ m ≠ 0 → Eventually program ext Q t') →
    Eventually program ext Q t := by
  induction m with
  | zero =>
      intro t rest v hpc hloop _ hdone hover
      rcases Nat.eq_zero_or_pos v with hv | hv
      · subst hv
        exact h Q base top ret d s t 0 0 _ hd hpc hloop
          (fun _ t' hpc' h' => hdone t' 0 hpc' h' (by omega)) (fun hne => absurd rfl hne)
      · rw [pow_zero, Nat.div_one] at hover
        exact hover t hpc hloop (by omega)
  | succ m ih =>
      intro t rest v hpc hloop hlen hdone hover
      refine h Q base top ret d s t (m + 1) v _ hd hpc hloop (fun hv t' hpc' h' => ?_)
        fun _ t₁ t₂ h₁ hst hpc₂ => ?_
      · rw [hv] at h' hdone
        rw [hexDigits_zero] at hdone
        exact hdone t' (m + 1) hpc' h' (by positivity)
      · rw [List.replicate_succ', List.append_assoc, List.singleton_append] at h₁
        have h₂ := h₁.stored hd hd' hdepth (by simp) hlen hst
        have hassoc : hexDigits (m + 1) v ++ rest =
            hexDigits m (v / 16) ++ hexDigit (v % 16) :: rest := by
          rw [hexDigits, List.append_assoc, List.singleton_append]
        have hquot : v / 16 ^ (m + 1) = v / 16 / 16 ^ m := by
          rw [pow_succ', Nat.div_div_eq_div_mul]
        rw [hassoc] at hdone hover
        rw [hquot] at hover
        refine ih t₂ _ (v / 16) hpc₂ h₂ (by rw [List.length_cons]; omega)
          (fun t' m' hpc' h' hlt => hdone t' m' hpc' h' ?_) hover
        rwa [Nat.div_lt_iff_lt_mul (by omega), ← pow_succ] at hlt

/-- The low byte of a register that holds a character. -/
theorem ofNat_toNat_mod {v : Word} {c : UInt8} (h : v.toNat = c.toNat) :
    UInt8.ofNat (v.toNat % 256) = c := by
  rw [h, Nat.mod_eq_of_lt c.toNat_lt, UInt8.ofNat_toNat]

theorem toNat_ofNat_remainder (v : Nat) : (BitVec.ofNat 64 (v % 16)).toNat = v % 16 := by
  have : v % 16 < 16 := Nat.mod_lt _ (by omega)
  rw [BitVec.toNat_ofNat, Nat.mod_eq_of_lt (by omega)]

/-! ## `hex_format_byte_as_hex` -/

/-- The loop of `hex_format_byte_as_hex`. -/
abbrev ByteLoop (base : Word) (top ret d : Nat) :=
  DigitLoop base top ret d 3 r12 r13 [r14, r13, r12]

/-- The loop test: done when no digit is left. -/
theorem formatByteLoop_test (hd : 72 ≤ d) {m v : Nat} {digits : List UInt8} {t : Cpu}
    (hpc : t.pc = pos .formatByteLoop) (h : ByteLoop base top ret d s m v digits t)
    (hdone : v = 0 → ∀ t' : Cpu, t'.pc = pos .formatByteFinish →
      ByteLoop base top ret d s m v digits t' → Eventually program ext Q t')
    (hmore : v ≠ 0 → ∀ t' : Cpu, t'.pc = pos .formatByteLoop + 3 →
      ByteLoop base top ret d s m v digits t' → Eventually program ext Q t') :
    Eventually program ext Q t := by
  apply Eventually.label (l := .formatByteLoop) (by rw [hpc]; with_unfolding_all rfl)
  apply Eventually.ops [.cmp .q 0 r12]
    (ops_at hpc 1 (by with_unfolding_all rfl)) rfl
  refine Eventually.jcc (c := .e) (f := .compare .q 0 (t.regs r12))
    (line_at hpc 2 (by with_unfolding_all rfl)) (by simp [State.read])
    (labelIndex_pos .formatByteFinish) (fun htest => ?_) (fun htest => ?_)
  · rw [Cond.holds_e, h.value, decide_eq_true_iff] at htest
    exact hdone htest _ rfl (h.of_regs hd (by decide) (by simp) (by simp) rfl rfl)
  · rw [Cond.holds_e, h.value, decide_eq_false_iff_not] at htest
    exact hmore htest _ (by simp [hpc]) (h.of_regs hd (by decide) (by simp) (by simp) rfl rfl)

/-- The division and the two ways to the character of the remainder. -/
theorem formatByteLoop_digit (hd : 72 ≤ d) {m v : Nat} {digits : List UInt8} {t : Cpu}
    (hpc : t.pc = pos .formatByteLoop + 3) (h : ByteLoop base top ret d s m v digits t)
    (hnext : ∀ t' : Cpu, t'.pc = pos .remainderIfEnd → ByteLoop base top ret d s m v digits t' →
      (t'.regs rdx).toNat = (hexDigit (v % 16)).toNat → Eventually program ext Q t') :
    Eventually program ext Q t := by
  have hrem : v % 16 < 16 := Nat.mod_lt _ (by omega)
  have hsmall : (BitVec.ofNat 64 (v % 16)).toNat < 2 ^ (Width.q.bits - 1) := by
    rw [toNat_ofNat_remainder]
    exact lt_trans hrem (by decide)
  apply Eventually.ops [.mov .q 0 rdx, .mov .q r12 rax, .mov .q 16 r14]
    (by rw [hpc]; with_unfolding_all rfl) rfl
  apply Eventually.div r14 16
    (line_at hpc 3 (by with_unfolding_all rfl)) (by simp [State.read])
    (by simp [State.read]) (by omega)
  apply Eventually.ops [.cmp .q 10 rdx]
    (ops_at hpc 4 (by with_unfolding_all rfl)) rfl
  refine Eventually.jcc (c := .ge) (f := .compare .q 10 (BitVec.ofNat 64 (v % 16)))
    (line_at hpc 5 (by with_unfolding_all rfl))
    (by simp [State.read, h.value]) (labelIndex_pos .remainderNotLessThanTen)
    (fun htest => ?_) (fun htest => ?_)
  · rw [Cond.holds_ge (by decide) hsmall, toNat_ofNat_remainder, decide_eq_true_iff] at htest
    -- a letter: 87 is the code of `a` less 10
    have hten : ¬ v % 16 < 10 := Nat.not_lt_of_le htest
    apply Eventually.label (l := .remainderNotLessThanTen)
      (by show program[pos .remainderNotLessThanTen]? = _; with_unfolding_all rfl)
    apply Eventually.ops [.add .q 87 rdx]
      (by
        show (program.drop (pos .remainderNotLessThanTen + 1)).take _ = _
        with_unfolding_all rfl) rfl
    apply hnext
    · show pos .remainderNotLessThanTen + 2 = _
      with_unfolding_all rfl
    · exact h.of_regs hd (by decide) (by simp) (by simp [saved]) rfl rfl
    · simp [State.read, h.value, toNat_hexDigit hrem, hten]
      omega
  · rw [Cond.holds_ge (by decide) hsmall, toNat_ofNat_remainder, decide_eq_false_iff_not] at htest
    -- a digit: 48 is the code of `0`
    have hten : v % 16 < 10 := Nat.lt_of_not_le htest
    apply Eventually.ops [.add .q 48 rdx]
      (ops_at hpc 6 (by with_unfolding_all rfl)) rfl
    apply Eventually.jmp (l := .remainderIfEnd)
      (line_at hpc 7 (by with_unfolding_all rfl)) (labelIndex_pos _)
    apply hnext
    · rfl
    · exact h.of_regs hd (by decide) (by simp) (by simp [saved]) rfl rfl
    · simp [State.read, h.value, toNat_hexDigit hrem, hten]
      omega

/-- Storing a digit and moving on to the next. -/
theorem formatByteLoop_store {c : UInt8} {t : Cpu} (hpc : t.pc = pos .remainderIfEnd)
    (hdx : (t.regs rdx).toNat = c.toNat)
    (hnext : ∀ t' : Cpu, Stored r12 r13 [r14, r13, r12] c t t' → t'.pc = pos .formatByteLoop →
      Eventually program ext Q t') :
    Eventually program ext Q t := by
  apply Eventually.label (l := .remainderIfEnd) (by rw [hpc]; with_unfolding_all rfl)
  apply Eventually.ops [.mov .b rdx (idx 0 rsi r13), .dec .q r13, .shr .q 4 r12]
    (ops_at hpc 1 (by with_unfolding_all rfl)) rfl
  apply Eventually.jmp (l := .formatByteLoop)
    (line_at hpc 4 (by with_unfolding_all rfl)) (labelIndex_pos _)
  apply hnext
  · refine ⟨⟨(t.regs rdx).toNat % 256, ofNat_toNat_mod hdx, ?_⟩, by simp, by simp [saved], ?_, ?_,
      by simp⟩
    · simp [State.read, State.addr, idx, Width.bytes]
    · simp [State.read, Nat.shiftRight_eq_div_pow]
    · simp [State.read]
  · rfl

theorem formatByteLoop_rounds :
    Rounds ext (pos .formatByteLoop) (pos .formatByteFinish) 3 r12 r13 [r14, r13, r12] := by
  intro Q base top ret d s t m v digits hd hpc h hdone hmore
  refine formatByteLoop_test hd hpc h hdone fun hv t₁ hpc₁ h₁ => ?_
  refine formatByteLoop_digit hd hpc₁ h₁ fun t₂ hpc₂ h₂ hdx => ?_
  exact formatByteLoop_store hpc₂ hdx fun t' hst hpc' => hmore hv t₂ t' h₂ hst hpc'

/-- Up to the loop: two zeros and the terminator are in place. -/
theorem formatByteLoop_enter (htop : 72 ≤ top) (htop' : top ≤ 2 ^ 64)
    (h : Entered base (pos .hexFormatByteAsHex) ret s)
    (hsi : s.regs rsi = off base d) (hd : 72 ≤ d) (hd' : d + 3 ≤ 2 ^ 64)
    (hnext : ∀ t : Cpu, t.pc = pos .formatByteLoop →
      ByteLoop base top ret d s 2 (s.regs rdi).toNat (List.replicate 2 48 ++ [0]) t →
      Eventually program ext Q t) :
    Eventually program ext Q s := by
  have hpc := h.pc
  apply Eventually.label (l := .hexFormatByteAsHex) (by rw [hpc]; with_unfolding_all rfl)
  refine (h.inside d (d + 3) htop htop').pushq r12 (by decide) (by decide) (by decide)
    (line_at hpc 1 (by with_unfolding_all rfl))
    fun t₁ hpc₁ hin₁ hregs₁ hworld₁ _ => ?_
  rw [State.next_pc, hpc] at hpc₁
  refine hin₁.pushq r13 (by decide) (by decide) (by decide) (by rw [hpc₁]; with_unfolding_all rfl)
    fun t₂ hpc₂ hin₂ hregs₂ hworld₂ _ => ?_
  rw [hpc₁] at hpc₂
  refine hin₂.pushq r14 (by decide) (by decide) (by decide) (by rw [hpc₂]; with_unfolding_all rfl)
    fun t₃ hpc₃ hin₃ hregs₃ hworld₃ _ => ?_
  rw [hpc₂] at hpc₃
  have hregs : ∀ r, r ≠ rsp → t₃.regs r = s.regs r := by
    intro r hr
    rw [hregs₃ r hr, hregs₂ r hr, hregs₁ r hr, State.next_regs]
  have hrsi : t₃.regs rsi = off base d := (hregs rsi (by decide)).trans hsi
  apply Eventually.ops [.mov .q rdi r12, .mov .q 0 r13, .mov .b 48 (idx 0 rsi r13), .mov .q 1 r13,
    .mov .b 48 (idx 0 rsi r13), .mov .q 2 r13, .mov .b 0 (idx 0 rsi r13), .dec .q r13]
    (by rw [hpc₃]; with_unfolding_all rfl) rfl
  apply Eventually.jmp (l := .formatByteLoop)
    (line_at hpc₃ 8 (by with_unfolding_all rfl)) (labelIndex_pos _)
  have hzeros : Holds base (writeBytes (writeBytes (writeBytes t₃.mem 1 (off base d) 48) 1
      (off base (d + 1)) 48) 1 (off base (d + 2)) 0) d [48, 48, 0] := by
    obtain ⟨l, hl, hholds⟩ := exists_holds base t₃.mem d 3
    obtain ⟨x, y, z, rfl⟩ := List.length_eq_three.mp hl
    have hx := Holds.write (l := []) (v := 48) (c := 48) hholds rfl hd'
    have hy := Holds.write (l := [48]) (v := 48) (c := 48) hx rfl hd'
    exact Holds.write (l := [48, 48]) (v := 0) (c := 0) hy rfl hd'
  apply hnext
  · rfl
  · refine ⟨?_, ?_, ?_, ?_, ?_, ?_⟩
    · refine hin₃.mono hd (by decide) (by simp) (by simp [saved]) fun i _ hi ho => ?_
      have hout : writeBytes (writeBytes (writeBytes t₃.mem 1 (off base d) 48) 1
          (off base (d + 1)) 48) 1 (off base (d + 2)) 0 (off base i) = t₃.mem (off base i) := by
        have hi' := lt_of_lt_of_le hi htop'
        rw [writeBytes_off_of_outside hi' (by omega) (by omega),
          writeBytes_off_of_outside hi' (by omega) (by omega),
          writeBytes_off_of_outside hi' (by omega) (by omega)]
      simpa [State.read, State.addr, idx, Width.bytes, hrsi] using hout
    · simpa using hrsi
    · simp [State.read, hregs]
    · simp [State.read]
    · simpa [State.read, State.addr, idx, Width.bytes, hrsi] using hzeros
    · simp [hworld₃, hworld₂, hworld₁]

/-- Behind the loop: the registers are restored. -/
theorem formatByteFinish_run {m v : Nat} {digits : List UInt8} {t : Cpu} (hd : 72 ≤ d)
    (hpc : t.pc = pos .formatByteFinish) (h : ByteLoop base top ret d s m v digits t) :
    Eventually program ext (fun s' => Returned base top ret d (d + 3) s s' ∧
      Holds base s'.mem d digits ∧ s'.world = s.world) t := by
  apply Eventually.label (l := .formatByteFinish) (by rw [hpc]; with_unfolding_all rfl)
  have hfinish : ByteLoop base top ret d s m v digits t.next :=
    h.of_regs hd (by decide) (fun _ _ => rfl) (fun _ _ _ => rfl) rfl rfl
  refine hfinish.inside.popq (by decide) (by decide)
    (line_at hpc 1 (by with_unfolding_all rfl))
    fun u₁ hu₁ hin₁ _ hworld₁ hmem₁ => ?_
  rw [State.next_pc, hpc] at hu₁
  refine hin₁.popq (by decide) (by decide) (by rw [hu₁]; with_unfolding_all rfl)
    fun u₂ hu₂ hin₂ _ hworld₂ hmem₂ => ?_
  rw [hu₁] at hu₂
  refine hin₂.leave (by decide) (by rw [hu₂]; with_unfolding_all rfl)
    (by rw [hu₂]; with_unfolding_all rfl)
    fun u₃ hdone _ hworld₃ hmem₃ => ⟨hdone, ?_, ?_⟩
  · rw [hmem₃, hmem₂, hmem₁]
    exact hfinish.holds
  · rw [hworld₃, hworld₂, hworld₁, hfinish.world]

theorem hexFormatByteAsHex_run (htop : 72 ≤ top) (htop' : top ≤ 2 ^ 64)
    (h : Entered base (pos .hexFormatByteAsHex) ret s)
    (hsi : s.regs rsi = off base d) (hd : 72 ≤ d) (hd' : d + 3 ≤ 2 ^ 64) {c : UInt8}
    (hc : (s.regs rdi).toNat = c.toNat) :
    Eventually program ext (fun s' => Returned base top ret d (d + 3) s s' ∧
      Holds base s'.mem d (hexDigits 2 c.toNat ++ [0]) ∧ s'.world = s.world) s := by
  refine formatByteLoop_enter htop htop' h hsi hd hd' fun t hpc hloop => ?_
  rw [hc] at hloop
  refine formatByteLoop_rounds.fill base top ret s hd hd' (by decide) 2 t [0] c.toNat hpc hloop rfl
    (fun t' _ hpc' h' _ => formatByteFinish_run hd hpc' h') fun _ _ _ hover => ?_
  exact absurd (Nat.div_eq_of_lt c.toNat_lt) hover

/-! ## `hex_format_offset` -/

/-- The loops of `hex_format_offset`. -/
abbrev OffsetLoop (base : Word) (top ret d : Nat) := DigitLoop base top ret d 9 rdi r11 [r14]

variable (base top ret s) in
/-- The first loop fills the eight digits with zeros. -/
theorem fillZero_spec (hd : 72 ≤ d) (hd' : d + 9 ≤ 2 ^ 64) (v k : Nat) :
    ∀ (t : Cpu) (i : Nat) (rest : List UInt8), i + k = 8 → t.pc = pos .fillZero →
    OffsetLoop base top ret d s 8 v (List.replicate i 48 ++ rest) t →
    t.regs r10 = BitVec.ofNat 64 i → rest.length = k + 1 →
    (∀ (t' : Cpu) (last : UInt8), t'.pc = pos .fillChar →
      OffsetLoop base top ret d s 8 v (List.replicate 8 48 ++ [last]) t' →
      Eventually program ext Q t') →
    Eventually program ext Q t := by
  induction k with
  | zero =>
      intro t i rest hi hpc h hr10 hrest hQ
      obtain ⟨last, rfl⟩ := List.length_eq_one_iff.mp hrest
      obtain rfl : i = 8 := by omega
      -- all eight zeros are stored: the test leaves the loop
      apply Eventually.label (l := .fillZero) (by rw [hpc]; with_unfolding_all rfl)
      apply Eventually.ops [.cmp .q 8 r10]
        (ops_at hpc 1 (by with_unfolding_all rfl)) rfl
      refine Eventually.jcc (c := .ge) (f := .compare .q 8 8)
        (line_at hpc 2 (by with_unfolding_all rfl)) (by simp [State.read, hr10])
        (labelIndex_pos .fillChar) (fun _ => ?_) (fun htest => ?_)
      · exact hQ _ last rfl (h.of_regs hd (by decide) (by simp) (by simp) rfl rfl)
      · exact absurd htest (by decide)
  | succ k ih =>
      intro t i rest hi hpc h hr10 hrest hQ
      have hval : (BitVec.ofNat 64 i).toNat = i := by
        rw [BitVec.toNat_ofNat, Nat.mod_eq_of_lt (by omega)]
      cases rest with
      | nil => exact absurd hrest (by simp)
      | cons b rest =>
          rw [List.length_cons] at hrest
          apply Eventually.label (l := .fillZero) (by rw [hpc]; with_unfolding_all rfl)
          apply Eventually.ops [.cmp .q 8 r10]
            (ops_at hpc 1 (by with_unfolding_all rfl)) rfl
          refine Eventually.jcc (c := .ge) (f := .compare .q 8 (BitVec.ofNat 64 i))
            (line_at hpc 2 (by with_unfolding_all rfl))
            (by simp [State.read, hr10]) (labelIndex_pos .fillChar) (fun htest => ?_)
            (fun _ => ?_)
          · -- the test cannot leave the loop before the eighth zero
            have hsmall : (BitVec.ofNat 64 i).toNat < 2 ^ (Width.q.bits - 1) := by
              rw [hval]
              exact lt_of_le_of_lt (by omega : i ≤ 8) (by decide)
            rw [Cond.holds_ge (by decide) hsmall, hval, decide_eq_true_iff] at htest
            have : 8 ≤ i := htest
            omega
          · apply Eventually.ops [.mov .b 48 (idx 0 rsi r10), .add .q 1 r10]
              (ops_at hpc 3 (by with_unfolding_all rfl)) rfl
            apply Eventually.jmp (l := .fillZero)
              (line_at hpc 5 (by with_unfolding_all rfl)) (labelIndex_pos _)
            apply ih _ (i + 1) rest (by omega) rfl _ _ (by omega) hQ
            · rw [List.replicate_succ', List.append_assoc]
              refine h.store (w := 48) hd hd' (by decide) (by simp; omega) ?_ rfl (by simp)
                (by simp [saved]) (by simp) (by simpa using h.value) (by simpa using h.position)
              simp [State.read, State.addr, idx, Width.bytes, h.buffer, hr10]
            · simp [State.read, hr10, BitVec.ofNat_add]

/-- The test of the second loop: done when no digit is left. -/
theorem fillChar_test (hd : 72 ≤ d) {m v : Nat} {digits : List UInt8} {t : Cpu}
    (hpc : t.pc = pos .fillChar) (h : OffsetLoop base top ret d s m v digits t)
    (hdone : v = 0 → ∀ t' : Cpu, t'.pc = pos .finishFormat →
      OffsetLoop base top ret d s m v digits t' → Eventually program ext Q t')
    (hmore : v ≠ 0 → ∀ t' : Cpu, t'.pc = pos .fillChar + 3 →
      OffsetLoop base top ret d s m v digits t' → Eventually program ext Q t') :
    Eventually program ext Q t := by
  apply Eventually.label (l := .fillChar) (by rw [hpc]; with_unfolding_all rfl)
  apply Eventually.ops [.cmp .q 0 rdi]
    (ops_at hpc 1 (by with_unfolding_all rfl)) rfl
  refine Eventually.jcc (c := .be) (f := .compare .q 0 (t.regs rdi))
    (line_at hpc 2 (by with_unfolding_all rfl)) (by simp [State.read])
    (labelIndex_pos .finishFormat) (fun htest => ?_) (fun htest => ?_)
  · rw [Cond.holds_be, h.value, decide_eq_true_iff] at htest
    exact hdone (Nat.le_zero.mp htest) _ rfl
      (h.of_regs hd (by decide) (by simp) (by simp) rfl rfl)
  · rw [Cond.holds_be, h.value, decide_eq_false_iff_not] at htest
    exact hmore (fun hv => htest (Nat.le_zero.mpr hv)) _ (by simp [hpc])
      (h.of_regs hd (by decide) (by simp) (by simp) rfl rfl)

/-- The division of the second loop and the branch on the remainder. -/
theorem fillChar_digit (hd : 72 ≤ d) {m v : Nat} {digits : List UInt8} {t : Cpu}
    (hpc : t.pc = pos .fillChar + 3) (h : OffsetLoop base top ret d s m v digits t)
    (hlow : v % 16 < 10 → ∀ t' : Cpu, t'.pc = pos .remLessThanTen + 1 →
      OffsetLoop base top ret d s m v digits t' → (t'.regs rdx).toNat = v % 16 →
      Eventually program ext Q t')
    (hhigh : ¬ v % 16 < 10 → ∀ t' : Cpu, t'.pc = pos .fillChar + 9 →
      OffsetLoop base top ret d s m v digits t' → (t'.regs rdx).toNat = v % 16 →
      Eventually program ext Q t') :
    Eventually program ext Q t := by
  have hrem := toNat_ofNat_remainder v
  apply Eventually.ops [.mov .q rdi rax, .mov .q 0 rdx, .mov .q 16 r14]
    (by rw [hpc]; with_unfolding_all rfl) rfl
  apply Eventually.div r14 16
    (line_at hpc 3 (by with_unfolding_all rfl)) (by simp [State.read])
    (by simp [State.read]) (by omega)
  apply Eventually.ops [.cmp .q 10 rdx]
    (ops_at hpc 4 (by with_unfolding_all rfl)) rfl
  refine Eventually.jcc (c := .b) (f := .compare .q 10 (BitVec.ofNat 64 (v % 16)))
    (line_at hpc 5 (by with_unfolding_all rfl))
    (by simp [State.read, h.value]) (labelIndex_pos .remLessThanTen)
    (fun htest => ?_) (fun htest => ?_)
  · rw [Cond.holds_b, hrem, decide_eq_true_iff] at htest
    apply Eventually.label (l := .remLessThanTen)
      (by show program[pos .remLessThanTen]? = _; with_unfolding_all rfl)
    refine hlow htest _ rfl (h.of_regs hd (by decide) (by simp) (by simp [saved]) rfl rfl) ?_
    simp [State.read, h.value]
    omega
  · rw [Cond.holds_b, hrem, decide_eq_false_iff_not] at htest
    refine hhigh htest _ (by simp [hpc])
      (h.of_regs hd (by decide) (by simp) (by simp [saved]) rfl rfl) ?_
    simp [State.read, h.value]
    omega

/-- Either branch, from its line `p` on, adds the distance `k` from the remainder
to its character and stores that. -/
theorem fillChar_store {p k : Nat} {c : UInt8} {t : Cpu} (hpc : t.pc = p)
    (hops : (program.drop p).take 4 = [.op (.add .q (.imm (BitVec.ofNat 64 k)) rdx),
      .op (.mov .b rdx (idx 0 rsi r11)), .op (.sub .q 1 r11), .op (.shr .q 4 rdi)])
    (hjmp : program[p + 4]? = some (.jmp .fillChar)) (hdx : (t.regs rdx).toNat + k = c.toNat)
    (hnext : ∀ t' : Cpu, Stored rdi r11 [r14] c t t' → t'.pc = pos .fillChar →
      Eventually program ext Q t') :
    Eventually program ext Q t := by
  have hchar : (t.regs rdx + BitVec.ofNat 64 k).toNat = c.toNat := by
    have hlt := c.toNat_lt
    rw [BitVec.toNat_add, BitVec.toNat_ofNat, Nat.add_mod_mod, hdx]
    omega
  apply Eventually.ops [.add .q (.imm (BitVec.ofNat 64 k)) rdx, .mov .b rdx (idx 0 rsi r11),
    .sub .q 1 r11, .shr .q 4 rdi] (by rw [hpc]; exact hops) rfl
  apply Eventually.jmp (l := .fillChar) (line_at hpc 4 hjmp) (labelIndex_pos _)
  apply hnext
  · refine ⟨⟨_, ofNat_toNat_mod hchar, ?_⟩, by simp, by simp [saved], ?_, ?_, by simp⟩
    · simp [State.read, State.addr, idx, Width.bytes]
    · simp [State.read, Nat.shiftRight_eq_div_pow]
    · simp [State.read]
  · rfl

theorem fillChar_rounds :
    Rounds ext (pos .fillChar) (pos .finishFormat) 9 rdi r11 [r14] := by
  intro Q base top ret d s t m v digits hd hpc h hdone hmore
  have hrem : v % 16 < 16 := Nat.mod_lt _ (by omega)
  refine fillChar_test hd hpc h hdone fun hv t₁ hpc₁ h₁ => ?_
  refine fillChar_digit hd hpc₁ h₁ (fun hten t₂ hpc₂ h₂ hdx => ?_) fun hten t₂ hpc₂ h₂ hdx => ?_
  · have hchar : (t₂.regs rdx).toNat + 48 = (hexDigit (v % 16)).toNat := by
      rw [hdx, toNat_hexDigit hrem, if_pos hten, Nat.add_comm]
    exact fillChar_store hpc₂ (by with_unfolding_all rfl) (by with_unfolding_all rfl) hchar
      fun t' hst hpc' => hmore hv t₂ t' h₂ hst hpc'
  · have hchar : (t₂.regs rdx).toNat + 87 = (hexDigit (v % 16)).toNat := by
      rw [hdx, toNat_hexDigit hrem, if_neg hten]
    exact fillChar_store hpc₂ (by with_unfolding_all rfl) (by with_unfolding_all rfl) hchar
      fun t' hst hpc' => hmore hv t₂ t' h₂ hst hpc'

/-- Up to the second loop: eight zeros are in place. -/
theorem fillChar_enter (htop : 72 ≤ top) (htop' : top ≤ 2 ^ 64)
    (h : Entered base (pos .hexFormatOffset) ret s)
    (hsi : s.regs rsi = off base d) (hd : 72 ≤ d) (hd' : d + 9 ≤ 2 ^ 64)
    (hnext : ∀ (t : Cpu) (last : UInt8), t.pc = pos .fillChar →
      OffsetLoop base top ret d s 8 (s.regs rdi).toNat (List.replicate 8 48 ++ [last]) t →
      Eventually program ext Q t) :
    Eventually program ext Q s := by
  have hpc := h.pc
  apply Eventually.label (l := .hexFormatOffset) (by rw [hpc]; with_unfolding_all rfl)
  refine (h.inside d (d + 9) htop htop').pushq r14 (by decide) (by decide) (by decide)
    (line_at hpc 1 (by with_unfolding_all rfl))
    fun t₁ hpc₁ hin₁ hregs₁ hworld₁ _ => ?_
  rw [State.next_pc, hpc] at hpc₁
  have hrsi : t₁.regs rsi = off base d := (hregs₁ rsi (by decide)).trans hsi
  have hrdi : t₁.regs rdi = s.regs rdi := hregs₁ rdi (by decide)
  apply Eventually.ops [.mov .q 0 r10, .mov .q 7 r11] (by rw [hpc₁]; with_unfolding_all rfl) rfl
  obtain ⟨buf, hlen, hbuf⟩ := exists_holds base t₁.mem d 9
  apply fillZero_spec base top ret s hd hd' (s.regs rdi).toNat 8 _ 0
    buf rfl
  · show t₁.pc + 2 = _
    rw [hpc₁]
    with_unfolding_all rfl
  · refine ⟨hin₁.mono hd (by decide) (by simp) (by simp [saved]) (by simp), by simpa using hrsi,
      by simp [hrdi], by simp [State.read], ?_, by simpa using hworld₁⟩
    simpa using hbuf
  · simp [State.read]
  · exact hlen
  · exact hnext

/-- Behind the loops: the terminator is stored and `%r14` is restored. -/
theorem finishFormat_run {m v : Nat} {digits : List UInt8} {last : UInt8} {t : Cpu} (hd : 72 ≤ d)
    (hd' : d + 9 ≤ 2 ^ 64) (hpc : t.pc = pos .finishFormat) (hlen : digits.length = 8)
    (h : OffsetLoop base top ret d s m v (digits ++ [last]) t) :
    Eventually program ext (fun s' => Returned base top ret d (d + 9) s s' ∧
      Holds base s'.mem d (digits ++ [0]) ∧ s'.world = s.world) t := by
  apply Eventually.label (l := .finishFormat) (by rw [hpc]; with_unfolding_all rfl)
  apply Eventually.ops [.mov .q 8 r11, .mov .b 0 (idx 0 rsi r11)]
    (ops_at hpc 1 (by with_unfolding_all rfl)) rfl
  have hend : ∀ u : Cpu, program[u.pc]? = some (popq r14) → program[u.pc + 1]? = some .ret →
      OffsetLoop base top ret d s 9 v (digits ++ [0]) u →
      Eventually program ext (fun s' => Returned base top ret d (d + 9) s s' ∧
        Holds base s'.mem d (digits ++ [0]) ∧ s'.world = s.world) u := by
    intro u hpop hret hu
    refine hu.inside.leave (by decide) hpop hret fun t' hdone _ hworld hmem => ⟨hdone, ?_, ?_⟩
    · rw [hmem]
      exact hu.holds
    · rw [hworld, hu.world]
  apply hend
  · exact line_at hpc 3 (by with_unfolding_all rfl)
  · exact line_at hpc 4 (by with_unfolding_all rfl)
  · refine h.store (w := 0) hd hd' (by decide) (by simp [hlen]) ?_ rfl (by simp) (by simp [saved])
      (by simp) (by simpa using h.value) (by simp [State.read])
    simp [State.read, State.addr, idx, Width.bytes, h.buffer, hlen]

theorem hexFormatOffset_run (htop : 72 ≤ top) (htop' : top ≤ 2 ^ 64)
    (h : Entered base (pos .hexFormatOffset) ret s)
    (hsi : s.regs rsi = off base d) (hd : 72 ≤ d) (hd' : d + 9 ≤ 2 ^ 64)
    (hv : (s.regs rdi).toNat < 2 ^ 32) :
    Eventually program ext (fun s' => Returned base top ret d (d + 9) s s' ∧
      Holds base s'.mem d (hexDigits 8 (s.regs rdi).toNat ++ [0]) ∧ s'.world = s.world) s := by
  refine fillChar_enter htop htop' h hsi hd hd' fun t last hpc hloop => ?_
  refine fillChar_rounds.fill base top ret s hd hd' (by decide) 8 t [last] _ hpc hloop rfl
    (fun t' _ hpc' h' _ => finishFormat_run hd hd' hpc' (by simp) h') fun _ _ _ hover => ?_
  exact absurd (Nat.div_eq_of_lt hv) hover

/-! ## `hex_write_string` -/

/-- Below the top of the address space, offsets from the stack pointer on are
addresses from the stack pointer on. -/
theorem not_off_lt {i j : Nat} (hij : j ≤ i) (hi : base.toNat + i < 2 ^ 64) :
    ¬ off base i < off base j := by
  rw [BitVec.not_lt, BitVec.le_def]
  simp only [off, BitVec.toNat_add, BitVec.toNat_ofNat]
  rw [Nat.mod_eq_of_lt (show j < 2 ^ 64 by omega), Nat.mod_eq_of_lt (show i < 2 ^ 64 by omega),
    Nat.mod_eq_of_lt (by omega), Nat.mod_eq_of_lt hi]
  omega

/-- The bytes that `write` is passed. -/
theorem copyOut_eq {m : Memory} {text rest : List UInt8} (h : Holds base m d (text ++ rest)) :
    copyOut m (off base d) text.length = text := by
  refine List.ext_getElem (by simp [copyOut]) fun i hi hi' => ?_
  have hoff : off (off base d) i = off base (d + i) := off_add base d i
  have hget : (text ++ rest)[i]? = some text[i] := by
    rw [List.getElem?_append_left hi', List.getElem?_eq_getElem hi']
  simp [copyOut, hoff, h i _ hget]

/-- A signed byte that is not positive ends the length loop: the terminator, and
every byte from 128 on. -/
theorem holds_le_byte_iff (c : UInt8) :
    Cond.le.holds (.compare .b 0 (BitVec.ofNat 64 c.toNat)) = true ↔ c = 0 ∨ 128 ≤ c.toNat := by
  have hlt := c.toNat_lt
  have hval : (BitVec.ofNat 64 c.toNat).toNat = c.toNat := by
    rw [BitVec.toNat_ofNat]
    omega
  by_cases hneg : 128 ≤ c.toNat
  · have hless : (Flags.compare .b 0 (BitVec.ofNat 64 c.toNat)).less = true := by
      refine Flags.compare_less_of_neg (by decide) ?_
      rw [hval]
      show 2 ^ 7 ≤ c.toNat % 2 ^ 8
      omega
    rw [Cond.holds, hless, Bool.true_or]
    exact ⟨fun _ => Or.inr hneg, fun _ => rfl⟩
  · have hsmall : (BitVec.ofNat 64 c.toNat).toNat < 2 ^ (8 - 1) := by
      rw [hval]
      omega
    have hzero : c.toNat ≤ 0 ↔ c = 0 := by
      rw [Nat.le_zero, ← UInt8.toNat_inj, UInt8.toNat_zero]
    rw [Cond.holds_le (by decide) hsmall, hval, decide_eq_true_iff]
    exact hzero.trans (or_iff_left hneg).symm

/-- The test of the length loop, on the character at `i`. -/
theorem lengthLoop_test {t : Cpu} {i : Nat} {c : UInt8} (hpc : t.pc = pos .lengthLoop)
    (hr12 : t.regs r12 = BitVec.ofNat 64 i) (hrdi : t.regs rdi = off base d)
    (hchar : t.mem (off base (d + i)) = c)
    (hend : c = 0 ∨ 128 ≤ c.toNat → ∀ t' : Cpu, t'.pc = pos .writeString → t'.regs = t.regs →
      t'.mem = t.mem → t'.world = t.world → Eventually program ext Q t')
    (hmore : ¬(c = 0 ∨ 128 ≤ c.toNat) → ∀ t' : Cpu, t'.pc = pos .lengthLoop + 3 →
      t'.regs = t.regs → t'.mem = t.mem → t'.world = t.world → Eventually program ext Q t') :
    Eventually program ext Q t := by
  have hbyte : readBytes t.mem 1 (off base (d + i)) = c.toNat := by
    rw [readBytes_one, hchar]
  have hzero : Width.b.trunc 0#64 = 0 := by decide
  apply Eventually.label (l := .lengthLoop) (by rw [hpc]; with_unfolding_all rfl)
  apply Eventually.ops [.cmp .b 0 (idx 0 rdi r12)]
    (ops_at hpc 1 (by with_unfolding_all rfl)) rfl
  refine Eventually.jcc (c := .le) (f := .compare .b 0 (BitVec.ofNat 64 c.toNat))
    (line_at hpc 2 (by with_unfolding_all rfl)) ?_
    (labelIndex_pos .writeString) (fun htest => ?_) (fun htest => ?_)
  · simp [State.read, State.addr, idx, hrdi, hr12, Width.bytes, hbyte, hzero]
  · exact hend ((holds_le_byte_iff c).mp htest) _ rfl (by simp) (by simp) (by simp)
  · refine hmore (fun hc => ?_) _ (by simp [hpc]) (by simp) (by simp) (by simp)
    rw [(holds_le_byte_iff c).mpr hc] at htest
    exact Bool.noConfusion htest

variable (base d) in
/-- The length loop, with `k` characters to go before the one that ends it. -/
theorem lengthLoop_spec {text : List UInt8} (htext : ∀ c ∈ text, 0 < c.toNat ∧ c.toNat < 128)
    {last : UInt8} (hlast : last = 0 ∨ 128 ≤ last.toNat)
    (k : Nat) : ∀ (t : Cpu), t.pc = pos .lengthLoop →
    k ≤ text.length → t.regs r12 = BitVec.ofNat 64 (text.length - k) →
    t.regs rdi = off base d → Holds base t.mem d (text ++ [last]) →
    (∀ t' : Cpu, t'.pc = pos .writeString → t'.regs r12 = BitVec.ofNat 64 text.length →
      (∀ r, r ≠ r12 → t'.regs r = t.regs r) → t'.mem = t.mem → t'.world = t.world →
      Eventually program ext Q t') →
    Eventually program ext Q t := by
  induction k with
  | zero =>
      intro t hpc _ hr12 hrdi hholds hQ
      have hchar : t.mem (off base (d + text.length)) = last := hholds.append_right.head
      refine lengthLoop_test hpc hr12 hrdi hchar (fun _ t' hpc' hregs hmem hworld => ?_)
        fun hnot => absurd hlast hnot
      exact hQ t' hpc' (hregs ▸ hr12) (fun r _ => congrFun hregs r) hmem hworld
  | succ k ih =>
      intro t hpc hk hr12 hrdi hholds hQ
      obtain ⟨i, hi⟩ : ∃ i, text.length - (k + 1) = i := ⟨_, rfl⟩
      rw [hi] at hr12
      have hlt : i < text.length := by omega
      obtain ⟨hpos, hsmall⟩ := htext _ (List.getElem_mem hlt)
      have hchar : t.mem (off base (d + i)) = text[i] := hholds i _ (by
        rw [List.getElem?_append_left hlt, List.getElem?_eq_getElem hlt])
      have hgoes : ¬(text[i] = 0 ∨ 128 ≤ text[i].toNat) := by
        rintro (hzero | hneg)
        · rw [hzero] at hpos
          exact absurd hpos (Nat.lt_irrefl 0)
        · omega
      refine lengthLoop_test hpc hr12 hrdi hchar (fun hend => absurd hend hgoes)
        fun _ t₁ hpc₁ hregs₁ hmem₁ hworld₁ => ?_
      apply Eventually.ops [.add .q 1 r12] (by rw [hpc₁]; with_unfolding_all rfl) rfl
      apply Eventually.jmp (l := .lengthLoop)
        (line_at hpc₁ 1 (by with_unfolding_all rfl)) (labelIndex_pos _)
      apply ih _ rfl (by omega)
      · have hnext : text.length - k = i + 1 := by omega
        simp [State.read, hregs₁, hr12, hnext, BitVec.ofNat_add]
      · simpa [hregs₁] using hrdi
      · simpa [hmem₁] using hholds
      · intro t' hpc' hr12' hregs' hmem' hworld'
        refine hQ t' hpc' hr12' (fun r hr => ?_) ?_ ?_
        · rw [hregs' r hr]
          simp [hregs₁, hr]
        · simpa [hmem₁] using hmem'
        · simpa [hworld₁] using hworld'

/-- Memory from the stack pointer on survives a libc function. -/
theorem Libc.leave_mem {t : Cpu} {result : Word} {m : Memory} {w : World} {i j : Nat}
    (hrsp : t.regs rsp = off base j) (hij : j ≤ i) (hi : base.toNat + i < 2 ^ 64) :
    (lib.leave t result m w).mem (off base i) = m (off base i) := by
  have hnot : ¬ off base i < t.regs rsp := by
    rw [hrsp]
    exact not_off_lt hij hi
  simp only [Libc.leave, hnot, if_false]

/-- What libc leaves of a state inside a function. -/
theorem Libc.inside_leave (lib : Libc) (result : Word) (w : World) {lo hi : Nat} {t : Cpu}
    {m : Memory} (h : Inside base top ret lo hi slots s t) (hlo : 72 ≤ lo)
    (hdepth : slots.length ≤ 7)
    (hbase : base.toNat + top ≤ 2 ^ 64)
    (hm : ∀ i, 64 - 8 * slots.length ≤ i → i < top → i < lo ∨ hi ≤ i →
      m (off base i) = t.mem (off base i)) :
    Inside base top ret lo hi slots s (lib.leave t result m w) := by
  refine h.mono hlo hdepth (by simp [Libc.leave, kept]) ?_ fun i hi hi' ho => ?_
  · have hkept : ∀ r ∈ saved, r ∈ kept ∧ r ≠ rax := by decide
    intro r hr _
    simp [Libc.leave, hkept r hr]
  · rw [Libc.leave_mem h.sp hi (by omega), hm i hi hi' ho]

/-- Up to the call of `write`, which is passed the string and the number of
characters before the one that ends the length loop. -/
theorem hexWriteString_call (htop : 72 ≤ top) (htop' : top ≤ 2 ^ 64)
    (h : Entered base (pos .hexWriteString) ret s) (hdi : s.regs rdi = off base d)
    {text : List UInt8} (htext : ∀ c ∈ text, 0 < c.toNat ∧ c.toNat < 128) {last : UInt8}
    (hlast : last = 0 ∨ 128 ≤ last.toNat) (hholds : Holds base s.mem d (text ++ [last]))
    (hd : 72 ≤ d) (hlen : d + text.length < top)
    (hnext : ∀ u : Cpu, u.pc = pos .writeString + 4 → Inside base top ret d d [r12] s u →
      u.regs rdi = 1 → u.regs rsi = off base d → u.regs rdx = BitVec.ofNat 64 text.length →
      Holds base u.mem d (text ++ [last]) → u.world = s.world → Eventually program ext Q u) :
    Eventually program ext Q s := by
  have hpc := h.pc
  apply Eventually.label (l := .hexWriteString) (by rw [hpc]; with_unfolding_all rfl)
  refine (h.inside d d htop htop').pushq r12 (by decide) (by decide) (by decide)
    (line_at hpc 1 (by with_unfolding_all rfl))
    fun t₁ hpc₁ hin₁ hregs₁ hworld₁ hmem₁ => ?_
  rw [State.next_pc, hpc] at hpc₁
  have hrdi : t₁.regs rdi = off base d := (hregs₁ rdi (by decide)).trans hdi
  have hholds₁ : Holds base t₁.mem d (text ++ [last]) := by
    refine hholds.congr fun k hk hk' => hmem₁ k (by omega) ?_
    rw [List.length_append, List.length_singleton] at hk'
    omega
  apply Eventually.ops [.mov .q 0 r12] (by rw [hpc₁]; with_unfolding_all rfl) rfl
  refine lengthLoop_spec base d htext hlast text.length _ ?_ (Nat.le_refl _) ?_ ?_ ?_
    fun t₂ hpc₂ hr12 hregs₂ hmem₂ hworld₂ => ?_
  · show t₁.pc + 1 = _
    rw [hpc₁]
    with_unfolding_all rfl
  · simp [State.read]
  · simpa using hrdi
  · simpa using hholds₁
  · apply Eventually.label (l := .writeString) (by rw [hpc₂]; with_unfolding_all rfl)
    apply Eventually.ops [.mov .q rdi rsi, .mov .l 1 rdi, .mov .q r12 rdx]
      (ops_at hpc₂ 1 (by with_unfolding_all rfl)) rfl
    have hone : Width.l.trunc 1#64 = 1 := by decide
    apply hnext
    · show t₂.pc + 4 = _
      rw [hpc₂]
    · refine hin₁.mono hd (by decide) ?_ ?_ ?_
      · simp [hregs₂]
      · simp [saved, hregs₂]
      · simp [hmem₂]
    · simp [State.read, hone]
    · simpa [State.read, hregs₂] using hrdi
    · simpa [State.read] using hr12
    · simpa [hmem₂] using hholds₁
    · simp [hworld₂, hworld₁]

/-- From the call of `write` on. -/
theorem writeString_run (htop' : base.toNat + top ≤ 2 ^ 64) (hd : 72 ≤ d) {text rest : List UInt8}
    {u : Cpu} (hext : ext .write u = lib.run .write u) (hpc : u.pc = pos .writeString + 4)
    (hin : Inside base top ret d d [r12] s u) (hrdi : u.regs rdi = 1)
    (hrsi : u.regs rsi = off base d) (hrdx : u.regs rdx = BitVec.ofNat 64 text.length)
    (hlen : text.length < 2 ^ 64) (hholds : Holds base u.mem d (text ++ rest))
    (hworld : u.world = s.world) :
    Eventually program ext (fun s' => Returned base top ret d d s s' ∧
      s'.regs rdi = 1 ∧ s'.world = { s.world with output := s.world.output ++ text }) u := by
  have hcount : (u.regs rdx).toNat = text.length := by
    rw [hrdx, BitVec.toNat_ofNat, Nat.mod_eq_of_lt hlen]
  have hwrite : ext .write u = some (lib.leave u (u.regs rdx) u.mem
      { s.world with output := s.world.output ++ text }) := by
    rw [hext, Libc.run, if_pos hrdi, hrsi, hcount, copyOut_eq hholds, hworld]
  refine Eventually.external (by rw [hpc]; with_unfolding_all rfl) hwrite ?_
  have hin' := Libc.inside_leave lib (u.regs rdx)
    { s.world with output := s.world.output ++ text } hin hd (by decide) htop' fun _ _ _ _ => rfl
  have hafter : ∀ v : Cpu, v.pc = pos .writeString + 5 → Inside base top ret d d [r12] s v →
      v.regs rdi = 1 → v.world = { s.world with output := s.world.output ++ text } →
      Eventually program ext (fun s' => Returned base top ret d d s s' ∧
        s'.regs rdi = 1 ∧ s'.world = { s.world with output := s.world.output ++ text }) v := by
    intro v hpc hin hrdi hworld
    refine hin.leave (by decide) (by rw [hpc]; with_unfolding_all rfl)
      (by rw [hpc]; with_unfolding_all rfl) fun s' hdone hregs hworld' _ => ⟨hdone, ?_, ?_⟩
    · rw [hregs rdi (by decide) (by decide)]
      exact hrdi
    · rw [hworld', hworld]
  apply hafter
  · show u.pc + 1 = _
    rw [hpc]
  · exact hin'.mono hd (by decide) rfl (fun _ _ _ => rfl) fun _ _ _ _ => rfl
  · exact hrdi
  · rfl

theorem hexWriteString_run (htop : 72 ≤ top) (htop' : base.toNat + top ≤ 2 ^ 64)
    (h : Entered base (pos .hexWriteString) ret s) (hdi : s.regs rdi = off base d)
    {text : List UInt8} (htext : ∀ c ∈ text, 0 < c.toNat ∧ c.toNat < 128)
    (hholds : Holds base s.mem d (text ++ [0])) (hd : 72 ≤ d) (hlen : d + text.length < top) :
    Eventually program (lib.guarded ok) (fun s' => Returned base top ret d d s s' ∧
      s'.regs rdi = 1 ∧ s'.world = { s.world with output := s.world.output ++ text }) s := by
  refine hexWriteString_call htop (by omega) h hdi htext (.inl rfl) hholds hd hlen
    fun u hpc hin hrdi hrsi hrdx hholds' hworld => ?_
  exact writeString_run htop' hd rfl hpc hin hrdi hrsi hrdx (by omega) hholds' hworld

/-! ## `hex_read` -/

/-- A copy, seen from the window. -/
theorem copyIn_off {m : Memory} {bytes : List UInt8} {i : Nat} (hi : i < 2 ^ 64)
    (hd : d + bytes.length ≤ 2 ^ 64) (hd' : d < 2 ^ 64) :
    copyIn m (off base d) bytes (off base i) =
      if d ≤ i then bytes[i - d]?.getD (m (off base i)) else m (off base i) := by
  rw [copyIn, toNat_off_sub_off base hi hd']
  split
  · rfl
  · rw [List.getElem?_eq_none (by omega), Option.getD_none]

/-- Up to the call of `read` into the buffer, whose address is kept for the
terminator. -/
theorem hexRead_call (htop : 72 ≤ top) (htop' : top ≤ 2 ^ 64)
    (h : Entered base (pos .hexRead) ret s) (hdi : s.regs rdi = off base d) (hd : 72 ≤ d)
    (hnext : ∀ u : Cpu, u.pc = pos .hexRead + 6 → Inside base top ret d (d + 17) [r12] s u →
      u.regs rdi = 0 → u.regs rdx = 16 → u.regs rsi = off base d → u.regs r12 = off base d →
      u.world = s.world → Eventually program ext Q u) :
    Eventually program ext Q s := by
  have hpc := h.pc
  apply Eventually.label (l := .hexRead) (by rw [hpc]; with_unfolding_all rfl)
  refine (h.inside d (d + 17) htop htop').pushq r12 (by decide) (by decide) (by decide)
    (line_at hpc 1 (by with_unfolding_all rfl))
    fun t₁ hpc₁ hin₁ hregs₁ hworld₁ _ => ?_
  rw [State.next_pc, hpc] at hpc₁
  have hrdi : t₁.regs rdi = off base d := (hregs₁ rdi (by decide)).trans hdi
  have hzero : Width.l.trunc 0#64 = 0 := by decide
  apply Eventually.ops [.mov .q rdi r12, .mov .l 0 rdi, .mov .q r12 rsi, .mov .q 16 rdx]
    (by rw [hpc₁]; with_unfolding_all rfl) rfl
  apply hnext
  · show t₁.pc + 4 = _
    rw [hpc₁]
  · exact hin₁.mono hd (by decide) (by simp) (by simp [saved]) (by simp)
  · simp [State.read, hzero]
  · simp [State.read]
  · simpa [State.read] using hrdi
  · simpa [State.read] using hrdi
  · simpa using hworld₁

/-- `ok` accepts the reads that deliver bytes to the buffer at `buf`. -/
def Accepts (ok : Cpu → Bool) (buf : Word) : Prop :=
  ∀ (u : Cpu) (chunk : Chunk) (input : List ReadResult), u.regs rsi = buf → u.regs r12 = buf →
    u.world.input = .bytes chunk :: input → ok u = true

/-- Behind the call: the terminator is stored and the function returns. -/
theorem terminator_run (htop' : base.toNat + top ≤ 2 ^ 64) (hd : 72 ≤ d) (hd' : d + 17 ≤ top)
    {bytes : List UInt8} (hlen : bytes.length ≤ 16) {b : UInt8} {input : List ReadResult} {u : Cpu}
    (hpc : u.pc = pos .hexRead + 7) (hin : Inside base top ret d (d + 17) [r12] s u)
    (hr12 : u.regs r12 = off base d) (hrax : u.regs rax = BitVec.ofNat 64 bytes.length)
    (hholds : Holds base u.mem d (bytes ++ [b]))
    (hworld : u.world = { s.world with input := input }) :
    Eventually program ext (fun s' => Returned base top ret d (d + 17) s s' ∧
      (s'.regs rax).toNat = bytes.length ∧ Holds base s'.mem d (bytes ++ [0]) ∧
      s'.world = { s.world with input := input }) u := by
  have hcount : (BitVec.ofNat 64 bytes.length).toNat = bytes.length := by
    rw [BitVec.toNat_ofNat, Nat.mod_eq_of_lt (by omega)]
  have hnul := hholds.write (v := 0) (c := 0) rfl (by
    rw [List.length_append, List.length_singleton]
    omega)
  apply Eventually.ops [.mov .b 0 (idx 0 r12 rax)] (by rw [hpc]; with_unfolding_all rfl) rfl
  refine Inside.leave (hin.mono hd (by decide) (by simp) (by simp) fun i _ hi ho => ?_)
    (by decide) (line_at hpc 1 (by with_unfolding_all rfl))
    (line_at hpc 2 (by with_unfolding_all rfl))
    fun s' hdone hregs hworld' hmem' => ⟨hdone, ?_, ?_, ?_⟩
  · have hout : writeBytes u.mem 1 (off base (d + bytes.length)) 0 (off base i) =
        u.mem (off base i) :=
      writeBytes_off_of_outside (by omega) (by omega) (by omega)
    simpa [State.read, State.addr, idx, Width.bytes, hr12, hrax] using hout
  · rw [hregs rax (by decide) (by decide)]
    simp [hrax, hcount]
  · rw [hmem']
    simpa [State.read, State.addr, idx, Width.bytes, hr12, hrax] using hnul
  · rw [hworld']
    simpa using hworld

theorem hexRead_run (htop : 72 ≤ top) (htop' : base.toNat + top ≤ 2 ^ 64)
    (h : Entered base (pos .hexRead) ret s) (hdi : s.regs rdi = off base d) (hd : 72 ≤ d)
    (hd' : d + 17 ≤ top) {chunk : Chunk} {input : List ReadResult}
    (hinput : s.world.input = .bytes chunk :: input) (hok : Accepts ok (off base d)) :
    Eventually program (lib.guarded ok) (fun s' => Returned base top ret d (d + 17) s s' ∧
      (s'.regs rax).toNat = chunk.val.length ∧ Holds base s'.mem d (chunk.val ++ [0]) ∧
      s'.world = { s.world with input := input }) s := by
  refine hexRead_call htop (by omega) h hdi hd fun u hpc hin hrdi hrdx hrsi hr12 hworld => ?_
  obtain ⟨bytes, hlen⟩ := chunk
  have hread : lib.guarded ok .read u = some (lib.leave u (BitVec.ofNat 64 bytes.length)
      (copyIn u.mem (off base d) bytes) { s.world with input := input }) := by
    have hhead : u.world.input = .bytes ⟨bytes, hlen⟩ :: input := by rw [hworld, hinput]
    rw [Libc.guarded, if_pos (hok u _ _ hrsi hr12 hhead), Libc.run, if_pos ⟨hrdi, hrdx⟩, hrsi,
      hworld, hinput]
  have hcopy : ∀ i, 64 - 8 * [r12].length ≤ i → i < top → i < d ∨ d + 17 ≤ i →
      copyIn u.mem (off base d) bytes (off base i) = u.mem (off base i) := by
    intro i _ hi ho
    rw [copyIn_off (by omega) (by omega) (by omega)]
    split
    · rw [List.getElem?_eq_none (by omega), Option.getD_none]
    · rfl
  have hin' := Libc.inside_leave lib (BitVec.ofNat 64 bytes.length)
    { s.world with input := input } hin hd (by decide) htop' hcopy
  have hbytes : Holds base (lib.leave u (BitVec.ofNat 64 bytes.length)
      (copyIn u.mem (off base d) bytes) { s.world with input := input }).mem d bytes := by
    intro k b hk
    have hklt := (List.getElem?_eq_some_iff.mp hk).1
    rw [Libc.leave_mem hin.sp (by simp; omega) (by omega),
      copyIn_off (by omega) (by omega) (by omega), if_pos (by omega),
      Nat.add_sub_cancel_left, hk, Option.getD_some]
  refine Eventually.external (by rw [hpc]; with_unfolding_all rfl) hread ?_
  refine terminator_run htop' hd hd' hlen ?_ ?_ ?_ ?_ hbytes.concat ?_
  · show u.pc + 1 = _
    rw [hpc]
  · exact hin'.mono hd (by decide) rfl (fun _ _ _ => rfl) fun _ _ _ _ => rfl
  · simpa [Libc.leave, kept] using hr12
  · simp [Libc.leave]
  · rfl

end Csf.Hexdump.Asm
