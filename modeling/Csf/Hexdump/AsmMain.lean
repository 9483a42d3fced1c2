import Csf.Hexdump.AsmFuncs
import Csf.Hexdump.Lossless

/-!
# Hexdump: the assembly main function

`asm_hexmain.S` against the C program. The window is based so that `%rbp` is 80
bytes into it: the frame is the 40 bytes from there, `main`'s return address
follows at offset 120, and a function that is called finds its own at 64.

    80 offset   84 newline   86 colon   89 space
    91 asciival   94 offset2   103 data_buf   120 return address

`InMain` is what every line of `main` keeps; the loops add what their buffers
hold. The output of a run is the grammar of the C program's, so the two agree.
-/

namespace Csf.Hexdump.Asm

open Csf.Lib.X86 Csf.Lib.X86.Reg Csf.Lib.Hex

set_option maxRecDepth 4000

/-- A state of `main`: `k` lines are counted, `input` is still to be read and
`out` has been written. -/
structure InMain (base : Word) (ret k : Nat) (input : List ReadResult) (out : List UInt8)
    (t : Cpu) : Prop where
  fits : base.toNat + 128 ≤ 2 ^ 64
  bp : t.regs rbp = off base 80
  sp : t.regs rsp = off base 72
  offset : readBytes t.mem 4 (off base 80) = 16 * k % 2 ^ 32
  newline : Holds base t.mem 84 [10, 0]
  colon : Holds base t.mem 86 [58, 32, 0]
  space : Holds base t.mem 89 [32, 0]
  ret : readBytes t.mem 8 (off base 120) = ret
  world : t.world = { input := input, output := out }

section

variable {base : Word} {ret k : Nat} {input : List ReadResult} {out : List UInt8} {t : Cpu}
  {lib : Libc} {ok : Cpu → Bool} {Q : Cpu → Prop}

/-- A step that stores in the three buffers only. -/
theorem InMain.mono {t' : Cpu} {input' : List ReadResult} {out' : List UInt8}
    (h : InMain base ret k input out t) (hbp : t'.regs rbp = t.regs rbp)
    (hsp : t'.regs rsp = t.regs rsp)
    (hmem : ∀ i, 80 ≤ i → i < 128 → i < 91 ∨ 120 ≤ i → t'.mem (off base i) = t.mem (off base i))
    (hworld : t'.world = { input := input', output := out' }) :
    InMain base ret k input' out' t' := by
  refine ⟨h.fits, hbp.trans h.bp, hsp.trans h.sp, ?_, ?_, ?_, ?_, ?_, hworld⟩
  · rw [← h.offset]
    exact readBytes_congr fun i hi hi' => hmem i (by omega) (by omega) (by omega)
  · exact h.newline.congr fun i hi hi' => hmem i (by omega) (by simp at hi'; omega)
      (by simp at hi'; omega)
  · exact h.colon.congr fun i hi hi' => hmem i (by omega) (by simp at hi'; omega)
      (by simp at hi'; omega)
  · exact h.space.congr fun i hi hi' => hmem i (by omega) (by simp at hi'; omega)
      (by simp at hi'; omega)
  · rw [← h.ret]
    exact readBytes_congr fun i hi hi' => hmem i (by omega) (by omega) (by omega)

/-- A call from `main`, up to the first line of the function. -/
theorem InMain.enter {l : Label} (h : InMain base ret k input out t)
    (hline : program[t.pc]? = some (.call l))
    (hnext : ∀ u : Cpu, Entered base (pos l) (t.pc + 1) u → (∀ r, r ≠ rsp → u.regs r = t.regs r) →
      (∀ i, 72 ≤ i → i < 2 ^ 64 → u.mem (off base i) = t.mem (off base i)) →
      u.world = t.world → Eventually program (lib.guarded ok) Q u) :
    Eventually program (lib.guarded ok) Q t := by
  have hpc : t.pc + 1 < 2 ^ 64 :=
    lt_of_le_of_lt (List.getElem?_eq_some_iff.mp hline).1 length_program
  -- the return address goes below the frame, where nothing of `main` is kept
  have hmem : (t.push (BitVec.ofNat 64 (t.pc + 1))).mem =
      writeBytes t.mem 8 (off base 64) (t.pc + 1) := by
    show writeBytes t.mem 8 (t.regs rsp - BitVec.ofNat 64 8) (BitVec.ofNat 64 (t.pc + 1)).toNat = _
    rw [h.sp, off_sub (by omega), BitVec.toNat_ofNat, Nat.mod_eq_of_lt hpc]
  apply Eventually.call hline (labelIndex_pos l)
  apply hnext
  · refine ⟨rfl, ?_, ?_⟩
    · simp [State.push, h.sp]
    · rw [State.goto_mem, hmem]
      exact readBytes_writeBytes (by omega) (lt_of_lt_of_le hpc (by omega))
  · intro r hr
    simp [State.push, hr]
  · intro i hi hi'
    rw [State.goto_mem, hmem]
    exact writeBytes_off_of_outside hi' (by omega) (by omega)
  · simp [State.push]

/-- What a call leaves of `main`, the function having stored between `lo` and
`hi`. -/
structure Kept (base : Word) (lo hi : Nat) (t t' : Cpu) : Prop where
  pc : t'.pc = t.pc + 1
  sp : t'.regs rsp = off base 72
  saved : ∀ r ∈ saved, t'.regs r = t.regs r
  mem : ∀ i, 72 ≤ i → i < 128 → i < lo ∨ hi ≤ i → t'.mem (off base i) = t.mem (off base i)

theorem Kept.of_returned {lo hi : Nat} {u t' : Cpu}
    (hregs : ∀ r, r ≠ rsp → u.regs r = t.regs r)
    (hmem : ∀ i, 72 ≤ i → i < 2 ^ 64 → u.mem (off base i) = t.mem (off base i))
    (h : Returned base 128 (t.pc + 1) lo hi u t') : Kept base lo hi t t' := by
  refine ⟨h.pc, h.sp, fun r hr => ?_, fun i hi hi' ho => ?_⟩
  · rw [h.saved r hr, hregs r (by rintro rfl; exact absurd hr (by decide))]
  · rw [h.unchanged i hi hi' ho, hmem i hi (by omega)]

/-- `main` goes on after a call. -/
theorem InMain.kept {lo hi : Nat} {t' : Cpu} {input' : List ReadResult} {out' : List UInt8}
    (h : InMain base ret k input out t) (hk : Kept base lo hi t t') (hlo : 91 ≤ lo)
    (hhi : hi ≤ 120) (hworld : t'.world = { input := input', output := out' }) :
    InMain base ret k input' out' t' :=
  h.mono (hk.saved rbp (by decide)) (hk.sp.trans h.sp.symm)
    (fun i hi hi' ho => hk.mem i (by omega) hi' (by omega)) hworld

/-- A function that stored nothing for its caller. -/
theorem Kept.of_empty {lo : Nat} {t' : Cpu} (h : Kept base lo lo t t') : Kept base 91 91 t t' :=
  ⟨h.pc, h.sp, h.saved, fun i hi hi' _ => h.mem i hi hi' (by omega)⟩

/-- Instructions that change no memory and neither pointer register. -/
theorem InMain.of_regs {t' : Cpu} (h : InMain base ret k input out t)
    (hbp : t'.regs rbp = t.regs rbp) (hsp : t'.regs rsp = t.regs rsp) (hmem : t'.mem = t.mem)
    (hworld : t'.world = t.world) : InMain base ret k input out t' :=
  h.mono hbp hsp (fun _ _ _ _ => by rw [hmem]) (hworld.trans h.world)

/-- `leaq d(%rbp), %rdi` and `call hex_write_string`. -/
theorem InMain.print (d : Nat) (text : List UInt8) (h : InMain base ret k input out t)
    (hcode : (program.drop t.pc).take 2 = [leaq (ptr d rbp) rdi, .call .hexWriteString])
    (htext : ∀ c ∈ text, 0 < c.toNat ∧ c.toNat < 128)
    (hholds : Holds base t.mem (80 + d) (text ++ [0])) (hlen : 80 + d + text.length < 128)
    (hnext : ∀ t' : Cpu, t'.pc = t.pc + 2 → InMain base ret k input (out ++ text) t' →
      (∀ r ∈ saved, t'.regs r = t.regs r) → t'.regs rdi = 1 →
      (∀ i, 72 ≤ i → i < 128 → t'.mem (off base i) = t.mem (off base i)) →
      Eventually program (lib.guarded ok) Q t') :
    Eventually program (lib.guarded ok) Q t := by
  have hline : (program.drop t.pc).take 1 = [leaq (ptr d rbp) rdi] := by
    have htake : ((program.drop t.pc).take 2).take 1 = [leaq (ptr d rbp) rdi] := by
      rw [hcode]
      rfl
    rwa [List.take_take] at htake
  have hcall : program[t.pc + 1]? = some (.call .hexWriteString) := by
    have hget : ((program.drop t.pc).take 2)[1]? = some (.call .hexWriteString) := by
      rw [hcode]
      rfl
    rwa [List.getElem?_take_of_lt (by omega), List.getElem?_drop] at hget
  apply Eventually.ops [.lea (ptr d rbp) rdi] hline rfl
  have hmain : InMain base ret k input out (t.setReg rdi (t.addr (ptr d rbp))).next :=
    h.of_regs (by simp) (by simp) (by simp) (by simp)
  refine hmain.enter (l := .hexWriteString) hcall fun u hu hregs hmem hworld => ?_
  have hdi : u.regs rdi = off base (80 + d) := by
    rw [hregs rdi (by decide)]
    simp [State.addr, ptr, h.bp]
  have hmem' : ∀ i, 72 ≤ i → i < 2 ^ 64 → u.mem (off base i) = t.mem (off base i) := hmem
  refine (hexWriteString_run (by omega) h.fits hu hdi htext ?_ (by omega)
    hlen).trans ?_
  · refine hholds.congr fun i hi hi' => hmem' i (by omega) ?_
    rw [List.length_append, List.length_singleton] at hi'
    omega
  · intro t' hdone
    obtain ⟨hreturned, hrdi, hout⟩ := hdone
    have hkept := (Kept.of_returned hregs hmem hreturned).of_empty
    have hworld' : t'.world = { input := input, output := out ++ text } := by
      rw [hout, hworld]
      simp [h.world]
    apply hnext
    · exact hkept.pc
    · exact hmain.kept hkept (by omega) (by omega) hworld'
    · intro r hr
      have hne : r ≠ rdi := by rintro rfl; exact absurd hr (by decide)
      rw [hkept.saved r hr]
      simp [hne]
    · exact hrdi
    · intro i hi hi'
      exact hkept.mem i hi hi' (by omega)

/-! ## One line -/

/-- `main` between two reads: `%r12` counts the bytes read, and `data_buf` holds
`buf` in their place. -/
structure InLine (base : Word) (ret k : Nat) (input : List ReadResult) (out buf : List UInt8)
    (t : Cpu) : Prop extends InMain base ret k input out t where
  size : buf.length ≤ 16
  nread : t.regs r12 = BitVec.ofNat 64 buf.length
  data : Holds base t.mem 103 (buf ++ [0])

variable {buf : List UInt8}

theorem InLine.of_regs {t' : Cpu} (h : InLine base ret k input out buf t)
    (hbp : t'.regs rbp = t.regs rbp) (hsp : t'.regs rsp = t.regs rsp)
    (hr12 : t'.regs r12 = t.regs r12) (hmem : t'.mem = t.mem) (hworld : t'.world = t.world) :
    InLine base ret k input out buf t' :=
  ⟨h.toInMain.of_regs hbp hsp hmem hworld, h.size, hr12.trans h.nread, by rw [hmem]; exact h.data⟩

/-- A call during a line that stores into the other two buffers. -/
theorem InLine.kept {lo hi : Nat} {t' : Cpu} (h : InLine base ret k input out buf t)
    (hk : Kept base lo hi t t') (hlo : 91 ≤ lo) (hhi : hi ≤ 103) (hworld : t'.world = t.world) :
    InLine base ret k input out buf t' := by
  have hsize := h.size
  refine ⟨h.toInMain.kept hk hlo (by omega) (hworld.trans h.world), hsize,
    (hk.saved r12 (by decide)).trans h.nread, h.data.congr fun i hi hi' => ?_⟩
  rw [List.length_append, List.length_singleton] at hi'
  exact hk.mem i (by omega) (by omega) (by omega)

/-- `leaq d(%rbp), %rdi` and `call hex_write_string` during a line. -/
theorem InLine.print (d : Nat) (text : List UInt8) (h : InLine base ret k input out buf t)
    (hcode : (program.drop t.pc).take 2 = [leaq (ptr d rbp) rdi, .call .hexWriteString])
    (htext : ∀ c ∈ text, 0 < c.toNat ∧ c.toNat < 128)
    (hholds : Holds base t.mem (80 + d) (text ++ [0])) (hlen : 80 + d + text.length < 128)
    (hnext : ∀ t' : Cpu, t'.pc = t.pc + 2 → InLine base ret k input (out ++ text) buf t' →
      t'.regs r13 = t.regs r13 → t'.regs rdi = 1 → Eventually program (lib.guarded ok) Q t') :
    Eventually program (lib.guarded ok) Q t := by
  refine h.toInMain.print d text hcode htext hholds hlen fun t' hpc hmain hsaved hrdi hmem => ?_
  have hsize := h.size
  refine hnext t' hpc ⟨hmain, hsize, (hsaved r12 (by decide)).trans h.nread, ?_⟩
    (hsaved r13 (by decide)) hrdi
  refine h.data.congr fun i hi hi' => hmem i (by omega) ?_
  rw [List.length_append, List.length_singleton] at hi'
  omega

/-- Characters between a digit and `f`, or in the printable range, end no string. -/
theorem pos_and_small {lo hi : Nat} {c : UInt8} (hlo : 0 < lo) (hhi : hi < 128)
    (h : lo ≤ c.toNat ∧ c.toNat ≤ hi) : 0 < c.toNat ∧ c.toNat < 128 :=
  ⟨lt_of_lt_of_le hlo h.1, lt_of_le_of_lt h.2 hhi⟩

/-- `space` is printed. -/
theorem InLine.printSpace (h : InLine base ret k input out buf t)
    (hcode : (program.drop t.pc).take 2 = [leaq (ptr 9 rbp) rdi, .call .hexWriteString])
    (hnext : ∀ t' : Cpu, t'.pc = t.pc + 2 → InLine base ret k input (out ++ [32]) buf t' →
      t'.regs r13 = t.regs r13 → t'.regs rdi = 1 → Eventually program (lib.guarded ok) Q t') :
    Eventually program (lib.guarded ok) Q t :=
  h.print 9 [32] hcode (by simp) h.space (by simp) hnext

/-- A read result is stored in `data_buf` and counted. -/
theorem InMain.read {chunk : Chunk} (h : InMain base ret k (.bytes chunk :: input) out t)
    (hcode : (program.drop t.pc).take 1 = [leaq (ptr 23 rbp) rdi])
    (hcall : program[t.pc + 1]? = some (.call .hexRead))
    (hcount : (program.drop (t.pc + 2)).take 1 = [movl rax r12])
    (hok : Accepts ok (off base 103))
    (hnext : ∀ t' : Cpu, t'.pc = t.pc + 3 → InLine base ret k input out chunk.val t' →
      Eventually program (lib.guarded ok) Q t') :
    Eventually program (lib.guarded ok) Q t := by
  have hsize := chunk.property
  apply Eventually.ops [.lea (ptr 23 rbp) rdi] hcode rfl
  have hmain : InMain base ret k (.bytes chunk :: input) out
      (t.setReg rdi (t.addr (ptr 23 rbp))).next :=
    h.of_regs (by simp) (by simp) (by simp) (by simp)
  refine hmain.enter (l := .hexRead) hcall fun u hu hregs hmem hworld => ?_
  have hdi : u.regs rdi = off base 103 := by
    rw [hregs rdi (by decide)]
    simp [State.addr, ptr, h.bp]
  have hinput : u.world.input = .bytes chunk :: input := by
    rw [hworld]
    simp [h.world]
  refine (hexRead_run (by omega) h.fits hu hdi (by omega) (by omega)
    hinput hok).trans ?_
  intro t' hdone
  obtain ⟨hreturned, hrax, hdata, hworld'⟩ := hdone
  have hkept := Kept.of_returned hregs hmem hreturned
  have hmain' : InMain base ret k input out t' := by
    apply hmain.kept hkept (by omega) (by omega)
    rw [hworld', hworld]
    simp [h.world]
  apply Eventually.ops [.mov .l rax r12] (by rw [hkept.pc]; exact hcount) rfl
  apply hnext
  · show t'.pc + 1 = _
    rw [hkept.pc]
    rfl
  · refine ⟨hmain'.of_regs (by simp) (by simp) (by simp) (by simp), hsize, ?_, by simpa using hdata⟩
    have hsmall : (t'.regs rax).toNat < 256 ^ Width.l.bytes := by
      rw [hrax]
      exact lt_of_le_of_lt hsize (by decide)
    simp [State.read, Width.trunc_of_lt hsmall, ← hrax]

/-- The offset is formatted and printed with the colon behind it. -/
theorem offset_run (h : InLine base ret k input out buf t) (hpc : t.pc = pos .printLoop + 3)
    (hnext : ∀ t' : Cpu, t'.pc = pos .printLoop + 10 →
      InLine base ret k input (out ++ hexDigits 8 (16 * k % 2 ^ 32) ++ [58, 32]) buf t' →
      t'.regs rdi = 1 → Eventually program (lib.guarded ok) Q t') :
    Eventually program (lib.guarded ok) Q t := by
  apply Eventually.ops [.mov .l (ptr 0 rbp) rdi, .lea (ptr 14 rbp) rsi]
    (by rw [hpc]; with_unfolding_all rfl) rfl
  -- the call and what follows, for any state with the two arguments in place
  have hline : ∀ u : Cpu, u.pc = pos .printLoop + 5 → InLine base ret k input out buf u →
      (u.regs rdi).toNat = 16 * k % 2 ^ 32 → u.regs rsi = off base 94 →
      Eventually program (lib.guarded ok) Q u := by
    intro u hpc hu hrdi hrsi
    refine hu.toInMain.enter (l := .hexFormatOffset) (by rw [hpc]; with_unfolding_all rfl)
      fun v hv hregs hmem hworld => ?_
    have hvdi : (v.regs rdi).toNat = 16 * k % 2 ^ 32 := by rw [hregs rdi (by decide), hrdi]
    have hvsi : v.regs rsi = off base 94 := by rw [hregs rsi (by decide), hrsi]
    refine (hexFormatOffset_run (show 72 ≤ 128 by omega) (by omega) hv hvsi (by omega)
      (by omega) (by omega)).trans ?_
    intro t₁ hdone
    obtain ⟨hreturned, hdigits, hworld₁⟩ := hdone
    have hkept := Kept.of_returned hregs hmem hreturned
    have ht₁ := hu.kept hkept (by omega) (by omega) (hworld₁.trans hworld)
    have hpc₁ : t₁.pc = pos .printLoop + 6 := by rw [hkept.pc, hpc]
    rw [hvdi] at hdigits
    refine ht₁.print 14 _ (by rw [hpc₁]; with_unfolding_all rfl)
      (fun c hc => pos_and_small (by omega) (by omega) (hexDigits_range hc)) hdigits (by simp)
      fun t₂ hpc₂ ht₂ _ _ => ?_
    rw [hpc₁] at hpc₂
    refine ht₂.print 6 [58, 32] (by rw [hpc₂]; with_unfolding_all rfl) (by simp) ht₂.colon (by simp)
      fun t₃ hpc₃ ht₃ _ hrdi₃ => ?_
    rw [hpc₂] at hpc₃
    exact hnext t₃ hpc₃ ht₃ hrdi₃
  have hoffset := h.offset
  have hlt : 16 * k % 2 ^ 32 < 2 ^ 32 := Nat.mod_lt _ (by omega)
  apply hline
  · show t.pc + 2 = _
    rw [hpc]
  · exact h.of_regs (by simp) (by simp) (by simp) (by simp) (by simp)
  · simp [State.read, State.addr, ptr, Width.bytes, h.bp, hoffset]
  · simp [State.addr, ptr, h.bp]

/-! ### Indices -/

theorem toNat_small {i : Nat} (hi : i < 2 ^ 31) : (BitVec.ofNat 64 i).toNat = i := by
  rw [BitVec.toNat_ofNat, Nat.mod_eq_of_lt (lt_trans hi (by omega))]

/-- The low half of a register that holds a small number. -/
theorem trunc_small {i : Nat} (hi : i < 2 ^ 31) :
    Width.l.trunc (BitVec.ofNat 64 i) = BitVec.ofNat 64 i := by
  apply Width.trunc_of_lt
  rw [toNat_small hi]
  exact lt_trans hi (by decide)

/-- `incl %r13d` -/
theorem inc_small {i : Nat} (hi : i + 1 < 2 ^ 31) (hr13 : t.regs r13 = BitVec.ofNat 64 i) :
    execOps [.inc .l r13] t =
      some ((t.setReg r13 (BitVec.ofNat 64 (i + 1))).setFlags none).next := by
  have hone : BitVec.ofNat 64 i + 1 = BitVec.ofNat 64 (i + 1) := (BitVec.ofNat_add ..).symm
  have hread : t.read .l r13 = BitVec.ofNat 64 i := by
    show Width.l.trunc (t.regs r13) = _
    rw [hr13, trunc_small (by omega)]
  simp only [execOps, Op.exec, hread, hone, trunc_small hi, State.write, Width.merge_l,
    Option.map_some, Option.bind_some]

/-- `movb 23(%rbp,%r13,1), %dil` -/
theorem InLine.load {b : UInt8} {i : Nat} (h : InLine base ret k input out buf t)
    (hb : buf[i]? = some b) (hr13 : t.regs r13 = BitVec.ofNat 64 i)
    (hdil : (t.regs rdi).toNat < 256) :
    (Width.b.merge (t.regs rdi) (t.read .b (idx 23 rbp r13))).toNat = b.toNat := by
  have haddr : t.addr (idx 23 rbp r13) = off base (103 + i) := by
    have hsum : 80 + i + 23 = 103 + i := by omega
    simp [State.addr, idx, h.bp, hr13, hsum]
  have hbyte : t.mem (off base (103 + i)) = b := h.data.append_left i b hb
  have hlt := b.toNat_lt
  rw [Width.merge_b hdil, Width.toNat_trunc]
  show (BitVec.ofNat 64 (readBytes t.mem 1 (t.addr (idx 23 rbp r13)))).toNat % 256 = _
  rw [haddr, readBytes_one, hbyte, toNat_small (by omega), Nat.mod_eq_of_lt hlt]

/-- `cmpl %r12d, %r13d` and `jge`: is there a byte at the index? -/
theorem InLine.compare {i : Nat} {l : Label} (h : InLine base ret k input out buf t)
    (hr13 : t.regs r13 = BitVec.ofNat 64 i) (hi : i ≤ 16)
    (hcode : (program.drop t.pc).take 1 = [cmpl r12 r13])
    (hjump : program[t.pc + 1]? = some (jge l))
    (hend : buf.length ≤ i → ∀ t' : Cpu, t'.pc = pos l → InLine base ret k input out buf t' →
      t'.regs r13 = BitVec.ofNat 64 i → Eventually program (lib.guarded ok) Q t')
    (hbyte : i < buf.length → ∀ t' : Cpu, t'.pc = t.pc + 2 → InLine base ret k input out buf t' →
      t'.regs r13 = BitVec.ofNat 64 i → t'.regs rdi = t.regs rdi →
      Eventually program (lib.guarded ok) Q t') :
    Eventually program (lib.guarded ok) Q t := by
  have hsize := h.size
  have hval : (BitVec.ofNat 64 i).toNat = i := toNat_small (by omega)
  have hlen : (BitVec.ofNat 64 buf.length).toNat = buf.length := toNat_small (by omega)
  -- both numbers are far below the sign bit of 32 bits
  have hsmall : ∀ {n : Nat}, n ≤ 16 → n < 2 ^ (Width.l.bits - 1) :=
    fun hn => lt_of_le_of_lt hn (by decide)
  apply Eventually.ops [.cmp .l r12 r13] hcode rfl
  refine Eventually.jcc (c := .ge)
    (f := .compare .l (BitVec.ofNat 64 buf.length) (BitVec.ofNat 64 i)) hjump ?_
    (labelIndex_pos l) (fun htest => ?_) (fun htest => ?_)
  · simp [State.read, hr13, h.nread, trunc_small (show i < 2 ^ 31 by omega),
      trunc_small (show buf.length < 2 ^ 31 by omega)]
  · rw [Cond.holds_ge (by rw [hlen]; exact hsmall hsize) (by rw [hval]; exact hsmall hi), hlen,
      hval, decide_eq_true_iff] at htest
    exact hend htest _ rfl (h.of_regs (by simp) (by simp) (by simp) (by simp) (by simp))
      (by simpa using hr13)
  · rw [Cond.holds_ge (by rw [hlen]; exact hsmall hsize) (by rw [hval]; exact hsmall hi), hlen,
      hval, decide_eq_false_iff_not] at htest
    exact hbyte (Nat.lt_of_not_le htest) _ rfl
      (h.of_regs (by simp) (by simp) (by simp) (by simp) (by simp)) (by simpa using hr13) (by simp)

/-! ### The hex columns -/

/-- The two tests of the hex column loop. -/
theorem printHexLineLoop_test {i : Nat} (h : InLine base ret k input out buf t)
    (hpc : t.pc = pos .printHexLineLoop) (hr13 : t.regs r13 = BitVec.ofNat 64 i) (hi : i ≤ 16)
    (hdone : i = 16 → ∀ t' : Cpu, t'.pc = pos .printHexLineLoopExit →
      InLine base ret k input out buf t' → Eventually program (lib.guarded ok) Q t')
    (hgap : i < 16 → buf.length ≤ i → ∀ t' : Cpu, t'.pc = pos .indexNotLessThanCharsRead →
      InLine base ret k input out buf t' → t'.regs r13 = BitVec.ofNat 64 i →
      Eventually program (lib.guarded ok) Q t')
    (hbyte : i < buf.length → ∀ t' : Cpu, t'.pc = pos .printHexLineLoop + 5 →
      InLine base ret k input out buf t' → t'.regs r13 = BitVec.ofNat 64 i →
      t'.regs rdi = t.regs rdi → Eventually program (lib.guarded ok) Q t') :
    Eventually program (lib.guarded ok) Q t := by
  have hval : (BitVec.ofNat 64 i).toNat = i := toNat_small (by omega)
  have hsixteen : Width.l.trunc 16#64 = 16#64 := trunc_small (by omega)
  apply Eventually.label (l := .printHexLineLoop) (by rw [hpc]; with_unfolding_all rfl)
  apply Eventually.ops [.cmp .l 16 r13]
    (ops_at hpc 1 (by with_unfolding_all rfl)) rfl
  refine Eventually.jcc (c := .e) (f := .compare .l 16 (BitVec.ofNat 64 i))
    (line_at hpc 2 (by with_unfolding_all rfl)) ?_
    (labelIndex_pos .printHexLineLoopExit) (fun htest => ?_) (fun htest => ?_)
  · simp [State.read, hr13, hsixteen, trunc_small (show i < 2 ^ 31 by omega)]
  · rw [Cond.holds_e, hval, decide_eq_true_iff] at htest
    exact hdone htest _ rfl (h.of_regs (by simp) (by simp) (by simp) (by simp) (by simp))
  · rw [Cond.holds_e, hval, decide_eq_false_iff_not] at htest
    have hne : i ≠ 16 := htest
    have hnext : InLine base ret k input out buf
        (t.next.setFlags (some (.compare .l (t.read .l 16) (t.read .l r13)))).next.next :=
      h.of_regs (by simp) (by simp) (by simp) (by simp) (by simp)
    refine hnext.compare (l := .indexNotLessThanCharsRead) hr13 hi
      (ops_at hpc 3 (by with_unfolding_all rfl))
      (line_at hpc 4 (by with_unfolding_all rfl)) (fun hge => hgap (by omega) hge)
      fun hlt t' hpc' => hbyte hlt t' ?_
    rw [hpc']
    show t.pc + 5 = _
    rw [hpc]

/-- A column with a byte. -/
theorem printHexLineLoop_byte {i : Nat} {b : UInt8} (h : InLine base ret k input out buf t)
    (hpc : t.pc = pos .printHexLineLoop + 5) (hr13 : t.regs r13 = BitVec.ofNat 64 i)
    (hdil : (t.regs rdi).toNat < 256) (hb : buf[i]? = some b)
    (hnext : ∀ t' : Cpu, t'.pc = pos .indexNotLessThanCharsReadExit →
      InLine base ret k input (out ++ column (some b)) buf t' →
      t'.regs r13 = BitVec.ofNat 64 i → t'.regs rdi = 1 →
      Eventually program (lib.guarded ok) Q t') :
    Eventually program (lib.guarded ok) Q t := by
  have hload := h.load hb hr13 hdil
  -- the call and what follows, for any state with the two arguments in place
  have hcall : ∀ u : Cpu, u.pc = pos .printHexLineLoop + 7 → InLine base ret k input out buf u →
      u.regs r13 = BitVec.ofNat 64 i → (u.regs rdi).toNat = b.toNat → u.regs rsi = off base 91 →
      Eventually program (lib.guarded ok) Q u := by
    intro u hpc hu hr13 hrdi hrsi
    refine hu.toInMain.enter (l := .hexFormatByteAsHex) (by rw [hpc]; with_unfolding_all rfl)
      fun v hv hregs hmem hworld => ?_
    have hvdi : (v.regs rdi).toNat = b.toNat := by rw [hregs rdi (by decide), hrdi]
    have hvsi : v.regs rsi = off base 91 := by rw [hregs rsi (by decide), hrsi]
    refine (hexFormatByteAsHex_run (show 72 ≤ 128 by omega) (by omega) hv hvsi (by omega)
      (by omega) hvdi).trans ?_
    intro t₁ hdone
    obtain ⟨hreturned, hdigits, hworld₁⟩ := hdone
    have hkept := Kept.of_returned hregs hmem hreturned
    have ht₁ := hu.kept hkept (by omega) (by omega) (hworld₁.trans hworld)
    have hpc₁ : t₁.pc = pos .printHexLineLoop + 8 := by rw [hkept.pc, hpc]
    refine ht₁.print 11 _ (by rw [hpc₁]; with_unfolding_all rfl)
      (fun c hc => pos_and_small (by omega) (by omega) (hexDigits_range hc)) hdigits (by simp)
      fun t₂ hpc₂ ht₂ hr13₂ _ => ?_
    rw [hpc₁] at hpc₂
    refine ht₂.printSpace (by rw [hpc₂]; with_unfolding_all rfl) fun t₃ hpc₃ ht₃ hr13₃ hrdi₃ => ?_
    rw [hpc₂] at hpc₃
    apply Eventually.jmp (l := .indexNotLessThanCharsReadExit)
      (by rw [hpc₃]; with_unfolding_all rfl)
      (labelIndex_pos _)
    apply hnext
    · rfl
    · rw [List.append_assoc] at ht₃
      exact ht₃.of_regs rfl rfl rfl rfl rfl
    · show t₃.regs r13 = _
      rw [hr13₃, hr13₂, hkept.saved r13 (by decide), hr13]
    · exact hrdi₃
  apply Eventually.ops [.mov .b (idx 23 rbp r13) rdi, .lea (ptr 11 rbp) rsi]
    (by rw [hpc]; with_unfolding_all rfl) rfl
  apply hcall
  · show t.pc + 2 = _
    rw [hpc]
  · exact h.of_regs (by simp) (by simp) (by simp) (by simp) (by simp)
  · simpa using hr13
  · simpa using hload
  · simp [State.addr, ptr, h.bp]

/-- A column behind the last byte. -/
theorem printHexLineLoop_gap {i : Nat} (h : InLine base ret k input out buf t)
    (hpc : t.pc = pos .indexNotLessThanCharsRead) (hr13 : t.regs r13 = BitVec.ofNat 64 i)
    (hnext : ∀ t' : Cpu, t'.pc = pos .indexNotLessThanCharsReadExit →
      InLine base ret k input (out ++ column none) buf t' →
      t'.regs r13 = BitVec.ofNat 64 i → t'.regs rdi = 1 →
      Eventually program (lib.guarded ok) Q t') :
    Eventually program (lib.guarded ok) Q t := by
  apply Eventually.label (l := .indexNotLessThanCharsRead) (by rw [hpc]; with_unfolding_all rfl)
  have h₀ : InLine base ret k input out buf t.next := h.of_regs rfl rfl rfl rfl rfl
  have hpc₀ : t.next.pc = pos .indexNotLessThanCharsRead + 1 := congrArg (· + 1) hpc
  refine h₀.printSpace (by rw [hpc₀]; with_unfolding_all rfl) fun t₁ hpc₁ h₁ hr13₁ _ => ?_
  rw [hpc₀] at hpc₁
  refine h₁.printSpace (by rw [hpc₁]; with_unfolding_all rfl) fun t₂ hpc₂ h₂ hr13₂ _ => ?_
  rw [hpc₁] at hpc₂
  refine h₂.printSpace (by rw [hpc₂]; with_unfolding_all rfl) fun t₃ hpc₃ h₃ hr13₃ hrdi₃ => ?_
  rw [hpc₂] at hpc₃
  apply hnext t₃
  · rw [hpc₃]
    with_unfolding_all rfl
  · rw [List.append_assoc, List.append_assoc] at h₃
    exact h₃
  · rw [hr13₃, hr13₂, hr13₁, State.next_regs, hr13]
  · exact hrdi₃

variable (base ret k) in
/-- The hex column loop, with `m` columns to go. -/
theorem printHexLineLoop_spec (m : Nat) : ∀ (t : Cpu) (i : Nat) (out : List UInt8),
    i + m = 16 → t.pc = pos .printHexLineLoop → InLine base ret k input out buf t →
    t.regs r13 = BitVec.ofNat 64 i → (t.regs rdi).toNat < 256 →
    (∀ t' : Cpu, t'.pc = pos .printHexLineLoopExit →
      InLine base ret k input (out ++ (List.range' i m).flatMap fun j => column buf[j]?) buf t' →
      Eventually program (lib.guarded ok) Q t') →
    Eventually program (lib.guarded ok) Q t := by
  induction m with
  | zero =>
      intro t i out hi hpc h hr13 _ hQ
      refine printHexLineLoop_test h hpc hr13 (by omega) (fun _ t' hpc' h' => hQ t' hpc' ?_)
        (fun hlt => absurd hi (by omega)) (fun hlt => absurd h.size (by omega))
      simpa using h'
  | succ m ih =>
      intro t i out hi hpc h hr13 hdil hQ
      -- both kinds of column end at the increment
      have hexit : ∀ u : Cpu, u.pc = pos .indexNotLessThanCharsReadExit →
          InLine base ret k input (out ++ column buf[i]?) buf u → u.regs r13 = BitVec.ofNat 64 i →
          u.regs rdi = 1 → Eventually program (lib.guarded ok) Q u := by
        intro u hpc hu hr13 hrdi
        apply Eventually.label (l := .indexNotLessThanCharsReadExit)
          (by rw [hpc]; with_unfolding_all rfl)
        have hr13' : u.next.regs r13 = BitVec.ofNat 64 i := hr13
        apply Eventually.ops [.inc .l r13]
          (ops_at hpc 1 (by with_unfolding_all rfl))
          (inc_small (show i + 1 < 2 ^ 31 by omega) hr13')
        apply Eventually.jmp (l := .printHexLineLoop)
          (line_at hpc 2 (by with_unfolding_all rfl)) (labelIndex_pos _)
        apply ih _ (i + 1) (out ++ column buf[i]?) (by omega) rfl
        · exact hu.of_regs (by simp) (by simp) (by simp) (by simp) (by simp)
        · simp
        · simp [hrdi]
        · intro t' hpc' h'
          apply hQ t' hpc'
          rw [List.range'_succ, List.flatMap_cons, ← List.append_assoc]
          exact h'
      refine printHexLineLoop_test h hpc hr13 (by omega) (fun heq => absurd hi (by omega))
        (fun _ hge u hpc' hu hr13' => ?_) (fun hlt u hpc' hu hr13' hrdi' => ?_)
      · rw [List.getElem?_eq_none hge] at hexit
        exact printHexLineLoop_gap hu hpc' hr13' hexit
      · rw [List.getElem?_eq_getElem hlt] at hexit
        exact printHexLineLoop_byte hu hpc' hr13' (by rw [hrdi']; exact hdil)
          (List.getElem?_eq_getElem hlt) hexit

/-! ### The printable column -/

/-- Storing a byte of `data_buf`. -/
theorem InLine.store {front rest : List UInt8} {b c : UInt8} {w : Nat} {t' : Cpu}
    (h : InLine base ret k input out (front ++ b :: rest) t)
    (hmem : t'.mem = writeBytes t.mem 1 (off base (103 + front.length)) w)
    (hw : UInt8.ofNat w = c) (hbp : t'.regs rbp = t.regs rbp) (hsp : t'.regs rsp = t.regs rsp)
    (hr12 : t'.regs r12 = t.regs r12) (hworld : t'.world = t.world) :
    InLine base ret k input out (front ++ c :: rest) t' := by
  have hsize := h.size
  rw [List.length_append, List.length_cons] at hsize
  have hlen : (front ++ c :: rest).length = (front ++ b :: rest).length := by simp
  refine ⟨h.toInMain.mono hbp hsp (fun i hi hi' ho => ?_) (hworld.trans h.world),
    by simpa using hsize, ?_, ?_⟩
  · rw [hmem]
    exact writeBytes_off_of_outside (by omega) (by omega) (by omega)
  · rw [hr12, hlen, h.nread]
  · have hdata := h.data
    rw [List.append_assoc, List.cons_append] at hdata
    rw [hmem, List.append_assoc, List.cons_append]
    refine hdata.write hw ?_
    rw [List.length_append, List.length_cons, List.length_append, List.length_singleton]
    omega

/-- The test of the loop that makes `data_buf` printable. -/
theorem turnToPrintableLoop_test {front bytes : List UInt8}
    (h : InLine base ret k input out (front ++ bytes) t) (hpc : t.pc = pos .turnToPrintableLoop)
    (hr13 : t.regs r13 = BitVec.ofNat 64 front.length)
    (hdone : bytes = [] → ∀ t' : Cpu, t'.pc = pos .turnToPrintableLoopExit →
      InLine base ret k input out (front ++ bytes) t' → Eventually program (lib.guarded ok) Q t')
    (hmore : bytes ≠ [] → ∀ t' : Cpu, t'.pc = pos .turnToPrintableLoop + 3 →
      InLine base ret k input out (front ++ bytes) t' →
      t'.regs r13 = BitVec.ofNat 64 front.length → t'.regs rdi = t.regs rdi →
      Eventually program (lib.guarded ok) Q t') :
    Eventually program (lib.guarded ok) Q t := by
  have hsize := h.size
  have hlen : (front ++ bytes).length = front.length + bytes.length := List.length_append
  have hnext : InLine base ret k input out (front ++ bytes) t.next := h.of_regs rfl rfl rfl rfl rfl
  apply Eventually.label (l := .turnToPrintableLoop) (by rw [hpc]; with_unfolding_all rfl)
  refine hnext.compare (l := .turnToPrintableLoopExit) hr13 (by omega)
    (ops_at hpc 1 (by with_unfolding_all rfl))
    (line_at hpc 2 (by with_unfolding_all rfl))
    (fun hge t' hpc' h' _ => hdone (List.length_eq_zero_iff.mp (by omega)) t' hpc' h')
    fun hlt t' hpc' => hmore (fun hnil => ?_) t' ?_
  · rw [hlen, hnil, List.length_nil] at hlt
    omega
  · rw [hpc']
    show t.pc + 3 = _
    rw [hpc]

/-- One round of the loop that makes `data_buf` printable. -/
theorem turnToPrintableLoop_round {front rest : List UInt8} {b : UInt8}
    (h : InLine base ret k input out (front ++ b :: rest) t)
    (hpc : t.pc = pos .turnToPrintableLoop + 3) (hr13 : t.regs r13 = BitVec.ofNat 64 front.length)
    (hdil : (t.regs rdi).toNat < 256)
    (hnext : ∀ t' : Cpu, t'.pc = pos .turnToPrintableLoop →
      InLine base ret k input out (front ++ shown b :: rest) t' →
      t'.regs r13 = BitVec.ofNat 64 (front.length + 1) → (t'.regs rdi).toNat < 256 →
      Eventually program (lib.guarded ok) Q t') :
    Eventually program (lib.guarded ok) Q t := by
  have hsize := h.size
  rw [List.length_append, List.length_cons] at hsize
  have hget : (front ++ b :: rest)[front.length]? = some b := by simp
  have hload := h.load hget hr13 hdil
  -- the call and what follows, for any state with the byte in `%dil`
  have hcall : ∀ u : Cpu, u.pc = pos .turnToPrintableLoop + 4 →
      InLine base ret k input out (front ++ b :: rest) u →
      u.regs r13 = BitVec.ofNat 64 front.length → (u.regs rdi).toNat = b.toNat →
      Eventually program (lib.guarded ok) Q u := by
    intro u hpc hu hr13 hrdi
    refine hu.toInMain.enter (l := .hexToPrintable) (by rw [hpc]; with_unfolding_all rfl)
      fun v hv hregs hmem hworld => ?_
    have hvdi : (v.regs rdi).toNat = b.toNat := by rw [hregs rdi (by decide), hrdi]
    refine (hexToPrintable_spec (show 72 ≤ 128 by omega) (by omega) hv hvdi).trans ?_
    intro t₁ hdone
    obtain ⟨hreturned, hrax, hrdi₁, hworld₁⟩ := hdone
    have hkept := (Kept.of_returned hregs hmem hreturned).of_empty
    have ht₁ := hu.kept hkept (by omega) (by omega) (hworld₁.trans hworld)
    have hpc₁ : t₁.pc = pos .turnToPrintableLoop + 5 := by rw [hkept.pc, hpc]
    have hr13₁ : t₁.regs r13 = BitVec.ofNat 64 front.length := by
      rw [hkept.saved r13 (by decide), hr13]
    have haddr : t₁.addr (idx 23 rbp r13) = off base (103 + front.length) := by
      have hsum : 80 + front.length + 23 = 103 + front.length := by omega
      simp [State.addr, idx, ht₁.bp, hr13₁, hsum]
    apply Eventually.ops [.mov .b rax (idx 23 rbp r13)] (by rw [hpc₁]; with_unfolding_all rfl) rfl
    have hr13' : (t₁.store .b (t₁.addr (idx 23 rbp r13)) (t₁.read .b rax)).next.regs r13 =
        BitVec.ofNat 64 front.length := by simpa using hr13₁
    apply Eventually.ops [.inc .l r13]
      (ops_at hpc₁ 1 (by with_unfolding_all rfl))
      (inc_small (show front.length + 1 < 2 ^ 31 by omega) hr13')
    apply Eventually.jmp (l := .turnToPrintableLoop)
      (line_at hpc₁ 2 (by with_unfolding_all rfl)) (labelIndex_pos _)
    apply hnext
    · rfl
    · -- the low byte of `%rax` replaces the byte that was passed
      refine ht₁.store (w := (t₁.regs rax).toNat % 256) ?_ (ofNat_toNat_mod hrax) (by simp)
        (by simp) (by simp) (by simp)
      simp [haddr, State.read, Width.bytes]
    · simp
    · have hlt := b.toNat_lt
      simpa [hrdi₁, hvdi] using hlt
  apply Eventually.ops [.mov .b (idx 23 rbp r13) rdi] (by rw [hpc]; with_unfolding_all rfl) rfl
  apply hcall
  · show t.pc + 1 = _
    rw [hpc]
  · exact h.of_regs (by simp) (by simp) (by simp) (by simp) (by simp)
  · simpa using hr13
  · simpa using hload

variable (base ret k) in
/-- The loop over `data_buf`, with `bytes` to go. -/
theorem turnToPrintableLoop_spec (bytes : List UInt8) : ∀ (t : Cpu) (front : List UInt8),
    t.pc = pos .turnToPrintableLoop → InLine base ret k input out (front ++ bytes) t →
    t.regs r13 = BitVec.ofNat 64 front.length → (t.regs rdi).toNat < 256 →
    (∀ t' : Cpu, t'.pc = pos .turnToPrintableLoopExit →
      InLine base ret k input out (front ++ bytes.map shown) t' →
      Eventually program (lib.guarded ok) Q t') →
    Eventually program (lib.guarded ok) Q t := by
  induction bytes with
  | nil =>
      intro t front hpc h hr13 _ hQ
      exact turnToPrintableLoop_test h hpc hr13 (fun _ t' hpc' h' => hQ t' hpc' h')
        (fun hne => absurd rfl hne)
  | cons b bytes ih =>
      intro t front hpc h hr13 hdil hQ
      refine turnToPrintableLoop_test h hpc hr13 (fun hnil => absurd hnil (by simp))
        fun _ t₁ hpc₁ h₁ hr13₁ hrdi₁ => ?_
      refine turnToPrintableLoop_round h₁ hpc₁ hr13₁ (by rw [hrdi₁]; exact hdil)
        fun t₂ hpc₂ h₂ hr13₂ hdil₂ => ?_
      refine ih t₂ (front ++ [shown b]) hpc₂ (by simpa using h₂) (by simpa using hr13₂) hdil₂
        fun t' hpc' h' => hQ t' hpc' ?_
      simpa using h'

/-! ### The whole line -/

/-- The body of the print loop up to the text column. -/
theorem line_run (h : InLine base ret k input out buf t) (hpc : t.pc = pos .printLoop + 3)
    (hnext : ∀ t' : Cpu, t'.pc = pos .turnToPrintableLoopExit →
      InLine base ret k input
        (out ++ hexDigits 8 (16 * k % 2 ^ 32) ++ [58, 32] ++ columns buf ++ [32])
        (buf.map shown) t' → Eventually program (lib.guarded ok) Q t') :
    Eventually program (lib.guarded ok) Q t := by
  have hzero : Width.l.trunc 0#64 = 0 := by decide
  refine offset_run h hpc fun t₁ hpc₁ h₁ hrdi₁ => ?_
  apply Eventually.ops [.mov .l 0 r13] (by rw [hpc₁]; with_unfolding_all rfl) rfl
  refine printHexLineLoop_spec base ret k 16 _ 0 _ rfl ?_
    (h₁.of_regs (by simp) (by simp) (by simp) (by simp) (by simp)) (by simp [State.read, hzero])
    (by simp [hrdi₁]) fun t₂ hpc₂ h₂ => ?_
  · show t₁.pc + 1 = _
    rw [hpc₁]
    with_unfolding_all rfl
  · rw [← List.range_eq_range'] at h₂
    apply Eventually.label (l := .printHexLineLoopExit) (by rw [hpc₂]; with_unfolding_all rfl)
    have h₂' : InLine base ret k input
        (out ++ hexDigits 8 (16 * k % 2 ^ 32) ++ [58, 32] ++ columns buf) buf t₂.next :=
      h₂.of_regs rfl rfl rfl rfl rfl
    have hpc₂' : t₂.next.pc = pos .printHexLineLoopExit + 1 := congrArg (· + 1) hpc₂
    refine h₂'.printSpace (by rw [hpc₂']; with_unfolding_all rfl) fun t₃ hpc₃ h₃ _ hrdi₃ => ?_
    rw [hpc₂'] at hpc₃
    apply Eventually.ops [.mov .l 0 r13] (by rw [hpc₃]; with_unfolding_all rfl) rfl
    refine turnToPrintableLoop_spec base ret k buf _ [] ?_
      (h₃.of_regs (by simp) (by simp) (by simp) (by simp) (by simp)) (by simp [State.read, hzero])
      (by simp [hrdi₃]) hnext
    show t₃.pc + 1 = _
    rw [hpc₃]
    with_unfolding_all rfl

/-- `addl $16, 0(%rbp)` -/
theorem InMain.count (h : InMain base ret k input out t)
    (hcode : (program.drop t.pc).take 1 = [addl 16 (ptr 0 rbp)])
    (hnext : ∀ t' : Cpu, t'.pc = t.pc + 1 → InMain base ret (k + 1) input out t' →
      Eventually program (lib.guarded ok) Q t') :
    Eventually program (lib.guarded ok) Q t := by
  have hfits := h.fits
  have hsixteen : Width.l.trunc 16#64 = 16#64 := trunc_small (by omega)
  have hoffset := h.offset
  have hlt : 16 * k % 2 ^ 32 < 2 ^ 32 := Nat.mod_lt _ (by omega)
  have hnew : (BitVec.ofNat 64 (16 * k % 2 ^ 32) + 16#64).toNat % 2 ^ 32 =
      16 * (k + 1) % 2 ^ 32 := by
    rw [BitVec.toNat_add, BitVec.toNat_ofNat, BitVec.toNat_ofNat]
    omega
  -- the counter has four bytes, and the rest of the frame lies above them
  have hmem : ∀ i, 84 ≤ i → i < 128 →
      writeBytes t.mem 4 (off base 80) (16 * (k + 1) % 2 ^ 32) (off base i) = t.mem (off base i) :=
    fun i hi hi' => writeBytes_off_of_outside (by omega) (by omega) (by omega)
  apply Eventually.ops [.add .l 16 (ptr 0 rbp)] hcode rfl
  apply hnext
  · rfl
  · have hstored : ((t.store .l (t.addr (ptr 0 rbp))
        (Width.l.trunc (t.read .l (ptr 0 rbp) + t.read .l 16))).setFlags none).next.mem =
          writeBytes t.mem 4 (off base 80) (16 * (k + 1) % 2 ^ 32) := by
      rw [← hnew]
      simp [State.read, State.addr, ptr, Width.bytes, h.bp, hoffset, hsixteen]
    refine ⟨hfits, by simpa using h.bp, by simpa using h.sp, ?_, ?_, ?_, ?_, ?_, ?_⟩
    · rw [hstored]
      exact readBytes_writeBytes (by omega) (lt_of_lt_of_le (Nat.mod_lt _ (by omega)) (by omega))
    · rw [hstored]
      exact h.newline.congr fun i hi hi' => hmem i (by omega) (by simp at hi'; omega)
    · rw [hstored]
      exact h.colon.congr fun i hi hi' => hmem i (by omega) (by simp at hi'; omega)
    · rw [hstored]
      exact h.space.congr fun i hi hi' => hmem i (by omega) (by simp at hi'; omega)
    · rw [hstored, ← h.ret]
      exact readBytes_congr fun i hi hi' => hmem i (by omega) (by omega)
    · simpa using h.world

/-- The rest of a round of the print loop: the text and the end of the line, up
to the next read. -/
theorem lineEnd_run (h : InLine base ret k input out buf t)
    (hpc : t.pc = pos .turnToPrintableLoopExit)
    (hbuf : ∀ c ∈ buf, 0 < c.toNat ∧ c.toNat < 128)
    (hnext : ∀ t' : Cpu, t'.pc = pos .turnToPrintableLoopExit + 6 →
      InMain base ret (k + 1) input (out ++ buf ++ [10]) t' →
      Eventually program (lib.guarded ok) Q t') :
    Eventually program (lib.guarded ok) Q t := by
  have hsize := h.size
  apply Eventually.label (l := .turnToPrintableLoopExit) (by rw [hpc]; with_unfolding_all rfl)
  have h₀ : InLine base ret k input out buf t.next := h.of_regs rfl rfl rfl rfl rfl
  have hpc₀ : t.next.pc = pos .turnToPrintableLoopExit + 1 := congrArg (· + 1) hpc
  refine h₀.print 23 buf (by rw [hpc₀]; with_unfolding_all rfl) hbuf h₀.data (by omega)
    fun t₁ hpc₁ h₁ _ _ => ?_
  rw [hpc₀] at hpc₁
  refine h₁.toInMain.print 4 [10] (by rw [hpc₁]; with_unfolding_all rfl) (by simp) h₁.newline
    (by simp) fun t₂ hpc₂ h₂ _ _ _ => ?_
  rw [hpc₁] at hpc₂
  refine h₂.count (by rw [hpc₂]; with_unfolding_all rfl) fun t₃ hpc₃ h₃ => ?_
  rw [hpc₂] at hpc₃
  exact hnext t₃ hpc₃ h₃

/-! ## The whole run -/

/-- The print loop exits when no character was read: the frame is dropped and
`main` returns. -/
theorem printLoopExit_run (h : InLine base ret k input out [] t) (hpc : t.pc = pos .printLoop)
    (hdone : ∀ t' : Cpu, t'.pc = ret → t'.regs rsp = off base 128 →
      t'.world = { input := input, output := out } → Q t') :
    Eventually program (lib.guarded ok) Q t := by
  have hret := h.ret
  have hlt : ret < 2 ^ 64 := hret ▸ readBytes_lt t.mem 8 (off base 120)
  have hr12 : t.regs r12 = 0 := h.nread
  have hzero : Width.l.trunc 0#64 = 0 := by decide
  apply Eventually.label (l := .printLoop) (by rw [hpc]; with_unfolding_all rfl)
  apply Eventually.ops [.cmp .l 0 r12]
    (ops_at hpc 1 (by with_unfolding_all rfl)) rfl
  refine Eventually.jcc (c := .e) (f := .compare .l 0 0)
    (line_at hpc 2 (by with_unfolding_all rfl)) (by simp [State.read, hr12, hzero])
    (labelIndex_pos .printLoopExit) (fun _ => ?_) (fun htest => absurd htest (by decide))
  apply Eventually.label (l := .printLoopExit)
    (by show program[pos .printLoopExit]? = _; with_unfolding_all rfl)
  apply Eventually.ops [.add .q 10 rsp, .add .q 4 rsp, .add .q 3 rsp, .add .q 2 rsp, .add .q 3 rsp,
    .add .q 9 rsp, .add .q 17 rsp]
    (by show (program.drop (pos .printLoopExit + 1)).take _ = _; with_unfolding_all rfl) rfl
  apply Eventually.ret (by show program[pos .printLoopExit + 8]? = _; with_unfolding_all rfl)
  apply Eventually.now
  apply hdone
  · simpa [State.top, State.read, h.sp, hret] using hlt
  · simp [State.drop, State.read, h.sp]
  · simpa [State.drop] using h.world

/-- `main` is about to call `hex_read`: ahead of its loop, or at the end of a
round. -/
structure AtRead (base : Word) (ret k : Nat) (input : List ReadResult) (out : List UInt8)
    (t : Cpu) : Prop extends InMain base ret k input out t where
  pc : t.pc = pos .main + 18 ∨ t.pc = pos .turnToPrintableLoopExit + 6

/-- Up to the call of `read`, into `data_buf`. -/
theorem AtRead.call (h : AtRead base ret k input out t)
    (hnext : ∀ u : Cpu, u.pc = pos .hexRead + 6 → u.regs rdi = 0 → u.regs rdx = 16 →
      u.regs rsi = off base 103 → u.regs r12 = off base 103 →
      u.world = { input := input, output := out } → Eventually program (lib.guarded ok) Q u) :
    Eventually program (lib.guarded ok) Q t := by
  have hcode : (program.drop t.pc).take 1 = [leaq (ptr 23 rbp) rdi] ∧
      program[t.pc + 1]? = some (.call .hexRead) := by
    rcases h.pc with hpc | hpc <;> rw [hpc] <;> constructor <;> with_unfolding_all rfl
  apply Eventually.ops [.lea (ptr 23 rbp) rdi] hcode.1 rfl
  have hmain : InMain base ret k input out (t.setReg rdi (t.addr (ptr 23 rbp))).next :=
    h.toInMain.of_regs (by simp) (by simp) (by simp) (by simp)
  refine hmain.enter (l := .hexRead) hcode.2 fun u hu hregs hmem hworld => ?_
  have hdi : u.regs rdi = off base 103 := by
    rw [hregs rdi (by decide)]
    simp [State.addr, ptr, h.bp]
  refine hexRead_call (show 72 ≤ 128 by omega) (by omega) hu hdi (by omega)
    fun v hpc _ hrdi hrdx hrsi hr12 hworld' => hnext v hpc hrdi hrdx hrsi hr12 ?_
  rw [hworld', hworld]
  exact hmain.world

/-- Bytes are read, and `main` comes to the top of its loop. -/
theorem AtRead.next {chunk : Chunk} (h : AtRead base ret k (.bytes chunk :: input) out t)
    (hok : Accepts ok (off base 103))
    (hnext : ∀ t' : Cpu, t'.pc = pos .printLoop → InLine base ret k input out chunk.val t' →
      Eventually program (lib.guarded ok) Q t') :
    Eventually program (lib.guarded ok) Q t := by
  rcases h.pc with hpc | hpc
  · refine h.toInMain.read (by rw [hpc]; with_unfolding_all rfl)
      (by rw [hpc]; with_unfolding_all rfl) (by rw [hpc]; with_unfolding_all rfl) hok
      fun t₁ hpc₁ h₁ => hnext t₁ ?_ h₁
    rw [hpc₁, hpc]
    with_unfolding_all rfl
  · refine h.toInMain.read (by rw [hpc]; with_unfolding_all rfl)
      (by rw [hpc]; with_unfolding_all rfl) (by rw [hpc]; with_unfolding_all rfl) hok
      fun t₁ hpc₁ h₁ => ?_
    rw [hpc] at hpc₁
    apply Eventually.jmp (l := .printLoop) (by rw [hpc₁]; with_unfolding_all rfl) (labelIndex_pos _)
    exact hnext _ rfl (h₁.of_regs rfl rfl rfl rfl rfl)

/-- A non-empty result: its line is printed before the next one is read. -/
theorem AtRead.round {chunk : Chunk} (h : AtRead base ret k (.bytes chunk :: input) out t)
    (hne : chunk.val ≠ []) (hok : Accepts ok (off base 103))
    (hnext : ∀ t' : Cpu, AtRead base ret (k + 1) input (out ++ line k chunk.val) t' →
      Eventually program (lib.guarded ok) Q t') :
    Eventually program (lib.guarded ok) Q t := by
  refine h.next hok fun t₁ hpc h₁ => ?_
  have hsize := chunk.property
  have hval : (BitVec.ofNat 64 chunk.val.length).toNat = chunk.val.length :=
    toNat_small (by omega)
  have hzero : Width.l.trunc 0#64 = 0 := by decide
  apply Eventually.label (l := .printLoop) (by rw [hpc]; with_unfolding_all rfl)
  apply Eventually.ops [.cmp .l 0 r12]
    (ops_at hpc 1 (by with_unfolding_all rfl)) rfl
  refine Eventually.jcc (c := .e) (f := .compare .l 0 (BitVec.ofNat 64 chunk.val.length))
    (line_at hpc 2 (by with_unfolding_all rfl)) ?_
    (labelIndex_pos .printLoopExit) (fun htest => ?_) (fun _ => ?_)
  · simp [State.read, h₁.nread, hzero, trunc_small (show chunk.val.length < 2 ^ 31 by omega)]
  · rw [Cond.holds_e, hval, decide_eq_true_iff] at htest
    exact absurd (List.length_eq_zero_iff.mp htest) hne
  · refine line_run
      (h₁.of_regs (by simp) (by simp) (by simp) (by simp) (by simp)) ?_ fun u hu hline => ?_
    · show t₁.pc + 3 = _
      rw [hpc]
    · refine lineEnd_run hline hu (fun c hc => ?_) fun v hv hend => hnext v ⟨?_, .inr hv⟩
      · obtain ⟨b, -, rfl⟩ := List.mem_map.mp hc
        exact pos_and_small (by omega) (by omega) (shown_range b)
      · have hassoc : out ++ line k chunk.val =
            out ++ hexDigits 8 (16 * k % 2 ^ 32) ++ [58, 32] ++ columns chunk.val ++ [32] ++
              chunk.val.map shown ++ [10] := by
          simp [line]
        rw [hassoc]
        exact hend

variable (base ret) in
/-- Any number of non-empty results: one line per chunk. -/
theorem AtRead.rounds (hok : Accepts ok (off base 103)) (chunks : List Chunk) : ∀ (t : Cpu)
    (k : Nat) (out : List UInt8), (∀ c ∈ chunks, c.val ≠ []) →
    AtRead base ret k (chunks.map .bytes ++ input) out t →
    (∀ t' : Cpu, AtRead base ret (k + chunks.length) input
      (out ++ (chunks.mapIdx fun i c => line (k + i) c.val).flatten) t' →
      Eventually program (lib.guarded ok) Q t') →
    Eventually program (lib.guarded ok) Q t := by
  induction chunks with
  | nil =>
      intro t k out _ h hnext
      refine hnext t ?_
      simpa using h
  | cons chunk chunks ih =>
      intro t k out hne h hnext
      refine h.round (hne chunk List.mem_cons_self) hok fun t₁ h₁ => ?_
      refine ih t₁ (k + 1) _ (fun c hc => hne c (List.mem_cons_of_mem _ hc)) h₁
        fun t' h' => hnext t' ?_
      rw [List.length_cons, List.mapIdx_cons]
      simpa [Nat.add_assoc, Nat.add_comm 1] using h'

/-- An empty result: `main` returns. -/
theorem AtRead.stop {rest : List ReadResult}
    (h : AtRead base ret k (.bytes ⟨[], Nat.zero_le 16⟩ :: rest) out t)
    (hok : Accepts ok (off base 103))
    (hdone : ∀ t' : Cpu, t'.pc = ret → t'.regs rsp = off base 128 →
      t'.world = { input := rest, output := out } → Q t') :
    Eventually program (lib.guarded ok) Q t :=
  h.next hok fun _ hpc' h' => printLoopExit_run h' hpc' hdone

/-- A run starts at `main`, called from outside the program with its return
address on top of the stack and room below it. -/
structure Started (input : List ReadResult) (s : Cpu) : Prop where
  pc : labelIndex program .main = some s.pc
  room : 120 ≤ (s.regs rsp).toNat
  fits : (s.regs rsp).toNat + 8 ≤ 2 ^ 64
  caller : program.length ≤ readBytes s.mem 8 (s.regs rsp)
  world : s.world = { input := input, output := [] }

/-- The arrays of the frame, as `main` stores them. -/
theorem frame_stored {m : Memory} (hret : readBytes m 8 (off base 120) = ret) {m' : Memory}
    (hm : m' = storeAll base (writeBytes m 4 (off base 80) 0) 84 [10, 0, 58, 32, 0, 32, 0]) :
    readBytes m' 4 (off base 80) = 0 ∧ Holds base m' 84 [10, 0] ∧ Holds base m' 86 [58, 32, 0] ∧
      Holds base m' 89 [32, 0] ∧ readBytes m' 8 (off base 120) = ret := by
  have hall : Holds base m' 84 [10, 0, 58, 32, 0, 32, 0] := hm ▸ holds_storeAll (by decide)
  have hout : ∀ i, i < 128 → i < 84 ∨ 91 ≤ i →
      m' (off base i) = writeBytes m 4 (off base 80) 0 (off base i) := by
    intro i hi ho
    rw [hm]
    exact storeAll_of_outside (by omega) (by simp) (by simp; omega)
  refine ⟨?_, ?_, ?_, ?_, ?_⟩
  · rw [readBytes_congr fun i hi hi' => hout i (by omega) (by omega)]
    exact readBytes_writeBytes (by omega) (by omega)
  · exact Holds.append_left (l := [10, 0]) hall
  · exact Holds.append_left (l := [58, 32, 0]) (Holds.append_right (l := [10, 0]) hall)
  · exact Holds.append_right (l := [10, 0, 58, 32, 0]) hall
  · rw [readBytes_congr fun i hi hi' => hout i (by omega) (by omega),
      readBytes_writeBytes_of_disjoint (by omega) (by omega) (by omega), hret]

/-- The frame is set up. -/
theorem prologue_run {s : Cpu} (hs : Started input s) (hbase : s.regs rsp = off base 120)
    (hfits : base.toNat + 128 ≤ 2 ^ 64)
    (hnext : ∀ t' : Cpu, t'.pc = pos .main + 18 →
      InMain base (readBytes s.mem 8 (s.regs rsp)) 0 input [] t' →
      Eventually program (lib.guarded ok) Q t') :
    Eventually program (lib.guarded ok) Q s := by
  have hpc : s.pc = pos .main := (Option.some.inj ((labelIndex_pos .main).symm.trans hs.pc)).symm
  apply Eventually.label (l := .main) (by rw [hpc]; with_unfolding_all rfl)
  apply Eventually.ops [.sub .q 17 rsp, .sub .q 9 rsp, .sub .q 3 rsp, .sub .q 2 rsp, .sub .q 3 rsp,
    .sub .q 2 rsp, .sub .q 4 rsp, .mov .q rsp rbp, .sub .q 8 rsp]
    (ops_at hpc 1 (by with_unfolding_all rfl)) rfl
  have hframe : ∀ t : Cpu, t.pc = pos .main + 18 → t.regs rbp = off base 80 →
      t.regs rsp = off base 72 → t.mem = storeAll base (writeBytes s.mem 4 (off base 80) 0) 84
        [10, 0, 58, 32, 0, 32, 0] → t.world = s.world →
      Eventually program (lib.guarded ok) Q t := by
    intro t hpc hbp hsp hmem hworld
    have hret : readBytes s.mem 8 (off base 120) = readBytes s.mem 8 (s.regs rsp) := by rw [hbase]
    obtain ⟨hoffset, hnewline, hcolon, hspace, hret'⟩ := frame_stored hret hmem
    exact hnext t hpc
      ⟨hfits, hbp, hsp, hoffset, hnewline, hcolon, hspace, hret', hworld.trans hs.world⟩
  have hstores : ∀ t : Cpu, t.pc = pos .main + 10 → t.regs rbp = off base 80 →
      t.regs rsp = off base 72 → t.mem = s.mem → t.world = s.world →
      Eventually program (lib.guarded ok) Q t := by
    intro t hpc hbp hsp hmem hworld
    have hzero : Width.l.trunc 0#64 = 0 := by decide
    apply Eventually.ops [.mov .l 0 (ptr 0 rbp), .mov .b 10 (ptr 4 rbp), .mov .b 0 (ptr 5 rbp),
      .mov .b 58 (ptr 6 rbp), .mov .b 32 (ptr 7 rbp), .mov .b 0 (ptr 8 rbp), .mov .b 32 (ptr 9 rbp),
      .mov .b 0 (ptr 10 rbp)] (by rw [hpc]; with_unfolding_all rfl) rfl
    apply hframe
    · show t.pc + 8 = _
      rw [hpc]
    · simpa using hbp
    · simpa using hsp
    · simp [State.read, State.addr, ptr, Width.bytes, hbp, hmem, hzero, storeAll]
    · simpa using hworld
  apply hstores
  · show s.pc + 10 = _
    rw [hpc]
  · simp [State.read, hbase]
  · simp [State.read, hbase]
  · simp
  · simp

/-- Where the window of a run is. -/
theorem Started.exists_base {s : Cpu} (hs : Started input s) :
    ∃ base : Word, s.regs rsp = off base 120 ∧ base.toNat + 128 ≤ 2 ^ 64 := by
  obtain ⟨base, hbase⟩ : ∃ base : Word, s.regs rsp = off base 120 :=
    ⟨s.regs rsp - BitVec.ofNat 64 120, (BitVec.sub_add_cancel _ _).symm⟩
  refine ⟨base, hbase, ?_⟩
  have hroom := hs.room
  have hval : (s.regs rsp).toNat = (base.toNat + 120) % 2 ^ 64 := by
    rw [hbase, off, BitVec.toNat_add, BitVec.toNat_ofNat]
  have hlt := base.isLt
  have htop := hs.fits
  omega

/-- From the prologue on: one line per chunk. -/
theorem main_rounds {s : Cpu} {chunks : List Chunk}
    (hs : Started (chunks.map .bytes ++ input) s) (hne : ∀ c ∈ chunks, c.val ≠ [])
    (hok : Accepts ok (s.regs rsp - 17)) (hbase : s.regs rsp = off base 120)
    (hfits : base.toNat + 128 ≤ 2 ^ 64)
    (hnext : ∀ t' : Cpu, AtRead base (readBytes s.mem 8 (s.regs rsp)) chunks.length input
      (dumpLines chunks).flatten t' → Eventually program (lib.guarded ok) Q t') :
    Eventually program (lib.guarded ok) Q s := by
  have hbuf : s.regs rsp - 17 = off base 103 := by
    rw [hbase]
    exact off_sub (by decide)
  rw [hbuf] at hok
  refine prologue_run hs hbase hfits fun t hpc h => ?_
  refine AtRead.rounds base _ hok chunks t 0 [] hne ⟨h, .inl hpc⟩ fun t' h' => hnext t' ?_
  simpa [dumpLines] using h'

/-- From the prologue to the return. -/
theorem main_run {s : Cpu} {chunks : List Chunk} {rest : List ReadResult}
    (hs : Started (delivered chunks rest) s) (hne : ∀ c ∈ chunks, c.val ≠ [])
    (hok : Accepts ok (s.regs rsp - 17)) :
    Eventually program (lib.guarded ok) (fun s' => s'.pc = readBytes s.mem 8 (s.regs rsp) ∧
      s'.regs rsp = s.regs rsp + 8 ∧
      s'.world = { input := rest, output := (dumpLines chunks).flatten }) s := by
  obtain ⟨base, hbase, hfits⟩ := hs.exists_base
  have hafter : s.regs rsp + 8 = off base 128 := by
    rw [hbase]
    exact off_add base 120 8
  have hbuf : s.regs rsp - 17 = off base 103 := by
    rw [hbase]
    exact off_sub (by decide)
  refine main_rounds hs hne hok hbase hfits fun t h => ?_
  rw [hbuf] at hok
  exact h.stop hok fun t' hpc hsp hworld => ⟨hpc, hsp.trans hafter.symm, hworld⟩

/-- On every list of non-empty read results the two programs write the same
bytes, and both stop at the empty result behind them. -/
theorem asm_agrees_with_c (lib : Libc) (locals : Frame) {s : Cpu} (chunks : List Chunk)
    (rest : List ReadResult) (hs : Started (delivered chunks rest) s)
    (hne : ∀ c ∈ chunks, c.val ≠ []) :
    ∃ n s' output, steps program lib.run n s = some s' ∧ step program lib.run s' = none ∧
      s'.pc = readBytes s.mem 8 (s.regs rsp) ∧ s'.regs rsp = s.regs rsp + 8 ∧
      s'.world = { input := rest, output := output } ∧
      Hexdump.main locals (delivered chunks rest) = .ok (output, rest) := by
  have hrun := (main_run hs hne fun _ _ _ _ _ _ => rfl).of_restricts
    (lib.restricts_guarded fun _ => true)
  obtain ⟨n, s', hrun, hpc, hsp, hworld⟩ := hrun.steps
  refine ⟨n, s', (dumpLines chunks).flatten, hrun, ?_, hpc, hsp, hworld, main_eq locals hne rest⟩
  have hout : program[s'.pc]? = none := by
    rw [List.getElem?_eq_none_iff, hpc]
    exact hs.caller
  rw [step, hout]

end

/-- `main` called with the stack pointer at 4096 and a return address far behind
the program. -/
def startCpu (input : List ReadResult) : Cpu :=
  { pc := (labelIndex program .main).getD 0
    regs := fun r => if r = rsp then 4096 else 7
    mem := fun _ => 9
    flags := none
    world := { input := input, output := [] } }

theorem started_startCpu (input : List ReadResult) : Started input (startCpu input) :=
  ⟨labelIndex_pos .main, by simp [startCpu], by simp [startCpu],
    by show program.length ≤ readBytes (fun _ => 9) 8 4096; decide +kernel, rfl⟩

/-- A full result with a NUL and a newline in it, then a short one. -/
theorem asm_agrees_with_c_two :
    let input := delivered
      [⟨[0, 10, 65, 200, 32, 126, 127, 255, 1, 2, 3, 4, 5, 6, 7, 8], by decide⟩,
        ⟨[104, 105], by decide⟩] []
    ∃ n s' output, steps program quietLibc.run n (startCpu input) = some s' ∧
      s'.world = { input := [], output := output } ∧
      Hexdump.main garbage input = .ok (output, []) := by
  obtain ⟨n, s', output, hrun, -, -, -, hworld, hmain⟩ :=
    asm_agrees_with_c quietLibc garbage
      [⟨[0, 10, 65, 200, 32, 126, 127, 255, 1, 2, 3, 4, 5, 6, 7, 8], by decide⟩,
        ⟨[104, 105], by decide⟩] [] (started_startCpu _) (by simp)
  exact ⟨n, s', output, hrun, hworld, hmain⟩

end Csf.Hexdump.Asm
