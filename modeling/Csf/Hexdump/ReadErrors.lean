import Csf.Hexdump.AsmMain

/-!
# Hexdump: errors of `read`

Both versions of `hex_read` store a terminator behind as many characters as
`read` reports, and neither looks at the sign of the report. After -1 the C
program stores at `data_buf[4294967295]` and the assembly program at
`data_buf[-1]`; neither leaves its loop. So each handles a sequence of results
as intended exactly when no error comes before the end of the input.
-/

namespace Csf.Hexdump

open Csf.Lib Csf.Lib.X86 Csf.Lib.X86.Reg Asm

theorem length_nil_le : ([] : List UInt8).length ≤ 16 := Nat.zero_le 16

/-- The result 0. -/
def endOfInput : ReadResult := .bytes ⟨[], length_nil_le⟩

/-- No error comes before the first 0. -/
def ErrorFree (reads : List ReadResult) : Prop :=
  ReadResult.error ∉ reads.takeWhile fun r => decide (r ≠ endOfInput)

/-- The C program stores inside its arrays only, and ends at the first 0 or -1,
having written the lines of the results before it. -/
structure CHandles (reads : List ReadResult) : Prop where
  inside : ∀ locals, main locals reads ≠ .error .undefined
  ends : ∀ (locals : Frame) (chunks : List Chunk) (last : ReadResult) (rest : List ReadResult),
    reads = chunks.map .bytes ++ last :: rest → (∀ c ∈ chunks, c.val ≠ []) →
    last = endOfInput ∨ last = .error →
    main locals reads = .ok ((dumpLines chunks).flatten, rest)

/-- About to call `read`, the assembly program is about to store between `buf`
and `buf + 17` only: the bytes that are read, and the terminator on the line
behind the call. -/
def StoresInside (lib : Libc) (buf : Word) (u : Cpu) : Prop :=
  ∀ v, lib.run .read u = some v →
    (∀ a, ¬ a < u.regs rsp → 17 ≤ (a - buf).toNat → v.mem a = u.mem a) ∧
    program[u.pc + 1]? = some (movb 0 (idx 0 r12 rax)) ∧
    (v.addr (idx 0 r12 rax) - buf).toNat < 17

/-- The assembly program, whose `data_buf` is the 17 bytes below its return
address, does the same. -/
structure AsmHandles (reads : List ReadResult) : Prop where
  inside : ∀ (lib : Libc) (s u : Cpu) (n : Nat), Started reads s →
    steps program lib.run n s = some u → program[u.pc]? = some (.external .read) →
    StoresInside lib (s.regs rsp - 17) u
  ends : ∀ (lib : Libc) (s : Cpu) (chunks : List Chunk) (last : ReadResult)
    (rest : List ReadResult), Started reads s → reads = chunks.map .bytes ++ last :: rest →
    (∀ c ∈ chunks, c.val ≠ []) → last = endOfInput ∨ last = .error →
    Eventually program lib.run (fun s' => s'.pc = readBytes s.mem 8 (s.regs rsp) ∧
      s'.world = { input := rest, output := (dumpLines chunks).flatten }) s

/-! ## Sequences of results -/

/-- A sequence goes on with bytes until it runs out or comes to 0 or -1. -/
theorem exists_split (reads : List ReadResult) : ∃ (chunks : List Chunk) (tail : List ReadResult),
    reads = chunks.map .bytes ++ tail ∧ (∀ c ∈ chunks, c.val ≠ []) ∧
    (tail = [] ∨ (∃ rest, tail = endOfInput :: rest) ∨ ∃ rest, tail = .error :: rest) := by
  induction reads with
  | nil => exact ⟨[], [], rfl, by simp, .inl rfl⟩
  | cons r reads ih =>
      cases r with
      | error => exact ⟨[], _, rfl, by simp, .inr (.inr ⟨reads, rfl⟩)⟩
      | bytes c =>
          by_cases hc : c.val = []
          · obtain rfl : c = ⟨[], Nat.zero_le 16⟩ := Subtype.ext hc
            exact ⟨[], _, rfl, by simp, .inr (.inl ⟨reads, rfl⟩)⟩
          · obtain ⟨chunks, tail, rfl, hne, htail⟩ := ih
            refine ⟨c :: chunks, tail, rfl, ?_, htail⟩
            intro c' hc'
            rcases List.mem_cons.mp hc' with rfl | hc'
            · exact hc
            · exact hne c' hc'

variable {chunks : List Chunk} {tail rest reads : List ReadResult}

/-- Bytes do not count. -/
theorem errorFree_append (hne : ∀ c ∈ chunks, c.val ≠ []) :
    ErrorFree (chunks.map .bytes ++ tail) ↔ ErrorFree tail := by
  have hall : ∀ r ∈ chunks.map ReadResult.bytes, decide (r ≠ endOfInput) = true := by
    intro r hr
    obtain ⟨c, hc, rfl⟩ := List.mem_map.mp hr
    rw [decide_eq_true_iff]
    intro heq
    injection heq with hval
    exact hne c hc (congrArg Subtype.val hval)
  unfold ErrorFree
  rw [List.takeWhile_append_of_pos hall, List.mem_append]
  simp

theorem not_errorFree_error : ¬ ErrorFree (.error :: rest) := by
  simp [ErrorFree, endOfInput]

/-- Before an error come bytes only. -/
theorem exists_error (h : ¬ ErrorFree reads) : ∃ (chunks : List Chunk) (rest : List ReadResult),
    reads = chunks.map .bytes ++ .error :: rest ∧ ∀ c ∈ chunks, c.val ≠ [] := by
  obtain ⟨chunks, tail, rfl, hne, rfl | ⟨rest, rfl⟩ | ⟨rest, rfl⟩⟩ := exists_split reads
  · rw [errorFree_append hne] at h
    exact absurd (by simp [ErrorFree]) h
  · rw [errorFree_append hne] at h
    exact absurd (by simp [ErrorFree]) h
  · exact ⟨chunks, rest, rfl, hne⟩

/-- Free of errors, a sequence ends with 0, if it ends. -/
theorem ErrorFree.last_eq {last : ReadResult}
    (h : ErrorFree (chunks.map .bytes ++ last :: rest)) (hne : ∀ c ∈ chunks, c.val ≠ [])
    (hlast : last = endOfInput ∨ last = .error) : last = endOfInput := by
  rcases hlast with rfl | rfl
  · rfl
  · exact absurd ((errorFree_append hne).mp h) not_errorFree_error

/-! ## The C program -/

/-- An error after any number of results. -/
theorem main_error (locals : Frame) (hne : ∀ c ∈ chunks, c.val ≠ []) :
    main locals (chunks.map .bytes ++ .error :: rest) = .error .undefined := by
  obtain ⟨f, hmain⟩ :=
    mainLoop_chunks (.error :: rest) chunks 0 { locals with offset := 0 } hne rfl
  have herror : mainLoop (.error :: rest) f = .error .undefined := by
    simp [mainLoop, hexRead, store]
  rw [main, hmain, herror]
  rfl

theorem cHandles_iff (reads : List ReadResult) : CHandles reads ↔ ErrorFree reads := by
  constructor
  · intro h
    by_contra hfree
    obtain ⟨chunks, rest, rfl, hne⟩ := exists_error hfree
    exact h.inside garbage (main_error garbage hne)
  · intro hfree
    refine ⟨fun locals => ?_, fun locals chunks last rest hreads hne hlast => ?_⟩
    · obtain ⟨chunks, tail, rfl, hne, rfl | ⟨rest, rfl⟩ | ⟨rest, rfl⟩⟩ := exists_split reads
      · obtain ⟨f, hmain⟩ := mainLoop_chunks [] chunks 0 { locals with offset := 0 } hne rfl
        rw [main, hmain, mainLoop]
        simp [Except.map]
      · have hmain := main_eq locals hne rest
        unfold delivered at hmain
        unfold endOfInput
        rw [hmain]
        simp
      · exact absurd ((errorFree_append hne).mp hfree) not_errorFree_error
    · subst hreads
      obtain rfl := hfree.last_eq hne hlast
      exact main_eq locals hne rest

/-! ## The assembly program -/

/-- The one line that calls `read`. -/
theorem line_read {n : Nat} (h : program[n]? = some (.external .read)) :
    n = pos .hexRead + 6 := by
  have hall : ∀ n < program.length,
      program[n]? = some (.external .read) → n = pos .hexRead + 6 := by
    with_unfolding_all decide +kernel
  exact hall n (List.getElem?_eq_some_iff.mp h).1 h

/-- Bytes are about to be read to `buf`, and the terminator is to follow them. -/
def readsInto (buf : Word) (u : Cpu) : Bool :=
  u.regs rsi == buf && u.regs r12 == buf && u.world.input.head? != some .error

theorem accepts_readsInto (buf : Word) : Accepts (readsInto buf) buf := by
  intro u chunk input hrsi hr12 hinput
  simp [readsInto, hrsi, hr12, hinput]

theorem storesInside_of_readsInto {lib : Libc} {buf : Word} {u : Cpu}
    (hline : program[u.pc]? = some (.external .read)) (hok : readsInto buf u = true) :
    StoresInside lib buf u := by
  intro v hv
  have hsi : u.regs rsi = buf ∧ u.regs r12 = buf ∧ u.world.input.head? ≠ some .error := by
    simpa [readsInto, and_assoc] using hok
  obtain ⟨hrsi, hr12, herror⟩ := hsi
  have hbytes : ∃ (chunk : Chunk) (w : World),
      v = lib.leave u (BitVec.ofNat 64 chunk.val.length) (copyIn u.mem buf chunk.val) w := by
    rw [Libc.run] at hv
    split at hv
    · split at hv
      · exact absurd hv (by simp)
      · rw [hrsi] at hv
        exact ⟨_, _, (Option.some.inj hv).symm⟩
      · next hinput => exact absurd (by rw [hinput]; rfl) herror
    · exact absurd hv (by simp)
  obtain ⟨⟨bytes, hlen⟩, w, rfl⟩ := hbytes
  refine ⟨fun a hsp ha => ?_, ?_, ?_⟩
  · show (if a < u.regs rsp then lib.stack u a else copyIn u.mem buf bytes a) = u.mem a
    rw [if_neg hsp, copyIn, List.getElem?_eq_none (by omega), Option.getD_none]
  · rw [line_read hline]
    with_unfolding_all rfl
  · have haddr : (lib.leave u (BitVec.ofNat 64 bytes.length) (copyIn u.mem buf bytes) w).addr
        (idx 0 r12 rax) = buf + BitVec.ofNat 64 bytes.length := by
      simp [State.addr, idx, Libc.leave, kept, hr12]
    rw [haddr, BitVec.add_comm, BitVec.add_sub_cancel, BitVec.toNat_ofNat]
    omega

/-- A run that comes to an end without being refused a read. -/
theorem storesInside_of_run {lib : Libc} {s u : Cpu} {n : Nat} {buf : Word} {Q : Cpu → Prop}
    (hrun : Eventually program (lib.guarded (readsInto buf)) Q s)
    (hend : ∀ t, Q t → step program lib.run t = none) (hu : steps program lib.run n s = some u)
    (hline : program[u.pc]? = some (.external .read)) : StoresInside lib buf u := by
  intro v hv
  have hguarded := hrun.not_refused (lib.restricts_guarded _) hend hu hline hv
  have hok : readsInto buf u = true := by
    rw [Libc.guarded] at hguarded
    split at hguarded
    · assumption
    · exact absurd hguarded (by simp)
  exact storesInside_of_readsInto hline hok v hv

/-- After an error the terminator goes below the buffer. -/
theorem not_storesInside_error {lib : Libc} {buf : Word} {u : Cpu} (hrdi : u.regs rdi = 0)
    (hrdx : u.regs rdx = 16) (hr12 : u.regs r12 = buf)
    (hinput : u.world.input = .error :: rest) : ¬ StoresInside lib buf u := by
  intro h
  have hrun : lib.run .read u =
      some (lib.leave u (-1) u.mem { u.world with input := rest }) := by
    rw [Libc.run, if_pos ⟨hrdi, hrdx⟩, hinput]
  obtain ⟨-, -, hlt⟩ := h _ hrun
  have haddr : (lib.leave u (-1) u.mem { u.world with input := rest }).addr (idx 0 r12 rax) =
      buf + -1 := by
    simp [State.addr, idx, Libc.leave, kept, hr12]
  rw [haddr, BitVec.add_comm, BitVec.add_sub_cancel] at hlt
  exact absurd hlt (by decide)

/-- A run that comes to an error, after any number of results. -/
theorem error_run (lib : Libc) {s : Cpu} (hs : Started (chunks.map .bytes ++ .error :: rest) s)
    (hne : ∀ c ∈ chunks, c.val ≠ []) :
    Eventually program lib.run (fun u => program[u.pc]? = some (.external .read) ∧
      ¬ StoresInside lib (s.regs rsp - 17) u) s := by
  obtain ⟨base, hbase, hfits⟩ := hs.exists_base
  have hbuf : s.regs rsp - 17 = off base 103 := by
    rw [hbase]
    exact off_sub (by decide)
  rw [hbuf]
  refine Eventually.of_restricts (lib.restricts_guarded fun _ => true) ?_
  refine main_rounds hs hne (fun _ _ _ _ _ _ => rfl) hbase hfits fun t h => ?_
  refine h.call fun u hpc hrdi hrdx _ hr12 hworld => .now ⟨?_, ?_⟩
  · rw [hpc]
    with_unfolding_all rfl
  · exact not_storesInside_error hrdi hrdx hr12 (by rw [hworld])

/-- Free of errors, a run gets as far as its results go without being refused
one. -/
theorem errorFree_run (lib : Libc) {s : Cpu} (hs : Started reads s) (hfree : ErrorFree reads) :
    ∃ Q, Eventually program (lib.guarded (readsInto (s.regs rsp - 17))) Q s ∧
      ∀ t, Q t → step program lib.run t = none := by
  have hok := accepts_readsInto (s.regs rsp - 17)
  obtain ⟨chunks, tail, rfl, hne, rfl | ⟨rest, rfl⟩ | ⟨rest, rfl⟩⟩ := exists_split reads
  · -- the results run out, and `read` blocks
    obtain ⟨base, hbase, hfits⟩ := hs.exists_base
    refine ⟨fun u => u.pc = pos .hexRead + 6 ∧ u.world.input = [], ?_, ?_⟩
    · refine main_rounds hs hne hok hbase hfits fun t h => ?_
      exact h.call fun u hpc _ _ _ _ hworld => .now ⟨hpc, by rw [hworld]⟩
    · rintro t ⟨hpc, hinput⟩
      have hline : program[t.pc]? = some (.external .read) := by
        rw [hpc]
        with_unfolding_all rfl
      rw [step, hline]
      simp [Libc.run, hinput]
  · refine ⟨_, main_run hs hne hok, ?_⟩
    rintro t ⟨hpc, -, -⟩
    rw [step, List.getElem?_eq_none_iff.mpr (by rw [hpc]; exact hs.caller)]
  · exact absurd ((errorFree_append hne).mp hfree) not_errorFree_error

theorem asmHandles_iff (reads : List ReadResult) : AsmHandles reads ↔ ErrorFree reads := by
  constructor
  · intro h
    by_contra hfree
    obtain ⟨chunks, rest, rfl, hne⟩ := exists_error hfree
    obtain ⟨n, u, hrun, hline, hout⟩ :=
      (error_run quietLibc (started_startCpu _) hne).steps
    exact hout (h.inside quietLibc _ u n (started_startCpu _) hrun hline)
  · intro hfree
    refine ⟨fun lib s u n hs hu hline => ?_, fun lib s chunks last rest hs hreads hne hlast => ?_⟩
    · obtain ⟨Q, hrun, hend⟩ := errorFree_run lib hs hfree
      exact storesInside_of_run hrun hend hu hline
    · subst hreads
      obtain rfl := hfree.last_eq hne hlast
      have hrun := (main_run hs hne (accepts_readsInto _)).of_restricts (lib.restricts_guarded _)
      exact hrun.trans fun t ht => .now ⟨ht.1, ht.2.2⟩

/-- Both programs handle a sequence of results as intended exactly when no error
comes before the first 0. -/
theorem reads_handled_iff (reads : List ReadResult) :
    (CHandles reads ↔ ErrorFree reads) ∧ (AsmHandles reads ↔ ErrorFree reads) :=
  ⟨cHandles_iff reads, asmHandles_iff reads⟩

/-- An error behind two bytes. -/
theorem error_after_two_bytes :
    ¬ CHandles [.bytes ⟨[104, 105], by decide⟩, .error] ∧
    ¬ AsmHandles [.bytes ⟨[104, 105], by decide⟩, .error] := by
  have hfree : ¬ ErrorFree [.bytes ⟨[104, 105], by decide⟩, .error] := by
    simp [ErrorFree, endOfInput]
  exact ⟨fun h => hfree ((cHandles_iff _).mp h), fun h => hfree ((asmHandles_iff _).mp h)⟩

end Csf.Hexdump
