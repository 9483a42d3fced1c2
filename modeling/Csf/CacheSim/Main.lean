import Csf.CacheSim.Address

/-!
# Cache simulator: the command line

`isNumber`, `parseNumber` and `parseInput`, and `main` up to its simulation loop.
Arguments are strings of bytes without their NUL. `startsExactly_iff` says which
command lines are started on, or turned away, as they should be.
-/

namespace Csf.CacheSim

open Csf.Lib Csf.Lib.Decimal

/-- A string constant of the source. -/
def word (s : String) : List UInt8 := s.toList.map fun c => c.toNat.toUInt8

/-- The text of each `std::invalid_argument`, and what `main` prints for a wrong number of
arguments. -/
def invalidArgument : String := "ERROR: Invalid Command Line Argument"

/-- `isNumber`; the bound of its loop is `(int) s.length()`. -/
def isNumber (s : List UInt8) : Bool :=
  (s.take (loopCount (UInt32.ofNat s.length))).all (IsDigit ·)

/-- `parseNumber` -/
def parseNumber (arg : List UInt8) : Except String UInt32 :=
  if isNumber arg then .ok (atoi arg).toUInt32 else .error invalidArgument

/-- `parseInput` -/
def parseInput (arg trueInput falseInput : List UInt8) : Except String Bool :=
  if arg = trueInput then .ok true
  else if arg = falseInput then .ok false
  else .error invalidArgument

/-- `argv[1]` to `argv[6]`. -/
structure Args where
  numSets : List UInt8
  numBlocks : List UInt8
  numBytes : List UInt8
  allocation : List UInt8
  write : List UInt8
  lru : List UInt8
deriving DecidableEq, Repr

/-- The `try` block of `main`. -/
def parseArgs (args : Args) : Except String Config := do
  let numSets ← parseNumber args.numSets
  let numBlocks ← parseNumber args.numBlocks
  let numBytes ← parseNumber args.numBytes
  let allocation ← parseInput args.allocation (word "write-allocate") (word "no-write-allocate")
  let write ← parseInput args.write (word "write-through") (word "write-back")
  let lru ← parseInput args.lru (word "lru") (word "fifo")
  return { numSets, numBlocks, numBytes, allocation, write, lru }

/-- How `main` begins: what it has printed to `std::cerr`, and the code it exits with or the
configuration whose simulation it runs. -/
inductive Startup where
  | exits (printed : List String) (code : Int)
  | loops (printed : List String) (cfg : Config)
deriving DecidableEq, Repr

/-- `main` up to its loop. -/
def start (argv : List (List UInt8)) : Startup :=
  match argv with
  | [_, numSets, numBlocks, numBytes, allocation, write, lru] =>
      match parseArgs { numSets, numBlocks, numBytes, allocation, write, lru } with
      | .error text => .exits [text] (-1)
      | .ok cfg =>
          let (printed, error) := handleError cfg
          if error ≠ 0 then .exits printed error else .loops printed cfg
  | _ => .exits [invalidArgument] (-1)

def Args.argv (prog : List UInt8) (args : Args) : List (List UInt8) :=
  [prog, args.numSets, args.numBlocks, args.numBytes, args.allocation, args.write, args.lru]

/-! ## What `main` starts on -/

/-- The configuration that six arguments convert to. -/
def Args.config (args : Args) : Config :=
  { numSets := (atoi args.numSets).toUInt32
    numBlocks := (atoi args.numBlocks).toUInt32
    numBytes := (atoi args.numBytes).toUInt32
    allocation := args.allocation = word "write-allocate"
    write := args.write = word "write-through"
    lru := args.lru = word "lru" }

/-- The policy words are known, and not both of no-write-allocate and write-back. -/
structure Args.Policies (args : Args) : Prop where
  allocation : args.allocation ∈ [word "write-allocate", word "no-write-allocate"]
  write : args.write ∈ [word "write-through", word "write-back"]
  lru : args.lru ∈ [word "lru", word "fifo"]
  compatible : ¬(args.allocation = word "no-write-allocate" ∧ args.write = word "write-back")

/-- The tests that `main` makes: of the words, of the characters of the numbers, and of the
converted number of sets and block size. -/
structure Args.Passes (args : Args) : Prop where
  policies : args.Policies
  numSets : isNumber args.numSets = true ∧ ∃ k, (atoi args.numSets).toUInt32.toNat = 2 ^ k
  numBlocks : isNumber args.numBlocks = true
  numBytes : isNumber args.numBytes = true ∧ (∃ k, (atoi args.numBytes).toUInt32.toNat = 2 ^ k) ∧
    4 ≤ (atoi args.numBytes).toUInt32.toNat

theorem parseNumber_eq_ok {arg : List UInt8} {n : UInt32} :
    parseNumber arg = .ok n ↔ isNumber arg = true ∧ (atoi arg).toUInt32 = n := by
  unfold parseNumber
  split <;> simp_all

theorem parseInput_eq_ok {arg trueInput falseInput : List UInt8} {b : Bool} :
    parseInput arg trueInput falseInput = .ok b ↔
      arg ∈ [trueInput, falseInput] ∧ decide (arg = trueInput) = b := by
  unfold parseInput
  split
  · next h => simp [h]
  · next h => split <;> simp_all

theorem parseArgs_eq_ok {args : Args} {cfg : Config} : parseArgs args = .ok cfg ↔
    isNumber args.numSets = true ∧ isNumber args.numBlocks = true ∧
      isNumber args.numBytes = true ∧
      args.allocation ∈ [word "write-allocate", word "no-write-allocate"] ∧
      args.write ∈ [word "write-through", word "write-back"] ∧
      args.lru ∈ [word "lru", word "fifo"] ∧ args.config = cfg := by
  simp only [parseArgs, bind_eq_ok, pure_eq_ok, parseNumber_eq_ok, parseInput_eq_ok]
  constructor
  · rintro ⟨_, ⟨hs, rfl⟩, _, ⟨hb, rfl⟩, _, ⟨hz, rfl⟩, _, ⟨ha, rfl⟩, _, ⟨hw, rfl⟩, _, ⟨hl, rfl⟩, rfl⟩
    exact ⟨hs, hb, hz, ha, hw, hl, rfl⟩
  · rintro ⟨hs, hb, hz, ha, hw, hl, rfl⟩
    exact ⟨_, ⟨hs, rfl⟩, _, ⟨hb, rfl⟩, _, ⟨hz, rfl⟩, _, ⟨ha, rfl⟩, _, ⟨hw, rfl⟩, _, ⟨hl, rfl⟩, rfl⟩

/-- Both policies are off for just one pair of words. -/
theorem policies_on_iff {args : Args}
    (ha : args.allocation ∈ [word "write-allocate", word "no-write-allocate"])
    (hw : args.write ∈ [word "write-through", word "write-back"]) :
    args.config.allocation = true ∨ args.config.write = true ↔
      ¬(args.allocation = word "no-write-allocate" ∧ args.write = word "write-back") := by
  have hallocation : word "no-write-allocate" ≠ word "write-allocate" := by decide
  have hwrite : word "write-back" ≠ word "write-through" := by decide
  have hmem : ∀ {x a b : List UInt8}, x ∈ [a, b] → x = a ∨ x = b := by simp
  show decide (args.allocation = _) = true ∨ decide (args.write = _) = true ↔ _
  rw [decide_eq_true_iff, decide_eq_true_iff]
  rcases hmem ha with h | h <;> rcases hmem hw with h' | h' <;>
    simp [h, h', hallocation, hallocation.symm, hwrite, hwrite.symm]

/-- `main` reaches its loop when its tests pass, with the converted arguments. -/
theorem start_eq_loops {prog : List UInt8} {args : Args} {printed : List String} {cfg : Config} :
    start (args.argv prog) = .loops printed cfg ↔
      args.Passes ∧ (handleError args.config).1 = printed ∧ args.config = cfg := by
  have hstart : start (args.argv prog) = .loops printed cfg ↔
      parseArgs args = .ok cfg ∧ (handleError cfg).2 = 0 ∧ (handleError cfg).1 = printed := by
    show (match parseArgs args with
      | .error text => Startup.exits [text] (-1)
      | .ok cfg => if (handleError cfg).2 ≠ 0 then .exits (handleError cfg).1 (handleError cfg).2
          else .loops (handleError cfg).1 cfg) = _ ↔ _
    cases parseArgs args with
    | error text => simp
    | ok cfg' =>
        by_cases herror : (handleError cfg').2 = 0
        · simp only [herror, ne_eq, not_true_eq_false, if_false, Startup.loops.injEq,
            Except.ok.injEq]
          constructor
          · rintro ⟨rfl, rfl⟩
            exact ⟨rfl, herror, rfl⟩
          · rintro ⟨rfl, -, rfl⟩
            exact ⟨rfl, rfl⟩
        · simp only [herror, ne_eq, not_false_eq_true, if_true, reduceCtorEq, Except.ok.injEq,
            false_iff]
          rintro ⟨rfl, hzero, -⟩
          exact herror hzero
  rw [hstart, parseArgs_eq_ok, handleError_eq_zero_iff]
  constructor
  · rintro ⟨⟨hs, hb, hz, ha, hw, hl, rfl⟩, ⟨hsets, hbytes, hmin, hp⟩, hprinted⟩
    exact ⟨⟨⟨ha, hw, hl, (policies_on_iff ha hw).mp hp⟩, ⟨hs, hsets⟩, hb, hz, hbytes, hmin⟩,
      hprinted, rfl⟩
  · rintro ⟨⟨⟨ha, hw, hl, hp⟩, ⟨hs, hsets⟩, hb, hz, hbytes, hmin⟩, hprinted, rfl⟩
    exact ⟨⟨hs, hb, hz, ha, hw, hl, rfl⟩, ⟨hsets, hbytes, hmin, (policies_on_iff ha hw).mpr hp⟩,
      hprinted⟩

/-! ## What it should start on -/

/-- The decimal numeral of a number of 32 bits. -/
structure Numeral (s : List UInt8) : Prop where
  nonempty : s ≠ []
  digits : ∀ c ∈ s, IsDigit c
  fits : value s < 2 ^ 32

/-- A numeral passes the test of its characters and converts to its number. -/
theorem Numeral.parsed {s : List UInt8} (h : Numeral s) :
    isNumber s = true ∧ (atoi s).toUInt32.toNat = value s := by
  refine ⟨List.all_eq_true.mpr fun c hc => ?_, toNat_atoi_of_lt h.digits h.fits⟩
  exact decide_eq_true (h.digits c (List.mem_of_mem_take hc))

/-- The command lines to start on: three numerals of powers of two, the third at least 4, and
policies. -/
structure Args.Valid (args : Args) : Prop where
  numSets : Numeral args.numSets ∧ ∃ k, value args.numSets = 2 ^ k
  numBlocks : Numeral args.numBlocks ∧ ∃ k, value args.numBlocks = 2 ^ k
  numBytes : Numeral args.numBytes ∧ (∃ k, value args.numBytes = 2 ^ k) ∧ 4 ≤ value args.numBytes
  policies : args.Policies

/-- `main` reaches its loop just on a valid command line, and with the numbers that it says. -/
structure StartsExactly (args : Args) : Prop where
  valid : ∀ prog, (∃ printed cfg, start (args.argv prog) = .loops printed cfg) ↔ args.Valid
  sizes : ∀ prog printed cfg, start (args.argv prog) = .loops printed cfg →
    cfg.numSets.toNat = value args.numSets ∧ cfg.numBlocks.toNat = value args.numBlocks ∧
      cfg.numBytes.toNat = value args.numBytes

/-- What the tests of `main` take for granted. -/
structure Args.Plain (args : Args) : Prop where
  numSets : Numeral args.numSets
  numBlocks : Numeral args.numBlocks ∧ ∃ k, value args.numBlocks = 2 ^ k
  numBytes : Numeral args.numBytes

/-- A valid command line passes the tests. -/
theorem Args.Valid.passes {args : Args} (h : args.Valid) : args.Passes := by
  obtain ⟨⟨hs, hsets⟩, ⟨hb, -⟩, ⟨hz, hbytes, hmin⟩, hp⟩ := h
  obtain ⟨hsNumber, hsValue⟩ := hs.parsed
  obtain ⟨hzNumber, hzValue⟩ := hz.parsed
  exact ⟨hp, ⟨hsNumber, hsValue ▸ hsets⟩, hb.parsed.1, hzNumber, hzValue ▸ hbytes, hzValue ▸ hmin⟩

/-- One that passes them is valid where its numbers are plain. -/
theorem Args.Passes.valid {args : Args} (h : args.Passes) (hplain : args.Plain) : args.Valid := by
  obtain ⟨hp, ⟨-, hsets⟩, -, -, hbytes, hmin⟩ := h
  obtain ⟨hs, hblocks, hz⟩ := hplain
  rw [hs.parsed.2] at hsets
  rw [hz.parsed.2] at hbytes hmin
  exact ⟨⟨hs, hsets⟩, hblocks, ⟨hz, hbytes, hmin⟩, hp⟩

/-- **Command lines.** `main` starts on exactly what it should if the tests that it makes are
failed, or if the numbers are plain: what it leaves untested is the number of blocks, and what
the conversions to 32 bits cut off. -/
theorem startsExactly_iff (args : Args) : StartsExactly args ↔ (args.Passes → args.Plain) := by
  constructor
  · intro h hpasses
    obtain ⟨hs, hb, hz, -⟩ :=
      (h.valid []).mp ⟨_, _, start_eq_loops.mpr ⟨hpasses, rfl, rfl⟩⟩
    exact ⟨hs.1, hb, hz.1⟩
  · refine fun h => ⟨fun prog => ⟨?_, fun hvalid => ?_⟩, ?_⟩
    · rintro ⟨printed, cfg, hloops⟩
      obtain ⟨hpasses, -⟩ := start_eq_loops.mp hloops
      exact hpasses.valid (h hpasses)
    · exact ⟨_, _, start_eq_loops.mpr ⟨hvalid.passes, rfl, rfl⟩⟩
    · intro prog printed cfg hloops
      obtain ⟨hpasses, -, rfl⟩ := start_eq_loops.mp hloops
      obtain ⟨hs, ⟨hb, -⟩, hz⟩ := h hpasses
      exact ⟨hs.parsed.2, hb.parsed.2, hz.parsed.2⟩

/-- One set of `numBlocks` blocks of 4 bytes. -/
def oneSetArgs (numBlocks : List UInt8) : Args :=
  { numSets := word "1"
    numBlocks := numBlocks
    numBytes := word "4"
    allocation := word "write-allocate"
    write := word "write-through"
    lru := word "lru" }

/-- A cache without blocks is refused in print only. -/
theorem noBlocks_started : ¬∀ args : Args, StartsExactly args := by
  intro hall
  have hpasses : (oneSetArgs (word "0")).Passes :=
    ⟨⟨by decide, by decide, by decide, by decide⟩, ⟨by decide, 0, by decide⟩, by decide,
      by decide, ⟨2, by decide⟩, by decide⟩
  obtain ⟨-, ⟨-, k, hk⟩, -⟩ :=
    ((hall _).valid []).mp ⟨_, _, start_eq_loops.mpr ⟨hpasses, rfl, rfl⟩⟩
  have hpos : 0 < 2 ^ k := Nat.two_pow_pos k
  have hzero : value (oneSetArgs (word "0")).numBlocks = 0 := by decide
  omega

end Csf.CacheSim
