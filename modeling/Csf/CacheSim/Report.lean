import Csf.CacheSim.Main
import Csf.CacheSim.Reference
import Csf.Lib.Extract
import Csf.Lib.Istream

/-!
# Cache simulator: from the input to the report

The loop of `main` on the text of `std::cin`, `printStats`, and `main` as a whole. The base
that `std::hex` sets stays set, so that the third field of a line is read in it too; the
loop ends with the first line that cannot be extracted. `linesOf_eq_iff` says which texts
have which lines, and `main_reports` what `main` makes of them.
-/

namespace Csf.CacheSim

open Csf.Lib Csf.Lib.Extract

/-! ## Lines -/

/-- What `main` extracts in a round. -/
structure Line where
  cmd : UInt8
  address : UInt32
  dump : UInt32
deriving DecidableEq, Repr

/-- `std::cin >> cmd >> std::hex >> address >> dump` -/
def extractLine (text : List UInt8) : Option (Line × List UInt8) := do
  let (cmd, text) ← Extract.char text
  let (address, text) ← hex32 text
  let (dump, text) ← hex32 text
  pure ({ cmd, address, dump }, text)

/-- A text that begins with a line, and what is behind it: a character, and two numbers of
which the first ends before the second begins. -/
inductive BeginsLine : List UInt8 → Line → List UInt8 → Prop where
  | intro {blanks text text' rest : List UInt8} {line : Line} : Blank blanks →
      Decimal.isSpace line.cmd = false → Begins text line.address text' →
      Begins text' line.dump rest → BeginsLine (blanks ++ line.cmd :: text) line rest

/-- Lines written one after the other, and what is behind them. -/
inductive Written : List Line → List UInt8 → List UInt8 → Prop where
  | nil (text : List UInt8) : Written [] text text
  | cons {line : Line} {lines : List Line} {text text' rest : List UInt8} :
      BeginsLine text line text' → Written lines text' rest → Written (line :: lines) text rest

variable {text rest : List UInt8} {line : Line} {lines : List Line}

theorem extractLine_iff : extractLine text = some (line, rest) ↔ BeginsLine text line rest := by
  constructor
  · intro h
    simp only [extractLine, Option.bind_eq_bind, Option.bind_eq_some_iff, Prod.exists,
      Option.pure_def, Option.some.injEq, Prod.mk.injEq] at h
    obtain ⟨cmd, afterCmd, hcmd, address, afterAddress, haddress, dump, _, hdump, rfl, rfl⟩ := h
    obtain ⟨blanks, hblank, hspace, rfl⟩ := char_iff.mp hcmd
    have haddress' : Begins afterCmd (Line.mk cmd address dump).address afterAddress :=
      hex32_iff.mp haddress
    exact .intro hblank hspace haddress' (hex32_iff.mp hdump)
  · rintro @⟨blanks, afterCmd, _, _, _, hblank, hspace, haddress, hdump⟩
    have hcmd : Extract.char (blanks ++ line.cmd :: afterCmd) = some (line.cmd, afterCmd) :=
      char_iff.mpr ⟨blanks, hblank, hspace, rfl⟩
    simp only [extractLine, hcmd, haddress.hex32_eq, hdump.hex32_eq, Option.bind_eq_bind,
      Option.bind_some, Option.pure_def]

theorem extractLine_shorter (h : extractLine text = some (line, rest)) :
    rest.length < text.length := by
  obtain ⟨-, -, haddress, hdump⟩ := extractLine_iff.mp h
  have h₁ := hex32_shorter haddress.hex32_eq
  have h₂ := hex32_shorter hdump.hex32_eq
  rw [List.length_append, List.length_cons]
  omega

/-- The lines of a text, up to the first that cannot be extracted. -/
def linesOf (text : List UInt8) : List Line :=
  match _h : extractLine text with
  | none => []
  | some (line, rest) => line :: linesOf rest
termination_by text.length
decreasing_by exact extractLine_shorter _h

theorem linesOf_none (h : extractLine text = none) : linesOf text = [] := by
  rw [linesOf]
  split
  · rfl
  · next hline => exact absurd (h.symm.trans hline) (by simp)

theorem linesOf_some (h : extractLine text = some (line, rest)) :
    linesOf text = line :: linesOf rest := by
  rw [linesOf]
  split
  · next hnone => exact absurd (hnone.symm.trans h) (by simp)
  · next hline =>
      rw [h, Option.some.injEq, Prod.mk.injEq] at hline
      obtain ⟨rfl, rfl⟩ := hline
      rfl

/-- What has been read was written, and the rest does not begin with a line. -/
theorem written_linesOf (text : List UInt8) :
    ∃ rest, Written (linesOf text) text rest ∧ extractLine rest = none := by
  fun_induction linesOf text with
  | case1 text h => exact ⟨text, .nil text, h⟩
  | case2 text line rest h ih =>
      obtain ⟨last, hwritten, hlast⟩ := ih
      exact ⟨last, .cons (extractLine_iff.mp h) hwritten, hlast⟩

/-- Written lines are read back. -/
theorem Written.linesOf_eq (h : Written lines text rest) :
    linesOf text = lines ++ linesOf rest := by
  induction h with
  | nil text => rfl
  | cons hline _ ih => rw [linesOf_some (extractLine_iff.mpr hline), ih, List.cons_append]

/-- **The format of a trace.** A text has exactly the lines that are written in it, one after
the other, up to where no line begins. -/
theorem linesOf_eq_iff : linesOf text = lines ↔
    ∃ rest, Written lines text rest ∧ ∀ line more, ¬BeginsLine rest line more := by
  constructor
  · rintro rfl
    obtain ⟨rest, hwritten, hlast⟩ := written_linesOf text
    refine ⟨rest, hwritten, fun line more hline => ?_⟩
    rw [extractLine_iff.mpr hline] at hlast
    exact absurd hlast (by simp)
  · rintro ⟨rest, hwritten, hlast⟩
    have hnone : extractLine rest = none := by
      cases h : extractLine rest with
      | none => rfl
      | some next => exact absurd (extractLine_iff.mp h) (hlast next.1 next.2)
    rw [hwritten.linesOf_eq, linesOf_none hnone, List.append_nil]

/-! ## `main` -/

/-- A line of the report: a label and a number. -/
def labelled (label : String) (n : UInt32) : List UInt8 := word label ++ Decimal.numeral n.toNat ++ [10]

/-- `printStats` -/
def printStats (stats : CacheStats) : List UInt8 :=
  labelled "Total loads: " stats.totalLoads ++
  labelled "Total stores: " stats.totalStores ++
  labelled "Load hits: " stats.loadHits ++
  labelled "Load misses: " stats.loadMisses ++
  labelled "Store hits: " stats.storeHits ++
  labelled "Store misses: " stats.storeMisses ++
  labelled "Total cycles: " stats.totalCycles

/-- How `main` ends: its standard output, the messages on `std::cerr` and its result. -/
structure Exit where
  stdout : List UInt8
  stderr : List String
  code : Int
deriving DecidableEq, Repr

/-- The loop of `main`, and what follows it. -/
def simulate (cfg : Config) (text : List UInt8) (s : Sim) : Except Fault Exit :=
  match _h : extractLine text with
  | none => .ok { stdout := printStats s.stats, stderr := [], code := 0 }
  | some (line, rest) =>
      let cmd := Char.ofNat line.cmd.toNat
      if cmd = 'l' ∨ cmd = 's' then do
        let (cache, stats) ← cacheHandler cmd line.address cfg s.cache s.stats
        simulate cfg rest { cache := cache, stats := stats }
      else .ok { stdout := [], stderr := ["ERROR: Invalid Command"], code := -1 }
termination_by text.length
decreasing_by exact extractLine_shorter _h

/-- `main` -/
def main (argv : List (List UInt8)) (stdin : List UInt8) : Except Fault Exit :=
  match start argv with
  | .exits printed code => .ok { stdout := [], stderr := printed, code := code }
  | .loops printed cfg => do
      let exit ← simulate cfg stdin (Sim.init cfg)
      pure { exit with stderr := printed ++ exit.stderr }

/-! ## What the loop makes of the lines -/

/-- The access that a line asks for. -/
def Line.access (line : Line) : Option Access :=
  if line.cmd = 108 then some { op := .load, address := line.address }
  else if line.cmd = 115 then some { op := .store, address := line.address }
  else none

/-- The accesses of lines, up to the first line that asks for none. -/
def accessesOf : List Line → List Access
  | [] => []
  | line :: lines =>
      match line.access with
      | none => []
      | some a => a :: accessesOf lines

/-- One of the lines asks for no access. -/
def Invalid (lines : List Line) : Prop := ∃ line ∈ lines, line.access = none

instance (lines : List Line) : Decidable (Invalid lines) :=
  inferInstanceAs (Decidable (∃ line ∈ lines, line.access = none))

theorem ofNat_eq_iff (c : UInt8) :
    (Char.ofNat c.toNat = 'l' ↔ c = 108) ∧ (Char.ofNat c.toNat = 's' ↔ c = 115) := by
  have hall : ∀ n < 256, (Char.ofNat n = 'l' ↔ n = 108) ∧ (Char.ofNat n = 's' ↔ n = 115) := by
    decide +kernel
  obtain ⟨hl, hs⟩ := hall c.toNat c.toNat_lt
  rw [hl, hs, ← UInt8.toNat_inj, ← UInt8.toNat_inj]
  exact ⟨Iff.rfl, Iff.rfl⟩

/-- A line that asks for an access has its command. -/
theorem access_some {a : Access} (h : line.access = some a) :
    Char.ofNat line.cmd.toNat = a.op.cmd ∧ line.address = a.address := by
  obtain ⟨hl, hs⟩ := ofNat_eq_iff line.cmd
  unfold Line.access at h
  split_ifs at h with hload hstore
  · obtain rfl := Option.some.inj h
    exact ⟨hl.mpr hload, rfl⟩
  · obtain rfl := Option.some.inj h
    exact ⟨hs.mpr hstore, rfl⟩

theorem access_none (h : line.access = none) :
    ¬(Char.ofNat line.cmd.toNat = 'l' ∨ Char.ofNat line.cmd.toNat = 's') := by
  obtain ⟨hl, hs⟩ := ofNat_eq_iff line.cmd
  unfold Line.access at h
  split_ifs at h with hload hstore
  rw [hl, hs]
  exact not_or.mpr ⟨hload, hstore⟩

theorem simulate_none {cfg : Config} {s : Sim} (h : extractLine text = none) :
    simulate cfg text s = .ok { stdout := printStats s.stats, stderr := [], code := 0 } := by
  rw [simulate]
  split
  · rfl
  · next hline => exact absurd (h.symm.trans hline) (by simp)

theorem simulate_some {cfg : Config} {s : Sim} (h : extractLine text = some (line, rest)) :
    simulate cfg text s = match line.access with
      | none => .ok { stdout := [], stderr := ["ERROR: Invalid Command"], code := -1 }
      | some a => s.step cfg a >>= simulate cfg rest := by
  rw [simulate]
  split
  · next hnone => exact absurd (hnone.symm.trans h) (by simp)
  · next hline =>
      rw [h, Option.some.injEq, Prod.mk.injEq] at hline
      obtain ⟨rfl, rfl⟩ := hline
      cases haccess : line.access with
      | none => exact if_neg (access_none haccess)
      | some a =>
          obtain ⟨hcmd, haddress⟩ := access_some haccess
          have hop : a.op.cmd = 'l' ∨ a.op.cmd = 's' := by
            cases a.op
            · exact .inl rfl
            · exact .inr rfl
          rw [hcmd, haddress]
          simp only [if_pos hop, Sim.step, bind_assoc, pure_bind]

/-- **The loop.** It runs the accesses of its lines; one line that asks for none, and there is
nothing to report. -/
theorem simulate_run {cfg : Config} : ∀ {text : List UInt8} {s s' : Sim} {events : List Event},
    run cfg (accessesOf (linesOf text)) s = .ok (events, s') →
    simulate cfg text s = .ok
      (if Invalid (linesOf text) then
        { stdout := [], stderr := ["ERROR: Invalid Command"], code := -1 }
      else { stdout := printStats s'.stats, stderr := [], code := 0 }) := by
  intro text
  fun_induction linesOf text with
  | case1 text hnone =>
      intro s s' events h
      rw [accessesOf, run, Except.ok.injEq, Prod.mk.injEq] at h
      obtain ⟨-, rfl⟩ := h
      rw [simulate_none hnone, if_neg (by simp [Invalid])]
  | case2 text line rest hline ih =>
      intro s s' events h
      rw [simulate_some hline]
      cases haccess : line.access with
      | none =>
          have hinvalid : Invalid (line :: linesOf rest) := ⟨line, List.mem_cons_self, haccess⟩
          rw [if_pos hinvalid]
      | some a =>
          have hiff : Invalid (line :: linesOf rest) ↔ Invalid (linesOf rest) := by
            simp [Invalid, haccess]
          rw [accessesOf, haccess] at h
          simp only [run, bind_eq_ok, Prod.exists] at h
          obtain ⟨e, -, s₁, hstep, events', s₂, hrest, hend⟩ := h
          obtain ⟨-, rfl⟩ : _ ∧ s₂ = s' := by simpa using hend
          simp only [hiff, hstep, ok_bind]
          exact ih hrest

theorem Args.Passes.accepted {args : Args} (h : args.Passes) : args.config.Accepted :=
  ⟨h.numSets.2, h.numBytes.2.1, h.numBytes.2.2,
    (policies_on_iff h.policies.allocation h.policies.write).mpr h.policies.compatible⟩

/-- A run in a geometry that fits has the outcomes and the counters of the reference model. -/
theorem exists_reaches {cfg : Config} (ha : cfg.Accepted)
    (hfit : cfg.numSets.toNat * cfg.numBytes.toNat ≤ 2 ^ 32) (hblocks : 0 < cfg.numBlocks.toNat)
    {trace : List Access} (hshort : trace.length < 2 ^ 32) :
    ∃ events s, Reaches cfg trace events s ∧
      (events.map fun e => (e.op, e.hit)) = (reference cfg trace).1 ∧
      Tally s.stats (reference cfg trace).1 := by
  obtain ⟨events, s, hrun, hevents, -, hstats⟩ := run_spec ha hfit hblocks trace _
    CacheStats.zero 0 _ _ (tracks_init cfg) (by omega)
  have href : reference cfg trace = (events.map fun e => (e.op, e.hit),
      blocksOf cfg (orderRun cfg (fun _ => []) events)) :=
    refRun_eq (numSets_pos ha) trace (fun _ => []) events hevents
  rw [href]
  exact ⟨events, s, hrun, rfl, tally_of_countRun hstats (hevents.length_eq ▸ hshort)⟩

/-- **The simulator.** On a command line that its tests let through, with blocks in its sets and
sets that 32 bits can address, `main` reports what the reference model counts on the accesses
that the input asks for, and ends well; unless a line asks for something else, when it
reports nothing. -/
theorem main_reports {args : Args} (hpass : args.Passes)
    (hblocks : 0 < args.config.numBlocks.toNat)
    (hfit : args.config.numSets.toNat * args.config.numBytes.toNat ≤ 2 ^ 32)
    (hshort : (accessesOf (linesOf text)).length < 2 ^ 32) (prog : List UInt8) :
    ∃ events s, Reaches args.config (accessesOf (linesOf text)) events s ∧
      Tally s.stats (reference args.config (accessesOf (linesOf text))).1 ∧
      main (args.argv prog) text = .ok
        (if Invalid (linesOf text) then
          { stdout := []
            stderr := (handleError args.config).1 ++ ["ERROR: Invalid Command"]
            code := -1 }
        else
          { stdout := printStats s.stats, stderr := (handleError args.config).1, code := 0 }) := by
  have hstart : start (args.argv prog) = .loops (handleError args.config).1 args.config :=
    start_eq_loops.mpr ⟨hpass, rfl, rfl⟩
  obtain ⟨events, s, hrun, -, htally⟩ := exists_reaches hpass.accepted hfit hblocks hshort
  have hloop : simulate args.config text (Sim.init args.config) = _ := simulate_run hrun
  refine ⟨events, s, hrun, htally, ?_⟩
  rw [main, hstart]
  show (do
    let exit ← simulate args.config text (Sim.init args.config)
    pure { exit with stderr := (handleError args.config).1 ++ exit.stderr }) = _
  rw [hloop]
  split
  · rfl
  · rw [ok_bind, List.append_nil]
    rfl

/-- A load, a store to the same block written in another way, and no newline at the end. -/
def shortInput : List UInt8 := word "l 0x10 1\n  s\t00000011 4\nl 0XfF 1"

theorem main_reports_short : ∃ s : Sim,
    s.stats.loadMisses.toNat = 2 ∧ s.stats.storeHits.toNat = 1 ∧
    main ((oneSetArgs (word "2")).argv (word "csim")) shortInput =
      .ok { stdout := printStats s.stats
            stderr := (handleError (oneSetArgs (word "2")).config).1
            code := 0 } := by
  have hlines : linesOf shortInput =
      [⟨108, 16, 1⟩, ⟨115, 17, 4⟩, ⟨108, 255, 1⟩] := by
    have hfirst : extractLine shortInput =
        some (⟨108, 16, 1⟩, word "\n  s\t00000011 4\nl 0XfF 1") := by decide
    rw [linesOf_some hfirst]
    have hsecond : extractLine (word "\n  s\t00000011 4\nl 0XfF 1") =
        some (⟨115, 17, 4⟩, word "\nl 0XfF 1") := by decide
    rw [linesOf_some hsecond]
    have hthird : extractLine (word "\nl 0XfF 1") = some (⟨108, 255, 1⟩, []) := by decide
    rw [linesOf_some hthird, linesOf_none rfl]
  have hpass : (oneSetArgs (word "2")).Passes :=
    ⟨⟨by decide, by decide, by decide, by decide⟩, ⟨by decide, 0, by decide⟩, by decide,
      by decide, ⟨2, by decide⟩, by decide⟩
  obtain ⟨events, s, -, htally, hmain⟩ := main_reports hpass (by decide) (by decide)
    (by rw [hlines]; decide) (word "csim")
  rw [hlines] at htally hmain
  rw [if_neg (by decide)] at hmain
  exact ⟨s, htally.loadMisses.trans (by decide), htally.storeHits.trans (by decide), hmain⟩

end Csf.CacheSim
