import Csf.CacheSim.WriteBack

/-!
# Cache simulator: the cycle total

Every access makes a list of charges: a cycle for the cache, 100 for a word of
memory, 25 for every byte of a block that is transferred. The simulator adds
them up in 32 bits, and computes the price of a transfer as `(100 * num_bytes) >> 2`,
also in 32 bits. The total that it reports is the exact sum of the charges if and
only if that sum fits and no transfer of a block too large for the product occurs.
-/

namespace Csf.CacheSim

open Csf.Lib

/-- What an access is charged for. -/
inductive Charge where
  | cycle
  | memory
  | transfer
deriving DecidableEq, Repr

/-- The exact price of a charge. -/
def Charge.exact (cfg : Config) : Charge → ℕ
  | .cycle => 1
  | .memory => 100
  | .transfer => 25 * cfg.numBytes.toNat

/-- What the simulator adds for a charge. -/
def Charge.added (cfg : Config) : Charge → UInt32
  | .cycle => 1
  | .memory => 100
  | .transfer => transferCycles cfg.numBytes

/-- The write-back of a full set whose victim is dirty. -/
def evictionCharges (cfg : Config) (cache : Cache) (index : UInt32) : List Charge :=
  match cache.setAt index with
  | .error _ => []
  | .ok set =>
      if findEmptySpot set = set.blocks.length then
        match (chooseEvictedBlock set cfg.lru).bind (set.blocks[·]?) with
        | some victim => if victim.dirty then [.transfer] else []
        | none => []
      else []

/-- The charges of an access, in the order in which they are added. -/
def charges (cfg : Config) (cache : Cache) (e : Event) : List Charge :=
  match e.op, e.hit with
  | .load, true => [.cycle]
  | .load, false => .transfer :: evictionCharges cfg cache e.index
  | .store, true => if cfg.write then [.memory, .cycle] else [.cycle]
  | .store, false =>
      if cfg.allocation then .cycle :: .transfer :: evictionCharges cfg cache e.index
      else [.memory]

/-- The charges of a run. -/
def chargesRun (cfg : Config) : List Access → Sim → List Charge
  | [], _ => []
  | a :: rest, s =>
      match observe cfg s.cache a, s.step cfg a with
      | .ok e, .ok s' => charges cfg s.cache e ++ chargesRun cfg rest s'
      | _, _ => []

/-- The exact sum of charges. -/
def exactTotal (cfg : Config) (cs : List Charge) : ℕ := (cs.map (Charge.exact cfg)).sum

/-- The running total of the simulator. -/
def runningTotal (cfg : Config) (total : UInt32) (cs : List Charge) : UInt32 :=
  cs.foldl (fun total c => total + c.added cfg) total

theorem runningTotal_append (cfg : Config) (total : UInt32) (cs ds : List Charge) :
    runningTotal cfg total (cs ++ ds) = runningTotal cfg (runningTotal cfg total cs) ds :=
  List.foldl_append

/-! ## The charges of the functions -/

section

variable {cfg : Config} {cache cache' : Cache} {stats stats' : CacheStats} {index tag : UInt32}

/-- `place_in_cache` charges the write-back of its victim. -/
theorem placeInCache_cycles
    (h : placeInCache index tag cfg.lru cfg.numBytes cache stats = .ok (cache', stats')) :
    stats'.totalCycles =
      runningTotal cfg stats.totalCycles (evictionCharges cfg cache index) := by
  obtain ⟨set, hset, h⟩ := bind_eq_ok.mp h
  rw [evictionCharges, hset]
  by_cases hfull : findEmptySpot set = set.blocks.length
  · simp only [if_pos hfull, bind_eq_ok, pure_eq_ok, Prod.mk.injEq] at h ⊢
    obtain ⟨⟨iter, set₁, stats₁⟩, hevict, -, -, -, rfl⟩ := h
    rw [evict] at hevict
    cases hj : chooseEvictedBlock set cfg.lru with
    | none => simp [hj] at hevict
    | some j =>
        cases hb : set.blocks[j]? with
        | none => simp [hj, hb] at hevict
        | some victim =>
            simp only [hj, hb, Except.ok.injEq, Prod.mk.injEq] at hevict
            obtain ⟨-, -, rfl⟩ := hevict
            simp only [Option.bind_some, hb]
            cases victim.dirty <;> rfl
  · simp only [if_neg hfull, bind_eq_ok, pure_eq_ok, Prod.mk.injEq] at h ⊢
    obtain ⟨⟨iter, set₁, stats₁⟩, ⟨-, -, rfl⟩, -, -, -, rfl⟩ := h
    rfl

/-- `cache_load` adds the charges of a load. -/
theorem cacheLoad_cycles {b : Bool} (hhit : hit index tag cache = .ok b)
    (h : cacheLoad index tag cfg cache stats = .ok (cache', stats')) :
    stats'.totalCycles = runningTotal cfg stats.totalCycles
      (charges cfg cache { op := .load, index := index, tag := tag, hit := b }) := by
  simp only [cacheLoad, hhit, ok_bind] at h
  cases b with
  | true =>
      simp only [if_true, bind_eq_ok, pure_eq_ok, Prod.mk.injEq] at h
      obtain ⟨-, -, -, rfl⟩ := h
      rfl
  | false => exact placeInCache_cycles h

/-- `cache_store` adds the charges of a store. -/
theorem cacheStore_cycles {b : Bool} (hhit : hit index tag cache = .ok b)
    (h : cacheStore index tag cfg cache stats = .ok (cache', stats')) :
    stats'.totalCycles = runningTotal cfg stats.totalCycles
      (charges cfg cache { op := .store, index := index, tag := tag, hit := b }) := by
  simp only [cacheStore, hhit, ok_bind] at h
  unfold charges
  cases b with
  | true =>
      simp only [if_true, bind_eq_ok] at h
      obtain ⟨cache₁, -, h⟩ := h
      cases hw : cfg.write with
      | true =>
          simp only [hw, if_true, pure_eq_ok, Prod.mk.injEq] at h
          obtain ⟨-, rfl⟩ := h
          simp only [if_true]
          rfl
      | false =>
          simp only [hw, Bool.false_eq_true, if_false, bind_eq_ok, pure_eq_ok,
            Prod.mk.injEq] at h ⊢
          obtain ⟨-, -, -, rfl⟩ := h
          rfl
  | false =>
      simp only [Bool.false_eq_true, if_false] at h
      cases ha : cfg.allocation with
      | true =>
          simp only [ha, if_true] at h ⊢
          exact placeInCache_cycles h
      | false =>
          simp only [ha, Bool.false_eq_true, if_false, pure_eq_ok, Prod.mk.injEq] at h ⊢
          obtain ⟨-, rfl⟩ := h
          rfl

/-- One round of `main`'s loop adds the charges of its access. -/
theorem step_cycles {s s' : Sim} {a : Access} {e : Event} (he : observe cfg s.cache a = .ok e)
    (hs : s.step cfg a = .ok s') :
    s'.stats.totalCycles = runningTotal cfg s.stats.totalCycles (charges cfg s.cache e) := by
  obtain ⟨-, -, hhit, -⟩ := observe_eq_ok he
  obtain ⟨op, index, tag, b⟩ := e
  rcases step_cases he hs with ⟨rfl, hload⟩ | ⟨rfl, hstore⟩
  · -- the counters do not enter into the total
    have hcycles := cacheLoad_cycles hhit hload
    exact hcycles
  · have hcycles := cacheStore_cycles hhit hstore
    exact hcycles

end

/-- A run adds the charges of its accesses. -/
theorem run_cycles {cfg : Config} : ∀ {trace : List Access} {s s' : Sim} {events : List Event},
    run cfg trace s = .ok (events, s') →
    s'.stats.totalCycles = runningTotal cfg s.stats.totalCycles (chargesRun cfg trace s) := by
  intro trace
  induction trace with
  | nil =>
      intro s s' events h
      cases h
      rfl
  | cons a rest ih =>
      intro s s' events h
      simp only [run, bind_eq_ok, pure_eq_ok, Prod.mk.injEq] at h
      obtain ⟨e, he, s₁, hs, ⟨events', s₂⟩, hrest, -, rfl⟩ := h
      simp only [chargesRun, he, hs]
      rw [runningTotal_append, ← step_cycles he hs]
      exact ih hrest

/-! ## Sums of prices -/

section

variable {cfg : Config}

/-- A sum of prices counts the charges of each kind. -/
theorem sum_prices (f : Charge → ℕ) (cs : List Charge) : (cs.map f).sum =
    cs.count .cycle * f .cycle + cs.count .memory * f .memory +
      cs.count .transfer * f .transfer := by
  induction cs with
  | nil => simp
  | cons c cs ih =>
      rw [List.map_cons, List.sum_cons, ih, List.count_cons, List.count_cons, List.count_cons]
      cases c <;> simp <;> ring

/-- The running total is the sum of what is added, modulo its width. -/
theorem toNat_runningTotal (total : UInt32) (cs : List Charge) :
    (runningTotal cfg total cs).toNat =
      (total.toNat + (cs.map fun c => (c.added cfg).toNat).sum) % 2 ^ 32 := by
  induction cs generalizing total with
  | nil =>
      show total.toNat = (total.toNat + 0) % 2 ^ 32
      rw [Nat.add_zero, Nat.mod_eq_of_lt total.toNat_lt]
  | cons c cs ih =>
      show (runningTotal cfg (total + c.added cfg) cs).toNat = _
      rw [ih, UInt32.toNat_add, List.map_cons, List.sum_cons, Nat.mod_add_mod, Nat.add_assoc]

/-- The price of a transfer, short of it by a multiple of `2 ^ 30`. -/
theorem transferCycles_eq (numBytes : UInt32) :
    (transferCycles numBytes).toNat + 100 * numBytes.toNat / 2 ^ 32 * 2 ^ 30 =
      25 * numBytes.toNat := by
  have hshift : (transferCycles numBytes).toNat = 100 * numBytes.toNat % 2 ^ 32 / 4 := by
    rw [transferCycles, UInt32.toNat_shiftRight, UInt32.toNat_mul]
    exact Nat.shiftRight_eq_div_pow _ 2
  rw [hshift]
  omega

/-- Without a wrapped product every charge is added at its exact price. -/
theorem toNat_added {cs : List Charge}
    (hfit : Charge.transfer ∈ cs → 100 * cfg.numBytes.toNat < 2 ^ 32) {c : Charge} (hc : c ∈ cs) :
    (c.added cfg).toNat = c.exact cfg := by
  cases c with
  | cycle => rfl
  | memory => rfl
  | transfer =>
      have hzero : 100 * cfg.numBytes.toNat / 2 ^ 32 = 0 := Nat.div_eq_of_lt (hfit hc)
      have hprice := transferCycles_eq cfg.numBytes
      rw [hzero, Nat.zero_mul] at hprice
      exact hprice

end

/-- The total of `s` is that of the charges `cs`, and on the way to it neither a product nor
a running total wrapped. -/
structure CyclesExact (cfg : Config) (cs : List Charge) (s : Sim) : Prop where
  total : s.stats.totalCycles.toNat = exactTotal cfg cs
  product : Charge.transfer ∈ cs →
    (100 * cfg.numBytes).toNat = 100 * cfg.numBytes.toNat ∧
      (transferCycles cfg.numBytes).toNat = 25 * cfg.numBytes.toNat
  running : ∀ n, (runningTotal cfg 0 (cs.take n)).toNat = exactTotal cfg (cs.take n)

/-- Where the sum fits and no product wraps, a running total is exact. -/
theorem runningTotal_exact {cfg : Config} {cs : List Charge}
    (hfit : Charge.transfer ∈ cs → 100 * cfg.numBytes.toNat < 2 ^ 32)
    (hsum : exactTotal cfg cs < 2 ^ 32) : (runningTotal cfg 0 cs).toNat = exactTotal cfg cs := by
  have hprices : (cs.map fun c => (c.added cfg).toNat) = cs.map (Charge.exact cfg) :=
    List.map_congr_left fun c hc => toNat_added hfit hc
  rw [toNat_runningTotal, hprices, UInt32.toNat_zero, Nat.zero_add]
  exact Nat.mod_eq_of_lt hsum

/-- An exact total leaves no room for a wrapped product: `n` of them fall short of the sum
by `n` times a multiple of `2 ^ 30`, too little to vanish modulo `2 ^ 32`. -/
theorem product_fits_of_total {cfg : Config} {cs : List Charge}
    (h : (runningTotal cfg 0 cs).toNat = exactTotal cfg cs) (hmem : Charge.transfer ∈ cs) :
    100 * cfg.numBytes.toNat < 2 ^ 32 := by
  by_contra hge
  have hcount : 0 < cs.count .transfer := List.count_pos_iff.mpr hmem
  have hq : 0 < 100 * cfg.numBytes.toNat / 2 ^ 32 := Nat.div_pos (not_lt.mp hge) (by decide)
  have hprice := transferCycles_eq cfg.numBytes
  have hlt := (runningTotal cfg 0 cs).toNat_lt
  rw [h] at hlt
  rw [toNat_runningTotal, exactTotal, sum_prices, sum_prices] at h
  rw [exactTotal, sum_prices] at hlt
  simp only [Charge.exact, Charge.added] at h hlt
  -- with the counts and the quotient named, what is left is linear in `n * q`
  obtain ⟨n, hn⟩ : ∃ n, cs.count .transfer = n := ⟨_, rfl⟩
  obtain ⟨q, hqv⟩ : ∃ q, 100 * cfg.numBytes.toNat / 2 ^ 32 = q := ⟨_, rfl⟩
  have hshort : n * (transferCycles cfg.numBytes).toNat + n * q * 2 ^ 30 =
      n * (25 * cfg.numBytes.toNat) := by
    rw [← hprice, hqv]
    ring
  have hpos : 0 < n * q := Nat.mul_pos (hn ▸ hcount) (hqv ▸ hq)
  have hbound : n * q * 2 ^ 30 ≤ n * (25 * cfg.numBytes.toNat) :=
    hshort ▸ Nat.le_add_left _ _
  rw [hn] at h hlt
  have hone : (1 : UInt32).toNat = 1 := rfl
  have hhundred : (100 : UInt32).toNat = 100 := rfl
  rw [hone, hhundred, UInt32.toNat_zero] at h
  omega

/-- **The cycle total.** It is exact, with no wrap on the way, if and only if the sum of the
charges fits in 32 bits and no block is transferred of a size that the product does not fit. -/
theorem cyclesExact_iff {cfg : Config} {trace : List Access} {events : List Event} {s : Sim}
    (hrun : Reaches cfg trace events s) :
    CyclesExact cfg (chargesRun cfg trace (Sim.init cfg)) s ↔
      exactTotal cfg (chargesRun cfg trace (Sim.init cfg)) < 2 ^ 32 ∧
        (Charge.transfer ∈ chargesRun cfg trace (Sim.init cfg) →
          100 * cfg.numBytes.toNat < 2 ^ 32) := by
  have htotal : s.stats.totalCycles =
      runningTotal cfg 0 (chargesRun cfg trace (Sim.init cfg)) := run_cycles hrun
  constructor
  · intro h
    refine ⟨h.total ▸ s.stats.totalCycles.toNat_lt, ?_⟩
    exact product_fits_of_total (htotal ▸ h.total)
  · rintro ⟨hsum, hfit⟩
    refine ⟨htotal ▸ runningTotal_exact hfit hsum, fun hmem => ⟨?_, ?_⟩, fun n => ?_⟩
    · rw [UInt32.toNat_mul]
      exact Nat.mod_eq_of_lt (hfit hmem)
    · exact toNat_added (c := .transfer) hfit hmem
    · -- a part of the sum fits where the whole does
      have hle : exactTotal cfg ((chargesRun cfg trace (Sim.init cfg)).take n) ≤
          exactTotal cfg (chargesRun cfg trace (Sim.init cfg)) :=
        List.Sublist.sum_le_sum ((List.take_sublist n _).map _) fun _ _ => Nat.zero_le _
      exact runningTotal_exact (fun hmem => hfit (List.mem_of_mem_take hmem))
        (hle.trans_lt hsum)

/-- The equivalence on a run that loads a block and then stores to it. -/
theorem cyclesExact_iff_smallConfig : ∃ events s,
    Reaches smallConfig [⟨.load, 0⟩, ⟨.store, 0⟩] events s ∧
    (CyclesExact smallConfig
        (chargesRun smallConfig [⟨.load, 0⟩, ⟨.store, 0⟩] (Sim.init smallConfig)) s ↔
      exactTotal smallConfig
          (chargesRun smallConfig [⟨.load, 0⟩, ⟨.store, 0⟩] (Sim.init smallConfig)) < 2 ^ 32 ∧
        (Charge.transfer ∈
            chargesRun smallConfig [⟨.load, 0⟩, ⟨.store, 0⟩] (Sim.init smallConfig) →
          100 * smallConfig.numBytes.toNat < 2 ^ 32)) := by
  have ha : smallConfig.Accepted := ⟨⟨1, rfl⟩, ⟨2, rfl⟩, by decide, by decide⟩
  obtain ⟨events, s, hrun, -⟩ := run_spec ha (by decide) (by decide) [⟨.load, 0⟩, ⟨.store, 0⟩] _
    CacheStats.zero 0 _ _ (tracks_init smallConfig) (by decide)
  exact ⟨events, s, hrun, cyclesExact_iff hrun⟩

/-- One block of `2 ^ 26` bytes. -/
def bigBlock : Config :=
  { numSets := 1, numBlocks := 1, numBytes := 67108864, allocation := true, write := true
    lru := true }

/-- A load to the empty cache: the product `100 * num_bytes` wraps, and the total is short
of the price of the transfer. -/
theorem bigBlock_load_wraps : (handleError bigBlock).2 = 0 ∧
    ∃ s, Reaches bigBlock [⟨.load, 0⟩] [⟨.load, 0, 0, false⟩] s ∧
      s.stats.totalCycles = 603979776 ∧
      exactTotal bigBlock (chargesRun bigBlock [⟨.load, 0⟩] (Sim.init bigBlock)) = 1677721600 ∧
      ¬ CyclesExact bigBlock (chargesRun bigBlock [⟨.load, 0⟩] (Sim.init bigBlock)) s := by
  have hbytes : (67108864 : UInt32).toNat = 2 ^ 26 := rfl
  obtain ⟨hindex, htag⟩ := oneSet_fields hbytes
  refine ⟨(handleError_eq_zero_iff _).mpr ⟨⟨0, rfl⟩, ⟨26, rfl⟩, by decide, by decide⟩, ?_⟩
  have hcharges : chargesRun bigBlock [⟨.load, 0⟩] (Sim.init bigBlock) = [.transfer] := by
    simp only [chargesRun, observe, Sim.step, cacheHandler, bigBlock, hindex, htag, ok_bind]
    rfl
  rw [hcharges]
  simp only [Reaches, run, observe, Sim.step, cacheHandler, bigBlock, hindex, htag, ok_bind]
  refine ⟨_, rfl, rfl, rfl, fun h => ?_⟩
  exact absurd h.total (by decide)

end Csf.CacheSim
