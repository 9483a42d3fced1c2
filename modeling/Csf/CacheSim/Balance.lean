import Csf.CacheSim.Cycles

/-!
# Cache simulator: the cycle total from the counters

The last line of the report against the ones before it. Every hit and every miss has its
price, and what remains is the price of the dirty blocks that were written back. A block has
to be marked by a store hit before it can be written back, and once for each time: what has
been written back and what is still marked together are no more than the store hits.
-/

namespace Csf.CacheSim

open Csf.Lib

/-! ## Dirty blocks -/

def CacheSet.dirtyBlocks (set : CacheSet) : ℕ := (set.blocks.map fun b => b.dirty.toNat).sum

/-- The blocks whose contents memory does not have. -/
def Cache.dirtyBlocks (cache : Cache) : ℕ := (cache.sets.map CacheSet.dirtyBlocks).sum

/-- The write-backs of an access. -/
def writeBacks (cfg : Config) (cache : Cache) (e : Event) : ℕ :=
  if e.hit = false ∧ allocates cfg e.op = true then (evictionCharges cfg cache e.index).length
  else 0

/-- The write-backs of a run. -/
def writeBacksRun (cfg : Config) : List Access → Sim → ℕ
  | [], _ => 0
  | a :: rest, s =>
      match observe cfg s.cache a, s.step cfg a with
      | .ok e, .ok s' => writeBacks cfg s.cache e + writeBacksRun cfg rest s'
      | _, _ => 0

/-- Replacing an element in a sum. -/
theorem sum_map_set {β : Type*} (f : β → ℕ) : ∀ {l : List β} {i : ℕ} {b : β} (b' : β),
    l[i]? = some b → ((l.set i b').map f).sum + f b = (l.map f).sum + f b' := by
  intro l
  induction l with
  | nil => simp
  | cons c l ih =>
      intro i b b' h
      cases i with
      | zero =>
          obtain rfl : c = b := Option.some.inj h
          simp only [List.set_cons_zero, List.map_cons, List.sum_cons]
          omega
      | succ i =>
          have hrest := ih b' h
          simp only [List.set_cons_succ, List.map_cons, List.sum_cons]
          omega

section

variable {cfg : Config} {cache cache' : Cache} {stats stats' : CacheStats} {index tag : UInt32}
  {set : CacheSet}

theorem dirtyBlocks_putSet (set' : CacheSet) (h : cache.setAt index = .ok set) :
    (cache.putSet index set').dirtyBlocks + set.dirtyBlocks =
      cache.dirtyBlocks + set'.dirtyBlocks :=
  sum_map_set CacheSet.dirtyBlocks set' (Cache.setAt_eq_ok.mp h)

/-- A stamp marks nothing. -/
theorem stampOnHit_dirtyBlocks {lru : Bool} (h : stampOnHit lru index tag cache = .ok cache') :
    cache'.dirtyBlocks = cache.dirtyBlocks := by
  cases lru with
  | false => exact congrArg Cache.dirtyBlocks (Except.ok.inj h).symm
  | true =>
      obtain ⟨set, hset, h⟩ := bind_eq_ok.mp h
      obtain ⟨i, -, h⟩ := bind_eq_ok.mp h
      obtain ⟨block, hblock, h⟩ := bind_eq_ok.mp h
      obtain rfl := pure_eq_ok.mp h
      have hget : set.blocks[i.toNat]? = some block := by
        unfold CacheSet.blockAt at hblock
        split at hblock
        · next b hb => exact hb.trans (congrArg some (Except.ok.inj hblock))
        · exact absurd hblock (by simp)
      have hput := dirtyBlocks_putSet (set.stamped i block) hset
      have hstamped : (set.stamped i block).dirtyBlocks + block.dirty.toNat =
          set.dirtyBlocks + block.dirty.toNat :=
        sum_map_set (fun b : Block => b.dirty.toNat) _ hget
      omega

/-- A store hit marks one block at most. -/
theorem markDirty_dirtyBlocks (h : markDirty index tag cache = .ok cache') :
    cache'.dirtyBlocks ≤ cache.dirtyBlocks + 1 := by
  obtain ⟨set, hset, h⟩ := bind_eq_ok.mp h
  simp only at h
  split at h
  · exact absurd h (by simp)
  · next block hblock =>
      obtain rfl := pure_eq_ok.mp h
      have hput := dirtyBlocks_putSet { set with
        tagIndex := (subscript set.tagIndex tag).2
        blocks := set.blocks.set (subscript set.tagIndex tag).1.toNat
          { block with dirty := true } } hset
      have hmarked : ((set.blocks.set (subscript set.tagIndex tag).1.toNat
          { block with dirty := true }).map fun b => b.dirty.toNat).sum + block.dirty.toNat =
            set.dirtyBlocks + 1 :=
        sum_map_set (fun b : Block => b.dirty.toNat) { block with dirty := true } hblock
      have hset' : CacheSet.dirtyBlocks { set with
          tagIndex := (subscript set.tagIndex tag).2
          blocks := set.blocks.set (subscript set.tagIndex tag).1.toNat
            { block with dirty := true } } ≤ set.dirtyBlocks + 1 :=
        (Nat.le_add_right _ _).trans hmarked.le
      omega

/-- The block that is placed is clean. -/
theorem fillBlock_dirtyBlocks {lru : Bool} {iter : ℕ} {set' : CacheSet}
    (h : fillBlock set iter tag lru = .ok set') :
    ∃ old, set.blocks[iter]? = some old ∧
      set'.dirtyBlocks + old.dirty.toNat = set.dirtyBlocks := by
  unfold fillBlock at h
  split at h
  · next hlt =>
      obtain rfl := Except.ok.inj h
      have hget := List.getElem?_eq_getElem hlt
      exact ⟨_, hget, sum_map_set (fun b : Block => b.dirty.toNat) _ hget⟩
  · exact absurd h (by simp)

/-- An eviction writes its victim back if it is marked. -/
theorem evict_dirtyBlocks {iter : ℕ} {set₁ : CacheSet} {stats₁ : CacheStats}
    (hset : cache.setAt index = .ok set) (hfull : findEmptySpot set = set.blocks.length)
    (h : evict set cfg.lru cfg.numBytes stats = .ok (iter, set₁, stats₁)) :
    set₁.dirtyBlocks = set.dirtyBlocks ∧ stats₁.counters = stats.counters ∧
      ∃ victim, set₁.blocks[iter]? = some victim ∧
        (evictionCharges cfg cache index).length = victim.dirty.toNat := by
  rw [evictionCharges, hset]
  simp only [if_pos hfull]
  rw [evict] at h
  cases hj : chooseEvictedBlock set cfg.lru with
  | none => simp [hj] at h
  | some j =>
      cases hvictim : set.blocks[j]? with
      | none => simp [hj, hvictim] at h
      | some victim =>
          simp only [hj, hvictim, Except.ok.injEq, Prod.mk.injEq] at h
          obtain ⟨rfl, rfl, rfl⟩ := h
          refine ⟨rfl, ?_, victim, hvictim, ?_⟩
          · cases victim.dirty <;> rfl
          · simp only [Option.bind_some, hvictim]
            cases victim.dirty <;> rfl

/-- Placing a block writes back no more than it takes out of the marked ones, and leaves the
counters alone. -/
theorem placeInCache_dirtyBlocks
    (h : placeInCache index tag cfg.lru cfg.numBytes cache stats = .ok (cache', stats')) :
    (evictionCharges cfg cache index).length + cache'.dirtyBlocks ≤ cache.dirtyBlocks ∧
      stats'.counters = stats.counters := by
  obtain ⟨set, hset, h⟩ := bind_eq_ok.mp h
  by_cases hfull : findEmptySpot set = set.blocks.length
  · simp only [if_pos hfull, bind_eq_ok, pure_eq_ok, Prod.mk.injEq] at h
    obtain ⟨⟨iter, set₁, stats₁⟩, hevict, set₂, hfill, rfl, rfl⟩ := h
    obtain ⟨hsame, hcounters, victim, hvictim, hback⟩ := evict_dirtyBlocks hset hfull hevict
    obtain ⟨old, hold, hclean⟩ := fillBlock_dirtyBlocks hfill
    obtain rfl : victim = old := Option.some.inj (hvictim.symm.trans hold)
    have hclean' : set₂.dirtyBlocks + victim.dirty.toNat = set₁.dirtyBlocks := hclean
    have hput := dirtyBlocks_putSet set₂ hset
    refine ⟨?_, hcounters⟩
    omega
  · simp only [if_neg hfull, bind_eq_ok, pure_eq_ok, Prod.mk.injEq] at h
    obtain ⟨⟨iter, set₁, stats₁⟩, ⟨-, rfl, rfl⟩, set₂, hfill, rfl, rfl⟩ := h
    obtain ⟨old, -, hclean⟩ := fillBlock_dirtyBlocks hfill
    have hclean' : set₂.dirtyBlocks + old.dirty.toNat = set.dirtyBlocks := hclean
    have hput := dirtyBlocks_putSet set₂ hset
    have hnone : evictionCharges cfg cache index = [] := by
      rw [evictionCharges, hset]
      exact if_neg hfull
    rw [hnone]
    refine ⟨?_, rfl⟩
    show 0 + _ ≤ _
    omega

end

/-! ## One access -/

/-- The store hits that mark their block. -/
def marks (cfg : Config) (e : Event) : ℕ :=
  if e.op = .store ∧ e.hit = true ∧ cfg.write = false then 1 else 0

section

variable {cfg : Config} {cache cache' : Cache} {stats stats' : CacheStats} {index tag : UInt32}
  {b : Bool} {s s' : Sim} {a : Access} {e : Event}

theorem cacheLoad_balance (hhit : hit index tag cache = .ok b)
    (h : cacheLoad index tag cfg cache { stats with totalLoads := stats.totalLoads + 1 } =
      .ok (cache', stats')) :
    writeBacks cfg cache ⟨.load, index, tag, b⟩ + cache'.dirtyBlocks ≤ cache.dirtyBlocks ∧
      stats'.counters = stats.counters.count .load b := by
  simp only [cacheLoad, hhit, ok_bind] at h
  cases b with
  | true =>
      simp only [if_true, bind_eq_ok, pure_eq_ok, Prod.mk.injEq] at h
      obtain ⟨cache₁, hstamp, hcache, hstats⟩ := h
      rw [← hcache, ← hstats, stampOnHit_dirtyBlocks hstamp]
      exact ⟨by simp [writeBacks], rfl⟩
  | false =>
      obtain ⟨hdirty, hcounters⟩ := placeInCache_dirtyBlocks h
      refine ⟨?_, hcounters⟩
      rw [writeBacks, if_pos ⟨rfl, rfl⟩]
      exact hdirty

/-- Of the stores, those that hit a write-back cache mark a block. -/
theorem cacheStore_balance (hhit : hit index tag cache = .ok b)
    (h : cacheStore index tag cfg cache { stats with totalStores := stats.totalStores + 1 } =
      .ok (cache', stats')) :
    writeBacks cfg cache ⟨.store, index, tag, b⟩ + cache'.dirtyBlocks ≤
        cache.dirtyBlocks + marks cfg ⟨.store, index, tag, b⟩ ∧
      stats'.counters = stats.counters.count .store b := by
  simp only [cacheStore, hhit, ok_bind] at h
  cases b with
  | true =>
      simp only [if_true, bind_eq_ok] at h
      obtain ⟨cache₁, hstamp, h⟩ := h
      have hcache₁ := stampOnHit_dirtyBlocks hstamp
      cases hw : cfg.write with
      | true =>
          simp only [hw, if_true, pure_eq_ok, Prod.mk.injEq] at h
          obtain ⟨hcache, hstats⟩ := h
          rw [← hcache, ← hstats, hcache₁]
          exact ⟨by simp [writeBacks], rfl⟩
      | false =>
          simp only [hw, Bool.false_eq_true, if_false, bind_eq_ok, pure_eq_ok,
            Prod.mk.injEq] at h
          obtain ⟨cache₂, hmark, hcache, hstats⟩ := h
          have hmarked := markDirty_dirtyBlocks hmark
          rw [← hcache, ← hstats]
          refine ⟨?_, rfl⟩
          rw [marks, if_pos ⟨rfl, rfl, hw⟩, ← hcache₁, writeBacks, if_neg (by simp)]
          omega
  | false =>
      simp only [Bool.false_eq_true, if_false] at h
      cases ha : cfg.allocation with
      | true =>
          simp only [ha, if_true] at h
          obtain ⟨hdirty, hcounters⟩ := placeInCache_dirtyBlocks h
          refine ⟨?_, hcounters⟩
          rw [writeBacks, if_pos ⟨rfl, ha⟩]
          exact hdirty.trans (Nat.le_add_right _ _)
      | false =>
          simp only [ha, Bool.false_eq_true, if_false, pure_eq_ok, Prod.mk.injEq] at h
          obtain ⟨hcache, hstats⟩ := h
          rw [← hcache, ← hstats]
          exact ⟨by simp [writeBacks, allocates, ha], rfl⟩

/-- What an access writes back is no longer marked, and what it marks is a store hit; and it
counts itself. -/
theorem step_balance (he : observe cfg s.cache a = .ok e) (hs : s.step cfg a = .ok s') :
    writeBacks cfg s.cache e + s'.cache.dirtyBlocks ≤ s.cache.dirtyBlocks + marks cfg e ∧
      s'.stats.counters = s.stats.counters.count e.op e.hit := by
  obtain ⟨-, -, hhit, -⟩ := observe_eq_ok he
  obtain ⟨op, index, tag, b⟩ := e
  rcases step_cases he hs with ⟨rfl, hload⟩ | ⟨rfl, hstore⟩
  · obtain ⟨hdirty, hcounters⟩ := cacheLoad_balance hhit hload
    exact ⟨hdirty.trans (Nat.le_add_right _ _), hcounters⟩
  · exact cacheStore_balance hhit hstore

/-- What the counters say that has to be paid, apart from write-backs. -/
def due (cfg : Config) (stats : CacheStats) : UInt32 :=
  stats.loadHits + stats.loadMisses * transferCycles cfg.numBytes +
    stats.storeHits * (if cfg.write then 101 else 1) +
    stats.storeMisses * (if cfg.allocation then 1 + transferCycles cfg.numBytes else 100)

theorem due_counters (cfg : Config) (stats : CacheStats) : due cfg stats.counters = due cfg stats :=
  rfl

/-- A write-back is charged as a transfer. -/
theorem runningTotal_writeBacks (cfg : Config) (cache : Cache) (index : UInt32) (total : UInt32) :
    runningTotal cfg total (evictionCharges cfg cache index) =
      total + UInt32.ofNat (evictionCharges cfg cache index).length *
        transferCycles cfg.numBytes := by
  have hcases : evictionCharges cfg cache index = [] ∨
      evictionCharges cfg cache index = [.transfer] := by
    unfold evictionCharges
    repeat' split
    all_goals simp
  rcases hcases with h | h <;> rw [h]
  · show total = total + 0 * _
    grind
  · show total + transferCycles cfg.numBytes = total + 1 * _
    grind

/-- A load is charged what its counter says, and its write-back. -/
theorem charges_due_load (total : UInt32) (stats : CacheStats) (cache : Cache)
    (index tag : UInt32) (b : Bool) :
    runningTotal cfg total (charges cfg cache ⟨.load, index, tag, b⟩) + due cfg stats =
      total + due cfg (stats.count .load b) +
        UInt32.ofNat (writeBacks cfg cache ⟨.load, index, tag, b⟩) *
          transferCycles cfg.numBytes := by
  cases b with
  | true =>
      have hback : writeBacks cfg cache ⟨.load, index, tag, true⟩ = 0 := if_neg (by simp)
      rw [hback]
      show total + 1 + _ = _ + UInt32.ofNat 0 * _
      simp only [due, CacheStats.count]
      grind
  | false =>
      have hback : writeBacks cfg cache ⟨.load, index, tag, false⟩ =
          (evictionCharges cfg cache index).length := if_pos ⟨rfl, rfl⟩
      rw [hback]
      show runningTotal cfg (total + transferCycles cfg.numBytes) _ + _ = _
      rw [runningTotal_writeBacks]
      simp only [due, CacheStats.count]
      grind

/-- So is a store. -/
theorem charges_due_store (total : UInt32) (stats : CacheStats) (cache : Cache)
    (index tag : UInt32) (b : Bool) :
    runningTotal cfg total (charges cfg cache ⟨.store, index, tag, b⟩) + due cfg stats =
      total + due cfg (stats.count .store b) +
        UInt32.ofNat (writeBacks cfg cache ⟨.store, index, tag, b⟩) *
          transferCycles cfg.numBytes := by
  simp only [charges]
  cases b with
  | true =>
      have hback : writeBacks cfg cache ⟨.store, index, tag, true⟩ = 0 := if_neg (by simp)
      rw [hback]
      cases hw : cfg.write with
      | true =>
          show total + 100 + 1 + _ = _ + UInt32.ofNat 0 * _
          simp only [due, CacheStats.count, hw, if_true]
          grind
      | false =>
          show total + 1 + _ = _ + UInt32.ofNat 0 * _
          simp only [due, CacheStats.count, hw, Bool.false_eq_true, if_false]
          grind
  | false =>
      cases ha : cfg.allocation with
      | true =>
          have hback : writeBacks cfg cache ⟨.store, index, tag, false⟩ =
              (evictionCharges cfg cache index).length := if_pos ⟨rfl, ha⟩
          rw [hback]
          show runningTotal cfg (total + 1 + transferCycles cfg.numBytes) _ + _ = _
          rw [runningTotal_writeBacks]
          simp only [due, CacheStats.count, ha, if_true]
          grind
      | false =>
          have hback : writeBacks cfg cache ⟨.store, index, tag, false⟩ = 0 :=
            if_neg (by simp [allocates, ha])
          rw [hback]
          show total + 100 + _ = _ + UInt32.ofNat 0 * _
          simp only [due, CacheStats.count, ha, Bool.false_eq_true, if_false]
          grind

/-- One access. -/
theorem step_due (he : observe cfg s.cache a = .ok e) (hs : s.step cfg a = .ok s') :
    s'.stats.totalCycles + due cfg s.stats = s.stats.totalCycles + due cfg s'.stats +
      UInt32.ofNat (writeBacks cfg s.cache e) * transferCycles cfg.numBytes := by
  obtain ⟨-, hcounters⟩ := step_balance he hs
  rw [← due_counters cfg s.stats, ← due_counters cfg s'.stats, hcounters, step_cycles he hs]
  obtain ⟨op, index, tag, b⟩ := e
  cases op with
  | load => exact charges_due_load _ _ _ _ _ _
  | store => exact charges_due_store _ _ _ _ _ _

end

/-! ## Runs -/

theorem dirtyBlocks_init (cfg : Config) : (Sim.init cfg).cache.dirtyBlocks = 0 := by
  have hset : ∀ n : ℕ, CacheSet.dirtyBlocks
      { blocks := List.replicate n { tag := 0, loadTime := 0, accessTime := 0
                                     valid := false, dirty := false }
        tagIndex := ∅, timestamp := 0 } = 0 := by
    intro n
    simp [CacheSet.dirtyBlocks]
  simp [Cache.dirtyBlocks, Sim.init, cacheInitialize, hset]

/-- What one run writes back and leaves marked, and what it is charged. -/
theorem run_balance {cfg : Config} : ∀ {trace : List Access} {s s' : Sim} {events : List Event},
    run cfg trace s = .ok (events, s') →
    writeBacksRun cfg trace s + s'.cache.dirtyBlocks ≤
        s.cache.dirtyBlocks + (events.map (marks cfg)).sum ∧
      s'.stats.totalCycles + due cfg s.stats = s.stats.totalCycles + due cfg s'.stats +
        UInt32.ofNat (writeBacksRun cfg trace s) * transferCycles cfg.numBytes := by
  intro trace
  induction trace with
  | nil =>
      intro s s' events h
      cases h
      refine ⟨by simp [writeBacksRun], ?_⟩
      show _ = _ + UInt32.ofNat 0 * _
      grind
  | cons a rest ih =>
      intro s s' events h
      simp only [run, bind_eq_ok, pure_eq_ok, Prod.mk.injEq] at h
      obtain ⟨e, he, s₁, hs, ⟨events', s₂⟩, hrest, rfl, rfl⟩ := h
      obtain ⟨hmarks, -⟩ := step_balance he hs
      have hdue := step_due he hs
      obtain ⟨hmarks', hdue'⟩ := ih hrest
      simp only [writeBacksRun, he, hs, List.map_cons, List.sum_cons, UInt32.ofNat_add]
      refine ⟨by omega, ?_⟩
      grind

theorem sum_marks_le (cfg : Config) (events : List Event) :
    (events.map (marks cfg)).sum ≤ events.countP (fun e => e.op = .store ∧ e.hit = true) := by
  induction events with
  | nil => simp
  | cons e events ih =>
      have hone : marks cfg e ≤ if e.op = .store ∧ e.hit = true then 1 else 0 := by
        unfold marks
        split_ifs <;> simp_all
      simp only [List.map_cons, List.sum_cons, List.countP_cons, decide_eq_true_eq]
      omega

/-- **The cycle total.** In every run it is what the other lines of the report say has to be
paid, and a transfer for each write-back; and there are no more write-backs than store hits,
and none under write-through. -/
theorem totalCycles_due {cfg : Config} {trace : List Access} {events : List Event} {s : Sim}
    (h : Reaches cfg trace events s) :
    s.stats.totalCycles = due cfg s.stats +
        UInt32.ofNat (writeBacksRun cfg trace (Sim.init cfg)) * transferCycles cfg.numBytes ∧
      writeBacksRun cfg trace (Sim.init cfg) + s.cache.dirtyBlocks ≤
        events.countP (fun e => e.op = .store ∧ e.hit = true) ∧
      (cfg.write = true → writeBacksRun cfg trace (Sim.init cfg) = 0) := by
  obtain ⟨hmarks, hdue⟩ := run_balance h
  rw [dirtyBlocks_init, Nat.zero_add] at hmarks
  have hle := sum_marks_le cfg events
  refine ⟨?_, hmarks.trans hle, fun hw => ?_⟩
  · have hinit : due cfg (Sim.init cfg).stats = 0 := by
      show 0 + 0 * _ + 0 * _ + 0 * _ = _
      grind
    have hzero : (Sim.init cfg).stats.totalCycles = 0 := rfl
    rw [hinit, hzero] at hdue
    grind
  · have hzero : (events.map (marks cfg)).sum = 0 :=
      List.sum_eq_zero_iff.mpr fun n hn => by
        obtain ⟨e, -, rfl⟩ := List.mem_map.mp hn
        exact if_neg fun hmark => absurd (hw.symm.trans hmark.2.2) (by decide)
    omega

/-- A store hit marks the block that the next load throws out. -/
theorem totalCycles_due_oneBlock : ∃ events s,
    Reaches oneBlock [⟨.load, 0⟩, ⟨.store, 0⟩, ⟨.load, 4⟩] events s ∧
    s.stats.totalCycles = due oneBlock s.stats +
      UInt32.ofNat (writeBacksRun oneBlock [⟨.load, 0⟩, ⟨.store, 0⟩, ⟨.load, 4⟩]
        (Sim.init oneBlock)) * transferCycles oneBlock.numBytes := by
  have ha : oneBlock.Accepted := ⟨⟨0, rfl⟩, ⟨2, rfl⟩, by decide, by decide⟩
  obtain ⟨events, s, hrun, -⟩ := run_spec ha (by decide) (by decide)
    [⟨.load, 0⟩, ⟨.store, 0⟩, ⟨.load, 4⟩] _ CacheStats.zero 0 _ _ (tracks_init oneBlock) (by decide)
  exact ⟨events, s, hrun, (totalCycles_due hrun).1⟩

end Csf.CacheSim
