import Csf.CacheSim.Reference

/-!
# Cache simulator: one set at a time

An access changes the set that it addresses and adds to the statistics, and both depend
on that set alone. `CacheSet.access` is what it does there; `step_eq` says that a round
of `main`'s loop is an access of one set of the cache. What the bookkeeping of a set
needs, `Slots`, is kept by every access, however long the run: of the invariant of a
set only the times rest on the clock.
-/

namespace Csf.CacheSim

open Csf.Lib

/-! ## Statistics -/

/-- The statistics of two parts of a run together. -/
def CacheStats.add (stats more : CacheStats) : CacheStats :=
  { totalLoads := stats.totalLoads + more.totalLoads
    totalStores := stats.totalStores + more.totalStores
    loadHits := stats.loadHits + more.loadHits
    loadMisses := stats.loadMisses + more.loadMisses
    storeHits := stats.storeHits + more.storeHits
    storeMisses := stats.storeMisses + more.storeMisses
    totalCycles := stats.totalCycles + more.totalCycles }

@[simp] theorem CacheStats.add_zero (stats : CacheStats) : stats.add .zero = stats := by
  simp [CacheStats.add, CacheStats.zero]

theorem CacheStats.add_assoc (a b c : CacheStats) : (a.add b).add c = a.add (b.add c) := by
  simp only [CacheStats.add, UInt32.add_assoc]

theorem CacheStats.add_comm (a b : CacheStats) : a.add b = b.add a := by
  unfold CacheStats.add
  congr 1 <;> exact UInt32.add_comm _ _

theorem CacheStats.add_right_comm (a b c : CacheStats) :
    (a.add b).add c = (a.add c).add b := by
  rw [CacheStats.add_assoc, CacheStats.add_comm b c, CacheStats.add_assoc]

/-! ## Writing back sets -/

section

variable {cache : Cache} {index other : UInt32} {set set' : CacheSet}

theorem Cache.getElem?_putSet_self (hset : cache.sets[index.toNat]? = some set) :
    (cache.putSet index set').sets[index.toNat]? = some set' := by
  rw [Cache.putSet, List.getElem?_set_self (List.getElem?_eq_some_iff.mp hset).1]

theorem Cache.getElem?_putSet_of_ne {k : ℕ} (hk : k ≠ index.toNat) :
    (cache.putSet index set').sets[k]? = cache.sets[k]? :=
  List.getElem?_set_ne (Ne.symm hk)

theorem Cache.putSet_putSet : (cache.putSet index set).putSet index set' =
    cache.putSet index set' := by
  rw [Cache.putSet, Cache.putSet, Cache.putSet, List.set_set]

theorem Cache.putSet_comm (hne : index.toNat ≠ other.toNat) :
    (cache.putSet index set).putSet other set' = (cache.putSet other set').putSet index set := by
  rw [Cache.putSet, Cache.putSet, Cache.putSet, Cache.putSet, List.set_comm _ _ hne]

end

/-! ## An access to a set -/

/-- `if (lru) update_timestamp_LRU(...)` in the set. -/
def CacheSet.touch (set : CacheSet) (lru : Bool) (tag : UInt32) : Except Fault CacheSet := do
  if lru then
    let i ← set.indexAt tag
    let block ← set.blockAt i
    pure (set.stamped i block)
  else pure set

/-- `blocks[tagIndex[tag]].dirty = true` in the set. -/
def CacheSet.mark (set : CacheSet) (tag : UInt32) : Except Fault CacheSet :=
  let (i, tagIndex) := subscript set.tagIndex tag
  match set.blocks[i.toNat]? with
  | none => .error .undefined
  | some block => .ok
      { set with tagIndex := tagIndex
                 blocks := set.blocks.set i.toNat { block with dirty := true } }

/-- `place_in_cache` in the set, with the cycles that it charges. -/
def CacheSet.place (set : CacheSet) (lru : Bool) (numBytes tag : UInt32) :
    Except Fault (CacheSet × UInt32) := do
  let (iter, set, stats) ←
    if findEmptySpot set = set.blocks.length then evict set lru numBytes .zero
    else pure (findEmptySpot set, set, .zero)
  let set ← fillBlock set iter tag lru
  pure (set, stats.totalCycles)

/-- `cache_load` in the set, with what it counts. -/
def CacheSet.load (set : CacheSet) (cfg : Config) (tag : UInt32) :
    Except Fault (CacheSet × CacheStats) := do
  if set.tagIndex.contains tag then
    let set ← set.touch cfg.lru tag
    pure (set, { CacheStats.zero with loadHits := 1, totalCycles := 1 })
  else
    let (set, cycles) ← set.place cfg.lru cfg.numBytes tag
    pure (set, { CacheStats.zero with
      loadMisses := 1, totalCycles := transferCycles cfg.numBytes + cycles })

/-- `cache_store` in the set, with what it counts. -/
def CacheSet.store (set : CacheSet) (cfg : Config) (tag : UInt32) :
    Except Fault (CacheSet × CacheStats) := do
  if set.tagIndex.contains tag then
    let set ← set.touch cfg.lru tag
    if cfg.write then
      pure (set, { CacheStats.zero with storeHits := 1, totalCycles := 101 })
    else
      let set ← set.mark tag
      pure (set, { CacheStats.zero with storeHits := 1, totalCycles := 1 })
  else if cfg.allocation then
    let (set, cycles) ← set.place cfg.lru cfg.numBytes tag
    pure (set, { CacheStats.zero with
      storeMisses := 1, totalCycles := 1 + transferCycles cfg.numBytes + cycles })
  else pure (set, { CacheStats.zero with storeMisses := 1, totalCycles := 100 })

/-- An access to `tag` in the set. -/
def CacheSet.access (set : CacheSet) (cfg : Config) (tag : UInt32) :
    Op → Except Fault (CacheSet × CacheStats)
  | .load => (set.load cfg tag).map fun r =>
      (r.1, CacheStats.add { CacheStats.zero with totalLoads := 1 } r.2)
  | .store => (set.store cfg tag).map fun r =>
      (r.1, CacheStats.add { CacheStats.zero with totalStores := 1 } r.2)

section

variable {set : CacheSet} {tag : UInt32}

theorem load_hit (ht : tag ∈ set.tagIndex) (cfg : Config) :
    set.load cfg tag = (set.touch cfg.lru tag).map fun set =>
      (set, { CacheStats.zero with loadHits := 1, totalCycles := 1 }) := by
  rw [CacheSet.load, if_pos (Std.ExtTreeMap.mem_iff_contains.mp ht)]
  cases set.touch cfg.lru tag <;> rfl

theorem load_miss (ht : tag ∉ set.tagIndex) (cfg : Config) :
    set.load cfg tag = (set.place cfg.lru cfg.numBytes tag).map fun r =>
      (r.1, { CacheStats.zero with
        loadMisses := 1, totalCycles := transferCycles cfg.numBytes + r.2 }) := by
  rw [CacheSet.load, if_neg (mt Std.ExtTreeMap.mem_iff_contains.mpr ht)]
  cases set.place cfg.lru cfg.numBytes tag <;> rfl

theorem store_hit (ht : tag ∈ set.tagIndex) (cfg : Config) :
    set.store cfg tag = set.touch cfg.lru tag >>= fun set =>
      if cfg.write then
        .ok (set, { CacheStats.zero with storeHits := 1, totalCycles := 101 })
      else (set.mark tag).map fun set =>
        (set, { CacheStats.zero with storeHits := 1, totalCycles := 1 }) := by
  rw [CacheSet.store, if_pos (Std.ExtTreeMap.mem_iff_contains.mp ht)]
  cases set.touch cfg.lru tag with
  | error fault => rfl
  | ok set₁ =>
      rw [ok_bind, ok_bind]
      cases cfg.write with
      | true => rfl
      | false => cases set₁.mark tag <;> rfl

theorem store_miss (ht : tag ∉ set.tagIndex) (cfg : Config) :
    set.store cfg tag = if cfg.allocation then
        (set.place cfg.lru cfg.numBytes tag).map fun r => (r.1, { CacheStats.zero with
          storeMisses := 1, totalCycles := 1 + transferCycles cfg.numBytes + r.2 })
      else .ok (set, { CacheStats.zero with storeMisses := 1, totalCycles := 100 }) := by
  rw [CacheSet.store, if_neg (mt Std.ExtTreeMap.mem_iff_contains.mpr ht)]
  cases cfg.allocation with
  | true => cases set.place cfg.lru cfg.numBytes tag <;> rfl
  | false => rfl

end

/-! ## The functions of the cache are accesses to a set -/

section

variable {cache : Cache} {index : UInt32} {set : CacheSet}

theorem hit_eq (hset : cache.sets[index.toNat]? = some set) (tag : UInt32) :
    hit index tag cache = .ok (set.tagIndex.contains tag) := by
  rw [hit, Cache.setAt_eq_ok.mpr hset]
  rfl

theorem stampOnHit_eq (hset : cache.sets[index.toNat]? = some set) (lru : Bool) (tag : UInt32) :
    stampOnHit lru index tag cache = (set.touch lru tag).map (cache.putSet index) := by
  cases lru with
  | true =>
      show updateTimestampLRU index tag cache = (set.indexAt tag >>= fun i =>
        set.blockAt i >>= fun block => pure (set.stamped i block)).map (cache.putSet index)
      rw [updateTimestampLRU, Cache.setAt_eq_ok.mpr hset, ok_bind]
      cases set.indexAt tag with
      | error fault => rfl
      | ok i =>
          rw [ok_bind, ok_bind]
          cases set.blockAt i with
          | error fault => rfl
          | ok block => rfl
  | false =>
      show Except.ok cache = Except.ok (cache.putSet index set)
      rw [Cache.putSet_self hset]

theorem markDirty_eq (hset : cache.sets[index.toNat]? = some set) (tag : UInt32) :
    markDirty index tag cache = (set.mark tag).map (cache.putSet index) := by
  rw [markDirty, Cache.setAt_eq_ok.mpr hset, ok_bind]
  unfold CacheSet.mark
  cases hblock : set.blocks[(subscript set.tagIndex tag).1.toNat]? with
  | none => simp only [hblock]; rfl
  | some block => simp only [hblock]; rfl

/-- The write-back of a victim is charged on top of what was charged before. -/
theorem evict_eq (lru : Bool) (numBytes : UInt32) (stats : CacheStats) :
    evict set lru numBytes stats = (evict set lru numBytes .zero).map fun r =>
      (r.1, r.2.1, stats.addCycles r.2.2.totalCycles) := by
  unfold evict
  cases chooseEvictedBlock set lru with
  | none => rfl
  | some iter =>
      cases hvictim : set.blocks[iter]? with
      | none => simp only [hvictim]; rfl
      | some victim =>
          simp only [hvictim]
          cases victim.dirty <;> simp [Except.map, CacheStats.addCycles, CacheStats.zero]

theorem placeInCache_eq (hset : cache.sets[index.toNat]? = some set) (tag : UInt32) (lru : Bool)
    (numBytes : UInt32) (stats : CacheStats) :
    placeInCache index tag lru numBytes cache stats = (set.place lru numBytes tag).map fun r =>
      (cache.putSet index r.1, stats.addCycles r.2) := by
  rw [placeInCache, Cache.setAt_eq_ok.mpr hset, ok_bind]
  unfold CacheSet.place
  by_cases hfull : findEmptySpot set = set.blocks.length
  · simp only [if_pos hfull]
    rw [evict_eq]
    cases evict set lru numBytes .zero with
    | error fault => rfl
    | ok r =>
        show (fillBlock r.2.1 r.1 tag lru >>= fun set => _) = _
        simp only [ok_bind]
        cases fillBlock r.2.1 r.1 tag lru <;> rfl
  · simp only [if_neg hfull, pure_bind]
    cases fillBlock set (findEmptySpot set) tag lru with
    | error fault => rfl
    | ok set' => simp [Except.map, CacheStats.addCycles, CacheStats.zero]

theorem cacheLoad_eq (hset : cache.sets[index.toNat]? = some set) (cfg : Config) (tag : UInt32)
    (stats : CacheStats) :
    cacheLoad index tag cfg cache stats = (set.load cfg tag).map fun r =>
      (cache.putSet index r.1, stats.add r.2) := by
  rw [cacheLoad, hit_eq hset, ok_bind]
  unfold CacheSet.load
  cases set.tagIndex.contains tag with
  | true =>
      simp only [if_true, stampOnHit_eq hset]
      cases set.touch cfg.lru tag with
      | error fault => rfl
      | ok set' => simp [Except.map, CacheStats.add, CacheStats.addCycles, CacheStats.zero]
  | false =>
      simp only [Bool.false_eq_true, if_false, placeInCache_eq hset]
      cases set.place cfg.lru cfg.numBytes tag with
      | error fault => rfl
      | ok r =>
          simp [Except.map, CacheStats.add, CacheStats.addCycles, CacheStats.zero,
            UInt32.add_assoc]

theorem cacheStore_eq (hset : cache.sets[index.toNat]? = some set) (cfg : Config) (tag : UInt32)
    (stats : CacheStats) :
    cacheStore index tag cfg cache stats = (set.store cfg tag).map fun r =>
      (cache.putSet index r.1, stats.add r.2) := by
  rw [cacheStore, hit_eq hset, ok_bind]
  unfold CacheSet.store
  cases set.tagIndex.contains tag with
  | true =>
      simp only [if_true, stampOnHit_eq hset]
      cases set.touch cfg.lru tag with
      | error fault => rfl
      | ok set₁ =>
          show (if cfg.write = true then _ else _) = _
          cases cfg.write with
          | true =>
              simp [Except.map, CacheStats.add, CacheStats.addCycles, CacheStats.zero,
                UInt32.add_assoc]
          | false =>
              -- the second write to the set replaces the first
              have hset₁ : (cache.putSet index set₁).sets[index.toNat]? = some set₁ :=
                Cache.getElem?_putSet_self hset
              simp only [Bool.false_eq_true, if_false, ok_bind, markDirty_eq hset₁]
              cases set₁.mark tag with
              | error fault => rfl
              | ok set₂ =>
                  simp [Except.map, CacheStats.add, CacheStats.addCycles, CacheStats.zero,
                    Cache.putSet_putSet]
  | false =>
      simp only [Bool.false_eq_true, if_false]
      cases cfg.allocation with
      | true =>
          simp only [if_true, placeInCache_eq hset]
          cases set.place cfg.lru cfg.numBytes tag with
          | error fault => rfl
          | ok r =>
              simp [Except.map, CacheStats.add, CacheStats.addCycles, CacheStats.zero,
                UInt32.add_assoc]
      | false =>
          show Except.ok (cache, _) = Except.ok (cache.putSet index set, _)
          rw [Cache.putSet_self hset]
          simp [CacheStats.add, CacheStats.addCycles, CacheStats.zero]

/-- A round of `main`'s loop is an access to one set. -/
theorem step_eq (hset : cache.sets[index.toNat]? = some set) {cfg : Config} {a : Access}
    {tag : UInt32} (hindex : readIndex a.address cfg.numSets cfg.numBytes = .ok index)
    (htag : readTag a.address cfg.numSets cfg.numBytes = .ok tag) (stats : CacheStats) :
    Sim.step cfg { cache := cache, stats := stats } a = (set.access cfg tag a.op).map fun r =>
      { cache := cache.putSet index r.1, stats := stats.add r.2 } := by
  obtain ⟨op, address⟩ := a
  rw [Sim.step, cacheHandler, hindex, htag]
  cases op with
  | load =>
      have hcmd : ¬('l' : Char) = 's' := by decide
      simp only [ok_bind, Op.cmd, hcmd, if_false, if_true, cacheLoad_eq hset, CacheSet.access]
      cases hload : set.load cfg tag with
      | error fault => rfl
      | ok r => simp [Except.map, CacheStats.add, CacheStats.zero, UInt32.add_assoc]
  | store =>
      simp only [ok_bind, Op.cmd, if_true, cacheStore_eq hset, CacheSet.access]
      cases hstore : set.store cfg tag with
      | error fault => rfl
      | ok r => simp [Except.map, CacheStats.add, CacheStats.zero, UInt32.add_assoc]

end

/-- What a round of `main`'s loop that runs through does. -/
theorem step_access {cfg : Config} {s s' : Sim} {a : Access} (h : s.step cfg a = .ok s') :
    ∃ index tag set r, readIndex a.address cfg.numSets cfg.numBytes = .ok index ∧
      readTag a.address cfg.numSets cfg.numBytes = .ok tag ∧
      s.cache.sets[index.toNat]? = some set ∧ set.access cfg tag a.op = .ok r ∧
      s' = { cache := s.cache.putSet index r.1, stats := s.stats.add r.2 } := by
  have hfields : ∃ index tag, readIndex a.address cfg.numSets cfg.numBytes = .ok index ∧
      readTag a.address cfg.numSets cfg.numBytes = .ok tag ∧ ∃ b, hit index tag s.cache = .ok b := by
    obtain ⟨op, address⟩ := a
    simp only [Sim.step, cacheHandler, bind_eq_ok] at h
    obtain ⟨r, ⟨index, hindex, tag, htag, hrun⟩, -⟩ := h
    refine ⟨index, tag, hindex, htag, ?_⟩
    cases op with
    | load =>
        have hcmd : ¬('l' : Char) = 's' := by decide
        simp only [Op.cmd, hcmd, if_false, if_true, cacheLoad, bind_eq_ok] at hrun
        obtain ⟨b, hb, -⟩ := hrun
        exact ⟨b, hb⟩
    | store =>
        simp only [Op.cmd, if_true, cacheStore, bind_eq_ok] at hrun
        obtain ⟨b, hb, -⟩ := hrun
        exact ⟨b, hb⟩
  obtain ⟨index, tag, hindex, htag, b, hb⟩ := hfields
  obtain ⟨set, hset, -⟩ := bind_eq_ok.mp hb
  have hset := Cache.setAt_eq_ok.mp hset
  obtain ⟨r, haccess, rfl⟩ := map_eq_ok.mp ((step_eq hset hindex htag s.stats).symm.trans h)
  exact ⟨index, tag, set, r, hindex, htag, hset, haccess, rfl⟩

/-! ## Bookkeeping -/

section

variable {numBlocks : UInt32} {set set' : CacheSet} {n : ℕ} {tag : UInt32}

theorem Slots.touch (h : Slots numBlocks set n) {lru : Bool} (heq : set.touch lru tag = .ok set') :
    Slots numBlocks set' n ∧ set'.tagIndex = set.tagIndex := by
  cases lru with
  | true =>
      simp only [CacheSet.touch, if_true, bind_eq_ok, pure_eq_ok] at heq
      obtain ⟨i, -, block, hblock, rfl⟩ := heq
      have hb : set.blocks[i.toNat]? = some block := by
        unfold CacheSet.blockAt at hblock
        split at hblock
        · next hb => rw [hb, Except.ok.inj hblock]
        · cases hblock
      exact ⟨h.overwrite { block with accessTime := set.timestamp } hb rfl rfl rfl rfl, rfl⟩
  | false =>
      cases heq
      exact ⟨h, rfl⟩

theorem Slots.mark (h : Slots numBlocks set n) (ht : tag ∈ set.tagIndex)
    (heq : set.mark tag = .ok set') : Slots numBlocks set' n := by
  obtain ⟨i, hi⟩ := Option.isSome_iff_exists.mp (Std.ExtTreeMap.isSome_getElem?_iff_mem.mpr ht)
  unfold CacheSet.mark at heq
  rw [subscript_of_mem hi] at heq
  cases hb : set.blocks[i.toNat]? with
  | none => simp [hb] at heq
  | some block =>
      simp only [hb] at heq
      cases heq
      exact h.overwrite { block with dirty := true } hb rfl rfl rfl rfl

/-- What a placement that runs through does: it fills the next free slot, or that of the
victim of the scan. -/
theorem Slots.place (h : Slots numBlocks set n) (ht : tag ∉ set.tagIndex) {lru : Bool}
    {numBytes cycles : UInt32} (heq : set.place lru numBytes tag = .ok (set', cycles)) :
    (∃ m, Slots numBlocks set' m) ∧ tag ∈ set'.tagIndex := by
  have hfilled : ∀ {set₁ : CacheSet} {j : ℕ}, fillBlock set₁ j tag lru = .ok set' →
      set' = set₁.filled j tag lru := by
    intro set₁ j hfill
    unfold fillBlock at hfill
    split at hfill
    · exact (Except.ok.inj hfill).symm
    · cases hfill
  have hmem : ∀ (set₁ : CacheSet) (j : ℕ), tag ∈ (set₁.filled j tag lru).tagIndex :=
    fun _ _ => Std.ExtTreeMap.mem_insert_self
  unfold CacheSet.place at heq
  by_cases hfull : findEmptySpot set = set.blocks.length
  · simp only [if_pos hfull, bind_eq_ok, pure_eq_ok, Prod.mk.injEq] at heq
    obtain ⟨⟨j, set₁, stats⟩, hevict, set₂, hfill, rfl, -⟩ := heq
    unfold evict at hevict
    split at hevict
    · cases hevict
    · next iter _ =>
        cases hvictim : set.blocks[iter]? with
        | none => simp [hvictim] at hevict
        | some victim =>
            simp only [hvictim, Except.ok.injEq, Prod.mk.injEq] at hevict
            obtain ⟨rfl, rfl, -⟩ := hevict
            -- every slot of a full set is resident
            have hlt : iter < n := by
              rw [← h.size_eq]
              exact lt_of_lt_of_eq (List.getElem?_eq_some_iff.mp hvictim).1 hfull.symm
            have hgone : tag ∉ set.tagIndex.erase victim.tag :=
              fun hin => ht (Std.ExtTreeMap.mem_of_mem_erase hin)
            rw [hfilled hfill]
            exact ⟨⟨n, (h.hole_erase hvictim hlt).fill hgone lru⟩, hmem _ _⟩
  · simp only [if_neg hfull, pure_bind, bind_eq_ok, pure_eq_ok, Prod.mk.injEq] at heq
    obtain ⟨set₂, hfill, rfl, -⟩ := heq
    have hsize : findEmptySpot set = n := h.size_eq
    have hlt : n < numBlocks.toNat := by
      refine lt_of_le_of_ne h.le_capacity ?_
      rw [← h.length_blocks, ← hsize]
      exact hfull
    rw [hfilled hfill, hsize]
    exact ⟨⟨n + 1, (h.hole_free hlt).fill ht lru⟩, hmem _ _⟩

theorem Slots.access (h : Slots numBlocks set n) {cfg : Config} {op : Op}
    {r : CacheSet × CacheStats} (heq : set.access cfg tag op = .ok r) :
    ∃ m, Slots numBlocks r.1 m := by
  by_cases ht : tag ∈ set.tagIndex
  · cases op with
    | load =>
        simp only [CacheSet.access, load_hit ht, map_eq_ok] at heq
        obtain ⟨_, ⟨set₁, htouch, rfl⟩, rfl⟩ := heq
        exact ⟨n, (h.touch htouch).1⟩
    | store =>
        simp only [CacheSet.access, store_hit ht, map_eq_ok, bind_eq_ok] at heq
        obtain ⟨_, ⟨set₁, htouch, hwrite⟩, rfl⟩ := heq
        obtain ⟨h₁, hindex⟩ := h.touch htouch
        split at hwrite
        · cases hwrite
          exact ⟨n, h₁⟩
        · obtain ⟨set₂, hmark, rfl⟩ := map_eq_ok.mp hwrite
          exact ⟨n, h₁.mark (hindex ▸ ht) hmark⟩
  · cases op with
    | load =>
        simp only [CacheSet.access, load_miss ht, map_eq_ok] at heq
        obtain ⟨_, ⟨⟨set₁, cycles⟩, hplace, rfl⟩, rfl⟩ := heq
        exact (h.place ht hplace).1
    | store =>
        simp only [CacheSet.access, store_miss ht, map_eq_ok] at heq
        obtain ⟨_, hmiss, rfl⟩ := heq
        split at hmiss
        · obtain ⟨⟨set₁, cycles⟩, hplace, rfl⟩ := map_eq_ok.mp hmiss
          exact (h.place ht hplace).1
        · cases hmiss
          exact ⟨n, h⟩

end

/-- Every set keeps its bookkeeping, however long the run. -/
theorem Reaches.slots {cfg : Config} {trace : List Access} {events : List Event} {s : Sim}
    (hrun : Reaches cfg trace events s) :
    ∀ set ∈ s.cache.sets, ∃ n, Slots cfg.numBlocks set n := by
  have hinit : ∀ set ∈ (Sim.init cfg).cache.sets, ∃ n, Slots cfg.numBlocks set n := by
    intro set hset
    rw [List.eq_of_mem_replicate hset]
    exact ⟨_, (represents_empty cfg.lru cfg.numBlocks rfl).slots⟩
  have hsteps : ∀ {trace : List Access} {s₀ s : Sim} {events : List Event},
      run cfg trace s₀ = .ok (events, s) →
      (∀ set ∈ s₀.cache.sets, ∃ n, Slots cfg.numBlocks set n) →
      ∀ set ∈ s.cache.sets, ∃ n, Slots cfg.numBlocks set n := by
    intro trace
    induction trace with
    | nil =>
        intro s₀ s events hrun h
        cases hrun
        exact h
    | cons a rest ih =>
        intro s₀ s events hrun h
        simp only [run, bind_eq_ok, pure_eq_ok, Prod.mk.injEq] at hrun
        obtain ⟨e, -, s₁, hstep, ⟨events', s'⟩, hrest, -, rfl⟩ := hrun
        obtain ⟨index, tag, set, r, -, -, hset, haccess, rfl⟩ := step_access hstep
        refine ih hrest fun set' hmem => ?_
        rcases List.mem_or_eq_of_mem_set hmem with hold | rfl
        · exact h set' hold
        · obtain ⟨n, hn⟩ := h set (List.mem_of_getElem? hset)
          exact hn.access haccess
  exact hsteps hrun hinit

end Csf.CacheSim
