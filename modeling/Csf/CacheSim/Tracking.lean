import Csf.CacheSim.Placement

/-!
# Cache simulator: one access and whole runs

`Tracks` lifts `Represents` to the vector of sets. `step_spec` says what one
round of `main`'s loop does to it, and `run_spec` follows by induction on the
trace: no fault, the events of the run, the orders and the dirty flags it
leaves, and the counters.

The bound on the clock is the only resource: a set's timestamp grows by at most
one per access, so it does not wrap within 2^32 accesses.
-/

namespace Csf.CacheSim

open Csf.Lib Csf.Lib.Replacement

/-- Which misses bring their block in. -/
def allocates (cfg : Config) : Op → Bool
  | .load => true
  | .store => cfg.allocation

/-- What an access does to the dirty flags of the addressed set. -/
def dirtyStep (cfg : Config) (op : Op) (tag : UInt32) (hit : Bool) (stored : UInt32 → Prop) :
    UInt32 → Prop :=
  match op, hit with
  | .load, true => stored
  | .store, true => if cfg.write then stored else fun t => t = tag ∨ stored t
  | op, false => if allocates cfg op then fun t => t ≠ tag ∧ stored t else stored

/-- The six counters after one access. -/
def CacheStats.count (stats : CacheStats) : Op → Bool → CacheStats
  | .load, true => { stats with totalLoads := stats.totalLoads + 1
                                loadHits := stats.loadHits + 1 }
  | .load, false => { stats with totalLoads := stats.totalLoads + 1
                                 loadMisses := stats.loadMisses + 1 }
  | .store, true => { stats with totalStores := stats.totalStores + 1
                                 storeHits := stats.storeHits + 1 }
  | .store, false => { stats with totalStores := stats.totalStores + 1
                                  storeMisses := stats.storeMisses + 1 }

/-- Whether an access advances the clock of its set. -/
def ticks (cfg : Config) (op : Op) (hit : Bool) : Bool := if hit then cfg.lru else allocates cfg op

/-! ## The addressed set -/

/-- `set'` is what an access to `tag` makes of `set`, which represents `order`. -/
structure Accessed (cfg : Config) (op : Op) (tag : UInt32) (order : List UInt32)
    (set set' : CacheSet) : Prop where
  represents : Represents cfg.lru cfg.numBlocks set'
    (access (policyOf cfg.lru) cfg.numBlocks.toNat (allocates cfg op) tag order).2
  timestamp : set'.timestamp.toNat =
    set.timestamp.toNat + (ticks cfg op (decide (tag ∈ order))).toNat
  dirty : ∀ stored, DirtyIff set stored →
    DirtyIff set' (dirtyStep cfg op tag (decide (tag ∈ order)) stored)

section

variable {cfg : Config} {cache : Cache} {index : UInt32} {set : CacheSet} {order : List UInt32}

/-- `hit` decides residence. -/
theorem Represents.hit_eq (hr : Represents cfg.lru cfg.numBlocks set order)
    (hset : cache.sets[index.toNat]? = some set) (tag : UInt32) :
    hit index tag cache = .ok (decide (tag ∈ order)) := by
  simp only [hit, Cache.setAt, hset, ok_bind, pure_eq_ok]
  rw [Bool.eq_iff_iff, decide_eq_true_iff, ← hr.mem_iff tag, Std.ExtTreeMap.mem_iff_contains]

/-- `cache_load` is a request that allocates. -/
theorem cacheLoad_accessed (hr : Represents cfg.lru cfg.numBlocks set order)
    (hset : cache.sets[index.toNat]? = some set) (hcap : 0 < cfg.numBlocks.toNat) (tag : UInt32)
    (hts : ticks cfg .load (decide (tag ∈ order)) = true → set.timestamp.toNat + 1 < 2 ^ 32)
    (stats : CacheStats) :
    ∃ set' cycles, cacheLoad index tag cfg cache
          { stats with totalLoads := stats.totalLoads + 1 } =
        .ok (cache.putSet index set', { stats.count .load (decide (tag ∈ order)) with
          totalCycles := cycles }) ∧
      Accessed cfg .load tag order set set' := by
  by_cases hmem : tag ∈ order
  · rw [decide_eq_true hmem] at hts
    obtain ⟨set', heq, hr', ht', hd'⟩ := touch_spec hr hset hmem hts
    refine ⟨set', stats.totalCycles + 1, ?_, ?_, ?_, ?_⟩
    · simp only [cacheLoad, hr.hit_eq hset, hmem, decide_true, ok_bind, if_true, heq]
      rfl
    · simp only [access, hmem, if_true]
      exact hr'
    · rw [decide_eq_true hmem]
      exact ht'
    · rw [decide_eq_true hmem]
      exact hd'
  · rw [decide_eq_false hmem] at hts
    obtain ⟨set', writeBack, heq, hr', ht', hd'⟩ := place_spec hr hset hcap hmem (hts rfl)
      cfg.numBytes { stats with
        totalLoads := stats.totalLoads + 1
        loadMisses := stats.loadMisses + 1
        totalCycles := stats.totalCycles + transferCycles cfg.numBytes }
    refine ⟨set', if writeBack then
      stats.totalCycles + transferCycles cfg.numBytes + transferCycles cfg.numBytes
      else stats.totalCycles + transferCycles cfg.numBytes, ?_, ?_, ?_, ?_⟩
    · simp only [cacheLoad, hr.hit_eq hset, hmem, decide_false, ok_bind, Bool.false_eq_true,
        if_false]
      refine heq.trans ?_
      cases writeBack <;> rfl
    · simp only [access, hmem, if_false, allocates, if_true]
      exact hr'
    · rw [decide_eq_false hmem]
      exact ht'
    · rw [decide_eq_false hmem]
      exact hd'

/-- A store that hits is a request for a resident tag. -/
theorem cacheStore_hit (hr : Represents cfg.lru cfg.numBlocks set order)
    (hset : cache.sets[index.toNat]? = some set) {tag : UInt32} (hmem : tag ∈ order)
    (hts : ticks cfg .store true = true → set.timestamp.toNat + 1 < 2 ^ 32)
    (stats : CacheStats) :
    ∃ set' cycles, cacheStore index tag cfg cache
          { stats with totalStores := stats.totalStores + 1 } =
        .ok (cache.putSet index set', { stats.count .store true with totalCycles := cycles }) ∧
      Accessed cfg .store tag order set set' := by
  obtain ⟨set₁, heq₁, hr₁, ht₁, hd₁⟩ := touch_spec hr hset hmem hts
  cases hw : cfg.write with
  | true =>
      refine ⟨set₁, stats.totalCycles + 100 + 1, ?_, ?_, ?_, ?_⟩
      · simp only [cacheStore, hr.hit_eq hset, hmem, decide_true, ok_bind, if_true, heq₁, hw]
        rfl
      · simp only [access, hmem, if_true]
        exact hr₁
      · rw [decide_eq_true hmem]
        exact ht₁
      · simpa only [hmem, decide_true, dirtyStep, hw, if_true] using hd₁
  | false =>
      -- under write-back the block is marked dirty in the set just stamped
      have hlt : index.toNat < cache.sets.length := (List.getElem?_eq_some_iff.mp hset).1
      have hset₁ : (cache.putSet index set₁).sets[index.toNat]? = some set₁ := by
        simp [Cache.putSet, hlt]
      have hmem₁ : tag ∈ touch (policyOf cfg.lru) tag order :=
        (touch_perm hmem).mem_iff.mpr hmem
      obtain ⟨set₂, heq₂, hr₂, ht₂, hd₂⟩ := markDirty_spec hr₁ hset₁ hmem₁
      refine ⟨set₂, stats.totalCycles + 1, ?_, ?_, ?_, ?_⟩
      · simp only [cacheStore, hr.hit_eq hset, hmem, decide_true, ok_bind, if_true, heq₁, hw,
          Bool.false_eq_true, if_false, heq₂]
        simp only [Cache.putSet, List.set_set]
        rfl
      · simp only [access, hmem, if_true]
        exact hr₂
      · rw [decide_eq_true hmem, ht₂]
        exact ht₁
      · simp only [hmem, decide_true, dirtyStep, hw, Bool.false_eq_true, if_false]
        exact fun stored hd => hd₂ stored (hd₁ stored hd)

/-- A store that misses allocates under write-allocate, and leaves the cache otherwise. -/
theorem cacheStore_miss (hr : Represents cfg.lru cfg.numBlocks set order)
    (hset : cache.sets[index.toNat]? = some set) (hcap : 0 < cfg.numBlocks.toNat) {tag : UInt32}
    (hmem : tag ∉ order)
    (hts : ticks cfg .store false = true → set.timestamp.toNat + 1 < 2 ^ 32)
    (stats : CacheStats) :
    ∃ set' cycles, cacheStore index tag cfg cache
          { stats with totalStores := stats.totalStores + 1 } =
        .ok (cache.putSet index set', { stats.count .store false with totalCycles := cycles }) ∧
      Accessed cfg .store tag order set set' := by
  cases ha : cfg.allocation with
  | true =>
      obtain ⟨set', writeBack, heq, hr', ht', hd'⟩ := place_spec hr hset hcap hmem (hts ha)
        cfg.numBytes { stats with
          totalStores := stats.totalStores + 1
          storeMisses := stats.storeMisses + 1
          totalCycles := stats.totalCycles + 1 + transferCycles cfg.numBytes }
      refine ⟨set', if writeBack then
        stats.totalCycles + 1 + transferCycles cfg.numBytes + transferCycles cfg.numBytes
        else stats.totalCycles + 1 + transferCycles cfg.numBytes, ?_, ?_, ?_, ?_⟩
      · simp only [cacheStore, hr.hit_eq hset, hmem, decide_false, ok_bind, Bool.false_eq_true,
          if_false, ha, if_true]
        refine heq.trans ?_
        cases writeBack <;> rfl
      · simp only [access, hmem, if_false, allocates, ha, if_true]
        exact hr'
      · simpa [hmem, ticks, allocates, ha] using ht'
      · simpa only [hmem, decide_false, dirtyStep, allocates, ha, if_true] using hd'
  | false =>
      refine ⟨set, stats.totalCycles + 100, ?_, ?_, ?_, ?_⟩
      · simp only [cacheStore, hr.hit_eq hset, hmem, decide_false, ok_bind, Bool.false_eq_true,
          if_false, ha, Cache.putSet_self hset]
        rfl
      · simp only [access, hmem, if_false, allocates, ha, Bool.false_eq_true]
        exact hr
      · simp [hmem, ticks, allocates, ha]
      · simp [hmem, dirtyStep, allocates, ha]

/-- `cache_store` is a request that allocates under write-allocate. -/
theorem cacheStore_accessed (hr : Represents cfg.lru cfg.numBlocks set order)
    (hset : cache.sets[index.toNat]? = some set) (hcap : 0 < cfg.numBlocks.toNat) (tag : UInt32)
    (hts : ticks cfg .store (decide (tag ∈ order)) = true → set.timestamp.toNat + 1 < 2 ^ 32)
    (stats : CacheStats) :
    ∃ set' cycles, cacheStore index tag cfg cache
          { stats with totalStores := stats.totalStores + 1 } =
        .ok (cache.putSet index set', { stats.count .store (decide (tag ∈ order)) with
          totalCycles := cycles }) ∧
      Accessed cfg .store tag order set set' := by
  by_cases hmem : tag ∈ order
  · rw [decide_eq_true hmem] at hts ⊢
    exact cacheStore_hit hr hset hmem hts stats
  · rw [decide_eq_false hmem] at hts ⊢
    exact cacheStore_miss hr hset hcap hmem hts stats

/-- One round of `main`'s loop on an access whose fields are `index` and `tag`. -/
theorem step_accessed (hr : Represents cfg.lru cfg.numBlocks set order)
    (hset : cache.sets[index.toNat]? = some set) (hcap : 0 < cfg.numBlocks.toNat) {a : Access}
    {tag : UInt32} (hindex : readIndex a.address cfg.numSets cfg.numBytes = .ok index)
    (htag : readTag a.address cfg.numSets cfg.numBytes = .ok tag)
    (hts : ticks cfg a.op (decide (tag ∈ order)) = true → set.timestamp.toNat + 1 < 2 ^ 32)
    (stats : CacheStats) :
    ∃ set' cycles, observe cfg cache a =
        .ok { op := a.op, index := index, tag := tag, hit := decide (tag ∈ order) } ∧
      Sim.step cfg { cache := cache, stats := stats } a =
        .ok { cache := cache.putSet index set'
              stats := { stats.count a.op (decide (tag ∈ order)) with totalCycles := cycles } } ∧
      Accessed cfg a.op tag order set set' := by
  have hobserve : observe cfg cache a = .ok { op := a.op, index := index, tag := tag
                                              hit := decide (tag ∈ order) } := by
    simp only [observe, hindex, htag, hr.hit_eq hset, ok_bind]
    rfl
  obtain ⟨op, address⟩ := a
  cases op with
  | load =>
      obtain ⟨set', cycles, heq, ht⟩ := cacheLoad_accessed hr hset hcap tag hts stats
      refine ⟨set', cycles, hobserve, ?_, ht⟩
      have hcmd : ¬ ('l' : Char) = 's' := by decide
      simp only [Sim.step, cacheHandler, hindex, htag, ok_bind, Op.cmd, hcmd, if_false, if_true,
        heq]
      rfl
  | store =>
      obtain ⟨set', cycles, heq, ht⟩ := cacheStore_accessed hr hset hcap tag hts stats
      refine ⟨set', cycles, hobserve, ?_, ht⟩
      simp only [Sim.step, cacheHandler, hindex, htag, ok_bind, Op.cmd, if_true, heq]
      rfl

end

section

variable {cfg : Config} {e : Event}

theorem observe_eq_ok {cache : Cache} {a : Access} (h : observe cfg cache a = .ok e) :
    readIndex a.address cfg.numSets cfg.numBytes = .ok e.index ∧
      readTag a.address cfg.numSets cfg.numBytes = .ok e.tag ∧
      hit e.index e.tag cache = .ok e.hit ∧ a.op = e.op := by
  simp only [observe, bind_eq_ok, pure_eq_ok] at h
  obtain ⟨index, hindex, tag, htag, b, hhit, rfl⟩ := h
  exact ⟨hindex, htag, hhit, rfl⟩

/-- One round of `main`'s loop is a call of `cache_load` or of `cache_store`. -/
theorem step_cases {s s' : Sim} {a : Access} (he : observe cfg s.cache a = .ok e)
    (hs : s.step cfg a = .ok s') :
    (e.op = .load ∧ cacheLoad e.index e.tag cfg s.cache
        { s.stats with totalLoads := s.stats.totalLoads + 1 } = .ok (s'.cache, s'.stats)) ∨
      e.op = .store ∧ cacheStore e.index e.tag cfg s.cache
        { s.stats with totalStores := s.stats.totalStores + 1 } = .ok (s'.cache, s'.stats) := by
  obtain ⟨hindex, htag, -, hop⟩ := observe_eq_ok he
  simp only [Sim.step, cacheHandler, hindex, htag, ok_bind, bind_eq_ok, pure_eq_ok] at hs
  obtain ⟨⟨cache', stats'⟩, hrun, rfl⟩ := hs
  rw [hop] at hrun
  cases hcase : e.op with
  | load =>
      have hcmd : ¬ ('l' : Char) = 's' := by decide
      simp only [hcase, Op.cmd, hcmd, if_false, if_true] at hrun
      exact Or.inl ⟨rfl, hrun⟩
  | store =>
      simp only [hcase, Op.cmd, if_true] at hrun
      exact Or.inr ⟨rfl, hrun⟩

end

/-! ## All sets -/

/-- Every set represents its order, its dirty flags are those of `stored`, and
no clock is past `time`. -/
structure Tracks (cfg : Config) (cache : Cache) (time : Nat) (orders : Nat → List UInt32)
    (stored : Nat → UInt32 → Prop) : Prop where
  length_sets : cache.sets.length = cfg.numSets.toNat
  represents : ∀ i set, cache.sets[i]? = some set →
    Represents cfg.lru cfg.numBlocks set (orders i) ∧ set.timestamp.toNat ≤ time ∧
      DirtyIff set (stored i)

section

variable {cfg : Config} {cache : Cache} {time : Nat} {orders : Nat → List UInt32}
  {stored : Nat → UInt32 → Prop}

theorem tracks_init (cfg : Config) :
    Tracks cfg (Sim.init cfg).cache 0 (fun _ => []) (fun _ _ => False) := by
  refine ⟨by simp [Sim.init, cacheInitialize], ?_⟩
  intro i set hi
  have hset := List.eq_of_mem_replicate (List.mem_of_getElem? hi)
  subst hset
  refine ⟨represents_empty _ _ rfl, by simp, ?_⟩
  intro b hb hv
  rw [List.eq_of_mem_replicate hb] at hv
  exact absurd hv (by decide)

/-- Writing back the addressed set. -/
theorem Tracks.putSet (h : Tracks cfg cache time orders stored) {index : UInt32}
    {set : CacheSet} {order : List UInt32} {dirty : UInt32 → Prop}
    (hr : Represents cfg.lru cfg.numBlocks set order) (ht : set.timestamp.toNat ≤ time + 1)
    (hd : DirtyIff set dirty) :
    Tracks cfg (cache.putSet index set) (time + 1) (Function.update orders index.toNat order)
      (Function.update stored index.toNat dirty) := by
  refine ⟨by rw [← h.length_sets]; exact List.length_set, ?_⟩
  intro i set' hi
  rw [Cache.putSet, List.getElem?_set] at hi
  by_cases hidx : index.toNat = i
  · subst hidx
    rw [if_pos rfl] at hi
    split at hi
    · rw [← Option.some.inj hi]
      simpa using ⟨hr, ht, hd⟩
    · exact absurd hi (by simp)
  · rw [if_neg hidx] at hi
    obtain ⟨hr', ht', hd'⟩ := h.represents i set' hi
    rw [Function.update_of_ne (Ne.symm hidx), Function.update_of_ne (Ne.symm hidx)]
    exact ⟨hr', by omega, hd'⟩

theorem Tracks.setAt (h : Tracks cfg cache time orders stored) {index : UInt32}
    (hi : index.toNat < cfg.numSets.toNat) : ∃ set, cache.sets[index.toNat]? = some set := by
  have hlt : index.toNat < cache.sets.length := by rw [h.length_sets]; exact hi
  exact ⟨_, List.getElem?_eq_getElem hlt⟩

/-! ## One access -/

/-- What the address fields of an access are worth when they fit. -/
theorem fields_spec (ha : cfg.Accepted)
    (hfit : cfg.numSets.toNat * cfg.numBytes.toNat ≤ 2 ^ 32) (address : UInt32) :
    ∃ index tag, readIndex address cfg.numSets cfg.numBytes = .ok index ∧
      readTag address cfg.numSets cfg.numBytes = .ok tag ∧
      index.toNat = address.toNat / cfg.numBytes.toNat % cfg.numSets.toNat ∧
      tag.toNat = address.toNat / cfg.numBytes.toNat / cfg.numSets.toNat := by
  obtain ⟨s, hs⟩ := ha.numSets
  obtain ⟨b, hb⟩ := ha.numBytes
  have hsum : s + b ≤ 32 := by
    rw [hs, hb, ← pow_add] at hfit
    exact (Nat.pow_le_pow_iff_right (by decide)).mp hfit
  obtain ⟨index, hindex, hindexVal⟩ := readIndex_eq hs hb hsum address
  obtain ⟨tag, htag, htagVal⟩ := readTag_eq hs hb hsum address
  exact ⟨index, tag, hindex, htag, hindexVal, htagVal⟩

theorem numSets_pos (ha : cfg.Accepted) : 0 < cfg.numSets.toNat := by
  obtain ⟨s, hs⟩ := ha.numSets
  rw [hs]
  exact Nat.two_pow_pos s

/-- One round of `main`'s loop on an access whose fields are `index` and `tag`. -/
theorem step_spec (h : Tracks cfg cache time orders stored) (htime : time + 1 < 2 ^ 32)
    (hcap : 0 < cfg.numBlocks.toNat) {a : Access} {index tag : UInt32}
    (hindex : readIndex a.address cfg.numSets cfg.numBytes = .ok index)
    (htag : readTag a.address cfg.numSets cfg.numBytes = .ok tag)
    (hi : index.toNat < cfg.numSets.toNat) (stats : CacheStats) :
    ∃ cache' cycles, observe cfg cache a =
        .ok { op := a.op, index := index, tag := tag
              hit := decide (tag ∈ orders index.toNat) } ∧
      Sim.step cfg { cache := cache, stats := stats } a =
        .ok { cache := cache'
              stats := { stats.count a.op (decide (tag ∈ orders index.toNat)) with
                totalCycles := cycles } } ∧
      Tracks cfg cache' (time + 1)
        (Function.update orders index.toNat (access (policyOf cfg.lru) cfg.numBlocks.toNat
          (allocates cfg a.op) tag (orders index.toNat)).2)
        (Function.update stored index.toNat (dirtyStep cfg a.op tag
          (decide (tag ∈ orders index.toNat)) (stored index.toNat))) := by
  obtain ⟨set, hset⟩ := h.setAt hi
  obtain ⟨hr, ht, hd⟩ := h.represents _ set hset
  obtain ⟨set', cycles, hobserve, hstep, hset'⟩ :=
    step_accessed hr hset hcap hindex htag (fun _ => by omega) stats
  refine ⟨cache.putSet index set', cycles, hobserve, hstep, ?_⟩
  refine h.putSet hset'.represents ?_ (hset'.dirty _ hd)
  have htick := (ticks cfg a.op (decide (tag ∈ orders index.toNat))).toNat_le
  rw [hset'.timestamp]
  omega

end

/-! ## Runs -/

theorem run_cons_eq {cfg : Config} {a : Access} {rest : List Access} {s s₁ : Sim} {e : Event}
    (he : observe cfg s.cache a = .ok e) (hs : s.step cfg a = .ok s₁) :
    run cfg (a :: rest) s = (do
      let (events, s') ← run cfg rest s₁
      pure (e :: events, s')) := by
  simp only [run, he, hs, ok_bind]

/-- A trace splits wherever one wants. -/
theorem run_append (cfg : Config) (xs ys : List Access) (s : Sim) :
    run cfg (xs ++ ys) s = (do
      let (events, s₁) ← run cfg xs s
      let (events', s₂) ← run cfg ys s₁
      pure (events ++ events', s₂)) := by
  induction xs generalizing s with
  | nil =>
      simp only [List.nil_append, run, ok_bind]
      cases run cfg ys s <;> rfl
  | cons a rest ih =>
      simp only [List.cons_append, run]
      cases observe cfg s.cache a with
      | error f => rfl
      | ok e =>
          cases hs : s.step cfg a with
          | error f => simp only [ok_bind, error_bind]
          | ok s₁ =>
              simp only [ok_bind, ih]
              cases run cfg rest s₁ with
              | error f => rfl
              | ok r =>
                  simp only [ok_bind, pure_bind]
                  cases run cfg ys r.2 <;> rfl

/-- The dirty flags after a list of events. -/
def dirtyRun (cfg : Config) (stored : Nat → UInt32 → Prop) (events : List Event) :
    Nat → UInt32 → Prop :=
  events.foldl (fun stored e => Function.update stored e.index.toNat
    (dirtyStep cfg e.op e.tag e.hit (stored e.index.toNat))) stored

/-- The orders after a list of events. -/
def orderRun (cfg : Config) (orders : Nat → List UInt32) (events : List Event) :
    Nat → List UInt32 :=
  events.foldl (fun orders e => Function.update orders e.index.toNat
    (access (policyOf cfg.lru) cfg.numBlocks.toNat (allocates cfg e.op) e.tag
      (orders e.index.toNat)).2) orders

/-- The statistics without the cycle total. -/
def CacheStats.counters (stats : CacheStats) : CacheStats := { stats with totalCycles := 0 }

theorem CacheStats.counters_count (stats : CacheStats) (op : Op) (hit : Bool) :
    (stats.count op hit).counters = stats.counters.count op hit := by
  cases op <;> cases hit <;> rfl

/-- The counters after a list of events. -/
def CacheStats.countRun (stats : CacheStats) (events : List Event) : CacheStats :=
  events.foldl (fun stats e => stats.count e.op e.hit) stats

/-- The events of `trace` from orders `orders`: operations and address fields
are those of the trace, hits those of the orders. -/
def EventsOf (cfg : Config) : (Nat → List UInt32) → List Access → List Event → Prop
  | _, [], events => events = []
  | orders, a :: rest, events => ∃ e events', events = e :: events' ∧ e.op = a.op ∧
      e.index.toNat = a.address.toNat / cfg.numBytes.toNat % cfg.numSets.toNat ∧
      e.tag.toNat = a.address.toNat / cfg.numBytes.toNat / cfg.numSets.toNat ∧
      e.hit = decide (e.tag ∈ orders e.index.toNat) ∧
      EventsOf cfg (orderRun cfg orders [e]) rest events'

/-- In a geometry that fits, every trace short enough for the clocks runs
without fault, and the state it reaches is the one its events describe. -/
theorem run_spec {cfg : Config} (ha : cfg.Accepted)
    (hfit : cfg.numSets.toNat * cfg.numBytes.toNat ≤ 2 ^ 32) (hcap : 0 < cfg.numBlocks.toNat) :
    ∀ (trace : List Access) (cache : Cache) (stats : CacheStats) (time : Nat)
      (orders : Nat → List UInt32) (stored : Nat → UInt32 → Prop),
    Tracks cfg cache time orders stored → time + trace.length < 2 ^ 32 →
    ∃ events s, run cfg trace { cache := cache, stats := stats } = .ok (events, s) ∧
      EventsOf cfg orders trace events ∧
      Tracks cfg s.cache (time + trace.length) (orderRun cfg orders events)
        (dirtyRun cfg stored events) ∧
      s.stats.counters = stats.counters.countRun events := by
  intro trace
  induction trace with
  | nil =>
      intro cache stats time orders stored h _
      exact ⟨[], _, rfl, rfl, h, rfl⟩
  | cons a rest ih =>
      intro cache stats time orders stored h htime
      rw [List.length_cons] at htime
      obtain ⟨index, tag, hindex, htag, hindexVal, htagVal⟩ := fields_spec ha hfit a.address
      have hi : index.toNat < cfg.numSets.toNat :=
        hindexVal ▸ Nat.mod_lt _ (numSets_pos ha)
      obtain ⟨cache', cycles, hobs, hstep, ht⟩ :=
        step_spec h (by omega) hcap hindex htag hi stats
      obtain ⟨events, s, hrun, hevents, htracks, hstats⟩ :=
        ih cache' _ (time + 1) _ _ ht (by omega)
      let e : Event := { op := a.op, index := index, tag := tag
                         hit := decide (tag ∈ orders index.toNat) }
      refine ⟨e :: events, s, ?_, ⟨e, events, rfl, rfl, hindexVal, htagVal, rfl, hevents⟩, ?_, ?_⟩
      · rw [run_cons_eq hobs hstep, hrun]
        rfl
      · have hlen : time + (a :: rest).length = time + 1 + rest.length := by
          rw [List.length_cons]
          omega
        rw [hlen]
        exact htracks
      · rw [hstats]
        show CacheStats.countRun (stats.count a.op _).counters events = _
        rw [CacheStats.counters_count]
        rfl

end Csf.CacheSim
