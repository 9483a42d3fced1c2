import Csf.CacheSim.Sets
import Csf.CacheSim.WriteBack

/-!
# Cache simulator: a store that allocates

Under write-allocate a store that misses fetches its block and then writes to it, so it
should cost what a load of the address and a store to it cost. It does under write-back.
Under write-through `cache_store` charges a hit 100 cycles for the memory that it writes,
and a miss nothing for it.
-/

namespace Csf.CacheSim

open Csf.Lib

/-- The call of `cache_store` and the two calls that do the same work run through, the second
store hits, and the totals agree. -/
def FetchThenStore (cfg : Config) (index tag : UInt32) (s : Sim) : Prop :=
  ∃ stored loaded both, cacheStore index tag cfg s.cache s.stats = .ok stored ∧
    cacheLoad index tag cfg s.cache s.stats = .ok loaded ∧
    hit index tag loaded.1 = .ok true ∧
    cacheStore index tag cfg loaded.1 loaded.2 = .ok both ∧
    stored.2.totalCycles = both.2.totalCycles

/-- The set has a free slot, or the scan of its blocks finds a victim. -/
def Placeable (set : CacheSet) (lru : Bool) : Prop :=
  findEmptySpot set < set.blocks.length ∨ chooseEvictedBlock set lru ≠ none

section

variable {numBlocks : UInt32} {set set' : CacheSet} {n : ℕ} {tag : UInt32} {lru : Bool}

/-! ## Calls that run through -/

theorem Slots.touch_ok (h : Slots numBlocks set n) (ht : tag ∈ set.tagIndex) (lru : Bool) :
    ∃ set', set.touch lru tag = .ok set' := by
  cases lru with
  | true =>
      obtain ⟨i, hi⟩ := Option.isSome_iff_exists.mp (Std.ExtTreeMap.isSome_getElem?_iff_mem.mpr ht)
      obtain ⟨-, hb⟩ := (h.index_iff tag i).mp hi
      obtain ⟨block, hblock, -⟩ := Option.map_eq_some_iff.mp hb
      refine ⟨set.stamped i block, ?_⟩
      simp [CacheSet.touch, CacheSet.indexAt, CacheSet.blockAt, hi, hblock]
  | false => exact ⟨set, rfl⟩

theorem Slots.mark_ok (h : Slots numBlocks set n) (ht : tag ∈ set.tagIndex) :
    ∃ set', set.mark tag = .ok set' := by
  obtain ⟨i, hi⟩ := Option.isSome_iff_exists.mp (Std.ExtTreeMap.isSome_getElem?_iff_mem.mpr ht)
  obtain ⟨-, hb⟩ := (h.index_iff tag i).mp hi
  obtain ⟨block, hblock, -⟩ := Option.map_eq_some_iff.mp hb
  refine ⟨{ set with blocks := set.blocks.set i.toNat { block with dirty := true } }, ?_⟩
  unfold CacheSet.mark
  rw [subscript_of_mem hi]
  simp only [hblock]

/-- A victim that the scan finds is a block of the set. -/
theorem chooseEvictedBlock_getElem? {j : ℕ} (hj : chooseEvictedBlock set lru = some j) :
    ∃ victim, set.blocks[j]? = some victim := by
  rw [chooseEvictedBlock_eq] at hj
  rcases scanOldest_spec (Block.time lru) set.blocks 0 set.timestamp none with
    ⟨-, hres⟩ | ⟨k, victim, hk, -, -, hres⟩
  · rw [hres] at hj
    cases hj
  · rw [hres, Nat.zero_add] at hj
    exact ⟨victim, Option.some.inj hj ▸ hk⟩

theorem Slots.place_ok_iff (h : Slots numBlocks set n) (numBytes : UInt32) :
    (∃ r, set.place lru numBytes tag = .ok r) ↔ Placeable set lru := by
  have hsize : findEmptySpot set = n := h.size_eq
  have hle : findEmptySpot set ≤ set.blocks.length := by
    rw [hsize, h.length_blocks]
    exact h.le_capacity
  unfold CacheSet.place Placeable
  by_cases hfull : findEmptySpot set = set.blocks.length
  · simp only [hfull, lt_irrefl, false_or]
    unfold evict
    cases hj : chooseEvictedBlock set lru with
    | none => simp
    | some j =>
        obtain ⟨victim, hvictim⟩ := chooseEvictedBlock_getElem? hj
        have hlt := (List.getElem?_eq_some_iff.mp hvictim).1
        simp [fillBlock, hlt]
  · have hlt : findEmptySpot set < set.blocks.length := lt_of_le_of_ne hle hfull
    simp [hfull, hlt, fillBlock]

/-! ## What a miss costs -/

/-- In a set that keeps its bookkeeping: a miss runs through if the set has room or a
victim, and then a store is short of a load and a store by what a write-through costs. -/
theorem Slots.store_cost (h : Slots numBlocks set n) (ht : tag ∉ set.tagIndex) {cfg : Config}
    (halloc : cfg.allocation = true) (hplace : Placeable set cfg.lru) :
    ∃ loaded stored both, set.load cfg tag = .ok loaded ∧ set.store cfg tag = .ok stored ∧
      tag ∈ loaded.1.tagIndex ∧ loaded.1.store cfg tag = .ok both ∧
      loaded.2.totalCycles + both.2.totalCycles =
        stored.2.totalCycles + if cfg.write then 100 else 0 := by
  obtain ⟨⟨set₁, cycles⟩, hrun⟩ := (h.place_ok_iff cfg.numBytes).mpr hplace
  obtain ⟨⟨m, h₁⟩, ht₁⟩ := h.place ht hrun
  obtain ⟨set₂, htouch⟩ := h₁.touch_ok ht₁ cfg.lru
  obtain ⟨h₂, hindex⟩ := h₁.touch htouch
  obtain ⟨set₃, hmark⟩ := h₂.mark_ok (hindex ▸ ht₁)
  refine ⟨(set₁, { CacheStats.zero with
      loadMisses := 1, totalCycles := transferCycles cfg.numBytes + cycles }),
    (set₁, { CacheStats.zero with
      storeMisses := 1, totalCycles := 1 + transferCycles cfg.numBytes + cycles }),
    (if cfg.write then (set₂, { CacheStats.zero with storeHits := 1, totalCycles := 101 })
      else (set₃, { CacheStats.zero with storeHits := 1, totalCycles := 1 })), ?_, ?_, ht₁, ?_, ?_⟩
  · rw [load_miss ht, hrun]
    rfl
  · rw [store_miss ht, halloc, if_pos rfl, hrun]
    rfl
  · rw [store_hit ht₁, htouch, ok_bind, hmark]
    cases cfg.write <;> rfl
  · -- the cycle of the cache is charged first here and last there
    have hcycle : transferCycles cfg.numBytes + cycles + 1 =
        1 + transferCycles cfg.numBytes + cycles := by
      rw [UInt32.add_comm _ 1, UInt32.add_assoc]
    show transferCycles cfg.numBytes + cycles + _ = 1 + transferCycles cfg.numBytes + cycles + _
    cases cfg.write with
    | true =>
        show _ + (1 + 100) = _ + (100 : UInt32)
        rw [← UInt32.add_assoc, hcycle]
    | false =>
        show _ + 1 = _ + (0 : UInt32)
        rw [UInt32.add_zero, hcycle]

end

/-! ## The law -/

section

variable {cfg : Config} {s : Sim} {index tag : UInt32} {set : CacheSet} {n : ℕ}

theorem fetchThenStore_of_slots (halloc : cfg.allocation = true)
    (h : Slots cfg.numBlocks set n) (hset : s.cache.sets[index.toNat]? = some set)
    (ht : tag ∉ set.tagIndex) :
    FetchThenStore cfg index tag s ↔ cfg.write = false ∧ Placeable set cfg.lru := by
  constructor
  · rintro ⟨stored, loaded, both, hstored, hloaded, -, hboth, htotal⟩
    -- the load has run through, so the set could be placed into
    have hplace : Placeable set cfg.lru := by
      rw [cacheLoad_eq hset, load_miss ht] at hloaded
      obtain ⟨_, hload, -⟩ := map_eq_ok.mp hloaded
      obtain ⟨r, hrun, -⟩ := map_eq_ok.mp hload
      exact (h.place_ok_iff cfg.numBytes).mp ⟨r, hrun⟩
    obtain ⟨l, st, b, hl, hst, -, hb, hcost⟩ := h.store_cost ht halloc hplace
    rw [cacheStore_eq hset, hst] at hstored
    rw [cacheLoad_eq hset, hl] at hloaded
    cases hstored
    cases hloaded
    rw [cacheStore_eq (Cache.getElem?_putSet_self hset), hb] at hboth
    cases hboth
    refine ⟨?_, hplace⟩
    cases hwrite : cfg.write with
    | false => rfl
    | true =>
        have htotal' : s.stats.totalCycles + st.2.totalCycles =
            s.stats.totalCycles + l.2.totalCycles + b.2.totalCycles := htotal
        rw [hwrite, if_pos rfl] at hcost
        rw [UInt32.add_assoc, hcost, UInt32.add_right_inj] at htotal'
        exact absurd htotal' (by simp)
  · rintro ⟨hwrite, hplace⟩
    obtain ⟨l, st, b, hl, hst, hmem, hb, hcost⟩ := h.store_cost ht halloc hplace
    have hset' : (s.cache.putSet index l.1).sets[index.toNat]? = some l.1 :=
      Cache.getElem?_putSet_self hset
    refine ⟨_, _, _, by rw [cacheStore_eq hset, hst]; rfl, by rw [cacheLoad_eq hset, hl]; rfl,
      ?_, by rw [cacheStore_eq hset', hb]; rfl, ?_⟩
    · rw [hit_eq hset', Std.ExtTreeMap.mem_iff_contains.mp hmem]
    · rw [hwrite] at hcost
      show s.stats.totalCycles + st.2.totalCycles =
        s.stats.totalCycles + l.2.totalCycles + b.2.totalCycles
      rw [UInt32.add_assoc, hcost]
      simp

/-- **Fetch then store.** In a write-allocate cache, in any state that a run has reached and
for any address that misses there: `cache_store` costs what `cache_load` and `cache_store`
cost together exactly under write-back, in a set that can be placed into. -/
theorem fetchThenStore_iff (halloc : cfg.allocation = true) {trace : List Access}
    {events : List Event} (hrun : Reaches cfg trace events s) {address : UInt32} {e : Event}
    (he : observe cfg s.cache { op := .store, address := address } = .ok e)
    (hmiss : e.hit = false) :
    FetchThenStore cfg e.index e.tag s ↔
      cfg.write = false ∧ ∀ set, s.cache.setAt e.index = .ok set → Placeable set cfg.lru := by
  obtain ⟨-, -, hhit, -⟩ := observe_eq_ok he
  obtain ⟨set, hset, -⟩ := bind_eq_ok.mp hhit
  have hget := Cache.setAt_eq_ok.mp hset
  obtain ⟨n, hslots⟩ := hrun.slots set (List.mem_of_getElem? hget)
  have ht : e.tag ∉ set.tagIndex := by
    rw [hit_eq hget, hmiss, Except.ok.injEq] at hhit
    rw [Std.ExtTreeMap.mem_iff_contains, hhit]
    exact Bool.false_ne_true
  rw [fetchThenStore_of_slots halloc hslots hget ht, and_congr_right_iff]
  intro _
  constructor
  · intro hplace set' hset'
    rwa [← Except.ok.inj (hset.symm.trans hset')]
  · exact fun hall => hall set hset

end

/-- One set of one block of four bytes, write-allocate and write-through. -/
def throughConfig : Config :=
  { numSets := 1, numBlocks := 1, numBytes := 4, allocation := true, write := true, lru := true }

/-- The first access to a cache with a single set misses, and finds room. -/
theorem first_access (cfg : Config) (hsets : cfg.numSets = 1) (hbytes : cfg.numBytes = 4)
    (hblocks : cfg.numBlocks = 1) :
    Reaches cfg [] [] (Sim.init cfg) ∧
    observe cfg (Sim.init cfg).cache { op := .store, address := 0 } =
      .ok { op := .store, index := 0, tag := 0, hit := false } ∧
    ∃ set, (Sim.init cfg).cache.sets[(0 : UInt32).toNat]? = some set ∧
      Slots cfg.numBlocks set 0 ∧ 0 ∉ set.tagIndex ∧ Placeable set cfg.lru := by
  have h4 : (4 : UInt32).toNat = 2 ^ 2 := rfl
  obtain ⟨hindex, htag⟩ := oneSet_fields h4
  let block : Block :=
    { tag := 0, loadTime := 0, accessTime := 0, valid := false, dirty := false }
  let set : CacheSet := { blocks := [block], tagIndex := ∅, timestamp := 0 }
  have hset : (Sim.init cfg).cache.sets[(0 : UInt32).toNat]? = some set := by
    rw [Sim.init, hsets, hblocks]
    rfl
  have hslots : Slots cfg.numBlocks set 0 := by
    rw [hblocks]
    have hempty : Represents true 1 set [] := represents_empty true 1 rfl
    exact hempty.slots
  refine ⟨rfl, ?_, set, hset, hslots, Std.ExtTreeMap.not_mem_empty, Or.inl ?_⟩
  · rw [observe, hsets, hbytes, hindex, ok_bind, htag, ok_bind, hit_eq hset]
    rfl
  · show findEmptySpot set < 1
    exact Nat.zero_lt_one

theorem fetchThenStore_iff_oneBlock :
    FetchThenStore oneBlock 0 0 (Sim.init oneBlock) := by
  obtain ⟨hreach, he, set, hset, -, -, hplace⟩ := first_access oneBlock rfl rfl rfl
  have halloc : oneBlock.allocation = true := rfl
  refine (fetchThenStore_iff halloc hreach he rfl).mpr ⟨rfl, fun set' hset' => ?_⟩
  rwa [← Option.some.inj (hset.symm.trans (Cache.setAt_eq_ok.mp hset'))]

/-- A store that misses in `throughConfig` costs 101 cycles, a load and a store 201. -/
theorem storeMiss_skips_memory : ¬∀ cfg : Config, (handleError cfg).2 = 0 →
    cfg.allocation = true → 1 ≤ cfg.numBlocks.toNat → ∀ trace events s,
    Reaches cfg trace events s → ∀ address e,
    observe cfg s.cache { op := .store, address := address } = .ok e → e.hit = false →
    FetchThenStore cfg e.index e.tag s := by
  intro hall
  have haccept : (handleError throughConfig).2 = 0 :=
    (handleError_eq_zero_iff _).mpr ⟨⟨0, rfl⟩, ⟨2, rfl⟩, by decide, by decide⟩
  obtain ⟨hreach, he, set, hset, hslots, ht, -⟩ := first_access throughConfig rfl rfl rfl
  have hlaw := hall throughConfig haccept rfl (by decide) [] [] _ hreach 0 _ he rfl
  have hback := ((fetchThenStore_of_slots rfl hslots hset ht).mp hlaw).1
  exact absurd hback (by decide)

end Csf.CacheSim
