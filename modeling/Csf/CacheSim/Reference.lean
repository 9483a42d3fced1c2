import Csf.CacheSim.Tracking

/-!
# Cache simulator against a reference model

The reference model knows neither tags nor timestamps: a cache is one list of
block numbers per set, oldest first, and an access is a request of
`Lib.Replacement` on the list its block number selects. The simulator refines
it: same outcomes, same counters, same resident blocks, for every trace whose
length the 32-bit clocks can count.
-/

namespace Csf.CacheSim

open Csf.Lib Csf.Lib.Replacement

/-- A reference cache: the block numbers of each set, next victim first. -/
abbrev RefCache := Nat → List Nat

/-- The memory block an address lies in. -/
def blockNumber (cfg : Config) (address : UInt32) : Nat := address.toNat / cfg.numBytes.toNat

/-- One access of the reference model. -/
def refAccess (cfg : Config) (cache : RefCache) (a : Access) : Bool × RefCache :=
  let block := blockNumber cfg a.address
  let index := block % cfg.numSets.toNat
  let r := access (policyOf cfg.lru) cfg.numBlocks.toNat (allocates cfg a.op) block (cache index)
  (r.1, Function.update cache index r.2)

/-- A trace through the reference model: the outcome of every access and the
cache it leaves. -/
def refRun (cfg : Config) : List Access → RefCache → List (Op × Bool) × RefCache
  | [], cache => ([], cache)
  | a :: rest, cache =>
      let (hit, cache) := refAccess cfg cache a
      let (outcomes, cache) := refRun cfg rest cache
      ((a.op, hit) :: outcomes, cache)

/-- The reference model on an initially empty cache. -/
def reference (cfg : Config) (trace : List Access) : List (Op × Bool) × RefCache :=
  refRun cfg trace fun _ => []

/-- The block number that tag `tag` stands for in set `index`. -/
def blockOf (cfg : Config) (index : Nat) (tag : UInt32) : Nat :=
  tag.toNat * cfg.numSets.toNat + index

/-- The block numbers of the valid blocks of set `index`. -/
def residentBlocks (cfg : Config) (cache : Cache) (index : Nat) : List Nat :=
  match cache.sets[index]? with
  | none => []
  | some set => (set.blocks.filter Block.valid).map fun b => blockOf cfg index b.tag

/-- The reported counters are those of a list of outcomes. -/
structure Tally (stats : CacheStats) (outcomes : List (Op × Bool)) : Prop where
  loadHits : stats.loadHits.toNat = outcomes.count (.load, true)
  loadMisses : stats.loadMisses.toNat = outcomes.count (.load, false)
  storeHits : stats.storeHits.toNat = outcomes.count (.store, true)
  storeMisses : stats.storeMisses.toNat = outcomes.count (.store, false)
  totalLoads : stats.totalLoads.toNat = stats.loadHits.toNat + stats.loadMisses.toNat
  totalStores : stats.totalStores.toNat = stats.storeHits.toNat + stats.storeMisses.toNat

/-! ## The reference model on tags -/

theorem blockOf_injective {cfg : Config} (hs : 0 < cfg.numSets.toNat) (index : Nat) :
    Function.Injective (blockOf cfg index) := by
  intro s t h
  have := Nat.eq_of_mul_eq_mul_right hs (Nat.add_right_cancel h)
  exact UInt32.toNat_inj.mp this

/-- A block number is its quotient and remainder by the number of sets. -/
theorem blockOf_fields {cfg : Config} {address index tag : UInt32}
    (hi : index.toNat = address.toNat / cfg.numBytes.toNat % cfg.numSets.toNat)
    (ht : tag.toNat = address.toNat / cfg.numBytes.toNat / cfg.numSets.toNat) :
    blockOf cfg index.toNat tag = blockNumber cfg address := by
  rw [blockOf, hi, ht, blockNumber]
  exact Nat.div_add_mod' _ _

/-- The reference cache a family of tag orders denotes. -/
def blocksOf (cfg : Config) (orders : Nat → List UInt32) : RefCache :=
  fun i => (orders i).map (blockOf cfg i)

theorem blocksOf_update (cfg : Config) (orders : Nat → List UInt32) (i : Nat)
    (order : List UInt32) : blocksOf cfg (Function.update orders i order) =
      Function.update (blocksOf cfg orders) i (order.map (blockOf cfg i)) := by
  funext k
  by_cases hk : k = i
  · subst hk
    simp [blocksOf]
  · simp [blocksOf, Function.update_of_ne hk]

/-- The events of a run are the outcomes of the reference model, and its orders
denote the reference caches. -/
theorem refRun_eq {cfg : Config} (hs : 0 < cfg.numSets.toNat) :
    ∀ (trace : List Access) (orders : Nat → List UInt32) (events : List Event),
    EventsOf cfg orders trace events →
    refRun cfg trace (blocksOf cfg orders) =
      (events.map fun e => (e.op, e.hit), blocksOf cfg (orderRun cfg orders events)) := by
  intro trace
  induction trace with
  | nil =>
      rintro orders events rfl
      rfl
  | cons a rest ih =>
      rintro orders events ⟨e, events', rfl, hop, hindex, htag, hhit, hevents⟩
      have hblock := blockOf_fields hindex htag
      have hset : blockNumber cfg a.address % cfg.numSets.toNat = e.index.toNat := hindex.symm
      -- the reference caches hold block numbers, the orders tags; one set maps injectively
      have haccess := access_map (policyOf cfg.lru) cfg.numBlocks.toNat (allocates cfg a.op)
        (blockOf_injective hs e.index.toNat) e.tag (orders e.index.toNat)
      rw [access_fst, ← hhit, hblock, ← hop] at haccess
      have hstep : refAccess cfg (blocksOf cfg orders) a =
          (e.hit, blocksOf cfg (orderRun cfg orders [e])) := by
        have hcache : blocksOf cfg orders e.index.toNat =
            (orders e.index.toNat).map (blockOf cfg e.index.toNat) := rfl
        simp only [refAccess, hset, hcache, ← hop, haccess]
        exact Prod.ext rfl (blocksOf_update cfg orders e.index.toNat _).symm
      simp only [refRun, hstep, ih _ _ hevents, List.map_cons, hop]
      rfl

/-! ## Counters -/

/-- `field` steps exactly on the outcomes that satisfy `p`. -/
def Steps (field : CacheStats → UInt32) (p : Op × Bool → Bool) : Prop :=
  ∀ stats op hit, field (stats.count op hit) =
    if p (op, hit) then field stats + 1 else field stats

/-- A counter that steps on the outcomes satisfying `p` counts them, modulo the
width. -/
theorem countRun_field {field : CacheStats → UInt32} {p : Op × Bool → Bool}
    (hstep : Steps field p) (events : List Event) :
    ∀ stats : CacheStats, field (stats.countRun events) =
      field stats + UInt32.ofNat ((events.map fun e => (e.op, e.hit)).countP p) := by
  induction events with
  | nil =>
      intro stats
      simp [CacheStats.countRun]
  | cons e rest ih =>
      intro stats
      show field (CacheStats.countRun (stats.count e.op e.hit) rest) = _
      rw [ih, hstep, List.map_cons, List.countP_cons]
      split
      · rw [UInt32.add_assoc, UInt32.ofNat_add, UInt32.add_comm 1]
        rfl
      · rw [Nat.add_zero]

/-- Counting one operation is counting its hits and its misses. -/
theorem countP_op (outcomes : List (Op × Bool)) (op : Op) :
    outcomes.countP (fun o => o.1 == op) =
      outcomes.count (op, true) + outcomes.count (op, false) := by
  induction outcomes with
  | nil => rfl
  | cons o rest ih =>
      obtain ⟨o, hit⟩ := o
      rw [List.countP_cons, List.count_cons, List.count_cons, ih]
      cases hit <;> cases o <;> cases op <;> simp <;> omega

/-- A run shorter than the counters are wide reports what it met. -/
theorem tally_of_countRun {stats : CacheStats} {events : List Event}
    (hstats : stats.counters = CacheStats.zero.counters.countRun events)
    (hlen : events.length < 2 ^ 32) :
    Tally stats (events.map fun e => (e.op, e.hit)) := by
  have hfield : ∀ (field : CacheStats → UInt32) (p : Op × Bool → Bool), Steps field p →
      field CacheStats.zero.counters = 0 → field stats = field stats.counters →
      (field stats).toNat = (events.map fun e => (e.op, e.hit)).countP p := by
    intro field p hstep hzero hcounters
    have hle : (events.map fun e => (e.op, e.hit)).countP p < 2 ^ 32 :=
      lt_of_le_of_lt List.countP_le_length (by simpa using hlen)
    rw [hcounters, hstats, countRun_field hstep events, hzero, UInt32.zero_add,
      UInt32.toNat_ofNat', Nat.mod_eq_of_lt hle]
  -- one predicate on outcomes for each counter
  have hlh := hfield CacheStats.loadHits (· == (.load, true))
    (fun _ op hit => by cases op <;> cases hit <;> simp [CacheStats.count]) rfl rfl
  have hlm := hfield CacheStats.loadMisses (· == (.load, false))
    (fun _ op hit => by cases op <;> cases hit <;> simp [CacheStats.count]) rfl rfl
  have hsh := hfield CacheStats.storeHits (· == (.store, true))
    (fun _ op hit => by cases op <;> cases hit <;> simp [CacheStats.count]) rfl rfl
  have hsm := hfield CacheStats.storeMisses (· == (.store, false))
    (fun _ op hit => by cases op <;> cases hit <;> simp [CacheStats.count]) rfl rfl
  have htl := hfield CacheStats.totalLoads (fun o => o.1 == .load)
    (fun _ op hit => by cases op <;> cases hit <;> simp [CacheStats.count]) rfl rfl
  have hts := hfield CacheStats.totalStores (fun o => o.1 == .store)
    (fun _ op hit => by cases op <;> cases hit <;> simp [CacheStats.count]) rfl rfl
  refine ⟨hlh, hlm, hsh, hsm, ?_, ?_⟩
  · rw [htl, countP_op, hlh, hlm]
    rfl
  · rw [hts, countP_op, hsh, hsm]
    rfl

/-! ## The simulator refines the reference model -/

/-- The resident blocks of a tracked set are those of its order. -/
theorem residentBlocks_perm {cfg : Config} {cache : Cache} {time : Nat}
    {orders : Nat → List UInt32} {stored : Nat → UInt32 → Prop}
    (h : Tracks cfg cache time orders stored) {i : Nat} (hi : i < cfg.numSets.toNat) :
    (residentBlocks cfg cache i).Perm (blocksOf cfg orders i) ∧
      (blocksOf cfg orders i).Nodup ∧
      (blocksOf cfg orders i).length ≤ cfg.numBlocks.toNat := by
  have hlt : i < cache.sets.length := h.length_sets.symm ▸ hi
  have hs : 0 < cfg.numSets.toNat := by omega
  obtain ⟨hr, -, -⟩ := h.represents i _ (List.getElem?_eq_getElem hlt)
  refine ⟨?_, hr.nodup.map (blockOf_injective hs i), ?_⟩
  · have htags := (hr.ordered.perm_tags.map (blockOf cfg i)).symm
    rw [List.map_map] at htags
    simp only [residentBlocks, List.getElem?_eq_getElem hlt, hr.slots.filter_valid]
    exact htags
  · simpa [blocksOf] using hr.slots.le_capacity

theorem EventsOf.length_eq {cfg : Config} : ∀ {trace : List Access}
    {orders : Nat → List UInt32} {events : List Event},
    EventsOf cfg orders trace events → events.length = trace.length := by
  intro trace
  induction trace with
  | nil =>
      rintro orders events rfl
      rfl
  | cons a rest ih =>
      rintro orders events ⟨e, events', rfl, -, -, -, -, hevents⟩
      rw [List.length_cons, List.length_cons, ih hevents]

/-- The simulator refines the reference model: on every trace it runs without
fault, with the outcomes of the reference model, its counters, and its resident
blocks in every set. -/
theorem run_refines_reference (cfg : Config) (hg : cfg.Geometry)
    (haccept : (handleError cfg).2 = 0) (trace : List Access) (hlen : trace.length < 2 ^ 32) :
    ∃ events s, Reaches cfg trace events s ∧
      (events.map fun e => (e.op, e.hit)) = (reference cfg trace).1 ∧
      Tally s.stats (reference cfg trace).1 ∧
      ∀ i, i < cfg.numSets.toNat →
        (residentBlocks cfg s.cache i).Perm ((reference cfg trace).2 i) ∧
        ((reference cfg trace).2 i).Nodup ∧
        ((reference cfg trace).2 i).length ≤ cfg.numBlocks.toNat := by
  have ha := (handleError_eq_zero_iff cfg).mp haccept
  have hcap : 0 < cfg.numBlocks.toNat := by
    obtain ⟨k, hk⟩ := hg.numBlocks
    rw [hk]
    exact Nat.two_pow_pos k
  obtain ⟨events, s, hrun, hevents, htracks, hstats⟩ := run_spec ha hg.fits hcap trace _
    CacheStats.zero 0 _ _ (tracks_init cfg) (by omega)
  have href : reference cfg trace = (events.map fun e => (e.op, e.hit),
      blocksOf cfg (orderRun cfg (fun _ => []) events)) :=
    refRun_eq (numSets_pos ha) trace (fun _ => []) events hevents
  rw [href]
  refine ⟨events, s, hrun, rfl, tally_of_countRun hstats (hevents.length_eq ▸ hlen), ?_⟩
  exact fun i hi => residentBlocks_perm htracks hi

/-- Two sets of two blocks of four bytes. -/
def smallConfig : Config :=
  { numSets := 2, numBlocks := 2, numBytes := 4, allocation := true, write := false, lru := true }

theorem smallConfig_accepted : (handleError smallConfig).2 = 0 :=
  (handleError_eq_zero_iff _).mpr ⟨⟨1, rfl⟩, ⟨2, rfl⟩, by decide, by decide⟩

theorem run_refines_reference_smallConfig :
    smallConfig.Geometry ∧ (handleError smallConfig).2 = 0 ∧
    ∃ events s, Reaches smallConfig
        [⟨.store, 0⟩, ⟨.load, 8⟩, ⟨.load, 0⟩, ⟨.load, 16⟩, ⟨.load, 8⟩] events s ∧
      (events.map fun e => (e.op, e.hit)) = [(.store, false), (.load, false), (.load, true),
        (.load, false), (.load, false)] := by
  have hg : smallConfig.Geometry := ⟨⟨1, rfl⟩, ⟨1, rfl⟩, ⟨2, rfl⟩, by decide, by decide⟩
  obtain ⟨events, s, hreach, hevents, -⟩ := run_refines_reference smallConfig hg smallConfig_accepted
    [⟨.store, 0⟩, ⟨.load, 8⟩, ⟨.load, 0⟩, ⟨.load, 16⟩, ⟨.load, 8⟩] (by decide)
  exact ⟨hg, smallConfig_accepted, events, s, hreach, hevents.trans (by decide)⟩

end Csf.CacheSim
