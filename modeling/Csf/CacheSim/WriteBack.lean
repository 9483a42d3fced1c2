import Csf.CacheSim.Reference

/-!
# Cache simulator: dirty flags under write-back

The history of a block is whether a store to it has been processed since it was
last placed. `NoStoreLost` says that the dirty flags are that history, and that
an eviction is charged a write-back by it. A store hit sets the flag, but a
store that misses under write-allocate places its block clean: the flags follow
the history exactly on the runs in which every store hits.
-/

namespace Csf.CacheSim

open Csf.Lib Csf.Lib.Replacement

/-- Whether a store to block `tag` of set `index` has been processed since the
block was last placed, the store that placed it included. Every miss places its
block, so a miss of this block restarts the history. -/
def storedSinceFill (events : List Event) (index tag : UInt32) : Bool :=
  events.foldl (fun stored e =>
    if e.index = index ∧ e.tag = tag then e.op == .store || (e.hit && stored) else stored) false

/-- The dirty flags and the write-back charges of `s` are those of the history
`events`. -/
structure NoStoreLost (cfg : Config) (events : List Event) (s : Sim) : Prop where
  dirty_iff : ∀ index set, s.cache.setAt index = .ok set → ∀ b ∈ set.blocks, b.valid = true →
    (b.dirty = true ↔ storedSinceFill events index b.tag = true)
  writeBack : ∀ index tag set, s.cache.setAt index = .ok set →
    hit index tag s.cache = .ok false → findEmptySpot set = set.blocks.length →
    ∃ j victim, chooseEvictedBlock set cfg.lru = some j ∧ set.blocks[j]? = some victim ∧
      victim.valid = true ∧ ∀ stats, ∃ cache',
        placeInCache index tag cfg.lru cfg.numBytes s.cache stats =
          .ok (cache', if storedSinceFill events index victim.tag
            then stats.addCycles (transferCycles cfg.numBytes) else stats)

/-! ## Runs and their prefixes -/

theorem length_of_run {cfg : Config} : ∀ {trace : List Access} {s₀ s : Sim} {events : List Event},
    run cfg trace s₀ = .ok (events, s) → events.length = trace.length := by
  intro trace
  induction trace with
  | nil =>
      intro s₀ s events h
      cases h
      rfl
  | cons a rest ih =>
      intro s₀ s events h
      simp only [run, bind_eq_ok, pure_eq_ok, Prod.mk.injEq] at h
      obtain ⟨e, -, s₁, -, ⟨events', s'⟩, hrest, rfl, rfl⟩ := h
      rw [List.length_cons, List.length_cons, ih hrest]

/-- A run passes through the state after each of its prefixes. -/
theorem Reaches.split {cfg : Config} (pre post : List Access) {events : List Event} {s : Sim}
    (h : Reaches cfg (pre ++ post) events s) :
    ∃ s₁, Reaches cfg pre (events.take pre.length) s₁ := by
  rw [Reaches, run_append] at h
  simp only [bind_eq_ok, pure_eq_ok, Prod.mk.injEq] at h
  obtain ⟨⟨events₁, s₁⟩, hpre, ⟨events₂, s₂⟩, -, rfl, -⟩ := h
  refine ⟨s₁, ?_⟩
  rw [← length_of_run hpre, List.take_left]
  exact hpre

theorem EventsOf.index_lt {cfg : Config} (ha : cfg.Accepted) : ∀ {trace : List Access}
    {orders : Nat → List UInt32} {events : List Event}, EventsOf cfg orders trace events →
    ∀ {e : Event}, e ∈ events → e.index.toNat < cfg.numSets.toNat := by
  intro trace
  induction trace with
  | nil =>
      rintro orders events rfl e he
      exact absurd he List.not_mem_nil
  | cons a rest ih =>
      rintro orders events ⟨e', events', rfl, -, hindex, -, -, hevents⟩ e he
      rcases List.mem_cons.mp he with rfl | he
      · rw [hindex]
        exact Nat.mod_lt _ (numSets_pos ha)
      · exact ih hevents he

/-- What a state reached by an accepted configuration holds. -/
theorem Reaches.tracks {cfg : Config} (ha : cfg.Accepted) (hcap : 0 < cfg.numBlocks.toNat)
    {trace : List Access} (hlen : trace.length < 2 ^ 32) {events : List Event} {s : Sim}
    (h : Reaches cfg trace events s) :
    EventsOf cfg (fun _ => []) trace events ∧
      Tracks cfg s.cache trace.length (orderRun cfg (fun _ => []) events)
        (dirtyRun cfg (fun _ _ => False) events) := by
  cases htrace : trace with
  | nil =>
      rw [htrace] at h
      cases h
      exact ⟨rfl, tracks_init cfg⟩
  | cons a rest =>
      have hfit : cfg.numSets.toNat * cfg.numBytes.toNat ≤ 2 ^ 32 := by
        rw [htrace] at h
        simp only [Reaches, run, bind_eq_ok] at h
        obtain ⟨e, he, -⟩ := h
        simp only [observe, bind_eq_ok] at he
        obtain ⟨index, hindex, -⟩ := he
        exact fits_of_readIndex ha hindex
      obtain ⟨events', s', hrun, hevents, htracks, -⟩ := run_spec ha hfit hcap trace _
        CacheStats.zero 0 _ _ (tracks_init cfg) (by omega)
      obtain ⟨rfl, rfl⟩ := Prod.mk.inj (Except.ok.inj (hrun.symm.trans h))
      rw [← htrace]
      exact ⟨hevents, by rw [Nat.zero_add] at htracks; exact htracks⟩

/-! ## The flags against the history -/

section

variable {cfg : Config}

theorem storedSinceFill_append (events : List Event) (e : Event) (index tag : UInt32) :
    storedSinceFill (events ++ [e]) index tag =
      if e.index = index ∧ e.tag = tag then
        e.op == .store || (e.hit && storedSinceFill events index tag)
      else storedSinceFill events index tag := by
  simp [storedSinceFill, List.foldl_append]

theorem dirtyRun_append (events : List Event) (e : Event) (index tag : UInt32) :
    dirtyRun cfg (fun _ _ => False) (events ++ [e]) index.toNat tag ↔
      if e.index = index then
        dirtyStep cfg e.op e.tag e.hit (dirtyRun cfg (fun _ _ => False) events index.toNat) tag
      else dirtyRun cfg (fun _ _ => False) events index.toNat tag := by
  simp only [dirtyRun, List.foldl_append, List.foldl_cons, List.foldl_nil]
  by_cases h : e.index = index
  · subst h
    simp
  · have hne : index.toNat ≠ e.index.toNat := fun heq => h (UInt32.toNat_inj.mp heq.symm)
    rw [Function.update_of_ne hne, if_neg h]

/-- While every store hits, the flags are the history. -/
theorem dirtyRun_iff (hwrite : cfg.write = false)
    {events : List Event} (hstores : ∀ e ∈ events, e.op = .store → e.hit = true)
    (index tag : UInt32) :
    dirtyRun cfg (fun _ _ => False) events index.toNat tag ↔
      storedSinceFill events index tag = true := by
  induction events using List.reverseRecOn with
  | nil => simp [dirtyRun, storedSinceFill]
  | append_singleton events e ih =>
      have ih := ih fun e' he' => hstores e' (List.mem_append_left _ he')
      have he := hstores e (by simp)
      rw [dirtyRun_append, storedSinceFill_append]
      by_cases hindex : e.index = index
      · by_cases htag : e.tag = tag
        · cases hop : e.op <;> cases hhit : e.hit
          all_goals simp_all [dirtyStep, allocates]
        · have htag' : ¬ tag = e.tag := fun heq => htag heq.symm
          cases hop : e.op <;> cases hhit : e.hit
          all_goals simp_all [dirtyStep, allocates]
      · simp [hindex, ih]

/-- A store that misses under write-allocate leaves its block clean. -/
theorem not_dirtyRun_of_storeMiss (halloc : cfg.allocation = true) (events : List Event)
    {e : Event} (hop : e.op = .store) (hhit : e.hit = false) :
    ¬ dirtyRun cfg (fun _ _ => False) (events ++ [e]) e.index.toNat e.tag := by
  rw [dirtyRun_append, if_pos rfl, hop, hhit]
  simp [dirtyStep, allocates, halloc]

/-- An allocating access leaves its block resident. -/
theorem mem_orderRun_append (orders : Nat → List UInt32) (events : List Event) {e : Event}
    (halloc : allocates cfg e.op = true) :
    e.tag ∈ orderRun cfg orders (events ++ [e]) e.index.toNat := by
  simp only [orderRun, List.foldl_append, List.foldl_cons, List.foldl_nil, Function.update_self]
  rw [halloc, access]
  split
  · next h => exact (touch_perm h).mem_iff.mpr h
  · simp [fill]

/-- A state whose flags are the history loses no store. -/
theorem noStoreLost_of_tracks {s : Sim} {time : Nat} {orders : Nat → List UInt32}
    {stored : Nat → UInt32 → Prop} (hcap : 0 < cfg.numBlocks.toNat)
    (h : Tracks cfg s.cache time orders stored) {events : List Event}
    (hstored : ∀ index tag : UInt32, stored index.toNat tag ↔
      storedSinceFill events index tag = true) :
    NoStoreLost cfg events s := by
  refine ⟨?_, ?_⟩
  · intro index set hset b hb hv
    obtain ⟨-, -, hd⟩ := h.represents _ set (Cache.setAt_eq_ok.mp hset)
    exact (hd b hb hv).trans (hstored index b.tag)
  · intro index tag set hset _ hfull
    have hset' := Cache.setAt_eq_ok.mp hset
    obtain ⟨hr, -, hd⟩ := h.represents _ set hset'
    have hlen : (orders index.toNat).length = cfg.numBlocks.toNat := by
      rw [← hr.slots.length_blocks, ← hfull]
      exact hr.slots.size_eq.symm
    cases horder : orders index.toNat with
    | nil =>
        rw [horder, List.length_nil] at hlen
        omega
    | cons oldest rest =>
        rw [horder] at hr hlen
        obtain ⟨j, victim, hj, hb, -⟩ := hr.chooseEvictedBlock hlen
        have hjlt := (List.getElem?_eq_some_iff.mp hb).1
        have hv : victim.valid = true := (hr.slots.valid_iff j victim hb).mpr (by
          rw [hlen, ← hr.slots.length_blocks]
          exact hjlt)
        refine ⟨j, victim, hj, hb, hv, fun stats =>
          ⟨s.cache.putSet index (set.replaced j victim tag cfg.lru), ?_⟩⟩
        rw [placeInCache_full hr hset' hlen hj hb]
        have hflag := (hd victim (List.mem_of_getElem? hb) hv).trans (hstored index victim.tag)
        cases hdirty : victim.dirty <;> simp_all

/-- A store that misses loses its store. -/
theorem not_noStoreLost_of_storeMiss {s : Sim} {time : Nat} {events : List Event} {e : Event}
    (halloc : cfg.allocation = true) (hop : e.op = .store) (hhit : e.hit = false)
    (hi : e.index.toNat < cfg.numSets.toNat)
    (h : Tracks cfg s.cache time (orderRun cfg (fun _ => []) (events ++ [e]))
      (dirtyRun cfg (fun _ _ => False) (events ++ [e]))) :
    ¬ NoStoreLost cfg (events ++ [e]) s := by
  intro hno
  obtain ⟨set, hset⟩ := h.setAt hi
  obtain ⟨hr, -, hd⟩ := h.represents _ set hset
  obtain ⟨i, block, -, hlt, hb, htag⟩ :=
    hr.lookup (mem_orderRun_append (fun _ => []) events (by rw [hop]; exact halloc))
  have hv := (hr.slots.valid_iff _ block hb).mpr hlt
  have hmem := List.mem_of_getElem? hb
  have hdirty := (hno.dirty_iff e.index set (Cache.setAt_eq_ok.mpr hset) block hmem hv).mpr (by
    rw [htag, storedSinceFill_append, if_pos ⟨rfl, rfl⟩, hop]
    rfl)
  rw [hd block hmem hv, htag] at hdirty
  exact not_dirtyRun_of_storeMiss halloc events hop hhit hdirty

/-- On a run, the flags and the write-back charges are those of the history in
every state passed exactly when every store of the run hits. -/
theorem noStoreLost_iff_stores_hit (haccept : (handleError cfg).2 = 0)
    (halloc : cfg.allocation = true) (hwrite : cfg.write = false)
    (hcap : 0 < cfg.numBlocks.toNat) {trace : List Access} (hlen : trace.length < 2 ^ 32)
    {events : List Event} {s : Sim} (hrun : Reaches cfg trace events s) :
    (∀ pre, pre <+: trace → ∀ events' s', Reaches cfg pre events' s' →
      NoStoreLost cfg events' s') ↔
    ∀ e ∈ events, e.op = .store → e.hit = true := by
  have ha := (handleError_eq_zero_iff cfg).mp haccept
  constructor
  · intro hall e he hop
    by_contra hmiss
    have hhit : e.hit = false := Bool.eq_false_iff.mpr hmiss
    -- stop the run right after the store
    obtain ⟨before, after, rfl⟩ := List.append_of_mem he
    have hlength := length_of_run hrun
    obtain ⟨post, hpost⟩ := List.take_prefix (before.length + 1) trace
    obtain ⟨s', hs'⟩ := Reaches.split _ post (hpost.symm ▸ hrun)
    have htake : (before ++ e :: after).take (trace.take (before.length + 1)).length =
        before ++ [e] := by
      rw [List.length_take, min_eq_left (by rw [← hlength]; simp), List.take_append]
      simp
    rw [htake] at hs'
    have hshort : (trace.take (before.length + 1)).length < 2 ^ 32 :=
      lt_of_le_of_lt (List.length_take_le' _ _) hlen
    obtain ⟨hevents, htracks⟩ := hs'.tracks ha hcap hshort
    exact not_noStoreLost_of_storeMiss halloc hop hhit (hevents.index_lt ha (by simp)) htracks
      (hall _ ⟨post, hpost⟩ _ _ hs')
  · rintro hstores pre ⟨post, rfl⟩ events' s' hs'
    obtain ⟨s₁, hs₁⟩ := Reaches.split pre post hrun
    obtain ⟨rfl, rfl⟩ := Prod.mk.inj (Except.ok.inj (hs₁.symm.trans hs'))
    have hshort : pre.length < 2 ^ 32 := by
      rw [List.length_append] at hlen
      omega
    obtain ⟨-, htracks⟩ := hs'.tracks ha hcap hshort
    refine noStoreLost_of_tracks hcap htracks (dirtyRun_iff hwrite ?_)
    exact fun e he => hstores e (List.mem_of_mem_take he)

end

/-- The equivalence on a run that loads a block and then stores to it. -/
theorem noStoreLost_iff_stores_hit_smallConfig : ∃ events s,
    Reaches smallConfig [⟨.load, 0⟩, ⟨.store, 0⟩] events s ∧
    ((∀ pre, pre <+: [⟨.load, 0⟩, ⟨.store, 0⟩] → ∀ events' s',
      Reaches smallConfig pre events' s' → NoStoreLost smallConfig events' s') ↔
    ∀ e ∈ events, e.op = .store → e.hit = true) := by
  have ha : smallConfig.Accepted := ⟨⟨1, rfl⟩, ⟨2, rfl⟩, by decide, by decide⟩
  obtain ⟨events, s, hrun, -⟩ := run_spec ha (by decide) (by decide) [⟨.load, 0⟩, ⟨.store, 0⟩] _
    CacheStats.zero 0 _ _ (tracks_init smallConfig) (by decide)
  exact ⟨events, s, hrun, noStoreLost_iff_stores_hit ((handleError_eq_zero_iff _).mpr ha) rfl rfl
    (by decide) (by decide) hrun⟩

/-- One set of one block of four bytes, write-allocate and write-back. -/
def oneBlock : Config :=
  { numSets := 1, numBlocks := 1, numBytes := 4, allocation := true, write := false, lru := true }

/-- With a single set, address 0 has index 0 and tag 0. -/
theorem oneSet_fields {numBytes : UInt32} {b : Nat} (hb : numBytes.toNat = 2 ^ b) :
    readIndex 0 1 numBytes = .ok 0 ∧ readTag 0 1 numBytes = .ok 0 := by
  have hs : (1 : UInt32).toNat = 2 ^ 0 := rfl
  have hfit : 0 + b ≤ 32 := by
    have := exponent_lt hb
    omega
  obtain ⟨index, hindex, hindexVal⟩ := readIndex_eq hs hb hfit 0
  obtain ⟨tag, htag, htagVal⟩ := readTag_eq hs hb hfit 0
  have hindex0 : index = 0 := UInt32.toNat_inj.mp (by simp [hindexVal])
  have htag0 : tag = 0 := UInt32.toNat_inj.mp (by simp [htagVal])
  exact ⟨hindex0 ▸ hindex, htag0 ▸ htag⟩

/-- A store to the empty cache: its block is resident and clean, although it
holds a store that memory does not have. -/
theorem storeMiss_loses_store : (handleError oneBlock).2 = 0 ∧
    ∃ s, Reaches oneBlock [⟨.store, 0⟩] [⟨.store, 0, 0, false⟩] s ∧
      s.cache.sets.map CacheSet.blocks = [[⟨0, 0, 0, true, false⟩]] ∧
      ¬ NoStoreLost oneBlock [⟨.store, 0, 0, false⟩] s := by
  have hbytes : (4 : UInt32).toNat = 2 ^ 2 := rfl
  obtain ⟨hindex, htag⟩ := oneSet_fields hbytes
  refine ⟨(handleError_eq_zero_iff _).mpr ⟨⟨0, rfl⟩, ⟨2, rfl⟩, by decide, by decide⟩, ?_⟩
  simp only [Reaches, run, observe, Sim.step, cacheHandler, oneBlock, hindex, htag, ok_bind]
  refine ⟨_, rfl, rfl, fun h => ?_⟩
  have hdirty := (h.dirty_iff 0 _ rfl _ (List.mem_singleton_self _) rfl).mpr rfl
  exact absurd hdirty (by decide)

end Csf.CacheSim
