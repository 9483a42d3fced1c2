import Csf.CacheSim.Sets
import Csf.CacheSim.WriteBack

/-!
# Cache simulator: which block a placement overwrites

`choose_evicted_block` finds a block only if some time lies strictly below the
clock of the set. That holds while the clock, which every use of the set advances,
has not wrapped, and if the set has blocks at all; `handle_error` returns on every
bad size but that of `num_blocks`. In a run of any length, a set whose clock was
advanced fewer than 2^32 times places into a slot of its own, and evicts the block
that was used least recently.

The clocks of the sets are independent: what is said of one set holds whatever
happened to the others.
-/

namespace Csf.CacheSim

open Csf.Lib Csf.Lib.Replacement

/-! ## The history of a set -/

/-- How often the clock of set `index` was advanced. -/
def clock (cfg : Config) (events : List Event) (index : ℕ) : ℕ :=
  events.countP fun e => decide (e.index.toNat = index) && ticks cfg e.op e.hit

/-- The event stamps block `tag` of set `index`: under lru every access that finds or
places it, under fifo the one that places it. -/
def Stamps (cfg : Config) (e : Event) (index : ℕ) (tag : UInt32) : Prop :=
  e.index.toNat = index ∧ e.tag = tag ∧ ticks cfg e.op e.hit = true

/-- `tag` was stamped after the last time that `old` was. -/
def StampedAfter (cfg : Config) (events : List Event) (index : ℕ) (tag old : UInt32) : Prop :=
  ∃ pre post, events = pre ++ post ∧ (∃ e ∈ post, Stamps cfg e index tag) ∧
    ∀ e ∈ post, ¬ Stamps cfg e index old

/-- What a placement into a set needs: it runs without fault, and if the set is full, the
scan finds a block older than the clock, the one stamped least recently. -/
structure SafePlacement (cfg : Config) (events : List Event) (cache : Cache) (index : UInt32)
    (set : CacheSet) : Prop where
  placed : ∀ tag stats, ∃ r,
    placeInCache index tag cfg.lru cfg.numBytes cache stats = .ok r
  victim : findEmptySpot set = set.blocks.length →
    ∃ j block, chooseEvictedBlock set cfg.lru = some j ∧ set.blocks[j]? = some block ∧
      block.time cfg.lru < set.timestamp ∧
      ∀ k other, k ≠ j → set.blocks[k]? = some other →
        StampedAfter cfg events index.toNat other.tag block.tag

/-- A set whose clock has not wrapped represents the order of its history, and its
timestamp is the clock. -/
structure Clocked (cfg : Config) (cache : Cache) (events : List Event) : Prop where
  represents : ∀ i set, cache.sets[i]? = some set → clock cfg events i < 2 ^ 32 →
    Represents cfg.lru cfg.numBlocks set (orderRun cfg (fun _ => []) events i)
  timestamp : ∀ i set, cache.sets[i]? = some set → clock cfg events i < 2 ^ 32 →
    set.timestamp.toNat = clock cfg events i
  stamped : ∀ i set, cache.sets[i]? = some set → clock cfg events i < 2 ^ 32 →
    (orderRun cfg (fun _ => []) events i).Pairwise fun old tag =>
      StampedAfter cfg events i tag old

section

variable {cfg : Config} {events : List Event} {e : Event} {i : ℕ}

theorem clock_append : clock cfg (events ++ [e]) i =
    clock cfg events i + if e.index.toNat = i then (ticks cfg e.op e.hit).toNat else 0 := by
  rw [clock, List.countP_append, ← clock, List.countP_singleton]
  by_cases hi : e.index.toNat = i
  · cases ticks cfg e.op e.hit <;> simp [hi]
  · simp [hi]

theorem orderRun_append_of_ne (hi : e.index.toNat ≠ i) :
    orderRun cfg (fun _ => []) (events ++ [e]) i = orderRun cfg (fun _ => []) events i := by
  rw [orderRun, List.foldl_append, ← orderRun]
  exact Function.update_of_ne (Ne.symm hi) _ _

theorem orderRun_append_self :
    orderRun cfg (fun _ => []) (events ++ [e]) e.index.toNat =
      (access (policyOf cfg.lru) cfg.numBlocks.toNat (allocates cfg e.op) e.tag
        (orderRun cfg (fun _ => []) events e.index.toNat)).2 := by
  rw [orderRun, List.foldl_append, ← orderRun]
  exact Function.update_self _ _ _

/-- An event that does not stamp `old` keeps what came after it. -/
theorem StampedAfter.append {tag old : UInt32} (h : StampedAfter cfg events i tag old)
    (he : ¬ Stamps cfg e i old) : StampedAfter cfg (events ++ [e]) i tag old := by
  obtain ⟨pre, post, rfl, ⟨f, hf, hstamp⟩, hold⟩ := h
  refine ⟨pre, post ++ [e], List.append_assoc _ _ _, ⟨f, List.mem_append_left _ hf, hstamp⟩, ?_⟩
  intro g hg
  rcases List.mem_append.mp hg with hg | hg
  · exact hold g hg
  · rw [List.mem_singleton.mp hg]
    exact he

/-- The event just processed came after all others. -/
theorem stampedAfter_last {old : UInt32} (he : Stamps cfg e i e.tag) (hne : e.tag ≠ old) :
    StampedAfter cfg (events ++ [e]) i e.tag old := by
  refine ⟨events, [e], rfl, ⟨e, List.mem_singleton_self e, he⟩, ?_⟩
  intro f hf hold
  rw [List.mem_singleton.mp hf] at hold
  exact hne hold.2.1

/-- A request that stamps its key moves it to the young end; any other leaves the order. -/
theorem access_order {order : List UInt32} (hnodup : order.Nodup)
    (hhit : e.hit = decide (e.tag ∈ order)) :
    if ticks cfg e.op e.hit = true then
      ∃ rest, rest.Sublist order ∧ e.tag ∉ rest ∧ (access (policyOf cfg.lru) cfg.numBlocks.toNat
        (allocates cfg e.op) e.tag order).2 = rest ++ [e.tag]
    else (access (policyOf cfg.lru) cfg.numBlocks.toNat (allocates cfg e.op) e.tag order).2 =
      order := by
  unfold access
  by_cases hmem : e.tag ∈ order
  · rw [hhit, decide_eq_true hmem, if_pos hmem]
    show if cfg.lru = true then _ else _
    cases cfg.lru with
    | true =>
        exact ⟨order.erase e.tag, List.erase_sublist, fun h => (hnodup.mem_erase_iff.mp h).1 rfl,
          rfl⟩
    | false => rfl
  · rw [hhit, decide_eq_false hmem, if_neg hmem]
    show if allocates cfg e.op = true then _ else _
    cases allocates cfg e.op with
    | true =>
        rw [if_pos rfl, if_pos rfl]
        refine ⟨if order.length < cfg.numBlocks.toNat then order else order.tail, ?_, ?_, rfl⟩
        · split
          · exact List.Sublist.refl order
          · exact List.tail_sublist order
        · split
          · exact hmem
          · exact fun h => hmem (List.mem_of_mem_tail h)
    | false =>
        rw [if_neg Bool.false_ne_true, if_neg Bool.false_ne_true]

/-- The order of a set stays the order of its stamps. -/
theorem stamped_append {order : List UInt32} (hnodup : order.Nodup)
    (hhit : e.hit = decide (e.tag ∈ order)) (h : order.Pairwise fun old tag =>
      StampedAfter cfg events e.index.toNat tag old) :
    (access (policyOf cfg.lru) cfg.numBlocks.toNat (allocates cfg e.op) e.tag order).2.Pairwise
      fun old tag => StampedAfter cfg (events ++ [e]) e.index.toNat tag old := by
  have horder := @access_order cfg e order hnodup hhit
  split at horder
  · next htick =>
      obtain ⟨rest, hrest, hnot, heq⟩ := horder
      rw [heq]
      refine List.pairwise_append.mpr ⟨?_, List.pairwise_singleton _ _, ?_⟩
      · refine (h.sublist hrest).imp_of_mem fun hold _ hafter => hafter.append ?_
        rintro ⟨-, rfl, -⟩
        exact hnot hold
      · intro old hold tag htag
        rw [List.mem_singleton.mp htag]
        exact stampedAfter_last ⟨rfl, rfl, htick⟩ fun heq => hnot (heq ▸ hold)
  · next htick =>
      rw [horder]
      exact h.imp fun hafter => hafter.append fun hstamp => htick hstamp.2.2

end

/-! ## The other sets -/

/-- Nothing but the set at `index` differs. -/
def SameElsewhere (index : UInt32) (cache cache' : Cache) : Prop :=
  ∀ k, k ≠ index.toNat → cache'.sets[k]? = cache.sets[k]?

/-- One round of `main`'s loop changes the set that it addresses. -/
theorem step_elsewhere {cfg : Config} {e : Event} {s s' : Sim} {a : Access}
    (he : observe cfg s.cache a = .ok e)
    (hs : s.step cfg a = .ok s') : SameElsewhere e.index s.cache s'.cache := by
  obtain ⟨hindex, -, -, -⟩ := observe_eq_ok he
  obtain ⟨index, tag, set, r, hindex', -, -, -, rfl⟩ := step_access hs
  obtain rfl := Except.ok.inj (hindex.symm.trans hindex')
  exact fun k hk => Cache.getElem?_putSet_of_ne hk

/-! ## Runs -/

theorem clocked_init (cfg : Config) : Clocked cfg (Sim.init cfg).cache [] := by
  have hset : ∀ {i : ℕ} {set : CacheSet}, (Sim.init cfg).cache.sets[i]? = some set →
      set = { blocks := List.replicate cfg.numBlocks.toNat ⟨0, 0, 0, false, false⟩
              tagIndex := ∅, timestamp := 0 } :=
    fun hi => List.eq_of_mem_replicate (List.mem_of_getElem? hi)
  refine ⟨?_, ?_, ?_⟩
  · intro i set hi _
    rw [hset hi]
    exact represents_empty _ _ rfl
  · intro i set hi _
    rw [hset hi]
    rfl
  · intro i set _ _
    exact List.Pairwise.nil

section

variable {cfg : Config} {events : List Event} {e : Event}

/-- One round of `main`'s loop, for the set that it addresses. -/
theorem Clocked.addressed (hcap : 0 < cfg.numBlocks.toNat) {s s' : Sim} {a : Access}
    (h : Clocked cfg s.cache events) (he : observe cfg s.cache a = .ok e)
    (hs : s.step cfg a = .ok s') {set' : CacheSet}
    (hset' : s'.cache.sets[e.index.toNat]? = some set')
    (hclock : clock cfg (events ++ [e]) e.index.toNat < 2 ^ 32) :
    Represents cfg.lru cfg.numBlocks set'
        (orderRun cfg (fun _ => []) (events ++ [e]) e.index.toNat) ∧
      set'.timestamp.toNat = clock cfg (events ++ [e]) e.index.toNat ∧
      (orderRun cfg (fun _ => []) (events ++ [e]) e.index.toNat).Pairwise fun old tag =>
        StampedAfter cfg (events ++ [e]) e.index.toNat tag old := by
  obtain ⟨hindex, htag, hhit, hop⟩ := observe_eq_ok he
  obtain ⟨set, hset, -⟩ := bind_eq_ok.mp hhit
  have hset := Cache.setAt_eq_ok.mp hset
  -- the clock of the set has not wrapped before this access either
  rw [clock_append, if_pos rfl] at hclock
  have hbefore : clock cfg events e.index.toNat < 2 ^ 32 :=
    lt_of_le_of_lt (Nat.le_add_right _ _) hclock
  have hr := h.represents _ set hset hbefore
  have hts := h.timestamp _ set hset hbefore
  have hhit' : e.hit = decide (e.tag ∈ orderRun cfg (fun _ => []) events e.index.toNat) :=
    Except.ok.inj (hhit.symm.trans (hr.hit_eq hset e.tag))
  have htick : ticks cfg a.op (decide (e.tag ∈ orderRun cfg (fun _ => []) events
      e.index.toNat)) = true → set.timestamp.toNat + 1 < 2 ^ 32 := by
    intro htick
    rw [← hhit', hop] at htick
    rw [htick] at hclock
    rw [hts]
    exact hclock
  obtain ⟨set₁, cycles, -, hstep, haccessed⟩ :=
    step_accessed hr hset hcap hindex htag htick s.stats
  have hcache := congrArg Sim.cache (Except.ok.inj (hstep.symm.trans hs))
  obtain rfl : set₁ = set' := by
    rw [← hcache] at hset'
    simpa [Cache.putSet, (List.getElem?_eq_some_iff.mp hset).1] using hset'
  rw [hop] at haccessed
  rw [orderRun_append_self, clock_append, if_pos rfl, ← hts]
  refine ⟨haccessed.represents, ?_, stamped_append hr.nodup hhit' (h.stamped _ set hset hbefore)⟩
  rw [haccessed.timestamp, hhit']

/-- One round of `main`'s loop. -/
theorem Clocked.step (hcap : 0 < cfg.numBlocks.toNat) {s s' : Sim} {a : Access}
    (h : Clocked cfg s.cache events) (he : observe cfg s.cache a = .ok e)
    (hs : s.step cfg a = .ok s') : Clocked cfg s'.cache (events ++ [e]) := by
  have hall : ∀ i set, s'.cache.sets[i]? = some set → clock cfg (events ++ [e]) i < 2 ^ 32 →
      Represents cfg.lru cfg.numBlocks set (orderRun cfg (fun _ => []) (events ++ [e]) i) ∧
        set.timestamp.toNat = clock cfg (events ++ [e]) i ∧
        (orderRun cfg (fun _ => []) (events ++ [e]) i).Pairwise fun old tag =>
          StampedAfter cfg (events ++ [e]) i tag old := by
    intro i set hset hclock
    by_cases hi : e.index.toNat = i
    · subst hi
      exact h.addressed hcap he hs hset hclock
    · -- a set that is not addressed keeps its blocks, its clock and its order
      have hset' : s.cache.sets[i]? = some set :=
        (step_elsewhere he hs i (Ne.symm hi)).symm.trans hset
      rw [clock_append, if_neg hi, Nat.add_zero] at hclock ⊢
      rw [orderRun_append_of_ne hi]
      refine ⟨h.represents i set hset' hclock, h.timestamp i set hset' hclock, ?_⟩
      exact (h.stamped i set hset' hclock).imp fun hafter =>
        hafter.append fun hstamp => hi hstamp.1
  exact ⟨fun i set hset hclock => (hall i set hset hclock).1,
    fun i set hset hclock => (hall i set hset hclock).2.1,
    fun i set hset hclock => (hall i set hset hclock).2.2⟩

/-- A run of any length. -/
theorem Clocked.run (hcap : 0 < cfg.numBlocks.toNat) : ∀ {trace : List Access} {s s' : Sim}
    {past events : List Event}, Clocked cfg s.cache past →
    CacheSim.run cfg trace s = .ok (events, s') → Clocked cfg s'.cache (past ++ events) := by
  intro trace
  induction trace with
  | nil =>
      intro s s' past events h hrun
      cases hrun
      rwa [List.append_nil]
  | cons a rest ih =>
      intro s s' past events h hrun
      simp only [CacheSim.run, bind_eq_ok, pure_eq_ok, Prod.mk.injEq] at hrun
      obtain ⟨e, he, s₁, hs, ⟨events', s₂⟩, hrest, rfl, rfl⟩ := hrun
      have hclocked := ih (h.step hcap he hs) hrest
      rwa [List.append_assoc] at hclocked

end

/-! ## Placements -/

section

variable {cfg : Config} {events : List Event} {cache : Cache} {set : CacheSet}

/-- A placement into a represented set runs without fault. -/
theorem placeInCache_ok {lru : Bool} {numBlocks : UInt32} {order : List UInt32}
    (h : Represents lru numBlocks set order) (hcap : 0 < numBlocks.toNat) {index : UInt32}
    (hset : cache.sets[index.toNat]? = some set) (tag numBytes : UInt32) (stats : CacheStats) :
    ∃ r, placeInCache index tag lru numBytes cache stats = .ok r := by
  rcases Nat.lt_or_ge order.length numBlocks.toNat with hfree | hge
  · exact ⟨_, placeInCache_free h hset hfree tag numBytes stats⟩
  · have hfull : order.length = numBlocks.toNat := le_antisymm h.slots.le_capacity hge
    cases order with
    | nil =>
        rw [List.length_nil] at hfull
        omega
    | cons oldest rest =>
        obtain ⟨j, victim, hj, hb, -⟩ := h.chooseEvictedBlock hfull
        exact ⟨_, placeInCache_full h hset hfull hj hb tag numBytes stats⟩

/-- A set whose clock has not wrapped is safe to place into. -/
theorem Clocked.safePlacement (hcap : 0 < cfg.numBlocks.toNat) (h : Clocked cfg cache events)
    {index : UInt32} (hset : cache.sets[index.toNat]? = some set)
    (hclock : clock cfg events index.toNat < 2 ^ 32) :
    SafePlacement cfg events cache index set := by
  have hr := h.represents _ set hset hclock
  have hstamped := h.stamped _ set hset hclock
  refine ⟨fun tag stats => placeInCache_ok hr hcap hset tag cfg.numBytes stats, fun hslot => ?_⟩
  have hfull : (orderRun cfg (fun _ => []) events index.toNat).length = cfg.numBlocks.toNat := by
    rw [← hr.slots.size_eq, ← hr.slots.length_blocks]
    exact hslot
  cases horder : orderRun cfg (fun _ => []) events index.toNat with
  | nil =>
      rw [horder, List.length_nil] at hfull
      omega
  | cons oldest rest =>
      -- the victim is the head of the order; every other block of the set is in its tail
      rw [horder] at hr hstamped hfull
      obtain ⟨j, victim, hj, hb, hv⟩ := hr.chooseEvictedBlock hfull
      have hall : set.blocks.take (oldest :: rest).length = set.blocks :=
        List.take_of_length_le (by rw [hr.slots.length_blocks, hfull])
      have hbelow := hr.below victim (by rw [hall]; exact List.mem_of_getElem? hb)
      refine ⟨j, victim, hj, hb, hbelow, fun k other hk hother => ?_⟩
      have hlt : ∀ {m : ℕ} {b : Block}, set.blocks[m]? = some b →
          m < (oldest :: rest).length := by
        intro m b hm
        rw [hfull, ← hr.slots.length_blocks]
        exact (List.getElem?_eq_some_iff.mp hm).1
      have hne : other.tag ≠ oldest := fun heq =>
        hk (hr.slots.tag_injective hother hb (hlt hother) (hlt hb) (heq.trans hv.symm))
      have hmem : other.tag ∈ oldest :: rest := by
        rw [hr.ordered.perm_tags.mem_iff, hall]
        exact List.mem_map_of_mem (List.mem_of_getElem? hother)
      rw [hv]
      exact (List.pairwise_cons.mp hstamped).1 _ ((List.mem_cons.mp hmem).resolve_left hne)

end

/-- With a free slot, whatever the clock of the set, a placement takes the slot. -/
theorem safePlacement_of_free {cfg : Config} {events : List Event} {cache : Cache}
    {index : UInt32} {set : CacheSet} (hset : cache.setAt index = .ok set)
    (hfree : findEmptySpot set < set.blocks.length) :
    SafePlacement cfg events cache index set := by
  refine ⟨fun tag stats => ?_, fun hfull => absurd hfull hfree.ne⟩
  obtain ⟨set', hfill⟩ : ∃ set', fillBlock set (findEmptySpot set) tag cfg.lru = .ok set' := by
    rw [fillBlock, if_pos hfree]
    exact ⟨_, rfl⟩
  rw [placeInCache, hset, ok_bind, if_neg hfree.ne, pure_bind]
  show ∃ r, (fillBlock set (findEmptySpot set) tag cfg.lru >>= _) = .ok r
  rw [hfill]
  exact ⟨_, rfl⟩

/-- **Placement.** In a state that any run reaches, whatever its length, a placement into a
set that has a free slot, or at least one block and a clock that was advanced fewer than 2^32
times, is safe: it stays in the set, and what it evicts is the block stamped least recently. -/
theorem placement_safe {cfg : Config} {trace : List Access} {events : List Event} {s : Sim}
    (hrun : Reaches cfg trace events s) {index : UInt32} {set : CacheSet}
    (hset : s.cache.setAt index = .ok set)
    (hsafe : findEmptySpot set < set.blocks.length ∨
      cfg.numBlocks ≠ 0 ∧ clock cfg events index.toNat < 2 ^ 32) :
    SafePlacement cfg events s.cache index set := by
  rcases hsafe with hfree | ⟨hblocks, hclock⟩
  · exact safePlacement_of_free hset hfree
  · have hcap : 0 < cfg.numBlocks.toNat := by
      rw [Nat.pos_iff_ne_zero]
      exact fun h => hblocks (UInt32.toNat_inj.mp h)
    have hclocked := (clocked_init cfg).run hcap hrun
    exact hclocked.safePlacement hcap (Cache.setAt_eq_ok.mp hset) hclock

/-- A placement after a run that fills the one block of a set. -/
theorem placement_safe_oneBlock : ∃ s set,
    Reaches oneBlock [⟨.load, 0⟩] [⟨.load, 0, 0, false⟩] s ∧ s.cache.setAt 0 = .ok set ∧
    SafePlacement oneBlock [⟨.load, 0, 0, false⟩] s.cache 0 set := by
  have hbytes : (4 : UInt32).toNat = 2 ^ 2 := rfl
  obtain ⟨hindex, htag⟩ := oneSet_fields hbytes
  obtain ⟨s, hrun, set, hset⟩ : ∃ s, Reaches oneBlock [⟨.load, 0⟩] [⟨.load, 0, 0, false⟩] s ∧
      ∃ set, s.cache.setAt 0 = .ok set := by
    simp only [Reaches, run, observe, Sim.step, cacheHandler, oneBlock, hindex, htag, ok_bind]
    exact ⟨_, rfl, _, rfl⟩
  exact ⟨s, set, hrun, hset, placement_safe hrun hset (.inr (by decide))⟩

/-- No blocks, which `handle_error` reports and lets through. -/
def noBlocks : Config :=
  { numSets := 1, numBlocks := 0, numBytes := 4, allocation := true, write := true, lru := true }

/-- Without blocks every set is full, the scan finds nothing, and the first load writes
through an iterator that was never assigned. -/
theorem noBlocks_unsafe : (handleError noBlocks).2 = 0 ∧
    Reaches noBlocks [] [] (Sim.init noBlocks) ∧
    run noBlocks [⟨.load, 0⟩] (Sim.init noBlocks) = .error .undefined ∧
    ∃ set, (Sim.init noBlocks).cache.setAt 0 = .ok set ∧ findEmptySpot set = set.blocks.length ∧
      chooseEvictedBlock set noBlocks.lru = none ∧
      ¬ SafePlacement noBlocks [] (Sim.init noBlocks).cache 0 set := by
  have hbytes : (4 : UInt32).toNat = 2 ^ 2 := rfl
  obtain ⟨hindex, htag⟩ := oneSet_fields hbytes
  refine ⟨(handleError_eq_zero_iff _).mpr ⟨⟨0, rfl⟩, ⟨2, rfl⟩, by decide, by decide⟩, rfl, ?_,
    _, rfl, rfl, rfl, fun h => ?_⟩
  · simp only [run, observe, Sim.step, cacheHandler, noBlocks, hindex, htag, ok_bind]
    rfl
  · obtain ⟨j, block, hj, -⟩ := h.victim rfl
    cases hj

/-! ## The bound is reached

A set of one block, loaded over and over: the load number 2^32 takes the clock back to 0,
and no time lies below it. -/

/-- The cache of `oneBlock` whose one block was last used at time `t`. -/
def loadedAt (t : UInt32) : Cache :=
  { sets := [{ blocks := [{ tag := 0, loadTime := 0, accessTime := t, valid := true
                            dirty := false }]
               tagIndex := (∅ : TagIndex).insert 0 0, timestamp := t + 1 }] }

/-- Loading the resident block `n` times. -/
theorem run_loads (n : ℕ) : ∀ (t : UInt32) (stats : CacheStats), ∃ events stats',
    run oneBlock (List.replicate n ⟨.load, 0⟩) { cache := loadedAt t, stats := stats } =
      .ok (events, { cache := loadedAt (t + UInt32.ofNat n), stats := stats' }) ∧
    clock oneBlock events 0 = n := by
  have hbytes : (4 : UInt32).toNat = 2 ^ 2 := rfl
  obtain ⟨hindex, htag⟩ := oneSet_fields hbytes
  induction n with
  | zero =>
      intro t stats
      refine ⟨[], stats, ?_, rfl⟩
      rw [show t + UInt32.ofNat 0 = t from UInt32.add_zero t]
      rfl
  | succ n ih =>
      intro t stats
      obtain ⟨events, stats', hrun, hclock⟩ := ih (t + 1) (((stats.count .load true)).addCycles 1)
      have hobserve : observe oneBlock (loadedAt t) ⟨.load, 0⟩ = .ok ⟨.load, 0, 0, true⟩ := by
        simp only [observe, oneBlock, hindex, htag, ok_bind]
        rfl
      have hstep : Sim.step oneBlock { cache := loadedAt t, stats := stats } ⟨.load, 0⟩ =
          .ok { cache := loadedAt (t + 1), stats := (stats.count .load true).addCycles 1 } := by
        simp only [Sim.step, cacheHandler, oneBlock, hindex, htag, ok_bind]
        rfl
      refine ⟨⟨.load, 0, 0, true⟩ :: events, stats', ?_, ?_⟩
      · rw [List.replicate_succ, run_cons_eq hobserve hstep, hrun, UInt32.ofNat_add,
          UInt32.add_comm (UInt32.ofNat n), ← UInt32.add_assoc]
        rfl
      · rw [clock, List.countP_cons, ← clock, hclock]
        rfl

/-- After 2^32 loads of one block its set has no victim left. -/
theorem clock_wraps : ∃ events s set,
    Reaches oneBlock (List.replicate (2 ^ 32) ⟨.load, 0⟩) events s ∧
    s.cache.setAt 0 = .ok set ∧ clock oneBlock events 0 = 2 ^ 32 ∧
    findEmptySpot set = set.blocks.length ∧ chooseEvictedBlock set oneBlock.lru = none := by
  have hbytes : (4 : UInt32).toNat = 2 ^ 2 := rfl
  obtain ⟨hindex, htag⟩ := oneSet_fields hbytes
  obtain ⟨stats, hfirst⟩ : ∃ stats, Sim.step oneBlock (Sim.init oneBlock) ⟨.load, 0⟩ =
      .ok { cache := loadedAt 0, stats := stats } := by
    simp only [Sim.step, cacheHandler, oneBlock, hindex, htag, ok_bind]
    exact ⟨_, rfl⟩
  have hobserve : observe oneBlock (Sim.init oneBlock).cache ⟨.load, 0⟩ =
      .ok ⟨.load, 0, 0, false⟩ := by
    simp only [observe, oneBlock, hindex, htag, ok_bind]
    rfl
  obtain ⟨events, stats', hrun, hclock⟩ := run_loads (2 ^ 32 - 1) 0 stats
  -- a name for the number keeps `List.replicate` from being unfolded
  obtain ⟨m, hm⟩ : ∃ m, 2 ^ 32 - 1 = m := ⟨_, rfl⟩
  have hwrap : (0 : UInt32) + UInt32.ofNat m = 4294967295 := by rw [← hm]; rfl
  have hpow : 2 ^ 32 = m + 1 := by omega
  rw [hm] at hrun hclock
  refine ⟨⟨.load, 0, 0, false⟩ :: events, { cache := loadedAt 4294967295, stats := stats' }, _, ?_,
    rfl, ?_, rfl, rfl⟩
  · rw [hpow, List.replicate_succ, Reaches, run_cons_eq hobserve hfirst, hrun, hwrap]
    rfl
  · rw [hpow, clock, List.countP_cons, ← clock, hclock]
    rfl

end Csf.CacheSim
