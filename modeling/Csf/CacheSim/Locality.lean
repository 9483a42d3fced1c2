import Csf.CacheSim.Report
import Csf.Lib.Competitive
import Csf.Lib.Recency

/-!
# Cache simulator: locality

What the accesses before say of a hit, and how the misses of the simulator compare with those
of any other way to manage sets of the same size. The general facts are those of
`Lib.Recency` and `Lib.Competitive`, here on every set.
-/

namespace Csf.CacheSim

open Csf.Lib Csf.Lib.Replacement

/-! ## Hits and what came before -/

/-- The tags that have counted in a set: those of misses that place their block, and under `lru`
those of hits. -/
def counted (cfg : Config) (index : UInt32) (events : List Event) : List UInt32 :=
  (events.filter fun e => e.index = index ∧
    counts (policyOf cfg.lru) (allocates cfg e.op) e.hit).map Event.tag

section

variable {cfg : Config} {orders : ℕ → List UInt32} {past : List Event}

/-- One event. -/
theorem order_counted (hcap : 0 < cfg.numBlocks.toNat) {e : Event}
    (h : ∀ i : UInt32, orders i.toNat =
      view (policyOf cfg.lru) cfg.numBlocks.toNat (counted cfg i past))
    (hhit : e.hit = decide (e.tag ∈ orders e.index.toNat)) (i : UInt32) :
    orderRun cfg orders [e] i.toNat =
      view (policyOf cfg.lru) cfg.numBlocks.toNat (counted cfg i (past ++ [e])) := by
  have happend : counted cfg i (past ++ [e]) = counted cfg i past ++ counted cfg i [e] := by
    rw [counted, List.filter_append, List.map_append]
    rfl
  show Function.update orders e.index.toNat _ i.toNat = _
  by_cases hi : i = e.index
  · subst hi
    have hone : counted cfg e.index [e] =
        if counts (policyOf cfg.lru) (allocates cfg e.op) e.hit then [e.tag] else [] := by
      cases hc : counts (policyOf cfg.lru) (allocates cfg e.op) e.hit <;> simp [counted, hc]
    rw [Function.update_self, happend, hone, hhit, h e.index]
    exact access_view hcap _ _ _
  · have hnone : counted cfg i [e] = [] := by simp [counted, Ne.symm hi]
    rw [Function.update_of_ne (fun hnat => hi (UInt32.toNat_inj.mp hnat)), happend, hnone,
      List.append_nil, h i]

/-- A hit is on a tag that is in view. -/
theorem hit_counted (hcap : 0 < cfg.numBlocks.toNat) : ∀ {trace : List Access}
    {orders : ℕ → List UInt32} {past before after : List Event} {e : Event},
    (∀ i : UInt32, orders i.toNat =
      view (policyOf cfg.lru) cfg.numBlocks.toNat (counted cfg i past)) →
    EventsOf cfg orders trace (before ++ e :: after) →
    e.hit = decide (e.tag ∈
      view (policyOf cfg.lru) cfg.numBlocks.toNat (counted cfg e.index (past ++ before))) := by
  intro trace
  induction trace with
  | nil =>
      intro orders past before after e _ hevents
      exact absurd hevents (by simp [EventsOf])
  | cons a rest ih =>
      intro orders past before after e h hevents
      obtain ⟨first, events, hsplit, -, -, -, hhit, hrest⟩ := hevents
      cases before with
      | nil =>
          obtain ⟨rfl, rfl⟩ := List.cons.inj hsplit
          rw [List.append_nil, ← h e.index]
          exact hhit
      | cons e' before =>
          obtain ⟨rfl, rfl⟩ := List.cons.inj hsplit
          have hstep := ih (order_counted hcap h hhit) hrest
          rwa [List.append_assoc] at hstep

end

/-- The events of a run are those that its trace makes of empty orders. -/
theorem Reaches.eventsOf {cfg : Config} {trace : List Access} {events : List Event} {s : Sim}
    (h : Reaches cfg trace events s) (ha : cfg.Accepted)
    (hfit : cfg.numSets.toNat * cfg.numBytes.toNat ≤ 2 ^ 32) (hblocks : 0 < cfg.numBlocks.toNat)
    (hshort : trace.length < 2 ^ 32) : EventsOf cfg (fun _ => []) trace events := by
  obtain ⟨events', s', hrun, hevents, -, -⟩ := run_spec ha hfit hblocks trace _
    CacheStats.zero 0 _ _ (tracks_init cfg) (by omega)
  have hsame := h.symm.trans hrun
  rw [Except.ok.injEq, Prod.mk.injEq] at hsame
  exact hsame.1 ▸ hevents

/-- **Hits.** Under `lru` an access hits if and only if fewer different blocks than a set holds
have counted in its set since its own block counted last; under `fifo`, if and only if fewer
blocks have been placed there since its own. -/
theorem hit_iff_recent {cfg : Config} {trace : List Access} {before after : List Event} {e : Event}
    {s : Sim} (ha : cfg.Accepted) (hfit : cfg.numSets.toNat * cfg.numBytes.toNat ≤ 2 ^ 32)
    (hblocks : 0 < cfg.numBlocks.toNat) (hshort : trace.length < 2 ^ 32)
    (hreach : Reaches cfg trace (before ++ e :: after) s) :
    e.hit = true ↔ ∃ older newer, counted cfg e.index before = older ++ e.tag :: newer ∧
      if cfg.lru then e.tag ∉ newer ∧ newer.toFinset.card < cfg.numBlocks.toNat
      else newer.length < cfg.numBlocks.toNat := by
  have hempty : ∀ i : UInt32, ([] : List UInt32) =
      view (policyOf cfg.lru) cfg.numBlocks.toNat (counted cfg i []) := fun _ => view_nil.symm
  have hhit := hit_counted hblocks hempty (hreach.eventsOf ha hfit hblocks hshort)
  rw [hhit, decide_eq_true_iff, List.nil_append]
  unfold policyOf
  cases cfg.lru with
  | true => exact mem_view_lru
  | false => exact mem_view_fifo

/-- Two loads of blocks of one set, and the first again. -/
theorem hit_iff_recent_smallConfig : ∃ e₁ e₂ e₃ s,
    Reaches smallConfig [⟨.load, 0⟩, ⟨.load, 8⟩, ⟨.load, 0⟩] [e₁, e₂, e₃] s ∧
    (e₃.hit = true ↔ ∃ older newer,
      counted smallConfig e₃.index [e₁, e₂] = older ++ e₃.tag :: newer ∧
        if smallConfig.lru then
          e₃.tag ∉ newer ∧ newer.toFinset.card < smallConfig.numBlocks.toNat
        else newer.length < smallConfig.numBlocks.toNat) := by
  have ha : smallConfig.Accepted := ⟨⟨1, rfl⟩, ⟨2, rfl⟩, by decide, by decide⟩
  obtain ⟨events, s, hreach, houtcomes, -⟩ : ∃ events s,
      Reaches smallConfig [⟨.load, 0⟩, ⟨.load, 8⟩, ⟨.load, 0⟩] events s ∧ _ ∧ _ :=
    exists_reaches ha (by decide) (by decide) (by decide)
  have hlen : events.length = 3 := by
    have hmap := congrArg List.length houtcomes
    rw [List.length_map] at hmap
    exact hmap
  obtain ⟨e₁, e₂, e₃, rfl⟩ := List.length_eq_three.mp hlen
  have hsplit : Reaches smallConfig _ ([e₁, e₂] ++ e₃ :: []) s := hreach
  exact ⟨e₁, e₂, e₃, s, hreach,
    hit_iff_recent ha (by decide) (by decide) (by decide) hsplit⟩

/-! ## Misses and other managements -/

/-- The blocks that a trace is about. -/
def accessedBlocks (cfg : Config) (trace : List Access) : List ℕ :=
  trace.map fun a => blockNumber cfg a.address

/-- What a cache of the configuration can hold: so many blocks of each set. -/
def Fits (cfg : Config) (held : Finset ℕ) : Prop :=
  ∀ i, (held.filter (· % cfg.numSets.toNat = i)).card ≤ cfg.numBlocks.toNat

/-- The blocks of the misses of the reference model. -/
def refMissed (cfg : Config) : List Access → RefCache → List ℕ
  | [], _ => []
  | a :: rest, cache =>
      (if (refAccess cfg cache a).1 then [] else [blockNumber cfg a.address]) ++
        refMissed cfg rest (refAccess cfg cache a).2

section

variable {cfg : Config}

theorem length_refMissed : ∀ (trace : List Access) (cache : RefCache),
    (refMissed cfg trace cache).length =
      (refRun cfg trace cache).1.count (.load, false) +
        (refRun cfg trace cache).1.count (.store, false) := by
  intro trace
  induction trace with
  | nil => exact fun _ => rfl
  | cons a rest ih =>
      intro cache
      have hrun : (refRun cfg (a :: rest) cache).1 =
          (a.op, (refAccess cfg cache a).1) :: (refRun cfg rest (refAccess cfg cache a).2).1 := rfl
      rw [refMissed, List.length_append, ih, hrun, List.count_cons, List.count_cons]
      generalize (refRun cfg rest (refAccess cfg cache a).2).1 = outcomes
      cases (refAccess cfg cache a).1 <;> cases a.op <;> simp <;> omega

/-- The misses of a set are those that its accesses alone have. -/
theorem filter_refMissed (i : ℕ) : ∀ (trace : List Access) (cache : RefCache),
    (∀ a ∈ trace, allocates cfg a.op = true) →
    (refMissed cfg trace cache).filter (· % cfg.numSets.toNat = i) =
      missed (policyOf cfg.lru) cfg.numBlocks.toNat
        ((accessedBlocks cfg trace).filter (· % cfg.numSets.toNat = i)) (cache i) := by
  intro trace
  induction trace with
  | nil => exact fun _ _ => rfl
  | cons a rest ih =>
      intro cache hall
      have hrest := ih (refAccess cfg cache a).2 fun b hb => hall b (List.mem_cons_of_mem _ hb)
      have hcons : accessedBlocks cfg (a :: rest) =
          blockNumber cfg a.address :: accessedBlocks cfg rest := rfl
      have hhit : (refAccess cfg cache a).1 = decide (blockNumber cfg a.address ∈
          cache (blockNumber cfg a.address % cfg.numSets.toNat)) := access_fst _ _ _ _ _
      rw [refMissed, List.filter_append, hrest, hcons]
      by_cases hi : blockNumber cfg a.address % cfg.numSets.toNat = i
      · subst hi
        have hcache : (refAccess cfg cache a).2 (blockNumber cfg a.address % cfg.numSets.toNat) =
            (access (policyOf cfg.lru) cfg.numBlocks.toNat true (blockNumber cfg a.address)
              (cache (blockNumber cfg a.address % cfg.numSets.toNat))).2 := by
          rw [← hall a List.mem_cons_self]
          exact Function.update_self _ _ _
        rw [List.filter_cons_of_pos (by simp), missed, hcache, hhit]
        by_cases hmem : blockNumber cfg a.address ∈
            cache (blockNumber cfg a.address % cfg.numSets.toNat) <;> simp [hmem]
      · have hcache : (refAccess cfg cache a).2 i = cache i :=
          Function.update_of_ne (Ne.symm hi) _ _
        rw [List.filter_cons_of_neg (by simpa using hi), hcache]
        cases (refAccess cfg cache a).1 <;> simp [hi]

/-- A list is made up of its parts. -/
theorem length_eq_sum {n : ℕ} (hn : 0 < n) (blocks : List ℕ) :
    blocks.length = ∑ i ∈ Finset.range n, (blocks.filter (· % n = i)).length := by
  induction blocks with
  | nil => simp
  | cons b blocks ih =>
      have hcons : ∀ i, ((b :: blocks).filter (· % n = i)).length =
          (blocks.filter (· % n = i)).length + if b % n = i then 1 else 0 := by
        intro i
        rw [List.filter_cons]
        split <;> simp_all
      have hmem : b % n ∈ Finset.range n := Finset.mem_range.mpr (Nat.mod_lt b hn)
      simp only [hcons, Finset.sum_add_distrib, Finset.sum_ite_eq, if_pos hmem, ← ih,
        List.length_cons]

/-- The misses of the simulator, set by set. -/
theorem misses_eq_sum {trace : List Access} (ha : cfg.Accepted)
    (hfit : cfg.numSets.toNat * cfg.numBytes.toNat ≤ 2 ^ 32) (hblocks : 0 < cfg.numBlocks.toNat)
    (hshort : trace.length < 2 ^ 32) (hall : ∀ a ∈ trace, allocates cfg a.op = true) :
    ∃ events s, Reaches cfg trace events s ∧
      s.stats.loadMisses.toNat + s.stats.storeMisses.toNat =
        ∑ i ∈ Finset.range cfg.numSets.toNat, (missed (policyOf cfg.lru) cfg.numBlocks.toNat
          ((accessedBlocks cfg trace).filter (· % cfg.numSets.toNat = i)) []).length := by
  obtain ⟨events, s, hreach, -, htally⟩ := exists_reaches ha hfit hblocks hshort
  refine ⟨events, s, hreach, ?_⟩
  have hlength : (refMissed cfg trace fun _ => []).length = _ := length_refMissed trace _
  have hsum : ∀ i, (missed (policyOf cfg.lru) cfg.numBlocks.toNat
      ((accessedBlocks cfg trace).filter (· % cfg.numSets.toNat = i)) []).length =
        ((refMissed cfg trace fun _ => []).filter (· % cfg.numSets.toNat = i)).length :=
    fun i => congrArg List.length (filter_refMissed i trace (fun _ => []) hall).symm
  simp only [hsum]
  rw [← length_eq_sum (numSets_pos ha), hlength, htally.loadMisses, htally.storeMisses]
  rfl

end

section

variable {cfg : Config} {trace : List Access} (ha : cfg.Accepted)
  (hfit : cfg.numSets.toNat * cfg.numBytes.toNat ≤ 2 ^ 32) (hblocks : 0 < cfg.numBlocks.toNat)
  (hshort : trace.length < 2 ^ 32) (hall : ∀ a ∈ trace, allocates cfg a.op = true)

include ha hfit hblocks hshort hall

/-- **Misses that cannot be helped.** Where no set is asked for more blocks than it holds, every
block misses once, under both policies; and no policy can do with less. -/
theorem misses_once (hfew : Fits cfg (accessedBlocks cfg trace).toFinset) :
    ∃ events s, Reaches cfg trace events s ∧
      s.stats.loadMisses.toNat + s.stats.storeMisses.toNat =
        (accessedBlocks cfg trace).toFinset.card ∧
      ∀ missed', Manages (Fits cfg) ∅ (accessedBlocks cfg trace) missed' →
        s.stats.loadMisses.toNat + s.stats.storeMisses.toNat ≤ missed'.length := by
  obtain ⟨events, s, hreach, hmisses⟩ := misses_eq_sum ha hfit hblocks hshort hall
  have hset : ∀ i, (missed (policyOf cfg.lru) cfg.numBlocks.toNat
      ((accessedBlocks cfg trace).filter (· % cfg.numSets.toNat = i)) []).length =
        ((accessedBlocks cfg trace).toFinset.filter (· % cfg.numSets.toNat = i)).card := by
    intro i
    have hfinset : ((accessedBlocks cfg trace).filter (· % cfg.numSets.toNat = i)).toFinset =
        (accessedBlocks cfg trace).toFinset.filter (· % cfg.numSets.toNat = i) := by
      ext b
      simp
    have hcold : (missed (policyOf cfg.lru) cfg.numBlocks.toNat
        ((accessedBlocks cfg trace).filter (· % cfg.numSets.toNat = i)) []).length + 0 = _ :=
      misses_cold List.nodup_nil (by simpa [hfinset] using hfew i)
    simpa [hfinset] using hcold
  have hcount : s.stats.loadMisses.toNat + s.stats.storeMisses.toNat =
      (accessedBlocks cfg trace).toFinset.card := by
    rw [hmisses]
    simp only [hset]
    exact (Finset.card_eq_sum_card_fiberwise fun b _ =>
      Finset.mem_range.mpr (Nat.mod_lt b (numSets_pos ha))).symm
  exact ⟨events, s, hreach, hcount, fun missed' hmanaged => hcount ▸ hmanaged.cold⟩

end

/-- One set holds no more than all of them. -/
theorem fits_of_card {held : Finset ℕ} (h : held.card ≤ 2) : Fits smallConfig held :=
  fun _ => (Finset.card_filter_le _ _).trans h

/-- Two blocks in a set of two. -/
theorem misses_once_pair : ∃ events s,
    Reaches smallConfig [⟨.load, 0⟩, ⟨.store, 8⟩, ⟨.load, 0⟩, ⟨.load, 8⟩] events s ∧
      s.stats.loadMisses.toNat + s.stats.storeMisses.toNat = 2 := by
  obtain ⟨events, s, hreach, hcount, -⟩ : ∃ events s,
      Reaches smallConfig [⟨.load, 0⟩, ⟨.store, 8⟩, ⟨.load, 0⟩, ⟨.load, 8⟩] events s ∧ _ ∧ _ :=
    misses_once ⟨⟨1, rfl⟩, ⟨2, rfl⟩, by decide, by decide⟩ (by decide) (by decide) (by decide)
      (by decide) (fits_of_card (by decide))
  exact ⟨events, s, hreach, hcount.trans (by decide)⟩

end Csf.CacheSim
