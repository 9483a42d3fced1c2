import Csf.CacheSim.Reference

/-!
# Cache simulator: more blocks never lose a hit under lru

Two runs of one trace, with the same configuration but for the number of blocks
in a set. The orders that their sets stand for are included in each other after
every access, so an access that hits in the smaller cache hits in the larger one.
-/

namespace Csf.CacheSim

open Csf.Lib Csf.Lib.Replacement

/-- The tags of the valid blocks of a set. -/
def residentTags (set : CacheSet) : List UInt32 := (set.blocks.filter Block.valid).map Block.tag

/-- The configuration with `blocks` blocks in a set. -/
def Config.withBlocks (cfg : Config) (blocks : UInt32) : Config := { cfg with numBlocks := blocks }

/-- The orders of the small cache against those of the large one. -/
structure OrdersIncluded (blocks : Nat) (small large : Nat → List UInt32) : Prop where
  included : ∀ i, Included blocks (small i) (large i)
  length_le : ∀ i, (small i).length ≤ blocks
  nodup : ∀ i, (small i).Nodup

section

variable {cfg : Config} {b₁ b₂ : UInt32}

/-- One access to either cache, of the same block. -/
theorem OrdersIncluded.step (hlru : cfg.lru = true) (hpos : 0 < b₁.toNat)
    (hle : b₁.toNat ≤ b₂.toNat) {small large : Nat → List UInt32}
    (h : OrdersIncluded b₁.toNat small large) {e₁ e₂ : Event} (hop : e₁.op = e₂.op)
    (hindex : e₁.index = e₂.index) (htag : e₁.tag = e₂.tag) :
    OrdersIncluded b₁.toNat (orderRun (cfg.withBlocks b₁) small [e₁])
      (orderRun (cfg.withBlocks b₂) large [e₂]) := by
  have hpolicy : policyOf cfg.lru = .lru := by rw [policyOf, hlru, if_pos rfl]
  -- whether an access allocates is a matter of the policies, which both caches share
  have hsame : allocates (cfg.withBlocks b₁) e₁.op = allocates (cfg.withBlocks b₂) e₂.op := by
    rw [hop]
    cases e₂.op <;> rfl
  have hsmall : ∀ i, orderRun (cfg.withBlocks b₁) small [e₁] i =
      if i = e₂.index.toNat then
        (access .lru b₁.toNat (allocates (cfg.withBlocks b₂) e₂.op) e₂.tag (small i)).2
      else small i := by
    intro i
    rw [← hpolicy, ← hsame, ← hindex, ← htag]
    by_cases hi : i = e₁.index.toNat
    · rw [if_pos hi, hi]
      exact Function.update_self _ _ _
    · rw [if_neg hi]
      exact Function.update_of_ne hi _ _
  have hlarge : ∀ i, orderRun (cfg.withBlocks b₂) large [e₂] i =
      if i = e₂.index.toNat then
        (access .lru b₂.toNat (allocates (cfg.withBlocks b₂) e₂.op) e₂.tag (large i)).2
      else large i := by
    intro i
    rw [← hpolicy]
    by_cases hi : i = e₂.index.toNat
    · rw [if_pos hi, hi]
      exact Function.update_self _ _ _
    · rw [if_neg hi]
      exact Function.update_of_ne hi _ _
  have hwell : ∀ i, (orderRun (cfg.withBlocks b₁) small [e₁] i).length ≤ b₁.toNat ∧
      (orderRun (cfg.withBlocks b₁) small [e₁] i).Nodup := by
    intro i
    rw [hsmall]
    split
    · exact access_wellFormed hpos (h.length_le i) (h.nodup i)
    · exact ⟨h.length_le i, h.nodup i⟩
  refine ⟨fun i => ?_, fun i => (hwell i).1, fun i => (hwell i).2⟩
  rw [hsmall, hlarge]
  split
  · exact (h.included i).access hpos hle (h.length_le i)
  · exact h.included i

/-- The events of two runs of one trace: an access that hits in the small cache hits in
the large one, and the orders stay included. -/
theorem events_included (hlru : cfg.lru = true) (hpos : 0 < b₁.toNat) (hle : b₁.toNat ≤ b₂.toNat) :
    ∀ (trace : List Access) {small large : Nat → List UInt32} {events₁ events₂ : List Event},
    OrdersIncluded b₁.toNat small large → EventsOf (cfg.withBlocks b₁) small trace events₁ →
    EventsOf (cfg.withBlocks b₂) large trace events₂ →
    List.Forall₂ (fun e₁ e₂ : Event => e₁.op = e₂.op ∧ (e₁.hit = true → e₂.hit = true))
        events₁ events₂ ∧
      OrdersIncluded b₁.toNat (orderRun (cfg.withBlocks b₁) small events₁)
        (orderRun (cfg.withBlocks b₂) large events₂) := by
  intro trace
  induction trace with
  | nil =>
      rintro small large events₁ events₂ h rfl rfl
      exact ⟨List.Forall₂.nil, h⟩
  | cons a rest ih =>
      rintro small large _ _ h ⟨e₁, events₁, rfl, hop₁, hindex₁, htag₁, hhit₁, hrest₁⟩
        ⟨e₂, events₂, rfl, hop₂, hindex₂, htag₂, hhit₂, hrest₂⟩
      have hop : e₁.op = e₂.op := hop₁.trans hop₂.symm
      -- the fields of the address do not depend on the number of blocks
      have hindex : e₁.index = e₂.index := UInt32.toNat_inj.mp (hindex₁.trans hindex₂.symm)
      have htag : e₁.tag = e₂.tag := UInt32.toNat_inj.mp (htag₁.trans htag₂.symm)
      obtain ⟨hevents, horders⟩ := ih (h.step hlru hpos hle hop hindex htag) hrest₁ hrest₂
      refine ⟨List.Forall₂.cons ⟨hop, fun hit => ?_⟩ hevents, horders⟩
      rw [hhit₁, decide_eq_true_iff] at hit
      rw [hhit₂, decide_eq_true_iff, ← htag, ← hindex]
      exact (h.included _).sublist.subset hit

/-- Hits that imply hits are at most as many. -/
theorem count_hits_le {op : Op} {events₁ events₂ : List Event}
    (h : List.Forall₂ (fun e₁ e₂ : Event => e₁.op = e₂.op ∧ (e₁.hit = true → e₂.hit = true))
      events₁ events₂) :
    (events₁.map fun e => (e.op, e.hit)).count (op, true) ≤
      (events₂.map fun e => (e.op, e.hit)).count (op, true) := by
  induction h with
  | nil => exact Nat.le_refl _
  | @cons e₁ e₂ _ _ he _ ih =>
      rw [List.map_cons, List.map_cons, List.count_cons, List.count_cons]
      refine Nat.add_le_add ih ?_
      by_cases h₁ : ((e₁.op, e₁.hit) == (op, true)) = true
      · have heq := Prod.mk.inj (beq_iff_eq.mp h₁)
        have h₂ : ((e₂.op, e₂.hit) == (op, true)) = true := by
          rw [← he.1, he.2 heq.2, heq.1]
          exact beq_self_eq_true _
        rw [if_pos h₁, if_pos h₂]
      · rw [if_neg h₁]
        exact Nat.zero_le _

/-- The resident tags of a represented set are those of its order. -/
theorem Represents.mem_residentTags {lru : Bool} {numBlocks : UInt32} {set : CacheSet}
    {order : List UInt32} (h : Represents lru numBlocks set order) (tag : UInt32) :
    tag ∈ residentTags set ↔ tag ∈ order := by
  rw [residentTags, h.slots.filter_valid, h.ordered.perm_tags.mem_iff]

end

/-- **Inclusion.** Under lru, the tags resident in a set of the smaller cache are resident
in that set of the larger one after every trace that the clocks can count, and the larger
cache reports at least as many hits of either kind. -/
theorem lru_inclusion {cfg : Config} (haccept : (handleError cfg).2 = 0) (hlru : cfg.lru = true)
    (hfit : cfg.numSets.toNat * cfg.numBytes.toNat ≤ 2 ^ 32) {b₁ b₂ : UInt32} (hpos : 1 ≤ b₁)
    (hle : b₁ ≤ b₂) (trace : List Access) (hlen : trace.length < 2 ^ 32) :
    ∃ events₁ s₁ events₂ s₂, Reaches (cfg.withBlocks b₁) trace events₁ s₁ ∧
      Reaches (cfg.withBlocks b₂) trace events₂ s₂ ∧
      (∀ index, index < cfg.numSets → ∃ set₁ set₂, s₁.cache.setAt index = .ok set₁ ∧
        s₂.cache.setAt index = .ok set₂ ∧ residentTags set₁ ⊆ residentTags set₂) ∧
      s₁.stats.loadHits ≤ s₂.stats.loadHits ∧ s₁.stats.storeHits ≤ s₂.stats.storeHits := by
  have ha := (handleError_eq_zero_iff cfg).mp haccept
  have hpos' : 0 < b₁.toNat := UInt32.le_iff_toNat_le.mp hpos
  have hle' : b₁.toNat ≤ b₂.toNat := UInt32.le_iff_toNat_le.mp hle
  have ha' : ∀ b, (cfg.withBlocks b).Accepted := fun b =>
    ⟨ha.numSets, ha.numBytes, ha.minBytes, ha.policies⟩
  obtain ⟨events₁, s₁, hrun₁, hevents₁, htracks₁, hstats₁⟩ := run_spec (ha' b₁) hfit hpos' trace _
    CacheStats.zero 0 _ _ (tracks_init (cfg.withBlocks b₁)) (by omega)
  obtain ⟨events₂, s₂, hrun₂, hevents₂, htracks₂, hstats₂⟩ := run_spec (ha' b₂) hfit
    (by exact hpos'.trans_le hle') trace _ CacheStats.zero 0 _ _
    (tracks_init (cfg.withBlocks b₂)) (by omega)
  -- both caches start empty
  have hempty : OrdersIncluded b₁.toNat (fun _ => []) (fun _ => []) :=
    ⟨fun _ => Included.refl _ _, fun _ => Nat.zero_le _, fun _ => List.nodup_nil⟩
  obtain ⟨hhits, horders⟩ := events_included hlru hpos' hle' trace hempty hevents₁ hevents₂
  have htally₁ := tally_of_countRun hstats₁ (hevents₁.length_eq ▸ hlen)
  have htally₂ := tally_of_countRun hstats₂ (hevents₂.length_eq ▸ hlen)
  refine ⟨events₁, s₁, events₂, s₂, hrun₁, hrun₂, fun index hindex => ?_, ?_, ?_⟩
  · have hi : index.toNat < cfg.numSets.toNat := UInt32.lt_iff_toNat_lt.mp hindex
    obtain ⟨set₁, hset₁⟩ := htracks₁.setAt hi
    obtain ⟨set₂, hset₂⟩ := htracks₂.setAt hi
    refine ⟨set₁, set₂, Cache.setAt_eq_ok.mpr hset₁, Cache.setAt_eq_ok.mpr hset₂,
      fun tag htag => ?_⟩
    have hmem := ((htracks₁.represents _ _ hset₁).1.mem_residentTags tag).mp htag
    exact ((htracks₂.represents _ _ hset₂).1.mem_residentTags tag).mpr
      ((horders.included _).sublist.subset hmem)
  · rw [UInt32.le_iff_toNat_le, htally₁.loadHits, htally₂.loadHits]
    exact count_hits_le hhits
  · rw [UInt32.le_iff_toNat_le, htally₁.storeHits, htally₂.storeHits]
    exact count_hits_le hhits

/-- One block against two, on a trace that loads two blocks of one set in turn. -/
theorem lru_inclusion_smallConfig : (handleError smallConfig).2 = 0 ∧
    ∃ events₁ s₁ events₂ s₂,
      Reaches (smallConfig.withBlocks 1) [⟨.load, 0⟩, ⟨.load, 8⟩, ⟨.load, 0⟩] events₁ s₁ ∧
      Reaches (smallConfig.withBlocks 2) [⟨.load, 0⟩, ⟨.load, 8⟩, ⟨.load, 0⟩] events₂ s₂ ∧
      s₁.stats.loadHits ≤ s₂.stats.loadHits := by
  obtain ⟨events₁, s₁, events₂, s₂, hrun₁, hrun₂, -, hloads, -⟩ := lru_inclusion smallConfig_accepted rfl
    (by decide) (by decide : (1 : UInt32) ≤ 1) (by decide : (1 : UInt32) ≤ 2)
    [⟨.load, 0⟩, ⟨.load, 8⟩, ⟨.load, 0⟩] (by decide)
  exact ⟨smallConfig_accepted, events₁, s₁, events₂, s₂, hrun₁, hrun₂, hloads⟩

end Csf.CacheSim
