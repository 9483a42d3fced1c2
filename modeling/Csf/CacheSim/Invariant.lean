import Csf.CacheSim.WriteBack

/-!
# Cache simulator: the invariant of a `Set`

A set stores what is resident three times: in the valid flags, in the tags of the
blocks and in the keys of the map, whose size is also the next free slot. `SetInvariant`
says how the three agree, and that the times of the resident blocks tell them apart.
It speaks of the fields of the set only; `Represents`, from which it follows, names the
order of the tags as well.
-/

namespace Csf.CacheSim

open Csf.Lib

/-- The first `tagIndex.size` blocks are the resident ones, the map leads from each tag to
its block, and the times that the policy uses are distinct and in the past. -/
structure SetInvariant (lru : Bool) (numBlocks : UInt32) (set : CacheSet) : Prop where
  length_blocks : set.blocks.length = numBlocks.toNat
  size_le : set.tagIndex.size ≤ numBlocks.toNat
  valid_iff : ∀ i block, set.blocks[i]? = some block →
    (block.valid = true ↔ i < set.tagIndex.size)
  index_iff : ∀ tag i, set.tagIndex[tag]? = some i ↔
    i.toNat < set.tagIndex.size ∧ (set.blocks[i.toNat]?).map Block.tag = some tag
  tag_injective : ∀ i j a b, i < set.tagIndex.size → j < set.tagIndex.size →
    set.blocks[i]? = some a → set.blocks[j]? = some b → a.tag = b.tag → i = j
  time_injective : ∀ i j a b, i < set.tagIndex.size → j < set.tagIndex.size →
    set.blocks[i]? = some a → set.blocks[j]? = some b → a.time lru = b.time lru → i = j
  below : ∀ i block, i < set.tagIndex.size → set.blocks[i]? = some block →
    block.time lru < set.timestamp

section

variable {lru : Bool} {numBlocks : UInt32} {set : CacheSet} {live : List Block}
  {order : List UInt32}

/-- Blocks that have an order have different times. -/
theorem Ordered.nodup_times (h : Ordered lru live order) : (live.map (Block.time lru)).Nodup := by
  obtain ⟨stamps, hperm, hsorted, -⟩ := h
  have htimes : (stamps.map Prod.snd).Nodup :=
    List.pairwise_map.mpr (hsorted.imp fun hlt heq => absurd (heq ▸ hlt) (UInt32.lt_irrefl _))
  have hlive := (hperm.map Prod.snd).nodup_iff.mp htimes
  rwa [List.map_map] at hlive

theorem Represents.setInvariant (h : Represents lru numBlocks set order) :
    SetInvariant lru numBlocks set := by
  have hsize : set.tagIndex.size = order.length := h.slots.size_eq
  have htake : ∀ {i : ℕ} {block : Block}, i < order.length → set.blocks[i]? = some block →
      (set.blocks.take order.length)[i]? = some block := by
    intro i block hi hb
    rw [List.getElem?_take, if_pos hi, hb]
  refine ⟨h.slots.length_blocks, ?_, ?_, ?_, ?_, ?_, ?_⟩
  · rw [hsize]
    exact h.slots.le_capacity
  · rw [hsize]
    exact h.slots.valid_iff
  · rw [hsize]
    exact h.slots.index_iff
  · rw [hsize]
    intro i j a b hi hj ha hb htag
    exact h.slots.tag_injective ha hb hi hj htag
  · rw [hsize]
    intro i j a b hi hj ha hb htime
    -- the two times are entries of one list without repetition
    have hnodup := h.ordered.nodup_times
    have hget : ∀ {k : ℕ} {block : Block}, k < order.length → set.blocks[k]? = some block →
        ((set.blocks.take order.length).map (Block.time lru))[k]? = some (block.time lru) := by
      intro k block hk hblock
      rw [List.getElem?_map, htake hk hblock, Option.map_some]
    have hlt := (List.getElem?_eq_some_iff.mp (hget hi ha)).1
    refine (List.getElem?_inj hlt hnodup).mp ?_
    rw [hget hi ha, hget hj hb, htime]
  · rw [hsize]
    intro i block hi hb
    exact h.below block (List.mem_of_getElem? (htake hi hb))

end

/-- **The invariant of a set.** Any trace shorter than `2 ^ 32` runs through, and in the
state it leaves every set keeps the invariant. -/
theorem sets_keep_invariant {cfg : Config} (haccept : (handleError cfg).2 = 0)
    (hblocks : 1 ≤ cfg.numBlocks.toNat)
    (hfit : cfg.numSets.toNat * cfg.numBytes.toNat ≤ 2 ^ 32) (trace : List Access)
    (hlen : trace.length < 2 ^ 32) :
    (∃ events s, Reaches cfg trace events s) ∧
    ∀ events s, Reaches cfg trace events s → s.cache.sets.length = cfg.numSets.toNat ∧
      ∀ set ∈ s.cache.sets, SetInvariant cfg.lru cfg.numBlocks set := by
  have ha := (handleError_eq_zero_iff cfg).mp haccept
  obtain ⟨events, s, hrun, -, htracks, -⟩ := run_spec ha hfit hblocks trace _ CacheStats.zero 0 _ _
    (tracks_init cfg) (by omega)
  refine ⟨⟨events, s, hrun⟩, fun events' s' hrun' => ?_⟩
  obtain ⟨-, rfl⟩ := Prod.mk.inj (Except.ok.inj (hrun.symm.trans hrun'))
  refine ⟨htracks.length_sets, fun set hset => ?_⟩
  obtain ⟨i, hi⟩ := List.mem_iff_getElem?.mp hset
  exact (htracks.represents i set hi).1.setInvariant

theorem sets_keep_invariant_smallConfig : ∃ events s,
    Reaches smallConfig [⟨.store, 0⟩, ⟨.load, 8⟩, ⟨.load, 0⟩, ⟨.load, 16⟩] events s ∧
    ∀ set ∈ s.cache.sets, SetInvariant true 2 set := by
  obtain ⟨⟨events, s, hrun⟩, hall⟩ := sets_keep_invariant smallConfig_accepted (by decide) (by decide)
    [⟨.store, 0⟩, ⟨.load, 8⟩, ⟨.load, 0⟩, ⟨.load, 16⟩] (by decide)
  exact ⟨events, s, hrun, (hall events s hrun).2⟩

end Csf.CacheSim
