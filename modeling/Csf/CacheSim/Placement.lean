import Csf.CacheSim.Recency

/-!
# Cache simulator: what the cache functions do to a represented set

One lemma per function of `cachefuncs.cpp`, in terms of the order the addressed
set stands for: the function returns without fault, and the set it leaves
behind represents the order after a `touch` or a `fill`.
-/

namespace Csf.CacheSim

open Csf.Lib Csf.Lib.Replacement

/-- The discipline the eviction flag selects. -/
def policyOf (lru : Bool) : Policy := if lru then .lru else .fifo

/-! ## The eviction scan -/

/-- The scan returns the position of a least time below the bound, if any. -/
theorem scanOldest_spec (time : Block → UInt32) : ∀ (blocks : List Block) (i : Nat)
    (minimum : UInt32) (oldest : Option Nat),
    ((∀ b ∈ blocks, minimum ≤ time b) ∧ scanOldest time blocks i minimum oldest = oldest) ∨
    ∃ k block, blocks[k]? = some block ∧ time block < minimum ∧
      (∀ b ∈ blocks, time block ≤ time b) ∧
      scanOldest time blocks i minimum oldest = some (i + k) := by
  intro blocks
  induction blocks with
  | nil => intro i minimum oldest; exact .inl ⟨by simp, rfl⟩
  | cons head rest ih =>
      intro i minimum oldest
      by_cases hlt : time head < minimum
      · -- the head is the least time so far
        rw [scanOldest, if_pos hlt]
        right
        rcases ih (i + 1) (time head) (some i) with ⟨hmin, hres⟩ | ⟨k, block, hk, hlt', hmin, hres⟩
        · refine ⟨0, head, rfl, hlt, ?_, by rw [hres]; rfl⟩
          intro b hb
          rcases List.mem_cons.mp hb with rfl | hb
          · exact UInt32.le_refl _
          · exact hmin b hb
        · refine ⟨k + 1, block, hk, UInt32.lt_trans hlt' hlt, ?_, ?_⟩
          · intro b hb
            rcases List.mem_cons.mp hb with rfl | hb
            · exact UInt32.le_of_lt hlt'
            · exact hmin b hb
          · rw [hres, Nat.add_assoc, Nat.add_comm 1 k]
      · rw [scanOldest, if_neg hlt]
        have hle : minimum ≤ time head := UInt32.not_lt.mp hlt
        rcases ih (i + 1) minimum oldest with ⟨hmin, hres⟩ | ⟨k, block, hk, hlt', hmin, hres⟩
        · left
          refine ⟨?_, hres⟩
          intro b hb
          rcases List.mem_cons.mp hb with rfl | hb
          · exact hle
          · exact hmin b hb
        · right
          refine ⟨k + 1, block, hk, hlt', ?_, ?_⟩
          · intro b hb
            rcases List.mem_cons.mp hb with rfl | hb
            · exact UInt32.le_trans (UInt32.le_of_lt hlt') hle
            · exact hmin b hb
          · rw [hres, Nat.add_assoc, Nat.add_comm 1 k]

theorem chooseEvictedBlock_eq (set : CacheSet) (lru : Bool) :
    chooseEvictedBlock set lru = scanOldest (Block.time lru) set.blocks 0 set.timestamp none := by
  cases lru <;> rfl

section

variable {lru : Bool} {numBlocks : UInt32} {set : CacheSet} {order : List UInt32}

/-- A full set evicts the block carrying its oldest tag. -/
theorem Represents.chooseEvictedBlock {oldest : UInt32}
    (h : Represents lru numBlocks set (oldest :: order))
    (hfull : (oldest :: order).length = numBlocks.toNat) :
    ∃ j victim, CacheSim.chooseEvictedBlock set lru = some j ∧ set.blocks[j]? = some victim ∧
      victim.tag = oldest := by
  have hall : set.blocks.take (oldest :: order).length = set.blocks :=
    List.take_of_length_le (by rw [h.slots.length_blocks, hfull])
  rw [chooseEvictedBlock_eq]
  rcases scanOldest_spec (Block.time lru) set.blocks 0 set.timestamp none with
    ⟨hmin, -⟩ | ⟨k, victim, hk, -, hmin, hres⟩
  · -- impossible: every resident block is older than the timestamp
    obtain ⟨i, block, -, -, hb, -⟩ := h.lookup (List.mem_cons_self (a := oldest))
    have hmem := List.mem_of_getElem? hb
    have hlt := h.below block (by rw [hall]; exact hmem)
    exact absurd hlt (UInt32.not_lt.mpr (hmin block hmem))
  · refine ⟨k, victim, by rw [hres, Nat.zero_add], hk, ?_⟩
    have hord := h.ordered
    rw [hall] at hord
    exact hord.tag_of_least (List.mem_of_getElem? hk) hmin

/-! ## Placement -/

/-- With a free slot, `place_in_cache` fills it. -/
theorem placeInCache_free (h : Represents lru numBlocks set order)
    {cache : Cache} {index : UInt32} (hset : cache.sets[index.toNat]? = some set)
    (hfree : order.length < numBlocks.toNat) (tag numBytes : UInt32) (stats : CacheStats) :
    placeInCache index tag lru numBytes cache stats =
      .ok (cache.putSet index (set.filled order.length tag lru), stats) := by
  have hlen := h.slots.length_blocks
  have hslot : findEmptySpot set = order.length := h.slots.size_eq
  have hne : ¬ order.length = set.blocks.length := by omega
  simp only [placeInCache, Cache.setAt, hset, hslot, hne, fillBlock, ok_bind]
  rw [if_neg not_false]
  simp only [pure_bind, hlen, if_pos hfree, ok_bind]
  rfl

/-- The set a full set becomes when the block in slot `j` makes way for `tag`. -/
def CacheSet.replaced (set : CacheSet) (j : Nat) (victim : Block) (tag : UInt32) (lru : Bool) :
    CacheSet :=
  { set with tagIndex := set.tagIndex.erase victim.tag }.filled j tag lru

/-- On a full set, `place_in_cache` replaces the victim and charges its
write-back if it is dirty. -/
theorem placeInCache_full (h : Represents lru numBlocks set order)
    {cache : Cache} {index : UInt32} (hset : cache.sets[index.toNat]? = some set)
    (hfull : order.length = numBlocks.toNat) {j : Nat} {victim : Block}
    (hj : chooseEvictedBlock set lru = some j) (hb : set.blocks[j]? = some victim)
    (tag numBytes : UInt32) (stats : CacheStats) :
    placeInCache index tag lru numBytes cache stats =
      .ok (cache.putSet index (set.replaced j victim tag lru),
        if victim.dirty then stats.addCycles (transferCycles numBytes) else stats) := by
  have hlen := h.slots.length_blocks
  have hslot : findEmptySpot set = set.blocks.length := by
    rw [hlen, ← hfull]
    exact h.slots.size_eq
  have hjlt : j < set.blocks.length := (List.getElem?_eq_some_iff.mp hb).1
  simp only [placeInCache, Cache.setAt, hset, hslot, if_true, evict, hj, hb, fillBlock, ok_bind,
    if_pos hjlt]
  rfl

theorem Represents.filled (h : Represents lru numBlocks set order) {tag : UInt32}
    (ht : tag ∉ order) (hfree : order.length < numBlocks.toNat)
    (hts : set.timestamp.toNat + 1 < 2 ^ 32) :
    Represents lru numBlocks (set.filled order.length tag lru)
      (fill numBlocks.toNat tag order) := by
  have hothers : (set.blocks.take (order.length + 1)).eraseIdx order.length =
      set.blocks.take order.length := by
    rw [List.eraseIdx_eq_take_drop_succ, List.take_take, min_eq_left (by omega),
      List.drop_of_length_le (by rw [List.length_take]; omega), List.append_nil]
  rw [fill_of_lt hfree]
  refine represents_filled (h.slots.hole_free hfree) (mt (h.mem_iff tag).mp ht) rfl ?_ ?_ hts
  · rw [hothers]
    exact h.ordered
  · rw [hothers]
    exact h.below

theorem Represents.replaced {oldest : UInt32} (h : Represents lru numBlocks set (oldest :: order))
    {tag : UInt32} (ht : tag ∉ oldest :: order)
    (hfull : (oldest :: order).length = numBlocks.toNat) {j : Nat} {victim : Block}
    (hb : set.blocks[j]? = some victim) (hv : victim.tag = oldest)
    (hts : set.timestamp.toNat + 1 < 2 ^ 32) :
    Represents lru numBlocks (set.replaced j victim tag lru)
      (fill numBlocks.toNat tag (oldest :: order)) := by
  have hjn : j < (oldest :: order).length := by
    rw [hfull, ← h.slots.length_blocks]
    exact (List.getElem?_eq_some_iff.mp hb).1
  have hget : (set.blocks.take (oldest :: order).length)[j]? = some victim := by
    rw [List.getElem?_take, if_pos hjn, hb]
  have hothers := h.ordered.eraseIdx h.nodup hget
  rw [hv, List.erase_cons_head] at hothers
  rw [fill_of_full hfull, List.tail_cons]
  refine represents_filled (h.slots.hole_erase hb hjn) ?_ rfl hothers ?_ hts
  · intro hmem
    exact ht ((h.mem_iff tag).mp (Std.ExtTreeMap.mem_of_mem_erase hmem))
  · exact fun b hbm => h.below b (List.mem_of_mem_eraseIdx hbm)

/-! ## Dirty flags -/

/-- The dirty resident blocks of `set` are those whose tag satisfies `stored`. -/
def DirtyIff (set : CacheSet) (stored : UInt32 → Prop) : Prop :=
  ∀ b ∈ set.blocks, b.valid = true → (b.dirty = true ↔ stored b.tag)

/-- Overwriting a block without touching tag and flags. -/
theorem DirtyIff.overwrite {stored : UInt32 → Prop} (h : DirtyIff set stored) {i : Nat}
    {block : Block} (block' : Block) (hb : set.blocks[i]? = some block)
    (htag : block'.tag = block.tag) (hvalid : block'.valid = block.valid)
    (hdirty : block'.dirty = block.dirty)
    {set' : CacheSet} (hblocks : set'.blocks = set.blocks.set i block') :
    DirtyIff set' stored := by
  intro b hmem hv
  rw [hblocks] at hmem
  rcases List.mem_or_eq_of_mem_set hmem with hold | rfl
  · exact h b hold hv
  · rw [htag, hdirty]
    exact h block (List.mem_of_getElem? hb) (hvalid ▸ hv)

/-- A block that was just placed is clean; the others keep their flags. -/
theorem DirtyIff.filled {stored : UInt32 → Prop} (h : DirtyIff set stored)
    (hs : Slots numBlocks set order.length) {tag : UInt32} (ht : tag ∉ set.tagIndex)
    {set' : CacheSet} (hset : set'.blocks = set.blocks) (j : Nat) :
    DirtyIff (set'.filled j tag lru) (fun t => t ≠ tag ∧ stored t) := by
  intro b hmem hv
  have hmem' : b ∈ set.blocks.set j
      { tag := tag, valid := true, dirty := false
        accessTime := if lru then set'.timestamp else 0
        loadTime := if lru then 0 else set'.timestamp } := hset ▸ hmem
  rcases List.mem_or_eq_of_mem_set hmem' with hold | rfl
  · -- a resident tag, hence not the new one
    obtain ⟨i, hi⟩ := List.mem_iff_getElem?.mp hold
    have hin : b.tag ∈ set.tagIndex := (hs.mem_iff _).mpr
      (List.mem_map_of_mem (mem_take_iff_getElem?.mpr ⟨i, (hs.valid_iff i b hi).mp hv, hi⟩))
    have hne : b.tag ≠ tag := fun heq => ht (heq ▸ hin)
    exact (h b hold hv).trans ⟨fun hstored => ⟨hne, hstored⟩, And.right⟩
  · simp

/-- Marking the block of a resident tag dirty. -/
theorem DirtyIff.mark {stored : UInt32 → Prop} (h : DirtyIff set stored)
    (hs : Slots numBlocks set order.length) {tag i : UInt32} {block : Block}
    (hi : set.tagIndex[tag]? = some i) (hb : set.blocks[i.toNat]? = some block) :
    DirtyIff { set with blocks := set.blocks.set i.toNat { block with dirty := true } }
      (fun t => t = tag ∨ stored t) := by
  obtain ⟨hlt, htag⟩ := (hs.index_iff tag i).mp hi
  rw [hb, Option.map_some, Option.some.injEq] at htag
  intro b hmem hv
  obtain ⟨k, hk⟩ := List.mem_iff_getElem?.mp hmem
  rw [List.getElem?_set] at hk
  split at hk
  · split at hk
    · rw [← Option.some.inj hk]
      simp [htag]
    · exact absurd hk (by simp)
  · next hne =>
      have hkn := (hs.valid_iff k b hk).mp hv
      have hother : b.tag ≠ tag := fun heq =>
        hne (hs.tag_injective hb hk hlt hkn (htag.trans heq.symm))
      rw [h b (List.mem_of_getElem? hk) hv]
      simp [hother]

/-! ## Effects on the addressed set -/

/-- The timestamp update of a hit. -/
theorem touch_spec (h : Represents lru numBlocks set order) {cache : Cache} {index tag : UInt32}
    (hset : cache.sets[index.toNat]? = some set) (ht : tag ∈ order)
    (hts : lru = true → set.timestamp.toNat + 1 < 2 ^ 32) :
    ∃ set', stampOnHit lru index tag cache = .ok (cache.putSet index set') ∧
      Represents lru numBlocks set' (touch (policyOf lru) tag order) ∧
      set'.timestamp.toNat = set.timestamp.toNat + lru.toNat ∧
      ∀ stored, DirtyIff set stored → DirtyIff set' stored := by
  cases lru with
  | true =>
      obtain ⟨i, block, hi, -, hb, -⟩ := h.lookup ht
      let block' : Block := { block with accessTime := set.timestamp }
      refine ⟨set.stamped i block, ?_, h.stamped hi hb (hts rfl), toNat_add_one (hts rfl), ?_⟩
      · simp [stampOnHit, updateTimestampLRU, Cache.setAt, CacheSet.indexAt, CacheSet.blockAt,
          hset, hi, hb]
      · exact fun stored hd => hd.overwrite block' hb rfl rfl rfl rfl
  | false => exact ⟨set, congrArg Except.ok (Cache.putSet_self hset).symm, h, rfl, fun _ hd => hd⟩

/-- `place_in_cache` of a tag that is not resident. -/
theorem place_spec (h : Represents lru numBlocks set order) {cache : Cache} {index tag : UInt32}
    (hset : cache.sets[index.toNat]? = some set) (hcap : 0 < numBlocks.toNat) (ht : tag ∉ order)
    (hts : set.timestamp.toNat + 1 < 2 ^ 32) (numBytes : UInt32) (stats : CacheStats) :
    ∃ (set' : CacheSet) (writeBack : Bool), placeInCache index tag lru numBytes cache stats =
        .ok (cache.putSet index set',
          if writeBack then stats.addCycles (transferCycles numBytes) else stats) ∧
      Represents lru numBlocks set' (fill numBlocks.toNat tag order) ∧
      set'.timestamp.toNat = set.timestamp.toNat + 1 ∧
      ∀ stored, DirtyIff set stored → DirtyIff set' (fun t => t ≠ tag ∧ stored t) := by
  have hmap : tag ∉ set.tagIndex := mt (h.mem_iff tag).mp ht
  have htime : (set.timestamp + 1).toNat = set.timestamp.toNat + 1 := toNat_add_one hts
  rcases Nat.lt_or_ge order.length numBlocks.toNat with hfree | hge
  · exact ⟨set.filled order.length tag lru, false,
      placeInCache_free h hset hfree tag numBytes stats, h.filled ht hfree hts, htime,
      fun _ hd => hd.filled h.slots hmap rfl _⟩
  · have hfull : order.length = numBlocks.toNat := le_antisymm h.slots.le_capacity hge
    cases order with
    | nil => simp at hfull; omega
    | cons oldest rest =>
        -- a full set gives up its oldest block, with a write-back if that is dirty
        obtain ⟨j, victim, hj, hb, hv⟩ := h.chooseEvictedBlock hfull
        exact ⟨set.replaced j victim tag lru, victim.dirty,
          placeInCache_full h hset hfull hj hb tag numBytes stats,
          h.replaced ht hfull hb hv hts, htime, fun _ hd => hd.filled h.slots hmap rfl _⟩

/-- The subscript of a key that is there enters nothing. -/
theorem subscript_of_mem {tagIndex : TagIndex} {tag i : UInt32} (hi : tagIndex[tag]? = some i) :
    subscript tagIndex tag = (i, tagIndex) := by
  have hmem : tag ∈ tagIndex := by
    rw [Std.ExtTreeMap.mem_iff_isSome_getElem?, hi]
    rfl
  refine Prod.ext ?_ (Std.ExtTreeMap.ext_getElem? fun t => ?_)
  · simp [subscript, Std.ExtTreeMap.getD_eq_getD_getElem?, hi]
  · simp only [subscript, Std.ExtTreeMap.getElem?_insertIfNew, Std.compare_eq_iff_eq]
    rw [if_neg (by rintro ⟨rfl, hn⟩; exact hn hmem)]

/-- The write-back arm of a store hit. -/
theorem markDirty_spec (h : Represents lru numBlocks set order) {cache : Cache}
    {index tag : UInt32} (hset : cache.sets[index.toNat]? = some set) (ht : tag ∈ order) :
    ∃ set', markDirty index tag cache = .ok (cache.putSet index set') ∧
      Represents lru numBlocks set' order ∧ set'.timestamp = set.timestamp ∧
      ∀ stored, DirtyIff set stored → DirtyIff set' (fun t => t = tag ∨ stored t) := by
  obtain ⟨i, block, hi, -, hb, -⟩ := h.lookup ht
  refine ⟨{ set with blocks := set.blocks.set i.toNat { block with dirty := true } }, ?_,
    h.setDirty hb, rfl, fun _ hd => hd.mark h.slots hi hb⟩
  simp [markDirty, Cache.setAt, hset, subscript_of_mem hi, hb]

end

end Csf.CacheSim
