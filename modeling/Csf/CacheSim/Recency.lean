import Csf.CacheSim.Funcs
import Csf.Lib.Replacement

/-!
# Cache simulator: the order a set's timestamps stand for

`Represents` ties the four pieces of a `Set` together: the vector of blocks,
the tag map, the map's size used as the next free slot, and the timestamps.
It names the list of resident tags from the oldest to the youngest:

* `Slots` is the bookkeeping of slots and map, without times;
* `Ordered` reads an order of tags off the times of a list of blocks.

The lemmas say what stamping, filling and evicting do to either, so that the
rest of the development argues about lists.
-/

namespace Csf.CacheSim

open Csf.Lib Csf.Lib.Replacement

/-! ## Lists -/

theorem mem_take_iff_getElem? {α : Type*} {l : List α} {n : Nat} {a : α} :
    a ∈ l.take n ↔ ∃ i, i < n ∧ l[i]? = some a := by
  rw [List.mem_iff_getElem?]
  constructor
  · rintro ⟨i, hi⟩
    rw [List.getElem?_take] at hi
    split at hi
    · next hlt => exact ⟨i, hlt, hi⟩
    · exact absurd hi (by simp)
  · rintro ⟨i, hlt, hi⟩
    exact ⟨i, by rw [List.getElem?_take, if_pos hlt, hi]⟩

/-- Filtering by a property of exactly the first `n` positions. -/
theorem filter_eq_take {α : Type*} {p : α → Bool} : ∀ {l : List α} {n : Nat},
    (∀ i a, l[i]? = some a → (p a = true ↔ i < n)) → l.filter p = l.take n := by
  intro l
  induction l with
  | nil => simp
  | cons a rest ih =>
      intro n h
      have hhead := h 0 a rfl
      cases n with
      | zero =>
          have hrest := ih (n := 0) fun i b hb =>
            (h (i + 1) b hb).trans ⟨fun hlt => by omega, fun hlt => by omega⟩
          rw [List.filter_cons_of_neg (by simp [hhead]), hrest]
          rfl
      | succ n =>
          have hrest := ih (n := n) fun i b hb =>
            (h (i + 1) b hb).trans Nat.add_lt_add_iff_right
          rw [List.filter_cons_of_pos (hhead.mpr (Nat.succ_pos n)), hrest, List.take_succ_cons]

/-- Overwriting an entry leaves every projection that agrees on it. -/
theorem getElem?_set_map {α β : Type*} {l : List α} {i : Nat} {a b : α} {f : α → β}
    (ha : l[i]? = some a) (hf : f b = f a) (k : Nat) :
    ((l.set i b)[k]?).map f = (l[k]?).map f := by
  rw [List.getElem?_set]
  split
  · next h =>
      subst h
      split <;> simp_all
  · rfl

/-- Taking a pair out of a list without repeated first components takes its
first component out of theirs. -/
theorem map_fst_erase {α β : Type*} [DecidableEq α] [DecidableEq β] {ps : List (α × β)}
    {p : α × β} (hn : (ps.map Prod.fst).Nodup) (hp : p ∈ ps) :
    (ps.erase p).map Prod.fst = (ps.map Prod.fst).erase p.1 := by
  induction ps with
  | nil => exact absurd hp List.not_mem_nil
  | cons q rest ih =>
      rw [List.map_cons, List.nodup_cons] at hn
      by_cases hq : q = p
      · subst hq
        simp
      · have hmem : p ∈ rest := (List.mem_cons.mp hp).resolve_left (Ne.symm hq)
        have hne : q.1 ≠ p.1 := fun h => hn.1 (h ▸ List.mem_map_of_mem hmem)
        rw [List.erase_cons_tail (by simpa using hq), List.map_cons, List.map_cons,
          List.erase_cons_tail (by simpa using hne), ih hn.2 hmem]

/-! ## The order of a list of blocks -/

/-- The time field the eviction policy reads. -/
def Block.time (lru : Bool) (block : Block) : UInt32 :=
  if lru then block.accessTime else block.loadTime

/-- A block's tag with its policy time. -/
def Block.stamp (lru : Bool) (block : Block) : UInt32 × UInt32 := (block.tag, block.time lru)

/-- `order` lists the tags of `live` by strictly increasing time. -/
def Ordered (lru : Bool) (live : List Block) (order : List UInt32) : Prop :=
  ∃ stamps : List (UInt32 × UInt32), stamps.Perm (live.map (Block.stamp lru)) ∧
    stamps.Pairwise (fun p q => p.2 < q.2) ∧ stamps.map Prod.fst = order

section

variable {lru : Bool} {live live' : List Block} {order : List UInt32}

theorem Ordered.perm_tags (h : Ordered lru live order) : order.Perm (live.map Block.tag) := by
  obtain ⟨stamps, hperm, -, rfl⟩ := h
  have := hperm.map Prod.fst
  rwa [List.map_map] at this

/-- Only the tags and times of the blocks matter. -/
theorem Ordered.of_stamps (h : Ordered lru live order)
    (hs : live'.map (Block.stamp lru) = live.map (Block.stamp lru)) :
    Ordered lru live' order := by
  unfold Ordered
  rw [hs]
  exact h

/-- Removing a block removes its tag. -/
theorem Ordered.eraseIdx (h : Ordered lru live order) (hn : order.Nodup) {i : Nat}
    {block : Block} (hi : live[i]? = some block) :
    Ordered lru (live.eraseIdx i) (order.erase block.tag) := by
  obtain ⟨stamps, hperm, hsorted, rfl⟩ := h
  obtain ⟨hidx, rfl⟩ := List.getElem?_eq_some_iff.mp hi
  have hcons : (live.map (Block.stamp lru)).Perm
      (live[i].stamp lru :: (live.eraseIdx i).map (Block.stamp lru)) :=
    ((List.getElem_cons_eraseIdx_perm hidx).map (Block.stamp lru)).symm
  have hin : live[i].stamp lru ∈ stamps :=
    hperm.mem_iff.mpr (List.mem_map_of_mem (List.getElem_mem hidx))
  refine ⟨stamps.erase (live[i].stamp lru), ?_, hsorted.sublist List.erase_sublist, ?_⟩
  · exact List.Perm.cons_inv ((List.perm_cons_erase hin).symm.trans (hperm.trans hcons))
  · exact map_fst_erase hn hin

/-- Adding a block later than all others appends its tag. -/
theorem Ordered.push (h : Ordered lru live order) {block : Block} {tag now : UInt32}
    (hbelow : ∀ b ∈ live, b.time lru < now) (hblock : block.stamp lru = (tag, now))
    (hlive : live'.Perm (block :: live)) : Ordered lru live' (order ++ [tag]) := by
  obtain ⟨stamps, hperm, hsorted, rfl⟩ := h
  refine ⟨stamps ++ [(tag, now)], ?_, ?_, by simp⟩
  · refine List.perm_append_comm.trans (List.Perm.trans ?_ (hlive.map _).symm)
    rw [List.map_cons, hblock]
    exact hperm.cons _
  · refine List.pairwise_append.mpr ⟨hsorted, List.pairwise_singleton _ _, ?_⟩
    intro p hp q hq
    rw [List.mem_singleton.mp hq]
    obtain ⟨b, hb, rfl⟩ := List.mem_map.mp (hperm.mem_iff.mp hp)
    exact hbelow b hb

/-- A block of least time carries the oldest tag. -/
theorem Ordered.tag_of_least {tag : UInt32} (h : Ordered lru live (tag :: order))
    {block : Block} (hmem : block ∈ live) (hleast : ∀ b ∈ live, block.time lru ≤ b.time lru) :
    block.tag = tag := by
  obtain ⟨stamps, hperm, hsorted, hfst⟩ := h
  cases stamps with
  | nil => exact absurd hfst (by simp)
  | cons p rest =>
      rw [List.map_cons, List.cons.injEq] at hfst
      obtain ⟨b, hb, hp⟩ := List.mem_map.mp (hperm.mem_iff.mp List.mem_cons_self)
      rcases List.mem_cons.mp (hperm.mem_iff.mpr (List.mem_map_of_mem hmem)) with heq | hrest
      · rw [← hfst.1, ← heq]
        rfl
      · have hlt : p.2 < block.time lru := (List.pairwise_cons.mp hsorted).1 _ hrest
        have hle := hleast b hb
        rw [← hp] at hlt
        exact absurd hlt (UInt32.not_lt.mpr hle)

end

/-! ## Slots -/

/-- The slot bookkeeping of a set with `n` resident blocks: they fill the
first `n` slots, and the map knows the slot of every tag among them. -/
structure Slots (numBlocks : UInt32) (set : CacheSet) (n : Nat) : Prop where
  length_blocks : set.blocks.length = numBlocks.toNat
  size_eq : set.tagIndex.size = n
  le_capacity : n ≤ numBlocks.toNat
  index_iff : ∀ tag i, set.tagIndex[tag]? = some i ↔
    i.toNat < n ∧ (set.blocks[i.toNat]?).map Block.tag = some tag
  valid_iff : ∀ i block, set.blocks[i]? = some block → (block.valid = true ↔ i < n)

section

variable {numBlocks : UInt32} {set set' : CacheSet} {n : Nat}

/-- Slot numbers of a set are 32-bit numbers. -/
theorem Slots.toNat_slot (h : Slots numBlocks set n) {j : Nat} (hj : j < set.blocks.length) :
    (UInt32.ofNat j).toNat = j := by
  rw [UInt32.toNat_ofNat', Nat.mod_eq_of_lt]
  have := numBlocks.toNat_lt
  have := h.length_blocks
  omega

/-- The map holds the tags of the first `n` blocks. -/
theorem Slots.mem_iff (h : Slots numBlocks set n) (tag : UInt32) :
    tag ∈ set.tagIndex ↔ tag ∈ (set.blocks.take n).map Block.tag := by
  rw [← Std.ExtTreeMap.isSome_getElem?_iff_mem, Option.isSome_iff_exists, List.mem_map]
  constructor
  · rintro ⟨i, hi⟩
    obtain ⟨hlt, hb⟩ := (h.index_iff tag i).mp hi
    obtain ⟨block, hblock, rfl⟩ := Option.map_eq_some_iff.mp hb
    exact ⟨block, mem_take_iff_getElem?.mpr ⟨_, hlt, hblock⟩, rfl⟩
  · rintro ⟨block, hblock, rfl⟩
    obtain ⟨j, hlt, hj⟩ := mem_take_iff_getElem?.mp hblock
    have hslot := h.toNat_slot (List.getElem?_eq_some_iff.mp hj).1
    exact ⟨UInt32.ofNat j, (h.index_iff _ _).mpr (by rw [hslot, hj]; exact ⟨hlt, rfl⟩)⟩

/-- The valid blocks are the first `n`. -/
theorem Slots.filter_valid (h : Slots numBlocks set n) :
    set.blocks.filter Block.valid = set.blocks.take n :=
  filter_eq_take h.valid_iff

/-- Two slots with one tag are one slot. -/
theorem Slots.tag_injective (h : Slots numBlocks set n) {i j : Nat} {a b : Block}
    (hi : set.blocks[i]? = some a) (hj : set.blocks[j]? = some b) (hin : i < n) (hjn : j < n)
    (htag : a.tag = b.tag) : i = j := by
  have hslot : ∀ k c, set.blocks[k]? = some c → k < n → c.tag = a.tag →
      set.tagIndex[a.tag]? = some (UInt32.ofNat k) := by
    intro k c hk hlt hc
    rw [h.index_iff, h.toNat_slot (List.getElem?_eq_some_iff.mp hk).1, hk, Option.map_some, hc]
    exact ⟨hlt, rfl⟩
  have heq := Option.some.inj ((hslot i a hi hin rfl).symm.trans (hslot j b hj hjn htag.symm))
  have := congrArg UInt32.toNat heq
  rwa [h.toNat_slot (List.getElem?_eq_some_iff.mp hi).1,
    h.toNat_slot (List.getElem?_eq_some_iff.mp hj).1] at this

theorem Slots.nodup_tags (h : Slots numBlocks set n) :
    ((set.blocks.take n).map Block.tag).Nodup := by
  rw [List.nodup_iff_injective_get]
  rintro ⟨i, hi⟩ ⟨j, hj⟩ heq
  have hi' : i < n ∧ i < set.blocks.length := by simpa using hi
  have hj' : j < n ∧ j < set.blocks.length := by simpa using hj
  simp only [List.get_eq_getElem, List.getElem_map, List.getElem_take] at heq
  exact Fin.ext (h.tag_injective (List.getElem?_eq_getElem hi'.2)
    (List.getElem?_eq_getElem hj'.2) hi'.1 hj'.1 heq)

/-- Overwriting a block by one with its tag and valid flag keeps the slots. -/
theorem Slots.overwrite {i : Nat} {block : Block} (block' : Block) (h : Slots numBlocks set n)
    (hb : set.blocks[i]? = some block) (htag : block'.tag = block.tag)
    (hvalid : block'.valid = block.valid) (hblocks : set'.blocks = set.blocks.set i block')
    (hmap : set'.tagIndex = set.tagIndex) : Slots numBlocks set' n := by
  refine ⟨?_, ?_, h.le_capacity, ?_, ?_⟩
  · rw [hblocks, List.length_set, h.length_blocks]
  · rw [hmap, h.size_eq]
  · intro tag k
    rw [hmap, h.index_iff, hblocks, getElem?_set_map hb htag]
  · intro k b hk
    have hv : (set.blocks[k]?).map Block.valid = some b.valid := by
      rw [← getElem?_set_map (f := Block.valid) hb hvalid k, ← hblocks, hk, Option.map_some]
    obtain ⟨b', hb', hval⟩ := Option.map_eq_some_iff.mp hv
    rw [← hval]
    exact h.valid_iff k b' hb'

/-- As `Slots`, but slot `j` is about to be filled: no map entry leads there. -/
structure Hole (numBlocks : UInt32) (set : CacheSet) (n j : Nat) : Prop where
  length_blocks : set.blocks.length = numBlocks.toNat
  size_eq : set.tagIndex.size + 1 = n
  le_capacity : n ≤ numBlocks.toNat
  slot_lt : j < n
  index_iff : ∀ tag i, set.tagIndex[tag]? = some i ↔
    i.toNat < n ∧ i.toNat ≠ j ∧ (set.blocks[i.toNat]?).map Block.tag = some tag
  valid_iff : ∀ i block, i ≠ j → set.blocks[i]? = some block → (block.valid = true ↔ i < n)

/-- The next free slot is a hole. -/
theorem Slots.hole_free (h : Slots numBlocks set n) (hn : n < numBlocks.toNat) :
    Hole numBlocks set (n + 1) n := by
  refine ⟨h.length_blocks, by rw [h.size_eq], hn, by omega, ?_, ?_⟩
  · intro tag i
    rw [h.index_iff]
    constructor
    · rintro ⟨hlt, hget⟩
      exact ⟨by omega, by omega, hget⟩
    · rintro ⟨hlt, hne, hget⟩
      exact ⟨by omega, hget⟩
  · intro i block hne hi
    rw [h.valid_iff i block hi]
    omega

/-- Dropping a resident tag from the map makes its slot a hole. -/
theorem Slots.hole_erase (h : Slots numBlocks set n) {j : Nat} {victim : Block}
    (hj : set.blocks[j]? = some victim) (hjn : j < n) :
    Hole numBlocks { set with tagIndex := set.tagIndex.erase victim.tag } n j := by
  have hmem : victim.tag ∈ set.tagIndex := (h.mem_iff _).mpr
    (List.mem_map_of_mem (mem_take_iff_getElem?.mpr ⟨j, hjn, hj⟩))
  refine ⟨h.length_blocks, ?_, h.le_capacity, hjn, ?_, ?_⟩
  · have := Std.ExtTreeMap.size_erase (t := set.tagIndex) (k := victim.tag)
    rw [if_pos (Std.ExtTreeMap.mem_iff_contains.mp hmem), h.size_eq] at this
    show (set.tagIndex.erase victim.tag).size + 1 = n
    omega
  · intro tag i
    simp only [Std.ExtTreeMap.getElem?_erase, Std.compare_eq_iff_eq]
    by_cases ht : victim.tag = tag
    · -- the victim's tag points nowhere, and its slot was the only one with that tag
      subst ht
      simp only [if_true, reduceCtorEq, false_iff, not_and]
      rintro hlt hne hget
      obtain ⟨block, hb, htag⟩ := Option.map_eq_some_iff.mp hget
      exact hne (h.tag_injective hb hj hlt hjn htag)
    · rw [if_neg ht, h.index_iff]
      refine and_congr_right fun _ => ⟨fun hget => ⟨?_, hget⟩, And.right⟩
      intro heq
      rw [heq, hj, Option.map_some, Option.some.injEq] at hget
      exact ht hget
  · exact fun i block _ hi => h.valid_iff i block hi

/-- Filling the hole restores the bookkeeping. -/
theorem Hole.fill {j : Nat} (h : Hole numBlocks set n j) {tag : UInt32}
    (ht : tag ∉ set.tagIndex) (lru : Bool) : Slots numBlocks (set.filled j tag lru) n := by
  have hjlen : j < set.blocks.length := by
    rw [h.length_blocks]
    exact lt_of_lt_of_le h.slot_lt h.le_capacity
  have hslot : (UInt32.ofNat j).toNat = j := by
    rw [UInt32.toNat_ofNat', Nat.mod_eq_of_lt]
    have := numBlocks.toNat_lt
    have := h.length_blocks
    omega
  refine ⟨by rw [← h.length_blocks]; exact List.length_set, ?_, h.le_capacity, ?_, ?_⟩
  · rw [← h.size_eq]
    show (set.tagIndex.insert tag (UInt32.ofNat j)).size = _
    rw [Std.ExtTreeMap.size_insert, if_neg (by simpa using ht)]
  · intro t k
    simp only [CacheSet.filled, Std.ExtTreeMap.getElem?_insert, Std.compare_eq_iff_eq]
    by_cases hkj : k.toNat = j
    · -- the filled slot: only the new tag leads there
      have hk : UInt32.ofNat j = k := by rw [← hkj, UInt32.ofNat_toNat]
      rw [hkj, List.getElem?_set_self hjlen, Option.map_some, Option.some.injEq, hk]
      split
      · next htt => exact ⟨fun _ => ⟨h.slot_lt, htt⟩, fun _ => rfl⟩
      · next htt =>
          rw [h.index_iff]
          exact ⟨fun hc => absurd hkj hc.2.1, fun hc => absurd hc.2 htt⟩
    · rw [List.getElem?_set_ne (Ne.symm hkj)]
      split
      · next htt =>
          subst htt
          constructor
          · intro heq
            exact absurd (by rw [← Option.some.inj heq, hslot]) hkj
          · rintro ⟨hlt, hget⟩
            have hfound := (h.index_iff tag k).mpr ⟨hlt, hkj, hget⟩
            rw [Std.ExtTreeMap.getElem?_eq_none ht] at hfound
            exact absurd hfound (by simp)
      · rw [h.index_iff]
        exact ⟨fun hc => ⟨hc.1, hc.2.2⟩, fun hc => ⟨hc.1, hkj, hc.2⟩⟩
  · intro i block hi
    simp only [CacheSet.filled, List.getElem?_set] at hi
    split at hi
    · next heq =>
        rw [← heq, ← Option.some.inj hi]
        exact ⟨fun _ => h.slot_lt, fun _ => rfl⟩
    · next hne => exact h.valid_iff i block (Ne.symm hne) hi

end

/-! ## The represented order -/

/-- `set` holds exactly the tags of `order`, oldest first. -/
structure Represents (lru : Bool) (numBlocks : UInt32) (set : CacheSet)
    (order : List UInt32) : Prop where
  slots : Slots numBlocks set order.length
  ordered : Ordered lru (set.blocks.take order.length) order
  below : ∀ block ∈ set.blocks.take order.length, block.time lru < set.timestamp

/-- A timestamp that does not wrap grows. -/
theorem lt_succ_timestamp {t : UInt32} (ht : t.toNat + 1 < 2 ^ 32) : t < t + 1 := by
  rw [UInt32.lt_iff_toNat_lt, toNat_add_one ht]
  omega

section

variable {lru : Bool} {numBlocks : UInt32} {set : CacheSet} {order : List UInt32}

theorem Represents.nodup (h : Represents lru numBlocks set order) : order.Nodup :=
  h.ordered.perm_tags.nodup_iff.mpr h.slots.nodup_tags

/-- A hit is residence. -/
theorem Represents.mem_iff (h : Represents lru numBlocks set order) (tag : UInt32) :
    tag ∈ set.tagIndex ↔ tag ∈ order := by
  rw [h.slots.mem_iff, h.ordered.perm_tags.mem_iff]

/-- A resident tag sits at the index the map gives it. -/
theorem Represents.lookup (h : Represents lru numBlocks set order) {tag : UInt32}
    (ht : tag ∈ order) : ∃ i block, set.tagIndex[tag]? = some i ∧
      i.toNat < order.length ∧ set.blocks[i.toNat]? = some block ∧ block.tag = tag := by
  have hsome := Std.ExtTreeMap.isSome_getElem?_iff_mem.mpr ((h.mem_iff tag).mpr ht)
  obtain ⟨i, hi⟩ := Option.isSome_iff_exists.mp hsome
  obtain ⟨hlt, hget⟩ := (h.slots.index_iff tag i).mp hi
  obtain ⟨block, hb, htag⟩ := Option.map_eq_some_iff.mp hget
  exact ⟨i, block, hi, hlt, hb, htag⟩

/-- A fresh set is empty. -/
theorem represents_empty (lru : Bool) (numBlocks : UInt32) {block : Block}
    (hb : block.valid = false) :
    Represents lru numBlocks
      { blocks := List.replicate numBlocks.toNat block, tagIndex := ∅, timestamp := 0 } [] := by
  refine ⟨⟨by simp, by simp, by simp, by simp, ?_⟩, ⟨[], by simp⟩, by simp⟩
  intro i b hi
  have : b = block := List.eq_of_mem_replicate (List.mem_of_getElem? hi)
  simp [this, hb]

/-- Changing a dirty flag changes no order. -/
theorem Represents.setDirty (h : Represents lru numBlocks set order) {i : Nat} {block : Block}
    (hb : set.blocks[i]? = some block) :
    Represents lru numBlocks
      { set with blocks := set.blocks.set i { block with dirty := true } } order := by
  have hstamps : ((set.blocks.set i { block with dirty := true }).take order.length).map
      (Block.stamp lru) = (set.blocks.take order.length).map (Block.stamp lru) := by
    rw [List.map_take, List.map_take]
    refine congrArg (List.take order.length) (List.ext_getElem? fun k => ?_)
    rw [List.getElem?_map, List.getElem?_map]
    exact getElem?_set_map (f := Block.stamp lru) (b := { block with dirty := true }) hb rfl k
  refine ⟨h.slots.overwrite { block with dirty := true } hb rfl rfl rfl rfl,
    h.ordered.of_stamps hstamps, ?_⟩
  intro b hmem
  have hin : b.stamp lru ∈ (set.blocks.take order.length).map (Block.stamp lru) :=
    hstamps ▸ List.mem_map_of_mem hmem
  obtain ⟨b', hb', heq⟩ := List.mem_map.mp hin
  have htime : b'.time lru = b.time lru := congrArg Prod.snd heq
  exact htime ▸ h.below b' hb'

/-- Stamping a resident block is a hit of the `lru` discipline. -/
theorem Represents.stamped (h : Represents true numBlocks set order) {tag i : UInt32}
    {block : Block} (hi : set.tagIndex[tag]? = some i)
    (hb : set.blocks[i.toNat]? = some block) (hts : set.timestamp.toNat + 1 < 2 ^ 32) :
    Represents true numBlocks (set.stamped i block) (touch .lru tag order) := by
  obtain ⟨hlt, htag⟩ := (h.slots.index_iff tag i).mp hi
  rw [hb, Option.map_some, Option.some.injEq] at htag
  have hget : (set.blocks.take order.length)[i.toNat]? = some block := by
    rw [List.getElem?_take, if_pos hlt, hb]
  have hmem : tag ∈ order := (h.mem_iff tag).mp (Std.ExtTreeMap.mem_iff_isSome_getElem?.mpr (by
    rw [hi]
    rfl))
  have hlen : (touch .lru tag order).length = order.length := (touch_perm hmem).length_eq
  let block' : Block := { block with accessTime := set.timestamp }
  have hnew : block'.stamp true = (tag, set.timestamp) := by
    simp [block', Block.stamp, Block.time, htag]
  -- in the order of the slots the block stays where it is; by time it is now the last
  have hlive : ((set.stamped i block).blocks.take order.length).Perm
      (block' :: (set.blocks.take order.length).eraseIdx i.toNat) := by
    show List.Perm ((set.blocks.set i.toNat block').take order.length) _
    rw [List.take_set]
    exact List.set_perm_cons_eraseIdx (List.getElem?_eq_some_iff.mp hget).1 _
  refine ⟨?_, ?_, ?_⟩
  · rw [hlen]
    exact h.slots.overwrite block' hb rfl rfl rfl rfl
  · rw [hlen]
    have hrest := h.ordered.eraseIdx h.nodup hget
    rw [htag] at hrest
    exact hrest.push (fun b hb => h.below b (List.mem_of_mem_eraseIdx hb)) hnew hlive
  · intro b hbmem
    rw [hlen] at hbmem
    show b.time true < set.timestamp + 1
    rcases List.mem_cons.mp (hlive.mem_iff.mp hbmem) with rfl | hold
    · exact lt_succ_timestamp hts
    · exact UInt32.lt_trans (h.below b (List.mem_of_mem_eraseIdx hold)) (lt_succ_timestamp hts)

/-- Filling a hole with a new tag, when the blocks outside the hole are ordered
by `rest`. -/
theorem represents_filled {n j : Nat} {rest : List UInt32} {tag : UInt32}
    (hole : Hole numBlocks set n j) (ht : tag ∉ set.tagIndex) (hn : n = rest.length + 1)
    (hothers : Ordered lru ((set.blocks.take n).eraseIdx j) rest)
    (hbelow : ∀ b ∈ (set.blocks.take n).eraseIdx j, b.time lru < set.timestamp)
    (hts : set.timestamp.toNat + 1 < 2 ^ 32) :
    Represents lru numBlocks (set.filled j tag lru) (rest ++ [tag]) := by
  have hlen : (rest ++ [tag]).length = n := by simp [hn]
  have hjlen : j < (set.blocks.take n).length := by
    rw [List.length_take, hole.length_blocks]
    exact lt_min hole.slot_lt (lt_of_lt_of_le hole.slot_lt hole.le_capacity)
  let block : Block :=
    { tag := tag, valid := true, dirty := false
      accessTime := if lru then set.timestamp else 0
      loadTime := if lru then 0 else set.timestamp }
  have hstamp : block.stamp lru = (tag, set.timestamp) := by
    cases lru <;> simp [block, Block.stamp, Block.time]
  -- the new block is younger than all others, whichever slot it takes
  have hlive : ((set.filled j tag lru).blocks.take n).Perm
      (block :: (set.blocks.take n).eraseIdx j) := by
    show List.Perm ((set.blocks.set j block).take n) _
    rw [List.take_set]
    exact List.set_perm_cons_eraseIdx hjlen _
  refine ⟨hlen ▸ hole.fill ht lru, ?_, ?_⟩
  · rw [hlen]
    exact hothers.push hbelow hstamp hlive
  · intro b hb
    rw [hlen] at hb
    show b.time lru < set.timestamp + 1
    rcases List.mem_cons.mp (hlive.mem_iff.mp hb) with rfl | hold
    · rw [show block.time lru = set.timestamp from congrArg Prod.snd hstamp]
      exact lt_succ_timestamp hts
    · exact UInt32.lt_trans (hbelow b hold) (lt_succ_timestamp hts)

end

end Csf.CacheSim
