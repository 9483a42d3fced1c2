import Mathlib

/-!
# Cache simulator: data model

The records of `cachestruct.h`. A `std::vector` is a list, a `uint32_t` a
`UInt32` with its wrapping arithmetic, and `std::map<uint32_t, uint32_t>` the
extensional tree map of the standard library, so that two maps with the same
entries are equal.

Operations that C++ leaves undefined, or that throw, are `Fault`s: a run that
meets none of them returns `.ok`.
-/

namespace Csf.CacheSim

/-- Ways in which the simulator leaves its defined behaviour. -/
inductive Fault where
  /-- `std::out_of_range`, thrown by `at` -/
  | outOfRange
  /-- undefined behaviour: an unassigned iterator, an index outside a vector,
  a shift by the width of the operand or more -/
  | undefined
  /-- a loop whose exit test never holds -/
  | diverges
deriving DecidableEq, Repr

structure Block where
  tag : UInt32
  loadTime : UInt32
  accessTime : UInt32
  valid : Bool
  dirty : Bool
deriving DecidableEq, Repr

/-- `tagIndex`: which index in the blocks vector has the corresponding tag data. -/
abbrev TagIndex := Std.ExtTreeMap UInt32 UInt32 compare

/-- The source's `Set`. -/
structure CacheSet where
  blocks : List Block
  tagIndex : TagIndex
  timestamp : UInt32
deriving DecidableEq

structure Cache where
  sets : List CacheSet
deriving DecidableEq

structure CacheStats where
  totalLoads : UInt32
  totalStores : UInt32
  loadHits : UInt32
  loadMisses : UInt32
  storeHits : UInt32
  storeMisses : UInt32
  totalCycles : UInt32
deriving DecidableEq, Repr

/-- What `main` parses from the command line. -/
structure Config where
  numSets : UInt32
  numBlocks : UInt32
  numBytes : UInt32
  allocation : Bool
  write : Bool
  lru : Bool
deriving DecidableEq, Repr

/-! ## Element access -/

/-- `cache.sets.at(index)` -/
def Cache.setAt (cache : Cache) (index : UInt32) : Except Fault CacheSet :=
  match cache.sets[index.toNat]? with
  | some set => .ok set
  | none => .error .outOfRange

/-- Write back the set that `setAt index` referred to. -/
def Cache.putSet (cache : Cache) (index : UInt32) (set : CacheSet) : Cache :=
  { cache with sets := cache.sets.set index.toNat set }

/-- `blocks.at(i)` -/
def CacheSet.blockAt (set : CacheSet) (i : UInt32) : Except Fault Block :=
  match set.blocks[i.toNat]? with
  | some block => .ok block
  | none => .error .outOfRange

/-- `tagIndex.at(tag)` -/
def CacheSet.indexAt (set : CacheSet) (tag : UInt32) : Except Fault UInt32 :=
  match set.tagIndex[tag]? with
  | some i => .ok i
  | none => .error .outOfRange

/-- `cache_initialize` -/
def cacheInitialize (numSets numBlocks : UInt32) : Cache :=
  let block : Block :=
    { tag := 0, loadTime := 0, accessTime := 0, valid := false, dirty := false }
  let set : CacheSet :=
    { blocks := List.replicate numBlocks.toNat block, tagIndex := ∅, timestamp := 0 }
  { sets := List.replicate numSets.toNat set }

/-- `main`'s `CacheStats stats = {0, 0, 0, 0, 0, 0, 0}` -/
def CacheStats.zero : CacheStats :=
  { totalLoads := 0, totalStores := 0, loadHits := 0, loadMisses := 0
    storeHits := 0, storeMisses := 0, totalCycles := 0 }

@[simp] theorem Cache.setAt_eq_ok {cache : Cache} {index : UInt32} {set : CacheSet} :
    cache.setAt index = .ok set ↔ cache.sets[index.toNat]? = some set := by
  unfold Cache.setAt
  split <;> simp_all

/-- Writing back a set that has not changed. -/
theorem Cache.putSet_self {cache : Cache} {index : UInt32} {set : CacheSet}
    (h : cache.sets[index.toNat]? = some set) : cache.putSet index set = cache := by
  obtain ⟨hlt, hget⟩ := List.getElem?_eq_some_iff.mp h
  simp [Cache.putSet, ← hget]

end Csf.CacheSim
