import Csf.CacheSim.Address

/-!
# Cache simulator: loads, stores, placement and eviction

`cachefuncs.cpp` from `update_timestamp_LRU` to `cache_handler`, in its order.
An iterator into `blocks` is its index; `choose_evicted_block` returns `none`
for the iterator it never assigned, and using that one is `Fault.undefined`.

The last part runs the handler over a trace (the loop of `main`), once plainly
and once recording what every access saw.
-/

namespace Csf.CacheSim

open Csf.Lib

/-! ## Timestamps -/

/-- The set once the block in slot `i` is stamped as just used. -/
def CacheSet.stamped (set : CacheSet) (i : UInt32) (block : Block) : CacheSet :=
  { set with
    blocks := set.blocks.set i.toNat { block with accessTime := set.timestamp }
    timestamp := set.timestamp + 1 }

/-- `update_timestamp_LRU` -/
def updateTimestampLRU (index tag : UInt32) (cache : Cache) : Except Fault Cache := do
  let set ← cache.setAt index
  let i ← set.indexAt tag
  let block ← set.blockAt i
  pure (cache.putSet index (set.stamped i block))

/-- `if (lru) update_timestamp_LRU(...)`, the bookkeeping of a hit. -/
def stampOnHit (lru : Bool) (index tag : UInt32) (cache : Cache) : Except Fault Cache :=
  if lru then updateTimestampLRU index tag cache else .ok cache

/-! ## Placement -/

/-- `find_empty_spot`: the number of map entries is the next free slot. -/
def findEmptySpot (set : CacheSet) : Nat := set.tagIndex.size

/-- The scan of `choose_evicted_block`, over the time field in use, from
position `i`. -/
def scanOldest (time : Block → UInt32) :
    List Block → (i : Nat) → (minimum : UInt32) → (oldest : Option Nat) → Option Nat
  | [], _, _, oldest => oldest
  | block :: rest, i, minimum, oldest =>
      if time block < minimum then scanOldest time rest (i + 1) (time block) (some i)
      else scanOldest time rest (i + 1) minimum oldest

/-- `choose_evicted_block` -/
def chooseEvictedBlock (set : CacheSet) (lru : Bool) : Option Nat :=
  if lru then scanOldest Block.accessTime set.blocks 0 set.timestamp none
  else scanOldest Block.loadTime set.blocks 0 set.timestamp none

/-- `(100 * num_bytes) >> 2`: 100 cycles for every 4 bytes of a block. -/
def transferCycles (numBytes : UInt32) : UInt32 := (100 * numBytes) >>> 2

def CacheStats.addCycles (stats : CacheStats) (cycles : UInt32) : CacheStats :=
  { stats with totalCycles := stats.totalCycles + cycles }

/-- The full-set branch of `place_in_cache`: pick the victim, charge its
write-back, drop its map entry. -/
def evict (set : CacheSet) (lru : Bool) (numBytes : UInt32) (stats : CacheStats) :
    Except Fault (Nat × CacheSet × CacheStats) :=
  match chooseEvictedBlock set lru with
  | none => .error .undefined
  | some iter =>
      match set.blocks[iter]? with
      | none => .error .undefined
      | some victim =>
          .ok (iter, { set with tagIndex := set.tagIndex.erase victim.tag },
            if victim.dirty then stats.addCycles (transferCycles numBytes) else stats)

/-- The set once slot `iter` holds a freshly loaded `tag`. -/
def CacheSet.filled (set : CacheSet) (iter : Nat) (tag : UInt32) (lru : Bool) : CacheSet :=
  let block : Block :=
    { tag := tag, valid := true, dirty := false
      accessTime := if lru then set.timestamp else 0
      loadTime := if lru then 0 else set.timestamp }
  { blocks := set.blocks.set iter block
    timestamp := set.timestamp + 1
    tagIndex := set.tagIndex.insert tag (UInt32.ofNat iter) }

/-- The second half of `place_in_cache`: fill slot `iter` and enter its tag. -/
def fillBlock (set : CacheSet) (iter : Nat) (tag : UInt32) (lru : Bool) :
    Except Fault CacheSet :=
  if iter < set.blocks.length then .ok (set.filled iter tag lru) else .error .undefined

/-- `place_in_cache` -/
def placeInCache (index tag : UInt32) (lru : Bool) (numBytes : UInt32) (cache : Cache)
    (stats : CacheStats) : Except Fault (Cache × CacheStats) := do
  let set ← cache.setAt index
  let (iter, set, stats) ←
    if findEmptySpot set = set.blocks.length then evict set lru numBytes stats
    else pure (findEmptySpot set, set, stats)
  let set ← fillBlock set iter tag lru
  pure (cache.putSet index set, stats)

/-! ## Accesses -/

/-- `hit` -/
def hit (index tag : UInt32) (cache : Cache) : Except Fault Bool := do
  let set ← cache.setAt index
  pure (set.tagIndex.contains tag)

/-- `tagIndex[tag]`, which enters 0 for a missing key. -/
def subscript (tagIndex : TagIndex) (tag : UInt32) : UInt32 × TagIndex :=
  (tagIndex.getD tag 0, tagIndex.insertIfNew tag 0)

/-- The write-back arm of a store hit: `blocks[tagIndex[tag]].dirty = true`. -/
def markDirty (index tag : UInt32) (cache : Cache) : Except Fault Cache := do
  let set ← cache.setAt index
  let (i, tagIndex) := subscript set.tagIndex tag
  match set.blocks[i.toNat]? with
  | none => .error .undefined
  | some block =>
      pure (cache.putSet index
        { set with tagIndex := tagIndex
                   blocks := set.blocks.set i.toNat { block with dirty := true } })

/-- `cache_store` -/
def cacheStore (index tag : UInt32) (cfg : Config) (cache : Cache) (stats : CacheStats) :
    Except Fault (Cache × CacheStats) := do
  if ← hit index tag cache then
    let stats := { stats with storeHits := stats.storeHits + 1 }
    let cache ← stampOnHit cfg.lru index tag cache
    if cfg.write then
      pure (cache, (stats.addCycles 100).addCycles 1)
    else
      let cache ← markDirty index tag cache
      pure (cache, stats.addCycles 1)
  else
    let stats := { stats with storeMisses := stats.storeMisses + 1 }
    if cfg.allocation then
      placeInCache index tag cfg.lru cfg.numBytes cache
        ((stats.addCycles 1).addCycles (transferCycles cfg.numBytes))
    else
      pure (cache, stats.addCycles 100)

/-- `cache_load` -/
def cacheLoad (index tag : UInt32) (cfg : Config) (cache : Cache) (stats : CacheStats) :
    Except Fault (Cache × CacheStats) := do
  if ← hit index tag cache then
    let stats := stats.addCycles 1
    let stats := { stats with loadHits := stats.loadHits + 1 }
    let cache ← stampOnHit cfg.lru index tag cache
    pure (cache, stats)
  else
    let stats := { stats with loadMisses := stats.loadMisses + 1 }
    placeInCache index tag cfg.lru cfg.numBytes cache
      (stats.addCycles (transferCycles cfg.numBytes))

/-- `cache_handler` -/
def cacheHandler (memAction : Char) (address : UInt32) (cfg : Config) (cache : Cache)
    (stats : CacheStats) : Except Fault (Cache × CacheStats) := do
  let index ← readIndex address cfg.numSets cfg.numBytes
  let tag ← readTag address cfg.numSets cfg.numBytes
  if memAction = 's' then
    cacheStore index tag cfg cache { stats with totalStores := stats.totalStores + 1 }
  else if memAction = 'l' then
    cacheLoad index tag cfg cache { stats with totalLoads := stats.totalLoads + 1 }
  else pure (cache, stats)

/-! ## Traces -/

/-- The two commands `main` passes on to `cache_handler`. -/
inductive Op where
  | load
  | store
deriving DecidableEq, Repr

def Op.cmd : Op → Char
  | .load => 'l'
  | .store => 's'

/-- One line of a trace. -/
structure Access where
  op : Op
  address : UInt32
deriving DecidableEq, Repr

/-- What `main` carries through its loop. -/
structure Sim where
  cache : Cache
  stats : CacheStats
deriving DecidableEq

/-- The state before the first line of input. -/
def Sim.init (cfg : Config) : Sim :=
  { cache := cacheInitialize cfg.numSets cfg.numBlocks, stats := CacheStats.zero }

/-- One round of `main`'s loop. -/
def Sim.step (cfg : Config) (s : Sim) (a : Access) : Except Fault Sim := do
  let (cache, stats) ← cacheHandler a.op.cmd a.address cfg s.cache s.stats
  pure { cache := cache, stats := stats }

/-- What an access meets: the fields of its address and whether it hits. -/
structure Event where
  op : Op
  index : UInt32
  tag : UInt32
  hit : Bool
deriving DecidableEq, Repr

/-- The event an access is about to cause, read off the state before it. -/
def observe (cfg : Config) (cache : Cache) (a : Access) : Except Fault Event := do
  let index ← readIndex a.address cfg.numSets cfg.numBytes
  let tag ← readTag a.address cfg.numSets cfg.numBytes
  let h ← hit index tag cache
  pure { op := a.op, index := index, tag := tag, hit := h }

/-- `main`'s loop over a whole trace, with the events of its accesses. -/
def run (cfg : Config) : List Access → Sim → Except Fault (List Event × Sim)
  | [], s => .ok ([], s)
  | a :: rest, s => do
      let event ← observe cfg s.cache a
      let s ← s.step cfg a
      let (events, s) ← run cfg rest s
      pure (event :: events, s)

/-- `events` and `s` are what the simulator has after `trace`. -/
def Reaches (cfg : Config) (trace : List Access) (events : List Event) (s : Sim) : Prop :=
  run cfg trace (Sim.init cfg) = .ok (events, s)

end Csf.CacheSim
