import Gwenhywfar.Base.Error
import Gwenhywfar.Base.IdMapIter
import Mathlib.Logic.Relation

/-! # `GWEN_MEMCACHE`

The entries that are not yet freed are kept by pointer.  A call has no outcome when an assertion
fails, a pointer is used that is not that of an entry or not any more, or a counter of uses does not
fit its type.
What the clock shows is an argument.  The mutex is left out, and the data pointers with it.

* `makeRoom`, `createEntry`, `purgeEntries`: the functions of the source.
* `EvictStep`: what room is made of, in terms of the entries alone. -/

namespace Gwenhywfar
namespace MemCache

/-- `GWEN_MEMCACHE_ENTRY`. -/
structure Entry where
  id : UInt32
  useCounter : ℕ
  unusedSince : ℤ
  dataLen : UInt64
  isValid : Bool
deriving DecidableEq

end MemCache

/-- `GWEN_MEMCACHE`. -/
structure MemCache where
  idMap : IdMap ℕ
  alive : List (ℕ × MemCache.Entry)
  fresh : ℕ
  maxCacheMemory : UInt64
  maxCacheEntries : UInt32
  currentCacheMemory : UInt64
  currentCacheEntries : UInt32

namespace MemCache

/-- `GWEN_MemCache_new`. -/
def new (maxCacheMemory : UInt64) (maxCacheEntries : UInt32) : MemCache :=
  ⟨IdMap.new, [], 0, maxCacheMemory, maxCacheEntries, 0, 0⟩

def entry (mc : MemCache) (me : ℕ) : Option Entry := mc.alive.lookup me

/-- These entries with another one behind a pointer. -/
def replace (me : ℕ) (e : Entry) (es : List (ℕ × Entry)) : List (ℕ × Entry) :=
  es.map fun p => if p.1 = me then (me, e) else p

/-- These entries without the one behind a pointer. -/
def drop (me : ℕ) (es : List (ℕ × Entry)) : List (ℕ × Entry) := es.filter (·.1 ≠ me)

def setEntry (mc : MemCache) (me : ℕ) (e : Entry) : MemCache :=
  { mc with alive := replace me e mc.alive }

/-- `GWEN_MemCacheEntry_new`. -/
def newEntry (mc : MemCache) (id : UInt32) (dataLen : UInt64) : ℕ × MemCache :=
  (mc.fresh, { mc with
    alive := mc.alive ++ [(mc.fresh, ⟨id, 0, 0, dataLen, true⟩)]
    fresh := mc.fresh + 1
    currentCacheEntries := mc.currentCacheEntries + 1
    currentCacheMemory := mc.currentCacheMemory + dataLen })

/-- `GWEN_MemCacheEntry_free`. -/
def freeEntry (mc : MemCache) (me : ℕ) : Option MemCache :=
  (mc.entry me).bind fun e =>
    -- assert(me->useCounter==0)
    if e.useCounter ≠ 0 then none
    else some { mc with
      alive := drop me mc.alive
      currentCacheEntries := mc.currentCacheEntries - 1
      currentCacheMemory := mc.currentCacheMemory - e.dataLen }

/-- `GWEN_MemCacheEntry_BeginUse`. -/
def beginUse (mc : MemCache) (me : ℕ) : Option MemCache :=
  (mc.entry me).bind fun e =>
    if e.useCounter + 1 < 2 ^ 31 then
      some (mc.setEntry me { e with useCounter := e.useCounter + 1 })
    else none

/-- `GWEN_MemCacheEntry_EndUse`. -/
def endUse (mc : MemCache) (me : ℕ) (now : ℤ) : Option MemCache :=
  (mc.entry me).bind fun e =>
    -- assert(me->useCounter>0)
    if e.useCounter = 0 then none
    else
      let mc := mc.setEntry me { e with useCounter := e.useCounter - 1 }
      if e.useCounter - 1 = 0 then
        -- the entry is freed, and the mutex is unlocked through its pointer to the cache
        if e.isValid = false then none
        else some (mc.setEntry me { e with useCounter := 0, unusedSince := now })
      else some mc

/-- `GWEN_MemCache_FindEntry`. -/
def findEntry (mc : MemCache) (id : UInt32) : Option (Option ℕ × MemCache) :=
  match mc.idMap.find id with
  | none => some (none, mc)
  | some me => (mc.beginUse me).map fun mc => (some me, mc)

/-- `GWEN_MemCacheEntry_IdMap_Remove`. -/
def idMapRemove (mc : MemCache) (id : UInt32) : Option MemCache :=
  (mc.idMap.setPair id none).map fun r => { mc with idMap := r.2 }

/-- `GWEN_MemCache_PurgeEntry`. -/
def purgeEntry (mc : MemCache) (id : UInt32) : Option MemCache :=
  match mc.idMap.find id with
  | none => some mc
  | some me => (mc.entry me).bind fun e =>
      ((mc.setEntry me { e with isValid := false }).idMapRemove id).bind fun mc =>
        if e.useCounter = 0 then mc.freeEntry me else some mc

def older (mc : MemCache) (oldestEntry : Option (ℕ × Entry)) (currentId : UInt32) :
    Option (Option (ℕ × Entry)) :=
  match mc.idMap.find currentId with
  | none => some oldestEntry
  | some me => (mc.entry me).map fun e =>
      if e.isValid = true ∧ e.useCounter = 0 then
        match oldestEntry with
        | none => some (me, e)
        | some o => if e.unusedSince < o.2.unusedSince then some (me, e) else some o
      else oldestEntry

def oldestEntry (mc : MemCache) : Option (Option (ℕ × Entry)) :=
  (mc.idMap.iterate (2 ^ 32)).bind fun ids => ids.foldlM mc.older none

/-- `GWEN_MemCache__MakeRoom`. -/
def makeRoom : ℕ → MemCache → UInt64 → Option (ℤ × MemCache)
  | 0, _, _ => none
  | fuel + 1, mc, neededSize =>
      if neededSize = 0 then some (0, mc)
      else mc.oldestEntry.bind fun r =>
        match r with
        | none => some (errorMemoryFull, mc)
        | some (me, e) =>
            let neededSize := if neededSize < e.dataLen then 0 else neededSize - e.dataLen
            ((mc.idMapRemove e.id).bind fun mc => mc.freeEntry me).bind fun mc =>
              makeRoom fuel mc neededSize

/-- As many rounds as there are entries are enough. -/
def release (mc : MemCache) (neededSize : UInt64) : Option (ℤ × MemCache) :=
  makeRoom (mc.alive.length + 1) mc neededSize

/-- `GWEN_MemCache_CreateEntry`. -/
def createEntry (mc : MemCache) (id : UInt32) (dataLen : UInt64) : Option (Option ℕ × MemCache) :=
  (mc.purgeEntry id).bind fun mc =>
  -- check for limits: entry count
  (if mc.currentCacheEntries ≥ mc.maxCacheEntries then mc.release 1 else some (0, mc)).bind
    fun r =>
  if r.1 ≠ 0 then some (none, r.2)
  else
    let mc := r.2
    -- check for limits: memory in use
    (if mc.currentCacheMemory + dataLen ≥ mc.maxCacheMemory then
      mc.release (mc.currentCacheMemory + dataLen - mc.maxCacheMemory)
    else some (0, mc)).bind fun r =>
    if r.1 ≠ 0 then some (none, r.2)
    else
      let n := r.2.newEntry id dataLen
      (n.2.beginUse n.1).bind fun mc =>
        (mc.idMap.setPair id (some n.1)).map fun m => (some n.1, { mc with idMap := m.2 })

/-- The loop of `GWEN_MemCache_PurgeEntries`. -/
def purgeFrom (id mask : UInt32) : ℕ → MemCache → UInt32 → Option MemCache
  | 0, _, _ => none
  | fuel + 1, mc, currentId =>
      (mc.idMap.findNext (2 ^ 32) currentId).bind fun r =>
        (if currentId &&& mask = id then mc.purgeEntry currentId else some mc).bind fun mc =>
          match r with
          | none => some mc
          | some nextId => purgeFrom id mask fuel mc nextId

/-- `GWEN_MemCache_PurgeEntries`. -/
def purgeEntries (mc : MemCache) (id mask : UInt32) : Option MemCache :=
  match mc.idMap.findFirst with
  | none => some mc
  | some currentId => purgeFrom id mask (2 ^ 32) mc currentId

/-- The operations of the callers. -/
inductive Op where
  | createEntry (id : UInt32) (dataLen : UInt64)
  | findEntry (id : UInt32)
  | beginUse (me : ℕ)
  | endUse (me : ℕ) (now : ℤ)
  | purgeEntry (id : UInt32)
  | purgeEntries (id mask : UInt32)
deriving DecidableEq

/-- One operation with the entry it returns. -/
def call (mc : MemCache) : Op → Option (Option ℕ × MemCache)
  | .createEntry id dataLen => mc.createEntry id dataLen
  | .findEntry id => mc.findEntry id
  | .beginUse me => (mc.beginUse me).map fun mc => (none, mc)
  | .endUse me now => (mc.endUse me now).map fun mc => (none, mc)
  | .purgeEntry id => (mc.purgeEntry id).map fun mc => (none, mc)
  | .purgeEntries id mask => (mc.purgeEntries id mask).map fun mc => (none, mc)

/-- One operation. -/
def step (mc : MemCache) (o : Op) : Option MemCache := (mc.call o).map Prod.snd

/-! ### Entries -/

/-- An entry that can be released. -/
def Unused (p : ℕ × Entry) : Prop := p.2.isValid = true ∧ p.2.useCounter = 0

def inUse (es : List (ℕ × Entry)) : List (ℕ × Entry) := es.filter (·.2.useCounter ≠ 0)

def total (es : List (ℕ × Entry)) : ℕ := (es.map (·.2.dataLen.toNat)).sum

/-- Of two unused entries the one to be released first. -/
def NotAfter (p q : ℕ × Entry) : Prop :=
  p.2.unusedSince < q.2.unusedSince ∨ p.2.unusedSince = q.2.unusedSince ∧ p.2.id ≤ q.2.id

/-- The unused entry to be released first. -/
def IsOldest (es : List (ℕ × Entry)) (p : ℕ × Entry) : Prop :=
  p ∈ es ∧ Unused p ∧ ∀ q ∈ es, Unused q → NotAfter p q

/-- Entries and the size still needed, and both after the oldest entry was released. -/
def EvictStep (s t : List (ℕ × Entry) × ℕ) : Prop :=
  s.2 ≠ 0 ∧ ∃ p, IsOldest s.1 p ∧ t = (drop p.1 s.1, s.2 - p.2.dataLen.toNat)

/-- What releasing one entry after the other leads to. -/
def Reaches (es : List (ℕ × Entry)) (n : ℕ) (es' : List (ℕ × Entry)) (n' : ℕ) : Prop :=
  Relation.ReflTransGen EvictStep (es, n) (es', n')

/-- There are no ids, or one that has only its lowest digit. -/
def Listed (es : List (ℕ × Entry)) : Prop :=
  (∀ p ∈ es, p.2.isValid = false) ∨ ∃ p ∈ es, p.2.isValid = true ∧ p.2.id < 16

/-- Whenever room is made, the ids can be listed. -/
def Scannable (es : List (ℕ × Entry)) (n : ℕ) : Prop :=
  ∀ es' n', Reaches es n es' n' → n' ≠ 0 → Listed es'

/-- The entries after one is invalidated: it stays as long as it is used. -/
def invalidate (id : UInt32) (es : List (ℕ × Entry)) : List (ℕ × Entry) :=
  es.filterMap fun p =>
    if p.2.isValid = true ∧ p.2.id = id then
      if p.2.useCounter = 0 then none else some (p.1, { p.2 with isValid := false })
    else some p
end MemCache
end Gwenhywfar
