import Gwenhywfar.Base.MultiCacheAccounts

/-! # The cache drops what was not used for the longest time

* `LruCache`: what the cache is for, its entries with the time of their last use, the oldest one
  first, and what has happened to its keys.
* `lastStored`: the pointer and the parameters that were last stored for a key, if it has neither been
  purged nor evicted since.
* `step_simulated` is the step of the simulation and `isLru_of_fitting` the run. -/

namespace Gwenhywfar

def CacheEntry.key (e : CacheEntry) : ℕ × UInt32 := (e.cacheType, e.id)

/-- An entry with the number of the call that used it last. -/
structure LruItem where
  entry : CacheEntry
  lastUse : ℕ

/-- What happens to a key. -/
inductive CacheEvent where
  | stored (key : ℕ × UInt32) (ptr : ℕ) (params : CacheParams)
  | purged (key : ℕ × UInt32)
  | purgedAll (ct : ℕ)
  | evicted (key : ℕ × UInt32)

def lastStored (key : ℕ × UInt32) : List CacheEvent → Option (ℕ × CacheParams)
  | [] => none
  | .stored k ptr params :: es => if k = key then some (ptr, params) else lastStored key es
  | .purged k :: es => if k = key then none else lastStored key es
  | .purgedAll ct :: es => if ct = key.1 then none else lastStored key es
  | .evicted k :: es => if k = key then none else lastStored key es

def expected (key : ℕ × UInt32) (params : CacheParams) (es : List CacheEvent) : Option ℕ :=
  (lastStored key es).bind fun (ptr, params') => if params' = params then some ptr else none

/-- A cache that drops what was not used for the longest time. -/
structure LruCache where
  items : List LruItem
  now : ℕ
  events : List CacheEvent

namespace LruCache

/-- No entries, at the start. -/
def empty : LruCache := ⟨[], 0, []⟩

def without (key : ℕ × UInt32) (is : List LruItem) : List LruItem :=
  is.filter fun i => i.entry.key ≠ key

def HasRoom (maxSize : ℕ) (size : UInt32) (is : List LruItem) : Prop :=
  (is.map fun i => i.entry.dataSize.toNat).sum + size.toNat ≤ maxSize

instance (maxSize : ℕ) (size : UInt32) (is : List LruItem) : Decidable (HasRoom maxSize size is) :=
  inferInstanceAs (Decidable (_ ≤ _))

/-- Drops entries, the one that was used longest ago first, until there is room. -/
def evict (maxSize : ℕ) (size : UInt32) : List LruItem → List CacheEvent →
    List LruItem × List CacheEvent
  | [], es => ([], es)
  | i :: is, es =>
      if HasRoom maxSize size (i :: is) then (i :: is, es)
      else evict maxSize size is (.evicted i.entry.key :: es)

def set (maxSize : ℕ) (c : LruCache) (e : CacheEntry) : LruCache :=
  let kept := evict maxSize e.dataSize (without e.key c.items) (.purged e.key :: c.events)
  ⟨kept.1 ++ [⟨e, c.now⟩], c.now + 1, .stored e.key e.dataPtr e.params :: kept.2⟩

def use (accepts : CacheEntry → Bool) (c : LruCache) (key : ℕ × UInt32) : LruCache :=
  match c.items.find? fun i => i.entry.key = key with
  | none => { c with now := c.now + 1 }
  | some i =>
      if accepts i.entry then
        { c with items := without key c.items ++ [⟨i.entry, c.now⟩], now := c.now + 1 }
      else { c with now := c.now + 1 }

/-- What a call does. -/
def step (maxSize : ℕ) (c : LruCache) : MultiCache.Op → LruCache
  | .setData ct id ptr size => c.set maxSize ⟨ct, id, size, ptr, ⟨0, 0, 0, 0⟩⟩
  | .setDataWithParams ct id ptr size params => c.set maxSize ⟨ct, id, size, ptr, params⟩
  | .getData ct id => c.use (fun _ => true) (ct, id)
  | .getDataWithParams ct id params => c.use (fun e => e.params = params) (ct, id)
  | .purgeData ct id => ⟨without (ct, id) c.items, c.now + 1, .purged (ct, id) :: c.events⟩
  | .purgeAll ct =>
      ⟨c.items.filter fun i => i.entry.cacheType ≠ ct, c.now + 1, .purgedAll ct :: c.events⟩

/-- What the calls do, one after the other. -/
def run (maxSize : ℕ) (ops : List MultiCache.Op) : LruCache := ops.foldl (step maxSize) empty

/-! ### The entries and what has happened -/

/-- The entries are those that were stored last, each key has one, and they are in the order of
their last use. -/
structure Ordered (is : List LruItem) (now : ℕ) (es : List CacheEvent) : Prop where
  order : is.Pairwise fun i j => i.lastUse < j.lastUse
  past : ∀ i ∈ is, i.lastUse < now
  distinct : is.Pairwise fun i j => i.entry.key ≠ j.entry.key
  recalled : ∀ key, lastStored key es =
    (is.find? fun i => i.entry.key = key).map fun i => (i.entry.dataPtr, i.entry.params)

theorem ordered_empty : Ordered [] 0 [] := ⟨.nil, by simp, .nil, fun _ => rfl⟩

variable {is : List LruItem}

theorem Ordered.mono {now : ℕ} {es : List CacheEvent} (h : Ordered is now es) :
    Ordered is (now + 1) es :=
  ⟨h.order, fun i hi => Nat.lt_succ_of_lt (h.past i hi), h.distinct, h.recalled⟩

theorem find_without (key k : ℕ × UInt32) (is : List LruItem) :
    ((without k is).find? fun i => i.entry.key = key) =
      if k = key then none else is.find? fun i => i.entry.key = key := by
  induction is with
  | nil => simp [without]
  | cons i is ih =>
      unfold without at ih ⊢
      by_cases hi : i.entry.key = k
      · rw [List.filter_cons_of_neg (by simpa using hi), ih]
        split
        · rfl
        · next hk => rw [List.find?_cons_of_neg (by simpa [hi] using hk)]
      · rw [List.filter_cons_of_pos (by simpa using hi)]
        by_cases hkey : i.entry.key = key
        · rw [List.find?_cons_of_pos (by simpa using hkey), List.find?_cons_of_pos (by simpa using hkey),
            if_neg (fun h => hi (hkey.trans h.symm))]
        · rw [List.find?_cons_of_neg (by simpa using hkey), ih,
            List.find?_cons_of_neg (by simpa using hkey)]

theorem Ordered.without {now : ℕ} {es : List CacheEvent}
    (h : Ordered is now es) (k : ℕ × UInt32) :
    Ordered (LruCache.without k is) now (.purged k :: es) where
  order := h.order.filter _
  past := fun i hi => h.past i (List.mem_of_mem_filter hi)
  distinct := h.distinct.filter _
  recalled := by
    intro key
    rw [lastStored, find_without, h.recalled]
    split <;> rfl

theorem Ordered.evict (maxSize : ℕ) (size : UInt32) {now : ℕ} : ∀ {is : List LruItem}
    {es : List CacheEvent}, Ordered is now es →
    Ordered (evict maxSize size is es).1 now (evict maxSize size is es).2
  | [], es, h => h
  | i :: is, es, h => by
      unfold LruCache.evict
      split
      · exact h
      · refine Ordered.evict maxSize size ⟨h.order.of_cons,
          fun j hj => h.past j (List.mem_cons_of_mem i hj), h.distinct.of_cons, fun key => ?_⟩
        rw [lastStored, h.recalled]
        by_cases hkey : i.entry.key = key
        · rw [if_pos hkey, List.find?_eq_none.mpr]
          · rfl
          · intro j hj
            have := List.rel_of_pairwise_cons h.distinct hj
            simpa [hkey, eq_comm] using this
        · rw [if_neg hkey, List.find?_cons_of_neg (by simpa using hkey)]

theorem Ordered.snoc {now : ℕ} {es es' : List CacheEvent}
    (h : Ordered is now es) {e : CacheEntry} (hnew : ∀ i ∈ is, i.entry.key ≠ e.key)
    (hes : ∀ key, lastStored key es' = if e.key = key then some (e.dataPtr, e.params)
      else lastStored key es) : Ordered (is ++ [⟨e, now⟩]) (now + 1) es' where
  order := List.pairwise_append.mpr ⟨h.order, List.pairwise_singleton _ _, fun i hi j hj => by
    rw [List.mem_singleton.mp hj]
    exact h.past i hi⟩
  past := by
    intro i hi
    rcases List.mem_append.mp hi with hi | hi
    · exact Nat.lt_succ_of_lt (h.past i hi)
    · rw [List.mem_singleton.mp hi]
      exact Nat.lt_succ_self now
  distinct := List.pairwise_append.mpr ⟨h.distinct, List.pairwise_singleton _ _, fun i hi j hj => by
    rw [List.mem_singleton.mp hj]
    exact hnew i hi⟩
  recalled := by
    intro key
    rw [hes, List.find?_append, h.recalled]
    by_cases hkey : e.key = key
    · rw [if_pos hkey, List.find?_eq_none.mpr (fun i hi => by simpa [← hkey] using hnew i hi)]
      simp [hkey]
    · rw [if_neg hkey]
      simp [hkey]

theorem mem_evict {maxSize : ℕ} {size : UInt32} : ∀ {is : List LruItem} {es : List CacheEvent}
    {i : LruItem}, i ∈ (evict maxSize size is es).1 → i ∈ is
  | [], _, _, hi => hi
  | j :: is, es, i, hi => by
      unfold evict at hi
      split at hi
      · exact hi
      · exact List.mem_cons_of_mem j (mem_evict hi)

theorem Ordered.set (maxSize : ℕ) {c : LruCache} (h : Ordered c.items c.now c.events)
    (e : CacheEntry) :
    Ordered (c.set maxSize e).items (c.set maxSize e).now (c.set maxSize e).events := by
  refine Ordered.snoc ((h.without e.key).evict maxSize e.dataSize) (fun i hi => ?_) fun _ => rfl
  simpa using (List.mem_filter.mp (mem_evict hi)).2

theorem Ordered.use (accepts : CacheEntry → Bool) {c : LruCache}
    (h : Ordered c.items c.now c.events) (key : ℕ × UInt32) :
    Ordered (c.use accepts key).items (c.use accepts key).now (c.use accepts key).events := by
  unfold LruCache.use
  cases hfind : c.items.find? fun i => i.entry.key = key with
  | none => exact h.mono
  | some i =>
      have hkey : i.entry.key = key := by simpa using List.find?_some hfind
      dsimp only
      split
      · refine (h.without key).snoc (fun j hj => ?_) fun k => ?_
        · simpa [hkey] using (List.mem_filter.mp hj).2
        · by_cases hk : i.entry.key = k
          · rw [if_pos hk, h.recalled, ← hk, hkey, hfind, Option.map_some]
          · rw [if_neg hk, lastStored, if_neg (hkey ▸ hk)]
      · exact h.mono

theorem Ordered.purgeAll {now : ℕ} {es : List CacheEvent}
    (h : Ordered is now es) (ct : ℕ) :
    Ordered (is.filter fun i => i.entry.cacheType ≠ ct) now (.purgedAll ct :: es) where
  order := h.order.filter _
  past := fun i hi => h.past i (List.mem_of_mem_filter hi)
  distinct := h.distinct.filter _
  recalled := by
    intro key
    rw [lastStored, h.recalled, List.find?_filter]
    by_cases hct : ct = key.1
    · rw [if_pos hct, List.find?_eq_none.mpr]
      · rfl
      · rintro i - hi
        obtain ⟨hne, hkey⟩ : i.entry.cacheType ≠ ct ∧ i.entry.key = key := by simpa using hi
        exact hne (hct ▸ congrArg Prod.fst hkey)
    · rw [if_neg hct]
      congr 2
      funext i
      rw [decide_eq_decide]
      refine ⟨fun hkey => ⟨?_, by simpa using hkey⟩, fun hi => by simpa using hi.2⟩
      rw [decide_eq_true_eq]
      rintro rfl
      exact hct (congrArg Prod.fst hkey)

theorem Ordered.step (maxSize : ℕ) {c : LruCache} (h : Ordered c.items c.now c.events)
    (o : MultiCache.Op) :
    Ordered (c.step maxSize o).items (c.step maxSize o).now (c.step maxSize o).events := by
  cases o with
  | setData ct id ptr size => exact h.set maxSize _
  | setDataWithParams ct id ptr size params => exact h.set maxSize _
  | getData ct id => exact h.use _ _
  | getDataWithParams ct id params => exact h.use _ _
  | purgeData ct id => exact (h.without _).mono
  | purgeAll ct => exact (h.purgeAll ct).mono

end LruCache

namespace MultiCache

open LruCache

/-! ### The entries of the cache -/

/-- The entries in the list, the least recently used one first. -/
def contents (mc : MultiCache) : List CacheEntry := mc.entryList.filterMap mc.entry

/-- The entries are those of the abstract cache. -/
structure IsLru (mc : MultiCache) (c : LruCache) : Prop where
  entries : mc.contents = c.items.map LruItem.entry
  order : c.items.Pairwise fun i j => i.lastUse < j.lastUse
  lookup : ∀ ct id params, (mc.getDataWithParams ct id params).map Prod.fst =
    some (expected (ct, id) params c.events)

variable {mc : MultiCache}

theorem CacheInv.key_inj (h : CacheInv mc) {a b : ℕ} {e e' : CacheEntry}
    (ha : a ∈ mc.entryList) (hb : b ∈ mc.entryList) (he : mc.entry a = some e)
    (he' : mc.entry b = some e') (hkey : e.key = e'.key) : a = b := by
  have hfind := (h.maps e.cacheType e.id a).mpr ⟨ha, e, he, rfl, rfl⟩
  have hfind' := (h.maps e'.cacheType e'.id b).mpr ⟨hb, e', he', rfl, rfl⟩
  obtain ⟨hct, hid⟩ := Prod.mk.inj hkey
  rw [hct, hid, hfind'] at hfind
  exact (Option.some.inj hfind).symm

theorem CacheInv.erase_contents (h : CacheInv mc) {a : ℕ} {e : CacheEntry}
    (ha : a ∈ mc.entryList) (he : mc.entry a = some e) :
    (mc.entryList.erase a).filterMap mc.entry = mc.contents.filter fun e' => e'.key ≠ e.key := by
  rw [h.once.erase_eq_filter, contents, List.filter_filterMap, List.filterMap_filter]
  refine List.filterMap_congr fun b hb => ?_
  obtain ⟨e', he'⟩ := h.alive b hb
  rw [he']
  by_cases hba : b = a
  · subst hba
    rw [he, Option.some.injEq] at he'
    simp [he', Option.filter]
  · have hkey : e'.key ≠ e.key := fun hk => hba (h.key_inj hb ha he' he hk)
    simp [hba, hkey, Option.filter]

theorem CacheInv.find_contents (h : CacheInv mc) (ct : ℕ) (id : UInt32) :
    (mc.contents.find? fun e => e.key = (ct, id)) = ((mc.entryMap ct).find id).bind mc.entry := by
  rw [contents, List.find?_filterMap]
  congr 1
  cases hfind : (mc.entryMap ct).find id with
  | none =>
      refine List.find?_eq_none.mpr fun a ha hkey => ?_
      obtain ⟨e, he⟩ := h.alive a ha
      have hkey' : e.key = (ct, id) := by simpa [he] using hkey
      obtain ⟨hct, hid⟩ := Prod.mk.inj hkey'
      have := (h.maps ct id a).mpr ⟨ha, e, he, hct, hid⟩
      rw [hfind] at this
      exact absurd this.symm (Option.some_ne_none a)
  | some a =>
      obtain ⟨ha, e, he, rfl, rfl⟩ := (h.maps ct id a).mp hfind
      have hp : ((mc.entry a).any fun e' => e'.key = (e.cacheType, e.id)) = true := by
        simp [he, CacheEntry.key]
      have hsome : (mc.entryList.find? fun a =>
          (mc.entry a).any fun e' => e'.key = (e.cacheType, e.id)).isSome :=
        List.find?_isSome.mpr ⟨a, ha, hp⟩
      obtain ⟨b, hb⟩ := Option.isSome_iff_exists.mp hsome
      obtain ⟨e', he'⟩ := h.alive b (List.mem_of_find?_eq_some hb)
      have hkey : e'.key = (e.cacheType, e.id) := by simpa [he'] using List.find?_some hb
      rw [hb, h.key_inj (List.mem_of_find?_eq_some hb) ha he' he hkey]

variable {mc mc' : MultiCache}

theorem releaseEntry_contents (h : CacheInv mc) {a : ℕ} {e : CacheEntry}
    (ha : a ∈ mc.entryList) (he : mc.entry a = some e) (hrel : mc.releaseEntry a = some mc') :
    mc'.contents = mc.contents.filter fun e' => e'.key ≠ e.key := by
  rw [releaseEntry, he, Option.bind_some, Option.map_eq_some_iff] at hrel
  obtain ⟨⟨r, m⟩, -, rfl⟩ := hrel
  rw [← h.erase_contents ha he]
  refine List.filterMap_congr fun b hb => ?_
  exact Function.update_of_ne (h.once.mem_erase_iff.mp hb).1 _ _

theorem contents_newEntry (h : CacheInv mc) (e : CacheEntry) :
    (mc.newEntry e).2.contents = mc.contents :=
  List.filterMap_congr fun _ ha => Function.update_of_ne (Nat.ne_of_lt (h.old _ ha)) _ _

theorem CacheInv.size_contents (h : CacheInv mc) :
    mc.currentSize = (mc.contents.map fun e => e.dataSize.toNat).sum := by
  rw [h.size, contents]
  have halive := h.alive
  generalize mc.entryList = l at halive
  induction l with
  | nil => rfl
  | cons a l ih =>
      obtain ⟨e, he⟩ := halive a List.mem_cons_self
      rw [List.filterMap_cons_some he, List.map_cons, List.map_cons, List.sum_cons, List.sum_cons,
        ih fun b hb => halive b (List.mem_cons_of_mem a hb), sizeAt, he]

theorem CacheInv.contents_cons (h : CacheInv mc) {e : CacheEntry}
    {es : List CacheEntry} (hc : mc.contents = e :: es) :
    ∃ a l, mc.entryList = a :: l ∧ mc.entry a = some e ∧ l.filterMap mc.entry = es := by
  unfold contents at hc
  cases hl : mc.entryList with
  | nil => rw [hl] at hc; cases hc
  | cons a l =>
      obtain ⟨e', he'⟩ := h.alive a (hl ▸ List.mem_cons_self)
      rw [hl, List.filterMap_cons_some he'] at hc
      obtain ⟨rfl, hes⟩ := List.cons.inj hc
      exact ⟨a, l, rfl, he', hes⟩

/-- Making room drops the entries that were used longest ago. -/
theorem makeRoom_contents {size : UInt32} : ∀ (k : ℕ) {mc mc' : MultiCache} {nsize : ℤ}
    {is : List LruItem} {events : List CacheEvent}, CacheInv mc →
    mc.contents = is.map LruItem.entry →
    nsize = (mc.currentSize : ℤ) + size.toNat - mc.maxSize →
    makeRoom k mc nsize = some (true, mc') →
    mc'.contents = (evict mc.maxSize size is events).1.map LruItem.entry
  | 0, _, _, _, _, _, _, _, _, hrun => by cases hrun
  | k + 1, mc, mc', nsize, is, events, h, hc, hn, hrun => by
      have hsize : mc.currentSize = (is.map fun i => i.entry.dataSize.toNat).sum := by
        rw [h.size_contents, hc, List.map_map]
        rfl
      rw [makeRoom] at hrun
      by_cases hdone : nsize ≤ 0
      · rw [if_pos hdone] at hrun
        obtain ⟨-, rfl⟩ := Prod.mk.inj (Option.some.inj hrun)
        rw [hc]
        cases is with
        | nil => rfl
        | cons i is => rw [evict, if_pos (by rw [HasRoom, ← hsize]; omega)]
      · rw [if_neg hdone] at hrun
        cases is with
        | nil =>
            have hl : mc.entryList = [] := by
              cases hl : mc.entryList with
              | nil => rfl
              | cons a l =>
                  obtain ⟨e, he⟩ := h.alive a (hl ▸ List.mem_cons_self)
                  rw [contents, hl, List.filterMap_cons_some he] at hc
                  cases hc
            rw [hl] at hrun
            cases hrun
        | cons i is =>
            obtain ⟨a, l, hl, he, hes⟩ := h.contents_cons hc
            rw [hl] at hrun
            dsimp only at hrun
            rw [he, Option.bind_some] at hrun
            have ha : a ∈ mc.entryList := hl ▸ List.mem_cons_self
            obtain ⟨mc1, hrel, h1, hr1, -, hsize1⟩ := releaseEntry_inv h ha he
            rw [hrel, Option.bind_some] at hrun
            have hc1 : mc1.contents = is.map LruItem.entry := by
              rw [releaseEntry_contents h ha he hrel, ← h.erase_contents ha he, hl,
                List.erase_cons_head, hes]
            rw [evict, if_neg (by rw [HasRoom, ← hsize]; omega), ← hr1.maxSize]
            refine makeRoom_contents k h1 hc1 ?_ hrun
            rw [hr1.maxSize]
            omega

theorem purgeData_contents (h : CacheInv mc) {ct : ℕ} {id : UInt32}
    (hrun : mc.purgeData ct id = some mc') :
    mc'.contents = mc.contents.filter fun e => e.key ≠ (ct, id) := by
  unfold purgeData at hrun
  cases hfind : (mc.entryMap ct).find id with
  | none =>
      rw [hfind] at hrun
      obtain rfl := Option.some.inj hrun
      have hnone := h.find_contents ct id
      rw [hfind, Option.bind_none, List.find?_eq_none] at hnone
      exact (List.filter_eq_self.mpr (by simpa using hnone)).symm
  | some a =>
      rw [hfind] at hrun
      obtain ⟨ha, e, he, rfl, rfl⟩ := (h.maps ct id a).mp hfind
      exact releaseEntry_contents h ha he hrun

theorem map_without (key : ℕ × UInt32) (is : List LruItem) :
    (LruCache.without key is).map LruItem.entry =
      (is.map LruItem.entry).filter fun e => e.key ≠ key := by
  rw [LruCache.without, List.filter_map]
  rfl

/-- Data that are stored take the place of the old ones, and others are evicted for them. -/
theorem setDataWithParams_contents {c : LruCache} (h : CacheInv mc)
    (hc : mc.contents = c.items.map LruItem.entry) {ct : ℕ} {id : UInt32} {ptr : ℕ}
    {size : UInt32} {params : CacheParams} (hfits : ∀ mc1 ∈ mc.purgeData ct id, mc1.Fits ct size)
    (hrun : mc.setDataWithParams ct id ptr size params = some mc') :
    mc'.contents = (c.set mc.maxSize ⟨ct, id, size, ptr, params⟩).items.map LruItem.entry := by
  obtain ⟨mc1, hpurge, h1, hmax, hid⟩ := purgeData_inv h ct id
  obtain ⟨mc2, hins, -, -, k, mc3, hk, hroom, hlist, hentry, hnew⟩ :=
    @insertData_inv _ h1 _ _ ptr _ params hid (hfits mc1 hpurge)
  rw [setDataWithParams, hpurge, Option.bind_some, hins] at hrun
  obtain rfl := Option.some.inj hrun
  have hc1 := (contents_newEntry h1 ⟨ct, id, size, ptr, params⟩).trans
    (purgeData_contents h hpurge)
  rw [hc, ← map_without] at hc1
  have hc3 := @makeRoom_contents size k _ _ _ _ (.purged (ct, id) :: c.events) (newEntry_inv h1 _)
    hc1 rfl hroom
  rw [contents, hlist, hentry, List.filterMap_append, List.filterMap_cons_some hnew,
    List.filterMap_nil, ← contents, hc3]
  rw [show (mc1.newEntry ⟨ct, id, size, ptr, params⟩).2.maxSize = mc.maxSize from hmax]
  rw [LruCache.set, List.map_append]
  rfl

/-- Only a lookup that succeeds uses an entry. -/
theorem getEntry_contents {c : LruCache} (h : CacheInv mc)
    (hc : mc.contents = c.items.map LruItem.entry) {accepts : CacheEntry → Bool} {ct : ℕ}
    {id : UInt32} {p : Option ℕ} (hrun : mc.getEntry accepts ct id = some (p, mc')) :
    mc'.contents = (c.use accepts (ct, id)).items.map LruItem.entry := by
  have hfind := h.find_contents ct id
  rw [hc, List.find?_map] at hfind
  unfold getEntry at hrun
  unfold LruCache.use
  change Option.map _ (c.items.find? fun i => i.entry.key = (ct, id)) = _ at hfind
  cases hm : (mc.entryMap ct).find id with
  | none =>
      rw [hm] at hrun hfind
      obtain ⟨-, rfl⟩ := Prod.mk.inj (Option.some.inj hrun)
      rw [Option.map_eq_none_iff.mp hfind]
      exact hc
  | some a =>
      obtain ⟨ha, e, he, hct, hid⟩ := (h.maps ct id a).mp hm
      rw [hm, Option.bind_some, he, Option.map_eq_some_iff] at hfind
      obtain ⟨i, hi, rfl⟩ := hfind
      rw [hi]
      rw [hm] at hrun
      dsimp only at hrun ⊢
      rw [he, Option.map_some, Option.some.injEq] at hrun
      split at hrun
      · next hacc =>
          obtain ⟨-, rfl⟩ := Prod.mk.inj hrun
          have hkey : i.entry.key = (ct, id) := Prod.ext hct hid
          rw [if_pos hacc, List.map_append, map_without, ← hc, ← hkey, ← h.erase_contents ha he]
          change (mc.entryList.erase a ++ [a]).filterMap mc.entry = _
          rw [List.filterMap_append, List.filterMap_cons_some he]
          rfl
      · next hacc =>
          obtain ⟨-, rfl⟩ := Prod.mk.inj hrun
          rw [if_neg hacc]
          exact hc

theorem releaseEntries_contents (ct : ℕ) : ∀ (as : List ℕ) {mc mc' : MultiCache}, CacheInv mc →
    as.Nodup → (∀ a ∈ as, a ∈ mc.entryList) →
    (∀ a ∈ mc.entryList, a ∉ as → ∀ e ∈ mc.entry a, e.cacheType ≠ ct) →
    releaseEntries ct mc as = some mc' →
    mc'.contents = mc.contents.filter fun e => e.cacheType ≠ ct
  | [], mc, mc', h, _, _, hout, hrun => by
      obtain rfl := Option.some.inj hrun
      refine (List.filter_eq_self.mpr fun e he => ?_).symm
      obtain ⟨a, ha, he⟩ := List.mem_filterMap.mp he
      simpa using hout a ha List.not_mem_nil e he
  | a :: as, mc, mc', h, hnd, hsub, hout, hrun => by
      obtain ⟨hna, hnd'⟩ := List.nodup_cons.mp hnd
      have ha := hsub a List.mem_cons_self
      obtain ⟨e, he⟩ := h.alive a ha
      rw [releaseEntries, he, Option.bind_some] at hrun
      by_cases hct : e.cacheType = ct
      · obtain ⟨mc1, hrel, h1, -, hlist, -⟩ := releaseEntry_inv h ha he
        rw [if_pos hct, hrel, Option.bind_some] at hrun
        have hentry : ∀ b, b ≠ a → mc1.entry b = mc.entry b := by
          rw [releaseEntry, he, Option.bind_some, Option.map_eq_some_iff] at hrel
          obtain ⟨⟨r, m⟩, -, rfl⟩ := hrel
          exact fun b hb => Function.update_of_ne hb _ _
        have hmem : ∀ b, b ∈ mc1.entryList ↔ b ≠ a ∧ b ∈ mc.entryList := fun b => by
          rw [hlist, h.once.mem_erase_iff]
        rw [releaseEntries_contents ct as h1 hnd'
            (fun b hb => (hmem b).mpr ⟨fun hba => hna (hba ▸ hb), hsub b (List.mem_cons_of_mem a hb)⟩)
            (fun b hb hbs e' he' => ?_) hrun,
          releaseEntry_contents h ha he hrel, List.filter_filter]
        · refine List.filter_congr fun e' _ => ?_
          rw [← Bool.decide_and, decide_eq_decide]
          exact ⟨fun h => h.1, fun hne => ⟨hne, fun hk => hne ((Prod.mk.inj hk).1.trans hct)⟩⟩
        · obtain ⟨hba, hb⟩ := (hmem b).mp hb
          refine hout b hb ?_ e' ((hentry b hba) ▸ he')
          rw [List.mem_cons, not_or]
          exact ⟨hba, hbs⟩
      · rw [if_neg hct] at hrun
        refine releaseEntries_contents ct as h hnd' (fun b hb => hsub b (List.mem_cons_of_mem a hb))
          (fun b hb hbs e' he' => ?_) hrun
        by_cases hba : b = a
        · subst hba
          rw [Option.mem_def, he, Option.some.injEq] at he'
          exact he' ▸ hct
        · exact hout b hb (by rw [List.mem_cons, not_or]; exact ⟨hba, hbs⟩) e' he'

/-! ### Runs -/

/-- What holds of the cache and the abstract one after every call. -/
structure Simulated (maxSize : ℕ) (mc : MultiCache) (c : LruCache) : Prop where
  inv : CacheInv mc
  limit : mc.maxSize = maxSize
  entries : mc.contents = c.items.map LruItem.entry
  ordered : Ordered c.items c.now c.events

/-- A lookup returns what was stored last for these parameters, unless it is gone. -/
theorem Simulated.isLru {maxSize : ℕ} {c : LruCache}
    (h : Simulated maxSize mc c) : IsLru mc c where
  entries := h.entries
  order := h.ordered.order
  lookup := by
    intro ct id params
    have hfind := h.inv.find_contents ct id
    rw [h.entries, List.find?_map] at hfind
    rw [expected, h.ordered.recalled]
    change Option.map _ (c.items.find? fun i => i.entry.key = (ct, id)) = _ at hfind
    unfold getDataWithParams getEntry
    cases hm : (mc.entryMap ct).find id with
    | none =>
        rw [hm, Option.bind_none, Option.map_eq_none_iff] at hfind
        rw [hfind]
        rfl
    | some a =>
        obtain ⟨ha, e, he, -, -⟩ := (h.inv.maps ct id a).mp hm
        rw [hm, Option.bind_some, he, Option.map_eq_some_iff] at hfind
        obtain ⟨i, hi, rfl⟩ := hfind
        rw [hi, Option.map_some, Option.bind_some]
        dsimp only
        rw [he, Option.map_some, Option.map_some]
        by_cases hp : i.entry.params = params
        · simp [hp]
        · simp [hp]

theorem step_simulated {maxSize : ℕ} {c : LruCache} {o : Op}
    (h : Simulated maxSize mc c) (ho : mc.FittingOp o) :
    ∃ mc', mc.step o = some mc' ∧ Simulated maxSize mc' (c.step maxSize o) := by
  obtain ⟨mc', hrun, h', hmax⟩ := step_inv h.inv ho
  refine ⟨mc', hrun, h', hmax.trans h.limit, ?_, h.ordered.step maxSize o⟩
  cases o with
  | setData ct id ptr size =>
      exact h.limit ▸ setDataWithParams_contents h.inv h.entries ho hrun
  | setDataWithParams ct id ptr size params =>
      exact h.limit ▸ setDataWithParams_contents h.inv h.entries ho hrun
  | getData ct id =>
      obtain ⟨⟨p, mc''⟩, hget, rfl⟩ := Option.map_eq_some_iff.mp hrun
      exact getEntry_contents h.inv h.entries hget
  | getDataWithParams ct id params =>
      obtain ⟨⟨p, mc''⟩, hget, rfl⟩ := Option.map_eq_some_iff.mp hrun
      exact getEntry_contents h.inv h.entries hget
  | purgeData ct id =>
      rw [purgeData_contents h.inv hrun, h.entries]
      exact (map_without _ _).symm
  | purgeAll ct =>
      rw [releaseEntries_contents ct mc.entryList h.inv h.inv.once (fun _ ha => ha)
        (fun a ha hna => absurd ha hna) hrun, h.entries, List.filter_map]
      rfl

/-- In a run whose entries fit, the cache drops what was not used for the longest time. -/
theorem isLru_of_fitting (maxSize : ℕ) (ops : List Op)
    (h : Along step FittingOp (new maxSize) ops) : ∀ pre, pre <+: ops →
      ∃ mc, exec step (new maxSize) pre = some mc ∧ IsLru mc (LruCache.run maxSize pre) := by
  suffices hsim : ∀ pre, pre <+: ops → ∃ mc, exec step (new maxSize) pre = some mc ∧
      Simulated maxSize mc (LruCache.run maxSize pre) from
    fun pre hpre => (hsim pre hpre).imp fun _ hmc => ⟨hmc.1, hmc.2.isLru⟩
  intro pre
  induction pre using List.reverseRecOn with
  | nil => exact fun _ => ⟨_, rfl, cacheInv_new maxSize, rfl, rfl, ordered_empty⟩
  | append_singleton pre o ih =>
      intro hpre
      obtain ⟨mc, hrun, hmc⟩ := ih ((List.prefix_append pre [o]).trans hpre)
      obtain ⟨mc', hstep, hmc'⟩ := step_simulated hmc (h.of_exec pre o hpre mc hrun)
      refine ⟨mc', exec_snoc_eq_some.mpr ⟨mc, hrun, hstep⟩, ?_⟩
      rw [LruCache.run, List.foldl_append]
      exact hmc'

/-- The first entry is used again, hence the second one is dropped for the third. -/
theorem isLru_of_fitting_ten : ∃ mc, exec step (new 10)
      [.setData 0 1 100 6, .setData 1 1 101 4, .getData 0 1, .setData 0 2 102 4] = some mc ∧
        IsLru mc (LruCache.run 10
          [.setData 0 1 100 6, .setData 1 1 101 4, .getData 0 1, .setData 0 2 102 4]) :=
  isLru_of_fitting 10 _ (by decide) _ List.prefix_rfl

end MultiCache
end Gwenhywfar
