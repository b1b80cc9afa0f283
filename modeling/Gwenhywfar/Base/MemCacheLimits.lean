import Gwenhywfar.Base.MemCache

/-! # Limits of `GWEN_MEMCACHE`

* `Accounts`: the invariant of the entries, the map and the counters.
* `release_spec`: releasing entries follows `EvictStep`.
* `keepsLimits`: what holds in every run whose steps are `Safe`. -/

namespace Gwenhywfar.MemCache

open Function

/-! ### Lists of entries -/

section
variable {es : List (ℕ × Entry)} {p q : ℕ × Entry} {me : ℕ} {e e' : Entry}

theorem lookup_eq_some_iff (hn : (es.map Prod.fst).Nodup) :
    es.lookup me = some e ↔ (me, e) ∈ es := by
  induction es with
  | nil => exact iff_of_false nofun List.not_mem_nil
  | cons p es ih =>
      obtain ⟨me', e'⟩ := p
      obtain ⟨hnot, hn⟩ := List.nodup_cons.mp hn
      rw [List.lookup_cons, List.mem_cons]
      by_cases h : me = me'
      · subst h
        rw [beq_self_eq_true]
        constructor
        · exact fun he => Or.inl (by rw [Option.some.inj he])
        · rintro (he | he)
          · rw [(Prod.mk.inj he).2]
          · exact absurd (List.mem_map_of_mem he) hnot
      · rw [beq_eq_false_iff_ne.mpr h, ih hn]
        exact (or_iff_right fun he => h (Prod.mk.inj he).1).symm

theorem mem_drop : p ∈ drop me es ↔ p ∈ es ∧ p.1 ≠ me := by
  rw [drop, List.mem_filter, decide_eq_true_iff]

theorem drop_of_notMem (h : ∀ p ∈ es, p.1 ≠ me) : drop me es = es :=
  List.filter_eq_self.mpr fun p hp => decide_eq_true (h p hp)

theorem eq_of_mem (hn : (es.map Prod.fst).Nodup) (hp : p ∈ es) (hq : q ∈ es) (h : p.1 = q.1) :
    p = q := List.inj_on_of_nodup_map hn hp hq h

theorem drop_spec (hn : (es.map Prod.fst).Nodup) (hp : (me, e) ∈ es) :
    (drop me es).length + 1 = es.length ∧ total (drop me es) + e.dataLen.toNat = total es := by
  induction es with
  | nil => exact absurd hp List.not_mem_nil
  | cons p es ih =>
      obtain ⟨hnot, hn⟩ := List.nodup_cons.mp hn
      by_cases h : p.1 = me
      · have hpe : p = (me, e) := by
          rcases List.mem_cons.mp hp with hp | hp
          · exact hp.symm
          · exact absurd (List.mem_map_of_mem hp) (h ▸ hnot)
        subst hpe
        have hrest : drop me es = es := drop_of_notMem fun q hq he =>
          hnot (List.mem_map.mpr ⟨q, hq, he⟩)
        have hcons : drop me ((me, e) :: es) = es :=
          (List.filter_cons_of_neg (by simp)).trans hrest
        rw [hcons]
        refine ⟨rfl, ?_⟩
        rw [total, total, List.map_cons, List.sum_cons, Nat.add_comm]
      · have hmem : (me, e) ∈ es := by
          rcases List.mem_cons.mp hp with hp | hp
          · exact absurd (congrArg Prod.fst hp).symm h
          · exact hp
        obtain ⟨hlen, htotal⟩ := ih hn hmem
        have hcons : drop me (p :: es) = p :: drop me es :=
          List.filter_cons_of_pos (decide_eq_true h)
        have hsum : ∀ qs, total (p :: qs) = p.2.dataLen.toNat + total qs := fun qs => by
          rw [total, List.map_cons, List.sum_cons, total]
        rw [hcons, List.length_cons, List.length_cons, hlen, hsum, hsum, ← htotal, Nat.add_assoc]
        exact ⟨rfl, rfl⟩

theorem mem_replace : p ∈ replace me e es ↔
    (p = (me, e) ∧ ∃ q ∈ es, q.1 = me) ∨ p ∈ es ∧ p.1 ≠ me := by
  rw [replace, List.mem_map]
  constructor
  · rintro ⟨q, hq, rfl⟩
    by_cases h : q.1 = me
    · rw [if_pos h]
      exact Or.inl ⟨rfl, q, hq, h⟩
    · rw [if_neg h]
      exact Or.inr ⟨hq, h⟩
  · rintro (⟨rfl, q, hq, h⟩ | ⟨hp, h⟩)
    · exact ⟨q, hq, if_pos h⟩
    · exact ⟨p, hp, if_neg h⟩

theorem map_fst_replace : (replace me e es).map Prod.fst = es.map Prod.fst := by
  rw [replace, List.map_map]
  refine List.map_congr_left fun p _ => ?_
  by_cases h : p.1 = me
  · simp [h]
  · simp [h]

theorem replace_spec (e' : Entry) (hn : (es.map Prod.fst).Nodup) (hp : (me, e) ∈ es)
    (h : e'.dataLen = e.dataLen) :
    (replace me e' es).length = es.length ∧ total (replace me e' es) = total es := by
  refine ⟨List.length_map _, ?_⟩
  rw [total, total, replace, List.map_map]
  congr 1
  refine List.map_congr_left fun p hpm => ?_
  by_cases hpe : p.1 = me
  · have hpe' : p = (me, e) := eq_of_mem hn hpm hp hpe
    subst hpe'
    simp [h]
  · simp [hpe]

def validCount (es : List (ℕ × Entry)) : ℕ := es.countP (·.2.isValid)

theorem validCount_drop (hn : (es.map Prod.fst).Nodup) (hp : (me, e) ∈ es) :
    validCount (drop me es) + (if e.isValid = true then 1 else 0) = validCount es := by
  induction es with
  | nil => exact absurd hp List.not_mem_nil
  | cons p es ih =>
      have hpe : p.1 = me → p = (me, e) := eq_of_mem hn List.mem_cons_self hp
      obtain ⟨hnot, hn⟩ := List.nodup_cons.mp hn
      by_cases h : p.1 = me
      · have hpe := hpe h
        subst hpe
        have hrest : drop me es = es := drop_of_notMem fun q hq he =>
          hnot (List.mem_map.mpr ⟨q, hq, he⟩)
        have hcons : drop me ((me, e) :: es) = es :=
          (List.filter_cons_of_neg (by simp)).trans hrest
        rw [hcons, validCount, validCount, List.countP_cons]
      · have hmem : (me, e) ∈ es := by
          rcases List.mem_cons.mp hp with hp | hp
          · exact absurd (congrArg Prod.fst hp).symm h
          · exact hp
        have hcons : drop me (p :: es) = p :: drop me es :=
          List.filter_cons_of_pos (decide_eq_true h)
        have hih := ih hn hmem
        rw [validCount, validCount] at hih
        rw [hcons, validCount, validCount, List.countP_cons, List.countP_cons, ← hih]
        exact Nat.add_right_comm _ _ _

theorem drop_replace : drop me (replace me e es) = drop me es := by
  induction es with
  | nil => rfl
  | cons p es ih =>
      rw [replace, drop] at ih
      rw [replace, List.map_cons, drop, drop]
      by_cases h : p.1 = me
      · rw [if_pos h, List.filter_cons_of_neg (by simp), List.filter_cons_of_neg (by simp [h]), ih,
          drop]
      · rw [if_neg h, List.filter_cons_of_pos (by simp [h]), List.filter_cons_of_pos (by simp [h]),
          ih, drop]

theorem validCount_replace (e' : Entry) (hn : (es.map Prod.fst).Nodup) (hp : (me, e) ∈ es) :
    validCount (replace me e' es) + (if e.isValid = true then 1 else 0) =
      validCount es + (if e'.isValid = true then 1 else 0) := by
  have hmem : (me, e') ∈ replace me e' es := mem_replace.mpr (Or.inl ⟨rfl, (me, e), hp, rfl⟩)
  have h := validCount_drop hn hp
  have h' := validCount_drop (map_fst_replace.symm ▸ hn) hmem
  rw [drop_replace] at h'
  omega

end

/-! ### The invariant -/

/-- The pointers of the map are those of the valid entries. -/
def Maps (find : UInt32 → Option ℕ) (es : List (ℕ × Entry)) : Prop :=
  ∀ id me, find id = some me ↔ ∃ e, (me, e) ∈ es ∧ e.isValid = true ∧ e.id = id

/-- The counters are those of the entries that are not freed, and entries that are not in the map
are in use. -/
structure Accounts (mc : MemCache) : Prop where
  nodup : (mc.alive.map Prod.fst).Nodup
  fresh : ∀ p ∈ mc.alive, p.1 < mc.fresh
  entries_eq : mc.currentCacheEntries.toNat = mc.alive.length
  memory_eq : mc.currentCacheMemory.toNat = total mc.alive
  pruned : Trie.Pruned 8 mc.idMap.table
  maps : Maps mc.idMap.find mc.alive
  count_eq : mc.idMap.count.toNat = validCount mc.alive
  used : ∀ p ∈ mc.alive, p.2.isValid = false → p.2.useCounter ≠ 0

/-- What no operation but creating an entry changes. -/
structure SameLimits (mc mc' : MemCache) : Prop where
  maxCacheMemory : mc'.maxCacheMemory = mc.maxCacheMemory
  maxCacheEntries : mc'.maxCacheEntries = mc.maxCacheEntries
  fresh : mc'.fresh = mc.fresh

theorem SameLimits.refl (mc : MemCache) : SameLimits mc mc := ⟨rfl, rfl, rfl⟩

theorem SameLimits.trans {a b c : MemCache} (h : SameLimits a b) (h' : SameLimits b c) :
    SameLimits a c :=
  ⟨h'.maxCacheMemory.trans h.maxCacheMemory, h'.maxCacheEntries.trans h.maxCacheEntries,
    h'.fresh.trans h.fresh⟩

section
variable {mc : MemCache} {me : ℕ} {e e' : Entry} {id : UInt32} {es : List (ℕ × Entry)}
  {find : UInt32 → Option ℕ}

theorem Maps.drop (hm : Maps find es) (hn : (es.map Prod.fst).Nodup) (hp : (me, e) ∈ es)
    (hv : e.isValid = true) : Maps (update find e.id none) (MemCache.drop me es) := by
  intro id me'
  by_cases h : id = e.id
  · subst h
    rw [update_self]
    refine iff_of_false nofun ?_
    rintro ⟨e', he', hv', hid⟩
    obtain ⟨he', hne⟩ := mem_drop.mp he'
    have hme : find e.id = some me := (hm _ _).mpr ⟨e, hp, hv, rfl⟩
    have hme' : find e.id = some me' := (hm _ _).mpr ⟨e', he', hv', hid⟩
    exact hne (Option.some.inj (hme'.symm.trans hme))
  · rw [update_of_ne h, hm]
    refine exists_congr fun e' => and_congr_left fun hid => ?_
    rw [mem_drop]
    refine (and_iff_left_of_imp fun he' hme => ?_).symm
    have heq := eq_of_mem hn he' hp hme
    exact h (hid.2.symm.trans (congrArg (fun p => p.2.id) heq))

theorem Maps.replace (hm : Maps find es) (hn : (es.map Prod.fst).Nodup) (hp : (me, e) ∈ es)
    (hv : e.isValid = true) (hv' : e'.isValid = false) :
    Maps (update find e.id none) (MemCache.replace me e' es) := by
  intro id me'
  rw [hm.drop hn hp hv]
  refine exists_congr fun x => ?_
  rw [mem_drop, mem_replace]
  refine and_congr_left fun hx => (or_iff_right ?_).symm
  rintro ⟨heq, -⟩
  rw [(Prod.mk.inj heq).2, hv'] at hx
  exact Bool.false_ne_true hx.1

theorem Maps.write (hm : Maps find es) (hn : (es.map Prod.fst).Nodup) (hp : (me, e) ∈ es)
    (hid : e'.id = e.id) (hv : e'.isValid = e.isValid) : Maps find (MemCache.replace me e' es) := by
  intro id me'
  rw [hm]
  constructor
  · rintro ⟨x, hx, hxv, hxid⟩
    by_cases h : me' = me
    · subst h
      obtain rfl := (Prod.mk.inj (eq_of_mem hn hx hp rfl)).2
      exact ⟨e', mem_replace.mpr (Or.inl ⟨rfl, _, hp, rfl⟩), hv.trans hxv, hid.trans hxid⟩
    · exact ⟨x, mem_replace.mpr (Or.inr ⟨hx, h⟩), hxv, hxid⟩
  · rintro ⟨x, hx, hxv, hxid⟩
    rcases mem_replace.mp hx with ⟨heq, -⟩ | ⟨hx, -⟩
    · obtain ⟨rfl, rfl⟩ := Prod.mk.inj heq
      exact ⟨e, hp, hv.symm.trans hxv, hid.symm.trans hxid⟩
    · exact ⟨x, hx, hxv, hxid⟩

theorem Accounts.entry_eq (h : Accounts mc) (hp : (me, e) ∈ mc.alive) : mc.entry me = some e :=
  (lookup_eq_some_iff h.nodup).mpr hp

theorem toNat_pred {a : UInt32} {n : ℕ} (h : a.toNat = n + 1) : a ≠ 0 ∧ (a - 1).toNat = n := by
  have hle : (1 : UInt32) ≤ a := UInt32.le_iff_toNat_le.mpr (h ▸ Nat.le_add_left 1 n)
  refine ⟨fun h0 => ?_, by rw [UInt32.toNat_sub_of_le _ _ hle, h]; rfl⟩
  rw [h0] at h
  exact absurd h.symm (Nat.succ_ne_zero n)

theorem idMapRemove_spec (mc : MemCache) (hpr : Trie.Pruned 8 mc.idMap.table) (hfind : mc.idMap.find id ≠ none)
    {n : ℕ} (hcount : mc.idMap.count.toNat = n + 1) :
    ∃ m, mc.idMapRemove id = some { mc with idMap := m } ∧ Trie.Pruned 8 m.table ∧
      m.find = update mc.idMap.find id none ∧ m.count.toNat = n := by
  obtain ⟨h0, hpred⟩ := toNat_pred hcount
  have hget := (IdMap.getTable_ne_none_iff hpr id).mpr ⟨id, rfl, hfind⟩
  refine ⟨⟨Trie.erase 7 mc.idMap.table (IdMap.nibble id.toNat), mc.idMap.count - 1⟩, ?_,
    Trie.pruned_erase 7 _ hpr, IdMap.find_erase_eq mc.idMap id _, hpred⟩
  rw [idMapRemove, IdMap.setPair_none_present hget, if_neg h0]
  rfl

theorem Accounts.write (h : Accounts mc) (hp : (me, e) ∈ mc.alive) (hid : e'.id = e.id)
    (hlen : e'.dataLen = e.dataLen) (hv : e'.isValid = e.isValid)
    (hu : e'.isValid = false → e'.useCounter ≠ 0) : Accounts (mc.setEntry me e') := by
  obtain ⟨hl, ht⟩ := replace_spec e' h.nodup hp hlen
  have hcount := validCount_replace e' h.nodup hp
  rw [hv] at hcount
  refine ⟨?_, ?_, h.entries_eq.trans hl.symm, h.memory_eq.trans ht.symm, h.pruned,
    h.maps.write h.nodup hp hid hv, h.count_eq.trans (Nat.add_right_cancel hcount).symm, ?_⟩
  · exact (congrArg List.Nodup map_fst_replace).mpr h.nodup
  · intro p hpm
    rcases mem_replace.mp hpm with ⟨rfl, -⟩ | ⟨hpm, -⟩
    · exact h.fresh (me, e) hp
    · exact h.fresh _ hpm
  · intro p hpm hpv
    rcases mem_replace.mp hpm with ⟨rfl, -⟩ | ⟨hpm, -⟩
    · exact hu hpv
    · exact h.used _ hpm hpv

theorem freeEntry_spec (mc : MemCache) (hn : (mc.alive.map Prod.fst).Nodup)
    (hentries : mc.currentCacheEntries.toNat = mc.alive.length)
    (hmemory : mc.currentCacheMemory.toNat = total mc.alive) (hp : (me, e) ∈ mc.alive)
    (hu : e.useCounter = 0) : ∃ n m, mc.freeEntry me = some { mc with
        alive := drop me mc.alive, currentCacheEntries := n, currentCacheMemory := m } ∧
      n.toNat = (drop me mc.alive).length ∧ m.toNat = total (drop me mc.alive) := by
  obtain ⟨hl, ht⟩ := drop_spec hn hp
  have hle : e.dataLen ≤ mc.currentCacheMemory :=
    UInt64.le_iff_toNat_le.mpr (hmemory ▸ ht ▸ Nat.le_add_left _ _)
  have hsome : mc.entry me = some e := (lookup_eq_some_iff hn).mpr hp
  refine ⟨mc.currentCacheEntries - 1, mc.currentCacheMemory - e.dataLen, ?_, ?_, ?_⟩
  · rw [freeEntry, hsome, Option.bind_some, if_neg (not_not.mpr hu)]
  · exact (toNat_pred (hentries.trans hl.symm)).2
  · rw [UInt64.toNat_sub_of_le _ _ hle, hmemory, ← ht, Nat.add_sub_cancel]

/-- Freeing an entry that is not in the map any more, whatever was written to it before. -/
theorem Accounts.freed (h : Accounts mc) (hp : (me, e) ∈ mc.alive) (e' : Entry)
    (hlen : e'.dataLen = e.dataLen) (hu : e'.useCounter = 0) {m : IdMap ℕ}
    (hpruned : Trie.Pruned 8 m.table) (hmaps : Maps m.find (drop me mc.alive))
    (hcount : m.count.toNat = validCount (drop me mc.alive)) :
    ∃ mc', freeEntry { mc.setEntry me e' with idMap := m } me = some mc' ∧ Accounts mc' ∧
      SameLimits mc mc' ∧ mc'.alive = drop me mc.alive ∧ mc'.idMap = m := by
  have hp' : (me, e') ∈ replace me e' mc.alive := mem_replace.mpr (Or.inl ⟨rfl, (me, e), hp, rfl⟩)
  obtain ⟨hlength, htotal⟩ := replace_spec e' h.nodup hp hlen
  obtain ⟨n, l, hfree, hn, hl⟩ := freeEntry_spec { mc.setEntry me e' with idMap := m }
    ((congrArg List.Nodup map_fst_replace).mpr h.nodup) (h.entries_eq.trans hlength.symm)
    (h.memory_eq.trans htotal.symm) hp' hu
  have hdrop : drop me (replace me e' mc.alive) = drop me mc.alive := drop_replace
  rw [← hdrop] at hmaps hcount
  refine ⟨_, hfree, ⟨?_, ?_, hn, hl, hpruned, hmaps, hcount, ?_⟩, ⟨rfl, rfl, rfl⟩, hdrop, rfl⟩
  · show ((drop me (replace me e' mc.alive)).map Prod.fst).Nodup
    rw [hdrop]
    exact h.nodup.sublist (List.filter_sublist.map _)
  · exact fun p hpm => h.fresh p (mem_drop.mp (hdrop ▸ hpm)).1
  · exact fun p hpm => h.used p (mem_drop.mp (hdrop ▸ hpm)).1

theorem Accounts.evict (h : Accounts mc) (hp : (me, e) ∈ mc.alive) (hu : Unused (me, e)) :
    ∃ mc', ((mc.idMapRemove e.id).bind fun mc => mc.freeEntry me) = some mc' ∧ Accounts mc' ∧
      SameLimits mc mc' ∧ mc'.alive = drop me mc.alive := by
  obtain ⟨hv, hcounter⟩ := hu
  have hfind : mc.idMap.find e.id = some me := (h.maps _ _).mpr ⟨e, hp, hv, rfl⟩
  have hcount := validCount_drop h.nodup hp
  rw [if_pos hv] at hcount
  obtain ⟨m, hm, hpruned, hfind', hcount'⟩ := idMapRemove_spec mc h.pruned
    (hfind ▸ Option.some_ne_none me) (h.count_eq.trans hcount.symm)
  obtain ⟨n, l, hfree, hn, hl⟩ := freeEntry_spec { mc with idMap := m } h.nodup
    h.entries_eq h.memory_eq hp hcounter
  rw [hm, Option.bind_some]
  refine ⟨_, hfree, ⟨?_, ?_, hn, hl, hpruned, ?_, hcount', ?_⟩, ⟨rfl, rfl, rfl⟩, rfl⟩
  · exact h.nodup.sublist (List.filter_sublist.map _)
  · exact fun p hpm => h.fresh p (mem_drop.mp hpm).1
  · exact hfind'.symm ▸ h.maps.drop h.nodup hp hv
  · exact fun p hpm => h.used p (mem_drop.mp hpm).1

theorem invalidate_of_notMem (h : ∀ p ∈ es, ¬(p.2.isValid = true ∧ p.2.id = id)) :
    invalidate id es = es := by
  induction es with
  | nil => rfl
  | cons p es ih =>
      rw [List.forall_mem_cons] at h
      rw [invalidate, List.filterMap_cons, if_neg h.1]
      exact congrArg _ (ih h.2)

theorem invalidate_eq (hn : (es.map Prod.fst).Nodup) (hp : (me, e) ∈ es) (hv : e.isValid = true)
    (hm : Maps find es) : invalidate e.id es =
      if e.useCounter = 0 then drop me es
      else replace me { e with isValid := false } es := by
  have hmine : ∀ p ∈ es, (p.2.isValid = true ∧ p.2.id = e.id ↔ p.1 = me) := by
    intro p hpm
    constructor
    · rintro ⟨hpv, hpid⟩
      have hfind := (hm e.id p.1).mpr ⟨p.2, hpm, hpv, hpid⟩
      exact Option.some.inj (hfind.symm.trans ((hm e.id me).mpr ⟨e, hp, hv, rfl⟩))
    · intro hpe
      rw [eq_of_mem hn hpm hp hpe]
      exact ⟨hv, rfl⟩
  have hself : ∀ p ∈ es, p.1 = me → p = (me, e) := fun p hpm => eq_of_mem hn hpm hp
  clear hn hp hm
  induction es with
  | nil => split <;> rfl
  | cons p es ih =>
      rw [List.forall_mem_cons] at hmine hself
      have hih := ih hmine.2 hself.2
      rw [invalidate] at hih
      rw [invalidate, List.filterMap_cons]
      by_cases hpe : p.1 = me
      · rw [if_pos (hmine.1.mpr hpe), hself.1 hpe, hih]
        by_cases hu : e.useCounter = 0
        · rw [if_pos hu, if_pos hu, if_pos hu, drop, drop, List.filter_cons_of_neg (by simp)]
        · rw [if_neg hu, if_neg hu, if_neg hu, replace, replace, List.map_cons, if_pos rfl]
      · rw [if_neg fun hx => hpe (hmine.1.mp hx), hih]
        by_cases hu : e.useCounter = 0
        · rw [if_pos hu, if_pos hu, drop, drop, List.filter_cons_of_pos (by simp [hpe])]
        · rw [if_neg hu, if_neg hu, replace, replace, List.map_cons, if_neg hpe]

theorem Accounts.purgeEntry (h : Accounts mc) (id : UInt32) :
    ∃ mc', mc.purgeEntry id = some mc' ∧ Accounts mc' ∧ SameLimits mc mc' ∧
      mc'.alive = invalidate id mc.alive ∧
      mc'.idMap.find = update mc.idMap.find id none := by
  rw [MemCache.purgeEntry]
  cases hfind : mc.idMap.find id with
  | none =>
      refine ⟨mc, rfl, h, SameLimits.refl mc, (invalidate_of_notMem ?_).symm, ?_⟩
      · rintro p hp ⟨hv, hid⟩
        rw [(h.maps id p.1).mpr ⟨p.2, hp, hv, hid⟩] at hfind
        cases hfind
      · exact (update_eq_self_iff.mpr hfind.symm).symm
  | some me =>
      obtain ⟨e, hp, hv, rfl⟩ := (h.maps id me).mp hfind
      have hp' : (me, { e with isValid := false }) ∈ replace me { e with isValid := false } mc.alive :=
        mem_replace.mpr (Or.inl ⟨rfl, (me, e), hp, rfl⟩)
      have hcount := validCount_replace { e with isValid := false } h.nodup hp
      rw [if_pos hv, if_neg Bool.false_ne_true, Nat.add_zero] at hcount
      obtain ⟨m, hm, hpruned, hfind', hcount'⟩ := idMapRemove_spec
        (mc.setEntry me { e with isValid := false }) h.pruned
        (hfind ▸ Option.some_ne_none me) (h.count_eq.trans hcount.symm)
      obtain ⟨hlen, htotal⟩ := replace_spec { e with isValid := false } h.nodup hp rfl
      have hnodup : ((replace me { e with isValid := false } mc.alive).map Prod.fst).Nodup :=
        (congrArg List.Nodup map_fst_replace).mpr h.nodup
      dsimp only
      rw [h.entry_eq hp, Option.bind_some, hm, Option.bind_some, invalidate_eq h.nodup hp hv h.maps]
      by_cases hu : e.useCounter = 0
      · have hvalid := validCount_drop hnodup hp'
        rw [if_neg Bool.false_ne_true, Nat.add_zero, drop_replace] at hvalid
        have hmaps := hfind'.symm ▸ h.maps.drop h.nodup hp hv
        obtain ⟨mc', hfree, h', hsame, halive, hidMap⟩ := h.freed hp { e with isValid := false } rfl
          hu hpruned hmaps (hcount'.trans hvalid.symm)
        rw [if_pos hu, if_pos hu]
        exact ⟨mc', hfree, h', hsame, halive, (congrArg IdMap.find hidMap).trans hfind'⟩
      · rw [if_neg hu, if_neg hu]
        refine ⟨_, rfl, ⟨hnodup, ?_, h.entries_eq.trans hlen.symm, h.memory_eq.trans htotal.symm,
          hpruned, hfind'.symm ▸ h.maps.replace h.nodup hp hv rfl, hcount', ?_⟩, ⟨rfl, rfl, rfl⟩,
          rfl, hfind'⟩
        · intro p hpm
          rcases mem_replace.mp hpm with ⟨rfl, -⟩ | ⟨hpm, -⟩
          · exact h.fresh (me, e) hp
          · exact h.fresh p hpm
        · intro p hpm hpv
          rcases mem_replace.mp hpm with ⟨rfl, -⟩ | ⟨hpm, -⟩
          · exact hu
          · exact h.used p hpm hpv

end

/-! ### The oldest entry -/

/-- The result of a search through these entries. -/
def Best (es : List (ℕ × Entry)) : Option (ℕ × Entry) → Prop
  | none => ∀ q ∈ es, ¬Unused q
  | some p => IsOldest es p

section
variable {mc : MemCache} {pre : List (ℕ × Entry)} {acc : Option (ℕ × Entry)} {p : ℕ × Entry}

theorem NotAfter.refl (p : ℕ × Entry) : NotAfter p p := Or.inr ⟨rfl, UInt32.le_refl _⟩

theorem Best.snoc_of_not (h : Best pre acc) (hp : ¬Unused p) : Best (pre ++ [p]) acc := by
  cases acc with
  | none =>
      intro q hq
      rcases List.mem_append.mp hq with hq | hq
      · exact h q hq
      · exact List.mem_singleton.mp hq ▸ hp
  | some o =>
      obtain ⟨ho, hu, hall⟩ := h
      refine ⟨List.mem_append_left _ ho, hu, fun q hq hqu => ?_⟩
      rcases List.mem_append.mp hq with hq | hq
      · exact hall q hq hqu
      · exact absurd (List.mem_singleton.mp hq ▸ hqu) hp

theorem Best.snoc (h : Best pre acc) (hp : Unused p) (hid : ∀ q ∈ pre, q.2.id < p.2.id) :
    Best (pre ++ [p]) (match acc with
      | none => some p
      | some o => if p.2.unusedSince < o.2.unusedSince then some p else some o) := by
  have hmem : p ∈ pre ++ [p] := List.mem_append_right _ (List.mem_singleton.mpr rfl)
  cases acc with
  | none =>
      refine ⟨hmem, hp, fun q hq hqu => ?_⟩
      rcases List.mem_append.mp hq with hq | hq
      · exact absurd hqu (h q hq)
      · exact List.mem_singleton.mp hq ▸ NotAfter.refl p
  | some o =>
      obtain ⟨ho, hu, hall⟩ := h
      dsimp only
      split
      · next hlt =>
          refine ⟨hmem, hp, fun q hq hqu => ?_⟩
          rcases List.mem_append.mp hq with hq | hq
          · rcases hall q hq hqu with hoq | ⟨hoq, -⟩
            · exact Or.inl (hlt.trans hoq)
            · exact Or.inl (hoq ▸ hlt)
          · exact List.mem_singleton.mp hq ▸ NotAfter.refl p
      · next hge =>
          refine ⟨List.mem_append_left _ ho, hu, fun q hq hqu => ?_⟩
          rcases List.mem_append.mp hq with hq | hq
          · exact hall q hq hqu
          · rw [List.mem_singleton.mp hq]
            rcases lt_or_eq_of_le (not_lt.mp hge) with hlt | heq
            · exact Or.inl hlt
            · exact Or.inr ⟨heq, UInt32.le_of_lt (hid o ho)⟩

theorem foldlM_older (h : Accounts mc) (ids : List UInt32) (hbest : Best pre acc)
    (hids : ∀ id ∈ ids, mc.idMap.find id ≠ none) (hpw : ids.Pairwise (· < ·))
    (hpre : ∀ q ∈ pre, ∀ id ∈ ids, q.2.id < id) :
    ∃ r es, ids.foldlM mc.older acc = some r ∧ Best (pre ++ es) r ∧ es.map (·.2.id) = ids ∧
      ∀ q ∈ es, q ∈ mc.alive ∧ q.2.isValid = true := by
  induction ids generalizing pre acc with
  | nil => exact ⟨acc, [], rfl, by rwa [List.append_nil], rfl, fun q hq => absurd hq List.not_mem_nil⟩
  | cons id ids ih =>
      obtain ⟨hid, hrest⟩ := List.forall_mem_cons.mp hids
      obtain ⟨hlt, htail⟩ := List.pairwise_cons.mp hpw
      obtain ⟨me, hfind⟩ := Option.ne_none_iff_exists'.mp hid
      obtain ⟨e, hp, hv, rfl⟩ := (h.maps id me).mp hfind
      obtain ⟨acc', hacc', hbest'⟩ : ∃ acc', mc.older acc e.id = some acc' ∧
          Best (pre ++ [(me, e)]) acc' := by
        rw [older, hfind]
        dsimp only
        rw [h.entry_eq hp, Option.map_some]
        by_cases hu : e.useCounter = 0
        · rw [if_pos ⟨hv, hu⟩]
          have hsnoc := hbest.snoc (p := (me, e)) ⟨hv, hu⟩ fun q hq =>
            hpre q hq e.id List.mem_cons_self
          cases acc with
          | none => exact ⟨_, rfl, hsnoc⟩
          | some o => exact ⟨_, rfl, hsnoc⟩
        · rw [if_neg fun hx => hu hx.2]
          exact ⟨_, rfl, hbest.snoc_of_not fun hx => hu hx.2⟩
      obtain ⟨r, es, hr, hb, hes, hall⟩ := ih hbest' hrest htail fun q hq id' hid' => by
        rcases List.mem_append.mp hq with hq | hq
        · exact hpre q hq id' (List.mem_cons_of_mem _ hid')
        · rw [List.mem_singleton.mp hq]
          exact hlt id' hid'
      refine ⟨r, (me, e) :: es, ?_, ?_, ?_, ?_⟩
      · rw [List.foldlM_cons, hacc']
        exact hr
      · rwa [List.append_cons]
      · rw [List.map_cons, hes]
      · exact List.forall_mem_cons.mpr ⟨⟨hp, hv⟩, hall⟩

theorem Accounts.scans (h : Accounts mc) (hl : Listed mc.alive) :
    (∀ id, mc.idMap.find id = none) ∨ ∃ id, id < 16 ∧ mc.idMap.find id ≠ none := by
  rcases hl with hno | ⟨p, hp, hv, hlt⟩
  · refine Or.inl fun id => Option.eq_none_iff_forall_ne_some.mpr fun me hme => ?_
    obtain ⟨e, he, hv, -⟩ := (h.maps id me).mp hme
    exact Bool.false_ne_true ((hno _ he).symm.trans hv)
  · refine Or.inr ⟨p.2.id, hlt, ?_⟩
    rw [(h.maps p.2.id p.1).mpr ⟨p.2, hp, hv, rfl⟩]
    exact Option.some_ne_none _

/-- The search finds the oldest of the unused entries. -/
theorem Accounts.oldestEntry (h : Accounts mc) (hl : Listed mc.alive) :
    ∃ r, mc.oldestEntry = some r ∧ Best mc.alive r := by
  obtain ⟨ids, hids, hpw, hmem⟩ := IdMap.iterate_spec h.pruned (h.scans hl)
  have hnone : Best [] none := fun q hq => absurd hq List.not_mem_nil
  obtain ⟨r, es, hr, hbest, hes, hall⟩ := foldlM_older h ids hnone (fun id hid => (hmem id).mp hid) hpw
    (fun q hq => absurd hq List.not_mem_nil)
  have hfull : ∀ q ∈ mc.alive, Unused q → q ∈ es := by
    rintro q hq ⟨hv, -⟩
    have hfind := (h.maps q.2.id q.1).mpr ⟨q.2, hq, hv, rfl⟩
    have hid : q.2.id ∈ es.map (·.2.id) := by
      rw [hes, hmem, hfind]
      exact Option.some_ne_none _
    obtain ⟨x, hx, hxid⟩ := List.mem_map.mp hid
    obtain ⟨hxa, hxv⟩ := hall x hx
    have hfind' := (h.maps q.2.id x.1).mpr ⟨x.2, hxa, hxv, hxid⟩
    rwa [eq_of_mem h.nodup hq hxa (Option.some.inj (hfind.symm.trans hfind'))]
  refine ⟨r, by rw [MemCache.oldestEntry, hids, Option.bind_some, hr], ?_⟩
  cases r with
  | none => exact fun q hq hu => hbest q (hfull q hq hu) hu
  | some p =>
      obtain ⟨hp, hu, hle⟩ := hbest
      exact ⟨(hall p hp).1, hu, fun q hq hqu => hle q (hfull q hq hqu) hqu⟩

end

/-! ### Making room -/

section
variable {es es' : List (ℕ × Entry)} {n n' : ℕ} {p : ℕ × Entry}

/-- What is released is unused and counted. -/
structure Released (es : List (ℕ × Entry)) (n : ℕ) (es' : List (ℕ × Entry)) (n' : ℕ) : Prop where
  sublist : es'.Sublist es
  inUse_eq : inUse es' = inUse es
  le : n + total es' ≤ n' + total es
  eq : n' ≠ 0 → n + total es' = n' + total es
  lt : n ≠ 0 → n' = 0 → es'.length < es.length
  part : ∀ p ∈ es, p ∉ es' → p.2.dataLen.toNat + total es' ≤ total es

theorem Reaches.released (hn : (es.map Prod.fst).Nodup) (h : Reaches es n es' n') :
    Released es n es' n' := by
  obtain ⟨s, hs⟩ : ∃ s, s = (es', n') := ⟨_, rfl⟩
  rw [Reaches, ← hs] at h
  induction h generalizing es' n' with
  | refl =>
      obtain ⟨rfl, rfl⟩ := Prod.mk.inj hs
      exact ⟨List.Sublist.refl _, rfl, Nat.le_refl _, fun _ => rfl, fun h h' => absurd h' h,
        fun p hp hp' => absurd hp hp'⟩
  | tail hprev hstep ih =>
      rename_i b c
      obtain ⟨hsub, hinUse, hle, heq, hlt, hpart⟩ := ih (Prod.eta b).symm
      obtain ⟨hb, p, ⟨hp, hu, -⟩, rfl⟩ := hstep
      obtain ⟨rfl, rfl⟩ := Prod.mk.inj hs
      obtain ⟨hlen, htotal⟩ := drop_spec (hn.sublist (hsub.map _)) hp
      have heq := heq hb
      refine ⟨List.filter_sublist.trans hsub, ?_, by omega, fun hne => by omega, fun _ _ => ?_, ?_⟩
      · rw [← hinUse, inUse, inUse, drop, List.filter_filter]
        refine List.filter_congr fun q hq => ?_
        by_cases hqp : q.1 = p.1
        · rw [eq_of_mem (hn.sublist (hsub.map _)) hq hp hqp, hu.2]
          rfl
        · simp [hqp]
      · have := hsub.length_le
        omega
      · intro q hq hq'
        by_cases hqb : q ∈ b.1
        · have hqp : q.1 = p.1 := by
            by_contra hne
            exact hq' (mem_drop.mpr ⟨hqb, hne⟩)
          rw [eq_of_mem (hn.sublist (hsub.map _)) hqb hp hqp]
          have htotal' : total b.1 ≤ total es := by
            rw [total, total]
            exact (hsub.map _).sum_le_sum fun _ _ => Nat.zero_le _
          omega
        · have := hpart q hq hqb
          omega

end

section
variable {mc : MemCache} {n : UInt64} {me : ℕ} {e : Entry} {es : List (ℕ × Entry)} {id : UInt32}

theorem toNat_needed (n d : UInt64) : (if n < d then 0 else n - d).toNat = n.toNat - d.toNat := by
  split
  · next h =>
      have := UInt64.lt_iff_toNat_lt.mp h
      rw [UInt64.toNat_zero]
      omega
  · next h => rw [UInt64.toNat_sub_of_le _ _ (UInt64.not_lt.mp h)]

/-- The loop releases the oldest entries until there is room, or none is left that is unused. -/
theorem makeRoom_spec (fuel : ℕ) (h : Accounts mc) (hs : Scannable mc.alive n.toNat)
    (hfuel : mc.alive.length < fuel) : ∃ rv mc' n', makeRoom fuel mc n = some (rv, mc') ∧
      Accounts mc' ∧ SameLimits mc mc' ∧ Reaches mc.alive n.toNat mc'.alive n' ∧
      (rv = 0 ↔ n' = 0) ∧ (n' ≠ 0 → ∀ q ∈ mc'.alive, ¬Unused q) := by
  induction fuel generalizing mc n with
  | zero => exact absurd hfuel (Nat.not_lt_zero _)
  | succ fuel ih =>
      rw [makeRoom]
      by_cases h0 : n = 0
      · subst h0
        exact ⟨0, mc, 0, if_pos rfl, h, SameLimits.refl mc, Relation.ReflTransGen.refl,
          iff_of_true rfl rfl, fun hn => absurd rfl hn⟩
      · have hn : n.toNat ≠ 0 := fun hz => h0 (UInt64.toNat_inj.mp hz)
        have hl : Listed mc.alive := hs _ _ Relation.ReflTransGen.refl hn
        obtain ⟨r, hr, hbest⟩ := h.oldestEntry hl
        rw [if_neg h0, hr, Option.bind_some]
        cases r with
        | none =>
            exact ⟨_, mc, n.toNat, rfl, h, SameLimits.refl mc, Relation.ReflTransGen.refl,
              iff_of_false (by decide) hn, fun _ => hbest⟩
        | some p =>
            obtain ⟨mc1, hevict, h1, hsame, halive⟩ := h.evict hbest.1 hbest.2.1
            have hstep : EvictStep (mc.alive, n.toNat)
                (mc1.alive, (if n < p.2.dataLen then 0 else n - p.2.dataLen).toNat) :=
              ⟨hn, p, hbest, by rw [halive, toNat_needed]⟩
            have hlen := (drop_spec h.nodup hbest.1).1
            obtain ⟨rv, mc', n', hroom, h', hsame', hreach, hrest⟩ := ih h1
              (fun es' n' hr => hs es' n' (Relation.ReflTransGen.head hstep hr))
              (by rw [halive]; omega)
            refine ⟨rv, mc', n', ?_, h', hsame.trans hsame',
              Relation.ReflTransGen.head hstep hreach, hrest⟩
            dsimp only
            rw [hevict, Option.bind_some]
            exact hroom

/-! ### Creating an entry -/

theorem inUse_invalidate (id : UInt32) (es : List (ℕ × Entry)) :
    (inUse (invalidate id es)).map (·.2.dataLen.toNat) = (inUse es).map (·.2.dataLen.toNat) := by
  induction es with
  | nil => rfl
  | cons p es ih =>
      rw [inUse, inUse, invalidate] at ih
      rw [inUse, inUse, invalidate, List.filterMap_cons]
      by_cases hid : p.2.isValid = true ∧ p.2.id = id
      · by_cases hu : p.2.useCounter = 0
        · rw [if_pos hid, if_pos hu, ih, List.filter_cons_of_neg (by simp [hu])]
        · rw [if_pos hid, if_neg hu]
          dsimp only
          rw [List.filter_cons_of_pos (by simp [hu]), List.filter_cons_of_pos (by simp [hu]),
            List.map_cons, List.map_cons, ih]
      · rw [if_neg hid]
        dsimp only
        by_cases hu : p.2.useCounter = 0
        · rw [List.filter_cons_of_neg (by simp [hu]), List.filter_cons_of_neg (by simp [hu]), ih]
        · rw [List.filter_cons_of_pos (by simp [hu]), List.filter_cons_of_pos (by simp [hu]),
            List.map_cons, List.map_cons, ih]

theorem length_inUse_invalidate (id : UInt32) (es : List (ℕ × Entry)) :
    (inUse (invalidate id es)).length = (inUse es).length := by
  have h := congrArg List.length (inUse_invalidate id es)
  rwa [List.length_map, List.length_map] at h

theorem total_inUse_invalidate (id : UInt32) (es : List (ℕ × Entry)) :
    total (inUse (invalidate id es)) = total (inUse es) :=
  congrArg List.sum (inUse_invalidate id es)

theorem invalidate_le (id : UInt32) (es : List (ℕ × Entry)) :
    (invalidate id es).length ≤ es.length ∧ total (invalidate id es) ≤ total es := by
  refine ⟨List.length_filterMap_le _ _, ?_⟩
  induction es with
  | nil => exact Nat.le_refl _
  | cons p es ih =>
      have hsum : ∀ (q : ℕ × Entry) qs, total (q :: qs) = q.2.dataLen.toNat + total qs :=
        fun q qs => by rw [total, List.map_cons, List.sum_cons, total]
      rw [invalidate] at ih
      rw [invalidate, List.filterMap_cons, hsum]
      split
      · omega
      · next q hq =>
          have hlen : q.2.dataLen = p.2.dataLen := by
            split at hq
            · split at hq
              · cases hq
              · obtain rfl := Option.some.inj hq
                rfl
            · obtain rfl := Option.some.inj hq
              rfl
          rw [hsum, hlen]
          omega

theorem Accounts.inUse_eq (h : Accounts mc) (hu : ∀ q ∈ mc.alive, ¬Unused q) :
    inUse mc.alive = mc.alive := by
  refine List.filter_eq_self.mpr fun q hq => decide_eq_true fun h0 => ?_
  cases hv : q.2.isValid with
  | true => exact hu q hq ⟨hv, h0⟩
  | false => exact h.used q hq hv h0

/-- A new entry is used once. -/
theorem Accounts.beginUse_newEntry (h : Accounts mc) (id : UInt32) (dataLen : UInt64) :
    (mc.newEntry id dataLen).2.beginUse mc.fresh = some { (mc.newEntry id dataLen).2 with
      alive := mc.alive ++ [(mc.fresh, ⟨id, 1, 0, dataLen, true⟩)] } := by
  have hne : ∀ p ∈ mc.alive, p.1 ≠ mc.fresh := fun p hp => Nat.ne_of_lt (h.fresh p hp)
  have hnodup : ((mc.alive ++ [(mc.fresh, (⟨id, 0, 0, dataLen, true⟩ : Entry))]).map
      Prod.fst).Nodup := by
    rw [List.map_append, List.nodup_append]
    refine ⟨h.nodup, List.nodup_singleton _, fun a ha b hb => ?_⟩
    obtain ⟨p, hp, rfl⟩ := List.mem_map.mp ha
    rw [List.mem_singleton.mp hb]
    exact hne p hp
  have hentry : (mc.newEntry id dataLen).2.entry mc.fresh = some ⟨id, 0, 0, dataLen, true⟩ :=
    (lookup_eq_some_iff hnodup).mpr (List.mem_append_right _ (List.mem_singleton.mpr rfl))
  have hsame : replace mc.fresh ⟨id, 1, 0, dataLen, true⟩ mc.alive = mc.alive := by
    rw [replace]
    conv_rhs => rw [← List.map_id mc.alive]
    exact List.map_congr_left fun p hp => if_neg (hne p hp)
  have hreplace : replace mc.fresh ⟨id, 1, 0, dataLen, true⟩
      (mc.alive ++ [(mc.fresh, (⟨id, 0, 0, dataLen, true⟩ : Entry))]) =
        mc.alive ++ [(mc.fresh, ⟨id, 1, 0, dataLen, true⟩)] := by
    rw [replace, List.map_append, ← replace, hsame, List.map_singleton, if_pos rfl]
  have hfits : (0 : ℕ) + 1 < 2 ^ 31 := by decide
  rw [beginUse, hentry, Option.bind_some]
  dsimp only
  rw [if_pos hfits, setEntry, ← hreplace]
  rfl

theorem Accounts.create (h : Accounts mc) (hfind : mc.idMap.find id = none) (dataLen : UInt64)
    (hlen : mc.alive.length + 1 < 2 ^ 32) (htotal : total mc.alive + dataLen.toNat < 2 ^ 64) :
    Accounts { (mc.newEntry id dataLen).2 with
      alive := mc.alive ++ [(mc.fresh, ⟨id, 1, 0, dataLen, true⟩)]
      idMap := ⟨Trie.insert 8 mc.idMap.table (IdMap.nibble id.toNat) mc.fresh,
        mc.idMap.count + 1⟩ } := by
  have hne : ∀ p ∈ mc.alive, p.1 ≠ mc.fresh := fun p hp => Nat.ne_of_lt (h.fresh p hp)
  have hvalid : validCount mc.alive ≤ mc.alive.length := List.countP_le_length
  have hmem : ∀ p, p ∈ mc.alive ++ [(mc.fresh, (⟨id, 1, 0, dataLen, true⟩ : Entry))] ↔
      p ∈ mc.alive ∨ p = (mc.fresh, ⟨id, 1, 0, dataLen, true⟩) := fun p => by
    rw [List.mem_append, List.mem_singleton]
  refine ⟨?_, ?_, ?_, ?_, (Trie.insert_ok 8 _ _ h.pruned).2, ?_, ?_, ?_⟩
  · dsimp only
    rw [List.map_append, List.nodup_append]
    refine ⟨h.nodup, List.nodup_singleton _, fun a ha b hb => ?_⟩
    obtain ⟨p, hp, rfl⟩ := List.mem_map.mp ha
    rw [List.mem_singleton.mp hb]
    exact hne p hp
  · intro p hp
    rcases (hmem p).mp hp with hp | rfl
    · exact Nat.lt_succ_of_lt (h.fresh p hp)
    · exact Nat.lt_succ_self _
  · show (mc.currentCacheEntries + 1).toNat = (mc.alive ++ [_]).length
    rw [UInt32.toNat_add, h.entries_eq, UInt32.toNat_one, Nat.mod_eq_of_lt hlen,
      List.length_append, List.length_singleton]
  · show (mc.currentCacheMemory + dataLen).toNat = total (mc.alive ++ [_])
    rw [UInt64.toNat_add, h.memory_eq, Nat.mod_eq_of_lt htotal, total, total,
      List.map_append, List.sum_append, List.map_singleton, List.sum_singleton]
  · intro id' me
    dsimp only
    rw [IdMap.find_insert_eq, IdMap.Op.apply]
    by_cases hid : id' = id
    · subst hid
      rw [update_self]
      constructor
      · intro hme
        exact ⟨_, (hmem _).mpr (Or.inr (by rw [Option.some.inj hme])), rfl, rfl⟩
      · rintro ⟨e, he, hv, hid⟩
        rcases (hmem _).mp he with he | he
        · rw [(h.maps id' me).mpr ⟨e, he, hv, hid⟩] at hfind
          cases hfind
        · rw [(Prod.mk.inj he).1]
    · rw [update_of_ne hid, h.maps]
      refine exists_congr fun e => and_congr_left fun hx => ?_
      rw [hmem]
      refine (or_iff_left fun he => hid ?_).symm
      rw [← hx.2, (Prod.mk.inj he).2]
  · show (mc.idMap.count + 1).toNat = validCount (mc.alive ++ [_])
    rw [UInt32.toNat_add, h.count_eq, UInt32.toNat_one, Nat.mod_eq_of_lt (by omega), validCount,
      validCount, List.countP_append]
    rfl
  · intro p hp hv
    rcases (hmem p).mp hp with hp | rfl
    · exact h.used p hp hv
    · cases hv

theorem Accounts.release (h : Accounts mc) (hs : Scannable mc.alive n.toNat) :
    ∃ rv mc' n', mc.release n = some (rv, mc') ∧ Accounts mc' ∧ SameLimits mc mc' ∧
      Reaches mc.alive n.toNat mc'.alive n' ∧ Released mc.alive n.toNat mc'.alive n' ∧
      (rv = 0 ↔ n' = 0) ∧ (n' ≠ 0 → inUse mc'.alive = mc'.alive) := by
  obtain ⟨rv, mc', n', hroom, h', hsame, hreach, hrv, hunused⟩ :=
    makeRoom_spec (mc.alive.length + 1) h hs (Nat.lt_succ_self _)
  exact ⟨rv, mc', n', hroom, h', hsame, hreach, hreach.released h.nodup, hrv,
    fun hn => h'.inUse_eq (hunused hn)⟩

/-- Creating an entry does not reach a defect: the sum of the lengths fits its type, the ids can
be listed whenever room is made, and at the limit of entries there is a byte to be released if
there is an entry to be released. -/
structure RoomSafe (mc : MemCache) (id : UInt32) (dataLen : UInt64) : Prop where
  fits : total mc.alive + dataLen.toNat < 2 ^ 64
  entries : mc.maxCacheEntries.toNat ≤ (invalidate id mc.alive).length →
    Scannable (invalidate id mc.alive) 1 ∧ ((∃ p ∈ invalidate id mc.alive, Unused p) →
      ∃ p ∈ invalidate id mc.alive, Unused p ∧ p.2.dataLen ≠ 0)
  memory : ∀ es, (if mc.maxCacheEntries.toNat ≤ (invalidate id mc.alive).length
      then Reaches (invalidate id mc.alive) 1 es 0 else es = invalidate id mc.alive) →
    mc.maxCacheMemory.toNat ≤ total es + dataLen.toNat →
      Scannable es (total es + dataLen.toNat - mc.maxCacheMemory.toNat)

theorem Accounts.roomForEntry (h : Accounts mc)
    (hs : mc.maxCacheEntries.toNat ≤ mc.alive.length → Scannable mc.alive 1 ∧
      ((∃ p ∈ mc.alive, Unused p) → ∃ p ∈ mc.alive, Unused p ∧ p.2.dataLen ≠ 0)) :
    ∃ rv mc', (if mc.currentCacheEntries ≥ mc.maxCacheEntries then mc.release 1
        else some (0, mc)) = some (rv, mc') ∧ Accounts mc' ∧ SameLimits mc mc' ∧
      mc'.alive.Sublist mc.alive ∧ inUse mc'.alive = inUse mc.alive ∧
      total mc'.alive ≤ total mc.alive ∧
      (rv ≠ 0 → mc.maxCacheEntries.toNat ≤ (inUse mc.alive).length) ∧
      (rv = 0 → (if mc.maxCacheEntries.toNat ≤ mc.alive.length then Reaches mc.alive 1 mc'.alive 0
        else mc'.alive = mc.alive) ∧
        (mc'.alive.length < mc.maxCacheEntries.toNat ∨ mc'.alive.length < mc.alive.length)) := by
  have hge : mc.currentCacheEntries ≥ mc.maxCacheEntries ↔
      mc.maxCacheEntries.toNat ≤ mc.alive.length := by
    rw [ge_iff_le, UInt32.le_iff_toNat_le, h.entries_eq]
  by_cases hfull : mc.maxCacheEntries.toNat ≤ mc.alive.length
  · obtain ⟨hscan, hbyte⟩ := hs hfull
    obtain ⟨rv, mc', n', hrel, h', hsame, hreach, hreleased, hrv, hnone⟩ := h.release (n := 1) hscan
    have hone : (1 : UInt64).toNat = 1 := rfl
    rw [hone] at hreach hreleased
    rw [if_pos (hge.mpr hfull)]
    refine ⟨rv, mc', hrel, h', hsame, hreleased.sublist, hreleased.inUse_eq, ?_, fun hne => ?_,
      fun hz => ?_⟩
    · exact (hreleased.sublist.map _).sum_le_sum fun _ _ => Nat.zero_le _
    · -- nothing was unused, since it would have had a byte
      have hn' : n' ≠ 0 := fun hz => hne (hrv.mpr hz)
      have hsum := hreleased.eq hn'
      have hall : ∀ p ∈ mc.alive, ¬Unused p := by
        intro p hp hu
        obtain ⟨q, hq, hqu, hlen⟩ := hbyte ⟨p, hp, hu⟩
        have hq' : q ∉ mc'.alive := fun hq' => by
          rw [← hnone hn', inUse, List.mem_filter, decide_eq_true_iff] at hq'
          exact hq'.2 hqu.2
        have hpart := hreleased.part q hq hq'
        have hpos : q.2.dataLen.toNat ≠ 0 := fun hz => hlen (UInt64.toNat_inj.mp hz)
        omega
      rwa [h.inUse_eq hall]
    · rw [if_pos hfull]
      have hn' := hrv.mp hz
      subst hn'
      exact ⟨hreach, Or.inr (hreleased.lt Nat.one_ne_zero rfl)⟩
  · rw [if_neg fun hx => hfull (hge.mp hx)]
    refine ⟨0, mc, rfl, h, SameLimits.refl mc, List.Sublist.refl _, rfl, Nat.le_refl _,
      fun hne => absurd rfl hne, fun _ => ?_⟩
    rw [if_neg hfull]
    exact ⟨rfl, Or.inl (Nat.lt_of_not_le hfull)⟩

theorem Accounts.roomForData (h : Accounts mc) {dataLen : UInt64}
    (hfits : total mc.alive + dataLen.toNat < 2 ^ 64)
    (hs : mc.maxCacheMemory.toNat ≤ total mc.alive + dataLen.toNat →
      Scannable mc.alive (total mc.alive + dataLen.toNat - mc.maxCacheMemory.toNat)) :
    ∃ rv mc', (if mc.currentCacheMemory + dataLen ≥ mc.maxCacheMemory then
        mc.release (mc.currentCacheMemory + dataLen - mc.maxCacheMemory) else some (0, mc)) =
        some (rv, mc') ∧ Accounts mc' ∧ SameLimits mc mc' ∧
      mc'.alive.Sublist mc.alive ∧ inUse mc'.alive = inUse mc.alive ∧
      (rv ≠ 0 → mc.maxCacheMemory.toNat < total (inUse mc.alive) + dataLen.toNat) ∧
      (rv = 0 → total mc'.alive + dataLen.toNat ≤ mc.maxCacheMemory.toNat) := by
  have hsum : (mc.currentCacheMemory + dataLen).toNat = total mc.alive + dataLen.toNat := by
    rw [UInt64.toNat_add, h.memory_eq, Nat.mod_eq_of_lt hfits]
  have hge : mc.currentCacheMemory + dataLen ≥ mc.maxCacheMemory ↔
      mc.maxCacheMemory.toNat ≤ total mc.alive + dataLen.toNat := by
    rw [ge_iff_le, UInt64.le_iff_toNat_le, hsum]
  by_cases hfull : mc.maxCacheMemory.toNat ≤ total mc.alive + dataLen.toNat
  · have hdiff : (mc.currentCacheMemory + dataLen - mc.maxCacheMemory).toNat =
        total mc.alive + dataLen.toNat - mc.maxCacheMemory.toNat := by
      rw [UInt64.toNat_sub_of_le _ _ (hge.mpr hfull), hsum]
    obtain ⟨rv, mc', n', hrel, h', hsame, -, hreleased, hrv, hnone⟩ :=
      h.release (hdiff.symm ▸ hs hfull)
    rw [hdiff] at hreleased
    rw [if_pos (hge.mpr hfull)]
    refine ⟨rv, mc', hrel, h', hsame, hreleased.sublist, hreleased.inUse_eq, fun hne => ?_,
      fun hz => ?_⟩
    · have hn' : n' ≠ 0 := fun hz => hne (hrv.mpr hz)
      have heq := hreleased.eq hn'
      rw [← hreleased.inUse_eq, hnone hn']
      omega
    · have hle := hreleased.le
      rw [hrv.mp hz] at hle
      omega
  · rw [if_neg fun hx => hfull (hge.mp hx)]
    refine ⟨0, mc, rfl, h, SameLimits.refl mc, List.Sublist.refl _, rfl, fun hne => absurd rfl hne,
      fun _ => by omega⟩

end

/-! ### Operations -/

/-- Fewer entries, but those in use are kept. -/
structure Shrinks (es es' : List (ℕ × Entry)) : Prop where
  length_le : es'.length ≤ es.length
  total_le : total es' ≤ total es
  kept : ∀ me e, (me, e) ∈ es → e.useCounter ≠ 0 →
    ∃ e', (me, e') ∈ es' ∧ e'.useCounter = e.useCounter

section
variable {mc : MemCache} {me : ℕ} {e e' : Entry} {es es' es'' : List (ℕ × Entry)} {id : UInt32}

theorem Shrinks.refl (es : List (ℕ × Entry)) : Shrinks es es :=
  ⟨Nat.le_refl _, Nat.le_refl _, fun _ e he _ => ⟨e, he, rfl⟩⟩

theorem Shrinks.mem (h : Shrinks es es') (hp : (me, e) ∈ es) (hu : e.useCounter ≠ 0) :
    ∃ e', (me, e') ∈ es' :=
  (h.kept me e hp hu).imp fun _ h => h.1

theorem Shrinks.trans (h : Shrinks es es') (h' : Shrinks es' es'') : Shrinks es es'' := by
  refine ⟨h'.length_le.trans h.length_le, h'.total_le.trans h.total_le, fun me e he hu => ?_⟩
  obtain ⟨e', he', heq⟩ := h.kept me e he hu
  obtain ⟨e'', he'', heq'⟩ := h'.kept me e' he' (heq ▸ hu)
  exact ⟨e'', he'', heq'.trans heq⟩

theorem shrinks_invalidate (id : UInt32) (es : List (ℕ × Entry)) :
    Shrinks es (invalidate id es) := by
  obtain ⟨hlen, htotal⟩ := invalidate_le id es
  refine ⟨hlen, htotal, fun me e he hu => ?_⟩
  by_cases hid : e.isValid = true ∧ e.id = id
  · refine ⟨{ e with isValid := false }, List.mem_filterMap.mpr ⟨(me, e), he, ?_⟩, rfl⟩
    rw [if_pos hid, if_neg hu]
  · exact ⟨e, List.mem_filterMap.mpr ⟨(me, e), he, if_neg hid⟩, rfl⟩

theorem shrinks_of_sublist (hs : es'.Sublist es) (hu : inUse es' = inUse es) : Shrinks es es' := by
  refine ⟨hs.length_le, (hs.map _).sum_le_sum fun _ _ => Nat.zero_le _, fun me e he hne => ?_⟩
  have hmem : (me, e) ∈ inUse es' := by
    rw [hu]
    exact List.mem_filter.mpr ⟨he, decide_eq_true hne⟩
  exact ⟨e, (List.mem_filter.mp hmem).1, rfl⟩

theorem Accounts.purgeFrom (h : Accounts mc) (id mask : UInt32) (fuel : ℕ) {currentId : UInt32}
    (hid : mc.idMap.find currentId ≠ none) (hfuel : 2 ^ 32 ≤ currentId.toNat + fuel) :
    ∃ mc', purgeFrom id mask fuel mc currentId = some mc' ∧ Accounts mc' ∧ SameLimits mc mc' ∧
      Shrinks mc.alive mc'.alive := by
  induction fuel generalizing mc currentId with
  | zero => exact absurd currentId.toNat_lt (by omega)
  | succ fuel ih =>
      have hbig : 16 ≤ 2 ^ 32 := by norm_num
      obtain ⟨mc1, hpurge, h1, hsame, hshrinks, hfind⟩ : ∃ mc1,
          (if currentId &&& mask = id then mc.purgeEntry currentId else some mc) = some mc1 ∧
          Accounts mc1 ∧ SameLimits mc mc1 ∧ Shrinks mc.alive mc1.alive ∧
          ∀ id', id' ≠ currentId → mc1.idMap.find id' = mc.idMap.find id' := by
        split
        · obtain ⟨mc1, hpurge, h1, hsame, halive, hfind⟩ := h.purgeEntry currentId
          refine ⟨mc1, hpurge, h1, hsame, halive ▸ shrinks_invalidate _ _, fun id' hne => ?_⟩
          rw [hfind, update_of_ne hne]
        · exact ⟨mc, rfl, h, SameLimits.refl mc, Shrinks.refl _, fun _ _ => rfl⟩
      rw [MemCache.purgeFrom]
      rcases IdMap.findNext_spec h.pruned hid hbig with ⟨hnext, -⟩ | ⟨nextId, hnext, hin, hlt, -⟩
      · rw [hnext, Option.bind_some, hpurge]
        exact ⟨mc1, rfl, h1, hsame, hshrinks⟩
      · have hlt' := UInt32.lt_iff_toNat_lt.mp hlt
        have hne : nextId ≠ currentId := fun heq => UInt32.lt_irrefl _ (heq ▸ hlt)
        obtain ⟨mc', hrest, h', hsame', hshrinks'⟩ := ih h1 (by rwa [hfind nextId hne]) (by omega)
        rw [hnext, Option.bind_some, hpurge]
        exact ⟨mc', hrest, h', hsame.trans hsame', hshrinks.trans hshrinks'⟩

theorem Accounts.purgeEntries (h : Accounts mc) (hl : Listed mc.alive) (id mask : UInt32) :
    ∃ mc', mc.purgeEntries id mask = some mc' ∧ Accounts mc' ∧ SameLimits mc mc' ∧
      Shrinks mc.alive mc'.alive := by
  rw [MemCache.purgeEntries]
  rcases h.scans hl with hno | hid
  · rw [IdMap.findFirst_of_empty h.pruned hno]
    exact ⟨mc, rfl, h, SameLimits.refl mc, Shrinks.refl _⟩
  · obtain ⟨currentId, hfirst, hin, -⟩ := IdMap.findFirst_spec h.pruned hid
    rw [hfirst]
    exact h.purgeFrom id mask (2 ^ 32) hin (Nat.le_add_left _ _)

theorem shrinks_replace (e' : Entry) (hn : (es.map Prod.fst).Nodup) (hp : (me, e) ∈ es)
    (hlen : e'.dataLen = e.dataLen) : (replace me e' es).length ≤ es.length ∧
      total (replace me e' es) ≤ total es ∧ ∀ p ∈ es, ∃ x, (p.1, x) ∈ replace me e' es := by
  obtain ⟨hl, ht⟩ := replace_spec e' hn hp hlen
  refine ⟨hl.le, ht.le, fun p hpm => ?_⟩
  by_cases h : p.1 = me
  · exact ⟨e', mem_replace.mpr (Or.inl ⟨by rw [h], (me, e), hp, rfl⟩)⟩
  · exact ⟨p.2, mem_replace.mpr (Or.inr ⟨hpm, h⟩)⟩

theorem Accounts.beginUse (h : Accounts mc) (hp : (me, e) ∈ mc.alive)
    (hu : e.useCounter + 1 < 2 ^ 31) : ∃ mc', mc.beginUse me = some mc' ∧ Accounts mc' ∧
      SameLimits mc mc' ∧ mc'.alive = replace me { e with useCounter := e.useCounter + 1 } mc.alive := by
  rw [MemCache.beginUse, h.entry_eq hp, Option.bind_some, if_pos hu]
  exact ⟨_, rfl, h.write hp rfl rfl rfl fun _ => Nat.succ_ne_zero _, ⟨rfl, rfl, rfl⟩, rfl⟩

theorem replace_replace : replace me e' (replace me e es) = replace me e' es := by
  rw [replace, replace, List.map_map, replace]
  refine List.map_congr_left fun p _ => ?_
  by_cases h : p.1 = me
  · simp [h]
  · simp [h]

theorem Accounts.endUse (h : Accounts mc) (hp : (me, e) ∈ mc.alive) (hu : e.useCounter ≠ 0)
    (hlast : e.useCounter = 1 → e.isValid = true) (now : ℤ) :
    ∃ mc', mc.endUse me now = some mc' ∧ Accounts mc' ∧ SameLimits mc mc' ∧
      mc'.alive.length ≤ mc.alive.length ∧ total mc'.alive ≤ total mc.alive ∧
      ∀ p ∈ mc.alive, ∃ x, (p.1, x) ∈ mc'.alive := by
  rw [MemCache.endUse, h.entry_eq hp, Option.bind_some, if_neg hu]
  dsimp only
  by_cases hone : e.useCounter - 1 = 0
  · have hv : ¬ e.isValid = false := by
      rw [hlast (by omega)]
      nofun
    rw [if_pos hone, if_neg hv]
    have hset : (mc.setEntry me { e with useCounter := e.useCounter - 1 }).setEntry me
        { e with useCounter := 0, unusedSince := now } =
          mc.setEntry me { e with useCounter := 0, unusedSince := now } := by
      rw [setEntry, setEntry, setEntry, replace_replace]
    obtain ⟨hl, ht, hkept⟩ := shrinks_replace
      { e with useCounter := 0, unusedSince := now } h.nodup hp rfl
    rw [hset]
    exact ⟨_, rfl, h.write hp rfl rfl rfl fun hx => absurd hx hv, ⟨rfl, rfl, rfl⟩, hl, ht, hkept⟩
  · rw [if_neg hone]
    obtain ⟨hl, ht, hkept⟩ := shrinks_replace
      { e with useCounter := e.useCounter - 1 } h.nodup hp rfl
    exact ⟨_, rfl, h.write hp rfl rfl rfl fun _ => hone, ⟨rfl, rfl, rfl⟩, hl, ht, hkept⟩

/-- The counters are right and keep the limits. -/
structure Good (mc : MemCache) : Prop where
  accounts : Accounts mc
  entries_le : mc.alive.length ≤ mc.maxCacheEntries.toNat
  memory_le : total mc.alive ≤ mc.maxCacheMemory.toNat

theorem Good.of_shrinks {mc' : MemCache} (h : Good mc) (h' : Accounts mc')
    (hsame : SameLimits mc mc') (hlen : mc'.alive.length ≤ mc.alive.length)
    (htotal : total mc'.alive ≤ total mc.alive) : Good mc' := by
  refine ⟨h', ?_, ?_⟩
  · rw [hsame.maxCacheEntries]
    exact hlen.trans h.entries_le
  · rw [hsame.maxCacheMemory]
    exact htotal.trans h.memory_le

theorem Accounts.add (h : Accounts mc) (hfind : mc.idMap.find id = none) {dataLen : UInt64}
    (hlt : mc.alive.length < mc.maxCacheEntries.toNat)
    (htotal : total mc.alive + dataLen.toNat ≤ mc.maxCacheMemory.toNat) :
    ∃ mc', (((mc.newEntry id dataLen).2.beginUse (mc.newEntry id dataLen).1).bind fun mc' =>
        (mc'.idMap.setPair id (some (mc.newEntry id dataLen).1)).map fun m =>
          (some (mc.newEntry id dataLen).1, { mc' with idMap := m.2 })) =
        some (some mc.fresh, mc') ∧ Good mc' ∧ ∀ p ∈ mc.alive, p ∈ mc'.alive := by
  have hword := mc.maxCacheEntries.toNat_lt
  have hword' := mc.maxCacheMemory.toNat_lt
  have hcreate := h.create hfind dataLen (by omega) (by omega)
  have hptr : (mc.newEntry id dataLen).1 = mc.fresh := rfl
  rw [hptr, h.beginUse_newEntry, Option.bind_some, IdMap.setPair_some]
  refine ⟨_, rfl, ⟨hcreate, ?_, ?_⟩, fun p hp => List.mem_append_left _ hp⟩
  · show (mc.alive ++ [_]).length ≤ mc.maxCacheEntries.toNat
    rw [List.length_append, List.length_singleton]
    exact hlt
  · show total (mc.alive ++ [_]) ≤ mc.maxCacheMemory.toNat
    rw [total, List.map_append, List.sum_append, List.map_singleton, List.sum_singleton]
    exact htotal

/-- Creating an entry keeps the limits, and is refused only if there is no room between the
entries in use. -/
theorem Good.createEntry (h : Good mc) {dataLen : UInt64} (hs : RoomSafe mc id dataLen) :
    ∃ r mc', mc.createEntry id dataLen = some (r, mc') ∧ Good mc' ∧
      (∀ me e, (me, e) ∈ mc.alive → e.useCounter ≠ 0 → ∃ e', (me, e') ∈ mc'.alive) ∧
      (r = none → mc.maxCacheEntries.toNat ≤ (inUse mc.alive).length ∨
        mc.maxCacheMemory.toNat < total (inUse mc.alive) + dataLen.toNat) := by
  obtain ⟨mc1, hpurge, h1, hsame1, halive1, hfind1⟩ := h.accounts.purgeEntry id
  have hshrinks1 := shrinks_invalidate id mc.alive
  have hmax := hsame1.maxCacheEntries
  have hmem := hsame1.maxCacheMemory
  have hlimit := h.entries_le
  have hlenUse : (inUse mc1.alive).length = (inUse mc.alive).length := by
    rw [halive1, length_inUse_invalidate]
  have htotalUse : total (inUse mc1.alive) = total (inUse mc.alive) := by
    rw [halive1, total_inUse_invalidate]
  obtain ⟨rv2, mc2, hroom2, h2, hsame2, hsub2, hinUse2, htotal2, hrefused2, hdone2⟩ :=
    h1.roomForEntry (by rw [hmax, halive1]; exact hs.entries)
  rw [← halive1] at hshrinks1
  have hshrinks2 := hshrinks1.trans (shrinks_of_sublist hsub2 hinUse2)
  rw [MemCache.createEntry, hpurge, Option.bind_some, hroom2, Option.bind_some]
  dsimp only
  by_cases hrv2 : rv2 = 0
  · obtain ⟨hreach, hless⟩ := hdone2 hrv2
    rw [if_neg (not_not.mpr hrv2)]
    have hfits : total mc2.alive + dataLen.toNat < 2 ^ 64 :=
      Nat.lt_of_le_of_lt (Nat.add_le_add_right hshrinks2.total_le _) hs.fits
    have hmax2 : mc2.maxCacheMemory = mc.maxCacheMemory := hsame2.maxCacheMemory.trans hmem
    obtain ⟨rv3, mc3, hroom3, h3, hsame3, hsub3, hinUse3, hrefused3, hdone3⟩ :=
      h2.roomForData hfits (by
        rw [hmax2]
        refine hs.memory mc2.alive ?_
        rw [hmax, halive1] at hreach
        exact hreach)
    have hshrinks3 := hshrinks2.trans (shrinks_of_sublist hsub3 hinUse3)
    rw [hroom3, Option.bind_some]
    dsimp only
    by_cases hrv3 : rv3 = 0
    · have hfind3 : mc3.idMap.find id = none := by
        refine Option.eq_none_iff_forall_ne_some.mpr fun me hme => ?_
        obtain ⟨e, he, hv, hid⟩ := (h3.maps id me).mp hme
        have hfind := (h1.maps id me).mpr ⟨e, hsub2.subset (hsub3.subset he), hv, hid⟩
        rw [hfind1, update_self] at hfind
        cases hfind
      have hlt : mc3.alive.length < mc3.maxCacheEntries.toNat := by
        have hle1 := hshrinks1.length_le
        have hle3 := hsub3.length_le
        rw [hmax] at hless
        rw [hsame3.maxCacheEntries, hsame2.maxCacheEntries, hmax]
        omega
      have htotal : total mc3.alive + dataLen.toNat ≤ mc3.maxCacheMemory.toNat := by
        rw [hsame3.maxCacheMemory]
        exact hdone3 hrv3
      obtain ⟨mc', hadd, hgood, hmem'⟩ := h3.add hfind3 hlt htotal
      rw [if_neg (not_not.mpr hrv3), hadd]
      exact ⟨_, mc', rfl, hgood, fun me e he hu =>
        (hshrinks3.mem he hu).imp fun _ h => hmem' _ h, nofun⟩
    · rw [if_pos hrv3]
      refine ⟨none, mc3, rfl, h.of_shrinks h3 (hsame1.trans (hsame2.trans hsame3))
        hshrinks3.length_le hshrinks3.total_le, fun me e he hu => hshrinks3.mem he hu,
        fun _ => Or.inr ?_⟩
      have hrefused := hrefused3 hrv3
      rwa [hmax2, hinUse2, htotalUse] at hrefused
  · rw [if_pos hrv2]
    refine ⟨none, mc2, rfl, h.of_shrinks h2 (hsame1.trans hsame2) hshrinks2.length_le
      hshrinks2.total_le, fun me e he hu => hshrinks2.mem he hu, fun _ => Or.inl ?_⟩
    have hrefused := hrefused2 hrv2
    rwa [hmax, hlenUse] at hrefused

end

/-! ### Runs -/

/-- No entry in use is freed, and an entry is refused only if there is no room between those in
use. -/
structure Respects (s : MemCache) (o : Op) (r : Option ℕ) (t : MemCache) : Prop where
  kept : ∀ me e, (me, e) ∈ s.alive → e.useCounter ≠ 0 → ∃ e', (me, e') ∈ t.alive
  refused : ∀ id dataLen, o = .createEntry id dataLen → r = none →
    s.maxCacheEntries.toNat ≤ (inUse s.alive).length ∨
      s.maxCacheMemory.toNat < total (inUse s.alive) + dataLen.toNat

/-- The callers end only the uses that they have begun, and the step does not reach a defect. -/
def Safe (mc : MemCache) : Op → Prop
  | .createEntry id dataLen => RoomSafe mc id dataLen
  | .findEntry id => ∀ p ∈ mc.alive, p.2.isValid = true → p.2.id = id → p.2.useCounter + 1 < 2 ^ 31
  | .beginUse me => ∃ e, (me, e) ∈ mc.alive ∧ e.useCounter + 1 < 2 ^ 31
  | .endUse me _ => ∃ e, (me, e) ∈ mc.alive ∧ e.useCounter ≠ 0 ∧
      (e.useCounter = 1 → e.isValid = true)
  | .purgeEntry _ => True
  | .purgeEntries _ _ => Listed mc.alive

section
variable {mc : MemCache}

theorem respects_of_shrinks {mc' : MemCache} {o : Op} {r : Option ℕ}
    (ho : ∀ id dataLen, o ≠ .createEntry id dataLen) (h : Shrinks mc.alive mc'.alive) :
    Respects mc o r mc' := by
  refine ⟨fun me e he hu => ?_, fun id dataLen heq => absurd heq (ho id dataLen)⟩
  obtain ⟨e', he', -⟩ := h.kept me e he hu
  exact ⟨e', he'⟩

theorem Good.begin {me : ℕ} {e : Entry} (h : Good mc) (hp : (me, e) ∈ mc.alive)
    (hu : e.useCounter + 1 < 2 ^ 31) : ∃ mc', mc.beginUse me = some mc' ∧ Good mc' ∧
      ∀ p ∈ mc.alive, ∃ x, (p.1, x) ∈ mc'.alive := by
  obtain ⟨mc', hbegin, h', hsame, halive⟩ := h.accounts.beginUse hp hu
  obtain ⟨hl, ht, hkept⟩ := shrinks_replace
    { e with useCounter := e.useCounter + 1 } h.accounts.nodup hp rfl
  rw [← halive] at hl ht hkept
  exact ⟨mc', hbegin, h.of_shrinks h' hsame hl ht, hkept⟩

/-- A safe step keeps the limits and respects what is in use. -/
theorem Good.call (h : Good mc) (o : Op) (hs : Safe mc o) :
    ∃ r mc', mc.call o = some (r, mc') ∧ Good mc' ∧ Respects mc o r mc' := by
  cases o with
  | createEntry id dataLen =>
      obtain ⟨r, mc', hcreate, h', hkept, hrefused⟩ := h.createEntry hs
      refine ⟨r, mc', hcreate, h', hkept, ?_⟩
      intro id' dataLen' heq hr
      obtain ⟨rfl, rfl⟩ := Op.createEntry.inj heq
      exact hrefused hr
  | findEntry id =>
      rw [MemCache.call, findEntry]
      cases hfind : mc.idMap.find id with
      | none => exact ⟨none, mc, rfl, h, respects_of_shrinks nofun (Shrinks.refl _)⟩
      | some me =>
          obtain ⟨e, hp, hv, hid⟩ := (h.accounts.maps id me).mp hfind
          obtain ⟨mc', hbegin, h', hkept⟩ := h.begin hp (hs (me, e) hp hv hid)
          dsimp only
          rw [hbegin]
          exact ⟨some me, mc', rfl, h', fun me e he _ => hkept (me, e) he, nofun⟩
  | beginUse me =>
      obtain ⟨e, hp, hu⟩ := hs
      obtain ⟨mc', hbegin, h', hkept⟩ := h.begin hp hu
      exact ⟨none, mc', by rw [MemCache.call, hbegin]; rfl, h', fun me e he _ => hkept (me, e) he,
        nofun⟩
  | endUse me now =>
      obtain ⟨e, hp, hu, hlast⟩ := hs
      obtain ⟨mc', hend, h', hsame, hl, ht, hkept⟩ := h.accounts.endUse hp hu hlast now
      exact ⟨none, mc', by rw [MemCache.call, hend]; rfl, h.of_shrinks h' hsame hl ht,
        fun me e he _ => hkept (me, e) he, nofun⟩
  | purgeEntry id =>
      obtain ⟨mc', hpurge, h', hsame, halive, -⟩ := h.accounts.purgeEntry id
      have hshrinks := shrinks_invalidate id mc.alive
      rw [← halive] at hshrinks
      exact ⟨none, mc', by rw [MemCache.call, hpurge]; rfl,
        h.of_shrinks h' hsame hshrinks.length_le hshrinks.total_le,
        respects_of_shrinks nofun hshrinks⟩
  | purgeEntries id mask =>
      obtain ⟨mc', hpurge, h', hsame, hshrinks⟩ := h.accounts.purgeEntries hs id mask
      exact ⟨none, mc', by rw [MemCache.call, hpurge]; rfl,
        h.of_shrinks h' hsame hshrinks.length_le hshrinks.total_le,
        respects_of_shrinks nofun hshrinks⟩

end

theorem good_new (maxCacheMemory : UInt64) (maxCacheEntries : UInt32) :
    Good (new maxCacheMemory maxCacheEntries) := by
  refine ⟨⟨List.nodup_nil, fun p hp => absurd hp List.not_mem_nil, rfl, rfl, Trie.pruned_empty 7,
    fun id me => ?_, rfl, fun p hp => absurd hp List.not_mem_nil⟩, Nat.zero_le _, Nat.zero_le _⟩
  have hnone : (new maxCacheMemory maxCacheEntries).idMap.find id = none := rfl
  rw [hnone]
  refine iff_of_false nofun ?_
  rintro ⟨e, he, -⟩
  exact List.not_mem_nil he

def KeepsLimits (maxCacheMemory : UInt64) (maxCacheEntries : UInt32) (ops : List Op) : Prop :=
  ∀ pre o, pre ++ [o] <+: ops → ∃ s r t,
    exec step (new maxCacheMemory maxCacheEntries) pre = some s ∧ s.call o = some (r, t) ∧
      Good t ∧ Respects s o r t

/-- A run of safe steps keeps the limits. -/
theorem keepsLimits (maxCacheMemory : UInt64) (maxCacheEntries : UInt32) (ops : List Op)
    (h : Along step Safe (new maxCacheMemory maxCacheEntries) ops) :
    KeepsLimits maxCacheMemory maxCacheEntries ops := by
  have hstep : ∀ s o, Good s → Safe s o → ∃ t, step s o = some t ∧ Good t := by
    intro s o hg hs
    obtain ⟨r, t, hcall, ht, -⟩ := hg.call o hs
    exact ⟨t, by rw [step, hcall]; rfl, ht⟩
  intro pre o hpre
  obtain ⟨s, hexec, hgood⟩ := h.exec_initial hstep (good_new maxCacheMemory maxCacheEntries) pre
    ((List.prefix_append pre [o]).trans hpre)
  obtain ⟨r, t, hcall, ht, hrespects⟩ := hgood.call o (h.of_exec pre o hpre s hexec)
  exact ⟨s, r, t, hexec, hcall, ht, hrespects⟩

/-- An entry is created and purged. -/
theorem keepsLimits_purge : KeepsLimits 100 1 [.createEntry 1 10, .purgeEntry 1] := by
  refine keepsLimits 100 1 _ ⟨⟨by decide, fun h => absurd h (by decide), fun es hes h => ?_⟩, ?_⟩
  · have hnone : ¬(new 100 1).maxCacheEntries.toNat ≤ (invalidate 1 (new 100 1).alive).length := by
      decide
    rw [if_neg hnone] at hes
    rw [hes] at h
    exact absurd h (by decide)
  · split
    · trivial
    · refine ⟨trivial, ?_⟩
      split <;> trivial

/-- At the limit of one entry, which is not used and has no data, another one is refused. -/
theorem not_keepsLimits_empty : ¬∀ maxCacheMemory maxCacheEntries ops,
    KeepsLimits maxCacheMemory maxCacheEntries ops := by
  intro h
  obtain ⟨s, r, t, hexec, hcall, -, hrespects⟩ :=
    h 100 1 [.createEntry 1 0, .endUse 0 5, .createEntry 2 1]
      [.createEntry 1 0, .endUse 0 5] (.createEntry 2 1) (List.prefix_refl _)
  have hrefused : (exec step (new 100 1) [.createEntry 1 0, .endUse 0 5]).bind
      (fun s => (s.call (.createEntry 2 1)).map Prod.fst) = some none := by decide
  have hnone : (exec step (new 100 1) [.createEntry 1 0, .endUse 0 5]).map
      (fun s => (inUse s.alive, s.maxCacheEntries, s.maxCacheMemory)) = some ([], 1, 100) := by
    decide
  rw [hexec, Option.bind_some, hcall] at hrefused
  rw [hexec, Option.map_some] at hnone
  obtain ⟨hinUse, hrest⟩ := Prod.mk.inj (Option.some.inj hnone)
  obtain ⟨hentries, hmemory⟩ := Prod.mk.inj hrest
  have hx := hrespects.refused 2 1 rfl (Option.some.inj hrefused)
  rw [hinUse, hentries, hmemory] at hx
  exact absurd hx (by decide)
end Gwenhywfar.MemCache
