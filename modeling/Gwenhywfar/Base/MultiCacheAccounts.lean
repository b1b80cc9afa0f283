import Gwenhywfar.Base.MultiCache
import Mathlib.Algebra.BigOperators.Group.List.Basic

/-! # The accounts of the cache

* `Accounts`: the size of the cache, the id maps of its types and the references to the objects
  are those of the entries in its list.
* `CacheInv` adds what keeps the counters of the id maps from wrapping around.
* `releaseEntry_inv` and `insertData_inv` are the two changes that all functions are made of.
* `accounts_of_fitting`: the run lemma.  `Fits` asks that an entry that is added fits the cache,
  as `GWEN_MultiCache_Type_SetData` does not look whether it was added. -/

namespace Gwenhywfar

open Function

/-! ### Id maps -/

/-- The map holds these pointers, and its counter is right. -/
structure IdMap.Counts {α : Type} (m : IdMap α) : Prop where
  pruned : Trie.Pruned 8 m.table
  counter : m.count.toNat = (IdMap.ids m.find).ncard

theorem IdMap.counts_new {α : Type} : (IdMap.new : IdMap α).Counts where
  pruned := Trie.pruned_empty 7
  counter := by
    have h : IdMap.ids (IdMap.new : IdMap α).find = ∅ := by
      ext id
      simp only [IdMap.ids, Set.mem_ofPred_eq, Set.mem_empty_iff_false, iff_false]
      rw [IdMap.find_eq]
      exact Bool.false_ne_true
    rw [h, Set.ncard_empty]
    rfl

theorem IdMap.Counts.insert {α : Type} {m : IdMap α} (h : m.Counts) {id : UInt32} (a : α)
    (hnew : m.find id = none) (hroom : m.count.toNat + 1 < 2 ^ 32) :
    ∃ r m', m.setPair id (some a) = some (r, m') ∧ m'.Counts ∧
      m'.find = update m.find id (some a) := by
  have hfind := IdMap.find_insert_eq m id a (m.count + 1)
  refine ⟨_, _, IdMap.setPair_some m id a, ⟨(Trie.insert_ok 8 _ _ h.pruned).2, ?_⟩, hfind⟩
  rw [hfind, IdMap.ids_insert, Set.ncard_insert_of_notMem _ (IdMap.ids_finite m.find), ← h.counter]
  · rw [UInt32.toNat_add]
    exact Nat.mod_eq_of_lt hroom
  · simp [IdMap.ids, hnew]

theorem IdMap.Counts.remove {α : Type} {m : IdMap α} (h : m.Counts) {id : UInt32}
    (hold : m.find id ≠ none) : ∃ r m', m.setPair id none = some (r, m') ∧ m'.Counts ∧
      m'.find = update m.find id none := by
  have hmem : id ∈ IdMap.ids m.find := Option.isSome_iff_ne_none.mpr hold
  have hpos : 0 < m.count.toNat := by
    rw [h.counter]
    exact (Set.ncard_pos (IdMap.ids_finite m.find)).mpr ⟨id, hmem⟩
  have hzero : m.count ≠ 0 := by
    intro h0
    rw [h0] at hpos
    exact absurd hpos (by decide)
  have htable := (IdMap.getTable_ne_none_iff h.pruned id).mpr ⟨id, rfl, hold⟩
  have hfind := IdMap.find_erase_eq m id (m.count - 1)
  refine ⟨_, _, by rw [IdMap.setPair_none_present htable, if_neg hzero],
    ⟨Trie.pruned_erase 7 _ h.pruned, ?_⟩, hfind⟩
  rw [hfind, IdMap.ids_remove, Set.ncard_sdiff_singleton_of_mem hmem, ← h.counter]
  have hone : (1 : UInt32) ≤ m.count := UInt32.le_iff_toNat_le.mpr hpos
  rw [UInt32.toNat_sub_of_le _ _ hone]
  rfl

namespace MultiCache

/-! ### The invariant -/

def sizeAt (mc : MultiCache) (a : ℕ) : ℕ :=
  match mc.entry a with
  | none => 0
  | some e => e.dataSize.toNat

/-- The entry at an address is for this object. -/
def isFor (mc : MultiCache) (ct p a : ℕ) : Bool :=
  match mc.entry a with
  | none => false
  | some e => e.cacheType = ct ∧ e.dataPtr = p

/-- The accounts of the cache are those of the entries in its list. -/
structure Accounts (mc : MultiCache) : Prop where
  /-- The current size is the size of the entries. -/
  size : mc.currentSize = (mc.entryList.map mc.sizeAt).sum
  bounded : mc.currentSize ≤ mc.maxSize
  /-- The id map of a type has the entries of the type that are in the list, and no others. -/
  maps : ∀ ct id a, (mc.entryMap ct).find id = some a ↔
    a ∈ mc.entryList ∧ ∃ e, mc.entry a = some e ∧ e.cacheType = ct ∧ e.id = id
  /-- For each entry the cache has one reference to the object. -/
  references : ∀ ct p, mc.log.count (.attach ct p) =
    mc.log.count (.free ct p) + mc.entryList.countP (mc.isFor ct p)

/-- The invariant of the cache. -/
structure CacheInv (mc : MultiCache) : Prop extends Accounts mc where
  alive : ∀ a ∈ mc.entryList, ∃ e, mc.entry a = some e
  once : mc.entryList.Nodup
  old : ∀ a ∈ mc.entryList, a < mc.nextEntry
  counts : ∀ ct, (mc.entryMap ct).Counts
  word : mc.currentSize < 2 ^ 64

theorem cacheInv_new (maxSize : ℕ) : CacheInv (new maxSize) where
  size := rfl
  bounded := Nat.zero_le maxSize
  maps := by
    intro ct id a
    constructor
    · intro h
      rw [show (new maxSize).entryMap ct = IdMap.new from rfl, IdMap.find_eq] at h
      exact absurd h (Option.some_ne_none a).symm
    · rintro ⟨h, -⟩
      exact absurd h List.not_mem_nil
  references := fun _ _ => rfl
  alive := fun _ h => absurd h List.not_mem_nil
  once := List.nodup_nil
  old := fun _ h => absurd h List.not_mem_nil
  counts := fun _ => IdMap.counts_new
  word := Nat.two_pow_pos 64

/-! ### Releasing entries -/

/-- What does not change, or gets less, when entries of the list are released. -/
structure Released (mc mc' : MultiCache) : Prop where
  maxSize : mc'.maxSize = mc.maxSize
  nextEntry : mc'.nextEntry = mc.nextEntry
  list : ∀ a ∈ mc'.entryList, a ∈ mc.entryList
  others : ∀ a, a ∉ mc.entryList → mc'.entry a = mc.entry a
  absent : ∀ ct id, (mc.entryMap ct).find id = none → (mc'.entryMap ct).find id = none
  counts : ∀ ct, (mc'.entryMap ct).count.toNat ≤ (mc.entryMap ct).count.toNat

theorem Released.refl (mc : MultiCache) : Released mc mc :=
  ⟨rfl, rfl, fun _ h => h, fun _ _ => rfl, fun _ _ h => h, fun _ => le_rfl⟩

theorem Released.trans {mc mc' mc'' : MultiCache} (h : Released mc mc') (h' : Released mc' mc'') :
    Released mc mc'' where
  maxSize := h'.maxSize.trans h.maxSize
  nextEntry := h'.nextEntry.trans h.nextEntry
  list := fun a ha => h.list a (h'.list a ha)
  others := fun a ha => (h'.others a fun hm => ha (h.list a hm)).trans (h.others a ha)
  absent := fun ct id hn => h'.absent ct id (h.absent ct id hn)
  counts := fun ct => (h'.counts ct).trans (h.counts ct)

variable {mc : MultiCache}

theorem releaseEntry_inv (h : CacheInv mc) {a : ℕ} {e : CacheEntry}
    (ha : a ∈ mc.entryList) (he : mc.entry a = some e) :
    ∃ mc', mc.releaseEntry a = some mc' ∧ CacheInv mc' ∧ Released mc mc' ∧
      mc'.entryList = mc.entryList.erase a ∧ mc'.currentSize + e.dataSize.toNat = mc.currentSize := by
  have hfind : (mc.entryMap e.cacheType).find e.id = some a :=
    (h.maps _ _ _).mpr ⟨ha, e, he, rfl, rfl⟩
  obtain ⟨r, m, hm, hcounts, hmfind⟩ :=
    (h.counts e.cacheType).remove (by rw [hfind]; exact Option.some_ne_none a)
  have hperm := List.perm_cons_erase ha
  have hmem : ∀ b, b ∈ mc.entryList.erase a ↔ b ≠ a ∧ b ∈ mc.entryList :=
    fun b => h.once.mem_erase_iff
  have hentry : ∀ b ∈ mc.entryList.erase a,
      update mc.entry a none b = mc.entry b := fun b hb =>
    update_of_ne ((hmem b).mp hb).1 _ _
  have hsize : mc.currentSize = e.dataSize.toNat + ((mc.entryList.erase a).map mc.sizeAt).sum := by
    rw [h.size, (hperm.map mc.sizeAt).sum_eq, List.map_cons, List.sum_cons, sizeAt, he]
  have hlt := e.dataSize.toNat_lt
  have hword := h.word
  have hcur : (mc.currentSize + (2 ^ 64 - e.dataSize.toNat)) % 2 ^ 64 =
      ((mc.entryList.erase a).map mc.sizeAt).sum := by omega
  generalize hmc' : ({ mc with
    entryList := mc.entryList.erase a
    entryMap := update mc.entryMap e.cacheType m
    log := mc.log ++ [.free e.cacheType e.dataPtr]
    entry := update mc.entry a none
    currentSize := (mc.currentSize + (2 ^ 64 - e.dataSize.toNat)) % 2 ^ 64 } : MultiCache) = mc'
  have hlist : mc'.entryList = mc.entryList.erase a := by rw [← hmc']
  have hcur' : mc'.currentSize = ((mc.entryList.erase a).map mc.sizeAt).sum := by
    rw [← hmc']
    exact hcur
  have hsizeAt : (mc.entryList.erase a).map mc'.sizeAt = (mc.entryList.erase a).map mc.sizeAt := by
    refine List.map_congr_left fun b hb => ?_
    rw [sizeAt, sizeAt, ← hmc', ← hentry b hb]
  have hfor : ∀ ct p, (mc.entryList.erase a).countP (mc'.isFor ct p) =
      (mc.entryList.erase a).countP (mc.isFor ct p) := by
    intro ct p
    refine List.countP_congr fun b hb => ?_
    rw [isFor, isFor, ← hmc', ← hentry b hb]
  have hmap : ∀ ct id, (mc'.entryMap ct).find id =
      if ct = e.cacheType ∧ id = e.id then none else (mc.entryMap ct).find id := by
    intro ct id
    rw [← hmc']
    by_cases hct : ct = e.cacheType
    · subst hct
      dsimp only
      rw [update_self, hmfind]
      by_cases hid : id = e.id
      · subst hid
        rw [update_self, if_pos ⟨rfl, rfl⟩]
      · rw [update_of_ne hid, if_neg fun h => hid h.2]
    · dsimp only
      rw [update_of_ne hct, if_neg fun h => hct h.1]
  refine ⟨mc', by rw [releaseEntry, he, Option.bind_some, hm, Option.map_some, ← hmc'],
    ⟨⟨?_, ?_, ?_, ?_⟩, ?_, ?_, ?_, ?_, ?_⟩, ⟨by rw [← hmc'], by rw [← hmc'], ?_, ?_, ?_, ?_⟩,
    by rw [← hmc'], ?_⟩
  · rw [hcur', hlist, hsizeAt]
  · have hb := h.bounded
    have hmax : mc'.maxSize = mc.maxSize := by rw [← hmc']
    omega
  · intro ct id b
    rw [hmap, hlist, hmem]
    by_cases hsame : ct = e.cacheType ∧ id = e.id
    · obtain ⟨rfl, rfl⟩ := hsame
      rw [if_pos ⟨rfl, rfl⟩]
      refine ⟨fun h => absurd h.symm (Option.some_ne_none b), ?_⟩
      rintro ⟨⟨hne, hb⟩, e', he', hct, hid⟩
      rw [← hmc'] at he'
      dsimp only at he'
      rw [update_of_ne hne] at he'
      have := (h.maps _ _ _).mpr ⟨hb, e', he', hct, hid⟩
      rw [hfind, Option.some.injEq] at this
      exact absurd this.symm hne
    · rw [if_neg hsame, h.maps]
      constructor
      · rintro ⟨hb, e', he', hct, hid⟩
        have hne : b ≠ a := by
          rintro rfl
          rw [he, Option.some.injEq] at he'
          subst he'
          exact hsame ⟨hct.symm, hid.symm⟩
        refine ⟨⟨hne, hb⟩, e', ?_, hct, hid⟩
        rw [← hmc']
        exact (update_of_ne hne _ _).trans he'
      · rintro ⟨⟨hne, hb⟩, e', he', hct, hid⟩
        rw [← hmc'] at he'
        exact ⟨hb, e', (update_of_ne hne _ _).symm.trans he', hct, hid⟩
  · intro ct p
    have hlog : mc'.log = mc.log ++ [.free e.cacheType e.dataPtr] := by rw [← hmc']
    have href := h.references ct p
    rw [hperm.countP_eq, List.countP_cons] at href
    rw [hlist, hlog, hfor, List.count_append, List.count_append, href, isFor, he]
    by_cases hsame : e.cacheType = ct ∧ e.dataPtr = p
    · obtain ⟨rfl, rfl⟩ := hsame
      simp
      omega
    · have hne : CacheCall.free e.cacheType e.dataPtr ≠ .free ct p := by
        simpa using hsame
      simp [hsame, hne]
  · intro b hb
    rw [← hmc'] at hb ⊢
    obtain ⟨hne, hb⟩ := (hmem b).mp hb
    obtain ⟨e', he'⟩ := h.alive b hb
    exact ⟨e', (update_of_ne hne _ _).trans he'⟩
  · rw [← hmc']
    exact h.once.erase a
  · intro b hb
    rw [← hmc'] at hb ⊢
    exact h.old b ((hmem b).mp hb).2
  · intro ct
    rw [← hmc']
    dsimp only
    by_cases hct : ct = e.cacheType
    · subst hct
      rwa [update_self]
    · rw [update_of_ne hct]
      exact h.counts ct
  · omega
  · intro b hb
    rw [← hmc'] at hb
    exact ((hmem b).mp hb).2
  · intro b hb
    rw [← hmc']
    exact update_of_ne (fun hba : b = a => hb (hba ▸ ha)) _ _
  · intro ct id hn
    rw [hmap, hn, ite_self]
  · intro ct
    have hsub : IdMap.ids (mc'.entryMap ct).find ⊆ IdMap.ids (mc.entryMap ct).find := by
      intro id hid
      simp only [IdMap.ids, Set.mem_ofPred_eq, hmap] at hid ⊢
      split at hid
      · exact absurd hid (by simp)
      · exact hid
    have hcounts' : (mc'.entryMap ct).Counts := by
      rw [← hmc']
      dsimp only
      by_cases hct : ct = e.cacheType
      · subst hct
        rwa [update_self]
      · rw [update_of_ne hct]
        exact h.counts ct
    rw [hcounts'.counter, (h.counts ct).counter]
    exact Set.ncard_le_ncard hsub (IdMap.ids_finite _)
  · omega

/-- Making room releases entries until there is room, if the cache is large enough. -/
theorem makeRoom_inv : ∀ (k : ℕ) {mc : MultiCache} {nsize : ℤ}, CacheInv mc →
    mc.entryList.length < k → nsize ≤ mc.currentSize →
    ∃ mc', makeRoom k mc nsize = some (true, mc') ∧ CacheInv mc' ∧ Released mc mc' ∧
      mc'.currentSize ≤ mc.currentSize ∧ (mc'.currentSize : ℤ) + nsize ≤ mc.currentSize
  | 0, _, _, _, hk, _ => absurd hk (Nat.not_lt_zero _)
  | k + 1, mc, nsize, h, hk, hle => by
      by_cases hdone : nsize ≤ 0
      · exact ⟨mc, by rw [makeRoom, if_pos hdone], h, Released.refl mc, le_rfl, by omega⟩
      · cases hlist : mc.entryList with
        | nil =>
            have hsize := h.size
            rw [hlist, List.map_nil, List.sum_nil] at hsize
            omega
        | cons a rest =>
            have ha : a ∈ mc.entryList := by
              rw [hlist]
              exact List.mem_cons_self
            obtain ⟨e, he⟩ := h.alive a ha
            obtain ⟨mc1, hrel, h1, hr1, hlist1, hsize1⟩ := releaseEntry_inv h ha he
            rw [hlist, List.erase_cons_head] at hlist1
            rw [hlist, List.length_cons] at hk
            have hk' : mc1.entryList.length < k := by
              rw [hlist1]
              omega
            have hle' : nsize - (e.dataSize.toNat : ℤ) ≤ mc1.currentSize := by omega
            obtain ⟨mc', hrun, h', hr', hmono, hroom⟩ := makeRoom_inv k h1 hk' hle'
            refine ⟨mc', ?_, h', hr1.trans hr', by omega, by omega⟩
            rw [makeRoom, if_neg hdone, hlist]
            dsimp only
            rw [he, Option.bind_some, hrel, Option.bind_some, hrun]

/-! ### Adding an entry -/

theorem newEntry_inv (h : CacheInv mc) (e : CacheEntry) :
    CacheInv (mc.newEntry e).2 := by
  have hentry : ∀ a ∈ mc.entryList, (mc.newEntry e).2.entry a = mc.entry a := fun a ha =>
    update_of_ne (Nat.ne_of_lt (h.old a ha)) _ _
  refine ⟨⟨?_, h.bounded, ?_, ?_⟩, ?_, h.once, ?_, h.counts, h.word⟩
  · refine h.size.trans (congrArg List.sum (List.map_congr_left fun a ha => ?_))
    rw [sizeAt, sizeAt, hentry a ha]
  · intro ct id a
    refine (h.maps ct id a).trans (and_congr_right fun ha => ?_)
    rw [hentry a ha]
  · intro ct p
    refine (h.references ct p).trans (congrArg _ (List.countP_congr fun a ha => ?_))
    rw [isFor, isFor, hentry a ha]
  · exact fun a ha => by rw [hentry a ha]; exact h.alive a ha
  · exact fun a ha => Nat.lt_succ_of_lt (h.old a ha)

theorem appendEntry_inv (h : CacheInv mc) {a : ℕ} {e : CacheEntry}
    (he : mc.entry a = some e) (hnew : a ∉ mc.entryList) (hold : a < mc.nextEntry)
    (hid : (mc.entryMap e.cacheType).find e.id = none)
    (hcount : (mc.entryMap e.cacheType).count.toNat + 1 < 2 ^ 32)
    (hfits : mc.currentSize + e.dataSize.toNat ≤ mc.maxSize)
    (hword : mc.currentSize + e.dataSize.toNat < 2 ^ 64) :
    ∃ r m, (mc.entryMap e.cacheType).setPair e.id (some a) = some (r, m) ∧
      CacheInv { mc.appendEntry a e with
        entryMap := update mc.entryMap e.cacheType m } := by
  obtain ⟨r, m, hm, hcounts, hmfind⟩ := (h.counts e.cacheType).insert a hid hcount
  have hmod : (mc.currentSize + e.dataSize.toNat) % 2 ^ 64 =
      mc.currentSize + e.dataSize.toNat := Nat.mod_eq_of_lt hword
  refine ⟨r, m, hm, ⟨?_, ?_, ?_, ?_⟩, ?_, ?_, ?_, ?_, ?_⟩
  · have hlast : mc.sizeAt a = e.dataSize.toNat := by rw [sizeAt, he]
    change (mc.currentSize + e.dataSize.toNat) % 2 ^ 64 =
      ((mc.entryList ++ [a]).map mc.sizeAt).sum
    rw [hmod, List.map_append, List.sum_append, ← h.size, List.map_singleton, List.sum_singleton,
      hlast]
  · change (mc.currentSize + e.dataSize.toNat) % 2 ^ 64 ≤ mc.maxSize
    rwa [hmod]
  · intro ct id b
    change (update mc.entryMap e.cacheType m ct).find id = some b ↔
      b ∈ mc.entryList ++ [a] ∧ ∃ e', mc.entry b = some e' ∧ e'.cacheType = ct ∧ e'.id = id
    rw [List.mem_append, List.mem_singleton]
    by_cases hsame : ct = e.cacheType ∧ id = e.id
    · obtain ⟨rfl, rfl⟩ := hsame
      rw [update_self, hmfind, update_self, Option.some.injEq]
      constructor
      · rintro rfl
        exact ⟨Or.inr rfl, e, he, rfl, rfl⟩
      · rintro ⟨hb | rfl, e', he', hct, hid'⟩
        · have := (h.maps _ _ _).mpr ⟨hb, e', he', hct, hid'⟩
          rw [hid] at this
          exact absurd this.symm (Option.some_ne_none b)
        · rfl
    · have hkeep : (update mc.entryMap e.cacheType m ct).find id =
          (mc.entryMap ct).find id := by
        by_cases hct : ct = e.cacheType
        · subst hct
          rw [update_self, hmfind, update_of_ne fun hid => hsame ⟨rfl, hid⟩]
        · rw [update_of_ne hct]
      rw [hkeep, h.maps]
      constructor
      · exact fun ⟨hb, h'⟩ => ⟨Or.inl hb, h'⟩
      · rintro ⟨hb | rfl, e', he', hct, hid'⟩
        · exact ⟨hb, e', he', hct, hid'⟩
        · rw [he, Option.some.injEq] at he'
          subst he'
          exact absurd ⟨hct.symm, hid'.symm⟩ hsame
  · intro ct p
    change (mc.log ++ [CacheCall.attach e.cacheType e.dataPtr]).count (CacheCall.attach ct p) =
      (mc.log ++ [CacheCall.attach e.cacheType e.dataPtr]).count (CacheCall.free ct p) +
        (mc.entryList ++ [a]).countP (mc.isFor ct p)
    have hlast : mc.isFor ct p a = decide (e.cacheType = ct ∧ e.dataPtr = p) := by rw [isFor, he]
    rw [List.count_append, List.count_append, List.countP_append, h.references, List.countP_singleton,
      hlast]
    by_cases hsame : e.cacheType = ct ∧ e.dataPtr = p
    · obtain ⟨rfl, rfl⟩ := hsame
      simp
      omega
    · have hne : CacheCall.attach e.cacheType e.dataPtr ≠ .attach ct p := by
        simpa using hsame
      simp [hsame, hne]
  · intro b hb
    rcases List.mem_append.mp hb with hb | hb
    · exact h.alive b hb
    · rw [List.mem_singleton.mp hb]
      exact ⟨e, he⟩
  · exact List.nodup_append.mpr ⟨h.once, List.nodup_singleton a, fun b hb c hc => by
      rw [List.mem_singleton.mp hc]
      rintro rfl
      exact hnew hb⟩
  · intro b hb
    rcases List.mem_append.mp hb with hb | hb
    · exact h.old b hb
    · rw [List.mem_singleton.mp hb]
      exact hold
  · intro ct
    change (update mc.entryMap e.cacheType m ct).Counts
    by_cases hct : ct = e.cacheType
    · subst hct
      rwa [update_self]
    · rw [update_of_ne hct]
      exact h.counts ct
  · exact Nat.mod_lt _ (Nat.two_pow_pos 64)

/-- The entry that is made for these data fits the cache, its size can be added to the current
size, and the counter of the id map of its type does not wrap around. -/
def Fits (mc : MultiCache) (ct : ℕ) (size : UInt32) : Prop :=
  size.toNat ≤ mc.maxSize ∧ mc.currentSize + size.toNat < 2 ^ 64 ∧
    (mc.entryMap ct).count.toNat + 1 < 2 ^ 32

instance (mc : MultiCache) (ct : ℕ) (size : UInt32) : Decidable (mc.Fits ct size) :=
  inferInstanceAs (Decidable (_ ∧ _))

theorem addEntry_inv (h : CacheInv mc) {e : CacheEntry}
    (hfits : mc.Fits e.cacheType e.dataSize) : ∃ mc2, (mc.newEntry e).2.addEntry mc.nextEntry =
        some (0, mc2.appendEntry mc.nextEntry e) ∧ CacheInv mc2 ∧
      Released (mc.newEntry e).2 mc2 ∧ mc2.currentSize ≤ mc.currentSize ∧
      mc2.currentSize + e.dataSize.toNat ≤ mc.maxSize ∧
      ∃ k, mc.entryList.length < k ∧ makeRoom k (mc.newEntry e).2
        ((mc.currentSize : ℤ) + e.dataSize.toNat - mc.maxSize) = some (true, mc2) := by
  obtain ⟨hmax, hword, hcount⟩ := hfits
  have hbounded := h.bounded
  have hlt := e.dataSize.toNat_lt
  have h1 := newEntry_inv h e
  have hentry : (mc.newEntry e).2.entry mc.nextEntry = some e := update_self _ _ _
  have hneeded : (mc.currentSize + e.dataSize.toNat) % 2 ^ 64 =
      mc.currentSize + e.dataSize.toNat := Nat.mod_eq_of_lt hword
  by_cases hroom : mc.maxSize < mc.currentSize + e.dataSize.toNat
  · have hdiff : intOfDiff64 (mc.currentSize + e.dataSize.toNat) mc.maxSize =
        (mc.currentSize : ℤ) + e.dataSize.toNat - mc.maxSize := by
      dsimp only [intOfDiff64]
      split <;> omega
    have henough : intOfDiff64 (mc.currentSize + e.dataSize.toNat) mc.maxSize ≤
        (mc.newEntry e).2.currentSize := by
      rw [hdiff]
      change _ ≤ (mc.currentSize : ℤ)
      omega
    obtain ⟨mc2, hrun, h2, hr2, hmono, hle⟩ :=
      makeRoom_inv ((mc.newEntry e).2.entryList.length + 1) h1 (Nat.lt_succ_self _) henough
    refine ⟨mc2, ?_, h2, hr2, hmono, ?_, _, Nat.lt_succ_self _, hdiff ▸ hrun⟩
    · rw [addEntry, hentry, Option.bind_some]
      change (if mc.maxSize < (mc.currentSize + e.dataSize.toNat) % 2 ^ 64 then
        (makeRoom _ _ (intOfDiff64 ((mc.currentSize + e.dataSize.toNat) % 2 ^ 64) mc.maxSize)).map _
        else _) = _
      rw [hneeded, if_pos hroom, hrun, Option.map_some]
      rfl
    · rw [hdiff] at hle
      change (mc2.currentSize : ℤ) + _ ≤ (mc.currentSize : ℤ) at hle
      omega
  · refine ⟨(mc.newEntry e).2, ?_, h1, Released.refl _, le_rfl, ?_, _, Nat.lt_succ_self _, ?_⟩
    · rw [addEntry, hentry, Option.bind_some]
      change (if mc.maxSize < (mc.currentSize + e.dataSize.toNat) % 2 ^ 64 then _ else _) = _
      rw [hneeded, if_neg hroom]
    · change mc.currentSize + e.dataSize.toNat ≤ mc.maxSize
      omega
    · rw [makeRoom, if_pos (by omega)]

theorem insertData_inv (h : CacheInv mc) {ct : ℕ} {id : UInt32} {ptr : ℕ}
    {size : UInt32} (params : CacheParams) (hid : (mc.entryMap ct).find id = none)
    (hfits : mc.Fits ct size) :
    ∃ mc', mc.insertData ct id ptr size params = some mc' ∧ CacheInv mc' ∧
      mc'.maxSize = mc.maxSize ∧ ∃ k mc2, mc.entryList.length < k ∧
        makeRoom k (mc.newEntry ⟨ct, id, size, ptr, params⟩).2
          ((mc.currentSize : ℤ) + size.toNat - mc.maxSize) = some (true, mc2) ∧
        mc'.entryList = mc2.entryList ++ [mc.nextEntry] ∧ mc'.entry = mc2.entry ∧
        mc2.entry mc.nextEntry = some ⟨ct, id, size, ptr, params⟩ := by
  obtain ⟨hmax, hword, hcount⟩ := hfits
  generalize he : (⟨ct, id, size, ptr, params⟩ : CacheEntry) = e
  have hsize : e.dataSize = size := by rw [← he]
  have hct : e.cacheType = ct := by rw [← he]
  have heid : e.id = id := by rw [← he]
  have hfresh : mc.nextEntry ∉ mc.entryList := fun ha => absurd (h.old _ ha) (lt_irrefl _)
  have hentry : (mc.newEntry e).2.entry mc.nextEntry = some e := update_self _ _ _
  obtain ⟨mc2, hrun, h2, hr2, hmono, hle, k, hk, hroom⟩ :=
    @addEntry_inv _ h e (by rw [hsize, hct]; exact ⟨hmax, hword, hcount⟩)
  have hentry2 : mc2.entry mc.nextEntry = some e := (hr2.others _ hfresh).trans hentry
  have hcounts2 := hr2.counts ct
  obtain ⟨r, m, hm, h'⟩ := appendEntry_inv h2 hentry2 (fun ha => hfresh (hr2.list _ ha))
    (by rw [hr2.nextEntry]; exact Nat.lt_succ_self _)
    (by rw [hct, heid]; exact hr2.absent ct id hid)
    (by rw [hct]; exact lt_of_le_of_lt (Nat.succ_le_succ hcounts2) hcount)
    (by rw [hr2.maxSize]; exact hle) (by rw [hsize]; omega)
  rw [hct, heid] at hm
  refine ⟨_, ?_, h', hr2.maxSize, k, mc2, hk, hsize ▸ hroom, rfl, rfl, hentry2⟩
  rw [insertData, he]
  change ((mc.newEntry e).2.addEntry mc.nextEntry).bind _ = _
  rw [hrun, Option.bind_some]
  change ((mc2.entryMap ct).setPair id (some mc.nextEntry)).map _ = _
  rw [hm, Option.map_some, hct]
  rfl

/-! ### The functions of a type -/

theorem usingEntry_inv (h : CacheInv mc) {a : ℕ} (ha : a ∈ mc.entryList)
    (ct p : ℕ) : CacheInv { mc.usingEntry a with log := mc.log ++ [.handOut ct p] } := by
  have hperm : (mc.entryList.erase a ++ [a]).Perm mc.entryList :=
    (List.perm_append_singleton a _).trans (List.perm_cons_erase ha).symm
  refine ⟨⟨?_, h.bounded, ?_, ?_⟩, ?_, ?_, ?_, h.counts, h.word⟩
  · exact h.size.trans (hperm.map mc.sizeAt).sum_eq.symm
  · intro ct' id b
    exact (h.maps ct' id b).trans (and_congr_left fun _ => hperm.mem_iff.symm)
  · intro ct' p'
    change (mc.log ++ [CacheCall.handOut ct p]).count (CacheCall.attach ct' p') =
      (mc.log ++ [CacheCall.handOut ct p]).count (CacheCall.free ct' p') +
        (mc.entryList.erase a ++ [a]).countP (mc.isFor ct' p')
    rw [hperm.countP_eq, List.count_append, List.count_append, h.references]
    simp
  · exact fun b hb => h.alive b (hperm.mem_iff.mp hb)
  · exact hperm.nodup_iff.mpr h.once
  · exact fun b hb => h.old b (hperm.mem_iff.mp hb)

theorem getEntry_inv (h : CacheInv mc) (accepts : CacheEntry → Bool) (ct : ℕ)
    (id : UInt32) : ∃ p mc', mc.getEntry accepts ct id = some (p, mc') ∧ CacheInv mc' ∧
      mc'.maxSize = mc.maxSize := by
  cases hfind : (mc.entryMap ct).find id with
  | none => exact ⟨none, mc, by rw [getEntry, hfind], h, rfl⟩
  | some a =>
      obtain ⟨ha, e, he, -, -⟩ := (h.maps ct id a).mp hfind
      have hget : mc.getEntry accepts ct id = some (if accepts e then
          (some e.dataPtr, { mc.usingEntry a with log := mc.log ++ [.handOut ct e.dataPtr] })
          else (none, mc)) := by
        rw [getEntry, hfind]
        dsimp only
        rw [he, Option.map_some]
      by_cases hacc : accepts e = true
      · exact ⟨_, _, by rw [hget, if_pos hacc], usingEntry_inv h ha ct e.dataPtr, rfl⟩
      · exact ⟨_, _, by rw [hget, if_neg hacc], h, rfl⟩

theorem purgeData_inv (h : CacheInv mc) (ct : ℕ) (id : UInt32) :
    ∃ mc', mc.purgeData ct id = some mc' ∧ CacheInv mc' ∧ mc'.maxSize = mc.maxSize ∧
      (mc'.entryMap ct).find id = none := by
  cases hfind : (mc.entryMap ct).find id with
  | none => exact ⟨mc, by rw [purgeData, hfind], h, rfl, hfind⟩
  | some a =>
      obtain ⟨ha, e, he, hct, hid⟩ := (h.maps ct id a).mp hfind
      obtain ⟨mc', hrel, h', hr, hlist, -⟩ := releaseEntry_inv h ha he
      refine ⟨mc', by rw [purgeData, hfind]; exact hrel, h', hr.maxSize, ?_⟩
      -- the entry that was in the map is not in the list any more
      cases hfind' : (mc'.entryMap ct).find id with
      | none => rfl
      | some b =>
          obtain ⟨hb, e', he', hct', hid'⟩ := (h'.maps ct id b).mp hfind'
          rw [hlist, h.once.mem_erase_iff] at hb
          have hb' : mc'.entry b = mc.entry b := by
            have hrel' := hrel
            rw [releaseEntry, he, Option.bind_some, Option.map_eq_some_iff] at hrel'
            obtain ⟨⟨r, m⟩, -, rfl⟩ := hrel'
            exact update_of_ne hb.1 _ _
          have := (h.maps ct id b).mpr ⟨hb.2, e', hb' ▸ he', hct', hid'⟩
          rw [hfind, Option.some.injEq] at this
          exact absurd this.symm hb.1

theorem setDataWithParams_inv (h : CacheInv mc) {ct : ℕ} {id : UInt32}
    {ptr : ℕ} {size : UInt32} (params : CacheParams)
    (hfits : ∀ mc' ∈ mc.purgeData ct id, mc'.Fits ct size) :
    ∃ mc', mc.setDataWithParams ct id ptr size params = some mc' ∧ CacheInv mc' ∧
      mc'.maxSize = mc.maxSize := by
  obtain ⟨mc1, hpurge, h1, hmax1, hid⟩ := purgeData_inv h ct id
  obtain ⟨mc', hrun, h', hmax, -⟩ :=
    @insertData_inv _ h1 _ _ ptr _ params hid (hfits mc1 hpurge)
  exact ⟨mc', by rw [setDataWithParams, hpurge, Option.bind_some, hrun], h', hmax.trans hmax1⟩

theorem releaseEntries_inv (ct : ℕ) : ∀ (as : List ℕ) {mc : MultiCache}, CacheInv mc →
    as.Nodup → (∀ a ∈ as, a ∈ mc.entryList) →
    ∃ mc', releaseEntries ct mc as = some mc' ∧ CacheInv mc' ∧ mc'.maxSize = mc.maxSize
  | [], mc, h, _, _ => ⟨mc, rfl, h, rfl⟩
  | a :: as, mc, h, hnd, hsub => by
      obtain ⟨hna, hnd'⟩ := List.nodup_cons.mp hnd
      have ha := hsub a List.mem_cons_self
      obtain ⟨e, he⟩ := h.alive a ha
      by_cases hct : e.cacheType = ct
      · obtain ⟨mc1, hrel, h1, hr, hlist, -⟩ := releaseEntry_inv h ha he
        obtain ⟨mc', hrun, h', hmax⟩ := releaseEntries_inv ct as h1 hnd' fun b hb => by
          rw [hlist, h.once.mem_erase_iff]
          exact ⟨fun hba => hna (hba ▸ hb), hsub b (List.mem_cons_of_mem a hb)⟩
        exact ⟨mc', by rw [releaseEntries, he, Option.bind_some, if_pos hct, hrel,
          Option.bind_some, hrun], h', hmax.trans hr.maxSize⟩
      · obtain ⟨mc', hrun, h'⟩ := releaseEntries_inv ct as h hnd' fun b hb =>
          hsub b (List.mem_cons_of_mem a hb)
        exact ⟨mc', by rw [releaseEntries, he, Option.bind_some, if_neg hct, hrun], h'⟩

/-! ### Runs -/

/-- What is added fits when the old entry for its id has been purged. -/
def FittingOp (mc : MultiCache) : Op → Prop
  | .setData ct id _ size => ∀ mc' ∈ mc.purgeData ct id, mc'.Fits ct size
  | .setDataWithParams ct id _ size _ => ∀ mc' ∈ mc.purgeData ct id, mc'.Fits ct size
  | _ => True

instance (mc : MultiCache) (o : Op) : Decidable (mc.FittingOp o) := by
  cases o <;> dsimp only [FittingOp] <;> infer_instance

theorem step_inv {o : Op} (h : CacheInv mc) (ho : mc.FittingOp o) :
    ∃ mc', mc.step o = some mc' ∧ CacheInv mc' ∧ mc'.maxSize = mc.maxSize := by
  cases o with
  | setData ct id ptr size => exact setDataWithParams_inv h _ ho
  | setDataWithParams ct id ptr size params => exact setDataWithParams_inv h params ho
  | getData ct id =>
      obtain ⟨p, mc', hrun, h'⟩ := getEntry_inv h (fun _ => true) ct id
      exact ⟨mc', by rw [step, getData, hrun]; rfl, h'⟩
  | getDataWithParams ct id params =>
      obtain ⟨p, mc', hrun, h'⟩ := getEntry_inv h (fun e => e.params = params) ct id
      exact ⟨mc', by rw [step, getDataWithParams, hrun]; rfl, h'⟩
  | purgeData ct id =>
      obtain ⟨mc', hrun, h', hmax, -⟩ := purgeData_inv h ct id
      exact ⟨mc', hrun, h', hmax⟩
  | purgeAll ct => exact releaseEntries_inv ct mc.entryList h h.once fun _ ha => ha

/-- In a run whose entries fit the cache the accounts are right at all times. -/
theorem accounts_of_fitting (maxSize : ℕ) (ops : List Op)
    (h : Along step FittingOp (new maxSize) ops) :
    ∀ pre, pre <+: ops → ∃ mc, exec step (new maxSize) pre = some mc ∧ mc.Accounts := by
  intro pre hpre
  have hstep : ∀ mc o, CacheInv mc → FittingOp mc o → ∃ mc', step mc o = some mc' ∧ CacheInv mc' :=
    fun mc o hs ho => (step_inv hs ho).imp fun _ ht => ⟨ht.1, ht.2.1⟩
  obtain ⟨mc, hrun, hinv⟩ := Along.exec_initial hstep (cacheInv_new maxSize) h pre hpre
  exact ⟨mc, hrun, hinv.toAccounts⟩

/-- Two types share a cache for ten bytes, and an entry is dropped for another one. -/
theorem accounts_of_fitting_ten : ∃ mc, exec step (new 10)
      [.setData 0 1 100 6, .setData 1 1 101 4, .getData 0 1, .setData 0 2 102 5, .purgeAll 0] =
        some mc ∧ mc.Accounts :=
  accounts_of_fitting 10 _ (by decide) _ List.prefix_rfl

/-- Data that are larger than the cache get an entry in the id map and none in the list. -/
theorem accounts_fails : ¬ ∀ (maxSize : ℕ) (ops : List Op), ∀ pre, pre <+: ops →
      ∃ mc, exec step (new maxSize) pre = some mc ∧ mc.Accounts := by
  intro h
  obtain ⟨mc, hrun, hacc⟩ := h 10 [.setData 0 1 100 11] _ List.prefix_rfl
  have hwrong : (exec step (new 10) [.setData 0 1 100 11]).map (fun mc =>
      ((mc.entryMap 0).find 1, mc.entryList)) = some (some 0, []) := by
    decide
  rw [hrun, Option.map_some, Option.some.injEq, Prod.mk.injEq] at hwrong
  obtain ⟨hfind, hlist⟩ := hwrong
  have hmem := ((hacc.maps 0 1 0).mp hfind).1
  rw [hlist] at hmem
  exact absurd hmem List.not_mem_nil

end MultiCache
end Gwenhywfar
