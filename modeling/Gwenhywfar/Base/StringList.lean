import Gwenhywfar.Base.CString
import Gwenhywfar.Lib.Run

/-! # `GWEN_STRINGLIST`

The entries are taken as a list in the order of their `next` pointers; every entry has a string.

* `appendString`, `insertString`, `removeString`: an entry has a counter of references, which
  wraps around at `2 ^ 32`.  Removing asserts that the counter is not 0.
* `refs`: the counter of the entry for a key, which is what two strings have in common when the
  list takes them for equal.
* `counts_and_copies`: the counters count what was added and removed, but a copy has neither the
  counters nor the modes. -/

namespace Gwenhywfar

/-- `GWEN_STRINGLISTENTRY`. -/
structure StringListEntry where
  data : CString
  refCount : UInt32
deriving DecidableEq

/-- `GWEN_STRINGLIST`. -/
structure StringList where
  entries : List StringListEntry
  count : UInt32
  senseCase : Bool
  ignoreRefCount : Bool
deriving DecidableEq

namespace StringList

/-- `GWEN_StringList_new`. -/
def new : StringList := ⟨[], 0, false, true⟩

/-- `GWEN_StringListEntry_new`. -/
def newEntry (s : CString) : StringListEntry := ⟨s, 1⟩

/-- The comparison with `strcmp` or `strcasecmp`. -/
def isSame (senseCase : Bool) (s t : CString) : Bool := if senseCase then s == t else strcaseEq s t

/-- `GWEN_StringList_AppendEntry`. -/
def appendEntry (sl : StringList) (se : StringListEntry) : StringList :=
  { sl with entries := sl.entries ++ [se], count := sl.count + 1 }

/-- The search for a double: the counter of the first entry with the string is incremented. -/
def attach (senseCase : Bool) (s : CString) :
    List StringListEntry → Option (List StringListEntry)
  | [] => none
  | se :: rest =>
      if isSame senseCase se.data s then some ({ se with refCount := se.refCount + 1 } :: rest)
      else (attach senseCase s rest).map (se :: ·)

/-- `GWEN_StringList_AppendString` with `checkDouble`. -/
def appendString (sl : StringList) (s : CString) : ℤ × StringList :=
  match attach sl.senseCase s sl.entries with
  | some entries => (0, { sl with entries := entries })
  | none => (1, sl.appendEntry (newEntry s))

/-- `GWEN_StringList_InsertString` with `checkDouble`. -/
def insertString (sl : StringList) (s : CString) : ℤ × StringList :=
  match attach sl.senseCase s sl.entries with
  | some entries => (0, { sl with entries := entries })
  | none => (1, { sl with entries := newEntry s :: sl.entries, count := sl.count + 1 })

/-- The loop of `GWEN_StringList_RemoveString`: the counter of the first entry with the string is
decremented, and the entry is unlinked when nothing refers to it any more.  The result is the
entries and whether one was unlinked, or that there is no such entry. -/
def detach (senseCase ignoreRefCount : Bool) (s : CString) :
    List StringListEntry → Option (Option (List StringListEntry × Bool))
  | [] => some none
  | se :: rest =>
      if isSame senseCase se.data s then
        -- assert(se->refCount)
        if se.refCount = 0 then none
        else if ignoreRefCount = true ∨ se.refCount - 1 = 0 then some (some (rest, true))
        else some (some ({ se with refCount := se.refCount - 1 } :: rest, false))
      else (detach senseCase ignoreRefCount s rest).map fun r => r.map fun p => (se :: p.1, p.2)

/-- `GWEN_StringList_RemoveString`. -/
def removeString (sl : StringList) (s : CString) : Option (ℤ × StringList) :=
  (detach sl.senseCase sl.ignoreRefCount s sl.entries).map fun r =>
    match r with
    | none => (0, sl)
    | some (entries, removed) =>
        (1, { sl with
          entries := entries
          count := if removed = true ∧ sl.count ≠ 0 then sl.count - 1 else sl.count })

/-- `GWEN_StringList_HasString`. -/
def hasString (sl : StringList) (s : CString) : Bool :=
  sl.entries.any fun se => isSame sl.senseCase se.data s

/-- `GWEN_StringList_GetStringPos`. -/
def getStringPos (sl : StringList) (s : CString) : ℤ :=
  match sl.entries.findIdx? fun se => isSame sl.senseCase se.data s with
  | some i => i
  | none => -1

/-- `GWEN_StringList_dup`. -/
def dup (sl : StringList) : StringList :=
  sl.entries.foldl (fun newsl se => newsl.appendEntry (newEntry se.data)) new

/-! ### Runs -/

/-- The operations. -/
inductive Op where
  | append (s : CString)
  | insert (s : CString)
  | remove (s : CString)
deriving DecidableEq

/-- One operation; it has no outcome when an assertion fails. -/
def step (sl : StringList) : Op → Option (ℤ × StringList)
  | .append s => some (sl.appendString s)
  | .insert s => some (sl.insertString s)
  | .remove s => sl.removeString s

/-- The operations one after the other, with what they return. -/
def run (sl : StringList) : List Op → Option (List (Op × ℤ) × StringList)
  | [] => some ([], sl)
  | o :: ops => (step sl o).bind fun r => (run r.2 ops).map fun t => ((o, r.1) :: t.1, t.2)

def start (senseCase : Bool) : StringList :=
  { new with senseCase := senseCase, ignoreRefCount := false }

def added (senseCase : Bool) (s : CString) (log : List (Op × ℤ)) : ℕ :=
  log.countP fun e => match e.1 with
    | .append t => isSame senseCase t s
    | .insert t => isSame senseCase t s
    | .remove _ => false

def removed (senseCase : Bool) (s : CString) (log : List (Op × ℤ)) : ℕ :=
  log.countP fun e => match e.1 with
    | .remove t => isSame senseCase t s && e.2 == 1
    | _ => false

/-- The list is what the operations have made of it: no two entries are equal, the list has the
strings that were added more often than removed, it counts its entries, and a string can be
removed when the list has it. -/
structure Counts (senseCase : Bool) (log : List (Op × ℤ)) (sl : StringList) : Prop where
  distinct : sl.entries.Pairwise fun e e' => isSame senseCase e.data e'.data = false
  has_iff : ∀ s, sl.hasString s = true ↔ removed senseCase s log < added senseCase s log
  count_eq : sl.count.toNat = sl.entries.length
  removes : ∀ s, ∃ rv t, sl.removeString s = some (rv, t) ∧ (rv = 1 ↔ sl.hasString s = true)

/-- Another list returns the same for all further operations, and has the same strings at the same
positions then. -/
def AnswersAlike (sl sl' : StringList) : Prop :=
  ∀ ops log t, run sl ops = some (log, t) → ∃ t', run sl' ops = some (log, t') ∧
    ∀ s, t'.hasString s = t.hasString s ∧ t'.getStringPos s = t.getStringPos s

/-! ### Entries and their counters -/

/-- What two strings have in common when they are taken for equal. -/
def key (senseCase : Bool) (s : CString) : List UInt8 :=
  if senseCase then s.bytes else s.bytes.map toLower

def refs (c : Bool) : List StringListEntry → List UInt8 → ℕ
  | [], _ => 0
  | se :: rest, k => if key c se.data = k then se.refCount.toNat else refs c rest k

/-- No two entries have the same key, and something refers to each. -/
structure Distinct (c : Bool) (es : List StringListEntry) : Prop where
  pairwise : es.Pairwise fun e e' => key c e.data ≠ key c e'.data
  pos : ∀ e ∈ es, e.refCount ≠ 0

section
variable {c : Bool} {s : CString} {es es' : List StringListEntry} {k : List UInt8}
  {se : StringListEntry} {removed : Bool}

theorem isSame_iff (c : Bool) (s t : CString) : isSame c s t = true ↔ key c s = key c t := by
  cases c with
  | true =>
      have hsame : isSame true s t = true ↔ s = t := beq_iff_eq
      rw [hsame]
      exact ⟨congrArg _, CString.ext⟩
  | false => exact strcaseEq_iff

theorem isSame_eq_false_iff (c : Bool) (s t : CString) :
    isSame c s t = false ↔ key c s ≠ key c t := by
  rw [← Bool.not_eq_true, isSame_iff]

theorem distinct_cons : Distinct c (se :: es) ↔
    (∀ e ∈ es, key c se.data ≠ key c e.data) ∧ se.refCount ≠ 0 ∧ Distinct c es := by
  constructor
  · rintro ⟨hpair, hpos⟩
    obtain ⟨hne, hpair⟩ := List.pairwise_cons.mp hpair
    obtain ⟨h0, hpos⟩ := List.forall_mem_cons.mp hpos
    exact ⟨hne, h0, hpair, hpos⟩
  · rintro ⟨hne, h0, hpair, hpos⟩
    exact ⟨List.pairwise_cons.mpr ⟨hne, hpair⟩, List.forall_mem_cons.mpr ⟨h0, hpos⟩⟩

theorem refs_eq_zero (h : ∀ e ∈ es, key c e.data ≠ k) : refs c es k = 0 := by
  induction es with
  | nil => rfl
  | cons se es ih =>
      rw [List.forall_mem_cons] at h
      rw [refs, if_neg h.1, ih h.2]

/-- A key is referred to when there is an entry with it. -/
theorem refs_pos_iff (h : ∀ e ∈ es, e.refCount ≠ 0) :
    0 < refs c es k ↔ ∃ e ∈ es, key c e.data = k := by
  induction es with
  | nil =>
      refine iff_of_false (Nat.lt_irrefl 0) ?_
      rintro ⟨e, he, -⟩
      cases he
  | cons se es ih =>
      rw [List.forall_mem_cons] at h
      have h0 : 0 < se.refCount.toNat := Nat.pos_of_ne_zero fun h0 =>
        h.1 (UInt32.toNat_inj.mp h0)
      rw [refs]
      split
      · next hk => exact iff_of_true h0 ⟨se, List.mem_cons_self, hk⟩
      · next hk =>
          rw [ih h.2]
          constructor
          · rintro ⟨e, he, hke⟩
            exact ⟨e, List.mem_cons_of_mem _ he, hke⟩
          · rintro ⟨e, he, hke⟩
            rcases List.mem_cons.mp he with rfl | he
            · exact absurd hke hk
            · exact ⟨e, he, hke⟩

theorem attach_some (h : attach c s es = some es') (hlt : ∀ k, refs c es k + 1 < 2 ^ 32)
    (hd : Distinct c es) : es'.map StringListEntry.data = es.map StringListEntry.data ∧
      Distinct c es' ∧
      ∀ k, refs c es' k = if k = key c s then refs c es k + 1 else refs c es k := by
  induction es generalizing es' with
  | nil => cases h
  | cons se es ih =>
      obtain ⟨hne, h0, hd⟩ := distinct_cons.mp hd
      rw [attach] at h
      by_cases hs : isSame c se.data s = true
      · rw [if_pos hs] at h
        obtain rfl := Option.some.inj h
        have hk := (isSame_iff c _ _).mp hs
        have hcount : (se.refCount + 1).toNat = se.refCount.toNat + 1 := by
          have hself := hlt (key c se.data)
          rw [refs, if_pos rfl] at hself
          rw [UInt32.toNat_add, UInt32.toNat_one, Nat.mod_eq_of_lt hself]
        refine ⟨rfl, distinct_cons.mpr ⟨hne, ?_, hd⟩, fun k => ?_⟩
        · intro hzero
          have hnat := congrArg UInt32.toNat hzero
          rw [hcount] at hnat
          exact absurd hnat (Nat.succ_ne_zero _)
        · rw [refs, refs, hk]
          dsimp only
          by_cases hkk : key c s = k
          · rw [if_pos hkk, if_pos hkk.symm, if_pos hkk, hcount]
          · rw [if_neg hkk, if_neg (Ne.symm hkk), if_neg hkk]
      · rw [if_neg hs, Option.map_eq_some_iff] at h
        obtain ⟨rest, hrest, rfl⟩ := h
        have hk : key c se.data ≠ key c s := fun h => hs ((isSame_iff c _ _).mpr h)
        have hlt' : ∀ k, refs c es k + 1 < 2 ^ 32 := by
          intro k
          by_cases hkk : key c se.data = k
          · rw [refs_eq_zero (k := k) fun e he h => hne e he (hkk.trans h.symm)]
            decide
          · have hself := hlt k
            rwa [refs, if_neg hkk] at hself
        obtain ⟨hdata, hd', hrefs⟩ := ih hrest hlt' hd
        refine ⟨by rw [List.map_cons, List.map_cons, hdata],
          distinct_cons.mpr ⟨fun e he => ?_, h0, hd'⟩, fun k => ?_⟩
        · have hmem : e.data ∈ es.map StringListEntry.data :=
            hdata ▸ List.mem_map_of_mem he
          obtain ⟨e', he', hee⟩ := List.mem_map.mp hmem
          rw [← hee]
          exact hne e' he'
        · rw [refs, refs, hrefs]
          by_cases hkk : key c se.data = k
          · rw [if_pos hkk, if_pos hkk, if_neg fun h => hk (hkk.trans h)]
          · rw [if_neg hkk, if_neg hkk]

theorem attach_none (h : attach c s es = none) : ∀ e ∈ es, key c e.data ≠ key c s := by
  induction es with
  | nil => exact fun e he => absurd he List.not_mem_nil
  | cons se es ih =>
      rw [attach] at h
      by_cases hs : isSame c se.data s = true
      · rw [if_pos hs] at h
        cases h
      · rw [if_neg hs, Option.map_eq_none_iff] at h
        exact List.forall_mem_cons.mpr ⟨fun hk => hs ((isSame_iff c _ _).mpr hk), ih h⟩

theorem detach_spec (c : Bool) (s : CString) (hd : Distinct c es) :
    (detach c false s es = some none ∧ refs c es (key c s) = 0) ∨
      ∃ es' removed, detach c false s es = some (some (es', removed)) ∧
        0 < refs c es (key c s) ∧ Distinct c es' ∧ (es'.map StringListEntry.data).Sublist
          (es.map StringListEntry.data) ∧
        es.length = es'.length + (if removed = true then 1 else 0) ∧
        ∀ k, refs c es' k = if k = key c s then refs c es k - 1 else refs c es k := by
  induction es with
  | nil => exact Or.inl ⟨rfl, rfl⟩
  | cons se es ih =>
      obtain ⟨hne, h0, hd⟩ := distinct_cons.mp hd
      have hpos : 0 < se.refCount.toNat := Nat.pos_of_ne_zero fun h => h0 (UInt32.toNat_inj.mp h)
      rw [detach]
      by_cases hs : isSame c se.data s = true
      · have hk := (isSame_iff c _ _).mp hs
        have hrefs : refs c (se :: es) (key c s) = se.refCount.toNat := by rw [refs, if_pos hk]
        have hcount : (se.refCount - 1).toNat = se.refCount.toNat - 1 := by
          have hle : (1 : UInt32) ≤ se.refCount := UInt32.le_iff_toNat_le.mpr hpos
          rw [UInt32.toNat_sub_of_le _ _ hle, UInt32.toNat_one]
        rw [if_pos hs, if_neg h0]
        right
        by_cases hlast : se.refCount - 1 = 0
        · rw [if_pos (Or.inr hlast)]
          have hone : se.refCount.toNat - 1 = 0 := by
            rw [← hcount, hlast]
            rfl
          refine ⟨es, true, rfl, by omega, hd, List.sublist_cons_self _ _, rfl, fun k => ?_⟩
          rw [refs, hk]
          by_cases hkk : key c s = k
          · rw [if_pos hkk.symm, if_pos hkk, hone, ← hkk, refs_eq_zero]
            exact fun e he h => hne e he (hk.trans h.symm)
          · rw [if_neg (Ne.symm hkk), if_neg hkk]
        · rw [if_neg (by simpa using hlast)]
          refine ⟨_, false, rfl, by omega, distinct_cons.mpr ⟨hne, hlast, hd⟩,
            List.Sublist.refl _, rfl, fun k => ?_⟩
          rw [refs, refs, hk]
          by_cases hkk : key c s = k
          · rw [if_pos hkk.symm, if_pos hkk, if_pos hkk]
            exact hcount
          · rw [if_neg (Ne.symm hkk), if_neg hkk, if_neg hkk]
      · have hk : key c se.data ≠ key c s := fun h => hs ((isSame_iff c _ _).mpr h)
        rw [if_neg hs, refs, if_neg hk]
        rcases ih hd with ⟨hnone, hzero⟩ | ⟨es', removed, hsome, hr, hd', hsub, hlen, hrefs⟩
        · exact Or.inl ⟨by rw [hnone]; rfl, hzero⟩
        · refine Or.inr ⟨se :: es', removed, by rw [hsome]; rfl, hr,
            distinct_cons.mpr ⟨fun e he => ?_, h0, hd'⟩, hsub.cons_cons _, ?_, fun k => ?_⟩
          · have hmem : e.data ∈ es.map StringListEntry.data :=
              hsub.subset (List.mem_map_of_mem he)
            obtain ⟨e', he', hee⟩ := List.mem_map.mp hmem
            rw [← hee]
            exact hne e' he'
          · rw [List.length_cons, List.length_cons, hlen]
            omega
          · rw [refs, refs, hrefs]
            by_cases hkk : key c se.data = k
            · rw [if_pos hkk, if_pos hkk, if_neg fun h => hk (hkk.trans h)]
            · rw [if_neg hkk, if_neg hkk]

theorem refs_append (hnew : ∀ e ∈ es, key c e.data ≠ key c s) (k : List UInt8) :
    refs c (es ++ [newEntry s]) k = if k = key c s then refs c es k + 1 else refs c es k := by
  induction es with
  | nil =>
      have hone : refs c [newEntry s] k = if key c s = k then 1 else 0 := rfl
      rw [List.nil_append, hone]
      by_cases hk : k = key c s
      · rw [if_pos hk, if_pos hk.symm]
        rfl
      · rw [if_neg hk, if_neg (Ne.symm hk)]
        rfl
  | cons se es ih =>
      rw [List.forall_mem_cons] at hnew
      rw [List.cons_append, refs, refs, ih hnew.2]
      by_cases hk : key c se.data = k
      · rw [if_pos hk, if_pos hk, if_neg fun h => hnew.1 (hk.trans h)]
      · rw [if_neg hk, if_neg hk]

theorem refs_cons (hnew : ∀ e ∈ es, key c e.data ≠ key c s) (k : List UInt8) :
    refs c (newEntry s :: es) k = if k = key c s then refs c es k + 1 else refs c es k := by
  have hone : refs c (newEntry s :: es) k = if key c s = k then 1 else refs c es k := rfl
  rw [hone]
  by_cases hk : k = key c s
  · rw [if_pos hk.symm, if_pos hk, refs_eq_zero fun e he => hk ▸ hnew e he]
  · rw [if_neg (Ne.symm hk), if_neg hk]

theorem distinct_append (hd : Distinct c es) (hnew : ∀ e ∈ es, key c e.data ≠ key c s) :
    Distinct c (es ++ [newEntry s]) := by
  refine ⟨List.pairwise_append.mpr ⟨hd.pairwise, List.pairwise_singleton _ _, ?_⟩, ?_⟩
  · intro e he e' he'
    rw [List.mem_singleton] at he'
    rw [he']
    exact hnew e he
  · intro e he
    rcases List.mem_append.mp he with he | he
    · exact hd.pos e he
    · rw [List.mem_singleton] at he
      rw [he]
      exact fun h => absurd (show (1 : UInt32) = 0 from h) (by decide)

theorem distinct_newEntry (hd : Distinct c es) (hnew : ∀ e ∈ es, key c e.data ≠ key c s) :
    Distinct c (newEntry s :: es) :=
  distinct_cons.mpr ⟨fun e he => (hnew e he).symm,
    fun h => absurd (show (1 : UInt32) = 0 from h) (by decide), hd⟩

end

/-! ### The invariant -/

/-- What holds after at most `n` operations on a new list. -/
structure Inv (c : Bool) (n : ℕ) (sl : StringList) : Prop where
  senseCase : sl.senseCase = c
  counts : sl.ignoreRefCount = false
  distinct : Distinct c sl.entries
  count_eq : sl.count.toNat = sl.entries.length
  length_le : sl.entries.length ≤ n
  refs_le : ∀ k, refs c sl.entries k ≤ n

section
variable {c : Bool} {n : ℕ} {sl : StringList}

theorem inv_start (c : Bool) : Inv c 0 (start c) :=
  ⟨rfl, rfl, ⟨List.Pairwise.nil, fun _ h => absurd h List.not_mem_nil⟩, rfl, Nat.le_refl 0,
    fun _ => Nat.le_refl 0⟩

theorem Inv.hasString_iff (hi : Inv c n sl) (s : CString) :
    sl.hasString s = true ↔ 0 < refs c sl.entries (key c s) := by
  rw [hasString, List.any_eq_true, hi.senseCase, refs_pos_iff hi.distinct.pos]
  simp only [isSame_iff]

theorem Inv.of_incr {t : StringList} {s : CString} (hi : Inv c n sl)
    (hc : t.senseCase = c) (hr : t.ignoreRefCount = false) (hd : Distinct c t.entries)
    (hcount : t.count.toNat = t.entries.length) (hlen : t.entries.length ≤ n + 1)
    (hrefs : ∀ k, refs c t.entries k =
      if k = key c s then refs c sl.entries k + 1 else refs c sl.entries k) :
    Inv c (n + 1) t := by
  refine ⟨hc, hr, hd, hcount, hlen, fun k => ?_⟩
  have hle := hi.refs_le k
  rw [hrefs]
  split <;> omega

/-- A double gets one more reference, or a new entry is added by `add`. -/
theorem Inv.add (hi : Inv c n sl) (add : StringList → CString → StringList) (s : CString)
    (hn : n + 1 < 2 ^ 32) (hmode : (add sl s).senseCase = c ∧ (add sl s).ignoreRefCount = false)
    (hcount : (add sl s).count = sl.count + 1)
    (hlen : (add sl s).entries.length = sl.entries.length + 1)
    (hadd : (∀ e ∈ sl.entries, key c e.data ≠ key c s) → Distinct c (add sl s).entries ∧
      ∀ k, refs c (add sl s).entries k =
        if k = key c s then refs c sl.entries k + 1 else refs c sl.entries k) :
    ∃ rv t, (match attach sl.senseCase s sl.entries with
        | some entries => ((0 : ℤ), { sl with entries := entries })
        | none => (1, add sl s)) = (rv, t) ∧ Inv c (n + 1) t ∧
      ∀ k, refs c t.entries k =
        if k = key c s then refs c sl.entries k + 1 else refs c sl.entries k := by
  rw [hi.senseCase]
  cases hat : attach c s sl.entries with
  | some es' =>
      have hlt : ∀ k, refs c sl.entries k + 1 < 2 ^ 32 := fun k =>
        Nat.lt_of_le_of_lt (Nat.succ_le_succ (hi.refs_le k)) hn
      obtain ⟨hdata, hd, hrefs⟩ := attach_some hat hlt hi.distinct
      have hlength : es'.length = sl.entries.length := by
        rw [← List.length_map, hdata, List.length_map]
      refine ⟨0, _, rfl, hi.of_incr rfl hi.counts hd ?_ ?_ hrefs, hrefs⟩
      · exact hi.count_eq.trans hlength.symm
      · exact hlength ▸ Nat.le_succ_of_le hi.length_le
  | none =>
      obtain ⟨hd, hrefs⟩ := hadd (attach_none hat)
      refine ⟨1, _, rfl, hi.of_incr hmode.1 hmode.2 hd ?_ ?_ hrefs, hrefs⟩
      · have hle := hi.length_le
        rw [hcount, hlen, UInt32.toNat_add, UInt32.toNat_one, hi.count_eq,
          Nat.mod_eq_of_lt (by omega)]
      · exact hlen ▸ Nat.succ_le_succ hi.length_le

/-- Removing fails without an entry, and otherwise takes one reference. -/
theorem Inv.remove (hi : Inv c n sl) (hn : n < 2 ^ 32) (s : CString) :
    ∃ rv t, sl.removeString s = some (rv, t) ∧ Inv c n t ∧
      (rv = 1 ↔ 0 < refs c sl.entries (key c s)) ∧ (rv ≠ 1 → t = sl) ∧
      (rv = 1 → ∀ k, refs c t.entries k =
        if k = key c s then refs c sl.entries k - 1 else refs c sl.entries k) := by
  have hlen := hi.length_le
  rw [removeString, hi.senseCase, hi.counts]
  rcases detach_spec c s hi.distinct with
    ⟨hnone, hzero⟩ | ⟨es', removed, hsome, hpos, hd, -, hlength, hrefs⟩
  · rw [hnone]
    refine ⟨0, sl, rfl, hi, ?_, fun _ => rfl, fun h => absurd h (by decide)⟩
    rw [hzero]
    exact iff_of_false (by decide) (Nat.lt_irrefl 0)
  · rw [hsome]
    refine ⟨1, _, rfl, ⟨rfl, rfl, hd, ?_, ?_, fun k => ?_⟩, iff_of_true rfl hpos,
      fun h => absurd rfl h, fun _ => hrefs⟩
    · dsimp only
      cases removed with
      | false => exact hi.count_eq.trans hlength
      | true =>
          have hcount : sl.count.toNat = es'.length + 1 := hi.count_eq.trans hlength
          have hne : sl.count ≠ 0 := fun h => by
            rw [h] at hcount
            exact absurd hcount.symm (Nat.succ_ne_zero _)
          have hle : (1 : UInt32) ≤ sl.count :=
            UInt32.le_iff_toNat_le.mpr (hcount ▸ Nat.succ_le_succ (Nat.zero_le _))
          rw [if_pos ⟨rfl, hne⟩, UInt32.toNat_sub_of_le _ _ hle, hcount]
          rfl
    · dsimp only
      omega
    · have hle := hi.refs_le k
      dsimp only
      rw [hrefs]
      split <;> omega

theorem added_cons (s : CString) (e : Op × ℤ) (log : List (Op × ℤ)) :
    added c s (e :: log) = added c s [e] + added c s log := by
  rw [added, added, added, List.countP_cons, List.countP_singleton, Nat.add_comm]

theorem removed_cons (s : CString) (e : Op × ℤ) (log : List (Op × ℤ)) :
    removed c s (e :: log) = removed c s [e] + removed c s log := by
  rw [removed, removed, removed, List.countP_cons, List.countP_singleton, Nat.add_comm]

theorem balance_add {s t : CString} {r : ℕ} :
    (if key c s = key c t then r + 1 else r) = r + (if isSame c t s = true then 1 else 0) := by
  by_cases h : key c s = key c t
  · rw [if_pos h, if_pos ((isSame_iff c _ _).mpr h.symm)]
  · rw [if_neg h, if_neg fun h' => h ((isSame_iff c _ _).mp h').symm, Nat.add_zero]

/-- What an operation returns balances what it does to the counters. -/
theorem Inv.step (hi : Inv c n sl) (hn : n + 1 < 2 ^ 32) (o : Op) :
    ∃ rv t, step sl o = some (rv, t) ∧ Inv c (n + 1) t ∧
      ∀ s, refs c t.entries (key c s) + removed c s [(o, rv)] =
        refs c sl.entries (key c s) + added c s [(o, rv)] := by
  cases o with
  | append x =>
      obtain ⟨rv, t, he, hi', hrefs⟩ := hi.add (fun sl s => sl.appendEntry (newEntry s)) x hn
        ⟨hi.senseCase, hi.counts⟩ rfl List.length_append
        fun hnew => ⟨distinct_append hi.distinct hnew, refs_append hnew⟩
      refine ⟨rv, t, congrArg some he, hi', fun s => ?_⟩
      rw [hrefs, balance_add]
      simp [added, removed, List.countP_cons]
  | insert x =>
      obtain ⟨rv, t, he, hi', hrefs⟩ := hi.add
        (fun sl s => { sl with entries := newEntry s :: sl.entries, count := sl.count + 1 }) x hn
        ⟨hi.senseCase, hi.counts⟩ rfl rfl
        fun hnew => ⟨distinct_newEntry hi.distinct hnew, refs_cons hnew⟩
      refine ⟨rv, t, congrArg some he, hi', fun s => ?_⟩
      rw [hrefs, balance_add]
      simp [added, removed, List.countP_cons]
  | remove x =>
      obtain ⟨rv, t, he, hi', hiff, hsame, hrefs⟩ := hi.remove (Nat.lt_of_succ_lt hn) x
      refine ⟨rv, t, he, ⟨hi'.senseCase, hi'.counts, hi'.distinct, hi'.count_eq,
        Nat.le_succ_of_le hi'.length_le, fun k => Nat.le_succ_of_le (hi'.refs_le k)⟩, fun s => ?_⟩
      by_cases hrv : rv = 1
      · subst hrv
        have hpos := hiff.mp rfl
        have hadded : added c s [(Op.remove x, (1 : ℤ))] = 0 := rfl
        have hremoved : removed c s [(Op.remove x, (1 : ℤ))] =
            if isSame c x s = true then 1 else 0 := by
          simp [removed, List.countP_cons]
        rw [hrefs rfl, hadded, hremoved]
        by_cases hk : key c s = key c x
        · rw [if_pos hk, if_pos ((isSame_iff c _ _).mpr hk.symm), hk]
          omega
        · rw [if_neg hk, if_neg fun h => hk ((isSame_iff c _ _).mp h).symm]
      · have hadded : added c s [(Op.remove x, rv)] = 0 := rfl
        have hremoved : removed c s [(Op.remove x, rv)] = 0 := by
          simp [removed, hrv]
        rw [hsame hrv, hadded, hremoved]

/-- Fewer than `2 ^ 32` operations. -/
theorem Inv.run (ops : List Op) (hi : Inv c n sl) (hn : n + ops.length < 2 ^ 32) :
    ∃ log t, run sl ops = some (log, t) ∧ Inv c (n + ops.length) t ∧
      ∀ s, refs c t.entries (key c s) + removed c s log =
        refs c sl.entries (key c s) + added c s log := by
  induction ops generalizing n sl with
  | nil => exact ⟨[], sl, rfl, hi, fun _ => rfl⟩
  | cons o ops ih =>
      rw [List.length_cons] at hn
      obtain ⟨rv, t, hstep, hi', hbalance⟩ := hi.step (by omega) o
      obtain ⟨log, u, hrun, hi'', hbalance'⟩ := ih hi' (by omega)
      refine ⟨(o, rv) :: log, u, ?_, ?_, fun s => ?_⟩
      · rw [StringList.run, hstep, Option.bind_some, hrun]
        rfl
      · rw [List.length_cons, ← Nat.add_assoc, Nat.add_right_comm]
        exact hi''
      · have h := hbalance s
        have h' := hbalance' s
        rw [removed_cons, added_cons]
        omega

theorem Inv.counts_of_balance {log : List (Op × ℤ)} (hi : Inv c n sl) (hn : n < 2 ^ 32)
    (hbalance : ∀ s, refs c sl.entries (key c s) + removed c s log = added c s log) :
    Counts c log sl := by
  refine ⟨hi.distinct.pairwise.imp fun h => (isSame_eq_false_iff c _ _).mpr h, fun s => ?_,
    hi.count_eq, fun s => ?_⟩
  · have h := hbalance s
    rw [hi.hasString_iff]
    omega
  · obtain ⟨rv, t, he, -, hiff, -⟩ := hi.remove hn s
    exact ⟨rv, t, he, hiff.trans (hi.hasString_iff s).symm⟩

end

/-! ### Copies -/

theorem exists_fresh (es : List StringListEntry) :
    ∃ x : CString, ∀ c, ∀ e ∈ es, isSame c e.data x = false := by
  obtain ⟨m, hm⟩ : ∃ m, ∀ e ∈ es, e.data.bytes.length < m := by
    refine ⟨(es.map fun e => e.data.bytes.length).max?.getD 0 + 1, fun e he => ?_⟩
    exact Nat.lt_succ_of_le (List.le_max?_getD_of_mem
      (List.mem_map_of_mem (f := fun e => e.data.bytes.length) he))
  refine ⟨⟨List.replicate m 97, fun h => ?_⟩, fun c e he => ?_⟩
  · exact absurd (List.eq_of_mem_replicate h) (by decide)
  · rw [isSame_eq_false_iff]
    intro hk
    have hlen := congrArg List.length hk
    have hkey : ∀ t : CString, (key c t).length = t.bytes.length := by
      intro t
      cases c with
      | true => rfl
      | false => exact List.length_map _
    rw [hkey, hkey, List.length_replicate] at hlen
    exact absurd hlen (Nat.ne_of_lt (hm e he))

theorem dup_eq (sl : StringList) : (dup sl).entries = sl.entries.map (fun e => newEntry e.data) ∧
    (dup sl).senseCase = false ∧ (dup sl).ignoreRefCount = true := by
  have h : ∀ (es : List StringListEntry) (t : StringList),
      let u := es.foldl (fun newsl se => newsl.appendEntry (newEntry se.data)) t
      u.entries = t.entries ++ es.map (fun e => newEntry e.data) ∧
        u.senseCase = t.senseCase ∧ u.ignoreRefCount = t.ignoreRefCount := by
    intro es
    induction es with
    | nil => exact fun t => ⟨(List.append_nil _).symm, rfl, rfl⟩
    | cons se es ih =>
        intro t
        obtain ⟨he, hc, hr⟩ := ih (t.appendEntry (newEntry se.data))
        refine ⟨?_, hc, hr⟩
        rw [List.map_cons, List.append_cons]
        exact he
  exact h sl.entries new

section
variable {c i : Bool} {s : CString} {es : List StringListEntry}

theorem attach_append (h : ∀ e ∈ es, isSame c e.data s = false) (es' : List StringListEntry) :
    attach c s (es ++ es') = (attach c s es').map (es ++ ·) := by
  induction es with
  | nil => exact Option.map_id'.symm
  | cons se es ih =>
      rw [List.forall_mem_cons] at h
      rw [List.cons_append, attach, h.1, ih h.2]
      exact Option.map_map _ _ _

theorem detach_append (h : ∀ e ∈ es, isSame c e.data s = false) (es' : List StringListEntry) :
    detach c i s (es ++ es') = (detach c i s es').map fun r => r.map fun p => (es ++ p.1, p.2) := by
  induction es with
  | nil =>
      rw [List.nil_append]
      rcases detach c i s es' with _ | _ | ⟨es', removed⟩ <;> rfl
  | cons se es ih =>
      rw [List.forall_mem_cons] at h
      rw [List.cons_append, detach, h.1, ih h.2]
      rcases detach c i s es' with _ | _ | ⟨es', removed⟩ <;> rfl

end

/-- A string the list does not have, added twice and removed once, is still there if and only if
the references are counted. -/
theorem run_fresh {sl : StringList} {x : CString}
    (hx : ∀ e ∈ sl.entries, isSame sl.senseCase e.data x = false) :
    ∃ t, run sl [.append x, .append x, .remove x] =
        some ([(.append x, 1), (.append x, 0), (.remove x, 1)], t) ∧
      t.hasString x = !sl.ignoreRefCount := by
  obtain ⟨entries, count, c, i⟩ := sl
  have hself : isSame c x x = true := (isSame_iff _ _ _).mpr rfl
  have hfirst : appendString ⟨entries, count, c, i⟩ x =
      (1, ⟨entries ++ [newEntry x], count + 1, c, i⟩) := by
    have hnone := attach_append hx []
    rw [List.append_nil] at hnone
    rw [appendString, hnone]
    rfl
  have hsecond : appendString ⟨entries ++ [newEntry x], count + 1, c, i⟩ x =
      (0, ⟨entries ++ [⟨x, 2⟩], count + 1, c, i⟩) := by
    rw [appendString, attach_append hx, attach, newEntry, if_pos hself]
    rfl
  have hloop : detach c i x [⟨x, 2⟩] =
      some (some (if i = true then ([], true) else ([⟨x, 1⟩], false))) := by
    rw [detach, if_pos hself, if_neg fun h => absurd (show (2 : UInt32) = 0 from h) (by decide)]
    cases i with
    | true => rfl
    | false =>
        have hone : (2 : UInt32) - 1 = 1 := by decide
        dsimp only
        rw [hone, if_neg (by decide), if_neg Bool.false_ne_true]
  rw [run, step, hfirst, Option.bind_some, run, step, hsecond, Option.bind_some, run, step,
    removeString, detach_append hx, hloop]
  cases i with
  | true =>
      refine ⟨_, rfl, List.any_eq_false.mpr fun e he => ?_⟩
      have hmem : e ∈ entries := by
        rw [← List.append_nil entries]
        exact he
      exact fun h => Bool.false_ne_true ((hx e hmem).symm.trans h)
  | false =>
      refine ⟨_, rfl, List.any_eq_true.mpr ⟨⟨x, 1⟩, ?_, hself⟩⟩
      exact List.mem_append_right _ (List.mem_singleton.mpr rfl)

theorem not_answersAlike_dup {sl : StringList} (h : sl.ignoreRefCount = false) :
    ¬AnswersAlike sl (dup sl) := by
  intro hsame
  obtain ⟨x, hx⟩ := exists_fresh sl.entries
  obtain ⟨hdata, -, hignore⟩ := dup_eq sl
  obtain ⟨t, hrun, hhas⟩ := run_fresh (hx sl.senseCase)
  have hfresh : ∀ e ∈ (dup sl).entries, isSame (dup sl).senseCase e.data x = false := by
    intro e he
    rw [hdata, List.mem_map] at he
    obtain ⟨e, he, rfl⟩ := he
    exact hx _ e he
  obtain ⟨u, hrun', hhas'⟩ := run_fresh hfresh
  obtain ⟨t', ht', hanswers⟩ := hsame _ _ _ hrun
  rw [hrun'] at ht'
  obtain ⟨-, rfl⟩ := Prod.mk.inj (Option.some.inj ht')
  have hboth := (hanswers x).1
  rw [hhas, hhas', h, hignore] at hboth
  cases hboth

theorem run_ignoreRefCount {ops : List Op} {sl t : StringList} {log : List (Op × ℤ)}
    (h : run sl ops = some (log, t)) : t.ignoreRefCount = sl.ignoreRefCount := by
  induction ops generalizing sl log with
  | nil =>
      obtain ⟨-, rfl⟩ := Prod.mk.inj (Option.some.inj h)
      rfl
  | cons o ops ih =>
      rw [run, Option.bind_eq_some_iff] at h
      obtain ⟨⟨rv, u⟩, hstep, h⟩ := h
      rw [Option.map_eq_some_iff] at h
      obtain ⟨⟨log', v⟩, hrun, hv⟩ := h
      obtain ⟨-, rfl⟩ := Prod.mk.inj hv
      rw [ih hrun]
      cases o with
      | append x =>
          rw [step, appendString] at hstep
          split at hstep <;> obtain ⟨-, rfl⟩ := Prod.mk.inj (Option.some.inj hstep) <;> rfl
      | insert x =>
          rw [step, insertString] at hstep
          split at hstep <;> obtain ⟨-, rfl⟩ := Prod.mk.inj (Option.some.inj hstep) <;> rfl
      | remove x =>
          rw [step, removeString, Option.map_eq_some_iff] at hstep
          obtain ⟨r, -, hr⟩ := hstep
          split at hr <;> obtain ⟨-, rfl⟩ := Prod.mk.inj hr <;> rfl

/-- The counters of a list without doubles count what is added and removed, as long as they do not
wrap around; but no list that counts its references has a copy that answers like it. -/
theorem counts_and_copies (senseCase : Bool) (ops : List Op) :
    (∀ log sl, run (start senseCase) ops = some (log, sl) → ¬AnswersAlike sl (dup sl)) ∧
    (ops.length < 2 ^ 32 →
      ∃ log sl, run (start senseCase) ops = some (log, sl) ∧ Counts senseCase log sl) := by
  refine ⟨fun log sl hrun => not_answersAlike_dup (run_ignoreRefCount hrun), fun hlen => ?_⟩
  obtain ⟨log, sl, hrun, hi, hbalance⟩ :=
    (inv_start senseCase).run ops ((Nat.zero_add _).symm ▸ hlen)
  rw [Nat.zero_add] at hi
  refine ⟨log, sl, hrun, hi.counts_of_balance hlen fun s => ?_⟩
  rw [hbalance s]
  exact Nat.zero_add _

/-- "a" is added twice and removed once, and "b" is added. -/
theorem counts_and_copies_nil :
    (∀ log sl, run (start true) [.append ⟨[97], by decide⟩, .append ⟨[97], by decide⟩,
      .remove ⟨[97], by decide⟩, .append ⟨[98], by decide⟩] = some (log, sl) →
        ¬AnswersAlike sl (dup sl)) ∧
    ∃ log sl, run (start true) [.append ⟨[97], by decide⟩, .append ⟨[97], by decide⟩,
      .remove ⟨[97], by decide⟩, .append ⟨[98], by decide⟩] = some (log, sl) ∧ Counts true log sl :=
  ⟨(counts_and_copies true _).1, (counts_and_copies true _).2 (by decide)⟩

/-- "a", "a" added to a copy and removed once is gone. -/
theorem not_answersAlike_dup_start : ¬∀ sl : StringList, sl.ignoreRefCount = false →
    AnswersAlike sl (dup sl) := by
  intro h
  let a : CString := ⟨[97], by decide⟩
  have hrun : run (start true) [.append a, .append a, .remove a] =
      some ([(.append a, 1), (.append a, 0), (.remove a, 1)], ⟨[⟨a, 1⟩], 1, true, false⟩) := by
    decide
  have hrun' : run (dup (start true)) [.append a, .append a, .remove a] =
      some ([(.append a, 1), (.append a, 0), (.remove a, 1)], ⟨[], 0, false, true⟩) := by
    decide
  obtain ⟨t', ht', hsame⟩ := h (start true) rfl _ _ _ hrun
  rw [hrun'] at ht'
  obtain ⟨-, rfl⟩ := Prod.mk.inj (Option.some.inj ht')
  exact absurd (hsame a).1 (by decide)

end StringList
end Gwenhywfar
