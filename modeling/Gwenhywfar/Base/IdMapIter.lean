import Gwenhywfar.Base.IdMapRefine

/-! # Iteration over a `GWEN_IDMAP`

`GWEN_IdMap_GetFirst` descends to the first pointer table in use and `GWEN_IdMap_GetNext` climbs
from the pointer table of an id through the `parent` pointers to the next one.

* A table pointer is a table together with the tables above it (`Parents`); `IsAt root t ps pre`
  says that it is the table which the nibbles of `pre` lead to.  `isSome_get_iff` turns the
  entries of such a table into a statement about the stored ids, and the search for the next id
  into arithmetic.
* Ids are shifted natural numbers below: at a table of level `n` the id is below `16 ^ (8 - n)`
  (`IsAt.lt`), so that no shift loses a digit.
* A table that holds no id would make the descent rescan its parent for ever, hence the fuel;
  `getNextTable_spec` shows that in a pruned map it is not used up. -/

namespace Gwenhywfar.IdMap

variable {α : Type}

/-- The tables above a table at level `n`, innermost first. -/
inductive Parents (α : Type) : ℕ → Type
  | root : Parents α 7
  | up {n : ℕ} (t : Table α (n + 1)) (ps : Parents α (n + 1)) : Parents α n

/-- A table pointer: a table that knows its parents. -/
structure TablePtr (α : Type) where
  level : ℕ
  table : Table α level
  parents : Parents α level

/-- `GWEN_IdMapHex4__GetTable`, with the parents of the table found. -/
def openTable : (n : ℕ) → Table α n → Parents α n → ℕ → Option (Table α 0 × Parents α 0)
  | 0, t, ps, _ => some (t, ps)
  | n + 1, t, ps, id => match t.get (nibble id (n + 1)) with
      | none => none
      | some s => openTable n s (.up t ps) id

/-- `GWEN_IdMapHex4__GetFirstTable`: the id it stores in `*pid`.  The id passed in is not read,
its assignment is commented out in favour of `id=0`. -/
def getFirstTable : (n : ℕ) → Table α n → (pid : ℕ) → Option ℕ
  | 0, t, _ => (List.finRange 16).findSome? fun i =>
      (t.get i).map fun _ => (0 <<< 4) ||| (i : ℕ)
  | n + 1, t, _ => (List.finRange 16).findSome? fun i =>
      (t.get i).bind fun s => getFirstTable n s ((0 <<< 4) ||| (i : ℕ))

/-- The inner loop of `GWEN_IdMapHex4__GetNextTable`, which leaves the tables whose last entry
has been visited; `none` when it leaves the root. -/
def skipFull : {n : ℕ} → Table α n → Parents α n → ℕ → Option (TablePtr α × ℕ)
  | _, t, .root, id => if id &&& 0xf = 0xf then none else some (⟨7, t, .root⟩, id)
  | _, t, .up t' ps, id =>
      if id &&& 0xf = 0xf then skipFull t' ps (id >>> 4) else some (⟨_, t, .up t' ps⟩, id)

/-- The body of the scan in `GWEN_IdMapHex4__GetNextTable` at entry `i`; `getNext` is the call
for the table below. -/
def visitEntry (getNext : {n : ℕ} → Table α n → Parents α n → ℕ → Option (Option ℕ)) :
    {n : ℕ} → Table α n → Parents α n → ℕ → Fin 16 → Option (Option ℕ)
  | 0, t, _, id, i => some ((t.get i).map fun _ => (id &&& 0xfffffff0) ||| (i : ℕ))
  | _ + 1, t, ps, id, i => match t.get i with
      | none => some none
      | some s => getNext s (.up t ps) (((id &&& 0xfffffff0) ||| (i : ℕ)) <<< 4)

/-- The nibbles from that of `id` upwards. -/
def nibblesFrom (id : ℕ) : List (Fin 16) := (List.finRange 16).filter fun i => id &&& 0xf ≤ i

/-- `GWEN_IdMapHex4__GetNextTable`: the id it stores in `*pid`, or `some none` when it returns
0; `none` when the fuel is used up. -/
def getNextTable : (fuel : ℕ) → {n : ℕ} → Table α n → Parents α n → ℕ → Bool →
    Option (Option ℕ)
  | 0, _, _, _, _, _ => none
  | fuel + 1, n, t, ps, id, incr =>
      match (if incr then (skipFull t ps id).map fun p => (p.1, p.2 + 1)
        else some (⟨n, t, ps⟩, id)) with
      | none => some none
      | some (p, id) =>
          match (nibblesFrom id).findSomeM?
            (visitEntry (fun s ps id => getNextTable fuel s ps id false)
              p.table p.parents id) with
          | none => none
          | some (some r) => some (some r)
          | some none => match p with
              | ⟨_, _, .root⟩ => some none
              | ⟨_, _, .up t' ps'⟩ => getNextTable fuel t' ps' (id >>> 4) incr

/-- `GWEN_IdMapHex4_FindFirst`; `none` is `GWEN_IdMapResult_NotFound`. -/
def findFirst (m : IdMap α) : Option UInt32 := (getFirstTable 7 m.table 0).map UInt32.ofNat

/-- `GWEN_IdMapHex4_FindNext`; `some none` is `GWEN_IdMapResult_NotFound`, `none` a failed
assertion (or fuel that is used up). -/
def findNext (fuel : ℕ) (m : IdMap α) (id : UInt32) : Option (Option UInt32) :=
  match openTable 7 m.table .root id.toNat with
  -- assert(t)
  | none => none
  | some (t, ps) => (getNextTable fuel t ps id.toNat true).map fun r => r.map UInt32.ofNat

/-- The ids that repeated calls of `GWEN_IdMap_GetNext` yield after `id`. -/
def iterateFrom (fuel : ℕ) (m : IdMap α) : ℕ → UInt32 → Option (List UInt32)
  | 0, _ => none
  | k + 1, id => match findNext fuel m id with
      | none => none
      | some none => some []
      | some (some id') => (iterateFrom fuel m k id').map fun l => id' :: l

/-- The ids that `GWEN_IdMap_GetFirst` and then `GWEN_IdMap_GetNext` yield. -/
def iterate (fuel : ℕ) (m : IdMap α) : Option (List UInt32) := match findFirst m with
  | none => some []
  | some id => (iterateFrom fuel m fuel id).map fun l => id :: l

/-- The iteration ends without a failed assertion and has yielded the stored ids, each once and
in ascending order. -/
def IteratesAll (m : IdMap α) : Prop :=
  ∃ fuel l, iterate fuel m = some l ∧ l.Pairwise (· < ·) ∧ ∀ id, id ∈ l ↔ m.find id ≠ none

/-! ### Table pointers and stored ids -/

/-- `t` with the parents `ps` is the table of `root` that the nibbles of `pre` lead to. -/
def IsAt (root : Table α 7) : {n : ℕ} → Table α n → Parents α n → ℕ → Prop
  | _, t, .root, pre => t = root ∧ pre = 0
  | _, t, .up t' ps, pre => t'.get (nibble pre 0) = some t ∧ IsAt root t' ps (pre / 16)

def Stored (root : Table α 7) : Set ℕ :=
  {s | s < 16 ^ 8 ∧ (Trie.find 8 root (nibble s)).isSome}

/-- The stored ids of which the part down to level `n` is at least `q`. -/
def StoredFrom (root : Table α 7) (n q : ℕ) : Set ℕ := {s | s ∈ Stored root ∧ q ≤ s / 16 ^ n}

theorem isAt_root (root : Table α 7) : IsAt root root .root 0 := ⟨rfl, rfl⟩

theorem div_pow_succ (s n : ℕ) : s / 16 ^ (n + 1) = s / 16 ^ n / 16 := by
  rw [pow_succ, Nat.div_div_eq_div_mul]

section tables
variable {root : Table α 7}

theorem IsAt.find_eq : ∀ {n : ℕ} {t : Table α n} {ps : Parents α n} {pre s : ℕ},
    IsAt root t ps pre → s / 16 ^ (n + 1) = pre →
    s < 16 ^ 8 ∧ Trie.find 8 root (nibble s) = Trie.find (n + 1) t (nibble s)
  | _, t, .root, pre, s, h, hs => by
      obtain ⟨rfl, rfl⟩ := h
      exact ⟨Nat.lt_of_div_eq_zero (by norm_num) hs, rfl⟩
  | n, t, .up t' ps, pre, s, h, hs => by
      obtain ⟨ht, h⟩ := h
      obtain ⟨hlt, hfind⟩ := h.find_eq (s := s) (by rw [div_pow_succ, hs])
      have hn : nibble s (n + 1) = nibble pre 0 := by
        apply Fin.ext
        rw [nibble_val, nibble_val, hs, pow_zero, Nat.div_one]
      exact ⟨hlt, hfind.trans (Trie.find_some (hn ▸ ht))⟩

theorem IsAt.lt {n : ℕ} {t : Table α n} {ps : Parents α n} {pre s : ℕ} (h : IsAt root t ps pre)
    (hs : s / 16 ^ (n + 1) = pre) : s < 16 ^ 8 := (h.find_eq hs).1

theorem IsAt.pruned : ∀ {n : ℕ} {t : Table α n} {ps : Parents α n} {pre : ℕ},
    Trie.Pruned 8 root → IsAt root t ps pre → Trie.Pruned (n + 1) t
  | _, _, .root, _, hp, h => h.1 ▸ hp
  | _, _, .up _ _, _, hp, h => (h.2.pruned hp _ _ h.1).2

theorem exists_digits (k : ℕ → Fin 16) : ∀ n pre : ℕ,
    ∃ s, s / 16 ^ n = pre ∧ Trie.Agree n (nibble s) k
  | 0, pre => ⟨pre, by simp, fun _ hi => absurd hi (Nat.not_lt_zero _)⟩
  | n + 1, pre => by
      obtain ⟨s, hs, hk⟩ := exists_digits k n (pre * 16 + k n)
      have hlt := (k n).isLt
      refine ⟨s, by rw [div_pow_succ, hs]; omega, Trie.agree_succ.mpr ⟨?_, hk⟩⟩
      apply Fin.ext
      rw [nibble_val, hs]
      omega

/-- An entry of a table is in use exactly when an id that leads through it is stored. -/
theorem isSome_get_iff (hp : Trie.Pruned 8 root) {n : ℕ} {t : Table α n} {ps : Parents α n}
    {pre : ℕ} (h : IsAt root t ps pre) (i : Fin 16) :
    (t.get i).isSome ↔ ∃ s ∈ Stored root, s / 16 ^ n = pre * 16 + i := by
  constructor
  · intro hi
    obtain ⟨u, hu⟩ := Option.isSome_iff_exists.mp hi
    obtain ⟨ho, hpu⟩ := h.pruned hp i u hu
    obtain ⟨k, hk⟩ := hpu.exists_find ho
    obtain ⟨s, hs, hag⟩ := exists_digits k n (pre * 16 + i)
    have hs' : s / 16 ^ (n + 1) = pre := by rw [div_pow_succ, hs]; omega
    obtain ⟨hlt, hfind⟩ := h.find_eq hs'
    have hn : nibble s n = i := by
      apply Fin.ext
      rw [nibble_val, hs]
      omega
    refine ⟨s, ⟨hlt, ?_⟩, hs⟩
    rw [hfind, Trie.find_some (hn.symm ▸ hu), Trie.find_congr u hag]
    exact hk
  · rintro ⟨s, ⟨-, hs⟩, hd⟩
    have hs' : s / 16 ^ (n + 1) = pre := by rw [div_pow_succ, hd]; omega
    have hn : nibble s n = i := by
      apply Fin.ext
      rw [nibble_val, hd]
      omega
    rw [(h.find_eq hs').2] at hs
    cases hu : t.get i with
    | none => rw [Trie.find_none (hn ▸ hu)] at hs; cases hs
    | some u => rfl

/-! ### The scan of one table -/

theorem and_0xf (id : ℕ) : id &&& 0xf = id % 16 := by
  rw [show (0xf : ℕ) = 2 ^ 4 - 1 from rfl, Nat.and_two_pow_sub_one_eq_mod]

theorem mask_or {id : ℕ} (h : id < 2 ^ 32) (i : Fin 16) :
    (id &&& 0xfffffff0) ||| (i : ℕ) = id / 16 * 16 + i := by
  have hm : id &&& 0xfffffff0 = 2 ^ 4 * (id / 16) := by
    apply Nat.eq_of_testBit_eq
    intro j
    rw [show (0xfffffff0 : ℕ) = 2 ^ 4 * (2 ^ 28 - 1) from rfl, Nat.testBit_and,
      Nat.testBit_two_pow_mul, Nat.testBit_two_pow_mul, Nat.testBit_two_pow_sub_one,
      show (16 : ℕ) = 2 ^ 4 from rfl, Nat.testBit_div_two_pow]
    by_cases hj : 4 ≤ j
    · by_cases hj' : j - 4 < 28
      · simp [hj, hj', Nat.sub_add_cancel hj]
      · have hz : id.testBit j = false := Nat.testBit_lt_two_pow
          (h.trans_le (Nat.pow_le_pow_right (by norm_num) (by omega)))
        simp [hz, hj, hj', Nat.sub_add_cancel hj]
    · simp [hj]
  rw [hm, ← Nat.two_pow_add_eq_or_of_lt i.isLt, Nat.mul_comm]

theorem mem_nibblesFrom {id : ℕ} {i : Fin 16} : i ∈ nibblesFrom id ↔ id % 16 ≤ i := by
  simp [nibblesFrom, and_0xf]

theorem pairwise_nibblesFrom (id : ℕ) : (nibblesFrom id).Pairwise (· < ·) :=
  (List.pairwise_lt_finRange 16).filter _

/-- A search through ascending nibbles ends at the first one that is in use. -/
theorem findSomeM?_spec {β : Type} {f : Fin 16 → Option (Option β)} (used : Fin 16 → Prop)
    (hf : ∀ i, ¬ used i → f i = some none) : ∀ {l : List (Fin 16)}, l.Pairwise (· < ·) →
    (∀ i ∈ l, used i → ∃ r, f i = some (some r)) →
    (∀ i ∈ l, ¬ used i) ∧ l.findSomeM? f = some none ∨
      ∃ i ∈ l, used i ∧ (∀ j ∈ l, used j → i ≤ j) ∧ l.findSomeM? f = f i
  | [], _, _ => Or.inl ⟨fun _ h => absurd h List.not_mem_nil, rfl⟩
  | i :: l, hl, hu => by
      obtain ⟨hi, hl⟩ := List.pairwise_cons.mp hl
      by_cases h : used i
      · obtain ⟨r, hr⟩ := hu i List.mem_cons_self h
        refine Or.inr ⟨i, List.mem_cons_self, h, fun j hj _ => ?_, by simp [List.findSomeM?, hr]⟩
        rcases List.mem_cons.mp hj with rfl | hj
        · exact le_rfl
        · exact (hi j hj).le
      · have hcons : (i :: l).findSomeM? f = l.findSomeM? f := by
          simp [List.findSomeM?, hf i h]
        rw [hcons]
        rcases findSomeM?_spec used hf hl fun j hj => hu j (List.mem_cons_of_mem i hj) with
          ⟨hno, he⟩ | ⟨j, hj, hju, hmin, he⟩
        · refine Or.inl ⟨fun j hj => ?_, he⟩
          rcases List.mem_cons.mp hj with rfl | hj
          · exact h
          · exact hno j hj
        · refine Or.inr ⟨j, List.mem_cons_of_mem i hj, hju, fun j' hj' hu' => ?_, he⟩
          rcases List.mem_cons.mp hj' with rfl | hj'
          · exact absurd hu' h
          · exact hmin j' hj' hu'

/-- The descent into a table at level `n` that holds an id finds the least one. -/
def Descends (root : Table α 7) (fuel n : ℕ) : Prop :=
  ∀ (t : Table α n) (ps : Parents α n) (pre : ℕ), IsAt root t ps pre →
    (∃ s ∈ Stored root, s / 16 ^ (n + 1) = pre) →
    ∃ r, getNextTable fuel t ps (pre * 16) false = some (some r) ∧
      IsLeast (StoredFrom root n (pre * 16)) r

/-- The scan of a table from the nibble of `id` on finds the least stored id from `id` on, or
there is none below the table. -/
theorem scan_spec (hp : Trie.Pruned 8 root) {fuel n : ℕ}
    (hd : ∀ m, n = m + 1 → Descends root fuel m) {t : Table α n} {ps : Parents α n} (id : ℕ)
    (h : IsAt root t ps (id / 16)) (hid : id < 2 ^ 32) :
    (∀ s ∈ Stored root, s / 16 ^ (n + 1) = id / 16 → s / 16 ^ n < id) ∧
        (nibblesFrom id).findSomeM? (visitEntry (fun s ps id => getNextTable fuel s ps id false)
          t ps id) = some none ∨
      ∃ r, (nibblesFrom id).findSomeM? (visitEntry (fun s ps id => getNextTable fuel s ps id false)
          t ps id) = some (some r) ∧ IsLeast (StoredFrom root n id) r := by
  have hunused : ∀ i, ¬ (t.get i).isSome →
      visitEntry (fun s ps id => getNextTable fuel s ps id false) t ps id i = some none := by
    intro i hi
    have hi : t.get i = none := by simpa using hi
    cases n <;> simp [visitEntry, hi]
  have hused : ∀ i, (t.get i).isSome →
      ∃ r, visitEntry (fun s ps id => getNextTable fuel s ps id false) t ps id i =
        some (some r) ∧ IsLeast (StoredFrom root n (id / 16 * 16 + i)) r := by
    intro i hi
    obtain ⟨s, hs, hsd⟩ := (isSome_get_iff hp h i).mp hi
    obtain ⟨u, hu⟩ := Option.isSome_iff_exists.mp hi
    cases n with
    | zero =>
        rw [pow_zero, Nat.div_one] at hsd
        refine ⟨s, by simp [visitEntry, hu, mask_or hid, hsd], ⟨hs, by simp [hsd]⟩, ?_⟩
        rintro s' ⟨-, hs'⟩
        rw [pow_zero, Nat.div_one] at hs'
        omega
    | succ m =>
        have hat : IsAt root u (.up t ps) (id / 16 * 16 + i) := by
          have hi' := i.isLt
          have hn : nibble (id / 16 * 16 + i) 0 = i := by
            apply Fin.ext
            rw [nibble_val]
            omega
          refine ⟨hn.symm ▸ hu, ?_⟩
          rwa [show (id / 16 * 16 + (i : ℕ)) / 16 = id / 16 by omega]
        obtain ⟨r, hr, hleast⟩ := hd m rfl u (.up t ps) _ hat ⟨s, hs, hsd⟩
        refine ⟨r, by simpa [visitEntry, hu, mask_or hid, Nat.shiftLeft_eq] using hr, ?_⟩
        have hset : StoredFrom root (m + 1) (id / 16 * 16 + i) =
            StoredFrom root m ((id / 16 * 16 + i) * 16) := by
          ext s'
          simp only [StoredFrom, Set.mem_ofPred_eq, div_pow_succ]
          rw [Nat.le_div_iff_mul_le (by norm_num)]
        exact hset ▸ hleast
  rcases findSomeM?_spec (fun i => (t.get i).isSome) hunused (pairwise_nibblesFrom id)
    (fun i _ hi => ((hused i hi).imp fun r hr => hr.1)) with ⟨hno, he⟩ | ⟨i, hi, hiu, hmin, he⟩
  · refine Or.inl ⟨fun s hs hsd => ?_, he⟩
    by_contra hge
    rw [div_pow_succ] at hsd
    refine hno ⟨s / 16 ^ n % 16, Nat.mod_lt _ (by norm_num)⟩ (mem_nibblesFrom.mpr ?_)
      ((isSome_get_iff hp h _).mpr ⟨s, hs, ?_⟩)
    · simp only; omega
    · simp only; omega
  · obtain ⟨r, hr, ⟨hrs, hrq⟩, hmr⟩ := hused i hiu
    have hi := mem_nibblesFrom.mp hi
    have hi' := i.isLt
    refine Or.inr ⟨r, he.trans hr, ⟨hrs, by omega⟩, ?_⟩
    rintro s ⟨hs, hsq⟩
    by_contra hlt
    have hsi : s / 16 ^ n < id / 16 * 16 + i := by
      by_contra hge
      exact hlt (hmr ⟨hs, by omega⟩)
    have hmod : s / 16 ^ n / 16 = id / 16 := by omega
    have := hmin ⟨s / 16 ^ n % 16, Nat.mod_lt _ (by norm_num)⟩
      (mem_nibblesFrom.mpr (by simp only; omega))
      ((isSome_get_iff hp h _).mpr ⟨s, hs, by simp only; omega⟩)
    rw [Fin.le_def] at this
    simp only at this
    omega

/-! ### The next id -/

theorem descends (hp : Trie.Pruned 8 root) : ∀ {n fuel : ℕ}, n < fuel → Descends root fuel n
  | n, fuel + 1, hn, t, ps, pre, h, ⟨s, hs, hsd⟩ => by
      have hdiv : pre * 16 / 16 = pre := by omega
      have hpre : pre * 16 < 2 ^ 32 := by
        have hlt := h.lt hsd
        rw [div_pow_succ] at hsd
        have := Nat.div_le_self s (16 ^ n)
        omega
      have hd : ∀ m, n = m + 1 → Descends root fuel m := fun m hm => descends hp (by omega)
      rcases scan_spec hp hd (pre * 16) (hdiv.symm ▸ h) hpre with ⟨hno, -⟩ | ⟨r, hr, hleast⟩
      · have := hno s hs (hsd.trans hdiv.symm)
        rw [div_pow_succ] at hsd
        omega
      · refine ⟨r, ?_, hleast⟩
        simp only [getNextTable, Bool.false_eq_true, if_false, hr]

/-- The number of tables above a table. -/
def Parents.depth : {n : ℕ} → Parents α n → ℕ
  | _, .root => 0
  | _, .up _ ps => ps.depth + 1

theorem Parents.add_depth : ∀ {n : ℕ} (ps : Parents α n), n + ps.depth = 7
  | _, .root => rfl
  | n, .up _ ps => by have := ps.add_depth; simp only [Parents.depth]; omega

def IsAnswer (A : Set ℕ) : Option ℕ → Prop
  | none => A = ∅
  | some r => IsLeast A r

theorem storedFrom_carry (root : Table α 7) (n : ℕ) {id : ℕ}
    (h : ∀ s ∈ Stored root, id < s / 16 ^ n → id / 16 < s / 16 ^ n / 16) :
    StoredFrom root n (id + 1) = StoredFrom root (n + 1) (id / 16 + 1) := by
  ext s
  simp only [StoredFrom, Set.mem_ofPred_eq, div_pow_succ]
  refine and_congr_right fun hs => ⟨fun hq => h s hs hq, fun hq => ?_⟩
  have := Nat.div_le_div_right (c := 16) (show s / 16 ^ n ≤ s / 16 ^ n from le_rfl)
  omega

theorem storedFrom_root_eq_empty (root : Table α 7) {id : ℕ}
    (h : ∀ s ∈ Stored root, s / 16 ^ 8 = 0 → s / 16 ^ 7 ≤ id) : StoredFrom root 7 (id + 1) = ∅ := by
  ext s
  simp only [StoredFrom, Set.mem_ofPred_eq, Set.mem_empty_iff_false, iff_false, not_and]
  intro hs hq
  have := h s hs (Nat.div_eq_of_lt hs.1)
  omega

theorem getNextTable_succ {n : ℕ} (fuel : ℕ) {t : Table α n} {ps : Parents α n} {id : ℕ}
    (h : id % 16 ≠ 15) : getNextTable (fuel + 1) t ps id true =
      match (nibblesFrom (id + 1)).findSomeM? (visitEntry
          (fun s ps id => getNextTable fuel s ps id false) t ps (id + 1)) with
      | none => none
      | some (some r) => some (some r)
      | some none => match n, ps with
          | _, .root => some none
          | _, .up t' ps' => getNextTable fuel t' ps' ((id + 1) >>> 4) true := by
  have hs : skipFull t ps id = some (⟨n, t, ps⟩, id) := by
    cases ps <;> simp [skipFull, and_0xf, h]
  rw [getNextTable, if_pos rfl, hs]
  cases ps <;> rfl

theorem getNextTable_spec (hp : Trie.Pruned 8 root) : ∀ {n : ℕ} (fuel id : ℕ) {t : Table α n}
    {ps : Parents α n}, IsAt root t ps (id / 16) → id < 16 ^ 8 →
    ps.depth + 9 ≤ fuel →
    ∃ r, getNextTable fuel t ps id true = some r ∧ IsAnswer (StoredFrom root n (id + 1)) r
  | n, fuel + 1, id, t, ps, h, hlt, hfuel => by
      have hn := ps.add_depth
      by_cases hfull : id % 16 = 15
      · cases ps with
        | root =>
            refine ⟨none, by simp [getNextTable, skipFull, and_0xf, hfull], ?_⟩
            refine storedFrom_root_eq_empty root fun s hs _ => ?_
            have := hs.1
            have : s / 16 ^ 7 < 16 := Nat.div_lt_of_lt_mul (by omega)
            have := h.2
            omega
        | up t' ps' =>
            have hd : id >>> 4 = id / 16 := Nat.shiftRight_eq_div_pow id 4
            have hskip : getNextTable (fuel + 1) t (.up t' ps') id true =
                getNextTable (fuel + 1) t' ps' (id / 16) true := by
              simp only [getNextTable, if_true, skipFull, and_0xf, hfull, hd]
            obtain ⟨r, hr, ha⟩ := getNextTable_spec hp (fuel + 1) (id / 16)
              (by simpa using h.2) (by omega) (by simp only [Parents.depth] at hfuel; omega)
            refine ⟨r, hskip.trans hr, ?_⟩
            rwa [storedFrom_carry root n fun s _ hq => by omega]
      · have hdiv : (id + 1) / 16 = id / 16 := by omega
        rw [getNextTable_succ fuel hfull]
        have hd : ∀ m, n = m + 1 → Descends root fuel m := fun m hm => descends hp (by omega)
        rcases scan_spec hp hd (id + 1) (hdiv.symm ▸ h) (by omega) with ⟨hno, he⟩ | ⟨r, hr, hleast⟩
        · rw [he]
          cases ps with
          | root =>
              refine ⟨none, rfl, storedFrom_root_eq_empty root fun s hs hs0 => ?_⟩
              have := hno s hs (by rw [hs0, hdiv, h.2])
              omega
          | up t' ps' =>
              have hd : (id + 1) >>> 4 = id / 16 :=
                (Nat.shiftRight_eq_div_pow (id + 1) 4).trans hdiv
              obtain ⟨r, hr, ha⟩ := getNextTable_spec hp fuel (id / 16)
                (by simpa using h.2) (by omega) (by simp only [Parents.depth] at hfuel; omega)
              refine ⟨r, by simpa only [hd] using hr, ?_⟩
              rwa [storedFrom_carry root n fun s hs hq => ?_]
              by_contra hle
              have := hno s hs (by rw [div_pow_succ]; omega)
              omega
        · rw [hr]
          exact ⟨some r, rfl, hleast⟩

/-! ### The first id -/

theorem findSome?_of_least {β : Type} {f : Fin 16 → Option β} {i : Fin 16} {r : β}
    (hi : f i = some r) (hlt : ∀ j < i, f j = none) : ∀ {l : List (Fin 16)},
    l.Pairwise (· < ·) → i ∈ l → l.findSome? f = some r
  | j :: l, hl, hmem => by
      obtain ⟨hj, hl⟩ := List.pairwise_cons.mp hl
      rcases List.mem_cons.mp hmem with rfl | hmem
      · rw [List.findSome?_cons, hi]
      · rw [List.findSome?_cons, hlt j (hj i hmem)]
        exact findSome?_of_least hi hlt hl hmem

/-- The search for the first table yields the lowest nibble of the least id only. -/
theorem getFirstTable_spec (hp : Trie.Pruned 8 root) : ∀ {n : ℕ} {t : Table α n}
    {ps : Parents α n} {pre k : ℕ} (pid : ℕ), IsAt root t ps pre →
    IsLeast {s | s ∈ Stored root ∧ s / 16 ^ (n + 1) = pre} k →
    getFirstTable n t pid = some (k % 16)
  | n, t, ps, pre, k, pid, h, ⟨⟨hk, hkd⟩, hmin⟩ => by
      rw [div_pow_succ] at hkd
      have hi : (t.get (nibble k n)).isSome :=
        (isSome_get_iff hp h _).mpr ⟨k, hk, by rw [nibble_val]; omega⟩
      have hlt : ∀ j < nibble k n, t.get j = none := by
        intro j hj
        rw [Fin.lt_def, nibble_val] at hj
        by_contra hne
        obtain ⟨s, hs, hsd⟩ := (isSome_get_iff hp h j).mp (Option.isSome_iff_ne_none.mpr hne)
        have hle : k ≤ s := hmin ⟨hs, by rw [div_pow_succ, hsd]; omega⟩
        have := Nat.div_le_div_right (c := 16 ^ n) hle
        omega
      obtain ⟨u, hu⟩ := Option.isSome_iff_exists.mp hi
      cases n with
      | zero =>
          rw [getFirstTable]
          refine findSome?_of_least (i := nibble k 0) ?_ (fun j hj => by simp [hlt j hj])
            (List.pairwise_lt_finRange 16) (List.mem_finRange _)
          rw [hu]
          simp [nibble_val]
      | succ m =>
          rw [getFirstTable]
          refine findSome?_of_least (i := nibble k (m + 1)) ?_ (fun j hj => by simp [hlt j hj])
            (List.pairwise_lt_finRange 16) (List.mem_finRange _)
          rw [hu, Option.bind_some]
          have hn : nibble (k / 16 ^ (m + 1)) 0 = nibble k (m + 1) := by
            apply Fin.ext
            rw [nibble_val, nibble_val, pow_zero, Nat.div_one]
          have hat : IsAt root u (.up t ps) (k / 16 ^ (m + 1)) :=
            ⟨hn.symm ▸ hu, hkd.symm ▸ h⟩
          refine getFirstTable_spec hp _ hat ⟨⟨hk, rfl⟩, ?_⟩
          rintro s ⟨hs, hsd⟩
          exact hmin ⟨hs, by rw [div_pow_succ, hsd, hkd]⟩

end tables

/-! ### When the iteration is complete -/

theorem openTable_spec {root : Table α 7} : ∀ {n : ℕ} {t : Table α n} {ps : Parents α n}
    {id : ℕ}, IsAt root t ps (id / 16 ^ (n + 1)) → (Trie.find (n + 1) t (nibble id)).isSome →
    ∃ t0 ps0, openTable n t ps id = some (t0, ps0) ∧ IsAt root t0 ps0 (id / 16)
  | 0, t, ps, id, h, _ => ⟨t, ps, rfl, by simpa using h⟩
  | n + 1, t, ps, id, h, hs => by
      cases hu : t.get (nibble id (n + 1)) with
      | none => rw [Trie.find_none hu] at hs; cases hs
      | some u =>
          rw [Trie.find_some hu] at hs
          have hn : nibble (id / 16 ^ (n + 1)) 0 = nibble id (n + 1) := by
            apply Fin.ext
            rw [nibble_val, nibble_val, pow_zero, Nat.div_one]
          have hat : IsAt root u (.up t ps) (id / 16 ^ (n + 1)) :=
            ⟨hn.symm ▸ hu, by rwa [← div_pow_succ]⟩
          obtain ⟨t0, ps0, he, h0⟩ := openTable_spec hat hs
          exact ⟨t0, ps0, by rw [openTable, hu]; exact he, h0⟩

theorem mem_stored_iff (m : IdMap α) (id : UInt32) :
    id.toNat ∈ Stored m.table ↔ m.find id ≠ none := by
  rw [find_eq, ← Option.isSome_iff_ne_none]
  exact and_iff_right id.toNat_lt

theorem toNat_ofNat_of_mem {root : Table α 7} {s : ℕ} (h : s ∈ Stored root) :
    (UInt32.ofNat s).toNat = s := UInt32.toNat_ofNat_of_lt' h.1

/-- From a stored id `GWEN_IdMap_GetNext` leads to the least stored id after it. -/
theorem findNext_spec {m : IdMap α} (hp : Trie.Pruned 8 m.table) {id : UInt32}
    (hid : m.find id ≠ none) {fuel : ℕ} (hf : 16 ≤ fuel) :
    (findNext fuel m id = some none ∧ ∀ id', m.find id' ≠ none → id' ≤ id) ∨
      ∃ id', findNext fuel m id = some (some id') ∧ m.find id' ≠ none ∧ id < id' ∧
        ∀ id'', m.find id'' ≠ none → id < id'' → id' ≤ id'' := by
  have hs := (mem_stored_iff m id).mpr hid
  have h8 : id.toNat / 16 ^ (7 + 1) = 0 := Nat.div_eq_of_lt hs.1
  obtain ⟨t, ps, ho, hat⟩ := openTable_spec (h8.symm ▸ isAt_root m.table) hs.2
  have hd := ps.add_depth
  obtain ⟨r, hr, ha⟩ := getNextTable_spec hp fuel _ hat hs.1 (by omega)
  have hnext : findNext fuel m id = some (r.map UInt32.ofNat) := by
    simp only [findNext, ho, hr, Option.map_some]
  have hmem : ∀ id', id'.toNat ∈ StoredFrom m.table 0 (id.toNat + 1) ↔
      m.find id' ≠ none ∧ id < id' := by
    intro id'
    rw [← mem_stored_iff, UInt32.lt_iff_toNat_lt]
    simp [StoredFrom]
  cases r with
  | none =>
      refine Or.inl ⟨hnext, fun id' hid' => ?_⟩
      by_contra hlt
      have := (hmem id').mpr ⟨hid', UInt32.not_le.mp hlt⟩
      rw [show StoredFrom m.table 0 (id.toNat + 1) = ∅ from ha] at this
      exact this
  | some r =>
      have hrn := toNat_ofNat_of_mem ha.1.1
      obtain ⟨h1, h2⟩ := (hmem (UInt32.ofNat r)).mp (hrn.symm ▸ ha.1)
      refine Or.inr ⟨UInt32.ofNat r, hnext, h1, h2, fun id'' h hlt => ?_⟩
      rw [UInt32.le_iff_toNat_le, hrn]
      exact ha.2 ((hmem id'').mpr ⟨h, hlt⟩)

/-- From a stored id the repeated calls yield the stored ids after it. -/
theorem iterateFrom_spec {m : IdMap α} (hp : Trie.Pruned 8 m.table) {fuel : ℕ}
    (hf : 16 ≤ fuel) : ∀ {k : ℕ} {id : UInt32}, m.find id ≠ none → 2 ^ 32 ≤ id.toNat + k →
    ∃ l, iterateFrom fuel m k id = some l ∧ (id :: l).Pairwise (· < ·) ∧
      ∀ id', id' ∈ l ↔ m.find id' ≠ none ∧ id < id'
  | 0, id, _, hk => absurd id.toNat_lt (by omega)
  | k + 1, id, hid, hk => by
      rcases findNext_spec hp hid hf with ⟨hn, hmax⟩ | ⟨id', hn, hid', hlt, hmin⟩
      · refine ⟨[], by rw [iterateFrom, hn], by simp, fun id' => ?_⟩
        simp only [List.not_mem_nil, false_iff, not_and]
        exact fun h => UInt32.not_lt.mpr (hmax id' h)
      · have hlt' := UInt32.lt_iff_toNat_lt.mp hlt
        obtain ⟨l, hl, hpw, hml⟩ := iterateFrom_spec hp hf (k := k) hid' (by omega)
        refine ⟨id' :: l, by rw [iterateFrom, hn]; simp only [hl, Option.map_some], ?_, ?_⟩
        · refine List.pairwise_cons.mpr ⟨fun x hx => ?_, hpw⟩
          rcases List.mem_cons.mp hx with rfl | hx
          · exact hlt
          · exact UInt32.lt_trans hlt ((hml x).mp hx).2
        · intro x
          rw [List.mem_cons, hml]
          constructor
          · rintro (rfl | ⟨hx, hxlt⟩)
            · exact ⟨hid', hlt⟩
            · exact ⟨hx, UInt32.lt_trans hlt hxlt⟩
          · rintro ⟨hx, hxlt⟩
            rcases UInt32.lt_or_eq_of_le (hmin x hx hxlt) with h | h
            · exact Or.inr ⟨hx, h⟩
            · exact Or.inl h.symm

theorem findFirst_of_least {m : IdMap α} (hp : Trie.Pruned 8 m.table) {id : UInt32}
    (hid : m.find id ≠ none) (hmin : ∀ id', m.find id' ≠ none → id ≤ id') :
    findFirst m = some (UInt32.ofNat (id.toNat % 16)) := by
  have hs := (mem_stored_iff m id).mpr hid
  have hleast : IsLeast {s | s ∈ Stored m.table ∧ s / 16 ^ (7 + 1) = 0} id.toNat := by
    refine ⟨⟨hs, Nat.div_eq_of_lt hs.1⟩, fun s hs' => ?_⟩
    have hsn := toNat_ofNat_of_mem hs'.1
    have := hmin (UInt32.ofNat s) ((mem_stored_iff m _).mp (hsn.symm ▸ hs'.1))
    rwa [UInt32.le_iff_toNat_le, hsn] at this
  rw [findFirst, getFirstTable_spec hp 0 (isAt_root m.table) hleast, Option.map_some]

theorem findFirst_of_empty {m : IdMap α} (hp : Trie.Pruned 8 m.table)
    (h : ∀ id, m.find id = none) : findFirst m = none := by
  have hget : ∀ i, m.table.get i = none := by
    intro i
    by_contra hne
    obtain ⟨s, hs, -⟩ := (isSome_get_iff hp (isAt_root m.table) i).mp
      (Option.isSome_iff_ne_none.mpr hne)
    exact (mem_stored_iff m (UInt32.ofNat s)).mp ((toNat_ofNat_of_mem hs).symm ▸ hs) (h _)
  simp [findFirst, getFirstTable, hget]

theorem exists_least_id {m : IdMap α} (h : ∃ id, m.find id ≠ none) :
    ∃ id, m.find id ≠ none ∧ ∀ id', m.find id' ≠ none → id ≤ id' := by
  obtain ⟨id, hid, hmin⟩ := (measure UInt32.toNat).wf.has_min {id | m.find id ≠ none} h
  exact ⟨id, hid, fun id' hid' => UInt32.not_lt.mp fun hlt =>
    hmin id' hid' (UInt32.lt_iff_toNat_lt.mp hlt)⟩

theorem findFirst_spec {m : IdMap α} (hp : Trie.Pruned 8 m.table)
    (h : ∃ id, id < 16 ∧ m.find id ≠ none) :
    ∃ id, findFirst m = some id ∧ m.find id ≠ none ∧ ∀ id', m.find id' ≠ none → id ≤ id' := by
  obtain ⟨id, hlt, hid⟩ := h
  obtain ⟨k, hk, hmin⟩ := exists_least_id ⟨id, hid⟩
  have hfirst := findFirst_of_least hp hk hmin
  have hlt' : id.toNat < 16 := UInt32.lt_iff_toNat_lt.mp hlt
  have hle := UInt32.le_iff_toNat_le.mp (hmin id hid)
  rw [Nat.mod_eq_of_lt (lt_of_le_of_lt hle hlt'), UInt32.ofNat_toNat] at hfirst
  exact ⟨k, hfirst, hk, hmin⟩

/-- The iteration yields all ids in order when the map is empty or holds an id below 16. -/
theorem iterate_spec {m : IdMap α} (hp : Trie.Pruned 8 m.table)
    (h : (∀ id, m.find id = none) ∨ ∃ id, id < 16 ∧ m.find id ≠ none) :
    ∃ l, iterate (2 ^ 32) m = some l ∧ l.Pairwise (· < ·) ∧ ∀ id, id ∈ l ↔ m.find id ≠ none := by
  rcases h with hno | hid
  · refine ⟨[], ?_, List.Pairwise.nil, fun id => by simp [hno id]⟩
    rw [iterate, findFirst_of_empty hp hno]
  · obtain ⟨k, hfirst, hk, hmin⟩ := findFirst_spec hp hid
    have hfuel : 16 ≤ 2 ^ 32 := by norm_num
    obtain ⟨l, hl, hpw, hml⟩ := iterateFrom_spec hp hfuel (k := 2 ^ 32) hk (by omega)
    refine ⟨k :: l, by rw [iterate, hfirst]; simp only [hl, Option.map_some], hpw, fun x => ?_⟩
    rw [List.mem_cons, hml]
    constructor
    · rintro (rfl | ⟨hx, -⟩)
      · exact hk
      · exact hx
    · intro hx
      rcases UInt32.lt_or_eq_of_le (hmin x hx) with hlt | heq
      · exact Or.inr ⟨hx, hlt⟩
      · exact Or.inl heq.symm

/-- In a reachable map the iteration is complete exactly when the map is empty or holds an id
below 16: the first id is cut down to its lowest nibble. -/
theorem iteratesAll_iff {ops : List (Op α)} {m : IdMap α} (h : run ops = some m) :
    IteratesAll m ↔ (∀ id, m.find id = none) ∨ ∃ id, id < 16 ∧ m.find id ≠ none := by
  have hp := run_pruned h
  constructor
  · rintro ⟨fuel, l, hl, -, hml⟩
    by_cases hne : ∃ id, m.find id ≠ none
    · obtain ⟨k, hk, hmin⟩ := exists_least_id hne
      rw [iterate, findFirst_of_least hp hk hmin, Option.map_eq_some_iff] at hl
      obtain ⟨l', -, rfl⟩ := hl
      refine Or.inr ⟨_, ?_, (hml _).mp List.mem_cons_self⟩
      rw [UInt32.lt_iff_toNat_lt, UInt32.toNat_ofNat_of_lt' (by rw [UInt32.size]; omega)]
      exact Nat.mod_lt _ (by norm_num)
    · exact Or.inl (by simpa using hne)
  · exact fun hid => ⟨2 ^ 32, iterate_spec hp hid⟩

theorem iteratesAll_of_one : ∃ m, run [Op.insert 0x123 'b', .insert 1 'a'] = some m ∧
    IteratesAll m :=
  ⟨_, rfl, (@iteratesAll_iff Char [.insert 0x123 'b', .insert 1 'a'] _ rfl).mpr
    (Or.inr ⟨1, by decide, by decide⟩)⟩

/-- With the single id `0x123` stored, the first id is reported as `3` and the assertion of the
next call fails. -/
theorem iteratesAll_fails : ∃ m, run [Op.insert 0x123 'b'] = some m ∧ findFirst m = some 3 ∧
      (∀ fuel, findNext fuel m 3 = none) ∧ ¬ IteratesAll m := by
  refine ⟨_, rfl, by decide, fun fuel => rfl, ?_⟩
  rintro ⟨fuel, l, hl, -, hml⟩
  cases fuel with
  | zero => cases hl
  | succ fuel => cases hl
end Gwenhywfar.IdMap
