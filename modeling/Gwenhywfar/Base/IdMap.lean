import Gwenhywfar.Lib.Run
import Gwenhywfar.Lib.Trie
import Mathlib.Data.Set.Card
import Mathlib.Tactic.NormNum
import Mathlib.Tactic.Positivity

/-! # `GWEN_IDMAP` with the HEX4 algorithm

The map of `idmap.c` from 32 bit ids to non-NULL pointers: a table of 16 pointers for each of
the eight nibbles of an id, the topmost nibble first.  A table at level `n` has `n` levels of
tables below it, so that the root is at level `7` and the pointer tables (`isPtrTable`) are at
level `0`; the pointers stored in them are the elements of `α`.

* `storePtr` is the descent of `GWEN_IdMapHex4_Insert` and `cleanup` its final loop, `setPair`
  the whole function with the element counter, and `step` the public operations.
* A step has no outcome exactly when an assertion fails.
* `storePtr_some` and `map_cleanup_storePtr_none` identify descent and cleanup with `insert`
  and `erase` of `Gwenhywfar.Trie`. -/

namespace Gwenhywfar
namespace IdMap

/-- `GWEN_IDMAP_RESULT`. -/
inductive IdMapResult where
  | ok
  | noFit
  | notFound
deriving DecidableEq, Repr

/-- A `GWEN_IDMAP_HEX4_TABLE` at level `n`. -/
abbrev Table (α : Type) (n : ℕ) : Type := Trie (Fin 16) α (n + 1)

variable {α : Type}

/-- The nibble of an id that selects the entry of a table at level `i`. -/
def nibble (id i : ℕ) : Fin 16 := ⟨(id >>> (4 * i)) &&& 0xf, Nat.lt_succ_of_le Nat.and_le_right⟩

/-- `GWEN_IdMapHex4_Insert`: the descent, which creates missing tables only when a pointer is
stored, and the assignment in the pointer table; `none` is `GWEN_IdMapResult_NotFound`. -/
def storePtr : (n : ℕ) → Table α n → ℕ → Option α → Option (Table α n)
  | 0, t, id, ptr => some (t.set (nibble id 0) ptr)
  | n + 1, t, id, ptr => match t.get (nibble id (n + 1)), ptr with
      | none, none => none
      | none, some a => (storePtr n (Trie.empty n) id (some a)).map fun s =>
          t.set (nibble id (n + 1)) (some s)
      | some s, ptr => (storePtr n s id ptr).map fun s' => t.set (nibble id (n + 1)) (some s')

/-- No entry of the table is in use. -/
def isVacant {n : ℕ} (t : Table α n) : Bool := (List.finRange 16).all fun i => (t.get i).isNone

/-- `GWEN_IdMapHex4_Insert`: the cleanup loop.  It climbs from the pointer table of `id` to the
root and frees every table that has become vacant. -/
def cleanup : (n : ℕ) → Table α n → ℕ → Table α n
  | 0, t, _ => t
  | n + 1, t, id => match t.get (nibble id (n + 1)) with
      | none => t
      | some s =>
          if isVacant (cleanup n s id) then t.set (nibble id (n + 1)) none
          else t.set (nibble id (n + 1)) (some (cleanup n s id))

/-- `GWEN_IdMapHex4_Find`. -/
def findPtr : (n : ℕ) → Table α n → ℕ → Option α
  | 0, t, id => t.get (nibble id 0)
  | n + 1, t, id => match t.get (nibble id (n + 1)) with
      | none => none
      | some s => findPtr n s id

/-- `GWEN_IdMapHex4__GetTable`: the pointer table that `id` leads to. -/
def getTable : (n : ℕ) → Table α n → ℕ → Option (Table α 0)
  | 0, t, _ => some t
  | n + 1, t, id => match t.get (nibble id (n + 1)) with
      | none => none
      | some s => getTable n s id

end IdMap

/-- `GWEN_IDMAP`. -/
structure IdMap (α : Type) where
  table : IdMap.Table α 7
  count : UInt32

namespace IdMap

variable {α : Type}

/-- `GWEN_IdMap_new(GWEN_IdMapAlgo_Hex4)`. -/
def new : IdMap α := ⟨Trie.empty 7, 0⟩

/-- `GWEN_IdMapHex4_Insert`; a NULL pointer removes the id. -/
def setPair (m : IdMap α) (id : UInt32) (ptr : Option α) : Option (IdMapResult × IdMap α) :=
  match storePtr 7 m.table id.toNat ptr with
  | none => some (.notFound, m)
  | some t => match ptr with
      | none =>
          -- assert(map->count)
          if m.count = 0 then none
          else some (.ok, ⟨cleanup 7 t id.toNat, m.count - 1⟩)
      | some _ => some (.ok, ⟨t, m.count + 1⟩)

/-- `GWEN_IdMap_Find`. -/
def find (m : IdMap α) (id : UInt32) : Option α := findPtr 7 m.table id.toNat

/-- `GWEN_IdMap_GetSize`. -/
def getSize (m : IdMap α) : UInt32 := m.count

/-- `GWEN_IdMap_Clear`: the tables are freed and a new root is made, the counter is kept. -/
def clear (m : IdMap α) : IdMap α := ⟨Trie.empty 7, m.count⟩

/-- The operations that change a map. -/
inductive Op (α : Type) where
  | insert (id : UInt32) (ptr : α)
  | remove (id : UInt32)
  | clear

/-- One operation with its result; `none` when an assertion fails. -/
def step (m : IdMap α) : Op α → Option (IdMapResult × IdMap α)
  | .insert id ptr => setPair m id (some ptr)
  | .remove id => setPair m id none
  | .clear => some (.ok, clear m)

/-- The map after a sequence of operations on a new map. -/
def run (ops : List (Op α)) : Option (IdMap α) :=
  exec (fun m o => (step m o).map Prod.snd) new ops

/-! ### Nibbles -/

theorem nibble_val (id i : ℕ) : (nibble id i : ℕ) = id / 16 ^ i % 16 := by
  have h : (0xf : ℕ) = 2 ^ 4 - 1 := rfl
  simp only [nibble, h, Nat.and_two_pow_sub_one_eq_mod, Nat.shiftRight_eq_div_pow, pow_mul]
  norm_num

theorem agree_nibble_iff (a b : ℕ) : ∀ n, Trie.Agree n (nibble a) (nibble b) ↔
    a % 16 ^ n = b % 16 ^ n
  | 0 => by simp [Trie.Agree, Nat.mod_one]
  | n + 1 => by
      rw [Trie.agree_succ, agree_nibble_iff a b n, Fin.ext_iff, nibble_val, nibble_val,
        pow_succ, Nat.mod_mul, Nat.mod_mul]
      have ha := Nat.mod_lt a (show 0 < 16 ^ n by positivity)
      have hb := Nat.mod_lt b (show 0 < 16 ^ n by positivity)
      constructor
      · rintro ⟨h1, h2⟩
        rw [h1, h2]
      · intro h
        have h2 : a % 16 ^ n = b % 16 ^ n := by
          have := congrArg (· % 16 ^ n) h
          simpa [Nat.add_mul_mod_self_left, Nat.mod_mod] using this
        refine ⟨?_, h2⟩
        have h3 : 16 ^ n * (a / 16 ^ n % 16) = 16 ^ n * (b / 16 ^ n % 16) := by omega
        exact Nat.eq_of_mul_eq_mul_left (by positivity) h3

theorem agree_nibble_iff_eq (a b : UInt32) :
    Trie.Agree 8 (nibble a.toNat) (nibble b.toNat) ↔ a = b := by
  rw [agree_nibble_iff]
  have ha := a.toNat_lt
  have hb := b.toNat_lt
  rw [Nat.mod_eq_of_lt (by simpa using ha), Nat.mod_eq_of_lt (by simpa using hb)]
  exact UInt32.toNat_inj

/-! ### The descent and the cleanup are the operations of the trie -/

theorem findPtr_eq : ∀ (n : ℕ) (t : Table α n) (id : ℕ),
    findPtr n t id = Trie.find (n + 1) t (nibble id)
  | 0, t, id => by
      simp only [findPtr, Trie.find]
      cases t.get (nibble id 0) <;> rfl
  | n + 1, t, id => by
      cases hs : t.get (nibble id (n + 1)) with
      | none => simp only [findPtr, hs, Trie.find_none hs]
      | some s => simp only [findPtr, hs, Trie.find_some hs, findPtr_eq n s id]

theorem storePtr_empty : ∀ (n : ℕ) (id : ℕ) (a : α),
    storePtr n (Trie.empty n) id (some a) = some (Trie.single (n + 1) (nibble id) a)
  | 0, _, _ => rfl
  | n + 1, id, a => by
      simp only [storePtr, Trie.get_empty, storePtr_empty n id a, Option.map_some, Trie.single]

theorem storePtr_some : ∀ (n : ℕ) (t : Table α n) (id : ℕ) (a : α),
    storePtr n t id (some a) = some (Trie.insert (n + 1) t (nibble id) a)
  | 0, t, id, a => by
      simp only [storePtr, Trie.insert]
      cases t.get (nibble id 0) <;> rfl
  | n + 1, t, id, a => by
      cases hs : t.get (nibble id (n + 1)) with
      | none =>
          simp only [storePtr, hs, storePtr_empty n id a, Option.map_some]
          rw [Trie.insert, hs]
      | some s =>
          simp only [storePtr, hs, storePtr_some n s id a, Option.map_some]
          conv_rhs => rw [Trie.insert, hs]

theorem storePtr_none_eq_none_iff : ∀ (n : ℕ) (t : Table α n) (id : ℕ),
    storePtr n t id none = none ↔ getTable n t id = none
  | 0, _, _ => by simp [storePtr, getTable]
  | n + 1, t, id => by
      cases hs : t.get (nibble id (n + 1)) with
      | none => simp [storePtr, getTable, hs]
      | some s => simp [storePtr, getTable, hs, storePtr_none_eq_none_iff n s id]

theorem isVacant_iff {n : ℕ} (t : Table α n) : isVacant t = true ↔ ¬ Trie.Occupied (n + 1) t := by
  simp [isVacant, Trie.Occupied]

theorem map_cleanup_storePtr_none : ∀ (n : ℕ) (t : Table α n) (id : ℕ) {s : Table α n},
    storePtr n t id none = some s → cleanup n s id = Trie.erase n t (nibble id)
  | 0, t, id, s, h => by
      simp only [storePtr, Option.some.injEq] at h
      exact h.symm
  | n + 1, t, id, s, h => by
      cases hs : t.get (nibble id (n + 1)) with
      | none => simp [storePtr, hs] at h
      | some u =>
          simp only [storePtr, hs, Option.map_eq_some_iff] at h
          obtain ⟨u', hu', rfl⟩ := h
          have ih := map_cleanup_storePtr_none n u id hu'
          simp only [cleanup, Trie.get_set_self, ih, Trie.erase, hs, isVacant_iff, Trie.set_set]
          by_cases ho : Trie.Occupied (n + 1) (Trie.erase n u (nibble id))
          · rw [if_pos ho, if_neg (not_not.mpr ho)]
          · rw [if_neg ho, if_pos ho]
end IdMap
end Gwenhywfar
