import Gwenhywfar.Base.ListRefine
import Gwenhywfar.Base.StringList

/-! # `GWEN_STRINGLIST2`

String lists whose entries are in a `GWEN_LIST`, with its copies and its link counts.

* `StringLists2`: the lists of a run with their strings, which are told by their addresses.
* `CountedLists`: what they are for, sequences of strings that are counted.
* `StringOp2.Fits`: strings that are used again are not in a shared list, what is removed has link
  count 1, and a string that is looked up is not alone in being present or absent.
* `counted_of_fits`: the run. -/

namespace Gwenhywfar

open Function
open CString (ofBytes)

/-- `GWEN_STRINGLIST2_INSERTMODE`. -/
inductive InsertMode where
  | alwaysAdd
  | noDouble
  | reuse
deriving DecidableEq

/-- The lists, which are numbered, with the strings at the addresses from 1 to `strings`, and the
result of the last call. -/
structure StringLists2 where
  heap : ListHeap
  text : ℕ → CString
  strings : ℕ
  senseCase : ℕ → Bool
  result : ℤ

/-- The calls. -/
inductive StringOp2 where
  | new
  | dup (l : ℕ)
  | setSenseCase (l : ℕ) (i : Bool)
  | appendString (l : ℕ) (s : CString) (m : InsertMode)
  | insertString (l : ℕ) (s : CString) (m : InsertMode)
  | removeString (l : ℕ) (s : CString)
  | hasString (l : ℕ) (s : CString)
deriving DecidableEq

/-! ### The code -/

namespace ListHeap

/-- The loop of `GWEN_StringList2__GetString`. -/
def getStringLoop (same : ℕ → Bool) : ℕ → Option ℕ → ListHeap → Option (Option ℕ × ListHeap)
  | 0, _, _ => none
  | _ + 1, none, h => some (none, h)
  | fuel + 1, some le, h =>
      if same (h.dataPtr le) then some (some le, h)
      else getStringLoop same fuel (h.iterMove (some le) .next).1 (h.iterMove (some le) .next).2

/-- `GWEN_StringList2__GetString`, with the entry its iterator stands at. -/
def getString (h : ListHeap) (same : ℕ → Bool) (l : ℕ) : Option (Option ℕ × ListHeap) := do
  let lp ← h.lists[l]?
  match h.first lp with
  | none => some (none, h)
  | some le => getStringLoop same (h.entries + 1) (some le) (h.hold (some le))

/-- The loop of `GWEN_StringList2_HasString`, which ends where the strings differ. -/
def hasStringLoop (same : ℕ → Bool) : ℕ → Option ℕ → ListHeap → Option (Bool × ListHeap)
  | 0, _, _ => none
  | fuel + 1, current, h =>
      if h.iterData current = 0 then some (false, h.release current)
      else if !same (h.iterData current) then some (true, h.release current)
      else hasStringLoop same fuel (h.iterMove current .next).1 (h.iterMove current .next).2

end ListHeap

namespace StringLists2

/-- No list yet. -/
def init : StringLists2 := ⟨ListHeap.empty, fun _ => ofBytes [], 0, fun _ => false, 0⟩

/-- The comparison of a list. -/
def same (sl : StringLists2) (l : ℕ) (s : CString) (p : ℕ) : Bool :=
  StringList.isSame (sl.senseCase l) s (sl.text p)

/-- The end of a call. -/
def done (sl : StringLists2) (result : ℤ) (h : ListHeap) : StringLists2 :=
  { sl with heap := h, result := result }

def pushString (sl : StringLists2) (push : ListHeap → ℕ → ℕ → Option ListHeap) (l : ℕ)
    (s : CString) (h : ListHeap) : Option StringLists2 :=
  (push h l (sl.strings + 1)).map fun h' =>
    { sl.done 1 h' with
      text := update sl.text (sl.strings + 1) s
      strings := sl.strings + 1 }

/-- What `GWEN_StringList2_AppendString` and `GWEN_StringList2_InsertString` have in common. -/
def addString (push : ListHeap → ℕ → ℕ → Option ListHeap) (sl : StringLists2) (l : ℕ)
    (s : CString) (m : InsertMode) : Option StringLists2 :=
  if m = .alwaysAdd then sl.pushString push l s sl.heap
  else do
    match ← sl.heap.getString (sl.same l s) l with
    | (none, h) => sl.pushString push l s h
    | (some le, h) =>
        if m = .noDouble then some (sl.done 0 (h.release (some le)))
        else some (sl.done 0 ((h.incLinkCount (some le)).release (some le)))

/-- `GWEN_StringList2_AppendString`. -/
def appendString : StringLists2 → ℕ → CString → InsertMode → Option StringLists2 :=
  addString ListHeap.pushBack

/-- `GWEN_StringList2_InsertString`. -/
def insertString : StringLists2 → ℕ → CString → InsertMode → Option StringLists2 :=
  addString ListHeap.pushFront

/-- `GWEN_StringList2_RemoveString`; the link count is stored in an `int`. -/
def removeString (sl : StringLists2) (l : ℕ) (s : CString) : Option StringLists2 := do
  match ← sl.heap.getString (sl.same l s) l with
  | (none, h) => some (sl.done 0 h)
  | (some le, h) =>
      let lc := (h.linkCount le).toInt32
      let (current, h') ← h.erase l (some le)
      some (sl.done (if lc < 2 then 1 else 0) (h'.release current))

/-- `GWEN_StringList2_HasString`. -/
def hasString (sl : StringLists2) (l : ℕ) (s : CString) : Option StringLists2 := do
  let lp ← sl.heap.lists[l]?
  match sl.heap.first lp with
  | none => some (sl.done 0 sl.heap)
  | some le =>
      let (gotIt, h) ← ListHeap.hasStringLoop (sl.same l s) (sl.heap.entries + 1) (some le)
        (sl.heap.hold (some le))
      some (sl.done (if gotIt then 1 else 0) h)

/-- `GWEN_StringList2_dup`. -/
def dup (sl : StringLists2) (l : ℕ) : Option StringLists2 :=
  (sl.heap.dup l).map fun h =>
    { sl.done 0 h with
      senseCase := update sl.senseCase sl.heap.lists.length (sl.senseCase l) }

/-- One call; `GWEN_StringList2_new` makes a list that ignores the case. -/
def step (sl : StringLists2) : StringOp2 → Option StringLists2
  | .new => some { sl.done 0 sl.heap.new with
      senseCase := update sl.senseCase sl.heap.lists.length false }
  | .dup l => sl.dup l
  | .setSenseCase l i => some { sl.done 0 sl.heap with senseCase := update sl.senseCase l i }
  | .appendString l s m => sl.appendString l s m
  | .insertString l s m => sl.insertString l s m
  | .removeString l s => sl.removeString l s
  | .hasString l s => sl.hasString l s

/-- The strings of a list with their link counts. -/
def items (sl : StringLists2) (l : ℕ) : List (CString × ℕ) :=
  (sl.heap.items l).map fun x => (sl.text x.1, x.2.toNat)

end StringLists2

/-! ### What they are for -/

/-- Sequences of strings, each with how often it has been added. -/
structure CountedLists where
  lists : List (List (CString × ℕ))
  senseCase : ℕ → Bool
  result : ℤ

namespace CountedLists

/-- No list yet. -/
def init : CountedLists := ⟨[], fun _ => false, 0⟩

/-- The place of the first string that is equal. -/
def find (senseCase : Bool) (s : CString) (items : List (CString × ℕ)) : Option ℕ :=
  items.findIdx? fun x => StringList.isSame senseCase s x.1

/-- A string is added, unless it is there and the mode forbids it; then it is counted. -/
def add (senseCase : Bool) (s : CString) (m : InsertMode)
    (push : List (CString × ℕ) → List (CString × ℕ)) (items : List (CString × ℕ)) :
    ℤ × List (CString × ℕ) :=
  if m = .alwaysAdd then (1, push items)
  else
    match find senseCase s items with
    | none => (1, push items)
    | some i =>
        if m = .noDouble then (0, items) else (0, items.modify i fun x => (x.1, x.2 + 1))

def remove (senseCase : Bool) (s : CString) (items : List (CString × ℕ)) : ℤ × List (CString × ℕ) :=
  match find senseCase s items with
  | none => (0, items)
  | some i =>
      if (items[i]?).map Prod.snd = some 1 then (1, items.eraseIdx i)
      else (0, items.modify i fun x => (x.1, x.2 - 1))

/-- The result of a call and what it makes of a list. -/
def write (r : CountedLists) (l : ℕ)
    (f : List (CString × ℕ) → ℤ × List (CString × ℕ)) : Option CountedLists :=
  (r.lists[l]?).map fun items =>
    { r with lists := r.lists.set l (f items).2, result := (f items).1 }

/-- One call. -/
def step (r : CountedLists) : StringOp2 → Option CountedLists
  | .new => some ⟨r.lists ++ [[]], update r.senseCase r.lists.length false, 0⟩
  | .dup l => (r.lists[l]?).map fun items =>
      ⟨r.lists ++ [items], update r.senseCase r.lists.length (r.senseCase l), 0⟩
  | .setSenseCase l i => some ⟨r.lists, update r.senseCase l i, 0⟩
  | .appendString l s m => r.write l (add (r.senseCase l) s m fun items => items ++ [(s, 1)])
  | .insertString l s m => r.write l (add (r.senseCase l) s m fun items => (s, 1) :: items)
  | .removeString l s => r.write l (remove (r.senseCase l) s)
  | .hasString l s => r.write l fun items =>
      (if (find (r.senseCase l) s items).isSome then 1 else 0, items)

end CountedLists

/-- The calls have the result that is expected, and the lists have the strings. -/
structure SeenAsCounted (sl : StringLists2) (r : CountedLists) : Prop where
  count : sl.heap.lists.length = r.lists.length
  list : ∀ l items, r.lists[l]? = some items → sl.items l = items
  result : sl.result = r.result

namespace StringOp2

def Reusable (sl : StringLists2) (l : ℕ) (s : CString) : Prop :=
  ∀ i ∈ CountedLists.find (sl.senseCase l) s (sl.items l),
    sl.heap.shared l = false ∧ ∀ x ∈ (sl.items l)[i]?, x.2 + 1 < 2 ^ 32

/-- The call names a list, and goes none of the ways on which the code does not count. -/
def Fits (sl : StringLists2) : StringOp2 → Prop
  | .new => True
  | .dup l | .setSenseCase l _ => l < sl.heap.lists.length
  | .appendString l s m | .insertString l s m =>
      l < sl.heap.lists.length ∧ (m = .reuse → Reusable sl l s)
  | .removeString l s => l < sl.heap.lists.length ∧
      ∀ i ∈ CountedLists.find (sl.senseCase l) s (sl.items l),
        ((sl.items l)[i]?).map Prod.snd = some 1
  | .hasString l s => l < sl.heap.lists.length ∧
      ((∃ x ∈ sl.items l, StringList.isSame (sl.senseCase l) s x.1 = true) ↔
        ∃ x ∈ sl.items l, StringList.isSame (sl.senseCase l) s x.1 = false)

instance (sl : StringLists2) (l : ℕ) (s : CString) : Decidable (Reusable sl l s) :=
  match h : CountedLists.find (sl.senseCase l) s (sl.items l) with
  | none => isTrue (by
      intro i hi
      rw [h] at hi
      cases hi)
  | some i => decidable_of_iff
      (sl.heap.shared l = false ∧ ∀ x ∈ ((sl.items l)[i]?).toList, x.2 + 1 < 2 ^ 32)
      (by simp only [Reusable, h, Option.mem_def, Option.some.injEq, forall_eq', Option.mem_toList])

/-- The strings that a call removes have been added once. -/
instance (sl : StringLists2) (l : ℕ) (s : CString) :
    Decidable (∀ i ∈ CountedLists.find (sl.senseCase l) s (sl.items l),
      ((sl.items l)[i]?).map Prod.snd = some 1) :=
  decidable_of_iff (∀ i ∈ (CountedLists.find (sl.senseCase l) s (sl.items l)).toList,
    ((sl.items l)[i]?).map Prod.snd = some 1)
    (by simp only [Option.mem_toList, Option.mem_def])

instance decidableFits (sl : StringLists2) : (o : StringOp2) → Decidable (o.Fits sl)
  | .new => inferInstanceAs (Decidable True)
  | .dup l | .setSenseCase l _ => inferInstanceAs (Decidable (l < sl.heap.lists.length))
  | .appendString l s m | .insertString l s m => inferInstanceAs
      (Decidable (l < sl.heap.lists.length ∧ (m = .reuse → Reusable sl l s)))
  | .removeString l s => inferInstanceAs (Decidable (l < sl.heap.lists.length ∧
      ∀ i ∈ CountedLists.find (sl.senseCase l) s (sl.items l),
        ((sl.items l)[i]?).map Prod.snd = some 1))
  | .hasString l s => inferInstanceAs (Decidable (l < sl.heap.lists.length ∧
      ((∃ x ∈ sl.items l, StringList.isSame (sl.senseCase l) s x.1 = true) ↔
        ∃ x ∈ sl.items l, StringList.isSame (sl.senseCase l) s x.1 = false)))

end StringOp2

/-! ### Searching -/

namespace Rep

variable {h : ListHeap} {seqs : ℕ → List ℕ} {ls : List (List ListItem)} {l lp : ℕ}
  {items : List ListItem}

theorem iterMove_next (hr : Rep h seqs ls) {j : ℕ} (hj : j < (seqs lp).length) :
    (h.hold ((seqs lp)[j]?)).iterMove ((seqs lp)[j]?) .next =
      ((seqs lp)[j + 1]?, h.hold ((seqs lp)[j + 1]?)) := by
  have hin : ListHeap.PosIn (seqs lp).length (some j) := fun k hk => Option.some.inj hk ▸ hj
  have hmove := hr.links.iterMove hin .next
  have hto : ListHeap.entryAt (seqs lp) (ListSpec.movePos (seqs lp).length (some j) .next) =
      (seqs lp)[j + 1]? := by
    rw [ListSpec.movePos]
    split
    · rfl
    · next hlt => exact (List.getElem?_eq_none (Nat.le_of_not_lt hlt)).symm
  rwa [hto] at hmove

theorem getElem_dataPtr (hr : Rep h seqs ls) (hl : h.lists[l]? = some lp)
    (hi : ls[l]? = some items) {j : ℕ} (hj : j < items.length) :
    ∃ x, (seqs lp)[j]? = some x ∧ h.item x = items[j] := by
  have hitems := hr.items_eq hl hi
  subst hitems
  rw [List.length_map] at hj
  exact ⟨(seqs lp)[j], List.getElem?_eq_getElem hj, by rw [List.getElem_map]⟩

theorem length_le_of_drop (hr : Rep h seqs ls) (hl : h.lists[l]? = some lp)
    (hi : ls[l]? = some items) {j : ℕ} (hrest : items.drop j = []) : (seqs lp).length ≤ j := by
  have hlen := List.drop_eq_nil_iff.mp hrest
  rwa [hr.items_eq hl hi, List.length_map] at hlen

theorem exists_of_drop (hr : Rep h seqs ls) (hl : h.lists[l]? = some lp)
    (hi : ls[l]? = some items) {j : ℕ} {y : ListItem} {rest : List ListItem}
    (hrest : items.drop j = y :: rest) :
    j < (seqs lp).length ∧ y ∈ items ∧ items.drop (j + 1) = rest ∧
      ∃ x, (seqs lp)[j]? = some x ∧ h.item x = y := by
  have hj : j < items.length := by
    by_contra hge
    rw [List.drop_eq_nil_of_le (Nat.le_of_not_lt hge)] at hrest
    cases hrest
  have hlen : items.length = (seqs lp).length := by rw [hr.items_eq hl hi, List.length_map]
  rw [List.drop_eq_getElem_cons hj] at hrest
  obtain ⟨hy, hrest⟩ := List.cons.inj hrest
  obtain ⟨x, hx, hitem⟩ := hr.getElem_dataPtr hl hi hj
  exact ⟨hlen ▸ hj, hy ▸ List.getElem_mem hj, hrest, x, hx, hitem.trans hy⟩

theorem getStringLoop_eq (hr : Rep h seqs ls) (hl : h.lists[l]? = some lp)
    (hi : ls[l]? = some items) (same : ℕ → Bool) : ∀ (rest : List ListItem) {fuel j : ℕ},
    items.drop j = rest → rest.length < fuel →
    ListHeap.getStringLoop same fuel ((seqs lp)[j]?) (h.hold ((seqs lp)[j]?)) =
      match rest.findIdx? fun x => same x.1 with
      | none => some (none, h)
      | some i => some ((seqs lp)[j + i]?, h.hold ((seqs lp)[j + i]?))
  | [], fuel, j, hrest, hf => by
      obtain ⟨fuel, rfl⟩ := Nat.exists_eq_add_of_lt hf
      rw [List.getElem?_eq_none (hr.length_le_of_drop hl hi hrest)]
      rfl
  | y :: rest, fuel, j, hrest, hf => by
      obtain ⟨fuel, rfl⟩ := Nat.exists_eq_add_of_lt hf
      obtain ⟨hj, hmem, hrest, x, hx, hitem⟩ := hr.exists_of_drop hl hi hrest
      have hdata : (h.hold (some x)).dataPtr x = y.1 := by
        rw [ListHeap.hold_dataPtr, ← hitem]
        rfl
      rw [List.findIdx?_cons, hx, ListHeap.getStringLoop, hdata]
      by_cases hsame : same y.1 = true
      · rw [if_pos hsame, if_pos hsame]
        dsimp only
        rw [Nat.add_zero, hx]
      · rw [if_neg hsame, if_neg hsame]
        have hmove := hr.iterMove_next hj
        rw [hx] at hmove
        rw [hmove, hr.getStringLoop_eq hl hi same rest hrest (by rw [List.length_cons]; omega)]
        cases rest.findIdx? fun x => same x.1 with
        | none => rfl
        | some i =>
            rw [Option.map_some]
            dsimp only
            rw [Nat.add_right_comm, ← Nat.add_assoc]

theorem hasStringLoop_eq (hr : Rep h seqs ls) (hl : h.lists[l]? = some lp)
    (hi : ls[l]? = some items) (same : ℕ → Bool) (hdata : ∀ x ∈ items, x.1 ≠ 0) :
    ∀ (rest : List ListItem) {fuel j : ℕ}, items.drop j = rest → rest.length < fuel →
    ListHeap.hasStringLoop same fuel ((seqs lp)[j]?) (h.hold ((seqs lp)[j]?)) =
      some (rest.any fun x => !same x.1, h)
  | [], fuel, j, hrest, hf => by
      obtain ⟨fuel, rfl⟩ := Nat.exists_eq_add_of_lt hf
      rw [List.getElem?_eq_none (hr.length_le_of_drop hl hi hrest)]
      rfl
  | y :: rest, fuel, j, hrest, hf => by
      obtain ⟨fuel, rfl⟩ := Nat.exists_eq_add_of_lt hf
      obtain ⟨hj, hmem, hrest, x, hx, hitem⟩ := hr.exists_of_drop hl hi hrest
      have hread : (h.hold (some x)).iterData (some x) = y.1 := by
        rw [iterData_hold, ← hitem]
        rfl
      have hne : y.1 ≠ 0 := hdata y hmem
      have hused : ∀ z, some x = some z → 0 < h.usage z := fun z hz =>
        Option.some.inj hz ▸ hr.links.used (List.mem_of_getElem? hx)
      rw [hx, ListHeap.hasStringLoop, hread, if_neg hne, List.any_cons]
      by_cases hsame : (!same y.1) = true
      · rw [if_pos hsame, ListHeap.release_hold hused, hsame, Bool.true_or]
      · rw [if_neg hsame]
        have hmove := hr.iterMove_next hj
        rw [hx] at hmove
        rw [hmove, hr.hasStringLoop_eq hl hi same hdata rest hrest
          (by rw [List.length_cons]; omega), Bool.eq_false_of_not_eq_true hsame, Bool.false_or]

theorem getString_eq (hr : Rep h seqs ls) (hl : h.lists[l]? = some lp)
    (hi : ls[l]? = some items) (same : ℕ → Bool) :
    h.getString same l =
      match items.findIdx? fun x => same x.1 with
      | none => some (none, h)
      | some i => some ((seqs lp)[i]?, h.hold ((seqs lp)[i]?)) := by
  have hlen : items.length = (seqs lp).length := by rw [hr.items_eq hl hi, List.length_map]
  have hfuel := hr.links.length_le lp
  have hloop := hr.getStringLoop_eq hl hi same items (@List.drop_zero _ items)
    (show items.length < h.entries + 1 by omega)
  unfold ListHeap.getString
  rw [hl, Option.bind_eq_bind, Option.bind_some, hr.links.first_eq, List.head?_eq_getElem?]
  cases hs : (seqs lp)[0]? with
  | none =>
      have hnil : items = [] := List.length_eq_zero_iff.mp
        (hlen.trans (Nat.le_zero.mp (List.getElem?_eq_none_iff.mp hs)))
      rw [hnil]
      rfl
  | some x =>
      rw [hs] at hloop
      dsimp only
      rw [hloop]
      cases items.findIdx? fun x => same x.1 with
      | none => rfl
      | some i => simp only [Nat.zero_add]

theorem foldl_movePos {n : ℕ} : ∀ (i : ℕ) {j : ℕ}, j + i < n →
    (List.replicate i ListMove.next).foldl (ListSpec.movePos n) (some j) = some (j + i)
  | 0, _, _ => rfl
  | i + 1, j, h => by
      rw [List.replicate_succ, List.foldl_cons, ListSpec.movePos, if_pos (by omega),
        foldl_movePos i (by omega), Nat.add_right_comm, Nat.add_assoc]

theorem incLinkCount (hr : Rep h seqs ls) (hl : h.lists[l]? = some lp) (hi : ls[l]? = some items)
    (hsh : h.shared l = false) {i : ℕ} (hlt : i < items.length) :
    ∃ seqs', Rep ((((h.hold ((seqs lp)[i]?)).incLinkCount ((seqs lp)[i]?)).release
        ((seqs lp)[i]?))) seqs' (ls.set l (items.modify i fun x => (x.1, x.2 + 1))) := by
  have hlen : items.length = (seqs lp).length := by rw [hr.items_eq hl hi, List.length_map]
  have hne : items ≠ [] := List.ne_nil_of_length_pos (by omega)
  have hs : seqs lp ≠ [] := List.ne_nil_of_length_pos (by omega)
  have hpos : ListSpec.posAt (seqs lp).length .first (List.replicate i .next) = some i :=
    (@foldl_movePos _ i 0 (by omega)).trans (congrArg some (Nat.zero_add i))
  obtain ⟨h', seqs', r, hrun, hstep, hr', -⟩ :=
    hr.incLinkCountAt hi hne hsh .first (List.replicate i .next)
  obtain ⟨hit, -⟩ := hr.links.iterAt hs .first (List.replicate i .next)
  unfold ListHeap.incLinkCountAt at hrun
  rw [hl, Option.bind_eq_bind, Option.bind_some, hit, hpos] at hrun
  rw [ListSpec.step, hi, Option.bind_some, if_neg hne, hlen, hpos] at hstep
  obtain rfl := Option.some.inj hstep
  obtain rfl := Option.some.inj hrun
  exact ⟨seqs', hr'⟩

end Rep

/-! ### Runs -/

/-- The heap holds the counted strings. -/
structure Counts (sl : StringLists2) (seqs : ℕ → List ℕ) (ls : List (List ListItem))
    (r : CountedLists) : Prop where
  rep : Rep sl.heap seqs ls
  lists : r.lists = ls.map (List.map fun x => (sl.text x.1, x.2.toNat))
  known : ∀ items ∈ ls, ∀ x ∈ items, 0 < x.1 ∧ x.1 ≤ sl.strings
  senseCase : r.senseCase = sl.senseCase
  result : sl.result = r.result

namespace Counts

variable {sl : StringLists2} {seqs : ℕ → List ℕ} {ls : List (List ListItem)} {r : CountedLists}
  {l : ℕ} {items : List ListItem}

def texts (sl : StringLists2) (items : List ListItem) : List (CString × ℕ) :=
  items.map fun x => (sl.text x.1, x.2.toNat)

theorem items_eq (h : Counts sl seqs ls r) (hi : ls[l]? = some items) :
    sl.items l = texts sl items := by
  rw [StringLists2.items, h.rep.items_eq_items hi]
  rfl

theorem getElem (h : Counts sl seqs ls r) (hi : ls[l]? = some items) :
    r.lists[l]? = some (texts sl items) := by
  rw [h.lists, List.getElem?_map, hi, Option.map_some]
  rfl

theorem seen (h : Counts sl seqs ls r) : SeenAsCounted sl r where
  count := by rw [h.lists, List.length_map, h.rep.length_eq]
  list := by
    intro l items' hi'
    rw [h.lists, List.getElem?_map, Option.map_eq_some_iff] at hi'
    obtain ⟨items, hi, rfl⟩ := hi'
    exact h.items_eq hi
  result := h.result

theorem find_texts (sl : StringLists2) (l : ℕ) (s : CString) (items : List ListItem) :
    CountedLists.find (sl.senseCase l) s (texts sl items) =
      items.findIdx? fun x => sl.same l s x.1 := by
  rw [CountedLists.find, texts, List.findIdx?_map]
  rfl

theorem write (h : Counts sl seqs ls r) {h' : ListHeap} {seqs' : ℕ → List ℕ}
    {items' : List ListItem} (hr' : Rep h' seqs' (ls.set l items'))
    (hsub : ∀ x ∈ items', 0 < x.1 ∧ x.1 ≤ sl.strings) (result : ℤ) :
    Counts (sl.done result h') seqs' (ls.set l items')
      { r with lists := r.lists.set l (texts sl items'), result := result } where
  rep := hr'
  lists := by
    rw [h.lists, List.map_set]
    rfl
  known := by
    intro items hitems x hx
    rcases List.mem_or_eq_of_mem_set hitems with hmem | rfl
    · exact h.known items hmem x hx
    · exact hsub x hx
  senseCase := h.senseCase
  result := rfl

theorem known_modify (hk : ∀ x ∈ items, 0 < x.1 ∧ x.1 ≤ sl.strings) (i : ℕ)
    (f : ListItem → ListItem) (hf : ∀ x, (f x).1 = x.1) :
    ∀ x ∈ items.modify i f, 0 < x.1 ∧ x.1 ≤ sl.strings := by
  intro x hx
  obtain ⟨j, hj, rfl⟩ := List.mem_iff_getElem.mp hx
  rw [List.getElem_modify]
  rw [List.length_modify] at hj
  split
  · rw [hf]
    exact hk _ (List.getElem_mem hj)
  · exact hk _ (List.getElem_mem hj)

theorem texts_modify {i : ℕ} (hlt : i < items.length)
    (hroom : ∀ x ∈ (texts sl items)[i]?, x.2 + 1 < 2 ^ 32) :
    texts sl (items.modify i fun x => (x.1, x.2 + 1)) =
      (texts sl items).modify i fun x => (x.1, x.2 + 1) := by
  have hx : (texts sl items)[i]? = some (sl.text items[i].1, items[i].2.toNat) := by
    rw [texts, List.getElem?_map, List.getElem?_eq_getElem hlt, Option.map_some]
  have hlast : items[i].2.toNat + 1 < 2 ^ 32 := hroom _ hx
  refine List.ext_getElem (by simp only [texts, List.length_map, List.length_modify]) ?_
  intro j hj hj'
  simp only [texts, List.getElem_map, List.getElem_modify]
  by_cases hij : i = j
  · subst hij
    rw [if_pos rfl, if_pos rfl, UInt32.toNat_add]
    exact congrArg (Prod.mk _) (Nat.mod_eq_of_lt hlast)
  · rw [if_neg hij, if_neg hij]

theorem pushString (h : Counts sl seqs ls r) (hi : ls[l]? = some items) (s : CString)
    {push : ListHeap → ℕ → ℕ → Option ListHeap} {pushItem : ListItem → List ListItem}
    (hpush : ∃ h' seqs', push sl.heap l (sl.strings + 1) = some h' ∧
      Rep h' seqs' (ls.set l (pushItem (sl.strings + 1, 1))))
    (hmem : ∀ x y, x ∈ pushItem y ↔ x = y ∨ x ∈ items) :
    ∃ sl' seqs' ls', sl.pushString push l s sl.heap = some sl' ∧ Counts sl' seqs' ls' { r with
        lists := r.lists.set l (texts sl' (pushItem (sl.strings + 1, 1))), result := 1 } ∧
      texts sl' items = texts sl items ∧ sl'.text (sl.strings + 1) = s := by
  obtain ⟨h', seqs', hrun, hr'⟩ := hpush
  generalize hsl : ({ sl.done 1 h' with
    text := update sl.text (sl.strings + 1) s
    strings := sl.strings + 1 } : StringLists2) = sl'
  have hnew : sl'.text = update sl.text (sl.strings + 1) s := by rw [← hsl]
  have htext : ∀ items' ∈ ls, texts sl' items' = texts sl items' := by
    intro items' hitems
    refine List.map_congr_left fun x hx => ?_
    have hle := (h.known items' hitems x hx).2
    rw [hnew, update_of_ne (by omega)]
  have hstrings : sl'.strings = sl.strings + 1 := by rw [← hsl]
  refine ⟨sl', seqs', ls.set l (pushItem (sl.strings + 1, 1)),
    by rw [StringLists2.pushString, hrun, Option.map_some, hsl], ⟨?_, ?_, ?_, ?_, ?_⟩,
    htext items (List.mem_of_getElem? hi), by rw [hnew, update_self]⟩
  · rw [← hsl]
    exact hr'
  · have hls : r.lists = ls.map (texts sl') := by
      rw [h.lists]
      exact List.map_congr_left fun items' hitems => (htext items' hitems).symm
    rw [List.map_set]
    exact congrArg (List.set · l _) hls
  · rw [hstrings]
    intro items' hitems x hx
    rcases List.mem_or_eq_of_mem_set hitems with hm | rfl
    · have := h.known items' hm x hx
      exact ⟨this.1, Nat.le_succ_of_le this.2⟩
    · rcases (hmem x _).mp hx with rfl | hx
      · exact ⟨Nat.succ_pos _, le_rfl⟩
      · have := h.known items (List.mem_of_getElem? hi) x hx
        exact ⟨this.1, Nat.le_succ_of_le this.2⟩
  · rw [← hsl]
    exact h.senseCase
  · rw [← hsl]
    rfl

theorem addString (h : Counts sl seqs ls r) (hi : ls[l]? = some items) (s : CString)
    (m : InsertMode) {push : ListHeap → ℕ → ℕ → Option ListHeap}
    {pushItem : ListItem → List ListItem} {pushText : List (CString × ℕ) → List (CString × ℕ)}
    (hpush : ∃ h' seqs', push sl.heap l (sl.strings + 1) = some h' ∧
      Rep h' seqs' (ls.set l (pushItem (sl.strings + 1, 1))))
    (hmem : ∀ x y, x ∈ pushItem y ↔ x = y ∨ x ∈ items)
    (htexts : ∀ sl' p, sl'.text p = s → texts sl' (pushItem (p, 1)) = pushText (texts sl' items))
    (hf : m = .reuse → StringOp2.Reusable sl l s) :
    ∃ sl' seqs' ls' r', StringLists2.addString push sl l s m = some sl' ∧
      r.write l (CountedLists.add (r.senseCase l) s m pushText) = some r' ∧
      Counts sl' seqs' ls' r' := by
  have hk := h.known items (List.mem_of_getElem? hi)
  obtain ⟨lp, hlp, -⟩ := h.rep.exists_listPtr hi
  obtain ⟨sl1, seqs1, ls1, hrun1, hc1, ht1, hs1⟩ := h.pushString hi s hpush hmem
  rw [htexts sl1 _ hs1, ht1] at hc1
  rw [CountedLists.write, h.getElem hi, Option.map_some]
  unfold StringLists2.addString CountedLists.add
  by_cases hm : m = .alwaysAdd
  · rw [if_pos hm]
    simp only [if_pos hm]
    exact ⟨sl1, seqs1, ls1, _, hrun1, rfl, hc1⟩
  · rw [if_neg hm]
    have hsame : CountedLists.find (r.senseCase l) s (texts sl items) =
        items.findIdx? fun x => sl.same l s x.1 := by rw [h.senseCase, find_texts]
    simp only [if_neg hm]
    rw [hsame, h.rep.getString_eq hlp hi]
    cases hfind : items.findIdx? fun x => sl.same l s x.1 with
    | none =>
        exact ⟨sl1, seqs1, ls1, _, hrun1, rfl, hc1⟩
    | some i =>
        have hlt : i < items.length := (List.findIdx?_eq_some_iff_getElem.mp hfind).1
        obtain ⟨x, hx, hitem⟩ := h.rep.getElem_dataPtr hlp hi hlt
        dsimp only
        rw [hx, Option.bind_eq_bind, Option.bind_some]
        dsimp only
        by_cases hd : m = .noDouble
        · rw [if_pos hd, if_pos hd, ListHeap.release_hold fun z hz =>
            Option.some.inj hz ▸ h.rep.links.used (List.mem_of_getElem? hx)]
          have hr := h.rep
          rw [← Rep.set_self hi] at hr
          exact ⟨_, _, _, _, rfl, rfl, h.write hr hk 0⟩
        · have hreuse : m = .reuse := by
            cases m <;> simp_all
          obtain ⟨hsh, hroom⟩ := hf hreuse i (by rw [h.items_eq hi, find_texts, hfind]; rfl)
          obtain ⟨seqs', hr'⟩ := h.rep.incLinkCount hlp hi hsh hlt
          rw [hx] at hr'
          rw [if_neg hd, if_neg hd]
          have hcount : texts sl (items.modify i fun x => (x.1, x.2 + 1)) =
              (texts sl items).modify i fun x => (x.1, x.2 + 1) :=
            texts_modify hlt (by rwa [h.items_eq hi] at hroom)
          have hc := h.write hr' (known_modify hk i (fun x => (x.1, x.2 + 1)) fun _ => rfl) 0
          rw [hcount] at hc
          exact ⟨_, _, _, _, rfl, rfl, hc⟩

theorem removeString (h : Counts sl seqs ls r) (hi : ls[l]? = some items) (s : CString)
    (hf : ∀ i ∈ CountedLists.find (sl.senseCase l) s (sl.items l),
      ((sl.items l)[i]?).map Prod.snd = some 1) :
    ∃ sl' seqs' ls' r', sl.removeString l s = some sl' ∧
      r.write l (CountedLists.remove (r.senseCase l) s) = some r' ∧ Counts sl' seqs' ls' r' := by
  have hk := h.known items (List.mem_of_getElem? hi)
  obtain ⟨lp, hlp, -⟩ := h.rep.exists_listPtr hi
  rw [h.items_eq hi, find_texts] at hf
  unfold StringLists2.removeString CountedLists.remove
  have hsame : CountedLists.find (r.senseCase l) s (texts sl items) =
      items.findIdx? fun x => sl.same l s x.1 := by rw [h.senseCase, find_texts]
  rw [CountedLists.write, h.getElem hi, Option.map_some, hsame, h.rep.getString_eq hlp hi]
  cases hfind : items.findIdx? fun x => sl.same l s x.1 with
  | none =>
      have hr := h.rep
      rw [← Rep.set_self hi] at hr
      have hc := h.write hr hk 0
      exact ⟨_, _, _, _, rfl, rfl, hc⟩
  | some i =>
      have hlt : i < items.length := (List.findIdx?_eq_some_iff_getElem.mp hfind).1
      obtain ⟨x, hx, hitem⟩ := h.rep.getElem_dataPtr hlp hi hlt
      have hone := hf i (by rw [hfind]; rfl)
      have hcount : items[i].2 = 1 := by
        rw [texts, List.getElem?_map, List.getElem?_eq_getElem hlt] at hone
        exact UInt32.toNat_inj.mp (Option.some.inj hone)
      have hlink : (sl.heap.hold (some x)).linkCount x = 1 := by
        rw [ListHeap.hold_linkCount, ← hcount, ← hitem]
        rfl
      have hlp' : (sl.heap.hold (some x)).lists[l]? = some lp := by
        rwa [ListHeap.hold_lists]
      obtain ⟨current, h', seqs', he, hr', -, hused⟩ :=
        (h.rep.hold (some x)).erase hlp' hi hx hlink
      have hsub : ∀ y ∈ items.eraseIdx i, 0 < y.1 ∧ y.1 ≤ sl.strings := fun y hy =>
        hk y (List.mem_of_mem_eraseIdx hy)
      have hc := h.write (hr'.release hused) hsub 1
      have hmap : texts sl (items.eraseIdx i) = (texts sl items).eraseIdx i :=
        (List.eraseIdx_map _ _ _).symm
      rw [hmap] at hc
      dsimp only
      rw [hx, if_pos hone, Option.bind_eq_bind, Option.bind_some]
      dsimp only
      rw [hlink, he]
      exact ⟨_, _, _, _, rfl, rfl, hc⟩

theorem hasString (h : Counts sl seqs ls r) (hi : ls[l]? = some items) (s : CString)
    (hf : (∃ x ∈ sl.items l, StringList.isSame (sl.senseCase l) s x.1 = true) ↔
      ∃ x ∈ sl.items l, StringList.isSame (sl.senseCase l) s x.1 = false) :
    ∃ sl' seqs' ls' r', sl.hasString l s = some sl' ∧
      r.write l (fun items => (if (CountedLists.find (r.senseCase l) s items).isSome then 1 else 0,
        items)) = some r' ∧ Counts sl' seqs' ls' r' := by
  have hk := h.known items (List.mem_of_getElem? hi)
  obtain ⟨lp, hlp, hitems⟩ := h.rep.exists_listPtr hi
  have hr := h.rep
  rw [← Rep.set_self hi] at hr
  have hlen : items.length = (seqs lp).length := by rw [hitems, List.length_map]
  have hfuel := h.rep.links.length_le lp
  have hloop := h.rep.hasStringLoop_eq hlp hi (sl.same l s) (fun x hx => (hk x hx).1.ne') items
    (@List.drop_zero _ items) (show items.length < sl.heap.entries + 1 by omega)
  rw [h.items_eq hi] at hf
  have hfound : (CountedLists.find (r.senseCase l) s (texts sl items)).isSome =
      items.any fun x => !sl.same l s x.1 := by
    rw [Bool.eq_iff_iff, h.senseCase, CountedLists.find, List.findIdx?_isSome, List.any_eq_true,
      List.any_eq_true, hf]
    simp only [texts, List.mem_map, exists_exists_and_eq_and, Bool.not_eq_true', StringLists2.same]
  unfold StringLists2.hasString
  rw [CountedLists.write, h.getElem hi, Option.map_some, hlp, Option.bind_eq_bind,
    Option.bind_some, h.rep.links.first_eq, List.head?_eq_getElem?, hfound]
  cases hs : (seqs lp)[0]? with
  | none =>
      have hnil : items = [] := List.length_eq_zero_iff.mp
        (hlen.trans (Nat.le_zero.mp (List.getElem?_eq_none_iff.mp hs)))
      have hc := h.write hr hk 0
      rw [hnil] at hc ⊢
      exact ⟨_, _, _, _, rfl, rfl, hc⟩
  | some x =>
      rw [hs] at hloop
      dsimp only
      rw [hloop, Option.bind_eq_bind, Option.bind_some]
      exact ⟨_, _, _, _, rfl, rfl, h.write hr hk _⟩

theorem push (h : Counts sl seqs ls r) {h' : ListHeap} {seqs' : ℕ → List ℕ}
    (hr' : Rep h' seqs' (ls ++ [items])) (hk : ∀ x ∈ items, 0 < x.1 ∧ x.1 ≤ sl.strings) (i : Bool) :
    Counts { sl.done 0 h' with senseCase := update sl.senseCase sl.heap.lists.length i } seqs'
      (ls ++ [items])
      ⟨r.lists ++ [texts sl items], update r.senseCase r.lists.length i, 0⟩ where
  rep := hr'
  lists := by
    rw [h.lists, List.map_append, List.map_singleton]
    rfl
  known := by
    intro items' hitems
    rcases List.mem_append.mp hitems with hmem | hmem
    · exact h.known items' hmem
    · rw [List.mem_singleton.mp hmem]
      exact hk
  senseCase := by
    have hlen : r.lists.length = sl.heap.lists.length := by
      rw [h.lists, List.length_map, h.rep.length_eq]
    rw [hlen, h.senseCase]
  result := rfl

theorem step (h : Counts sl seqs ls r) {o : StringOp2} (hf : o.Fits sl) :
    ∃ sl' seqs' ls' r', sl.step o = some sl' ∧ r.step o = some r' ∧ Counts sl' seqs' ls' r' := by
  have hget : ∀ {l}, l < sl.heap.lists.length → ∃ items, ls[l]? = some items := fun hl =>
    ⟨_, List.getElem?_eq_getElem (h.rep.length_eq ▸ hl)⟩
  cases o with
  | new =>
      have hc := h.push h.rep.new (fun x hx => absurd hx List.not_mem_nil) false
      exact ⟨_, _, _, _, rfl, rfl, hc⟩
  | dup l =>
      obtain ⟨items, hi⟩ := hget hf
      obtain ⟨h', seqs', hrun, hr'⟩ := h.rep.dup hi
      have hc := h.push hr' (h.known items (List.mem_of_getElem? hi)) (sl.senseCase l)
      refine ⟨_, seqs', _, ⟨r.lists ++ [texts sl items], _, 0⟩, ?_, ?_, hc⟩
      · rw [StringLists2.step, StringLists2.dup, hrun, Option.map_some]
      · rw [CountedLists.step, h.getElem hi, Option.map_some, h.senseCase]
  | setSenseCase l i =>
      refine ⟨_, seqs, ls, _, rfl, rfl, h.rep, h.lists, h.known, ?_, rfl⟩
      rw [h.senseCase]
  | appendString l s m =>
      obtain ⟨items, hi⟩ := hget hf.1
      refine @addString _ _ _ _ _ _ h hi s m _ (fun y => items ++ [y]) _ (h.rep.pushBack hi _)
        (fun x y => ?_) (fun sl' p hp => ?_) hf.2
      · rw [List.mem_append, List.mem_singleton, or_comm]
      · rw [texts, List.map_append, List.map_singleton, hp]
        rfl
  | insertString l s m =>
      obtain ⟨items, hi⟩ := hget hf.1
      refine @addString _ _ _ _ _ _ h hi s m _ (fun y => y :: items) _ (h.rep.pushFront hi _)
        (fun x y => List.mem_cons) (fun sl' p hp => ?_) hf.2
      rw [texts, List.map_cons, hp]
      rfl
  | removeString l s =>
      obtain ⟨items, hi⟩ := hget hf.1
      exact h.removeString hi s hf.2
  | hasString l s =>
      obtain ⟨items, hi⟩ := hget hf.1
      exact h.hasString hi s hf.2

end Counts

theorem Counts.init : Counts .init (fun _ => []) [] .init where
  rep := Rep.empty
  lists := rfl
  known _ hitems := absurd hitems List.not_mem_nil
  senseCase := rfl
  result := rfl

/-- Lists of strings, and copies of them, count their strings in every run of such calls. -/
theorem counted_of_fits (ops : List StringOp2)
    (hf : Along StringLists2.step (fun sl o => o.Fits sl) StringLists2.init ops) :
    ∀ pre, pre <+: ops → ∃ sl r, exec StringLists2.step StringLists2.init pre = some sl ∧
      exec CountedLists.step CountedLists.init pre = some r ∧ SeenAsCounted sl r := by
  rintro pre ⟨post, hpost⟩
  have hstep : ∀ sl r o, (∃ seqs ls, Counts sl seqs ls r) → StringOp2.Fits sl o →
      ∃ sl' r', sl.step o = some sl' ∧ r.step o = some r' ∧ ∃ seqs ls, Counts sl' seqs ls r' := by
    rintro sl r o ⟨seqs, ls, h⟩ ho
    obtain ⟨sl', seqs', ls', r', hrun, hrun', h'⟩ := h.step ho
    exact ⟨sl', r', hrun, hrun', seqs', ls', h'⟩
  obtain ⟨sl, r, hs, hr, ⟨seqs, ls, h⟩, -⟩ :=
    Along.simulation hstep ⟨_, _, Counts.init⟩ hf pre post hpost
  exact ⟨sl, r, hs, hr, h.seen⟩

/-- Two strings, one of them counted twice, in a list with a copy from which one goes. -/
theorem counted_of_fits_copy : ∃ sl r, exec StringLists2.step StringLists2.init
        [.new, .appendString 0 (ofBytes [97]) .noDouble,
          .insertString 0 (ofBytes [98]) .reuse,
          .appendString 0 (ofBytes [65]) .reuse, .dup 0,
          .hasString 1 (ofBytes [97]), .removeString 1 (ofBytes [98]),
          .removeString 0 (ofBytes [99])] = some sl ∧
      exec CountedLists.step CountedLists.init
        [.new, .appendString 0 (ofBytes [97]) .noDouble,
          .insertString 0 (ofBytes [98]) .reuse,
          .appendString 0 (ofBytes [65]) .reuse, .dup 0,
          .hasString 1 (ofBytes [97]), .removeString 1 (ofBytes [98]),
          .removeString 0 (ofBytes [99])] = some r ∧ SeenAsCounted sl r :=
  counted_of_fits _ (by decide) _ (List.prefix_refl _)

/-- The only string of a list is looked up: it is not there. -/
theorem not_counted_hasString : ¬ ∀ (ops : List StringOp2) (sl : StringLists2) (r : CountedLists),
      exec StringLists2.step StringLists2.init ops = some sl →
      exec CountedLists.step CountedLists.init ops = some r → SeenAsCounted sl r := by
  intro h
  have hs := h [.new, .appendString 0 (ofBytes [97]) .alwaysAdd,
    .hasString 0 (ofBytes [97])] _ _ rfl rfl
  have hresult : (0 : ℤ) = 1 := hs.result
  cases hresult

end Gwenhywfar
