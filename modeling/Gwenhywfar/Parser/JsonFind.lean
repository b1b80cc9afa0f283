import Gwenhywfar.Lib.Scan
import Gwenhywfar.Parser.Json
import Gwenhywfar.Parser.Path

/-! # Finding keys

* `findByTypeAndData`: `_findByTypeAndData`, which goes down into objects and arrays.
* `findByIdxTypeAndData`: `GWEN_JsonElement_FindByIdxTypeAndData`, which goes on among the siblings
  of the last element only.
* `enumerates_iff`: the elements of a name are found exactly as far as each of them has another one
  among or below the siblings behind it. -/

namespace Gwenhywfar

set_option maxRecDepth 4000

/-- Elements in memory from one on: a pointer to an element, with what can be reached from it; the
end is `NULL`, and so are empty data. -/
inductive JsonPtr where
  | null
  | elem (address : ℕ) (elementType : JsonType) (elementData : List UInt8)
      (firstChild next : JsonPtr)
deriving DecidableEq

namespace JsonPtr

open Text

/-- `GWEN_JsonElement_Tree2_GetFirstChild`. -/
def getFirstChild : JsonPtr → JsonPtr
  | null => null
  | elem _ _ _ firstChild _ => firstChild

/-- `GWEN_JsonElement_Tree2_GetNext`. -/
def getNext : JsonPtr → JsonPtr
  | null => null
  | elem _ _ _ _ next => next

/-- `strcasecmp` finds no difference. -/
def sameName (s s2 : List UInt8) : Bool := s.map toLower == s2.map toLower

/-- The data of an element are those that are looked for; without a name all are. -/
def isMatch (s data : List UInt8) : Bool := s == [] || (data != [] && sameName s data)

/-- Keys are also looked for below such an element. -/
def isContainer (elementType : JsonType) : Bool := elementType == .array || elementType == .object

/-- `_findByTypeAndData`, where the type 0 stands for all. -/
def findByTypeAndData (je : JsonPtr) (t : JsonType) (s : List UInt8) : JsonPtr :=
  match je with
  | null => null
  | elem address elementType elementData firstChild next =>
      if t = .unknown ∨ elementType = t then
        if isMatch s elementData then elem address elementType elementData firstChild next
        else next.findByTypeAndData t s
      else if t = .key ∧ isContainer elementType = true then
        if firstChild.findByTypeAndData t s ≠ null then firstChild.findByTypeAndData t s
        else next.findByTypeAndData t s
      else next.findByTypeAndData t s

/-- `GWEN_JsonElement_FindFirstByTypeAndData`. -/
def findFirstByTypeAndData (je : JsonPtr) (t : JsonType) (s : List UInt8) : JsonPtr :=
  je.getFirstChild.findByTypeAndData t s

/-- `GWEN_JsonElement_FindNextByTypeAndData`. -/
def findNextByTypeAndData (je : JsonPtr) (t : JsonType) (s : List UInt8) : JsonPtr :=
  je.getNext.findByTypeAndData t s

/-- The loop of `GWEN_JsonElement_FindByIdxTypeAndData`. -/
def findLoop (t : JsonType) (s : List UInt8) : (idx : ℕ) → JsonPtr → JsonPtr
  | 0, je => je
  | idx + 1, je => if je = null then null else findLoop t s idx (je.findNextByTypeAndData t s)

/-- `GWEN_JsonElement_FindByIdxTypeAndData`. -/
def findByIdxTypeAndData (jeSearch : JsonPtr) (t : JsonType) (s : List UInt8) (idx : ℕ) : JsonPtr :=
  findLoop t s idx (jeSearch.findFirstByTypeAndData t s)

/-- `_handlePath`; an index below 0 is never counted down to it. -/
def handlePath (entry : List UInt8) (data : JsonPtr) (idx : Int32) (_flags : UInt32)
    (_ : Unit) : Option JsonPtr × Unit :=
  if idx < 0 then (none, ())
  else
    let je := data.findByIdxTypeAndData .key entry idx.toInt.toNat
    (if je = null ∨ je.getFirstChild = null then none else some je.getFirstChild, ())

/-- `GWEN_JsonElement_GetElementByPath`. -/
def getElementByPath (je : JsonPtr) (path : List UInt8) (flags : UInt32) : Option JsonPtr :=
  (Path.handleWithIdx handlePath flags path je ()).1

/-! ### What is to be found -/

/-- The keys in document order, among the elements and below objects and arrays, whose data are
accepted. -/
def keys (accept : List UInt8 → Bool) : JsonPtr → List JsonPtr
  | null => []
  | elem address elementType elementData firstChild next =>
      (if elementType = .key then
        if accept elementData then [elem address elementType elementData firstChild next] else []
      else if isContainer elementType then firstChild.keys accept else []) ++ next.keys accept

def hasName (s data : List UInt8) : Bool := data != [] && sameName s data

def keysNamed (je : JsonPtr) (s : List UInt8) : List JsonPtr := je.getFirstChild.keys (hasName s)

def PathName (s : List UInt8) : Prop :=
  s ≠ [] ∧ (∀ c ∈ s.head?, isSpace c = false) ∧ ∀ c ∈ s, Path.isSlash c = false ∧ c ≠ code '['

/-- The path `name[idx]`. -/
def idxPath (s : List UInt8) (idx : Int32) : List UInt8 :=
  s ++ (code '[' :: (printInt idx ++ [code ']']))

/-- The key of this number is found, and the path leads to its first child. -/
def Enumerates (je : JsonPtr) (s : List UInt8) (idx : Int32) : Prop :=
  je.findByIdxTypeAndData .key s idx.toInt.toNat = ((je.keysNamed s)[idx.toInt.toNat]?).getD null ∧
    (PathName s → je.getElementByPath (idxPath s idx) 0 =
      (((je.keysNamed s)[idx.toInt.toNat]?).map getFirstChild).filter (· ≠ null))

/-- Each of the first keys has another one among the siblings behind it or below them. -/
def Continues (je : JsonPtr) (s : List UInt8) (idx : ℕ) : Prop :=
  ∀ j < idx, ∀ r ∈ (je.getFirstChild.keys (isMatch s))[j]?, r.getNext.keys (isMatch s) ≠ []

instance (je : JsonPtr) (s : List UInt8) (idx : ℕ) : Decidable (je.Continues s idx) :=
  inferInstanceAs (Decidable (∀ j < idx, ∀ r ∈ (je.getFirstChild.keys (isMatch s))[j]?,
    r.getNext.keys (isMatch s) ≠ []))

/-! ### Searching -/

section
variable {s : List UInt8} {accept : List UInt8 → Bool}

theorem ne_null_of_mem_keys : ∀ {je r : JsonPtr}, r ∈ je.keys accept → r ≠ null
  | null, r, h => by cases h
  | elem address elementType elementData firstChild next, r, h => by
      unfold keys at h
      rcases List.mem_append.mp h with h | h
      · split at h
        · split at h
          · rw [List.mem_singleton] at h
            exact h ▸ nofun
          · cases h
        · split at h
          · exact ne_null_of_mem_keys h
          · cases h
      · exact ne_null_of_mem_keys h

theorem keys_elem (address : ℕ) (elementType : JsonType) (elementData : List UInt8)
    (firstChild next : JsonPtr) : (elem address elementType elementData firstChild next).keys accept =
      (if elementType = .key then
        if accept elementData then [elem address elementType elementData firstChild next] else []
      else if isContainer elementType then firstChild.keys accept else []) ++ next.keys accept := by
  rw [keys]

/-- The first key in document order is found. -/
theorem findByTypeAndData_eq : ∀ je : JsonPtr, je.findByTypeAndData .key s =
    ((je.keys (isMatch s)).head?).getD null
  | null => rfl
  | elem address elementType elementData firstChild next => by
      have hchild := findByTypeAndData_eq firstChild
      have hnext := findByTypeAndData_eq next
      unfold findByTypeAndData keys
      by_cases hkey : elementType = .key
      · rw [if_pos (Or.inr hkey), if_pos hkey]
        by_cases hm : isMatch s elementData = true
        · rw [if_pos hm, if_pos hm]
          rfl
        · rw [if_neg hm, if_neg hm, hnext, List.nil_append]
      · rw [if_neg (by rintro (h | h) <;> [cases h; exact hkey h]), if_neg hkey]
        by_cases hc : isContainer elementType = true
        · rw [if_pos ⟨rfl, hc⟩, if_pos hc, hchild, hnext]
          cases hk : firstChild.keys (isMatch s) with
          | nil => rw [if_neg (by simp), List.nil_append]
          | cons r rs =>
              have hr : r ≠ null := ne_null_of_mem_keys (hk ▸ List.mem_cons_self)
              rw [List.head?_cons, Option.getD_some, if_pos hr, List.cons_append, List.head?_cons,
                Option.getD_some]
        · rw [if_neg fun h => hc h.2, if_neg hc, hnext, List.nil_append]

/-- The keys behind one of them begin with those among the siblings behind it. -/
theorem keys_getNext_initial : ∀ {je r : JsonPtr} {j : ℕ}, (je.keys accept)[j]? = some r →
    r.getNext.keys accept <+: (je.keys accept).drop (j + 1)
  | null, r, j, h => by cases h
  | elem address elementType elementData firstChild next, r, j, h => by
      rw [keys_elem] at h ⊢
      by_cases hkey : elementType = .key
      · rw [if_pos hkey] at h ⊢
        by_cases hm : accept elementData = true
        · rw [if_pos hm] at h ⊢
          cases j with
          | zero =>
              obtain rfl := Option.some.inj h
              exact List.prefix_refl _
          | succ j => exact @keys_getNext_initial next r j h
        · rw [if_neg hm, List.nil_append] at h ⊢
          exact @keys_getNext_initial next r j h
      · rw [if_neg hkey] at h ⊢
        by_cases hc : isContainer elementType = true
        · rw [if_pos hc] at h ⊢
          by_cases hj : j < (firstChild.keys accept).length
          · rw [List.getElem?_append_left hj] at h
            rw [List.drop_append_of_le_length hj]
            exact (@keys_getNext_initial firstChild r j h).trans (List.prefix_append _ _)
          · rw [List.getElem?_append_right (Nat.not_lt.mp hj)] at h
            have hprefix := keys_getNext_initial h
            have hsub : j + 1 - (firstChild.keys accept).length =
                j - (firstChild.keys accept).length + 1 := by omega
            rw [List.drop_append, List.drop_eq_nil_of_le (by omega), List.nil_append, hsub]
            exact hprefix
        · rw [if_neg hc, List.nil_append] at h ⊢
          exact @keys_getNext_initial next r j h

theorem findLoop_null (t : JsonType) (s : List UInt8) (idx : ℕ) : findLoop t s idx null = null := by
  cases idx <;> rfl

/-- From one key on the next ones are found until none is left among the siblings behind. -/
theorem findLoop_eq {je : JsonPtr} : ∀ {n j : ℕ} {r : JsonPtr},
    (je.keys (isMatch s))[j]? = some r → findLoop .key s n r =
      if ∀ i < n, ∀ r ∈ (je.keys (isMatch s))[j + i]?, r.getNext.keys (isMatch s) ≠ [] then
        ((je.keys (isMatch s))[j + n]?).getD null
      else null
  | 0, j, r, h => by
      rw [if_pos (by simp), Nat.add_zero, h]
      rfl
  | n + 1, j, r, h => by
      have hr : r ≠ null := ne_null_of_mem_keys (List.mem_of_getElem? h)
      unfold findLoop findNextByTypeAndData
      rw [if_neg hr, findByTypeAndData_eq]
      cases hnext : r.getNext.keys (isMatch s) with
      | nil =>
          rw [if_neg fun hall => hall 0 (Nat.succ_pos n) r h hnext]
          exact findLoop_null _ _ n
      | cons r' rs =>
          have hprefix := keys_getNext_initial h
          have hr' : (je.keys (isMatch s))[j + 1]? = some r' := by
            obtain ⟨t, ht⟩ := hprefix
            rw [hnext] at ht
            rw [← Nat.add_zero (j + 1), ← List.getElem?_drop, ← ht]
            rfl
          have hshift : ∀ i, j + 1 + i = j + (i + 1) := fun i => by omega
          rw [List.head?_cons, Option.getD_some, findLoop_eq hr']
          simp only [hshift]
          refine if_congr ⟨fun hall i hi r1 hr1 => ?_, fun hall i hi => ?_⟩ rfl rfl
          · cases i with
            | zero =>
                obtain rfl := Option.some.inj (h.symm.trans hr1)
                rw [hnext]
                exact List.cons_ne_nil _ _
            | succ i => exact hall i (Nat.lt_of_succ_lt_succ hi) r1 hr1
          · exact hall (i + 1) (Nat.succ_lt_succ hi)

/-- What is found, whatever follows the last key. -/
theorem findByIdxTypeAndData_eq (je : JsonPtr) (s : List UInt8) (n : ℕ) :
    je.findByIdxTypeAndData .key s n =
      if je.Continues s n then ((je.getFirstChild.keys (isMatch s))[n]?).getD null else null := by
  unfold findByIdxTypeAndData findFirstByTypeAndData
  rw [findByTypeAndData_eq]
  by_cases hkeys : je.getFirstChild.keys (isMatch s) = []
  · have hhead : ((je.getFirstChild.keys (isMatch s)).head?).getD null = null := by
      rw [hkeys]
      rfl
    rw [hhead, findLoop_null, hkeys]
    split <;> rfl
  · obtain ⟨r, rs, hcons⟩ := List.exists_cons_of_ne_nil hkeys
    have hr : (je.getFirstChild.keys (isMatch s))[0]? = some r := by
      rw [hcons]
      rfl
    have hhead : ((je.getFirstChild.keys (isMatch s)).head?).getD null = r := by
      rw [hcons]
      rfl
    rw [hhead, findLoop_eq hr]
    simp only [Nat.zero_add]
    rfl

theorem isMatch_eq (hs : s ≠ []) : isMatch s = hasName s := by
  funext data
  simp [isMatch, hasName, hs]

theorem keys_hasName_nil : ∀ je : JsonPtr, je.keys (hasName []) = []
  | null => rfl
  | elem address elementType elementData firstChild next => by
      have hnone : hasName [] elementData = false := by
        cases elementData <;> rfl
      rw [keys_elem, keys_hasName_nil firstChild, keys_hasName_nil next, hnone]
      simp

/-! ### Paths -/

theorem digits_of_nonneg {idx : Int32} (h : 0 ≤ idx.toInt) :
    ∀ c ∈ printInt idx, isDigit c = true := by
  unfold printInt
  by_cases h0 : idx.toInt = 0
  · rw [if_pos h0]
    exact fun c hc => List.mem_singleton.mp hc ▸ by decide
  · rw [if_neg h0, if_neg (by omega)]
    exact fun c hc => isDigit_of_mem_decimalDigits hc

theorem digit_chars (c : UInt8) : isDigit c = true → Path.isSlash c = false ∧ c ≠ code ']' := by
  have hall : ∀ c : UInt8, isDigit c = true → Path.isSlash c = false ∧ c ≠ code ']' := by
    decide
  exact hall c

theorem handleWithIdx_idxPath {δ : Type}
    (f : List UInt8 → δ → Int32 → UInt32 → Unit → Option δ × Unit) (hs : PathName s) {idx : Int32}
    (hidx : 0 ≤ idx.toInt) (data : δ) : (Path.handleWithIdx f 0 (idxPath s idx) data ()).1 =
      (f s data idx (Path.elementFlags 0 false true false) ()).1 := by
  obtain ⟨hne, hspace, hchars⟩ := hs
  obtain ⟨c, t, rfl⟩ := List.exists_cons_of_ne_nil hne
  have hdigits := digits_of_nonneg hidx
  have hslash : ∀ d ∈ idxPath (c :: t) idx, (!Path.isSlash d) = true := by
    intro d hd
    rcases List.mem_append.mp hd with hd | hd
    · rw [(hchars d hd).1]
      rfl
    rcases List.mem_cons.mp hd with rfl | hd
    · rfl
    rcases List.mem_append.mp hd with hd | hd
    · rw [(digit_chars d (hdigits d hd)).1]
      rfl
    · rw [List.mem_singleton.mp hd]
      rfl
  have hcons : idxPath (c :: t) idx = c :: (t ++ (code '[' :: (printInt idx ++ [code ']']))) := rfl
  have hsplit : Path.splitIndex (idxPath (c :: t) idx) = some (c :: t, idx) := by
    have hname := Scan.append_cons (· != code '[') (c :: t) (printInt idx ++ [code ']']) (code '[')
      (fun d hd => bne_iff_ne.mpr (hchars d hd).2) rfl
    have hindex := Scan.append_cons (· != code ']') (printInt idx) [] (code ']')
      (fun d hd => bne_iff_ne.mpr (digit_chars d (hdigits d hd)).2) rfl
    unfold Path.splitIndex idxPath
    rw [if_pos (by simp), hname.1, hname.2]
    dsimp only
    rw [List.tail_cons, if_pos (by simp), hindex.1, scanInt_printInt]
    rfl
  have hall := Scan.all (fun d => !Path.isSlash d) (idxPath (c :: t) idx) hslash
  have hfirst : Path.isSlash c = false := (hchars c List.mem_cons_self).1
  have hblank : isSpace c = false := hspace c rfl
  have hspaces : (idxPath (c :: t) idx).dropWhile isSpace = idxPath (c :: t) idx := by
    rw [hcons, List.dropWhile_cons_of_neg (by simp [hblank])]
  have hslashes : (idxPath (c :: t) idx).dropWhile Path.isSlash = idxPath (c :: t) idx := by
    rw [hcons, List.dropWhile_cons_of_neg (by simp [hfirst])]
  have hflags : Path.elementFlags 0 false (([] : List UInt8) == [])
      (([] : List UInt8) == [] && Db.has 0 Path.flagsVariable) =
        Path.elementFlags 0 false true false := by decide
  have hconvert : Path.convert (Path.elementFlags 0 false true false) false (c :: t) = c :: t :=
    if_neg (by decide)
  have hround : ∀ k, (Path.handleLoop f 0 (k + 1) (idxPath (c :: t) idx) false data ()).1 =
      (f (c :: t) data idx (Path.elementFlags 0 false true false) ()).1 := by
    intro k
    rw [hcons, Path.handleLoop, ← hcons, hall.1, hall.2]
    dsimp only
    rw [if_neg Bool.false_ne_true, if_neg (by decide), List.nil_append, hsplit]
    dsimp only
    rw [if_neg fun h => h.1 rfl, List.dropWhile_nil, hflags, hconvert]
    cases f (c :: t) data idx (Path.elementFlags 0 false true false) () with
    | mk res st =>
        cases res with
        | none => rfl
        | some r => cases k <;> rfl
  unfold Path.handleWithIdx
  dsimp only
  rw [hspaces, hslashes]
  have hlength : (idxPath (c :: t) idx).length =
      (t ++ (code '[' :: (printInt idx ++ [code ']']))).length + 1 := rfl
  rw [hlength]
  exact hround _

/-- A key is found by its number exactly when each key of the name before it has another one among
or below the siblings behind it. -/
theorem enumerates_iff (je : JsonPtr) (s : List UInt8) (idx : Int32) (hidx : 0 ≤ idx.toInt) :
    je.Enumerates s idx ↔
      s ≠ [] ∧ ((je.keysNamed s).length ≤ idx.toInt.toNat ∨ je.Continues s idx.toInt.toNat) ∨
        s = [] ∧ ((je.getFirstChild.keys (isMatch s)).length ≤ idx.toInt.toNat ∨
          ¬je.Continues s idx.toInt.toNat) := by
  have hpath : je.findByIdxTypeAndData .key s idx.toInt.toNat =
      ((je.keysNamed s)[idx.toInt.toNat]?).getD null → PathName s →
        je.getElementByPath (idxPath s idx) 0 =
          (((je.keysNamed s)[idx.toInt.toNat]?).map getFirstChild).filter (· ≠ null) := by
    intro hfind hs
    unfold getElementByPath
    rw [handleWithIdx_idxPath _ hs hidx]
    unfold handlePath
    rw [if_neg (by rw [Int32.lt_iff_toInt_lt]; simpa using hidx), hfind]
    cases hr : (je.keysNamed s)[idx.toInt.toNat]? with
    | none => rfl
    | some r =>
        have hne : r ≠ null := ne_null_of_mem_keys (List.mem_of_getElem? hr)
        by_cases hchild : r.getFirstChild = null <;> simp [hne, hchild, Option.filter]
  unfold Enumerates
  rw [and_iff_left_of_imp hpath, findByIdxTypeAndData_eq]
  by_cases hs : s = []
  · have hempty : je.keysNamed s = [] := by
      rw [hs]
      exact keys_hasName_nil _
    rw [hempty, or_iff_right (fun h => h.1 hs), and_iff_right hs]
    change (if _ then _ else null) = null ↔ _
    by_cases hc : je.Continues s idx.toInt.toNat
    · rw [if_pos hc, or_iff_left (not_not_intro hc)]
      cases hr : (je.getFirstChild.keys (isMatch s))[idx.toInt.toNat]? with
      | none => exact iff_of_true rfl (List.getElem?_eq_none_iff.mp hr)
      | some r =>
          have hne : r ≠ null := ne_null_of_mem_keys (List.mem_of_getElem? hr)
          have hlt := (List.getElem?_eq_some_iff.mp hr).1
          exact iff_of_false hne (Nat.not_le.mpr hlt)
    · rw [if_neg hc]
      exact iff_of_true rfl (Or.inr hc)
  · have hkeys : je.getFirstChild.keys (isMatch s) = je.keysNamed s := by
      rw [isMatch_eq hs]
      rfl
    rw [hkeys, or_iff_left (fun h => hs h.1), and_iff_right hs]
    by_cases hc : je.Continues s idx.toInt.toNat
    · rw [if_pos hc]
      exact iff_of_true rfl (Or.inr hc)
    · rw [if_neg hc, or_iff_left hc]
      cases hr : (je.keysNamed s)[idx.toInt.toNat]? with
      | none => exact iff_of_true rfl (List.getElem?_eq_none_iff.mp hr)
      | some r =>
          have hne : r ≠ null := ne_null_of_mem_keys (List.mem_of_getElem? hr)
          have hlt := (List.getElem?_eq_some_iff.mp hr).1
          exact iff_of_false hne.symm (Nat.not_le.mpr hlt)

end

def sampleKey (address : ℕ) (name : Char) (next : JsonPtr) : JsonPtr :=
  elem address .key (ascii [name]) null next

/-- The second of two keys of an object. -/
theorem enumerates_object :
    (elem 0 .object [] (sampleKey 1 'x' (sampleKey 2 'X' null)) null).Enumerates (ascii ['x']) 1 :=
  (enumerates_iff _ _ 1 (by decide)).mpr (Or.inl ⟨by decide, Or.inr (by decide)⟩)

/-- The key of the second object of an array is not found. -/
theorem not_enumerates_array : ¬∀ (je : JsonPtr) (s : List UInt8) (idx : Int32), 0 ≤ idx.toInt →
    je.Enumerates s idx := by
  intro h
  have hfind := (h (elem 0 .array [] (elem 1 .object [] (sampleKey 2 'x' null)
    (elem 3 .object [] (sampleKey 4 'x' null) null)) null) (ascii ['x']) 1 (by decide)).1
  revert hfind
  decide

end JsonPtr
end Gwenhywfar
