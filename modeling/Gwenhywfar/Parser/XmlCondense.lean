import Gwenhywfar.Parser.XmlBuffer
import Gwenhywfar.Parser.XmlCtx
import Mathlib.Data.List.DropRight

/-! # Condensing the data of XML

* `condense`: the compaction of the unescaped text in `GWEN_XmlCtxStore_AddData`.  The bytes that
  are written are never more than those that are read, so its two pointers do not meet.
* `squeeze`: every maximal run of blanks and control characters becomes one blank.
* `condensed_iff`: this is what a node of data contains, unless a reference is cut off or the skip
  of leading blanks stops at a NUL. -/

namespace Gwenhywfar.Xml

open Text

/-- `GWEN_XML_FLAGS_NO_CONDENSE`. -/
def flagsNoCondense : UInt32 := 0x0008

/-- `GWEN_XML_FLAGS_KEEP_CNTRL`. -/
def flagsKeepCntrl : UInt32 := 0x0010

/-- `GWEN_XML_FLAGS_KEEP_BLANKS`. -/
def flagsKeepBlanks : UInt32 := 0x0020

/-- `GWEN_XML_FLAGS_DEFAULT`. -/
def flagsDefault : UInt32 := 0x0083

/-- The variables of the loop: the bytes up to `dst`, and the two that remember a blank. -/
structure CondenseState where
  out : List UInt8
  lastWasBlank : Bool
  lastBlankPos : Option ℕ

def condenseLoop (flags : UInt32) : CondenseState → List UInt8 → CondenseState
  | st, [] => st
  | st, c :: s =>
      let c := if !has flags flagsKeepCntrl ∧ c < 32 then 32 else c
      if !has flags flagsNoCondense ∧ c = 32 then
        if st.lastWasBlank then condenseLoop flags st s
        else condenseLoop flags ⟨st.out ++ [c], true, some st.out.length⟩ s
      else condenseLoop flags ⟨st.out ++ [c], false, none⟩ s

def skipLeading (flags : UInt32) (buf : List UInt8) : List UInt8 :=
  if has flags flagsKeepBlanks then buf
  else if has flags flagsKeepCntrl then buf.dropWhile fun c => c == 32 || c == 9
  else buf.dropWhile fun c => c != 0 && c < 33

/-- The contents of the buffer behind the compaction. -/
def condense (flags : UInt32) (buf : List UInt8) : List UInt8 :=
  if !has flags flagsNoCondense ∨ has flags flagsKeepCntrl ∨ has flags flagsKeepBlanks then
    let st := condenseLoop flags ⟨[], false, none⟩ (skipLeading flags buf)
    match st.lastBlankPos with
    | some pos => st.out.take pos
    | none => st.out
  else buf

/-- `GWEN_XmlCtxStore_AddData`: the text of the node that is added, if one is.  There is no outcome
where the unescaping reads past the end of the text. -/
def addDataNode (flags : UInt32) (data : List UInt8) : Option (Option (List UInt8)) :=
  (unescapeXml data).map fun buf =>
    let buf := condense flags buf
    if buf = [] then none else some (buf.takeWhile (· != 0))

/-! ### Runs of blanks -/

/-- A blank or a control character. -/
def isGap (c : UInt8) : Bool := c ≤ 32

/-- Every maximal run of such bytes is replaced by one blank. -/
def squeeze : List UInt8 → List UInt8
  | [] => []
  | c :: s => if isGap c then 32 :: squeeze (s.dropWhile isGap) else c :: squeeze s
termination_by s => s.length
decreasing_by
  · exact Nat.lt_succ_of_le (List.dropWhile_suffix isGap).length_le
  · exact Nat.lt_succ_self _

/-- The text of a node: no blank at its ends, and one for each run inside. -/
def expectedData (u : List UInt8) : List UInt8 :=
  ((squeeze u).dropWhile (· == 32)).rdropWhile (· == 32)

section
variable {c : UInt8} {s u : List UInt8}

theorem squeeze_gap (hc : isGap c = true) :
    squeeze (c :: s) = 32 :: squeeze (s.dropWhile isGap) := by
  rw [squeeze, if_pos hc]

theorem squeeze_cons (hc : isGap c = false) : squeeze (c :: s) = c :: squeeze s := by
  rw [squeeze, if_neg (by simp [hc])]

theorem ne_blank_of_isGap (hc : isGap c = false) : c ≠ 32 := by
  rintro rfl
  exact absurd hc (by decide)

/-- What begins with a character that is no blank keeps it. -/
theorem squeeze_dropWhile (u : List UInt8) :
    (squeeze u).dropWhile (· == 32) = squeeze (u.dropWhile isGap) := by
  have hfront : ∀ v : List UInt8, (squeeze (v.dropWhile isGap)).dropWhile (· == 32) =
      squeeze (v.dropWhile isGap) := by
    intro v
    cases hv : v.dropWhile isGap with
    | nil => simp [squeeze]
    | cons c t =>
        have hc := List.head_dropWhile_not isGap (l := v) (by simp [hv])
        simp only [hv, List.head_cons] at hc
        rw [squeeze_cons hc, List.dropWhile_cons_of_neg (by simpa using ne_blank_of_isGap hc)]
  cases u with
  | nil => simp [squeeze]
  | cons c s =>
      by_cases hc : isGap c = true
      · rw [squeeze_gap hc, List.dropWhile_cons_of_pos (by simp), hfront,
          List.dropWhile_cons_of_pos hc]
      · simpa [hc] using hfront (c :: s)

/-! ### The loop -/

/-- The bytes that are read from a state on are squeezed; those of a run that has begun are left
out. -/
theorem byte_gap (hc : isGap c = true) :
    (if (!has flagsDefault flagsKeepCntrl) = true ∧ c < 32 then 32 else c) = 32 := by
  have hcntrl : has flagsDefault flagsKeepCntrl = false := by decide
  simp only [isGap, decide_eq_true_eq, UInt8.le_iff_toNat_le] at hc
  simp only [hcntrl, Bool.not_false, true_and, UInt8.lt_iff_toNat_lt, ← UInt8.toNat_inj]
  split_ifs with h
  · rfl
  · simp only [UInt8.reduceToNat] at h hc ⊢
    omega

theorem byte_keep (hc : isGap c = false) :
    (if (!has flagsDefault flagsKeepCntrl) = true ∧ c < 32 then 32 else c) = c := by
  rw [isGap, decide_eq_false_iff_not, UInt8.le_iff_toNat_le] at hc
  rw [if_neg]
  rintro ⟨-, h⟩
  rw [UInt8.lt_iff_toNat_lt] at h
  omega

theorem condenseLoop_out (st : CondenseState) (s : List UInt8) :
    (condenseLoop flagsDefault st s).out = st.out ++
      squeeze (if st.lastWasBlank then s.dropWhile isGap else s) := by
  have hcondense : has flagsDefault flagsNoCondense = false := by decide
  induction s generalizing st with
  | nil => simp [condenseLoop, squeeze]
  | cons c s ih =>
      rw [condenseLoop]
      cases hc : isGap c with
      | true =>
          simp only [byte_gap hc, hcondense, Bool.not_false, true_and, if_true]
          cases hlast : st.lastWasBlank with
          | true => simp [ih, hlast, hc]
          | false => simp [ih, squeeze_gap hc]
      | false =>
          simp only [byte_keep hc, ne_blank_of_isGap hc, and_false, if_false, ih]
          cases st.lastWasBlank <;> simp [hc, squeeze_cons hc]

/-- The blank that is remembered is the last byte, and it is the only one there. -/
def Ends (st : CondenseState) : Prop :=
  ∃ o : List UInt8, o.getLast? ≠ some 32 ∧
    (st = ⟨o ++ [32], true, some o.length⟩ ∨ st = ⟨o, false, none⟩)

theorem condenseLoop_ends {st : CondenseState} (h : Ends st) (s : List UInt8) :
    Ends (condenseLoop flagsDefault st s) := by
  have hcondense : has flagsDefault flagsNoCondense = false := by decide
  induction s generalizing st with
  | nil => exact h
  | cons c s ih =>
      obtain ⟨o, ho, hst⟩ := h
      rw [condenseLoop]
      cases hc : isGap c with
      | true =>
          simp only [byte_gap hc, hcondense, Bool.not_false, true_and, if_true]
          rcases hst with rfl | rfl
          · exact ih ⟨o, ho, Or.inl rfl⟩
          · exact ih ⟨o, ho, Or.inl rfl⟩
      | false =>
          have hne := ne_blank_of_isGap hc
          simp only [byte_keep hc, hne, and_false, if_false]
          exact ih ⟨st.out ++ [c], by simpa using hne, Or.inr rfl⟩

theorem rdropWhile_of_getLast? {o : List UInt8} (h : o.getLast? ≠ some 32) :
    o.rdropWhile (· == 32) = o := by
  rw [List.rdropWhile_eq_self_iff]
  intro hne
  rw [List.getLast?_eq_some_getLast hne, ne_eq, Option.some.injEq] at h
  simpa using h

theorem condense_default (buf : List UInt8) : condense flagsDefault buf =
      (squeeze (skipLeading flagsDefault buf)).rdropWhile (· == 32) := by
  have hout := condenseLoop_out ⟨[], false, none⟩ (skipLeading flagsDefault buf)
  obtain ⟨o, ho, hst⟩ :=
    condenseLoop_ends ⟨[], by simp, Or.inr rfl⟩ (skipLeading flagsDefault buf)
  rw [condense, if_pos (Or.inl (by decide))]
  simp only [List.nil_append, Bool.false_eq_true, if_false] at hout
  rw [← hout]
  rcases hst with hst | hst
  · simp only [hst, List.take_left]
    rw [List.rdropWhile_concat_pos _ _ _ (by simp), rdropWhile_of_getLast? ho]
  · simp only [hst]
    rw [rdropWhile_of_getLast? ho]

/-! ### The text of the node -/

/-- A NUL stands in front of the first character that is no blank. -/
def LeadingNul (u : List UInt8) : Prop := 0 ∈ u.takeWhile isGap ∧ u.dropWhile isGap ≠ []

/-- The skip ends behind the blanks, or at a NUL among them. -/
theorem skipLeading_cases (u : List UInt8) :
    (0 ∉ u.takeWhile isGap ∧ skipLeading flagsDefault u = u.dropWhile isGap) ∨
      (0 ∈ u.takeWhile isGap ∧ ∃ t, skipLeading flagsDefault u = 0 :: t ∧
        t.dropWhile isGap = u.dropWhile isGap) := by
  have hskip : ∀ v, skipLeading flagsDefault v = v.dropWhile fun c => c != 0 && c < 33 := by
    intro v
    rw [skipLeading, if_neg (by decide), if_neg (by decide)]
  rw [hskip]
  induction u with
  | nil => simp
  | cons c u ih =>
      by_cases h0 : c = 0
      · subst h0
        exact Or.inr ⟨by simp [isGap], u, by simp, by simp [isGap]⟩
      by_cases hc : isGap c = true
      · have hlt : c < 33 := by
          rw [isGap, decide_eq_true_eq, UInt8.le_iff_toNat_le] at hc
          rw [UInt8.lt_iff_toNat_lt]
          simp only [UInt8.reduceToNat] at hc ⊢
          omega
        simpa [h0, hc, hlt, Ne.symm h0] using ih
      · have hlt : ¬ c < 33 := by
          rw [isGap, decide_eq_true_eq, UInt8.le_iff_toNat_le] at hc
          rw [UInt8.lt_iff_toNat_lt]
          simp only [UInt8.reduceToNat] at hc ⊢
          omega
        exact Or.inl ⟨by simp [hc], by simp [hc, hlt]⟩

theorem expectedData_eq (u : List UInt8) :
    expectedData u = (squeeze (u.dropWhile isGap)).rdropWhile (· == 32) := by
  rw [expectedData, squeeze_dropWhile]

theorem expectedData_eq_nil_iff (u : List UInt8) :
    expectedData u = [] ↔ u.dropWhile isGap = [] := by
  rw [expectedData_eq]
  cases hu : u.dropWhile isGap with
  | nil => simp [squeeze]
  | cons c t =>
      have hc := List.head_dropWhile_not isGap (l := u) (by simp [hu])
      simp only [hu, List.head_cons] at hc
      rw [squeeze_cons hc, List.rdropWhile_eq_nil_iff]
      simpa using fun h => absurd h (ne_blank_of_isGap hc)

theorem rdropWhile_cons {o : List UInt8} (h : o.rdropWhile (· == 32) ≠ []) :
    (c :: o).rdropWhile (· == 32) = c :: o.rdropWhile (· == 32) := by
  have hne : o.reverse.dropWhile (· == 32) ≠ [] := by simpa [List.rdropWhile] using h
  simp [List.rdropWhile, List.dropWhile_append, hne]

theorem condense_eq_expected_iff (u : List UInt8) :
    condense flagsDefault u = expectedData u ↔ ¬LeadingNul u := by
  rw [condense_default, LeadingNul]
  rcases skipLeading_cases u with ⟨h0, hskip⟩ | ⟨h0, t, hskip, ht⟩
  · simp [hskip, h0, expectedData_eq]
  · rw [hskip, squeeze_gap (by decide), ht]
    have hnil := expectedData_eq_nil_iff u
    by_cases hu : u.dropWhile isGap = []
    · simp [hu, squeeze, expectedData_eq, List.rdropWhile_singleton]
    · refine iff_of_false ?_ fun h => h ⟨h0, hu⟩
      intro heq
      rw [expectedData_eq] at heq hnil
      rw [rdropWhile_cons fun h => hu (hnil.mp h)] at heq
      exact absurd (congrArg List.length heq) (by simp)

theorem length_squeeze_le (u : List UInt8) : (squeeze u).length ≤ u.length := by
  induction u using squeeze.induct with
  | case1 => simp [squeeze]
  | case2 c s hc ih =>
      rw [squeeze_gap hc, List.length_cons, List.length_cons]
      exact Nat.succ_le_succ (ih.trans (List.dropWhile_suffix isGap).length_le)
  | case3 c s hc ih =>
      rw [squeeze_cons (by simpa using hc), List.length_cons, List.length_cons]
      exact Nat.succ_le_succ ih

theorem squeeze_dropWhile_gap (u : List UInt8) :
    (squeeze (u.dropWhile isGap)).dropWhile isGap = squeeze (u.dropWhile isGap) := by
  cases hu : u.dropWhile isGap with
  | nil => simp [squeeze]
  | cons c t =>
      have hc := List.head_dropWhile_not isGap (l := u) (by simp [hu])
      simp only [hu, List.head_cons] at hc
      rw [squeeze_cons hc, List.dropWhile_cons_of_neg (by simp [hc])]

theorem squeeze_squeeze (u : List UInt8) : squeeze (squeeze u) = squeeze u := by
  induction u using squeeze.induct with
  | case1 => simp [squeeze]
  | case2 c s hc ih =>
      rw [squeeze_gap hc, squeeze_gap (by decide), squeeze_dropWhile_gap, ih]
  | case3 c s hc ih =>
      rw [squeeze_cons (by simpa using hc), squeeze_cons (by simpa using hc), ih]

theorem squeeze_front {o m : List UInt8} (h : squeeze (o ++ m) = o ++ m) : squeeze o = o := by
  induction o with
  | nil => simp [squeeze]
  | cons c o ih =>
      rw [List.cons_append] at h
      cases hc : isGap c with
      | false =>
          rw [squeeze_cons hc] at h ⊢
          rw [ih (List.cons.inj h).2]
      | true =>
          rw [squeeze_gap hc] at h ⊢
          obtain ⟨rfl, hrest⟩ := List.cons.inj h
          cases o with
          | nil => simp [squeeze]
          | cons d o =>
              have hd : isGap d = false := by
                by_contra hd
                have hlen := length_squeeze_le ((d :: o ++ m).dropWhile isGap)
                have hdrop := (List.dropWhile_suffix isGap (l := o ++ m)).length_le
                rw [hrest, List.cons_append,
                  List.dropWhile_cons_of_pos (by simpa using hd), List.length_cons] at hlen
                omega
              rw [List.cons_append, List.dropWhile_cons_of_neg (by simp [hd]),
                ← List.cons_append] at hrest
              rw [List.dropWhile_cons_of_neg (by simp [hd]), ih hrest]

theorem expectedData_eq_append (u : List UInt8) :
    ∃ m, squeeze (u.dropWhile isGap) = expectedData u ++ m := by
  obtain ⟨m, hm⟩ := List.rdropWhile_prefix (· == (32 : UInt8)) (squeeze (u.dropWhile isGap))
  exact ⟨m, by rw [expectedData_eq, hm]⟩

theorem expectedData_dropWhile (u : List UInt8) :
    (expectedData u).dropWhile isGap = expectedData u := by
  obtain ⟨m, hm⟩ := expectedData_eq_append u
  have hdrop := squeeze_dropWhile_gap u
  rw [hm] at hdrop
  cases he : expectedData u with
  | nil => rfl
  | cons c e =>
      rw [he, List.cons_append] at hdrop
      cases hc : isGap c with
      | false => rw [List.dropWhile_cons_of_neg (by simp [hc])]
      | true =>
          have hlen := (List.dropWhile_suffix isGap (l := e ++ m)).length_le
          rw [List.dropWhile_cons_of_pos hc] at hdrop
          have := congrArg List.length hdrop
          rw [List.length_cons] at this
          omega

theorem expectedData_idem (u : List UInt8) : expectedData (expectedData u) = expectedData u := by
  obtain ⟨m, hm⟩ := expectedData_eq_append u
  have hsqueeze : squeeze (expectedData u) = expectedData u := by
    apply squeeze_front (m := m)
    rw [← hm, squeeze_squeeze]
  rw [expectedData_eq (expectedData u), expectedData_dropWhile, hsqueeze, expectedData_eq u,
    List.rdropWhile_idempotent]

theorem zero_notMem_squeeze (u : List UInt8) : 0 ∉ squeeze u := by
  induction u using squeeze.induct with
  | case1 => simp [squeeze]
  | case2 c s hc ih => simpa [squeeze_gap hc] using ih
  | case3 c s hc ih =>
      have hne : c ≠ 0 := by
        rintro rfl
        exact hc (by decide)
      simpa [squeeze_cons (by simpa using hc), Ne.symm hne] using ih

theorem zero_notMem_expectedData (u : List UInt8) : 0 ∉ expectedData u := by
  rw [expectedData_eq]
  exact fun h => zero_notMem_squeeze _ ((List.rdropWhile_prefix _ _).subset h)

theorem zero_notMem_condense (u : List UInt8) : 0 ∉ condense flagsDefault u := by
  rw [condense_default]
  exact fun h => zero_notMem_squeeze _ ((List.rdropWhile_prefix _ _).subset h)

/-! ### The node -/

/-- The node has the text with a blank for each run and none at its ends, there is no node exactly
when that is empty, and adding the text of the node again gives the same node. -/
def Condensed (data : List UInt8) : Prop :=
  ∃ u, unescapeXml data = some u ∧
    addDataNode flagsDefault data =
      some (if expectedData u = [] then none else some (expectedData u)) ∧
    ∀ text, addDataNode flagsDefault data = some (some text) →
      addDataNode flagsDefault (escapeXml text) = some (some text)

theorem condensed_iff (data : List UInt8) : Condensed data ↔ endsInReference data = false ∧
      ∀ u, unescapeXml data = some u → ¬LeadingNul u := by
  rw [← unescapeXml_isSome]
  have hnode : ∀ d v, unescapeXml d = some v → addDataNode flagsDefault d =
      some (if condense flagsDefault v = [] then none else some (condense flagsDefault v)) := by
    intro d v hd
    have hnul : (condense flagsDefault v).takeWhile (· != 0) = condense flagsDefault v := by
      rw [List.takeWhile_eq_self_iff]
      intro c hc
      rw [bne_iff_ne]
      rintro rfl
      exact zero_notMem_condense v hc
    rw [addDataNode, hd, Option.map_some]
    dsimp only
    rw [hnul]
  constructor
  · rintro ⟨u, hu, hadd, -⟩
    refine ⟨by simp [hu], fun v hv => ?_⟩
    obtain rfl := Option.some.inj (hu.symm.trans hv)
    rw [hnode data u hu, Option.some.injEq] at hadd
    rw [← condense_eq_expected_iff]
    by_cases h1 : condense flagsDefault u = [] <;> by_cases h2 : expectedData u = []
    · rw [h1, h2]
    · simp [h1, h2] at hadd
    · simp [h1, h2] at hadd
    · simpa [h1, h2] using hadd
  · rintro ⟨hsome, hnul⟩
    obtain ⟨u, hu⟩ := Option.isSome_iff_exists.mp hsome
    have heq := (condense_eq_expected_iff u).mpr (hnul u hu)
    refine ⟨u, hu, by rw [hnode data u hu, heq], fun text htext => ?_⟩
    rw [hnode data u hu, heq, Option.some.injEq] at htext
    have htext' : expectedData u = text ∧ text ≠ [] := by
      by_cases h2 : expectedData u = []
      · simp [h2] at htext
      · rw [if_neg h2, Option.some.injEq] at htext
        exact ⟨htext, htext ▸ h2⟩
    obtain ⟨rfl, hne⟩ := htext'
    have hlead : ¬LeadingNul (expectedData u) := fun h =>
      zero_notMem_expectedData u (List.takeWhile_subset _ h.1)
    rw [hnode _ _ (unescapeXml_escapeXml _), (condense_eq_expected_iff _).mpr hlead,
      expectedData_idem, if_neg hne]

end

/-- A reference to the character 0 in front of a letter. -/
def nulText : List UInt8 := ascii ['&', '#', '0', ';', 'x']

/-- The NUL ends the skip, and a blank is left in front of the letter. -/
theorem not_condensed_nul : ¬Condensed nulText := by
  rintro ⟨u, hu, hadd, -⟩
  have htext : unescapeXml nulText = some [0, code 'x'] := by
    have hdigit : ∀ d ∈ [code '0'], isDigit d = true := by
      intro d hd
      rw [List.mem_singleton.mp hd]
      decide
    have href := @unescapeXml_reference [code '0'] [] (code ';') (code 'x') hdigit (by decide)
    have hvalue : referenceByte [code '0'] = 0 := by decide
    have hnil : unescapeXml [] = some [] := by rw [unescapeXml]
    rw [hnil, hvalue] at href
    exact href
  obtain rfl := Option.some.inj (htext.symm.trans hu)
  have hnode : addDataNode flagsDefault nulText = some (some [32, code 'x']) := by
    rw [addDataNode, htext, Option.map_some]
    decide
  have hexpected : expectedData [0, code 'x'] = [code 'x'] := by
    rw [expectedData_eq]
    simp [isGap, code, squeeze, List.rdropWhile]
  rw [hnode, hexpected] at hadd
  exact absurd hadd (by decide)
end Gwenhywfar.Xml
