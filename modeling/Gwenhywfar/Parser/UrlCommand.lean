import Gwenhywfar.Parser.UrlState

/-! # Command strings

A command string is a path with variables, each of which begins with a `?`.

* `fromCommandString`: `GWEN_Url_fromCommandString`, which skips the first `?` when there is no
  path.
* `toCommandString`: `GWEN_Url_toCommandString`, which prints the first value of a variable.
* `commandRoundTrips_iff`: the variables come back exactly when there is a path, or no variable, and
  the names are different. -/

namespace Gwenhywfar

set_option maxRecDepth 4000

namespace Url

open Text Db
open CString (ofBytes)

def isCommandVarChar (c : UInt8) : Bool := c != code '?' && c != code '='

def storeVar (url : Url) (name value : List UInt8) : Url :=
  if name ≠ [] then
    { url with vars := (setCharValue url.vars 0 flagsDefault (ofBytes name)
      (ofBytes value)).2 }
  else url

/-- The loop that reads variables; each round begins at a question mark. -/
def readCommandVars : ℕ → Url → List UInt8 → Url
  | k + 1, url, c :: s =>
      if c = code '?' then
        let name := s.takeWhile isCommandVarChar
        let behind := s.dropWhile isCommandVarChar
        let value := if behind.head? = some (code '=') then behind.tail.takeWhile (· != code '?')
          else []
        let rest := if behind.head? = some (code '=') then behind.tail.dropWhile (· != code '?')
          else behind
        readCommandVars k (storeVar url name value) rest
      else url
  | _, url, _ => url

/-- `GWEN_Url_fromCommandString`. -/
def fromCommandString (str : List UInt8) : Url :=
  let url := new.setVars (some (emptyGroup (ofBytes (ascii ['v', 'a', 'r', 's'])), 0))
  let (url, s) :=
    if str.head? = some (code '/') then
      (url.setPath (str.takeWhile (· != code '?')), str.dropWhile (· != code '?'))
    else
      -- a character is skipped here, the `?` of the first variable
      (url.setPath [code '/'], str.tail)
  { readCommandVars s.length url s with url := some str }

/-- `GWEN_Url_toCommandString`: the bytes that are appended. -/
def toCommandString (url : Url) : List UInt8 :=
  url.path.getD [] ++ (varsOf url.vars 0).flatMap varText

/-! ### Command strings and their variables -/

def valuesNamed (name : CString) (vars : List (CString × CString)) : List DbValue :=
  vars.filterMap fun v => if strcaseEq v.1 name then some (.char v.2) else none

/-- Names of letters, digits and underscores, and values without question marks. -/
structure CommandVars (vars : List (CString × CString)) : Prop where
  name : ∀ v ∈ vars, ∀ c ∈ v.1.bytes, (isAlnum c || c == code '_') = true
  value : ∀ v ∈ vars, code '?' ∉ v.2.bytes

/-- A path is empty, or it begins with a slash and has no question mark. -/
def CommandPath (path : List UInt8) : Prop :=
  (path = [] ∨ path.head? = some (code '/')) ∧ code '?' ∉ path

/-- All pairs are stored, and what is printed has the same path and variables. -/
def CommandRoundTrips (path : List UInt8) (vars : List (CString × CString)) : Prop :=
  let url := fromCommandString (path ++ varsText vars)
  let url' := fromCommandString url.toCommandString
  (∀ name, (findVals name (varsOf url.vars 0)).getD [] = valuesNamed name vars) ∧
    url'.path = some (if path = [] then [code '/'] else path) ∧
      varsOf url'.vars 0 = varsOf url.vars 0

/-- No two names are the same ignoring case. -/
def DifferentNames (vars : List (CString × CString)) : Prop :=
  vars.Pairwise fun v w => strcaseEq v.1 w.1 = false

/-! ### Groups of variables -/

section
variable {g : List (CString × List DbValue)} {vars : List (CString × CString)}

/-- Adds variables one after the other. -/
def addVars (g : List (CString × List DbValue)) (vars : List (CString × CString)) :
    List (CString × List DbValue) :=
  vars.foldl (fun g v => addVar v.1 (.char v.2) g) g

theorem strcaseEq_congr {s t u : CString} (h : strcaseEq s t = true) :
    strcaseEq s u = strcaseEq t u := by
  unfold strcaseEq
  rw [strcaseEq_iff.mp h]

theorem findVals_addVar (n m : CString) (x : DbValue) :
    ∀ g : List (CString × List DbValue), (findVals n (addVar m x g)) =
      if strcaseEq m n then some ((findVals n g).getD [] ++ [x]) else findVals n g
  | [] => by
      simp only [addVar, findVals]
      rfl
  | (k, vs) :: g => by
      have ih := findVals_addVar n m x g
      unfold addVar
      by_cases hkm : strcaseEq k m = true
      · rw [if_pos hkm]
        simp only [findVals, strcaseEq_congr hkm]
        split <;> rfl
      · rw [if_neg hkm]
        simp only [findVals, ih]
        by_cases hkn : strcaseEq k n = true
        · have hmn : ¬strcaseEq m n = true := fun hmn => hkm (by
            rw [strcaseEq_congr hkn]
            exact strcaseEq_iff.mpr (strcaseEq_iff.mp hmn).symm)
          rw [if_pos hkn, if_neg hmn, if_pos hkn]
        · rw [if_neg hkn, if_neg hkn]

theorem findVals_addVars (n : CString) : ∀ (vars : List (CString × CString))
    (g : List (CString × List DbValue)),
    (findVals n (addVars g vars)).getD [] = (findVals n g).getD [] ++ valuesNamed n vars
  | [], g => (List.append_nil _).symm
  | v :: vars, g => by
      have ih := findVals_addVars n vars (addVar v.1 (.char v.2) g)
      change (findVals n (addVars (addVar v.1 (.char v.2) g) vars)).getD [] = _
      rw [ih, findVals_addVar]
      unfold valuesNamed
      rw [List.filterMap_cons]
      by_cases hv : strcaseEq v.1 n = true
      · simp [hv]
      · simp [hv]

theorem addVar_new {m : CString} (x : DbValue) : ∀ {g : List (CString × List DbValue)},
    findVals m g = none → addVar m x g = g ++ [(m, [x])]
  | [], _ => rfl
  | (k, vs) :: g, h => by
      unfold findVals at h
      split at h
      · cases h
      · next hk => rw [addVar, if_neg hk, addVar_new x h, List.cons_append]

theorem addVars_different : ∀ {vars : List (CString × CString)}
    {g : List (CString × List DbValue)}, DifferentNames vars →
      (∀ v ∈ vars, findVals v.1 g = none) →
        addVars g vars = g ++ vars.map fun v => (v.1, [.char v.2])
  | [], g, _, _ => (List.append_nil g).symm
  | v :: vars, g, hd, hnone => by
      obtain ⟨hv, hd⟩ := List.pairwise_cons.mp hd
      have hnew := addVar_new (.char v.2) (hnone v List.mem_cons_self)
      have hrest : ∀ w ∈ vars, findVals w.1 (addVar v.1 (.char v.2) g) = none := by
        intro w hw
        rw [findVals_addVar, if_neg (by simp [hv w hw])]
        exact hnone w (List.mem_cons_of_mem _ hw)
      change addVars (addVar v.1 (.char v.2) g) vars = _
      rw [addVars_different hd hrest, hnew, List.append_assoc]
      rfl

theorem mem_of_findVals {n : CString} {vs : List DbValue} :
    ∀ {g : List (CString × List DbValue)}, findVals n g = some vs → ∃ v ∈ g, v.2 = vs
  | (k, ws) :: g, h => by
      unfold findVals at h
      split at h
      · exact ⟨_, List.mem_cons_self, Option.some.inj h⟩
      · obtain ⟨v, hv, heq⟩ := mem_of_findVals h
        exact ⟨v, List.mem_cons_of_mem _ hv, heq⟩

theorem findVals_eq_none {n : CString} : ∀ {g : List (CString × List DbValue)},
    findVals n g = none ↔ ∀ v ∈ g, strcaseEq v.1 n = false
  | [] => by simp [findVals]
  | (k, ws) :: g => by
      unfold findVals
      rw [List.forall_mem_cons, ← findVals_eq_none]
      cases hk : strcaseEq k n <;> simp

/-- The variables of a group after one has been added: their names, and where the values are from. -/
theorem mem_addVar {m : CString} {x : DbValue} {v : CString × List DbValue} :
    ∀ {g : List (CString × List DbValue)}, v ∈ addVar m x g →
      v ∈ g ∨ (∃ w ∈ g, v = (w.1, w.2 ++ [x])) ∨ v = (m, [x])
  | [], h => by
      rw [addVar, List.mem_singleton] at h
      exact Or.inr (Or.inr h)
  | (k, ws) :: g, h => by
      unfold addVar at h
      split at h
      · rcases List.mem_cons.mp h with rfl | h
        · exact Or.inr (Or.inl ⟨_, List.mem_cons_self, rfl⟩)
        · exact Or.inl (List.mem_cons_of_mem _ h)
      · rcases List.mem_cons.mp h with rfl | h
        · exact Or.inl List.mem_cons_self
        · rcases mem_addVar h with h | ⟨w, hw, h⟩ | h
          · exact Or.inl (List.mem_cons_of_mem _ h)
          · exact Or.inr (Or.inl ⟨w, List.mem_cons_of_mem _ hw, h⟩)
          · exact Or.inr (Or.inr h)

theorem pairwise_addVar (m : CString) (x : DbValue) :
    ∀ {g : List (CString × List DbValue)},
      g.Pairwise (fun v w => strcaseEq v.1 w.1 = false) →
        (addVar m x g).Pairwise (fun v w => strcaseEq v.1 w.1 = false)
  | [], _ => List.pairwise_singleton _ _
  | (k, ws) :: g, hg => by
      obtain ⟨hk, hrest⟩ := List.pairwise_cons.mp hg
      unfold addVar
      split
      · exact List.pairwise_cons.mpr ⟨hk, hrest⟩
      · next hkm =>
          refine List.pairwise_cons.mpr ⟨fun v hv => ?_, pairwise_addVar m x hrest⟩
          rcases mem_addVar hv with hv | ⟨w, hw, rfl⟩ | rfl
          · exact hk v hv
          · exact hk w hw
          · exact Bool.eq_false_iff.mpr hkm

/-- What is known of the variables of a group: a name and values of the pairs that were stored. -/
structure Stored (vars : List (CString × CString)) (g : List (CString × List DbValue)) : Prop where
  names : g.Pairwise fun v w => strcaseEq v.1 w.1 = false
  name : ∀ v ∈ g, ∃ w ∈ vars, w.1 = v.1
  value : ∀ v ∈ g, ∀ x ∈ v.2, ∃ w ∈ vars, x = .char w.2
  values : ∀ v ∈ g, v.2 ≠ []

theorem stored_addVars {all : List (CString × CString)} : ∀ {vars : List (CString × CString)}
    {g : List (CString × List DbValue)}, Stored all g → (∀ v ∈ vars, v ∈ all) →
      Stored all (addVars g vars)
  | [], _, h, _ => h
  | v :: vars, g, h, hall => by
      have hv := hall v List.mem_cons_self
      refine @stored_addVars all vars (addVar v.1 (.char v.2) g)
        ⟨pairwise_addVar _ _ h.names, fun w hw => ?_, fun w hw x hx => ?_, fun w hw => ?_⟩
        fun w hw => hall w (List.mem_cons_of_mem _ hw)
      · rcases mem_addVar hw with hw | ⟨u, hu, rfl⟩ | rfl
        · exact h.name w hw
        · exact h.name u hu
        · exact ⟨v, hv, rfl⟩
      · rcases mem_addVar hw with hw | ⟨u, hu, rfl⟩ | rfl
        · exact h.value w hw x hx
        · rcases List.mem_append.mp hx with hx | hx
          · exact h.value u hu x hx
          · exact ⟨v, hv, List.mem_singleton.mp hx⟩
        · exact ⟨v, hv, List.mem_singleton.mp hx⟩
      · rcases mem_addVar hw with hw | ⟨u, -, rfl⟩ | rfl
        · exact h.values w hw
        · simp
        · simp

theorem stored_nil (vars : List (CString × CString)) : Stored vars [] :=
  ⟨List.Pairwise.nil, nofun, nofun, nofun⟩

/-- Values that are found once each are those of different names. -/
theorem differentNames_of_valuesNamed : ∀ {vars : List (CString × CString)},
    (∀ name, (valuesNamed name vars).length ≤ 1) → DifferentNames vars
  | [], _ => List.Pairwise.nil
  | v :: vars, h => by
      have hcons : ∀ name, valuesNamed name (v :: vars) =
          (if strcaseEq v.1 name then [.char v.2] else []) ++ valuesNamed name vars := by
        intro name
        unfold valuesNamed
        rw [List.filterMap_cons]
        split <;> simp_all
      refine List.pairwise_cons.mpr ⟨fun w hw => ?_, differentNames_of_valuesNamed fun name => ?_⟩
      · rw [Bool.eq_false_iff]
        intro heq
        have hle := h w.1
        rw [hcons, if_pos heq, List.length_append, List.length_singleton] at hle
        have hmem : DbValue.char w.2 ∈ valuesNamed w.1 vars :=
          List.mem_filterMap.mpr ⟨w, hw, if_pos (strcaseEq_self w.1)⟩
        have hpos := List.length_pos_of_mem hmem
        omega
      · have hle := h name
        rw [hcons, List.length_append] at hle
        omega

def printedVar (v : CString × List DbValue) : CString × CString :=
  (v.1, match v.2 with
    | .char s :: _ => s
    | _ => ofBytes [])

theorem Stored.flatMap_varText (h : Stored vars g) :
    g.flatMap varText = varsText (g.map printedVar) := by
  unfold varsText
  rw [List.flatMap_map]
  refine List.flatMap_congr fun v hv => ?_
  obtain ⟨x, xs, hx⟩ := List.exists_cons_of_ne_nil (h.values v hv)
  obtain ⟨w, -, rfl⟩ := h.value v hv x (by rw [hx]; exact List.mem_cons_self)
  unfold varText printedVar
  rw [hx]

/-- Printed variables are as plain as those that were stored. -/
theorem Stored.printed (h : Stored vars g) (hvars : CommandVars vars)
    (hne : ∀ v ∈ vars, v.1.bytes ≠ []) :
    CommandVars (g.map printedVar) ∧ (∀ v ∈ g.map printedVar, v.1.bytes ≠ []) ∧
      DifferentNames (g.map printedVar) := by
  refine ⟨⟨fun v hv => ?_, fun v hv => ?_⟩, fun v hv => ?_, ?_⟩
  · obtain ⟨u, hu, rfl⟩ := List.mem_map.mp hv
    obtain ⟨w, hw, hname⟩ := h.name u hu
    exact hname ▸ hvars.name w hw
  · obtain ⟨u, hu, rfl⟩ := List.mem_map.mp hv
    obtain ⟨x, xs, hx⟩ := List.exists_cons_of_ne_nil (h.values u hu)
    obtain ⟨w, hw, rfl⟩ := h.value u hu x (by rw [hx]; exact List.mem_cons_self)
    unfold printedVar
    rw [hx]
    exact hvars.value w hw
  · obtain ⟨u, hu, rfl⟩ := List.mem_map.mp hv
    obtain ⟨w, hw, hname⟩ := h.name u hu
    exact hname ▸ hne w hw
  · exact List.pairwise_map.mpr h.names

/-! ### Reading variables -/

/-- Variables are stored one after the other. -/
def storeVars (url : Url) (vars : List (CString × CString)) : Url :=
  vars.foldl (fun url v => storeVar url v.1.bytes v.2.bytes) url

theorem commandChars (c : UInt8) : (isAlnum c || c == code '_') = true →
    isCommandVarChar c = true ∧ isPlainChar c = true := by
  have hall : ∀ c : UInt8, (isAlnum c || c == code '_') = true →
      isCommandVarChar c = true ∧ isPlainChar c = true := by decide
  exact hall c

theorem varsText_cons (v : CString × CString) (vars : List (CString × CString)) :
    varsText (v :: vars) = code '?' :: (v.1.bytes ++ code '=' :: (v.2.bytes ++ varsText vars)) := by
  unfold varsText
  simp only [List.flatMap_cons, List.cons_append, List.append_assoc]

theorem head_varsText (vars : List (CString × CString)) :
    ∀ c ∈ (varsText vars).head?, (c != code '?') = false := by
  intro c hc
  cases vars with
  | nil => cases hc
  | cons v vars =>
      rw [varsText_cons, List.head?_cons] at hc
      cases hc
      rfl

theorem readCommandVars_varsText : ∀ {vars : List (CString × CString)} {k : ℕ} (url : Url),
    CommandVars vars → (varsText vars).length ≤ k →
      readCommandVars k url (varsText vars) = storeVars url vars
  | [], k, url, _, _ => by cases k <;> rfl
  | v :: vars, k, url, h, hk => by
      rw [varsText_cons] at hk ⊢
      rw [List.length_cons] at hk
      obtain ⟨k, rfl⟩ := Nat.exists_eq_add_one.mpr (Nat.lt_of_lt_of_le (Nat.succ_pos _) hk)
      have hscan := Scan.append_cons isCommandVarChar v.1.bytes (v.2.bytes ++ varsText vars)
        (code '=') (fun c hc => (commandChars c (h.name v List.mem_cons_self c hc)).1) rfl
      have hvalue := Scan.append (· != code '?') v.2.bytes (varsText vars)
        (fun c hc => bne_iff_ne.mpr fun heq => h.value v List.mem_cons_self (heq ▸ hc))
        (head_varsText vars)
      rw [readCommandVars, if_pos rfl, hscan.1, hscan.2]
      dsimp only
      rw [List.head?_cons, if_pos rfl, if_pos rfl, List.tail_cons, hvalue.1, hvalue.2]
      refine readCommandVars_varsText _ ⟨fun w hw => h.name w (List.mem_cons_of_mem _ hw),
        fun w hw => h.value w (List.mem_cons_of_mem _ hw)⟩ ?_
      simp only [List.length_append, List.length_cons] at hk
      omega

/-- The pairs that are stored are those with a name. -/
def named (vars : List (CString × CString)) : List (CString × CString) :=
  vars.filter fun v => v.1.bytes ≠ []

theorem named_cons (v : CString × CString) (vars : List (CString × CString)) :
    named (v :: vars) = (if v.1.bytes ≠ [] then [v] else []) ++ named vars := by
  unfold named
  rw [List.filter_cons]
  split <;> simp_all

theorem storeVars_spec : ∀ {vars : List (CString × CString)} {url : Url}, CommandVars vars →
    IsGroup url.vars 0 →
      (storeVars url vars).path = url.path ∧
        varsOf (storeVars url vars).vars 0 = addVars (varsOf url.vars 0) (named vars)
  | [], _, _, _ => ⟨rfl, rfl⟩
  | v :: vars, url, h, hg => by
      have hrest : CommandVars vars := ⟨fun w hw => h.name w (List.mem_cons_of_mem _ hw),
        fun w hw => h.value w (List.mem_cons_of_mem _ hw)⟩
      change (storeVars (storeVar url v.1.bytes v.2.bytes) vars).path = _ ∧
        varsOf (storeVars (storeVar url v.1.bytes v.2.bytes) vars).vars 0 = _
      rw [named_cons]
      unfold storeVar
      by_cases hne : v.1.bytes ≠ []
      · rw [if_pos hne, if_pos hne, CString.ofBytes_eq, CString.ofBytes_eq]
        obtain ⟨hg', -, hvars⟩ := varsOf_setValue
          (fun c hc => (commandChars c (h.name v List.mem_cons_self c hc)).2) hne hg (.char v.2)
        obtain ⟨hpath, hstored⟩ := @storeVars_spec vars { url with
          vars := (setCharValue url.vars 0 flagsDefault v.1 v.2).2 } hrest hg'
        refine ⟨hpath, hstored.trans ?_⟩
        change addVars (varsOf (setValue url.vars 0 flagsDefault v.1 (.char v.2)).2 0) _ = _
        rw [hvars]
        rfl
      · rw [if_neg hne, if_neg hne]
        exact storeVars_spec hrest hg

theorem groupDup_emptyGroup (name : CString) : groupDup (emptyGroup name) 0 = emptyGroup name := by
  unfold groupDup emptyGroup newNode
  congr 1
  funext a
  simp only [Equiv.swap_self, Equiv.refl_apply, Function.update_apply]
  split <;> rfl

theorem fromCommandString_path {path : List UInt8} (hpath : CommandPath path) (hne : path ≠ [])
    (h : CommandVars vars) : (fromCommandString (path ++ varsText vars)).path = some path ∧
      varsOf (fromCommandString (path ++ varsText vars)).vars 0 = addVars [] (named vars) := by
  have hslash : path.head? = some (code '/') := hpath.1.resolve_left hne
  have hscan := Scan.append (· != code '?') path (varsText vars)
    (fun c hc => bne_iff_ne.mpr fun heq => hpath.2 (heq ▸ hc)) (head_varsText vars)
  have hhead : (path ++ varsText vars).head? = some (code '/') := by
    obtain ⟨c, p, rfl⟩ := List.exists_cons_of_ne_nil hne
    exact hslash
  unfold fromCommandString
  dsimp only
  rw [if_pos hhead, hscan.1, hscan.2]
  dsimp only
  rw [readCommandVars_varsText _ h le_rfl]
  have hgroup : IsGroup (groupDup (emptyGroup (ofBytes (ascii ['v', 'a', 'r', 's']))) 0)
      0 := by
    rw [groupDup_emptyGroup]
    exact isGroup_emptyGroup _
  obtain ⟨hp, hvars⟩ := @storeVars_spec vars ((new.setVars (some (emptyGroup
    (ofBytes (ascii ['v', 'a', 'r', 's'])), 0))).setPath path) h hgroup
  refine ⟨hp.trans (if_neg hne), hvars.trans ?_⟩
  change addVars (varsOf (groupDup (emptyGroup _) 0) 0) _ = _
  rw [groupDup_emptyGroup, varsOf_emptyGroup]

theorem fromCommandString_vars (h : CommandVars vars) :
    (fromCommandString (varsText vars)).path = some [code '/'] ∧
      varsOf (fromCommandString (varsText vars)).vars 0 = [] := by
  have hhead : ¬(varsText vars).head? = some (code '/') := by
    intro heq
    have hc := head_varsText vars (code '/') heq
    cases hc
  have hnone : ∀ url, readCommandVars (varsText vars).tail.length url (varsText vars).tail =
      url := by
    intro url
    cases hrest : (varsText vars).tail with
    | nil => rfl
    | cons c s =>
        have hc : c ≠ code '?' := by
          rintro rfl
          cases vars with
          | nil => cases hrest
          | cons v vars =>
              rw [varsText_cons, List.tail_cons] at hrest
              cases hname : v.1.bytes with
              | nil =>
                  rw [hname] at hrest
                  cases hrest
              | cons d name =>
                  rw [hname] at hrest
                  obtain ⟨rfl, -⟩ := List.cons.inj hrest
                  have hd := h.name v List.mem_cons_self (code '?') (by
                    rw [hname]
                    exact List.mem_cons_self)
                  cases hd
        rw [List.length_cons, readCommandVars, if_neg hc]
  unfold fromCommandString
  dsimp only
  rw [if_neg hhead]
  dsimp only
  rw [hnone]
  refine ⟨rfl, ?_⟩
  change varsOf (groupDup (emptyGroup _) 0) 0 = _
  rw [groupDup_emptyGroup, varsOf_emptyGroup]

theorem findVals_empty {name : CString} (hname : name.bytes = [])
    (hne : ∀ v ∈ g, v.1.bytes ≠ []) : findVals name g = none := by
  refine findVals_eq_none.mpr fun v hv => ?_
  rw [Bool.eq_false_iff]
  intro heq
  have hbytes := strcaseEq_iff.mp heq
  rw [hname, List.map_nil, List.map_eq_nil_iff] at hbytes
  exact hne v hv hbytes

end

/-! ### Round trips -/

variable {path : List UInt8} {vars : List (CString × CString)}

theorem reread (hpath : CommandPath path) (hne : path ≠ []) (h : CommandVars vars)
    (hnames : ∀ v ∈ vars, v.1.bytes ≠ []) {url : Url} (hp : url.path = some path)
    (hvars : varsOf url.vars 0 = addVars [] vars) :
    (fromCommandString url.toCommandString).path = some path ∧
      varsOf (fromCommandString url.toCommandString).vars 0 =
        (addVars [] vars).map fun v => (v.1, [.char (printedVar v).2]) := by
  have hstored : Stored vars (addVars [] vars) := stored_addVars (stored_nil vars) fun _ hv => hv
  obtain ⟨hplain, hne', hdifferent⟩ := hstored.printed h hnames
  have htext : url.toCommandString = path ++ varsText ((addVars [] vars).map printedVar) := by
    rw [toCommandString, hp, Option.getD_some, hvars, hstored.flatMap_varText]
  have hnamed : named ((addVars [] vars).map printedVar) = (addVars [] vars).map printedVar :=
    List.filter_eq_self.mpr fun v hv => decide_eq_true (hne' v hv)
  obtain ⟨hpath', hvars'⟩ := fromCommandString_path hpath hne hplain
  rw [htext]
  refine ⟨hpath', hvars'.trans ?_⟩
  rw [hnamed, addVars_different hdifferent (fun _ _ => rfl), List.nil_append, List.map_map]
  rfl

theorem mem_valuesNamed {v : CString × CString} (hv : v ∈ vars) :
    DbValue.char v.2 ∈ valuesNamed v.1 vars :=
  List.mem_filterMap.mpr ⟨v, hv, if_pos (strcaseEq_self v.1)⟩

theorem named_of_stored
    (h : ∀ name, (findVals name (addVars [] (named vars))).getD [] = valuesNamed name vars) :
    ∀ v ∈ vars, v.1.bytes ≠ [] := by
  intro v hv hname
  have hstored : Stored (named vars) (addVars [] (named vars)) :=
    stored_addVars (stored_nil _) fun _ hw => hw
  have hmem := mem_valuesNamed hv
  rw [← h v.1, findVals_empty hname] at hmem
  · cases hmem
  · intro w hw
    obtain ⟨u, hu, hname⟩ := hstored.name w hw
    rw [← hname]
    exact of_decide_eq_true (List.mem_filter.mp hu).2

theorem named_eq_self (h : ∀ v ∈ vars, v.1.bytes ≠ []) : named vars = vars :=
  List.filter_eq_self.mpr fun v hv => decide_eq_true (h v hv)

theorem length_findVals_singles {g : List (CString × List DbValue)} {name : CString}
    (h : ∀ v ∈ g, v.2.length = 1) : ((findVals name g).getD []).length ≤ 1 := by
  cases hfind : findVals name g with
  | none => exact Nat.zero_le _
  | some vs =>
      obtain ⟨v, hv, rfl⟩ := mem_of_findVals hfind
      exact (h v hv).le

/-- A command string comes back exactly when it has a path, or no variables, and names that are not
empty and different ignoring case. -/
theorem commandRoundTrips_iff (hpath : CommandPath path) (h : CommandVars vars) :
    CommandRoundTrips path vars ↔
      (path ≠ [] ∨ vars = []) ∧ (∀ v ∈ vars, v.1.bytes ≠ []) ∧ DifferentNames vars := by
  by_cases hne : path = []
  · subst hne
    obtain ⟨hp, hvars⟩ := fromCommandString_vars h
    constructor
    · rintro ⟨hstored, -⟩
      cases vars with
      | nil => exact ⟨Or.inr rfl, nofun, List.Pairwise.nil⟩
      | cons v vars =>
          have hmem := mem_valuesNamed (List.mem_cons_self : v ∈ v :: vars)
          rw [← hstored v.1, List.nil_append, hvars] at hmem
          cases hmem
    · rintro ⟨hempty, -, -⟩
      obtain rfl := hempty.resolve_left (fun hne => hne rfl)
      obtain ⟨hp', hvars'⟩ := @reread [code '/'] [] ⟨Or.inr rfl, by decide⟩ (by decide) h
        nofun _ hp hvars
      exact ⟨fun name => by rw [List.nil_append, hvars]; rfl, hp', hvars'.trans hvars.symm⟩
  · obtain ⟨hp, hvars⟩ := fromCommandString_path hpath hne h
    constructor
    · rintro ⟨hstored, -, hsame⟩
      rw [hvars] at hstored hsame
      have hnames := named_of_stored hstored
      rw [named_eq_self hnames] at hvars hstored hsame
      refine ⟨Or.inl hne, hnames, differentNames_of_valuesNamed fun name => ?_⟩
      rw [(reread hpath hne h hnames hp hvars).2] at hsame
      rw [← hstored name, ← hsame]
      refine length_findVals_singles fun v hv => ?_
      obtain ⟨w, -, rfl⟩ := List.mem_map.mp hv
      rfl
    · rintro ⟨-, hnames, hdifferent⟩
      rw [named_eq_self hnames] at hvars
      obtain ⟨hp', hvars'⟩ := reread hpath hne h hnames hp hvars
      refine ⟨fun name => ?_, by rw [hp', if_neg hne], ?_⟩
      · rw [hvars, findVals_addVars]
        rfl
      · rw [hvars', hvars, addVars_different hdifferent fun _ _ => rfl, List.nil_append,
          List.map_map]
        rfl

/-- The string `/p?a=x?b=y`. -/
theorem commandRoundTrips_two :
    CommandRoundTrips (ascii ['/', 'p']) [sampleVar 'a' 'x', sampleVar 'b' 'y'] :=
  (commandRoundTrips_iff ⟨Or.inr rfl, by decide⟩
    ⟨by decide, by decide⟩).mpr
      ⟨Or.inl (by decide), by decide, by
        unfold DifferentNames
        decide⟩

/-- The variable of the string `?a=x` is lost. -/
theorem not_commandRoundTrips_noPath : ¬∀ path vars, CommandPath path → CommandVars vars →
    CommandRoundTrips path vars := by
  intro h
  have hstored := (h [] [sampleVar 'a' 'x'] ⟨Or.inl rfl, by decide⟩
    ⟨by decide, by decide⟩).1 (sampleVar 'a' 'x').1
  revert hstored
  decide

end Url
end Gwenhywfar
