import Gwenhywfar.Gui.PasswdStoreTokens

/-! # The password store as a map

* `AnswersAsMap`: every call of a run is answered as a map from tokens to secrets does it.
* `Fits`: no other token of the store is equal up to case, a token that is set has neither blanks
  nor commas, a token that is removed is not the last one, and one that is asked for is not asked of
  a store without secrets. -/

namespace Gwenhywfar

set_option maxRecDepth 4000

namespace PasswdStore

open Db Gwenhywfar.Path Text Function
open CString (ofBytes)

abbrev Token := {s : CString // s.bytes ≠ []}

/-- The calls of a program. -/
inductive Call where
  | set (token : Token) (secret : Option CString)
  | get (token : Token) (minLen maxLen : Int32)
  | list

def Sufficient (secret : Option CString) (minLen maxLen : Int32) : Prop :=
  ∀ s ∈ secret, minLen.toInt ≤ s.bytes.length ∧ (s.bytes.length : ℤ) < maxLen.toInt

/-- Every call is answered as a map from tokens to secrets does it, where each call that sets a
secret succeeds. -/
def AnswersAsMap : (Token → Option CString) → List Call → PasswdStore → Prop
  | _, [], _ => True
  | m, .set token secret :: calls, sto => ∀ sto', setPassword sto token.1 secret = some (0, sto') →
      AnswersAsMap (update m token secret) calls sto'
  | m, .get token minLen maxLen :: calls, sto =>
      ∃ r, getPassword sto token.1 minLen maxLen = some r ∧
        (Sufficient (m token) minLen maxLen →
          r.1 = (if m token = none then errorNotFound else 0, m token)) ∧
        AnswersAsMap m calls r.2
  | m, .list :: calls, sto =>
      ∃ r, getTokenList sto = some r ∧
        (r.1.2.Nodup ∧ ∀ s, s ∈ r.1.2 ↔ ∃ hs : s.bytes ≠ [], m ⟨s, hs⟩ ≠ none) ∧
        AnswersAsMap m calls r.2

/-- No other token of the store is found instead of a token. -/
def NoTwin (m : Token → Option CString) (token : Token) : Prop :=
  ∀ u : Token, m u ≠ none → strcaseEq u.1 (lookedUp token.1) = true → u = token

/-- A call that the store answers as a map does. -/
def Call.Fits (m : Token → Option CString) : Call → Prop
  | set token (some _) => Clean token.1 ∧ NoTwin m token
  | set token none =>
      NoTwin m token ∧ (lookedUp token.1).bytes ≠ [] ∧ ∃ u, u ≠ token ∧ m u ≠ none
  | get token _ _ => NoTwin m token ∧ ∃ u, m u ≠ none
  | list => True

def Call.after (m : Token → Option CString) : Call → Token → Option CString
  | set token secret => update m token secret
  | _ => m

def SetsSucceed : List Call → PasswdStore → Prop
  | [], _ => True
  | .set token secret :: calls, sto =>
      ∃ sto', setPassword sto token.1 secret = some (0, sto') ∧ SetsSucceed calls sto'
  | .get token minLen maxLen :: calls, sto =>
      ∀ r ∈ getPassword sto token.1 minLen maxLen, SetsSucceed calls r.2
  | .list :: calls, sto => ∀ r ∈ getTokenList sto, SetsSucceed calls r.2

/-- Every call of a run fits the map before it. -/
def FitsAll : (Token → Option CString) → List Call → Prop
  | _, [] => True
  | m, call :: calls => call.Fits m ∧ FitsAll (call.after m) calls

/-! ### What the file holds -/

/-- The file holds the secrets of a map. -/
structure Holds (sto : PasswdStore) (m : Token → Option CString)
    (entries : List (CString × CString)) : Prop where
  file : sto.getPath.file = if entries = [] then .empty else .text (linesText (named entries))
  fresh : entries = [] → sto.dbPasswords = none
  clean : ∀ e ∈ entries, Clean e.1 ∧ e.1.bytes ≠ []
  distinct : Distinct entries
  eq_lookup : ∀ token, m token = entries.lookup token.1

section
variable {sto : PasswdStore} {m : Token → Option CString} {entries : List (CString × CString)}
  {token : Token}

theorem holds_new : Holds new (fun _ => none) [] where
  file := rfl
  fresh := fun _ => rfl
  clean := fun _ he => absurd he List.not_mem_nil
  distinct := List.Pairwise.nil
  eq_lookup := fun _ => rfl

theorem Holds.mem (hs : Holds sto m entries) {e : CString × CString} (he : e ∈ entries) :
    m ⟨e.1, (hs.clean e he).2⟩ ≠ none := by
  rw [hs.eq_lookup, lookup_ne_none]
  exact List.mem_map_of_mem he

theorem Holds.alone (hs : Holds sto m entries) (ht : NoTwin m token) : Alone entries token.1 := by
  intro e he
  constructor
  · exact fun h => congrArg Subtype.val (ht ⟨e.1, (hs.clean e he).2⟩ (hs.mem he) h)
  · intro h
    rw [← h, lookedUp_clean (hs.clean e he).1]
    exact strcaseEq_self e.1

theorem Holds.names (hs : Holds sto m entries) : ∀ e ∈ named entries, IsName e.1 := by
  intro e he
  obtain ⟨f, hf, rfl⟩ := List.mem_map.mp he
  exact isName_pathOf (hs.clean f hf).1 (hs.clean f hf).2

theorem created_created (file : StoreFile) : file.created.created = file.created := by
  cases file <;> rfl

/-- Reading the file yields the variables of the tokens; in an empty file there are none. -/
theorem Holds.readFile (hs : Holds sto m entries) :
    ∃ rv sto', sto.getPath.readFile = some (rv, sto') ∧
    rv = (if entries = [] then errorNoData else 0) ∧ sto'.getPath.file = sto.getPath.file ∧
    (entries = [] → sto'.dbPasswords = none) ∧
    IsFlat (sto'.dbPasswords.getD newPasswords) 0 ∧
    varsOf (sto'.dbPasswords.getD newPasswords) 0 = varsFor (named entries) := by
  have hnew : IsFlat newPasswords 0 := isFlat_emptyGroup _
  by_cases hnil : entries = []
  · have hfresh : sto.getPath.dbPasswords = none := hs.fresh hnil
    refine ⟨errorNoData, sto.getPath, ?_, (if_pos hnil).symm, created_created _, fun _ => hfresh,
      ?_, ?_⟩
    · rw [PasswdStore.readFile, hs.file, if_pos hnil]
    · rw [hfresh]
      exact hnew
    · rw [hfresh, hnil]
      rfl
  · have hne : named entries ≠ [] := fun h => hnil (List.map_eq_nil_iff.mp h)
    obtain ⟨h, hread, hflat, hvars⟩ := readFromString_linesText hs.names hne hnew
    refine ⟨0, { sto.getPath with dbPasswords := some h }, ?_, (if_neg hnil).symm,
      created_created _, fun h => absurd h hnil, hflat, ?_⟩
    · rw [PasswdStore.readFile]
      have hfile := hs.file
      rw [if_neg hnil] at hfile
      rw [hfile]
      dsimp only
      rw [hread, hfile]
      rfl
    · exact hvars.trans (@addVars_named entries [] hs.distinct)

theorem writeFile_named {h : DbHeap} (hflat : IsFlat h 0)
    (hvars : varsOf h 0 = varsFor (named entries)) (file : StoreFile) : writeFile ⟨file, some h⟩ =
      (0, ⟨.text (linesText (named entries)), some h⟩) := by
  rw [writeFile]
  dsimp only
  rw [nodesOf_flat hflat, hvars, writeToBuffer_vars]
  rfl

/-! ### The calls -/

theorem not_stops {rv : ℤ} (hrv : rv = if entries = [] then errorNoData else 0) :
    ¬ (rv < 0 ∧ rv ≠ errorNotFound ∧ rv ≠ errorNoData) := by
  rintro ⟨hneg, -, hne⟩
  split at hrv
  · exact hne hrv
  · omega

theorem setPassword_of_inDb (hs : Holds sto m entries) {secret : Option CString}
    (entries' : List (CString × CString))
    (hset : ∀ h, IsFlat h 0 → varsOf h 0 = varsFor (named entries) →
      ∃ h', setInDb h token.1 secret = some h' ∧ IsFlat h' 0 ∧
        varsOf h' 0 = varsFor (named entries')) :
    setPassword sto token.1 secret = some (0, ⟨.text (linesText (named entries')), none⟩) := by
  obtain ⟨rv, sto', hread, hrv, -, -, hflat, hvars⟩ := hs.readFile
  obtain ⟨h', hset', hflat', hvars'⟩ := hset _ hflat hvars
  rw [setPassword, hread, Option.bind_some]
  dsimp only
  rw [if_neg (not_stops hrv), hset', Option.map_some, writeFile_named hflat' hvars']
  rfl

theorem setPassword_secret (hs : Holds sto m entries) (hclean : Clean token.1)
    (ht : NoTwin m token) (secret : CString) :
    ∃ sto', setPassword sto token.1 (some secret) = some (0, sto') ∧
      Holds sto' (update m token (some secret)) (setEntry token.1 secret entries) := by
  have halone := hs.alone ht
  have hname := isName_pathOf hclean token.2
  have hne : setEntry token.1 secret entries ≠ [] := by
    intro h
    have htokens := setEntry_tokens token.1 secret entries
    rw [h, List.map_nil] at htokens
    split at htokens
    · next hmem => exact List.not_mem_nil (htokens ▸ hmem)
    · exact List.append_ne_nil_of_right_ne_nil _ (List.cons_ne_nil _ _) htokens.symm
  refine ⟨_, setPassword_of_inDb hs (setEntry token.1 secret entries) ?_, ?_⟩
  · intro h hflat hvars
    refine ⟨_, rfl, isFlat_setValue hname.plain hname.ne_nil (.inr rfl) hflat _, ?_⟩
    rw [setCharValue,
      (varsOf_setValue_flags hname.plain hname.ne_nil (.inr rfl) hflat.toIsGroup _).2.2, hvars,
      updateVar_named secret (lookedUp_clean hclean) halone]
  · have htokens := setEntry_tokens token.1 secret entries
    have hmem : ∀ e ∈ setEntry token.1 secret entries,
        e.1 ∈ entries.map Prod.fst ∨ e.1 = token.1 := by
      intro e he
      have he := List.mem_map_of_mem (f := Prod.fst) he
      rw [htokens] at he
      split at he
      · exact .inl he
      · exact (List.mem_append.mp he).imp_right List.mem_singleton.mp
    refine ⟨(if_neg hne).symm, fun h => absurd h hne, fun e he => ?_, ?_, fun u => ?_⟩
    · rcases hmem e he with h | h
      · obtain ⟨f, hf, hfe⟩ := List.mem_map.mp h
        exact hfe ▸ hs.clean f hf
      · exact h ▸ ⟨hclean, token.2⟩
    · rw [Distinct, htokens]
      split
      · exact hs.distinct
      · next hnot =>
          refine List.pairwise_append.mpr ⟨hs.distinct, List.pairwise_singleton _ _, ?_⟩
          intro s hs' t ht'
          obtain rfl := List.mem_singleton.mp ht'
          obtain ⟨f, hf, rfl⟩ := List.mem_map.mp hs'
          rw [Bool.eq_false_iff]
          intro heq
          have hone := halone f hf
          rw [lookedUp_clean hclean] at hone
          exact hnot (hone.1 heq ▸ List.mem_map_of_mem hf)
    · rw [lookup_setEntry, update_apply, hs.eq_lookup]
      exact if_congr Subtype.ext_iff rfl rfl

theorem setPassword_none (hs : Holds sto m entries) (ht : NoTwin m token)
    (hblanks : (lookedUp token.1).bytes ≠ []) (hother : ∃ u, u ≠ token ∧ m u ≠ none) :
    ∃ sto', setPassword sto token.1 none = some (0, sto') ∧
      Holds sto' (update m token none) (entries.filter (·.1 ≠ token.1)) := by
  have halone := hs.alone ht
  have hpath : (withoutBlanks (pathOf token.1)).bytes ≠ [] := by
    obtain ⟨c, s, hcs⟩ := List.exists_cons_of_ne_nil hblanks
    rw [withoutBlanks_pathOf, pathOf_bytes, hcs, escape_cons]
    split <;> exact List.cons_ne_nil _ _
  have hne : entries.filter (·.1 ≠ token.1) ≠ [] := by
    obtain ⟨u, hu, hmu⟩ := hother
    intro h
    rw [hs.eq_lookup, lookup_ne_none] at hmu
    obtain ⟨f, hf, hfu⟩ := List.mem_map.mp hmu
    have hkeep := List.filter_eq_nil_iff.mp h f hf
    exact hkeep (decide_eq_true fun heq => hu (Subtype.ext (hfu ▸ heq)))
  refine ⟨_, setPassword_of_inDb hs (entries.filter (·.1 ≠ token.1)) ?_, ?_⟩
  · intro h hflat hvars
    obtain ⟨h', hdelete, hflat', hvars'⟩ := deleteVar_spec (single_pathOf token.1) hflat hpath
    refine ⟨h', hdelete, hflat', ?_⟩
    rw [hvars', hvars, withoutBlanks_pathOf, eraseVar_named hs.distinct halone]
  · have hsub := entries.filter_sublist (p := (·.1 ≠ token.1))
    refine ⟨(if_neg hne).symm, fun h => absurd h hne,
      fun e he => hs.clean e (hsub.subset he), hs.distinct.sublist (hsub.map _), fun u => ?_⟩
    rw [lookup_filter, update_apply, hs.eq_lookup]
    exact if_congr Subtype.ext_iff rfl rfl

theorem sufficient_filter {s : CString} {minLen maxLen : Int32}
    (h : Sufficient (some s) minLen maxLen) :
    minLen ≤ Int32.ofNat s.bytes.length ∧ Int32.ofNat s.bytes.length < maxLen := by
  obtain ⟨hmin, hmax⟩ := h s rfl
  have hlt := maxLen.toInt_lt
  have hlen : (Int32.ofNat s.bytes.length).toInt = s.bytes.length :=
    Int32.toInt_ofNat_of_lt (by omega)
  rw [Int32.le_iff_toInt_le, Int32.lt_iff_toInt_lt, hlen]
  exact ⟨hmin, hmax⟩

theorem getPassword_spec (hs : Holds sto m entries) (ht : NoTwin m token) (hsome : ∃ u, m u ≠ none)
    (minLen maxLen : Int32) :
    ∃ r, getPassword sto token.1 minLen maxLen = some r ∧ (Sufficient (m token) minLen maxLen →
      r.1 = (if m token = none then errorNotFound else 0, m token)) ∧ Holds r.2 m entries := by
  have hnil : entries ≠ [] := by
    rintro rfl
    obtain ⟨u, hu⟩ := hsome
    rw [hs.eq_lookup, List.lookup_nil] at hu
    exact hu rfl
  obtain ⟨rv, sto', hread, hrv, hfile, hfresh, hflat, hvars⟩ := hs.readFile
  have hs' : Holds sto' m entries :=
    ⟨hfile.trans hs.file, hfresh, hs.clean, hs.distinct, hs.eq_lookup⟩
  have hfree : Holds sto'.safeFreeDb m entries :=
    ⟨hs'.file, fun _ => rfl, hs.clean, hs.distinct, hs.eq_lookup⟩
  have hget : getCharValue (sto'.dbPasswords.getD newPasswords) 0 (pathOf token.1) = m token := by
    by_cases hblanks : (withoutBlanks (pathOf token.1)).bytes = []
    · rw [getCharValue_of_blanks (single_pathOf token.1) hflat hblanks, hs.eq_lookup, eq_comm]
      by_contra hmem
      rw [← ne_eq, lookup_ne_none] at hmem
      obtain ⟨e, he, heq⟩ := List.mem_map.mp hmem
      have hname := isName_pathOf (heq ▸ (hs.clean e he).1) token.2
      rw [withoutBlanks_pathOf, lookedUp_clean (heq ▸ (hs.clean e he).1)] at hblanks
      exact hname.ne_nil hblanks
    · rw [getCharValue_of_findVals (single_pathOf token.1) hflat hblanks, hs.eq_lookup]
      rw [hvars, withoutBlanks_pathOf, findVals_named (hs.alone ht)]
  rw [if_neg hnil] at hrv
  refine ⟨_, by rw [getPassword, hread, Option.map_some], ?_⟩
  dsimp only
  rw [if_neg (by rw [hrv]; decide), getFromDb, hget]
  cases hm : m token with
  | none =>
      refine ⟨fun _ => ?_, hs'⟩
      rw [if_pos rfl]
      rfl
  | some s =>
      by_cases hsize : minLen ≤ Int32.ofNat s.bytes.length ∧ Int32.ofNat s.bytes.length < maxLen
      · rw [Option.filter_some, if_pos (decide_eq_true hsize)]
        exact ⟨fun _ => (by rw [if_neg (by simp)]), hfree⟩
      · rw [Option.filter_some, if_neg (by simpa using hsize)]
        exact ⟨fun h => absurd (sufficient_filter h) hsize, hs'⟩

theorem unescape_pathOf (token : CString) :
    ofBytes (unescapeWith (code '%') (pathOf token).bytes) = token := by
  rw [pathOf_bytes, Text.escapeToBufferTolerant, unescapeWith_escapeWith (by decide),
    CString.ofBytes_eq]

theorem getTokenList_spec (hs : Holds sto m entries) : ∃ r, getTokenList sto = some r ∧
      (r.1.2.Nodup ∧ ∀ s, s ∈ r.1.2 ↔ ∃ hne : s.bytes ≠ [], m ⟨s, hne⟩ ≠ none) ∧
      Holds r.2 m entries := by
  obtain ⟨rv, sto', hread, hrv, hfile, hfresh, -, hvars⟩ := hs.readFile
  have hs' : Holds sto' m entries :=
    ⟨hfile.trans hs.file, hfresh, hs.clean, hs.distinct, hs.eq_lookup⟩
  have hlists : (entries.map Prod.fst).Nodup ∧
      ∀ s, s ∈ entries.map Prod.fst ↔ ∃ hne : s.bytes ≠ [], m ⟨s, hne⟩ ≠ none := by
    refine ⟨List.Pairwise.imp ?_ hs.distinct, fun s => ⟨fun hmem => ?_, ?_⟩⟩
    · rintro s t hst rfl
      rw [strcaseEq_self] at hst
      cases hst
    · obtain ⟨e, he, rfl⟩ := List.mem_map.mp hmem
      exact ⟨(hs.clean e he).2, hs.mem he⟩
    · rintro ⟨hne, hm⟩
      rwa [hs.eq_lookup, lookup_ne_none] at hm
  refine ⟨_, by rw [getTokenList, hread, Option.map_some], ?_⟩
  dsimp only
  by_cases hnil : entries = []
  · rw [if_pos hnil] at hrv
    rw [if_pos (by rw [hrv]; decide)]
    rw [hnil] at hlists
    exact ⟨hlists, hs'⟩
  · rw [if_neg hnil] at hrv
    have hnames : (varsFor (named entries)).map Prod.fst = entries.map fun e => pathOf e.1 := by
      rw [varsFor, named, List.map_map, List.map_map]
      rfl
    have hall : ∀ s ∈ entries.map fun e => pathOf e.1, decide (s.bytes ≠ []) = true := by
      intro s hmem
      obtain ⟨e, he, rfl⟩ := List.mem_map.mp hmem
      exact decide_eq_true (isName_pathOf (hs.clean e he).1 (hs.clean e he).2).ne_nil
    have htokens : ((entries.map fun e => pathOf e.1).filter (·.bytes ≠ [])).map
        (fun s => ofBytes (unescapeWith (code '%') s.bytes)) = entries.map Prod.fst := by
      rw [List.filter_eq_self.mpr hall, List.map_map]
      exact List.map_congr_left fun e _ => unescape_pathOf e.1
    have hfree : Holds sto'.safeFreeDb m entries :=
      ⟨hs'.file, fun _ => rfl, hs.clean, hs.distinct, hs.eq_lookup⟩
    rw [if_neg (by rw [hrv]; decide), hvars, hnames, htokens]
    exact ⟨hlists, hfree⟩

end

/-! ### Runs -/

theorem answers_set {calls : List Call} {sto sto' : PasswdStore} {m : Token → Option CString}
    {token : Token} {secret : Option CString}
    (hset : setPassword sto token.1 secret = some (0, sto'))
    (hrest : SetsSucceed calls sto' ∧ AnswersAsMap (update m token secret) calls sto') :
    SetsSucceed (.set token secret :: calls) sto ∧
      AnswersAsMap m (.set token secret :: calls) sto := by
  refine ⟨⟨sto', hset, hrest.1⟩, fun sto'' hset' => ?_⟩
  obtain rfl : sto' = sto'' := by
    rw [hset] at hset'
    exact (Prod.mk.inj (Option.some.inj hset')).2
  exact hrest.2

/-- A call that fits leaves a file with the secrets of the map after it. -/
theorem answers_of_holds : ∀ {calls : List Call} {sto : PasswdStore}
    {m : Token → Option CString} {entries : List (CString × CString)},
    Holds sto m entries → FitsAll m calls → SetsSucceed calls sto ∧ AnswersAsMap m calls sto
  | [], _, _, _, _, _ => ⟨trivial, trivial⟩
  | .set token (some secret) :: calls, sto, m, entries, hs, hfits => by
      obtain ⟨sto', hset, hs'⟩ := setPassword_secret hs hfits.1.1 hfits.1.2 secret
      exact answers_set hset (answers_of_holds hs' hfits.2)
  | .set token none :: calls, sto, m, entries, hs, hfits => by
      obtain ⟨sto', hset, hs'⟩ := setPassword_none hs hfits.1.1 hfits.1.2.1 hfits.1.2.2
      exact answers_set hset (answers_of_holds hs' hfits.2)
  | .get token minLen maxLen :: calls, sto, m, entries, hs, hfits => by
      obtain ⟨r, hr, hget, hs'⟩ := getPassword_spec hs hfits.1.1 hfits.1.2 minLen maxLen
      obtain ⟨hsets, hrest⟩ := answers_of_holds hs' hfits.2
      exact ⟨fun r' hr' => Option.some.inj (hr.symm.trans hr') ▸ hsets, r, hr, hget, hrest⟩
  | .list :: calls, sto, m, entries, hs, hfits => by
      obtain ⟨r, hr, hlist, hs'⟩ := getTokenList_spec hs
      obtain ⟨hsets, hrest⟩ := answers_of_holds hs' hfits.2
      exact ⟨fun r' hr' => Option.some.inj (hr.symm.trans hr') ▸ hsets, r, hr, hlist, hrest⟩

/-- The store is a map from tokens to secrets in every run of fitting calls. -/
theorem answersAsMap_of_fitsAll (calls : List Call) (h : FitsAll (fun _ => none) calls) :
    SetsSucceed calls new ∧ AnswersAsMap (fun _ => none) calls new :=
  answers_of_holds holds_new h

def slashToken : Token := ⟨ofBytes (ascii ['a', '/']), by decide⟩

theorem answersAsMap_of_fitsAll_slash :
    SetsSucceed [.set slashToken (some (ofBytes (ascii ['x']))), .get slashToken 0 10] new ∧
      AnswersAsMap (fun _ => none)
        [.set slashToken (some (ofBytes (ascii ['x']))), .get slashToken 0 10] new := by
  refine answersAsMap_of_fitsAll _ ⟨⟨by decide, fun _ h => absurd rfl h⟩, ⟨?_, slashToken, ?_⟩,
    trivial⟩
  · intro u hu _
    by_contra hne
    rw [Call.after, update_of_ne hne] at hu
    exact hu rfl
  · rw [Call.after, update_self]
    exact Option.some_ne_none _

def blankToken : Token := ⟨ofBytes (ascii ['a', ' ', 'b']), by decide⟩

/-- A token with a blank is set, and then the file cannot be read. -/
theorem not_answersAsMap_blank : ¬ AnswersAsMap (fun _ => none)
    [.set blankToken (some (ofBytes (ascii ['x']))), .get blankToken 0 10] new := by
  intro h
  have hrun : ((setPassword new blankToken.1 (some (ofBytes (ascii ['x'])))).bind
      fun r => (getPassword r.2 blankToken.1 0 10).map fun g => (r.1, g.1)) =
        some (0, errorBadData, none) := by
    decide
  obtain ⟨⟨rv, sto⟩, hset, hget⟩ := Option.bind_eq_some_iff.mp hrun
  obtain ⟨g, hget, hg⟩ := Option.map_eq_some_iff.mp hget
  obtain ⟨hrv, hfails⟩ := Prod.mk.inj hg
  dsimp only at hrv
  subst hrv
  obtain ⟨r, hr, hanswer, -⟩ := h sto hset
  obtain rfl := Option.some.inj (hget.symm.trans hr)
  have hanswer := hanswer fun s hs => by
    obtain rfl : ofBytes (ascii ['x']) = s := by
      rw [update_self] at hs
      exact Option.some.inj hs
    decide
  rw [update_self] at hanswer
  have hnone := congrArg Prod.snd (hfails.symm.trans hanswer)
  cases hnone

end PasswdStore
end Gwenhywfar
