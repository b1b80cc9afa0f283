import Gwenhywfar.Gui.PasswdStoreText

/-! # Tokens and their variables

* `isName_pathOf`, `strcaseEq_pathOf`: the path of a token is a name when the token has neither
  blanks nor commas, and two paths are equal up to case when the tokens are.
* `setEntry` and the like: what setting, finding and deleting a variable is for tokens with their
  secrets. -/

namespace Gwenhywfar

set_option maxRecDepth 4000

namespace PasswdStore

open Db Gwenhywfar.Path Text

/-! ### Paths of tokens -/

def lookedUp (token : CString) : CString :=
  CString.ofBytes (token.bytes.dropWhile (· == code ' '))

/-- A token has neither blanks nor commas. -/
def Clean (token : CString) : Prop := ∀ c ∈ token.bytes, c ≠ code ' ' ∧ c ≠ code ','

instance (token : CString) : Decidable (Clean token) :=
  inferInstanceAs (Decidable (∀ c ∈ token.bytes, _))

theorem pathOf_bytes (token : CString) :
    (pathOf token).bytes = Text.escapeToBufferTolerant token.bytes :=
  CString.ofBytes_bytes (escapeToBufferTolerant_nul_free token.bytes)

theorem lookedUp_bytes (token : CString) :
    (lookedUp token).bytes = token.bytes.dropWhile (· == code ' ') :=
  CString.ofBytes_bytes fun h0 => token.nul_free ((List.dropWhile_sublist _).subset h0)

theorem escape_cons (c : UInt8) (s : List UInt8) : Text.escapeToBufferTolerant (c :: s) =
    (if isTolerated c then [c] else code '%' :: hexDigits c) ++ Text.escapeToBufferTolerant s :=
  escapeWith_cons c s

theorem mem_escape {s : List UInt8} {d : UInt8} (h : d ∈ Text.escapeToBufferTolerant s) :
    (d ∈ s ∧ isTolerated d = true) ∨ d = code '%' ∨ isXDigit d = true := by
  rw [Text.escapeToBufferTolerant, escapeWith, List.mem_flatMap] at h
  obtain ⟨c, hc, hd⟩ := h
  split at hd
  · next hplain =>
      obtain rfl := List.mem_singleton.mp hd
      exact .inl ⟨hc, hplain⟩
  · rcases List.mem_cons.mp hd with rfl | hd
    · exact .inr (.inl rfl)
    · exact .inr (.inr (hexDigits_isXDigit hd))

theorem single_pathOf (token : CString) :
    ∀ c ∈ (pathOf token).bytes, isSlash c = false ∧ c ≠ code '[' := by
  have hall : ∀ c : UInt8, isTolerated c = true ∨ c = code '%' ∨ isXDigit c = true →
      isSlash c = false ∧ c ≠ code '[' := by decide
  intro c hc
  rw [pathOf_bytes] at hc
  exact hall c (mem_escapeWith hc)

variable {token : CString}

theorem isName_pathOf (hclean : Clean token) (hne : token.bytes ≠ []) :
    IsName (pathOf token) := by
  have hall : ∀ c : UInt8, (isTolerated c = true ∧ c ≠ code ' ' ∧ c ≠ code ',') ∨ c = code '%' ∨
      isXDigit c = true →
      isPlainChar c = true ∧ isTokenChar flagsDefault c = true ∧ c ≠ code ':' := by decide
  have hchar : ∀ c ∈ (pathOf token).bytes,
      isPlainChar c = true ∧ isTokenChar flagsDefault c = true ∧ c ≠ code ':' := by
    intro c hc
    rw [pathOf_bytes] at hc
    exact hall c ((mem_escape hc).imp_left fun h => ⟨h.2, hclean c h.1⟩)
  refine ⟨fun c hc => (hchar c hc).1, fun c hc => (hchar c hc).2, ?_⟩
  obtain ⟨c, s, hs⟩ := List.exists_cons_of_ne_nil hne
  rw [pathOf_bytes, hs, escape_cons]
  split <;> exact List.cons_ne_nil _ _

theorem escape_dropWhile : ∀ s : List UInt8, (Text.escapeToBufferTolerant s).dropWhile isSpace =
    Text.escapeToBufferTolerant (s.dropWhile (· == code ' '))
  | [] => rfl
  | c :: s => by
      rw [escape_cons]
      by_cases hblank : c = code ' '
      · subst hblank
        rw [if_pos (by decide), List.cons_append, List.nil_append,
          List.dropWhile_cons_of_pos (by decide), List.dropWhile_cons_of_pos (by decide),
          escape_dropWhile s]
      · have hspace : ∀ c : UInt8, isTolerated c = true → isSpace c = true → c = code ' ' := by
          decide
        rw [List.dropWhile_cons_of_neg (by simpa using hblank), escape_cons]
        by_cases hc : isTolerated c = true
        · rw [if_pos hc, List.cons_append,
            List.dropWhile_cons_of_neg fun h => hblank (hspace c hc h)]
        · rw [if_neg hc, List.cons_append, List.dropWhile_cons_of_neg (by decide)]

theorem withoutBlanks_pathOf (token : CString) :
    withoutBlanks (pathOf token) = pathOf (lookedUp token) := by
  refine CString.ext ?_
  rw [withoutBlanks_bytes, pathOf_bytes, pathOf_bytes, lookedUp_bytes, escape_dropWhile]

theorem lookedUp_clean (hclean : Clean token) : lookedUp token = token := by
  refine CString.ext ?_
  rw [lookedUp_bytes]
  cases hs : token.bytes with
  | nil => rfl
  | cons c s =>
      have hc := (hclean c (hs ▸ List.mem_cons_self)).1
      rw [List.dropWhile_cons_of_neg (by simpa using hc)]

theorem isTolerated_toLower (c : UInt8) : isTolerated (toLower c) = isTolerated c ∧
    (isTolerated c = false → toLower c = c) := by
  have hall : ∀ c : UInt8, isTolerated (toLower c) = isTolerated c ∧
      (isTolerated c = false → toLower c = c) := by decide
  exact hall c

theorem escape_toLower : ∀ s : List UInt8,
    (Text.escapeToBufferTolerant s).map toLower = (s.map toLower).flatMap fun c =>
      if isTolerated c then [c] else code '%' :: (hexDigits c).map toLower
  | [] => rfl
  | c :: s => by
      obtain ⟨htolerated, hsame⟩ := isTolerated_toLower c
      rw [escape_cons, List.map_append, escape_toLower s, List.map_cons, List.flatMap_cons,
        htolerated]
      by_cases hc : isTolerated c = true
      · rw [if_pos hc, if_pos hc, List.map_cons, List.map_nil]
      · have hpercent : toLower (code '%') = code '%' := by decide
        rw [if_neg hc, if_neg hc, List.map_cons, hpercent, hsame (eq_false_of_ne_true hc)]

theorem hexValue_toLower (c : UInt8) : hexValue (toLower c) = hexValue c := by
  have hall : ∀ c : UInt8, toUpper (toLower c) = toUpper c := by decide
  rw [hexValue, hexValue, hall]

theorem isXDigit_toLower (c : UInt8) : isXDigit (toLower c) = isXDigit c := by
  have hall : ∀ c : UInt8, isXDigit (toLower c) = isXDigit c := by decide
  exact hall c

theorem unescape_lower : ∀ s : List UInt8, unescapeWith (code '%') (s.flatMap fun c =>
    if isTolerated c then [c] else code '%' :: (hexDigits c).map toLower) = s
  | [] => rfl
  | c :: s => by
      have h1 := (isXDigit_toLower _).trans (isXDigit_hexDigit (c >>> 4))
      have h2 := (isXDigit_toLower _).trans (isXDigit_hexDigit c)
      have h3 : hexByte (toLower (hexDigit ((c >>> 4) &&& 0xf))) (toLower (hexDigit (c &&& 0xf))) =
          c := by
        rw [hexByte, hexValue_toLower, hexValue_toLower, ← hexByte, hexByte_hexDigits]
      rw [List.flatMap_cons]
      by_cases hc : isTolerated c = true
      · have hne : c ≠ code '%' := by
          rintro rfl
          revert hc
          decide
        rw [if_pos hc, List.singleton_append, unescapeWith_cons hne, unescape_lower s]
      · rw [if_neg hc, hexDigits, List.map_cons, List.map_cons, List.map_nil, List.cons_append,
          List.cons_append, List.cons_append, List.nil_append, unescapeWith, if_pos ⟨rfl, h1, h2⟩,
          h3, unescape_lower s]

theorem strcaseEq_pathOf (s t : CString) : strcaseEq (pathOf s) (pathOf t) = strcaseEq s t := by
  rw [Bool.eq_iff_iff, strcaseEq_iff, strcaseEq_iff, pathOf_bytes, pathOf_bytes, escape_toLower,
    escape_toLower]
  constructor
  · intro h
    rw [← unescape_lower (s.bytes.map toLower), h, unescape_lower]
  · intro h
    rw [h]

/-! ### Tokens with their secrets -/

/-- The names of tokens, with their secrets. -/
def named (entries : List (CString × CString)) : List (CString × CString) :=
  entries.map fun e => (pathOf e.1, e.2)

def setEntry (token secret : CString) : List (CString × CString) → List (CString × CString)
  | [] => [(token, secret)]
  | e :: entries =>
      if e.1 = token then (e.1, secret) :: entries else e :: setEntry token secret entries

def Alone (entries : List (CString × CString)) (token : CString) : Prop :=
  ∀ e ∈ entries, strcaseEq e.1 (lookedUp token) = true ↔ e.1 = token

theorem updateVar_named (secret : CString) (hclean : lookedUp token = token) :
    ∀ {entries : List (CString × CString)}, Alone entries token →
    updateVar (pathOf token) (newValues flagsOverwriteVars (.char secret))
        (varsFor (named entries)) =
      varsFor (named (setEntry token secret entries))
  | [], _ => rfl
  | e :: entries, halone => by
      have hnew (vs : List DbValue) : newValues flagsOverwriteVars (.char secret) vs =
          [.char secret] := if_pos (by decide)
      rw [Alone, List.forall_mem_cons, hclean] at halone
      rw [named, List.map_cons, ← named, varsFor, List.map_cons, ← varsFor, updateVar,
        strcaseEq_pathOf, setEntry]
      by_cases he : e.1 = token
      · rw [if_pos (halone.1.2 he), if_pos he, hnew]
        rfl
      · rw [if_neg fun h => he (halone.1.1 h), if_neg he,
          updateVar_named secret hclean (by rw [Alone, hclean]; exact halone.2)]
        rfl

theorem findVals_named : ∀ {entries : List (CString × CString)},
    Alone entries token → findVals (pathOf (lookedUp token)) (varsFor (named entries)) =
      (entries.lookup token).map fun s => [.char s]
  | [], _ => rfl
  | e :: entries, halone => by
      rw [Alone, List.forall_mem_cons] at halone
      rw [named, List.map_cons, ← named, varsFor, List.map_cons, ← varsFor, findVals,
        strcaseEq_pathOf]
      obtain ⟨u, s⟩ := e
      rw [List.lookup_cons]
      by_cases he : u = token
      · rw [if_pos (halone.1.2 he), he, beq_self_eq_true]
        rfl
      · rw [if_neg fun h => he (halone.1.1 h), beq_eq_false_iff_ne.mpr (Ne.symm he),
          findVals_named halone.2]

/-- No two of the tokens are equal up to case. -/
def Distinct (entries : List (CString × CString)) : Prop :=
  (entries.map Prod.fst).Pairwise fun s t => strcaseEq s t = false

theorem eraseVar_named : ∀ {entries : List (CString × CString)},
    Distinct entries → Alone entries token →
    eraseVar (pathOf (lookedUp token)) (varsFor (named entries)) =
      varsFor (named (entries.filter (·.1 ≠ token)))
  | [], _, _ => rfl
  | e :: entries, hdistinct, halone => by
      rw [Alone, List.forall_mem_cons] at halone
      rw [Distinct, List.map_cons, List.pairwise_cons] at hdistinct
      rw [named, List.map_cons, ← named, varsFor, List.map_cons, ← varsFor, eraseVar,
        strcaseEq_pathOf]
      by_cases he : e.1 = token
      · have hrest : entries.filter (·.1 ≠ token) = entries := by
          rw [List.filter_eq_self]
          intro f hf
          have hne : f.1 ≠ token := by
            intro heq
            have hfalse := hdistinct.1 f.1 (List.mem_map_of_mem hf)
            rw [he, ← heq, strcaseEq_self] at hfalse
            cases hfalse
          exact decide_eq_true hne
        rw [if_pos (halone.1.2 he), List.filter_cons_of_neg (by simpa using he), hrest]
      · rw [if_neg fun h => he (halone.1.1 h), List.filter_cons_of_pos (by simpa using he),
          eraseVar_named hdistinct.2 halone.2]
        rfl

/-- Reading the names yields the variables. -/
theorem addVars_named : ∀ {entries pre : List (CString × CString)}, Distinct (pre ++ entries) →
    addVars (named entries) (varsFor (named pre)) = varsFor (named (pre ++ entries))
  | [], pre, _ => by rw [List.append_nil]; rfl
  | e :: entries, pre, hdistinct => by
      have hadd : addVar (pathOf e.1) (.char e.2) (varsFor (named pre)) =
          varsFor (named (pre ++ [e])) := by
        have hno : ∀ f ∈ pre, strcaseEq f.1 e.1 = false := by
          intro f hf
          rw [Distinct, List.map_append, List.pairwise_append] at hdistinct
          exact hdistinct.2.2 f.1 (List.mem_map_of_mem hf) e.1 List.mem_cons_self
        clear hdistinct
        induction pre with
        | nil => rfl
        | cons f pre ih =>
            rw [List.forall_mem_cons] at hno
            rw [named, List.map_cons, ← named, varsFor, List.map_cons, ← varsFor, addVar,
              strcaseEq_pathOf, hno.1, if_neg Bool.false_ne_true, ih hno.2]
            rfl
      have hsplit : pre ++ e :: entries = pre ++ [e] ++ entries := by
        rw [List.append_assoc, List.singleton_append]
      rw [hsplit] at hdistinct ⊢
      rw [named, List.map_cons, ← named, addVars, List.foldl_cons, hadd]
      exact addVars_named hdistinct

theorem lookup_setEntry (u token secret : CString) : ∀ entries : List (CString × CString),
    (setEntry token secret entries).lookup u =
      if u = token then some secret else entries.lookup u
  | [] => by
      rw [setEntry, List.lookup_cons, List.lookup_nil]
      by_cases hu : u = token
      · rw [if_pos hu, hu, beq_self_eq_true]
      · rw [if_neg hu, beq_eq_false_iff_ne.mpr hu]
  | (v, s) :: entries => by
      rw [setEntry]
      by_cases hv : v = token
      · rw [if_pos hv, List.lookup_cons, List.lookup_cons]
        by_cases hu : u = token
        · rw [if_pos hu, hu, hv, beq_self_eq_true]
        · rw [if_neg hu, hv, beq_eq_false_iff_ne.mpr hu]
      · rw [if_neg hv, List.lookup_cons, List.lookup_cons, lookup_setEntry u token secret entries]
        by_cases hu : u = token
        · have huv : u ≠ v := fun heq => hv (heq ▸ hu)
          rw [if_pos hu, if_pos hu, beq_eq_false_iff_ne.mpr huv]
        · rw [if_neg hu, if_neg hu]

theorem lookup_filter (u token : CString) : ∀ entries : List (CString × CString),
    (entries.filter (·.1 ≠ token)).lookup u = if u = token then none else entries.lookup u
  | [] => by
      rw [List.filter_nil, List.lookup_nil]
      split <;> rfl
  | (v, s) :: entries => by
      have ih := lookup_filter u token entries
      by_cases hv : v = token
      · rw [List.filter_cons_of_neg (by simpa using hv), ih, List.lookup_cons]
        by_cases hu : u = token
        · rw [if_pos hu, if_pos hu]
        · rw [if_neg hu, if_neg hu, hv, beq_eq_false_iff_ne.mpr hu]
      · rw [List.filter_cons_of_pos (by simpa using hv), List.lookup_cons, List.lookup_cons, ih]
        by_cases hu : u = token
        · have huv : u ≠ v := fun heq => hv (heq ▸ hu)
          rw [if_pos hu, if_pos hu, beq_eq_false_iff_ne.mpr huv]
        · rw [if_neg hu, if_neg hu]

theorem lookup_ne_none (u : CString) : ∀ entries : List (CString × CString),
    entries.lookup u ≠ none ↔ u ∈ entries.map Prod.fst
  | [] => by simp
  | (v, s) :: entries => by
      rw [List.lookup_cons, List.map_cons, List.mem_cons, ← lookup_ne_none u entries]
      by_cases hu : u = v
      · rw [hu, beq_self_eq_true]
        simp
      · rw [beq_eq_false_iff_ne.mpr hu]
        simp [hu]

theorem setEntry_tokens (token secret : CString) : ∀ entries : List (CString × CString),
    (setEntry token secret entries).map Prod.fst =
      if token ∈ entries.map Prod.fst then entries.map Prod.fst
      else entries.map Prod.fst ++ [token]
  | [] => rfl
  | e :: entries => by
      rw [setEntry]
      by_cases he : e.1 = token
      · rw [if_pos he, if_pos (by simp [he])]
        rfl
      · rw [if_neg he, List.map_cons, setEntry_tokens token secret entries, List.map_cons]
        by_cases hmem : token ∈ entries.map Prod.fst
        · rw [if_pos hmem, if_pos (List.mem_cons_of_mem _ hmem)]
        · rw [if_neg hmem, if_neg fun h => (List.mem_cons.mp h).elim (fun h => he h.symm) hmem,
            List.cons_append]

end PasswdStore
end Gwenhywfar
