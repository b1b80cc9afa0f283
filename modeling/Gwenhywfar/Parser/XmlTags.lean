import Gwenhywfar.Parser.XmlPieces

/-! # What a tag leaves of the text

* `lexTag_spec`: a tag ends with a character of its own, so that the NUL of a string remains, and
  there are enough rounds for its attributes. -/

namespace Gwenhywfar.Xml

open Text

/-- The rest of the text has a property. -/
def At (S : List UInt8 → Prop) (st : LexState) : Prop := S st.rest

/-- The text is what is left of `s`. -/
abbrev Left (s : List UInt8) : LexState → Prop := At (· <:+ s)

/-- The text is what is left of `s` behind a character. -/
abbrev Behind (s : List UInt8) (c : UInt8) : LexState → Prop := At (c :: · <:+ s)

def InTime (stop : Stop) (_ : LexState) : Prop := stop ≠ .exhausted

variable {s : List UInt8} {S : List UInt8 → Prop} {c : UInt8} {α : Type} {stop : Stop}

theorem Behind.left {st : LexState} (h : Behind s c st) : Left s st :=
  (List.suffix_cons c _).trans h

theorem lexScan_spec {f : List UInt8 → Option (α × List UInt8)} {Q : α → List UInt8 → Prop}
    (hstop : stop ≠ .exhausted) (h : ∀ r a rest, S r → f r = some (a, rest) → Q a rest) :
    Triple (At S) (lexScan stop f) (fun a => At (Q a)) InTime := by
  intro st hst
  unfold lexScan
  cases hf : f st.rest with
  | none => exact hstop
  | some p => exact h st.rest p.1 p.2 hst hf

theorem lexCall_spec (call : Call) : Triple (At S) (lexCall call) (fun _ => At S) InTime :=
  fun _ h => h

theorem lexBlanks_spec : Triple (Left s) lexBlanks (Behind s) InTime := by
  refine lexScan_spec (Q := (· :: · <:+ s)) (by decide) fun r c rest hr h => ?_
  have hd := List.dropWhile_suffix (fun x : UInt8 => decide (x ≤ 32)) (l := r)
  unfold nextChar at h
  cases hdr : r.dropWhile (fun x : UInt8 => decide (x ≤ 32)) with
  | nil => simp [hdr] at h
  | cons x xs =>
      rw [hdr] at h hd
      cases h
      exact hd.trans hr

theorem lexPeek_spec :
    Triple (At S) lexPeek (fun c => At fun r => S r ∧ ∃ rest, r = c :: rest) InTime := by
  refine lexScan_spec (by decide) fun r c rest hr h => ?_
  cases r with
  | nil => cases h
  | cons x r =>
      cases h
      exact ⟨hr, r, rfl⟩

theorem lexSkip_spec :
    Triple (At fun r => r <:+ s ∧ ∃ rest, r = c :: rest) lexSkip (fun _ => Behind s c) InTime := by
  rintro ⟨calls, rest⟩ ⟨hs, rest, rfl⟩
  exact hs

/-! ### The scans leave the stream behind a character -/

theorem scanEndName_left {r name rest : List UInt8} {c : UInt8}
    (h : scanEndName r = some ((name, c), rest)) : c :: rest <:+ r := by
  unfold scanEndName at h
  dsimp only at h
  split at h
  · cases h
  · next x xs hdr =>
      cases h
      exact hdr ▸ List.dropWhile_suffix _

theorem scanComment_left {cbuf r buf rest : List UInt8}
    (h : scanComment cbuf r = some (buf, rest)) : code '>' :: rest <:+ r := by
  induction r generalizing cbuf with
  | nil => simp [scanComment] at h
  | cons c r ih =>
      rw [scanComment] at h
      split at h
      · next hc =>
          cases h
          have hl := congrArg List.getLast? hc.2
          rw [List.getLast?_drop, if_neg (by simp at hc ⊢)] at hl
          obtain rfl : c = code '>' := by simpa [ascii] using hl
          exact List.suffix_rfl
      · exact (ih h).trans (List.suffix_cons c r)

theorem scanName_left {dbuf r name rest : List UInt8} {uc c : UInt8}
    (h : scanName dbuf uc r = some ((name, c), rest)) : c :: rest <:+ uc :: r := by
  induction r generalizing dbuf uc with
  | nil =>
      rw [scanName] at h
      split at h
      · cases h
        exact List.suffix_rfl
      · cases h
  | cons x r ih =>
      rw [scanName] at h
      split at h
      · cases h
        exact List.suffix_rfl
      · split at h
        · split at h
          · cases h
            exact List.suffix_cons uc _
          · exact (ih h).trans (List.suffix_cons uc _)
        · exact (ih h).trans (List.suffix_cons uc _)

theorem scanAttrName_left {nbuf r name rest : List UInt8} {uc c : UInt8}
    (h : scanAttrName nbuf uc r = some ((name, c), rest)) : c :: rest <:+ uc :: r := by
  induction r generalizing nbuf uc with
  | nil =>
      rw [scanAttrName] at h
      split at h
      · cases h
        exact List.suffix_rfl
      · cases h
  | cons x r ih =>
      rw [scanAttrName] at h
      split at h
      · cases h
        exact List.suffix_rfl
      · exact (ih h).trans (List.suffix_cons uc _)

theorem scanAttrValue_left {inQuote : Bool} {vbuf r value rest : List UInt8} {c : UInt8}
    (h : scanAttrValue inQuote vbuf r = some (some (value, c), rest)) : c :: rest <:+ r := by
  induction r generalizing inQuote vbuf with
  | nil => simp [scanAttrValue] at h
  | cons x r ih =>
      have hend {v : List UInt8}
          (h : some (some (v, x), r) = some (some (value, c), rest)) : c :: rest <:+ x :: r := by
        cases h
        exact List.suffix_rfl
      have hgo {q : Bool} {v : List UInt8}
          (h : scanAttrValue q v r = some (some (value, c), rest)) : c :: rest <:+ x :: r :=
        (ih h).trans (List.suffix_cons x r)
      unfold scanAttrValue at h
      split at h
      · split at h
        · exact hend h
        · exact hgo h
      split at h
      · exact hgo h
      split at h
      · exact hend h
      split at h
      · simp at h
      split at h
      · split at h
        · cases h
        · split at h
          · exact hend h
          · exact hgo h
      · exact hgo h

/-! ### Tags -/

/-- The text goes on behind a tag. -/
abbrev Ended (s : List UInt8) : LexState → Prop := At fun r => r <:+ s ∧ r ≠ []

theorem ne_nil_of_suffix (hs : s.getLast? = some 0) (hc : c ≠ 0) {r : List UInt8}
    (h : c :: r <:+ s) : r ≠ [] := by
  rintro rfl
  obtain ⟨t, rfl⟩ := h
  rw [List.getLast?_append, List.getLast?_singleton, Option.some_or, Option.some.injEq] at hs
  exact hc hs

theorem Behind.ended (hs : s.getLast? = some 0) {st : LexState} (h : Behind s (code '>') st) :
    Ended s st := ⟨h.left, ne_nil_of_suffix hs (by decide) h⟩

theorem lexComment_spec (hs : s.getLast? = some 0) :
    Triple (Left s) lexComment (fun _ => Ended s) InTime := by
  have hscan : Triple (Left s) (lexScan .insideComment (scanComment []))
      (fun _ => Behind s (code '>')) InTime :=
    lexScan_spec (by decide) fun _ _ _ hr h => (scanComment_left h).trans hr
  refine hscan.bind fun cbuf => (lexCall_spec _).weaken (fun _ => Behind.ended hs) fun _ _ h => h

theorem lexEndTag_spec (hs : s.getLast? = some 0) :
    Triple (Left s) lexEndTag (fun _ => Ended s) InTime := by
  have hscan : Triple (Left s) (lexScan .insideTag scanEndName) (fun a => Behind s a.2) InTime :=
    lexScan_spec (by decide) fun _ _ _ hr h => (scanEndName_left h).trans hr
  have hend (uc : UInt8) : Triple (Behind s uc)
      (if uc ≠ code '>' then throw .malformed else lexCall (.endTag false))
      (fun _ => Ended s) InTime := by
    refine Triple.ite (fun _ => Triple.throw _ fun _ _ => (by decide : Stop.malformed ≠ _)) ?_
    intro huc
    obtain rfl : uc = code '>' := by simpa using huc
    exact (lexCall_spec _).weaken (fun _ => Behind.ended hs) fun _ _ h => h
  refine hscan.bind fun ⟨name, uc⟩ => (lexCall_spec _).bind fun _ => Triple.ite ?_ ?_
  · exact fun _ => (Triple.pure uc fun _ hst => hst).bind hend
  · exact fun _ => (lexBlanks_spec.weaken (fun _ => Behind.left) fun _ _ hst => hst).bind hend

theorem lexAttrValue_spec (nbuf : List UInt8) (uc : UInt8) :
    Triple (Behind s uc) (lexAttrValue nbuf uc) (Behind s) InTime := by
  have hscan : Triple (Behind s uc) (lexScan .insideTag (scanAttrValue false []))
      (fun v => At fun rest => ∀ w : List UInt8 × UInt8, v = some w → w.2 :: rest <:+ s) InTime := by
    refine lexScan_spec (by decide) fun r v rest hr h w hv => ?_
    exact (scanAttrValue_left (hv ▸ h)).trans ((List.suffix_cons uc r).trans hr)
  unfold lexAttrValue
  refine Triple.ite (fun _ => hscan.bind fun v => ?_) fun _ => ?_
  · cases v with
    | none => exact Triple.throw _ fun _ _ => (by decide : Stop.malformed ≠ _)
    | some v => exact (lexCall_spec _).bind fun _ => Triple.pure _ fun _ h => h v rfl
  · exact (lexCall_spec _).bind fun _ => Triple.pure _ fun _ h => h

theorem lexAttr_spec : Triple (Left s) lexAttr (Behind s) InTime := by
  have hscan (uc : UInt8) : Triple (Behind s uc) (lexScan .insideTag (scanAttrName [] uc))
      (fun a => Behind s a.2) InTime :=
    lexScan_spec (by decide) fun _ _ _ hr h => (scanAttrName_left h).trans hr
  refine lexBlanks_spec.bind fun uc => (hscan uc).bind fun ⟨nbuf, uc⟩ => ?_
  exact Triple.ite (fun _ => Triple.pure _ fun _ hst => hst) fun _ => lexAttrValue_spec nbuf uc

theorem lexAttrs_spec (k : ℕ) : Triple (At fun r => r <:+ s ∧ r.length < k) (lexAttrs k)
      (fun uc st => Behind s uc st ∧ (isClosing uc ∨ uc = code '>')) InTime := by
  induction k with
  | zero => exact fun st hst => absurd hst.2 (Nat.not_lt_zero _)
  | succ k ih =>
      refine Triple.of_pre fun st hst => ?_
      have hattr : Triple (· = st) lexAttr (Behind st.rest) InTime := by
        refine lexAttr_spec.weaken ?_ fun _ _ h => h
        rintro _ rfl
        exact List.suffix_rfl
      refine hattr.bind fun uc => Triple.ite (fun huc => ?_) fun _ => ?_
      · exact Triple.pure _ fun st' h => ⟨h.trans hst.1, huc⟩
      · refine ih.weaken (fun st' h => ⟨h.left.trans hst.1, ?_⟩) fun _ _ h => h
        have hlen := List.IsSuffix.length_le h
        have hlt := hst.2
        simp only [List.length_cons] at hlen
        omega

theorem lexClosing_spec (hs : s.getLast? = some 0) {m : LexM Unit}
    (hm : Triple (Left s) m (fun _ => Ended s) InTime) :
    Triple (Left s) (lexClosing m) (fun _ => Ended s) InTime := by
  refine lexPeek_spec.bind fun uc => Triple.ite (fun huc => ?_) fun _ => ?_
  · subst huc
    refine lexSkip_spec.bind fun _ => ?_
    exact (lexCall_spec _).weaken (fun _ => Behind.ended hs) fun _ _ h => h
  · exact hm.weaken (fun _ hst => hst.1) fun _ _ hst => hst

theorem lexTagRest_spec (hs : s.getLast? = some 0) :
    Triple (Left s) lexTagRest (fun _ => Ended s) InTime := by
  refine Triple.of_pre fun st hst => ?_
  have hget : Triple (· = st) (get : LexM LexState) (fun a st' => a = st ∧ st' = st) InTime :=
    fun st' h => ⟨h, h⟩
  have hattrs : Triple (fun st' => st' = st) (lexAttrs (st.rest.length + 1))
      (fun uc st' => Behind s uc st' ∧ (isClosing uc ∨ uc = code '>')) InTime := by
    refine (lexAttrs_spec _).weaken ?_ fun _ _ h => h
    rintro _ rfl
    exact ⟨hst, Nat.lt_succ_self _⟩
  refine hget.bind fun a => Triple.of_pre fun st' hst' => ?_
  obtain ⟨rfl, rfl⟩ := hst'
  refine hattrs.bind fun uc => Triple.ite (fun _ => ?_) fun huc => ?_
  · refine (lexClosing_spec hs ?_).weaken (fun _ h => h.1.left) fun _ _ h => h
    exact Triple.throw _ fun _ _ => (by decide : Stop.malformed ≠ _)
  · refine (lexCall_spec _).weaken (fun _ h => ?_) fun _ _ h => h
    obtain rfl := h.2.resolve_left huc
    exact h.1.ended hs

theorem lexStartTag_spec (hs : s.getLast? = some 0) {P : LexState → Prop} {dbuf : List UInt8}
    {uc : UInt8} (hscan : Triple P (lexScan .insideTag (scanName dbuf uc))
      (fun a => At fun r => r <:+ s ∧ (a.2 = code '>' → r ≠ [])) InTime) :
    Triple P (lexStartTag dbuf uc) (fun _ => Ended s) InTime := by
  refine hscan.bind fun ⟨name, uc⟩ => Triple.ite (fun _ => ?_) fun _ => ?_
  · exact Triple.throw _ fun _ _ => (by decide : Stop.malformed ≠ _)
  refine (lexCall_spec _).bind fun _ => ?_
  unfold lexTagEnd
  refine Triple.ite (fun _ => ?_) fun _ => Triple.ite (fun huc => ?_) fun _ => ?_
  · exact (lexClosing_spec hs (lexTagRest_spec hs)).weaken (fun _ h => h.1) fun _ _ h => h
  · exact fun _ h => ⟨h.1, h.2 huc⟩
  · exact (lexTagRest_spec hs).weaken (fun _ h => h.1) fun _ _ h => h

theorem scanName_spec (hs : s.getLast? = some 0) (dbuf : List UInt8) (uc : UInt8) :
    Triple (Behind s uc) (lexScan .insideTag (scanName dbuf uc))
      (fun a => At fun r => r <:+ s ∧ (a.2 = code '>' → r ≠ [])) InTime := by
  refine lexScan_spec (by decide) fun r a rest hr h => ?_
  have hleft : a.2 :: rest <:+ s := (scanName_left h).trans hr
  refine ⟨(List.suffix_cons _ _).trans hleft, fun ha => ?_⟩
  exact ne_nil_of_suffix hs (ha ▸ (by decide : code '>' ≠ 0)) hleft

theorem scanName_peeked {dbuf r name rest : List UInt8} {uc : UInt8}
    (h : scanName dbuf uc (uc :: r) = some ((name, c), rest)) :
    c :: rest <:+ uc :: r ∨ rest = uc :: r := by
  rw [scanName] at h
  split at h
  · simp only [Option.some.injEq, Prod.mk.injEq] at h
    exact Or.inr h.2.symm
  · split at h
    · split at h
      · cases h
        exact Or.inl List.suffix_rfl
      · exact Or.inl (scanName_left h)
    · exact Or.inl (scanName_left h)

theorem scanName_peeked_spec (hs : s.getLast? = some 0) (dbuf : List UInt8) (uc : UInt8) :
    Triple (At fun r => r <:+ s ∧ ∃ rest, r = uc :: rest) (lexScan .insideTag (scanName dbuf uc))
      (fun a => At fun r => r <:+ s ∧ (a.2 = code '>' → r ≠ [])) InTime := by
  refine lexScan_spec (by decide) fun r a rest hr h => ?_
  obtain ⟨hr, r, rfl⟩ := hr
  obtain hc | rfl := scanName_peeked h
  · have hleft : a.2 :: rest <:+ s := hc.trans hr
    refine ⟨(List.suffix_cons _ _).trans hleft, fun ha => ?_⟩
    exact ne_nil_of_suffix hs (ha ▸ (by decide : code '>' ≠ 0)) hleft
  · exact ⟨hr, fun _ => List.cons_ne_nil _ _⟩

theorem lexTag_spec (hs : s.getLast? = some 0) :
    Triple (Left s) lexTag (fun _ => Ended s) InTime := by
  have hstart (uc : UInt8) : Triple (Behind s uc) (lexStartTag [] uc) (fun _ => Ended s) InTime :=
    lexStartTag_spec hs (scanName_spec hs [] uc)
  have hskip (uc c : UInt8) : Triple (At fun r => uc :: r <:+ s ∧ ∃ rest, r = c :: rest) lexSkip
      (fun _ => Left s) InTime := by
    refine (@lexSkip_spec s c).weaken (fun _ h => ?_) fun _ _ => Behind.left
    exact ⟨(List.suffix_cons _ _).trans h.1, h.2⟩
  refine lexBlanks_spec.bind fun uc => Triple.ite (fun _ => ?_) fun _ => Triple.ite (fun _ => ?_) ?_
  · exact (lexEndTag_spec hs).weaken (fun _ => Behind.left) fun _ _ h => h
  · refine lexPeek_spec.bind fun c => Triple.ite (fun _ => ?_) fun _ => ?_
    · refine (hskip uc c).bind fun _ => lexPeek_spec.bind fun d => ?_
      refine Triple.ite (fun _ => lexSkip_spec.bind fun _ => ?_) fun _ => ?_
      · exact (lexComment_spec hs).weaken (fun _ => Behind.left) fun _ _ h => h
      · exact lexStartTag_spec hs (scanName_peeked_spec hs _ d)
    · exact (hstart uc).weaken (fun _ h => h.1) fun _ _ h => h
  · exact fun _ => hstart uc

end Gwenhywfar.Xml
