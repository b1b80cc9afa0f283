import Gwenhywfar.Parser.XmlGlobalize

/-! # Namespace declarations at their first users

* `XmlDecls`: the nodes of a tree with their names and attributes; `NsDecl` is what a declaration
  declares.
* `normalizeNameSpaces`: `GWEN_XMLNode_NormalizeNameSpaces`; the program may also read the memory
  of an attribute that it has freed.
* `resolved`: the URLs of all names in a tree.
* The declarations that are on their way down stop at the first users. They stay what they are
  where no one declares the same prefix in another way before that (`keepsUrls_of_fits`). -/

namespace Gwenhywfar

/-- A list of nodes; the data of a tag is its name. An attribute has a name and a value. -/
inductive XmlDecls
  | nil
  | node (typ : XmlNodeType) (data : CString) (properties : List (CString × CString))
      (children next : XmlDecls)
deriving DecidableEq

/-- A prefix, which the default namespace does not have, and a URL. -/
abbrev NsDecl := Option CString × CString

namespace XmlDecls

open XmlSpaces (prefixOf localOf joinName colon_mem_joinName localOf_joinName bytes_joinName)

/-! ### Names -/

/-- The name of the attribute that declares the default namespace. -/
def xmlns : CString := CString.ofChars ['x', 'm', 'l', 'n', 's']

/-- `strncasecmp(s, "xmlns:", 6)` finds no difference. -/
def isPrefixDecl (s : CString) : Bool :=
  (s.bytes.take 6).map toLower == xmlns.bytes ++ [code ':']

def isDecl (s : CString) : Bool := strcaseEq s xmlns || isPrefixDecl s

/-- What is behind the first `:`, if there is one. -/
def declPrefix (s : CString) : Option CString :=
  if code ':' ∈ s.bytes then some (localOf s) else none

def declName : Option CString → CString
  | none => xmlns
  | some p => joinName xmlns p

/-- `strncasecmp` finds no difference between the characters before the first `:` and those of a
prefix. -/
def startsWith (s p : CString) : Bool :=
  code ':' ∈ s.bytes &&
    (s.bytes.take (s.bytes.idxOf (code ':'))).map toLower ==
      (p.bytes.take (s.bytes.idxOf (code ':'))).map toLower

/-! ### The first pass -/

/-- Why the first pass ends early. -/
inductive Fault
  | redefined
  | freed
deriving DecidableEq

/-- The pointer to the namespace in force; it may point into an attribute of the node itself, or
of a node above where that attribute has been freed. -/
inductive CurrentNs
  | null
  | live (ns : CString)
  | own (ns : CString)
  | freed
deriving DecidableEq

/-- The variables of `GWEN_XMLNode__CheckNameSpaceDecls1`. -/
structure Decls1 where
  sl : List CString
  localNameSpace : Option CString
  currentNameSpace : CurrentNs
deriving DecidableEq

/-- `localNameSpace?localNameSpace:currentNameSpace`. -/
def Decls1.inForce (st : Decls1) : CurrentNs :=
  match st.localNameSpace with
  | some ns => .live ns
  | none => st.currentNameSpace

/-- `GWEN_XML_AddNameSpace`. -/
def addNameSpace (sl : List CString) (p name : CString) : List CString :=
  if sl.any fun t => strcaseEq t (joinName p name) then sl else sl ++ [joinName p name]

/-- `GWEN_XML_FindNameSpaceByName`. -/
def findNameSpaceByName (sl : List CString) (s : CString) : Option CString :=
  sl.find? fun t => strcaseEq (localOf t) s

/-- The loop of `GWEN_XMLNode__CheckNameSpaceDecls1` over the properties. -/
def checkProperties : List (CString × CString) → Decls1 →
    Except Fault (List (CString × CString) × Decls1)
  | [], st => .ok ([], st)
  | pr :: ps, st =>
      if strcaseEq pr.1 xmlns then
        match st.inForce with
        | .freed => .error .freed
        | .null =>
            (checkProperties ps { st with localNameSpace := some pr.2 }).map fun r =>
              (pr :: r.1, r.2)
        | .live ns =>
            if strcaseEq pr.2 ns then checkProperties ps st
            else (checkProperties ps { st with localNameSpace := some pr.2 }).map fun r =>
              (pr :: r.1, r.2)
        | .own ns =>
            if strcaseEq pr.2 ns then checkProperties ps { st with currentNameSpace := .freed }
            else (checkProperties ps { st with localNameSpace := some pr.2 }).map fun r =>
              (pr :: r.1, r.2)
      else if isPrefixDecl pr.1 then
        match findNameSpaceByName st.sl (localOf pr.1) with
        | some x =>
            if strcaseEq (localOf x) pr.2 then checkProperties ps st else .error .redefined
        | none =>
            (checkProperties ps { st with sl := addNameSpace st.sl (localOf pr.1) pr.2 }).map
              fun r => (pr :: r.1, r.2)
      else (checkProperties ps st).map fun r => (pr :: r.1, r.2)

/-- `GWEN_XMLNode__CheckNameSpaceDecls1`, for every tag of a list. -/
def checkNameSpaceDecls1 : XmlDecls → List CString → CurrentNs →
    Except Fault (XmlDecls × List CString)
  | nil, sl, _ => .ok (nil, sl)
  | node .tag data properties children next, sl, current => do
      let (properties', st) ← checkProperties properties ⟨sl, none, current⟩
      let (children', sl') ← checkNameSpaceDecls1 children st.sl st.inForce
      let (next', sl'') ← checkNameSpaceDecls1 next sl' current
      .ok (node .tag data properties' children' next', sl'')
  | node typ data properties children next, sl, current => do
      let (next', sl') ← checkNameSpaceDecls1 next sl current
      .ok (node typ data properties children next', sl')

/-! ### The second pass -/

def replaceValue (name value : CString) : List (CString × CString) → List (CString × CString)
  | [] => []
  | pr :: ps => if strcaseEq pr.1 name then (pr.1, value) :: ps else pr :: replaceValue name value ps

/-- `GWEN_XMLNode__SetProperty`, which puts a new attribute in front. -/
def setProperty (name value : CString) (ps : List (CString × CString)) : List (CString × CString) :=
  if ps.any fun pr => strcaseEq pr.1 name then replaceValue name value ps else (name, value) :: ps

/-- `inUse` of `GWEN_XMLNode__CheckAndSetNameSpace`. -/
def inUse (data : CString) (properties : List (CString × CString)) : Option CString → Bool
  | some p => startsWith data p || properties.any fun pr => startsWith pr.1 p
  | none => !decide (code ':' ∈ data.bytes) && !properties.any fun pr => strcaseEq pr.1 xmlns

/-- The loop of `GWEN_XMLNode__SetNameSpaces` over the children; its first check of a child finds
what has just been found. -/
def setNameSpaces (d : NsDecl) : XmlDecls → XmlDecls
  | nil => nil
  | node .tag data properties children next =>
      if inUse data properties d.1 then
        node .tag data (setProperty (declName d.1) d.2 properties) children (setNameSpaces d next)
      else node .tag data properties (setNameSpaces d children) (setNameSpaces d next)
  | node typ data properties children next => node typ data properties children (setNameSpaces d next)

/-- The loop of `GWEN_XMLNode__CheckNameSpaceDecls3` over the properties: those that have been
looked at, and as many of the others as there were when it began. -/
def moveDecls (data : CString) : ℕ → List (CString × CString) → List (CString × CString) →
    XmlDecls → List (CString × CString) × XmlDecls
  | k + 1, before, pr :: rest, children =>
      if isDecl pr.1 then
        if inUse data (before ++ rest) (declPrefix pr.1) then
          let ps := setProperty (declName (declPrefix pr.1)) pr.2 (before ++ rest)
          moveDecls data k (ps.take (ps.length - rest.length)) (ps.drop (ps.length - rest.length))
            children
        else moveDecls data k before rest (setNameSpaces (declPrefix pr.1, pr.2) children)
      else moveDecls data k (before ++ [pr]) rest children
  | _, before, rest, children => (before ++ rest, children)

/-- `GWEN_XMLNode__CheckNameSpaceDecls3`, for every tag of a list. -/
def checkNameSpaceDecls3 : ℕ → XmlDecls → XmlDecls
  | 0, t => t
  | _ + 1, nil => nil
  | k + 1, node .tag data properties children next =>
      let r := moveDecls data properties.length [] properties children
      node .tag data r.1 (checkNameSpaceDecls3 k r.2) (checkNameSpaceDecls3 k next)
  | k + 1, node typ data properties children next =>
      node typ data properties children (checkNameSpaceDecls3 k next)

/-- The number of nodes; no path is longer. -/
def size : XmlDecls → ℕ
  | nil => 0
  | node _ _ _ children next => size children + size next + 1

/-- The pointer to the value of the attribute `xmlns` of the first node. -/
def ownNameSpace : XmlDecls → CurrentNs
  | nil => .null
  | node _ _ properties _ _ =>
      match properties.find? fun pr => strcaseEq pr.1 xmlns with
      | some pr => .own pr.2
      | none => .null

/-- `GWEN_XMLNode_NormalizeNameSpaces`, where -1 is `redefined`; what is left of the tree then is
not looked at. -/
def normalizeNameSpaces (t : XmlDecls) : Except Fault XmlDecls :=
  (checkNameSpaceDecls1 t [] (ownNameSpace t)).map fun r => checkNameSpaceDecls3 r.1.size r.1

/-! ### What it is for -/

def decls (properties : List (CString × CString)) : List NsDecl :=
  properties.filterMap fun pr => if isDecl pr.1 then some (declPrefix pr.1, pr.2) else none

def others (properties : List (CString × CString)) : List (CString × CString) :=
  properties.filter fun pr => !isDecl pr.1

/-- The URL that a prefix stands for, from the inside to the outside. -/
def lookup (ds : List NsDecl) (p : Option CString) : Option CString :=
  (ds.find? fun d => d.1 == p).map Prod.snd

/-- The prefixes of an element and of its attributes; one without a prefix has no namespace. -/
def refs (data : CString) (properties : List (CString × CString)) : List (Option CString) :=
  (if code ':' ∈ data.bytes then some (prefixOf data) else none) ::
    (others properties).filterMap fun pr =>
      if code ':' ∈ pr.1.bytes then some (some (prefixOf pr.1)) else none

/-- The URLs of the elements and attributes, below these declarations. -/
def resolved : List NsDecl → XmlDecls → List (Option CString)
  | _, nil => []
  | env, node .tag data properties children next =>
      (refs data properties).map (lookup (decls properties ++ env)) ++
        resolved (decls properties ++ env) children ++ resolved env next
  | env, node _ _ _ _ next => resolved env next

/-- The tree without its declarations. -/
def bare : XmlDecls → XmlDecls
  | nil => nil
  | node .tag data properties children next =>
      node .tag data (others properties) (bare children) (bare next)
  | node typ data properties children next => node typ data properties children (bare next)

def allDecls : XmlDecls → List NsDecl
  | nil => []
  | node .tag _ properties children next =>
      decls properties ++ allDecls children ++ allDecls next
  | node _ _ _ _ next => allDecls next

def PrefixesDeclared : List NsDecl → XmlDecls → Prop
  | _, nil => True
  | env, node .tag data properties children next =>
      (∀ r ∈ refs data properties, r.isSome → (lookup (decls properties ++ env) r).isSome) ∧
        PrefixesDeclared (decls properties ++ env) children ∧ PrefixesDeclared env next
  | env, node _ _ _ _ next => PrefixesDeclared env next

def KeepsUrls (t : XmlDecls) : Prop :=
  match normalizeNameSpaces t with
  | .ok t' => resolved [] t' = resolved [] t ∧ t'.bare = t.bare
  | .error .redefined => ∃ p : CString, ∃ a ∈ t.allDecls, ∃ b ∈ t.allDecls,
      a.1 = some p ∧ b.1 = some p ∧ a.2 ≠ b.2
  | .error .freed => False

/-! ### When it does -/

/-- An element or one of its attributes takes a declaration of this prefix. -/
def isUser (data : CString) (properties : List (CString × CString)) (p : CString) : Bool :=
  startsWith data p || (others properties).any fun pr => startsWith pr.1 p

/-- A declaration of the default namespace that is in force already is left out. -/
def without (current : Option CString) (properties : List (CString × CString)) :
    List (CString × CString) :=
  properties.filter fun pr => !(strcaseEq pr.1 xmlns && current == some pr.2)

def stays (data : CString) (properties : List (CString × CString)) (d : NsDecl) : Bool :=
  match d.1 with
  | some p => isUser data properties p
  | none => !decide (code ':' ∈ data.bytes)

def takesDefault (data : CString) (own : List NsDecl) : Bool :=
  !decide (code ':' ∈ data.bytes) && (lookup own none).isNone

/-- The declarations from above that an element does not take. -/
def passed (data : CString) (properties : List (CString × CString)) (own pend : List NsDecl) :
    List NsDecl :=
  (if takesDefault data own then pend.eraseP fun d => d.1.isNone else pend).filter fun d =>
    match d.1 with
    | some p => !isUser data properties p
    | none => true

/-- The declarations that arrive at an element and its own ones do not get in each other's way. -/
structure Peaceful (pend own : List NsDecl) (current : Option CString) (data : CString)
    (properties : List (CString × CString)) : Prop where
  distinct : (properties.map Prod.fst).Nodup
  spelled : ∀ pr ∈ properties, isDecl pr.1 = true → pr.1 = declName (declPrefix pr.1)
  plain : ∀ d ∈ pend ++ own, ∀ p ∈ d.1, (p.bytes.take 5).map toLower ≠ xmlns.bytes
  sameCase : ∀ ns ∈ current, ∀ url ∈ lookup (decls properties) none,
    strcaseEq url ns = true → url = ns
  prefixes : ∀ a ∈ pend ++ own, ∀ p ∈ a.1, isUser data properties p = true →
    ∀ b ∈ pend ++ own, strcaseEq (declName a.1) (declName b.1) = true → a.1 = b.1
  redeclared : ∀ d ∈ own, ∀ p ∈ d.1, isUser data properties p = true →
    ∀ url ∈ lookup pend.reverse d.1, url = d.2
  taken : takesDefault data own = true → ∀ url ∈ lookup pend none, current = some url

/-- The declarations that arrive at any element do not get in the way of its own ones. -/
def Settles : List NsDecl → Option CString → XmlDecls → Prop
  | _, _, nil => True
  | pend, current, node .tag data properties children next =>
      Peaceful pend (decls (without current properties)) current data properties ∧
        Settles (passed data properties (decls (without current properties)) pend ++
            (decls (without current properties)).filter fun d => !stays data properties d)
          ((lookup (decls properties) none).or current) children ∧
        Settles pend current next
  | pend, current, node _ _ _ _ next => Settles pend current next

def UnlikePrefix (a b : NsDecl) : Prop :=
  ∀ p ∈ a.1, ∀ q ∈ b.1, strcaseEq (localOf (joinName p a.2)) q = false

instance UnlikePrefix.decidable (a b : NsDecl) : Decidable (UnlikePrefix a b) :=
  inferInstanceAs (Decidable (∀ p ∈ a.1, ∀ q ∈ b.1, _))

/-- The top element declares no default namespace, no URL is taken for a prefix, and the
declarations do not get in each other's way. -/
def Fits (t : XmlDecls) : Prop :=
  ownNameSpace t = .null ∧ t.allDecls.Pairwise UnlikePrefix ∧ Settles [] none t

/-! ### The names of declarations -/

theorem colon_not_mem_xmlns : code ':' ∉ xmlns.bytes := by decide

theorem declPrefix_declName (q : Option CString) : declPrefix (declName q) = q := by
  cases q with
  | none => exact if_neg colon_not_mem_xmlns
  | some p =>
      rw [declName, declPrefix, if_pos (colon_mem_joinName xmlns p),
        localOf_joinName colon_not_mem_xmlns]

theorem isDecl_declName (q : Option CString) : isDecl (declName q) = true := by
  rw [isDecl, Bool.or_eq_true]
  cases q with
  | none => exact .inl (strcaseEq_iff.mpr rfl)
  | some p =>
      refine .inr ?_
      have htake : (joinName xmlns p).bytes.take 6 = xmlns.bytes ++ [code ':'] := by
        rw [bytes_joinName]
        rfl
      rw [declName, isPrefixDecl, htake]
      decide

theorem isDecl_of_strcaseEq {s t : CString} (h : strcaseEq s t = true) (ht : isDecl t = true) :
    isDecl s = true := by
  rw [strcaseEq_iff] at h
  rw [isDecl, Bool.or_eq_true, strcaseEq_iff, isPrefixDecl, List.map_take] at ht ⊢
  rwa [h]

theorem strcaseEq_comm {s t : CString} (h : strcaseEq s t = true) : strcaseEq t s = true :=
  strcaseEq_iff.mpr (strcaseEq_iff.mp h).symm

theorem eq_none_of_strcaseEq_xmlns {q : Option CString}
    (h : strcaseEq (declName q) xmlns = true) : q = none := by
  cases q with
  | none => rfl
  | some p =>
      rw [strcaseEq_iff, declName, bytes_joinName] at h
      have hlen := congrArg List.length h
      simp at hlen

theorem startsWith_declName {p : CString} (hp : (p.bytes.take 5).map toLower ≠ xmlns.bytes)
    (q : Option CString) : startsWith (declName q) p = false := by
  cases q with
  | none =>
      rw [startsWith, declName, decide_eq_false colon_not_mem_xmlns]
      rfl
  | some r =>
      have hidx : (joinName xmlns r).bytes.idxOf (code ':') = 5 := by
        rw [bytes_joinName, List.idxOf_append_of_notMem colon_not_mem_xmlns, List.idxOf_cons_self]
        rfl
      have htake : (joinName xmlns r).bytes.take 5 = xmlns.bytes := by
        rw [bytes_joinName]
        rfl
      have hlower : xmlns.bytes.map toLower = xmlns.bytes := by decide
      rw [startsWith, declName, hidx, htake, hlower, Bool.and_eq_false_iff]
      exact .inr (beq_eq_false_iff_ne.mpr hp.symm)

/-! ### Lists of declarations -/

section lists

variable (ps qs : List (CString × CString)) (ds es : List NsDecl) (q : Option CString)

theorem decls_cons (pr : CString × CString) : decls (pr :: ps) =
      if isDecl pr.1 then (declPrefix pr.1, pr.2) :: decls ps else decls ps := by
  rw [decls, List.filterMap_cons]
  split <;> split <;> simp_all [decls]

theorem decls_append : decls (ps ++ qs) = decls ps ++ decls qs := List.filterMap_append

theorem others_append : others (ps ++ qs) = others ps ++ others qs := List.filter_append ..

theorem others_cons_decl {pr : CString × CString} (h : isDecl pr.1 = true) :
    others (pr :: ps) = others ps := List.filter_cons_of_neg (by simp [h])

theorem mem_decls {pr : CString × CString} (hpr : pr ∈ ps) (h : isDecl pr.1 = true) :
    (declPrefix pr.1, pr.2) ∈ decls ps :=
  List.mem_filterMap.mpr ⟨pr, hpr, if_pos h⟩

theorem lookup_nil : lookup [] q = none := rfl

theorem lookup_cons (d : NsDecl) :
    lookup (d :: ds) q = if d.1 = q then some d.2 else lookup ds q := by
  by_cases h : d.1 = q
  · have hb : (d.1 == q) = true := beq_iff_eq.mpr h
    simp only [lookup, List.find?_cons, hb, if_pos h, Option.map_some]
  · have hb : (d.1 == q) = false := beq_eq_false_iff_ne.mpr h
    simp only [lookup, List.find?_cons, hb, if_neg h]

theorem lookup_append : lookup (ds ++ es) q = (lookup ds q).or (lookup es q) := by
  rw [lookup, List.find?_append, Option.map_or]
  rfl

theorem lookup_eq_none_iff : lookup ds q = none ↔ ∀ d ∈ ds, d.1 ≠ q := by
  rw [lookup, Option.map_eq_none_iff, List.find?_eq_none]
  simp

theorem mem_of_lookup {url : CString} (h : lookup ds q = some url) : (q, url) ∈ ds := by
  obtain ⟨d, hd, rfl⟩ := Option.map_eq_some_iff.mp h
  have hq := List.find?_some hd
  rw [beq_iff_eq] at hq
  rw [← hq]
  exact List.mem_of_find?_eq_some hd

theorem lookup_filter_of_all {f : NsDecl → Bool} (h : ∀ d, d.1 = q → f d = true) :
    lookup (ds.filter f) q = lookup ds q := by
  induction ds with
  | nil => rfl
  | cons d ds ih =>
      rw [List.filter_cons, lookup_cons]
      by_cases hd : d.1 = q
      · rw [if_pos (h d hd), lookup_cons, if_pos hd, if_pos hd]
      · rw [if_neg hd]
        split
        · rw [lookup_cons, if_neg hd, ih]
        · exact ih

theorem lookup_filter_of_none {f : NsDecl → Bool} (h : ∀ d, d.1 = q → f d = false) :
    lookup (ds.filter f) q = none := by
  rw [lookup_eq_none_iff]
  intro d hd hq
  have hf := (List.mem_filter.mp hd).2
  rw [h d hq] at hf
  cases hf

end lists

/-- The declarations are written as their prefixes say. -/
def Spelled (ps : List (CString × CString)) : Prop :=
  ∀ pr ∈ ps, isDecl pr.1 = true → pr.1 = declName (declPrefix pr.1)

theorem isUser_congr {ps qs : List (CString × CString)} (h : others ps = others qs)
    (data p : CString) : isUser data ps p = isUser data qs p := by
  rw [isUser, isUser, h]

variable {ps : List (CString × CString)}

theorem inUse_some (hs : Spelled ps) {p : CString}
    (hp : (p.bytes.take 5).map toLower ≠ xmlns.bytes) (data : CString) :
    inUse data ps (some p) = isUser data ps p := by
  have hany : (ps.any fun pr => startsWith pr.1 p) =
      (others ps).any fun pr => startsWith pr.1 p := by
    rw [others, List.any_filter, Bool.eq_iff_iff, List.any_eq_true, List.any_eq_true]
    refine exists_congr fun pr => and_congr_right fun hpr => ?_
    cases hd : isDecl pr.1 with
    | false => simp
    | true => rw [hs pr hpr hd, startsWith_declName hp]; simp
  rw [inUse, isUser, hany]

theorem any_xmlns (hs : Spelled ps) :
    (ps.any fun pr => strcaseEq pr.1 xmlns) = (lookup (decls ps) none).isSome := by
  induction ps with
  | nil => rfl
  | cons pr ps ih =>
      have hs' : Spelled ps := fun pr hpr => hs pr (List.mem_cons_of_mem _ hpr)
      have hhead := hs pr List.mem_cons_self
      rw [List.any_cons, ih hs', decls_cons]
      cases hd : isDecl pr.1 with
      | false =>
          have hne : strcaseEq pr.1 xmlns = false := by
            rw [isDecl, Bool.or_eq_false_iff] at hd
            exact hd.1
          rw [hne]
          rfl
      | true =>
          rw [if_pos rfl, lookup_cons]
          cases hq : declPrefix pr.1 with
          | none =>
              rw [hhead hd, hq]
              simp [declName, strcaseEq_iff]
          | some p =>
              have hne : strcaseEq pr.1 xmlns = false := by
                rw [Bool.eq_false_iff]
                intro h
                rw [hhead hd, hq] at h
                cases eq_none_of_strcaseEq_xmlns h
              rw [hne, if_neg (by simp), Bool.false_or]

theorem inUse_none (hs : Spelled ps) (data : CString) :
    inUse data ps none = takesDefault data (decls ps) := by
  rw [inUse, takesDefault, any_xmlns hs, Option.not_isSome]

/-! ### Setting a declaration -/

section setting

variable {ps : List (CString × CString)} {q : Option CString} (url : CString)

theorem others_replaceValue (ps : List (CString × CString)) (q : Option CString) :
    others (replaceValue (declName q) url ps) = others ps := by
  induction ps with
  | nil => rfl
  | cons pr ps ih =>
      rw [replaceValue]
      split
      · next h =>
          have hd := isDecl_of_strcaseEq h (isDecl_declName q)
          rw [others_cons_decl ps hd]
          exact others_cons_decl ps hd
      · rw [others, others, List.filter_cons, List.filter_cons]
        rw [others, others] at ih
        rw [ih]

theorem others_setProperty (ps : List (CString × CString)) (q : Option CString) :
    others (setProperty (declName q) url ps) = others ps := by
  rw [setProperty]
  split
  · exact others_replaceValue url ps q
  · exact others_cons_decl ps (isDecl_declName q)

theorem map_fst_replaceValue (name : CString) (ps : List (CString × CString)) :
    (replaceValue name url ps).map Prod.fst = ps.map Prod.fst := by
  induction ps with
  | nil => rfl
  | cons pr ps ih =>
      rw [replaceValue]
      split
      · rfl
      · rw [List.map_cons, ih, List.map_cons]

theorem nodup_setProperty (hn : (ps.map Prod.fst).Nodup) (name : CString) :
    ((setProperty name url ps).map Prod.fst).Nodup := by
  rw [setProperty]
  split
  · rwa [map_fst_replaceValue]
  · next h =>
      rw [List.map_cons, List.nodup_cons]
      refine ⟨fun hmem => ?_, hn⟩
      obtain ⟨pr, hpr, he⟩ := List.mem_map.mp hmem
      exact h (List.any_eq_true.mpr ⟨pr, hpr, strcaseEq_iff.mpr (by rw [he])⟩)

def OneSpelling (q : Option CString) (ps : List (CString × CString)) : Prop :=
  ∀ pr ∈ ps, strcaseEq pr.1 (declName q) = true → pr.1 = declName q

theorem spelled_setProperty (hs : Spelled ps) : Spelled (setProperty (declName q) url ps) := by
  intro pr hpr hd
  have hname : pr.1 ∈ (setProperty (declName q) url ps).map Prod.fst := List.mem_map_of_mem hpr
  rw [setProperty] at hname
  split at hname
  · rw [map_fst_replaceValue] at hname
    obtain ⟨pr', hpr', he⟩ := List.mem_map.mp hname
    rw [← he] at hd ⊢
    exact hs pr' hpr' hd
  · rw [List.map_cons, List.mem_cons] at hname
    rcases hname with he | hname
    · rw [he, declPrefix_declName]
    · obtain ⟨pr', hpr', he⟩ := List.mem_map.mp hname
      rw [← he] at hd ⊢
      exact hs pr' hpr' hd

theorem ne_of_spelled {pr : CString × CString} (hs : Spelled (pr :: ps))
    (hd : isDecl pr.1 = true) (h : ¬ strcaseEq pr.1 (declName q) = true) : q ≠ declPrefix pr.1 := by
  rintro rfl
  refine h (strcaseEq_iff.mpr ?_)
  rw [← hs pr List.mem_cons_self hd]

theorem Spelled.tail {pr : CString × CString} (hs : Spelled (pr :: ps)) : Spelled ps :=
  fun pr' hpr' => hs pr' (List.mem_cons_of_mem pr hpr')

theorem OneSpelling.tail {pr : CString × CString} (ho : OneSpelling q (pr :: ps)) :
    OneSpelling q ps := fun pr' hpr' => ho pr' (List.mem_cons_of_mem pr hpr')

/-- The first declaration of a prefix is the one whose URL is replaced. -/
theorem decls_replaceValue (hs : Spelled ps) (ho : OneSpelling q ps)
    (hany : (ps.any fun pr => strcaseEq pr.1 (declName q)) = true) :
    ∃ ds es u, decls ps = ds ++ (q, u) :: es ∧ (∀ d ∈ ds, d.1 ≠ q) ∧
      decls (replaceValue (declName q) url ps) = ds ++ (q, url) :: es := by
  induction ps with
  | nil => cases hany
  | cons pr ps ih =>
      rw [replaceValue]
      by_cases h : strcaseEq pr.1 (declName q) = true
      · have hname := ho pr List.mem_cons_self h
        have hd : isDecl pr.1 = true := by
          rw [hname]
          exact isDecl_declName q
        refine ⟨[], decls ps, pr.2, ?_, fun d hd => absurd hd List.not_mem_nil, ?_⟩
        · rw [decls_cons, if_pos hd, hname, declPrefix_declName]
          rfl
        · rw [if_pos h, decls_cons, if_pos hd, hname, declPrefix_declName]
          rfl
      · rw [List.any_cons, Bool.eq_false_iff.mpr h, Bool.false_or] at hany
        obtain ⟨ds, es, u, hps, hds, hrep⟩ := ih hs.tail ho.tail hany
        rw [if_neg h, decls_cons, decls_cons, hps, hrep]
        cases hd : isDecl pr.1 with
        | false => exact ⟨ds, es, u, rfl, hds, rfl⟩
        | true =>
            refine ⟨(declPrefix pr.1, pr.2) :: ds, es, u, rfl, ?_, rfl⟩
            rw [List.forall_mem_cons]
            exact ⟨(ne_of_spelled hs hd h).symm, hds⟩

/-- A declaration is set in the place of one with the same prefix, or in front of all others. -/
theorem decls_setProperty (hs : Spelled ps) (ho : OneSpelling q ps) :
    ∃ ds es old, decls ps = ds ++ old ++ es ∧ (∀ d ∈ ds, d.1 ≠ q) ∧ (∀ d ∈ old, d.1 = q) ∧
      (old = [] → lookup (decls ps) q = none) ∧
      decls (setProperty (declName q) url ps) = ds ++ (q, url) :: es := by
  by_cases hany : (ps.any fun pr => strcaseEq pr.1 (declName q)) = true
  · obtain ⟨ds, es, u, hps, hds, hrep⟩ := decls_replaceValue url hs ho hany
    refine ⟨ds, es, [(q, u)], by rw [hps]; simp, hds, by simp,
      fun h => absurd h (List.cons_ne_nil _ _), ?_⟩
    rw [setProperty, if_pos hany, hrep]
  · refine ⟨[], decls ps, [], rfl, by simp, by simp, fun _ => ?_, ?_⟩
    · rw [lookup_eq_none_iff]
      intro d hd hq
      obtain ⟨pr, hpr, he⟩ := List.mem_filterMap.mp hd
      split at he
      · next hdecl =>
          obtain rfl := Option.some.inj he
          refine hany (List.any_eq_true.mpr ⟨pr, hpr, strcaseEq_iff.mpr ?_⟩)
          rw [← hq, ← hs pr hpr hdecl]
      · cases he
    · rw [setProperty, if_neg hany, decls_cons, if_pos (isDecl_declName q), declPrefix_declName]
      rfl

theorem lookup_setProperty (hs : Spelled ps) (ho : OneSpelling q ps) (r : Option CString) :
    lookup (decls (setProperty (declName q) url ps)) r =
      if q = r then some url else lookup (decls ps) r := by
  obtain ⟨ds, es, old, hps, hds, hold, -, hset⟩ := decls_setProperty url hs ho
  rw [hset, hps, lookup_append, lookup_cons, lookup_append, lookup_append]
  by_cases hq : q = r
  · subst hq
    rw [if_pos rfl, if_pos rfl, (lookup_eq_none_iff ds q).mpr hds, Option.none_or]
  · have hr : lookup old r = none := (lookup_eq_none_iff old r).mpr fun d hd he => hq (by
      rw [← hold d hd, he])
    rw [if_neg hq, if_neg hq, hr, Option.or_none]

theorem mem_decls_setProperty (hs : Spelled ps) (ho : OneSpelling q ps) {d : NsDecl}
    (hd : d ∈ decls (setProperty (declName q) url ps)) : d = (q, url) ∨ d ∈ decls ps := by
  obtain ⟨ds, es, old, hps, -, -, -, hset⟩ := decls_setProperty url hs ho
  rw [hset, List.mem_append, List.mem_cons] at hd
  rw [hps, List.mem_append, List.mem_append]
  rcases hd with hd | hd | hd
  · exact .inr (.inl (.inl hd))
  · exact .inl hd
  · exact .inr (.inr hd)

theorem filter_decls_setProperty (hs : Spelled ps) (ho : OneSpelling q ps) {f : NsDecl → Bool}
    (hf : ∀ d, d.1 = q → f d = false) :
    (decls (setProperty (declName q) url ps)).filter f = (decls ps).filter f := by
  obtain ⟨ds, es, old, hps, -, hold, -, hset⟩ := decls_setProperty url hs ho
  have hnone : old.filter f = [] := by
    rw [List.filter_eq_nil_iff]
    intro d hd
    rw [hf d (hold d hd)]
    decide
  rw [hset, hps, List.filter_append, List.filter_append, List.filter_append, hnone,
    List.filter_cons_of_neg (by rw [hf (q, url) rfl]; decide), List.append_nil]

end setting

/-! ### The declarations from above -/

/-- What an element does with the declarations that arrive: its attributes then, and the
declarations for the elements below. -/
def absorb (data : CString) : List (CString × CString) → List NsDecl →
    List (CString × CString) × List NsDecl
  | ps, [] => (ps, [])
  | ps, d :: pend =>
      if inUse data ps d.1 then absorb data (setProperty (declName d.1) d.2 ps) pend
      else ((absorb data ps pend).1, d :: (absorb data ps pend).2)

/-- All these declarations arrive, in their order. -/
def pushAll (pend : List NsDecl) (t : XmlDecls) : XmlDecls :=
  pend.foldl (fun t d => setNameSpaces d t) t

theorem pushAll_nil (pend : List NsDecl) : pushAll pend nil = nil := by
  induction pend with
  | nil => rfl
  | cons d pend ih => exact ih

theorem pushAll_tag (pend : List NsDecl) (data : CString) (ps : List (CString × CString))
    (children next : XmlDecls) : pushAll pend (node .tag data ps children next) =
      node .tag data (absorb data ps pend).1 (pushAll (absorb data ps pend).2 children)
        (pushAll pend next) := by
  induction pend generalizing ps children next with
  | nil => rfl
  | cons d pend ih =>
      rw [pushAll, List.foldl_cons, setNameSpaces, absorb]
      split
      · exact ih _ _ _
      · exact ih _ _ _

theorem pushAll_other {typ : XmlNodeType} (h : typ ≠ .tag) (pend : List NsDecl) (data : CString)
    (ps : List (CString × CString)) (children next : XmlDecls) :
    pushAll pend (node typ data ps children next) =
      node typ data ps children (pushAll pend next) := by
  induction pend generalizing next with
  | nil => rfl
  | cons d pend ih =>
      rw [pushAll, List.foldl_cons, setNameSpaces]
      · exact ih _
      · exact h

/-- The declarations `pend` arrive at an element with these attributes without a conflict. -/
structure Arrives (data : CString) (ps : List (CString × CString)) (pend : List NsDecl) : Prop where
  spelled : Spelled ps
  distinct : (ps.map Prod.fst).Nodup
  plain : ∀ d ∈ pend, ∀ p ∈ d.1, (p.bytes.take 5).map toLower ≠ xmlns.bytes
  single : ∀ a ∈ pend, ∀ p ∈ a.1, isUser data ps p = true →
    ∀ b ∈ pend ++ decls ps, strcaseEq (declName a.1) (declName b.1) = true → a.1 = b.1

/-- What becomes of the attributes and of the declarations. -/
structure Absorbed (data : CString) (ps : List (CString × CString)) (pend : List NsDecl)
    (r : List (CString × CString) × List NsDecl) : Prop where
  others : others r.1 = others ps
  spelled : Spelled r.1
  distinct : (r.1.map Prod.fst).Nodup
  passed : r.2 = passed data ps (decls ps) pend
  prefixes : ∀ p, lookup (decls r.1) (some p) =
    if isUser data ps p then (lookup pend.reverse (some p)).or (lookup (decls ps) (some p))
    else lookup (decls ps) (some p)
  dflt : lookup (decls r.1) none =
    if takesDefault data (decls ps) then lookup pend none else lookup (decls ps) none
  moved : (decls r.1).filter (fun d => !stays data ps d) =
    (decls ps).filter fun d => !stays data ps d
  mem : ∀ d ∈ decls r.1, d ∈ pend ++ decls ps

section absorbing

variable {data : CString} {ps : List (CString × CString)} {d : NsDecl} {pend : List NsDecl}

theorem Arrives.oneSpelling (h : Arrives data ps (d :: pend))
    (hd : ∀ p ∈ d.1, isUser data ps p = true) : OneSpelling d.1 ps := by
  intro pr hpr he
  have hdecl := isDecl_of_strcaseEq he (isDecl_declName d.1)
  have hname := h.spelled pr hpr hdecl
  rw [hname] at he ⊢
  cases hq : d.1 with
  | none =>
      rw [hq] at he
      rw [eq_none_of_strcaseEq_xmlns he]
  | some p =>
      have hsame := h.single d List.mem_cons_self p hq (hd p hq) _
        (List.mem_append_right _ (mem_decls ps hpr hdecl)) (strcaseEq_comm he)
      rw [← hq, hsame]

theorem Arrives.tail (h : Arrives data ps (d :: pend)) : Arrives data ps pend where
  spelled := h.spelled
  distinct := h.distinct
  plain := fun a ha => h.plain a (List.mem_cons_of_mem d ha)
  single := fun a ha p hp hu b hb =>
    h.single a (List.mem_cons_of_mem d ha) p hp hu b (List.mem_cons_of_mem d hb)

theorem Arrives.set (h : Arrives data ps (d :: pend)) (hd : ∀ p ∈ d.1, isUser data ps p = true) :
    Arrives data (setProperty (declName d.1) d.2 ps) pend where
  spelled := spelled_setProperty d.2 h.spelled
  distinct := nodup_setProperty d.2 h.distinct _
  plain := h.tail.plain
  single := by
    intro a ha p hp hu b hb
    rw [isUser_congr (others_setProperty d.2 ps d.1)] at hu
    have hsingle := h.single a (List.mem_cons_of_mem d ha) p hp hu
    rw [List.mem_append] at hb
    rcases hb with hb | hb
    · exact hsingle b (List.mem_append_left _ (List.mem_cons_of_mem d hb))
    · rcases mem_decls_setProperty d.2 h.spelled (h.oneSpelling hd) hb with rfl | hb
      · exact hsingle d List.mem_cons_self
      · exact hsingle b (List.mem_append_right _ hb)

theorem passed_cons_user (own : List NsDecl) {p : CString} (hd : d.1 = some p)
    (hu : isUser data ps p = true) : passed data ps own (d :: pend) = passed data ps own pend := by
  obtain ⟨q, url⟩ := d
  obtain rfl : q = some p := hd
  rw [passed, passed]
  split
  · rw [List.eraseP_cons_of_neg (by simp), List.filter_cons_of_neg (by simp [hu])]
  · rw [List.filter_cons_of_neg (by simp [hu])]

theorem passed_cons_other (own : List NsDecl) {p : CString} (hd : d.1 = some p)
    (hu : isUser data ps p = false) :
    passed data ps own (d :: pend) = d :: passed data ps own pend := by
  obtain ⟨q, url⟩ := d
  obtain rfl : q = some p := hd
  rw [passed, passed]
  split
  · rw [List.eraseP_cons_of_neg (by simp), List.filter_cons_of_pos (by simp [hu])]
  · rw [List.filter_cons_of_pos (by simp [hu])]

theorem passed_cons_default {own : List NsDecl} (hd : d.1 = none)
    (ht : takesDefault data own = false) :
    passed data ps own (d :: pend) = d :: passed data ps own pend := by
  obtain ⟨q, url⟩ := d
  obtain rfl : q = none := hd
  rw [passed, passed, ht, if_neg Bool.false_ne_true, if_neg Bool.false_ne_true,
    List.filter_cons_of_pos rfl]

theorem passed_cons_taken {own own' : List NsDecl} (hd : d.1 = none)
    (ht : takesDefault data own = true) (ht' : takesDefault data own' = false) :
    passed data ps own (d :: pend) = passed data ps own' pend := by
  obtain ⟨q, url⟩ := d
  obtain rfl : q = none := hd
  rw [passed, passed, ht, ht', if_pos rfl, if_neg Bool.false_ne_true, List.eraseP_cons_of_pos rfl]

theorem passed_congr {qs : List (CString × CString)} (h : others ps = others qs)
    (own : List NsDecl) (pend : List NsDecl) :
    passed data ps own pend = passed data qs own pend := by
  simp only [passed, isUser_congr h]

theorem stays_congr {qs : List (CString × CString)} (h : others ps = others qs) (d : NsDecl) :
    stays data ps d = stays data qs d := by
  simp only [stays, isUser_congr h]

theorem stays_of_fst_eq (data : CString) (ps : List (CString × CString)) {d e : NsDecl}
    (h : d.1 = e.1) : stays data ps d = stays data ps e := by
  rw [stays, stays, h]

theorem takesDefault_congr {own own' : List NsDecl} (h : lookup own none = lookup own' none) :
    takesDefault data own = takesDefault data own' := by
  rw [takesDefault, takesDefault, h]

variable {r : List (CString × CString) × List NsDecl}

theorem Arrives.moved_set (h : Arrives data ps (d :: pend))
    (hd : ∀ p ∈ d.1, isUser data ps p = true) (hstays : stays data ps d = true)
    (hres : Absorbed data (setProperty (declName d.1) d.2 ps) pend r) :
    (decls r.1).filter (fun e => !stays data ps e) =
      (decls ps).filter fun e => !stays data ps e := by
  have hm := hres.moved
  simp only [stays_congr (others_setProperty d.2 ps d.1)] at hm
  rw [hm]
  refine filter_decls_setProperty d.2 h.spelled (h.oneSpelling hd) fun e he => ?_
  rw [stays_of_fst_eq data ps he, hstays]
  rfl

theorem Arrives.mem_set (h : Arrives data ps (d :: pend))
    (hd : ∀ p ∈ d.1, isUser data ps p = true)
    (hres : Absorbed data (setProperty (declName d.1) d.2 ps) pend r) :
    ∀ e ∈ decls r.1, e ∈ d :: pend ++ decls ps := by
  intro e he
  rw [List.cons_append, List.mem_cons]
  rcases List.mem_append.mp (hres.mem e he) with he | he
  · exact .inr (List.mem_append_left _ he)
  · rcases mem_decls_setProperty d.2 h.spelled (h.oneSpelling hd) he with rfl | he
    · exact .inl rfl
    · exact .inr (List.mem_append_right _ he)

theorem lookup_reverse_cons (d : NsDecl) (pend : List NsDecl) (q : Option CString) :
    lookup (d :: pend).reverse q =
      (lookup pend.reverse q).or (if d.1 = q then some d.2 else none) := by
  rw [List.reverse_cons, lookup_append, lookup_cons, lookup_nil]

/-- The declaration of a prefix that is used is set. -/
theorem Arrives.absorbed_user (h : Arrives data ps (d :: pend)) {p : CString} (hq : d.1 = some p)
    (hu : isUser data ps p = true)
    (hres : Absorbed data (setProperty (declName d.1) d.2 ps) pend r) :
    Absorbed data ps (d :: pend) r := by
  have huser : ∀ p' ∈ d.1, isUser data ps p' = true := by
    intro p' hp'
    rw [hq, Option.mem_some_iff] at hp'
    rwa [← hp']
  have ho := h.oneSpelling huser
  have hset := others_setProperty d.2 ps d.1
  have hne : d.1 ≠ none := by
    rw [hq]
    exact Option.some_ne_none p
  have hdflt : lookup (decls (setProperty (declName d.1) d.2 ps)) none = lookup (decls ps) none := by
    rw [lookup_setProperty d.2 h.spelled ho, if_neg hne]
  have hstays : stays data ps d = true := by
    rw [stays, hq]
    exact hu
  refine ⟨hres.others.trans hset, hres.spelled, hres.distinct, ?_, fun p' => ?_, ?_,
    h.moved_set huser hstays hres, h.mem_set huser hres⟩
  · rw [hres.passed, passed_congr hset, passed_cons_user _ hq hu, passed, passed,
      takesDefault_congr hdflt]
  · rw [hres.prefixes, isUser_congr hset, lookup_setProperty d.2 h.spelled ho, lookup_reverse_cons]
    by_cases hp' : d.1 = some p'
    · obtain rfl : p = p' := Option.some.inj (hq.symm.trans hp')
      rw [if_pos hu, if_pos hp', if_pos hu, if_pos hp', Option.or_assoc]
      rfl
    · rw [if_neg hp', if_neg hp', Option.or_none]
  · rw [hres.dflt, takesDefault_congr hdflt, hdflt, lookup_cons, if_neg hne]

theorem Absorbed.other {p : CString} (hq : d.1 = some p) (hu : isUser data ps p = false) (hres : Absorbed data ps pend r) :
    Absorbed data ps (d :: pend) (r.1, d :: r.2) := by
  refine ⟨hres.others, hres.spelled, hres.distinct, ?_, fun p' => ?_, ?_, hres.moved,
    fun e he => List.mem_cons_of_mem d (hres.mem e he)⟩
  · rw [passed_cons_other _ hq hu, hres.passed]
  · rw [hres.prefixes, lookup_reverse_cons]
    by_cases hp' : d.1 = some p'
    · obtain rfl : p = p' := Option.some.inj (hq.symm.trans hp')
      rw [hu, if_neg Bool.false_ne_true, if_neg Bool.false_ne_true]
    · rw [if_neg hp', Option.or_none]
  · have hne : d.1 ≠ none := by
      rw [hq]
      exact Option.some_ne_none p
    rw [hres.dflt, lookup_cons, if_neg hne]

theorem Arrives.absorbed_taken (h : Arrives data ps (d :: pend)) (hq : d.1 = none)
    (ht : takesDefault data (decls ps) = true)
    (hres : Absorbed data (setProperty (declName d.1) d.2 ps) pend r) :
    Absorbed data ps (d :: pend) r := by
  have hne : ∀ p', d.1 ≠ some p' := fun p' hp' => Option.some_ne_none p' (hp'.symm.trans hq)
  have huser : ∀ p' ∈ d.1, isUser data ps p' = true := fun p' hp' => absurd hp' (hne p')
  have ho := h.oneSpelling huser
  have hset := others_setProperty d.2 ps d.1
  have hdflt : lookup (decls (setProperty (declName d.1) d.2 ps)) none = some d.2 := by
    rw [lookup_setProperty d.2 h.spelled ho, if_pos hq]
  have ht' : takesDefault data (decls (setProperty (declName d.1) d.2 ps)) = false := by
    rw [takesDefault, hdflt]
    exact Bool.and_false _
  have hstays : stays data ps d = true := by
    rw [takesDefault, Bool.and_eq_true] at ht
    rw [stays, hq]
    exact ht.1
  refine ⟨hres.others.trans hset, hres.spelled, hres.distinct, ?_, fun p' => ?_, ?_,
    h.moved_set huser hstays hres, h.mem_set huser hres⟩
  · rw [hres.passed, passed_congr hset, passed_cons_taken hq ht ht']
  · rw [hres.prefixes, isUser_congr hset, lookup_setProperty d.2 h.spelled ho, lookup_reverse_cons,
      if_neg (hne p'), if_neg (hne p'), Option.or_none]
  · rw [hres.dflt, ht', if_neg Bool.false_ne_true, hdflt, ht, if_pos rfl, lookup_cons, if_pos hq]

theorem Absorbed.default (hq : d.1 = none) (ht : takesDefault data (decls ps) = false) (hres : Absorbed data ps pend r) :
    Absorbed data ps (d :: pend) (r.1, d :: r.2) := by
  have hne : ∀ p', d.1 ≠ some p' := fun p' hp' => Option.some_ne_none p' (hp'.symm.trans hq)
  refine ⟨hres.others, hres.spelled, hres.distinct, ?_, fun p' => ?_, ?_, hres.moved,
    fun e he => List.mem_cons_of_mem d (hres.mem e he)⟩
  · rw [passed_cons_default hq ht, hres.passed]
  · rw [hres.prefixes, lookup_reverse_cons, if_neg (hne p'), Option.or_none]
  · rw [hres.dflt, ht, if_neg Bool.false_ne_true, if_neg Bool.false_ne_true]

theorem absorb_absorbed (h : Arrives data ps pend) : Absorbed data ps pend (absorb data ps pend) := by
  induction pend generalizing ps with
  | nil =>
      refine ⟨rfl, h.spelled, h.distinct, ?_, fun p => ?_, ?_, rfl, fun d hd => hd⟩
      · rw [passed, List.eraseP_nil, ite_self]
        rfl
      · rw [List.reverse_nil, lookup_nil, Option.none_or, ite_self]
        rfl
      · split
        · next ht =>
            rw [takesDefault, Bool.and_eq_true, Option.isNone_iff_eq_none] at ht
            exact ht.2
        · rfl
  | cons d pend ih =>
      rw [absorb]
      cases hq : d.1 with
      | some p =>
          rw [inUse_some h.spelled (h.plain d List.mem_cons_self p hq)]
          cases hu : isUser data ps p with
          | true =>
              have huser : ∀ p' ∈ d.1, isUser data ps p' = true := by
                intro p' hp'
                rw [hq, Option.mem_some_iff] at hp'
                rwa [← hp']
              rw [if_pos rfl, ← hq]
              exact h.absorbed_user hq hu (ih (h.set huser))
          | false =>
              rw [if_neg Bool.false_ne_true]
              exact (ih h.tail).other hq hu
      | none =>
          rw [inUse_none h.spelled]
          cases ht : takesDefault data (decls ps) with
          | true =>
              have huser : ∀ p' ∈ d.1, isUser data ps p' = true := fun p' hp' =>
                absurd (hq.symm.trans hp') (Option.some_ne_none p').symm
              rw [if_pos rfl, ← hq]
              exact h.absorbed_taken hq ht (ih (h.set huser))
          | false =>
              rw [if_neg Bool.false_ne_true]
              exact (ih h.tail).default hq ht

end absorbing

/-! ### The declarations of an element itself -/

/-- What an element does with its own declarations, which it takes off one after the other. -/
def settle (data : CString) : List (CString × CString) → List (CString × CString) →
    List (CString × CString) × List NsDecl
  | before, [] => (before, [])
  | before, pr :: rest =>
      if isDecl pr.1 then
        if inUse data (before ++ rest) (declPrefix pr.1) then settle data (pr :: before) rest
        else ((settle data before rest).1, (declPrefix pr.1, pr.2) :: (settle data before rest).2)
      else settle data (before ++ [pr]) rest

/-- What is written in an element has no two spellings of a prefix that is used there. -/
structure Apart (data : CString) (qs ps : List (CString × CString)) : Prop where
  same : others ps = others qs
  spelled : Spelled ps
  distinct : (ps.map Prod.fst).Nodup
  plain : ∀ d ∈ decls ps, ∀ p ∈ d.1, (p.bytes.take 5).map toLower ≠ xmlns.bytes
  single : ∀ a ∈ decls ps, ∀ p ∈ a.1, isUser data qs p = true →
    ∀ b ∈ decls ps, strcaseEq (declName a.1) (declName b.1) = true → a.1 = b.1

/-- What becomes of the attributes, and which declarations are for the elements below. -/
structure Settled (data : CString) (qs before rest : List (CString × CString))
    (r : List (CString × CString) × List NsDecl) : Prop where
  others : others r.1 = others (before ++ rest)
  moved : r.2 = (decls rest).filter fun d => !stays data qs d
  stay : ∀ d : NsDecl, lookup (decls r.1) d.1 =
    if stays data qs d then lookup (decls (before ++ rest)) d.1 else lookup (decls before) d.1

section settling

variable {data : CString} {qs before rest : List (CString × CString)} {pr : CString × CString}

theorem Apart.perm {ps ps' : List (CString × CString)} (h : Apart data qs ps)
    (hperm : ps'.Perm ps) (hsame : others ps' = others qs) : Apart data qs ps' where
  same := hsame
  spelled := fun pr hpr => h.spelled pr (hperm.mem_iff.mp hpr)
  distinct := (hperm.map Prod.fst).nodup_iff.mpr h.distinct
  plain := fun d hd => h.plain d ((hperm.filterMap _).mem_iff.mp hd)
  single := fun a ha p hp hu b hb =>
    h.single a ((hperm.filterMap _).mem_iff.mp ha) p hp hu b ((hperm.filterMap _).mem_iff.mp hb)

theorem Apart.erase (h : Apart data qs (before ++ pr :: rest)) (hd : isDecl pr.1 = true) :
    Apart data qs (before ++ rest) := by
  have hsub : (before ++ rest).Sublist (before ++ pr :: rest) :=
    (List.sublist_cons_self pr rest).append_left before
  have hdecls : ∀ d ∈ decls (before ++ rest), d ∈ decls (before ++ pr :: rest) := fun d hd =>
    (hsub.filterMap _).subset hd
  refine ⟨?_, fun pr hpr => h.spelled pr (hsub.subset hpr), (hsub.map _).nodup h.distinct,
    fun d hd => h.plain d (hdecls d hd), fun a ha p hp hu b hb =>
      h.single a (hdecls a ha) p hp hu b (hdecls b hb)⟩
  rw [← h.same, others_append, others_append, others_cons_decl rest hd]

theorem Apart.gone (h : Apart data qs (before ++ pr :: rest)) (hd : isDecl pr.1 = true)
    (hu : ∀ p ∈ declPrefix pr.1, isUser data qs p = true) :
    ∀ pr' ∈ before ++ rest, strcaseEq pr'.1 (declName (declPrefix pr.1)) = false := by
  intro pr' hpr'
  rw [Bool.eq_false_iff]
  intro he
  have hmem : pr ∈ before ++ pr :: rest := List.mem_append_right _ List.mem_cons_self
  have hsub : pr' ∈ before ++ pr :: rest :=
    ((List.sublist_cons_self pr rest).append_left before).subset hpr'
  have hname := h.spelled pr hmem hd
  have hd' := isDecl_of_strcaseEq he (isDecl_declName _)
  have hname' := h.spelled pr' hsub hd'
  have hprefix : declPrefix pr.1 = declPrefix pr'.1 := by
    rw [hname'] at he
    cases hq : declPrefix pr.1 with
    | none =>
        rw [hq] at he
        rw [eq_none_of_strcaseEq_xmlns he]
    | some p =>
        have := h.single _ (mem_decls _ hmem hd) p hq (hu p hq) _ (mem_decls _ hsub hd')
          (strcaseEq_comm he)
        rw [← hq]
        exact this
  have hsame : pr.1 = pr'.1 := by rw [hname, hname', hprefix]
  have hn := h.distinct
  rw [List.map_append, List.map_cons, List.nodup_middle, List.nodup_cons, ← List.map_append] at hn
  exact hn.1 (hsame ▸ List.mem_map_of_mem hpr')

theorem lookup_decls_gone {ps : List (CString × CString)} {q : Option CString}
    (h : ∀ pr ∈ ps, strcaseEq pr.1 (declName q) = false) (hs : Spelled ps) :
    lookup (decls ps) q = none := by
  rw [lookup_eq_none_iff]
  intro d hd hq
  obtain ⟨pr, hpr, he⟩ := List.mem_filterMap.mp hd
  split at he
  · next hdecl =>
      obtain rfl := Option.some.inj he
      have := h pr hpr
      rw [← hq, ← hs pr hpr hdecl, strcaseEq_iff.mpr rfl] at this
      cases this
  · cases he

theorem Apart.inUse_eq (h : Apart data qs (before ++ pr :: rest)) (hd : isDecl pr.1 = true) :
    inUse data (before ++ rest) (declPrefix pr.1) = stays data qs (declPrefix pr.1, pr.2) := by
  have herase := h.erase hd
  have hmem : pr ∈ before ++ pr :: rest := List.mem_append_right _ List.mem_cons_self
  cases hq : declPrefix pr.1 with
  | some p =>
      have hplain := h.plain _ (mem_decls _ hmem hd) p hq
      rw [inUse_some herase.spelled hplain, isUser_congr herase.same, stays]
  | none =>
      have hgone := h.gone hd (fun p hp => by rw [hq] at hp; cases hp)
      rw [hq] at hgone
      rw [inUse_none herase.spelled, takesDefault, lookup_decls_gone hgone herase.spelled, stays]
      exact Bool.and_true _

theorem settle_settled (h : Apart data qs (before ++ rest)) (children : XmlDecls) :
    Settled data qs before rest (settle data before rest) ∧
      moveDecls data rest.length before rest children =
        ((settle data before rest).1, pushAll (settle data before rest).2 children) := by
  induction rest generalizing before children with
  | nil =>
      refine ⟨⟨by rw [List.append_nil]; rfl, rfl, fun d => ?_⟩, ?_⟩
      · rw [List.append_nil, ite_self]
        rfl
      · rw [moveDecls, List.append_nil]
        · rfl
        · simp
  | cons pr rest ih =>
      rw [settle, List.length_cons, moveDecls]
      cases hd : isDecl pr.1 with
      | false =>
          have hmid : before ++ pr :: rest = (before ++ [pr]) ++ rest := by simp
          rw [hmid] at h
          obtain ⟨hset, hmove⟩ := ih h children
          rw [if_neg Bool.false_ne_true, if_neg Bool.false_ne_true]
          refine ⟨⟨hset.others.trans (by rw [hmid]), ?_, fun d => ?_⟩, hmove⟩
          · rw [hset.moved, decls_cons, hd, if_neg Bool.false_ne_true]
          · rw [hset.stay, hmid, decls_append before, decls_cons, hd, if_neg Bool.false_ne_true]
            simp only [decls, List.filterMap_nil, List.append_nil]
      | true =>
          rw [if_pos rfl, if_pos rfl, h.inUse_eq hd]
          have hname := h.spelled pr (List.mem_append_right _ List.mem_cons_self) hd
          cases hs : stays data qs (declPrefix pr.1, pr.2) with
          | true =>
              have hu : ∀ p ∈ declPrefix pr.1, isUser data qs p = true := by
                intro p hp
                rw [Option.mem_def] at hp
                rw [hp, stays] at hs
                exact hs
              have hgone := h.gone hd hu
              have hnew : setProperty (declName (declPrefix pr.1)) pr.2 (before ++ rest) =
                  pr :: before ++ rest := by
                rw [setProperty, if_neg, ← hname]
                · rfl
                · rw [List.any_eq_true]
                  rintro ⟨pr', hpr', he⟩
                  rw [hgone pr' hpr'] at he
                  cases he
              have hlen : (pr :: before ++ rest).length - rest.length = (pr :: before).length := by
                rw [List.length_append, Nat.add_sub_cancel]
              have hperm : (pr :: before ++ rest).Perm (before ++ pr :: rest) := by
                rw [List.cons_append]
                exact List.perm_middle.symm
              have hothers : others (pr :: before ++ rest) = others (before ++ pr :: rest) := by
                rw [List.cons_append, others_cons_decl _ hd, others_append, others_append,
                  others_cons_decl rest hd]
              obtain ⟨hset, hmove⟩ := ih (h.perm hperm (hothers.trans h.same)) children
              rw [if_pos rfl, if_pos rfl]
              simp only [hnew, hlen, List.take_left', List.drop_left']
              refine ⟨⟨hset.others.trans hothers, ?_, fun d => ?_⟩, hmove⟩
              · rw [hset.moved, decls_cons, if_pos hd, List.filter_cons_of_neg (by rw [hs]; decide)]
              · have hmem := lookup_decls_gone hgone (h.erase hd).spelled
                rw [decls_append, lookup_append, Option.or_eq_none_iff] at hmem
                rw [hset.stay, List.cons_append, decls_cons, if_pos hd, lookup_cons, decls_append,
                  lookup_append, decls_append, lookup_append, decls_cons, if_pos hd, lookup_cons,
                  decls_cons, if_pos hd, lookup_cons]
                by_cases hq : declPrefix pr.1 = d.1
                · have hsd : stays data qs d = true := (stays_of_fst_eq data qs hq).symm.trans hs
                  rw [if_pos hsd, if_pos hsd, if_pos hq, if_pos hq, ← hq, hmem.1, Option.none_or]
                · rw [if_neg hq, if_neg hq, if_neg hq]
          | false =>
              obtain ⟨hset, hmove⟩ := ih (h.erase hd)
                (setNameSpaces (declPrefix pr.1, pr.2) children)
              rw [if_neg Bool.false_ne_true, if_neg Bool.false_ne_true]
              refine ⟨⟨hset.others.trans ?_, ?_, fun d => ?_⟩, hmove⟩
              · rw [others_append, others_append, others_cons_decl rest hd]
              · rw [decls_cons, if_pos hd, List.filter_cons_of_pos (by rw [hs]; decide), hset.moved]
              · rw [hset.stay, decls_append, lookup_append, decls_append, lookup_append, decls_cons,
                  if_pos hd, lookup_cons]
                by_cases hq : declPrefix pr.1 = d.1
                · have hsd : stays data qs d = false := (stays_of_fst_eq data qs hq).symm.trans hs
                  rw [hsd, if_neg Bool.false_ne_true, if_neg Bool.false_ne_true]
                · rw [if_neg hq]

end settling

/-! ### One element -/

section element

variable {current : Option CString} {ps : List (CString × CString)}

theorem others_without (current : Option CString) (ps : List (CString × CString)) :
    others (without current ps) = others ps := by
  rw [others, without, List.filter_filter]
  refine List.filter_congr fun pr _ => ?_
  cases hd : isDecl pr.1 with
  | true => rfl
  | false =>
      rw [isDecl, Bool.or_eq_false_iff] at hd
      rw [hd.1]
      rfl

theorem Spelled.without (hs : Spelled ps) (current : Option CString) :
    Spelled (without current ps) := fun pr hpr => hs pr (List.mem_filter.mp hpr).1

theorem nodup_without (hn : (ps.map Prod.fst).Nodup) (current : Option CString) :
    ((without current ps).map Prod.fst).Nodup :=
  ((List.filter_sublist (p := _)).map Prod.fst).nodup hn

theorem nodup_decls (hs : Spelled ps) (hn : (ps.map Prod.fst).Nodup) :
    ((decls ps).map Prod.fst).Nodup := by
  induction ps with
  | nil => exact List.nodup_nil
  | cons pr ps ih =>
      rw [List.map_cons, List.nodup_cons] at hn
      rw [decls_cons]
      split
      · next hd =>
          rw [List.map_cons, List.nodup_cons]
          refine ⟨fun hmem => hn.1 ?_, ih hs.tail hn.2⟩
          obtain ⟨d, hd', hq⟩ := List.mem_map.mp hmem
          obtain ⟨pr', hpr', he⟩ := List.mem_filterMap.mp hd'
          split at he
          · next hdecl =>
              obtain rfl := Option.some.inj he
              have hq : declPrefix pr'.1 = declPrefix pr.1 := hq
              rw [hs pr List.mem_cons_self hd, ← hq, ← hs.tail pr' hpr' hdecl]
              exact List.mem_map_of_mem hpr'
          · cases he
      · exact ih hs.tail hn.2

theorem lookup_of_nodup_cons {d : NsDecl} {ds : List NsDecl}
    (hn : ((d :: ds).map Prod.fst).Nodup) : lookup ds d.1 = none := by
  rw [List.map_cons, List.nodup_cons] at hn
  rw [lookup_eq_none_iff]
  intro e he heq
  exact hn.1 (heq ▸ List.mem_map_of_mem he)

theorem lookup_reverse {ds : List NsDecl} (hn : (ds.map Prod.fst).Nodup) (q : Option CString) :
    lookup ds.reverse q = lookup ds q := by
  induction ds with
  | nil => rfl
  | cons d ds ih =>
      have hnone := lookup_of_nodup_cons hn
      rw [List.map_cons, List.nodup_cons] at hn
      rw [List.reverse_cons, lookup_append, ih hn.2, lookup_cons, lookup_cons, lookup_nil]
      by_cases hq : d.1 = q
      · rw [hq] at hnone
        rw [if_pos hq, if_pos hq, hnone, Option.none_or]
      · rw [if_neg hq, if_neg hq, Option.or_none]

/-- Only the default namespace can be in force already. -/
theorem lookup_without_some (hs : Spelled ps) (current : Option CString) (p : CString) :
    lookup (decls (without current ps)) (some p) = lookup (decls ps) (some p) := by
  induction ps with
  | nil => rfl
  | cons pr ps ih =>
      rw [without, List.filter_cons]
      split
      · rw [decls_cons, decls_cons]
        split
        · rw [lookup_cons, lookup_cons]
          exact congrArg _ (ih hs.tail)
        · exact ih hs.tail
      · next h =>
          simp only [Bool.not_eq_true', Bool.not_eq_false, Bool.and_eq_true] at h
          have hd : isDecl pr.1 = true := by
            rw [isDecl, h.1]
            rfl
          have hq : declPrefix pr.1 = none := by
            have hx := h.1
            rw [hs pr List.mem_cons_self hd] at hx
            exact eq_none_of_strcaseEq_xmlns hx
          rw [decls_cons, if_pos hd, lookup_cons, hq, if_neg (by simp)]
          exact ih hs.tail

theorem without_eq_self (hs : Spelled ps) (h : lookup (decls ps) none = none)
    (current : Option CString) : without current ps = ps := by
  rw [without, List.filter_eq_self]
  intro pr hpr
  have hne : strcaseEq pr.1 xmlns = false := by
    have hany := any_xmlns hs
    rw [h, Option.isSome_none, List.any_eq_false] at hany
    exact Bool.eq_false_iff.mpr (hany pr hpr)
  rw [hne]
  rfl

theorem declPrefix_eq_none {s : CString} (hs : strcaseEq s xmlns = true)
    (hd : s = declName (declPrefix s)) : declPrefix s = none := by
  rw [hd] at hs
  exact eq_none_of_strcaseEq_xmlns hs

theorem lookup_decls_cons_none {pr : CString × CString} (hs : Spelled (pr :: ps))
    (hx : strcaseEq pr.1 xmlns = false) :
    lookup (decls (pr :: ps)) none = lookup (decls ps) none := by
  rw [decls_cons]
  split
  · next hd =>
      rw [lookup_cons, if_neg]
      intro hq
      have hq : declPrefix pr.1 = none := hq
      have hname := hs pr List.mem_cons_self hd
      rw [hq] at hname
      rw [hname, declName, strcaseEq_iff.mpr rfl] at hx
      cases hx
  · rfl

/-- A default namespace is left out where it is in force already. -/
theorem lookup_without_none (hs : Spelled ps) (hn : (ps.map Prod.fst).Nodup)
    (current : Option CString) : lookup (decls (without current ps)) none =
      if lookup (decls ps) none = current then none else lookup (decls ps) none := by
  induction ps with
  | nil =>
      rw [without, List.filter_nil, decls, List.filterMap_nil, lookup_nil, ite_self]
  | cons pr ps ih =>
      have hnd := nodup_decls hs hn
      rw [List.map_cons, List.nodup_cons] at hn
      by_cases hx : strcaseEq pr.1 xmlns = true
      · have hd : isDecl pr.1 = true := by
          rw [isDecl, hx]
          rfl
        have hq := declPrefix_eq_none hx (hs pr List.mem_cons_self hd)
        rw [decls_cons, if_pos hd, hq] at hnd
        have hnone : lookup (decls ps) none = none := lookup_of_nodup_cons hnd
        have hrest := without_eq_self hs.tail hnone current
        rw [without] at hrest
        rw [without, List.filter_cons, hrest, hx, decls_cons ps pr, if_pos hd, lookup_cons, hq,
          if_pos rfl]
        by_cases hc : some pr.2 = current
        · rw [if_pos hc, if_neg (by simp [hc]), hnone]
        · rw [if_neg hc, if_pos (by simpa using Ne.symm hc), decls_cons, if_pos hd, lookup_cons, hq,
            if_pos rfl]
      · have hx := Bool.eq_false_iff.mpr hx
        have hkeep : without current (pr :: ps) = pr :: without current ps := by
          rw [without, List.filter_cons_of_pos (by simp [hx])]
          rfl
        have hs' : Spelled (pr :: without current ps) := hkeep ▸ Spelled.without hs current
        rw [hkeep, lookup_decls_cons_none hs' hx, lookup_decls_cons_none hs hx, ih hs.tail hn.2]

theorem lookup_eraseP (pend : List NsDecl) (p : CString) :
    lookup (pend.eraseP fun d => d.1.isNone).reverse (some p) = lookup pend.reverse (some p) := by
  induction pend with
  | nil => rfl
  | cons d pend ih =>
      cases hq : d.1 with
      | none =>
          rw [List.eraseP_cons_of_pos (by rw [hq]; rfl), List.reverse_cons, lookup_append,
            lookup_cons, hq, if_neg (by simp), lookup_nil, Option.or_none]
      | some q =>
          rw [List.eraseP_cons_of_neg (by rw [hq]; simp), List.reverse_cons, List.reverse_cons,
            lookup_append, lookup_append, ih]

theorem lookup_passed_some (data : CString) (ps : List (CString × CString))
    (own pend : List NsDecl) (p : CString) : lookup (passed data ps own pend).reverse (some p) =
      if isUser data ps p then none else lookup pend.reverse (some p) := by
  have herase : lookup (if takesDefault data own then pend.eraseP fun d => d.1.isNone
      else pend).reverse (some p) = lookup pend.reverse (some p) := by
    split
    · exact lookup_eraseP pend p
    · rfl
  rw [passed, ← List.filter_reverse]
  cases hu : isUser data ps p with
  | true =>
      rw [if_pos rfl]
      refine lookup_filter_of_none _ _ fun d hd => ?_
      simp only [hd, hu, Bool.not_true]
  | false =>
      rw [if_neg Bool.false_ne_true, ← herase]
      refine lookup_filter_of_all _ _ fun d hd => ?_
      simp only [hd, hu, Bool.not_false]

theorem lookup_passed_none {data : CString} {own : List NsDecl}
    (h : takesDefault data own = false) (ps : List (CString × CString)) (pend : List NsDecl) :
    lookup (passed data ps own pend) none = lookup pend none := by
  rw [passed, h, if_neg Bool.false_ne_true]
  refine lookup_filter_of_all _ _ fun d hd => ?_
  simp only [hd]

end element

/-! ### The whole tree -/

/-- The declarations above an element before and after the second pass, with those that are still
on their way. -/
structure Agree (pend env env' : List NsDecl) (current : Option CString) : Prop where
  prefixes : ∀ p, lookup env (some p) = (lookup pend.reverse (some p)).or (lookup env' (some p))
  dflt : lookup pend none = none → lookup env' none = lookup env none
  inForce : lookup env none = current

/-- The attributes of an element in the end. -/
def final (pend : List NsDecl) (current : Option CString) (data : CString)
    (ps : List (CString × CString)) : List (CString × CString) :=
  (settle data [] (absorb data (without current ps) pend).1).1

section step

variable {pend env env' : List NsDecl} {current : Option CString} {data : CString}
  {ps : List (CString × CString)}

theorem Peaceful.arrives (h : Peaceful pend (decls (without current ps)) current data ps) :
    Arrives data (without current ps) pend where
  spelled := Spelled.without h.spelled current
  distinct := nodup_without h.distinct current
  plain := fun d hd => h.plain d (List.mem_append_left _ hd)
  single := fun a ha p hp hu => by
    rw [isUser_congr (others_without current ps)] at hu
    exact h.prefixes a (List.mem_append_left _ ha) p hp hu

theorem Peaceful.apart (h : Peaceful pend (decls (without current ps)) current data ps) :
    Apart data ps ([] ++ (absorb data (without current ps) pend).1) := by
  have habs := absorb_absorbed h.arrives
  refine ⟨habs.others.trans (others_without current ps), habs.spelled, habs.distinct,
    fun d hd => h.plain d (habs.mem d hd), fun a ha p hp hu b hb => ?_⟩
  exact h.prefixes a (habs.mem a ha) p hp hu b (habs.mem b hb)

theorem Peaceful.others_final (h : Peaceful pend (decls (without current ps)) current data ps) :
    others (final pend current data ps) = others ps := by
  obtain ⟨hset, -⟩ := settle_settled h.apart nil
  exact hset.others.trans h.apart.same

theorem Peaceful.moved (h : Peaceful pend (decls (without current ps)) current data ps) :
    (absorb data (without current ps) pend).2 ++
        (settle data [] (absorb data (without current ps) pend).1).2 =
      passed data ps (decls (without current ps)) pend ++
        (decls (without current ps)).filter fun d => !stays data ps d := by
  obtain ⟨hset, -⟩ := settle_settled h.apart nil
  have habs := absorb_absorbed h.arrives
  have hsame := others_without current ps
  have hm := habs.moved
  simp only [stays_congr hsame] at hm
  rw [hset.moved, hm, habs.passed, passed_congr hsame]

theorem Peaceful.final_some (h : Peaceful pend (decls (without current ps)) current data ps)
    (p : CString) : lookup (decls (final pend current data ps)) (some p) =
      if isUser data ps p then
        (lookup pend.reverse (some p)).or (lookup (decls (without current ps)) (some p))
      else none := by
  obtain ⟨hset, -⟩ := settle_settled h.apart nil
  have habs := absorb_absorbed h.arrives
  have hstay := hset.stay (some p, p)
  simp only [stays, List.nil_append] at hstay
  rw [final, hstay, habs.prefixes, isUser_congr (others_without current ps)]
  split
  · rfl
  · rfl

theorem Peaceful.final_none (h : Peaceful pend (decls (without current ps)) current data ps) :
    lookup (decls (final pend current data ps)) none =
      if code ':' ∈ data.bytes then none
      else if takesDefault data (decls (without current ps)) then lookup pend none
      else lookup (decls (without current ps)) none := by
  obtain ⟨hset, -⟩ := settle_settled h.apart nil
  have habs := absorb_absorbed h.arrives
  have hstay := hset.stay (none, data)
  simp only [stays, List.nil_append] at hstay
  rw [final, hstay, habs.dflt]
  by_cases hc : code ':' ∈ data.bytes
  · simp only [if_pos hc, decide_eq_true hc, Bool.not_true, Bool.false_eq_true, if_false]
    rfl
  · simp only [if_neg hc, decide_eq_false hc, Bool.not_false, if_true]

theorem Agree.user (ha : Agree pend env env' current)
    (h : Peaceful pend (decls (without current ps)) current data ps) {p : CString}
    (hu : isUser data ps p = true) : lookup (decls (final pend current data ps) ++ env') (some p) =
      lookup (decls ps ++ env) (some p) := by
  rw [lookup_append, h.final_some, if_pos hu, lookup_append, ha.prefixes,
    lookup_without_some h.spelled]
  cases ho : lookup (decls ps) (some p) with
  | none => rw [Option.or_none, Option.none_or]
  | some v =>
      cases hl : lookup pend.reverse (some p) with
      | none => rfl
      | some u =>
          rw [← lookup_without_some h.spelled current] at ho
          have huv : u = v := h.redeclared _ (mem_of_lookup _ _ ho) p rfl hu u hl
          rw [huv]
          rfl

theorem Agree.unprefixed (ha : Agree pend env env' current)
    (h : Peaceful pend (decls (without current ps)) current data ps) (hc : code ':' ∉ data.bytes) :
    lookup (decls (final pend current data ps) ++ env') none = lookup (decls ps ++ env) none := by
  have hown := lookup_without_none h.spelled h.distinct current
  rw [lookup_append, h.final_none, if_neg hc, lookup_append, ha.inForce]
  cases ht : takesDefault data (decls (without current ps)) with
  | true =>
      have hnone : lookup (decls (without current ps)) none = none := by
        rw [takesDefault, Bool.and_eq_true, Option.isNone_iff_eq_none] at ht
        exact ht.2
      have hcur : (lookup (decls ps) none).or current = current := by
        rw [hnone] at hown
        split at hown
        · next he => rw [he, Option.or_self]
        · rw [← hown, Option.none_or]
      rw [if_pos rfl, hcur]
      cases hp : lookup pend none with
      | none => rw [Option.none_or, ha.dflt hp, ha.inForce]
      | some u => exact (h.taken ht u hp).symm
  | false =>
      rw [if_neg Bool.false_ne_true]
      have hsome : lookup (decls (without current ps)) none ≠ none := by
        intro he
        rw [takesDefault, he, decide_eq_false hc] at ht
        cases ht
      split at hown
      · exact absurd hown hsome
      · rw [hown] at hsome ⊢
        obtain ⟨v, hv⟩ := Option.ne_none_iff_exists'.mp hsome
        rw [hv]
        rfl

theorem Agree.below (ha : Agree pend env env' current)
    (h : Peaceful pend (decls (without current ps)) current data ps) :
    Agree (passed data ps (decls (without current ps)) pend ++
        (decls (without current ps)).filter fun d => !stays data ps d)
      (decls ps ++ env) (decls (final pend current data ps) ++ env')
      ((lookup (decls ps) none).or current) where
  inForce := by rw [lookup_append, ha.inForce]
  prefixes := by
    intro p
    have hpend : lookup (passed data ps (decls (without current ps)) pend ++
        (decls (without current ps)).filter fun d => !stays data ps d).reverse (some p) =
        (lookup ((decls (without current ps)).reverse.filter fun d => !stays data ps d)
          (some p)).or (if isUser data ps p then none else lookup pend.reverse (some p)) := by
      rw [List.reverse_append, lookup_append, ← List.filter_reverse, lookup_passed_some]
    rw [hpend]
    cases hu : isUser data ps p with
    | true =>
        rw [if_pos rfl, lookup_filter_of_none _ _ fun d hd => by simp only [stays, hd, hu, Bool.not_true],
          Option.none_or, Option.none_or, ha.user h hu]
    | false =>
        have hrev := lookup_reverse (nodup_decls (Spelled.without h.spelled current)
          (nodup_without h.distinct current)) (some p)
        rw [if_neg Bool.false_ne_true,
          lookup_filter_of_all _ _ fun d hd => by simp only [stays, hd, hu, Bool.not_false],
          hrev, lookup_without_some h.spelled, lookup_append, lookup_append, h.final_some, hu,
          if_neg Bool.false_ne_true, Option.none_or, ha.prefixes, Option.or_assoc]
  dflt := by
    intro hnone
    by_cases hc : code ':' ∈ data.bytes
    · have ht : takesDefault data (decls (without current ps)) = false := by
        rw [takesDefault, decide_eq_true hc]
        rfl
      have hown := lookup_without_none h.spelled h.distinct current
      rw [lookup_append, lookup_passed_none ht, lookup_filter_of_all _ _ fun d hd => by
        simp only [stays, hd, decide_eq_true hc, Bool.not_true, Bool.not_false],
        Option.or_eq_none_iff] at hnone
      rw [lookup_append, h.final_none, if_pos hc, Option.none_or, lookup_append, ha.dflt hnone.1,
        ha.inForce]
      rw [hnone.2] at hown
      split at hown
      · next he => rw [he, Option.or_self]
      · rw [← hown, Option.none_or]
    · exact ha.unprefixed h hc

end step

/-- The tree without the declarations that are in force already. -/
def prune : Option CString → XmlDecls → XmlDecls
  | _, nil => nil
  | current, node .tag data properties children next =>
      node .tag data (without current properties)
        (prune ((lookup (decls properties) none).or current) children) (prune current next)
  | current, node typ data properties children next =>
      node typ data properties children (prune current next)

theorem size_prune (t : XmlDecls) (current : Option CString) : (prune current t).size = t.size := by
  induction t generalizing current with
  | nil => rfl
  | node typ data properties children next ihc ihn =>
      cases typ with
      | tag => rw [prune, size, size, ihc, ihn]
      | data | comment => simp only [prune, size, ihn]

/-! ### The prefixes that are used -/

theorem take_idxOf (l : List UInt8) (c : UInt8) : l.take (l.idxOf c) = l.takeWhile (· != c) := by
  induction l with
  | nil => rfl
  | cons b l ih =>
      by_cases hb : b = c
      · subst hb
        rw [List.idxOf_cons_self, List.take_zero, List.takeWhile_cons_of_neg (by simp)]
      · rw [List.idxOf_cons_ne l hb, List.take_succ_cons, ih,
          List.takeWhile_cons_of_pos (by simpa using hb)]

theorem startsWith_prefixOf {s : CString} (h : code ':' ∈ s.bytes) :
    startsWith s (prefixOf s) = true := by
  have hbytes : (prefixOf s).bytes = s.bytes.take (s.bytes.idxOf (code ':')) := by
    rw [prefixOf, if_pos h, CString.ofBytes_bytes XmlSpaces.not_mem_zero_takeWhile, take_idxOf]
  rw [startsWith, hbytes, List.take_take, min_self, decide_eq_true h, Bool.true_and, beq_iff_eq]

theorem isUser_of_mem_refs {data : CString} {p : CString}
    (h : some p ∈ refs data ps) : isUser data ps p = true := by
  rw [refs, List.mem_cons] at h
  rw [isUser, Bool.or_eq_true]
  rcases h with h | h
  · split at h
    · next hc =>
        rw [Option.some.inj h]
        exact .inl (startsWith_prefixOf hc)
    · cases h
  · obtain ⟨pr, hpr, he⟩ := List.mem_filterMap.mp h
    split at he
    · next hc =>
        obtain rfl := Option.some.inj (Option.some.inj he)
        exact .inr (List.any_eq_true.mpr ⟨pr, hpr, startsWith_prefixOf hc⟩)
    · cases he

theorem colon_not_mem_of_mem_refs {data : CString}
    (h : none ∈ refs data ps) : code ':' ∉ data.bytes := by
  rw [refs, List.mem_cons] at h
  rcases h with h | h
  · split at h
    · cases h
    · assumption
  · obtain ⟨pr, -, he⟩ := List.mem_filterMap.mp h
    split at he <;> cases he

theorem refs_congr {data : CString} {ps qs : List (CString × CString)} (h : others ps = others qs) :
    refs data ps = refs data qs := by
  rw [refs, refs, h]

/-- In the second pass all names keep their URLs, whichever declarations are still on their way. -/
theorem resolved_checkNameSpaceDecls3 (t : XmlDecls) {k : ℕ} {pend env env' : List NsDecl}
    {current : Option CString} (hk : t.size ≤ k) (h : Settles pend current t)
    (ha : Agree pend env env' current) :
    resolved env' (checkNameSpaceDecls3 k (pushAll pend (prune current t))) = resolved env t ∧
      bare (checkNameSpaceDecls3 k (pushAll pend (prune current t))) = bare t := by
  induction t generalizing k pend env env' current with
  | nil =>
      rw [prune, pushAll_nil]
      cases k <;> exact ⟨rfl, rfl⟩
  | node typ data ps children next ihc ihn =>
      rw [size] at hk
      obtain ⟨k, rfl⟩ : ∃ k', k = k' + 1 := ⟨k - 1, by omega⟩
      cases typ with
      | tag =>
          obtain ⟨hp, hc, hn⟩ := h
          obtain ⟨-, hmove⟩ := settle_settled hp.apart
            (pushAll (absorb data (without current ps) pend).2
              (prune ((lookup (decls ps) none).or current) children))
          have hmoved := hp.moved
          have hfinal : final pend current data ps =
            (settle data [] (absorb data (without current ps) pend).1).1 := rfl
          have hnode : checkNameSpaceDecls3 (k + 1)
              (pushAll pend (prune current (node .tag data ps children next))) =
              node .tag data (final pend current data ps)
                (checkNameSpaceDecls3 k (pushAll (passed data ps (decls (without current ps)) pend ++
                    (decls (without current ps)).filter fun d => !stays data ps d)
                  (prune ((lookup (decls ps) none).or current) children)))
                (checkNameSpaceDecls3 k (pushAll pend (prune current next))) := by
            rw [prune, pushAll_tag, checkNameSpaceDecls3, hmove, ← hmoved, hfinal]
            simp only [pushAll, List.foldl_append]
          obtain ⟨hcr, hcb⟩ := ihc (by omega : children.size ≤ k) hc (ha.below hp)
          obtain ⟨hnr, hnb⟩ := ihn (by omega : next.size ≤ k) hn ha
          rw [hnode]
          constructor
          · rw [resolved, resolved, hcr, hnr, refs_congr hp.others_final]
            refine congrArg₂ _ (congrArg₂ _ (List.map_congr_left fun r hr => ?_) rfl) rfl
            cases r with
            | none => exact ha.unprefixed hp (colon_not_mem_of_mem_refs hr)
            | some p => exact ha.user hp (isUser_of_mem_refs hr)
          · rw [bare, bare, hcb, hnb, hp.others_final]
      | data | comment =>
          obtain ⟨hnr, hnb⟩ := ihn (by omega : next.size ≤ k) h ha
          rw [prune, pushAll_other (by decide), checkNameSpaceDecls3]
          · exact ⟨hnr, by rw [bare, bare, hnb] <;> simp⟩
          all_goals simp

/-! ### The first pass -/

def pointer : Option CString → CurrentNs
  | none => .null
  | some ns => .live ns

/-- No entry looks like one of these declarations. -/
def Fresh (sl : List CString) (ds : List NsDecl) : Prop :=
  ∀ x ∈ sl, ∀ d ∈ ds, ∀ q ∈ d.1, strcaseEq (localOf x) q = false

/-- The entries that were there, and those for these declarations. -/
def Extends (sl sl' : List CString) (ds : List NsDecl) : Prop :=
  ∀ x ∈ sl', x ∈ sl ∨ ∃ d ∈ ds, ∃ p ∈ d.1, x = joinName p d.2

variable {sl : List CString}

theorem mem_addNameSpace {p name x : CString}
    (h : x ∈ addNameSpace sl p name) : x ∈ sl ∨ x = joinName p name := by
  rw [addNameSpace] at h
  split at h
  · exact .inl h
  · rw [List.mem_append, List.mem_singleton] at h
    exact h

theorem Extends.refl (sl : List CString) (ds : List NsDecl) : Extends sl sl ds :=
  fun _ hx => .inl hx

theorem Extends.trans {sl sl' sl'' : List CString} {ds es : List NsDecl} (h : Extends sl sl' ds)
    (h' : Extends sl' sl'' es) : Extends sl sl'' (ds ++ es) := by
  intro x hx
  rcases h' x hx with hx | ⟨d, hd, p, hp, he⟩
  · rcases h x hx with hx | ⟨d, hd, p, hp, he⟩
    · exact .inl hx
    · exact .inr ⟨d, List.mem_append_left _ hd, p, hp, he⟩
  · exact .inr ⟨d, List.mem_append_right _ hd, p, hp, he⟩

theorem Fresh.of_extends {sl sl' : List CString} {ds es : List NsDecl} (h : Fresh sl es)
    (hext : Extends sl sl' ds) (hun : ∀ a ∈ ds, ∀ b ∈ es, UnlikePrefix a b) : Fresh sl' es := by
  intro x hx d hd q hq
  rcases hext x hx with hx | ⟨a, ha, p, hp, rfl⟩
  · exact h x hx d hd q hq
  · exact hun a ha d hd p hp q hq

theorem Fresh.find {ds : List NsDecl} (h : Fresh sl ds) {d : NsDecl}
    (hd : d ∈ ds) {q : CString} (hq : q ∈ d.1) : findNameSpaceByName sl q = none := by
  rw [findNameSpaceByName, List.find?_eq_none]
  intro x hx
  rw [h x hx d hd q hq]
  exact Bool.false_ne_true

theorem extends_addNameSpace (sl : List CString) (q url : CString) :
    Extends sl (addNameSpace sl q url) [(some q, url)] := fun _ hx =>
  (mem_addNameSpace hx).imp_right fun he => ⟨_, List.mem_singleton_self _, _, rfl, he⟩

theorem Fresh.add {q url : CString} {ds : List NsDecl}
    (h : Fresh sl ((some q, url) :: ds)) (hun : ∀ b ∈ ds, UnlikePrefix (some q, url) b) :
    Fresh (addNameSpace sl q url) ds := by
  have hds : Fresh sl ds := fun x hx d hd => h x hx d (List.mem_cons_of_mem _ hd)
  refine hds.of_extends (extends_addNameSpace sl q url) fun a ha b hb => ?_
  rw [List.mem_singleton.mp ha]
  exact hun b hb

section firstPass

variable {ps : List (CString × CString)}

theorem isPrefixDecl_cases {pr : CString × CString} (hs : Spelled (pr :: ps))
    (hx : strcaseEq pr.1 xmlns = false) : isDecl pr.1 = isPrefixDecl pr.1 ∧
      (isPrefixDecl pr.1 = true → declPrefix pr.1 = some (localOf pr.1)) := by
  have hd : isDecl pr.1 = isPrefixDecl pr.1 := by rw [isDecl, hx, Bool.false_or]
  refine ⟨hd, fun hp => ?_⟩
  have hname := hs pr List.mem_cons_self (hd.trans hp)
  rw [declPrefix]
  split
  · rfl
  · next hc =>
      have hnone : declPrefix pr.1 = none := if_neg hc
      rw [hname, hnone, declName, strcaseEq_iff.mpr rfl] at hx
      cases hx

theorem checkProperties_prefixes (hs : Spelled ps) (hdflt : lookup (decls ps) none = none)
    {st : Decls1} (hsl : Fresh st.sl (decls ps)) (hun : (decls ps).Pairwise UnlikePrefix) :
    ∃ sl', checkProperties ps st = .ok (ps, { st with sl := sl' }) ∧
      Extends st.sl sl' (decls ps) := by
  induction ps generalizing st with
  | nil => exact ⟨st.sl, rfl, Extends.refl _ _⟩
  | cons pr ps ih =>
      have hx : strcaseEq pr.1 xmlns = false := by
        have hany := any_xmlns hs
        rw [hdflt, Option.isSome_none, List.any_eq_false] at hany
        exact Bool.eq_false_iff.mpr (hany pr List.mem_cons_self)
      obtain ⟨hd, hprefix⟩ := isPrefixDecl_cases hs hx
      rw [checkProperties, hx, if_neg Bool.false_ne_true]
      cases hp : isPrefixDecl pr.1 with
      | false =>
          rw [decls_cons, hd, hp, if_neg Bool.false_ne_true] at hdflt hsl hun ⊢
          obtain ⟨sl', hrun, hext⟩ := ih hs.tail hdflt hsl hun
          rw [if_neg Bool.false_ne_true, hrun]
          exact ⟨sl', rfl, hext⟩
      | true =>
          have hq := hprefix hp
          rw [decls_cons, hd, hp, if_pos rfl, hq] at hdflt hsl hun ⊢
          rw [lookup_cons, if_neg (by simp)] at hdflt
          rw [List.pairwise_cons] at hun
          obtain ⟨sl', hrun, hext⟩ := @ih hs.tail hdflt
            { st with sl := addNameSpace st.sl (localOf pr.1) pr.2 } (hsl.add hun.1) hun.2
          rw [if_pos rfl, hsl.find List.mem_cons_self rfl]
          simp only [hrun]
          exact ⟨sl', rfl, (extends_addNameSpace _ _ _).trans hext⟩

theorem inForce_none (sl : List CString) (current : Option CString) :
    Decls1.inForce ⟨sl, none, pointer current⟩ = pointer current := rfl

/-- The first attribute declares a default namespace: it is left out, or it is in force then. -/
theorem checkProperties_default {pr : CString × CString} (hs : Spelled (pr :: ps))
    (hx : strcaseEq pr.1 xmlns = true) (hnone : lookup (decls ps) none = none)
    {current : Option CString} (hsame : ∀ ns ∈ current, strcaseEq pr.2 ns = true → pr.2 = ns)
    {sl : List CString} (hsl : Fresh sl (decls ps)) (hun : (decls ps).Pairwise UnlikePrefix) :
    ∃ st, checkProperties (pr :: ps) ⟨sl, none, pointer current⟩ =
        .ok (without current (pr :: ps), st) ∧
      st.inForce = .live pr.2 ∧ Extends sl st.sl (decls ps) := by
  have hrest := without_eq_self hs.tail hnone current
  rw [without] at hrest
  have hkeep : ∀ st : Decls1, st.sl = sl → ∃ st',
      (checkProperties ps { st with localNameSpace := some pr.2 }).map
          (fun r => (pr :: r.1, r.2)) = .ok (pr :: ps, st') ∧
        st'.inForce = .live pr.2 ∧ Extends sl st'.sl (decls ps) := by
    rintro st rfl
    obtain ⟨sl', hrun, hext⟩ := @checkProperties_prefixes ps hs.tail hnone
      { st with localNameSpace := some pr.2 } hsl hun
    rw [hrun]
    exact ⟨_, rfl, rfl, hext⟩
  rw [checkProperties, if_pos hx, inForce_none, without, List.filter_cons, hrest, hx]
  cases current with
  | none => exact hkeep ⟨sl, none, .null⟩ rfl
  | some ns =>
      simp only [pointer]
      cases hns : strcaseEq pr.2 ns with
      | false =>
          have hne : ns ≠ pr.2 := by
            rintro rfl
            rw [strcaseEq_iff.mpr rfl] at hns
            cases hns
          rw [if_neg Bool.false_ne_true, if_pos (by simpa using hne)]
          exact hkeep ⟨sl, none, .live ns⟩ rfl
      | true =>
          have he := hsame ns rfl hns
          obtain ⟨sl', hrun, hext⟩ := @checkProperties_prefixes ps hs.tail hnone
            ⟨sl, none, .live ns⟩ hsl hun
          rw [if_pos rfl, if_neg (by simp [he]), hrun]
          refine ⟨_, rfl, ?_, hext⟩
          rw [he]
          rfl

/-- In an element only a default namespace that is in force already is left out. -/
theorem checkProperties_eq (hs : Spelled ps) (hn : (ps.map Prod.fst).Nodup)
    {current : Option CString} (hsame : ∀ ns ∈ current, ∀ url ∈ lookup (decls ps) none,
      strcaseEq url ns = true → url = ns) {sl : List CString} (hsl : Fresh sl (decls ps))
    (hun : (decls ps).Pairwise UnlikePrefix) :
    ∃ st, checkProperties ps ⟨sl, none, pointer current⟩ = .ok (without current ps, st) ∧
      st.inForce = pointer ((lookup (decls ps) none).or current) ∧ Extends sl st.sl (decls ps) := by
  induction ps generalizing sl with
  | nil => exact ⟨⟨sl, none, pointer current⟩, rfl, rfl, Extends.refl _ _⟩
  | cons pr ps ih =>
      have hnd := nodup_decls hs hn
      rw [List.map_cons, List.nodup_cons] at hn
      cases hx : strcaseEq pr.1 xmlns with
      | true =>
          have hd : isDecl pr.1 = true := by
            rw [isDecl, hx]
            rfl
          have hq := declPrefix_eq_none hx (hs pr List.mem_cons_self hd)
          have hdecls : decls (pr :: ps) = (none, pr.2) :: decls ps := by
            rw [decls_cons, if_pos hd, hq]
          rw [hdecls] at hsame hsl hun hnd ⊢
          rw [List.pairwise_cons] at hun
          have hnone : lookup (decls ps) none = none := lookup_of_nodup_cons hnd
          have hfresh : Fresh sl (decls ps) := fun x hx d hd => hsl x hx d (List.mem_cons_of_mem _ hd)
          have hurl : ∀ ns ∈ current, strcaseEq pr.2 ns = true → pr.2 = ns := fun ns hns =>
            hsame ns hns pr.2 (by rw [lookup_cons, if_pos rfl]; rfl)
          obtain ⟨st, hrun, hforce, hext⟩ := checkProperties_default hs hx hnone hurl hfresh hun.2
          refine ⟨st, hrun, ?_, (Extends.refl sl [(none, pr.2)]).trans hext⟩
          rw [lookup_cons, if_pos rfl, hforce]
          rfl
      | false =>
          obtain ⟨hd, hprefix⟩ := isPrefixDecl_cases hs hx
          have hkeep : without current (pr :: ps) = pr :: without current ps := by
            rw [without, List.filter_cons_of_pos (by simp [hx])]
            rfl
          rw [checkProperties, hx, if_neg Bool.false_ne_true, hkeep]
          cases hp : isPrefixDecl pr.1 with
          | false =>
              rw [decls_cons, hd, hp, if_neg Bool.false_ne_true] at hsame hsl hun ⊢
              obtain ⟨st, hrun, hforce, hext⟩ := ih hs.tail hn.2 hsame hsl hun
              rw [if_neg Bool.false_ne_true, hrun]
              exact ⟨st, rfl, hforce, hext⟩
          | true =>
              have hdecls : decls (pr :: ps) = (some (localOf pr.1), pr.2) :: decls ps := by
                rw [decls_cons, hd, hp, if_pos rfl, hprefix hp]
              have hlook : lookup (decls (pr :: ps)) none = lookup (decls ps) none := by
                rw [hdecls, lookup_cons, if_neg (by simp)]
              rw [hlook] at hsame ⊢
              rw [hdecls] at hsl hun ⊢
              rw [List.pairwise_cons] at hun
              obtain ⟨st, hrun, hforce, hext⟩ := ih hs.tail hn.2 hsame (hsl.add hun.1) hun.2
              rw [if_pos rfl, hsl.find List.mem_cons_self rfl]
              simp only
              rw [hrun]
              exact ⟨st, rfl, hforce, (extends_addNameSpace _ _ _).trans hext⟩

end firstPass

/-- The first pass leaves out the declarations of default namespaces that are in force already. -/
theorem checkNameSpaceDecls1_eq (t : XmlDecls) {pend : List NsDecl} {current : Option CString}
    (h : Settles pend current t) (hsl : Fresh sl t.allDecls)
    (hun : t.allDecls.Pairwise UnlikePrefix) :
    ∃ sl', checkNameSpaceDecls1 t sl (pointer current) = .ok (prune current t, sl') ∧
      Extends sl sl' t.allDecls := by
  induction t generalizing pend current sl with
  | nil => exact ⟨sl, rfl, Extends.refl _ _⟩
  | node typ data ps children next ihc ihn =>
      cases typ with
      | tag =>
          obtain ⟨hp, hc, hn⟩ := h
          rw [allDecls] at hsl hun ⊢
          rw [List.pairwise_append, List.pairwise_append] at hun
          obtain ⟨⟨hun1, hun2, hun12⟩, hun3, hun13⟩ := hun
          have hsl1 : Fresh sl (decls ps) := fun x hx d hd =>
            hsl x hx d (List.mem_append_left _ (List.mem_append_left _ hd))
          have hsl2 : Fresh sl children.allDecls := fun x hx d hd =>
            hsl x hx d (List.mem_append_left _ (List.mem_append_right _ hd))
          have hsl3 : Fresh sl next.allDecls := fun x hx d hd =>
            hsl x hx d (List.mem_append_right _ hd)
          obtain ⟨st, hrun, hforce, hext⟩ :=
            checkProperties_eq hp.spelled hp.distinct hp.sameCase hsl1 hun1
          obtain ⟨sl', hrun', hext'⟩ := ihc hc (hsl2.of_extends hext hun12) hun2
          obtain ⟨sl'', hrun'', hext''⟩ :=
            ihn hn (hsl3.of_extends (hext.trans hext') hun13) hun3
          refine ⟨sl'', ?_, (hext.trans hext').trans hext''⟩
          simp only [checkNameSpaceDecls1, prune, hrun, hforce, hrun', hrun'', bind, Except.bind]
      | data | comment =>
          obtain ⟨sl', hrun, hext⟩ := ihn h hsl hun
          refine ⟨sl', ?_, hext⟩
          simp only [checkNameSpaceDecls1, prune, hrun, bind, Except.bind]

/-- Normalising a tree keeps its meaning where the declarations do not get in each other's way. -/
theorem keepsUrls_of_fits (data : CString) (properties : List (CString × CString))
    (children : XmlDecls) (h : Fits (node .tag data properties children nil)) :
    KeepsUrls (node .tag data properties children nil) := by
  generalize node .tag data properties children nil = t at h ⊢
  obtain ⟨hown, hun, hsettles⟩ := h
  have hfresh : Fresh [] t.allDecls := fun x hx => absurd hx List.not_mem_nil
  obtain ⟨sl', hrun, -⟩ := checkNameSpaceDecls1_eq t hsettles hfresh hun
  have hagree : Agree [] [] [] none := ⟨fun _ => rfl, fun _ => rfl, rfl⟩
  have hrun' : normalizeNameSpaces t =
      .ok (checkNameSpaceDecls3 (prune none t).size (prune none t)) := by
    rw [normalizeNameSpaces, hown, show CurrentNs.null = pointer none from rfl, hrun]
    rfl
  rw [KeepsUrls, hrun']
  exact resolved_checkNameSpaceDecls3 t (size_prune t none).ge hsettles hagree

/-- In `<p:a xmlns:p="u" xmlns:q="v"><b q:c=""/></p:a>` one declaration stays and one moves. -/
theorem keepsUrls_of_fits_two : KeepsUrls (node .tag (CString.ofChars ['p', ':', 'a'])
      [(declName (some (CString.ofChars ['p'])), CString.ofChars ['u']),
        (declName (some (CString.ofChars ['q'])), CString.ofChars ['v'])]
      (node .tag (CString.ofChars ['b']) [(CString.ofChars ['q', ':', 'c'], CString.ofChars [])]
        nil nil) nil) := by
  refine keepsUrls_of_fits _ _ _ ⟨by decide, by decide, ?_, ?_, trivial⟩
  · exact ⟨by decide, by decide, by decide, by decide,
      by decide, by decide, by decide⟩
  · refine ⟨?_, trivial, trivial⟩
    exact ⟨by decide, by decide, by decide, by decide,
      by decide, by decide, by decide⟩

/-- `<a xmlns="u"/>` becomes `<a/>`. -/
theorem not_keepsUrls_top :
    ¬ ∀ (data : CString) (properties : List (CString × CString)) (children : XmlDecls),
      PrefixesDeclared [] (node .tag data properties children nil) →
        KeepsUrls (node .tag data properties children nil) := by
  intro h
  have hk := h (CString.ofChars ['a']) [(xmlns, CString.ofChars ['u'])] nil
    ⟨by decide, trivial, trivial⟩
  have hrun : normalizeNameSpaces
      (node .tag (CString.ofChars ['a']) [(xmlns, CString.ofChars ['u'])] nil nil) =
      .ok (node .tag (CString.ofChars ['a']) [] nil nil) := by
    rfl
  rw [KeepsUrls, hrun] at hk
  revert hk
  decide

end XmlDecls
end Gwenhywfar
