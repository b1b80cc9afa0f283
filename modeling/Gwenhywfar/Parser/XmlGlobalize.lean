import Gwenhywfar.Parser.XmlDoc

/-! # One list of namespaces for a whole XML tree

* `XmlSpaces`: the nodes of a tree with their names, attributes and namespace entries.
* `globalize`: `GWEN_XMLNode_Globalize`; `Changed` is what its parts leave behind.
* `Use`: a name that is to be translated, with the entries that it is looked up in.
* `KeepsMeaning`: every name stands for the same URL afterwards; after an error the tree is as it
  was.
* Names are translated while the namespaces are collected, hence a name without a definition
  leaves those before it translated (`keepsMeaning_iff`). -/

namespace Gwenhywfar

open CString (ofBytes)

set_option maxRecDepth 4000

/-- `GWEN_XMLNODE_NAMESPACE`. -/
structure NameSpace where
  name : CString
  url : CString
deriving DecidableEq

/-- A list of nodes; the data of a tag is its name. -/
inductive XmlSpaces
  | nil
  | node (typ : XmlNodeType) (data : Option CString)
      (properties : List (CString × Option CString)) (nameSpaces : List NameSpace)
      (children next : XmlSpaces)
deriving DecidableEq

namespace XmlSpaces

/-! ### Names -/

/-- The part of a name before the first `:`; without a `:` it is empty. -/
def prefixOf (v : CString) : CString :=
  if code ':' ∈ v.bytes then ofBytes (v.bytes.takeWhile (· != code ':'))
  else ofBytes []

/-- The part of a name behind the first `:`; without a `:` it is the name. -/
def localOf (v : CString) : CString :=
  if code ':' ∈ v.bytes then ofBytes (v.bytes.dropWhile (· != code ':')).tail else v

/-- A prefix, a `:` and the rest of a name. -/
def joinName (name rest : CString) : CString :=
  ofBytes (name.bytes ++ code ':' :: rest.bytes)

/-- `snprintf(namebuf, sizeof(namebuf)-1, "_%d_", id)`. -/
def spaceName (id : UInt32) : CString :=
  ofBytes (code '_' :: (printInt id.toInt32 ++ [code '_']))

/-! ### The code -/

/-- What is returned; the program may be aborted instead. -/
inductive GlobalRv
  | ok
  | noData
  | aborted
deriving DecidableEq

/-- The new namespaces, and the last number that was given to one. -/
structure SpaceList where
  entries : List NameSpace
  lastId : UInt32
deriving DecidableEq

/-- What a function leaves behind of the new namespaces and of a part of the tree. -/
structure Changed (α : Type) where
  rv : GlobalRv
  list : SpaceList
  part : α
deriving DecidableEq

namespace Changed

variable {α β : Type}

/-- One part is changed and then another one; after an error that one is left alone. -/
def andThen (r : Changed α) (b : β) (f : SpaceList → Changed β) : Changed (α × β) :=
  if r.rv = .ok then ⟨(f r.list).rv, (f r.list).list, r.part, (f r.list).part⟩
  else ⟨r.rv, r.list, r.part, b⟩

def map (g : α → β) (r : Changed α) : Changed β := ⟨r.rv, r.list, g r.part⟩

end Changed

/-- `GWEN_XMLGL__FindNameSpaceByUrl`. -/
def findNameSpaceByUrl (l : List NameSpace) (s : CString) : Option NameSpace :=
  l.find? fun ns => strcaseEq ns.url s

/-- `GWEN_XMLGL__GetNameSpaceByPrefix`, with the entries of the tags from a node upwards. -/
def getNameSpaceByPrefix (up : List NameSpace) (p : CString) : Option NameSpace :=
  up.find? fun ns => strcaseEq ns.name p

/-- `GWEN_XMLGL__TranslateName`. -/
def translateName (up : List NameSpace) (v : CString) (l : SpaceList) : Changed CString :=
  match getNameSpaceByPrefix up (prefixOf v) with
  | none => ⟨.noData, l, v⟩
  | some ns =>
      match findNameSpaceByUrl l.entries ns.url with
      | none => ⟨.aborted, l, v⟩
      | some newNs => ⟨.ok, l, joinName newNs.name (localOf v)⟩

/-- `GWEN_XMLGL__TranslateName` for what may be `NULL`. -/
def translateValue (up : List NameSpace) : Option CString → SpaceList → Changed (Option CString)
  | none, l => ⟨.ok, l, none⟩
  | some v, l => (translateName up v l).map some

/-- The attributes whose values are names. -/
def isTranslated (name : CString) : Bool :=
  [['t', 'y', 'p', 'e'], ['r', 'e', 'f'], ['b', 'a', 's', 'e']].any fun s =>
    strcaseEq name (CString.ofChars s)

/-- The loop of `GWEN_XMLGL__SampleNameSpaces` over the properties. -/
def translateProperties (up : List NameSpace) : List (CString × Option CString) → SpaceList →
    Changed (List (CString × Option CString))
  | [], l => ⟨.ok, l, []⟩
  | (name, value) :: rest, l =>
      ((if isTranslated name then translateValue up value l else ⟨.ok, l, value⟩).andThen rest
        (translateProperties up rest)).map fun x => (name, x.1) :: x.2

/-- The loop of `GWEN_XMLGL__SampleNameSpaces` over the namespaces. -/
def sampleNameSpace (l : SpaceList) (ns : NameSpace) : SpaceList :=
  if (findNameSpaceByUrl l.entries ns.url).isSome then l
  else ⟨l.entries ++ [⟨spaceName (l.lastId + 1), ns.url⟩], l.lastId + 1⟩

/-- `GWEN_XMLGL__SampleNameSpaces`, for every node of a list. -/
def sampleNameSpaces : List NameSpace → XmlSpaces → SpaceList → Changed XmlSpaces
  | _, nil, l => ⟨.ok, l, nil⟩
  | up, node .tag data properties nameSpaces children next, l =>
      ((((translateProperties (nameSpaces ++ up) properties
          (nameSpaces.foldl sampleNameSpace l)).andThen data
        (translateValue (nameSpaces ++ up) data)).andThen children
        (sampleNameSpaces (nameSpaces ++ up) children)).andThen next
        (sampleNameSpaces up next)).map fun x =>
          node .tag x.1.1.2 x.1.1.1 nameSpaces x.1.2 x.2
  | up, node typ data properties nameSpaces children next, l =>
      ((sampleNameSpaces up children l).andThen next (sampleNameSpaces up next)).map fun x =>
        node typ data properties nameSpaces x.1 x.2

/-- `GWEN_XMLGL__ClearNameSpaces`, for every node of a list. -/
def clearNameSpaces : XmlSpaces → XmlSpaces
  | nil => nil
  | node typ data properties _ children next =>
      node typ data properties [] (clearNameSpaces children) (clearNameSpaces next)

/-- The first node gets these entries. -/
def setNameSpaces (es : List NameSpace) : XmlSpaces → XmlSpaces
  | nil => nil
  | node typ data properties _ children next => node typ data properties es children next

/-- `GWEN_XMLNode_Globalize`, with `GWEN_XMLNode_GlobalizeWithList`. -/
def globalize (t : XmlSpaces) : GlobalRv × XmlSpaces :=
  let r := sampleNameSpaces [] t ⟨[], 0⟩
  if r.rv = .ok then (.ok, setNameSpaces r.list.entries (clearNameSpaces r.part))
  else (r.rv, r.part)

/-! ### What it is for -/

/-- A name, and the entries of the element that it is in and of those above. -/
structure Use where
  up : List NameSpace
  value : CString

/-- The entry that the prefix denotes. -/
def Use.space (u : Use) : Option NameSpace := getNameSpaceByPrefix u.up (prefixOf u.value)

def Use.declared (u : Use) : Bool := u.space.isSome

def Use.resolve (u : Use) : Option (CString × CString) :=
  u.space.map fun ns => (ns.url, localOf u.value)

def propertyUses (up : List NameSpace) (properties : List (CString × Option CString)) : List Use :=
  properties.flatMap fun p => if isTranslated p.1 then p.2.toList.map (Use.mk up) else []

/-- The names of the elements and the values of their attributes, as they stand in the document. -/
def uses : List NameSpace → XmlSpaces → List Use
  | _, nil => []
  | up, node .tag data properties nameSpaces children next =>
      propertyUses (nameSpaces ++ up) properties ++
        data.toList.map (Use.mk (nameSpaces ++ up)) ++ uses (nameSpaces ++ up) children ++
        uses up next
  | up, node _ _ _ _ children next => uses up children ++ uses up next

def entries : XmlSpaces → List NameSpace
  | nil => []
  | node .tag _ _ nameSpaces children next => nameSpaces ++ entries children ++ entries next
  | node _ _ _ _ children next => entries children ++ entries next

def urls (t : XmlSpaces) : List CString := t.entries.map NameSpace.url

/-- The tree without its entries and without what the names say. -/
def shape : XmlSpaces → XmlSpaces
  | nil => nil
  | node .tag data properties _ children next =>
      node .tag (data.map fun _ => ofBytes [])
        (properties.map fun p =>
          if isTranslated p.1 then (p.1, p.2.map fun _ => ofBytes []) else p) []
        (shape children) (shape next)
  | node typ data properties _ children next =>
      node typ data properties [] (shape children) (shape next)

def topEntries : XmlSpaces → List NameSpace
  | nil => []
  | node _ _ _ nameSpaces _ _ => nameSpaces

/-- No node has an entry. -/
def Bare : XmlSpaces → Prop
  | nil => True
  | node _ _ _ nameSpaces children next => nameSpaces = [] ∧ Bare children ∧ Bare next

/-- The first node is the only one that may have an entry. -/
def BareBelow : XmlSpaces → Prop
  | nil => True
  | node _ _ _ _ children next => Bare children ∧ Bare next

def KeepsMeaning (t : XmlSpaces) : Prop :=
  match globalize t with
  | (.ok, t') =>
      t'.BareBelow ∧ t'.topEntries.Pairwise (fun a b => a.name ≠ b.name) ∧
        (t'.topEntries.map NameSpace.url).Nodup ∧
        (∀ url, url ∈ t'.topEntries.map NameSpace.url ↔ url ∈ t.urls) ∧
        t'.shape = t.shape ∧ (t'.uses []).map Use.resolve = (t.uses []).map Use.resolve
  | (.noData, t') => t' = t
  | (.aborted, _) => False

/-! ### When it does -/

def addUrl (us : List CString) (u : CString) : List CString :=
  if us.any fun v => strcaseEq v u then us else us ++ [u]

def distinctUrls (us : List CString) : List CString := us.foldl addUrl []

/-- The entries for these URLs, with the numbers from 1 on. -/
def table (us : List CString) : List NameSpace :=
  us.mapIdx fun i u => ⟨spaceName (UInt32.ofNat (i + 1)), u⟩

def Use.Kept (l : List NameSpace) (u : Use) : Prop :=
  ∀ ns ∈ u.space, ∀ newNs ∈ findNameSpaceByUrl l ns.url,
    code ':' ∈ u.value.bytes ∧ prefixOf u.value = newNs.name

/-- Where every name has a definition, no two URLs differ in case alone and there is a number for
each. Else the names before the first one without a definition are already as they will be. -/
def Fits (t : XmlSpaces) : Prop :=
  ((∀ u ∈ t.uses [], u.declared = true) →
    (∀ a ∈ t.urls, ∀ b ∈ t.urls, strcaseEq a b = true → a = b) ∧
      (distinctUrls t.urls).length ≤ 2 ^ 32) ∧
  ((∃ u ∈ t.uses [], u.declared = false) →
    ∀ u ∈ (t.uses []).takeWhile Use.declared, u.Kept (table (distinctUrls t.urls)))

/-! ### Prefixes and local parts -/

theorem not_mem_zero_takeWhile {v : CString} {p : UInt8 → Bool} : 0 ∉ v.bytes.takeWhile p :=
  fun h => v.nul_free ((List.takeWhile_prefix p).subset h)

theorem bytes_joinName (name rest : CString) :
    (joinName name rest).bytes = name.bytes ++ code ':' :: rest.bytes := by
  refine CString.ofBytes_bytes ?_
  rw [List.mem_append, List.mem_cons, not_or, not_or]
  exact ⟨name.nul_free, by decide, rest.nul_free⟩

theorem colon_mem_joinName (name rest : CString) : code ':' ∈ (joinName name rest).bytes := by
  rw [bytes_joinName]
  exact List.mem_append_right _ List.mem_cons_self

theorem all_ne_of_not_mem {bs : List UInt8} {c : UInt8} (h : c ∉ bs) :
    ∀ b ∈ bs, (b != c) = true := by
  intro b hb
  rw [bne_iff_ne]
  rintro rfl
  exact h hb

theorem prefixOf_joinName {name : CString} (h : code ':' ∉ name.bytes) (rest : CString) :
    prefixOf (joinName name rest) = name := by
  rw [prefixOf, if_pos (colon_mem_joinName name rest), bytes_joinName,
    List.takeWhile_append_of_pos (all_ne_of_not_mem h), List.takeWhile_cons_of_neg (by simp),
    List.append_nil, CString.ofBytes_eq]

theorem localOf_joinName {name : CString} (h : code ':' ∉ name.bytes) (rest : CString) :
    localOf (joinName name rest) = rest := by
  rw [localOf, if_pos (colon_mem_joinName name rest), bytes_joinName,
    List.dropWhile_append_of_pos (all_ne_of_not_mem h), List.dropWhile_cons_of_neg (by simp),
    List.tail_cons, CString.ofBytes_eq]

theorem joinName_prefixOf {v : CString} (h : code ':' ∈ v.bytes) :
    joinName (prefixOf v) (localOf v) = v := by
  apply CString.ext
  have hdrop : v.bytes.dropWhile (· != code ':') =
      code ':' :: (v.bytes.dropWhile (· != code ':')).tail := by
    cases hd : v.bytes.dropWhile (· != code ':') with
    | nil =>
        have := List.dropWhile_eq_nil_iff.mp hd _ h
        simp at this
    | cons c rest =>
        have hne : v.bytes.dropWhile (· != code ':') ≠ [] := by
          rw [hd]
          exact List.cons_ne_nil c rest
        have hc := List.head_dropWhile_not (· != code ':') hne
        simp only [hd, List.head_cons, bne_eq_false_iff_eq] at hc
        rw [hc, List.tail_cons]
  have htail : 0 ∉ (v.bytes.dropWhile (· != code ':')).tail := fun h0 =>
    v.nul_free ((List.dropWhile_suffix _).subset (List.mem_of_mem_tail h0))
  rw [bytes_joinName, prefixOf, if_pos h, localOf, if_pos h,
    CString.ofBytes_bytes not_mem_zero_takeWhile, CString.ofBytes_bytes htail, ← hdrop,
    List.takeWhile_append_dropWhile]

theorem joinName_eq_iff {name v : CString} (h : code ':' ∉ name.bytes) :
    joinName name (localOf v) = v ↔ code ':' ∈ v.bytes ∧ prefixOf v = name := by
  constructor
  · intro he
    have hprefix := prefixOf_joinName h (localOf v)
    have hcolon := colon_mem_joinName name (localOf v)
    rw [he] at hprefix hcolon
    exact ⟨hcolon, hprefix⟩
  · rintro ⟨hc, rfl⟩
    exact joinName_prefixOf hc

/-! ### The new names -/

theorem bytes_spaceName (id : UInt32) :
    (spaceName id).bytes = code '_' :: (printInt id.toInt32 ++ [code '_']) := by
  refine CString.ofBytes_bytes ?_
  simp only [List.mem_cons, List.mem_append, List.not_mem_nil, or_false, not_or]
  exact ⟨by decide, not_mem_printInt _ (by decide) (by decide), by decide⟩

theorem not_mem_spaceName (id : UInt32) {c : UInt8} (hc : isDigit c = false)
    (hsign : c ≠ code '-') (hline : c ≠ code '_') : c ∉ (spaceName id).bytes := by
  rw [bytes_spaceName]
  simp only [List.mem_cons, List.mem_append, List.not_mem_nil, or_false, not_or]
  exact ⟨hline, not_mem_printInt _ hc hsign, hline⟩

theorem colon_not_mem_spaceName (id : UInt32) : code ':' ∉ (spaceName id).bytes :=
  not_mem_spaceName id (by decide) (by decide) (by decide)

theorem spaceName_injective : Function.Injective spaceName := by
  intro i j h
  have hb := congrArg CString.bytes h
  rw [bytes_spaceName, bytes_spaceName] at hb
  have hp := List.append_cancel_right (List.cons.inj hb).2
  have hs := congrArg scanInt hp
  rw [scanInt_printInt, scanInt_printInt, Option.some.injEq] at hs
  exact congrArg Int32.toUInt32 hs

theorem map_toLower_spaceName (id : UInt32) :
    (spaceName id).bytes.map toLower = (spaceName id).bytes := by
  have hlower : ∀ c : UInt8, toLower c = c ∨
      isDigit c = false ∧ c ≠ code '-' ∧ c ≠ code '_' := by decide
  refine (List.map_congr_left fun c hc => ?_).trans (List.map_id _)
  rcases hlower c with h | ⟨hd, hsign, hline⟩
  · exact h
  · exact absurd hc (not_mem_spaceName id hd hsign hline)

theorem eq_of_strcaseEq_spaceName {i j : UInt32}
    (h : strcaseEq (spaceName i) (spaceName j) = true) : i = j := by
  rw [strcaseEq_iff, map_toLower_spaceName, map_toLower_spaceName] at h
  exact spaceName_injective (CString.ext h)

/-! ### The new namespaces -/

theorem table_append (us : List CString) (u : CString) :
    table (us ++ [u]) = table us ++ [⟨spaceName (UInt32.ofNat (us.length + 1)), u⟩] :=
  List.mapIdx_concat

theorem map_url_table (us : List CString) : (table us).map NameSpace.url = us := by
  induction us using List.reverseRecOn with
  | nil => rfl
  | append_singleton us u ih => rw [table_append, List.map_append, ih]; rfl

theorem length_table (us : List CString) : (table us).length = us.length := List.length_mapIdx

variable {us : List CString}

theorem exists_spaceName_of_mem_table {ns : NameSpace} (h : ns ∈ table us) :
    ∃ id, ns.name = spaceName id := by
  obtain ⟨i, hi, rfl⟩ := List.mem_mapIdx.mp h
  exact ⟨_, rfl⟩

theorem isSome_findNameSpaceByUrl_table (us : List CString) (u : CString) :
    (findNameSpaceByUrl (table us) u).isSome = us.any fun v => strcaseEq v u := by
  conv_rhs => rw [← map_url_table us, List.any_map]
  rw [findNameSpaceByUrl, List.isSome_find?]
  rfl

theorem sampleNameSpace_table (us : List CString) (ns : NameSpace) :
    sampleNameSpace ⟨table us, UInt32.ofNat us.length⟩ ns =
      ⟨table (addUrl us ns.url), UInt32.ofNat (addUrl us ns.url).length⟩ := by
  rw [sampleNameSpace, addUrl, isSome_findNameSpaceByUrl_table]
  split
  · rfl
  · rw [table_append, List.length_append, List.length_singleton, UInt32.ofNat_add]
    rfl

theorem foldl_sampleNameSpace_table (es : List NameSpace) (us : List CString) :
    es.foldl sampleNameSpace ⟨table us, UInt32.ofNat us.length⟩ =
      ⟨table ((es.map NameSpace.url).foldl addUrl us),
        UInt32.ofNat ((es.map NameSpace.url).foldl addUrl us).length⟩ := by
  induction es generalizing us with
  | nil => rfl
  | cons ns es ih => rw [List.foldl_cons, sampleNameSpace_table, ih, List.map_cons, List.foldl_cons]

/-- The names are different as long as there are numbers. -/
theorem pairwise_table_iff (us : List CString) :
    (table us).Pairwise (fun a b => a.name ≠ b.name) ↔ us.length ≤ 2 ^ 32 := by
  have hname : ∀ i (hi : i < (table us).length),
      (table us)[i].name = spaceName (UInt32.ofNat (i + 1)) := by
    intro i hi
    simp only [table, List.getElem_mapIdx]
  rw [List.pairwise_iff_getElem]
  constructor
  · intro h
    by_contra hlen
    rw [← length_table us] at hlen
    have hne := h 0 (2 ^ 32) (by omega) (by omega) (by decide)
    rw [hname, hname] at hne
    exact hne (congrArg spaceName (by decide))
  · intro hlen i j hi hj hij he
    rw [hname, hname] at he
    have hnat := congrArg UInt32.toNat (spaceName_injective he)
    rw [length_table] at hj
    simp only [UInt32.toNat_ofNat'] at hnat
    omega

/-! ### URLs -/

theorem addUrl_cases (us : List CString) (u : CString) :
    addUrl us u = us ∧ (∃ v ∈ us, strcaseEq v u = true) ∨
      addUrl us u = us ++ [u] ∧ ∀ v ∈ us, strcaseEq v u = false := by
  rw [addUrl]
  split
  · next h => exact .inl ⟨rfl, List.any_eq_true.mp h⟩
  · next h =>
      refine .inr ⟨rfl, fun v hv => ?_⟩
      exact Bool.eq_false_iff.mpr fun hs => h (List.any_eq_true.mpr ⟨v, hv, hs⟩)

theorem subset_addUrl (us : List CString) (u : CString) : us ⊆ addUrl us u := by
  rcases addUrl_cases us u with ⟨h, -⟩ | ⟨h, -⟩
  · rw [h]
    exact List.Subset.refl us
  · rw [h]
    exact List.subset_append_left us [u]

theorem subset_foldl_addUrl (vs us : List CString) : us ⊆ vs.foldl addUrl us := by
  induction vs generalizing us with
  | nil => exact List.Subset.refl us
  | cons v vs ih => exact fun x hx => ih _ (subset_addUrl us v hx)

theorem pairwise_foldl_addUrl (vs : List CString)
    (h : us.Pairwise fun a b => strcaseEq a b = false) :
    (vs.foldl addUrl us).Pairwise fun a b => strcaseEq a b = false := by
  induction vs generalizing us with
  | nil => exact h
  | cons v vs ih =>
      refine ih ?_
      rcases addUrl_cases us v with ⟨he, -⟩ | ⟨he, hnew⟩
      · rwa [he]
      · rw [he, List.pairwise_append]
        exact ⟨h, List.pairwise_singleton _ _, by simpa using hnew⟩

theorem mem_of_mem_foldl_addUrl {vs us : List CString} {x : CString}
    (h : x ∈ vs.foldl addUrl us) : x ∈ us ∨ x ∈ vs := by
  induction vs generalizing us with
  | nil => exact .inl h
  | cons v vs ih =>
      rcases ih h with hx | hx
      · rcases addUrl_cases us v with ⟨he, -⟩ | ⟨he, -⟩
        · exact .inl (he ▸ hx)
        · rw [he, List.mem_append, List.mem_singleton] at hx
          rcases hx with hx | rfl
          · exact .inl hx
          · exact .inr List.mem_cons_self
      · exact .inr (List.mem_cons_of_mem v hx)

theorem exists_mem_foldl_addUrl {vs : List CString} (us : List CString) {u : CString}
    (h : u ∈ vs) : ∃ x ∈ vs.foldl addUrl us, strcaseEq x u = true := by
  induction vs generalizing us with
  | nil => cases h
  | cons v vs ih =>
      rcases List.mem_cons.mp h with rfl | h
      · rcases addUrl_cases us u with ⟨-, x, hx, hxu⟩ | ⟨he, -⟩
        · exact ⟨x, subset_foldl_addUrl vs _ (subset_addUrl us u hx), hxu⟩
        · have hu : u ∈ addUrl us u := by
            rw [he]
            exact List.mem_append_right us List.mem_cons_self
          exact ⟨u, subset_foldl_addUrl vs _ hu, strcaseEq_iff.mpr rfl⟩
      · exact ih _ h

theorem mem_distinctUrls {x : CString} (h : x ∈ distinctUrls us) : x ∈ us :=
  (mem_of_mem_foldl_addUrl h).resolve_left (by simp)

theorem pairwise_distinctUrls (us : List CString) :
    (distinctUrls us).Pairwise fun a b => strcaseEq a b = false :=
  pairwise_foldl_addUrl us List.Pairwise.nil

theorem nodup_distinctUrls (us : List CString) : (distinctUrls us).Nodup :=
  (pairwise_distinctUrls us).imp fun h he => by
    rw [he, strcaseEq_iff.mpr rfl] at h
    cases h

theorem mem_distinctUrls_iff (us : List CString) : (∀ u, u ∈ distinctUrls us ↔ u ∈ us) ↔
      ∀ a ∈ us, ∀ b ∈ us, strcaseEq a b = true → a = b := by
  constructor
  · intro h a ha b hb hab
    by_contra hne
    have hsymm : Std.Symm fun x y : CString => strcaseEq x y = false := ⟨fun x y hxy => by
      rw [Bool.eq_false_iff, ne_eq, strcaseEq_iff] at hxy ⊢
      exact fun he => hxy he.symm⟩
    have hdiff := (pairwise_distinctUrls us).forall ((h a).mpr ha) ((h b).mpr hb) hne
    rw [hab] at hdiff
    cases hdiff
  · intro h u
    refine ⟨mem_distinctUrls, fun hu => ?_⟩
    obtain ⟨x, hx, hxu⟩ := exists_mem_foldl_addUrl [] hu
    exact h x (mem_distinctUrls hx) u hu hxu ▸ hx

/-! ### Translated trees -/

def Use.renamed (l : List NameSpace) (u : Use) : CString :=
  ((u.space.bind fun ns => findNameSpaceByUrl l ns.url).map fun newNs =>
    joinName newNs.name (localOf u.value)).getD u.value

def renamedValue (l up : List NameSpace) (value : Option CString) : Option CString :=
  value.map fun v => Use.renamed l ⟨up, v⟩

def renamedProperties (l up : List NameSpace) (properties : List (CString × Option CString)) :
    List (CString × Option CString) :=
  properties.map fun p => (p.1, if isTranslated p.1 then renamedValue l up p.2 else p.2)

/-- The tree with all its new names. -/
def renamed (l : List NameSpace) : List NameSpace → XmlSpaces → XmlSpaces
  | _, nil => nil
  | up, node .tag data properties nameSpaces children next =>
      node .tag (renamedValue l (nameSpaces ++ up) data)
        (renamedProperties l (nameSpaces ++ up) properties) nameSpaces
        (renamed l (nameSpaces ++ up) children) (renamed l up next)
  | up, node typ data properties nameSpaces children next =>
      node typ data properties nameSpaces (renamed l up children) (renamed l up next)

theorem takeWhile_append_of_not {α : Type} {p : α → Bool} {xs : List α}
    (h : ¬ ∀ x ∈ xs, p x = true) (ys : List α) : (xs ++ ys).takeWhile p = xs.takeWhile p := by
  rw [List.takeWhile_append, if_neg]
  intro hlen
  refine h fun x hx => ?_
  rw [← (List.takeWhile_prefix p).eq_of_length hlen] at hx
  exact List.mem_takeWhile_imp hx

/-- The names at these uses are translated one after the other, up to the first one that has no
definition. -/
structure Runs {α : Type} (l : List NameSpace) (us : List Use) (r : Changed α) (after : SpaceList)
    (x x' : α) : Prop where
  done : (∀ u ∈ us, u.declared = true) → r = ⟨.ok, after, x'⟩
  stopped : (¬ ∀ u ∈ us, u.declared = true) → r.rv = .noData ∧
    (r.part = x ↔ ∀ u ∈ us.takeWhile Use.declared, u.renamed l = u.value)
  same : x' = x ↔ ∀ u ∈ us, u.renamed l = u.value

section runs

variable {α β : Type} {l : List NameSpace} {us vs : List Use} {r : Changed α}
  {after after' : SpaceList} {x x' : α} {y y' : β} {f : SpaceList → Changed β}

theorem Runs.nil : Runs l [] (⟨.ok, after, x⟩ : Changed α) after x x where
  done _ := rfl
  stopped h := absurd (fun _ hu => absurd hu List.not_mem_nil) h
  same := ⟨fun _ _ hu => absurd hu List.not_mem_nil, fun _ => rfl⟩

theorem Runs.andThen (h1 : Runs l us r after x x') (h2 : Runs l vs (f after) after' y y') :
    Runs l (us ++ vs) (r.andThen y f) after' (x, y) (x', y') where
  done h := by
    rw [List.forall_mem_append] at h
    rw [h1.done h.1, Changed.andThen, if_pos rfl, h2.done h.2]
  stopped h := by
    by_cases hus : ∀ u ∈ us, u.declared = true
    · obtain ⟨hrv, hpart⟩ := h2.stopped fun hvs => h (List.forall_mem_append.mpr ⟨hus, hvs⟩)
      rw [h1.done hus, Changed.andThen, if_pos rfl, List.takeWhile_append_of_pos hus,
        List.forall_mem_append, ← hpart, ← h1.same]
      exact ⟨hrv, Prod.mk_inj⟩
    · obtain ⟨hrv, hpart⟩ := h1.stopped hus
      rw [takeWhile_append_of_not hus, ← hpart, Changed.andThen, if_neg (by rw [hrv]; decide)]
      exact ⟨hrv, by rw [Prod.mk_inj, and_iff_left rfl]⟩
  same := by rw [List.forall_mem_append, ← h1.same, ← h2.same, Prod.mk_inj]

theorem Runs.map {g : α → β} (hg : Function.Injective g) (h : Runs l us r after x x') :
    Runs l us (r.map g) after (g x) (g x') where
  done hd := by
    rw [h.done hd]
    rfl
  stopped hd := ⟨(h.stopped hd).1, hg.eq_iff.trans (h.stopped hd).2⟩
  same := hg.eq_iff.trans h.same

end runs

section names

variable {l up : List NameSpace} {now : SpaceList}

theorem findNameSpaceByUrl_of_isPrefix {es : List NameSpace} {u : CString} (h : es <+: l)
    (hsome : (findNameSpaceByUrl es u).isSome = true) :
    findNameSpaceByUrl l u = findNameSpaceByUrl es u := by
  obtain ⟨rest, rfl⟩ := h
  rw [findNameSpaceByUrl, List.find?_append]
  exact Option.or_of_isSome hsome

def Collected (now : SpaceList) (up : List NameSpace) : Prop :=
  ∀ ns ∈ up, (findNameSpaceByUrl now.entries ns.url).isSome = true

theorem translateName_runs (hup : Collected now up) (hl : now.entries <+: l) (v : CString) :
    Runs l [⟨up, v⟩] (translateName up v now) now v (Use.renamed l ⟨up, v⟩) := by
  have hone : ∀ P : Use → Prop, (∀ u ∈ [(⟨up, v⟩ : Use)], P u) ↔ P ⟨up, v⟩ := fun P =>
    List.forall_mem_singleton
  cases hs : getNameSpaceByPrefix up (prefixOf v) with
  | none =>
      have hdecl : Use.declared ⟨up, v⟩ = false := by
        rw [Use.declared, Use.space, hs]
        rfl
      have htr : translateName up v now = ⟨.noData, now, v⟩ := by rw [translateName, hs]
      refine ⟨fun h => ?_, fun _ => ?_, ?_⟩
      · rw [hone, hdecl] at h
        cases h
      · rw [htr, List.takeWhile_cons_of_neg (by rw [hdecl]; decide)]
        exact ⟨rfl, fun _ _ hu => absurd hu List.not_mem_nil, fun _ => rfl⟩
      · rw [hone]
  | some ns =>
      have hdecl : Use.declared ⟨up, v⟩ = true := by
        rw [Use.declared, Use.space, hs]
        rfl
      have hns := hup ns (List.mem_of_find?_eq_some hs)
      obtain ⟨newNs, hnew⟩ := Option.isSome_iff_exists.mp hns
      have hfind := (findNameSpaceByUrl_of_isPrefix hl hns).trans hnew
      refine ⟨fun _ => ?_, fun h => ?_, ?_⟩
      · simp only [translateName, hs, hnew, Use.renamed, Use.space, Option.bind_some, hfind,
          Option.map_some, Option.getD_some]
      · exact absurd ((hone _).mpr hdecl) h
      · rw [hone]

theorem translateValue_runs (hup : Collected now up) (hl : now.entries <+: l)
    (value : Option CString) :
    Runs l (value.toList.map (Use.mk up)) (translateValue up value now) now value
      (renamedValue l up value) := by
  cases value with
  | none => exact Runs.nil
  | some v => exact (translateName_runs hup hl v).map (Option.some_injective _)

theorem translateProperties_runs (hup : Collected now up) (hl : now.entries <+: l)
    (properties : List (CString × Option CString)) :
    Runs l (propertyUses up properties) (translateProperties up properties now) now properties
      (renamedProperties l up properties) := by
  induction properties with
  | nil => exact Runs.nil
  | cons p rest ih =>
      obtain ⟨name, value⟩ := p
      have hcons : Function.Injective fun x : Option CString × List (CString × Option CString) =>
          (name, x.1) :: x.2 := by
        rintro ⟨a, as⟩ ⟨b, bs⟩ h
        simpa using h
      rw [propertyUses, List.flatMap_cons, translateProperties, renamedProperties, List.map_cons]
      by_cases hname : isTranslated name = true
      · simp only [hname, if_true]
        exact ((translateValue_runs hup hl value).andThen ih).map hcons
      · simp only [hname, if_false, Bool.false_eq_true]
        exact (Runs.nil.andThen ih).map hcons

end names

/-! ### Translating a tree -/

section trees

variable {l up : List NameSpace} {now now' : SpaceList}

theorem entries_sampleNameSpace (now : SpaceList) (ns : NameSpace) :
    now.entries <+: (sampleNameSpace now ns).entries := by
  rw [sampleNameSpace]
  split
  · exact List.prefix_refl _
  · exact List.prefix_append _ _

theorem entries_foldl (es : List NameSpace) (now : SpaceList) :
    now.entries <+: (es.foldl sampleNameSpace now).entries := by
  induction es generalizing now with
  | nil => exact List.prefix_refl _
  | cons ns es ih => exact (entries_sampleNameSpace now ns).trans (ih _)

theorem Collected.mono (h : Collected now up) (hp : now.entries <+: now'.entries) :
    Collected now' up := by
  intro ns hns
  rw [findNameSpaceByUrl_of_isPrefix hp (h ns hns)]
  exact h ns hns

theorem collected_sampleNameSpace (now : SpaceList) (ns : NameSpace) :
    Collected (sampleNameSpace now ns) [ns] := by
  intro m hm
  rw [List.mem_singleton] at hm
  subst hm
  rw [sampleNameSpace]
  split
  · next h => exact h
  · rw [findNameSpaceByUrl, List.find?_append, Option.isSome_or, List.find?_singleton,
      if_pos (strcaseEq_iff.mpr rfl)]
    exact Bool.or_true _

theorem Collected.foldl (h : Collected now up) (es : List NameSpace) :
    Collected (es.foldl sampleNameSpace now) (es ++ up) := by
  induction es generalizing now with
  | nil => exact h
  | cons ns es ih =>
      intro m hm
      rw [List.cons_append, List.mem_cons] at hm
      rcases hm with rfl | hm
      · exact (collected_sampleNameSpace now m).mono (entries_foldl es _) m List.mem_cons_self
      · exact ih (h.mono (entries_sampleNameSpace now ns)) m hm

/-- The nodes of a list are translated in their order; the namespaces of all of them have been
collected then. -/
theorem sampleNameSpaces_runs (t : XmlSpaces) (hup : Collected now up)
    (hl : (t.entries.foldl sampleNameSpace now).entries <+: l) :
    Runs l (uses up t) (sampleNameSpaces up t now) (t.entries.foldl sampleNameSpace now) t
      (renamed l up t) := by
  induction t generalizing up now with
  | nil => exact Runs.nil
  | node typ data properties nameSpaces children next ihc ihn =>
      cases typ with
      | tag =>
          have hnode : Function.Injective fun x :
              ((List (CString × Option CString) × Option CString) × XmlSpaces) × XmlSpaces =>
              node .tag x.1.1.2 x.1.1.1 nameSpaces x.1.2 x.2 := by
            rintro ⟨⟨⟨a, b⟩, c⟩, d⟩ ⟨⟨⟨a', b'⟩, c'⟩, d'⟩ h
            simp only [node.injEq, true_and] at h
            obtain ⟨rfl, rfl, rfl, rfl⟩ := h
            rfl
          rw [entries, List.foldl_append, List.foldl_append] at hl ⊢
          have hself := hup.foldl nameSpaces
          have hself' := entries_foldl children.entries (nameSpaces.foldl sampleNameSpace now)
          have hnext := entries_foldl next.entries
            (children.entries.foldl sampleNameSpace (nameSpaces.foldl sampleNameSpace now))
          have hchildren := hnext.trans hl
          have hnow := (entries_foldl nameSpaces now).trans hself'
          have htag := (translateProperties_runs hself (hself'.trans hchildren) properties).andThen
            (translateValue_runs hself (hself'.trans hchildren) data)
          exact ((htag.andThen (ihc hself hchildren)).andThen (ihn (hup.mono hnow) hl)).map hnode
      | data | comment =>
          rw [entries, List.foldl_append] at hl ⊢
          · have hnow := entries_foldl children.entries now
            have hchildren := (entries_foldl next.entries _).trans hl
            refine ((ihc hup hchildren).andThen (ihn (hup.mono hnow) hl)).map ?_
            rintro ⟨a, b⟩ ⟨a', b'⟩ h
            simp only [node.injEq, true_and] at h
            obtain ⟨rfl, rfl⟩ := h
            rfl
          all_goals simp

end trees

/-! ### What is left of a tree -/

section left

variable (l up es : List NameSpace)

theorem toList_renamedValue (value : Option CString) :
    (renamedValue l up value).toList.map (Use.mk es) =
      (value.toList.map (Use.mk up)).map fun u => ⟨es, u.renamed l⟩ := by
  cases value <;> rfl

theorem propertyUses_renamed (properties : List (CString × Option CString)) :
    propertyUses es (renamedProperties l up properties) =
      (propertyUses up properties).map fun u => ⟨es, u.renamed l⟩ := by
  rw [propertyUses, renamedProperties, List.flatMap_map, propertyUses, List.map_flatMap]
  refine List.flatMap_congr fun p _ => ?_
  by_cases hp : isTranslated p.1 = true
  · simp only [hp, if_true]
    exact toList_renamedValue l up es p.2
  · simp only [hp, if_false, Bool.false_eq_true, List.map_nil]

theorem uses_renamed (t : XmlSpaces) : uses es (clearNameSpaces (renamed l up t)) =
      (uses up t).map fun u => ⟨es, u.renamed l⟩ := by
  induction t generalizing up with
  | nil => rfl
  | node typ data properties nameSpaces children next ihc ihn =>
      cases typ with
      | tag =>
          simp only [renamed, clearNameSpaces, uses, List.nil_append, List.map_append, ihc, ihn,
            propertyUses_renamed, toList_renamedValue]
      | data | comment => simp only [renamed, clearNameSpaces, uses, List.map_append, ihc, ihn]

theorem shape_renamed (t : XmlSpaces) : shape (clearNameSpaces (renamed l up t)) = shape t := by
  induction t generalizing up with
  | nil => rfl
  | node typ data properties nameSpaces children next ihc ihn =>
      cases typ with
      | tag =>
          have hdata : (renamedValue l (nameSpaces ++ up) data).map (fun _ => ofBytes []) =
              data.map fun _ => ofBytes [] := by
            cases data <;> rfl
          simp only [renamed, clearNameSpaces, shape, ihc, ihn, hdata, node.injEq, true_and,
            and_true, renamedProperties, List.map_map]
          refine List.map_congr_left fun p _ => ?_
          by_cases hp : isTranslated p.1 = true
          · simp only [Function.comp_apply, hp, if_true, renamedValue, Option.map_map]
            rfl
          · simp only [Function.comp_apply, hp, if_false, Bool.false_eq_true]
      | data | comment => simp only [renamed, clearNameSpaces, shape, ihc, ihn]

theorem bare_clearNameSpaces (t : XmlSpaces) : Bare (clearNameSpaces t) := by
  induction t with
  | nil => trivial
  | node typ data properties nameSpaces children next ihc ihn => exact ⟨rfl, ihc, ihn⟩

end left

/-! ### Meanings -/

theorem mem_up_of_mem_uses {up : List NameSpace} (t : XmlSpaces) :
    ∀ u ∈ uses up t, ∀ ns ∈ u.up, ns ∈ up ∨ ns ∈ t.entries := by
  induction t generalizing up with
  | nil => exact fun u hu => absurd hu List.not_mem_nil
  | node typ data properties nameSpaces children next ihc ihn =>
      intro u hu ns hns
      cases typ with
      | tag =>
          have hself : u.up = nameSpaces ++ up → ns ∈ up ∨ ns ∈ nameSpaces := by
            intro he
            rw [he, List.mem_append] at hns
            exact hns.symm
          simp only [uses, propertyUses, List.mem_append, List.mem_flatMap] at hu
          simp only [entries, List.mem_append]
          rcases hu with ((⟨p, -, hp⟩ | hu) | hu) | hu
          · split at hp
            · obtain ⟨v, -, rfl⟩ := List.mem_map.mp hp
              exact (hself rfl).imp_right fun h => .inl (.inl h)
            · exact absurd hp List.not_mem_nil
          · obtain ⟨v, -, rfl⟩ := List.mem_map.mp hu
            exact (hself rfl).imp_right fun h => .inl (.inl h)
          · rcases ihc u hu ns hns with h | h
            · rw [List.mem_append] at h
              exact h.symm.imp_right fun h => .inl (.inl h)
            · exact .inr (.inl (.inr h))
          · exact (ihn u hu ns hns).imp_right .inr
      | data | comment =>
          simp only [uses, List.mem_append] at hu
          simp only [entries, List.mem_append]
          rcases hu with hu | hu
          · exact (ihc u hu ns hns).imp_right .inl
          · exact (ihn u hu ns hns).imp_right .inr

theorem exists_find_table {t : XmlSpaces} {ns : NameSpace} (h : ns ∈ t.entries) :
    ∃ newNs ∈ table (distinctUrls t.urls),
      findNameSpaceByUrl (table (distinctUrls t.urls)) ns.url = some newNs ∧
        strcaseEq newNs.url ns.url = true := by
  obtain ⟨x, hx, hxu⟩ := exists_mem_foldl_addUrl [] (List.mem_map_of_mem h)
  have hsome : (findNameSpaceByUrl (table (distinctUrls t.urls)) ns.url).isSome = true := by
    rw [isSome_findNameSpaceByUrl_table, List.any_eq_true]
    exact ⟨x, hx, hxu⟩
  obtain ⟨newNs, hnew⟩ := Option.isSome_iff_exists.mp hsome
  have hurl := List.find?_some hnew
  exact ⟨newNs, List.mem_of_find?_eq_some hnew, hnew, hurl⟩

theorem colon_not_mem_of_mem_table {ns : NameSpace} (h : ns ∈ table us) :
    code ':' ∉ ns.name.bytes := by
  obtain ⟨id, hid⟩ := exists_spaceName_of_mem_table h
  rw [hid]
  exact colon_not_mem_spaceName id

theorem getNameSpaceByPrefix_table {ns : NameSpace} (hlen : us.length ≤ 2 ^ 32)
    (h : ns ∈ table us) : getNameSpaceByPrefix (table us) ns.name = some ns := by
  obtain ⟨m, hm⟩ := Option.isSome_iff_exists.mp
    (List.find?_isSome.mpr ⟨ns, h, strcaseEq_iff.mpr rfl⟩ :
      (getNameSpaceByPrefix (table us) ns.name).isSome = true)
  have hmem := List.mem_of_find?_eq_some hm
  have hname := List.find?_some hm
  obtain ⟨i, hi⟩ := exists_spaceName_of_mem_table hmem
  obtain ⟨j, hj⟩ := exists_spaceName_of_mem_table h
  rw [hi, hj] at hname
  have hsame : m.name = ns.name := by rw [hi, hj, eq_of_strcaseEq_spaceName hname]
  have hsymm : Std.Symm fun a b : NameSpace => a.name ≠ b.name := ⟨fun _ _ hab => hab.symm⟩
  rw [getNameSpaceByPrefix, hm]
  by_contra hne
  exact ((pairwise_table_iff us).mpr hlen).forall hmem h (fun he => hne (congrArg some he)) hsame

section meaning

variable {t : XmlSpaces} {u : Use}

theorem exists_renamed (hu : u ∈ uses [] t) (hd : u.declared = true) :
    ∃ ns ∈ t.entries, u.space = some ns ∧ ∃ newNs ∈ table (distinctUrls t.urls),
      findNameSpaceByUrl (table (distinctUrls t.urls)) ns.url = some newNs ∧
        strcaseEq newNs.url ns.url = true ∧
          u.renamed (table (distinctUrls t.urls)) = joinName newNs.name (localOf u.value) := by
  obtain ⟨ns, hns⟩ := Option.isSome_iff_exists.mp hd
  have hmem := (mem_up_of_mem_uses t u hu ns (List.mem_of_find?_eq_some hns)).resolve_left
    List.not_mem_nil
  obtain ⟨newNs, hnew, hfind, hurl⟩ := exists_find_table hmem
  refine ⟨ns, hmem, hns, newNs, hnew, hfind, hurl, ?_⟩
  rw [Use.renamed, hns, Option.bind_some, hfind]
  rfl

theorem kept_iff (hu : u ∈ uses [] t) (hd : u.declared = true) :
    u.Kept (table (distinctUrls t.urls)) ↔ u.renamed (table (distinctUrls t.urls)) = u.value := by
  obtain ⟨ns, -, hns, newNs, hnew, hfind, -, hren⟩ := exists_renamed hu hd
  rw [hren, joinName_eq_iff (colon_not_mem_of_mem_table hnew), Use.Kept]
  simp only [hns, Option.mem_some_iff, forall_eq', hfind]

theorem resolve_renamed (hu : u ∈ uses [] t) (hd : u.declared = true)
    (hurls : ∀ a ∈ t.urls, ∀ b ∈ t.urls, strcaseEq a b = true → a = b)
    (hlen : (distinctUrls t.urls).length ≤ 2 ^ 32) :
    Use.resolve ⟨table (distinctUrls t.urls), u.renamed (table (distinctUrls t.urls))⟩ =
      u.resolve := by
  obtain ⟨ns, hmem, hns, newNs, hnew, -, hurl, hren⟩ := exists_renamed hu hd
  have hcolon := colon_not_mem_of_mem_table hnew
  have hnewurl : newNs.url ∈ t.urls := by
    refine mem_distinctUrls ?_
    rw [← map_url_table (distinctUrls t.urls)]
    exact List.mem_map_of_mem hnew
  have hsame := hurls _ hnewurl _ (List.mem_map_of_mem hmem) hurl
  rw [Use.resolve, Use.resolve, hns, Use.space, hren, prefixOf_joinName hcolon,
    localOf_joinName hcolon, getNameSpaceByPrefix_table hlen hnew, Option.map_some,
    Option.map_some, hsame]

end meaning

/-! ### Globalising -/

theorem globalize_runs (t : XmlSpaces) :
    Runs (table (distinctUrls t.urls)) (uses [] t) (sampleNameSpaces [] t ⟨[], 0⟩)
      ⟨table (distinctUrls t.urls), UInt32.ofNat (distinctUrls t.urls).length⟩ t
      (renamed (table (distinctUrls t.urls)) [] t) := by
  have hfold : t.entries.foldl sampleNameSpace ⟨[], 0⟩ =
      ⟨table (distinctUrls t.urls), UInt32.ofNat (distinctUrls t.urls).length⟩ :=
    foldl_sampleNameSpace_table t.entries []
  have hup : Collected ⟨[], 0⟩ [] := fun _ h => absurd h List.not_mem_nil
  have hl : (t.entries.foldl sampleNameSpace ⟨[], 0⟩).entries <+: table (distinctUrls t.urls) := by
    rw [hfold]
  have h := sampleNameSpaces_runs t hup hl
  rwa [hfold] at h

theorem globalize_done {t : XmlSpaces} (h : ∀ u ∈ uses [] t, u.declared = true) :
    globalize t = (.ok, setNameSpaces (table (distinctUrls t.urls))
      (clearNameSpaces (renamed (table (distinctUrls t.urls)) [] t))) := by
  rw [globalize, (globalize_runs t).done h]
  rfl

theorem globalize_stopped {t : XmlSpaces} (h : ¬ ∀ u ∈ uses [] t, u.declared = true) :
    ∃ t', globalize t = (.noData, t') ∧ (t' = t ↔ ∀ u ∈ (uses [] t).takeWhile Use.declared,
        u.Kept (table (distinctUrls t.urls))) := by
  obtain ⟨hrv, hpart⟩ := (globalize_runs t).stopped h
  refine ⟨(sampleNameSpaces [] t ⟨[], 0⟩).part, ?_, hpart.trans ?_⟩
  · simp only [globalize]
    rw [hrv, if_neg (by decide)]
  · refine forall₂_congr fun u hu => ?_
    exact (kept_iff ((List.takeWhile_prefix _).subset hu) (List.mem_takeWhile_imp hu)).symm

theorem bareBelow_setNameSpaces (l : List NameSpace) (t : XmlSpaces) :
    BareBelow (setNameSpaces l (clearNameSpaces t)) := by
  cases t with
  | nil => trivial
  | node typ data properties nameSpaces children next =>
      exact ⟨bare_clearNameSpaces children, bare_clearNameSpaces next⟩

theorem shape_setNameSpaces (l : List NameSpace) (t : XmlSpaces) :
    shape (setNameSpaces l t) = shape t := by
  cases t with
  | nil => rfl
  | node typ data properties nameSpaces children next => cases typ <;> rfl

theorem uses_setNameSpaces (l : List NameSpace) (data : Option CString)
    (properties : List (CString × Option CString)) (children : XmlSpaces) :
    uses [] (setNameSpaces l (node .tag data properties [] children nil)) =
      uses l (node .tag data properties [] children nil) := by
  simp only [setNameSpaces, uses, List.append_nil, List.nil_append]

/-- A tree keeps its meaning if and only if its names and URLs are fit for it. -/
theorem keepsMeaning_iff (data : Option CString) (properties : List (CString × Option CString))
    (nameSpaces : List NameSpace) (children : XmlSpaces) :
    KeepsMeaning (node .tag data properties nameSpaces children nil) ↔
      Fits (node .tag data properties nameSpaces children nil) := by
  generalize ht : node .tag data properties nameSpaces children nil = t
  have huses : ∀ l, uses [] (setNameSpaces l (clearNameSpaces (renamed l [] t))) =
      (uses [] t).map fun u => ⟨l, u.renamed l⟩ := by
    intro l
    rw [← uses_renamed l [] l t, ← ht]
    exact uses_setNameSpaces l _ _ _
  have htop : ∀ l, topEntries (setNameSpaces l (clearNameSpaces (renamed l [] t))) = l := by
    intro l
    rw [← ht]
    rfl
  by_cases hd : ∀ u ∈ uses [] t, u.declared = true
  · have hnone : ¬ ∃ u ∈ uses [] t, u.declared = false := by
      rintro ⟨u, hu, hf⟩
      rw [hd u hu] at hf
      cases hf
    simp only [KeepsMeaning, globalize_done hd, htop, huses, map_url_table, pairwise_table_iff,
      shape_setNameSpaces, shape_renamed, mem_distinctUrls_iff, bareBelow_setNameSpaces, true_and]
    constructor
    · rintro ⟨hlen, -, hurls, -⟩
      exact ⟨fun _ => ⟨hurls, hlen⟩, fun h => absurd h hnone⟩
    · rintro ⟨h, -⟩
      obtain ⟨hurls, hlen⟩ := h hd
      refine ⟨hlen, nodup_distinctUrls _, hurls, ?_⟩
      rw [List.map_map]
      exact List.map_congr_left fun u hu => resolve_renamed hu (hd u hu) hurls hlen
  · obtain ⟨t', hg, hsame⟩ := globalize_stopped hd
    have hsome : ∃ u ∈ uses [] t, u.declared = false := by
      push Not at hd
      simpa using hd
    simp only [KeepsMeaning, hg, hsame, Fits]
    exact ⟨fun h => ⟨fun h' => absurd h' hd, fun _ => h⟩, fun h => h.2 hsome⟩

/-- In `<p:a xmlns:p="u"><q:b/></p:a>` there is no definition for `q`; the name of the element
above is a new one then, for which there is no definition either. -/
theorem not_keepsMeaning_undeclared :
    ¬ ∀ (data : Option CString) (properties : List (CString × Option CString))
      (nameSpaces : List NameSpace) (children : XmlSpaces),
      KeepsMeaning (node .tag data properties nameSpaces children nil) := by
  intro h
  have h := h (some (CString.ofChars ['p', ':', 'a'])) []
    [⟨CString.ofChars ['p'], CString.ofChars ['u']⟩]
    (node .tag (some (CString.ofChars ['q', ':', 'b'])) [] [] nil nil)
  have hg : globalize (node .tag (some (CString.ofChars ['p', ':', 'a'])) []
      [⟨CString.ofChars ['p'], CString.ofChars ['u']⟩]
      (node .tag (some (CString.ofChars ['q', ':', 'b'])) [] [] nil nil) nil) =
      (.noData, node .tag (some (CString.ofChars ['_', '1', '_', ':', 'a'])) []
        [⟨CString.ofChars ['p'], CString.ofChars ['u']⟩]
        (node .tag (some (CString.ofChars ['q', ':', 'b'])) [] [] nil nil) nil) := by
    decide
  rw [KeepsMeaning, hg] at h
  revert h
  decide

end XmlSpaces
end Gwenhywfar
