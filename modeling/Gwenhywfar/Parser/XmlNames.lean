import Gwenhywfar.Parser.XmlDoc

/-! # The prefixes of XML names

* `XmlNames`: the nodes of a tree with their names and those of their attributes.
* `stripNamespaces`: `GWEN_XMLNode_StripNamespaces`; there is no outcome where the program is
  aborted because a block of no bytes is asked for.
* `split`: the names with their prefixes taken off.
* The first character of a prefix is lost with the NUL behind it, hence names are split only
  where no name has a prefix (`stripNamespaces_eq_split_iff`). -/

namespace Gwenhywfar

open CString (ofBytes)

/-- The names of a `GWEN_XMLPROPERTY`. -/
structure XmlAttribute where
  nameSpace : Option CString
  name : CString
deriving DecidableEq

theorem XmlAttribute.ext_iff {a b : XmlAttribute} :
    a = b ↔ a.nameSpace = b.nameSpace ∧ a.name = b.name := by
  cases a
  cases b
  simp

theorem XmlAttribute.ext {a b : XmlAttribute} (h₁ : a.nameSpace = b.nameSpace)
    (h₂ : a.name = b.name) : a = b := XmlAttribute.ext_iff.mpr ⟨h₁, h₂⟩

/-- A list of nodes; the data of a tag is its name. -/
inductive XmlNames
  | nil
  | node (typ : XmlNodeType) (nameSpace data : Option CString) (properties : List XmlAttribute)
      (children next : XmlNames)
deriving DecidableEq

namespace XmlNames

/-! ### The code -/

/-- The copy of the first bytes of a name, with a NUL in the place of the last one;
`GWEN_Memory_malloc` neither allocates zero bytes nor more than there are. -/
def copyPrefix (name : CString) (len : Int32) : Option CString :=
  if len ≤ 0 then none
  else some (ofBytes ((name.bytes.take len.toInt.toNat).set (len.toInt.toNat - 1) 0))

/-- The part of `GWEN_XMLNode_StripNamespaces` that is there for the name of a node and once more
for the name of an attribute. -/
def stripName (a : XmlAttribute) : Option XmlAttribute :=
  if a.nameSpace.isSome then some a
  else if code ':' ∈ a.name.bytes then
    let p := a.name.bytes.idxOf (code ':')
    (copyPrefix a.name (Int32.ofNat p)).map fun nameSpace =>
      ⟨some nameSpace, ofBytes (a.name.bytes.drop (p + 1))⟩
  else some a

/-- `GWEN_XMLNode_StripNamespaces`, for every node of a list. -/
def stripNamespaces : XmlNames → Option XmlNames
  | nil => some nil
  | node .tag nameSpace (some data) properties children next => do
      let name ← stripName ⟨nameSpace, data⟩
      let properties' ← properties.mapM stripName
      let children' ← stripNamespaces children
      let next' ← stripNamespaces next
      some (node .tag name.nameSpace (some name.name) properties' children' next')
  | node typ nameSpace data properties children next =>
      (stripNamespaces next).map (node typ nameSpace data properties children)

/-! ### What it is for -/

/-- A name without its prefix, and the prefix. -/
def splitName (a : XmlAttribute) : XmlAttribute :=
  if code ':' ∈ a.name.bytes then
    let p := a.name.bytes.idxOf (code ':')
    ⟨some (ofBytes (a.name.bytes.take p)), ofBytes (a.name.bytes.drop (p + 1))⟩
  else a

/-- The names of the tags that have only tags above them, and of their attributes, are split. -/
def split : XmlNames → XmlNames
  | nil => nil
  | node .tag nameSpace (some data) properties children next =>
      let name := splitName ⟨nameSpace, data⟩
      node .tag name.nameSpace (some name.name) (properties.map splitName) (split children)
        (split next)
  | node .tag nameSpace none properties children next =>
      node .tag nameSpace none (properties.map splitName) (split children) (split next)
  | node typ nameSpace data properties children next =>
      node typ nameSpace data properties children (split next)

/-- No name has a prefix yet that has been taken off. -/
def Unset : XmlNames → Prop
  | nil => True
  | node _ nameSpace _ properties children next =>
      nameSpace = none ∧ (∀ a ∈ properties, a.nameSpace = none) ∧ Unset children ∧ Unset next

/-- There is no `:` in the names that are to be split. -/
def Plain : XmlNames → Prop
  | nil => True
  | node .tag _ data properties children next =>
      (∀ name ∈ data, code ':' ∉ name.bytes) ∧ (∀ a ∈ properties, code ':' ∉ a.name.bytes) ∧
        Plain children ∧ Plain next
  | node _ _ _ _ _ next => Plain next

/-! ### One name -/

theorem splitName_eq_self_iff {a : XmlAttribute} (ha : a.nameSpace = none) :
    splitName a = a ↔ code ':' ∉ a.name.bytes := by
  unfold splitName
  constructor
  · intro h hc
    rw [if_pos hc] at h
    have hns := congrArg XmlAttribute.nameSpace h
    rw [ha] at hns
    exact absurd hns (by simp)
  · intro hc
    rw [if_neg hc]

theorem toNat_ofNat_le (p : ℕ) : (Int32.ofNat p).toInt.toNat ≤ p := by
  rw [Int32.toInt_ofNat', Int.bmod_def, ← Int.natCast_mod]
  have := Nat.mod_le p Int32.size
  split <;> omega

theorem length_ofBytes_set {bs : List UInt8} {i : ℕ} (hi : i < bs.length) :
    (ofBytes (bs.set i 0)).bytes.length ≤ i := by
  rw [List.set_eq_take_append_cons_drop, if_pos hi]
  simp only [ofBytes, List.takeWhile_append, List.takeWhile_cons]
  have htake : (bs.take i).length ≤ i := by simp
  split
  · simp
  · exact (List.takeWhile_prefix _).length_le.trans htake

/-- A copied prefix is shorter than the prefix. -/
theorem length_copyPrefix {name ns : CString} {p : ℕ} (hp : p ≤ name.bytes.length)
    (h : copyPrefix name (Int32.ofNat p) = some ns) : ns.bytes.length < p := by
  unfold copyPrefix at h
  split at h
  · cases h
  · next hpos =>
      obtain rfl := Option.some.inj h
      have hle := toNat_ofNat_le p
      set len := (Int32.ofNat p).toInt.toNat with hlen
      have h0 : 0 < len := by
        rw [Int32.not_le, Int32.lt_iff_toInt_lt] at hpos
        have : (0 : Int32).toInt = 0 := rfl
        omega
      have hlast : len - 1 < (name.bytes.take len).length := by
        rw [List.length_take]
        omega
      have := length_ofBytes_set hlast
      omega

theorem stripName_eq_splitName_iff {a : XmlAttribute} (ha : a.nameSpace = none) :
    stripName a = some (splitName a) ↔ code ':' ∉ a.name.bytes := by
  unfold stripName splitName
  rw [ha]
  by_cases hc : code ':' ∈ a.name.bytes
  · simp only [Option.isSome_none, Bool.false_eq_true, if_false, hc, not_true_eq_false, iff_false]
    intro h
    obtain ⟨ns, hns, he⟩ := Option.map_eq_some_iff.mp h
    have hp := List.idxOf_lt_length_of_mem hc
    have hshort := length_copyPrefix hp.le hns
    have heq : ns = _ := Option.some.inj (congrArg XmlAttribute.nameSpace he)
    rw [heq, CString.ofBytes_bytes (fun h0 => a.name.nul_free (List.mem_of_mem_take h0)),
      List.length_take] at hshort
    omega
  · simp [hc]

/-! ### Lists of names -/

theorem map_splitName_eq_self_iff {as : List XmlAttribute} (h : ∀ a ∈ as, a.nameSpace = none) :
    as.map splitName = as ↔ ∀ a ∈ as, code ':' ∉ a.name.bytes := by
  induction as with
  | nil => simp
  | cons a as ih =>
      rw [List.forall_mem_cons] at h
      rw [List.map_cons, List.cons_eq_cons, List.forall_mem_cons, splitName_eq_self_iff h.1, ih h.2]

theorem mapM_stripName_iff {as : List XmlAttribute} (h : ∀ a ∈ as, a.nameSpace = none) :
    as.mapM stripName = some (as.map splitName) ↔ ∀ a ∈ as, code ':' ∉ a.name.bytes := by
  induction as with
  | nil => simp
  | cons a as ih =>
      rw [List.forall_mem_cons] at h
      rw [List.forall_mem_cons, ← stripName_eq_splitName_iff h.1, ← ih h.2, List.mapM_cons,
        List.map_cons]
      constructor
      · intro he
        obtain ⟨b, hb, he⟩ := Option.bind_eq_some_iff.mp he
        obtain ⟨bs, hbs, he⟩ := Option.bind_eq_some_iff.mp he
        obtain ⟨rfl, rfl⟩ := List.cons.inj (Option.some.inj he)
        exact ⟨hb, hbs⟩
      · rintro ⟨hb, hbs⟩
        rw [hb, hbs]
        rfl

/-! ### Trees -/

/-- Nothing is split only where there is nothing to split. -/
theorem split_eq_self_iff {t : XmlNames} (h : Unset t) : split t = t ↔ Plain t := by
  induction t with
  | nil => simp [split, Plain]
  | node typ nameSpace data properties children next ihc ihn =>
      obtain ⟨rfl, hp, hc, hn⟩ := h
      cases typ with
      | tag =>
          cases data with
          | none =>
              simp [split, Plain, map_splitName_eq_self_iff hp, ihc hc, ihn hn]
          | some name =>
              have hs := splitName_eq_self_iff (show XmlAttribute.nameSpace ⟨none, name⟩ = none from rfl)
              rw [XmlAttribute.ext_iff] at hs
              simp only [split, node.injEq, true_and, Option.some.injEq, ihc hc, ihn hn,
                map_splitName_eq_self_iff hp, Plain, Option.mem_some_iff, forall_eq', ← and_assoc]
              rw [hs]
      | data => simp [split, Plain, ihn hn]
      | comment => simp [split, Plain, ihn hn]

theorem stripNamespaces_tag {nameSpace : Option CString} {name : CString}
    {properties : List XmlAttribute} {children next : XmlNames} :
    stripNamespaces (node .tag nameSpace (some name) properties children next) =
        some (split (node .tag nameSpace (some name) properties children next)) ↔
      stripName ⟨nameSpace, name⟩ = some (splitName ⟨nameSpace, name⟩) ∧
        properties.mapM stripName = some (properties.map splitName) ∧
          stripNamespaces children = some (split children) ∧
            stripNamespaces next = some (split next) := by
  constructor
  · intro h
    obtain ⟨a, ha, h⟩ := Option.bind_eq_some_iff.mp h
    obtain ⟨as, has, h⟩ := Option.bind_eq_some_iff.mp h
    obtain ⟨cs, hcs, h⟩ := Option.bind_eq_some_iff.mp h
    obtain ⟨ns, hns, h⟩ := Option.bind_eq_some_iff.mp h
    simp only [split, Option.some.injEq, node.injEq, true_and] at h
    obtain ⟨h1, h2, rfl, rfl, rfl⟩ := h
    exact ⟨ha.trans (congrArg some (XmlAttribute.ext h1 h2)), has, hcs, hns⟩
  · rintro ⟨ha, has, hcs, hns⟩
    simp only [stripNamespaces, ha, has, hcs, hns, split]
    rfl

/-- The names are split if and only if none of them has a prefix. -/
theorem stripNamespaces_eq_split_iff (t : XmlNames) (h : Unset t) :
    stripNamespaces t = some (split t) ↔ Plain t := by
  induction t with
  | nil => simp [stripNamespaces, split, Plain]
  | node typ nameSpace data properties children next ihc ihn =>
      obtain ⟨rfl, hp, hc, hn⟩ := h
      cases typ with
      | tag =>
          cases data with
          | none =>
              -- the code leaves a tag without a name alone, and all below it
              simp only [stripNamespaces, Option.map_eq_some_iff, split, node.injEq, true_and, Plain]
              constructor
              · rintro ⟨next', hnext, hps, hcs, rfl⟩
                exact ⟨by simp, (map_splitName_eq_self_iff hp).mp hps.symm,
                  (split_eq_self_iff hc).mp hcs.symm, (ihn hn).mp hnext⟩
              · rintro ⟨-, hps, hcs, hnext⟩
                exact ⟨_, (ihn hn).mpr hnext, ((map_splitName_eq_self_iff hp).mpr hps).symm,
                  ((split_eq_self_iff hc).mpr hcs).symm, rfl⟩
          | some name =>
              rw [stripNamespaces_tag, stripName_eq_splitName_iff rfl, mapM_stripName_iff hp, ihc hc,
                ihn hn]
              simp [Plain]
      | data => simp [stripNamespaces, split, Plain, ihn hn]
      | comment => simp [stripNamespaces, split, Plain, ihn hn]

/-- An element with an attribute and a text is split, and `<p:a/>` is not. -/
theorem stripNamespaces_text :
    stripNamespaces (node .tag none (some (CString.ofChars ['a'])) [⟨none, CString.ofChars ['b']⟩]
        (node .data none (some (CString.ofChars ['x', ':'])) [] nil nil) nil) =
      some (split (node .tag none (some (CString.ofChars ['a'])) [⟨none, CString.ofChars ['b']⟩]
        (node .data none (some (CString.ofChars ['x', ':'])) [] nil nil) nil)) ∧
    stripNamespaces (node .tag none (some (CString.ofChars ['p', ':', 'a'])) [] nil nil) ≠
      some (split (node .tag none (some (CString.ofChars ['p', ':', 'a'])) [] nil nil)) := by
  refine ⟨(stripNamespaces_eq_split_iff _ ?_).mpr ?_,
    mt (stripNamespaces_eq_split_iff _ ?_).mp ?_⟩
  · exact ⟨rfl, by simp, ⟨rfl, by simp, trivial, trivial⟩, trivial⟩
  · refine ⟨fun name hname => ?_, List.forall_mem_singleton.mpr (by decide), trivial, trivial⟩
    rw [← Option.some.inj hname]
    decide
  · exact ⟨rfl, by simp, trivial, trivial⟩
  · exact fun hplain => absurd (hplain.1 _ rfl) (by decide)

/-- The element `<a:b>` gets an empty prefix. -/
theorem stripNamespaces_short_prefix : ¬ ∀ t, Unset t → stripNamespaces t = some (split t) := by
  intro h
  have := h (node .tag none (some (CString.ofChars ['a', ':', 'b'])) [] nil nil)
    ⟨rfl, by simp, trivial, trivial⟩
  revert this
  decide

end XmlNames
end Gwenhywfar
