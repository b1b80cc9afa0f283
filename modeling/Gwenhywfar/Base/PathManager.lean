import Gwenhywfar.Base.StringList
import Gwenhywfar.Base.Error

/-! # The path manager

The paths of libraries are in a DB: a group for each library, in it a group for each kind of path,
in it a group `pair` for each path, with the library that added it.

* `DbGroups`: groups with a name, which `GWEN_DB_GetGroup` looks up without regard to case.
* `PathManager.step`: the calls, for names whose path in the DB has one element.
* `PathTable`: what they are for, a table of sequences of paths.
* `PathCall.Fits`: the calls that do what they are for; `tables_of_fits`: the run. -/

namespace Gwenhywfar

open Function
open CString (ofBytes)

/-- A name of letters, digits and underscores: the path to a group with it has one element. -/
structure DbName where
  text : CString
  ne_nil : text.bytes ≠ []
  word : ∀ c ∈ text.bytes, isAlnum c || c == code '_'
deriving DecidableEq

abbrev DbGroups (β : Type) := List (DbName × β)

namespace DbGroups

variable {β : Type}

/-- The name of a group is taken for another one, without regard to case. -/
def hasName (name : DbName) (g : DbName × β) : Bool := strcaseEq g.1.text name.text

/-- `GWEN_DB_GetGroup` with `GWEN_PATH_FLAGS_NAMEMUSTEXIST`. -/
def getGroup (groups : DbGroups β) (name : DbName) : Option β :=
  (groups.find? (hasName name)).map Prod.snd

/-- `GWEN_DB_GetGroup` with `GWEN_DB_FLAGS_DEFAULT`: a group that is missing is created. -/
def withGroup (groups : DbGroups β) (name : DbName) (new : β) : DbGroups β :=
  if (groups.getGroup name).isSome then groups else groups ++ [(name, new)]

def modifyGroup (f : β → β) (name : DbName) : DbGroups β → DbGroups β
  | [] => []
  | g :: groups => if hasName name g then (g.1, f g.2) :: groups else g :: modifyGroup f name groups

/-- `GWEN_DB_UnlinkGroup` of the first group with the name. -/
def unlinkGroup (groups : DbGroups β) (name : DbName) : DbGroups β := groups.eraseP (hasName name)

end DbGroups

/-- A group `pair`. -/
structure PathPair where
  lib : Option DbName
  path : CString
deriving DecidableEq

/-- The calls. -/
inductive PathCall where
  | definePath (destLib pathName : DbName)
  | undefinePath (destLib pathName : DbName)
  | addPath (callingLib : Option DbName) (destLib pathName : DbName) (pathValue : CString)
  | insertPath (callingLib : Option DbName) (destLib pathName : DbName) (pathValue : CString)
  | removePath (callingLib : Option DbName) (destLib pathName : DbName) (pathValue : CString)
  | removePaths (callingLib : DbName)
  | getPaths (destLib pathName : DbName)
deriving DecidableEq

/-- What a call returns. -/
inductive PathResult where
  | code (rv : ℤ)
  | paths (list : Option (List CString))
deriving DecidableEq

/-- `gwen__paths`, with what the last call has returned. -/
structure PathManager where
  libs : DbGroups (DbGroups (List PathPair))
  result : PathResult

/-! ### The code -/

/-- The loop of `GWEN_Directory_OsifyPath`: a separator behind another one is skipped. -/
def osifyLoop (behind : Bool) : List UInt8 → List UInt8
  | [] => []
  | c :: p =>
      if c = code '/' ∨ c = code '\\' then
        if behind then osifyLoop true p else code '/' :: osifyLoop true p
      else c :: osifyLoop false p

/-- `GWEN_Directory_OsifyPath`. -/
def osifyPath (path : CString) : CString := ofBytes (osifyLoop false path.bytes)

namespace PathManager

/-- `GWEN_PathManager_ModuleInit`. -/
def init : PathManager := ⟨[], .code 0⟩

def pairs (pm : PathManager) (destLib pathName : DbName) : Option (List PathPair) :=
  (DbGroups.getGroup pm.libs destLib).bind fun lib => DbGroups.getGroup lib pathName

def modifyPairs (pm : PathManager) (destLib pathName : DbName)
    (f : List PathPair → List PathPair) : DbGroups (DbGroups (List PathPair)) :=
  DbGroups.modifyGroup (DbGroups.modifyGroup f pathName) destLib pm.libs

/-- `GWEN_PathManager_DefinePath`. -/
def definePath (pm : PathManager) (destLib pathName : DbName) : PathManager :=
  let libs := DbGroups.withGroup pm.libs destLib []
  if (pm.pairs destLib pathName).isSome then ⟨libs, .code errorInvalid⟩
  else ⟨DbGroups.modifyGroup (fun lib => DbGroups.withGroup lib pathName []) destLib libs, .code 0⟩

/-- `GWEN_PathManager_UndefinePath`. -/
def undefinePath (pm : PathManager) (destLib pathName : DbName) : PathManager :=
  if (DbGroups.getGroup pm.libs destLib).isNone then { pm with result := .code errorNotFound }
  else
    ⟨DbGroups.modifyGroup (fun lib =>
      DbGroups.unlinkGroup (DbGroups.withGroup lib pathName []) pathName) destLib pm.libs, .code 0⟩

/-- A new pair is added in a path that must exist. -/
def putPair (pm : PathManager) (destLib pathName : DbName)
    (put : List PathPair → List PathPair) : PathManager :=
  if (pm.pairs destLib pathName).isNone then { pm with result := .code errorNotFound }
  else ⟨pm.modifyPairs destLib pathName put, .code 0⟩

/-- `GWEN_PathManager_AddPath`. -/
def addPath (pm : PathManager) (callingLib : Option DbName) (destLib pathName : DbName)
    (pathValue : CString) : PathManager :=
  pm.putPair destLib pathName fun pairs => pairs ++ [⟨callingLib, osifyPath pathValue⟩]

/-- `GWEN_PathManager_InsertPath`. -/
def insertPath (pm : PathManager) (callingLib : Option DbName) (destLib pathName : DbName)
    (pathValue : CString) : PathManager :=
  pm.putPair destLib pathName fun pairs => ⟨callingLib, pathValue⟩ :: pairs

/-- A library is the one that has called. -/
def isLib (callingLib : DbName) (lib : Option DbName) : Bool :=
  lib.any fun s => strcaseEq s.text callingLib.text

/-- The pair that `GWEN_PathManager_RemovePath` looks for. -/
def isPair (callingLib : Option DbName) (pathValue : CString) (pair : PathPair) : Bool :=
  (callingLib.isNone && pair.lib.isNone || callingLib.any fun c => isLib c pair.lib) &&
    strcaseEq pair.path pathValue

/-- `GWEN_PathManager_RemovePath`. -/
def removePath (pm : PathManager) (callingLib : Option DbName) (destLib pathName : DbName)
    (pathValue : CString) : PathManager :=
  match pm.pairs destLib pathName with
  | none => { pm with result := .code errorNotFound }
  | some pairs =>
      if pairs.any (isPair callingLib pathValue) then
        ⟨pm.modifyPairs destLib pathName fun pairs => pairs.eraseP (isPair callingLib pathValue),
          .code 0⟩
      else { pm with result := .code 1 }

/-- `GWEN_PathManager_RemovePaths`, which asserts that each pair it comes to has a library. -/
def removePaths (pm : PathManager) (callingLib : DbName) : Option PathManager :=
  let libs := DbGroups.unlinkGroup pm.libs callingLib
  if libs.all fun lib => lib.2.all fun path => path.2.all fun pair => pair.lib.isSome then
    some ⟨libs.map fun lib => (lib.1, lib.2.map fun path =>
      (path.1, path.2.filter fun pair => !isLib callingLib pair.lib)), .code 0⟩
  else none

/-- `GWEN_PathManager_GetPaths`. -/
def getPaths (pm : PathManager) (destLib pathName : DbName) : Option (List CString) :=
  (pm.pairs destLib pathName).bind fun pairs =>
    let sl := pairs.foldl (fun sl pair => (sl.appendString pair.path).2) StringList.new
    if sl.entries.isEmpty then none else some (sl.entries.map StringListEntry.data)

def step (pm : PathManager) : PathCall → Option PathManager
  | .definePath d n => some (pm.definePath d n)
  | .undefinePath d n => some (pm.undefinePath d n)
  | .addPath c d n v => some (pm.addPath c d n v)
  | .insertPath c d n v => some (pm.insertPath c d n v)
  | .removePath c d n v => some (pm.removePath c d n v)
  | .removePaths c => pm.removePaths c
  | .getPaths d n => some { pm with result := .paths (pm.getPaths d n) }

end PathManager

/-! ### What they are for -/

/-- The pairs of every path that is defined, with what the last call has returned. -/
structure PathTable where
  defined : DbName → DbName → Option (List PathPair)
  result : PathResult

namespace PathTable

/-- No path is defined. -/
def init : PathTable := ⟨fun _ _ => none, .code 0⟩

/-- The values without the doubles. -/
def distinct (values : List CString) : List CString :=
  values.foldl (fun list v => if v ∈ list then list else list ++ [v]) []

/-- One path is changed. -/
def write (t : PathTable) (d n : DbName) (pairs : Option (List PathPair)) : PathTable :=
  ⟨fun d' n' => if d' = d ∧ n' = n then pairs else t.defined d' n', .code 0⟩

def change (t : PathTable) (d n : DbName) (f : List PathPair → List PathPair) : PathTable :=
  match t.defined d n with
  | none => { t with result := .code errorNotFound }
  | some pairs => t.write d n (some (f pairs))

def step (t : PathTable) : PathCall → PathTable
  | .definePath d n =>
      if (t.defined d n).isSome then { t with result := .code errorInvalid }
      else t.write d n (some [])
  | .undefinePath d n =>
      if (t.defined d n).isSome then t.write d n none
      else { t with result := .code errorNotFound }
  | .addPath c d n v => t.change d n fun pairs => pairs ++ [⟨c, v⟩]
  | .insertPath c d n v => t.change d n fun pairs => ⟨c, v⟩ :: pairs
  | .removePath c d n v =>
      if ∀ pairs ∈ t.defined d n, ⟨c, v⟩ ∈ pairs then t.change d n fun pairs => pairs.erase ⟨c, v⟩
      else { t with result := .code 1 }
  | .removePaths c =>
      ⟨fun d n => if d = c then none
        else (t.defined d n).map fun pairs => pairs.filter fun pair => pair.lib ≠ some c, .code 0⟩
  | .getPaths d n =>
      { t with result := .paths <| (t.defined d n).bind fun pairs =>
          let list := distinct (pairs.map PathPair.path)
          if list = [] then none else some list }

end PathTable

/-! ### The calls that do what they are for -/

def DbGroups.Only {β : Type} (groups : DbGroups β) (name : DbName) : Prop :=
  ∀ g ∈ groups, hasName name g = true → g.1 = name

def PathManager.Spells (pm : PathManager) (d n : DbName) : Prop :=
  DbGroups.Only pm.libs d ∧ ∀ lib, DbGroups.getGroup pm.libs d = some lib → DbGroups.Only lib n

/-- The call spells names and values as those in use; what is added has single slashes only as
separators, what is undefined is defined or has no library with paths, and when all paths of a
library are removed each pair in a path of another one has been added by a library. -/
def PathCall.Fits (pm : PathManager) : PathCall → Prop
  | .definePath d n | .insertPath _ d n _ => pm.Spells d n
  | .undefinePath d n => pm.Spells d n ∧
      ((DbGroups.getGroup pm.libs d).isSome → (pm.pairs d n).isSome)
  | .addPath _ d n v => pm.Spells d n ∧ osifyPath v = v
  | .removePath c d n v => pm.Spells d n ∧ ∀ pairs, pm.pairs d n = some pairs →
      ∀ pair ∈ pairs, PathManager.isPair c v pair = true → pair = ⟨c, v⟩
  | .removePaths c => DbGroups.Only pm.libs c ∧
      ∀ lib ∈ pm.libs, lib.1 ≠ c → ∀ path ∈ lib.2, ∀ pair ∈ path.2,
        pair.lib.isSome ∧ (PathManager.isLib c pair.lib = true → pair.lib = some c)
  | .getPaths d n => pm.Spells d n ∧ ∀ pairs, pm.pairs d n = some pairs →
      ∀ p ∈ pairs, ∀ q ∈ pairs, strcaseEq p.path q.path = true → p.path = q.path

instance {β : Type} (groups : DbGroups β) (name : DbName) :
    Decidable (DbGroups.Only groups name) :=
  inferInstanceAs (Decidable (∀ g ∈ groups, DbGroups.hasName name g = true → g.1 = name))

instance (pm : PathManager) (d n : DbName) : Decidable (pm.Spells d n) :=
  inferInstanceAs (Decidable (DbGroups.Only pm.libs d ∧
    ∀ lib ∈ DbGroups.getGroup pm.libs d, DbGroups.Only lib n))

instance PathCall.decidableFits (pm : PathManager) : (o : PathCall) → Decidable (o.Fits pm)
  | .definePath d n | .insertPath _ d n _ => inferInstanceAs (Decidable (pm.Spells d n))
  | .undefinePath d n => inferInstanceAs (Decidable (pm.Spells d n ∧
      ((DbGroups.getGroup pm.libs d).isSome → (pm.pairs d n).isSome)))
  | .addPath _ d n v => inferInstanceAs (Decidable (pm.Spells d n ∧ osifyPath v = v))
  | .removePath c d n v => inferInstanceAs (Decidable (pm.Spells d n ∧
      ∀ pairs ∈ pm.pairs d n, ∀ pair ∈ pairs, PathManager.isPair c v pair = true →
        pair = ⟨c, v⟩))
  | .removePaths c => inferInstanceAs (Decidable (DbGroups.Only pm.libs c ∧
      ∀ lib ∈ pm.libs, lib.1 ≠ c → ∀ path ∈ lib.2, ∀ pair ∈ path.2,
        pair.lib.isSome ∧ (PathManager.isLib c pair.lib = true → pair.lib = some c)))
  | .getPaths d n => inferInstanceAs (Decidable (pm.Spells d n ∧ ∀ pairs ∈ pm.pairs d n,
      ∀ p ∈ pairs, ∀ q ∈ pairs, strcaseEq p.path q.path = true → p.path = q.path))

/-! ### Groups -/

namespace DbGroups

variable {β : Type} {groups : DbGroups β} {name m : DbName}

theorem hasName_self (g : DbName × β) : hasName g.1 g = true := strcaseEq_iff.mpr rfl

theorem Only.tail {g : DbName × β} (ho : Only (g :: groups) name) : Only groups name :=
  fun g' hg' => ho g' (List.mem_cons_of_mem g hg')

theorem lookup_cons (g : DbName × β) (groups : DbGroups β) (m : DbName) :
    List.lookup m (g :: groups) = if m = g.1 then some g.2 else List.lookup m groups := by
  obtain ⟨k, b⟩ := g
  rw [List.lookup_cons]
  by_cases h : m = k
  · rw [if_pos h, beq_iff_eq.mpr h]
  · rw [if_neg h, beq_eq_false_iff_ne.mpr h]

theorem getGroup_eq : ∀ {groups : DbGroups β}, Only groups name →
    getGroup groups name = groups.lookup name
  | [], _ => rfl
  | g :: groups, ho => by
      rw [lookup_cons]
      by_cases hg : hasName name g = true
      · rw [if_pos (ho g List.mem_cons_self hg).symm, getGroup, List.find?_cons_of_pos hg]
        rfl
      · have hne : ¬ name = g.1 := by
          rintro rfl
          exact hg (hasName_self g)
        rw [if_neg hne, ← getGroup_eq ho.tail, getGroup, List.find?_cons_of_neg hg]
        rfl

theorem lookup_modifyGroup (f : β → β) : ∀ {groups : DbGroups β}, Only groups name →
    (modifyGroup f name groups).lookup m =
      if m = name then (groups.lookup m).map f else groups.lookup m
  | [], _ => (ite_self none).symm
  | g :: groups, ho => by
      rw [modifyGroup]
      by_cases hg : hasName name g = true
      · have hname := ho g List.mem_cons_self hg
        rw [if_pos hg, lookup_cons, lookup_cons]
        by_cases hm : m = name
        · have hmg : m = g.1 := hm.trans hname.symm
          rw [if_pos hmg, if_pos hmg, if_pos hm]
          rfl
        · have hmg : ¬ m = g.1 := fun h => hm (h.trans hname)
          rw [if_neg hmg, if_neg hmg, if_neg hm]
      · rw [if_neg hg, lookup_cons, lookup_cons, lookup_modifyGroup f ho.tail]
        by_cases hmg : m = g.1
        · have hm : ¬ m = name := by
            rintro rfl
            rw [hmg] at hg
            exact hg (hasName_self g)
          rw [if_pos hmg, if_pos hmg, if_neg hm]
        · rw [if_neg hmg, if_neg hmg]

theorem lookup_append_single (new : β) : ∀ (groups : DbGroups β),
    (groups ++ [(name, new)]).lookup m =
      (groups.lookup m).or (if m = name then some new else none)
  | [] => by
      rw [List.nil_append, lookup_cons]
      rfl
  | g :: groups => by
      rw [List.cons_append, lookup_cons, lookup_cons, lookup_append_single new groups]
      by_cases hmg : m = g.1
      · rw [if_pos hmg, if_pos hmg]
        rfl
      · rw [if_neg hmg, if_neg hmg]

theorem lookup_withGroup (ho : Only groups name) (new : β) : (withGroup groups name new).lookup m =
      if m = name then some ((groups.lookup name).getD new) else groups.lookup m := by
  rw [withGroup, getGroup_eq ho]
  cases hg : groups.lookup name with
  | some b =>
      rw [Option.isSome_some, if_pos rfl]
      by_cases hm : m = name
      · rw [if_pos hm, hm, hg]
        rfl
      · rw [if_neg hm]
  | none =>
      rw [Option.isSome_none, if_neg Bool.false_ne_true, lookup_append_single]
      by_cases hm : m = name
      · rw [if_pos hm, if_pos hm, hm, hg]
        rfl
      · rw [if_neg hm, if_neg hm, Option.or_none]

theorem lookup_unlinkGroup : ∀ {groups : DbGroups β}, Only groups name →
    (groups.map Prod.fst).Nodup →
    (unlinkGroup groups name).lookup m = if m = name then none else groups.lookup m
  | [], _, _ => (ite_self none).symm
  | g :: groups, ho, hnodup => by
      rw [List.map_cons, List.nodup_cons] at hnodup
      rw [unlinkGroup, lookup_cons]
      by_cases hg : hasName name g = true
      · have hname := ho g List.mem_cons_self hg
        rw [List.eraseP_cons_of_pos hg]
        by_cases hm : m = name
        · have hnone : groups.lookup m = none := by
            rw [List.lookup_eq_none_iff]
            intro g' hg'
            rw [bne_iff_ne]
            rintro rfl
            exact hnodup.1 (hname.trans hm.symm ▸ List.mem_map_of_mem hg')
          rw [if_pos hm, hnone]
        · have hmg : ¬ m = g.1 := fun h => hm (h.trans hname)
          rw [if_neg hm, if_neg hmg]
      · rw [List.eraseP_cons_of_neg hg, lookup_cons]
        by_cases hmg : m = g.1
        · have hm : ¬ m = name := by
            rintro rfl
            rw [hmg] at hg
            exact hg (hasName_self g)
          rw [if_pos hmg, if_pos hmg, if_neg hm]
        · rw [if_neg hmg, if_neg hmg]
          exact lookup_unlinkGroup ho.tail hnodup.2

theorem lookup_map (f : β → β) : ∀ (groups : DbGroups β),
    List.lookup m (groups.map fun g => (g.1, f g.2)) = (groups.lookup m).map f
  | [] => rfl
  | g :: groups => by
      rw [List.map_cons, lookup_cons, lookup_cons, lookup_map f groups]
      by_cases hmg : m = g.1
      · rw [if_pos hmg, if_pos hmg]
        rfl
      · rw [if_neg hmg, if_neg hmg]

theorem mem_of_lookup : ∀ {groups : DbGroups β} {b : β}, groups.lookup m = some b →
    (m, b) ∈ groups
  | g :: groups, b, h => by
      rw [lookup_cons] at h
      by_cases hmg : m = g.1
      · rw [if_pos hmg] at h
        rw [hmg, ← Option.some.inj h]
        exact List.mem_cons_self
      · rw [if_neg hmg] at h
        exact List.mem_cons_of_mem g (mem_of_lookup h)

/-! The names stay different from each other. -/

theorem fst_modifyGroup (f : β → β) : ∀ (groups : DbGroups β),
    (modifyGroup f name groups).map Prod.fst = groups.map Prod.fst
  | [] => rfl
  | g :: groups => by
      rw [modifyGroup]
      split
      · rfl
      · rw [List.map_cons, List.map_cons, fst_modifyGroup f groups]

theorem nodup_withGroup (ho : Only groups name) (hnodup : (groups.map Prod.fst).Nodup) (new : β) :
    ((withGroup groups name new).map Prod.fst).Nodup := by
  rw [withGroup]
  split
  · exact hnodup
  · next hnone =>
      rw [getGroup_eq ho, Option.not_isSome_iff_eq_none, List.lookup_eq_none_iff] at hnone
      rw [List.map_append, List.map_singleton]
      refine List.nodup_append.mpr ⟨hnodup, List.nodup_singleton _, ?_⟩
      intro a ha b hb hab
      obtain ⟨g, hg, rfl⟩ := List.mem_map.mp ha
      rw [List.mem_singleton.mp hb] at hab
      exact bne_iff_ne.mp (hnone g hg) hab.symm

theorem mem_modifyGroup {f : β → β} : ∀ {groups : DbGroups β} {g : DbName × β},
    g ∈ modifyGroup f name groups →
    g ∈ groups ∨ ∃ b, getGroup groups name = some b ∧ g.2 = f b
  | g' :: groups, g, h => by
      rw [modifyGroup] at h
      by_cases hg : hasName name g' = true
      · rw [if_pos hg] at h
        rcases List.mem_cons.mp h with rfl | h
        · exact .inr ⟨g'.2, by rw [getGroup, List.find?_cons_of_pos hg]; rfl, rfl⟩
        · exact .inl (List.mem_cons_of_mem g' h)
      · rw [if_neg hg] at h
        rcases List.mem_cons.mp h with rfl | h
        · exact .inl List.mem_cons_self
        · rcases mem_modifyGroup h with h | ⟨b, hb, heq⟩
          · exact .inl (List.mem_cons_of_mem g' h)
          · exact .inr ⟨b, by rwa [getGroup, List.find?_cons_of_neg hg], heq⟩

theorem mem_of_getGroup {b : β} (h : getGroup groups name = some b) : ∃ g ∈ groups, g.2 = b := by
  obtain ⟨g, hg, rfl⟩ := Option.map_eq_some_iff.mp h
  exact ⟨g, List.mem_of_find?_eq_some hg, rfl⟩

theorem only_withGroup (ho : Only groups name) (new : β) : Only (withGroup groups name new) name := by
  intro g hg hname
  rw [withGroup] at hg
  split at hg
  · exact ho g hg hname
  · rcases List.mem_append.mp hg with hg | hg
    · exact ho g hg hname
    · rw [List.mem_singleton.mp hg]

theorem mem_withGroup {new : β} {g : DbName × β} (hg : g ∈ withGroup groups name new) :
    g ∈ groups ∨ g.2 = new := by
  rw [withGroup] at hg
  split at hg
  · exact .inl hg
  · rcases List.mem_append.mp hg with hg | hg
    · exact .inl hg
    · exact .inr (by rw [List.mem_singleton.mp hg])

end DbGroups

/-! ### Runs -/

namespace PathManager

variable {pm : PathManager} {t : PathTable} {d n : DbName}

def table (libs : DbGroups (DbGroups (List PathPair))) (d n : DbName) : Option (List PathPair) :=
  (libs.lookup d).bind fun lib => lib.lookup n

/-- The names of the libraries are different from each other, and those of the paths of each. -/
structure UniqueNames (libs : DbGroups (DbGroups (List PathPair))) : Prop where
  libNames : (libs.map Prod.fst).Nodup
  pathNames : ∀ lib ∈ libs, (lib.2.map Prod.fst).Nodup

/-- The groups hold the table. -/
structure Holds (pm : PathManager) (t : PathTable) : Prop where
  defined : ∀ d n, t.defined d n = table pm.libs d n
  unique : UniqueNames pm.libs
  result : pm.result = t.result

theorem UniqueNames.modifyGroup {libs : DbGroups (DbGroups (List PathPair))}
    (hu : UniqueNames libs) {f : DbGroups (List PathPair) → DbGroups (List PathPair)}
    (hf : ∀ lib, DbGroups.getGroup libs d = some lib → (lib.map Prod.fst).Nodup →
      ((f lib).map Prod.fst).Nodup) : UniqueNames (DbGroups.modifyGroup f d libs) where
  libNames := by
    rw [DbGroups.fst_modifyGroup]
    exact hu.libNames
  pathNames lib hlib := by
    rcases DbGroups.mem_modifyGroup hlib with hlib | ⟨b, hb, heq⟩
    · exact hu.pathNames lib hlib
    · obtain ⟨g, hg, rfl⟩ := DbGroups.mem_of_getGroup hb
      rw [heq]
      exact hf g.2 hb (hu.pathNames g hg)

theorem pairs_eq (hs : pm.Spells d n) : pm.pairs d n = table pm.libs d n := by
  have hlib := DbGroups.getGroup_eq hs.1
  have hname := hs.2
  rw [hlib] at hname
  rw [pairs, table, hlib]
  cases hl : pm.libs.lookup d with
  | none => rfl
  | some lib => exact DbGroups.getGroup_eq (hname lib hl)

theorem table_modifyPairs (hs : pm.Spells d n) (f : List PathPair → List PathPair) (d' n' : DbName) :
    table (pm.modifyPairs d n f) d' n' =
      if d' = d ∧ n' = n then (table pm.libs d' n').map f else table pm.libs d' n' := by
  have hname := hs.2
  rw [DbGroups.getGroup_eq hs.1] at hname
  rw [table, table, modifyPairs, DbGroups.lookup_modifyGroup _ hs.1]
  by_cases hd : d' = d
  · subst hd
    rw [if_pos rfl]
    cases hl : pm.libs.lookup d' with
    | none => exact (ite_self none).symm
    | some lib =>
        rw [Option.map_some, Option.bind_some, Option.bind_some,
          DbGroups.lookup_modifyGroup f (hname lib hl)]
        simp only [true_and]
  · rw [if_neg hd, if_neg fun h => hd h.1]

theorem unique_modifyPairs (hu : UniqueNames pm.libs) (f : List PathPair → List PathPair) :
    UniqueNames (pm.modifyPairs d n f) :=
  hu.modifyGroup fun lib _ hlib => by rwa [DbGroups.fst_modifyGroup]

theorem Holds.putPair (h : Holds pm t) (hs : pm.Spells d n) (put : List PathPair → List PathPair) :
    Holds (pm.putPair d n put) (t.change d n put) := by
  rw [PathManager.putPair, pairs_eq hs, ← h.defined, PathTable.change]
  cases ht : t.defined d n with
  | none => exact ⟨h.defined, h.unique, rfl⟩
  | some pairs =>
      refine ⟨fun d' n' => ?_, unique_modifyPairs h.unique put, rfl⟩
      rw [Option.isNone_some, if_neg Bool.false_ne_true, table_modifyPairs hs, ← h.defined]
      simp only [PathTable.write]
      split
      · next heq => rw [heq.1, heq.2, ht, Option.map_some]
      · rfl

theorem Holds.definePath (h : Holds pm t) (hs : pm.Spells d n) :
    Holds (pm.definePath d n) (t.step (.definePath d n)) := by
  have hlookup : ∀ m, (DbGroups.withGroup pm.libs d []).lookup m =
      if m = d then some ((pm.libs.lookup d).getD []) else pm.libs.lookup m := fun m =>
    DbGroups.lookup_withGroup hs.1 []
  have hunique : UniqueNames (DbGroups.withGroup pm.libs d []) := by
    refine ⟨DbGroups.nodup_withGroup hs.1 h.unique.libNames _, fun lib hlib => ?_⟩
    rcases DbGroups.mem_withGroup hlib with hlib | hnew
    · exact h.unique.pathNames lib hlib
    · rw [hnew]
      exact List.nodup_nil
  have honly := DbGroups.only_withGroup hs.1 []
  have hpaths : DbGroups.Only ((pm.libs.lookup d).getD []) n := by
    have hname := hs.2
    rw [DbGroups.getGroup_eq hs.1] at hname
    cases hl : pm.libs.lookup d with
    | none => exact fun g hg => absurd hg List.not_mem_nil
    | some lib => exact hname lib hl
  rw [PathManager.definePath, pairs_eq hs, ← h.defined, PathTable.step]
  cases ht : t.defined d n with
  | some pairs =>
      refine ⟨fun d' n' => ?_, hunique, rfl⟩
      rw [Option.isSome_some, if_pos rfl, if_pos rfl, table, hlookup, h.defined, table]
      split
      · next heq =>
          rw [h.defined, table] at ht
          rw [heq]
          cases hl : pm.libs.lookup d with
          | none =>
              rw [hl] at ht
              cases ht
          | some lib => rfl
      · rfl
  | none =>
      refine ⟨fun d' n' => ?_, hunique.modifyGroup fun lib hlib hnodup => ?_, rfl⟩
      · rw [Option.isSome_none, if_neg Bool.false_ne_true, if_neg Bool.false_ne_true, table,
          DbGroups.lookup_modifyGroup _ honly, hlookup]
        simp only [PathTable.write]
        by_cases hd : d' = d
        · subst hd
          rw [if_pos rfl, if_pos rfl, Option.map_some, Option.bind_some,
            DbGroups.lookup_withGroup hpaths]
          have hold : ∀ m, ((pm.libs.lookup d').getD []).lookup m = t.defined d' m := by
            intro m
            rw [h.defined, table]
            cases pm.libs.lookup d' <;> rfl
          rw [hold, hold, ht]
          simp only [true_and]
          rfl
        · rw [if_neg hd, if_neg hd, if_neg fun heq => hd heq.1, h.defined, table]
      · rw [DbGroups.getGroup_eq honly, hlookup, if_pos rfl] at hlib
        exact DbGroups.nodup_withGroup (Option.some.inj hlib ▸ hpaths) hnodup []

theorem Holds.undefinePath (h : Holds pm t) (hs : pm.Spells d n)
    (hf : (DbGroups.getGroup pm.libs d).isSome → (pm.pairs d n).isSome) :
    Holds (pm.undefinePath d n) (t.step (.undefinePath d n)) := by
  have hname := hs.2
  rw [pairs_eq hs, ← h.defined] at hf
  rw [PathManager.undefinePath, PathTable.step]
  cases hl : DbGroups.getGroup pm.libs d with
  | none =>
      have hnone : t.defined d n = none := by
        rw [h.defined, table, ← DbGroups.getGroup_eq hs.1, hl]
        rfl
      rw [hnone]
      exact ⟨h.defined, h.unique, rfl⟩
  | some lib =>
      rw [hl] at hf
      rw [if_pos (hf rfl)]
      refine ⟨fun d' n' => ?_, h.unique.modifyGroup fun lib' hlib' hnodup => ?_, rfl⟩
      · rw [Option.isNone_some, if_neg Bool.false_ne_true, table,
          DbGroups.lookup_modifyGroup _ hs.1]
        simp only [PathTable.write]
        by_cases hd : d' = d
        · subst hd
          have hlookup := (DbGroups.getGroup_eq hs.1).symm.trans hl
          have hnodup : (lib.map Prod.fst).Nodup := by
            obtain ⟨g, hg, rfl⟩ := DbGroups.mem_of_getGroup hl
            exact h.unique.pathNames g hg
          rw [if_pos rfl, hlookup, Option.map_some, Option.bind_some,
            DbGroups.lookup_unlinkGroup (DbGroups.only_withGroup (hname lib hl) [])
              (DbGroups.nodup_withGroup (hname lib hl) hnodup []),
            DbGroups.lookup_withGroup (hname lib hl), h.defined, table, hlookup, Option.bind_some]
          simp only [true_and]
          split <;> rfl
        · rw [if_neg hd, if_neg fun heq => hd heq.1, h.defined, table]
      · have hwith := DbGroups.nodup_withGroup (hname lib' hlib') hnodup []
        exact hwith.sublist (List.eraseP_sublist.map _)

theorem isLib_self (c : DbName) : isLib c (some c) = true := strcaseEq_iff.mpr rfl

theorem isPair_self (c : Option DbName) (v : CString) : isPair c v ⟨c, v⟩ = true := by
  have hsame : strcaseEq v v = true := strcaseEq_iff.mpr rfl
  cases c with
  | none => rw [isPair, hsame]; rfl
  | some c => rw [isPair, Option.any_some, isLib_self, hsame]; rfl

theorem eraseP_congr {p q : PathPair → Bool} : ∀ {pairs : List PathPair},
    (∀ pair ∈ pairs, p pair = q pair) → pairs.eraseP p = pairs.eraseP q
  | [], _ => rfl
  | pair :: pairs, h => by
      rw [List.eraseP_cons, List.eraseP_cons, h pair List.mem_cons_self,
        eraseP_congr fun x hx => h x (List.mem_cons_of_mem pair hx)]

theorem Holds.removePath {c : Option DbName} {v : CString} (h : Holds pm t) (hs : pm.Spells d n)
    (hf : ∀ pairs, pm.pairs d n = some pairs → ∀ pair ∈ pairs, isPair c v pair = true →
      pair = ⟨c, v⟩) : Holds (pm.removePath c d n v) (t.step (.removePath c d n v)) := by
  rw [PathManager.removePath, PathTable.step]
  rw [pairs_eq hs, ← h.defined] at hf ⊢
  cases ht : t.defined d n with
  | none =>
      rw [if_pos (fun pairs hpairs => by cases hpairs), PathTable.change, ht]
      exact ⟨h.defined, h.unique, rfl⟩
  | some ps =>
      have hpair : ∀ pair ∈ ps, isPair c v pair = (pair == ⟨c, v⟩) := by
        intro pair hpair
        rw [Bool.eq_iff_iff, beq_iff_eq]
        refine ⟨hf ps ht pair hpair, ?_⟩
        rintro rfl
        exact isPair_self c v
      have hany : ps.any (isPair c v) = true ↔ ⟨c, v⟩ ∈ ps := by
        rw [List.any_eq_true]
        constructor
        · rintro ⟨pair, hmem, hp⟩
          exact hf ps ht pair hmem hp ▸ hmem
        · exact fun hmem => ⟨_, hmem, isPair_self c v⟩
      have hall : (∀ pairs ∈ some ps, (⟨c, v⟩ : PathPair) ∈ pairs) ↔ ⟨c, v⟩ ∈ ps := by
        simp only [Option.mem_def, Option.some.injEq, forall_eq']
      by_cases hmem : (⟨c, v⟩ : PathPair) ∈ ps
      · dsimp only
        rw [if_pos (hany.mpr hmem), if_pos (hall.mpr hmem), PathTable.change, ht]
        refine ⟨fun d' n' => ?_, unique_modifyPairs h.unique _, rfl⟩
        rw [table_modifyPairs hs, ← h.defined]
        simp only [PathTable.write]
        split
        · next heq =>
            rw [heq.1, heq.2, ht, Option.map_some, List.erase_eq_eraseP', eraseP_congr hpair]
        · rfl
      · dsimp only
        rw [if_neg (mt hany.mp hmem), if_neg (mt hall.mp hmem)]
        exact ⟨h.defined, h.unique, rfl⟩

theorem Holds.removePaths {c : DbName} (h : Holds pm t) (hs : DbGroups.Only pm.libs c)
    (hf : ∀ lib ∈ pm.libs, lib.1 ≠ c → ∀ path ∈ lib.2, ∀ pair ∈ path.2,
      pair.lib.isSome ∧ (isLib c pair.lib = true → pair.lib = some c)) :
    ∃ pm', pm.removePaths c = some pm' ∧ Holds pm' (t.step (.removePaths c)) := by
  have hsub : (DbGroups.unlinkGroup pm.libs c).Sublist pm.libs := List.eraseP_sublist
  have hlookup : ∀ d, (DbGroups.unlinkGroup pm.libs c).lookup d =
      if d = c then none else pm.libs.lookup d := fun d =>
    DbGroups.lookup_unlinkGroup hs h.unique.libNames
  have hnodup : ((DbGroups.unlinkGroup pm.libs c).map Prod.fst).Nodup :=
    h.unique.libNames.sublist (hsub.map _)
  have hne : ∀ lib ∈ DbGroups.unlinkGroup pm.libs c, lib.1 ≠ c := by
    rintro lib hlib rfl
    have hnone := hlookup lib.1
    rw [if_pos rfl, List.lookup_eq_none_iff] at hnone
    exact bne_iff_ne.mp (hnone lib hlib) rfl
  have hall : (DbGroups.unlinkGroup pm.libs c).all (fun lib => lib.2.all fun path =>
      path.2.all fun pair => pair.lib.isSome) = true := by
    simp only [List.all_eq_true]
    exact fun lib hlib path hpath pair hpair =>
      (hf lib (hsub.subset hlib) (hne lib hlib) path hpath pair hpair).1
  refine ⟨_, by rw [PathManager.removePaths, if_pos hall], fun d n => ?_, ⟨?_, ?_⟩, rfl⟩
  · have houter := @DbGroups.lookup_map _ d (fun lib : DbGroups (List PathPair) =>
      lib.map fun path => (path.1, path.2.filter fun pair => !isLib c pair.lib))
      (DbGroups.unlinkGroup pm.libs c)
    rw [table, houter, hlookup]
    simp only [PathTable.step]
    by_cases hd : d = c
    · rw [if_pos hd, if_pos hd]
      rfl
    · rw [if_neg hd, if_neg hd, h.defined, table]
      cases hl : pm.libs.lookup d with
      | none => rfl
      | some lib =>
          have hinner := @DbGroups.lookup_map _ n (fun pairs : List PathPair =>
            pairs.filter fun pair => !isLib c pair.lib) lib
          rw [Option.map_some, Option.bind_some, Option.bind_some, hinner]
          cases hp : lib.lookup n with
          | none => rfl
          | some pairs =>
              rw [Option.map_some, Option.map_some]
              refine congrArg some (List.filter_congr fun pair hpair => ?_)
              obtain ⟨-, hsame⟩ := hf _ (DbGroups.mem_of_lookup hl) hd _
                (DbGroups.mem_of_lookup hp) pair hpair
              rw [Bool.eq_iff_iff, decide_eq_true_iff, Bool.not_eq_true']
              constructor
              · exact fun hne' => Bool.eq_false_of_not_eq_true fun hlib => hne' (hsame hlib)
              · intro hother heq
                rw [heq, isLib_self] at hother
                cases hother
  · rw [List.map_map]
    exact hnodup
  · intro lib hlib
    obtain ⟨lib', hlib', rfl⟩ := List.mem_map.mp hlib
    rw [List.map_map]
    exact h.unique.pathNames lib' (hsub.subset hlib')

theorem attach_spelled {s : CString} : ∀ {entries : List StringListEntry},
    (∀ se ∈ entries, strcaseEq se.data s = true → se.data = s) →
    (StringList.attach false s entries).map (List.map StringListEntry.data) =
      if s ∈ entries.map StringListEntry.data then some (entries.map StringListEntry.data) else none
  | [], _ => rfl
  | se :: rest, h => by
      rw [StringList.attach, StringList.isSame, if_neg Bool.false_ne_true, List.map_cons]
      by_cases hsame : strcaseEq se.data s = true
      · rw [if_pos hsame, if_pos (h se List.mem_cons_self hsame ▸ List.mem_cons_self)]
        rfl
      · have hne : s ≠ se.data := by
          rintro rfl
          exact hsame (strcaseEq_iff.mpr rfl)
        have hrest := attach_spelled fun x hx => h x (List.mem_cons_of_mem se hx)
        rw [if_neg hsame, Option.map_map]
        by_cases hmem : s ∈ rest.map StringListEntry.data
        · rw [if_pos hmem] at hrest
          obtain ⟨rest', hattach, hdata⟩ := Option.map_eq_some_iff.mp hrest
          rw [if_pos (List.mem_cons_of_mem _ hmem), hattach, Option.map_some]
          exact congrArg some (congrArg (se.data :: ·) hdata)
        · rw [if_neg hmem, Option.map_eq_none_iff] at hrest
          rw [if_neg (fun hin => (List.mem_cons.mp hin).elim hne hmem), hrest]
          rfl

/-- The string list gets the values without the doubles. -/
theorem data_foldl_appendString : ∀ (pairs : List PathPair) {sl : StringList},
    sl.senseCase = false →
    (∀ v ∈ sl.entries.map StringListEntry.data, ∀ p ∈ pairs, strcaseEq v p.path = true →
      v = p.path) →
    (∀ p ∈ pairs, ∀ q ∈ pairs, strcaseEq p.path q.path = true → p.path = q.path) →
    (pairs.foldl (fun sl pair => (sl.appendString pair.path).2) sl).entries.map
        StringListEntry.data =
      (pairs.map PathPair.path).foldl (fun list v => if v ∈ list then list else list ++ [v])
        (sl.entries.map StringListEntry.data)
  | [], _, _, _, _ => rfl
  | p :: pairs, sl, hsl, hold, hnew => by
      have hattach := @attach_spelled p.path sl.entries fun se hse =>
        hold se.data (List.mem_map_of_mem hse) p List.mem_cons_self
      have htail : ∀ q ∈ pairs, ∀ q' ∈ pairs, strcaseEq q.path q'.path = true →
          q.path = q'.path := fun q hq q' hq' =>
        hnew q (List.mem_cons_of_mem p hq) q' (List.mem_cons_of_mem p hq')
      rw [List.foldl_cons, List.map_cons, List.foldl_cons, StringList.appendString, hsl]
      cases ha : StringList.attach false p.path sl.entries with
      | some entries =>
          rw [ha] at hattach
          have hmem : p.path ∈ sl.entries.map StringListEntry.data := by
            by_contra hmem
            rw [if_neg hmem] at hattach
            cases hattach
          rw [if_pos hmem, Option.map_some, Option.some.injEq] at hattach
          rw [if_pos hmem]
          have hrest := @data_foldl_appendString pairs { sl with entries := entries } hsl (by
            rw [hattach]
            exact fun v hv q hq => hold v hv q (List.mem_cons_of_mem p hq)) htail
          rw [hattach] at hrest
          rw [← hsl]
          exact hrest
      | none =>
          rw [ha] at hattach
          have hmem : p.path ∉ sl.entries.map StringListEntry.data := by
            intro hmem
            rw [if_pos hmem] at hattach
            cases hattach
          rw [if_neg hmem]
          have hdata : (sl.appendEntry (StringList.newEntry p.path)).entries.map
              StringListEntry.data = sl.entries.map StringListEntry.data ++ [p.path] := by
            rw [StringList.appendEntry, List.map_append]
            rfl
          have hrest := @data_foldl_appendString pairs
            (sl.appendEntry (StringList.newEntry p.path)) hsl (by
              rw [hdata]
              intro v hv q hq
              rcases List.mem_append.mp hv with hv | hv
              · exact hold v hv q (List.mem_cons_of_mem p hq)
              · rw [List.mem_singleton.mp hv]
                exact hnew p List.mem_cons_self q (List.mem_cons_of_mem p hq)) htail
          rw [hdata] at hrest
          exact hrest

theorem Holds.getPaths (h : Holds pm t) (hs : pm.Spells d n)
    (hf : ∀ pairs, pm.pairs d n = some pairs → ∀ p ∈ pairs, ∀ q ∈ pairs,
      strcaseEq p.path q.path = true → p.path = q.path) :
    Holds { pm with result := .paths (pm.getPaths d n) } (t.step (.getPaths d n)) := by
  refine ⟨h.defined, h.unique, ?_⟩
  rw [PathManager.getPaths, PathTable.step]
  rw [pairs_eq hs, ← h.defined] at hf ⊢
  cases ht : t.defined d n with
  | none => rfl
  | some pairs =>
      have hdata := @data_foldl_appendString pairs StringList.new rfl
        (fun v hv => absurd hv List.not_mem_nil) (hf pairs ht)
      have hlist : (pairs.foldl (fun sl pair => (sl.appendString pair.path).2)
          StringList.new).entries.map StringListEntry.data =
          PathTable.distinct (pairs.map PathPair.path) := hdata
      rw [Option.bind_some, Option.bind_some]
      dsimp only
      rw [← hlist]
      simp only [List.isEmpty_iff, List.map_eq_nil_iff]

theorem Holds.step (h : Holds pm t) {o : PathCall} (hf : o.Fits pm) :
    ∃ pm', pm.step o = some pm' ∧ Holds pm' (t.step o) := by
  cases o with
  | definePath d n => exact ⟨_, rfl, h.definePath hf⟩
  | undefinePath d n => exact ⟨_, rfl, h.undefinePath hf.1 hf.2⟩
  | addPath c d n v =>
      refine ⟨_, rfl, ?_⟩
      have hput := h.putPair hf.1 fun pairs => pairs ++ [⟨c, v⟩]
      rw [PathManager.addPath, hf.2]
      exact hput
  | insertPath c d n v => exact ⟨_, rfl, h.putPair hf _⟩
  | removePath c d n v => exact ⟨_, rfl, h.removePath hf.1 hf.2⟩
  | removePaths c => exact h.removePaths hf.1 hf.2
  | getPaths d n => exact ⟨_, rfl, h.getPaths hf.1 hf.2⟩

theorem holds_init : Holds .init .init := ⟨fun _ _ => rfl, ⟨List.nodup_nil, fun _ h =>
  absurd h List.not_mem_nil⟩, rfl⟩

end PathManager

/-- The calls return what is expected, and the paths that are defined have the pairs. -/
structure SeenAsTable (pm : PathManager) (t : PathTable) : Prop where
  defined : ∀ d n, t.defined d n = PathManager.table pm.libs d n
  result : pm.result = t.result

/-- The path manager is a table of paths in every run of such calls, and no assertion fails. -/
theorem tables_of_fits (ops : List PathCall)
    (hf : Along PathManager.step (fun pm o => o.Fits pm) PathManager.init ops) :
    ∀ pre, pre <+: ops → ∃ pm, exec PathManager.step PathManager.init pre = some pm ∧
      SeenAsTable pm (pre.foldl PathTable.step PathTable.init) := by
  rintro pre ⟨post, hpost⟩
  have hstep : ∀ pm t o, PathManager.Holds pm t → PathCall.Fits pm o → ∃ pm' t',
      pm.step o = some pm' ∧ some (t.step o) = some t' ∧ PathManager.Holds pm' t' := by
    intro pm t o h ho
    obtain ⟨pm', hrun, h'⟩ := h.step ho
    exact ⟨pm', _, hrun, rfl, h'⟩
  obtain ⟨pm, t, hs, ht, h, -⟩ :=
    Along.simulation hstep PathManager.holds_init hf pre post hpost
  have hfold : ∀ (pre : List PathCall) (t : PathTable),
      exec (fun t o => some (PathTable.step t o)) t pre = some (pre.foldl PathTable.step t) := by
    intro pre
    induction pre with
    | nil => exact fun t => rfl
    | cons o pre ih =>
        intro t
        rw [exec_cons, Option.bind_some, ih, List.foldl_cons]
  rw [hfold, Option.some.injEq] at ht
  exact ⟨pm, hs, ht ▸ ⟨h.defined, h.result⟩⟩

theorem bytes_letter {c : UInt8} (hc : isAlnum c = true) : (ofBytes [c]).bytes = [c] := by
  have hne : c ≠ 0 := by
    rintro rfl
    cases hc
  exact CString.ofBytes_bytes (by rw [List.mem_singleton]; exact hne.symm)

def letterName (c : UInt8) (hc : isAlnum c = true) : DbName where
  text := ofBytes [c]
  ne_nil := by
    rw [bytes_letter hc]
    exact List.cons_ne_nil _ _
  word := by
    intro x hx
    rw [bytes_letter hc, List.mem_singleton] at hx
    rw [hx, hc, Bool.true_or]

/-- Two libraries and a path of one of them, from which the pairs of one go. -/
theorem tables_of_fits_two : ∃ pm, exec PathManager.step PathManager.init
        [.definePath (letterName 97 rfl) (letterName 98 rfl),
          .addPath (some (letterName 99 rfl)) (letterName 97 rfl) (letterName 98 rfl)
            (ofBytes [47, 97]),
          .insertPath (some (letterName 100 rfl)) (letterName 97 rfl) (letterName 98 rfl)
            (ofBytes [47, 98]),
          .getPaths (letterName 97 rfl) (letterName 98 rfl), .removePaths (letterName 99 rfl),
          .removePath (some (letterName 100 rfl)) (letterName 97 rfl) (letterName 98 rfl)
            (ofBytes [47, 98]),
          .undefinePath (letterName 97 rfl) (letterName 98 rfl)] = some pm ∧ SeenAsTable pm
        (List.foldl PathTable.step PathTable.init
          [.definePath (letterName 97 rfl) (letterName 98 rfl),
            .addPath (some (letterName 99 rfl)) (letterName 97 rfl) (letterName 98 rfl)
              (ofBytes [47, 97]),
            .insertPath (some (letterName 100 rfl)) (letterName 97 rfl) (letterName 98 rfl)
              (ofBytes [47, 98]),
            .getPaths (letterName 97 rfl) (letterName 98 rfl), .removePaths (letterName 99 rfl),
            .removePath (some (letterName 100 rfl)) (letterName 97 rfl) (letterName 98 rfl)
              (ofBytes [47, 98]), .undefinePath (letterName 97 rfl) (letterName 98 rfl)]) :=
  tables_of_fits _ (by decide) _ (List.prefix_refl _)

/-- A path with two slashes is added, and is not there when it is to be removed. -/
theorem not_tables_slashes : ¬ ∀ (ops : List PathCall) (pm : PathManager),
      exec PathManager.step PathManager.init ops = some pm →
      SeenAsTable pm (ops.foldl PathTable.step PathTable.init) := by
  intro h
  have hs := h [.definePath (letterName 97 rfl) (letterName 98 rfl),
    .addPath none (letterName 97 rfl) (letterName 98 rfl) (ofBytes [47, 47]),
    .removePath none (letterName 97 rfl) (letterName 98 rfl) (ofBytes [47, 47])] _ rfl
  have hcode : PathResult.code 1 = .code 0 := hs.result.trans (by decide)
  cases hcode

end Gwenhywfar
