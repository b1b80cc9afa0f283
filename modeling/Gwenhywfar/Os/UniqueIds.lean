import Gwenhywfar.Lib.Run
import Gwenhywfar.Parser.Text

/-! # The unique ids of the directory config manager

A group of configurations has a counter in the file `uniqueid` of its folder, and its
configurations in files below a folder of the same name in lower case.

* `ConfigDir`: the files by their paths, with a log of the calls.
* `withCounter`: a counter is read, raised and written; `CounterIo` tells which step fails.
* `LawfulIds`: what the ids are for.
* `UidCall.Fits`: the calls whose ids are as they should be; `lawful_of_fits`: the run. -/

namespace Gwenhywfar

open Text Function
open CString (ofBytes)

/-- `GWEN_ERROR_LOCK`. -/
abbrev errorLock : ℤ := -109

/-- How reading and writing a counter goes: which step fails, and what is left in the file when it
cannot be closed. -/
inductive CounterIo where
  | ok
  | noPath
  | noLock
  | noRead
  | noWrite
  | noClose (left : List UInt8)
deriving DecidableEq

/-- The calls; `GWEN_ConfigMgr_MkUniqueIdFromId` with `doCheck`. -/
inductive UidCall where
  | getUniqueId (groupName : CString) (bufferLen : UInt32) (io : CounterIo)
  | mkUniqueIdFromId (groupName : CString) (uid : UInt32) (bufferLen : UInt32) (io : CounterIo)
deriving DecidableEq

/-- A call with its id, what it returns, what it stores in the caller's buffer, and whether there
was a configuration with that id before. -/
structure UidEvent where
  call : UidCall
  id : UInt32
  rv : ℤ
  stored : Option (List UInt8)
  existed : Bool
deriving DecidableEq

/-- The files with their contents, and the calls so far. -/
structure ConfigDir where
  files : List UInt8 → Option (List UInt8)
  log : List UidEvent

namespace UidCall

def groupName : UidCall → CString
  | .getUniqueId groupName _ _ => groupName
  | .mkUniqueIdFromId groupName _ _ _ => groupName

def issues : UidCall → Bool
  | .getUniqueId _ _ _ => true
  | .mkUniqueIdFromId _ _ _ _ => false

end UidCall

namespace ConfigDir

/-! ### The code -/

def counterPath (folder : List UInt8) (groupName : CString) : List UInt8 :=
  folder ++ code '/' :: escapeToBuffer groupName.bytes ++
    code '/' :: ['u', 'n', 'i', 'q', 'u', 'e', 'i', 'd'].map code

/-- `GWEN_ConfigMgrDir_AddGroupFileName`. -/
def groupFileName (folder : List UInt8) (groupName : CString) (subGroupName : List UInt8) :
    List UInt8 :=
  folder ++ (code '/' :: escapeToBuffer groupName.bytes ++ code '/' ::
    escapeToBuffer subGroupName ++ ['.', 'c', 'o', 'n', 'f'].map code).map toLower

/-- `snprintf(ubuf, sizeof(ubuf)-1, "%08x", uid)`. -/
def hexText (uid : UInt32) : List UInt8 :=
  (List.range 8).map fun i =>
    toLower (hexDigit ((uid >>> (28 - 4 * i).toUInt32) &&& 0xf).toUInt8)

/-- The text of an id of `GWEN_ConfigMgrDir_GetUniqueId`. -/
def uidText (uid : UInt32) : List UInt8 := ['u', 'i', 'd', ':', ':'].map code ++ hexText uid

def counterOf (content : Option (List UInt8)) : UInt32 :=
  ((content.bind scanInt).getD 0).toUInt32

/-- What `GWEN_ConfigMgrDir__GetUniqueId` and `GWEN_ConfigMgrDir__UpdateLastUniqueId` have in
common: the file is created if there is none, the last id is read, and a new one is written if there
is one. -/
def withCounter (files : List UInt8 → Option (List UInt8)) (path : List UInt8) (io : CounterIo)
    (new : UInt32 → Option UInt32) : ℤ × UInt32 × (List UInt8 → Option (List UInt8)) :=
  if io = .noPath then (-1, 0, files)
  else
    let files := update files path (some ((files path).getD []))
    if io = .noLock then (errorLock, 0, files)
    else
      let last := if io = .noRead then 0 else counterOf (files path)
      match new last with
      | none => (0, last, files)
      | some uniqueId =>
          match io with
          | .noWrite => (errorLock, 0, files)
          | .noClose left => (errorLock, 0, update files path (some left))
          | _ => (0, uniqueId, update files path (some (printInt uniqueId.toInt32)))

/-- The id is copied with `strncpy`; a buffer without a byte is not written in its bounds. -/
def copyOut (text : List UInt8) (bufferLen : UInt32) : Option (List UInt8) :=
  if bufferLen = 0 then none else some (text.take (bufferLen.toNat - 1))

/-- A configuration with an id, under one of the texts of the id. -/
def hasUid (folder : List UInt8) (files : List UInt8 → Option (List UInt8)) (groupName : CString)
    (uid : UInt32) : Bool :=
  (files (groupFileName folder groupName (hexText uid))).isSome ||
    (files (groupFileName folder groupName (uidText uid))).isSome

/-- `GWEN_ConfigMgrDir_GetUniqueId`. -/
def getUniqueId (folder : List UInt8) (dir : ConfigDir) (groupName : CString) (bufferLen : UInt32)
    (io : CounterIo) : ConfigDir :=
  let (rv, uid, files) := withCounter dir.files (counterPath folder groupName) io fun last =>
    some (last + 1)
  ⟨files, dir.log ++ [⟨.getUniqueId groupName bufferLen io, uid, rv,
    if rv < 0 then none else copyOut (uidText uid) bufferLen, false⟩]⟩

/-- `GWEN_ConfigMgrDir_MkUniqueIdFromId`: `GWEN_Directory_GetPath` returns 0 where the file is
there. -/
def mkUniqueIdFromId (folder : List UInt8) (dir : ConfigDir) (groupName : CString) (uid : UInt32)
    (bufferLen : UInt32) (io : CounterIo) : ConfigDir :=
  let call := .mkUniqueIdFromId groupName uid bufferLen io
  let existed := hasUid folder dir.files groupName uid
  if (dir.files (groupFileName folder groupName (hexText uid))).isSome then
    ⟨dir.files, dir.log ++ [⟨call, uid, 0, none, existed⟩]⟩
  else
    let (rv, _, files) := withCounter dir.files (counterPath folder groupName) io fun last =>
      if last < uid then some uid else none
    ⟨files, dir.log ++ [⟨call, uid, rv, if rv < 0 then none else copyOut (hexText uid) bufferLen,
      existed⟩]⟩

def step (folder : List UInt8) (dir : ConfigDir) : UidCall → Option ConfigDir
  | .getUniqueId groupName bufferLen io => some (dir.getUniqueId folder groupName bufferLen io)
  | .mkUniqueIdFromId groupName uid bufferLen io =>
      some (dir.mkUniqueIdFromId folder groupName uid bufferLen io)

end ConfigDir

/-! ### What the ids are for -/

def UidEvent.text (e : UidEvent) : List UInt8 :=
  if e.call.issues then ConfigDir.uidText e.id else ConfigDir.hexText e.id

/-- An id that is issued is different from those issued before for the group, and greater than
those that were accepted; the names of groups are taken without regard to case. -/
def UidEvent.Before (e f : UidEvent) : Prop :=
  e.rv = 0 → f.rv = 0 → f.call.issues = true →
    strcaseEq e.call.groupName f.call.groupName = true →
    if e.call.issues then e.id ≠ f.id else e.id < f.id

/-- Each return of 0 has stored the id, an id that exists is refused, and the ids that are issued
are new. -/
structure LawfulIds (log : List UidEvent) : Prop where
  stored : ∀ e ∈ log, e.rv = 0 → e.stored = some e.text
  refused : ∀ e ∈ log, e.existed = true → e.rv < 0
  fresh : log.Pairwise UidEvent.Before

/-! ### The calls whose ids are as they should be -/

/-- No content of a counter is lost: one that is there can be read, and stays when its file cannot
be closed. -/
def CounterIo.Keeps (io : CounterIo) (content : Option (List UInt8)) : Prop :=
  match io with
  | .noRead => ConfigDir.counterOf content = 0
  | .noClose left => ConfigDir.counterOf (some left) = ConfigDir.counterOf content
  | _ => True

/-- The group is spelled as in the calls before, the buffer has room for the id, no counter is lost,
and no configuration has the id of the caller; the ids are below `2 ^ 31`, and fewer are issued. -/
def UidCall.Fits (folder : List UInt8) (dir : ConfigDir) (o : UidCall) : Prop :=
  (∀ e ∈ dir.log, strcaseEq e.call.groupName o.groupName = true → e.call.groupName = o.groupName) ∧
    match o with
    | .getUniqueId groupName bufferLen io =>
        13 < bufferLen ∧ io.Keeps (dir.files (ConfigDir.counterPath folder groupName)) ∧
          (dir.log.countP fun e => e.call.issues && e.rv == 0) + 1 < 2 ^ 31
    | .mkUniqueIdFromId groupName uid bufferLen io =>
        8 < bufferLen ∧ io.Keeps (dir.files (ConfigDir.counterPath folder groupName)) ∧
          uid.toNat < 2 ^ 31 ∧ ConfigDir.hasUid folder dir.files groupName uid = false

instance CounterIo.decidableKeeps (io : CounterIo) (content : Option (List UInt8)) :
    Decidable (io.Keeps content) :=
  match io with
  | .noRead => inferInstanceAs (Decidable (ConfigDir.counterOf content = 0))
  | .noClose left => inferInstanceAs
      (Decidable (ConfigDir.counterOf (some left) = ConfigDir.counterOf content))
  | .ok | .noPath | .noLock | .noWrite => inferInstanceAs (Decidable True)

instance UidCall.decidableFits (folder : List UInt8) (dir : ConfigDir) (o : UidCall) :
    Decidable (o.Fits folder dir) :=
  match o with
  | .getUniqueId groupName bufferLen io => inferInstanceAs (Decidable (
      (∀ e ∈ dir.log, strcaseEq e.call.groupName groupName = true →
        e.call.groupName = groupName) ∧ 13 < bufferLen ∧
      io.Keeps (dir.files (ConfigDir.counterPath folder groupName)) ∧
      (dir.log.countP fun e => e.call.issues && e.rv == 0) + 1 < 2 ^ 31))
  | .mkUniqueIdFromId groupName uid bufferLen io => inferInstanceAs (Decidable (
      (∀ e ∈ dir.log, strcaseEq e.call.groupName groupName = true →
        e.call.groupName = groupName) ∧ 8 < bufferLen ∧
      io.Keeps (dir.files (ConfigDir.counterPath folder groupName)) ∧ uid.toNat < 2 ^ 31 ∧
      ConfigDir.hasUid folder dir.files groupName uid = false))

namespace ConfigDir

/-! ### Counters -/

theorem counterOf_getD (content : Option (List UInt8)) :
    counterOf (some (content.getD [])) = counterOf content := by
  cases content <;> rfl

theorem counterOf_printInt (uid : UInt32) : counterOf (some (printInt uid.toInt32)) = uid := by
  rw [counterOf, Option.bind_some, scanInt_printInt, Option.getD_some, UInt32.toUInt32_toInt32]

variable {files : List UInt8 → Option (List UInt8)} {path : List UInt8}

theorem counterOf_update {content : Option (List UInt8)} (p : List UInt8) :
    counterOf (update files path content p) =
      if p = path then counterOf content else counterOf (files p) := by
  rw [update_apply]
  split <;> rfl

/-- A counter is raised to the new id, or the call fails and the counters stay. -/
theorem withCounter_spec {io : CounterIo} (hio : io.Keeps (files path))
    (new : UInt32 → Option UInt32) : ((withCounter files path io new).1 < 0 ∧
      ∀ p, counterOf ((withCounter files path io new).2.2 p) = counterOf (files p)) ∨
    ((withCounter files path io new).1 = 0 ∧ (withCounter files path io new).2.1 =
        (new (counterOf (files path))).getD (counterOf (files path)) ∧
      ∀ p, counterOf ((withCounter files path io new).2.2 p) =
        if p = path then (withCounter files path io new).2.1 else counterOf (files p)) := by
  have hcreated : ∀ p, counterOf (update files path (some ((files path).getD [])) p) =
      counterOf (files p) := by
    intro p
    rw [counterOf_update, counterOf_getD]
    split
    · next hp => rw [hp]
    · rfl
  have hwritten : ∀ (left : List UInt8) (p : List UInt8),
      counterOf (update (update files path (some ((files path).getD []))) path (some left) p) =
        if p = path then counterOf (some left) else counterOf (files p) := by
    intro left p
    rw [counterOf_update, hcreated]
  by_cases hpath : io = .noPath
  · left
    rw [withCounter, if_pos hpath]
    exact ⟨show (-1 : ℤ) < 0 by decide, fun p => rfl⟩
  by_cases hlock : io = .noLock
  · left
    rw [withCounter, if_neg hpath]
    dsimp only
    rw [if_pos hlock]
    exact ⟨show errorLock < 0 by decide, hcreated⟩
  have hlast : (if io = .noRead then 0
      else counterOf (update files path (some ((files path).getD [])) path)) =
      counterOf (files path) := by
    rw [hcreated]
    split
    · next hread =>
        rw [hread] at hio
        exact (show counterOf (files path) = 0 from hio).symm
    · rfl
  rw [withCounter, if_neg hpath]
  dsimp only
  rw [if_neg hlock, hlast]
  cases hnew : new (counterOf (files path)) with
  | none =>
      right
      refine ⟨rfl, rfl, fun p => ?_⟩
      rw [hcreated]
      split
      · next hp => rw [hp]
      · rfl
  | some uid =>
      cases io with
      | noPath => exact absurd rfl hpath
      | noLock => exact absurd rfl hlock
      | noWrite => exact .inl ⟨show errorLock < 0 by decide, hcreated⟩
      | noClose left =>
          refine .inl ⟨show errorLock < 0 by decide, fun p => ?_⟩
          dsimp only
          rw [hwritten, show counterOf (some left) = counterOf (files path) from hio]
          split
          · next hp => rw [hp]
          · rfl
      | ok =>
          refine .inr ⟨rfl, rfl, fun p => ?_⟩
          dsimp only
          rw [hwritten, counterOf_printInt]
      | noRead =>
          refine .inr ⟨rfl, rfl, fun p => ?_⟩
          dsimp only
          rw [hwritten, counterOf_printInt]

theorem copyOut_of_lt {text : List UInt8} {bufferLen : UInt32}
    (h : text.length < bufferLen.toNat) : copyOut text bufferLen = some text := by
  have hne : bufferLen ≠ 0 := by
    rintro rfl
    exact absurd h (Nat.not_lt_zero _)
  rw [copyOut, if_neg hne, List.take_of_length_le (by omega)]

theorem length_hexText (uid : UInt32) : (hexText uid).length = 8 := by
  rw [hexText, List.length_map, List.length_range]

theorem length_uidText (uid : UInt32) : (uidText uid).length = 13 := by
  rw [uidText, List.length_append, length_hexText]
  rfl

/-! ### Runs -/

def issuedCount (log : List UidEvent) : ℕ := log.countP fun e => e.call.issues && e.rv == 0

/-- The counters are not behind the ids of the log, and not too far before them. -/
structure CountsIds (folder : List UInt8) (dir : ConfigDir) : Prop where
  below : ∀ e ∈ dir.log, e.rv = 0 →
    e.id.toNat ≤ (counterOf (dir.files (counterPath folder e.call.groupName))).toNat
  bounded : ∀ groupName, (counterOf (dir.files (counterPath folder groupName))).toNat <
    2 ^ 31 + issuedCount dir.log
  lawful : LawfulIds dir.log

variable {folder : List UInt8} {dir : ConfigDir}

/-- A call that fails changes no counter. -/
theorem CountsIds.failed (h : CountsIds folder dir) {files' : List UInt8 → Option (List UInt8)}
    {e : UidEvent} (hrv : e.rv < 0) (hfiles : ∀ p, counterOf (files' p) = counterOf (dir.files p)) :
    CountsIds folder ⟨files', dir.log ++ [e]⟩ where
  below f hf hf0 := by
    rw [hfiles]
    rcases List.mem_append.mp hf with hf | hf
    · exact h.below f hf hf0
    · rw [List.mem_singleton.mp hf] at hf0
      exact absurd hf0 hrv.ne
  bounded groupName := by
    rw [hfiles]
    refine (h.bounded groupName).trans_le (Nat.add_le_add_left ?_ _)
    rw [issuedCount, issuedCount, List.countP_append]
    exact Nat.le_add_right _ _
  lawful := by
    refine ⟨fun f hf hf0 => ?_, fun f hf hex => ?_, ?_⟩
    · rcases List.mem_append.mp hf with hf | hf
      · exact h.lawful.stored f hf hf0
      · rw [List.mem_singleton.mp hf] at hf0
        exact absurd hf0 hrv.ne
    · rcases List.mem_append.mp hf with hf | hf
      · exact h.lawful.refused f hf hex
      · rw [List.mem_singleton.mp hf]
        exact hrv
    · refine List.pairwise_append.mpr ⟨h.lawful.fresh, List.pairwise_singleton _ _, ?_⟩
      intro f _ g hg _ hg0
      rw [List.mem_singleton.mp hg] at hg0
      exact absurd hg0 hrv.ne

theorem CountsIds.succeeded (h : CountsIds folder dir) {files' : List UInt8 → Option (List UInt8)}
    {e : UidEvent} {last : UInt32} (hstored : e.stored = some e.text) (hex : e.existed = false)
    (hfiles : ∀ p, counterOf (files' p) =
      if p = counterPath folder e.call.groupName then last else counterOf (dir.files p))
    (hold : (counterOf (dir.files (counterPath folder e.call.groupName))).toNat ≤ last.toNat)
    (hid : e.id.toNat ≤ last.toNat)
    (hlast : last.toNat < 2 ^ 31 + issuedCount (dir.log ++ [e])) (hfresh : ∀ f ∈ dir.log, f.Before e) :
    CountsIds folder ⟨files', dir.log ++ [e]⟩ where
  below f hf hf0 := by
    rw [hfiles]
    rcases List.mem_append.mp hf with hf | hf
    · have hbelow := h.below f hf hf0
      split
      · next hp =>
          rw [hp] at hbelow
          exact le_trans hbelow hold
      · exact hbelow
    · rw [List.mem_singleton.mp hf, if_pos rfl]
      exact hid
  bounded groupName := by
    rw [hfiles]
    split
    · exact hlast
    · refine (h.bounded groupName).trans_le (Nat.add_le_add_left ?_ _)
      rw [issuedCount, issuedCount, List.countP_append]
      exact Nat.le_add_right _ _
  lawful := by
    refine ⟨fun f hf hf0 => ?_, fun f hf hfex => ?_, ?_⟩
    · rcases List.mem_append.mp hf with hf | hf
      · exact h.lawful.stored f hf hf0
      · rw [List.mem_singleton.mp hf]
        exact hstored
    · rcases List.mem_append.mp hf with hf | hf
      · exact h.lawful.refused f hf hfex
      · rw [List.mem_singleton.mp hf, hex] at hfex
        cases hfex
    · refine List.pairwise_append.mpr ⟨h.lawful.fresh, List.pairwise_singleton _ _, ?_⟩
      intro f hf g hg
      rw [List.mem_singleton.mp hg]
      exact hfresh f hf

theorem CountsIds.getUniqueId (h : CountsIds folder dir) {groupName : CString} {bufferLen : UInt32}
    {io : CounterIo} (hf : UidCall.Fits folder dir (.getUniqueId groupName bufferLen io)) :
    CountsIds folder (dir.getUniqueId folder groupName bufferLen io) := by
  obtain ⟨hspell, hlen, hio, hcount⟩ := hf
  rw [ConfigDir.getUniqueId]
  rcases withCounter_spec hio fun last => some (last + 1) with ⟨hrv, hfiles⟩ | ⟨hrv, hid, hfiles⟩
  · exact h.failed hrv hfiles
  · rw [Option.getD_some] at hid
    have hbound := h.bounded groupName
    have hissued : issuedCount dir.log + 1 < 2 ^ 31 := hcount
    generalize hr : withCounter dir.files (counterPath folder groupName) io
      (fun last => some (last + 1)) = r at hrv hid hfiles ⊢
    obtain ⟨rv, uid, files'⟩ := r
    dsimp only at hrv hid hfiles ⊢
    subst hrv
    generalize hc : counterOf (dir.files (counterPath folder groupName)) = last at hid hbound
    have hnat : uid.toNat = last.toNat + 1 := by
      rw [hid, UInt32.toNat_add]
      exact Nat.mod_eq_of_lt (by rw [show (1 : UInt32).toNat = 1 from rfl]; omega)
    have hold : (counterOf (dir.files (counterPath folder groupName))).toNat ≤ uid.toNat := by
      rw [hc, hnat]
      exact Nat.le_succ _
    refine h.succeeded ?_ rfl hfiles hold le_rfl ?_ ?_
    · rw [if_neg (lt_irrefl 0)]
      exact copyOut_of_lt (by rw [length_uidText]; exact UInt32.lt_iff_toNat_lt.mp hlen)
    · rw [issuedCount, List.countP_append, ← issuedCount]
      have hone : List.countP (fun e : UidEvent => e.call.issues && e.rv == 0)
          [⟨.getUniqueId groupName bufferLen io, uid, 0,
            if (0 : ℤ) < 0 then none else copyOut (uidText uid) bufferLen, false⟩] = 1 := rfl
      rw [hone]
      omega
    · intro e he he0 _ _ hsame
      have hgroup := hspell e he hsame
      have hbelow := h.below e he he0
      rw [show e.call.groupName = groupName from hgroup, hc] at hbelow
      split
      · intro heq
        rw [show e.id = uid from heq] at hbelow
        omega
      · exact UInt32.lt_iff_toNat_lt.mpr (show e.id.toNat < uid.toNat by omega)

theorem CountsIds.mkUniqueIdFromId (h : CountsIds folder dir) {groupName : CString}
    {uid bufferLen : UInt32} {io : CounterIo}
    (hf : UidCall.Fits folder dir (.mkUniqueIdFromId groupName uid bufferLen io)) :
    CountsIds folder (dir.mkUniqueIdFromId folder groupName uid bufferLen io) := by
  obtain ⟨hspell, hlen, hio, huidNat, hex⟩ := hf
  have hnone : ¬ (dir.files (groupFileName folder groupName (hexText uid))).isSome = true := by
    rw [hasUid, Bool.or_eq_false_iff] at hex
    rw [hex.1]
    exact Bool.false_ne_true
  rw [ConfigDir.mkUniqueIdFromId]
  dsimp only
  rw [if_neg hnone]
  rcases withCounter_spec hio fun last => if last < uid then some uid else none with
    ⟨hrv, hfiles⟩ | ⟨hrv, hid, hfiles⟩
  · exact h.failed hrv hfiles
  · have hbound := h.bounded groupName
    generalize hr : withCounter dir.files (counterPath folder groupName) io
      (fun last => if last < uid then some uid else none) = r at hrv hid hfiles ⊢
    obtain ⟨rv, new, files'⟩ := r
    dsimp only at hrv hid hfiles ⊢
    subst hrv
    generalize hc : counterOf (dir.files (counterPath folder groupName)) = last at hid hbound
    have hnew : last.toNat ≤ new.toNat ∧ uid.toNat ≤ new.toNat ∧ (new = last ∨ new = uid) := by
      rw [hid]
      by_cases hlt : last < uid
      · rw [if_pos hlt]
        exact ⟨(UInt32.lt_iff_toNat_lt.mp hlt).le, le_rfl, .inr rfl⟩
      · rw [if_neg hlt]
        exact ⟨le_rfl, Nat.le_of_not_lt fun h => hlt (UInt32.lt_iff_toNat_lt.mpr h), .inl rfl⟩
    have hold : (counterOf (dir.files (counterPath folder groupName))).toNat ≤ new.toNat := by
      rw [hc]
      exact hnew.1
    refine h.succeeded ?_ hex hfiles hold hnew.2.1 ?_ ?_
    · rw [if_neg (lt_irrefl 0)]
      exact copyOut_of_lt (by rw [length_hexText]; exact UInt32.lt_iff_toNat_lt.mp hlen)
    · rw [issuedCount, List.countP_append, ← issuedCount]
      rcases hnew.2.2 with rfl | rfl <;> omega
    · intro e _ _ _ hissues
      cases hissues

end ConfigDir

/-- Files without counters, and no call yet. -/
structure IsFresh (folder : List UInt8) (dir : ConfigDir) : Prop where
  counters : ∀ groupName, dir.files (ConfigDir.counterPath folder groupName) = none
  log : dir.log = []

/-- Unique ids are stored and new in every run of such calls. -/
theorem lawful_of_fits {folder : List UInt8} {dir : ConfigDir} (hdir : IsFresh folder dir)
    (ops : List UidCall)
    (hf : Along (ConfigDir.step folder) (fun dir o => o.Fits folder dir) dir ops) :
    ∃ dir', exec (ConfigDir.step folder) dir ops = some dir' ∧ LawfulIds dir'.log := by
  have hinit : ConfigDir.CountsIds folder dir := by
    refine ⟨?_, fun groupName => ?_, ?_⟩
    · rw [hdir.log]
      exact fun e he => absurd he List.not_mem_nil
    · rw [hdir.counters]
      exact Nat.lt_add_right _ (by decide)
    · rw [hdir.log]
      exact ⟨fun e he => absurd he List.not_mem_nil, fun e he => absurd he List.not_mem_nil, .nil⟩
  have hstep : ∀ dir o, ConfigDir.CountsIds folder dir → UidCall.Fits folder dir o →
      ∃ t, ConfigDir.step folder dir o = some t ∧ ConfigDir.CountsIds folder t := by
    intro dir o h ho
    cases o with
    | getUniqueId groupName bufferLen io => exact ⟨_, rfl, h.getUniqueId ho⟩
    | mkUniqueIdFromId groupName uid bufferLen io => exact ⟨_, rfl, h.mkUniqueIdFromId ho⟩
  obtain ⟨dir', hexec, h⟩ := Along.exec_initial hstep hinit hf ops (List.prefix_refl _)
  exact ⟨dir', hexec, h.lawful⟩

/-- A folder without files. -/
def emptyDir : ConfigDir := ⟨fun _ => none, []⟩

theorem isFresh_emptyDir (folder : List UInt8) : IsFresh folder emptyDir := ⟨fun _ => rfl, rfl⟩

/-- An id is issued, a greater one is accepted, a call cannot get the lock, and the next id is
issued. -/
theorem lawful_of_fits_three : ∃ dir', exec (ConfigDir.step [47]) emptyDir
        [.getUniqueId (ofBytes [97]) 64 .ok,
          .mkUniqueIdFromId (ofBytes [97]) 5 64 .ok,
          .getUniqueId (ofBytes [97]) 64 .noLock,
          .getUniqueId (ofBytes [97]) 64 .ok] = some dir' ∧ LawfulIds dir'.log :=
  lawful_of_fits (isFresh_emptyDir _) _ (by decide)

/-- Two ids are issued for a group that is spelled in two ways: they are the same. -/
theorem not_lawful_spellings :
    ¬ ∀ (folder : List UInt8) (dir dir' : ConfigDir) (ops : List UidCall), IsFresh folder dir →
      exec (ConfigDir.step folder) dir ops = some dir' →
      (dir'.log.countP fun e => e.call.issues && e.rv == 0) < 2 ^ 31 →
      (∀ e ∈ dir'.log, e.call.issues = false → e.id.toNat < 2 ^ 31) → LawfulIds dir'.log := by
  intro h
  have hlaw := h [47] emptyDir _ [.getUniqueId (ofBytes [65]) 64 .ok,
    .getUniqueId (ofBytes [97]) 64 .ok] (isFresh_emptyDir _) rfl (by decide)
    (by decide)
  have hne := (List.pairwise_pair.mp hlaw.fresh) (by decide) (by decide) rfl
    (by decide)
  exact hne (by decide)

end Gwenhywfar
