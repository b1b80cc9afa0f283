import Gwenhywfar.Parser.DbVars

/-! # URLs

* `fromString`: `GWEN_Url_fromString`, which cuts one part after the other off a string.  The bytes
  of a string are those in front of its NUL.
* `toString`: `GWEN_Url_toString`.
* `fromString_toString_iff`: what was printed is read back exactly when there is neither a user nor
  a password, which are not printed, and at most one variable, as variables are printed with a `?`
  in front of each but read with a `&` between them. -/

namespace Gwenhywfar

set_option maxRecDepth 4000

open Text Db
open CString (ofBytes)

/-- `GWEN_URL`; the variables are those of the group at the address 0. -/
structure Url where
  protocol : Option (List UInt8)
  server : Option (List UInt8)
  port : Int32
  path : Option (List UInt8)
  userName : Option (List UInt8)
  password : Option (List UInt8)
  vars : DbHeap
  url : Option (List UInt8)
  modified : Bool

namespace Url

/-- A letter. -/
def isAlpha (c : UInt8) : Bool := code 'A' ≤ c && c ≤ code 'Z' || code 'a' ≤ c && c ≤ code 'z'

def setString (d : List UInt8) : Option (List UInt8) := if d = [] then none else some d

/-- `GWEN_Url_new` with an empty group of variables. -/
def new : Url where
  protocol := none
  server := none
  port := 0
  path := none
  userName := none
  password := none
  vars := emptyGroup (ofBytes (ascii ['v', 'a', 'r', 's']))
  url := none
  modified := false

/-! ### Reading -/

/-- A letter, a colon and a directory separator. -/
def startsWithDriveLetter : List UInt8 → Bool
  | c :: d :: e :: _ => isAlpha c && d == code ':' && (e == code '/' || e == code '\\')
  | _ => false

def readProtocol (drive : Bool) (url : Url) (s : List UInt8) : Url × List UInt8 :=
  let p := if drive then s else s.dropWhile (· != code ':')
  if p.tail.take 2 = [code '/', code '/'] then
    ({ url with protocol := setString (s.take (s.length - p.length)) }, p.drop 3)
  else (url, s)

/-- The first percent sign becomes an at sign. -/
def replacePercent (s : List UInt8) : List UInt8 :=
  s.takeWhile (· != code '%') ++
    (if code '%' ∈ s then code '@' :: (s.dropWhile (· != code '%')).tail else [])

def readUser (url : Url) (s : List UInt8) : Url × List UInt8 :=
  if code '@' ∈ s then
    let upw := s.takeWhile (· != code '@')
    let url := { url with
      userName := setString (replacePercent (upw.takeWhile (· != code ':'))) }
    ((if code ':' ∈ upw then
        { url with password := setString (upw.dropWhile (· != code ':')).tail }
      else url), (s.dropWhile (· != code '@')).tail)
  else (url, s)

def isServerChar (c : UInt8) : Bool := c != code ':' && c != code '/' && c != code '?'

def readServer (drive : Bool) (url : Url) (s : List UInt8) : Url × List UInt8 :=
  let server := if drive then [] else s.takeWhile isServerChar
  if server ≠ [] then ({ url with server := setString server }, s.dropWhile isServerChar)
  else (url, s)

def isPortChar (c : UInt8) : Bool := c != code '?' && c != code '/'

def readPort (url : Url) (s : List UInt8) : Option (Url × List UInt8) :=
  if s.head? = some (code ':') then
    let port := s.tail.takeWhile isPortChar
    if port ≠ [] then
      (scanInt port).map fun port => ({ url with port := port }, s.tail.dropWhile isPortChar)
    else some (url, s.tail)
  else
    some (match url.protocol with
      | none => url
      | some protocol =>
          if strcaseEq (ofBytes protocol) (ofBytes (ascii ['h', 't', 't', 'p'])) then
            { url with port := 80 }
          else if strcaseEq (ofBytes protocol)
              (ofBytes (ascii ['h', 't', 't', 'p', 's'])) then
            { url with port := 443 }
          else url, s)

def readPath (drive : Bool) (url : Url) (s : List UInt8) : Url × List UInt8 :=
  if drive = true ∨ s.head? = some (code '/') then
    let path := s.takeWhile (· != code '?')
    if path ≠ [] then ({ url with path := setString path }, s.dropWhile (· != code '?'))
    else (url, s)
  else ({ url with path := some [code '/'] }, s.tail)

def isVarChar (c : UInt8) : Bool := c != code '&' && c != code '='

/-- The loop that reads variables; each round begins at a question mark. -/
def readVars : ℕ → Url → List UInt8 → Url
  | k + 1, url, c :: s =>
      if c = code '?' then
        let name := s.takeWhile isVarChar
        let behind := s.dropWhile isVarChar
        let value := if behind.head? = some (code '=') then behind.tail.takeWhile (· != code '&')
          else []
        let rest := if behind.head? = some (code '=') then behind.tail.dropWhile (· != code '&')
          else behind
        let url := if name ≠ [] then
            { url with vars := (setCharValue url.vars 0 flagsDefault (ofBytes name)
              (ofBytes value)).2 }
          else url
        readVars k url rest
      else url
  | _, url, _ => url

/-- `GWEN_Url_fromString`. -/
def fromString (str : List UInt8) : Option Url :=
  let drive := startsWithDriveLetter str
  let (url, s) := readProtocol drive new str
  if s = [] then none
  else
    let (url, s) := readUser url s
    let drive := drive || startsWithDriveLetter s
    if s = [] then none
    else
      let (url, s) := readServer drive url s
      (readPort url s).map fun r =>
        let (url, s) := readPath drive r.1 r.2
        { readVars s.length url s with url := some str, modified := false }

/-! ### Printing -/

/-- What is printed for a variable. -/
def varText (v : CString × List DbValue) : List UInt8 :=
  code '?' :: v.1.bytes ++
    match v.2 with
    | .char s :: _ => code '=' :: s.bytes
    | _ => []

/-- `GWEN_Url_toString`: the bytes that are appended. -/
def toString (url : Url) : List UInt8 :=
  match url.modified, url.url with
  | false, some (c :: s) => c :: s
  | _, _ =>
      (url.protocol.map fun s => s ++ ascii [':', '/', '/']).getD [] ++
        (url.server.getD [] ++
          ((if url.port = 0 then [] else code ':' :: printInt url.port) ++
            (url.path.getD [] ++ (varsOf url.vars 0).flatMap varText)))

/-! ### Plain URLs -/

/-- A character that ends none of the parts in front of the path. -/
def isHostChar (c : UInt8) : Bool :=
  c != code '@' && c != code ':' && c != code '/' && c != code '?'

def isValueChar (c : UInt8) : Bool :=
  c != code '?' && c != code '&' && c != code '=' && c != code '@'

/-- A URL with all its parts, that was built with the functions that set them. -/
structure Plain (url : Url) (vars : List (CString × CString)) : Prop where
  modified : url.modified = true
  protocol : ∃ s, url.protocol = some s ∧ 2 ≤ s.length ∧ ∀ c ∈ s, isAlpha c = true
  user : ∀ s ∈ url.userName, s ≠ [] ∧ ∀ c ∈ s, (isHostChar c && c != code '%') = true
  password : ∀ s ∈ url.password, s ≠ [] ∧ ∀ c ∈ s, (isHostChar c && c != code '%') = true
  server : ∃ s, url.server = some s ∧ s ≠ [] ∧ ∀ c ∈ s, isHostChar c = true
  port : 1 ≤ url.port.toInt ∧ url.port.toInt ≤ 65535
  path : ∃ s, url.path = some (code '/' :: s) ∧ ∀ c ∈ s, (c != code '?' && c != code '@') = true
  varsEq : varsOf url.vars 0 = vars.map fun v => (v.1, [DbValue.char v.2])
  names : vars.Pairwise fun v w => v.1 ≠ w.1
  name : ∀ v ∈ vars, v.1.bytes ≠ [] ∧ ∀ c ∈ v.1.bytes, (isAlnum c || c == code '_') = true
  value : ∀ v ∈ vars, v.2.bytes ≠ [] ∧ ∀ c ∈ v.2.bytes, isValueChar c = true

/-- The parts and the variables are the same. -/
structure Same (url url' : Url) : Prop where
  protocol : url'.protocol = url.protocol
  user : url'.userName = url.userName
  password : url'.password = url.password
  server : url'.server = url.server
  port : url'.port = url.port
  path : url'.path = url.path
  vars : varsOf url'.vars 0 = varsOf url.vars 0

/-- What is printed is read back with the same parts and variables. -/
def RoundTrips (url : Url) : Prop := ∃ url', fromString url.toString = some url' ∧ Same url url'

/-! ### Characters -/

/-- The characters of a protocol, a host, a number, a path and a variable end only what they have
to. -/
theorem chars : ∀ c : UInt8,
    (isAlpha c = true → c ≠ code ':') ∧
    (isHostChar c = true → isServerChar c = true ∧ c ≠ code '@' ∧ c ≠ code ':') ∧
    (isDigit c = true → isPortChar c = true ∧ c ≠ code '@' ∧ c ≠ code '/' ∧ c ≠ code '\\') ∧
    ((c != code '?' && c != code '@') = true → c ≠ code '?' ∧ c ≠ code '@') ∧
    ((isAlnum c || c == code '_') = true →
      isVarChar c = true ∧ isPlainChar c = true ∧ c ≠ code '@' ∧ c ≠ code '&') ∧
    (isValueChar c = true → c ≠ code '@' ∧ c ≠ code '&') := by
  decide

/-! ### What is printed -/

variable {url : Url} {vars : List (CString × CString)}

def varsText (vars : List (CString × CString)) : List UInt8 :=
  vars.flatMap fun v => code '?' :: v.1.bytes ++ code '=' :: v.2.bytes

theorem flatMap_varText (vars : List (CString × CString)) :
    (vars.map fun v => (v.1, [DbValue.char v.2])).flatMap varText = varsText vars := by
  rw [List.flatMap_map]
  rfl

/-- The text of a plain URL, in front of which the parts are known. -/
theorem Plain.toString_eq (h : Plain url vars) :
    ∃ protocol server path, url.protocol = some protocol ∧ url.server = some server ∧
      url.path = some (code '/' :: path) ∧
      url.toString = protocol ++ code ':' :: code '/' :: code '/' ::
        (server ++ code ':' :: (printInt url.port ++ code '/' :: (path ++ varsText vars))) := by
  obtain ⟨protocol, hprotocol, -⟩ := h.protocol
  obtain ⟨server, hserver, -⟩ := h.server
  obtain ⟨path, hpath, -⟩ := h.path
  have hport : url.port ≠ 0 := by
    intro h0
    have hge := h.port.1
    rw [h0] at hge
    exact absurd hge (by decide)
  refine ⟨protocol, server, path, hprotocol, hserver, hpath, ?_⟩
  rw [toString, h.modified, hprotocol, hserver, hpath, if_neg hport, h.varsEq, flatMap_varText]
  dsimp only [Option.map_some, Option.getD_some]
  simp only [List.append_assoc, List.cons_append]
  rfl

/-! ### Reading variables -/

theorem readVars_nil (k : ℕ) (url : Url) : readVars k url [] = url := by
  cases k <;> rfl

theorem readVars_varsText (k : ℕ) (url : Url) (v : CString × CString)
    (hname : v.1.bytes ≠ [] ∧ ∀ c ∈ v.1.bytes, (isAlnum c || c == code '_') = true)
    {rest : List UInt8} (hrest : code '&' ∉ v.2.bytes ++ rest) :
    readVars (k + 1) url (code '?' :: (v.1.bytes ++ code '=' :: (v.2.bytes ++ rest))) =
      { url with vars := (setValue url.vars 0 flagsDefault v.1
        (.char (ofBytes (v.2.bytes ++ rest)))).2 } := by
  have hscan := Scan.append_cons isVarChar v.1.bytes (v.2.bytes ++ rest) (code '=')
    (fun x hx => ((chars x).2.2.2.2.1 (hname.2 x hx)).1) rfl
  have hvalue := Scan.all (· != code '&') (v.2.bytes ++ rest)
    fun x hx => bne_iff_ne.mpr fun heq => hrest (heq ▸ hx)
  rw [readVars, if_pos rfl, hscan.1, hscan.2]
  dsimp only
  rw [List.head?_cons, if_pos rfl, if_pos rfl, List.tail_cons, hvalue.1, hvalue.2, readVars_nil,
    if_pos hname.1, CString.ofBytes_eq]
  rfl

theorem not_mem_varsText (h : Plain url vars) {c : UInt8} (hc : c ∈ varsText vars) :
    c ≠ code '@' ∧ c ≠ code '&' := by
  rw [varsText, List.mem_flatMap] at hc
  obtain ⟨v, hv, hc⟩ := hc
  rw [List.cons_append, List.mem_cons, List.mem_append, List.mem_cons] at hc
  rcases hc with rfl | hc | rfl | hc
  · decide
  · exact ((chars c).2.2.2.2.1 ((h.name v hv).2 c hc)).2.2
  · decide
  · exact (chars c).2.2.2.2.2 ((h.value v hv).2 c hc)

def readBack : List (CString × CString) → List (CString × List DbValue)
  | [] => []
  | v :: vars => [(v.1, [.char (ofBytes (v.2.bytes ++ varsText vars))])]

theorem readVars_spec (h : Plain url vars) (u : Url) (hu : u.vars = new.vars) :
    ∃ vars', readVars (varsText vars).length u (varsText vars) = { u with vars := vars' } ∧
      varsOf vars' 0 = readBack vars := by
  cases vars with
  | nil =>
      refine ⟨u.vars, readVars_nil _ _, ?_⟩
      rw [hu]
      rfl
  | cons v vars =>
      have hname := h.name v List.mem_cons_self
      have htext : varsText (v :: vars) =
          code '?' :: (v.1.bytes ++ code '=' :: (v.2.bytes ++ varsText vars)) := by
        rw [varsText, List.flatMap_cons, ← varsText]
        simp only [List.cons_append, List.append_assoc]
      have hrest : code '&' ∉ v.2.bytes ++ varsText vars := by
        intro hmem
        refine (not_mem_varsText h (c := code '&') ?_).2 rfl
        rw [htext]
        exact List.mem_cons_of_mem _ (List.mem_append_right _ (List.mem_cons_of_mem _ hmem))
      refine ⟨(setValue u.vars 0 flagsDefault v.1
        (.char (ofBytes (v.2.bytes ++ varsText vars)))).2, ?_, ?_⟩
      · rw [htext, List.length_cons, readVars_varsText _ u v hname hrest]
      · rw [hu]
        exact (varsOf_setValue (fun c hc => ((chars c).2.2.2.2.1 (hname.2 c hc)).2.1) hname.1
          (isGroup_emptyGroup _) _).2.2

/-! ### Reading what was printed -/

theorem printInt_port (h : 1 ≤ url.port.toInt) :
    printInt url.port ≠ [] ∧ ∀ c ∈ printInt url.port, isDigit c = true := by
  rw [printInt, if_neg (by omega), if_neg (by omega)]
  exact ⟨decimalDigits_ne_nil (by omega), fun c hc => isDigit_of_mem_decimalDigits hc⟩

theorem startsWithDriveLetter_false {c d : UInt8} {s : List UInt8} (h : d ≠ code ':') :
    startsWithDriveLetter (c :: d :: s) = false := by
  cases s with
  | nil => rfl
  | cons e s =>
      rw [startsWithDriveLetter, beq_false_of_ne h, Bool.and_false, Bool.false_and]

theorem Plain.fromString_eq (h : Plain url vars) :
    ∃ url', fromString url.toString = some url' ∧ url'.protocol = url.protocol ∧
      url'.userName = none ∧ url'.password = none ∧ url'.server = url.server ∧
      url'.port = url.port ∧ url'.path = url.path ∧ varsOf url'.vars 0 = readBack vars := by
  obtain ⟨protocol, server, path, hprotocol, hserver, hpath, htext⟩ := h.toString_eq
  obtain ⟨p, hp, hprotocolLen, hprotocolChars⟩ := h.protocol
  obtain rfl := Option.some.inj (hprotocol.symm.trans hp)
  obtain ⟨s, hs, hserverNe, hserverChars⟩ := h.server
  obtain rfl := Option.some.inj (hserver.symm.trans hs)
  obtain ⟨q, hq, hpathChars⟩ := h.path
  obtain rfl := (List.cons.inj (Option.some.inj (hpath.symm.trans hq))).2
  obtain ⟨hportNe, hportChars⟩ := printInt_port h.port.1
  generalize hrest :
    server ++ code ':' :: (printInt url.port ++ code '/' :: (path ++ varsText vars)) = rest at htext
  have hdrive : startsWithDriveLetter (protocol ++ code ':' :: code '/' :: code '/' :: rest) =
      false := by
    obtain ⟨c, d, t, rfl⟩ : ∃ c d t, protocol = c :: d :: t := by
      match protocol, hprotocolLen with
      | c :: d :: t, _ => exact ⟨c, d, t, rfl⟩
    exact startsWithDriveLetter_false ((chars d).1 (hprotocolChars d (by simp)))
  have hdrive' : startsWithDriveLetter rest = false := by
    rw [← hrest]
    match server, hserverNe with
    | [c], _ =>
        obtain ⟨d, t, ht⟩ := List.exists_cons_of_ne_nil hportNe
        have hd := (chars d).2.2.1 (hportChars d (ht ▸ List.mem_cons_self))
        rw [ht, List.cons_append, List.cons_append, List.nil_append, startsWithDriveLetter,
          beq_false_of_ne hd.2.2.1, beq_false_of_ne hd.2.2.2, Bool.or_false, Bool.and_false]
    | c :: d :: t, _ =>
        exact startsWithDriveLetter_false ((chars d).2.1 (hserverChars d (by simp))).2.2
  have hat : code '@' ∉ rest := by
    rw [← hrest]
    intro hmem
    rw [List.mem_append, List.mem_cons, List.mem_append, List.mem_cons, List.mem_append] at hmem
    rcases hmem with hmem | hmem | hmem | hmem | hmem | hmem
    · exact ((chars _).2.1 (hserverChars _ hmem)).2.1 rfl
    · exact absurd hmem (by decide)
    · exact ((chars _).2.2.1 (hportChars _ hmem)).2.1 rfl
    · exact absurd hmem (by decide)
    · exact ((chars _).2.2.2.1 (hpathChars _ hmem)).2 rfl
    · exact (not_mem_varsText h hmem).1 rfl
  have hrestNe : rest ≠ [] := by
    rw [← hrest]
    exact List.append_ne_nil_of_left_ne_nil hserverNe _
  have hscanProtocol := Scan.append_cons (· != code ':') protocol
    (code '/' :: code '/' :: rest) (code ':')
    (fun x hx => bne_iff_ne.mpr ((chars x).1 (hprotocolChars x hx))) rfl
  have hscanServer := Scan.append_cons isServerChar server
    (printInt url.port ++ code '/' :: (path ++ varsText vars)) (code ':')
    (fun x hx => ((chars x).2.1 (hserverChars x hx)).1) rfl
  have hscanPort := Scan.append_cons isPortChar (printInt url.port) (path ++ varsText vars)
    (code '/')
    (fun x hx => ((chars x).2.2.1 (hportChars x hx)).1) rfl
  have hscanPath := Scan.append (· != code '?') (code '/' :: path) (varsText vars)
    (List.forall_mem_cons.mpr
      ⟨rfl, fun x hx => bne_iff_ne.mpr ((chars x).2.2.2.1 (hpathChars x hx)).1⟩)
    (by
      intro y hy
      cases vars with
      | nil => cases hy
      | cons v vars =>
          obtain rfl := Option.some.inj hy
          rfl)
  have hset : ∀ {d : List UInt8}, d ≠ [] → setString d = some d := fun hd => if_neg hd
  have h1 : readProtocol false new (protocol ++ code ':' :: code '/' :: code '/' :: rest) =
      ({ new with protocol := some protocol }, rest) := by
    have hlen : (protocol ++ code ':' :: code '/' :: code '/' :: rest).length -
        (code ':' :: code '/' :: code '/' :: rest).length = protocol.length := by
      rw [List.length_append, Nat.add_sub_cancel]
    have htail : (code ':' :: code '/' :: code '/' :: rest).tail.take 2 =
        [code '/', code '/'] := rfl
    rw [readProtocol, if_neg Bool.false_ne_true, hscanProtocol.2, if_pos htail, hlen,
      List.take_left, hset (by rintro rfl; simp at hprotocolLen)]
    rfl
  generalize hu1 : ({ new with protocol := some protocol } : Url) = u1 at h1
  have h2 : readUser u1 rest = (u1, rest) := by rw [readUser, if_neg hat]
  have h3 : readServer false u1 rest = ({ u1 with server := some server },
      code ':' :: (printInt url.port ++ code '/' :: (path ++ varsText vars))) := by
    rw [readServer, if_neg Bool.false_ne_true, ← hrest, hscanServer.1, hscanServer.2,
      if_pos hserverNe, hset hserverNe]
  generalize hu3 : ({ u1 with server := some server } : Url) = u3 at h3
  have h4 : readPort u3 (code ':' :: (printInt url.port ++ code '/' :: (path ++ varsText vars))) =
      some ({ u3 with port := url.port }, code '/' :: (path ++ varsText vars)) := by
    rw [readPort, List.head?_cons, if_pos rfl, List.tail_cons, hscanPort.1, hscanPort.2]
    dsimp only
    rw [if_pos hportNe, scanInt_printInt]
    rfl
  generalize hu4 : ({ u3 with port := url.port } : Url) = u4 at h4
  have h5 : readPath false u4 (code '/' :: (path ++ varsText vars)) =
      ({ u4 with path := some (code '/' :: path) }, varsText vars) := by
    rw [readPath, List.head?_cons, if_pos (Or.inr rfl), ← List.cons_append, hscanPath.1,
      hscanPath.2]
    dsimp only
    rw [if_pos (List.cons_ne_nil _ _), hset (List.cons_ne_nil _ _)]
  generalize hu5 : ({ u4 with path := some (code '/' :: path) } : Url) = u5 at h5
  have hu5vars : u5.vars = new.vars := by rw [← hu5, ← hu4, ← hu3, ← hu1]
  obtain ⟨vars', h6, hback⟩ := readVars_spec h u5 hu5vars
  refine ⟨{ u5 with vars := vars', url := some url.toString, modified := false }, ?_, ?_, ?_, ?_,
    ?_, ?_, ?_, hback⟩
  · rw [fromString, htext]
    dsimp only
    rw [hdrive, h1]
    dsimp only
    rw [if_neg hrestNe, h2]
    dsimp only
    rw [hdrive', Bool.or_false, if_neg hrestNe, h3]
    dsimp only
    rw [h4, Option.map_some]
    dsimp only
    rw [h5]
    dsimp only
    rw [h6]
  · rw [← hu5, ← hu4, ← hu3, ← hu1, hprotocol]
  · rw [← hu5, ← hu4, ← hu3, ← hu1]
    rfl
  · rw [← hu5, ← hu4, ← hu3, ← hu1]
    rfl
  · rw [← hu5, ← hu4, ← hu3, hserver]
  · rw [← hu5, ← hu4]
  · rw [← hu5, hpath]

/-- What was printed is read back if and only if there is no user, no password and at most one
variable. -/
theorem fromString_toString_iff (h : Plain url vars) :
    RoundTrips url ↔ url.userName = none ∧ url.password = none ∧ vars.length ≤ 1 := by
  obtain ⟨url', hread, hprotocol, huser, hpassword, hserver, hport, hpath, hvars⟩ := h.fromString_eq
  constructor
  · rintro ⟨url'', hread', hsame⟩
    obtain rfl := Option.some.inj (hread.symm.trans hread')
    refine ⟨hsame.user ▸ huser, hsame.password ▸ hpassword, ?_⟩
    have hlen := congrArg List.length (hvars.symm.trans (hsame.vars.trans h.varsEq))
    rw [List.length_map] at hlen
    cases vars with
    | nil => exact Nat.zero_le _
    | cons v vars => exact hlen.ge
  · rintro ⟨hu, hp, hlen⟩
    refine ⟨url', hread, ⟨hprotocol, huser.trans hu.symm, hpassword.trans hp.symm, hserver, hport,
      hpath, ?_⟩⟩
    rw [hvars, h.varsEq]
    match vars, hlen with
    | [], _ => rfl
    | [v], _ =>
        rw [readBack, varsText, List.flatMap_nil, List.append_nil, CString.ofBytes_eq]
        rfl

def sample (userName : Option (List UInt8)) (vars : DbHeap) : Url where
  protocol := some (ascii ['f', 't', 'p'])
  server := some (ascii ['h'])
  port := 21
  path := some (ascii ['/', 'p'])
  userName := userName
  password := none
  vars := vars
  url := none
  modified := true

theorem sample_plain {userName : Option (List UInt8)} {heap : DbHeap}
    (huser : ∀ s ∈ userName, s ≠ [] ∧ ∀ c ∈ s, (isHostChar c && c != code '%') = true)
    (hvars : varsOf heap 0 = vars.map fun v => (v.1, [DbValue.char v.2]))
    (hnames : vars.Pairwise fun v w => v.1 ≠ w.1)
    (hname : ∀ v ∈ vars, v.1.bytes ≠ [] ∧ ∀ c ∈ v.1.bytes, (isAlnum c || c == code '_') = true)
    (hvalue : ∀ v ∈ vars, v.2.bytes ≠ [] ∧ ∀ c ∈ v.2.bytes, isValueChar c = true) :
    Plain (sample userName heap) vars :=
  ⟨rfl, ⟨_, rfl, by decide, by decide⟩, huser,
    (fun _ hs => by cases hs), ⟨_, rfl, by decide, by decide⟩,
    ⟨show 1 ≤ (21 : Int32).toInt by decide, show (21 : Int32).toInt ≤ 65535 by decide⟩,
    ⟨_, rfl, by decide⟩, hvars, hnames, hname, hvalue⟩

/-- A variable of one character. -/
def sampleVar (name value : Char) : CString × CString :=
  (ofBytes (ascii [name]), ofBytes (ascii [value]))

/-- The group with one variable. -/
def sampleVars : DbHeap :=
  (setCharValue (emptyGroup (ofBytes [])) 0 flagsDefault (sampleVar 'a' 'x').1
    (sampleVar 'a' 'x').2).2

/-- `ftp://h:21/p?a=x` is read back. -/
theorem roundTrips_one : RoundTrips (sample none sampleVars) :=
  (@fromString_toString_iff (sample none sampleVars) [sampleVar 'a' 'x']
    (sample_plain (fun _ hs => by cases hs) (by decide) (by decide)
      (by decide) (by decide))).mpr ⟨rfl, rfl, le_rfl⟩

/-- A user is lost. -/
theorem not_roundTrips_user :
    Plain (sample (some (ascii ['u'])) (emptyGroup (ofBytes []))) [] ∧
      ¬ RoundTrips (sample (some (ascii ['u'])) (emptyGroup (ofBytes []))) := by
  have hplain : Plain (sample (some (ascii ['u'])) (emptyGroup (ofBytes []))) [] :=
    sample_plain (by decide) (by decide) (by decide) (by decide)
      (by decide)
  refine ⟨hplain, ?_⟩
  rintro ⟨url'', hread', hsame⟩
  obtain ⟨url', hread, -, huser, -⟩ := hplain.fromString_eq
  obtain rfl := Option.some.inj (hread.symm.trans hread')
  have hnone := huser.symm.trans hsame.user
  cases hnone

end Url
end Gwenhywfar
