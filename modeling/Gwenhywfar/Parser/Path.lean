import Gwenhywfar.Parser.DbNodes

/-! # Paths

* `Path.handleWithIdx`: `GWEN_Path_HandleWithIdx`, which calls a function for each element of a
  path.  What the function returns is the data for the next call; it also changes a state `σ`. -/

namespace Gwenhywfar.Path

open Text Db

/-! ### Flags -/

/-- `GWEN_PATH_FLAGS_PATHMUSTEXIST`. -/
def flagsPathMustExist : UInt32 := 0x00000001

/-- `GWEN_PATH_FLAGS_PATHMUSTNOTEXIST`. -/
def flagsPathMustNotExist : UInt32 := 0x00000002

/-- `GWEN_PATH_FLAGS_PATHCREATE`. -/
def flagsPathCreate : UInt32 := 0x00000004

/-- `GWEN_PATH_FLAGS_NAMEMUSTEXIST`. -/
def flagsNameMustExist : UInt32 := 0x00000008

/-- `GWEN_PATH_FLAGS_NAMEMUSTNOTEXIST`. -/
def flagsNameMustNotExist : UInt32 := 0x00000010

/-- `GWEN_PATH_FLAGS_CREATE_GROUP`. -/
def flagsCreateGroup : UInt32 := 0x00000020

/-- `GWEN_PATH_FLAGS_CREATE_VAR`. -/
def flagsCreateVar : UInt32 := 0x00000040

/-- `GWEN_PATH_FLAGS_VARIABLE`. -/
def flagsVariable : UInt32 := 0x00000080

/-- `GWEN_PATH_FLAGS_ESCAPE`, which is also `GWEN_PATH_FLAGS_UNESCAPE`. -/
def flagsEscape : UInt32 := 0x00000100

/-- `GWEN_PATH_FLAGS_TOLERANT_ESCAPE`. -/
def flagsTolerantEscape : UInt32 := 0x00000200

/-- `GWEN_PATH_FLAGS_CONVERT_LAST`. -/
def flagsConvertLast : UInt32 := 0x00000400

/-- `GWEN_PATH_FLAGS_CHECKROOT`. -/
def flagsCheckRoot : UInt32 := 0x00000800

/-- `GWEN_PATH_FLAGS_NO_IDX`. -/
def flagsNoIdx : UInt32 := 0x00001000

/-- `GWEN_PATH_FLAGS_INTERNAL`. -/
def flagsInternal : UInt32 := 0x0000c000

/-- `GWEN_PATH_FLAGS_LAST`. -/
def flagsLast : UInt32 := 0x00004000

/-- `GWEN_PATH_FLAGS_ROOT`. -/
def flagsRoot : UInt32 := 0x00008000

theorem has_or (a b mask : UInt32) : has (a ||| b) mask = (has a mask || has b mask) := by
  have hdistrib : (a ||| b) &&& mask = a &&& mask ||| b &&& mask := by
    rw [← UInt32.toBitVec_inj]
    simp only [UInt32.toBitVec_and, UInt32.toBitVec_or]
    ext i hi
    simp only [BitVec.getElem_and, BitVec.getElem_or, Bool.and_or_distrib_right]
  rw [has, has, has, hdistrib, Bool.eq_iff_iff]
  simp only [bne_iff_ne, ne_eq, UInt32.or_eq_zero_iff, Bool.or_eq_true, not_and_or]

theorem has_and_of_sub {b mask : UInt32} (h : b &&& mask = mask) (a : UInt32) :
    has (a &&& b) mask = has a mask := by
  rw [has, UInt32.and_assoc, h, ← has]

theorem has_and_of_disjoint {b mask : UInt32} (h : b &&& mask = 0) (a : UInt32) :
    has (a &&& b) mask = false := by
  rw [has, UInt32.and_assoc, h, UInt32.and_zero]
  rfl

/-! ### Elements -/

/-- A delimiter of a path. -/
def isSlash (c : UInt8) : Bool := c == code '/' || c == code '\\'

def splitIndex (element : List UInt8) : Option (List UInt8 × Int32) :=
  if code '[' ∈ element then
    let index := (element.dropWhile (· != code '[')).tail
    if code ']' ∈ index then
      (scanInt (index.takeWhile (· != code ']'))).map fun idx =>
        (element.takeWhile (· != code '['), idx)
    else none
  else some (element, 0)

def elementFlags (origflags : UInt32) (root last isVariable : Bool) : UInt32 :=
  origflags &&& ~~~(flagsInternal ||| flagsVariable) ||| (if root then flagsRoot else 0) |||
    (if last then flagsLast else 0) ||| (if isVariable then flagsVariable else 0)

/-- Escapes an element if that is wanted.  An element is never unescaped, as the flag for this is
that for escaping. -/
def convert (flags : UInt32) (startAtRoot : Bool) (element : List UInt8) : List UInt8 :=
  if (!has flags flagsLast || has flags flagsConvertLast) && has flags flagsEscape then
    let p := if startAtRoot then element.tail else element
    (if startAtRoot then [code '/'] else []) ++
      if has flags flagsTolerantEscape then Text.escapeToBufferTolerant p else escapeToBuffer p
  else element

section
variable {δ σ : Type} (elementFunction : List UInt8 → δ → Int32 → UInt32 → σ → Option δ × σ)
  (origflags : UInt32)

/-- The loop of `GWEN_Path_HandleWithIdx`; each round takes an element. -/
def handleLoop : ℕ → List UInt8 → (startAtRoot : Bool) → δ → σ → Option δ × σ
  | _, [], _, data, s => (some data, s)
  | 0, _ :: _, _, _, s => (none, s)
  | k + 1, c :: path, startAtRoot, data, s =>
      let element := (if startAtRoot then [code '/'] else []) ++
        (c :: path).takeWhile fun c => !isSlash c
      let behind := (c :: path).dropWhile fun c => !isSlash c
      match if has origflags flagsNoIdx then some (element, 0) else splitIndex element with
      | none => (none, s)
      | some (name, idx) =>
          let rest := behind.dropWhile isSlash
          -- the path ends with a group while a variable is wanted
          if behind ≠ [] ∧ rest = [] ∧ has origflags flagsVariable then (none, s)
          else
            let flags := elementFlags origflags startAtRoot (rest == [])
              (rest == [] && has origflags flagsVariable)
            match elementFunction (convert flags startAtRoot name) data idx flags s with
            | (none, s) => (none, s)
            | (some data, s) => handleLoop k rest false data s

/-- `GWEN_Path_HandleWithIdx`. -/
def handleWithIdx (path : List UInt8) (data : δ) (s : σ) : Option δ × σ :=
  let path := path.dropWhile isSpace
  let startAtRoot := has origflags flagsCheckRoot && (path.head?.map isSlash).getD false
  let path := path.dropWhile isSlash
  handleLoop elementFunction origflags path.length path startAtRoot data s

end
end Gwenhywfar.Path
