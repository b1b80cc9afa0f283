import Gwenhywfar.Base.BufferFilled
import Gwenhywfar.Parser.XmlText

/-! # XML escaping into a `GWEN_BUFFER`

* `escapeXmlToBuffer`, `unescapeXmlToBuffer`: the functions with their buffers.  The decoder
  writes through a pointer and counts the room that is left; what it has written belongs to the
  buffer when its position and its size are adjusted (`XmlWriter`).
* `Writing`: a buffer together with what has been written behind it holds a text.
* `xmlRoundTrips`: a text is read back, whatever the sizes of the buffers are, if the escaped text
  does not come near the limit of a buffer. -/

namespace Gwenhywfar.Text

open Buffer

/-! ### The functions -/

/-- `GWEN_Buffer_GetPosPointer`. -/
def posPointer (bf : Buffer) : ℕ := bf.ptr + bf.pos

/-- `GWEN_Buffer_GetMaxUnsegmentedWrite`. -/
def maxUnsegmentedWrite (bf : Buffer) : ℕ := wsub bf.bufferSize (wadd bf.bytesUsed 1)

/-- `GWEN_Buffer_AdjustUsedBytes`. -/
def adjustUsedBytes (bf : Buffer) : Option (ℤ × Buffer) :=
  if bf.pos ≤ bf.bufferSize then
    (putNul { bf with
      bytesUsed := if bf.bytesUsed < bf.pos then bf.pos else bf.bytesUsed }).map fun bf => (0, bf)
  else some (errorBufferOverflow, bf)

/-- The variables of `GWEN_Text_UnescapeXmlToBuffer`. -/
structure XmlWriter where
  buf : Buffer
  pdst : ℕ
  roomLeft : ℕ
  bytesAdded : ℕ

namespace XmlWriter

/-- The pointer and the room for a buffer to which nothing has been added. -/
def start (bf : Buffer) : XmlWriter := ⟨bf, posPointer bf, maxUnsegmentedWrite bf, 0⟩

/-- What has been added becomes a part of the buffer. -/
def commit (w : XmlWriter) : Option Buffer :=
  if w.bytesAdded = 0 then some w.buf
  else (adjustUsedBytes (w.buf.incrementPos w.bytesAdded).2).map (·.2)

/-- The first part of `GWEN_TEXT__APPENDCHAR`; what `GWEN_Buffer_AllocRoom` returns is ignored. -/
def makeRoom (w : XmlWriter) : Option XmlWriter :=
  if w.roomLeft < 2 then
    w.commit.bind fun bf => (bf.allocRoom 2).map fun r => start r.2
  else some w

/-- `*(pdst++)=chr; *pdst=0; bytesAdded++; roomLeft--`. -/
def store (w : XmlWriter) (c : UInt8) : Option XmlWriter :=
  (Block.store w.buf.block w.pdst [some c]).bind fun m =>
    (Block.store m (w.pdst + 1) [some 0]).map fun m =>
      ⟨{ w.buf with block := m }, w.pdst + 1, wsub w.roomLeft 1, wadd w.bytesAdded 1⟩

/-- `GWEN_TEXT__APPENDCHAR`. -/
def appendChar (w : XmlWriter) (c : UInt8) : Option XmlWriter := w.makeRoom.bind (·.store c)

/-- `GWEN_TEXT__APPENDCHAR` for one byte after the other. -/
def appendAll (w : XmlWriter) : List UInt8 → Option XmlWriter
  | [] => some w
  | c :: out => (w.appendChar c).bind (appendAll · out)

end XmlWriter

/-- `GWEN_Text_UnescapeXmlToBuffer`. -/
def unescapeXmlToBuffer (src : List UInt8) (buf : Buffer) : Option (ℤ × Buffer) :=
  (unescapeXml src).bind fun out =>
    ((XmlWriter.start buf).appendAll out).bind fun w => w.commit.map fun buf => (0, buf)

/-- `GWEN_Text_EscapeXmlToBuffer`; what the functions of the buffer return is ignored. -/
def escapeXmlToBuffer : List UInt8 → Buffer → Option (ℤ × Buffer)
  | [], buf => some (0, buf)
  | c :: src, buf =>
      match xmlEscapeChars.find? (·.1 == c) with
      | some e => (buf.appendBytes e.2).bind fun r => escapeXmlToBuffer src r.2
      | none => (buf.appendByte c).bind fun r => escapeXmlToBuffer src r.2

/-! ### The texts -/

theorem findEntity_escaped {e : UInt8 × List UInt8} (he : e ∈ xmlEscapeChars)
    (rest : List UInt8) : e.2 = code '&' :: e.2.tail ∧
      findEntity (e.2.tail ++ rest) = some ([e.1], rest) := by
  simp only [xmlEscapeChars, List.mem_cons, List.not_mem_nil, or_false] at he
  rcases he with rfl | rfl | rfl | rfl | rfl <;> exact ⟨rfl, rfl⟩

theorem escapeXml_cons (c : UInt8) (s : List UInt8) : escapeXml (c :: s) =
    ((xmlEscapeChars.find? (·.1 == c)).map (·.2)).getD [c] ++ escapeXml s := List.flatMap_cons

theorem unescapeXml_escapeXml : ∀ s : List UInt8, unescapeXml (escapeXml s) = some s
  | [] => by
      rw [show escapeXml [] = [] from rfl, unescapeXml]
  | c :: s => by
      rw [escapeXml_cons]
      cases hfind : xmlEscapeChars.find? (·.1 == c) with
      | some e =>
          have hc := List.find?_some hfind
          obtain ⟨hamp, hentity⟩ :=
            findEntity_escaped (List.mem_of_find?_eq_some hfind) (escapeXml s)
          rw [Option.map_some, Option.getD_some, hamp, List.cons_append, unescapeXml_entity hentity,
            unescapeXml_escapeXml s, beq_iff_eq.mp hc]
          rfl
      | none =>
          have hc : c ≠ code '&' := by
            rintro rfl
            exact absurd hfind (by decide)
          rw [Option.map_none, Option.getD_none, List.singleton_append, unescapeXml_plain hc,
            unescapeXml_escapeXml s]
          rfl

variable {bf b : Buffer} {s bytes : List UInt8} {c : UInt8} {w : XmlWriter}

/-! ### The encoder -/

theorem Filled.escapeXmlToBuffer : ∀ {src : List UInt8} {bf : Buffer} {s : List UInt8},
    Filled bf s → s.length + (escapeXml src).length + 1025 ≤ 2 ^ 24 →
      ∃ b, Text.escapeXmlToBuffer src bf = some (0, b) ∧ Filled b (s ++ escapeXml src)
  | [], bf, s, h, _ => ⟨bf, rfl, by rw [show escapeXml [] = [] from rfl, List.append_nil]; exact h⟩
  | c :: src, bf, s, h, hlen => by
      rw [escapeXml_cons] at hlen ⊢
      rw [Text.escapeXmlToBuffer]
      cases hfind : xmlEscapeChars.find? (·.1 == c) with
      | some e =>
          rw [hfind, Option.map_some, Option.getD_some, List.length_append] at hlen
          obtain ⟨b, hb, hf⟩ := @Filled.appendBytes bf s e.2 h (h.noHit (by omega))
          obtain ⟨b', hb', hf'⟩ := @Filled.escapeXmlToBuffer src b (s ++ e.2) hf (by
            rw [List.length_append]
            omega)
          refine ⟨b', ?_, ?_⟩
          · dsimp only
            rw [hb, Option.bind_some, hb']
          · rw [Option.map_some, Option.getD_some, ← List.append_assoc]
            exact hf'
      | none =>
          rw [hfind, Option.map_none, Option.getD_none, List.length_append,
            List.length_singleton] at hlen
          obtain ⟨b, hb, hf⟩ := @Filled.appendByte bf s c h (.inr (h.noHit (by omega)))
          obtain ⟨b', hb', hf'⟩ := @Filled.escapeXmlToBuffer src b (s ++ [c]) hf (by
            rw [List.length_append, List.length_singleton]
            omega)
          refine ⟨b', ?_, ?_⟩
          · dsimp only
            rw [hb, Option.bind_some, hb']
          · rw [Option.map_none, Option.getD_none, ← List.append_assoc]
            exact hf'

/-! ### The decoder -/

/-- The buffer and what has been written behind it hold the text. -/
structure Writing (w : XmlWriter) (s : List UInt8) : Prop extends Buffer.Framed w.buf where
  ptr_eq : w.buf.ptr = 0
  pos_eq : w.buf.pos = w.buf.bytesUsed
  added_eq : w.buf.bytesUsed + w.bytesAdded = s.length
  pdst_eq : w.pdst = s.length
  room_eq : w.roomLeft + s.length + 1 = w.buf.bufferSize
  cells : ∀ j < s.length, w.buf.block[j]? = (s.map some)[j]?
  nul : w.buf.block[s.length]? = some (some 0)

theorem Filled.start (h : Filled bf s) : Writing (XmlWriter.start bf) s where
  toFramed := h.toRepInv.toFramed
  ptr_eq := h.ptr_eq
  pos_eq := h.pos_eq.trans h.used_eq.symm
  added_eq := h.used_eq
  pdst_eq := by
    change bf.ptr + bf.pos = s.length
    rw [h.ptr_eq, h.pos_eq, Nat.zero_add]
  room_eq := by
    have hsizes := h.sizes
    change wsub bf.bufferSize (wadd bf.bytesUsed 1) + s.length + 1 = bf.bufferSize
    rw [h.used_eq] at hsizes ⊢
    rw [wadd_of_lt (by omega), wsub_of_le (by omega) (by omega)]
    omega
  cells := h.cells
  nul := by
    have hnul := h.nul
    rwa [h.ptr_eq, h.used_eq, Nat.zero_add] at hnul

theorem Writing.commit (h : Writing w s) : ∃ b, w.commit = some b ∧ Filled b s := by
  have hroom := h.room_eq
  have hadded := h.added_eq
  have hfront := h.front
  have hinside := h.inside
  have hreal := h.real_lt
  have hptr := h.ptr_eq
  unfold XmlWriter.commit
  by_cases h0 : w.bytesAdded = 0
  · rw [if_pos h0]
    have hused : w.buf.bytesUsed = s.length := by omega
    refine ⟨w.buf, rfl, ⟨h.toFramed, by omega, ?_⟩, hptr, h.pos_eq.trans hused, hused, h.cells⟩
    rw [hptr, hused, Nat.zero_add]
    exact h.nul
  · have hpos : wadd w.buf.pos w.bytesAdded = s.length := by
      rw [h.pos_eq, wadd_of_lt (by omega), hadded]
    obtain ⟨m, hm, hl, hc⟩ := @putNul_cells { w.buf with pos := s.length, bytesUsed := s.length }
      (by
        dsimp only
        omega)
    have hadjust : adjustUsedBytes (w.buf.incrementPos w.bytesAdded).2 =
        some (0, { w.buf with block := m, pos := s.length, bytesUsed := s.length }) := by
      rw [Buffer.incrementPos, adjustUsedBytes]
      dsimp only
      rw [hpos, if_pos (by omega), if_pos (by omega), hm, Option.map_some]
    rw [if_neg h0, hadjust]
    refine ⟨_, rfl, ⟨⟨h.front, hl ▸ h.inside, hl ▸ h.block_le, h.real_lt, ?_, h.mode_eq,
      h.step_eq, h.hardLimit_eq⟩, ?_, ?_⟩, hptr, rfl, rfl, fun j hj => ?_⟩
    · dsimp only
      omega
    · dsimp only
      omega
    · dsimp only
      rw [hc, if_pos rfl]
    · dsimp only
      rw [hc, if_neg (by dsimp only; omega)]
      exact h.cells j hj

theorem Writing.makeRoom (h : Writing w s) (hlen : s.length + 1026 ≤ 2 ^ 24) :
    ∃ w', w.makeRoom = some w' ∧ Writing w' s ∧ 2 ≤ w'.roomLeft := by
  unfold XmlWriter.makeRoom
  split
  · obtain ⟨b, hb, hf⟩ := h.commit
    obtain ⟨b', hb', hf', hroom⟩ := hf.allocRoom (n := 2) (hf.noHit (by omega))
    rw [hb, Option.bind_some, hb', Option.map_some]
    have hstart := Filled.start hf'
    have hsize := hstart.room_eq
    refine ⟨XmlWriter.start b', rfl, hstart, ?_⟩
    change _ = b'.bufferSize at hsize
    omega
  · exact ⟨w, rfl, h, by omega⟩

theorem Writing.store (h : Writing w s) (hroom : 2 ≤ w.roomLeft) :
    ∃ w', w.store c = some w' ∧ Writing w' (s ++ [c]) := by
  have hsize := h.room_eq
  have hfront := h.front
  have hinside := h.inside
  have hreal := h.real_lt
  have hptr := h.ptr_eq
  have hadded := h.added_eq
  obtain ⟨m, hm, hl, hc⟩ := @Block.store_of_le _ w.buf.block [some c] w.pdst (by
    rw [h.pdst_eq, List.length_singleton]
    omega)
  obtain ⟨m', hm', hl', hc'⟩ := @Block.store_of_le _ m [some 0] (w.pdst + 1) (by
    rw [h.pdst_eq, List.length_singleton, hl]
    omega)
  rw [h.pdst_eq, List.length_singleton] at hc hc'
  have hlength : m'.length = w.buf.block.length := hl'.trans hl
  unfold XmlWriter.store
  rw [hm, Option.bind_some, hm', Option.map_some]
  refine ⟨_, rfl, ⟨h.front, hlength ▸ h.inside, hlength ▸ h.block_le, h.real_lt, h.pos_lt,
    h.mode_eq, h.step_eq, h.hardLimit_eq⟩, hptr, h.pos_eq, ?_, ?_, ?_, fun j hj => ?_, ?_⟩
  · dsimp only
    rw [wadd_of_lt (by omega), List.length_append, List.length_singleton]
    omega
  · dsimp only
    rw [h.pdst_eq, List.length_append, List.length_singleton]
  · dsimp only
    rw [wsub_of_le (by omega) (by omega), List.length_append, List.length_singleton]
    omega
  · dsimp only
    rw [List.length_append, List.length_singleton] at hj
    rw [hc', if_neg (by omega), hc, List.map_append]
    by_cases hlt : j < s.length
    · rw [if_neg (by omega), h.cells j hlt,
        List.getElem?_append_left (by rw [List.length_map]; exact hlt)]
    · rw [if_pos (by omega), List.getElem?_append_right (by rw [List.length_map]; omega),
        List.length_map]
      rfl
  · dsimp only
    rw [List.length_append, List.length_singleton, hc', if_pos (by omega), Nat.sub_self]
    rfl

theorem Writing.appendAll : ∀ {out : List UInt8} {w : XmlWriter} {s : List UInt8}, Writing w s →
    s.length + out.length + 1025 ≤ 2 ^ 24 →
      ∃ w', w.appendAll out = some w' ∧ Writing w' (s ++ out)
  | [], w, s, h, _ => ⟨w, rfl, by rw [List.append_nil]; exact h⟩
  | c :: out, w, s, h, hlen => by
      rw [List.length_cons] at hlen
      obtain ⟨w1, hw1, h1, hroom⟩ := h.makeRoom (by omega)
      obtain ⟨w2, hw2, h2⟩ := @Writing.store s c w1 h1 hroom
      obtain ⟨w3, hw3, h3⟩ := @Writing.appendAll out w2 (s ++ [c]) h2 (by
        rw [List.length_append, List.length_singleton]
        omega)
      rw [List.append_assoc] at h3
      refine ⟨w3, ?_, h3⟩
      rw [XmlWriter.appendAll, XmlWriter.appendChar, hw1, Option.bind_some, hw2, Option.bind_some,
        hw3]

theorem Filled.unescapeXmlToBuffer {src out : List UInt8} (h : Filled bf s)
    (hout : unescapeXml src = some out) (hlen : s.length + out.length + 1025 ≤ 2 ^ 24) :
    ∃ b, Text.unescapeXmlToBuffer src bf = some (0, b) ∧ Filled b (s ++ out) := by
  obtain ⟨w, hw, hwriting⟩ := (Filled.start h).appendAll hlen
  obtain ⟨b, hb, hf⟩ := hwriting.commit
  refine ⟨b, ?_, hf⟩
  rw [Text.unescapeXmlToBuffer, hout, Option.bind_some, hw, Option.bind_some, hb, Option.map_some]

/-! ### The round trip -/

/-- The text is escaped into a new buffer, and read back into another one. -/
def XmlRoundTrips (s : List UInt8) (size size' : ℕ) : Prop :=
  ∃ b b1 b' b1' text, Buffer.new size = some b ∧ escapeXmlToBuffer s b = some (0, b1) ∧
    HoldsText b1 text ∧ Buffer.new size' = some b' ∧
    unescapeXmlToBuffer text b' = some (0, b1') ∧ HoldsText b1' s

theorem zero_notMem_escapeXml (hs : 0 ∉ s) : 0 ∉ escapeXml s := by
  intro h
  rw [escapeXml, List.mem_flatMap] at h
  obtain ⟨c, hc, h0⟩ := h
  cases hfind : xmlEscapeChars.find? (·.1 == c) with
  | some e =>
      have htable : ∀ e ∈ xmlEscapeChars, 0 ∉ e.2 := by decide
      rw [hfind, Option.map_some, Option.getD_some] at h0
      exact htable e (List.mem_of_find?_eq_some hfind) h0
  | none =>
      rw [hfind, Option.map_none, Option.getD_none, List.mem_singleton] at h0
      exact hs (h0 ▸ hc)

theorem length_le_escapeXml : ∀ s : List UInt8, s.length ≤ (escapeXml s).length
  | [] => Nat.le_refl 0
  | c :: s => by
      have ih := length_le_escapeXml s
      have hone : 1 ≤ (((xmlEscapeChars.find? (·.1 == c)).map (·.2)).getD [c]).length := by
        cases hfind : xmlEscapeChars.find? (·.1 == c) with
        | some e =>
            have htable : ∀ e ∈ xmlEscapeChars, 1 ≤ e.2.length := by decide
            exact htable e (List.mem_of_find?_eq_some hfind)
        | none => exact Nat.le_refl 1
      rw [escapeXml_cons, List.length_append, List.length_cons]
      omega

/-- A text whose escaped form stays below the limit of a buffer is read back. -/
theorem xmlRoundTrips {size size' : ℕ} (hs : 0 ∉ s) (hlen : (escapeXml s).length + 1025 ≤ 2 ^ 24)
    (h0 : 0 < size) (hsize : size + 1 < 2 ^ 32) (h0' : 0 < size') (hsize' : size' + 1 < 2 ^ 32) :
    XmlRoundTrips s size size' := by
  have hle := length_le_escapeXml s
  obtain ⟨b, hb, hf⟩ := filled_new h0 hsize
  obtain ⟨b1, hb1, hf1⟩ := @Filled.escapeXmlToBuffer s b [] hf (by
    rw [List.length_nil]
    omega)
  obtain ⟨b', hb', hf'⟩ := filled_new h0' hsize'
  obtain ⟨b1', hb1', hf1'⟩ := Filled.unescapeXmlToBuffer hf' (unescapeXml_escapeXml s) (by
    rw [List.length_nil]
    omega)
  exact ⟨b, b1, b', b1', escapeXml s, hb, hb1, hf1.holdsText (zero_notMem_escapeXml hs), hb', hb1',
    hf1'.holdsText hs⟩

/-! ### The limit -/

theorem Limited.commit (h : Limited w.buf) (hb : w.commit = some b) : Limited b := by
  unfold XmlWriter.commit at hb
  split at hb
  · rw [← Option.some.inj hb]
    exact h
  · obtain ⟨r, hr, rfl⟩ := Option.map_eq_some_iff.mp hb
    unfold adjustUsedBytes at hr
    have hpos : Limited (w.buf.incrementPos w.bytesAdded).2 := h.congr rfl rfl rfl
    split at hr
    · obtain ⟨b', hb', rfl⟩ := Option.map_eq_some_iff.mp hr
      refine (Limited.putNul ?_ hb' : Limited b')
      exact hpos.congr rfl rfl rfl
    · rw [← Option.some.inj hr]
      exact hpos

theorem Limited.appendChar {w' : XmlWriter} (h : Limited w.buf)
    (hw : w.appendChar c = some w') : Limited w'.buf := by
  unfold XmlWriter.appendChar at hw
  obtain ⟨v, hv, hstore⟩ := Option.bind_eq_some_iff.mp hw
  have hlimited : Limited v.buf := by
    unfold XmlWriter.makeRoom at hv
    split at hv
    · obtain ⟨b', hb', hv⟩ := Option.bind_eq_some_iff.mp hv
      obtain ⟨⟨rv, b2⟩, hr, rfl⟩ := Option.map_eq_some_iff.mp hv
      exact (Limited.commit h hb').allocRoom hr
    · rw [← Option.some.inj hv]
      exact h
  unfold XmlWriter.store at hstore
  obtain ⟨m, -, hstore⟩ := Option.bind_eq_some_iff.mp hstore
  obtain ⟨m', -, rfl⟩ := Option.map_eq_some_iff.mp hstore
  exact hlimited.congr rfl rfl rfl

theorem Limited.appendAll : ∀ {out : List UInt8} {w w' : XmlWriter}, Limited w.buf →
    w.appendAll out = some w' → Limited w'.buf
  | [], w, w', h, hw => by
      rw [← Option.some.inj hw]
      exact h
  | c :: out, w, w', h, hw => by
      obtain ⟨v, hv, hw⟩ := Option.bind_eq_some_iff.mp hw
      exact Limited.appendAll (Limited.appendChar h hv) hw

theorem Limited.unescapeXmlToBuffer {src : List UInt8} {rv : ℤ} (h : Limited bf)
    (hb : Text.unescapeXmlToBuffer src bf = some (rv, b)) : Limited b := by
  obtain ⟨out, -, hb⟩ := Option.bind_eq_some_iff.mp hb
  obtain ⟨w, hw, hb⟩ := Option.bind_eq_some_iff.mp hb
  obtain ⟨b', hb', hr⟩ := Option.map_eq_some_iff.mp hb
  rw [Prod.mk.injEq] at hr
  rw [← hr.2]
  have hstart : Limited (XmlWriter.start bf).buf := h
  exact Limited.commit (Limited.appendAll hstart hw) hb'

/-- A text of the size of the limit does not fit into a buffer that begins small. -/
theorem not_xmlRoundTrips_long :
    ¬∀ s size size', 0 ∉ s → 0 < size → size + 1 < 2 ^ 32 → 0 < size' → size' + 1 < 2 ^ 32 →
      XmlRoundTrips s size size' := by
  intro h
  have hlong : 0 ∉ List.replicate (2 ^ 24) (code 'a') := by
    intro hmem
    exact absurd (List.eq_of_mem_replicate hmem) (by decide)
  obtain ⟨b, b1, b', b1', text, -, -, -, hb', hb1', hholds⟩ :=
    h (List.replicate (2 ^ 24) (code 'a')) 1 1 hlong (by decide) (by decide) (by decide) (by decide)
  have hlimited := Limited.unescapeXmlToBuffer (limited_new (by decide) hb') hb1'
  have hused := hholds.used
  have hlt := hholds.used_lt
  have hsize := hlimited.size_eq
  have hle := hlimited.size_le
  rw [List.length_replicate] at hused
  omega

/-- `"<"`, in buffers of a size of 1. -/
theorem xmlRoundTrips_less : 0 ∉ ascii ['<'] ∧ (escapeXml (ascii ['<'])).length + 1025 ≤ 2 ^ 24 ∧
    XmlRoundTrips (ascii ['<']) 1 1 :=
  ⟨by decide, by decide, xmlRoundTrips (by decide) (by decide) (by decide) (by decide) (by decide)
    (by decide)⟩
end Gwenhywfar.Text
