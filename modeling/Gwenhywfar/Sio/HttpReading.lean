import Gwenhywfar.Sio.SyncIoHttp

/-! # Reading an HTTP message

* `readLine_spec`, `readHeaderLoop_linesText`: a line and a header are read as they are, however
  the layer below cuts them, and nothing behind them is taken.
* `readContent_body`: the body is delivered piece by piece, and with its last byte the
  reader becomes idle. -/

namespace Gwenhywfar.Http

open Text SyncIoBuffered

/-! ### Pieces of a line -/

section
variable {base : SyncIoBuffered} {l tl tbuf : List UInt8} {ls : List (List UInt8)}
  {room : ℕ → ℕ}

theorem withoutCr_of_not_mem (h : 13 ∉ l) : withoutCr l = l :=
  List.filter_eq_self.mpr fun c hc => by simpa using fun h13 : c = 13 => h (h13 ▸ hc)

theorem lf_mem_withoutCr (h : 10 ∈ withoutCr l) : 10 ∈ l := (List.mem_filter.mp h).1

theorem steady_congr {io io' : BaseIo} (h : io.Steady) (hres : io'.results = io.results) :
    io'.Steady := fun i rv => hres ▸ h i rv

/-- A read of a line takes a part of it that does not end it, or all of it. -/
theorem read_piece {size : ℕ} (hsize : 2 ≤ size) (hl : 10 ∉ l) (hs : base.base.Steady)
    (h : Rest base (l ++ 10 :: tl)) : ∃ out base', base.read false size = some (out, base') ∧
      base'.base.results = base.base.results ∧ 0 < out.rv ∧
      ((∃ l1 l2, l = l1 ++ l2 ∧ out.buffer = withoutCr l1 ∧ out.buffer ≠ [] ∧
          out.buffer.getLast? ≠ some 10 ∧ Rest base' (l2 ++ 10 :: tl)) ∨
        out.buffer = withoutCr l ++ [10] ∧ Rest base' tl) := by
  obtain ⟨out, base', consumed, rest, hrun, hrest, hcut, hout, -, hres, hrv⟩ :=
    read_line_spec hsize h
  have hnonneg := hrv hs
  have hcount : out.rv = out.buffer.length := hout.count.resolve_right fun hneg => by omega
  have hret := hout.returned
  refine ⟨out, base', hrun, hres, ?_⟩
  have hpart : ∀ l2, l = consumed ++ l2 → rest = l2 ++ 10 :: tl → 0 < out.rv ∧
      ∃ l1 l2, l = l1 ++ l2 ∧ out.buffer = withoutCr l1 ∧ out.buffer ≠ [] ∧
          out.buffer.getLast? ≠ some 10 ∧ Rest base' (l2 ++ 10 :: tl) := by
    intro l2 hl2 hrest'
    have hpos : 0 < out.rv := by
      refine lt_of_le_of_ne hnonneg fun h0 => ?_
      have hnil := hout.atEnd h0.symm
      rw [hrest'] at hnil
      simp at hnil
    refine ⟨hpos, consumed, l2, hl2, hret, ?_, ?_, hrest' ▸ hrest⟩
    · rintro hnil
      rw [hcount, hnil] at hpos
      exact absurd hpos (by decide)
    · intro hlast
      have hmem := List.mem_of_getLast? hlast
      rw [hret] at hmem
      exact hl (hl2 ▸ List.mem_append_left _ (lf_mem_withoutCr hmem))
  rcases List.append_eq_append_iff.mp hcut with ⟨a, hconsumed, htail⟩ | ⟨l2, hl2, hrest'⟩
  · cases a with
    | nil =>
        obtain ⟨hpos, hpieces⟩ :=
          hpart [] (by rw [hconsumed, List.append_nil, List.append_nil]) htail.symm
        exact ⟨hpos, Or.inl hpieces⟩
    | cons c a =>
        obtain ⟨rfl, htl⟩ := List.cons.inj htail
        have hbuffer : out.buffer = withoutCr l ++ 10 :: withoutCr a := by
          rw [hret, hconsumed, withoutCr_append]
          rfl
        -- the line is the last thing that is returned
        have hnone : withoutCr a = [] := by
          by_contra hne
          have hline := hout.line
          rw [hbuffer, List.dropLast_append_of_ne_nil (by simp),
            List.dropLast_cons_of_ne_nil hne] at hline
          exact hline (List.mem_append_right _ List.mem_cons_self)
        rw [hnone] at hbuffer
        have hstop := hout.stops (by rw [hbuffer, List.getLast?_concat])
        have ha : a = [] := by
          cases a with
          | nil => rfl
          | cons d a =>
              rw [hconsumed, List.getLast?_append, List.getLast?_cons_cons,
                List.getLast?_cons] at hstop
              have hmem : 10 ∈ d :: a := by
                refine List.mem_of_getLast? (a := 10) ?_
                rw [List.getLast?_cons]
                exact hstop
              have : 10 ∈ withoutCr (d :: a) := List.mem_filter.mpr ⟨hmem, by decide⟩
              rw [hnone] at this
              cases this
        subst ha
        obtain rfl : tl = rest := htl
        refine ⟨?_, Or.inr ⟨hbuffer, hrest⟩⟩
        rw [hcount, hbuffer, List.length_append]
        exact Int.natCast_pos.mpr (Nat.succ_pos _)
  · obtain ⟨hpos, hpieces⟩ := hpart l2 hl2 hrest'
    exact ⟨hpos, Or.inl hpieces⟩

theorem rounds_eq {r : List UInt8} (h : Rest base r) : rounds base = r.length + 1 := by
  obtain ⟨q, hq, rfl⟩ := h
  rw [rounds, RingBuffer.getUsedBytes, hq.used, List.length_append]

/-! ### One line -/

theorem readLineLoop_spec (hroom : ∀ n, 2 ≤ room n) : ∀ (k : ℕ) (tbuf : List UInt8)
    {base : SyncIoBuffered} {l : List UInt8}, l.length < k → 10 ∉ l → base.base.Steady → Rest base (l ++ 10 :: tl) →
    ∃ base', readLineLoop room k base tbuf = some (0, tbuf ++ withoutCr l ++ [0], base') ∧
      Rest base' tl ∧ base'.base.results = base.base.results
  | k + 1, tbuf, base, l, hk, hl, hs, h => by
      obtain ⟨out, base1, hrun, hres, hpos, hpieces⟩ := read_piece (hroom tbuf.length) hl hs h
      rw [readLineLoop, hrun, Option.bind_some]
      dsimp only
      rw [if_neg (by omega), if_pos hpos]
      rcases hpieces with ⟨l1, l2, rfl, hbuffer, hne, hlast, hrest⟩ | ⟨hbuffer, hrest⟩
      · have hl1 : l1 ≠ [] := by
          rintro rfl
          exact hne hbuffer
        have hlen := List.length_pos_iff.mpr hl1
        rw [List.length_append] at hk
        obtain ⟨base', hrun', hrest', hres'⟩ := readLineLoop_spec hroom k
          (tbuf ++ out.buffer) (by omega) (fun h10 => hl (List.mem_append_right _ h10)) (steady_congr hs hres) hrest
        refine ⟨base', ?_, hrest', hres'.trans hres⟩
        rw [if_neg hlast, hrun', hbuffer, withoutCr_append, ← List.append_assoc tbuf]
      · refine ⟨base1, ?_, hrest, hres⟩
        rw [if_pos (by rw [hbuffer, List.getLast?_concat]), hbuffer, List.dropLast_concat]

/-! ### A header -/

theorem readHeaderLoop_line : ∀ (k : ℕ) (tbuf : List UInt8) (pos n : ℕ) {base : SyncIoBuffered}
    {l : List UInt8}, l.length < k → 10 ∉ l → base.base.Steady → Rest base (l ++ 10 :: tl) → pos ≤ tbuf.length →
    withoutCr l ≠ [] ∨ pos < tbuf.length → ∃ base' k', k ≤ k' + (l.length + 1) ∧ Rest base' tl ∧
      base'.base.results = base.base.results ∧
      readHeaderLoop k base tbuf pos n =
        readHeaderLoop k' base' (tbuf ++ withoutCr l ++ [10]) (tbuf ++ withoutCr l ++ [10]).length
          (n + 1)
  | k + 1, tbuf, pos, n, base, l, hk, hl, hs, h, hpos, hsome => by
      obtain ⟨out, base1, hrun, hres, hrv, hpieces⟩ :=
        read_piece (by decide : 2 ≤ 1024) hl hs h
      rw [readHeaderLoop, hrun, Option.bind_some]
      dsimp only
      rw [if_neg (by omega), if_pos hrv]
      rcases hpieces with ⟨l1, l2, rfl, hbuffer, hne, hlast, hrest⟩ | ⟨hbuffer, hrest⟩
      · have hl1 : l1 ≠ [] := by
          rintro rfl
          exact hne hbuffer
        have hlen1 := List.length_pos_iff.mpr hl1
        have hlen := List.length_pos_iff.mpr hne
        rw [List.length_append] at hk
        obtain ⟨base', k', hk', hrest', hres', hloop⟩ := readHeaderLoop_line k
          (tbuf ++ out.buffer) pos n (by omega)
          (fun h10 => hl (List.mem_append_right _ h10)) (steady_congr hs hres) hrest
          (by rw [List.length_append]; omega) (Or.inr (by rw [List.length_append]; omega))
        refine ⟨base', k', by rw [List.length_append]; omega, hrest', hres'.trans hres, ?_⟩
        rw [if_neg hlast, hloop, hbuffer, withoutCr_append, ← List.append_assoc]
      · refine ⟨base1, k, by omega, hrest, hres, ?_⟩
        have hlong : ¬ (tbuf ++ (withoutCr l ++ [10])).length - pos = 1 := by
          rw [List.length_append, List.length_append, List.length_singleton]
          rcases hsome with hsome | hsome
          · have := List.length_pos_iff.mpr hsome
            omega
          · omega
        rw [if_pos (by rw [hbuffer, List.getLast?_concat]), hbuffer, if_neg hlong, List.append_assoc]

theorem readHeaderLoop_end {k n : ℕ} (hs : base.base.Steady) (h : Rest base (crlf ++ tl)) :
    ∃ base', readHeaderLoop (k + 1) base tbuf tbuf.length n = some (0, tbuf ++ [10], n + 1, base') ∧
      Rest base' tl ∧ base'.base.results = base.base.results := by
  obtain ⟨out, base', hrun, hres, hrv, hpieces⟩ :=
    read_piece (l := [13]) (by decide : 2 ≤ 1024) (by decide) hs h
  have hbuffer : out.buffer = [10] ∧ Rest base' tl := by
    rcases hpieces with ⟨l1, l2, hcut, hbuffer, hne, -⟩ | hbuffer
    · have hall := congrArg withoutCr hcut
      rw [withoutCr_append, ← hbuffer] at hall
      exact absurd (List.append_eq_nil_iff.mp hall.symm).1 hne
    · exact hbuffer
  refine ⟨base', ?_, hbuffer.2, hres⟩
  rw [readHeaderLoop, hrun, Option.bind_some]
  dsimp only
  rw [if_neg (by omega), if_pos hrv, hbuffer.1, if_pos (by rfl), if_pos (by simp)]

theorem readHeaderLoop_linesText : ∀ {ls : List (List UInt8)} (k : ℕ) (tbuf : List UInt8) (n : ℕ)
    {base : SyncIoBuffered}, (∀ l ∈ ls, InLine l ∧ l ≠ []) → (linesText crlf ls).length ≤ k →
    base.base.Steady → Rest base (linesText crlf ls ++ tl) →
    ∃ base', readHeaderLoop k base tbuf tbuf.length n =
        some (0, tbuf ++ linesText [10] ls, n + ls.length + 1, base') ∧
      Rest base' tl ∧ base'.base.results = base.base.results
  | [], k, tbuf, n, base, _, hk, hs, h => by
      obtain ⟨k, rfl⟩ : ∃ k', k = k' + 1 := ⟨k - 1, by
        have : (linesText crlf []).length = 2 := rfl
        omega⟩
      exact readHeaderLoop_end hs h
  | l :: ls, k, tbuf, n, base, hls, hk, hs, h => by
      obtain ⟨⟨h10, h13⟩, hne⟩ := hls l List.mem_cons_self
      have htext : linesText crlf (l :: ls) ++ tl = (l ++ [13]) ++ 10 :: (linesText crlf ls ++ tl) := by
        rw [linesText_cons, crlf, List.append_assoc, List.append_assoc, List.append_assoc]
        rfl
      have hlen : (linesText crlf (l :: ls)).length = l.length + 2 + (linesText crlf ls).length := by
        rw [linesText_cons, crlf, List.length_append, List.length_append]
        simp only [List.length_cons, List.length_nil]
        omega
      have hcr : withoutCr (l ++ [13]) = l := by
        rw [withoutCr_append, withoutCr_of_not_mem h13]
        exact List.append_nil l
      rw [htext] at h
      obtain ⟨base1, k1, hk1, hrest1, hres1, hloop⟩ := readHeaderLoop_line k tbuf tbuf.length n
        (by rw [List.length_append, List.length_singleton]; omega)
        (by simpa using h10) hs h le_rfl (Or.inl (by rwa [hcr]))
      rw [List.length_append, List.length_singleton] at hk1
      rw [hcr] at hloop
      obtain ⟨base', hrun, hrest, hres⟩ := readHeaderLoop_linesText k1
        (tbuf ++ l ++ [10]) (n + 1) (fun l hl => hls l (List.mem_cons_of_mem _ hl)) (by omega)
        (steady_congr hs hres1) hrest1
      refine ⟨base', ?_, hrest, hres.trans hres1⟩
      rw [hloop, hrun, linesText_cons, List.length_cons, List.append_assoc, List.append_assoc,
        Nat.add_right_comm n 1, ← Nat.add_assoc]

/-! ### The first line -/

theorem ofBytes_concat_nul (h : 0 ∉ l) : (CString.ofBytes (l ++ [0])).bytes = l := by
  have hpos : ∀ c ∈ l, (c != 0) = true := fun c hc => by simpa using fun h0 : c = 0 => h (h0 ▸ hc)
  exact (List.takeWhile_append_of_pos hpos).trans (List.append_nil l)

theorem textOr_nul_free {s : Option CString} {defVal : List UInt8} (h : 0 ∉ defVal) :
    0 ∉ textOr s defVal := by
  cases s with
  | none => exact h
  | some s => exact s.nul_free

variable {r : HttpReader}

theorem HttpReader.readLine_spec (hroom : ∀ n, 2 ≤ room n) (hl : InLine l)
    (hs : r.base.base.Steady) (h : Rest r.base (l ++ (crlf ++ tl))) :
    ∃ base', r.readLine room = some (0, l ++ [0], { r with base := base' }) ∧ Rest base' tl ∧
      base'.base.results = r.base.base.results := by
  have htext : l ++ (crlf ++ tl) = (l ++ [13]) ++ 10 :: tl := by
    rw [crlf, List.append_assoc]
    rfl
  rw [htext] at h
  obtain ⟨base', hrun, hrest, hres⟩ := readLineLoop_spec hroom (rounds r.base) []
    (by rw [rounds_eq h]; simp only [List.length_append]; omega) (by simpa using hl.1) hs h
  have hcr : withoutCr (l ++ [13]) = l := by
    rw [withoutCr_append, withoutCr_of_not_mem hl.2]
    exact List.append_nil l
  refine ⟨base', ?_, hrest, hres⟩
  rw [HttpReader.readLine, hrun, hcr]
  rfl

/-- A text without a blank. -/
def Word (s : List UInt8) : Prop := code ' ' ∉ s

/-- The command and the URL have no blank, and nothing ends the line. -/
structure CommandDb.Plain (db : CommandDb) : Prop where
  command : InLine (textOr db.command (ascii ['G', 'E', 'T']))
  commandWord : Word (textOr db.command (ascii ['G', 'E', 'T']))
  url : InLine (textOr db.url (ascii ['/']))
  urlWord : Word (textOr db.url (ascii ['/']))
  protocol : InLine (textOr db.protocol protocol10)
  named : textOr db.protocol protocol10 ≠ []

/-- The protocol has no blank, the code is no negative number, and nothing ends the line. -/
structure StatusDb.Plain (db : StatusDb) : Prop where
  protocol : InLine (textOr db.protocol protocol10)
  protocolWord : Word (textOr db.protocol protocol10)
  numbered : ∃ i, db.code = some i ∧ 0 ≤ i.toInt
  text : InLine (textOr db.text (ascii ['N', 'o', ' ', 't', 'e', 'x', 't', '.']))

/-- The line of a command without its end. -/
def commandText (db : CommandDb) : List UInt8 :=
  textOr db.command (ascii ['G', 'E', 'T']) ++ code ' ' :: textOr db.url (ascii ['/']) ++
    code ' ' :: textOr db.protocol protocol10

/-- The line of a status without its end. -/
def statusText (db : StatusDb) (i : Int32) : List UInt8 :=
  textOr db.protocol protocol10 ++ code ' ' :: printInt i ++ code ' ' ::
    textOr db.text (ascii ['N', 'o', ' ', 't', 'e', 'x', 't', '.'])

theorem inLine_append_blank {s t : List UInt8} (hs : InLine s) (ht : InLine t) :
    InLine (s ++ code ' ' :: t) := by
  have hblank : (10 : UInt8) ≠ code ' ' ∧ (13 : UInt8) ≠ code ' ' := by decide
  constructor <;> rw [List.mem_append, List.mem_cons, not_or, not_or]
  · exact ⟨hs.1, hblank.1, ht.1⟩
  · exact ⟨hs.2, hblank.2, ht.2⟩

theorem nul_free_append_blank {s t : List UInt8} (hs : 0 ∉ s) (ht : 0 ∉ t) :
    0 ∉ s ++ code ' ' :: t := by
  rw [List.mem_append, List.mem_cons, not_or, not_or]
  exact ⟨hs, by decide, ht⟩

theorem takeWhile_blank {s t : List UInt8} (h : Word s) :
    (s ++ code ' ' :: t).takeWhile (· != code ' ') = s ∧
      (s ++ code ' ' :: t).dropWhile (· != code ' ') = code ' ' :: t := by
  have hpos : ∀ c ∈ s, (c != code ' ') = true :=
    fun c hc => by simpa using fun heq : c = code ' ' => h (heq ▸ hc)
  rw [List.takeWhile_append_of_pos hpos, List.dropWhile_append_of_pos hpos,
    List.takeWhile_cons_of_neg (by simp), List.dropWhile_cons_of_neg (by simp), List.append_nil]
  exact ⟨rfl, rfl⟩

theorem CommandDb.Plain.inLine {db : CommandDb} (h : db.Plain) :
    InLine (commandText db) ∧ 0 ∉ commandText db :=
  ⟨inLine_append_blank (inLine_append_blank h.command h.url) h.protocol,
    nul_free_append_blank (nul_free_append_blank (textOr_nul_free (by decide))
      (textOr_nul_free (by decide))) (textOr_nul_free (by decide))⟩

theorem printInt_inLine (i : Int32) : InLine (printInt i) :=
  ⟨not_mem_printInt i (by decide) (by decide), not_mem_printInt i (by decide) (by decide)⟩

theorem StatusDb.Plain.inLine {db : StatusDb} (h : db.Plain) (i : Int32) :
    InLine (statusText db i) ∧ 0 ∉ statusText db i :=
  ⟨inLine_append_blank (inLine_append_blank h.protocol (printInt_inLine i)) h.text,
    nul_free_append_blank (nul_free_append_blank (textOr_nul_free (by decide))
      (not_mem_printInt i (by decide) (by decide))) (textOr_nul_free (by decide))⟩

theorem HttpReader.parseCommand_commandText {db : CommandDb} (h : db.Plain) (r : HttpReader) :
    ∃ db', r.parseCommand (commandText db) = (0, { r with dbCommandIn := db' }) ∧
      textOr db'.protocol protocol10 = textOr db.protocol protocol10 := by
  have htext : commandText db = textOr db.command (ascii ['G', 'E', 'T']) ++ code ' ' ::
      (textOr db.url (ascii ['/']) ++ code ' ' :: textOr db.protocol protocol10) := by
    rw [commandText, List.append_assoc]
    rfl
  rw [HttpReader.parseCommand, htext, (takeWhile_blank h.commandWord).2]
  dsimp only
  rw [(takeWhile_blank h.urlWord).2]
  dsimp only
  rw [if_neg h.named]
  exact ⟨_, rfl, CString.ofBytes_bytes (textOr_nul_free (by decide))⟩

theorem isDigit_of_mem_printInt {i : Int32} (hi : 0 ≤ i.toInt) :
    ∀ c ∈ printInt i, isDigit c = true := by
  intro c hc
  rw [printInt] at hc
  split at hc
  · rw [List.mem_singleton.mp hc]
    decide
  · rw [if_neg (by omega)] at hc
    exact isDigit_of_mem_decimalDigits hc

theorem HttpReader.parseStatus_statusText {db : StatusDb} (h : db.Plain) {i : Int32}
    (hi : 0 ≤ i.toInt) (r : HttpReader) :
    ∃ db', r.parseStatus (statusText db i) = (0, { r with dbStatusIn := db' }) ∧
      textOr db'.protocol protocol10 = textOr db.protocol protocol10 := by
  have htext : statusText db i = textOr db.protocol protocol10 ++ code ' ' ::
      (printInt i ++ code ' ' :: textOr db.text (ascii ['N', 'o', ' ', 't', 'e', 'x', 't', '.'])) := by
    rw [statusText, List.append_assoc]
    rfl
  rw [HttpReader.parseStatus, htext, (takeWhile_blank h.protocolWord).1,
    (takeWhile_blank h.protocolWord).2]
  dsimp only
  rw [List.takeWhile_append_of_pos (isDigit_of_mem_printInt hi),
    List.takeWhile_cons_of_neg (by decide), List.append_nil, scanInt_printInt]
  exact ⟨_, rfl, CString.ofBytes_bytes (textOr_nul_free (by decide))⟩

theorem HttpReader.readCommand_spec {db : CommandDb} (h : db.Plain)
    (hroom : ∀ n, 2 ≤ room n) (hs : r.base.base.Steady)
    (hrest : Rest r.base (commandText db ++ (crlf ++ tl))) :
    ∃ base' db', r.readCommand room = some (0, { r with base := base', dbCommandIn := db' }) ∧
      textOr db'.protocol protocol10 = textOr db.protocol protocol10 ∧ Rest base' tl ∧
      base'.base.results = r.base.base.results := by
  obtain ⟨base', hrun, hrest', hres⟩ := readLine_spec hroom h.inLine.1 hs hrest
  obtain ⟨db', hparse, hprotocol⟩ := parseCommand_commandText h { r with base := base' }
  refine ⟨base', db', ?_, hprotocol, hrest', hres⟩
  rw [HttpReader.readCommand, hrun, Option.map_some]
  dsimp only
  rw [if_neg (by decide), ofBytes_concat_nul h.inLine.2, hparse]

theorem HttpReader.readStatus_spec {db : StatusDb} (h : db.Plain) {i : Int32}
    (hi : 0 ≤ i.toInt) (hroom : ∀ n, 2 ≤ room n) (hs : r.base.base.Steady)
    (hrest : Rest r.base (statusText db i ++ (crlf ++ tl))) :
    ∃ base' db', r.readStatus room = some (0, { r with base := base', dbStatusIn := db' }) ∧
      textOr db'.protocol protocol10 = textOr db.protocol protocol10 ∧ Rest base' tl ∧
      base'.base.results = r.base.base.results := by
  obtain ⟨base', hrun, hrest', hres⟩ := readLine_spec hroom (h.inLine i).1 hs hrest
  obtain ⟨db', hparse, hprotocol⟩ := parseStatus_statusText h hi { r with base := base' }
  have hne : statusText db i ≠ [] := by
    rw [statusText]
    simp
  refine ⟨base', db', ?_, hprotocol, hrest', hres⟩
  rw [HttpReader.readStatus, hrun, Option.map_some]
  dsimp only
  rw [if_neg (by decide), ofBytes_concat_nul (h.inLine i).2, if_neg hne, hparse]

/-! ### The header -/

def PlainHeader (vars : List HeaderVar) : Prop :=
  ∀ v ∈ vars, v.Plain ∧ sameName v.name.bytes transferEncoding = false

def headerBytes (vars : List HeaderVar) : List UInt8 :=
  linesText crlf (vars.filterMap HeaderVar.line)

theorem nul_free_linesText (h : ∀ l ∈ ls, 0 ∉ l) : 0 ∉ linesText [10] ls := by
  rw [linesText, List.mem_append, List.mem_flatMap, not_or]
  refine ⟨fun hlines => ?_, by decide⟩
  obtain ⟨l, hl, hmem⟩ := hlines
  rcases List.mem_append.mp hmem with hmem | hmem
  · exact h l hl hmem
  · exact absurd hmem (by decide)

/-- A header that was written tells the size of the body. -/
theorem HttpReader.readHeader_spec {vars : List HeaderVar} {n : Int32}
    (hvars : PlainHeader vars) (hn : getIntValue vars contentLength (-1) = n) (hn0 : 0 ≤ n.toInt)
    (hs : r.base.base.Steady) (hrest : Rest r.base (headerBytes vars ++ tl)) :
    ∃ base', r.readHeader = some (0, { r with
        base := base'
        dbHeaderIn := vars.filterMap HeaderVar.stored
        readMode := if n.toInt = 0 then .idle else .body
        currentReadBodySize := n.toInt }) ∧
      Rest base' tl ∧ base'.base.results = r.base.base.results := by
  have hplain := fun v hv => (hvars v hv).1
  have hne : n ≠ -1 := by
    rintro rfl
    exact absurd hn0 (by decide)
  have hlines : ∀ l ∈ vars.filterMap HeaderVar.line, (InLine l ∧ l ≠ []) ∧ 0 ∉ l := by
    intro l hl
    obtain ⟨v, hv, hline⟩ := List.mem_filterMap.mp hl
    have hclean := fun c => @not_mem_line v l (hplain v hv) hline c
    exact ⟨⟨⟨hclean 10 (by decide), hclean 13 (by decide)⟩, (isLine_line (hplain v hv) hline).2.1⟩,
      hclean 0 (by decide)⟩
  obtain ⟨base', hrun, hrest', hres⟩ := readHeaderLoop_linesText (rounds r.base)
    [] 0 (fun l hl => (hlines l hl).1)
    (by rw [rounds_eq hrest, List.length_append, headerBytes]; omega) hs hrest
  refine ⟨base', ?_, hrest', hres⟩
  rw [List.length_nil, List.nil_append] at hrun
  rw [HttpReader.readHeader, hrun, Option.bind_some]
  dsimp only
  rw [if_neg (by decide), if_neg (by omega),
    CString.ofBytes_bytes (nul_free_linesText fun l hl => (hlines l hl).2), HttpReader.parseHeader,
    parseHeaderText_headerText hplain, Option.map_some]
  dsimp only
  rw [if_pos rfl, getCharValue_stored fun v hv => (hvars v hv).2, getIntValue_stored hne hn,
    Option.map_none, Option.getD_none]
  by_cases h0 : n.toInt = 0
  · rw [if_pos (Or.inl h0), if_pos h0]
    rfl
  · rw [if_neg (by omega), if_neg h0]
    rfl

/-! ### The body -/

/-- The rest of a body is to be read; when there is none the reader is idle. -/
structure HttpReader.Receiving (r : HttpReader) (body tl : List UInt8) : Prop where
  connected : r.connected = true
  steady : r.base.base.Steady
  rest : Rest r.base (body ++ tl)
  mode : r.readMode = if body = [] then .idle else .body
  size : body ≠ [] → r.currentReadBodySize = body.length
  fits : body.length < 2 ^ 31

theorem intOf32_of_lt {n : ℕ} (h : n < 2 ^ 31) : intOf32 n = n := by
  rw [intOf32, intOfDiff32_of_le (Nat.zero_le n) (by omega), Nat.sub_zero]

/-- A read takes a part of the body. -/
theorem HttpReader.readContent_body (room : ℕ → ℕ) {body : List UInt8} (h : r.Receiving body tl)
    (hne : body ≠ []) {size : ℕ} (hpos : 0 < size) (hsize : size < 2 ^ 31) :
    ∃ piece body' r', body = piece ++ body' ∧ piece ≠ [] ∧
      r.readContent room size = some (⟨piece.length, piece⟩, r') ∧ r'.Receiving body' tl ∧
      r'.passive = r.passive := by
  have hlen := List.length_pos_iff.mpr hne
  have hfits := h.fits
  have hmode : r.readMode = .body := h.mode.trans (if_neg hne)
  have hcurrent := h.size hne
  generalize hsize' : r.bodyRequest size = size'
  have hle : 0 < size' ∧ size' ≤ body.length := by
    rw [HttpReader.bodyRequest, hcurrent, intOf32_of_lt hsize] at hsize'
    split at hsize' <;> omega
  obtain ⟨out, base', rest, hrun, hrest, hcut, hcount, hroom, hend, hres, hrv⟩ :=
    read_transparent_spec hle.1 h.rest
  have hnonneg := hrv h.steady
  have hcount : out.rv = out.buffer.length := hcount.resolve_right fun hneg => by omega
  obtain ⟨body', hbody⟩ : out.buffer <+: body :=
    List.prefix_of_prefix_length_le ⟨rest, hcut.symm⟩ (List.prefix_append body tl) (by omega)
  have hrest' : rest = body' ++ tl := by
    rw [← hbody, List.append_assoc] at hcut
    exact (List.append_cancel_left hcut).symm
  have hpiece : out.buffer ≠ [] := by
    intro hnil
    have hnone := hend (by rw [hcount, hnil]; rfl)
    rw [hnil, List.nil_append] at hbody
    rw [hrest', hbody] at hnone
    exact hne (List.append_eq_nil_iff.mp hnone).1
  have hsum := congrArg List.length hbody
  rw [List.length_append] at hsum
  have hpiecelen := List.length_pos_iff.mpr hpiece
  have hleft : (if 0 ≤ r.currentReadBodySize then r.currentReadBodySize - out.rv
      else r.currentReadBodySize) = body'.length := by
    rw [if_pos (by omega)]
    omega
  have hread : ∃ r', r.readBody size = some (out, r') ∧ r'.Receiving body' tl ∧
      r'.passive = r.passive := by
    rw [HttpReader.readBody, if_neg (by omega), hsize']
    dsimp only
    rw [hrun, Option.map_some]
    dsimp only
    rw [if_neg (by omega), hleft]
    by_cases hnil : body' = []
    · rw [if_pos (by rw [hnil]; rfl)]
      refine ⟨_, rfl, ⟨h.connected, steady_congr h.steady hres, hrest' ▸ hrest, ?_,
        fun hne => absurd hnil hne, by omega⟩, rfl⟩
      rw [if_pos hnil]
      rfl
    · have hpos' := List.length_pos_iff.mpr hnil
      rw [if_neg (by omega)]
      exact ⟨_, rfl, ⟨h.connected, steady_congr h.steady hres, hrest' ▸ hrest,
        hmode.trans (if_neg hnil).symm, fun _ => rfl, by omega⟩, rfl⟩
  obtain ⟨r', hrun', hreceiving, hpassive⟩ := hread
  refine ⟨out.buffer, body', r', hbody.symm, hpiece, ?_, hreceiving, hpassive⟩
  rw [HttpReader.readContent, hmode]
  dsimp only
  rw [hrun', Option.map_some, HttpReader.failed, if_neg (by dsimp only; omega)]
  rw [show out = ⟨out.buffer.length, out.buffer⟩ by rw [← hcount]]

end
end Gwenhywfar.Http
