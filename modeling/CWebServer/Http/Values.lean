/-
CWebServer.Http.Values — the header table of a CRLF request.

Under CRLF the blank line is a line to `strtok`, so the header section ends
where its sender ended it and the body cannot add to the table. With parts
that fit, the table holds the fields in order, and is returned if there is
a line of body to print (`fieldsKept_iff`).

A value is another matter. `%s` takes its first word, and takes nothing of
a value without one or of a line with no name, which leaves the slot to
whatever the buffer held. The value of a line is kept whole exactly when
the line has a name and the value, trimmed, is one word
(`valuesKept_iff`). Colons do no harm, since only the first ends the name.

No `sorry`, no `axiom`, no `native_decide`.
-/
import CWebServer.Http.RequestTheorems
import Mathlib.Data.List.DropRight

namespace CWebServer.Http

open Libc

/-! ## Fields with one-word values -/

/-- The header line `name: value`. -/
def spacedField (name : FieldName) (value : FieldValue) : Field where
  name
  value :=
    { chars := ' ' :: value.chars
      cr_not_mem := by simp [value.cr_not_mem]
      lf_not_mem := by simp [value.lf_not_mem]
      nul_not_mem := by
        rw [List.mem_cons, not_or]
        exact ⟨by decide, value.nul_not_mem⟩ }

theorem firstWord_length_le (s : List Char) : (firstWord s).length ≤ s.length :=
  (List.takeWhile_prefix _).length_le.trans (List.dropWhile_suffix _).length_le

/-- A word is its own first word. -/
theorem firstWord_word {w : List Char} (hne : w ≠ []) (hw : ∀ c ∈ w, isspace c = false) :
    firstWord w = w := by
  have h := (firstWord_append [] hne hw nofun).1
  rwa [List.append_nil] at h

section

variable {abi : Abi} (locals : Locals abi)

theorem getElem?_slots (i j : Nat) (fs : List Field) :
    (slots locals i fs)[j]? = fs[j]?.map (slot (locals.value (i + j)).chars) := by
  induction fs generalizing i j with
  | nil => rfl
  | cons f fs ih =>
    cases j with
    | zero => rfl
    | succ j =>
      rw [slots, List.getElem?_cons_succ, List.getElem?_cons_succ, ih (i + 1) j,
        show i + 1 + j = i + (j + 1) by omega]

theorem map_fst_slots (i : Nat) (fs : List Field) :
    (slots locals i fs).map Prod.fst =
      fs.map fun f => f.name.chars.take maxHeaderNameLength := by
  induction fs generalizing i with
  | nil => rfl
  | cons f fs ih =>
    rw [slots, List.map_cons, ih (i + 1)]
    rfl

end

/-- The CRLF request with these words, these fields and this body. -/
def fieldsText (method path version : Word) (fields : List (FieldName × FieldValue))
    (body : List Char) : List Char :=
  Head.text .crlf ⟨method, path, version, fields.map fun f => spacedField f.1 f.2⟩ ++ body

/-- Whatever the locals hold, `parseHttp` returns the three words, one
header for each field, the names in order, and each value that is one
word. -/
def FieldsKept (abi : Abi) (method path version : Word)
    (fields : List (FieldName × FieldValue)) (body : List Char) : Prop :=
  ∀ locals : Locals abi, ∃ request,
    parseHttp locals (fieldsText method path version fields body) = .ok request ∧
    request.method.str = method.chars ∧ request.path.str = path.chars ∧
    request.version.str = version.chars ∧ request.headers.count = fields.length ∧
    request.headers.list.map Prod.fst = fields.map (fun f => f.1.chars) ∧
    ∀ (i : Nat) (f), fields[i]? = some f → f.2.chars ≠ [] → (∀ c ∈ f.2.chars, isspace c = false) →
      request.headers.list[i]?.map Prod.snd = some f.2.chars

/-- **CRLF requests**: what fits is returned as it stands exactly when a
line of the body is copied, for `parseHttp` prints the body first. -/
theorem fieldsKept_iff (abi : Abi) (method path version : Word)
    (fields : List (FieldName × FieldValue)) (body : List Char)
    (hmethod : method.chars.length < 16) (hpath : path.chars.length < 256)
    (hversion : version.chars.length < 16) (hcount : fields.length ≤ 50)
    (hnames : ∀ f ∈ fields, f.1.chars.length ≤ 127)
    (hvalues : ∀ f ∈ fields, f.2.chars.length ≤ 255)
    (hnul : nul ∉ body) (hbody : LinesFit abi (strtokPieces '\n' body)) :
    FieldsKept abi method path version fields body ↔
      copiedLines (strtokPieces '\n' body) ≠ [] := by
  constructor
  · intro h
    obtain ⟨request, hparse, -⟩ := h (.fill abi 'a')
    exact copiedLines_of_parseHttp_crlf hnul hparse
  · intro hcopied locals
    let head : Head := ⟨method, path, version, fields.map fun f => spacedField f.1 f.2⟩
    have hfits : head.Fits abi := by
      refine ⟨⟨hmethod, hpath, hversion⟩, fun f hf => ?_, by simpa [head] using hcount⟩
      obtain ⟨p, hp, rfl⟩ := List.mem_map.mp hf
      have hname : p.1.chars.length < maxHeaderNameLength := Nat.lt_succ_of_le (hnames p hp)
      have hvalue : p.2.chars.length < maxHeaderValueLength := Nat.lt_succ_of_le (hvalues p hp)
      refine ⟨hname.trans_le (Nat.le_mul_of_pos_right _ abi.sizeofPtr_pos), ?_⟩
      change (firstWord (' ' :: p.2.chars)).length < _
      rw [firstWord_cons_space (by decide)]
      exact ((firstWord_length_le p.2.chars).trans_lt hvalue).trans_le
        (Nat.le_mul_of_pos_right _ abi.sizeofPtr_pos)
    obtain ⟨request, hparse⟩ := parseHttp_crlf_ok locals hnul hfits hbody hcopied
    obtain ⟨-, hrequestCount, hview⟩ := of_parseHttp_crlf locals head hnul hparse
    have hlist : request.headers.list = slots locals 0 head.fields :=
      congrArg RequestView.headers hview
    refine ⟨request, hparse, congrArg RequestView.method hview, congrArg RequestView.path hview,
      congrArg RequestView.version hview, by simpa [head] using hrequestCount, ?_, ?_⟩
    · rw [hlist, map_fst_slots, List.map_map]
      refine List.map_congr_left fun p hp => ?_
      exact List.take_of_length_le ((hnames p hp).trans (by decide))
    · intro i p hp hne hword
      have hvalue := hvalues p (List.mem_of_getElem? hp)
      have hfirst : firstWord (spacedField p.1 p.2).value.chars = p.2.chars :=
        (firstWord_cons_space (by decide) _).trans (firstWord_word hne hword)
      have htake : p.2.chars.take maxHeaderValueLength = p.2.chars :=
        List.take_of_length_le (hvalue.trans (by decide))
      simp only [hlist, getElem?_slots, head, List.getElem?_map, hp, Option.map_some, slot, hfirst,
        if_neg hne, htake]

/-- The words of `GET / H1`. -/
def wordGet : Word := ⟨['G', 'E', 'T'], by decide, by decide, by decide⟩

def wordRoot : Word := ⟨['/'], by decide, by decide, by decide⟩

def wordH1 : Word := ⟨['H', '1'], by decide, by decide, by decide⟩

/-- `Host: a:8` with a body that looks like a header. -/
theorem fieldsKept_iff_host :
    let abi : Abi := ⟨4, by decide⟩
    let name : FieldName := ⟨['H', 'o', 's', 't'], by simp, by simp, by simp, by simp, by decide⟩
    let value : FieldValue := ⟨['a', ':', '8'], by simp, by simp, by decide⟩
    FieldsKept abi wordGet wordRoot wordH1 [(name, value)] ['X', ':', 'y'] := by
  intro abi name value
  have hpieces : strtokPieces '\n' ['X', ':', 'y'] = [['X', ':', 'y']] := by decide +kernel
  have hbody : LinesFit abi (strtokPieces '\n' ['X', ':', 'y']) := by
    rw [hpieces]
    intro l hl _
    rw [List.mem_singleton] at hl
    subst hl
    decide
  exact (fieldsKept_iff abi wordGet wordRoot wordH1 [(name, value)] ['X', ':', 'y'] (by decide)
    (by decide) (by decide) (by simp) (by simp [name]) (by simp [value]) (by decide) hbody).mpr
    (by rw [hpieces]; decide)

/-- The same request without a body: `printf` reads on behind `body`. -/
theorem no_body_overruns :
    let abi : Abi := ⟨4, by decide⟩
    let name : FieldName := ⟨['H', 'o', 's', 't'], by simp, by simp, by simp, by simp, by decide⟩
    let value : FieldValue := ⟨['a', ':', '8'], by simp, by simp, by decide⟩
    fieldsText wordGet wordRoot wordH1 [(name, value)] [] =
        "GET / H1\r\nHost: a:8\r\n\r\n".toList ∧
      parseHttp (.fill abi 'a') (fieldsText wordGet wordRoot wordH1 [(name, value)] []) =
        .error (.outOfBounds 4096) ∧
      ¬ FieldsKept abi wordGet wordRoot wordH1 [(name, value)] [] := by
  intro abi name value
  have hparse : parseHttp (.fill abi 'a') (fieldsText wordGet wordRoot wordH1 [(name, value)] []) =
      .error (.outOfBounds 4096) := by decide +kernel
  refine ⟨by decide +kernel, hparse, fun h => ?_⟩
  obtain ⟨request, hreturned, -⟩ := h (.fill abi 'a')
  rw [hparse] at hreturned
  cases hreturned

/-! ## Whole values -/

/-- A header line `name:value` as it comes; the name may be empty. -/
structure RawField where
  name : List Char
  value : List Char
  colon_not_mem : ':' ∉ name
  lf_not_mem : '\n' ∉ name ∧ '\n' ∉ value
  cr_not_mem : '\r' ∉ name ∧ '\r' ∉ value
  nul_not_mem : nul ∉ name ∧ nul ∉ value

def RawField.line (f : RawField) : List Char := f.name ++ ':' :: f.value

/-- A CRLF request with such lines. -/
structure RawRequest where
  method : Word
  path : Word
  version : Word
  fields : List RawField
  body : List Char
  nul_not_mem_body : nul ∉ body

/-- Its head without the header lines. -/
def RawRequest.start (m : RawRequest) : Head := ⟨m.method, m.path, m.version, []⟩

def RawRequest.text (m : RawRequest) : List Char :=
  terminated .crlf (m.start.requestLine :: (m.fields.map RawField.line ++ [[]])) ++ m.body

/-- The text without the whitespace it begins and ends with. -/
def trim (s : List Char) : List Char := (s.dropWhile isspace).rdropWhile isspace

/-- One word and nothing else. -/
def IsWord (s : List Char) : Prop := s ≠ [] ∧ ∀ c ∈ s, isspace c = false

/-- The recorded value of every header line is its whole value. -/
def ValuesKept (abi : Abi) (m : RawRequest) : Prop :=
  ∀ locals : Locals abi, ∃ request, parseHttp locals m.text = .ok request ∧
    request.headers.list.map Prod.snd = m.fields.map fun f => trim f.value

/-- A value that is one word but for the whitespace around it is read
whole. -/
theorem firstWord_eq_trim {s : List Char} (h : IsWord (trim s)) : firstWord s = trim s := by
  have hsplit : trim s ++ (s.dropWhile isspace).rtakeWhile isspace = s.dropWhile isspace :=
    List.rdropWhile_append_rtakeWhile
  have hspace : ∀ c ∈ ((s.dropWhile isspace).rtakeWhile isspace).head?, isspace c = true :=
    fun c hc => List.mem_rtakeWhile_imp (List.mem_of_mem_head? hc)
  have hskip : firstWord (s.dropWhile isspace) = firstWord s := by
    unfold firstWord
    rw [List.dropWhile_idempotent]
  rw [← hskip, ← hsplit]
  exact (firstWord_append _ h.1 h.2 hspace).1

theorem isWord_firstWord {s : List Char} (h : firstWord s ≠ []) : IsWord (firstWord s) :=
  ⟨h, fun c hc => by simpa using List.mem_takeWhile_imp hc⟩

/-! ## Its lines -/

theorem RawField.nul_not_mem_line (f : RawField) : nul ∉ f.line ++ LineEnd.crlf.tail := by
  simp only [line, List.mem_append, List.mem_cons, not_or]
  exact ⟨⟨f.nul_not_mem.1, by decide, f.nul_not_mem.2⟩, by decide⟩

theorem RawField.not_isBlankLine (f : RawField) : ¬ IsBlankLine (f.line ++ LineEnd.crlf.tail) := by
  intro h
  have hlen := h.1
  rw [strlen_of_not_mem f.nul_not_mem_line] at hlen
  simp only [line, List.length_append, List.length_cons] at hlen
  change f.name.length + (f.value.length + 1) + 1 = 1 at hlen
  omega

/-- The conversions of a line. -/
theorem RawField.headerWords_line (f : RawField) :
    headerWords (f.line ++ LineEnd.crlf.tail) =
      if f.name = [] then []
      else f.name :: if firstWord f.value = [] then [] else [firstWord f.value] := by
  have hline : f.line ++ LineEnd.crlf.tail = f.name ++ ':' :: (f.value ++ ['\r']) := by
    simp [line, LineEnd.tail]
  rw [hline, headerWords]
  by_cases hname : f.name = []
  · rw [if_pos hname, hname]
    rfl
  · rw [if_neg hname, sscanf_field hname f.colon_not_mem, firstWord_append_space (by decide)]

/-- The pieces of the text: the request line, the header lines, the blank
line and the body's. -/
theorem RawRequest.strtokPieces_text (m : RawRequest) :
    strtokPieces '\n' (cstr m.text) =
      (m.start.requestLine ++ LineEnd.crlf.tail) ::
        (m.fields.map (fun f => f.line ++ LineEnd.crlf.tail) ++
          ['\r'] :: strtokPieces '\n' m.body) := by
  have hmem : ∀ l ∈ m.start.requestLine :: (m.fields.map RawField.line ++ [[]]),
      '\n' ∉ l ∧ nul ∉ l := by
    intro l hl
    simp only [List.mem_cons, List.mem_append, List.mem_map, List.not_mem_nil, or_false] at hl
    rcases hl with rfl | ⟨f, -, rfl⟩ | rfl
    · exact ⟨m.start.lf_not_mem_lines _ (by simp [Head.lines]),
        m.start.nul_not_mem_lines _ (by simp [Head.lines])⟩
    · refine ⟨by simp [RawField.line, f.lf_not_mem], fun h => f.nul_not_mem_line ?_⟩
      exact List.mem_append_left _ h
    · simp
  have hnul : nul ∉ m.text := by
    rw [text, List.mem_append, not_or]
    exact ⟨nul_not_mem_terminated .crlf fun l hl => (hmem l hl).2, m.nul_not_mem_body⟩
  have hfilter : ∀ lines : List (List Char),
      (lines.map (· ++ LineEnd.crlf.tail)).filter (· ≠ []) =
        lines.map (· ++ LineEnd.crlf.tail) := by
    intro lines
    refine List.filter_eq_self.mpr fun l hl => ?_
    obtain ⟨k, -, rfl⟩ := List.mem_map.mp hl
    simp [LineEnd.tail]
  rw [cstr_of_not_mem hnul, text, strtokPieces_terminated .crlf m.body fun l hl => (hmem l hl).1,
    hfilter]
  simp [LineEnd.tail]

theorem RawRequest.headerLines_text (m : RawRequest) :
    headerLines (m.fields.map (fun f => f.line ++ LineEnd.crlf.tail) ++
        ['\r'] :: strtokPieces '\n' m.body) =
      m.fields.map (fun f => f.line ++ LineEnd.crlf.tail) ∧
    bodyLines (m.fields.map (fun f => f.line ++ LineEnd.crlf.tail) ++
        ['\r'] :: strtokPieces '\n' m.body) = ['\r'] :: strtokPieces '\n' m.body := by
  refine headerLines_append_blank (fun l hl => ?_) isBlankLine_cr (strtokPieces '\n' m.body)
  obtain ⟨f, -, rfl⟩ := List.mem_map.mp hl
  exact f.not_isBlankLine

/-- The text fits when its parts do. -/
theorem RawRequest.textFits_iff (abi : Abi) (m : RawRequest) :
    TextFits abi (m.start.requestLine ++ LineEnd.crlf.tail)
        (m.fields.map (fun f => f.line ++ LineEnd.crlf.tail) ++
          ['\r'] :: strtokPieces '\n' m.body) ↔
      m.start.WordsFit ∧ (∀ f ∈ m.fields, HeaderWordsFit abi (f.line ++ LineEnd.crlf.tail)) ∧
        m.fields.length ≤ 50 ∧ LinesFit abi (strtokPieces '\n' m.body) := by
  obtain ⟨hheaders, hbody⟩ := m.headerLines_text
  have hlines : LinesFit abi (['\r'] :: strtokPieces '\n' m.body) ↔
      LinesFit abi (strtokPieces '\n' m.body) := linesFit_blank isBlankLine_cr
  constructor
  · intro h
    obtain ⟨hwords, hfits, hcount, hrest⟩ := h
    rw [hheaders] at hfits hcount
    rw [hbody] at hrest
    rw [List.length_map] at hcount
    exact ⟨(requestWordsFit_iff _ _).mp hwords,
      fun f hf => hfits _ (List.mem_map_of_mem hf), hcount, hlines.mp hrest⟩
  · intro h
    obtain ⟨hwords, hfits, hcount, hrest⟩ := h
    refine ⟨(requestWordsFit_iff _ _).mpr hwords, ?_, ?_, ?_⟩
    · rw [hheaders]
      intro l hl
      obtain ⟨f, hf, rfl⟩ := List.mem_map.mp hl
      exact hfits f hf
    · rwa [hheaders, List.length_map]
    · rw [hbody]
      exact hlines.mpr hrest

/-! ## Recorded values -/

/-- The value that is recorded of a line; `value` is what the buffer held. -/
theorem RawField.value_lineEntry (f : RawField) (header value : List Char) :
    (lineEntry header value (f.line ++ LineEnd.crlf.tail)).value.str =
      (if f.name = [] ∨ firstWord f.value = [] then cstr value else firstWord f.value).take
        maxHeaderValueLength := by
  have hword : cstr (firstWord f.value) = firstWord f.value :=
    cstr_of_not_mem fun hmem => f.nul_not_mem.2 (mem_of_mem_firstWord hmem)
  simp only [lineEntry, f.headerWords_line, strncpy_str]
  by_cases hname : f.name = []
  · simp [hname]
  · by_cases hempty : firstWord f.value = []
    · simp [hname, hempty]
    · simp [hname, hempty, hword]

/-- A line whose value is recorded whole from a buffer without a NUL. -/
theorem RawField.isWord_of_kept {n : Nat} {f : RawField} {header : List Char}
    (hfit : (trim f.value).length < maxHeaderValueLength) (hn : maxHeaderValueLength ≤ n)
    (h : (lineEntry header (List.replicate n 'a') (f.line ++ LineEnd.crlf.tail)).value.str =
      trim f.value) : f.name ≠ [] ∧ IsWord (trim f.value) := by
  have hlen := congrArg List.length h
  rw [f.value_lineEntry, List.length_take] at hlen
  have hkept : ¬ (f.name = [] ∨ firstWord f.value = []) := by
    intro hstale
    rw [if_pos hstale, cstr_replicate (by decide), List.length_replicate] at hlen
    omega
  rw [if_neg hkept] at hlen
  rw [f.value_lineEntry, if_neg hkept, List.take_of_length_le (by omega)] at h
  obtain ⟨hname, hword⟩ := not_or.mp hkept
  exact ⟨hname, h ▸ isWord_firstWord hword⟩

theorem RawField.value_kept {f : RawField} (hname : f.name ≠ []) (hword : IsWord (trim f.value))
    (hfit : (trim f.value).length < maxHeaderValueLength) (header value : List Char) :
    (lineEntry header value (f.line ++ LineEnd.crlf.tail)).value.str = trim f.value := by
  have hfirst := firstWord_eq_trim hword
  have hne : firstWord f.value ≠ [] := hfirst ▸ hword.1
  rw [f.value_lineEntry, if_neg (not_or.mpr ⟨hname, hne⟩), hfirst,
    List.take_of_length_le hfit.le]

theorem RawField.headerWordsFit {f : RawField} (abi : Abi)
    (hname : f.name.length < maxHeaderNameLength) (hword : IsWord (trim f.value))
    (hfit : (trim f.value).length < maxHeaderValueLength) :
    HeaderWordsFit abi (f.line ++ LineEnd.crlf.tail) := by
  have hfirst := firstWord_eq_trim hword
  have hroom : f.name.length < maxHeaderNameLength * abi.sizeofPtr :=
    hname.trans_le (Nat.le_mul_of_pos_right _ abi.sizeofPtr_pos)
  have hroom' : (trim f.value).length < maxHeaderValueLength * abi.sizeofPtr :=
    hfit.trans_le (Nat.le_mul_of_pos_right _ abi.sizeofPtr_pos)
  by_cases hempty : f.name = []
  · refine ⟨?_, ?_⟩ <;> rw [f.headerWords_line, if_pos hempty] <;> exact nofun
  · refine ⟨?_, ?_⟩ <;> rw [f.headerWords_line, if_neg hempty, hfirst, if_neg hword.1]
    · exact conversionFits_some.mpr hroom
    · exact conversionFits_some.mpr hroom'

/-- **Header values**: of lines whose parts fit the table, every value is
kept whole exactly when the rest of the text fits too and has a line of
body to print, each line has a name, and each value is one word but for the
whitespace around it. -/
theorem valuesKept_iff (abi : Abi) (m : RawRequest) (hcount : m.fields.length ≤ 50)
    (hnames : ∀ f ∈ m.fields, f.name.length < maxHeaderNameLength)
    (hvalues : ∀ f ∈ m.fields, (trim f.value).length < maxHeaderValueLength) :
    ValuesKept abi m ↔
      m.start.WordsFit ∧ LinesFit abi (strtokPieces '\n' m.body) ∧
        copiedLines (strtokPieces '\n' m.body) ≠ [] ∧
        ∀ f ∈ m.fields, f.name ≠ [] ∧ IsWord (trim f.value) := by
  obtain ⟨hheaders, hbehind⟩ := m.headerLines_text
  constructor
  · intro h
    obtain ⟨request, hparse, hkept⟩ := h (.fill abi 'a')
    obtain ⟨hfit, hreads⟩ := of_parseHttp _ m.strtokPieces_text hparse
    obtain ⟨hwords, -, -, hbody⟩ := (m.textFits_iff abi).mp hfit
    rw [HttpHeaders.list_eq, hreads.entries, hheaders, lineEntries_fill] at hkept
    simp only [List.map_map, List.map_inj_left, Function.comp_def] at hkept
    have hlong := Nat.le_mul_of_pos_right maxHeaderValueLength abi.sizeofPtr_pos
    have hcopied := copiedLines_of_parseHttp m.strtokPieces_text hparse
    rw [hbehind, copiedLines_blank isBlankLine_cr] at hcopied
    exact ⟨hwords, hbody, hcopied, fun f hf => f.isWord_of_kept (hvalues f hf) hlong (hkept f hf)⟩
  · intro h locals
    obtain ⟨hwords, hbody, hcopied, hone⟩ := h
    have hfits : ∀ f ∈ m.fields, HeaderWordsFit abi (f.line ++ LineEnd.crlf.tail) :=
      fun f hf => f.headerWordsFit abi (hnames f hf) (hone f hf).2 (hvalues f hf)
    obtain ⟨request, hparse⟩ := parseHttp_ok locals m.strtokPieces_text
      ((m.textFits_iff abi).mpr ⟨hwords, hfits, hcount, hbody⟩)
      (by rwa [hbehind, copiedLines_blank isBlankLine_cr])
    obtain ⟨-, hreads⟩ := of_parseHttp locals m.strtokPieces_text hparse
    refine ⟨request, hparse, ?_⟩
    rw [HttpHeaders.list_eq, hreads.entries, hheaders, List.map_map]
    exact map_lineEntries locals _ 0 fun f hf header value =>
      RawField.value_kept (hone f hf).1 (hone f hf).2 (hvalues f hf) header value

/-- `Host:a` and `Accept:b;c`, with space around the values, and a body. -/
theorem valuesKept_iff_host :
    let abi : Abi := ⟨4, by decide⟩
    let m : RawRequest :=
      { method := wordGet
        path := wordRoot
        version := wordH1
        fields :=
          [⟨['H', 'o', 's', 't'], [' ', 'a', ' '], by decide, by decide, by decide, by decide⟩,
            ⟨"Accept".toList, "\tb;c".toList, by decide, by decide, by decide, by decide⟩]
        body := ['x', '=', '1']
        nul_not_mem_body := by decide }
    ValuesKept abi m := by
  intro abi m
  have hpieces : strtokPieces '\n' m.body = [['x', '=', '1']] := by decide +kernel
  have hfields : ∀ f ∈ m.fields, f.name.length < maxHeaderNameLength ∧
      (trim f.value).length < maxHeaderValueLength ∧ f.name ≠ [] ∧ IsWord (trim f.value) := by
    simp only [m, List.forall_mem_cons]
    refine ⟨?_, ?_, fun f hf => absurd hf List.not_mem_nil⟩ <;>
      exact ⟨by decide +kernel, by decide +kernel, by decide +kernel, by decide +kernel,
        by decide +kernel⟩
  refine (valuesKept_iff abi m (by decide) (fun f hf => (hfields f hf).1)
    fun f hf => (hfields f hf).2.1).mpr ⟨⟨by decide, by decide, by decide⟩, ?_, ?_,
      fun f hf => (hfields f hf).2.2⟩
  · rw [hpieces]
    intro l hl _
    obtain rfl := List.mem_singleton.mp hl
    decide
  · rw [hpieces]
    decide

/-- Of `User-Agent: a b` the second word is lost. -/
theorem inner_space_cuts_value :
    let abi : Abi := ⟨4, by decide⟩
    let m : RawRequest :=
      { method := wordGet
        path := wordRoot
        version := wordH1
        fields := [⟨"User-Agent".toList, " a b".toList, by decide, by decide, by decide,
          by decide⟩]
        body := []
        nul_not_mem_body := by decide }
    m.text = "GET / H1\r\nUser-Agent: a b\r\n\r\n".toList ∧
      (parseHttp (.fill abi nul) m.text).map (fun r => r.headers.list) =
        .ok [("User-Agent".toList, "a".toList)] ∧
      m.fields.map (fun f => trim f.value) = ["a b".toList] ∧
      ¬ ValuesKept abi m := by
  intro abi m
  have hshown : (parseHttp (.fill abi nul) m.text).map (fun r => r.headers.list) =
      .ok [("User-Agent".toList, "a".toList)] := by decide +kernel
  have hvalues : m.fields.map (fun f => trim f.value) = ["a b".toList] := by decide +kernel
  refine ⟨by decide +kernel, hshown, hvalues, fun h => ?_⟩
  obtain ⟨request, hparse, hkept⟩ := h (.fill abi nul)
  rw [hparse] at hshown
  have hlist : request.headers.list = _ := Except.ok.inj hshown
  rw [hlist, hvalues] at hkept
  exact absurd hkept (by decide)

end CWebServer.Http
