/-
CWebServer.Http.RequestTheorems — what `parseHttp` makes of a head and of
what follows it.

The pieces of a head give the request line and one slot for each field, as
long as every word fits its buffer and there are at most fifty fields, and
fault otherwise (`parseHead_ok`, `of_parseHead`). Behind the blank line
nothing but `body` changes.

A field whose value holds no word converts nothing into `value`, so its
slot shows what the buffer held before (`slot`).

No `sorry`, no `axiom`, no `native_decide`.
-/
import CWebServer.Http.Body
import CWebServer.Http.Message

namespace CWebServer.Http

open Libc

/-! ## The request line -/

/-- The three words fit their arrays. -/
structure Head.WordsFit (h : Head) : Prop where
  method : h.method.chars.length < 16
  path : h.path.chars.length < 256
  version : h.version.chars.length < 16

theorem requestWords_requestLine (h : Head) (e : LineEnd) :
    requestWords (h.requestLine ++ e.tail) =
      [h.method.chars, h.path.chars, h.version.chars] := by
  have htail : ∀ c ∈ e.tail.head?, isspace c = true := by
    intro c hc
    cases e with
    | lf => simp [LineEnd.tail] at hc
    | crlf =>
      obtain rfl := Option.some.inj hc
      rfl
  have hline : h.requestLine ++ e.tail =
      h.method.chars ++ ' ' :: (h.path.chars ++ ' ' :: (h.version.chars ++ e.tail)) := by
    simp [Head.requestLine]
  rw [hline]
  exact sscanf_words h.method.ne_nil h.path.ne_nil h.version.ne_nil h.method.not_space
    h.path.not_space h.version.not_space htail

theorem conversionFits_some {n : Nat} {s : List Char} :
    ConversionFits n (some s) ↔ s.length < n := by
  simp [ConversionFits]

theorem requestWordsFit_iff (h : Head) (e : LineEnd) :
    RequestWordsFit (h.requestLine ++ e.tail) ↔ h.WordsFit := by
  have hwords := requestWords_requestLine h e
  constructor
  · intro hfit
    obtain ⟨hmethod, hpath, hversion⟩ := hfit
    rw [hwords] at hmethod hpath hversion
    exact ⟨conversionFits_some.mp hmethod, conversionFits_some.mp hpath,
      conversionFits_some.mp hversion⟩
  · intro hfit
    refine ⟨?_, ?_, ?_⟩ <;> rw [hwords]
    · exact conversionFits_some.mpr hfit.method
    · exact conversionFits_some.mpr hfit.path
    · exact conversionFits_some.mpr hfit.version

theorem Head.nul_not_mem_requestLine (h : Head) (e : LineEnd) : nul ∉ h.requestLine ++ e.tail := by
  have htail : nul ∉ e.tail := by cases e <;> decide
  rw [List.mem_append, not_or]
  exact ⟨h.nul_not_mem_lines _ (by simp [lines]), htail⟩

/-! ## Header lines -/

/-- The parts of a field that are read fit the local buffers. -/
structure Field.Fits (abi : Abi) (f : Field) : Prop where
  name : f.name.chars.length < maxHeaderNameLength * abi.sizeofPtr
  value : (firstWord f.value.chars).length < maxHeaderValueLength * abi.sizeofPtr

/-- What the slot of a field shows; `value` is what the local buffer held. -/
def slot (value : List Char) (f : Field) : List Char × List Char :=
  (f.name.chars.take maxHeaderNameLength,
    if firstWord f.value.chars = [] then (cstr value).take maxHeaderValueLength
    else (firstWord f.value.chars).take maxHeaderValueLength)

theorem Field.nul_not_mem_line (f : Field) (e : LineEnd) : nul ∉ f.line ++ e.tail := by
  have htail : nul ∉ e.tail := by cases e <;> decide
  simp only [line, List.mem_append, List.mem_cons, not_or]
  exact ⟨⟨f.name.nul_not_mem, by decide, f.value.nul_not_mem⟩, htail⟩

theorem not_isBlankLine_field (f : Field) (e : LineEnd) : ¬ IsBlankLine (f.line ++ e.tail) := by
  intro h
  have hlen := h.1
  have hname := List.length_pos_iff.mpr f.name.ne_nil
  rw [strlen_of_not_mem (f.nul_not_mem_line e)] at hlen
  simp only [Field.line, List.length_append, List.length_cons] at hlen
  omega

/-- The conversions of a header line. -/
theorem headerWords_field (f : Field) (e : LineEnd) :
    headerWords (f.line ++ e.tail) =
      f.name.chars :: if firstWord f.value.chars = [] then [] else [firstWord f.value.chars] := by
  have hline : f.line ++ e.tail = f.name.chars ++ ':' :: (f.value.chars ++ e.tail) := by
    simp [Field.line]
  have hword : firstWord (f.value.chars ++ e.tail) = firstWord f.value.chars := by
    cases e with
    | lf => rw [LineEnd.tail, List.append_nil]
    | crlf => exact firstWord_append_space (by decide) _
  rw [headerWords, hline, sscanf_field f.name.ne_nil f.name.colon_not_mem, hword]

section

variable {abi : Abi}

theorem headerWordsFit_iff (f : Field) (e : LineEnd) :
    HeaderWordsFit abi (f.line ++ e.tail) ↔ f.Fits abi := by
  have hwords := headerWords_field f e
  constructor
  · intro hfit
    obtain ⟨hname, hvalue⟩ := hfit
    rw [hwords] at hname hvalue
    refine ⟨conversionFits_some.mp hname, ?_⟩
    by_cases hempty : firstWord f.value.chars = []
    · rw [hempty]
      exact Nat.mul_pos (by decide) abi.sizeofPtr_pos
    · rw [if_neg hempty] at hvalue
      exact conversionFits_some.mp hvalue
  · intro hfit
    refine ⟨?_, ?_⟩ <;> rw [hwords]
    · exact conversionFits_some.mpr hfit.name
    · by_cases hempty : firstWord f.value.chars = []
      · rw [if_pos hempty]
        exact nofun
      · rw [if_neg hempty]
        exact conversionFits_some.mpr hfit.value

/-- The slot of a field, read as strings. -/
theorem lineEntry_field (header value : List Char) (f : Field) (e : LineEnd) :
    ((lineEntry header value (f.line ++ e.tail)).name.str,
      (lineEntry header value (f.line ++ e.tail)).value.str) = slot value f := by
  have hname : cstr f.name.chars = f.name.chars := cstr_of_not_mem f.name.nul_not_mem
  have hword : cstr (firstWord f.value.chars) = firstWord f.value.chars :=
    cstr_of_not_mem fun hmem => f.value.nul_not_mem (mem_of_mem_firstWord hmem)
  simp only [lineEntry, headerWords_field, strncpy_str, slot]
  by_cases hempty : firstWord f.value.chars = []
  · simp [hempty, hname]
  · simp [hempty, hname, hword]

/-! ## The fields of a head -/

variable (locals : Locals abi)

/-- The slots of fields whose first line has the number `i`. -/
def slots : Nat → List Field → List (List Char × List Char)
  | _, [] => []
  | i, f :: fs => slot (locals.value i).chars f :: slots (i + 1) fs

theorem lineEntries_fields (e : LineEnd) (i : Nat) (fs : List Field) :
    (lineEntries locals i (fs.map (fun f => f.line ++ e.tail))).map
      (fun h => (h.name.str, h.value.str)) = slots locals i fs := by
  induction fs generalizing i with
  | nil => rfl
  | cons f fs ih => rw [List.map_cons, lineEntries, List.map_cons, lineEntry_field, ih, slots]

/-- What reading fields changes, and what it leaves. -/
structure AfterFields (state state' : ParseState abi) (fields : List Field) : Prop where
  method : state'.request.method = state.request.method
  path : state'.request.path = state.request.path
  version : state'.request.version = state.request.version
  count : state'.request.headers.count = state.request.headers.count + fields.length
  list : state'.request.headers.list = state.request.headers.list ++
    slots locals state.lineCount fields
  body : state'.body = state.body
  bodyEncountered : state'.bodyEncountered = state.bodyEncountered
  lineCount : state'.lineCount = state.lineCount + fields.length

theorem AfterHeaders.fields {e : LineEnd} {fs : List Field} {state state' : ParseState abi}
    (h : AfterHeaders locals state state' (fs.map (fun f => f.line ++ e.tail))) :
    AfterFields locals state state' fs where
  method := h.method
  path := h.path
  version := h.version
  count := by rw [h.count, List.length_map]
  list := by
    rw [HttpHeaders.list_eq, h.entries, List.map_append, lineEntries_fields, HttpHeaders.list_eq]
  body := h.body
  bodyEncountered := h.bodyEncountered
  lineCount := by rw [h.lineCount, List.length_map]

theorem header_lines_fields (e : LineEnd) (fs : List Field) :
    ∀ l ∈ fs.map (fun f => f.line ++ e.tail), ¬ IsBlankLine l ∧ nul ∉ l := by
  intro l hl
  obtain ⟨f, -, rfl⟩ := List.mem_map.mp hl
  exact ⟨not_isBlankLine_field f e, f.nul_not_mem_line e⟩

/-- Fields that are read fit, and add their slots in order. -/
theorem of_parseFields {e : LineEnd} {fs : List Field} {state state' : ParseState abi}
    (hbody : state.bodyEncountered = false) (hcount : state.request.headers.count ≤ 50)
    (h : (fs.map (fun f => f.line ++ e.tail)).foldlM (parseLine locals) state = .ok state') :
    (∀ f ∈ fs, f.Fits abi) ∧ state.request.headers.count + fs.length ≤ 50 ∧
      AfterFields locals state state' fs := by
  obtain ⟨hfits, htotal, hafter⟩ :=
    of_parseHeaders locals (header_lines_fields e fs) hbody hcount h
  rw [List.length_map] at htotal
  exact ⟨fun f hf => (headerWordsFit_iff f e).mp (hfits _ (List.mem_map_of_mem hf)), htotal,
    hafter.fields locals⟩

theorem parseFields_ok {e : LineEnd} {fs : List Field} {state : ParseState abi}
    (hbody : state.bodyEncountered = false) (hfit : ∀ f ∈ fs, f.Fits abi)
    (hcount : state.request.headers.count + fs.length ≤ 50) :
    ∃ state', (fs.map (fun f => f.line ++ e.tail)).foldlM (parseLine locals) state =
      .ok state' := by
  refine parseHeaders_ok locals (header_lines_fields e fs) hbody (fun l hl => ?_) ?_
  · obtain ⟨f, hf, rfl⟩ := List.mem_map.mp hl
    exact (headerWordsFit_iff f e).mpr (hfit f hf)
  · rwa [List.length_map]

/-! ## A head -/

/-- Every part of the head fits the buffer it is read into. -/
structure Head.Fits (abi : Abi) (h : Head) : Prop where
  words : h.WordsFit
  fields : ∀ f ∈ h.fields, f.Fits abi
  count : h.fields.length ≤ 50

/-- The run over the pieces of a head. -/
def parseHead (e : LineEnd) (h : Head) : Except Fault (ParseState abi) :=
  scanRequestLine (freshRequest locals) (h.requestLine ++ e.tail) >>= fun request =>
    (h.fields.map (fun f => f.line ++ e.tail)).foldlM (parseLine locals)
      (startState locals request)

/-- The lines of a text that starts with a head. -/
theorem strtokPieces_head (e : LineEnd) (h : Head) {body : List Char} (hbody : nul ∉ body) :
    strtokPieces '\n' (cstr (h.text e ++ body)) =
      (h.requestLine ++ e.tail) :: (h.fields.map (fun f => f.line ++ e.tail) ++
        ((if e.tail = [] then [] else [e.tail]) ++ strtokPieces '\n' body)) := by
  have hnul : nul ∉ h.text e ++ body := by
    rw [List.mem_append, not_or]
    exact ⟨h.nul_not_mem_text e, hbody⟩
  rw [cstr_of_not_mem hnul, h.strtokPieces_text e body, Head.pieces, List.append_assoc,
    List.cons_append]

/-- The fields of a head are header lines. -/
theorem bodyLines_fields (e : LineEnd) (fs : List Field) (lines : List (List Char)) :
    bodyLines (fs.map (fun f => f.line ++ e.tail) ++ lines) = bodyLines lines :=
  List.dropWhile_append_of_pos fun l hl => decide_eq_true (header_lines_fields e fs l hl).1

/-- What is read from a text that starts with a head. -/
theorem parseHttpState_text (e : LineEnd) (h : Head) {body : List Char} (hbody : nul ∉ body) :
    parseHttpState locals (h.text e ++ body) =
      (parseHead locals e h >>= fun state =>
        ((if e.tail = [] then [] else [e.tail]) ++ strtokPieces '\n' body).foldlM
          (parseLine locals) state) := by
  rw [parseHttpState_eq locals (strtokPieces_head e h hbody), parseHead, bind_assoc]
  simp only [List.foldlM_append]

/-- A head that is read fits; its request shows its words and its slots. -/
theorem of_parseHead {e : LineEnd} {h : Head} {state : ParseState abi}
    (heq : parseHead locals e h = .ok state) :
    h.Fits abi ∧ state.request.headers.count = h.fields.length ∧
      state.request.view =
        { method := h.method.chars, path := h.path.chars, version := h.version.chars,
          headers := slots locals 0 h.fields } ∧
      state.bodyEncountered = false ∧ state.body = locals.body := by
  obtain ⟨request, hrequest, hfields⟩ := bind_ok_iff.mp heq
  obtain ⟨hfitline, hmethod, hpath, hversion, hheaders⟩ :=
    of_scanRequestLine (h.nul_not_mem_requestLine e) hrequest
  have hwords := (requestWordsFit_iff h e).mp hfitline
  rw [requestWords_requestLine] at hmethod hpath hversion
  have hcount : request.headers.count = 0 := by rw [hheaders]; rfl
  have hlist : request.headers.list = [] := by simp [HttpHeaders.list, hcount]
  obtain ⟨hfit, htotal, hafter⟩ := of_parseFields locals
    (show (startState locals request).bodyEncountered = false from rfl)
    (show request.headers.count ≤ 50 by omega) hfields
  change request.headers.count + h.fields.length ≤ 50 at htotal
  refine ⟨⟨hwords, hfit, by omega⟩, ?_, ?_, hafter.bodyEncountered, hafter.body⟩
  · rw [hafter.count]
    change request.headers.count + h.fields.length = _
    rw [hcount, Nat.zero_add]
  · rw [HttpRequest.view, hafter.method, hafter.path, hafter.version, hafter.list]
    change RequestView.mk request.method.str request.path.str request.version.str
      (request.headers.list ++ slots locals 0 h.fields) = _
    rw [hmethod, hpath, hversion, hlist, List.nil_append]
    rfl

theorem parseHead_ok {h : Head} (e : LineEnd) (hfit : h.Fits abi) :
    ∃ state, parseHead locals e h = .ok state := by
  obtain ⟨request, hrequest⟩ :=
    scanRequestLine_ok ((requestWordsFit_iff h e).mpr hfit.words) (freshRequest locals)
  obtain ⟨-, -, -, -, hheaders⟩ := of_scanRequestLine (h.nul_not_mem_requestLine e) hrequest
  have hcount : request.headers.count = 0 := by rw [hheaders]; rfl
  obtain ⟨state, hstate⟩ := parseFields_ok locals (e := e)
    (show (startState locals request).bodyEncountered = false from rfl) hfit.fields
    (show request.headers.count + h.fields.length ≤ 50 by
      rw [hcount, Nat.zero_add]
      exact hfit.count)
  exact ⟨state, bind_ok_iff.mpr ⟨request, hrequest, hstate⟩⟩

/-! ## CRLF texts -/

/-- A CRLF text that is read fits, and gives the words and the slots of
its head, whatever the body is. -/
theorem of_parseHttp_crlf (h : Head) {body : List Char} (hbody : nul ∉ body)
    {request : HttpRequest} (heq : parseHttp locals (h.text .crlf ++ body) = .ok request) :
    (h.Fits abi ∧ LinesFit abi (strtokPieces '\n' body)) ∧
      request.headers.count = h.fields.length ∧
      request.view =
        { method := h.method.chars, path := h.path.chars, version := h.version.chars,
          headers := slots locals 0 h.fields } := by
  obtain ⟨final, hfinal, -, rfl⟩ := (parseHttp_ok_iff locals).mp heq
  rw [parseHttpState_text locals .crlf h hbody] at hfinal
  obtain ⟨state, hstate, hfinal⟩ := bind_ok_iff.mp hfinal
  obtain ⟨hfit, hcount, hview, -⟩ := of_parseHead locals hstate
  rw [if_neg (show LineEnd.crlf.tail ≠ [] by decide), List.singleton_append,
    List.foldlM_cons, show LineEnd.crlf.tail = ['\r'] from rfl,
    parseLine_blank locals isBlankLine_cr] at hfinal
  obtain ⟨hlines, hrequest⟩ := of_parseBody locals (show _ = true from rfl) hfinal
  rw [hrequest]
  exact ⟨⟨hfit, hlines⟩, hcount, hview⟩

/-- The lines of body that a CRLF text leaves to be copied. -/
theorem copiedLines_crlf (h : Head) (body : List Char) :
    copiedLines (bodyLines (h.fields.map (fun f => f.line ++ LineEnd.crlf.tail) ++
      ((if LineEnd.crlf.tail = [] then [] else [LineEnd.crlf.tail]) ++ strtokPieces '\n' body))) =
        copiedLines (strtokPieces '\n' body) := by
  rw [bodyLines_fields, if_neg (by decide), List.singleton_append,
    show LineEnd.crlf.tail = ['\r'] from rfl, (headerLines_blank isBlankLine_cr _).2]
  exact copiedLines_blank isBlankLine_cr _

/-- A CRLF text that fits, and that has a line of body to print, is read. -/
theorem parseHttp_crlf_ok {h : Head} {body : List Char} (hbody : nul ∉ body)
    (hfit : h.Fits abi) (hlines : LinesFit abi (strtokPieces '\n' body))
    (hcopied : copiedLines (strtokPieces '\n' body) ≠ []) :
    ∃ request, parseHttp locals (h.text .crlf ++ body) = .ok request := by
  obtain ⟨state, hstate⟩ := parseHead_ok locals .crlf hfit
  let behind : ParseState abi :=
    { state with bodyEncountered := true, lineCount := state.lineCount + 1 }
  obtain ⟨final, hfinal⟩ := parseBody_ok locals (show behind.bodyEncountered = true from rfl) hlines
  have hstate' : parseHttpState locals (h.text .crlf ++ body) = .ok final := by
    rw [parseHttpState_text locals .crlf h hbody]
    refine bind_ok_iff.mpr ⟨state, hstate, ?_⟩
    rw [if_neg (show LineEnd.crlf.tail ≠ [] by decide), List.singleton_append,
      List.foldlM_cons, show LineEnd.crlf.tail = ['\r'] from rfl,
      parseLine_blank locals isBlankLine_cr]
    exact hfinal
  exact ⟨final.request, (parseHttp_ok_iff locals).mpr ⟨final, hstate',
    nul_mem_body locals (strtokPieces_head .crlf h hbody) hstate'
      (by rwa [copiedLines_crlf]), rfl⟩⟩

/-- One that is read whatever the locals hold has such a line. -/
theorem copiedLines_of_parseHttp_crlf {h : Head} {body : List Char} (hbody : nul ∉ body)
    {request : HttpRequest}
    (heq : parseHttp (.fill abi 'a') (h.text .crlf ++ body) = .ok request) :
    copiedLines (strtokPieces '\n' body) ≠ [] := by
  rw [← copiedLines_crlf h body]
  exact copiedLines_of_parseHttp (strtokPieces_head .crlf h hbody) heq

end

end CWebServer.Http
