/-
CWebServer.Http.Lines — what `parseHttp` makes of any text, line by line.

The loop runs over the pieces that `strtok` leaves (`parseLines_eq`): the
first is the request line, those up to the first blank one are header
lines, and the rest can only change `body`. Nothing is assumed of a line
but that it holds no NUL. What a header line leaves in its slot is what
`sscanf` converted, and what the local buffers held where it converted
nothing (`lineEntry`).

A text is read exactly when each conversion and each body line has the
room it is copied to and there are at most fifty header lines
(`TextFits`); then `Reads` says what the request holds.

No `sorry`, no `axiom`, no `native_decide`.
-/
import CWebServer.Http.Request

namespace CWebServer.Http

open Libc

section

variable {abi : Abi} (locals : Locals abi)

/-! ## The loop -/

/-- The `while` loop runs over the pieces left. -/
theorem parseLines_eq (saved : List Char) (state : ParseState abi) :
    parseLines locals saved state = (strtokPieces '\n' saved).foldlM (parseLine locals) state := by
  fun_induction strtokPieces '\n' saved generalizing state with
  | case1 saved h =>
    rw [parseLines]
    split
    · rfl
    · next heq => rw [h] at heq; cases heq
  | case2 saved line rest h ih =>
    rw [parseLines]
    split
    · next heq => rw [h] at heq; cases heq
    · next heq =>
      rw [h] at heq
      cases heq
      rw [List.foldlM_cons]
      exact congrArg _ (funext fun state => ih state)

/-- The request before anything is read. -/
def freshRequest : HttpRequest :=
  { locals.request with headers := { locals.request.headers with count := 0 } }

/-- The state behind the request line. -/
def startState (request : HttpRequest) : ParseState abi :=
  { request, body := locals.body, bodyEncountered := false, lineCount := 0 }

theorem parseHttpState_eq {rawHttp line : List Char} {rest : List (List Char)}
    (h : strtokPieces '\n' (cstr rawHttp) = line :: rest) :
    parseHttpState locals rawHttp =
      (scanRequestLine (freshRequest locals) line >>= fun request =>
        rest.foldlM (parseLine locals) (startState locals request)) := by
  cases htok : strtok '\n' (cstr rawHttp) with
  | none =>
    rw [strtokPieces_none htok] at h
    cases h
  | some r =>
    obtain ⟨piece, saved⟩ := r
    rw [strtokPieces_some htok] at h
    obtain ⟨rfl, rfl⟩ := List.cons.inj h
    simp only [parseHttpState, htok, parseLines_eq]
    rfl

/-- A text without a line hands NULL to `sscanf`. -/
theorem parseHttpState_of_no_line {rawHttp : List Char}
    (h : strtokPieces '\n' (cstr rawHttp) = []) :
    parseHttpState locals rawHttp = .error .nullPointer := by
  cases htok : strtok '\n' (cstr rawHttp) with
  | none => simp only [parseHttpState, htok]
  | some r =>
    obtain ⟨piece, saved⟩ := r
    rw [strtokPieces_some htok] at h
    cases h

/-- No line of a text holds a NUL. -/
theorem nul_not_mem_line {rawHttp line : List Char}
    (h : line ∈ strtokPieces '\n' (cstr rawHttp)) : nul ∉ line := by
  obtain ⟨-, -, hpart⟩ := of_mem_strtokPieces h
  exact fun hmem => nul_not_mem_cstr rawHttp (hpart.subset hmem)

/-! ## One line -/

/-- The line that ends the header section: one character of whitespace. -/
def IsBlankLine (line : List Char) : Prop := strlen line = 1 ∧ isspace (line.headD nul) = true

instance (line : List Char) : Decidable (IsBlankLine line) :=
  inferInstanceAs (Decidable (_ ∧ _))

/-- The blank line under CRLF. -/
theorem isBlankLine_cr : IsBlankLine ['\r'] := by decide

theorem parseLine_blank {state : ParseState abi} {line : List Char} (h : IsBlankLine line) :
    parseLine locals state line =
      .ok { state with bodyEncountered := true, lineCount := state.lineCount + 1 } := by
  unfold parseLine
  exact if_pos h

theorem parseLine_header {state : ParseState abi} {line : List Char} (h : ¬ IsBlankLine line)
    (hbody : state.bodyEncountered = false) :
    parseLine locals state line =
      (scanHeaderLine (locals.header state.lineCount) (locals.value state.lineCount) state.request
        line >>= fun request =>
          .ok { state with request, lineCount := state.lineCount + 1 }) := by
  unfold parseLine
  exact (if_neg h).trans (if_pos hbody)

theorem parseLine_body {state : ParseState abi} {line : List Char} (h : ¬ IsBlankLine line)
    (hbody : state.bodyEncountered = true) :
    parseLine locals state line =
      (state.body.store line >>= fun body =>
        .ok { state with body, lineCount := state.lineCount + 1 }) := by
  unfold parseLine
  exact (if_neg h).trans (if_neg (by rw [hbody]; decide))

/-! ## Conversions -/

/-- A string converted, if there is one, and its NUL have room. -/
def ConversionFits (n : Nat) (conversion : Option (List Char)) : Prop :=
  ∀ s ∈ conversion, s.length < n

theorem storeConversion_ok_iff {n : Nat} {a : CharArray n} {conversion : Option (List Char)} :
    (∃ b, storeConversion a conversion = .ok b) ↔ ConversionFits n conversion := by
  cases conversion with
  | none => exact ⟨fun _ => nofun, fun _ => ⟨a, rfl⟩⟩
  | some s =>
    refine CharArray.store_ok_iff.trans ⟨fun h t ht => ?_, fun h => h s rfl⟩
    exact Option.some.inj ht ▸ h

/-- The argument shows the conversion, or what it held. -/
theorem of_storeConversion {n : Nat} {a b : CharArray n} {conversion : Option (List Char)}
    (h : storeConversion a conversion = .ok b) (hnul : ∀ s ∈ conversion, nul ∉ s) :
    ConversionFits n conversion ∧ b.str = conversion.getD a.str := by
  refine ⟨storeConversion_ok_iff.mp ⟨b, h⟩, ?_⟩
  cases conversion with
  | none =>
    obtain rfl := Except.ok.inj h
    rfl
  | some s => exact (CharArray.of_store h).2 (hnul s rfl)

theorem nul_not_mem_conversion {format : List Directive} {line : List Char} (h : nul ∉ line)
    (i : Nat) : ∀ s ∈ (sscanf format line)[i]?, nul ∉ s := by
  intro s hs hmem
  exact h ((infix_of_mem_sscanf (List.mem_of_getElem? hs)).subset hmem)

/-! ## The request line -/

/-- The words of the request line, as far as there are three. -/
def requestWords (line : List Char) : List (List Char) :=
  sscanf [.word, .blank, .word, .blank, .word] line

/-- They fit their arrays. -/
structure RequestWordsFit (line : List Char) : Prop where
  method : ConversionFits 16 (requestWords line)[0]?
  path : ConversionFits 256 (requestWords line)[1]?
  version : ConversionFits 16 (requestWords line)[2]?

theorem of_scanRequestLine {request r : HttpRequest} {line : List Char} (hnul : nul ∉ line)
    (h : scanRequestLine request line = .ok r) :
    RequestWordsFit line ∧ r.method.str = (requestWords line)[0]?.getD request.method.str ∧
      r.path.str = (requestWords line)[1]?.getD request.path.str ∧
      r.version.str = (requestWords line)[2]?.getD request.version.str ∧
      r.headers = request.headers := by
  obtain ⟨method, hmethod, h⟩ := bind_ok_iff.mp h
  obtain ⟨path, hpath, h⟩ := bind_ok_iff.mp h
  obtain ⟨version, hversion, h⟩ := bind_ok_iff.mp h
  obtain rfl := Except.ok.inj h
  obtain ⟨hm, hmstr⟩ := of_storeConversion hmethod (nul_not_mem_conversion hnul 0)
  obtain ⟨hp, hpstr⟩ := of_storeConversion hpath (nul_not_mem_conversion hnul 1)
  obtain ⟨hv, hvstr⟩ := of_storeConversion hversion (nul_not_mem_conversion hnul 2)
  exact ⟨⟨hm, hp, hv⟩, hmstr, hpstr, hvstr, rfl⟩

theorem scanRequestLine_ok {line : List Char} (hfit : RequestWordsFit line)
    (request : HttpRequest) : ∃ r, scanRequestLine request line = .ok r := by
  obtain ⟨method, hmethod⟩ := storeConversion_ok_iff (a := request.method).mpr hfit.method
  obtain ⟨path, hpath⟩ := storeConversion_ok_iff (a := request.path).mpr hfit.path
  obtain ⟨version, hversion⟩ := storeConversion_ok_iff (a := request.version).mpr hfit.version
  exact ⟨_, bind_ok_iff.mpr ⟨method, hmethod,
    bind_ok_iff.mpr ⟨path, hpath, bind_ok_iff.mpr ⟨version, hversion, rfl⟩⟩⟩⟩

/-! ## Slots -/

/-- The counted slots. -/
def HttpHeaders.entries (headers : HttpHeaders) : List HttpHeader :=
  headers.keyValues.toList.take headers.count

theorem HttpHeaders.list_eq (headers : HttpHeaders) :
    headers.list = headers.entries.map fun h => (h.name.str, h.value.str) := rfl

/-- What a slot shows of the request: nothing but its slots and their
number changes. -/
theorem of_addHeader {request r : HttpRequest} {name value : List Char}
    (h : addHeader request name value = .ok r) :
    request.headers.count < 50 ∧ r.headers.count = request.headers.count + 1 ∧
      r.headers.entries = request.headers.entries ++
        [{ name := strncpy maxHeaderNameLength name
           value := strncpy maxHeaderValueLength value }] ∧
      r.method = request.method ∧ r.path = request.path ∧ r.version = request.version := by
  unfold addHeader at h
  split_ifs at h with hcount
  obtain rfl := Except.ok.inj h
  refine ⟨hcount, rfl, ?_, rfl, rfl, rfl⟩
  simp only [HttpHeaders.entries, Vector.toList_set]
  rw [List.take_add_one, List.take_set_of_le (Nat.le_refl _), List.getElem?_set_self (by simpa)]
  rfl

theorem addHeader_ok {request : HttpRequest} (name value : List Char)
    (h : request.headers.count < 50) : ∃ r, addHeader request name value = .ok r := by
  rw [addHeader, dif_pos h]
  exact ⟨_, rfl⟩

/-! ## Header lines -/

/-- The name and the value of a header line, as far as it has them. -/
def headerWords (line : List Char) : List (List Char) :=
  sscanf [.upTo ':', .literal ':', .word] line

/-- They fit the local buffers. -/
structure HeaderWordsFit (abi : Abi) (line : List Char) : Prop where
  name : ConversionFits (maxHeaderNameLength * abi.sizeofPtr) (headerWords line)[0]?
  value : ConversionFits (maxHeaderValueLength * abi.sizeofPtr) (headerWords line)[1]?

/-- `sscanf` converts nothing, the name, or both. -/
theorem headerWords_cases (line : List Char) :
    headerWords line = [] ∨ (∃ name, headerWords line = [name]) ∨
      ∃ name value, headerWords line = [name, value] := by
  have hlen : (headerWords line).length ≤ 2 := length_sscanf_le _ line
  match headerWords line, hlen with
  | [], _ => exact .inl rfl
  | [name], _ => exact .inr (.inl ⟨name, rfl⟩)
  | [name, value], _ => exact .inr (.inr ⟨name, value, rfl⟩)

/-- The slot of a header line; `header` and `value` are what the local
buffers held. -/
def lineEntry (header value line : List Char) : HttpHeader where
  name := strncpy maxHeaderNameLength ((headerWords line)[0]?.getD header)
  value := strncpy maxHeaderValueLength ((headerWords line)[1]?.getD value)

/-- A copy from the argument of a conversion is one of the conversion. -/
theorem strncpy_conversion {n m : Nat} {a b : CharArray n} {conversion : Option (List Char)}
    (hnul : ∀ s ∈ conversion, nul ∉ s) (h : b.str = conversion.getD a.str) :
    strncpy m b.chars = strncpy m (conversion.getD a.chars) := by
  refine strncpy_congr (h.trans ?_)
  cases conversion with
  | none => rfl
  | some s => exact (cstr_of_not_mem (hnul s rfl)).symm

/-- A header line that is read fits, and adds its slot. -/
theorem of_scanHeaderLine {header : CharArray (maxHeaderNameLength * abi.sizeofPtr)}
    {value : CharArray (maxHeaderValueLength * abi.sizeofPtr)} {request r : HttpRequest}
    {line : List Char} (hnul : nul ∉ line)
    (h : scanHeaderLine header value request line = .ok r) :
    HeaderWordsFit abi line ∧ request.headers.count < 50 ∧
      r.headers.count = request.headers.count + 1 ∧
      r.headers.entries = request.headers.entries ++ [lineEntry header.chars value.chars line] ∧
      r.method = request.method ∧ r.path = request.path ∧ r.version = request.version := by
  obtain ⟨header', hheader, h⟩ := bind_ok_iff.mp h
  obtain ⟨value', hvalue, h⟩ := bind_ok_iff.mp h
  obtain ⟨hcount, hcount', hentries, hrest⟩ := of_addHeader h
  obtain ⟨hname, hnamestr⟩ := of_storeConversion hheader (nul_not_mem_conversion hnul 0)
  obtain ⟨hword, hwordstr⟩ := of_storeConversion hvalue (nul_not_mem_conversion hnul 1)
  refine ⟨⟨hname, hword⟩, hcount, hcount', ?_, hrest⟩
  rw [hentries, strncpy_conversion (nul_not_mem_conversion hnul 0) hnamestr,
    strncpy_conversion (nul_not_mem_conversion hnul 1) hwordstr]
  rfl

theorem scanHeaderLine_ok {header : CharArray (maxHeaderNameLength * abi.sizeofPtr)}
    {value : CharArray (maxHeaderValueLength * abi.sizeofPtr)} {request : HttpRequest}
    {line : List Char} (hfit : HeaderWordsFit abi line) (hcount : request.headers.count < 50) :
    ∃ r, scanHeaderLine header value request line = .ok r := by
  obtain ⟨header', hheader⟩ := storeConversion_ok_iff (a := header).mpr hfit.name
  obtain ⟨value', hvalue⟩ := storeConversion_ok_iff (a := value).mpr hfit.value
  obtain ⟨r, hr⟩ := addHeader_ok header'.chars value'.chars hcount
  exact ⟨r, bind_ok_iff.mpr ⟨header', hheader, bind_ok_iff.mpr ⟨value', hvalue, hr⟩⟩⟩

/-- The slots of lines, of which the first has the number `i`. -/
def lineEntries : Nat → List (List Char) → List HttpHeader
  | _, [] => []
  | i, line :: lines =>
    lineEntry (locals.header i).chars (locals.value i).chars line :: lineEntries (i + 1) lines

/-- What items decide of the slots of their lines, whatever the buffers
held. -/
theorem map_lineEntries {α β : Type} (line : α → List Char) {shown : HttpHeader → β}
    {given : α → β} (i : Nat) {items : List α}
    (h : ∀ x ∈ items, ∀ header value, shown (lineEntry header value (line x)) = given x) :
    (lineEntries locals i (items.map line)).map shown = items.map given := by
  induction items generalizing i with
  | nil => rfl
  | cons x items ih =>
    rw [List.map_cons, lineEntries, List.map_cons, List.map_cons, h x (by simp),
      ih (i + 1) fun y hy => h y (List.mem_cons_of_mem x hy)]

/-- Each header line has its slot. -/
theorem exists_mem_lineEntries {lines : List (List Char)} {l : List Char}
    (hl : l ∈ lines) (i : Nat) :
    ∃ header value, lineEntry header value l ∈ lineEntries locals i lines := by
  induction lines generalizing i with
  | nil => exact absurd hl List.not_mem_nil
  | cons line lines ih =>
    rcases List.mem_cons.mp hl with rfl | hl
    · exact ⟨_, _, List.mem_cons_self⟩
    · obtain ⟨header, value, hmem⟩ := ih hl (i + 1)
      exact ⟨header, value, List.mem_cons_of_mem _ hmem⟩

/-- The slots when every local buffer holds the same. -/
theorem lineEntries_fill (c : Char) (i : Nat) (lines : List (List Char)) :
    lineEntries (Locals.fill abi c) i lines =
      lines.map (lineEntry (List.replicate (maxHeaderNameLength * abi.sizeofPtr) c)
        (List.replicate (maxHeaderValueLength * abi.sizeofPtr) c)) := by
  induction lines generalizing i with
  | nil => rfl
  | cons line lines ih =>
    rw [lineEntries, ih (i + 1)]
    rfl

/-- What reading header lines changes, and what it leaves. -/
structure AfterHeaders (state state' : ParseState abi) (lines : List (List Char)) : Prop where
  method : state'.request.method = state.request.method
  path : state'.request.path = state.request.path
  version : state'.request.version = state.request.version
  count : state'.request.headers.count = state.request.headers.count + lines.length
  entries : state'.request.headers.entries = state.request.headers.entries ++
    lineEntries locals state.lineCount lines
  body : state'.body = state.body
  bodyEncountered : state'.bodyEncountered = state.bodyEncountered
  lineCount : state'.lineCount = state.lineCount + lines.length

theorem of_parseLine_header {state state' : ParseState abi} {line : List Char}
    (hblank : ¬ IsBlankLine line) (hbody : state.bodyEncountered = false) (hnul : nul ∉ line)
    (h : parseLine locals state line = .ok state') :
    HeaderWordsFit abi line ∧ state.request.headers.count < 50 ∧
      AfterHeaders locals state state' [line] := by
  rw [parseLine_header locals hblank hbody] at h
  obtain ⟨r, hr, h⟩ := bind_ok_iff.mp h
  obtain rfl := Except.ok.inj h
  obtain ⟨hfit, hcount, hcount', hentries, hmethod, hpath, hversion⟩ := of_scanHeaderLine hnul hr
  exact ⟨hfit, hcount, hmethod, hpath, hversion, hcount', hentries, rfl, rfl, rfl⟩

theorem parseLine_header_ok {state : ParseState abi} {line : List Char}
    (hblank : ¬ IsBlankLine line) (hbody : state.bodyEncountered = false)
    (hfit : HeaderWordsFit abi line) (hcount : state.request.headers.count < 50) :
    ∃ state', parseLine locals state line = .ok state' := by
  obtain ⟨r, hr⟩ := scanHeaderLine_ok hfit hcount
  rw [parseLine_header locals hblank hbody]
  exact ⟨_, bind_ok_iff.mpr ⟨r, hr, rfl⟩⟩

theorem AfterHeaders.cons {s₁ s₂ s₃ : ParseState abi} {line : List Char}
    {lines : List (List Char)} (h₁ : AfterHeaders locals s₁ s₂ [line])
    (h₂ : AfterHeaders locals s₂ s₃ lines) : AfterHeaders locals s₁ s₃ (line :: lines) where
  method := h₂.method.trans h₁.method
  path := h₂.path.trans h₁.path
  version := h₂.version.trans h₁.version
  count := by
    rw [h₂.count, h₁.count, List.length_singleton, List.length_cons]
    omega
  entries := by
    rw [h₂.entries, h₁.entries, h₁.lineCount]
    simp [lineEntries]
  body := h₂.body.trans h₁.body
  bodyEncountered := h₂.bodyEncountered.trans h₁.bodyEncountered
  lineCount := by
    rw [h₂.lineCount, h₁.lineCount, List.length_singleton, List.length_cons]
    omega

/-- Header lines that are read fit, and add their slots in order. -/
theorem of_parseHeaders {lines : List (List Char)} {state state' : ParseState abi}
    (hlines : ∀ l ∈ lines, ¬ IsBlankLine l ∧ nul ∉ l) (hbody : state.bodyEncountered = false)
    (hcount : state.request.headers.count ≤ 50)
    (h : lines.foldlM (parseLine locals) state = .ok state') :
    (∀ l ∈ lines, HeaderWordsFit abi l) ∧ state.request.headers.count + lines.length ≤ 50 ∧
      AfterHeaders locals state state' lines := by
  induction lines generalizing state with
  | nil =>
    obtain rfl := Except.ok.inj h
    exact ⟨by simp, hcount, rfl, rfl, rfl, rfl, by simp [lineEntries], rfl, rfl, rfl⟩
  | cons line lines ih =>
    rw [List.foldlM_cons] at h
    obtain ⟨mid, hmid, h⟩ := bind_ok_iff.mp h
    obtain ⟨hblank, hnul⟩ := hlines line (by simp)
    obtain ⟨hfit, hroom, hstep⟩ := of_parseLine_header locals hblank hbody hnul hmid
    have hmidcount := hstep.count
    rw [List.length_singleton] at hmidcount
    obtain ⟨hfits, htotal, hrest⟩ := ih (fun l hl => hlines l (List.mem_cons_of_mem line hl))
      (hstep.bodyEncountered.trans hbody) (by omega) h
    refine ⟨fun l hl => ?_, ?_, hstep.cons locals hrest⟩
    · rcases List.mem_cons.mp hl with rfl | hl
      · exact hfit
      · exact hfits l hl
    · rw [List.length_cons]
      omega

theorem parseHeaders_ok {lines : List (List Char)} {state : ParseState abi}
    (hlines : ∀ l ∈ lines, ¬ IsBlankLine l ∧ nul ∉ l) (hbody : state.bodyEncountered = false)
    (hfit : ∀ l ∈ lines, HeaderWordsFit abi l)
    (hcount : state.request.headers.count + lines.length ≤ 50) :
    ∃ state', lines.foldlM (parseLine locals) state = .ok state' := by
  induction lines generalizing state with
  | nil => exact ⟨state, rfl⟩
  | cons line lines ih =>
    rw [List.length_cons] at hcount
    obtain ⟨hblank, hnul⟩ := hlines line (by simp)
    obtain ⟨mid, hmid⟩ := parseLine_header_ok locals hblank hbody (hfit line (by simp)) (by omega)
    obtain ⟨-, -, hstep⟩ := of_parseLine_header locals hblank hbody hnul hmid
    have hmidcount := hstep.count
    rw [List.length_singleton] at hmidcount
    obtain ⟨state', h⟩ := ih (fun l hl => hlines l (List.mem_cons_of_mem line hl))
      (hstep.bodyEncountered.trans hbody) (fun l hl => hfit l (List.mem_cons_of_mem line hl))
      (by omega)
    rw [List.foldlM_cons]
    exact ⟨state', bind_ok_iff.mpr ⟨mid, hmid, h⟩⟩

/-! ## Behind the blank line -/

/-- The lines that would be copied to `body` fit it. -/
def LinesFit (abi : Abi) (lines : List (List Char)) : Prop :=
  ∀ l ∈ lines, ¬ IsBlankLine l → l.length < 1024 * abi.sizeofPtr

theorem linesFit_blank {abi : Abi} {line : List Char} (h : IsBlankLine line)
    {lines : List (List Char)} : LinesFit abi (line :: lines) ↔ LinesFit abi lines := by
  constructor
  · exact fun hfit l hl => hfit l (List.mem_cons_of_mem _ hl)
  · intro hfit l hl hne
    rcases List.mem_cons.mp hl with rfl | hl
    · exact absurd h hne
    · exact hfit l hl hne

/-- One line of the body: the request stays as it is. -/
theorem of_parseLine_body {state state' : ParseState abi} {line : List Char}
    (hbody : state.bodyEncountered = true) (h : parseLine locals state line = .ok state') :
    (¬ IsBlankLine line → line.length < 1024 * abi.sizeofPtr) ∧
      state'.request = state.request ∧ state'.bodyEncountered = true := by
  by_cases hblank : IsBlankLine line
  · rw [parseLine_blank locals hblank] at h
    obtain rfl := Except.ok.inj h
    exact ⟨fun hne => absurd hblank hne, rfl, rfl⟩
  · rw [parseLine_body locals hblank hbody] at h
    obtain ⟨body, hstore, h⟩ := bind_ok_iff.mp h
    obtain rfl := Except.ok.inj h
    exact ⟨fun _ => (CharArray.of_store hstore).1, rfl, hbody⟩

theorem of_parseBody {lines : List (List Char)} {state state' : ParseState abi}
    (hbody : state.bodyEncountered = true)
    (h : lines.foldlM (parseLine locals) state = .ok state') :
    LinesFit abi lines ∧ state'.request = state.request := by
  induction lines generalizing state with
  | nil =>
    obtain rfl := Except.ok.inj h
    exact ⟨by simp [LinesFit], rfl⟩
  | cons line lines ih =>
    rw [List.foldlM_cons] at h
    obtain ⟨mid, hmid, h⟩ := bind_ok_iff.mp h
    obtain ⟨hline, hrequest, hbody'⟩ := of_parseLine_body locals hbody hmid
    obtain ⟨hlines, hrest⟩ := ih hbody' h
    refine ⟨fun l hl => ?_, hrest.trans hrequest⟩
    rcases List.mem_cons.mp hl with rfl | hl
    · exact hline
    · exact hlines l hl

theorem parseLine_body_ok {state : ParseState abi} {line : List Char}
    (hbody : state.bodyEncountered = true)
    (hfit : ¬ IsBlankLine line → line.length < 1024 * abi.sizeofPtr) :
    ∃ state', parseLine locals state line = .ok state' := by
  by_cases hblank : IsBlankLine line
  · rw [parseLine_blank locals hblank]
    exact ⟨_, rfl⟩
  · obtain ⟨body, hstore⟩ := CharArray.store_ok_iff (a := state.body).mpr (hfit hblank)
    rw [parseLine_body locals hblank hbody]
    exact ⟨_, bind_ok_iff.mpr ⟨body, hstore, rfl⟩⟩

theorem parseBody_ok {lines : List (List Char)} {state : ParseState abi}
    (hbody : state.bodyEncountered = true) (hfit : LinesFit abi lines) :
    ∃ state', lines.foldlM (parseLine locals) state = .ok state' := by
  induction lines generalizing state with
  | nil => exact ⟨state, rfl⟩
  | cons line lines ih =>
    obtain ⟨mid, hmid⟩ := parseLine_body_ok locals hbody (hfit line (by simp))
    obtain ⟨-, -, hbody'⟩ := of_parseLine_body locals hbody hmid
    obtain ⟨state', h⟩ := ih hbody' fun l hl => hfit l (List.mem_cons_of_mem line hl)
    rw [List.foldlM_cons]
    exact ⟨state', bind_ok_iff.mpr ⟨mid, hmid, h⟩⟩

/-! ## A whole text -/

/-- The lines before the first blank one. -/
def headerLines (lines : List (List Char)) : List (List Char) :=
  lines.takeWhile (fun l => ¬ IsBlankLine l)

/-- The lines from the first blank one on. -/
def bodyLines (lines : List (List Char)) : List (List Char) :=
  lines.dropWhile (fun l => ¬ IsBlankLine l)

theorem headerLines_append_bodyLines (lines : List (List Char)) :
    headerLines lines ++ bodyLines lines = lines :=
  List.takeWhile_append_dropWhile

theorem of_mem_headerLines {lines : List (List Char)} {l : List Char} (h : l ∈ headerLines lines) :
    l ∈ lines ∧ ¬ IsBlankLine l :=
  ⟨(List.takeWhile_prefix _).subset h, by simpa using List.mem_takeWhile_imp h⟩

theorem headerLines_blank {line : List Char} (h : IsBlankLine line) (lines : List (List Char)) :
    headerLines (line :: lines) = [] ∧ bodyLines (line :: lines) = line :: lines :=
  ⟨List.takeWhile_cons_of_neg (by simpa using h), List.dropWhile_cons_of_neg (by simpa using h)⟩

theorem headerLines_cons {line : List Char} (h : ¬ IsBlankLine line) (lines : List (List Char)) :
    headerLines (line :: lines) = line :: headerLines lines ∧
      bodyLines (line :: lines) = bodyLines lines :=
  ⟨List.takeWhile_cons_of_pos (by simpa using h), List.dropWhile_cons_of_pos (by simpa using h)⟩

/-- Lines that are not blank, and a blank one behind them. -/
theorem headerLines_append_blank {headers : List (List Char)}
    (h : ∀ l ∈ headers, ¬ IsBlankLine l) {blank : List Char} (hblank : IsBlankLine blank)
    (lines : List (List Char)) :
    headerLines (headers ++ blank :: lines) = headers ∧
      bodyLines (headers ++ blank :: lines) = blank :: lines := by
  obtain ⟨hheaders, hbody⟩ := headerLines_blank hblank lines
  have hfront : ∀ l ∈ headers, decide (¬ IsBlankLine l) = true := fun l hl =>
    decide_eq_true (h l hl)
  unfold headerLines bodyLines at *
  rw [List.takeWhile_append_of_pos hfront, List.dropWhile_append_of_pos hfront, hheaders, hbody,
    List.append_nil]
  exact ⟨rfl, rfl⟩

theorem isBlankLine_of_bodyLines {lines rest : List (List Char)} {line : List Char}
    (h : bodyLines lines = line :: rest) : IsBlankLine line := by
  have hhead := List.head?_dropWhile_not (fun l => ¬ IsBlankLine l) lines
  rw [← bodyLines, h] at hhead
  simpa using hhead

/-- The lines from the blank one on leave the request as it is. -/
theorem of_parseBodyLines {lines : List (List Char)} {state state' : ParseState abi}
    (h : (bodyLines lines).foldlM (parseLine locals) state = .ok state') :
    LinesFit abi (bodyLines lines) ∧ state'.request = state.request := by
  cases hlines : bodyLines lines with
  | nil =>
    rw [hlines] at h
    obtain rfl := Except.ok.inj h
    exact ⟨by simp [LinesFit], rfl⟩
  | cons line rest =>
    have hblank := isBlankLine_of_bodyLines hlines
    rw [hlines, List.foldlM_cons, parseLine_blank locals hblank] at h
    obtain ⟨hfit, hrequest⟩ := of_parseBody locals (show _ = true from rfl) h
    refine ⟨fun l hl hne => ?_, hrequest⟩
    rcases List.mem_cons.mp hl with rfl | hl
    · exact absurd hblank hne
    · exact hfit l hl hne

theorem parseBodyLines_ok {lines : List (List Char)} (state : ParseState abi)
    (hfit : LinesFit abi (bodyLines lines)) :
    ∃ state', (bodyLines lines).foldlM (parseLine locals) state = .ok state' := by
  cases hlines : bodyLines lines with
  | nil => exact ⟨state, rfl⟩
  | cons line rest =>
    have hblank := isBlankLine_of_bodyLines hlines
    rw [hlines] at hfit
    rw [List.foldlM_cons, parseLine_blank locals hblank]
    exact parseBody_ok locals (show _ = true from rfl) fun l hl =>
      hfit l (List.mem_cons_of_mem _ hl)

/-- Every copy from a text with these lines has room, and so have its
headers. -/
structure TextFits (abi : Abi) (line : List Char) (rest : List (List Char)) : Prop where
  words : RequestWordsFit line
  headers : ∀ l ∈ headerLines rest, HeaderWordsFit abi l
  count : (headerLines rest).length ≤ 50
  body : LinesFit abi (bodyLines rest)

/-- What the request holds when the loop ends. -/
structure Reads (line : List Char) (rest : List (List Char)) (request : HttpRequest) : Prop where
  method : request.method.str = (requestWords line)[0]?.getD locals.request.method.str
  path : request.path.str = (requestWords line)[1]?.getD locals.request.path.str
  version : request.version.str = (requestWords line)[2]?.getD locals.request.version.str
  count : request.headers.count = (headerLines rest).length
  entries : request.headers.entries = lineEntries locals 0 (headerLines rest)

/-- A text that is read fits, and its request is what its lines give. -/
theorem of_parseHttpState {rawHttp line : List Char} {rest : List (List Char)}
    (hlines : strtokPieces '\n' (cstr rawHttp) = line :: rest) {final : ParseState abi}
    (hfinal : parseHttpState locals rawHttp = .ok final) :
    TextFits abi line rest ∧ Reads locals line rest final.request := by
  have hnul : ∀ l ∈ line :: rest, nul ∉ l := fun l hl => nul_not_mem_line (hlines ▸ hl)
  rw [parseHttpState_eq locals hlines] at hfinal
  obtain ⟨start, hstart, hfinal⟩ := bind_ok_iff.mp hfinal
  obtain ⟨hwords, hmethod, hpath, hversion, hheaders⟩ :=
    of_scanRequestLine (hnul line (by simp)) hstart
  have hcount : start.headers.count = 0 := by rw [hheaders]; rfl
  rw [← headerLines_append_bodyLines rest, List.foldlM_append] at hfinal
  obtain ⟨state, hstate, hfinal⟩ := bind_ok_iff.mp hfinal
  have hheaderLines : ∀ l ∈ headerLines rest, ¬ IsBlankLine l ∧ nul ∉ l := fun l hl =>
    ⟨(of_mem_headerLines hl).2, hnul l (List.mem_cons_of_mem line (of_mem_headerLines hl).1)⟩
  obtain ⟨hfits, htotal, hafter⟩ := of_parseHeaders locals hheaderLines
    (show (startState locals start).bodyEncountered = false from rfl)
    (show start.headers.count ≤ 50 by omega) hstate
  obtain ⟨hbody, hrequest⟩ := of_parseBodyLines locals hfinal
  change start.headers.count + _ ≤ 50 at htotal
  have hafterCount : state.request.headers.count = start.headers.count + _ := hafter.count
  have hafterEntries : state.request.headers.entries =
      start.headers.entries ++ lineEntries locals 0 (headerLines rest) := hafter.entries
  refine ⟨⟨hwords, hfits, by omega, hbody⟩, ?_⟩
  rw [hrequest]
  exact
    { method := (congrArg CharArray.str hafter.method).trans hmethod
      path := (congrArg CharArray.str hafter.path).trans hpath
      version := (congrArg CharArray.str hafter.version).trans hversion
      count := by rw [hafterCount, hcount, Nat.zero_add]
      entries := by
        rw [hafterEntries, HttpHeaders.entries, hcount, List.take_zero, List.nil_append] }

theorem parseHttpState_ok {rawHttp line : List Char} {rest : List (List Char)}
    (hlines : strtokPieces '\n' (cstr rawHttp) = line :: rest) (hfit : TextFits abi line rest) :
    ∃ final, parseHttpState locals rawHttp = .ok final := by
  have hnul : ∀ l ∈ line :: rest, nul ∉ l := fun l hl => nul_not_mem_line (hlines ▸ hl)
  obtain ⟨start, hstart⟩ := scanRequestLine_ok hfit.words (freshRequest locals)
  obtain ⟨-, -, -, -, hheaders⟩ := of_scanRequestLine (hnul line (by simp)) hstart
  have hcount : start.headers.count = 0 := by rw [hheaders]; rfl
  have hheaderLines : ∀ l ∈ headerLines rest, ¬ IsBlankLine l ∧ nul ∉ l := fun l hl =>
    ⟨(of_mem_headerLines hl).2, hnul l (List.mem_cons_of_mem line (of_mem_headerLines hl).1)⟩
  obtain ⟨state, hstate⟩ := parseHeaders_ok locals hheaderLines
    (show (startState locals start).bodyEncountered = false from rfl) hfit.headers
    (show start.headers.count + _ ≤ 50 by
      rw [hcount, Nat.zero_add]
      exact hfit.count)
  obtain ⟨final, hfinal⟩ := parseBodyLines_ok locals state hfit.body
  refine ⟨final, ?_⟩
  rw [parseHttpState_eq locals hlines]
  refine bind_ok_iff.mpr ⟨start, hstart, ?_⟩
  rw [← headerLines_append_bodyLines rest, List.foldlM_append]
  exact bind_ok_iff.mpr ⟨state, hstate, hfinal⟩

end

end CWebServer.Http
