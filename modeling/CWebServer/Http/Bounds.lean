/-
CWebServer.Http.Bounds — what keeps `parseHttp` inside its arrays.

Nothing in the source does: `%s`, `%[^:]` and `strcpy` write whatever the
text brings, `add_header` fills the slot `count` without looking at it, and
`strncpy` leaves a string that fills its array without a NUL. So each of
these holds exactly of the texts that happen to fit.

`CopiesFitFrom` and `TableKeptFrom` follow the loop line by line, and their
conditions on the lines left are proved by induction along it. The first
is about the copies that are reached: with a fifty-first header line the
run ends at `add_header`, after the conversions of that line and before
any line of the body (`copiesBounded_iff`). The second asks that the loop
go on (`tableKept_iff`).

No `sorry`, no `axiom`, no `native_decide`.
-/
import CWebServer.Http.Body

namespace CWebServer.Http

open Libc

section

variable {abi : Abi} (locals : Locals abi)

/-! ## Unbounded copies -/

/-- The copies of one iteration have room. -/
def CopiesFit (state : ParseState abi) (line : List Char) : Prop :=
  ¬ IsBlankLine line →
    if state.bodyEncountered = false then
      (∃ header, storeConversion (locals.header state.lineCount) (headerWords line)[0]? =
          .ok header) ∧
        ∃ value, storeConversion (locals.value state.lineCount) (headerWords line)[1]? = .ok value
    else ∃ body, state.body.store line = .ok body

/-- So do those of every iteration the loop gets to. -/
def CopiesFitFrom : List (List Char) → ParseState abi → Prop
  | [], _ => True
  | line :: lines, state =>
    CopiesFit locals state line ∧
      ∀ next, parseLine locals state line = .ok next → CopiesFitFrom lines next

/-- No unbounded copy of the call leaves its destination. -/
def CopiesBounded (rawHttp : List Char) : Prop :=
  ∀ line rest, strtokPieces '\n' (cstr rawHttp) = line :: rest →
    ((∃ method, storeConversion locals.request.method (requestWords line)[0]? = .ok method) ∧
      (∃ path, storeConversion locals.request.path (requestWords line)[1]? = .ok path) ∧
        ∃ version, storeConversion locals.request.version (requestWords line)[2]? = .ok version) ∧
    ∀ request, scanRequestLine (freshRequest locals) line = .ok request →
      CopiesFitFrom locals rest (startState locals request)

theorem copiesFit_header_iff {state : ParseState abi} {line : List Char}
    (hblank : ¬ IsBlankLine line) (hbody : state.bodyEncountered = false) :
    CopiesFit locals state line ↔ HeaderWordsFit abi line := by
  rw [CopiesFit, if_pos hbody, storeConversion_ok_iff, storeConversion_ok_iff]
  exact ⟨fun h => ⟨(h hblank).1, (h hblank).2⟩, fun h _ => ⟨h.name, h.value⟩⟩

theorem copiesFit_body_iff {state : ParseState abi} {line : List Char}
    (hbody : state.bodyEncountered = true) :
    CopiesFit locals state line ↔ (¬ IsBlankLine line → line.length < 1024 * abi.sizeofPtr) := by
  rw [CopiesFit, if_neg (by rw [hbody]; decide), CharArray.store_ok_iff]

/-- Behind the blank line the loop gets to every line as long as each
fits. -/
theorem copiesFitFrom_body_iff {lines : List (List Char)} {state : ParseState abi}
    (hbody : state.bodyEncountered = true) :
    CopiesFitFrom locals lines state ↔ LinesFit abi lines := by
  induction lines generalizing state with
  | nil => simp [CopiesFitFrom, LinesFit]
  | cons line lines ih =>
    rw [CopiesFitFrom, copiesFit_body_iff locals hbody]
    constructor
    · intro h
      obtain ⟨hline, hrest⟩ := h
      obtain ⟨next, hnext⟩ := parseLine_body_ok locals hbody hline
      obtain ⟨-, -, hbody'⟩ := of_parseLine_body locals hbody hnext
      intro l hl
      rcases List.mem_cons.mp hl with rfl | hl
      · exact hline
      · exact (ih hbody').mp (hrest next hnext) l hl
    · intro h
      refine ⟨h line (by simp), fun next hnext => ?_⟩
      obtain ⟨-, -, hbody'⟩ := of_parseLine_body locals hbody hnext
      exact (ih hbody').mpr fun l hl => h l (List.mem_cons_of_mem line hl)

/-- Before it, the loop gets to the header line that the table has no room
for, and not beyond. -/
theorem copiesFitFrom_header_iff {lines : List (List Char)} {state : ParseState abi}
    (hnul : ∀ l ∈ lines, nul ∉ l) (hbody : state.bodyEncountered = false)
    (hcount : state.request.headers.count ≤ 50) :
    CopiesFitFrom locals lines state ↔
      (∀ l ∈ (headerLines lines).take (51 - state.request.headers.count), HeaderWordsFit abi l) ∧
        (state.request.headers.count + (headerLines lines).length ≤ 50 →
          LinesFit abi (bodyLines lines)) := by
  induction lines generalizing state with
  | nil => simp [CopiesFitFrom, headerLines, bodyLines, LinesFit]
  | cons line lines ih =>
    have hnul' : ∀ l ∈ lines, nul ∉ l := fun l hl => hnul l (List.mem_cons_of_mem line hl)
    by_cases hblank : IsBlankLine line
    · obtain ⟨hheaders, hrest⟩ := headerLines_blank hblank lines
      have hstep : parseLine locals state line = _ := parseLine_blank locals hblank
      have hbehind : CopiesFitFrom locals lines
          { state with bodyEncountered := true, lineCount := state.lineCount + 1 } ↔
            LinesFit abi lines := copiesFitFrom_body_iff locals rfl
      have hfit : LinesFit abi (line :: lines) ↔ LinesFit abi lines :=
        ⟨fun h l hl => h l (List.mem_cons_of_mem line hl), fun h l hl hne => by
          rcases List.mem_cons.mp hl with rfl | hl
          · exact absurd hblank hne
          · exact h l hl hne⟩
      rw [CopiesFitFrom, hheaders, hrest, hfit, ← hbehind]
      constructor
      · intro h
        exact ⟨by simp, fun _ => h.2 _ hstep⟩
      · intro h
        refine ⟨fun hne => absurd hblank hne, fun next hnext => ?_⟩
        obtain rfl := Except.ok.inj (hstep.symm.trans hnext)
        exact h.2 (by simpa using hcount)
    · obtain ⟨hheaders, hrest⟩ := headerLines_cons hblank lines
      have hline := hnul line (by simp)
      obtain ⟨k, hk⟩ : ∃ k, 51 - state.request.headers.count = k + 1 :=
        ⟨50 - state.request.headers.count, by omega⟩
      rw [CopiesFitFrom, copiesFit_header_iff locals hblank hbody, hheaders, hrest, hk,
        List.take_succ_cons, List.length_cons]
      constructor
      · intro h
        obtain ⟨hfit, hnext⟩ := h
        by_cases hroom : state.request.headers.count < 50
        · obtain ⟨next, hstep⟩ := parseLine_header_ok locals hblank hbody hfit hroom
          obtain ⟨-, -, hafter⟩ := of_parseLine_header locals hblank hbody hline hstep
          have hcount' : next.request.headers.count = state.request.headers.count + 1 :=
            hafter.count
          obtain ⟨hfits, hlines⟩ := (ih hnul' (hafter.bodyEncountered.trans hbody)
            (by omega)).mp (hnext next hstep)
          rw [hcount', show 51 - (state.request.headers.count + 1) = k by omega] at hfits
          refine ⟨fun l hl => ?_, fun htotal => hlines (by omega)⟩
          rcases List.mem_cons.mp hl with rfl | hl
          · exact hfit
          · exact hfits l hl
        · -- The table is full: this line is the last that is looked at.
          have hlast : k = 0 := by omega
          subst hlast
          refine ⟨fun l hl => ?_, fun htotal => absurd htotal (by omega)⟩
          rw [List.take_zero, List.mem_singleton] at hl
          exact hl ▸ hfit
      · intro h
        obtain ⟨hfits, hlines⟩ := h
        refine ⟨hfits line (by simp), fun next hstep => ?_⟩
        obtain ⟨-, hroom, hafter⟩ := of_parseLine_header locals hblank hbody hline hstep
        have hcount' : next.request.headers.count = state.request.headers.count + 1 := hafter.count
        refine (ih hnul' (hafter.bodyEncountered.trans hbody) (by omega)).mpr ⟨fun l hl => ?_, ?_⟩
        · rw [hcount', show 51 - (state.request.headers.count + 1) = k by omega] at hl
          exact hfits l (List.mem_cons_of_mem line hl)
        · intro htotal
          exact hlines (by omega)

/-- Everything that is copied has the room it is copied to: the words of
the first line, the header lines that are looked at, and the body lines if
the header lines leave the loop going. -/
structure CopiedFits (abi : Abi) (line : List Char) (rest : List (List Char)) : Prop where
  words : RequestWordsFit line
  headers : ∀ l ∈ (headerLines rest).take 51, HeaderWordsFit abi l
  body : (headerLines rest).length ≤ 50 → LinesFit abi (bodyLines rest)

/-- **Bounded copies**: no copy leaves its destination exactly when what is
copied fits. -/
theorem copiesBounded_iff (rawHttp : List Char) :
    CopiesBounded locals rawHttp ↔
      ∀ line rest, strtokPieces '\n' (cstr rawHttp) = line :: rest → CopiedFits abi line rest := by
  refine forall_congr' fun line => forall_congr' fun rest => imp_congr_right fun hlines => ?_
  have hnul : ∀ l ∈ line :: rest, nul ∉ l := fun l hl => nul_not_mem_line (hlines ▸ hl)
  have hrest : ∀ l ∈ rest, nul ∉ l := fun l hl => hnul l (List.mem_cons_of_mem line hl)
  have hrun : ∀ request, scanRequestLine (freshRequest locals) line = .ok request →
      (CopiesFitFrom locals rest (startState locals request) ↔
        (∀ l ∈ (headerLines rest).take 51, HeaderWordsFit abi l) ∧
          ((headerLines rest).length ≤ 50 → LinesFit abi (bodyLines rest))) := by
    intro request hrequest
    obtain ⟨-, -, -, -, hheaders⟩ := of_scanRequestLine (hnul line (by simp)) hrequest
    have hcount : (startState locals request).request.headers.count = 0 := by
      change request.headers.count = 0
      rw [hheaders]
      rfl
    rw [copiesFitFrom_header_iff locals hrest rfl (by omega), hcount, Nat.zero_add, Nat.sub_zero]
  rw [storeConversion_ok_iff, storeConversion_ok_iff, storeConversion_ok_iff]
  constructor
  · intro h
    obtain ⟨⟨hmethod, hpath, hversion⟩, hcopies⟩ := h
    have hwords : RequestWordsFit line := ⟨hmethod, hpath, hversion⟩
    obtain ⟨request, hrequest⟩ := scanRequestLine_ok hwords (freshRequest locals)
    obtain ⟨hfits, hbody⟩ := (hrun request hrequest).mp (hcopies request hrequest)
    exact ⟨hwords, hfits, hbody⟩
  · intro h
    exact ⟨⟨h.words.method, h.words.path, h.words.version⟩, fun request hrequest =>
      (hrun request hrequest).mpr ⟨h.headers, h.body⟩⟩

end

/-- A method of sixteen characters: `read_cb` takes the text, and the first
copy writes behind `method`. -/
theorem method_overflows :
    let abi : Abi := ⟨8, by decide⟩
    let text := "ABCDEFGHIJKLMNOP / HTTP/1.1\r\n".toList
    strstr text ['\r', '\n'] = true ∧
      parseHttp (.fill abi nul) text = .error (.outOfBounds 16) ∧
      ¬ CopiesBounded (.fill abi nul) text := by
  intro abi text
  refine ⟨by decide +kernel, by decide +kernel, fun h => ?_⟩
  have hpieces : strtokPieces '\n' (cstr text) = ["ABCDEFGHIJKLMNOP / HTTP/1.1\r".toList] := by
    decide +kernel
  obtain ⟨⟨⟨method, hmethod⟩, -⟩, -⟩ := h _ _ hpieces
  have hlong := (storeConversion_ok_iff.mp ⟨method, hmethod⟩) "ABCDEFGHIJKLMNOP".toList
  exact absurd (hlong (by decide +kernel)) (by decide)

/-! ## The header table -/

/-- The table is within its bounds, and every string in it is terminated. -/
structure HttpHeaders.WellFormed (headers : HttpHeaders) : Prop where
  count : headers.count ≤ 50
  name : ∀ h ∈ headers.entries, nul ∈ h.name.chars
  value : ∀ h ∈ headers.entries, nul ∈ h.value.chars

section

variable {abi : Abi} (locals : Locals abi)

/-- It is so at every iteration, each of which gets to the next, and
wherever `add_header` is called there is a slot. -/
def TableKeptFrom : List (List Char) → ParseState abi → Prop
  | [], state => state.request.headers.WellFormed
  | line :: lines, state =>
    state.request.headers.WellFormed ∧
      (¬ IsBlankLine line → state.bodyEncountered = false → state.request.headers.count < 50) ∧
      ∃ next, parseLine locals state line = .ok next ∧ TableKeptFrom lines next

end

/-- It is so throughout a call, whatever the locals hold. -/
def TableKept (abi : Abi) (rawHttp : List Char) : Prop :=
  ∀ locals : Locals abi, ∃ line rest request,
    strtokPieces '\n' (cstr rawHttp) = line :: rest ∧
      scanRequestLine (freshRequest locals) line = .ok request ∧
      TableKeptFrom locals rest (startState locals request)

/-- A line with a name and a value that leave room for a NUL in a slot. -/
def FillsSlot (line : List Char) : Prop :=
  ∃ name value, headerWords line = [name, value] ∧
    name.length < maxHeaderNameLength ∧ value.length < maxHeaderValueLength

/-- A text whose copies fit, and whose header lines each fill one of fifty
slots. -/
structure TableFits (abi : Abi) (line : List Char) (rest : List (List Char)) : Prop where
  words : RequestWordsFit line
  slots : ∀ l ∈ headerLines rest, FillsSlot l
  count : (headerLines rest).length ≤ 50
  body : LinesFit abi (bodyLines rest)

theorem FillsSlot.headerWordsFit (abi : Abi) {line : List Char} (h : FillsSlot line) :
    HeaderWordsFit abi line := by
  obtain ⟨name, value, hwords, hname, hvalue⟩ := h
  have hname' := Nat.le_mul_of_pos_right maxHeaderNameLength abi.sizeofPtr_pos
  have hvalue' := Nat.le_mul_of_pos_right maxHeaderValueLength abi.sizeofPtr_pos
  refine ⟨?_, ?_⟩ <;> rw [hwords] <;> intro s hs
  · obtain rfl := Option.some.inj hs
    omega
  · obtain rfl := Option.some.inj hs
    omega

/-- Such a line leaves terminated strings, and nothing of the buffers. -/
theorem FillsSlot.lineEntry_eq {line : List Char} (h : FillsSlot line)
    (header header' value value' : List Char) :
    lineEntry header value line = lineEntry header' value' line := by
  obtain ⟨name, word, hwords, -, -⟩ := h
  simp only [lineEntry, hwords]
  rfl

theorem FillsSlot.nul_mem {line : List Char} (h : FillsSlot line) (header value : List Char) :
    nul ∈ (lineEntry header value line).name.chars ∧
      nul ∈ (lineEntry header value line).value.chars := by
  obtain ⟨name, word, hwords, hname, hword⟩ := h
  have hle : ∀ s : List Char, strlen s ≤ s.length := fun s => (List.takeWhile_prefix _).length_le
  simp only [lineEntry, hwords, nul_mem_strncpy_iff]
  exact ⟨(hle name).trans_lt hname, (hle word).trans_lt hword⟩

section

variable {abi : Abi} {line : List Char} {rest : List (List Char)}

theorem TableFits.textFits (h : TableFits abi line rest) : TextFits abi line rest where
  words := h.words
  headers l hl := (h.slots l hl).headerWordsFit abi
  count := h.count
  body := h.body

/-- Lines that fill their slots leave the same slots under any buffers. -/
theorem Reads.entries_eq {locals : Locals abi} {request : HttpRequest}
    (h : Reads locals line rest request) (hslots : ∀ l ∈ headerLines rest, FillsSlot l) :
    request.headers.entries = (headerLines rest).map (lineEntry [] []) := by
  have hmap : (lineEntries locals 0 ((headerLines rest).map id)).map id = _ :=
    map_lineEntries locals id 0 fun l hl header value =>
      (hslots l hl).lineEntry_eq header [] value []
  rwa [List.map_id, List.map_id, ← h.entries] at hmap

/-- A text whose table fits is read into a well-formed one. -/
theorem Reads.wellFormed {locals : Locals abi} {request : HttpRequest}
    (h : Reads locals line rest request) (hfit : TableFits abi line rest) :
    request.headers.WellFormed := by
  have hall : ∀ e ∈ request.headers.entries, nul ∈ e.name.chars ∧ nul ∈ e.value.chars := by
    intro e he
    rw [h.entries_eq hfit.slots] at he
    obtain ⟨l, hl, rfl⟩ := List.mem_map.mp he
    exact (hfit.slots l hl).nul_mem [] []
  refine ⟨?_, fun e he => (hall e he).1, fun e he => (hall e he).2⟩
  rw [h.count]
  exact hfit.count

end

/-- A slot that ends shows that what was converted had room, -/
theorem conversionFits_of_nul_mem {n : Nat} {conversion : Option (List Char)} {held : List Char}
    (hfree : ∀ s ∈ conversion, nul ∉ s)
    (h : nul ∈ (strncpy n (conversion.getD held)).chars) : ConversionFits n conversion := by
  intro s hs
  obtain rfl := Option.mem_def.mp hs
  rw [nul_mem_strncpy_iff, Option.getD_some, strlen_of_not_mem (hfree s rfl)] at h
  exact h

/-- and one whose buffer held an empty string then ends. -/
theorem ConversionFits.nul_mem {n k : Nat} {conversion : Option (List Char)}
    (h : ConversionFits n conversion) (hn : 0 < n) :
    nul ∈ (strncpy n (conversion.getD (List.replicate k nul))).chars := by
  rw [nul_mem_strncpy_iff]
  cases conversion with
  | none =>
    rw [Option.getD_none, strlen, cstr_replicate_nul]
    exact hn
  | some s => exact (List.takeWhile_prefix _).length_le.trans_lt (h s rfl)

/-- Buffers without a NUL show which lines leave the slot to them. -/
theorem fillsSlot_of_nul_mem {abi : Abi} {line : List Char} (hnul : nul ∉ line)
    (hname : nul ∈ (lineEntry (List.replicate (maxHeaderNameLength * abi.sizeofPtr) 'a')
      (List.replicate (maxHeaderValueLength * abi.sizeofPtr) 'a') line).name.chars)
    (hvalue : nul ∈ (lineEntry (List.replicate (maxHeaderNameLength * abi.sizeofPtr) 'a')
      (List.replicate (maxHeaderValueLength * abi.sizeofPtr) 'a') line).value.chars) :
    FillsSlot line := by
  have hlong : ∀ n, ¬ strlen (List.replicate (n * abi.sizeofPtr) 'a') < n := by
    intro n
    rw [strlen, cstr_replicate (show 'a' ≠ nul by decide), List.length_replicate]
    exact Nat.not_lt.mpr (Nat.le_mul_of_pos_right n abi.sizeofPtr_pos)
  simp only [lineEntry, nul_mem_strncpy_iff] at hname hvalue
  rcases headerWords_cases line with hwords | ⟨name, hwords⟩ | ⟨name, word, hwords⟩
  · rw [hwords] at hname
    exact absurd hname (hlong _)
  · rw [hwords] at hvalue
    exact absurd hvalue (hlong _)
  · have hfree : ∀ s ∈ headerWords line, nul ∉ s := fun s hs hmem =>
      hnul ((infix_of_mem_sscanf hs).subset hmem)
    rw [hwords] at hname hvalue
    change strlen name < _ at hname
    change strlen word < _ at hvalue
    rw [strlen_of_not_mem (hfree name (by simp [hwords]))] at hname
    rw [strlen_of_not_mem (hfree word (by simp [hwords]))] at hvalue
    exact ⟨name, word, hwords, hname, hvalue⟩

section

variable {abi : Abi} (locals : Locals abi)

/-- The loop comes to its end with the table as it should be. -/
theorem TableKeptFrom.run {lines : List (List Char)} {state : ParseState abi}
    (h : TableKeptFrom locals lines state) :
    ∃ final, lines.foldlM (parseLine locals) state = .ok final ∧
      final.request.headers.WellFormed := by
  induction lines generalizing state with
  | nil => exact ⟨state, rfl, h⟩
  | cons line lines ih =>
    obtain ⟨-, -, next, hnext, hrest⟩ := h
    obtain ⟨final, hfinal, hwell⟩ := ih hrest
    rw [List.foldlM_cons]
    exact ⟨final, bind_ok_iff.mpr ⟨next, hnext, hfinal⟩, hwell⟩

theorem TableKept.parseHttpState {rawHttp : List Char} (h : TableKept abi rawHttp) :
    ∃ line rest final, strtokPieces '\n' (cstr rawHttp) = line :: rest ∧
      parseHttpState locals rawHttp = .ok final ∧ final.request.headers.WellFormed := by
  obtain ⟨line, rest, request, hlines, hrequest, hkept⟩ := h locals
  obtain ⟨final, hfinal, hwell⟩ := hkept.run
  refine ⟨line, rest, final, hlines, ?_, hwell⟩
  rw [parseHttpState_eq locals hlines]
  exact bind_ok_iff.mpr ⟨request, hrequest, hfinal⟩

theorem tableKeptFrom_body {lines : List (List Char)} {state : ParseState abi}
    (hwell : state.request.headers.WellFormed) (hbody : state.bodyEncountered = true)
    (hfit : LinesFit abi lines) : TableKeptFrom locals lines state := by
  induction lines generalizing state with
  | nil => exact hwell
  | cons line lines ih =>
    obtain ⟨next, hnext⟩ := parseLine_body_ok locals hbody (hfit line (by simp))
    obtain ⟨-, hrequest, hbody'⟩ := of_parseLine_body locals hbody hnext
    have hclosed : state.bodyEncountered ≠ false := by simp [hbody]
    refine ⟨hwell, fun _ hopen => absurd hopen hclosed, next, hnext, ?_⟩
    exact ih (by rwa [hrequest]) hbody' fun l hl => hfit l (List.mem_cons_of_mem line hl)

/-- A header line that fills its slot keeps the table. -/
theorem AfterHeaders.wellFormed {state state' : ParseState abi} {line : List Char}
    (h : AfterHeaders locals state state' [line]) (hwell : state.request.headers.WellFormed)
    (hroom : state.request.headers.count < 50) (hfills : FillsSlot line) :
    state'.request.headers.WellFormed := by
  obtain ⟨hname, hvalue⟩ := hfills.nul_mem (locals.header state.lineCount).chars
    (locals.value state.lineCount).chars
  have hentries := h.entries
  simp only [lineEntries] at hentries
  have hcount : state'.request.headers.count = state.request.headers.count + 1 := h.count
  refine ⟨by omega, fun entry hentry => ?_, fun entry hentry => ?_⟩
  · rw [hentries, List.mem_append, List.mem_singleton] at hentry
    rcases hentry with hold | rfl
    · exact hwell.name entry hold
    · exact hname
  · rw [hentries, List.mem_append, List.mem_singleton] at hentry
    rcases hentry with hold | rfl
    · exact hwell.value entry hold
    · exact hvalue

theorem tableKeptFrom_headers {lines : List (List Char)} {state : ParseState abi}
    (hnul : ∀ l ∈ lines, nul ∉ l) (hwell : state.request.headers.WellFormed)
    (hbody : state.bodyEncountered = false) (hfills : ∀ l ∈ headerLines lines, FillsSlot l)
    (hcount : state.request.headers.count + (headerLines lines).length ≤ 50)
    (hfit : LinesFit abi (bodyLines lines)) : TableKeptFrom locals lines state := by
  induction lines generalizing state with
  | nil => exact hwell
  | cons line lines ih =>
    by_cases hblank : IsBlankLine line
    · rw [(headerLines_blank hblank lines).2] at hfit
      refine ⟨hwell, fun hne => absurd hblank hne, _, parseLine_blank locals hblank, ?_⟩
      exact tableKeptFrom_body locals hwell rfl fun l hl => hfit l (List.mem_cons_of_mem line hl)
    · obtain ⟨hheaders, hrest⟩ := headerLines_cons hblank lines
      rw [hheaders] at hfills hcount
      rw [hrest] at hfit
      rw [List.length_cons] at hcount
      have hfillsLine := hfills line (by simp)
      have hroom : state.request.headers.count < 50 := by omega
      obtain ⟨next, hnext⟩ := parseLine_header_ok locals hblank hbody
        (hfillsLine.headerWordsFit abi) hroom
      obtain ⟨-, -, hafter⟩ :=
        of_parseLine_header locals hblank hbody (hnul line (by simp)) hnext
      have hcount' : next.request.headers.count = state.request.headers.count + 1 := hafter.count
      refine ⟨hwell, fun _ _ => hroom, next, hnext, ?_⟩
      exact ih (fun l hl => hnul l (List.mem_cons_of_mem line hl))
        (hafter.wellFormed locals hwell hroom hfillsLine) (hafter.bodyEncountered.trans hbody)
        (fun l hl => hfills l (List.mem_cons_of_mem line hl)) (by omega) hfit

end

/-- The request of a text that is read under buffers without a NUL shows
whether each header line fills its slot. -/
theorem fillsSlot_of_wellFormed {abi : Abi} {line : List Char} {rest : List (List Char)}
    {request : HttpRequest} (hnul : ∀ l ∈ rest, nul ∉ l)
    (hreads : Reads (Locals.fill abi 'a') line rest request)
    (hwell : request.headers.WellFormed) : ∀ l ∈ headerLines rest, FillsSlot l := by
  intro l hl
  have hentries := hreads.entries
  rw [lineEntries_fill] at hentries
  have hmem := hentries ▸ List.mem_map_of_mem hl
  exact fillsSlot_of_nul_mem (hnul l (of_mem_headerLines hl).1) (hwell.name _ hmem)
    (hwell.value _ hmem)

/-- **Header table**: its bounds and its terminators are kept at every
iteration exactly when the text's copies fit, its header lines are at most
fifty, and each converts a name and a value that leave room for a NUL. -/
theorem tableKept_iff (abi : Abi) (rawHttp : List Char) :
    TableKept abi rawHttp ↔
      ∃ line rest, strtokPieces '\n' (cstr rawHttp) = line :: rest ∧ TableFits abi line rest := by
  constructor
  · intro h
    obtain ⟨line, rest, final, hlines, hfinal, hwell⟩ := h.parseHttpState (Locals.fill abi 'a')
    obtain ⟨hfit, hreads⟩ := of_parseHttpState _ hlines hfinal
    have hnul : ∀ l ∈ rest, nul ∉ l := fun l hl =>
      nul_not_mem_line (hlines ▸ List.mem_cons_of_mem line hl)
    exact ⟨line, rest, hlines, hfit.words, fillsSlot_of_wellFormed hnul hreads hwell, hfit.count,
      hfit.body⟩
  · intro h locals
    obtain ⟨line, rest, hlines, hfit⟩ := h
    have hnul : ∀ l ∈ line :: rest, nul ∉ l := fun l hl => nul_not_mem_line (hlines ▸ hl)
    obtain ⟨request, hrequest⟩ := scanRequestLine_ok hfit.words (freshRequest locals)
    obtain ⟨-, -, -, -, hheaders⟩ := of_scanRequestLine (hnul line (by simp)) hrequest
    have hcount : (startState locals request).request.headers.count = 0 := by
      change request.headers.count = 0
      rw [hheaders]
      rfl
    have hempty : (startState locals request).request.headers.entries = [] := by
      rw [HttpHeaders.entries, hcount, List.take_zero]
    have hwell : (startState locals request).request.headers.WellFormed :=
      ⟨by omega, by simp [hempty], by simp [hempty]⟩
    refine ⟨line, rest, request, hlines, hrequest, ?_⟩
    exact tableKeptFrom_headers locals (fun l hl => hnul l (List.mem_cons_of_mem line hl)) hwell rfl
      hfit.slots (by rw [hcount, Nat.zero_add]; exact hfit.count) hfit.body

/-- A name of 128 characters fills its array and leaves no room for a
NUL. -/
theorem name_not_terminated :
    let abi : Abi := ⟨8, by decide⟩
    let text := "GET / HTTP/1.1\r\n".toList ++ List.replicate 128 'n' ++ ": v\r\n\r\n".toList
    strstr text ['\r', '\n'] = true ∧
      (parseHttp (.fill abi nul) text).map
          (fun r => r.headers.entries.map fun h => h.name.chars) =
        .ok [List.replicate 128 'n'] ∧
      ¬ TableKept abi text := by
  intro abi text
  have hnames : (parseHttp (.fill abi nul) text).map
      (fun r => r.headers.entries.map fun h => h.name.chars) = .ok [List.replicate 128 'n'] := by
    decide +kernel
  refine ⟨by decide +kernel, hnames, fun h => ?_⟩
  obtain ⟨line, rest, final, -, hfinal, hwell⟩ := h.parseHttpState (.fill abi nul)
  cases hparse : parseHttp (.fill abi nul) text with
  | error fault =>
    rw [hparse] at hnames
    cases hnames
  | ok request =>
  obtain ⟨final', hfinal', -, rfl⟩ := (parseHttp_ok_iff _).mp hparse
  obtain rfl := Except.ok.inj (hfinal.symm.trans hfinal')
  rw [hparse] at hnames
  have hentries : final.request.headers.entries.map (fun h => h.name.chars) =
      [List.replicate 128 'n'] := Except.ok.inj hnames
  obtain ⟨entry, hentry, hname⟩ := List.map_eq_singleton_iff.mp hentries
  have hmem := hwell.name entry (by rw [hentry]; exact List.mem_singleton_self entry)
  rw [hname] at hmem
  exact absurd (List.eq_of_mem_replicate hmem) (by decide)

end CWebServer.Http
