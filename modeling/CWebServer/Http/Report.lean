/-
CWebServer.Http.Report — what `print_headers` writes.

Each counted slot is printed as a line, and each of its two strings is read
up to its NUL. `add_header` copies with `strncpy`, which leaves none when
the array is full, so the loop is defined exactly on a table in its bounds
whose strings all end (`printHeaders_ok_iff`).

What it writes is again a header section. A name that `%[^:]` converted
holds no colon, a value that `%s` converted is one word, and the space
printed between the two is skipped, so the lines parse back to the table
they were printed from (`printHeaders_parse_back`), whatever was lost when
the table was first read.

No `sorry`, no `axiom`, no `native_decide`.
-/
import CWebServer.Http.Bounds
import CWebServer.Http.Message

namespace CWebServer.Http

open Libc

/-! ## When it is defined -/

/-- Both strings of a slot end inside their arrays. -/
def HttpHeader.Terminated (header : HttpHeader) : Prop :=
  nul ∈ header.name.chars ∧ nul ∈ header.value.chars

/-- The line printed for a slot. -/
def HttpHeader.line (header : HttpHeader) : List Char :=
  fieldLine header.name.str header.value.str

theorem printHeader_ok_iff {header : HttpHeader} {line : List Char} :
    printHeader header = .ok line ↔ header.Terminated ∧ line = header.line ++ ['\n'] := by
  unfold printHeader
  constructor
  · intro h
    obtain ⟨name, hname, h⟩ := bind_ok_iff.mp h
    obtain ⟨value, hvalue, h⟩ := bind_ok_iff.mp h
    obtain ⟨hnul, rfl⟩ := readString_ok_iff.mp hname
    obtain ⟨hnul', rfl⟩ := readString_ok_iff.mp hvalue
    exact ⟨⟨hnul, hnul'⟩, (Except.ok.inj h).symm⟩
  · intro h
    obtain ⟨⟨hnul, hnul'⟩, rfl⟩ := h
    exact bind_ok_iff.mpr ⟨_, readString_ok_iff.mpr ⟨hnul, rfl⟩,
      bind_ok_iff.mpr ⟨_, readString_ok_iff.mpr ⟨hnul', rfl⟩, rfl⟩⟩

/-- The loop from slot `i` on, by induction on the iterations left. -/
theorem printHeadersLoop_ok_iff (headers : HttpHeaders) (left : Nat) {i : Nat} (hi : i ≤ 50)
    {out : List Char} :
    printHeadersLoop headers left i = .ok out ↔
      i + left ≤ 50 ∧ (∀ h ∈ (headers.keyValues.toList.drop i).take left, h.Terminated) ∧
        out = terminated .lf (((headers.keyValues.toList.drop i).take left).map
          HttpHeader.line) := by
  induction left generalizing i out with
  | zero =>
    rw [printHeadersLoop]
    simp [hi, terminated, eq_comm]
  | succ left ih =>
    rw [printHeadersLoop]
    have hlen : headers.keyValues.toList.length = 50 := Vector.length_toList
    by_cases hlt : i < 50
    · obtain ⟨header, hheader⟩ : ∃ header, headers.keyValues.toList[i]? = some header :=
        ⟨_, List.getElem?_eq_getElem (by omega)⟩
      have hdrop : (headers.keyValues.toList.drop i).take (left + 1) =
          header :: (headers.keyValues.toList.drop (i + 1)).take left := by
        obtain ⟨hin, rfl⟩ := List.getElem?_eq_some_iff.mp hheader
        rw [List.drop_eq_getElem_cons hin, List.take_succ_cons]
      rw [hheader, hdrop]
      simp only [List.forall_mem_cons, List.map_cons]
      constructor
      · intro h
        obtain ⟨line, hline, h⟩ := bind_ok_iff.mp h
        obtain ⟨lines, hlines, h⟩ := bind_ok_iff.mp h
        obtain ⟨hterminated, rfl⟩ := printHeader_ok_iff.mp hline
        obtain ⟨hroom, hrest, rfl⟩ := (ih (show i + 1 ≤ 50 by omega)).mp hlines
        exact ⟨by omega, ⟨hterminated, hrest⟩, (Except.ok.inj h).symm⟩
      · intro h
        obtain ⟨hroom, ⟨hterminated, hrest⟩, rfl⟩ := h
        exact bind_ok_iff.mpr ⟨_, printHeader_ok_iff.mpr ⟨hterminated, rfl⟩,
          bind_ok_iff.mpr ⟨_, (ih (show i + 1 ≤ 50 by omega)).mpr ⟨by omega, hrest, rfl⟩, rfl⟩⟩
    · rw [List.getElem?_eq_none (by omega)]
      constructor
      · intro h
        cases h
      · intro h
        omega

/-- `print_headers` is defined exactly on a well-formed table. -/
theorem printHeaders_ok_iff {request : HttpRequest} {out : List Char} :
    printHeaders request = .ok out ↔
      request.headers.WellFormed ∧
        out = terminated .lf (request.headers.entries.map HttpHeader.line) := by
  rw [printHeaders, printHeadersLoop_ok_iff request.headers _ (Nat.zero_le 50), Nat.zero_add,
    List.drop_zero]
  change _ ∧ (∀ h ∈ request.headers.entries, h.Terminated) ∧ out = terminated .lf
    (request.headers.entries.map HttpHeader.line) ↔ _
  constructor
  · intro h
    obtain ⟨hcount, hall, hout⟩ := h
    exact ⟨⟨hcount, fun e he => (hall e he).1, fun e he => (hall e he).2⟩, hout⟩
  · intro h
    obtain ⟨hwell, hout⟩ := h
    exact ⟨hwell.count, fun e he => ⟨hwell.name e he, hwell.value e he⟩, hout⟩

/-! ## Parsed and printed -/

/-- What two conversions of a header line are. -/
theorem of_headerWords {line name value : List Char} (h : headerWords line = [name, value]) :
    name ≠ [] ∧ ':' ∉ name ∧ value ≠ [] ∧ ∀ c ∈ value, isspace c = false := by
  rw [headerWords, sscanf] at h
  split_ifs at h with hname
  rw [List.cons.injEq] at h
  obtain ⟨hnameEq, hrest⟩ := h
  subst hnameEq
  refine ⟨hname, fun hmem => by simpa using List.mem_takeWhile_imp hmem, ?_⟩
  cases hdrop : line.dropWhile (· != ':') with
  | nil =>
    rw [hdrop, sscanf] at hrest
    cases hrest
  | cons d rest =>
    rw [hdrop, sscanf] at hrest
    split_ifs at hrest with hcolon
    rw [sscanf] at hrest
    split_ifs at hrest with hword
    rw [List.cons.injEq] at hrest
    obtain ⟨hvalueEq, -⟩ := hrest
    subst hvalueEq
    exact ⟨hword, fun c hc => by simpa using List.mem_takeWhile_imp hc⟩

/-- A printed line converts to what it was printed from. -/
theorem headerWords_fieldLine {line name value : List Char}
    (h : headerWords line = [name, value]) :
    headerWords (fieldLine name value) = [name, value] := by
  obtain ⟨hname, hcolon, hvalue, hword⟩ := of_headerWords h
  have hfirst : firstWord (' ' :: value) = value := by
    have hwhole := (firstWord_append [] hvalue hword nofun).1
    rw [List.append_nil] at hwhole
    rw [firstWord_cons_space (by decide), hwhole]
  rw [headerWords, fieldLine, sscanf_field hname hcolon, hfirst, if_neg hvalue]

/-- The slot of a line that fills it shows the two conversions. -/
theorem FillsSlot.line_eq {line : List Char} (h : FillsSlot line) (hnul : nul ∉ line)
    (header value : List Char) :
    ∃ name word, headerWords line = [name, word] ∧ FillsSlot (fieldLine name word) ∧
      (lineEntry header value line).name.str = name ∧
      (lineEntry header value line).value.str = word := by
  obtain ⟨name, word, hwords, hname, hword⟩ := h
  have hfree : ∀ s ∈ headerWords line, nul ∉ s := fun s hs hmem =>
    hnul ((infix_of_mem_sscanf hs).subset hmem)
  refine ⟨name, word, hwords, ⟨name, word, headerWords_fieldLine hwords, hname, hword⟩, ?_, ?_⟩
  · simp only [lineEntry, hwords, strncpy_str]
    change (cstr name).take _ = name
    rw [cstr_of_not_mem (hfree name (by simp [hwords])), List.take_of_length_le hname.le]
  · simp only [lineEntry, hwords, strncpy_str]
    change (cstr word).take _ = word
    rw [cstr_of_not_mem (hfree word (by simp [hwords])), List.take_of_length_le hword.le]

/-- The line printed for a header line that fills its slot. -/
def printedLine (line : List Char) : List Char := (lineEntry [] [] line).line

/-- Printing changes nothing of what a line converts to. -/
theorem FillsSlot.printedLine {line : List Char} (h : FillsSlot line) (hnul : nul ∉ line) :
    headerWords (printedLine line) = headerWords line ∧ FillsSlot (Http.printedLine line) := by
  obtain ⟨name, word, hwords, hfills, hname, hword⟩ := h.line_eq hnul [] []
  have heq : Http.printedLine line = fieldLine name word := by
    rw [Http.printedLine, HttpHeader.line, hname, hword]
  rw [heq, hwords]
  exact ⟨headerWords_fieldLine hwords, hfills⟩

/-- A printed line is one line, and not a blank one. -/
theorem of_printedLine {line : List Char} (h : FillsSlot line) (hnul : nul ∉ line)
    (hlf : '\n' ∉ line) :
    '\n' ∉ printedLine line ∧ nul ∉ printedLine line ∧ ¬ IsBlankLine (printedLine line) := by
  obtain ⟨name, word, hwords, -, hname, hword⟩ := h.line_eq hnul [] []
  have hparts : ∀ s ∈ headerWords line, s <:+: line := fun s hs => infix_of_mem_sscanf hs
  have hnamePart : name <:+: line := hparts name (by simp [hwords])
  have hwordPart : word <:+: line := hparts word (by simp [hwords])
  have hfree : ∀ c, c ∉ line → c ≠ ':' → c ≠ ' ' → c ∉ fieldLine name word := by
    intro c hc hcolon hspace hmem
    rw [fieldLine, List.mem_append, List.mem_cons, List.mem_cons] at hmem
    rcases hmem with hmem | rfl | rfl | hmem
    · exact hc (hnamePart.subset hmem)
    · exact hcolon rfl
    · exact hspace rfl
    · exact hc (hwordPart.subset hmem)
  have hnulPrinted := hfree nul hnul (by decide) (by decide)
  rw [printedLine, HttpHeader.line, hname, hword]
  refine ⟨hfree '\n' hlf (by decide) (by decide), hnulPrinted, fun hblank => ?_⟩
  have hlen := hblank.1
  rw [strlen_of_not_mem hnulPrinted, fieldLine, List.length_append, List.length_cons,
    List.length_cons] at hlen
  omega

section

variable {abi : Abi} {line : List Char} {rest : List (List Char)}

/-- The pieces of a request line, lines, a blank line and a body. -/
theorem strtokPieces_printed {start body : List Char} {ps : List (List Char)} (hne : start ≠ [])
    (hlf : '\n' ∉ start) (hnul : nul ∉ start) (hbody : nul ∉ body)
    (hps : ∀ p ∈ ps, '\n' ∉ p ∧ nul ∉ p ∧ p ≠ []) :
    strtokPieces '\n' (cstr (start ++ '\n' :: (terminated .lf ps ++ '\r' :: '\n' :: body))) =
      start :: (ps ++ ['\r'] :: strtokPieces '\n' body) := by
  have hnulText : nul ∉ start ++ '\n' :: (terminated .lf ps ++ '\r' :: '\n' :: body) := by
    simp only [List.mem_append, List.mem_cons, terminated, List.mem_flatMap, LineEnd.chars,
      not_or, not_exists, not_and]
    exact ⟨hnul, by decide, fun p hp => ⟨(hps p hp).2.1, by decide⟩, by decide, by decide, hbody⟩
  have hfilter : (ps.map (· ++ LineEnd.lf.tail)).filter (· ≠ []) = ps := by
    rw [show (ps.map (· ++ LineEnd.lf.tail)) = ps by simp [LineEnd.tail]]
    exact List.filter_eq_self.mpr fun p hp => by simpa using (hps p hp).2.2
  have hblank :
      strtokPieces '\n' (['\r'] ++ '\n' :: body) = [['\r']] ++ strtokPieces '\n' body := by
    rw [strtokPieces_line (by decide), if_neg (by decide)]
  rw [cstr_of_not_mem hnulText, strtokPieces_line hlf, if_neg hne,
    strtokPieces_terminated .lf _ fun p hp => (hps p hp).1, hfilter]
  exact congrArg (start :: ps ++ ·) hblank

/-- The lines printed for header lines are header lines again, and fit
behind any request line and before any body that fits. -/
theorem TableFits.printed {start : List Char} {body : List (List Char)}
    (h : TableFits abi line rest) (hclean : ∀ l ∈ headerLines rest, nul ∉ l ∧ '\n' ∉ l)
    (hwords : RequestWordsFit start) (hbody : LinesFit abi body) :
    headerLines ((headerLines rest).map printedLine ++ ['\r'] :: body) =
        (headerLines rest).map printedLine ∧
      bodyLines ((headerLines rest).map printedLine ++ ['\r'] :: body) = ['\r'] :: body ∧
      TableFits abi start ((headerLines rest).map printedLine ++ ['\r'] :: body) := by
  have hprinted : ∀ p ∈ (headerLines rest).map printedLine, ¬ IsBlankLine p := by
    intro p hp
    obtain ⟨l, hl, rfl⟩ := List.mem_map.mp hp
    exact (of_printedLine (h.slots l hl) (hclean l hl).1 (hclean l hl).2).2.2
  obtain ⟨hheaders, hbehind⟩ := headerLines_append_blank hprinted isBlankLine_cr body
  refine ⟨hheaders, hbehind, hwords, ?_, ?_, ?_⟩
  · rw [hheaders]
    intro p hp
    obtain ⟨l, hl, rfl⟩ := List.mem_map.mp hp
    exact ((h.slots l hl).printedLine (hclean l hl).1).2
  · rw [hheaders, List.length_map]
    exact h.count
  · rw [hbehind]
    exact (linesFit_blank isBlankLine_cr).mpr hbody

/-- **Printed and parsed back**: what `print_headers` writes of a table that
was read is a header section that parses to that table, behind any request
line and before any body that `parseHttp` can print. -/
theorem printHeaders_parse_back {rawHttp start body : List Char}
    (hlines : strtokPieces '\n' (cstr rawHttp) = line :: rest) (hfit : TableFits abi line rest)
    (hcopied : copiedLines (bodyLines rest) ≠ [])
    (hne : start ≠ []) (hlf : '\n' ∉ start) (hnul : nul ∉ start) (hwords : RequestWordsFit start)
    (hnulBody : nul ∉ body) (hbody : LinesFit abi (strtokPieces '\n' body))
    (hcopiedBody : copiedLines (strtokPieces '\n' body) ≠ []) (locals : Locals abi) :
    ∃ request printed, parseHttp locals rawHttp = .ok request ∧
      printHeaders request = .ok printed ∧
      ∀ locals' : Locals abi, ∃ request',
        parseHttp locals' (start ++ '\n' :: (printed ++ '\r' :: '\n' :: body)) = .ok request' ∧
          request'.headers.WellFormed ∧ request'.headers.list = request.headers.list := by
  obtain ⟨request, hparse⟩ := parseHttp_ok locals hlines hfit.textFits hcopied
  obtain ⟨-, hreads⟩ := of_parseHttp locals hlines hparse
  have hentries := hreads.entries_eq hfit.slots
  have hclean : ∀ l ∈ headerLines rest, nul ∉ l ∧ '\n' ∉ l := by
    intro l hl
    have hmem : l ∈ strtokPieces '\n' (cstr rawHttp) :=
      hlines ▸ List.mem_cons_of_mem line (of_mem_headerLines hl).1
    exact ⟨nul_not_mem_line hmem, (of_mem_strtokPieces hmem).2.1⟩
  obtain ⟨hheaders, hbehind, hfit'⟩ := hfit.printed hclean hwords hbody
  have hprinted : request.headers.entries.map HttpHeader.line =
      (headerLines rest).map printedLine := by
    rw [hentries, List.map_map]
    rfl
  have hlinesPrinted : ∀ p ∈ (headerLines rest).map printedLine,
      '\n' ∉ p ∧ nul ∉ p ∧ p ≠ [] := by
    intro p hp
    obtain ⟨l, hl, rfl⟩ := List.mem_map.mp hp
    obtain ⟨hplf, hpnul, -⟩ := of_printedLine (hfit.slots l hl) (hclean l hl).1 (hclean l hl).2
    exact ⟨hplf, hpnul, by simp [printedLine, HttpHeader.line, fieldLine]⟩
  have hpieces := strtokPieces_printed hne hlf hnul hnulBody hlinesPrinted
  refine ⟨request, _, hparse, printHeaders_ok_iff.mpr ⟨hreads.wellFormed hfit, rfl⟩,
    fun locals' => ?_⟩
  rw [hprinted]
  obtain ⟨request', hparse'⟩ := parseHttp_ok locals' hpieces hfit'.textFits
    (by rwa [hbehind, copiedLines_blank isBlankLine_cr])
  obtain ⟨-, hreads'⟩ := of_parseHttp locals' hpieces hparse'
  refine ⟨request', hparse', hreads'.wellFormed hfit', ?_⟩
  rw [HttpHeaders.list_eq, HttpHeaders.list_eq, hreads'.entries_eq hfit'.slots, hentries, hheaders,
    List.map_map, List.map_map, List.map_map]
  refine List.map_congr_left fun l hl => ?_
  obtain ⟨hsame, -⟩ := (hfit.slots l hl).printedLine (hclean l hl).1
  simp only [Function.comp, lineEntry, hsame]

end

instance (n : Nat) (conversion : Option (List Char)) : Decidable (ConversionFits n conversion) :=
  inferInstanceAs (Decidable (∀ s ∈ conversion, s.length < n))

/-- `Host: a b`, of which `Host: a` is printed, behind another request line
and before another body. -/
theorem printHeaders_parse_back_word :
    let abi : Abi := ⟨8, by decide⟩
    let text := "GET / HTTP/1.1\nHost: a b\n\r\nx\n".toList
    ∃ request printed, parseHttp (.fill abi 'x') text = .ok request ∧
      printHeaders request = .ok printed ∧
      ∀ locals' : Locals abi, ∃ request',
        parseHttp locals'
            ("PUT".toList ++ '\n' :: (printed ++ '\r' :: '\n' :: "y z".toList)) = .ok request' ∧
          request'.headers.WellFormed ∧ request'.headers.list = request.headers.list := by
  intro abi text
  have hlines : strtokPieces '\n' (cstr text) =
      "GET / HTTP/1.1".toList :: ["Host: a b".toList, ['\r'], ['x']] := by decide +kernel
  have hheaders : headerLines ["Host: a b".toList, ['\r'], ['x']] = ["Host: a b".toList] := by
    decide +kernel
  have hbehind : bodyLines ["Host: a b".toList, ['\r'], ['x']] = [['\r'], ['x']] := by
    decide +kernel
  have hbody : strtokPieces '\n' "y z".toList = ["y z".toList] := by decide +kernel
  have hfit : TableFits abi "GET / HTTP/1.1".toList ["Host: a b".toList, ['\r'], ['x']] := by
    refine ⟨⟨by decide +kernel, by decide +kernel, by decide +kernel⟩, ?_, ?_, ?_⟩
    · rw [hheaders]
      intro l hl
      obtain rfl := List.mem_singleton.mp hl
      exact ⟨"Host".toList, "a".toList, by decide +kernel, by decide, by decide⟩
    · rw [hheaders]
      decide
    · rw [hbehind]
      unfold LinesFit
      decide
  refine printHeaders_parse_back hlines hfit (by rw [hbehind]; decide) (by decide) (by decide)
    (by decide) ⟨by decide +kernel, by decide +kernel, by decide +kernel⟩ (by decide) ?_ ?_
    (.fill abi 'x')
  · rw [hbody]
    intro l hl _
    obtain rfl := List.mem_singleton.mp hl
    decide
  · rw [hbody]
    decide +kernel

end CWebServer.Http
