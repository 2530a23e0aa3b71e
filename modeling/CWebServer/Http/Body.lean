/-
CWebServer.Http.Body — the `body` buffer, and what `parseHttp` returns.

Every line behind the blank one that is not itself blank is copied to the
front of the buffer, over the line before it. So the buffer ends up with
the LAST of them (`parseHttpState_body`), without its line break, and with
whatever it held at first if there is none: `body` is not initialised.

`parseHttp` prints it all the same before it returns. So a text whose
copies fit is sure to be returned only when it has a line of body that is
copied (`parseHttp_ok`, `copiedLines_of_parseHttp`).

No `sorry`, no `axiom`, no `native_decide`.
-/
import CWebServer.Http.Lines

namespace CWebServer.Http

open Libc

/-! ## The last line copied -/

/-- The lines that are copied to `body`. -/
def copiedLines (lines : List (List Char)) : List (List Char) :=
  lines.filter fun l => ¬ IsBlankLine l

/-- What `body` shows behind `lines`, if it showed `old` before them. -/
def lastCopied (old : List Char) (lines : List (List Char)) : List Char :=
  (copiedLines lines).getLast?.getD old

theorem copiedLines_blank {line : List Char} (h : IsBlankLine line) (lines : List (List Char)) :
    copiedLines (line :: lines) = copiedLines lines := by
  rw [copiedLines, List.filter_cons_of_neg (by simpa using h)]
  rfl

theorem lastCopied_blank {old line : List Char} (h : IsBlankLine line) (lines : List (List Char)) :
    lastCopied old (line :: lines) = lastCopied old lines := by
  rw [lastCopied, lastCopied, copiedLines_blank h]

theorem lastCopied_line {line : List Char} (h : ¬ IsBlankLine line) (old : List Char)
    (lines : List (List Char)) :
    lastCopied old (line :: lines) = lastCopied line lines := by
  rw [lastCopied, copiedLines, List.filter_cons_of_pos (by simpa using h), List.getLast?_cons]
  rfl

section

variable {abi : Abi} (locals : Locals abi)

/-- One line behind the blank one. -/
theorem body_parseLine {state state' : ParseState abi} {line : List Char} (hnul : nul ∉ line)
    (hbody : state.bodyEncountered = true) (h : parseLine locals state line = .ok state') :
    state'.body.str = lastCopied state.body.str [line] ∧ state'.bodyEncountered = true := by
  by_cases hblank : IsBlankLine line
  · rw [parseLine_blank locals hblank] at h
    obtain rfl := Except.ok.inj h
    exact ⟨(lastCopied_blank hblank []).symm, rfl⟩
  · rw [parseLine_body locals hblank hbody] at h
    obtain ⟨body, hstore, h⟩ := bind_ok_iff.mp h
    obtain rfl := Except.ok.inj h
    refine ⟨?_, hbody⟩
    rw [lastCopied_line hblank]
    exact (CharArray.of_store hstore).2 hnul

/-- All of them: by induction on the lines, with what `body` shows carried
along. -/
theorem body_parseLines {lines : List (List Char)} {state state' : ParseState abi}
    (hnul : ∀ l ∈ lines, nul ∉ l) (hbody : state.bodyEncountered = true)
    (h : lines.foldlM (parseLine locals) state = .ok state') :
    state'.body.str = lastCopied state.body.str lines := by
  induction lines generalizing state with
  | nil =>
    obtain rfl := Except.ok.inj h
    rfl
  | cons line lines ih =>
    rw [List.foldlM_cons] at h
    obtain ⟨mid, hmid, h⟩ := bind_ok_iff.mp h
    obtain ⟨hstr, hbody'⟩ := body_parseLine locals (hnul line (by simp)) hbody hmid
    rw [ih (fun l hl => hnul l (List.mem_cons_of_mem line hl)) hbody' h, hstr]
    by_cases hblank : IsBlankLine line
    · rw [lastCopied_blank hblank, lastCopied_blank hblank]
      rfl
    · rw [lastCopied_line hblank, lastCopied_line hblank]
      rfl

/-- **The body buffer** when the loop ends: the last line copied to it. -/
theorem parseHttpState_body {rawHttp line : List Char} {rest : List (List Char)}
    (hlines : strtokPieces '\n' (cstr rawHttp) = line :: rest) {final : ParseState abi}
    (h : parseHttpState locals rawHttp = .ok final) :
    final.body.str = lastCopied locals.body.str (bodyLines rest) := by
  have hnul : ∀ l ∈ line :: rest, nul ∉ l := fun l hl => nul_not_mem_line (hlines ▸ hl)
  have hrest : ∀ l ∈ rest, nul ∉ l := fun l hl => hnul l (List.mem_cons_of_mem line hl)
  rw [parseHttpState_eq locals hlines] at h
  obtain ⟨start, hstart, h⟩ := bind_ok_iff.mp h
  obtain ⟨-, -, -, -, hheaders⟩ := of_scanRequestLine (hnul line (by simp)) hstart
  have hcount : start.headers.count = 0 := by rw [hheaders]; rfl
  rw [← headerLines_append_bodyLines rest, List.foldlM_append] at h
  obtain ⟨state, hstate, h⟩ := bind_ok_iff.mp h
  have hheaderLines : ∀ l ∈ headerLines rest, ¬ IsBlankLine l ∧ nul ∉ l := fun l hl =>
    ⟨(of_mem_headerLines hl).2, hrest l (of_mem_headerLines hl).1⟩
  obtain ⟨-, -, hafter⟩ := of_parseHeaders locals hheaderLines
    (show (startState locals start).bodyEncountered = false from rfl)
    (show start.headers.count ≤ 50 by omega) hstate
  have hold : state.body = locals.body := hafter.body
  cases hbody : bodyLines rest with
  | nil =>
    rw [hbody] at h
    obtain rfl := Except.ok.inj h
    rw [hold]
    rfl
  | cons blank lines =>
    have hblank := isBlankLine_of_bodyLines hbody
    have hmem : ∀ l ∈ bodyLines rest, nul ∉ l := fun l hl =>
      hrest l ((List.dropWhile_suffix _).subset hl)
    rw [hbody] at hmem
    rw [hbody, List.foldlM_cons, parseLine_blank locals hblank] at h
    obtain ⟨mid, hmid, h⟩ := bind_ok_iff.mp h
    obtain rfl := Except.ok.inj hmid
    have hfinal := body_parseLines locals (fun l hl => hmem l (List.mem_cons_of_mem _ hl)) rfl h
    rw [lastCopied_blank hblank, ← hold]
    exact hfinal

/-! ## The print and the return -/

theorem readString_ok_iff {block s : List Char} :
    readString block = .ok s ↔ nul ∈ block ∧ s = cstr block := by
  unfold readString
  split_ifs with h
  · simp [h, eq_comm]
  · simp [h]

/-- With a line copied, what `body` held before is not shown. -/
theorem lastCopied_congr {lines : List (List Char)} (h : copiedLines lines ≠ []) (old : List Char) :
    lastCopied old lines = lastCopied [] lines ∧ lastCopied old lines ∈ copiedLines lines := by
  rw [lastCopied, lastCopied, List.getLast?_eq_some_getLast h]
  exact ⟨rfl, List.getLast_mem h⟩

/-- `parseHttp` returns the request of its loop if `body` then holds a
string. -/
theorem parseHttp_ok_iff {rawHttp : List Char} {request : HttpRequest} :
    parseHttp locals rawHttp = .ok request ↔
      ∃ final, parseHttpState locals rawHttp = .ok final ∧ nul ∈ final.body.chars ∧
        final.request = request := by
  constructor
  · intro h
    obtain ⟨final, hfinal, h⟩ := bind_ok_iff.mp h
    obtain ⟨body, hbody, h⟩ := bind_ok_iff.mp h
    exact ⟨final, hfinal, (readString_ok_iff.mp hbody).1, Except.ok.inj h⟩
  · intro h
    obtain ⟨final, hfinal, hnul, rfl⟩ := h
    exact bind_ok_iff.mpr ⟨final, hfinal,
      bind_ok_iff.mpr ⟨_, readString_ok_iff.mpr ⟨hnul, rfl⟩, rfl⟩⟩

/-- A text without a line hands NULL to `sscanf`. -/
theorem parseHttp_of_no_line {rawHttp : List Char} (h : strtokPieces '\n' (cstr rawHttp) = []) :
    parseHttp locals rawHttp = .error .nullPointer := by
  rw [parseHttp, parseHttpState_of_no_line locals h]
  rfl

section

variable {rawHttp line : List Char} {rest : List (List Char)}
  (hlines : strtokPieces '\n' (cstr rawHttp) = line :: rest)

include hlines

/-- A line that was copied left room for its NUL. -/
theorem nul_mem_body {final : ParseState abi} (hfinal : parseHttpState locals rawHttp = .ok final)
    (hcopied : copiedLines (bodyLines rest) ≠ []) : nul ∈ final.body.chars := by
  obtain ⟨hfit, -⟩ := of_parseHttpState locals hlines hfinal
  obtain ⟨hmem, hblank⟩ :=
    List.mem_filter.mp (lastCopied_congr hcopied locals.body.str).2
  rw [CharArray.nul_mem_iff, parseHttpState_body locals hlines hfinal]
  exact hfit.body _ hmem (by simpa using hblank)

/-- A text that is returned fits, and its request is what its lines give. -/
theorem of_parseHttp {request : HttpRequest} (h : parseHttp locals rawHttp = .ok request) :
    TextFits abi line rest ∧ Reads locals line rest request := by
  obtain ⟨final, hfinal, -, rfl⟩ := (parseHttp_ok_iff locals).mp h
  exact of_parseHttpState locals hlines hfinal

theorem parseHttp_ok (hfit : TextFits abi line rest)
    (hcopied : copiedLines (bodyLines rest) ≠ []) :
    ∃ request, parseHttp locals rawHttp = .ok request := by
  obtain ⟨final, hfinal⟩ := parseHttpState_ok locals hlines hfit
  exact ⟨final.request, (parseHttp_ok_iff locals).mpr
    ⟨final, hfinal, nul_mem_body locals hlines hfinal hcopied, rfl⟩⟩

end

end

/-! ## What goes wrong -/

section

variable {P : Fault → Prop} (hbounds : ∀ i, P (.outOfBounds i))

include hbounds

theorem faultsIn_storeConversion {n : Nat} (a : CharArray n) (conversion : Option (List Char)) :
    FaultsIn P (storeConversion a conversion) := by
  cases conversion with
  | none => exact faultsIn_ok a
  | some s => exact a.faultsIn_store hbounds s

theorem faultsIn_readString (block : List Char) : FaultsIn P (readString block) := by
  unfold readString
  split_ifs
  · exact faultsIn_ok _
  · exact faultsIn_error (hbounds _)

theorem faultsIn_parseLine {abi : Abi} (locals : Locals abi) (state : ParseState abi)
    (line : List Char) : FaultsIn P (parseLine locals state line) := by
  have hadd : ∀ request name value, FaultsIn P (addHeader request name value) := by
    intro request name value
    unfold addHeader
    split_ifs
    · exact faultsIn_ok _
    · exact faultsIn_error (hbounds _)
  unfold parseLine
  split_ifs
  · exact faultsIn_ok _
  · refine FaultsIn.bind ?_ fun request => faultsIn_ok _
    exact (faultsIn_storeConversion hbounds _ _).bind fun header =>
      (faultsIn_storeConversion hbounds _ _).bind fun value => hadd _ _ _
  · exact (state.body.faultsIn_store hbounds line).bind fun body => faultsIn_ok _

/-- `parseHttp` leaves an array or uses a NULL pointer, and does nothing else
wrong. -/
theorem faultsIn_parseHttp {abi : Abi} (hnull : P .nullPointer) (locals : Locals abi)
    (rawHttp : List Char) : FaultsIn P (parseHttp locals rawHttp) := by
  refine FaultsIn.bind ?_ fun state =>
    (faultsIn_readString hbounds _).bind fun body => faultsIn_ok _
  cases hlines : strtokPieces '\n' (cstr rawHttp) with
  | nil =>
    rw [parseHttpState_of_no_line locals hlines]
    exact faultsIn_error hnull
  | cons line rest =>
    rw [parseHttpState_eq locals hlines]
    refine FaultsIn.bind ?_ fun request => faultsIn_foldlM (faultsIn_parseLine hbounds locals) _ _
    exact (faultsIn_storeConversion hbounds _ _).bind fun method =>
      (faultsIn_storeConversion hbounds _ _).bind fun path =>
        (faultsIn_storeConversion hbounds _ _).bind fun version => faultsIn_ok _

theorem faultsIn_printHeaders (request : HttpRequest) : FaultsIn P (printHeaders request) := by
  have hloop : ∀ headers left i, FaultsIn P (printHeadersLoop headers left i) := by
    intro headers left
    induction left with
    | zero => exact fun i => faultsIn_ok []
    | succ left ih =>
      intro i
      unfold printHeadersLoop
      split
      · exact faultsIn_error (hbounds i)
      · have hline : ∀ header, FaultsIn P (printHeader header) := fun header =>
          (faultsIn_readString hbounds _).bind fun name =>
            (faultsIn_readString hbounds _).bind fun value => faultsIn_ok _
        exact (hline _).bind fun line => (ih (i + 1)).bind fun lines => faultsIn_ok _
  exact hloop _ _ _

end

/-! ## Locals without a NUL -/

/-- A `body` that holds no NUL at first is returned from only behind a line
that was copied. -/
theorem copiedLines_of_nul_mem {abi : Abi} {rawHttp line : List Char} {rest : List (List Char)}
    (hlines : strtokPieces '\n' (cstr rawHttp) = line :: rest) {final : ParseState abi}
    (hfinal : parseHttpState (.fill abi 'a') rawHttp = .ok final)
    (hnul : nul ∈ final.body.chars) : copiedLines (bodyLines rest) ≠ [] := by
  intro hempty
  have hshown := parseHttpState_body _ hlines hfinal
  rw [lastCopied, hempty] at hshown
  have hfull : final.body.str = List.replicate (1024 * abi.sizeofPtr) 'a' :=
    hshown.trans (cstr_replicate (by decide) _)
  have hroom := final.body.nul_mem_iff.mp hnul
  rw [hfull, List.length_replicate] at hroom
  exact Nat.lt_irrefl _ hroom

theorem copiedLines_of_parseHttp {abi : Abi} {rawHttp line : List Char} {rest : List (List Char)}
    (hlines : strtokPieces '\n' (cstr rawHttp) = line :: rest) {request : HttpRequest}
    (h : parseHttp (.fill abi 'a') rawHttp = .ok request) : copiedLines (bodyLines rest) ≠ [] := by
  obtain ⟨final, hfinal, hnul, -⟩ := (parseHttp_ok_iff _).mp h
  exact copiedLines_of_nul_mem hlines hfinal hnul

end CWebServer.Http
