/-
CWebServer.Server.Report — what `process_command` prints.

It comes back only from a text whose copies have the room they need
(`exists_obtainRequest_iff`), and then prints the text it was given, the
body, the header table and the response. Of these only the first and the
last are strings for certain: `body` is printed whether or not a line was
copied to it, and it is not initialised, so without a body line the `%s`
reads whatever the stack held. Add what `parseHttp` and `print_headers`
need, and the output is defined exactly for a text whose table fits and
that has a line of body (`Reportable`); it is then the same whatever the
locals held (`processCommand_output_iff`).

No `sorry`, no `axiom`, no `native_decide`.
-/
import CWebServer.Http.Body
import CWebServer.Http.Report
import CWebServer.Server.Accumulation

namespace CWebServer.Server

open Libc Http

/-! ## When the work comes back -/

/-- The name and the value of a header line, as far as it has them, leave
room for a NUL in a slot. -/
structure SlotFits (line : List Char) : Prop where
  name : ConversionFits maxHeaderNameLength (headerWords line)[0]?
  value : ConversionFits maxHeaderValueLength (headerWords line)[1]?

/-- A text that has the room its copies need, in the locals and in the
table. -/
def Answerable (abi : Abi) (text : List Char) : Prop :=
  ∃ line rest, strtokPieces '\n' (cstr text) = line :: rest ∧ TextFits abi line rest ∧
    ∀ l ∈ headerLines rest, SlotFits l

section

variable {abi : Abi} {text : List Char}

theorem obtainRequest_ok_iff {locals : Locals abi} {request : HttpRequest} :
    Connection.obtainRequest locals text = .ok request ↔
      parseHttp locals text = .ok request ∧ request.headers.WellFormed := by
  constructor
  · intro h
    obtain ⟨r, hparse, h⟩ := bind_ok_iff.mp h
    obtain ⟨headers, hheaders, h⟩ := bind_ok_iff.mp h
    obtain rfl := Except.ok.inj h
    exact ⟨hparse, (printHeaders_ok_iff.mp hheaders).1⟩
  · intro h
    obtain ⟨hparse, hwell⟩ := h
    exact bind_ok_iff.mpr ⟨request, hparse,
      bind_ok_iff.mpr ⟨_, printHeaders_ok_iff.mpr ⟨hwell, rfl⟩, rfl⟩⟩

/-- **Answerable texts**: there are locals with which the work comes back
exactly if the text has its room. -/
theorem exists_obtainRequest_iff :
    (∃ (locals : Locals abi) (request : _), Connection.obtainRequest locals text = .ok request) ↔
      Answerable abi text := by
  constructor
  · intro h
    obtain ⟨locals, request, h⟩ := h
    obtain ⟨hparse, hwell⟩ := obtainRequest_ok_iff.mp h
    cases hlines : strtokPieces '\n' (cstr text) with
    | nil => exact nomatch (parseHttp_of_no_line locals hlines).symm.trans hparse
    | cons line rest =>
      obtain ⟨hfit, hreads⟩ := of_parseHttp locals hlines hparse
      refine ⟨line, rest, hlines, hfit, fun l hl => ?_⟩
      have hnul : nul ∉ l :=
        nul_not_mem_line (hlines ▸ List.mem_cons_of_mem line (of_mem_headerLines hl).1)
      obtain ⟨header, value, hmem⟩ := exists_mem_lineEntries locals hl 0
      rw [← hreads.entries] at hmem
      exact ⟨conversionFits_of_nul_mem (nul_not_mem_conversion hnul 0) (hwell.name _ hmem),
        conversionFits_of_nul_mem (nul_not_mem_conversion hnul 1) (hwell.value _ hmem)⟩
  · intro h
    obtain ⟨line, rest, hlines, hfit, hslots⟩ := h
    obtain ⟨final, hfinal⟩ := parseHttpState_ok (.fill abi nul) hlines hfit
    obtain ⟨-, hreads⟩ := of_parseHttpState _ hlines hfinal
    have hbody : nul ∈ final.body.chars := by
      by_cases hcopied : copiedLines (bodyLines rest) = []
      · rw [CharArray.nul_mem_iff, parseHttpState_body _ hlines hfinal, lastCopied, hcopied]
        change (cstr (List.replicate (1024 * abi.sizeofPtr) nul)).length < _
        rw [cstr_replicate_nul]
        exact Nat.mul_pos (by decide) abi.sizeofPtr_pos
      · exact nul_mem_body _ hlines hfinal hcopied
    have hall : ∀ e ∈ final.request.headers.entries, nul ∈ e.name.chars ∧ nul ∈ e.value.chars := by
      intro e he
      rw [hreads.entries, lineEntries_fill] at he
      obtain ⟨l, hl, rfl⟩ := List.mem_map.mp he
      exact ⟨(hslots l hl).name.nul_mem (by decide), (hslots l hl).value.nul_mem (by decide)⟩
    exact ⟨.fill abi nul, final.request, obtainRequest_ok_iff.mpr
      ⟨(parseHttp_ok_iff _).mpr ⟨final, hfinal, hbody, rfl⟩, hreads.count ▸ hfit.count,
        fun e he => (hall e he).1, fun e he => (hall e he).2⟩⟩

end

/-! ## The output -/

/-- A heading in green. -/
def heading (title : String) : List Char := ("\x1b[0;32m" ++ title ++ "\n\x1b[0m").toList

/-- What `process_command` prints, the line of `parseHttp` included, with
what its locals hold. -/
def processCommandOutput {abi : Abi} (locals : Locals abi) (data : ClientRequestData) :
    Except Fault (List Char) :=
  match data.text with
  | none => .error .nullPointer
  | some text => do
    let received ← readString text
    let state ← parseHttpState locals text
    let body ← readString state.body.chars
    let headers ← printHeaders state.request
    .ok (heading "Received reqeust:" ++ received ++ ['\n'] ++
      "Request body: ".toList ++ body ++ ['\n'] ++ headers ++
      heading "Response data:" ++ Connection.responseText ++ ['\n'])

/-- A text whose table fits and that has a body to print. -/
def Reportable (abi : Abi) (bytes : List Char) : Prop :=
  ∃ line rest, strtokPieces '\n' (cstr bytes) = line :: rest ∧ TableFits abi line rest ∧
    copiedLines (bodyLines rest) ≠ []

/-- What is printed for it: the bytes up to a NUL, the last line of body,
and a line for each header line. -/
def reportText (bytes : List Char) : List Char :=
  let lines := (strtokPieces '\n' (cstr bytes)).tail
  heading "Received reqeust:" ++ cstr bytes ++ ['\n'] ++
    "Request body: ".toList ++ lastCopied [] (bodyLines lines) ++ ['\n'] ++
    terminated .lf ((headerLines lines).map printedLine) ++
    heading "Response data:" ++ Connection.responseText ++ ['\n']

/-! ## When it is defined -/

section

variable {abi : Abi} {bytes : List Char} {data : ClientRequestData}
  (htext : data.text = some (bytes ++ [nul]))

include htext

/-- The output is that of its four parts. -/
theorem processCommandOutput_ok_iff {locals : Locals abi} {out : List Char} :
    processCommandOutput locals data = .ok out ↔
      ∃ state body headers, parseHttpState locals (bytes ++ [nul]) = .ok state ∧
        readString state.body.chars = .ok body ∧ printHeaders state.request = .ok headers ∧
        out = heading "Received reqeust:" ++ cstr bytes ++ ['\n'] ++
          "Request body: ".toList ++ body ++ ['\n'] ++ headers ++
          heading "Response data:" ++ Connection.responseText ++ ['\n'] := by
  have hreceived : readString (bytes ++ [nul]) = .ok (cstr bytes) :=
    readString_ok_iff.mpr ⟨by simp, (cstr_terminated bytes).symm⟩
  unfold processCommandOutput
  rw [htext]
  constructor
  · intro h
    obtain ⟨received, hread, h⟩ := bind_ok_iff.mp h
    obtain ⟨state, hstate, h⟩ := bind_ok_iff.mp h
    obtain ⟨body, hbody, h⟩ := bind_ok_iff.mp h
    obtain ⟨headers, hheaders, h⟩ := bind_ok_iff.mp h
    rw [hreceived, Except.ok.injEq] at hread
    subst hread
    exact ⟨state, body, headers, hstate, hbody, hheaders, (Except.ok.inj h).symm⟩
  · intro h
    obtain ⟨state, body, headers, hstate, hbody, hheaders, rfl⟩ := h
    exact bind_ok_iff.mpr ⟨_, hreceived, bind_ok_iff.mpr ⟨state, hstate,
      bind_ok_iff.mpr ⟨body, hbody, bind_ok_iff.mpr ⟨headers, hheaders, rfl⟩⟩⟩⟩

/-- A reportable text prints its report, whatever the locals hold. -/
theorem Reportable.output (h : Reportable abi bytes) (locals : Locals abi) :
    processCommandOutput locals data = .ok (reportText bytes) := by
  obtain ⟨line, rest, hlines, hfit, hcopied⟩ := h
  rw [← cstr_terminated] at hlines
  obtain ⟨state, hstate⟩ := parseHttpState_ok locals hlines hfit.textFits
  obtain ⟨-, hreads⟩ := of_parseHttpState locals hlines hstate
  refine (processCommandOutput_ok_iff htext).mpr ⟨state, _, _, hstate,
    readString_ok_iff.mpr ⟨nul_mem_body locals hlines hstate hcopied, rfl⟩,
    printHeaders_ok_iff.mpr ⟨hreads.wellFormed hfit, rfl⟩, ?_⟩
  rw [hreads.entries_eq hfit.slots, List.map_map]
  change _ = heading _ ++ _ ++ _ ++ _ ++ state.body.str ++ _ ++ _ ++ _ ++ _ ++ _
  rw [parseHttpState_body locals hlines hstate, (lastCopied_congr hcopied _).1, reportText,
    ← cstr_terminated bytes, hlines]
  rfl

/-- Locals without a NUL show what the text leaves to them. -/
theorem reportable_of_output {out : List Char}
    (h : processCommandOutput (.fill abi 'a') data = .ok out) : Reportable abi bytes := by
  obtain ⟨state, body, headers, hstate, hbody, hheaders, -⟩ :=
    (processCommandOutput_ok_iff htext).mp h
  cases hlines : strtokPieces '\n' (cstr (bytes ++ [nul])) with
  | nil =>
    rw [parseHttpState_of_no_line _ hlines] at hstate
    cases hstate
  | cons line rest =>
    obtain ⟨hfit, hreads⟩ := of_parseHttpState _ hlines hstate
    obtain ⟨hwell, -⟩ := printHeaders_ok_iff.mp hheaders
    have hnul : ∀ l ∈ rest, nul ∉ l := fun l hl =>
      nul_not_mem_line (hlines ▸ List.mem_cons_of_mem line hl)
    exact ⟨line, rest, by rw [← cstr_terminated, hlines],
      ⟨hfit.words, fillsSlot_of_wellFormed hnul hreads hwell, hfit.count, hfit.body⟩,
      copiedLines_of_nul_mem hlines hstate (readString_ok_iff.mp hbody).1⟩

/-- Defined whatever the locals hold, for reportable bytes only. -/
theorem forall_output_iff : (∀ locals : Locals abi, ∃ out,
    processCommandOutput locals data = .ok out) ↔ Reportable abi bytes := by
  constructor
  · intro h
    obtain ⟨out, hout⟩ := h (.fill abi 'a')
    exact reportable_of_output htext hout
  · intro h locals
    exact ⟨_, h.output htext locals⟩

end

/-- **The output of `process_command`**, after any reads: if they start the
work, it is defined whatever the locals hold exactly when the bytes
delivered are reportable, and is then their report. -/
theorem processCommand_output_iff (abi : Abi) (reads : List Read) :
    ∃ c n, readAll (acceptedConnection 0) reads = .ok c ∧ Delivered c reads n ∧
      (c.workItems = 1 → ∃ data, c.data = some data ∧
        ((∀ locals : Locals abi, ∃ out, processCommandOutput locals data = .ok out) ↔
          Reportable abi (stream (reads.take n))) ∧
        (Reportable abi (stream (reads.take n)) → ∀ locals : Locals abi,
          processCommandOutput locals data = .ok (reportText (stream (reads.take n))))) := by
  obtain ⟨c, n, hread, hdelivered⟩ : ∃ c n, readAll (acceptedConnection 0) reads = .ok c ∧
      Delivered c ([] ++ reads) n := stillReading_accepted.readAll
  rw [List.nil_append] at hdelivered
  refine ⟨c, n, hread, hdelivered, fun hwork => ?_⟩
  obtain ⟨data, hdata, htext⟩ := hdelivered.workText hwork
  exact ⟨data, hdata, forall_output_iff htext, fun h locals => h.output htext locals⟩

end CWebServer.Server
