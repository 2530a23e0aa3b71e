/-
CWebServer.Http.Uninitialised — what a report of `parseHttp` owes to the
memory it started from.

`request` and the per-line buffers are not initialised, and `sscanf` leaves
an argument as it was when it stops before it. So two calls on one text
report the same only when nothing is left unwritten: three words on the
first line, a name and a value on each header line. They must also leave
room for a NUL, since the reader of an array without one goes on into what
lies behind it (`HttpRequest.read`). And a line must have been copied to
`body`, which is not initialised either and is printed before the return.

The proof compares no two runs: what one run reports is known from
`Reads`, and the buffers occur in it only where a line converts nothing.

No `sorry`, no `axiom`, no `native_decide`.
-/
import CWebServer.Http.Bounds

namespace CWebServer.Http

open Libc

/-! ## Reading a request -/

/-- The two strings of a slot. -/
def HttpHeader.read (header : HttpHeader) : Except Fault (List Char × List Char) := do
  let name ← readString header.name.chars
  let value ← readString header.value.chars
  .ok (name, value)

/-- What a reader gets of the fields of a request, each read as a string. -/
def HttpRequest.read (request : HttpRequest) : Except Fault RequestView := do
  let method ← readString request.method.chars
  let path ← readString request.path.chars
  let version ← readString request.version.chars
  if 50 < request.headers.count then .error (.outOfBounds 50)
  else do
    let headers ← request.headers.entries.mapM HttpHeader.read
    .ok { method, path, version, headers }

theorem HttpHeader.read_ok_iff {header : HttpHeader} {strings : List Char × List Char} :
    header.read = .ok strings ↔
      (nul ∈ header.name.chars ∧ nul ∈ header.value.chars) ∧
        strings = (header.name.str, header.value.str) := by
  constructor
  · intro h
    obtain ⟨name, hname, h⟩ := bind_ok_iff.mp h
    obtain ⟨value, hvalue, h⟩ := bind_ok_iff.mp h
    obtain ⟨hnul, rfl⟩ := readString_ok_iff.mp hname
    obtain ⟨hnul', rfl⟩ := readString_ok_iff.mp hvalue
    exact ⟨⟨hnul, hnul'⟩, (Except.ok.inj h).symm⟩
  · intro h
    obtain ⟨⟨hnul, hnul'⟩, rfl⟩ := h
    exact bind_ok_iff.mpr ⟨_, readString_ok_iff.mpr ⟨hnul, rfl⟩,
      bind_ok_iff.mpr ⟨_, readString_ok_iff.mpr ⟨hnul', rfl⟩, rfl⟩⟩

theorem mapM_read_ok_iff {entries : List HttpHeader} {strings : List (List Char × List Char)} :
    entries.mapM HttpHeader.read = .ok strings ↔
      (∀ e ∈ entries, nul ∈ e.name.chars ∧ nul ∈ e.value.chars) ∧
        strings = entries.map fun e => (e.name.str, e.value.str) := by
  induction entries generalizing strings with
  | nil =>
    rw [List.mapM_nil]
    simp [pure, Except.pure, eq_comm]
  | cons e entries ih =>
    rw [List.mapM_cons]
    simp only [List.forall_mem_cons, List.map_cons]
    constructor
    · intro h
      obtain ⟨first, hfirst, h⟩ := bind_ok_iff.mp h
      obtain ⟨others, hothers, h⟩ := bind_ok_iff.mp h
      obtain ⟨hnul, rfl⟩ := HttpHeader.read_ok_iff.mp hfirst
      obtain ⟨hall, rfl⟩ := ih.mp hothers
      exact ⟨⟨hnul, hall⟩, (Except.ok.inj h).symm⟩
    · intro h
      obtain ⟨⟨hnul, hall⟩, rfl⟩ := h
      exact bind_ok_iff.mpr ⟨_, HttpHeader.read_ok_iff.mpr ⟨hnul, rfl⟩,
        bind_ok_iff.mpr ⟨_, ih.mpr ⟨hall, rfl⟩, rfl⟩⟩

/-- Every array that is read holds a string. -/
structure HttpRequest.Readable (request : HttpRequest) : Prop where
  method : nul ∈ request.method.chars
  path : nul ∈ request.path.chars
  version : nul ∈ request.version.chars
  headers : request.headers.WellFormed

theorem HttpRequest.read_ok_iff {request : HttpRequest} {view : RequestView} :
    request.read = .ok view ↔ request.Readable ∧ view = request.view := by
  unfold HttpRequest.read
  constructor
  · intro h
    obtain ⟨method, hmethod, h⟩ := bind_ok_iff.mp h
    obtain ⟨path, hpath, h⟩ := bind_ok_iff.mp h
    obtain ⟨version, hversion, h⟩ := bind_ok_iff.mp h
    obtain ⟨hnulMethod, rfl⟩ := readString_ok_iff.mp hmethod
    obtain ⟨hnulPath, rfl⟩ := readString_ok_iff.mp hpath
    obtain ⟨hnulVersion, rfl⟩ := readString_ok_iff.mp hversion
    split_ifs at h with hcount
    obtain ⟨headers, hheaders, h⟩ := bind_ok_iff.mp h
    obtain ⟨hall, rfl⟩ := mapM_read_ok_iff.mp hheaders
    exact ⟨⟨hnulMethod, hnulPath, hnulVersion, Nat.not_lt.mp hcount, fun e he => (hall e he).1,
      fun e he => (hall e he).2⟩, (Except.ok.inj h).symm⟩
  · intro h
    obtain ⟨hread, rfl⟩ := h
    have hall : ∀ e ∈ request.headers.entries, nul ∈ e.name.chars ∧ nul ∈ e.value.chars :=
      fun e he => ⟨hread.headers.name e he, hread.headers.value e he⟩
    refine bind_ok_iff.mpr ⟨_, readString_ok_iff.mpr ⟨hread.method, rfl⟩, bind_ok_iff.mpr
      ⟨_, readString_ok_iff.mpr ⟨hread.path, rfl⟩, bind_ok_iff.mpr
        ⟨_, readString_ok_iff.mpr ⟨hread.version, rfl⟩, ?_⟩⟩⟩
    rw [if_neg (Nat.not_lt.mpr hread.headers.count)]
    exact bind_ok_iff.mpr ⟨_, mapM_read_ok_iff.mpr ⟨hall, rfl⟩, rfl⟩

/-! ## Reports -/

/-- Name and value of each header are parts of one line. -/
def FromOneLine (rawHttp : List Char) (headers : List (List Char × List Char)) : Prop :=
  ∀ h ∈ headers, ∃ line ∈ strtokPieces '\n' (cstr rawHttp), h.1 <:+: line ∧ h.2 <:+: line

/-- Two calls report the same strings, whatever the locals of either held. -/
def ReportDetermined (abi : Abi) (rawHttp : List Char) : Prop :=
  ∀ locals locals' : Locals abi, ∃ request request' view,
    parseHttp locals rawHttp = .ok request ∧ parseHttp locals' rawHttp = .ok request' ∧
      request.read = .ok view ∧ request'.read = .ok view ∧
      request.headers.count = request'.headers.count ∧ FromOneLine rawHttp view.headers

section

variable {abi : Abi}

/-- A conversion that must agree for two contents of its argument was
made. -/
theorem isSome_of_getD_eq {α : Type} {o : Option α} {a b : α} (hne : a ≠ b)
    (h : o.getD a = o.getD b) : o.isSome := by
  cases o with
  | none => exact absurd h hne
  | some _ => rfl

theorem str_fill_ne {n : Nat} (hn : 0 < n) :
    (CharArray.fill n 'a').str ≠ (CharArray.fill n 'b').str := by
  have ha : (CharArray.fill n 'a').str = List.replicate n 'a' := cstr_replicate (by decide) n
  have hb : (CharArray.fill n 'b').str = List.replicate n 'b' := cstr_replicate (by decide) n
  rw [ha, hb]
  intro h
  rcases (List.replicate_inj.mp h).2 with hzero | hchar
  · omega
  · exact absurd hchar (by decide)

/-- With three words and full slots the report is that of the lines. -/
theorem Reads.view_eq {line : List Char} {rest : List (List Char)} {locals : Locals abi}
    {request : HttpRequest} (h : Reads locals line rest request)
    (hwords : (requestWords line).length = 3) (hslots : ∀ l ∈ headerLines rest, FillsSlot l) :
    request.view =
      { method := (requestWords line)[0]
        path := (requestWords line)[1]
        version := (requestWords line)[2]
        headers := (headerLines rest).map fun l =>
          ((lineEntry [] [] l).name.str, (lineEntry [] [] l).value.str) } := by
  have hheaders : request.headers.list = (headerLines rest).map fun l =>
      ((lineEntry [] [] l).name.str, (lineEntry [] [] l).value.str) := by
    have hmap : (lineEntries locals 0 ((headerLines rest).map id)).map
        (fun h => (h.name.str, h.value.str)) = _ :=
      map_lineEntries locals id 0 fun l hl header value =>
        congrArg (fun h : HttpHeader => (h.name.str, h.value.str))
          ((hslots l hl).lineEntry_eq header [] value [])
    rwa [List.map_id, ← h.entries] at hmap
  rw [HttpRequest.view, h.method, h.path, h.version, hheaders]
  simp [hwords]

/-- A report that does not depend on the locals leaves no word out. -/
theorem length_requestWords {line : List Char} {rest : List (List Char)}
    {request request' : HttpRequest} (h : Reads (Locals.fill abi 'a') line rest request)
    (h' : Reads (Locals.fill abi 'b') line rest request') (hview : request.view = request'.view) :
    (requestWords line).length = 3 := by
  have hversion : request.version.str = request'.version.str := congrArg RequestView.version hview
  rw [h.version, h'.version] at hversion
  have hsome := isSome_of_getD_eq (str_fill_ne (by decide)) hversion
  have hle : (requestWords line).length ≤ 3 := length_sscanf_le _ line
  have hlt : 2 < (requestWords line).length := by simpa using hsome
  omega

/-- Full slots and three words leave every array terminated. -/
theorem Reads.readable {line : List Char} {rest : List (List Char)} {locals : Locals abi}
    {request : HttpRequest} (h : Reads locals line rest request) (hfit : TableFits abi line rest)
    (hwords : (requestWords line).length = 3) : request.Readable where
  method := by
    rw [CharArray.nul_mem_iff, h.method, List.getElem?_eq_getElem (by omega)]
    exact hfit.words.method _ (List.getElem?_eq_getElem (by omega))
  path := by
    rw [CharArray.nul_mem_iff, h.path, List.getElem?_eq_getElem (by omega)]
    exact hfit.words.path _ (List.getElem?_eq_getElem (by omega))
  version := by
    rw [CharArray.nul_mem_iff, h.version, List.getElem?_eq_getElem (by omega)]
    exact hfit.words.version _ (List.getElem?_eq_getElem (by omega))
  headers := h.wellFormed hfit

end

/-- The slot of a line that fills it shows parts of the line. -/
theorem FillsSlot.isInfix {line : List Char} (h : FillsSlot line) (hnul : nul ∉ line)
    (header value : List Char) :
    (lineEntry header value line).name.str <:+: line ∧
      (lineEntry header value line).value.str <:+: line := by
  obtain ⟨name, word, hwords, hname, hword⟩ := h
  have hpart : ∀ s ∈ headerWords line, ∀ n, (strncpy n s).str <:+: line := by
    intro s hs n
    rw [strncpy_str, cstr_of_not_mem fun hmem => hnul ((infix_of_mem_sscanf hs).subset hmem)]
    exact (List.take_prefix n s).isInfix.trans (infix_of_mem_sscanf hs)
  simp only [lineEntry, hwords]
  exact ⟨hpart name (by simp [hwords]) _, hpart word (by simp [hwords]) _⟩

/-- **No dependence on uninitialised memory**: the report is determined by
the text exactly when the table fits it, its first line has three words,
and a line of it is copied to `body`. -/
theorem reportDetermined_iff (abi : Abi) (rawHttp : List Char) :
    ReportDetermined abi rawHttp ↔
      ∃ line rest, strtokPieces '\n' (cstr rawHttp) = line :: rest ∧
        TableFits abi line rest ∧ (requestWords line).length = 3 ∧
        copiedLines (bodyLines rest) ≠ [] := by
  constructor
  · intro h
    obtain ⟨r, r', view, hr, hr', hread, hread', -⟩ := h (.fill abi 'a') (.fill abi 'b')
    obtain ⟨hreadable, hview⟩ := HttpRequest.read_ok_iff.mp hread
    obtain ⟨-, hview'⟩ := HttpRequest.read_ok_iff.mp hread'
    cases hlines : strtokPieces '\n' (cstr rawHttp) with
    | nil =>
      rw [parseHttp_of_no_line _ hlines] at hr
      cases hr
    | cons line rest =>
      obtain ⟨hfit, hreads⟩ := of_parseHttp _ hlines hr
      obtain ⟨-, hreads'⟩ := of_parseHttp _ hlines hr'
      have hnul : ∀ l ∈ rest, nul ∉ l := fun l hl =>
        nul_not_mem_line (hlines ▸ List.mem_cons_of_mem line hl)
      exact ⟨line, rest, rfl, ⟨hfit.words,
        fillsSlot_of_wellFormed hnul hreads hreadable.headers, hfit.count, hfit.body⟩,
        length_requestWords hreads hreads' (hview.symm.trans hview'),
        copiedLines_of_parseHttp hlines hr⟩
  · intro h locals locals'
    obtain ⟨line, rest, hlines, hfit, hwords, hcopied⟩ := h
    obtain ⟨r, hr⟩ := parseHttp_ok locals hlines hfit.textFits hcopied
    obtain ⟨r', hr'⟩ := parseHttp_ok locals' hlines hfit.textFits hcopied
    obtain ⟨-, hreads⟩ := of_parseHttp locals hlines hr
    obtain ⟨-, hreads'⟩ := of_parseHttp locals' hlines hr'
    have hview := hreads.view_eq hwords hfit.slots
    refine ⟨r, r', r.view, hr, hr', HttpRequest.read_ok_iff.mpr ⟨hreads.readable hfit hwords, rfl⟩,
      HttpRequest.read_ok_iff.mpr ⟨hreads'.readable hfit hwords,
        hview.trans (hreads'.view_eq hwords hfit.slots).symm⟩,
      hreads.count.trans hreads'.count.symm, ?_⟩
    rw [hview]
    intro p hp
    obtain ⟨l, hl, rfl⟩ := List.mem_map.mp hp
    have hmem : l ∈ strtokPieces '\n' (cstr rawHttp) :=
      hlines ▸ List.mem_cons_of_mem line (of_mem_headerLines hl).1
    exact ⟨l, hmem, (hfit.slots l hl).isInfix (nul_not_mem_line hmem) [] []⟩

/-- Locals that hold NULs, and one string in each `value`. -/
def Locals.holding (abi : Abi) (s : List Char) : Locals abi :=
  { Locals.fill abi nul with value := fun _ => strncpy _ s }

/-- A header with an empty value shows what the buffer held. -/
theorem empty_value_shows_buffer :
    let abi : Abi := ⟨4, by decide⟩
    let text := "GET / HTTP/1.1\r\nHost:\r\n\r\nx".toList
    strstr text ['\r', '\n'] = true ∧
      (parseHttp (.holding abi ['a']) text).map (fun r => r.view.headers) =
        .ok [("Host".toList, ['a'])] ∧
      (parseHttp (.holding abi ['b']) text).map (fun r => r.view.headers) =
        .ok [("Host".toList, ['b'])] ∧
      ¬ ReportDetermined abi text := by
  intro abi text
  have ha : (parseHttp (.holding abi ['a']) text).map (fun r => r.view.headers) =
      .ok [("Host".toList, ['a'])] := by decide +kernel
  have hb : (parseHttp (.holding abi ['b']) text).map (fun r => r.view.headers) =
      .ok [("Host".toList, ['b'])] := by decide +kernel
  refine ⟨by decide +kernel, ha, hb, fun h => ?_⟩
  obtain ⟨r, r', view, hr, hr', hread, hread', -⟩ := h (.holding abi ['a']) (.holding abi ['b'])
  rw [hr] at ha
  rw [hr'] at hb
  have hshown : r.view.headers = _ := Except.ok.inj ha
  have hshown' : r'.view.headers = _ := Except.ok.inj hb
  have hview : r.view = r'.view :=
    (HttpRequest.read_ok_iff.mp hread).2.symm.trans (HttpRequest.read_ok_iff.mp hread').2
  rw [hview, hshown'] at hshown
  exact absurd hshown (by decide)

end CWebServer.Http
