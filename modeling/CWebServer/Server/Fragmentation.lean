/-
CWebServer.Server.Fragmentation — one request, cut into reads in two ways.

`read_cb` starts the work with the first read after which the text holds a
CRLF. In a CRLF request that is the end of the request line and not of the
head, so the request that `process_command` obtains is that of the head
only when the read with the end of the request line brings the rest of the
head too (`fragmentationIndependent_iff`).

The proof follows a connection through its reads: it is `Reading` what has
been received, each read appends its chunk (`Reading.read`), and the one
that completes the line leaves it `Queued` (`Reading.deliver`). What is
obtained then is a matter of `parseHttp` alone (`obtained_eq`).

No `sorry`, no `axiom`, no `native_decide`.
-/
import CWebServer.Http.LineEndings
import CWebServer.Runs.Cutting
import CWebServer.Server.Accumulation

namespace CWebServer.Server

open Libc Http Runs

variable {abi : Abi}

/-! ## Runs -/

/-- `read_cb` for one chunk after the other, as long as the stream is
read. -/
def deliver (c : Connection) : List (List Char) → Except Fault Connection
  | [] => .ok c
  | chunk :: chunks =>
    if c.client = .active then do
      let c ← c.readCb chunk.length chunk 0
      deliver c chunks
    else .ok c

/-- A new connection reads the chunks, and if its work is queued then
`process_command` calls `parseHttp` on the text. -/
def obtained (locals : Locals abi) (chunks : List (List Char)) :
    Except Fault (Option HttpRequest) := do
  let c ← deliver (acceptedConnection 0) chunks
  if c.work = .queued then do
    let data ← c.deref
    match data.text with
    | none => .error .nullPointer
    | some text => do
      let request ← parseHttp locals text
      .ok (some request)
  else .ok none

/-- Reading chunks is a run of the server. -/
theorem reaches_deliver {chunks : List (List Char)} {c c' : Connection}
    (hc : Reaches (server abi) (fun _ e => e.KnownRead) [c]) (h : deliver c chunks = .ok c') :
    Reaches (server abi) (fun _ e => e.KnownRead) [c'] := by
  induction chunks generalizing c with
  | nil =>
    obtain rfl := Except.ok.inj h
    exact hc
  | cons chunk chunks ih =>
    rw [deliver] at h
    by_cases hactive : c.client = .active
    · rw [if_pos hactive] at h
      obtain ⟨next, hnext, h⟩ := bind_ok_iff.mp h
      have hpermits : (server abi).Enabled [c] (.callback 0 (.readCb chunk.length chunk 0)) :=
        ⟨c, rfl, hactive, Int.le_refl _⟩
      have hstep : (server abi).step [c] (.callback 0 (.readCb chunk.length chunk 0)) =
          .ok [next] := bind_ok_iff.mpr ⟨next, hnext, rfl⟩
      exact ih (.step hc hpermits (.inl (Int.natCast_nonneg _)) hstep) h
    · rw [if_neg hactive] at h
      obtain rfl := Except.ok.inj h
      exact hc

/-! ## The read that starts the work -/

/-- In a text whose first line ends in CRLF, a prefix holds an end as soon
as it holds that line. -/
theorem holdsLineEnd_iff {line rest text : List Char} (hline : '\n' ∉ line)
    (htext : text <+: line ++ '\r' :: '\n' :: rest) :
    HoldsLineEnd text ↔ line.length + 2 ≤ text.length := by
  have hwhole : line ++ '\r' :: '\n' :: rest = line ++ ['\r'] ++ '\n' :: rest := by simp
  constructor
  · intro h
    by_contra hshort
    have hfront : text <+: line ++ ['\r'] := by
      refine List.prefix_of_prefix_length_le htext (hwhole ▸ List.prefix_append _ _) ?_
      simp only [List.length_append, List.length_singleton]
      omega
    have hlf : '\n' ∉ text := by
      intro hmem
      have := hfront.subset hmem
      simp [hline] at this
    rcases h with h | h
    · exact hlf (h.subset (by simp))
    · exact hlf (h.subset (by simp))
  · intro h
    have hfront : line ++ ['\r', '\n'] <+: text := by
      refine List.prefix_of_prefix_length_le ⟨rest, by simp⟩ htext ?_
      simpa using h
    obtain ⟨tail, rfl⟩ := hfront
    exact .inl ⟨line, tail, rfl⟩

/-- Being read, with `received` in the text. -/
structure Reading (c : Connection) (received : List Char) : Prop where
  data : ∃ data, c.data = some data ∧ data.workStarted = false ∧
    data.textLen = received.length ∧ data.text.getD [nul] = received ++ [nul]
  client : c.client = .active
  work : c.work = .none
  parsed : c.parsed = none

/-- Read no more, with its work queued on `received`. -/
structure Queued (c : Connection) (received : List Char) : Prop where
  data : ∃ data, c.data = some data ∧ data.text = some (received ++ [nul])
  client : c.client = .idle
  work : c.work = .queued
  parsed : c.parsed = none

theorem reading_accepted : Reading (acceptedConnection 0) [] where
  data := ⟨_, rfl, rfl, rfl, rfl⟩
  client := rfl
  work := rfl
  parsed := rfl

/-- One read: the work is started with the first line end. -/
theorem Reading.read {c : Connection} {received : List Char} (h : Reading c received)
    (chunk : List Char) (hnul : nul ∉ received ++ chunk) :
    ∃ c', c.readCb chunk.length chunk 0 = .ok c' ∧
      (HoldsLineEnd (received ++ chunk) ∧ Queued c' (received ++ chunk) ∨
        ¬ HoldsLineEnd (received ++ chunk) ∧ Reading c' (received ++ chunk)) := by
  obtain ⟨data, hdata, hstarted, hlen, htext⟩ := h.data
  obtain ⟨data', htext', hlen', hstarted', heq⟩ := readCb_append hdata (.inr h.client) hstarted
    hlen htext (Nat.le_refl chunk.length) 0
  rw [List.take_length, cstr_of_not_mem hnul] at heq
  rw [List.take_length] at htext' hlen'
  by_cases hholds : HoldsLineEnd (received ++ chunk)
  · rw [if_pos hholds] at heq
    refine ⟨_, heq, .inl ⟨hholds, ?_⟩⟩
    exact { data := ⟨_, rfl, htext'⟩, client := rfl, work := rfl, parsed := h.parsed }
  · rw [if_neg hholds] at heq
    refine ⟨_, heq, .inr ⟨hholds, ?_⟩⟩
    exact
      { data := ⟨_, rfl, hstarted', hlen', by rw [htext']; rfl⟩
        client := h.client
        work := h.work
        parsed := h.parsed }

/-- Once the work is queued no chunk is read. -/
theorem Queued.deliver {c : Connection} {received : List Char} (h : Queued c received)
    (chunks : List (List Char)) : deliver c chunks = .ok c := by
  cases chunks with
  | nil => rfl
  | cons chunk chunks =>
    have hidle : c.client ≠ .active := by simp [h.client]
    rw [Server.deliver, if_neg hidle]

/-- A run of reads queues the work on the chunks up to the one that
completes the first line. -/
theorem Reading.deliver {line rest : List Char} (hline : '\n' ∉ line)
    (hnul : nul ∉ line ++ '\r' :: '\n' :: rest) {chunks : List (List Char)} {c : Connection}
    {received : List Char} (h : Reading c received) (hshort : received.length < line.length + 2)
    (hwhole : received ++ chunks.flatten = line ++ '\r' :: '\n' :: rest) :
    ∃ c', deliver c chunks = .ok c' ∧
      Queued c' (received ++ (upTo (line.length + 2 - received.length) chunks).flatten) := by
  induction chunks generalizing c received with
  | nil =>
    have hlength := congrArg List.length hwhole
    simp only [List.flatten_nil, List.append_nil, List.length_append, List.length_cons] at hlength
    omega
  | cons chunk chunks ih =>
    rw [List.flatten_cons, ← List.append_assoc] at hwhole
    have hfront : received ++ chunk <+: line ++ '\r' :: '\n' :: rest := ⟨_, hwhole⟩
    have hends := holdsLineEnd_iff hline hfront
    obtain ⟨c', hread, hcases⟩ := h.read chunk fun hmem => hnul (hfront.subset hmem)
    have hdeliver : Server.deliver c (chunk :: chunks) = Server.deliver c' chunks := by
      rw [Server.deliver, if_pos h.client]
      simp only [hread, bind, Except.bind]
    have hlength : (received ++ chunk).length = received.length + chunk.length :=
      List.length_append
    rw [hdeliver, upTo]
    rcases hcases with ⟨hholds, hqueued⟩ | ⟨hholds, hreading⟩
    · have hlast : line.length + 2 - received.length ≤ chunk.length := by
        have := hends.mp hholds
        omega
      refine ⟨c', hqueued.deliver chunks, ?_⟩
      rw [if_pos hlast]
      simpa using hqueued
    · have hmore : (received ++ chunk).length < line.length + 2 := by
        by_contra hlong
        exact hholds (hends.mpr (by omega))
      obtain ⟨c'', hrest, hqueued⟩ := ih hreading hmore hwhole
      refine ⟨c'', hrest, ?_⟩
      rw [if_neg (by omega), List.flatten_cons, ← List.append_assoc]
      rwa [hlength, Nat.sub_add_eq] at hqueued

/-! ## The request obtained -/

/-- The text begins with the request line and its end. -/
theorem exists_text_eq (m : Message) :
    ∃ rest, m.text .crlf = m.head.requestLine ++ '\r' :: '\n' :: rest := by
  refine ⟨terminated .crlf (m.head.fields.map Field.line ++ [[]]) ++ m.bodyText .crlf, ?_⟩
  simp [Message.text, Head.text, Head.lines, terminated, LineEnd.chars, LineEnd.tail]

/-- What `read_cb` reads of a request: the chunks up to the one with the
end of the request line. -/
def received {m : Message} (cutting : Cutting (m.text .crlf)) : List Char :=
  cutting.received (m.head.requestLine.length + 2)

theorem nul_not_mem_received {m : Message} (cutting : Cutting (m.text .crlf)) :
    nul ∉ received cutting :=
  fun h => m.nul_not_mem_text .crlf ((cutting.received_prefix _).subset h)

theorem queued_received {m : Message} (cutting : Cutting (m.text .crlf)) :
    ∃ c, deliver (acceptedConnection 0) cutting.chunks = .ok c ∧ Queued c (received cutting) := by
  obtain ⟨rest, hrest⟩ := exists_text_eq m
  have hline : '\n' ∉ m.head.requestLine := m.head.lf_not_mem_lines _ (by simp [Head.lines])
  have hnul := m.nul_not_mem_text .crlf
  rw [hrest] at hnul
  have hwhole : [] ++ cutting.chunks.flatten = m.head.requestLine ++ '\r' :: '\n' :: rest := by
    rw [List.nil_append, cutting.flatten_eq, hrest]
  exact reading_accepted.deliver hline hnul (by simp) hwhole

/-- `process_command` obtains what `parseHttp` makes of the text received. -/
theorem obtained_eq {m : Message} (cutting : Cutting (m.text .crlf)) (locals : Locals abi) :
    obtained locals cutting.chunks = some <$> parseHttp locals (received cutting) := by
  obtain ⟨c, hdeliver, hqueued⟩ := queued_received cutting
  obtain ⟨data, hdata, htext⟩ := hqueued.data
  have hnul := nul_not_mem_received cutting
  have hparse : parseHttp locals (received cutting ++ [nul]) =
      parseHttp locals (received cutting) := by
    simp only [parseHttp, parseHttpState, cstr_append_nul hnul, cstr_of_not_mem hnul]
  simp only [obtained, hdeliver, bind, Except.bind, if_pos hqueued.work,
    Connection.deref_eq hdata, htext, hparse]
  cases parseHttp locals (received cutting) <;> rfl

/-! ## Independence -/

/-- `process_command` obtains the request. -/
def Obtains (locals : Locals abi) (chunks : List (List Char)) (request : HttpRequest) : Prop :=
  obtained locals chunks = .ok (some request)

/-- Work is queued only on a text that holds the whole head, its blank line
included. -/
def QueuesWhole (h : Head) (chunks : List (List Char)) : Prop :=
  ∀ c data text, deliver (acceptedConnection 0) chunks = .ok c → c.work = .queued →
    c.data = some data → data.text = some text → h.text .crlf <+: cstr text

/-- Neither run queues its work early, and whatever the locals hold, both
obtain the same method, path, version and headers. -/
structure FragmentationIndependent (abi : Abi) (m : Message)
    (cutting cutting' : Cutting (m.text .crlf)) : Prop where
  queuesWhole : QueuesWhole m.head cutting.chunks
  queuesWhole' : QueuesWhole m.head cutting'.chunks
  agree : ∀ locals locals' : Locals abi, ∃ request request',
    Obtains locals cutting.chunks request ∧ Obtains locals' cutting'.chunks request' ∧
      request.view = request'.view

/-- What the reads up to the end of the request line bring behind the
head. -/
def receivedLines {m : Message} (cutting : Cutting (m.text .crlf)) : List (List Char) :=
  strtokPieces '\n' ((received cutting).drop (m.head.text .crlf).length)

/-- The reads up to the end of the request line bring the whole head, and
body lines that fit, with one to print among them. -/
structure BringsHead (abi : Abi) {m : Message} (cutting : Cutting (m.text .crlf)) : Prop where
  head : (m.head.text .crlf).length ≤ (received cutting).length
  body : LinesFit abi (receivedLines cutting)
  printed : copiedLines (receivedLines cutting) ≠ []

theorem queuesWhole_iff {m : Message} (cutting : Cutting (m.text .crlf)) :
    QueuesWhole m.head cutting.chunks ↔
      (m.head.text .crlf).length ≤ (received cutting).length := by
  obtain ⟨c, hdeliver, hqueued⟩ := queued_received cutting
  obtain ⟨data, hdata, htext⟩ := hqueued.data
  have hcstr := cstr_append_nul (nul_not_mem_received cutting)
  constructor
  · intro h
    have hfront := h c data _ hdeliver hqueued.work hdata htext
    rw [hcstr] at hfront
    exact hfront.length_le
  · intro hlength d data' text' hdeliver' _ hdata' htext'
    obtain rfl := Except.ok.inj (hdeliver.symm.trans hdeliver')
    obtain rfl := Option.some.inj (hdata.symm.trans hdata')
    obtain rfl := Option.some.inj (htext.symm.trans htext')
    rw [hcstr]
    exact List.prefix_of_prefix_length_le (List.prefix_append _ _) (cutting.received_prefix _)
      hlength

theorem obtains_iff {m : Message} (cutting : Cutting (m.text .crlf)) (locals : Locals abi)
    (request : HttpRequest) :
    Obtains locals cutting.chunks request ↔ parseHttp locals (received cutting) = .ok request := by
  rw [Obtains, obtained_eq]
  cases parseHttp locals (received cutting) with
  | error fault => exact iff_of_false nofun nofun
  | ok r =>
    change Except.ok (some r) = Except.ok (some request) ↔ _
    rw [Except.ok.injEq, Except.ok.injEq, Option.some.injEq]

/-- What is received holds the head whole, or less than it. -/
theorem received_eq {m : Message} (cutting : Cutting (m.text .crlf))
    (h : (m.head.text .crlf).length ≤ (received cutting).length) :
    received cutting =
      m.head.text .crlf ++ (received cutting).drop (m.head.text .crlf).length := by
  have hfront : m.head.text .crlf <+: received cutting :=
    List.prefix_of_prefix_length_le (List.prefix_append _ _) (cutting.received_prefix _) h
  exact (List.prefix_iff_eq_append.mp hfront).symm

theorem nul_not_mem_drop_received {m : Message} (cutting : Cutting (m.text .crlf)) (n : Nat) :
    nul ∉ (received cutting).drop n :=
  fun h => nul_not_mem_received cutting (List.mem_of_mem_drop h)

/-- A request obtained from a text with the whole head is that of the head. -/
theorem of_obtains {m : Message} {cutting : Cutting (m.text .crlf)} {locals : Locals abi}
    {request : HttpRequest} (hobtains : Obtains locals cutting.chunks request)
    (hhead : (m.head.text .crlf).length ≤ (received cutting).length) :
    m.head.Fits abi ∧ LinesFit abi (receivedLines cutting) ∧
      request.view =
        { method := m.head.method.chars, path := m.head.path.chars
          version := m.head.version.chars, headers := slots locals 0 m.head.fields } := by
  have hparse := (obtains_iff cutting locals request).mp hobtains
  rw [received_eq cutting hhead] at hparse
  obtain ⟨⟨hfits, hbody⟩, -, hview⟩ :=
    of_parseHttp_crlf locals m.head (nul_not_mem_drop_received cutting _) hparse
  exact ⟨hfits, hbody, hview⟩

/-- A request obtained whatever the locals hold leaves a line to print. -/
theorem printed_of_obtains {m : Message} {cutting : Cutting (m.text .crlf)} {request : HttpRequest}
    (hobtains : Obtains (.fill abi 'a') cutting.chunks request)
    (hhead : (m.head.text .crlf).length ≤ (received cutting).length) :
    copiedLines (receivedLines cutting) ≠ [] := by
  have hparse := (obtains_iff cutting _ request).mp hobtains
  rw [received_eq cutting hhead] at hparse
  exact copiedLines_of_parseHttp_crlf (nul_not_mem_drop_received cutting _) hparse

theorem BringsHead.obtains {m : Message} {cutting : Cutting (m.text .crlf)}
    (h : BringsHead abi cutting) (hfits : m.head.Fits abi) (locals : Locals abi) :
    ∃ request, Obtains locals cutting.chunks request := by
  obtain ⟨request, hrequest⟩ :=
    parseHttp_crlf_ok locals (nul_not_mem_drop_received cutting _) hfits h.body h.printed
  rw [← received_eq cutting h.head] at hrequest
  exact ⟨request, (obtains_iff cutting locals request).mpr hrequest⟩

/-- **Fragmentation**: two cuttings of a request give the same request, and
neither queues its work early, exactly when the head fits its buffers, each
value has a word, and in both cuttings the read with the end of the request
line brings the rest of the head and a line of body to print. -/
theorem fragmentationIndependent_iff (abi : Abi) (m : Message)
    (cutting cutting' : Cutting (m.text .crlf)) :
    FragmentationIndependent abi m cutting cutting' ↔
      m.head.Fits abi ∧ (∀ f ∈ m.head.fields, firstWord f.value.chars ≠ []) ∧
        BringsHead abi cutting ∧ BringsHead abi cutting' := by
  constructor
  · intro h
    have hhead := (queuesWhole_iff cutting).mp h.queuesWhole
    have hhead' := (queuesWhole_iff cutting').mp h.queuesWhole'
    obtain ⟨r, r', hr, hr', hview⟩ := h.agree (.fill abi 'a') (.fill abi 'b')
    obtain ⟨-, s', -, hs', -⟩ := h.agree (.fill abi 'a') (.fill abi 'a')
    obtain ⟨hfits, hbody, hslots⟩ := of_obtains hr hhead
    obtain ⟨-, hbody', hslots'⟩ := of_obtains hr' hhead'
    rw [hslots, hslots'] at hview
    exact ⟨hfits, word_of_slots_eq (congrArg RequestView.headers hview),
      ⟨hhead, hbody, printed_of_obtains hr hhead⟩, hhead', hbody', printed_of_obtains hs' hhead'⟩
  · intro h
    obtain ⟨hfits, hwords, hbrings, hbrings'⟩ := h
    refine ⟨(queuesWhole_iff cutting).mpr hbrings.head,
      (queuesWhole_iff cutting').mpr hbrings'.head, fun locals locals' => ?_⟩
    obtain ⟨r, hr⟩ := hbrings.obtains hfits locals
    obtain ⟨r', hr'⟩ := hbrings'.obtains hfits locals'
    obtain ⟨-, -, hview⟩ := of_obtains hr hbrings.head
    obtain ⟨-, -, hview'⟩ := of_obtains hr' hbrings'.head
    refine ⟨r, r', hr, hr', ?_⟩
    rw [hview, hview', slots_eq locals locals' 0 0 hwords]

/-- A request with one header, cut behind the request line: no header is
obtained, where the uncut request gives one. -/
theorem header_cut_off :
    let abi : Abi := ⟨4, by decide⟩
    let m : Message :=
      { head :=
          { method := ⟨['G', 'E', 'T'], by decide, by decide, by decide⟩
            path := ⟨['/'], by decide, by decide, by decide⟩
            version := ⟨['H', 'T', 'T', 'P', '/', '1', '.', '1'], by decide, by decide, by decide⟩
            fields :=
              [{ name := ⟨['H', 'o', 's', 't'], by decide, by decide, by decide, by decide,
                   by decide⟩
                 value := ⟨[' ', 'a'], by decide, by decide, by decide⟩ }] }
        body := [] }
    let whole : Cutting (m.text .crlf) := ⟨[m.text .crlf], by decide, by simp⟩
    let cut : Cutting (m.text .crlf) :=
      ⟨["GET / HTTP/1.1\r\n".toList, "Host: a\r\n\r\n".toList], by decide, by decide⟩
    (obtained (.fill abi nul) whole.chunks).map (Option.map fun r => r.view.headers) =
        .ok (some [("Host".toList, "a".toList)]) ∧
      (obtained (.fill abi nul) cut.chunks).map (Option.map fun r => r.view.headers) =
        .ok (some []) ∧
      ¬ FragmentationIndependent abi m whole cut := by
  intro abi m whole cut
  refine ⟨by decide +kernel, by decide +kernel, fun h => ?_⟩
  have hhead := (queuesWhole_iff cut).mp h.queuesWhole'
  exact absurd hhead (by decide +kernel)

end CWebServer.Server
