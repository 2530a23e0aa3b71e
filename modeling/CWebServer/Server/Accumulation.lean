/-
CWebServer.Server.Accumulation — what a connection has read, and when its
work starts.

Each `read_cb` appends its bytes to `data->text` and moves the terminator
behind them. The search for a line end sees the text up to its first NUL
only, and that part never changes again once the NUL is there, so a longer
text has a line end as soon as a shorter one has (`HoldsLineEnd.mono`).
Hence the work starts with the first read after which there is one, and
whether it ever starts depends on the bytes alone (`reads_accumulate`).

No `sorry`, no `axiom`, no `native_decide`.
-/
import CWebServer.Server.Lifecycle

namespace CWebServer.Server

open Libc Http

/-! ## The read that starts the work -/

/-- The ends `read_cb` looks for. -/
def HoldsLineEnd (text : List Char) : Prop := ['\r', '\n'] <:+: text ∨ ['\n', '\n'] <:+: text

instance (text : List Char) : Decidable (HoldsLineEnd text) :=
  inferInstanceAs (Decidable (_ ∨ _))

theorem HoldsLineEnd.mono {text text' : List Char} (h : HoldsLineEnd text)
    (hfront : text <+: text') : HoldsLineEnd text' := by
  rcases h with h | h
  · exact .inl (h.trans hfront.isInfix)
  · exact .inr (h.trans hfront.isInfix)

theorem not_holdsLineEnd_nil : ¬ HoldsLineEnd [] := by decide

/-- A chunk is appended to what was received. -/
theorem appendChunk_text {data : ClientRequestData} {received : List Char}
    (hlen : data.textLen = received.length) (htext : data.text.getD [nul] = received ++ [nul])
    (chunk : List Char) :
    (Connection.appendChunk data chunk).text = some (received ++ chunk ++ [nul]) ∧
      (Connection.appendChunk data chunk).textLen = (received ++ chunk).length ∧
      (Connection.appendChunk data chunk).workStarted = data.workStarted := by
  unfold Connection.appendChunk
  cases hold : data.text with
  | none =>
    rw [hold] at htext
    have hempty : received = [] := by
      have := congrArg List.length htext
      simpa using this
    simp [hempty]
  | some text =>
    rw [hold, Option.getD_some] at htext
    simp [htext, hlen]

/-- The text is searched up to its first NUL. -/
theorem requestReady_iff {data : ClientRequestData} {text : List Char}
    (hstarted : data.workStarted = false) (hlen : data.textLen = text.length)
    (htext : data.text = some (text ++ [nul])) :
    Connection.requestReady data = true ↔ HoldsLineEnd (cstr text) := by
  have hne : HoldsLineEnd (cstr text) → text ≠ [] := by
    intro h hempty
    subst hempty
    exact not_holdsLineEnd_nil h
  simp only [Connection.requestReady, hstarted, hlen, htext, Option.getD_some, strstr,
    cstr_terminated, Bool.not_false, Bool.true_and, Bool.and_eq_true, bne_iff_ne, ne_eq,
    List.length_eq_zero_iff, Bool.or_eq_true, decide_eq_true_eq]
  exact ⟨fun h => h.2, fun h => ⟨hne h, h⟩⟩

/-- One `read_cb` on a stream that is read: the bytes are appended, and the
work is started if the text then holds a line end. -/
theorem readCb_append {c : Connection} {data : ClientRequestData} {received : List Char}
    (hdata : c.data = some data) (hlive : c.client.Live) (hstarted : data.workStarted = false)
    (hlen : data.textLen = received.length) (htext : data.text.getD [nul] = received ++ [nul])
    {base : List Char} {nread : Nat} (hle : nread ≤ base.length) (rc : Int) :
    ∃ data', data'.text = some (received ++ base.take nread ++ [nul]) ∧
      data'.textLen = (received ++ base.take nread).length ∧ data'.workStarted = false ∧
      c.readCb nread base rc =
        if HoldsLineEnd (cstr (received ++ base.take nread)) then
          .ok (({ c with data := some { data' with workReq := .own, workStarted := true }
                         client := .idle } : Connection).uvQueueWork rc)
        else .ok { c with data := some data' } := by
  obtain ⟨htext', hlen', hstarted'⟩ := appendChunk_text hlen htext (base.take nread)
  have hread : Connection.readChunk data nread base =
      .ok (Connection.appendChunk data (base.take nread)) :=
    if_pos ⟨Int.natCast_nonneg _, hle⟩
  have hend : ¬ ((nread : Int) = -1 ∨ (nread : Int) = Connection.uvEof) := by
    unfold Connection.uvEof
    omega
  have hready := requestReady_iff (hstarted'.trans hstarted) hlen' htext'
  refine ⟨_, htext', hlen', hstarted'.trans hstarted, ?_⟩
  rw [readCb_eq hdata hlive rc hend hread]
  by_cases hholds : HoldsLineEnd (cstr (received ++ base.take nread))
  · rw [if_pos (hready.mpr hholds), if_pos hholds]
  · rw [if_neg (mt hready.mp hholds), if_neg hholds]

/-! ## Sequences of reads -/

/-- One call of `read_cb` with data: the buffer, the count, and what
`uv_queue_work` returns if it is called. -/
structure Read where
  base : List Char
  nread : Nat
  nread_le : nread ≤ base.length
  queueWorkRc : Int

/-- The bytes it delivers. -/
def Read.chunk (read : Read) : List Char := read.base.take read.nread

/-- The bytes that reads deliver. -/
def stream (reads : List Read) : List Char := (reads.map Read.chunk).flatten

/-- `read_cb` for one read after the other, as long as the stream is
read. -/
def readAll (c : Connection) : List Read → Except Fault Connection
  | [] => .ok c
  | read :: reads =>
    if c.client = .active then do
      let c ← c.readCb read.nread read.base read.queueWorkRc
      readAll c reads
    else .ok c

/-- The text is what the reads delivered, terminated at `text_len`. -/
def Accumulated (c : Connection) (reads : List Read) : Prop :=
  ∃ data, c.data = some data ∧ data.textLen = (stream reads).length ∧
    data.text = if reads = [] then none else some (stream reads ++ [nul])

/-- On with reading after `reads`. -/
structure StillReading (c : Connection) (reads : List Read) : Prop where
  data : ∃ data, c.data = some data ∧ data.workStarted = false ∧
    data.textLen = (stream reads).length ∧
    data.text = if reads = [] then none else some (stream reads ++ [nul])
  client : c.client = .active
  workItems : c.workItems = 0
  quiet : ¬ HoldsLineEnd (cstr (stream reads))

theorem stream_concat (reads : List Read) (read : Read) :
    stream (reads ++ [read]) = stream reads ++ read.chunk := by
  simp [stream]

theorem StillReading.accumulated {c : Connection} {reads : List Read} (h : StillReading c reads) :
    Accumulated c reads := by
  obtain ⟨data, hdata, -, hlen, htext⟩ := h.data
  exact ⟨data, hdata, hlen, htext⟩

/-- One read more: on with reading, or the work is started. -/
theorem StillReading.read {c : Connection} {reads : List Read} (h : StillReading c reads)
    (read : Read) :
    ∃ c', c.readCb read.nread read.base read.queueWorkRc = .ok c' ∧
      (StillReading c' (reads ++ [read]) ∨
        Accumulated c' (reads ++ [read]) ∧ c'.client = .idle ∧ c'.workItems = 1 ∧
          HoldsLineEnd (cstr (stream (reads ++ [read])))) := by
  obtain ⟨data, hdata, hstarted, hlen, htext⟩ := h.data
  have hblock : data.text.getD [nul] = stream reads ++ [nul] := by
    rw [htext]
    by_cases hempty : reads = []
    · rw [if_pos hempty, hempty]
      rfl
    · rw [if_neg hempty]
      rfl
  obtain ⟨data', htext', hlen', hstarted', heq⟩ := readCb_append hdata (.inr h.client) hstarted
    hlen hblock read.nread_le read.queueWorkRc
  have hne : reads ++ [read] ≠ [] := by simp
  rw [← Read.chunk, ← stream_concat] at htext' hlen' heq
  by_cases hholds : HoldsLineEnd (cstr (stream (reads ++ [read])))
  · rw [if_pos hholds] at heq
    refine ⟨_, heq, .inr ⟨⟨_, rfl, hlen', by rw [if_neg hne]; exact htext'⟩, rfl, ?_, hholds⟩⟩
    change c.workItems + 1 = 1
    rw [h.workItems]
  · rw [if_neg hholds] at heq
    refine ⟨_, heq, .inl ?_⟩
    exact
      { data := ⟨data', rfl, hstarted', hlen', by rw [if_neg hne]; exact htext'⟩
        client := h.client
        workItems := h.workItems
        quiet := hholds }

/-- What is left after reading: the first `n` reads were delivered, none
but the last of them completed a line, and the work was started if that one
did. -/
structure Delivered (c : Connection) (reads : List Read) (n : Nat) : Prop where
  le : n ≤ reads.length
  text : Accumulated c (reads.take n)
  before : ∀ k < n, ¬ HoldsLineEnd (cstr (stream (reads.take k)))
  work : c.workItems = 1 ∧ c.client = .idle ∧ HoldsLineEnd (cstr (stream (reads.take n))) ∨
    c.workItems = 0 ∧ n = reads.length ∧ ¬ HoldsLineEnd (cstr (stream (reads.take n)))

theorem prefix_stream_take (reads : List Read) (k : Nat) :
    stream (reads.take k) <+: stream reads := by
  refine ⟨stream (reads.drop k), ?_⟩
  rw [stream, stream, ← List.flatten_append, ← List.map_append, List.take_append_drop]
  rfl

theorem StillReading.before {c : Connection} {done : List Read} (h : StillReading c done)
    (reads : List Read) {k : Nat} (hk : k ≤ done.length) :
    ¬ HoldsLineEnd (cstr (stream ((done ++ reads).take k))) := by
  rw [List.take_append_of_le_length hk]
  exact fun hholds => h.quiet (hholds.mono (prefix_cstr (prefix_stream_take done k)))

/-- A run of reads, after those already done. -/
theorem StillReading.readAll {done reads : List Read} {c : Connection} (h : StillReading c done) :
    ∃ c' n, Server.readAll c reads = .ok c' ∧ Delivered c' (done ++ reads) n := by
  induction reads generalizing c done with
  | nil =>
    have hall : (done ++ []).take done.length = done := by simp
    refine ⟨c, done.length, rfl, by simp, ?_, fun k hk => h.before [] hk.le, .inr ?_⟩
    · rw [hall]
      exact h.accumulated
    · rw [hall]
      exact ⟨h.workItems, by simp, h.quiet⟩
  | cons read reads ih =>
    obtain ⟨next, hread, hcases⟩ := h.read read
    have hrun : Server.readAll c (read :: reads) = Server.readAll next reads := by
      rw [Server.readAll, if_pos h.client]
      simp only [hread, bind, Except.bind]
    rw [hrun]
    rcases hcases with hreading | ⟨haccumulated, hidle, hwork, hholds⟩
    · obtain ⟨c', n, hrest, hdelivered⟩ := ih hreading
      rw [List.append_assoc] at hdelivered
      exact ⟨c', n, hrest, hdelivered⟩
    · have hstopped : Server.readAll next reads = .ok next := by
        cases reads with
        | nil => rfl
        | cons _ _ => rw [Server.readAll, if_neg (by simp [hidle])]
      have hfirst : (done ++ read :: reads).take (done.length + 1) = done ++ [read] := by
        rw [List.take_append, List.take_of_length_le (by omega), Nat.add_sub_cancel_left]
        rfl
      refine ⟨next, done.length + 1, hstopped, by simp, ?_, fun k hk => h.before _ (by omega),
        .inl ?_⟩
      · rwa [hfirst]
      · rw [hfirst]
        exact ⟨hwork, hidle, hholds⟩

theorem stillReading_accepted : StillReading (acceptedConnection 0) [] where
  data := ⟨_, rfl, rfl, rfl, rfl⟩
  client := rfl
  workItems := rfl
  quiet := not_holdsLineEnd_nil

/-- The work is started if the bytes hold a line end, however they came. -/
theorem Delivered.workItems_eq {c : Connection} {reads : List Read} {n : Nat}
    (h : Delivered c reads n) :
    c.workItems = if HoldsLineEnd (cstr (stream reads)) then 1 else 0 := by
  rcases h.work with ⟨hwork, -, hholds⟩ | ⟨hwork, hn, hquiet⟩
  · rw [hwork, if_pos (hholds.mono (prefix_cstr (prefix_stream_take reads n)))]
  · rw [hn, List.take_length] at hquiet
    rw [hwork, if_neg hquiet]

/-- Once the work is submitted the text is what was delivered. -/
theorem Delivered.workText {c : Connection} {reads : List Read} {n : Nat}
    (h : Delivered c reads n) (hwork : c.workItems = 1) :
    ∃ data, c.data = some data ∧ data.text = some (stream (reads.take n) ++ [nul]) := by
  obtain ⟨data, hdata, -, htext⟩ := h.text
  have hne : reads.take n ≠ [] := by
    intro hnil
    rcases h.work with ⟨-, -, hholds⟩ | ⟨hnone, -, -⟩
    · rw [hnil] at hholds
      exact not_holdsLineEnd_nil hholds
    · omega
  exact ⟨data, hdata, htext.trans (if_neg hne)⟩

/-- **Accumulation**: any sequence of reads is delivered up to the first
after which the text before its first NUL holds a line end, the text is what
was delivered, and the work is started once or, without such a read, not at
all; and any other sequence that brings the same bytes starts it as often. -/
theorem reads_accumulate (reads : List Read) :
    ∃ c n, readAll (acceptedConnection 0) reads = .ok c ∧ Delivered c reads n ∧
      ∀ reads', stream reads' = stream reads →
        ∃ c' n', readAll (acceptedConnection 0) reads' = .ok c' ∧ Delivered c' reads' n' ∧
          c'.workItems = c.workItems := by
  obtain ⟨c, n, hread, hdelivered⟩ := stillReading_accepted.readAll
  refine ⟨c, n, hread, hdelivered, fun reads' hsame => ?_⟩
  obtain ⟨c', n', hread', hdelivered'⟩ := stillReading_accepted.readAll
  rw [List.nil_append] at hdelivered hdelivered'
  refine ⟨c', n', hread', hdelivered', ?_⟩
  rw [hdelivered.workItems_eq, hdelivered'.workItems_eq, hsame]

end CWebServer.Server
