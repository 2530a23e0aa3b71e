/-
CWebServer.Http.LineEndings — one request under LF and under CRLF.

`read_cb` takes a text with either blank line as complete, but `strtok`
shows the blank line to the loop under CRLF only: under LF the two line
feeds are merged and the header section never ends. What follows is then
read as header lines, up to the first line that is a single whitespace
character by its own contents.

`lineEndIndependent_iff` is the exact condition. Beside that it asks for
what any run of `parseHttp` needs, that the parts fit their buffers, and
for a word in every value: a value without one leaves its buffer as it
was, and two runs need not agree on that.

No `sorry`, no `axiom`, no `native_decide`.
-/
import CWebServer.Http.RequestTheorems

namespace CWebServer.Http

open Libc

section

variable {abi : Abi} (locals : Locals abi)

/-! ## Slots and what the buffers held -/

/-- With a word in every value the slots are the text's alone. -/
theorem slots_eq (locals' : Locals abi) {fs : List Field} (i j : Nat)
    (h : ∀ f ∈ fs, firstWord f.value.chars ≠ []) :
    slots locals i fs = slots locals' j fs := by
  induction fs generalizing i j with
  | nil => rfl
  | cons f fs ih =>
    have hf := h f (by simp)
    have hrest := ih (i + 1) (j + 1) fun g hg => h g (List.mem_cons_of_mem f hg)
    rw [slots, slots, slot, slot, if_neg hf, if_neg hf, hrest]

theorem slots_fill (c : Char) (i : Nat) (fs : List Field) :
    slots (Locals.fill abi c) i fs =
      fs.map (slot (List.replicate (maxHeaderValueLength * abi.sizeofPtr) c)) := by
  induction fs generalizing i with
  | nil => rfl
  | cons f fs ih =>
    rw [slots, ih (i + 1)]
    rfl

/-- Without a word the slot shows the buffer. -/
theorem word_of_slots_eq {fs : List Field}
    (h : slots (Locals.fill abi 'a') 0 fs = slots (Locals.fill abi 'b') 0 fs) :
    ∀ f ∈ fs, firstWord f.value.chars ≠ [] := by
  rw [slots_fill, slots_fill] at h
  intro f hf hempty
  have hslot := congrArg Prod.snd (List.map_inj_left.mp h f hf)
  have hroom : maxHeaderValueLength ≤ maxHeaderValueLength * abi.sizeofPtr :=
    Nat.le_mul_of_pos_right _ abi.sizeofPtr_pos
  simp only [slot, if_pos hempty, cstr_replicate (show 'a' ≠ nul by decide),
    cstr_replicate (show 'b' ≠ nul by decide), List.take_replicate, Nat.min_eq_left hroom] at hslot
  exact absurd (List.replicate_inj.mp hslot).2 (by decide)

/-! ## The number of headers -/

/-- A line never takes a header away. -/
theorem count_le_of_parseLine {state state' : ParseState abi} {line : List Char}
    (h : parseLine locals state line = .ok state') :
    state.request.headers.count ≤ state'.request.headers.count := by
  unfold parseLine at h
  split_ifs at h
  · obtain rfl := Except.ok.inj h
    exact Nat.le_refl _
  · obtain ⟨r, hr, h⟩ := bind_ok_iff.mp h
    obtain rfl := Except.ok.inj h
    obtain ⟨_, -, hr⟩ := bind_ok_iff.mp hr
    obtain ⟨_, -, hr⟩ := bind_ok_iff.mp hr
    obtain ⟨-, hcount, -⟩ := of_addHeader hr
    change _ ≤ r.headers.count
    omega
  · obtain ⟨body, -, h⟩ := bind_ok_iff.mp h
    obtain rfl := Except.ok.inj h
    exact Nat.le_refl _

theorem count_le_of_foldlM {lines : List (List Char)} {state state' : ParseState abi}
    (h : lines.foldlM (parseLine locals) state = .ok state') :
    state.request.headers.count ≤ state'.request.headers.count := by
  induction lines generalizing state with
  | nil =>
    obtain rfl := Except.ok.inj h
    exact Nat.le_refl _
  | cons line lines ih =>
    rw [List.foldlM_cons] at h
    obtain ⟨mid, hmid, h⟩ := bind_ok_iff.mp h
    exact Nat.le_trans (count_le_of_parseLine locals hmid) (ih h)

/-- Before the blank line every other line adds a header. -/
theorem count_lt_of_parseLine {state state' : ParseState abi} {line : List Char}
    (hblank : ¬ IsBlankLine line) (hbody : state.bodyEncountered = false)
    (h : parseLine locals state line = .ok state') :
    state.request.headers.count < state'.request.headers.count := by
  rw [parseLine_header locals hblank hbody] at h
  obtain ⟨r, hr, h⟩ := bind_ok_iff.mp h
  obtain rfl := Except.ok.inj h
  obtain ⟨_, -, hr⟩ := bind_ok_iff.mp hr
  obtain ⟨_, -, hr⟩ := bind_ok_iff.mp hr
  obtain ⟨-, hcount, -⟩ := of_addHeader hr
  change _ < r.headers.count
  omega

/-! ## LF requests -/

/-- The first line a body leaves under LF is blank, if there is one. -/
def OpensBlank (lines : List (List Char)) : Prop :=
  ∀ line ∈ lines.head?, IsBlankLine line

/-- An LF text that is read without a header more than its head has: its
first body line is blank, and the request is that of the head. -/
theorem of_parseHttp_lf (h : Head) {body : List Char} (hbody : nul ∉ body)
    {request : HttpRequest} (heq : parseHttp locals (h.text .lf ++ body) = .ok request)
    (hcount : request.headers.count = h.fields.length) :
    OpensBlank (strtokPieces '\n' body) ∧
      request.view =
        { method := h.method.chars, path := h.path.chars, version := h.version.chars,
          headers := slots locals 0 h.fields } := by
  obtain ⟨final, hfinal, -, rfl⟩ := (parseHttp_ok_iff locals).mp heq
  rw [parseHttpState_text locals .lf h hbody, if_pos (show LineEnd.lf.tail = [] from rfl)] at hfinal
  obtain ⟨state, hstate, hfinal⟩ := bind_ok_iff.mp hfinal
  rw [List.nil_append] at hfinal
  obtain ⟨-, hheadcount, hview, hopen, -⟩ := of_parseHead locals hstate
  cases hpieces : strtokPieces '\n' body with
  | nil =>
    rw [hpieces] at hfinal
    obtain rfl := Except.ok.inj hfinal
    exact ⟨nofun, hview⟩
  | cons line lines =>
    rw [hpieces, List.foldlM_cons] at hfinal
    obtain ⟨mid, hmid, hfinal⟩ := bind_ok_iff.mp hfinal
    by_cases hblank : IsBlankLine line
    · rw [parseLine_blank locals hblank] at hmid
      obtain rfl := Except.ok.inj hmid
      obtain ⟨-, hrequest⟩ := of_parseBody locals (show _ = true from rfl) hfinal
      refine ⟨fun l hl => ?_, by rw [hrequest]; exact hview⟩
      obtain rfl := Option.some.inj hl
      exact hblank
    · -- The line becomes a header, and none is ever taken away.
      have hlt := count_lt_of_parseLine locals hblank hopen hmid
      have hle := count_le_of_foldlM locals hfinal
      omega

/-- The lines of body that an LF text leaves to be copied. -/
theorem copiedLines_lf (h : Head) {body : List Char}
    (hopens : OpensBlank (strtokPieces '\n' body)) :
    copiedLines (bodyLines (h.fields.map (fun f => f.line ++ LineEnd.lf.tail) ++
      ((if LineEnd.lf.tail = [] then [] else [LineEnd.lf.tail]) ++ strtokPieces '\n' body))) =
        copiedLines (strtokPieces '\n' body) := by
  rw [bodyLines_fields, if_pos (show LineEnd.lf.tail = [] from rfl), List.nil_append]
  cases hpieces : strtokPieces '\n' body with
  | nil => rfl
  | cons line lines =>
    rw [hpieces] at hopens
    rw [(headerLines_blank (hopens line rfl) lines).2]

theorem parseHttp_lf_ok {h : Head} {body : List Char} (hbody : nul ∉ body) (hfit : h.Fits abi)
    (hlines : LinesFit abi (strtokPieces '\n' body))
    (hopens : OpensBlank (strtokPieces '\n' body))
    (hcopied : copiedLines (strtokPieces '\n' body) ≠ []) :
    ∃ request, parseHttp locals (h.text .lf ++ body) = .ok request ∧
      request.headers.count = h.fields.length := by
  obtain ⟨state, hstate⟩ := parseHead_ok locals .lf hfit
  obtain ⟨-, hcount, -, hopen, -⟩ := of_parseHead locals hstate
  have hrest : ∃ final, (strtokPieces '\n' body).foldlM (parseLine locals) state = .ok final ∧
      final.request = state.request := by
    cases hpieces : strtokPieces '\n' body with
    | nil => exact ⟨state, rfl, rfl⟩
    | cons line lines =>
      rw [hpieces] at hlines
      have hblank : IsBlankLine line := hopens line (by rw [hpieces]; rfl)
      let behind : ParseState abi :=
        { state with bodyEncountered := true, lineCount := state.lineCount + 1 }
      obtain ⟨final, hfinal⟩ := parseBody_ok locals
        (show behind.bodyEncountered = true from rfl)
        fun l hl => hlines l (List.mem_cons_of_mem line hl)
      obtain ⟨-, hrequest⟩ := of_parseBody locals (show behind.bodyEncountered = true from rfl)
        hfinal
      rw [List.foldlM_cons, parseLine_blank locals hblank]
      exact ⟨final, hfinal, hrequest⟩
  obtain ⟨final, hfinal, hrequest⟩ := hrest
  have hstate' : parseHttpState locals (h.text .lf ++ body) = .ok final := by
    rw [parseHttpState_text locals .lf h hbody, if_pos (show LineEnd.lf.tail = [] from rfl),
      List.nil_append]
    exact bind_ok_iff.mpr ⟨state, hstate, hfinal⟩
  refine ⟨final.request, (parseHttp_ok_iff locals).mpr ⟨final, hstate', ?_, rfl⟩, ?_⟩
  · exact nul_mem_body locals (strtokPieces_head .lf h hbody) hstate'
      (by rwa [copiedLines_lf h hopens])
  · rw [hrequest]
    exact hcount

end

/-! ## The body under both -/

theorem Message.strtokPieces_bodyText (e : LineEnd) (m : Message) :
    strtokPieces '\n' (m.bodyText e) =
      (joinedLines e (m.body.map BodyLine.chars)).filter (· ≠ []) := by
  refine strtokPieces_joined e fun l hl => ?_
  obtain ⟨b, -, rfl⟩ := List.mem_map.mp hl
  exact b.lf_not_mem

/-- A line of body that is copied under LF is copied under CRLF, where it is
no shorter. -/
theorem Message.exists_crlf_line {m : Message} {l : List Char}
    (hl : l ∈ strtokPieces '\n' (m.bodyText .lf)) (hblank : ¬ IsBlankLine l) :
    ∃ k ∈ strtokPieces '\n' (m.bodyText .crlf), ¬ IsBlankLine k ∧ l.length ≤ k.length := by
  rw [strtokPieces_bodyText, joinedLines_lf, List.mem_filter] at hl
  obtain ⟨hmem, hne⟩ := hl
  have hnul : nul ∉ l := by
    obtain ⟨b, -, rfl⟩ := List.mem_map.mp hmem
    exact b.nul_not_mem
  rw [strtokPieces_bodyText]
  obtain ⟨k, hk, rfl | rfl⟩ := exists_joinedLines .crlf l hmem
  · exact ⟨k, List.mem_filter.mpr ⟨hk, hne⟩, hblank, Nat.le_refl _⟩
  · have hlen := List.length_pos_iff.mpr (show l ≠ [] by simpa using hne)
    have hnul' : nul ∉ l ++ LineEnd.crlf.tail := by
      rw [List.mem_append, not_or]
      exact ⟨hnul, by decide⟩
    have hlonger : (l ++ LineEnd.crlf.tail).length = l.length + 1 := List.length_append
    refine ⟨_, List.mem_filter.mpr ⟨hk, by simp [LineEnd.tail]⟩, fun hshort => ?_, by omega⟩
    have := hshort.1
    rw [strlen_of_not_mem hnul'] at this
    omega

theorem Message.copiedLines_crlf {m : Message}
    (h : copiedLines (strtokPieces '\n' (m.bodyText .lf)) ≠ []) :
    copiedLines (strtokPieces '\n' (m.bodyText .crlf)) ≠ [] := by
  obtain ⟨l, hl⟩ := List.exists_mem_of_ne_nil _ h
  obtain ⟨hmem, hblank⟩ := List.mem_filter.mp hl
  obtain ⟨k, hk, hblank', -⟩ := exists_crlf_line hmem (by simpa using hblank)
  exact List.ne_nil_of_mem (List.mem_filter.mpr ⟨hk, by simpa using hblank'⟩)

/-- A body that fits under CRLF fits under LF. -/
theorem Message.linesFit_lf {abi : Abi} {m : Message}
    (h : LinesFit abi (strtokPieces '\n' (m.bodyText .crlf))) :
    LinesFit abi (strtokPieces '\n' (m.bodyText .lf)) := by
  intro l hl hblank
  obtain ⟨k, hk, hblank', hlength⟩ := exists_crlf_line hl hblank
  exact hlength.trans_lt (h k hk hblank')

/-! ## Independence -/

/-- Whatever the locals hold in either run, both texts of the request are
read, give the same method, path, version and headers, and no line but the
header lines becomes a header. -/
def LineEndIndependent (abi : Abi) (m : Message) : Prop :=
  ∀ locals locals' : Locals abi, ∃ request request',
    parseHttp locals (m.text .lf) = .ok request ∧
      parseHttp locals' (m.text .crlf) = .ok request' ∧
      request.view = request'.view ∧
      request.headers.count = m.head.fields.length ∧
      request'.headers.count = m.head.fields.length

/-- **Line endings**: the two texts of a request read alike exactly when
its parts fit their buffers, each value has a word, the first body line
that is not empty is a single whitespace character, and a later one is
more than that: `parseHttp` prints `body`, and under LF nothing else gets
to it. -/
theorem lineEndIndependent_iff (abi : Abi) (m : Message) :
    LineEndIndependent abi m ↔
      m.head.Fits abi ∧ LinesFit abi (strtokPieces '\n' (m.bodyText .crlf)) ∧
        (∀ f ∈ m.head.fields, firstWord f.value.chars ≠ []) ∧
        OpensBlank ((m.body.map BodyLine.chars).filter (· ≠ [])) ∧
        copiedLines ((m.body.map BodyLine.chars).filter (· ≠ [])) ≠ [] := by
  have hlf : strtokPieces '\n' (m.bodyText .lf) = (m.body.map BodyLine.chars).filter (· ≠ []) := by
    rw [m.strtokPieces_bodyText, joinedLines_lf]
  constructor
  · intro h
    obtain ⟨r, r', hr, hr', hview, hcount, -⟩ := h (.fill abi 'a') (.fill abi 'b')
    obtain ⟨hopens, hviewlf⟩ := of_parseHttp_lf _ m.head (m.nul_not_mem_bodyText .lf) hr hcount
    obtain ⟨⟨hfit, hlines⟩, -, hviewcrlf⟩ :=
      of_parseHttp_crlf _ m.head (m.nul_not_mem_bodyText .crlf) hr'
    rw [hviewlf, hviewcrlf] at hview
    have hcopied := copiedLines_of_parseHttp (strtokPieces_head .lf m.head
      (m.nul_not_mem_bodyText .lf)) hr
    rw [copiedLines_lf m.head hopens] at hcopied
    rw [← hlf]
    exact ⟨hfit, hlines, word_of_slots_eq (congrArg RequestView.headers hview), hopens, hcopied⟩
  · intro h locals locals'
    obtain ⟨hfit, hlines, hwords, hopens, hcopied⟩ := h
    rw [← hlf] at hopens hcopied
    obtain ⟨r, hr, hcount⟩ := parseHttp_lf_ok locals (m.nul_not_mem_bodyText .lf) hfit
      (m.linesFit_lf hlines) hopens hcopied
    obtain ⟨r', hr'⟩ := parseHttp_crlf_ok locals' (m.nul_not_mem_bodyText .crlf) hfit hlines
      (m.copiedLines_crlf hcopied)
    obtain ⟨-, hview⟩ := of_parseHttp_lf locals m.head (m.nul_not_mem_bodyText .lf) hr hcount
    obtain ⟨-, hcount', hview'⟩ :=
      of_parseHttp_crlf locals' m.head (m.nul_not_mem_bodyText .crlf) hr'
    refine ⟨r, r', hr, hr', ?_, hcount, hcount'⟩
    rw [hview, hview', slots_eq locals locals' 0 0 hwords]

/-- `GET / HTTP/1.1`, no fields, body `a=1`: under LF the body line becomes
the header `a=1`. -/
theorem body_line_recorded :
    let abi : Abi := ⟨4, by decide⟩
    let m : Message :=
      { head :=
          { method := ⟨['G', 'E', 'T'], by decide, by decide, by decide⟩
            path := ⟨['/'], by decide, by decide, by decide⟩
            version := ⟨['H', 'T', 'T', 'P', '/', '1', '.', '1'], by decide, by decide, by decide⟩
            fields := [] }
        body := [⟨['a', '=', '1'], by decide, by decide⟩] }
    (parseHttp (.fill abi nul) (m.text .lf)).map HttpRequest.view =
        .ok { method := ['G', 'E', 'T'], path := ['/'],
              version := ['H', 'T', 'T', 'P', '/', '1', '.', '1'],
              headers := [(['a', '=', '1'], [])] } ∧
      (parseHttp (.fill abi nul) (m.text .crlf)).map HttpRequest.view =
        .ok { method := ['G', 'E', 'T'], path := ['/'],
              version := ['H', 'T', 'T', 'P', '/', '1', '.', '1'], headers := [] } ∧
      ¬ LineEndIndependent abi m := by
  intro abi m
  refine ⟨by decide +kernel, by decide +kernel, fun h => ?_⟩
  obtain ⟨r, -, hr, -, -, hcount, -⟩ := h (.fill abi nul) (.fill abi nul)
  obtain ⟨hopens, -⟩ := of_parseHttp_lf _ m.head (m.nul_not_mem_bodyText .lf) hr hcount
  have hpieces : strtokPieces '\n' (m.bodyText .lf) = [['a', '=', '1']] := by
    rw [m.strtokPieces_bodyText]
    rfl
  rw [hpieces] at hopens
  exact absurd (hopens _ rfl) (by decide)

end CWebServer.Http
