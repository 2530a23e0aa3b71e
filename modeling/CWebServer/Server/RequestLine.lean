/-
CWebServer.Server.RequestLine — what the text that starts the work may
lack.

`read_cb` asks for a line end somewhere in the text, `parseHttp` for a line
that is not blank: its first `strtok` skips line feeds and takes what is
before the next one, and `sscanf` stores a method only if there is a word
in that. A text of line ends alone passes the one and fails the other, by
a NULL passed to `sscanf` or by a method that stays unset.

The two agree when line feeds, then other whitespace, then a character that
is neither whitespace nor NUL begin the text (`hasRequestLine_iff`).

No `sorry`, no `axiom`, no `native_decide`.
-/
import CWebServer.Server.Accumulation
import CWebServer.Http.Body

namespace CWebServer.Server

open Libc Http

/-! ## The precondition of `parseHttp` -/

/-- The first `strtok` returns a line, and there is a word in it. -/
def HasRequestLine (text : List Char) : Prop :=
  ∃ line saved, strtok '\n' (cstr text) = some (line, saved) ∧ ∃ ch ∈ line, isspace ch = false

/-- Then the method is stored. -/
theorem HasRequestLine.method {text : List Char} (h : HasRequestLine text) :
    ∃ line saved method, strtok '\n' (cstr text) = some (line, saved) ∧
      (requestWords line)[0]? = some method ∧ method ≠ [] := by
  obtain ⟨line, saved, hline, ch, hch, hspace⟩ := h
  have hword : firstWord line ≠ [] := by
    intro hnil
    rw [firstWord_eq_nil_iff.mp hnil ch hch] at hspace
    cases hspace
  refine ⟨line, saved, firstWord line, hline, ?_, hword⟩
  rw [requestWords, sscanf, if_neg hword]
  rfl

/-- Otherwise `sscanf` is called with NULL, or stores nothing. -/
theorem not_hasRequestLine {text : List Char} (h : ¬ HasRequestLine text) :
    (∀ (abi : Abi) (locals : Locals abi), parseHttp locals text = .error .nullPointer) ∨
      ∃ line saved, strtok '\n' (cstr text) = some (line, saved) ∧ requestWords line = [] := by
  cases htok : strtok '\n' (cstr text) with
  | none =>
    refine Or.inl fun abi locals => parseHttp_of_no_line locals ?_
    exact strtokPieces_none htok
  | some r =>
    obtain ⟨line, saved⟩ := r
    refine Or.inr ⟨line, saved, rfl, ?_⟩
    have hblank : ∀ ch ∈ line, isspace ch = true := by
      intro ch hch
      by_contra hspace
      exact h ⟨line, saved, htok, ch, hch, by simpa using hspace⟩
    rw [requestWords, sscanf, if_pos (firstWord_eq_nil_iff.mpr hblank)]

/-! ## In the bytes -/

/-- Line feeds, then other whitespace, then a character of a word. -/
def BeginsLine (bytes : List Char) : Prop :=
  ∃ feeds blanks ch rest, bytes = feeds ++ (blanks ++ ch :: rest) ∧ (∀ c ∈ feeds, c = '\n') ∧
    (∀ c ∈ blanks, isspace c = true ∧ c ≠ '\n') ∧ isspace ch = false ∧ ch ≠ nul

theorem isspace_ne_nul {c : Char} (h : isspace c = true) : c ≠ nul := by
  intro hc
  rw [hc] at h
  exact absurd h (by decide)

theorem BeginsLine.hasRequestLine {bytes : List Char} (h : BeginsLine bytes) :
    HasRequestLine (bytes ++ [nul]) := by
  obtain ⟨feeds, blanks, ch, rest, rfl, hfeeds, hblanks, hch, hne⟩ := h
  have hlf : ch ≠ '\n' := by
    intro heq
    rw [heq] at hch
    exact absurd hch (by decide)
  have hnul : nul ∉ feeds ++ blanks := by
    intro hmem
    rcases List.mem_append.mp hmem with hmem | hmem
    · exact absurd (hfeeds nul hmem) (by decide)
    · exact isspace_ne_nul (hblanks nul hmem).1 rfl
  have hcstr : cstr (feeds ++ (blanks ++ ch :: rest) ++ [nul]) =
      feeds ++ (blanks ++ ch :: cstr rest) := by
    have hhead : cstr (ch :: rest) = ch :: cstr rest := by simp [cstr, hne]
    rw [cstr_terminated, ← List.append_assoc, cstr_append_of_not_mem hnul, hhead,
      List.append_assoc]
  have hskip : (feeds ++ (blanks ++ ch :: cstr rest)).dropWhile (· == '\n') =
      blanks ++ ch :: cstr rest := by
    rw [List.dropWhile_append_of_pos fun c hc => by simpa using hfeeds c hc]
    cases blanks with
    | nil => exact List.dropWhile_cons_of_neg (by simpa using hlf)
    | cons b blanks => exact List.dropWhile_cons_of_neg (by simpa using (hblanks b (by simp)).2)
  obtain ⟨d, tail, hsplit⟩ := List.exists_cons_of_ne_nil (l := blanks ++ ch :: cstr rest) (by simp)
  refine ⟨(d :: tail).takeWhile (· != '\n'), ((d :: tail).dropWhile (· != '\n')).drop 1, ?_, ch,
    ?_, hch⟩
  · rw [hcstr, strtok, hskip, hsplit]
  · rw [← hsplit, List.takeWhile_append_of_pos fun c hc => by simpa using (hblanks c hc).2,
      List.takeWhile_cons_of_pos (by simpa using hlf)]
    simp

theorem HasRequestLine.beginsLine {bytes : List Char} (h : HasRequestLine (bytes ++ [nul])) :
    BeginsLine bytes := by
  obtain ⟨line, saved, hline, ch, hch, hspace⟩ := h
  rw [cstr_terminated] at hline
  obtain ⟨feeds, behind, hcstr, -, hfeeds, -, hlf⟩ := strtok_split hline
  have hfront : cstr bytes <+: bytes := List.takeWhile_prefix _
  obtain ⟨beyond, hbytes⟩ := hfront
  -- The word begins at the first character of the line that is not whitespace.
  obtain ⟨w, hfind⟩ : ∃ w, line.find? (fun c => !isspace c) = some w :=
    Option.isSome_iff_exists.mp (List.find?_isSome.mpr ⟨ch, hch, by rw [hspace]; rfl⟩)
  obtain ⟨hw, blanks, rest, rfl, hblanks⟩ := List.find?_eq_some_iff_append.mp hfind
  refine ⟨feeds, blanks, w, rest ++ (behind ++ beyond), ?_, hfeeds, ?_, by simpa using hw, ?_⟩
  · rw [← hbytes, hcstr]
    simp only [List.append_assoc, List.cons_append]
  · intro c hc
    refine ⟨by simpa using hblanks c hc, ?_⟩
    rintro rfl
    exact hlf (by simp [hc])
  · rintro rfl
    exact nul_not_mem_cstr bytes (by rw [hcstr]; simp)

theorem hasRequestLine_iff {bytes : List Char} :
    HasRequestLine (bytes ++ [nul]) ↔ BeginsLine bytes :=
  ⟨HasRequestLine.beginsLine, BeginsLine.hasRequestLine⟩

/-! ## The text that starts the work -/

/-- **The trigger and the request line**: however the bytes come, when work
is started its text has a request line exactly if the bytes delivered begin
one; if they do not, `sscanf` gets NULL or stores nothing. -/
theorem triggered_requestLine_iff (reads : List Read) :
    ∃ c n, readAll (acceptedConnection 0) reads = .ok c ∧ Delivered c reads n ∧
      (c.workItems = 1 → ∃ data text, c.data = some data ∧ data.text = some text ∧
        (HasRequestLine text ↔ BeginsLine (stream (reads.take n))) ∧
        (BeginsLine (stream (reads.take n)) → ∃ line saved method,
          strtok '\n' (cstr text) = some (line, saved) ∧
            (requestWords line)[0]? = some method ∧ method ≠ []) ∧
        (¬ BeginsLine (stream (reads.take n)) →
          (∀ (abi : Abi) (locals : Locals abi), parseHttp locals text = .error .nullPointer) ∨
            ∃ line saved, strtok '\n' (cstr text) = some (line, saved) ∧
              requestWords line = [])) := by
  obtain ⟨c, n, hread, hdelivered⟩ : ∃ c n, readAll (acceptedConnection 0) reads = .ok c ∧
      Delivered c ([] ++ reads) n := stillReading_accepted.readAll
  rw [List.nil_append] at hdelivered
  refine ⟨c, n, hread, hdelivered, fun hwork => ?_⟩
  obtain ⟨data, hdata, htext⟩ := hdelivered.workText hwork
  exact ⟨data, _, hdata, htext, hasRequestLine_iff, fun h => h.hasRequestLine.method,
    fun h => not_hasRequestLine (mt hasRequestLine_iff.mp h)⟩

/-- Two line feeds start the work, and NULL is passed to `sscanf`. -/
theorem blank_lines_trigger :
    let read : Read := ⟨['\n', '\n'], 2, by decide, 0⟩
    ∃ c data, readAll (acceptedConnection 0) [read] = .ok c ∧ c.workItems = 1 ∧
      c.data = some data ∧ data.text = some ['\n', '\n', nul] ∧
      ¬ HasRequestLine ['\n', '\n', nul] ∧
      ∀ (abi : Abi) (locals : Locals abi),
        parseHttp locals ['\n', '\n', nul] = .error .nullPointer := by
  intro read
  have hnone : strtok '\n' (cstr ['\n', '\n', nul]) = none := by decide
  refine ⟨_, _, rfl, rfl, rfl, rfl, fun h => ?_, fun abi locals => ?_⟩
  · obtain ⟨line, saved, hline, -⟩ := h
    rw [hnone] at hline
    cases hline
  · exact parseHttp_of_no_line locals (strtokPieces_none hnone)

end CWebServer.Server
