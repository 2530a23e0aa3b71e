/-
CWebServer.Http.BodyKept — which bodies `parseHttp` keeps.

A body is kept exactly when it is one line without a line break that the
loop does not take for a blank one (`bodyKept_iff`): of several lines only
the last is left in `body`.

No `sorry`, no `axiom`, no `native_decide`.
-/
import CWebServer.Http.Values

namespace CWebServer.Http

open Libc

/-! ## Whole bodies -/

/-- Whatever the locals hold, `body` ends up with the body of the request. -/
def BodyKept (abi : Abi) (m : RawRequest) : Prop :=
  ∀ locals : Locals abi, ∃ state, parseHttpState locals m.text = .ok state ∧
    state.body.str = m.body

theorem RawRequest.parseHttpState_body {abi : Abi} (locals : Locals abi) (m : RawRequest)
    {state : ParseState abi} (h : parseHttpState locals m.text = .ok state) :
    state.body.str = lastCopied locals.body.str (strtokPieces '\n' m.body) := by
  rw [Http.parseHttpState_body locals m.strtokPieces_text h, m.headerLines_text.2,
    lastCopied_blank isBlankLine_cr]

/-- **Bodies**: of those that fit the buffer, exactly the one-line ones that
are no blank line are kept, if the rest of the request fits. -/
theorem bodyKept_iff (abi : Abi) (m : RawRequest) (hroom : m.body.length < 1024 * abi.sizeofPtr) :
    BodyKept abi m ↔
      (m.start.WordsFit ∧ (∀ f ∈ m.fields, HeaderWordsFit abi (f.line ++ LineEnd.crlf.tail)) ∧
        m.fields.length ≤ 50) ∧
      m.body ≠ [] ∧ '\n' ∉ m.body ∧ ¬ IsBlankLine m.body := by
  constructor
  · intro h
    obtain ⟨state, hstate, hstr⟩ := h (.fill abi 'a')
    obtain ⟨hwords, hheaders, hcount, -⟩ := (m.textFits_iff abi).mp
      (of_parseHttpState _ m.strtokPieces_text hstate).1
    refine ⟨⟨hwords, hheaders, hcount⟩, ?_⟩
    rw [m.parseHttpState_body _ hstate, lastCopied] at hstr
    cases hlast : (copiedLines (strtokPieces '\n' m.body)).getLast? with
    | none =>
      -- Nothing was copied, and what the buffer held is longer than the body.
      rw [hlast] at hstr
      have hlen := congrArg List.length hstr
      change (cstr (List.replicate (1024 * abi.sizeofPtr) 'a')).length = _ at hlen
      rw [cstr_replicate (by decide), List.length_replicate] at hlen
      omega
    | some piece =>
      rw [hlast] at hstr
      obtain rfl : piece = m.body := hstr
      obtain ⟨hmem, hblank⟩ := List.mem_filter.mp (List.mem_of_getLast? hlast)
      obtain ⟨hne, hlf, -⟩ := of_mem_strtokPieces hmem
      exact ⟨hne, hlf, by simpa using hblank⟩
  · intro h locals
    obtain ⟨⟨hwords, hheaders, hcount⟩, hne, hlf, hblank⟩ := h
    have hpieces : strtokPieces '\n' m.body = [m.body] := by
      rw [strtokPieces_last hlf, if_neg hne]
    have hbody : LinesFit abi (strtokPieces '\n' m.body) := by
      intro l hl _
      rw [hpieces, List.mem_singleton] at hl
      rw [hl]
      exact hroom
    obtain ⟨state, hstate⟩ := parseHttpState_ok locals m.strtokPieces_text
      ((m.textFits_iff abi).mpr ⟨hwords, hheaders, hcount, hbody⟩)
    refine ⟨state, hstate, ?_⟩
    rw [m.parseHttpState_body locals hstate, hpieces, lastCopied_line hblank]
    rfl

/-- `GET / H1` with a one-line body. -/
theorem bodyKept_iff_line :
    let abi : Abi := ⟨4, by decide⟩
    let m : RawRequest := ⟨wordGet, wordRoot, wordH1, [], ['a', '='], by decide⟩
    BodyKept abi m ↔
      (m.start.WordsFit ∧ (∀ f ∈ m.fields, HeaderWordsFit abi (f.line ++ LineEnd.crlf.tail)) ∧
        m.fields.length ≤ 50) ∧
      m.body ≠ [] ∧ '\n' ∉ m.body ∧ ¬ IsBlankLine m.body := by
  intro abi m
  exact bodyKept_iff abi m (by decide)

/-- Of a two-line body the first line is lost. -/
theorem second_line_overwrites_body :
    let abi : Abi := ⟨4, by decide⟩
    let m : RawRequest := ⟨wordGet, wordRoot, wordH1, [], ['a', '\n', 'b'], by decide⟩
    m.text = "GET / H1\r\n\r\na\nb".toList ∧
      (parseHttpState (.fill abi nul) m.text).map (fun s => s.body.str) = .ok ['b'] ∧
      ¬ BodyKept abi m := by
  intro abi m
  have hshown : (parseHttpState (.fill abi nul) m.text).map (fun s => s.body.str) =
      .ok ['b'] := by decide +kernel
  refine ⟨by decide +kernel, hshown, fun h => ?_⟩
  obtain ⟨state, hstate, hstr⟩ := h (.fill abi nul)
  rw [hstate] at hshown
  have hlast : state.body.str = ['b'] := Except.ok.inj hshown
  rw [hlast] at hstr
  exact absurd hstr (by decide)

end CWebServer.Http
