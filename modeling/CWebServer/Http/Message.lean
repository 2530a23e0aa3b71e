/-
CWebServer.Http.Message — requests as their senders write them.

A request is a head (request line, header fields, blank line) and a body,
over parts that cannot be ill-formed: a `Word` holds no whitespace, a
`FieldName` no colon, a `FieldValue` no line end. Nothing bounds a length,
since the format does not. `LineEnd` is how its lines end, and the same
request has a text for each.

The other half says which pieces `strtok` cuts such a text into. Under
CRLF every line leaves a piece, the blank one included, since its CR is
still there. Under LF an empty line leaves none.

No `sorry`, no `axiom`, no `native_decide`.
-/
import CWebServer.Http.Request

namespace CWebServer.Http

open Libc

/-! ## Parts of a request -/

structure Word where
  chars : List Char
  ne_nil : chars ≠ []
  not_space : ∀ c ∈ chars, isspace c = false
  nul_not_mem : nul ∉ chars

structure FieldName where
  chars : List Char
  ne_nil : chars ≠ []
  colon_not_mem : ':' ∉ chars
  cr_not_mem : '\r' ∉ chars
  lf_not_mem : '\n' ∉ chars
  nul_not_mem : nul ∉ chars

structure FieldValue where
  chars : List Char
  cr_not_mem : '\r' ∉ chars
  lf_not_mem : '\n' ∉ chars
  nul_not_mem : nul ∉ chars

structure Field where
  name : FieldName
  value : FieldValue

structure Head where
  method : Word
  path : Word
  version : Word
  fields : List Field

structure BodyLine where
  chars : List Char
  lf_not_mem : '\n' ∉ chars
  nul_not_mem : nul ∉ chars

structure Message where
  head : Head
  body : List BodyLine

/-! ## Texts -/

inductive LineEnd where
  | lf
  | crlf
  deriving DecidableEq, Repr

/-- What a line end leaves on the line it ends, once it is cut at its LF. -/
def LineEnd.tail : LineEnd → List Char
  | .lf => []
  | .crlf => ['\r']

def LineEnd.chars (e : LineEnd) : List Char := e.tail ++ ['\n']

def Head.requestLine (h : Head) : List Char :=
  h.method.chars ++ ' ' :: (h.path.chars ++ ' ' :: h.version.chars)

/-- `name:value`, where the space of `name: value` is the value's. -/
def Field.line (f : Field) : List Char := f.name.chars ++ ':' :: f.value.chars

/-- The lines of a head, the blank one last. -/
def Head.lines (h : Head) : List (List Char) := h.requestLine :: (h.fields.map Field.line ++ [[]])

/-- Lines, each with its end. -/
def terminated (e : LineEnd) (lines : List (List Char)) : List Char :=
  lines.flatMap (fun l => l ++ e.chars)

/-- Lines with a line end between neighbours. -/
def joined (e : LineEnd) : List (List Char) → List Char
  | [] => []
  | [l] => l
  | l :: m :: ls => l ++ e.chars ++ joined e (m :: ls)

def Head.text (e : LineEnd) (h : Head) : List Char := terminated e h.lines

def Message.bodyText (e : LineEnd) (m : Message) : List Char := joined e (m.body.map BodyLine.chars)

def Message.text (e : LineEnd) (m : Message) : List Char := m.head.text e ++ m.bodyText e

/-! ## Characters of the texts -/

theorem Word.lf_not_mem (w : Word) : '\n' ∉ w.chars := fun h => nomatch w.not_space _ h

theorem Head.requestLine_ne_nil (h : Head) : h.requestLine ≠ [] := by
  simp [requestLine, h.method.ne_nil]

theorem Head.lf_not_mem_lines (h : Head) : ∀ l ∈ h.lines, '\n' ∉ l := by
  intro l hl
  simp only [lines, List.mem_cons, List.mem_append, List.mem_map, List.not_mem_nil, or_false] at hl
  rcases hl with rfl | ⟨f, -, rfl⟩ | rfl
  · simp [requestLine, h.method.lf_not_mem, h.path.lf_not_mem, h.version.lf_not_mem]
  · simp [Field.line, f.name.lf_not_mem, f.value.lf_not_mem]
  · simp

theorem Head.nul_not_mem_lines (h : Head) : ∀ l ∈ h.lines, nul ∉ l := by
  intro l hl
  simp only [lines, List.mem_cons, List.mem_append, List.mem_map, List.not_mem_nil, or_false] at hl
  rcases hl with rfl | ⟨f, -, rfl⟩ | rfl
  · simp [requestLine, h.method.nul_not_mem, h.path.nul_not_mem, h.version.nul_not_mem]
    decide
  · simp [Field.line, f.name.nul_not_mem, f.value.nul_not_mem]
    decide
  · simp

theorem LineEnd.nul_not_mem (e : LineEnd) : nul ∉ e.chars := by
  cases e <;> decide

theorem LineEnd.lf_not_mem_tail (e : LineEnd) : '\n' ∉ e.tail := by
  cases e <;> decide

theorem nul_not_mem_terminated (e : LineEnd) {lines : List (List Char)}
    (h : ∀ l ∈ lines, nul ∉ l) : nul ∉ terminated e lines := by
  simp only [terminated, List.mem_flatMap, List.mem_append, not_exists, not_and, not_or]
  exact fun l hl => ⟨h l hl, e.nul_not_mem⟩

theorem nul_not_mem_joined (e : LineEnd) : ∀ {lines : List (List Char)},
    (∀ l ∈ lines, nul ∉ l) → nul ∉ joined e lines
  | [], _ => by simp [joined]
  | [l], h => by simpa [joined] using h l
  | l :: m :: ls, h => by
      simp only [joined, List.mem_append, not_or]
      exact ⟨⟨h l (by simp), e.nul_not_mem⟩,
        nul_not_mem_joined e fun k hk => h k (List.mem_cons_of_mem l hk)⟩

theorem Head.nul_not_mem_text (e : LineEnd) (h : Head) : nul ∉ h.text e :=
  nul_not_mem_terminated e h.nul_not_mem_lines

theorem Message.nul_not_mem_bodyText (e : LineEnd) (m : Message) : nul ∉ m.bodyText e := by
  refine nul_not_mem_joined e fun l hl => ?_
  obtain ⟨b, -, rfl⟩ := List.mem_map.mp hl
  exact b.nul_not_mem

theorem Message.nul_not_mem_text (e : LineEnd) (m : Message) : nul ∉ m.text e := by
  rw [text, List.mem_append, not_or]
  exact ⟨m.head.nul_not_mem_text e, m.nul_not_mem_bodyText e⟩

/-! ## Pieces of the texts -/

/-- The pieces of terminated lines: every line that is not empty once its
end is cut. -/
theorem strtokPieces_terminated (e : LineEnd) (rest : List Char) {lines : List (List Char)}
    (h : ∀ l ∈ lines, '\n' ∉ l) :
    strtokPieces '\n' (terminated e lines ++ rest) =
      (lines.map (· ++ e.tail)).filter (· ≠ []) ++ strtokPieces '\n' rest := by
  induction lines with
  | nil => rfl
  | cons l ls ih =>
    have hl : '\n' ∉ l ++ e.tail := by
      rw [List.mem_append, not_or]
      exact ⟨h l (by simp), e.lf_not_mem_tail⟩
    have hsplit : terminated e (l :: ls) ++ rest =
        (l ++ e.tail) ++ '\n' :: (terminated e ls ++ rest) := by
      simp [terminated, LineEnd.chars]
    rw [hsplit, strtokPieces_line hl, ih fun k hk => h k (List.mem_cons_of_mem l hk),
      List.map_cons, List.filter_cons]
    by_cases hempty : l ++ e.tail = []
    · rw [if_pos hempty, if_neg (by simpa using hempty), List.nil_append]
    · rw [if_neg hempty, if_pos (decide_eq_true hempty)]
      rfl

/-- The lines of a joined text, as `strtok` sees them. -/
def joinedLines (e : LineEnd) : List (List Char) → List (List Char)
  | [] => []
  | [l] => [l]
  | l :: m :: ls => (l ++ e.tail) :: joinedLines e (m :: ls)

theorem strtokPieces_joined (e : LineEnd) : ∀ {lines : List (List Char)},
    (∀ l ∈ lines, '\n' ∉ l) →
      strtokPieces '\n' (joined e lines) = (joinedLines e lines).filter (· ≠ [])
  | [], _ => strtokPieces_none rfl
  | [l], h => by
      rw [joined, joinedLines, strtokPieces_last (h l (by simp))]
      by_cases hl : l = [] <;> simp [hl]
  | l :: m :: ls, h => by
      have hl : '\n' ∉ l ++ e.tail := by
        rw [List.mem_append, not_or]
        exact ⟨h l (by simp), e.lf_not_mem_tail⟩
      have ih := strtokPieces_joined e fun k hk => h k (List.mem_cons_of_mem l hk)
      have hsplit : joined e (l :: m :: ls) = (l ++ e.tail) ++ '\n' :: joined e (m :: ls) := by
        simp [joined, LineEnd.chars]
      rw [hsplit, strtokPieces_line hl, ih, joinedLines, List.filter_cons]
      by_cases hempty : l ++ e.tail = []
      · rw [if_pos hempty, if_neg (by simpa using hempty), List.nil_append]
      · rw [if_neg hempty, if_pos (decide_eq_true hempty)]
        rfl

theorem joinedLines_lf : ∀ lines : List (List Char), joinedLines .lf lines = lines
  | [] => rfl
  | [_] => rfl
  | l :: m :: ls => by rw [joinedLines, joinedLines_lf (m :: ls), LineEnd.tail, List.append_nil]

/-- Every line is among them, with or without what its end leaves. -/
theorem exists_joinedLines (e : LineEnd) : ∀ {lines : List (List Char)}, ∀ l ∈ lines,
    ∃ k ∈ joinedLines e lines, k = l ∨ k = l ++ e.tail
  | [l], _, hk => by
      rw [List.mem_singleton] at hk
      subst hk
      exact ⟨_, by simp [joinedLines], .inl rfl⟩
  | l :: m :: ls, k, hk => by
      rcases List.mem_cons.mp hk with rfl | hk
      · exact ⟨k ++ e.tail, by simp [joinedLines], .inr rfl⟩
      · obtain ⟨j, hj, hor⟩ := exists_joinedLines e k hk
        exact ⟨j, by simp [joinedLines, hj], hor⟩

/-- The pieces of a head, but for what the blank line leaves. -/
def Head.pieces (e : LineEnd) (h : Head) : List (List Char) :=
  (h.requestLine ++ e.tail) :: h.fields.map (fun f => f.line ++ e.tail)

theorem Head.strtokPieces_text (e : LineEnd) (h : Head) (rest : List Char) :
    strtokPieces '\n' (h.text e ++ rest) =
      h.pieces e ++ (if e.tail = [] then [] else [e.tail]) ++ strtokPieces '\n' rest := by
  have hfields : (h.fields.map (fun f => f.line ++ e.tail)).filter (· ≠ []) =
      h.fields.map (fun f => f.line ++ e.tail) := by
    refine List.filter_eq_self.mpr fun l hl => ?_
    obtain ⟨f, -, rfl⟩ := List.mem_map.mp hl
    simp [Field.line]
  have hfirst : h.requestLine ++ e.tail ≠ [] := by simp [h.requestLine_ne_nil]
  rw [text, strtokPieces_terminated e rest h.lf_not_mem_lines, lines, pieces]
  simp only [List.map_cons, List.map_append, List.map_map, List.map_nil, List.nil_append,
    List.filter_cons, List.filter_append, hfirst, ne_eq, not_false_eq_true, decide_true, if_true,
    List.filter_nil]
  change _ :: ((h.fields.map (fun f => f.line ++ e.tail)).filter (· ≠ []) ++ _) ++ _ = _
  rw [hfields]
  by_cases htail : e.tail = [] <;> simp [htail]

end CWebServer.Http
