/-
CWebServer.Libc.Scan — the C library's text functions: `isspace`,
`strstr`, `strtok` and `sscanf`.

Nothing here names a program. `strtok` keeps its place in the string it
cuts; here the place is the rest of the string, passed from call to call.
A run of calls yields the non-empty pieces between delimiters
(`strtokPieces`), which is why two delimiters in a row leave no trace.

`sscanf` is kept for the directives whose reading is easy to get wrong:
`%s` skips whitespace first and `%[^c]` does not, and a directive that
fails ends the call with the rest of the arguments untouched. It returns
the strings converted, in order; storing them is the caller's.

`isspace` is total here. A caller that hands it a plain `char` is outside
what the C library defines for bytes from 0x80 on where `char` is signed;
no such byte is taken for a space.

No `sorry`, no `axiom`, no `native_decide`.
-/
import CWebServer.Libc.Memory
import Mathlib.Data.List.Infix

namespace Libc

/-- `isspace` in the C locale, on every byte. -/
def isspace (c : Char) : Bool :=
  c ∈ [' ', '\t', '\n', '\x0b', '\x0c', '\r']

/-- `strstr(s, needle) != NULL`. -/
def strstr (s needle : List Char) : Bool := decide (needle <:+: cstr s)

/-! ## `strtok` -/

/-- One call with the string saved by the last one: the next piece and the
string to save, or nothing when only delimiters are left. -/
def strtok (delim : Char) (saved : List Char) : Option (List Char × List Char) :=
  match saved.dropWhile (· == delim) with
  | [] => none
  | c :: rest =>
    some ((c :: rest).takeWhile (· != delim), ((c :: rest).dropWhile (· != delim)).drop 1)

/-- What a call returns, in the string it was given: delimiters, the piece,
and what is saved behind one more delimiter. -/
theorem strtok_split {delim : Char} {saved piece rest : List Char}
    (h : strtok delim saved = some (piece, rest)) :
    ∃ delims behind, saved = delims ++ (piece ++ behind) ∧ rest = behind.drop 1 ∧
      (∀ c ∈ delims, c = delim) ∧ piece ≠ [] ∧ delim ∉ piece := by
  unfold strtok at h
  cases hdrop : saved.dropWhile (· == delim) with
  | nil =>
    rw [hdrop] at h
    cases h
  | cons c tail =>
    rw [hdrop] at h
    obtain ⟨rfl, rfl⟩ := Prod.mk.inj (Option.some.inj h)
    have hc : c ≠ delim := by
      have hne := List.head?_dropWhile_not (· == delim) saved
      rw [hdrop] at hne
      simpa using hne
    refine ⟨saved.takeWhile (· == delim), _, ?_, rfl, ?_, by simp [hc], ?_⟩
    · rw [List.takeWhile_append_dropWhile, ← hdrop, List.takeWhile_append_dropWhile]
    · intro d hd
      simpa using List.mem_takeWhile_imp hd
    · intro hmem
      simpa using List.mem_takeWhile_imp hmem

/-- A call uses up at least the piece it returns. -/
theorem length_strtok_lt {delim : Char} {saved piece rest : List Char}
    (h : strtok delim saved = some (piece, rest)) : rest.length < saved.length := by
  obtain ⟨delims, behind, rfl, rfl, -, hne, -⟩ := strtok_split h
  have hpos := List.length_pos_iff.mpr hne
  simp only [List.length_append, List.length_drop]
  omega

/-- Every piece that successive calls return. -/
def strtokPieces (delim : Char) (saved : List Char) : List (List Char) :=
  match _h : strtok delim saved with
  | none => []
  | some (piece, rest) => piece :: strtokPieces delim rest
termination_by saved.length
decreasing_by exact length_strtok_lt _h

theorem strtokPieces_none {delim : Char} {saved : List Char} (h : strtok delim saved = none) :
    strtokPieces delim saved = [] := by
  rw [strtokPieces]
  split
  · rfl
  · next heq => rw [h] at heq; cases heq

theorem strtokPieces_some {delim : Char} {saved piece rest : List Char}
    (h : strtok delim saved = some (piece, rest)) :
    strtokPieces delim saved = piece :: strtokPieces delim rest := by
  rw [strtokPieces]
  split
  · next heq => rw [h] at heq; cases heq
  · next heq =>
    rw [h] at heq
    cases heq
    rfl

/-- A delimiter in front changes nothing. -/
theorem strtok_delim (delim : Char) (saved : List Char) :
    strtok delim (delim :: saved) = strtok delim saved := by
  unfold strtok
  rw [List.dropWhile_cons_of_pos (by simp)]

/-- A piece in front of a delimiter is returned whole. -/
theorem strtok_piece {delim : Char} {piece : List Char} (hne : piece ≠ []) (h : delim ∉ piece)
    (rest : List Char) : strtok delim (piece ++ delim :: rest) = some (piece, rest) := by
  obtain ⟨c, tail, rfl⟩ := List.exists_cons_of_ne_nil hne
  have hc : c ≠ delim := fun hc => h (by simp [hc])
  have hall := bne_of_not_mem h
  unfold strtok
  rw [List.cons_append, List.dropWhile_cons_of_neg (by simpa using hc)]
  simp only [← List.cons_append]
  rw [List.takeWhile_append_of_pos hall, List.dropWhile_append_of_pos hall]
  simp

/-- A last piece with no delimiter behind it. -/
theorem strtok_last {delim : Char} {piece : List Char} (hne : piece ≠ []) (h : delim ∉ piece) :
    strtok delim piece = some (piece, []) := by
  obtain ⟨c, tail, rfl⟩ := List.exists_cons_of_ne_nil hne
  have hc : c ≠ delim := fun hc => h (by simp [hc])
  have hall := bne_of_not_mem h
  unfold strtok
  rw [List.dropWhile_cons_of_neg (by simpa using hc)]
  simp only [List.takeWhile_eq_self_iff.mpr hall, List.dropWhile_eq_nil_iff.mpr hall,
    List.drop_nil]

/-- The pieces of a text that starts with a line: the line, unless it is
empty, and the pieces of the rest. -/
theorem strtokPieces_line {delim : Char} {line : List Char} (h : delim ∉ line)
    (rest : List Char) :
    strtokPieces delim (line ++ delim :: rest) =
      (if line = [] then [] else [line]) ++ strtokPieces delim rest := by
  by_cases hne : line = []
  · subst hne
    rw [if_pos rfl, List.nil_append, List.nil_append]
    cases hrest : strtok delim rest with
    | none =>
      rw [strtokPieces_none hrest, strtokPieces_none ((strtok_delim delim rest).trans hrest)]
    | some r =>
      rw [strtokPieces_some hrest, strtokPieces_some ((strtok_delim delim rest).trans hrest)]
  · rw [if_neg hne, strtokPieces_some (strtok_piece hne h rest)]
    rfl

theorem strtokPieces_last {delim : Char} {line : List Char} (h : delim ∉ line) :
    strtokPieces delim line = if line = [] then [] else [line] := by
  by_cases hne : line = []
  · subst hne
    rw [if_pos rfl]
    exact strtokPieces_none rfl
  · rw [if_neg hne, strtokPieces_some (strtok_last hne h)]
    exact congrArg _ (strtokPieces_none rfl)

/-- A piece is not empty, holds no delimiter, and is a part of the text. -/
theorem of_mem_strtokPieces {delim : Char} {saved piece : List Char}
    (h : piece ∈ strtokPieces delim saved) :
    piece ≠ [] ∧ delim ∉ piece ∧ piece <:+: saved := by
  fun_induction strtokPieces delim saved with
  | case1 saved hnone => exact absurd h List.not_mem_nil
  | case2 saved first rest hsome ih =>
    obtain ⟨delims, behind, rfl, rfl, -, hne, hdelim⟩ := strtok_split hsome
    rcases List.mem_cons.mp h with rfl | hmem
    · exact ⟨hne, hdelim, delims, behind, by rw [List.append_assoc]⟩
    · obtain ⟨hne', hdelim', hpart⟩ := ih hmem
      have hbehind : behind <:+: delims ++ (first ++ behind) :=
        ⟨delims ++ first, [], by rw [List.append_nil, List.append_assoc]⟩
      exact ⟨hne', hdelim', hpart.trans ((List.drop_suffix 1 behind).isInfix.trans hbehind)⟩

/-! ## `sscanf` -/

/-- The directives of a format string. -/
inductive Directive where
  /-- A blank: any amount of whitespace. -/
  | blank
  /-- An ordinary character. -/
  | literal (c : Char)
  /-- `%s`. -/
  | word
  /-- `%[^c]`. -/
  | upTo (c : Char)
  deriving DecidableEq, Repr

/-- The first word of a text, whitespace skipped. -/
def firstWord (s : List Char) : List Char :=
  (s.dropWhile isspace).takeWhile (fun c => !isspace c)

/-- The text behind its first word. -/
def afterWord (s : List Char) : List Char :=
  (s.dropWhile isspace).dropWhile (fun c => !isspace c)

/-- The strings converted, up to the first directive that fails. -/
def sscanf : List Directive → List Char → List (List Char)
  | [], _ => []
  | .blank :: format, s => sscanf format (s.dropWhile isspace)
  | .literal _ :: _, [] => []
  | .literal c :: format, d :: s => if d = c then sscanf format s else []
  | .word :: format, s =>
    if firstWord s = [] then [] else firstWord s :: sscanf format (afterWord s)
  | .upTo c :: format, s =>
    if s.takeWhile (· != c) = [] then []
    else s.takeWhile (· != c) :: sscanf format (s.dropWhile (· != c))

/-- The directives that convert something. -/
def Directive.converts : Directive → Bool
  | .blank | .literal _ => false
  | .word | .upTo _ => true

/-- There is one conversion a converting directive, at most. -/
theorem length_sscanf_le (format : List Directive) (s : List Char) :
    (sscanf format s).length ≤ format.countP Directive.converts := by
  induction format generalizing s with
  | nil => exact Nat.le_refl 0
  | cons directive format ih =>
    cases directive with
    | blank => exact ih _
    | literal c =>
      cases s with
      | nil => exact Nat.zero_le _
      | cons d s =>
        rw [sscanf]
        split_ifs
        · exact ih s
        · exact Nat.zero_le _
    | word =>
      rw [sscanf, List.countP_cons_of_pos rfl]
      split_ifs
      · exact Nat.zero_le _
      · exact Nat.succ_le_succ (ih _)
    | upTo c =>
      rw [sscanf, List.countP_cons_of_pos rfl]
      split_ifs
      · exact Nat.zero_le _
      · exact Nat.succ_le_succ (ih _)

/-- What is converted stands in the text. -/
theorem infix_of_mem_sscanf {format : List Directive} {s w : List Char} (h : w ∈ sscanf format s) :
    w <:+: s := by
  induction format generalizing s with
  | nil => exact absurd h List.not_mem_nil
  | cons directive format ih =>
    cases directive with
    | blank => exact (ih h).trans (List.dropWhile_suffix _).isInfix
    | literal c =>
      cases s with
      | nil => exact absurd h List.not_mem_nil
      | cons d s =>
        rw [sscanf] at h
        split_ifs at h with hd
        · exact (ih h).trans (List.suffix_cons d s).isInfix
        · exact absurd h List.not_mem_nil
    | word =>
      rw [sscanf] at h
      split_ifs at h with hempty
      · exact absurd h List.not_mem_nil
      · rcases List.mem_cons.mp h with rfl | h
        · exact (List.takeWhile_prefix _).isInfix.trans (List.dropWhile_suffix _).isInfix
        · exact (ih h).trans ((List.dropWhile_suffix _).trans (List.dropWhile_suffix _)).isInfix
    | upTo c =>
      rw [sscanf] at h
      split_ifs at h with hempty
      · exact absurd h List.not_mem_nil
      · rcases List.mem_cons.mp h with rfl | h
        · exact (List.takeWhile_prefix _).isInfix
        · exact (ih h).trans (List.dropWhile_suffix _).isInfix

/-- A word with whitespace or nothing behind it is read whole. -/
theorem firstWord_append {w : List Char} (rest : List Char) (hne : w ≠ [])
    (hw : ∀ c ∈ w, isspace c = false) (hrest : ∀ c ∈ rest.head?, isspace c = true) :
    firstWord (w ++ rest) = w ∧ afterWord (w ++ rest) = rest := by
  obtain ⟨c, tail, rfl⟩ := List.exists_cons_of_ne_nil hne
  have hc : isspace c = false := hw c (by simp)
  have hall : ∀ d ∈ c :: tail, (!isspace d) = true := by
    intro d hd
    rw [hw d hd]
    rfl
  have hskip : (c :: tail ++ rest).dropWhile isspace = c :: tail ++ rest := by
    rw [List.cons_append, List.dropWhile_cons_of_neg (by simp [hc])]
  have hstop : rest.takeWhile (fun c => !isspace c) = [] ∧
      rest.dropWhile (fun c => !isspace c) = rest := by
    cases rest with
    | nil => exact ⟨rfl, rfl⟩
    | cons d rest =>
      have hd := hrest d rfl
      exact ⟨List.takeWhile_cons_of_neg (by simp [hd]), List.dropWhile_cons_of_neg (by simp [hd])⟩
  unfold firstWord afterWord
  rw [hskip, List.takeWhile_append_of_pos hall, List.dropWhile_append_of_pos hall, hstop.1, hstop.2]
  exact ⟨List.append_nil _, rfl⟩

/-- There is no word exactly where all is whitespace. -/
theorem firstWord_eq_nil_iff {s : List Char} :
    firstWord s = [] ↔ ∀ c ∈ s, isspace c = true := by
  constructor
  · intro h
    rw [← List.dropWhile_eq_nil_iff]
    cases hdrop : s.dropWhile isspace with
    | nil => rfl
    | cons d rest =>
      have hstop := List.head?_dropWhile_not isspace s
      rw [hdrop] at hstop
      have hd : isspace d = false := by simpa using hstop
      rw [firstWord, hdrop, List.takeWhile_cons_of_pos (by simp [hd])] at h
      exact nomatch h
  · intro h
    rw [firstWord, List.dropWhile_eq_nil_iff.mpr h, List.takeWhile_nil]

/-- Leading whitespace is skipped. -/
theorem firstWord_cons_space {c : Char} (hc : isspace c = true) (s : List Char) :
    firstWord (c :: s) = firstWord s := by
  unfold firstWord
  rw [List.dropWhile_cons_of_pos hc]

/-- Trailing whitespace is never part of the word. -/
theorem firstWord_append_space {c : Char} (hc : isspace c = true) (s : List Char) :
    firstWord (s ++ [c]) = firstWord s := by
  induction s with
  | nil => simp [firstWord, hc]
  | cons d s ih =>
    by_cases hd : isspace d = true
    · rw [List.cons_append, firstWord_cons_space hd, firstWord_cons_space hd, ih]
    · unfold firstWord
      rw [List.cons_append, List.dropWhile_cons_of_neg hd, List.dropWhile_cons_of_neg hd,
        ← List.cons_append, List.takeWhile_append]
      split
      · rw [List.takeWhile_cons_of_neg (by simp [hc]), List.append_nil,
          List.takeWhile_eq_self_iff.mpr]
        next hlen =>
          have := List.IsPrefix.eq_of_length
            (List.takeWhile_prefix (fun c => !isspace c) (l := d :: s)) hlen
          exact List.takeWhile_eq_self_iff.mp this
      · rfl

theorem mem_of_mem_firstWord {c : Char} {s : List Char} (h : c ∈ firstWord s) : c ∈ s :=
  (List.dropWhile_suffix _).subset ((List.takeWhile_prefix _).subset h)

/-- `"%s %s %s"` on three words. -/
theorem sscanf_words {a b c rest : List Char} (ha : a ≠ []) (hb : b ≠ []) (hc : c ≠ [])
    (has : ∀ d ∈ a, isspace d = false) (hbs : ∀ d ∈ b, isspace d = false)
    (hcs : ∀ d ∈ c, isspace d = false) (hrest : ∀ d ∈ rest.head?, isspace d = true) :
    sscanf [.word, .blank, .word, .blank, .word]
      (a ++ ' ' :: (b ++ ' ' :: (c ++ rest))) = [a, b, c] := by
  have hskip : ∀ {w tail : List Char}, w ≠ [] → (∀ d ∈ w, isspace d = false) →
      (' ' :: (w ++ tail)).dropWhile isspace = w ++ tail := by
    intro w tail hne hw
    obtain ⟨d, w, rfl⟩ := List.exists_cons_of_ne_nil hne
    have hd : isspace d = false := hw d (by simp)
    rw [List.dropWhile_cons_of_pos (by decide), List.cons_append,
      List.dropWhile_cons_of_neg (by simp [hd])]
  obtain ⟨ha₁, ha₂⟩ := firstWord_append (' ' :: (b ++ ' ' :: (c ++ rest))) ha has
    (by simp; decide)
  obtain ⟨hb₁, hb₂⟩ := firstWord_append (' ' :: (c ++ rest)) hb hbs (by simp; decide)
  obtain ⟨hc₁, -⟩ := firstWord_append rest hc hcs hrest
  simp only [sscanf, ha₁, ha₂, hb₁, hb₂, hc₁, hskip hb hbs, hskip hc hcs, if_neg ha, if_neg hb,
    if_neg hc]

/-- `"%[^:]:%s"` on a name, a colon and a value; a value without a word
converts nothing. -/
theorem sscanf_field {c : Char} {a rest : List Char} (ha : a ≠ []) (hac : c ∉ a) :
    sscanf [.upTo c, .literal c, .word] (a ++ c :: rest) =
      a :: if firstWord rest = [] then [] else [firstWord rest] := by
  have hall := bne_of_not_mem hac
  have htake : (a ++ c :: rest).takeWhile (· != c) = a := by
    rw [List.takeWhile_append_of_pos hall, List.takeWhile_cons_of_neg (by simp), List.append_nil]
  have hdrop : (a ++ c :: rest).dropWhile (· != c) = c :: rest := by
    rw [List.dropWhile_append_of_pos hall, List.dropWhile_cons_of_neg (by simp)]
  simp only [sscanf, htake, hdrop, if_neg ha, if_true]

end Libc
