/-
CWebServer.Json.Canonical — which token lists `parseTokens` makes.

A token is `Lexable` when it has a lexeme, or is the `TOKEN_ILLEGAL` of a
character that no rule recognises. Whatever a missing return leaves, the
token lists that come out of `parseTokens` are the lists of lexable tokens
with one `TOKEN_EOF` behind them (`parseTokens_range`), and `writeTokens`
gives each of them a text: one blank before each lexeme. Written again and
read again, a token list stays as it is (`parseTokens_writeTokens`).

No `sorry`, no `axiom`, no `native_decide`.
-/
import Mathlib.Tactic.IntervalCases
import CWebServer.Json.Scalars

namespace CWebServer.Json

open Libc

/-! ## Tokens with a text -/

/-- A token that some text has. -/
def Lexable (t : Token) : Prop := (∃ w, Lexeme t w) ∨ t = tokenCreate .illegal none

theorem Lexable.type_ne_eof {t : Token} (h : Lexable t) : t.type ≠ .eof := by
  rcases h with ⟨w, hw⟩ | rfl
  · exact hw.type_ne_eof
  · decide

theorem Lexable.nul_not_mem {t : Token} (h : Lexable t) : nul ∉ writeToken t := by
  rcases h with ⟨w, hw⟩ | rfl
  · exact hw.eq_writeToken ▸ hw.nul_not_mem
  · decide

theorem nul_not_mem_writeTokens {ts : List Token} (h : ∀ t ∈ ts, Lexable t) :
    nul ∉ writeTokens ts := by
  intro hmem
  obtain ⟨t, ht, hnul⟩ := List.mem_flatMap.mp hmem
  rcases List.mem_cons.mp hnul with hblank | hnul
  · exact absurd hblank (by decide)
  · exact (h t ht).nul_not_mem hnul

/-- Behind a written token stands a blank, or nothing. -/
theorem separates_writeTokens {ts : List Token} : ∀ c ∈ (writeTokens ts).head?, Separates c := by
  intro c hc
  cases ts with
  | nil => cases hc
  | cons t ts =>
    obtain rfl := Option.some.inj hc
    exact separates_blank (by decide)

/-! ## Reading what was written -/

/-- A call at a written token. -/
theorem lexerNext_writeToken (noReturn : Nat → TokenType) {l : Lexer} {t : Token}
    {post : List Char} (ht : Lexable t) (hrun : l.Running)
    (hrest : l.rest = ' ' :: (writeToken t ++ post)) (hstop : ∀ c ∈ post.head?, Separates c) :
    (lexerNext noReturn l).1 = t ∧ (lexerNext noReturn l).2.rest = post ∧
      (lexerNext noReturn l).2.Running := by
  have hspace : Blank [' '] := by decide
  rcases ht with ⟨w, hw⟩ | rfl
  · rw [← hw.eq_writeToken] at hrest
    exact lexerNext_lexeme noReturn hspace hw hrun hrest fun _ => hstop
  · have hskip := lexerReadWhile_skips isWhitespace rfl [' '] hrun hrest (by decide) fun c hc => by
      obtain rfl := Option.some.inj hc
      decide
    have hat : Alone '@' := ⟨by decide, by decide, by decide, rfl, rfl⟩
    exact lexerToken_alone noReturn hskip.running hskip.rest hat

/-- By induction on the tokens; the text ends with whitespace. -/
theorem lexerTokens_writeTokens (noReturn : Nat → TokenType) {ts : List Token} {ws : List Char}
    (hws : Blank ws) (h : ∀ t ∈ ts, Lexable t) {l : Lexer} (hrun : l.Running)
    (hrest : l.rest = writeTokens ts ++ ws) :
    lexerTokens noReturn l = ts ++ [⟨.eof, none⟩] := by
  induction ts generalizing l with
  | nil =>
    have htoken := lexerNext_blank noReturn hrun (hrest ▸ hws)
    rw [lexerTokens_eof (by rw [htoken]), htoken]
    rfl
  | cons t ts ih =>
    have ht := h t List.mem_cons_self
    have hstop : ∀ c ∈ (writeTokens ts ++ ws).head?, Separates c := by
      intro c hc
      rw [List.head?_append, Option.mem_def, Option.or_eq_some_iff] at hc
      rcases hc with hc | ⟨-, hc⟩
      · exact separates_writeTokens c hc
      · exact separates_blank (hws c (List.mem_of_mem_head? hc))
    have hfirst : l.rest = ' ' :: (writeToken t ++ (writeTokens ts ++ ws)) := by
      rw [hrest]
      simp [writeTokens]
    obtain ⟨htoken, hpost, hrun'⟩ := lexerNext_writeToken noReturn ht hrun hfirst hstop
    rw [lexerTokens_cons (by rw [htoken]; exact ht.type_ne_eof), htoken,
      ih (fun u hu => h u (List.mem_cons_of_mem t hu)) hrun' hpost]
    rfl

/-! ## What is read -/

theorem mem_numberChars {c : Char} (h : isNumber c = true) : c ∈ numberChars := by
  by_cases hdigit : '0' ≤ c ∧ c ≤ '9'
  · have hlow : 48 ≤ c.toNat := hdigit.1
    have hhigh : c.toNat ≤ 57 := hdigit.2
    rw [← Char.ofNat_toNat c]
    generalize c.toNat = n at hlow hhigh
    interval_cases n <;> decide
  · simp only [isNumber, Bool.or_eq_true, Bool.and_eq_true, decide_eq_true_eq, hdigit, false_or,
      beq_iff_eq, or_assoc] at h
    rcases h with rfl | rfl | rfl | rfl | rfl <;> decide

theorem lexable_lexerSwitch {c : Char} (h : c ≠ nul) :
    Lexable ((lexerSwitch c).getD (tokenCreate .illegal none)) := by
  unfold lexerSwitch
  split_ifs
  · exact .inl ⟨_, .leftBrace⟩
  · exact .inl ⟨_, .rightBrace⟩
  · exact .inl ⟨_, .leftBracket⟩
  · exact .inl ⟨_, .rightBracket⟩
  · exact .inl ⟨_, .comma⟩
  · exact .inl ⟨_, .colon⟩
  · exact .inr rfl

/-- The classifier knows the three keywords only. -/
theorem lexable_getTokenTypeFromLiteral (literal : List Char) (len : Nat) :
    Lexable (tokenCreate ((getTokenTypeFromLiteral literal len).getD .illegal) none) := by
  unfold getTokenTypeFromLiteral
  split_ifs
  · exact .inl ⟨_, .jsonTrue⟩
  · exact .inl ⟨_, .jsonFalse⟩
  · exact .inl ⟨_, .jsonNull⟩
  · exact .inr rfl

/-- What one call returns where a missing return leaves `TOKEN_ILLEGAL`. -/
theorem lexerNext_eof_or_lexable {l : Lexer} (hrun : l.Running) :
    (lexerNext (fun _ => .illegal) l).1 = ⟨.eof, none⟩ ∨
      Lexable (lexerNext (fun _ => .illegal) l).1 ∧
        (lexerNext (fun _ => .illegal) l).2.Running := by
  rcases lexerNext_scans (fun _ => .illegal) hrun with
    hblank | ⟨ws, w, post, hrest, hws, -, hscans, -, hrun'⟩
  · exact .inl (lexerNext_blank _ hrun hblank)
  · have hnul : nul ∉ w := fun hmem => l.nul_not_mem_rest (by simp [hrest, hmem])
    have htype := lexerNext_word (fun _ => .illegal) hrun hrest hws
    refine .inr ⟨?_, hrun'⟩
    generalize (lexerNext (fun _ => .illegal) l).1 = t at hscans htype
    cases hscans with
    | alone hc => exact lexable_lexerSwitch hc.1
    | closed hquote => exact .inl ⟨_, .string _ hquote fun hmem => hnul (by simp [hmem])⟩
    | unclosed hquote => exact .inl ⟨_, .string _ hquote fun hmem => hnul (by simp [hmem])⟩
    | number hnumber =>
      exact .inl ⟨_, .number _ hnumber.ne_nil fun c hc => mem_numberChars (hnumber.all c hc)⟩
    | word hword _ =>
      obtain rfl := htype hword
      exact lexable_getTokenTypeFromLiteral w w.length

theorem exists_lexable {l : Lexer} (hrun : l.Running) :
    ∃ ts, (∀ t ∈ ts, Lexable t) ∧ lexerTokens (fun _ => .illegal) l = ts ++ [⟨.eof, none⟩] := by
  fun_induction lexerTokens (fun _ => .illegal) l with
  | case1 l heof =>
    refine ⟨[], fun t ht => absurd ht List.not_mem_nil, ?_⟩
    rcases lexerNext_eof_or_lexable hrun with htoken | ⟨hlexable, -⟩
    · rw [htoken]
      rfl
    · exact absurd heof hlexable.type_ne_eof
  | case2 l hne ih =>
    rcases lexerNext_eof_or_lexable hrun with htoken | ⟨hlexable, hrun'⟩
    · exact absurd (by rw [htoken]) hne
    · obtain ⟨ts, hts, heq⟩ := ih hrun'
      refine ⟨_ :: ts, fun t ht => ?_, by rw [heq]; rfl⟩
      rcases List.mem_cons.mp ht with rfl | ht
      · exact hlexable
      · exact hts t ht

/-! ## The lists that come out -/

theorem parseTokens_writeTokens_eof (abi : Abi) (noReturn : Nat → TokenType) {ts : List Token}
    {ws : List Char} (hws : Blank ws) (h : ∀ t ∈ ts, Lexable t) :
    parseTokens abi noReturn (writeTokens ts ++ ws) =
      .ok { tokens := ts ++ [⟨.eof, none⟩], length := ts.length + 1 } := by
  have hnul : nul ∉ writeTokens ts ++ ws := by
    rw [List.mem_append, not_or]
    exact ⟨nul_not_mem_writeTokens h, hws.nul_not_mem⟩
  rw [parseTokens_eq, lexerTokens_writeTokens noReturn hws h (running_lexerCreate _)
    (rest_lexerCreate hnul), List.length_append]
  rfl

/-- A result that no missing return has a part in. -/
theorem lexable_of_parseTokens {abi : Abi} {text : List Char} {result : TokensArray}
    (h : ∀ noReturn, parseTokens abi noReturn text = .ok result) :
    ∃ ts, (∀ t ∈ ts, Lexable t) ∧
      result = { tokens := ts ++ [⟨.eof, none⟩], length := ts.length + 1 } := by
  obtain ⟨ts, hts, heq⟩ := exists_lexable (running_lexerCreate text)
  have hresult := h fun _ => .illegal
  rw [parseTokens_eq, heq, List.length_append] at hresult
  exact ⟨ts, hts, (Except.ok.inj hresult).symm⟩

/-- **The range of the lexer**: the lists of lexable tokens, each with one
`TOKEN_EOF` behind it, and its length. -/
theorem parseTokens_range (abi : Abi) (result : TokensArray) :
    (∃ text, ∀ noReturn, parseTokens abi noReturn text = .ok result) ↔
      ∃ ts, (∀ t ∈ ts, Lexable t) ∧
        result = { tokens := ts ++ [⟨.eof, none⟩], length := ts.length + 1 } := by
  constructor
  · intro h
    obtain ⟨text, htext⟩ := h
    exact lexable_of_parseTokens htext
  · intro h
    obtain ⟨ts, hts, rfl⟩ := h
    exact ⟨_, fun noReturn => parseTokens_writeTokens_eof abi noReturn
      (show Blank [] by decide) hts⟩

/-- **Normal form**: what `parseTokens` made of a text, written again, is a
text of which it makes the same, strings that nothing closed included. -/
theorem parseTokens_writeTokens (abi : Abi) {text : List Char} {result : TokensArray}
    (h : ∀ noReturn, parseTokens abi noReturn text = .ok result) (noReturn : Nat → TokenType) :
    parseTokens abi noReturn (writeTokens result.tokens) = .ok result := by
  obtain ⟨ts, hts, rfl⟩ := lexable_of_parseTokens h
  have hwritten : writeTokens (ts ++ [⟨.eof, none⟩]) = writeTokens ts ++ [' '] := by
    simp [writeTokens, writeToken]
  rw [hwritten]
  exact parseTokens_writeTokens_eof abi noReturn (by decide) hts

/-- `1` and a comma on the next line. -/
theorem parseTokens_writeTokens_comma :
    parseTokens ⟨4, by decide⟩ (fun _ => .eof) [' ', '1', ' ', ',', ' '] =
      .ok { tokens := [⟨.number, some ['1']⟩, ⟨.comma, none⟩, ⟨.eof, none⟩], length := 3 } := by
  have hnone : Blank [] := by decide
  have hbreak : Blank ['\n'] := by decide
  have hrenders : Renders [⟨.number, some ['1']⟩, ⟨.comma, none⟩] ['1', '\n', ','] :=
    .cons hnone (.number ['1'] (by decide) (by decide)) (.cons hbreak .comma (.nil hnone) nofun)
      (fun _ h => absurd h (by decide))
  have hread : ∀ noReturn, parseTokens ⟨4, by decide⟩ noReturn ['1', '\n', ','] =
      .ok { tokens := [⟨.number, some ['1']⟩, ⟨.comma, none⟩, ⟨.eof, none⟩], length := 3 } := by
    intro noReturn
    rw [parseTokens_eq, lexerTokens_create noReturn hrenders]
    rfl
  exact parseTokens_writeTokens ⟨4, by decide⟩ hread (fun _ => .eof)

end CWebServer.Json
