/-
CWebServer.Json.Definedness — when a parse leaves nothing undefined.

The parser duplicates the literal of whatever token follows a comma, and
hands whatever token stands in value position to `_parseValue`. Only
strings and numbers carry a literal, and `_parseValue` has no case for
punctuation, so both go wrong on some texts. `strdup` is stopped by the
missing literal of a key. A value without a case is stored unassigned, on
well-formed texts as well: in `{"a":[{},1],"b":2}` the brace of the first
element is looked for one token too far, and the brace itself becomes the
value.

`parseText_defined_iff` says for which texts nothing goes wrong.

No `sorry`, no `axiom`, no `native_decide`.
-/
import CWebServer.Json.Acceptance
import CWebServer.Json.LexerTheorems

namespace CWebServer.Json

open Libc Relation

/-! ## The token array of a text -/

/-- The lexer's tokens end in the only `TOKEN_EOF`. -/
theorem eofTerminated_lexerTokens (noReturn : Nat → TokenType) (l : Lexer) :
    EofTerminated (lexerTokens noReturn l) := by
  fun_induction lexerTokens noReturn l with
  | case1 l h => exact .last h
  | case2 l h ih => exact .cons h ih

/-- What `parseTokens` returns for a text. -/
def textTokens (noReturn : Nat → TokenType) (text : List Char) : TokensArray :=
  { tokens := lexerTokens noReturn (lexerCreate text)
    length := (lexerTokens noReturn (lexerCreate text)).length }

theorem parseText_eq (abi : Abi) (noReturn : Nat → TokenType) (text : List Char) :
    parseText abi noReturn text = parseObject (textTokens noReturn text) 0 := by
  unfold parseText
  rw [parseTokens_eq]
  rfl

/-! ## Defined trees -/

/-- Every value of the tree was assigned by a case of `_parseValue` or by a
nested call, and every key and string is a copy of a literal. -/
structure TreeDefined (v : JsonValue) : Prop where
  assigned : ∀ w, ReflTransGen HasChild v w → w ≠ .indeterminate
  strings : ∀ w, ReflTransGen HasChild v w → w ≠ .string none
  keys : ∀ properties, ReflTransGen HasChild v (.object (some properties)) →
    ∀ p ∈ properties, p.key ≠ none

/-- In every object and array the parse of `tokens` gets to, each entry's
value token has a case in `_parseValue` or opens a nested call, and no
literal is missing: of a key, a string or a number. -/
structure EntriesDefined (tokens : TokensArray) : Prop where
  cases : ∀ t, ReflTransGen (Source.Reads tokens) (.call (.object 0)) (.token t) → t.HasCase
  literals : LiteralsPresent tokens (.call (.object 0))

theorem parseValue_ne_string {t : Token} : parseValue t ≠ .ok (.string none) := by
  obtain ⟨type, literal⟩ := t
  cases type <;> cases literal <;>
    simp [parseValue, strdup, atof, readLiteral, bind, Except.bind]

/-- A property's key is a copy of a literal. -/
theorem key_ne_none {tokens : TokensArray} (heof : EofTerminated tokens.tokens) {start : Nat}
    (hs : start < tokens.tokens.length) {properties : JsonObject}
    (h : parseObject tokens start = .ok (some properties)) :
    ∀ p ∈ properties, p.key ≠ none := by
  intro p hp
  rw [parseObject_eq heof hs, parseEntries_iff heof hs] at h
  obtain ⟨-, h⟩ | ⟨-, bases, es, -, ho, hes⟩ := h
  · exact nomatch h
  · obtain rfl := Option.some.inj ho
    obtain ⟨i, -, hbody⟩ := forall₂_of_mem_right hes p hp
    obtain ⟨key, t, -, -, hcopy, -⟩ := objectEntry_iff.mp hbody
    obtain ⟨heq, hne⟩ := strdup_ok_iff.mp hcopy
    rwa [heq]

section

variable {tokens : TokensArray} (heof : EofTerminated tokens.tokens) {o : Option JsonObject}
  (ho : parseObject tokens 0 = .ok o)

include heof ho

theorem treeDefined_of_entriesDefined (h : EntriesDefined tokens) : TreeDefined (.object o) := by
  have hroot : Source.InBounds tokens (.call (.object 0)) := List.length_pos_iff.mpr heof.ne_nil
  have hv : (Source.call (.object 0)).value tokens = .ok (.object o) :=
    Call.run_object_iff.mpr ⟨o, ho, rfl⟩
  refine ⟨fun w hw => ?_, fun w hw => ?_, fun properties hw => ?_⟩
  · rintro rfl
    obtain ⟨src, hsrc, -, hvalue⟩ := exists_source heof hroot hv hw
    cases src with
    | token t => exact parseValue_indeterminate_iff.mp hvalue (h.cases t hsrc)
    | call c => cases c <;> obtain ⟨_, -, heq⟩ := bind_ok_iff.mp hvalue <;> cases heq
  · rintro rfl
    obtain ⟨src, hsrc, -, hvalue⟩ := exists_source heof hroot hv hw
    cases src with
    | token t => exact parseValue_ne_string hvalue
    | call c => cases c <;> obtain ⟨_, -, heq⟩ := bind_ok_iff.mp hvalue <;> cases heq
  · obtain ⟨src, hsrc, hin, hvalue⟩ := exists_source heof hroot hv hw
    cases src with
    | token t => exact absurd rfl ((parseValue_ne hvalue).1 _)
    | call c =>
      cases c with
      | object start =>
        obtain ⟨o', ho', heq⟩ := Call.run_object_iff.mp hvalue
        obtain rfl := JsonValue.object.inj heq
        exact key_ne_none heof hin ho'
      | array start =>
        obtain ⟨a, -, heq⟩ := Call.run_array_iff.mp hvalue
        cases heq

theorem entriesDefined_of_treeDefined (h : TreeDefined (.object o)) : EntriesDefined tokens := by
  have hroot : Source.InBounds tokens (.call (.object 0)) := List.length_pos_iff.mpr heof.ne_nil
  have hv : (Source.call (.object 0)).value tokens = .ok (.object o) :=
    Call.run_object_iff.mpr ⟨o, ho, rfl⟩
  refine ⟨fun t ht => ?_, literalsPresent_of_value heof hroot hv⟩
  obtain ⟨-, w, hw, hvalue⟩ := exists_stored heof hroot hv ht
  by_contra hcase
  rw [← parseValue_indeterminate_iff] at hcase
  exact h.assigned w hw (Except.ok.inj (hvalue.symm.trans hcase))

end

/-- **Definedness**: a parse returns, so that `strdup` was handed no NULL,
with no value unassigned, and its cleanup reads no unassigned type, exactly
when the entries it gets to are defined. -/
theorem parseText_defined_iff (abi : Abi) (noReturn : Nat → TokenType) (text : List Char) :
    (∃ o, parseText abi noReturn text = .ok o ∧ TreeDefined (.object o) ∧
        jsonObjectCleanup o ≠ .error .indeterminate) ↔
      EntriesDefined (textTokens noReturn text) := by
  have heof : EofTerminated (textTokens noReturn text).tokens :=
    eofTerminated_lexerTokens noReturn (lexerCreate text)
  have hpos : 0 < (textTokens noReturn text).tokens.length := List.length_pos_iff.mpr heof.ne_nil
  rw [parseText_eq]
  constructor
  · intro h
    obtain ⟨o, ho, htree, -⟩ := h
    exact entriesDefined_of_treeDefined heof ho htree
  · intro h
    obtain ⟨o, ho⟩ := (parseObject_ok_iff heof hpos).mpr h.literals
    have htree := treeDefined_of_entriesDefined heof ho h
    refine ⟨o, ho, htree, fun hfault => ?_⟩
    obtain ⟨w, hw, ⟨he, -⟩ | ⟨-, rfl⟩⟩ := valueCleanup_error (.object o) hfault
    · exact nomatch he
    · exact htree.assigned _ hw rfl

/-- `{"a":[{},1],"b":2}`: the element `{}` is left unassigned, and the
cleanup switches on it. -/
theorem parseText_undefined :
    let text := ['{', '"', 'a', '"', ':', '[', '{', '}', ',', '1', ']', ',', '"', 'b', '"', ':',
      '2', '}']
    let object : JsonObject := [{ key := some ['a'], value := .array (some [.indeterminate]) }]
    nul ∉ text ∧ parseText ⟨4, by decide⟩ (fun _ => .illegal) text = .ok (some object) ∧
      jsonObjectCleanup (some object) = .error .indeterminate ∧
      ¬ ∃ o, parseText ⟨4, by decide⟩ (fun _ => .illegal) text = .ok o ∧
        TreeDefined (.object o) ∧ jsonObjectCleanup o ≠ .error .indeterminate := by
  intro text object
  have htokens : lexerTokens (fun _ => .illegal) (lexerCreate text) =
      [⟨.leftBrace, none⟩, ⟨.string, some ['a']⟩, ⟨.colon, none⟩, ⟨.leftBracket, none⟩,
        ⟨.leftBrace, none⟩, ⟨.rightBrace, none⟩, ⟨.comma, none⟩, ⟨.number, some ['1']⟩,
        ⟨.rightBracket, none⟩, ⟨.comma, none⟩, ⟨.string, some ['b']⟩, ⟨.colon, none⟩,
        ⟨.number, some ['2']⟩, ⟨.rightBrace, none⟩, ⟨.eof, none⟩] := by
    decide +kernel
  have hparse : parseText ⟨4, by decide⟩ (fun _ => .illegal) text = .ok (some object) := by
    rw [parseText_eq, textTokens, htokens]
    rfl
  refine ⟨by decide, hparse, rfl, ?_⟩
  intro h
  obtain ⟨o, ho, -, hcleanup⟩ := h
  rw [hparse, Except.ok.injEq] at ho
  subst ho
  exact hcleanup rfl

end CWebServer.Json
