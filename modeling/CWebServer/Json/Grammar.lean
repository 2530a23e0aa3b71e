/-
CWebServer.Json.Grammar — what a JSON text is, independently of the
parser.

Two views. `IsObject` and its companions are the JSON grammar over token
kinds: which sequences of kinds are one object. Such a sequence is properly
nested (`IsObject.nested`). `JsonTree` is the tree of a JSON value, with
leaves that cannot be ill-formed (`PlainString`, `NumberLiteral`), and
`JsonTree.tokens` its token sequence; its text is any rendering of that
sequence in the sense of `Json.Rendering`, and there is one
(`JsonTree.renders_writeTokens`). The two agree in the direction the parser's
theorems use: the tokens of a tree derive in the grammar
(`JsonTree.isValue_tokens`).

No `sorry`, no `axiom`, no `native_decide`.
-/
import CWebServer.Json.Rendering
import CWebServer.Json.ScanTheorems

namespace CWebServer.Json

open Libc Nesting

/-! ## The grammar over token kinds -/

mutual

inductive IsValue : List TokenType → Prop where
  | string : IsValue [.string]
  | number : IsValue [.number]
  | jsonTrue : IsValue [.jsonTrue]
  | jsonFalse : IsValue [.jsonFalse]
  | jsonNull : IsValue [.jsonNull]
  | object {w : List TokenType} : IsObject w → IsValue w
  | array {w : List TokenType} : IsArray w → IsValue w

inductive IsObject : List TokenType → Prop where
  | empty : IsObject [.leftBrace, .rightBrace]
  | members {w : List TokenType} : IsMembers w → IsObject (.leftBrace :: (w ++ [.rightBrace]))

inductive IsMembers : List TokenType → Prop where
  | one {v : List TokenType} : IsValue v → IsMembers (.string :: .colon :: v)
  | cons {v w : List TokenType} :
      IsValue v → IsMembers w → IsMembers (.string :: .colon :: (v ++ .comma :: w))

inductive IsArray : List TokenType → Prop where
  | empty : IsArray [.leftBracket, .rightBracket]
  | elements {w : List TokenType} :
      IsElements w → IsArray (.leftBracket :: (w ++ [.rightBracket]))

inductive IsElements : List TokenType → Prop where
  | one {v : List TokenType} : IsValue v → IsElements v
  | cons {v w : List TokenType} : IsValue v → IsElements w → IsElements (v ++ .comma :: w)

end

/-! ## What the grammar says of brackets -/

/-- `tokenShape` on token kinds. -/
def typeShape (type : TokenType) : Shape BracketKind := tokenShape ⟨type, none⟩

mutual

/-- The brackets of a value are properly nested. -/
theorem IsValue.nested : ∀ {w : List TokenType}, IsValue w → Nested typeShape w
  | _, .string => .plain rfl .nil
  | _, .number => .plain rfl .nil
  | _, .jsonTrue => .plain rfl .nil
  | _, .jsonFalse => .plain rfl .nil
  | _, .jsonNull => .plain rfl .nil
  | _, .object h => h.nested
  | _, .array h => h.nested

theorem IsObject.nested : ∀ {w : List TokenType}, IsObject w → Nested typeShape w
  | _, .empty => .wrap (k := .brace) (v := []) rfl rfl .nil .nil
  | _, .members h => .wrap (k := .brace) rfl rfl h.nested .nil

theorem IsMembers.nested : ∀ {w : List TokenType}, IsMembers w → Nested typeShape w
  | _, .one h => .plain rfl (.plain rfl h.nested)
  | _, .cons hv hw => .plain rfl (.plain rfl (hv.nested.append (.plain rfl hw.nested)))

theorem IsArray.nested : ∀ {w : List TokenType}, IsArray w → Nested typeShape w
  | _, .empty => .wrap (k := .bracket) (v := []) rfl rfl .nil .nil
  | _, .elements h => .wrap (k := .bracket) rfl rfl h.nested .nil

theorem IsElements.nested : ∀ {w : List TokenType}, IsElements w → Nested typeShape w
  | _, .one h => h.nested
  | _, .cons hv hw => hv.nested.append (.plain rfl hw.nested)

end

mutual

/-- `TOKEN_EOF` is part of no value. -/
theorem IsValue.no_eof : ∀ {w : List TokenType}, IsValue w → .eof ∉ w
  | _, .string => by simp
  | _, .number => by simp
  | _, .jsonTrue => by simp
  | _, .jsonFalse => by simp
  | _, .jsonNull => by simp
  | _, .object h => h.no_eof
  | _, .array h => h.no_eof

theorem IsObject.no_eof : ∀ {w : List TokenType}, IsObject w → .eof ∉ w
  | _, .empty => by simp
  | _, .members h => by simp [h.no_eof]

theorem IsMembers.no_eof : ∀ {w : List TokenType}, IsMembers w → .eof ∉ w
  | _, .one h => by simp [h.no_eof]
  | _, .cons hv hw => by simp [hv.no_eof, hw.no_eof]

theorem IsArray.no_eof : ∀ {w : List TokenType}, IsArray w → .eof ∉ w
  | _, .empty => by simp
  | _, .elements h => by simp [h.no_eof]

theorem IsElements.no_eof : ∀ {w : List TokenType}, IsElements w → .eof ∉ w
  | _, .one h => h.no_eof
  | _, .cons hv hw => by simp [hv.no_eof, hw.no_eof]

end

/-! ## Trees -/

/-- String contents that need no escape. -/
structure PlainString where
  chars : List Char
  quote_not_mem : '"' ∉ chars
  backslash_not_mem : '\\' ∉ chars
  nul_not_mem : nul ∉ chars

def digits : List Char := ['0', '1', '2', '3', '4', '5', '6', '7', '8', '9']

/-- The number grammar: an optional minus, an integer part without leading
zeros, an optional fraction, an optional exponent. -/
structure IsNumberLiteral (chars sign int frac exp : List Char) : Prop where
  parts : chars = sign ++ int ++ frac ++ exp
  sign : sign = [] ∨ sign = ['-']
  int : int = ['0'] ∨ ∃ d ds, int = d :: ds ∧ d ∈ digits ∧ d ≠ '0' ∧ ∀ c ∈ ds, c ∈ digits
  frac : frac = [] ∨ ∃ ds, frac = '.' :: ds ∧ ds ≠ [] ∧ ∀ c ∈ ds, c ∈ digits
  exp : exp = [] ∨ ∃ e s ds, exp = e :: (s ++ ds) ∧ e ∈ ['e', 'E'] ∧
    (s = [] ∨ s = ['+'] ∨ s = ['-']) ∧ ds ≠ [] ∧ ∀ c ∈ ds, c ∈ digits

structure NumberLiteral where
  chars : List Char
  grammar : ∃ sign int frac exp, IsNumberLiteral chars sign int frac exp

inductive JsonTree where
  | string (contents : PlainString)
  | number (literal : NumberLiteral)
  | bool (b : Bool)
  | null
  | object (members : List (PlainString × JsonTree))
  | array (elements : List JsonTree)

mutual

/-- The tokens of a tree. -/
def JsonTree.tokens : JsonTree → List Token
  | .string s => [⟨.string, some s.chars⟩]
  | .number n => [⟨.number, some n.chars⟩]
  | .bool true => [⟨.jsonTrue, none⟩]
  | .bool false => [⟨.jsonFalse, none⟩]
  | .null => [⟨.jsonNull, none⟩]
  | .object ms => ⟨.leftBrace, none⟩ :: (membersTokens ms ++ [⟨.rightBrace, none⟩])
  | .array es => ⟨.leftBracket, none⟩ :: (elementsTokens es ++ [⟨.rightBracket, none⟩])

/-- Members, with a comma between neighbours. -/
def membersTokens : List (PlainString × JsonTree) → List Token
  | [] => []
  | [(k, v)] => ⟨.string, some k.chars⟩ :: ⟨.colon, none⟩ :: v.tokens
  | (k, v) :: m :: ms =>
    ⟨.string, some k.chars⟩ :: ⟨.colon, none⟩ ::
      (v.tokens ++ ⟨.comma, none⟩ :: membersTokens (m :: ms))

def elementsTokens : List JsonTree → List Token
  | [] => []
  | [v] => v.tokens
  | v :: e :: es => v.tokens ++ ⟨.comma, none⟩ :: elementsTokens (e :: es)

end

mutual

/-- The tree `parseObject` should build. -/
def JsonTree.value : JsonTree → JsonValue
  | .string s => .string (some s.chars)
  | .number n => .number (some n.chars)
  | .bool true => .boolean 1
  | .bool false => .boolean 0
  | .null => .null
  | .object ms => .object (some (membersValue ms))
  | .array es => .array (some (elementsValue es))

def membersValue : List (PlainString × JsonTree) → JsonObject
  | [] => []
  | (k, v) :: ms => { key := some k.chars, value := v.value } :: membersValue ms

def elementsValue : List JsonTree → JsonArray
  | [] => []
  | v :: es => v.value :: elementsValue es

end

theorem length_membersValue : ∀ ms : List (PlainString × JsonTree),
    (membersValue ms).length = ms.length
  | [] => by simp [membersValue]
  | (k, v) :: ms => by simp [membersValue, length_membersValue ms]

/-! ## The tokens of a tree -/

theorem digits_subset {c : Char} (h : c ∈ digits) : c ∈ numberChars := by
  simp only [digits, List.mem_cons, List.not_mem_nil, or_false] at h
  rcases h with rfl | rfl | rfl | rfl | rfl | rfl | rfl | rfl | rfl | rfl <;> decide

theorem NumberLiteral.ne_nil (n : NumberLiteral) : n.chars ≠ [] := by
  obtain ⟨sign, int, frac, exp, h⟩ := n.grammar
  rw [h.parts]
  rcases h.int with hint | ⟨d, ds, hint, -⟩ <;> simp [hint]

theorem NumberLiteral.mem_numberChars (n : NumberLiteral) : ∀ c ∈ n.chars, c ∈ numberChars := by
  obtain ⟨sign, int, frac, exp, h⟩ := n.grammar
  have hsign : ∀ c ∈ sign, c ∈ numberChars := by
    rcases h.sign with rfl | rfl <;> decide
  have hint : ∀ c ∈ int, c ∈ numberChars := by
    rcases h.int with rfl | ⟨d, ds, rfl, hd, -, hds⟩
    · decide
    · intro c hc
      rcases List.mem_cons.mp hc with rfl | hc
      · exact digits_subset hd
      · exact digits_subset (hds c hc)
  have hfrac : ∀ c ∈ frac, c ∈ numberChars := by
    rcases h.frac with rfl | ⟨ds, rfl, -, hds⟩
    · decide
    · intro c hc
      rcases List.mem_cons.mp hc with rfl | hc
      · decide
      · exact digits_subset (hds c hc)
  have hexp : ∀ c ∈ exp, c ∈ numberChars := by
    rcases h.exp with rfl | ⟨e, s, ds, rfl, he, hs, -, hds⟩
    · decide
    · have hs' : ∀ c ∈ s, c ∈ numberChars := by
        rcases hs with rfl | rfl | rfl <;> decide
      have he' : e ∈ numberChars := by
        simp only [List.mem_cons, List.not_mem_nil, or_false] at he
        rcases he with rfl | rfl <;> decide
      intro c hc
      rcases List.mem_cons.mp hc with rfl | hc
      · exact he'
      · rcases List.mem_append.mp hc with hc | hc
        · exact hs' c hc
        · exact digits_subset (hds c hc)
  intro c hc
  rw [h.parts] at hc
  simp only [List.mem_append] at hc
  rcases hc with ((hc | hc) | hc) | hc
  · exact hsign c hc
  · exact hint c hc
  · exact hfrac c hc
  · exact hexp c hc

mutual

/-- The tokens of a tree derive in the grammar. -/
theorem JsonTree.isValue_tokens : ∀ v : JsonTree, IsValue (v.tokens.map Token.type)
  | .string _ => by simpa [JsonTree.tokens] using IsValue.string
  | .number _ => by simpa [JsonTree.tokens] using IsValue.number
  | .bool true => by simpa [JsonTree.tokens] using IsValue.jsonTrue
  | .bool false => by simpa [JsonTree.tokens] using IsValue.jsonFalse
  | .null => by simpa [JsonTree.tokens] using IsValue.jsonNull
  | .object [] => by simpa [JsonTree.tokens, membersTokens] using IsValue.object .empty
  | .object (m :: ms) => by
      simpa [JsonTree.tokens] using IsValue.object (.members (isMembers_tokens (m :: ms) (by simp)))
  | .array [] => by simpa [JsonTree.tokens, elementsTokens] using IsValue.array .empty
  | .array (e :: es) => by
      simpa [JsonTree.tokens] using
        IsValue.array (.elements (isElements_tokens (e :: es) (by simp)))

theorem isMembers_tokens : ∀ ms : List (PlainString × JsonTree), ms ≠ [] →
    IsMembers ((membersTokens ms).map Token.type)
  | [], h => absurd rfl h
  | [(k, v)], _ => by simpa [membersTokens] using IsMembers.one v.isValue_tokens
  | (k, v) :: m :: ms, _ => by
      simpa [membersTokens] using
        IsMembers.cons v.isValue_tokens (isMembers_tokens (m :: ms) (by simp))

theorem isElements_tokens : ∀ es : List JsonTree, es ≠ [] →
    IsElements ((elementsTokens es).map Token.type)
  | [], h => absurd rfl h
  | [v], _ => by simpa [elementsTokens] using IsElements.one v.isValue_tokens
  | v :: e :: es, _ => by
      simpa [elementsTokens] using
        IsElements.cons v.isValue_tokens (isElements_tokens (e :: es) (by simp))

end

/-! ## The text of a tree -/

mutual

/-- Every token of a tree has a lexeme. -/
theorem JsonTree.lexeme_tokens : ∀ (v : JsonTree), ∀ t ∈ v.tokens, ∃ w, Lexeme t w
  | .string s => by
      simpa [JsonTree.tokens] using ⟨_, Lexeme.string s.chars s.quote_not_mem s.nul_not_mem⟩
  | .number n => by
      simpa [JsonTree.tokens] using ⟨_, Lexeme.number n.chars n.ne_nil n.mem_numberChars⟩
  | .bool true => by simpa [JsonTree.tokens] using ⟨_, Lexeme.jsonTrue⟩
  | .bool false => by simpa [JsonTree.tokens] using ⟨_, Lexeme.jsonFalse⟩
  | .null => by simpa [JsonTree.tokens] using ⟨_, Lexeme.jsonNull⟩
  | .object ms => by
      intro t ht
      simp only [JsonTree.tokens, List.mem_cons, List.mem_append, List.not_mem_nil, or_false] at ht
      rcases ht with rfl | ht | rfl
      · exact ⟨_, Lexeme.leftBrace⟩
      · exact lexeme_membersTokens ms t ht
      · exact ⟨_, Lexeme.rightBrace⟩
  | .array es => by
      intro t ht
      simp only [JsonTree.tokens, List.mem_cons, List.mem_append, List.not_mem_nil, or_false] at ht
      rcases ht with rfl | ht | rfl
      · exact ⟨_, Lexeme.leftBracket⟩
      · exact lexeme_elementsTokens es t ht
      · exact ⟨_, Lexeme.rightBracket⟩

theorem lexeme_membersTokens : ∀ (ms : List (PlainString × JsonTree)), ∀ t ∈ membersTokens ms,
    ∃ w, Lexeme t w
  | [] => by simp [membersTokens]
  | [(k, v)] => by
      intro t ht
      simp only [membersTokens, List.mem_cons] at ht
      rcases ht with rfl | rfl | ht
      · exact ⟨_, Lexeme.string k.chars k.quote_not_mem k.nul_not_mem⟩
      · exact ⟨_, Lexeme.colon⟩
      · exact v.lexeme_tokens t ht
  | (k, v) :: m :: ms => by
      intro t ht
      simp only [membersTokens, List.mem_cons, List.mem_append] at ht
      rcases ht with rfl | rfl | ht | rfl | ht
      · exact ⟨_, Lexeme.string k.chars k.quote_not_mem k.nul_not_mem⟩
      · exact ⟨_, Lexeme.colon⟩
      · exact v.lexeme_tokens t ht
      · exact ⟨_, Lexeme.comma⟩
      · exact lexeme_membersTokens (m :: ms) t ht

theorem lexeme_elementsTokens : ∀ (es : List JsonTree), ∀ t ∈ elementsTokens es, ∃ w, Lexeme t w
  | [] => by simp [elementsTokens]
  | [v] => by
      intro t ht
      rw [elementsTokens] at ht
      exact v.lexeme_tokens t ht
  | v :: e :: es => by
      intro t ht
      simp only [elementsTokens, List.mem_append, List.mem_cons] at ht
      rcases ht with ht | rfl | ht
      · exact v.lexeme_tokens t ht
      · exact ⟨_, Lexeme.comma⟩
      · exact lexeme_elementsTokens (e :: es) t ht

end

/-- Every tree can be written. -/
theorem JsonTree.renders_writeTokens (v : JsonTree) : Renders v.tokens (writeTokens v.tokens) :=
  Json.renders_writeTokens v.lexeme_tokens

end CWebServer.Json
