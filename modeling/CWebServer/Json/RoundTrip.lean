/-
CWebServer.Json.RoundTrip — a JSON object written out and parsed back.

The parser makes one property for each member but the last
(`parseObject_objectTokens`), so the last member of every object is lost
and the round trip holds of the empty object only (`roundTrip_iff`).

No `sorry`, no `axiom`, no `native_decide`.
-/
import CWebServer.Json.Members

namespace CWebServer.Json

open Libc Nesting

/-! ## What is lost -/

/-- `parseTokens` of a text of the tree. -/
def treeTokens (v : JsonTree) : TokensArray :=
  { tokens := v.tokens ++ [⟨.eof, none⟩], length := v.tokens.length + 1 }

/-- A member of a tree, in tokens. -/
def treeMember (m : PlainString × JsonTree) : Member where
  key := ⟨.string, some m.1.chars⟩
  colon := ⟨.colon, none⟩
  value := m.2.tokens
  key_type := rfl
  colon_type := rfl
  isValue := m.2.isValue_tokens

theorem separated_membersTokens (ms : List (PlainString × JsonTree)) :
    Separated IsComma ((ms.map treeMember).map Member.tokens) (membersTokens ms) := by
  induction ms with
  | nil =>
    rw [membersTokens]
    exact .nil
  | cons m ms ih =>
    obtain ⟨k, v⟩ := m
    cases ms with
    | nil =>
      rw [membersTokens]
      exact .one _
    | cons m ms =>
      rw [membersTokens]
      exact .cons (v := (treeMember (k, v)).tokens) rfl ih

theorem objectTokens_tree (ms : List (PlainString × JsonTree)) :
    ObjectTokens (ms.map treeMember) (JsonTree.object ms).tokens := by
  rw [JsonTree.tokens]
  exact .mk rfl rfl (separated_membersTokens ms)

/-- The parser builds one property fewer than the object has members. -/
theorem length_of_parse_object {ms : List (PlainString × JsonTree)} {o : JsonObject}
    (h : parseObject (treeTokens (.object ms)) 0 = .ok (some o)) : o.length = ms.length - 1 := by
  have hstands : StandsAt (treeTokens (.object ms)) 0 (JsonTree.object ms).tokens :=
    List.prefix_append _ _
  obtain ⟨o', ho', hlen, -⟩ := parseObject_objectTokens hstands (objectTokens_tree ms) h
  rw [Option.some.inj ho', hlen, List.length_map]

/-- Lexing the text of a tree gives the tree's tokens. -/
theorem parseText_renders (abi : Abi) (noReturn : Nat → TokenType) {v : JsonTree}
    {text : List Char} (h : Renders v.tokens text) :
    parseText abi noReturn text = parseObject (treeTokens v) 0 := by
  unfold parseText
  rw [parseTokens_eq, lexerTokens_create noReturn h, List.length_append]
  rfl

/-- **Round trip**: the parser gives back the object its text was written
from exactly when that object has no members. -/
theorem roundTrip_iff (abi : Abi) (noReturn : Nat → TokenType)
    (ms : List (PlainString × JsonTree)) {text : List Char}
    (h : Renders (JsonTree.object ms).tokens text) :
    parseText abi noReturn text = .ok (some (membersValue ms)) ↔ ms = [] := by
  rw [parseText_renders abi noReturn h]
  constructor
  · intro heq
    have hlen := length_of_parse_object heq
    rw [length_membersValue] at hlen
    exact List.length_eq_zero_iff.mp (by omega)
  · rintro rfl
    have htokens : treeTokens (.object []) =
        { tokens := [⟨.leftBrace, none⟩, ⟨.rightBrace, none⟩, ⟨.eof, none⟩], length := 3 } := by
      simp [treeTokens, JsonTree.tokens, membersTokens]
    rw [htokens, membersValue]
    rfl

/-- The text `{ }`. -/
theorem roundTrip_iff_empty :
    parseText ⟨4, by decide⟩ (fun _ => .illegal) ['{', ' ', '}'] =
        .ok (some (membersValue [])) ↔
      ([] : List (PlainString × JsonTree)) = [] :=
  roundTrip_iff ⟨4, by decide⟩ (fun _ => .illegal) [] (by
    rw [JsonTree.tokens, membersTokens]
    exact .cons (show Blank [] by decide) .leftBrace
      (.cons (show Blank [' '] by decide) .rightBrace (.nil (show Blank [] by decide)) (by decide))
      (by decide))

/-- `{"a":1}` comes back as an object without members. -/
theorem parseText_loses_member :
    let a : PlainString := ⟨['a'], by decide, by decide, by decide⟩
    let one : NumberLiteral :=
      ⟨['1'], [], ['1'], [], [], rfl, .inl rfl,
        .inr ⟨'1', [], rfl, by decide, by decide, by decide⟩, .inl rfl, .inl rfl⟩
    let text := ['{', '"', 'a', '"', ':', '1', '}']
    Renders (JsonTree.object [(a, .number one)]).tokens text ∧
      parseText ⟨4, by decide⟩ (fun _ => .illegal) text = .ok (some []) ∧
      parseText ⟨4, by decide⟩ (fun _ => .illegal) text ≠
        .ok (some (membersValue [(a, .number one)])) := by
  intro a one text
  have htokens : (JsonTree.object [(a, .number one)]).tokens =
      [⟨.leftBrace, none⟩, ⟨.string, some ['a']⟩, ⟨.colon, none⟩, ⟨.number, some ['1']⟩,
        ⟨.rightBrace, none⟩] := by
    simp [JsonTree.tokens, membersTokens, a, one]
  have htext : Renders (JsonTree.object [(a, .number one)]).tokens text := by
    rw [htokens]
    exact .cons (show Blank [] by decide) .leftBrace
      (.cons (show Blank [] by decide) (.string ['a'] (by decide) (by decide))
        (.cons (show Blank [] by decide) .colon
          (.cons (show Blank [] by decide) (.number ['1'] (by decide) (by decide))
            (.cons (show Blank [] by decide) .rightBrace (.nil (show Blank [] by decide))
              (by decide))
            (by decide))
          (by decide))
        (by decide))
      (by decide)
  have hparse : parseText ⟨4, by decide⟩ (fun _ => .illegal) text = .ok (some []) := by
    rw [parseText_renders ⟨4, by decide⟩ (fun _ => .illegal) htext]
    unfold treeTokens
    rw [htokens]
    rfl
  refine ⟨htext, hparse, ?_⟩
  rw [hparse, membersValue, membersValue]
  simp

end CWebServer.Json
