/-
CWebServer.Json.Elements — the elements of an array, and the value stored
for one.

`parseArray` looks for a bracket where the element begins and for a brace
one token further. A scalar has a comma there, a nested object its first
key or its closer, and a nested array is decided before; so the second
test never holds on a well-formed array. A nested object then falls
through to `_parseValue`, which has no case for a brace and leaves the
element unassigned (`arrayEntry_of_isObject`). Every other element is
dispatched by its own first token (`arrayEntry_of_not_isObject`).

No `sorry`, no `axiom`, no `native_decide`.
-/
import CWebServer.Json.Items

namespace CWebServer.Json

open Libc Nesting

/-- The tokens of an element. -/
structure Element where
  tokens : List Token
  isValue : IsValue (tokens.map Token.type)

/-- `ts` is the array with the given elements. -/
def ArrayTokens (elements : List Element) (ts : List Token) : Prop :=
  ItemsOf .leftBracket (elements.map Element.tokens) ts

theorem item_of_mem_elements {elements : List Element} {v : List Token}
    (hv : v ∈ elements.map Element.tokens) : Item v := by
  obtain ⟨e, -, rfl⟩ := List.mem_map.mp hv
  exact e.isValue.item

/-! ## Every array has its elements -/

theorem IsElements.exists_elements : ∀ {w : List TokenType}, IsElements w →
    ∀ {v : List Token}, v.map Token.type = w →
      ∃ (e : Element) (es : List Element),
        Separated IsComma (e.tokens :: es.map Element.tokens) v
  | _, .one h, v, hv => ⟨⟨v, by rw [hv]; exact h⟩, [], .one v⟩
  | _, .cons h hw, v, hv => by
      obtain ⟨u, x, rfl, hu, hx⟩ := List.map_eq_append_iff.mp hv
      obtain ⟨comma, rest, rfl, hcomma, hrest⟩ := List.map_eq_cons_iff.mp hx
      obtain ⟨e, es, hes⟩ := hw.exists_elements hrest
      exact ⟨⟨u, by rw [hu]; exact h⟩, e :: es, .cons hcomma hes⟩

theorem exists_arrayTokens {ts : List Token} (h : IsArray (ts.map Token.type)) :
    ∃ elements, ArrayTokens elements ts := by
  generalize hw : ts.map Token.type = w at h
  cases h with
  | empty =>
    obtain ⟨o, u, c, rfl, ho, hu, hc⟩ := map_bracketed (w := []) hw
    rw [List.map_eq_nil_iff.mp hu]
    exact ⟨[], .mk ho (by rw [hc]; rfl) .nil⟩
  | elements he =>
    obtain ⟨o, u, c, rfl, ho, hu, hc⟩ := map_bracketed hw
    obtain ⟨e, es, hes⟩ := he.exists_elements hu
    exact ⟨e :: es, .mk ho (by rw [hc]; rfl) hes⟩

/-! ## One element -/

/-- An object begins with a brace, and no second brace. -/
theorem IsObject.begins {v : List Token} (h : IsObject (v.map Token.type)) :
    ∃ o u rest, v = o :: u :: rest ∧ o.type = .leftBrace ∧ u.type ≠ .leftBrace := by
  generalize hw : v.map Token.type = w at h
  cases h with
  | empty =>
    obtain ⟨o, x, rfl, ho, hx⟩ := List.map_eq_cons_iff.mp hw
    obtain ⟨u, y, rfl, hu, -⟩ := List.map_eq_cons_iff.mp hx
    exact ⟨o, u, y, rfl, ho, by simp [hu]⟩
  | members hm =>
    obtain ⟨o, x, rfl, ho, hx⟩ := List.map_eq_cons_iff.mp hw
    have hkey : ∃ u y, x = u :: y ∧ u.type = .string := by
      cases hm with
      | one hv =>
        obtain ⟨u, y, rfl, hu, -⟩ := List.map_eq_cons_iff.mp hx
        exact ⟨u, y, rfl, hu⟩
      | cons hv hrest =>
        obtain ⟨u, y, rfl, hu, -⟩ := List.map_eq_cons_iff.mp hx
        exact ⟨u, y, rfl, hu⟩
    obtain ⟨u, y, rfl, hu⟩ := hkey
    exact ⟨o, u, y, rfl, ho, by simp [hu]⟩

section

variable {tokens : TokensArray} {i : Nat} {v s : List Token} {c : Token}
  (hstands : StandsAt tokens (i + 1) (v ++ c :: s)) (hc : IsComma c)

include hstands

/-- An object element is left unassigned. -/
theorem arrayEntry_of_isObject {object : Nat → Except Fault (Option JsonObject)}
    {array : Nat → Except Fault (Option JsonArray)} (hv : IsObject (v.map Token.type)) :
    arrayEntry tokens object array i = .ok .indeterminate := by
  obtain ⟨o, u, rest, rfl, ho, hu⟩ := hv.begins
  have hfirst : tokens.tokens[i + 1]? = some o := hstands.getElem? (i := 0) (by simp)
  have hsecond : tokens.tokens[i + 2]? = some u := hstands.getElem? (i := 1) (by simp)
  obtain ⟨hlt, -⟩ := List.getElem?_eq_some_iff.mp hsecond
  refine (arrayEntry_iff hlt).mpr ⟨o, u, hfirst, hsecond, .inr (.inr ⟨?_, hu, ?_⟩)⟩
  · rw [ho]
    nofun
  · simp [parseValue, ho]

/-- Its own first token would have made it an object. -/
theorem valueAt_ne_indeterminate (hv : IsObject (v.map Token.type)) :
    valueAt tokens (i + 1) ≠ .ok .indeterminate := by
  obtain ⟨o, u, rest, rfl, ho, -⟩ := hv.begins
  have hfirst : tokens.tokens[i + 1]? = some o := hstands.getElem? (i := 0) (by simp)
  rw [ne_eq, valueAt_iff hfirst]
  simp [ho]

include hc

/-- Every other element is dispatched by its first token. -/
theorem arrayEntry_of_not_isObject (hvalue : IsValue (v.map Token.type))
    (hv : ¬ IsObject (v.map Token.type)) {value : JsonValue} :
    arrayEntry tokens (parseObject tokens) (parseArray tokens) i = .ok value ↔
      valueAt tokens (i + 1) = .ok value := by
  have hnext : ∃ t second, tokens.tokens[i + 1]? = some t ∧ tokens.tokens[i + 2]? = some second ∧
      t.type ≠ .leftBrace ∧ (t.type = .leftBracket ∨ second.type ≠ .leftBrace) := by
    rcases hvalue.cases_tokens with ⟨t, rfl, ht⟩ | hobject | harray
    · refine ⟨t, c, hstands.getElem? (i := 0) (by simp), hstands.getElem? (i := 1) (by simp),
        ?_, .inr (by rw [show c.type = .comma from hc]; nofun)⟩
      intro htype
      rw [htype] at ht
      simp at ht
    · exact absurd hobject hv
    · cases harray.bracketed with
      | @mk o c' w ho _ _ =>
        have hlen : 1 < (o :: (w ++ [c']) ++ c :: s).length := by
          simp only [List.length_append, List.length_cons]
          omega
        exact ⟨o, _, hstands.getElem? (i := 0) (by simp),
          (hstands.getElem? hlen).trans (List.getElem?_eq_getElem hlen),
          by rw [ho]; nofun, .inl ho⟩
  obtain ⟨t, second, ht, hsecond, hbrace, hor⟩ := hnext
  obtain ⟨hlt, -⟩ := List.getElem?_eq_some_iff.mp hsecond
  rw [arrayEntry_iff hlt, valueAt_iff ht]
  simp only [ht, hsecond, Option.some.injEq, exists_eq_left', exists_and_left, hbrace, false_and,
    false_or, ne_eq, not_false_eq_true, true_and]
  rcases hor with hbracket | hsec
  · simp [hbracket]
  · simp [hsec]

end

/-! ## Dispatch -/

section

variable {tokens : TokensArray} {start : Nat} {ts : List Token}
  (hstands : StandsAt tokens start ts) {elements : List Element}
  (helements : ArrayTokens elements ts)

include hstands helements

/-- What a call returns on an array of the grammar: an entry for every
element but the last, each by the loop body one below the element. -/
theorem parseArray_arrayTokens {r : Option JsonArray} (h : parseArray tokens start = .ok r) :
    ∃ a, r = some a ∧ a.length = elements.length - 1 ∧
      ∀ j value, a[j]? = some value →
        arrayEntry tokens (parseObject tokens) (parseArray tokens)
          (start + itemStart (elements.map Element.tokens) j) = .ok value := by
  have hitems : ∀ v ∈ elements.map Element.tokens, Item v := fun v => item_of_mem_elements
  rw [parseArray_window hstands (ItemsOf.bracketed helements hitems)] at h
  simpa using (parseEntries_items helements hstands hitems).mp h

/-- Every element but the last has a comma behind it. -/
theorem standsAt_element {j : Nat} {e : Element} (he : elements[j]? = some e)
    (hj : j < elements.length - 1) :
    ∃ c s, IsComma c ∧ StandsAt tokens
      (start + itemStart (elements.map Element.tokens) j + 1) (e.tokens ++ c :: s) := by
  obtain ⟨s, hs, hcomma⟩ := ItemsOf.standsAt helements hstands
    (show (elements.map Element.tokens)[j]? = some e.tokens by simp [he])
  obtain ⟨c, s, rfl, hc⟩ := hcomma (by rw [List.length_map]; omega)
  exact ⟨c, s, hc, hs⟩

end

end CWebServer.Json
