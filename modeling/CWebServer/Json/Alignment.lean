/-
CWebServer.Json.Alignment — a well-formed object or array is returned entry
for entry.

The parser duplicates the literals of keys and strings and converts those
of numbers without asking whether they are there. With every literal in its
place a stretch of the grammar is always parsed to the end
(`parse_of_literals`, by induction on its length: each nested call is at a
shorter stretch). Without one the parse stops there, and in no other way.

What is returned is, for an object, each member under its own key
(`parseObject_members`), and for an array, each element as what it is,
unless it is an object (`parseArray_elements_iff`). The last member and the
last element are not read.

No `sorry`, no `axiom`, no `native_decide`.
-/
import CWebServer.Json.Acceptance
import CWebServer.Json.Elements
import CWebServer.Json.Members

namespace CWebServer.Json

open Libc Nesting

/-! ## Parsed to the end -/

/-- Every string and number has its literal. -/
def LiteralsIn (ts : List Token) : Prop := ∀ t ∈ ts, t.LiteralRead

theorem LiteralsIn.of_subset {ts us : List Token} (h : LiteralsIn us) (hsub : ts ⊆ us) :
    LiteralsIn ts :=
  fun t ht => h t (hsub ht)

theorem not_literalsIn {ts : List Token} (h : ¬ LiteralsIn ts) : ∃ t ∈ ts, ¬ t.LiteralRead := by
  simpa [LiteralsIn] using h

/-- The tokens of an item are in the stretch, which is longer. -/
theorem ItemsOf.item_within {opening : TokenType} {items : List (List Token)} {ts : List Token}
    (h : ItemsOf opening items ts) {j : Nat} {v : List Token} (hv : items[j]? = some v) :
    v.length < ts.length ∧ v ⊆ ts := by
  cases h with
  | mk ho hc hw =>
    obtain ⟨p, s, rfl, -, -⟩ := hw.split hv
    constructor
    · simp only [List.length_cons, List.length_append]
      omega
    · intro t ht
      simp [ht]

section

variable {tokens : TokensArray} {n : Nat}
  (ih : ∀ ts : List Token, ts.length < n → LiteralsIn ts → IsValue (ts.map Token.type) →
    ∀ p, StandsAt tokens p ts → ∃ value, valueAt tokens p = .ok value)
  {ts : List Token} (hlen : ts.length ≤ n) (hliterals : LiteralsIn ts) {start : Nat}
  (hstands : StandsAt tokens start ts)

include ih hlen hliterals hstands

theorem parseObject_of_values (hobject : IsObject (ts.map Token.type)) :
    ∃ o, parseObject tokens start = .ok (some o) := by
  obtain ⟨members, hmembers⟩ := exists_objectTokens hobject
  have hitems : ∀ v ∈ members.map Member.tokens, Item v := fun v => item_of_mem_members
  rw [parseObject_window hstands (ItemsOf.bracketed hmembers hitems)]
  refine exists_entries hmembers hstands hitems fun j hj => ?_
  rw [List.length_map] at hj
  obtain ⟨member, hmember⟩ : ∃ member, members[j]? = some member :=
    ⟨_, List.getElem?_eq_getElem (show j < members.length by omega)⟩
  obtain ⟨hlt, hsub⟩ := ItemsOf.item_within hmembers
    (show (members.map Member.tokens)[j]? = some member.tokens by simp [hmember])
  have hmliterals := hliterals.of_subset hsub
  obtain ⟨-, hstandsValue⟩ := standsAt_member hstands hmembers hmember
  have hshort : member.value.length < n := by
    simp only [Member.tokens, List.length_cons] at hlt
    omega
  obtain ⟨value, hvalue⟩ := ih member.value hshort
    (hmliterals.of_subset fun t ht => by simp [Member.tokens, ht]) member.isValue _ hstandsValue
  have hkey : member.key.literal ≠ none :=
    hmliterals member.key (by simp [Member.tokens]) (.inl member.key_type)
  exact ⟨⟨member.key.literal, value⟩, (objectEntry_member_iff hstands hmembers hmember).mpr
    ⟨strdup_ok_iff.mpr ⟨rfl, hkey⟩, hvalue⟩⟩

theorem parseArray_of_values (harray : IsArray (ts.map Token.type)) :
    ∃ a, parseArray tokens start = .ok (some a) := by
  obtain ⟨elements, helements⟩ := exists_arrayTokens harray
  have hitems : ∀ v ∈ elements.map Element.tokens, Item v := fun v => item_of_mem_elements
  rw [parseArray_window hstands (ItemsOf.bracketed helements hitems)]
  refine exists_entries helements hstands hitems fun j hj => ?_
  rw [List.length_map] at hj
  obtain ⟨e, he⟩ : ∃ e, elements[j]? = some e :=
    ⟨_, List.getElem?_eq_getElem (show j < elements.length by omega)⟩
  obtain ⟨hlt, hsub⟩ := ItemsOf.item_within helements
    (show (elements.map Element.tokens)[j]? = some e.tokens by simp [he])
  obtain ⟨c, s, hc, hs⟩ := standsAt_element hstands helements he hj
  by_cases hobject : IsObject (e.tokens.map Token.type)
  · exact ⟨_, arrayEntry_of_isObject hs hobject⟩
  · obtain ⟨value, hvalue⟩ := ih e.tokens (by omega) (hliterals.of_subset hsub) e.isValue _ hs.left
    exact ⟨value, (arrayEntry_of_not_isObject hs hc e.isValue hobject).mpr hvalue⟩

end

/-- A value of the grammar with its literals is parsed to the end, wherever
it stands. -/
theorem valueAt_of_literals (tokens : TokensArray) (n : Nat) :
    ∀ ts : List Token, ts.length < n → LiteralsIn ts → IsValue (ts.map Token.type) →
      ∀ p, StandsAt tokens p ts → ∃ value, valueAt tokens p = .ok value := by
  induction n with
  | zero => exact fun ts hlt => absurd hlt (Nat.not_lt_zero _)
  | succ n ih =>
    intro ts hlt hliterals hvalue p hstands
    have hle : ts.length ≤ n := by omega
    rcases hvalue.cases_tokens with ⟨t, rfl, ht⟩ | hobject | harray
    · have hfirst : tokens.tokens[p]? = some t := hstands.getElem? (i := 0) (by simp)
      obtain ⟨value, hv⟩ := parseValue_ok_iff.mpr (hliterals t (by simp))
      refine ⟨value, (valueAt_iff hfirst).mpr (.inr (.inr ⟨?_, ?_, hv⟩))⟩
      · intro htype
        simp [htype] at ht
      · intro htype
        simp [htype] at ht
    · obtain ⟨o, ho⟩ := parseObject_of_values ih hle hliterals hstands hobject
      cases hobject.bracketed with
      | @mk t c v htype _ _ =>
        have hfirst : tokens.tokens[p]? = some t := hstands.getElem? (i := 0) (by simp)
        exact ⟨_, (valueAt_iff hfirst).mpr (.inl ⟨htype, _, ho, rfl⟩)⟩
    · obtain ⟨a, ha⟩ := parseArray_of_values ih hle hliterals hstands harray
      cases harray.bracketed with
      | @mk t c v htype _ _ =>
        have hfirst : tokens.tokens[p]? = some t := hstands.getElem? (i := 0) (by simp)
        exact ⟨_, (valueAt_iff hfirst).mpr (.inr (.inl ⟨htype, _, ha, rfl⟩))⟩

section

variable {tokens : TokensArray} {start : Nat} {ts : List Token}
  (hstands : StandsAt tokens start ts)

include hstands

/-- An object of the grammar is parsed to the end, or up to a literal that
is missing. -/
theorem parseObject_cases (hobject : IsObject (ts.map Token.type)) :
    (∃ o, parseObject tokens start = .ok (some o)) ∨
      (parseObject tokens start = .error .nullPointer ∧ ∃ t ∈ ts, ¬ t.LiteralRead) := by
  by_cases hliterals : LiteralsIn ts
  · exact .inl (parseObject_of_values (valueAt_of_literals tokens ts.length) (Nat.le_refl _)
      hliterals hstands hobject)
  · have hwide := (IsValue.object hobject).item.no_eof
    rcases parseObject_window_cases hstands hobject.bracketed hwide with hsome | hnull
    · exact .inl hsome
    · exact .inr ⟨hnull, not_literalsIn hliterals⟩

theorem parseArray_cases (harray : IsArray (ts.map Token.type)) :
    (∃ a, parseArray tokens start = .ok (some a)) ∨
      (parseArray tokens start = .error .nullPointer ∧ ∃ t ∈ ts, ¬ t.LiteralRead) := by
  by_cases hliterals : LiteralsIn ts
  · exact .inl (parseArray_of_values (valueAt_of_literals tokens ts.length) (Nat.le_refl _)
      hliterals hstands harray)
  · have hwide := (IsValue.array harray).item.no_eof
    rcases parseArray_window_cases hstands harray.bracketed hwide with hsome | hnull
    · exact .inl hsome
    · exact .inr ⟨hnull, not_literalsIn hliterals⟩

end

/-! ## Members -/

/-- **Member alignment**: an object of the grammar, wherever it stands, has
members, and `parseObject` from its brace returns one property for each of
them but the last, in order, with the key of that member and the value
that begins where that member's does. Nothing else comes of it, unless a
string or a number without its literal stops the parse. -/
theorem parseObject_members {tokens : TokensArray} {start : Nat} {ts : List Token}
    (hstands : StandsAt tokens start ts) (hobject : IsObject (ts.map Token.type)) :
    (∃ members, ObjectTokens members ts) ∧ ∀ members, ObjectTokens members ts →
      (∃ o, parseObject tokens start = .ok (some o) ∧ o.length = members.length - 1 ∧
        ∀ j property, o[j]? = some property → ∃ member, members[j]? = some member ∧
          ∃ p, p = start + itemStart (members.map Member.tokens) j + 1 ∧
            StandsAt tokens p member.tokens ∧ property.key = member.key.literal ∧
            valueAt tokens (p + 2) = .ok property.value) ∨
      (parseObject tokens start = .error .nullPointer ∧ ∃ t ∈ ts, ¬ t.LiteralRead) := by
  refine ⟨exists_objectTokens hobject, fun members hmembers => ?_⟩
  rcases parseObject_cases hstands hobject with ⟨o, hparse⟩ | hnull
  · obtain ⟨o', ho', hlen, hall⟩ := parseObject_objectTokens hstands hmembers hparse
    obtain rfl := Option.some.inj ho'
    refine .inl ⟨o, hparse, hlen, fun j property hj => ?_⟩
    obtain ⟨hlt, -⟩ := List.getElem?_eq_some_iff.mp hj
    obtain ⟨member, hmember⟩ : ∃ member, members[j]? = some member :=
      ⟨_, List.getElem?_eq_getElem (show j < members.length by omega)⟩
    obtain ⟨hcopy, hvalue⟩ := (objectEntry_member_iff hstands hmembers hmember).mp
      (hall j property hj)
    exact ⟨member, hmember, _, rfl, (standsAt_member hstands hmembers hmember).1,
      (strdup_ok_iff.mp hcopy).1, hvalue⟩
  · exact .inr hnull

/-- `{"a":[1,2],"b":true}` behind a comma and before a brace: the first
member comes back, its key with its array. -/
theorem parseObject_members_array :
    let ts : List Token := [⟨.leftBrace, none⟩, ⟨.string, some ['a']⟩, ⟨.colon, none⟩,
      ⟨.leftBracket, none⟩, ⟨.number, some ['1']⟩, ⟨.comma, none⟩, ⟨.number, some ['2']⟩,
      ⟨.rightBracket, none⟩, ⟨.comma, none⟩, ⟨.string, some ['b']⟩, ⟨.colon, none⟩,
      ⟨.jsonTrue, none⟩, ⟨.rightBrace, none⟩]
    let tokens : TokensArray :=
      { tokens := ⟨.comma, none⟩ :: (ts ++ [⟨.rightBrace, none⟩, ⟨.eof, none⟩]), length := 16 }
    let property : ObjectProperty :=
      { key := some ['a'], value := .array (some [.number (some ['1'])]) }
    parseObject tokens 1 = .ok (some [property]) ∧
      ∃ members member, ObjectTokens members ts ∧ members.length = 2 ∧
        members[0]? = some member ∧ property.key = member.key.literal ∧
        valueAt tokens (1 + itemStart (members.map Member.tokens) 0 + 1 + 2) =
          .ok property.value := by
  intro ts tokens property
  have hparse : parseObject tokens 1 = .ok (some [property]) := rfl
  have hstands : StandsAt tokens 1 ts := List.prefix_append _ _
  have harray := IsArray.elements (IsElements.cons IsValue.number (IsElements.one IsValue.number))
  have hcontents := IsMembers.cons (IsValue.array harray) (IsMembers.one IsValue.jsonTrue)
  obtain ⟨⟨members, hmembers⟩, hall⟩ := parseObject_members hstands (IsObject.members hcontents)
  rcases hall members hmembers with ⟨o, ho, hlen, halign⟩ | ⟨hnull, -⟩
  · rw [hparse, Except.ok.injEq, Option.some.injEq] at ho
    subst ho
    obtain ⟨member, hmember, p, rfl, -, hkey, hvalue⟩ := halign 0 property rfl
    have htwo : members.length = 2 := by
      simp only [List.length_cons, List.length_nil] at hlen
      omega
    exact ⟨hparse, members, member, hmembers, htwo, hmember, hkey, hvalue⟩
  · rw [hparse] at hnull
    cases hnull

/-! ## Elements -/

/-- Every element returned is the value that begins where the element of
the same index does. -/
def DispatchesElements (tokens : TokensArray) (start : Nat) (elements : List Element) : Prop :=
  ∃ a, parseArray tokens start = .ok (some a) ∧ ∀ j value, a[j]? = some value →
    valueAt tokens (start + itemStart (elements.map Element.tokens) j + 1) = .ok value

/-- Of an array that is parsed to the end. -/
theorem dispatchesElements_iff {tokens : TokensArray} {start : Nat} {ts : List Token}
    (hstands : StandsAt tokens start ts) {elements : List Element}
    (helements : ArrayTokens elements ts) {a : JsonArray}
    (hparse : parseArray tokens start = .ok (some a)) :
    DispatchesElements tokens start elements ↔
      ∀ e ∈ elements.dropLast, ¬ IsObject (e.tokens.map Token.type) := by
  obtain ⟨_, ha, hlen, hall⟩ := parseArray_arrayTokens hstands helements hparse
  obtain rfl := Option.some.inj ha
  constructor
  · intro h e he hobject
    obtain ⟨a', hparse', hvalues⟩ := h
    rw [hparse, Except.ok.injEq, Option.some.injEq] at hparse'
    subst hparse'
    obtain ⟨j, hj, rfl⟩ := List.mem_iff_getElem.mp he
    rw [List.length_dropLast] at hj
    have hget : elements[j]? = some elements.dropLast[j] := by
      rw [List.getElem_dropLast]
      exact List.getElem?_eq_getElem (by omega)
    obtain ⟨c, s, -, hs⟩ := standsAt_element hstands helements hget hj
    have haj : a[j]? = some a[j] := List.getElem?_eq_getElem (by omega)
    have hind := (hall j a[j] haj).symm.trans (arrayEntry_of_isObject hs hobject)
    refine valueAt_ne_indeterminate hs hobject ?_
    rw [hvalues j a[j] haj, hind]
  · intro h
    refine ⟨a, hparse, fun j value hj => ?_⟩
    obtain ⟨hja, -⟩ := List.getElem?_eq_some_iff.mp hj
    have hget : elements[j]? = some elements[j] := List.getElem?_eq_getElem (by omega)
    obtain ⟨c, s, hc, hs⟩ := standsAt_element hstands helements hget (by omega)
    have hmem : elements[j] ∈ elements.dropLast :=
      List.mem_iff_getElem.mpr ⟨j, by rw [List.length_dropLast]; omega, List.getElem_dropLast _⟩
    exact (arrayEntry_of_not_isObject hs hc elements[j].isValue (h _ hmem)).mp (hall j value hj)

/-- An array of the grammar is parsed to the end exactly when no literal is
missing where the parse of its tokens reads one. -/
theorem parseArray_some_iff {tokens : TokensArray} {start : Nat} {ts : List Token}
    (hstands : StandsAt tokens start ts) (harray : IsArray (ts.map Token.type)) :
    (∃ a, parseArray tokens start = .ok (some a)) ↔
      LiteralsPresent (ended ts) (.call (.array 0)) := by
  have heof := eofTerminated_ended (IsValue.array harray).item.no_eof
  rw [← parseArray_ok_iff heof (List.length_pos_iff.mpr heof.ne_nil),
    ← parseArray_local hstands (standsAt_ended ts) harray.bracketed]
  constructor
  · intro h
    obtain ⟨a, ha⟩ := h
    exact ⟨some a, ha⟩
  · intro h
    obtain ⟨r, hr⟩ := h
    rcases parseArray_cases hstands harray with hsome | ⟨hnull, -⟩
    · exact hsome
    · rw [hr] at hnull
      cases hnull

/-- **Element dispatch**: an array of the grammar, wherever it stands, has
elements, and `parseArray` from its bracket returns each element as the
value that begins where it does exactly when no element but the last is an
object, and no literal is missing where the parse of the array reads one. -/
theorem parseArray_elements_iff {tokens : TokensArray} {start : Nat} {ts : List Token}
    (hstands : StandsAt tokens start ts) (harray : IsArray (ts.map Token.type)) :
    (∃ elements, ArrayTokens elements ts) ∧ ∀ elements, ArrayTokens elements ts →
      (DispatchesElements tokens start elements ↔
        (∀ e ∈ elements.dropLast, ¬ IsObject (e.tokens.map Token.type)) ∧
          LiteralsPresent (ended ts) (.call (.array 0))) := by
  refine ⟨exists_arrayTokens harray, fun elements helements => ?_⟩
  rw [← parseArray_some_iff hstands harray]
  constructor
  · intro h
    have ⟨a, hparse, _⟩ := h
    exact ⟨(dispatchesElements_iff hstands helements hparse).mp h, a, hparse⟩
  · intro h
    obtain ⟨hall, a, hparse⟩ := h
    exact (dispatchesElements_iff hstands helements hparse).mpr hall

/-- `[[],1,{}]` behind a comma and before a bracket: the two elements kept
are no objects, and are dispatched. -/
theorem parseArray_elements_iff_mixed :
    let ts : List Token := [⟨.leftBracket, none⟩, ⟨.leftBracket, none⟩, ⟨.rightBracket, none⟩,
      ⟨.comma, none⟩, ⟨.number, some ['1']⟩, ⟨.comma, none⟩, ⟨.leftBrace, none⟩,
      ⟨.rightBrace, none⟩, ⟨.rightBracket, none⟩]
    let tokens : TokensArray :=
      { tokens := ⟨.comma, none⟩ :: (ts ++ [⟨.rightBracket, none⟩, ⟨.eof, none⟩]), length := 12 }
    parseArray tokens 1 = .ok (some [.array (some []), .number (some ['1'])]) ∧
      ∃ elements, ArrayTokens elements ts ∧ (DispatchesElements tokens 1 elements ↔
        (∀ e ∈ elements.dropLast, ¬ IsObject (e.tokens.map Token.type)) ∧
          LiteralsPresent (ended ts) (.call (.array 0))) := by
  intro ts tokens
  have hparse : parseArray tokens 1 = .ok (some [.array (some []), .number (some ['1'])]) := rfl
  have hrest := IsElements.cons IsValue.number (IsElements.one (IsValue.object IsObject.empty))
  have hcontents := IsElements.cons (IsValue.array IsArray.empty) hrest
  have hstands : StandsAt tokens 1 ts := List.prefix_append _ _
  obtain ⟨⟨elements, helements⟩, hall⟩ :=
    parseArray_elements_iff hstands (IsArray.elements hcontents)
  exact ⟨hparse, elements, helements, hall elements helements⟩

/-- `[{},1]`: the first element is an object, and is stored as none. -/
theorem parseArray_drops_object :
    let object : Element := ⟨[⟨.leftBrace, none⟩, ⟨.rightBrace, none⟩], .object .empty⟩
    let one : Element := ⟨[⟨.number, some ['1']⟩], .number⟩
    let ts : List Token := ⟨.leftBracket, none⟩ ::
      ((object.tokens ++ ⟨.comma, none⟩ :: one.tokens) ++ [⟨.rightBracket, none⟩])
    let tokens : TokensArray := { tokens := ts ++ [⟨.eof, none⟩], length := 7 }
    IsArray (ts.map Token.type) ∧ ArrayTokens [object, one] ts ∧
      parseArray tokens 0 = .ok (some [.indeterminate]) ∧
      valueAt tokens 1 = .ok (.object (some [])) ∧
      ¬ DispatchesElements tokens 0 [object, one] := by
  intro object one ts tokens
  have hparse : parseArray tokens 0 = .ok (some [.indeterminate]) := rfl
  have hvalue : valueAt tokens 1 = .ok (.object (some [])) := rfl
  refine ⟨?_, .mk rfl rfl (.cons rfl (.one _)), hparse, hvalue, ?_⟩
  · exact .elements (.cons (v := [.leftBrace, .rightBrace]) (.object .empty) (.one .number))
  · intro h
    obtain ⟨a, ha, hvalues⟩ := h
    rw [hparse, Except.ok.injEq, Option.some.injEq] at ha
    subst ha
    have hfirst := hvalues 0 .indeterminate rfl
    rw [show 0 + itemStart ([object, one].map Element.tokens) 0 + 1 = 1 from rfl, hvalue,
      Except.ok.injEq] at hfirst
    cases hfirst

end CWebServer.Json
