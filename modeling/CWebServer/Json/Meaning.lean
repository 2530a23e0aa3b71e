/-
CWebServer.Json.Meaning — what the parser returns for the text of a tree.

`JsonTree.parsed` says it at every depth: an object without its last
member, an array without its last element, and an element that is an
object left unassigned. `valueAt_parsed` is the induction over the tree.
Each case is one nested call, which runs at every entry but the last
(`parseObject_objectTokens`, `parseArray_arrayTokens`), and what carries
it is that an entry's tokens stand where its body looks for them
(`objectEntry_treeMember`, `arrayEntry_treeElement`).

Hence the trees the parser can return at all (`parseText_range`): those
with no object directly in an array. A text that yields such a tree has
one more member in each object and one more element in each array
(`JsonTree.padded`).

No `sorry`, no `axiom`, no `native_decide`.
-/
import CWebServer.Json.Elements
import CWebServer.Json.RoundTrip

namespace CWebServer.Json

open Libc Nesting

/-! ## What is kept -/

def JsonTree.isObject : JsonTree → Bool
  | .object _ => true
  | .string _ | .number _ | .bool _ | .null | .array _ => false

mutual

/-- The value stored for a tree. -/
def JsonTree.parsed : JsonTree → JsonValue
  | .string s => .string (some s.chars)
  | .number n => .number (some n.chars)
  | .bool true => .boolean 1
  | .bool false => .boolean 0
  | .null => .null
  | .object ms => .object (some (membersParsed ms))
  | .array es => .array (some (elementsParsed es))

/-- The last member is not read. -/
def membersParsed : List (PlainString × JsonTree) → JsonObject
  | [] => []
  | [_] => []
  | (k, v) :: m :: ms => { key := some k.chars, value := v.parsed } :: membersParsed (m :: ms)

/-- The last element is not read, and an object has no case. -/
def elementsParsed : List JsonTree → JsonArray
  | [] => []
  | [_] => []
  | v :: e :: es =>
    (if v.isObject then .indeterminate else v.parsed) :: elementsParsed (e :: es)

end

theorem membersParsed_eq (ms : List (PlainString × JsonTree)) :
    membersParsed ms =
      ms.dropLast.map fun m => { key := some m.1.chars, value := m.2.parsed } := by
  induction ms with
  | nil => simp [membersParsed]
  | cons m ms ih =>
    cases ms with
    | nil => simp [membersParsed]
    | cons n ms => simp [membersParsed, ih]

theorem elementsParsed_eq (es : List JsonTree) :
    elementsParsed es =
      es.dropLast.map fun v => if v.isObject then .indeterminate else v.parsed := by
  induction es with
  | nil => simp [elementsParsed]
  | cons v es ih =>
    cases es with
    | nil => simp [elementsParsed]
    | cons e es => simp [elementsParsed, ih]

/-! ## Elements of a tree -/

/-- An element of a tree, in tokens. -/
def treeElement (v : JsonTree) : Element where
  tokens := v.tokens
  isValue := v.isValue_tokens

theorem separated_elementsTokens (es : List JsonTree) :
    Separated IsComma ((es.map treeElement).map Element.tokens) (elementsTokens es) := by
  induction es with
  | nil =>
    rw [elementsTokens]
    exact .nil
  | cons v es ih =>
    cases es with
    | nil =>
      rw [elementsTokens]
      exact .one _
    | cons e es =>
      rw [elementsTokens]
      exact .cons (v := (treeElement v).tokens) rfl ih

theorem arrayTokens_tree (es : List JsonTree) :
    ArrayTokens (es.map treeElement) (JsonTree.array es).tokens := by
  rw [JsonTree.tokens]
  exact .mk rfl rfl (separated_elementsTokens es)

/-- A tree that is an object is one in tokens. -/
theorem isObject_tokens_iff (v : JsonTree) :
    IsObject (v.tokens.map Token.type) ↔ v.isObject = true := by
  constructor
  · intro h
    obtain ⟨o, u, rest, heq, ho, -⟩ := h.begins
    cases v with
    | object ms => rfl
    | bool b => cases b <;> simp [JsonTree.tokens] at heq
    | array es =>
      rw [JsonTree.tokens] at heq
      rw [← (List.cons.inj heq).1] at ho
      cases ho
    | string | number | null => simp [JsonTree.tokens] at heq
  · intro h
    cases v with
    | object ms =>
      cases ms with
      | nil => simpa [JsonTree.tokens, membersTokens] using IsObject.empty
      | cons m ms =>
        simpa [JsonTree.tokens] using IsObject.members (isMembers_tokens (m :: ms) (by simp))
    | string | number | bool | null | array => simp [JsonTree.isObject] at h

/-! ## One call -/

section

variable {tokens : TokensArray} {start : Nat}

/-- The property made of a member whose value is parsed as it should be. -/
theorem objectEntry_treeMember {ms : List (PlainString × JsonTree)}
    (hstands : StandsAt tokens start (JsonTree.object ms).tokens) {j : Nat}
    {m : PlainString × JsonTree} (hm : ms[j]? = some m)
    (hvalue : ∀ p, StandsAt tokens p m.2.tokens → valueAt tokens p = .ok m.2.parsed) :
    objectEntry tokens (parseObject tokens) (parseArray tokens)
        (start + itemStart ((ms.map treeMember).map Member.tokens) j) =
      .ok { key := some m.1.chars, value := m.2.parsed } := by
  have hmember : (ms.map treeMember)[j]? = some (treeMember m) := by simp [hm]
  obtain ⟨-, hat⟩ := standsAt_member hstands (objectTokens_tree ms) hmember
  exact (objectEntry_member_iff hstands (objectTokens_tree ms) hmember).mpr ⟨rfl, hvalue _ hat⟩

/-- An object whose values are parsed as they should be. -/
theorem parseObject_membersParsed {ms : List (PlainString × JsonTree)}
    (hstands : StandsAt tokens start (JsonTree.object ms).tokens)
    (hms : ∀ m ∈ ms, ∀ p, StandsAt tokens p m.2.tokens → valueAt tokens p = .ok m.2.parsed) :
    parseObject tokens start = .ok (some (membersParsed ms)) := by
  have hmembers := objectTokens_tree ms
  have hitems : ∀ v ∈ (ms.map treeMember).map Member.tokens, Item v := fun v => item_of_mem_members
  have hentry : ∀ j (hj : j < ms.length),
      objectEntry tokens (parseObject tokens) (parseArray tokens)
          (start + itemStart ((ms.map treeMember).map Member.tokens) j) =
        .ok { key := some ms[j].1.chars, value := ms[j].2.parsed } := fun j hj =>
    objectEntry_treeMember hstands (List.getElem?_eq_getElem hj) (hms _ (List.getElem_mem hj))
  have hparse : ∃ o, parseObject tokens start = .ok (some o) := by
    rw [parseObject_window hstands (ItemsOf.bracketed hmembers hitems)]
    refine exists_entries hmembers hstands hitems fun j hj => ?_
    rw [List.length_map, List.length_map] at hj
    exact ⟨_, hentry j (by omega)⟩
  obtain ⟨o, hparse⟩ := hparse
  obtain ⟨_, ho, hlen, hall⟩ := parseObject_objectTokens hstands hmembers hparse
  obtain rfl := Option.some.inj ho
  rw [List.length_map] at hlen
  rw [hparse]
  refine congrArg (Except.ok ∘ some) (List.ext_getElem ?_ fun j hj hj' => ?_)
  · rw [hlen, membersParsed_eq, List.length_map, List.length_dropLast]
  · have hbody := hall j o[j] (List.getElem?_eq_getElem hj)
    rw [hentry j (by omega), Except.ok.injEq] at hbody
    simp only [membersParsed_eq, List.getElem_map, List.getElem_dropLast]
    exact hbody.symm

/-- The element stored for one whose value is parsed as it should be. -/
theorem arrayEntry_treeElement {es : List JsonTree}
    (hstands : StandsAt tokens start (JsonTree.array es).tokens) {j : Nat} {e : JsonTree}
    (he : es[j]? = some e) (hj : j < es.length - 1)
    (hvalue : ∀ p, StandsAt tokens p e.tokens → valueAt tokens p = .ok e.parsed) :
    arrayEntry tokens (parseObject tokens) (parseArray tokens)
        (start + itemStart ((es.map treeElement).map Element.tokens) j) =
      .ok (if e.isObject then .indeterminate else e.parsed) := by
  have helement : (es.map treeElement)[j]? = some (treeElement e) := by simp [he]
  obtain ⟨c, s, hc, hs⟩ := standsAt_element hstands (arrayTokens_tree es) helement
    (by rwa [List.length_map])
  by_cases hobject : e.isObject = true
  · rw [if_pos hobject]
    exact arrayEntry_of_isObject hs ((isObject_tokens_iff e).mpr hobject)
  · rw [if_neg hobject]
    exact (arrayEntry_of_not_isObject hs hc e.isValue_tokens
      fun h => hobject ((isObject_tokens_iff e).mp h)).mpr (hvalue _ hs.left)

/-- An array whose elements are parsed as they should be. -/
theorem parseArray_elementsParsed {es : List JsonTree}
    (hstands : StandsAt tokens start (JsonTree.array es).tokens)
    (hes : ∀ e ∈ es, ∀ p, StandsAt tokens p e.tokens → valueAt tokens p = .ok e.parsed) :
    parseArray tokens start = .ok (some (elementsParsed es)) := by
  have helements := arrayTokens_tree es
  have hitems : ∀ v ∈ (es.map treeElement).map Element.tokens, Item v := fun v =>
    item_of_mem_elements
  have hentry : ∀ j (hlt : j < es.length), j < es.length - 1 →
      arrayEntry tokens (parseObject tokens) (parseArray tokens)
          (start + itemStart ((es.map treeElement).map Element.tokens) j) =
        .ok (if es[j].isObject then .indeterminate else es[j].parsed) := fun j hlt hj =>
    arrayEntry_treeElement hstands (List.getElem?_eq_getElem hlt) hj (hes _ (List.getElem_mem hlt))
  have hparse : ∃ a, parseArray tokens start = .ok (some a) := by
    rw [parseArray_window hstands (ItemsOf.bracketed helements hitems)]
    refine exists_entries helements hstands hitems fun j hj => ?_
    rw [List.length_map, List.length_map] at hj
    exact ⟨_, hentry j (by omega) hj⟩
  obtain ⟨a, hparse⟩ := hparse
  obtain ⟨_, ha, hlen, hall⟩ := parseArray_arrayTokens hstands helements hparse
  obtain rfl := Option.some.inj ha
  rw [List.length_map] at hlen
  rw [hparse]
  refine congrArg (Except.ok ∘ some) (List.ext_getElem ?_ fun j hj hj' => ?_)
  · rw [hlen, elementsParsed_eq, List.length_map, List.length_dropLast]
  · have hbody := hall j a[j] (List.getElem?_eq_getElem hj)
    rw [hentry j (by omega) (by omega), Except.ok.injEq] at hbody
    simp only [elementsParsed_eq, List.getElem_map, List.getElem_dropLast]
    exact hbody.symm

theorem valueAt_scalar {t : Token} {value : JsonValue} (hstands : StandsAt tokens start [t])
    (hbrace : t.type ≠ .leftBrace) (hbracket : t.type ≠ .leftBracket)
    (hvalue : parseValue t = .ok value) : valueAt tokens start = .ok value :=
  (valueAt_iff (hstands.getElem? (i := 0) (by simp))).mpr (.inr (.inr ⟨hbrace, hbracket, hvalue⟩))

end

/-! ## Every depth -/

section

variable {tokens : TokensArray}

mutual

/-- Wherever a tree stands, the value at its first token is what is kept
of it. -/
theorem valueAt_parsed : ∀ (v : JsonTree) {p : Nat}, StandsAt tokens p v.tokens →
    valueAt tokens p = .ok v.parsed
  | .string s, p, h => by
      rw [JsonTree.tokens] at h
      rw [JsonTree.parsed]
      exact valueAt_scalar h nofun nofun rfl
  | .number n, p, h => by
      rw [JsonTree.tokens] at h
      rw [JsonTree.parsed]
      exact valueAt_scalar h nofun nofun rfl
  | .bool true, p, h => by
      rw [JsonTree.tokens] at h
      rw [JsonTree.parsed]
      exact valueAt_scalar h nofun nofun rfl
  | .bool false, p, h => by
      rw [JsonTree.tokens] at h
      rw [JsonTree.parsed]
      exact valueAt_scalar h nofun nofun rfl
  | .null, p, h => by
      rw [JsonTree.tokens] at h
      rw [JsonTree.parsed]
      exact valueAt_scalar h nofun nofun rfl
  | .object ms, p, h => by
      have hparse := parseObject_membersParsed h fun m hm p hp => members_valueAt_parsed ms m hm hp
      rw [JsonTree.tokens] at h
      have hfirst : tokens.tokens[p]? = some ⟨.leftBrace, none⟩ := h.getElem? (i := 0) (by simp)
      rw [valueAt_iff hfirst, JsonTree.parsed]
      exact .inl ⟨rfl, _, hparse, rfl⟩
  | .array es, p, h => by
      have hparse := parseArray_elementsParsed h fun e he p hp => elements_valueAt_parsed es e he hp
      rw [JsonTree.tokens] at h
      have hfirst : tokens.tokens[p]? = some ⟨.leftBracket, none⟩ := h.getElem? (i := 0) (by simp)
      rw [valueAt_iff hfirst, JsonTree.parsed]
      exact .inr (.inl ⟨rfl, _, hparse, rfl⟩)

theorem members_valueAt_parsed : ∀ (ms : List (PlainString × JsonTree)), ∀ m ∈ ms, ∀ {p : Nat},
    StandsAt tokens p m.2.tokens → valueAt tokens p = .ok m.2.parsed
  | [], m, hm, p, h => by simp at hm
  | (k, v) :: ms, m, hm, p, h => by
      rcases List.mem_cons.mp hm with heq | hm
      · subst heq
        exact valueAt_parsed v h
      · exact members_valueAt_parsed ms m hm h

theorem elements_valueAt_parsed : ∀ (es : List JsonTree), ∀ e ∈ es, ∀ {p : Nat},
    StandsAt tokens p e.tokens → valueAt tokens p = .ok e.parsed
  | [], e, he, p, h => by simp at he
  | v :: es, e, he, p, h => by
      rcases List.mem_cons.mp he with heq | he
      · rw [heq] at h ⊢
        exact valueAt_parsed v h
      · exact elements_valueAt_parsed es e he h

end

end

/-- The object of a text is what is kept of its members. -/
theorem parseObject_treeTokens (ms : List (PlainString × JsonTree)) :
    parseObject (treeTokens (.object ms)) 0 = .ok (some (membersParsed ms)) :=
  parseObject_membersParsed (List.prefix_append _ _) fun m hm _ hp =>
    members_valueAt_parsed ms m hm hp

/-- **Meaning**: whatever the whitespace, the parser returns what is kept of
the members, at every depth. -/
theorem parseText_membersParsed (abi : Abi) (noReturn : Nat → TokenType)
    (ms : List (PlainString × JsonTree)) {text : List Char}
    (h : Renders (JsonTree.object ms).tokens text) :
    parseText abi noReturn text = .ok (some (membersParsed ms)) := by
  rw [parseText_renders abi noReturn h, parseObject_treeTokens]

/-- `{"a":[true,null],"b":{"c":"x","d":null},"e":null}`. -/
def sampleMembers : List (PlainString × JsonTree) :=
  [(⟨['a'], by decide, by decide, by decide⟩, .array [.bool true, .null]),
    (⟨['b'], by decide, by decide, by decide⟩, .object
      [(⟨['c'], by decide, by decide, by decide⟩,
          .string ⟨['x'], by decide, by decide, by decide⟩),
        (⟨['d'], by decide, by decide, by decide⟩, .null)]),
    (⟨['e'], by decide, by decide, by decide⟩, .null)]

/-- Its text, each token behind a blank. -/
def sampleText : List Char :=
  [' ', '{', ' ', '"', 'a', '"', ' ', ':', ' ', '[', ' ', 't', 'r', 'u', 'e', ' ', ',', ' ', 'n',
   'u', 'l', 'l', ' ', ']', ' ', ',', ' ', '"', 'b', '"', ' ', ':', ' ', '{', ' ', '"', 'c', '"',
   ' ', ':', ' ', '"', 'x', '"', ' ', ',', ' ', '"', 'd', '"', ' ', ':', ' ', 'n', 'u', 'l', 'l',
   ' ', '}', ' ', ',', ' ', '"', 'e', '"', ' ', ':', ' ', 'n', 'u', 'l', 'l', ' ', '}']

theorem renders_sampleText : Renders (JsonTree.object sampleMembers).tokens sampleText :=
  (JsonTree.object sampleMembers).renders_writeTokens

/-- The members `a` and `b` are kept, of the array its first element and of
the inner object its first member. -/
theorem parseText_membersParsed_sample :
    parseText ⟨4, by decide⟩ (fun _ => .illegal) sampleText =
      .ok (some
        [{ key := some ['a'], value := .array (some [.boolean 1]) },
          { key := some ['b']
            value := .object (some [{ key := some ['c'], value := .string (some ['x']) }]) }]) :=
  parseText_membersParsed ⟨4, by decide⟩ (fun _ => .illegal) sampleMembers renders_sampleText

/-! ## What can be returned -/

mutual

/-- No array in the tree has an object for an element. -/
def JsonTree.Storable : JsonTree → Prop
  | .string _ | .number _ | .bool _ | .null => True
  | .object ms => MembersStorable ms
  | .array es => ElementsStorable es

def MembersStorable : List (PlainString × JsonTree) → Prop
  | [] => True
  | (_, v) :: ms => v.Storable ∧ MembersStorable ms

def ElementsStorable : List JsonTree → Prop
  | [] => True
  | v :: es => v.isObject = false ∧ v.Storable ∧ ElementsStorable es

end

/-- A key for a member nobody reads. -/
def spareKey : PlainString := ⟨[], by simp, by simp, by simp⟩

mutual

/-- The tree with one member or element behind the others, at every depth. -/
def JsonTree.padded : JsonTree → JsonTree
  | .object ms => .object (membersPadded ms)
  | .array es => .array (elementsPadded es)
  | .string s => .string s
  | .number n => .number n
  | .bool b => .bool b
  | .null => .null

def membersPadded : List (PlainString × JsonTree) → List (PlainString × JsonTree)
  | [] => [(spareKey, .null)]
  | (k, v) :: ms => (k, v.padded) :: membersPadded ms

def elementsPadded : List JsonTree → List JsonTree
  | [] => [.null]
  | v :: es => v.padded :: elementsPadded es

end

theorem JsonTree.isObject_padded (v : JsonTree) : v.padded.isObject = v.isObject := by
  cases v <;> rfl

theorem membersParsed_cons (k : PlainString) (v : JsonTree) {ms : List (PlainString × JsonTree)}
    (h : ms ≠ []) :
    membersParsed ((k, v) :: ms) =
      { key := some k.chars, value := v.parsed } :: membersParsed ms := by
  obtain ⟨m, ms, rfl⟩ := List.exists_cons_of_ne_nil h
  rw [membersParsed]

theorem elementsParsed_cons (v : JsonTree) {es : List JsonTree} (h : es ≠ []) :
    elementsParsed (v :: es) =
      (if v.isObject then .indeterminate else v.parsed) :: elementsParsed es := by
  obtain ⟨e, es, rfl⟩ := List.exists_cons_of_ne_nil h
  rw [elementsParsed]

theorem membersPadded_ne_nil (ms : List (PlainString × JsonTree)) : membersPadded ms ≠ [] := by
  cases ms with
  | nil => simp [membersPadded]
  | cons m ms => simp [membersPadded]

theorem elementsPadded_ne_nil (es : List JsonTree) : elementsPadded es ≠ [] := by
  cases es with
  | nil => simp [elementsPadded]
  | cons e es => simp [elementsPadded]

mutual

/-- What is kept of a padded tree is the tree. -/
theorem JsonTree.parsed_padded : ∀ v : JsonTree, v.Storable → v.padded.parsed = v.value
  | .string s, _ => by rw [JsonTree.padded, JsonTree.parsed, JsonTree.value]
  | .number n, _ => by rw [JsonTree.padded, JsonTree.parsed, JsonTree.value]
  | .bool true, _ => by rw [JsonTree.padded, JsonTree.parsed, JsonTree.value]
  | .bool false, _ => by rw [JsonTree.padded, JsonTree.parsed, JsonTree.value]
  | .null, _ => by rw [JsonTree.padded, JsonTree.parsed, JsonTree.value]
  | .object ms, h => by
      rw [JsonTree.Storable] at h
      rw [JsonTree.padded, JsonTree.parsed, JsonTree.value, membersParsed_padded ms h]
  | .array es, h => by
      rw [JsonTree.Storable] at h
      rw [JsonTree.padded, JsonTree.parsed, JsonTree.value, elementsParsed_padded es h]

theorem membersParsed_padded : ∀ ms : List (PlainString × JsonTree), MembersStorable ms →
    membersParsed (membersPadded ms) = membersValue ms
  | [], _ => by rw [membersPadded, membersParsed, membersValue]
  | (k, v) :: ms, h => by
      rw [MembersStorable] at h
      obtain ⟨hv, hms⟩ := h
      rw [membersPadded, membersParsed_cons k _ (membersPadded_ne_nil ms), membersValue,
        v.parsed_padded hv, membersParsed_padded ms hms]

theorem elementsParsed_padded : ∀ es : List JsonTree, ElementsStorable es →
    elementsParsed (elementsPadded es) = elementsValue es
  | [], _ => by rw [elementsPadded, elementsParsed, elementsValue]
  | v :: es, h => by
      rw [ElementsStorable] at h
      obtain ⟨hobject, hv, hes⟩ := h
      rw [elementsPadded, elementsParsed_cons _ (elementsPadded_ne_nil es), elementsValue,
        v.isObject_padded, hobject, if_neg Bool.false_ne_true, v.parsed_padded hv,
        elementsParsed_padded es hes]

end

/-- An object is stored for an object only. -/
theorem JsonTree.isObject_of_parsed {u v : JsonTree} (h : u.parsed = v.value) :
    u.isObject = v.isObject := by
  have hu : u.isObject = match u.parsed with | .object _ => true | _ => false := by
    cases u with
    | bool b => cases b <;> simp [JsonTree.parsed, JsonTree.isObject]
    | _ => simp [JsonTree.parsed, JsonTree.isObject]
  have hv : v.isObject = match v.value with | .object _ => true | _ => false := by
    cases v with
    | bool b => cases b <;> simp [JsonTree.value, JsonTree.isObject]
    | _ => simp [JsonTree.value, JsonTree.isObject]
  rw [hu, hv, h]

theorem JsonTree.value_ne_indeterminate (v : JsonTree) : v.value ≠ .indeterminate := by
  cases v with
  | bool b => cases b <;> simp [JsonTree.value]
  | _ => simp [JsonTree.value]

mutual

/-- A tree that comes back has no object in an array. -/
theorem storable_of_parsed : ∀ (v : JsonTree) {u : JsonTree}, u.parsed = v.value → v.Storable
  | .string _, _, _ => by rw [JsonTree.Storable]; trivial
  | .number _, _, _ => by rw [JsonTree.Storable]; trivial
  | .bool _, _, _ => by rw [JsonTree.Storable]; trivial
  | .null, _, _ => by rw [JsonTree.Storable]; trivial
  | .object ms, u, h => by
      rw [JsonTree.Storable]
      rw [JsonTree.value] at h
      cases u with
      | object ns =>
        rw [JsonTree.parsed, JsonValue.object.injEq, Option.some.injEq, membersParsed_eq] at h
        exact membersStorable_of_parsed ms h
      | bool b => cases b <;> simp [JsonTree.parsed] at h
      | string | number | null | array => simp [JsonTree.parsed] at h
  | .array es, u, h => by
      rw [JsonTree.Storable]
      rw [JsonTree.value] at h
      cases u with
      | array us =>
        rw [JsonTree.parsed, JsonValue.array.injEq, Option.some.injEq, elementsParsed_eq] at h
        exact elementsStorable_of_parsed es h
      | bool b => cases b <;> simp [JsonTree.parsed] at h
      | string | number | null | object => simp [JsonTree.parsed] at h

theorem membersStorable_of_parsed : ∀ (ms : List (PlainString × JsonTree))
    {ns : List (PlainString × JsonTree)},
    (ns.map fun m => ({ key := some m.1.chars, value := m.2.parsed } : ObjectProperty)) =
      membersValue ms →
    MembersStorable ms
  | [], _, _ => by rw [MembersStorable]; trivial
  | (k, v) :: ms, ns, h => by
      rw [membersValue] at h
      obtain ⟨n, ns, rfl, hn, hns⟩ := List.map_eq_cons_iff.mp h
      rw [ObjectPropertyOf.mk.injEq] at hn
      rw [MembersStorable]
      exact ⟨storable_of_parsed v hn.2, membersStorable_of_parsed ms hns⟩

theorem elementsStorable_of_parsed : ∀ (es : List JsonTree) {us : List JsonTree},
    (us.map fun u => if u.isObject then JsonValue.indeterminate else u.parsed) =
      elementsValue es →
    ElementsStorable es
  | [], _, _ => by rw [ElementsStorable]; trivial
  | v :: es, us, h => by
      rw [elementsValue] at h
      obtain ⟨u, us, rfl, hu, hus⟩ := List.map_eq_cons_iff.mp h
      rw [ElementsStorable]
      by_cases hobject : u.isObject = true
      · rw [if_pos hobject] at hu
        exact absurd hu.symm v.value_ne_indeterminate
      · rw [if_neg hobject] at hu
        refine ⟨?_, storable_of_parsed v hu, elementsStorable_of_parsed es hus⟩
        rw [← JsonTree.isObject_of_parsed hu, Bool.eq_false_iff]
        exact hobject

end

/-- **Range**: an object is what the parser returns for some well-formed
text exactly when none of its arrays, at any depth, has an object for an
element. -/
theorem parseText_range (abi : Abi) (noReturn : Nat → TokenType)
    (ms : List (PlainString × JsonTree)) :
    (∃ ns text, Renders (JsonTree.object ns).tokens text ∧
        parseText abi noReturn text = .ok (some (membersValue ms))) ↔
      MembersStorable ms := by
  constructor
  · intro h
    obtain ⟨ns, text, htext, hparse⟩ := h
    rw [parseText_renders abi noReturn htext, parseObject_treeTokens, Except.ok.injEq,
      Option.some.injEq, membersParsed_eq] at hparse
    exact membersStorable_of_parsed ms hparse
  · intro h
    have htext := (JsonTree.object (membersPadded ms)).renders_writeTokens
    refine ⟨membersPadded ms, _, htext, ?_⟩
    rw [parseText_renders abi noReturn htext, parseObject_treeTokens, membersParsed_padded ms h]

end CWebServer.Json
