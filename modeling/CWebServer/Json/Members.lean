/-
CWebServer.Json.Members — the members of an object, and the property made
of one.

`parseObject` reads a key one behind a comma and a value three behind it,
the first time from the brace. On a well-formed object the position of
member `j` is one behind comma `j - 1`, so both offsets fall on the same
member (`objectEntry_member_iff`). It does so for every member but the last
(`parseObject_objectTokens`).

No `sorry`, no `axiom`, no `native_decide`.
-/
import CWebServer.Json.Items

namespace CWebServer.Json

open Libc Nesting

/-- A member: its key, its colon and the tokens of its value. -/
structure Member where
  key : Token
  colon : Token
  value : List Token
  key_type : key.type = .string
  colon_type : colon.type = .colon
  isValue : IsValue (value.map Token.type)

def Member.tokens (m : Member) : List Token := m.key :: m.colon :: m.value

theorem Member.item (m : Member) : Item m.tokens := by
  have hcolon : Item (m.colon :: m.value) :=
    m.isValue.item.cons (by simp [tokenShape, m.colon_type]) (by simp [m.colon_type])
      (by simp [m.colon_type])
  exact hcolon.cons (by simp [tokenShape, m.key_type]) (by simp [m.key_type])
    (by simp [m.key_type])

/-- `ts` is the object with the given members. -/
def ObjectTokens (members : List Member) (ts : List Token) : Prop :=
  ItemsOf .leftBrace (members.map Member.tokens) ts

theorem item_of_mem_members {members : List Member} {v : List Token}
    (hv : v ∈ members.map Member.tokens) : Item v := by
  obtain ⟨m, -, rfl⟩ := List.mem_map.mp hv
  exact m.item

/-! ## Every object has its members -/

theorem IsMembers.exists_members : ∀ {w : List TokenType}, IsMembers w →
    ∀ {v : List Token}, v.map Token.type = w →
      ∃ (m : Member) (ms : List Member),
        Separated IsComma (m.tokens :: ms.map Member.tokens) v
  | _, .one h, v, hv => by
      obtain ⟨key, x, rfl, hkey, hx⟩ := List.map_eq_cons_iff.mp hv
      obtain ⟨colon, u, rfl, hcolon, hu⟩ := List.map_eq_cons_iff.mp hx
      exact ⟨⟨key, colon, u, hkey, hcolon, by rw [hu]; exact h⟩, [], .one _⟩
  | _, .cons h hw, v, hv => by
      obtain ⟨key, x, rfl, hkey, hx⟩ := List.map_eq_cons_iff.mp hv
      obtain ⟨colon, y, rfl, hcolon, hy⟩ := List.map_eq_cons_iff.mp hx
      obtain ⟨u, z, rfl, hu, hz⟩ := List.map_eq_append_iff.mp hy
      obtain ⟨comma, rest, rfl, hcomma, hrest⟩ := List.map_eq_cons_iff.mp hz
      obtain ⟨m, ms, hms⟩ := hw.exists_members hrest
      exact ⟨⟨key, colon, u, hkey, hcolon, by rw [hu]; exact h⟩, m :: ms,
        Separated.cons (v := key :: colon :: u) hcomma hms⟩

theorem exists_objectTokens {ts : List Token} (h : IsObject (ts.map Token.type)) :
    ∃ members, ObjectTokens members ts := by
  generalize hw : ts.map Token.type = w at h
  cases h with
  | empty =>
    obtain ⟨o, u, c, rfl, ho, hu, hc⟩ := map_bracketed (w := []) hw
    rw [List.map_eq_nil_iff.mp hu]
    exact ⟨[], .mk ho (by rw [hc]; rfl) .nil⟩
  | members hm =>
    obtain ⟨o, u, c, rfl, ho, hu, hc⟩ := map_bracketed hw
    obtain ⟨m, ms, hms⟩ := hm.exists_members hu
    exact ⟨m :: ms, .mk ho (by rw [hc]; rfl) hms⟩

/-! ## One property -/

/-- The loop body of `parseObject`: the key one behind the base, the value
that begins three behind it. -/
theorem objectEntry_valueAt_iff {tokens : TokensArray} {i : Nat} {key : Token}
    (hkey : tokens.tokens[i + 1]? = some key) {property : ObjectProperty} :
    objectEntry tokens (parseObject tokens) (parseArray tokens) i = .ok property ↔
      strdup key.literal = .ok property.key ∧
        valueAt tokens (i + 1 + 2) = .ok property.value := by
  rw [show i + 1 + 2 = i + 3 from rfl, objectEntry_iff]
  constructor
  · intro h
    obtain ⟨key', t, hkey', ht, hcopy, hvalue⟩ := h
    rw [hkey, Option.some.injEq] at hkey'
    subst hkey'
    exact ⟨hcopy, (valueAt_iff ht).mpr hvalue⟩
  · intro h
    obtain ⟨hcopy, hvalue⟩ := h
    obtain ⟨t, ht, -⟩ := bind_ok_iff.mp hvalue
    rw [at_ok_iff] at ht
    exact ⟨key, t, hkey, ht, hcopy, (valueAt_iff ht).mp hvalue⟩

section

variable {tokens : TokensArray} {start : Nat} {ts : List Token}
  (hstands : StandsAt tokens start ts) {members : List Member} (hmembers : ObjectTokens members ts)

include hstands hmembers

/-- What a call returns on an object of the grammar: a property for every
member but the last, each by the loop body one below the member. -/
theorem parseObject_objectTokens {r : Option JsonObject} (h : parseObject tokens start = .ok r) :
    ∃ o, r = some o ∧ o.length = members.length - 1 ∧
      ∀ j property, o[j]? = some property →
        objectEntry tokens (parseObject tokens) (parseArray tokens)
          (start + itemStart (members.map Member.tokens) j) = .ok property := by
  have hitems : ∀ v ∈ members.map Member.tokens, Item v := fun v => item_of_mem_members
  rw [parseObject_window hstands (ItemsOf.bracketed hmembers hitems)] at h
  simpa using (parseEntries_items hmembers hstands hitems).mp h

/-- The base of a member and the member behind it. -/
theorem objectEntry_member_iff {j : Nat} {member : Member} (hmember : members[j]? = some member)
    {property : ObjectProperty} :
    objectEntry tokens (parseObject tokens) (parseArray tokens)
        (start + itemStart (members.map Member.tokens) j) = .ok property ↔
      strdup member.key.literal = .ok property.key ∧
        valueAt tokens (start + itemStart (members.map Member.tokens) j + 1 + 2) =
          .ok property.value := by
  obtain ⟨s, hitem, -⟩ := ItemsOf.standsAt hmembers hstands
    (show (members.map Member.tokens)[j]? = some member.tokens by simp [hmember])
  exact objectEntry_valueAt_iff (hitem.getElem? (i := 0) (by simp [Member.tokens]))

/-- Where a member stands, and where its value does. -/
theorem standsAt_member {j : Nat} {member : Member} (hmember : members[j]? = some member) :
    StandsAt tokens (start + itemStart (members.map Member.tokens) j + 1) member.tokens ∧
      StandsAt tokens (start + itemStart (members.map Member.tokens) j + 1 + 2) member.value := by
  obtain ⟨s, hitem, -⟩ := ItemsOf.standsAt hmembers hstands
    (show (members.map Member.tokens)[j]? = some member.tokens by simp [hmember])
  exact ⟨hitem.left, StandsAt.part (p := [member.key, member.colon]) (s := s) hitem⟩

end

end CWebServer.Json
