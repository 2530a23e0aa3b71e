/-
CWebServer.Json.Items — the members of an object and the elements of an
array, as the separator scan sees them.

The scan records the commas outside every bracket. Between two of them
stands one item: nested, and with all its own commas inside brackets
(`Item`). On items with commas between neighbours the table is therefore
where the items begin, less one (`commas_eq_itemStarts`), and the loop,
which starts from the opening bracket and then from each comma but the
last, runs at every item but the last (`parseEntries_items`).

The second half is about the grammar: a JSON value is an item, and an
object or an array of the grammar is such a sequence of items.

No `sorry`, no `axiom`, no `native_decide`.
-/
import CWebServer.Json.Grammar
import CWebServer.Json.Windows
import CWebServer.Nesting.Separated

namespace CWebServer.Json

open Libc Nesting

/-! ## Items -/

/-- What may stand between two commas. -/
structure Item (v : List Token) : Prop where
  nested : Nested tokenShape v
  no_eof : ∀ t ∈ v, t.type ≠ .eof
  no_comma : ∀ i, commaPositions i 0 0 v = []
  ends : ∃ u t, v = u ++ [t] ∧ t.type ≠ .comma

def IsComma (t : Token) : Prop := t.type = .comma

/-- Inside a bracket pair no comma is recorded from outside. -/
theorem commaPositions_wrap (i : Nat) {o c : Token} {v : List Token} {kind : BracketKind}
    (ho : tokenShape o = .opening kind) (hc : tokenShape c = .closing kind)
    (hv : Nested tokenShape v) : commaPositions i 0 0 (o :: (v ++ [c])) = [] := by
  rw [List.eq_nil_iff_forall_not_mem]
  intro p hp
  obtain ⟨pre, t, post, hsplit, -, ht, hbrace, hbracket⟩ := mem_commaPositions.mp hp
  have hplain : tokenShape t = .plain := by simp [tokenShape, ht]
  cases pre with
  | nil =>
    obtain ⟨rfl, -⟩ := List.cons.inj hsplit
    rw [ho] at hplain
    cases hplain
  | cons u pre =>
    obtain ⟨rfl, hrest⟩ := List.cons.inj hsplit
    -- The comma is inside `v`, since it is not the closer.
    have hin : ∃ x, v = pre ++ x := by
      rcases prefix_split hrest.symm with ⟨x, hx, -⟩ | ⟨x, -, hx⟩
      · exact ⟨x, hx⟩
      · simp at hx
    obtain ⟨x, hx⟩ := hin
    have hpre : 0 ≤ excess tokenShape kind pre := hv.excess_prefix kind hx
    have hopen : delta tokenShape kind o = 1 := by simp [delta, ho]
    cases kind with
    | brace =>
      rw [excess_cons, hopen] at hbrace
      omega
    | bracket =>
      rw [excess_cons, hopen] at hbracket
      omega

theorem commaPositions_single (i : Nat) {t : Token} (ht : t.type ≠ .comma) :
    commaPositions i 0 0 [t] = [] := by
  simp [commaPositions, ht]

/-- The scan stops one token early, which loses no comma when the last
token is none. -/
theorem commaPositions_dropLast (i : Nat) (b k : Int) {w : List Token} {t : Token}
    (ht : t.type ≠ .comma) :
    commaPositions i b k (w ++ [t]) = commaPositions i b k w := by
  rw [commaPositions_append]
  simp [commaPositions, ht]

theorem Item.single {t : Token} (hshape : tokenShape t = .plain) (heof : t.type ≠ .eof)
    (hcomma : t.type ≠ .comma) : Item [t] where
  nested := .plain hshape .nil
  no_eof := by simpa using heof
  no_comma := fun i => commaPositions_single i hcomma
  ends := ⟨[], t, rfl, hcomma⟩

/-- An item stays one behind a token that is no bracket and no comma. -/
theorem Item.cons {t : Token} {v : List Token} (hv : Item v) (hshape : tokenShape t = .plain)
    (heof : t.type ≠ .eof) (hcomma : t.type ≠ .comma) : Item (t :: v) where
  nested := .plain hshape hv.nested
  no_eof := by simpa using ⟨heof, hv.no_eof⟩
  no_comma := by
    intro i
    simp [commaPositions, delta, hshape, hcomma, hv.no_comma]
  ends := by
    obtain ⟨u, c, rfl, hc⟩ := hv.ends
    exact ⟨t :: u, c, rfl, hc⟩

theorem Bracketed.item {opening : TokenType} {v : List Token} (h : Bracketed opening v)
    (heof : ∀ t ∈ v, t.type ≠ .eof) : Item v := by
  refine ⟨h.nested, heof, ?_, ?_⟩
  · cases h with
    | mk ho hc hv =>
      obtain ⟨kind, hopening, hclosing⟩ := exists_kind hc
      exact fun i => commaPositions_wrap i ((hopening _).mp ho) ((hclosing _).mp rfl) hv
  · cases h with
    | @mk o c v ho hc hv =>
      refine ⟨o :: v, c, rfl, fun hcomma => ?_⟩
      rw [hcomma] at hc
      cases opening <;> simp [enclosingTokenOf] at hc

/-! ## Items between commas -/

section

variable {items : List (List Token)} {w : List Token} (h : Separated IsComma items w)
  (hitems : ∀ v ∈ items, Item v)

include h hitems

theorem nested_of_items : Nested tokenShape w := by
  induction h with
  | nil => exact .nil
  | one v => exact (hitems v (by simp)).nested
  | cons hs _ ih =>
    exact (hitems _ (by simp)).nested.append
      (.plain (by simp [tokenShape, show _ = _ from hs]) (ih fun v hv => hitems v (by simp [hv])))

theorem no_eof_of_items : ∀ t ∈ w, t.type ≠ .eof := by
  induction h with
  | nil => simp
  | one v => exact (hitems v (by simp)).no_eof
  | @cons v u w s vs hs _ ih =>
    intro t ht
    rcases List.mem_append.mp ht with ht | ht
    · exact (hitems v (by simp)).no_eof t ht
    · rcases List.mem_cons.mp ht with rfl | ht
      · rw [show t.type = .comma from hs]
        nofun
      · exact ih (fun v hv => hitems v (by simp [hv])) t ht

theorem ends_of_items (hne : items ≠ []) : ∃ u t, w = u ++ [t] ∧ t.type ≠ .comma := by
  induction h with
  | nil => exact absurd rfl hne
  | one v => exact (hitems v (by simp)).ends
  | @cons v u w s vs hs _ ih =>
    obtain ⟨x, t, rfl, ht⟩ := ih (fun v hv => hitems v (by simp [hv])) (by simp)
    exact ⟨v ++ s :: x, t, by simp, ht⟩

/-- The commas recorded are one before each item but the first. -/
theorem commas_eq_itemStarts (hne : items ≠ []) (i : Nat) :
    i :: commaPositions (i + 1) 0 0 w = (itemStarts items).map (i + ·) := by
  induction h generalizing i with
  | nil => exact absurd rfl hne
  | one v =>
    rw [(hitems v (by simp)).no_comma, itemStarts_cons]
    simp [itemStarts]
  | @cons v u w s vs hs _ ih =>
    have hv := hitems v (by simp)
    have htail : commaPositions (i + 1 + v.length) 0 0 (s :: w) =
        (i + 1 + v.length) :: commaPositions (i + 1 + v.length + 1) 0 0 w := by
      rw [commaPositions, delta_comma hs, delta_comma hs]
      simp [show s.type = .comma from hs]
    rw [commaPositions_append, hv.no_comma, hv.nested.excess_eq, hv.nested.excess_eq,
      Int.add_zero, List.nil_append, htail,
      ih (fun v hv => hitems v (by simp [hv])) (by simp), itemStarts_cons v]
    simp only [List.map_cons, List.map_map, Nat.add_zero, Function.comp_def, List.cons.injEq,
      true_and]
    exact List.map_congr_left fun j _ => by omega

theorem entryBases_eq : entryBases w = (itemStarts items).take (items.length - 1) := by
  by_cases hne : items = []
  · subst hne
    cases h
    rfl
  · obtain ⟨u, t, hw, ht⟩ := ends_of_items h hitems hne
    have hdrop : commaPositions 1 0 0 w.dropLast = commaPositions 1 0 0 w := by
      rw [hw, List.dropLast_concat, commaPositions_dropLast _ _ _ ht]
    have hstarts := commas_eq_itemStarts h hitems hne 0
    have hlen := congrArg List.length hstarts
    simp only [List.length_cons, List.length_map, length_itemStarts, Nat.zero_add] at hlen
    rw [entryBases, entryCommas, hdrop, ← hlen, Nat.add_sub_cancel]
    simpa using congrArg (List.take (commaPositions 1 0 0 w).length) hstarts

end

/-- The items between a bracket and its closer. -/
inductive ItemsOf (opening : TokenType) (items : List (List Token)) : List Token → Prop where
  | mk {o c : Token} {w : List Token} : o.type = opening →
      enclosingTokenOf opening = some c.type → Separated IsComma items w →
      ItemsOf opening items (o :: (w ++ [c]))

section

variable {opening : TokenType} {items : List (List Token)} {ts : List Token}
  (h : ItemsOf opening items ts) {tokens : TokensArray} {start : Nat}
  (hstands : StandsAt tokens start ts)

include h

theorem ItemsOf.bracketed (hitems : ∀ v ∈ items, Item v) : Bracketed opening ts := by
  cases h with
  | mk ho hc hw => exact .mk ho hc (nested_of_items hw hitems)

include hstands

/-- Where item `j` stands, and what stands behind it. -/
theorem ItemsOf.standsAt {j : Nat} {v : List Token} (hv : items[j]? = some v) :
    ∃ s, StandsAt tokens (start + itemStart items j + 1) (v ++ s) ∧
      (j + 1 < items.length → ∃ c t, s = c :: t ∧ IsComma c) := by
  cases h with
  | @mk o c w ho hc hw =>
    obtain ⟨p, s, rfl, hp, hs⟩ := hw.split hv
    refine ⟨s, ?_, hs⟩
    have hpart : StandsAt tokens (start + (o :: p).length) (v ++ s) := by
      refine StandsAt.part (s := [c]) ?_
      simpa using hstands
    rw [List.length_cons, hp, ← Nat.add_assoc] at hpart
    exact hpart

/-- **A call on items** makes an entry of every item but the last, in
order, each by the loop body run one below where the item begins. -/
theorem parseEntries_items {α : Type} {body : Nat → Except Fault α}
    (hitems : ∀ v ∈ items, Item v) {r : Option (List α)} :
    parseEntries tokens opening body start = .ok r ↔
      ∃ es, r = some es ∧ es.length = items.length - 1 ∧
        ∀ j x, es[j]? = some x → body (start + itemStart items j) = .ok x := by
  cases h with
  | @mk o c w ho hc hw =>
    rw [parseEntries_window hstands ho hc (nested_of_items hw hitems)
      (no_eof_of_items hw hitems), entryBases_eq hw hitems, bind_ok_iff]
    have hlen : ((itemStarts items).take (items.length - 1)).length = items.length - 1 := by
      simp
    refine exists_congr fun es => ?_
    rw [mapM_ok_iff, List.forall₂_iff_get, Except.ok.injEq, eq_comm (b := r), and_comm]
    refine and_congr_right fun _ => ?_
    constructor
    · intro hall
      obtain ⟨hes, hall⟩ := hall
      rw [hlen] at hes
      refine ⟨hes.symm, fun j x hx => ?_⟩
      obtain ⟨hj, rfl⟩ := List.getElem?_eq_some_iff.mp hx
      simpa [itemStarts] using hall j (by rw [hlen]; omega) hj
    · intro hall
      obtain ⟨hes, hall⟩ := hall
      refine ⟨hlen.trans hes.symm, fun j h1 h2 => ?_⟩
      simpa [itemStarts] using hall j es[j] (List.getElem?_eq_getElem h2)

/-- It returns when its loop body does at each of them. -/
theorem exists_entries {α : Type} {body : Nat → Except Fault α} (hitems : ∀ v ∈ items, Item v)
    (hbody : ∀ j, j < items.length - 1 → ∃ x, body (start + itemStart items j) = .ok x) :
    ∃ es, parseEntries tokens opening body start = .ok (some es) := by
  cases h with
  | @mk o c w ho hc hw =>
    rw [parseEntries_window hstands ho hc (nested_of_items hw hitems)
      (no_eof_of_items hw hitems), entryBases_eq hw hitems]
    have hbases : ∀ b ∈ (itemStarts items).take (items.length - 1),
        ∃ x, body (start + b) = .ok x := by
      intro b hb
      obtain ⟨j, hj, rfl⟩ := List.mem_iff_getElem.mp hb
      rw [List.length_take] at hj
      simpa [itemStarts] using hbody j (by omega)
    obtain ⟨es, hes⟩ := exists_mapM_ok hbases
    exact ⟨es, bind_ok_iff.mpr ⟨es, hes, rfl⟩⟩

end

/-! ## The grammar in items -/

theorem map_bracketed {v : List Token} {a b : TokenType} {w : List TokenType}
    (h : v.map Token.type = a :: (w ++ [b])) :
    ∃ o u c, v = o :: (u ++ [c]) ∧ o.type = a ∧ u.map Token.type = w ∧ c.type = b := by
  obtain ⟨o, x, rfl, ho, hx⟩ := List.map_eq_cons_iff.mp h
  obtain ⟨u, y, rfl, hu, hy⟩ := List.map_eq_append_iff.mp hx
  obtain ⟨c, rfl, hc⟩ := List.map_eq_singleton_iff.mp hy
  exact ⟨o, u, c, rfl, ho, hu, hc⟩

section

variable {v : List Token}

theorem IsObject.bracketed (h : IsObject (v.map Token.type)) : Bracketed .leftBrace v := by
  generalize hw : v.map Token.type = w at h
  cases h with
  | empty =>
    obtain ⟨o, u, c, rfl, ho, hu, hc⟩ := map_bracketed (w := []) hw
    rw [List.map_eq_nil_iff.mp hu]
    exact .mk ho (by rw [hc]; rfl) .nil
  | members hm =>
    obtain ⟨o, u, c, rfl, ho, hu, hc⟩ := map_bracketed hw
    exact .mk ho (by rw [hc]; rfl) (hm.nested.of_map hu)

theorem IsArray.bracketed (h : IsArray (v.map Token.type)) : Bracketed .leftBracket v := by
  generalize hw : v.map Token.type = w at h
  cases h with
  | empty =>
    obtain ⟨o, u, c, rfl, ho, hu, hc⟩ := map_bracketed (w := []) hw
    rw [List.map_eq_nil_iff.mp hu]
    exact .mk ho (by rw [hc]; rfl) .nil
  | elements he =>
    obtain ⟨o, u, c, rfl, ho, hu, hc⟩ := map_bracketed hw
    exact .mk ho (by rw [hc]; rfl) (he.nested.of_map hu)

/-- A value is a scalar token, or in brackets. -/
theorem IsValue.cases_tokens (h : IsValue (v.map Token.type)) :
    (∃ t, v = [t] ∧ t.type ∈ [.string, .number, .jsonTrue, .jsonFalse, .jsonNull]) ∨
      IsObject (v.map Token.type) ∨ IsArray (v.map Token.type) := by
  generalize hw : v.map Token.type = w at h
  cases h with
  | object h => exact .inr (.inl h)
  | array h => exact .inr (.inr h)
  | string | number | jsonTrue | jsonFalse | jsonNull =>
    obtain ⟨t, rfl, ht⟩ := List.map_eq_singleton_iff.mp hw
    exact .inl ⟨t, rfl, by simp [ht]⟩

/-- A JSON value is an item. -/
theorem IsValue.item (h : IsValue (v.map Token.type)) : Item v := by
  have heof : ∀ t ∈ v, t.type ≠ .eof := by
    intro t ht hteof
    exact h.no_eof (hteof ▸ List.mem_map_of_mem ht)
  rcases h.cases_tokens with ⟨t, rfl, ht⟩ | hobject | harray
  · simp only [List.mem_cons, List.not_mem_nil, or_false] at ht
    have hshape : tokenShape t = .plain := by
      rcases ht with ht | ht | ht | ht | ht <;> simp [tokenShape, ht]
    refine .single hshape (heof t (by simp)) ?_
    rcases ht with ht | ht | ht | ht | ht <;> simp [ht]
  · exact hobject.bracketed.item heof
  · exact harray.bracketed.item heof

end

/-! ## The value at a position -/

/-- The value that begins at `p`, by the token there: the object or the
array parsed from `p`, or else the scalar of that token. -/
def valueAt (tokens : TokensArray) (p : Nat) : Except Fault JsonValue := do
  let token ← tokens.at p
  if token.type = .leftBrace then
    let object ← parseObject tokens p
    .ok (.object object)
  else if token.type = .leftBracket then
    let array ← parseArray tokens p
    .ok (.array array)
  else
    parseValue token

theorem valueAt_iff {tokens : TokensArray} {p : Nat} {t : Token} (ht : tokens.tokens[p]? = some t)
    {value : JsonValue} :
    valueAt tokens p = .ok value ↔
      (t.type = .leftBrace ∧ ∃ o, parseObject tokens p = .ok o ∧ value = .object o) ∨
        (t.type = .leftBracket ∧ ∃ a, parseArray tokens p = .ok a ∧ value = .array a) ∨
        (t.type ≠ .leftBrace ∧ t.type ≠ .leftBracket ∧ parseValue t = .ok value) := by
  unfold valueAt
  rw [at_ok_iff.mpr ht]
  by_cases hbrace : t.type = .leftBrace
  · simp [bind, Except.bind, hbrace, eq_comm]
    cases parseObject tokens p <;> simp
  · by_cases hbracket : t.type = .leftBracket
    · simp [bind, Except.bind, hbracket, eq_comm]
      cases parseArray tokens p <;> simp
    · simp [bind, Except.bind, hbrace, hbracket]

end CWebServer.Json
