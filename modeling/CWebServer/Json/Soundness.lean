/-
CWebServer.Json.Soundness — how a whole run of the JSON program ends.

The run lexes, parses, frees the tokens and then the tree. On no text does
it leave an array, run on forever or free a block twice. It can stop in the
parse, at a literal that is missing, and in the cleanup of the tree, at a
NULL child or at an unassigned value; each comes from something the parse
got to: a key or a value without its literal, a call that did not find its
closer, or a token without a case (`parseRun_error`). A cleanup that ends
has met neither of the last two anywhere in the tree (`valueCleanup_ok`),
so a run is sound exactly when nothing of the kind is reached
(`parseRun_sound_iff`).

The text of a tree has no unclosed call, and what its run comes to can be
read off the tree (`parseRun_renders`).

No `sorry`, no `axiom`, no `native_decide`.
-/
import CWebServer.Json.Balance
import CWebServer.Json.Failure
import CWebServer.Json.Meaning

namespace CWebServer.Json

open Libc Relation

/-! ## A cleanup that ends -/

theorem elementsCleanup_ok : ∀ {elements : List JsonValue}, elementsCleanup elements = .ok () →
    ∀ v ∈ elements, valueCleanup v = .ok ()
  | [], _, v, hv => by simp at hv
  | u :: rest, h, v, hv => by
      rw [elementsCleanup, bind_ok_iff] at h
      obtain ⟨_, hu, hrest⟩ := h
      rcases List.mem_cons.mp hv with rfl | hv
      · exact hu
      · exact elementsCleanup_ok hrest v hv

theorem propertiesCleanup_ok : ∀ {properties : List (ObjectPropertyOf JsonValue)},
    propertiesCleanup properties = .ok () → ∀ p ∈ properties, valueCleanup p.value = .ok ()
  | [], _, p, hp => by simp at hp
  | ⟨key, value⟩ :: rest, h, p, hp => by
      rw [propertiesCleanup, propertyCleanup, bind_ok_iff] at h
      obtain ⟨_, hvalue, hrest⟩ := h
      rcases List.mem_cons.mp hp with rfl | hp
      · exact hvalue
      · exact propertiesCleanup_ok hrest p hp

theorem valueCleanup_child {v w : JsonValue} (h : valueCleanup v = .ok ()) (hchild : HasChild v w) :
    valueCleanup w = .ok () := by
  cases hchild with
  | property hp =>
    rw [valueCleanup, jsonObjectCleanup] at h
    exact propertiesCleanup_ok h _ hp
  | element hw =>
    rw [valueCleanup, jsonArrayCleanup] at h
    exact elementsCleanup_ok h _ hw

/-- A cleanup that ends has met nothing it fails on. -/
theorem valueCleanup_ok {v w : JsonValue} (h : valueCleanup v = .ok ())
    (hw : ReflTransGen HasChild v w) :
    w ≠ .object none ∧ w ≠ .array none ∧ w ≠ .indeterminate := by
  have hok : valueCleanup w = .ok () := by
    induction hw with
    | refl => exact h
    | tail _ hchild ih => exact valueCleanup_child ih hchild
  refine ⟨?_, ?_, ?_⟩
  · rintro rfl
    rw [valueCleanup, jsonObjectCleanup] at hok
    cases hok
  · rintro rfl
    rw [valueCleanup, jsonArrayCleanup] at hok
    cases hok
  · rintro rfl
    rw [valueCleanup] at hok
    cases hok

/-! ## The cleanup of a tree -/

mutual

/-- Nothing kept of the tree is an object in an array. -/
def JsonTree.keptDefined : JsonTree → Bool
  | .string _ | .number _ | .bool _ | .null => true
  | .object ms => membersKeptDefined ms
  | .array es => elementsKeptDefined es

def membersKeptDefined : List (PlainString × JsonTree) → Bool
  | [] => true
  | [_] => true
  | (_, v) :: m :: ms => v.keptDefined && membersKeptDefined (m :: ms)

def elementsKeptDefined : List JsonTree → Bool
  | [] => true
  | [_] => true
  | v :: e :: es => (!v.isObject && v.keptDefined) && elementsKeptDefined (e :: es)

end

/-- A cleanup that meets nothing but unassigned values. -/
def cleanupOf (defined : Bool) : Except Fault Unit :=
  if defined then .ok () else .error .indeterminate

theorem cleanupOf_and (a b : Bool) :
    (do cleanupOf a; cleanupOf b) = cleanupOf (a && b) := by
  cases a <;> rfl

mutual

theorem valueCleanup_parsed : ∀ v : JsonTree, valueCleanup v.parsed = cleanupOf v.keptDefined
  | .string s => by rw [JsonTree.parsed, valueCleanup, JsonTree.keptDefined]; rfl
  | .number n => by rw [JsonTree.parsed, valueCleanup, JsonTree.keptDefined]; rfl
  | .bool true => by rw [JsonTree.parsed, valueCleanup, JsonTree.keptDefined]; rfl
  | .bool false => by rw [JsonTree.parsed, valueCleanup, JsonTree.keptDefined]; rfl
  | .null => by rw [JsonTree.parsed, valueCleanup, JsonTree.keptDefined]; rfl
  | .object ms => by
      rw [JsonTree.parsed, valueCleanup, JsonTree.keptDefined, jsonObjectCleanup,
        propertiesCleanup_parsed ms]
  | .array es => by
      rw [JsonTree.parsed, valueCleanup, JsonTree.keptDefined, jsonArrayCleanup,
        elementsCleanup_parsed es]

theorem propertiesCleanup_parsed : ∀ ms : List (PlainString × JsonTree),
    propertiesCleanup (membersParsed ms) = cleanupOf (membersKeptDefined ms)
  | [] => by rw [membersParsed, propertiesCleanup, membersKeptDefined]; rfl
  | [_] => by rw [membersParsed, propertiesCleanup, membersKeptDefined]; rfl
  | (k, v) :: m :: ms => by
      rw [membersParsed, propertiesCleanup, propertyCleanup, membersKeptDefined,
        ← cleanupOf_and, valueCleanup_parsed v, propertiesCleanup_parsed (m :: ms)]

theorem elementsCleanup_parsed : ∀ es : List JsonTree,
    elementsCleanup (elementsParsed es) = cleanupOf (elementsKeptDefined es)
  | [] => by rw [elementsParsed, elementsCleanup, elementsKeptDefined]; rfl
  | [_] => by rw [elementsParsed, elementsCleanup, elementsKeptDefined]; rfl
  | v :: e :: es => by
      have hvalue : valueCleanup (if v.isObject then .indeterminate else v.parsed) =
          cleanupOf (!v.isObject && v.keptDefined) := by
        cases hobject : v.isObject with
        | true =>
          rw [if_pos rfl, valueCleanup]
          rfl
        | false => rw [if_neg Bool.false_ne_true, valueCleanup_parsed v, Bool.not_false,
            Bool.true_and]
      rw [elementsParsed, elementsCleanup, elementsKeptDefined, ← cleanupOf_and, hvalue,
        elementsCleanup_parsed (e :: es)]

end

namespace Heap

/-! ## The run on any text -/

section

variable (abi : Abi) (noReturn : Nat → TokenType) (text : List Char)

/-- What the parse of the text gets to. -/
def Reached (src : Source) : Prop :=
  ReflTransGen (Source.Reads (textTokens noReturn text)) (.call (.object 0)) src

theorem eofTerminated_textTokens : EofTerminated (textTokens noReturn text).tokens :=
  eofTerminated_lexerTokens noReturn (Json.lexerCreate text)

/-- A run stops in the parse, or in the cleanup of a parse that returned. -/
theorem parseRun_error_iff {e : Fault} :
    parseRun abi noReturn text .empty = .error e ↔
      parseText abi noReturn text = .error e ∨
        ∃ o, parseText abi noReturn text = .ok o ∧ Json.jsonObjectCleanup o = .error e := by
  rw [(parseRun_refines abi noReturn text).run_error_iff, bind_error_iff]
  refine or_congr_right (exists_congr fun o => and_congr_right fun _ => ?_)
  rw [bind_error_iff]
  constructor
  · intro h
    rcases h with h | ⟨_, _, h⟩
    · exact h
    · cases h
  · exact .inl

/-- What the parse of a text gets to lies in the tokens of the text. -/
theorem inBounds_root : Source.InBounds (textTokens noReturn text) (.call (.object 0)) :=
  List.length_pos_iff.mpr (eofTerminated_textTokens noReturn text).ne_nil

/-- Where a run stops, an unclosed call or a missing literal was reached, or
a token without a case. -/
theorem parseRun_error {e : Fault} (h : parseRun abi noReturn text .empty = .error e) :
    (e = .nullPointer ∧ ((∃ c, Reached noReturn text (.call c) ∧
          ¬ c.Closed (textTokens noReturn text)) ∨
        ¬ LiteralsPresent (textTokens noReturn text) (.call (.object 0)))) ∨
      (e = .indeterminate ∧ ∃ t, Reached noReturn text (.token t) ∧ ¬ t.HasCase) := by
  have heof := eofTerminated_textTokens noReturn text
  have hroot := inBounds_root noReturn text
  have hpos : 0 < (textTokens noReturn text).tokens.length := hroot
  rw [parseRun_error_iff, parseText_eq] at h
  obtain hparse | ⟨o, ho, hcleanup⟩ := h
  · rcases parseObject_ends heof hpos with ⟨o, ho⟩ | ⟨hnull, hmissing⟩
    · rw [ho] at hparse
      cases hparse
    · rw [hnull, Except.error.injEq] at hparse
      exact .inl ⟨hparse.symm, .inr hmissing⟩
  · have hrun : (Source.call (.object 0)).value (textTokens noReturn text) = .ok (.object o) :=
      Call.run_object_iff.mpr ⟨o, ho, rfl⟩
    obtain ⟨w, hw, hfault⟩ := valueCleanup_error (.object o) hcleanup
    obtain ⟨src, hsrc, hin, hvalue⟩ := exists_source heof hroot hrun hw
    rcases hfault with ⟨he, hnull⟩ | ⟨he, rfl⟩
    · refine .inl ⟨he, .inl ?_⟩
      cases src with
      | token t =>
        obtain ⟨hobject, harray⟩ := parseValue_ne hvalue
        rcases hnull with rfl | rfl
        · exact absurd rfl (hobject none)
        · exact absurd rfl (harray none)
      | call c =>
        refine ⟨c, hsrc, fun hclosed => ?_⟩
        have hne : w ≠ c.failed := by
          rintro rfl
          exact (Call.run_failed_iff heof hin).mp hvalue hclosed
        obtain ⟨hobject, harray, -⟩ := Call.run_ne_null hvalue hne
        rcases hnull with rfl | rfl
        · exact absurd rfl hobject
        · exact absurd rfl harray
    · refine .inr ⟨he, ?_⟩
      cases src with
      | token t => exact ⟨t, hsrc, parseValue_indeterminate_iff.mp hvalue⟩
      | call c => cases c <;> obtain ⟨_, -, heq⟩ := bind_ok_iff.mp hvalue <;> cases heq

/-- The run returns, and the tree it built and freed was defined
throughout. -/
def Sound : Prop :=
  ∃ o L, parseText abi noReturn text = .ok (some o) ∧ TreeDefined (.object (some o)) ∧
    parseRun abi noReturn text .empty = .ok ((), L)

/-- In a sound run every call that is reached is closed. -/
theorem Sound.closed (h : Sound abi noReturn text) {c : Call}
    (hc : Reached noReturn text (.call c)) : c.Closed (textTokens noReturn text) := by
  obtain ⟨o, L, ho, -, hrun⟩ := h
  obtain ⟨o', ho', hcleanup, -⟩ := (parseRun_card abi noReturn text _).mp ⟨L, hrun, rfl⟩
  rw [ho, Except.ok.injEq, Option.some.injEq] at ho'
  subst ho'
  rw [parseText_eq] at ho
  have heof := eofTerminated_textTokens noReturn text
  have hvalue : (Source.call (.object 0)).value (textTokens noReturn text) =
      .ok (.object (some o)) := Call.run_object_iff.mpr ⟨some o, ho, rfl⟩
  obtain ⟨hin, w, hw, hcall⟩ := exists_stored heof (inBounds_root noReturn text) hvalue hc
  by_contra hopen
  -- An unclosed call leaves a NULL child, which the cleanup would have met.
  have hnull := valueCleanup_ok (v := .object (some o)) hcleanup hw
  have hfailed : w = c.failed := Except.ok.inj (hcall.symm.trans (Call.run_open heof hin hopen))
  rw [hfailed] at hnull
  cases c with
  | object start => exact hnull.1 rfl
  | array start => exact hnull.2.1 rfl

/-- **Soundness of a run**, for any text. A run that stops does so at a NULL
pointer, of an unclosed call it got to or of a literal that is missing, or
at an unassigned value, for a token without a case. A run is sound exactly
when every call it gets to is closed and every entry it gets to is
defined. -/
theorem parseRun_sound_iff :
    (∀ e, parseRun abi noReturn text .empty = .error e →
      (e = .nullPointer ∧ ((∃ c, Reached noReturn text (.call c) ∧
            ¬ c.Closed (textTokens noReturn text)) ∨
          ¬ LiteralsPresent (textTokens noReturn text) (.call (.object 0)))) ∨
        (e = .indeterminate ∧ ∃ t, Reached noReturn text (.token t) ∧ ¬ t.HasCase)) ∧
      (Sound abi noReturn text ↔
        (∀ c, Reached noReturn text (.call c) → c.Closed (textTokens noReturn text)) ∧
          EntriesDefined (textTokens noReturn text)) := by
  refine ⟨fun e => parseRun_error abi noReturn text, ?_⟩
  have heof := eofTerminated_textTokens noReturn text
  have hpos : 0 < (textTokens noReturn text).tokens.length := inBounds_root noReturn text
  constructor
  · intro h
    refine ⟨fun c hc => h.closed abi noReturn text hc, ?_⟩
    obtain ⟨o, L, ho, htree, -⟩ := h
    rw [parseText_eq] at ho
    exact entriesDefined_of_treeDefined heof ho htree
  · intro h
    obtain ⟨hclosed, hentries⟩ := h
    obtain ⟨r, hr⟩ := (parseObject_ok_iff heof hpos).mpr hentries.literals
    have htree := treeDefined_of_entriesDefined heof hr hentries
    cases r with
    | none => exact absurd (hclosed (.object 0) .refl) ((parseObject_none_iff heof hpos).mp hr)
    | some o =>
      cases hrun : parseRun abi noReturn text .empty with
      | ok r => exact ⟨o, r.2, by rw [parseText_eq, hr], htree, hrun⟩
      | error e =>
        obtain ⟨-, ⟨c, hc, hopen⟩ | hmissing⟩ | ⟨-, t, ht, hcase⟩ :=
          parseRun_error abi noReturn text hrun
        · exact absurd (hclosed c hc) hopen
        · exact absurd hentries.literals hmissing
        · exact absurd (hentries.cases t ht) hcase

/-! ## The run on a well-formed text -/

/-- **A run on the text of a tree** stops at an unassigned value, if an
object is kept in an array, and otherwise returns and leaves the lexer, the
array of token pointers and one struct for each member kept. -/
theorem parseRun_renders (ms : List (PlainString × JsonTree))
    (h : Renders (JsonTree.object ms).tokens text) :
    (parseRun abi noReturn text .empty = .error .indeterminate ↔
        membersKeptDefined ms = false) ∧
      ∀ n, (∃ L, parseRun abi noReturn text .empty = .ok ((), L) ∧ L.live.card = n) ↔
        membersKeptDefined ms = true ∧ n = 2 + propertiesMembers (membersParsed ms) := by
  have hparse : parseText abi noReturn text = .ok (some (membersParsed ms)) := by
    rw [parseText_renders abi noReturn h, parseObject_treeTokens]
  have hcleanup : Json.jsonObjectCleanup (some (membersParsed ms)) =
      cleanupOf (membersKeptDefined ms) := by
    rw [Json.jsonObjectCleanup, propertiesCleanup_parsed]
  constructor
  · rw [parseRun_error_iff, hparse]
    constructor
    · intro h
      obtain hparse' | ⟨o, ho, hfault⟩ := h
      · cases hparse'
      · obtain rfl := Except.ok.inj ho
        rw [hcleanup] at hfault
        cases hdefined : membersKeptDefined ms with
        | false => rfl
        | true =>
          rw [hdefined] at hfault
          cases hfault
    · intro hdefined
      exact .inr ⟨_, rfl, by rw [hcleanup, hdefined]; rfl⟩
  · intro n
    rw [parseRun_card]
    constructor
    · intro h
      obtain ⟨o, ho, hok, hn⟩ := h
      rw [hparse, Except.ok.injEq, Option.some.injEq] at ho
      subst ho
      rw [valueMembers] at hn
      rw [hcleanup] at hok
      cases hdefined : membersKeptDefined ms with
      | true => exact ⟨rfl, hn⟩
      | false =>
        rw [hdefined] at hok
        cases hok
    · intro h
      obtain ⟨hdefined, rfl⟩ := h
      exact ⟨_, hparse, by rw [hcleanup, hdefined]; rfl, by rw [valueMembers]⟩

end

/-- Five blocks are left of the sample: the lexer, the array and the structs
of the members `a`, `b` and `c`. -/
theorem parseRun_renders_sample :
    parseRun ⟨4, by decide⟩ (fun _ => .illegal) sampleText .empty ≠ .error .indeterminate ∧
      ∃ L, parseRun ⟨4, by decide⟩ (fun _ => .illegal) sampleText .empty = .ok ((), L) ∧
        L.live.card = 5 := by
  obtain ⟨hstops, hleaves⟩ :=
    parseRun_renders ⟨4, by decide⟩ (fun _ => .illegal) sampleText sampleMembers renders_sampleText
  refine ⟨fun h => ?_, (hleaves 5).mpr ⟨rfl, rfl⟩⟩
  cases hstops.mp h

end Heap

end CWebServer.Json
