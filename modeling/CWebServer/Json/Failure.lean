/-
CWebServer.Json.Failure — what a failing nested call does to the calls
around it.

A call returns NULL when its closer is missing, but nothing looks at what a
nested call returned: a NULL child is stored in the tree, and the cleanups
follow it. Since a call that gets as far as making nested calls does not
return NULL, the failure of a nested call never travels up, and failures
propagate only where none happens. One happens in `{"a":[{]},"b":1}`, where
the scan from the brace counts the bracket closed and the scan from the
bracket does not.

A tree can also lead to a NULL child through a value that was never
assigned, whose type and pointer may be anything. So a tree is free of NULL
children only if no such value is stored either, and
`propagatesFailure_iff` asks for both.

No `sorry`, no `axiom`, no `native_decide`.
-/
import CWebServer.Json.Calls

namespace CWebServer.Json

open Libc Relation

/-! ## The calls a run makes -/

/-- The loop of the first call gets as far as the second: the entries before
it were made, and so was its key. -/
inductive Makes (tokens : TokensArray) : Call → Call → Prop where
  | entry {c d : Call} {before after : List Nat} {i : Nat} :
      c.Closed tokens → EntryBases tokens c.start (before ++ i :: after) →
        (∀ j ∈ before, c.KeyRead tokens j ∧
          ∀ src, Source.ReadsAt tokens j c src → LiteralsPresent tokens src) →
        c.KeyRead tokens i → Source.ReadsAt tokens i c (.call d) → Makes tokens c d

theorem Makes.reads {tokens : TokensArray} {c d : Call} (h : Makes tokens c d) :
    Source.Reads tokens (.call c) (.call d) := by
  cases h with
  | entry hclosed hbases _ _ hat => exact .entry hclosed hbases (by simp) hat

theorem Makes.closed {tokens : TokensArray} {c d : Call} (h : Makes tokens c d) :
    c.Closed tokens := by
  cases h with
  | entry hclosed _ _ _ _ => exact hclosed

/-- With every literal there a call makes all the calls it reads. -/
theorem makes_of_reads {tokens : TokensArray} {c d : Call}
    (h : LiteralsPresent tokens (.call c)) (hreads : Source.Reads tokens (.call c) (.call d)) :
    Makes tokens c d := by
  cases hreads with
  | entry hclosed hbases hi hat =>
    obtain ⟨before, after, rfl⟩ := List.append_of_mem hi
    have hkeys := h.keys c _ .refl hclosed hbases
    refine .entry hclosed hbases (fun j hj => ⟨hkeys j (by simp [hj]), fun src hsrc => ?_⟩)
      (hkeys _ hi) hat
    exact h.of_reads (.entry hclosed hbases (by simp [hj]) hsrc)

theorem transGen_makes {tokens : TokensArray} {c d : Call} (h : LiteralsPresent tokens (.call c))
    (hreads : TransGen (Source.Reads tokens) (.call c) (.call d)) :
    TransGen (Makes tokens) c d := by
  generalize hsrc : Source.call c = src at hreads
  induction hreads using TransGen.head_induction_on generalizing c with
  | single hstep =>
    subst hsrc
    exact .single (makes_of_reads h hstep)
  | head hstep hrest ih =>
    rename_i a b
    subst hsrc
    cases b with
    | token t =>
      obtain ⟨_, hfirst, -⟩ := TransGen.head'_iff.mp hrest
      cases hfirst
    | call e => exact .head (makes_of_reads h hstep) (ih (h.of_reads hstep) rfl)

section

variable {tokens : TokensArray} (heof : EofTerminated tokens.tokens)

include heof

theorem Makes.inBounds {c d : Call} (hs : c.start < tokens.tokens.length)
    (h : ReflTransGen (Makes tokens) c d) : d.start < tokens.tokens.length := by
  induction h with
  | refl => exact hs
  | @tail e _ _ hstep ih =>
    have hin : Source.InBounds tokens (.call e) := ih
    exact hstep.reads.inBounds heof hin

end

/-! ## Propagation -/

/-- A nested call that fails makes every call around it fail; what is
returned holds no NULL child, nor an unassigned value, which may have one,
and the cleanup walks it to the end. -/
structure PropagatesFailure (tokens : TokensArray) (c : Call) : Prop where
  nested : ∀ d e, ReflTransGen (Makes tokens) c d → Makes tokens d e →
    e.run tokens = .ok e.failed → d.run tokens = .ok d.failed
  tree : ∀ v, c.run tokens = .ok v → v ≠ c.failed → ∀ w, ReflTransGen HasChild v w →
    w ≠ .object none ∧ w ≠ .array none ∧ w ≠ .indeterminate
  cleanup : ∀ v, c.run tokens = .ok v → v ≠ c.failed → valueCleanup v = .ok ()

/-- A call stores a NULL child only when it fails, and no unassigned value. -/
theorem Call.run_ne_null {tokens : TokensArray} {c : Call} {v : JsonValue}
    (h : c.run tokens = .ok v) (hne : v ≠ c.failed) :
    v ≠ .object none ∧ v ≠ .array none ∧ v ≠ .indeterminate := by
  cases c with
  | object start =>
    obtain ⟨o, -, rfl⟩ := run_object_iff.mp h
    exact ⟨hne, nofun, nofun⟩
  | array start =>
    obtain ⟨a, -, rfl⟩ := run_array_iff.mp h
    exact ⟨nofun, hne, nofun⟩

/-- A scalar is neither. -/
theorem parseValue_ne_null {t : Token} {v : JsonValue} (h : parseValue t = .ok v)
    (hcase : t.HasCase) : v ≠ .object none ∧ v ≠ .array none ∧ v ≠ .indeterminate := by
  obtain ⟨hobject, harray⟩ := parseValue_ne h
  refine ⟨hobject none, harray none, ?_⟩
  rintro rfl
  exact parseValue_indeterminate_iff.mp h hcase

section

variable {tokens : TokensArray} (heof : EofTerminated tokens.tokens) {c : Call}
  (hs : c.start < tokens.tokens.length)

include heof hs

/-- A call fails in no other way than by its own closer. -/
theorem closed_of_propagatesFailure (h : PropagatesFailure tokens c) {d : Call}
    (hd : TransGen (Makes tokens) c d) : d.Closed tokens := by
  obtain ⟨maker, hmaker, hmakes⟩ := TransGen.tail'_iff.mp hd
  have hmakerin := Makes.inBounds heof hs hmaker
  have hin := Makes.inBounds heof hs hd.to_reflTransGen
  by_contra hopen
  have hfailed := h.nested maker d hmaker hmakes (Call.run_open heof hin hopen)
  exact (Call.run_failed_iff heof hmakerin).mp hfailed hmakes.closed

theorem hasCase_of_propagatesFailure (h : PropagatesFailure tokens c)
    (hliterals : LiteralsPresent tokens (.call c)) {t : Token}
    (ht : ReflTransGen (Source.Reads tokens) (.call c) (.token t)) : t.HasCase := by
  have hin : Source.InBounds tokens (.call c) := hs
  obtain ⟨v, hv⟩ := (Source.value_ok_iff heof hin).mpr hliterals
  have hclosed : c.Closed tokens := by
    rcases ReflTransGen.cases_head ht with heq | ⟨_, hfirst, -⟩
    · cases heq
    · cases hfirst with
      | entry hclosed _ _ _ => exact hclosed
  have hne : v ≠ c.failed := by
    rintro rfl
    exact (Call.run_failed_iff heof hs).mp hv hclosed
  obtain ⟨-, w, hw, hvalue⟩ := exists_stored heof hin hv ht
  by_contra hcase
  rw [← parseValue_indeterminate_iff] at hcase
  have heq : w = .indeterminate := Except.ok.inj (hvalue.symm.trans hcase)
  exact (h.tree v hv hne w hw).2.2 heq

/-- The tree of a call that makes no failing call and stores no token
without a case. -/
theorem ne_null_of_closed (hclosed : ∀ d, TransGen (Makes tokens) c d → d.Closed tokens)
    (hcases : LiteralsPresent tokens (.call c) →
      ∀ t, ReflTransGen (Source.Reads tokens) (.call c) (.token t) → t.HasCase)
    {v : JsonValue} (hv : c.run tokens = .ok v) (hne : v ≠ c.failed) {w : JsonValue}
    (hw : ReflTransGen HasChild v w) :
    w ≠ .object none ∧ w ≠ .array none ∧ w ≠ .indeterminate := by
  have hroot : Source.InBounds tokens (.call c) := hs
  have hliterals := literalsPresent_of_value heof hroot hv
  obtain ⟨src, hsrc, hin, hvalue⟩ := exists_source heof hroot hv hw
  cases src with
  | token t => exact parseValue_ne_null hvalue (hcases hliterals t hsrc)
  | call d =>
    rcases reflTransGen_iff_eq_or_transGen.mp hsrc with heq | hd
    · obtain rfl := Source.call.inj heq
      have hwv : w = v := Except.ok.inj (hvalue.symm.trans hv)
      exact hwv ▸ Call.run_ne_null hv hne
    · refine Call.run_ne_null hvalue ?_
      rintro rfl
      exact (Call.run_failed_iff heof hin).mp hvalue (hclosed d (transGen_makes hliterals hd))

end

/-- **Failure propagation** holds of a call exactly when every call it
makes, at any depth, stands at its opening bracket and finds the closer,
and, where no literal stops it, every token it stores has a case in
`_parseValue`. -/
theorem propagatesFailure_iff (tokens : TokensArray) (heof : EofTerminated tokens.tokens)
    (c : Call) (hs : c.start < tokens.tokens.length) :
    PropagatesFailure tokens c ↔
      (∀ d, TransGen (Makes tokens) c d → d.Closed tokens) ∧
        (LiteralsPresent tokens (.call c) →
          ∀ t, ReflTransGen (Source.Reads tokens) (.call c) (.token t) → t.HasCase) := by
  constructor
  · intro h
    exact ⟨fun d => closed_of_propagatesFailure heof hs h,
      fun hliterals t => hasCase_of_propagatesFailure heof hs h hliterals⟩
  · intro h
    obtain ⟨hclosed, hcases⟩ := h
    have htree : ∀ v, c.run tokens = .ok v → v ≠ c.failed → ∀ w, ReflTransGen HasChild v w →
        w ≠ .object none ∧ w ≠ .array none ∧ w ≠ .indeterminate :=
      fun v hv hne w hw => ne_null_of_closed heof hs hclosed hcases hv hne hw
    refine ⟨fun d e hd he hfail => ?_, htree, fun v hv hne => ?_⟩
    · have hce := TransGen.tail' hd he
      have hin := Makes.inBounds heof hs hce.to_reflTransGen
      exact absurd (hclosed e hce) ((Call.run_failed_iff heof hin).mp hfail)
    · cases hcleanup : valueCleanup v with
      | ok _ => rfl
      | error fault =>
        obtain ⟨w, hw, hfault⟩ := valueCleanup_error v hcleanup
        obtain ⟨hobject, harray, hind⟩ := htree v hv hne w hw
        rcases hfault with ⟨-, rfl | rfl⟩ | ⟨-, rfl⟩
        · exact absurd rfl hobject
        · exact absurd rfl harray
        · exact absurd rfl hind

/-- `{"a":[1,2],"b":null}`: the one nested call is closed, and what it keeps
is a number. -/
theorem propagatesFailure_iff_nested :
    let tokens : TokensArray :=
      { tokens := [⟨.leftBrace, none⟩, ⟨.string, some ['a']⟩, ⟨.colon, none⟩,
          ⟨.leftBracket, none⟩, ⟨.number, some ['1']⟩, ⟨.comma, none⟩, ⟨.number, some ['2']⟩,
          ⟨.rightBracket, none⟩, ⟨.comma, none⟩, ⟨.string, some ['b']⟩, ⟨.colon, none⟩,
          ⟨.jsonNull, none⟩, ⟨.rightBrace, none⟩, ⟨.eof, none⟩]
        length := 14 }
    Makes tokens (.object 0) (.array 3) ∧ PropagatesFailure tokens (.object 0) := by
  intro tokens
  have hobject : EntryBases tokens 0 [0] := ⟨12, ⟨1, [8]⟩, rfl, rfl, rfl⟩
  have harray : EntryBases tokens 3 [3] := ⟨7, ⟨1, [5]⟩, rfl, rfl, rfl⟩
  have hkey : (Call.object 0).KeyRead tokens 0 := by
    intro key hkey
    obtain rfl : ⟨.string, some ['a']⟩ = key := Option.some.inj hkey
    nofun
  have hmakes : Makes tokens (.object 0) (.array 3) :=
    .entry ⟨⟨_, rfl, rfl⟩, 12, rfl⟩ (show EntryBases tokens 0 ([] ++ 0 :: []) from hobject) nofun
      hkey (.object (t := ⟨.leftBracket, none⟩) rfl)
  refine ⟨hmakes, (propagatesFailure_iff tokens (by decide) (.object 0) (by decide)).mpr ?_⟩
  have hfirst : ∀ {src}, Source.Reads tokens (.call (.object 0)) src → src = .call (.array 3) := by
    intro src h
    cases h with
    | entry _ hbases hi hat =>
      obtain rfl := hbases.unique hobject
      obtain rfl := List.mem_singleton.mp hi
      exact hat.unique (.object (t := ⟨.leftBracket, none⟩) rfl)
  have hsecond : ∀ {src}, Source.Reads tokens (.call (.array 3)) src →
      src = .token ⟨.number, some ['1']⟩ := by
    intro src h
    cases h with
    | entry _ hbases hi hat =>
      obtain rfl := hbases.unique harray
      obtain rfl := List.mem_singleton.mp hi
      exact hat.unique (.array (show tokens.tokens[4]? = some ⟨.number, some ['1']⟩ from rfl)
        (show tokens.tokens[5]? = some ⟨.comma, none⟩ from rfl))
  have hcalls : ∀ d, TransGen (Makes tokens) (.object 0) d → d = .array 3 := by
    intro d hd
    induction hd with
    | single h => exact Source.call.inj (hfirst h.reads)
    | tail _ h ih =>
      subst ih
      cases hsecond h.reads
  have hsources : ∀ src, ReflTransGen (Source.Reads tokens) (.call (.object 0)) src →
      src = .call (.object 0) ∨ src = .call (.array 3) ∨
        src = .token ⟨.number, some ['1']⟩ := by
    intro src h
    induction h with
    | refl => exact .inl rfl
    | tail _ hstep ih =>
      rcases ih with rfl | rfl | rfl
      · exact .inr (.inl (hfirst hstep))
      · exact .inr (.inr (hsecond hstep))
      · cases hstep
  constructor
  · intro d hd
    obtain rfl := hcalls d hd
    exact ⟨⟨_, rfl, rfl⟩, 7, rfl⟩
  · intro _ t ht
    rcases hsources _ ht with h | h | h
    · cases h
    · cases h
    · obtain rfl := Source.token.inj h
      trivial

/-- The tokens of `{"a":[{]},"b":1}`: the array fails, the object keeps its
NULL, and the cleanup follows it. -/
theorem parseObject_keeps_null :
    let tokens : TokensArray :=
      { tokens := [⟨.leftBrace, none⟩, ⟨.string, some ['a']⟩, ⟨.colon, none⟩,
          ⟨.leftBracket, none⟩, ⟨.leftBrace, none⟩, ⟨.rightBracket, none⟩, ⟨.rightBrace, none⟩,
          ⟨.comma, none⟩, ⟨.string, some ['b']⟩, ⟨.colon, none⟩, ⟨.number, some ['1']⟩,
          ⟨.rightBrace, none⟩, ⟨.eof, none⟩]
        length := 13 }
    let object : JsonObject := [{ key := some ['a'], value := .array none }]
    EofTerminated tokens.tokens ∧ parseArray tokens 3 = .ok none ∧
      parseObject tokens 0 = .ok (some object) ∧
      jsonObjectCleanup (some object) = .error .nullPointer ∧
      ¬ PropagatesFailure tokens (.object 0) := by
  intro tokens object
  have hrun : Call.run tokens (.object 0) = .ok (.object (some object)) := rfl
  have hchild : HasChild (.object (some object)) (.array none) :=
    .property (show { key := some ['a'], value := .array none } ∈ object from by simp [object])
  refine ⟨by decide, rfl, rfl, rfl, fun h => ?_⟩
  exact (h.tree _ hrun nofun _ (.single hchild)).2.1 rfl

end CWebServer.Json
