/-
CWebServer.Json.Calls — the calls a parse makes and the tree it returns.

Every value of the returned tree has one of two sources: a further call of
`parseObject` or `parseArray`, or a single token handed to `_parseValue`.
`Source.Reads` is the step from a call to the sources of its entries, and
it depends on the bracket scan and the separator table only, not on what
any call returns. `HasChild` is the step from a value to the values stored
in it. The two match (`bisimulation_value`), so that what holds of every
source reached holds of every value anywhere in the tree, and the other
way round (`exists_source`, `exists_stored`).

A call returns at all exactly when no literal is missing where it or a call
nested in it reads one (`Source.value_ok_iff`).

The last section follows the cleanups over a tree: they fail on a NULL
child or an unassigned value of it and on nothing else.

No `sorry`, no `axiom`, no `native_decide`.
-/
import CWebServer.Json.ParserTheorems
import CWebServer.Runs.Bisimulation

namespace CWebServer.Json

open Libc Nesting Relation Runs

/-! ## Calls and sources -/

/-- A call `parseObject(tokens, start)` or `parseArray(tokens, start)`. -/
inductive Call where
  | object (start : Nat)
  | array (start : Nat)
  deriving DecidableEq, Repr

namespace Call

def start : Call → Nat
  | .object start => start
  | .array start => start

def opening : Call → TokenType
  | .object _ => .leftBrace
  | .array _ => .leftBracket

/-- What the caller stores of the call's result. -/
def run (tokens : TokensArray) : Call → Except Fault JsonValue
  | .object start => do
    let object ← parseObject tokens start
    .ok (.object object)
  | .array start => do
    let array ← parseArray tokens start
    .ok (.array array)

/-- What it stores when the call returns NULL. -/
def failed : Call → JsonValue
  | .object _ => .object none
  | .array _ => .array none

/-- The call's own bracket is there and its closer is found. -/
def Closed (tokens : TokensArray) (c : Call) : Prop :=
  Json.Closed tokens c.opening c.start

/-- The loop body at `i`, and the value it makes. -/
def entry (tokens : TokensArray) (i : Nat) : Call → Except Fault JsonValue
  | .object _ => do
    let property ← objectEntry tokens (parseObject tokens) (parseArray tokens) i
    .ok property.value
  | .array _ => arrayEntry tokens (parseObject tokens) (parseArray tokens) i

/-- The key behind `i`, which an object duplicates, has a literal. -/
def KeyRead (tokens : TokensArray) (i : Nat) : Call → Prop
  | .object _ => ∀ key, tokens.tokens[i + 1]? = some key → key.literal ≠ none
  | .array _ => True

end Call

/-- Where a value comes from. -/
inductive Source where
  | call (c : Call)
  | token (t : Token)
  deriving DecidableEq, Repr

namespace Source

def value (tokens : TokensArray) : Source → Except Fault JsonValue
  | .call c => c.run tokens
  | .token t => parseValue t

/-- The value of the property at base `i`, from the token at `i + 3`. -/
def ofObject (i : Nat) (t : Token) : Source :=
  if t.type = .leftBrace then .call (.object (i + 3))
  else if t.type = .leftBracket then .call (.array (i + 3))
  else .token t

/-- The element at base `i`, from the tokens at `i + 1` and `i + 2`. -/
def ofArray (i : Nat) (t second : Token) : Source :=
  if t.type = .leftBracket then .call (.array (i + 1))
  else if second.type = .leftBrace then .call (.object (i + 1))
  else .token t

/-- The source of one entry of a call. -/
inductive ReadsAt (tokens : TokensArray) (i : Nat) : Call → Source → Prop where
  | object {start : Nat} {t : Token} :
      tokens.tokens[i + 3]? = some t → ReadsAt tokens i (.object start) (ofObject i t)
  | array {start : Nat} {t second : Token} :
      tokens.tokens[i + 1]? = some t → tokens.tokens[i + 2]? = some second →
        ReadsAt tokens i (.array start) (ofArray i t second)

/-- The second source is that of an entry of the first. -/
inductive Reads (tokens : TokensArray) : Source → Source → Prop where
  | entry {c : Call} {bases : List Nat} {i : Nat} {src : Source} :
      c.Closed tokens → EntryBases tokens c.start bases → i ∈ bases → ReadsAt tokens i c src →
        Reads tokens (.call c) src

/-- The call lies inside the array. -/
def InBounds (tokens : TokensArray) : Source → Prop
  | .call c => c.start < tokens.tokens.length
  | .token _ => True

end Source

/-- No literal is missing where it is read: of a key, a string or a number
in any object or array that the source gets to. -/
structure LiteralsPresent (tokens : TokensArray) (src : Source) : Prop where
  values : ∀ t, ReflTransGen (Source.Reads tokens) src (.token t) → t.LiteralRead
  keys : ∀ c bases, ReflTransGen (Source.Reads tokens) src (.call c) → c.Closed tokens →
    EntryBases tokens c.start bases → ∀ i ∈ bases, c.KeyRead tokens i

theorem LiteralsPresent.of_reads {tokens : TokensArray} {src src' : Source}
    (h : LiteralsPresent tokens src) (hreads : Source.Reads tokens src src') :
    LiteralsPresent tokens src' where
  values := fun t ht => h.values t (.head hreads ht)
  keys := fun c bases hc => h.keys c bases (.head hreads hc)

/-! ## Values and their children -/

/-- The second value is stored directly in the first. -/
inductive HasChild : JsonValue → JsonValue → Prop where
  | property {object : JsonObject} {p : ObjectProperty} :
      p ∈ object → HasChild (.object (some object)) p.value
  | element {array : JsonArray} {v : JsonValue} :
      v ∈ array → HasChild (.array (some array)) v

/-- A value of `_parseValue` is neither an object nor an array. -/
theorem parseValue_ne {t : Token} {v : JsonValue} (h : parseValue t = .ok v) :
    (∀ o, v ≠ .object o) ∧ ∀ a, v ≠ .array a := by
  unfold parseValue at h
  split at h
  · obtain ⟨_, -, heq⟩ := bind_ok_iff.mp h
    obtain rfl := Except.ok.inj heq
    exact ⟨nofun, nofun⟩
  · obtain ⟨_, -, heq⟩ := bind_ok_iff.mp h
    obtain rfl := Except.ok.inj heq
    exact ⟨nofun, nofun⟩
  all_goals
    obtain rfl := Except.ok.inj h
    exact ⟨nofun, nofun⟩

theorem not_hasChild_of_parseValue {t : Token} {v w : JsonValue} (h : parseValue t = .ok v) :
    ¬ HasChild v w := by
  intro hchild
  obtain ⟨hobject, harray⟩ := parseValue_ne h
  cases hchild with
  | property => exact hobject _ rfl
  | element => exact harray _ rfl

/-! ## One entry -/

section

variable {tokens : TokensArray} {i : Nat} {c : Call}

theorem Source.exists_readsAt (c : Call) (hi : i + 3 < tokens.tokens.length) :
    ∃ src, ReadsAt tokens i c src := by
  cases c with
  | object start => exact ⟨_, .object (List.getElem?_eq_getElem hi)⟩
  | array start =>
    exact ⟨_, .array (List.getElem?_eq_getElem (show i + 1 < tokens.tokens.length by omega))
      (List.getElem?_eq_getElem (show i + 2 < tokens.tokens.length by omega))⟩

theorem Source.ReadsAt.unique {src src' : Source} (h : ReadsAt tokens i c src)
    (h' : ReadsAt tokens i c src') : src = src' := by
  cases h with
  | object ht =>
    cases h' with
    | object ht' =>
      rw [ht, Option.some.injEq] at ht'
      rw [ht']
  | array ht hsecond =>
    cases h' with
    | array ht' hsecond' =>
      rw [ht, Option.some.injEq] at ht'
      rw [hsecond, Option.some.injEq] at hsecond'
      rw [ht', hsecond']

/-- A nested call starts further up, inside the array. -/
theorem Source.ReadsAt.start_lt {d : Call} (hle : c.start ≤ i)
    (hlt : i + 3 < tokens.tokens.length) (h : ReadsAt tokens i c (.call d)) :
    c.start < d.start ∧ d.start < tokens.tokens.length := by
  generalize hsrc : Source.call d = src at h
  cases h with
  | object ht =>
    unfold ofObject at hsrc
    split_ifs at hsrc <;> cases hsrc <;> change _ < i + 3 ∧ i + 3 < _ <;> omega
  | array ht hsecond =>
    unfold ofArray at hsrc
    split_ifs at hsrc <;> cases hsrc <;> change _ < i + 1 ∧ i + 1 < _ <;> omega

theorem Call.run_object_iff {start : Nat} {v : JsonValue} :
    (Call.object start).run tokens = .ok v ↔
      ∃ o, parseObject tokens start = .ok o ∧ v = .object o := by
  simp only [run, bind_ok_iff, Except.ok.injEq, eq_comm (a := v)]

theorem Call.run_array_iff {start : Nat} {v : JsonValue} :
    (Call.array start).run tokens = .ok v ↔
      ∃ a, parseArray tokens start = .ok a ∧ v = .array a := by
  simp only [run, bind_ok_iff, Except.ok.injEq, eq_comm (a := v)]

/-- The source of a property as the loop body of `parseObject` tells it. -/
theorem Source.ofObject_value {t : Token} {v : JsonValue} :
    (ofObject i t).value tokens = .ok v ↔
      (t.type = .leftBrace ∧ ∃ o, parseObject tokens (i + 3) = .ok o ∧ v = .object o) ∨
        (t.type = .leftBracket ∧ ∃ a, parseArray tokens (i + 3) = .ok a ∧ v = .array a) ∨
        (t.type ≠ .leftBrace ∧ t.type ≠ .leftBracket ∧ parseValue t = .ok v) := by
  unfold ofObject
  split_ifs with hbrace hbracket
  · simp [value, Call.run_object_iff, hbrace]
  · simp [value, Call.run_array_iff, hbracket]
  · simp [value, hbrace, hbracket]

theorem Source.ofArray_value {t second : Token} {v : JsonValue} :
    (ofArray i t second).value tokens = .ok v ↔
      (t.type = .leftBracket ∧ ∃ a, parseArray tokens (i + 1) = .ok a ∧ v = .array a) ∨
        (t.type ≠ .leftBracket ∧ second.type = .leftBrace ∧
          ∃ o, parseObject tokens (i + 1) = .ok o ∧ v = .object o) ∨
        (t.type ≠ .leftBracket ∧ second.type ≠ .leftBrace ∧ parseValue t = .ok v) := by
  unfold ofArray
  split_ifs with hbracket hbrace
  · simp [value, Call.run_array_iff, hbracket]
  · simp [value, Call.run_object_iff, hbracket, hbrace]
  · simp [value, hbrace, hbracket]

/-- The loop body makes the value of its source, once it has the key. -/
theorem Call.entry_iff (hi : i + 3 < tokens.tokens.length) {v : JsonValue} :
    c.entry tokens i = .ok v ↔
      c.KeyRead tokens i ∧ ∃ src, Source.ReadsAt tokens i c src ∧ src.value tokens = .ok v := by
  cases c with
  | object start =>
    obtain ⟨first, hfirst⟩ := at_ok (show i + 1 < tokens.tokens.length by omega)
    rw [at_ok_iff] at hfirst
    rw [entry, bind_ok_iff]
    constructor
    · intro h
      obtain ⟨property, hproperty, heq⟩ := h
      obtain rfl := Except.ok.inj heq
      obtain ⟨key, t, hkey, ht, hcopy, hvalue⟩ := objectEntry_iff.mp hproperty
      refine ⟨fun key' hkey' => ?_, _, .object ht, Source.ofObject_value.mpr hvalue⟩
      rw [hkey, Option.some.injEq] at hkey'
      exact hkey' ▸ (strdup_ok_iff.mp hcopy).2
    · intro h
      obtain ⟨hread, src, hat, hvalue⟩ := h
      cases hat with
      | object ht =>
        exact ⟨⟨first.literal, v⟩, objectEntry_iff.mpr ⟨first, _, hfirst, ht,
          strdup_ok_iff.mpr ⟨rfl, hread first hfirst⟩, Source.ofObject_value.mp hvalue⟩, rfl⟩
  | array start =>
    have h2 : i + 2 < tokens.tokens.length := by omega
    rw [entry, KeyRead, arrayEntry_iff h2, true_and]
    constructor
    · intro h
      obtain ⟨t, second, ht, hsecond, hvalue⟩ := h
      exact ⟨_, .array ht hsecond, Source.ofArray_value.mpr hvalue⟩
    · intro h
      obtain ⟨src, hat, hvalue⟩ := h
      cases hat with
      | array ht hsecond => exact ⟨_, _, ht, hsecond, Source.ofArray_value.mp hvalue⟩

/-- An entry is made when its key and what its source reads are there. -/
theorem Call.entry_ok (hi : i + 3 < tokens.tokens.length)
    (hkey : c.KeyRead tokens i)
    (hvalue : ∀ src, Source.ReadsAt tokens i c src → ∃ v, src.value tokens = .ok v) :
    ∃ v, c.entry tokens i = .ok v := by
  obtain ⟨src, hat⟩ := Source.exists_readsAt c hi
  obtain ⟨v, hv⟩ := hvalue src hat
  exact ⟨v, (Call.entry_iff hi).mpr ⟨hkey, src, hat, hv⟩⟩

end

/-! ## What a call returns -/

theorem forall₂_of_mem_right {α β : Type} {R : α → β → Prop} : ∀ {as : List α} {bs : List β},
    List.Forall₂ R as bs → ∀ b ∈ bs, ∃ a ∈ as, R a b
  | _, _, .nil, b, hb => nomatch hb
  | a :: _, _ :: _, .cons h hrest, b, hb => by
      rcases List.mem_cons.mp hb with rfl | hb
      · exact ⟨a, by simp, h⟩
      · obtain ⟨a', ha', hR⟩ := forall₂_of_mem_right hrest b hb
        exact ⟨a', by simp [ha'], hR⟩

theorem forall₂_of_mem_left {α β : Type} {R : α → β → Prop} {as : List α} {bs : List β}
    (h : List.Forall₂ R as bs) : ∀ a ∈ as, ∃ b ∈ bs, R a b :=
  forall₂_of_mem_right h.flip

section

variable {tokens : TokensArray} (heof : EofTerminated tokens.tokens)

include heof

section

variable {c : Call} (hs : c.start < tokens.tokens.length)

include hs

/-- A call whose bracket is not closed returns NULL. -/
theorem Call.run_open (hopen : ¬ c.Closed tokens) : c.run tokens = .ok c.failed := by
  cases c with
  | object start => exact run_object_iff.mpr ⟨none, (parseObject_none_iff heof hs).mpr hopen, rfl⟩
  | array start => exact run_array_iff.mpr ⟨none, (parseArray_none_iff heof hs).mpr hopen, rfl⟩

variable (hclosed : c.Closed tokens)

include hclosed

/-- A closed call returns when its loop body does at every base. -/
theorem Call.run_ok (hmade : ∀ bases, EntryBases tokens c.start bases →
    ∀ i ∈ bases, ∃ w, c.entry tokens i = .ok w) : ∃ v, c.run tokens = .ok v := by
  cases c with
  | object start =>
    change start < _ at hs
    have hparse : ∃ o, parseObject tokens start = .ok o := by
      rw [parseObject_eq heof hs]
      refine parseEntries_ok heof hs fun bases hbases i hi => ?_
      obtain ⟨w, hw⟩ := hmade bases hbases i hi
      obtain ⟨property, hproperty, -⟩ := bind_ok_iff.mp hw
      exact ⟨property, hproperty⟩
    obtain ⟨o, ho⟩ := hparse
    exact ⟨_, run_object_iff.mpr ⟨o, ho, rfl⟩⟩
  | array start =>
    change start < _ at hs
    have hparse : ∃ a, parseArray tokens start = .ok a := by
      rw [parseArray_eq heof hs]
      exact parseEntries_ok heof hs hmade
    obtain ⟨a, ha⟩ := hparse
    exact ⟨_, run_array_iff.mpr ⟨a, ha, rfl⟩⟩

variable {bases : List Nat} (hbases : EntryBases tokens c.start bases) {v : JsonValue}
  (hv : c.run tokens = .ok v)

include hbases hv

/-- What a closed call returns holds one value a base, and is not NULL. -/
theorem Call.run_entries : v ≠ c.failed ∧ ∃ vs,
    List.Forall₂ (fun i w => c.entry tokens i = .ok w) bases vs ∧ ∀ w, HasChild v w ↔ w ∈ vs := by
  cases c with
  | object start =>
    change start < _ at hs
    obtain ⟨o, ho, rfl⟩ := run_object_iff.mp hv
    rw [parseObject_eq heof hs, parseEntries_iff heof hs] at ho
    obtain ⟨hopen, -⟩ | ⟨-, bases', es, hbases', rfl, hes⟩ := ho
    · exact absurd hclosed hopen
    · obtain rfl := hbases.unique hbases'
      refine ⟨nofun, es.map (·.value), ?_, fun w => ?_⟩
      · rw [List.forall₂_map_right_iff]
        refine hes.imp fun i p hp => ?_
        rw [entry]
        exact bind_ok_iff.mpr ⟨p, hp, rfl⟩
      · rw [List.mem_map]
        constructor
        · intro hchild
          cases hchild with
          | @property _ p hp => exact ⟨p, hp, rfl⟩
        · intro h
          obtain ⟨p, hp, rfl⟩ := h
          exact .property hp
  | array start =>
    change start < _ at hs
    obtain ⟨a, ha, rfl⟩ := run_array_iff.mp hv
    rw [parseArray_eq heof hs, parseEntries_iff heof hs] at ha
    obtain ⟨hopen, -⟩ | ⟨-, bases', es, hbases', rfl, hes⟩ := ha
    · exact absurd hclosed hopen
    · obtain rfl := hbases.unique hbases'
      refine ⟨nofun, es, hes, fun w => ⟨fun hchild => ?_, .element⟩⟩
      cases hchild with
      | element hw => exact hw

/-- Every entry of it was made. -/
theorem Call.run_made : ∀ i ∈ bases, ∃ w, HasChild v w ∧ c.entry tokens i = .ok w := by
  obtain ⟨-, vs, hvs, hchild⟩ := Call.run_entries heof hs hclosed hbases hv
  intro i hi
  obtain ⟨w, hw, hentry⟩ := forall₂_of_mem_left hvs i hi
  exact ⟨w, (hchild w).mpr hw, hentry⟩

end

/-- A call that returns NULL is not closed. -/
theorem Call.run_failed_iff {c : Call} (hs : c.start < tokens.tokens.length) :
    c.run tokens = .ok c.failed ↔ ¬ c.Closed tokens := by
  refine ⟨fun h hclosed => ?_, Call.run_open heof hs⟩
  obtain ⟨bases, hbases⟩ := exists_entryBases heof hs hclosed
  exact (Call.run_entries heof hs hclosed hbases h).1 rfl

/-! ## Sources and values match -/

theorem Source.Reads.inBounds {src src' : Source} (hin : src.InBounds tokens)
    (h : Reads tokens src src') : src'.InBounds tokens := by
  cases h with
  | entry _ hbases hi hat =>
    obtain ⟨hle, hlt⟩ := hbases.bounds heof hin _ hi
    cases src' with
    | token t => trivial
    | call d => exact (hat.start_lt hle hlt).2

/-- The children of what a call returns are the values of what it reads. -/
theorem Call.hasChild_iff {c : Call} (hs : c.start < tokens.tokens.length) {v v' : JsonValue}
    (hv : c.run tokens = .ok v) :
    HasChild v v' ↔ ∃ src, Source.Reads tokens (.call c) src ∧ src.value tokens = .ok v' := by
  by_cases hclosed : c.Closed tokens
  · obtain ⟨bases, hbases⟩ := exists_entryBases heof hs hclosed
    obtain ⟨-, vs, hvs, hchild⟩ := Call.run_entries heof hs hclosed hbases hv
    constructor
    · intro h
      obtain ⟨i, hi, hentry⟩ := forall₂_of_mem_right hvs v' ((hchild v').mp h)
      obtain ⟨-, src, hat, hvalue⟩ := (Call.entry_iff (hbases.bounds heof hs i hi).2).mp hentry
      exact ⟨src, .entry hclosed hbases hi hat, hvalue⟩
    · intro h
      obtain ⟨src, hreads, hvalue⟩ := h
      cases hreads with
      | @entry _ bases' i _ _ hbases' hi hat =>
        obtain rfl := hbases.unique hbases'
        obtain ⟨w, hw, hentry⟩ := Call.run_made heof hs hclosed hbases hv i hi
        obtain ⟨-, src', hat', hvalue'⟩ := (Call.entry_iff (hbases.bounds heof hs i hi).2).mp hentry
        rw [hat.unique hat', hvalue', Except.ok.injEq] at hvalue
        exact hvalue ▸ hw
  · rw [Call.run_open heof hs hclosed, Except.ok.injEq] at hv
    subst hv
    constructor
    · intro h
      cases c <;> cases h
    · intro h
      obtain ⟨src, hreads, -⟩ := h
      cases hreads with
      | entry hopen _ _ _ => exact absurd hopen hclosed

/-- What a call that returns reads has a value. -/
theorem Source.Reads.exists_value {c : Call} {src : Source} (h : Reads tokens (.call c) src)
    (hs : c.start < tokens.tokens.length) {v : JsonValue} (hv : c.run tokens = .ok v) :
    ∃ w, src.value tokens = .ok w := by
  cases h with
  | @entry _ bases i _ hclosed hbases hi hat =>
    obtain ⟨w, -, hentry⟩ := Call.run_made heof hs hclosed hbases hv i hi
    obtain ⟨-, src', hat', hvalue⟩ := (Call.entry_iff (hbases.bounds heof hs i hi).2).mp hentry
    exact ⟨w, hat.unique hat' ▸ hvalue⟩

/-- Reading and having a child go together, from any source and its value. -/
theorem bisimulation_value : Bisimulation (Source.Reads tokens) HasChild
    (fun src v => src.InBounds tokens ∧ src.value tokens = .ok v) where
  forth := by
    intro src src' v h hreads
    obtain ⟨hin, hv⟩ := h
    cases src with
    | token t => cases hreads
    | call c =>
      obtain ⟨v', hv'⟩ := hreads.exists_value heof hin hv
      exact ⟨v', (Call.hasChild_iff heof hin hv).mpr ⟨src', hreads, hv'⟩,
        hreads.inBounds heof hin, hv'⟩
  back := by
    intro src v v' h hchild
    obtain ⟨hin, hv⟩ := h
    cases src with
    | token t => exact absurd hchild (not_hasChild_of_parseValue hv)
    | call c =>
      obtain ⟨src', hreads, hv'⟩ := (Call.hasChild_iff heof hin hv).mp hchild
      exact ⟨src', hreads, hreads.inBounds heof hin, hv'⟩

section

variable {src : Source} (hin : src.InBounds tokens) {v : JsonValue}
  (hv : src.value tokens = .ok v)

include hin hv

/-- Each value stored in a returned tree is the value of a source reached. -/
theorem exists_source {w : JsonValue} (h : ReflTransGen HasChild v w) :
    ∃ src', ReflTransGen (Source.Reads tokens) src src' ∧ src'.InBounds tokens ∧
      src'.value tokens = .ok w :=
  (bisimulation_value heof).symm.reflTransGen
    (show src.InBounds tokens ∧ src.value tokens = .ok v from ⟨hin, hv⟩) h

/-- Each source reached lies inside the array and has its value stored in
the returned tree. -/
theorem exists_stored {src' : Source} (h : ReflTransGen (Source.Reads tokens) src src') :
    src'.InBounds tokens ∧ ∃ w, ReflTransGen HasChild v w ∧ src'.value tokens = .ok w := by
  obtain ⟨w, hw, hin', hvalue⟩ := (bisimulation_value heof).reflTransGen
    (show src.InBounds tokens ∧ src.value tokens = .ok v from ⟨hin, hv⟩) h
  exact ⟨hin', w, hw, hvalue⟩

/-- A source with a value has read every literal it needed. -/
theorem literalsPresent_of_value : LiteralsPresent tokens src where
  values := by
    intro t ht
    obtain ⟨-, w, -, hvalue⟩ := exists_stored heof hin hv ht
    exact parseValue_ok_iff.mp ⟨w, hvalue⟩
  keys := by
    intro c bases hc hclosed hbases i hi
    obtain ⟨hs, w, -, hrun⟩ := exists_stored heof hin hv hc
    obtain ⟨u, -, hentry⟩ := Call.run_made heof hs hclosed hbases hrun i hi
    exact ((Call.entry_iff (hbases.bounds heof hs i hi).2).mp hentry).1

end

/-- By induction on what is left of the array behind the source: each nested
call starts further up. -/
theorem value_of_literalsPresent (n : Nat) : ∀ src : Source, src.InBounds tokens →
    (∀ c, src = .call c → tokens.tokens.length - c.start ≤ n) → LiteralsPresent tokens src →
      ∃ v, src.value tokens = .ok v := by
  induction n with
  | zero =>
    intro src hin hn h
    cases src with
    | token t => exact parseValue_ok_iff.mpr (h.values t .refl)
    | call c =>
      have := hn c rfl
      change c.start < _ at hin
      omega
  | succ n ih =>
    intro src hin hn h
    cases src with
    | token t => exact parseValue_ok_iff.mpr (h.values t .refl)
    | call c =>
      by_cases hclosed : c.Closed tokens
      · refine Call.run_ok heof hin hclosed fun bases hbases i hi => ?_
        obtain ⟨hle, hlt⟩ := hbases.bounds heof hin i hi
        refine Call.entry_ok hlt (h.keys c bases .refl hclosed hbases i hi) fun src hat => ?_
        have hreads : Source.Reads tokens (.call c) src := .entry hclosed hbases hi hat
        refine ih src (hreads.inBounds heof hin) (fun d hd => ?_) (h.of_reads hreads)
        subst hd
        have := (hat.start_lt hle hlt).1
        have := hn c rfl
        omega
      · exact ⟨_, Call.run_open heof hin hclosed⟩

/-- **A call returns** exactly when no literal is missing where it or a call
nested in it reads one. -/
theorem Source.value_ok_iff {src : Source} (hin : src.InBounds tokens) :
    (∃ v, src.value tokens = .ok v) ↔ LiteralsPresent tokens src := by
  constructor
  · intro h
    obtain ⟨v, hv⟩ := h
    exact literalsPresent_of_value heof hin hv
  · exact value_of_literalsPresent heof tokens.tokens.length src hin fun c _ => Nat.sub_le _ _

end


/-! ## The cleanups -/

/-- What a cleanup of `v` fails on, with the fault. -/
def CleanupFault (e : Fault) (v : JsonValue) : Prop :=
  ∃ w, ReflTransGen HasChild v w ∧
    ((e = .nullPointer ∧ (w = .object none ∨ w = .array none)) ∨
      (e = .indeterminate ∧ w = .indeterminate))

theorem CleanupFault.of_child {e : Fault} {v w : JsonValue} (h : CleanupFault e w)
    (hchild : HasChild v w) : CleanupFault e v := by
  obtain ⟨u, hu, he⟩ := h
  exact ⟨u, hu.head hchild, he⟩

mutual

theorem valueCleanup_error : ∀ (v : JsonValue) {e : Fault},
    valueCleanup v = .error e → CleanupFault e v
  | .array none, e, h => by
      rw [valueCleanup, jsonArrayCleanup, Except.error.injEq] at h
      exact ⟨_, .refl, .inl ⟨h.symm, .inr rfl⟩⟩
  | .array (some elements), e, h => by
      rw [valueCleanup, jsonArrayCleanup] at h
      obtain ⟨v, hv, hfault⟩ := elementsCleanup_error elements h
      exact hfault.of_child (.element hv)
  | .object none, e, h => by
      rw [valueCleanup, jsonObjectCleanup, Except.error.injEq] at h
      exact ⟨_, .refl, .inl ⟨h.symm, .inl rfl⟩⟩
  | .object (some properties), e, h => by
      rw [valueCleanup, jsonObjectCleanup] at h
      obtain ⟨p, hp, hfault⟩ := propertiesCleanup_error properties h
      exact hfault.of_child (.property hp)
  | .indeterminate, e, h => by
      rw [valueCleanup, Except.error.injEq] at h
      exact ⟨_, .refl, .inr ⟨h.symm, rfl⟩⟩
  | .string _, e, h => by simp [valueCleanup] at h
  | .number _, e, h => by simp [valueCleanup] at h
  | .boolean _, e, h => by simp [valueCleanup] at h
  | .null, e, h => by simp [valueCleanup] at h

theorem elementsCleanup_error : ∀ (elements : List JsonValue) {e : Fault},
    elementsCleanup elements = .error e → ∃ v ∈ elements, CleanupFault e v
  | [], e, h => by simp [elementsCleanup] at h
  | v :: rest, e, h => by
      rw [elementsCleanup, bind_error_iff] at h
      rcases h with h | ⟨_, -, h⟩
      · exact ⟨v, by simp, valueCleanup_error v h⟩
      · obtain ⟨w, hw, hfault⟩ := elementsCleanup_error rest h
        exact ⟨w, by simp [hw], hfault⟩

theorem propertiesCleanup_error : ∀ (properties : List (ObjectPropertyOf JsonValue)) {e : Fault},
    propertiesCleanup properties = .error e → ∃ p ∈ properties, CleanupFault e p.value
  | [], e, h => by simp [propertiesCleanup] at h
  | ⟨key, value⟩ :: rest, e, h => by
      rw [propertiesCleanup, propertyCleanup, bind_error_iff] at h
      rcases h with h | ⟨_, -, h⟩
      · exact ⟨⟨key, value⟩, by simp, valueCleanup_error value h⟩
      · obtain ⟨p, hp, hfault⟩ := propertiesCleanup_error rest h
        exact ⟨p, by simp [hp], hfault⟩

end

end CWebServer.Json
