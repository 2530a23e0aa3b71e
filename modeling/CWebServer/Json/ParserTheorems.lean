/-
CWebServer.Json.ParserTheorems — `parseObject` and `parseArray` stay
inside their arrays and end, on every token array that ends in its only
`TOKEN_EOF`.

The safety of the fixed offsets `i + 1`, `i + 2`, `i + 3` is indirect. The
scan for commas stops one token short of the closer, so the last recorded
comma is two below it; an entry is read from the comma BEFORE the one that
counts it, which is one lower still (`EntryBases.bounds`). The recursion
moves strictly upward from `start`, so the number of tokens bounds its
depth.

`parseEntries_iff` is what the later modules use: a call returns NULL
exactly when its bracket is not closed, and otherwise one entry for each
base position, each by one run of the loop body. What stops a call on its
way is a NULL literal and nothing else (`parseObject_faultsIn`).
`parseObject_eq` and `parseArray_eq` remove the fuel.

No `sorry`, no `axiom`, no `native_decide`.
-/
import CWebServer.Json.ScanTheorems

namespace CWebServer.Json

open Libc Nesting

/-! ## The token array -/

theorem at_ok_iff {tokens : TokensArray} {i : Nat} {t : Token} :
    tokens.at i = .ok t ↔ tokens.tokens[i]? = some t := by
  unfold TokensArray.at
  cases tokens.tokens[i]? <;> simp

theorem at_ok {tokens : TokensArray} {i : Nat} (h : i < tokens.tokens.length) :
    ∃ t, tokens.at i = .ok t :=
  ⟨tokens.tokens[i], at_ok_iff.mpr (List.getElem?_eq_getElem h)⟩

/-- The first token of a part of the array, and the rest. -/
theorem of_drop_eq_cons {tokens : TokensArray} {start : Nat} {t : Token} {w : List Token}
    (h : tokens.tokens.drop start = t :: w) :
    tokens.tokens[start]? = some t ∧ tokens.tokens.drop (start + 1) = w := by
  constructor
  · rw [← List.head?_drop, h]
    rfl
  · rw [← List.tail_drop, h]
    rfl

/-! ## The bracket scan on a token array -/

theorem enclosingTokenOf_ne_eof {type enclosingToken : TokenType}
    (h : enclosingTokenOf type = some enclosingToken) : enclosingToken ≠ .eof := by
  cases type <;> simp [enclosingTokenOf] at h <;> simp [← h]

/-- At an opening bracket the scan is the loop from the next position on. -/
theorem findEnclosingTokenPosition_open {tokens : TokensArray} {start : Nat} {t : Token}
    {enclosingToken : TokenType} (ht : tokens.tokens[start]? = some t)
    (hopen : enclosingTokenOf t.type = some enclosingToken) :
    findEnclosingTokenPosition tokens start =
      findEnclosingLoop enclosingToken (tokens.tokens.drop (start + 1)) (start + 1) 0 0 := by
  unfold findEnclosingTokenPosition
  rw [at_ok_iff.mpr ht]
  simp only [bind, Except.bind, hopen]

/-- At any other token there is no scan. -/
theorem findEnclosingTokenPosition_other {tokens : TokensArray} {start : Nat} {t : Token}
    (ht : tokens.tokens[start]? = some t) (hopen : enclosingTokenOf t.type = none) :
    findEnclosingTokenPosition tokens start = .ok none := by
  unfold findEnclosingTokenPosition
  rw [at_ok_iff.mpr ht]
  simp only [bind, Except.bind, hopen]

/-- What `_findEnclosingTokenPosition` returns at an opening bracket. -/
theorem findEnclosingTokenPosition_cases {tokens : TokensArray}
    (heof : EofTerminated tokens.tokens) {start : Nat} {t : Token} {enclosingToken : TokenType}
    (ht : tokens.tokens[start]? = some t) (hopen : enclosingTokenOf t.type = some enclosingToken) :
    (NoStop enclosingToken 0 0 (tokens.tokens.drop (start + 1)) ∧
      findEnclosingTokenPosition tokens start = .ok none) ∨
    (∃ pre u post, tokens.tokens.drop (start + 1) = pre ++ u :: post ∧ post ≠ [] ∧
      NoStop enclosingToken 0 0 pre ∧ StopsAt enclosingToken 0 0 pre u ∧
      findEnclosingTokenPosition tokens start = .ok (some (start + 1 + pre.length))) := by
  have hne : t.type ≠ .eof := by
    intro h
    rw [h] at hopen
    exact nomatch hopen
  rw [findEnclosingTokenPosition_open ht hopen]
  exact findEnclosingLoop_cases (enclosingTokenOf_ne_eof hopen)
    (heof.drop (heof.succ_lt ht hne)) (start + 1) 0 0

theorem findEnclosingTokenPosition_ok {tokens : TokensArray}
    (heof : EofTerminated tokens.tokens) {start : Nat} (hs : start < tokens.tokens.length) :
    ∃ r, findEnclosingTokenPosition tokens start = .ok r ∧
      ∀ e, r = some e → start < e ∧ e + 1 < tokens.tokens.length := by
  obtain ⟨t, ht⟩ := at_ok hs
  rw [at_ok_iff] at ht
  cases hopen : enclosingTokenOf t.type with
  | none => exact ⟨none, findEnclosingTokenPosition_other ht hopen, nofun⟩
  | some enclosingToken =>
    rcases findEnclosingTokenPosition_cases heof ht hopen with
      ⟨-, heq⟩ | ⟨pre, u, post, hsplit, hpost, -, -, heq⟩
    · exact ⟨none, heq, nofun⟩
    · refine ⟨_, heq, fun e he => ?_⟩
      have hlen := congrArg List.length hsplit
      have hpos := List.length_pos_iff.mpr hpost
      simp only [List.length_drop, List.length_append, List.length_cons] at hlen
      cases he
      omega

/-! ## Base positions -/

theorem commaPositions_pairwise (i : Nat) (b k : Int) (w : List Token) :
    (commaPositions i b k w).Pairwise (· < ·) := by
  induction w generalizing i b k with
  | nil => exact List.Pairwise.nil
  | cons t w ih =>
    rw [commaPositions]
    split_ifs
    · refine List.Pairwise.cons (fun p hp => ?_) (ih _ _ _)
      obtain ⟨pre, u, post, -, rfl, -⟩ := mem_commaPositions.mp hp
      omega
    · exact ih _ _ _

/-- The table of a bracket pair: increasing, inside the pair, and at least
two below the closer. -/
theorem getSeparatorsData_ok {tokens : TokensArray} (start : Nat) {e : Nat}
    (he : e < tokens.tokens.length) :
    ∃ positions, getSeparatorsData tokens start e =
        .ok { length := positions.length, positions } ∧
      (start :: positions).Pairwise (· < ·) ∧ ∀ p ∈ positions, p + 1 < e := by
  obtain ⟨positions, heq, hpos⟩ := getSeparatorsData_eq start he
  have hmem : ∀ p ∈ positions, start < p ∧ p + 1 < e := by
    intro p hp
    rw [hpos] at hp
    obtain ⟨pre, u, post, hsplit, rfl, -⟩ := mem_commaPositions.mp hp
    have hlen := congrArg List.length hsplit
    simp only [List.length_take, List.length_append, List.length_cons] at hlen
    omega
  refine ⟨positions, heq, List.Pairwise.cons (fun p hp => (hmem p hp).1) ?_,
    fun p hp => (hmem p hp).2⟩
  rw [hpos]
  exact commaPositions_pairwise _ _ _ _

/-- The positions the shared loop runs its body at: `start`, then every
recorded comma but the last. -/
def EntryBases (tokens : TokensArray) (start : Nat) (bases : List Nat) : Prop :=
  ∃ e data, findEnclosingTokenPosition tokens start = .ok (some e) ∧
    getSeparatorsData tokens start e = .ok data ∧
    bases = (start :: data.positions).take data.length

/-- Every base has a recorded position above it. -/
theorem exists_above_of_mem_take {a : Nat} {ps : List Nat} (hsorted : (a :: ps).Pairwise (· < ·))
    {i : Nat} (hi : i ∈ (a :: ps).take ps.length) : a ≤ i ∧ ∃ p ∈ ps, i < p := by
  induction ps generalizing a with
  | nil => simp at hi
  | cons p ps ih =>
    obtain ⟨ha, hps⟩ := List.pairwise_cons.mp hsorted
    rw [List.length_cons, List.take_succ_cons, List.mem_cons] at hi
    rcases hi with rfl | hi
    · exact ⟨Nat.le_refl _, p, by simp, ha p (by simp)⟩
    · obtain ⟨hle, q, hq, hlt⟩ := ih hps hi
      have := ha p (by simp)
      exact ⟨by omega, q, by simp [hq], hlt⟩

/-- The fixed offsets are safe: from a base the next three positions are
at most the closer, which is not the last token. -/
theorem EntryBases.bounds {tokens : TokensArray} (heof : EofTerminated tokens.tokens)
    {start : Nat} {bases : List Nat} (hs : start < tokens.tokens.length)
    (h : EntryBases tokens start bases) :
    ∀ i ∈ bases, start ≤ i ∧ i + 3 < tokens.tokens.length := by
  obtain ⟨e, data, hfind, hdata, rfl⟩ := h
  obtain ⟨r, hr, hbound⟩ := findEnclosingTokenPosition_ok heof hs
  rw [hfind, Except.ok.injEq] at hr
  obtain ⟨-, he⟩ := hbound e hr.symm
  obtain ⟨positions, heq, hsorted, hlast⟩ := getSeparatorsData_ok start
    (Nat.lt_of_succ_lt he)
  rw [heq, Except.ok.injEq] at hdata
  subst hdata
  intro i hi
  obtain ⟨hle, p, hp, hlt⟩ := exists_above_of_mem_take hsorted hi
  have := hlast p hp
  omega

/-! ## The shared loop -/

/-- With `left` iterations to go from index `j`, the loop runs its body at
`i` and at the recorded positions from `j` on, in order. -/
theorem separatorsLoop_eq {α : Type} (positions : List Nat) (body : Nat → Except Fault α)
    (left i j : Nat) (entries : List α) (hlen : left + j = positions.length) :
    separatorsLoop { length := positions.length, positions } body left i j entries =
      (((i :: positions.drop j).take left).mapM body >>= fun es => .ok (entries ++ es)) := by
  induction left generalizing i j entries with
  | zero =>
    rw [separatorsLoop, List.take_zero, List.mapM_nil]
    exact congrArg Except.ok (List.append_nil entries).symm
  | succ left ih =>
    have hj : j < positions.length := by omega
    have hat : SeparatorsData.at { length := positions.length, positions } j
        = .ok positions[j] := by
      unfold SeparatorsData.at
      rw [List.getElem?_eq_getElem hj]
    have hdrop : positions.drop j = positions[j] :: positions.drop (j + 1) :=
      List.drop_eq_getElem_cons hj
    rw [separatorsLoop, List.take_succ_cons, List.mapM_cons, hdrop, bind_assoc]
    refine bind_congr fun x => ?_
    rw [hat, bind_assoc]
    refine (ih positions[j] (j + 1) (entries ++ [x]) (by omega)).trans ?_
    refine bind_congr fun es => ?_
    exact congrArg Except.ok (List.append_assoc entries [x] es)

/-! ## One call -/

/-- The call gets as far as its loop: the token at `start` opens the right
kind of bracket and the scan finds its closer. -/
def Closed (tokens : TokensArray) (opening : TokenType) (start : Nat) : Prop :=
  (∃ t, tokens.tokens[start]? = some t ∧ t.type = opening) ∧
    ∃ e, findEnclosingTokenPosition tokens start = .ok (some e)

section

variable {α : Type} {tokens : TokensArray} {opening : TokenType} {body : Nat → Except Fault α}
  {start : Nat}

theorem EntryBases.unique {bases bases' : List Nat} (h : EntryBases tokens start bases)
    (h' : EntryBases tokens start bases') : bases = bases' := by
  obtain ⟨e, data, hfind, hdata, rfl⟩ := h
  obtain ⟨e', data', hfind', hdata', rfl⟩ := h'
  rw [hfind, Except.ok.injEq, Option.some.injEq] at hfind'
  subst hfind'
  rw [hdata, Except.ok.injEq] at hdata'
  rw [hdata']

/-- A call at another token returns NULL. -/
theorem parseEntries_other {t : Token} (ht : tokens.tokens[start]? = some t)
    (htype : t.type ≠ opening) : parseEntries tokens opening body start = .ok none := by
  simp only [parseEntries, at_ok_iff.mpr ht, htype, bind, Except.bind, ne_eq, not_false_eq_true,
    if_true]

/-- So does a call whose scan finds no closer. -/
theorem parseEntries_unclosed {t : Token} (ht : tokens.tokens[start]? = some t)
    (htype : t.type = opening) (hfind : findEnclosingTokenPosition tokens start = .ok none) :
    parseEntries tokens opening body start = .ok none := by
  simp only [parseEntries, at_ok_iff.mpr ht, hfind, htype, bind, Except.bind, ne_eq, not_true,
    if_false]

/-- A call whose bracket is closed is its loop body, run at each base. -/
theorem parseEntries_table {t : Token} {e : Nat} {positions : List Nat}
    (ht : tokens.tokens[start]? = some t) (htype : t.type = opening)
    (hfind : findEnclosingTokenPosition tokens start = .ok (some e))
    (hdata : getSeparatorsData tokens start e = .ok { length := positions.length, positions }) :
    parseEntries tokens opening body start =
      (((start :: positions).take positions.length).mapM body >>= fun entries =>
        .ok (some entries)) := by
  have hloop := separatorsLoop_eq positions body positions.length start 0 [] rfl
  rw [List.drop_zero] at hloop
  unfold parseEntries
  rw [at_ok_iff.mpr ht, hfind]
  simp only [bind, Except.bind, hdata, htype, ne_eq, not_true, if_false] at hloop ⊢
  rw [hloop]
  cases ((start :: positions).take positions.length).mapM body <;> rfl

variable (heof : EofTerminated tokens.tokens) (hs : start < tokens.tokens.length)

include heof hs

/-- A call whose bracket is not closed returns before its loop. -/
theorem parseEntries_open (hopen : ¬ Closed tokens opening start) :
    parseEntries tokens opening body start = .ok none := by
  obtain ⟨t, hat⟩ := at_ok hs
  rw [at_ok_iff] at hat
  obtain ⟨found, hfound, -⟩ := findEnclosingTokenPosition_ok heof hs
  by_cases htype : t.type = opening
  · cases found with
    | none => exact parseEntries_unclosed hat htype hfound
    | some e => exact absurd ⟨⟨t, hat, htype⟩, e, hfound⟩ hopen
  · exact parseEntries_other hat htype

/-- A closed bracket has its bases, and they are what the loop runs over. -/
theorem parseEntries_closed (hclosed : Closed tokens opening start) :
    ∃ bases, EntryBases tokens start bases ∧ ∀ body : Nat → Except Fault α,
      parseEntries tokens opening body start =
        (bases.mapM body >>= fun entries => .ok (some entries)) := by
  obtain ⟨⟨t, ht, htype⟩, e, hfind⟩ := hclosed
  obtain ⟨found, hfound, hbound⟩ := findEnclosingTokenPosition_ok heof hs
  rw [hfind, Except.ok.injEq] at hfound
  obtain ⟨-, he⟩ := hbound e hfound.symm
  obtain ⟨positions, hdata, -, -⟩ := getSeparatorsData_ok start (Nat.lt_of_succ_lt he)
  exact ⟨_, ⟨e, _, hfind, hdata, rfl⟩, fun body => parseEntries_table ht htype hfind hdata⟩

theorem exists_entryBases (hclosed : Closed tokens opening start) :
    ∃ bases, EntryBases tokens start bases := by
  obtain ⟨bases, hbases, -⟩ := parseEntries_closed (α := Unit) heof hs hclosed
  exact ⟨bases, hbases⟩

/-- A call returns NULL exactly when its bracket is not closed, and
otherwise an entry for each base, made by the loop body there. -/
theorem parseEntries_iff {r : Option (List α)} :
    parseEntries tokens opening body start = .ok r ↔
      (¬ Closed tokens opening start ∧ r = none) ∨
      (Closed tokens opening start ∧ ∃ bases es, EntryBases tokens start bases ∧ r = some es ∧
        List.Forall₂ (fun i x => body i = .ok x) bases es) := by
  by_cases hclosed : Closed tokens opening start
  · obtain ⟨bases, hbases, heq⟩ := parseEntries_closed (α := α) heof hs hclosed
    simp only [heq, bind_ok_iff, mapM_ok_iff, hclosed, not_true, false_and, false_or, true_and]
    constructor
    · intro h
      obtain ⟨es, hes, hr⟩ := h
      exact ⟨bases, es, hbases, (Except.ok.inj hr).symm, hes⟩
    · intro h
      obtain ⟨bases', es, hbases', hr, hes⟩ := h
      exact ⟨es, hbases.unique hbases' ▸ hes, congrArg Except.ok hr.symm⟩
  · rw [parseEntries_open heof hs hclosed]
    simp [hclosed, eq_comm]

/-- A call returns when its loop body does at every base. -/
theorem parseEntries_ok
    (hbody : ∀ bases, EntryBases tokens start bases → ∀ i ∈ bases, ∃ x, body i = .ok x) :
    ∃ r, parseEntries tokens opening body start = .ok r := by
  by_cases hclosed : Closed tokens opening start
  · obtain ⟨bases, hbases, heq⟩ := parseEntries_closed (α := α) heof hs hclosed
    obtain ⟨es, hes⟩ := exists_mapM_ok (hbody bases hbases)
    exact ⟨some es, by rw [heq, hes]; rfl⟩
  · exact ⟨none, parseEntries_open heof hs hclosed⟩

/-- What two loop bodies agree on, so do the calls. -/
theorem parseEntries_congr {body' : Nat → Except Fault α}
    (hbody : ∀ i, start ≤ i → i + 3 < tokens.tokens.length → body i = body' i) :
    parseEntries tokens opening body start = parseEntries tokens opening body' start := by
  by_cases hclosed : Closed tokens opening start
  · obtain ⟨bases, hbases, heq⟩ := parseEntries_closed (α := α) heof hs hclosed
    rw [heq, heq, mapM_congr fun i hi => ?_]
    obtain ⟨hle, hlt⟩ := hbases.bounds heof hs i hi
    exact hbody i hle hlt
  · rw [parseEntries_open heof hs hclosed, parseEntries_open heof hs hclosed]

theorem faultsIn_parseEntries {P : Fault → Prop}
    (hbody : ∀ i, start ≤ i → i + 3 < tokens.tokens.length → FaultsIn P (body i)) :
    FaultsIn P (parseEntries tokens opening body start) := by
  by_cases hclosed : Closed tokens opening start
  · obtain ⟨bases, hbases, heq⟩ := parseEntries_closed (α := α) heof hs hclosed
    rw [heq]
    refine FaultsIn.bind (faultsIn_mapM fun i hi => ?_) fun es => faultsIn_ok _
    obtain ⟨hle, hlt⟩ := hbases.bounds heof hs i hi
    exact hbody i hle hlt
  · rw [parseEntries_open heof hs hclosed]
    exact faultsIn_ok _

end

/-! ## Literals -/

theorem strdup_ok_iff {literal copy : Option (List Char)} :
    strdup literal = .ok copy ↔ copy = literal ∧ literal ≠ none := by
  cases literal <;> simp [strdup, readLiteral, eq_comm]

theorem faultsIn_strdup (literal : Option (List Char)) :
    FaultsIn (· = .nullPointer) (strdup literal) := by
  cases literal with
  | none => exact faultsIn_error rfl
  | some chars => exact faultsIn_ok _

theorem faultsIn_parseValue (t : Token) : FaultsIn (· = .nullPointer) (parseValue t) := by
  unfold parseValue
  split
  · exact (faultsIn_strdup _).bind fun _ => faultsIn_ok _
  · exact (faultsIn_strdup _).bind fun _ => faultsIn_ok _
  · exact faultsIn_ok _
  · exact faultsIn_ok _
  · exact faultsIn_ok _
  · exact faultsIn_ok _

/-- What `_parseValue` reads of a token is there: a string and a number
have their literal. -/
def Token.LiteralRead (t : Token) : Prop :=
  t.type = .string ∨ t.type = .number → t.literal ≠ none

theorem parseValue_ok_iff {t : Token} : (∃ v, parseValue t = .ok v) ↔ t.LiteralRead := by
  obtain ⟨type, literal⟩ := t
  cases type <;> cases literal <;>
    simp [parseValue, Token.LiteralRead, strdup, atof, readLiteral, bind, Except.bind]

/-- `_parseValue` has a case for the token. -/
def Token.HasCase (t : Token) : Prop :=
  match t.type with
  | .string | .number | .jsonTrue | .jsonFalse | .jsonNull => True
  | _ => False

theorem parseValue_indeterminate_iff {t : Token} :
    parseValue t = .ok .indeterminate ↔ ¬ t.HasCase := by
  obtain ⟨type, literal⟩ := t
  cases type <;> cases literal <;>
    simp [parseValue, Token.HasCase, strdup, atof, readLiteral, bind, Except.bind]

/-! ## The two loop bodies -/

section

variable {tokens tokens' : TokensArray} {object object' : Nat → Except Fault (Option JsonObject)}
  {array array' : Nat → Except Fault (Option JsonArray)} {i i' : Nat}

/-- What the loop body of `parseObject` makes of the tokens behind `i`. -/
theorem objectEntry_iff {entry : ObjectProperty} :
    objectEntry tokens object array i = .ok entry ↔
      ∃ key t, tokens.tokens[i + 1]? = some key ∧ tokens.tokens[i + 3]? = some t ∧
        strdup key.literal = .ok entry.key ∧
        ((t.type = .leftBrace ∧ ∃ o, object (i + 3) = .ok o ∧ entry.value = .object o) ∨
          (t.type = .leftBracket ∧ ∃ a, array (i + 3) = .ok a ∧ entry.value = .array a) ∨
          (t.type ≠ .leftBrace ∧ t.type ≠ .leftBracket ∧ parseValue t = .ok entry.value)) := by
  obtain ⟨entryKey, entryValue⟩ := entry
  unfold objectEntry
  simp only [bind_ok_iff, at_ok_iff]
  constructor
  · intro h
    obtain ⟨key, hkey, copy, hcopy, t, ht, h⟩ := h
    refine ⟨key, t, hkey, ht, ?_⟩
    split_ifs at h with hbrace hbracket
    · obtain ⟨o, ho, heq⟩ := bind_ok_iff.mp h
      cases heq
      exact ⟨hcopy, Or.inl ⟨hbrace, o, ho, rfl⟩⟩
    · obtain ⟨a, ha, heq⟩ := bind_ok_iff.mp h
      cases heq
      exact ⟨hcopy, Or.inr (Or.inl ⟨hbracket, a, ha, rfl⟩)⟩
    · obtain ⟨v, hv, heq⟩ := bind_ok_iff.mp h
      cases heq
      exact ⟨hcopy, Or.inr (Or.inr ⟨hbrace, hbracket, hv⟩)⟩
  · intro h
    obtain ⟨key, t, hkey, ht, hcopy, h⟩ := h
    refine ⟨key, hkey, entryKey, hcopy, t, ht, ?_⟩
    rcases h with ⟨hbrace, o, ho, rfl⟩ | ⟨hbracket, a, ha, rfl⟩ | ⟨hbrace, hbracket, hv⟩
    · rw [if_pos hbrace]
      exact bind_ok_iff.mpr ⟨o, ho, rfl⟩
    · rw [if_neg (by rw [hbracket]; decide), if_pos hbracket]
      exact bind_ok_iff.mpr ⟨a, ha, rfl⟩
    · rw [if_neg hbrace, if_neg hbracket]
      exact bind_ok_iff.mpr ⟨entryValue, hv, rfl⟩

/-- What the loop body of `parseArray` makes of the tokens behind `i`. -/
theorem arrayEntry_iff (h2 : i + 2 < tokens.tokens.length) {entry : JsonValue} :
    arrayEntry tokens object array i = .ok entry ↔
      ∃ t second, tokens.tokens[i + 1]? = some t ∧ tokens.tokens[i + 2]? = some second ∧
        ((t.type = .leftBracket ∧ ∃ a, array (i + 1) = .ok a ∧ entry = .array a) ∨
          (t.type ≠ .leftBracket ∧ second.type = .leftBrace ∧
            ∃ o, object (i + 1) = .ok o ∧ entry = .object o) ∨
          (t.type ≠ .leftBracket ∧ second.type ≠ .leftBrace ∧ parseValue t = .ok entry)) := by
  obtain ⟨second, hsecond⟩ := at_ok h2
  rw [at_ok_iff] at hsecond
  unfold arrayEntry
  simp only [bind_ok_iff, at_ok_iff]
  constructor
  · intro h
    obtain ⟨t, ht, h⟩ := h
    refine ⟨t, second, ht, hsecond, ?_⟩
    split_ifs at h with hbracket
    · obtain ⟨a, ha, heq⟩ := bind_ok_iff.mp h
      cases heq
      exact Or.inl ⟨hbracket, a, ha, rfl⟩
    · simp only [bind_ok_iff, at_ok_iff] at h
      obtain ⟨u, hu, h⟩ := h
      rw [hsecond, Option.some.injEq] at hu
      subst hu
      split_ifs at h with hbrace
      · obtain ⟨o, ho, heq⟩ := bind_ok_iff.mp h
        cases heq
        exact Or.inr (Or.inl ⟨hbracket, hbrace, o, ho, rfl⟩)
      · exact Or.inr (Or.inr ⟨hbracket, hbrace, h⟩)
  · intro h
    obtain ⟨t, u, ht, hu, h⟩ := h
    refine ⟨t, ht, ?_⟩
    rcases h with ⟨hbracket, a, ha, rfl⟩ | ⟨hbracket, hbrace, o, ho, rfl⟩ | ⟨hbracket, hbrace, hv⟩
    · rw [if_pos hbracket]
      exact bind_ok_iff.mpr ⟨a, ha, rfl⟩
    · rw [if_neg hbracket, bind_ok_iff]
      refine ⟨u, at_ok_iff.mpr hu, ?_⟩
      rw [if_pos hbrace]
      exact bind_ok_iff.mpr ⟨o, ho, rfl⟩
    · rw [if_neg hbracket, bind_ok_iff]
      refine ⟨u, at_ok_iff.mpr hu, ?_⟩
      rw [if_neg hbrace]
      exact hv

/-- The tokens read and the nested calls made decide a property. -/
theorem objectEntry_congr (hkey : tokens.at (i + 1) = tokens'.at (i' + 1))
    (hvalue : tokens.at (i + 3) = tokens'.at (i' + 3))
    (hobject : object (i + 3) = object' (i' + 3)) (harray : array (i + 3) = array' (i' + 3)) :
    objectEntry tokens object array i = objectEntry tokens' object' array' i' := by
  simp only [objectEntry, hkey, hvalue, hobject, harray]

theorem arrayEntry_congr (hfirst : tokens.at (i + 1) = tokens'.at (i' + 1))
    (hsecond : tokens.at (i + 2) = tokens'.at (i' + 2))
    (hobject : object (i + 1) = object' (i' + 1)) (harray : array (i + 1) = array' (i' + 1)) :
    arrayEntry tokens object array i = arrayEntry tokens' object' array' i' := by
  simp only [arrayEntry, hfirst, hsecond, hobject, harray]

theorem faultsIn_at {P : Fault → Prop} (hi : i < tokens.tokens.length) :
    FaultsIn P (tokens.at i) := by
  obtain ⟨t, ht⟩ := at_ok hi
  rw [ht]
  exact faultsIn_ok t

theorem faultsIn_objectEntry (hi : i + 3 < tokens.tokens.length)
    (hobject : FaultsIn (· = .nullPointer) (object (i + 3)))
    (harray : FaultsIn (· = .nullPointer) (array (i + 3))) :
    FaultsIn (· = .nullPointer) (objectEntry tokens object array i) := by
  refine (faultsIn_at (by omega)).bind fun key => (faultsIn_strdup _).bind fun copy =>
    (faultsIn_at hi).bind fun t => ?_
  split_ifs
  · exact hobject.bind fun _ => faultsIn_ok _
  · exact harray.bind fun _ => faultsIn_ok _
  · exact (faultsIn_parseValue t).bind fun _ => faultsIn_ok _

theorem faultsIn_arrayEntry (hi : i + 2 < tokens.tokens.length)
    (hobject : FaultsIn (· = .nullPointer) (object (i + 1)))
    (harray : FaultsIn (· = .nullPointer) (array (i + 1))) :
    FaultsIn (· = .nullPointer) (arrayEntry tokens object array i) := by
  refine (faultsIn_at (by omega)).bind fun t => ?_
  split_ifs
  · exact harray.bind fun _ => faultsIn_ok _
  · refine (faultsIn_at hi).bind fun second => ?_
    split_ifs
    · exact hobject.bind fun _ => faultsIn_ok _
    · exact faultsIn_parseValue t

end

/-! ## Totality -/

/-- Fuel for every token from `start` on is enough, each nested call starting
further up, and then only a NULL literal stops the parse. -/
theorem faultsIn_parseFuel {tokens : TokensArray} (heof : EofTerminated tokens.tokens)
    (fuel start : Nat) (hs : start < tokens.tokens.length)
    (hfuel : tokens.tokens.length ≤ start + fuel) :
    FaultsIn (· = .nullPointer) (parseObjectFuel tokens fuel start) ∧
      FaultsIn (· = .nullPointer) (parseArrayFuel tokens fuel start) := by
  induction fuel generalizing start with
  | zero => omega
  | succ fuel ih =>
    rw [parseObjectFuel, parseArrayFuel]
    constructor
    · refine faultsIn_parseEntries heof hs fun i hle hlt => ?_
      obtain ⟨hobject, harray⟩ := ih (i + 3) hlt (by omega)
      exact faultsIn_objectEntry hlt hobject harray
    · refine faultsIn_parseEntries heof hs fun i hle hlt => ?_
      obtain ⟨hobject, harray⟩ := ih (i + 1) (by omega) (by omega)
      exact faultsIn_arrayEntry (by omega) hobject harray

/-- How much more of it there is does not matter. -/
theorem parseFuel_eq {tokens : TokensArray} (heof : EofTerminated tokens.tokens)
    (fuel fuel' start : Nat) (hs : start < tokens.tokens.length)
    (hfuel : tokens.tokens.length ≤ start + fuel) (hfuel' : tokens.tokens.length ≤ start + fuel') :
    parseObjectFuel tokens fuel start = parseObjectFuel tokens fuel' start ∧
      parseArrayFuel tokens fuel start = parseArrayFuel tokens fuel' start := by
  induction fuel generalizing fuel' start with
  | zero => omega
  | succ fuel ih =>
    obtain ⟨fuel', rfl⟩ : ∃ n, fuel' = n + 1 := ⟨fuel' - 1, by omega⟩
    rw [parseObjectFuel, parseObjectFuel, parseArrayFuel, parseArrayFuel]
    constructor
    · refine parseEntries_congr heof hs fun i hle hlt => ?_
      obtain ⟨hobject, harray⟩ := ih fuel' (i + 3) hlt (by omega) (by omega)
      exact objectEntry_congr rfl rfl hobject harray
    · refine parseEntries_congr heof hs fun i hle hlt => ?_
      obtain ⟨hobject, harray⟩ := ih fuel' (i + 1) (by omega) (by omega) (by omega)
      exact arrayEntry_congr rfl rfl hobject harray

section

variable {tokens : TokensArray} (heof : EofTerminated tokens.tokens) {start : Nat}
  (hs : start < tokens.tokens.length)

include heof hs

theorem parseObjectFuel_eq (fuel : Nat) (hfuel : tokens.tokens.length ≤ start + fuel) :
    parseObjectFuel tokens fuel start = parseObject tokens start :=
  (parseFuel_eq heof fuel tokens.tokens.length start hs hfuel (by omega)).1

theorem parseArrayFuel_eq (fuel : Nat) (hfuel : tokens.tokens.length ≤ start + fuel) :
    parseArrayFuel tokens fuel start = parseArray tokens start :=
  (parseFuel_eq heof fuel tokens.tokens.length start hs hfuel (by omega)).2

/-- `parseObject` unfolds to itself: the recursion of the source. -/
theorem parseObject_eq : parseObject tokens start = parseEntries tokens .leftBrace
    (objectEntry tokens (parseObject tokens) (parseArray tokens)) start := by
  rw [← parseObjectFuel_eq heof hs (tokens.tokens.length + 1) (by omega), parseObjectFuel]
  rfl

theorem parseArray_eq : parseArray tokens start = parseEntries tokens .leftBracket
    (arrayEntry tokens (parseObject tokens) (parseArray tokens)) start := by
  rw [← parseArrayFuel_eq heof hs (tokens.tokens.length + 1) (by omega), parseArrayFuel]
  rfl

theorem parseObject_faultsIn : FaultsIn (· = .nullPointer) (parseObject tokens start) :=
  (faultsIn_parseFuel heof tokens.tokens.length start hs (by omega)).1

theorem parseArray_faultsIn : FaultsIn (· = .nullPointer) (parseArray tokens start) :=
  (faultsIn_parseFuel heof tokens.tokens.length start hs (by omega)).2

theorem parseObject_none_iff :
    parseObject tokens start = .ok none ↔ ¬ Closed tokens .leftBrace start := by
  rw [parseObject_eq heof hs, parseEntries_iff heof hs]
  simp

theorem parseArray_none_iff :
    parseArray tokens start = .ok none ↔ ¬ Closed tokens .leftBracket start := by
  rw [parseArray_eq heof hs, parseEntries_iff heof hs]
  simp

end

/-- In the terms of the counters: a bracket is closed when some closer of
its kind stands where, kind by kind, nothing opened behind it is open. -/
theorem closed_iff {tokens : TokensArray} (heof : EofTerminated tokens.tokens)
    {opening enclosingToken : TokenType} (hopen : enclosingTokenOf opening = some enclosingToken)
    {start : Nat} :
    Closed tokens opening start ↔ ∃ t pre u post,
      tokens.tokens.drop start = t :: (pre ++ u :: post) ∧ t.type = opening ∧
        StopsAt enclosingToken 0 0 pre u := by
  constructor
  · intro h
    obtain ⟨⟨t, ht, rfl⟩, e, he⟩ := h
    have hcons : tokens.tokens.drop start = t :: tokens.tokens.drop (start + 1) := by
      obtain ⟨hlt, hget⟩ := List.getElem?_eq_some_iff.mp ht
      rw [List.drop_eq_getElem_cons hlt, hget]
    rcases findEnclosingTokenPosition_cases heof ht hopen with
      ⟨-, hnone⟩ | ⟨pre, u, post, hsplit, -, -, hstop, -⟩
    · rw [hnone] at he
      exact nomatch he
    · exact ⟨t, pre, u, post, by rw [hcons, hsplit], rfl, hstop⟩
  · intro h
    obtain ⟨t, pre, u, post, hsplit, rfl, hstop⟩ := h
    obtain ⟨ht, hrest⟩ := of_drop_eq_cons hsplit
    refine ⟨⟨t, ht, rfl⟩, ?_⟩
    rcases findEnclosingTokenPosition_cases heof ht hopen with ⟨hns, -⟩ | ⟨_, _, _, -, -, -, -, heq⟩
    · exact absurd hstop (hns pre u post hrest)
    · exact ⟨_, heq⟩

end CWebServer.Json
