/-
CWebServer.Json.Windows — a bracketed stretch is parsed the same wherever
it stands.

Both scans of `parser.c` run over the shared array with absolute indices,
and the bracket scan has no bound but `TOKEN_EOF`. On a stretch that is
properly nested they still read nothing outside it: the bracket scan leaves
at the closer or at a `TOKEN_EOF` before it, the separator scan ends before
the closer, and what they find is relative to where the stretch begins
(`entryBases`). So the entries of a call are given by the stretch alone
(`parseEntries_window`), and since every call an entry makes is at a
bracket inside the stretch, which opens a shorter one
(`exists_bracketed`), so is its result (`parse_local`): it is that of the
stretch alone.

`parse_context_independent` says it of two arrays.

No `sorry`, no `axiom`, no `native_decide`.
-/
import CWebServer.Json.ParserTheorems

namespace CWebServer.Json

open Libc Nesting

/-! ## Windows -/

/-- The array reads `w` from position `start` on. -/
def StandsAt (tokens : TokensArray) (start : Nat) (w : List Token) : Prop :=
  w <+: tokens.tokens.drop start

theorem StandsAt.getElem? {tokens : TokensArray} {start : Nat} {w : List Token}
    (h : StandsAt tokens start w) {i : Nat} (hi : i < w.length) :
    tokens.tokens[start + i]? = w[i]? := by
  obtain ⟨post, hpost⟩ := h
  rw [← List.getElem?_drop, ← hpost, List.getElem?_append_left hi]

/-- A part of what stands at `start` stands further on. -/
theorem StandsAt.part {tokens : TokensArray} {start : Nat} {p w s : List Token}
    (h : StandsAt tokens start (p ++ (w ++ s))) : StandsAt tokens (start + p.length) w := by
  obtain ⟨post, hpost⟩ := h
  refine ⟨s ++ post, ?_⟩
  rw [← List.drop_drop, ← hpost]
  simp

theorem StandsAt.left {tokens : TokensArray} {start : Nat} {w s : List Token}
    (h : StandsAt tokens start (w ++ s)) : StandsAt tokens start w :=
  (List.prefix_append w s).trans h

theorem StandsAt.length_le {tokens : TokensArray} {start : Nat} {w : List Token}
    (h : StandsAt tokens start w) : w.length ≤ tokens.tokens.length :=
  (List.IsPrefix.length_le h).trans (by simp)

theorem standsAt_of_eq {tokens : TokensArray} {pre w post : List Token}
    (h : tokens.tokens = pre ++ w ++ post) : StandsAt tokens pre.length w :=
  ⟨post, by simp [h]⟩

/-- From an opening bracket to its closer. -/
inductive Bracketed (opening : TokenType) : List Token → Prop where
  | mk {o c : Token} {v : List Token} : o.type = opening →
      enclosingTokenOf opening = some c.type → Nested tokenShape v →
      Bracketed opening (o :: (v ++ [c]))

/-- The brackets of a pair are of one kind. -/
theorem exists_kind {opening enclosingToken : TokenType}
    (h : enclosingTokenOf opening = some enclosingToken) :
    ∃ kind, (∀ t : Token, t.type = opening ↔ tokenShape t = .opening kind) ∧
      ∀ t : Token, t.type = enclosingToken ↔ tokenShape t = .closing kind := by
  cases opening <;> simp only [enclosingTokenOf, Option.some.injEq, reduceCtorEq] at h
  case leftBrace =>
    subst h
    exact ⟨.brace, fun t => by unfold tokenShape; cases t.type <;> simp,
      fun t => by unfold tokenShape; cases t.type <;> simp⟩
  case leftBracket =>
    subst h
    exact ⟨.bracket, fun t => by unfold tokenShape; cases t.type <;> simp,
      fun t => by unfold tokenShape; cases t.type <;> simp⟩

theorem Bracketed.two_le {opening : TokenType} {w : List Token} (h : Bracketed opening w) :
    2 ≤ w.length := by
  cases h
  simp

/-- Fuel that covers a stretch is some. -/
theorem Bracketed.exists_fuel {opening : TokenType} {w : List Token} (h : Bracketed opening w)
    {fuel : Nat} (hfuel : w.length ≤ fuel) : ∃ n, fuel = n + 1 := by
  have := h.two_le
  exact ⟨fuel - 1, by omega⟩

theorem Bracketed.nested {opening : TokenType} {w : List Token} (h : Bracketed opening w) :
    Nested tokenShape w := by
  cases h with
  | mk ho hc hv =>
    obtain ⟨kind, hopening, hclosing⟩ := exists_kind hc
    exact .wrap ((hopening _).mp ho) ((hclosing _).mp rfl) hv .nil

/-- Every opening bracket of a nested stretch is closed in it. -/
theorem exists_bracketed {w : List Token} (h : Nested tokenShape w)
    {opening enclosingToken : TokenType} (hpair : enclosingTokenOf opening = some enclosingToken)
    {q : Nat} {t : Token} (ht : w[q]? = some t) (htype : t.type = opening) :
    ∃ p w' s, w = p ++ (w' ++ s) ∧ p.length = q ∧ Bracketed opening w' := by
  obtain ⟨kind, hopening, hclosing⟩ := exists_kind hpair
  obtain ⟨hlt, rfl⟩ := List.getElem?_eq_some_iff.mp ht
  have hsplit : w = w.take q ++ w[q] :: w.drop (q + 1) := by simp
  obtain ⟨v, c, s, hdrop, hv, hc⟩ := h.exists_closing hsplit ((hopening _).mp htype)
  refine ⟨w.take q, w[q] :: (v ++ [c]), s, ?_, List.length_take_of_le (Nat.le_of_lt hlt),
    .mk htype (by rw [hpair, (hclosing c).mpr hc]) hv⟩
  rw [hdrop] at hsplit
  simpa using hsplit

/-! ## The scans on a window -/

/-- Inside a nested stretch no closer stands at counts zero. -/
theorem noStop_of_nested {w : List Token} (hw : Nested tokenShape w) {kind : BracketKind}
    {enclosingToken : TokenType}
    (hclose : ∀ t : Token, t.type = enclosingToken → tokenShape t = .closing kind) :
    NoStop enclosingToken 0 0 w := by
  rintro pre t post rfl ⟨ht, hbrace, hbracket⟩
  have hpos := hw.excess_before_closing rfl (hclose t ht)
  have hcount := hw.unclosed_prefix kind 0
  cases kind with
  | brace =>
    rw [hbrace] at hcount
    omega
  | bracket =>
    rw [hbracket] at hcount
    omega

/-- The scan finds the matching closer of a nested stretch. -/
theorem findEnclosingTokenPosition_nested {tokens : TokensArray} {start : Nat} {o c : Token}
    {v post : List Token} {kind : BracketKind} {enclosingToken : TokenType}
    (hsplit : tokens.tokens.drop start = o :: (v ++ c :: post))
    (hopen : enclosingTokenOf o.type = some enclosingToken) (hc : c.type = enclosingToken)
    (hclose : ∀ t : Token, t.type = enclosingToken → tokenShape t = .closing kind)
    (hv : Nested tokenShape v) (heof : ∀ t ∈ v, t.type ≠ .eof) :
    findEnclosingTokenPosition tokens start = .ok (some (start + 1 + v.length)) := by
  obtain ⟨ho, hrest⟩ := of_drop_eq_cons hsplit
  rw [findEnclosingTokenPosition_open ho hopen]
  rw [hrest, findEnclosingLoop_skip enclosingToken v _ _ _ _ heof (noStop_of_nested hv hclose),
    hv.unclosed_eq, hv.unclosed_eq]
  exact findEnclosingLoop_stop _ _ hc (enclosingTokenOf_ne_eof hopen)

theorem exists_first_eof {v : List Token} (h : ¬ ∀ t ∈ v, t.type ≠ .eof) :
    ∃ pre e s, v = pre ++ e :: s ∧ e.type = .eof ∧ ∀ t ∈ pre, t.type ≠ .eof := by
  have hsome : (v.find? fun t => t.type = .eof).isSome := by
    simpa using h
  obtain ⟨e, he⟩ := Option.isSome_iff_exists.mp hsome
  obtain ⟨htype, pre, s, hv, hpre⟩ := List.find?_eq_some_iff_append.mp he
  exact ⟨pre, e, s, hv, by simpa using htype, fun t ht => by simpa using hpre t ht⟩

/-- A `TOKEN_EOF` inside the stretch ends the scan. -/
theorem findEnclosingTokenPosition_eof {tokens : TokensArray} {start : Nat} {o e : Token}
    {pre post : List Token} {kind : BracketKind} {enclosingToken : TokenType}
    (hsplit : tokens.tokens.drop start = o :: (pre ++ e :: post))
    (hopen : enclosingTokenOf o.type = some enclosingToken) (he : e.type = .eof)
    (hclose : ∀ t : Token, t.type = enclosingToken → tokenShape t = .closing kind)
    (hpre : ∀ t ∈ pre, t.type ≠ .eof) {s : List Token} (hv : Nested tokenShape (pre ++ s)) :
    findEnclosingTokenPosition tokens start = .ok none := by
  obtain ⟨ho, hrest⟩ := of_drop_eq_cons hsplit
  have hns : NoStop enclosingToken 0 0 pre := by
    intro p t q hp
    exact noStop_of_nested hv hclose p t (q ++ s) (by rw [hp]; simp)
  rw [findEnclosingTokenPosition_open ho hopen, hrest,
    findEnclosingLoop_skip enclosingToken pre _ _ _ _ hpre hns]
  exact findEnclosingLoop_eof _ _ _ _ _ he (enclosingTokenOf_ne_eof hopen)

theorem commaPositions_shift (d i : Nat) (b k : Int) (w : List Token) :
    commaPositions (d + i) b k w = (commaPositions i b k w).map (d + ·) := by
  induction w generalizing i b k with
  | nil => rfl
  | cons t w ih =>
    rw [commaPositions, commaPositions, Nat.add_assoc, ih]
    split_ifs <;> simp

/-- The commas of a stretch with the contents `v`, from its bracket on. -/
def entryCommas (v : List Token) : List Nat := commaPositions 1 0 0 v.dropLast

/-- The bases of its entries. -/
def entryBases (v : List Token) : List Nat := (0 :: entryCommas v).take (entryCommas v).length

/-- Three tokens behind a base are still in the stretch. -/
theorem lt_of_mem_entryBases {v : List Token} {b : Nat} (hb : b ∈ entryBases v) :
    b + 3 < v.length + 2 := by
  have hmem : ∀ p ∈ entryCommas v, 0 < p ∧ p < v.length := by
    intro p hp
    obtain ⟨pre, t, post, hsplit, rfl, -⟩ := mem_commaPositions.mp hp
    have hlen := congrArg List.length hsplit
    simp only [List.length_dropLast, List.length_append, List.length_cons] at hlen
    omega
  have hsorted : (0 :: entryCommas v).Pairwise (· < ·) :=
    List.Pairwise.cons (fun p hp => (hmem p hp).1) (commaPositions_pairwise _ _ _ _)
  obtain ⟨-, p, hp, hlt⟩ := exists_above_of_mem_take hsorted hb
  have := (hmem p hp).2
  omega

/-! ## A call on a window -/

section

variable {α : Type} {tokens : TokensArray} {opening : TokenType} {body : Nat → Except Fault α}
  {start : Nat} {o c : Token} {v : List Token}

/-- **The entries of a call** are given by the stretch: one for each of its
bases, made by the loop body there. -/
theorem parseEntries_window (hw : StandsAt tokens start (o :: (v ++ [c]))) (ho : o.type = opening)
    (hc : enclosingTokenOf opening = some c.type) (hv : Nested tokenShape v)
    (heof : ∀ t ∈ v, t.type ≠ .eof) :
    parseEntries tokens opening body start =
      ((entryBases v).mapM (fun b => body (start + b)) >>= fun entries =>
        .ok (some entries)) := by
  obtain ⟨post, hpost⟩ := hw
  have hdrop : tokens.tokens.drop start = o :: (v ++ c :: post) := by
    rw [← hpost]
    simp
  obtain ⟨hat, hrest⟩ := of_drop_eq_cons hdrop
  obtain ⟨kind, -, hclose⟩ := exists_kind hc
  have hfind := findEnclosingTokenPosition_nested hdrop (ho ▸ hc) rfl
    (fun t ht => (hclose t).mp ht) hv heof
  have hend : start + 1 + v.length < tokens.tokens.length := by
    have := congrArg List.length hdrop
    simp only [List.length_drop, List.length_cons, List.length_append] at this
    omega
  obtain ⟨positions, hdata, hpositions⟩ := getSeparatorsData_eq start hend
  have htake : (tokens.tokens.drop (start + 1)).take (start + 1 + v.length - 1 - (start + 1)) =
      v.dropLast := by
    rw [hrest, List.dropLast_eq_take, List.take_append_of_le_length (by omega)]
    congr 1
    omega
  have hcommas : positions = (entryCommas v).map (start + ·) := by
    rw [hpositions, htake, commaPositions_shift]
    rfl
  have hbases : (start :: positions).take positions.length =
      (entryBases v).map (start + ·) := by
    rw [hcommas, entryBases, List.map_take]
    simp
  rw [parseEntries_table hat ho hfind hdata, hbases, List.mapM_map]
  rfl

/-- With a `TOKEN_EOF` in the stretch there are none. -/
theorem parseEntries_window_eof (hw : StandsAt tokens start (o :: (v ++ [c])))
    (ho : o.type = opening) (hc : enclosingTokenOf opening = some c.type)
    (hv : Nested tokenShape v) (heof : ¬ ∀ t ∈ v, t.type ≠ .eof) :
    parseEntries tokens opening body start = .ok none := by
  obtain ⟨post, hpost⟩ := hw
  obtain ⟨pre, e, s, rfl, he, hpre⟩ := exists_first_eof heof
  have hdrop : tokens.tokens.drop start = o :: (pre ++ e :: (s ++ c :: post)) := by
    rw [← hpost]
    simp
  obtain ⟨kind, -, hclose⟩ := exists_kind hc
  have hfind := findEnclosingTokenPosition_eof hdrop (ho ▸ hc) he
    (fun t ht => (hclose t).mp ht) hpre hv
  exact parseEntries_unclosed (of_drop_eq_cons hdrop).1 ho hfind

end

/-- What a call makes of a window without `TOKEN_EOF` is no NULL. -/
theorem exists_of_parseEntries {α : Type} {tokens : TokensArray} {opening : TokenType}
    {body : Nat → Except Fault α} {start : Nat} {w : List Token} (hw : Bracketed opening w)
    (hstands : StandsAt tokens start w) (hwide : ∀ t ∈ w, t.type ≠ .eof) {r : Option (List α)}
    (h : parseEntries tokens opening body start = .ok r) : ∃ es, r = some es := by
  cases hw with
  | mk ho hc hv =>
    rw [parseEntries_window hstands ho hc hv fun t ht => hwide t (by simp [ht]), bind_ok_iff] at h
    obtain ⟨es, -, hr⟩ := h
    exact ⟨es, (Except.ok.inj hr).symm⟩

/-! ## Locality -/

/-- The stretch as an array of its own. -/
def alone (w : List Token) : TokensArray := { tokens := w, length := w.length }

theorem standsAt_alone (w : List Token) : StandsAt (alone w) 0 w := List.prefix_refl w

/-- The stretch with a `TOKEN_EOF` behind it. -/
def ended (w : List Token) : TokensArray :=
  { tokens := w ++ [⟨.eof, none⟩], length := w.length + 1 }

theorem standsAt_ended (w : List Token) : StandsAt (ended w) 0 w := List.prefix_append w _

theorem eofTerminated_ended {w : List Token} (hwide : ∀ t ∈ w, t.type ≠ .eof) :
    EofTerminated (ended w).tokens := by
  change EofTerminated (w ++ [⟨.eof, none⟩])
  induction w with
  | nil => exact .last rfl
  | cons t w ih => exact .cons (hwide t (by simp)) (ih fun u hu => hwide u (by simp [hu]))

theorem StandsAt.at_eq {tokens : TokensArray} {start : Nat} {w : List Token}
    (h : StandsAt tokens start w) {i : Nat} (hi : i < w.length) :
    tokens.at (start + i) = (alone w).at i := by
  have hget : w[i]? = some w[i] := List.getElem?_eq_getElem hi
  exact (at_ok_iff.mpr ((h.getElem? hi).trans hget)).trans (at_ok_iff.mpr hget).symm

/-- What `f` makes of a position where `w` stands is what it makes of `w`
alone. -/
def Local {β : Type} (f : TokensArray → (fuel start : Nat) → Except Fault β) (w : List Token) :
    Prop :=
  ∀ tokens fuel start, StandsAt tokens start w → w.length ≤ fuel →
    f tokens fuel start = f (alone w) w.length 0

/-- `f` is given by the stretch wherever a stretch shorter than `n` opens
with `opening`, and returns NULL at any other token. -/
structure LocalBelow {β : Type} (f : TokensArray → (fuel start : Nat) → Except Fault (Option β))
    (opening : TokenType) (n : Nat) : Prop where
  bracketed : ∀ w, w.length < n → Bracketed opening w → Local f w
  other : ∀ {tokens : TokensArray} {fuel start : Nat} {t : Token},
    tokens.tokens[start]? = some t → t.type ≠ opening → f tokens (fuel + 1) start = .ok none

theorem LocalBelow.mono {β : Type}
    {f : TokensArray → (fuel start : Nat) → Except Fault (Option β)} {opening : TokenType}
    {m n : Nat} (h : LocalBelow f opening n) (hle : m ≤ n) : LocalBelow f opening m :=
  ⟨fun w hlt => h.bracketed w (Nat.lt_of_lt_of_le hlt hle), h.other⟩

section

variable {w : List Token} (hw : Nested tokenShape w) {tokens : TokensArray} {fuel n start : Nat}
  (hstands : StandsAt tokens start w) (hfuel : w.length ≤ fuel + 1) (hn : w.length = n + 1)

include hw hstands hfuel hn

/-- A call made inside a stretch. -/
theorem LocalBelow.call {β : Type}
    {f : TokensArray → (fuel start : Nat) → Except Fault (Option β)}
    {opening enclosingToken : TokenType} (hf : LocalBelow f opening w.length)
    (hpair : enclosingTokenOf opening = some enclosingToken) {q : Nat} (hq : 0 < q)
    (hlt : q < w.length) : f tokens fuel (start + q) = f (alone w) n q := by
  have hget : w[q]? = some w[q] := List.getElem?_eq_getElem hlt
  by_cases htype : w[q].type = opening
  · obtain ⟨p, w', s, hsplit, rfl, hw'⟩ := exists_bracketed hw hpair hget htype
    have hshort : w'.length < w.length := by
      have := congrArg List.length hsplit
      simp only [List.length_append] at this
      omega
    have hlocal := hf.bracketed w' hshort hw'
    have houter : StandsAt tokens (start + p.length) w' := by
      rw [hsplit] at hstands
      exact hstands.part
    have hself : StandsAt (alone w) 0 (p ++ (w' ++ s)) := by
      rw [← hsplit]
      exact standsAt_alone w
    have hinner : StandsAt (alone w) p.length w' := by
      have hpart := hself.part
      rwa [Nat.zero_add] at hpart
    exact (hlocal _ _ _ houter (by omega)).trans (hlocal _ _ _ hinner (by omega)).symm
  · obtain ⟨fuel, rfl⟩ : ∃ m, fuel = m + 1 := ⟨fuel - 1, by omega⟩
    obtain ⟨n, rfl⟩ : ∃ m, n = m + 1 := ⟨n - 1, by omega⟩
    exact (hf.other ((hstands.getElem? hlt).trans hget) htype).trans
      (hf.other (show (alone w).tokens[q]? = some w[q] from hget) htype).symm

variable (hobject : LocalBelow parseObjectFuel .leftBrace w.length)
  (harray : LocalBelow parseArrayFuel .leftBracket w.length) {b : Nat} (hb : b + 3 < w.length)

include hobject harray hb

theorem objectEntry_local :
    objectEntry tokens (parseObjectFuel tokens fuel) (parseArrayFuel tokens fuel) (start + b) =
      objectEntry (alone w) (parseObjectFuel (alone w) n) (parseArrayFuel (alone w) n) b :=
  objectEntry_congr (hstands.at_eq (i := b + 1) (by omega)) (hstands.at_eq hb)
    (hobject.call hw hstands hfuel hn rfl (Nat.succ_pos (b + 2)) hb)
    (harray.call hw hstands hfuel hn rfl (Nat.succ_pos (b + 2)) hb)

theorem arrayEntry_local :
    arrayEntry tokens (parseObjectFuel tokens fuel) (parseArrayFuel tokens fuel) (start + b) =
      arrayEntry (alone w) (parseObjectFuel (alone w) n) (parseArrayFuel (alone w) n) b :=
  arrayEntry_congr (hstands.at_eq (i := b + 1) (by omega)) (hstands.at_eq (i := b + 2) (by omega))
    (hobject.call hw hstands hfuel hn rfl (Nat.succ_pos b) (by omega))
    (harray.call hw hstands hfuel hn rfl (Nat.succ_pos b) (by omega))

end

/-- The entries of a call, when those of its stretch are local. -/
theorem parseEntries_local {α : Type} {opening : TokenType} {w : List Token}
    (hw : Bracketed opening w) {tokens : TokensArray} {start : Nat}
    (hstands : StandsAt tokens start w) {body body' : Nat → Except Fault α}
    (hbody : ∀ b, b + 3 < w.length → body (start + b) = body' b) :
    parseEntries tokens opening body start = parseEntries (alone w) opening body' 0 := by
  cases hw with
  | @mk o c v ho hc hv =>
    by_cases heof : ∀ t ∈ v, t.type ≠ .eof
    · rw [parseEntries_window hstands ho hc hv heof,
        parseEntries_window (standsAt_alone _) ho hc hv heof]
      rw [mapM_congr fun b hb => ?_]
      rw [Nat.zero_add]
      refine hbody b ?_
      have := lt_of_mem_entryBases hb
      simp only [List.length_cons, List.length_append, List.length_nil]
      omega
    · rw [parseEntries_window_eof hstands ho hc hv heof,
        parseEntries_window_eof (standsAt_alone _) ho hc hv heof]

/-- **Locality**: what a call makes of a bracketed stretch depends on the
stretch alone. By induction on its length: the calls inside it are at
shorter ones. -/
theorem parse_local (n : Nat) :
    LocalBelow parseObjectFuel .leftBrace n ∧ LocalBelow parseArrayFuel .leftBracket n := by
  induction n with
  | zero =>
    exact ⟨⟨fun w hlt => absurd hlt (Nat.not_lt_zero _), parseEntries_other⟩,
      ⟨fun w hlt => absurd hlt (Nat.not_lt_zero _), parseEntries_other⟩⟩
  | succ n ih =>
    obtain ⟨hobject, harray⟩ := ih
    refine ⟨⟨fun w hlt hw tokens fuel start hstands hfuel => ?_, parseEntries_other⟩,
      ⟨fun w hlt hw tokens fuel start hstands hfuel => ?_, parseEntries_other⟩⟩
    · have hle : w.length ≤ n := by omega
      obtain ⟨fuel, rfl⟩ := hw.exists_fuel hfuel
      obtain ⟨m, hm⟩ := hw.exists_fuel (Nat.le_refl w.length)
      rw [hm, parseObjectFuel, parseObjectFuel]
      exact parseEntries_local hw hstands fun b hb =>
        objectEntry_local hw.nested hstands hfuel hm (hobject.mono hle) (harray.mono hle) hb
    · have hle : w.length ≤ n := by omega
      obtain ⟨fuel, rfl⟩ := hw.exists_fuel hfuel
      obtain ⟨m, hm⟩ := hw.exists_fuel (Nat.le_refl w.length)
      rw [hm, parseArrayFuel, parseArrayFuel]
      exact parseEntries_local hw hstands fun b hb =>
        arrayEntry_local hw.nested hstands hfuel hm (hobject.mono hle) (harray.mono hle) hb

section

variable {w : List Token}

theorem parseObjectFuel_local (hw : Bracketed .leftBrace w) : Local parseObjectFuel w :=
  (parse_local (w.length + 1)).1.bracketed w (Nat.lt_succ_self _) hw

theorem parseArrayFuel_local (hw : Bracketed .leftBracket w) : Local parseArrayFuel w :=
  (parse_local (w.length + 1)).2.bracketed w (Nat.lt_succ_self _) hw

variable {tokens tokens' : TokensArray} {start start' : Nat} (hstands : StandsAt tokens start w)

section

variable (hstands' : StandsAt tokens' start' w)

include hstands hstands'

/-- A stretch is parsed alike at both places. -/
theorem parseObject_local (hw : Bracketed .leftBrace w) :
    parseObject tokens start = parseObject tokens' start' :=
  (parseObjectFuel_local hw _ _ _ hstands hstands.length_le).trans
    (parseObjectFuel_local hw _ _ _ hstands' hstands'.length_le).symm

theorem parseArray_local (hw : Bracketed .leftBracket w) :
    parseArray tokens start = parseArray tokens' start' :=
  (parseArrayFuel_local hw _ _ _ hstands hstands.length_le).trans
    (parseArrayFuel_local hw _ _ _ hstands' hstands'.length_le).symm

end

include hstands

/-- On a window `parseObject` unfolds to itself, whatever stands behind it. -/
theorem parseObject_window (hw : Bracketed .leftBrace w) :
    parseObject tokens start = parseEntries tokens .leftBrace
      (objectEntry tokens (parseObject tokens) (parseArray tokens)) start := by
  have hle := hstands.length_le
  exact (parseObjectFuel_local hw tokens _ start hstands hle).trans
    (parseObjectFuel_local hw tokens (tokens.tokens.length + 1) start hstands
      (Nat.le_succ_of_le hle)).symm

theorem parseArray_window (hw : Bracketed .leftBracket w) :
    parseArray tokens start = parseEntries tokens .leftBracket
      (arrayEntry tokens (parseObject tokens) (parseArray tokens)) start := by
  have hle := hstands.length_le
  exact (parseArrayFuel_local hw tokens _ start hstands hle).trans
    (parseArrayFuel_local hw tokens (tokens.tokens.length + 1) start hstands
      (Nat.le_succ_of_le hle)).symm

/-- What comes of it is no NULL: a tree, or a stop at a NULL literal. With a
`TOKEN_EOF` behind it the window is an array of the parser's own. -/
theorem parseObject_window_cases (hw : Bracketed .leftBrace w) (hwide : ∀ t ∈ w, t.type ≠ .eof) :
    (∃ o, parseObject tokens start = .ok (some o)) ∨
      parseObject tokens start = .error .nullPointer := by
  cases hparse : parseObject tokens start with
  | ok r =>
    rw [parseObject_window hstands hw] at hparse
    obtain ⟨o, rfl⟩ := exists_of_parseEntries hw hstands hwide hparse
    exact .inl ⟨o, rfl⟩
  | error fault =>
    rw [parseObject_local hstands (standsAt_ended w) hw] at hparse
    have heof := eofTerminated_ended hwide
    rw [parseObject_faultsIn heof (List.length_pos_iff.mpr heof.ne_nil) fault hparse]
    exact .inr rfl

theorem parseArray_window_cases (hw : Bracketed .leftBracket w) (hwide : ∀ t ∈ w, t.type ≠ .eof) :
    (∃ a, parseArray tokens start = .ok (some a)) ∨
      parseArray tokens start = .error .nullPointer := by
  cases hparse : parseArray tokens start with
  | ok r =>
    rw [parseArray_window hstands hw] at hparse
    obtain ⟨a, rfl⟩ := exists_of_parseEntries hw hstands hwide hparse
    exact .inl ⟨a, rfl⟩
  | error fault =>
    rw [parseArray_local hstands (standsAt_ended w) hw] at hparse
    have heof := eofTerminated_ended hwide
    rw [parseArray_faultsIn heof (List.length_pos_iff.mpr heof.ne_nil) fault hparse]
    exact .inr rfl

end

/-- **Context independence**: a bracketed stretch is parsed behind `pre` and
before `post`, whatever they are, as it is with nothing but `last` behind
it. With no `TOKEN_EOF` inside, that is a tree, or the stop at a literal
that is missing in both. -/
theorem parse_context_independent {tokens single : TokensArray} {pre ts post : List Token}
    {last : Token} (htokens : tokens.tokens = pre ++ ts ++ post)
    (hsingle : single.tokens = ts ++ [last]) :
    (Bracketed .leftBrace ts →
      parseObject tokens pre.length = parseObject single 0 ∧
        ((∀ t ∈ ts, t.type ≠ .eof) → (∃ o, parseObject tokens pre.length = .ok (some o)) ∨
          parseObject tokens pre.length = .error .nullPointer)) ∧
    (Bracketed .leftBracket ts →
      parseArray tokens pre.length = parseArray single 0 ∧
        ((∀ t ∈ ts, t.type ≠ .eof) → (∃ a, parseArray tokens pre.length = .ok (some a)) ∨
          parseArray tokens pre.length = .error .nullPointer)) := by
  have hinner : StandsAt tokens pre.length ts := standsAt_of_eq htokens
  have houter : StandsAt single 0 ts :=
    standsAt_of_eq (show single.tokens = [] ++ ts ++ [last] from hsingle)
  exact ⟨fun hts => ⟨parseObject_local hinner houter hts, parseObject_window_cases hinner hts⟩,
    fun hts => ⟨parseArray_local hinner houter hts, parseArray_window_cases hinner hts⟩⟩

/-- `{"k":[1,2],"l":null}` with a closer and a `TOKEN_EOF` before it: the
array, cut to its first element, comes back under its key. -/
theorem parse_context_independent_object :
    let items : List Token := [⟨.number, some ['1']⟩, ⟨.comma, none⟩, ⟨.number, some ['2']⟩]
    let rest : List Token :=
      [⟨.comma, none⟩, ⟨.string, some ['l']⟩, ⟨.colon, none⟩, ⟨.jsonNull, none⟩]
    let members : List Token := ⟨.string, some ['k']⟩ :: ⟨.colon, none⟩ ::
      ⟨.leftBracket, none⟩ :: (items ++ ⟨.rightBracket, none⟩ :: rest)
    let ts : List Token := ⟨.leftBrace, none⟩ :: (members ++ [⟨.rightBrace, none⟩])
    let pre : List Token := [⟨.rightBracket, none⟩, ⟨.eof, none⟩, ⟨.leftBrace, none⟩]
    let post : List Token := [⟨.rightBrace, none⟩, ⟨.comma, none⟩, ⟨.eof, none⟩]
    let object : JsonObject :=
      [{ key := some ['k'], value := .array (some [.number (some ['1'])]) }]
    parseObject { tokens := ts ++ [⟨.eof, none⟩], length := 14 } 0 = .ok (some object) ∧
      parseObject { tokens := pre ++ ts ++ post, length := 19 } 3 = .ok (some object) := by
  intro items rest members ts pre post object
  have hitems : Nested tokenShape items := .plain rfl (.plain rfl (.plain rfl .nil))
  have hrest : Nested tokenShape rest := .plain rfl (.plain rfl (.plain rfl (.plain rfl .nil)))
  have hmembers : Nested tokenShape members :=
    .plain rfl (.plain rfl (.wrap (k := .bracket) rfl rfl hitems hrest))
  have hsingle : parseObject { tokens := ts ++ [⟨.eof, none⟩], length := 14 } 0 =
      .ok (some object) := rfl
  obtain ⟨heq, -⟩ := (@parse_context_independent { tokens := pre ++ ts ++ post, length := 19 }
    { tokens := ts ++ [⟨.eof, none⟩], length := 14 } pre ts post ⟨.eof, none⟩ rfl rfl).1
    (.mk rfl rfl hmembers)
  exact ⟨hsingle, heq.trans hsingle⟩

end CWebServer.Json
