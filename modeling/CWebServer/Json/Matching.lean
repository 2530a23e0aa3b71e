/-
CWebServer.Json.Matching — which brackets the two scans take for a pair.

`parser.c` keeps a counter a bracket kind where a grammar needs a stack.
`Matched` is the stack's notion: from `i` to `j` the array holds a properly
nested stretch, the first token matched by the last.

On a matched pair the counters are exact. The bracket scan returns the
match, and the separator scan the commas that stand in no pair further in
(`scans_matched`): an unclamped counter is positive at a comma exactly when
a pair of its kind is open around it (`Nested.enclosed_iff`).

Without a matched pair the bracket scan is still determined, by the counts
alone. It returns the first closer of its kind before which nothing is left
open, kind by kind, where a closer with nothing of its kind to close does
not count (`ClosesAt`). That accepts stretches a stack rejects.

No `sorry`, no `axiom`, no `native_decide`.
-/
import CWebServer.Json.Windows

namespace CWebServer.Json

open Libc Nesting

/-! ## Matched pairs -/

/-- The tokens from `i` to `j` are properly nested and the first is matched
by the last. -/
def Matched (tokens : TokensArray) (i j : Nat) : Prop :=
  ∃ opening w, Bracketed opening w ∧ StandsAt tokens i w ∧ j + 1 = i + w.length

/-- The stretch from `i` to `j` holds no `TOKEN_EOF`. -/
def NoEof (tokens : TokensArray) (i j : Nat) : Prop :=
  ∀ p t, i ≤ p → p ≤ j → tokens.tokens[p]? = some t → t.type ≠ .eof

/-- Two brackets of one kind, as tokens. -/
theorem enclosingTokenOf_of_kind {o c : Token} {kind : BracketKind}
    (ho : tokenShape o = .opening kind) (hc : tokenShape c = .closing kind) :
    enclosingTokenOf o.type = some c.type := by
  obtain ⟨otype, olit⟩ := o
  obtain ⟨ctype, clit⟩ := c
  cases otype <;> cases ctype <;> cases kind <;> simp_all [tokenShape, enclosingTokenOf]

/-- A matched pair, with what stands between its brackets. -/
theorem Matched.exists_split {tokens : TokensArray} {i j : Nat} (h : Matched tokens i j) :
    ∃ o v c, StandsAt tokens i (o :: (v ++ [c])) ∧ j = i + 1 + v.length ∧
      enclosingTokenOf o.type = some c.type ∧ Nested tokenShape v := by
  obtain ⟨opening, w, hw, hstands, hj⟩ := h
  cases hw with
  | @mk o c v ho hc hv =>
    refine ⟨o, v, c, hstands, ?_, ho ▸ hc, hv⟩
    simp only [List.length_cons, List.length_append, List.length_nil] at hj
    omega

/-- What stands between the brackets. -/
theorem StandsAt.inner {tokens : TokensArray} {i : Nat} {o c : Token} {v : List Token}
    (h : StandsAt tokens i (o :: (v ++ [c]))) : StandsAt tokens (i + 1) v :=
  StandsAt.part (p := [o]) h

theorem noEof_inner {tokens : TokensArray} {i : Nat} {o c : Token} {v : List Token}
    (hstands : StandsAt tokens i (o :: (v ++ [c])))
    (heof : NoEof tokens i (i + 1 + v.length)) : ∀ t ∈ v, t.type ≠ .eof := by
  intro t ht
  obtain ⟨n, hn, rfl⟩ := List.getElem_of_mem ht
  refine heof (i + 1 + n) _ (by omega) (by omega) ?_
  rw [hstands.inner.getElem? hn, List.getElem?_eq_getElem hn]

/-- The bracket scan returns the match. -/
theorem Matched.findEnclosing {tokens : TokensArray} {i j : Nat} (h : Matched tokens i j)
    (heof : NoEof tokens i j) : findEnclosingTokenPosition tokens i = .ok (some j) := by
  obtain ⟨o, v, c, hstands, rfl, hpair, hv⟩ := h.exists_split
  obtain ⟨kind, -, hclose⟩ := exists_kind hpair
  have hinner := noEof_inner hstands heof
  obtain ⟨post, hpost⟩ := hstands
  have hdrop : tokens.tokens.drop i = o :: (v ++ c :: post) := by
    rw [← hpost]
    simp
  exact findEnclosingTokenPosition_nested hdrop hpair rfl (fun t ht => (hclose t).mp ht) hv hinner

/-! ## The commas of a pair -/

/-- Position `p` lies inside a pair that lies inside the one from `i` to `j`. -/
def InNestedPair (tokens : TokensArray) (i j p : Nat) : Prop :=
  ∃ i' j', i < i' ∧ i' < p ∧ p < j' ∧ j' < j ∧ Matched tokens i' j'

/-- Over the stretch between the brackets, that is being enclosed. -/
theorem inNestedPair_iff {tokens : TokensArray} {i n : Nat} {v : List Token}
    (hv : StandsAt tokens (i + 1) v) :
    InNestedPair tokens i (i + 1 + v.length) (i + 1 + n) ↔ Enclosed tokenShape v n := by
  constructor
  · intro h
    obtain ⟨i', j', hi, hlt, hgt, hj, hpair⟩ := h
    obtain ⟨o, u, c, hstands, rfl, htype, hu⟩ := hpair.exists_split
    obtain ⟨kind, hopen, hclose⟩ := exists_kind htype
    obtain ⟨q, rfl⟩ : ∃ q, i' = i + 1 + q := ⟨i' - (i + 1), by omega⟩
    -- Both stretches are read from the one array.
    obtain ⟨post, hpost⟩ := hv
    obtain ⟨post', hpost'⟩ := hstands
    rw [← List.drop_drop, ← hpost, List.drop_append_of_le_length (by omega)] at hpost'
    have hprefix : o :: (u ++ [c]) <+: v.drop q := by
      refine List.prefix_of_prefix_length_le ⟨post', hpost'⟩ (List.prefix_append _ _) ?_
      simp only [List.length_cons, List.length_append, List.length_nil, List.length_drop]
      omega
    obtain ⟨s, hs⟩ := hprefix
    have hlen : (v.take q).length = q := List.length_take_of_le (by omega)
    refine ⟨v.take q, o, u, c, s, kind, ?_, (hopen o).mp rfl, (hclose c).mp rfl, hu, ?_, ?_⟩
    · calc v = v.take q ++ v.drop q := (List.take_append_drop q v).symm
        _ = v.take q ++ o :: (u ++ c :: s) := by rw [← hs]; simp
    · omega
    · omega
  · intro h
    obtain ⟨p, o, u, c, s, kind, rfl, ho, hc, hu, hlt, hle⟩ := h
    have hpair : Matched tokens (i + 1 + p.length) (i + 1 + p.length + 1 + u.length) := by
      refine ⟨o.type, o :: (u ++ [c]), .mk rfl (enclosingTokenOf_of_kind ho hc) hu, ?_, ?_⟩
      · refine StandsAt.part (s := s) ?_
        simpa using hv
      · simp only [List.length_cons, List.length_append, List.length_nil]
        omega
    refine ⟨_, _, by omega, by omega, by omega, ?_, hpair⟩
    simp only [List.length_cons, List.length_append]
    omega

/-- At a comma of a nested stretch neither signed count is positive exactly
when the comma is in no pair. -/
theorem not_enclosed_iff {v : List Token} (hv : Nested tokenShape v) {n : Nat} {t : Token}
    (ht : v[n]? = some t) (hcomma : t.type = .comma) :
    ¬ Enclosed tokenShape v n ↔
      excess tokenShape .brace (v.take n) ≤ 0 ∧ excess tokenShape .bracket (v.take n) ≤ 0 := by
  have hplain : tokenShape t = .plain := by
    unfold tokenShape
    rw [hcomma]
  rw [hv.enclosed_iff ht hplain]
  constructor
  · intro h
    exact ⟨Int.not_lt.mp fun hpos => h ⟨_, hpos⟩, Int.not_lt.mp fun hpos => h ⟨_, hpos⟩⟩
  · intro h hpos
    obtain ⟨kind, hpos⟩ := hpos
    cases kind with
    | brace => omega
    | bracket => omega

/-- The positions of the separator table, by index. -/
theorem mem_commaPositions_getElem? {i p : Nat} {w : List Token} :
    p ∈ commaPositions i 0 0 w ↔ ∃ n t, p = i + n ∧ w[n]? = some t ∧ t.type = .comma ∧
      excess tokenShape .brace (w.take n) ≤ 0 ∧ excess tokenShape .bracket (w.take n) ≤ 0 := by
  rw [mem_commaPositions]
  simp only [Int.zero_add]
  constructor
  · intro h
    obtain ⟨pre, t, post, rfl, rfl, ht, hcounts⟩ := h
    exact ⟨pre.length, t, rfl, by simp, ht, by simpa using hcounts⟩
  · intro h
    obtain ⟨n, t, rfl, hn, ht, hcounts⟩ := h
    obtain ⟨hlt, rfl⟩ := List.getElem?_eq_some_iff.mp hn
    refine ⟨w.take n, w[n], w.drop (n + 1), by simp, ?_, ht, hcounts⟩
    rw [List.length_take_of_le (Nat.le_of_lt hlt)]

/-- The commas directly inside the pair from `i` to `j`. -/
def DirectComma (tokens : TokensArray) (i j p : Nat) : Prop :=
  i < p ∧ p < j ∧ (∃ t, tokens.tokens[p]? = some t ∧ t.type = .comma) ∧
    ¬ InNestedPair tokens i j p

/-- The scan reads all of the stretch but its last token, which matters only
if that is a comma. -/
theorem directComma_iff {tokens : TokensArray} {i p : Nat} {v : List Token}
    (hv : StandsAt tokens (i + 1) v) (hnested : Nested tokenShape v)
    (hlast : ∀ t ∈ v.getLast?, t.type ≠ .comma) :
    DirectComma tokens i (i + 1 + v.length) p ↔ p ∈ commaPositions (i + 1) 0 0 v.dropLast := by
  rw [mem_commaPositions_getElem?]
  constructor
  · intro h
    obtain ⟨hlt, hgt, ⟨t, ht, hcomma⟩, hpair⟩ := h
    obtain ⟨n, rfl⟩ : ∃ n, p = i + 1 + n := ⟨p - (i + 1), by omega⟩
    have hn : n < v.length := by omega
    rw [hv.getElem? hn] at ht
    have hne : n ≠ v.length - 1 := by
      intro heq
      refine hlast t ?_ hcomma
      rw [List.getLast?_eq_getElem?, ← heq, ht]
      exact rfl
    rw [inNestedPair_iff hv, not_enclosed_iff hnested ht hcomma] at hpair
    refine ⟨n, t, rfl, ?_, hcomma, ?_⟩
    · rw [List.getElem?_dropLast, if_pos (by omega), ht]
    · rwa [List.dropLast_eq_take, List.take_take, Nat.min_eq_left (by omega)]
  · intro h
    obtain ⟨n, t, rfl, ht, hcomma, hcounts⟩ := h
    rw [List.getElem?_dropLast] at ht
    split_ifs at ht with hn
    rw [List.dropLast_eq_take, List.take_take, Nat.min_eq_left (by omega)] at hcounts
    refine ⟨by omega, by omega, ⟨t, ?_, hcomma⟩, ?_⟩
    · rw [hv.getElem? (by omega), ht]
    · rwa [inNestedPair_iff hv, not_enclosed_iff hnested ht hcomma]

/-- **The scans on a matched pair**: the bracket scan returns the match, and
unless a comma stands before the closer the separator scan returns the
commas directly inside the pair, each once and in order. -/
theorem scans_matched {tokens : TokensArray} {start last : Nat} (h : Matched tokens start last)
    (heof : NoEof tokens start last) :
    findEnclosingTokenPosition tokens start = .ok (some last) ∧
    ((∀ t, tokens.tokens[last - 1]? = some t → t.type ≠ .comma) →
      ∃ positions, getSeparatorsData tokens start last =
          .ok { length := positions.length, positions } ∧
        positions.Pairwise (· < ·) ∧
        ∀ p, p ∈ positions ↔ DirectComma tokens start last p) := by
  refine ⟨h.findEnclosing heof, fun hcomma => ?_⟩
  obtain ⟨o, v, c, hstands, rfl, -, hv⟩ := h.exists_split
  have hinner := hstands.inner
  have hlast : ∀ t ∈ v.getLast?, t.type ≠ .comma := by
    intro t ht
    rw [List.getLast?_eq_getElem?] at ht
    obtain ⟨hlt, -⟩ := List.getElem?_eq_some_iff.mp (Option.mem_def.mp ht)
    refine hcomma t ?_
    rw [show start + 1 + v.length - 1 = start + 1 + (v.length - 1) by omega,
      hinner.getElem? hlt]
    exact ht
  have hend : start + 1 + v.length < tokens.tokens.length := by
    have := hstands.getElem? (i := 1 + v.length) (by simp; omega)
    rw [← Nat.add_assoc] at this
    have hsome : (o :: (v ++ [c]))[1 + v.length]? = some c := by
      rw [Nat.add_comm, List.getElem?_cons_succ]
      simp
    exact (List.getElem?_eq_some_iff.mp (this.trans hsome)).1
  obtain ⟨positions, hdata, hpositions⟩ := getSeparatorsData_eq start hend
  have htake : (tokens.tokens.drop (start + 1)).take (start + 1 + v.length - 1 - (start + 1)) =
      v.dropLast := by
    obtain ⟨post, hpost⟩ := hinner
    rw [← hpost, List.dropLast_eq_take, List.take_append_of_le_length (by omega)]
    congr 1
    omega
  rw [htake] at hpositions
  refine ⟨positions, hdata, ?_, fun p => ?_⟩
  · rw [hpositions]
    exact commaPositions_pairwise _ _ _ _
  · rw [directComma_iff hinner hv hlast, hpositions]

/-- `{"k":[1,2],"l":3` up to a comma and the closer: one comma is inside the
array, the last one stands before the closer and is not looked at. -/
theorem scans_matched_object :
    let items : List Token := [⟨.number, some ['1']⟩, ⟨.comma, none⟩, ⟨.number, some ['2']⟩]
    let rest : List Token := [⟨.comma, none⟩, ⟨.string, some ['l']⟩, ⟨.colon, none⟩,
      ⟨.number, some ['3']⟩]
    let v : List Token := ⟨.string, some ['k']⟩ :: ⟨.colon, none⟩ :: ⟨.leftBracket, none⟩ ::
      (items ++ ⟨.rightBracket, none⟩ :: rest)
    let tokens : TokensArray :=
      { tokens := ⟨.leftBrace, none⟩ :: (v ++ [⟨.rightBrace, none⟩]) ++ [⟨.eof, none⟩]
        length := 14 }
    findEnclosingTokenPosition tokens 0 = .ok (some 12) ∧
    ((∀ t, tokens.tokens[11]? = some t → t.type ≠ .comma) →
      ∃ positions, getSeparatorsData tokens 0 12 =
          .ok { length := positions.length, positions } ∧
        positions.Pairwise (· < ·) ∧ ∀ p, p ∈ positions ↔ DirectComma tokens 0 12 p) := by
  intro items rest v tokens
  have hitems : Nested tokenShape items := .plain rfl (.plain rfl (.plain rfl .nil))
  have hrest : Nested tokenShape rest := .plain rfl (.plain rfl (.plain rfl (.plain rfl .nil)))
  have hv : Nested tokenShape v :=
    .plain rfl (.plain rfl (.wrap (k := .bracket) rfl rfl hitems hrest))
  refine @scans_matched tokens 0 12 ⟨.leftBrace, _, .mk rfl rfl hv, ⟨[⟨.eof, none⟩], rfl⟩, rfl⟩ ?_
  intro p t _ hp ht
  have hall : ∀ p, p ≤ 12 → ∀ t ∈ tokens.tokens[p]?, t.type ≠ .eof := by decide
  exact hall p hp t ht

/-! ## Without a matched pair -/

/-- At `e` stands the closer, and before it every kind of bracket opened
behind `start` has been closed as often; a closer with nothing of its kind
open is not counted. -/
def ClosesAt (tokens : TokensArray) (enclosingToken : TokenType) (start e : Nat) : Prop :=
  start < e ∧ (∃ t, tokens.tokens[e]? = some t ∧ t.type = enclosingToken) ∧
    ∀ kind, unclosed tokenShape kind 0
      ((tokens.tokens.drop (start + 1)).take (e - (start + 1))) = 0

theorem closesAt_iff {tokens : TokensArray} {enclosingToken : TokenType} {start e : Nat} :
    ClosesAt tokens enclosingToken start e ↔
      ∃ pre t post, tokens.tokens.drop (start + 1) = pre ++ t :: post ∧
        e = start + 1 + pre.length ∧ StopsAt enclosingToken 0 0 pre t := by
  constructor
  · intro h
    obtain ⟨hlt, ⟨t, ht, htype⟩, hcounts⟩ := h
    obtain ⟨n, rfl⟩ : ∃ n, e = start + 1 + n := ⟨e - (start + 1), by omega⟩
    rw [Nat.add_sub_cancel_left] at hcounts
    rw [← List.getElem?_drop] at ht
    obtain ⟨hn, rfl⟩ := List.getElem?_eq_some_iff.mp ht
    refine ⟨(tokens.tokens.drop (start + 1)).take n, _,
      (tokens.tokens.drop (start + 1)).drop (n + 1), ?_, ?_, htype, hcounts .brace,
      hcounts .bracket⟩
    · rw [List.getElem_cons_drop, List.take_append_drop]
    · rw [List.length_take_of_le (Nat.le_of_lt hn)]
  · intro h
    obtain ⟨pre, t, post, hsplit, rfl, htype, hbrace, hbracket⟩ := h
    refine ⟨by omega, ⟨t, ?_, htype⟩, fun kind => ?_⟩
    · rw [← List.getElem?_drop, hsplit]
      simp
    · rw [Nat.add_sub_cancel_left, hsplit, List.take_left]
      cases kind with
      | brace => exact hbrace
      | bracket => exact hbracket

/-- A stretch without a stop holds no closing position, and is followed by
none before its own end. -/
theorem NoStop.not_closesAt {tokens : TokensArray} {enclosingToken : TokenType} {start e : Nat}
    {pre rest : List Token} (h : NoStop enclosingToken 0 0 pre)
    (hsplit : tokens.tokens.drop (start + 1) = pre ++ rest) (he : e < start + 1 + pre.length) :
    ¬ ClosesAt tokens enclosingToken start e := by
  intro hclose
  obtain ⟨p, t, post, hp, rfl, hstop⟩ := closesAt_iff.mp hclose
  rw [hsplit] at hp
  rcases prefix_split hp with ⟨x, rfl, -⟩ | ⟨x, rfl, -⟩
  · rw [List.length_append] at he
    omega
  · exact h p t x rfl hstop

/-- Nothing in an array that ends in its only `TOKEN_EOF` is behind a match. -/
theorem Matched.noEof {tokens : TokensArray} (heof : EofTerminated tokens.tokens) {i j : Nat}
    (h : Matched tokens i j) : NoEof tokens i j := by
  obtain ⟨o, v, c, hstands, rfl, hpair, -⟩ := h.exists_split
  have hc : tokens.tokens[i + 1 + v.length]? = some c := by
    rw [Nat.add_assoc, hstands.getElem? (by simp; omega), Nat.add_comm,
      List.getElem?_cons_succ]
    simp
  have hlen := heof.succ_lt hc (enclosingTokenOf_ne_eof hpair)
  intro p t _ hp ht hteof
  have hdrop := heof.drop (i := p) (by omega)
  obtain ⟨hlt, rfl⟩ := List.getElem?_eq_some_iff.mp ht
  rw [List.drop_eq_getElem_cons hlt] at hdrop
  rcases eofTerminated_cons.mp hdrop with ⟨-, hnil⟩ | ⟨hne, -⟩
  · have := congrArg List.length hnil
    simp only [List.length_drop, List.length_nil] at this
    omega
  · exact hne hteof

/-- `{ ] }`: the closing bracket has nothing to close and is skipped, so the
scan takes the braces for a pair. -/
theorem findEnclosing_misnested :
    let tokens : TokensArray :=
      { tokens := [⟨.leftBrace, none⟩, ⟨.rightBracket, none⟩, ⟨.rightBrace, none⟩, ⟨.eof, none⟩]
        length := 4 }
    EofTerminated tokens.tokens ∧ findEnclosingTokenPosition tokens 0 = .ok (some 2) ∧
      ∀ e, ¬ Matched tokens 0 e := by
  intro tokens
  refine ⟨by decide, rfl, fun e h => ?_⟩
  obtain ⟨opening, w, hw, ⟨post, hpost⟩, -⟩ := h
  have hnested := hw.nested
  have htwo := hw.two_le
  obtain ⟨a, b, w, rfl⟩ : ∃ a b w', w = a :: b :: w' := by
    cases w with
    | nil => simp at htwo
    | cons a w =>
      cases w with
      | nil => simp at htwo
      | cons b w => exact ⟨a, b, w, rfl⟩
  obtain ⟨rfl, hrest⟩ := List.cons.inj hpost
  obtain ⟨rfl, -⟩ := List.cons.inj hrest
  -- The nesting would have a bracket open before the second token.
  have hopen := hnested.excess_before_closing (p := [_]) rfl
    (show tokenShape ⟨.rightBracket, none⟩ = .closing .bracket from rfl)
  exact absurd hopen (by decide)

/-- **The bracket scan by its counts.** It returns the first closing
position, and `-1` when there is none; where the bracket has a match, that
is the first. -/
theorem findEnclosing_counts {tokens : TokensArray} (heof : EofTerminated tokens.tokens)
    {start : Nat} {t : Token} {enclosingToken : TokenType} (ht : tokens.tokens[start]? = some t)
    (hopen : enclosingTokenOf t.type = some enclosingToken) :
    (∀ e, findEnclosingTokenPosition tokens start = .ok (some e) ↔
      ClosesAt tokens enclosingToken start e ∧
        ∀ e' < e, ¬ ClosesAt tokens enclosingToken start e') ∧
    (findEnclosingTokenPosition tokens start = .ok none ↔
      ∀ e, ¬ ClosesAt tokens enclosingToken start e) ∧
    ∀ e, Matched tokens start e → findEnclosingTokenPosition tokens start = .ok (some e) := by
  have hmatch : ∀ e, Matched tokens start e →
      findEnclosingTokenPosition tokens start = .ok (some e) :=
    fun e h => h.findEnclosing (h.noEof heof)
  rcases findEnclosingTokenPosition_cases heof ht hopen with
    ⟨hns, heq⟩ | ⟨pre, u, post, hsplit, -, hns, hstop, heq⟩
  · have hnone : ∀ e, ¬ ClosesAt tokens enclosingToken start e := by
      intro e hclose
      obtain ⟨pre, u, post, hp, -, hstop⟩ := closesAt_iff.mp hclose
      exact hns pre u post hp hstop
    refine ⟨fun e => ?_, ?_, hmatch⟩
    · simp [heq, hnone]
    · simp [heq, hnone]
  · have hfirst : ClosesAt tokens enclosingToken start (start + 1 + pre.length) :=
      closesAt_iff.mpr ⟨pre, u, post, hsplit, rfl, hstop⟩
    have hbefore : ∀ e < start + 1 + pre.length, ¬ ClosesAt tokens enclosingToken start e :=
      fun e he => hns.not_closesAt hsplit he
    refine ⟨fun e => ?_, ?_, hmatch⟩
    · rw [heq, Except.ok.injEq, Option.some.injEq]
      constructor
      · rintro rfl
        exact ⟨hfirst, hbefore⟩
      · intro h
        obtain ⟨hclose, hmin⟩ := h
        rcases Nat.lt_trichotomy e (start + 1 + pre.length) with hlt | rfl | hgt
        · exact absurd hclose (hbefore e hlt)
        · rfl
        · exact absurd hfirst (hmin _ hgt)
    · rw [heq]
      simp only [Except.ok.injEq, reduceCtorEq, false_iff]
      exact fun h => h _ hfirst

/-- `[ { ] } ]`: the brace is open at the first closer, which is passed over. -/
theorem findEnclosing_counts_interleaved :
    let tokens : TokensArray :=
      { tokens := [⟨.leftBracket, none⟩, ⟨.leftBrace, none⟩, ⟨.rightBracket, none⟩,
          ⟨.rightBrace, none⟩, ⟨.rightBracket, none⟩, ⟨.eof, none⟩]
        length := 6 }
    (∀ e, findEnclosingTokenPosition tokens 0 = .ok (some e) ↔
      ClosesAt tokens .rightBracket 0 e ∧ ∀ e' < e, ¬ ClosesAt tokens .rightBracket 0 e') ∧
    (findEnclosingTokenPosition tokens 0 = .ok none ↔
      ∀ e, ¬ ClosesAt tokens .rightBracket 0 e) ∧
    ∀ e, Matched tokens 0 e → findEnclosingTokenPosition tokens 0 = .ok (some e) :=
  findEnclosing_counts (by decide) rfl rfl

end CWebServer.Json
