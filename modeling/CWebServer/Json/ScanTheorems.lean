/-
CWebServer.Json.ScanTheorems — what the two scans of `parser.c` find.

`_findEnclosingTokenPosition` keeps one count a bracket kind and ignores a
closer when nothing of its kind is open; that is `Nesting.unclosed`. On an
array that ends in its only `TOKEN_EOF` it either meets no closer of the
right kind at counts zero and returns `-1`, or returns the first such
position (`findEnclosingLoop_cases`).

`_getSeparatorsData` keeps signed counts, `Nesting.excess`, and records
the commas at which neither is positive. `commaPositions` is that table
without the loop's bound, and `getSeparatorsData_eq` ties the two: the
scan stops one token short of the closer.

No `sorry`, no `axiom`, no `native_decide`.
-/
import CWebServer.Json.Parser
import CWebServer.Nesting.Words

namespace CWebServer.Json

open Libc Nesting

/-! ## Brackets among tokens -/

inductive BracketKind where
  | brace
  | bracket
  deriving DecidableEq, Repr

def tokenShape (t : Token) : Shape BracketKind :=
  match t.type with
  | .leftBrace => .opening .brace
  | .rightBrace => .closing .brace
  | .leftBracket => .opening .bracket
  | .rightBracket => .closing .bracket
  | _ => .plain

/-- The last token is the only `TOKEN_EOF`. -/
inductive EofTerminated : List Token → Prop where
  | last {t : Token} : t.type = .eof → EofTerminated [t]
  | cons {t : Token} {ts : List Token} :
      t.type ≠ .eof → EofTerminated ts → EofTerminated (t :: ts)

theorem EofTerminated.ne_nil {ts : List Token} (h : EofTerminated ts) : ts ≠ [] := by
  cases h <;> simp

theorem eofTerminated_cons {t : Token} {ts : List Token} : EofTerminated (t :: ts) ↔
    (t.type = .eof ∧ ts = []) ∨ (t.type ≠ .eof ∧ EofTerminated ts) := by
  constructor
  · intro h
    cases h with
    | last ht => exact Or.inl ⟨ht, rfl⟩
    | cons ht hts => exact Or.inr ⟨ht, hts⟩
  · intro h
    rcases h with ⟨ht, rfl⟩ | ⟨ht, hts⟩
    · exact .last ht
    · exact .cons ht hts

instance decidableEofTerminated : (ts : List Token) → Decidable (EofTerminated ts)
  | [] => isFalse fun h => h.ne_nil rfl
  | _ :: ts =>
    have := decidableEofTerminated ts
    decidable_of_iff _ eofTerminated_cons.symm

theorem EofTerminated.drop {ts : List Token} (h : EofTerminated ts) :
    ∀ {i : Nat}, i < ts.length → EofTerminated (ts.drop i) := by
  induction h with
  | last ht =>
    intro i hi
    have : i = 0 := by simpa using hi
    subst this
    exact .last ht
  | cons ht hts ih =>
    intro i hi
    cases i with
    | zero => exact .cons ht hts
    | succ i => exact ih (by simpa using hi)

/-- A token other than `TOKEN_EOF` has another one behind it. -/
theorem EofTerminated.succ_lt {ts : List Token} (h : EofTerminated ts) {i : Nat} {t : Token}
    (ht : ts[i]? = some t) (hne : t.type ≠ .eof) : i + 1 < ts.length := by
  induction h generalizing i with
  | @last u hu =>
    cases i with
    | zero =>
      simp only [List.getElem?_cons_zero, Option.some.injEq] at ht
      exact absurd (ht ▸ hu) hne
    | succ i => simp at ht
  | @cons u us hu hus ih =>
    cases i with
    | zero =>
      have := List.length_pos_iff.mpr hus.ne_nil
      simpa using this
    | succ i =>
      have := ih (by simpa using ht)
      simpa using this

/-! ## The matcher -/

/-- The loop leaves at `t`, having read `pre` from the counts `b` and `k`. -/
def StopsAt (enclosingToken : TokenType) (b k : Nat) (pre : List Token) (t : Token) : Prop :=
  t.type = enclosingToken ∧ unclosed tokenShape .brace b pre = 0 ∧
    unclosed tokenShape .bracket k pre = 0

/-- No position of `w` makes the loop leave. -/
def NoStop (enclosingToken : TokenType) (b k : Nat) (w : List Token) : Prop :=
  ∀ pre t post, w = pre ++ t :: post → ¬ StopsAt enclosingToken b k pre t

theorem findEnclosingLoop_eof (enclosingToken : TokenType) {t : Token} (rest : List Token)
    (i b k : Nat) (ht : t.type = .eof) (hne : enclosingToken ≠ .eof) :
    findEnclosingLoop enclosingToken (t :: rest) i b k = .ok none := by
  rw [findEnclosingLoop, if_pos ht, foundAt, if_pos (by rw [ht]; exact hne.symm)]

theorem findEnclosingLoop_stop {enclosingToken : TokenType} {t : Token} (rest : List Token)
    (i : Nat) (ht : t.type = enclosingToken) (hne : enclosingToken ≠ .eof) :
    findEnclosingLoop enclosingToken (t :: rest) i 0 0 = .ok (some i) := by
  rw [findEnclosingLoop, if_neg (by rw [ht]; exact hne), if_pos ⟨ht, rfl, rfl⟩, foundAt,
    if_neg (by simpa using ht)]

/-- Any other token moves both counts and goes on. -/
theorem findEnclosingLoop_step {enclosingToken : TokenType} {t : Token} (rest : List Token)
    (i b k : Nat) (ht : t.type ≠ .eof)
    (hstop : ¬ (t.type = enclosingToken ∧ b = 0 ∧ k = 0)) :
    findEnclosingLoop enclosingToken (t :: rest) i b k =
      findEnclosingLoop enclosingToken rest (i + 1)
        (stepUnclosed tokenShape .brace b t) (stepUnclosed tokenShape .bracket k t) := by
  rw [findEnclosingLoop, if_neg ht, if_neg hstop]
  unfold stepUnclosed tokenShape
  cases htype : t.type
  case rightBrace =>
    cases b <;> simp
  case rightBracket =>
    cases k <;> simp
  all_goals simp

theorem NoStop.tail {enclosingToken : TokenType} {b k : Nat} {t : Token} {w : List Token}
    (h : NoStop enclosingToken b k (t :: w)) :
    NoStop enclosingToken (stepUnclosed tokenShape .brace b t)
      (stepUnclosed tokenShape .bracket k t) w :=
  fun pre u post hw hstop => h (t :: pre) u post (by rw [hw]; rfl) hstop

theorem NoStop.cons {enclosingToken : TokenType} {b k : Nat} {t : Token} {w : List Token}
    (ht : ¬ (t.type = enclosingToken ∧ b = 0 ∧ k = 0))
    (h : NoStop enclosingToken (stepUnclosed tokenShape .brace b t)
      (stepUnclosed tokenShape .bracket k t) w) :
    NoStop enclosingToken b k (t :: w) := by
  intro pre u post hw hstop
  cases pre with
  | nil =>
    obtain ⟨rfl, -⟩ := List.cons.inj hw
    exact ht hstop
  | cons v pre =>
    obtain ⟨rfl, hrest⟩ := List.cons.inj hw
    exact h pre u post hrest hstop

/-- The loop runs over a stretch that never makes it leave. -/
theorem findEnclosingLoop_skip (enclosingToken : TokenType) (pre rest : List Token)
    (i b k : Nat) (heof : ∀ t ∈ pre, t.type ≠ .eof) (hns : NoStop enclosingToken b k pre) :
    findEnclosingLoop enclosingToken (pre ++ rest) i b k =
      findEnclosingLoop enclosingToken rest (i + pre.length)
        (unclosed tokenShape .brace b pre) (unclosed tokenShape .bracket k pre) := by
  induction pre generalizing i b k with
  | nil => simp
  | cons t pre ih =>
    have hgo : ¬ (t.type = enclosingToken ∧ b = 0 ∧ k = 0) := hns [] t pre rfl
    have hrest : ∀ u ∈ pre, u.type ≠ .eof := fun u hu => heof u (by simp [hu])
    rw [List.cons_append, findEnclosingLoop_step _ _ _ _ (heof t (by simp)) hgo,
      ih (i + 1) _ _ hrest hns.tail]
    simp only [List.length_cons, unclosed_cons]
    congr 1
    omega

/-- What the loop finds: nothing, when no position makes it leave before
the end of the tokens; or the first that does, which is never the last. -/
theorem findEnclosingLoop_cases {enclosingToken : TokenType} (hne : enclosingToken ≠ .eof)
    {w : List Token} (hw : EofTerminated w) :
    ∀ (i b k : Nat),
      (NoStop enclosingToken b k w ∧ findEnclosingLoop enclosingToken w i b k = .ok none) ∨
      (∃ pre t post, w = pre ++ t :: post ∧ post ≠ [] ∧ NoStop enclosingToken b k pre ∧
        StopsAt enclosingToken b k pre t ∧
        findEnclosingLoop enclosingToken w i b k = .ok (some (i + pre.length))) := by
  induction hw with
  | @last t ht =>
    intro i b k
    refine Or.inl ⟨?_, findEnclosingLoop_eof _ _ _ _ _ ht hne⟩
    refine NoStop.cons (fun h => hne (h.1 ▸ ht)) fun pre u post h => ?_
    simp at h
  | @cons t ts ht hts ih =>
    intro i b k
    by_cases hstop : t.type = enclosingToken ∧ b = 0 ∧ k = 0
    · obtain ⟨htype, rfl, rfl⟩ := hstop
      refine Or.inr ⟨[], t, ts, rfl, hts.ne_nil, fun pre u post h => ?_, ⟨htype, rfl, rfl⟩,
        findEnclosingLoop_stop ts i htype hne⟩
      simp at h
    · rw [findEnclosingLoop_step ts i b k ht hstop]
      rcases ih (i + 1) (stepUnclosed tokenShape .brace b t)
          (stepUnclosed tokenShape .bracket k t) with
        ⟨hns, heq⟩ | ⟨pre, u, post, rfl, hpost, hns, hu, heq⟩
      · exact Or.inl ⟨hns.cons hstop, heq⟩
      · refine Or.inr ⟨t :: pre, u, post, rfl, hpost, hns.cons hstop, hu, ?_⟩
        rw [heq, List.length_cons]
        congr 2
        omega

/-! ## The separator table -/

theorem countBrackets_eq (t : Token) (b k : Int) :
    countBrackets t.type b k =
      (b + delta tokenShape .brace t, k + delta tokenShape .bracket t) := by
  unfold countBrackets delta tokenShape
  cases t.type <;> simp <;> omega

/-- The commas of `w` at which neither count is positive, from the counts
`b` and `k` on, as positions from `i` on. -/
def commaPositions : (i : Nat) → (b k : Int) → List Token → List Nat
  | _, _, _, [] => []
  | i, b, k, t :: rest =>
    let tail := commaPositions (i + 1) (b + delta tokenShape .brace t)
      (k + delta tokenShape .bracket t) rest
    if t.type = .comma ∧ b ≤ 0 ∧ k ≤ 0 then i :: tail else tail

theorem delta_comma {t : Token} (ht : t.type = .comma) (kind : BracketKind) :
    delta tokenShape kind t = 0 := by
  simp [delta, tokenShape, ht]

theorem recordComma_eq (t : Token) (i : Nat) (b k : Int) (data : SeparatorsData) :
    recordComma t.type i (b + delta tokenShape .brace t, k + delta tokenShape .bracket t) data =
      if t.type = .comma ∧ b ≤ 0 ∧ k ≤ 0 then
        { length := data.length + 1, positions := data.positions ++ [i] }
      else data := by
  unfold recordComma
  by_cases ht : t.type = .comma
  · simp only [delta_comma ht, Int.add_zero, ht, true_and, if_true]
    split_ifs <;> first | rfl | omega
  · simp [ht]

/-- The loop of `_getSeparatorsData` reads up to `endPosition - 2`. -/
theorem getSeparatorsLoop_eq (endPosition : Nat) (w : List Token) (i : Nat) (b k : Int)
    (data : SeparatorsData) (h : endPosition ≤ i + 1 + w.length) :
    getSeparatorsLoop endPosition w i b k data =
      .ok { length := data.length
              + (commaPositions i b k (w.take (endPosition - 1 - i))).length
            positions := data.positions ++
              commaPositions i b k (w.take (endPosition - 1 - i)) } := by
  induction w generalizing i b k data with
  | nil =>
    have hend : ¬ (i : Int) < endPosition - 1 := by
      simp only [List.length_nil] at h
      omega
    rw [getSeparatorsLoop, if_neg hend]
    simp [commaPositions]
  | cons t rest ih =>
    by_cases hlt : (i : Int) < endPosition - 1
    · have hrest : endPosition ≤ i + 1 + 1 + rest.length := by
        simp only [List.length_cons] at h
        omega
      have htake : endPosition - 1 - i = (endPosition - 1 - (i + 1)) + 1 := by omega
      rw [getSeparatorsLoop, if_pos hlt]
      simp only [countBrackets_eq, recordComma_eq]
      rw [ih (i + 1) _ _ _ hrest, htake, List.take_succ_cons, commaPositions]
      split_ifs <;> simp
      omega
    · have htake : endPosition - 1 - i = 0 := by omega
      rw [getSeparatorsLoop, if_neg hlt, htake]
      simp [commaPositions]

theorem getSeparatorsData_eq {tokens : TokensArray} (startPosition : Nat) {endPosition : Nat}
    (hend : endPosition < tokens.tokens.length) :
    ∃ positions, getSeparatorsData tokens startPosition endPosition =
        .ok { length := positions.length, positions } ∧
      positions = commaPositions (startPosition + 1) 0 0
        ((tokens.tokens.drop (startPosition + 1)).take
          (endPosition - 1 - (startPosition + 1))) := by
  refine ⟨_, ?_, rfl⟩
  rw [getSeparatorsData, getSeparatorsLoop_eq]
  · simp
  · rw [List.length_drop]
    omega

/-- A recorded position holds a comma with no bracket open before it. -/
theorem mem_commaPositions {p i : Nat} {b k : Int} {w : List Token} :
    p ∈ commaPositions i b k w ↔
      ∃ pre t post, w = pre ++ t :: post ∧ p = i + pre.length ∧ t.type = .comma ∧
        b + excess tokenShape .brace pre ≤ 0 ∧ k + excess tokenShape .bracket pre ≤ 0 := by
  induction w generalizing i b k with
  | nil => simp [commaPositions]
  | cons t w ih =>
    have hhead : p ∈ commaPositions i b k (t :: w) ↔
        (p = i ∧ t.type = .comma ∧ b ≤ 0 ∧ k ≤ 0) ∨
        p ∈ commaPositions (i + 1) (b + delta tokenShape .brace t)
          (k + delta tokenShape .bracket t) w := by
      rw [commaPositions]
      split_ifs with h <;> simp [h]
    rw [hhead, ih]
    constructor
    · intro h
      rcases h with ⟨rfl, ht, hb, hk⟩ | ⟨pre, u, post, rfl, rfl, hu, hb, hk⟩
      · exact ⟨[], t, w, rfl, rfl, ht, by simpa using hb, by simpa using hk⟩
      · refine ⟨t :: pre, u, post, rfl, ?_, hu, ?_, ?_⟩
        · simp only [List.length_cons]; omega
        · simp only [excess_cons]; omega
        · simp only [excess_cons]; omega
    · intro h
      obtain ⟨pre, u, post, hw, rfl, hu, hb, hk⟩ := h
      cases pre with
      | nil =>
        obtain ⟨rfl, rfl⟩ := List.cons.inj hw
        exact Or.inl ⟨rfl, hu, by simpa using hb, by simpa using hk⟩
      | cons v pre =>
        obtain ⟨rfl, rfl⟩ := List.cons.inj hw
        simp only [excess_cons] at hb hk
        refine Or.inr ⟨pre, u, post, rfl, ?_, hu, by omega, by omega⟩
        simp only [List.length_cons]; omega

theorem commaPositions_append (i : Nat) (b k : Int) (v w : List Token) :
    commaPositions i b k (v ++ w) = commaPositions i b k v ++
      commaPositions (i + v.length) (b + excess tokenShape .brace v)
        (k + excess tokenShape .bracket v) w := by
  induction v generalizing i b k with
  | nil => simp [commaPositions]
  | cons t v ih =>
    have hi : i + 1 + v.length = i + (v.length + 1) := by omega
    rw [List.cons_append, commaPositions, ih (i + 1), commaPositions]
    simp only [excess_cons, List.length_cons, ← Int.add_assoc, hi]
    split_ifs <;> simp

end CWebServer.Json
