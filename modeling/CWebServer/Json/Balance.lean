/-
CWebServer.Json.Balance — what one parse allocates and what its cleanups
free.

Each allocating function does what the function of the same name without
the ledger does, and owns what its result is made of (`Stored`): the tables
of positions are freed inside the calls that allocate them, and nothing
else is lost while parsing. The cleanups are walks over what is owned.
Behind them the struct of each property is still live, since
`jsonObjectCleanup` frees its value and its key only, and so are the lexer
and the array of token pointers, which nothing frees.

No `sorry`, no `axiom`, no `native_decide`.
-/
import CWebServer.Json.Allocation
import CWebServer.Json.Definedness
import CWebServer.Json.RoundTrip

namespace CWebServer.Json

open Libc Relation

/-! ## Members -/

mutual

/-- The members of all objects in a value. -/
def valueMembers : JsonValue → Nat
  | .object (some properties) => propertiesMembers properties
  | .array (some elements) => elementsMembers elements
  | .string _ | .number _ | .boolean _ | .null | .object none | .array none | .indeterminate => 0

def propertiesMembers : List (ObjectPropertyOf JsonValue) → Nat
  | [] => 0
  | ⟨_, value⟩ :: rest => valueMembers value + 1 + propertiesMembers rest

def elementsMembers : List JsonValue → Nat
  | [] => 0
  | value :: rest => valueMembers value + elementsMembers rest

end

namespace Heap

/-! ## What is owned -/

def CString.blocks (string : CString) : Multiset Block := {string.block}

def Token.blocks (token : Token) : Multiset Block :=
  nullable CString.blocks token.literal + {token.block}

def TokensArray.blocks (tokens : TokensArray) : Multiset Block :=
  total Token.blocks tokens.tokens + {tokens.block}

def TableOf.blocks {α : Type} (entry : α → Multiset Block) (table : TableOf α) : Multiset Block :=
  total entry table.entries + ({table.table} + {table.block})

mutual

def JsonValue.blocks : JsonValue → Multiset Block
  | .string string => nullable CString.blocks string
  | .object (some ⟨block, table, properties⟩) =>
    propertiesBlocks properties + (({table} : Multiset Block) + {block})
  | .array (some ⟨block, table, elements⟩) =>
    elementsBlocks elements + (({table} : Multiset Block) + {block})
  | .number _ | .boolean _ | .null | .object none | .array none | .indeterminate => 0

def propertiesBlocks : List (ObjectPropertyOf JsonValue) → Multiset Block
  | [] => 0
  | ⟨block, key, value⟩ :: rest =>
    value.blocks + nullable CString.blocks key + ({block} : Multiset Block) + propertiesBlocks rest

def elementsBlocks : List JsonValue → Multiset Block
  | [] => 0
  | value :: rest => value.blocks + elementsBlocks rest

end

mutual

/-- The value without its blocks. -/
def JsonValue.erase : JsonValue → Json.JsonValue
  | .string string => .string (string.map CString.chars)
  | .number literal => .number literal
  | .boolean boolean => .boolean boolean
  | .null => .null
  | .object none => .object none
  | .object (some ⟨_, _, properties⟩) => .object (some (propertiesErase properties))
  | .array none => .array none
  | .array (some ⟨_, _, elements⟩) => .array (some (elementsErase elements))
  | .indeterminate => .indeterminate

def propertiesErase : List (ObjectPropertyOf JsonValue) → List Json.ObjectProperty
  | [] => []
  | ⟨_, key, value⟩ :: rest =>
    { key := key.map CString.chars, value := value.erase } :: propertiesErase rest

def elementsErase : List JsonValue → List Json.JsonValue
  | [] => []
  | value :: rest => value.erase :: elementsErase rest

end

def ObjectPropertyOf.blocks (property : ObjectProperty) : Multiset Block :=
  property.value.blocks + nullable CString.blocks property.key + {property.block}

def ObjectPropertyOf.erase (property : ObjectProperty) : Json.ObjectProperty where
  key := property.key.map CString.chars
  value := property.value.erase

def TableOf.erase {α β : Type} (entry : α → β) (table : TableOf α) : List β :=
  table.entries.map entry

theorem propertiesBlocks_eq (properties : List ObjectProperty) :
    propertiesBlocks properties = total ObjectPropertyOf.blocks properties := by
  induction properties with
  | nil => rfl
  | cons property rest ih =>
    rw [propertiesBlocks, total, ih]
    rfl

theorem propertiesErase_eq (properties : List ObjectProperty) :
    propertiesErase properties = properties.map ObjectPropertyOf.erase := by
  induction properties with
  | nil => rfl
  | cons property rest ih =>
    rw [propertiesErase, List.map_cons, ih]
    rfl

theorem elementsBlocks_eq (elements : List JsonValue) :
    elementsBlocks elements = total JsonValue.blocks elements := by
  induction elements with
  | nil => rfl
  | cons value rest ih => rw [elementsBlocks, total, ih]

theorem elementsErase_eq (elements : List JsonValue) :
    elementsErase elements = elements.map JsonValue.erase := by
  induction elements with
  | nil => rfl
  | cons value rest ih => rw [elementsErase, List.map_cons, ih]

/-- An object owns its properties with their table and its struct. -/
theorem object_stored {object : Option JsonObject} {o : Option Json.JsonObject}
    {own : Multiset Block}
    (h : Stored (Option.map (TableOf.erase ObjectPropertyOf.erase))
      (nullable (TableOf.blocks ObjectPropertyOf.blocks)) object o own) :
    Stored JsonValue.erase JsonValue.blocks (.object object) (.object o) own := by
  obtain ⟨rfl, rfl⟩ := h
  cases object with
  | none => exact ⟨by simp [JsonValue.erase], by simp [JsonValue.blocks, nullable]⟩
  | some table =>
    constructor
    · rw [JsonValue.erase, propertiesErase_eq]
      rfl
    · rw [JsonValue.blocks, propertiesBlocks_eq]
      rfl

theorem array_stored {array : Option JsonArray} {a : Option Json.JsonArray} {own : Multiset Block}
    (h : Stored (Option.map (TableOf.erase JsonValue.erase))
      (nullable (TableOf.blocks JsonValue.blocks)) array a own) :
    Stored JsonValue.erase JsonValue.blocks (.array array) (.array a) own := by
  obtain ⟨rfl, rfl⟩ := h
  cases array with
  | none => exact ⟨by simp [JsonValue.erase], by simp [JsonValue.blocks, nullable]⟩
  | some table =>
    constructor
    · rw [JsonValue.erase, elementsErase_eq]
      rfl
    · rw [JsonValue.blocks, elementsBlocks_eq]
      rfl

/-! ## Strings and tokens -/

theorem strdup_refines (literal : Option (List Char)) :
    Refines 0 (strdup literal) (Json.strdup literal)
      (Stored (Option.map CString.chars) (nullable CString.blocks)) := by
  cases literal with
  | none => exact .throw _
  | some chars => exact .malloc fun block => .pure ⟨rfl, add_zero _⟩

theorem freeString_refines (string : Option CString) :
    Refines (nullable CString.blocks string) (freeString string) (.ok ()) Freed := by
  cases string with
  | none => exact .pure rfl
  | some string => exact .free string.block

/-- The token owns its literal from then on. -/
theorem tokenCreate_refines (type : TokenType) (literal : Option CString) :
    Refines (nullable CString.blocks literal) (tokenCreate type literal)
      (.ok (Json.tokenCreate type (literal.map CString.chars))) (Stored Token.erase Token.blocks) :=
  .malloc fun _ => .pure ⟨rfl, add_comm _ _⟩

theorem tokenCleanup_refines (token : Token) :
    Refines token.blocks (tokenCleanup token) (.ok ()) Freed :=
  (freeString_refines token.literal).then_free (.free token.block)

/-! ## `parseTokens` -/

theorem lexerSwitch_refines (ch : Char) :
    Refines 0 (lexerSwitch ch) (.ok (Json.lexerSwitch ch))
      (Stored (Option.map Token.erase) (nullable Token.blocks)) := by
  unfold lexerSwitch
  have hliteral := lexerSwitch_literal ch
  cases hswitch : Json.lexerSwitch ch with
  | none => exact .pure ⟨rfl, rfl⟩
  | some t =>
    rw [hswitch, Option.getD_some] at hliteral
    refine .step_stored (zero_add _).symm (tokenCreate_refines t.type none)
      fun token htoken => .pure ⟨?_, add_zero _⟩
    rw [Option.map_some, htoken, Json.tokenCreate, Option.map_none, ← hliteral]

/-- A token made with a literal that is there, or with none. -/
theorem token_refines (type : TokenType) (literal : Option CString) (l : Lexer) :
    Refines (nullable CString.blocks literal)
      (do
        let token ← tokenCreate type literal
        pure (token, l))
      (.ok (Json.tokenCreate type (literal.map CString.chars), l))
      (Stored (Prod.map Token.erase id) fun r => r.1.blocks) := by
  refine .step_stored (add_zero _).symm (tokenCreate_refines type literal)
    fun token htoken => .pure ⟨?_, add_zero _⟩
  rw [Prod.map_apply, htoken]
  rfl

/-- A token made with a copy of its literal. -/
theorem literalToken_refines (type : TokenType) (s : List Char) (l : Lexer) :
    Refines 0
      (do
        let literal ← strdup (some s)
        let token ← tokenCreate type literal
        pure (token, l))
      (.ok (Json.tokenCreate type (some s), l))
      (Stored (Prod.map Token.erase id) fun r => r.1.blocks) := by
  refine .step_stored (zero_add _).symm (strdup_refines (some s)) fun literal hliteral => ?_
  rw [add_zero, ← hliteral]
  exact token_refines type literal l

/-- Whatever branch is taken, one token is allocated: at a character the
`switch` has a case for no reader starts. -/
theorem lexerToken_refines (noReturn : Nat → TokenType) (l : Lexer) :
    Refines 0 (lexerToken noReturn l) (.ok (Json.lexerToken noReturn l))
      (Stored (Prod.map Token.erase id) fun r => r.1.blocks) := by
  unfold lexerToken Json.lexerToken
  refine .step_stored (zero_add _).symm (lexerSwitch_refines l.ch) fun token htoken => ?_
  rw [add_zero]
  have hnone : l.ch = '"' ∨ isNumber l.ch = true ∨ isLetter l.ch = true → token = none := by
    intro hch
    cases token with
    | none => rfl
    | some token =>
      obtain ⟨hquote, hnum, hlet⟩ := lexerSwitch_some htoken.symm
      simp [hquote, hnum, hlet] at hch
  by_cases hquote : l.ch = '"'
  · obtain rfl := hnone (.inl hquote)
    simp only [if_pos hquote]
    exact literalToken_refines .string _ _
  · simp only [if_neg hquote]
    by_cases hnum : isNumber l.ch = true
    · obtain rfl := hnone (.inr (.inl hnum))
      simp only [if_pos hnum]
      exact literalToken_refines .number _ _
    · simp only [if_neg hnum]
      by_cases hlet : isLetter l.ch = true
      · obtain rfl := hnone (.inr (.inr hlet))
        simp only [if_pos hlet]
        exact token_refines _ none _
      · simp only [if_neg hlet, ← htoken]
        cases token with
        | none => exact token_refines .illegal none _
        | some token => exact .pure ⟨rfl, rfl⟩

theorem lexerNext_refines (noReturn : Nat → TokenType) (l : Lexer) :
    Refines 0 (lexerNext noReturn l) (.ok (Json.lexerNext noReturn l))
      (Stored (Prod.map Token.erase id) fun r => r.1.blocks) :=
  lexerToken_refines noReturn (lexerSkipWhitespace l)

/-- With steps left for the rest of the text, the loop owns the array and
the tokens stored so far. -/
theorem parseTokensLoop_refines (abi : Abi) (noReturn : Nat → TokenType) (fuel : Nat)
    (lexer : Lexer) (block : Block) (tokensArray : List Token) (room size : Nat)
    (hfuel : lexer.left < fuel) :
    Refines ({block} + total Token.blocks tokensArray)
      (parseTokensLoop abi noReturn fuel lexer block tokensArray room size)
      (Json.parseTokensLoop abi noReturn lexer (tokensArray.map Token.erase) room size)
      (Stored TokensArray.erase TokensArray.blocks) := by
  induction fuel generalizing lexer block tokensArray room size with
  | zero => omega
  | succ fuel ih =>
    rw [parseTokensLoop, Json.parseTokensLoop, List.length_map]
    by_cases hroom : room < (tokensArray.length + 1) * abi.sizeofPtr
    · rw [if_pos hroom, if_pos hroom]
      exact .throw _
    · rw [if_neg hroom, if_neg hroom]
      refine .step_stored (zero_add _).symm (lexerNext_refines noReturn lexer) fun next hnext => ?_
      have htype : next.1.type = (Json.lexerNext noReturn lexer).1.type := by rw [← hnext]; rfl
      have hlexer : next.2 = (Json.lexerNext noReturn lexer).2 := by rw [← hnext]; rfl
      have hmap : tokensArray.map Token.erase ++ [(Json.lexerNext noReturn lexer).1] =
          (tokensArray ++ [next.1]).map Token.erase := by
        rw [← hnext, List.map_append]
        rfl
      have hblocks : next.1.blocks + ({block} + total Token.blocks tokensArray) =
          {block} + total Token.blocks (tokensArray ++ [next.1]) := by
        rw [total_concat]
        abel
      rw [hmap, hblocks]
      by_cases heof : (Json.lexerNext noReturn lexer).1.type = .eof
      · rw [dif_pos heof, if_pos (htype.trans heof)]
        exact .pure ⟨rfl, add_comm _ _⟩
      · rw [dif_neg heof, if_neg fun h => heof (htype.symm.trans h), ← hlexer]
        have hlt := left_lexerNext_lt noReturn heof
        rw [← hlexer] at hlt
        exact .realloc block fun block' => ih _ block' _ _ _ (by omega)

/-- The tokens of a text, with the lexer nothing points to any more. -/
theorem parseTokens_refines (abi : Abi) (noReturn : Nat → TokenType) (json : List Char) :
    Refines 0 (parseTokens abi noReturn json) (.ok (textTokens noReturn json))
      fun tokens t own => tokens.erase = t ∧ ∃ lexer : Block, own = tokens.blocks + {lexer} := by
  rw [← show Json.parseTokens abi noReturn json = .ok (textTokens noReturn json) from
    parseTokens_eq abi noReturn json]
  refine .malloc fun block => ?_
  rw [lexerCreate, bind_assoc]
  refine .malloc fun lexer => ?_
  have hblocks : {lexer} + ({block} + 0) = ({block} + total Token.blocks []) + {lexer} := by
    rw [total]
    abel
  rw [pure_bind, hblocks]
  refine ((parseTokensLoop_refines abi noReturn _ (Json.lexerCreate json) block [] _ _
    (Nat.lt_succ_self _)).frame {lexer}).mono fun tokens t own h => ?_
  obtain ⟨_, rfl, herase, rfl⟩ := h
  exact ⟨herase, lexer, rfl⟩

/-- Every token is freed, with its literal. -/
theorem cleanupLoop_refines {tokens : TokensArray} (left i : Nat)
    (h : left + i = tokens.tokens.length) :
    Refines (total Token.blocks (tokens.tokens.drop i)) (cleanupLoop tokens left i) (.ok ())
      Freed := by
  induction left generalizing i with
  | zero =>
    rw [cleanupLoop, List.drop_of_length_le (by omega)]
    exact .pure rfl
  | succ left ih =>
    have hi : i < tokens.tokens.length := by omega
    rw [cleanupLoop, List.getElem?_eq_getElem hi, List.drop_eq_getElem_cons hi, total]
    exact .step_freed rfl (tokenCleanup_refines _) (ih (i + 1) (by omega))

/-! ## `parseObject` and `parseArray` -/

theorem parseValue_refines (token : Json.Token) :
    Refines 0 (parseValue token) (Json.parseValue token)
      (Stored JsonValue.erase JsonValue.blocks) := by
  unfold parseValue Json.parseValue
  cases token.type with
  | string =>
    refine .bind_stored (zero_add _).symm (strdup_refines token.literal)
      fun string => .pure ⟨?_, ?_⟩
    · rw [JsonValue.erase]
    · rw [JsonValue.blocks, add_zero]
  | number =>
    exact .lift (atof token.literal) fun number =>
      .pure ⟨by rw [JsonValue.erase], by rw [JsonValue.blocks]⟩
  | _ => exact .pure ⟨by rw [JsonValue.erase], by rw [JsonValue.blocks]⟩

def SeparatorsTable.blocks (table : SeparatorsTable) : Multiset Block := {table.block}

theorem recordComma_refines (type : TokenType) (i : Nat) (counts : Int × Int)
    (table : SeparatorsTable) :
    Refines table.blocks (recordComma type i counts table)
      (.ok (Json.recordComma type i counts table.data))
      (Stored SeparatorsTable.data SeparatorsTable.blocks) := by
  unfold recordComma Json.recordComma
  split_ifs
  · exact .pure ⟨rfl, rfl⟩
  · rw [← add_zero table.blocks]
    exact .realloc table.block fun block => .pure ⟨rfl, add_zero _⟩
  · exact .pure ⟨rfl, rfl⟩

theorem getSeparatorsLoop_refines (endPosition : Nat) (ts : List Json.Token) (i : Nat)
    (leftBraceCount leftBracketCount : Int) (table : SeparatorsTable) :
    Refines table.blocks
      (getSeparatorsLoop endPosition ts i leftBraceCount leftBracketCount table)
      (Json.getSeparatorsLoop endPosition ts i leftBraceCount leftBracketCount table.data)
      (Stored SeparatorsTable.data SeparatorsTable.blocks) := by
  induction ts generalizing i leftBraceCount leftBracketCount table with
  | nil =>
    rw [getSeparatorsLoop, Json.getSeparatorsLoop]
    split_ifs
    · exact .throw _
    · exact .pure ⟨rfl, rfl⟩
  | cons t rest ih =>
    rw [getSeparatorsLoop, Json.getSeparatorsLoop]
    split_ifs
    · refine .step_stored (add_zero _).symm (recordComma_refines t.type i _ table)
        fun table' hdata => ?_
      simp only [← hdata, add_zero]
      exact ih _ _ _ _
    · exact .pure ⟨rfl, rfl⟩

theorem getSeparatorsData_refines (tArray : Json.TokensArray) (startPosition endPosition : Nat) :
    Refines 0 (getSeparatorsData tArray startPosition endPosition)
      (Json.getSeparatorsData tArray startPosition endPosition)
      (Stored SeparatorsTable.data SeparatorsTable.blocks) := by
  refine .malloc fun block => ?_
  rw [add_zero]
  exact getSeparatorsLoop_refines _ _ _ _ _ ⟨block, _⟩

section

variable {α β : Type} {erase : α → β} {blocks : α → Multiset Block} {body : Nat → Alloc α}
  {body' : Nat → Except Fault β}
  (hbody : ∀ i, Refines 0 (body i) (body' i) (Stored erase blocks))

include hbody

/-- The loop owns the entries made so far. -/
theorem separatorsLoop_refines (sData : SeparatorsData) (left i j : Nat) (entries : List α) :
    Refines (total blocks entries) (separatorsLoop sData body left i j entries)
      (Json.separatorsLoop sData body' left i j (entries.map erase))
      (Stored (List.map erase) (total blocks)) := by
  induction left generalizing i j entries with
  | zero => exact .pure ⟨rfl, rfl⟩
  | succ left ih =>
    refine .bind_stored (zero_add _).symm (hbody i) fun entry => .lift (sData.at j) fun next => ?_
    have hentries : entries.map erase ++ [erase entry] = (entries ++ [entry]).map erase := by
      rw [List.map_append]
      rfl
    rw [hentries, add_comm, ← total_concat]
    exact ih _ _ _

/-- The positions are freed by the call that allocated them; the struct and
the table stay with the entries. -/
theorem parseEntries_refines (tokens : Json.TokensArray) (opening : TokenType) (start : Nat) :
    Refines 0 (parseEntries tokens opening body start)
      (Json.parseEntries tokens opening body' start)
      (Stored (Option.map (TableOf.erase erase)) (nullable (TableOf.blocks blocks))) := by
  refine .lift (tokens.at start) fun token => ?_
  by_cases hopen : token.type ≠ opening
  · rw [if_pos hopen, if_pos hopen]
    exact .pure ⟨rfl, rfl⟩
  · rw [if_neg hopen, if_neg hopen]
    refine .lift (findEnclosingTokenPosition tokens start) fun found => ?_
    cases found with
    | none => exact .pure ⟨rfl, rfl⟩
    | some endPosition =>
      refine .bind_stored (add_zero _).symm (getSeparatorsData_refines tokens start endPosition)
        fun sData => .malloc fun block => .malloc fun table => ?_
      refine .bind_stored (zero_add _).symm
        (separatorsLoop_refines hbody sData.data sData.data.length start 0 []) fun entries => ?_
      have hblocks : total blocks entries + ({table} + ({block} + (sData.blocks + 0))) =
          {sData.block} + (total blocks entries + ({table} + {block})) := by
        rw [SeparatorsTable.blocks]
        abel
      exact .step_freed hblocks (.free sData.block) (.pure ⟨rfl, rfl⟩)

end

section

variable {tokens : Json.TokensArray} {parseObject : Nat → Alloc (Option JsonObject)}
  {parseArray : Nat → Alloc (Option JsonArray)}
  {parseObject' : Nat → Except Fault (Option Json.JsonObject)}
  {parseArray' : Nat → Except Fault (Option Json.JsonArray)}
  (hobject : ∀ i, Refines 0 (parseObject i) (parseObject' i)
    (Stored (Option.map (TableOf.erase ObjectPropertyOf.erase))
      (nullable (TableOf.blocks ObjectPropertyOf.blocks))))
  (harray : ∀ i, Refines 0 (parseArray i) (parseArray' i)
    (Stored (Option.map (TableOf.erase JsonValue.erase))
      (nullable (TableOf.blocks JsonValue.blocks))))

include hobject harray

theorem arrayEntry_refines (i : Nat) :
    Refines 0 (arrayEntry tokens parseObject parseArray i)
      (Json.arrayEntry tokens parseObject' parseArray' i)
      (Stored JsonValue.erase JsonValue.blocks) := by
  refine .lift (tokens.at (i + 1)) fun token => ?_
  by_cases hbracket : token.type = .leftBracket
  · rw [if_pos hbracket, if_pos hbracket]
    refine .bind (add_zero _).symm (harray (i + 1)) fun array a own h => ?_
    rw [add_zero]
    exact .pure (array_stored h)
  · rw [if_neg hbracket, if_neg hbracket]
    refine .lift (tokens.at (i + 2)) fun second => ?_
    by_cases hbrace : second.type = .leftBrace
    · rw [if_pos hbrace, if_pos hbrace]
      refine .bind (add_zero _).symm (hobject (i + 1)) fun object o own h => ?_
      rw [add_zero]
      exact .pure (object_stored h)
    · rw [if_neg hbrace, if_neg hbrace]
      exact parseValue_refines token

/-- A property owns its struct, its key and its value. -/
theorem objectEntry_refines (i : Nat) :
    Refines 0 (objectEntry tokens parseObject parseArray i)
      (Json.objectEntry tokens parseObject' parseArray' i)
      (Stored ObjectPropertyOf.erase ObjectPropertyOf.blocks) := by
  refine .malloc fun block => .lift (tokens.at (i + 1)) fun keyToken => ?_
  refine .bind_stored (zero_add _).symm (strdup_refines keyToken.literal) fun key =>
    .lift (tokens.at (i + 3)) fun token => ?_
  have hproperty : ∀ value v own, Stored JsonValue.erase JsonValue.blocks value v own →
      Stored ObjectPropertyOf.erase ObjectPropertyOf.blocks { block, key, value }
        { key := key.map CString.chars, value := v }
        (own + (nullable CString.blocks key + ({block} + 0))) := by
    intro value v own h
    obtain ⟨rfl, rfl⟩ := h
    refine ⟨rfl, ?_⟩
    rw [ObjectPropertyOf.blocks]
    abel
  by_cases hbrace : token.type = .leftBrace
  · rw [if_pos hbrace, if_pos hbrace]
    exact .bind (zero_add _).symm (hobject (i + 3)) fun object o own h =>
      .pure (hproperty _ _ _ (object_stored h))
  · rw [if_neg hbrace, if_neg hbrace]
    by_cases hbracket : token.type = .leftBracket
    · rw [if_pos hbracket, if_pos hbracket]
      exact .bind (zero_add _).symm (harray (i + 3)) fun array a own h =>
        .pure (hproperty _ _ _ (array_stored h))
    · rw [if_neg hbracket, if_neg hbracket]
      exact .bind (zero_add _).symm (parseValue_refines token) fun value v own h =>
        .pure (hproperty _ _ _ h)

end

theorem parseFuel_refines (tokens : Json.TokensArray) (fuel : Nat) :
    (∀ start, Refines 0 (parseObjectFuel tokens fuel start)
      (Json.parseObjectFuel tokens fuel start)
      (Stored (Option.map (TableOf.erase ObjectPropertyOf.erase))
        (nullable (TableOf.blocks ObjectPropertyOf.blocks)))) ∧
    ∀ start, Refines 0 (parseArrayFuel tokens fuel start) (Json.parseArrayFuel tokens fuel start)
      (Stored (Option.map (TableOf.erase JsonValue.erase))
        (nullable (TableOf.blocks JsonValue.blocks))) := by
  induction fuel with
  | zero => exact ⟨fun _ => .throw _, fun _ => .throw _⟩
  | succ fuel ih =>
    obtain ⟨hobject, harray⟩ := ih
    exact ⟨fun start => parseEntries_refines (objectEntry_refines hobject harray) _ _ start,
      fun start => parseEntries_refines (arrayEntry_refines hobject harray) _ _ start⟩

/-- What a call allocates and does not return it has freed. -/
theorem parseObject_refines (tokens : Json.TokensArray) (start : Nat) :
    Refines 0 (parseObject tokens start) (Json.parseObject tokens start)
      (Stored (Option.map (TableOf.erase ObjectPropertyOf.erase))
        (nullable (TableOf.blocks ObjectPropertyOf.blocks))) :=
  (parseFuel_refines tokens tokens.tokens.length).1 start

/-! ## The cleanups -/

/-- The postcondition of a cleanup that leaves `n` blocks. -/
def Leaves (n : Nat) (_ _ : Unit) (own : Multiset Block) : Prop := own.card = n

mutual

/-- The cleanup of a value frees what the value owns, but for one block a
member: the struct of the property. -/
theorem valueCleanup_refines : ∀ value : JsonValue,
    Refines value.blocks (valueCleanup value) (Json.valueCleanup value.erase)
      (Leaves (valueMembers value.erase))
  | .string string => by
      rw [JsonValue.blocks, valueCleanup, JsonValue.erase, Json.valueCleanup, valueMembers]
      refine (freeString_refines string).mono fun _ _ own h => ?_
      rw [show own = 0 from h]
      exact Multiset.card_zero
  | .object (some ⟨block, table, properties⟩) => by
      rw [JsonValue.blocks, valueCleanup, jsonObjectCleanup, JsonValue.erase, Json.valueCleanup,
        Json.jsonObjectCleanup, valueMembers]
      exact (propertiesCleanup_refines properties).then_free
        ((Refines.free table).then_free (.free block))
  | .array (some ⟨block, table, elements⟩) => by
      rw [JsonValue.blocks, valueCleanup, jsonArrayCleanup, JsonValue.erase, Json.valueCleanup,
        Json.jsonArrayCleanup, valueMembers]
      exact (elementsCleanup_refines elements).then_free
        ((Refines.free table).then_free (.free block))
  | .object none => by
      rw [JsonValue.erase, valueCleanup, jsonObjectCleanup, Json.valueCleanup,
        Json.jsonObjectCleanup]
      exact .throw _
  | .array none => by
      rw [JsonValue.erase, valueCleanup, jsonArrayCleanup, Json.valueCleanup,
        Json.jsonArrayCleanup]
      exact .throw _
  | .indeterminate => by
      rw [JsonValue.erase, valueCleanup, Json.valueCleanup]
      exact .throw _
  | .number _ => by
      rw [JsonValue.erase, valueCleanup, Json.valueCleanup, JsonValue.blocks, valueMembers]
      exact .pure Multiset.card_zero
  | .boolean _ => by
      rw [JsonValue.erase, valueCleanup, Json.valueCleanup, JsonValue.blocks, valueMembers]
      exact .pure Multiset.card_zero
  | .null => by
      rw [JsonValue.erase, valueCleanup, Json.valueCleanup, JsonValue.blocks, valueMembers]
      exact .pure Multiset.card_zero

theorem propertiesCleanup_refines : ∀ properties : List (ObjectPropertyOf JsonValue),
    Refines (propertiesBlocks properties) (propertiesCleanup properties)
      (Json.propertiesCleanup (propertiesErase properties))
      (Leaves (propertiesMembers (propertiesErase properties)))
  | [] => by
      rw [propertiesBlocks, propertiesCleanup, propertiesErase, Json.propertiesCleanup,
        propertiesMembers]
      exact .pure Multiset.card_zero
  | ⟨block, key, value⟩ :: rest => by
      rw [propertiesBlocks, propertiesCleanup, propertiesErase, Json.propertiesCleanup,
        propertyCleanup, propertiesMembers, add_assoc, add_assoc]
      refine .bind rfl (valueCleanup_refines value) fun _ _ own hown => ?_
      have hblocks : own + (nullable CString.blocks key + ({block} + propertiesBlocks rest)) =
          nullable CString.blocks key + (propertiesBlocks rest + (own + {block})) := by
        abel
      refine .step_freed hblocks (freeString_refines key) ?_
      refine ((propertiesCleanup_refines rest).frame (own + {block})).mono fun _ _ _ h => ?_
      obtain ⟨own', rfl, hown'⟩ := h
      rw [Leaves, Multiset.card_add, Multiset.card_add, Multiset.card_singleton, hown, hown',
        add_comm]

theorem elementsCleanup_refines : ∀ elements : List JsonValue,
    Refines (elementsBlocks elements) (elementsCleanup elements)
      (Json.elementsCleanup (elementsErase elements))
      (Leaves (elementsMembers (elementsErase elements)))
  | [] => by
      rw [elementsBlocks, elementsCleanup, elementsErase, Json.elementsCleanup, elementsMembers]
      exact .pure Multiset.card_zero
  | value :: rest => by
      rw [elementsBlocks, elementsCleanup, elementsErase, Json.elementsCleanup, elementsMembers]
      refine .bind rfl (valueCleanup_refines value) fun _ _ own hown => ?_
      rw [add_comm]
      refine ((elementsCleanup_refines rest).frame own).mono fun _ _ _ h => ?_
      obtain ⟨own', rfl, hown'⟩ := h
      rw [Leaves, Multiset.card_add, hown, hown', add_comm]

end

/-! ## The run -/

/-- The run without the ledger: it returns what `main` parses, and faults
where the cleanup of that does. -/
theorem parseRun_refines (abi : Abi) (noReturn : Nat → TokenType) (json : List Char) :
    Refines 0 (parseRun abi noReturn json)
      (do
        let o ← parseText abi noReturn json
        Json.jsonObjectCleanup o
        .ok o)
      fun _ o own => own.card = 2 + valueMembers (.object o) := by
  rw [parseText_eq]
  refine .step (add_zero 0).symm (parseTokens_refines abi noReturn json) fun tokens own h => ?_
  obtain ⟨htokens, lexer, rfl⟩ := h
  rw [htokens, add_zero]
  refine .bind (zero_add _).symm (parseObject_refines _ 0) fun object o own h => ?_
  obtain ⟨herase, rfl⟩ := object_stored h
  have hlen : tokens.length = tokens.tokens.length := by
    calc tokens.length = (textTokens noReturn json).length := congrArg (·.length) htokens
      _ = (textTokens noReturn json).tokens.length := rfl
      _ = tokens.tokens.length := by rw [← htokens, TokensArray.erase, List.length_map]
  have hblocks : (JsonValue.object object).blocks + (tokens.blocks + {lexer}) =
      total Token.blocks tokens.tokens +
        ((JsonValue.object object).blocks + ({tokens.block} + {lexer})) := by
    rw [TokensArray.blocks]
    abel
  refine .step_freed hblocks (cleanupLoop_refines tokens.length 0 hlen) ?_
  have hcleanup := valueCleanup_refines (.object object)
  rw [herase, valueCleanup, Json.valueCleanup] at hcleanup
  rw [← bind_pure (jsonObjectCleanup object)]
  refine .bind rfl hcleanup fun _ _ own hown => .pure ?_
  rw [Multiset.card_add, Multiset.card_add, Multiset.card_singleton, Multiset.card_singleton,
    hown, add_comm]

/-- Every block the run allocates is freed, each once. -/
def Balanced (abi : Abi) (noReturn : Nat → TokenType) (json : List Char) : Prop :=
  ∃ L, parseRun abi noReturn json .empty = .ok ((), L) ∧ L.live = 0

/-- A run that returns leaves the lexer, the array and the properties. -/
theorem parseRun_card (abi : Abi) (noReturn : Nat → TokenType) (json : List Char) (n : Nat) :
    (∃ L, parseRun abi noReturn json .empty = .ok ((), L) ∧ L.live.card = n) ↔
      ∃ o, parseText abi noReturn json = .ok (some o) ∧
        Json.jsonObjectCleanup (some o) = .ok () ∧
        n = 2 + valueMembers (.object (some o)) := by
  have hrefines := parseRun_refines abi noReturn json
  constructor
  · intro h
    obtain ⟨L, hrun, rfl⟩ := h
    obtain ⟨o, hplain, hcard⟩ := hrefines.of_run hrun
    obtain ⟨o', ho, hrest⟩ := bind_ok_iff.mp hplain
    obtain ⟨_, hcleanup, heq⟩ := bind_ok_iff.mp hrest
    obtain rfl := Except.ok.inj heq
    cases o' with
    | none => exact nomatch hcleanup
    | some o => exact ⟨o, ho, hcleanup, hcard⟩
  · intro h
    obtain ⟨o, ho, hcleanup, rfl⟩ := h
    obtain ⟨_, L, hrun, hcard⟩ := hrefines.exists_run
      (bind_ok_iff.mpr ⟨some o, ho, bind_ok_iff.mpr ⟨(), hcleanup, rfl⟩⟩)
    exact ⟨L, hrun, hcard⟩

theorem not_balanced (abi : Abi) (noReturn : Nat → TokenType) (json : List Char) :
    ¬ Balanced abi noReturn json := by
  intro h
  obtain ⟨L, hrun, hlive⟩ := h
  have hcard : L.live.card = 0 := by rw [hlive, Multiset.card_zero]
  obtain ⟨o, -, -, hn⟩ := (parseRun_card abi noReturn json 0).mp ⟨L, hrun, hcard⟩
  omega

/-- No run frees a block that is not live: the parse is stopped by a NULL
literal at most, and the cleanup of what it returned by a NULL child or an
unassigned value. -/
theorem parseRun_ne_useAfterFree (abi : Abi) (noReturn : Nat → TokenType) (json : List Char) :
    parseRun abi noReturn json .empty ≠ .error .useAfterFree := by
  intro h
  have heof : EofTerminated (textTokens noReturn json).tokens :=
    eofTerminated_lexerTokens noReturn (Json.lexerCreate json)
  have hplain := (parseRun_refines abi noReturn json).run_error_iff.mp h
  rw [parseText_eq, bind_error_iff] at hplain
  rcases hplain with hplain | ⟨o', -, hplain⟩
  · have hnull := parseObject_faultsIn heof (List.length_pos_iff.mpr heof.ne_nil) _ hplain
    cases hnull
  · rcases bind_error_iff.mp hplain with hcleanup | ⟨_, -, hplain⟩
    · obtain ⟨w, -, ⟨he, -⟩ | ⟨he, -⟩⟩ := valueCleanup_error (.object o') hcleanup
      · exact nomatch he
      · exact nomatch he
    · exact nomatch hplain

/-- **The balance** is met by no run: a run frees no block twice, and one
that returns, which it does whenever the text parses and the cleanup of the
object meets nothing NULL or unassigned, leaves the lexer, the array of
token pointers and one struct for each member of every object. -/
theorem parseRun_leaks (abi : Abi) (noReturn : Nat → TokenType) (json : List Char) :
    ¬ Balanced abi noReturn json ∧
      parseRun abi noReturn json .empty ≠ .error .useAfterFree ∧
      ∀ n, (∃ L, parseRun abi noReturn json .empty = .ok ((), L) ∧ L.live.card = n) ↔
        ∃ o, parseText abi noReturn json = .ok (some o) ∧
          Json.jsonObjectCleanup (some o) = .ok () ∧
          n = 2 + valueMembers (.object (some o)) := by
  exact ⟨not_balanced abi noReturn json, parseRun_ne_useAfterFree abi noReturn json,
    parseRun_card abi noReturn json⟩

/-- `{"a":null,"b":null}`: the one member that is read is lost as well. -/
theorem parseRun_leaks_member :
    let a : PlainString := ⟨['a'], by decide, by decide, by decide⟩
    let b : PlainString := ⟨['b'], by decide, by decide, by decide⟩
    let text := ['{', '"', 'a', '"', ':', 'n', 'u', 'l', 'l', ',', '"', 'b', '"', ':', 'n', 'u',
      'l', 'l', '}']
    let object : Json.JsonObject := [{ key := some ['a'], value := .null }]
    Renders (JsonTree.object [(a, .null), (b, .null)]).tokens text ∧
      parseText ⟨4, by decide⟩ (fun _ => .illegal) text = .ok (some object) ∧
      TreeDefined (.object (some object)) ∧
      (∃ L, parseRun ⟨4, by decide⟩ (fun _ => .illegal) text .empty = .ok ((), L) ∧
        L.live.card = 3) ∧
      ¬ Balanced ⟨4, by decide⟩ (fun _ => .illegal) text := by
  intro a b text object
  have htokens : (JsonTree.object [(a, .null), (b, .null)]).tokens =
      [⟨.leftBrace, none⟩, ⟨.string, some ['a']⟩, ⟨.colon, none⟩, ⟨.jsonNull, none⟩,
        ⟨.comma, none⟩, ⟨.string, some ['b']⟩, ⟨.colon, none⟩, ⟨.jsonNull, none⟩,
        ⟨.rightBrace, none⟩] := by
    simp [JsonTree.tokens, membersTokens, a, b]
  have hblank : Blank [] := by decide
  have htext : Renders (JsonTree.object [(a, .null), (b, .null)]).tokens text := by
    rw [htokens]
    exact .cons hblank .leftBrace
      (.cons hblank (.string ['a'] (by decide) (by decide))
        (.cons hblank .colon
          (.cons hblank .jsonNull
            (.cons hblank .comma
              (.cons hblank (.string ['b'] (by decide) (by decide))
                (.cons hblank .colon
                  (.cons hblank .jsonNull
                    (.cons hblank .rightBrace (.nil hblank) (by decide))
                    (by decide))
                  (by decide))
                (by decide))
              (by decide))
            (by decide))
          (by decide))
        (by decide))
      (by decide)
  have hparse : parseText ⟨4, by decide⟩ (fun _ => .illegal) text = .ok (some object) := by
    rw [parseText_renders ⟨4, by decide⟩ (fun _ => .illegal) htext]
    unfold treeTokens
    rw [htokens]
    rfl
  have hreach : ∀ w, ReflTransGen HasChild (.object (some object)) w →
      w = .object (some object) ∨ w = .null := by
    intro w hw
    rcases ReflTransGen.cases_head hw with rfl | ⟨v, hv, hw⟩
    · exact .inl rfl
    · cases hv with
      | property hp =>
        obtain rfl := List.mem_singleton.mp hp
        rcases ReflTransGen.cases_head hw with rfl | ⟨_, hnull, -⟩
        · exact .inr rfl
        · cases hnull
  refine ⟨htext, hparse, ⟨?_, ?_, ?_⟩,
    (parseRun_card ⟨4, by decide⟩ (fun _ => .illegal) text 3).mpr ⟨object, hparse, rfl, rfl⟩,
    not_balanced ⟨4, by decide⟩ (fun _ => .illegal) text⟩
  · intro w hw
    rcases hreach w hw with rfl | rfl <;> simp
  · intro w hw
    rcases hreach w hw with rfl | rfl <;> simp
  · intro properties hw p hp
    rcases hreach _ hw with heq | heq
    · obtain rfl := Option.some.inj (Json.JsonValue.object.inj heq)
      obtain rfl := List.mem_singleton.mp hp
      simp
    · cases heq

end Heap

end CWebServer.Json
