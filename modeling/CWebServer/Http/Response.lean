/-
CWebServer.Http.Response — `getResponse` of `lib/response.c`.

The method is compared with four names and each has an answer of its own;
any other string gets the refusal, which lists the four again in its
`Allow` field. Nothing in the source ties the two lists together, nor the
name in an answer's body to the name it was chosen by: both are read out of
the texts here (`fieldValue`, `Renders`), and `getResponse_negotiates` says
that they agree for every method.

Nothing calls `getResponse`: `process_command` has an answer of its own.

No `sorry`, no `axiom`, no `native_decide`.
-/
import CWebServer.Json.Meaning

namespace CWebServer.Http

open Libc Json

/-! ## `getResponse` -/

def crlf : List Char := ['\r', '\n']

/-- What stands before the name in the body of an answer, and behind it. -/
def okOpening : List Char := "\x7b \"method\": \"".toList

def okClosing : List Char := "\" \x7d\r\n".toList

/-- The answer to a method with a name. -/
def okResponse (method : List Char) : List Char :=
  "HTTP/1.1 200 OK\r\nServer: server.exe\r\nContent-type: application/json\r\n\r\n".toList ++
    (okOpening ++ (method ++ okClosing))

/-- The answer to any other. -/
def notAllowedResponse : List Char :=
  ("HTTP/1.1 405 Method Not Allowed\r\nContent-type: plain/text\r\n" ++
    "Allow: GET, POST, PATCH, DELETE\r\n\r\n405 Try another method\r\n").toList

/-- `getResponse`. -/
def getResponse (method : List Char) : List Char :=
  if cstr method = "GET".toList then okResponse "GET".toList
  else if cstr method = "POST".toList then okResponse "POST".toList
  else if cstr method = "PATCH".toList then okResponse "PATCH".toList
  else if cstr method = "DELETE".toList then okResponse "DELETE".toList
  else notAllowedResponse

/-! ## Reading an answer -/

/-- A text cut at its first blank line. -/
def splitHead : List Char → Option (List Char × List Char)
  | [] => none
  | c :: rest =>
    if crlf ++ crlf <+: c :: rest then some ([], (c :: rest).drop 4)
    else (splitHead rest).map fun p => (c :: p.1, p.2)

/-- The lines of a head. -/
def headLines (head : List Char) : List (List Char) := (head.filter (· ≠ '\r')).splitOn '\n'

def statusLine (head : List Char) : List Char := (headLines head).headD []

/-- The value of the first field with the name. -/
def fieldValue (name head : List Char) : Option (List Char) :=
  (headLines head).findSome? fun line =>
    if name ++ [':', ' '] <+: line then some (line.drop (name.length + 2)) else none

/-- The items of a list in a field. -/
def listItems (value : List Char) : List (List Char) :=
  (value.splitOn ',').map (·.dropWhile (· == ' '))

/-- What an answer says: the method was taken, and which one it was, or the
methods that would be. -/
inductive Answer where
  | taken (method : PlainString)
  | refused (allowed : List (List Char))

/-- The answer that a text gives. A taken method is named by the JSON object
in the body. -/
inductive Answers (text : List Char) : Answer → Prop where
  | taken {head body : List Char} {key method : PlainString} :
      splitHead text = some (head, body) → statusLine head = "HTTP/1.1 200 OK".toList →
      fieldValue "Content-type".toList head = some "application/json".toList →
      key.chars = "method".toList →
      Renders (JsonTree.object [(key, .string method)]).tokens body →
      Answers text (.taken method)
  | refused {head body value : List Char} :
      splitHead text = some (head, body) →
      statusLine head = "HTTP/1.1 405 Method Not Allowed".toList →
      fieldValue "Allow".toList head = some value →
      Answers text (.refused (listItems value))

/-! ## The answers -/

def okHead : List Char :=
  "HTTP/1.1 200 OK\r\nServer: server.exe\r\nContent-type: application/json".toList

/-- The body of an answer, for any name. -/
def okBody (method : List Char) : List Char := okOpening ++ (method ++ okClosing)

theorem splitHead_okResponse (method : List Char) :
    splitHead (okResponse method) = some (okHead, okBody method) := by
  rfl

/-- `method`, as a key. -/
def methodKey : PlainString := ⟨"method".toList, by decide, by decide, by decide⟩

/-- One member with a string, as the bodies write it. -/
theorem renders_member (key value : PlainString) :
    Renders (JsonTree.object [(key, .string value)]).tokens
      ('\x7b' :: ' ' :: '"' :: (key.chars ++ '"' :: ':' :: ' ' :: '"' ::
        (value.chars ++ ['"', ' ', '\x7d', '\r', '\n']))) := by
  have htokens : (JsonTree.object [(key, .string value)]).tokens =
      [⟨.leftBrace, none⟩, ⟨.string, some key.chars⟩, ⟨.colon, none⟩,
        ⟨.string, some value.chars⟩, ⟨.rightBrace, none⟩] := by
    simp [JsonTree.tokens, membersTokens]
  have hnone : Blank [] := by decide
  have hspace : Blank [' '] := by decide
  have hend : Blank crlf := by decide
  have hclose := Renders.cons hspace .rightBrace (.nil hend) nofun
  have hvalue := Renders.cons hspace
    (.string value.chars value.quote_not_mem value.nul_not_mem) hclose nofun
  have hcolon := Renders.cons hnone .colon hvalue nofun
  have hkey := Renders.cons hspace
    (.string key.chars key.quote_not_mem key.nul_not_mem) hcolon nofun
  have hopen := Renders.cons hnone .leftBrace hkey nofun
  rw [htokens]
  simpa [crlf] using hopen

/-- The body of an answer is a JSON object that names the method. -/
theorem renders_okBody (method : PlainString) :
    Renders (JsonTree.object [(methodKey, .string method)]).tokens (okBody method.chars) := by
  have hopening : okOpening =
      '\x7b' :: ' ' :: '"' :: (methodKey.chars ++ ['"', ':', ' ', '"']) := by decide +kernel
  have hclosing : okClosing = ['"', ' ', '\x7d', '\r', '\n'] := by decide +kernel
  have hmember := renders_member methodKey method
  rw [okBody, hopening, hclosing]
  generalize methodKey = key at hmember ⊢
  simpa using hmember

theorem okResponse_answers (method : PlainString) :
    Answers (okResponse method.chars) (.taken method) :=
  .taken (splitHead_okResponse method.chars) (by decide +kernel) (by decide +kernel) rfl
    (renders_okBody method)

/-- What the refusal lists. -/
def allowedMethods : List (List Char) := listItems "GET, POST, PATCH, DELETE".toList

def notAllowedHead : List Char :=
  ("HTTP/1.1 405 Method Not Allowed\r\nContent-type: plain/text\r\n" ++
    "Allow: GET, POST, PATCH, DELETE").toList

theorem splitHead_notAllowedResponse :
    splitHead notAllowedResponse = some (notAllowedHead, "405 Try another method\r\n".toList) := by
  decide +kernel

theorem fieldValue_notAllowedHead :
    fieldValue "Allow".toList notAllowedHead = some "GET, POST, PATCH, DELETE".toList := by
  decide +kernel

theorem notAllowedResponse_answers : Answers notAllowedResponse (.refused allowedMethods) :=
  .refused splitHead_notAllowedResponse (by decide +kernel) fieldValue_notAllowedHead

/-! ## Both lists -/

theorem allowedMethods_eq :
    allowedMethods = ["GET".toList, "POST".toList, "PATCH".toList, "DELETE".toList] := by
  decide +kernel

/-- The methods compared with are the methods listed. -/
theorem getResponse_cases (method : List Char) :
    (cstr method ∈ allowedMethods ∧ getResponse method = okResponse (cstr method)) ∨
      (cstr method ∉ allowedMethods ∧ getResponse method = notAllowedResponse) := by
  rw [allowedMethods_eq, getResponse]
  split_ifs with hget hpost hpatch hdelete
  · exact .inl ⟨by simp [hget], by rw [hget]⟩
  · exact .inl ⟨by simp [hpost], by rw [hpost]⟩
  · exact .inl ⟨by simp [hpatch], by rw [hpatch]⟩
  · exact .inl ⟨by simp [hdelete], by rw [hdelete]⟩
  · refine .inr ⟨?_, rfl⟩
    simp only [List.mem_cons, List.not_mem_nil, or_false, not_or]
    exact ⟨hget, hpost, hpatch, hdelete⟩

/-- A listed name can stand in a JSON string. -/
theorem exists_plain {name : List Char} (h : name ∈ allowedMethods) :
    ∃ s : PlainString, s.chars = name := by
  rw [allowedMethods_eq] at h
  simp only [List.mem_cons, List.not_mem_nil, or_false] at h
  rcases h with rfl | rfl | rfl | rfl
  · exact ⟨⟨_, by decide, by decide, by decide⟩, rfl⟩
  · exact ⟨⟨_, by decide, by decide, by decide⟩, rfl⟩
  · exact ⟨⟨_, by decide, by decide, by decide⟩, rfl⟩
  · exact ⟨⟨_, by decide, by decide, by decide⟩, rfl⟩

/-- Every refusal lists the same methods. -/
theorem allowed_of_refused {method : List Char} {allowed : List (List Char)}
    (h : Answers (getResponse method) (.refused allowed)) : allowed = allowedMethods := by
  cases h with
  | @refused head body value hsplit hstatus hvalue =>
    rcases getResponse_cases method with ⟨-, heq⟩ | ⟨-, heq⟩
    · rw [heq, splitHead_okResponse, Option.some.injEq, Prod.mk.injEq] at hsplit
      rw [← hsplit.1] at hstatus
      exact absurd hstatus (by decide +kernel)
    · rw [heq, splitHead_notAllowedResponse, Option.some.injEq, Prod.mk.injEq] at hsplit
      rw [← hsplit.1, fieldValue_notAllowedHead, Option.some.injEq] at hvalue
      rw [← hvalue]
      rfl

/-- **Negotiation**: every method is taken, by an answer that names it, and
is then listed in every refusal; or it is refused, by an answer that lists
other methods only, each of which is taken. -/
theorem getResponse_negotiates (method : List Char) :
    (∃ name : PlainString, name.chars = cstr method ∧
        Answers (getResponse method) (.taken name) ∧
        ∀ other allowed, Answers (getResponse other) (.refused allowed) →
          cstr method ∈ allowed) ∨
      ∃ allowed, Answers (getResponse method) (.refused allowed) ∧ cstr method ∉ allowed ∧
        ∀ other ∈ allowed, ∃ name : PlainString, name.chars = other ∧
          Answers (getResponse other) (.taken name) := by
  have htaken : ∀ {m name}, m ∈ allowedMethods → cstr m = m → name.chars = m →
      Answers (getResponse m) (.taken name) := by
    intro m name hm hcstr hname
    rcases getResponse_cases m with ⟨-, heq⟩ | ⟨hnot, -⟩
    · rw [heq, hcstr, ← hname]
      exact okResponse_answers name
    · rw [hcstr] at hnot
      exact absurd hm hnot
  rcases getResponse_cases method with ⟨hmem, heq⟩ | ⟨hnot, heq⟩
  · obtain ⟨name, hname⟩ := exists_plain hmem
    refine .inl ⟨name, hname, ?_, fun other allowed h => ?_⟩
    · rw [heq, ← hname]
      exact okResponse_answers name
    · rw [allowed_of_refused h]
      exact hmem
  · refine .inr ⟨allowedMethods, by rw [heq]; exact notAllowedResponse_answers, hnot,
      fun other hother => ?_⟩
    obtain ⟨name, hname⟩ := exists_plain hother
    have hcstr : cstr other = other := by
      rw [← hname]
      exact cstr_of_not_mem name.nul_not_mem
    exact ⟨name, hname, htaken hother hcstr hname⟩

end CWebServer.Http
