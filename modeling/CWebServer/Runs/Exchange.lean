/-
CWebServer.Runs.Exchange — one request of one client, answered at most
once.

Nothing here names a program. An `Exchange` receives bytes until they are
`Ready` for the `Service`, and then hands them to a worker, answers what
the worker made of them and gives its two resources back. Before that the
client can hang up or be timed out, which ends it unanswered; afterwards a
timeout only stops the timer. Where the worker or the connection does not
take what it is given, the exchange is `abandoned`, and nothing ends it.

`path_iff_life` says which sequences of actions make up a whole life, from
the first byte to the last resource. `rank` bounds the actions that are
still to come, reads apart, so that an exchange is ended by any actions that
go on long enough, unless it is abandoned or `Stuck` with bytes that no
worker comes back from. `Holds` says what an exchange has to work with: the
bytes its own actions brought, or what a worker made of them.

No `sorry`, no `axiom`, no `native_decide`.
-/
import CWebServer.Runs.Path

namespace Runs

/-- When the bytes received are a request, and what a worker makes of them
with what it finds in its environment, if it comes back from them. -/
structure Service (Byte Env Request : Type) where
  Ready : List Byte → Prop
  parse : Env → List Byte → Option Request

/-- How far an exchange is. `timed` says that its timer runs, and a closing
exchange holds its client, its timer, both or neither. -/
inductive Exchange (Byte Request : Type) where
  | receiving (reading : Bool) (received : List Byte)
  | submitted (timed : Bool) (received : List Byte)
  | processed (timed : Bool) (request : Request)
  | answering (request : Request)
  | abandoned (timed : Bool) (request : Option Request)
  | closing (client timer : Bool) (request : Option Request)

/-- `taken` says whether the worker takes the bytes, should they be ready,
and whether the connection takes the answer. -/
inductive Action (Byte Env : Type) where
  | receive (bytes : List Byte) (taken : Bool)
  | hangUp
  | expire
  | process (env : Env)
  | respond (taken : Bool)
  | finish
  | releaseClient
  | releaseTimer

section

variable {Byte Env Request : Type} (service : Service Byte Env Request)

namespace Exchange

/-- One action. -/
inductive Next :
    Exchange Byte Request → Action Byte Env → Exchange Byte Request → Prop where
  | gather {received bytes : List Byte} {taken : Bool} :
      ¬ service.Ready (received ++ bytes) →
      Next (receiving true received) (.receive bytes taken) (receiving true (received ++ bytes))
  | submit {received bytes : List Byte} : service.Ready (received ++ bytes) →
      Next (receiving true received) (.receive bytes true) (submitted true (received ++ bytes))
  | refuse {received bytes : List Byte} : service.Ready (received ++ bytes) →
      Next (receiving true received) (.receive bytes false) (abandoned true none)
  | hangUp (received : List Byte) :
      Next (receiving true received) .hangUp (closing true true none)
  | timeOut (reading : Bool) (received : List Byte) :
      Next (receiving reading received) .expire (closing true true none)
  | expireSubmitted (received : List Byte) :
      Next (submitted true received) .expire (submitted false received)
  | process (timed : Bool) {received : List Byte} {env : Env} {request : Request} :
      service.parse env received = some request →
      Next (submitted timed received) (.process env) (processed timed request)
  | expireProcessed (request : Request) :
      Next (processed true request) .expire (processed false request)
  | respond (timed : Bool) (request : Request) :
      Next (processed timed request) (.respond true) (answering request)
  | drop (timed : Bool) (request : Request) :
      Next (processed timed request) (.respond false) (abandoned false (some request))
  | finish (request : Request) :
      Next (answering request) .finish (closing true true (some request))
  | expireAbandoned (request : Option Request) :
      Next (abandoned true request) .expire (abandoned false request)
  | releaseClient (timer : Bool) (request : Option Request) :
      Next (closing true timer request) .releaseClient (closing false timer request)
  | releaseTimer (client : Bool) (request : Option Request) :
      Next (closing client true request) .releaseTimer (closing client false request)

variable {service} {x y z : Exchange Byte Request} {a : Action Byte Env}
  {acts : List (Action Byte Env)}

theorem Next.unique (h : Next service x a y) (h' : Next service x a z) : y = z := by
  cases h with
  | gather hready =>
    cases h' with
    | gather _ => rfl
    | submit hready' => exact absurd hready' hready
    | refuse hready' => exact absurd hready' hready
  | submit hready =>
    cases h' with
    | gather hready' => exact absurd hready hready'
    | submit _ => rfl
  | refuse hready =>
    cases h' with
    | gather hready' => exact absurd hready hready'
    | refuse _ => rfl
  | process timed hparse =>
    cases h' with
    | process _ hparse' => rw [Option.some.inj (hparse.symm.trans hparse')]
  | _ =>
    cases h'
    rfl

/-! ## Whole lives -/

/-- The reads of some bytes. -/
def receives (chunks : List (List Byte × Bool)) : List (Action Byte Env) :=
  chunks.map fun c => .receive c.1 c.2

/-- What they bring. -/
def gathered (chunks : List (List Byte × Bool)) : List Byte := (chunks.map Prod.fst).flatten

/-- None of the chunks makes the bytes ready. -/
def Incomplete (service : Service Byte Env Request) (received : List Byte) :
    List (List Byte × Bool) → Prop
  | [] => True
  | c :: chunks => ¬ service.Ready (received ++ c.1) ∧ Incomplete service (received ++ c.1) chunks

/-- How what is still held can be given back. -/
def releases : Bool → Bool → List (List (Action Byte Env))
  | false, false => [[]]
  | true, false => [[.releaseClient]]
  | false, true => [[.releaseTimer]]
  | true, true => [[.releaseClient, .releaseTimer], [.releaseTimer, .releaseClient]]

/-- The timer may go off once between the submission and the answer. -/
def workings (env : Env) : List (List (Action Byte Env)) :=
  [[.process env], [.expire, .process env], [.process env, .expire]]

/-- A whole life, from `received` on: some reads and then the end, or reads
up to the one that makes the bytes ready, the work, the answer and the
end. -/
inductive Life (service : Service Byte Env Request) (received : List Byte) :
    List (Action Byte Env) → Option Request → Prop where
  | unanswered {chunks : List (List Byte × Bool)} {last : Action Byte Env}
      {rest : List (Action Byte Env)} :
      Incomplete service received chunks → last = .hangUp ∨ last = .expire →
      rest ∈ releases true true → Life service received (receives chunks ++ last :: rest) none
  | answered {chunks : List (List Byte × Bool)} {bytes : List Byte} {env : Env}
      {request : Request} {work rest : List (Action Byte Env)} :
      Incomplete service received chunks →
      service.Ready (received ++ gathered chunks ++ bytes) →
      service.parse env (received ++ gathered chunks ++ bytes) = some request →
      work ∈ workings env → rest ∈ releases true true →
      Life service received
        (receives chunks ++ .receive bytes true :: (work ++ .respond true :: .finish :: rest))
        (some request)

variable {client timer timed : Bool} {request request' : Option Request} {r : Request}
  {received : List Byte}

/-- What is left of a closing exchange. -/
theorem path_closing_iff :
    Path (Next service) (closing client timer request) acts (closing false false request') ↔
      request = request' ∧ acts ∈ releases client timer := by
  induction acts generalizing client timer with
  | nil => cases client <;> cases timer <;> simp [releases]
  | cons a acts ih =>
    rw [path_cons_iff]
    constructor
    · intro h
      obtain ⟨y, hstep, hrest⟩ := h
      cases hstep with
      | releaseClient timer _ =>
        obtain ⟨hrequest, hmem⟩ := ih.mp hrest
        refine ⟨hrequest, ?_⟩
        cases timer <;> simp_all [releases]
      | releaseTimer client _ =>
        obtain ⟨hrequest, hmem⟩ := ih.mp hrest
        refine ⟨hrequest, ?_⟩
        cases client <;> simp_all [releases]
    · intro h
      obtain ⟨rfl, hmem⟩ := h
      cases client with
      | false =>
        cases timer with
        | false => simp [releases] at hmem
        | true =>
          obtain ⟨rfl, rfl⟩ : a = .releaseTimer ∧ acts = [] := by simpa [releases] using hmem
          exact ⟨_, .releaseTimer false request, ih.mpr ⟨rfl, by simp [releases]⟩⟩
      | true =>
        cases timer with
        | false =>
          obtain ⟨rfl, rfl⟩ : a = .releaseClient ∧ acts = [] := by simpa [releases] using hmem
          exact ⟨_, .releaseClient false request, ih.mpr ⟨rfl, by simp [releases]⟩⟩
        | true =>
          obtain ⟨rfl, rfl⟩ | ⟨rfl, rfl⟩ : a = .releaseClient ∧ acts = [.releaseTimer] ∨
              a = .releaseTimer ∧ acts = [.releaseClient] := by simpa [releases] using hmem
          · exact ⟨_, .releaseClient true request, ih.mpr ⟨rfl, by simp [releases]⟩⟩
          · exact ⟨_, .releaseTimer true request, ih.mpr ⟨rfl, by simp [releases]⟩⟩

theorem path_answering_iff :
    Path (Next service) (answering r) acts (closing false false request) ↔
      request = some r ∧ ∃ rest ∈ releases true true, acts = .finish :: rest := by
  cases acts with
  | nil => simp
  | cons a acts =>
    rw [path_cons_iff]
    constructor
    · intro h
      obtain ⟨y, hstep, hrest⟩ := h
      cases hstep with
      | finish _ =>
        obtain ⟨hrequest, hmem⟩ := path_closing_iff.mp hrest
        exact ⟨hrequest.symm, acts, hmem, rfl⟩
    · intro h
      obtain ⟨rfl, rest, hmem, heq⟩ := h
      obtain ⟨rfl, rfl⟩ := List.cons.inj heq
      exact ⟨_, .finish r, path_closing_iff.mpr ⟨rfl, hmem⟩⟩

/-- Nothing ends an abandoned exchange. -/
theorem not_path_abandoned :
    ¬ Path (Next service) (abandoned timed request) acts (closing client timer request') := by
  induction acts generalizing timed with
  | nil => simp
  | cons a acts ih =>
    intro h
    obtain ⟨y, hstep, hrest⟩ := path_cons_iff.mp h
    cases hstep with
    | expireAbandoned _ => exact ih hrest

/-- From an answer that is sent at once to the end. -/
def Answered (acts : List (Action Byte Env)) : Prop :=
  ∃ rest ∈ releases true true, acts = .respond true :: .finish :: rest

theorem path_processed_false_iff :
    Path (Next service) (processed false r) acts (closing false false request) ↔
      request = some r ∧ Answered acts := by
  cases acts with
  | nil => simp [Answered]
  | cons a acts =>
    rw [path_cons_iff]
    constructor
    · intro h
      obtain ⟨y, hstep, hrest⟩ := h
      cases hstep with
      | respond _ _ =>
        obtain ⟨hrequest, rest, hmem, rfl⟩ := path_answering_iff.mp hrest
        exact ⟨hrequest, rest, hmem, rfl⟩
      | drop _ _ => exact absurd hrest not_path_abandoned
    · intro h
      obtain ⟨rfl, rest, hmem, heq⟩ := h
      obtain ⟨rfl, rfl⟩ := List.cons.inj heq
      exact ⟨_, .respond false r, path_answering_iff.mpr ⟨rfl, rest, hmem, rfl⟩⟩

theorem path_processed_true_iff :
    Path (Next service) (processed true r) acts (closing false false request) ↔
      request = some r ∧ (Answered acts ∨ ∃ acts', Answered acts' ∧ acts = .expire :: acts') := by
  cases acts with
  | nil => simp [Answered]
  | cons a acts =>
    rw [path_cons_iff]
    constructor
    · intro h
      obtain ⟨y, hstep, hrest⟩ := h
      cases hstep with
      | respond _ _ =>
        obtain ⟨hrequest, rest, hmem, rfl⟩ := path_answering_iff.mp hrest
        exact ⟨hrequest, .inl ⟨rest, hmem, rfl⟩⟩
      | drop _ _ => exact absurd hrest not_path_abandoned
      | expireProcessed _ =>
        obtain ⟨hrequest, hanswered⟩ := path_processed_false_iff.mp hrest
        exact ⟨hrequest, .inr ⟨acts, hanswered, rfl⟩⟩
    · intro h
      obtain ⟨rfl, ⟨rest, hmem, heq⟩ | ⟨acts', hanswered, heq⟩⟩ := h
      · obtain ⟨rfl, rfl⟩ := List.cons.inj heq
        exact ⟨_, .respond true r, path_answering_iff.mpr ⟨rfl, rest, hmem, rfl⟩⟩
      · obtain ⟨rfl, rfl⟩ := List.cons.inj heq
        exact ⟨_, .expireProcessed r, path_processed_false_iff.mpr ⟨rfl, hanswered⟩⟩

theorem path_submitted_false_iff :
    Path (Next service) (submitted false received) acts (closing false false request) ↔
      ∃ env acts' r, acts = .process env :: acts' ∧ Answered acts' ∧
        service.parse env received = some r ∧ request = some r := by
  cases acts with
  | nil => simp
  | cons a acts =>
    rw [path_cons_iff]
    constructor
    · intro h
      obtain ⟨y, hstep, hrest⟩ := h
      cases hstep with
      | process _ hparse =>
        obtain ⟨hrequest, hanswered⟩ := path_processed_false_iff.mp hrest
        exact ⟨_, acts, _, rfl, hanswered, hparse, hrequest⟩
    · intro h
      obtain ⟨env, acts', r, heq, hanswered, hparse, rfl⟩ := h
      obtain ⟨rfl, rfl⟩ := List.cons.inj heq
      exact ⟨_, .process false hparse, path_processed_false_iff.mpr ⟨rfl, hanswered⟩⟩

/-- The work, the answer and the end. -/
theorem path_submitted_true_iff :
    Path (Next service) (submitted true received) acts (closing false false request) ↔
      ∃ env r, service.parse env received = some r ∧ request = some r ∧
        ∃ work ∈ workings env, ∃ rest ∈ releases true true,
          acts = work ++ .respond true :: .finish :: rest := by
  constructor
  · intro h
    cases acts with
    | nil => simp at h
    | cons a acts =>
      obtain ⟨y, hstep, hrest⟩ := path_cons_iff.mp h
      cases hstep with
      | expireSubmitted _ =>
        obtain ⟨env, acts', r, rfl, ⟨rest, hmem, rfl⟩, hparse, hrequest⟩ :=
          path_submitted_false_iff.mp hrest
        exact ⟨env, r, hparse, hrequest, [.expire, .process env], by simp [workings], rest, hmem,
          rfl⟩
      | @process _ _ env r hparse =>
        obtain ⟨hrequest, ⟨rest, hmem, rfl⟩ | ⟨acts', ⟨rest, hmem, rfl⟩, rfl⟩⟩ :=
          path_processed_true_iff.mp hrest
        · exact ⟨env, r, hparse, hrequest, [.process env], by simp [workings], rest, hmem, rfl⟩
        · exact ⟨env, r, hparse, hrequest, [.process env, .expire], by simp [workings], rest, hmem,
            rfl⟩
  · intro h
    obtain ⟨env, r, hparse, rfl, work, hwork, rest, hmem, rfl⟩ := h
    have hanswered : Answered (.respond true :: .finish :: rest) := ⟨rest, hmem, rfl⟩
    rcases List.mem_cons.mp hwork with rfl | hwork
    · exact .cons (.process true hparse) (path_processed_true_iff.mpr ⟨rfl, .inl hanswered⟩)
    · rcases List.mem_cons.mp hwork with rfl | hwork
      · exact .cons (.expireSubmitted received)
          (path_submitted_false_iff.mpr ⟨env, _, r, rfl, hanswered, hparse, rfl⟩)
      · obtain rfl := List.mem_singleton.mp hwork
        exact .cons (.process true hparse)
          (path_processed_true_iff.mpr ⟨rfl, .inr ⟨_, hanswered, rfl⟩⟩)

/-- A read before a life. -/
theorem Life.receive {bytes : List Byte} {taken : Bool}
    (hready : ¬ service.Ready (received ++ bytes))
    (h : Life service (received ++ bytes) acts request) :
    Life service received (.receive bytes taken :: acts) request := by
  cases h with
  | @unanswered chunks last rest hchunks hlast hrest =>
    have hall : Incomplete service received ((bytes, taken) :: chunks) := ⟨hready, hchunks⟩
    exact unanswered hall hlast hrest
  | @answered chunks bytes' env request work rest hchunks hready' hparse hwork hrest =>
    have hsame : received ++ gathered ((bytes, taken) :: chunks) ++ bytes' =
        received ++ bytes ++ gathered chunks ++ bytes' := by simp [gathered]
    have hall : Incomplete service received ((bytes, taken) :: chunks) := ⟨hready, hchunks⟩
    exact answered hall (hsame ▸ hready') (hsame ▸ hparse) hwork hrest

/-- Reads that leave the bytes incomplete lead on. -/
theorem path_receives {chunks : List (List Byte × Bool)}
    (h : Incomplete service received chunks) :
    Path (Next service) (receiving true received) (receives chunks)
      (receiving true (received ++ gathered chunks)) := by
  induction chunks generalizing received with
  | nil => simp [receives, gathered]
  | cons c chunks ih =>
    have hrest := ih h.2
    rw [List.append_assoc] at hrest
    exact .cons (.gather h.1) hrest

/-- **Whole lives**: the sequences of actions that take an exchange from the
bytes it has received to the end are those of `Life`, with that request. -/
theorem path_iff_life :
    Path (Next service) (receiving true received) acts (closing false false request) ↔
      Life service received acts request := by
  constructor
  · intro h
    induction acts generalizing received with
    | nil => simp at h
    | cons a acts ih =>
      have hempty : Incomplete service received [] := trivial
      obtain ⟨y, hstep, hrest⟩ := path_cons_iff.mp h
      cases hstep with
      | gather hready => exact (ih hrest).receive hready
      | submit hready =>
        obtain ⟨env, r, hparse, rfl, work, hwork, rest, hmem, rfl⟩ :=
          path_submitted_true_iff.mp hrest
        have hnone : received ++ gathered [] = received := by simp [gathered]
        exact .answered hempty (hnone.symm ▸ hready) (hnone.symm ▸ hparse) hwork hmem
      | refuse _ => exact absurd hrest not_path_abandoned
      | hangUp _ =>
        obtain ⟨rfl, hmem⟩ := path_closing_iff.mp hrest
        exact .unanswered hempty (.inl rfl) hmem
      | timeOut _ _ =>
        obtain ⟨rfl, hmem⟩ := path_closing_iff.mp hrest
        exact .unanswered hempty (.inr rfl) hmem
  · intro h
    cases h with
    | @unanswered _ _ rest hchunks hlast hrest =>
      have hend : Path (Next service) (closing true true none) rest (closing false false none) :=
        path_closing_iff.mpr ⟨rfl, hrest⟩
      rcases hlast with rfl | rfl
      · exact (path_receives hchunks).append (.cons (.hangUp _) hend)
      · exact (path_receives hchunks).append (.cons (.timeOut true _) hend)
    | answered hchunks hready hparse hwork hrest =>
      exact (path_receives hchunks).append (.cons (.submit hready)
        (path_submitted_true_iff.mpr ⟨_, _, hparse, rfl, _, hwork, _, hrest, rfl⟩))

/-! ## What is still to come -/

/-- A bound on the actions to come, reads apart. -/
def rank : Exchange Byte Request → Nat
  | receiving _ _ => 6
  | submitted timed _ => 5 + timed.toNat
  | processed timed _ => 4 + timed.toNat
  | answering _ => 3
  | abandoned timed _ => timed.toNat
  | closing client timer _ => client.toNat + timer.toNat

theorem rank_le (x : Exchange Byte Request) : x.rank ≤ 6 := by
  cases x with
  | receiving reading received => exact Nat.le_refl 6
  | submitted timed received => cases timed <;> simp [rank]
  | processed timed request => cases timed <;> simp [rank]
  | answering request => simp [rank]
  | abandoned timed request => cases timed <;> simp [rank]
  | closing client timer request => cases client <;> cases timer <;> simp [rank]

def IsAbandoned : Exchange Byte Request → Prop
  | abandoned _ _ => True
  | _ => False

/-- Over, with nothing held. -/
def IsOver (x : Exchange Byte Request) : Prop := ∃ request, x = closing false false request

end Exchange

/-- Anything but a read. -/
def Action.internal : Action Byte Env → Bool
  | .receive _ _ => false
  | _ => true

namespace Exchange

variable {service} {x y : Exchange Byte Request} {a : Action Byte Env}

/-- Each action uses up rank, a read none. -/
theorem Next.rank_le (h : Next service x a y) :
    y.rank ≤ x.rank ∧ (a.internal = true → y.rank < x.rank) := by
  cases h with
  | gather _ => exact ⟨Nat.le_refl 6, nofun⟩
  | submit _ => exact ⟨Nat.le_refl 6, nofun⟩
  | refuse _ => exact ⟨by simp [rank], nofun⟩
  | hangUp _ => simp [rank]
  | timeOut _ _ => simp [rank]
  | expireSubmitted _ => simp [rank]
  | process timed _ => cases timed <;> simp [rank]
  | expireProcessed _ => simp [rank]
  | respond timed _ => cases timed <;> simp [rank]
  | drop timed _ => cases timed <;> simp [rank]
  | finish _ => simp [rank]
  | expireAbandoned _ => simp [rank]
  | releaseClient timer _ => cases timer <;> simp [rank]
  | releaseTimer client _ => cases client <;> simp [rank]

variable (service)

/-- An action that is taken where it is offered. -/
def NextServed (x : Exchange Byte Request) (a : Action Byte Env) (y : Exchange Byte Request) :
    Prop :=
  Next service x a y ∧ ¬ y.IsAbandoned

/-- Submitted with bytes that no worker comes back from. -/
def Stuck : Exchange Byte Request → Prop
  | submitted _ received => ∀ env, service.parse env received = none
  | _ => False

variable {service}

/-- An exchange that is stuck stays so, whatever it can still take. -/
theorem Stuck.next (hstuck : x.Stuck service) (h : Next service x a y) : y.Stuck service := by
  cases h with
  | expireSubmitted _ => exact hstuck
  | @process _ _ env _ hparse => exact nomatch (hstuck env).symm.trans hparse
  | _ => exact hstuck.elim

/-- Without a read no exchange gets stuck. -/
theorem Next.not_stuck (h : Next service x a y) (hinternal : a.internal = true)
    (hx : ¬ x.Stuck service) : ¬ y.Stuck service := by
  cases h with
  | expireSubmitted _ => exact hx
  | submit _ => exact nomatch hinternal
  | gather _ => exact id
  | _ => exact id

/-- An exchange that is neither abandoned nor stuck nor over can go on
without a read. -/
theorem exists_nextServed (habandoned : ¬ x.IsAbandoned) (hstuck : ¬ x.Stuck service)
    (hover : ¬ x.IsOver) :
    ∃ (a : Action Byte Env) (y : Exchange Byte Request), a.internal = true ∧
      NextServed service x a y := by
  cases x with
  | receiving reading received => exact ⟨.expire, _, rfl, .timeOut reading received, id⟩
  | submitted timed received =>
    simp only [Stuck, not_forall] at hstuck
    obtain ⟨env, hsome⟩ := hstuck
    obtain ⟨request, hparse⟩ := Option.ne_none_iff_exists'.mp hsome
    exact ⟨.process env, _, rfl, .process timed hparse, id⟩
  | processed timed request => exact ⟨.respond true, _, rfl, .respond timed request, id⟩
  | answering request => exact ⟨.finish, _, rfl, .finish request, id⟩
  | abandoned timed request => exact absurd trivial habandoned
  | closing client timer request =>
    cases client with
    | true => exact ⟨.releaseClient, _, rfl, .releaseClient timer request, id⟩
    | false =>
      cases timer with
      | true => exact ⟨.releaseTimer, _, rfl, .releaseTimer false request, id⟩
      | false => exact absurd ⟨request, rfl⟩ hover

end Exchange

/-! ## What an exchange holds -/

/-- The bytes that an action brings. -/
def Action.bytes : Action Byte Env → List Byte
  | .receive bytes _ => bytes
  | _ => []

/-- The bytes of all the reads. -/
def brought (acts : List (Action Byte Env)) : List Byte := acts.flatMap Action.bytes

theorem brought_concat (acts : List (Action Byte Env)) (a : Action Byte Env) :
    brought (acts ++ [a]) = brought acts ++ a.bytes := by
  simp [brought]

/-- What a worker that ran made of the bytes. -/
def MadeOf (acts : List (Action Byte Env)) (request : Request) : Prop :=
  service.Ready (brought acts) ∧
    ∃ env, .process env ∈ acts ∧ service.parse env (brought acts) = some request

variable {service} {acts es : List (Action Byte Env)} {request : Request}

theorem MadeOf.concat (h : MadeOf service acts request) {a : Action Byte Env} (ha : a.bytes = []) :
    MadeOf service (acts ++ [a]) request := by
  obtain ⟨hready, env, hmem, hrequest⟩ := h
  have hsame : brought (acts ++ [a]) = brought acts := by
    rw [brought_concat, ha, List.append_nil]
  rw [MadeOf, hsame]
  exact ⟨hready, env, List.mem_append_left _ hmem, hrequest⟩

namespace Exchange

variable (service)

/-- The exchange holds what its own actions brought, or what was made of
that. -/
def Holds (acts : List (Action Byte Env)) : Exchange Byte Request → Prop
  | receiving _ received => received = brought acts
  | submitted _ received => received = brought acts ∧ service.Ready received
  | processed _ request => MadeOf service acts request
  | answering request => MadeOf service acts request
  | abandoned _ request => ∀ r ∈ request, MadeOf service acts r
  | closing _ _ request => ∀ r ∈ request, MadeOf service acts r

variable {service}

theorem Holds.step {x y : Exchange Byte Request} {a : Action Byte Env}
    (h : x.Holds service acts) (hnext : Next service x a y) : y.Holds service (acts ++ [a]) := by
  cases hnext with
  | gather _ =>
    rw [Holds, brought_concat, ← h]
    rfl
  | submit hready =>
    rw [Holds, brought_concat, ← h]
    exact ⟨rfl, hready⟩
  | @process timed received env request hparse =>
    obtain ⟨rfl, hready⟩ := h
    have hsame : brought (acts ++ [.process env]) = brought acts := by
      rw [brought_concat]
      exact List.append_nil _
    rw [Holds, MadeOf, hsame]
    exact ⟨hready, env, by simp, hparse⟩
  | expireSubmitted received =>
    obtain ⟨rfl, hready⟩ := h
    rw [Holds, brought_concat]
    exact ⟨(List.append_nil _).symm, hready⟩
  | refuse _ | hangUp _ | timeOut _ _ => exact fun r hr => nomatch hr
  | expireProcessed _ | respond _ _ => exact h.concat rfl
  | drop _ _ | finish _ =>
    intro r hr
    obtain rfl := Option.some.inj hr
    exact MadeOf.concat h rfl
  | expireAbandoned _ | releaseClient _ _ | releaseTimer _ _ =>
    exact fun r hr => (h r hr).concat rfl

/-- By induction on the actions. -/
theorem Holds.path {x y : Exchange Byte Request} (h : x.Holds service acts)
    (hpath : Path (Next service) x es y) : y.Holds service (acts ++ es) := by
  induction hpath generalizing acts with
  | nil => rwa [List.append_nil]
  | cons hnext _ ih =>
    have hrest := ih (h.step hnext)
    rwa [List.append_assoc, List.singleton_append] at hrest

end Exchange

end

end Runs
