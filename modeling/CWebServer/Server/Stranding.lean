/-
CWebServer.Server.Stranding — whether every open connection can still be
closed.

`read_cb` stops reading before it queues the work, and `client_timeout_cb`
does nothing once the work is started, so from then on only the work and
the write can close the connection. When libuv refuses either, the source
does not notice, and no callback is left (`parked_request`). As long as no
such call fails an open connection always has something armed
(`armed_of_reaches`), and the first that fails is what ends this
(`armed_next_iff`); a failing `uv_read_start` does no harm, since the timer
runs.

No `sorry`, no `axiom`, no `native_decide`.
-/
import CWebServer.Server.Lifecycle

namespace CWebServer.Server

open Libc Http Runs

variable {abi : Abi}

/-- Something libuv will call can lead to `close_data`: a timeout that
finds no work started, a read, the work, or the end of the write. -/
def Connection.Armed (c : Connection) : Prop :=
  (c.timer = .active ∧ ∃ data ∈ c.data, data.workStarted = false) ∨
    c.client = .active ∨ c.work = .queued ∨ c.work = .ran ∨ c.write = .inFlight

instance (c : Connection) : Decidable c.Armed := inferInstanceAs (Decidable (_ ∨ _))

theorem Waiting.armed {c : Connection} (h : Waiting c) : c.Armed := by
  obtain ⟨data, hholds, hstarted⟩ := h.data
  exact .inl ⟨h.timer, data, hholds.eq, hstarted⟩

theorem Working.armed {c : Connection} (h : Working c) : c.Armed := by
  rcases h.work with hwork | hwork
  · exact .inr (.inr (.inl hwork))
  · exact .inr (.inr (.inr (.inl hwork)))

theorem Writing.armed {c : Connection} (h : Writing c) : c.Armed :=
  .inr (.inr (.inr (.inr h.write)))

/-- Nothing is armed in the phase that a failing submission leads to. -/
theorem Stranded.not_armed {c : Connection} (h : Stranded c) : ¬ c.Armed := by
  obtain ⟨data, hholds, hstarted⟩ := h.data
  intro h
  rcases h with ⟨-, data', hdata', hfresh⟩ | hclient | hwork | hwork | hwrite
  · obtain rfl := Option.some.inj (hholds.eq.symm.trans hdata')
    exact nomatch hstarted.symm.trans hfresh
  · exact nomatch h.client.symm.trans hclient
  · rcases h.work with hidle | hidle <;> exact nomatch hidle.symm.trans hwork
  · rcases h.work with hidle | hidle <;> exact nomatch hidle.symm.trans hwork
  · exact nomatch h.write.symm.trans hwrite

/-- While the answer is in flight nothing is submitted. -/
theorem Writing.submissionSucceeds {c : Connection} (h : Writing c) {callback : Callback abi}
    (hp : c.Permits callback) : c.SubmissionSucceeds callback := by
  cases callback with
  | readCb nread base rc => exact nomatch h.client.symm.trans hp.1
  | afterProcessCommand rc => exact nomatch h.work.symm.trans hp
  | clientTimeoutCb => trivial
  | processCommand locals => trivial
  | onWriteEnd => trivial
  | onCloseFreeClient => trivial
  | onCloseFreeTimer => trivial

theorem Callback.ClosesHandle.submissionSucceeds {c : Connection} {callback : Callback abi}
    (h : callback.ClosesHandle) : c.SubmissionSucceeds callback := by
  cases callback with
  | onCloseFreeClient => trivial
  | onCloseFreeTimer => trivial
  | readCb nread base rc => exact h.elim
  | clientTimeoutCb => exact h.elim
  | processCommand locals => exact h.elim
  | afterProcessCommand rc => exact h.elim
  | onWriteEnd => exact h.elim

/-- The invariant of runs in which every submission succeeds. -/
def Sound (c : Connection) : Prop := Waiting c ∨ Working c ∨ Writing c ∨ Closed c

/-- A step strands a connection exactly when its submission fails. -/
theorem Sound.step {c : Connection} (h : Sound c) {callback : Callback abi}
    (hp : c.Permits callback) (hk : callback.KnownRead)
    (hobtained : c.RequestObtained callback) :
    ∃ c', c.step callback = .ok c' ∧
      (c.SubmissionSucceeds callback ∧ Sound c' ∨
        ¬ c.SubmissionSucceeds callback ∧ Stranded c') := by
  rcases h with h | h | h | h
  · obtain ⟨c', heq, ⟨hs, h' | h' | h'⟩ | hfail⟩ := h.step hp hk
    · exact ⟨c', heq, .inl ⟨hs, .inl h'⟩⟩
    · exact ⟨c', heq, .inl ⟨hs, .inr (.inl h')⟩⟩
    · exact ⟨c', heq, .inl ⟨hs, .inr (.inr (.inr h'))⟩⟩
    · exact ⟨c', heq, .inr hfail⟩
  · obtain ⟨c', heq, ⟨hs, h' | h'⟩ | hfail⟩ := h.step hp hobtained
    · exact ⟨c', heq, .inl ⟨hs, .inr (.inl h')⟩⟩
    · exact ⟨c', heq, .inl ⟨hs, .inr (.inr (.inl h'))⟩⟩
    · exact ⟨c', heq, .inr hfail⟩
  · obtain ⟨c', heq, h'⟩ := h.step hp
    exact ⟨c', heq, .inl ⟨h.submissionSucceeds hp, .inr (.inr (.inr h'))⟩⟩
  · obtain ⟨hcloses, c', heq, h'⟩ := h.step hp
    exact ⟨c', heq, .inl ⟨hcloses.submissionSucceeds, .inr (.inr (.inr h'))⟩⟩

/-- The `uv_queue_work` or `uv_write` call of the event, if it makes one,
returns 0. -/
def SubmissionSucceeds (connections : List Connection) : Event abi → Prop
  | .connectionCb _ _ _ => True
  | .callback i cb => ∀ c ∈ connections[i]?, c.SubmissionSucceeds cb

theorem Sound.armed {c : Connection} (h : Sound c) (hopen : c.closeDataCalls = 0) : c.Armed := by
  rcases h with h | h | h | h
  · exact h.armed
  · exact h.armed
  · exact h.armed
  · exact nomatch hopen.symm.trans h.counts.1

theorem sound_of_reaches {connections : List Connection}
    (h : Reaches (server abi) (fun s e => e.KnownRead ∧ SubmissionSucceeds s e) connections) :
    ∀ c ∈ connections, Sound c := by
  refine forall_mem_of_reaches (fun status acceptRc readStartRc o ho c hc => ?_)
    (fun s i callback c c' hc hallowed hsound hp hstep => ?_) h
  · rcases connectionCb_phase ho c hc with hwaiting | hclosed
    · exact .inl hwaiting
    · exact .inr (.inr (.inr hclosed))
  · obtain ⟨d, hd, ⟨-, hsound'⟩ | ⟨hfail, -⟩⟩ := hsound.step hp hallowed.1
      (requestObtained_of_step hstep)
    · exact Except.ok.inj (hstep.symm.trans hd) ▸ hsound'
    · exact absurd (hallowed.2 c hc) hfail

/-- **No stranded connection**: in every run in which no `uv_queue_work`
and no `uv_write` fails, every connection that `close_data` was not called
for has something armed that can lead to it. -/
theorem armed_of_reaches (abi : Abi) {connections : List Connection}
    (h : Reaches (server abi) (fun s e => e.KnownRead ∧ SubmissionSucceeds s e) connections) :
    ∀ c ∈ connections, c.closeDataCalls = 0 → c.Armed :=
  fun c hc => (sound_of_reaches h c hc).armed

theorem submissionSucceeds_answering {s : List Connection} {e : Event abi}
    (he : e ∈ answering abi) : e.KnownRead ∧ SubmissionSucceeds s e := by
  simp only [answering, List.mem_cons, List.not_mem_nil, or_false] at he
  rcases he with rfl | rfl | rfl | rfl
  · exact ⟨trivial, trivial⟩
  · exact ⟨.inl (by decide), fun _ _ _ _ _ _ _ => rfl⟩
  · exact ⟨trivial, fun _ _ => trivial⟩
  · exact ⟨trivial, fun _ _ => rfl⟩

/-- A request whose work and whose answer libuv took: the write is armed. -/
theorem armed_of_reaches_answering :
    let abi : Abi := ⟨4, by decide⟩
    ∃ request, Path ((server abi).Next fun s e => e.KnownRead ∧ SubmissionSucceeds s e) []
        (answering abi) [answeringConnection request] ∧
      ∀ c ∈ [answeringConnection request], c.closeDataCalls = 0 → c.Armed := by
  intro abi
  obtain ⟨request, hpath⟩ := exists_path_answering abi (by decide +kernel)
    fun _ _ he => submissionSucceeds_answering he
  exact ⟨request, hpath, armed_of_reaches abi (reaches_iff_path.mpr ⟨_, hpath⟩)⟩

/-- The first failing submission of a run is what leaves an open connection
with nothing armed. -/
theorem armed_next_iff {connections next : List Connection} {e : Event abi}
    (h : Reaches (server abi) (fun s e => e.KnownRead ∧ SubmissionSucceeds s e) connections)
    (henabled : (server abi).Enabled connections e) (hknown : e.KnownRead)
    (hstep : (server abi).step connections e = .ok next) :
    (∀ c ∈ next, c.closeDataCalls = 0 → c.Armed) ↔ SubmissionSucceeds connections e := by
  constructor
  · intro harmed
    cases e with
    | connectionCb status acceptRc readStartRc => trivial
    | callback i callback =>
      obtain ⟨c, hc, hp⟩ := henabled
      simp only [server, hc] at hstep
      obtain ⟨c', hc', hnext⟩ := bind_ok_iff.mp hstep
      obtain rfl := Except.ok.inj hnext
      have hsound := sound_of_reaches h c (List.mem_of_getElem? hc)
      obtain ⟨d, hd, ⟨hsucceeds, -⟩ | ⟨-, hstranded⟩⟩ := hsound.step hp hknown
        (requestObtained_of_step hc')
      · intro c₁ hc₁
        obtain rfl := Option.some.inj (hc.symm.trans hc₁)
        exact hsucceeds
      · obtain rfl := Except.ok.inj (hc'.symm.trans hd)
        have hmem : c' ∈ connections.set i c' :=
          List.mem_set (List.getElem?_eq_some_iff.mp hc).1 c'
        exact absurd (harmed c' hmem hstranded.counts.1) hstranded.not_armed
  · intro hsucceeds c hc
    exact (sound_of_reaches (.step h henabled ⟨hknown, hsucceeds⟩ hstep) c hc).armed

/-- A whole request arrives and `uv_queue_work` fails: the connection is
neither closed nor armed. -/
theorem parked_request :
    let abi : Abi := ⟨4, by decide⟩
    ∃ connections : List Connection, Reaches (server abi) (fun _ e => e.KnownRead) connections ∧
      ∃ c ∈ connections, c.closeDataCalls = 0 ∧ ¬ c.Armed := by
  intro abi
  let text := "GET / HTTP/1.1\r\n\r\n".toList
  have hconnects : (server abi).Enabled (server abi).init (.connectionCb 0 0 0) := trivial
  have haccepted : Reaches (server abi) (fun _ e => e.KnownRead) [acceptedConnection 0] :=
    .step .init hconnects trivial rfl
  have hpermits : (server abi).Enabled [acceptedConnection 0]
      (.callback 0 (.readCb text.length text (-4057))) := ⟨_, rfl, rfl, by decide⟩
  refine ⟨_, .step haccepted hpermits (.inl (by decide)) rfl, _, List.mem_singleton_self _, rfl, ?_⟩
  refine Stranded.not_armed ?_
  exact
    { data := ⟨_, ⟨rfl, rfl, rfl⟩, rfl⟩
      client := rfl
      timer := .inr rfl
      work := .inl rfl
      write := rfl
      counts := ⟨rfl, rfl, Nat.zero_le 1⟩ }

end CWebServer.Server
