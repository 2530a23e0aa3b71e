/-
CWebServer.Server.Memory — the server's memory in every run.

Each callback with its allocations does what the callback without them
does, and the connection owns afterwards what its pointers lead to
(`step_refines`). The one condition is that the callback overwrites no
pointer to a block: `Tidy` says when the pointers are still NULL, and it
holds in every state. So the ledger holds what the connections own and
nothing else (`heap_refines`): no block is freed twice, and the read
buffers and the copies of `parseHttp` are given back at once.

Everything is given back with the last close callbacks, unless libuv took
no work item or no write; from then on the connection keeps what it has
(`ledger_drains_iff`).

No `sorry`, no `axiom`, no `native_decide`.
-/
import CWebServer.Server.Allocation
import CWebServer.Server.Draining

namespace CWebServer.Server.Heap

open Libc Http Runs

variable {abi : Abi}

/-! ## What is owned -/

def CString.blocks (string : CString) : Multiset Block := {string.block}

def HandleBlock.blocks (h : HandleBlock) : Multiset Block :=
  match h.state with
  | .absent | .freed => 0
  | .idle | .active | .closing => {h.block}

/-- The requests, the strings and the data itself, as `close_data` frees
them. -/
def ClientRequestData.blocks (data : ClientRequestData) : Multiset Block :=
  nullable singleton data.workReq + (nullable singleton data.writeReq +
    (nullable CString.blocks data.text + (nullable CString.blocks data.response + {data.block})))

def Connection.blocks (c : Connection) : Multiset Block :=
  nullable ClientRequestData.blocks c.data + (c.client.blocks + c.timer.blocks)

theorem HandleBlock.blocks_of_live {h : HandleBlock} (hlive : h.state.Live) :
    h.blocks = {h.block} := by
  rw [HandleBlock.blocks]
  rcases hlive with hidle | hactive
  · rw [hidle]
  · rw [hactive]

theorem stop_blocks {h : HandleBlock} {state : Handle} (hstop : h.state.stop = .ok state) :
    ({ h with state } : HandleBlock).blocks = h.blocks := by
  unfold Handle.stop at hstop
  split_ifs at hstop with hlive
  obtain rfl := Except.ok.inj hstop
  rw [h.blocks_of_live hlive]
  rfl

theorem closeHandle_blocks {pointer : Ptr} {h : HandleBlock} {state : Handle}
    (hclose : Server.Connection.closeHandle pointer h.state = .ok state) :
    ({ h with state } : HandleBlock).blocks = h.blocks := by
  cases pointer with
  | null =>
    obtain rfl := Except.ok.inj hclose
    rfl
  | own =>
    simp only [Server.Connection.closeHandle, Handle.close] at hclose
    split_ifs at hclose with hlive
    obtain rfl := Except.ok.inj hclose
    rw [h.blocks_of_live hlive]
    rfl

/-! ## The functions on their own -/

theorem freePtr_refines (p : Option Block) :
    Refines (nullable singleton p) (freePtr p) (.ok ()) Freed := by
  cases p with
  | none => exact .pure rfl
  | some block => exact .free block

theorem freeString_refines (string : Option CString) :
    Refines (nullable CString.blocks string) (freeString string) (.ok ()) Freed := by
  cases string with
  | none => exact .pure rfl
  | some string => exact .free string.block

/-- The data without its blocks is the data of the connection without. -/
theorem deref_erase (c : Connection) : c.erase.deref = ClientRequestData.erase <$> c.deref := by
  unfold Server.Connection.deref Connection.deref Connection.erase
  cases c.data <;> rfl

theorem data_of_deref {c : Connection} {data : ClientRequestData} (h : c.deref = .ok data) :
    c.data = some data := by
  unfold Connection.deref at h
  cases hdata : c.data with
  | none => rw [hdata] at h; cases h
  | some d =>
    rw [hdata] at h
    rw [Except.ok.inj h]

/-- Stopping the timer allocates nothing and leaves the data alone. -/
theorem uvTimerStop_refines (c : Connection) (timer : Ptr) :
    Refines c.blocks (c.uvTimerStop timer) (c.erase.uvTimerStop timer) fun c' p own =>
      Stored Connection.erase Connection.blocks c' p own ∧ c'.data = c.data := by
  cases timer with
  | null => exact .throw _
  | own =>
    refine .lift_of _ fun state hstate => .pure ⟨⟨rfl, ?_⟩, rfl⟩
    rw [Connection.blocks, Connection.blocks, stop_blocks hstate]

theorem closeData_refines {c : Connection} {data : ClientRequestData} (hdata : c.data = some data) :
    Refines c.blocks (c.closeData data) (c.erase.closeData data.erase)
      (Stored Connection.erase Connection.blocks) := by
  have hblocks : c.blocks = nullable singleton data.workReq + (nullable singleton data.writeReq +
      (nullable CString.blocks data.text + (nullable CString.blocks data.response +
        ({data.block} + (c.client.blocks + c.timer.blocks))))) := by
    simp only [Connection.blocks, hdata, nullable, ClientRequestData.blocks, add_assoc]
  rw [hblocks]
  refine .lift_of _ fun client hclient => ?_
  by_cases hheld : c.work = .queued ∨ c.work = .ran ∨ c.write = .inFlight
  · have hheld' : c.erase.work = .queued ∨ c.erase.work = .ran ∨ c.erase.write = .inFlight := hheld
    rw [if_pos hheld, if_pos hheld']
    exact .throw _
  · have hheld' : ¬ (c.erase.work = .queued ∨ c.erase.work = .ran ∨ c.erase.write = .inFlight) :=
      hheld
    rw [if_neg hheld, if_neg hheld']
    refine .step_freed rfl (freePtr_refines _) ?_
    refine .step_freed rfl (freePtr_refines _) ?_
    refine .lift_of _ fun timer htimer => ?_
    refine .step_freed rfl (freeString_refines _) ?_
    refine .step_freed rfl (freeString_refines _) ?_
    refine .step_freed rfl (.free _) ?_
    refine .pure ⟨rfl, ?_⟩
    rw [Connection.blocks, closeHandle_blocks hclient, closeHandle_blocks htimer]
    exact (zero_add _).symm

/-- A read chunk replaces the text. -/
theorem readChunk_refines (data : ClientRequestData) (nread : Int) (base : List Char) :
    Refines data.blocks (Connection.readChunk data nread base)
      (Server.Connection.readChunk data.erase nread base) fun data' d own =>
        Stored ClientRequestData.erase ClientRequestData.blocks data' d own ∧
          data'.workReq = data.workReq ∧ data'.workStarted = data.workStarted := by
  unfold Connection.readChunk Server.Connection.readChunk
  cases htext : data.text with
  | none =>
    refine .malloc fun block => ?_
    by_cases hfits : 0 ≤ nread ∧ nread.toNat ≤ base.length
    · rw [if_pos hfits, if_pos hfits]
      refine .pure ⟨⟨?_, ?_⟩, rfl, rfl⟩
      · simp [ClientRequestData.erase, Server.Connection.appendChunk, htext]
      · simp only [ClientRequestData.blocks, htext, nullable, CString.blocks]
        abel
    · rw [if_neg hfits, if_neg hfits]
      exact .throw _
  | some text =>
    have hblocks : data.blocks = {text.block} + (nullable singleton data.workReq +
        (nullable singleton data.writeReq + (nullable CString.blocks data.response +
          {data.block}))) := by
      simp only [ClientRequestData.blocks, htext, nullable, CString.blocks]
      abel
    rw [hblocks]
    refine .realloc text.block fun block => ?_
    by_cases hfits : 0 ≤ nread ∧ nread.toNat ≤ base.length
    · rw [if_pos hfits, if_pos hfits]
      refine .pure ⟨⟨?_, ?_⟩, rfl, rfl⟩
      · simp [ClientRequestData.erase, Server.Connection.appendChunk, htext]
      · simp only [ClientRequestData.blocks, nullable, CString.blocks]
        abel
    · rw [if_neg hfits, if_neg hfits]
      exact .throw _

/-- The copy is given back. -/
theorem parseHttp_refines (locals : Locals abi) (rawHttp : List Char) :
    Refines 0 (Connection.parseHttp locals rawHttp) (Http.parseHttp locals rawHttp)
      fun request request' own => request = request' ∧ own = 0 :=
  .malloc fun copy => .lift_of _ fun _ _ => .step_freed rfl (.free copy)
    (.lift_of _ fun _ _ => .pure ⟨rfl, rfl⟩)

theorem obtainRequest_refines (locals : Locals abi) (text : List Char) :
    Refines 0 (Connection.obtainRequest locals text) (Server.Connection.obtainRequest locals text)
      fun request request' own => request = request' ∧ own = 0 := by
  refine .bind (zero_add 0).symm (parseHttp_refines locals text) fun request request' own h => ?_
  obtain ⟨rfl, rfl⟩ := h
  exact .lift_of _ fun _ _ => .pure ⟨rfl, rfl⟩

/-! ## The callbacks -/

/-- The pointers that a callback sets are still NULL before it: the work
request until the work is started, the answer until it is made, the write
request until it is sent. -/
structure Tidy (c : Server.Connection) : Prop where
  workReq : ∀ data ∈ c.data, data.workStarted = false → data.workReq = .null
  response : ∀ data ∈ c.data, c.work = .none ∨ c.work = .queued → data.response = none
  writeReq : ∀ data ∈ c.data, c.work ≠ .finished → data.writeReq = .null

theorem ptr_eq_null {p : Option Block} (h : ptr p = .null) : p = none := by
  cases p with
  | none => rfl
  | some block => cases h

theorem mem_erase {c : Connection} {data : ClientRequestData} (h : c.data = some data) :
    data.erase ∈ c.erase.data := by
  simp [Connection.erase, h]

theorem workStarted_of_ready {data : Server.ClientRequestData}
    (h : Server.Connection.requestReady data = true) : data.workStarted = false := by
  simp only [Server.Connection.requestReady, Bool.and_eq_true, Bool.not_eq_true'] at h
  exact h.1.1

/-- What the callbacks leave behind. -/
abbrev Owned (c : Connection) (d : Server.Connection) (own : Multiset Block) : Prop :=
  Stored Connection.erase Connection.blocks c d own

theorem readCb_refines {c : Connection} (htidy : Tidy c.erase) (nread : Int) (base : List Char)
    (rc : Int) :
    Refines c.blocks (c.readCb nread base rc) (c.erase.readCb nread base rc) Owned := by
  refine .malloc fun buf => ?_
  refine .lift_map ClientRequestData.erase (deref_erase c) fun data hderef => ?_
  have hdata := data_of_deref hderef
  by_cases hend : nread = -1 ∨ nread = Server.Connection.uvEof
  · rw [if_pos hend, if_pos hend]
    refine .step_freed rfl (.free buf) ?_
    refine .bind (add_zero _).symm (uvTimerStop_refines c data.timer) fun c' d own h => ?_
    obtain ⟨⟨rfl, rfl⟩, hsame⟩ := h
    rw [add_zero]
    exact closeData_refines (hsame.trans hdata)
  · rw [if_neg hend, if_neg hend]
    have hblocks : {buf} + c.blocks =
        data.blocks + ({buf} + (c.client.blocks + c.timer.blocks)) := by
      simp only [Connection.blocks, hdata, nullable]
      abel
    refine .bind hblocks (readChunk_refines data nread base) fun data' d own h => ?_
    obtain ⟨⟨rfl, rfl⟩, hworkReq, hstarted⟩ := h
    have hbuf : data'.blocks + ({buf} + (c.client.blocks + c.timer.blocks)) =
        {buf} + (data'.blocks + (c.client.blocks + c.timer.blocks)) := by abel
    refine .step_freed hbuf (.free buf) ?_
    by_cases hready : Server.Connection.requestReady data'.erase = true
    · rw [if_pos hready, if_pos hready]
      refine .malloc fun workReq => .lift_of _ fun state hstop => .pure ⟨rfl, ?_⟩
      have hfresh : data.erase.workStarted = false :=
        hstarted.symm.trans (workStarted_of_ready hready)
      have hnone : data'.workReq = none :=
        hworkReq.trans (ptr_eq_null (htidy.workReq data.erase (mem_erase hdata) hfresh))
      simp only [Connection.uvQueueWork, Connection.blocks, nullable, ClientRequestData.blocks,
        stop_blocks hstop, hnone]
      abel
    · rw [if_neg hready, if_neg hready]
      exact .pure ⟨rfl, rfl⟩

theorem clientTimeoutCb_refines (c : Connection) :
    Refines c.blocks c.clientTimeoutCb c.erase.clientTimeoutCb Owned := by
  refine .lift_map ClientRequestData.erase (deref_erase c) fun data hderef => ?_
  refine .bind (add_zero _).symm (uvTimerStop_refines c .own) fun c' d own h => ?_
  obtain ⟨⟨rfl, rfl⟩, hsame⟩ := h
  rw [add_zero]
  by_cases hstarted : data.workStarted = true
  · have hstarted' : data.erase.workStarted = true := hstarted
    rw [if_pos hstarted, if_pos hstarted']
    exact .pure ⟨rfl, rfl⟩
  · have hstarted' : ¬ data.erase.workStarted = true := hstarted
    rw [if_neg hstarted, if_neg hstarted']
    exact closeData_refines (hsame.trans (data_of_deref hderef))

theorem processCommand_refines {c : Connection} (htidy : Tidy c.erase) (hqueued : c.work = .queued)
    (locals : Locals abi) :
    Refines c.blocks (c.processCommand locals) (c.erase.processCommand locals) Owned := by
  refine .lift_map ClientRequestData.erase (deref_erase c) fun data hderef => ?_
  have hdata := data_of_deref hderef
  cases htext : data.text with
  | none =>
    simp only [ClientRequestData.erase, htext, Option.map_none]
    exact .throw _
  | some text =>
    simp only [ClientRequestData.erase, htext, Option.map_some]
    refine .bind (zero_add _).symm (obtainRequest_refines locals text.chars)
      fun request request' own h => ?_
    obtain ⟨rfl, rfl⟩ := h
    rw [zero_add]
    refine .malloc fun block => .pure ⟨?_, ?_⟩
    · simp [Connection.erase, ClientRequestData.erase]
    · have hnone : data.response = none := by
        have hnull := htidy.response data.erase (mem_erase hdata) (.inr hqueued)
        simpa [ClientRequestData.erase] using hnull
      simp only [Connection.blocks, hdata, nullable, ClientRequestData.blocks, htext, hnone,
        CString.blocks]
      abel

theorem uvWrite_refines (c : Connection) (rc : Int) :
    Refines c.blocks (c.uvWrite rc) (c.erase.uvWrite rc) Owned := by
  unfold Connection.uvWrite Server.Connection.uvWrite
  by_cases hlive : c.client.state.Live
  · have hlive' : c.erase.client.Live := hlive
    rw [if_pos hlive, if_pos hlive']
    exact .pure ⟨rfl, rfl⟩
  · have hlive' : ¬ c.erase.client.Live := hlive
    rw [if_neg hlive, if_neg hlive']
    exact .throw _

theorem afterProcessCommand_refines {c : Connection} (htidy : Tidy c.erase) (hran : c.work = .ran)
    (rc : Int) :
    Refines c.blocks (c.afterProcessCommand rc) (c.erase.afterProcessCommand rc) Owned := by
  refine .lift_map ClientRequestData.erase (deref_erase c) fun data hderef => ?_
  have hdata := data_of_deref hderef
  cases hresponse : data.response with
  | none =>
    simp only [ClientRequestData.erase, hresponse, Option.map_none]
    exact .throw _
  | some response =>
    have hnone : data.writeReq = none :=
      ptr_eq_null (htidy.writeReq data.erase (mem_erase hdata) (by simp [Connection.erase, hran]))
    simp only [ClientRequestData.erase, hresponse, Option.map_some]
    refine .malloc fun writeReq => ?_
    let c' : Connection :=
      { c with
        data := some { data with response := some response, writeReq := some writeReq }
        work := .finished }
    have hblocks : {writeReq} + c.blocks = c'.blocks := by
      simp only [c', Connection.blocks, hdata, nullable, ClientRequestData.blocks, hresponse, hnone,
        CString.blocks]
      abel
    rw [hblocks]
    refine .bind (add_zero _).symm (uvTimerStop_refines c' data.timer) fun d p own h => ?_
    obtain ⟨⟨rfl, rfl⟩, -⟩ := h
    rw [add_zero]
    exact uvWrite_refines d rc

theorem onWriteEnd_refines (c : Connection) :
    Refines c.blocks c.onWriteEnd c.erase.onWriteEnd Owned := by
  refine .lift_map ClientRequestData.erase (deref_erase c) fun data hderef => ?_
  have hdata : ({ c with write := .finished } : Connection).data = some data :=
    data_of_deref hderef
  exact closeData_refines hdata

/-- A closed handle still has its block. -/
theorem blocks_of_closing {h : HandleBlock} (hclosing : h.state = .closing) :
    h.blocks = {h.block} := by
  rw [HandleBlock.blocks, hclosing]

theorem onCloseFreeClient_refines {c : Connection} (hclosing : c.client.state = .closing) :
    Refines c.blocks c.onCloseFreeClient (.ok c.erase.onCloseFreeClient) Owned := by
  have hblocks : c.blocks =
      {c.client.block} + (nullable ClientRequestData.blocks c.data + c.timer.blocks) := by
    rw [Connection.blocks, blocks_of_closing hclosing]
    abel
  refine .step_freed hblocks (.free _) (.pure ⟨rfl, ?_⟩)
  rw [Connection.blocks]
  exact congrArg _ (zero_add _).symm

theorem onCloseFreeTimer_refines {c : Connection} (hclosing : c.timer.state = .closing) :
    Refines c.blocks c.onCloseFreeTimer (.ok c.erase.onCloseFreeTimer) Owned := by
  have hblocks : c.blocks =
      {c.timer.block} + (nullable ClientRequestData.blocks c.data + c.client.blocks) := by
    rw [Connection.blocks, blocks_of_closing hclosing]
    abel
  refine .step_freed hblocks (.free _) (.pure ⟨rfl, ?_⟩)
  rw [Connection.blocks]
  exact congrArg _ (add_zero _).symm

/-- **One callback**: with its allocations a callback that libuv may run
does what it does without, and the connection owns what it leaves. -/
theorem step_refines {c : Connection} (htidy : Tidy c.erase) {cb : Callback abi}
    (hp : c.erase.Permits cb) : Refines c.blocks (c.step cb) (c.erase.step cb) Owned := by
  cases cb with
  | readCb nread base rc => exact readCb_refines htidy nread base rc
  | clientTimeoutCb => exact clientTimeoutCb_refines c
  | processCommand locals => exact processCommand_refines htidy hp locals
  | afterProcessCommand rc => exact afterProcessCommand_refines htidy hp rc
  | onWriteEnd => exact onWriteEnd_refines c
  | onCloseFreeClient => exact onCloseFreeClient_refines hp
  | onCloseFreeTimer => exact onCloseFreeTimer_refines hp

theorem connectionCb_refines (status acceptRc readStartRc : Int) :
    Refines 0 (connectionCb status acceptRc readStartRc)
      (Server.connectionCb status acceptRc readStartRc)
      (Stored (Option.map Connection.erase) (nullable Connection.blocks)) := by
  unfold connectionCb Server.connectionCb
  by_cases hstatus : status = -1
  · rw [if_pos hstatus, if_pos hstatus]
    exact .pure ⟨rfl, rfl⟩
  · rw [if_neg hstatus, if_neg hstatus]
    refine .malloc fun block => .malloc fun client => ?_
    have hblocks : {client} + ({block} + 0) = (freshConnection block client).blocks := by
      simp only [Connection.blocks, freshConnection, nullable, ClientRequestData.blocks,
        HandleBlock.blocks]
      abel
    rw [hblocks]
    refine .lift_map ClientRequestData.erase (deref_erase (freshConnection block client))
      fun data hderef => ?_
    have hdata := data_of_deref hderef
    by_cases haccept : acceptRc = 0
    · rw [if_pos haccept, if_pos haccept]
      obtain rfl := Option.some.inj hdata
      refine .malloc fun timer => .pure ⟨rfl, ?_⟩
      simp only [Connection.blocks, freshConnection, nullable, ClientRequestData.blocks,
        HandleBlock.blocks]
      by_cases hread : readStartRc = 0
      · rw [if_pos hread]
        abel
      · rw [if_neg hread]
        abel
    · rw [if_neg haccept, if_neg haccept]
      refine .bind (add_zero _).symm (closeData_refines hdata) fun c d own h => ?_
      obtain ⟨rfl, rfl⟩ := h
      rw [add_zero]
      exact .pure ⟨rfl, rfl⟩

/-! ## The server -/

theorem total_append {α : Type} (blocks : α → Multiset Block) (as bs : List α) :
    total blocks (as ++ bs) = total blocks as + total blocks bs := by
  induction as with
  | nil => simp [total]
  | cons a as ih => rw [List.cons_append, total, total, ih, add_assoc]

theorem total_toList {α : Type} (blocks : α → Multiset Block) (o : Option α) :
    total blocks o.toList = nullable blocks o := by
  cases o with
  | none => rfl
  | some a => exact add_zero _

/-- The blocks of one entry, and those of the others. -/
theorem exists_total_set {α : Type} (blocks : α → Multiset Block) {as : List α} {i : Nat} {a : α}
    (h : as[i]? = some a) :
    ∃ rest, total blocks as = blocks a + rest ∧
      ∀ a', total blocks (as.set i a') = blocks a' + rest := by
  induction as generalizing i with
  | nil => simp at h
  | cons b as ih =>
    cases i with
    | zero =>
      obtain rfl : b = a := by simpa using h
      exact ⟨total blocks as, rfl, fun _ => rfl⟩
    | succ i =>
      obtain ⟨rest, hrest, hset⟩ := ih (by simpa using h)
      refine ⟨blocks b + rest, ?_, fun a' => ?_⟩
      · rw [total, hrest]
        abel
      · rw [List.set_cons_succ, total, hset]
        abel

theorem eventStep_refines {connections : List Connection}
    (htidy : ∀ c ∈ connections, Tidy c.erase) {e : Event abi}
    (henabled : (server abi).Enabled (connections.map Connection.erase) e) :
    Refines (total Connection.blocks connections) (eventStep connections e)
      ((server abi).step (connections.map Connection.erase) e)
      (Stored (List.map Connection.erase) (total Connection.blocks)) := by
  cases e with
  | connectionCb status acceptRc readStartRc =>
    refine .bind (zero_add _).symm (connectionCb_refines status acceptRc readStartRc)
      fun c o own h => ?_
    obtain ⟨rfl, rfl⟩ := h
    refine .pure ⟨?_, ?_⟩
    · cases c <;> simp
    · rw [total_append, total_toList, add_comm]
  | callback i cb =>
    obtain ⟨d, hd, hp⟩ := henabled
    rw [List.getElem?_map] at hd
    obtain ⟨c, hc, rfl⟩ := Option.map_eq_some_iff.mp hd
    obtain ⟨rest, hrest, hset⟩ := exists_total_set Connection.blocks hc
    have hc' : (connections.map Connection.erase)[i]? = some c.erase := by
      rw [List.getElem?_map, hc, Option.map_some]
    simp only [eventStep, server, hc, hc']
    refine .bind hrest (step_refines (htidy c (List.mem_of_getElem? hc)) hp) fun c' d own h => ?_
    obtain ⟨rfl, rfl⟩ := h
    refine .pure ⟨?_, (hset c').symm⟩
    rw [List.map_set]

/-! ## Tidy connections -/

theorem tidy_of_none {c : Server.Connection} (h : c.data = none) : Tidy c where
  workReq := fun _ hdata => nomatch h.symm.trans hdata
  response := fun _ hdata => nomatch h.symm.trans hdata
  writeReq := fun _ hdata => nomatch h.symm.trans hdata

theorem data_of_closeData {c c' : Server.Connection} {data : Server.ClientRequestData}
    (h : c.closeData data = .ok c') : c'.data = none := by
  obtain ⟨client, -, h⟩ := bind_ok_iff.mp h
  split_ifs at h
  obtain ⟨timer, -, h⟩ := bind_ok_iff.mp h
  obtain rfl := Except.ok.inj h
  rfl

/-- A read changes the text and nothing else of the data. -/
theorem readChunk_pointers {data data' : Server.ClientRequestData} {nread : Int}
    {base : List Char} (h : Server.Connection.readChunk data nread base = .ok data') :
    data'.workReq = data.workReq ∧ data'.response = data.response ∧
      data'.writeReq = data.writeReq := by
  unfold Server.Connection.readChunk at h
  split_ifs at h
  obtain rfl := Except.ok.inj h
  unfold Server.Connection.appendChunk
  cases data.text <;> exact ⟨rfl, rfl, rfl⟩

theorem data_of_plain_deref {c : Server.Connection} {data : Server.ClientRequestData}
    (h : c.deref = .ok data) : c.data = some data := by
  unfold Server.Connection.deref at h
  cases hdata : c.data with
  | none =>
    rw [hdata] at h
    cases h
  | some d =>
    rw [hdata] at h
    rw [Except.ok.inj h]

/-- A timer that is stopped is all that changes. -/
theorem of_uvTimerStop {c c' : Server.Connection} {timer : Ptr}
    (h : c.uvTimerStop timer = .ok c') : c'.data = c.data ∧ c'.work = c.work := by
  cases timer with
  | null => cases h
  | own =>
    obtain ⟨state, -, h⟩ := bind_ok_iff.mp h
    obtain rfl := Except.ok.inj h
    exact ⟨rfl, rfl⟩

theorem of_uvWrite {c c' : Server.Connection} {rc : Int} (h : c.uvWrite rc = .ok c') :
    c'.data = c.data ∧ c'.work = c.work := by
  unfold Server.Connection.uvWrite at h
  by_cases hlive : c.client.Live
  · rw [if_pos hlive] at h
    obtain rfl := Except.ok.inj h
    exact ⟨rfl, rfl⟩
  · rw [if_neg hlive] at h
    cases h

theorem Tidy.congr {c c' : Server.Connection} (h : Tidy c) (hdata : c'.data = c.data)
    (hwork : c'.work = c.work) : Tidy c' where
  workReq := hdata ▸ h.workReq
  response := by
    rw [hdata, hwork]
    exact h.response
  writeReq := by
    rw [hdata, hwork]
    exact h.writeReq

/-- A read sets the work request of work that is not started. -/
theorem Tidy.readCb {c c' : Server.Connection} (h : Tidy c) (hwork : c.work = .none) {nread : Int}
    {base : List Char} {rc : Int} (h' : c.readCb nread base rc = .ok c') : Tidy c' := by
  obtain ⟨data, hderef, hrun⟩ := bind_ok_iff.mp h'
  have hdata := data_of_plain_deref hderef
  by_cases hend : nread = -1 ∨ nread = Server.Connection.uvEof
  · rw [if_pos hend] at hrun
    obtain ⟨d, -, hclose⟩ := bind_ok_iff.mp hrun
    exact tidy_of_none (data_of_closeData hclose)
  · rw [if_neg hend] at hrun
    obtain ⟨data', hread, hrun⟩ := bind_ok_iff.mp hrun
    obtain ⟨hworkReq, hresponse, hwriteReq⟩ := readChunk_pointers hread
    obtain ⟨-, hstarted, -, -⟩ := readChunk_fields hread
    have hnone : data'.response = none := hresponse.trans (h.response data hdata (.inl hwork))
    have hnull : data'.writeReq = .null :=
      hwriteReq.trans (h.writeReq data hdata (by simp [hwork]))
    by_cases hready : Server.Connection.requestReady data' = true
    · rw [if_pos hready] at hrun
      obtain ⟨client, -, hrun⟩ := bind_ok_iff.mp hrun
      obtain rfl := Except.ok.inj hrun
      refine ⟨fun d hd => ?_, fun d hd _ => ?_, fun d hd _ => ?_⟩ <;>
        obtain rfl := Option.some.inj hd
      · exact fun hfalse => nomatch hfalse
      · exact hnone
      · exact hnull
    · rw [if_neg hready] at hrun
      obtain rfl := Except.ok.inj hrun
      refine ⟨fun d hd => ?_, fun d hd _ => ?_, fun d hd _ => ?_⟩ <;>
        obtain rfl := Option.some.inj hd
      · exact fun hfalse => hworkReq.trans (h.workReq data hdata (hstarted ▸ hfalse))
      · exact hnone
      · exact hnull

theorem Tidy.processCommand {c c' : Server.Connection} (h : Tidy c) (hqueued : c.work = .queued)
    {locals : Locals abi} (hstep : c.processCommand locals = .ok c') : Tidy c' := by
  obtain ⟨data, hderef, hrun⟩ := bind_ok_iff.mp hstep
  have hdata := data_of_plain_deref hderef
  cases htext : data.text with
  | none =>
    rw [htext] at hrun
    cases hrun
  | some text =>
    rw [htext] at hrun
    obtain ⟨request, -, hrun⟩ := bind_ok_iff.mp hrun
    obtain rfl := Except.ok.inj hrun
    refine ⟨fun d hd => ?_, fun d hd hwork => ?_, fun d hd _ => ?_⟩ <;>
      obtain rfl := Option.some.inj hd
    · exact h.workReq data hdata
    · exact absurd hwork (by simp)
    · exact h.writeReq data hdata (by simp [hqueued])

theorem Tidy.afterProcessCommand {c c' : Server.Connection} (h : Tidy c) {rc : Int}
    (hstep : c.afterProcessCommand rc = .ok c') : Tidy c' := by
  obtain ⟨data, hderef, hrun⟩ := bind_ok_iff.mp hstep
  have hdata := data_of_plain_deref hderef
  cases hresponse : data.response with
  | none =>
    rw [hresponse] at hrun
    cases hrun
  | some response =>
    rw [hresponse] at hrun
    obtain ⟨d, hstop, hrun⟩ := bind_ok_iff.mp hrun
    obtain ⟨hsame, hwork⟩ := of_uvTimerStop hstop
    obtain ⟨hsame', hwork'⟩ := of_uvWrite hrun
    have hfinished : c'.work = .finished := hwork'.trans hwork
    refine ⟨fun e he => ?_, fun e _ hidle => ?_, fun e _ hne => absurd hfinished hne⟩
    · obtain rfl := Option.some.inj ((hsame'.trans hsame).symm.trans he)
      exact h.workReq data hdata
    · rw [hfinished] at hidle
      exact absurd hidle (by decide)

theorem Tidy.step {c c' : Server.Connection} (h : Tidy c) (hgood : Good c) {cb : Callback abi}
    (hp : c.Permits cb) (hstep : c.step cb = .ok c') : Tidy c' := by
  cases cb with
  | readCb nread base rc => exact h.readCb (hgood.waiting_of_active hp.1).work hstep
  | clientTimeoutCb =>
    obtain ⟨data, -, hrun⟩ := bind_ok_iff.mp hstep
    obtain ⟨d, hstop, hrun⟩ := bind_ok_iff.mp hrun
    obtain ⟨hdata, hwork⟩ := of_uvTimerStop hstop
    by_cases hstarted : data.workStarted = true
    · rw [if_pos hstarted] at hrun
      obtain rfl := Except.ok.inj hrun
      exact h.congr hdata hwork
    · rw [if_neg hstarted] at hrun
      exact tidy_of_none (data_of_closeData hrun)
  | processCommand locals => exact h.processCommand hp hstep
  | afterProcessCommand rc => exact h.afterProcessCommand hstep
  | onWriteEnd =>
    obtain ⟨data, -, hrun⟩ := bind_ok_iff.mp hstep
    exact tidy_of_none (data_of_closeData hrun)
  | onCloseFreeClient =>
    obtain rfl := Except.ok.inj hstep
    exact h.congr rfl rfl
  | onCloseFreeTimer =>
    obtain rfl := Except.ok.inj hstep
    exact h.congr rfl rfl

/-! ## Runs -/

/-- The ledger holds what the connections own, and the connections are those
of the server without a ledger. -/
structure Represents (s : List Connection × Ledger) (connections : List Server.Connection) :
    Prop where
  erase : s.1.map Connection.erase = connections
  live : s.2.live = total Connection.blocks s.1
  good : ∀ c ∈ connections, Good c ∧ Tidy c

theorem good_newcomer {x : Arrival} {c : Server.Connection} (h : newcomer x = some c) :
    Good c ∧ Tidy c := by
  unfold newcomer at h
  split_ifs at h <;> obtain rfl := Option.some.inj h
  · refine ⟨.inl (waiting_accepted x.readStartRc), ?_⟩
    refine ⟨fun d hd _ => ?_, fun d hd _ => ?_, fun d hd _ => ?_⟩ <;>
      (obtain rfl := Option.some.inj hd; rfl)
  · exact ⟨.inr (.inr (.inr (.inr closed_refused))), tidy_of_none rfl⟩

/-- The invariant of the connections is kept by every event. -/
theorem forall_good_next {connections next : List Server.Connection} {e : Event abi}
    (h : ∀ c ∈ connections, Good c ∧ Tidy c)
    (hnext : (server abi).Next (EachAllowed Unrestricted) connections e next) :
    ∀ c ∈ next, Good c ∧ Tidy c := by
  have hpool := next_iff_poolNext.mp hnext
  generalize e.view = e' at hpool
  cases hpool with
  | enter x =>
    intro c hc
    rcases List.mem_append.mp hc with hc | hc
    · exact h c hc
    · exact good_newcomer (Option.mem_toList.mp hc)
  | @act i cb c c' hc hstep =>
    obtain ⟨hp, -, hstep⟩ := hstep
    obtain ⟨hgood, htidy⟩ := h c (List.mem_of_getElem? hc)
    intro d hd
    rcases List.mem_or_eq_of_mem_set hd with hd | rfl
    · exact h d hd
    · obtain ⟨d', hd', hgood'⟩ :=
        hgood.step hp (knownRead_of_step hstep) (requestObtained_of_step hstep)
      obtain rfl := Except.ok.inj (hstep.symm.trans hd')
      exact ⟨hgood', htidy.step hgood hp hstep⟩

/-- With the ledger an event does what it does without, -/
theorem Represents.step {s : List Connection × Ledger} {connections : List Server.Connection}
    (h : Represents s connections) {e : Event abi} (henabled : (server abi).Enabled connections e)
    {next : List Server.Connection} (hstep : (server abi).step connections e = .ok next) :
    ∃ s', (heapServer abi).step s e = .ok s' ∧ Represents s' next := by
  obtain ⟨connections', L⟩ := s
  obtain ⟨rfl, hlive, hgood⟩ := h
  have hrefines := eventStep_refines
    (fun c hc => (hgood c.erase (List.mem_map_of_mem hc)).2) henabled
  obtain ⟨a, L', own, heq, hlive', herase, rfl⟩ := hrefines.ok next hstep L 0 (by simpa using hlive)
  have hnext : (server abi).Next (EachAllowed Unrestricted) (connections'.map Connection.erase) e
      next := ⟨henabled, eachAllowed_unrestricted _ e, hstep⟩
  exact ⟨(a, L'), heq, herase, by simpa using hlive', forall_good_next hgood hnext⟩

/-- and goes wrong where it does without, and in the same way. -/
theorem Represents.step_error {s : List Connection × Ledger}
    {connections : List Server.Connection} (h : Represents s connections) {e : Event abi}
    (henabled : (server abi).Enabled connections e) {fault : Fault}
    (hstep : (server abi).step connections e = .error fault) :
    (heapServer abi).step s e = .error fault := by
  obtain ⟨connections', L⟩ := s
  obtain ⟨rfl, hlive, hgood⟩ := h
  have hrefines := eventStep_refines
    (fun c hc => (hgood c.erase (List.mem_map_of_mem hc)).2) henabled
  exact hrefines.error fault hstep L 0 (by simpa using hlive)

/-- The server with its ledger refines the server without, and does all it
does. -/
theorem heap_refines (abi : Abi) :
    Refinement ((heapServer abi).Next fun _ _ => True)
      ((server abi).Next (EachAllowed Unrestricted)) (fun _ => True) id Represents where
  forth := by
    intro s s' connections e h hnext
    obtain ⟨henabled, -, hstep⟩ := hnext
    have henabled' : (server abi).Enabled connections e := h.erase ▸ henabled
    cases hplain : (server abi).step connections e with
    | error fault => exact nomatch hstep.symm.trans (h.step_error henabled' hplain)
    | ok next =>
      obtain ⟨t, ht, hrel⟩ := h.step henabled' hplain
      obtain rfl := Except.ok.inj (hstep.symm.trans ht)
      exact ⟨next, ⟨henabled', eachAllowed_unrestricted _ e, hplain⟩, hrel⟩
  back := by
    intro s connections next e h _ hnext
    obtain ⟨henabled, -, hstep⟩ := hnext
    obtain ⟨s', hs', hrel⟩ := h.step henabled hstep
    have henabled' : (heapServer abi).Enabled s e := by
      change (server abi).Enabled (s.1.map Connection.erase) e
      rw [h.erase]
      exact henabled
    exact ⟨s', ⟨henabled', trivial, hs'⟩, hrel⟩

/-- The events lead the server with its ledger, both empty at first, to this
state. -/
def HeapRun (abi : Abi) (es : List (Event abi)) (s : List Connection × Ledger) : Prop :=
  Path ((heapServer abi).Next fun _ _ => True) (heapServer abi).init es s

theorem represents_init (abi : Abi) : Represents (heapServer abi).init (server abi).init where
  erase := rfl
  live := rfl
  good := fun _ hc => absurd hc List.not_mem_nil

theorem HeapRun.represents {es : List (Event abi)} {s : List Connection × Ledger}
    (h : HeapRun abi es s) :
    ServerRun Unrestricted es (s.1.map Connection.erase) ∧
      Represents s (s.1.map Connection.erase) := by
  obtain ⟨connections, hpath, hrel⟩ := (heap_refines abi).path (represents_init abi) h
  rw [List.map_id] at hpath
  obtain rfl := hrel.erase
  exact ⟨hpath, hrel⟩

theorem exists_heapRun {es : List (Event abi)} {connections : List Server.Connection}
    (h : ServerRun Unrestricted es connections) :
    ∃ s, HeapRun abi es s ∧ s.1.map Connection.erase = connections := by
  have hpath : Path ((server abi).Next (EachAllowed Unrestricted)) (server abi).init (es.map id)
      connections := by rwa [List.map_id]
  obtain ⟨s, hs, hrel⟩ :=
    (heap_refines abi).path_back (represents_init abi) (fun _ _ => trivial) hpath
  exact ⟨s, hs, hrel.erase⟩

/-! ## What the ledger holds -/

theorem card_nullable_le {α : Type} {blocks : α → Multiset Block} {n : Nat}
    (h : ∀ a, (blocks a).card ≤ n) (o : Option α) : (nullable blocks o).card ≤ n := by
  cases o with
  | none => exact Nat.zero_le n
  | some a => exact h a

theorem HandleBlock.card_blocks_le (h : HandleBlock) : h.blocks.card ≤ 1 := by
  unfold HandleBlock.blocks
  cases h.state <;> simp

/-- The data, two handles, two requests and two strings. -/
theorem Connection.card_blocks_le (c : Connection) : c.blocks.card ≤ 7 := by
  have hdata : ∀ data : ClientRequestData, data.blocks.card ≤ 5 := by
    intro data
    have hptr : ∀ p : Option Block, (nullable singleton p : Multiset Block).card ≤ 1 :=
      card_nullable_le fun block => (Multiset.card_singleton block).le
    have hstring : ∀ o : Option CString, (nullable CString.blocks o).card ≤ 1 :=
      card_nullable_le fun string => (Multiset.card_singleton string.block).le
    have h₁ := hptr data.workReq
    have h₂ := hptr data.writeReq
    have h₃ := hstring data.text
    have h₄ := hstring data.response
    simp only [ClientRequestData.blocks, Multiset.card_add, Multiset.card_singleton]
    omega
  have h₁ := card_nullable_le hdata c.data
  have h₂ := c.client.card_blocks_le
  have h₃ := c.timer.card_blocks_le
  simp only [Connection.blocks, Multiset.card_add]
  omega

theorem card_total_le (connections : List Connection) :
    (total Connection.blocks connections).card ≤ 7 * connections.length := by
  induction connections with
  | nil => simp [total]
  | cons c connections ih =>
    have hc := c.card_blocks_le
    rw [total, Multiset.card_add, List.length_cons]
    omega

/-- The state of the heap is that of the connections. -/
structure Accounted (abi : Abi) (s : List Connection × Ledger) : Prop where
  /-- What is live is what the connections own, and every block once; -/
  live : s.2.live = total Connection.blocks s.1
  /-- that is at most seven blocks a connection; -/
  few : s.2.live.card ≤ 7 * s.1.length
  /-- and what libuv may do next, where a read reports no error but the two
  that the source knows, succeeds if the work it runs obtains its request,
  and never frees a block twice or uses a freed one. -/
  safe : ∀ e : Event abi, (heapServer abi).Enabled s e → e.KnownRead →
    ((∃ next, (heapServer abi).step s e = .ok next) ↔
      RequestObtained (s.1.map Connection.erase) e) ∧
    (heapServer abi).step s e ≠ .error .useAfterFree

/-- **Memory**: the server with all its allocations has the runs of the
server without, and after each of them the heap is accounted for. -/
theorem heap_accounted (abi : Abi) (es : List (Event abi)) :
    (∀ s, HeapRun abi es s →
      ServerRun Unrestricted es (s.1.map Connection.erase) ∧ Accounted abi s) ∧
    (∀ connections, ServerRun Unrestricted es connections →
      ∃ s, HeapRun abi es s ∧ s.1.map Connection.erase = connections) := by
  refine ⟨fun s h => ?_, fun connections h => exists_heapRun h⟩
  obtain ⟨hrun, hrel⟩ := h.represents
  refine ⟨hrun, hrel.live, hrel.live ▸ card_total_le s.1, fun e henabled hknown => ?_⟩
  obtain ⟨hobtained, hfreed⟩ := step_of_good (fun c hc => (hrel.good c hc).1) henabled hknown
  rw [← hobtained]
  cases hplain : (server abi).step (s.1.map Connection.erase) e with
  | error fault =>
    have herror := hrel.step_error henabled hplain
    refine ⟨iff_of_false (fun h => ?_) (fun h => ?_), fun hfault => ?_⟩
    · obtain ⟨next, hnext⟩ := h
      exact nomatch herror.symm.trans hnext
    · obtain ⟨next, hnext⟩ := h
      exact nomatch hnext
    · obtain rfl := Except.error.inj (herror.symm.trans hfault)
      exact hfreed hplain
  | ok next =>
    obtain ⟨s', hs', -⟩ := hrel.step henabled hplain
    exact ⟨iff_of_true ⟨s', hs'⟩ ⟨next, rfl⟩, fun hfault => nomatch hs'.symm.trans hfault⟩

end CWebServer.Server.Heap
