import UbServer.Worker
import UbServer.Lib.Handles
import UbServer.Lib.Runs

/-!
# The descriptors of response bodies

One thread and the descriptor table of its process. The calls that open, use and close descriptors
are listed beside the step that makes them; the kernel hands out numbers that are not open.

* `EventLoop.calls`, `Worker.calls`, `shutdownCalls`: the calls of a step and of the shutdown.
* `Process`: the thread, the table and the calls made so far.
* `Process.Sound`: each client's record holds what is open for it.
* `bodyLifeCycle`: a body's descriptor is held by one record while it is open and closed once.
-/

namespace UbServer

open Handles Runs QueueConnectionsType

/-- What a descriptor is open for: a client's socket, the body of a response to a client, or
something the server opened before. -/
inductive Descriptor where
  | client
  | body (clientFd : ℕ)
  | other
  deriving DecidableEq

abbrev DescriptorCall := Call Descriptor

/-! ### The calls of a step -/

/-- `freeConnection` closes the body's file. -/
def freeConnectionCalls (connection : QueueConnectionElementType) : List DescriptorCall :=
  if 0 < connection.bodyFd then
    [.release connection.bodyFd.toNat (.body connection.clientFd)]
  else []

/-- `makeContentEncoding` closes the file and opens its compressed copy. -/
def makeContentEncodingCalls (env : ResponseEnv) (connection : QueueConnectionElementType) :
    List DescriptorCall :=
  [.release connection.bodyFd.toNat (.body connection.clientFd),
    .acquire env.gzipFd (.body connection.clientFd)]

def makeResponseCalls (env : ResponseEnv) (connection : QueueConnectionElementType) :
    List DescriptorCall :=
  .acquire env.bodyFd (.body connection.clientFd) ::
    if acceptsGzip connection.requestHeaders then
      makeContentEncodingCalls env { connection with bodyFd := env.bodyFd }
    else []

/-- One turn of `sendResponseFile`. Where it closes the file it sets `bodyFd` to -1. -/
def sendResponseFileCalls (connection : QueueConnectionElementType) (bodyFile : Bytes)
    (r : SendResult) : List DescriptorCall :=
  .use connection.bodyFd.toNat (.body connection.clientFd) ::
    if (sendResponseFileTurn connection bodyFile r).connection.bodyFd = -1 then
      [.release connection.bodyFd.toNat (.body connection.clientFd)]
    else []

def updateQueueConnectionCalls (q : QueueConnectionsType) (fd : ℕ) : List DescriptorCall :=
  match q.indexQueue fd with
  | none => []
  | some index => freeConnectionCalls (q.connections index)

def dequeueConnectionByFdCalls (q : QueueConnectionsType) (fd : ℕ) : List DescriptorCall :=
  if q.currentSize = 0 then []
  else
    match q.indexQueue fd with
    | none => []
    | some index => freeConnectionCalls (q.connections index)

def closeEpollClientCalls (clientFd : ℕ) : List DescriptorCall := [.release clientFd .client]

section Calls

variable (options : Options) (q : QueueConnectionsType) (sys : Sys)

def respondCalls (connection : QueueConnectionElementType) : List DescriptorCall :=
  if connection.responseBufferHeaders = none then makeResponseCalls sys.response connection else []

def sendHeadersCaseCalls (connection : QueueConnectionElementType) : List DescriptorCall :=
  if connection.requestHeaders = [] then
    match processRequest options sys.request connection with
    | none => []
    | some (isValidRequest, connection) =>
      if ¬ isValidRequest then []
      else if ¬ supportedProtocol connection.protocolVersion then []
      else if isHello connection.path then []
      else respondCalls sys connection
  else respondCalls sys connection

/-- The calls of one step of the loop of a client. -/
def EventLoop.calls (e : EventLoop) : List DescriptorCall :=
  let connection := q.connections e.slot
  match e.pc with
  | .switch =>
    match connection.state with
    | .sendHeaders => sendHeadersCaseCalls options sys connection
    | .done =>
      if connection.keepAlive ∧ existsConnection q e.clientFd then
        updateQueueConnectionCalls q e.clientFd
      else []
    | .doneForClose =>
      if existsConnection q e.clientFd then
        dequeueConnectionByFdCalls q e.clientFd ++ closeEpollClientCalls e.clientFd
      else []
    | _ => []
  | .sendBody => sendResponseFileCalls connection sys.bodyFile sys.send
  | _ => []

end Calls

/-- The calls of one step of the thread. -/
def Worker.calls (options : Options) (w : Worker) : WorkerAction → List DescriptorCall
  | .sweep =>
    match w.phase with
    | .sweeping now =>
      match w.queue.expired now with
      | some fd =>
        if existsConnection w.queue fd then
          dequeueConnectionByFdCalls w.queue fd ++ closeEpollClientCalls fd
        else []
      | none => []
    | _ => []
  | .accept fd => [.acquire fd .client]
  | .call sys =>
    match w.phase with
    | .handling e _ => e.calls options w.queue sys
    | _ => []
  | _ => []

/-- After the loop of `handleEpoll`, `freeConnection` is called for every slot in use. -/
def shutdownCalls (q : QueueConnectionsType) : List DescriptorCall :=
  ((List.range q.currentSize).map q.connections).flatMap freeConnectionCalls

/-! ### The process -/

/-- A thread with the descriptor table, the calls made so far and the effects of the last step. -/
structure Process where
  clock : ℤ
  worker : Worker
  running : Bool
  descriptors : Table Descriptor
  calls : List DescriptorCall
  effects : List (ℕ × Effect)

/-- The process before its first step, with some descriptors open. -/
def Process.init (clock : ℤ) (descriptors : Table Descriptor) : Process :=
  ⟨clock, .init, true, descriptors, [], []⟩

/-- A step of the thread, or the end of its loop at the signal. -/
inductive ProcessAction where
  | work (a : WorkerAction)
  | shutdown

/-- The calls of one step. -/
def Process.callsOf (options : Options) (s : Process) : ProcessAction → List DescriptorCall
  | .work a => s.worker.calls options a
  | .shutdown => shutdownCalls s.worker.queue

def Process.next (options : Options) (s : Process) (a : ProcessAction) : Option Process :=
  let calls := s.callsOf options a
  if s.running then
    match a with
    | .work action =>
      (s.worker.step options action).map fun (worker, effects) =>
        ⟨action.clock s.clock, worker, true, after s.descriptors calls, s.calls ++ calls, effects⟩
    | .shutdown =>
      match s.worker.phase with
      | .top => some ⟨s.clock, s.worker, false, after s.descriptors calls, s.calls ++ calls, []⟩
      | _ => none
  else none

/-- One step, as a step relation. -/
abbrev ProcessStep (options : Options) (s : Process) (a : ProcessAction) (s' : Process) : Prop :=
  s.next options a = some s'

/-- What the kernel answers: the clock does not go back, the numbers that `open` and `accept` return
are not open, and `epoll_wait` reports open sockets of clients, each once. -/
def Process.Answers (options : Options) (s : Process) (a : ProcessAction) : Prop :=
  FreshNumbers s.descriptors (s.callsOf options a) ∧
    match a with
    | .work action => action.Timely s.clock ∧
        match action with
        | .epollWait events => (events.filterMap Event.fd).Nodup ∧
            ∀ fd ∈ events.filterMap Event.fd, s.descriptors fd = some .client
        | _ => True
    | .shutdown => True

instance decidableProcessAnswers (options : Options) (s : Process) :
    (a : ProcessAction) → Decidable (s.Answers options a)
  | .work (.epollWait events) => inferInstanceAs (Decidable (_ ∧ WorkerAction.Timely s.clock _ ∧
      (events.filterMap Event.fd).Nodup ∧
        ∀ fd ∈ events.filterMap Event.fd, s.descriptors fd = some .client))
  | .work (.readTime _) | .work .sweep | .work (.nextEvent ..) | .work (.accept _) |
    .work .acceptEnd | .work (.call _) | .work .endEvent =>
    inferInstanceAs (Decidable (_ ∧ WorkerAction.Timely s.clock _ ∧ True))
  | .shutdown => inferInstanceAs (Decidable (_ ∧ True))

/-! ### What is open for a client -/

/-- The descriptors open for bodies of the client are the given one; -1 is none. -/
def Owned (t : Table Descriptor) (fd : ℕ) (bodyFd : ℤ) : Prop :=
  ∀ b : ℕ, t b = some (.body fd) ↔ (b : ℤ) = bodyFd

/-- The body of a record: none before the response is made, and never the descriptor 0. -/
structure SoundBody (c : QueueConnectionElementType) : Prop where
  unmade : c.responseBufferHeaders = none → c.bodyFd = -1
  valid : c.bodyFd = -1 ∨ 0 < c.bodyFd

section Owning

variable {t : Table Descriptor} {calls : List DescriptorCall} {fd b : ℕ} {bodyFd : ℤ}
  {c : QueueConnectionElementType}

theorem Owned.of_kind_ne (h : Owned t fd bodyFd) (hlegal : Legal t calls)
    (hkind : ∀ call ∈ calls, call.kind ≠ .body fd) : Owned (after t calls) fd bodyFd :=
  fun b => (hlegal.after_of_kind_ne hkind).trans (h b)

theorem Owned.not_held (h : Owned t fd bodyFd) {n : ℕ} (hn : (n : ℤ) ≠ bodyFd) :
    t n ≠ some (.body fd) := fun hheld => hn ((h n).mp hheld)

theorem Owned.acquire (h : Owned t fd (-1)) : Owned (Call.after t (.acquire b (.body fd))) fd b := by
  intro n
  by_cases hn : n = b
  · subst hn
    simp [Call.after]
  · have hnone := h.not_held (n := n) (by omega)
    simp only [Call.after, Function.update_of_ne hn, hnone, false_iff]
    omega

theorem Owned.release (h : Owned t fd b) : Owned (Call.after t (.release b (.body fd))) fd (-1) := by
  intro n
  by_cases hn : n = b
  · subst hn
    simp [Call.after]
  · have hnone := h.not_held (n := n) (by omega)
    simp only [Call.after, Function.update_of_ne hn, hnone, false_iff]
    omega

theorem soundBody_fresh (fd : ℕ) (now : ℤ) (mem : RequestBlock) :
    SoundBody (freshConnection fd now mem) := ⟨fun _ => rfl, Or.inl rfl⟩

theorem SoundBody.exists_nat (h : SoundBody c) (hopen : c.bodyFd ≠ -1) :
    ∃ b : ℕ, c.bodyFd = b ∧ c.bodyFd.toNat = b := by
  refine ⟨c.bodyFd.toNat, ?_, rfl⟩
  rcases h.valid with hnone | hpos
  · exact absurd hnone hopen
  · omega

theorem freeConnectionCalls_kind (c : QueueConnectionElementType) :
    ∀ call ∈ freeConnectionCalls c, call.kind = .body c.clientFd := by
  intro call hcall
  unfold freeConnectionCalls at hcall
  split at hcall
  · rw [List.mem_singleton.mp hcall]
    rfl
  · cases hcall

theorem freeConnectionCalls_spec (h : SoundBody c) (hown : Owned t c.clientFd c.bodyFd) :
    Legal t (freeConnectionCalls c) ∧ Owned (after t (freeConnectionCalls c)) c.clientFd (-1) := by
  unfold freeConnectionCalls
  rcases h.valid with hnone | hpos
  · rw [if_neg (by omega)]
    rw [hnone] at hown
    exact ⟨trivial, hown⟩
  · rw [if_pos hpos]
    obtain ⟨b, hb, hnat⟩ := h.exists_nat (by omega)
    rw [hnat]
    rw [hb] at hown
    exact ⟨⟨(hown b).mpr rfl, trivial⟩, hown.release⟩

end Owning

/-! ### What a step does to the body of a record -/

/-- The calls of a step that keeps the record: none, a body is opened, or opened and exchanged for
its compressed copy, or it is sent from, or sent from and closed. -/
inductive BodyTurn (c c' : QueueConnectionElementType) : List DescriptorCall → Prop
  | kept : c'.bodyFd = c.bodyFd →
      (c'.responseBufferHeaders = none → c.responseBufferHeaders = none) → BodyTurn c c' []
  | opened (b : ℕ) : c.responseBufferHeaders = none → c'.responseBufferHeaders ≠ none →
      c'.bodyFd = b → BodyTurn c c' [.acquire b (.body c.clientFd)]
  | exchanged (b b' : ℕ) : c.responseBufferHeaders = none → c'.responseBufferHeaders ≠ none →
      c'.bodyFd = b' → BodyTurn c c' [.acquire b (.body c.clientFd), .release b (.body c.clientFd),
        .acquire b' (.body c.clientFd)]
  | sent : c.bodyFd ≠ -1 → c'.bodyFd = c.bodyFd →
      c'.responseBufferHeaders = c.responseBufferHeaders →
      BodyTurn c c' [.use c.bodyFd.toNat (.body c.clientFd)]
  | finished : c.bodyFd ≠ -1 → c'.bodyFd = -1 →
      BodyTurn c c' [.use c.bodyFd.toNat (.body c.clientFd),
        .release c.bodyFd.toNat (.body c.clientFd)]

section Turns

variable {t : Table Descriptor} {calls : List DescriptorCall} {c c' : QueueConnectionElementType}

theorem BodyTurn.kind (h : BodyTurn c c' calls) : ∀ call ∈ calls, call.kind = .body c.clientFd := by
  intro call hcall
  cases h with
  | kept => cases hcall
  | opened | sent =>
    rw [List.mem_singleton.mp hcall]
    rfl
  | exchanged =>
    simp only [List.mem_cons, List.not_mem_nil, or_false] at hcall
    rcases hcall with rfl | rfl | rfl <;> rfl
  | finished =>
    simp only [List.mem_cons, List.not_mem_nil, or_false] at hcall
    rcases hcall with rfl | rfl <;> rfl

/-- **A step that keeps the record** makes legal calls if the kernel does, and leaves open what the
record holds then. -/
theorem BodyTurn.spec (h : BodyTurn c c' calls) (hfresh : FreshNumbers t calls)
    (hzero : t 0 = some .other) (hsound : SoundBody c) (hown : Owned t c.clientFd c.bodyFd) :
    Legal t calls ∧ Owned (after t calls) c.clientFd c'.bodyFd ∧ SoundBody c' := by
  cases h with
  | kept hbody hheaders =>
    rw [hbody]
    refine ⟨trivial, hown, fun hnone => ?_, ?_⟩
    · rw [hbody]
      exact hsound.unmade (hheaders hnone)
    · rw [hbody]
      exact hsound.valid
  | opened b hunmade hmade hbody =>
    rw [hsound.unmade hunmade] at hown
    have hfree : t b = none := hfresh.1
    have hpos : b ≠ 0 := by
      rintro rfl
      exact absurd (hfree.symm.trans hzero) (by simp)
    rw [hbody]
    refine ⟨⟨hfree, trivial⟩, hown.acquire, fun hnone => absurd hnone hmade, ?_⟩
    rw [hbody]
    omega
  | exchanged b b' hunmade hmade hbody =>
    rw [hsound.unmade hunmade] at hown
    obtain ⟨hfree, -, hfree', -⟩ := hfresh
    have hpos : b' ≠ 0 := by
      rintro rfl
      have hlegal : Legal t [.acquire b (.body c.clientFd), .release b (.body c.clientFd)] :=
        ⟨hfree, Function.update_self .., trivial⟩
      have hzero' := (hlegal.after_of_kind_ne (n := 0) (k := .other) (by simp [Call.kind])).mpr hzero
      exact absurd (hfree'.symm.trans hzero') (by simp)
    rw [hbody]
    refine ⟨⟨hfree, Function.update_self .., hfree', trivial⟩, hown.acquire.release.acquire,
      fun hnone => absurd hnone hmade, ?_⟩
    rw [hbody]
    omega
  | sent hopen hbody hheaders =>
    obtain ⟨b, hb, hnat⟩ := hsound.exists_nat hopen
    rw [hbody, hnat]
    refine ⟨⟨(hown b).mpr hb.symm, trivial⟩, hown, fun hnone => ?_, ?_⟩
    · rw [hbody]
      exact hsound.unmade (hheaders ▸ hnone)
    · rw [hbody]
      exact hsound.valid
  | finished hopen hbody =>
    obtain ⟨b, hb, hnat⟩ := hsound.exists_nat hopen
    rw [hbody, hnat]
    rw [hb] at hown
    exact ⟨⟨(hown b).mpr rfl, (hown b).mpr rfl, trivial⟩, hown.release, fun _ => hbody,
      Or.inl hbody⟩

theorem BodyTurn.of_eq {c₀ : QueueConnectionElementType} (h : BodyTurn c c' calls)
    (hbody : c.bodyFd = c₀.bodyFd) (hheaders : c.responseBufferHeaders = c₀.responseBufferHeaders)
    (hfd : c.clientFd = c₀.clientFd) : BodyTurn c₀ c' calls := by
  cases h with
  | kept hsame hnone => exact .kept (hsame.trans hbody) fun h => hheaders ▸ hnone h
  | opened b hunmade hmade hb =>
    rw [hfd]
    exact .opened b (hheaders ▸ hunmade) hmade hb
  | exchanged b b' hunmade hmade hb =>
    rw [hfd]
    exact .exchanged b b' (hheaders ▸ hunmade) hmade hb
  | sent hopen hsame hnone =>
    rw [hfd, hbody]
    exact .sent (hbody ▸ hopen) (hsame.trans hbody) (hnone.trans hheaders)
  | finished hopen hclosed =>
    rw [hfd, hbody]
    exact .finished (hbody ▸ hopen) hclosed

/-! ### The cases of a step -/

theorem encodeBody_bodyFd {options : Options} {env : ResponseEnv} {disk : Disk} {file : File}
    {built : Built} (h : encodeBody options env disk file c = some built) :
    built.connection.bodyFd =
      if acceptsGzip c.requestHeaders then (env.gzipFd : ℤ) else c.bodyFd := by
  rcases encodeBody_cases h with ⟨hgzip, size, -, hc⟩ | ⟨hplain, -, hc⟩
  · rw [if_pos hgzip, hc]
  · rw [if_neg hplain, hc]

theorem makeResponse_turn {options : Options} {env : ResponseEnv} {disk : Disk} {built : Built}
    (hunmade : c.responseBufferHeaders = none)
    (h : makeResponse options env disk c = some built) :
    BodyTurn c built.connection (makeResponseCalls env c) := by
  obtain ⟨-, -, file, code, size, -, -, -, printed, encoded, -, -, -, -, hencoded, -, -, -,
    rfl⟩ := makeResponse_inv h
  have hbody := encodeBody_bodyFd hencoded
  unfold makeResponseCalls makeContentEncodingCalls
  simp only at hbody
  split at hbody
  · rw [if_pos ‹_›]
    exact .exchanged _ _ hunmade (by simp) hbody
  · rw [if_neg ‹_›]
    exact .opened _ hunmade (by simp) hbody

end Turns

/-- The connection is neither re-armed nor closed. -/
def Quiet (effects : List Effect) : Prop := .rearmed ∉ effects ∧ .closed ∉ effects

theorem quiet_effectOf {effect : Bytes → Effect} (h : ∀ bytes, Quiet [effect bytes])
    (bytes : Bytes) : Quiet (effectOf effect bytes) := by
  unfold effectOf
  split
  · exact ⟨List.not_mem_nil, List.not_mem_nil⟩
  · exact h bytes

/-- Everything a step of the loop can do to descriptors: turn over the body of its record, free the
record and begin a new request, free it and close the client, or end without a record. -/
inductive EventLoop.Called (q : QueueConnectionsType) (e : EventLoop) (sys : Sys)
    (calls : List DescriptorCall) : QueueConnectionsType → EventLoop → Prop
  | turned (c : QueueConnectionElementType) (pc : Pc) (effects : List Effect) : pc ≠ .ended →
      Quiet effects → (pc = .sendBody → c.bodyFd ≠ -1) → BodyTurn (q.connections e.slot) c calls →
      Called q e sys calls (q.setConnection e.slot c) (e.goto pc effects)
  | updated (q' : QueueConnectionsType) :
      updateQueueConnection q e.clientFd sys.now sys.mem = some q' →
      calls = updateQueueConnectionCalls q e.clientFd →
      Called q e sys calls q' (e.goto .ended [.logged, .rearmed])
  | dequeued : calls = dequeueConnectionByFdCalls q e.clientFd ++ closeEpollClientCalls e.clientFd →
      Called q e sys calls (dequeueConnectionByFd q e.clientFd) (e.goto .ended [.closed])
  | absent (effects : List Effect) : ¬ existsConnection q e.clientFd →
      Called q e sys calls q (e.goto .ended effects)

section Cases

variable {options : Options} {q q' : QueueConnectionsType} {e e' : EventLoop} {sys : Sys}
  {c c' : QueueConnectionElementType}

theorem EventLoop.Called.kept {pc : Pc} {effects : List Effect} (heffects : Quiet effects)
    (hpc : pc ≠ .ended) (hbody : c'.bodyFd = (q.connections e.slot).bodyFd)
    (hheaders : c'.responseBufferHeaders = (q.connections e.slot).responseBufferHeaders)
    (hopen : pc = .sendBody → c'.bodyFd ≠ -1) :
    e.Called q sys [] (q.setConnection e.slot c') (e.goto pc effects) :=
  .turned c' pc effects hpc heffects hopen (.kept hbody fun hnone => hheaders ▸ hnone)

theorem sendResponseFileTurn_turn (bodyFile : Bytes) (r : SendResult) (hopen : c.bodyFd ≠ -1) :
    BodyTurn c (sendResponseFileTurn c bodyFile r).connection
      (sendResponseFileCalls c bodyFile r) ∧
      ((sendResponseFileTurn c bodyFile r).repeats = true →
        (sendResponseFileTurn c bodyFile r).connection.bodyFd ≠ -1) := by
  -- the turns that leave the body open
  have hsent : (sendResponseFileTurn c bodyFile r).connection.bodyFd = c.bodyFd →
      (sendResponseFileTurn c bodyFile r).connection.responseBufferHeaders =
        c.responseBufferHeaders →
      BodyTurn c (sendResponseFileTurn c bodyFile r).connection
        (sendResponseFileCalls c bodyFile r) := by
    intro hbody hheaders
    unfold sendResponseFileCalls
    rw [if_neg (by rw [hbody]; exact hopen)]
    exact .sent hopen hbody hheaders
  have hfinished : (sendResponseFileTurn c bodyFile r).connection.bodyFd = -1 →
      BodyTurn c (sendResponseFileTurn c bodyFile r).connection
        (sendResponseFileCalls c bodyFile r) := by
    intro hbody
    unfold sendResponseFileCalls
    rw [if_pos hbody]
    exact .finished hopen hbody
  cases r with
  | eintr => exact ⟨hsent rfl rfl, fun _ => hopen⟩
  | error => exact ⟨hsent rfl rfl, nofun⟩
  | eagain =>
    by_cases hall : c.bodyOffset = c.bodyLength
    · have hturn : sendResponseFileTurn c bodyFile .eagain = ⟨bodySent c, [], false⟩ := if_pos hall
      rw [hturn] at hfinished ⊢
      exact ⟨hfinished rfl, nofun⟩
    · have hturn : sendResponseFileTurn c bodyFile .eagain = ⟨c, [], false⟩ := if_neg hall
      rw [hturn] at hsent ⊢
      exact ⟨hsent rfl rfl, nofun⟩
  | sent count =>
    unfold sendResponseFileTurn at hsent hfinished ⊢
    simp only at hsent hfinished ⊢
    split
    · rw [if_pos ‹_›] at hsent
      exact ⟨hsent rfl rfl, nofun⟩
    · rw [if_neg ‹_›] at hsent hfinished
      split
      · rw [if_pos ‹_›] at hfinished
        exact ⟨hfinished rfl, nofun⟩
      · rw [if_neg ‹_›] at hsent
        exact ⟨hsent rfl rfl, fun _ => hopen⟩

theorem respond_called (hbody : c.bodyFd = (q.connections e.slot).bodyFd)
    (hheaders : c.responseBufferHeaders = (q.connections e.slot).responseBufferHeaders)
    (hfd : c.clientFd = (q.connections e.slot).clientFd)
    (h : e.respond options q sys c = some (q', e')) :
    e.Called q sys (respondCalls sys c) q' e' := by
  unfold EventLoop.respond at h
  unfold respondCalls
  split at h
  · rw [if_pos ‹_›]
    obtain ⟨built, hbuilt, h⟩ := Option.map_eq_some_iff.mp h
    obtain ⟨rfl, rfl⟩ := Prod.mk.inj h
    exact .turned built.connection .sendHeaders [] nofun (by simp [Quiet]) nofun
      ((makeResponse_turn ‹_› hbuilt).of_eq hbody hheaders hfd)
  · rw [if_neg ‹_›]
    obtain ⟨rfl, rfl⟩ := Prod.mk.inj (Option.some.inj h)
    exact .kept (by simp [Quiet]) nofun hbody hheaders nofun

theorem sendHeadersCase_called
    (h : e.sendHeadersCase options q sys (q.connections e.slot) = some (q', e')) :
    e.Called q sys (sendHeadersCaseCalls options sys (q.connections e.slot)) q' e' := by
  unfold EventLoop.sendHeadersCase at h
  unfold sendHeadersCaseCalls
  split at h
  · rw [if_pos ‹_›]
    obtain ⟨⟨valid, c₁⟩, hparse, h⟩ := Option.bind_eq_some_iff.mp h
    obtain ⟨_, _, _, _, _, _, _, _, hc₁⟩ := processRequest_inv hparse
    have hbody : c₁.bodyFd = (q.connections e.slot).bodyFd := by rw [hc₁]
    have hheaders :
        c₁.responseBufferHeaders = (q.connections e.slot).responseBufferHeaders := by rw [hc₁]
    have hfd : c₁.clientFd = (q.connections e.slot).clientFd := by rw [hc₁]
    simp only [hparse]
    simp only at h
    split at h
    · rw [if_pos ‹_›]
      obtain ⟨rfl, rfl⟩ := Prod.mk.inj (Option.some.inj h)
      exact .kept (by simp [Quiet]) nofun hbody hheaders nofun
    · rw [if_neg ‹_›]
      split at h
      · rw [if_pos ‹_›]
        obtain ⟨rfl, rfl⟩ := Prod.mk.inj (Option.some.inj h)
        exact .kept (by simp [Quiet]) nofun hbody hheaders nofun
      · rw [if_neg ‹_›]
        split at h
        · rw [if_pos ‹_›]
          obtain ⟨rfl, rfl⟩ := Prod.mk.inj (Option.some.inj h)
          exact .kept (by simp [Quiet]) nofun hbody hheaders nofun
        · rw [if_neg ‹_›]
          exact respond_called hbody hheaders hfd h
  · rw [if_neg ‹_›]
    exact respond_called rfl rfl rfl h

/-- **The calls of a step of the loop.** -/
theorem EventLoop.step_called (hopen : e.pc = .sendBody → (q.connections e.slot).bodyFd ≠ -1)
    (h : e.step options q sys = some (q', e')) : e.Called q sys (e.calls options q sys) q' e' := by
  unfold EventLoop.step at h
  unfold EventLoop.calls
  simp only at h ⊢
  cases hpc : e.pc with
  | «switch» =>
    simp only [hpc] at h ⊢
    cases hstate : (q.connections e.slot).state with
    | recv =>
      simp only [hstate] at h ⊢
      obtain ⟨rfl, rfl⟩ := Prod.mk.inj (Option.some.inj h)
      exact .kept (by simp [Quiet]) nofun rfl rfl nofun
    | sendHeaders =>
      simp only [hstate] at h ⊢
      exact sendHeadersCase_called h
    | sendBody =>
      simp only [hstate] at h ⊢
      split at h <;> obtain ⟨rfl, rfl⟩ := Prod.mk.inj (Option.some.inj h)
      · exact .kept (by simp [Quiet]) nofun rfl rfl nofun
      · exact .kept (by simp [Quiet]) nofun rfl rfl fun _ => ‹_›
    | done =>
      simp only [hstate] at h ⊢
      rcases doneCase_cases h with ⟨hkeep, hexists, hupdate, rfl⟩ | ⟨-, hgone, rfl, rfl⟩ |
        ⟨hkeep, heq⟩
      · rw [if_pos ⟨hkeep, hexists⟩]
        exact .updated _ hupdate rfl
      · rw [if_neg fun hboth => hgone hboth.2]
        exact .absent [.logged] hgone
      · rw [if_neg fun hboth => hkeep hboth.1]
        obtain ⟨rfl, rfl⟩ := Prod.mk.inj heq
        exact .kept (by simp [Quiet]) nofun rfl rfl nofun
    | doneForClose =>
      simp only [hstate] at h ⊢
      rcases closeCase_cases (Option.some.inj h) with ⟨hexists, rfl, rfl⟩ | ⟨hgone, rfl, rfl⟩
      · rw [if_pos hexists]
        exact .dequeued rfl
      · rw [if_neg hgone]
        exact .absent [] hgone
  | recv =>
    simp only [hpc] at h ⊢
    obtain ⟨⟨c, repeats⟩, hturn, h⟩ := Option.map_eq_some_iff.mp h
    obtain ⟨rfl, rfl⟩ := Prod.mk.inj h
    obtain ⟨buffer, offset, state, -, rfl⟩ := recvRequestTurn_inv hturn
    exact .kept (quiet_effectOf (by simp [Quiet]) _) (by split <;> simp) rfl rfl (by split <;> simp)
  | sendHeaders =>
    simp only [hpc] at h ⊢
    obtain ⟨turn, hturn, h⟩ := Option.map_eq_some_iff.mp h
    obtain ⟨rfl, rfl⟩ := Prod.mk.inj h
    obtain ⟨offset, state, -, hc⟩ := sendResponseHeadersTurn_inv hturn
    rw [hc]
    exact .kept (quiet_effectOf (by simp [Quiet]) _) (by split <;> simp) rfl rfl (by split <;> simp)
  | sendBody =>
    simp only [hpc] at h ⊢
    obtain ⟨rfl, rfl⟩ := Prod.mk.inj (Option.some.inj h)
    obtain ⟨hturn, hrepeats⟩ := sendResponseFileTurn_turn sys.bodyFile sys.send (hopen hpc)
    refine .turned _ _ _ (by split <;> simp) (quiet_effectOf (by simp [Quiet]) _)
      (fun hpc' => hrepeats ?_) hturn
    by_contra hends
    rw [if_neg hends] at hpc'
    cases hpc'
  | sendAll buffer leftToWrite =>
    simp only [hpc] at h ⊢
    split at h
    · obtain ⟨rfl, rfl⟩ := Prod.mk.inj (Option.some.inj h)
      exact .kept (by simp [Quiet]) nofun rfl rfl nofun
    · split at h <;> obtain ⟨rfl, rfl⟩ := Prod.mk.inj (Option.some.inj h)
      · exact .kept (quiet_effectOf (by simp [Quiet]) _) nofun rfl rfl nofun
      · exact .kept (by simp [Quiet]) nofun rfl rfl nofun
  | ended =>
    simp only [hpc] at h
    cases h

end Cases

/-! ### The table and the queue -/

/-- The body that the record of a client holds, -1 without a record. -/
def QueueConnectionsType.bodyOf (q : QueueConnectionsType) (fd : ℕ) : ℤ :=
  (getConnectionByFd q fd).elim (-1) QueueConnectionElementType.bodyFd

/-- Each record is an open client's, and holds what is open for the client. -/
structure Held (t : Table Descriptor) (q : QueueConnectionsType) : Prop where
  owned : ∀ fd, Owned t fd (q.bodyOf fd)
  client : ∀ fd c, getConnectionByFd q fd = some c → t fd = some .client
  sound : ∀ fd c, getConnectionByFd q fd = some c → SoundBody c

section Holding

variable {t : Table Descriptor} {q q' : QueueConnectionsType} {calls : List DescriptorCall}
  {fd : ℕ} {c : QueueConnectionElementType} {r : Option QueueConnectionElementType}

theorem bodyOf_update
    (hmap : getConnectionByFd q' = Function.update (getConnectionByFd q) fd r) :
    q'.bodyOf fd = r.elim (-1) QueueConnectionElementType.bodyFd := by
  unfold QueueConnectionsType.bodyOf
  rw [hmap, Function.update_self]

theorem Held.none_open (h : Held t q) (hbody : q.bodyOf fd = -1) (b : ℕ) :
    t b ≠ some (.body fd) := by
  intro hb
  have := (h.owned fd b).mp hb
  omega

theorem after_client (hlegal : Legal t calls) (hkind : ∀ call ∈ calls, call.kind = .body fd)
    (n : ℕ) : after t calls n = some .client ↔ t n = some .client :=
  hlegal.after_of_kind_ne fun call hcall => by rw [hkind call hcall]; simp

theorem Held.update (h : Held t q) (hlegal : Legal t calls)
    (hkind : ∀ call ∈ calls, call.kind = .body fd)
    (hmap : getConnectionByFd q' = Function.update (getConnectionByFd q) fd r)
    (hown : Owned (after t calls) fd (r.elim (-1) QueueConnectionElementType.bodyFd))
    (hclient : t fd = some .client) (hr : ∀ c, r = some c → SoundBody c) :
    Held (after t calls) q' := by
  refine ⟨fun fd' => ?_, fun fd' c hc => ?_, fun fd' c hc => ?_⟩
  · by_cases hfd : fd' = fd
    · rw [hfd, bodyOf_update hmap]
      exact hown
    · unfold QueueConnectionsType.bodyOf
      rw [hmap, Function.update_of_ne hfd]
      refine (h.owned fd').of_kind_ne hlegal fun call hcall => ?_
      rw [hkind call hcall]
      simpa using Ne.symm hfd
  · rw [after_client hlegal hkind]
    by_cases hfd : fd' = fd
    · rw [hfd]
      exact hclient
    · rw [hmap, Function.update_of_ne hfd] at hc
      exact h.client fd' c hc
  · by_cases hfd : fd' = fd
    · rw [hmap, hfd, Function.update_self] at hc
      exact hr c hc
    · rw [hmap, Function.update_of_ne hfd] at hc
      exact h.sound fd' c hc

theorem Held.owned_record (h : Held t q) (hc : getConnectionByFd q fd = some c) :
    Owned t fd c.bodyFd := by
  have := h.owned fd
  unfold QueueConnectionsType.bodyOf at this
  rwa [hc] at this

/-- An open body is held by one record. -/
theorem Held.existsUnique_slot (h : Held t q) (he : q.IndexExact) {b : ℕ}
    (hb : t b = some (.body fd)) :
    ∃! slot, slot < q.currentSize ∧ (q.connections slot).bodyFd = b := by
  have hbody := (h.owned fd b).mp hb
  unfold QueueConnectionsType.bodyOf at hbody
  cases hc : getConnectionByFd q fd with
  | none =>
    rw [hc] at hbody
    simp at hbody
  | some c =>
    rw [hc] at hbody
    obtain ⟨slot, hslot, rfl⟩ := Option.map_eq_some_iff.mp hc
    refine ⟨slot, ⟨(he.name_pos _ _ hslot).1, hbody.symm⟩, ?_⟩
    rintro slot' ⟨hlt, hbody'⟩
    -- the client of another slot that held it would be the same
    have hopen := (h.owned_record (getConnectionByFd_fd he hlt) b).mpr hbody'.symm
    have hfd : q.fd slot' = fd := by
      have := hopen.symm.trans hb
      simpa using this
    have hindex := he.pos_name slot' hlt
    rw [hfd] at hindex
    exact Option.some.inj (hindex.symm.trans hslot)

theorem closeClient_kind (c : QueueConnectionElementType) (fd : ℕ) :
    ∀ call ∈ freeConnectionCalls c ++ closeEpollClientCalls fd, call.kind ≠ .other := by
  intro call hcall
  rcases List.mem_append.mp hcall with hcall | hcall
  · rw [freeConnectionCalls_kind _ call hcall]
    simp
  · rw [List.mem_singleton.mp hcall]
    simp [Call.kind]

theorem Held.close (h : Held t q) (hc : getConnectionByFd q fd = some c) (hfd : c.clientFd = fd)
    (hmap : getConnectionByFd q' = Function.update (getConnectionByFd q) fd none) :
    Legal t (freeConnectionCalls c ++ closeEpollClientCalls fd) ∧
      Held (after t (freeConnectionCalls c ++ closeEpollClientCalls fd)) q' ∧
      ∀ n, n ≠ fd → t n = some .client →
        after t (freeConnectionCalls c ++ closeEpollClientCalls fd) n = some .client := by
  subst hfd
  have hclient := h.client _ c hc
  have hkind := freeConnectionCalls_kind c
  obtain ⟨hlegal, hown⟩ := freeConnectionCalls_spec (h.sound _ c hc) (h.owned_record hc)
  have hfreed : Held (after t (freeConnectionCalls c)) q' :=
    h.update hlegal hkind hmap hown hclient fun c hc => by cases hc
  have hsocket : Legal (after t (freeConnectionCalls c)) (closeEpollClientCalls c.clientFd) :=
    ⟨(after_client hlegal hkind _).mpr hclient, trivial⟩
  have hother : ∀ n, n ≠ c.clientFd →
      after t (freeConnectionCalls c ++ closeEpollClientCalls c.clientFd) n =
        after t (freeConnectionCalls c) n := by
    intro n hn
    rw [after_append]
    exact Function.update_of_ne hn ..
  refine ⟨legal_append.mpr ⟨hlegal, hsocket⟩, ⟨fun fd' => ?_, fun fd' c' hc' => ?_, hfreed.sound⟩,
    fun n hn hopen => ?_⟩
  · rw [after_append]
    refine (hfreed.owned fd').of_kind_ne hsocket fun call hcall => ?_
    rw [List.mem_singleton.mp hcall]
    simp [Call.kind]
  · have hne : fd' ≠ c.clientFd := by
      rintro rfl
      rw [hmap, Function.update_self] at hc'
      cases hc'
    rw [hother fd' hne]
    exact hfreed.client fd' c' hc'
  · rw [hother n hn]
    exact (after_client hlegal hkind n).mpr hopen

theorem Held.create {now : ℤ} {mem : RequestBlock} (h : Held t q) (hclient : t fd = some .client)
    (hmap : getConnectionByFd q' = Function.update (getConnectionByFd q) fd
      (some ((getConnectionByFd q fd).getD (freshConnection fd now mem)))) : Held t q' := by
  have hown := h.owned fd
  unfold QueueConnectionsType.bodyOf at hown
  have hsound := h.sound fd
  have hlegal : Legal t ([] : List DescriptorCall) := trivial
  refine h.update hlegal (by simp) hmap ?_ hclient fun c hc => ?_
  · cases hrecord : getConnectionByFd q fd with
    | none =>
      rw [hrecord] at hown
      exact hown
    | some c =>
      rw [hrecord] at hown
      exact hown
  · obtain rfl := Option.some.inj hc
    cases hrecord : getConnectionByFd q fd with
    | none => exact soundBody_fresh fd now mem
    | some c => exact hsound c hrecord

theorem Held.accept (h : Held t q) (hfree : t fd = none) :
    Held (after t [.acquire fd .client]) q := by
  have hlegal : Legal t [.acquire fd .client] := ⟨hfree, trivial⟩
  refine ⟨fun fd' => (h.owned fd').of_kind_ne hlegal fun call hcall => ?_, fun fd' c hc => ?_,
    h.sound⟩
  · rw [List.mem_singleton.mp hcall]
    simp [Call.kind]
  · have hopen := h.client fd' c hc
    by_cases hfd : fd' = fd
    · rw [hfd] at hopen
      exact absurd (hfree.symm.trans hopen) (by simp)
    · exact (Function.update_of_ne hfd ..).trans hopen

end Holding

/-! ### The thread -/

theorem dequeueConnectionByFdCalls_eq {q : QueueConnectionsType} {fd index : ℕ} (he : q.IndexExact)
    (hi : q.indexQueue fd = some index) :
    dequeueConnectionByFdCalls q fd = freeConnectionCalls (q.connections index) := by
  have hsize : q.currentSize ≠ 0 := Nat.ne_zero_of_lt (he.name_pos _ _ hi).1
  unfold dequeueConnectionByFdCalls
  rw [if_neg hsize, hi]

theorem updateQueueConnectionCalls_eq {q : QueueConnectionsType} {fd index : ℕ}
    (hi : q.indexQueue fd = some index) :
    updateQueueConnectionCalls q fd = freeConnectionCalls (q.connections index) := by
  unfold updateQueueConnectionCalls
  rw [hi]

/-- The clients whose events are not taken up yet. -/
def Worker.waitingClients (w : Worker) : List ℕ := w.phase.pending.filterMap Event.fd

/-- A thread whose records hold what is open, with one event to come for each of some open clients,
and none for the client it serves. -/
structure Worker.Holding (clock : ℤ) (t : Table Descriptor) (w : Worker) : Prop where
  worker : w.Sound clock
  held : Held t w.queue
  once : w.waitingClients.Nodup
  sockets : ∀ fd ∈ w.waitingClients, t fd = some .client
  served : ∀ e ∈ w.phase.loop, e.pc ≠ .ended → e.clientFd ∉ w.waitingClients
  sending : ∀ e ∈ w.phase.loop, e.pc = .sendBody → (w.queue.connections e.slot).bodyFd ≠ -1

section Thread

variable {options : Options} {clock now : ℤ} {t : Table Descriptor} {w w' : Worker}
  {a : WorkerAction} {effects : List (ℕ × Effect)}

theorem Worker.Holding.rested (h : w.Holding clock t) (hs : w'.Sound now)
    (hqueue : w'.queue = w.queue) (hloop : w'.phase.loop = none)
    (hpending : w'.phase.pending.Sublist w.phase.pending) : w'.Holding now t where
  worker := hs
  held := hqueue ▸ h.held
  once := h.once.sublist (hpending.filterMap Event.fd)
  sockets := fun fd hfd => h.sockets fd ((hpending.filterMap Event.fd).subset hfd)
  served := fun e he => by rw [hloop] at he; cases he
  sending := fun e he => by rw [hloop] at he; cases he

theorem Worker.Holding.loopEnded {queue : QueueConnectionsType} {e : EventLoop} {events : List Event}
    (hs : Worker.Sound now ⟨queue, .handling e events⟩) (hpc : e.pc = .ended) (hheld : Held t queue)
    (honce : (events.filterMap Event.fd).Nodup)
    (hsockets : ∀ fd ∈ events.filterMap Event.fd, t fd = some .client) :
    Worker.Holding now t ⟨queue, .handling e events⟩ := by
  refine ⟨hs, hheld, honce, hsockets, fun e₁ he₁ hpc₁ => ?_, fun e₁ he₁ hpc₁ => ?_⟩
  · obtain rfl := Option.some.inj he₁
    exact absurd hpc hpc₁
  · obtain rfl := Option.some.inj he₁
    rw [hpc] at hpc₁
    cases hpc₁

/-- What a step keeps, with what it says about the calls and the effects. -/
structure Worker.Kept (t : Table Descriptor) (clock : ℤ) (calls : List DescriptorCall) (w' : Worker)
    (effects : List (ℕ × Effect)) : Prop where
  legal : Legal t calls
  kind : ∀ call ∈ calls, call.kind ≠ .other
  holding : w'.Holding clock (after t calls)
  released : ∀ fd, (fd, .rearmed) ∈ effects ∨ (fd, .closed) ∈ effects → w'.queue.bodyOf fd = -1

theorem Worker.Kept.silent (h : w'.Holding clock t) : Worker.Kept t clock [] w' [] :=
  ⟨trivial, by simp, h, by simp⟩

theorem Worker.Holding.called (h : w.Holding clock t) {e e' : EventLoop} {events : List Event}
    {sys : Sys} {queue : QueueConnectionsType} (hp : w.phase = .handling e events)
    (hle : clock ≤ sys.now) (hs : Worker.Sound sys.now ⟨queue, .handling e' events⟩)
    (hzero : t 0 = some .other) (hfresh : FreshNumbers t (e.calls options w.queue sys))
    (hcall : e.step options w.queue sys = some (queue, e')) :
    Worker.Kept t sys.now (e.calls options w.queue sys) ⟨queue, .handling e' events⟩
      ((e'.effects.drop e.effects.length).map fun effect => (e.clientFd, effect)) := by
  have hloop : w.phase.loop = some e := by rw [hp]; rfl
  have hpc := EventLoop.step_ended hcall
  have htimed := h.worker.timed
  have hi := h.worker.slot e hloop hpc
  have hrecord := h.worker.record hloop hpc
  have hfd : (w.queue.connections e.slot).clientFd = e.clientFd := (htimed.exact.name_pos _ _ hi).2
  have hsound := h.held.sound _ _ hrecord
  have hclient := h.held.client _ _ hrecord
  have hown := h.held.owned_record hrecord
  have hwaiting : w.waitingClients = events.filterMap Event.fd := by
    unfold Worker.waitingClients
    rw [hp]
    rfl
  have hserved := h.served e hloop hpc
  have honce := h.once
  have hsockets := h.sockets
  rw [hwaiting] at hserved honce hsockets
  have hcalled := EventLoop.step_called (h.sending e hloop) hcall
  cases hcalled with
  | turned c pc effects hne hquiet hopen hturn =>
    obtain ⟨hlegal, hown', hsound'⟩ := hturn.spec hfresh hzero hsound (hfd ▸ hown)
    have hkind := hturn.kind
    rw [hfd] at hkind hown'
    rw [EventLoop.goto_newEffects]
    refine ⟨hlegal, fun call hcall => by rw [hkind call hcall]; simp, ⟨hs, ?_, honce, ?_, ?_, ?_⟩, ?_⟩
    · exact h.held.update hlegal hkind (setConnection_map htimed.exact hi) hown' hclient
        fun c' hc' => Option.some.inj hc' ▸ hsound'
    · exact fun fd hwait => (after_client hlegal hkind fd).mpr (hsockets fd hwait)
    · intro e₁ he₁ _
      obtain rfl := Option.some.inj he₁
      exact hserved
    · intro e₁ he₁ hpc₁
      obtain rfl := Option.some.inj he₁
      have hslot : (w.queue.setConnection e.slot c).connections e.slot = c := by
        simp [setConnection]
      show ((w.queue.setConnection e.slot c).connections e.slot).bodyFd ≠ -1
      rw [hslot]
      exact hopen hpc₁
    · intro fd hfd'
      rcases hfd' with hin | hin
      · obtain ⟨effect, heffect, heq⟩ := List.mem_map.mp hin
        obtain ⟨-, rfl⟩ := Prod.mk.inj heq
        exact absurd heffect hquiet.1
      · obtain ⟨effect, heffect, heq⟩ := List.mem_map.mp hin
        obtain ⟨-, rfl⟩ := Prod.mk.inj heq
        exact absurd heffect hquiet.2
  | updated q' hupdate hcalls =>
    obtain ⟨hlegal, hown'⟩ := freeConnectionCalls_spec hsound (hfd ▸ hown)
    have hkind := freeConnectionCalls_kind (w.queue.connections e.slot)
    rw [updateQueueConnectionCalls_eq hi] at hcalls
    rw [← hcalls] at hlegal hown' hkind
    rw [hfd] at hown' hkind
    obtain ⟨q'', hq'', -, -, hmap⟩ := updateQueueConnection_spec sys.mem htimed.exact htimed.sized hi
      (htimed.not_updateTurns hle)
    obtain rfl := Option.some.inj (hupdate.symm.trans hq'')
    have hheld := h.held.update hlegal hkind hmap hown' hclient
      fun c hc => Option.some.inj hc ▸ soundBody_fresh _ _ _
    have hopen : ∀ fd ∈ events.filterMap Event.fd,
        after t (e.calls options w.queue sys) fd = some .client :=
      fun fd hwait => (after_client hlegal hkind fd).mpr (hsockets fd hwait)
    refine ⟨hlegal, fun call hcall => by rw [hkind call hcall]; simp,
      .loopEnded hs rfl hheld honce hopen, fun fd hin => ?_⟩
    have hfd' : fd = e.clientFd := by
      rw [EventLoop.goto_newEffects] at hin
      simpa using hin
    rw [hfd', bodyOf_update hmap]
    rfl
  | dequeued hcalls =>
    rw [dequeueConnectionByFdCalls_eq htimed.exact hi] at hcalls
    obtain ⟨-, -, hmap⟩ := dequeueConnectionByFd_spec htimed.exact htimed.sized e.clientFd
    obtain ⟨hlegal, hheld, hothers⟩ := h.held.close hrecord hfd hmap
    rw [← hcalls] at hlegal hheld hothers
    have hopen : ∀ fd ∈ events.filterMap Event.fd,
        after t (e.calls options w.queue sys) fd = some .client := by
      intro fd hwait
      refine hothers fd ?_ (hsockets fd hwait)
      rintro rfl
      exact hserved hwait
    refine ⟨hlegal, hcalls ▸ closeClient_kind _ _, .loopEnded hs rfl hheld honce hopen,
      fun fd hin => ?_⟩
    have hfd' : fd = e.clientFd := by
      rw [EventLoop.goto_newEffects] at hin
      simpa using hin
    rw [hfd', bodyOf_update hmap]
    rfl
  | absent effects habsent =>
    unfold existsConnection at habsent
    rw [hi] at habsent
    exact absurd rfl habsent

theorem Worker.Holding.sweepClose (h : w.Holding clock t) {start : ℤ} {fd : ℕ}
    (hs : ({ w with queue := dequeueConnectionByFd w.queue fd } : Worker).Sound clock)
    (hp : w.phase = .sweeping start) (hexpired : w.queue.expired start = some fd)
    (hexists : existsConnection w.queue fd) :
    Worker.Kept t clock (w.calls options .sweep)
      { w with queue := dequeueConnectionByFd w.queue fd } [(fd, .closed)] := by
  obtain ⟨c, hc, -⟩ := h.worker.timed.expired hexpired
  obtain ⟨index, hi, rfl⟩ := Option.map_eq_some_iff.mp hc
  obtain ⟨-, -, hmap⟩ := dequeueConnectionByFd_spec h.worker.timed.exact h.worker.timed.sized fd
  have hfd := (h.worker.timed.exact.name_pos _ _ hi).2
  obtain ⟨hlegal, hheld, -⟩ := h.held.close hc hfd hmap
  have hcalls : w.calls options .sweep =
      freeConnectionCalls (w.queue.connections index) ++ closeEpollClientCalls fd := by
    unfold Worker.calls
    simp only [hp, hexpired, hexists, if_true]
    rw [dequeueConnectionByFdCalls_eq h.worker.timed.exact hi]
  have hloop : w.phase.loop = none := by rw [hp]; rfl
  have hwaiting : w.waitingClients = [] := by
    unfold Worker.waitingClients
    rw [hp]
    rfl
  rw [hcalls]
  refine ⟨hlegal, closeClient_kind _ _, ⟨hs, hheld, h.once, fun fd' hwait => ?_, fun e he => ?_,
    fun e he => ?_⟩, fun fd' hin => ?_⟩
  · have hnone : fd' ∈ w.waitingClients := hwait
    rw [hwaiting] at hnone
    cases hnone
  · exact absurd (hloop.symm.trans he) nofun
  · exact absurd (hloop.symm.trans he) nofun
  · have hfd' : fd' = fd := by simpa using hin
    rw [hfd', bodyOf_update hmap]
    rfl

theorem Worker.Holding.client (h : w.Holding clock t) {mem : RequestBlock} {fd slot : ℕ}
    {events : List Event} {queue : QueueConnectionsType} (hle : clock ≤ now)
    (hs : Worker.Sound now ⟨queue, .handling (.start fd slot) events⟩)
    (hzero : t 0 = some .other) (hp : w.phase = .processing (.client fd true :: events))
    (hget : getConnectionOrCreateByFd w.queue fd now mem = some (queue, slot)) :
    Worker.Holding now t ⟨queue, .handling (.start fd slot) events⟩ := by
  have hwaiting : w.waitingClients = fd :: events.filterMap Event.fd := by
    unfold Worker.waitingClients
    rw [hp]
    rfl
  have honce := h.once
  have hsockets := h.sockets
  rw [hwaiting] at honce hsockets
  have hopen := hsockets fd List.mem_cons_self
  have hfd : ClientFd fd := by
    refine ⟨Nat.pos_of_ne_zero fun hfd => ?_, getConnectionOrCreateByFd_inIndexQueue hget⟩
    rw [hfd, hzero] at hopen
    cases hopen
  obtain ⟨q', index, hq', -, -, -, hmap⟩ := h.worker.timed.getConnectionOrCreateByFd hle hfd mem
  obtain ⟨rfl, rfl⟩ := Prod.mk.inj (Option.some.inj (hget.symm.trans hq'))
  refine ⟨hs, h.held.create hopen hmap, (List.nodup_cons.mp honce).2,
    fun fd' hwait => hsockets fd' (List.mem_cons_of_mem _ hwait), fun e he _ => ?_,
    fun e he hpc => ?_⟩
  · obtain rfl := Option.some.inj he
    exact (List.nodup_cons.mp honce).1
  · obtain rfl := Option.some.inj he
    cases hpc

theorem Worker.Holding.accept (h : w.Holding clock t) {fd : ℕ} (hs : w.Sound now)
    (hfree : t fd = none) : Worker.Kept t now (w.calls options (.accept fd)) w [] := by
  refine ⟨⟨hfree, trivial⟩, by simp [Worker.calls, Call.kind], ⟨hs, h.held.accept hfree, h.once,
    fun fd' hwait => ?_, h.served, h.sending⟩, by simp⟩
  have hopen := h.sockets fd' hwait
  have hne : fd' ≠ fd := by
    rintro rfl
    exact absurd (hfree.symm.trans hopen) (by simp)
  exact (Function.update_of_ne hne ..).trans hopen

/-- **What every step keeps.** -/
theorem Worker.Holding.step (h : w.Holding clock t) (htimely : a.Timely clock)
    (hevents : ∀ events, a = .epollWait events → (events.filterMap Event.fd).Nodup ∧
      ∀ fd ∈ events.filterMap Event.fd, t fd = some .client)
    (hzero : t 0 = some .other) (hfresh : FreshNumbers t (w.calls options a))
    (hstep : w.step options a = some (w', effects)) :
    Worker.Kept t (a.clock clock) (w.calls options a) w' effects := by
  have hs := (Worker.step_spec h.worker htimely hstep).1
  have hle := htimely.1
  cases Worker.step_cases hstep with
  | readTime now hp => exact .silent (h.rested hs rfl rfl (List.nil_sublist _))
  | sweepClose now fd hp hexpired hexists => exact h.sweepClose hs hp hexpired hexists
  | sweepStuck now fd hp hexpired hexists =>
    have hcalls : w.calls options .sweep = [] := by
      unfold Worker.calls
      simp only [hp, hexpired, hexists, Bool.false_eq_true, if_false]
    rw [hcalls]
    exact .silent (h.rested hs rfl (by rw [hp]; rfl) (List.Sublist.refl _))
  | sweepEnd now hp hexpired =>
    have hcalls : w.calls options .sweep = [] := by
      unfold Worker.calls
      simp only [hp, hexpired]
    rw [hcalls]
    exact .silent (h.rested hs rfl rfl (List.nil_sublist _))
  | epollWait events hp hlen =>
    obtain ⟨hnodup, hsockets⟩ := hevents events rfl
    refine .silent ⟨hs, h.held, hnodup, hsockets, fun e he => ?_, fun e he => ?_⟩
    · cases he
    · cases he
  | batchEnd now mem hp => exact .silent (h.rested hs rfl rfl (List.nil_sublist _))
  | server now mem events hp =>
    refine .silent (h.rested hs rfl rfl ?_)
    rw [hp]
    exact List.sublist_cons_self ..
  | client now mem fd events queue slot hp hget => exact .silent (h.client hle hs hzero hp hget)
  | skipped now mem fd events hp =>
    refine .silent (h.rested hs rfl rfl ?_)
    rw [hp]
    exact List.sublist_cons_self ..
  | accept fd events hp => exact h.accept hs hfresh.1
  | acceptEnd events hp =>
    refine .silent (h.rested hs rfl rfl ?_)
    rw [hp]
    exact List.Sublist.refl _
  | call sys e e' events queue hp hcall =>
    have hcalls : w.calls options (.call sys) = e.calls options w.queue sys := by
      unfold Worker.calls
      simp only [hp]
    rw [hcalls] at hfresh ⊢
    exact h.called hp hle hs hzero hfresh hcall
  | endEvent e events hp hended =>
    refine .silent (h.rested hs rfl rfl ?_)
    rw [hp]
    exact List.Sublist.refl _

end Thread

/-! ### The shutdown -/

section Shutdown

variable {t : Table Descriptor} {q : QueueConnectionsType}

/-- Freeing the records of different clients closes what is open for each, and nothing else. -/
theorem freeConnections_spec (cs : List QueueConnectionElementType)
    (hnodup : (cs.map QueueConnectionElementType.clientFd).Nodup)
    (hsound : ∀ c ∈ cs, SoundBody c) (hown : ∀ c ∈ cs, Owned t c.clientFd c.bodyFd) :
    Legal t (cs.flatMap freeConnectionCalls) ∧
      (∀ c ∈ cs, Owned (after t (cs.flatMap freeConnectionCalls)) c.clientFd (-1)) ∧
      ∀ fd bodyFd, fd ∉ cs.map QueueConnectionElementType.clientFd → Owned t fd bodyFd →
        Owned (after t (cs.flatMap freeConnectionCalls)) fd bodyFd := by
  induction cs generalizing t with
  | nil =>
    refine ⟨trivial, fun c hc => ?_, fun fd bodyFd _ h => h⟩
    cases hc
  | cons first cs ih =>
    rw [List.map_cons, List.nodup_cons] at hnodup
    obtain ⟨hlegal, hfreed⟩ :=
      freeConnectionCalls_spec (hsound first List.mem_cons_self) (hown first List.mem_cons_self)
    have hkind := freeConnectionCalls_kind first
    -- the first record leaves alone what is open for the others
    have hothers : ∀ {fd : ℕ} {bodyFd : ℤ}, fd ≠ first.clientFd → Owned t fd bodyFd →
        Owned (after t (freeConnectionCalls first)) fd bodyFd := by
      intro fd bodyFd hfd h
      refine h.of_kind_ne hlegal fun call hcall => ?_
      rw [hkind call hcall]
      simpa using Ne.symm hfd
    have hdistinct : ∀ c ∈ cs, c.clientFd ≠ first.clientFd := by
      intro c hc heq
      exact hnodup.1 (heq ▸ List.mem_map_of_mem hc)
    obtain ⟨hlegal', hfreed', hframe⟩ := ih hnodup.2
      (fun c hc => hsound c (List.mem_cons_of_mem _ hc))
      fun c hc => hothers (hdistinct c hc) (hown c (List.mem_cons_of_mem _ hc))
    rw [List.flatMap_cons, legal_append, after_append]
    refine ⟨⟨hlegal, hlegal'⟩, fun c hc => ?_, fun fd bodyFd hfd h => ?_⟩
    · rcases List.mem_cons.mp hc with rfl | hc
      · exact hframe _ _ hnodup.1 hfreed
      · exact hfreed' c hc
    · rw [List.map_cons, List.mem_cons, not_or] at hfd
      exact hframe fd bodyFd hfd.2 (hothers hfd.1 h)

/-- **The shutdown** closes every body that is open. -/
theorem shutdownCalls_spec (he : q.IndexExact) (h : Held t q) :
    Legal t (shutdownCalls q) ∧ (∀ call ∈ shutdownCalls q, call.kind ≠ .other) ∧
      ∀ b fd, after t (shutdownCalls q) b ≠ some (.body fd) := by
  have hrecord : ∀ c ∈ (List.range q.currentSize).map q.connections,
      getConnectionByFd q c.clientFd = some c := by
    intro c hc
    obtain ⟨slot, hslot, rfl⟩ := List.mem_map.mp hc
    exact getConnectionByFd_fd he (List.mem_range.mp hslot)
  have hnodup : (((List.range q.currentSize).map q.connections).map
      QueueConnectionElementType.clientFd).Nodup := by
    rw [List.map_map]
    refine List.Nodup.map_on (fun i hi j hj heq => ?_) List.nodup_range
    have hi' := he.pos_name i (List.mem_range.mp hi)
    have hj' := he.pos_name j (List.mem_range.mp hj)
    rw [show q.fd i = q.fd j from heq] at hi'
    exact Option.some.inj (hi'.symm.trans hj')
  obtain ⟨hlegal, hfreed, hframe⟩ := freeConnections_spec _ hnodup
    (fun c hc => h.sound _ c (hrecord c hc)) fun c hc => h.owned_record (hrecord c hc)
  refine ⟨hlegal, fun call hcall => ?_, fun b fd hopen => ?_⟩
  · obtain ⟨c, -, hcall⟩ := List.mem_flatMap.mp hcall
    rw [freeConnectionCalls_kind c call hcall]
    simp
  · have hnone : Owned (after t (shutdownCalls q)) fd (-1) := by
      by_cases hin : fd ∈ ((List.range q.currentSize).map q.connections).map
          QueueConnectionElementType.clientFd
      · obtain ⟨c, hc, rfl⟩ := List.mem_map.mp hin
        exact hfreed c hc
      · refine hframe fd (-1) hin ?_
        have hbody : q.bodyOf fd = -1 := by
          unfold QueueConnectionsType.bodyOf
          cases hc : getConnectionByFd q fd with
          | none => rfl
          | some c =>
            obtain ⟨slot, hslot, rfl⟩ := Option.map_eq_some_iff.mp hc
            obtain ⟨hlt, hfd⟩ := he.name_pos _ _ hslot
            exact absurd (List.mem_map.mpr ⟨_, List.mem_map_of_mem (List.mem_range.mpr hlt), hfd⟩) hin
        exact hbody ▸ h.owned fd
    have := (hnone b).mp hopen
    omega

end Shutdown

/-! ### Runs of the process -/

/-- What holds between two steps of a process. -/
structure Process.Sound (descriptors : Table Descriptor) (s : Process) : Prop where
  legal : Legal descriptors s.calls
  table : s.descriptors = after descriptors s.calls
  zero : s.descriptors 0 = some .other
  holding : s.running → s.worker.Holding s.clock s.descriptors
  released : ∀ fd, (fd, .rearmed) ∈ s.effects ∨ (fd, .closed) ∈ s.effects →
    ∀ b, s.descriptors b ≠ some (.body fd)
  stopped : ¬ s.running → ∀ b fd, s.descriptors b ≠ some (.body fd)

/-- **The life of the body descriptors** in a state that a run has come to.

Every call was on a descriptor that was open for what the caller took it to be; an open body is held
by one record of the queue; each body was closed at most once, is open if it was not closed, and was
not used after it was closed; when a client was re-armed or closed in the last step, or the thread
has ended, no body is left open for it. -/
structure BodyLifeCycle (descriptors : Table Descriptor) (s : Process) : Prop where
  legal : Legal descriptors s.calls
  held : s.running → ∀ b fd, s.descriptors b = some (.body fd) →
    ∃! slot, slot < s.worker.queue.currentSize ∧ (s.worker.queue.connections slot).bodyFd = b
  once : ∀ l l' b fd, s.calls = l ++ .acquire b (.body fd) :: l' →
    ReleasedOnce s.descriptors b (.body fd) l'
  released : ∀ fd, (fd, .rearmed) ∈ s.effects ∨ (fd, .closed) ∈ s.effects →
    ∀ b, s.descriptors b ≠ some (.body fd)
  stopped : ¬ s.running → ∀ b fd, s.descriptors b ≠ some (.body fd)

section Processes

variable {options : Options} {clock : ℤ} {descriptors : Table Descriptor} {s s' : Process}
  {a : ProcessAction}

/-- The descriptor 0 is taken, and no body is open. -/
def NoBodyOpen (descriptors : Table Descriptor) : Prop :=
  descriptors 0 = some .other ∧ ∀ b fd, descriptors b ≠ some (.body fd)

theorem held_create (h : NoBodyOpen descriptors) : Held descriptors createQueueConnections := by
  have hnone : ∀ fd, getConnectionByFd createQueueConnections fd = none := fun _ => rfl
  refine ⟨fun fd b => ?_, fun fd c hc => ?_, fun fd c hc => ?_⟩
  · have hbody : QueueConnectionsType.bodyOf createQueueConnections fd = -1 := rfl
    rw [hbody]
    exact iff_of_false (h.2 b fd) (by omega)
  · rw [hnone] at hc
    cases hc
  · rw [hnone] at hc
    cases hc

theorem Process.sound_init (h : NoBodyOpen descriptors) (clock : ℤ) :
    (Process.init clock descriptors).Sound descriptors := by
  refine ⟨trivial, rfl, h.1, fun _ => ?_, by simp [Process.init], by simp [Process.init]⟩
  refine ⟨Worker.sound_init clock, held_create h, List.nodup_nil, fun fd hfd => ?_,
    fun e he => ?_, fun e he => ?_⟩
  · cases hfd
  · cases he
  · cases he

/-- **What every step keeps.** -/
theorem Process.Sound.step (h : s.Sound descriptors) (hanswers : s.Answers options a)
    (hstep : s.next options a = some s') : s'.Sound descriptors := by
  obtain ⟨hfresh, hanswers⟩ := hanswers
  -- the calls of the step, behind those made before
  have hcalls : ∀ {calls : List DescriptorCall}, Legal s.descriptors calls →
      (∀ call ∈ calls, call.kind ≠ .other) → Legal descriptors (s.calls ++ calls) ∧
        after s.descriptors calls = after descriptors (s.calls ++ calls) ∧
        after s.descriptors calls 0 = some .other := by
    intro calls hlegal hkind
    refine ⟨legal_append.mpr ⟨h.legal, h.table ▸ hlegal⟩, ?_,
      (hlegal.after_of_kind_ne hkind).mpr h.zero⟩
    rw [after_append, ← h.table]
  unfold Process.next at hstep
  simp only at hstep
  by_cases hrunning : s.running = true
  · rw [if_pos hrunning] at hstep
    have hholding := h.holding hrunning
    cases a with
    | work action =>
      obtain ⟨⟨worker, effects⟩, hwork, rfl⟩ := Option.map_eq_some_iff.mp hstep
      obtain ⟨htimely, hevents⟩ := hanswers
      have hkept := hholding.step htimely (fun events heq => by subst heq; exact hevents) h.zero
        hfresh hwork
      obtain ⟨hlegal, htable, hzero⟩ := hcalls hkept.legal hkept.kind
      exact ⟨hlegal, htable, hzero, fun _ => hkept.holding,
        fun fd hin b => hkept.holding.held.none_open (hkept.released fd hin) b,
        fun hstopped => absurd rfl hstopped⟩
    | shutdown =>
      simp only at hstep
      split at hstep
      · obtain rfl := Option.some.inj hstep
        obtain ⟨hlegal, hkind, hnone⟩ :=
          shutdownCalls_spec hholding.worker.timed.exact hholding.held
        obtain ⟨hlegal, htable, hzero⟩ := hcalls hlegal hkind
        exact ⟨hlegal, htable, hzero, nofun, fun fd _ b => hnone b fd, fun _ => hnone⟩
      · cases hstep
  · rw [if_neg hrunning] at hstep
    cases hstep

/-- **The body descriptors of a run**, whatever the kernel answers. -/
theorem bodyLifeCycle {h : List (Transition Process ProcessAction)}
    (hnone : NoBodyOpen descriptors)
    (hrun : Run (ProcessStep options) (Process.init clock descriptors) h s)
    (hanswers : Guarded (fun s a => s.Answers options a) h) : BodyLifeCycle descriptors s := by
  have hsound : s.Sound descriptors := hrun.invariant_of_guard (Process.sound_init hnone clock)
    (fun _ _ _ hstep hanswers hsound => hsound.step hanswers hstep) hanswers
  refine ⟨hsound.legal, fun hrunning b fd hb => ?_, fun l l' b fd hcalls => ?_, hsound.released,
    hsound.stopped⟩
  · have hholding := hsound.holding hrunning
    exact hholding.held.existsUnique_slot hholding.worker.timed.exact hb
  · rw [hsound.table, hcalls]
    exact (hcalls ▸ hsound.legal).releasedOnce_of_acquired

end Processes

/-! ### A client served from a compressed copy -/

/-- The server has opened its first four descriptors. -/
def firstDescriptors : Table Descriptor := fun n => if n < 4 then some .other else none

def gzipPageRequest : Bytes :=
  bytes "GET / HTTP/1.1\r\nconnection: keep-alive\r\naccept-encoding: gzip\r\n\r\n"

/-- A client is accepted, and gets the compressed index page. Its copy is opened with the number that
the page had. -/
def gzipServed : List ProcessAction :=
  ([WorkerAction.readTime 100, .sweep, .epollWait [.server], .nextEvent 100 .zeroed, .accept 5,
    .acceptEnd, .nextEvent 100 .zeroed, .readTime 100, .sweep, .epollWait [.client 5 true],
    .nextEvent 100 .zeroed, .call (localSys 100),
    .call { localSys 100 with recv := .data gzipPageRequest },
    .call { localSys 100 with response := { localResponseEnv with gzipFd := 9 } },
    .call { localSys 100 with send := .sent 1024 }, .call (localSys 100),
    .call { localSys 101 with send := .sent 6, bodyFile := 31 :: bytes "hello" },
    .call (localSys 102), .endEvent, .nextEvent 102 .zeroed].map ProcessAction.work) ++
      [ProcessAction.shutdown]

theorem bodyLifeCycle_gzipServed :
    ∃ s : Process, s.running = false ∧
      .release 9 (.body 5) ∈ s.calls ∧ BodyLifeCycle firstDescriptors s := by
  obtain ⟨h, s, hrun, hanswers, hp⟩ := exists_run_of_guarded (Process.next wwwOptions)
    (fun s a => s.Answers wwwOptions a) (Process.init 100 firstDescriptors) gzipServed
    (p := fun s => s.running = false ∧ .release 9 (.body 5) ∈ s.calls)
    (by decide +kernel)
  obtain ⟨hstopped, hreleased⟩ := of_decide_eq_true hp
  refine ⟨s, hstopped, hreleased, bodyLifeCycle ⟨rfl, fun b fd hb => ?_⟩ hrun hanswers⟩
  unfold firstDescriptors at hb
  split at hb <;> cases hb

end UbServer
