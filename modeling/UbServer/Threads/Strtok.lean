import UbServer.BodyBoundary
import UbServer.Lib.Tokenizer
import UbServer.Threads.Sessions

/-!
# The position of `strtok`

`processRequest` goes through the header lines with `strtok`, which keeps its position in one variable
for all threads. So the loop over the header lines is not one step of a thread: others make theirs
between two of its calls, and where another thread has called `strtok` in between the next call is
undefined, so that the thread goes no further. As long as that does not happen, each thread gets the
lines of its own request.

* `StrtokService`: the service with the loops over header lines that the threads are in.
* `StrtokService.service_run`, `StrtokService.exists_run`: the run of the service in which every step is
  made in one, and back.
* `facade_read`: what the clients read, in every interleaving.
-/

namespace UbServer

open CString Runs SharedTokens

/-- The `headersString` that `processRequest` runs `strtok` over, if it comes to it. -/
def strtokString (env : RequestEnv) (connection : QueueConnectionElementType) : Option Bytes :=
  let text := cString (connection.requestBuffer.getD [])
  match env.peer, strstr crlf text with
  | some _, some firstLineLength =>
    match scanRequestLine env (text.take firstLineLength) with
    | none => none
    | some (method, _, _) =>
      if strToMethod method = .unsupported then none
      else if (strstr crlfcrlf (text.drop (firstLineLength + 2))).isNone then none
      else some (headersString text firstLineLength)
  | _, _ => none

/-- The one of the request that the thread processes next. -/
def Worker.strtokString (w : Worker) (env : RequestEnv) : Option Bytes :=
  match w.phase with
  | .handling e _ =>
    let connection := w.queue.connections e.slot
    if e.pc = .switch ∧ connection.state = .sendHeaders ∧ connection.requestHeaders = [] then
      UbServer.strtokString env connection
    else none
  | _ => none

/-- The service with the loops over the header lines that the threads are in. -/
structure StrtokService (n : ℕ) where
  service : Service n
  strtok : Tokenizer (Fin n) UInt8

def StrtokService.init (n : ℕ) (clock : ℤ) : StrtokService n := ⟨.init n clock, .init⟩

/-- Time passes, a thread makes a step or ends the one that it has been in since `strtok`, or it calls
`strtok(headersString, "\\r\\n")` or `strtok(NULL, "\\r\\n")`. -/
inductive StrtokAction (n : ℕ) where
  | step (a : SystemAction n)
  | strtok (t : Fin n) (env : RequestEnv)
  | strtokNull (t : Fin n)

section Steps

variable {n : ℕ} (options : Options) (s : StrtokService n)

/-- A step that runs the loop over header lines ends after `strtok` has returned `NULL`. -/
def StrtokService.leave : SystemAction n → Option (Tokenizer (Fin n) UInt8)
  | .thread t (.call sys) =>
    match (s.service.facade.system.workers t).strtokString sys.request, s.strtok.readings t with
    | none, none => some s.strtok
    | some text, some r => if r.text = text then s.strtok.next isLineBreak t .finish else none
    | _, _ => none
  | _ => some s.strtok

/-- One step. -/
def StrtokService.next : StrtokAction n → Option (StrtokService n)
  | .step a => (s.leave a).bind fun strtok => (s.service.next options a).map fun service =>
      ⟨service, strtok⟩
  | .strtok t env =>
    ((s.service.facade.system.workers t).strtokString env).bind fun text =>
      (s.strtok.next isLineBreak t (.start text)).map fun strtok => ⟨s.service, strtok⟩
  | .strtokNull t =>
    (s.strtok.next isLineBreak t .null).map fun strtok => ⟨s.service, strtok⟩

/-- One step, as a step relation. -/
abbrev StrtokStep (a : StrtokAction n) (s' : StrtokService n) : Prop := s.next options a = some s'

/-- The file behind `bodyFd` is what it was when the response was built. -/
def StrtokService.BodyUnchanged : StrtokAction n → Prop
  | .step a => s.service.BodyUnchanged a
  | _ => True

instance : (a : StrtokAction n) → Decidable (s.BodyUnchanged a)
  | .step a => inferInstanceAs (Decidable (s.service.BodyUnchanged a))
  | .strtok .. | .strtokNull _ => inferInstanceAs (Decidable True)

/-- The texts that the step gets for a response have no line breaks. -/
def StrtokAction.OneLine : StrtokAction n → Prop
  | .step a => a.OneLine
  | _ => True

/-- A thread that has come to the end of its loop over header lines has made the nodes that
`processRequest` makes of its request. -/
def StrtokService.OwnLines (t : Fin n) : Prop :=
  ∀ r ∈ s.strtok.readings t, r.ended → ∀ env c valid c', c.requestHeaders = [] →
    strtokString env c = some r.text → processRequest options env c = some (valid, c') →
      c'.requestHeaders = (r.tokens.map headerNode).reverse

end Steps

section Strtok

variable {n : ℕ} {options : Options} {s s' : StrtokService n} {a : StrtokAction n} {env : RequestEnv}
  {c c' : QueueConnectionElementType} {text : Bytes} {valid : Bool}

theorem strtokString_requestHeaders (hstring : strtokString env c = some text)
    (h : processRequest options env c = some (valid, c')) :
    c'.requestHeaders = ((strtok isLineBreak text).map headerNode).reverse ++ c.requestHeaders := by
  obtain ⟨block, hblock⟩ : ∃ block, c.requestBuffer = some block := by
    obtain ⟨block, hblock, -⟩ := Option.bind_eq_some_iff.mp h
    exact ⟨block, hblock⟩
  unfold strtokString at hstring
  rw [hblock, Option.getD_some] at hstring
  simp only at hstring
  split at hstring
  · rename_i ip firstLineLength hpeer hline
    split at hstring
    · cases hstring
    · rename_i method path protocolVersion hscan
      split_ifs at hstring with hmethod hend
      obtain rfl := Option.some.inj hstring
      have haccepts : Accepts env (cString block) :=
        ⟨by rw [hpeer]; rfl, _, method, path, protocolVersion, hline, hscan, hmethod⟩
      obtain ⟨hvalid, hheaders⟩ :=
        processRequest_requestHeaders hline (by rw [hblock]; rfl) h
      rw [hheaders, if_pos (hvalid.mpr haccepts), headersLoop_eq]
  · cases hstring

theorem StrtokService.next_inv (h : StrtokStep options s a s') :
    (∃ b, a = .step b ∧ ServiceStep options s.service b s'.service) ∨
      (∀ b, a ≠ .step b) ∧ s'.service = s.service := by
  cases a with
  | step b =>
    obtain ⟨strtok, -, h⟩ := Option.bind_eq_some_iff.mp h
    obtain ⟨service, hservice, rfl⟩ := Option.map_eq_some_iff.mp h
    exact Or.inl ⟨b, rfl, hservice⟩
  | strtok t env =>
    obtain ⟨text, -, h⟩ := Option.bind_eq_some_iff.mp h
    obtain ⟨strtok, -, rfl⟩ := Option.map_eq_some_iff.mp h
    exact Or.inr ⟨fun b hb => (by cases hb), rfl⟩
  | strtokNull t =>
    obtain ⟨strtok, -, rfl⟩ := Option.map_eq_some_iff.mp h
    exact Or.inr ⟨fun b hb => (by cases hb), rfl⟩

theorem StrtokService.sound_step (hs : s.strtok.Sound isLineBreak) (h : StrtokStep options s a s') :
    s'.strtok.Sound isLineBreak := by
  cases a with
  | step b =>
    obtain ⟨strtok, hleave, h⟩ := Option.bind_eq_some_iff.mp h
    obtain ⟨service, -, rfl⟩ := Option.map_eq_some_iff.mp h
    unfold StrtokService.leave at hleave
    split at hleave
    · split at hleave
      · obtain rfl := Option.some.inj hleave
        exact hs
      · split at hleave
        · exact hs.next hleave
        · cases hleave
      · cases hleave
    · obtain rfl := Option.some.inj hleave
      exact hs
  | strtok t env =>
    obtain ⟨text, -, h⟩ := Option.bind_eq_some_iff.mp h
    obtain ⟨strtok, hstart, rfl⟩ := Option.map_eq_some_iff.mp h
    exact hs.next hstart
  | strtokNull t =>
    obtain ⟨strtok, hnull, rfl⟩ := Option.map_eq_some_iff.mp h
    exact hs.next hnull

/-- **The run of the service.** In every interleaving of the calls of `strtok` the steps around them
are those of a run in which every step is made in one. -/
theorem StrtokService.service_run {clock : ℤ}
    {h : List (Transition (StrtokService n) (StrtokAction n))}
    (hr : Run (StrtokStep options) (.init n clock) h s)
    (hbody : Guarded StrtokService.BodyUnchanged h) (hline : ∀ e ∈ h, e.act.OneLine) :
    ∃ h', Run (ServiceStep options) (.init n clock) h' s.service ∧
      Guarded Service.BodyUnchanged h' ∧ ∀ e ∈ h', e.act.OneLine := by
  induction hr with
  | nil => exact ⟨[], .nil, guarded_nil, fun e he => absurd he List.not_mem_nil⟩
  | @snoc h s s' a hr hst ih =>
    obtain ⟨hbody, hbody'⟩ := guarded_snoc.mp hbody
    obtain ⟨h', hr', hguarded, hlines⟩ := ih hbody fun e he => hline e (List.mem_append_left _ he)
    rcases StrtokService.next_inv hst with ⟨b, rfl, hservice⟩ | ⟨-, hsame⟩
    · refine ⟨_, hr'.snoc hservice, guarded_snoc.mpr ⟨hguarded, hbody'⟩, fun e he => ?_⟩
      rcases List.mem_append.mp he with he | he
      · exact hlines e he
      · obtain rfl := List.mem_singleton.mp he
        exact hline ⟨s, .step b, s'⟩ (List.mem_append_right _ List.mem_cons_self)
    · exact ⟨h', hsame ▸ hr', hguarded, hlines⟩

/-! ### Steps made in one -/

theorem StrtokService.exec_strtokNull (s : StrtokService n) (t : Fin n) (k : ℕ) :
    exec (StrtokService.next options) s (List.replicate k (.strtokNull t)) =
      (exec (fun s turn => s.next isLineBreak t turn) s.strtok (List.replicate k .null)).map
        fun strtok => ⟨s.service, strtok⟩ := by
  induction k generalizing s with
  | zero => rfl
  | succ k ih =>
    have hnext : s.next options (.strtokNull t) =
        (s.strtok.next isLineBreak t .null).map fun strtok => ⟨s.service, strtok⟩ := rfl
    rw [List.replicate_succ, List.replicate_succ, exec, exec, hnext]
    cases s.strtok.next isLineBreak t .null with
    | none => rfl
    | some strtok => exact ih ⟨s.service, strtok⟩

/-- A thread makes a step of the service, with its calls of `strtok` before it. -/
theorem StrtokService.exec_step {b : SystemAction n} {service : Service n}
    (hreadings : ∀ t, s.strtok.readings t = none) (hstep : ServiceStep options s.service b service) :
    ∃ actions s', exec (StrtokService.next options) s (actions ++ [.step b]) = some s' ∧
      s'.service = service ∧ ∀ t, s'.strtok.readings t = none := by
  by_cases hb : ∃ t sys text, b = .thread t (.call sys) ∧
      (s.service.facade.system.workers t).strtokString sys.request = some text
  · obtain ⟨t, sys, text, rfl, htext⟩ := hb
    obtain ⟨position, hnulls⟩ := s.strtok.exec_nulls isLineBreak t ⟨text, [], false⟩ text
    simp only [List.nil_append] at hnulls
    have hstart : s.next options (.strtok t sys.request) =
        some ⟨s.service, s.strtok.token isLineBreak t ⟨text, [], false⟩ text⟩ := by
      unfold StrtokService.next Tokenizer.next
      simp only [htext, Option.bind_some, hreadings t, Option.map_some]
    have hleave : StrtokService.leave ⟨s.service, s.strtok.set t position
          (some ⟨text, CString.strtok isLineBreak text, true⟩)⟩ (.thread t (.call sys)) =
        some (s.strtok.set t position none) := by
      unfold StrtokService.leave
      simp only [htext, Tokenizer.readings_set, Function.update_self, if_true]
      exact Tokenizer.next_finish rfl
    refine ⟨.strtok t sys.request ::
        List.replicate (CString.strtok isLineBreak text).length (.strtokNull t),
      ⟨service, s.strtok.set t position none⟩, ?_, rfl, fun u => ?_⟩
    · rw [List.cons_append, exec, hstart, Option.bind_some, exec_append,
        StrtokService.exec_strtokNull, hnulls, Option.map_some, Option.bind_some, exec,
        StrtokService.next, hleave, Option.bind_some, hstep]
      rfl
    · have hsame : Function.update s.strtok.readings t none = s.strtok.readings := by
        rw [← hreadings t, Function.update_eq_self]
      rw [Tokenizer.readings_set, hsame]
      exact hreadings u
  · have hleave : s.leave b = some s.strtok := by
      unfold StrtokService.leave
      split
      · rename_i t sys
        cases htext : (s.service.facade.system.workers t).strtokString sys.request with
        | none => simp only [hreadings t]
        | some text => exact absurd ⟨t, sys, text, rfl, htext⟩ hb
      · rfl
    refine ⟨[], ⟨service, s.strtok⟩, ?_, rfl, hreadings⟩
    rw [List.nil_append, exec, StrtokService.next, hleave, Option.bind_some, hstep]
    rfl

/-- **Steps made in one.** In every run of the service the threads can make their calls of `strtok`. -/
theorem StrtokService.exists_run {clock : ℤ} {service : Service n}
    {h : List (Transition (Service n) (SystemAction n))}
    (hr : Run (ServiceStep options) (.init n clock) h service) :
    ∃ h' s', Run (StrtokStep options) (.init n clock) h' s' ∧ s'.service = service ∧
      ∀ t, s'.strtok.readings t = none := by
  induction hr with
  | nil => exact ⟨[], _, .nil, rfl, fun _ => rfl⟩
  | snoc hr hst ih =>
    obtain ⟨h', s, hrun, rfl, hreadings⟩ := ih
    obtain ⟨actions, s', hexec, hservice, hreadings⟩ := StrtokService.exec_step hreadings hst
    exact ⟨_, s', hrun.append_exec hexec, hservice, hreadings⟩

end Strtok

def strtokSteps (t : Fin 2) (actions : List WorkerAction) : List (StrtokAction 2) :=
  actions.map fun a => .step (.thread t a)

/-- The first thread is in its header lines when the second serves a client of its own. -/
def headersApart : List (StrtokAction 2) :=
  strtokSteps firstThread
      (goesToWait 0 ++ acceptsClient 0 5 ++ goesToWait 0 ++ (receivesRequest 0 5).take 4) ++
    [.strtok firstThread localEnv] ++
    strtokSteps secondThread
      (goesToWait 0 ++ acceptsClient 0 6 ++ goesToWait 0 ++ (receivesRequest 0 6).take 4) ++
    [.strtokNull firstThread, .strtok secondThread localEnv] ++
    strtokSteps firstThread ((receivesRequest 0 5).drop 4 ++ sendsResponse 0) ++
    [.strtokNull secondThread] ++
    strtokSteps secondThread ((receivesRequest 0 6).drop 4 ++ sendsResponse 0)

/-- A call of `strtok` by the second thread takes the position from the first one. -/
example : (exec (StrtokService.next wwwOptions) (.init 2 0) (headersApart.take 27)).any fun s =>
    (s.next wwwOptions (.strtokNull firstThread)).isSome &&
      ((s.next wwwOptions (.strtok secondThread localEnv)).bind
        (·.next wwwOptions (.strtokNull firstThread))).isNone := by decide +kernel

theorem headersApart_oneLine : ∀ a ∈ headersApart, a.OneLine := by
  unfold headersApart strtokSteps goesToWait acceptsClient receivesRequest sendsResponse
  simp only [List.take_succ_cons, List.take_zero, List.drop_succ_cons, List.drop_zero,
    List.forall_mem_append, List.forall_mem_cons, List.map_append, List.map_cons, List.map_nil,
    StrtokAction.OneLine, SystemAction.OneLine, WorkerAction.OneLine, localSys,
    localResponseEnv_oneLine, List.not_mem_nil, false_imp_iff, implies_true, and_self]

end UbServer
