import UbServer.Dispatch
import UbServer.Lib.Runs

/-!
# The request buffer

`recvRequest` on the block that `malloc` returned, over a script of what `recv` returns. When the
buffer is tested it holds the received bytes, and behind them what the block held before.

* `Receiver.next`: one turn of the loop, with the bytes received so far beside the record.
* `tests`: the received bytes at each test of the buffer, computed from the script alone.
* `endDetected_iff`: the end of a request is detected exactly when nothing behind the received bytes
  takes part in a test.
* `accessesInBounds_iff`: which scripts keep all accesses inside the buffer.
-/

namespace UbServer

open CString Runs

/-! ### Receiving by script -/

/-- The record of a connection and the bytes received so far for its request. -/
structure Receiver where
  connection : QueueConnectionElementType
  got : Bytes
  deriving DecidableEq

/-- A record just made, by accepting or by re-arming. -/
def Receiver.start (fd : ℕ) (now : ℤ) (mem : RequestBlock) : Receiver :=
  ⟨freshConnection fd now mem, []⟩

/-- One call of `recv` and the turn of `recvRequest` around it; `none` is undefined behaviour. A
connection that is no longer receiving stays as it is. -/
def Receiver.next (receiver : Receiver) (r : RecvResult) : Option Receiver :=
  if receiver.connection.state = .recv then
    (recvRequestTurn receiver.connection r).map fun turn =>
      ⟨turn.1, receiver.got ++ receivedBytes receiver.connection r⟩
  else some receiver

/-- The bytes that the calls of a script offer. -/
def offered (script : List RecvResult) : Bytes :=
  script.flatMap fun
    | .data bytes => bytes
    | _ => []

/-- The received bytes at each test of the buffer, as long as no test succeeds. -/
def tests (got : Bytes) : List RecvResult → List Bytes
  | [] => []
  | .eintr :: script => tests got script
  | .eagain :: script => got :: tests got script
  | .error :: _ => []
  | .data bytes :: script =>
    let bytes := bytes.take (bufferRequestSize - got.length)
    if bytes = [] then [] else (got ++ bytes) :: tests (got ++ bytes) script

/-- The block when the bytes `got` have been stored in it. -/
def blockAfter (mem : RequestBlock) (got : Bytes) : Bytes := got ++ mem.val.drop got.length

/-- The record when the bytes `got` have been received and no test has succeeded. -/
def storing (fd : ℕ) (now : ℤ) (mem : RequestBlock) (got : Bytes) : QueueConnectionElementType :=
  { freshConnection fd now mem with
    requestBuffer := some (blockAfter mem got)
    requestBufferOffset := got.length }

/-- The record when the test with the bytes `got` has succeeded. -/
def completed (fd : ℕ) (now : ℤ) (mem : RequestBlock) (got : Bytes) : QueueConnectionElementType :=
  { freshConnection fd now mem with
    requestBuffer := some (writeAt (blockAfter mem got) got.length [0])
    state := .sendHeaders
    requestBufferOffset := 0 }

/-- The record of a client that is gone. -/
def abandoned (fd : ℕ) (now : ℤ) (mem : RequestBlock) (got : Bytes) : QueueConnectionElementType :=
  { storing fd now mem got with state := .doneForClose }

/-- The turn after a test of the buffer with the bytes `got` in it. -/
def afterTest (fd : ℕ) (now : ℤ) (mem : RequestBlock) (got : Bytes) : Option Receiver :=
  (isRequestComplete (blockAfter mem got)).bind fun complete =>
    if complete then
      if got.length < bufferRequestSize then some ⟨completed fd now mem got, got⟩ else none
    else some ⟨storing fd now mem got, got⟩

section Turns

variable {fd : ℕ} {now : ℤ} {mem : RequestBlock} {got bytes : Bytes}

theorem length_blockAfter (h : got.length ≤ bufferRequestSize) :
    (blockAfter mem got).length = bufferRequestSize := by
  unfold blockAfter
  rw [List.length_append, List.length_drop, mem.property]
  omega

theorem blockAfter_of_full (h : bufferRequestSize ≤ got.length) : blockAfter mem got = got := by
  unfold blockAfter
  rw [List.drop_eq_nil_of_le (by rw [mem.property]; exact h), List.append_nil]

theorem writeAt_blockAfter :
    writeAt (blockAfter mem got) got.length bytes = blockAfter mem (got ++ bytes) := by
  unfold writeAt blockAfter
  rw [List.take_left, ← List.drop_drop, List.drop_left, List.drop_drop, List.length_append,
    List.append_assoc]

@[simp] theorem storing_state : (storing fd now mem got).state = .recv := rfl

@[simp] theorem completed_state : (completed fd now mem got).state = .sendHeaders := rfl

@[simp] theorem abandoned_state : (abandoned fd now mem got).state = .doneForClose := rfl

theorem finishRequest_storing (h : got.length ≤ bufferRequestSize) :
    finishRequest (storing fd now mem got) (blockAfter mem got) =
      if got.length < bufferRequestSize then some (completed fd now mem got) else none := by
  unfold finishRequest
  rw [length_blockAfter h]
  rfl

theorem receivedBytes_storing (r : RecvResult) :
    receivedBytes (storing fd now mem got) r =
      match r with
      | .data bytes => bytes.take (bufferRequestSize - got.length)
      | _ => [] := by
  cases r <;> rfl

theorem test_eq (h : got.length ≤ bufferRequestSize) (repeats : Bool) :
    ((isRequestComplete (blockAfter mem got)).bind fun complete =>
      if complete then
        (finishRequest (storing fd now mem got) (blockAfter mem got)).bind
          fun connection => some (connection, false)
      else some (storing fd now mem got, repeats)).map
        (fun turn => (⟨turn.1, got⟩ : Receiver)) = afterTest fd now mem got := by
  unfold afterTest
  rw [finishRequest_storing h]
  cases isRequestComplete (blockAfter mem got) with
  | none => rfl
  | some complete =>
    cases complete with
    | false => rfl
    | true =>
      simp only [Option.bind_some, if_true]
      split <;> rfl

/-- **One turn**, by what `recv` returns. -/
theorem next_storing (h : got.length ≤ bufferRequestSize) (r : RecvResult) :
    Receiver.next ⟨storing fd now mem got, got⟩ r =
      match r with
      | .eintr => some ⟨storing fd now mem got, got⟩
      | .eagain => afterTest fd now mem got
      | .error => some ⟨abandoned fd now mem got, got⟩
      | .data bytes =>
        let bytes := bytes.take (bufferRequestSize - got.length)
        if bytes = [] then some ⟨abandoned fd now mem got, got⟩
        else afterTest fd now mem (got ++ bytes) := by
  have hnext : Receiver.next ⟨storing fd now mem got, got⟩ r =
      (recvRequestTurn (storing fd now mem got) r).map fun turn =>
        ⟨turn.1, got ++ receivedBytes (storing fd now mem got) r⟩ := if_pos rfl
  rw [hnext, receivedBytes_storing]
  cases r with
  | eintr => simp [recvRequestTurn, storing, freshConnection]
  | error => simp [recvRequestTurn, storing, freshConnection, abandoned]
  | eagain =>
    simp only [List.append_nil]
    exact test_eq h false
  | data bytes =>
    by_cases hnil : bytes.take (bufferRequestSize - got.length) = []
    · simp [recvRequestTurn, storing, freshConnection, abandoned, hnil]
    · simp only [if_neg hnil]
      have hle : (got ++ bytes.take (bufferRequestSize - got.length)).length ≤
          bufferRequestSize := by
        rw [List.length_append, List.length_take]
        omega
      rw [← test_eq hle true]
      unfold recvRequestTurn
      simp only [storing, freshConnection, Option.bind_eq_bind, Option.bind_some, if_neg hnil,
        writeAt_blockAfter, List.length_append]
      rfl

theorem exec_stopped {receiver : Receiver} (h : receiver.connection.state ≠ .recv)
    (script : List RecvResult) : exec Receiver.next receiver script = some receiver := by
  induction script with
  | nil => rfl
  | cons r script ih =>
    unfold exec
    rw [show receiver.next r = some receiver from if_neg h, Option.bind_some, ih]

end Turns

/-! ### The end of a request -/

/-- The record has gone on to `STATE_CONNECTION_SEND_HEADERS` exactly when the received bytes contain
the end of the headers, and then holds just these bytes and a NUL. -/
def Receiver.DetectsEnd (receiver : Receiver) : Prop :=
  (receiver.connection.state = .sendHeaders ↔ crlfcrlf <:+: receiver.got) ∧
    (receiver.connection.state = .sendHeaders →
      ∃ rest, receiver.connection.requestBuffer = some (receiver.got ++ 0 :: rest))

/-- **End-of-request detection** at every moment of a script. -/
def EndDetected (receiver : Receiver) (script : List RecvResult) : Prop :=
  ∀ calls, calls <+: script →
    ∃ receiver', exec Receiver.next receiver calls = some receiver' ∧ receiver'.DetectsEnd

/-- What the block held before plays no part in a test with the bytes `got`: there is a NUL behind
them, and no end of headers before it. -/
def NothingStale (mem : RequestBlock) (got : Bytes) : Prop :=
  (0 : UInt8) ∈ mem.val.drop got.length ∧
    ¬ crlfcrlf <:+: got ++ cString (mem.val.drop got.length)

instance (mem : RequestBlock) (got : Bytes) : Decidable (NothingStale mem got) :=
  inferInstanceAs (Decidable (_ ∧ _))

section EndDetection

variable {fd : ℕ} {now : ℤ} {mem : RequestBlock} {got bytes : Bytes}

theorem offered_cons (r : RecvResult) (script : List RecvResult) :
    offered (r :: script) = offered [r] ++ offered script := by
  unfold offered
  rw [List.flatMap_cons, List.flatMap_singleton]

theorem endDetected_cons (receiver : Receiver) (r : RecvResult) (script : List RecvResult) :
    EndDetected receiver (r :: script) ↔
      receiver.DetectsEnd ∧ ∃ receiver', receiver.next r = some receiver' ∧
        EndDetected receiver' script := by
  constructor
  · intro h
    obtain ⟨receiver₀, he₀, h₀⟩ := h [] List.nil_prefix
    obtain rfl := Option.some.inj he₀
    obtain ⟨receiver₁, he₁, -⟩ := h [r] (List.cons_prefix_cons.mpr ⟨rfl, List.nil_prefix⟩)
    obtain ⟨receiver', hn, -⟩ := Option.bind_eq_some_iff.mp he₁
    refine ⟨h₀, receiver', hn, fun calls hcalls => ?_⟩
    obtain ⟨receiver₂, he₂, h₂⟩ := h (r :: calls) (List.cons_prefix_cons.mpr ⟨rfl, hcalls⟩)
    rw [exec, hn] at he₂
    exact ⟨receiver₂, he₂, h₂⟩
  · rintro ⟨h₀, receiver', hn, h⟩ calls hcalls
    cases calls with
    | nil => exact ⟨receiver, rfl, h₀⟩
    | cons r' calls =>
      obtain ⟨rfl, hcalls'⟩ := List.cons_prefix_cons.mp hcalls
      obtain ⟨receiver₂, he₂, h₂⟩ := h calls hcalls'
      refine ⟨receiver₂, ?_, h₂⟩
      rw [exec, hn]
      exact he₂

theorem endDetected_nil (receiver : Receiver) :
    EndDetected receiver [] ↔ receiver.DetectsEnd := by
  constructor
  · intro h
    obtain ⟨receiver', he, h'⟩ := h [] List.nil_prefix
    obtain rfl := Option.some.inj he
    exact h'
  · intro h calls hcalls
    obtain rfl := List.prefix_nil.mp hcalls
    exact ⟨receiver, rfl, h⟩

theorem endDetected_stopped {receiver : Receiver} (h : receiver.connection.state ≠ .recv)
    (hend : receiver.DetectsEnd) (script : List RecvResult) : EndDetected receiver script :=
  fun calls _ => ⟨receiver, exec_stopped h calls, hend⟩

theorem detectsEnd_storing (hopen : ¬ crlfcrlf <:+: got) :
    Receiver.DetectsEnd ⟨storing fd now mem got, got⟩ :=
  ⟨iff_of_false (by simp) hopen, fun h => absurd h (by simp)⟩

theorem detectsEnd_abandoned (hopen : ¬ crlfcrlf <:+: got) :
    Receiver.DetectsEnd ⟨abandoned fd now mem got, got⟩ :=
  ⟨iff_of_false (by simp) hopen, fun h => absurd h (by simp)⟩

theorem detectsEnd_completed (hend : crlfcrlf <:+: got) :
    Receiver.DetectsEnd ⟨completed fd now mem got, got⟩ := by
  refine ⟨iff_of_true rfl hend, fun _ => ⟨mem.val.drop (got.length + 1), ?_⟩⟩
  show some (writeAt (blockAfter mem got) got.length [0]) = _
  rw [writeAt_blockAfter]
  unfold blockAfter
  rw [List.length_append, List.length_singleton, List.append_assoc]
  rfl

theorem isRequestComplete_blockAfter (hnul : (0 : UInt8) ∉ got) :
    isRequestComplete (blockAfter mem got) =
      if crlfcrlf <:+: got ++ cString (mem.val.drop got.length) then some true
      else if (0 : UInt8) ∈ mem.val.drop got.length then some false
      else none := by
  unfold isRequestComplete blockAfter
  simp only [cString_append hnul, strstr_isSome, List.mem_append, hnul, false_or]

theorem isRequestComplete_of_complete (hnul : (0 : UInt8) ∉ got) (hend : crlfcrlf <:+: got) :
    isRequestComplete (blockAfter mem got) = some true := by
  rw [isRequestComplete_blockAfter hnul, if_pos]
  exact hend.trans (List.prefix_append _ _).isInfix

/-- A test without the end of the headers in the received bytes comes out right only if nothing
behind them plays a part. -/
theorem isRequestComplete_of_open (hnul : (0 : UInt8) ∉ got) :
    isRequestComplete (blockAfter mem got) = some false ↔ NothingStale mem got := by
  rw [isRequestComplete_blockAfter hnul]
  unfold NothingStale
  split
  · rename_i h
    simp [h]
  · rename_i h
    split <;> rename_i h' <;> simp [h, h']

/-- All tests of a script have the bytes received before it in front. -/
theorem prefix_of_mem_tests {script : List RecvResult} {g : Bytes} (h : g ∈ tests got script) :
    got <+: g := by
  induction script generalizing got with
  | nil => cases h
  | cons r script ih =>
    cases r with
    | eintr => exact ih h
    | error => cases h
    | eagain =>
      rcases List.mem_cons.mp h with rfl | h
      · exact List.prefix_rfl
      · exact ih h
    | data bytes =>
      simp only [tests] at h
      split at h
      · cases h
      · have hpre := List.prefix_append got (bytes.take (bufferRequestSize - got.length))
        rcases List.mem_cons.mp h with rfl | h
        · exact hpre
        · exact hpre.trans (ih h)

theorem endDetected_afterTest {script : List RecvResult} (hnul : (0 : UInt8) ∉ got)
    (hlen : got.length < bufferRequestSize)
    (hrest : ¬ crlfcrlf <:+: got →
      (EndDetected ⟨storing fd now mem got, got⟩ script ↔
        ∀ g ∈ tests got script, ¬ crlfcrlf <:+: g → NothingStale mem g)) :
    (∃ receiver, afterTest fd now mem got = some receiver ∧ EndDetected receiver script) ↔
      ∀ g ∈ got :: tests got script, ¬ crlfcrlf <:+: g → NothingStale mem g := by
  unfold afterTest
  by_cases hend : crlfcrlf <:+: got
  · -- the request is complete: every later test would have its end in front
    rw [isRequestComplete_of_complete hnul hend]
    simp only [Option.bind_some, if_true, if_pos hlen]
    refine iff_of_true ⟨_, rfl, ?_⟩ fun g hg hopen => ?_
    · exact endDetected_stopped (by simp) (detectsEnd_completed hend) script
    · have hpre : got <+: g := by
        rcases List.mem_cons.mp hg with rfl | hg
        · exact List.prefix_rfl
        · exact prefix_of_mem_tests hg
      exact absurd (hend.trans hpre.isInfix) hopen
  · rw [List.forall_mem_cons]
    by_cases hstale : NothingStale mem got
    · rw [(isRequestComplete_of_open hnul).mpr hstale]
      simp only [Option.bind_some, Bool.false_eq_true, if_false, Option.some.injEq,
        exists_eq_left']
      rw [hrest hend]
      exact (and_iff_right fun _ => hstale).symm
    · refine iff_of_false ?_ fun h => hstale (h.1 hend)
      rintro ⟨receiver, he, hdetected⟩
      obtain ⟨complete, hc, he⟩ := Option.bind_eq_some_iff.mp he
      cases complete with
      | false => exact hstale ((isRequestComplete_of_open hnul).mp hc)
      | true =>
        simp only [if_true, if_pos hlen] at he
        obtain rfl := Option.some.inj he
        obtain ⟨receiver, he, hd⟩ := hdetected [] List.nil_prefix
        obtain rfl := Option.some.inj he
        exact hend (hd.1.mp rfl)

/-- The rest of a script, with the bytes `got` received and the end not among them. -/
theorem endDetected_storing (hopen : ¬ crlfcrlf <:+: got) (script : List RecvResult)
    (hnul : (0 : UInt8) ∉ got ++ offered script)
    (hlen : (got ++ offered script).length < bufferRequestSize) :
    EndDetected ⟨storing fd now mem got, got⟩ script ↔
      ∀ g ∈ tests got script, ¬ crlfcrlf <:+: g → NothingStale mem g := by
  induction script generalizing got with
  | nil =>
    rw [endDetected_nil]
    exact iff_of_true (detectsEnd_storing hopen) fun g hg => by cases hg
  | cons r script ih =>
    have hgot : got.length < bufferRequestSize := by
      rw [List.length_append] at hlen
      omega
    have hnul₀ : (0 : UInt8) ∉ got := fun h => hnul (List.mem_append_left _ h)
    rw [endDetected_cons, and_iff_right (detectsEnd_storing hopen), next_storing hgot.le]
    cases r with
    | eintr =>
      simp only [Option.some.injEq, exists_eq_left']
      exact ih hopen hnul hlen
    | eagain => exact endDetected_afterTest hnul₀ hgot fun _ => ih hopen hnul hlen
    | error =>
      simp only [Option.some.injEq, exists_eq_left']
      exact iff_of_true
        (endDetected_stopped (by simp) (detectsEnd_abandoned hopen) script)
        fun g hg => by cases hg
    | data bytes =>
      rw [offered_cons, show offered [.data bytes] = bytes from List.append_nil _,
        ← List.append_assoc] at hnul hlen
      have htake : bytes.take (bufferRequestSize - got.length) = bytes := by
        refine List.take_of_length_le ?_
        simp only [List.length_append] at hlen
        omega
      simp only [htake, tests]
      by_cases hnil : bytes = []
      · simp only [if_pos hnil, Option.some.injEq, exists_eq_left']
        exact iff_of_true
          (endDetected_stopped (by simp) (detectsEnd_abandoned hopen) script)
          fun g hg => by cases hg
      · simp only [if_neg hnil]
        refine endDetected_afterTest (fun h => hnul (List.mem_append_left _ h)) ?_
          fun hopen' => ih hopen' hnul hlen
        rw [List.length_append] at hlen
        omega

/-- **The end of a request** is detected, over a script that offers NUL-free bytes and fewer than the
buffer holds, exactly when in every test before the end has been received there is a NUL behind the
received bytes, and no end of headers that the old content of the block takes part in. -/
theorem endDetected_iff (fd : ℕ) (now : ℤ) (mem : RequestBlock) (script : List RecvResult)
    (hnul : (0 : UInt8) ∉ offered script) (hlen : (offered script).length < bufferRequestSize) :
    EndDetected (.start fd now mem) script ↔
      ∀ got ∈ tests [] script, ¬ crlfcrlf <:+: got → NothingStale mem got := by
  have hopen : ¬ crlfcrlf <:+: ([] : Bytes) := by decide
  exact endDetected_storing hopen script hnul hlen

end EndDetection

/-- A block that still holds an old request. -/
def RequestBlock.leftover : RequestBlock :=
  ⟨indexPageRequest ++ List.replicate (bufferRequestSize - indexPageRequest.length) 0,
    by decide +kernel⟩

/-- The old request behind the first three bytes of a new one completes it. -/
theorem endDetected_leftover :
    ¬ ∀ (fd : ℕ) (now : ℤ) (mem : RequestBlock) (script : List RecvResult),
      (0 : UInt8) ∉ offered script → (offered script).length < bufferRequestSize →
        EndDetected (.start fd now mem) script := by
  intro h
  have hdetected := h 5 0 .leftover [.data (bytes "GET")] (by decide +kernel) (by decide +kernel)
  obtain ⟨receiver, he, hend, -⟩ := hdetected _ List.prefix_rfl
  have hstale : (exec Receiver.next (.start 5 0 .leftover) [.data (bytes "GET")]).any fun receiver =>
      receiver.connection.state = .sendHeaders ∧ ¬ crlfcrlf <:+: receiver.got := by decide +kernel
  rw [he] at hstale
  obtain ⟨hstate, hopen⟩ := of_decide_eq_true hstale
  exact hopen (hend.mp hstate)

/-- Over a block of zeros, a request in two pieces. -/
theorem endDetected_zeroed :
    EndDetected (.start 5 0 .zeroed)
      [.data (indexPageRequest.take 20), .eagain, .data (indexPageRequest.drop 20)] :=
  (endDetected_iff 5 0 .zeroed _ (by decide +kernel) (by decide +kernel)).mpr (by decide +kernel)

/-! ### Accesses -/

/-- Where the scan of `strstr` ends: behind the end of the headers, or else behind the NUL, which
comes after the block when the block has none. -/
def scanEnd (buffer : Bytes) : ℕ :=
  match strstr crlfcrlf (cString buffer) with
  | some i => i + 4
  | none => (cString buffer).length + 1

/-- The accesses of a test: those of the scan, and the NUL at the offset if it succeeds. -/
def testAccesses (buffer : Bytes) (offset : ℕ) : List ℕ :=
  List.range (scanEnd buffer) ++
    if (strstr crlfcrlf (cString buffer)).isSome then [offset] else []

/-- The indices of `requestBuffer` that a turn of `recvRequest` reads or writes. -/
def recvAccesses (connection : QueueConnectionElementType) (r : RecvResult) : List ℕ :=
  match connection.requestBuffer with
  | none => []
  | some buffer =>
    let offset := connection.requestBufferOffset
    match r with
    | .eintr => []
    | .error => []
    | .eagain => testAccesses buffer offset
    | .data bytes =>
      let got := bytes.take (connection.requestBufferLength - offset)
      if got = [] then []
      else List.range' offset got.length ++
        testAccesses (writeAt buffer offset got) (offset + got.length)

/-- **Receive-buffer bounds** at every moment of a script. -/
def AccessesInBounds (receiver : Receiver) (script : List RecvResult) : Prop :=
  ∀ calls r receiver', calls ++ [r] <+: script →
    exec Receiver.next receiver calls = some receiver' → receiver'.connection.state = .recv →
      receiver'.connection.requestBufferLength = bufferRequestSize ∧
        ∀ i ∈ recvAccesses receiver'.connection r, i < bufferRequestSize

/-- A test with the bytes `got` stays inside the block: with room left, the scan must meet a NUL or
the end of the headers; in a full buffer it must meet a NUL before any end of the headers. -/
def SafeTest (mem : RequestBlock) (got : Bytes) : Prop :=
  if got.length < bufferRequestSize then
    (0 : UInt8) ∈ blockAfter mem got ∨ crlfcrlf <:+: blockAfter mem got
  else (0 : UInt8) ∈ got ∧ ¬ crlfcrlf <:+: cString got

/-- The buffer contains the end of the headers, whether received or not. -/
def Found (mem : RequestBlock) (got : Bytes) : Prop := crlfcrlf <:+: cString (blockAfter mem got)

/-- `P` holds along a list up to the first element with `Q`, and of that one. -/
def UpToFirst {α : Type*} (Q P : α → Prop) (l : List α) : Prop :=
  ∀ l' a, l' ++ [a] <+: l → (∀ b ∈ l', ¬ Q b) → P a

section Accesses

variable {fd : ℕ} {now : ℤ} {mem : RequestBlock} {got bytes : Bytes}

theorem upToFirst_nil {α : Type*} {Q P : α → Prop} : UpToFirst Q P [] := by
  intro l' a h
  exact absurd (List.prefix_nil.mp h) (by simp)

theorem upToFirst_cons {α : Type*} {Q P : α → Prop} {a : α} {l : List α} :
    UpToFirst Q P (a :: l) ↔ P a ∧ (¬ Q a → UpToFirst Q P l) := by
  constructor
  · intro h
    refine ⟨h [] a (by simp) (by simp), fun ha l' b hl hq => ?_⟩
    refine h (a :: l') b (List.cons_prefix_cons.mpr ⟨rfl, hl⟩) fun c hc => ?_
    rcases List.mem_cons.mp hc with rfl | hc
    · exact ha
    · exact hq c hc
  · rintro ⟨ha, h⟩ l' b hl hq
    cases l' with
    | nil =>
      obtain ⟨rfl, -⟩ := List.cons_prefix_cons.mp hl
      exact ha
    | cons c l' =>
      obtain ⟨rfl, hl'⟩ := List.cons_prefix_cons.mp hl
      exact h (hq c (List.mem_cons_self ..)) l' b hl' fun d hd => hq d (List.mem_cons_of_mem _ hd)

theorem contains_of_cString {needle buffer : Bytes} (h : needle <:+: cString buffer) :
    needle <:+: buffer := by
  unfold cString at h
  exact h.trans (List.takeWhile_prefix _).isInfix

/-- The scan stays inside a block exactly when it meets a NUL or the end of the headers there. -/
theorem scanEnd_le (buffer : Bytes) :
    scanEnd buffer ≤ buffer.length ↔ (0 : UInt8) ∈ buffer ∨ crlfcrlf <:+: buffer := by
  unfold scanEnd
  cases hs : strstr crlfcrlf (cString buffer) with
  | some i =>
    have hi := (strstr_bound hs).resolve_right (by decide)
    have hin : crlfcrlf <:+: cString buffer := strstr_isSome.mp (by rw [hs]; rfl)
    have hlen : crlfcrlf.length = 4 := rfl
    have hle : (cString buffer).length ≤ buffer.length := (List.takeWhile_prefix _).length_le
    exact iff_of_true (by simp only; omega) (Or.inr (contains_of_cString hin))
  | none =>
    refine ⟨fun h => Or.inl ((length_cString _).mp h), fun h => (length_cString _).mpr ?_⟩
    by_contra hnul
    -- without a NUL the whole block is searched
    rw [cString_of_not_mem hnul] at hs
    exact absurd (strstr_isSome.mpr (h.resolve_left hnul)) (by rw [hs]; simp)

theorem testAccesses_lt (h : got.length ≤ bufferRequestSize) :
    (∀ i ∈ testAccesses (blockAfter mem got) got.length, i < bufferRequestSize) ↔
      SafeTest mem got := by
  have hscan : (∀ i ∈ List.range (scanEnd (blockAfter mem got)), i < bufferRequestSize) ↔
      (0 : UInt8) ∈ blockAfter mem got ∨ crlfcrlf <:+: blockAfter mem got := by
    rw [← scanEnd_le, length_blockAfter h]
    refine ⟨fun hall => ?_, fun hle i hi => lt_of_lt_of_le (List.mem_range.mp hi) hle⟩
    by_contra hlt
    exact absurd (hall bufferRequestSize (List.mem_range.mpr (by omega))) (lt_irrefl _)
  unfold testAccesses SafeTest
  simp only [List.forall_mem_append, hscan, strstr_isSome]
  by_cases hlt : got.length < bufferRequestSize
  · rw [if_pos hlt]
    refine and_iff_left fun i hi => ?_
    split at hi
    · rw [List.mem_singleton.mp hi]
      exact hlt
    · cases hi
  · rw [if_neg hlt, blockAfter_of_full (not_lt.mp hlt)]
    constructor
    · rintro ⟨hend, hoffset⟩
      have hnone : ¬ crlfcrlf <:+: cString got := fun hfound => by
        rw [if_pos hfound] at hoffset
        exact hlt (hoffset _ (List.mem_singleton_self _))
      refine ⟨?_, hnone⟩
      by_contra hnul
      rw [cString_of_not_mem hnul] at hnone
      exact hnone (hend.resolve_left hnul)
    · rintro ⟨hnul, hnone⟩
      refine ⟨Or.inl hnul, ?_⟩
      rw [if_neg hnone]
      exact fun i hi => by cases hi

theorem accessesInBounds_stopped {receiver : Receiver} (h : receiver.connection.state ≠ .recv)
    (script : List RecvResult) : AccessesInBounds receiver script := by
  intro calls r receiver' _ he hrecv
  rw [exec_stopped h] at he
  obtain rfl := Option.some.inj he
  exact absurd hrecv h

theorem accessesInBounds_cons (receiver : Receiver) (r : RecvResult) (script : List RecvResult) :
    AccessesInBounds receiver (r :: script) ↔
      (receiver.connection.state = .recv →
        receiver.connection.requestBufferLength = bufferRequestSize ∧
          ∀ i ∈ recvAccesses receiver.connection r, i < bufferRequestSize) ∧
      ∀ receiver', receiver.next r = some receiver' → AccessesInBounds receiver' script := by
  constructor
  · intro h
    refine ⟨fun hrecv => h [] r receiver (by simp) rfl hrecv, fun receiver' hn => ?_⟩
    intro calls r' receiver'' hcalls he hrecv
    refine h (r :: calls) r' receiver'' (List.cons_prefix_cons.mpr ⟨rfl, hcalls⟩) ?_ hrecv
    rw [exec, hn]
    exact he
  · rintro ⟨hfirst, hrest⟩ calls r' receiver'' hcalls he hrecv
    cases calls with
    | nil =>
      obtain rfl := Option.some.inj he
      obtain ⟨rfl, -⟩ := List.cons_prefix_cons.mp hcalls
      exact hfirst hrecv
    | cons a calls =>
      obtain ⟨rfl, hcalls'⟩ := List.cons_prefix_cons.mp hcalls
      obtain ⟨receiver', hn, he'⟩ := Option.bind_eq_some_iff.mp he
      exact hrest receiver' hn calls r' receiver'' hcalls' he' hrecv

theorem SafeTest.nul (hsafe : SafeTest mem got) (hnone : ¬ Found mem got) :
    (0 : UInt8) ∈ blockAfter mem got := by
  unfold SafeTest at hsafe
  split at hsafe
  · by_contra hnul
    unfold Found at hnone
    rw [cString_of_not_mem hnul] at hnone
    exact hnone (hsafe.resolve_left hnul)
  · exact List.mem_append_left _ hsafe.1

theorem afterTest_eq_none :
    afterTest fd now mem got = none ↔ ¬ SafeTest mem got := by
  unfold afterTest isRequestComplete
  simp only [strstr_isSome]
  by_cases hfound : crlfcrlf <:+: cString (blockAfter mem got)
  · rw [if_pos hfound]
    simp only [Option.bind_some, if_true]
    by_cases hlt : got.length < bufferRequestSize
    · rw [if_pos hlt]
      refine iff_of_false (by simp) fun hunsafe => hunsafe ?_
      unfold SafeTest
      rw [if_pos hlt]
      exact Or.inr (contains_of_cString hfound)
    · rw [if_neg hlt]
      refine iff_of_true rfl fun hsafe => ?_
      unfold SafeTest at hsafe
      rw [if_neg hlt] at hsafe
      rw [blockAfter_of_full (not_lt.mp hlt)] at hfound
      exact hsafe.2 hfound
  · rw [if_neg hfound]
    by_cases hnul : (0 : UInt8) ∈ blockAfter mem got
    · rw [if_pos hnul]
      refine iff_of_false (by simp) fun hunsafe => hunsafe ?_
      unfold SafeTest
      split
      · exact Or.inl hnul
      · rename_i hlt
        rw [blockAfter_of_full (not_lt.mp hlt)] at hnul hfound
        exact ⟨hnul, hfound⟩
    · rw [if_neg hnul]
      exact iff_of_true rfl fun hsafe => hnul (hsafe.nul hfound)

theorem accessesInBounds_afterTest {script : List RecvResult}
    (hrest : AccessesInBounds ⟨storing fd now mem got, got⟩ script ↔
      UpToFirst (Found mem) (SafeTest mem) (tests got script)) :
    (SafeTest mem got ∧
      ∀ receiver, afterTest fd now mem got = some receiver → AccessesInBounds receiver script) ↔
    UpToFirst (Found mem) (SafeTest mem) (got :: tests got script) := by
  rw [upToFirst_cons]
  refine and_congr_right fun hsafe => ?_
  unfold afterTest isRequestComplete
  simp only [strstr_isSome]
  by_cases hfound : crlfcrlf <:+: cString (blockAfter mem got)
  · refine iff_of_true (fun receiver he => ?_) fun hnone => absurd hfound hnone
    rw [if_pos hfound] at he
    simp only [Option.bind_some, if_true] at he
    split at he
    · obtain rfl := Option.some.inj he
      exact accessesInBounds_stopped (by simp) script
    · cases he
  · rw [if_neg hfound, if_pos (hsafe.nul hfound)]
    simp only [Option.bind_some, Bool.false_eq_true, if_false, Option.some.injEq,
      forall_eq']
    rw [hrest]
    exact (imp_iff_right hfound).symm

theorem recvAccesses_storing (r : RecvResult) :
    recvAccesses (storing fd now mem got) r =
      match r with
      | .eintr => []
      | .error => []
      | .eagain => testAccesses (blockAfter mem got) got.length
      | .data bytes =>
        let bytes := bytes.take (bufferRequestSize - got.length)
        if bytes = [] then []
        else List.range' got.length bytes.length ++
          testAccesses (blockAfter mem (got ++ bytes)) (got ++ bytes).length := by
  cases r with
  | data bytes =>
    simp only [recvAccesses, storing, freshConnection, writeAt_blockAfter, List.length_append]
  | _ => rfl

/-- The rest of a script, with the bytes `got` received and no test successful. -/
theorem accessesInBounds_storing (h : got.length ≤ bufferRequestSize) (script : List RecvResult) :
    AccessesInBounds ⟨storing fd now mem got, got⟩ script ↔
      UpToFirst (Found mem) (SafeTest mem) (tests got script) := by
  induction script generalizing got with
  | nil =>
    refine iff_of_true (fun calls r receiver hcalls => ?_) upToFirst_nil
    exact absurd (List.prefix_nil.mp hcalls) (by simp)
  | cons r script ih =>
    rw [accessesInBounds_cons, next_storing h, recvAccesses_storing]
    simp only [storing_state, forall_true_left]
    have hlength : (storing fd now mem got).requestBufferLength = bufferRequestSize := rfl
    rw [and_iff_right hlength]
    cases r with
    | eintr =>
      simp only [List.not_mem_nil, IsEmpty.forall_iff, implies_true, true_and, Option.some.injEq,
        forall_eq']
      exact ih h
    | error =>
      simp only [List.not_mem_nil, IsEmpty.forall_iff, implies_true, true_and, Option.some.injEq,
        forall_eq']
      exact iff_of_true (accessesInBounds_stopped (by simp) script) upToFirst_nil
    | eagain =>
      simp only [testAccesses_lt h]
      exact accessesInBounds_afterTest (ih h)
    | data bytes =>
      simp only [tests]
      by_cases hnil : bytes.take (bufferRequestSize - got.length) = []
      · simp only [if_pos hnil, List.not_mem_nil, IsEmpty.forall_iff, implies_true, true_and,
          Option.some.injEq, forall_eq']
        exact iff_of_true (accessesInBounds_stopped (by simp) script) upToFirst_nil
      · have hle : (got ++ bytes.take (bufferRequestSize - got.length)).length ≤
            bufferRequestSize := by
          rw [List.length_append, List.length_take]
          omega
        simp only [if_neg hnil, List.forall_mem_append, testAccesses_lt hle]
        have hwrites : ∀ i ∈ List.range' got.length
            (bytes.take (bufferRequestSize - got.length)).length, i < bufferRequestSize := by
          intro i hi
          obtain ⟨-, hi⟩ := List.mem_range'_1.mp hi
          rw [List.length_append] at hle
          omega
        rw [and_iff_right hwrites]
        exact accessesInBounds_afterTest (ih hle)

/-- **Receive-buffer bounds** hold over a script exactly when every test of the buffer, up to the
first one that finds the end of the headers, stays inside it. -/
theorem accessesInBounds_iff (fd : ℕ) (now : ℤ) (mem : RequestBlock) (script : List RecvResult) :
    AccessesInBounds (.start fd now mem) script ↔
      UpToFirst (Found mem) (SafeTest mem) (tests [] script) := by
  have hfits : ([] : Bytes).length ≤ bufferRequestSize := Nat.zero_le _
  exact accessesInBounds_storing hfits script

end Accesses

/-- A client may send as many bytes as the buffer holds, the end of the headers last. -/
def fullRequest : Bytes :=
  bytes "GET / HTTP/1.1\r\na: " ++ List.replicate (bufferRequestSize - 23) 120 ++ crlfcrlf

/-- The terminating NUL is written behind the buffer. -/
theorem accessesInBounds_fullRequest :
    ¬ ∀ (fd : ℕ) (now : ℤ) (mem : RequestBlock) (script : List RecvResult),
      AccessesInBounds (.start fd now mem) script := by
  intro h
  obtain ⟨-, hall⟩ := h 5 0 .zeroed [.data fullRequest] [] (.data fullRequest) _ (by simp) rfl rfl
  have hoffset : bufferRequestSize ∈
      recvAccesses (Receiver.start 5 0 .zeroed).connection (.data fullRequest) := by decide +kernel
  exact absurd (hall _ hoffset) (lt_irrefl _)

end UbServer
