import UbServer.Connection
import UbServer.Lib.CString

/-!
# One record of the log

`logMessage` of `logger.c`: the lengths are measured in a first pass and the text is printed into an
array of that length in a second one. The text that the format and its arguments give is an argument.

* `LogEnv`: what the function gets from other calls, among it what the arrays hold before they are
  written.
* `logMessage`: what is handed to `aio_write`. `none` is an overflow of an `int`, an access outside an
  array or an array that the stack has no room for.
* `logRecord`: the record as it is meant.
* `logMessage_eq`: the function submits the record exactly when its length is an `int` and the two
  arrays fit the stack.
-/

namespace UbServer

open CString

/-! ### `int` -/

/-- `INT_MAX`. -/
def intMax : ℕ := 2 ^ 31 - 1

/-- The sum of two lengths, if it is an `int`. -/
def intAdd (a b : ℕ) : Option ℕ := if a + b ≤ intMax then some (a + b) else none

/-- `snprintf(NULL, 0, "%s", text)`, if it does not fail. -/
def printedLength (text : Bytes) : Option ℕ := if text.length ≤ intMax then some text.length else none

/-! ### `logMessage` -/

inductive LogLevel where
  | error | warn | info | debug
  deriving DecidableEq, Repr

def loggerLevelToStr : LogLevel → Bytes
  | .error => bytes "ERROR"
  | .warn => bytes "WARN"
  | .info => bytes "INFO"
  | .debug => bytes "DEBUG"

/-- What `logMessage` gets from other calls: the descriptor of the log file, the formatted time (its
format has no newline, and it fits its array of `LOGGER_DATETIME_FORMAT_MAX` bytes), and the error
number with its description. The arrays that it declares hold anything; `stack` is how many bytes the
stack of the thread, megabytes in size, has left for them. -/
structure LogEnv where
  fileFd : ℕ
  datetime : Bytes
  errno : ℕ
  strerror : ℕ → Bytes
  array : ℕ → Bytes
  stack : ℕ
  datetime_fits : datetime.length < 26
  datetime_nul : (0 : UInt8) ∉ datetime
  datetime_line : (10 : UInt8) ∉ datetime
  strerror_nul : ∀ errno, (0 : UInt8) ∉ strerror errno
  length_array : ∀ size, (array size).length = size
  stack_left : 2 ^ 15 ≤ stack

/-- The fields of the `aiocb` that `logMessage` fills in. -/
structure Aiocb where
  aioFildes : ℕ
  aioBuf : Bytes
  aioNbytes : ℕ
  deriving DecidableEq

/-- The string in an array: what `%s` reads, `none` if it goes on behind the array. -/
def stringIn (array : Bytes) : Option Bytes := if 0 ∈ array then some (cString array) else none

/-- The declaration of an array, with so many bytes of the stack taken by the arrays before it. -/
def LogEnv.declare (env : LogEnv) (taken size : ℕ) : Option Bytes :=
  if taken + size ≤ env.stack then some (env.array size) else none

/-- The text of the format `"%s | %s | %s:%d | %s"`. -/
def logHead (env : LogEnv) (level : LogLevel) (codeFileName : Bytes) (codeLine : ℤ)
    (message : Bytes) : Bytes :=
  env.datetime ++ bytes " | " ++ loggerLevelToStr level ++ bytes " | " ++ codeFileName ++ bytes ":" ++
    bytes (toString codeLine) ++ bytes " | " ++ message

/-- The text of the format `" | %s"`. -/
def logErrno (env : LogEnv) : Bytes := bytes " | " ++ env.strerror env.errno

/-- `logMessage` from where it measures the whole record: the format `"%s | %s | %s:%d | %s"` gives
`head`, and the array of the message has taken so many bytes of the stack. -/
def submitRecord (env : LogEnv) (taken : ℕ) (showErrno : Bool) (head : Bytes) : Option Aiocb := do
  let lenFullMessage ← printedLength head
  let lenFullMessage ←
    if env.errno ≠ 0 ∧ showErrno then intAdd lenFullMessage (← printedLength (logErrno env))
    else some lenFullMessage
  let lenFullMessage ← intAdd lenFullMessage 1
  let fullMessage ← env.declare taken lenFullMessage
  let fullMessage ← snprintf fullMessage 0 lenFullMessage head
  let offset := head.length
  let fullMessage ←
    if env.errno ≠ 0 ∧ showErrno then
      snprintf fullMessage offset (lenFullMessage - offset) (logErrno env)
    else some fullMessage
  if lenFullMessage - 1 < fullMessage.length then
    some
      { aioFildes := env.fileFd
        aioBuf := fullMessage.set (lenFullMessage - 1) 10
        aioNbytes := lenFullMessage }
  else none

/-- The call with the format and the arguments that give `message`. -/
def logMessage (env : LogEnv) (level : LogLevel) (showErrno : Bool) (codeFileName : Bytes)
    (codeLine : ℤ) (message : Bytes) : Option Aiocb := do
  let lenMessageWithArguments ← printedLength message
  let lenMessageWithArguments ← intAdd lenMessageWithArguments 1
  let messageWithArguments ← env.declare 0 lenMessageWithArguments
  let messageWithArguments ← snprintf messageWithArguments 0 lenMessageWithArguments message
  let text ← stringIn messageWithArguments
  submitRecord env lenMessageWithArguments showErrno (logHead env level codeFileName codeLine text)

/-- The record: the time, the level, the place in the code and the message, then the description of
the error if there is one to be shown, then a newline. -/
def logRecord (env : LogEnv) (level : LogLevel) (showErrno : Bool) (codeFileName : Bytes)
    (codeLine : ℤ) (message : Bytes) : Bytes :=
  env.datetime ++ bytes " | " ++ loggerLevelToStr level ++ bytes " | " ++ codeFileName ++ bytes ":" ++
    bytes (toString codeLine) ++ bytes " | " ++ message ++
    (if env.errno ≠ 0 ∧ showErrno then bytes " | " ++ env.strerror env.errno else []) ++ [10]

section Record

variable {env : LogEnv} {level : LogLevel} {showErrno : Bool} {codeFileName message : Bytes}
  {codeLine : ℤ}

theorem printedLength_of_le {text : Bytes} (h : text.length ≤ intMax) :
    printedLength text = some text.length := if_pos h

theorem printedLength_inv {text : Bytes} {n : ℕ} (h : printedLength text = some n) :
    n = text.length := by
  unfold printedLength at h
  split at h
  · exact (Option.some.inj h).symm
  · cases h

theorem intAdd_of_le {a b : ℕ} (h : a + b ≤ intMax) : intAdd a b = some (a + b) := if_pos h

theorem intAdd_inv {a b n : ℕ} (h : intAdd a b = some n) : n = a + b ∧ a + b ≤ intMax := by
  unfold intAdd at h
  split at h
  · exact ⟨(Option.some.inj h).symm, ‹_›⟩
  · cases h

theorem stringIn_append_nul {s : Bytes} (hs : (0 : UInt8) ∉ s) (rest : Bytes) :
    stringIn (s ++ 0 :: rest) = some s := by
  unfold stringIn
  rw [if_pos (by simp), cString_append_nul hs]

theorem declare_of_le {taken size : ℕ} (h : taken + size ≤ env.stack) :
    env.declare taken size = some (env.array size) := if_pos h

theorem declare_inv {taken size : ℕ} {array : Bytes} (h : env.declare taken size = some array) :
    array = env.array size ∧ taken + size ≤ env.stack := by
  unfold LogEnv.declare at h
  split at h
  · exact ⟨(Option.some.inj h).symm, ‹_›⟩
  · cases h

/-- The message is read back from the array that it was printed into. -/
theorem printed_message (env : LogEnv) (hmessage : (0 : UInt8) ∉ message) :
    (snprintf (env.array (message.length + 1)) 0 (message.length + 1) message).bind stringIn =
      some message := by
  rw [snprintf_start (env.length_array _) (Nat.lt_succ_self _), Option.bind_some]
  exact stringIn_append_nul hmessage _

theorem set_last (s : Bytes) : (s ++ [0]).set s.length 10 = s ++ [10] := by
  simp

/-- A record of `length` bytes can be measured, and its array has room on the stack. -/
def LogEnv.Fits (env : LogEnv) (taken length : ℕ) : Prop :=
  length ≤ intMax ∧ taken + length ≤ env.stack

instance (env : LogEnv) (taken length : ℕ) : Decidable (env.Fits taken length) :=
  inferInstanceAs (Decidable (_ ∧ _))

theorem submitRecord_errno {taken : ℕ} {head : Bytes} (hshow : env.errno ≠ 0 ∧ showErrno = true) :
    submitRecord env taken showErrno head =
      if env.Fits taken (head.length + (logErrno env).length + 1) then
        some ⟨env.fileFd, head ++ logErrno env ++ [10], head.length + (logErrno env).length + 1⟩
      else none := by
  unfold submitRecord
  simp only [if_pos hshow, Option.bind_eq_bind]
  by_cases hfit : env.Fits taken (head.length + (logErrno env).length + 1)
  · obtain ⟨hint, hstack⟩ := hfit
    have hsize : head.length < head.length + (logErrno env).length + 1 := by omega
    have hrest : head.length + (logErrno env).length + 1 - head.length =
        (logErrno env).length + 1 := by omega
    have hold : (0 :: (env.array (head.length + (logErrno env).length + 1)).drop
        (head.length + 1)).length = (logErrno env).length + 1 := by
      rw [List.length_cons, List.length_drop, env.length_array]
      omega
    have hset := set_last (head ++ logErrno env)
    rw [List.length_append] at hset
    rw [if_pos ⟨hint, hstack⟩, printedLength_of_le (by omega), Option.bind_some,
      printedLength_of_le (by omega), Option.bind_some, intAdd_of_le (by omega), Option.bind_some,
      intAdd_of_le hint, Option.bind_some, declare_of_le hstack, Option.bind_some,
      snprintf_start (env.length_array _) hsize, Option.bind_some, hrest, snprintf_fill hold,
      Option.bind_some, Nat.add_sub_cancel, if_pos, hset]
    simp
  · -- one of the sums is no `int`, or the array has no room
    rw [if_neg hfit, Option.eq_none_iff_forall_ne_some]
    intro submitted h
    obtain ⟨n, hhead, h⟩ := Option.bind_eq_some_iff.mp h
    obtain ⟨m, herrno, h⟩ := Option.bind_eq_some_iff.mp h
    obtain ⟨sum, hsum, h⟩ := Option.bind_eq_some_iff.mp h
    obtain ⟨total, htotal, h⟩ := Option.bind_eq_some_iff.mp h
    obtain ⟨array, harray, -⟩ := Option.bind_eq_some_iff.mp h
    obtain rfl := printedLength_inv hhead
    obtain rfl := printedLength_inv herrno
    obtain ⟨rfl, -⟩ := intAdd_inv hsum
    obtain ⟨rfl, hint⟩ := intAdd_inv htotal
    exact hfit ⟨hint, (declare_inv harray).2⟩

theorem submitRecord_plain {taken : ℕ} {head : Bytes}
    (hshow : ¬ (env.errno ≠ 0 ∧ showErrno = true)) :
    submitRecord env taken showErrno head =
      if env.Fits taken (head.length + 1) then some ⟨env.fileFd, head ++ [10], head.length + 1⟩
      else none := by
  unfold submitRecord
  simp only [if_neg hshow, Option.bind_eq_bind, Option.bind_some]
  by_cases hfit : env.Fits taken (head.length + 1)
  · obtain ⟨hint, hstack⟩ := hfit
    have hprint := snprintf_fill (s := []) (env.length_array (head.length + 1))
    rw [List.nil_append, List.nil_append, List.length_nil] at hprint
    rw [if_pos ⟨hint, hstack⟩, printedLength_of_le (by omega), Option.bind_some, intAdd_of_le hint,
      Option.bind_some, declare_of_le hstack, Option.bind_some, hprint, Option.bind_some,
      Nat.add_sub_cancel, if_pos, set_last]
    simp
  · rw [if_neg hfit, Option.eq_none_iff_forall_ne_some]
    intro submitted h
    obtain ⟨n, hhead, h⟩ := Option.bind_eq_some_iff.mp h
    obtain ⟨total, htotal, h⟩ := Option.bind_eq_some_iff.mp h
    obtain ⟨array, harray, -⟩ := Option.bind_eq_some_iff.mp h
    obtain rfl := printedLength_inv hhead
    obtain ⟨rfl, hint⟩ := intAdd_inv htotal
    exact hfit ⟨hint, (declare_inv harray).2⟩

theorem submitRecord_eq (env : LogEnv) (taken : ℕ) (level : LogLevel) (showErrno : Bool)
    (codeFileName : Bytes) (codeLine : ℤ) (message : Bytes) :
    submitRecord env taken showErrno (logHead env level codeFileName codeLine message) =
      if env.Fits taken (logRecord env level showErrno codeFileName codeLine message).length then
        some ⟨env.fileFd, logRecord env level showErrno codeFileName codeLine message,
          (logRecord env level showErrno codeFileName codeLine message).length⟩
      else none := by
  by_cases hshow : env.errno ≠ 0 ∧ showErrno = true
  · have hrecord : logRecord env level showErrno codeFileName codeLine message =
        logHead env level codeFileName codeLine message ++ logErrno env ++ [10] := by
      unfold logRecord
      rw [if_pos hshow]
      rfl
    rw [submitRecord_errno hshow, hrecord, List.length_append, List.length_append,
      List.length_singleton]
  · have hrecord : logRecord env level showErrno codeFileName codeLine message =
        logHead env level codeFileName codeLine message ++ [10] := by
      unfold logRecord
      rw [if_neg hshow, List.append_nil]
      rfl
    rw [submitRecord_plain hshow, hrecord, List.length_append, List.length_singleton]

theorem length_message_lt : message.length <
    (logRecord env level showErrno codeFileName codeLine message).length := by
  unfold logRecord
  simp only [List.length_append, List.length_singleton]
  omega

/-- **The record is submitted as a whole** exactly when its length is an `int` and the stack has room
for the message with its NUL and the record. -/
theorem logMessage_eq (hmessage : (0 : UInt8) ∉ message) :
    logMessage env level showErrno codeFileName codeLine message =
      if env.Fits (message.length + 1)
          (logRecord env level showErrno codeFileName codeLine message).length then
        some ⟨env.fileFd, logRecord env level showErrno codeFileName codeLine message,
          (logRecord env level showErrno codeFileName codeLine message).length⟩
      else none := by
  have hle : message.length <
      (logRecord env level showErrno codeFileName codeLine message).length := length_message_lt
  unfold logMessage
  by_cases hfit : message.length + 1 ≤ intMax ∧ message.length + 1 ≤ env.stack
  · rw [printedLength_of_le (by omega), Option.bind_eq_bind, Option.bind_some,
      intAdd_of_le hfit.1, Option.bind_eq_bind, Option.bind_some, declare_of_le (by omega),
      Option.bind_some, ← submitRecord_eq]
    obtain ⟨array, hprint, htext⟩ := Option.bind_eq_some_iff.mp (printed_message env hmessage)
    rw [hprint, Option.bind_some, htext, Option.bind_some]
  · -- the array of the message cannot be declared, nor could the longer one of the record
    have hnot : ¬ env.Fits (message.length + 1)
        (logRecord env level showErrno codeFileName codeLine message).length := by
      unfold LogEnv.Fits
      omega
    rw [if_neg hnot, Option.eq_none_iff_forall_ne_some]
    intro submitted h
    obtain ⟨n, hlength, h⟩ := Option.bind_eq_some_iff.mp h
    obtain ⟨total, htotal, h⟩ := Option.bind_eq_some_iff.mp h
    obtain ⟨array, harray, -⟩ := Option.bind_eq_some_iff.mp h
    obtain rfl := printedLength_inv hlength
    obtain ⟨rfl, hint⟩ := intAdd_inv htotal
    have hstack := (declare_inv harray).2
    exact hfit ⟨hint, by omega⟩

/-- The head of a record has neither NUL nor newline but those of the message and the file name. -/
theorem notMem_logHead {b : UInt8} (hb : b = 0 ∨ b = 10) (hmessage : b ∉ message)
    (hfile : b ∉ codeFileName) : b ∉ logHead env level codeFileName codeLine message := by
  have hline : b ∉ bytes (toString codeLine) := by
    intro h
    have hcode := mem_bytes_toString h
    rcases hb with rfl | rfl <;> simp at hcode
  have hlevel : b ∉ loggerLevelToStr level := by
    rcases hb with rfl | rfl <;> cases level <;> decide +kernel
  have hfixed : b ∉ bytes " | " ++ bytes ":" := by
    rcases hb with rfl | rfl <;> decide +kernel
  have hdatetime : b ∉ env.datetime := by
    rcases hb with rfl | rfl
    · exact env.datetime_nul
    · exact env.datetime_line
  unfold logHead
  simp only [List.mem_append, not_or] at hfixed ⊢
  simp only [hfixed, hline, hlevel, hmessage, hfile, hdatetime, not_false_eq_true, and_self]

theorem logRecord_line (hmessage : (10 : UInt8) ∉ message) (hfile : (10 : UInt8) ∉ codeFileName) :
    ∃ line, logRecord env level false codeFileName codeLine message = line ++ [10] ∧
      (10 : UInt8) ∉ line := by
  refine ⟨logHead env level codeFileName codeLine message, ?_,
    notMem_logHead (Or.inr rfl) hmessage hfile⟩
  unfold logRecord
  rw [if_neg (fun h => Bool.false_ne_true h.2), List.append_nil]
  rfl

theorem nul_notMem_logRecord (hmessage : (0 : UInt8) ∉ message) (hfile : (0 : UInt8) ∉ codeFileName) :
    (0 : UInt8) ∉ logRecord env level showErrno codeFileName codeLine message := by
  have herrno : (0 : UInt8) ∉ if env.errno ≠ 0 ∧ showErrno = true then
      bytes " | " ++ env.strerror env.errno else [] := by
    split
    · rw [List.mem_append, not_or]
      exact ⟨by decide +kernel, env.strerror_nul _⟩
    · exact List.not_mem_nil
  have hrecord : logRecord env level showErrno codeFileName codeLine message =
      logHead env level codeFileName codeLine message ++
        (if env.errno ≠ 0 ∧ showErrno = true then bytes " | " ++ env.strerror env.errno else []) ++
          [10] := rfl
  rw [hrecord, List.mem_append, List.mem_append, not_or, not_or]
  exact ⟨⟨notMem_logHead (Or.inl rfl) hmessage hfile, herrno⟩, by decide⟩

/-- **Log record framing**, for a record that has at most `INT_MAX` bytes and arrays that fit the
stack. -/
theorem logMessage_submits (hmessage : (0 : UInt8) ∉ message) (hfile : (0 : UInt8) ∉ codeFileName)
    (hlength : (logRecord env level showErrno codeFileName codeLine message).length ≤ intMax)
    (hstack : message.length + 1 +
      (logRecord env level showErrno codeFileName codeLine message).length ≤ env.stack) :
    ∃ aiocb, logMessage env level showErrno codeFileName codeLine message = some aiocb ∧
      aiocb.aioFildes = env.fileFd ∧
      aiocb.aioBuf = logRecord env level showErrno codeFileName codeLine message ∧
      aiocb.aioNbytes = aiocb.aioBuf.length ∧ (0 : UInt8) ∉ aiocb.aioBuf := by
  rw [logMessage_eq hmessage, if_pos ⟨hlength, hstack⟩]
  exact ⟨_, rfl, rfl, rfl, rfl, nul_notMem_logRecord hmessage hfile⟩

end Record

def localLogEnv : LogEnv where
  fileFd := 3
  datetime := bytes "2024-02-03T04:05:06+0100"
  errno := 2
  strerror := fun _ => bytes "No such file or directory"
  array := fun size => List.replicate size 170
  stack := 8 * 2 ^ 20
  datetime_fits := by decide +kernel
  datetime_nul := by decide +kernel
  datetime_line := by decide +kernel
  strerror_nul := fun _ => by decide +kernel
  length_array := fun size => List.length_replicate
  stack_left := by decide

/-- An error with its description. -/
theorem logMessage_submits_error :
    ∃ aiocb, logMessage localLogEnv .error true (bytes "request.c") 104
        (bytes "UNSUPPORTED method FOO") = some aiocb ∧
      aiocb.aioBuf = bytes ("2024-02-03T04:05:06+0100 | ERROR | request.c:104 | " ++
        "UNSUPPORTED method FOO | No such file or directory\n") ∧
      aiocb.aioNbytes = aiocb.aioBuf.length := by
  have hrecord : logRecord localLogEnv .error true (bytes "request.c") 104
      (bytes "UNSUPPORTED method FOO") =
        bytes ("2024-02-03T04:05:06+0100 | ERROR | request.c:104 | " ++
          "UNSUPPORTED method FOO | No such file or directory\n") := by decide +kernel
  obtain ⟨aiocb, h, -, hbuf, hbytes, -⟩ := logMessage_submits (by decide +kernel) (by decide +kernel)
    (show (logRecord localLogEnv .error true (bytes "request.c") 104
      (bytes "UNSUPPORTED method FOO")).length ≤ intMax by decide +kernel)
    (show _ ≤ localLogEnv.stack by decide +kernel)
  exact ⟨aiocb, h, hbuf.trans hrecord, hbytes⟩

/-- A message of 5000000 bytes: with the record, it does not fit the 8 MiB of the stack. -/
theorem logMessage_overflows :
    ¬ ∀ (env : LogEnv) (level : LogLevel) (showErrno : Bool) (codeFileName : Bytes) (codeLine : ℤ)
      (message : Bytes), (0 : UInt8) ∉ message → (10 : UInt8) ∉ message →
        (0 : UInt8) ∉ codeFileName →
        ∃ aiocb, logMessage env level showErrno codeFileName codeLine message = some aiocb ∧
          aiocb.aioBuf = logRecord env level showErrno codeFileName codeLine message ∧
          aiocb.aioNbytes = aiocb.aioBuf.length := by
  intro h
  obtain ⟨message, hlength, hchars⟩ : ∃ message : Bytes, message.length = 5000000 ∧
      ∀ b ∈ message, b = 97 :=
    ⟨List.replicate 5000000 97, List.length_replicate, fun _ hb => List.eq_of_mem_replicate hb⟩
  have hnul : (0 : UInt8) ∉ message := fun hb => absurd (hchars 0 hb) (by decide)
  obtain ⟨aiocb, hsubmit, -⟩ := h localLogEnv .info false (bytes "request.c") 203 message hnul
    (fun hb => absurd (hchars 10 hb) (by decide)) (by decide +kernel)
  have hlong : 5000000 < (logRecord localLogEnv .info false (bytes "request.c") 203 message).length :=
    hlength ▸ length_message_lt
  have hroom : ¬ localLogEnv.Fits (message.length + 1)
      (logRecord localLogEnv .info false (bytes "request.c") 203 message).length := by
    intro hfits
    have hstack := hfits.2
    have height : localLogEnv.stack = 8388608 := rfl
    omega
  rw [logMessage_eq hnul, if_neg hroom] at hsubmit
  cases hsubmit

end UbServer
