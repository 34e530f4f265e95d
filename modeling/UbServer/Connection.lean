import UbServer.Lib.Decimal
import Mathlib.Algebra.Group.Nat.Defs
import Mathlib.Data.Int.Notation
import Mathlib.Tactic.Common

/-!
# The connection record

`QueueConnectionElementType` of `queue_connections.h` with its enumerations, the constants of
`server.h`, and `emptyConnection`.

A `char` is a `UInt8`; a `char *` or a `char` array that holds a C string is the list of its bytes
before the terminating NUL, and a pointer that may be `NULL` is an `Option`. The linked list of
request headers is a `List`, `NULL` being `[]`. `requestBuffer` is not a string: it is the whole
block `malloc` returned, with whatever it held before.
-/

namespace UbServer

abbrev Bytes := List UInt8

/-- The bytes of an ASCII literal. -/
def bytes (s : String) : Bytes := s.toList.map fun c => UInt8.ofNat c.toNat

theorem forall_mem_of_all {p : UInt8 → Prop} [DecidablePred p] {s : Bytes}
    (h : s.all fun c => p c) : ∀ c ∈ s, p c :=
  fun c hc => of_decide_eq_true (List.all_eq_true.mp h c hc)

/-! ### Numbers in texts -/

theorem leftInvOn_ascii : Set.LeftInvOn (fun b : UInt8 => Char.ofNat b.toNat)
    (fun c => UInt8.ofNat c.toNat) Decimal.numeralChars := by
  intro c hc
  have hcode := Decimal.toNat_of_mem hc
  have hbyte : (UInt8.ofNat c.toNat).toNat = c.toNat := by
    rw [UInt8.toNat_ofNat']
    omega
  simp only [hbyte]
  exact Char.ofNat_toNat c

theorem bytes_toString (n : ℤ) :
    bytes (toString n) = (Decimal.numeral n).map fun c => UInt8.ofNat c.toNat := rfl

theorem mem_bytes_toString {n : ℤ} {b : UInt8} (h : b ∈ bytes (toString n)) :
    b.toNat = 45 ∨ 48 ≤ b.toNat ∧ b.toNat ≤ 57 := by
  obtain ⟨c, hc, rfl⟩ := List.mem_map.mp h
  have hcode := Decimal.toNat_of_mem (Decimal.mem_numeralChars hc)
  rw [UInt8.toNat_ofNat']
  omega

theorem bytes_toString_nat (n : ℕ) : bytes (toString n) = bytes (toString (n : ℤ)) := by
  rw [bytes_toString, Decimal.numeral_of_nonneg]
  rfl

/-! ### `server.h` -/

abbrev requestPathMaxSize : ℕ := 4096
abbrev bufferRequestSize : ℕ := 1024
abbrev keepAliveTimeout : ℤ := 60
abbrev maxEpollEvents : ℕ := 1024

/-! ### `queue_connections.h` -/

inductive Method where
  | get | post | put | patch | delete | head | options | unsupported
  deriving DecidableEq, Repr

inductive StateConnection where
  | recv | sendHeaders | sendBody | done | doneForClose
  deriving DecidableEq, Repr

inductive ContentEncoding where
  | none | gzip | deflate | brotli
  deriving DecidableEq, Repr

/-- The members of `enum HTTP_STATUS_CODE` that the server assigns. -/
inductive HttpStatusCode where
  | ok | notFound | internalServerError
  deriving DecidableEq, Repr

/-- A node of `struct Header`. -/
structure Header where
  name : Bytes
  value : Bytes
  deriving DecidableEq, Repr

structure QueueConnectionElementType where
  priorityTime : ℤ
  clientFd : ℕ
  state : StateConnection
  requestBuffer : Option Bytes
  requestBufferLength : ℕ
  requestBufferOffset : ℕ
  keepAlive : Bool
  responseBufferHeaders : Option Bytes
  responseBufferHeadersLength : ℕ
  responseBufferHeadersOffset : ℕ
  bodyFd : ℤ
  bodyLength : ℕ
  bodyOffset : ℕ
  contentEncoding : ContentEncoding
  scheme : Bytes
  protocolVersion : Bytes
  method : Method
  path : Option Bytes
  absolutePath : Option Bytes
  requestHeaders : List Header
  requestBody : Option Bytes
  ip : Bytes
  responseStatusCode : HttpStatusCode
  deriving DecidableEq, Repr

/-- `emptyConnection`: the record after `memset` to 0 and the assignments that follow it. -/
def emptyConnection : QueueConnectionElementType where
  priorityTime := 0
  clientFd := 0
  state := .recv
  requestBuffer := none
  requestBufferLength := 0
  requestBufferOffset := 0
  keepAlive := false
  responseBufferHeaders := none
  responseBufferHeadersLength := 0
  responseBufferHeadersOffset := 0
  bodyFd := -1
  bodyLength := 0
  bodyOffset := 0
  contentEncoding := .none
  scheme := []
  protocolVersion := []
  method := .get
  path := none
  absolutePath := none
  requestHeaders := []
  requestBody := none
  ip := []
  responseStatusCode := .ok

/-- What `malloc(BUFFER_REQUEST_SIZE)` returns: a block of that length, with any content. -/
abbrev RequestBlock := { mem : Bytes // mem.length = bufferRequestSize }

/-- A block that happens to be filled with zeros. -/
def RequestBlock.zeroed : RequestBlock :=
  ⟨List.replicate bufferRequestSize 0, List.length_replicate ..⟩

/-- The record that `getConnectionOrCreateByFd` and `updateQueueConnection` both start a request
with: an empty one for `fd`, stamped `now`, with a fresh request buffer. -/
def freshConnection (fd : ℕ) (now : ℤ) (mem : RequestBlock) : QueueConnectionElementType :=
  { emptyConnection with
    clientFd := fd
    priorityTime := now
    state := .recv
    requestBuffer := some mem.val
    requestBufferLength := bufferRequestSize }

@[simp] theorem freshConnection_clientFd (fd : ℕ) (now : ℤ) (mem : RequestBlock) :
    (freshConnection fd now mem).clientFd = fd := rfl

@[simp] theorem freshConnection_priorityTime (fd : ℕ) (now : ℤ) (mem : RequestBlock) :
    (freshConnection fd now mem).priorityTime = now := rfl

end UbServer
