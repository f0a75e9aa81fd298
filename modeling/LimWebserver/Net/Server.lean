import LimWebserver.Lib.Transition

namespace LimWebserver.TcpServer

open LimWebserver.Lib

/-!
# Net — the accept loop of `TcpServer`

The task of a listening socket accepts clients as long as the server is started; `stop` may come
from another task between any two of its steps.  What `Socket::accept` returns is the environment's
choice: it also returns null because `stop` has closed the listening socket.

* `Pc`, `State` — where the loop stands, and the calls that it has made;
* `trace` — the log line, which is built at every level;
* `Safe` — a task and a timeout for each client, and no crash;
* `accept_stopped` — `stop` during `accept`; `accept_iff` — all runs.
-/

/-- The next statement of the loop. -/
inductive Pc (Client : Type*)
  /-- `while (m_started)` -/
  | test
  /-- `socket->accept()`, and the log line -/
  | accept
  | setRecvTimeout (client : Client)
  | createTask (client : Client)
  | returned
  /-- a null pointer has been dereferenced -/
  | crashed
  deriving DecidableEq, Repr

structure State (Client : Type*) where
  m_started : Bool
  m_recvTimeout : UInt64
  pc : Pc Client
  /-- the sockets that `accept` has returned -/
  accepted : List Client
  /-- the calls of `setRecvTimeout` -/
  recvTimeouts : List (Client × Int64)
  /-- the tasks `handleClient(client)` of `m_worker` -/
  tasks : List Client
  deriving DecidableEq

inductive Action (Client : Type*)
  | test
  | accept (client : Option Client)
  | setRecvTimeout
  | createTask
  /-- `stop()`, from elsewhere -/
  | stop
  deriving DecidableEq, Repr

variable {Client : Type*}

/-- `LOG_TRACE(g_logger) << client->peerAddress()->toString()`; none: `client` is null.  `LOG_LEVEL`
    compares no levels before the operands are evaluated. -/
def trace (client : Option Client) : Option Unit := client.map fun _ => ()

/-- `socket->accept()` and what follows it up to the first call. -/
def acceptClient (s : State Client) (client : Option Client) : State Client :=
  match trace client with
  | none => { s with pc := .crashed }
  | some () =>
    match client with
    | some client => { s with pc := .setRecvTimeout client, accepted := s.accepted ++ [client] }
    | none => { s with pc := .test }

/-- One statement of `accept(socket)`, or `stop()`. -/
def step (s : State Client) (a : Action Client) : Option (State Client) :=
  match s.pc, a with
  | .crashed, _ => none
  | _, .stop => some { s with m_started := false }
  | .test, .test => some { s with pc := if s.m_started then .accept else .returned }
  | .accept, .accept client => some (acceptClient s client)
  | .setRecvTimeout client, .setRecvTimeout =>
    some { s with
      pc := .createTask client
      recvTimeouts := s.recvTimeouts ++ [(client, s.m_recvTimeout.toInt64)] }
  | .createTask client, .createTask =>
    some { s with pc := .test, tasks := s.tasks ++ [client] }
  | _, _ => none

/-- The state in which `start` has created the task. -/
def start (m_recvTimeout : UInt64) : State Client := ⟨true, m_recvTimeout, .test, [], [], []⟩

/-- All runs of one loop. -/
def system (Client : Type*) : LTS (State Client) (Action Client) where
  init s := ∃ m_recvTimeout, s = start m_recvTimeout
  step := step

namespace Pc

/-- The client whose task is not yet created. -/
def pending : Pc Client → List Client
  | setRecvTimeout client | createTask client => [client]
  | _ => []

/-- The client whose timeout is set and whose task is not yet created. -/
def prepared : Pc Client → List Client
  | createTask client => [client]
  | _ => []

end Pc

/-- **What the loop promises**: each client has its task, exactly once and in order, except for the
    one that the loop is busy with; each has got its timeout before; and there is no crash. -/
structure Safe (s : State Client) : Prop where
  not_crashed : s.pc ≠ .crashed
  tasks : s.tasks ++ s.pc.pending = s.accepted
  recvTimeouts : s.recvTimeouts =
    (s.tasks ++ s.pc.prepared).map fun client => (client, s.m_recvTimeout.toInt64)

theorem safe_start (m_recvTimeout : UInt64) : Safe (start m_recvTimeout : State Client) :=
  ⟨nofun, rfl, rfl⟩

/-- A step that does not accept null keeps the promise. -/
theorem safe_step {s s' : State Client} {a : Action Client} (h : Safe s)
    (hclient : a ≠ .accept none) (hs : step s a = some s') : Safe s' := by
  obtain ⟨m_started, m_recvTimeout, pc, accepted, recvTimeouts, tasks⟩ := s
  obtain ⟨hcrashed, htasks, htimeouts⟩ := h
  dsimp only at hcrashed htasks htimeouts
  subst htasks htimeouts
  cases a with
  | test =>
    cases pc <;> cases hs
    cases m_started <;> exact ⟨nofun, rfl, rfl⟩
  | accept client =>
    cases pc <;> cases hs
    cases client with
    | none => exact absurd rfl hclient
    | some client => exact ⟨nofun, by simp [acceptClient, trace, Pc.pending], rfl⟩
  | setRecvTimeout =>
    cases pc <;> cases hs
    exact ⟨nofun, rfl, by simp [Pc.prepared]⟩
  | createTask =>
    cases pc <;> cases hs
    exact ⟨nofun, by simp [Pc.pending], by simp [Pc.prepared]⟩
  | stop => cases pc <;> cases hs <;> exact ⟨nofun, rfl, rfl⟩

/-- To accept null is to crash. -/
theorem crashed_of_accept_none {s s' : State Client} (hs : step s (.accept none) = some s') :
    s'.pc = .crashed := by
  obtain ⟨m_started, m_recvTimeout, pc, accepted, recvTimeouts, tasks⟩ := s
  cases pc <;> cases hs
  rfl

/-- **`stop` during `accept`**: the listening socket is closed, `accept` returns null, and the log
    line dereferences it. -/
theorem accept_stopped : ¬ ∀ (as : List (Action Nat)) (s : State Nat),
    (system Nat).exec (start 120000) as = some s → Safe s := fun h =>
  (h [.test, .stop, .accept none] _ rfl).not_crashed rfl

/-- **The loop is safe** exactly as long as `accept` does not return null. -/
theorem accept_iff {m_recvTimeout : UInt64} {as : List (Action Client)} {s : State Client}
    (hrun : (system Client).exec (start m_recvTimeout) as = some s) :
    Safe s ↔ Action.accept none ∉ as := by
  have hiff := LTS.safe_iff_guarded (T := system Client) (I := Safe) (S := Safe)
    (B := fun s => s.pc = .crashed) (G := fun _ a => a ≠ .accept none) (fun _ h => h)
    (fun _ hcrashed h => h.not_crashed hcrashed) (fun _ _ _ h => safe_step h)
    (fun _ a _ _ hnot hs => crashed_of_accept_none (Classical.not_not.mp hnot ▸ hs))
    (fun t _ _ hcrashed hs => ?_) (safe_start m_recvTimeout) hrun
  · rw [hiff, LTS.guarded_label hrun]
    exact ⟨fun h hmem => h _ hmem rfl, fun h a ha heq => h (heq ▸ ha)⟩
  · -- there is no step behind a crash
    obtain ⟨m_started, m_recvTimeout, pc, accepted, recvTimeouts, tasks⟩ := t
    cases hcrashed
    cases hs

theorem accept_iff_client : Safe (⟨false, 120000, .test, [5], [(5, 120000)], [5]⟩ : State Nat) :=
  have hrun : (system Nat).exec (start 120000)
      [.test, .accept (some 5), .setRecvTimeout, .stop, .createTask] = some _ := rfl
  (accept_iff hrun).mpr (by decide)

end LimWebserver.TcpServer
