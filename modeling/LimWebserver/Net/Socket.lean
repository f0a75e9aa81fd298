import LimWebserver.Lib.Transition
import LimWebserver.Lib.Ownership
import Mathlib.Tactic.Tauto

namespace LimWebserver.Sockets

open LimWebserver.Lib

/-!
# Net — `Socket` objects and their descriptors

Sockets are constructed, accepted, connected, closed and destroyed in any order.  Which descriptor
`::socket` and `::accept` return, and whether `fstat` takes it for a socket, is the kernel's choice;
a descriptor that is open is not returned.

* `Socket`, `State` — the live objects, the open descriptors and the `FdManager` table;
* `construct`, `close`, `destroy`, `init`, `accept`, `connect` — the member functions, over the
  hooked `socket`, `accept` and `close`;
* `Owned` — the open descriptors are the `m_fd` of the live objects, one each;
* `accept_leaks_fd` — the descriptor that the constructor opened is lost in `accept()`;
* `owned_iff_clean` — a run keeps `Owned` exactly when no `accept()` replaces or drops a descriptor.
-/

structure Socket where
  /-- `none` is −1. -/
  m_fd : Option Nat
  m_family : Int
  m_type : Int
  m_protocol : Int
  m_isConnected : Bool
  deriving DecidableEq, Repr

/-- What `::socket` and `::accept` return, and whether it is a socket for `fstat`; `none` is −1. -/
abbrev FdResult := Option (Nat × Bool)

structure State where
  /-- the open descriptors -/
  openFds : Finset Nat
  /-- the `m_isSocket` of the entries of `FdManager` -/
  fdManager : Nat → Option Bool
  /-- the live `Socket` objects -/
  sockets : Nat → Option Socket
  /-- the next object -/
  next : Nat
  /-- `::close` has been called on a descriptor that is not open -/
  closedTwice : Bool

namespace State

variable (s : State)

/-- The kernel does not return a descriptor that is open. -/
def Fresh (r : FdResult) : Prop := ∀ fd ∈ r, fd.1 ∉ s.openFds

instance (r : FdResult) : Decidable (s.Fresh r) :=
  match r with
  | none => .isTrue nofun
  | some fd => decidable_of_iff (fd.1 ∉ s.openFds)
      ⟨fun h _ hfd => by rw [← Option.mem_some.mp hfd]; exact h, fun h => h fd rfl⟩

/-- `FdManager::create(fd)` -/
def create (fd : Nat) (isSocket : Bool) : State :=
  { s with fdManager := Function.update s.fdManager fd (some isSocket) }

/-- The hooked `socket`. -/
def sysSocket : FdResult → State
  | none => s
  | some (fd, isSocket) =>
    let s := { s with openFds := insert fd s.openFds }
    -- the hook does not create an entry for descriptor 0
    if 0 < fd then s.create fd isSocket else s

/-- The hooked `accept`. -/
def sysAccept : FdResult → State
  | none => s
  | some (fd, isSocket) => { s with openFds := insert fd s.openFds }.create fd isSocket

/-- The hooked `close`. -/
def sysClose (fd : Nat) : State :=
  { s with
    fdManager := Function.update s.fdManager fd none
    openFds := s.openFds.erase fd
    closedTwice := s.closedTwice || decide (fd ∉ s.openFds) }

def setSocket (i : Nat) (sock : Option Socket) : State :=
  { s with sockets := Function.update s.sockets i sock }

/-- `Socket::Socket`; the object is number `next`. -/
def construct (family type protocol : Int) (r : FdResult) : State :=
  { (s.sysSocket r).setSocket s.next (some ⟨r.map Prod.fst, family, type, protocol, false⟩) with
    next := s.next + 1 }

def close (i : Nat) : Bool × State :=
  match s.sockets i with
  | none => (true, s)
  | some sock =>
    -- −1 is `none`
    match sock.m_fd with
    | none =>
      if sock.m_isConnected then (false, s.setSocket i (some { sock with m_isConnected := false }))
      else (true, s)
    | some fd =>
      (false, (s.sysClose fd).setSocket i (some { sock with m_isConnected := false, m_fd := none }))

/-- `Socket::~Socket` -/
def destroy (i : Nat) : State := (s.close i).2.setSocket i none

def init (i : Nat) (sock : Nat) : Bool × State :=
  match s.fdManager sock, s.sockets i with
  -- the entry of `FdManager` is there and is one of a socket
  | some true, some this =>
    (true, s.setSocket i (some { this with m_fd := some sock, m_isConnected := true }))
  | _, _ => (false, s)

/-- `accept()` of the object `this`; `r` is what `::socket` returns in the constructor of the new
    object and `newsock` what `::accept` returns. -/
def accept (this : Socket) (r newsock : FdResult) : Option Nat × State :=
  let sock := s.next
  -- the constructor of the new object opens a descriptor of its own
  let s := (s.construct this.m_family this.m_type this.m_protocol r).sysAccept newsock
  match newsock with
  | none => (none, s.destroy sock)
  | some (newsock, _) =>
    match s.init sock newsock with
    | (true, s) => (some sock, s)
    -- the accepted descriptor is in no object
    | (false, s) => (none, s.destroy sock)

/-- `connect()` of the object `this` to an address of the given family; `none` means that the null
    `fdInfo` is followed. -/
def connect (i : Nat) (this : Socket) (family : Int) (timeout_ms : Option Nat) (connected : Bool) :
    Option (Bool × State) :=
  if family ≠ this.m_family then some (false, s)
  -- `fdInfo->setTcpConnectTimeout(timeout_ms)` without an entry
  else if timeout_ms.isSome && (this.m_fd.bind s.fdManager).isNone then none
  else if connected then some (true, s.setSocket i (some { this with m_isConnected := true }))
  else some (false, (s.close i).2)

end State

/-- The operations, with what the kernel answers. -/
inductive Action
  /-- a constructor, and `m_isConnected = true` after it where a `Create…` function has it -/
  | create (family type protocol : Int) (isConnected : Bool) (r : FdResult)
  | accept (i : Nat) (r newsock : FdResult)
  | connect (i : Nat) (family : Int) (timeout_ms : Option Nat) (connected : Bool)
  | close (i : Nat)
  | destroy (i : Nat)
  deriving DecidableEq, Repr

def step (s : State) : Action → Option State
  | .create family type protocol isConnected r =>
    if s.Fresh r then
      let sock : Socket := ⟨r.map Prod.fst, family, type, protocol, isConnected⟩
      some ((s.construct family type protocol r).setSocket s.next (some sock))
    else none
  | .accept i r newsock =>
    match s.sockets i with
    | none => none
    | some this =>
      if s.Fresh r ∧
          (s.construct this.m_family this.m_type this.m_protocol r).Fresh newsock then
        some (s.accept this r newsock).2
      else none
  | .connect i family timeout_ms connected =>
    match s.sockets i with
    | none => none
    | some this => (s.connect i this family timeout_ms connected).map Prod.snd
  | .close i => if (s.sockets i).isSome then some (s.close i).2 else none
  | .destroy i => if (s.sockets i).isSome then some (s.destroy i) else none

def initial : State := ⟨∅, fun _ => none, fun _ => none, 0, false⟩

def system : LTS State Action where
  init := fun s => s = initial
  step := step

/-- The descriptor of an object. -/
def State.owner (s : State) (i : Nat) : Option Nat := (s.sockets i).bind Socket.m_fd

/-- **What the objects promise**: the open descriptors are the `m_fd` of the live objects, one each,
    and no descriptor has been closed twice. -/
structure Owned (s : State) : Prop where
  owns : Owns s.openFds s.owner
  closed : s.closedTwice = false

/-- The `accept()` calls that neither replace nor drop a descriptor: `::accept` fails, or the
    constructor got no descriptor and the accepted one is found to be a socket. -/
def Clean (_ : State) : Action → Prop
  | .accept _ r newsock => newsock = none ∨ r = none ∧ ∃ fd, newsock = some (fd, true)
  | _ => True

instance (s : State) : ∀ a, Decidable (Clean s a)
  | .accept _ _ none => .isTrue (.inl rfl)
  | .accept _ none (some (fd, true)) => .isTrue (.inr ⟨rfl, fd, rfl⟩)
  | .accept _ (some _) (some _) => .isFalse fun h => h.elim (by simp) fun h => nomatch h.1
  | .accept _ none (some (_, false)) =>
    .isFalse fun h => h.elim (by simp) fun ⟨_, _, h⟩ => nomatch h
  | .create .. => .isTrue trivial
  | .connect .. => .isTrue trivial
  | .close _ => .isTrue trivial
  | .destroy _ => .isTrue trivial

/-! ### What the member functions do to the descriptors -/

section Owner

variable {s : State} {i : Nat} {P : Finset Nat → (Nat → Option Nat) → Prop}

theorem setSocket_owner (s : State) (i : Nat) (sock : Option Socket) :
    (s.setSocket i sock).owner = Function.update s.owner i (sock.bind Socket.m_fd) := by
  ext1 j
  by_cases hj : j = i
  · subst hj
    simp only [State.owner, State.setSocket, Function.update_self]
  · simp only [State.owner, State.setSocket, Function.update_of_ne hj]

/-- The objects do not notice a system call. -/
theorem sysSocket_spec (s : State) (r : FdResult) : (s.sysSocket r).sockets = s.sockets ∧
    (s.sysSocket r).next = s.next ∧ (s.sysSocket r).closedTwice = s.closedTwice ∧
      (s.sysSocket r).openFds = r.elim s.openFds fun fd => insert fd.1 s.openFds := by
  match r with
  | none => exact ⟨rfl, rfl, rfl, rfl⟩
  | some (fd, isSocket) =>
    unfold State.sysSocket
    dsimp only
    split
    · exact ⟨rfl, rfl, rfl, rfl⟩
    · exact ⟨rfl, rfl, rfl, rfl⟩

/-- What holds of every state: an object has an open descriptor of its own or none, the objects from
    `next` on are not there, and no descriptor has been closed twice. -/
structure Inv (s : State) : Prop where
  sound : Sound s.openFds s.owner
  closed : s.closedTwice = false
  next : ∀ j, s.next ≤ j → s.sockets j = none

theorem Inv.owner_next (h : Inv s) : s.owner s.next = none := by
  rw [State.owner, h.next _ (Nat.le_refl _), Option.bind_none]

theorem construct_owner (s : State) (family type protocol : Int) (r : FdResult) :
    (s.construct family type protocol r).owner =
      Function.update s.owner s.next (r.map Prod.fst) := by
  have hsock : (s.sysSocket r).owner = s.owner := by
    unfold State.owner
    rw [(sysSocket_spec s r).1]
  show ((s.sysSocket r).setSocket s.next _).owner = _
  rw [setSocket_owner, hsock, Option.bind_some]

/-- **Construction** acquires a descriptor, if there is one. -/
theorem Inv.construct (h : Inv s) {r : FdResult} (hr : s.Fresh r) (family type protocol : Int) :
    Inv (s.construct family type protocol r) ∧
      (Kept P → P s.openFds s.owner →
        P (s.construct family type protocol r).openFds
          (s.construct family type protocol r).owner) := by
  obtain ⟨hsockets, hnext, hclosed, hopen⟩ := sysSocket_spec s r
  have hfds : (s.construct family type protocol r).openFds =
      r.elim s.openFds fun fd => insert fd.1 s.openFds := hopen
  have hkept : ∀ {Q : Finset Nat → (Nat → Option Nat) → Prop}, Kept Q → Q s.openFds s.owner →
      Q (s.construct family type protocol r).openFds
        (s.construct family type protocol r).owner := by
    intro Q hQ hs
    rw [construct_owner, hfds]
    match r with
    | none =>
      rw [Option.map_none, ← h.owner_next, Function.update_eq_self]
      exact hs
    | some (fd, isSocket) => exact hQ.acquire hs (hr _ rfl) h.owner_next
  refine ⟨⟨hkept Sound.kept h.sound, hclosed.trans h.closed, fun j hj => ?_⟩, hkept⟩
  have hj : s.next + 1 ≤ j := hj
  show Function.update (s.sysSocket r).sockets s.next _ j = none
  rw [Function.update_of_ne (by omega), hsockets]
  exact h.next j (by omega)

/-- **Closing** releases the descriptor, if there is one. -/
theorem Inv.close (h : Inv s) (i : Nat) :
    Inv (s.close i).2 ∧ (s.close i).2.owner = Function.update s.owner i none ∧
      (Kept P → P s.openFds s.owner → P (s.close i).2.openFds (s.close i).2.owner) := by
  have hsame : s.owner i = none → Function.update s.owner i none = s.owner := fun ho => by
    rw [← ho, Function.update_eq_self]
  cases hi : s.sockets i with
  | none =>
    have ho : s.owner i = none := by rw [State.owner, hi, Option.bind_none]
    have hc : s.close i = (true, s) := by simp only [State.close, hi]
    rw [hc]
    exact ⟨h, (hsame ho).symm, fun _ hs => hs⟩
  | some sock =>
    have hlive : ∀ j, s.next ≤ j → j ≠ i := by
      rintro j hj rfl
      exact absurd ((h.next j hj).symm.trans hi) (by simp)
    cases hfd : sock.m_fd with
    | none =>
      -- the object only forgets that it is connected
      have ho : s.owner i = none := by rw [State.owner, hi, Option.bind_some, hfd]
      by_cases hconn : sock.m_isConnected = true
      · have hc : s.close i =
            (false, s.setSocket i (some { sock with m_isConnected := false })) := by
          simp only [State.close, hi, hfd, if_pos hconn]
        have howner : (s.setSocket i (some { sock with m_isConnected := false })).owner =
            s.owner := by
          rw [setSocket_owner, Option.bind_some, hfd, hsame ho]
        rw [hc]
        refine ⟨⟨?_, h.closed, fun j hj => ?_⟩, howner.trans (hsame ho).symm, fun _ hs => ?_⟩
        · rw [howner]
          exact h.sound
        · exact (Function.update_of_ne (hlive j hj) _ _).trans (h.next j hj)
        · rw [howner]
          exact hs
      · have hc : s.close i = (true, s) := by simp only [State.close, hi, hfd, if_neg hconn]
        rw [hc]
        exact ⟨h, (hsame ho).symm, fun _ hs => hs⟩
    | some fd =>
      have hc : s.close i = (false, (s.sysClose fd).setSocket i
          (some { sock with m_isConnected := false, m_fd := none })) := by
        simp only [State.close, hi, hfd]
      have ho : s.owner i = some fd := by rw [State.owner, hi, Option.bind_some, hfd]
      have howner : ((s.sysClose fd).setSocket i
          (some { sock with m_isConnected := false, m_fd := none })).owner =
            Function.update s.owner i none := setSocket_owner (s.sysClose fd) i _
      rw [hc]
      refine ⟨⟨?_, ?_, fun j hj => ?_⟩, howner, fun hP hs => ?_⟩
      · rw [howner]
        exact h.sound.release ho
      · -- the descriptor that is closed is open
        show (s.closedTwice || decide (fd ∉ s.openFds)) = false
        rw [h.closed, decide_eq_false (not_not_intro (h.sound.mem i fd ho)), Bool.or_self]
      · exact (Function.update_of_ne (hlive j hj) _ _).trans (h.next j hj)
      · rw [howner]
        exact hP.release hs ho

/-- **Destruction** closes. -/
theorem Inv.destroy (h : Inv s) (i : Nat) :
    Inv (s.destroy i) ∧
      (Kept P → P s.openFds s.owner → P (s.destroy i).openFds (s.destroy i).owner) := by
  have hclose := h.close (P := P) i
  obtain ⟨hinv, howner, hkept⟩ := hclose
  have hsame : (s.destroy i).owner = (s.close i).2.owner := by
    rw [State.destroy, setSocket_owner, Option.bind_none, howner, Function.update_idem]
  refine ⟨⟨?_, hinv.closed, fun j hj => ?_⟩, fun hP hs => ?_⟩
  · rw [hsame]
    exact hinv.sound
  · show Function.update (s.close i).2.sockets i none j = none
    by_cases hji : j = i
    · rw [hji, Function.update_self]
    · rw [Function.update_of_ne hji]
      exact hinv.next j hj
  · rw [hsame]
    exact hkept hP hs

/-- An object whose descriptor does not change. -/
theorem Inv.setSocket (h : Inv s) {this : Socket} (hi : s.sockets i = some this) (sock : Socket)
    (hfd : sock.m_fd = this.m_fd) :
    Inv (s.setSocket i (some sock)) ∧ (s.setSocket i (some sock)).owner = s.owner := by
  have howner : (s.setSocket i (some sock)).owner = s.owner := by
    rw [setSocket_owner, Option.bind_some, hfd]
    have ho : s.owner i = this.m_fd := by rw [State.owner, hi, Option.bind_some]
    rw [← ho, Function.update_eq_self]
  refine ⟨⟨?_, h.closed, fun j hj => ?_⟩, howner⟩
  · rw [howner]
    exact h.sound
  · have hne : j ≠ i := by
      rintro rfl
      exact absurd ((h.next j hj).symm.trans hi) (by simp)
    exact (Function.update_of_ne hne _ _).trans (h.next j hj)

end Owner

/-! ### `accept()` -/

section Accept

variable {s : State} {this : Socket} {r newsock : FdResult}
  {P : Finset Nat → (Nat → Option Nat) → Prop}

/-- The new object, before `::accept`. -/
theorem construct_next (s : State) (family type protocol : Int) (r : FdResult) :
    (s.construct family type protocol r).sockets s.next =
      some ⟨r.map Prod.fst, family, type, protocol, false⟩ := by
  show Function.update (s.sysSocket r).sockets s.next _ s.next = _
  rw [Function.update_self]

/-- `accept()` when `::accept` returns a descriptor that is a socket. -/
theorem accept_socket (s : State) (this : Socket) (r : FdResult) (fd : Nat) :
    ∃ s', (s.accept this r (some (fd, true))).2 = s' ∧
      s'.openFds = insert fd
        (s.construct this.m_family this.m_type this.m_protocol r).openFds ∧
      s'.owner = Function.update
        (s.construct this.m_family this.m_type this.m_protocol r).owner s.next (some fd) ∧
      s'.closedTwice = (s.construct this.m_family this.m_type this.m_protocol r).closedTwice ∧
      s'.next = s.next + 1 ∧ ∀ j, j ≠ s.next → s'.sockets j =
        (s.construct this.m_family this.m_type this.m_protocol r).sockets j := by
  have hnext := construct_next s this.m_family this.m_type this.m_protocol r
  generalize hs1 : s.construct this.m_family this.m_type this.m_protocol r = s1 at hnext ⊢
  have hn : s1.next = s.next + 1 := by rw [← hs1]; rfl
  have haccept : (s.accept this r (some (fd, true))).2 =
      (s1.sysAccept (some (fd, true))).setSocket s.next
        (some ⟨some fd, this.m_family, this.m_type, this.m_protocol, true⟩) := by
    have hmanager : (s1.sysAccept (some (fd, true))).fdManager fd = some true :=
      Function.update_self _ _ _
    have hsock : (s1.sysAccept (some (fd, true))).sockets s.next = s1.sockets s.next := rfl
    simp only [State.accept, hs1, State.init, hmanager, hsock, hnext]
  refine ⟨_, haccept, rfl, ?_, rfl, hn, fun j hj => Function.update_of_ne hj _ _⟩
  rw [setSocket_owner]
  rfl

/-- The object that `accept()` returns has the accepted descriptor. -/
theorem Inv.accept_socket {fd : Nat}
    (h : Inv (s.construct this.m_family this.m_type this.m_protocol r))
    (hfd : fd ∉ (s.construct this.m_family this.m_type this.m_protocol r).openFds) :
    Inv (s.accept this r (some (fd, true))).2 := by
  obtain ⟨s', hs', hopen, howner, hclosed, hnext, hsockets⟩ := Sockets.accept_socket s this r fd
  rw [hs']
  refine ⟨?_, hclosed.trans h.closed, fun j hj => ?_⟩
  · rw [hopen, howner]
    exact h.sound.acquire hfd s.next
  · rw [hsockets j (by omega)]
    rw [hnext] at hj
    exact h.next j hj

/-- **A clean `accept()`** keeps what acquiring and releasing keep. -/
theorem Inv.accept (h : Inv s) (hr : s.Fresh r)
    (hnew : (s.construct this.m_family this.m_type this.m_protocol r).Fresh newsock)
    (hclean : newsock = none ∨ r = none ∧ ∃ fd, newsock = some (fd, true)) :
    Inv (s.accept this r newsock).2 ∧ (Kept P → P s.openFds s.owner →
      P (s.accept this r newsock).2.openFds (s.accept this r newsock).2.owner) := by
  obtain ⟨hinv, hkept⟩ := h.construct (P := P) hr this.m_family this.m_type this.m_protocol
  rcases hclean with rfl | ⟨rfl, fd, rfl⟩
  · -- the new object is destroyed, with the descriptor of its constructor
    obtain ⟨hinv', hkept'⟩ := hinv.destroy (P := P) s.next
    exact ⟨hinv', fun hP hs => hkept' hP (hkept hP hs)⟩
  · obtain ⟨s', hs', hopen, howner, -⟩ := Sockets.accept_socket s this none fd
    have hfd := hnew _ rfl
    have hnone : (s.construct this.m_family this.m_type this.m_protocol none).owner s.next =
        none := by
      rw [construct_owner, Function.update_self, Option.map_none]
    refine ⟨hinv.accept_socket hfd, fun hP hs => ?_⟩
    rw [hs', hopen, howner]
    exact hP.acquire (hkept hP hs) hfd hnone

/-- **Any other `accept()`** leaves a descriptor open that no object has: the one that the
    constructor opened, or the one that `init` does not take for a socket. -/
theorem Inv.accept_leaks (h : Inv s) (hr : s.Fresh r)
    (hnew : (s.construct this.m_family this.m_type this.m_protocol r).Fresh newsock)
    (hclean : ¬ (newsock = none ∨ r = none ∧ ∃ fd, newsock = some (fd, true))) :
    Inv (s.accept this r newsock).2 ∧ ∃ fd, Leaked (s.accept this r newsock).2.openFds
      (s.accept this r newsock).2.owner fd := by
  obtain ⟨hinv, -⟩ :=
    h.construct (P := fun _ _ => True) hr this.m_family this.m_type this.m_protocol
  match newsock with
  | none => exact absurd (.inl rfl) hclean
  | some (fd, false) =>
    have hfd := hnew _ rfl
    generalize hs1 : s.construct this.m_family this.m_type this.m_protocol r = s1 at hinv hfd
    obtain ⟨hsound, hleak⟩ := hinv.sound.hold hfd
    have hinv2 : Inv (s1.sysAccept (some (fd, false))) := ⟨hsound, hinv.closed, hinv.next⟩
    have haccept : (s.accept this r (some (fd, false))).2 =
        (s1.sysAccept (some (fd, false))).destroy s.next := by
      have hmanager : (s1.sysAccept (some (fd, false))).fdManager fd = some false :=
        Function.update_self _ _ _
      simp only [State.accept, hs1, State.init, hmanager]
    obtain ⟨hinv3, hkept⟩ :=
      hinv2.destroy (P := fun held owner => Leaked held owner fd) s.next
    rw [haccept]
    exact ⟨hinv3, fd, hkept (Leaked.kept fd) hleak⟩
  | some (fd, true) =>
    have hfd := hnew _ rfl
    obtain ⟨s', hs', hopen, howner, -⟩ := Sockets.accept_socket s this r fd
    match r with
    | none => exact absurd (.inr ⟨rfl, fd, rfl⟩) hclean
    | some (e, isSocket) =>
      have he : (s.construct this.m_family this.m_type this.m_protocol
          (some (e, isSocket))).owner s.next = some e := by
        rw [construct_owner, Function.update_self, Option.map_some]
      refine ⟨hinv.accept_socket hfd, e, ?_⟩
      rw [hs', hopen, howner]
      exact hinv.sound.leak hfd he

end Accept

/-! ### Every sequence of operations -/

section Runs

variable {s s' : State} {a : Action} {P : Finset Nat → (Nat → Option Nat) → Prop}

/-- **Inversion** of a step of `accept()`. -/
theorem step_accept {i : Nat} {r newsock : FdResult} (hs : step s (.accept i r newsock) = some s') :
    ∃ this, s.sockets i = some this ∧ s.Fresh r ∧
      (s.construct this.m_family this.m_type this.m_protocol r).Fresh newsock ∧
      s' = (s.accept this r newsock).2 := by
  simp only [step] at hs
  split at hs
  · exact absurd hs (by simp)
  · split at hs
    · rename_i this hi hfresh
      exact ⟨this, hi, hfresh.1, hfresh.2, (Option.some.inj hs).symm⟩
    · exact absurd hs (by simp)

/-- **Step lemma.** -/
theorem inv_step (h : Inv s) (hclean : Clean s a) (hs : step s a = some s') :
    Inv s' ∧ (Kept P → P s.openFds s.owner → P s'.openFds s'.owner) := by
  cases a with
  | create family type protocol isConnected r =>
    simp only [step] at hs
    split at hs
    · rename_i hr
      obtain rfl := Option.some.inj hs
      obtain ⟨hinv, hkept⟩ := h.construct (P := P) hr family type protocol
      obtain ⟨hinv', howner⟩ := hinv.setSocket (construct_next s family type protocol r)
        ⟨r.map Prod.fst, family, type, protocol, isConnected⟩ rfl
      refine ⟨hinv', fun hP hp => ?_⟩
      rw [howner]
      exact hkept hP hp
    · exact absurd hs (by simp)
  | accept i r newsock =>
    obtain ⟨this, -, hr, hnew, rfl⟩ := step_accept hs
    exact h.accept hr hnew hclean
  | connect i family timeout_ms connected =>
    simp only [step] at hs
    split at hs
    · exact absurd hs (by simp)
    · rename_i this hi
      unfold State.connect at hs
      split at hs
      · obtain rfl := Option.some.inj hs
        exact ⟨h, fun _ hp => hp⟩
      · split at hs
        · exact absurd hs (by simp)
        · split at hs
          · obtain rfl := Option.some.inj hs
            obtain ⟨hinv, howner⟩ := h.setSocket hi { this with m_isConnected := true } rfl
            refine ⟨hinv, fun _ hp => ?_⟩
            rw [howner]
            exact hp
          · obtain rfl := Option.some.inj hs
            obtain ⟨hinv, -, hkept⟩ := h.close (P := P) i
            exact ⟨hinv, hkept⟩
  | close i =>
    simp only [step] at hs
    split at hs
    · obtain rfl := Option.some.inj hs
      obtain ⟨hinv, -, hkept⟩ := h.close (P := P) i
      exact ⟨hinv, hkept⟩
    · exact absurd hs (by simp)
  | destroy i =>
    simp only [step] at hs
    split at hs
    · obtain rfl := Option.some.inj hs
      exact h.destroy i
    · exact absurd hs (by simp)

/-- A step that is not clean leaks. -/
theorem inv_step_leaks (h : Inv s) (hclean : ¬ Clean s a) (hs : step s a = some s') :
    Inv s' ∧ ∃ fd, Leaked s'.openFds s'.owner fd := by
  cases a with
  | accept i r newsock =>
    obtain ⟨this, -, hr, hnew, rfl⟩ := step_accept hs
    exact h.accept_leaks hr hnew hclean
  | _ => exact absurd trivial hclean

theorem inv_initial : Inv initial where
  sound := ⟨nofun, nofun⟩
  closed := rfl
  next := fun _ _ => rfl

theorem inv_exec {as : List Action} (he : system.exec initial as = some s) : Inv s := by
  refine LTS.exec_stable (T := system) (P := Inv) (fun s a s' h hs => ?_) inv_initial he
  by_cases hclean : Clean s a
  · exact (inv_step (P := fun _ _ => True) h hclean hs).1
  · exact (inv_step_leaks h hclean hs).1

/-- **Exactly when no descriptor is lost.** After a sequence of operations the open descriptors are
    those of the live objects, one each and none closed twice, if and only if in each `accept()` of
    it `::accept` failed, or the constructor had got no descriptor and the accepted one was a
    socket. -/
theorem owned_iff_clean {as : List Action} (he : system.exec initial as = some s) :
    Owned s ↔ system.Guarded Clean initial as := by
  refine LTS.safe_iff_guarded (T := system)
    (I := fun s => Inv s ∧ Owns s.openFds s.owner) (S := Owned)
    (B := fun s => Inv s ∧ ∃ fd, Leaked s.openFds s.owner fd) ?_ ?_ ?_ ?_ ?_
    ⟨inv_initial, ⟨nofun, nofun⟩, nofun⟩ he
  · exact fun s h => ⟨h.2, h.1.closed⟩
  · intro s ⟨_, fd, hleak⟩ howned
    exact hleak.not_owns howned.owns
  · intro s a s' ⟨h, howns⟩ hclean (hs : step s a = some s')
    obtain ⟨hinv, hkept⟩ := inv_step h hclean hs
    exact ⟨hinv, hkept Owns.kept howns⟩
  · intro s a s' ⟨h, _⟩ hclean (hs : step s a = some s')
    exact inv_step_leaks h hclean hs
  · intro s a s' ⟨h, fd, hleak⟩ (hs : step s a = some s')
    by_cases hclean : Clean s a
    · obtain ⟨hinv, hkept⟩ := inv_step (P := fun held owner => Leaked held owner fd) h hclean hs
      exact ⟨hinv, fd, hkept (Leaked.kept fd) hleak⟩
    · exact inv_step_leaks h hclean hs

/-- A client is accepted, closed and destroyed. -/
def oneClient : List Action :=
  [.create 2 1 0 false (some (5, true)), .accept 0 (some (6, true)) (some (7, true)), .close 1,
    .destroy 1]

/-- **One descriptor more for each client**: 6, which the constructor opened in `accept()`, stays
    open, and the listening socket, the only object, has 5. -/
theorem accept_leaks_fd : ∃ s, system.exec initial oneClient = some s ∧ s.openFds = {5, 6} ∧
    (∀ i, s.owner i ≠ some 6) ∧ ¬ Owned s := by
  obtain ⟨s, hs, hopen, hnext, h0, h1⟩ : ∃ s, system.exec initial oneClient = some s ∧
      s.openFds = {5, 6} ∧ s.next = 2 ∧ s.owner 0 = some 5 ∧ s.owner 1 = none :=
    ⟨_, rfl, by decide, rfl, rfl, rfl⟩
  have hnobody : ∀ i, s.owner i ≠ some 6
    | 0 => by rw [h0]; decide
    | 1 => by rw [h1]; decide
    | i + 2 => by
      rw [State.owner, (inv_exec hs).next (i + 2) (by omega), Option.bind_none]
      simp
  refine ⟨s, hs, hopen, hnobody, fun h => ?_⟩
  have hleak : Leaked s.openFds s.owner 6 := ⟨by rw [hopen]; decide, hnobody⟩
  exact hleak.not_owns h.owns

/-- A listening socket is constructed, `::accept` fails once, and the socket is destroyed. -/
def failedAccept : List Action :=
  [.create 2 1 0 false (some (5, true)), .accept 0 (some (6, true)) none, .destroy 0]

theorem owned_iff_clean_failedAccept :
    ∃ s, system.exec initial failedAccept = some s ∧ Owned s := by
  obtain ⟨s, hs⟩ : ∃ s, system.exec initial failedAccept = some s := ⟨_, rfl⟩
  refine ⟨s, hs, (owned_iff_clean hs).mpr ?_⟩
  decide

end Runs

end LimWebserver.Sockets
