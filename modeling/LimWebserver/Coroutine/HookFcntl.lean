import Mathlib.Data.BitVec
import Mathlib.Data.List.Infix

namespace LimWebserver.HookFcntl

/-!
# Coroutine — the hooks of `fcntl` and `ioctl`

The mode of a descriptor is kept three times: `m_userNonblock` is what the user has asked for,
`m_sysNonblock` what the library needs, and `O_NONBLOCK` in the kernel is what `do_io` meets.

* `Kernel` — the system calls underneath; `linux` — one such kernel;
* `FdInfo.create`, `Fd.setfl`, `Fd.getfl`, `Fd.fionbio` — the constructor and the hooks;
* `InStep` — the three stay in step; `fionbio_blocks` — `FIONBIO` with 0 takes the kernel's mode
  away; `inStep_iff` — nothing else does.
-/

/-! ### Flags -/

/-- `O_NONBLOCK` -/
def O_NONBLOCK : BitVec 32 := 0x800

/-- `flags & O_NONBLOCK`, as a condition. -/
def nonblock (flags : BitVec 32) : Bool := flags &&& O_NONBLOCK != 0

/-- The flags with the mode changed. -/
def switch (flags : BitVec 32) (v : Bool) : BitVec 32 :=
  if v then flags ||| O_NONBLOCK else flags &&& ~~~O_NONBLOCK

theorem o_nonblock_eq : O_NONBLOCK = BitVec.twoPow 32 11 := rfl

theorem nonblock_eq (flags : BitVec 32) : nonblock flags = flags.getLsbD 11 := by
  rw [nonblock, o_nonblock_eq, BitVec.and_twoPow]
  cases flags.getLsbD 11
  · simp
  · simp only [if_true]
    decide

@[simp] theorem nonblock_switch (flags : BitVec 32) (v : Bool) : nonblock (switch flags v) = v := by
  have hbit : O_NONBLOCK.getLsbD 11 = true := by decide
  cases v <;> simp [nonblock_eq, switch, hbit]

@[simp] theorem switch_switch (flags : BitVec 32) (v w : Bool) :
    switch (switch flags v) w = switch flags w := by
  apply BitVec.eq_of_getLsbD_eq
  intro i hi
  cases v <;> cases w <;> simp [switch] <;> grind

/-! ### The kernel -/

/-- What the kernel does to an open file, whose state is a `φ`. -/
structure Kernel (φ : Type*) where
  /-- `F_GETFL` -/
  getfl : φ → BitVec 32
  /-- `F_SETFL`, which may be refused -/
  setfl : φ → BitVec 32 → Option φ
  /-- `FIONBIO` -/
  fionbio : φ → Bool → φ
  /-- An accepted `F_SETFL` sets the mode that it is given. -/
  setfl_nonblock : ∀ {f arg f'}, setfl f arg = some f' → nonblock (getfl f') = nonblock arg
  fionbio_nonblock : ∀ f v, nonblock (getfl (fionbio f v)) = v
  /-- `F_SETFL` with no other flag changed is accepted, and is the same as `FIONBIO`. -/
  setfl_switch : ∀ f v, setfl f (switch (getfl f) v) = some (fionbio f v)

/-- The flags that `F_SETFL` can change. -/
def SETFL_MASK : BitVec 32 := 0x46c00

theorem switch_masked (flags : BitVec 32) (v : Bool) :
    switch flags v &&& SETFL_MASK ||| flags &&& ~~~SETFL_MASK = switch flags v := by
  have hmask : ∀ i, O_NONBLOCK.getLsbD i = true → SETFL_MASK.getLsbD i = true := by
    intro i
    rw [o_nonblock_eq, BitVec.getLsbD_twoPow]
    simp only [Bool.and_eq_true, decide_eq_true_eq, and_imp]
    rintro - rfl
    decide
  apply BitVec.eq_of_getLsbD_eq
  intro i hi
  have hi' := hmask i
  cases v <;> simp [switch, hi] <;> grind

/-- A kernel that keeps nothing but the flags. -/
def linux : Kernel (BitVec 32) where
  getfl flags := flags
  setfl flags arg := some (arg &&& SETFL_MASK ||| flags &&& ~~~SETFL_MASK)
  fionbio := switch
  setfl_nonblock {flags arg flags'} h := by
    have hbit : SETFL_MASK[11] = true := by decide
    rw [Option.some.injEq] at h
    rw [← h, nonblock_eq, nonblock_eq]
    simp [hbit]
  fionbio_nonblock := nonblock_switch
  setfl_switch flags v := by rw [switch_masked]

/-! ### The hooks -/

/-- What `fcntl` and `ioctl` use of a `FdInfo`. -/
structure FdInfo where
  m_isSocket : Bool
  m_sysNonblock : Bool
  m_userNonblock : Bool
  deriving DecidableEq, Repr

/-- An open descriptor: its file, and what `FdManager::get(fd)` finds. -/
structure Fd (φ : Type*) where
  file : φ
  fdInfo : Option FdInfo
  deriving DecidableEq

variable {φ : Type*} (k : Kernel φ)

/-- The constructor of `FdInfo`. -/
def FdInfo.create (file : φ) (isSocket : Bool) : Fd φ :=
  if isSocket then
    let flag := k.getfl file
    let file' := if !nonblock flag then (k.setfl file (flag ||| O_NONBLOCK)).getD file else file
    ⟨file', some ⟨true, true, false⟩⟩
  else ⟨file, some ⟨false, false, false⟩⟩

namespace Fd

/-- `fcntl_f(fd, F_SETFL, arg)` -/
def setfl_f (d : Fd φ) (arg : BitVec 32) : Fd φ × BitVec 32 :=
  match k.setfl d.file arg with
  | some file => ({ d with file := file }, 0)
  | none => (d, -1)

/-- `fcntl(fd, F_SETFL, arg)` -/
def setfl (d : Fd φ) (arg : BitVec 32) : Fd φ × BitVec 32 :=
  match d.fdInfo with
  | none => d.setfl_f k arg
  | some i =>
    if !i.m_isSocket then d.setfl_f k arg
    else
      let d' := { d with fdInfo := some { i with m_userNonblock := nonblock arg } }
      -- the kernel gets the mode of the library in place of the user's
      d'.setfl_f k (if i.m_sysNonblock then arg ||| O_NONBLOCK else arg &&& ~~~O_NONBLOCK)

/-- `fcntl(fd, F_GETFL)` -/
def getfl (d : Fd φ) : BitVec 32 :=
  let arg := k.getfl d.file
  match d.fdInfo with
  | none => arg
  | some i =>
    if !i.m_isSocket then arg
    else if i.m_userNonblock then arg ||| O_NONBLOCK
    else arg &&& ~~~O_NONBLOCK

/-- `ioctl(fd, FIONBIO, arg)`, where `arg` points to `v`. -/
def fionbio (d : Fd φ) (v : BitVec 32) : Fd φ :=
  let user_nonblock := v != 0
  -- the argument of the user goes to `ioctl_f` as it is
  { file := k.fionbio d.file user_nonblock
    fdInfo := d.fdInfo.map fun i => { i with m_userNonblock := user_nonblock } }

end Fd

/-- The calls of a user. -/
inductive Call
  /-- `fcntl(fd, F_SETFL, arg)` -/
  | setfl (arg : BitVec 32)
  /-- `fcntl(fd, F_GETFL)` -/
  | getfl
  /-- `ioctl(fd, FIONBIO, &v)` -/
  | fionbio (v : BitVec 32)
  deriving DecidableEq, Repr

/-- The descriptor after a call. -/
def Fd.step (d : Fd φ) : Call → Fd φ
  | .setfl arg => (d.setfl k arg).1
  | .getfl => d
  | .fionbio v => d.fionbio k v

def Fd.run (d : Fd φ) (calls : List Call) : Fd φ := calls.foldl (Fd.step k) d

/-- The mode that is asked for after a call. -/
def Call.ask (asked : Bool) : Call → Bool
  | .setfl arg => nonblock arg
  | .getfl => asked
  | .fionbio v => v != 0

/-- The mode that the last call which asked for one has asked for. -/
def asked (calls : List Call) : Bool := calls.foldl Call.ask false

/-! ### A managed socket -/

variable {k} {d : Fd φ} {u : Bool}

theorem setfl_file {d : Fd φ} (arg : BitVec 32) (h : d.fdInfo = some ⟨true, true, u⟩) :
    (d.setfl k arg).1 =
      ⟨(k.setfl d.file (switch arg true)).getD d.file, some ⟨true, true, nonblock arg⟩⟩ := by
  have hswitch : switch arg true = arg ||| O_NONBLOCK := rfl
  rw [hswitch]
  simp only [Fd.setfl, h, Bool.not_true, Bool.false_eq_true, if_false, if_true, Fd.setfl_f]
  cases k.setfl d.file (arg ||| O_NONBLOCK) <;> rfl

theorem fionbio_file {d : Fd φ} (v : BitVec 32) (h : d.fdInfo = some ⟨true, true, u⟩) :
    d.fionbio k v = ⟨k.fionbio d.file (v != 0), some ⟨true, true, v != 0⟩⟩ := by
  rw [Fd.fionbio, h]
  rfl

theorem getfl_eq {d : Fd φ} (h : d.fdInfo = some ⟨true, true, u⟩) :
    d.getfl k = switch (k.getfl d.file) u := by
  simp only [Fd.getfl, h, Bool.not_true, Bool.false_eq_true, if_false]
  rfl

theorem run_append (d : Fd φ) (calls : List Call) (a : Call) :
    d.run k (calls ++ [a]) = (d.run k calls).step k a := by
  rw [Fd.run, List.foldl_append]
  rfl

theorem asked_append (calls : List Call) (a : Call) :
    asked (calls ++ [a]) = a.ask (asked calls) := by
  rw [asked, List.foldl_append]
  rfl

/-- The `FdInfo` of a managed socket knows what the user has asked for. -/
theorem run_fdInfo (k : Kernel φ) (file : φ) (calls : List Call) :
    ((FdInfo.create k file true).run k calls).fdInfo = some ⟨true, true, asked calls⟩ := by
  induction calls using List.reverseRecOn with
  | nil => rfl
  | append_singleton calls a ih =>
    rw [run_append, asked_append]
    cases a with
    | setfl arg => rw [Fd.step, setfl_file arg ih]; rfl
    | getfl => exact ih
    | fionbio v => rw [Fd.step, fionbio_file v ih]; rfl

/-- The constructor switches the kernel's mode on. -/
theorem create_nonblock (k : Kernel φ) (file : φ) :
    nonblock (k.getfl (FdInfo.create k file true).file) = true := by
  simp only [FdInfo.create, if_true]
  cases hflag : nonblock (k.getfl file) with
  | true => simpa using hflag
  | false =>
    have hset : k.setfl file (k.getfl file ||| O_NONBLOCK) = some (k.fionbio file true) :=
      k.setfl_switch file true
    simp [hset, k.fionbio_nonblock]

/-- `F_SETFL` leaves it on, accepted or not, and only `FIONBIO` with 0 switches it off. -/
theorem step_nonblock (h : d.fdInfo = some ⟨true, true, u⟩) {a : Call}
    (hd : nonblock (k.getfl d.file) = true) (ha : a ≠ .fionbio 0) :
    nonblock (k.getfl (d.step k a).file) = true := by
  cases a with
  | setfl arg =>
    rw [Fd.step, setfl_file arg h]
    cases hset : k.setfl d.file (switch arg true) with
    | none => exact hd
    | some file => exact (k.setfl_nonblock hset).trans (nonblock_switch arg true)
  | getfl => exact hd
  | fionbio v =>
    have hv : v ≠ 0 := by
      rintro rfl
      exact ha rfl
    rw [Fd.step, fionbio_file v h, k.fionbio_nonblock]
    simpa using hv

theorem run_nonblock (k : Kernel φ) (file : φ) {calls : List Call} (h : .fionbio 0 ∉ calls) :
    nonblock (k.getfl ((FdInfo.create k file true).run k calls).file) = true := by
  induction calls using List.reverseRecOn with
  | nil => exact create_nonblock k file
  | append_singleton calls a ih =>
    rw [List.mem_append, not_or, List.mem_singleton] at h
    rw [run_append]
    exact step_nonblock (run_fdInfo k file calls) (ih h.1) (Ne.symm h.2)

/-- **The modes of a managed socket stay in step** while the user makes the calls `calls`. -/
structure InStep (k : Kernel φ) (file : φ) (calls : List Call) : Prop where
  /-- the kernel's mode, at every moment -/
  system : ∀ done, done <+: calls →
    nonblock (k.getfl ((FdInfo.create k file true).run k done).file) = true
  /-- what `F_GETFL` reports, at every moment -/
  user : ∀ done, done <+: calls →
    nonblock (((FdInfo.create k file true).run k done).getfl k) = asked done
  /-- a `FIONBIO` call does what `F_SETFL` does that switches the mode likewise -/
  same : ∀ done v, done ++ [.fionbio v] <+: calls →
    (FdInfo.create k file true).run k (done ++ [.fionbio v]) =
      (FdInfo.create k file true).run k (done ++
        [.setfl (switch (((FdInfo.create k file true).run k done).getfl k) (v != 0))])

/-- A socket on which the user switches the non-blocking mode off: the kernel's mode is off, and the
    next `recv` of a coroutine blocks its thread. -/
theorem fionbio_blocks :
    nonblock (linux.getfl ((FdInfo.create linux 2 true).run linux [.fionbio 0]).file) = false ∧
      ¬ InStep linux 2 [.fionbio 0] := by
  have hoff : nonblock (linux.getfl ((FdInfo.create linux 2 true).run linux
      [.fionbio 0]).file) = false := by decide
  refine ⟨hoff, fun h => ?_⟩
  have hon := h.system _ List.prefix_rfl
  rw [hoff] at hon
  cases hon

/-- **In step.** For every kernel and every sequence of calls, the modes stay in step exactly when
    no `FIONBIO` call is given 0. -/
theorem inStep_iff (k : Kernel φ) (file : φ) (calls : List Call) :
    InStep k file calls ↔ .fionbio 0 ∉ calls := by
  constructor
  · intro h hmem
    -- the kernel's mode is off right after the call with 0
    obtain ⟨done, rest, rfl⟩ := List.append_of_mem hmem
    have hon := h.system (done ++ [.fionbio 0]) ⟨rest, by simp⟩
    rw [run_append, Fd.step, fionbio_file 0 (run_fdInfo k file done), k.fionbio_nonblock] at hon
    cases hon
  · intro h
    refine ⟨fun done hdone => ?_, fun done _ => ?_, fun done v hdone => ?_⟩
    · exact run_nonblock k file fun hmem => h (hdone.subset hmem)
    · rw [getfl_eq (run_fdInfo k file done), nonblock_switch]
    · -- both calls ask for the mode that is on already
      have hinfo := run_fdInfo k file done
      have hv : (v != 0) = true := by
        rw [bne_iff_ne]
        rintro rfl
        exact h (hdone.subset (by simp))
      rw [run_append, run_append, Fd.step, Fd.step, fionbio_file v hinfo, setfl_file _ hinfo,
        getfl_eq hinfo, hv, switch_switch, switch_switch, nonblock_switch, k.setfl_switch]
      rfl

/-- The user switches the mode on and off again with `F_SETFL`, and on with `FIONBIO`. -/
theorem inStep_iff_linux :
    InStep linux 2 [.setfl 0x802, .setfl 2, .getfl, .fionbio 1] :=
  (inStep_iff linux 2 _).mpr (by decide)

end LimWebserver.HookFcntl
