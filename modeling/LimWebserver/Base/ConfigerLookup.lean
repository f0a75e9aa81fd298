import LimWebserver.Lib.Regex
import LimWebserver.Net.Http.Request

namespace LimWebserver.ConfigerRegistry

open Http Lib.Regex

/-!
# Base — `Configer::Lookup`: the registry of variables

The typed lookup answers null for a name that is not there and for one that is there with another
type, and `Lookup` with a default value creates a variable in both cases.

* `pattern`, `regex_match_iff` — the names that are accepted;
* `ConfigerVar`, `Registry` — variables are numbers, what they are is in `vars`;
* `lookup`, `Lookup`, `LookupBase` — the functions;
* `Law` — what a sequence of calls is promised; `Matching` — each call asks for the type there is;
* `lookup_iff` — exactly the sequences that keep the promise.
-/

/-! ### Names -/

def allBytes : Bytes := (List.range 256).map UInt8.ofNat

/-- Letters, digits and `_`. -/
def isWord (b : UInt8) : Bool :=
  48 ≤ b ∧ b ≤ 57 ∨ 65 ≤ b ∧ b ≤ 90 ∨ 97 ≤ b ∧ b ≤ 122 ∨ b = 95

/-- The characters that a name is to be made of. -/
def isLegal (b : UInt8) : Bool := isWord b ∨ b = 46

/-- `"^[\\w.].*|"`, where `.` stands for everything but the ends of lines. -/
def pattern : RegularExpression UInt8 :=
  cls (allBytes.filter isLegal) * (cls (allBytes.filter fun b => b ≠ 10 ∧ b ≠ 13)).star + 1

/-- `std::regex_match(name, pattern)` -/
def regex_match (name : Bytes) : Bool := pattern.rmatch name

theorem mem_allBytes (b : UInt8) : b ∈ allBytes :=
  List.mem_map.mpr ⟨b.toNat, List.mem_range.mpr b.toNat_lt, UInt8.ofNat_toNat⟩

/-- Only the first character is looked at. -/
theorem regex_match_iff (name : Bytes) : regex_match name = true ↔
    name = [] ∨ ∃ b rest, name = b :: rest ∧ isLegal b = true ∧ 10 ∉ rest ∧ 13 ∉ rest := by
  rw [regex_match, pattern, RegularExpression.rmatch_iff_matches', RegularExpression.matches'_add,
    Language.mem_add, mem_cls_mul, RegularExpression.matches'_epsilon, Language.mem_one, or_comm]
  refine or_congr Iff.rfl ?_
  simp only [mem_cls_star, List.mem_filter, mem_allBytes, true_and, decide_eq_true_eq]
  constructor
  · rintro ⟨b, hb, rest, hrest, rfl⟩
    exact ⟨b, rest, rfl, hb, fun h => (hrest 10 h).1 rfl, fun h => (hrest 13 h).2 rfl⟩
  · rintro ⟨b, rest, rfl, hb, h10, h13⟩
    exact ⟨b, hb, rest, fun c hc => ⟨fun h => h10 (h ▸ hc), fun h => h13 (h ▸ hc)⟩, rfl⟩

/-! ### The registry -/

/-- A `ConfigerVar<T>`, where `Val T` are the values of type `T`. -/
structure ConfigerVar {Ty : Type} (Val : Ty → Type) where
  T : Ty
  m_name : Bytes
  m_val : Val T

/-- `GetConfigers()`, and all variables that have been created. -/
structure Registry {Ty : Type} (Val : Ty → Type) where
  configs : Bytes → Option Nat
  vars : List (ConfigerVar Val)

inductive Exception
  | invalid_argument (what : Bytes)
  deriving DecidableEq, Repr

/-- The arguments of `Lookup<T>(name, default_value)`. -/
structure Call {Ty : Type} (Val : Ty → Type) where
  T : Ty
  name : Bytes
  default_value : Val T

variable {Ty : Type} {Val : Ty → Type}

namespace Registry

/-- A variable has this type. -/
def HasType (s : Registry Val) (id : Nat) (T : Ty) : Prop := ∃ v, s.vars[id]? = some v ∧ v.T = T

/-- `LookupBase(name)` -/
def LookupBase (s : Registry Val) (name : Bytes) : Option Nat := s.configs name

/-- `ConfigerVar<T>::Create` and `AddConfigerVar`, which stores under the name in any case. -/
def add (s : Registry Val) (c : Call Val) : Registry Val :=
  { configs := Function.update s.configs c.name (some s.vars.length)
    vars := s.vars ++ [⟨c.T, c.name, c.default_value⟩] }

variable [DecidableEq Ty]

instance (s : Registry Val) (id : Nat) (T : Ty) : Decidable (s.HasType id T) :=
  match h : s.vars[id]? with
  | none => .isFalse fun ⟨v, hv, _⟩ => by rw [h] at hv; cases hv
  | some v =>
    decidable_of_iff (v.T = T) ⟨fun hT => ⟨v, h, hT⟩, fun ⟨w, hw, hT⟩ => by
      rw [h] at hw; cases hw; exact hT⟩

/-- `Lookup<T>(name)`: what is there, cast to the type. -/
def lookup (s : Registry Val) (T : Ty) (name : Bytes) : Option Nat :=
  match s.configs name with
  | none => none
  | some id => if s.HasType id T then some id else none

/-- `Lookup<T>(name, default_value)`: a pointer to a variable. -/
def Lookup (s : Registry Val) (c : Call Val) : Except Exception (Option Nat × Registry Val) :=
  match s.lookup c.T c.name with
  | some tmp => .ok (some tmp, s)
  | none =>
    if regex_match c.name then .ok (some s.vars.length, s.add c)
    else .error (.invalid_argument c.name)

/-- The registry after a call. -/
def after (s : Registry Val) (c : Call Val) : Registry Val :=
  match s.Lookup c with
  | .ok (_, s') => s'
  | .error _ => s

end Registry

open Registry

variable [DecidableEq Ty]

/-- The registry after any number of calls. -/
def run (calls : List (Call Val)) : Registry Val := calls.foldl after ⟨fun _ => none, []⟩

/-- **What the callers are promised.** -/
structure Law (calls : List (Call Val)) : Prop where
  /-- a name that is bound: its variable, or null if it has another type -/
  documented : ∀ done c, done ++ [c] <+: calls → ∀ id, (run done).configs c.name = some id →
    (run done).Lookup c =
      .ok (if (run done).HasType id c.T then some id else none, run done)
  /-- a name stays bound to its variable -/
  kept : ∀ done later, done ++ later <+: calls → ∀ name id,
    (run done).configs name = some id → (run (done ++ later)).configs name = some id
  /-- the variable that a caller has got is the one that is loaded -/
  held : ∀ done c later id s, done ++ [c] ++ later <+: calls →
    (run done).Lookup c = .ok (some id, s) →
    (run (done ++ [c] ++ later)).LookupBase c.name = some id

/-- Each call asks for a name that is not bound, or for the type that it is bound with. -/
def Matching (calls : List (Call Val)) : Prop :=
  ∀ done c, done ++ [c] <+: calls → ∀ id, (run done).configs c.name = some id →
    (run done).HasType id c.T

/-! ### One call -/

section

variable {s s' : Registry Val} {c : Call Val} {id : Nat} {p : Option Nat}

theorem lookup_eq_some_iff : s.lookup c.T c.name = some id ↔
    s.configs c.name = some id ∧ s.HasType id c.T := by
  rw [lookup]
  cases h : s.configs c.name with
  | none => simp
  | some id' =>
    by_cases hT : s.HasType id' c.T
    · simp only [if_pos hT, Option.some.injEq]
      exact ⟨fun heq => ⟨heq, heq ▸ hT⟩, And.left⟩
    · simp only [if_neg hT, Option.some.injEq]
      exact iff_of_false nofun fun ⟨heq, hid⟩ => hT (heq ▸ hid)

/-- `Lookup` never returns null. -/
theorem Lookup_ne_null (h : s.Lookup c = .ok (p, s')) : p ≠ none := by
  rw [Lookup] at h
  split at h
  · cases h
    exact Option.some_ne_none _
  · split_ifs at h
    cases h
    exact Option.some_ne_none _

/-- What a call returns is what its name is bound to behind it. -/
theorem bound_of_Lookup (h : s.Lookup c = .ok (some id, s')) : s'.configs c.name = some id := by
  rw [Lookup] at h
  split at h
  · next tmp htmp =>
    cases h
    exact (lookup_eq_some_iff.mp htmp).1
  · split_ifs at h
    cases h
    exact Function.update_self ..

theorem after_of_Lookup (h : s.Lookup c = .ok (p, s')) : s.after c = s' := by rw [after, h]

/-- A call that asks for the type there is returns the variable, and changes nothing. -/
theorem Lookup_of_hasType (hid : s.configs c.name = some id) (hT : s.HasType id c.T) :
    s.Lookup c = .ok (some id, s) := by rw [Lookup, lookup_eq_some_iff.mpr ⟨hid, hT⟩]

/-- A name that is not there is looked at. -/
theorem Lookup_of_none (hid : s.configs c.name = none) : s.Lookup c =
    if regex_match c.name then .ok (some s.vars.length, s.add c)
    else .error (.invalid_argument c.name) := by
  have hlookup : s.lookup c.T c.name = none := by rw [lookup, hid]
  rw [Lookup, hlookup]

/-- It leaves all names bound. -/
theorem configs_after {name : Bytes} {id' : Nat}
    (h : ∀ id, s.configs c.name = some id → s.HasType id c.T) (hname : s.configs name = some id') :
    (s.after c).configs name = some id' := by
  by_cases hbound : ∃ id, s.configs c.name = some id
  · obtain ⟨id, hid⟩ := hbound
    rwa [after_of_Lookup (Lookup_of_hasType hid (h id hid))]
  · have hne : name ≠ c.name := fun heq => hbound ⟨id', heq ▸ hname⟩
    rw [after, Lookup]
    cases hlookup : s.lookup c.T c.name with
    | some id => exact absurd ⟨id, (lookup_eq_some_iff.mp hlookup).1⟩ hbound
    | none =>
      split_ifs
      · exact (Function.update_of_ne hne _ _).trans hname
      · exact hname

end

/-! ### Sequences of calls -/

theorem run_concat (calls : List (Call Val)) (c : Call Val) :
    run (calls ++ [c]) = (run calls).after c := by
  rw [run, List.foldl_append]
  rfl

/-- **The sequences of calls that keep the promise.** -/
theorem lookup_iff (calls : List (Call Val)) : Law calls ↔ Matching calls := by
  constructor
  · intro h done c hdone id hid
    by_contra hT
    have hnull := h.documented done c hdone id hid
    rw [if_neg hT] at hnull
    exact Lookup_ne_null hnull rfl
  · intro h
    have hkept : ∀ done later, done ++ later <+: calls → ∀ name id,
        (run done).configs name = some id → (run (done ++ later)).configs name = some id := by
      intro done later
      induction later using List.reverseRecOn with
      | nil =>
        intro _ name id hname
        rwa [List.append_nil]
      | append_singleton later c ih =>
        intro hlater name id hname
        rw [← List.append_assoc] at hlater ⊢
        rw [run_concat]
        exact configs_after (h _ c hlater)
          (ih ((List.prefix_append _ [c]).trans hlater) name id hname)
    exact
      { documented := fun done c hdone id hid => by
          rw [if_pos (h done c hdone id hid), Lookup_of_hasType hid (h done c hdone id hid)]
        kept := hkept
        held := fun done c later id s hlater hLookup => by
          refine hkept (done ++ [c]) later hlater c.name id ?_
          rw [run_concat, after_of_Lookup hLookup]
          exact bound_of_Lookup hLookup }

/-- Two calls for one name with two types break it. -/
theorem not_law_of_ne {T T' : Ty} (hT : T ≠ T') (name : Bytes) (hmatch : regex_match name = true)
    (v : Val T) (v' : Val T') : ¬Law [⟨T, name, v⟩, ⟨T', name, v'⟩] := by
  intro h
  have hLookup : (run ([] : List (Call Val))).Lookup ⟨T, name, v⟩ = .ok (some 0, _) :=
    (Lookup_of_none rfl).trans (if_pos hmatch)
  have hrun : run [(⟨T, name, v⟩ : Call Val)] = _ := after_of_Lookup hLookup
  have hbound := bound_of_Lookup hLookup
  have hnull := h.documented [⟨T, name, v⟩] ⟨T', name, v'⟩ List.prefix_rfl 0
    (by rw [hrun]; exact hbound)
  rw [if_neg] at hnull
  · exact Lookup_ne_null hnull rfl
  · rw [hrun]
    rintro ⟨w, hw, hwT⟩
    cases hw
    exact hT hwT

/-- "system.port" is looked up as a variable of one type and then of another. -/
theorem lookup_port : ¬∀ calls : List (Call fun _ : Bool => Int), Law calls := fun h =>
  not_law_of_ne Bool.false_ne_true (chars "system.port")
    ((regex_match_iff _).mpr (.inr ⟨115, chars "ystem.port", rfl, by decide, by decide, by decide⟩))
    8080 8080 (h _)

end LimWebserver.ConfigerRegistry
