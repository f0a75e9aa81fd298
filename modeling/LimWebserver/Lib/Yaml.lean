import Mathlib.Data.List.Basic

namespace LimWebserver.Lib.Yaml

/-!
# YAML nodes

The node tree of a YAML document, as far as programs read it by keys and build it by assignments.

* `Node`, `Node.get`, `Node.asString`, `Node.asStrings`, `Node.items`, `Node.field` — reading;
* `Entries`, `Entries.assign`, `Entries.pushBack` — a node under construction, by its entries;
* `lookup_assign`, `lookup_pushAll` — what is found in it.
-/

inductive Node
  | null
  | scalar (v : String)
  | sequence (l : List Node)
  | map (l : List (String × Node))

/-- What reading throws. -/
inductive Exception
  | ParserException
  | BadSubscript
  | TypedBadConversion
  /-- thrown by the reader itself -/
  | logic_error (what : String)
  deriving DecidableEq, Repr

namespace Node

/-- `node[key]`; none is not defined. -/
def get (key : String) : Node → Except Exception (Option Node)
  | scalar _ => .error .BadSubscript
  | map l => .ok (l.lookup key)
  | _ => .ok none

/-- `as<std::string>()` -/
def asString : Node → Except Exception String
  | null => .ok "null"
  | scalar v => .ok v
  | _ => .error .TypedBadConversion

/-- `as<std::vector<std::string>>()` -/
def asStrings : Node → Except Exception (List String)
  | sequence l => l.mapM asString
  | _ => .error .TypedBadConversion

/-- What a loop over the node visits; the items of a map are pairs, without keys of their own. -/
def items : Node → List Node
  | sequence l => l
  | map l => l.map fun _ => null
  | _ => []

/-- `if (node[key].IsDefined()) val = node[key].as<T>();` -/
def field {α : Type} (node : Node) (key : String) (as : Node → Except Exception α) (val : α) :
    Except Exception α := do
  match ← node.get key with
  | none => pure val
  | some n => as n

end Node

/-- A node under construction: null as long as there is no entry. -/
abbrev Entries := List (String × Node)

namespace Entries

/-- The node. -/
def node : Entries → Node
  | [] => .null
  | e :: l => .map (e :: l)

/-- `node[key] = v` -/
def assign : Entries → String → Node → Entries
  | [], key, v => [(key, v)]
  | e :: l, key, v => if e.1 = key then (key, v) :: l else e :: assign l key v

/-- `node[key].push_back(v)`, of a key that is only pushed to. -/
def pushBack (l : Entries) (key : String) (v : Node) : Entries :=
  l.assign key (.sequence (((l.lookup key).map Node.items).getD [] ++ [v]))

/-- Several of them. -/
def pushAll (l : Entries) (key : String) (vs : List Node) : Entries :=
  vs.foldl (fun l v => l.pushBack key v) l

variable {l : Entries} {key key' : String} {v : Node} {vs items : List Node}

@[simp] theorem get_node (l : Entries) (key : String) : l.node.get key = .ok (l.lookup key) := by
  cases l <;> rfl

@[simp] theorem lookup_assign (l : Entries) (key : String) (v : Node) :
    (l.assign key v).lookup key = some v := by
  induction l with
  | nil => simp [assign]
  | cons e l ih =>
    rw [assign]
    split_ifs with he
    · simp
    · rw [List.lookup_cons, beq_eq_false_iff_ne.mpr (Ne.symm he), ih]

theorem lookup_assign_of_ne (h : key' ≠ key) : (l.assign key v).lookup key' = l.lookup key' := by
  induction l with
  | nil =>
    rw [assign, List.lookup_cons, beq_eq_false_iff_ne.mpr h]
  | cons e l ih =>
    rw [assign]
    split_ifs with he
    · rw [List.lookup_cons, List.lookup_cons, he, beq_eq_false_iff_ne.mpr h]
    · rw [List.lookup_cons, List.lookup_cons, ih]

/-- **Pushing to one key** changes no other. -/
theorem lookup_pushAll_of_ne (h : key' ≠ key) (vs : List Node) :
    (l.pushAll key vs).lookup key' = l.lookup key' := by
  induction vs generalizing l with
  | nil => rfl
  | cons v vs ih => rw [pushAll, List.foldl_cons, ← pushAll, ih, pushBack, lookup_assign_of_ne h]

theorem lookup_pushAll_of_some (h : l.lookup key = some (.sequence items)) (vs : List Node) :
    (l.pushAll key vs).lookup key = some (.sequence (items ++ vs)) := by
  induction vs generalizing l items with
  | nil => rw [List.append_nil]; exact h
  | cons v vs ih =>
    have hpush : (l.pushBack key v).lookup key = some (.sequence (items ++ [v])) := by
      rw [pushBack, h, lookup_assign]
      rfl
    rw [pushAll, List.foldl_cons, ← pushAll, ih hpush, List.append_assoc, List.singleton_append]

/-- **Pushing to a new key** makes a sequence, if there is anything. -/
theorem lookup_pushAll (h : l.lookup key = none) (vs : List Node) :
    (l.pushAll key vs).lookup key = if vs = [] then none else some (.sequence vs) := by
  cases vs with
  | nil => exact h
  | cons v vs =>
    have hpush : (l.pushBack key v).lookup key = some (.sequence [v]) := by
      rw [pushBack, h, lookup_assign]
      rfl
    rw [pushAll, List.foldl_cons, ← pushAll, lookup_pushAll_of_some hpush,
      if_neg (List.cons_ne_nil v vs)]
    rfl

end Entries

end LimWebserver.Lib.Yaml
