import Mathlib.Data.List.Nodup
import Mathlib.Data.List.Perm.Basic
import Mathlib.Logic.Function.Basic

namespace LimWebserver.Hazard

/-!
# Base — the nodes of a `Reclaimer`

What a thread has handed to `ReclaimLater` stands in `reclaim_map_`, each pointer with a node that
holds the pointer and its `delete_func`; nodes that are done with wait in `reclaim_pool_` for the
next `ReclaimLater`.

* `ReclaimNodes` — the nodes in memory, the pool and the map;
* `Pop`, `Push`, `ReclaimLater`, `take` — what the code does with them;
* `Ok` — no node is used twice and each node holds its key; `ReclaimStore` carries this along;
* `pending` — the map as it is meant, pointers with their functions, and what each operation does
  to it.
-/

/-- A `ReclaimNode`. -/
structure ReclaimNode (P F : Type*) where
  ptr : Option P
  delete_func : Option F
  deriving DecidableEq, Repr

/-- The nodes of one `Reclaimer`; `fresh` is the next address of `new`. -/
structure ReclaimNodes (P F : Type*) where
  node : Nat → ReclaimNode P F
  fresh : Nat
  /-- `reclaim_pool_`, from its `head` on -/
  reclaim_pool_ : List Nat
  reclaim_map_ : List (P × Nat)

variable {P F : Type*}

namespace ReclaimNodes

/-- `ReclaimPool::Pop`; the last node of the pool is never given away. -/
def Pop (n : ReclaimNodes P F) : Nat × ReclaimNodes P F :=
  match n.reclaim_pool_ with
  | head :: next :: rest => (head, { n with reclaim_pool_ := next :: rest })
  | _ => (n.fresh, { n with
      node := Function.update n.node n.fresh ⟨none, none⟩
      fresh := n.fresh + 1 })

/-- `ReclaimPool::Push`. -/
def Push (n : ReclaimNodes P F) (a : Nat) : ReclaimNodes P F :=
  { n with reclaim_pool_ := a :: n.reclaim_pool_ }

/-- A new `Reclaimer`: the pool has one node. -/
def initial : ReclaimNodes P F where
  node := fun _ => ⟨none, none⟩
  fresh := 1
  reclaim_pool_ := [0]
  reclaim_map_ := []

/-- The keys of `reclaim_map_`. -/
def keys (n : ReclaimNodes P F) : List P := n.reclaim_map_.map Prod.fst

/-- The nodes in `reclaim_map_`. -/
def values (n : ReclaimNodes P F) : List Nat := n.reclaim_map_.map Prod.snd

section
variable [DecidableEq P]

/-- `ReclaimLater`; `insert` changes nothing where the key is there already. -/
def ReclaimLater (n : ReclaimNodes P F) (ptr : P) (func : F) : ReclaimNodes P F :=
  let (new_node, n) := n.Pop
  let n := { n with node := Function.update n.node new_node ⟨some ptr, some func⟩ }
  if ptr ∈ n.keys then n
  else { n with reclaim_map_ := n.reclaim_map_ ++ [(ptr, new_node)] }

/-- The map without an entry; the node of the entry goes to the pool if `push`, and is deleted
    otherwise. -/
def erase (n : ReclaimNodes P F) (push : Bool) (key : P) (a : Nat) : ReclaimNodes P F :=
  let n := { n with reclaim_map_ := n.reclaim_map_.filter fun e => e.1 ≠ key }
  if push then n.Push a else n

/-- An iteration that deletes: the arguments of `node->delete_func(node->ptr)`, and what is left. -/
def take (n : ReclaimNodes P F) (push : Bool) (key : P) : Option ((P × F) × ReclaimNodes P F) :=
  match n.reclaim_map_.find? fun e => e.1 = key with
  | none => none
  | some (_, a) =>
    match (n.node a).ptr, (n.node a).delete_func with
    | some ptr, some func => some ((ptr, func), n.erase push key a)
    | _, _ => none

end

/-! ### No node is used twice -/

/-- The nodes are in order: the pool is not empty, all nodes in use are different ones, and the node
    of a key holds this key. -/
structure Ok (n : ReclaimNodes P F) : Prop where
  pool : n.reclaim_pool_ ≠ []
  nodup : (n.reclaim_pool_ ++ n.values).Nodup
  lt : ∀ a ∈ n.reclaim_pool_ ++ n.values, a < n.fresh
  keys : n.keys.Nodup
  holds : ∀ e ∈ n.reclaim_map_, (n.node e.2).ptr = some e.1 ∧ (n.node e.2).delete_func.isSome

variable {n : ReclaimNodes P F} {ptr key : P} {func : F} {push : Bool}

theorem Ok.initial : (initial : ReclaimNodes P F).Ok where
  pool := by simp [ReclaimNodes.initial]
  nodup := by simp [ReclaimNodes.initial, values]
  lt := by simp [ReclaimNodes.initial, values]
  keys := by simp [ReclaimNodes.initial, ReclaimNodes.keys]
  holds := by simp [ReclaimNodes.initial]

@[simp] theorem Pop_reclaim_map_ (n : ReclaimNodes P F) :
    n.Pop.2.reclaim_map_ = n.reclaim_map_ := by
  unfold Pop
  split <;> rfl

/-- What `Pop` gives out is in use nowhere, and the nodes of the map stay. -/
theorem Ok.pop (h : n.Ok) :
    n.Pop.1 < n.Pop.2.fresh ∧ n.Pop.1 ∉ n.Pop.2.reclaim_pool_ ++ n.values ∧
      n.Pop.2.reclaim_pool_ ≠ [] ∧ n.Pop.2.reclaim_pool_.Sublist n.reclaim_pool_ ∧
      n.fresh ≤ n.Pop.2.fresh ∧ ∀ a ∈ n.values, n.Pop.2.node a = n.node a := by
  have hfresh : n.fresh ∉ n.reclaim_pool_ ++ n.values := fun ha => Nat.lt_irrefl _ (h.lt _ ha)
  have hnew : ∀ a ∈ n.values, a ≠ n.fresh := by
    rintro a ha rfl
    exact hfresh (List.mem_append_right _ ha)
  match hp : n.reclaim_pool_ with
  | [] => exact absurd hp h.pool
  | [last] =>
    rw [hp] at hfresh
    simp only [Pop, hp]
    exact ⟨Nat.lt_succ_self _, hfresh, by simp, .refl _, Nat.le_succ _,
      fun a ha => Function.update_of_ne (hnew a ha) _ _⟩
  | head :: next :: rest =>
    have hnd := h.nodup
    rw [hp, List.cons_append, List.nodup_cons] at hnd
    simp only [Pop, hp]
    exact ⟨h.lt _ (by simp [hp]), hnd.1, by simp, List.sublist_cons_self _ _, Nat.le_refl _,
      fun _ _ => trivial⟩

variable [DecidableEq P]

/-- The pool and the nodes after `ReclaimLater`. -/
theorem ReclaimLater_node (n : ReclaimNodes P F) (ptr : P) (func : F) :
    (n.ReclaimLater ptr func).reclaim_pool_ = n.Pop.2.reclaim_pool_ ∧
      (n.ReclaimLater ptr func).fresh = n.Pop.2.fresh ∧
      (n.ReclaimLater ptr func).node =
        Function.update n.Pop.2.node n.Pop.1 ⟨some ptr, some func⟩ := by
  simp only [ReclaimLater]
  split <;> exact ⟨rfl, rfl, rfl⟩

/-- The map after `ReclaimLater`. -/
theorem ReclaimLater_map (n : ReclaimNodes P F) (ptr : P) (func : F) :
    (n.ReclaimLater ptr func).reclaim_map_ =
      if ptr ∈ n.keys then n.reclaim_map_ else n.reclaim_map_ ++ [(ptr, n.Pop.1)] := by
  simp only [ReclaimLater, keys, Pop_reclaim_map_]
  split <;> simp_all

/-- A pointer that is there already keeps its entry, and the new node is lost. -/
theorem ReclaimLater_map_of_mem (h : ptr ∈ n.keys) (func : F) :
    (n.ReclaimLater ptr func).reclaim_map_ = n.reclaim_map_ := by
  rw [ReclaimLater_map, if_pos h]

theorem ReclaimLater_map_of_not_mem (h : ptr ∉ n.keys) (func : F) :
    (n.ReclaimLater ptr func).reclaim_map_ = n.reclaim_map_ ++ [(ptr, n.Pop.1)] := by
  rw [ReclaimLater_map, if_neg h]

theorem Ok.node_of_mem (h : n.Ok) (ptr : P) (func : F) {e : P × Nat} (he : e ∈ n.reclaim_map_) :
    (n.ReclaimLater ptr func).node e.2 = n.node e.2 := by
  obtain ⟨-, hout, -, -, -, hnode⟩ := h.pop
  have hv : e.2 ∈ n.values := List.mem_map_of_mem he
  rw [(n.ReclaimLater_node ptr func).2.2, Function.update_of_ne, hnode e.2 hv]
  intro heq
  exact hout (heq ▸ List.mem_append_right _ hv)

/-- `ReclaimLater` keeps the nodes in order. -/
theorem Ok.ReclaimLater (h : n.Ok) (ptr : P) (func : F) : (n.ReclaimLater ptr func).Ok := by
  obtain ⟨hlt, hout, hne, hsub, hle, -⟩ := h.pop
  obtain ⟨hpool, hfresh, hnode⟩ := n.ReclaimLater_node ptr func
  have hnd : (n.Pop.2.reclaim_pool_ ++ n.values).Nodup := h.nodup.sublist (hsub.append_right _)
  have hbound : ∀ a ∈ n.Pop.2.reclaim_pool_ ++ n.values, a < n.Pop.2.fresh := fun a ha =>
    Nat.lt_of_lt_of_le (h.lt a ((hsub.append_right _).subset ha)) hle
  have hold : ∀ e ∈ n.reclaim_map_, ((n.ReclaimLater ptr func).node e.2).ptr = some e.1 ∧
      ((n.ReclaimLater ptr func).node e.2).delete_func.isSome := fun e he => by
    rw [h.node_of_mem ptr func he]
    exact h.holds e he
  by_cases hp : ptr ∈ n.keys
  · have hmap := ReclaimLater_map_of_mem hp func
    refine ⟨hpool ▸ hne, ?_, ?_, ?_, hmap ▸ hold⟩
    · rwa [values, hmap, hpool]
    · rwa [values, hmap, hpool, hfresh]
    · rw [ReclaimNodes.keys, hmap]
      exact h.keys
  · have hmap := ReclaimLater_map_of_not_mem hp func
    have hval : (n.ReclaimLater ptr func).values = n.values ++ [n.Pop.1] := by
      rw [values, hmap, List.map_append]
      rfl
    refine ⟨hpool ▸ hne, ?_, ?_, ?_, ?_⟩
    · rw [hval, hpool, ← List.append_assoc]
      exact hnd.append (List.nodup_singleton _) (by simpa using hout)
    · rw [hval, hpool, hfresh, ← List.append_assoc]
      intro a ha
      rcases List.mem_append.mp ha with ha | ha
      · exact hbound a ha
      · exact List.mem_singleton.mp ha ▸ hlt
    · rw [ReclaimNodes.keys, hmap, List.map_append]
      exact h.keys.append (List.nodup_singleton _) (by simpa using hp)
    · rw [hmap]
      intro e he
      rcases List.mem_append.mp he with he | he
      · exact hold e he
      · rw [List.mem_singleton.mp he, hnode, Function.update_self]
        exact ⟨rfl, rfl⟩

/-- In order, a key leads to its only entry. -/
theorem Ok.find (h : n.Ok) {e : P × Nat} (he : e ∈ n.reclaim_map_) :
    n.reclaim_map_.find? (fun x => x.1 = e.1) = some e := by
  have hk : (n.reclaim_map_.map Prod.fst).Nodup := h.keys
  generalize n.reclaim_map_ = l at he hk
  induction l with
  | nil => cases he
  | cons a l ih =>
    rw [List.map_cons, List.nodup_cons] at hk
    rcases List.mem_cons.mp he with rfl | he
    · simp
    · have hne : a.1 ≠ e.1 := fun heq => hk.1 (heq ▸ List.mem_map_of_mem he)
      rw [List.find?_cons_of_neg (by simpa using hne)]
      exact ih he hk.2

theorem erase_map (n : ReclaimNodes P F) (push : Bool) (key : P) (a : Nat) :
    (n.erase push key a).reclaim_map_ = n.reclaim_map_.filter fun e => e.1 ≠ key := by
  cases push <;> rfl

theorem erase_node (n : ReclaimNodes P F) (push : Bool) (key : P) (a : Nat) :
    (n.erase push key a).node = n.node := by
  cases push <;> rfl

theorem keys_erase (n : ReclaimNodes P F) (push : Bool) (key : P) (a : Nat) :
    (n.erase push key a).keys = n.keys.filter (· ≠ key) := by
  rw [keys, erase_map, keys, List.filter_map]
  rfl

/-- In order, a key that is there leads to its pointer and its function. -/
theorem Ok.take_eq (h : n.Ok) (push : Bool) {e : P × Nat} (he : e ∈ n.reclaim_map_) :
    ∃ func, (n.node e.2).delete_func = some func ∧
      n.take push e.1 = some ((e.1, func), n.erase push e.1 e.2) := by
  obtain ⟨hptr, hfunc⟩ := h.holds e he
  obtain ⟨func, hfunc⟩ := Option.isSome_iff_exists.mp hfunc
  refine ⟨func, hfunc, ?_⟩
  simp only [ReclaimNodes.take, h.find he, hptr, hfunc]

/-- What an iteration that deletes has done. -/
theorem Ok.of_take (h : n.Ok) {call : P × F} {m : ReclaimNodes P F}
    (ht : n.take push key = some (call, m)) :
    ∃ a, (key, a) ∈ n.reclaim_map_ ∧ call.1 = key ∧ (n.node a).delete_func = some call.2 ∧
      m = n.erase push key a := by
  cases hf : n.reclaim_map_.find? fun e => e.1 = key with
  | none => simp [ReclaimNodes.take, hf] at ht
  | some e =>
    have he := List.mem_of_find?_eq_some hf
    obtain rfl : e.1 = key := by simpa using List.find?_some hf
    obtain ⟨func, hfunc, heq⟩ := h.take_eq push he
    rw [heq, Option.some.injEq, Prod.mk.injEq] at ht
    obtain ⟨rfl, rfl⟩ := ht
    exact ⟨e.2, he, rfl, hfunc, rfl⟩

omit [DecidableEq P] in
/-- The other entries have other nodes. -/
theorem Ok.ne_of_mem (h : n.Ok) {e e' : P × Nat} (he : e ∈ n.reclaim_map_)
    (he' : e' ∈ n.reclaim_map_) (hne : e'.1 ≠ e.1) : e'.2 ≠ e.2 := by
  intro heq
  have hnd : n.values.Nodup := (List.nodup_append.mp h.nodup).2.1
  have := List.inj_on_of_nodup_map hnd he' he heq
  exact hne (this ▸ rfl)

/-- Taking an entry out keeps the nodes in order. -/
theorem Ok.erase (h : n.Ok) (push : Bool) {e : P × Nat} (he : e ∈ n.reclaim_map_) :
    (n.erase push e.1 e.2).Ok := by
  have hsub : (n.reclaim_map_.filter fun x => x.1 ≠ e.1).Sublist n.reclaim_map_ :=
    List.filter_sublist
  have hval : (n.erase push e.1 e.2).values.Sublist n.values := by
    rw [values, erase_map]
    exact hsub.map _
  have hmem : e.2 ∈ n.values := List.mem_map_of_mem he
  have hout : e.2 ∉ (n.erase push e.1 e.2).values := by
    rw [values, erase_map]
    intro hv
    obtain ⟨e', he', heq⟩ := List.mem_map.mp hv
    obtain ⟨he', hne⟩ := List.mem_filter.mp he'
    exact h.ne_of_mem he he' (by simpa using hne) heq
  have hnd := List.nodup_append.mp h.nodup
  have hpool : e.2 ∉ n.reclaim_pool_ := fun hp => hnd.2.2 _ hp _ hmem rfl
  have hkeys : (n.erase push e.1 e.2).keys.Nodup := by
    rw [keys_erase]
    exact h.keys.filter _
  have hholds : ∀ e' ∈ (n.erase push e.1 e.2).reclaim_map_,
      ((n.erase push e.1 e.2).node e'.2).ptr = some e'.1 ∧
        ((n.erase push e.1 e.2).node e'.2).delete_func.isSome := by
    rw [erase_map, erase_node]
    exact fun e' he' => h.holds e' (hsub.subset he')
  cases push with
  | false =>
    refine ⟨h.pool, h.nodup.sublist (hval.append_left _), fun a ha => h.lt a ?_, hkeys, hholds⟩
    exact (hval.append_left _).subset ha
  | true =>
    refine ⟨List.cons_ne_nil _ _, List.nodup_cons.mpr ⟨?_, ?_⟩, fun a ha => ?_, hkeys, hholds⟩
    · exact fun hm => (List.mem_append.mp hm).elim hpool hout
    · exact h.nodup.sublist (hval.append_left _)
    · rcases List.mem_cons.mp ha with rfl | ha
      · exact h.lt _ (List.mem_append_right _ hmem)
      · exact h.lt a ((hval.append_left _).subset ha)

theorem Ok.take (h : n.Ok) {call : P × F} {m : ReclaimNodes P F}
    (ht : n.take push key = some (call, m)) : m.Ok := by
  obtain ⟨a, he, -, -, rfl⟩ := h.of_take ht
  exact h.erase push he

/-! ### The map as it is meant -/

/-- What waits to be deleted: pointers, each with its function. -/
def pending (n : ReclaimNodes P F) : List (P × F) :=
  n.reclaim_map_.filterMap fun e => (n.node e.2).delete_func.map fun func => (e.1, func)

omit [DecidableEq P] in
/-- In order, a pointer waits exactly if it is a key. -/
theorem Ok.pending_keys (h : n.Ok) : n.pending.map Prod.fst = n.keys := by
  rw [pending, List.map_filterMap, ReclaimNodes.keys, ← List.filterMap_eq_map]
  refine List.filterMap_congr fun e he => ?_
  obtain ⟨func, hfunc⟩ := Option.isSome_iff_exists.mp (h.holds e he).2
  simp [hfunc]

/-- `ReclaimLater` of a pointer that waits already changes nothing. -/
theorem Ok.pending_of_mem (h : n.Ok) (hp : ptr ∈ n.keys) (func : F) :
    (n.ReclaimLater ptr func).pending = n.pending := by
  rw [pending, ReclaimLater_map_of_mem hp, pending]
  exact List.filterMap_congr fun e he => by rw [h.node_of_mem ptr func he]

/-- `ReclaimLater` of any other pointer adds it, with its function. -/
theorem Ok.pending_of_not_mem (h : n.Ok) (hp : ptr ∉ n.keys) (func : F) :
    (n.ReclaimLater ptr func).pending = n.pending ++ [(ptr, func)] := by
  rw [pending, ReclaimLater_map_of_not_mem hp, List.filterMap_append, pending]
  congr 1
  · exact List.filterMap_congr fun e he => by rw [h.node_of_mem ptr func he]
  · simp [(n.ReclaimLater_node ptr func).2.2]

/-- Taking an entry out is one call for what waited, and nothing else leaves. -/
theorem Ok.pending_take (h : n.Ok) {call : P × F} {m : ReclaimNodes P F}
    (ht : n.take push key = some (call, m)) : n.pending.Perm (call :: m.pending) := by
  obtain ⟨a, he, hkey, hfunc, rfl⟩ := h.of_take ht
  have hk : (n.reclaim_map_.map Prod.fst).Nodup := h.keys
  simp only [pending, erase_map, erase_node]
  generalize n.reclaim_map_ = l at he hk
  induction l with
  | nil => cases he
  | cons e l ih =>
    rw [List.map_cons, List.nodup_cons] at hk
    rcases List.mem_cons.mp he with rfl | he
    · have hrest : (l.filter fun e => e.1 ≠ key) = l :=
        List.filter_eq_self.mpr fun e he => by
          simpa using fun heq : e.1 = key =>
            hk.1 (List.mem_map.mpr ⟨e, he, heq⟩)
      rw [List.filter_cons_of_neg (by simp), hrest, List.filterMap_cons]
      simp [hfunc, ← hkey]
    · have hne : e.1 ≠ key := fun heq => hk.1 (List.mem_map.mpr ⟨_, he, heq.symm⟩)
      rw [List.filter_cons_of_pos (by simpa using hne)]
      have hperm := ih he hk.2
      cases hd : (n.node e.2).delete_func with
      | none =>
        rw [List.filterMap_cons_none (by simp [hd]), List.filterMap_cons_none (by simp [hd])]
        exact hperm
      | some g =>
        rw [List.filterMap_cons_some (b := (e.1, g)) (by simp [hd]),
          List.filterMap_cons_some (b := (e.1, g)) (by simp [hd])]
        exact (hperm.cons _).trans (.swap _ _ _)

end ReclaimNodes

/-! ### Nodes that are in order -/

/-- The nodes of a `Reclaimer`, in order. -/
structure ReclaimStore (P F : Type*) extends ReclaimNodes P F where
  ok : toReclaimNodes.Ok

namespace ReclaimStore

/-- A new `Reclaimer`. -/
def initial : ReclaimStore P F := ⟨.initial, .initial⟩

variable [DecidableEq P] {s t : ReclaimStore P F} {ptr key : P} {func : F} {push : Bool}
  {call : P × F}

/-- `ReclaimLater` on nodes in order. -/
def ReclaimLater (s : ReclaimStore P F) (ptr : P) (func : F) : ReclaimStore P F :=
  ⟨s.toReclaimNodes.ReclaimLater ptr func, s.ok.ReclaimLater ptr func⟩

/-- An iteration that deletes, on nodes in order. -/
def take (s : ReclaimStore P F) (push : Bool) (key : P) : Option ((P × F) × ReclaimStore P F) :=
  match h : s.toReclaimNodes.take push key with
  | none => none
  | some (call, m) => some (call, ⟨m, s.ok.take h⟩)

theorem take_eq_some (h : s.take push key = some (call, t)) :
    s.toReclaimNodes.take push key = some (call, t.toReclaimNodes) := by
  unfold take at h
  split at h
  · cases h
  · next heq =>
    rw [Option.some.injEq, Prod.mk.injEq] at h
    obtain ⟨rfl, rfl⟩ := h
    exact heq

/-- Every key of the map can be taken out. -/
theorem exists_take (h : key ∈ s.keys) (push : Bool) :
    ∃ call t, s.take push key = some (call, t) := by
  obtain ⟨e, he, rfl⟩ := List.mem_map.mp h
  obtain ⟨func, -, heq⟩ := s.ok.take_eq push he
  refine ⟨(e.1, func), ⟨s.toReclaimNodes.erase push e.1 e.2, s.ok.erase push he⟩, ?_⟩
  unfold take
  split
  · next hn => simp [heq] at hn
  · next hs =>
    rw [heq, Option.some.injEq, Prod.mk.injEq] at hs
    obtain ⟨rfl, rfl⟩ := hs
    rfl

/-- The deletion is of the key, which then is no key any more. -/
theorem take_keys (h : s.take push key = some (call, t)) :
    call.1 = key ∧ key ∈ s.keys ∧ t.keys = s.keys.filter (· ≠ key) := by
  obtain ⟨a, he, hkey, -, heq⟩ := s.ok.of_take (take_eq_some h)
  refine ⟨hkey, List.mem_map_of_mem (f := Prod.fst) he, ?_⟩
  rw [heq, ReclaimNodes.keys_erase]

theorem pending_take (h : s.take push key = some (call, t)) :
    s.pending.Perm (call :: t.pending) := s.ok.pending_take (take_eq_some h)

theorem keys_ReclaimLater : ptr ∈ (s.ReclaimLater key func).keys ↔ ptr = key ∨ ptr ∈ s.keys := by
  show ptr ∈ (s.toReclaimNodes.ReclaimLater key func).keys ↔ _
  rw [ReclaimNodes.keys, ReclaimNodes.ReclaimLater_map]
  split
  · next hk =>
    refine ⟨.inr, fun h => h.elim (fun heq => heq ▸ hk) id⟩
  · rw [List.map_append, List.mem_append, List.map_singleton, List.mem_singleton]
    exact or_comm

end ReclaimStore

end LimWebserver.Hazard
