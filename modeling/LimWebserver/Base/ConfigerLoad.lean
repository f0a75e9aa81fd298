import LimWebserver.Base.ConfigerLookup

namespace LimWebserver.ConfigerRegistry

open Http

/-!
# Base — `Configer::LoadFromYaml`

A first pass over the tree checks and collects the dotted paths of all nodes, a second one looks
them up.

* `Node` — the trees; `recursiveAnalysis`, `analysisYaml` — the first pass;
* `fromString`, `update`, `LoadFromYaml` — the second pass, and both;
* `preorder`, `dotted`, `due` — the nodes with their keys, their paths, and the calls to be made;
* `recursiveAnalysis_eq` — what the first pass collects; `LoadFromYaml_eq` — both passes.
-/

/-- A YAML node; a key is what `Scalar()` gives for it. -/
inductive Node
  | null
  | scalar (text : Bytes)
  | sequence (l : List Node)
  | map (l : List (Bytes × Node))

/-! ### The first pass -/

mutual

/-- `recursiveAnalysis(pattern, path, node, output)` -/
def recursiveAnalysis (path : Bytes) (node : Node) (output : List (Bytes × Node)) :
    Except Exception (List (Bytes × Node)) :=
  if regex_match path then
    match node with
    | .map l => recursiveEntries path l (output ++ [(path, .map l)])
    | node => .ok (output ++ [(path, node)])
  else .error (.invalid_argument path)

/-- The loop over the entries of a map. -/
def recursiveEntries (path : Bytes) (l : List (Bytes × Node)) (output : List (Bytes × Node)) :
    Except Exception (List (Bytes × Node)) :=
  match l with
  | [] => .ok output
  | (key, node) :: l =>
    (recursiveAnalysis (if path = [] then key else path ++ [46] ++ key) node output).bind
      (recursiveEntries path l)

end

def analysisYaml (node : Node) : Except Exception (List (Bytes × Node)) :=
  recursiveAnalysis [] node []

/-! ### The second pass -/

variable {Ty : Type} {Val : Ty → Type} (emit : Node → Bytes)
  (convert : (T : Ty) → Bytes → Option (Val T))

/-- What a variable is given for a node, where `emit` is what `ss << node` writes. -/
def Node.text : Node → Bytes
  | .scalar text => text
  | node => emit node

/-- `setValue(v)`: an equal value is not stored. -/
def ConfigerVar.setValue [(T : Ty) → BEq (Val T)] (x : ConfigerVar Val) (v : Val x.T) :
    ConfigerVar Val := if v == x.m_val then x else { x with m_val := v }

/-- `var->fromString(val)`, where `convert` is `FromStringFN`, or none if it throws. -/
def Registry.fromString [(T : Ty) → BEq (Val T)] (s : Registry Val) (var : Nat) (val : Bytes) :
    Registry Val :=
  match s.vars[var]? with
  | none => s
  | some x =>
    match convert x.T val with
    | none => s
    | some v => { s with vars := s.vars.set var (x.setValue v) }

/-- What a load leads to. -/
structure Outcome {Ty : Type} (Val : Ty → Type) where
  result : Except Exception Unit
  registry : Registry Val
  /-- the calls of `fromString`, each as a variable and a text -/
  calls : List (Nat × Bytes)

variable [(T : Ty) → BEq (Val T)]

/-- The body of the loop of `LoadFromYaml`. -/
def update (o : Outcome Val) (i : Bytes × Node) : Outcome Val :=
  let key := i.1
  if key = [] then o
  else
    match o.registry.LookupBase key with
    | none => o
    | some var =>
      { o with
        registry := o.registry.fromString convert var (i.2.text emit)
        calls := o.calls ++ [(var, i.2.text emit)] }

/-- `LoadFromYaml(root)` -/
def LoadFromYaml (s : Registry Val) (root : Node) : Outcome Val :=
  match analysisYaml root with
  | .error e => ⟨.error e, s, []⟩
  | .ok all_nodes => all_nodes.foldl (update emit convert) ⟨.ok (), s, []⟩

/-! ### What is to be loaded -/

mutual

/-- All nodes of a tree in pre-order, each with the keys that lead to it. -/
def preorder (node : Node) : List (List Bytes × Node) :=
  match node with
  | .map l => ([], .map l) :: preorderEntries l
  | node => [([], node)]

def preorderEntries (l : List (Bytes × Node)) : List (List Bytes × Node) :=
  match l with
  | [] => []
  | (key, node) :: l =>
    (preorder node).map (fun p => (key :: p.1, p.2)) ++ preorderEntries l

end

/-- The dotted path: empty keys in front leave nothing behind. -/
def dotted (keys : List Bytes) : Bytes := [46].intercalate (keys.dropWhile (· = []))

/-- The calls that a tree leads to: one for each node whose path is bound. -/
def due (s : Registry Val) (root : Node) : List (Nat × Bytes) :=
  (preorder root).filterMap fun p =>
    if dotted p.1 = [] then none
    else (s.configs (dotted p.1)).map fun var => (var, p.2.text emit)

/-! ### Paths -/

/-- A path with more keys behind it. -/
def extend (path : Bytes) (keys : List Bytes) : Bytes :=
  keys.foldl (fun path key => if path = [] then key else path ++ [46] ++ key) path

theorem extend_of_ne_nil {path : Bytes} (h : path ≠ []) (keys : List Bytes) :
    extend path keys = [46].intercalate (path :: keys) := by
  induction keys generalizing path with
  | nil => simp [extend]
  | cons key keys ih =>
    rw [extend, List.foldl_cons, if_neg h]
    refine (ih (by simp)).trans ?_
    cases keys with
    | nil => simp
    | cons key' keys => simp

theorem extend_nil (keys : List Bytes) : extend [] keys = dotted keys := by
  induction keys with
  | nil => simp [extend, dotted]
  | cons key keys ih =>
    by_cases h : key = []
    · subst h
      exact ih
    · have hdrop : (key :: keys).dropWhile (· = []) = key :: keys :=
        List.dropWhile_cons_of_neg (by simpa using h)
      rw [dotted, hdrop, ← extend_of_ne_nil h]
      rfl

/-! ### What the first pass collects -/

/-- The first path that is not a name is thrown. -/
def collect (nodes output : List (Bytes × Node)) : Except Exception (List (Bytes × Node)) :=
  match nodes.find? fun i => !regex_match i.1 with
  | some i => .error (.invalid_argument i.1)
  | none => .ok (output ++ nodes)

theorem collect_append (nodes nodes' output : List (Bytes × Node)) :
    collect (nodes ++ nodes') output = (collect nodes output).bind (collect nodes') := by
  rw [collect, List.find?_append, collect]
  cases nodes.find? fun i => !regex_match i.1 with
  | some i => rfl
  | none =>
    show _ = collect nodes' (output ++ nodes)
    rw [collect, Option.none_or]
    cases nodes'.find? fun i => !regex_match i.1 with
    | some i => rfl
    | none => exact congrArg Except.ok (List.append_assoc _ _ _).symm

/-- The nodes of a tree or of a list of entries, by their paths. -/
def paths (path : Bytes) (nodes : List (List Bytes × Node)) : List (Bytes × Node) :=
  nodes.map fun p => (extend path p.1, p.2)

theorem paths_map_cons (path key : Bytes) (nodes : List (List Bytes × Node)) :
    paths path (nodes.map fun p => (key :: p.1, p.2)) =
      paths (if path = [] then key else path ++ [46] ++ key) nodes := by
  rw [paths, List.map_map]
  rfl

theorem collect_cons (i : Bytes × Node) (nodes output : List (Bytes × Node)) :
    collect (i :: nodes) output =
      if regex_match i.1 then collect nodes (output ++ [i])
      else .error (.invalid_argument i.1) := by
  have h := collect_append [i] nodes output
  rw [List.singleton_append] at h
  rw [h, collect]
  by_cases hi : regex_match i.1 = true
  · rw [List.find?_cons_of_neg (by simp [hi]), if_pos hi]
    rfl
  · rw [List.find?_cons_of_pos (by simpa using hi), if_neg hi]
    rfl

mutual

theorem recursiveAnalysis_eq (path : Bytes) (node : Node) (output : List (Bytes × Node)) :
    recursiveAnalysis path node output = collect (paths path (preorder node)) output := by
  match node with
  | .map l =>
    rw [recursiveAnalysis, preorder, paths, List.map_cons, collect_cons]
    exact if_congr Iff.rfl (recursiveEntries_eq path l _) rfl
  | .null | .scalar _ | .sequence _ =>
    rw [recursiveAnalysis, preorder, paths, List.map_cons, collect_cons]
    · exact if_congr Iff.rfl (congrArg Except.ok (List.append_nil _).symm) rfl
    · exact nofun
    · exact nofun

theorem recursiveEntries_eq (path : Bytes) (l : List (Bytes × Node))
    (output : List (Bytes × Node)) :
    recursiveEntries path l output = collect (paths path (preorderEntries l)) output := by
  match l with
  | [] =>
    rw [recursiveEntries, preorderEntries]
    exact congrArg Except.ok (List.append_nil output).symm
  | (key, node) :: l =>
    rw [recursiveEntries, preorderEntries, paths, List.map_append, collect_append,
      recursiveAnalysis_eq, ← paths_map_cons]
    exact congrArg _ (funext (recursiveEntries_eq path l))

end

/-- The first pass throws the first path that is not a name, or returns all of them. -/
theorem analysisYaml_eq (root : Node) : analysisYaml root =
    match (preorder root).find? fun p => !regex_match (dotted p.1) with
    | some p => .error (.invalid_argument (dotted p.1))
    | none => .ok ((preorder root).map fun p => (dotted p.1, p.2)) := by
  have hpaths : paths [] (preorder root) = (preorder root).map fun p => (dotted p.1, p.2) :=
    List.map_congr_left fun p _ => by rw [extend_nil]
  have hfind : ((preorder root).map fun p => (dotted p.1, p.2)).find? (fun i => !regex_match i.1) =
      ((preorder root).find? fun p => !regex_match (dotted p.1)).map fun p => (dotted p.1, p.2) :=
    List.find?_map ..
  rw [analysisYaml, recursiveAnalysis_eq, hpaths, collect, hfind]
  cases (preorder root).find? fun p => !regex_match (dotted p.1) with
  | some p => rfl
  | none => rfl

/-! ### What the second pass calls -/

section

variable {emit convert} {s : Registry Val} {o : Outcome Val}

theorem configs_fromString (var : Nat) (val : Bytes) :
    (s.fromString convert var val).configs = s.configs := by
  rw [Registry.fromString]
  split
  · rfl
  · split <;> rfl

/-- Other variables are left alone. -/
theorem vars_fromString {var id : Nat} (h : id ≠ var) (val : Bytes) :
    (s.fromString convert var val).vars[id]? = s.vars[id]? := by
  rw [Registry.fromString]
  split
  · rfl
  · split
    · rfl
    · exact List.getElem?_set_ne h.symm

/-- The registry after some calls of `fromString`. -/
def Registry.load (convert : (T : Ty) → Bytes → Option (Val T)) (s : Registry Val)
    (calls : List (Nat × Bytes)) : Registry Val :=
  calls.foldl (fun s c => s.fromString convert c.1 c.2) s

theorem load_append (calls calls' : List (Nat × Bytes)) :
    s.load convert (calls ++ calls') = (s.load convert calls).load convert calls' :=
  List.foldl_append

theorem configs_load (calls : List (Nat × Bytes)) : (s.load convert calls).configs = s.configs := by
  induction calls generalizing s with
  | nil => rfl
  | cons c calls ih => exact ih.trans (configs_fromString c.1 c.2)

theorem vars_load {calls : List (Nat × Bytes)} {id : Nat} (h : id ∉ calls.map Prod.fst) :
    (s.load convert calls).vars[id]? = s.vars[id]? := by
  induction calls generalizing s with
  | nil => rfl
  | cons c calls ih =>
    obtain ⟨hne, hcalls⟩ := not_or.mp fun hmem => h (List.mem_cons.mpr hmem)
    exact (ih hcalls).trans (vars_fromString hne c.2)

/-- The call that a node leads to. -/
def due1 (emit : Node → Bytes) (s : Registry Val) (i : Bytes × Node) : Option (Nat × Bytes) :=
  if i.1 = [] then none else (s.configs i.1).map fun var => (var, i.2.text emit)

theorem update_eq (i : Bytes × Node) : update emit convert o i =
    { o with
      registry := o.registry.load convert (due1 emit o.registry i).toList
      calls := o.calls ++ (due1 emit o.registry i).toList } := by
  rw [update, due1, Registry.LookupBase]
  by_cases h : i.1 = []
  · simp [h, Registry.load]
  · cases o.registry.configs i.1 with
    | none => simp [h, Registry.load]
    | some var => simp [h, Registry.load]

theorem foldl_update (nodes : List (Bytes × Node)) : nodes.foldl (update emit convert) o =
    { o with
      registry := o.registry.load convert (nodes.filterMap (due1 emit o.registry))
      calls := o.calls ++ nodes.filterMap (due1 emit o.registry) } := by
  induction nodes generalizing o with
  | nil => simp [Registry.load]
  | cons i nodes ih =>
    have hdue : due1 emit (o.registry.load convert (due1 emit o.registry i).toList) =
        due1 emit o.registry := by
      funext i
      rw [due1, configs_load, due1]
    have hcons : (i :: nodes).filterMap (due1 emit o.registry) =
        (due1 emit o.registry i).toList ++ nodes.filterMap (due1 emit o.registry) := by
      rw [List.filterMap_cons]
      cases due1 emit o.registry i <;> rfl
    rw [List.foldl_cons, update_eq, ih, hcons]
    simp only [hdue, load_append, List.append_assoc]

/-- All paths are to be names. -/
theorem LoadFromYaml_ok_iff {root : Node} : (LoadFromYaml emit convert s root).result = .ok () ↔
    ∀ p ∈ preorder root, regex_match (dotted p.1) = true := by
  rw [LoadFromYaml, analysisYaml_eq]
  cases h : (preorder root).find? fun p => !regex_match (dotted p.1) with
  | some p =>
    have hp : regex_match (dotted p.1) = false := by simpa using List.find?_some h
    refine iff_of_false nofun fun hall => ?_
    rw [hall p (List.mem_of_find?_eq_some h)] at hp
    cases hp
  | none =>
    refine iff_of_true ?_ fun p hp => by simpa using List.find?_eq_none.mp h p hp
    show Outcome.result (List.foldl _ _ _) = _
    rw [foldl_update]

end

/-- **A load does everything or nothing**: either the first path that is not a name is thrown, or
    each node whose path is bound is passed on, in pre-order. No other variable changes. -/
theorem LoadFromYaml_eq (s : Registry Val) (root : Node) :
    (LoadFromYaml emit convert s root =
      match (preorder root).find? fun p => !regex_match (dotted p.1) with
      | some p => ⟨.error (.invalid_argument (dotted p.1)), s, []⟩
      | none => ⟨.ok (), s.load convert (due emit s root), due emit s root⟩) ∧
    (s.load convert (due emit s root)).configs = s.configs ∧
    ∀ id ∉ (due emit s root).map Prod.fst,
      (s.load convert (due emit s root)).vars[id]? = s.vars[id]? := by
  refine ⟨?_, configs_load _, fun id hid => vars_load hid⟩
  have hdue : ((preorder root).map fun p => (dotted p.1, p.2)).filterMap (due1 emit s) =
      due emit s root := List.filterMap_map
  rw [LoadFromYaml, analysisYaml_eq]
  cases (preorder root).find? fun p => !regex_match (dotted p.1) with
  | some p => rfl
  | none =>
    show List.foldl _ _ _ = _
    rw [foldl_update, hdue]
    rfl

end LimWebserver.ConfigerRegistry
