import LimWebserver.Base.ConfigerLoad

namespace LimWebserver.ConfigerRegistry

open Http

/-!
# Base — the names of `Configer::Lookup` and `LoadFromYaml`

Both check a name with the same expression, which looks at its first character, and at the others
only for the end of a line.

* `NameLaw` — the rule on names, for a name and for a tree; `Plain` — the names that keep it;
* `accepted_iff` — both places accept the same;
* `name_iff` — exactly the names that keep the rule.
-/

variable {Ty : Type} {Val : Ty → Type} [DecidableEq Ty] {s : Registry Val} {c : Call Val}

/-- A name whose first character tells, or that has an end of line. -/
def Plain (name : Bytes) : Prop :=
  (∀ b ∈ name, isLegal b = true) ∨ (∃ b rest, name = b :: rest ∧ isLegal b = false) ∨
    10 ∈ name ∨ 13 ∈ name

/-! ### One name -/

theorem regex_match_cons (b : UInt8) (rest : Bytes) :
    regex_match (b :: rest) = true ↔ isLegal b = true ∧ 10 ∉ rest ∧ 13 ∉ rest := by
  rw [regex_match_iff, or_iff_right (List.cons_ne_nil b rest)]
  constructor
  · rintro ⟨b', rest', heq, h⟩
    cases heq
    exact h
  · exact fun h => ⟨b, rest, rfl, h⟩

/-- No end of line is legal. -/
theorem regex_match_of_legal {name : Bytes} (h : ∀ b ∈ name, isLegal b = true) :
    regex_match name = true := by
  cases name with
  | nil => exact (regex_match_iff []).mpr (.inl rfl)
  | cons b rest =>
    refine (regex_match_cons b rest).mpr ⟨h b List.mem_cons_self, fun h10 => ?_, fun h13 => ?_⟩
    · exact absurd (h 10 (List.mem_cons_of_mem b h10)) (by decide)
    · exact absurd (h 13 (List.mem_cons_of_mem b h13)) (by decide)

/-- The names that are judged as they are to be. -/
theorem plain_iff (name : Bytes) :
    (¬regex_match name = true ↔ ∃ b ∈ name, isLegal b = false) ↔ Plain name := by
  by_cases hlegal : ∀ b ∈ name, isLegal b = true
  · refine iff_of_true (iff_of_false (not_not_intro (regex_match_of_legal hlegal)) ?_) (.inl hlegal)
    rintro ⟨b, hb, hbad⟩
    rw [hlegal b hb] at hbad
    cases hbad
  have hbad : ∃ b ∈ name, isLegal b = false := by simpa using hlegal
  rw [iff_true_right hbad, Plain, or_iff_right hlegal]
  cases name with
  | nil => exact absurd (List.forall_mem_nil _) hlegal
  | cons b rest =>
    rw [regex_match_cons]
    cases hb : isLegal b with
    | false => exact iff_of_true (fun h => nomatch h.1) (.inl ⟨b, rest, rfl, hb⟩)
    | true =>
      have hfirst : ¬∃ b' rest', b :: rest = b' :: rest' ∧ isLegal b' = false := by
        rintro ⟨b', rest', heq, hb'⟩
        cases heq
        rw [hb] at hb'
        cases hb'
      have h10 : 10 ≠ b := fun h => absurd (h ▸ hb) (by decide)
      have h13 : 13 ≠ b := fun h => absurd (h ▸ hb) (by decide)
      rw [or_iff_right hfirst, List.mem_cons, List.mem_cons, or_iff_right h10, or_iff_right h13,
        and_iff_right rfl, not_and_or, not_not, not_not]

/-! ### `Lookup` of a name that is not registered -/

theorem Lookup_ok_iff (hc : s.configs c.name = none) :
    (∃ r, s.Lookup c = .ok r) ↔ regex_match c.name = true := by
  rw [Lookup_of_none hc]
  split_ifs with h
  · exact iff_of_true ⟨_, rfl⟩ h
  · exact iff_of_false (fun ⟨_, hr⟩ => nomatch hr) h

theorem Lookup_error_iff (hc : s.configs c.name = none) :
    s.Lookup c = .error (.invalid_argument c.name) ↔ ¬regex_match c.name = true := by
  rw [Lookup_of_none hc]
  split_ifs with h
  · exact iff_of_false nofun (not_not_intro h)
  · exact iff_of_true rfl h

theorem registered_of_legal (hc : s.configs c.name = none) (h : ∀ b ∈ c.name, isLegal b = true) :
    ∃ id s', s.Lookup c = .ok (some id, s') ∧ s'.configs c.name = some id ∧
      s'.vars[id]? = some ⟨c.T, c.name, c.default_value⟩ := by
  have hLookup := (Lookup_of_none hc).trans (if_pos (regex_match_of_legal h))
  exact ⟨_, _, hLookup, bound_of_Lookup hLookup, List.getElem?_concat_length⟩

/-! ### Trees -/

variable [(T : Ty) → BEq (Val T)] (emit : Node → Bytes)
  (convert : (T : Ty) → Bytes → Option (Val T))

/-- **The rule on names**, for a name that is not registered and for a tree. -/
structure NameLaw (s : Registry Val) (c : Call Val) (root : Node) : Prop where
  /-- a character that is not legal, at any position, is thrown for, and nothing else is -/
  invalid : s.Lookup c = .error (.invalid_argument c.name) ↔ ∃ b ∈ c.name, isLegal b = false
  /-- any other name is registered, with the default value -/
  registered : (∀ b ∈ c.name, isLegal b = true) → ∃ id s', s.Lookup c = .ok (some id, s') ∧
    s'.configs c.name = some id ∧ s'.vars[id]? = some ⟨c.T, c.name, c.default_value⟩
  /-- a tree is accepted if `Lookup` accepts all its paths, wherever they are not registered -/
  accepted : (LoadFromYaml emit convert s root).result = .ok () ↔
    ∀ p ∈ preorder root, ∀ (t : Registry Val) (d : Call Val), d.name = dotted p.1 →
      t.configs d.name = none → ∃ r, t.Lookup d = .ok r

variable {emit convert} {root : Node}

/-- Both places accept the same. -/
theorem accepted_iff (c : Call Val) : (LoadFromYaml emit convert s root).result = .ok () ↔
    ∀ p ∈ preorder root, ∀ (t : Registry Val) (d : Call Val), d.name = dotted p.1 →
      t.configs d.name = none → ∃ r, t.Lookup d = .ok r := by
  rw [LoadFromYaml_ok_iff]
  refine forall₂_congr fun p _ => ⟨fun hp t d hd ht => ?_, fun h => ?_⟩
  · rw [Lookup_ok_iff ht, hd, hp]
  · exact (Lookup_ok_iff rfl).mp (h ⟨fun _ => none, []⟩ { c with name := dotted p.1 } rfl rfl)

/-- **The names that keep the rule.** -/
theorem name_iff (s : Registry Val) (c : Call Val) (hc : s.configs c.name = none) (root : Node) :
    NameLaw emit convert s c root ↔ Plain c.name := by
  rw [← plain_iff, ← Lookup_error_iff hc]
  exact ⟨NameLaw.invalid, fun h => ⟨h, registered_of_legal hc, accepted_iff c⟩⟩

/-- "system.port" keeps it. -/
theorem name_iff_port : NameLaw (fun _ => []) (fun _ _ => none)
    (⟨fun _ => none, []⟩ : Registry fun _ : Bool => Int) ⟨false, chars "system.port", 8080⟩ .null :=
  (name_iff _ _ rfl _).mpr (.inl (List.all_eq_true.mp (by decide)))

/-- "log-level" is registered. -/
theorem name_hyphen : ¬∀ (s : Registry fun _ : Bool => Int) c, s.configs c.name = none → ∀ root,
    NameLaw (fun _ => []) (fun _ _ => none) s c root := by
  intro h
  have hlaw := h ⟨fun _ => none, []⟩ ⟨false, chars "log-level", 0⟩ rfl .null
  refine (Lookup_error_iff rfl).mp (hlaw.invalid.mpr ⟨45, by decide, by decide⟩) ?_
  exact (regex_match_cons 108 (chars "og-level")).mpr (by decide)

end LimWebserver.ConfigerRegistry
