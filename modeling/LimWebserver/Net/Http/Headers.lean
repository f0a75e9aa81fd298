import LimWebserver.Net.Http.Request
import Mathlib.Data.List.TakeWhile
import Mathlib.Data.UInt

namespace LimWebserver.Http

/-!
# Http — the maps of headers

* `fold` — what `strcasecmp` sees of a string; `strcasecmp_eq` — it is the order of the folded
  strings, so `CaseInsensitiveLess` is a strict weak order;
* `MapType.Sorted` — every key stands once, in that order; `set_sorted` — `m[key] = val` keeps it;
* `mem_of_get` — the entry of a key.
-/

/-- A string up to its first zero, in small letters. -/
def fold (text : Bytes) : Bytes := (text.takeWhile (· ≠ 0)).map tolower

@[simp] theorem tolower_eq_zero (x : UInt8) : tolower x = 0 ↔ x = 0 := by
  unfold tolower
  split_ifs with h <;> grind

theorem compare_zero {x : UInt8} (h : x ≠ 0) : compare 0 x = .lt := by
  rw [Std.compare_eq_lt]
  grind

theorem fold_cons {x : UInt8} (h : x ≠ 0) (text : Bytes) :
    fold (x :: text) = tolower x :: fold text := by
  simp [fold, h]

@[simp] theorem fold_zero (text : Bytes) : fold (0 :: text) = [] := by
  simp [fold]

theorem fold_of_not_mem {text : Bytes} (h : (0 : UInt8) ∉ text) : fold text = text.map tolower := by
  have hall : text.takeWhile (· ≠ 0) = text :=
    List.takeWhile_eq_self_iff.mpr fun x hx => by
      simp only [ne_eq, decide_not, Bool.not_eq_true', decide_eq_false_iff_not]
      intro h0
      exact h (h0 ▸ hx)
  rw [fold, hall]

/-- **`strcasecmp` is an order**, that of the folded strings. -/
theorem strcasecmp_eq (a b : Bytes) : strcasecmp a b = compare (fold a) (fold b) := by
  induction a generalizing b with
  | nil =>
    cases b with
    | nil => rfl
    | cons y b =>
      by_cases hy : y = 0
      · subst hy
        rw [fold_zero]
        rfl
      · rw [fold_cons hy, strcasecmp, List.headD_cons, if_neg hy]
        rfl
  | cons x a ih =>
    by_cases hx : x = 0
    · subst hx
      rw [fold_zero, strcasecmp]
      by_cases hb : b.headD 0 = 0
      · have hfold : fold b = [] := by
          cases b with
          | nil => rfl
          | cons y b =>
            obtain rfl : y = 0 := hb
            exact fold_zero b
        rw [hb, hfold]
        rfl
      · cases b with
        | nil => exact absurd rfl hb
        | cons y b =>
          replace hb : y ≠ 0 := hb
          have hlt := compare_zero (mt (tolower_eq_zero y).mp hb)
          rw [List.headD_cons, (tolower_eq_zero 0).mpr rfl, hlt, fold_cons hb]
          rfl
    · have hx' := mt (tolower_eq_zero x).mp hx
      rw [fold_cons hx, strcasecmp]
      -- the end of `b` is smaller than the letter `x`
      have hend : ∀ b : Bytes, b.headD 0 = 0 →
          compare (tolower x) (tolower (b.headD 0)) = .gt := by
        intro b hb
        have hswap : compare (tolower x) 0 = (compare 0 (tolower x)).swap :=
          Std.OrientedCmp.eq_swap
        rw [hb, (tolower_eq_zero 0).mpr rfl, hswap, compare_zero hx']
        rfl
      cases b with
      | nil =>
        rw [hend [] rfl]
        rfl
      | cons y b =>
        by_cases hy : y = 0
        · subst hy
          rw [hend (0 :: b) rfl, fold_zero]
          rfl
        · rw [fold_cons hy, List.headD_cons, List.tail_cons, if_neg hx, ih]
          show _ = List.compareLex compare (tolower x :: fold a) (tolower y :: fold b)
          rw [List.compareLex_cons_cons]
          cases compare (tolower x) (tolower y) <;> rfl

theorem strcasecmp_eq_iff {a b : Bytes} : strcasecmp a b = .eq ↔ fold a = fold b := by
  rw [strcasecmp_eq, Std.LawfulEqCmp.compare_eq_iff_eq]

theorem strcasecmp_swap {a b : Bytes} (h : strcasecmp a b = .gt) : strcasecmp b a = .lt := by
  have hswap : compare (fold b) (fold a) = (compare (fold a) (fold b)).swap :=
    Std.OrientedCmp.eq_swap
  rw [strcasecmp_eq] at h ⊢
  rw [hswap, h]
  rfl

theorem strcasecmp_trans {a b c : Bytes} (h : strcasecmp a b = .lt) (h' : strcasecmp b c = .lt) :
    strcasecmp a c = .lt := by
  rw [strcasecmp_eq] at *
  exact Std.TransCmp.lt_trans h h'

namespace MapType

/-- **The order of the map.** -/
def Sorted (m : MapType) : Prop := m.Pairwise fun e e' => strcasecmp e.1 e'.1 = .lt

variable {m : MapType} {key val : Bytes} {e : Bytes × Bytes}

/-- Where the keys and the values of a map come from. -/
theorem mem_set (h : e ∈ MapType.set m key val) :
    (e.1 = key ∨ e.1 ∈ m.map Prod.fst) ∧ (e.2 = val ∨ e.2 ∈ m.map Prod.snd) := by
  induction m with
  | nil =>
    obtain rfl := List.mem_singleton.mp h
    exact ⟨.inl rfl, .inl rfl⟩
  | cons e₀ m ih =>
    have hold : ∀ e ∈ e₀ :: m, (e.1 = key ∨ e.1 ∈ (e₀ :: m).map Prod.fst) ∧
        (e.2 = val ∨ e.2 ∈ (e₀ :: m).map Prod.snd) := fun e he =>
      ⟨.inr (List.mem_map_of_mem he), .inr (List.mem_map_of_mem he)⟩
    rw [MapType.set] at h
    split at h
    · rcases List.mem_cons.mp h with rfl | h
      · exact ⟨.inl rfl, .inl rfl⟩
      · exact hold e h
    · rcases List.mem_cons.mp h with rfl | h
      · exact ⟨.inr List.mem_cons_self, .inl rfl⟩
      · exact hold e (List.mem_cons_of_mem _ h)
    · rcases List.mem_cons.mp h with rfl | h
      · exact hold e List.mem_cons_self
      · obtain ⟨hkey, hval⟩ := ih h
        exact ⟨hkey.imp_right fun h => List.mem_cons_of_mem _ h,
          hval.imp_right fun h => List.mem_cons_of_mem _ h⟩

theorem set_sorted (h : Sorted m) : Sorted (MapType.set m key val) := by
  induction m with
  | nil => exact List.pairwise_singleton _ _
  | cons e₀ m ih =>
    obtain ⟨hfirst, hrest⟩ := List.pairwise_cons.mp h
    rw [MapType.set]
    split
    case h_1 hlt =>
      refine List.pairwise_cons.mpr ⟨fun e he => ?_, h⟩
      rcases List.mem_cons.mp he with rfl | he
      · exact hlt
      · exact strcasecmp_trans hlt (hfirst e he)
    case h_2 => exact List.pairwise_cons.mpr ⟨hfirst, hrest⟩
    case h_3 hgt =>
      refine List.pairwise_cons.mpr ⟨fun e he => ?_, ih hrest⟩
      rcases (mem_set he).1 with hkey | hkey
      · rw [hkey]
        exact strcasecmp_swap hgt
      · obtain ⟨e', he', hkey⟩ := List.mem_map.mp hkey
        rw [← hkey]
        exact hfirst e' he'

theorem mem_of_get (h : MapType.get m key = some val) :
    ∃ name, (name, val) ∈ m ∧ fold name = fold key := by
  obtain ⟨e, he, rfl⟩ := Option.map_eq_some_iff.mp h
  have hkey := List.find?_some he
  rw [decide_eq_true_eq, strcasecmp_eq_iff] at hkey
  exact ⟨e.1, List.mem_of_find?_eq_some he, hkey⟩

end MapType

end LimWebserver.Http
