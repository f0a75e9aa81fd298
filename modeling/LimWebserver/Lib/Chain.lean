import Mathlib.Data.List.Basic
import Mathlib.Logic.Function.Basic

namespace LimWebserver.Lib

/-!
# Linked lists in memory

A memory of linked cells is seen through the function `nxt` that reads the next-pointer of a
cell; a pointer is an `Option`, `none` being null.

* `Chain nxt p l q` — following `nxt` from `p` visits exactly the cells `l` and arrives at `q`;
* composition, frame and index lemmas, and what relinking the last cell does;
* `Adjacent l a b` — `b` comes right behind `a` in `l`, for lists some of whose links are still to
  be written; `Chain.of_adjacent` once all of them are.
-/

variable {A : Type*}

/-- Following `nxt` from the pointer `p` visits the cells `l`, in order, and arrives at `q`. -/
def Chain (nxt : A → Option A) : Option A → List A → Option A → Prop
  | p, [], q => p = q
  | p, a :: l, q => p = some a ∧ Chain nxt (nxt a) l q

namespace Chain

variable {nxt nxt' : A → Option A} {p q r s : Option A} {a b : A} {l m : List A}

@[simp] theorem nil_iff : Chain nxt p [] q ↔ p = q := Iff.rfl

@[simp] theorem cons_iff : Chain nxt p (a :: l) q ↔ p = some a ∧ Chain nxt (nxt a) l q := Iff.rfl

/-- Two chains make one when the second starts where the first arrives. -/
theorem append_iff : Chain nxt p (l ++ m) q ↔ ∃ r, Chain nxt p l r ∧ Chain nxt r m q := by
  induction l generalizing p with
  | nil => simp
  | cons a l ih => simp [ih, and_assoc]

/-- A chain depends on the pointers of its own cells only. -/
theorem frame (h : Chain nxt p l q) (heq : ∀ a ∈ l, nxt' a = nxt a) : Chain nxt' p l q := by
  induction l generalizing p with
  | nil => exact h
  | cons a l ih =>
    obtain ⟨rfl, h⟩ := h
    refine ⟨rfl, ?_⟩
    rw [heq a List.mem_cons_self]
    exact ih h fun b hb => heq b (List.mem_cons_of_mem a hb)

/-- A chain to null starts at its first cell. -/
theorem head (h : Chain nxt p l none) : p = l[0]? := by
  cases l with
  | nil => exact h
  | cons a l => exact h.1

/-- In a chain to null the pointer of a cell leads to the cell behind it. -/
theorem next_getElem? (h : Chain nxt p l none) {i : Nat} (hi : l[i]? = some a) :
    nxt a = l[i + 1]? := by
  induction l generalizing p i with
  | nil => simp at hi
  | cons b l ih =>
    obtain ⟨rfl, h⟩ := h
    cases i with
    | zero =>
      obtain rfl : b = a := by simpa using hi
      simpa using h.head
    | succ i => simpa using ih h (by simpa using hi)

/-- The part of a chain up to one of its cells. -/
theorem take (h : Chain nxt p l q) (n : Nat) : ∃ r, Chain nxt p (l.take n) r := by
  rw [← List.take_append_drop n l, append_iff] at h
  obtain ⟨r, hr, -⟩ := h
  exact ⟨r, hr⟩

section
variable [DecidableEq A]

/-- Linking a cell that is not in the chain behind its last one. -/
theorem snoc (h : Chain nxt p (l ++ [a]) q) (hnd : (l ++ [a]).Nodup) (hb : b ∉ l ++ [a]) :
    Chain (Function.update (Function.update nxt b r) a (some b)) p (l ++ [a] ++ [b]) r := by
  rw [append_iff] at h
  obtain ⟨s, hl, rfl, -⟩ := h
  have ha : a ∉ l := fun ha => (List.nodup_append.mp hnd).2.2 a ha a (by simp) rfl
  have hne : b ≠ a := by rintro rfl; exact hb (by simp)
  rw [List.append_assoc, append_iff]
  refine ⟨some a, hl.frame fun c hc => ?_, rfl, ?_⟩
  · have hca : c ≠ a := by rintro rfl; exact ha hc
    have hcb : c ≠ b := by rintro rfl; exact hb (List.mem_append_left _ hc)
    rw [Function.update_of_ne hca, Function.update_of_ne hcb]
  · rw [Function.update_self]
    exact ⟨rfl, by rw [Function.update_of_ne hne, Function.update_self]; rfl⟩

/-- Linking a chain of other cells behind the last cell. -/
theorem link (h : Chain nxt p (l ++ [a]) q) (ha : a ∉ l) (ham : a ∉ m) (hm : Chain nxt s m r) :
    Chain (Function.update nxt a s) p (l ++ [a] ++ m) r := by
  rw [append_iff] at h
  obtain ⟨t, hl, rfl, -⟩ := h
  have hne : ∀ {c : A} {n : List A}, a ∉ n → c ∈ n → Function.update nxt a s c = nxt c := by
    intro c n hn hc
    refine Function.update_of_ne ?_ _ _
    rintro rfl
    exact hn hc
  rw [List.append_assoc, append_iff]
  refine ⟨some a, hl.frame fun c hc => hne ha hc, rfl, ?_⟩
  rw [Function.update_self]
  exact hm.frame fun c hc => hne ham hc

end

end Chain

/-! ### Neighbours -/

/-- `b` comes right behind `a` in the list. -/
def Adjacent : List A → A → A → Prop
  | [], _, _ => False
  | c :: l, a, b => (c = a ∧ l.head? = some b) ∨ Adjacent l a b

section
variable {nxt : A → Option A} {a b c : A} {l m : List A}

@[simp] theorem adjacent_nil : ¬ Adjacent [] a b := id

@[simp] theorem adjacent_cons_iff :
    Adjacent (c :: l) a b ↔ (c = a ∧ l.head? = some b) ∨ Adjacent l a b := Iff.rfl

/-- Neighbours in a list of two parts. -/
theorem adjacent_append_iff : Adjacent (l ++ m) a b ↔
    Adjacent l a b ∨ Adjacent m a b ∨ (l.getLast? = some a ∧ m.head? = some b) := by
  induction l with
  | nil => simp
  | cons c l ih =>
    rw [List.cons_append, adjacent_cons_iff, adjacent_cons_iff, ih]
    cases l with
    | nil => simp; tauto
    | cons d l => simp [List.getLast?_cons_cons]; tauto

theorem Adjacent.mem_left (h : Adjacent l a b) : a ∈ l := by
  induction l with
  | nil => exact h.elim
  | cons c l ih =>
    rcases h with ⟨rfl, -⟩ | h
    · exact List.mem_cons_self
    · exact List.mem_cons_of_mem c (ih h)

theorem Adjacent.mem_tail (h : Adjacent l a b) : b ∈ l.tail := by
  induction l with
  | nil => exact h.elim
  | cons c l ih =>
    rcases h with ⟨-, h⟩ | h
    · exact List.mem_of_mem_head? h
    · exact List.mem_of_mem_tail (ih h)

theorem Adjacent.mem_right (h : Adjacent l a b) : b ∈ l := List.mem_of_mem_tail h.mem_tail

/-- Nothing comes behind the last cell. -/
theorem Adjacent.ne_getLast (h : Adjacent l a b) (hnd : l.Nodup) : l.getLast? ≠ some a := by
  induction l with
  | nil => simp
  | cons c l ih =>
    obtain ⟨hc, hnd⟩ := List.nodup_cons.mp hnd
    cases l with
    | nil => simp at h
    | cons d l =>
      rw [List.getLast?_cons_cons]
      rcases h with ⟨rfl, -⟩ | h
      · exact fun hlast => hc (List.mem_of_getLast? hlast)
      · exact ih h hnd

/-- A cell has one neighbour behind it. -/
theorem Adjacent.unique (h : Adjacent l a b) (h' : Adjacent l a c) (hnd : l.Nodup) : b = c := by
  induction l with
  | nil => exact h.elim
  | cons d l ih =>
    obtain ⟨hd, hnd⟩ := List.nodup_cons.mp hnd
    rcases h with ⟨rfl, h⟩ | h <;> rcases h' with ⟨h1, h'⟩ | h'
    · exact Option.some.inj (h.symm.trans h')
    · exact absurd h'.mem_left hd
    · exact absurd h.mem_left (h1 ▸ hd)
    · exact ih h h' hnd

/-- Once every cell points to its neighbour, and the last one to null, the list is a chain. -/
theorem Chain.of_adjacent (h : ∀ a b, Adjacent l a b → nxt a = some b)
    (hlast : ∀ a, l.getLast? = some a → nxt a = none) : Chain nxt l.head? l none := by
  induction l with
  | nil => rfl
  | cons c l ih =>
    refine ⟨rfl, ?_⟩
    have hl := ih (fun a b hab => h a b (.inr hab)) fun a ha => hlast a (by
      cases l with
      | nil => simp at ha
      | cons d l => rwa [List.getLast?_cons_cons])
    cases l with
    | nil => exact hlast c rfl
    | cons d l => rwa [h c d (.inl ⟨rfl, rfl⟩)]

end

end LimWebserver.Lib
