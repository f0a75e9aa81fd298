import LimWebserver.Base.ReclaimerMarks

namespace LimWebserver.Hazard

open LimWebserver.Lib

/-!
# Base — a marked pointer is not deleted

* `Ahead` — a walk over the list that has come to one hazard pointer has another one still to visit;
* `Covered` — every thread that may delete a pointer has found it already, or has its mark still
  ahead; a mark that was there before the pointer was handed to `ReclaimLater` is covered, as the
  pass of a thread begins behind its `ReclaimLater`, and marks are pushed at the head only before
  they are used;
* `marked_not_deleted` — such a mark protects its pointer for as long as it stays.
-/

variable {Θ P F : Type*} {s s' : State Θ P F} {θ θ' : Θ} {l l' : List Nat} {i c d r : Nat} {p : P}

/-- Walking on from the hazard pointer `c`, a thread comes to `r`. -/
def Ahead (l : List Nat) (c r : Nat) : Prop := ∃ m, c :: m <:+ l ∧ r ∈ c :: m

/-- A thread at this program point does not miss the mark `r` of the pointer `p`. -/
def Pc.Covers (l : List Nat) (r : Nat) (p : P) : Pc P → Prop
  | .scanning c set => p ∈ set ∨ Ahead l c r
  | .advancing c set => p ∈ set ∨ (Ahead l c r ∧ r ≠ c)
  | .sweeping _ set => p ∈ set
  | .comparing key _ c => key = p → Ahead l c r
  | .stepping key _ c => key = p → Ahead l c r ∧ r ≠ c
  | _ => True

/-- No thread that has been handed the pointer `p` misses its mark `r`. -/
def Covered (s : State Θ P F) (l : List Nat) (r : Nat) (p : P) : Prop :=
  ∀ θ, p ∈ (s.thread θ).store.keys → (s.thread θ).pc.Covers l r p

/-! ### Walks -/

theorem Ahead.mono (h : Ahead l c r) (hl : l <:+ l') : Ahead l' c r := by
  obtain ⟨m, hm, hr⟩ := h
  exact ⟨m, hm.trans hl, hr⟩

/-- From the head everything is ahead. -/
theorem Shape.ahead_head (h : Shape s l) (hr : r ∈ l) : Ahead l s.head r := by
  have hc := h.chain
  cases l with
  | nil => cases hr
  | cons a m =>
    rw [← Option.some.inj hc.1] at hr ⊢
    exact ⟨m, List.suffix_rfl, hr⟩

/-- A step of the walk passes only the hazard pointer that it leaves. -/
theorem Ahead.advance (h : Ahead l c r) (hne : r ≠ c) (hs : Shape s l) :
    ∃ d, s.next c = some d ∧ Ahead l d r := by
  obtain ⟨m, hm, hr⟩ := h
  have hr : r ∈ m := (List.mem_cons.mp hr).resolve_left hne
  rw [hs.next_eq hm]
  cases m with
  | nil => cases hr
  | cons d m => exact ⟨d, rfl, m, (List.suffix_cons c (d :: m)).trans hm, hr⟩

theorem Pc.Covers.mono {pc : Pc P} (h : pc.Covers l r p) (hl : l <:+ l') : pc.Covers l' r p := by
  cases pc with
  | scanning c set => exact h.imp_right fun ha => ha.mono hl
  | advancing c set => exact h.imp_right fun ha => ⟨ha.1.mono hl, ha.2⟩
  | comparing key todo c => exact fun heq => (h heq).mono hl
  | stepping key todo c => exact fun heq => ⟨(h heq).1.mono hl, (h heq).2⟩
  | _ => exact h

/-! ### The step -/

section
variable [DecidableEq P]

/-- A thread that only reads does not miss a mark. -/
theorem Move.covers {pc pc' : Pc P} (hm : Move s θ pc pc') (hs : Shape s l) (hr : r ∈ l)
    (hmark : (s.heap r).ptr = some p) (h : pc.Covers l r p) : pc'.Covers l r p := by
  cases hm with
  | scan => exact .inr (hs.ahead_head hr)
  | unmarked hptr =>
    refine h.imp_right fun ha => ⟨ha, ?_⟩
    rintro rfl
    cases hmark.symm.trans hptr
  | @marked c set ptr hptr =>
    by_cases heq : r = c
    · subst heq
      obtain rfl : p = ptr := Option.some.inj (hmark.symm.trans hptr)
      exact .inl (List.mem_insert_self ..)
    · exact h.imp (fun hin => List.mem_insert_of_mem hin) fun ha => ⟨ha, heq⟩
  | advance hq =>
    refine h.imp_right fun ha => ?_
    obtain ⟨d, hd, had⟩ := ha.1.advance ha.2 hs
    exact Option.some.inj (hd.symm.trans hq) ▸ had
  | sweep hq =>
    refine h.resolve_right fun ha => ?_
    obtain ⟨d, hd, -⟩ := ha.1.advance ha.2 hs
    cases hd.symm.trans hq
  | keep hin hset => exact h
  | ask => exact fun _ => hs.ahead_head hr
  | other hptr =>
    refine fun heq => ⟨h heq, ?_⟩
    rintro rfl
    exact hptr (heq ▸ hmark)
  | step hq =>
    intro heq
    obtain ⟨d, hd, had⟩ := (h heq).1.advance (h heq).2 hs
    exact Option.some.inj (hd.symm.trans hq) ▸ had
  | _ => trivial

variable [DecidableEq Θ]

omit [DecidableEq P] in
/-- One thread moves on, and the others stay covered. -/
theorem Covered.setThread (h : Covered s l r p) (hl : l <:+ l') {t : Reclaimer P F}
    (ht : p ∈ t.store.keys → t.pc.Covers l' r p) : Covered (s.setThread θ t) l' r p :=
  State.forall_thread (Q := fun t => p ∈ t.store.keys → t.pc.Covers l' r p) ht
    fun θ' hk => (h θ' hk).mono hl

/-- **Step.** A covered mark stays covered, and its pointer is not deleted. -/
theorem Covered.after (h : Covered s l r p) (hs : Inv s l) (hr : r ∈ l)
    (hmark : (s.heap r).ptr = some p) {u : Option (Call P F)} (he : Effect s θ u s')
    (hl : l <:+ l') : Covered s' l' r p ∧
      (s'.deleted = s.deleted ∨ ∃ c, c.2.1 ≠ p ∧ s'.deleted = c :: s.deleted) := by
  cases he with
  | same => exact ⟨fun θ' hk => (h θ' hk).mono hl, .inl rfl⟩
  | null => exact ⟨h.setThread hl fun hk => (h θ hk).mono hl, .inl rfl⟩
  | move hm =>
    exact ⟨h.setThread hl fun hk =>
      (hm.covers hs.toShape hr hmark (h θ hk)).mono hl, .inl rfl⟩
  | unmark hu hpc hi => exact ⟨fun θ' hk => (h θ' hk).mono hl, .inl rfl⟩
  | @later ptr func hu hpc =>
    refine ⟨h.setThread (t := { s.thread θ with
      store := (s.thread θ).store.ReclaimLater ptr func }) hl fun _ => ?_, .inl rfl⟩
    show (s.thread θ).pc.Covers l' r p
    rw [hpc]
    trivial
  | @store ptr j hp hpc hi =>
    exact ⟨Covered.setThread (s := s.writePtr hp (some ptr)) h hl fun _ => trivial, .inl rfl⟩
  | @take ptr q hpc hflag =>
    exact ⟨Covered.setThread (s := s.writeFlag q true) h hl fun _ => trivial, .inl rfl⟩
  | allocate hpc =>
    exact ⟨Covered.setThread (s := { s with heap := _, fresh := _ }) h hl fun _ => trivial,
      .inl rfl⟩
  | count hpc =>
    exact ⟨Covered.setThread (s := { s with size := _ }) h hl fun _ => trivial, .inl rfl⟩
  | @link ptr a b hpc =>
    exact ⟨Covered.setThread (s := s.writeNext a b) h hl fun _ => trivial, .inl rfl⟩
  | @push ptr a hpc =>
    exact ⟨Covered.setThread (s := { s with head := a }) h hl fun _ => trivial, .inl rfl⟩
  | @clear j hp hpc hi hptr =>
    exact ⟨Covered.setThread (s := s.writeFlag hp false) h hl fun _ => trivial, .inl rfl⟩
  | @delete push key pc c store hpc htake =>
    obtain ⟨hc, hkey, hkeys⟩ := ReclaimStore.take_keys htake
    have hsub : p ∈ store.keys → p ∈ (s.thread θ).store.keys := fun hk => by
      rw [hkeys] at hk
      exact (List.mem_filter.mp hk).1
    rcases hpc with ⟨todo, set, hpc, -, hset, rfl⟩ | ⟨todo, q, hpc, hq, rfl⟩
    · -- the pass has found the pointer
      have hin : p ∈ (s.thread θ).store.keys → p ∈ set := fun hk => by
        have := h θ hk
        rwa [hpc] at this
      refine ⟨h.setThread (t := { s.thread θ with
        store := store, pc := .sweeping (todo.erase key) set }) hl fun hk => hin (hsub hk), .inr ?_⟩
      refine ⟨(θ, c), ?_, rfl⟩
      rintro rfl
      exact hset (hc ▸ hin (hc ▸ hkey))
    · -- the walk is at its end, and has not come to the mark
      refine ⟨h.setThread (t := { s.thread θ with store := store, pc := .leaving todo }) hl
        fun _ => trivial, .inr ⟨(θ, c), ?_, rfl⟩⟩
      rintro rfl
      have := h θ (hc ▸ hkey)
      rw [hpc] at this
      obtain ⟨ha, hne⟩ := this hc.symm
      obtain ⟨d, hd, -⟩ := ha.advance hne hs.toShape
      cases hd.symm.trans hq

/-- A run that keeps a covered mark does not delete its pointer. -/
theorem Covered.exec {as : List (Action Θ P F)} (h : Covered s l r p) (hs : Inv s l)
    (hslots : Slots s) (hr : Holds s θ i r p)
    (hu : ∀ a ∈ as, a ≠ .call θ (.UnMarkHazard (some i)))
    (he : (system Θ P F).exec s as = some s') :
    ∃ d, s'.deleted = d ++ s.deleted ∧ ∀ c ∈ d, c.2.1 ≠ p := by
  induction as generalizing s l with
  | nil => cases he; exact ⟨[], rfl, nofun⟩
  | cons a as ih =>
    obtain ⟨t, hst, ht⟩ := Option.bind_eq_some_iff.mp he
    obtain ⟨ha, has⟩ := List.forall_mem_cons.mp hu
    have heff := step_effect hst
    obtain ⟨l', hs', hgrow⟩ := hs.step heff
    have hmem : r ∈ l := hs.hp θ r (List.mem_of_getElem? hr.1.2)
    obtain ⟨hcov, hdel⟩ := h.after hs hmem hr.2 heff hgrow.suffix
    obtain ⟨d, hd, hne⟩ := ih hcov hs' (hslots.step hs heff) (hr.after_step hs hslots hst ha) has ht
    rcases hdel with hdel | ⟨c, hc, hdel⟩
    · exact ⟨d, hdel ▸ hd, hne⟩
    · refine ⟨d ++ [c], by rw [hd, hdel, List.append_assoc]; rfl, fun e he => ?_⟩
      rcases List.mem_append.mp he with he | he
      · exact hne e he
      · exact List.mem_singleton.mp he ▸ hc

/-- **A marked pointer is not deleted.** When a thread has a pointer marked that no thread has
    handed to `ReclaimLater` yet, then whatever the threads do from then on, this one calling
    `UnMarkHazard` for the mark excepted, `delete_func` is not called with the pointer. -/
theorem marked_not_deleted {as : List (Action Θ P F)} (h : (system Θ P F).Reachable s)
    (hm : Marks s θ i p) (hw : ∀ θ', p ∉ (s.thread θ').store.keys)
    (hu : ∀ a ∈ as, a ≠ .call θ (.UnMarkHazard (some i)))
    (hr : (system Θ P F).exec s as = some s') :
    ∃ d, s'.deleted = d ++ s.deleted ∧ ∀ c ∈ d, c.2.1 ≠ p := by
  obtain ⟨l, hl, hslots⟩ := reachable_slots h
  obtain ⟨r, hr'⟩ := marks_iff.mp hm
  exact Covered.exec (fun θ' hk => absurd hk (hw θ')) hl hslots hr' hu hr

/-- Another thread is handed the pointer that is marked, and passes over the list. -/
def retiring : List (Action Bool Nat Unit) :=
  [.call true (.ReclaimLater 7 ()), .call true .ReclaimNoHazardPointer, .run true true,
    .run true true, .run true true, .visit true 7, .run true true]

theorem marked_not_deleted_retiring :
    ∃ s, (system Bool Nat Unit).exec marked retiring = some s ∧
      ∃ d, s.deleted = d ++ marked.deleted ∧ ∀ c ∈ d, c.2.1 ≠ 7 := by
  have hr : (system Bool Nat Unit).exec marked retiring = some _ := rfl
  exact ⟨_, hr, marked_not_deleted marked_reachable marked_marks (by decide) (by decide) hr⟩

end

end LimWebserver.Hazard
