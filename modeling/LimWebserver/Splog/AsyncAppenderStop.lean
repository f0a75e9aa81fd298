import LimWebserver.Splog.AsyncAppender

namespace LimWebserver.AsyncAppender

open LimWebserver.Lib

/-!
# Splog — `AsyncAppender::stop()` and the last lines

`stop()` clears `m_started`, submits the current buffer under the lock and joins the back end, whose
loop ends at a test that reads `m_started` as false and `buffer_vec` as empty.

* `HandedOver` — what `stop()` promises when it returns;
* `stop_loses_line` — a test between the write of `m_started` and the locked section ends the loop,
  and what the current buffer holds is never written;
* `Submitted` — the tests that end the loop too early do not occur;
* `handedOver_iff_submitted` — a run of `stop()` keeps the promise exactly then.
-/

variable {Θ : Type*}

/-- The lines appended before the call of `stop()` have been taken over by the back end. -/
def Covered (s : State Θ) : Prop := bytes s.early <+: s.swapped.flatten.flatten

instance (s : State Θ) : Decidable (Covered s) :=
  inferInstanceAs (Decidable (bytes s.early <+: s.swapped.flatten.flatten))

/-- **What `stop()` promises**: the lines appended before its call have been taken over, and what
    has been taken over has been handed to `m_appender`, without what a long swap discards. -/
structure HandedOver (s : State Θ) : Prop where
  covered : Covered s
  handed : s.handed = (s.swapped.map keep).flatten.flatten

/-- A test that ends the loop does not stand between `m_started = false` and the locked section of
    `stop()`, or it finds the lines appended before `stop()` taken over. -/
def Submitted (s : State Θ) : Action Θ → Prop
  | .back => s.back = .test ∧ s.m_started = false ∧ s.m_buffer.buffer_vec = [] ∧
      s.stop = .submit → Covered s
  | _ => True

instance (s : State Θ) : ∀ a, Decidable (Submitted s a)
  | .back => inferInstanceAs (Decidable (_ → _))
  | .call _ _ => .isTrue trivial
  | .append _ => .isTrue trivial
  | .stop => .isTrue trivial

/-- What the back end has taken over or will take over before the current buffer. -/
def State.submitted (s : State Θ) : Bytes :=
  s.swapped.flatten.flatten ++ s.heap.contents s.m_buffer.buffer_vec

/-- Where `stop()` and the back end are, and what has been submitted by then. -/
structure StopInv (s : State Θ) : Prop extends Inv s where
  called : s.stop ≠ .notCalled → s.early <+: s.accepted
  cleared : s.m_started = false → s.stop = .submit ∨ s.stop = .join ∨ s.stop = .returned
  joined : s.stop = .join ∨ s.stop = .returned → bytes s.early <+: s.submitted
  exited : s.back = .exited → s.m_started = false
  returned : s.stop = .returned → s.back = .exited

/-! ### What a step changes -/

section Frame

variable {s s' : State Θ} {b : Nat}

/-- The steps of a producer: all but the buffers of the front stays as it is. -/
structure FrontStep (s s' : State Θ) : Prop where
  m_started : s'.m_started = s.m_started
  stop : s'.stop = s.stop
  back : s'.back = s.back
  early : s'.early = s.early
  swapped : s'.swapped = s.swapped
  submitted : s.submitted <+: s'.submitted

theorem submitBuffer_front (h : Inv s) : FrontStep s s.submitBuffer := by
  obtain ⟨b, hb⟩ := Option.isSome_iff_exists.mp h.front
  cases hc : s.m_buffer.buffer2 with
  | some c =>
    rw [submitBuffer_spare hb hc]
    refine ⟨rfl, rfl, rfl, rfl, rfl, ?_⟩
    show _ ++ _ <+: _ ++ s.heap.contents (s.m_buffer.buffer_vec ++ [b])
    rw [contents_append, ← List.append_assoc]
    exact List.prefix_append _ _
  | none =>
    have hvec : s.fresh ∉ s.m_buffer.buffer_vec := fun hmem =>
      absurd (h.fresh _ (List.mem_append_left _ (List.mem_append_right _ hmem))) (Nat.lt_irrefl _)
    rw [submitBuffer_new hb hc]
    refine ⟨rfl, rfl, rfl, rfl, rfl, ?_⟩
    show _ ++ _ <+: _ ++ Heap.contents (Function.update s.heap s.fresh [])
      (s.m_buffer.buffer_vec ++ [b])
    rw [contents_append, contents_update hvec, ← List.append_assoc]
    exact List.prefix_append _ _

theorem write_front (h : Inv s) (line : Bytes) : FrontStep s (s.write line) := by
  obtain ⟨b, hb⟩ := Option.isSome_iff_exists.mp h.front
  have hs : s.write line = { s with heap := s.heap.append b line } := by
    simp only [State.write, hb]
  rw [hs]
  refine ⟨rfl, rfl, rfl, rfl, rfl, ?_⟩
  -- the current buffer is not among the full ones
  have hvec : (s.heap.append b line).contents s.m_buffer.buffer_vec =
      s.heap.contents s.m_buffer.buffer_vec := by
    unfold Heap.append
    split
    · exact contents_update (h.front_ne hb).2.1 _
    · rfl
  show _ <+: _ ++ _
  rw [hvec]
  exact List.prefix_rfl

theorem append_front (h : Inv s) (line : Bytes) : FrontStep s (s.append line) := by
  obtain ⟨b, hb⟩ := Option.isSome_iff_exists.mp h.front
  by_cases hroom : line.length < s.heap.avail b
  · have hs : s.append line = s.write line := by simp only [State.append, hb, if_pos hroom]
    rw [hs]
    exact write_front h line
  · have hs : s.append line = s.submitBuffer.write line := by
      simp only [State.append, hb, if_neg hroom]
    have h1 := submitBuffer_front h
    have h2 := write_front h.submitBuffer.1 line
    rw [hs]
    exact ⟨h2.m_started.trans h1.m_started, h2.stop.trans h1.stop, h2.back.trans h1.back,
      h2.early.trans h1.early, h2.swapped.trans h1.swapped, h1.submitted.trans h2.submitted⟩

/-- The steps of the back end. -/
structure BackStep (s s' : State Θ) : Prop where
  m_started : s'.m_started = s.m_started
  stop : s'.stop = s.stop
  early : s'.early = s.early
  accepted : s'.accepted = s.accepted
  swapped : s.swapped.flatten.flatten <+: s'.swapped.flatten.flatten
  submitted : s.submitted <+: s'.submitted
  running : s.back ≠ .exited
  exited : s'.back = .exited → s.back = .test ∧ s.m_started = false ∧
    s.m_buffer.buffer_vec = [] ∧ s'.swapped = s.swapped

theorem swapBuffers_back (h : Inv s) (hrun : s.back ≠ .exited) : BackStep s s.swapBuffers := by
  obtain ⟨b, hb⟩ := Option.isSome_iff_exists.mp h.front
  have hs : s.swapBuffers.swapped = s.swapped ++ [(s.m_buffer.buffer_vec ++ [b]).map s.heap] := by
    simp only [State.swapBuffers, hb]
  have hswapped : s.swapBuffers.swapped.flatten.flatten = s.submitted ++ s.heap b := by
    rw [hs]
    simp [State.submitted, Heap.contents]
  -- the swap takes the full buffers and the current one behind them
  have hprefix : s.submitted <+: s.swapBuffers.swapped.flatten.flatten := by
    rw [hswapped]
    exact List.prefix_append _ _
  refine ⟨?_, ?_, ?_, ?_, (List.prefix_append _ _).trans hprefix,
    hprefix.trans (List.prefix_append _ _), hrun, fun hback => ?_⟩
  · simp only [State.swapBuffers, hb]
  · simp only [State.swapBuffers, hb]
  · simp only [State.swapBuffers, hb]
  · simp only [State.swapBuffers, hb]
  · simp only [State.swapBuffers, hb] at hback
    exact absurd hback (by simp)

theorem backStep_back (h : Inv s) (hs : backStep s = some s') : BackStep s s' := by
  have hfailed := (h.backStep hs).failed
  unfold backStep at hs
  cases hback : s.back with
  | test =>
    have hrun : s.back ≠ .exited := by rw [hback]; simp
    simp only [hback] at hs
    split at hs
    · split at hs
      · obtain rfl := Option.some.inj hs
        exact ⟨rfl, rfl, rfl, rfl, List.prefix_rfl, List.prefix_rfl, hrun, by simp⟩
      · obtain rfl := Option.some.inj hs
        exact absurd hfailed (by simp)
    · rename_i htest
      obtain rfl := Option.some.inj hs
      simp only [Bool.or_eq_true, Bool.not_eq_true', not_or, Bool.not_eq_true, Bool.not_eq_false,
        List.isEmpty_iff] at htest
      exact ⟨rfl, rfl, rfl, rfl, List.prefix_rfl, List.prefix_rfl, hrun, fun _ =>
        ⟨hback, htest.1, htest.2, rfl⟩⟩
  | lock =>
    have hrun : s.back ≠ .exited := by rw [hback]; simp
    simp only [hback] at hs
    split at hs
    · obtain rfl := Option.some.inj hs
      exact ⟨rfl, rfl, rfl, rfl, List.prefix_rfl, List.prefix_rfl, hrun, by simp⟩
    · obtain rfl := Option.some.inj hs
      exact swapBuffers_back h hrun
  | waiting =>
    simp only [hback] at hs
    obtain rfl := Option.some.inj hs
    exact swapBuffers_back h (by rw [hback]; simp)
  | write i =>
    have hrun : s.back ≠ .exited := by rw [hback]; simp
    simp only [hback] at hs
    cases hget : s.newBuffer.buffer_vec[i]? with
    | some b =>
      simp only [hget] at hs
      obtain rfl := Option.some.inj hs
      exact ⟨rfl, rfl, rfl, rfl, List.prefix_rfl, List.prefix_rfl, hrun, by simp⟩
    | none =>
      -- `reset` empties buffers of the back only
      obtain ⟨d, heap, hreset, -, hfront⟩ := h.reset hback hget
      simp only [hget, hreset] at hs
      obtain rfl := Option.some.inj hs
      refine ⟨rfl, rfl, rfl, rfl, List.prefix_rfl, ?_, hrun, by simp⟩
      show _ <+: _ ++ heap.contents s.m_buffer.buffer_vec
      rw [contents_congr fun a ha => hfront a (List.mem_append_right _ ha)]
      exact List.prefix_rfl
  | exited =>
    simp only [hback] at hs
    exact absurd hs (by simp)

end Frame

/-! ### Where `stop()` is -/

section Stop

variable {s s' : State Θ}

/-- `stop()` has been called when `m_started` is false. -/
theorem StopInv.called_of_cleared (h : StopInv s) (hm : s.m_started = false) :
    s.stop ≠ .notCalled := by
  intro hstop
  rcases h.cleared hm with heq | heq | heq <;> rw [heq] at hstop <;> exact absurd hstop (by simp)

/-- A step of a producer. -/
theorem StopInv.ofFront (h : StopInv s) (hinv : Inv s') (hf : FrontStep s s')
    (haccepted : s.accepted <+: s'.accepted) : StopInv s' where
  toInv := hinv
  called hstop := by
    rw [hf.early]
    rw [hf.stop] at hstop
    exact (h.called hstop).trans haccepted
  cleared hm := by
    rw [hf.stop]
    exact h.cleared (hf.m_started ▸ hm)
  joined hstop := by
    rw [hf.stop] at hstop
    rw [hf.early]
    exact (h.joined hstop).trans hf.submitted
  exited hback := by
    rw [hf.m_started]
    exact h.exited (hf.back ▸ hback)
  returned hstop := by
    rw [hf.back]
    exact h.returned (hf.stop ▸ hstop)

/-- A step of the back end. -/
theorem StopInv.ofBack (h : StopInv s) (hinv : Inv s') (hb : BackStep s s') : StopInv s' where
  toInv := hinv
  called hstop := by
    rw [hb.early, hb.accepted]
    exact h.called (hb.stop ▸ hstop)
  cleared hm := by
    rw [hb.stop]
    exact h.cleared (hb.m_started ▸ hm)
  joined hstop := by
    rw [hb.stop] at hstop
    rw [hb.early]
    exact (h.joined hstop).trans hb.submitted
  exited hback := by
    rw [hb.m_started]
    exact (hb.exited hback).2.1
  returned hstop := absurd (h.returned (hb.stop ▸ hstop)) hb.running

/-- After the locked section of `stop()` all lines appended before it are submitted. -/
theorem StopInv.submit (h : StopInv s) (hstop : s.stop = .submit) :
    bytes s.early <+: s.submitBuffer.submitted := by
  obtain ⟨hinv, c, hc, hempty⟩ := h.toInv.submitBuffer
  have haccepted := hinv.accepted
  -- the new current buffer is empty
  rw [hc, Option.toList_some, contents_cons, hempty, contents_nil, List.append_nil,
    List.append_nil] at haccepted
  have hsame : s.submitBuffer.accepted = s.accepted := by
    unfold State.submitBuffer
    split
    · rfl
    · split <;> rfl
  rw [hsame] at haccepted
  obtain ⟨rest, hrest⟩ := h.called (by rw [hstop]; simp)
  refine ⟨bytes rest, ?_⟩
  rw [State.submitted, ← haccepted, ← hrest, bytes, bytes, bytes, List.map_append,
    List.flatten_append]

/-- A step of `stop()`. -/
theorem StopInv.ofStop (h : StopInv s) (hs : stopStep s = some s') :
    StopInv s' ∧ s'.swapped = s.swapped ∧ s'.back = s.back ∧
      (s.stop ≠ .notCalled → s'.early = s.early) := by
  have hinv := h.toInv.stopStep hs
  have hf := submitBuffer_front h.toInv
  unfold stopStep at hs
  cases hstop : s.stop with
  | notCalled =>
    simp only [hstop] at hs
    obtain rfl := Option.some.inj hs
    refine ⟨⟨hinv, fun _ => List.prefix_rfl, fun hm => ?_, fun hj => ?_, h.exited, by simp⟩,
      rfl, rfl, fun hne => absurd rfl hne⟩
    · exact absurd hstop (h.called_of_cleared hm)
    · exact hj.elim (by simp) (by simp)
  | test =>
    simp only [hstop] at hs
    have hm : s.m_started = true := by
      by_contra hm
      have hcl := h.cleared (Bool.eq_false_iff.mpr hm)
      rw [hstop] at hcl
      exact hcl.elim (by simp) (Or.rec (by simp) (by simp))
    simp only [hm, if_true] at hs
    have hs' : s' = { s with stop := .clear } := by rw [← Option.some.inj hs, hm]
    subst hs'
    refine ⟨⟨hinv, fun _ => h.called (by rw [hstop]; simp), fun hm' => ?_, fun hj => ?_,
      h.exited, by simp⟩, rfl, rfl, fun _ => rfl⟩
    · exact absurd (hm.symm.trans hm') (by simp)
    · exact hj.elim (by simp) (by simp)
  | clear =>
    simp only [hstop] at hs
    obtain rfl := Option.some.inj hs
    exact ⟨⟨hinv, fun _ => h.called (by rw [hstop]; simp), fun _ => .inl rfl,
      fun hj => hj.elim (by simp) (by simp), fun _ => rfl, by simp⟩, rfl, rfl, fun _ => rfl⟩
  | submit =>
    simp only [hstop] at hs
    obtain rfl := Option.some.inj hs
    have hsub := h.submit hstop
    refine ⟨⟨hinv, fun _ => ?_, fun _ => .inr (.inl rfl), fun _ => ?_, fun hback => ?_, by simp⟩,
      hf.swapped, hf.back, fun _ => hf.early⟩
    · show s.submitBuffer.early <+: s.submitBuffer.accepted
      rw [hf.early, submitBuffer_accepted]
      exact h.called (by rw [hstop]; simp)
    · show bytes s.submitBuffer.early <+: s.submitBuffer.submitted
      rw [hf.early]
      exact hsub
    · show s.submitBuffer.m_started = false
      rw [hf.m_started]
      exact h.exited (hf.back ▸ hback)
  | join =>
    simp only [hstop] at hs
    split at hs
    · rename_i hexit
      obtain rfl := Option.some.inj hs
      exact ⟨⟨hinv, fun _ => h.called (by rw [hstop]; simp), fun _ => .inr (.inr rfl),
        fun _ => h.joined (.inl hstop), h.exited, fun _ => hexit⟩, rfl, rfl, fun _ => rfl⟩
    · exact absurd hs (by simp)
  | returned =>
    simp only [hstop] at hs
    exact absurd hs (by simp)

theorem stopInv_initial : StopInv (initial : State Θ) where
  toInv := inv_initial
  called := fun h => absurd rfl h
  cleared := by rintro ⟨⟩
  joined := fun h => h.elim (by rintro ⟨⟩) (by rintro ⟨⟩)
  exited := by rintro ⟨⟩
  returned := by rintro ⟨⟩

variable [DecidableEq Θ]

/-- **Step lemma.** What `stop()` relies on, and what a step does to the lines taken over: the back
    end takes over more, and it exits at a test that finds nothing. -/
theorem stopInv_step {a : Action Θ} (h : StopInv s) (hs : step s a = some s') :
    StopInv s' ∧ s.swapped.flatten.flatten <+: s'.swapped.flatten.flatten ∧
      (s.stop ≠ .notCalled → s'.early = s.early) ∧
      (s'.back = .exited → s.back = .exited ∨ a = .back ∧ BackStep s s') := by
  have hinv := inv_step h.toInv hs
  cases a with
  | call θ line =>
    have hs' : ∃ producer, s' = { s with producer := producer } := by
      simp only [step] at hs
      split at hs
      · split at hs
        · exact ⟨_, (Option.some.inj hs).symm⟩
        · exact ⟨s.producer, (Option.some.inj hs).symm⟩
      · exact absurd hs (by simp)
    obtain ⟨producer, rfl⟩ := hs'
    exact ⟨h.ofFront hinv ⟨rfl, rfl, rfl, rfl, rfl, List.prefix_rfl⟩ List.prefix_rfl,
      List.prefix_rfl, fun _ => rfl, .inl⟩
  | append θ =>
    simp only [step] at hs
    split at hs
    · exact absurd hs (by simp)
    · rename_i line _
      obtain rfl := Option.some.inj hs
      have hf := append_front h.toInv line.1
      refine ⟨h.ofFront hinv ⟨hf.m_started, hf.stop, hf.back, hf.early, hf.swapped, hf.submitted⟩
        (List.prefix_append _ _), ?_, fun _ => hf.early, fun hback => .inl (hf.back ▸ hback)⟩
      have hsame : (s.append line.1).swapped.flatten.flatten = s.swapped.flatten.flatten := by
        rw [hf.swapped]
      exact hsame ▸ List.prefix_rfl
  | back =>
    have hb := backStep_back h.toInv hs
    exact ⟨h.ofBack hinv hb, hb.swapped, fun _ => hb.early, fun _ => .inr ⟨rfl, hb⟩⟩
  | stop =>
    obtain ⟨hstop, hswapped, hback, hearly⟩ := h.ofStop hs
    rw [hswapped]
    exact ⟨hstop, List.prefix_rfl, hearly, fun h' => .inl (hback ▸ h')⟩

end Stop

/-! ### Exactly the runs that keep the promise -/

section Runs

variable [DecidableEq Θ] {s s' : State Θ}

/-- Once the back end has exited, what it has not taken over is lost. -/
theorem covered_of_exited {a : Action Θ} (h : StopInv s) (hs : step s a = some s')
    (hback : s.back = .exited) : s'.back = .exited ∧ (Covered s' ↔ Covered s) := by
  have hcalled := h.called_of_cleared (h.exited hback)
  cases a with
  | call θ line =>
    simp only [step] at hs
    split at hs
    · split at hs
      · obtain rfl := Option.some.inj hs
        exact ⟨hback, Iff.rfl⟩
      · obtain rfl := Option.some.inj hs
        exact ⟨hback, Iff.rfl⟩
    · exact absurd hs (by simp)
  | append θ =>
    simp only [step] at hs
    split at hs
    · exact absurd hs (by simp)
    · rename_i line _
      obtain rfl := Option.some.inj hs
      have hf := append_front h.toInv line.1
      refine ⟨hf.back.trans hback, ?_⟩
      show bytes (s.append line.1).early <+: (s.append line.1).swapped.flatten.flatten ↔ _
      rw [hf.early, hf.swapped]
      exact Iff.rfl
  | back => exact absurd hback (backStep_back h.toInv hs).running
  | stop =>
    obtain ⟨-, hswapped, hback', hearly⟩ := h.ofStop hs
    refine ⟨hback'.trans hback, ?_⟩
    rw [Covered, Covered, hswapped, hearly hcalled]

/-- A step with which the back end exits leaves the early lines covered exactly when it meets the
    condition. -/
theorem covered_exit (h : StopInv s) (hs : step s .back = some s') (hback : s'.back = .exited) :
    Covered s' ↔ Submitted s .back := by
  have hb := backStep_back h.toInv hs
  obtain ⟨htest, hm, hvec, hswapped⟩ := hb.exited hback
  have hcov : Covered s' ↔ Covered s := by rw [Covered, Covered, hb.early, hswapped]
  rw [hcov]
  refine ⟨fun hc _ => hc, fun hsub => ?_⟩
  by_cases hstop : s.stop = .submit
  · exact hsub ⟨htest, hm, hvec, hstop⟩
  · -- the locked section is over, and what it submitted has been taken over
    have hjoined := h.joined ((h.cleared hm).resolve_left hstop)
    rw [State.submitted, hvec, contents_nil, List.append_nil] at hjoined
    exact hjoined

/-- **Exactly when the tail of the log survives.** A run at whose end `stop()` has returned has
    handed over every line appended before the call, without what a long swap discards, if and only
    if no test ended the loop between `m_started = false` and the locked section of `stop()` while
    such a line was still in the front. -/
theorem handedOver_iff_submitted {as : List (Action Θ)}
    (he : (system Θ).exec initial as = some s) (hret : s.stop = .returned) :
    HandedOver s ↔ (system Θ).Guarded Submitted initial as := by
  have hI : StopInv s := LTS.exec_stable (T := system Θ) (P := StopInv)
    (fun s a s' h hs => (stopInv_step h hs).1) stopInv_initial he
  have hexit := hI.returned hret
  have hunwritten : s.unwritten = [] := unwritten_nil fun i => by rw [hexit]; simp
  have hsafe : HandedOver s ↔ (s.back = .exited → Covered s) := by
    refine ⟨fun h _ => h.covered, fun h => ⟨h hexit, ?_⟩⟩
    have hhanded := hI.handed
    rw [hunwritten, contents_nil, List.append_nil] at hhanded
    exact hhanded.symm
  rw [hsafe]
  refine LTS.safe_iff_guarded (T := system Θ)
    (I := fun s => StopInv s ∧ (s.back = .exited → Covered s))
    (S := fun s => s.back = .exited → Covered s)
    (B := fun s => StopInv s ∧ s.back = .exited ∧ ¬ Covered s)
    (fun s h => h.2) (fun s h hc => h.2.2 (hc h.2.1)) ?_ ?_ ?_ ⟨stopInv_initial, by rintro ⟨⟩⟩ he
  · intro s a s' ⟨h, hc⟩ hg (hs : step s a = some s')
    refine ⟨(stopInv_step h hs).1, fun hback => ?_⟩
    rcases (stopInv_step h hs).2.2.2 hback with hb | ⟨rfl, -⟩
    · exact (covered_of_exited h hs hb).2.mpr (hc hb)
    · exact (covered_exit h hs hback).mpr hg
  · intro s a s' ⟨h, hc⟩ hg (hs : step s a = some s')
    cases a with
    | back =>
      have hcond : s.back = .test ∧ s.m_started = false ∧ s.m_buffer.buffer_vec = [] ∧
          s.stop = .submit := by
        by_contra hn
        exact hg fun hyes => absurd hyes hn
      obtain ⟨htest, hm, hvec, -⟩ := hcond
      have hback : s'.back = .exited := by
        have hs' : backStep s = some s' := hs
        simp only [backStep, htest, hm, hvec, List.isEmpty_nil, Bool.not_true, Bool.or_self,
          Bool.false_eq_true, if_false] at hs'
        rw [← Option.some.inj hs']
      exact ⟨(stopInv_step h hs).1, hback, fun hc' => hg ((covered_exit h hs hback).mp hc')⟩
    | _ => exact absurd trivial hg
  · intro s a s' ⟨h, hb, hc⟩ (hs : step s a = some s')
    obtain ⟨hb', hiff⟩ := covered_of_exited h hs hb
    exact ⟨(stopInv_step h hs).1, hb', fun hc' => hc (hiff.mp hc')⟩

end Runs

/-- A line of one byte fits into a `Buffer`. -/
theorem byte_fits : ([97] : Bytes).length ≤ kSmallBuffer := by decide

/-- The back end swaps and writes once, a line is appended, `stop()` clears `m_started`, and the
    loop ends before the locked section. -/
def earlyExit : List (Action Unit) :=
  [.back, .back, .back, .back, .back, .call () ⟨[97], byte_fits⟩, .append (), .stop, .stop, .stop,
    .back, .stop, .stop]

/-- **The last line is lost**: `stop()` has returned, and nothing was ever handed over. -/
theorem stop_loses_line : ∃ s : State Unit, (system Unit).exec initial earlyExit = some s ∧
    s.stop = .returned ∧ s.handed = [] ∧ ¬ HandedOver s := by
  obtain ⟨s, hs, hstop, hhanded, hcov⟩ : ∃ s : State Unit,
      (system Unit).exec initial earlyExit = some s ∧ s.stop = .returned ∧ s.handed = [] ∧
        ¬ Covered s := ⟨_, rfl, rfl, rfl, by decide⟩
  exact ⟨s, hs, hstop, hhanded, fun h => hcov h.covered⟩

/-- A line is appended, `stop()` submits it, and the back end swaps, writes and exits. -/
def lateExit : List (Action Unit) :=
  [.call () ⟨[97], byte_fits⟩, .append (), .stop, .stop, .stop, .stop, .back, .back, .back, .back,
    .back, .back, .stop]

theorem handedOver_iff_submitted_lateExit : ∃ s : State Unit,
    (system Unit).exec initial lateExit = some s ∧ s.stop = .returned ∧ s.handed = [97] ∧
      HandedOver s := by
  obtain ⟨s, hs, hstop, hhanded⟩ : ∃ s : State Unit,
      (system Unit).exec initial lateExit = some s ∧ s.stop = .returned ∧ s.handed = [97] :=
    ⟨_, rfl, rfl, rfl⟩
  refine ⟨s, hs, hstop, hhanded, (handedOver_iff_submitted hs hstop).mpr ?_⟩
  decide

end LimWebserver.AsyncAppender
