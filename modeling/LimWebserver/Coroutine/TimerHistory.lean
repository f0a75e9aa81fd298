import LimWebserver.Coroutine.TimerCalls

namespace LimWebserver.TimerManager

open LimWebserver.Lib

/-!
# Coroutine — histories of calls on timers

* `listExpiredCallback_eq` — on a set in order, the loop takes the timers that are due, and leaves
  the others;
* `Settled` — what holds between two calls; `reachable_settled`;
* `Kept`, `Collects` — what the set is then, and what `listExpiredCallback` returns and leaves;
  `history_collects` — after every history;
* `Honest`, `Reset` — what the results of `cancel`, `refresh` and `reset` say;
  `reset_returns_true` — a timer that is not scheduled; `history_honest_iff` — exactly when they
  are right.
-/

variable {Θ κ : Type*} {s s' : State Θ κ} {t u : Nat} {now : UInt64}

/-! ### The timers that are due -/

section
variable {α : Type*} {p : α → Bool}

theorem take_of_append {l l₁ l₂ : List α} (h : l = l₁ ++ l₂) :
    l.take (l.length - l₂.length) = l₁ := by
  rw [h, List.length_append, Nat.add_sub_cancel, List.take_left]

/-- A property that is inherited downwards picks a prefix of a list in order. -/
theorem filter_eq_takeWhile : ∀ {l : List α}, l.Pairwise (fun a b => p b → p a) →
    l.filter p = l.takeWhile p
  | [], _ => rfl
  | a :: l, h => by
    obtain ⟨ha, hl⟩ := List.pairwise_cons.mp h
    cases hp : p a with
    | true => rw [List.filter_cons_of_pos hp, List.takeWhile_cons_of_pos hp, filter_eq_takeWhile hl]
    | false =>
      have hnil : l.filter p = [] := by
        rw [List.filter_eq_nil_iff]
        intro b hb hpb
        rw [ha b hb hpb] at hp
        cases hp
      rw [List.filter_cons_of_neg (by simp [hp]), List.takeWhile_cons_of_neg (by simp [hp]), hnil]

/-- The rest is the rest. -/
theorem filter_not_eq_dropWhile : ∀ {l : List α}, l.Pairwise (fun a b => p b → p a) →
    l.filter (fun a => !p a) = l.dropWhile p
  | [], _ => rfl
  | a :: l, h => by
    obtain ⟨ha, hl⟩ := List.pairwise_cons.mp h
    cases hp : p a with
    | true =>
      rw [List.filter_cons_of_neg (by simp [hp]), List.dropWhile_cons_of_pos hp,
        filter_not_eq_dropWhile hl]
    | false =>
      rw [List.dropWhile_cons_of_neg (by simp [hp]), List.filter_eq_self]
      intro b hb
      rcases List.mem_cons.mp hb with rfl | hb
      · simp [hp]
      · rw [Bool.not_eq_true', Bool.eq_false_iff]
        intro hpb
        rw [ha b hb hpb] at hp
        cases hp

end

/-- The timer has expired, or the clock has been set back. -/
def State.due (s : State Θ κ) (now : UInt64) (t : Nat) : Bool :=
  s.detectClockRollover now || decide ((s.timer t).m_next ≤ now)

/-- Timers earlier in the set have expired earlier. -/
theorem Ordered.downward (h : Ordered s) (now : UInt64) :
    s.m_timer_set.Pairwise fun u v => decide ((s.timer v).m_next ≤ now) →
      decide ((s.timer u).m_next ≤ now) := by
  apply h.ordered.imp
  intro u v huv
  simp only [State.before, State.key, comparator, UInt64.lt_iff_toNat_lt, ← UInt64.toNat_inj,
    decide_eq_true_eq, UInt64.le_iff_toNat_le] at huv ⊢
  omega

/-- `lower_bound` and the loop after it stop at the first timer that has not expired, wherever the
    probe timer has been built. -/
theorem unexpired_eq (h : Ordered s) (now : UInt64) (probe : Nat) :
    s.unexpired now probe = s.m_timer_set.filter fun t => !decide ((s.timer t).m_next ≤ now) := by
  have hbound : s.m_timer_set.Pairwise fun u v =>
      decide (comparator (s.key v) (now, probe)) → decide (comparator (s.key u) (now, probe)) := by
    apply h.ordered.imp
    intro u v huv
    simp only [State.before, State.key, comparator, UInt64.lt_iff_toNat_lt, ← UInt64.toNat_inj,
      decide_eq_true_eq] at huv ⊢
    omega
  rw [State.unexpired, ← filter_not_eq_dropWhile hbound, ← filter_not_eq_dropWhile,
    List.filter_filter]
  · apply List.filter_congr
    intro t _
    simp only [State.key, comparator, UInt64.lt_iff_toNat_lt, ← UInt64.toNat_inj,
      UInt64.le_iff_toNat_le, ← decide_not, ← Bool.decide_and, decide_eq_decide]
    omega
  · -- from `lower_bound` on no timer is before `now`
    apply (h.ordered.filter _).imp_of_mem
    intro u v hu hv huv
    have hu' := (List.mem_filter.mp hu).2
    simp only [State.before, State.key, comparator, UInt64.lt_iff_toNat_lt, ← UInt64.toNat_inj,
      decide_eq_true_eq, Bool.not_eq_true', decide_eq_false_iff_not] at hu' huv ⊢
    omega

/-- **The expired timers.** `listExpiredCallback` collects the timers that are due, in the order of
    the set, and leaves the others. -/
theorem listExpiredCallback_eq (h : Ordered s) (hne : s.m_timer_set ≠ []) (now : UInt64)
    (probe : Nat) :
    s.listExpiredCallback now probe =
      (s.m_timer_set.filter (s.due now)).foldl (State.expire now)
        { s with m_timer_set := s.m_timer_set.filter fun t => !s.due now t
                 m_previousTime := now } := by
  obtain ⟨b, l, hset⟩ := List.exists_cons_of_ne_nil hne
  cases hroll : s.detectClockRollover now with
  | true =>
    have hdue : s.due now = fun _ => true := by
      funext t
      simp [State.due, hroll]
    simp [State.listExpiredCallback, hset, hroll, hdue]
  | false =>
    have hdue : s.due now = fun t => decide ((s.timer t).m_next ≤ now) := by
      funext t
      simp [State.due, hroll]
    have hdown := h.downward now
    by_cases hlt : now < (s.timer b).m_next
    · -- the first timer has not expired, and so none has
      have hb : ¬ (s.timer b).m_next ≤ now := by
        rw [UInt64.le_iff_toNat_le]
        rw [UInt64.lt_iff_toNat_lt] at hlt
        omega
      rw [hdue, filter_eq_takeWhile hdown, filter_not_eq_dropWhile hdown]
      simp [State.listExpiredCallback, hset, hroll, hlt, hb]
    · have hrest : s.unexpired now probe = s.m_timer_set.filter fun t => !s.due now t := by
        rw [unexpired_eq h, hdue]
      have htake : s.m_timer_set.take (s.m_timer_set.length - (s.unexpired now probe).length) =
          s.m_timer_set.filter (s.due now) := by
        rw [hrest, hdue, filter_not_eq_dropWhile hdown, filter_eq_takeWhile hdown]
        exact take_of_append List.takeWhile_append_dropWhile.symm
      rw [← htake, ← hrest]
      simp [State.listExpiredCallback, hset, hroll, hlt]

/-- What one round of the loop makes of its timer. -/
def Timer.expired (x : Timer κ) (now : UInt64) : Timer κ :=
  if x.m_recurring then { x with m_next := now + x.m_ms } else { x with m_callback := none }

theorem expire_timer (now : UInt64) (s : State Θ κ) (t : Nat) :
    (s.expire now t).timer = Function.update s.timer t ((s.timer t).expired now) := by
  by_cases hr : (s.timer t).m_recurring = true
  · simp only [State.expire, Timer.expired, if_pos hr, insert_timer]
    rfl
  · simp only [State.expire, Timer.expired, if_neg hr]
    rfl

theorem foldl_expire_timer (now : UInt64) (u : Nat) : ∀ (ts : List Nat) (s : State Θ κ), ts.Nodup →
    (ts.foldl (State.expire now) s).timer u =
      if u ∈ ts then (s.timer u).expired now else s.timer u
  | [], _, _ => by simp
  | t :: ts, s, h => by
    obtain ⟨ht, hts⟩ := List.nodup_cons.mp h
    rw [List.foldl_cons, foldl_expire_timer now u ts _ hts, expire_timer]
    rcases eq_or_ne u t with rfl | hne
    · simp [ht]
    · simp [hne]

theorem insert_previous : (s.insert t).m_previousTime = s.m_previousTime := by rw [insert_eq]

theorem foldl_expire_previous (now : UInt64) : ∀ (ts : List Nat) (s : State Θ κ),
    (ts.foldl (State.expire now) s).m_previousTime = s.m_previousTime
  | [], _ => rfl
  | t :: ts, s => by
    rw [List.foldl_cons, foldl_expire_previous now ts]
    by_cases hr : (s.timer t).m_recurring = true
    · simp only [State.expire, if_pos hr, insert_previous]
      rfl
    · simp only [State.expire, if_neg hr]
      rfl

/-! ### Between two calls -/

/-- What holds between two calls. -/
structure Settled (s : State Θ κ) : Prop where
  set : Ordered s
  built : ∀ t ∈ s.m_timer_set, s.built t = true
  /-- a timer that has its callback is in the set -/
  mem : ∀ t, (s.timer t).m_callback.isSome → t ∈ s.m_timer_set

theorem settled_initial : Settled (initial : State Θ κ) :=
  ⟨⟨List.nodup_nil, List.Pairwise.nil⟩, by simp [initial], by simp [initial]⟩

/-- Take a timer out of the set, without its callback. -/
def State.remove (s : State Θ κ) (t : Nat) : State Θ κ :=
  { s with timer := Function.update s.timer t { s.timer t with m_callback := none }
           m_timer_set := s.m_timer_set.erase t }

/-- Take a timer out of the set, change it and put it back. -/
def State.reinsert (s : State Θ κ) (t : Nat) (x : Timer κ) : State Θ κ :=
  ((s.erase t).setTimer t x).insert t

theorem reinsert_timer (s : State Θ κ) (t : Nat) (x : Timer κ) :
    (s.reinsert t x).timer = Function.update s.timer t x := by
  rw [State.reinsert, insert_timer, erase_eq]
  rfl

theorem reinsert_built (s : State Θ κ) (t : Nat) (x : Timer κ) :
    (s.reinsert t x).built = s.built := by
  rw [State.reinsert, insert_built, erase_eq]
  rfl

theorem reinsert_previous (s : State Θ κ) (t : Nat) (x : Timer κ) :
    (s.reinsert t x).m_previousTime = s.m_previousTime := by
  rw [State.reinsert, insert_previous, erase_eq]
  rfl

/-- The set has the same timers then. -/
theorem mem_reinsert (h : Ordered s) (ht : t ∈ s.m_timer_set) (x : Timer κ) :
    u ∈ (s.reinsert t x).m_timer_set ↔ u ∈ s.m_timer_set := by
  rw [State.reinsert, mem_insert, erase_of_mem ht]
  show u = t ∨ u ∈ s.m_timer_set.erase t ↔ _
  rw [h.nodup.mem_erase_iff]
  refine ⟨fun hu => hu.elim (fun hu => hu ▸ ht) And.right, fun hu => ?_⟩
  exact (eq_or_ne u t).imp_right fun hne => ⟨hne, hu⟩

/-- And it is in order again. -/
theorem Ordered.reinsert (h : Ordered s) (ht : t ∈ s.m_timer_set) (x : Timer κ) :
    Ordered (s.reinsert t x) := by
  have hout : t ∉ (s.erase t).m_timer_set := by
    rw [erase_of_mem ht]
    exact h.nodup.not_mem_erase
  have herase : Ordered (s.erase t) := by
    rw [erase_of_mem ht]
    exact h.sublist List.erase_sublist fun _ _ => rfl
  exact (herase.setTimer hout x).insert t

theorem Settled.reinsert (h : Settled s) (ht : t ∈ s.m_timer_set) (x : Timer κ) :
    Settled (s.reinsert t x) := by
  refine ⟨h.set.reinsert ht x, fun u hu => ?_, fun u hu => ?_⟩
  · rw [reinsert_built]
    exact h.built u ((mem_reinsert h.set ht x).mp hu)
  · rw [mem_reinsert h.set ht]
    rw [reinsert_timer] at hu
    rcases eq_or_ne u t with rfl | hne
    · exact ht
    · rw [Function.update_of_ne hne] at hu
      exact h.mem u hu

/-! ### The calls on a timer that has its callback -/

theorem cancelTimer_of_none (hcb : (s.timer t).m_callback = none) :
    s.cancelTimer t = (s, false) := by
  simp [State.cancelTimer, hcb]

theorem refreshTimer_of_none (hcb : (s.timer t).m_callback = none) (now : UInt64) :
    s.refreshTimer t now = (s, false) := by
  simp [State.refreshTimer, hcb]

/-- `resetTimer` returns true without a change: the timer has this period already. -/
theorem resetTimer_same (now : UInt64) : s.resetTimer t (s.timer t).m_ms false now = (s, true) := by
  simp [State.resetTimer]

theorem resetTimer_of_none {ms : UInt64} {from_now : Bool}
    (hne : ¬ (ms = (s.timer t).m_ms ∧ from_now = false)) (hcb : (s.timer t).m_callback = none)
    (now : UInt64) : s.resetTimer t ms from_now now = (s, false) := by
  have hsame : ¬ (decide (ms = (s.timer t).m_ms) && !from_now) = true := by simpa using hne
  simp only [State.resetTimer, if_neg hsame, hcb]
  rfl

theorem cancelTimer_of_some (h : Settled s) (hcb : (s.timer t).m_callback.isSome) :
    s.cancelTimer t = (s.remove t, true) := by
  have hmem : t ∈ (s.setTimer t { s.timer t with m_callback := none }).m_timer_set := h.mem t hcb
  simp only [State.cancelTimer, Option.isNone_eq_false_iff.mpr hcb, erase_of_mem hmem]
  rfl

theorem refreshTimer_of_some (h : Settled s) (hcb : (s.timer t).m_callback.isSome)
    (now : UInt64) : s.refreshTimer t now =
      (s.reinsert t { s.timer t with m_next := now + (s.timer t).m_ms }, true) := by
  have htimer : (s.erase t).timer = s.timer := by rw [erase_eq]
  simp only [State.refreshTimer, Option.isNone_eq_false_iff.mpr hcb, find_of_mem (h.mem t hcb),
    htimer, State.reinsert]
  rfl

theorem resetTimer_of_some {ms : UInt64} {from_now : Bool}
    (hne : ¬ (ms = (s.timer t).m_ms ∧ from_now = false)) (h : Settled s)
    (hcb : (s.timer t).m_callback.isSome) (now : UInt64) : s.resetTimer t ms from_now now =
      (s.reinsert t { s.timer t with
        m_ms := ms
        m_next := (if from_now then now else (s.timer t).m_next - (s.timer t).m_ms) + ms },
        true) := by
  have hsame : ¬ (decide (ms = (s.timer t).m_ms) && !from_now) = true := by simpa using hne
  have htimer : (s.erase t).timer = s.timer := by rw [erase_eq]
  simp only [State.resetTimer, if_neg hsame, Option.isNone_eq_false_iff.mpr hcb,
    find_of_mem (h.mem t hcb), htimer, State.reinsert]
  rfl

/-! ### Every history -/

/-- What a call does to the timers. -/
inductive Effect (s : State Θ κ) : Call κ → State Θ κ → Prop
  | nothing {a : Call κ} : Effect s a s
  | removed {a : Call κ} {t : Nat} : (s.timer t).m_callback.isSome → Effect s a (s.remove t)
  | reinserted {a : Call κ} {t : Nat} {x : Timer κ} : (s.timer t).m_callback.isSome →
      x.m_callback = (s.timer t).m_callback → Effect s a (s.reinsert t x)
  | added {t : Nat} {ms : UInt64} {callback : Option κ} {recurring : Bool} {now : UInt64} :
      Effect s (.addTimer t ms callback recurring now) (s.addTimer t ms callback recurring now)
  | collected {now : UInt64} {probe : Nat} :
      Effect s (.listExpiredCallback now probe) (s.collect now probe).1

theorem effect (h : Settled s) (a : Call κ) : Effect s a (a.apply s) := by
  cases a with
  | addTimer t ms callback recurring now => exact .added
  | listExpiredCallback now probe => exact .collected
  | cancel t =>
    simp only [Call.apply]
    by_cases hcb : (s.timer t).m_callback.isSome
    · rw [cancelTimer_of_some h hcb]
      exact .removed hcb
    · rw [cancelTimer_of_none (by simpa using hcb)]
      exact .nothing
  | refresh t now =>
    simp only [Call.apply]
    by_cases hcb : (s.timer t).m_callback.isSome
    · rw [refreshTimer_of_some h hcb]
      exact .reinserted hcb rfl
    · rw [refreshTimer_of_none (by simpa using hcb)]
      exact .nothing
  | reset t ms from_now now =>
    simp only [Call.apply]
    -- `resetTimer` looks at its arguments first
    by_cases hne : ms = (s.timer t).m_ms ∧ from_now = false
    · rw [hne.1, hne.2, resetTimer_same]
      exact .nothing
    · by_cases hcb : (s.timer t).m_callback.isSome
      · rw [resetTimer_of_some hne h hcb]
        exact .reinserted hcb rfl
      · rw [resetTimer_of_none hne (by simpa using hcb)]
        exact .nothing

theorem Settled.remove (h : Settled s) (t : Nat) : Settled (s.remove t) := by
  refine ⟨h.set.next List.erase_sublist fun u _ => ?_, fun u hu => ?_, fun u hu => ?_⟩
  · show (Function.update s.timer t _ u).m_next = _
    rcases eq_or_ne u t with rfl | hne
    · rw [Function.update_self]
    · rw [Function.update_of_ne hne]
  · exact h.built u (List.mem_of_mem_erase hu)
  · simp only [State.remove] at hu ⊢
    rcases eq_or_ne u t with rfl | hne
    · rw [Function.update_self] at hu
      cases hu
    · rw [Function.update_of_ne hne] at hu
      exact h.set.nodup.mem_erase_iff.mpr ⟨hne, h.mem u hu⟩

theorem Settled.addTimer (h : Settled s) (hb : s.built t = false) (ms : UInt64)
    (callback : Option κ) (recurring : Bool) (now : UInt64) :
    Settled (s.addTimer t ms callback recurring now) := by
  have ht : t ∉ s.m_timer_set := fun ht => by
    rw [h.built t ht] at hb
    cases hb
  have hset := (h.set.setTimer ht ⟨recurring, ms, now + ms, callback⟩).insert t
  refine ⟨⟨hset.nodup, hset.ordered⟩, fun u hu => ?_, fun u hu => ?_⟩
  · show Function.update s.built t true u = true
    rcases eq_or_ne u t with rfl | hne
    · exact Function.update_self _ _ _
    · rw [Function.update_of_ne hne]
      exact h.built u ((mem_insert.mp hu).resolve_left hne)
  · refine mem_insert.mpr ((eq_or_ne u t).imp_right fun hne => ?_)
    have htimer : (s.addTimer t ms callback recurring now).timer u = s.timer u := by
      rw [State.addTimer, insert_timer]
      exact Function.update_of_ne hne _ _
    rw [htimer] at hu
    exact h.mem u hu

theorem Settled.collect (h : Settled s) (now : UInt64) (probe : Nat) :
    Settled (s.collect now probe).1 := by
  have hs : Ordered { s with callback_list := [] } := ⟨h.set.nodup, h.set.ordered⟩
  obtain ⟨ts, rest, time, hset, hc⟩ := collected_listExpiredCallback now probe hs
  have hmem : ∀ t, t ∈ s.m_timer_set ↔ t ∈ ts ∨ t ∈ rest := fun t => by
    rw [show s.m_timer_set = ts ++ rest from hset, List.mem_append]
  refine ⟨⟨hc.ordered.nodup, hc.ordered.ordered⟩, fun u hu => ?_, fun u hu => ?_⟩
  · have hbuilt : (s.collect now probe).1.built = s.built := hc.built
    rw [hbuilt]
    exact h.built u ((hmem u).mpr (((hc.mem u).mp hu).elim .inr fun hu => .inl hu.1))
  · apply (hc.mem u).mpr
    have hcb : (((s.collect now probe).1.timer u).m_callback = if u ∈ ts ∧ _ then _ else _) :=
      hc.callback u
    rw [hcb] at hu
    split at hu
    · cases hu
    · -- with its callback it was recurring, or not due
      rename_i hone
      rcases (hmem u).mp (h.mem u hu) with hts | hrest
      · refine .inr ⟨hts, ?_⟩
        by_contra hr
        exact hone ⟨hts, by simpa using hr⟩
      · exact .inl hrest

/-- Every call settles. -/
theorem Settled.apply {a : Call κ} (h : Settled s) (ha : a.Allowed s) : Settled (a.apply s) := by
  generalize hs' : a.apply s = s'
  have heff := effect h a
  rw [hs'] at heff
  cases heff with
  | nothing => exact h
  | removed hcb => exact h.remove _
  | reinserted hcb hx => exact h.reinsert (h.mem _ hcb) _
  | added => exact h.addTimer ha _ _ _ _
  | collected => exact h.collect _ _

/-- A call is made when it is allowed. -/
theorem step_eq_some {c c' : Calls Θ κ} {a : Call κ}
    (h : (callSystem Θ κ).step c a = some c') :
    a.Allowed c.timers ∧ c' = ⟨a.apply c.timers, c.read a⟩ := by
  have hstep : c.step a = some c' := h
  unfold Calls.step at hstep
  split at hstep <;> cases hstep
  exact ⟨‹_›, rfl⟩

theorem settled_step {c c' : Calls Θ κ} {a : Call κ} (h : Settled c.timers)
    (hs : (callSystem Θ κ).step c a = some c') : Settled c'.timers := by
  obtain ⟨ha, rfl⟩ := step_eq_some hs
  exact h.apply ha

theorem reachable_settled {c : Calls Θ κ} (h : (callSystem Θ κ).Reachable c) :
    Settled c.timers := by
  refine LTS.ReachableUnder.invariant (I := fun c => Settled c.timers) ?_ ?_ h
  · rintro c rfl
    exact settled_initial
  · exact fun c a c' hI _ hs => settled_step hI hs

/-! ### What a history keeps and collects -/

/-- The set between two calls. -/
structure Kept (s : State Θ κ) : Prop where
  scheduled : ∀ t, t ∈ s.m_timer_set ↔ (s.timer t).m_callback.isSome
  nodup : s.m_timer_set.Nodup
  ordered : s.m_timer_set.Pairwise fun u v => comparator (s.key u) (s.key v)

/-- The timer `t` counts as expired when the clock shows `now`: it is due, or the clock shows more
    than an hour less than when the set was looked at last. -/
def Calls.Due (c : Calls Θ κ) (now : UInt64) (t : Nat) : Prop :=
  (∃ prev ∈ c.reading, now.toNat + 60 * 60 * 1000 < prev.toNat) ∨ (c.timers.timer t).m_next ≤ now

instance (c : Calls Θ κ) (now : UInt64) : DecidablePred (c.Due now) := fun _ =>
  inferInstanceAs (Decidable (_ ∨ _))

/-- What `listExpiredCallback` at time `now` returns and leaves. -/
structure Collects (c : Calls Θ κ) (now : UInt64) (probe : Nat) : Prop where
  /-- the callbacks of the expired timers -/
  list : (c.timers.collect now probe).2 =
    (c.timers.m_timer_set.filter (c.Due now ·)).map fun t => (t, (c.timers.timer t).m_callback)
  callback : ∀ x ∈ (c.timers.collect now probe).2, x.2.isSome
  ascending : (c.timers.collect now probe).2.Pairwise fun x y =>
    (c.timers.timer x.1).m_next ≤ (c.timers.timer y.1).m_next
  left : ∀ t, t ∈ (c.timers.collect now probe).1.m_timer_set ↔
    t ∈ c.timers.m_timer_set ∧ (¬ c.Due now t ∨ (c.timers.timer t).m_recurring = true)
  timer : ∀ t, (c.timers.collect now probe).1.timer t =
    if t ∈ c.timers.m_timer_set ∧ c.Due now t then (c.timers.timer t).expired now
    else c.timers.timer t
  /-- a one-shot timer is never collected again, whatever calls follow -/
  once : ∀ t ∈ c.timers.m_timer_set, c.Due now t → (c.timers.timer t).m_recurring = false →
    ∀ as c', (callSystem Θ κ).exec c (.listExpiredCallback now probe :: as) = some c' →
      ∀ now' probe' f, (t, f) ∉ (c'.timers.collect now' probe').2

/-- A call of a history whose timers have callbacks, after the first hour of the clock. -/
def Call.Regular : Call κ → Prop
  | .addTimer _ _ callback _ _ => callback.isSome
  | .listExpiredCallback now _ => 60 * 60 * 1000 ≤ now.toNat
  | .cancel _ | .refresh _ _ | .reset _ _ _ _ => True

instance : ∀ a : Call κ, Decidable a.Regular
  | .addTimer _ _ _ _ _ => inferInstanceAs (Decidable (_ = _))
  | .listExpiredCallback _ _ => inferInstanceAs (Decidable (_ ≤ _))
  | .cancel _ | .refresh _ _ | .reset _ _ _ _ => .isTrue trivial

/-- What holds in such a history. -/
structure Usual (c : Calls Θ κ) : Prop where
  settled : Settled c.timers
  scheduled : ∀ t ∈ c.timers.m_timer_set, (c.timers.timer t).m_callback.isSome
  previous : c.timers.m_previousTime = c.reading.getD 0
  hour : ∀ prev ∈ c.reading, 60 * 60 * 1000 ≤ prev.toNat

/-- `listExpiredCallback` on a set that is not empty. -/
theorem collect_eq (h : Ordered s) (hne : s.m_timer_set ≠ []) (now : UInt64) (probe : Nat) :
    ∃ s', s.collect now probe = ({ s' with callback_list := [] }, s'.callback_list) ∧
      s'.m_previousTime = now ∧
      (∀ t, s'.timer t = if t ∈ s.m_timer_set ∧ s.due now t then (s.timer t).expired now
        else s.timer t) ∧
      Collected (s.m_timer_set.filter (s.due now))
        { s with m_timer_set := s.m_timer_set.filter fun t => !s.due now t
                 callback_list := []
                 m_previousTime := now } s' := by
  have hempty : Ordered { s with callback_list := [] } := ⟨h.nodup, h.ordered⟩
  have hrest : Ordered { s with m_timer_set := s.m_timer_set.filter fun t => !s.due now t
                                callback_list := []
                                m_previousTime := now } :=
    h.sublist List.filter_sublist fun _ _ => rfl
  have hnd : (s.m_timer_set.filter (s.due now)).Nodup := h.nodup.filter _
  refine ⟨_, ?_, ?_, fun t => ?_, collected_foldl now _ _ hrest hnd fun t ht ht' => ?_⟩
  · rw [State.collect, listExpiredCallback_eq hempty hne]
    rfl
  · exact foldl_expire_previous now _ _
  · rw [foldl_expire_timer now t _ _ hnd]
    simp only [List.mem_filter]
  · have hdue := (List.mem_filter.mp ht).2
    have hnot := (List.mem_filter.mp ht').2
    simp [hdue] at hnot

theorem collect_nil (hset : s.m_timer_set = []) (now : UInt64) (probe : Nat) :
    s.collect now probe = ({ s with callback_list := [] }, []) := by
  simp [State.collect, State.listExpiredCallback, hset]

theorem Usual.due_iff {c : Calls Θ κ} (h : Usual c) (now : UInt64) (t : Nat) :
    c.timers.due now t = true ↔ c.Due now t := by
  simp only [State.due, State.detectClockRollover, Calls.Due, Bool.or_eq_true, Bool.and_eq_true,
    decide_eq_true_eq, h.previous]
  cases hr : c.reading with
  | none => simp [UInt64.lt_iff_toNat_lt]
  | some prev =>
    -- after the first hour the subtraction in `detectClockRollover` does not wrap around
    have hhour := h.hour prev hr
    have hle : (60 * 60 * 1000 : UInt64) ≤ prev := UInt64.le_iff_toNat_le.mpr hhour
    have hsub : (prev - 60 * 60 * 1000).toNat = prev.toNat - 60 * 60 * 1000 :=
      UInt64.toNat_sub_of_le _ _ hle
    simp only [Option.getD_some, UInt64.lt_iff_toNat_lt, Option.mem_def, Option.some.injEq,
      exists_eq_left', hsub]
    refine or_congr ?_ Iff.rfl
    omega

/-- The other calls leave the last reading of the clock. -/
theorem Effect.previous {a : Call κ} (h : Effect s a s')
    (ha : ∀ now probe, a ≠ .listExpiredCallback now probe) :
    s'.m_previousTime = s.m_previousTime := by
  cases h with
  | nothing | removed _ => rfl
  | reinserted _ _ => exact reinsert_previous _ _ _
  | added => exact insert_previous
  | collected => exact absurd rfl (ha _ _)

/-- Regular calls keep a callback in every timer of the set. -/
theorem Effect.scheduled {a : Call κ} (h : Effect s a s') (hs : Settled s) (hr : a.Regular)
    (hall : ∀ t ∈ s.m_timer_set, (s.timer t).m_callback.isSome) (hu : u ∈ s'.m_timer_set) :
    (s'.timer u).m_callback.isSome := by
  cases h with
  | nothing => exact hall u hu
  | @removed _ t hcb =>
    obtain ⟨hne, hu⟩ := hs.set.nodup.mem_erase_iff.mp hu
    show (Function.update s.timer t _ u).m_callback.isSome
    rw [Function.update_of_ne hne]
    exact hall u hu
  | @reinserted _ t x hcb hx =>
    rw [mem_reinsert hs.set (hs.mem t hcb)] at hu
    rw [reinsert_timer]
    rcases eq_or_ne u t with rfl | hne
    · rw [Function.update_self, hx]
      exact hcb
    · rw [Function.update_of_ne hne]
      exact hall u hu
  | @added t ms callback recurring now =>
    have htimer : (s.addTimer t ms callback recurring now).timer =
        Function.update s.timer t ⟨recurring, ms, now + ms, callback⟩ := by
      rw [State.addTimer, insert_timer]
      rfl
    rw [htimer]
    rcases eq_or_ne u t with rfl | hne
    · rw [Function.update_self]
      exact hr
    · rw [Function.update_of_ne hne]
      exact hall u ((mem_insert.mp hu).resolve_left hne)
  | @collected now probe =>
    by_cases hne : s.m_timer_set = []
    · rw [collect_nil hne] at hu ⊢
      exact hall u hu
    · obtain ⟨s'', heq, -, -, hc⟩ := collect_eq hs.set hne now probe
      rw [heq] at hu ⊢
      have hin := (hc.mem u).mp hu
      have hcb : (s''.timer u).m_callback = _ := hc.callback u
      have huset : u ∈ s.m_timer_set :=
        hin.elim (fun h => (List.mem_filter.mp h).1) fun h => (List.mem_filter.mp h.1).1
      show (s''.timer u).m_callback.isSome
      rw [hcb, if_neg]
      · exact hall u huset
      · -- a one-shot timer that was due is not in the set any more
        rintro ⟨hdue, hone⟩
        rcases hin with hleft | ⟨-, hrec⟩
        · have hd := (List.mem_filter.mp hdue).2
          have hn := (List.mem_filter.mp hleft).2
          simp [hd] at hn
        · rw [show (s.timer u).m_recurring = true from hrec] at hone
          cases hone

theorem usual_initial : Usual (⟨initial, none⟩ : Calls Θ κ) :=
  ⟨settled_initial, by simp [initial], rfl, by simp⟩

theorem usual_step {c c' : Calls Θ κ} {a : Call κ} (h : Usual c) (hr : a.Regular)
    (hs : (callSystem Θ κ).step c a = some c') : Usual c' := by
  obtain ⟨ha, rfl⟩ := step_eq_some hs
  have heff := effect h.settled a
  have hsettled := h.settled.apply ha
  have hscheduled := fun u hu => heff.scheduled (u := u) h.settled hr h.scheduled hu
  cases a with
  | listExpiredCallback now probe =>
    -- an empty set returns before the clock is compared
    by_cases hset : c.timers.m_timer_set = []
    · have hread : c.read (.listExpiredCallback now probe) = c.reading := if_pos hset
      refine ⟨hsettled, hscheduled, ?_, ?_⟩
      · rw [hread, ← h.previous]
        simp only [Call.apply, collect_nil hset]
      · rw [hread]
        exact h.hour
    · have hread : c.read (.listExpiredCallback now probe) = some now := if_neg hset
      obtain ⟨s', heq, hprev, -, -⟩ := collect_eq h.settled.set hset now probe
      refine ⟨hsettled, hscheduled, ?_, ?_⟩
      · rw [hread]
        simp only [Call.apply, heq, hprev]
        rfl
      · rw [hread]
        rintro prev ⟨⟩
        exact hr
  | addTimer _ _ _ _ _ | cancel _ | refresh _ _ | reset _ _ _ _ =>
    exact ⟨hsettled, hscheduled, (heff.previous (by simp)).trans h.previous, h.hour⟩

/-- A timer without callback that is not in the set. -/
structure Gone (s : State Θ κ) (t : Nat) : Prop where
  built : s.built t = true
  callback : (s.timer t).m_callback = none
  outside : t ∉ s.m_timer_set

/-- No call brings such a timer back. -/
theorem Effect.gone {a : Call κ} (h : Effect s a s') (hs : Settled s) (ha : a.Allowed s)
    (hg : Gone s u) : Gone s' u := by
  have hne : ∀ t, (s.timer t).m_callback.isSome → u ≠ t := by
    rintro t hcb rfl
    rw [hg.callback] at hcb
    cases hcb
  cases h with
  | nothing => exact hg
  | @removed _ t hcb =>
    refine ⟨hg.built, ?_, fun hu => hg.outside (List.mem_of_mem_erase hu)⟩
    show (Function.update s.timer t _ u).m_callback = none
    rw [Function.update_of_ne (hne t hcb)]
    exact hg.callback
  | @reinserted _ t x hcb hx =>
    refine ⟨?_, ?_, ?_⟩
    · rw [reinsert_built]
      exact hg.built
    · rw [reinsert_timer, Function.update_of_ne (hne t hcb)]
      exact hg.callback
    · rw [mem_reinsert hs.set (hs.mem t hcb)]
      exact hg.outside
  | @added t ms callback recurring now =>
    have hut : u ≠ t := by
      rintro rfl
      exact Bool.false_ne_true ((show s.built u = false from ha).symm.trans hg.built)
    refine ⟨?_, ?_, fun hu => hg.outside ((mem_insert.mp hu).resolve_left hut)⟩
    · show Function.update s.built t true u = true
      rw [Function.update_of_ne hut]
      exact hg.built
    · rw [State.addTimer, insert_timer]
      show (Function.update s.timer t _ u).m_callback = none
      rw [Function.update_of_ne hut]
      exact hg.callback
  | @collected now probe =>
    by_cases hne : s.m_timer_set = []
    · rw [collect_nil hne]
      exact ⟨hg.built, hg.callback, hg.outside⟩
    · obtain ⟨s'', heq, -, htimer, hc⟩ := collect_eq hs.set hne now probe
      rw [heq]
      refine ⟨?_, ?_, fun hu => ?_⟩
      · rw [show s''.built = s.built from hc.built]
        exact hg.built
      · rw [show s''.timer u = _ from htimer u, if_neg fun h => hg.outside h.1]
        exact hg.callback
      · rcases (hc.mem u).mp hu with hleft | ⟨hdue, -⟩
        · exact hg.outside (List.mem_filter.mp hleft).1
        · exact hg.outside (List.mem_filter.mp hdue).1

/-- And nothing collects it. -/
theorem Gone.not_collected (hg : Gone s t) (h : Settled s) (now : UInt64) (probe : Nat)
    (f : Option κ) : (t, f) ∉ (s.collect now probe).2 := by
  by_cases hne : s.m_timer_set = []
  · rw [collect_nil hne]
    exact List.not_mem_nil
  · obtain ⟨s', heq, -, -, hc⟩ := collect_eq h.set hne now probe
    rw [heq]
    intro hin
    rw [hc.list] at hin
    obtain ⟨u, hu, heq⟩ := List.mem_map.mp hin
    cases heq
    exact hg.outside (List.mem_filter.mp hu).1

theorem Usual.kept {c : Calls Θ κ} (h : Usual c) : Kept c.timers := by
  refine ⟨fun t => ⟨h.scheduled t, h.settled.mem t⟩, h.settled.set.nodup, ?_⟩
  have hboth := h.settled.set.ordered.and h.settled.set.nodup
  apply hboth.imp
  intro u v huv
  by_contra hnot
  exact huv.2 (before_antisymm huv.1 hnot)

theorem Usual.collects {c : Calls Θ κ} (h : Usual c) (now : UInt64) (probe : Nat)
    (hne : c.timers.m_timer_set ≠ []) : Collects c now probe := by
  have hset := h.settled.set
  obtain ⟨s', heq, -, htimer, hc⟩ := collect_eq hset hne now probe
  have hdue : c.timers.due now = fun t => decide (c.Due now t) := by
    funext t
    rw [Bool.eq_iff_iff, h.due_iff, decide_eq_true_iff]
  have hlist : (c.timers.collect now probe).2 =
      (c.timers.m_timer_set.filter (c.Due now ·)).map fun t =>
        (t, (c.timers.timer t).m_callback) := by
    rw [heq, ← hdue]
    exact hc.list
  refine ⟨hlist, fun x hx => ?_, ?_, fun t => ?_, fun t => ?_, ?_⟩
  · rw [hlist] at hx
    obtain ⟨t, ht, rfl⟩ := List.mem_map.mp hx
    exact h.scheduled t (List.mem_filter.mp ht).1
  · rw [hlist, List.pairwise_map]
    apply (hset.ordered.filter _).imp
    intro u v huv
    simp only [State.before, State.key, comparator, UInt64.lt_iff_toNat_lt, ← UInt64.toNat_inj,
      UInt64.le_iff_toNat_le] at huv ⊢
    omega
  · rw [heq]
    apply (hc.mem t).trans
    simp only [List.mem_filter, hdue, Bool.not_eq_true', decide_eq_false_iff_not,
      decide_eq_true_eq]
    by_cases hd : c.Due now t <;> simp [hd]
  · rw [heq]
    apply (htimer t).trans
    simp only [h.due_iff]
  · intro t ht hd hone as c' hexec now' probe' f
    rw [LTS.exec] at hexec
    obtain ⟨c₁, hs, hexec⟩ := Option.bind_eq_some_iff.mp hexec
    have hsettled : Settled c₁.timers := settled_step h.settled hs
    obtain ⟨-, rfl⟩ := step_eq_some hs
    -- the timer has lost its callback and its place in the set, and both for good
    have hgone : Gone (c.timers.collect now probe).1 t := by
      rw [heq]
      refine ⟨?_, ?_, fun hin => ?_⟩
      · exact (congrFun hc.built t).trans (h.settled.built t ht)
      · show (s'.timer t).m_callback = none
        rw [htimer t, if_pos ⟨ht, (h.due_iff now t).mpr hd⟩, Timer.expired, if_neg (by simp [hone])]
      · have hmem := (hc.mem t).mp hin
        simp [hdue, hd, hone] at hmem
    have hstable := LTS.exec_stable (T := callSystem Θ κ)
      (P := fun c => Settled c.timers ∧ Gone c.timers t) ?_ ⟨hsettled, hgone⟩ hexec
    · exact hstable.2.not_collected hstable.1 now' probe' f
    · rintro c a c' ⟨hI, hg⟩ hs
      refine ⟨settled_step hI hs, ?_⟩
      obtain ⟨ha, rfl⟩ := step_eq_some hs
      exact (effect hI a).gone hI ha hg

/-- **`listExpiredCallback` after every history.** A timer is in the set exactly when it has its
    callback, the set is in order, and `listExpiredCallback` collects exactly the expired timers. -/
theorem history_collects {c : Calls Θ κ}
    (h : (callSystem Θ κ).ReachableUnder (fun _ a => a.Regular) c) :
    Kept c.timers ∧ ∀ now probe, 60 * 60 * 1000 ≤ now.toNat → c.timers.m_timer_set ≠ [] →
      Collects c now probe := by
  have hI : Usual c := LTS.ReachableUnder.invariant (I := Usual)
    (fun c hc => hc ▸ usual_initial) (fun c a c' hI hr hs => usual_step hI hr hs) h
  exact ⟨hI.kept, fun now probe _ hne => hI.collects now probe hne⟩

/-- A one-shot timer has expired and a recurring one is about to. -/
theorem history_collects_two : ∃ c : Calls Unit Nat,
    (callSystem Unit Nat).exec ⟨initial, none⟩
      [.addTimer 0 10 (some 7) false 5000000, .addTimer 1 25 (some 8) true 5000000] = some c ∧
    (c.timers.collect 5000010 2).2 = [(0, some 7)] ∧ Kept c.timers ∧ Collects c 5000010 2 := by
  have hr : (callSystem Unit Nat).exec ⟨initial, none⟩
      [.addTimer 0 10 (some 7) false 5000000, .addTimer 1 25 (some 8) true 5000000] = some _ := rfl
  have h := history_collects (LTS.ReachableUnder.exec (.init rfl) (by decide) hr)
  exact ⟨_, hr, by decide, h.1, h.2 5000010 2 (by decide) (by decide)⟩

/-! ### What the results say -/

/-- The result of `cancel`, `refresh` and `reset` says whether the timer was scheduled. -/
structure Honest (s s' : State Θ κ) (t : Nat) (result : Bool) : Prop where
  scheduled : result = true ↔ t ∈ s.m_timer_set
  unchanged : result = false → s' = s

/-- The timer is scheduled with period `ms`, counted from `start`. -/
structure Reset (s' : State Θ κ) (t : Nat) (ms start : UInt64) : Prop where
  scheduled : t ∈ s'.m_timer_set
  period : (s'.timer t).m_ms = ms
  deadline : (s'.timer t).m_next = start + ms

/-- What a call promises. -/
def Call.Promised (s : State Θ κ) : Call κ → Prop
  | .cancel t => Honest s (s.cancelTimer t).1 t (s.cancelTimer t).2
  | .refresh t now => Honest s (s.refreshTimer t now).1 t (s.refreshTimer t now).2
  | .reset t ms from_now now =>
    Honest s (s.resetTimer t ms from_now now).1 t (s.resetTimer t ms from_now now).2 ∧
      ((s.resetTimer t ms from_now now).2 = true → Reset (s.resetTimer t ms from_now now).1 t ms
        (if from_now then now else (s.timer t).m_next - (s.timer t).m_ms))
  | .addTimer _ _ _ _ _ | .listExpiredCallback _ _ => True

/-- A `reset` to the period that the timer has already, not from now, is made on a timer in the set;
    another call is not made on a timer that is in the set with an empty callback. -/
def Call.Proper (s : State Θ κ) : Call κ → Prop
  | .cancel t | .refresh t _ => t ∈ s.m_timer_set → (s.timer t).m_callback.isSome
  | .reset t ms from_now _ =>
    if ms = (s.timer t).m_ms ∧ from_now = false then t ∈ s.m_timer_set
    else t ∈ s.m_timer_set → (s.timer t).m_callback.isSome
  | .addTimer _ _ _ _ _ | .listExpiredCallback _ _ => True

instance (s : State Θ κ) : ∀ a : Call κ, Decidable (a.Proper s)
  | .cancel _ | .refresh _ _ => inferInstanceAs (Decidable (_ → _))
  | .reset _ _ _ _ => inferInstanceAs (Decidable (ite _ _ _))
  | .addTimer _ _ _ _ _ | .listExpiredCallback _ _ => .isTrue trivial

/-- `reset` returns true for a cancelled timer when it is asked for the period the timer had:
    `resetTimer` looks at `ms` before it looks at `m_callback`, `cancelTimer` and `refreshTimer`
    look at `m_callback` first. -/
theorem reset_returns_true : ∃ c : Calls Unit Nat, (callSystem Unit Nat).Reachable c ∧
    (Call.reset 0 10 false 5000002).Allowed c.timers ∧
    (c.timers.resetTimer 0 10 false 5000002).2 = true ∧ 0 ∉ c.timers.m_timer_set ∧
    ¬ (Call.reset 0 10 false 5000002).Promised c.timers := by
  have hr : (callSystem Unit Nat).exec ⟨initial, none⟩
      [.addTimer 0 10 (some 7) false 5000000, .cancel 0] = some _ := rfl
  refine ⟨_, LTS.reachable_of_exec rfl hr, by decide, by decide, by decide, fun h => ?_⟩
  exact absurd (h.1.scheduled.mp (by decide)) (by decide)

/-- A call that turns away a timer without callback is right when the timer is not in the set. -/
theorem honest_of_none (hcb : (s.timer t).m_callback = none) :
    Honest s s t false ↔ (t ∈ s.m_timer_set → (s.timer t).m_callback.isSome) := by
  refine ⟨fun h ht => absurd (h.scheduled.mpr ht) Bool.false_ne_true, fun h => ⟨?_, fun _ => rfl⟩⟩
  refine ⟨fun h => absurd h Bool.false_ne_true, fun ht => ?_⟩
  have hsome := h ht
  rw [hcb] at hsome
  cases hsome

/-- A call that goes on with a timer is right when the timer is in the set. -/
theorem honest_true : Honest s s' t true ↔ t ∈ s.m_timer_set := by
  refine ⟨fun h => h.scheduled.mp rfl, fun ht => ⟨⟨fun _ => ht, fun _ => rfl⟩, ?_⟩⟩
  simp

theorem honest_of_some (h : Settled s) (hcb : (s.timer t).m_callback.isSome) :
    Honest s s' t true ↔ (t ∈ s.m_timer_set → (s.timer t).m_callback.isSome) :=
  honest_true.trans ⟨fun _ _ => hcb, fun _ => h.mem t hcb⟩

/-- **The results.** After every history, `cancel`, `refresh` and `reset` keep their promise exactly
    when the call is proper. -/
theorem history_honest_iff {c : Calls Θ κ} (h : (callSystem Θ κ).Reachable c) {a : Call κ}
    (ha : a.Allowed c.timers) : a.Promised c.timers ↔ a.Proper c.timers := by
  have hs := reachable_settled h
  generalize c.timers = s at *
  cases a with
  | addTimer t ms callback recurring now => exact Iff.rfl
  | listExpiredCallback now probe => exact Iff.rfl
  | cancel t =>
    simp only [Call.Promised, Call.Proper]
    by_cases hcb : (s.timer t).m_callback.isSome
    · rw [cancelTimer_of_some hs hcb]
      exact honest_of_some hs hcb
    · rw [Option.not_isSome_iff_eq_none] at hcb
      rw [cancelTimer_of_none hcb]
      exact honest_of_none hcb
  | refresh t now =>
    simp only [Call.Promised, Call.Proper]
    by_cases hcb : (s.timer t).m_callback.isSome
    · rw [refreshTimer_of_some hs hcb]
      exact honest_of_some hs hcb
    · rw [Option.not_isSome_iff_eq_none] at hcb
      rw [refreshTimer_of_none hcb]
      exact honest_of_none hcb
  | reset t ms from_now now =>
    simp only [Call.Promised, Call.Proper]
    by_cases hne : ms = (s.timer t).m_ms ∧ from_now = false
    · rw [if_pos hne]
      obtain ⟨rfl, rfl⟩ := hne
      rw [resetTimer_same, honest_true]
      -- period and deadline are what they were
      refine ⟨And.left, fun ht => ⟨ht, fun _ => ⟨ht, rfl, ?_⟩⟩⟩
      simp
    · rw [if_neg hne]
      by_cases hcb : (s.timer t).m_callback.isSome
      · rw [resetTimer_of_some hne hs hcb, honest_of_some hs hcb]
        refine ⟨And.left, fun hp => ⟨hp, fun _ => ⟨?_, ?_, ?_⟩⟩⟩
        · exact (mem_reinsert hs.set (hs.mem t hcb) _).mpr (hs.mem t hcb)
        · rw [reinsert_timer, Function.update_self]
        · rw [reinsert_timer, Function.update_self]
      · rw [Option.not_isSome_iff_eq_none] at hcb
        rw [resetTimer_of_none hne hcb, honest_of_none hcb]
        exact ⟨And.left, fun hp => ⟨hp, fun h => absurd h Bool.false_ne_true⟩⟩

/-- The same call on the timer before it is cancelled. -/
theorem history_honest_iff_scheduled : ∃ c : Calls Unit Nat,
    (Call.reset 0 10 false 5000002).Promised c.timers ∧
      (c.timers.resetTimer 0 10 false 5000002).2 = true := by
  have hr : (callSystem Unit Nat).exec ⟨initial, none⟩
      [.addTimer 0 10 (some 7) false 5000000] = some _ := rfl
  have hproper := history_honest_iff (LTS.reachable_of_exec rfl hr)
    (a := .reset 0 10 false 5000002) (by decide)
  exact ⟨_, hproper.mpr (by decide), by decide⟩

end LimWebserver.TimerManager
