import Xv6.Sched.Steps

/-!
# Who holds what, and who runs where

A CPU holds exactly the locks of the point it is at (`Core.lock`), a process runs on at most one
CPU (`Core.once`), and its state is RUNNING exactly from the moment a scheduler picks it until it
is about to leave the CPU (`Core.running`, `Core.starting`); both ends are under `p->lock`.
-/

set_option autoImplicit false

namespace Xv6.Sched

variable {n : Nat} {C : Type}

/-! ## The invariant -/

/-- The locks CPU `c` holds. -/
def State.held (s : State n C) (c : C) : List (Lk n) :=
  match s.on c with
  | some p => (s.pc p).holds p
  | none => (s.spc c).holds

structure Core (s : State n C) : Prop where
  wf : ∀ p, (s.pc p).Wf p
  swf : ∀ c, (s.spc c).Wf
  lock : ∀ l c, s.lock l = some c ↔ l ∈ s.held c
  back : ∀ c p, s.on c = some p → ∃ rest, s.spc c = .back p rest
  once : ∀ c c' p, s.on c = some p → s.on c' = some p → c = c'
  off : ∀ p, (∀ c, s.on c ≠ some p) → (s.pc p).Resumes p
  cur_on : ∀ c p, s.on c = some p → s.cur c = some p
  cur_off : ∀ c, s.on c = none → s.cur c = (s.spc c).cur
  running : ∀ c p, s.on c = some p →
    ((s.tab.proc p).state = .running ↔ (s.pc p).leaving = false)
  starting : ∀ c i, s.on c = none → (s.spc c).starts = some i →
    (s.tab.proc i).state = .running ∧ ∀ c', s.on c' ≠ some i
  returning : ∀ c i, s.on c = none → (s.spc c).returns = some i →
    (s.tab.proc i).state ≠ .running
  exec : ∀ p, (s.tab.proc p).state = .running →
    ∃ c, s.on c = some p ∨ s.on c = none ∧ (s.spc c).starts = some p

/-- A lock has one holder. -/
theorem Core.unique {s : State n C} (h : Core s) {x : Lk n} {c c' : C} (h1 : x ∈ s.held c)
    (h2 : x ∈ s.held c') : c = c' :=
  Option.some.inj (((h.lock x c).2 h1).symm.trans ((h.lock x c').2 h2))

theorem State.held_on {s : State n C} {c : C} {p : Fin n} (h : s.on c = some p) :
    s.held c = (s.pc p).holds p := by
  rw [State.held, h]

theorem State.held_off {s : State n C} {c : C} (h : s.on c = none) :
    s.held c = (s.spc c).holds := by
  rw [State.held, h]

/-- A process whose state a CPU may change, and that is not running, is on no CPU but that one. -/
theorem Core.off_of_held {s : State n C} {c : C} (h : Core s) {i : Fin n}
    (hi : (s.tab.proc i).state ≠ .running)
    (hh : .proc i ∈ s.held c) {c' : C} (hon : s.on c' = some i) : c' = c := by
  have hl : (s.pc i).leaving = true :=
    Bool.eq_true_of_not_eq_false fun hf => hi ((h.running c' i hon).2 hf)
  refine h.unique (x := .proc i) ?_ hh
  rw [State.held_on hon]
  exact Loc.holds_of_leaving hl

/-- How an effect changes the owners of the locks. -/
theorem Eff.Locks.onLock [DecidableEq C] {e : Eff n} {c : C} {lock : Lk n → Option C}
    {held held' : C → List (Lk n)} (hl : ∀ x c', lock x = some c' ↔ x ∈ held c')
    (h : e.Locks (held c) (held' c)) (ho : ∀ c', c' ≠ c → held' c' = held c')
    (hf : ∀ x, e = .acquire x → lock x = none) (x : Lk n) (c' : C) :
    e.onLock c lock x = some c' ↔ x ∈ held' c' := by
  have hkeep : (∀ y, y ∈ held' c ↔ y ∈ held c) → (lock x = some c' ↔ x ∈ held' c') := by
    intro hk
    rw [hl]
    by_cases hc : c' = c
    · rw [hc, hk]
    · rw [ho c' hc]
  cases e with
  | acquire y =>
    obtain ⟨hy, hnew⟩ := h
    show Function.update lock y (some c) x = some c' ↔ _
    by_cases hx : x = y
    · rw [hx, Function.update_self, Option.some.injEq]
      constructor
      · rintro rfl
        exact (hnew y).2 (.inl rfl)
      · intro hm
        by_contra hc
        rw [ho c' (Ne.symm hc), ← hl, hf y rfl] at hm
        cases hm
    · rw [Function.update_of_ne hx, hl]
      by_cases hc : c' = c
      · rw [hc, hnew, or_iff_right hx]
      · rw [ho c' hc]
  | release y =>
    obtain ⟨hy, hnew⟩ := h
    show Function.update lock y none x = some c' ↔ _
    by_cases hx : x = y
    · rw [hx, Function.update_self]
      refine ⟨nofun, fun hm => ?_⟩
      by_cases hc : c' = c
      · rw [hc, hnew] at hm
        exact absurd rfl hm.1
      · rw [ho c' hc, ← hl] at hm
        exact absurd (Option.some.inj (hm.symm.trans ((hl y c).2 hy))) hc
    · rw [Function.update_of_ne hx, hl]
      by_cases hc : c' = c
      · rw [hc, hnew, and_iff_right hx]
      · rw [ho c' hc]
  | nop => exact hkeep h
  | event ev => exact hkeep h
  | cur o => exact hkeep h
  | enter i => exact hkeep h
  | leave => exact hkeep h

/-- Which processes run after an event. -/
theorem Event.Allowed.running [NeZero n] {t : Table n} {ev : Event n} (ha : ev.Allowed t)
    (q : Fin n) : ((ev.apply t).proc q).state = .running ↔
      (t.proc q).state = .running ∧ ev.stops ≠ some q ∨ ev = .run q := by
  -- a slot that is neither running before nor after
  have hidle : ∀ (i : Fin n) (x : Proc n), (t.proc i).state ≠ .running → x.state ≠ .running →
      (((t.setProc i x).proc q).state = .running ↔ (t.proc q).state = .running) := by
    intro i x h1 h2
    by_cases hq : q = i
    · rw [hq, Table.setProc_self]
      exact ⟨fun h => absurd h h2, fun h => absurd h h1⟩
    · rw [Table.setProc_of_ne t hq]
  -- a slot that keeps its state
  have hsame : ∀ (i : Fin n) (x : Proc n), x.state = (t.proc i).state →
      (((t.setProc i x).proc q).state = .running ↔ (t.proc q).state = .running) := by
    intro i x h
    by_cases hq : q = i
    · rw [hq, Table.setProc_self, h]
    · rw [Table.setProc_of_ne t hq]
  -- a slot that stops running
  have hstop : ∀ (i : Fin n) (x : Proc n), x.state ≠ .running →
      (((t.setProc i x).proc q).state = .running ↔ (t.proc q).state = .running ∧ i ≠ q) := by
    intro i x h
    by_cases hq : q = i
    · rw [hq, Table.setProc_self]
      exact ⟨fun h' => absurd h' h, fun h' => absurd rfl h'.2⟩
    · rw [Table.setProc_of_ne t hq]
      exact (and_iff_left (Ne.symm hq)).symm
  cases ev <;> simp only [Event.stops, ne_eq, reduceCtorEq, not_false_eq_true, and_true, or_false,
    Option.some.injEq]
  case claim i pid => exact hidle i _ (by rw [ha.1]; decide) (fun h => by cases h)
  case free i => exact hidle i freed (by rw [ha.1]; decide) (fun h => by cases h)
  case start i => exact hidle i _ (by rw [ha.1]; decide) (fun h => by cases h)
  case wake i =>
    exact hidle i _ (by rw [show (t.proc i).state = _ from ha]; decide) (fun h => by cases h)
  case reap p i status => exact hidle i freed (by rw [ha.1]; decide) (fun h => by cases h)
  case zombie p status => exact hstop p _ (fun h => by cases h)
  case sleep p ch => exact hstop p _ (fun h => by cases h)
  case yield p => exact hstop p _ (fun h => by cases h)
  case setkilled p => exact hsame p _ rfl
  case tidy p => exact hsame p _ rfl
  case kill i =>
    by_cases hs : (t.proc i).state = .sleeping
    · refine hidle i _ (by rw [hs]; decide) ?_
      show (if _ then _ else _) ≠ _
      rw [if_pos hs]
      decide
    · exact hsame i _ (if_neg hs)
  case run i =>
    by_cases hq : q = i
    · simp [Event.apply, hq]
    · simp [Event.apply, Table.setProc_of_ne t hq, Ne.symm hq]
  all_goals exact Iff.rfl

section

variable [DecidableEq C] {s : State n C} {c : C} {p : Fin n} {e : Eff n}

/-- The state after a step of the thread of `p` on CPU `c`. -/
def State.move (s : State n C) (c : C) (p : Fin n) (e : Eff n) (k : Loc n) : State n C :=
  { e.apply c s with pc := Function.update (e.apply c s).pc p k }

/-- The state after a step of the scheduler of CPU `c`. -/
def State.smove (s : State n C) (c : C) (e : Eff n) (k : SLoc n) : State n C :=
  { e.apply c s with spc := Function.update s.spc c k }

/-- A thread leaves its CPU. -/
theorem Core.step_leave (h : Core s) (hon : s.on c = some p) {k : Loc n}
    (hk : s.pc p = .sched k) : Core (s.move c p .leave k) := by
  have hpcp : (s.move c p .leave k).pc p = k := Function.update_self ..
  have hpc : ∀ q, q ≠ p → (s.move c p .leave k).pc q = s.pc q :=
    fun q hq => Function.update_of_ne hq ..
  have honc : (s.move c p .leave k).on c = none := Function.update_self ..
  have hon' : ∀ c', c' ≠ c → (s.move c p .leave k).on c' = s.on c' :=
    fun c' hc => Function.update_of_ne hc ..
  have hoff : ∀ c' q, (s.move c p .leave k).on c' = some q → c' ≠ c ∧ s.on c' = some q := by
    intro c' q hq
    by_cases hc : c' = c
    · rw [hc, honc] at hq
      cases hq
    · rw [hon' c' hc] at hq
      exact ⟨hc, hq⟩
  have hne : ∀ c' q, c' ≠ c → s.on c' = some q → q ≠ p :=
    fun c' q hc hq hqp => hc (h.once c' c p (hqp ▸ hq) hon)
  have hwf := h.wf p
  rw [hk] at hwf
  have hstop : (s.tab.proc p).state ≠ .running := by
    intro hr
    have := (h.running c p hon).1 hr
    rw [hk] at this
    cases this
  obtain ⟨rest, hback⟩ := h.back c p hon
  refine ⟨fun q => ?_, h.swf, fun x c' => ?_, fun c' q hq => ?_, fun c₁ c₂ q h1 h2 => ?_,
    fun q hq => ?_, fun c' q hq => ?_, fun c' hc => ?_, fun c' q hq => ?_, fun c' i hc hi => ?_,
    fun c' i hc hi => ?_,
    fun q hq => ?_⟩
  · by_cases hq : q = p
    · rw [hq, hpcp]
      exact hwf.2
    · rw [hpc q hq]
      exact h.wf q
  · show s.lock x = some c' ↔ _
    rw [h.lock]
    by_cases hc : c' = c
    · rw [hc, State.held_on hon, State.held_off honc, hk]
      show x ∈ [Lk.proc p] ↔ x ∈ (s.spc c).holds
      rw [hback]
      rfl
    · rw [State.held, State.held, hon' c' hc]
      cases hq : s.on c' with
      | none => exact Iff.rfl
      | some q =>
        show x ∈ (s.pc q).holds q ↔ x ∈ ((s.move c p .leave k).pc q).holds q
        rw [hpc q (hne c' q hc hq)]
  · exact h.back c' q (hoff c' q hq).2
  · exact h.once c₁ c₂ q (hoff c₁ q h1).2 (hoff c₂ q h2).2
  · by_cases hqp : q = p
    · rw [hqp, hpcp]
      exact hwf.1
    · rw [hpc q hqp]
      refine h.off q fun c' hc => ?_
      have hcc : c' ≠ c := fun he => hqp (Option.some.inj ((he ▸ hc).symm.trans hon))
      exact hq c' ((hon' c' hcc).trans hc)
  · exact h.cur_on c' q (hoff c' q hq).2
  · show s.cur c' = (s.spc c').cur
    by_cases hcc : c' = c
    · rw [hcc, h.cur_on c p hon, hback]
      rfl
    · rw [hon' c' hcc] at hc
      exact h.cur_off c' hc
  · obtain ⟨hcc, hq⟩ := hoff c' q hq
    rw [hpc q (hne c' q hcc hq)]
    exact h.running c' q hq
  · have hcc : c' ≠ c := by
      rintro rfl
      rw [show (s.move c' p .leave k).spc = s.spc from rfl, hback] at hi
      cases hi
    rw [hon' c' hcc] at hc
    obtain ⟨hst, hnot⟩ := h.starting c' i hc hi
    exact ⟨hst, fun c₁ h1 => hnot c₁ (hoff c₁ i h1).2⟩
  · by_cases hcc : c' = c
    · rw [hcc, show (s.move c p .leave k).spc = s.spc from rfl, hback] at hi
      cases hi
      exact hstop
    · rw [hon' c' hcc] at hc
      exact h.returning c' i hc hi
  · obtain ⟨c', hc⟩ := h.exec q hq
    have hcc : c' ≠ c := by
      rintro rfl
      rcases hc with hc | ⟨hc, -⟩
      · exact hstop ((Option.some.inj (hon.symm.trans hc)) ▸ hq)
      · rw [hon] at hc
        cases hc
    exact ⟨c', by rw [hon' c' hcc]; exact hc⟩

theorem SDoes.plain {l k : SLoc n} (h : SDoes c s l e k) :
    e.onPc s.pc = s.pc ∧ e ≠ .leave ∧ ((∀ i, e ≠ .enter i) → e.onOn c s.on = s.on) ∧
      ∀ x, e = .acquire x → s.lock x = none := by
  cases h with
  | acquire h0 => exact ⟨rfl, nofun, fun _ => rfl, fun x hx => by cases hx; exact h0⟩
  | swtch => exact ⟨rfl, nofun, fun h => absurd rfl (h _), nofun⟩
  | _ => exact ⟨rfl, nofun, fun _ => rfl, nofun⟩

/-- A scheduler switches to the process it has picked. -/
theorem Core.step_enter (h : Core s) (hon : s.on c = none) {i : Fin n} {rest : List (Fin n)}
    (hl : s.spc c = .swtch i rest) : Core (s.smove c (.enter i) (.back i rest)) := by
  obtain ⟨hst, hoff⟩ := h.starting c i hon (by rw [hl]; rfl)
  have hres := h.off i hoff
  have honc : (s.smove c (.enter i) (.back i rest)).on c = some i := Function.update_self ..
  have hon' : ∀ c', c' ≠ c → (s.smove c (.enter i) (.back i rest)).on c' = s.on c' :=
    fun c' hc => Function.update_of_ne hc ..
  have hspcc : (s.smove c (.enter i) (.back i rest)).spc c = .back i rest :=
    Function.update_self ..
  have hspc : ∀ c', c' ≠ c → (s.smove c (.enter i) (.back i rest)).spc c' = s.spc c' :=
    fun c' hc => Function.update_of_ne hc ..
  have hcases : ∀ c' q, (s.smove c (.enter i) (.back i rest)).on c' = some q →
      c' = c ∧ q = i ∨ c' ≠ c ∧ s.on c' = some q := by
    intro c' q hq
    by_cases hc : c' = c
    · rw [hc, honc] at hq
      exact .inl ⟨hc, (Option.some.inj hq).symm⟩
    · exact .inr ⟨hc, hon' c' hc ▸ hq⟩
  have hnone : ∀ c', (s.smove c (.enter i) (.back i rest)).on c' = none →
      c' ≠ c ∧ s.on c' = none := by
    intro c' hc'
    have hc : c' ≠ c := by
      rintro rfl
      rw [honc] at hc'
      cases hc'
    exact ⟨hc, hon' c' hc ▸ hc'⟩
  refine ⟨h.wf, fun c' => ?_, fun x c' => ?_, fun c' q hq => ?_, fun c₁ c₂ q h1 h2 => ?_,
    fun q hq => ?_, fun c' q hq => ?_, fun c' hc => ?_, fun c' q hq => ?_, fun c' j hc hj => ?_,
    fun c' j hc hj => ?_, fun q hq => ?_⟩
  · by_cases hc : c' = c
    · rw [hc, hspcc]
      trivial
    · rw [hspc c' hc]
      exact h.swf c'
  · show s.lock x = some c' ↔ _
    rw [h.lock]
    by_cases hc : c' = c
    · rw [hc, State.held_off hon, State.held_on honc, hl]
      show _ ↔ x ∈ (s.pc i).holds i
      rw [hres.holds]
      rfl
    · rw [State.held, State.held, hon' c' hc, hspc c' hc]
      exact Iff.rfl
  · rcases hcases c' q hq with ⟨rfl, rfl⟩ | ⟨hc, hq⟩
    · exact ⟨rest, hspcc⟩
    · rw [hspc c' hc]
      exact h.back c' q hq
  · rcases hcases c₁ q h1 with ⟨rfl, rfl⟩ | ⟨-, h3⟩
    · rcases hcases c₂ q h2 with ⟨rfl, -⟩ | ⟨-, h4⟩
      · rfl
      · exact absurd h4 (hoff c₂)
    · rcases hcases c₂ q h2 with ⟨-, rfl⟩ | ⟨-, h4⟩
      · exact absurd h3 (hoff c₁)
      · exact h.once c₁ c₂ q h3 h4
  · refine h.off q fun c' hc => ?_
    have hcc : c' ≠ c := by
      rintro rfl
      rw [hon] at hc
      cases hc
    exact hq c' ((hon' c' hcc).trans hc)
  · show s.cur c' = some q
    rcases hcases c' q hq with ⟨rfl, rfl⟩ | ⟨hc, hq⟩
    · rw [h.cur_off c' hon, hl]
      rfl
    · exact h.cur_on c' q hq
  · obtain ⟨hcc, hc⟩ := hnone c' hc
    rw [hspc c' hcc]
    exact h.cur_off c' hc
  · show (s.tab.proc q).state = _ ↔ (s.pc q).leaving = false
    rcases hcases c' q hq with ⟨rfl, rfl⟩ | ⟨hc, hq⟩
    · rw [hst, hres.leaving]
      exact ⟨fun _ => rfl, fun _ => rfl⟩
    · exact h.running c' q hq
  · obtain ⟨hcc, hc0⟩ := hnone c' hc
    rw [hspc c' hcc] at hj
    obtain ⟨hsj, hnot⟩ := h.starting c' j hc0 hj
    refine ⟨hsj, fun c₁ h1 => ?_⟩
    rcases hcases c₁ j h1 with ⟨rfl, rfl⟩ | ⟨-, h3⟩
    · -- two schedulers do not pick the same process
      refine hcc (h.unique (x := .proc j) ?_ ?_)
      · rw [State.held_off hc0]
        exact SLoc.holds_of_cur (.inr hj)
      · rw [State.held_off hon, hl]
        exact List.mem_singleton.2 rfl
    · exact hnot c₁ h3
  · obtain ⟨hcc, hc⟩ := hnone c' hc
    rw [hspc c' hcc] at hj
    exact h.returning c' j hc hj
  · obtain ⟨c', hc⟩ := h.exec q hq
    by_cases hcc : c' = c
    · refine ⟨c, .inl ?_⟩
      rw [hcc, hon, hl] at hc
      rcases hc with hc | ⟨-, hc⟩
      · cases hc
      · rw [honc]
        exact hc
    · exact ⟨c', by rw [hon' c' hcc, hspc c' hcc]; exact hc⟩

variable [NeZero n]

theorem State.step_cases {s' : State n C} {ch : Choice} (h : s.step c ch = some s') :
    (∃ p e k, s.on c = some p ∧ Does c p s (s.pc p) e k ∧ s' = s.move c p e k) ∨
      ∃ e k, s.on c = none ∧ SDoes c s (s.spc c) e k ∧ s' = s.smove c e k := by
  rw [State.step] at h
  split at h
  · next p hp =>
    obtain ⟨⟨e, k⟩, hx, rfl⟩ := Option.map_eq_some_iff.1 h
    exact .inl ⟨p, e, k, hp, does hx, rfl⟩
  · next hp =>
    obtain ⟨⟨e, k⟩, hx, rfl⟩ := Option.map_eq_some_iff.1 h
    exact .inr ⟨e, k, hp, sdoes hx, rfl⟩

theorem Does.plain {l k : Loc n} (h : Does c p s l e k) :
    e.onCur c s.cur = s.cur ∧ (e ≠ .leave → e.onOn c s.on = s.on) ∧
      ∀ x, e = .acquire x → s.lock x = none := by
  cases h with
  | acquire h0 => exact ⟨rfl, fun _ => rfl, fun x hx => by cases hx; exact h0⟩
  | sched => exact ⟨rfl, fun h => absurd rfl h, nofun⟩
  | _ => exact ⟨rfl, fun _ => rfl, nofun⟩

/-- The threads on other CPUs stay where they are. -/
theorem Core.pc_move (h : Core s) (hon : s.on c = some p) {k : Loc n}
    (hd : Does c p s (s.pc p) e k) (ha : ∀ ev, e = .event ev → ev.Allowed s.tab) {q : Fin n}
    (hq : q ≠ p) : (s.move c p e k).pc q = s.pc q ∨
      (∃ pid, e = .event (.claim q pid)) ∧ (s.move c p e k).pc q = .forkret ∧
        ∀ c', s.on c' ≠ some q := by
  have hpc : (s.move c p e k).pc q = e.onPc s.pc q := Function.update_of_ne hq ..
  rw [hpc]
  cases e with
  | event ev =>
    cases ev with
    | claim i pid =>
      by_cases hi : q = i
      · refine .inr ⟨⟨pid, by rw [hi]⟩, ?_, fun c' hc => ?_⟩
        · rw [hi]
          exact Function.update_self ..
        · have hun := (ha _ rfl).1
          have hheld : Lk.proc i ∈ s.held c := by
            rw [State.held_on hon]
            exact hd.needs.1 _ (by simp [Event.needs])
          rw [hi] at hc
          have := h.off_of_held (by rw [hun]; decide) hheld hc
          rw [this, hon] at hc
          exact hq (hi.trans (Option.some.inj hc).symm)
      · exact .inl (Function.update_of_ne hi ..)
    | _ => exact .inl rfl
  | _ => exact .inl rfl

theorem Does.running_move {l k : Loc n} (hd : Does c p s l e k)
    (ha : ∀ ev, e = .event ev → ev.Allowed s.tab) (q : Fin n) :
    ((s.move c p e k).tab.proc q).state = .running ↔ (s.tab.proc q).state = .running ∧
      ¬ (q = p ∧ ∃ ev, e = .event ev ∧ ev.stops = some p) := by
  cases e with
  | event ev =>
    obtain ⟨-, hst, hrun⟩ := hd.needs
    show ((ev.apply s.tab).proc q).state = .running ↔ _
    rw [(ha ev rfl).running q, or_iff_left (hrun q)]
    refine and_congr_right fun _ => not_congr ⟨fun hq => ?_, fun hq => ?_⟩
    · rcases hst with hst | hst
      · rw [hst] at hq
        cases hq
      · rw [hst] at hq
        exact ⟨(Option.some.inj hq).symm, ev, rfl, hst⟩
    · obtain ⟨hqp, ev', he, hst⟩ := hq
      cases he
      rw [hqp]
      exact hst
  | _ => exact (and_iff_left fun hq => by obtain ⟨-, ev, he, -⟩ := hq; cases he).symm

/-- A step of a thread that stays on its CPU. -/
theorem Core.step_move (h : Core s) (hon : s.on c = some p) {k : Loc n}
    (hd : Does c p s (s.pc p) e k) (ha : ∀ ev, e = .event ev → ev.Allowed s.tab)
    (he : e ≠ .leave) : Core (s.move c p e k) := by
  obtain ⟨hcur, hon', hfree⟩ := hd.plain
  replace hon' : (s.move c p e k).on = s.on := hon' he
  replace hcur : (s.move c p e k).cur = s.cur := hcur
  have hspc : (s.move c p e k).spc = s.spc := rfl
  have hpcp : (s.move c p e k).pc p = k := Function.update_self ..
  have hpc := fun q (hq : q ≠ p) => h.pc_move hon hd ha hq
  have hpcon : ∀ c' q, s.on c' = some q → q ≠ p → (s.move c p e k).pc q = s.pc q :=
    fun c' q hc hq => (hpc q hq).resolve_right fun hcl => hcl.2.2 c' hc
  have hne : ∀ c' q, c' ≠ c → s.on c' = some q → q ≠ p :=
    fun c' q hc hq hqp => hc (h.once c' c p (hqp ▸ hq) hon)
  have hrun := hd.running_move ha
  have hwf := h.wf p
  refine ⟨fun q => ?_, h.swf, ?_, ?_, ?_, fun q hq => ?_, ?_, ?_, fun c' q hq => ?_,
    fun c' i hc hi => ?_,
    fun c' i hc hi => ?_, fun q hq => ?_⟩
  · by_cases hq : q = p
    · rw [hq, hpcp]
      exact hd.wf hwf
    · rcases hpc q hq with hs | ⟨-, hs, -⟩
      · rw [hs]
        exact h.wf q
      · rw [hs]
        trivial
  · refine Eff.Locks.onLock h.lock ?_ (fun c' hc => ?_) hfree
    · rw [State.held_on hon, State.held_on (by rw [hon']; exact hon), hpcp]
      exact hd.locks hwf
    · rw [State.held, State.held, hon', hspc]
      cases hq : s.on c' with
      | none => rfl
      | some q =>
        show ((s.move c p e k).pc q).holds q = (s.pc q).holds q
        rw [hpcon c' q hq (hne c' q hc hq)]
  · rw [hon']
    exact h.back
  · rw [hon']
    exact h.once
  · rw [hon'] at hq
    have hqp : q ≠ p := fun he => hq c (he ▸ hon)
    rcases hpc q hqp with hs | ⟨-, hs, -⟩
    · rw [hs]
      exact h.off q hq
    · rw [hs]
      exact ⟨rfl, rfl, rfl, rfl⟩
  · rw [hon', hcur]
    exact h.cur_on
  · rw [hon', hcur]
    exact h.cur_off
  · rw [hon'] at hq
    rw [hrun q]
    by_cases hqp : q = p
    · subst hqp
      rw [hpcp, Bool.eq_false_iff, ne_eq, hd.leaving hwf he, h.running c' q hq, not_or,
        Bool.eq_false_iff]
      exact and_congr_right fun _ => not_congr (and_iff_right rfl)
    · rw [hpcon c' q hq hqp, and_iff_left fun hx => hqp hx.1]
      exact h.running c' q hq
  · rw [hon'] at hc ⊢
    obtain ⟨hst, hoff⟩ := h.starting c' i hc hi
    exact ⟨(hrun i).2 ⟨hst, fun hx => hoff c (hx.1 ▸ hon)⟩, hoff⟩
  · rw [hon'] at hc
    exact fun hst => h.returning c' i hc hi ((hrun i).1 hst).1
  · rw [hon']
    exact h.exec q ((hrun q).1 hq).1

theorem SDoes.running_smove {l k : SLoc n} (hd : SDoes c s l e k) (q : Fin n) :
    ((s.smove c e k).tab.proc q).state = .running ↔
      (s.tab.proc q).state = .running ∨ e = .event (.run q) := by
  cases e with
  | event ev =>
    obtain ⟨-, hst, hal⟩ := hd.needs
    show ((ev.apply s.tab).proc q).state = .running ↔ _
    rw [hal.running q, hst, and_iff_left nofun, Eff.event.injEq]
  | _ => exact (or_iff_left nofun).symm

/-- A step of a scheduler that stays on its CPU. -/
theorem Core.step_smove (h : Core s) (hon : s.on c = none) {k : SLoc n}
    (hd : SDoes c s (s.spc c) e k) (he : ∀ i, e ≠ .enter i) : Core (s.smove c e k) := by
  obtain ⟨hpc, -, hon', hfree⟩ := hd.plain
  replace hon' : (s.smove c e k).on = s.on := hon' he
  replace hpc : (s.smove c e k).pc = s.pc := hpc
  have hspcc : (s.smove c e k).spc c = k := Function.update_self ..
  have hspc : ∀ c', c' ≠ c → (s.smove c e k).spc c' = s.spc c' :=
    fun c' hc => Function.update_of_ne hc ..
  have hne : ∀ c' q, s.on c' = some q → c' ≠ c := by
    rintro c' q hq rfl
    rw [hon] at hq
    cases hq
  have hwf := h.swf c
  have hrun := hd.running_smove
  obtain ⟨hret, hstarts⟩ := hd.starts hwf he
  refine ⟨by rw [hpc]; exact h.wf, fun c' => ?_, ?_, fun c' q hq => ?_, by rw [hon']; exact h.once,
    by rw [hon', hpc]; exact h.off, fun c' q hq => ?_, fun c' hc => ?_, fun c' q hq => ?_,
    fun c' i hc hi => ?_, fun c' i hc hi => ?_, fun q hq => ?_⟩
  · by_cases hc : c' = c
    · rw [hc, hspcc]
      exact hd.wf hwf
    · rw [hspc c' hc]
      exact h.swf c'
  · refine Eff.Locks.onLock h.lock ?_ (fun c' hc => ?_) hfree
    · rw [State.held_off hon, State.held_off (by rw [hon']; exact hon), hspcc]
      exact hd.locks hwf
    · rw [State.held, State.held, hon', hpc, hspc c' hc]
  · rw [hon'] at hq
    rw [hspc c' (hne c' q hq)]
    exact h.back c' q hq
  · rw [hon'] at hq
    have : (s.smove c e k).cur c' = s.cur c' := by
      cases e with
      | cur o => exact Function.update_of_ne (hne c' q hq) ..
      | _ => rfl
    rw [this]
    exact h.cur_on c' q hq
  · rw [hon'] at hc
    have hkeep := h.cur_off c' hc
    by_cases hcc : c' = c
    · rw [hcc, hspcc]
      rw [hcc] at hkeep
      rcases hd.cur hwf with ⟨o, rfl, ho⟩ | ⟨i, hi⟩ | ⟨hno, hcur⟩
      · rw [ho]
        exact Function.update_self ..
      · exact absurd hi (he i)
      · rw [hcur, ← hkeep]
        cases e with
        | cur o => exact absurd rfl (hno o)
        | _ => rfl
    · rw [hspc c' hcc, ← hkeep]
      cases e with
      | cur o => exact Function.update_of_ne hcc ..
      | _ => rfl
  · rw [hon'] at hq
    rw [hpc, hrun q, ← h.running c' q hq]
    refine or_iff_left fun hr => ?_
    -- the scheduler holds the lock of the process it picks, and that process is runnable
    subst hr
    obtain ⟨hneeds, -, hal⟩ := hd.needs
    have hheld : Lk.proc q ∈ s.held c := by
      rw [State.held_off hon]
      exact hneeds _ (by simp [Event.needs])
    refine hne c' q hq (h.off_of_held ?_ hheld hq)
    rw [show (s.tab.proc q).state = _ from hal]
    decide
  · rw [hon'] at hc ⊢
    have hold : (s.spc c').starts = some i → ((s.smove c e k).tab.proc i).state = .running ∧
        ∀ c', s.on c' ≠ some i := by
      intro hs
      obtain ⟨hst, hoff⟩ := h.starting c' i hc hs
      exact ⟨(hrun i).2 (.inl hst), hoff⟩
    by_cases hcc : c' = c
    · rw [hcc, hspcc] at hi
      rcases (hstarts i).1 hi with hs | hr
      · exact hold (hcc ▸ hs)
      · refine ⟨(hrun i).2 (.inr hr), fun c₁ h1 => ?_⟩
        subst hr
        obtain ⟨hneeds, -, hal⟩ := hd.needs
        have hheld : Lk.proc i ∈ s.held c := by
          rw [State.held_off hon]
          exact hneeds _ (by simp [Event.needs])
        refine hne c₁ i h1 (h.off_of_held ?_ hheld h1)
        rw [show (s.tab.proc i).state = _ from hal]
        decide
    · rw [hspc c' hcc] at hi
      exact hold hi
  · rw [hon'] at hc
    by_cases hcc : c' = c
    · rw [hcc, hspcc, hret] at hi
      cases hi
    · rw [hspc c' hcc] at hi
      have hnot := h.returning c' i hc hi
      rw [ne_eq, hrun i, not_or]
      refine ⟨hnot, fun hr => ?_⟩
      subst hr
      -- that scheduler holds the lock
      have h1 : Lk.proc i ∈ s.held c := by
        rw [State.held_off hon]
        exact hd.needs.1 _ (by simp [Event.needs])
      have h2 : Lk.proc i ∈ s.held c' := by
        rw [State.held_off hc]
        refine SLoc.holds_of_cur (.inl ?_)
        revert hi
        cases s.spc c' <;> simp [SLoc.returns, SLoc.cur]
      exact hcc (h.unique h2 h1)
  · rw [hon']
    rcases (hrun q).1 hq with hs | hr
    · obtain ⟨c', hc⟩ := h.exec q hs
      refine ⟨c', hc.imp_right fun hx => ⟨hx.1, ?_⟩⟩
      by_cases hcc : c' = c
      · rw [hcc, hspcc, hstarts]
        exact .inl (hcc ▸ hx.2)
      · rw [hspc c' hcc]
        exact hx.2
    · exact ⟨c, .inr ⟨hon, by rw [hspcc, hstarts]; exact .inr hr⟩⟩

end

end Xv6.Sched
