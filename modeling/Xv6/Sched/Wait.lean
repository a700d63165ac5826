import Xv6.Sched.Table

/-!
# No lost exit

A parent that sleeps in `wait` has no zombie child.  The difficulty is that `exit` wakes the
parent before the child becomes a zombie.  What makes it right is `wait_lock`, which both hold
meanwhile: a parent *dozes* from the end of its scan until it is woken, it starts to doze with
`wait_lock` held and falls asleep with `p->lock` held, so a child that has gone through
`wakeup(p->parent)` holding `wait_lock` knows that its parent does not doze, and will not before
the child is a zombie (`NoLost.told`).  When `reparent` hands a zombie to a dozing `init`, the
exiting process still owes `init` a wakeup, and keeps `wait_lock` until it is done
(`NoLost.lost`).
-/

set_option autoImplicit false

namespace Xv6.Sched

variable {n : Nat} {C : Type}

/-! ## Points of `wait` and `exit` -/

/-- Is the thread in `wait`, done with its scan and not woken since?  `st` is the state of its
process. -/
def Loc.dozes (st : ProcState) : Loc n → Bool
  | .waitKilled _ | .sleep (.wait _) | .sleeping (.wait _) => true
  | .awake (.wait _) => st = .sleeping
  | .acquire _ k | .release _ k | .wakeup _ _ k | .wake _ _ _ k | .sched k | .yielding k =>
    k.dozes st
  | _ => false

/-- The slots that `wakeup(p->parent)` of `exit` has still to look at. -/
def Loc.untold : Loc n → Option (List (Fin n))
  | .zombie _ => some []
  | .wakeup _ rest k => k.untold.map fun _ => rest
  | .wake _ i rest k => k.untold.map fun _ => i :: rest
  | .acquire _ k | .release _ k | .sched k | .yielding k => k.untold
  | _ => none

/-- That wakeup is one of `parent`. -/
def Loc.Tells (parent : Option (Fin n)) : Loc n → Prop
  | .wakeup ch _ k | .wake ch _ _ k =>
    (k.untold ≠ none → ch = parent.map .proc) ∧ k.Tells parent
  | .acquire _ k | .release _ k | .sched k | .yielding k => k.Tells parent
  | _ => True

/-- Is the thread at the head of the loop of `reparent`? -/
def Loc.reparents : Loc n → Bool
  | .reparent _ _ => true
  | _ => false

/-- Is the thread in `reparent`, about to wake `init`? -/
def Loc.Owes [NeZero n] : Loc n → Prop
  | .wakeup ch rest k => (ch = some (.proc 0) ∧ k.reparents = true) ∧ 0 ∈ rest
  | .wake ch i rest k => (ch = some (.proc 0) ∧ k.reparents = true) ∧ 0 ∈ i :: rest
  | .acquire _ k | .release _ k => k.Owes
  | _ => False

/-- The locks held while a thread dozes or owes a wakeup, now and wherever it returns to. -/
def Loc.Guarded [NeZero n] (p : Fin n) (l : Loc n) : Prop :=
  ((l.dozes .sleeping = true → .wait ∈ l.holds p ∨ .proc p ∈ l.holds p) ∧
    (l.Owes → .wait ∈ l.holds p)) ∧
  match l with
  | .acquire _ k | .release _ k | .wakeup _ _ k | .wake _ _ _ k | .sched k | .yielding k =>
    k.Guarded p
  | _ => True

section

variable {t : Table n} {ev : Event n} {i : Fin n}

theorem Event.sleeping_apply (h : ((ev.apply t).proc i).state = .sleeping)
    (hs : ∀ ch, ev ≠ .sleep i ch) : (t.proc i).state = .sleeping ∧
      (ev ≠ .tidy i → ((ev.apply t).proc i).chan = (t.proc i).chan) := by
  cases ev <;> simp only [Event.apply, Table.setProc, Table.setParent, freeproc,
    Function.update_apply] at h ⊢ <;> grind [freed]

theorem Event.Allowed.live_apply [NeZero n] (ha : ev.Allowed t) (h : (t.proc i).state.live)
    (hd : ev.dies ≠ some i) : ((ev.apply t).proc i).state.live := by
  cases ev <;> simp only [Event.apply, Event.Allowed, Table.setProc, Table.setParent, freeproc,
    Function.update_apply] at ha ⊢ <;> grind [ProcState.live, Event.dies]

end

/-- A process keeps its parent until it is handed to `init`. -/
theorem Eff.parent_keep [NeZero n] {t : Table n} {e : Eff n} {i : Fin n}
    (ha : ∀ ev, e = .event ev → ev.Allowed t) (h : (t.proc i).state.live)
    (hg : ∀ q, e ≠ .event (.giveUp i q)) : (e.onTab t).parent i = t.parent i := by
  cases e with
  | event ev =>
    replace ha := ha ev rfl
    cases ev <;> simp only [Eff.onTab, Event.apply, Event.Allowed, Table.setProc, Table.setParent,
      freeproc, Function.update_apply] at ha ⊢ <;> grind [ProcState.live]
  | _ => rfl

section

variable {p : Fin n} {l : Loc n} {st st' : ProcState}

theorem Loc.dozes_mono (h : st' = .sleeping → st = .sleeping) (hd : l.dozes st' = true) :
    l.dozes st = true := by
  induction l with
  | awake b =>
    cases b with
    | wait a => exact decide_eq_true (h (of_decide_eq_true hd))
    | other ch lk x => cases hd
  | acquire x k ih => exact ih hd
  | release x k ih => exact ih hd
  | wakeup ch rest k ih => exact ih hd
  | wake ch i rest k ih => exact ih hd
  | sched k ih => exact ih hd
  | yielding k ih => exact ih hd
  | sleep b => cases b <;> exact hd
  | sleeping b => cases b <;> exact hd
  | _ => exact hd

theorem Loc.relies_of_untold {rest : List (Fin n)} (h : l.untold = some rest) :
    .wait ∈ l.relies := by
  induction l generalizing rest with
  | zombie st => exact List.mem_singleton.2 rfl
  | acquire x k ih => exact ih h
  | release x k ih => exact ih h
  | wakeup ch todo k ih =>
    obtain ⟨r, hr, -⟩ := Option.map_eq_some_iff.1 h
    exact ih hr
  | wake ch i todo k ih =>
    obtain ⟨r, hr, -⟩ := Option.map_eq_some_iff.1 h
    exact ih hr
  | sched k ih => exact ih h
  | yielding k ih => exact ih h
  | _ => cases h

theorem Loc.untold_of_relies (h : .wait ∉ l.relies) : l.untold = none :=
  Option.eq_none_iff_forall_not_mem.2 fun _ hr => h (Loc.relies_of_untold hr)

/-- Where the thread is not about to become a zombie, the parent does not matter. -/
theorem Loc.Tells.of_relies {o o' : Option (Fin n)} (h : l.Tells o) (hr : .wait ∉ l.relies) :
    l.Tells o' := by
  induction l with
  | wakeup ch todo k ih => exact ⟨fun hu => absurd (k.untold_of_relies hr) hu, ih h.2 hr⟩
  | wake ch i todo k ih => exact ⟨fun hu => absurd (k.untold_of_relies hr) hu, ih h.2 hr⟩
  | acquire x k ih => exact ih h hr
  | release x k ih => exact ih h hr
  | sched k ih => exact ih h hr
  | yielding k ih => exact ih h hr
  | _ => trivial

variable [NeZero n]

theorem Loc.status_of_owes (h : l.Owes) : l.status ≠ none := by
  have hre : ∀ k : Loc n, k.reparents = true → k.status ≠ none := by
    intro k hk
    cases k with
    | reparent rest x => nofun
    | _ => cases hk
  induction l with
  | acquire x k ih => exact ih h
  | release x k ih => exact ih h
  | wakeup ch rest k => exact hre k h.1.2
  | wake ch i rest k => exact hre k h.1.2
  | _ => cases h

theorem Loc.Guarded.dozes (h : l.Guarded p) (hd : l.dozes st = true) :
    .wait ∈ l.holds p ∨ .proc p ∈ l.holds p := by
  have hs : l.dozes .sleeping = true := Loc.dozes_mono (fun _ => rfl) hd
  cases l <;> exact h.1.1 hs

theorem Loc.Guarded.owes (h : l.Guarded p) (ho : l.Owes) : .wait ∈ l.holds p := by
  cases l <;> exact h.1.2 ho

/-- One slot of `wakeup` is done. -/
theorem Loc.Guarded.woken {ch : Option (Chan n)} {i : Fin n} {rest : List (Fin n)} {k : Loc n}
    (h : (Loc.wake ch i rest k).Guarded p) :
    (Loc.release (.proc i) (.wakeup ch rest k)).Guarded p := by
  have hre : (ch = some (.proc 0) ∧ k.reparents = true) → .wait ∈ k.holds p := by
    rintro ⟨-, hk⟩
    cases k with
    | reparent todo x => exact List.mem_singleton.2 rfl
    | _ => cases hk
  have hdo : k.dozes .sleeping = true → .wait ∈ k.holds p ∨ .proc p ∈ k.holds p := h.2.dozes
  refine ⟨⟨fun hd => ?_, fun ho => ?_⟩, ⟨hdo, fun ho => hre ho.1⟩, h.2⟩
  · exact (hdo hd).imp (List.mem_cons_of_mem _) (List.mem_cons_of_mem _)
  · exact List.mem_cons_of_mem _ (hre ho.1)

/-- A thread that dozes and does not run sleeps in `wait`. -/
theorem Loc.Guarded.awake (h : l.Guarded p) (hd : l.dozes st = true) (hr : l.Resumes p) :
    (∃ a, l = .awake (.wait a)) ∧ st = .sleeping := by
  have ha := hr.after
  have hh := hr.holds
  cases l with
  | awake b =>
    cases b with
    | wait a => exact ⟨⟨a, rfl⟩, of_decide_eq_true hd⟩
    | other ch lk x => cases hd
  | release x k =>
    have hk := h.2.dozes hd
    rw [Loc.holds, List.cons.injEq] at hh
    rw [hh.2] at hk
    exact hk.elim (fun h => by cases h) (fun h => by cases h)
  | forkret => cases hd
  | dead => cases hd
  | _ => cases ha

end

/-! ## The thread's own steps -/

section

variable [NeZero n] {c : C} {p : Fin n} {s : State n C} {l k : Loc n} {e : Eff n}

theorem Does.guarded (h : Does c p s l e k) (hg : l.Guarded p) : k.Guarded p := by
  cases h with
  | acquire h0 => exact hg.2
  | release => exact hg.2
  | wakeupEnd => exact hg.2
  | sched => exact hg.2
  | interrupt ch h0 => exact ⟨⟨hg.dozes, fun ho => by cases ho.1.1⟩, hg⟩
  | preempt h0 =>
    have hd : ∀ st, l.dozes st ≠ true := by
      intro st hd
      have := hg.dozes hd
      rw [h0] at this
      exact this.elim nofun nofun
    exact ⟨⟨fun hd' => absurd hd' (hd _), nofun⟩, ⟨fun hd' => absurd hd' (hd _), nofun⟩, hg⟩
  | wakeupSelf h0 =>
    refine ⟨⟨hg.2.dozes, fun ho => ?_⟩, hg.2⟩
    exact hg.owes ⟨ho.1, List.mem_cons_of_mem _ ho.2⟩
  | @wakeup ch i rest k =>
    have hh : (Loc.acquire (.proc i) (.wake ch i rest k)).holds p = k.holds p :=
      List.erase_cons_head ..
    have hdo : k.dozes .sleeping = true → .wait ∈ k.holds p ∨ .proc p ∈ k.holds p := hg.2.dozes
    refine ⟨⟨fun hd => ?_, fun ho => ?_⟩, ⟨fun hd => ?_, fun ho => ?_⟩, hg.2⟩
    · rw [hh]
      exact hdo hd
    · rw [hh]
      exact hg.owes ho
    · exact (hdo hd).imp (List.mem_cons_of_mem _) (List.mem_cons_of_mem _)
    · exact List.mem_cons_of_mem _ (hg.owes ho)
  | wake h0 => exact hg.woken
  | noWake h0 => exact hg.woken
  | yielding =>
    have hp : ∀ k : Loc n, Lk.proc p ∈ (Loc.release (.proc p) k).holds p :=
      fun k => List.mem_cons_self
    exact ⟨⟨fun _ => .inr (List.mem_singleton.2 rfl), nofun⟩, ⟨fun _ => .inr (hp _), fun ho => by
      exact List.mem_cons_of_mem _ (hg.2.owes ho)⟩, hg.2⟩
  | @sleep b =>
    cases b with
    | wait a => simp [Loc.Guarded, Loc.dozes, Loc.Owes, Loc.holds, Sleeper.lk]
    | other ch lk x => simp [Loc.Guarded, Loc.dozes, Loc.Owes]
  | @awake b =>
    cases b <;> simp [Loc.Guarded, Loc.dozes, Loc.Owes, Sleeper.back]
  | _ => simp [Loc.Guarded, Loc.dozes, Loc.Owes, Loc.holds, Loc.reparents, Sleeper.lk]

/-- A thread starts to doze at the end of its scan. -/
theorem Does.dozes (h : Does c p s l e k) {st st' : ProcState} (hd : k.dozes st' = true)
    (hst : (∀ ch, e ≠ .event (.sleep p ch)) → st' = .sleeping → st = .sleeping) :
    l.dozes st = true ∨ e = .nop ∧ ∃ addr, l = .waitScan [] true addr := by
  cases h with
  | haveKids => exact .inr ⟨rfl, _, rfl⟩
  | waitSleep => exact .inl rfl
  | @sleep b =>
    cases b with
    | wait a => exact .inl rfl
    | other ch lk x => cases hd
  | @sleeping b =>
    cases b with
    | wait a => exact .inl rfl
    | other ch lk x => cases hd
  | @awake b => cases b <;> cases hd
  | interrupt ch h0 => exact .inl (Loc.dozes_mono (hst nofun) hd)
  | preempt h0 => exact .inl (Loc.dozes_mono (l := l) (hst nofun) hd)
  | @acquire x k h0 => exact .inl (Loc.dozes_mono (l := k) (hst nofun) hd)
  | @release x k => exact .inl (Loc.dozes_mono (l := k) (hst nofun) hd)
  | @wakeupEnd ch k => exact .inl (Loc.dozes_mono (l := k) (hst nofun) hd)
  | @wakeupSelf ch i rest k h0 => exact .inl (Loc.dozes_mono (l := k) (hst nofun) hd)
  | @wakeup ch i rest k => exact .inl (Loc.dozes_mono (l := k) (hst nofun) hd)
  | @wake ch i rest k h0 => exact .inl (Loc.dozes_mono (l := k) (hst nofun) hd)
  | @noWake ch i rest k h0 => exact .inl (Loc.dozes_mono (l := k) (hst nofun) hd)
  | @sched k => exact .inl (Loc.dozes_mono (l := k) (hst nofun) hd)
  | @yielding k => exact .inl (Loc.dozes_mono (l := k) (hst nofun) hd)
  | _ => cases hd

/-- How the slots that `wakeup(p->parent)` has still to look at become fewer. -/
theorem Does.untold (h : Does c p s l e k) (hw : l.Wf p) {rest : List (Fin n)} {r : Fin n}
    (hu : k.untold = some rest) (hr : r ∉ rest) :
    (∃ rest', l.untold = some rest' ∧ r ∉ rest') ∨ s.cur c = some r ∨
      ∃ ch todo j, l = .wake ch r todo j ∧ j.untold ≠ none := by
  have hnone : l.holds p = [] → l.untold = none := fun h0 =>
    Loc.untold_of_relies (by rw [hw.relies_nil h0]; exact List.not_mem_nil)
  -- one slot is done
  have hcons : ∀ {i : Fin n} {todo : List (Fin n)}, r ∉ todo → r ≠ i → r ∉ i :: todo :=
    fun h1 h2 hm => (List.mem_cons.1 hm).elim h2 h1
  cases h with
  | interrupt ch h0 =>
    rw [Loc.untold, hnone h0] at hu
    cases hu
  | preempt h0 => exact .inl ⟨rest, hu, hr⟩
  | acquire h0 => exact .inl ⟨rest, hu, hr⟩
  | release => exact .inl ⟨rest, hu, hr⟩
  | sched => exact .inl ⟨rest, hu, hr⟩
  | yielding => exact .inl ⟨rest, hu, hr⟩
  | wakeupEnd => exact .inl ⟨[], by rw [Loc.untold, hu]; rfl, List.not_mem_nil⟩
  | wakeup => exact .inl ⟨rest, hu, hr⟩
  | @wakeupSelf ch i todo k h0 =>
    obtain ⟨x, hx, rfl⟩ := Option.map_eq_some_iff.1 hu
    by_cases hri : r = i
    · exact .inr (.inl (hri ▸ h0))
    · exact .inl ⟨i :: todo, by rw [Loc.untold, hx]; rfl, hcons hr hri⟩
  | @wake ch i todo k h0 =>
    obtain ⟨x, hx, rfl⟩ := Option.map_eq_some_iff.1 hu
    by_cases hri : r = i
    · exact .inr (.inr ⟨ch, todo, k, by rw [hri], by rw [hx]; nofun⟩)
    · exact .inl ⟨i :: todo, by rw [Loc.untold, hx]; rfl, hcons hr hri⟩
  | @noWake ch i todo k h0 =>
    obtain ⟨x, hx, rfl⟩ := Option.map_eq_some_iff.1 hu
    by_cases hri : r = i
    · exact .inr (.inr ⟨ch, todo, k, by rw [hri], by rw [hx]; nofun⟩)
    · exact .inl ⟨i :: todo, by rw [Loc.untold, hx]; rfl, hcons hr hri⟩
  | tellParent =>
    cases hu
    exact absurd (List.mem_finRange r) hr
  | @awake b => cases b <;> cases hu
  | _ => cases hu

theorem Does.tells (h : Does c p s l e k) (hw : l.Wf p) (ht : l.Tells (s.tab.parent p)) :
    k.Tells (s.tab.parent p) := by
  cases h with
  | interrupt ch h0 =>
    refine ⟨fun hu => absurd (Loc.untold_of_relies ?_) hu, ht⟩
    rw [hw.relies_nil h0]
    exact List.not_mem_nil
  | preempt h0 => exact ht
  | acquire h0 => exact ht
  | release => exact ht
  | sched => exact ht
  | yielding => exact ht
  | wakeupEnd => exact ht.2
  | wakeupSelf h0 => exact ht
  | wakeup => exact ht
  | wake h0 => exact ht
  | noWake h0 => exact ht
  | tellParent => exact ⟨fun _ => rfl, trivial⟩
  | giveUp h0 => exact ⟨fun hu => absurd rfl hu, trivial⟩
  | lockedWakeup ch => exact ⟨fun hu => absurd rfl hu, trivial⟩
  | @awake b => cases b <;> trivial
  | _ => trivial

/-- A thread that owes `init` a wakeup still does, or wakes it now. -/
theorem Does.owes (h : Does c p s l e k) (hg : l.Guarded p) (ho : l.Owes) :
    k.Owes ∨ s.cur c = some 0 ∨ ∃ todo j, l = .wake (some (.proc 0)) 0 todo j := by
  have hwait := hg.owes ho
  cases h with
  | interrupt ch h0 =>
    rw [h0] at hwait
    cases hwait
  | preempt h0 =>
    rw [h0] at hwait
    cases hwait
  | acquire h0 => exact .inl ho
  | release => exact .inl ho
  | wakeupEnd => cases ho.2
  | @wakeupSelf ch i todo k h0 =>
    by_cases hi : i = 0
    · exact .inr (.inl (hi ▸ h0))
    · exact .inl ⟨ho.1, (List.mem_cons.1 ho.2).resolve_left (Ne.symm hi)⟩
  | wakeup => exact .inl ho
  | @wake ch i todo k h0 =>
    by_cases hi : i = 0
    · exact .inr (.inr ⟨todo, k, by rw [hi, ho.1.1]⟩)
    · exact .inl ⟨ho.1, (List.mem_cons.1 ho.2).resolve_left (Ne.symm hi)⟩
  | @noWake ch i todo k h0 =>
    by_cases hi : i = 0
    · exact .inr (.inr ⟨todo, k, by rw [hi, ho.1.1]⟩)
    · exact .inl ⟨ho.1, (List.mem_cons.1 ho.2).resolve_left (Ne.symm hi)⟩
  | _ => cases ho

/-! ### What a step does to the table -/

/-- Only the thread itself puts a process to sleep. -/
theorem Does.sleeping_tab (h : Does c p s l e k) {r : Fin n}
    (hs : ((e.onTab s.tab).proc r).state = .sleeping) :
    (r = p ∧ ∃ b, e = .event (.sleep p (b.chan p)) ∧ k = .sched (.awake b) ∧
        ((e.onTab s.tab).proc r).chan = some (b.chan r)) ∨
      (s.tab.proc r).state = .sleeping ∧
        (r ≠ p → ((e.onTab s.tab).proc r).chan = (s.tab.proc r).chan) := by
  cases e with
  | event ev =>
    by_cases hev : ∃ ch, ev = .sleep r ch
    · obtain ⟨ch, rfl⟩ := hev
      cases h with
      | sleeping => exact .inl ⟨rfl, _, rfl, rfl, by simp [Eff.onTab, Event.apply]⟩
    · obtain ⟨h1, h2⟩ := Event.sleeping_apply hs fun ch he => hev ⟨ch, he⟩
      refine .inr ⟨h1, fun hr => h2 ?_⟩
      rintro rfl
      cases h
      exact hr rfl
  | _ => exact .inr ⟨hs, fun _ => rfl⟩

theorem Does.live_tab (h : Does c p s l e k) (ha : ∀ ev, e = .event ev → ev.Allowed s.tab)
    {r : Fin n} (hl : (s.tab.proc r).state.live) :
    ((e.onTab s.tab).proc r).state.live ∨ r = p ∧ ∃ st, l = .zombie st := by
  cases e with
  | event ev =>
    by_cases hd : ev.dies = some r
    · cases h <;> cases hd
      exact .inr ⟨rfl, _, rfl⟩
    · exact .inl ((ha ev rfl).live_apply hl hd)
  | _ => exact .inl hl

theorem Does.zombie_tab (h : Does c p s l e k) {r : Fin n}
    (hz : ((e.onTab s.tab).proc r).state = .zombie) :
    (s.tab.proc r).state = .zombie ∨ r = p ∧ ∃ st, l = .zombie st := by
  cases e with
  | event ev =>
    refine (Event.zombie_apply hz).imp_right fun hd => ?_
    cases h <;> cases hd
    exact ⟨rfl, _, rfl⟩
  | _ => exact .inl hz

/-- Who gets a parent: a new process, or one that is handed to `init`. -/
theorem Does.parent_tab (h : Does c p s l e k) (ha : ∀ ev, e = .event ev → ev.Allowed s.tab)
    {q r : Fin n} (hp : (e.onTab s.tab).parent q = some r) : s.tab.parent q = some r ∨
      (.wait ∈ l.holds p ∧ k.untold = none) ∧ (((e.onTab s.tab).proc q).state = .used ∨
        (r = 0 ∧ k.Owes) ∧ l.reparents = true ∧ s.tab.parent q = some p) := by
  cases e with
  | event ev =>
    rcases Event.parent_apply hp with hp | rfl | rfl
    · exact .inl hp
    · have hu := (ha _ rfl).1
      cases h
      exact .inr ⟨⟨List.mem_singleton.2 rfl, rfl⟩, .inl hu⟩
    · have h0 := (ha _ rfl).1
      cases h with
      | giveUp h1 =>
        exact .inr ⟨⟨List.mem_singleton.2 rfl, rfl⟩,
          .inr ⟨⟨h0, ⟨rfl, rfl⟩, List.mem_finRange _⟩, rfl, h1⟩⟩
  | _ => exact .inl hp

end

/-! ## The invariant -/

/-- The process is in `wait`, done with its scan and not woken since. -/
def State.Dozing (s : State n C) (r : Fin n) : Prop :=
  (s.pc r).dozes (s.tab.proc r).state = true

/-- No exit is lost. -/
structure NoLost [NeZero n] (s : State n C) : Prop where
  guarded : ∀ r, (s.pc r).Guarded r
  asleep : ∀ r, (s.tab.proc r).state = .sleeping →
    ∃ b, (s.pc r = .sched (.awake b) ∨ s.pc r = .awake b) ∧ (s.tab.proc r).chan = some (b.chan r)
  lost : ∀ q r, s.tab.parent q = some r → (s.tab.proc q).state = .zombie → s.Dozing r →
    r = 0 ∧ ∃ t, (s.tab.proc t).state.live ∧ (s.pc t).Owes
  told : ∀ t r rest, (s.tab.proc t).state.live → (s.pc t).untold = some rest →
    s.tab.parent t = some r → r ∉ rest → ¬ s.Dozing r
  tells : ∀ t, (s.tab.proc t).state.live → (s.pc t).Tells (s.tab.parent t)

section

variable [NeZero n] [DecidableEq C] {s : State n C} {c : C} {p : Fin n} {e : Eff n} {k : Loc n}
  (hi : Inv s) (hon : s.on c = some p) (hd : Does c p s (s.pc p) e k)

include hi hon hd

/-- The other threads stay where they are, or are new. -/
theorem Inv.pc_other {q : Fin n} (hq : q ≠ p) : (s.move c p e k).pc q = s.pc q ∨
    (s.tab.proc q).state = .unused ∧ (s.move c p e k).pc q = .forkret := by
  refine (hi.core.pc_move hon hd (hi.allowed hon hd) hq).imp_right ?_
  rintro ⟨⟨pid, rfl⟩, hs, -⟩
  exact ⟨(hi.allowed hon hd _ rfl).1, hs⟩

/-- Who lives after a step of another thread: a new process is at its start. -/
theorem Inv.live_other {q : Fin n} (hq : q ≠ p)
    (hl : (((s.move c p e k).tab).proc q).state.live) :
    (s.tab.proc q).state.live ∧ (s.move c p e k).pc q = s.pc q ∨
      (s.move c p e k).pc q = .forkret := by
  by_cases he : ∃ ev, e = .event ev
  · obtain ⟨ev, rfl⟩ := he
    rcases hi.live_cases hon hd hl with h | ⟨-, h⟩ | ⟨-, -, h⟩
    · exact absurd h hq
    · exact .inl h
    · exact .inr h
  · have htab : (s.move c p e k).tab = s.tab := by
      cases e with
      | event ev => exact absurd ⟨ev, rfl⟩ he
      | _ => rfl
    rw [htab] at hl
    refine .inl ⟨hl, (hi.pc_other hon hd hq).resolve_right fun hx => ?_⟩
    exact live_ne_unused hl hx.1

theorem Inv.live_self (hl : ((s.move c p e k).tab.proc p).state.live) :
    (s.tab.proc p).state.live := by
  refine (hi.started c p hon).resolve_right fun hz => ?_
  cases e with
  | event ev =>
    rw [hd.running hi hon] at hz
    cases hz
  | _ => exact live_ne_zombie hl hz

theorem Inv.dozing_move {r : Fin n} (h : (s.move c p e k).Dozing r) :
    s.Dozing r ∨ r = p ∧ e = .nop ∧ ∃ addr, s.pc p = .waitScan [] true addr := by
  by_cases hr : r = p
  · subst hr
    rw [State.Dozing, show (s.move c r e k).pc r = k from Function.update_self ..] at h
    refine (hd.dozes h fun he hs => ?_).imp_right fun hx => ⟨rfl, hx⟩
    rcases hd.sleeping_tab hs with ⟨-, b, hb, -⟩ | hs
    · exact absurd hb (he _)
    · exact hs.1
  · rcases hi.pc_other hon hd hr with hs | ⟨-, hs⟩
    · rw [State.Dozing, hs] at h
      refine .inl (Loc.dozes_mono (fun hst => ?_) h)
      exact (hd.sleeping_tab hst).elim (fun hx => absurd hx.1 hr) fun hx => hx.1
    · rw [State.Dozing, hs] at h
      cases h

/-- **`wakeup` wakes a parent that dozes**, if `wait_lock` is held. -/
theorem NoLost.woken (h : NoLost s) {i : Fin n} {todo : List (Fin n)} {j : Loc n} (hip : i ≠ p)
    (hl : s.pc p = .wake (some (.proc i)) i todo j) (hw : .wait ∈ (s.pc p).holds p) :
    ¬ (s.move c p e k).Dozing i := by
  intro hdoze
  have hheld : s.held c = (s.pc p).holds p := State.held_on hon
  have hdo : s.Dozing i := by
    refine (hi.dozing_move hon hd hdoze).resolve_right fun hx => ?_
    exact hip hx.1
  have hpc : (s.move c p e k).pc i = s.pc i := by
    refine (hi.pc_other hon hd hip).resolve_right fun hx => ?_
    rw [State.Dozing, hx.2] at hdoze
    cases hdoze
  by_cases hoff : ∀ c', s.on c' ≠ some i
  · obtain ⟨⟨a, ha⟩, hst⟩ := (h.guarded i).awake hdo (hi.core.off i hoff)
    obtain ⟨b, hb, hch⟩ := h.asleep i hst
    have hbw : b = .wait a := by
      rw [ha] at hb
      rcases hb with hb | hb <;> cases hb
      rfl
    subst hbw
    have hst' : ((s.move c p e k).tab.proc i).state = .sleeping := by
      rw [State.Dozing, hpc, ha] at hdoze
      exact of_decide_eq_true hdoze
    rw [hl] at hd
    cases hd with
    | interrupt ch h0 => cases h0
    | preempt h0 => cases h0
    | wake h0 =>
      rw [show (s.move c p (.event (.wake i)) _).tab = (Event.wake i).apply s.tab from rfl] at hst'
      simp [Event.apply] at hst'
    | noWake h0 => exact h0 ⟨hst, hch⟩
  · -- a parent that dozes on a CPU holds `wait_lock` or its own lock, and so does `p`
    obtain ⟨c', hc⟩ := not_forall_not.1 hoff
    have hcc : c' = c := by
      rcases (h.guarded i).dozes hdo with hx | hx
      · exact hi.core.unique (State.held_on hc ▸ hx) (hheld ▸ hw)
      · refine hi.core.unique (State.held_on hc ▸ hx) (hheld ▸ ?_)
        rw [hl]
        exact List.mem_cons_self
    rw [hcc, hon] at hc
    exact hip (Option.some.inj hc).symm

omit hd in
/-- The lock that what a thread knows rests on is not held by another. -/
theorem Inv.not_relies {q : Fin n} (hq : q ≠ p) {x : Lk n} (hx : x ∈ (s.pc p).holds p) :
    x ∉ (s.pc q).relies := by
  intro hr
  obtain ⟨c', hc, hh⟩ := hi.relies hr
  rw [hi.core.unique hh (State.held_on hon ▸ hx), hon] at hc
  exact hq (Option.some.inj hc).symm

theorem NoLost.asleep_move (h : NoLost s) {r : Fin n}
    (hs : ((s.move c p e k).tab.proc r).state = .sleeping) :
    ∃ b, ((s.move c p e k).pc r = .sched (.awake b) ∨ (s.move c p e k).pc r = .awake b) ∧
      ((s.move c p e k).tab.proc r).chan = some (b.chan r) := by
  have hpcp : (s.move c p e k).pc p = k := Function.update_self ..
  rcases hd.sleeping_tab hs with ⟨rfl, b, -, hk, hch⟩ | ⟨hst, hch⟩
  · exact ⟨b, .inl (hpcp.trans hk), hch⟩
  · obtain ⟨b, hb, hc⟩ := h.asleep r hst
    by_cases hr : r = p
    · -- it has gone to sleep and leaves the CPU
      subst hr
      rcases hb with hb | hb
      · rw [hb] at hd
        cases hd with
        | interrupt ch h0 => cases h0
        | preempt h0 => cases h0
        | sched => exact ⟨b, .inr hpcp, hc⟩
      · have := (hi.core.running c r hon).2 (by rw [hb]; rfl)
        rw [hst] at this
        cases this
    · refine ⟨b, ?_, (hch hr).trans hc⟩
      rw [(hi.pc_other hon hd hr).resolve_right fun hx => by rw [hst] at hx; cases hx.1]
      exact hb

theorem NoLost.lost_move (h : NoLost s) {q r : Fin n}
    (hp : (s.move c p e k).tab.parent q = some r)
    (hz : ((s.move c p e k).tab.proc q).state = .zombie) (hdo : (s.move c p e k).Dozing r) :
    r = 0 ∧ ∃ t, ((s.move c p e k).tab.proc t).state.live ∧ ((s.move c p e k).pc t).Owes := by
  have hal := hi.allowed hon hd
  have hpcp : (s.move c p e k).pc p = k := Function.update_self ..
  have hrun : (s.pc p).leaving = false → (s.tab.proc p).state.live := by
    intro hl
    rw [(hi.core.running c p hon).2 hl]
    rfl
  rcases hi.dozing_move hon hd hdo with hdr | ⟨rfl, rfl, addr, hsc⟩
  · rcases hd.parent_tab hal hp with hpq | ⟨-, hu | ⟨⟨h0, ho⟩, hre, hpq⟩⟩
    · rcases hd.zombie_tab hz with hz | ⟨rfl, st, hst⟩
      · obtain ⟨h0, t, hlt, hot⟩ := h.lost q r hpq hz hdr
        refine ⟨h0, t, ?_⟩
        by_cases htp : t = p
        · subst htp
          rcases hd.owes (h.guarded t) hot with hk | hcur | ⟨todo, j, hj⟩
          · refine ⟨(hd.live_tab hal hlt).resolve_right fun hx => ?_, by rw [hpcp]; exact hk⟩
            obtain ⟨-, st, hst⟩ := hx
            rw [hst] at hot
            cases hot
          · rw [hi.core.cur_on c t hon] at hcur
            obtain ⟨st, hst⟩ := Option.ne_none_iff_exists'.1 (Loc.status_of_owes hot)
            exact absurd (Option.some.inj hcur) (hi.exiting t st hlt hst).1
          · obtain ⟨st, hst⟩ := Option.ne_none_iff_exists'.1 (Loc.status_of_owes hot)
            have ht0 := (hi.exiting t st hlt hst).1
            refine absurd (h0 ▸ hdo) (NoLost.woken hi hon hd h ht0.symm hj ?_)
            exact (h.guarded t).owes hot
        · refine ⟨(hd.live_tab hal hlt).resolve_right fun hx => htp hx.1, ?_⟩
          rw [(hi.pc_other hon hd htp).resolve_right fun hx => live_ne_unused hlt hx.1]
          exact hot
      · -- the child becomes a zombie: its parent does not doze
        refine absurd hdr (h.told q r [] (hrun ?_) ?_ hpq List.not_mem_nil)
        · rw [hst]
          rfl
        · rw [hst]
          rfl
    · rw [show ((s.move c p e k).tab.proc q).state = .used from hu] at hz
      cases hz
    · refine ⟨h0, p, ?_, by rw [hpcp]; exact ho⟩
      refine (hd.live_tab hal (hi.tab.parent_live q p hpq)).resolve_right fun hx => ?_
      obtain ⟨-, st, hst⟩ := hx
      rw [hst] at hre
      cases hre
  · have hf := hi.fact r (hrun (by rw [hsc]; rfl))
    rw [hsc] at hf
    exact absurd hz (hf.1 q List.not_mem_nil hp)

theorem NoLost.told_move (h : NoLost s) {t r : Fin n} {rest : List (Fin n)}
    (hl : ((s.move c p e k).tab.proc t).state.live)
    (hu : ((s.move c p e k).pc t).untold = some rest)
    (hp : (s.move c p e k).tab.parent t = some r) (hr : r ∉ rest) :
    ¬ (s.move c p e k).Dozing r := by
  intro hdo
  have hal := hi.allowed hon hd
  have hpcp : (s.move c p e k).pc p = k := Function.update_self ..
  by_cases htp : t = p
  · subst htp
    rw [hpcp] at hu
    have hlt := hi.live_self hon hd hl
    have hpt : s.tab.parent t = some r :=
      (hd.parent_tab hal hp).resolve_right fun hx => by rw [hx.1.2] at hu; cases hu
    have hrt : r ≠ t := (hi.tab.parent_ne t r hpt).symm
    have hdr : s.Dozing r := (hi.dozing_move hon hd hdo).resolve_right fun hx => hrt hx.1
    rcases hd.untold (hi.core.wf t) hu hr with ⟨rest', hu', hr'⟩ | hcur | ⟨ch, todo, j, hj, hju⟩
    · exact h.told t r rest' hlt hu' hpt hr' hdr
    · rw [hi.core.cur_on c t hon] at hcur
      exact hrt (Option.some.inj hcur).symm
    · have htell := h.tells t hlt
      rw [hj] at htell
      have hch : ch = some (.proc r) := by rw [htell.1 hju, hpt]; rfl
      rw [hch] at hj
      refine NoLost.woken hi hon hd h hrt hj ((hi.core.wf t).relies _ ?_) hdo
      obtain ⟨x, hx⟩ := Option.ne_none_iff_exists'.1 hju
      rw [hj]
      exact Loc.relies_of_untold (l := j) hx
  · rcases hi.live_other hon hd htp hl with ⟨hlt, hpc⟩ | hpc
    · rw [hpc] at hu
      -- `t` holds `wait_lock`, so the step is not one that needs it
      have hno : .wait ∉ (s.pc p).holds p := fun hx =>
        Inv.not_relies hi hon htp hx (Loc.relies_of_untold hu)
      have hpt : s.tab.parent t = some r :=
        (hd.parent_tab hal hp).resolve_right fun hx => hno hx.1.1
      rcases hi.dozing_move hon hd hdo with hdr | ⟨-, -, addr, hsc⟩
      · exact h.told t r rest hlt hu hpt hr hdr
      · rw [hsc] at hno
        exact hno (List.mem_singleton.2 rfl)
    · rw [hpc] at hu
      cases hu

theorem NoLost.tells_move (h : NoLost s) {t : Fin n}
    (hl : ((s.move c p e k).tab.proc t).state.live) :
    ((s.move c p e k).pc t).Tells ((s.move c p e k).tab.parent t) := by
  have hpcp : (s.move c p e k).pc p = k := Function.update_self ..
  by_cases htp : t = p
  · subst htp
    have hlt := hi.live_self hon hd hl
    have hpt : (s.move c t e k).tab.parent t = s.tab.parent t := by
      refine Eff.parent_keep (hi.allowed hon hd) hlt ?_
      rintro q rfl
      generalize s.pc t = l at hd
      cases hd with
      | giveUp h0 => exact hi.tab.parent_ne t t h0 rfl
    rw [hpcp, hpt]
    exact hd.tells (hi.core.wf t) (h.tells t hlt)
  · rcases hi.live_other hon hd htp hl with ⟨hlt, hpc⟩ | hpc
    · rw [hpc]
      by_cases hw : .wait ∈ (s.pc p).holds p
      · exact (h.tells t hlt).of_relies (Inv.not_relies hi hon htp hw)
      · rw [show (s.move c p e k).tab.parent t = s.tab.parent t from
          Eff.parent_keep (hi.allowed hon hd) hlt ?_]
        · exact h.tells t hlt
        · rintro q rfl
          exact hw (hd.needs.1 _ (List.mem_singleton.2 rfl))
    · rw [hpc]
      trivial

/-- **No step of a thread loses an exit.** -/
theorem NoLost.step_move (h : NoLost s) : NoLost (s.move c p e k) := by
  refine ⟨fun r => ?_, fun r => NoLost.asleep_move hi hon hd h,
    fun q r => NoLost.lost_move hi hon hd h, fun t r rest => NoLost.told_move hi hon hd h,
    fun t => NoLost.tells_move hi hon hd h⟩
  by_cases hr : r = p
  · rw [hr, show (s.move c p e k).pc p = k from Function.update_self ..]
    exact hd.guarded (h.guarded p)
  · rcases hi.pc_other hon hd hr with hs | ⟨-, hs⟩
    · rw [hs]
      exact h.guarded r
    · rw [hs]
      exact ⟨⟨nofun, nofun⟩, trivial⟩

end

section

variable [NeZero n] [DecidableEq C] {s : State n C} {c : C}

/-- A scheduler puts no process to sleep. -/
theorem SDoes.sleeping_tab {e : Eff n} {l k : SLoc n} (hd : SDoes c s l e k) (r : Fin n) :
    (((s.smove c e k).tab.proc r).state = .sleeping → (s.tab.proc r).state = .sleeping) ∧
      ((s.smove c e k).tab.proc r).chan = (s.tab.proc r).chan ∧
      (s.smove c e k).tab.parent r = s.tab.parent r := by
  have hset : ∀ (i : Fin n) (x : Proc n), x.state ≠ .sleeping → x.chan = (s.tab.proc i).chan →
      (((s.tab.setProc i x).proc r).state = .sleeping → (s.tab.proc r).state = .sleeping) ∧
        ((s.tab.setProc i x).proc r).chan = (s.tab.proc r).chan ∧
        (s.tab.setProc i x).parent r = s.tab.parent r := by
    intro i x hx hc
    by_cases hr : r = i
    · rw [hr, Table.setProc_self]
      exact ⟨fun h => absurd h hx, hc, rfl⟩
    · rw [Table.setProc_of_ne _ hr]
      exact ⟨id, rfl, rfl⟩
  cases hd with
  | wake h => exact hset _ _ nofun rfl
  | run h => exact hset _ _ nofun rfl
  | _ => exact ⟨id, rfl, rfl⟩

theorem NoLost.step_sched (h : NoLost s) {e : Eff n} {k : SLoc n}
    (hd : SDoes c s (s.spc c) e k) : NoLost (s.smove c e k) := by
  have hpc : (s.smove c e k).pc = s.pc := hd.plain.1
  have hlive : ∀ q, ((s.smove c e k).tab.proc q).state.live = (s.tab.proc q).state.live := by
    intro q
    rcases (hd.table q).1 with he | ⟨h1, h2⟩
    · rw [he]
    · rw [h1, h2]
  have hdoze : ∀ r, (s.smove c e k).Dozing r → s.Dozing r := by
    intro r hr
    rw [State.Dozing, hpc] at hr
    exact Loc.dozes_mono (hd.sleeping_tab r).1 hr
  refine ⟨by rw [hpc]; exact h.guarded, fun r hs => ?_, fun q r hp hz hr => ?_,
    fun t r rest hl hu hp hn hr => ?_, fun t hl => ?_⟩
  · obtain ⟨h1, h2, -⟩ := hd.sleeping_tab r
    rw [hpc, h2]
    exact h.asleep r (h1 hs)
  · rw [(hd.sleeping_tab q).2.2] at hp
    have hz' : (s.tab.proc q).state = .zombie := by
      rcases (hd.table q).1 with he | ⟨h1, -⟩
      · exact he ▸ hz
      · rw [hz] at h1
        cases h1
    obtain ⟨h0, t, hl, ho⟩ := h.lost q r hp hz' (hdoze r hr)
    exact ⟨h0, t, by rw [hlive]; exact hl, by rw [hpc]; exact ho⟩
  · rw [hlive] at hl
    rw [hpc] at hu
    rw [(hd.sleeping_tab t).2.2] at hp
    exact h.told t r rest hl hu hp hn (hdoze r hr)
  · rw [hlive] at hl
    rw [hpc, (hd.sleeping_tab t).2.2]
    exact h.tells t hl

theorem noLost_boot : NoLost (boot : State n C) := by
  refine ⟨fun _ => ⟨⟨nofun, nofun⟩, trivial⟩, fun r hr => ?_, nofun, nofun, fun _ _ => trivial⟩
  by_cases h0 : r = 0
  · rw [h0] at hr
    rw [show (boot : State n C).tab = userinit from rfl, userinit_init] at hr
    cases hr
  · rw [show (boot : State n C).tab = userinit from rfl, userinit_free h0] at hr
    cases hr

theorem Reach.noLost (hr : Reach s) (hb : s.tab.allocated < 2 ^ 31) : NoLost s := by
  induction hr with
  | boot => exact noLost_boot
  | @step s s' c ch hs h ih =>
    rcases State.step_cases h with ⟨p, e, k, hon, hd, rfl⟩ | ⟨e, k, hon, hd, rfl⟩
    · have hb' : s.tab.allocated < 2 ^ 31 := by
        cases e with
        | event ev => exact Nat.lt_of_le_of_lt Event.allocated_le hb
        | _ => exact hb
      exact NoLost.step_move (hs.inv hb') hon hd (ih hb')
    · have hb' : s.tab.allocated < 2 ^ 31 := by
        cases e with
        | event ev => exact Nat.lt_of_le_of_lt Event.allocated_le hb
        | _ => exact hb
      exact (ih hb').step_sched hd

/-- A process that has a wakeup to make under `wait_lock` holds it. -/
theorem NoLost.lock_of_owes (h : NoLost s) (hc : Core s) {t : Fin n} (ho : (s.pc t).Owes) :
    s.lock .wait ≠ none := by
  intro hf
  have hw := (h.guarded t).owes ho
  by_cases hoff : ∀ c', s.on c' ≠ some t
  · rw [(hc.off t hoff).holds, List.mem_singleton] at hw
    cases hw
  · obtain ⟨c', hon⟩ := not_forall_not.1 hoff
    rw [← State.held_on hon, ← hc.lock, hf] at hw
    cases hw

/-- What a step adds to the waits that have returned a pid. -/
theorem Inv.waits_step (h : Inv s) {s' : State n C} {ch : Choice} (hst : s.step c ch = some s') :
    s'.tab.waits = s.tab.waits ∨ ∃ w i, s'.tab.waits = w :: s.tab.waits ∧
      s.on c = some w.caller ∧
      s'.pc w.caller = .release (.proc i) (.waitReturn (.reaped w.pid w.status)) ∧
      s.tab.parent i = some w.caller ∧ (s.tab.proc i).state = .zombie ∧
      (s.tab.proc i).pid = w.pid ∧ ∀ st, w.status = some st → (w.pid, st) ∈ s.tab.exited := by
  rcases State.step_cases hst with ⟨p, e, k, hon, hd, rfl⟩ | ⟨e, k, hon, hd, rfl⟩
  · by_cases hr : ∃ i st, e = .event (.reap p i st)
    · obtain ⟨i, st, rfl⟩ := hr
      have hf : (s.pc p).Fact s.tab p := h.fact p (by rw [hd.running h hon]; rfl)
      have ha := h.allowed hon hd _ rfl
      have hpc : (s.move c p (.event (.reap p i st)) k).pc p = k := Function.update_self ..
      generalize s.pc p = l at hd hf
      cases hd with
      | @reap i pid st =>
        obtain ⟨⟨hpar, hz⟩, rfl, hx⟩ := hf
        refine .inr ⟨⟨p, _, st⟩, i, rfl, hon, hpc, hpar, hz, rfl, fun v hv => ?_⟩
        rw [hx v hv]
        exact h.tab.status i hz
    · refine .inl ?_
      generalize s.pc p = l at hd
      cases hd with
      | reap => exact absurd ⟨_, _, rfl⟩ hr
      | _ => rfl
  · refine .inl ?_
    generalize s.spc c = l at hd
    cases hd <;> rfl

/-- What `wait` knows when it returns. -/
theorem Inv.ret_fact (h : Inv s) {p : Fin n} {r : Ret n} (hon : s.on c = some p)
    (hp : s.pc p = .waitReturn r) : r.Fact s.tab p := by
  have hrun := (h.core.running c p hon).2 (by rw [hp]; rfl)
  have hf := h.fact p (by rw [hrun]; rfl)
  rw [hp] at hf
  exact hf

/-- A `wait` that is asked for the status and finds a zombie reports its status, or fails. -/
theorem State.step_child {s' : State n C} {ch : Choice} {p i : Fin n} {rest : List (Fin n)}
    (hst : s.step c ch = some s') (hon : s.on c = some p) (hp : s.pc p = .child i rest true)
    (hz : (s.tab.proc i).state = .zombie) :
    s'.pc p = .reap i (s.tab.proc i).pid (some (s.tab.proc i).xstate) ∨
      s'.pc p = .release (.proc i) (.waitReturn (.copyFails i)) := by
  rcases State.step_cases hst with ⟨q, e, k, hq, hd, rfl⟩ | ⟨e, k, hq, -, -⟩
  · obtain rfl : p = q := Option.some.inj (hon.symm.trans hq)
    rw [show (s.move c p e k).pc p = k from Function.update_self ..]
    rw [hp] at hd
    cases hd with
    | interrupt ch h0 => cases h0
    | preempt h0 => cases h0
    | childZombie h0 => exact .inl rfl
    | childAlive h0 => exact absurd hz h0
    | copyoutFails h0 => exact .inr rfl
  · rw [hon] at hq
    cases hq

/-- **Exit statuses are delivered exactly once.**  In every state that any number of CPUs reach, as
long as pids last: a step that completes a `wait` with a pid reaps a zombie child of the caller,
returns its pid, and reports the status it passed to `exit`, always if it was asked for one; a pid
exits with one status, and no two waits return it; `wait` returns -1 only to a process without
children, to one that has been killed, or if `copyout` fails, and then the zombie is still there;
and while `wait_lock` is free nobody who sleeps in `wait` has a zombie child. -/
theorem exit_status (hr : Reach s) (hb : s.tab.allocated < 2 ^ 31) :
    (∀ c ch s', s.step c ch = some s' → s'.tab.waits = s.tab.waits ∨
      ∃ w i, s'.tab.waits = w :: s.tab.waits ∧ s.on c = some w.caller ∧
        s'.pc w.caller = .release (.proc i) (.waitReturn (.reaped w.pid w.status)) ∧
        s.tab.parent i = some w.caller ∧ (s.tab.proc i).state = .zombie ∧
        (s.tab.proc i).pid = w.pid ∧ ∀ st, w.status = some st → (w.pid, st) ∈ s.tab.exited) ∧
    (∀ c ch s' p i rest, s.step c ch = some s' → s.on c = some p → s.pc p = .child i rest true →
      (s.tab.proc i).state = .zombie →
      s'.pc p = .reap i (s.tab.proc i).pid (some (s.tab.proc i).xstate) ∨
        s'.pc p = .release (.proc i) (.waitReturn (.copyFails i))) ∧
    (∀ pid st st', (pid, st) ∈ s.tab.exited → (pid, st') ∈ s.tab.exited → st = st') ∧
    (s.tab.waits.map Wait.pid).Nodup ∧
    (∀ c p pid st, s.on c = some p → s.pc p = .waitReturn (.reaped pid st) →
      ⟨p, pid, st⟩ ∈ s.tab.waits) ∧
    (∀ c p r, s.on c = some p → s.pc p = .waitReturn r → r.value = -1 →
      (∀ q, s.tab.parent q ≠ some p) ∨ (s.tab.proc p).killed = true ∨
        ∃ i, r = .copyFails i ∧ s.tab.parent i = some p ∧ (s.tab.proc i).state = .zombie) ∧
    ∀ p a, s.lock .wait = none → (s.tab.proc p).state = .sleeping →
      s.pc p = .awake (.wait a) ∨ s.pc p = .sched (.awake (.wait a)) →
      ∀ q, s.tab.parent q = some p → (s.tab.proc q).state ≠ .zombie := by
  have h := hr.inv hb
  have hn := hr.noLost hb
  refine ⟨fun c ch s' => h.waits_step, fun c ch s' p i rest => State.step_child,
    fun pid st st' h1 h2 => ?_, h.tab.waits_nodup, fun c p pid st hon hp => h.ret_fact hon hp,
    fun c p r hon hp hv => ?_, fun p a hf hs hp q hq hz => ?_⟩
  · exact congrArg Prod.snd (List.inj_on_of_nodup_map h.tab.exited_nodup h1 h2 rfl)
  · have hfact := h.ret_fact hon hp
    cases r with
    | noChildren => exact .inl hfact
    | killed => exact .inr (.inl hfact)
    | copyFails i => exact .inr (.inr ⟨i, rfl, hfact⟩)
    | reaped pid st =>
      have hpos : 0 < pid := (h.tab.waits _ hfact).1.1
      rw [show pid = -1 from hv] at hpos
      exact absurd hpos (by decide)
  · have hdo : s.Dozing p := by
      rw [State.Dozing, hs]
      rcases hp with hp | hp <;> rw [hp] <;> rfl
    obtain ⟨-, t, -, ho⟩ := hn.lost q p hq hz hdo
    exact hn.lock_of_owes h.core ho hf

end

/-! One CPU: `init` forks, and waits; its child exits, and `init` gets the status. -/

/-- Until `init` is at `freeproc(pp)`. -/
def reaping : List (Unit × Choice) :=
  [((), Choice.alt)] ++ goOn () 7 ++ [((), Choice.fork)] ++ goOn () 20 ++
    [((), Choice.wait true)] ++ goOn () 25 ++ [((), Choice.exit 7)] ++ goOn () 18 ++
    [((), Choice.alt)] ++ goOn () 13

theorem exit_status_reaping : ∃ s s' : State 2 Unit, boot.run reaping = some s ∧
    s.step () .go = some s' ∧ ∃ w i, s'.tab.waits = w :: s.tab.waits ∧
      s.tab.parent i = some w.caller ∧ (s.tab.proc i).state = .zombie ∧
      (s.tab.proc i).pid = w.pid ∧ ∀ st, w.status = some st → (w.pid, st) ∈ s.tab.exited := by
  have hrun : (((boot : State 2 Unit).run reaping).bind fun s => (s.step () .go).map fun s' =>
      (s.tab.allocated, s.tab.waits.length, s'.tab.waits.length)) = some (2, 0, 1) := by
    decide +kernel
  obtain ⟨s, hs, hm⟩ := Option.bind_eq_some_iff.1 hrun
  obtain ⟨s', hs', he⟩ := Option.map_eq_some_iff.1 hm
  simp only [Prod.mk.injEq] at he
  obtain ⟨ha, h0, h1⟩ := he
  rcases (exit_status (Reach.boot.run hs) (by rw [ha]; decide)).1 () .go s' hs' with hw | hw
  · rw [hw, h0] at h1
    cases h1
  · obtain ⟨w, i, hw, -, -, hrest⟩ := hw
    exact ⟨s, s', hs, hs', w, i, hw, hrest⟩

end Xv6.Sched
