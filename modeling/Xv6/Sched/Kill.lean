import Xv6.Sched.Table

/-!
# Who is killed

`kill(pid)` sets the `killed` flag of the first slot whose pid field is `pid`, whatever the state of
the slot.  `freeproc` leaves 0 there, so `kill(0)` finds a slot that is not in use; and
`allocproc`, which does not reset the flag, later hands that slot to a new process.  As long as
nobody calls `kill(0)`, and pids last, the flag of a process is set only on purpose.

Ctrl-C calls `kill_all_user_processes()`, in an interrupt; each turn of its loop is a step of its own
here, under the lock of the slot, as any CPU may take it.
-/

set_option autoImplicit false

namespace Xv6.Sched

variable {n : Nat} {C : Type}

/-! ## Ctrl-C -/

/-- One slot in `kill_all_user_processes()`. -/
def killUser (i : Fin n) (t : Table n) : Table n :=
  if (t.proc i).state ≠ .unused ∧ 2 < (t.proc i).pid then (Event.setkilled i).apply t else t

/-- What happens on a machine with a keyboard. -/
inductive Label (n : Nat) (C : Type)
  | cpu (c : C) (ch : Choice)
  | ctrlC (i : Fin n)

variable [NeZero n] [DecidableEq C]

namespace State

def keyStep (s : State n C) : Label n C → Option (State n C)
  | .cpu c ch => s.step c ch
  | .ctrlC i => if s.lock (.proc i) = none then some { s with tab := killUser i s.tab } else none

def keyRun (s : State n C) : List (Label n C) → Option (State n C)
  | [] => some s
  | l :: ls => (s.keyStep l).bind fun s' => s'.keyRun ls

end State

/-- The states reached by steps that `allow` allows. -/
inductive KeyReach (allow : Label n C → Prop) : State n C → Prop
  | boot : KeyReach allow boot
  | step {s s' : State n C} {l : Label n C} (hs : KeyReach allow s) (ha : allow l)
      (h : s.keyStep l = some s') : KeyReach allow s'

theorem KeyReach.run {allow : Label n C → Prop} {s s' : State n C} (hs : KeyReach allow s)
    {ls : List (Label n C)} (ha : ∀ l ∈ ls, allow l) (h : s.keyRun ls = some s') :
    KeyReach allow s' := by
  induction ls generalizing s with
  | nil => exact Option.some.inj h ▸ hs
  | cons l ls ih =>
    obtain ⟨s₁, h1, h⟩ := Option.bind_eq_some_iff.1 h
    exact ih (hs.step (ha l List.mem_cons_self) h1) (fun l hl => ha l (List.mem_cons_of_mem _ hl)) h

/-- Nobody calls `kill(0)`. -/
def NoKillZero : Label n C → Prop
  | .cpu _ (.kill pid) => pid ≠ 0
  | _ => True

/-! ## What an event does to the flag -/

section

variable {t : Table n} {ev : Event n} {i : Fin n}

omit [NeZero n] in
/-- The flag of a slot is set by `kill` and by `setkilled` alone. -/
theorem Event.killed_apply (h1 : ((ev.apply t).proc i).killed = true) :
    (t.proc i).killed = true ∨ ev = .kill i ∨ ev = .setkilled i := by
  cases ev <;> simp only [Event.apply, Table.setProc, Table.setParent, freeproc,
    Function.update_apply] at h1 <;> grind [freed]

omit [NeZero n] in
/-- A slot that is not in use was not before, or has just been freed. -/
theorem Event.unused_apply (h : ((ev.apply t).proc i).state = .unused) :
    ((t.proc i).state = .unused ∧ ((ev.apply t).proc i).pid = (t.proc i).pid) ∨
      ((ev.apply t).proc i).pid = 0 ∧ ((ev.apply t).proc i).killed = false := by
  cases ev <;> simp only [Event.apply, Table.setProc, Table.setParent, freeproc,
    Function.update_apply] at h ⊢ <;> grind [freed]

end

/-! ## Points at which a slot is being allocated -/

/-- The slot that `allocproc` has found, until `fork` releases its lock. -/
def Loc.fresh : Loc n → Option (Fin n)
  | .acquire .pid (.allocpid i) | .allocpid i | .release .pid (.found i _) | .found i _
  | .alloc i | .copy i => some i
  | _ => none

/-- There is nothing else between these points. -/
def Loc.Tidy : Loc n → Prop
  | .acquire x k => (k.fresh = none ∨ x = .pid ∧ ∃ i, k = .allocpid i) ∧ k.Tidy
  | .release x k => (k.fresh = none ∨ x = .pid ∧ ∃ i pid, k = .found i pid) ∧ k.Tidy
  | .wakeup _ _ k | .wake _ _ _ k | .sched k | .yielding k => k.fresh = none ∧ k.Tidy
  | _ => True

/-- The pid that the thread is to kill. -/
def Loc.target : Loc n → Option Int
  | .kill pid _ | .killing pid _ _ => some pid
  | .acquire _ k | .release _ k | .wakeup _ _ k | .wake _ _ _ k | .sched k | .yielding k =>
    k.target
  | _ => none

section

variable {c : C} {p i : Fin n} {s : State n C} {l k : Loc n} {e : Eff n}

omit [NeZero n] in
theorem Loc.holds_of_fresh (h : l.fresh = some i) : .proc i ∈ l.holds p := by
  unfold Loc.fresh at h
  split at h <;> cases h <;> simp [Loc.holds]

omit [NeZero n] in
/-- A thread that does not run is not allocating. -/
theorem Loc.Resumes.fresh (h : l.Resumes p) : l.fresh = none := by
  have ha := h.after
  have hh := h.holds
  unfold Loc.fresh
  split
  all_goals first | rfl | (cases ha; done) | simp [Loc.holds] at hh

omit [DecidableEq C] in
theorem Does.tidy (h : Does c p s l e k) (hl : l.Tidy) : k.Tidy := by
  have hfree : l.holds p = [] → l.fresh = none := by
    intro h0
    refine Option.eq_none_iff_forall_ne_some.2 fun i hi => ?_
    exact List.not_mem_nil (h0 ▸ Loc.holds_of_fresh (p := p) hi)
  cases h with
  | interrupt ch h0 => exact ⟨hfree h0, hl⟩
  | preempt h0 => exact ⟨.inl rfl, hfree h0, hl⟩
  | acquire h0 => exact hl.2
  | release => exact hl.2
  | wakeupEnd => exact hl.2
  | wakeupSelf h0 => exact hl
  | wakeup => exact ⟨.inl rfl, hl⟩
  | wake h0 => exact ⟨.inl rfl, hl⟩
  | noWake h0 => exact ⟨.inl rfl, hl⟩
  | sched => exact hl.2
  | yielding => exact ⟨rfl, .inl hl.1, hl.2⟩
  | @awake b => cases b <;> exact ⟨.inl rfl, .inl rfl, trivial⟩
  | _ => simp [Loc.Tidy, Loc.fresh]

omit [DecidableEq C] in
/-- How a thread comes to a point at which a slot is being allocated: from another, with an event
that leaves the flag alone, or it has just found that the slot is not in use. -/
theorem Does.fresh (h : Does c p s l e k) (hl : l.Tidy) (hk : k.fresh = some i) :
    (l.fresh = some i ∨ (s.tab.proc i).state = .unused) ∧
      e ≠ .event (.kill i) ∧ e ≠ .event (.setkilled i) := by
  cases h with
  | @acquire x k h0 =>
    refine ⟨.inl ?_, (fun he => by cases he), (fun he => by cases he)⟩
    rcases hl.1 with hn | ⟨rfl, j, rfl⟩
    · rw [hn] at hk
      cases hk
    · exact hk
  | @release x k =>
    refine ⟨.inl ?_, (fun he => by cases he), (fun he => by cases he)⟩
    rcases hl.1 with hn | ⟨rfl, j, pid, rfl⟩
    · rw [hn] at hk
      cases hk
    · exact hk
  | wakeupEnd =>
    rw [hl.1] at hk
    cases hk
  | sched =>
    rw [hl.1] at hk
    cases hk
  | testUnused h0 =>
    cases hk
    exact ⟨.inr h0, (fun he => by cases he), (fun he => by cases he)⟩
  | allocpid => exact ⟨.inl hk, (fun he => by cases he), (fun he => by cases he)⟩
  | found => exact ⟨.inl hk, (fun he => by cases he), (fun he => by cases he)⟩
  | alloc => exact ⟨.inl hk, (fun he => by cases he), (fun he => by cases he)⟩
  | _ => cases hk

omit [DecidableEq C] in
/-- A thread kills the pid that `kill` was called with. -/
theorem Does.target (h : Does c p s l e k) : k.target = l.target ∨ k.target = none ∨
    l = .running none ∧ ∃ pid, k = .kill pid (slots n) := by
  cases h with
  | @kill pid => exact .inr (.inr ⟨rfl, pid, rfl⟩)
  | @awake b => cases b <;> exact .inr (.inl rfl)
  | _ => first | exact .inl rfl | exact .inr (.inl rfl)

/-- The flag of a slot is set by a `kill` of its pid, or by its own thread. -/
theorem code_kills {ch : Choice} {ev : Event n} (h : code c p s l ch = some (.event ev, k))
    (he : ev = .kill i ∨ ev = .setkilled i) : ch = .go ∧
      ((∃ rest, l = .killing (s.tab.proc i).pid i rest) ∨ p = i ∧ l = .setkilled) := by
  rcases he with rfl | rfl
  · cases does h with
    | @killing pid i rest =>
      cases ch <;> simp [code, Loc.holds] at h
      rw [h]
      exact ⟨rfl, .inl ⟨rest, rfl⟩⟩
  · cases does h with
    | setkilledSet =>
      cases ch <;> simp [code, Loc.holds] at h
      exact ⟨rfl, .inr ⟨rfl, rfl⟩⟩

end

section

variable {c c' : C} {p q : Fin n} {s : State n C} {l k : Loc n} {e : Eff n}

/-- A step of a thread brings nobody else to a CPU. -/
theorem Does.on_of_move (h : Does c p s l e k) (hq : (s.move c p e k).on c' = some q) :
    s.on c' = some q := by
  by_cases he : e = .leave
  · subst he
    replace hq : Function.update s.on c none c' = some q := hq
    rw [Function.update_apply] at hq
    split at hq
    · cases hq
    · exact hq
  · rwa [show (s.move c p e k).on = s.on from h.plain.2.1 he] at hq

end

/-! ## The invariant -/

/-- Nobody is on the way to kill pid 0, and no slot that is not in use, or is being allocated, has
its flag set. -/
structure Untouched (s : State n C) : Prop where
  inv : Inv s
  tidy : ∀ p, (s.pc p).Tidy
  target : ∀ p, (s.pc p).target ≠ some 0
  unused : ∀ i, (s.tab.proc i).state = .unused →
    (s.tab.proc i).pid = 0 ∧ (s.tab.proc i).killed = false
  fresh : ∀ c p i, s.on c = some p → (s.pc p).fresh = some i → (s.tab.proc i).killed = false

section

variable {c : C} {p : Fin n} {s s' : State n C} {l k : Loc n} {e : Eff n}

omit [NeZero n] [DecidableEq C] in
/-- The flag after an effect. -/
theorem Eff.killed_onTab {i : Fin n} {t : Table n} (h : ((e.onTab t).proc i).killed = true) :
    (t.proc i).killed = true ∨ e = .event (.kill i) ∨ e = .event (.setkilled i) := by
  cases e with
  | event ev =>
    rcases Event.killed_apply h with hk | rfl | rfl
    · exact .inl hk
    · exact .inr (.inl rfl)
    · exact .inr (.inr rfl)
  | _ => exact .inl h

theorem Untouched.move {ch : Choice} (h : Untouched s) (hon : s.on c = some p)
    (hx : code c p s (s.pc p) ch = some (e, k)) (hc : NoKillZero (n := n) (C := C) (.cpu c ch))
    (hinv : Inv (s.move c p e k)) : Untouched (s.move c p e k) := by
  have hd := does hx
  have hal := h.inv.allowed hon hd
  have hpcp : (s.move c p e k).pc p = k := Function.update_self ..
  have hpc : ∀ q, q ≠ p → (s.move c p e k).pc q = s.pc q ∨
      (s.move c p e k).pc q = .forkret ∧ ∀ c', s.on c' ≠ some q := by
    intro q hq
    exact (h.inv.core.pc_move hon hd hal hq).imp_right fun hf => hf.2
  refine ⟨hinv, fun q => ?_, fun q => ?_, fun i hi => ?_, fun c' q i hq hf => ?_⟩
  · by_cases hqp : q = p
    · rw [hqp, hpcp]
      exact hd.tidy (h.tidy p)
    · rcases hpc q hqp with hq | ⟨hq, -⟩
      · rw [hq]
        exact h.tidy q
      · rw [hq]
        trivial
  · by_cases hqp : q = p
    · rw [hqp, hpcp]
      rcases hd.target with ht | ht | ⟨hl, pid, rfl⟩
      · rw [ht]
        exact h.target p
      · rw [ht]
        exact fun hn => by cases hn
      · rw [hl] at hx
        cases ch <;> simp [code, Loc.holds] at hx
        rw [← hx.2]
        exact fun ht => hc (Option.some.inj ht)
    · rcases hpc q hqp with hq | ⟨hq, -⟩
      · rw [hq]
        exact h.target q
      · rw [hq]
        exact fun hn => by cases hn
  · have hold : (s.tab.proc i).state = .unused → (s.tab.proc i).pid = 0 ∧
        ((s.move c p e k).tab.proc i).killed = false := by
      intro hu
      obtain ⟨hpid, hkilled⟩ := h.unused i hu
      refine ⟨hpid, eq_false_of_ne_true fun hk => ?_⟩
      have hset : ∀ ev, e = .event ev → ev = .kill i ∨ ev = .setkilled i → False := by
        rintro ev rfl he
        rcases (code_kills hx he).2 with ⟨rest, hl⟩ | ⟨rfl, -⟩
        · exact h.target p (by rw [hl, ← hpid]; rfl)
        · rw [hd.running h.inv hon] at hu
          cases hu
      rcases Eff.killed_onTab hk with hk | he | he
      · rw [hkilled] at hk
        cases hk
      · exact hset _ he (.inl rfl)
      · exact hset _ he (.inr rfl)
    cases e with
    | event ev =>
      rcases Event.unused_apply hi with ⟨hu, hp⟩ | hfreed
      · exact ⟨hp.trans (hold hu).1, (hold hu).2⟩
      · exact hfreed
    | _ => exact hold hi
  · have hkeep : (s.tab.proc i).killed = false → e ≠ .event (.kill i) →
        e ≠ .event (.setkilled i) → ((s.move c p e k).tab.proc i).killed = false := by
      intro h0 h1 h2
      refine eq_false_of_ne_true fun hk => ?_
      rcases Eff.killed_onTab hk with hk | he | he
      · rw [h0] at hk
        cases hk
      · exact h1 he
      · exact h2 he
    by_cases hqp : q = p
    · rw [hqp, hpcp] at hf
      obtain ⟨hor, h1, h2⟩ := hd.fresh (h.tidy p) hf
      refine hkeep ?_ h1 h2
      rcases hor with hl | hu
      · exact h.fresh c p i hon hl
      · exact (h.unused i hu).2
    · -- another thread that is allocating holds the lock of the slot
      have hq' : s.on c' = some q := hd.on_of_move hq
      rcases hpc q hqp with hq₁ | ⟨-, hoff⟩
      · rw [hq₁] at hf
        have hown : Lk.proc i ∈ s.held c' := by
          rw [State.held_on hq']
          exact Loc.holds_of_fresh hf
        have hne : ∀ ev, e = .event ev → Lk.proc i ∉ ev.needs := by
          rintro ev rfl hn
          have hmine : Lk.proc i ∈ s.held c := by
            rw [State.held_on hon]
            exact hd.needs.1 _ hn
          rw [h.inv.core.unique hown hmine, hon] at hq'
          exact hqp (Option.some.inj hq').symm
        exact hkeep (h.fresh c' q i hq' hf) (fun he => hne _ he (List.mem_singleton.2 rfl))
          (fun he => hne _ he (List.mem_singleton.2 rfl))
      · exact absurd hq' (hoff c')

/-- A step of a scheduler. -/
theorem Untouched.smove {k : SLoc n} (h : Untouched s) (hon : s.on c = none)
    (hd : SDoes c s (s.spc c) e k) : Untouched (s.smove c e k) := by
  have hpc : (s.smove c e k).pc = s.pc := hd.plain.1
  have hkeep : ∀ i, (s.tab.proc i).killed = false →
      ((s.smove c e k).tab.proc i).killed = false := by
    intro i h0
    refine eq_false_of_ne_true fun hk => ?_
    rcases Eff.killed_onTab hk with hk | rfl | rfl
    · rw [h0] at hk
      cases hk
    · generalize s.spc c = l at hd
      cases hd
    · generalize s.spc c = l at hd
      cases hd
  refine ⟨h.inv.step_sched hon hd, fun q => ?_, fun q => ?_, fun i hi => ?_, fun c' q i hq hf => ?_⟩
  · rw [hpc]
    exact h.tidy q
  · rw [hpc]
    exact h.target q
  · obtain ⟨hst, hp, -⟩ := hd.table i
    have hu : (s.tab.proc i).state = .unused := by
      rcases hst with hst | ⟨hl, -⟩
      · exact hst.symm.trans hi
      · rw [hi] at hl
        cases hl
    exact ⟨hp.trans (h.unused i hu).1, hkeep i (h.unused i hu).2⟩
  · rw [hpc] at hf
    refine hkeep i ?_
    by_cases he : ∃ j, e = .enter j
    · obtain ⟨j, rfl⟩ := he
      by_cases hc : c' = c
      · -- the process that starts was not allocating anything
        rw [hc, show (s.smove c (.enter j) k).on c = some j from Function.update_self ..] at hq
        cases hq
        generalize hl : s.spc c = l at hd
        cases hd
        rw [(h.inv.core.off q (h.inv.core.starting c q hon (by rw [hl]; rfl)).2).fresh] at hf
        cases hf
      · rw [show (s.smove c (.enter j) k).on c' = s.on c' from Function.update_of_ne hc ..] at hq
        exact h.fresh c' q i hq hf
    · have hon' : (s.smove c e k).on = s.on := hd.plain.2.2.1 fun i hi => he ⟨i, hi⟩
      rw [hon'] at hq
      exact h.fresh c' q i hq hf

/-- Setting the flag of a slot that nobody has locked keeps the invariant. -/
theorem Inv.setkilled (h : Inv s) {i : Fin n} (hl : s.lock (.proc i) = none) :
    Inv { s with tab := (Event.setkilled i).apply s.tab } := by
  have hst : ∀ q, (((Event.setkilled i).apply s.tab).proc q).state = (s.tab.proc q).state := by
    intro q
    show (Function.update s.tab.proc i _ q).state = _
    rw [Function.update_apply]
    split
    · next hq => rw [hq]
    · rfl
  have hpid : ∀ q, (((Event.setkilled i).apply s.tab).proc q).pid = (s.tab.proc q).pid := by
    intro q
    show (Function.update s.tab.proc i _ q).pid = _
    rw [Function.update_apply]
    split
    · next hq => rw [hq]
    · rfl
  have ha : (Event.setkilled i).Allowed s.tab := trivial
  have hrelies : ∀ q, Lk.proc i ∉ (s.pc q).relies := by
    intro q hq
    by_cases hon : ∃ c, s.on c = some q
    · obtain ⟨c, hon⟩ := hon
      have hh : Lk.proc i ∈ s.held c := by
        rw [State.held_on hon]
        exact (h.core.wf q).relies _ hq
      rw [← h.core.lock, hl] at hh
      cases hh
    · rw [(h.core.off q fun c hc => hon ⟨c, hc⟩).relies] at hq
      cases hq
  obtain ⟨hwf, hswf, hlock, hback, honce, hoff, hcuron, hcuroff, hrun, hstart, hret, hexec⟩ := h.core
  refine ⟨⟨hwf, hswf, hlock, hback, honce, hoff, hcuron, hcuroff, ?_, ?_, ?_, ?_⟩,
    ha.ok h.tab, ?_, ?_, fun q hq => ?_, ?_, ?_, ?_, ?_⟩
  · simp only [hst]
    exact hrun
  · simp only [hst]
    exact hstart
  · simp only [hst]
    exact hret
  · simp only [hst]
    exact hexec
  · simp only [hst]
    exact h.started
  · simp only [hst]
    exact h.used
  · rw [hst] at hq
    refine Loc.Fact.stable ha hq (fun _ he => by cases he) (h.fact q hq)
      (fun x hx => ?_) (fun _ he => by cases he) (fun _ _ he => by cases he) fun h0 => ?_
    · rw [List.mem_singleton.1 hx]
      exact hrelies q
    · obtain ⟨st, hs⟩ := Option.ne_none_iff_exists'.1 h0
      exact (h.exiting q st hq hs).1
  · simp only [hst]
    exact h.embryo
  · simp only [hst]
    exact h.pending
  · simp only [hst, hpid]
    exact h.exiting
  · simp only [hst, hpid]
    exact h.alive

/-- A turn of the loop in `kill_all_user_processes()`. -/
theorem Untouched.ctrlC (h : Untouched s) {i : Fin n} (hl : s.lock (.proc i) = none) :
    Untouched { s with tab := killUser i s.tab } := by
  rw [killUser]
  split
  · next hi =>
    have hother : ∀ j, j ≠ i → ((Event.setkilled i).apply s.tab).proc j = s.tab.proc j :=
      fun j hj => Table.setProc_of_ne s.tab hj _
    refine ⟨h.inv.setkilled hl, h.tidy, h.target, fun j hj => ?_, fun c p j hon hf => ?_⟩
    · have hji : j ≠ i := by
        rintro rfl
        rw [show ((Event.setkilled j).apply s.tab).proc j = _ from Table.setProc_self ..] at hj
        exact hi.1 hj
      rw [hother j hji] at hj ⊢
      exact h.unused j hj
    · replace hon : s.on c = some p := hon
      have hji : j ≠ i := by
        rintro rfl
        have hh : Lk.proc j ∈ s.held c := by
          rw [State.held_on hon]
          exact Loc.holds_of_fresh hf
        rw [← h.inv.core.lock, hl] at hh
        cases hh
      rw [hother j hji]
      exact h.fresh c p j hon hf
  · exact h

theorem Untouched.step {l : Label n C} (h : Untouched s) (ha : NoKillZero l)
    (hs : s.keyStep l = some s') (hb : s'.tab.allocated < 2 ^ 31) : Untouched s' := by
  cases l with
  | cpu c ch =>
    have hinv := h.inv.step hs hb
    replace hs : s.step c ch = some s' := hs
    rw [State.step] at hs
    cases hon : s.on c with
    | some p =>
      rw [hon] at hs
      obtain ⟨⟨e, k⟩, hx, rfl⟩ := Option.map_eq_some_iff.1 hs
      exact h.move hon hx ha hinv
    | none =>
      rw [hon] at hs
      obtain ⟨⟨e, k⟩, hx, rfl⟩ := Option.map_eq_some_iff.1 hs
      exact h.smove hon (sdoes hx)
  | ctrlC i =>
    rw [State.keyStep] at hs
    split at hs
    · next hl => exact Option.some.inj hs ▸ h.ctrlC hl
    · cases hs

omit [NeZero n] [DecidableEq C] in
theorem killUser_allocated (i : Fin n) (t : Table n) : (killUser i t).allocated = t.allocated := by
  rw [killUser]
  split <;> rfl

theorem State.keyStep_allocated {l : Label n C} (hs : s.keyStep l = some s') :
    s.tab.allocated ≤ s'.tab.allocated := by
  cases l with
  | cpu c ch => exact State.allocated_le hs
  | ctrlC i =>
    rw [State.keyStep] at hs
    split at hs
    · rw [← Option.some.inj hs]
      exact (killUser_allocated i s.tab).ge
    · cases hs

/-- In every run without `kill(0)`, as long as pids last. -/
theorem KeyReach.untouched (hr : KeyReach NoKillZero s) (hb : s.tab.allocated < 2 ^ 31) :
    Untouched s := by
  induction hr with
  | boot =>
    refine ⟨inv_boot, fun _ => trivial, (fun _ h => by cases h), fun i hi => ?_,
      (fun _ _ _ h => by cases h)⟩
    by_cases h0 : i = 0
    · rw [h0, show (Sched.boot : State n C).tab = userinit from rfl, userinit_init] at hi
      cases hi
    · rw [show (Sched.boot : State n C).tab = userinit from rfl, userinit_free h0]
      exact ⟨rfl, rfl⟩
  | step _ ha h ih => exact (ih (Nat.lt_of_le_of_lt (State.keyStep_allocated h) hb)).step ha h hb

/-- The step `l` sets the flag of the process in slot `i` on purpose: it is a `kill` of its pid while
it is alive, or its own fault, or Ctrl-C. -/
def Targeted (s : State n C) (i : Fin n) : Label n C → Prop
  | .cpu c ch => ch = .go ∧ ∃ p, s.on c = some p ∧
    ((s.tab.proc i).state ≠ .unused ∧ (∃ rest, s.pc p = .killing (s.tab.proc i).pid i rest) ∨
      p = i ∧ s.pc p = .setkilled)
  | .ctrlC j => j = i

theorem Untouched.targeted (h : Untouched s) {l : Label n C} {i : Fin n}
    (hs : s.keyStep l = some s') (h0 : (s.tab.proc i).killed = false)
    (h1 : (s'.tab.proc i).killed = true) : Targeted s i l := by
  cases l with
  | cpu c ch =>
    replace hs : s.step c ch = some s' := hs
    rw [State.step] at hs
    have hset : ∀ {e : Eff n}, ((e.onTab s.tab).proc i).killed = true →
        ∃ ev, e = .event ev ∧ (ev = .kill i ∨ ev = .setkilled i) := by
      intro e hk
      rcases Eff.killed_onTab hk with hk | rfl | rfl
      · rw [h0] at hk
        cases hk
      · exact ⟨_, rfl, .inl rfl⟩
      · exact ⟨_, rfl, .inr rfl⟩
    cases hon : s.on c with
    | some p =>
      rw [hon] at hs
      obtain ⟨⟨e, k⟩, hx, rfl⟩ := Option.map_eq_some_iff.1 hs
      obtain ⟨ev, rfl, he⟩ := hset h1
      obtain ⟨hch, hl⟩ := code_kills hx he
      refine ⟨hch, p, hon, hl.imp_left fun hl => ⟨fun hu => ?_, hl⟩⟩
      obtain ⟨rest, hl⟩ := hl
      exact h.target p (by rw [hl, (h.unused i hu).1]; rfl)
    | none =>
      rw [hon] at hs
      obtain ⟨⟨e, k⟩, hx, rfl⟩ := Option.map_eq_some_iff.1 hs
      obtain ⟨ev, rfl, he⟩ := hset h1
      have hd := sdoes hx
      generalize s.spc c = l at hd
      rcases he with rfl | rfl <;> cases hd
  | ctrlC j =>
    rw [State.keyStep] at hs
    split at hs
    · rw [← Option.some.inj hs] at h1
      by_contra hji
      replace h1 : ((killUser j s.tab).proc i).killed = true := h1
      rw [killUser] at h1
      split at h1
      · rw [show ((Event.setkilled j).apply s.tab).proc i = s.tab.proc i from
          Table.setProc_of_ne s.tab (Ne.symm hji) _, h0] at h1
        cases h1
      · rw [h0] at h1
        cases h1
    · cases hs

/-- **Who is killed.**  In every run of `fork`, `kill`, `exit` and `wait` on any number of CPUs, with
faults and Ctrl-C, in which nobody calls `kill(0)` and pids last: a step that sets the flag of a
process targets it; the slot that `allocproc` returns does not have the flag; and where
`kill(pid)` finds a slot, and so returns 0, that slot is in use. -/
theorem killed_only_if_targeted (hr : KeyReach NoKillZero s) (hb : s.tab.allocated < 2 ^ 31) :
    (∀ (l : Label n C) (s' : State n C) (i : Fin n), s.keyStep l = some s' →
      (s.tab.proc i).killed = false → (s'.tab.proc i).killed = true → Targeted s i l) ∧
    (∀ (c : C) (p i : Fin n), s.on c = some p → s.pc p = .copy i →
      (s.tab.proc i).killed = false) ∧
    ∀ (c : C) (p i : Fin n) (rest : List (Fin n)), s.on c = some p →
      s.pc p = .killing (s.tab.proc i).pid i rest → (s.tab.proc i).state ≠ .unused := by
  have h := hr.untouched hb
  refine ⟨fun l s' i hs h0 h1 => h.targeted hs h0 h1, fun c p i hon hpc => ?_,
    fun c p i rest hon hpc hu => ?_⟩
  · exact h.fresh c p i hon (by rw [hpc]; rfl)
  · exact h.target p (by rw [hpc, (h.unused i hu).1]; rfl)

end

/-! ## `kill(0)` -/

/-- The first steps of a CPU, up to the first instruction of `init`. -/
def startInit : List (Label 2 Unit) := .cpu () .alt :: List.replicate 7 (.cpu () .go)

/-- `init` forks, up to where `allocproc` has returned. -/
def callFork : List (Label 2 Unit) := .cpu () .fork :: List.replicate 12 (.cpu () .go)

theorem noKillZero_fork : ∀ l ∈ startInit ++ callFork, NoKillZero l := by
  intro l hl
  simp only [startInit, callFork, List.mem_append, List.mem_cons, List.mem_replicate] at hl
  rcases hl with (rfl | ⟨-, rfl⟩) | rfl | ⟨-, rfl⟩ <;> trivial

/-- The first process that `init` forks does not have the flag. -/
theorem killed_only_if_targeted_fork : ∃ s : State 2 Unit,
    boot.keyRun (startInit ++ callFork) = some s ∧ s.pc 0 = .copy 1 ∧
      (s.tab.proc 1).killed = false := by
  have hrun : ((boot : State 2 Unit).keyRun (startInit ++ callFork)).map (fun s =>
      (s.on (), s.pc 0, s.tab.allocated)) = some (some 0, .copy 1, 2) := rfl
  obtain ⟨s, hs, he⟩ := Option.map_eq_some_iff.1 hrun
  simp only [Prod.mk.injEq] at he
  obtain ⟨hon, hpc, ha⟩ := he
  have hr : KeyReach NoKillZero s := KeyReach.boot.run noKillZero_fork hs
  exact ⟨s, hs, hpc, (killed_only_if_targeted hr (by rw [ha]; decide)).2.1 () 0 1 hon hpc⟩

/-- `init` calls `kill(0)`. -/
def callKill : List (Label 2 Unit) := .cpu () (.kill 0) :: List.replicate 6 (.cpu () .go)

/-- **An innocent process.**  `init` calls `kill(0)`, which finds a slot that is not in use.  Then it
forks, and its child has the flag from the start. -/
theorem killed_innocent :
    (∃ s : State 2 Unit, boot.keyRun (startInit ++ callKill) = some s ∧
      s.pc 0 = .killing 0 1 [] ∧ (s.tab.proc 1).pid = 0 ∧ (s.tab.proc 1).state = .unused) ∧
    ∃ s : State 2 Unit, boot.keyRun (startInit ++ callKill ++ List.replicate 2 (.cpu () .go) ++
      callFork) = some s ∧ s.pc 0 = .copy 1 ∧ (s.tab.proc 1).killed = true := by
  constructor
  · have hrun : ((boot : State 2 Unit).keyRun (startInit ++ callKill)).map (fun s =>
        (s.pc 0, (s.tab.proc 1).pid, (s.tab.proc 1).state)) = some (.killing 0 1 [], 0, .unused) := rfl
    obtain ⟨s, hs, he⟩ := Option.map_eq_some_iff.1 hrun
    simp only [Prod.mk.injEq] at he
    exact ⟨s, hs, he⟩
  · have hrun : ((boot : State 2 Unit).keyRun (startInit ++ callKill ++
        List.replicate 2 (.cpu () .go) ++ callFork)).map (fun s =>
          (s.pc 0, (s.tab.proc 1).killed)) = some (.copy 1, true) := rfl
    obtain ⟨s, hs, he⟩ := Option.map_eq_some_iff.1 hrun
    simp only [Prod.mk.injEq] at he
    exact ⟨s, hs, he⟩

end Xv6.Sched
