import Mathlib.Logic.Function.Basic
import Mathlib.Data.Fintype.Basic
import Mathlib.Algebra.BigOperators.Group.Finset.Piecewise
import Mathlib.Algebra.BigOperators.Ring.Finset
import Mathlib.Algebra.Order.BigOperators.Group.Finset

/-!
# Threads that sleep and wake each other under a lock

A monitor is a piece of shared state with one spin lock, used by `n` threads.  What the threads do
is given by their code: at each control point it takes or drops the lock, changes the shared
state, sleeps on a channel, wakes a channel, or asks whether the thread has been killed.  This
file runs such code with `sleep` and `wakeup` expanded into their own steps:

* every thread has a lock of its own, which protects its scheduling state and its channel;
* `sleep` takes the thread's own lock, drops the lock of the monitor, marks the thread asleep and
  leaves it to the scheduler to drop the thread's lock;
* `wakeup` visits the threads one at a time, each under its own lock;
* `kill` marks a thread killed, and wakes it if it is asleep.

Any thread can take the next step, so the runs are all interleavings of these steps.  A thread
that is preempted is one that takes no step for a while.

Three things are proved for every client.  `Inv`: the locks are held where the code says they
are, so that at most one thread is inside the monitor.  `Inside`: what a thread knows about the
shared state while it is inside stays true until the thread itself changes it.  `NoLost`: if the
code wakes a channel each time the condition its sleepers wait for may have become true, then no
thread is left asleep on a channel whose condition holds.
-/

set_option autoImplicit false

namespace Monitor

/-- The scheduling state of a thread. -/
inductive RunState
  | running
  | runnable
  | sleeping
  deriving DecidableEq, Repr

/-- What the code of a thread does next.  `l` is where it goes on. -/
inductive Act (n : Nat) (C S L : Type)
  /-- Take the lock of the monitor. -/
  | acquire (l : L)
  /-- Drop the lock of the monitor. -/
  | release (l : L)
  /-- Change the shared state. -/
  | update (t : S) (l : L)
  /-- Sleep on a channel; the lock of the monitor is held before and after. -/
  | sleep (c : C) (l : L)
  /-- Wake the threads asleep on a channel. -/
  | wakeup (c : C) (l : L)
  /-- Ask whether the thread has been killed. -/
  | killed (k : Bool → L)
  /-- Kill a thread. -/
  | kill (q : Fin n) (l : L)
  /-- Stop the machine. -/
  | panic (msg : String)

/-- Where a thread is: in its own code, or at a step of one of the functions it calls. -/
inductive Pc (n : Nat) (C L : Type)
  | code (l : L)
  /-- In `sleep`, at taking the thread's own lock. -/
  | sleepLock (c : C) (l : L)
  /-- In `sleep`, at dropping the lock of the monitor. -/
  | sleepRelease (c : C) (l : L)
  /-- In `sleep`, at marking the thread asleep. -/
  | sleepSet (c : C) (l : L)
  /-- Switched out; the scheduler is to drop the thread's lock. -/
  | switch (l : L)
  /-- Switched out, waiting to be scheduled. -/
  | off (l : L)
  /-- Scheduled again, at clearing the channel. -/
  | tidy (l : L)
  /-- In `sleep`, at dropping the thread's own lock. -/
  | sleepUnlock (l : L)
  /-- In `sleep`, at taking the lock of the monitor again. -/
  | relock (l : L)
  /-- In `wakeup`, about to visit thread `i`. -/
  | wake (c : C) (i : Nat) (l : L)
  /-- In `wakeup`, holding the lock of thread `q`. -/
  | wakeTest (c : C) (q : Fin n) (l : L)
  /-- In `wakeup`, at dropping the lock of thread `q`. -/
  | wakeUnlock (c : C) (q : Fin n) (l : L)
  /-- At asking whether the thread has been killed: taking its own lock. -/
  | killedLock (l : L) (k : Bool → L)
  | killedRead (l : L) (k : Bool → L)
  | killedUnlock (l : L)
  /-- In `kill`, at taking the lock of the victim. -/
  | killLock (q : Fin n) (l : L)
  | killSet (q : Fin n) (l : L)
  | killUnlock (q : Fin n) (l : L)

/-- The state of the machine. -/
structure State (n : Nat) (C S L : Type) where
  /-- The thread that holds the lock of the monitor. -/
  lock : Option (Fin n)
  /-- The thread that holds the lock of each thread. -/
  plock : Fin n → Option (Fin n)
  state : Fin n → RunState
  chan : Fin n → Option C
  killed : Fin n → Bool
  pc : Fin n → Pc n C L
  shared : S
  /-- The message of the panic that stopped the machine. -/
  halted : Option String

variable {n : Nat} {C S L I : Type}

/-- The code of the threads: what thread `p` does at `l` given the shared state and an input. -/
abbrev Code (n : Nat) (C S L I : Type) : Type := Fin n → L → S → I → Option (Act n C S L)

namespace State

/-- Thread `p` goes to `x`. -/
@[simps] def goto (s : State n C S L) (p : Fin n) (x : Pc n C L) : State n C S L :=
  { s with pc := Function.update s.pc p x }

@[simps] def setLock (s : State n C S L) (o : Option (Fin n)) : State n C S L :=
  { s with lock := o }

@[simps] def setPlock (s : State n C S L) (q : Fin n) (o : Option (Fin n)) : State n C S L :=
  { s with plock := Function.update s.plock q o }

@[simps] def setState (s : State n C S L) (q : Fin n) (r : RunState) : State n C S L :=
  { s with state := Function.update s.state q r }

@[simps] def setChan (s : State n C S L) (q : Fin n) (c : Option C) : State n C S L :=
  { s with chan := Function.update s.chan q c }

@[simps] def setKilled (s : State n C S L) (q : Fin n) : State n C S L :=
  { s with killed := Function.update s.killed q true }

@[simps] def setShared (s : State n C S L) (t : S) : State n C S L :=
  { s with shared := t }

@[simps] def halt (s : State n C S L) (msg : String) : State n C S L :=
  { s with halted := some msg }

/-- A thread asleep is made runnable. -/
@[simps!] def rouse (s : State n C S L) (q : Fin n) : State n C S L :=
  s.setState q (if s.state q = .sleeping then .runnable else s.state q)

end State

/-! ## The steps -/

/-- Thread `p`, at `l`, does what its code says. -/
def act (s : State n C S L) (p : Fin n) (l : L) : Act n C S L → Option (State n C S L)
  | .acquire l' =>
    if s.lock = none then some ((s.setLock (some p)).goto p (.code l')) else none
  | .release l' => some ((s.setLock none).goto p (.code l'))
  | .update t l' => some ((s.setShared t).goto p (.code l'))
  | .sleep c l' => some (s.goto p (.sleepLock c l'))
  | .wakeup c l' => some (s.goto p (.wake c 0 l'))
  | .killed k => some (s.goto p (.killedLock l k))
  | .kill q l' => some (s.goto p (.killLock q l'))
  | .panic msg => some (s.halt msg)

/-- Thread `p` takes the lock of thread `q` and goes to `x`, if the lock is free. -/
def takePlock (s : State n C S L) (p q : Fin n) (x : Pc n C L) : Option (State n C S L) :=
  if s.plock q = none then some ((s.setPlock q (some p)).goto p x) else none

/-- The next step of thread `p`, if it can take one. -/
def step [DecidableEq C] (code : Code n C S L I) (s : State n C S L) (p : Fin n) (i : I) :
    Option (State n C S L) :=
  if s.halted.isSome then none else
  match s.pc p with
  | .code l => (code p l s.shared i).bind (act s p l)
  | .sleepLock c l => takePlock s p p (.sleepRelease c l)
  | .sleepRelease c l => some ((s.setLock none).goto p (.sleepSet c l))
  | .sleepSet c l => some (((s.setChan p (some c)).setState p .sleeping).goto p (.switch l))
  | .switch l => some ((s.setPlock p none).goto p (.off l))
  | .off l =>
    -- the scheduler takes the lock of a runnable thread and switches to it
    if s.state p = .runnable then takePlock (s.setState p .running) p p (.tidy l) else none
  | .tidy l => some ((s.setChan p none).goto p (.sleepUnlock l))
  | .sleepUnlock l => some ((s.setPlock p none).goto p (.relock l))
  | .relock l => if s.lock = none then some ((s.setLock (some p)).goto p (.code l)) else none
  | .wake c i l =>
    if h : i < n then
      if (⟨i, h⟩ : Fin n) = p then some (s.goto p (.wake c (i + 1) l))
      else takePlock s p ⟨i, h⟩ (.wakeTest c ⟨i, h⟩ l)
    else some (s.goto p (.code l))
  | .wakeTest c q l =>
    if s.chan q = some c then some ((s.rouse q).goto p (.wakeUnlock c q l))
    else some (s.goto p (.wakeUnlock c q l))
  | .wakeUnlock c q l => some ((s.setPlock q none).goto p (.wake c (q + 1) l))
  | .killedLock l k => takePlock s p p (.killedRead l k)
  | .killedRead _ k => some (s.goto p (.killedUnlock (k (s.killed p))))
  | .killedUnlock l => some ((s.setPlock p none).goto p (.code l))
  | .killLock q l => takePlock s p q (.killSet q l)
  | .killSet q l => some (((s.setKilled q).rouse q).goto p (.killUnlock q l))
  | .killUnlock q l => some ((s.setPlock q none).goto p (.code l))

/-- The steps, one constructor for each kind. -/
inductive Move (code : Code n C S L I) (s : State n C S L) (p : Fin n) (i : I) :
    State n C S L → Prop
  | acquire {l l' : L} (hpc : s.pc p = .code l) (ha : code p l s.shared i = some (.acquire l'))
      (hl : s.lock = none) : Move code s p i ((s.setLock (some p)).goto p (.code l'))
  | release {l l' : L} (hpc : s.pc p = .code l) (ha : code p l s.shared i = some (.release l')) :
      Move code s p i ((s.setLock none).goto p (.code l'))
  | update {l l' : L} {t : S} (hpc : s.pc p = .code l)
      (ha : code p l s.shared i = some (.update t l')) :
      Move code s p i ((s.setShared t).goto p (.code l'))
  | sleep {l l' : L} {c : C} (hpc : s.pc p = .code l)
      (ha : code p l s.shared i = some (.sleep c l')) : Move code s p i (s.goto p (.sleepLock c l'))
  | wakeup {l l' : L} {c : C} (hpc : s.pc p = .code l)
      (ha : code p l s.shared i = some (.wakeup c l')) : Move code s p i (s.goto p (.wake c 0 l'))
  | killed {l : L} {k : Bool → L} (hpc : s.pc p = .code l)
      (ha : code p l s.shared i = some (.killed k)) : Move code s p i (s.goto p (.killedLock l k))
  | kill {l l' : L} {q : Fin n} (hpc : s.pc p = .code l)
      (ha : code p l s.shared i = some (.kill q l')) : Move code s p i (s.goto p (.killLock q l'))
  | panic {l : L} {msg : String} (hpc : s.pc p = .code l)
      (ha : code p l s.shared i = some (.panic msg)) : Move code s p i (s.halt msg)
  | sleepLock {c : C} {l : L} (hpc : s.pc p = .sleepLock c l) (hq : s.plock p = none) :
      Move code s p i ((s.setPlock p (some p)).goto p (.sleepRelease c l))
  | sleepRelease {c : C} {l : L} (hpc : s.pc p = .sleepRelease c l) :
      Move code s p i ((s.setLock none).goto p (.sleepSet c l))
  | sleepSet {c : C} {l : L} (hpc : s.pc p = .sleepSet c l) :
      Move code s p i (((s.setChan p (some c)).setState p .sleeping).goto p (.switch l))
  | switch {l : L} (hpc : s.pc p = .switch l) :
      Move code s p i ((s.setPlock p none).goto p (.off l))
  | schedule {l : L} (hpc : s.pc p = .off l) (hr : s.state p = .runnable)
      (hq : s.plock p = none) :
      Move code s p i (((s.setState p .running).setPlock p (some p)).goto p (.tidy l))
  | tidy {l : L} (hpc : s.pc p = .tidy l) :
      Move code s p i ((s.setChan p none).goto p (.sleepUnlock l))
  | sleepUnlock {l : L} (hpc : s.pc p = .sleepUnlock l) :
      Move code s p i ((s.setPlock p none).goto p (.relock l))
  | relock {l : L} (hpc : s.pc p = .relock l) (hl : s.lock = none) :
      Move code s p i ((s.setLock (some p)).goto p (.code l))
  | wakeSelf {c : C} {l : L} (hpc : s.pc p = .wake c p l) :
      Move code s p i (s.goto p (.wake c (p + 1) l))
  | wakeLock {c : C} {q : Fin n} {l : L} (hpc : s.pc p = .wake c q l) (hne : q ≠ p)
      (hq : s.plock q = none) :
      Move code s p i ((s.setPlock q (some p)).goto p (.wakeTest c q l))
  | wakeEnd {c : C} {j : Nat} {l : L} (hpc : s.pc p = .wake c j l) (hj : n ≤ j) :
      Move code s p i (s.goto p (.code l))
  | wakeRouse {c : C} {q : Fin n} {l : L} (hpc : s.pc p = .wakeTest c q l)
      (hc : s.chan q = some c) : Move code s p i ((s.rouse q).goto p (.wakeUnlock c q l))
  | wakePass {c : C} {q : Fin n} {l : L} (hpc : s.pc p = .wakeTest c q l)
      (hc : s.chan q ≠ some c) : Move code s p i (s.goto p (.wakeUnlock c q l))
  | wakeUnlock {c : C} {q : Fin n} {l : L} (hpc : s.pc p = .wakeUnlock c q l) :
      Move code s p i ((s.setPlock q none).goto p (.wake c (q + 1) l))
  | killedLock {l : L} {k : Bool → L} (hpc : s.pc p = .killedLock l k) (hq : s.plock p = none) :
      Move code s p i ((s.setPlock p (some p)).goto p (.killedRead l k))
  | killedRead {l : L} {k : Bool → L} (hpc : s.pc p = .killedRead l k) :
      Move code s p i (s.goto p (.killedUnlock (k (s.killed p))))
  | killedUnlock {l : L} (hpc : s.pc p = .killedUnlock l) :
      Move code s p i ((s.setPlock p none).goto p (.code l))
  | killLock {q : Fin n} {l : L} (hpc : s.pc p = .killLock q l) (hq : s.plock q = none) :
      Move code s p i ((s.setPlock q (some p)).goto p (.killSet q l))
  | killSet {q : Fin n} {l : L} (hpc : s.pc p = .killSet q l) :
      Move code s p i (((s.setKilled q).rouse q).goto p (.killUnlock q l))
  | killUnlock {q : Fin n} {l : L} (hpc : s.pc p = .killUnlock q l) :
      Move code s p i ((s.setPlock q none).goto p (.code l))

section Inversion

variable {code : Code n C S L I} {s s' : State n C S L} {p : Fin n} {i : I}

theorem act_move {l : L} {a : Act n C S L} (hpc : s.pc p = .code l)
    (ha : code p l s.shared i = some a) (h : act s p l a = some s') : Move code s p i s' := by
  cases a with
  | acquire l' =>
    rw [act] at h
    split at h
    · next hl => cases h; exact .acquire hpc ha hl
    · cases h
  | release l' => cases h; exact .release hpc ha
  | update t l' => cases h; exact .update hpc ha
  | sleep c l' => cases h; exact .sleep hpc ha
  | wakeup c l' => cases h; exact .wakeup hpc ha
  | killed k => cases h; exact .killed hpc ha
  | kill q l' => cases h; exact .kill hpc ha
  | panic msg => cases h; exact .panic hpc ha

theorem takePlock_eq {s : State n C S L} {q : Fin n} {x : Pc n C L}
    (h : takePlock s p q x = some s') :
    s.plock q = none ∧ s' = (s.setPlock q (some p)).goto p x := by
  rw [takePlock] at h
  split at h
  · next hq => cases h; exact ⟨hq, rfl⟩
  · cases h

/-- Every step is one of the moves, made while the machine runs. -/
theorem step_move [DecidableEq C] (h : step code s p i = some s') :
    s.halted = none ∧ Move code s p i s' := by
  rw [step] at h
  split at h
  · cases h
  next hh =>
  refine ⟨by simpa using hh, ?_⟩
  split at h
  · next l hpc =>
    obtain ⟨a, ha, h⟩ := Option.bind_eq_some_iff.1 h
    exact act_move hpc ha h
  · next c l hpc => obtain ⟨hq, rfl⟩ := takePlock_eq h; exact .sleepLock hpc hq
  · next c l hpc => cases h; exact .sleepRelease hpc
  · next c l hpc => cases h; exact .sleepSet hpc
  · next l hpc => cases h; exact .switch hpc
  · next l hpc =>
    split at h
    · next hr => obtain ⟨hq, rfl⟩ := takePlock_eq h; exact .schedule hpc hr hq
    · cases h
  · next l hpc => cases h; exact .tidy hpc
  · next l hpc => cases h; exact .sleepUnlock hpc
  · next l hpc =>
    split at h
    · next hl => cases h; exact .relock hpc hl
    · cases h
  · next c j l hpc =>
    split at h
    · next hj =>
      split at h
      · next he => cases h; subst he; exact .wakeSelf hpc
      · next he => obtain ⟨hq, rfl⟩ := takePlock_eq h; exact .wakeLock hpc he hq
    · next hj => cases h; exact .wakeEnd hpc (Nat.le_of_not_lt hj)
  · next c q l hpc =>
    split at h
    · next hc => cases h; exact .wakeRouse hpc hc
    · next hc => cases h; exact .wakePass hpc hc
  · next c q l hpc => cases h; exact .wakeUnlock hpc
  · next l k hpc => obtain ⟨hq, rfl⟩ := takePlock_eq h; exact .killedLock hpc hq
  · next l k hpc => cases h; exact .killedRead hpc
  · next l hpc => cases h; exact .killedUnlock hpc
  · next q l hpc => obtain ⟨hq, rfl⟩ := takePlock_eq h; exact .killLock hpc hq
  · next q l hpc => cases h; exact .killSet hpc
  · next q l hpc => cases h; exact .killUnlock hpc

end Inversion

/-! ## Where the locks are -/

namespace Pc

/-- The control point at which the thread is, or at which it goes on when the call returns. -/
def loc : Pc n C L → L
  | .code l | .sleepLock _ l | .sleepRelease _ l | .sleepSet _ l | .switch l | .off l | .tidy l
  | .sleepUnlock l | .relock l | .wake _ _ l | .wakeTest _ _ l | .wakeUnlock _ _ l
  | .killedLock l _ | .killedRead l _ | .killedUnlock l | .killLock _ l | .killSet _ l
  | .killUnlock _ l => l

/-- Does the thread hold the lock of the monitor?  `inside` says at which control points it does. -/
def holds (inside : L → Bool) : Pc n C L → Bool
  | .sleepLock _ _ | .sleepRelease _ _ => true
  | .sleepSet _ _ | .switch _ | .off _ | .tidy _ | .sleepUnlock _ | .relock _ => false
  | .code l | .wake _ _ l | .wakeTest _ _ l | .wakeUnlock _ _ l | .killedLock l _
  | .killedRead l _ | .killedUnlock l | .killLock _ l | .killSet _ l | .killUnlock _ l => inside l

/-- The thread whose lock thread `p` holds. -/
def locks (p : Fin n) : Pc n C L → Option (Fin n)
  | .sleepRelease _ _ | .sleepSet _ _ | .switch _ | .tidy _ | .sleepUnlock _ | .killedRead _ _
  | .killedUnlock _ => some p
  | .wakeTest _ q _ | .wakeUnlock _ q _ | .killSet q _ | .killUnlock q _ => some q
  | .code _ | .sleepLock _ _ | .off _ | .relock _ | .wake _ _ _ | .killedLock _ _
  | .killLock _ _ => none

/-- Is the thread switched out? -/
def away : Pc n C L → Bool
  | .switch _ | .off _ => true
  | _ => false

/-- The thread that the next step kills. -/
def kills : Pc n C L → Option (Fin n)
  | .killSet q _ => some q
  | _ => none

/-- Is the thread in `sleep`? -/
def sleeps : Pc n C L → Bool
  | .sleepLock _ _ | .sleepRelease _ _ | .sleepSet _ _ | .switch _ | .off _ | .tidy _
  | .sleepUnlock _ | .relock _ => true
  | _ => false

end Pc

/-- The code takes and drops the lock of the monitor where `inside` says. -/
def Act.Disciplined (inside : L → Bool) (l : L) : Act n C S L → Prop
  | .acquire l' => inside l = false ∧ inside l' = true
  | .release l' => inside l = true ∧ inside l' = false
  | .update _ l' | .wakeup _ l' | .kill _ l' => inside l' = inside l
  | .sleep _ l' => inside l = true ∧ inside l' = true
  | .killed k => ∀ b, inside (k b) = inside l
  | .panic _ => True

/-- Every act of the code is disciplined. -/
def Code.Disciplined (code : Code n C S L I) (inside : L → Bool) : Prop :=
  ∀ p l t i a, code p l t i = some a → a.Disciplined inside l

/-- The locks are where the control points of the threads say; a thread that sleeps, or asks
whether it has been killed, goes on as its code says. -/
structure Inv (code : Code n C S L I) (inside : L → Bool) (s : State n C S L) : Prop where
  lock : ∀ p, s.lock = some p ↔ (s.pc p).holds inside = true
  plock : ∀ q p, s.plock q = some p ↔ (s.pc p).locks p = some q
  asleep : ∀ p, s.state p = .sleeping → (s.pc p).away = true
  slept : ∀ p, (s.pc p).sleeps = true → ∃ l t i c, code p l t i = some (.sleep c (s.pc p).loc)
  asked : ∀ p l k, s.pc p = .killedLock l k ∨ s.pc p = .killedRead l k →
    ∃ t i, code p l t i = some (.killed k)

section Locks

variable {code : Code n C S L I} {inside : L → Bool} {s s' : State n C S L} {p : Fin n} {i : I}

/-- At most one thread is inside. -/
theorem Inv.unique (hi : Inv code inside s) {p q : Fin n} (hp : (s.pc p).holds inside = true)
    (hq : (s.pc q).holds inside = true) : p = q := by
  have h := ((hi.lock p).2 hp).symm.trans ((hi.lock q).2 hq)
  exact Option.some.inj h

/-- A thread that is inside and not on its way back from `sleep` holds the lock. -/
theorem Inv.holds (hi : Inv code inside s) {q : Fin n} (hin : inside (s.pc q).loc = true)
    (hns : ∀ l t j c, code q l t j ≠ some (.sleep c (s.pc q).loc)) :
    (s.pc q).holds inside = true := by
  by_cases hz : (s.pc q).sleeps = true
  · obtain ⟨l, t, j, c, ha⟩ := hi.slept q hz
    exact absurd ha (hns l t j c)
  · cases hx : s.pc q <;> rw [hx] at hin hz <;> first | exact hin | exact absurd rfl hz

/-- What a move does to the lock of the monitor: nothing, or the thread takes it, or drops it. -/
theorem Move.lock_cases (hd : code.Disciplined inside) (hi : Inv code inside s)
    (hm : Move code s p i s') : ∃ x, s'.pc = Function.update s.pc p x ∧
      ((s'.lock = s.lock ∧ x.holds inside = (s.pc p).holds inside) ∨
        (s.lock = none ∧ s'.lock = some p ∧ x.holds inside = true) ∨
        ((s.pc p).holds inside = true ∧ s'.lock = none ∧ x.holds inside = false)) := by
  cases hm with
  | acquire hpc ha hl => exact ⟨_, rfl, .inr (.inl ⟨hl, rfl, (hd _ _ _ _ _ ha).2⟩)⟩
  | release hpc ha =>
    obtain ⟨h1, h2⟩ := hd _ _ _ _ _ ha
    exact ⟨_, rfl, .inr (.inr ⟨by rw [hpc]; exact h1, rfl, h2⟩)⟩
  | update hpc ha => exact ⟨_, rfl, .inl ⟨rfl, by rw [hpc]; exact hd _ _ _ _ _ ha⟩⟩
  | sleep hpc ha => exact ⟨_, rfl, .inl ⟨rfl, by rw [hpc]; exact (hd _ _ _ _ _ ha).1.symm⟩⟩
  | wakeup hpc ha => exact ⟨_, rfl, .inl ⟨rfl, by rw [hpc]; exact hd _ _ _ _ _ ha⟩⟩
  | kill hpc ha => exact ⟨_, rfl, .inl ⟨rfl, by rw [hpc]; exact hd _ _ _ _ _ ha⟩⟩
  | panic hpc ha => exact ⟨s.pc p, (Function.update_eq_self p s.pc).symm, .inl ⟨rfl, rfl⟩⟩
  | sleepRelease hpc => exact ⟨_, rfl, .inr (.inr ⟨by rw [hpc]; rfl, rfl, rfl⟩)⟩
  | @relock l hpc hl =>
    obtain ⟨l₀, t, j, c, hs⟩ := hi.slept p (by rw [hpc]; rfl)
    rw [hpc] at hs
    exact ⟨_, rfl, .inr (.inl ⟨hl, rfl, (hd _ _ _ _ _ hs).2⟩)⟩
  | @killedRead l k hpc =>
    obtain ⟨t, j, hk⟩ := hi.asked p l k (.inr hpc)
    exact ⟨_, rfl, .inl ⟨rfl, by rw [hpc]; exact hd _ _ _ _ _ hk _⟩⟩
  | _ => exact ⟨_, rfl, .inl ⟨rfl, by rw [‹s.pc p = _›]; rfl⟩⟩

/-- What a move does to the locks of the threads: nothing, or the thread takes one, or drops the
one it holds. -/
theorem Move.plock_cases (hm : Move code s p i s') : ∃ x, s'.pc = Function.update s.pc p x ∧
    ((s'.plock = s.plock ∧ x.locks p = (s.pc p).locks p) ∨
      (∃ q, s.plock q = none ∧ (s.pc p).locks p = none ∧
        s'.plock = Function.update s.plock q (some p) ∧ x.locks p = some q) ∨
      ∃ q, (s.pc p).locks p = some q ∧ s'.plock = Function.update s.plock q none ∧
        x.locks p = none) := by
  cases hm with
  | panic hpc ha => exact ⟨s.pc p, (Function.update_eq_self p s.pc).symm, .inl ⟨rfl, rfl⟩⟩
  | sleepLock hpc hq => exact ⟨_, rfl, .inr (.inl ⟨_, hq, by rw [hpc]; rfl, rfl, rfl⟩)⟩
  | schedule hpc hr hq => exact ⟨_, rfl, .inr (.inl ⟨_, hq, by rw [hpc]; rfl, rfl, rfl⟩)⟩
  | wakeLock hpc hne hq => exact ⟨_, rfl, .inr (.inl ⟨_, hq, by rw [hpc]; rfl, rfl, rfl⟩)⟩
  | killedLock hpc hq => exact ⟨_, rfl, .inr (.inl ⟨_, hq, by rw [hpc]; rfl, rfl, rfl⟩)⟩
  | killLock hpc hq => exact ⟨_, rfl, .inr (.inl ⟨_, hq, by rw [hpc]; rfl, rfl, rfl⟩)⟩
  | switch hpc => exact ⟨_, rfl, .inr (.inr ⟨_, by rw [hpc]; rfl, rfl, rfl⟩)⟩
  | sleepUnlock hpc => exact ⟨_, rfl, .inr (.inr ⟨_, by rw [hpc]; rfl, rfl, rfl⟩)⟩
  | wakeUnlock hpc => exact ⟨_, rfl, .inr (.inr ⟨_, by rw [hpc]; rfl, rfl, rfl⟩)⟩
  | killedUnlock hpc => exact ⟨_, rfl, .inr (.inr ⟨_, by rw [hpc]; rfl, rfl, rfl⟩)⟩
  | killUnlock hpc => exact ⟨_, rfl, .inr (.inr ⟨_, by rw [hpc]; rfl, rfl, rfl⟩)⟩
  | _ => exact ⟨_, rfl, .inl ⟨rfl, by rw [‹s.pc p = _›]; rfl⟩⟩

theorem Inv.lock_step (hd : code.Disciplined inside) (hi : Inv code inside s)
    (hm : Move code s p i s') (r : Fin n) :
    s'.lock = some r ↔ (s'.pc r).holds inside = true := by
  obtain ⟨x, hx, h⟩ := hm.lock_cases hd hi
  rw [hx]
  by_cases hr : r = p
  · subst hr
    rw [Function.update_self]
    rcases h with ⟨hl, hh⟩ | ⟨-, hl, hh⟩ | ⟨-, hl, hh⟩
    · rw [hl, hh]; exact hi.lock r
    · rw [hl, hh]; exact ⟨fun _ => rfl, fun _ => rfl⟩
    · rw [hl, hh]; exact ⟨nofun, nofun⟩
  · rw [Function.update_of_ne hr, ← hi.lock r]
    rcases h with ⟨hl, -⟩ | ⟨hn, hl, -⟩ | ⟨hp, hl, -⟩
    · rw [hl]
    · rw [hl, hn]
      exact ⟨fun h => absurd (Option.some.inj h).symm hr, nofun⟩
    · rw [hl, (hi.lock p).2 hp]
      exact ⟨nofun, fun h => absurd (Option.some.inj h).symm hr⟩

theorem Inv.plock_step (hi : Inv code inside s) (hm : Move code s p i s') (q r : Fin n) :
    s'.plock q = some r ↔ (s'.pc r).locks r = some q := by
  obtain ⟨x, hx, h⟩ := hm.plock_cases
  rw [hx]
  by_cases hr : r = p
  · subst hr
    rw [Function.update_self]
    rcases h with ⟨hl, hh⟩ | ⟨q', -, hn, hl, hh⟩ | ⟨q', hq', hl, hh⟩
    · rw [hl, hh]; exact hi.plock q r
    · rw [hl, hh]
      by_cases hq : q = q'
      · rw [hq, Function.update_self]; exact ⟨fun _ => rfl, fun _ => rfl⟩
      · rw [Function.update_of_ne hq, hi.plock, hn]
        exact ⟨nofun, fun h => absurd (Option.some.inj h).symm hq⟩
    · rw [hl, hh]
      by_cases hq : q = q'
      · rw [hq, Function.update_self]; exact ⟨nofun, nofun⟩
      · rw [Function.update_of_ne hq, hi.plock, hq']
        exact ⟨fun h => absurd (Option.some.inj h).symm hq, nofun⟩
  · rw [Function.update_of_ne hr, ← hi.plock]
    rcases h with ⟨hl, -⟩ | ⟨q', hn, -, hl, -⟩ | ⟨q', hq', hl, -⟩
    · rw [hl]
    · rw [hl]
      by_cases hq : q = q'
      · rw [hq, Function.update_self, hn]
        exact ⟨fun h => absurd (Option.some.inj h).symm hr, nofun⟩
      · rw [Function.update_of_ne hq]
    · rw [hl]
      by_cases hq : q = q'
      · rw [hq, Function.update_self, (hi.plock q' p).2 hq']
        exact ⟨nofun, fun h => absurd (Option.some.inj h).symm hr⟩
      · rw [Function.update_of_ne hq]

theorem rouse_sleeping (s : State n C S L) (r q : Fin n) :
    (s.rouse r).state q = .sleeping ↔ q ≠ r ∧ s.state q = .sleeping := by
  rw [State.rouse_state]
  by_cases hq : q = r
  · subst hq
    rw [Function.update_self]
    split
    · simp
    · next h => simp [h]
  · rw [Function.update_of_ne hq]
    simp [hq]

/-- A thread is marked asleep by itself. -/
theorem Move.state_sleeping (hm : Move code s p i s') {q : Fin n} (hz : s'.state q = .sleeping) :
    s.state q = .sleeping ∨ ∃ l, q = p ∧ s'.pc = Function.update s.pc p (.switch l) := by
  cases hm with
  | @sleepSet c l hpc =>
    by_cases hq : q = p
    · exact .inr ⟨l, hq, rfl⟩
    · rw [State.goto_state, State.setState_state, Function.update_of_ne hq] at hz
      exact .inl hz
  | schedule hpc hr hq =>
    rw [State.goto_state, State.setPlock_state, State.setState_state] at hz
    by_cases hqp : q = p
    · rw [hqp, Function.update_self] at hz; cases hz
    · rw [Function.update_of_ne hqp] at hz; exact .inl hz
  | wakeRouse hpc hc => exact .inl ((rouse_sleeping s _ q).1 hz).2
  | killSet hpc => exact .inl ((rouse_sleeping _ _ q).1 hz).2
  | _ => exact .inl hz

theorem Inv.asleep_step (hi : Inv code inside s) (hm : Move code s p i s') (r : Fin n)
    (hr : s'.state r = .sleeping) : (s'.pc r).away = true := by
  rcases hm.state_sleeping hr with h | ⟨l, rfl, hx⟩
  · have haway := hi.asleep r h
    by_cases hrp : r = p
    · subst hrp
      cases hm with
      | switch hpc => rw [State.goto_pc, Function.update_self]; rfl
      | schedule hpc hrun hq => rw [hrun] at h; cases h
      | panic hpc ha => exact haway
      | _ => rw [‹s.pc r = _›] at haway; cases haway
    · obtain ⟨x, hx, -⟩ := hm.plock_cases
      rw [hx, Function.update_of_ne hrp]
      exact haway
  · rw [hx, Function.update_self]
    rfl

theorem Inv.slept_step (hi : Inv code inside s) (hm : Move code s p i s') (r : Fin n)
    (hr : (s'.pc r).sleeps = true) : ∃ l t j c, code r l t j = some (.sleep c (s'.pc r).loc) := by
  by_cases hrp : r = p
  · subst hrp
    cases hm with
    | sleep hpc ha =>
      rw [State.goto_pc, Function.update_self]
      exact ⟨_, _, _, _, ha⟩
    | panic hpc ha => exact hi.slept r hr
    | _ =>
      rw [State.goto_pc, Function.update_self] at hr ⊢
      first
        | exact absurd hr Bool.false_ne_true
        | have hin := hi.slept r
          rw [‹s.pc r = _›] at hin
          exact hin rfl
  · obtain ⟨x, hx, -⟩ := hm.plock_cases
    rw [hx, Function.update_of_ne hrp] at hr ⊢
    exact hi.slept r hr

theorem Inv.asked_step (hi : Inv code inside s) (hm : Move code s p i s') (r : Fin n) (l : L)
    (k : Bool → L) (hr : s'.pc r = .killedLock l k ∨ s'.pc r = .killedRead l k) :
    ∃ t j, code r l t j = some (.killed k) := by
  by_cases hrp : r = p
  · subst hrp
    cases hm with
    | killed hpc ha =>
      rw [State.goto_pc, Function.update_self] at hr
      rcases hr with hr | hr
      · cases hr; exact ⟨_, _, ha⟩
      · cases hr
    | killedLock hpc hq =>
      rw [State.goto_pc, Function.update_self] at hr
      rcases hr with hr | hr
      · cases hr
      · cases hr; exact hi.asked r _ _ (.inl hpc)
    | panic hpc ha => exact hi.asked r l k hr
    | _ =>
      rw [State.goto_pc, Function.update_self] at hr
      rcases hr with hr | hr <;> cases hr
  · obtain ⟨x, hx, -⟩ := hm.plock_cases
    rw [hx, Function.update_of_ne hrp] at hr
    exact hi.asked r l k hr

/-- Every step keeps the locks where the control points say. -/
theorem Inv.step (hd : code.Disciplined inside) (hi : Inv code inside s)
    (hm : Move code s p i s') : Inv code inside s' :=
  ⟨hi.lock_step hd hm, hi.plock_step hm, hi.asleep_step hm, hi.slept_step hm, hi.asked_step hm⟩

end Locks

/-! ## What the code of a thread sees

Seen from the code, a step is one of three things: a step inside a called function, of which the
code sees nothing; an act of the code; or the answer to the question whether the thread has been
killed. -/

/-- The control point of a thread in its own code. -/
def State.loc (s : State n C S L) (p : Fin n) : L := (s.pc p).loc

/-- The shared state and the control point after an act. -/
def Act.next (t : S) (l : L) : Act n C S L → S × L
  | .acquire l' | .release l' | .sleep _ l' | .wakeup _ l' | .kill _ l' => (t, l')
  | .update t' l' => (t', l')
  | .killed _ | .panic _ => (t, l)

/-- What a step by thread `p` does to the shared state and the control points. -/
inductive Effect (code : Code n C S L I) (s : State n C S L) (p : Fin n) (i : I)
    (s' : State n C S L) : Prop
  | quiet (shared : s'.shared = s.shared) (loc : s'.loc = s.loc)
  | act {a : Act n C S L} (pc : s.pc p = .code (s.loc p))
      (code : code p (s.loc p) s.shared i = some a)
      (shared : s'.shared = (a.next s.shared (s.loc p)).1)
      (loc : s'.loc = Function.update s.loc p (a.next s.shared (s.loc p)).2)
  | answer {k : Bool → L} {t : S} {j : I} (pc : s.pc p = .killedRead (s.loc p) k)
      (code : code p (s.loc p) t j = some (.killed k)) (shared : s'.shared = s.shared)
      (loc : s'.loc = Function.update s.loc p (k (s.killed p)))

section Effects

variable {code : Code n C S L I} {inside : L → Bool} {s s' : State n C S L} {p : Fin n} {i : I}

theorem loc_goto (s : State n C S L) (p : Fin n) (x : Pc n C L) :
    (s.goto p x).loc = Function.update s.loc p x.loc := by
  funext q
  rw [State.loc, State.goto_pc]
  by_cases hq : q = p
  · rw [hq, Function.update_self, Function.update_self]
  · rw [Function.update_of_ne hq, Function.update_of_ne hq, State.loc]

theorem loc_goto_same (s : State n C S L) (p : Fin n) {x : Pc n C L} (h : (s.pc p).loc = x.loc) :
    (s.goto p x).loc = s.loc := by
  rw [loc_goto, ← h]
  exact Function.update_eq_self p s.loc

/-- An act of the code, with its effect. -/
theorem Effect.of_act {l : L} {a : Act n C S L} (hpc : s.pc p = .code l)
    (ha : code p l s.shared i = some a) (hs : s'.shared = (a.next s.shared l).1)
    (hl : s'.loc = Function.update s.loc p (a.next s.shared l).2) : Effect code s p i s' := by
  have hloc : s.loc p = l := by rw [State.loc, hpc]; rfl
  subst hloc
  exact .act hpc ha hs hl

/-- The machine stops only where the code of a thread panics. -/
theorem Move.halted (hm : Move code s p i s') {msg : String} (h : s'.halted = some msg) :
    s.halted = some msg ∨
      (s.pc p = .code (s.loc p) ∧ code p (s.loc p) s.shared i = some (.panic msg)) := by
  cases hm with
  | @panic l m hpc ha =>
    have hloc : s.loc p = l := by rw [State.loc, hpc]; rfl
    subst hloc
    cases h
    exact .inr ⟨hpc, ha⟩
  | _ => exact .inl h

/-- A thread is marked killed only by `kill`. -/
theorem Move.killed_cases (hm : Move code s p i s') (q : Fin n) :
    s'.killed q = s.killed q ∨
      ((s.pc p).kills = some q ∧ s'.shared = s.shared ∧ s'.loc = s.loc) := by
  cases hm with
  | @killSet r l hpc =>
    by_cases hq : q = r
    · subst hq
      exact .inr ⟨by rw [hpc]; rfl, rfl,
        loc_goto_same _ _ (show (s.pc p).loc = _ by rw [hpc]; rfl)⟩
    · refine .inl ?_
      rw [State.goto_killed, State.rouse_killed, State.setKilled_killed,
        Function.update_of_ne hq]
  | _ => exact .inl rfl

/-- A thread that has been killed stays so. -/
theorem Move.killed_keep (hm : Move code s p i s') {q : Fin n} (hq : s.killed q = true) :
    s'.killed q = true := by
  cases hm with
  | @killSet r l hpc =>
    rw [State.goto_killed, State.rouse_killed, State.setKilled_killed]
    by_cases h : q = r
    · rw [h, Function.update_self]
    · rw [Function.update_of_ne h, hq]
  | _ => exact hq

theorem Move.effect (hi : Inv code inside s) (hm : Move code s p i s') :
    Effect code s p i s' := by
  cases hm with
  | acquire hpc ha hl => exact .of_act hpc ha rfl (loc_goto _ _ _)
  | release hpc ha => exact .of_act hpc ha rfl (loc_goto _ _ _)
  | update hpc ha => exact .of_act hpc ha rfl (loc_goto _ _ _)
  | sleep hpc ha => exact .of_act hpc ha rfl (loc_goto _ _ _)
  | wakeup hpc ha => exact .of_act hpc ha rfl (loc_goto _ _ _)
  | kill hpc ha => exact .of_act hpc ha rfl (loc_goto _ _ _)
  | panic hpc ha => exact .quiet rfl rfl
  | @killedRead l k hpc =>
    obtain ⟨t, j, hk⟩ := hi.asked p l k (.inr hpc)
    have hloc : s.loc p = l := by rw [State.loc, hpc]; rfl
    subst hloc
    exact .answer hpc hk rfl (loc_goto _ _ _)
  | _ => exact .quiet rfl (loc_goto_same _ _ (show (s.pc p).loc = _ by rw [‹s.pc p = _›]; rfl))

end Effects

/-! ## What a thread knows while it is inside

`F` holds of the shared state while the lock is free, and `At l` is what a thread at `l` inside
the monitor knows of it. -/

/-- The act establishes what the thread knows next: on taking the lock it knows `F`; it gives the
lock up only where `F` holds again; a change made outside the monitor spoils nothing. -/
def Act.Keeps (inside : L → Bool) (F : S → Prop) (At : L → S → Prop) (t : S) (l : L) :
    Act n C S L → Prop
  | .acquire l' => F t → At l' t
  | .release _ | .sleep _ _ => At l t → F t
  | .update t' l' =>
    if inside l then At l t → At l' t'
    else (F t → F t') ∧ ∀ m, inside m = true → At m t → At m t'
  | .wakeup _ l' | .kill _ l' => At l t → At l' t
  | .killed k => ∀ b, At l t → At (k b) t
  | .panic _ => True

/-- What a thread that holds the lock knows: on its way to sleep it has nothing left to do, and
while it asks whether it has been killed it knows what either answer needs. -/
def Pc.knows (F : Prop) (At : L → Prop) : Pc n C L → Prop
  | .sleepLock _ _ | .sleepRelease _ _ => F
  | .killedLock _ k | .killedRead _ k => ∀ b, At (k b)
  | x => At x.loc

/-- `F` holds while the lock is free, and the thread inside knows what its control point says. -/
structure Inside (inside : L → Bool) (F : S → Prop) (At : L → S → Prop) (s : State n C S L) :
    Prop where
  free : s.lock = none → F s.shared
  known : ∀ p, (s.pc p).holds inside = true → (s.pc p).knows (F s.shared) fun l => At l s.shared

section Inside

variable {code : Code n C S L I} {inside : L → Bool} {s s' : State n C S L} {p : Fin n} {i : I}
variable {F : S → Prop} {At : L → S → Prop}

theorem Inv.knows_mono (hd : code.Disciplined inside) (hi : Inv code inside s) {r : Fin n}
    {F F' : Prop} {At At' : L → Prop} (hF : F → F') (hAt : ∀ l, inside l = true → At l → At' l)
    (hh : (s.pc r).holds inside = true) (h : (s.pc r).knows F At) : (s.pc r).knows F' At' := by
  have hask := hi.asked r
  cases hx : s.pc r <;> rw [hx] at hh h hask
  case sleepLock c l => exact hF h
  case sleepRelease c l => exact hF h
  case killedLock l k =>
    obtain ⟨t, j, ha⟩ := hask l k (.inl rfl)
    exact fun b => hAt _ ((hd _ _ _ _ _ ha b).trans hh) (h b)
  case killedRead l k =>
    obtain ⟨t, j, ha⟩ := hask l k (.inr rfl)
    exact fun b => hAt _ ((hd _ _ _ _ _ ha b).trans hh) (h b)
  all_goals
    first
      | exact hAt _ hh h
      | exact absurd hh Bool.false_ne_true

theorem Inside.free_step (hd : code.Disciplined inside) (hi : Inv code inside s)
    (hk : ∀ l a, s.pc p = .code l → code p l s.shared i = some a →
      a.Keeps inside F At s.shared l) (hs : Inside inside F At s)
    (hm : Move code s p i s') (hl : s'.lock = none) : F s'.shared := by
  have hkn := hs.known p
  cases hm with
  | acquire hpc ha h0 => cases hl
  | relock hpc h0 => cases hl
  | release hpc ha =>
    rw [hpc] at hkn
    exact hk _ _ hpc ha (hkn (hd _ _ _ _ _ ha).1)
  | sleepRelease hpc =>
    rw [hpc] at hkn
    exact hkn rfl
  | @update l l' t hpc ha =>
    have hin : ¬ inside l = true := by
      intro hin
      have hp := (hi.lock p).2 (by rw [hpc]; exact hin)
      rw [State.goto_lock, State.setShared_lock, hp] at hl
      cases hl
    have hkeep := hk _ _ hpc ha
    rw [Act.Keeps, if_neg hin] at hkeep
    exact hkeep.1 (hs.free hl)
  | _ => exact hs.free hl

theorem Inside.known_step (hd : code.Disciplined inside) (hi : Inv code inside s)
    (hk : ∀ l a, s.pc p = .code l → code p l s.shared i = some a →
      a.Keeps inside F At s.shared l)
    (hw : ∀ l t j c l', code p l t j = some (.sleep c l') → F s.shared → At l' s.shared)
    (hs : Inside inside F At s) (hm : Move code s p i s')
    (hp : (s'.pc p).holds inside = true) :
    (s'.pc p).knows (F s'.shared) fun l => At l s'.shared := by
  have hkn := hs.known p
  cases hm with
  | acquire hpc ha hl =>
    rw [State.goto_pc, Function.update_self]
    exact hk _ _ hpc ha (hs.free hl)
  | release hpc ha =>
    rw [State.goto_pc, Function.update_self] at hp
    exact absurd ((hd _ _ _ _ _ ha).2.symm.trans hp) Bool.false_ne_true
  | update hpc ha =>
    rw [State.goto_pc, Function.update_self] at hp ⊢
    have hin : inside _ = true := (hd _ _ _ _ _ ha).symm.trans hp
    have hkeep := hk _ _ hpc ha
    rw [hpc] at hkn
    rw [Act.Keeps, if_pos hin] at hkeep
    exact hkeep (hkn hin)
  | sleep hpc ha =>
    rw [State.goto_pc, Function.update_self]
    rw [hpc] at hkn
    exact hk _ _ hpc ha (hkn (hd _ _ _ _ _ ha).1)
  | wakeup hpc ha =>
    rw [State.goto_pc, Function.update_self] at hp ⊢
    rw [hpc] at hkn
    exact hk _ _ hpc ha (hkn ((hd _ _ _ _ _ ha).symm.trans hp))
  | kill hpc ha =>
    rw [State.goto_pc, Function.update_self] at hp ⊢
    rw [hpc] at hkn
    exact hk _ _ hpc ha (hkn ((hd _ _ _ _ _ ha).symm.trans hp))
  | killed hpc ha =>
    rw [State.goto_pc, Function.update_self] at hp ⊢
    rw [hpc] at hkn
    exact fun b => hk _ _ hpc ha b (hkn hp)
  | panic hpc ha => exact hkn hp
  | @relock l hpc hl =>
    rw [State.goto_pc, Function.update_self]
    obtain ⟨l₀, t, j, c, ha⟩ := hi.slept p (by rw [hpc]; rfl)
    rw [hpc] at ha
    exact hw _ _ _ _ _ ha (hs.free hl)
  | @killedRead l k hpc =>
    rw [State.goto_pc, Function.update_self] at hp ⊢
    obtain ⟨t, j, ha⟩ := hi.asked p l k (.inr hpc)
    rw [hpc] at hkn
    exact hkn ((hd _ _ _ _ _ ha _).symm.trans hp) _
  | _ =>
    rw [State.goto_pc, Function.update_self] at hp ⊢
    rw [‹s.pc p = _›] at hkn
    first
      | exact hkn hp
      | exact absurd hp Bool.false_ne_true

/-- Every step keeps what the thread inside knows. -/
theorem Inside.step (hd : code.Disciplined inside) (hi : Inv code inside s)
    (hk : ∀ l a, s.pc p = .code l → code p l s.shared i = some a →
      a.Keeps inside F At s.shared l)
    (hw : ∀ l t j c l', code p l t j = some (.sleep c l') → F s.shared → At l' s.shared)
    (hs : Inside inside F At s) (hm : Move code s p i s') : Inside inside F At s' := by
  refine ⟨hs.free_step hd hi hk hm, fun r hr => ?_⟩
  by_cases hrp : r = p
  · subst hrp
    exact hs.known_step hd hi hk hw hm hr
  · -- another thread's knowledge is spoilt neither from inside, where only one thread is, nor
    -- from outside
    obtain ⟨x, hx, -⟩ := hm.plock_cases
    rw [hx, Function.update_of_ne hrp] at hr ⊢
    have hat := hs.known r hr
    cases hm with
    | @update l l' t hpc ha =>
      have hin : ¬ inside l = true := by
        intro hin
        exact hrp (hi.unique hr (by rw [hpc]; exact hin))
      have hkeep := hk _ _ hpc ha
      rw [Act.Keeps, if_neg hin] at hkeep
      exact hi.knows_mono hd hkeep.1 hkeep.2 hr hat
    | _ => exact hat

/-- What follows both from `F` and from what a thread inside knows holds in every state. -/
theorem Inside.always (hi : Inv code inside s) (h : Inside inside F At s) {R : Prop}
    (hF : F s.shared → R) (hAt : ∀ l, At l s.shared → R) : R := by
  cases hlock : s.lock with
  | none => exact hF (h.free hlock)
  | some q =>
    have hkn := h.known q ((hi.lock q).1 hlock)
    cases hx : s.pc q <;> rw [hx] at hkn
    case sleepLock => exact hF hkn
    case sleepRelease => exact hF hkn
    case killedLock => exact hAt _ (hkn true)
    case killedRead => exact hAt _ (hkn true)
    all_goals exact hAt _ hkn

/-- What a thread inside knows, if its control point is none where it sleeps or asks whether it
has been killed. -/
theorem Inside.at_loc (hi : Inv code inside s) (h : Inside inside F At s) {q : Fin n}
    (hin : inside (s.loc q) = true) (hns : ∀ l t j c, code q l t j ≠ some (.sleep c (s.loc q)))
    (hnk : ∀ t j k, code q (s.loc q) t j ≠ some (.killed k)) : At (s.loc q) s.shared := by
  have hkn := h.known q (hi.holds hin hns)
  have hslept := hi.slept q
  have hasked := hi.asked q
  rw [State.loc] at hns hnk ⊢
  cases hx : s.pc q <;> rw [hx] at hkn hslept hasked hns hnk
  case sleepLock c l => obtain ⟨l', t, j, c', ha⟩ := hslept rfl; exact absurd ha (hns _ _ _ _)
  case sleepRelease c l => obtain ⟨l', t, j, c', ha⟩ := hslept rfl; exact absurd ha (hns _ _ _ _)
  case killedLock l k => obtain ⟨t, j, ha⟩ := hasked l k (.inl rfl); exact absurd ha (hnk _ _ _)
  case killedRead l k => obtain ⟨t, j, ha⟩ := hasked l k (.inr rfl); exact absurd ha (hnk _ _ _)
  all_goals exact hkn

/-- What a thread inside its own code knows. -/
theorem Inside.at_code (h : Inside inside F At s) {q : Fin n} {l : L} (hpc : s.pc q = .code l)
    (hin : inside l = true) : At l s.shared := by
  have hkn := h.known q
  rw [hpc] at hkn
  exact hkn hin

end Inside

/-! ## No lost wakeup

`wake c t` is the condition on the shared state `t` under which no thread may be left asleep on
`c`.  `owes l c` says that a thread at `l` inside the monitor is still to wake `c`. -/

/-- The channel a thread in `sleep` is about to be marked asleep on. -/
def Pc.dozes : Pc n C L → Option C
  | .sleepLock c _ | .sleepRelease c _ | .sleepSet c _ => some c
  | _ => none

/-- Thread `q` is asleep on `c`, or in `sleep` on its way there. -/
def Dozing (s : State n C S L) (q : Fin n) (c : C) : Prop :=
  (s.pc q).dozes = some c ∨ (s.state q = .sleeping ∧ s.chan q = some c)

instance [DecidableEq C] (s : State n C S L) (q : Fin n) (c : C) : Decidable (Dozing s q c) :=
  inferInstanceAs (Decidable (_ ∨ _ ∧ _))

/-- A thread there is still to wake thread `q` on `c`. -/
def Pc.owed (owes : L → C → Prop) (q : Fin n) (c : C) : Pc n C L → Prop
  | .sleepLock _ _ | .sleepRelease _ _ | .sleepSet _ _ | .switch _ | .off _ | .tidy _
  | .sleepUnlock _ | .relock _ => False
  | .wake c' j l => (c' = c ∧ j ≤ q) ∨ owes l c
  | .wakeTest c' r l => (c' = c ∧ r ≤ q) ∨ owes l c
  | .wakeUnlock c' r l => (c' = c ∧ r < q) ∨ owes l c
  | .code l | .killedLock l _ | .killedRead l _ | .killedUnlock l | .killLock _ l | .killSet _ l
  | .killUnlock _ l => owes l c

/-- If the condition of a channel holds while a thread dozes on it, the thread inside the monitor
is still to wake it. -/
def NoLost (wake : C → S → Prop) (owes : L → C → Prop) (s : State n C S L) : Prop :=
  ∀ q c, Dozing s q c → wake c s.shared → ∃ h, s.lock = some h ∧ (s.pc h).owed owes q c

/-- The act pays what the thread owes: a channel whose condition it makes true is owed a wakeup,
which only a wakeup of that channel discharges; and nothing is owed where the lock is dropped. -/
def Act.Pays (inside : L → Bool) (wake : C → S → Prop) (owes : L → C → Prop) (t : S) (l : L) :
    Act n C S L → Prop
  | .acquire _ | .killed _ | .panic _ => True
  | .release _ => ∀ c, owes l c → ¬ wake c t
  | .update t' l' => ∀ c, wake c t' →
    if inside l then owes l' c ∨ (wake c t ∧ ¬ owes l c) else wake c t
  | .sleep c _ => ¬ wake c t ∧ ∀ c', owes l c' → ¬ wake c' t
  | .wakeup c l' => ∀ c', c' ≠ c → owes l c' → owes l' c'
  | .kill _ l' => ∀ c, owes l c → owes l' c

section NoLost

variable {code : Code n C S L I} {inside : L → Bool} {s s' : State n C S L} {p : Fin n} {i : I}
variable {wake : C → S → Prop} {owes : L → C → Prop}

/-- A free monitor has no thread asleep on a channel whose condition holds. -/
theorem NoLost.not_sleeping (h : NoLost wake owes s) (hl : s.lock = none) {q : Fin n} {c : C}
    (hw : wake c s.shared) : ¬ (s.state q = .sleeping ∧ s.chan q = some c) := by
  intro hz
  obtain ⟨r, hr, -⟩ := h q c (.inr hz) hw
  rw [hl] at hr
  cases hr

/-- A thread is marked asleep by itself, in `sleep`. -/
theorem Move.asleep (hm : Move code s p i s') {q : Fin n} {c : C}
    (hz : s'.state q = .sleeping ∧ s'.chan q = some c) :
    (s.state q = .sleeping ∧ s.chan q = some c) ∨ (s.pc q).dozes = some c := by
  cases hm with
  | @sleepSet c' l hpc =>
    by_cases hq : q = p
    · subst hq
      simp only [State.goto_chan, State.setState_chan, State.setChan_chan, Function.update_self,
        Option.some.injEq] at hz
      exact .inr (by rw [hpc, Pc.dozes, hz.2])
    · simp only [State.goto_state, State.setState_state, State.setChan_state, State.goto_chan,
        State.setState_chan, State.setChan_chan, Function.update_of_ne hq] at hz
      exact .inl hz
  | schedule hpc hr hq =>
    by_cases hqp : q = p
    · subst hqp
      simp only [State.goto_state, State.setPlock_state, State.setState_state,
        Function.update_self, reduceCtorEq, false_and] at hz
    · simp only [State.goto_state, State.setPlock_state, State.setState_state,
        Function.update_of_ne hqp] at hz
      exact .inl hz
  | tidy hpc =>
    by_cases hqp : q = p
    · subst hqp
      simp only [State.goto_chan, State.setChan_chan, Function.update_self, reduceCtorEq,
        and_false] at hz
    · simp only [State.goto_chan, State.setChan_chan, Function.update_of_ne hqp] at hz
      exact .inl hz
  | wakeRouse hpc hc => exact .inl ⟨((rouse_sleeping s _ q).1 hz.1).2, hz.2⟩
  | killSet hpc => exact .inl ⟨((rouse_sleeping _ _ q).1 hz.1).2, hz.2⟩
  | _ => exact .inl hz

/-- Only a call of `sleep` makes a thread doze. -/
theorem Move.dozing (hm : Move code s p i s') {x : Pc n C L}
    (hx : s'.pc = Function.update s.pc p x) (hd : x.dozes = none ∨ x.dozes = (s.pc p).dozes)
    {q : Fin n} {c : C} (hz : Dozing s' q c) : Dozing s q c := by
  rcases hz with hz | hz
  · rw [hx] at hz
    by_cases hqp : q = p
    · subst hqp
      rw [Function.update_self] at hz
      rcases hd with hd | hd
      · rw [hd] at hz; cases hz
      · exact .inl (hd.symm.trans hz)
    · rw [Function.update_of_ne hqp] at hz
      exact .inl hz
  · exact (hm.asleep hz).symm

/-- A thread starts to doze when its code sleeps. -/
theorem Move.dozing_cases (hm : Move code s p i s') {q : Fin n} {c : C} (hz : Dozing s' q c) :
    Dozing s q c ∨ (q = p ∧ ∃ l', s.pc p = .code (s.loc p) ∧
      code p (s.loc p) s.shared i = some (.sleep c l')) := by
  have hmv := hm
  cases hm with
  | @sleep l l' c' hpc ha =>
    have hloc : s.loc p = l := by rw [State.loc, hpc]; rfl
    subst hloc
    rcases hz with hz | hz
    · rw [State.goto_pc] at hz
      by_cases hqp : q = p
      · rw [hqp, Function.update_self] at hz
        cases hz
        exact .inr ⟨hqp, l', hpc, ha⟩
      · rw [Function.update_of_ne hqp] at hz
        exact .inl (.inl hz)
    · exact .inl (.inr hz)
  | panic hpc ha => exact .inl hz
  | sleepLock hpc hq => exact .inl (hmv.dozing rfl (.inr (by rw [hpc]; rfl)) hz)
  | sleepRelease hpc => exact .inl (hmv.dozing rfl (.inr (by rw [hpc]; rfl)) hz)
  | _ => exact .inl (hmv.dozing rfl (.inl rfl) hz)

/-- A move that leaves the lock and the shared state alone, and makes nobody doze, loses no wakeup
if the thread still owes what it owed. -/
theorem NoLost.quiet (h : NoLost wake owes s) (hm : Move code s p i s') {x : Pc n C L}
    (hs : s'.shared = s.shared) (hl : s'.lock = s.lock) (hx : s'.pc = Function.update s.pc p x)
    (hd : x.dozes = none ∨ x.dozes = (s.pc p).dozes)
    (ho : ∀ q c, s.lock = some p → Dozing s' q c → (s.pc p).owed owes q c → x.owed owes q c) :
    NoLost wake owes s' := by
  intro q c hz hw
  rw [hs] at hw
  obtain ⟨r, hr, hro⟩ := h q c (hm.dozing hx hd hz) hw
  refine ⟨r, hl.trans hr, ?_⟩
  rw [hx]
  by_cases hrp : r = p
  · subst hrp
    rw [Function.update_self]
    exact ho q c hr hz hro
  · rwa [Function.update_of_ne hrp]

/-- A thread visited in `wakeup` by the thread inside is not on its way to sleep. -/
theorem Inv.dozes_eq_none (hi : Inv code inside s) {q : Fin n} {c : C} {l : L}
    (hpc : s.pc p = .wakeTest c q l) (hl : s.lock = some p) : (s.pc q).dozes = none := by
  by_cases hqp : q = p
  · rw [hqp, hpc]
    rfl
  have hq := (hi.plock q p).2 (by rw [hpc]; rfl)
  cases hpq : s.pc q with
  | sleepLock c l =>
    -- it would be inside itself
    have h := (hi.lock q).2 (by rw [hpq]; rfl)
    exact absurd (Option.some.inj (h.symm.trans hl)) hqp
  | sleepRelease c l =>
    -- it would hold its own lock
    have h := (hi.plock q q).2 (by rw [hpq]; rfl)
    exact absurd (Option.some.inj (h.symm.trans hq)) hqp
  | sleepSet c l =>
    have h := (hi.plock q q).2 (by rw [hpq]; rfl)
    exact absurd (Option.some.inj (h.symm.trans hq)) hqp
  | _ => rfl

theorem owed_wakeUnlock {c c' : C} {q r : Fin n} {l : L}
    (h : (Pc.wakeTest c' r l).owed owes q c) (hne : c' = c → r ≠ q) :
    (Pc.wakeUnlock c' r l).owed owes q c := by
  rcases h with ⟨hc, hr⟩ | h
  · exact .inl ⟨hc, lt_of_le_of_ne hr (hne hc)⟩
  · exact .inr h

/-- Every step that pays what is owed loses no wakeup. -/
theorem NoLost.step (hd : code.Disciplined inside) (hi : Inv code inside s)
    (hp : ∀ l a, s.pc p = .code l → code p l s.shared i = some a →
      a.Pays inside wake owes s.shared l)
    (hk : ∀ l t j k, s.pc p = .killedRead l k → code p l t j = some (.killed k) →
      ∀ q c, Dozing s q c → owes l c → owes (k (s.killed p)) c)
    (h : NoLost wake owes s) (hm : Move code s p i s') : NoLost wake owes s' := by
  -- a thread inside, at `l`, owes what its control point says
  have hown : ∀ {l q c}, s.pc p = .code l → inside l = true → Dozing s q c → wake c s.shared →
      owes l c := by
    intro l q c hpc hin hz hw
    obtain ⟨r, hr, ho⟩ := h q c hz hw
    have hrp : r = p := Option.some.inj (hr.symm.trans ((hi.lock p).2 (by rw [hpc]; exact hin)))
    rw [hrp, hpc] at ho
    exact ho
  have hmv := hm
  cases hm with
  | acquire hpc ha hl =>
    intro q c hz hw
    obtain ⟨r, hr, -⟩ := h q c (hmv.dozing rfl (.inl rfl) hz) hw
    rw [hl] at hr
    cases hr
  | release hpc ha =>
    intro q c hz hw
    have ho := hown hpc (hd _ _ _ _ _ ha).1 (hmv.dozing rfl (.inl rfl) hz) hw
    exact absurd hw (hp _ _ hpc ha c ho)
  | @update l l' t hpc ha =>
    intro q c hz hw
    have hz' := hmv.dozing rfl (.inl rfl) hz
    have hpay := hp _ _ hpc ha c hw
    by_cases hin : inside l = true
    · rw [if_pos hin] at hpay
      refine ⟨p, (hi.lock p).2 (by rw [hpc]; exact hin), ?_⟩
      rw [State.goto_pc, Function.update_self]
      rcases hpay with hpay | ⟨hw', hno⟩
      · exact hpay
      · exact absurd (hown hpc hin hz' hw') hno
    · rw [if_neg hin] at hpay
      obtain ⟨r, hr, ho⟩ := h q c hz' hpay
      have hrp : r ≠ p := by
        rintro rfl
        rw [hi.lock, hpc] at hr
        exact hin hr
      refine ⟨r, hr, ?_⟩
      rw [State.goto_pc, Function.update_of_ne hrp]
      exact ho
  | @sleep l l' c' hpc ha =>
    obtain ⟨hnw, hno⟩ := hp _ _ hpc ha
    have hin := (hd _ _ _ _ _ ha).1
    intro q c hz hw
    rcases hz with hz | hz
    · rw [State.goto_pc] at hz
      by_cases hqp : q = p
      · rw [hqp, Function.update_self] at hz
        cases hz
        exact absurd hw hnw
      · rw [Function.update_of_ne hqp] at hz
        exact absurd hw (hno c (hown hpc hin (.inl hz) hw))
    · exact absurd hw (hno c (hown hpc hin (.inr hz) hw))
  | @wakeup l l' c' hpc ha =>
    refine h.quiet hmv rfl rfl rfl (.inl rfl) fun q c _ _ ho => ?_
    rw [hpc] at ho
    by_cases hc : c = c'
    · exact .inl ⟨hc.symm, Nat.zero_le _⟩
    · exact .inr (hp _ _ hpc ha c hc ho)
  | killed hpc ha =>
    refine h.quiet hmv rfl rfl rfl (.inl rfl) fun q c _ _ ho => ?_
    rw [hpc] at ho
    exact ho
  | kill hpc ha =>
    refine h.quiet hmv rfl rfl rfl (.inl rfl) fun q c _ _ ho => ?_
    rw [hpc] at ho
    exact hp _ _ hpc ha c ho
  | panic hpc ha => exact h
  | sleepRelease hpc =>
    intro q c hz hw
    obtain ⟨r, hr, ho⟩ := h q c (hmv.dozing rfl (.inr (by rw [hpc]; rfl)) hz) hw
    have hrp : r = p := Option.some.inj (hr.symm.trans ((hi.lock p).2 (by rw [hpc]; rfl)))
    rw [hrp, hpc] at ho
    exact ho.elim
  | relock hpc hl =>
    intro q c hz hw
    obtain ⟨r, hr, -⟩ := h q c (hmv.dozing rfl (.inl rfl) hz) hw
    rw [hl] at hr
    cases hr
  | @wakeSelf c' l hpc =>
    refine h.quiet hmv rfl rfl rfl (.inl rfl) fun q c _ hz ho => ?_
    rw [hpc] at ho
    rcases ho with ⟨hc, hq⟩ | ho
    · -- the thread that runs `wakeup` does not sleep
      refine .inl ⟨hc, Nat.lt_of_le_of_ne hq fun he => ?_⟩
      have hqp : q = p := (Fin.ext he).symm
      rcases hmv.dozing rfl (.inl rfl) hz with hz | hz
      · rw [hqp, hpc] at hz; cases hz
      · have := hi.asleep q hz.1
        rw [hqp, hpc] at this
        cases this
    · exact .inr ho
  | wakeEnd hpc hj =>
    refine h.quiet hmv rfl rfl rfl (.inl rfl) fun q c _ _ ho => ?_
    rw [hpc] at ho
    rcases ho with ⟨-, hq⟩ | ho
    · exact absurd (hj.trans hq) (Nat.not_le_of_lt q.isLt)
    · exact ho
  | @wakeRouse c' r l hpc hc =>
    refine h.quiet hmv rfl rfl rfl (.inl rfl) fun q c hl hz ho => ?_
    rw [hpc] at ho
    refine owed_wakeUnlock ho fun he hrq => ?_
    subst hrq
    rcases hz with hz | hz
    · rw [State.goto_pc] at hz
      by_cases hrp : r = p
      · rw [hrp, Function.update_self] at hz; cases hz
      · rw [Function.update_of_ne hrp] at hz
        exact absurd ((hi.dozes_eq_none hpc hl).symm.trans hz) nofun
    · exact absurd rfl ((rouse_sleeping s r r).1 hz.1).1
  | @wakePass c' r l hpc hc =>
    refine h.quiet hmv rfl rfl rfl (.inl rfl) fun q c hl hz ho => ?_
    rw [hpc] at ho
    refine owed_wakeUnlock ho fun he hrq => ?_
    subst hrq he
    rcases hmv.dozing rfl (.inl rfl) hz with hz | hz
    · rw [hi.dozes_eq_none hpc hl] at hz; cases hz
    · exact hc hz.2
  | @wakeUnlock c' r l hpc =>
    refine h.quiet hmv rfl rfl rfl (.inl rfl) fun q c _ _ ho => ?_
    rw [hpc] at ho
    exact ho.imp_left fun ho => ⟨ho.1, ho.2⟩
  | @killedRead l k hpc =>
    obtain ⟨t, j, ha⟩ := hi.asked p l k (.inr hpc)
    refine h.quiet hmv rfl rfl rfl (.inl rfl) fun q c _ hz ho => ?_
    rw [hpc] at ho
    exact hk _ _ _ _ hpc ha q c (hmv.dozing rfl (.inl rfl) hz) ho
  | _ =>
    refine h.quiet hmv rfl rfl rfl
      (by rw [‹s.pc p = _›]; first | exact .inl rfl | exact .inr rfl) fun q c _ _ ho => ?_
    rw [‹s.pc p = _›] at ho
    exact ho

end NoLost

/-! ## Runs -/

/-- All threads in their own code, all locks free. -/
def start (l : Fin n → L) (t : S) : State n C S L where
  lock := none
  plock := fun _ => none
  state := fun _ => .running
  chan := fun _ => none
  killed := fun _ => false
  pc := fun p => .code (l p)
  shared := t
  halted := none

/-- The states that steps allowed by `ok` reach. -/
inductive Reach [DecidableEq C] (code : Code n C S L I) (ok : State n C S L → Fin n → I → Prop)
    (s₀ : State n C S L) : State n C S L → Prop
  | start : Reach code ok s₀ s₀
  | step {s s' : State n C S L} {p : Fin n} {i : I} (hs : Reach code ok s₀ s) (hok : ok s p i)
      (h : step code s p i = some s') : Reach code ok s₀ s'

/-- The state after a schedule of allowed steps: which thread takes each step, with which input. -/
def run [DecidableEq C] (code : Code n C S L I) (ok : State n C S L → Fin n → I → Prop)
    [∀ s p i, Decidable (ok s p i)] :
    List (Fin n × I) → State n C S L → Option (State n C S L)
  | [], s => some s
  | (p, i) :: sched, s => if ok s p i then (step code s p i).bind (run code ok sched) else none

/-- Every step is allowed. -/
abbrev anyStep (_ : State n C S L) (_ : Fin n) (_ : I) : Prop := True

section Start

variable {code : Code n C S L I} {inside : L → Bool} {l : Fin n → L} {t : S}

theorem inv_start (h : ∀ p, inside (l p) = false) : Inv code inside (start l t) :=
  ⟨fun p => ⟨nofun, fun hp => absurd ((h p).symm.trans hp) Bool.false_ne_true⟩,
    fun _ _ => ⟨nofun, nofun⟩, nofun, nofun, fun _ _ _ h => h.elim nofun nofun⟩

theorem noLost_start {wake : C → S → Prop} {owes : L → C → Prop} :
    NoLost wake owes (start l t) := by
  rintro q c (h | h)
  · cases h
  · cases h.1

theorem inside_start {F : S → Prop} {At : L → S → Prop} (h : ∀ p, inside (l p) = false)
    (hF : F t) : Inside inside F At (start (C := C) l t) :=
  ⟨fun _ => hF, fun p hp => absurd ((h p).symm.trans hp) Bool.false_ne_true⟩

end Start

section Runs

variable [DecidableEq C] {code : Code n C S L I} {ok : State n C S L → Fin n → I → Prop}
variable {s₀ s s' : State n C S L} {inside : L → Bool}

/-- What holds at the start and is kept by every allowed step holds in every state reached. -/
theorem Reach.induct {J : State n C S L → Prop} (h0 : J s₀)
    (hstep : ∀ s p i s', J s → ok s p i → s.halted = none → Move code s p i s' → J s')
    (h : Reach code ok s₀ s) : J s := by
  induction h with
  | start => exact h0
  | step hs hok h ih =>
    obtain ⟨hh, hm⟩ := step_move h
    exact hstep _ _ _ _ ih hok hh hm

variable [∀ s p i, Decidable (ok s p i)]

theorem Reach.trans_run (hs : Reach code ok s₀ s) :
    ∀ {sched : List (Fin n × I)} {s' : State n C S L}, run code ok sched s = some s' →
      Reach code ok s₀ s' := by
  intro sched
  induction sched generalizing s with
  | nil => intro s' h; cases h; exact hs
  | cons x sched ih =>
    intro s' h
    rw [run] at h
    split at h
    · next hok =>
      obtain ⟨s₁, h1, h2⟩ := Option.bind_eq_some_iff.1 h
      exact ih (.step hs hok h1) h2
    · cases h

/-- A schedule that can be followed leads to a reachable state. -/
theorem reach_run {sched : List (Fin n × I)} (h : run code ok sched s₀ = some s) :
    Reach code ok s₀ s := Reach.trans_run .start h

end Runs

/-! ## Counting over the threads -/

section Total

variable {f : L → Nat} {loc : Fin n → L} {p : Fin n}

/-- The sum of a quantity over the control points of the threads. -/
def total (f : L → Nat) (loc : Fin n → L) : Nat := ∑ p, f (loc p)

theorem total_update (f : L → Nat) (loc : Fin n → L) (p : Fin n) (l : L) :
    total f (Function.update loc p l) + f (loc p) = total f loc + f l := by
  have he : (fun q => f (Function.update loc p l q)) =
      Function.update (fun q => f (loc q)) p (f l) := by
    funext q
    by_cases hq : q = p
    · rw [hq, Function.update_self, Function.update_self]
    · rw [Function.update_of_ne hq, Function.update_of_ne hq]
  rw [total, total, he, Finset.sum_update_of_mem (Finset.mem_univ p),
    ← Finset.add_sum_erase _ _ (Finset.mem_univ p), Finset.sdiff_singleton_eq_erase]
  omega

theorem total_update_same {l : L} (h : f l = f (loc p)) :
    total f (Function.update loc p l) = total f loc := by
  have := total_update f loc p l
  omega

theorem le_total (f : L → Nat) (loc : Fin n → L) (p : Fin n) : f (loc p) ≤ total f loc :=
  Finset.single_le_sum (f := fun q => f (loc q)) (fun _ _ => Nat.zero_le _) (Finset.mem_univ p)

theorem total_le_mul {g : L → Nat} {k : Nat} (h : ∀ l, f l ≤ k * g l) (loc : Fin n → L) :
    total f loc ≤ k * total g loc := by
  rw [total, total, Finset.mul_sum]
  exact Finset.sum_le_sum fun p _ => h (loc p)

theorem total_eq_zero (h : ∀ p, f (loc p) = 0) : total f loc = 0 :=
  Finset.sum_eq_zero fun p _ => h p

theorem total_le (h : ∀ l, f l ≤ 1) (loc : Fin n → L) : total f loc ≤ n := by
  have hsum : total f loc ≤ ∑ _p : Fin n, 1 := Finset.sum_le_sum fun p _ => h (loc p)
  rwa [← Finset.card_eq_sum_ones, Finset.card_univ, Fintype.card_fin] at hsum

/-- Threads that are told apart by `m` things are at least `m`. -/
theorem le_total_of_injective {m : Nat} {g : Fin m → Fin n} (hg : Function.Injective g)
    (h : ∀ b, 1 ≤ f (loc (g b))) : m ≤ total f loc := by
  calc m = ∑ _b : Fin m, 1 := by
        rw [← Finset.card_eq_sum_ones, Finset.card_univ, Fintype.card_fin]
    _ ≤ ∑ b : Fin m, f (loc (g b)) := Finset.sum_le_sum fun b _ => h b
    _ = ∑ p ∈ Finset.univ.image g, f (loc p) :=
        (Finset.sum_image (f := fun p => f (loc p)) fun b _ c _ hbc => hg hbc).symm
    _ ≤ total f loc := Finset.sum_le_sum_of_subset (Finset.subset_univ _)

end Total

end Monitor
