import Xv6.Sched.Kernel

/-!
# What a step can do

What a step of a thread or of a scheduler can do is said once, in `Does` and `SDoes`.  From it
follow the facts about control points alone: which locks a step takes and releases
(`Does.locks`), which locks it needs for what it changes (`Does.needs`), and when a thread is on
its way off its CPU (`Does.leaving`).
-/

set_option autoImplicit false

namespace Xv6.Sched

variable {n : Nat} {C : Type}

section

variable [NeZero n]

/-! ## What a step can do -/

/-- A step of the thread of process `p` on CPU `c`. -/
inductive Does (c : C) (p : Fin n) (s : State n C) : Loc n → Eff n → Loc n → Prop
  | interrupt {l : Loc n} (ch : Nat) (h : l.holds p = []) :
      Does c p s l .nop (.wakeup (some (.other ch)) (slots n) l)
  | preempt {l : Loc n} (h : l.holds p = []) : Does c p s l .nop (.acquire (.proc p) (.yielding l))
  | acquire {l : Lk n} {k : Loc n} (h : s.lock l = none) : Does c p s (.acquire l k) (.acquire l) k
  | release {l : Lk n} {k : Loc n} : Does c p s (.release l k) (.release l) k
  | lock {x : Option Int} (m : Nat) :
      Does c p s (.running x) .nop (.acquire (.other m) (.locked m x))
  | touch {x : Option Int} :
      Does c p s (.running x) .nop (.acquire (.proc p) (.release (.proc p) (.running x)))
  | lockedSleep {m : Nat} {x : Option Int} (ch : Nat) :
      Does c p s (.locked m x) .nop (.sleep (.other ch m x))
  | lockedWakeup {m : Nat} {x : Option Int} (ch : Nat) :
      Does c p s (.locked m x) .nop (.wakeup (some (.other ch)) (slots n) (.locked m x))
  | unlock {m : Nat} {x : Option Int} :
      Does c p s (.locked m x) .nop (.release (.other m) (.running x))
  | fork : Does c p s (.running none) .nop (.scan (slots n))
  | forkFull : Does c p s (.scan []) .nop (.running none)
  | scan {i : Fin n} {rest : List (Fin n)} :
      Does c p s (.scan (i :: rest)) .nop (.acquire (.proc i) (.test i rest))
  | testUnused {i : Fin n} {rest : List (Fin n)} (h : (s.tab.proc i).state = .unused) :
      Does c p s (.test i rest) .nop (.acquire .pid (.allocpid i))
  | testUsed {i : Fin n} {rest : List (Fin n)} :
      Does c p s (.test i rest) .nop (.release (.proc i) (.scan rest))
  | allocpid {i : Fin n} : Does c p s (.allocpid i) (.event .allocpid)
      (.release .pid (.found i s.tab.nextpid))
  | found {i : Fin n} {pid : Int} : Does c p s (.found i pid) (.event (.claim i pid)) (.alloc i)
  | alloc {i : Fin n} : Does c p s (.alloc i) .nop (.copy i)
  | allocFails {i : Fin n} :
      Does c p s (.alloc i) (.event (.free i)) (.release (.proc i) (.running none))
  | copy {i : Fin n} :
      Does c p s (.copy i) .nop (.release (.proc i) (.acquire .wait (.adopt i)))
  | copyFails {i : Fin n} :
      Does c p s (.copy i) (.event (.free i)) (.release (.proc i) (.running none))
  | adopt {i : Fin n} : Does c p s (.adopt i) (.event (.adopt i p))
      (.release .wait (.acquire (.proc i) (.start i)))
  | start {i : Fin n} :
      Does c p s (.start i) (.event (.start i)) (.release (.proc i) (.running none))
  | exit {st : Int} (h : p ≠ 0) :
      Does c p s (.running none) (.event (.exit p st)) (.running (some st))
  | exitLock {st : Int} :
      Does c p s (.running (some st)) .nop (.acquire .wait (.reparent (slots n) st))
  | giveUp {i : Fin n} {rest : List (Fin n)} {st : Int} (h : s.tab.parent i = some p) :
      Does c p s (.reparent (i :: rest) st) (.event (.giveUp i 0))
        (.wakeup (some (.proc 0)) (slots n) (.reparent rest st))
  | notMine {i : Fin n} {rest : List (Fin n)} {st : Int} (h : s.tab.parent i ≠ some p) :
      Does c p s (.reparent (i :: rest) st) .nop (.reparent rest st)
  | tellParent {st : Int} : Does c p s (.reparent [] st) .nop
      (.wakeup ((s.tab.parent p).map .proc) (slots n) (.acquire (.proc p) (.zombie st)))
  | zombie {st : Int} :
      Does c p s (.zombie st) (.event (.zombie p st)) (.release .wait (.sched .dead))
  | wakeupEnd {ch : Option (Chan n)} {k : Loc n} : Does c p s (.wakeup ch [] k) .nop k
  | wakeupSelf {ch : Option (Chan n)} {i : Fin n} {rest : List (Fin n)} {k : Loc n}
      (h : s.cur c = some i) : Does c p s (.wakeup ch (i :: rest) k) .nop (.wakeup ch rest k)
  | wakeup {ch : Option (Chan n)} {i : Fin n} {rest : List (Fin n)} {k : Loc n} :
      Does c p s (.wakeup ch (i :: rest) k) .nop (.acquire (.proc i) (.wake ch i rest k))
  | wake {ch : Option (Chan n)} {i : Fin n} {rest : List (Fin n)} {k : Loc n}
      (h : (s.tab.proc i).state = .sleeping) :
      Does c p s (.wake ch i rest k) (.event (.wake i)) (.release (.proc i) (.wakeup ch rest k))
  | noWake {ch : Option (Chan n)} {i : Fin n} {rest : List (Fin n)} {k : Loc n}
      (h : ¬ ((s.tab.proc i).state = .sleeping ∧ (s.tab.proc i).chan = ch)) :
      Does c p s (.wake ch i rest k) .nop (.release (.proc i) (.wakeup ch rest k))
  | sleep {b : Sleeper} :
      Does c p s (.sleep b) .nop (.acquire (.proc p) (.release b.lk (.sleeping b)))
  | sleeping {b : Sleeper} :
      Does c p s (.sleeping b) (.event (.sleep p (b.chan p))) (.sched (.awake b))
  | awake {b : Sleeper} :
      Does c p s (.awake b) (.event (.tidy p)) (.release (.proc p) (.acquire b.lk b.back))
  | sched {k : Loc n} : Does c p s (.sched k) .leave k
  | yielding {k : Loc n} :
      Does c p s (.yielding k) (.event (.yield p)) (.sched (.release (.proc p) k))
  | kill {pid : Int} : Does c p s (.running none) .nop (.kill pid (slots n))
  | killNone {pid : Int} : Does c p s (.kill pid []) .nop (.running none)
  | killNext {pid : Int} {i : Fin n} {rest : List (Fin n)} :
      Does c p s (.kill pid (i :: rest)) .nop (.acquire (.proc i) (.killing pid i rest))
  | killing {pid : Int} {i : Fin n} {rest : List (Fin n)} :
      Does c p s (.killing pid i rest) (.event (.kill i)) (.release (.proc i) (.running none))
  | noKill {pid : Int} {i : Fin n} {rest : List (Fin n)} :
      Does c p s (.killing pid i rest) .nop (.release (.proc i) (.kill pid rest))
  | setkilled : Does c p s (.running none) .nop (.acquire (.proc p) .setkilled)
  | setkilledSet :
      Does c p s .setkilled (.event (.setkilled p)) (.release (.proc p) (.running none))
  | wait {addr : Bool} : Does c p s (.running none) .nop (.acquire .wait (.waitLoop addr))
  | waitLoop {addr : Bool} : Does c p s (.waitLoop addr) .nop (.waitScan (slots n) false addr)
  | waitChild {i : Fin n} {rest : List (Fin n)} {hk addr : Bool} (h : s.tab.parent i = some p) :
      Does c p s (.waitScan (i :: rest) hk addr) .nop (.acquire (.proc i) (.child i rest addr))
  | waitOther {i : Fin n} {rest : List (Fin n)} {hk addr : Bool} (h : s.tab.parent i ≠ some p) :
      Does c p s (.waitScan (i :: rest) hk addr) .nop (.waitScan rest hk addr)
  | childZombie {i : Fin n} {rest : List (Fin n)} {addr : Bool}
      (h : (s.tab.proc i).state = .zombie) : Does c p s (.child i rest addr) .nop
        (.reap i (s.tab.proc i).pid (if addr then some (s.tab.proc i).xstate else none))
  | childAlive {i : Fin n} {rest : List (Fin n)} {addr : Bool}
      (h : (s.tab.proc i).state ≠ .zombie) :
      Does c p s (.child i rest addr) .nop (.release (.proc i) (.waitScan rest true addr))
  | copyoutFails {i : Fin n} {rest : List (Fin n)} (h : (s.tab.proc i).state = .zombie) :
      Does c p s (.child i rest true) .nop (.release (.proc i) (.waitReturn (.copyFails i)))
  | reap {i : Fin n} {pid : Int} {st : Option Int} : Does c p s (.reap i pid st)
      (.event (.reap p i st)) (.release (.proc i) (.waitReturn (.reaped pid st)))
  | noChildren {addr : Bool} :
      Does c p s (.waitScan [] false addr) .nop (.waitReturn .noChildren)
  | haveKids {addr : Bool} :
      Does c p s (.waitScan [] true addr) .nop (.acquire (.proc p) (.waitKilled addr))
  | waitKilled {addr : Bool} (h : (s.tab.proc p).killed = true) :
      Does c p s (.waitKilled addr) .nop (.release (.proc p) (.waitReturn .killed))
  | waitSleep {addr : Bool} :
      Does c p s (.waitKilled addr) .nop (.release (.proc p) (.sleep (.wait addr)))
  | waitReturn {r : Ret n} : Does c p s (.waitReturn r) (.release .wait) (.waited r)
  | waited {r : Ret n} : Does c p s (.waited r) .nop (.running none)
  | forkret : Does c p s .forkret .nop (.release (.proc p) (.running none))

theorem does {c : C} {p : Fin n} {s : State n C} {l k : Loc n} {e : Eff n} {ch : Choice}
    (h : code c p s l ch = some (e, k)) : Does c p s l e k := by
  unfold code at h
  split at h
  · split at h
    · next h1 => cases h; exact .interrupt _ h1
    · cases h
  · split at h
    · next h1 => cases h; exact .preempt h1
    · cases h
  · split at h
    · next h1 => cases h; exact .acquire h1
    · cases h
  · cases h; exact .release
  · cases h; exact .lock _
  · cases h; exact .touch
  · cases h; exact .lockedSleep _
  · cases h; exact .lockedWakeup _
  · cases h; exact .unlock
  · cases h; exact .fork
  · cases h; exact .forkFull
  · cases h; exact .scan
  · split at h
    · next h1 => cases h; exact .testUnused h1
    · cases h; exact .testUsed
  · cases h; exact .allocpid
  · cases h; exact .found
  · cases h; exact .alloc
  · cases h; exact .allocFails
  · cases h; exact .copy
  · cases h; exact .copyFails
  · cases h; exact .adopt
  · cases h; exact .start
  · split at h
    · cases h
    · next h1 => cases h; exact .exit h1
  · cases h; exact .exitLock
  · split at h
    · next h1 => cases h; exact .giveUp h1
    · next h1 => cases h; exact .notMine h1
  · cases h; exact .tellParent
  · cases h; exact .zombie
  · cases h; exact .wakeupEnd
  · split at h
    · next h1 => cases h; exact .wakeupSelf h1
    · cases h; exact .wakeup
  · split at h
    · next h1 => cases h; exact .wake h1.1
    · next h1 => cases h; exact .noWake h1
  · cases h; exact .sleep
  · cases h; exact .sleeping
  · cases h; exact .awake
  · cases h; exact .sched
  · cases h; exact .yielding
  · cases h; exact .kill
  · cases h; exact .killNone
  · cases h; exact .killNext
  · split at h
    · cases h; exact .killing
    · cases h; exact .noKill
  · cases h; exact .setkilled
  · cases h; exact .setkilledSet
  · cases h; exact .wait
  · cases h; exact .waitLoop
  · split at h
    · next h1 => cases h; exact .waitChild h1
    · next h1 => cases h; exact .waitOther h1
  · split at h
    · next h1 => cases h; exact .childZombie h1
    · next h1 => cases h; exact .childAlive h1
  · split at h
    · next h1 => cases h; exact .copyoutFails h1
    · cases h
  · cases h; exact .reap
  · cases h; exact .noChildren
  · cases h; exact .haveKids
  · split at h
    · next h1 => cases h; exact .waitKilled h1
    · cases h; exact .waitSleep
  · cases h; exact .waitReturn
  · cases h; exact .waited
  · cases h; exact .forkret
  · cases h

end

/-- A step of the scheduler of CPU `c`. -/
inductive SDoes (c : C) (s : State n C) : SLoc n → Eff n → SLoc n → Prop
  | interrupt {l : SLoc n} (ch : Nat) (h : l.holds = []) :
      SDoes c s l .nop (.wakeup (some (.other ch)) (slots n) l)
  | acquire {l : Lk n} {k : SLoc n} (h : s.lock l = none) : SDoes c s (.acquire l k) (.acquire l) k
  | release {l : Lk n} {k : SLoc n} : SDoes c s (.release l k) (.release l) k
  | wakeupEnd {ch : Option (Chan n)} {k : SLoc n} : SDoes c s (.wakeup ch [] k) .nop k
  | wakeupSelf {ch : Option (Chan n)} {i : Fin n} {rest : List (Fin n)} {k : SLoc n} :
      SDoes c s (.wakeup ch (i :: rest) k) .nop (.wakeup ch rest k)
  | wakeup {ch : Option (Chan n)} {i : Fin n} {rest : List (Fin n)} {k : SLoc n} :
      SDoes c s (.wakeup ch (i :: rest) k) .nop (.acquire (.proc i) (.wake ch i rest k))
  | wake {ch : Option (Chan n)} {i : Fin n} {rest : List (Fin n)} {k : SLoc n}
      (h : (s.tab.proc i).state = .sleeping) :
      SDoes c s (.wake ch i rest k) (.event (.wake i)) (.release (.proc i) (.wakeup ch rest k))
  | noWake {ch : Option (Chan n)} {i : Fin n} {rest : List (Fin n)} {k : SLoc n} :
      SDoes c s (.wake ch i rest k) .nop (.release (.proc i) (.wakeup ch rest k))
  | heat : SDoes c s .loop .nop (.heat (slots n))
  | noHeat : SDoes c s .loop .nop (.scan (slots n))
  | heatEnd : SDoes c s (.heat []) .nop (.scan (slots n))
  | heatNext {i : Fin n} {rest : List (Fin n)} : SDoes c s (.heat (i :: rest)) .nop
      (.acquire (.proc i) (.release (.proc i) (.heat rest)))
  | scanEnd : SDoes c s (.scan []) .nop .loop
  | scan {i : Fin n} {rest : List (Fin n)} :
      SDoes c s (.scan (i :: rest)) .nop (.acquire (.proc i) (.test i rest))
  | run {i : Fin n} {rest : List (Fin n)} (h : (s.tab.proc i).state = .runnable) :
      SDoes c s (.test i rest) (.event (.run i)) (.dispatch i rest)
  | skip {i : Fin n} {rest : List (Fin n)} :
      SDoes c s (.test i rest) .nop (.release (.proc i) (.scan rest))
  | dispatch {i : Fin n} {rest : List (Fin n)} :
      SDoes c s (.dispatch i rest) (.cur (some i)) (.swtch i rest)
  | swtch {i : Fin n} {rest : List (Fin n)} :
      SDoes c s (.swtch i rest) (.enter i) (.back i rest)
  | back {i : Fin n} {rest : List (Fin n)} :
      SDoes c s (.back i rest) (.cur none) (.release (.proc i) (.scan rest))

theorem sdoes {c : C} {s : State n C} {l k : SLoc n} {e : Eff n} {ch : Choice} [DecidableEq C]
    (h : scode c s l ch = some (e, k)) : SDoes c s l e k := by
  unfold scode at h
  split at h
  · split at h
    · next h1 => cases h; exact .interrupt _ h1
    · cases h
  · split at h
    · next h1 => cases h; exact .acquire h1
    · cases h
  · cases h; exact .release
  · cases h; exact .wakeupEnd
  · split at h
    · cases h; exact .wakeupSelf
    · cases h; exact .wakeup
  · split at h
    · next h1 => cases h; exact .wake h1.1
    · cases h; exact .noWake
  · cases h; exact .heat
  · cases h; exact .noHeat
  · cases h; exact .heatEnd
  · cases h; exact .heatNext
  · cases h; exact .scanEnd
  · cases h; exact .scan
  · split at h
    · next h1 => cases h; exact .run h1
    · cases h; exact .skip
  · split at h
    · cases h; exact .skip
    · cases h
  · cases h; exact .dispatch
  · cases h; exact .swtch
  · cases h; exact .back
  · cases h

/-! ## The shape of control points -/

/-- Is the thread on its way to the `swtch` of `sched()`, its state already changed? -/
def Loc.leaving : Loc n → Bool
  | .sched _ => true
  | .release _ k => k.leaving
  | _ => false

/-- The locks that the facts known at a point rest on. -/
def Loc.relies : Loc n → List (Lk n)
  | .allocpid i | .found i _ => [.proc i]
  | .waitScan _ _ _ | .child _ _ _ | .reap _ _ _ | .waitReturn _ | .zombie _ => [.wait]
  | .acquire _ k | .release _ k | .wakeup _ _ k | .wake _ _ _ k | .sched k | .yielding k =>
    k.relies
  | _ => []

/-- The points after a `sched()`, and the first point of a thread. -/
def Loc.afterSched : Loc n → Bool
  | .awake _ | .release _ _ | .forkret | .dead => true
  | _ => false

/-- The points at which a thread may be when it does not run: it is resumed with its lock held. -/
structure Loc.Resumes (p : Fin n) (l : Loc n) : Prop where
  after : l.afterSched = true
  holds : l.holds p = [.proc p]
  relies : l.relies = []
  leaving : l.leaving = false

/-- The points that the code builds. -/
def Loc.Wf (p : Fin n) : Loc n → Prop
  | .acquire l k => (l ∈ k.holds p ∧ l ∉ k.relies ∧ k.leaving = false) ∧ k.Wf p
  | .release l k => l ∉ k.holds p ∧ k.Wf p
  | .wakeup _ _ k | .wake _ _ _ k => (∀ i, .proc i ∉ k.holds p) ∧ k.Wf p
  | .sched k => k.Resumes p ∧ k.Wf p
  | .yielding k => k.holds p = [] ∧ k.Wf p
  | _ => True

theorem Loc.Wf.nodup {p : Fin n} {l : Loc n} (h : l.Wf p) : (l.holds p).Nodup := by
  induction l with
  | acquire l k ih => exact (ih h.2).erase l
  | release l k ih => exact List.nodup_cons.2 ⟨h.1, ih h.2⟩
  | wakeup ch rest k ih => exact ih h.2
  | wake ch i rest k ih => exact List.nodup_cons.2 ⟨h.1 i, ih h.2⟩
  | _ => simp [Loc.holds]

theorem Loc.Wf.relies {p : Fin n} {l : Loc n} (h : l.Wf p) : ∀ x ∈ l.relies, x ∈ l.holds p := by
  induction l with
  | acquire l k ih =>
    intro x hx
    have hne : x ≠ l := fun he => h.1.2.1 (he ▸ hx)
    exact (List.mem_erase_of_ne hne).2 (ih h.2 x hx)
  | release l k ih => exact fun x hx => List.mem_cons_of_mem l (ih h.2 x hx)
  | wakeup ch rest k ih => exact ih h.2
  | wake ch i rest k ih => exact fun x hx => List.mem_cons_of_mem _ (ih h.2 x hx)
  | sched k ih =>
    intro x hx
    rw [Loc.relies, h.1.relies] at hx
    cases hx
  | yielding k ih =>
    intro x hx
    have := ih h.2 x hx
    rw [h.1] at this
    cases this
  | _ => simp [Loc.holds, Loc.relies]

theorem Loc.holds_of_leaving {p : Fin n} {l : Loc n} (h : l.leaving = true) :
    .proc p ∈ l.holds p := by
  induction l with
  | sched k => exact List.mem_singleton.2 rfl
  | release l k ih => exact List.mem_cons_of_mem l (ih h)
  | _ => cases h

theorem Loc.Wf.relies_nil {p : Fin n} {l : Loc n} (hw : l.Wf p) (h : l.holds p = []) : l.relies = [] := by
  refine List.eq_nil_iff_forall_not_mem.2 fun x hx => ?_
  have := hw.relies x hx
  rw [h] at this
  cases this

theorem Loc.Wf.not_leaving {p : Fin n} {l : Loc n} (h : ∀ i, .proc i ∉ l.holds p) : l.leaving = false :=
  Bool.eq_false_iff.2 fun hl => h p (Loc.holds_of_leaving hl)

@[simp] theorem Sleeper.lk_ne_proc (b : Sleeper) (i : Fin n) : b.lk ≠ Lk.proc i := by
  cases b <;> nofun

@[simp] theorem Sleeper.holds_back (b : Sleeper) (p : Fin n) :
    (b.back : Loc n).holds p = [b.lk] := by
  cases b <;> rfl

@[simp] theorem Sleeper.relies_back (b : Sleeper) : (b.back : Loc n).relies = [] := by
  cases b <;> rfl

@[simp] theorem Sleeper.leaving_back (b : Sleeper) : (b.back : Loc n).leaving = false := by
  cases b <;> rfl

@[simp] theorem Sleeper.wf_back (b : Sleeper) (p : Fin n) : (b.back : Loc n).Wf p := by
  cases b <;> trivial

/-- How the locks of the thread change. -/
def Eff.Locks (e : Eff n) (old new : List (Lk n)) : Prop :=
  match e with
  | .acquire x => x ∉ old ∧ ∀ y, y ∈ new ↔ y = x ∨ y ∈ old
  | .release x => x ∈ old ∧ ∀ y, y ∈ new ↔ y ≠ x ∧ y ∈ old
  | _ => ∀ y, y ∈ new ↔ y ∈ old

theorem locks_acquire {x : Lk n} {new : List (Lk n)} (hd : new.Nodup) (hx : x ∈ new) :
    (Eff.acquire x).Locks (new.erase x) new := by
  refine ⟨fun h => (hd.mem_erase_iff.1 h).1 rfl, fun y => ?_⟩
  rw [hd.mem_erase_iff]
  by_cases hy : y = x
  · simp only [hy, hx, true_or]
  · simp only [hy, false_or, ne_eq, not_false_iff, true_and]

theorem locks_release {x : Lk n} {new : List (Lk n)} (hx : x ∉ new) :
    (Eff.release x).Locks (x :: new) new := by
  refine ⟨List.mem_cons_self, fun y => ?_⟩
  rw [List.mem_cons]
  by_cases hy : y = x
  · simp only [hy, hx, ne_eq, not_true_eq_false, false_and]
  · simp only [hy, false_or, ne_eq, not_false_iff, true_and]

/-- The locks that protect what an event changes. -/
def Event.needs : Event n → List (Lk n)
  | .allocpid => [.pid]
  | .claim i _ | .free i | .start i | .wake i | .kill i | .run i => [.proc i]
  | .setkilled p | .tidy p | .yield p | .sleep p _ => [.proc p]
  | .adopt _ _ | .giveUp _ _ => [.wait]
  | .zombie p _ => [.proc p, .wait]
  | .reap _ i _ => [.proc i, .wait]
  | .exit _ _ => []

/-- The process that an event takes out of the state RUNNING. -/
def Event.stops : Event n → Option (Fin n)
  | .sleep p _ | .yield p | .zombie p _ => some p
  | _ => none

section

variable [NeZero n] {c : C} {p : Fin n} {s : State n C} {l k : Loc n} {e : Eff n}

/-- The code builds well-formed points. -/
theorem Does.wf (h : Does c p s l e k) (hw : l.Wf p) : k.Wf p := by
  cases h with
  | interrupt ch h0 => exact ⟨fun i hi => List.not_mem_nil (h0 ▸ hi), hw⟩
  | preempt h0 =>
    refine ⟨⟨List.mem_singleton.2 rfl, ?_, rfl⟩, h0, hw⟩
    rw [Loc.relies, hw.relies_nil h0]
    exact List.not_mem_nil
  | acquire h0 => exact hw.2
  | release => exact hw.2
  | wakeupEnd => exact hw.2
  | wakeupSelf h0 => exact hw
  | wakeup =>
    exact ⟨⟨List.mem_cons_self, fun hr => hw.1 _ (hw.2.relies _ hr), rfl⟩, hw⟩
  | wake h0 => exact ⟨hw.1 _, hw⟩
  | noWake h0 => exact ⟨hw.1 _, hw⟩
  | sched => exact hw.2
  | @yielding k =>
    refine ⟨⟨rfl, ?_, hw.2.relies_nil hw.1, ?_⟩, ?_, hw.2⟩
    · rw [Loc.holds, hw.1]
    · show k.leaving = false
      exact Loc.Wf.not_leaving (p := p) fun i hi => List.not_mem_nil (hw.1 ▸ hi)
    · rw [hw.1]
      exact List.not_mem_nil
  | zombie => exact ⟨by simp [Loc.holds], ⟨rfl, rfl, rfl, rfl⟩, trivial⟩
  | sleeping => exact ⟨⟨rfl, rfl, rfl, rfl⟩, trivial⟩
  | sleep => simp [Loc.Wf, Loc.holds, Loc.relies, Loc.leaving]
  | awake => simp [Loc.Wf, Loc.holds]
  | _ => simp [Loc.Wf, Loc.holds, Loc.relies, Loc.leaving, Sleeper.lk]

theorem Does.locks (h : Does c p s l e k) (hw : l.Wf p) : e.Locks (l.holds p) (k.holds p) := by
  cases h with
  | acquire h0 => exact locks_acquire hw.2.nodup hw.1.1
  | release => exact locks_release hw.1
  | waitReturn => exact locks_release List.not_mem_nil
  | preempt h0 => simp [Eff.Locks, Loc.holds, h0]
  | sched => simp [Eff.Locks, Loc.holds, hw.1.holds]
  | yielding => simp [Eff.Locks, Loc.holds]
  | sleep =>
    intro y
    simp [Loc.holds]
  | zombie =>
    intro y
    simp only [Loc.holds, List.mem_cons]
    exact or_left_comm
  | awake => simp [Eff.Locks, Loc.holds]
  | _ => simp [Eff.Locks, Loc.holds, Sleeper.lk]

/-- The locks a step needs, and the process it stops. -/
theorem Does.needs {ev : Event n} (h : Does c p s l (.event ev) k) :
    (∀ x ∈ ev.needs, x ∈ l.holds p) ∧ (ev.stops = none ∨ ev.stops = some p) ∧
      ∀ i, ev ≠ .run i := by
  cases h <;> simp [Event.needs, Event.stops, Loc.holds]

/-- A thread is leaving from the event that stops it until it has left. -/
theorem Does.leaving (h : Does c p s l e k) (hw : l.Wf p) (he : e ≠ .leave) :
    k.leaving = true ↔ l.leaving = true ∨ ∃ ev, e = .event ev ∧ ev.stops = some p := by
  cases h with
  | acquire h0 => simp [Loc.leaving, hw.1.2.2]
  | wakeupEnd => simp [Loc.leaving, Loc.Wf.not_leaving hw.1]
  | interrupt ch h0 => simp [Loc.leaving, Loc.Wf.not_leaving (l := l) (p := p) (by simp [h0])]
  | preempt h0 => simp [Loc.leaving, Loc.Wf.not_leaving (l := l) (p := p) (by simp [h0])]
  | sched => exact absurd rfl he
  | _ => simp [Loc.leaving, Event.stops]

end

/-! ## The scheduler's points -/

/-- `c->proc`, as the scheduler has set it. -/
def SLoc.cur : SLoc n → Option (Fin n)
  | .swtch i _ | .back i _ => some i
  | _ => none

/-- The process that the scheduler has picked and not yet switched to. -/
def SLoc.starts : SLoc n → Option (Fin n)
  | .dispatch i _ | .swtch i _ => some i
  | _ => none

/-- The process that has switched back to the scheduler. -/
def SLoc.returns : SLoc n → Option (Fin n)
  | .back i _ => some i
  | _ => none

/-- The points that the scheduler's code builds. -/
def SLoc.Wf : SLoc n → Prop
  | .acquire l k => (l ∈ k.holds ∧ k.cur = none ∧ k.starts = none) ∧ k.Wf
  | .release l k => (l ∉ k.holds ∧ k.cur = none ∧ k.starts = none) ∧ k.Wf
  | .wakeup _ _ k | .wake _ _ _ k =>
    ((∀ i, .proc i ∉ k.holds) ∧ k.cur = none ∧ k.starts = none) ∧ k.Wf
  | _ => True

theorem SLoc.Wf.nodup {l : SLoc n} (h : l.Wf) : l.holds.Nodup := by
  induction l with
  | acquire l k ih => exact (ih h.2).erase l
  | release l k ih => exact List.nodup_cons.2 ⟨h.1.1, ih h.2⟩
  | wakeup ch rest k ih => exact ih h.2
  | wake ch i rest k ih => exact List.nodup_cons.2 ⟨h.1.1 i, ih h.2⟩
  | _ => simp [SLoc.holds]

theorem SLoc.holds_of_cur {l : SLoc n} {i : Fin n} (h : l.cur = some i ∨ l.starts = some i) :
    .proc i ∈ l.holds := by
  cases l <;> simp_all [SLoc.cur, SLoc.starts, SLoc.holds]

theorem SLoc.idle_of_holds {l : SLoc n} (h : l.holds = []) : l.cur = none ∧ l.starts = none := by
  constructor <;> refine Option.eq_none_iff_forall_not_mem.2 fun i hi => ?_
  · exact List.not_mem_nil (h ▸ SLoc.holds_of_cur (.inl hi))
  · exact List.not_mem_nil (h ▸ SLoc.holds_of_cur (.inr hi))

theorem SLoc.returns_of_cur {l : SLoc n} (h : l.cur = none) : l.returns = none := by
  cases l with
  | back i rest => cases h
  | _ => rfl

section

variable {c : C} {s : State n C} {l k : SLoc n} {e : Eff n}

theorem SDoes.wf (h : SDoes c s l e k) (hw : l.Wf) : k.Wf := by
  cases h with
  | interrupt ch h0 =>
    exact ⟨⟨fun i hi => List.not_mem_nil (h0 ▸ hi), SLoc.idle_of_holds h0⟩, hw⟩
  | acquire h0 => exact hw.2
  | release => exact hw.2
  | wakeupEnd => exact hw.2
  | wakeupSelf => exact hw
  | wakeup => exact ⟨⟨List.mem_cons_self, rfl, rfl⟩, hw⟩
  | wake h0 => exact ⟨⟨hw.1.1 _, rfl, rfl⟩, hw⟩
  | noWake => exact ⟨⟨hw.1.1 _, rfl, rfl⟩, hw⟩
  | _ => simp [SLoc.Wf, SLoc.holds, SLoc.cur, SLoc.starts]

theorem SDoes.locks (h : SDoes c s l e k) (hw : l.Wf) : e.Locks l.holds k.holds := by
  cases h with
  | acquire h0 => exact locks_acquire hw.2.nodup hw.1.1
  | release => exact locks_release hw.1.1
  | _ => simp [Eff.Locks, SLoc.holds]

theorem SDoes.needs [NeZero n] {ev : Event n} (h : SDoes c s l (.event ev) k) :
    (∀ x ∈ ev.needs, x ∈ l.holds) ∧ ev.stops = none ∧ ev.Allowed s.tab := by
  cases h with
  | wake h0 => exact ⟨by simp [Event.needs, SLoc.holds], rfl, h0⟩
  | run h0 => exact ⟨by simp [Event.needs, SLoc.holds], rfl, h0⟩

theorem SDoes.cur (h : SDoes c s l e k) (hw : l.Wf) :
    (∃ o, e = .cur o ∧ k.cur = o) ∨ (∃ i, e = .enter i) ∨ (∀ o, e ≠ .cur o) ∧ k.cur = l.cur := by
  cases h with
  | acquire h0 => exact .inr (.inr ⟨nofun, hw.1.2.1⟩)
  | release => exact .inr (.inr ⟨nofun, hw.1.2.1⟩)
  | wakeupEnd => exact .inr (.inr ⟨nofun, hw.1.2.1⟩)
  | interrupt ch h0 => exact .inr (.inr ⟨nofun, (SLoc.idle_of_holds h0).1.symm⟩)
  | dispatch => exact .inl ⟨_, rfl, rfl⟩
  | back => exact .inl ⟨_, rfl, rfl⟩
  | swtch => exact .inr (.inl ⟨_, rfl⟩)
  | _ => exact .inr (.inr ⟨nofun, rfl⟩)

theorem SDoes.starts (h : SDoes c s l e k) (hw : l.Wf) (he : ∀ i, e ≠ .enter i) :
    k.returns = none ∧ ∀ i, k.starts = some i ↔ l.starts = some i ∨ e = .event (.run i) := by
  have hplain : k.cur = none → k.starts = none → l.starts = none → (∀ i, e ≠ .event (.run i)) →
      k.returns = none ∧ ∀ i, k.starts = some i ↔ l.starts = some i ∨ e = .event (.run i) := by
    intro hc hk hl he
    refine ⟨SLoc.returns_of_cur hc, fun i => ?_⟩
    rw [hk, hl]
    exact ⟨nofun, fun h => h.elim nofun fun h => absurd h (he i)⟩
  cases h with
  | interrupt ch h0 => exact hplain rfl rfl (SLoc.idle_of_holds h0).2 nofun
  | acquire h0 => exact hplain hw.1.2.1 hw.1.2.2 rfl nofun
  | release => exact hplain hw.1.2.1 hw.1.2.2 rfl nofun
  | wakeupEnd => exact hplain hw.1.2.1 hw.1.2.2 rfl nofun
  | run h0 => simp [SLoc.returns, SLoc.starts]
  | dispatch => simp [SLoc.returns, SLoc.starts]
  | swtch => exact absurd rfl (he _)
  | back => exact hplain rfl rfl rfl nofun
  | _ => exact hplain rfl rfl rfl nofun

end

end Xv6.Sched
