import Mathlib.Data.UInt
import Xv6.Sched.Kernel

/-!
# The heat of processes

The heat-aware scheduler of `kernel/proc.c`, and the traps of `kernel/trap.c` that heat processes
up, on top of the machine of `Xv6.Sched.Kernel`.  There the scheduler chooses whether it calls
`update_heat` and whether it skips a runnable process; here both are decided as the code decides
them, from `ticks` and from the heat of the process.  Every step of this machine is a step of that
one, or leaves it alone (`State.step_sched`), so what holds there holds here.

A timer interrupt is a trap with `scause` `0x8000000000000001`.  On hart 0 it also runs
`clockintr`; that is a step of its own here, `Label.clock`, and the `wakeup(&ticks)` in it is one
of the interrupts of the machine below.
-/

set_option autoImplicit false

namespace Xv6.Heat

open Sched (Choice Loc SLoc slots)

/-! ## The decisions of the scheduler -/

def HEAT_THRESHOLD_HOT : UInt64 := 1500
def HEAT_INCREMENT : Nat := 5
def HEAT_DECAY : UInt64 := 1
def HEAT_SKIP_MAX : Int := 90
def HEAT_SKIP_SCALE : UInt64 := 20

/-- The fields of `struct proc` for the scheduler.  (`heat_level` is only printed.) -/
structure Fields where
  cpuHeat : UInt64
  totalTicks : UInt64
  lastScheduled : UInt64
  timesSkipped : UInt64

/-- What `update_heat` does to the heat of a process. -/
def cool (heat : UInt64) : UInt64 := if HEAT_DECAY < heat then heat - HEAT_DECAY else 0

/-- `skip_chance`: the quotient is a `uint64`, converted to `int`. -/
def skipChance (heat : UInt64) : Int :=
  min (Int.bmod ((heat - HEAT_THRESHOLD_HOT) / HEAT_SKIP_SCALE).toNat (2 ^ 32)) HEAT_SKIP_MAX

/-- `should_skip`: the pid is converted to `uint64`, and so is `skip_chance` in the comparison. -/
def shouldSkip (pid : Int) (heat tick : UInt64) : Bool :=
  HEAT_THRESHOLD_HOT ≤ heat ∧ (UInt64.ofInt pid * tick) % 100 < UInt64.ofInt (skipChance heat)

/-! ## Traps -/

/-- `devintr()`: 2 for the timer, 1 for another device, 0 if it is not an interrupt. -/
def devintr (scause : UInt64) : Nat :=
  if scause &&& 0x8000000000000000 ≠ 0 ∧ scause &&& 0xff = 9 then 1
  else if scause = 0x8000000000000001 then 2
  else 0

/-- The branches of `usertrap`. -/
inductive Branch
  | syscall | device | timer | pagefault | unexpected
  deriving DecidableEq

/-- Which branch `usertrap` takes. -/
def branch (scause : UInt64) : Branch :=
  if scause = 8 then .syscall
  else if devintr scause ≠ 0 then .device
  else if scause &&& 0x8000000000000000 ≠ 0 ∧ scause &&& 0xff = 9 then .timer
  else if scause = 13 ∨ scause = 15 then .pagefault
  else .unexpected

/-- `p->cpu_heat++`. -/
def Fields.warm (f : Fields) : Fields := { f with cpuHeat := f.cpuHeat + 1 }

/-- `p->cpu_heat += 5; p->total_ticks++`. -/
def Fields.account (f : Fields) : Fields :=
  { f with cpuHeat := f.cpuHeat + 5, totalTicks := f.totalTicks + 1 }

/-- `which_dev` in `usertrap`. -/
def whichDev (scause : UInt64) : Nat :=
  match branch scause with
  | .device | .timer => devintr scause
  | _ => 0

/-- What `usertrap` does to the fields of the process, and how much heat it adds: in the branch for
the timer, and at the end of the function. -/
def usertrap (scause : UInt64) (killed : Bool) (f : Fields) : Fields × Nat :=
  let x := if branch scause = .timer ∧ whichDev scause = 2 then (f.account, 5) else (f, 0)
  if whichDev scause = 2 ∧ killed = false then (x.1.warm, x.2 + 1) else x

/-- What `usertrap` goes on to: `setkilled` when it is to blame for the trap, `exit(-1)` when it
was killed, `yield` after a timer interrupt; or else the system call, or back to user space.  Of a
page fault, `fault` says that the address is out of bounds, or that there is no memory. -/
def usertrapCall (scause : UInt64) (killed fault : Bool) : Option Choice :=
  match branch scause with
  | .syscall => if killed then some (.exit (-1)) else none
  | .device | .timer =>
    if killed then some (.exit (-1)) else if whichDev scause = 2 then some .preempt else none
  | .pagefault =>
    if fault then some .setkilled else if killed then some (.exit (-1)) else none
  | .unexpected => some .setkilled

/-! ## The machine -/

variable {n : Nat} {C : Type}

/-- The machine. -/
structure State (n : Nat) (C : Type) where
  sched : Sched.State n C
  /-- How often `clockintr` has run. -/
  clock : Nat
  /-- `current_tick` of the scheduler of a CPU. -/
  current : C → UInt64
  fields : Fin n → Fields
  /-- Ghost: the timer interrupts that came while a CPU executed the process, since it was
  created. -/
  delivered : Fin n → Nat
  /-- Ghost: the heat added to the process since its creation. -/
  added : Fin n → Nat
  /-- Ghost: the heat that `update_heat` removed, when and from whom. -/
  cooled : List (Nat × Fin n × Nat)

/-- `ticks`. -/
def State.ticks (s : State n C) : UInt64 := .ofNat s.clock

def State.setFields (s : State n C) (i : Fin n) (f : Fields) : State n C :=
  { s with fields := Function.update s.fields i f }

/-- An interrupt with this `scause` comes while `i` runs. -/
def State.deliver (s : State n C) (i : Fin n) (scause : UInt64) : State n C :=
  { s with
    delivered := Function.update s.delivered i
      (s.delivered i + if devintr scause = 2 then 1 else 0) }

/-- A trap adds `k` to the heat of `i`. -/
def State.heatUp (s : State n C) (i : Fin n) (f : Fields) (k : Nat) : State n C :=
  { s.setFields i f with added := Function.update s.added i (s.added i + k) }

/-- What happens. -/
inductive Label (C : Type)
  /-- A step of the scheduler, or of a kernel thread, on a CPU. -/
  | cpu (c : C) (ch : Choice)
  /-- `ticks++` in `clockintr`. -/
  | clock
  /-- A trap from user mode. -/
  | usertrap (c : C) (scause : UInt64) (fault : Bool)
  /-- A trap from kernel code. -/
  | kerneltrap (c : C) (scause : UInt64)

/-- Is the thread of the process in user mode, or could it be? -/
def user : Loc n → Bool
  | .running none => true
  | _ => false

namespace State

/-- What a step of the thread of a process does to the fields: `allocproc` sets those of the new
process.  Only traps lead to `yield` and to `setkilled`. -/
def thread (s : State n C) : Loc n → Choice → Option (State n C)
  | .alloc i, .go => some
      { s with
        fields := Function.update s.fields i
          { s.fields i with cpuHeat := 0, totalTicks := 0, lastScheduled := 0 }
        delivered := Function.update s.delivered i 0
        added := Function.update s.added i 0 }
  | _, .preempt => none
  | _, .setkilled => none
  | _, _ => some s

/-- One process in `update_heat`. -/
def coolProc (s : State n C) (i : Fin n) : State n C :=
  if (s.sched.tab.proc i).state ≠ .unused then
    { s.setFields i { s.fields i with cpuHeat := cool (s.fields i).cpuHeat } with
      cooled := (s.clock, i, (s.fields i).cpuHeat.toNat - (cool (s.fields i).cpuHeat).toNat) ::
        s.cooled }
  else s

variable [DecidableEq C]

/-- What a step of the scheduler does to the fields. -/
def scheduler (s : State n C) (c : C) : SLoc n → Choice → Option (State n C)
  | .loop, .go =>
    if s.ticks % 10 = 0 then some { s with current := Function.update s.current c s.ticks } else none
  | .loop, .alt =>
    if s.ticks % 10 = 0 then none else some { s with current := Function.update s.current c s.ticks }
  | .release (.proc i) (.heat _), .go => some (s.coolProc i)
  | .test i _, .go =>
    if (s.sched.tab.proc i).state = .runnable then
      if shouldSkip (s.sched.tab.proc i).pid (s.fields i).cpuHeat (s.current c) then none
      else some (s.setFields i { s.fields i with lastScheduled := s.current c })
    else some s
  | .test i _, .alt =>
    if shouldSkip (s.sched.tab.proc i).pid (s.fields i).cpuHeat (s.current c) then
      some (s.setFields i { s.fields i with timesSkipped := (s.fields i).timesSkipped + 1 })
    else none
  | _, _ => some s

variable [NeZero n]

/-- A step of the machine below, after which the fields are those of `s'`. -/
def lift (s' : State n C) (t : Option (Sched.State n C)) : Option (State n C) :=
  t.map fun t => { s' with sched := t }

/-- A step.  `usertrap` takes `p->lock` for `killed(p)` and for the heat; in the kernel, interrupts
are on only where no lock is held. -/
def step (s : State n C) : Label C → Option (State n C)
  | .cpu c ch =>
    match s.sched.on c with
    | some p => (s.thread (s.sched.pc p) ch).bind fun s' => s'.lift (s.sched.step c ch)
    | none => (s.scheduler c (s.sched.spc c) ch).bind fun s' => s'.lift (s.sched.step c ch)
  | .clock => some { s with clock := s.clock + 1 }
  | .usertrap c scause fault =>
    match s.sched.on c with
    | some p => if user (s.sched.pc p) ∧ s.sched.lock (.proc p) = none then
        let x := usertrap scause (s.sched.tab.proc p).killed (s.fields p)
        let s' := (s.deliver p scause).heatUp p x.1 x.2
        match usertrapCall scause (s.sched.tab.proc p).killed fault with
        | some ch => s'.lift (s.sched.step c ch)
        | none => some s'
      else none
    | none => none
  | .kerneltrap c scause =>
    match s.sched.on c with
    | some p => if (s.sched.pc p).holds p = [] ∧ devintr scause ≠ 0 then
        if devintr scause = 2 ∧ (s.sched.tab.proc p).state = .running then
          ((s.deliver p scause).heatUp p (s.fields p).warm 1).lift (s.sched.step c .preempt)
        else some (s.deliver p scause)
      else none
    | none => if (s.sched.spc c).holds = [] ∧ devintr scause ≠ 0 then some s else none

end State

/-- The machine when its CPUs enter `scheduler()`. -/
def boot [NeZero n] : State n C where
  sched := Sched.boot
  clock := 0
  current _ := 0
  fields _ := ⟨0, 0, 0, 0⟩
  delivered _ := 0
  added _ := 0
  cooled := []

/-- The states the machine reaches by steps that `allow` allows. -/
inductive Reach [NeZero n] [DecidableEq C] (allow : State n C → Label C → Prop) :
    State n C → Prop
  | boot : Reach allow boot
  | step {s s' : State n C} {l : Label C} (hs : Reach allow s) (ha : allow s l)
      (h : s.step l = some s') : Reach allow s'

/-- Several steps. -/
def State.run [NeZero n] [DecidableEq C] (s : State n C) : List (Label C) → Option (State n C)
  | [] => some s
  | l :: ls => (s.step l).bind fun s' => s'.run ls

section

variable [NeZero n] [DecidableEq C] {allow : State n C → Label C → Prop} {s s' : State n C}
  {l : Label C}

theorem Reach.run (hs : Reach allow s) {ls : List (Label C)} (ha : ∀ l ∈ ls, ∀ s, allow s l)
    (h : s.run ls = some s') : Reach allow s' := by
  induction ls generalizing s with
  | nil => exact Option.some.inj h ▸ hs
  | cons l ls ih =>
    obtain ⟨s₁, h1, h⟩ := Option.bind_eq_some_iff.1 h
    refine ih (hs.step (ha l List.mem_cons_self s) h1) (fun l hl => ha l (List.mem_cons_of_mem _ hl)) h

/-! ## What a step does -/

/-- What a step does to the fields, and to the machine below. -/
inductive Did (s : State n C) : Label C → State n C → Prop
  | thread {c : C} {p : Fin n} {ch : Choice} {s₁ : State n C} {t : Sched.State n C}
      (hon : s.sched.on c = some p) (h : s.thread (s.sched.pc p) ch = some s₁)
      (ht : s.sched.step c ch = some t) : Did s (.cpu c ch) { s₁ with sched := t }
  | scheduler {c : C} {ch : Choice} {s₁ : State n C} {t : Sched.State n C}
      (hon : s.sched.on c = none) (h : s.scheduler c (s.sched.spc c) ch = some s₁)
      (ht : s.sched.step c ch = some t) : Did s (.cpu c ch) { s₁ with sched := t }
  | clock : Did s .clock { s with clock := s.clock + 1 }
  | usertrap {c : C} {p : Fin n} {scause : UInt64} {fault : Bool} {t : Sched.State n C}
      (hon : s.sched.on c = some p) (ht : t = s.sched ∨ ∃ ch, s.sched.step c ch = some t) :
      Did s (.usertrap c scause fault)
        { (s.deliver p scause).heatUp p
            (usertrap scause (s.sched.tab.proc p).killed (s.fields p)).1
            (usertrap scause (s.sched.tab.proc p).killed (s.fields p)).2 with sched := t }
  | kerneltrap {c : C} {p : Fin n} {scause : UInt64} {t : Sched.State n C}
      (hon : s.sched.on c = some p) (hi : devintr scause = 2)
      (ht : s.sched.step c .preempt = some t) :
      Did s (.kerneltrap c scause)
        { (s.deliver p scause).heatUp p (s.fields p).warm 1 with sched := t }
  | device {c : C} {p : Fin n} {scause : UInt64} : Did s (.kerneltrap c scause) (s.deliver p scause)
  | idle {c : C} {scause : UInt64} : Did s (.kerneltrap c scause) s

theorem State.step_did (h : s.step l = some s') : Did s l s' := by
  cases l with
  | cpu c ch =>
    rw [State.step] at h
    cases hon : s.sched.on c with
    | some p =>
      rw [hon] at h
      obtain ⟨s₁, h1, h⟩ := Option.bind_eq_some_iff.1 h
      obtain ⟨t, ht, rfl⟩ := Option.map_eq_some_iff.1 h
      exact .thread hon h1 ht
    | none =>
      rw [hon] at h
      obtain ⟨s₁, h1, h⟩ := Option.bind_eq_some_iff.1 h
      obtain ⟨t, ht, rfl⟩ := Option.map_eq_some_iff.1 h
      exact .scheduler hon h1 ht
  | clock => exact Option.some.inj h ▸ .clock
  | usertrap c scause fault =>
    rw [State.step] at h
    cases hon : s.sched.on c with
    | none =>
      rw [hon] at h
      cases h
    | some p =>
      rw [hon] at h
      dsimp only at h
      split at h
      · cases hcall : usertrapCall scause (s.sched.tab.proc p).killed fault with
        | some ch =>
          rw [hcall] at h
          obtain ⟨t, ht, rfl⟩ := Option.map_eq_some_iff.1 h
          exact .usertrap hon (.inr ⟨ch, ht⟩)
        | none =>
          rw [hcall] at h
          exact Option.some.inj h ▸ .usertrap hon (.inl rfl)
      · cases h
  | kerneltrap c scause =>
    rw [State.step] at h
    cases hon : s.sched.on c with
    | some p =>
      rw [hon] at h
      dsimp only at h
      split at h
      · split at h
        · next hi =>
          obtain ⟨t, ht, rfl⟩ := Option.map_eq_some_iff.1 h
          exact .kerneltrap hon hi.1 ht
        · exact Option.some.inj h ▸ .device
      · cases h
    | none =>
      rw [hon] at h
      dsimp only at h
      split at h
      · exact Option.some.inj h ▸ .idle
      · cases h

/-- **The machine below.**  A step is one of the scheduler and the processes, or leaves them
alone. -/
theorem State.step_sched (h : s.step l = some s') :
    s'.sched = s.sched ∨ ∃ c ch, s.sched.step c ch = some s'.sched := by
  cases State.step_did h with
  | thread _ _ ht => exact .inr ⟨_, _, ht⟩
  | scheduler _ _ ht => exact .inr ⟨_, _, ht⟩
  | clock => exact .inl rfl
  | usertrap _ ht =>
    rcases ht with ht | ⟨ch, ht⟩
    · exact .inl ht
    · exact .inr ⟨_, ch, ht⟩
  | kerneltrap _ _ ht => exact .inr ⟨_, _, ht⟩
  | device => exact .inl rfl
  | idle => exact .inl rfl

/-- **The heat-aware scheduler refines the scheduler below**: whatever the traps and clock
interrupts, it reaches only states that the other reaches. -/
theorem Reach.sched (hr : Reach allow s) : Sched.Reach s.sched := by
  induction hr with
  | boot => exact .boot
  | step hs ha h ih =>
    rcases State.step_sched h with he | ⟨c, ch, ht⟩
    · exact he ▸ ih
    · exact ih.step ht

end

theorem reach_sched_boot : Reach (fun _ _ => True) (boot : State 2 Unit) ∧
    Sched.Reach (boot : State 2 Unit).sched :=
  have hr : Reach (fun _ _ => True) (boot : State 2 Unit) := .boot
  ⟨hr, hr.sched⟩

end Xv6.Heat
