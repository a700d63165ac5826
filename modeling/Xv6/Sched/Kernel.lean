import Mathlib.Data.List.FinRange
import Xv6.Sched.Life

/-!
# The scheduler, `fork`, `exit` and `wait` on many CPUs

The part of `kernel/proc.c` that changes the process table, as any number of CPUs run it at once.
A CPU executes one thread at a time: its own `scheduler()`, or the kernel thread of a process.
What a CPU does between two steps of another is one acquire, one release, or one stretch of code
on fields that a lock it holds protects.

`Loc` is where the kernel thread of a process is.  Constructors that take another `Loc` are calls,
and the argument is where they return to; in particular an interrupt, which may come wherever the
thread holds no lock, calls `wakeup` or `yield` on top of whatever the thread was doing.  A thread
that is not running stays where `swtch` left it.  What processes do outside these functions (user
code, other system calls) is `Loc.running`: there a thread may take some other lock, and sleep or
wake others while it holds it.

The heat of a process is not part of the table: whether `scheduler()` skips a runnable process is
a choice, and so is whether an allocation or a copy to user memory fails.
-/

set_option autoImplicit false

namespace Xv6.Sched

/-! ## Control points -/

/-- The spin locks. -/
inductive Lk (n : Nat)
  /-- `p->lock`. -/
  | proc (p : Fin n)
  | wait
  | pid
  /-- A lock of another part of the kernel. -/
  | other (m : Nat)
  deriving DecidableEq

/-- Who called `sleep`. -/
inductive Sleeper
  /-- `wait(addr)`; is `addr` not 0? -/
  | wait (addr : Bool)
  /-- Code that holds another lock `lk`, in the middle of `exit(status)` or not. -/
  | other (chan lk : Nat) (status : Option Int)

/-- How `wait` returns. -/
inductive Ret (n : Nat)
  | noChildren
  | killed
  /-- `copyout` failed for the zombie `i`. -/
  | copyFails (i : Fin n)
  | reaped (pid : Int) (status : Option Int)

/-- What `wait` returns. -/
def Ret.value {n : Nat} : Ret n → Int
  | .noChildren | .killed | .copyFails _ => -1
  | .reaped pid _ => pid

/-- Where the kernel thread of a process is. -/
inductive Loc (n : Nat)
  /-- Outside the functions below; with a status, in `exit`, before `acquire(&wait_lock)`. -/
  | running (status : Option Int)
  /-- The same, holding another lock. -/
  | locked (m : Nat) (status : Option Int)
  | acquire (l : Lk n) (k : Loc n)
  | release (l : Lk n) (k : Loc n)
  /-- `allocproc`: in the loop; `rest` are the slots still to look at. -/
  | scan (rest : List (Fin n))
  /-- At `if(p->state == UNUSED)`. -/
  | test (i : Fin n) (rest : List (Fin n))
  /-- In `allocpid`, holding `pid_lock`. -/
  | allocpid (i : Fin n)
  /-- At `p->pid = ...; p->state = USED`. -/
  | found (i : Fin n) (pid : Int)
  /-- At the trapframe and the page table. -/
  | alloc (i : Fin n)
  /-- `fork`: at `uvmcopy`. -/
  | copy (i : Fin n)
  /-- At `np->parent = p`. -/
  | adopt (i : Fin n)
  /-- At `np->state = RUNNABLE`. -/
  | start (i : Fin n)
  /-- `exit`: in the loop of `reparent`. -/
  | reparent (rest : List (Fin n)) (status : Int)
  /-- At `p->xstate = status; p->state = ZOMBIE`. -/
  | zombie (status : Int)
  /-- At `panic("zombie exit")`. -/
  | dead
  /-- `wakeup(chan)`: in the loop. -/
  | wakeup (chan : Option (Chan n)) (rest : List (Fin n)) (k : Loc n)
  /-- At `if(p->state == SLEEPING && p->chan == chan)`. -/
  | wake (chan : Option (Chan n)) (i : Fin n) (rest : List (Fin n)) (k : Loc n)
  /-- At a call of `sleep`. -/
  | sleep (b : Sleeper)
  /-- At `p->chan = chan; p->state = SLEEPING`. -/
  | sleeping (b : Sleeper)
  /-- At `p->chan = 0`, after `sched()`. -/
  | awake (b : Sleeper)
  /-- At the `swtch` of `sched()`. -/
  | sched (k : Loc n)
  /-- `yield`: at `p->state = RUNNABLE`. -/
  | yielding (k : Loc n)
  /-- `kill(pid)`: in the loop. -/
  | kill (pid : Int) (rest : List (Fin n))
  /-- At `if(p->pid == pid)`. -/
  | killing (pid : Int) (i : Fin n) (rest : List (Fin n))
  /-- `setkilled`: at `p->killed = 1`. -/
  | setkilled
  /-- `wait`: at the head of `for(;;)`. -/
  | waitLoop (addr : Bool)
  /-- In the scan of the table. -/
  | waitScan (rest : List (Fin n)) (havekids addr : Bool)
  /-- At `if(pp->state == ZOMBIE)`. -/
  | child (i : Fin n) (rest : List (Fin n)) (addr : Bool)
  /-- At `freeproc(pp)`. -/
  | reap (i : Fin n) (pid : Int) (status : Option Int)
  /-- At the read of `p->killed`. -/
  | waitKilled (addr : Bool)
  /-- At the last `release(&wait_lock)`. -/
  | waitReturn (r : Ret n)
  /-- `wait` has returned. -/
  | waited (r : Ret n)
  /-- At `release(&myproc()->lock)` of `forkret`. -/
  | forkret

/-- Where the scheduler of a CPU is. -/
inductive SLoc (n : Nat)
  /-- At the head of `for(;;)`. -/
  | loop
  /-- In the loop of `update_heat`. -/
  | heat (rest : List (Fin n))
  /-- In the loop over the table. -/
  | scan (rest : List (Fin n))
  /-- At `if(p->state == RUNNABLE)`. -/
  | test (i : Fin n) (rest : List (Fin n))
  /-- At `c->proc = p`. -/
  | dispatch (i : Fin n) (rest : List (Fin n))
  /-- At `swtch`. -/
  | swtch (i : Fin n) (rest : List (Fin n))
  /-- In `swtch`, or at `c->proc = 0` after it. -/
  | back (i : Fin n) (rest : List (Fin n))
  | acquire (l : Lk n) (k : SLoc n)
  | release (l : Lk n) (k : SLoc n)
  /-- `wakeup(chan)`, in an interrupt. -/
  | wakeup (chan : Option (Chan n)) (rest : List (Fin n)) (k : SLoc n)
  | wake (chan : Option (Chan n)) (i : Fin n) (rest : List (Fin n)) (k : SLoc n)

variable {n : Nat}

/-- All slots, in the order of the table. -/
def slots (n : Nat) : List (Fin n) := List.finRange n

/-- The lock `sleep` is called with. -/
def Sleeper.lk : Sleeper → Lk n
  | .wait _ => .wait
  | .other _ lk _ => .other lk

/-- What the process `p` sleeps on. -/
def Sleeper.chan (p : Fin n) : Sleeper → Chan n
  | .wait _ => .proc p
  | .other chan _ _ => .other chan

/-- Where `sleep` returns to. -/
def Sleeper.back : Sleeper → Loc n
  | .wait addr => .waitLoop addr
  | .other _ lk status => .locked lk status

/-- The locks the thread of `p` holds. -/
def Loc.holds (p : Fin n) : Loc n → List (Lk n)
  | .running _ | .scan _ | .kill _ _ | .waited _ => []
  | .locked m _ => [.other m]
  | .acquire l k => (k.holds p).erase l
  | .release l k => l :: k.holds p
  | .test i _ | .found i _ | .alloc i | .copy i | .start i | .killing _ i _ => [.proc i]
  | .allocpid i => [.pid, .proc i]
  | .adopt _ | .reparent _ _ | .waitLoop _ | .waitScan _ _ _ | .waitReturn _ => [.wait]
  | .zombie _ | .waitKilled _ => [.proc p, .wait]
  | .wakeup _ _ k => k.holds p
  | .wake _ i _ k => .proc i :: k.holds p
  | .sleep b => [b.lk]
  | .sleeping _ | .awake _ | .sched _ | .yielding _ | .setkilled | .forkret | .dead => [.proc p]
  | .child i _ _ | .reap i _ _ => [.proc i, .wait]

/-- The locks the scheduler of a CPU holds. -/
def SLoc.holds : SLoc n → List (Lk n)
  | .loop | .heat _ | .scan _ => []
  | .test i _ | .dispatch i _ | .swtch i _ | .back i _ => [.proc i]
  | .acquire l k => k.holds.erase l
  | .release l k => l :: k.holds
  | .wakeup _ _ k => k.holds
  | .wake _ i _ k => .proc i :: k.holds

/-! ## Steps -/

/-- What a step does besides going on. -/
inductive Eff (n : Nat)
  | nop
  | acquire (l : Lk n)
  | release (l : Lk n)
  | event (e : Event n)
  /-- `c->proc = p`. -/
  | cur (p : Option (Fin n))
  /-- `swtch(&c->context, &p->context)`. -/
  | enter (i : Fin n)
  /-- `swtch(&p->context, &mycpu()->context)`. -/
  | leave

/-- What the code leaves open.  `go` is the usual course; `alt` the other one: an allocation or a
`copyout` fails, the scheduler skips a process.  The others are what a thread may do outside the
functions modelled here, and interrupts. -/
inductive Choice
  | go | alt
  | fork | exit (status : Int) | wait (addr : Bool) | kill (pid : Int) | setkilled
  /-- Take and release `p->lock`, for a field outside the table. -/
  | touch
  | lock (m : Nat) | sleep (chan : Nat) | wakeup (chan : Nat)
  /-- A device interrupt that wakes the sleepers on `chan`. -/
  | interrupt (chan : Nat)
  /-- A timer interrupt: `yield()`. -/
  | preempt

/-- The machine. -/
structure State (n : Nat) (C : Type) where
  tab : Table n
  /-- The CPU that holds a lock. -/
  lock : Lk n → Option C
  /-- `c->proc`. -/
  cur : C → Option (Fin n)
  /-- The process whose kernel thread the CPU executes; none for its scheduler. -/
  on : C → Option (Fin n)
  pc : Fin n → Loc n
  spc : C → SLoc n

variable {C : Type}

section

variable [DecidableEq C]

namespace Eff

def onTab (t : Table n) : Eff n → Table n
  | .event e => e.apply t
  | _ => t

def onLock (c : C) (lock : Lk n → Option C) : Eff n → Lk n → Option C
  | .acquire l => Function.update lock l (some c)
  | .release l => Function.update lock l none
  | _ => lock

def onCur (c : C) (cur : C → Option (Fin n)) : Eff n → C → Option (Fin n)
  | .cur p => Function.update cur c p
  | _ => cur

def onOn (c : C) (on : C → Option (Fin n)) : Eff n → C → Option (Fin n)
  | .enter i => Function.update on c (some i)
  | .leave => Function.update on c none
  | _ => on

/-- A new process starts in `forkret`. -/
def onPc (pc : Fin n → Loc n) : Eff n → Fin n → Loc n
  | .event (.claim i _) => Function.update pc i .forkret
  | _ => pc

/-- The effect of a step of CPU `c`. -/
def apply (c : C) (s : State n C) (e : Eff n) : State n C where
  tab := e.onTab s.tab
  lock := e.onLock c s.lock
  cur := e.onCur c s.cur
  on := e.onOn c s.on
  pc := e.onPc s.pc
  spc := s.spc

end Eff

variable [NeZero n]

/-- What the thread of process `p` does on CPU `c`. -/
def code (c : C) (p : Fin n) (s : State n C) : Loc n → Choice → Option (Eff n × Loc n)
  | l, .interrupt ch =>
    if l.holds p = [] then some (.nop, .wakeup (some (.other ch)) (slots n) l) else none
  | l, .preempt =>
    if l.holds p = [] then some (.nop, .acquire (.proc p) (.yielding l)) else none
  | .acquire l k, .go => if s.lock l = none then some (.acquire l, k) else none
  | .release l k, .go => some (.release l, k)
  | .running x, .lock m => some (.nop, .acquire (.other m) (.locked m x))
  | .running x, .touch => some (.nop, .acquire (.proc p) (.release (.proc p) (.running x)))
  | .locked m x, .sleep ch => some (.nop, .sleep (.other ch m x))
  | .locked m x, .wakeup ch => some (.nop, .wakeup (some (.other ch)) (slots n) (.locked m x))
  | .locked m x, .go => some (.nop, .release (.other m) (.running x))
  -- fork
  | .running none, .fork => some (.nop, .scan (slots n))
  | .scan [], .go => some (.nop, .running none)
  | .scan (i :: rest), .go => some (.nop, .acquire (.proc i) (.test i rest))
  | .test i rest, .go =>
    if (s.tab.proc i).state = .unused then some (.nop, .acquire .pid (.allocpid i))
    else some (.nop, .release (.proc i) (.scan rest))
  | .allocpid i, .go => some (.event .allocpid, .release .pid (.found i s.tab.nextpid))
  | .found i pid, .go => some (.event (.claim i pid), .alloc i)
  | .alloc i, .go => some (.nop, .copy i)
  | .alloc i, .alt => some (.event (.free i), .release (.proc i) (.running none))
  | .copy i, .go => some (.nop, .release (.proc i) (.acquire .wait (.adopt i)))
  | .copy i, .alt => some (.event (.free i), .release (.proc i) (.running none))
  | .adopt i, .go => some (.event (.adopt i p), .release .wait (.acquire (.proc i) (.start i)))
  | .start i, .go => some (.event (.start i), .release (.proc i) (.running none))
  -- exit; that of init panics
  | .running none, .exit st =>
    if p = 0 then none else some (.event (.exit p st), .running (some st))
  | .running (some st), .go => some (.nop, .acquire .wait (.reparent (slots n) st))
  | .reparent (i :: rest) st, .go =>
    if s.tab.parent i = some p then
      some (.event (.giveUp i 0), .wakeup (some (.proc 0)) (slots n) (.reparent rest st))
    else some (.nop, .reparent rest st)
  | .reparent [] st, .go =>
    some (.nop, .wakeup ((s.tab.parent p).map .proc) (slots n) (.acquire (.proc p) (.zombie st)))
  | .zombie st, .go => some (.event (.zombie p st), .release .wait (.sched .dead))
  -- wakeup
  | .wakeup _ [] k, .go => some (.nop, k)
  | .wakeup ch (i :: rest) k, .go =>
    if s.cur c = some i then some (.nop, .wakeup ch rest k)
    else some (.nop, .acquire (.proc i) (.wake ch i rest k))
  | .wake ch i rest k, .go =>
    if (s.tab.proc i).state = .sleeping ∧ (s.tab.proc i).chan = ch then
      some (.event (.wake i), .release (.proc i) (.wakeup ch rest k))
    else some (.nop, .release (.proc i) (.wakeup ch rest k))
  -- sleep, sched, yield
  | .sleep b, .go => some (.nop, .acquire (.proc p) (.release b.lk (.sleeping b)))
  | .sleeping b, .go => some (.event (.sleep p (b.chan p)), .sched (.awake b))
  | .awake b, .go => some (.event (.tidy p), .release (.proc p) (.acquire b.lk b.back))
  | .sched k, .go => some (.leave, k)
  | .yielding k, .go => some (.event (.yield p), .sched (.release (.proc p) k))
  -- kill, setkilled
  | .running none, .kill pid => some (.nop, .kill pid (slots n))
  | .kill _ [], .go => some (.nop, .running none)
  | .kill pid (i :: rest), .go => some (.nop, .acquire (.proc i) (.killing pid i rest))
  | .killing pid i rest, .go =>
    if (s.tab.proc i).pid = pid then some (.event (.kill i), .release (.proc i) (.running none))
    else some (.nop, .release (.proc i) (.kill pid rest))
  | .running none, .setkilled => some (.nop, .acquire (.proc p) .setkilled)
  | .setkilled, .go => some (.event (.setkilled p), .release (.proc p) (.running none))
  -- wait
  | .running none, .wait addr => some (.nop, .acquire .wait (.waitLoop addr))
  | .waitLoop addr, .go => some (.nop, .waitScan (slots n) false addr)
  | .waitScan (i :: rest) havekids addr, .go =>
    if s.tab.parent i = some p then some (.nop, .acquire (.proc i) (.child i rest addr))
    else some (.nop, .waitScan rest havekids addr)
  | .child i rest addr, .go =>
    if (s.tab.proc i).state = .zombie then
      some (.nop, .reap i (s.tab.proc i).pid (if addr then some (s.tab.proc i).xstate else none))
    else some (.nop, .release (.proc i) (.waitScan rest true addr))
  | .child i _ true, .alt =>
    if (s.tab.proc i).state = .zombie then
      some (.nop, .release (.proc i) (.waitReturn (.copyFails i)))
    else none
  | .reap i pid st, .go =>
    some (.event (.reap p i st), .release (.proc i) (.waitReturn (.reaped pid st)))
  | .waitScan [] false _, .go => some (.nop, .waitReturn .noChildren)
  | .waitScan [] true addr, .go => some (.nop, .acquire (.proc p) (.waitKilled addr))
  | .waitKilled addr, .go =>
    if (s.tab.proc p).killed then some (.nop, .release (.proc p) (.waitReturn .killed))
    else some (.nop, .release (.proc p) (.sleep (.wait addr)))
  | .waitReturn r, .go => some (.release .wait, .waited r)
  | .waited _, .go => some (.nop, .running none)
  | .forkret, .go => some (.nop, .release (.proc p) (.running none))
  | _, _ => none

/-- What the scheduler of CPU `c` does. -/
def scode (c : C) (s : State n C) : SLoc n → Choice → Option (Eff n × SLoc n)
  | l, .interrupt ch =>
    if l.holds = [] then some (.nop, .wakeup (some (.other ch)) (slots n) l) else none
  | .acquire l k, .go => if s.lock l = none then some (.acquire l, k) else none
  | .release l k, .go => some (.release l, k)
  | .wakeup _ [] k, .go => some (.nop, k)
  | .wakeup ch (i :: rest) k, .go =>
    if s.cur c = some i then some (.nop, .wakeup ch rest k)
    else some (.nop, .acquire (.proc i) (.wake ch i rest k))
  | .wake ch i rest k, .go =>
    if (s.tab.proc i).state = .sleeping ∧ (s.tab.proc i).chan = ch then
      some (.event (.wake i), .release (.proc i) (.wakeup ch rest k))
    else some (.nop, .release (.proc i) (.wakeup ch rest k))
  | .loop, .go => some (.nop, .heat (slots n))
  | .loop, .alt => some (.nop, .scan (slots n))
  | .heat [], .go => some (.nop, .scan (slots n))
  | .heat (i :: rest), .go => some (.nop, .acquire (.proc i) (.release (.proc i) (.heat rest)))
  | .scan [], .go => some (.nop, .loop)
  | .scan (i :: rest), .go => some (.nop, .acquire (.proc i) (.test i rest))
  | .test i rest, .go =>
    if (s.tab.proc i).state = .runnable then some (.event (.run i), .dispatch i rest)
    else some (.nop, .release (.proc i) (.scan rest))
  | .test i rest, .alt =>
    if (s.tab.proc i).state = .runnable then some (.nop, .release (.proc i) (.scan rest)) else none
  | .dispatch i rest, .go => some (.cur (some i), .swtch i rest)
  | .swtch i rest, .go => some (.enter i, .back i rest)
  | .back i rest, .go => some (.cur none, .release (.proc i) (.scan rest))
  | _, _ => none

namespace State

/-- One step of CPU `c`. -/
def step (s : State n C) (c : C) (ch : Choice) : Option (State n C) :=
  match s.on c with
  | some p => (code c p s (s.pc p) ch).map fun x =>
    { x.1.apply c s with pc := Function.update (x.1.apply c s).pc p x.2 }
  | none => (scode c s (s.spc c) ch).map fun x =>
    { x.1.apply c s with spc := Function.update s.spc c x.2 }

end State

end

/-- The table after `userinit()`: `init` is runnable. -/
def userinit [NeZero n] : Table n where
  proc i := if i = 0 then { freed with state := .runnable, pid := 1 } else freed
  parent _ := none
  nextpid := 2
  allocated := 1
  exited := []
  waits := []

/-- Every CPU enters its scheduler. -/
def boot [NeZero n] : State n C where
  tab := userinit
  lock _ := none
  cur _ := none
  on _ := none
  pc _ := .forkret
  spc _ := .loop

/-- The states the machine can reach. -/
inductive Reach [NeZero n] [DecidableEq C] : State n C → Prop
  | boot : Reach boot
  | step {s s' : State n C} {c : C} {ch : Choice} (hs : Reach s) (h : s.step c ch = some s') :
      Reach s'

end Xv6.Sched
