import Mathlib.Data.Fin.Basic
import Mathlib.Data.List.Nodup
import Mathlib.Logic.Function.Basic
import Mathlib.Algebra.Group.Nat.Defs
import Mathlib.Algebra.Group.Int.Defs
import Mathlib.Algebra.GroupWithZero.Nat

/-!
# The life of a process

The process table, and the events of `kernel/proc.c` that change it: a slot is claimed and given a
pid, gets a parent, is started, sleeps, is woken, runs, exits, is handed to `init` when its parent
exits, and is reaped.  `Event.Allowed` says when each may happen; the code's locks and loops, in
the modules that follow, are there to see to that.  A table that only allowed events have changed
is `Table.Ok`: its pids are distinct, its parents are alive, and a zombie's status is the one
passed to `exit`.

The table has any number of slots; `proc[0]` is `initproc`.
-/

set_option autoImplicit false

namespace Xv6

/-- `enum procstate`. -/
inductive ProcState
  | unused | used | sleeping | runnable | running | zombie
  deriving DecidableEq, Repr

/-- Has the process been started, and not exited? -/
def ProcState.live : ProcState → Bool
  | .sleeping | .runnable | .running => true
  | _ => false

namespace Sched

/-- What a process sleeps on: a `struct proc`, or something else. -/
inductive Chan (n : Nat)
  | proc (p : Fin n)
  | other (m : Nat)
  deriving DecidableEq

/-- The fields of `struct proc` that `p->lock` protects. -/
structure Proc (n : Nat) where
  state : ProcState
  chan : Option (Chan n)
  killed : Bool
  xstate : Int
  pid : Int

/-- A `wait()` that returned a pid, and the status it copied out, if it was asked for one. -/
structure Wait (n : Nat) where
  caller : Fin n
  pid : Int
  status : Option Int

/-- The process table. -/
structure Table (n : Nat) where
  proc : Fin n → Proc n
  /-- `p->parent`, which `wait_lock` protects. -/
  parent : Fin n → Option (Fin n)
  nextpid : Int
  /-- Ghost: how many pids have been allocated. -/
  allocated : Nat
  /-- Ghost: the pids of the processes that called `exit`, with the status they passed. -/
  exited : List (Int × Int)
  /-- Ghost: the waits that returned a pid. -/
  waits : List (Wait n)

variable {n : Nat}

namespace Table

def setProc (t : Table n) (i : Fin n) (x : Proc n) : Table n :=
  { t with proc := Function.update t.proc i x }

def setParent (t : Table n) (i : Fin n) (r : Option (Fin n)) : Table n :=
  { t with parent := Function.update t.parent i r }

@[simp] theorem setProc_self (t : Table n) (i : Fin n) (x : Proc n) :
    (t.setProc i x).proc i = x := Function.update_self ..

theorem setProc_of_ne (t : Table n) {i j : Fin n} (h : j ≠ i) (x : Proc n) :
    (t.setProc i x).proc j = t.proc j := Function.update_of_ne h ..

@[simp] theorem setParent_self (t : Table n) (i : Fin n) (r : Option (Fin n)) :
    (t.setParent i r).parent i = r := Function.update_self ..

theorem setParent_of_ne (t : Table n) {i j : Fin n} (h : j ≠ i) (r : Option (Fin n)) :
    (t.setParent i r).parent j = t.parent j := Function.update_of_ne h ..

end Table

/-- What `freeproc` leaves of a process. -/
def freed : Proc n where
  state := .unused
  chan := none
  killed := false
  xstate := 0
  pid := 0

/-- `freeproc(p)`. -/
def freeproc (i : Fin n) (t : Table n) : Table n := (t.setProc i freed).setParent i none

/-! ## Events -/

/-- What happens to the table. -/
inductive Event (n : Nat)
  /-- `pid = nextpid; nextpid = nextpid + 1`. -/
  | allocpid
  /-- `p->pid = pid; p->state = USED`. -/
  | claim (i : Fin n) (pid : Int)
  /-- `freeproc(np)`, when `fork` fails. -/
  | free (i : Fin n)
  /-- `np->parent = p`. -/
  | adopt (i p : Fin n)
  /-- `np->state = RUNNABLE`. -/
  | start (i : Fin n)
  /-- A call of `exit(status)`. -/
  | exit (p : Fin n) (status : Int)
  /-- `pp->parent = initproc`. -/
  | giveUp (i init : Fin n)
  /-- `p->xstate = status; p->state = ZOMBIE`. -/
  | zombie (p : Fin n) (status : Int)
  /-- `p->state = RUNNABLE` in `wakeup`. -/
  | wake (i : Fin n)
  /-- `p->killed = 1; if(p->state == SLEEPING) p->state = RUNNABLE`. -/
  | kill (i : Fin n)
  /-- `p->killed = 1`. -/
  | setkilled (p : Fin n)
  /-- `p->chan = chan; p->state = SLEEPING`. -/
  | sleep (p : Fin n) (chan : Chan n)
  /-- `p->chan = 0`. -/
  | tidy (p : Fin n)
  /-- `p->state = RUNNABLE` in `yield`. -/
  | yield (p : Fin n)
  /-- `p->state = RUNNING`. -/
  | run (i : Fin n)
  /-- `freeproc(pp)` in `wait`, which reports `status`. -/
  | reap (p i : Fin n) (status : Option Int)

namespace Event

/-- What an event does.  A pid is an `int`, so `nextpid` wraps around. -/
def apply (t : Table n) : Event n → Table n
  | .allocpid =>
    { t with nextpid := (t.nextpid + 1).bmod (2 ^ 32), allocated := t.allocated + 1 }
  | .claim i pid => t.setProc i { t.proc i with pid := pid, state := .used }
  | .free i => freeproc i t
  | .adopt i p => t.setParent i (some p)
  | .start i => t.setProc i { t.proc i with state := .runnable }
  | .exit p status => { t with exited := ((t.proc p).pid, status) :: t.exited }
  | .giveUp i init => t.setParent i (some init)
  | .zombie p status => t.setProc p { t.proc p with xstate := status, state := .zombie }
  | .wake i => t.setProc i { t.proc i with state := .runnable }
  | .kill i => t.setProc i { t.proc i with
      killed := true
      state := if (t.proc i).state = .sleeping then .runnable else (t.proc i).state }
  | .setkilled p => t.setProc p { t.proc p with killed := true }
  | .sleep p chan => t.setProc p { t.proc p with chan := some chan, state := .sleeping }
  | .tidy p => t.setProc p { t.proc p with chan := none }
  | .yield p => t.setProc p { t.proc p with state := .runnable }
  | .run i => t.setProc i { t.proc i with state := .running }
  | .reap p i status => { freeproc i t with waits := ⟨p, (t.proc i).pid, status⟩ :: t.waits }

end Event

/-- A pid that has been allocated and never used. -/
structure Fresh (t : Table n) (pid : Int) : Prop where
  pos : 0 < pid
  le : pid ≤ t.allocated
  ne : ∀ i, (t.proc i).state ≠ .unused → (t.proc i).pid ≠ pid
  exited : pid ∉ t.exited.map Prod.fst
  waits : pid ∉ t.waits.map Wait.pid

variable [NeZero n]

/-- When an event may happen. -/
def Event.Allowed (t : Table n) : Event n → Prop
  | .allocpid | .kill _ | .setkilled _ | .tidy _ => True
  | .claim i pid => (t.proc i).state = .unused ∧ Fresh t pid
  | .free i => (t.proc i).state = .used ∧ t.parent i = none
  | .adopt i p => (t.proc i).state = .used ∧ (t.proc p).state.live
  | .start i => (t.proc i).state = .used ∧ t.parent i ≠ none
  | .exit p _ => (t.proc p).state.live ∧ (t.proc p).pid ∉ t.exited.map Prod.fst
  | .giveUp i init => init = 0 ∧ t.parent i ≠ none
  | .zombie p status => (t.proc p).state.live ∧ p ≠ 0 ∧ (∀ i, t.parent i ≠ some p) ∧
    ((t.proc p).pid, status) ∈ t.exited
  | .wake i => (t.proc i).state = .sleeping
  | .sleep p _ | .yield p => (t.proc p).state = .running
  | .run i => (t.proc i).state = .runnable
  | .reap p i status => (t.proc i).state = .zombie ∧ t.parent i = some p ∧
    ∀ st, status = some st → st = (t.proc i).xstate

/-! ## What the events keep -/

/-- The invariant of the table. -/
structure Table.Ok (t : Table n) : Prop where
  init : (t.proc 0).state.live
  init_parent : t.parent 0 = none
  next : t.nextpid = ((t.allocated : Int) + 1).bmod (2 ^ 32)
  pid : ∀ i, (t.proc i).state ≠ .unused → 0 < (t.proc i).pid ∧ (t.proc i).pid ≤ t.allocated
  pid_inj : ∀ i j, (t.proc i).state ≠ .unused → (t.proc j).state ≠ .unused →
    (t.proc i).pid = (t.proc j).pid → i = j
  parent_live : ∀ i r, t.parent i = some r → (t.proc r).state.live
  parent_ne : ∀ i r, t.parent i = some r → i ≠ r
  orphan : ∀ i, i ≠ 0 → t.parent i = none → (t.proc i).state = .unused ∨ (t.proc i).state = .used
  unused : ∀ i, (t.proc i).state = .unused → t.parent i = none
  status : ∀ i, (t.proc i).state = .zombie → ((t.proc i).pid, (t.proc i).xstate) ∈ t.exited
  exited : ∀ x ∈ t.exited, 0 < x.1 ∧ x.1 ≤ t.allocated
  exited_nodup : (t.exited.map Prod.fst).Nodup
  waits : ∀ w ∈ t.waits, (0 < w.pid ∧ w.pid ≤ t.allocated) ∧
    ∀ i, (t.proc i).state ≠ .unused → (t.proc i).pid ≠ w.pid
  waits_nodup : (t.waits.map Wait.pid).Nodup
  reported : ∀ w ∈ t.waits, ∀ st, w.status = some st → (w.pid, st) ∈ t.exited

section

variable {t : Table n}

/-- What has to be known of the new content of a slot. -/
structure Put (t : Table n) (i : Fin n) (x : Proc n) (r : Option (Fin n)) : Prop where
  init : i = 0 → x.state.live ∧ r = none
  pid : x.state ≠ .unused → 0 < x.pid ∧ x.pid ≤ t.allocated ∧
    (∀ j, j ≠ i → (t.proc j).state ≠ .unused → (t.proc j).pid ≠ x.pid) ∧
    ∀ w ∈ t.waits, x.pid ≠ w.pid
  children : x.state.live ∨ ∀ j, t.parent j ≠ some i
  parent : ∀ q, r = some q → q ≠ i ∧ (t.proc q).state.live
  orphan : i ≠ 0 → r = none → x.state = .unused ∨ x.state = .used
  unused : x.state = .unused → r = none
  status : x.state = .zombie → (x.pid, x.xstate) ∈ t.exited

theorem Table.Ok.put (h : t.Ok) {i : Fin n} {x : Proc n} {r : Option (Fin n)} (hx : Put t i x r) :
    ((t.setProc i x).setParent i r).Ok := by
  have hproc : ∀ j, ((t.setProc i x).setParent i r).proc j = if j = i then x else t.proc j :=
    fun j => Function.update_apply ..
  have hparent : ∀ j, ((t.setProc i x).setParent i r).parent j = if j = i then r else t.parent j :=
    fun j => Function.update_apply ..
  constructor
  · rw [hproc]
    split
    · next h0 => exact (hx.init h0.symm).1
    · exact h.init
  · rw [hparent]
    split
    · next h0 => exact (hx.init h0.symm).2
    · exact h.init_parent
  · exact h.next
  · intro j
    rw [hproc]
    split
    · exact fun hu => ⟨(hx.pid hu).1, (hx.pid hu).2.1⟩
    · exact h.pid j
  · intro j k
    rw [hproc, hproc]
    split <;> split
    · next hj hk => exact fun _ _ _ => hj.trans hk.symm
    · next hk => exact fun hu hv he => absurd he.symm ((hx.pid hu).2.2.1 k hk hv)
    · next hj _ => exact fun hv hu he => absurd he ((hx.pid hu).2.2.1 j hj hv)
    · exact h.pid_inj j k
  · intro j q hq
    rw [hparent] at hq
    rw [hproc]
    split at hq
    · rw [if_neg (hx.parent q hq).1]
      exact (hx.parent q hq).2
    · split
      · next hqi => exact hx.children.resolve_right fun hc => hc j (hqi ▸ hq)
      · exact h.parent_live j q hq
  · intro j q hq
    rw [hparent] at hq
    split at hq
    · next hj => exact fun he => (hx.parent q hq).1 (he.symm.trans hj)
    · exact h.parent_ne j q hq
  · intro j hj hp
    rw [hparent] at hp
    rw [hproc]
    split at hp
    · next hji =>
      rw [if_pos hji]
      exact hx.orphan (hji ▸ hj) hp
    · next hji =>
      rw [if_neg hji]
      exact h.orphan j hj hp
  · intro j
    rw [hproc, hparent]
    split
    · exact hx.unused
    · exact h.unused j
  · intro j
    rw [hproc]
    split
    · exact hx.status
    · exact h.status j
  · exact h.exited
  · exact h.exited_nodup
  · intro w hw
    refine ⟨(h.waits w hw).1, fun j => ?_⟩
    rw [hproc]
    split
    · exact fun hu => (hx.pid hu).2.2.2 w hw
    · exact (h.waits w hw).2 j
  · exact h.waits_nodup
  · exact h.reported

/-- A slot keeps its parent. -/
theorem Table.Ok.putProc (h : t.Ok) {i : Fin n} {x : Proc n} (hx : Put t i x (t.parent i)) :
    (t.setProc i x).Ok := by
  have hp := h.put hx
  rwa [Table.setParent, show (t.setProc i x).parent = t.parent from rfl,
    Function.update_eq_self] at hp

/-- A slot keeps its process. -/
theorem Table.Ok.putParent (h : t.Ok) {i : Fin n} {r : Option (Fin n)}
    (hx : Put t i (t.proc i) r) : (t.setParent i r).Ok := by
  have hp := h.put hx
  rwa [Table.setProc, Function.update_eq_self] at hp

/-- What is known of a slot that keeps its pid. -/
theorem Table.Ok.keeps_pid (h : t.Ok) {i : Fin n} (hu : (t.proc i).state ≠ .unused) :
    0 < (t.proc i).pid ∧ (t.proc i).pid ≤ t.allocated ∧
      (∀ j, j ≠ i → (t.proc j).state ≠ .unused → (t.proc j).pid ≠ (t.proc i).pid) ∧
      ∀ w ∈ t.waits, (t.proc i).pid ≠ w.pid :=
  ⟨(h.pid i hu).1, (h.pid i hu).2, fun j hj hv he => hj (h.pid_inj j i hv hu he),
    fun w hw => (h.waits w hw).2 i hu⟩

theorem live_ne_unused {s : ProcState} (h : s.live) : s ≠ .unused := by
  rintro rfl
  cases h

theorem live_ne_zombie {s : ProcState} (h : s.live) : s ≠ .zombie := by
  rintro rfl
  cases h

/-- A slot stays in the same stage of life. -/
theorem Table.Ok.touch (h : t.Ok) {i : Fin n} {x : Proc n} (hp : x.pid = (t.proc i).pid)
    (hx : x.xstate = (t.proc i).xstate)
    (hs : x.state = (t.proc i).state ∨ x.state.live ∧ (t.proc i).state.live) :
    (t.setProc i x).Ok := by
  have hlive : x.state.live = (t.proc i).state.live := by
    rcases hs with he | ⟨h1, h2⟩
    · rw [he]
    · rw [h1, h2]
  have hdead : ∀ s, s.live = false → (x.state = s ↔ (t.proc i).state = s) := by
    intro s hd
    rcases hs with he | ⟨h1, h2⟩
    · rw [he]
    · exact ⟨fun he => absurd (he ▸ h1) (by rw [hd]; exact Bool.false_ne_true),
        fun he => absurd (he ▸ h2) (by rw [hd]; exact Bool.false_ne_true)⟩
  refine h.putProc ⟨fun h0 => ?_, fun hu => ?_, ?_, fun q hq => ?_, fun h0 hr => ?_, fun hu => ?_,
    fun hz => ?_⟩
  · rw [hlive, h0]
    exact ⟨h.init, h.init_parent⟩
  · rw [hp]
    exact h.keeps_pid (mt (hdead .unused rfl).2 hu)
  · rw [hlive]
    by_cases hi : (t.proc i).state.live
    · exact .inl hi
    · exact .inr fun j hj => hi (h.parent_live j i hj)
  · exact ⟨(h.parent_ne i q hq).symm, h.parent_live i q hq⟩
  · rw [hdead .unused rfl, hdead .used rfl]
    exact h.orphan i h0 hr
  · exact h.unused i ((hdead .unused rfl).1 hu)
  · rw [hp, hx]
    exact h.status i ((hdead .zombie rfl).1 hz)

theorem Table.Ok.claim (h : t.Ok) {i : Fin n} {pid : Int} (hi : (t.proc i).state = .unused)
    (hf : Fresh t pid) : (t.setProc i { t.proc i with pid := pid, state := .used }).Ok := by
  refine h.putProc ⟨fun h0 => ?_, fun _ => ⟨hf.pos, hf.le, fun j _ => hf.ne j, fun w hw he => ?_⟩,
    .inr fun j hj => ?_, fun q hq => ?_, fun _ _ => .inr rfl, nofun, nofun⟩
  · exact absurd hi (live_ne_unused (h0 ▸ h.init))
  · exact hf.waits (List.mem_map.2 ⟨w, hw, he.symm⟩)
  · exact live_ne_unused (h.parent_live j i hj) hi
  · rw [h.unused i hi] at hq
    cases hq

/-- A process that is not alive and has no live children can be freed. -/
theorem Table.Ok.freeproc (h : t.Ok) {i : Fin n} (hi : (t.proc i).state.live = false) :
    (freeproc i t).Ok := by
  refine h.put ⟨fun h0 => ?_, fun hu => absurd rfl hu, .inr fun j hj => ?_, nofun,
    fun _ _ => .inl rfl, fun _ => rfl, nofun⟩
  · exact absurd (h0 ▸ h.init) (by rw [hi]; exact Bool.false_ne_true)
  · exact absurd (h.parent_live j i hj) (by rw [hi]; exact Bool.false_ne_true)

theorem Table.Ok.start (h : t.Ok) {i : Fin n} (hi : (t.proc i).state = .used)
    (hp : t.parent i ≠ none) : (t.setProc i { t.proc i with state := .runnable }).Ok := by
  have hu : (t.proc i).state ≠ .unused := by rw [hi]; nofun
  refine h.putProc ⟨fun h0 => ?_, fun _ => h.keeps_pid hu, .inl rfl, fun q hq => ?_,
    fun _ hn => absurd hn hp, nofun, nofun⟩
  · exact absurd (h0 ▸ h.init_parent) hp
  · exact ⟨(h.parent_ne i q hq).symm, h.parent_live i q hq⟩

theorem Table.Ok.setParent (h : t.Ok) {i p : Fin n} (hi : (t.proc i).state ≠ .unused)
    (h0 : i ≠ 0) (hp : p ≠ i) (hl : (t.proc p).state.live) : (t.setParent i (some p)).Ok := by
  refine h.putParent ⟨fun he => absurd he h0, fun _ => h.keeps_pid hi, ?_, fun q hq => ?_,
    nofun, fun hu => absurd hu hi, h.status i⟩
  · by_cases hl : (t.proc i).state.live
    · exact .inl hl
    · exact .inr fun j hj => hl (h.parent_live j i hj)
  · cases hq
    exact ⟨hp, hl⟩

theorem Table.Ok.zombie (h : t.Ok) {p : Fin n} {status : Int} (hl : (t.proc p).state.live)
    (h0 : p ≠ 0) (hc : ∀ i, t.parent i ≠ some p) (he : ((t.proc p).pid, status) ∈ t.exited) :
    (t.setProc p { t.proc p with xstate := status, state := .zombie }).Ok := by
  refine h.putProc ⟨fun hp => absurd hp h0, fun _ => h.keeps_pid (live_ne_unused hl), .inr hc,
    fun q hq => ⟨(h.parent_ne p q hq).symm, h.parent_live p q hq⟩, fun _ hn => ?_, nofun,
    fun _ => he⟩
  rcases h.orphan p h0 hn with hu | hu <;> rw [hu] at hl <;> cases hl

theorem Table.Ok.allocpid (h : t.Ok) : (Event.apply t .allocpid).Ok := by
  have hle : ∀ x : Int, x ≤ t.allocated → x ≤ ((t.allocated + 1 : Nat) : Int) := by
    intro x hx
    omega
  refine ⟨h.init, h.init_parent, ?_, fun i hi => ⟨(h.pid i hi).1, hle _ (h.pid i hi).2⟩, h.pid_inj,
    h.parent_live, h.parent_ne, h.orphan, h.unused, h.status,
    fun x hx => ⟨(h.exited x hx).1, hle _ (h.exited x hx).2⟩, h.exited_nodup,
    fun w hw => ⟨⟨(h.waits w hw).1.1, hle _ (h.waits w hw).1.2⟩, (h.waits w hw).2⟩,
    h.waits_nodup, h.reported⟩
  show (t.nextpid + 1).bmod (2 ^ 32) = (((t.allocated + 1 : Nat) : Int) + 1).bmod (2 ^ 32)
  rw [h.next, Int.bmod_add_bmod, Int.natCast_add]
  rfl

theorem Table.Ok.exit (h : t.Ok) {p : Fin n} (status : Int) (hl : (t.proc p).state.live)
    (he : (t.proc p).pid ∉ t.exited.map Prod.fst) : (Event.apply t (.exit p status)).Ok := by
  refine ⟨h.init, h.init_parent, h.next, h.pid, h.pid_inj, h.parent_live, h.parent_ne, h.orphan,
    h.unused, fun i hi => List.mem_cons_of_mem _ (h.status i hi), fun x hx => ?_,
    List.nodup_cons.2 ⟨he, h.exited_nodup⟩, h.waits, h.waits_nodup,
    fun w hw st hst => List.mem_cons_of_mem _ (h.reported w hw st hst)⟩
  rcases List.mem_cons.1 hx with rfl | hx
  · exact h.pid p (live_ne_unused hl)
  · exact h.exited x hx

theorem Table.Ok.reap (h : t.Ok) {p i : Fin n} {status : Option Int}
    (hi : (t.proc i).state = .zombie) (hst : ∀ st, status = some st → st = (t.proc i).xstate) :
    (Event.apply t (.reap p i status)).Ok := by
  have hu : (t.proc i).state ≠ .unused := by rw [hi]; nofun
  have hf : (Sched.freeproc i t).Ok := h.freeproc (by rw [hi]; rfl)
  obtain ⟨hpos, hle, hne, hnw⟩ := h.keeps_pid hu
  refine ⟨hf.init, hf.init_parent, hf.next, hf.pid, hf.pid_inj, hf.parent_live, hf.parent_ne,
    hf.orphan, hf.unused, hf.status, hf.exited, hf.exited_nodup, fun w hw => ?_,
    List.nodup_cons.2 ⟨fun hm => ?_, h.waits_nodup⟩, fun w hw st hs => ?_⟩
  · rcases List.mem_cons.1 hw with rfl | hw
    · refine ⟨⟨hpos, hle⟩, fun j => ?_⟩
      show ((t.setProc i freed).proc j).state ≠ _ → ((t.setProc i freed).proc j).pid ≠ _
      by_cases hj : j = i
      · rw [hj, setProc_self]
        exact fun hn => absurd rfl hn
      · rw [setProc_of_ne t hj]
        exact hne j hj
    · exact hf.waits w hw
  · obtain ⟨w, hw, he⟩ := List.mem_map.1 hm
    exact hnw w hw he.symm
  · rcases List.mem_cons.1 hw with rfl | hw
    · rw [hst st hs]
      exact h.status i hi
    · exact h.reported w hw st hs

/-- **Allowed events keep the table in order.** -/
theorem Event.Allowed.ok {e : Event n} (he : e.Allowed t) (h : t.Ok) : (e.apply t).Ok := by
  cases e with
  | allocpid => exact h.allocpid
  | claim i pid => exact h.claim he.1 he.2
  | free i => exact h.freeproc (by rw [he.1]; rfl)
  | adopt i p =>
    have hi : (t.proc i).state.live = false := by rw [he.1]; rfl
    refine h.setParent (by rw [he.1]; nofun) (fun h0 => ?_) (fun hp => ?_) he.2
    · exact absurd (h0 ▸ h.init) (by rw [hi]; exact Bool.false_ne_true)
    · exact absurd (hp ▸ he.2) (by rw [hi]; exact Bool.false_ne_true)
  | start i => exact h.start he.1 he.2
  | exit p status => exact h.exit status he.1 he.2
  | giveUp i init =>
    obtain ⟨rfl, hp⟩ := he
    have h0 : i ≠ 0 := fun h0 => hp (h0 ▸ h.init_parent)
    exact h.setParent (mt (h.unused i) hp) h0 h0.symm h.init
  | zombie p status => exact h.zombie he.1 he.2.1 he.2.2.1 he.2.2.2
  | wake i => exact h.touch rfl rfl (.inr ⟨rfl, by rw [show (t.proc i).state = _ from he]; rfl⟩)
  | kill i =>
    refine h.touch rfl rfl ?_
    show (if _ then _ else _) = _ ∨ ProcState.live (if _ then _ else _) ∧ _
    split
    · next hs => exact .inr ⟨rfl, by rw [hs]; rfl⟩
    · exact .inl rfl
  | setkilled p => exact h.touch rfl rfl (.inl rfl)
  | sleep p ch => exact h.touch rfl rfl (.inr ⟨rfl, by rw [show (t.proc p).state = _ from he]; rfl⟩)
  | tidy p => exact h.touch rfl rfl (.inl rfl)
  | yield p => exact h.touch rfl rfl (.inr ⟨rfl, by rw [show (t.proc p).state = _ from he]; rfl⟩)
  | run i => exact h.touch rfl rfl (.inr ⟨rfl, by rw [show (t.proc i).state = _ from he]; rfl⟩)
  | reap p i status => exact h.reap he.1 he.2.2

end

end Sched

end Xv6
