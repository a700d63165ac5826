import Xv6.Sched.Core

/-!
# The process table

What the thread of a process knows about the table at each point (`Loc.Fact`) follows from the
locks it holds there and from its own earlier steps; the events of other threads do not disturb it
(`Loc.Fact.stable`).  It is what makes each event of the code an allowed one (`Does.allowed`), so
that the machine refines the abstract table of `Sched.Life`, in every interleaving and on any
number of CPUs.
-/

set_option autoImplicit false

namespace Xv6.Sched

variable {n : Nat} {C : Type}

/-! ## What an event leaves alone -/

/-- The process that becomes a zombie. -/
def Event.dies : Event n → Option (Fin n)
  | .zombie p _ => some p
  | _ => none

/-- The new process that an event of `fork` is about. -/
def Event.embryo : Event n → Option (Fin n)
  | .free i | .adopt i _ | .start i => some i
  | _ => none

section

variable {t : Table n} {ev : Event n}

theorem Event.parent_apply {r q : Fin n} (h : (ev.apply t).parent r = some q) :
    t.parent r = some q ∨ ev = .adopt r q ∨ ev = .giveUp r q := by
  cases ev <;> simp only [Event.apply, Table.setProc, Table.setParent, freeproc,
    Function.update_apply] at h <;> grind

theorem Event.zombie_apply {r : Fin n} (h : ((ev.apply t).proc r).state = .zombie) :
    (t.proc r).state = .zombie ∨ ev.dies = some r := by
  cases ev <;> simp only [Event.apply, Table.setProc, Table.setParent, freeproc,
    Function.update_apply] at h <;> grind [freed, Event.dies]

theorem Event.allocated_le : t.allocated ≤ (ev.apply t).allocated := by
  cases ev <;> first | exact Nat.le_refl _ | exact Nat.le_succ _

theorem Event.exited_apply : (ev.apply t).exited = t.exited ∨
    ∃ p st, ev = .exit p st ∧ (ev.apply t).exited = ((t.proc p).pid, st) :: t.exited := by
  cases ev <;> first | exact .inl rfl | exact .inr ⟨_, _, rfl, rfl⟩

theorem Event.wait_of_dies {r : Fin n} (h : ev.dies = some r) : Lk.wait ∈ ev.needs := by
  cases ev <;> simp_all [Event.dies, Event.needs]

variable [NeZero n] (ha : ev.Allowed t) {i : Fin n}

include ha

theorem Event.Allowed.unused (h : (t.proc i).state = .unused) (hl : Lk.proc i ∉ ev.needs) :
    ((ev.apply t).proc i).state = .unused := by
  cases ev <;> simp only [Event.apply, Event.Allowed, Table.setProc, Table.setParent, freeproc,
    Function.update_apply] at ha ⊢ <;> grind [ProcState.live, Event.needs]

theorem Event.Allowed.used (h : (t.proc i).state = .used) (he : ev.embryo ≠ some i) :
    ((ev.apply t).proc i).state = .used ∧
      ((ev.apply t).parent i = none ↔ t.parent i = none) := by
  cases ev <;> simp only [Event.apply, Event.Allowed, Table.setProc, Table.setParent, freeproc,
    Function.update_apply] at ha ⊢ <;> grind [ProcState.live, Event.embryo]

theorem Event.Allowed.zombie (h : (t.proc i).state = .zombie) (hl : Lk.wait ∉ ev.needs) :
    ((ev.apply t).proc i).state = .zombie ∧ ((ev.apply t).proc i).pid = (t.proc i).pid ∧
      ((ev.apply t).proc i).xstate = (t.proc i).xstate := by
  cases ev <;> simp only [Event.apply, Event.Allowed, Table.setProc, Table.setParent, freeproc,
    Function.update_apply] at ha ⊢ <;> grind [ProcState.live, Event.needs]

theorem Event.Allowed.parent (h : t.parent i ≠ none) (hl : Lk.wait ∉ ev.needs) :
    (ev.apply t).parent i = t.parent i := by
  cases ev <;> simp only [Event.apply, Event.Allowed, Table.setProc, Table.setParent, freeproc,
    Function.update_apply] at ha ⊢ <;> grind [Event.needs]

theorem Event.Allowed.killed (h : (t.proc i).state.live) (hk : (t.proc i).killed = true) :
    ((ev.apply t).proc i).killed = true := by
  cases ev <;> simp only [Event.apply, Event.Allowed, Table.setProc, Table.setParent, freeproc,
    Function.update_apply] at ha ⊢ <;> grind [ProcState.live]

theorem Event.Allowed.pid (h : (t.proc i).state ≠ .unused)
    (hu : ((ev.apply t).proc i).state ≠ .unused) :
    ((ev.apply t).proc i).pid = (t.proc i).pid := by
  cases ev <;> simp only [Event.apply, Event.Allowed, Table.setProc, Table.setParent, freeproc,
    Function.update_apply] at ha hu ⊢ <;> grind [freed]

/-- Only `fork` brings a process to life. -/
theorem Event.Allowed.live (h : ((ev.apply t).proc i).state.live) :
    (t.proc i).state.live ∨ ev = .start i := by
  cases ev <;> simp only [Event.apply, Event.Allowed, Table.setProc, Table.setParent, freeproc,
    Function.update_apply] at ha h <;> grind [freed, ProcState.live]

theorem Event.Allowed.started (h : (t.proc i).state.live ∨ (t.proc i).state = .zombie)
    (hr : ∀ p st, ev ≠ .reap p i st) :
    ((ev.apply t).proc i).state.live ∨ ((ev.apply t).proc i).state = .zombie := by
  cases ev <;> simp only [Event.apply, Event.Allowed, Table.setProc, Table.setParent, freeproc,
    Function.update_apply] at ha ⊢ <;> grind [ProcState.live]

theorem Event.Allowed.used_apply (h : ((ev.apply t).proc i).state = .used) :
    (t.proc i).state = .used ∨ ev = .claim i ((ev.apply t).proc i).pid := by
  cases ev <;> simp only [Event.apply, Event.Allowed, Table.setProc, Table.setParent, freeproc,
    Function.update_apply] at ha h ⊢ <;> grind [freed]

theorem Fresh.stable {pid : Int} (hf : Fresh t pid) (hc : ∀ i, ev ≠ .claim i pid) :
    Fresh (ev.apply t) pid := by
  obtain ⟨hpos, hle, hne, hex, hwa⟩ := hf
  constructor
  · exact hpos
  · cases ev <;> simp only [Event.apply, Table.setProc, Table.setParent, freeproc] <;> omega
  · cases ev <;> simp only [Event.apply, Event.Allowed, Table.setProc, Table.setParent, freeproc,
      Function.update_apply] at ha ⊢ <;> grind [freed, ProcState.live]
  · cases ev <;> simp only [Event.apply, Event.Allowed, Table.setProc, Table.setParent, freeproc]
      at ha ⊢ <;> grind [ProcState.live]
  · cases ev <;> simp only [Event.apply, Event.Allowed, Table.setProc, Table.setParent, freeproc]
      at ha ⊢ <;> grind

end

/-! ## What a thread knows -/

/-- What `wait` knows when it returns. -/
def Ret.Fact (t : Table n) (q : Fin n) : Ret n → Prop
  | .noChildren => ∀ r, t.parent r ≠ some q
  | .killed => (t.proc q).killed = true
  | .copyFails i => t.parent i = some q ∧ (t.proc i).state = .zombie
  | .reaped pid status => ⟨q, pid, status⟩ ∈ t.waits

/-- What the thread of `q` knows. -/
def Loc.Fact (t : Table n) (q : Fin n) : Loc n → Prop
  | .allocpid i => (t.proc i).state = .unused
  | .found i pid => (t.proc i).state = .unused ∧ Fresh t pid
  | .alloc i | .copy i | .adopt i => (t.proc i).state = .used ∧ t.parent i = none
  | .start i => (t.proc i).state = .used ∧ t.parent i ≠ none
  | .reparent rest _ => ∀ r, r ∉ rest → t.parent r ≠ some q
  | .zombie _ => ∀ r, t.parent r ≠ some q
  | .waitScan rest havekids _ =>
    (∀ r, r ∉ rest → t.parent r = some q → (t.proc r).state ≠ .zombie) ∧
      (havekids = false → ∀ r, r ∉ rest → t.parent r ≠ some q)
  | .child i rest _ => t.parent i = some q ∧
    ∀ r, r ∉ rest → r ≠ i → t.parent r = some q → (t.proc r).state ≠ .zombie
  | .reap i pid status => (t.parent i = some q ∧ (t.proc i).state = .zombie) ∧
    (t.proc i).pid = pid ∧ ∀ st, status = some st → st = (t.proc i).xstate
  | .waitReturn r => r.Fact t q
  | .waited (.reaped pid status) => ⟨q, pid, status⟩ ∈ t.waits
  | .acquire _ k | .release _ k | .wakeup _ _ k | .wake _ _ _ k | .sched k | .yielding k =>
    k.Fact t q
  | _ => True

/-- The process that the thread is creating. -/
def Loc.embryo : Loc n → Option (Fin n)
  | .alloc i | .copy i | .adopt i | .start i => some i
  | .acquire _ k | .release _ k | .wakeup _ _ k | .wake _ _ _ k | .sched k | .yielding k =>
    k.embryo
  | _ => none

/-- The pid that the thread has allocated and not used yet. -/
def Loc.pending : Loc n → Option Int
  | .found _ pid => some pid
  | .acquire _ k | .release _ k | .wakeup _ _ k | .wake _ _ _ k | .sched k | .yielding k =>
    k.pending
  | _ => none

def Sleeper.status : Sleeper → Option Int
  | .wait _ => none
  | .other _ _ status => status

/-- The argument of the call of `exit` that the thread is in. -/
def Loc.status : Loc n → Option Int
  | .running status | .locked _ status => status
  | .reparent _ st | .zombie st => some st
  | .sleep b | .sleeping b | .awake b => b.status
  | .acquire _ k | .release _ k | .wakeup _ _ k | .wake _ _ _ k | .sched k | .yielding k =>
    k.status
  | _ => none

section

variable [NeZero n] {t : Table n} {ev : Event n} {q : Fin n}

theorem Loc.Fact.embryo {l : Loc n} {i : Fin n} (hf : l.Fact t q) (he : l.embryo = some i) :
    (t.proc i).state = .used := by
  induction l with
  | alloc j => cases he; exact hf.1
  | copy j => cases he; exact hf.1
  | adopt j => cases he; exact hf.1
  | start j => cases he; exact hf.1
  | acquire x k ih => exact ih hf he
  | release x k ih => exact ih hf he
  | wakeup ch rest k ih => exact ih hf he
  | wake ch j rest k ih => exact ih hf he
  | sched k ih => exact ih hf he
  | yielding k ih => exact ih hf he
  | _ => cases he

theorem Loc.Fact.pending {l : Loc n} {pid : Int} (hf : l.Fact t q) (he : l.pending = some pid) :
    Fresh t pid := by
  induction l with
  | found j v => cases he; exact hf.2
  | acquire x k ih => exact ih hf he
  | release x k ih => exact ih hf he
  | wakeup ch rest k ih => exact ih hf he
  | wake ch j rest k ih => exact ih hf he
  | sched k ih => exact ih hf he
  | yielding k ih => exact ih hf he
  | _ => cases he

/-- **The events of other threads do not disturb what a thread knows.** -/
theorem Loc.Fact.stable (ha : ev.Allowed t) (hlive : (t.proc q).state.live)
    (hby : ∀ i, ev ≠ .adopt i q) {l : Loc n} (hf : l.Fact t q)
    (hlk : ∀ x ∈ ev.needs, x ∉ l.relies) (hemb : ∀ i, ev.embryo = some i → l.embryo ≠ some i)
    (hpend : ∀ i pid, ev = .claim i pid → l.pending ≠ some pid)
    (h0 : l.status ≠ none → q ≠ 0) : l.Fact (ev.apply t) q := by
  -- nobody becomes a child of an exiting process
  have hchild : q ≠ 0 → ∀ r, t.parent r ≠ some q → (ev.apply t).parent r ≠ some q := by
    intro hq r hr hp
    rcases Event.parent_apply hp with h | rfl | rfl
    · exact hr h
    · exact hby r rfl
    · exact hq ha.1
  -- nobody becomes a child, or a zombie, of a process that holds `wait_lock`
  have hwait : Lk.wait ∉ ev.needs → ∀ r, (ev.apply t).parent r = some q → t.parent r = some q := by
    intro hl r hp
    rcases Event.parent_apply hp with h | rfl | rfl
    · exact h
    · exact absurd (List.mem_singleton.2 rfl) hl
    · exact absurd (List.mem_singleton.2 rfl) hl
  have hzombie : Lk.wait ∉ ev.needs → ∀ r, (t.proc r).state ≠ .zombie →
      ((ev.apply t).proc r).state ≠ .zombie := by
    intro hl r hr hz
    exact (Event.zombie_apply hz).elim hr fun hd => hl (Event.wait_of_dies hd)
  have hparent : Lk.wait ∉ ev.needs → ∀ r, t.parent r = some q →
      (ev.apply t).parent r = some q := by
    intro hl r hr
    rw [ha.parent (by rw [hr]; nofun) hl]
    exact hr
  have hwaits : ∀ w ∈ t.waits, w ∈ (ev.apply t).waits := by
    intro w hw
    cases ev <;> first | exact hw | exact List.mem_cons_of_mem _ hw
  induction l with
  | allocpid i => exact ha.unused hf fun hx => hlk _ hx (List.mem_singleton.2 rfl)
  | found i pid =>
    exact ⟨ha.unused hf.1 fun hx => hlk _ hx (List.mem_singleton.2 rfl),
      Fresh.stable ha hf.2 fun j hj => hpend j pid hj rfl⟩
  | alloc i => exact (ha.used hf.1 fun he => hemb i he rfl).imp_right fun h => h.2 hf.2
  | copy i => exact (ha.used hf.1 fun he => hemb i he rfl).imp_right fun h => h.2 hf.2
  | adopt i => exact (ha.used hf.1 fun he => hemb i he rfl).imp_right fun h => h.2 hf.2
  | start i => exact (ha.used hf.1 fun he => hemb i he rfl).imp_right fun h => mt h.1 hf.2
  | reparent rest st => exact fun r hr => hchild (h0 nofun) r (hf r hr)
  | zombie st => exact fun r => hchild (h0 nofun) r (hf r)
  | waitScan rest hk addr =>
    have hl : Lk.wait ∉ ev.needs := fun hx => hlk _ hx (List.mem_singleton.2 rfl)
    exact ⟨fun r hr hp => hzombie hl r (hf.1 r hr (hwait hl r hp)),
      fun hk r hr hp => hf.2 hk r hr (hwait hl r hp)⟩
  | child i rest addr =>
    have hl : Lk.wait ∉ ev.needs := fun hx => hlk _ hx (List.mem_singleton.2 rfl)
    exact ⟨hparent hl i hf.1, fun r hr hi hp => hzombie hl r (hf.2 r hr hi (hwait hl r hp))⟩
  | reap i pid status =>
    have hl : Lk.wait ∉ ev.needs := fun hx => hlk _ hx (List.mem_singleton.2 rfl)
    obtain ⟨hz, hp, hx⟩ := ha.zombie hf.1.2 hl
    exact ⟨⟨hparent hl i hf.1.1, hz⟩, hp.trans hf.2.1, fun st hs => by rw [hx]; exact hf.2.2 st hs⟩
  | waitReturn r =>
    have hl : Lk.wait ∉ ev.needs := fun hx => hlk _ hx (List.mem_singleton.2 rfl)
    cases r with
    | noChildren => exact fun r hp => hf r (hwait hl r hp)
    | killed => exact ha.killed hlive hf
    | copyFails i => exact ⟨hparent hl i hf.1, (ha.zombie hf.2 hl).1⟩
    | reaped pid status => exact hwaits _ hf
  | waited r =>
    cases r with
    | reaped pid status => exact hwaits _ hf
    | _ => trivial
  | acquire x k ih => exact ih hf hlk hemb hpend h0
  | release x k ih => exact ih hf hlk hemb hpend h0
  | wakeup ch rest k ih => exact ih hf hlk hemb hpend h0
  | wake ch i rest k ih => exact ih hf hlk hemb hpend h0
  | sched k ih => exact ih hf hlk hemb hpend h0
  | yielding k ih => exact ih hf hlk hemb hpend h0
  | _ => trivial

end

/-! ## The thread's own steps -/

section

variable [NeZero n] {c : C} {p : Fin n} {s : State n C} {l k : Loc n} {e : Eff n}

/-- A step of a thread that knows its facts does only what is allowed. -/
theorem Does.allowed {ev : Event n} (h : Does c p s l (.event ev) k) (hf : l.Fact s.tab p)
    (hp : (s.tab.proc p).state = .running)
    (hst : ∀ st, l.status = some st → p ≠ 0 ∧ ((s.tab.proc p).pid, st) ∈ s.tab.exited)
    (hex : l.status = none → (s.tab.proc p).pid ∉ s.tab.exited.map Prod.fst) :
    ev.Allowed s.tab := by
  have hlive : (s.tab.proc p).state.live := by rw [hp]; rfl
  cases h with
  | allocpid => trivial
  | found => exact hf
  | allocFails => exact hf
  | copyFails => exact hf
  | adopt => exact ⟨hf.1, hlive⟩
  | start => exact hf
  | exit h0 => exact ⟨hlive, hex rfl⟩
  | giveUp h0 => exact ⟨rfl, by rw [h0]; nofun⟩
  | zombie => exact ⟨hlive, (hst _ rfl).1, hf, (hst _ rfl).2⟩
  | wake h0 => exact h0
  | sleeping => exact hp
  | awake => trivial
  | yielding => exact hp
  | killing => trivial
  | setkilledSet => trivial
  | reap => exact ⟨hf.1.2, hf.1.1, hf.2.2⟩

theorem Table.Ok.nextpid_eq {t : Table n} (h : t.Ok) (hb : t.allocated + 1 < 2 ^ 31) :
    t.nextpid = t.allocated + 1 := by
  rw [h.next, Int.bmod_eq_of_le] <;> omega

/-- What is known of a pid just allocated. -/
theorem Table.Ok.fresh {t : Table n} (h : t.Ok) (hb : t.allocated + 1 < 2 ^ 31) :
    Fresh (Event.apply t .allocpid) t.nextpid := by
  have hn := h.nextpid_eq hb
  have hlt : ∀ x : Int, x ≤ t.allocated → x ≠ t.nextpid := by
    intro x hx
    omega
  refine ⟨by omega, ?_, fun i hi => hlt _ (h.pid i hi).2, fun hm => ?_, fun hm => ?_⟩
  · show t.nextpid ≤ ((t.allocated + 1 : Nat) : Int)
    omega
  · obtain ⟨x, hx, he⟩ := List.mem_map.1 hm
    exact hlt _ (h.exited x hx).2 he
  · obtain ⟨w, hw, he⟩ := List.mem_map.1 hm
    exact hlt _ (h.waits w hw).1.2 he

/-- What a thread knows after its own step. -/
theorem Does.fact (h : Does c p s l e k) (hok : s.tab.Ok) (hw : l.Wf p) (hf : l.Fact s.tab p)
    (hlive : (s.tab.proc p).state.live) (ha : ∀ ev, e = .event ev → ev.Allowed s.tab)
    (h0 : l.status ≠ none → p ≠ 0) (hb : (e.onTab s.tab).allocated < 2 ^ 31) :
    k.Fact (e.onTab s.tab) p := by
  cases h with
  | interrupt ch hh => exact hf
  | preempt hh => exact hf
  | acquire hh => exact hf
  | release => exact hf
  | testUnused hh => exact hh
  | allocpid => exact ⟨hf, hok.fresh hb⟩
  | @found i pid => exact ⟨by simp [Eff.onTab, Event.apply], hok.unused i hf.1⟩
  | alloc => exact hf
  | copy => exact hf
  | @adopt i => exact ⟨hf.1, by simp [Eff.onTab, Event.apply]⟩
  | exitLock => exact fun r hr => absurd (List.mem_finRange r) hr
  | @giveUp i rest st hp =>
    intro r hr
    show (s.tab.setParent i (some 0)).parent r ≠ some p
    by_cases hi : r = i
    · rw [hi, Table.setParent_self]
      exact fun he => h0 (fun h => by cases h) (Option.some.inj he).symm
    · rw [Table.setParent_of_ne _ hi]
      exact hf r fun hm => (List.mem_cons.1 hm).elim hi hr
  | @notMine i rest st hp =>
    intro r hr
    by_cases hi : r = i
    · rw [hi]
      exact hp
    · exact hf r fun hm => (List.mem_cons.1 hm).elim hi hr
  | tellParent => exact fun r => hf r List.not_mem_nil
  | wakeupEnd => exact hf
  | wakeupSelf hh => exact hf
  | wakeup => exact hf
  | @wake ch i rest k hh =>
    refine Loc.Fact.stable (ha _ rfl) hlive (fun _ h => by cases h) hf (fun x hx hr => ?_)
      (fun _ h => by cases h) (fun _ _ h => by cases h) h0
    rw [List.mem_singleton.1 hx] at hr
    exact hw.1 i (hw.2.relies _ hr)
  | noWake hh => exact hf
  | sched => exact hf
  | yielding =>
    refine Loc.Fact.stable (ha _ rfl) hlive (fun _ h => by cases h) hf (fun x _ hr => ?_)
      (fun _ h => by cases h) (fun _ _ h => by cases h) h0
    have := hw.2.relies x hr
    rw [hw.1] at this
    cases this
  | @awake b => cases b <;> trivial
  | waitLoop => exact ⟨fun r hr => absurd (List.mem_finRange r) hr,
      fun _ r hr => absurd (List.mem_finRange r) hr⟩
  | waitChild hp =>
    exact ⟨hp, fun r hr hi => hf.1 r fun hm => (List.mem_cons.1 hm).elim hi hr⟩
  | @waitOther i rest hk addr hp =>
    refine ⟨fun r hr hpr => ?_, fun hk r hr hpr => ?_⟩
    · exact hf.1 r (fun hm => (List.mem_cons.1 hm).elim (fun hi => hp (hi ▸ hpr)) hr) hpr
    · exact hf.2 hk r (fun hm => (List.mem_cons.1 hm).elim (fun hi => hp (hi ▸ hpr)) hr) hpr
  | childZombie hz =>
    refine ⟨⟨hf.1, hz⟩, rfl, fun st hst => ?_⟩
    split at hst
    · exact (Option.some.inj hst).symm
    · cases hst
  | @childAlive i rest addr hz =>
    refine ⟨fun r hr hpr => ?_, fun h => by cases h⟩
    by_cases hi : r = i
    · rw [hi]
      exact hz
    · exact hf.2 r hr hi hpr
  | copyoutFails hz => exact ⟨hf.1, hz⟩
  | reap =>
    show _ ∈ _ :: _
    rw [hf.2.1]
    exact List.mem_cons_self
  | noChildren => exact fun r => hf.2 rfl r List.not_mem_nil
  | waitKilled hk => exact hk
  | @waitReturn r =>
    cases r with
    | reaped pid status => exact hf
    | _ => trivial
  | _ => trivial

theorem Does.embryo (h : Does c p s l e k) : k.embryo = l.embryo ∨ k.embryo = none ∨
    ∃ i pid, e = .event (.claim i pid) ∧ k.embryo = some i := by
  cases h with
  | found => exact .inr (.inr ⟨_, _, rfl, rfl⟩)
  | @awake b => cases b <;> exact .inl rfl
  | _ => first | exact .inl rfl | exact .inr (.inl rfl)

theorem Does.embryo_event {ev : Event n} {i : Fin n} (h : Does c p s l (.event ev) k)
    (he : ev.embryo = some i) : l.embryo = some i := by
  cases h <;> first | exact he | cases he

theorem Does.pending (h : Does c p s l e k) : k.pending = l.pending ∨ k.pending = none ∨
    e = .event .allocpid ∧ k.pending = some s.tab.nextpid := by
  cases h with
  | allocpid => exact .inr (.inr ⟨rfl, rfl⟩)
  | @awake b => cases b <;> exact .inl rfl
  | _ => first | exact .inl rfl | exact .inr (.inl rfl)

theorem Does.pending_event {i : Fin n} {pid : Int} (h : Does c p s l (.event (.claim i pid)) k) :
    l.pending = some pid := by
  cases h
  rfl

theorem Does.status (h : Does c p s l e k) : k.status = l.status ∨
    (∃ st, e = .event (.exit p st) ∧ p ≠ 0 ∧ k.status = some st) ∨
      ∃ st, e = .event (.zombie p st) := by
  cases h with
  | exit h0 => exact .inr (.inl ⟨_, rfl, h0, rfl⟩)
  | zombie => exact .inr (.inr ⟨_, rfl⟩)
  | @awake b => cases b <;> exact .inl rfl
  | _ => exact .inl rfl

theorem Does.exit_event {q : Fin n} {st : Int} (h : Does c p s l (.event (.exit q st)) k) :
    q = p ∧ k.status = some st := by
  cases h
  exact ⟨rfl, rfl⟩

theorem Does.adopt_event {i q : Fin n} (h : Does c p s l (.event (.adopt i q)) k) : q = p := by
  cases h
  rfl

end

/-! ## The invariant -/

/-- The invariant of the machine. -/
structure Inv [NeZero n] (s : State n C) : Prop where
  core : Core s
  tab : s.tab.Ok
  /-- Only a process that has been started is on a CPU. -/
  started : ∀ c p, s.on c = some p → (s.tab.proc p).state.live ∨ (s.tab.proc p).state = .zombie
  used : ∀ i, (s.tab.proc i).state = .used → s.pc i = .forkret
  fact : ∀ p, (s.tab.proc p).state.live → (s.pc p).Fact s.tab p
  embryo : ∀ p q i, (s.tab.proc p).state.live → (s.tab.proc q).state.live →
    (s.pc p).embryo = some i → (s.pc q).embryo = some i → p = q
  pending : ∀ p q pid, (s.tab.proc p).state.live → (s.tab.proc q).state.live →
    (s.pc p).pending = some pid → (s.pc q).pending = some pid → p = q
  exiting : ∀ p st, (s.tab.proc p).state.live → (s.pc p).status = some st →
    p ≠ 0 ∧ ((s.tab.proc p).pid, st) ∈ s.tab.exited
  alive : ∀ p, (s.tab.proc p).state = .used ∨
      (s.tab.proc p).state.live ∧ (s.pc p).status = none →
    (s.tab.proc p).pid ∉ s.tab.exited.map Prod.fst

section

variable [NeZero n] [DecidableEq C] {s : State n C} {c : C} {p : Fin n} {e : Eff n}

/-- A thread that does anything to the table is running. -/
theorem Does.running {ev : Event n} {k : Loc n} (h : Inv s) (hon : s.on c = some p)
    (hd : Does c p s (s.pc p) (.event ev) k) : (s.tab.proc p).state = .running := by
  rw [h.core.running c p hon]
  generalize s.pc p = l at hd
  cases hd <;> rfl

theorem Inv.allowed (h : Inv s) (hon : s.on c = some p) {k : Loc n}
    (hd : Does c p s (s.pc p) e k) (ev : Event n) (he : e = .event ev) : ev.Allowed s.tab := by
  subst he
  have hrun := hd.running h hon
  have hlive : (s.tab.proc p).state.live := by rw [hrun]; rfl
  exact hd.allowed (h.fact p hlive) hrun (fun st => h.exiting p st hlive)
    fun hn => h.alive p (.inr ⟨hlive, hn⟩)

/-- The locks that what a thread knows rests on are held by its CPU. -/
theorem Inv.relies (h : Inv s) {q : Fin n} {x : Lk n} (hx : x ∈ (s.pc q).relies) :
    ∃ c', s.on c' = some q ∧ x ∈ s.held c' := by
  by_cases hq : ∀ c', s.on c' ≠ some q
  · rw [(h.core.off q hq).relies] at hx
    cases hx
  · obtain ⟨c', hc⟩ := not_forall_not.1 hq
    exact ⟨c', hc, by rw [State.held_on hc]; exact (h.core.wf q).relies x hx⟩

/-- What the other threads know after an event of the thread of `p`. -/
theorem Inv.fact_other (h : Inv s) (hon : s.on c = some p) {k : Loc n} {ev : Event n}
    (hd : Does c p s (s.pc p) (.event ev) k) {q : Fin n} (hq : q ≠ p)
    (hl : (s.tab.proc q).state.live) : (s.pc q).Fact (ev.apply s.tab) q := by
  have ha := h.allowed hon hd ev rfl
  have hlive : (s.tab.proc p).state.live := by rw [hd.running h hon]; rfl
  refine (h.fact q hl).stable ha hl ?_ (fun x hx hr => ?_) (fun i hi he => ?_)
    (fun i pid hc he => ?_) fun hst => ?_
  · rintro i rfl
    exact hq hd.adopt_event
  · obtain ⟨c', hc, hh⟩ := h.relies hr
    have hxp : x ∈ s.held c := by rw [State.held_on hon]; exact hd.needs.1 x hx
    have := h.core.unique hh hxp
    rw [this, hon] at hc
    exact hq (Option.some.inj hc).symm
  · exact hq (h.embryo q p i hl hlive he (hd.embryo_event hi))
  · subst hc
    exact hq (h.pending q p pid hl hlive he hd.pending_event)
  · obtain ⟨st, hs⟩ := Option.ne_none_iff_exists'.1 hst
    exact (h.exiting q st hl hs).1

section

variable {k : Loc n} {ev : Event n} (h : Inv s) (hon : s.on c = some p)
  (hd : Does c p s (s.pc p) (.event ev) k)

include h hon hd

/-- A process that lives has lived before, or has just been started. -/
theorem Inv.live_cases {q : Fin n} (hq : ((ev.apply s.tab).proc q).state.live) : q = p ∨
    (q ≠ p ∧ (s.tab.proc q).state.live ∧ (s.move c p (.event ev) k).pc q = s.pc q) ∨
    q ≠ p ∧ (s.tab.proc q).state = .used ∧ (s.move c p (.event ev) k).pc q = .forkret := by
  have hal := h.allowed hon hd
  have ha := hal ev rfl
  by_cases hqp : q = p
  · exact .inl hqp
  refine .inr ?_
  have hpc := h.core.pc_move hon hd hal hqp
  rcases ha.live hq with hl | rfl
  · refine .inl ⟨hqp, hl, hpc.resolve_right ?_⟩
    rintro ⟨⟨pid, he⟩, -⟩
    cases he
    exact live_ne_unused hl ha.1
  · refine .inr ⟨hqp, ha.1, ?_⟩
    rcases hpc with hs | ⟨-, hs, -⟩
    · rw [hs, h.used q ha.1]
    · exact hs

/-- Nobody but `p` calls `exit`. -/
theorem Inv.not_exited {q : Fin n} (hq : q ≠ p) (hu : (s.tab.proc q).state ≠ .unused)
    (hn : (s.tab.proc q).pid ∉ s.tab.exited.map Prod.fst) :
    (s.tab.proc q).pid ∉ (ev.apply s.tab).exited.map Prod.fst := by
  have hlive : (s.tab.proc p).state ≠ .unused := by rw [hd.running h hon]; nofun
  rcases @Event.exited_apply n s.tab ev with he | ⟨r, st, rfl, he⟩
  · rw [he]
    exact hn
  · rw [he, List.map_cons, List.mem_cons, not_or]
    have hr := hd.exit_event.1
    exact ⟨fun hpe => hq ((h.tab.pid_inj q r hu (hr ▸ hlive) hpe).trans hr), hn⟩

/-- A new process is created by one thread. -/
theorem Inv.embryo_step {i q r : Fin n} (hq : ((ev.apply s.tab).proc q).state.live)
    (hr : ((ev.apply s.tab).proc r).state.live)
    (hqi : ((s.move c p (.event ev) k).pc q).embryo = some i)
    (hri : ((s.move c p (.event ev) k).pc r).embryo = some i) : q = r := by
  have hlive : (s.tab.proc p).state.live := by rw [hd.running h hon]; rfl
  have hold : ∀ j, ((ev.apply s.tab).proc j).state.live →
      ((s.move c p (.event ev) k).pc j).embryo = some i →
      (s.tab.proc j).state.live ∧ (s.pc j).embryo = some i ∨
        j = p ∧ (s.tab.proc i).state = .unused := by
    intro j hj hji
    rcases h.live_cases hon hd hj with rfl | ⟨-, hl, hs⟩ | ⟨-, -, hs⟩
    · rw [show (s.move c j (.event ev) k).pc j = k from Function.update_self ..] at hji
      rcases hd.embryo with he | he | ⟨i', pid, he, hi⟩
      · exact .inl ⟨hlive, he ▸ hji⟩
      · rw [he] at hji
        cases hji
      · rw [hi] at hji
        cases hji
        cases he
        exact .inr ⟨rfl, (h.allowed hon hd _ rfl).1⟩
    · exact .inl ⟨hl, hs ▸ hji⟩
    · rw [hs] at hji
      cases hji
  have hused : ∀ j, (s.tab.proc j).state.live ∧ (s.pc j).embryo = some i →
      (s.tab.proc i).state ≠ .unused := by
    rintro j ⟨hl, he⟩
    rw [(h.fact j hl).embryo he]
    nofun
  rcases hold q hq hqi with hq' | ⟨hq', hu⟩
  · rcases hold r hr hri with hr' | ⟨-, hu⟩
    · exact h.embryo q r i hq'.1 hr'.1 hq'.2 hr'.2
    · exact absurd hu (hused q hq')
  · rcases hold r hr hri with hr' | ⟨hr', -⟩
    · exact absurd hu (hused r hr')
    · exact hq'.trans hr'.symm

/-- A pid is pending in one thread. -/
theorem Inv.pending_step (hb : (ev.apply s.tab).allocated < 2 ^ 31) {pid : Int} {q r : Fin n}
    (hq : ((ev.apply s.tab).proc q).state.live) (hr : ((ev.apply s.tab).proc r).state.live)
    (hqi : ((s.move c p (.event ev) k).pc q).pending = some pid)
    (hri : ((s.move c p (.event ev) k).pc r).pending = some pid) : q = r := by
  have hlive : (s.tab.proc p).state.live := by rw [hd.running h hon]; rfl
  have hold : ∀ j, ((ev.apply s.tab).proc j).state.live →
      ((s.move c p (.event ev) k).pc j).pending = some pid →
      (s.tab.proc j).state.live ∧ (s.pc j).pending = some pid ∨
        j = p ∧ ev = .allocpid ∧ pid = s.tab.nextpid := by
    intro j hj hji
    rcases h.live_cases hon hd hj with rfl | ⟨-, hl, hs⟩ | ⟨-, -, hs⟩
    · rw [show (s.move c j (.event ev) k).pc j = k from Function.update_self ..] at hji
      rcases hd.pending with he | he | ⟨he, hi⟩
      · exact .inl ⟨hlive, he ▸ hji⟩
      · rw [he] at hji
        cases hji
      · rw [hi] at hji
        exact .inr ⟨rfl, Eff.event.inj he, (Option.some.inj hji).symm⟩
    · exact .inl ⟨hl, hs ▸ hji⟩
    · rw [hs] at hji
      cases hji
  have hle : ∀ j, (s.tab.proc j).state.live ∧ (s.pc j).pending = some pid →
      ¬ (ev = .allocpid ∧ pid = s.tab.nextpid) := by
    rintro j ⟨hl, he⟩ ⟨rfl, hp⟩
    have hle := ((h.fact j hl).pending he).le
    have hn := h.tab.nextpid_eq hb
    omega
  rcases hold q hq hqi with hq' | ⟨hq', hu⟩
  · rcases hold r hr hri with hr' | ⟨-, hu⟩
    · exact h.pending q r pid hq'.1 hr'.1 hq'.2 hr'.2
    · exact absurd hu (hle q hq')
  · rcases hold r hr hri with hr' | ⟨hr', -⟩
    · exact absurd hu (hle r hr')
    · exact hq'.trans hr'.symm

theorem Inv.exiting_step {q : Fin n} {st : Int} (hq : ((ev.apply s.tab).proc q).state.live)
    (hst : ((s.move c p (.event ev) k).pc q).status = some st) :
    q ≠ 0 ∧ (((ev.apply s.tab).proc q).pid, st) ∈ (ev.apply s.tab).exited := by
  have ha := h.allowed hon hd ev rfl
  have hlive : (s.tab.proc p).state.live := by rw [hd.running h hon]; rfl
  have hold : (s.tab.proc q).state.live → (s.pc q).status = some st →
      q ≠ 0 ∧ (((ev.apply s.tab).proc q).pid, st) ∈ (ev.apply s.tab).exited := by
    intro hl hs
    obtain ⟨h0, hx⟩ := h.exiting q st hl hs
    rw [ha.pid (live_ne_unused hl) (live_ne_unused hq)]
    refine ⟨h0, ?_⟩
    rcases @Event.exited_apply n s.tab ev with he | ⟨_, _, -, he⟩
    · rw [he]
      exact hx
    · rw [he]
      exact List.mem_cons_of_mem _ hx
  rcases h.live_cases hon hd hq with rfl | ⟨-, hl, hs⟩ | ⟨-, -, hs⟩
  · rw [show (s.move c q (.event ev) k).pc q = k from Function.update_self ..] at hst
    rcases hd.status with he | ⟨st', he, h0, hk⟩ | ⟨st', he⟩
    · exact hold hlive (he ▸ hst)
    · rw [hk] at hst
      cases hst
      cases he
      exact ⟨h0, List.mem_cons_self⟩
    · cases he
      simp [Event.apply, ProcState.live] at hq
  · exact hold hl (hs ▸ hst)
  · rw [hs] at hst
    cases hst

theorem Inv.alive_step {q : Fin n} (hq : ((ev.apply s.tab).proc q).state = .used ∨
      ((ev.apply s.tab).proc q).state.live ∧
        ((s.move c p (.event ev) k).pc q).status = none) :
    ((ev.apply s.tab).proc q).pid ∉ (ev.apply s.tab).exited.map Prod.fst := by
  have ha := h.allowed hon hd ev rfl
  have hrun := hd.running h hon
  have hlive : (s.tab.proc p).state.live := by rw [hrun]; rfl
  have hold : q ≠ p → (s.tab.proc q).state ≠ .unused → ((ev.apply s.tab).proc q).state ≠ .unused →
      (s.tab.proc q).pid ∉ s.tab.exited.map Prod.fst →
      ((ev.apply s.tab).proc q).pid ∉ (ev.apply s.tab).exited.map Prod.fst := by
    intro hqp hu hu' hn
    rw [ha.pid hu hu']
    exact h.not_exited hon hd hqp hu hn
  rcases hq with hu | ⟨hq, hst⟩
  · rcases ha.used_apply hu with hu' | hc
    · refine hold ?_ (by rw [hu']; nofun) (by rw [hu]; nofun) (h.alive q (.inl hu'))
      rintro rfl
      rw [hrun] at hu'
      cases hu'
    · -- the slot has just been claimed, with a fresh pid
      generalize ((ev.apply s.tab).proc q).pid = pid at hc ⊢
      subst hc
      exact ha.2.exited
  · rcases h.live_cases hon hd hq with rfl | ⟨hqp, hl, hs⟩ | ⟨hqp, hu, -⟩
    · rw [show (s.move c q (.event ev) k).pc q = k from Function.update_self ..] at hst
      rcases hd.status with he | ⟨st', -, -, hk⟩ | ⟨st', he⟩
      · rw [ha.pid (live_ne_unused hlive) (live_ne_unused hq)]
        rcases @Event.exited_apply n s.tab ev with hx | ⟨r, st, rfl, -⟩
        · rw [hx]
          exact h.alive q (.inr ⟨hlive, he ▸ hst⟩)
        · rw [hd.exit_event.2] at hst
          cases hst
      · rw [hk] at hst
        cases hst
      · cases he
        simp [Event.apply, ProcState.live] at hq
    · exact hold hqp (live_ne_unused hl) (live_ne_unused hq) (h.alive q (.inr ⟨hl, hs ▸ hst⟩))
    · exact hold hqp (by rw [hu]; nofun) (live_ne_unused hq) (h.alive q (.inl hu))

/-- An event of a thread keeps the invariant. -/
theorem Inv.step_event (hb : (ev.apply s.tab).allocated < 2 ^ 31) :
    Inv (s.move c p (.event ev) k) := by
  have hal := h.allowed hon hd
  have ha := hal ev rfl
  have hrun := hd.running h hon
  have hlive : (s.tab.proc p).state.live := by rw [hrun]; rfl
  have hpcp : (s.move c p (.event ev) k).pc p = k := Function.update_self ..
  have hleave : Eff.event ev ≠ .leave := fun h => by cases h
  refine ⟨h.core.step_move hon hd hal hleave, ha.ok h.tab, fun c' q hq => ?_, fun i hi => ?_,
    fun q hq => ?_, fun q r i => h.embryo_step hon hd, fun q r pid => h.pending_step hon hd hb,
    fun q st => h.exiting_step hon hd, fun q => h.alive_step hon hd⟩
  · replace hq : s.on c' = some q := hq
    refine ha.started (h.started c' q hq) ?_
    rintro r st rfl
    have hz := ha.1
    have hheld : Lk.proc q ∈ s.held c := by
      rw [State.held_on hon]
      exact hd.needs.1 _ (by simp [Event.needs])
    rw [h.core.off_of_held (by rw [hz]; decide) hheld hq, hon] at hq
    rw [← Option.some.inj hq, hrun] at hz
    cases hz
  · rcases ha.used_apply hi with hu | hc
    · have hip : i ≠ p := by
        rintro rfl
        rw [hrun] at hu
        cases hu
      rcases h.core.pc_move hon hd hal hip with hs | ⟨-, hs, -⟩
      · rw [hs]
        exact h.used i hu
      · exact hs
    · have hip : i ≠ p := by
        rintro rfl
        rw [hc] at ha
        rw [ha.1] at hrun
        cases hrun
      rw [hc]
      show Function.update (Function.update s.pc i .forkret) p k i = .forkret
      rw [Function.update_of_ne hip, Function.update_self]
  · rcases h.live_cases hon hd hq with rfl | ⟨hqp, hl, hs⟩ | ⟨-, -, hs⟩
    · rw [hpcp]
      refine hd.fact h.tab (h.core.wf q) (h.fact q hlive) hlive hal (fun hst => ?_) hb
      obtain ⟨st, hs⟩ := Option.ne_none_iff_exists'.1 hst
      exact (h.exiting q st hlive hs).1
    · rw [hs]
      exact h.fact_other hon hd hqp hl
    · rw [hs]
      trivial

end

/-- A step of a thread that does nothing to the table. -/
theorem Inv.step_quiet (h : Inv s) (hon : s.on c = some p) {k : Loc n}
    (hd : Does c p s (s.pc p) e k) (he : ∀ ev, e ≠ .event ev)
    (hb : s.tab.allocated < 2 ^ 31) : Inv (s.move c p e k) := by
  have htab : (s.move c p e k).tab = s.tab := by
    cases e with
    | event ev => exact absurd rfl (he ev)
    | _ => rfl
  have hpcp : (s.move c p e k).pc p = k := Function.update_self ..
  have hpc : ∀ q, q ≠ p → (s.move c p e k).pc q = s.pc q := by
    intro q hq
    refine (Function.update_of_ne hq ..).trans ?_
    cases e with
    | event ev => exact absurd rfl (he ev)
    | _ => rfl
  have hal : ∀ ev, e = .event ev → ev.Allowed s.tab := fun ev hev => absurd hev (he ev)
  have hstatus : k.status = (s.pc p).status := by
    rcases hd.status with hs | ⟨st, hev, -⟩ | ⟨st, hev⟩
    · exact hs
    · exact absurd hev (he _)
    · exact absurd hev (he _)
  have hembryo : k.embryo = (s.pc p).embryo ∨ k.embryo = none := by
    rcases hd.embryo with hs | hs | ⟨i, pid, hev, -⟩
    · exact .inl hs
    · exact .inr hs
    · exact absurd hev (he _)
  have hpending : k.pending = (s.pc p).pending ∨ k.pending = none := by
    rcases hd.pending with hs | hs | ⟨hev, -⟩
    · exact .inl hs
    · exact .inr hs
    · exact absurd hev (he _)
  -- what a thread is creating or has allocated, it was before
  have hemb : ∀ q i, ((s.move c p e k).pc q).embryo = some i → (s.pc q).embryo = some i := by
    intro q i hi
    by_cases hq : q = p
    · rw [hq, hpcp] at hi
      rcases hembryo with hs | hs
      · rw [hq, ← hs]
        exact hi
      · rw [hs] at hi
        cases hi
    · rw [← hpc q hq]
      exact hi
  have hpen : ∀ q v, ((s.move c p e k).pc q).pending = some v → (s.pc q).pending = some v := by
    intro q i hi
    by_cases hq : q = p
    · rw [hq, hpcp] at hi
      rcases hpending with hs | hs
      · rw [hq, ← hs]
        exact hi
      · rw [hs] at hi
        cases hi
    · rw [← hpc q hq]
      exact hi
  have hsta : ∀ q, ((s.move c p e k).pc q).status = (s.pc q).status := by
    intro q
    by_cases hq : q = p
    · rw [hq, hpcp, hstatus]
    · rw [hpc q hq]
  have hon' : ∀ c' q, (s.move c p e k).on c' = some q → s.on c' = some q := by
    intro c' q hq
    by_cases hl : e = .leave
    · subst hl
      by_cases hc : c' = c
      · rw [hc, show (s.move c p .leave k).on c = none from Function.update_self ..] at hq
        cases hq
      · rwa [show (s.move c p .leave k).on c' = s.on c' from Function.update_of_ne hc ..] at hq
    · rwa [show (s.move c p e k).on = s.on from hd.plain.2.1 hl] at hq
  refine ⟨?_, by rw [htab]; exact h.tab, fun c' q hq => ?_, fun i hi => ?_, fun q hq => ?_,
    fun q r i hq hr hqi hri => ?_, fun q r v hq hr hqi hri => ?_, fun q st hq hst => ?_,
    fun q hq => ?_⟩
  · by_cases hl : e = .leave
    · subst hl
      generalize hpl : s.pc p = l at hd
      cases hd
      exact h.core.step_leave hon hpl
    · exact h.core.step_move hon hd hal hl
  · rw [htab]
    exact h.started c' q (hon' c' q hq)
  · rw [htab] at hi
    have hip : i ≠ p := by
      rintro rfl
      rcases h.started c i hon with hl | hz
      · rw [hi] at hl
        cases hl
      · rw [hi] at hz
        cases hz
    rw [hpc i hip]
    exact h.used i hi
  · rw [htab] at hq ⊢
    by_cases hqp : q = p
    · subst hqp
      rw [hpcp]
      have hf := hd.fact h.tab (h.core.wf q) (h.fact q hq) hq hal fun hst => by
        obtain ⟨st, hs⟩ := Option.ne_none_iff_exists'.1 hst
        exact (h.exiting q st hq hs).1
      rw [show e.onTab s.tab = s.tab from htab] at hf
      exact hf hb
    · rw [hpc q hqp]
      exact h.fact q hq
  · rw [htab] at hq hr
    exact h.embryo q r i hq hr (hemb q i hqi) (hemb r i hri)
  · rw [htab] at hq hr
    exact h.pending q r v hq hr (hpen q v hqi) (hpen r v hri)
  · rw [htab] at hq ⊢
    rw [hsta] at hst
    exact h.exiting q st hq hst
  · rw [htab, hsta] at hq
    rw [htab]
    exact h.alive q hq

theorem SDoes.event {l k : SLoc n} {ev : Event n} (hd : SDoes c s l (.event ev) k) :
    (∃ i, ev = .wake i) ∨ ∃ i, ev = .run i := by
  cases hd with
  | wake h => exact .inl ⟨_, rfl⟩
  | run h => exact .inr ⟨_, rfl⟩

/-- What the threads know after an event of a scheduler. -/
theorem Inv.fact_sched (h : Inv s) (hon : s.on c = none) {k : SLoc n} {ev : Event n}
    (hd : SDoes c s (s.spc c) (.event ev) k) {q : Fin n} (hl : (s.tab.proc q).state.live) :
    (s.pc q).Fact (ev.apply s.tab) q := by
  obtain ⟨hneeds, -, ha⟩ := hd.needs
  have hlk : ∀ x ∈ ev.needs, x ∉ (s.pc q).relies := by
    intro x hx hr
    obtain ⟨c', hc, hh⟩ := h.relies hr
    have hxp : x ∈ s.held c := by rw [State.held_off hon]; exact hneeds x hx
    rw [h.core.unique hh hxp, hon] at hc
    cases hc
  have h0 : (s.pc q).status ≠ none → q ≠ 0 := by
    intro hst
    obtain ⟨st, hs⟩ := Option.ne_none_iff_exists'.1 hst
    exact (h.exiting q st hl hs).1
  rcases hd.event with ⟨i, rfl⟩ | ⟨i, rfl⟩
  · exact (h.fact q hl).stable ha hl nofun hlk nofun nofun h0
  · exact (h.fact q hl).stable ha hl nofun hlk nofun nofun h0

/-- A scheduler changes the state of a process, but not its stage of life. -/
theorem SDoes.table {l k : SLoc n} (hd : SDoes c s l e k) (q : Fin n) :
    (((s.smove c e k).tab.proc q).state = (s.tab.proc q).state ∨
      ((s.smove c e k).tab.proc q).state.live ∧ (s.tab.proc q).state.live) ∧
    ((s.smove c e k).tab.proc q).pid = (s.tab.proc q).pid ∧
    (s.smove c e k).tab.exited = s.tab.exited := by
  have hset : ∀ (i : Fin n) (x : Proc n), x.pid = (s.tab.proc i).pid → x.state.live →
      (s.tab.proc i).state.live →
      (((s.tab.setProc i x).proc q).state = (s.tab.proc q).state ∨
        ((s.tab.setProc i x).proc q).state.live ∧ (s.tab.proc q).state.live) ∧
      ((s.tab.setProc i x).proc q).pid = (s.tab.proc q).pid ∧
      (s.tab.setProc i x).exited = s.tab.exited := by
    intro i x hp hx hi
    by_cases hq : q = i
    · rw [hq, Table.setProc_self]
      exact ⟨.inr ⟨hx, hi⟩, hp, rfl⟩
    · rw [Table.setProc_of_ne _ hq]
      exact ⟨.inl rfl, rfl, rfl⟩
  cases hd with
  | wake h => exact hset _ _ rfl rfl (by rw [h]; rfl)
  | run h => exact hset _ _ rfl rfl (by rw [h]; rfl)
  | _ => exact ⟨.inl rfl, rfl, rfl⟩

/-- A step of a scheduler keeps the invariant. -/
theorem Inv.step_sched (h : Inv s) (hon : s.on c = none) {k : SLoc n}
    (hd : SDoes c s (s.spc c) e k) : Inv (s.smove c e k) := by
  have hpc : (s.smove c e k).pc = s.pc := hd.plain.1
  have htab := fun q => hd.table q
  have hexited : (s.smove c e k).tab.exited = s.tab.exited := (htab 0).2.2
  have hlive : ∀ q, ((s.smove c e k).tab.proc q).state.live = (s.tab.proc q).state.live := by
    intro q
    rcases (htab q).1 with he | ⟨h1, h2⟩
    · rw [he]
    · rw [h1, h2]
  have hdead : ∀ q x, ProcState.live x = false →
      (((s.smove c e k).tab.proc q).state = x ↔ (s.tab.proc q).state = x) := by
    intro q x hx
    rcases (htab q).1 with he | ⟨h1, h2⟩
    · rw [he]
    · constructor <;> intro he
      · rw [he, hx] at h1
        cases h1
      · rw [he, hx] at h2
        cases h2
  refine ⟨?_, ?_, fun c' q hq => ?_, fun i hi => ?_, fun q hq => ?_, ?_, ?_, fun q st hq hst => ?_,
    fun q hq => ?_⟩
  · by_cases he : ∃ i, e = .enter i
    · obtain ⟨i, rfl⟩ := he
      generalize hl : s.spc c = l at hd
      cases hd
      exact h.core.step_enter hon hl
    · exact h.core.step_smove hon hd fun i hi => he ⟨i, hi⟩
  · by_cases he : ∃ ev, e = .event ev
    · obtain ⟨ev, rfl⟩ := he
      exact hd.needs.2.2.ok h.tab
    · cases e with
      | event ev => exact absurd ⟨ev, rfl⟩ he
      | _ => exact h.tab
  · rw [hlive, hdead q .zombie rfl]
    by_cases he : ∃ i, e = .enter i
    · obtain ⟨i, rfl⟩ := he
      by_cases hc : c' = c
      · rw [hc, show (s.smove c (.enter i) k).on c = some i from Function.update_self ..] at hq
        cases hq
        generalize hl : s.spc c = l at hd
        cases hd
        rw [(h.core.starting c q hon (by rw [hl]; rfl)).1]
        exact .inl rfl
      · rw [show (s.smove c (.enter i) k).on c' = s.on c' from Function.update_of_ne hc ..] at hq
        exact h.started c' q hq
    · have hon' : (s.smove c e k).on = s.on := hd.plain.2.2.1 fun i hi => he ⟨i, hi⟩
      rw [hon'] at hq
      exact h.started c' q hq
  · rw [hdead i .used rfl] at hi
    rw [hpc]
    exact h.used i hi
  · rw [hlive] at hq
    rw [hpc]
    cases e with
    | event ev => exact h.fact_sched hon hd hq
    | _ => exact h.fact q hq
  · simp only [hlive, hpc]
    exact h.embryo
  · simp only [hlive, hpc]
    exact h.pending
  · rw [hlive] at hq
    rw [hpc] at hst
    rw [(htab q).2.1, hexited]
    exact h.exiting q st hq hst
  · rw [hlive, hdead q .used rfl, hpc] at hq
    rw [(htab q).2.1, hexited]
    exact h.alive q hq

theorem userinit_init :
    (userinit : Table n).proc 0 = { freed with state := .runnable, pid := 1 } := by
  simp only [userinit, if_true]

theorem userinit_free {i : Fin n} (hi : i ≠ 0) : (userinit : Table n).proc i = freed := if_neg hi

theorem userinit_ok : (userinit : Table n).Ok := by
  have hu : ∀ i : Fin n, ((userinit : Table n).proc i).state ≠ .unused → i = 0 := by
    intro i hi
    by_contra h
    rw [userinit_free h] at hi
    exact hi rfl
  refine ⟨by rw [userinit_init]; rfl, rfl, ?_, fun i hi => ?_, fun i j hi hj _ => ?_, nofun, nofun,
    fun i hi _ => .inl (by rw [userinit_free hi]; rfl), fun _ _ => rfl, fun i hi => ?_, nofun,
    List.nodup_nil, nofun, List.nodup_nil, nofun⟩
  · show (2 : Int) = (((1 : Nat) : Int) + 1).bmod (2 ^ 32)
    decide
  · rw [hu i hi, userinit_init]
    exact ⟨Int.one_pos, Int.le_refl 1⟩
  · rw [hu i hi, hu j hj]
  · rw [hu i (by rw [hi]; nofun), userinit_init] at hi
    cases hi

theorem inv_boot : Inv (boot : State n C) := by
  have hrun : ∀ i : Fin n, ((userinit : Table n).proc i).state ≠ .running := by
    intro i
    by_cases hi : i = 0
    · rw [hi, userinit_init]
      nofun
    · rw [userinit_free hi]
      nofun
  refine ⟨⟨fun _ => trivial, fun _ => trivial, fun l c => ⟨nofun, nofun⟩, nofun, nofun,
    fun _ _ => ⟨rfl, rfl, rfl, rfl⟩, nofun, fun _ _ => rfl, nofun, nofun, nofun,
    fun p hp => absurd hp (hrun p)⟩, userinit_ok, nofun, fun _ _ => rfl, fun _ _ => trivial, nofun,
    nofun, nofun, nofun⟩

/-- A step keeps the invariant, as long as pids last. -/
theorem Inv.step {s' : State n C} {ch : Choice} (h : Inv s) (hs : s.step c ch = some s')
    (hb : s'.tab.allocated < 2 ^ 31) : Inv s' := by
  rcases State.step_cases hs with ⟨p, e, k, hon, hd, rfl⟩ | ⟨e, k, hon, hd, rfl⟩
  · cases e with
    | event ev => exact h.step_event hon hd hb
    | _ => exact h.step_quiet hon hd nofun hb
  · exact h.step_sched hon hd

theorem State.allocated_le {s' : State n C} {ch : Choice} (hs : s.step c ch = some s') :
    s.tab.allocated ≤ s'.tab.allocated := by
  have hle : ∀ e : Eff n, s.tab.allocated ≤ (e.onTab s.tab).allocated := by
    intro e
    cases e with
    | event ev => exact Event.allocated_le
    | _ => exact Nat.le_refl _
  rcases State.step_cases hs with ⟨p, e, k, hon, hd, rfl⟩ | ⟨e, k, hon, hd, rfl⟩
  · exact hle e
  · exact hle e

/-- Every reachable state satisfies the invariant, as long as pids last. -/
theorem Reach.inv (hr : Reach s) (hb : s.tab.allocated < 2 ^ 31) : Inv s := by
  induction hr with
  | boot => exact inv_boot
  | step hs h ih => exact (ih (Nat.lt_of_le_of_lt (State.allocated_le h) hb)).step h hb

/-- A CPU whose `c->proc` is a process that nobody has locked executes its thread. -/
theorem Core.on_of_cur (h : Core s) (hf : s.lock (.proc p) = none) (hc : s.cur c = some p) :
    s.on c = some p := by
  cases hon : s.on c with
  | some q => rw [← hc, h.cur_on c q hon]
  | none =>
    have hh : Lk.proc p ∈ s.held c := by
      rw [State.held_off hon]
      exact SLoc.holds_of_cur (.inl ((h.cur_off c hon).symm.trans hc))
    rw [← h.lock, hf] at hh
    cases hh

/-- **The process table.**  In every state that any number of CPUs reach, as long as pids last: a
process whose lock is free is RUNNING exactly if it is the current process of a CPU, and then of
one; the pids in use are positive and distinct; a process that has been started has a parent that
is neither UNUSED nor ZOMBIE, unless it is `init`; and no ZOMBIE has children. -/
theorem proc_table (hr : Reach s) (hb : s.tab.allocated < 2 ^ 31) :
    (∀ p, s.lock (.proc p) = none → (s.tab.proc p).state = .running →
      ∃! c, s.cur c = some p) ∧
    (∀ c p, s.lock (.proc p) = none → s.cur c = some p → (s.tab.proc p).state = .running) ∧
    (∀ p, (s.tab.proc p).state ≠ .unused → 0 < (s.tab.proc p).pid) ∧
    (∀ p q, (s.tab.proc p).state ≠ .unused → (s.tab.proc q).state ≠ .unused →
      (s.tab.proc p).pid = (s.tab.proc q).pid → p = q) ∧
    (∀ p, p ≠ 0 → (s.tab.proc p).state ≠ .unused → (s.tab.proc p).state ≠ .used →
      ∃ r, s.tab.parent p = some r ∧ (s.tab.proc r).state ≠ .unused ∧
        (s.tab.proc r).state ≠ .zombie) ∧
    (∀ p r, s.tab.parent p = some r → (s.tab.proc r).state ≠ .zombie) := by
  have h := hr.inv hb
  refine ⟨fun p hf hp => ?_, fun c p hf hc => ?_, fun p hp => (h.tab.pid p hp).1,
    h.tab.pid_inj, fun p h0 hu hs => ?_, fun p r hp => live_ne_zombie (h.tab.parent_live p r hp)⟩
  · obtain ⟨c, hc⟩ := h.core.exec p hp
    have hon : s.on c = some p := by
      refine hc.resolve_right fun hx => ?_
      have hh : Lk.proc p ∈ s.held c := by
        rw [State.held_off hx.1]
        exact SLoc.holds_of_cur (.inr hx.2)
      rw [← h.core.lock, hf] at hh
      cases hh
    exact ⟨c, h.core.cur_on c p hon,
      fun c' hc' => h.core.once c' c p (h.core.on_of_cur hf hc') hon⟩
  · have hon := h.core.on_of_cur hf hc
    rw [h.core.running c p hon]
    refine Bool.eq_false_iff.2 fun hl => ?_
    have hh : Lk.proc p ∈ s.held c := by
      rw [State.held_on hon]
      exact Loc.holds_of_leaving hl
    rw [← h.core.lock, hf] at hh
    cases hh
  · cases hp : s.tab.parent p with
    | none => exact absurd (h.tab.orphan p h0 hp) (not_or.2 ⟨hu, hs⟩)
    | some r =>
      have hl := h.tab.parent_live p r hp
      exact ⟨r, rfl, live_ne_unused hl, live_ne_zombie hl⟩

end

/-! Two CPUs: `init` forks on one, and its child starts on the other. -/

/-- A sequence of steps, all of which can be taken. -/
def State.run [NeZero n] [DecidableEq C] (s : State n C) : List (C × Choice) → Option (State n C)
  | [] => some s
  | x :: xs => (s.step x.1 x.2).bind fun s' => s'.run xs

theorem Reach.run [NeZero n] [DecidableEq C] {s s' : State n C} (hs : Reach s)
    {xs : List (C × Choice)} (h : s.run xs = some s') : Reach s' := by
  induction xs generalizing s with
  | nil =>
    cases h
    exact hs
  | cons x xs ih =>
    rw [State.run, Option.bind_eq_some_iff] at h
    obtain ⟨s₁, h1, h2⟩ := h
    exact ih (hs.step h1) h2

/-- Let CPU `c` go on for `m` steps. -/
def goOn (c : C) (m : Nat) : List (C × Choice) := List.replicate m (c, .go)

def twoRunning : List (Bool × Choice) :=
  [(false, Choice.alt)] ++ goOn false 7 ++ [(false, Choice.fork)] ++ goOn false 20 ++
    [(true, Choice.alt)] ++ goOn true 11

theorem proc_table_twoRunning : ∃ s : State 2 Bool, boot.run twoRunning = some s ∧
    (∃! c, s.cur c = some 0) ∧ ∃! c, s.cur c = some 1 := by
  have hrun : ((boot : State 2 Bool).run twoRunning).map (fun s => (s.tab.allocated,
      s.lock (.proc 0), s.lock (.proc 1), (s.tab.proc 0).state, (s.tab.proc 1).state)) =
        some (2, none, none, .running, .running) := by decide +kernel
  obtain ⟨s, hs, he⟩ := Option.map_eq_some_iff.1 hrun
  simp only [Prod.mk.injEq] at he
  obtain ⟨ha, h0, h1, hs0, hs1⟩ := he
  have h := (proc_table (Reach.boot.run hs) (by rw [ha]; decide)).1
  exact ⟨s, hs, h 0 h0 hs0, h 1 h1 hs1⟩

end Xv6.Sched
