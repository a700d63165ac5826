import Xv6.Activity.Record
import Xv6.Vm.Mem

/-!
# Concurrent callers of `getactivity`

The counters of `trap.c`, and any number of processes in `sys_getactivity`.  A call takes a
snapshot of the counters under `statslock`; its subtractions and its updates of
`last_total_ticks`, `last_cpu_active` and `last_int_count` are steps of their own, at which other
calls, traps and the allocator may come in.

The counters are 64-bit words.  How often each has been incremented is kept as a ghost, and so is
the part of that count that a call reports: `since` to `upto`.  If no call takes its snapshot
while another is between its snapshot and its last update (`Apart`), the intervals of the calls
follow one another (`Inv`), and what a call reports is about its own interval.
-/

set_option autoImplicit false

namespace Xv6.Activity

/-! ## The machine -/

/-- The three counters. -/
inductive Field
  /-- `g_total_ticks`. -/
  | total
  /-- `g_cpu_active_ticks`. -/
  | active
  /-- `g_interrupt_count`. -/
  | int
  deriving DecidableEq

abbrev Counters : Type := Field → Nat

/-- The places in `trap.c` that count, each under `statslock`. -/
inductive Trap
  /-- `usertrap`: a device interrupt. -/
  | user
  /-- `usertrap`: `which_dev == 2`; is the process RUNNING? -/
  | userTimer (running : Bool)
  /-- `kerneltrap`: is it the timer, and is there a RUNNING process? -/
  | kernel (timer running : Bool)

/-- `g_total_ticks++`, and `g_cpu_active_ticks++` if a process runs. -/
def countTick (inc : Nat → Nat) (running : Bool) (g : Counters) : Counters
  | .total => inc (g .total)
  | .active => if running then inc (g .active) else g .active
  | .int => g .int

/-- `g_interrupt_count++`. -/
def countInt (inc : Nat → Nat) (g : Counters) : Counters
  | .int => inc (g .int)
  | c => g c

/-- What a trap counts, with `inc` for `++`. -/
def Trap.apply (inc : Nat → Nat) (g : Counters) : Trap → Counters
  | .user => countInt inc g
  | .userTimer running => countTick inc running g
  | .kernel timer running =>
    let g := countInt inc g
    if timer then countTick inc running g else g

/-- `++` of a `uint64`. -/
def inc64 (n : Nat) : Nat := (n + 1) % 2 ^ 64

/-- The statement of `sys_getactivity` that a call is at. -/
inductive Point
  /-- `delta = current - last`. -/
  | delta (c : Field)
  /-- `last = current`. -/
  | last (c : Field)
  /-- `get_memory_stats(&free_mem, &total_mem)`. -/
  | memory
  /-- The read of `ticks` and `g_last_keypress_tick`. -/
  | user
  /-- The read of `ticks` for the time, and `copyout`. -/
  | ret
  deriving DecidableEq

def Point.next : Point → Point
  | .delta .total => .delta .active
  | .delta .active => .delta .int
  | .delta .int => .last .total
  | .last .total => .last .active
  | .last .active => .last .int
  | .last .int => .memory
  | .memory => .user
  | .user => .ret
  | .ret => .ret

/-- The local variables of a call. -/
structure Frame where
  current : Counters
  delta : Counters
  freeMem : Nat
  totalMem : Nat
  ticks : Nat
  lastKeypress : Nat
  /-- Ghost: the true counts at the snapshot. -/
  upto : Counters
  /-- Ghost: the true counts that the `last` values stood for. -/
  since : Counters
  /-- Ghost: the length of the free list. -/
  inFree : Nat

/-- A call that has returned 0. -/
structure Report (P : Type) where
  caller : P
  since : Counters
  upto : Counters
  inFree : Nat
  /-- What has been copied out. -/
  act : Bytes

structure State (P : Type) where
  g : Counters
  /-- `last_total_ticks`, `last_cpu_active`, `last_int_count`. -/
  last : Counters
  ticks : Nat
  lastKeypress : Nat
  mem : Mem
  /-- The calls in progress. -/
  call : P → Option (Point × Frame)
  /-- Ghost: how often each counter has been incremented. -/
  count : Counters
  /-- Ghost: the part of it that `last` stands for. -/
  reported : Counters
  /-- Ghost: the calls that have returned 0, the last one first. -/
  reports : List (Report P)

/-- What can happen next. -/
inductive Step (P : Type)
  | trap (t : Trap)
  /-- `ticks++`. -/
  | clockintr
  /-- `g_last_keypress_tick = ticks`, in `consoleintr`. -/
  | keypress
  | kalloc
  | kfree (pa : Nat)
  /-- A call up to the `release(&statslock)`. -/
  | call (p : P)
  /-- The next statement of a call; at the end, what the stack slot of `act` held and whether
  `copyout` succeeds. -/
  | go (p : P) (slot : Bytes) (ok : Bool)

variable {P : Type}

/-- What the call has read when it fills the record. -/
def Frame.inputs (f : Frame) (ticks : Nat) : Inputs where
  deltaTotal := f.delta .total
  deltaActive := f.delta .active
  deltaInt := f.delta .int
  freeMem := f.freeMem
  totalMem := f.totalMem
  ticks := f.ticks
  lastKeypress := f.lastKeypress
  ticks' := ticks

section

variable [DecidableEq P]

/-- The statement of a call at `pt`, with the locals `f`. -/
def State.exec (s : State P) (p : P) (f : Frame) (slot : Bytes) (ok : Bool) (pt : Point) :
    State P :=
  let goOn (s : State P) (f : Frame) : State P :=
    { s with call := Function.update s.call p (some (pt.next, f)) }
  match pt with
  | .delta c => goOn s { f with
      delta := Function.update f.delta c (sub64 (f.current c) (s.last c))
      since := Function.update f.since c (s.reported c) }
  | .last c => goOn { s with
      last := Function.update s.last c (f.current c)
      reported := Function.update s.reported c (f.upto c) } f
  | .memory => goOn s { f with
      freeMem := s.mem.freePages
      totalMem := s.mem.totalPages
      inFree := s.mem.freelist.length }
  | .user => goOn s { f with ticks := s.ticks, lastKeypress := s.lastKeypress }
  | .ret => { s with
      call := Function.update s.call p none
      reports := if ok then
          ⟨p, f.since, f.upto, f.inFree, fill (f.inputs s.ticks) slot⟩ :: s.reports
        else s.reports }

/-- One step of the machine. -/
def State.step (K : Image) (s : State P) : Step P → Option (State P)
  | .trap t => some { s with g := t.apply inc64 s.g, count := t.apply (· + 1) s.count }
  | .clockintr => some { s with ticks := inc64 s.ticks }
  | .keypress => some { s with lastKeypress := s.ticks }
  | .kalloc =>
    match Xv6.kalloc s.mem with
    | .ok _ m => some { s with mem := m }
    | .error _ _ => none
  | .kfree pa =>
    -- only pages that have been allocated are freed
    if pa ∈ pages K ∧ pa ∉ s.mem.freelist then
      match Xv6.kfree K pa s.mem with
      | .ok _ m => some { s with mem := m }
      | .error _ _ => none
    else none
  | .call p =>
    match s.call p with
    | none => some { s with
        call := Function.update s.call p (some (.delta .total,
          ⟨s.g, fun _ => 0, 0, 0, 0, 0, s.count, fun _ => 0, 0⟩)) }
    | some _ => none
  | .go p slot ok =>
    match s.call p with
    | none => none
    | some (pt, f) => some (s.exec p f slot ok pt)

/-- After `kinit`, before the first trap. -/
def boot (K : Image) (ram : Nat → Bytes) : State P where
  g _ := 0
  last _ := 0
  ticks := 0
  lastKeypress := 0
  mem := finalState (kinit K) ⟨ram, [], 0, 0, 0⟩
  call _ := none
  count _ := 0
  reported _ := 0
  reports := []

/-- The states of the runs whose steps are all allowed. -/
inductive Reach (K : Image) (allow : State P → Step P → Prop) : State P → Prop
  | boot (ram : Nat → Bytes) : Reach K allow (boot K ram)
  | step {s s' : State P} {l : Step P} (hs : Reach K allow s) (ha : allow s l)
      (h : s.step K l = some s') : Reach K allow s'

end

/-! ## Counting -/

/-- `b` is counted after `a`; active ticks are ticks. -/
structure After (a b : Counters) : Prop where
  le : ∀ c, a c ≤ b c
  active : b .active + a .total ≤ b .total + a .active

theorem After.refl (a : Counters) : After a a := ⟨fun _ => Nat.le_refl _, Nat.le_of_eq (Nat.add_comm ..)⟩

theorem After.trans {a b c : Counters} (h : After a b) (h' : After b c) : After a c := by
  refine ⟨fun x => Nat.le_trans (h.le x) (h'.le x), ?_⟩
  have h1 := h.active
  have h2 := h'.active
  omega

/-- A trap counts an active tick only with a tick. -/
theorem Trap.after (t : Trap) (a : Counters) : After a (t.apply (· + 1) a) := by
  have hint : ∀ a, After a (countInt (· + 1) a) := by
    intro a
    refine ⟨fun c => ?_, Nat.le_of_eq (Nat.add_comm ..)⟩
    cases c with
    | int => exact Nat.le_succ _
    | _ => exact Nat.le_refl _
  have htick : ∀ running a, After a (countTick (· + 1) running a) := by
    intro running a
    refine ⟨fun c => ?_, ?_⟩
    · cases c with
      | total => exact Nat.le_succ _
      | active => cases running <;> simp [countTick]
      | int => exact Nat.le_refl _
    · cases running <;> simp only [countTick, if_true, if_false, Bool.false_eq_true] <;> omega
  cases t with
  | user => exact hint a
  | userTimer running => exact htick running a
  | kernel timer running =>
    cases timer with
    | true => exact (hint a).trans (htick running _)
    | false => exact hint a

/-- The words follow the counts. -/
theorem Trap.apply_mod (t : Trap) {g a : Counters} (h : ∀ c, g c = a c % 2 ^ 64) (c : Field) :
    t.apply inc64 g c = t.apply (· + 1) a c % 2 ^ 64 := by
  have hinc : ∀ n, inc64 (n % 2 ^ 64) = (n + 1) % 2 ^ 64 := fun n => by rw [inc64]; omega
  have hint : ∀ {g a : Counters}, (∀ c, g c = a c % 2 ^ 64) → ∀ c,
      countInt inc64 g c = countInt (· + 1) a c % 2 ^ 64 := by
    intro g a h c
    cases c with
    | int => exact (congrArg inc64 (h .int)).trans (hinc _)
    | total => exact h .total
    | active => exact h .active
  have htick : ∀ running {g a : Counters}, (∀ c, g c = a c % 2 ^ 64) → ∀ c,
      countTick inc64 running g c = countTick (· + 1) running a c % 2 ^ 64 := by
    intro running g a h c
    cases c with
    | total => exact (congrArg inc64 (h .total)).trans (hinc _)
    | active =>
      cases running with
      | true => exact (congrArg inc64 (h .active)).trans (hinc _)
      | false => exact h .active
    | int => exact h .int
  cases t with
  | user => exact hint h c
  | userTimer running => exact htick running h c
  | kernel timer running =>
    cases timer with
    | true => exact htick running (hint h) c
    | false => exact hint h c

/-! ## Calls that do not cut into each other -/

/-- Is the call between its snapshot and its last update? -/
def Point.critical : Point → Bool
  | .delta _ | .last _ => true
  | _ => false

/-- The order of the statements about the three counters. -/
def Field.rank : Field → Nat
  | .total => 0
  | .active => 1
  | .int => 2

theorem Field.rank_inj {c c' : Field} (h : c.rank = c'.rank) : c = c' := by
  cases c <;> cases c' <;> first | rfl | cases h

/-- A call takes its snapshot only while no other is between its snapshot and its last update, and
only while what has been counted since the last report satisfies `B`. -/
def Apart (B : Field → Nat → Prop) (s : State P) : Step P → Prop
  | .call _ => (∀ q pt f, s.call q = some (pt, f) → pt.critical = false) ∧
      ∀ c, B c (s.count c - s.reported c)
  | _ => True

/-- What the deltas of a call say about its interval. -/
structure Fits (B : Field → Nat → Prop) (delta since upto : Counters) : Prop where
  after : After since upto
  delta : ∀ c, delta c = sub64 (upto c % 2 ^ 64) (since c % 2 ^ 64)
  bound : ∀ c, B c (upto c - since c)

/-- Two intervals have no count in common. -/
def Disjoint (since upto since' upto' : Counters) : Prop :=
  ∀ c, upto c ≤ since' c ∨ upto' c ≤ since c

theorem Disjoint.symm {a b a' b' : Counters} (h : Disjoint a b a' b') : Disjoint a' b' a b :=
  fun c => (h c).symm

/-- Every interval of a call past its updates ends before `z`. -/
structure Ends (s : State P) (z : Counters) : Prop where
  reports : ∀ r ∈ s.reports, ∀ c, r.upto c ≤ z c
  calls : ∀ q pt f, s.call q = some (pt, f) → pt.critical = false → ∀ c, f.upto c ≤ z c

/-- What is known of a call at each point. -/
def FrameOk (B : Field → Nat → Prop) (s : State P) (f : Frame) : Point → Prop
  | .delta c => (After s.reported f.upto ∧ ∀ c, B c (f.upto c - s.reported c)) ∧
      ∀ c', c'.rank < c.rank → f.since c' = s.reported c' ∧
        f.delta c' = sub64 (f.upto c' % 2 ^ 64) (s.reported c' % 2 ^ 64)
  | .last c => (Fits B f.delta f.since f.upto ∧ Ends s f.since) ∧
      ∀ c', s.reported c' = if c'.rank < c.rank then f.upto c' else f.since c'
  | _ => Fits B f.delta f.since f.upto

/-- The invariant of the runs whose calls are apart. -/
structure Inv (B : Field → Nat → Prop) (s : State P) : Prop where
  words : ∀ c, s.g c = s.count c % 2 ^ 64
  lasts : ∀ c, s.last c = s.reported c % 2 ^ 64
  behind : (∀ q pt f, s.call q = some (pt, f) → pt.critical = false) → After s.reported s.count
  current : ∀ q pt f, s.call q = some (pt, f) →
    (∀ c, f.current c = f.upto c % 2 ^ 64) ∧ After f.upto s.count
  frames : ∀ q pt f, s.call q = some (pt, f) → FrameOk B s f pt
  one : ∀ q q' pt pt' f f', s.call q = some (pt, f) → s.call q' = some (pt', f') →
    pt.critical = true → pt'.critical = true → q = q'
  ends : Ends s s.reported
  fits : ∀ r ∈ s.reports, ∃ f ticks slot, r.act = fill (Frame.inputs f ticks) slot ∧
    Fits B f.delta r.since r.upto
  apart : s.reports.Pairwise fun r r' => Disjoint r.since r.upto r'.since r'.upto
  flight : ∀ q pt f, s.call q = some (pt, f) → pt.critical = false →
    (∀ r ∈ s.reports, Disjoint f.since f.upto r.since r.upto) ∧
    ∀ q' pt' f', q' ≠ q → s.call q' = some (pt', f') → pt'.critical = false →
      Disjoint f.since f.upto f'.since f'.upto

section

variable {B : Field → Nat → Prop} {s s' : State P}

/-- A step that only counts, or does nothing to the counters. -/
theorem Inv.count (h : Inv B s) (hg : ∀ c, s'.g c = s'.count c % 2 ^ 64) (hl : s'.last = s.last)
    (hc : s'.call = s.call) (hr : s'.reported = s.reported) (hrs : s'.reports = s.reports)
    (ha : After s.count s'.count) : Inv B s' := by
  have hends : ∀ {z}, Ends s z → Ends s' z := by
    intro z hz
    exact ⟨by rw [hrs]; exact hz.reports, by rw [hc]; exact hz.calls⟩
  refine ⟨hg, by rw [hl, hr]; exact h.lasts, fun hi => ?_, fun q pt f hq => ?_,
    fun q pt f hq => ?_, by rw [hc]; exact h.one, hr ▸ hends h.ends, by rw [hrs]; exact h.fits,
    by rw [hrs]; exact h.apart, by rw [hc, hrs]; exact h.flight⟩
  · rw [hc] at hi
    rw [hr]
    exact (h.behind hi).trans ha
  · rw [hc] at hq
    exact ⟨(h.current q pt f hq).1, (h.current q pt f hq).2.trans ha⟩
  · rw [hc] at hq
    have hf := h.frames q pt f hq
    cases pt with
    | delta c =>
      simp only [FrameOk, hr] at hf ⊢
      exact hf
    | last c =>
      simp only [FrameOk, hr] at hf ⊢
      exact ⟨⟨hf.1.1, hends hf.1.2⟩, hf.2⟩
    | _ => exact hf

variable [DecidableEq P] {p : P} {f f' : Frame} {pt pt' : Point}

/-- How the calls in progress change when one of them goes on. -/
theorem call_update {x : Option (Point × Frame)} {q : P} {pt : Point} {f : Frame}
    (hc : s'.call = Function.update s.call p x) (hq : s'.call q = some (pt, f)) :
    q = p ∧ x = some (pt, f) ∨ q ≠ p ∧ s.call q = some (pt, f) := by
  rw [hc, Function.update_apply] at hq
  split at hq
  · next h => exact .inl ⟨h, hq⟩
  · next h => exact .inr ⟨h, hq⟩

/-- A call that is not past its updates yet does not matter to `Ends`. -/
theorem Ends.update {z : Counters} (h : Ends s z) (hrs : s'.reports = s.reports)
    {x : Option (Point × Frame)} (hc : s'.call = Function.update s.call p x)
    (hx : ∀ pt f, x = some (pt, f) → pt.critical = false → ∀ c, f.upto c ≤ z c) : Ends s' z := by
  refine ⟨by rw [hrs]; exact h.reports, fun q pt f hq hcr => ?_⟩
  rcases call_update hc hq with ⟨-, he⟩ | ⟨-, hq⟩
  · exact hx pt f he hcr
  · exact h.calls q pt f hq hcr

/-- A new call. -/
theorem Inv.begin (h : Inv B s) (hal : Apart B s (.call p)) {x : Frame}
    (hx : x = ⟨s.g, fun _ => 0, 0, 0, 0, 0, s.count, fun _ => 0, 0⟩)
    (hs' : s' = { s with call := Function.update s.call p (some (.delta .total, x)) }) :
    Inv B s' := by
  obtain ⟨hidle, hb⟩ := hal
  have hbe := h.behind hidle
  subst hs'
  have hends : ∀ {z}, Ends s z →
      Ends { s with call := Function.update s.call p (some (.delta .total, x)) } z :=
    fun hz => hz.update rfl rfl fun pt f he hcr => by cases he; cases hcr
  refine ⟨h.words, h.lasts, fun _ => hbe, fun q pt f hq => ?_, fun q pt f hq => ?_,
    fun q q' pt pt' f f' hq hq' hcr hcr' => ?_, hends h.ends, h.fits, h.apart,
    fun q pt f hq hcr => ?_⟩
  · rcases call_update rfl hq with ⟨-, he⟩ | ⟨-, hq⟩
    · cases he
      rw [hx]
      exact ⟨h.words, .refl _⟩
    · exact h.current q pt f hq
  · rcases call_update rfl hq with ⟨-, he⟩ | ⟨-, hq⟩
    · cases he
      rw [hx]
      exact ⟨⟨hbe, hb⟩, fun c' hc' => absurd hc' (Nat.not_lt_zero _)⟩
    · have hf := h.frames q pt f hq
      have hcr := hidle q pt f hq
      cases pt with
      | delta c => cases hcr
      | last c => cases hcr
      | _ => exact hf
  · rcases call_update rfl hq with ⟨hqp, -⟩ | ⟨-, hq⟩
    · rcases call_update rfl hq' with ⟨hqp', -⟩ | ⟨-, hq'⟩
      · exact hqp.trans hqp'.symm
      · rw [hidle q' pt' f' hq'] at hcr'
        cases hcr'
    · rw [hidle q pt f hq] at hcr
      cases hcr
  · rcases call_update rfl hq with ⟨-, he⟩ | ⟨-, hq⟩
    · cases he
      cases hcr
    · refine ⟨(h.flight q pt f hq hcr).1, fun q' pt' f' hne hq' hcr' => ?_⟩
      rcases call_update rfl hq' with ⟨-, he⟩ | ⟨-, hq'⟩
      · cases he
        cases hcr'
      · exact (h.flight q pt f hq hcr).2 q' pt' f' hne hq' hcr'

/-- A call goes on: what has to be checked. -/
structure Moves (B : Field → Nat → Prop) (s s' : State P) (p : P) (f f' : Frame)
    (pt pt' : Point) : Prop where
  call : s'.call = Function.update s.call p (some (pt', f'))
  g : s'.g = s.g
  count : s'.count = s.count
  reports : s'.reports = s.reports
  lasts : ∀ c, s'.last c = s'.reported c % 2 ^ 64
  current : f'.current = f.current ∧ f'.upto = f.upto
  critical : pt'.critical = true → pt.critical = true
  mono : ∀ c, s.reported c ≤ s'.reported c
  others : pt.critical = false → s'.reported = s.reported
  frame : FrameOk B s' f' pt'
  behind : pt.critical = true → pt'.critical = false → After s'.reported s'.count
  /-- A call past its updates was there before, or its interval comes after all others. -/
  flight : pt'.critical = false → pt.critical = false ∧ f'.since = f.since ∨
    Ends s f'.since ∧ ∀ c, f'.upto c ≤ s'.reported c

theorem Inv.move (h : Inv B s) (hp : s.call p = some (pt, f)) (hm : Moves B s s' p f f' pt pt') :
    Inv B s' := by
  have hcase : ∀ {q pt₁ f₁}, s'.call q = some (pt₁, f₁) →
      q = p ∧ (pt₁ = pt' ∧ f₁ = f') ∨ q ≠ p ∧ s.call q = some (pt₁, f₁) := by
    intro q pt₁ f₁ hq
    refine (call_update hm.call hq).imp_left fun hx => ⟨hx.1, ?_⟩
    have := Option.some.inj hx.2
    exact ⟨(congrArg Prod.fst this).symm, (congrArg Prod.snd this).symm⟩
  have hself : s'.call p = some (pt', f') := by rw [hm.call, Function.update_self]
  -- the call's own interval ends before what has been reported, once it is past its updates
  have hown : pt'.critical = false → ∀ c, f'.upto c ≤ s'.reported c := by
    intro hcr
    rcases hm.flight hcr with ⟨hcr', -⟩ | hx
    · intro c
      rw [hm.current.2]
      exact Nat.le_trans (h.ends.calls p pt f hp hcr' c) (hm.mono c)
    · exact hx.2
  have hflight : pt'.critical = false →
      (∀ r ∈ s.reports, Disjoint f'.since f'.upto r.since r.upto) ∧
      ∀ q' pt₁ f₁, q' ≠ p → s.call q' = some (pt₁, f₁) → pt₁.critical = false →
        Disjoint f'.since f'.upto f₁.since f₁.upto := by
    intro hcr
    rcases hm.flight hcr with ⟨hcr', hsi⟩ | ⟨hx, -⟩
    · rw [hsi, hm.current.2]
      exact h.flight p pt f hp hcr'
    · exact ⟨fun r hr c => .inr (hx.reports r hr c),
        fun q' pt₁ f₁ _ hq' hcr₁ c => .inr (hx.calls q' pt₁ f₁ hq' hcr₁ c)⟩
  refine ⟨by rw [hm.g, hm.count]; exact h.words, hm.lasts, fun hidle => ?_,
    fun q pt₁ f₁ hq => ?_, fun q pt₁ f₁ hq => ?_, fun q q' pt₁ pt₂ f₁ f₂ hq hq' hcr hcr' => ?_, ?_,
    by rw [hm.reports]; exact h.fits, by rw [hm.reports]; exact h.apart,
    fun q pt₁ f₁ hq hcr => ?_⟩
  · by_cases hcr : pt.critical = true
    · exact hm.behind hcr (hidle p pt' f' hself)
    · rw [hm.count, hm.others (Bool.eq_false_iff.2 hcr)]
      refine h.behind fun q pt₁ f₁ hq => ?_
      by_cases hqp : q = p
      · rw [hqp, hp] at hq
        cases hq
        exact Bool.eq_false_iff.2 hcr
      · refine hidle q pt₁ f₁ ?_
        rw [hm.call, Function.update_of_ne hqp]
        exact hq
  · rcases hcase hq with ⟨-, rfl, rfl⟩ | ⟨-, hq⟩
    · rw [hm.current.1, hm.current.2, hm.count]
      exact h.current p pt f hp
    · rw [hm.count]
      exact h.current q pt₁ f₁ hq
  · rcases hcase hq with ⟨-, rfl, rfl⟩ | ⟨hqp, hq⟩
    · exact hm.frame
    · have hf := h.frames q pt₁ f₁ hq
      -- if `q` is between its snapshot and its updates, `p` is not
      have hnot : pt₁.critical = true → pt.critical = false := fun hcr =>
        Bool.eq_false_iff.2 fun hcr' => hqp (h.one q p pt₁ pt f₁ f hq hp hcr hcr')
      cases pt₁ with
      | delta c =>
        simp only [FrameOk, hm.others (hnot rfl)] at hf ⊢
        exact hf
      | last c =>
        simp only [FrameOk, hm.others (hnot rfl)] at hf ⊢
        refine ⟨⟨hf.1.1, hf.1.2.update hm.reports hm.call fun pt₂ f₂ he _ c' => ?_⟩, hf.2⟩
        cases he
        rw [hm.current.2]
        exact hf.1.2.calls p pt f hp (hnot rfl) c'
      | _ => exact hf
  · rcases hcase hq with ⟨hqp, rfl, rfl⟩ | ⟨hqp, hq⟩
    · rcases hcase hq' with ⟨hqp', -, -⟩ | ⟨-, hq'⟩
      · exact hqp.trans hqp'.symm
      · exact hqp.trans (h.one p q' pt pt₂ f f₂ hp hq' (hm.critical hcr) hcr')
    · rcases hcase hq' with ⟨hqp', rfl, rfl⟩ | ⟨-, hq'⟩
      · exact (h.one q p pt₁ pt f₁ f hq hp hcr (hm.critical hcr')).trans hqp'.symm
      · exact h.one q q' pt₁ pt₂ f₁ f₂ hq hq' hcr hcr'
  · refine ⟨fun r hr c => ?_, fun q pt₁ f₁ hq hcr c => ?_⟩
    · rw [hm.reports] at hr
      exact Nat.le_trans (h.ends.reports r hr c) (hm.mono c)
    · rcases hcase hq with ⟨-, rfl, rfl⟩ | ⟨-, hq⟩
      · exact hown hcr c
      · exact Nat.le_trans (h.ends.calls q pt₁ f₁ hq hcr c) (hm.mono c)
  · rw [hm.reports]
    rcases hcase hq with ⟨hqp, rfl, rfl⟩ | ⟨hqp, hq⟩
    · refine ⟨(hflight hcr).1, fun q' pt₂ f₂ hne hq' hcr' => ?_⟩
      rcases hcase hq' with ⟨hqp', -, -⟩ | ⟨hqp', hq'⟩
      · exact absurd (hqp'.trans hqp.symm) hne
      · exact (hflight hcr).2 q' pt₂ f₂ hqp' hq' hcr'
    · refine ⟨(h.flight q pt₁ f₁ hq hcr).1, fun q' pt₂ f₂ hne hq' hcr' => ?_⟩
      rcases hcase hq' with ⟨-, rfl, rfl⟩ | ⟨-, hq'⟩
      · exact ((hflight hcr').2 q pt₁ f₁ hqp hq hcr).symm
      · exact (h.flight q pt₁ f₁ hq hcr).2 q' pt₂ f₂ hne hq' hcr'

/-- `delta = current - last`. -/
theorem Inv.exec_delta (h : Inv B s) {c : Field} (hp : s.call p = some (.delta c, f))
    (slot : Bytes) (ok : Bool) : Inv B (s.exec p f slot ok (.delta c)) := by
  obtain ⟨⟨haf, hb⟩, hread⟩ := h.frames p _ f hp
  obtain ⟨hcur, hcnt⟩ := h.current p _ f hp
  have hval : sub64 (f.current c) (s.last c) =
      sub64 (f.upto c % 2 ^ 64) (s.reported c % 2 ^ 64) := by rw [hcur c, h.lasts c]
  -- the counters that have been subtracted after this step
  have hread' : ∀ c', c'.rank < c.rank + 1 →
      Function.update f.since c (s.reported c) c' = s.reported c' ∧
      Function.update f.delta c (sub64 (f.current c) (s.last c)) c' =
        sub64 (f.upto c' % 2 ^ 64) (s.reported c' % 2 ^ 64) := by
    intro c' hc'
    by_cases hcc : c' = c
    · rw [hcc, Function.update_self, Function.update_self]
      exact ⟨rfl, hval⟩
    · rw [Function.update_of_ne hcc, Function.update_of_ne hcc]
      have hne : c'.rank ≠ c.rank := fun he => hcc (Field.rank_inj he)
      exact hread c' (by omega)
  have hcr : (Point.delta c).next.critical = true := by cases c <;> rfl
  refine h.move hp ⟨rfl, rfl, rfl, rfl, h.lasts, ⟨rfl, rfl⟩, fun _ => rfl,
    fun _ => Nat.le_refl _, fun _ => rfl, ?_, fun _ hx => ?_, fun hx => ?_⟩
  · cases c with
    | total => exact ⟨⟨haf, hb⟩, hread'⟩
    | active => exact ⟨⟨haf, hb⟩, hread'⟩
    | int =>
      have hall : ∀ c', Function.update f.since .int (s.reported .int) c' = s.reported c' :=
        fun c' => (hread' c' (by cases c' <;> decide)).1
      have hsi : Function.update f.since .int (s.reported .int) = s.reported := funext hall
      refine ⟨⟨⟨?_, fun c' => ?_, fun c' => ?_⟩, ?_⟩, fun c' => ?_⟩
      · rw [hsi]
        exact haf
      · rw [hsi]
        exact (hread' c' (by cases c' <;> decide)).2
      · rw [hsi]
        exact hb c'
      · rw [hsi]
        exact h.ends.update rfl rfl fun pt₁ f₁ he hcr₁ => by cases he; cases hcr₁
      · rw [if_neg (show ¬ c'.rank < Field.total.rank from Nat.not_lt_zero _)]
        exact (hall c').symm
  · rw [hcr] at hx
    cases hx
  · rw [hcr] at hx
    cases hx

/-- `last = current`. -/
theorem Inv.exec_last (h : Inv B s) {c : Field} (hp : s.call p = some (.last c, f))
    (slot : Bytes) (ok : Bool) : Inv B (s.exec p f slot ok (.last c)) := by
  obtain ⟨⟨hfit, hends⟩, hrep⟩ := h.frames p _ f hp
  obtain ⟨hcur, hcnt⟩ := h.current p _ f hp
  have hmono : ∀ c', s.reported c' ≤ Function.update s.reported c (f.upto c) c' := by
    intro c'
    by_cases hcc : c' = c
    · rw [hcc, Function.update_self, hrep c, if_neg (Nat.lt_irrefl _)]
      exact hfit.after.le c
    · rw [Function.update_of_ne hcc]
  have hrep' : ∀ c', Function.update s.reported c (f.upto c) c' =
      if c'.rank < c.rank + 1 then f.upto c' else f.since c' := by
    intro c'
    by_cases hcc : c' = c
    · rw [hcc, Function.update_self, if_pos (Nat.lt_succ_self _)]
    · rw [Function.update_of_ne hcc, hrep c']
      have hne : c'.rank ≠ c.rank := fun he => hcc (Field.rank_inj he)
      by_cases hlt : c'.rank < c.rank
      · rw [if_pos hlt, if_pos (by omega)]
      · rw [if_neg hlt, if_neg (by omega)]
  have hlasts : ∀ c', Function.update s.last c (f.current c) c' =
      Function.update s.reported c (f.upto c) c' % 2 ^ 64 := by
    intro c'
    by_cases hcc : c' = c
    · rw [hcc, Function.update_self, Function.update_self, hcur c]
    · rw [Function.update_of_ne hcc, Function.update_of_ne hcc, h.lasts c']
  have hall : c = .int → Function.update s.reported c (f.upto c) = f.upto := by
    rintro rfl
    refine funext fun c' => ?_
    rw [hrep' c', if_pos (by cases c' <;> decide)]
  refine h.move hp ⟨rfl, rfl, rfl, rfl, hlasts, ⟨rfl, rfl⟩, fun _ => rfl, hmono, nofun, ?_,
    fun _ hx => ?_, fun hx => .inr ⟨hends, fun c' => ?_⟩⟩
  · have hends' : ∀ s₁ : State P, s₁.reports = s.reports → ∀ pt₁, pt₁.critical = true →
        s₁.call = Function.update s.call p (some (pt₁, f)) → Ends s₁ f.since :=
      fun s₁ h1 pt₁ hcr h2 => hends.update h1 h2 fun pt₂ f₂ he hcr₂ => by
        cases he
        rw [hcr] at hcr₂
        cases hcr₂
    cases c with
    | total => exact ⟨⟨hfit, hends' _ rfl _ rfl rfl⟩, hrep'⟩
    | active => exact ⟨⟨hfit, hends' _ rfl _ rfl rfl⟩, hrep'⟩
    | int => exact hfit
  · cases c with
    | total => cases hx
    | active => cases hx
    | int =>
      show After (Function.update s.reported .int (f.upto .int)) s.count
      rw [hall rfl]
      exact hcnt
  · cases c with
    | total => cases hx
    | active => cases hx
    | int =>
      show f.upto c' ≤ Function.update s.reported .int (f.upto .int) c'
      rw [hall rfl]

/-- The reads after the updates. -/
theorem Inv.exec_read (h : Inv B s) (hp : s.call p = some (pt, f)) (hcr : pt.critical = false)
    (hcr' : pt'.critical = false) (hf : f' = { f with
      freeMem := f'.freeMem, totalMem := f'.totalMem, ticks := f'.ticks,
      lastKeypress := f'.lastKeypress, inFree := f'.inFree })
    (hs' : s' = { s with call := Function.update s.call p (some (pt', f')) }) : Inv B s' := by
  have hfr := h.frames p pt f hp
  have hfit : Fits B f.delta f.since f.upto := by
    cases pt with
    | delta c => cases hcr
    | last c => cases hcr
    | _ => exact hfr
  subst hs'
  refine h.move hp ⟨rfl, rfl, rfl, rfl, h.lasts, by rw [hf]; exact ⟨rfl, rfl⟩, fun hx => ?_,
    fun _ => Nat.le_refl _, fun _ => rfl, ?_, fun hx => ?_, fun _ => .inl ⟨hcr, by rw [hf]⟩⟩
  · rw [hcr'] at hx
    cases hx
  · have hfit' : Fits B f'.delta f'.since f'.upto := by rw [hf]; exact hfit
    cases pt' with
    | delta c => cases hcr'
    | last c => cases hcr'
    | _ => exact hfit'
  · rw [hcr] at hx
    cases hx

/-- A call returns. -/
theorem Inv.exec_ret (h : Inv B s) (hp : s.call p = some (.ret, f)) (slot : Bytes) (ok : Bool) :
    Inv B (s.exec p f slot ok .ret) := by
  have hfit : Fits B f.delta f.since f.upto := h.frames p _ f hp
  have hcase : ∀ {q pt₁ f₁}, (s.exec p f slot ok .ret).call q = some (pt₁, f₁) →
      q ≠ p ∧ s.call q = some (pt₁, f₁) := by
    intro q pt₁ f₁ hq
    rcases call_update (show (s.exec p f slot ok .ret).call = _ from rfl) hq with ⟨-, he⟩ | hq
    · cases he
    · exact hq
  have hmem : ∀ r ∈ (s.exec p f slot ok .ret).reports, r ∈ s.reports ∨
      r = ⟨p, f.since, f.upto, f.inFree, fill (f.inputs s.ticks) slot⟩ := by
    intro r hr
    cases ok with
    | true => exact (List.mem_cons.1 hr).symm
    | false => exact .inl hr
  have hends : ∀ {z}, Ends s z → Ends (s.exec p f slot ok .ret) z := by
    intro z hz
    refine ⟨fun r hr c => ?_, fun q pt₁ f₁ hq hcr => hz.calls q pt₁ f₁ (hcase hq).2 hcr⟩
    rcases hmem r hr with hr | rfl
    · exact hz.reports r hr c
    · exact hz.calls p _ f hp rfl c
  refine ⟨h.words, h.lasts, fun hidle => h.behind fun q pt₁ f₁ hq => ?_,
    fun q pt₁ f₁ hq => h.current q pt₁ f₁ (hcase hq).2, fun q pt₁ f₁ hq => ?_,
    fun q q' pt₁ pt₂ f₁ f₂ hq hq' => h.one q q' pt₁ pt₂ f₁ f₂ (hcase hq).2 (hcase hq').2,
    hends h.ends, fun r hr => ?_, ?_, fun q pt₁ f₁ hq hcr => ⟨fun r hr => ?_, ?_⟩⟩
  · by_cases hqp : q = p
    · rw [hqp, hp] at hq
      cases hq
      rfl
    · refine hidle q pt₁ f₁ ?_
      show Function.update s.call p none q = _
      rw [Function.update_of_ne hqp]
      exact hq
  · have hf := h.frames q pt₁ f₁ (hcase hq).2
    cases pt₁ with
    | last c => exact ⟨⟨hf.1.1, hends hf.1.2⟩, hf.2⟩
    | _ => exact hf
  · rcases hmem r hr with hr | rfl
    · exact h.fits r hr
    · exact ⟨f, s.ticks, slot, rfl, hfit⟩
  · cases ok with
    | true =>
      exact List.pairwise_cons.2 ⟨fun r hr => (h.flight p _ f hp rfl).1 r hr, h.apart⟩
    | false => exact h.apart
  · obtain ⟨hqp, hq⟩ := hcase hq
    rcases hmem r hr with hr | rfl
    · exact (h.flight q pt₁ f₁ hq hcr).1 r hr
    · exact (h.flight q pt₁ f₁ hq hcr).2 p _ f (Ne.symm hqp) hp rfl
  · intro q' pt₂ f₂ hne hq' hcr'
    exact (h.flight q pt₁ f₁ (hcase hq).2 hcr).2 q' pt₂ f₂ hne (hcase hq').2 hcr'

theorem Inv.exec (h : Inv B s) (hp : s.call p = some (pt, f)) (slot : Bytes) (ok : Bool) :
    Inv B (s.exec p f slot ok pt) := by
  cases pt with
  | delta c => exact h.exec_delta hp slot ok
  | last c => exact h.exec_last hp slot ok
  | memory => exact h.exec_read hp rfl (show Point.user.critical = false from rfl) rfl rfl
  | user => exact h.exec_read hp rfl (show Point.ret.critical = false from rfl) rfl rfl
  | ret => exact h.exec_ret hp slot ok

end

section

variable [DecidableEq P] {K : Image} {B : Field → Nat → Prop} {s s' : State P} {l : Step P}

/-- **A step of a run whose calls are apart keeps the invariant.** -/
theorem Inv.step (h : Inv B s) (ha : Apart B s l) (hs : s.step K l = some s') : Inv B s' := by
  cases l with
  | trap t =>
    cases hs
    exact h.count (fun c => t.apply_mod h.words c) rfl rfl rfl rfl (t.after s.count)
  | clockintr =>
    cases hs
    exact h.count h.words rfl rfl rfl rfl (.refl _)
  | keypress =>
    cases hs
    exact h.count h.words rfl rfl rfl rfl (.refl _)
  | kalloc =>
    rw [State.step] at hs
    split at hs
    · cases hs
      exact h.count h.words rfl rfl rfl rfl (.refl _)
    · cases hs
  | kfree pa =>
    rw [State.step] at hs
    split at hs
    · split at hs
      · cases hs
        exact h.count h.words rfl rfl rfl rfl (.refl _)
      · cases hs
    · cases hs
  | call p =>
    rw [State.step] at hs
    split at hs
    · cases hs
      exact h.begin ha rfl rfl
    · cases hs
  | go p slot ok =>
    rw [State.step] at hs
    split at hs
    · cases hs
    · next pt f hp =>
      cases hs
      exact h.exec hp slot ok

theorem inv_boot (ram : Nat → Bytes) : Inv B (boot K ram : State P) :=
  ⟨fun _ => rfl, fun _ => rfl, fun _ => .refl _, nofun, nofun, nofun, ⟨nofun, nofun⟩, nofun,
    List.Pairwise.nil, nofun⟩

theorem Reach.inv {allow : State P → Step P → Prop} (hr : Reach K allow s)
    (ha : ∀ s l, allow s l → Apart B s l) : Inv B s := by
  induction hr with
  | boot ram => exact inv_boot ram
  | step hs hal h ih => exact ih.step (ha _ _ hal) h

end

/-! ## What is reported -/

theorem sub64_mod {a b : Nat} (h : b ≤ a) : sub64 (a % 2 ^ 64) (b % 2 ^ 64) = (a - b) % 2 ^ 64 := by
  rw [sub64]
  omega

/-- A share of at most the whole, in per cent. -/
theorem percent_le {a t : Nat} (h : a ≤ t) : 100 * a / t ≤ 100 := by
  rcases Nat.eq_zero_or_pos t with ht | ht
  · rw [ht, Nat.div_zero]
    exact Nat.zero_le _
  · exact Nat.div_le_of_le_mul (by rw [Nat.mul_comm t]; exact Nat.mul_le_mul_left 100 h)

section

variable {B : Field → Nat → Prop} {f : Frame} {since upto : Counters}

theorem Fits.deltaOf (h : Fits B f.delta since upto) (c : Field) :
    f.delta c = (upto c - since c) % 2 ^ 64 := by
  rw [h.delta c, sub64_mod (h.after.le c)]

/-- `cpu_percent` is the share of the active ticks in the interval. -/
theorem Fits.cpuPercent (h : Fits B f.delta since upto)
    (hb : 100 * (upto .total - since .total) < 2 ^ 64) (ticks : Nat) (slot : Bytes) :
    getInt (fill (f.inputs ticks) slot) 0 =
      ((100 * (upto .active - since .active) / (upto .total - since .total) : Nat) : Int) ∧
    100 * (upto .active - since .active) / (upto .total - since .total) ≤ 100 := by
  have hact := h.after.active
  have h1 := h.after.le .total
  have h2 := h.after.le .active
  have hle : upto .active - since .active ≤ upto .total - since .total := by omega
  have hpc := percent_le hle
  refine ⟨?_, hpc⟩
  rw [getInt_fill_cpuPercent, Inputs.cpuPercent]
  show (if f.delta .total = 0 then (0 : Int) else
    toInt32 (f.delta .active * 100 % 2 ^ 64 / f.delta .total)) = _
  rw [h.deltaOf, h.deltaOf, Nat.mod_eq_of_lt (show upto .total - since .total < 2 ^ 64 by omega),
    Nat.mod_eq_of_lt (show upto .active - since .active < 2 ^ 64 by omega)]
  split
  · next h0 =>
    rw [h0, Nat.div_zero]
    rfl
  · rw [Nat.mod_eq_of_lt (by omega), Nat.mul_comm, toInt32_of_lt (by omega)]

/-- `interrupts` is the number of interrupts in the interval, as an `int`. -/
theorem Fits.interrupts (h : Fits B f.delta since upto) (ticks : Nat) (slot : Bytes) :
    getInt (fill (f.inputs ticks) slot) 12 = toInt32 ((upto .int - since .int) % 2 ^ 64) := by
  rw [getInt_fill_interrupts]
  show toInt32 (f.delta .int) = _
  rw [h.deltaOf]

end

/-- What the record has room for: the product `delta_active * 100` in 64 bits, and the number of
interrupts in an `int`. -/
def Room : Field → Nat → Prop
  | .total, d => 100 * d < 2 ^ 64
  | .active, _ => True
  | .int, d => d < 2 ^ 31

/-- **Concurrent calls that are apart report disjoint intervals**, and what each reports is in
range and about its own interval: in every run in which a call takes its snapshot only while no
other call is between its snapshot and its last update, and while the numbers since the last
report have room. -/
theorem getactivity_concurrent [DecidableEq P] {K : Image} {s : State P}
    (hr : Reach K (Apart Room) s) :
    (∀ r ∈ s.reports, 0 ≤ getInt r.act 0 ∧ getInt r.act 0 ≤ 100 ∧ 0 ≤ getInt r.act 12 ∧
      getInt r.act 0 = ((100 * (r.upto .active - r.since .active) /
        (r.upto .total - r.since .total) : Nat) : Int) ∧
      getInt r.act 12 = ((r.upto .int - r.since .int : Nat) : Int)) ∧
    s.reports.Pairwise fun r r' => ∀ c, r.upto c ≤ r'.since c ∨ r'.upto c ≤ r.since c := by
  have h := hr.inv (B := Room) fun _ _ ha => ha
  refine ⟨fun r hrep => ?_, h.apart⟩
  obtain ⟨f, ticks, slot, hact, hfit⟩ := h.fits r hrep
  have hb : r.upto .int - r.since .int < 2 ^ 31 := hfit.bound .int
  obtain ⟨hcpu, hle⟩ := hfit.cpuPercent (hfit.bound .total) ticks slot
  have hint := hfit.interrupts ticks slot
  rw [Nat.mod_eq_of_lt (by omega), toInt32_of_lt hb] at hint
  rw [hact, hcpu, hint]
  exact ⟨Int.natCast_nonneg _, Int.ofNat_le.2 hle, Int.natCast_nonneg _, rfl, rfl⟩

/-- A sequence of steps, all of which can be taken. -/
def State.run [DecidableEq P] (K : Image) (s : State P) : List (Step P) → Option (State P)
  | [] => some s
  | l :: ls => (s.step K l).bind fun s' => s'.run K ls

/-- `m` statements of a call. -/
def goOn (p : P) (m : Nat) : List (Step P) := List.replicate m (.go p (fun _ => 0) true)

/-- A kernel that ends at `0x80030000`. -/
def image : Image := ⟨0x80030000, 0x80008000, by decide, by decide, by decide, by decide⟩

/-- A timer interrupt in the kernel while a process runs. -/
def tick : Step P := .trap (.kernel true true)

theorem Reach.run [DecidableEq P] {K : Image} {allow : State P → Step P → Prop} {s s' : State P}
    {ls : List (Step P)} (hs : Reach K allow s) (hal : ∀ l ∈ ls, ∀ s, allow s l)
    (h : s.run K ls = some s') : Reach K allow s' := by
  induction ls generalizing s with
  | nil =>
    cases h
    exact hs
  | cons l ls ih =>
    rw [State.run, Option.bind_eq_some_iff] at h
    obtain ⟨s₁, h1, h2⟩ := h
    exact ih (hs.step (hal l List.mem_cons_self s) h1)
      (fun l hl => hal l (List.mem_cons_of_mem _ hl)) h2

/-- One call after one tick. -/
def once : List (Step Unit) := tick :: .call () :: goOn () 9

theorem reach_once {allow : State Unit → Step Unit → Prop} (htick : ∀ s, allow s tick)
    (hcall : ∀ s, (∀ q, s.call q = none) → (∀ c, s.count c - s.reported c = 1) →
      allow s (.call ()))
    (hgo : ∀ s, allow s (.go () (fun _ => 0) true)) :
    ∃ s r, (boot image fun _ _ => 0).run image once = some s ∧ Reach image allow s ∧
      r ∈ s.reports := by
  have hrun : ((boot image fun _ _ => 0 : State Unit).run image once).map
      (fun s => s.reports.length) = some 1 := by
    decide +kernel
  obtain ⟨s, hs, hlen⟩ := Option.map_eq_some_iff.1 hrun
  obtain ⟨r, hr⟩ := List.exists_mem_of_length_pos (Nat.lt_of_lt_of_eq Nat.one_pos hlen.symm)
  refine ⟨s, r, hs, ?_, hr⟩
  rw [once, State.run, Option.bind_eq_some_iff] at hs
  obtain ⟨s₁, h1, hs⟩ := hs
  rw [State.run, Option.bind_eq_some_iff] at hs
  obtain ⟨s₂, h2, hs⟩ := hs
  have hr1 : Reach image allow s₁ := (Reach.boot _).step (htick _) h1
  have hr2 : Reach image allow s₂ := by
    refine hr1.step (hcall s₁ ?_ ?_) h2
    · cases h1
      exact fun _ => rfl
    · cases h1
      intro c
      cases c <;> rfl
  refine hr2.run (fun l hl s => ?_) hs
  rw [List.eq_of_mem_replicate hl]
  exact hgo s

theorem getactivity_concurrent_once : ∃ s : State Unit,
    (boot image fun _ _ => 0).run image once = some s ∧
    ∃ r ∈ s.reports, 0 ≤ getInt r.act 0 ∧ getInt r.act 0 ≤ 100 ∧ 0 ≤ getInt r.act 12 := by
  have hcall : ∀ s : State Unit, (∀ q, s.call q = none) → (∀ c, s.count c - s.reported c = 1) →
      Apart Room s (.call ()) := by
    refine fun s hidle hone => ⟨fun q pt f hq => ?_, fun c => ?_⟩
    · rw [hidle q] at hq
      cases hq
    · rw [hone c]
      cases c <;> simp only [Room] <;> decide
  obtain ⟨s, r, hs, hreach, hr⟩ := reach_once (fun _ => trivial) hcall fun _ => trivial
  have h := (getactivity_concurrent hreach).1 r hr
  exact ⟨s, hs, r, hr, h.1, h.2.1, h.2.2.1⟩

/-- One call overtakes another: the slower one reports -1 interrupts.  Two calls read the same
`last` values: both report the same tick. -/
theorem getactivity_overtaken :
    (((boot image fun _ _ => 0 : State Bool).run image
        (.call true :: tick :: .call false :: (goOn false 9 ++ goOn true 9))).map
      fun s => s.reports.map fun r => getInt r.act 12) = some [-1, 1] ∧
    (((boot image fun _ _ => 0 : State Bool).run image
        (tick :: .call true :: .call false :: (goOn true 3 ++ goOn false 9 ++ goOn true 6))).map
      fun s => s.reports.map fun r => (r.since .total, r.upto .total, getInt r.act 0)) =
        some [(0, 1, 100), (0, 1, 100)] := by
  decide +kernel

end Xv6.Activity
