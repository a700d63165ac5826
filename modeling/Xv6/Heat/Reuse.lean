import Xv6.Heat.Skip

/-!
# The heat statistics of a slot that is used again

`allocproc` resets `cpu_heat`, `total_ticks` and `last_scheduled`, and `freeproc` none of the fields
of the scheduler.  Nobody resets `times_skipped`: a new process starts with the skips of those that
had its slot before.

How often a process has been skipped since it was created is counted beside the machine, in the runs
of `Counted`.
-/

set_option autoImplicit false

namespace Xv6.Heat

open Sched (Choice Loc SLoc slots)

variable {n : Nat} {C : Type}

/-- The skips of the processes, after a step of the thread of a process. -/
def threadSkips (k : Fin n → Nat) : Loc n → Choice → Fin n → Nat
  | .alloc i, .go => Function.update k i 0
  | _, _ => k

/-- The skips of the processes, after a step of the scheduler. -/
def schedulerSkips (k : Fin n → Nat) : SLoc n → Choice → Fin n → Nat
  | .test i _, .alt => Function.update k i (k i + 1)
  | _, _ => k

/-- How often each process has been skipped since its creation, after a step. -/
def State.skips (s : State n C) (k : Fin n → Nat) : Label C → Fin n → Nat
  | .cpu c ch =>
    match s.sched.on c with
    | some p => threadSkips k (s.sched.pc p) ch
    | none => schedulerSkips k (s.sched.spc c) ch
  | _ => k

variable [NeZero n] [DecidableEq C]

/-- The states the machine reaches by steps that `allow` allows, with the skips of the processes. -/
inductive Counted (allow : State n C → Label C → Prop) : State n C → (Fin n → Nat) → Prop
  | boot : Counted allow boot fun _ => 0
  | step {s s' : State n C} {k : Fin n → Nat} {l : Label C} (hs : Counted allow s k)
      (ha : allow s l) (h : s.step l = some s') : Counted allow s' (s.skips k l)

/-- The step is not one with which `allocproc` returns a slot that was skipped before. -/
def Unskipped (s : State n C) : Label C → Prop
  | .cpu c .go => ∀ p i, s.sched.on c = some p → s.sched.pc p = .alloc i →
      (s.fields i).timesSkipped = 0
  | _ => True

/-! ## What a step does to `times_skipped` -/

/-- The counters of the slots agree with the skips. -/
def Agrees (fields : Fin n → Fields) (k : Fin n → Nat) : Prop :=
  ∀ i, (fields i).timesSkipped = UInt64.ofNat (k i)

section

variable {s s₁ : State n C} {fields : Fin n → Fields} {k : Fin n → Nat}

omit [NeZero n] in
theorem Agrees.put (h : Agrees fields k) (i : Fin n) {f : Fields} {m : Nat}
    (hf : f.timesSkipped = UInt64.ofNat m) :
    Agrees (Function.update fields i f) (Function.update k i m) := by
  intro j
  by_cases hj : j = i
  · subst hj
    rw [Function.update_self, Function.update_self, hf]
  · rw [Function.update_of_ne hj, Function.update_of_ne hj]
    exact h j

omit [NeZero n] in
theorem Agrees.keep (h : Agrees fields k) (i : Fin n) {f : Fields}
    (hf : f.timesSkipped = (fields i).timesSkipped) : Agrees (Function.update fields i f) k := by
  have hput := h.put i (hf.trans (h i))
  rwa [Function.update_eq_self] at hput

omit [NeZero n] [DecidableEq C] in
/-- A step of the thread of a process. -/
theorem Agrees.thread (h : Agrees s.fields k) {l : Loc n} {ch : Choice}
    (hu : ∀ i, l = .alloc i → ch = .go → (s.fields i).timesSkipped = 0)
    (hs : s.thread l ch = some s₁) : Agrees s₁.fields (threadSkips k l ch) := by
  unfold State.thread at hs
  split at hs
  · next i =>
    cases hs
    exact h.put i (hu i rfl rfl)
  · cases hs
  · cases hs
  · cases hs
    unfold threadSkips
    split
    · next i _ _ hno => exact (hno i rfl rfl).elim
    · exact h

omit [NeZero n] in
/-- A step of the scheduler. -/
theorem Agrees.scheduler (h : Agrees s.fields k) {c : C} {l : SLoc n} {ch : Choice}
    (hs : s.scheduler c l ch = some s₁) : Agrees s₁.fields (schedulerSkips k l ch) := by
  unfold State.scheduler at hs
  split at hs
  · split at hs
    · cases hs; exact h
    · cases hs
  · split at hs
    · cases hs
    · cases hs; exact h
  · next i _ =>
    cases hs
    rw [State.coolProc]
    split
    · exact h.keep i rfl
    · exact h
  · next i _ =>
    split at hs
    · split at hs
      · cases hs
      · cases hs; exact h.keep i rfl
    · cases hs; exact h
  · next i _ =>
    split at hs
    · cases hs
      refine h.put i ?_
      rw [h i, UInt64.ofNat_add]
      rfl
    · cases hs
  · cases hs
    unfold schedulerSkips
    split
    · next i rest _ _ _ _ hno => exact (hno i rest rfl rfl).elim
    · exact h

theorem usertrap_timesSkipped (scause : UInt64) (killed : Bool) (f : Fields) :
    (usertrap scause killed f).1.timesSkipped = f.timesSkipped := by
  unfold usertrap
  dsimp only
  split <;> split <;> rfl

theorem Agrees.step {s' : State n C} {l : Label C} (h : Agrees s.fields k) (ha : Unskipped s l)
    (hs : s.step l = some s') : Agrees s'.fields (s.skips k l) := by
  cases State.step_did hs with
  | @thread c p ch s₁ t hon h1 ht =>
    rw [State.skips, hon]
    have hu : ∀ i, s.sched.pc p = .alloc i → ch = .go → (s.fields i).timesSkipped = 0 := by
      rintro i hl rfl
      exact ha p i hon hl
    have hthread := h.thread hu h1
    exact hthread
  | @scheduler c ch s₁ t hon h1 ht =>
    rw [State.skips, hon]
    have hscheduler := h.scheduler h1
    exact hscheduler
  | clock => exact h
  | usertrap hon ht => exact h.keep _ (usertrap_timesSkipped _ _ _)
  | kerneltrap hon hi ht => exact h.keep _ rfl
  | device => exact h
  | idle => exact h

/-- Several steps. -/
theorem Counted.run {s' : State n C} {ls : List (Label C)}
    (hr : Counted (fun _ _ => True) s k) (h : s.run ls = some s') :
    ∃ k', Counted (fun _ _ => True) s' k' := by
  induction ls generalizing s k with
  | nil => exact ⟨k, Option.some.inj h ▸ hr⟩
  | cons l ls ih =>
    obtain ⟨s₁, h1, h⟩ := Option.bind_eq_some_iff.1 h
    exact ih (hr.step trivial h1) h

/-- In every run in which `allocproc` returns no slot that was skipped before. -/
theorem Counted.agrees (hr : Counted Unskipped s k) : Agrees s.fields k := by
  induction hr with
  | boot => exact fun _ => rfl
  | step hs ha h ih => exact ih.step ha h

/-- The fields of the process that `allocproc` returns. -/
theorem fields_alloc {s' : State n C} {c : C} {p i : Fin n} (hon : s.sched.on c = some p)
    (hpc : s.sched.pc p = .alloc i) (hs : s.step (.cpu c .go) = some s') :
    s'.fields i = ⟨0, 0, 0, (s.fields i).timesSkipped⟩ := by
  cases State.step_did hs with
  | thread hon' h1 ht =>
    cases hon.symm.trans hon'
    rw [hpc] at h1
    cases h1
    show Function.update s.fields i _ i = _
    rw [Function.update_self]
  | scheduler hon' h1 ht => cases hon.symm.trans hon'

end

/-- The `scause` of a timer interrupt. -/
def timer : UInt64 := 0x8000000000000001

def goes (k : Nat) : List (Label Unit) := List.replicate k (.cpu () .go)

/-- From the start to the first instruction of the child. -/
def toChild : List (Label Unit) :=
  [Label.clock, .cpu () .alt] ++ goes 7 ++ [Label.cpu () .fork] ++ goes 20 ++
    [Label.cpu () (.wait false)] ++ goes 25

/-- A timer interrupt in the child, up to where the scheduler looks at it again. -/
def toTest : List (Label Unit) :=
  [Label.usertrap () timer false] ++ goes 6 ++ [Label.cpu () .alt] ++ goes 6

/-- The child is skipped, and at the next tick it is not; it exits, and `init` reaps it and
forks. -/
def toReuse : List (Label Unit) :=
  [Label.cpu () .alt] ++ goes 2 ++ [Label.clock, .cpu () .alt] ++ goes 10 ++
    [Label.cpu () (.exit 0)] ++ goes 18 ++ [Label.cpu () .alt] ++ goes 17 ++
    [Label.cpu () .fork] ++ goes 11

/-- The machine while the child, which has been interrupted `h` times, runs or is about to be
looked at by the scheduler. -/
def busy (state : ProcState) (cur on : Option (Fin 2)) (locked : Bool) (pc : Loc 2) (spc : SLoc 2)
    (heat : UInt64) (h : Nat) : State 2 Unit where
  sched :=
    { tab :=
        { proc i :=
            if i = 0 then ⟨.sleeping, some (.proc 0), false, 0, 1⟩ else ⟨state, none, false, 0, 2⟩
          parent i := if i = 0 then none else some 0
          nextpid := 3
          allocated := 2
          exited := []
          waits := [] }
      lock x := if locked ∧ x = .proc 1 then some () else none
      cur _ := cur
      on _ := on
      pc i := if i = 0 then .awake (.wait false) else pc
      spc _ := spc }
  clock := 1
  current _ := 1
  fields i := if i = 0 then ⟨0, 0, 1, 0⟩ else ⟨heat, 0, 1, 0⟩
  delivered i := if i = 0 then 0 else h
  added i := if i = 0 then 0 else h
  cooled := []

/-- The child is in user mode. -/
def hot (heat : UInt64) (h : Nat) : State 2 Unit :=
  busy .running (some 1) (some 1) false (.running none) (.back 1 []) heat h

/-- The scheduler is at `if(p->state == RUNNABLE)`, for the child. -/
def atTest (heat : UInt64) (h : Nat) : State 2 Unit :=
  busy .runnable none none true (.release (.proc 1) (.running none)) (.test 1 []) heat h

/-- All that belongs to a slot. -/
def State.slot (s : State 2 Unit) (i : Fin 2) :=
  (s.sched.tab.proc i, s.sched.tab.parent i, s.sched.lock (.proc i), s.sched.pc i, s.fields i,
    s.delivered i, s.added i)

/-- All that does not. -/
def State.common (s : State 2 Unit) :=
  (s.sched.tab.nextpid, s.sched.tab.allocated, s.sched.tab.exited, s.sched.tab.waits,
    s.sched.lock .wait, s.sched.lock .pid, s.sched.cur (), s.sched.on (), s.sched.spc (), s.clock,
    s.current (), s.cooled)

attribute [ext] Sched.Table Sched.State State

/-- A machine with two slots and one CPU is given by its parts. -/
theorem State.two_ext {s t : State 2 Unit} (h0 : s.slot 0 = t.slot 0) (h1 : s.slot 1 = t.slot 1)
    (hother : ∀ m, s.sched.lock (.other m) = t.sched.lock (.other m)) (h : s.common = t.common) :
    s = t := by
  have hslot : ∀ i, s.slot i = t.slot i := Fin.forall_fin_two.2 ⟨h0, h1⟩
  simp only [State.slot, State.common, Prod.mk.injEq] at hslot h
  refine State.ext (Sched.State.ext (Sched.Table.ext ?_ ?_ ?_ ?_ ?_ ?_) ?_ ?_ ?_ ?_ ?_) ?_ ?_ ?_ ?_
    ?_ ?_
  · exact funext fun i => (hslot i).1
  · exact funext fun i => (hslot i).2.1
  · exact h.1
  · exact h.2.1
  · exact h.2.2.1
  · exact h.2.2.2.1
  · funext x
    cases x with
    | proc i => exact (hslot i).2.2.1
    | wait => exact h.2.2.2.2.1
    | pid => exact h.2.2.2.2.2.1
    | other m => exact hother m
  · exact funext fun _ => h.2.2.2.2.2.2.1
  · exact funext fun _ => h.2.2.2.2.2.2.2.1
  · exact funext fun i => (hslot i).2.2.2.1
  · exact funext fun _ => h.2.2.2.2.2.2.2.2.1
  · exact h.2.2.2.2.2.2.2.2.2.1
  · exact funext fun _ => h.2.2.2.2.2.2.2.2.2.2.1
  · exact funext fun i => (hslot i).2.2.2.2.1
  · exact funext fun i => (hslot i).2.2.2.2.2.1
  · exact funext fun i => (hslot i).2.2.2.2.2.2
  · exact h.2.2.2.2.2.2.2.2.2.2.2

theorem boot_run_toChild : (boot : State 2 Unit).run toChild = some (hot 0 0) := by
  have h : (boot : State 2 Unit).run toChild = some _ := rfl
  rw [h]
  exact congrArg some (State.two_ext rfl rfl (fun _ => rfl) rfl)

theorem hot_run_toTest (heat : UInt64) (h : Nat) :
    (hot heat h).run toTest = some (atTest (heat + 1) (h + 1)) := by
  have hrun : (hot heat h).run toTest = some _ := rfl
  rw [hrun]
  exact congrArg some (State.two_ext rfl rfl (fun _ => rfl) rfl)

/-- A child that is not skipped runs again. -/
theorem atTest_run {heat : UInt64} (hno : shouldSkip 2 heat 1 = false) (h : Nat) :
    (atTest heat h).run (goes 4) = some (hot heat h) := by
  have htest : (atTest heat h).scheduler () (.test 1 []) .go =
      some ((atTest heat h).setFields 1 ⟨heat, 0, 1, 0⟩) := by
    show (if shouldSkip 2 heat 1 = true then none else some _) = _
    rw [hno]
    rfl
  have hrun : ((some ((atTest heat h).setFields 1 ⟨heat, 0, 1, 0⟩)).bind fun s' =>
      s'.lift ((atTest heat h).sched.step () .go)).bind (fun s' => s'.run (goes 3)) = some _ := rfl
  show (((atTest heat h).scheduler () (.test 1 []) .go).bind _).bind _ = _
  rw [htest]
  refine hrun.trans ?_
  exact congrArg some (State.two_ext rfl rfl (fun _ => rfl) rfl)

/-- Up to here the child is not skipped. -/
theorem not_shouldSkip {h : Nat} (hlt : h < 1560) : shouldSkip 2 (UInt64.ofNat h) 1 = false := by
  by_cases hcold : h < 1500
  · have hle : ¬ HEAT_THRESHOLD_HOT ≤ UInt64.ofNat h := by
      rw [UInt64.le_iff_toNat_le, UInt64.toNat_ofNat']
      show ¬ 1500 ≤ h % 2 ^ 64
      omega
    simp [shouldSkip, hle]
  · have hall : ∀ k < 60, shouldSkip 2 (UInt64.ofNat (1500 + k)) 1 = false := by decide +kernel
    have hk := hall (h - 1500) (by omega)
    rwa [Nat.add_sub_cancel' (not_lt.1 hcold)] at hk

/-- The child gets as hot as it takes. -/
theorem hot_counted (h : Nat) (hlt : h < 1560) :
    ∃ k, Counted (fun _ _ => True) (hot (UInt64.ofNat h) h) k := by
  induction h with
  | zero => exact Counted.boot.run boot_run_toChild
  | succ h ih =>
    obtain ⟨k, hk⟩ := ih (Nat.lt_of_succ_lt hlt)
    obtain ⟨k₁, hk₁⟩ := hk.run (hot_run_toTest (UInt64.ofNat h) h)
    rw [show UInt64.ofNat h + 1 = UInt64.ofNat (h + 1) from (UInt64.ofNat_add h 1).symm] at hk₁
    exact hk₁.run (atTest_run (not_shouldSkip hlt) (h + 1))

end Xv6.Heat
