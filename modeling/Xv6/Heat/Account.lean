import Xv6.Heat.Kernel

/-!
# The CPU time of a process

`usertrap` has a branch that accounts a timer interrupt to the process: it adds `HEAT_INCREMENT` to
the heat and 1 to `total_ticks`.  But it comes after the branch that asks `devintr()`, which
recognises every interrupt this branch asks for, so it is never taken (`branch_ne_timer`).  What is
left is `cpu_heat++`, in both trap handlers.  So `total_ticks` stays 0, and the accounts are right
exactly for processes that no timer interrupt has met.
-/

set_option autoImplicit false

namespace Xv6.Heat

open Sched (Choice Loc SLoc)

/-- The branch of `usertrap` that counts ticks is never taken. -/
theorem branch_ne_timer (scause : UInt64) : branch scause ≠ .timer := by
  unfold branch
  split
  · decide
  · split
    · decide
    · next hdev =>
      split
      · next hext =>
        rw [devintr, if_pos hext] at hdev
        exact absurd Nat.one_ne_zero hdev
      · split <;> decide

/-- What is left of `usertrap`. -/
theorem usertrap_eq (scause : UInt64) (killed : Bool) (f : Fields) : usertrap scause killed f =
    if whichDev scause = 2 ∧ killed = false then (f.warm, 1) else (f, 0) := by
  simp only [usertrap, branch_ne_timer, false_and, if_false, Nat.zero_add]

theorem usertrap_totalTicks (scause : UInt64) (killed : Bool) (f : Fields) :
    (usertrap scause killed f).1.totalTicks = f.totalTicks := by
  rw [usertrap_eq]
  split
  · rfl
  · rfl

theorem devintr_of_whichDev {scause : UInt64} (h : whichDev scause = 2) : devintr scause = 2 := by
  unfold whichDev at h
  split at h
  · exact h
  · exact h
  · cases h

/-- `usertrap` adds heat only for a timer interrupt. -/
theorem usertrap_added (scause : UInt64) (killed : Bool) (f : Fields) :
    (usertrap scause killed f).2 ≤ if devintr scause = 2 then 1 else 0 := by
  rw [usertrap_eq]
  split
  · next h => rw [if_pos (devintr_of_whichDev h.1)]
  · exact Nat.zero_le _

variable {n : Nat} {C : Type}

/-- The accounts of a machine: no tick is ever counted, and heat is added at most once for a timer
interrupt. -/
structure Accounts (s : State n C) : Prop where
  ticks : ∀ i, (s.fields i).totalTicks = 0
  added : ∀ i, s.added i ≤ s.delivered i

/-- The accounts after the machine below has taken a step. -/
theorem Accounts.lift {s : State n C} (h : Accounts s) (t : Sched.State n C) :
    Accounts { s with sched := t } := ⟨h.ticks, h.added⟩

/-- A trap that counts no ticks, and adds no more heat than it delivers interrupts. -/
theorem Accounts.trap {s : State n C} (h : Accounts s) (p : Fin n) {scause : UInt64} {f : Fields}
    {k : Nat} (hf : f.totalTicks = (s.fields p).totalTicks)
    (hk : k ≤ if devintr scause = 2 then 1 else 0) : Accounts ((s.deliver p scause).heatUp p f k) := by
  refine ⟨fun i => ?_, fun i => ?_⟩
  · show (Function.update s.fields p f i).totalTicks = 0
    rw [Function.update_apply]
    split
    · exact hf.trans (h.ticks p)
    · exact h.ticks i
  · show Function.update s.added p (s.added p + k) i ≤
      Function.update s.delivered p (s.delivered p + _) i
    rw [Function.update_apply, Function.update_apply]
    split
    · exact Nat.add_le_add (h.added p) hk
    · exact h.added i

theorem Accounts.deliver {s : State n C} (h : Accounts s) (p : Fin n) (scause : UInt64) :
    Accounts (s.deliver p scause) := by
  refine ⟨h.ticks, fun i => ?_⟩
  show s.added i ≤ Function.update s.delivered p (s.delivered p + _) i
  rw [Function.update_apply]
  split
  · next hi =>
    rw [hi]
    exact (h.added p).trans (Nat.le_add_right _ _)
  · exact h.added i

/-- `allocproc` starts the accounts of a process. -/
theorem Accounts.thread {s s₁ : State n C} (h : Accounts s) {k : Loc n} {ch : Choice}
    (hs : s.thread k ch = some s₁) : Accounts s₁ := by
  unfold State.thread at hs
  split at hs
  · cases hs
    refine ⟨fun i => ?_, fun i => ?_⟩
    · show (Function.update s.fields _ _ i).totalTicks = 0
      rw [Function.update_apply]
      split
      · rfl
      · exact h.ticks i
    · show Function.update s.added _ 0 i ≤ Function.update s.delivered _ 0 i
      rw [Function.update_apply, Function.update_apply]
      split
      · exact Nat.le_refl 0
      · exact h.added i
  · cases hs
  · cases hs
  · exact Option.some.inj hs ▸ h

theorem Accounts.setFields {s : State n C} (h : Accounts s) (i : Fin n) {f : Fields}
    (hf : f.totalTicks = (s.fields i).totalTicks) : Accounts (s.setFields i f) := by
  refine ⟨fun j => ?_, h.added⟩
  show (Function.update s.fields i f j).totalTicks = 0
  rw [Function.update_apply]
  split
  · exact hf.trans (h.ticks i)
  · exact h.ticks j

variable [DecidableEq C]

/-- The scheduler leaves the accounts alone. -/
theorem Accounts.scheduler {s s₁ : State n C} (h : Accounts s) {c : C} {k : SLoc n} {ch : Choice}
    (hs : s.scheduler c k ch = some s₁) : Accounts s₁ := by
  unfold State.scheduler at hs
  split at hs
  · split at hs
    · exact Option.some.inj hs ▸ ⟨h.ticks, h.added⟩
    · cases hs
  · split at hs
    · cases hs
    · exact Option.some.inj hs ▸ ⟨h.ticks, h.added⟩
  · next i _ =>
    rw [← Option.some.inj hs, State.coolProc]
    split
    · have hc := h.setFields i (f := { s.fields i with cpuHeat := cool (s.fields i).cpuHeat }) rfl
      exact ⟨hc.ticks, hc.added⟩
    · exact h
  · split at hs
    · split at hs
      · cases hs
      · exact Option.some.inj hs ▸ h.setFields _ rfl
    · exact Option.some.inj hs ▸ h
  · split at hs
    · exact Option.some.inj hs ▸ h.setFields _ rfl
    · cases hs
  · exact Option.some.inj hs ▸ h

variable [NeZero n]

theorem Accounts.step {s s' : State n C} {l : Label C} (h : Accounts s) (hs : s.step l = some s') :
    Accounts s' := by
  cases State.step_did hs with
  | thread _ h1 _ => exact (h.thread h1).lift _
  | scheduler _ h1 _ => exact (h.scheduler h1).lift _
  | clock => exact ⟨h.ticks, h.added⟩
  | usertrap _ _ =>
    exact (h.trap _ (usertrap_totalTicks _ _ _) (usertrap_added _ _ _)).lift _
  | @kerneltrap c p scause t _ hi _ =>
    exact (h.trap p (f := (s.fields p).warm) (k := 1) rfl (by rw [if_pos hi])).lift t
  | @device c p scause => exact h.deliver p scause
  | idle => exact h

/-- In every reachable state, no tick has been counted. -/
theorem Reach.accounts {allow : State n C → Label C → Prop} {s : State n C} (hr : Reach allow s) :
    Accounts s := by
  induction hr with
  | boot => exact ⟨fun _ => rfl, fun _ => Nat.le_refl 0⟩
  | step _ _ h ih => exact ih.step h

/-- **CPU time.**  In every state that any sequence of steps and traps reaches, the accounts of a
process (`total_ticks` is the number of timer interrupts that came while it ran, and each has
added `HEAT_INCREMENT` to its heat) are right exactly if none came. -/
theorem cpu_time_accounted {s : State n C} (hr : Reach (fun _ _ => True) s) (i : Fin n) :
    (s.fields i).totalTicks.toNat = s.delivered i ∧
        s.added i = HEAT_INCREMENT * s.delivered i ↔ s.delivered i = 0 := by
  have h := hr.accounts
  rw [h.ticks i]
  constructor
  · exact fun hd => hd.1.symm
  · intro hd
    have := h.added i
    rw [hd] at this ⊢
    exact ⟨rfl, Nat.le_zero.1 this⟩

/-- The accounts at boot are right. -/
theorem cpu_time_accounted_boot : ((boot : State 1 Unit).fields 0).totalTicks.toNat = 0 ∧
    (boot : State 1 Unit).added 0 = HEAT_INCREMENT * 0 :=
  (cpu_time_accounted .boot 0).2 rfl

/-- The scheduler starts the first process, which then takes a timer interrupt in user mode. -/
def oneTick : List (Label Unit) :=
  List.replicate 12 (.cpu () .go) ++ [.usertrap () 0x8000000000000001 false]

/-- **A lost tick.**  The first process has run for one timer interrupt: no tick is counted, and its
heat is 1. -/
theorem cpu_time_lost : ∃ s : State 1 Unit, Reach (fun _ _ => True) s ∧
    s.delivered 0 = 1 ∧ (s.fields 0).totalTicks.toNat = 0 ∧ s.added 0 = 1 := by
  have h : (boot.run oneTick).map (fun s : State 1 Unit =>
      (s.delivered 0, (s.fields 0).totalTicks.toNat, s.added 0)) = some (1, 0, 1) := by decide
  obtain ⟨s, hs, hx⟩ := Option.map_eq_some_iff.1 h
  refine ⟨s, Reach.boot.run (fun _ _ _ => trivial) hs, ?_⟩
  rw [Prod.mk.injEq, Prod.mk.injEq] at hx
  exact hx

end Xv6.Heat
