import Mathlib.Algebra.BigOperators.Group.List.Basic
import Mathlib.Algebra.Order.BigOperators.Group.List
import Mathlib.Algebra.Group.Action.Defs
import Mathlib.Algebra.Order.Group.Nat
import Mathlib.Data.Finset.Card
import Mathlib.Order.Interval.Finset.Nat
import Xv6.Sched.Core
import Xv6.Heat.Kernel

/-!
# How fast processes cool

`scheduler()` calls `update_heat` whenever it finds `ticks` at a multiple of ten, so a CPU that goes
through its loop more than once during such a tick cools every process as often, and so does every
other CPU.  A pass may also still be under way when the tick is over.  Where neither happens
(`Spaced`), a process cools at most once for every multiple of ten.
-/

set_option autoImplicit false

namespace Xv6.Heat

open Sched (Choice Loc SLoc Lk slots)

variable {n : Nat} {C : Type}

/-- In `update_heat`, or in an interrupt that came there: the processes the pass has yet to cool. -/
def pass : SLoc n → Option (List (Fin n))
  | .heat rest => some rest
  | .release (.proc i) (.heat rest) => some (i :: rest)
  | .acquire _ k | .release _ k | .wakeup _ _ k | .wake _ _ _ k => pass k
  | _ => none

/-- Is this value of `clock` one at which `update_heat` is called? -/
def Due (t : Nat) : Prop := t % 2 ^ 64 % 10 = 0

instance (t : Nat) : Decidable (Due t) := inferInstanceAs (Decidable (_ = _))

theorem State.due_of_ticks {s : State n C} (h : s.ticks % 10 = 0) : Due s.clock := by
  have := congrArg UInt64.toNat h
  rwa [UInt64.toNat_mod, State.ticks, UInt64.toNat_ofNat'] at this

/-- The heat that `update_heat` has removed from a process while `t₁ < ticks` and `ticks ≤ t₂`. -/
def State.removed (s : State n C) (t₁ t₂ : Nat) (i : Fin n) : Nat :=
  ((s.cooled.filter fun x => t₁ < x.1 ∧ x.1 ≤ t₂ ∧ x.2.1 = i).map fun x => x.2.2).sum

/-- `update_heat` is called only if no CPU is in it, and nothing has been cooled since `ticks` took
its value; and `ticks` changes only when no CPU is in `update_heat`. -/
def Spaced (s : State n C) : Label C → Prop
  | .cpu c .go => s.sched.on c = none → s.sched.spc c = .loop →
    (∀ c', pass (s.sched.spc c') = none) ∧ ∀ x ∈ s.cooled, x.1 ≠ s.clock
  | .clock => ∀ c, pass (s.sched.spc c) = none
  | _ => True

theorem cool_le (heat : UInt64) : heat.toNat - (cool heat).toNat ≤ HEAT_DECAY.toNat := by
  rw [cool]
  split
  · next h =>
    rw [UInt64.toNat_sub_of_le _ _ (UInt64.le_of_lt h)]
    omega
  · next h =>
    have := UInt64.not_lt.1 h
    rw [UInt64.le_iff_toNat_le] at this
    omega

/-! ## The invariant -/

/-- What is known of the passes and of what they removed. -/
structure Paced (spc : C → SLoc n) (clock : Nat) (cooled : List (Nat × Fin n × Nat)) : Prop where
  nodup : ∀ c rest, pass (spc c) = some rest → rest.Nodup
  fresh : ∀ c rest, pass (spc c) = some rest → ∀ j ∈ rest, ∀ x ∈ cooled, x.1 = clock → x.2.1 ≠ j
  alone : ∀ c c' rest rest', pass (spc c) = some rest → pass (spc c') = some rest' → c = c'
  due : ∀ c rest, pass (spc c) = some rest → Due clock
  /-- No process is cooled twice during a tick. -/
  once : ∀ i, ((cooled.filter fun x => x.2.1 = i).map fun x => x.1).Nodup
  logged : ∀ x ∈ cooled, Due x.1 ∧ x.2.2 ≤ HEAT_DECAY.toNat

variable {spc : C → SLoc n} {clock : Nat} {cooled : List (Nat × Fin n × Nat)}

/-- The clock moves on while no pass is under way. -/
theorem Paced.tick (h : Paced spc clock cooled) (hno : ∀ c, pass (spc c) = none) :
    Paced spc (clock + 1) cooled := by
  have hnone : ∀ {c rest}, pass (spc c) ≠ some rest := by
    intro c rest hc
    rw [hno c] at hc
    cases hc
  exact ⟨fun _ _ hc => absurd hc hnone, fun _ _ hc => absurd hc hnone,
    fun _ _ _ _ hc => absurd hc hnone, fun _ _ hc => absurd hc hnone, h.once, h.logged⟩

variable [DecidableEq C]

/-- A scheduler that does not cool: its pass has no more to do than before. -/
theorem Paced.go (h : Paced spc clock cooled) {c : C} {k : SLoc n}
    (hk : ∀ rest, pass k = some rest → ∃ rest', pass (spc c) = some rest' ∧ rest.Sublist rest') :
    Paced (Function.update spc c k) clock cooled := by
  have hpass : ∀ {c' rest}, pass (Function.update spc c k c') = some rest →
      ∃ rest', pass (spc c') = some rest' ∧ rest.Sublist rest' := by
    intro c' rest hc
    rw [Function.update_apply] at hc
    split at hc
    · next hcc => exact hcc ▸ hk rest hc
    · exact ⟨rest, hc, .refl rest⟩
  refine ⟨fun c' rest hc => ?_, fun c' rest hc j hj => ?_, fun c₁ c₂ r₁ r₂ h₁ h₂ => ?_,
    fun c' rest hc => ?_, h.once, h.logged⟩
  · obtain ⟨rest', hc', hsub⟩ := hpass hc
    exact hsub.nodup (h.nodup c' rest' hc')
  · obtain ⟨rest', hc', hsub⟩ := hpass hc
    exact h.fresh c' rest' hc' j (hsub.subset hj)
  · obtain ⟨_, h₁, -⟩ := hpass h₁
    obtain ⟨_, h₂, -⟩ := hpass h₂
    exact h.alone c₁ c₂ _ _ h₁ h₂
  · obtain ⟨_, hc', -⟩ := hpass hc
    exact h.due c' _ hc'

/-- A pass begins, as the first during this tick. -/
theorem Paced.start (h : Paced spc clock cooled) {c : C} (hno : ∀ c, pass (spc c) = none)
    (hnew : ∀ x ∈ cooled, x.1 ≠ clock) (hdue : Due clock) :
    Paced (Function.update spc c (.heat (slots n))) clock cooled := by
  have hpass : ∀ {c' rest}, pass (Function.update spc c (.heat (slots n)) c') = some rest →
      c' = c ∧ rest = slots n := by
    intro c' rest hc
    rw [Function.update_apply] at hc
    split at hc
    · next hcc => exact ⟨hcc, (Option.some.inj hc).symm⟩
    · rw [hno c'] at hc
      cases hc
  refine ⟨fun c' rest hc => ?_, fun c' rest hc j _ x hx hxc => absurd hxc (hnew x hx),
    fun c₁ c₂ r₁ r₂ h₁ h₂ => (hpass h₁).1.trans (hpass h₂).1.symm, fun _ _ _ => hdue, h.once,
    h.logged⟩
  rw [(hpass hc).2]
  exact List.nodup_finRange n

/-- A pass cools a process. -/
theorem Paced.cool (h : Paced spc clock cooled) {c : C} {i : Fin n} {rest : List (Fin n)} {k : Nat}
    (hc : pass (spc c) = some (i :: rest)) (hk : k ≤ HEAT_DECAY.toNat) :
    Paced (Function.update spc c (.heat rest)) clock ((clock, i, k) :: cooled) := by
  have hnd := List.nodup_cons.1 (h.nodup c _ hc)
  have hpass : ∀ {c' r}, pass (Function.update spc c (.heat rest) c') = some r →
      c' = c ∧ r = rest := by
    intro c' r hr
    rw [Function.update_apply] at hr
    split at hr
    · next hcc => exact ⟨hcc, (Option.some.inj hr).symm⟩
    · next hcc => exact absurd (h.alone _ _ _ _ hr hc) hcc
  refine ⟨fun c' r hr => ?_, fun c' r hr j hj x hx hxc => ?_,
    fun c₁ c₂ r₁ r₂ h₁ h₂ => (hpass h₁).1.trans (hpass h₂).1.symm, fun _ _ _ => h.due c _ hc,
    fun j => ?_, fun x hx => ?_⟩
  · rw [(hpass hr).2]
    exact hnd.2
  · rw [(hpass hr).2] at hj
    rcases List.mem_cons.1 hx with rfl | hx
    · exact fun hij => hnd.1 ((show i = j from hij) ▸ hj)
    · exact h.fresh c _ hc j (List.mem_cons_of_mem _ hj) x hx hxc
  · rw [List.filter_cons]
    split
    · next hij =>
      have hij := of_decide_eq_true hij
      rw [List.map_cons, List.nodup_cons]
      refine ⟨fun hm => ?_, h.once j⟩
      obtain ⟨x, hx, hxc⟩ := List.mem_map.1 hm
      obtain ⟨hx, hxj⟩ := List.mem_filter.1 hx
      exact h.fresh c _ hc i List.mem_cons_self x hx hxc ((of_decide_eq_true hxj).trans hij.symm)
    · exact h.once j
  · rcases List.mem_cons.1 hx with rfl | hx
    · exact ⟨h.due c _ hc, hk⟩
    · exact h.logged x hx

/-! ## Runs -/

/-- What a step of the scheduler means for its pass: one begins, or cools a process, or goes on or
ends. -/
theorem pass_sdoes {s : Sched.State n C} {c : C} {l k : SLoc n} {e : Sched.Eff n}
    (hd : Sched.SDoes c s l e k) :
    (l = .loop ∧ k = .heat (slots n)) ∨
      (∃ i rest, l = .release (.proc i) (.heat rest) ∧ k = .heat rest) ∨
      pass k = pass l ∨ pass k = none := by
  cases hd with
  | heat => exact .inl ⟨rfl, rfl⟩
  | @release x k =>
    cases x with
    | proc i =>
      cases k with
      | heat rest => exact .inr (.inl ⟨i, rest, rfl, rfl⟩)
      | _ => exact .inr (.inr (.inl rfl))
    | _ => exact .inr (.inr (.inl rfl))
  | noHeat => exact .inr (.inr (.inr rfl))
  | heatEnd => exact .inr (.inr (.inr rfl))
  | _ => exact .inr (.inr (.inl rfl))

/-- What a step of the scheduler does to the log. -/
theorem scheduler_cooled {s s₁ : State n C} {c : C} {l : SLoc n} {ch : Choice}
    (h : s.scheduler c l ch = some s₁) : s₁.clock = s.clock ∧
      ((∃ i rest, l = .release (.proc i) (.heat rest) ∧ s₁ = s.coolProc i) ∨
        s₁.cooled = s.cooled) := by
  unfold State.scheduler at h
  split at h
  · split at h
    · exact Option.some.inj h ▸ ⟨rfl, .inr rfl⟩
    · cases h
  · split at h
    · cases h
    · exact Option.some.inj h ▸ ⟨rfl, .inr rfl⟩
  · next i rest =>
    rw [← Option.some.inj h]
    refine ⟨?_, .inl ⟨i, rest, rfl, rfl⟩⟩
    rw [State.coolProc]
    split <;> rfl
  · split at h
    · split at h
      · cases h
      · exact Option.some.inj h ▸ ⟨rfl, .inr rfl⟩
    · exact Option.some.inj h ▸ ⟨rfl, .inr rfl⟩
  · split at h
    · exact Option.some.inj h ▸ ⟨rfl, .inr rfl⟩
    · cases h
  · exact Option.some.inj h ▸ ⟨rfl, .inr rfl⟩

/-- The fields follow the scheduler. -/
theorem scheduler_go {s s₁ : State n C} {c : C} {l k : SLoc n} {ch : Choice} {e : Sched.Eff n}
    (h : s.scheduler c l ch = some s₁) (hc : Sched.scode c s.sched l ch = some (e, k)) :
    (l = .loop → k = .heat (slots n) → ch = .go ∧ Due s.clock) ∧
      ∀ i rest, l = .release (.proc i) (.heat rest) → k = .heat rest ∧ s₁ = s.coolProc i := by
  refine ⟨?_, ?_⟩
  · rintro rfl rfl
    cases ch <;> simp [Sched.scode, SLoc.holds] at hc
    rw [State.scheduler] at h
    split at h
    · next hd => exact ⟨rfl, State.due_of_ticks hd⟩
    · cases h
  · rintro i rest rfl
    cases ch <;> simp [Sched.scode, SLoc.holds] at hc
    exact ⟨hc.2.symm, (Option.some.inj h).symm⟩

theorem State.coolProc_cooled (s : State n C) (i : Fin n) : (s.coolProc i).cooled = s.cooled ∨
    ∃ k, k ≤ HEAT_DECAY.toNat ∧ (s.coolProc i).cooled = (s.clock, i, k) :: s.cooled := by
  rw [State.coolProc]
  split
  · exact .inr ⟨_, cool_le _, rfl⟩
  · exact .inl rfl

variable [NeZero n]

def State.Paced (s : State n C) : Prop := Heat.Paced s.sched.spc s.clock s.cooled

/-- A thread of a process does not move the schedulers. -/
theorem step_spc {s t : Sched.State n C} {c : C} {p : Fin n} {ch : Choice} (hon : s.on c = some p)
    (h : s.step c ch = some t) : t.spc = s.spc := by
  rcases Sched.State.step_cases h with ⟨_, _, _, _, _, rfl⟩ | ⟨_, _, hno, _, _⟩
  · rfl
  · rw [hon] at hno
    cases hno

theorem State.thread_cooled {s s₁ : State n C} {k : Loc n} {ch : Choice}
    (h : s.thread k ch = some s₁) : s₁.clock = s.clock ∧ s₁.cooled = s.cooled := by
  unfold State.thread at h
  split at h
  · exact Option.some.inj h ▸ ⟨rfl, rfl⟩
  · cases h
  · cases h
  · exact Option.some.inj h ▸ ⟨rfl, rfl⟩

/-- A step of the scheduler. -/
theorem State.Paced.scheduler {s s₁ : State n C} {t : Sched.State n C} {c : C} {ch : Choice}
    (h : s.Paced) (ha : Spaced s (.cpu c ch)) (hon : s.sched.on c = none)
    (hs : s.scheduler c (s.sched.spc c) ch = some s₁) (ht : s.sched.step c ch = some t) :
    State.Paced { s₁ with sched := t } := by
  rw [Sched.State.step, hon] at ht
  obtain ⟨⟨e, k⟩, hx, rfl⟩ := Option.map_eq_some_iff.1 ht
  obtain ⟨hstart, hcool⟩ := scheduler_go hs hx
  obtain ⟨hclock, hlog⟩ := scheduler_cooled hs
  show Heat.Paced (Function.update s.sched.spc c k) s₁.clock s₁.cooled
  rw [hclock]
  rcases hlog with ⟨i, rest, hl, -⟩ | hlog
  · obtain ⟨hk, hs₁⟩ := hcool i rest hl
    have hpass : pass (s.sched.spc c) = some (i :: rest) := by rw [hl]; rfl
    rw [hs₁, hk]
    rcases s.coolProc_cooled i with hc | ⟨k, hle, hc⟩
    · rw [hc]
      refine h.go fun r hr => ⟨i :: rest, hpass, ?_⟩
      rw [← Option.some.inj hr]
      exact List.sublist_cons_self i rest
    · rw [hc]
      exact h.cool hpass hle
  · rw [hlog]
    rcases pass_sdoes (Sched.sdoes hx) with ⟨hl, hk⟩ | ⟨i, rest, hl, hk⟩ | hk
    · obtain ⟨rfl, hdue⟩ := hstart hl hk
      obtain ⟨hno, hnew⟩ := ha hon hl
      rw [hk]
      exact h.start hno hnew hdue
    · refine h.go fun r hr => ⟨i :: rest, by rw [hl]; rfl, ?_⟩
      rw [hk] at hr
      rw [← Option.some.inj hr]
      exact List.sublist_cons_self i rest
    · refine h.go fun rest hr => ?_
      rcases hk with hk | hk
      · exact ⟨rest, hk ▸ hr, .refl rest⟩
      · rw [hk] at hr
        cases hr

theorem State.Paced.step {s s' : State n C} {l : Label C} (h : s.Paced) (ha : Spaced s l)
    (hs : s.step l = some s') : s'.Paced := by
  cases State.step_did hs with
  | thread hon h1 ht =>
    obtain ⟨hclock, hlog⟩ := State.thread_cooled h1
    show Heat.Paced _ _ _
    rw [hclock, hlog, step_spc hon ht]
    exact h
  | scheduler hon h1 ht => exact h.scheduler ha hon h1 ht
  | clock => exact Heat.Paced.tick h ha
  | usertrap hon ht =>
    rcases ht with rfl | ⟨ch, ht⟩
    · exact h
    · show Heat.Paced _ _ _
      rw [step_spc hon ht]
      exact h
  | kerneltrap hon _ ht =>
    show Heat.Paced _ _ _
    rw [step_spc hon ht]
    exact h
  | device => exact h
  | idle => exact h

theorem Reach.paced {s : State n C} (hr : Reach Spaced s) : s.Paced := by
  induction hr with
  | boot =>
    have hno : ∀ {c rest}, pass ((Heat.boot : State n C).sched.spc c) ≠ some rest :=
      fun h => by cases h
    exact ⟨fun _ _ hc => absurd hc hno, fun _ _ hc => absurd hc hno,
      fun _ _ _ _ hc => absurd hc hno, fun _ _ hc => absurd hc hno, fun _ => List.nodup_nil,
      fun _ hx => absurd hx List.not_mem_nil⟩
  | step _ ha h ih => exact ih.step ha h

/-- The first process runs for two timer interrupts on one CPU.  During tick 10, two CPUs come to
the head of their loops. -/
def twoPasses : List (Label Bool) :=
  [Label.clock, .cpu false .alt] ++ List.replicate 7 (Label.cpu false .go) ++
    [Label.usertrap false 0x8000000000000001 false] ++ List.replicate 6 (Label.cpu false .go) ++
    [Label.cpu false .alt] ++ List.replicate 6 (Label.cpu false .go) ++
    [Label.usertrap false 0x8000000000000001 false] ++ List.replicate 6 (Label.cpu false .go) ++
    List.replicate 9 Label.clock ++ List.replicate 4 (Label.cpu false .go) ++
    List.replicate 4 (Label.cpu true .go)

end Xv6.Heat
