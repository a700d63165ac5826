import Xv6.Activity.Single

/-!
# Calls of `getactivity` that fail

`sys_getactivity` moves its three `last` values on before the `copyout` that may fail, so what has
been counted up to a failed call is in no report.  A report covers everything since the report
before it as long as a call fails only when there was nothing to report (`failed_covers`); one
tick is enough for a failed call to lose it (`failed_loses`).
-/

set_option autoImplicit false

namespace Xv6.Activity

variable {P : Type}

/-- The counts at the snapshot of the last call that returned 0, or at boot. -/
def lastUpto : List (Report P) → Counters
  | [] => fun _ => 0
  | r :: _ => r.upto

/-- `cpu_percent` and `interrupts` of a record are what `sys_getactivity` makes of all that has
been counted from `since` to `upto`. -/
structure Covers (act : Bytes) (since upto : Counters) : Prop where
  cpu : getInt act 0 = if (upto .total - since .total) % 2 ^ 64 = 0 then 0
    else toInt32 ((upto .active - since .active) % 2 ^ 64 * 100 % 2 ^ 64 /
      ((upto .total - since .total) % 2 ^ 64))
  interrupts : getInt act 12 = toInt32 ((upto .int - since .int) % 2 ^ 64)
  /-- Without an overflow `cpu_percent` is the share of the active ticks. -/
  share : 100 * (upto .total - since .total) < 2 ^ 64 → getInt act 0 =
    ((100 * (upto .active - since .active) / (upto .total - since .total) : Nat) : Int)

theorem Fits.covers {B : Field → Nat → Prop} {f : Frame} {since upto : Counters}
    (h : Fits B f.delta since upto) (ticks : Nat) (slot : Bytes) :
    Covers (fill (f.inputs ticks) slot) since upto := by
  refine ⟨?_, h.interrupts ticks slot, fun hb => (h.cpuPercent hb ticks slot).1⟩
  rw [getInt_fill_cpuPercent, Inputs.cpuPercent, ← h.deltaOf, ← h.deltaOf]
  rfl

theorem Chain.since_eq {rs : List (Report P)} {r : Report P} {z : Counters}
    (h : Chain (r :: rs) z) : r.since = lastUpto rs := by
  obtain ⟨-, h⟩ := h
  cases rs with
  | nil => exact h
  | cons r' rs => exact h.1.symm

/-- A part of a chain is a chain. -/
theorem Chain.append {rs rs' : List (Report P)} {z : Counters} (h : Chain (rs ++ rs') z) :
    ∃ z', Chain rs' z' := by
  induction rs generalizing z with
  | nil => exact ⟨z, h⟩
  | cons r rs ih => exact ih h.2

section

variable [DecidableEq P] {K : Image} {s : State P}

theorem InTurn.apart {l : Step P} (h : InTurn s l) : Apart (fun _ _ => True) s l := by
  cases l with
  | call p =>
    refine ⟨fun q pt f hq => ?_, fun _ => trivial⟩
    rw [h q] at hq
    cases hq
  | _ => trivial

theorem Reach.chained (hr : Reach K InTurn s) : Chained s := by
  induction hr with
  | boot ram =>
    exact ⟨fun _ _ _ _ h => (by cases h), fun _ => rfl, fun _ _ _ h => (by cases h)⟩
  | step hs ha h ih => exact ih.step (hs.inv fun _ _ => InTurn.apart) ha h

/-- **A report covers the whole interval since the last successful call**, in every run in which
calls do not overlap and a call fails only if nothing has been counted since the last successful
one. -/
theorem failed_covers (hr : Reach K InTurn s) {rs rs' : List (Report P)} {r : Report P}
    (h : s.reports = rs ++ r :: rs') : Covers r.act (lastUpto rs') r.upto := by
  obtain ⟨z, hz⟩ := hr.chained.exists_chain
  rw [h] at hz
  obtain ⟨z', hz'⟩ := hz.append
  have hmem : r ∈ s.reports := by
    rw [h]
    exact List.mem_append_right _ List.mem_cons_self
  have hinv : Inv (fun _ _ => True) s := hr.inv fun _ _ => InTurn.apart
  obtain ⟨f, ticks, slot, hact, hfit⟩ := hinv.fits r hmem
  rw [hact, ← hz'.since_eq]
  exact hfit.covers ticks slot

end

/-- A call up to its `copyout`. -/
def upToCopyout : List (Step Unit) := .call () :: goOn () 8

/-- The `copyout` of a call fails. -/
def copyoutFails : Step Unit := .go () (fun _ => 0) false

theorem State.run_append [DecidableEq P] {K : Image} (s : State P) (ls ls' : List (Step P)) :
    s.run K (ls ++ ls') = (s.run K ls).bind fun s' => s'.run K ls' := by
  induction ls generalizing s with
  | nil => rfl
  | cons l ls ih =>
    rw [List.cons_append, State.run, State.run, Option.bind_assoc]
    exact congrArg _ (funext ih)

/-- A call that begins while there is no other one is in turn. -/
theorem Reach.goOn {s s' : State Unit} {m : Nat} (h : Reach image InTurn s)
    (hidle : ∀ q, s.call q = none) (hs : s.run image (.call () :: goOn () m) = some s') :
    Reach image InTurn s' := by
  rw [State.run, Option.bind_eq_some_iff] at hs
  obtain ⟨s₁, h1, hs⟩ := hs
  refine (h.step (l := .call ()) hidle h1).run (fun l hl s => ?_) hs
  rw [List.eq_of_mem_replicate hl]
  exact fun hf => by cases hf

/-- A call that fails at boot costs nothing: the call after the first tick reports it. -/
theorem failed_covers_boot : ∃ s : State Unit,
    (boot image fun _ _ => 0).run image
      (upToCopyout ++ copyoutFails :: tick :: .call () :: goOn () 9) = some s ∧
    ∃ r, s.reports = [r] ∧ r.upto .int = 1 ∧
      Covers r.act (lastUpto ([] : List (Report Unit))) r.upto := by
  have hboot : Reach image InTurn (boot image fun _ _ => 0 : State Unit) := .boot _
  obtain ⟨m, hm⟩ := boot_eq image fun _ _ => 0
  rw [hm] at hboot ⊢
  obtain ⟨s₁, s₂, s₃, s, h1, h2, h3, h4, hret, hidle, r, hrep, hint⟩ :
      ∃ s₁ s₂ s₃ s, (afterTicks m 0 0).run image upToCopyout = some s₁ ∧
        s₁.step image copyoutFails = some s₂ ∧ s₂.step image tick = some s₃ ∧
        s₃.run image (.call () :: goOn () 9) = some s ∧
        (∀ f, s₁.call () = some (.ret, f) → ∀ c, f.upto c = f.since c) ∧
        (∀ q, s₃.call q = none) ∧ ∃ r, s.reports = [r] ∧ r.upto .int = 1 := by
    refine ⟨_, _, _, _, rfl, rfl, rfl, rfl, fun f hf c => ?_, fun _ => rfl, _, rfl, rfl⟩
    cases hf
    cases c <;> rfl
  have hr1 : Reach image InTurn s₁ := hboot.goOn (fun _ => rfl) h1
  have hr3 : Reach image InTurn s₃ :=
    (hr1.step (l := copyoutFails) (fun _ => hret) h2).step (l := tick) trivial h3
  refine ⟨s, ?_, r, hrep, hint, ?_⟩
  · rw [State.run_append, h1, Option.bind_some, State.run, h2, Option.bind_some, State.run, h3,
      Option.bind_some, h4]
  · exact failed_covers (hr3.goOn hidle h4) (show s.reports = [] ++ r :: [] from hrep)

/-- After one tick a call fails, and the next one reports no interrupt. -/
theorem failed_loses : ∃ s : State Unit,
    (boot image fun _ _ => 0).run image
      (tick :: upToCopyout ++ copyoutFails :: .call () :: goOn () 9) = some s ∧
    ∃ r, s.reports = [r] ∧ r.upto .int = 1 ∧ getInt r.act 12 = 0 ∧
      ¬ Covers r.act (lastUpto ([] : List (Report Unit))) r.upto := by
  have hrun : ((boot image fun _ _ => 0 : State Unit).run image
      (tick :: upToCopyout ++ copyoutFails :: .call () :: goOn () 9)).map
      (fun s => s.reports.map fun r => (r.upto .int, getInt r.act 12)) = some [(1, 0)] := by
    decide +kernel
  obtain ⟨s, hs, hrep⟩ := Option.map_eq_some_iff.1 hrun
  obtain ⟨r, hr, hrw⟩ := List.map_eq_singleton_iff.1 hrep
  obtain ⟨hint, hzero⟩ := Prod.mk.inj hrw
  refine ⟨s, hs, r, hr, hint, hzero, fun h => ?_⟩
  have hone := h.interrupts
  rw [hzero, hint] at hone
  exact absurd hone (by decide)

end Xv6.Activity
