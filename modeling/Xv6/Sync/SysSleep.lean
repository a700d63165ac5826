import Xv6.Base.Monitor

/-!
# `sleep(n)`

`sys_sleep` of `kernel/sysproc.c` and `clockintr` of `kernel/trap.c`.  The clock is `ticks`, a
64-bit counter; `sys_sleep` keeps the value it starts from in 32 bits, and compares the difference
with an `int`.  So from the tick 2^32 on the difference is never below 2^32, and nobody sleeps any
more.

`tickslock` is the lock of a `Monitor`, and `&ticks` its channel.  The shared state is how often
`clockintr` has run, of which `ticks` has the low 64 bits; it may start anywhere.
-/

set_option autoImplicit false

namespace Xv6.SysSleep

open Monitor

/-- A call that has returned: its argument and its result, and the clock at both ends. -/
structure Returned where
  arg : Int
  result : Int
  since : Nat
  ended : Nat

/-- Where a process is in `sys_sleep` or `clockintr`. -/
inductive Loc
  /-- In neither; what its last `sleep` returned. -/
  | user (last : Option Returned)
  /-- In `sys_sleep`, at `ticks0 = ticks`. -/
  | enter (n : Int)
  /-- At the test of the loop. -/
  | loop (n : Int) (ticks0 since : Nat)
  /-- At `sleep(&ticks, &tickslock)`. -/
  | doze (n : Int) (ticks0 since : Nat)
  /-- At `release(&tickslock)`, with the result. -/
  | leave (n : Int) (since : Nat) (result : Int)
  /-- In `clockintr`, at `ticks++`. -/
  | tick (last : Option Returned)
  /-- At `wakeup(&ticks)`, in `clockintr` or for no reason. -/
  | wake (last : Option Returned)
  /-- At `release(&tickslock)`. -/
  | woke (last : Option Returned)

/-- What a process in neither function does next. -/
inductive Call (n : Nat)
  | sleep (arg : Int)
  | clockintr
  /-- Somebody wakes the channel although the clock has not moved. -/
  | spurious
  | kill (q : Fin n)

/-- `ticks`. -/
def ticks (clock : Nat) : Nat := clock % 2 ^ 64

/-- `n` after `if(n < 0) n = 0`. -/
def clip (n : Int) : Nat := n.toNat

/-- The condition of the loop, `ticks - ticks0 < n`: the difference is that of 64-bit numbers. -/
def early (clock ticks0 : Nat) (n : Int) : Prop := (ticks clock + 2 ^ 64 - ticks0) % 2 ^ 64 < clip n

instance (clock ticks0 : Nat) (n : Int) : Decidable (early clock ticks0 n) :=
  inferInstanceAs (Decidable (_ < _))

/-- The code of `sys_sleep`, `clockintr` and `kill`. -/
def code {n : Nat} : Code n Unit Nat Loc (Call n)
  | _, .user _, _, .sleep arg =>
    if -2 ^ 31 ≤ arg ∧ arg < 2 ^ 31 then some (.acquire (.enter arg)) else none
  | _, .user last, _, .clockintr => some (.acquire (.tick last))
  | _, .user last, _, .spurious => some (.acquire (.wake last))
  | _, .user last, _, .kill q => some (.kill q (.user last))
  | _, .enter arg, clock, _ => some (.update clock (.loop arg (ticks clock % 2 ^ 32) clock))
  | _, .loop arg ticks0 since, clock, _ =>
    if early clock ticks0 arg then
      some (.killed fun b => if b then .leave arg since (-1) else .doze arg ticks0 since)
    else some (.update clock (.leave arg since 0))
  | _, .doze arg ticks0 since, _, _ => some (.sleep () (.loop arg ticks0 since))
  | _, .leave arg since r, clock, _ => some (.release (.user (some ⟨arg, r, since, clock⟩)))
  | _, .tick last, clock, _ => some (.update (clock + 1) (.wake last))
  | _, .wake last, _, _ => some (.wakeup () (.woke last))
  | _, .woke last, _, _ => some (.release (.user last))

/-- The machine when the clock is at `clock`. -/
def boot (n clock : Nat) : State n Unit Nat Loc := start (fun _ => .user none) clock

/-- The control points at which a process holds `tickslock`. -/
def inside : Loc → Bool
  | .user _ => false
  | _ => true

theorem disciplined {n : Nat} : Code.Disciplined (n := n) code inside := by
  intro p l t i a h
  cases l with
  | user last =>
    cases i with
    | sleep arg =>
      rw [code] at h
      split at h
      · cases h
        exact ⟨rfl, rfl⟩
      · cases h
    | clockintr => cases h; exact ⟨rfl, rfl⟩
    | spurious => cases h; exact ⟨rfl, rfl⟩
    | kill q => cases h; exact rfl
  | enter arg => cases h; exact rfl
  | loop arg ticks0 since =>
    rw [code] at h
    split at h
    · cases h
      intro b
      cases b <;> rfl
    · cases h
      exact rfl
  | doze arg ticks0 since => cases h; exact ⟨rfl, rfl⟩
  | leave arg since r => cases h; exact ⟨rfl, rfl⟩
  | tick last => cases h; exact rfl
  | wake last => cases h; exact rfl
  | woke last => cases h; exact ⟨rfl, rfl⟩

/-! ## What a result says -/

/-- The call has returned 0 and `ticks` has advanced by at least `max(n, 0)`, or it has returned
-1 and the process has been killed. -/
def Honest (killed : Bool) (n : Int) (since ended : Nat) (r : Int) : Prop :=
  (r = 0 ∧ since + clip n ≤ ended) ∨ (r = -1 ∧ killed = true)

/-- There is nothing to wait for, or `ticks0` holds all of `ticks`. -/
def Fits (n : Int) (since : Nat) : Prop := n ≤ 0 ∨ ticks since < 2 ^ 32

/-- What a process knows of the call it is in, or of the one it made last. -/
def Known (killed : Bool) (clock : Nat) : Loc → Prop
  | .enter _ => True
  | .loop _ ticks0 since | .doze _ ticks0 since => since ≤ clock ∧ ticks0 = ticks since % 2 ^ 32
  | .leave n since r => Fits n since → Honest killed n since clock r
  | .user last | .tick last | .wake last | .woke last =>
    ∀ x, last = some x → Fits x.arg x.since → Honest killed x.arg x.since x.ended x.result

theorem Honest.mono {k k' : Bool} {n : Int} {since ended ended' : Nat} {r : Int}
    (h : Honest k n since ended r) (hk : k = true → k' = true) (hle : ended ≤ ended') :
    Honest k' n since ended' r := by
  rcases h with ⟨hr, hd⟩ | ⟨hr, hkilled⟩
  · exact .inl ⟨hr, hd.trans hle⟩
  · exact .inr ⟨hr, hk hkilled⟩

theorem Known.mono {k k' : Bool} {clock clock' : Nat} {l : Loc} (h : Known k clock l)
    (hk : k = true → k' = true) (hle : clock ≤ clock') : Known k' clock' l := by
  cases l with
  | enter n => trivial
  | loop n ticks0 since => exact ⟨h.1.trans hle, h.2⟩
  | doze n ticks0 since => exact ⟨h.1.trans hle, h.2⟩
  | leave n since r => exact fun hf => (h hf).mono hk hle
  | user last => exact fun x hx hf => (h x hx hf).mono hk le_rfl
  | tick last => exact fun x hx hf => (h x hx hf).mono hk le_rfl
  | wake last => exact fun x hx hf => (h x hx hf).mono hk le_rfl
  | woke last => exact fun x hx hf => (h x hx hf).mono hk le_rfl

/-- The loop ends in time if `ticks0` holds all of `ticks`. -/
theorem due_of_not_early {clock since : Nat} {n : Int} (hle : since ≤ clock) (hf : Fits n since)
    (h : ¬ early clock (ticks since % 2 ^ 32) n) : since + clip n ≤ clock := by
  rcases hf with hn | hs
  · rw [clip, Int.toNat_of_nonpos hn]
    exact hle
  · rw [early, Nat.mod_eq_of_lt hs, ticks, ticks] at h
    omega

/-- From the tick 2^32 on the loop ends at once. -/
theorem not_early_of_le {clock : Nat} {n : Int} (hn : n < 2 ^ 31) (h : 2 ^ 32 ≤ ticks clock) :
    ¬ early clock (ticks clock % 2 ^ 32) n := by
  have hlt : ticks clock < 2 ^ 64 := Nat.mod_lt _ (by decide)
  rw [early, clip]
  omega

variable {n : Nat}

theorem clock_le_next {p : Fin n} {l : Loc} {clock : Nat} {i : Call n} {a : Act n Unit Nat Loc}
    (ha : code p l clock i = some a) : clock ≤ (a.next clock l).1 := by
  cases l with
  | user last =>
    cases i with
    | sleep arg =>
      rw [code] at ha
      split at ha
      · cases ha; exact le_rfl
      · cases ha
    | _ => cases ha; exact le_rfl
  | loop arg ticks0 since =>
    rw [code] at ha
    split at ha <;> cases ha <;> exact le_rfl
  | tick last => cases ha; exact Nat.le_succ clock
  | _ => cases ha; exact le_rfl

/-- An act keeps what the process knows. -/
theorem Known.act {p : Fin n} {l : Loc} {k : Bool} {clock : Nat} {i : Call n}
    {a : Act n Unit Nat Loc} (h : Known k clock l) (ha : code p l clock i = some a) :
    Known k (a.next clock l).1 (a.next clock l).2 := by
  cases l with
  | user last =>
    cases i with
    | sleep arg =>
      rw [code] at ha
      split at ha
      · cases ha; trivial
      · cases ha
    | _ => cases ha; exact h
  | enter arg => cases ha; exact ⟨le_rfl, rfl⟩
  | loop arg ticks0 since =>
    rw [code] at ha
    obtain ⟨hle, rfl⟩ := h
    split at ha
    · cases ha; exact ⟨hle, rfl⟩
    · next he =>
      cases ha
      exact fun hf => .inl ⟨rfl, due_of_not_early hle hf he⟩
  | doze arg ticks0 since => cases ha; exact h
  | leave arg since r =>
    cases ha
    intro x hx hf
    cases hx
    exact h hf
  | tick last => cases ha; exact h
  | wake last => cases ha; exact h
  | woke last => cases ha; exact h

/-- So does the answer whether it has been killed. -/
theorem Known.answer {p : Fin n} {l : Loc} {b : Bool} {clock t : Nat} {i : Call n}
    {k : Bool → Loc} (h : Known b clock l) (ha : code p l t i = some (.killed k)) :
    Known b clock (k b) := by
  cases l with
  | user last =>
    cases i with
    | sleep arg =>
      rw [code] at ha
      split at ha <;> cases ha
    | _ => cases ha
  | loop arg ticks0 since =>
    rw [code] at ha
    split at ha
    · cases ha
      cases b with
      | true => exact fun _ => .inr ⟨rfl, rfl⟩
      | false => exact h
    · cases ha
  | _ => cases ha

/-- The invariant of the clock. -/
structure Ok (s : State n Unit Nat Loc) : Prop where
  locks : Monitor.Inv code inside s
  known : ∀ p, Known (s.killed p) s.shared (s.loc p)

theorem Ok.step {s s' : State n Unit Nat Loc} (h : Ok s) {p : Fin n} {i : Call n}
    (hm : Move code s p i s') : Ok s' := by
  refine ⟨h.locks.step disciplined hm, fun q => ?_⟩
  have hk : s.killed q = true → s'.killed q = true := hm.killed_keep
  cases hm.effect h.locks with
  | quiet hs hl =>
    rw [hs, hl]
    exact (h.known q).mono hk le_rfl
  | act hpc ha hs hl =>
    rw [hs, hl]
    by_cases hq : q = p
    · subst hq
      rw [Function.update_self]
      exact ((h.known q).act ha).mono hk le_rfl
    · rw [Function.update_of_ne hq]
      exact (h.known q).mono hk (clock_le_next ha)
  | answer hpc ha hs hl =>
    rw [hs, hl]
    by_cases hq : q = p
    · subst hq
      rw [Function.update_self]
      exact ((h.known q).answer ha).mono hk le_rfl
    · rw [Function.update_of_ne hq]
      exact (h.known q).mono hk le_rfl

theorem ok_of_reach {clock : Nat} {s : State n Unit Nat Loc}
    (h : Reach code anyStep (boot n clock) s) : Ok s := by
  refine h.induct (J := Ok) ⟨inv_start fun _ => rfl, ?_⟩ fun _ _ _ _ hs _ _ hm => hs.step hm
  intro p x hx
  cases hx

/-- A call made at the tick 2^32 or later returns 0 before the next tick. -/
theorem returns_at_once {arg : Int} (hlo : 0 < arg) (hhi : arg < 2 ^ 31) {clock : Nat}
    (h : 2 ^ 32 ≤ ticks clock) : ∃ s, Reach code anyStep (boot 1 clock) s ∧
      s.loc 0 = .user (some ⟨arg, 0, clock, clock⟩) := by
  have hcall : code (0 : Fin 1) (.user none) clock (.sleep arg) = some (.acquire (.enter arg)) :=
    if_pos ⟨by omega, hhi⟩
  have hend : code (0 : Fin 1) (.loop arg (ticks clock % 2 ^ 32) clock) clock (.sleep arg) =
      some (.update clock (.leave arg clock 0)) := if_neg (not_early_of_le hhi h)
  -- taking the lock, reading `ticks`, the test of the loop, and the release
  let s₁ := ((boot 1 clock).setLock (some 0)).goto 0 (.code (.enter arg))
  let s₂ := (s₁.setShared clock).goto 0 (.code (.loop arg (ticks clock % 2 ^ 32) clock))
  let s₃ := (s₂.setShared clock).goto 0 (.code (.leave arg clock 0))
  let s₄ := (s₃.setLock none).goto 0 (.code (.user (some ⟨arg, 0, clock, clock⟩)))
  have h₁ : step code (boot 1 clock) 0 (.sleep arg) = some s₁ := by
    show (code (0 : Fin 1) (.user none) clock (.sleep arg)).bind _ = _
    rw [hcall]
    rfl
  have h₂ : step code s₁ 0 (.sleep arg) = some s₂ := rfl
  have h₃ : step code s₂ 0 (.sleep arg) = some s₃ := by
    show (code (0 : Fin 1) (.loop arg (ticks clock % 2 ^ 32) clock) clock (.sleep arg)).bind _ = _
    rw [hend]
    rfl
  have h₄ : step code s₃ 0 (.sleep arg) = some s₄ := rfl
  exact ⟨s₄, .step (.step (.step (.step .start trivial h₁) trivial h₂) trivial h₃) trivial h₄, rfl⟩

/-- **`sleep` is never early, up to the tick 2^32.**  For every clock and every `int` argument, the
calls with that argument that start at that clock return 0 only after `max(n, 0)` ticks, and -1
only to a killed process, whatever the clock, the wakeups and the other processes do, exactly if
there is nothing to wait for or `ticks` is still below 2^32. -/
theorem sys_sleep_not_early_iff (clock : Nat) (arg : Int) (hlo : -2 ^ 31 ≤ arg)
    (hhi : arg < 2 ^ 31) :
    (∀ (n started : Nat) (s : State n Unit Nat Loc) (p : Fin n) (x : Returned),
      Reach code anyStep (boot n started) s → s.loc p = .user (some x) → x.arg = arg →
      x.since = clock → Honest (s.killed p) arg clock x.ended x.result) ↔
    arg ≤ 0 ∨ ticks clock < 2 ^ 32 := by
  constructor
  · intro hall
    by_contra hno
    obtain ⟨hpos, hle⟩ := not_or.1 hno
    obtain ⟨s, hs, hl⟩ := returns_at_once (not_le.1 hpos) hhi (not_lt.1 hle)
    rcases hall 1 clock s 0 _ hs hl rfl rfl with ⟨-, hdue⟩ | ⟨hr, -⟩
    · have hdue : clock + arg.toNat ≤ clock := hdue
      omega
    · cases hr
  · rintro hf n started s p x hs hl rfl rfl
    have hknown := (ok_of_reach hs).known p
    rw [hl] at hknown
    exact hknown x rfl hf

/-- At the tick 7 `sleep(5)` is not early. -/
theorem sys_sleep_not_early_iff_seven : ticks 7 < 2 ^ 32 ∧
    ∀ (n started : Nat) (s : State n Unit Nat Loc) (p : Fin n) (x : Returned),
      Reach code anyStep (boot n started) s → s.loc p = .user (some x) → x.arg = 5 →
      x.since = 7 → Honest (s.killed p) 5 7 x.ended x.result :=
  ⟨by decide, (sys_sleep_not_early_iff 7 5 (by decide) (by decide)).2 (.inr (by decide))⟩

/-- At the tick 2^32, `sleep(5)` of a process that nobody has killed returns 0 at once. -/
theorem sys_sleep_early_at_two_pow_32 :
    ∃ s : State 1 Unit Nat Loc, Reach code anyStep (boot 1 (2 ^ 32)) s ∧
      s.loc 0 = .user (some ⟨5, 0, 2 ^ 32, 2 ^ 32⟩) ∧
      ¬ Honest (s.killed 0) 5 (2 ^ 32) (2 ^ 32) 0 := by
  obtain ⟨s, hs, hl⟩ := returns_at_once (show (0 : Int) < 5 by decide) (by decide)
    (show 2 ^ 32 ≤ ticks (2 ^ 32) by decide)
  refine ⟨s, hs, hl, ?_⟩
  rintro (⟨-, hdue⟩ | ⟨hr, -⟩)
  · exact absurd hdue (by decide)
  · cases hr

end Xv6.SysSleep
