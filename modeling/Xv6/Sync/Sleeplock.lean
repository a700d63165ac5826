import Xv6.Base.Monitor

/-!
# Sleep locks

`kernel/sleeplock.c`: a lock that is held across sleeps.  Its fields are protected by an inner
spin lock, and a process that finds it taken sleeps on the address of the lock.  The processes
call `acquiresleep`, `releasesleep` and `holdingsleep` in any order, except that a process
releases only a lock it holds, and any of them can be killed at any time.

The inner spin lock is the lock of a `Monitor`, with one channel: the lock itself.
-/

set_option autoImplicit false

namespace Xv6

open Monitor

/-- `struct sleeplock`, without its inner spin lock. -/
structure Sleeplock where
  locked : Bool
  /-- The process holding the lock. -/
  pid : Int

namespace Sleeplock

/-- Where a process is in the code of the lock.  `held`: the process is between the return of its
`acquiresleep` and its `releasesleep`. -/
inductive Loc
  /-- In none of the functions. -/
  | user (held : Bool)
  /-- In `acquiresleep`, at the test of the loop. -/
  | loop (held : Bool)
  /-- In `acquiresleep`, at `release(&lk->lk)`. -/
  | taken
  /-- In `releasesleep`, at `lk->locked = 0`. -/
  | clear
  /-- In `releasesleep`, at `wakeup(lk)`. -/
  | wake
  /-- In `releasesleep`, at `release(&lk->lk)`. -/
  | dropped
  /-- In `holdingsleep`, at the test. -/
  | test (held : Bool)
  /-- In `holdingsleep`, at `release(&lk->lk)`, with its result. -/
  | tested (held : Bool) (r : Bool)

/-- What a process in none of the functions does next. -/
inductive Call (n : Nat)
  | acquiresleep
  | releasesleep
  | holdingsleep
  | kill (q : Fin n)

/-- The code of `acquiresleep`, `releasesleep` and `holdingsleep`. -/
def code {n : Nat} (pid : Fin n → Int) : Code n Unit Sleeplock Loc (Call n)
  | _, .user held, _, .acquiresleep => some (.acquire (.loop held))
  | _, .user held, _, .releasesleep => if held then some (.acquire .clear) else none
  | _, .user held, _, .holdingsleep => some (.acquire (.test held))
  | _, .user held, _, .kill q => some (.kill q (.user held))
  | p, .loop held, lk, _ =>
    if lk.locked then some (.sleep () (.loop held))
    else some (.update { locked := true, pid := pid p } .taken)
  | _, .taken, _, _ => some (.release (.user true))
  | _, .clear, _, _ => some (.update { locked := false, pid := 0 } .wake)
  | _, .wake, _, _ => some (.wakeup () .dropped)
  | _, .dropped, _, _ => some (.release (.user false))
  | p, .test held, lk, _ => some (.update lk (.tested held (lk.locked && lk.pid == pid p)))
  | _, .tested held _, _, _ => some (.release (.user held))

/-- `initsleeplock(lk, name)`. -/
def initsleeplock : Sleeplock where
  locked := false
  pid := 0

/-- A machine with `n` processes and one sleep lock. -/
abbrev Machine (n : Nat) : Type := State n Unit Sleeplock Loc

/-- The machine at the start: no process has called a function of the lock. -/
def boot (n : Nat) : Machine n := start (fun _ => .user false) initsleeplock

/-- The process is between the return of its `acquiresleep` and its `releasesleep`. -/
def Loc.held : Loc → Bool
  | .user h | .loop h | .test h | .tested h _ => h
  | .taken | .clear | .wake | .dropped => false

/-! ## The lock of the monitor -/

/-- The control points at which a process holds the inner spin lock. -/
def inside : Loc → Bool
  | .user _ => false
  | _ => true

theorem disciplined {n : Nat} (pid : Fin n → Int) : (code pid).Disciplined inside := by
  intro p l t i a h
  cases l with
  | user held =>
    cases i with
    | releasesleep =>
      rw [code] at h
      split at h
      · cases h; exact ⟨rfl, rfl⟩
      · cases h
    | acquiresleep => cases h; exact ⟨rfl, rfl⟩
    | holdingsleep => cases h; exact ⟨rfl, rfl⟩
    | kill q => cases h; exact rfl
  | loop held =>
    rw [code] at h
    split at h
    · cases h; exact ⟨rfl, rfl⟩
    · cases h; exact rfl
  | taken => cases h; exact ⟨rfl, rfl⟩
  | clear => cases h; exact rfl
  | wake => cases h; exact rfl
  | dropped => cases h; exact ⟨rfl, rfl⟩
  | test held => cases h; exact rfl
  | tested held r => cases h; exact ⟨rfl, rfl⟩

/-! ## One owner -/

/-- The control points between setting and clearing `locked`. -/
def Loc.owns : Loc → Bool
  | .user h | .loop h | .test h | .tested h _ => h
  | .taken | .clear => true
  | .wake | .dropped => false

theorem Loc.owns_of_held {l : Loc} (h : l.held = true) : l.owns = true := by
  cases l with
  | taken => rfl
  | clear => rfl
  | wake => cases h
  | dropped => cases h
  | _ => exact h

/-- At most one process owns the lock, and only while `locked` is set. -/
structure Owner {n : Nat} (loc : Fin n → Loc) (lk : Sleeplock) : Prop where
  unique : ∀ p q, (loc p).owns = true → (loc q).owns = true → p = q
  locked : ∀ p, (loc p).owns = true → lk.locked = true

section

variable {n : Nat} {loc : Fin n → Loc} {lk : Sleeplock} {p : Fin n}

/-- A process moves without taking or giving up the lock. -/
theorem Owner.keep (h : Owner loc lk) {l : Loc} (hl : l.owns = (loc p).owns) :
    Owner (Function.update loc p l) lk := by
  have he : ∀ q, (Function.update loc p l q).owns = (loc q).owns := by
    intro q
    by_cases hq : q = p
    · rw [hq, Function.update_self, hl]
    · rw [Function.update_of_ne hq]
  exact ⟨fun q r hq hr => h.unique q r (he q ▸ hq) (he r ▸ hr), fun q hq => h.locked q (he q ▸ hq)⟩

/-- A process takes a lock that is not `locked`. -/
theorem Owner.take (h : Owner loc lk) (hn : lk.locked = false) (l : Loc) {lk' : Sleeplock}
    (hl : lk'.locked = true) : Owner (Function.update loc p l) lk' := by
  have hno : ∀ q, (Function.update loc p l q).owns = true → q = p := by
    intro q hq
    by_contra hne
    rw [Function.update_of_ne hne] at hq
    exact Bool.false_ne_true (hn.symm.trans (h.locked q hq))
  exact ⟨fun q r hq hr => (hno q hq).trans (hno r hr).symm, fun _ _ => hl⟩

/-- The owner gives up the lock. -/
theorem Owner.drop (h : Owner loc lk) (hp : (loc p).owns = true) {l : Loc} (hl : l.owns = false)
    (lk' : Sleeplock) : Owner (Function.update loc p l) lk' := by
  have hno : ∀ q, (Function.update loc p l q).owns = false := by
    intro q
    by_cases hq : q = p
    · rw [hq, Function.update_self, hl]
    · rw [Function.update_of_ne hq]
      by_contra hne
      exact hq (h.unique q p (Bool.eq_true_of_not_eq_false hne) hp)
  exact ⟨fun q r hq _ => absurd ((hno q).symm.trans hq) Bool.false_ne_true,
    fun q hq => absurd ((hno q).symm.trans hq) Bool.false_ne_true⟩

/-- Every act of the code keeps the owner unique. -/
theorem Owner.act {pid : Fin n → Int} {i : Call n} {a : Act n Unit Sleeplock Loc}
    (h : Owner loc lk) (ha : code pid p (loc p) lk i = some a) :
    Owner (Function.update loc p (a.next lk (loc p)).2) (a.next lk (loc p)).1 := by
  cases hl : loc p with
  | user held =>
    rw [hl] at ha
    cases i with
    | releasesleep =>
      rw [code] at ha
      split at ha
      · next hh => cases ha; exact h.keep (by rw [hl]; exact hh.symm)
      · cases ha
    | acquiresleep => cases ha; exact h.keep (by rw [hl]; rfl)
    | holdingsleep => cases ha; exact h.keep (by rw [hl]; rfl)
    | kill q => cases ha; exact h.keep (by rw [hl]; rfl)
  | loop held =>
    rw [hl, code] at ha
    split at ha
    · cases ha; exact h.keep (by rw [hl]; rfl)
    · next hn => cases ha; exact h.take (Bool.eq_false_of_not_eq_true hn) _ rfl
  | taken => rw [hl] at ha; cases ha; exact h.keep (by rw [hl]; rfl)
  | clear => rw [hl] at ha; cases ha; exact h.drop (by rw [hl]; rfl) rfl _
  | wake => rw [hl] at ha; cases ha; exact h.keep (by rw [hl]; rfl)
  | dropped => rw [hl] at ha; cases ha; exact h.keep (by rw [hl]; rfl)
  | test held => rw [hl] at ha; cases ha; exact h.keep (by rw [hl]; rfl)
  | tested held r => rw [hl] at ha; cases ha; exact h.keep (by rw [hl]; rfl)

end

/-! ## No lost wakeup -/

/-- A process must not stay asleep on a lock that is not `locked`. -/
def wake (_ : Unit) (lk : Sleeplock) : Prop := lk.locked = false

/-- After clearing `locked`, `releasesleep` is still to wake the sleepers. -/
def owes (l : Loc) (_ : Unit) : Prop := l = .wake

theorem pays {n : Nat} {pid : Fin n → Int} {p : Fin n} {l : Loc} {lk : Sleeplock} {i : Call n}
    {a : Act n Unit Sleeplock Loc} (ha : code pid p l lk i = some a) :
    a.Pays inside wake owes lk l := by
  cases l with
  | user held =>
    cases i with
    | releasesleep =>
      rw [code] at ha
      split at ha
      · cases ha; trivial
      · cases ha
    | acquiresleep => cases ha; trivial
    | holdingsleep => cases ha; trivial
    | kill q => cases ha; exact fun _ h => by cases h
  | loop held =>
    rw [code] at ha
    split at ha
    · next hl =>
      cases ha
      exact ⟨fun h => Bool.false_ne_true (h.symm.trans hl), fun _ h => by cases h⟩
    · cases ha; exact fun _ h => by cases h
  | taken => cases ha; exact fun _ h => by cases h
  | clear => cases ha; exact fun _ _ => .inl rfl
  | wake => cases ha; exact fun c h => absurd rfl h
  | dropped => cases ha; exact fun _ h => by cases h
  | test held => cases ha; exact fun _ h => .inr ⟨h, fun h => by cases h⟩
  | tested held r => cases ha; exact fun _ h => by cases h

theorem code_ne_killed {n : Nat} {pid : Fin n → Int} {p : Fin n} {l : Loc} {lk : Sleeplock}
    {i : Call n} {k : Bool → Loc} : code pid p l lk i ≠ some (.killed k) := by
  intro h
  cases l with
  | user held =>
    cases i with
    | releasesleep => rw [code] at h; split at h <;> cases h
    | _ => cases h
  | loop held => rw [code] at h; split at h <;> cases h
  | _ => cases h

section

variable {n : Nat} {pid : Fin n → Int} {s s' : Machine n}

/-- The invariant of sleep locks. -/
structure Ok (pid : Fin n → Int) (s : Machine n) : Prop where
  locks : Monitor.Inv (code pid) inside s
  owner : Owner s.loc s.shared
  noLost : NoLost wake owes s

theorem Ok.step (h : Ok pid s) {p : Fin n} {i : Call n} (hm : Move (code pid) s p i s') :
    Ok pid s' := by
  refine ⟨h.locks.step (disciplined pid) hm, ?_, ?_⟩
  · cases hm.effect h.locks with
    | quiet hs hl => rw [hs, hl]; exact h.owner
    | act hpc ha hs hl =>
      rw [hs, hl]
      exact h.owner.act ha
    | answer hpc ha hs hl => exact absurd ha code_ne_killed
  · exact h.noLost.step (disciplined pid) h.locks (fun _ _ _ ha => pays ha)
      (fun _ _ _ _ _ ha => absurd ha code_ne_killed) hm

theorem ok_of_reach (h : Reach (code pid) anyStep (boot n) s) : Ok pid s := by
  refine h.induct (J := Ok pid) ⟨inv_start fun _ => rfl, ⟨?_, ?_⟩, noLost_start⟩
    fun _ _ _ _ hs _ _ hm => hs.step hm
  · intro p q hp _; cases hp
  · intro p hp; cases hp

/-- **Sleep locks exclude and lose no wakeup.**  In every state that any number of processes reach
by calling `acquiresleep`, `releasesleep` and `holdingsleep` and killing each other, at most one
process is between the return of its `acquiresleep` and its `releasesleep`; and while the inner
spin lock is free and the lock is not `locked`, nobody is asleep on it. -/
theorem sleeplock_exclusive (h : Reach (code pid) anyStep (boot n) s) :
    (∀ p q, (s.loc p).held = true → (s.loc q).held = true → p = q) ∧
      (s.lock = none → s.shared.locked = false →
        ∀ q, ¬ (s.state q = .sleeping ∧ s.chan q = some ())) := by
  have hok := ok_of_reach h
  refine ⟨fun p q hp hq => hok.owner.unique p q (Loc.owns_of_held hp) (Loc.owns_of_held hq), ?_⟩
  intro hl hn q
  exact hok.noLost.not_sleeping hl hn

end

/-! Two processes: the second finds the lock taken and sleeps, the first releases it and wakes
the second, which takes it. -/

def giver : Fin 2 := ⟨0, Nat.two_pos⟩

def taker : Fin 2 := ⟨1, Nat.one_lt_two⟩

/-- The schedule of the hand-over. -/
def handover : List (Fin 2 × Call 2) :=
  List.replicate 3 (giver, Call.acquiresleep) ++ List.replicate 6 (taker, Call.acquiresleep) ++
    List.replicate 9 (giver, Call.releasesleep) ++ List.replicate 6 (taker, Call.acquiresleep)

theorem sleeplock_exclusive_handover :
    ∃ s, run (code fun p : Fin 2 => p.val + 1) anyStep handover (boot 2) = some s ∧
      (s.loc 1).held = true ∧ s.lock = none ∧
      ∀ p q, (s.loc p).held = true → (s.loc q).held = true → p = q := by
  have h : run (code fun p : Fin 2 => p.val + 1) anyStep handover (boot 2) = some _ := rfl
  exact ⟨_, h, rfl, rfl, (sleeplock_exclusive (reach_run h)).1⟩

end Sleeplock

end Xv6
