import Xv6.Sched.Kill

/-!
# Ctrl-C and `kill`

`kill(pid)` marks the process killed and wakes it if it is asleep; `kill_all_user_processes()`,
which `consoleintr` calls on Ctrl-C, only marks.  A process that sleeps on something that never
comes is so left asleep.  Both are taken here as whole calls on a table that nobody else touches.

A table may hold a pid twice, and a slot that is not in use may still hold one; `kill` stops at the
first slot with the pid, whatever it is, and Ctrl-C goes through all of them.
-/

set_option autoImplicit false

namespace Xv6.Sched

variable {n : Nat}

/-- The loop of `kill(pid)` over the slots left. -/
def killFrom (pid : Int) (t : Table n) : List (Fin n) → Int × Table n
  | [] => (-1, t)
  | i :: rest => if (t.proc i).pid = pid then (0, (Event.kill i).apply t) else killFrom pid t rest

/-- `kill(pid)`. -/
def kill (pid : Int) (t : Table n) : Int × Table n := killFrom pid t (slots n)

/-- Calls of `kill`, one after the other. -/
def killEach (pids : List Int) (t : Table n) : Table n := pids.foldl (fun t pid => (kill pid t).2) t

/-- `kill_all_user_processes()`. -/
def killAllUserProcesses (t : Table n) : Table n := (slots n).foldl (fun t i => killUser i t) t

/-! ## The tables they leave -/

/-- The slot after `kill`. -/
def struck (x : Proc n) : Proc n :=
  { x with killed := true, state := if x.state = .sleeping then .runnable else x.state }

/-- The slot after `setkilled`. -/
def marked (x : Proc n) : Proc n := { x with killed := true }

/-- The slot at which `kill` finds its pid. -/
def Table.First (t : Table n) (i : Fin n) : Prop := ∀ j, j < i → (t.proc j).pid ≠ (t.proc i).pid

instance (t : Table n) (i : Fin n) : Decidable (t.First i) := inferInstanceAs (Decidable (∀ _, _))

/-- The process of the slot is one that Ctrl-C kills. -/
def Proc.User (x : Proc n) : Prop := x.state ≠ .unused ∧ 2 < x.pid

instance (x : Proc n) : Decidable x.User := inferInstanceAs (Decidable (_ ∧ _))

theorem struck_struck (x : Proc n) : struck (struck x) = struck x := by
  cases x with
  | mk state chan killed xstate pid => cases state <;> rfl

/-- `kill` finds nothing, or the first slot of its list with the pid. -/
theorem killFrom_cases (pid : Int) (t : Table n) (l : List (Fin n)) :
    ((∀ i ∈ l, (t.proc i).pid ≠ pid) ∧ (killFrom pid t l).2 = t) ∨
      ∃ l₁ i l₂, l = l₁ ++ i :: l₂ ∧ (∀ j ∈ l₁, (t.proc j).pid ≠ pid) ∧ (t.proc i).pid = pid ∧
        (killFrom pid t l).2 = t.setProc i (struck (t.proc i)) := by
  induction l with
  | nil => exact .inl ⟨fun i hi => absurd hi List.not_mem_nil, rfl⟩
  | cons i l ih =>
    rw [killFrom]
    by_cases hi : (t.proc i).pid = pid
    · rw [if_pos hi]
      exact .inr ⟨[], i, l, rfl, fun j hj => absurd hj List.not_mem_nil, hi, rfl⟩
    · rw [if_neg hi]
      rcases ih with ⟨hno, h⟩ | ⟨l₁, j, l₂, rfl, hno, hj, h⟩
      · exact .inl ⟨List.forall_mem_cons.2 ⟨hi, hno⟩, h⟩
      · exact .inr ⟨i :: l₁, j, l₂, rfl, List.forall_mem_cons.2 ⟨hi, hno⟩, hj, h⟩

/-- The slots before one in the table are the smaller ones. -/
theorem mem_of_slots_eq {l₁ l₂ : List (Fin n)} {i : Fin n} (h : slots n = l₁ ++ i :: l₂)
    (j : Fin n) : j ∈ l₁ ↔ j < i := by
  have hsorted : (l₁ ++ i :: l₂).Pairwise (· < ·) := h ▸ List.pairwise_lt_finRange n
  have hmem : j ∈ l₁ ++ i :: l₂ := h ▸ List.mem_finRange j
  rw [List.pairwise_append, List.pairwise_cons] at hsorted
  obtain ⟨-, ⟨hafter, -⟩, hbefore⟩ := hsorted
  constructor
  · exact fun hj => hbefore j hj i List.mem_cons_self
  · intro hj
    rcases List.mem_append.1 hmem with h1 | h2
    · exact h1
    · rcases List.mem_cons.1 h2 with rfl | h2
      · exact absurd hj (lt_irrefl j)
      · exact absurd (hafter j h2) (not_lt.2 hj.le)

/-- The table with other slots. -/
def Table.withProc (t : Table n) (f : Fin n → Proc n) : Table n := { t with proc := f }

theorem Table.withProc_congr {t : Table n} {f g : Fin n → Proc n} (h : ∀ i, f i = g i) :
    t.withProc f = t.withProc g := by
  rw [funext h]

theorem Table.withProc_inj {t : Table n} {f g : Fin n → Proc n} :
    t.withProc f = t.withProc g ↔ ∀ i, f i = g i :=
  ⟨fun h i => congrFun (congrArg Table.proc h) i, Table.withProc_congr⟩

theorem kill_eq (pid : Int) (t : Table n) : (kill pid t).2 = t.withProc fun i =>
    if (t.proc i).pid = pid ∧ t.First i then struck (t.proc i) else t.proc i := by
  rcases killFrom_cases pid t (slots n) with ⟨hno, h⟩ | ⟨l₁, i, l₂, hl, hno, hi, h⟩
  · rw [kill, h]
    show t.withProc t.proc = _
    refine Table.withProc_congr fun j => ?_
    rw [if_neg fun hj => hno j (List.mem_finRange j) hj.1]
  · rw [kill, h]
    refine Table.withProc_congr fun j => ?_
    by_cases hj : j = i
    · subst hj
      have hfirst : t.First j := fun k hk => hi ▸ hno k ((mem_of_slots_eq hl k).2 hk)
      rw [Function.update_self, if_pos ⟨hi, hfirst⟩]
    · rw [Function.update_of_ne hj, if_neg]
      rintro ⟨hp, hfirst⟩
      rcases lt_or_gt_of_ne hj with hlt | hgt
      · exact hno j ((mem_of_slots_eq hl j).2 hlt) hp
      · exact hfirst i hgt (hi.trans hp.symm)

/-- Calls of `kill` strike the first slots with their pids, in whatever order they come. -/
theorem killEach_eq (pids : List Int) (t : Table n) : killEach pids t = t.withProc fun i =>
    if (t.proc i).pid ∈ pids ∧ t.First i then struck (t.proc i) else t.proc i := by
  induction pids generalizing t with
  | nil =>
    show t.withProc t.proc = _
    refine Table.withProc_congr fun i => ?_
    rw [if_neg fun h => List.not_mem_nil h.1]
  | cons pid pids ih =>
    have hproc : ∀ i, (kill pid t).2.proc i =
        if (t.proc i).pid = pid ∧ t.First i then struck (t.proc i) else t.proc i := by
      intro i
      rw [kill_eq]
      rfl
    have hpid : ∀ i, ((kill pid t).2.proc i).pid = (t.proc i).pid := by
      intro i
      rw [hproc]
      split <;> rfl
    have hfirst : ∀ i, (kill pid t).2.First i ↔ t.First i := by
      intro i
      simp only [Table.First, hpid]
    show killEach pids (kill pid t).2 = _
    rw [ih]
    have hrest : ∀ f, (kill pid t).2.withProc f = t.withProc f := by
      intro f
      rw [kill_eq]
      rfl
    rw [hrest]
    refine Table.withProc_congr fun i => ?_
    rw [hpid, hproc]
    simp only [hfirst, List.mem_cons]
    by_cases hf : t.First i
    · by_cases hp : (t.proc i).pid = pid
      · simp [hf, hp, struck_struck]
      · simp [hf, hp]
    · simp [hf]

/-- Marking a slot changes nothing that Ctrl-C looks at. -/
theorem user_marked (x : Proc n) : (marked x).User ↔ x.User := Iff.rfl

theorem marked_marked (x : Proc n) : marked (marked x) = marked x := rfl

theorem killUser_eq (i : Fin n) (t : Table n) : killUser i t =
    t.withProc fun j => if j = i ∧ (t.proc j).User then marked (t.proc j) else t.proc j := by
  rw [killUser]
  split
  · next hu =>
    refine Table.withProc_congr fun j => ?_
    by_cases hj : j = i
    · subst hj
      rw [Function.update_self, if_pos ⟨rfl, hu⟩]
      rfl
    · rw [Function.update_of_ne hj, if_neg fun h => hj h.1]
  · next hu =>
    show t.withProc t.proc = _
    refine Table.withProc_congr fun j => ?_
    rw [if_neg]
    rintro ⟨rfl, h⟩
    exact hu h

/-- Ctrl-C marks all the processes it is for. -/
theorem killAllUserProcesses_eq (t : Table n) : killAllUserProcesses t =
    t.withProc fun i => if (t.proc i).User then marked (t.proc i) else t.proc i := by
  have hfold : ∀ (l : List (Fin n)) (t : Table n), l.foldl (fun t i => killUser i t) t =
      t.withProc fun i => if i ∈ l ∧ (t.proc i).User then marked (t.proc i) else t.proc i := by
    intro l
    induction l with
    | nil =>
      intro t
      show t.withProc t.proc = _
      refine Table.withProc_congr fun i => ?_
      rw [if_neg fun h => List.not_mem_nil h.1]
    | cons i l ih =>
      intro t
      rw [List.foldl_cons, ih, killUser_eq]
      refine Table.withProc_congr fun j => ?_
      by_cases hu : (t.proc j).User
      · by_cases hj : j = i
        · subst hj
          simp [Table.withProc, hu, user_marked, marked_marked]
        · simp [Table.withProc, hu, hj]
      · simp [Table.withProc, hu]
  rw [killAllUserProcesses, hfold]
  refine Table.withProc_congr fun i => ?_
  simp [slots]

/-! ## When they agree -/

/-- The calls of `kill` that Ctrl-C stands for: one for each pid of a process it is for. -/
def IsUserPids (t : Table n) (pids : List Int) : Prop :=
  pids.Nodup ∧ ∀ pid, pid ∈ pids ↔ ∃ i, (t.proc i).User ∧ (t.proc i).pid = pid

/-- The slot has the pid of a process that Ctrl-C kills. -/
def Table.Doomed (t : Table n) (i : Fin n) : Prop :=
  ∃ j, (t.proc j).User ∧ (t.proc j).pid = (t.proc i).pid

theorem Proc.User.doomed {t : Table n} {i : Fin n} (h : (t.proc i).User) : t.Doomed i := ⟨i, h, rfl⟩

theorem Table.Doomed.user_iff {t : Table n} {i : Fin n} (h : t.Doomed i) :
    (t.proc i).User ↔ (t.proc i).state ≠ .unused := by
  obtain ⟨j, hj, hp⟩ := h
  exact ⟨fun hi => hi.1, fun hi => ⟨hi, hp ▸ hj.2⟩⟩

theorem marked_eq_struck_iff (x : Proc n) : marked x = struck x ↔ x.state ≠ .sleeping := by
  cases x with
  | mk state chan killed xstate pid => cases state <;> simp [marked, struck]

theorem marked_eq_self_iff (x : Proc n) : marked x = x ↔ x.killed = true := by
  cases x with
  | mk state chan killed xstate pid => simp [marked, eq_comm]

theorem struck_eq_self_iff (x : Proc n) :
    x = struck x ↔ x.killed = true ∧ x.state ≠ .sleeping := by
  cases x with
  | mk state chan killed xstate pid => cases state <;> simp [struck]

/-- One slot after Ctrl-C and after the calls of `kill`. -/
theorem marked_eq_struck_at {t : Table n} {i : Fin n} (h : t.Doomed i) :
    (if (t.proc i).User then marked (t.proc i) else t.proc i) =
        (if t.First i then struck (t.proc i) else t.proc i) ↔
      (t.First i → (t.proc i).state ≠ .sleeping) ∧
        ((t.proc i).killed = true ∨ (t.First i ↔ (t.proc i).state ≠ .unused)) := by
  rw [← h.user_iff]
  by_cases hu : (t.proc i).User
  · by_cases hf : t.First i
    · simp [hu, hf, marked_eq_struck_iff]
    · simp [hu, hf, marked_eq_self_iff]
  · by_cases hf : t.First i
    · simp [hu, hf, struck_eq_self_iff, and_comm]
    · simp [hu, hf]

/-- **Ctrl-C agrees with `kill` where nobody sleeps.**  For every table and every order of the pids,
`kill_all_user_processes()` leaves the table that the calls of `kill` leave exactly if every slot
with such a pid is not asleep where `kill` finds it, and either is marked already, or both find it,
or neither does.  A process that Ctrl-C is for is left asleep and marked exactly if one was asleep
before. -/
theorem killAllUserProcesses_eq_killEach_iff (t : Table n) (pids : List Int)
    (h : IsUserPids t pids) :
    (killAllUserProcesses t = killEach pids t ↔ ∀ i, t.Doomed i →
      (t.First i → (t.proc i).state ≠ .sleeping) ∧
        ((t.proc i).killed = true ∨ (t.First i ↔ (t.proc i).state ≠ .unused))) ∧
    ((∀ i, ((killAllUserProcesses t).proc i).User →
        ¬ (((killAllUserProcesses t).proc i).state = .sleeping ∧
          ((killAllUserProcesses t).proc i).killed = true)) ↔
      ∀ i, (t.proc i).User → (t.proc i).state ≠ .sleeping) := by
  rw [killAllUserProcesses_eq]
  constructor
  · rw [killEach_eq, Table.withProc_inj]
    refine forall_congr' fun i => ?_
    have hmem : (t.proc i).pid ∈ pids ↔ t.Doomed i := h.2 _
    by_cases hd : t.Doomed i
    · simp only [hmem, hd, true_and, forall_true_left]
      exact marked_eq_struck_at hd
    · have hu : ¬ (t.proc i).User := fun hu => hd hu.doomed
      simp [hmem, hd, hu]
  · refine forall_congr' fun i => ?_
    by_cases hu : (t.proc i).User
    · have hm : (marked (t.proc i)).User := hu
      have hs : (marked (t.proc i)).state = (t.proc i).state := rfl
      have hk : (marked (t.proc i)).killed = true := rfl
      simp [Table.withProc, hu, hm, hs, hk]
    · simp [Table.withProc, hu]

/-! `init`, the shell, which waits for its child, and the child. -/

/-- The table when the child is in the given state. -/
def shellAnd (state : ProcState) : Table 3 where
  proc i :=
    { state := if i = 2 then state else .sleeping
      chan := none
      killed := false
      xstate := 0
      pid := i.val + 1 }
  parent _ := none
  nextpid := 4
  allocated := 3
  exited := []
  waits := []

theorem isUserPids_shellAnd {state : ProcState} (h : state ≠ .unused) :
    IsUserPids (shellAnd state) [3] := by
  refine ⟨List.nodup_singleton 3, fun pid => ?_⟩
  rw [List.mem_singleton]
  constructor
  · rintro rfl
    have hpid : (2 : Int) < ((2 : Fin 3).val : Int) + 1 := by decide
    exact ⟨2, ⟨h, hpid⟩, rfl⟩
  · rintro ⟨i, hi, rfl⟩
    have hpid : 2 < ((i.val : Int) + 1) := hi.2
    show (i.val : Int) + 1 = 3
    omega

theorem shellAnd_doomed {state : ProcState} {i : Fin 3} (h : (shellAnd state).Doomed i) :
    i = 2 := by
  obtain ⟨j, hj, he⟩ := h
  have hpid : 2 < ((j.val : Int) + 1) := hj.2
  have he : ((j.val : Int) + 1) = (i.val : Int) + 1 := he
  omega

/-- A child that runs: Ctrl-C and `kill(3)` do the same. -/
theorem killAllUserProcesses_eq_killEach_running :
    killAllUserProcesses (shellAnd .running) = killEach [3] (shellAnd .running) := by
  have hp := isUserPids_shellAnd (show ProcState.running ≠ .unused by decide)
  refine (killAllUserProcesses_eq_killEach_iff _ _ hp).1.2 fun i hi => ?_
  rw [shellAnd_doomed hi]
  decide

/-- A child that sleeps: Ctrl-C leaves it asleep and marked, `kill(3)` does not. -/
theorem killAllUserProcesses_leaves_sleeper :
    IsUserPids (shellAnd .sleeping) [3] ∧
    ((killAllUserProcesses (shellAnd .sleeping)).proc 2).state = .sleeping ∧
    ((killAllUserProcesses (shellAnd .sleeping)).proc 2).killed = true ∧
    ((killEach [3] (shellAnd .sleeping)).proc 2).state = .runnable :=
  ⟨isUserPids_shellAnd (by decide), rfl, rfl, rfl⟩

end Xv6.Sched
