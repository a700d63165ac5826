import Mathlib.Data.List.FinRange
import Xv6.Base.Monitor
import Xv6.Disk.History

/-!
# Group commit

`kernel/log.c` as the processes run it side by side: `begin_op` admits an operation or sleeps
until the log has room, `log_write` lists a block, and the `end_op` of the last operation
outstanding commits.  `commit` runs without the lock, one step for each block it copies or
installs; what these steps do to the disk is the subject of `Xv6.Disk`.

`log.lock` is the lock of a `Monitor`, with one channel: the log.  A ghost history records the
begin and the end of each operation, each block logged and each header written, newest first.
-/

set_option autoImplicit false

namespace Xv6

open Monitor

namespace GroupCommit

/-- What happens to the log. -/
inductive Event (n : Nat)
  | beginOp (p : Fin n)
  | logWrite (p : Fin n) (b : Nat)
  | endOp (p : Fin n)
  /-- The header of a transaction reaches the disk. -/
  | commit (bs : List Nat)

/-- `struct log`, with what has happened so far, newest first. -/
structure Shared (n : Nat) where
  log : Log
  hist : List (Event n)

/-- Where a process is in the code of the log.  `bs`: the blocks its operation has logged. -/
inductive Loc
  /-- Between operations. -/
  | user
  /-- In `begin_op`, at the tests of the loop. -/
  | beginLoop
  /-- In `begin_op`, at `release(&log.lock)`. -/
  | begun
  /-- In an operation. -/
  | op (bs : List Nat)
  /-- In `log_write` of block `b`, at the tests. -/
  | write (b : Nat) (bs : List Nat)
  /-- In `log_write`, at `release(&log.lock)`. -/
  | written (bs : List Nat)
  /-- In `end_op`, at `log.outstanding -= 1`. -/
  | endDec (bs : List Nat)
  /-- In `end_op`, at `wakeup(&log)`. -/
  | endWake
  /-- In `end_op`, at `release(&log.lock)`. -/
  | endRel (doCommit : Bool)
  /-- In `commit`, at its test. -/
  | commit
  /-- In `write_log`, at block `tail`. -/
  | writeLog (tail : Nat)
  /-- In `commit`, at the `write_head()` that commits. -/
  | writeHead
  /-- In `install_trans`, at block `tail`. -/
  | install (tail : Nat)
  /-- In `commit`, at `log.lh.n = 0`. -/
  | clear
  /-- In `commit`, at the `write_head()` that erases the transaction. -/
  | eraseHead
  /-- In `end_op`, after `commit`, at `acquire(&log.lock)`. -/
  | relock
  /-- In `end_op`, at `log.committing = 0`. -/
  | reset
  /-- In `end_op`, after `commit`, at `wakeup(&log)`. -/
  | wake
  /-- In `end_op`, after `commit`, at `release(&log.lock)`. -/
  | done

/-- What a process does next, where it has a choice. -/
inductive Call (n : Nat)
  | beginOp
  | logWrite (b : Nat)
  | endOp
  | kill (q : Fin n)

/-- The header after `log_write` of block `b`: the entry found by the loop is set, and counted if
it is a new one. -/
def addBlock (lh : LogHeader) (b : Nat) : LogHeader where
  n := if (logIndex lh b : Int) = lh.n then lh.n + 1 else lh.n
  block := Function.update lh.block (logIndex lh b) b

/-- The code of `begin_op`, `log_write`, `end_op` and `commit`. -/
def code {n : Nat} : Code n Unit (Shared n) Loc (Call n)
  | _, .user, _, .beginOp => some (.acquire .beginLoop)
  | _, .user, _, .kill q => some (.kill q .user)
  | _, .user, _, _ => none
  | p, .beginLoop, t, _ =>
    if t.log.committing then some (.sleep () .beginLoop)
    else if t.log.lh.n + (t.log.outstanding + 1) * MAXOPBLOCKS > LOGSIZE then
      some (.sleep () .beginLoop)
    else
      some (.update { log := { t.log with outstanding := t.log.outstanding + 1 },
                      hist := .beginOp p :: t.hist } .begun)
  | _, .begun, _, _ => some (.release (.op []))
  | _, .op bs, _, .logWrite b => some (.acquire (.write b bs))
  | _, .op bs, _, .endOp => some (.acquire (.endDec bs))
  | _, .op bs, _, .kill q => some (.kill q (.op bs))
  | _, .op _, _, .beginOp => none
  | p, .write b bs, t, _ =>
    if t.log.lh.n ≥ LOGSIZE ∨ t.log.lh.n ≥ (t.log.size : Int) - 1 then
      some (.panic "too big a transaction")
    else if t.log.outstanding < 1 then some (.panic "log_write outside of trans")
    else
      some (.update { log := { t.log with lh := addBlock t.log.lh b },
                      hist := .logWrite p b :: t.hist } (.written (bs.insert b)))
  | _, .written bs, _, _ => some (.release (.op bs))
  | p, .endDec _, t, _ =>
    if t.log.committing then some (.panic "log.committing")
    else if t.log.outstanding - 1 = 0 then
      some (.update { log := { t.log with outstanding := t.log.outstanding - 1, committing := true },
                      hist := .endOp p :: t.hist } (.endRel true))
    else
      some (.update { log := { t.log with outstanding := t.log.outstanding - 1 },
                      hist := .endOp p :: t.hist } .endWake)
  | _, .endWake, _, _ => some (.wakeup () (.endRel false))
  | _, .endRel doCommit, _, _ => some (.release (if doCommit then .commit else .user))
  | _, .commit, t, _ => some (.update t (if t.log.lh.n > 0 then .writeLog 0 else .relock))
  | _, .writeLog tail, t, _ =>
    some (.update t (if (tail : Int) < t.log.lh.n then .writeLog (tail + 1) else .writeHead))
  | _, .writeHead, t, _ =>
    some (.update { t with hist := .commit t.log.lh.blocks :: t.hist } (.install 0))
  | _, .install tail, t, _ =>
    some (.update t (if (tail : Int) < t.log.lh.n then .install (tail + 1) else .clear))
  | _, .clear, t, _ =>
    some (.update { t with log := { t.log with lh := t.log.lh.cleared } } .eraseHead)
  | _, .eraseHead, t, _ => some (.update t .relock)
  | _, .relock, _, _ => some (.acquire .reset)
  | _, .reset, t, _ => some (.update { t with log := { t.log with committing := false } } .wake)
  | _, .wake, _, _ => some (.wakeup () .done)
  | _, .done, _, _ => some (.release .user)

/-- A machine with `n` processes and one log. -/
abbrev Machine (n : Nat) : Type := State n Unit (Shared n) Loc

/-- `initlog(dev, sb)` with nothing to recover. -/
def initLog (nlog : Nat) : Log where
  start := 2
  size := nlog
  outstanding := 0
  committing := false
  dev := ROOTDEV
  lh := { n := 0, block := fun _ => 0 }

/-- The machine at the start, on a disk with `nlog` log blocks. -/
def boot (n nlog : Nat) : Machine n := start (fun _ => .user) { log := initLog nlog, hist := [] }

/-! ## The lock of the monitor -/

/-- The control points at which a process holds `log.lock`. -/
def inside : Loc → Bool
  | .beginLoop | .begun | .write _ _ | .written _ | .endDec _ | .endWake | .endRel _ | .reset
  | .wake | .done => true
  | _ => false

theorem disciplined {n : Nat} : (code (n := n)).Disciplined inside := by
  intro p l t i a h
  cases l with
  | user =>
    cases i with
    | beginOp => cases h; exact ⟨rfl, rfl⟩
    | kill q => cases h; exact rfl
    | _ => cases h
  | beginLoop =>
    rw [code] at h
    split at h
    · cases h; exact ⟨rfl, rfl⟩
    · split at h
      · cases h; exact ⟨rfl, rfl⟩
      · cases h; exact rfl
  | op bs =>
    cases i with
    | logWrite b => cases h; exact ⟨rfl, rfl⟩
    | endOp => cases h; exact ⟨rfl, rfl⟩
    | kill q => cases h; exact rfl
    | beginOp => cases h
  | write b bs =>
    rw [code] at h
    split at h
    · cases h; trivial
    · split at h
      · cases h; trivial
      · cases h; exact rfl
  | endDec bs =>
    rw [code] at h
    split at h
    · cases h; trivial
    · split at h
      · cases h; exact rfl
      · cases h; exact rfl
  | endRel doCommit => cases h; cases doCommit <;> exact ⟨rfl, rfl⟩
  | commit => cases h; rw [Act.Disciplined]; split <;> rfl
  | writeLog tail => cases h; rw [Act.Disciplined]; split <;> rfl
  | install tail => cases h; rw [Act.Disciplined]; split <;> rfl
  | begun => cases h; exact ⟨rfl, rfl⟩
  | written bs => cases h; exact ⟨rfl, rfl⟩
  | relock => cases h; exact ⟨rfl, rfl⟩
  | done => cases h; exact ⟨rfl, rfl⟩
  | _ => cases h; exact rfl

/-! ## Histories -/

section History

variable {n : Nat}

/-- The blocks logged since the last commit. -/
def since : List (Event n) → List Nat
  | [] => []
  | .logWrite _ b :: h => b :: since h
  | .commit _ :: _ => []
  | .beginOp _ :: h | .endOp _ :: h => since h

/-- Is process `p` in an operation? -/
def isOpen (p : Fin n) : List (Event n) → Bool
  | [] => false
  | .beginOp q :: h => if q = p then true else isOpen p h
  | .endOp q :: h => if q = p then false else isOpen p h
  | .logWrite _ _ :: h | .commit _ :: h => isOpen p h

/-- Every commit happens while no operation is open, and commits all that was logged since the
one before. -/
def Grouped : List (Event n) → Prop
  | [] => True
  | .commit bs :: h => (∀ p, isOpen p h = false) ∧ (∀ b ∈ since h, b ∈ bs) ∧ Grouped h
  | .beginOp _ :: h | .endOp _ :: h | .logWrite _ _ :: h => Grouped h

theorem Grouped.tail {e : Event n} {h : List (Event n)} (hg : Grouped (e :: h)) : Grouped h := by
  cases e with
  | commit bs => exact hg.2.2
  | _ => exact hg

theorem Grouped.suffix {x h : List (Event n)} (hg : Grouped (x ++ h)) : Grouped h := by
  induction x with
  | nil => exact hg
  | cons e x ih => exact ih hg.tail

/-- An operation that has not ended is open. -/
theorem isOpen_append {p : Fin n} {x h : List (Event n)} (hx : .endOp p ∉ x)
    (ho : isOpen p h = true) : isOpen p (x ++ h) = true := by
  induction x with
  | nil => exact ho
  | cons e x ih =>
    rw [List.mem_cons, not_or] at hx
    have hrest := ih hx.2
    rw [List.cons_append]
    cases e with
    | beginOp q => rw [isOpen, hrest, ite_self]
    | endOp q => rw [isOpen, if_neg fun hq : q = p => hx.1 (by rw [hq]), hrest]
    | logWrite q b => rw [isOpen, hrest]
    | commit bs => rw [isOpen, hrest]

theorem mem_since_append {p : Fin n} {b : Nat} {x h : List (Event n)}
    (hx : ∀ bs, .commit bs ∉ x) (hb : .logWrite p b ∈ x) : b ∈ since (x ++ h) := by
  induction x with
  | nil => cases hb
  | cons e x ih =>
    have hx' : ∀ bs, .commit bs ∉ x := fun bs hm => hx bs (List.mem_cons_of_mem _ hm)
    rw [List.cons_append]
    rcases List.mem_cons.1 hb with he | hm
    · rw [← he, since]
      exact List.mem_cons_self
    · have hrest := ih hx' hm
      cases e with
      | beginOp q => exact hrest
      | endOp q => exact hrest
      | logWrite q c => exact List.mem_cons_of_mem _ hrest
      | commit bs => exact absurd List.mem_cons_self (hx bs)

/-- An operation of a grouped history sees no commit, and the first commit after it commits every
block it logged. -/
theorem Grouped.same_commit {post mid pre : List (Event n)} {p : Fin n}
    (hg : Grouped (post ++ .endOp p :: (mid ++ .beginOp p :: pre))) (hmid : .endOp p ∉ mid) :
    (∀ bs, .commit bs ∉ mid) ∧ ∀ post₁ bs post₂, post = post₁ ++ .commit bs :: post₂ →
      (∀ cs, .commit cs ∉ post₂) → ∀ b, .logWrite p b ∈ mid → b ∈ bs := by
  have hno : ∀ bs, .commit bs ∉ mid := by
    intro bs hb
    obtain ⟨m₁, m₂, rfl⟩ := List.append_of_mem hb
    rw [List.append_assoc] at hg
    have hc := (hg.suffix.tail.suffix : Grouped (_ :: _))
    have hopen : isOpen p (m₂ ++ .beginOp p :: pre) = true :=
      isOpen_append (fun h => hmid (List.mem_append_right _ (List.mem_cons_of_mem _ h)))
        (by rw [isOpen, if_pos rfl])
    exact Bool.false_ne_true ((hc.1 p).symm.trans hopen)
  refine ⟨hno, ?_⟩
  rintro post₁ bs post₂ rfl hpost b hb
  rw [List.append_assoc] at hg
  have hc := (hg.suffix : Grouped (_ :: _))
  refine hc.2.1 b ?_
  have hmem : Event.logWrite p b ∈ post₂ ++ .endOp p :: mid :=
    List.mem_append_right _ (List.mem_cons_of_mem _ hb)
  have hnc : ∀ cs, Event.commit cs ∉ post₂ ++ .endOp p :: mid := by
    intro cs hcs
    rcases List.mem_append.1 hcs with h | h
    · exact hpost cs h
    · rcases List.mem_cons.1 h with h | h
      · cases h
      · exact hno cs h
  have := mem_since_append (h := .beginOp p :: pre) hnc hmem
  rwa [List.append_assoc] at this

/-- If nothing was logged since the last commit, every block logged has been committed. -/
theorem exists_commit_of_since_nil {p : Fin n} {b : Nat} {x h : List (Event n)}
    (hs : since (x ++ .logWrite p b :: h) = []) : ∃ bs, .commit bs ∈ x := by
  by_contra hn
  have hx : ∀ bs, .commit bs ∉ x ++ [.logWrite p b] := by
    intro bs hb
    rcases List.mem_append.1 hb with hb | hb
    · exact hn ⟨bs, hb⟩
    · cases List.mem_singleton.1 hb
  have hmem : b ∈ since (x ++ [.logWrite p b] ++ h) :=
    mem_since_append hx (List.mem_append_right _ List.mem_cons_self)
  rw [List.append_assoc, List.singleton_append, hs] at hmem
  cases hmem

end History

/-! ## The invariant -/

namespace Loc

/-- The operations a process has outstanding. -/
def ops : Loc → Nat
  | .begun | .op _ | .write _ _ | .written _ | .endDec _ => 1
  | _ => 0

/-- The blocks the operation of a process has logged. -/
def blocks : Loc → List Nat
  | .op bs | .write _ bs | .written bs | .endDec bs => bs
  | _ => []

/-- Is the process between setting and clearing `log.committing`? -/
def commits : Loc → Bool
  | .endRel doCommit => doCommit
  | .commit | .writeLog _ | .writeHead | .install _ | .clear | .eraseHead | .relock | .reset => true
  | _ => false

/-- Has the process, in its commit, emptied the header? -/
def cleared : Loc → Bool
  | .eraseHead | .relock | .reset => true
  | _ => false

/-- Is the process between writing the header of its commit and emptying it? -/
def committed : Loc → Bool
  | .install _ | .clear => true
  | _ => false

theorem commits_of_committed {l : Loc} (h : l.committed = true) : l.commits = true := by
  cases l with
  | install tail => rfl
  | clear => rfl
  | _ => cases h

theorem commits_of_cleared {l : Loc} (h : l.cleared = true) : l.commits = true := by
  cases l with
  | eraseHead => rfl
  | relock => rfl
  | reset => rfl
  | _ => cases h

theorem blocks_of_ops {l : Loc} (h : l.ops = 0) : l.blocks = [] := by
  cases l with
  | op bs => cases h
  | write b bs => cases h
  | written bs => cases h
  | endDec bs => cases h
  | _ => rfl

end Loc

/-- What holds of the control points and the log. -/
structure Ok {n : Nat} (loc : Fin n → Loc) (t : Shared n) : Prop where
  n_nonneg : 0 ≤ t.log.lh.n
  count : t.log.outstanding = total Loc.ops loc
  quiet : t.log.committing = true → t.log.outstanding = 0
  committing : ∀ p, (loc p).commits = true → t.log.committing = true
  unique : ∀ p q, (loc p).commits = true → (loc q).commits = true → p = q
  cleared : ∀ p, (loc p).cleared = true → t.log.lh.n = 0
  committed : ∀ p, (loc p).committed = true → GroupCommit.since t.hist = []
  empty : t.log.committing = false → t.log.outstanding = 0 → t.log.lh.n = 0
  logged : ∀ p, ∀ b ∈ (loc p).blocks, b ∈ t.log.lh.blocks
  since : ∀ b ∈ GroupCommit.since t.hist, b ∈ t.log.lh.blocks
  opened : ∀ p, isOpen p t.hist = decide ((loc p).ops = 1)
  grouped : Grouped t.hist

section Invariant

variable {n : Nat} {loc : Fin n → Loc} {t : Shared n} {p : Fin n}

/-- While `committing` is set no process is in an operation. -/
theorem Ok.ops_eq_zero (h : Ok loc t) (hc : t.log.committing = true) (q : Fin n) :
    (loc q).ops = 0 := by
  have h1 := h.count
  have h2 := h.quiet hc
  have h3 := le_total Loc.ops loc q
  omega

theorem forall_update {P : Fin n → Loc → Prop} {l : Loc} (h : ∀ q, P q (loc q)) (hp : P p l)
    (q : Fin n) : P q (Function.update loc p l q) := by
  by_cases hq : q = p
  · rw [hq, Function.update_self]; exact hp
  · rw [Function.update_of_ne hq]; exact h q

/-- A process moves and the log stays as it is. -/
theorem Ok.goto (h : Ok loc t) {l : Loc} (ho : l.ops = (loc p).ops)
    (hc : l.commits = (loc p).commits) (hd : l.cleared = true → t.log.lh.n = 0)
    (hm : l.committed = true → GroupCommit.since t.hist = [])
    (hb : ∀ b ∈ l.blocks, b ∈ t.log.lh.blocks) : Ok (Function.update loc p l) t := by
  have hcom : ∀ q, (Function.update loc p l q).commits = (loc q).commits :=
    forall_update (P := fun q m => m.commits = (loc q).commits) (fun _ => rfl) hc
  refine ⟨h.n_nonneg, ?_, h.quiet, ?_, ?_, ?_, ?_, h.empty, ?_, h.since, ?_, h.grouped⟩
  · rw [total_update_same ho]; exact h.count
  · intro q hq
    rw [hcom] at hq
    exact h.committing q hq
  · intro q r hq hr
    rw [hcom] at hq hr
    exact h.unique q r hq hr
  · exact forall_update (P := fun _ m => m.cleared = true → t.log.lh.n = 0) h.cleared hd
  · exact forall_update (P := fun _ m => m.committed = true → GroupCommit.since t.hist = [])
      h.committed hm
  · exact forall_update (P := fun _ m => ∀ b ∈ m.blocks, b ∈ t.log.lh.blocks) h.logged hb
  · exact forall_update (P := fun q m => isOpen q t.hist = decide (m.ops = 1)) h.opened
      (by rw [h.opened p, ho])

/-- `begin_op` admits an operation. -/
theorem Ok.admit (h : Ok loc t) (hl : loc p = .beginLoop) (hc : t.log.committing = false) :
    Ok (Function.update loc p .begun)
      { log := { t.log with outstanding := t.log.outstanding + 1 },
        hist := .beginOp p :: t.hist } := by
  have hops : (loc p).ops = 0 := by rw [hl]; rfl
  have hcom : ∀ q, (Function.update loc p .begun q).commits = (loc q).commits :=
    forall_update (P := fun q m => m.commits = (loc q).commits) (fun _ => rfl) (by rw [hl]; rfl)
  refine ⟨h.n_nonneg, ?_, fun h' => ?_, ?_, ?_, ?_, ?_, fun _ h0 => ?_, ?_, h.since, ?_, h.grouped⟩
  · have := total_update Loc.ops loc p .begun
    have hb : Loc.begun.ops = 1 := rfl
    have := h.count
    simp only
    omega
  · exact absurd (hc.symm.trans h') Bool.false_ne_true
  · intro q hq
    rw [hcom] at hq
    exact h.committing q hq
  · intro q r hq hr
    rw [hcom] at hq hr
    exact h.unique q r hq hr
  · exact forall_update (P := fun _ m => m.cleared = true → t.log.lh.n = 0) h.cleared nofun
  · exact forall_update (P := fun _ m => m.committed = true → GroupCommit.since t.hist = [])
      h.committed nofun
  · have := h.count
    simp only at h0
    omega
  · exact forall_update (P := fun _ m => ∀ b ∈ m.blocks, b ∈ t.log.lh.blocks) h.logged nofun
  · intro q
    rw [isOpen]
    by_cases hq : p = q
    · rw [if_pos hq, ← hq, Function.update_self]; rfl
    · rw [if_neg hq, Function.update_of_ne fun h => hq h.symm]; exact h.opened q

theorem addBlock_eq {lh : LogHeader} (hn : 0 ≤ lh.n) (b : Nat) : addBlock lh b = logAdd lh b := by
  rw [addBlock, logAdd]
  by_cases hb : b ∈ (List.range lh.n.toNat).map lh.block
  · obtain ⟨hlt, heq⟩ := logIndex_of_mem hb
    rw [if_pos hb, if_neg (by omega), Function.update_eq_self_iff.2 heq.symm]
  · have hidx := logIndex_of_not_mem hb
    rw [if_neg hb, if_pos (by omega), hidx]

/-- What the header lists after `log_write`. -/
theorem mem_addBlock {lh : LogHeader} (hn : 0 ≤ lh.n) {b c : Nat} :
    c ∈ (addBlock lh b).blocks ↔ c ∈ lh.blocks ∨ c = b := by
  rw [addBlock_eq hn, blocks_logAdd hn, mem_listed_logAdd]

/-- `log_write` lists the block. -/
theorem Ok.write (h : Ok loc t) {b : Nat} {bs : List Nat} (hl : loc p = .write b bs) :
    Ok (Function.update loc p (.written (bs.insert b)))
      { log := { t.log with lh := addBlock t.log.lh b }, hist := .logWrite p b :: t.hist } := by
  have hn := h.n_nonneg
  have hops : (loc p).ops = 1 := by rw [hl]; rfl
  have hpos : t.log.outstanding ≠ 0 := by
    have := h.count
    have := le_total Loc.ops loc p
    omega
  have hnc : t.log.committing = false := by
    by_contra hc
    exact hpos (h.quiet (Bool.eq_true_of_not_eq_false hc))
  have hcom : ∀ q, (Function.update loc p (.written (bs.insert b)) q).commits = (loc q).commits :=
    forall_update (P := fun q m => m.commits = (loc q).commits) (fun _ => rfl) (by rw [hl]; rfl)
  have hn' : 0 ≤ (addBlock t.log.lh b).n := by
    rw [addBlock]
    simp only
    split <;> omega
  refine ⟨hn', ?_, h.quiet, ?_, ?_, ?_, ?_, fun _ h0 => absurd h0 hpos, ?_, ?_, ?_, h.grouped⟩
  · rw [total_update_same (hops.symm : Loc.ops (.written _) = _)]
    exact h.count
  · intro q hq
    rw [hcom] at hq
    exact h.committing q hq
  · intro q r hq hr
    rw [hcom] at hq hr
    exact h.unique q r hq hr
  · intro q hq
    have hcq := Loc.commits_of_cleared hq
    rw [hcom] at hcq
    exact absurd (hnc.symm.trans (h.committing q hcq)) Bool.false_ne_true
  · intro q hq
    have hcq := Loc.commits_of_committed hq
    rw [hcom] at hcq
    exact absurd (hnc.symm.trans (h.committing q hcq)) Bool.false_ne_true
  · refine forall_update (P := fun _ m => ∀ c ∈ m.blocks, c ∈ (addBlock t.log.lh b).blocks)
      (fun q c hc => (mem_addBlock hn).2 (.inl (h.logged q c hc))) fun c hc => ?_
    rw [mem_addBlock hn]
    rcases List.mem_insert_iff.1 hc with rfl | hc
    · exact .inr rfl
    · exact .inl (h.logged p c (by rw [hl]; exact hc))
  · intro c hc
    rw [mem_addBlock hn]
    rcases List.mem_cons.1 hc with rfl | hc
    · exact .inr rfl
    · exact .inl (h.since c hc)
  · exact forall_update (P := fun q m => isOpen q t.hist = decide (m.ops = 1)) h.opened
      (by rw [h.opened p, hops]; rfl)

/-- `end_op` ends an operation, and starts a commit if it was the last one. -/
theorem Ok.finish (h : Ok loc t) {bs : List Nat} (hl : loc p = .endDec bs)
    (hnc : t.log.committing = false) {l : Loc} {c : Bool} (hlo : l.ops = 0) (hlc : l.commits = c)
    (hld : l.cleared = false) (hlm : l.committed = false)
    (hc : c = true ↔ t.log.outstanding - 1 = 0) :
    Ok (Function.update loc p l)
      { log := { t.log with outstanding := t.log.outstanding - 1, committing := c },
        hist := .endOp p :: t.hist } := by
  have hops : (loc p).ops = 1 := by rw [hl]; rfl
  have hno : ∀ q, (loc q).commits = false := by
    intro q
    by_contra hq
    exact Bool.false_ne_true
      (hnc.symm.trans (h.committing q (Bool.eq_true_of_not_eq_false hq)))
  have hself : ∀ q, (Function.update loc p l q).commits = true → q = p ∧ c = true := by
    intro q hq
    by_cases hqp : q = p
    · rw [hqp, Function.update_self, hlc] at hq
      exact ⟨hqp, hq⟩
    · rw [Function.update_of_ne hqp, hno q] at hq
      cases hq
  refine ⟨h.n_nonneg, ?_, fun h' => hc.1 h', fun q hq => (hself q hq).2,
    fun q r hq hr => (hself q hq).1.trans (hself r hr).1.symm, ?_, ?_, fun h' h0 => ?_, ?_,
    h.since, ?_, h.grouped⟩
  · have := total_update Loc.ops loc p l
    have := h.count
    simp only
    omega
  · exact forall_update (P := fun _ m => m.cleared = true → t.log.lh.n = 0) h.cleared
      fun h => absurd (hld.symm.trans h) Bool.false_ne_true
  · exact forall_update (P := fun _ m => m.committed = true → GroupCommit.since t.hist = [])
      h.committed fun h => absurd (hlm.symm.trans h) Bool.false_ne_true
  · rw [hc.2 h0] at h'
    cases h'
  · refine forall_update (P := fun _ m => ∀ b ∈ m.blocks, b ∈ t.log.lh.blocks) h.logged ?_
    rw [Loc.blocks_of_ops hlo]
    exact nofun
  · intro q
    rw [isOpen]
    by_cases hq : p = q
    · rw [if_pos hq, ← hq, Function.update_self, hlo]; rfl
    · rw [if_neg hq, Function.update_of_ne fun h => hq h.symm]; exact h.opened q

/-- `write_head` commits what the header lists. -/
theorem Ok.commit (h : Ok loc t) (hl : loc p = .writeHead) :
    Ok (Function.update loc p (.install 0))
      { t with hist := .commit t.log.lh.blocks :: t.hist } := by
  have hc := h.committing p (by rw [hl]; rfl)
  have hops : ∀ q, (Function.update loc p (.install 0) q).ops = (loc q).ops :=
    forall_update (P := fun q m => m.ops = (loc q).ops) (fun _ => rfl) (by rw [hl]; rfl)
  have hcom : ∀ q, (Function.update loc p (.install 0) q).commits = (loc q).commits :=
    forall_update (P := fun q m => m.commits = (loc q).commits) (fun _ => rfl) (by rw [hl]; rfl)
  refine ⟨h.n_nonneg, ?_, h.quiet, ?_, ?_, ?_, fun _ _ => rfl, h.empty, ?_, nofun, ?_,
    fun q => ?_, h.since, h.grouped⟩
  · rw [total_update_same (by rw [hl]; rfl)]; exact h.count
  · intro q hq
    rw [hcom] at hq
    exact h.committing q hq
  · intro q r hq hr
    rw [hcom] at hq hr
    exact h.unique q r hq hr
  · exact forall_update (P := fun _ m => m.cleared = true → t.log.lh.n = 0) h.cleared nofun
  · exact forall_update (P := fun _ m => ∀ b ∈ m.blocks, b ∈ t.log.lh.blocks) h.logged nofun
  · intro q
    rw [hops]
    exact h.opened q
  · rw [h.opened q, h.ops_eq_zero hc q]
    rfl

/-- `commit` empties the header. -/
theorem Ok.clear (h : Ok loc t) (hl : loc p = .clear) :
    Ok (Function.update loc p .eraseHead)
      { t with log := { t.log with lh := t.log.lh.cleared } } := by
  have hc := h.committing p (by rw [hl]; rfl)
  have hs := h.committed p (by rw [hl]; rfl)
  have hops : ∀ q, (Function.update loc p .eraseHead q).ops = 0 :=
    forall_update (P := fun _ m => m.ops = 0) (h.ops_eq_zero hc) rfl
  have hcom : ∀ q, (Function.update loc p .eraseHead q).commits = (loc q).commits :=
    forall_update (P := fun q m => m.commits = (loc q).commits) (fun _ => rfl) (by rw [hl]; rfl)
  refine ⟨Int.le_refl 0, ?_, h.quiet, ?_, ?_, fun _ _ => rfl, fun _ _ => hs, fun _ _ => rfl, ?_,
    ?_, ?_, h.grouped⟩
  · rw [total_eq_zero hops]
    exact h.quiet hc
  · intro q hq
    rw [hcom] at hq
    exact h.committing q hq
  · intro q r hq hr
    rw [hcom] at hq hr
    exact h.unique q r hq hr
  · intro q b hb
    rw [Loc.blocks_of_ops (hops q)] at hb
    cases hb
  · intro b hb
    rw [hs] at hb
    cases hb
  · intro q
    rw [hops q, h.opened q, h.ops_eq_zero hc q]

/-- `end_op` clears `committing` after its commit. -/
theorem Ok.reset (h : Ok loc t) (hl : loc p = .reset) :
    Ok (Function.update loc p .wake)
      { t with log := { t.log with committing := false } } := by
  have hn := h.cleared p (by rw [hl]; rfl)
  have hno : ∀ q, (Function.update loc p .wake q).commits = false := by
    intro q
    by_cases hq : q = p
    · rw [hq, Function.update_self]; rfl
    · rw [Function.update_of_ne hq]
      by_contra hc
      exact hq (h.unique q p (Bool.eq_true_of_not_eq_false hc) (by rw [hl]; rfl))
  refine ⟨h.n_nonneg, ?_, nofun, fun q hq => ?_, fun q r hq _ => ?_, fun _ _ => hn, ?_,
    fun _ _ => hn, ?_, h.since, ?_, h.grouped⟩
  · rw [total_update_same (by rw [hl]; rfl)]; exact h.count
  · rw [hno] at hq; cases hq
  · rw [hno] at hq; cases hq
  · exact forall_update (P := fun _ m => m.committed = true → GroupCommit.since t.hist = [])
      h.committed nofun
  · exact forall_update (P := fun _ m => ∀ b ∈ m.blocks, b ∈ t.log.lh.blocks) h.logged nofun
  · exact forall_update (P := fun q m => isOpen q t.hist = decide (m.ops = 1)) h.opened
      (by rw [h.opened p, hl]; rfl)

/-- Every act of the code keeps the invariant. -/
theorem Ok.act (h : Ok loc t) {i : Call n} {a : Act n Unit (Shared n) Loc}
    (ha : code p (loc p) t i = some a) :
    Ok (Function.update loc p (a.next t (loc p)).2) (a.next t (loc p)).1 := by
  have hlog := h.logged p
  have hcl := h.cleared p
  have hcm := h.committed p
  cases hl : loc p with
  | user =>
    rw [hl] at ha
    cases i with
    | beginOp => cases ha; exact h.goto (by rw [hl]; rfl) (by rw [hl]; rfl) nofun nofun nofun
    | kill q => cases ha; exact h.goto (by rw [hl]; rfl) (by rw [hl]; rfl) nofun nofun nofun
    | _ => cases ha
  | beginLoop =>
    rw [hl, code] at ha
    split at ha
    · cases ha; exact h.goto (by rw [hl]; rfl) (by rw [hl]; rfl) nofun nofun nofun
    · next hc =>
      split at ha
      · cases ha; exact h.goto (by rw [hl]; rfl) (by rw [hl]; rfl) nofun nofun nofun
      · cases ha; exact h.admit hl (Bool.eq_false_of_not_eq_true hc)
  | op bs =>
    rw [hl] at ha hlog
    cases i with
    | logWrite b => cases ha; exact h.goto (by rw [hl]; rfl) (by rw [hl]; rfl) nofun nofun hlog
    | endOp => cases ha; exact h.goto (by rw [hl]; rfl) (by rw [hl]; rfl) nofun nofun hlog
    | kill q => cases ha; exact h.goto (by rw [hl]; rfl) (by rw [hl]; rfl) nofun nofun hlog
    | beginOp => cases ha
  | write b bs =>
    rw [hl, code] at ha
    rw [hl] at hlog
    split at ha
    · cases ha; exact h.goto (by rw [hl]; rfl) (by rw [hl]; rfl) nofun nofun hlog
    · split at ha
      · cases ha; exact h.goto (by rw [hl]; rfl) (by rw [hl]; rfl) nofun nofun hlog
      · cases ha; exact h.write hl
  | endDec bs =>
    rw [hl, code] at ha
    rw [hl] at hlog
    split at ha
    · cases ha; exact h.goto (by rw [hl]; rfl) (by rw [hl]; rfl) nofun nofun hlog
    · next hc =>
      have hc' := Bool.eq_false_of_not_eq_true hc
      split at ha
      · next h0 => cases ha; exact h.finish hl hc' rfl rfl rfl rfl ⟨fun _ => h0, fun _ => rfl⟩
      · next h0 =>
        cases ha
        have := h.finish (l := .endWake) (c := false) hl hc' rfl rfl rfl rfl
          ⟨nofun, fun h => absurd h h0⟩
        rw [← hc'] at this
        exact this
  | endRel doCommit =>
    rw [hl] at ha
    cases ha
    cases doCommit
    · exact h.goto (by rw [hl]; rfl) (by rw [hl]; rfl) nofun nofun nofun
    · exact h.goto (by rw [hl]; rfl) (by rw [hl]; rfl) nofun nofun nofun
  | commit =>
    rw [hl] at ha
    cases ha
    rw [Act.next]
    by_cases hn : t.log.lh.n > 0
    · rw [if_pos hn]
      exact h.goto (by rw [hl]; rfl) (by rw [hl]; rfl) nofun nofun nofun
    · rw [if_neg hn]
      have := h.n_nonneg
      exact h.goto (by rw [hl]; rfl) (by rw [hl]; rfl) (fun _ => by omega) nofun nofun
  | writeLog tail =>
    rw [hl] at ha
    cases ha
    rw [Act.next]
    split
    · exact h.goto (by rw [hl]; rfl) (by rw [hl]; rfl) nofun nofun nofun
    · exact h.goto (by rw [hl]; rfl) (by rw [hl]; rfl) nofun nofun nofun
  | writeHead => rw [hl] at ha; cases ha; exact h.commit hl
  | install tail =>
    rw [hl] at ha hcm
    cases ha
    rw [Act.next]
    split
    · exact h.goto (by rw [hl]; rfl) (by rw [hl]; rfl) nofun (fun _ => hcm rfl) nofun
    · exact h.goto (by rw [hl]; rfl) (by rw [hl]; rfl) nofun (fun _ => hcm rfl) nofun
  | clear => rw [hl] at ha; cases ha; exact h.clear hl
  | reset => rw [hl] at ha; cases ha; exact h.reset hl
  | eraseHead =>
    rw [hl] at ha hcl
    cases ha
    exact h.goto (by rw [hl]; rfl) (by rw [hl]; rfl) (fun _ => hcl rfl) nofun nofun
  | relock =>
    rw [hl] at ha hcl
    cases ha
    exact h.goto (by rw [hl]; rfl) (by rw [hl]; rfl) (fun _ => hcl rfl) nofun nofun
  | written bs =>
    rw [hl] at ha hlog
    cases ha
    exact h.goto (by rw [hl]; rfl) (by rw [hl]; rfl) nofun nofun hlog
  | _ =>
    rw [hl] at ha
    cases ha
    exact h.goto (by rw [hl]; rfl) (by rw [hl]; rfl) nofun nofun nofun

/-! ## No lost wakeup -/

/-- A process must not stay asleep on a log that is not committing and has room for another
operation. -/
def wake (_ : Unit) (t : Shared n) : Prop :=
  t.log.committing = false ∧ t.log.lh.n + (t.log.outstanding + 1) * MAXOPBLOCKS ≤ LOGSIZE

/-- `end_op` is still to wake the sleepers after making room, and after its commit. -/
def owes (l : Loc) (_ : Unit) : Prop := l = .endWake ∨ l = .wake

theorem n_le_addBlock (lh : LogHeader) (b : Nat) : lh.n ≤ (addBlock lh b).n := by
  rw [addBlock]
  simp only
  split <;> omega

theorem pays (h : Ok loc t) {i : Call n} {a : Act n Unit (Shared n) Loc}
    (ha : code p (loc p) t i = some a) : a.Pays inside wake owes t (loc p) := by
  -- an act that leaves the log alone, at a point where nothing is owed
  have hsame : ∀ {t' : Shared n} {l l' : Loc}, ¬ owes l () → (wake () t' → wake () t) →
      (Act.update t' l' : Act n Unit (Shared n) Loc).Pays inside wake owes t l := by
    intro t' l l' hno hw c hwc
    split
    · exact .inr ⟨hw hwc, hno⟩
    · exact hw hwc
  cases hl : loc p with
  | user =>
    rw [hl] at ha
    cases i with
    | beginOp => cases ha; trivial
    | kill q => cases ha; exact fun c ho => by rcases ho with ho | ho <;> cases ho
    | _ => cases ha
  | beginLoop =>
    rw [hl, code] at ha
    have hno : ∀ c, ¬ owes .beginLoop c := fun c ho => by rcases ho with ho | ho <;> cases ho
    split at ha
    · next hc =>
      cases ha
      exact ⟨fun hw => Bool.false_ne_true (hw.1.symm.trans hc), fun c ho => absurd ho (hno c)⟩
    · split at ha
      · next hfull =>
        cases ha
        exact ⟨fun hw => absurd hw.2 (Int.not_le.2 hfull), fun c ho => absurd ho (hno c)⟩
      · cases ha
        refine hsame (hno ()) fun hw => ⟨hw.1, ?_⟩
        have := hw.2
        simp only at this
        rw [MAXOPBLOCKS] at this ⊢
        omega
  | begun => rw [hl] at ha; cases ha; exact fun c ho => by rcases ho with ho | ho <;> cases ho
  | op bs =>
    rw [hl] at ha
    cases i with
    | kill q => cases ha; exact fun c ho => by rcases ho with ho | ho <;> cases ho
    | logWrite b => cases ha; trivial
    | endOp => cases ha; trivial
    | beginOp => cases ha
  | write b bs =>
    rw [hl, code] at ha
    split at ha
    · cases ha; trivial
    · split at ha
      · cases ha; trivial
      · cases ha
        refine hsame (fun ho => by rcases ho with ho | ho <;> cases ho) fun hw => ⟨hw.1, ?_⟩
        have h1 := hw.2
        have h2 := n_le_addBlock t.log.lh b
        simp only at h1
        omega
  | written bs => rw [hl] at ha; cases ha; exact fun c ho => by rcases ho with ho | ho <;> cases ho
  | endDec bs =>
    rw [hl, code] at ha
    split at ha
    · cases ha; trivial
    · split at ha
      · cases ha; exact fun c hw => by cases hw.1
      · cases ha; exact fun c _ => .inl (.inl rfl)
  | endWake => rw [hl] at ha; cases ha; exact fun c hc => absurd rfl hc
  | endRel doCommit =>
    rw [hl] at ha
    cases ha
    exact fun c ho => by rcases ho with ho | ho <;> cases ho
  | clear =>
    -- the header is emptied while `committing` is set
    have hc := h.committing p (by rw [hl]; rfl)
    rw [hl] at ha
    cases ha
    exact hsame (fun ho => by rcases ho with ho | ho <;> cases ho)
      fun hw => absurd (hw.1.symm.trans hc) Bool.false_ne_true
  | relock => rw [hl] at ha; cases ha; trivial
  | reset => rw [hl] at ha; cases ha; exact fun c _ => .inl (.inr rfl)
  | wake => rw [hl] at ha; cases ha; exact fun c hc => absurd rfl hc
  | done => rw [hl] at ha; cases ha; exact fun c ho => by rcases ho with ho | ho <;> cases ho
  | _ =>
    rw [hl] at ha
    cases ha
    exact hsame (fun ho => by rcases ho with ho | ho <;> cases ho) fun hw => hw

/-- While `committing` is set, no step logs a block or changes the header, but for the
`log.lh.n = 0` of the commit itself. -/
theorem Ok.frozen (h : Ok loc t) (hc : t.log.committing = true) {i : Call n}
    {a : Act n Unit (Shared n) Loc} (ha : code p (loc p) t i = some a) :
    ((a.next t (loc p)).1.log.lh = t.log.lh ∨
        (loc p = .clear ∧ (a.next t (loc p)).1.log.lh = t.log.lh.cleared)) ∧
      ∀ q b, (a.next t (loc p)).1.hist ≠ .logWrite q b :: t.hist := by
  have hops := h.ops_eq_zero hc p
  have hsame : ∀ q b, t.hist ≠ .logWrite q b :: t.hist := fun q b he =>
    absurd (congrArg List.length he) (Nat.ne_of_lt (Nat.lt_succ_self _))
  cases hl : loc p with
  | user =>
    rw [hl] at ha
    cases i with
    | beginOp => cases ha; exact ⟨.inl rfl, hsame⟩
    | kill q => cases ha; exact ⟨.inl rfl, hsame⟩
    | _ => cases ha
  | beginLoop =>
    rw [hl, code, if_pos hc] at ha
    cases ha
    exact ⟨.inl rfl, hsame⟩
  | op bs => rw [hl] at hops; cases hops
  | write b bs => rw [hl] at hops; cases hops
  | endDec bs => rw [hl] at hops; cases hops
  | writeHead =>
    rw [hl] at ha
    cases ha
    exact ⟨.inl rfl, fun q b he => by cases he⟩
  | clear => rw [hl] at ha; cases ha; exact ⟨.inr ⟨rfl, rfl⟩, hsame⟩
  | _ => rw [hl] at ha; cases ha; exact ⟨.inl rfl, hsame⟩

/-- `panic("log.committing")` is not reached. -/
theorem Ok.not_panic (h : Ok loc t) {i : Call n} :
    code p (loc p) t i ≠ some (.panic "log.committing") := by
  intro ha
  cases hl : loc p with
  | user => rw [hl] at ha; cases i <;> cases ha
  | op bs => rw [hl] at ha; cases i <;> cases ha
  | beginLoop =>
    rw [hl, code] at ha
    split at ha
    · cases ha
    · split at ha <;> cases ha
  | write b bs =>
    rw [hl, code] at ha
    split at ha
    · exact absurd (Act.panic.inj (Option.some.inj ha)) (by decide)
    · split at ha
      · exact absurd (Act.panic.inj (Option.some.inj ha)) (by decide)
      · cases ha
  | endDec bs =>
    rw [hl, code] at ha
    split at ha
    · next hc =>
      have hops := h.ops_eq_zero hc p
      rw [hl] at hops
      cases hops
    · split at ha <;> cases ha
  | _ => rw [hl] at ha; cases ha

end Invariant

theorem code_ne_killed {n : Nat} {p : Fin n} {l : Loc} {t : Shared n} {i : Call n}
    {k : Bool → Loc} : code p l t i ≠ some (.killed k) := by
  intro ha
  cases l with
  | user => cases i <;> cases ha
  | op bs => cases i <;> cases ha
  | beginLoop =>
    rw [code] at ha
    split at ha
    · cases ha
    · split at ha <;> cases ha
  | write b bs =>
    rw [code] at ha
    split at ha
    · cases ha
    · split at ha <;> cases ha
  | endDec bs =>
    rw [code] at ha
    split at ha
    · cases ha
    · split at ha <;> cases ha
  | _ => cases ha

/-! ## Runs -/

section Runs

variable {n nlog : Nat} {s s' : Machine n}

/-- The invariant of the log and its processes. -/
structure LogInv (s : Machine n) : Prop where
  locks : Monitor.Inv code inside s
  ok : Ok s.loc s.shared
  noLost : NoLost wake owes s
  halted : s.halted ≠ some "log.committing"

theorem LogInv.step (h : LogInv s) {p : Fin n} {i : Call n} (hm : Move code s p i s') :
    LogInv s' := by
  refine ⟨h.locks.step disciplined hm, ?_, ?_, fun hh => ?_⟩
  · cases hm.effect h.locks with
    | quiet hs hl => rw [hs, hl]; exact h.ok
    | act hpc ha hs hl => rw [hs, hl]; exact h.ok.act ha
    | answer hpc ha hs hl => exact absurd ha code_ne_killed
  · refine h.noLost.step disciplined h.locks (fun l a hpc ha => ?_)
      (fun _ _ _ _ _ ha => absurd ha code_ne_killed) hm
    have hl : s.loc p = l := by rw [State.loc, hpc]; rfl
    subst hl
    exact pays h.ok ha
  · rcases hm.halted hh with hh | ⟨-, ha⟩
    · exact h.halted hh
    · exact h.ok.not_panic ha

theorem logInv_boot : LogInv (boot n nlog) := by
  refine ⟨inv_start fun _ => rfl, ?_, noLost_start, nofun⟩
  refine ⟨Int.le_refl 0, ?_, nofun, nofun, nofun, nofun, nofun, fun _ _ => rfl, nofun, nofun,
    fun _ => rfl, trivial⟩
  exact (congrArg Nat.cast (total_eq_zero fun _ => rfl)).symm

theorem LogInv.of_reach {ok : Machine n → Fin n → Call n → Prop}
    (h : Reach code ok (boot n nlog) s) : LogInv s :=
  h.induct (J := LogInv) logInv_boot fun _ _ _ _ hs _ _ hm => hs.step hm

/-- **Group commit.**  In every state that any number of processes reach by running `begin_op`,
`log_write`, `end_op` and `commit` side by side:

* while `committing` is set, `outstanding` is 0, no process logs a block and none changes the
  header, but for the one process in `commit`, which empties it after installing the transaction;
* `panic("log.committing")` has not been reached;
* no commit falls between the `begin_op` and the `end_op` of an operation, and the first commit
  after it commits every block the operation logged; while no operation is outstanding and no
  commit is running, every block logged has been committed;
* while `log.lock` is free and `committing` is 0, a process asleep on the log has no room. -/
theorem group_commit (h : Reach code anyStep (boot n nlog) s) :
    (s.shared.log.committing = true → s.shared.log.outstanding = 0 ∧
      ∀ p i s', step code s p i = some s' →
        (s'.shared.log.lh = s.shared.log.lh ∨
          (s.loc p = .clear ∧ s'.shared.log.lh = s.shared.log.lh.cleared)) ∧
        ∀ q b, s'.shared.hist ≠ .logWrite q b :: s.shared.hist) ∧
    (∀ p q, (s.loc p).commits = true → (s.loc q).commits = true → p = q) ∧
    s.halted ≠ some "log.committing" ∧
    (∀ post mid pre p, s.shared.hist = post ++ .endOp p :: (mid ++ .beginOp p :: pre) →
      .endOp p ∉ mid → (∀ bs, .commit bs ∉ mid) ∧
        ∀ post₁ bs post₂, post = post₁ ++ .commit bs :: post₂ → (∀ cs, .commit cs ∉ post₂) →
          ∀ b, .logWrite p b ∈ mid → b ∈ bs) ∧
    (s.shared.log.committing = false → s.shared.log.outstanding = 0 →
      ∀ post p b pre, s.shared.hist = post ++ .logWrite p b :: pre → ∃ bs, .commit bs ∈ post) ∧
    (s.lock = none → s.shared.log.committing = false →
      ∀ q, s.state q = .sleeping ∧ s.chan q = some () →
        ¬ s.shared.log.lh.n + (s.shared.log.outstanding + 1) * MAXOPBLOCKS ≤ LOGSIZE) := by
  have hi := LogInv.of_reach h
  have ho := hi.ok
  refine ⟨fun hc => ⟨ho.quiet hc, fun p i s' hs => ?_⟩, ho.unique, hi.halted, ?_, ?_, ?_⟩
  · have hsame : ∀ q b, s.shared.hist ≠ .logWrite q b :: s.shared.hist := fun q b he =>
      absurd (congrArg List.length he) (Nat.ne_of_lt (Nat.lt_succ_self _))
    cases (step_move hs).2.effect hi.locks with
    | quiet hsh hl => rw [hsh]; exact ⟨.inl rfl, hsame⟩
    | act hpc ha hsh hl => rw [hsh]; exact ho.frozen hc ha
    | answer hpc ha hsh hl => exact absurd ha code_ne_killed
  · intro post mid pre p he hmid
    have hg := ho.grouped
    rw [he] at hg
    exact hg.same_commit hmid
  · intro hc h0 post p b pre he
    have hnil : since s.shared.hist = [] := by
      refine List.eq_nil_iff_forall_not_mem.2 fun c hm => ?_
      have hb := ho.since c hm
      rw [LogHeader.blocks, ho.empty hc h0] at hb
      cases hb
    rw [he] at hnil
    exact exists_commit_of_since_nil hnil
  · intro hl hc q hq hroom
    exact hi.noLost.not_sleeping hl ⟨hc, hroom⟩ hq

/-- The schedule in which one process logs block 5 in an operation and runs its commit up to
`log.lh.n = 0`. -/
def toClear : List (Fin 1 × Call 1) :=
  List.replicate 3 (0, Call.beginOp) ++ List.replicate 3 (0, Call.logWrite 5) ++
    List.replicate 9 (0, Call.endOp)

/-- The commit itself changes the header while `committing` is set. -/
theorem commit_clears_head : ∃ s s' : Machine 1, run code anyStep toClear (boot 1 LOGSIZE) = some s ∧
    s.shared.log.committing = true ∧ step code s 0 .endOp = some s' ∧
    s.shared.log.lh.n = 1 ∧ s'.shared.log.lh.n = 0 :=
  ⟨_, _, rfl, rfl, rfl, rfl, rfl⟩

theorem group_commit_toClear : ∃ s : Machine 1,
    run code anyStep toClear (boot 1 LOGSIZE) = some s ∧ s.shared.log.committing = true ∧
      s.shared.log.outstanding = 0 ∧ s.halted ≠ some "log.committing" := by
  have h : run code anyStep toClear (boot 1 LOGSIZE) = some _ := rfl
  have hg := group_commit (reach_run h)
  exact ⟨_, h, rfl, (hg.1 rfl).1, hg.2.2.1⟩

end Runs

/-! ## Room in the log

`begin_op` reserves `MAXOPBLOCKS` blocks for each operation out of `LOGSIZE`, but of the
`LOGSIZE` blocks that `mkfs` gives the log one is the header, and `log_write` looks whether there is
room for a block before it looks whether the block is listed already. -/

section Room

variable {n : Nat} {s s' : Machine n} {loc : Fin n → Loc} {t : Shared n} {p : Fin n}

/-- The blocks an operation has logged with the one it is about to log. -/
def Loc.logs : Loc → List Nat
  | .write b bs => bs.insert b
  | _ => []

/-- No operation logs more than `w` distinct blocks. -/
def AtMost (w : Nat) (s : Machine n) (p : Fin n) (_ : Call n) : Prop := (s.loc p).logs.length ≤ w

instance (w : Nat) (s : Machine n) (p : Fin n) (i : Call n) : Decidable (AtMost w s p i) :=
  inferInstanceAs (Decidable (_ ≤ _))

/-- The blocks an operation may still log, of the `MAXOPBLOCKS - 1` it is allowed. -/
def Loc.spare (l : Loc) : Nat := l.ops * (MAXOPBLOCKS - 1 - l.blocks.length)

/-- What is listed and what may still be listed leaves two of the `LOGSIZE` blocks free. -/
structure Room (loc : Fin n → Loc) (t : Shared n) : Prop where
  size : t.log.size = LOGSIZE
  room : t.log.lh.n + total Loc.spare loc ≤ LOGSIZE - 2

theorem spare_le (l : Loc) : l.spare ≤ (MAXOPBLOCKS - 1) * l.ops := by
  rw [Loc.spare, Nat.mul_comm]
  exact Nat.mul_le_mul_right _ (Nat.sub_le _ _)

/-- A process moves without a change to the log or to what it may still log. -/
theorem Room.goto (h : Room loc t) {l : Loc} (hl : l.spare ≤ (loc p).spare) {t' : Shared n}
    (hs : t'.log.size = t.log.size) (hn : t'.log.lh.n ≤ t.log.lh.n) :
    Room (Function.update loc p l) t' := by
  have h1 := total_update Loc.spare loc p l
  have h2 := h.room
  exact ⟨hs.trans h.size, by omega⟩

theorem Room.admit (h : Room loc t) (ho : Ok loc t) (hl : loc p = .beginLoop)
    (hc : t.log.committing = false)
    (hroom : t.log.lh.n + (t.log.outstanding + 1) * MAXOPBLOCKS ≤ LOGSIZE) :
    Room (Function.update loc p .begun)
      { log := { t.log with outstanding := t.log.outstanding + 1 },
        hist := .beginOp p :: t.hist } := by
  have h1 := total_update Loc.spare loc p .begun
  have h2 := total_le_mul spare_le loc
  have h3 := ho.count
  have h4 := ho.empty hc
  have hp : (loc p).spare = 0 := by rw [hl]; rfl
  have hb : Loc.begun.spare = 9 := rfl
  rw [MAXOPBLOCKS] at h2 hroom
  refine ⟨h.size, ?_⟩
  have hL : LOGSIZE = 30 := rfl
  simp only
  omega

theorem Room.write (h : Room loc t) (ho : Ok loc t) {b : Nat} {bs : List Nat}
    (hl : loc p = .write b bs) (hw : (bs.insert b).length ≤ MAXOPBLOCKS - 1) :
    Room (Function.update loc p (.written (bs.insert b)))
      { log := { t.log with lh := addBlock t.log.lh b }, hist := .logWrite p b :: t.hist } := by
  have hn := ho.n_nonneg
  by_cases hb : b ∈ bs
  · -- listed already, so nothing is added
    have hmem : b ∈ t.log.lh.blocks := ho.logged p b (by rw [hl]; exact hb)
    refine h.goto ?_ rfl ?_
    · rw [List.insert_of_mem hb, hl]
      exact Nat.le_refl _
    · rw [addBlock_eq hn]
      exact le_of_eq (congrArg LogHeader.n (if_pos hmem))
  · have h1 := total_update Loc.spare loc p (.written (bs.insert b))
    have h2 := h.room
    have hs : (loc p).spare = (Loc.written (bs.insert b)).spare + 1 := by
      rw [List.insert_of_not_mem hb] at hw ⊢
      rw [hl]
      simp only [Loc.spare, Loc.ops, Loc.blocks, List.length_cons] at hw ⊢
      omega
    have hadd : (addBlock t.log.lh b).n ≤ t.log.lh.n + 1 := by
      rw [addBlock]
      simp only
      split <;> omega
    exact ⟨h.size, by simp only; omega⟩

/-- Every act of an operation that logs fewer than `MAXOPBLOCKS` blocks leaves the room. -/
theorem Room.act (h : Room loc t) (ho : Ok loc t)
    (hw : (loc p).logs.length ≤ MAXOPBLOCKS - 1) {i : Call n} {a : Act n Unit (Shared n) Loc}
    (ha : code p (loc p) t i = some a) :
    Room (Function.update loc p (a.next t (loc p)).2) (a.next t (loc p)).1 := by
  have hle : ∀ {l : Loc}, l.spare = 0 → l.spare ≤ (loc p).spare := fun h => by omega
  cases hl : loc p with
  | user =>
    rw [hl] at ha
    cases i with
    | beginOp => cases ha; exact h.goto (hle rfl) rfl (Int.le_refl _)
    | kill q => cases ha; exact h.goto (hle rfl) rfl (Int.le_refl _)
    | _ => cases ha
  | beginLoop =>
    rw [hl, code] at ha
    split at ha
    · cases ha; exact h.goto (hle rfl) rfl (Int.le_refl _)
    · next hc =>
      split at ha
      · cases ha; exact h.goto (hle rfl) rfl (Int.le_refl _)
      · next hroom =>
        cases ha
        exact h.admit ho hl (Bool.eq_false_of_not_eq_true hc) (Int.not_lt.1 hroom)
  | begun => rw [hl] at ha; cases ha; exact h.goto (by rw [hl]; rfl) rfl (Int.le_refl _)
  | op bs =>
    rw [hl] at ha
    cases i with
    | logWrite b => cases ha; exact h.goto (by rw [hl]; exact Nat.le_refl _) rfl (Int.le_refl _)
    | endOp => cases ha; exact h.goto (by rw [hl]; exact Nat.le_refl _) rfl (Int.le_refl _)
    | kill q => cases ha; exact h.goto (by rw [hl]; exact Nat.le_refl _) rfl (Int.le_refl _)
    | beginOp => cases ha
  | write b bs =>
    rw [hl] at hw
    rw [hl, code] at ha
    split at ha
    · cases ha; exact h.goto (by rw [hl]; exact Nat.le_refl _) rfl (Int.le_refl _)
    · split at ha
      · cases ha; exact h.goto (by rw [hl]; exact Nat.le_refl _) rfl (Int.le_refl _)
      · cases ha; exact h.write ho hl hw
  | written bs =>
    rw [hl] at ha; cases ha; exact h.goto (by rw [hl]; exact Nat.le_refl _) rfl (Int.le_refl _)
  | endDec bs =>
    rw [hl, code] at ha
    split at ha
    · cases ha; exact h.goto (by rw [hl]; exact Nat.le_refl _) rfl (Int.le_refl _)
    · split at ha <;> cases ha <;> exact h.goto (hle rfl) rfl (Int.le_refl _)
  | clear => rw [hl] at ha; cases ha; exact h.goto (hle rfl) rfl ho.n_nonneg
  | endRel doCommit =>
    rw [hl] at ha
    cases ha
    cases doCommit <;> exact h.goto (hle rfl) rfl (Int.le_refl _)
  | commit =>
    rw [hl] at ha
    cases ha
    rw [Act.next]
    split <;> exact h.goto (hle rfl) rfl (Int.le_refl _)
  | writeLog tail =>
    rw [hl] at ha
    cases ha
    rw [Act.next]
    split <;> exact h.goto (hle rfl) rfl (Int.le_refl _)
  | install tail =>
    rw [hl] at ha
    cases ha
    rw [Act.next]
    split <;> exact h.goto (hle rfl) rfl (Int.le_refl _)
  | _ => rw [hl] at ha; cases ha; exact h.goto (hle rfl) rfl (Int.le_refl _)

/-- Where the room is left, `panic("too big a transaction")` is not reached. -/
theorem Room.not_panic (h : Room loc t) {i : Call n} :
    code p (loc p) t i ≠ some (.panic "too big a transaction") := by
  intro ha
  have h1 := h.room
  have h2 := h.size
  have hL : LOGSIZE = 30 := rfl
  cases hl : loc p with
  | user => rw [hl] at ha; cases i <;> cases ha
  | op bs => rw [hl] at ha; cases i <;> cases ha
  | beginLoop =>
    rw [hl, code] at ha
    split at ha
    · cases ha
    · split at ha <;> cases ha
  | write b bs =>
    rw [hl, code] at ha
    split at ha
    · omega
    · split at ha
      · exact absurd (Act.panic.inj (Option.some.inj ha)) (by decide)
      · cases ha
  | endDec bs =>
    rw [hl, code] at ha
    split at ha
    · exact absurd (Act.panic.inj (Option.some.inj ha)) (by decide)
    · split at ha <;> cases ha
  | _ => rw [hl] at ha; cases ha

/-- **Admission control.**  On the layout `mkfs` produces, if each operation logs at most
`MAXOPBLOCKS - 1` distinct blocks, then in no interleaving of any number of processes does
`log_write` panic for want of log space. -/
theorem log_room (h : Reach code (AtMost (MAXOPBLOCKS - 1)) (boot n LOGSIZE) s) :
    s.halted ≠ some "too big a transaction" := by
  refine (h.induct (J := fun s => (LogInv s ∧ Room s.loc s.shared) ∧
    s.halted ≠ some "too big a transaction") ⟨⟨logInv_boot, rfl, ?_⟩, nofun⟩ ?_).2
  · have h0 : total Loc.spare (fun _ : Fin n => Loc.user) = 0 := total_eq_zero fun _ => rfl
    show (0 : Int) + (total Loc.spare (fun _ : Fin n => Loc.user) : Nat) ≤ LOGSIZE - 2
    rw [h0]
    decide
  · rintro s p i s' ⟨⟨hi, hr⟩, hh⟩ hw - hm
    refine ⟨⟨hi.step hm, ?_⟩, fun hh' => ?_⟩
    · cases hm.effect hi.locks with
      | quiet hs hl => rw [hs, hl]; exact hr
      | act hpc ha hs hl => rw [hs, hl]; exact hr.act hi.ok hw ha
      | answer hpc ha hs hl => exact absurd ha code_ne_killed
    · rcases hm.halted hh' with hh' | ⟨-, ha⟩
      · exact hh hh'
      · exact hr.not_panic ha

/-- Process `p` logs the blocks `b`, ..., `b + k - 1`. -/
def logBlocks (p : Fin n) (b k : Nat) : List (Fin n × Call n) :=
  (List.range k).flatMap fun j => List.replicate 3 (p, .logWrite (b + j))

/-- Three operations begin, and log `k` blocks each. -/
def logEach (k : Nat) : List (Fin 3 × Call 3) :=
  (List.finRange 3).flatMap (fun p => List.replicate 3 (p, Call.beginOp)) ++
    (List.finRange 3).flatMap fun p => logBlocks p (100 * (p + 1)) k

def nineEach : List (Fin 3 × Call 3) := logEach 9

theorem log_room_nineEach : ∃ s : Machine 3,
    run code (AtMost (MAXOPBLOCKS - 1)) nineEach (boot 3 LOGSIZE) = some s ∧
      s.shared.log.lh.n = 27 ∧ s.halted ≠ some "too big a transaction" := by
  have h : (run code (AtMost (MAXOPBLOCKS - 1)) nineEach (boot 3 LOGSIZE)).map
      (fun s => s.shared.log.lh.n) = some 27 := by decide +kernel
  obtain ⟨s, hs, hn⟩ := Option.map_eq_some_iff.1 h
  exact ⟨s, hs, hn, log_room (reach_run hs)⟩

/-- Three operations log ten blocks each, up to the test that the last block fails. -/
def tenEach : List (Fin 3 × Call 3) := (logEach 10).dropLast

/-- Three operations that use their whole reservation panic at the thirtieth block. -/
theorem log_room_tenEach : ∃ s : Machine 3,
    run code (AtMost MAXOPBLOCKS) tenEach (boot 3 LOGSIZE) = some s ∧
      s.halted = some "too big a transaction" := by
  have h : (run code (AtMost MAXOPBLOCKS) tenEach (boot 3 LOGSIZE)).bind (fun s => s.halted) =
      some "too big a transaction" := by decide +kernel
  exact Option.bind_eq_some_iff.1 h

end Room

end GroupCommit

end Xv6
