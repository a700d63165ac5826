import Xv6.Disk.History

/-!
# The cache and the log as one store

Any number of processes read blocks, modify them, pass each modified buffer to `log_write` and
release it; when the last operation ends, `commit` runs, one block at a time, with
other processes still reading.  A buffer has one holder, the process that has its sleep lock: a
`bread` of a held buffer does not return.

`written` is the abstract store: the content most recently passed to `log_write`, of each block.
The invariant `Coh` says that whatever has been evicted, copied or installed so far, the cache
shows it (`Coh.view`), and which blocks the disk already holds (`Coh.disk`).
-/

set_option autoImplicit false

namespace Xv6

open Cache

/-- `end_op()` up to the call of `commit()`; returns `do_commit`. -/
def endOpEnter : Kern Store Bool := do
  modify fun s => s.setLog { s.log with outstanding := s.log.outstanding - 1 }
  let s ← get
  if s.log.committing then
    panic "log.committing"
  if s.log.outstanding = 0 then
    modify fun s => s.setLog { s.log with committing := true }
    return true
  return false

/-- `end_op()` after the call of `commit()`. -/
def endOpLeave : Kern Store Unit :=
  modify fun s => s.setLog { s.log with committing := false }

theorem endOp_eq :
    endOp = (do
      let doCommit ← endOpEnter
      if doCommit then
        commit
        endOpLeave) := by
  simp only [endOp, endOpEnter, endOpLeave, bind_assoc]
  refine bind_congr fun _ => bind_congr fun s => ?_
  split
  · rfl
  · split
    · simp only [bind_assoc, pure_bind, if_true]
    · simp only [pure_bind, Bool.false_eq_true, if_false]

namespace Coherent

/-- Where the process that runs `commit` is. -/
inductive Phase
  /-- Nobody is in `commit`. -/
  | idle
  /-- In the loop of `write_log`. -/
  | writeLog (tail : Nat)
  /-- At the first `write_head`. -/
  | writeHead
  /-- In the loop of `install_trans`. -/
  | install (tail : Nat)
  /-- At `log.lh.n = 0` and the second `write_head`. -/
  | erase
  /-- `commit` has returned to `end_op`. -/
  | leave
  deriving DecidableEq

/-- The machine: the cache, the log and the disk, and what the processes are doing. -/
structure World (P : Type) where
  store : Store
  /-- The processes between `begin_op` and `end_op`. -/
  ops : List P
  /-- The process that has the sleep lock of a buffer. -/
  holder : Nat → Option P
  /-- Has the holder modified the buffer since it last passed it to `log_write`? -/
  dirty : Nat → Bool
  phase : Phase
  /-- Ghost: the content most recently passed to `log_write`, or the initial one. -/
  written : Nat → Block

/-- What the processes do.  Buffers are named by their index. -/
inductive Call (P : Type)
  | beginOp (p : P)
  | bread (p : P) (b : Nat)
  | modify (p : P) (i : Nat) (data : Block)
  | logWrite (p : P) (i : Nat)
  | brelse (p : P) (i : Nat)
  | endOp (p : P)
  /-- One step of `commit`. -/
  | commit

variable {P : Type}

/-- Is the buffer of block `b` held? -/
def busy (holder : Nat → Option P) (s : Store) (b : Nat) : Bool :=
  (List.range NBUF).any fun i =>
    (holder i).isSome && (s.buf i).dev == ROOTDEV && (s.buf i).blockno == b

namespace World

/-- Run a part of `commit` that reads the blocks `bs`, none of which may be held, and go on. -/
def exec (w : World P) (bs : List Nat) (m : Kern Store Unit) (next : Phase) :
    Option (World P) :=
  if bs.any (busy w.holder w.store) then none
  else
    match m w.store with
    | .ok _ s => some { w with store := s, phase := next }
    | .error _ _ => none

/-- One step of `commit`. -/
def commitStep (w : World P) : Option (World P) :=
  let log := w.store.log
  match w.phase with
  | .idle => none
  | .writeLog tail =>
    if (tail : Int) < log.lh.n then
      w.exec [log.start + tail + 1, log.lh.block tail] (writeLogBody tail) (.writeLog (tail + 1))
    else some { w with phase := .writeHead }
  | .writeHead => w.exec [log.start] Xv6.writeHead (.install 0)
  | .install tail =>
    if (tail : Int) < log.lh.n then
      w.exec [log.start + tail + 1, log.lh.block tail] (installBody false tail)
        (.install (tail + 1))
    else some { w with phase := .erase }
  | .erase => w.exec [log.start] (do clearHead; Xv6.writeHead) .leave
  | .leave => w.exec [] endOpLeave .idle

variable [DecidableEq P]

/-- One call; nothing if it panics, waits, or is not allowed: a process modifies, logs and releases
what it holds, and passes what it modified to `log_write` before it releases it. -/
def step (w : World P) : Call P → Option (World P)
  | .beginOp p =>
    if p ∈ w.ops then none
    else
      match Xv6.beginOp w.store with
      | .ok _ s => some { w with store := s, ops := p :: w.ops }
      | .error _ _ => none
  | .bread p b =>
    match Xv6.bread ROOTDEV b w.store with
    | .ok i s =>
      if w.holder i = none then
        some { w with store := s, holder := Function.update w.holder i (some p) }
      else none
    | .error _ _ => none
  | .modify p i data =>
    if w.holder i = some p then
      some { w with
        store := finalState (setData i data) w.store
        dirty := Function.update w.dirty i true }
    else none
  | .logWrite p i =>
    if w.holder i = some p then
      match Xv6.logWrite i w.store with
      | .ok _ s => some { w with
          store := s
          dirty := Function.update w.dirty i false
          written := Function.update w.written (w.store.buf i).blockno (w.store.buf i).data }
      | .error _ _ => none
    else none
  | .brelse p i =>
    if w.holder i = some p ∧ w.dirty i = false then
      some { w with
        store := finalState (Xv6.brelse i) w.store
        holder := Function.update w.holder i none }
    else none
  | .endOp p =>
    if p ∈ w.ops then
      match endOpEnter w.store with
      | .ok doCommit s => some { w with
          store := s
          ops := w.ops.erase p
          phase :=
            if doCommit then if s.log.lh.n > 0 then .writeLog 0 else .leave else w.phase }
      | .error _ _ => none
    else none
  | .commit => w.commitStep

/-- The machine after a restart. -/
def boot (s : Store) : World P where
  store := s
  ops := []
  holder := fun _ => none
  dirty := fun _ => false
  phase := .idle
  written := s.disk

/-- The listed blocks that are not installed yet. -/
def pinned (w : World P) : List Nat :=
  match w.phase with
  | .install tail => (listed w.store).drop tail
  | .erase => []
  | _ => listed w.store

end World

/-- The processes read home blocks, not those of the log. -/
def Home (sb : Superblock) : Call P → Prop
  | .bread _ b => ¬ InLog sb b
  | _ => True

/-- The states reached from `w₀` by reading home blocks. -/
inductive Reach [DecidableEq P] (sb : Superblock) (w₀ : World P) : World P → Prop
  | start : Reach sb w₀ w₀
  | step {w w' : World P} {c : Call P} (hw : Reach sb w₀ w) (hc : Home sb c)
      (h : w.step c = some w') : Reach sb w₀ w'

/-! ## The invariant -/

/-- What holds while a process is in `commit`: it is alone, and the log blocks written so far hold
what is to be installed. -/
def Stage (w : World P) : Prop :=
  let s := w.store
  match w.phase with
  | .idle => s.log.committing = false
  | .writeLog tail => (s.log.committing = true ∧ w.ops = []) ∧ (tail : Int) ≤ s.log.lh.n ∧
    ∀ j < tail, view s (s.log.start + j + 1) = w.written (s.log.lh.block j)
  | .writeHead => (s.log.committing = true ∧ w.ops = []) ∧
    ∀ j : Nat, (j : Int) < s.log.lh.n →
      view s (s.log.start + j + 1) = w.written (s.log.lh.block j)
  | .install tail => (s.log.committing = true ∧ w.ops = []) ∧ (tail : Int) ≤ s.log.lh.n ∧
    ∀ j : Nat, (j : Int) < s.log.lh.n →
      view s (s.log.start + j + 1) = w.written (s.log.lh.block j)
  | .erase => s.log.committing = true ∧ w.ops = []
  | .leave => (s.log.committing = true ∧ w.ops = []) ∧ s.log.lh.n = 0

/-- The invariant of the cache, the log and the disk. -/
structure Coh (sb : Superblock) (w : World P) : Prop where
  ok : Ok w.store
  dev : w.store.log.dev = ROOTDEV
  start : w.store.log.start = sb.logstart
  size : w.store.log.size = sb.nlog
  n_nonneg : 0 ≤ w.store.log.lh.n
  n_lt : w.store.log.lh.n < sb.nlog
  home : ∀ b ∈ listed w.store, ¬ InLog sb b
  nodup : (listed w.store).Nodup
  /-- A block is referenced by its holder and by its pin. -/
  refs : ∀ b, refs w.store b = (busy w.holder w.store b).toNat + (decide (b ∈ w.pinned)).toNat
  held : ∀ i p, w.holder i = some p →
    Has w.store i (w.store.buf i).blockno ∧ ¬ InLog sb (w.store.buf i).blockno
  dirty : ∀ i, w.dirty i = true → ∃ p, w.holder i = some p
  /-- The cache shows what was written. -/
  view : ∀ b, ¬ InLog sb b → (∀ i, Has w.store i b → w.dirty i = false) →
    view w.store b = w.written b
  /-- The disk holds what was written, but for the blocks still to be installed. -/
  disk : ∀ b, ¬ InLog sb b → b ∉ w.pinned → w.store.disk b = w.written b
  ops : w.store.log.outstanding = w.ops.length
  stage : Stage w

/-- What a step from `w` to `w'` guarantees: the invariant; the buffers of referenced blocks stay
where they are; and a listed block stays pinned until it is installed. -/
structure Next (sb : Superblock) (w w' : World P) : Prop extends Coh sb w' where
  keeps : ∀ i b, Has w.store i b → 0 < Cache.refs w.store b → Has w'.store i b
  pins : ∀ b ∈ w.pinned, b ∈ w'.pinned ∨
    ∃ tail, w.phase = .install tail ∧ b = w.store.log.lh.block tail

section

variable {sb : Superblock} {w : World P}

theorem busy_iff {holder : Nat → Option P} {s : Store} {b : Nat} :
    busy holder s b = true ↔ ∃ i p, holder i = some p ∧ Has s i b := by
  simp only [busy, List.any_eq_true, List.mem_range, Bool.and_eq_true, beq_iff_eq,
    Option.isSome_iff_exists]
  constructor
  · rintro ⟨i, hi, ⟨⟨p, hp⟩, hd⟩, hb⟩
    exact ⟨i, p, hp, hi, hd, hb⟩
  · rintro ⟨i, p, hp, hi, hd, hb⟩
    exact ⟨i, hi, ⟨⟨p, hp⟩, hd⟩, hb⟩

theorem Coh.refs_pos (h : Coh sb w) {i : Nat} {p : P} (hp : w.holder i = some p) :
    0 < Cache.refs w.store (w.store.buf i).blockno := by
  have hb : busy w.holder w.store (w.store.buf i).blockno = true :=
    busy_iff.2 ⟨i, p, hp, (h.held i p hp).1⟩
  rw [h.refs, hb, Bool.toNat_true]
  omega

/-- The holders keep their buffers when referenced blocks keep theirs. -/
theorem Coh.held_keeps (h : Coh sb w) {s' : Store}
    (hk : ∀ i b, Has w.store i b → 0 < Cache.refs w.store b → Has s' i b) {i : Nat} {p : P}
    (hp : w.holder i = some p) :
    Has s' i (s'.buf i).blockno ∧ (s'.buf i).blockno = (w.store.buf i).blockno := by
  have hh := hk i _ (h.held i p hp).1 (h.refs_pos hp)
  exact ⟨⟨hh.lt, hh.dev, rfl⟩, hh.blockno⟩

theorem Coh.busy_keeps (h : Coh sb w) {s' : Store}
    (hk : ∀ i b, Has w.store i b → 0 < Cache.refs w.store b → Has s' i b) :
    busy w.holder s' = busy w.holder w.store := by
  funext b
  rw [Bool.eq_iff_iff, busy_iff, busy_iff]
  constructor
  · rintro ⟨i, p, hp, hb⟩
    have he := (h.held_keeps hk hp).2
    rw [hb.blockno] at he
    exact ⟨i, p, hp, he ▸ (h.held i p hp).1⟩
  · rintro ⟨i, p, hp, hb⟩
    refine ⟨i, p, hp, hk i b hb ?_⟩
    have hpos := h.refs_pos hp
    rwa [hb.blockno] at hpos

theorem has_setLog {s : Store} {l : Log} {i b : Nat} : Has (s.setLog l) i b ↔ Has s i b :=
  ⟨fun h => ⟨h.lt, h.dev, h.blockno⟩, fun h => ⟨h.lt, h.dev, h.blockno⟩⟩

/-- A step that changes the log's counters, the phase or the processes only. -/
theorem Coh.relog (h : Coh sb w) {w' : World P} {l : Log} (hs : w'.store = w.store.setLog l)
    (hdev : l.dev = w.store.log.dev) (hst : l.start = w.store.log.start)
    (hsz : l.size = w.store.log.size) (hlh : l.lh = w.store.log.lh)
    (hh : w'.holder = w.holder) (hd : w'.dirty = w.dirty) (hw : w'.written = w.written)
    (hpin : w'.pinned = w.pinned) (hops : l.outstanding = w'.ops.length) (hstage : Stage w') :
    Next sb w w' := by
  have hl : w'.store.log = l := by rw [hs]; rfl
  have hlist : listed w'.store = listed w.store := by rw [listed, listed, hl, hlh]
  have hview : Cache.view w'.store = Cache.view w.store := by rw [hs]; rfl
  have hrefs : Cache.refs w'.store = Cache.refs w.store := by rw [hs]; rfl
  have hbuf : w'.store.buf = w.store.buf := by rw [hs]; rfl
  have hdisk : w'.store.disk = w.store.disk := by rw [hs]; rfl
  have hhas : ∀ i b, Has w'.store i b ↔ Has w.store i b := by
    intro i b
    rw [hs]
    exact has_setLog
  have hbusy : busy w'.holder w'.store = busy w.holder w.store := by rw [hh, hs]; rfl
  refine ⟨⟨hs ▸ ok_setLog h.ok l, by rw [hl, hdev, h.dev], by rw [hl, hst, h.start],
    by rw [hl, hsz, h.size], by rw [hl, hlh]; exact h.n_nonneg, by rw [hl, hlh]; exact h.n_lt,
    by rw [hlist]; exact h.home, by rw [hlist]; exact h.nodup, ?_, ?_, ?_, ?_, ?_, ?_, hstage⟩,
    fun i b hi _ => (hhas i b).2 hi, fun b hb => .inl (hpin ▸ hb)⟩
  · intro b
    rw [hrefs, hbusy, hpin]
    exact h.refs b
  · intro i p hp
    rw [hh] at hp
    rw [hhas, hbuf]
    exact h.held i p hp
  · rw [hd, hh]
    exact h.dirty
  · intro b hb hcl
    rw [hview, hw]
    refine h.view b hb fun i hi => ?_
    rw [← hd]
    exact hcl i ((hhas i b).2 hi)
  · intro b hb hnp
    rw [hdisk, hw]
    rw [hpin] at hnp
    exact h.disk b hb hnp
  · rw [hl]
    exact hops

/-- A block that nobody holds shows what was written. -/
theorem Coh.view_of_free (h : Coh sb w) {b : Nat} (hb : ¬ InLog sb b)
    (hfree : busy w.holder w.store b = false) : Cache.view w.store b = w.written b := by
  refine h.view b hb fun i hi => eq_false_of_ne_true fun hd => ?_
  obtain ⟨p, hp⟩ := h.dirty i hd
  exact Bool.false_ne_true (hfree.symm.trans (busy_iff.2 ⟨i, p, hp, hi⟩))

/-- A modified buffer still caches its block after a step that keeps the referenced ones. -/
theorem Coh.dirty_keeps (h : Coh sb w) {s' : Store}
    (hk : ∀ i b, Has w.store i b → 0 < Cache.refs w.store b → Has s' i b) {j c : Nat}
    (hc : Has w.store j c) (hd : w.dirty j = true) : Has s' j c := by
  obtain ⟨q, hq⟩ := h.dirty j hd
  have hpos := h.refs_pos hq
  rw [hc.blockno] at hpos
  exact hk j c hc hpos

/-- A block that no modified buffer caches shows what was written. -/
theorem Coh.view_keeps (h : Coh sb w) {s' : Store}
    (hk : ∀ i b, Has w.store i b → 0 < Cache.refs w.store b → Has s' i b) {c : Nat}
    (hc : ¬ InLog sb c) (hcl : ∀ j, Has s' j c → w.dirty j = false) :
    Cache.view w.store c = w.written c := by
  refine h.view c hc fun j hj => eq_false_of_ne_true fun hd => ?_
  exact Bool.false_ne_true ((hcl j (h.dirty_keeps hk hj hd)).symm.trans hd)

/-- A step of `commit`: it writes to the disk what the cache shows after it, and the holders keep
their buffers. -/
theorem Coh.committed (h : Coh sb w) {s' : Store} {v : Nat → Block}
    {r : Nat → Nat} {ws : List (Nat × Block)} {next : Phase} (hrun : Run w.store s' v r ws)
    (hkeep : ∀ i b, Has w.store i b → 0 < Cache.refs w.store b → Has s' i b)
    (hlog : s'.log.dev = w.store.log.dev ∧ s'.log.start = w.store.log.start ∧
      s'.log.size = w.store.log.size ∧ s'.log.outstanding = w.store.log.outstanding)
    (hn : 0 ≤ s'.log.lh.n ∧ s'.log.lh.n ≤ w.store.log.lh.n)
    (hlist : listed s' = listed w.store ∨ listed s' = [])
    (hv : ∀ b, ¬ InLog sb b → v b = Cache.view w.store b)
    (hdisk : ∀ b, ¬ InLog sb b → b ∉ World.pinned { w with store := s', phase := next } →
      s'.disk b = w.written b)
    (hr : ∀ b, r b = (busy w.holder w.store b).toNat +
      (decide (b ∈ World.pinned { w with store := s', phase := next })).toNat)
    (hpins : ∀ b ∈ w.pinned, b ∈ World.pinned { w with store := s', phase := next } ∨
      ∃ tail, w.phase = .install tail ∧ b = w.store.log.lh.block tail)
    (hstage : Stage { w with store := s', phase := next }) :
    Next sb w { w with store := s', phase := next } := by
  have hbusy := h.busy_keeps hkeep
  have hnlt := h.n_lt
  refine ⟨⟨hrun.ok, hlog.1.trans h.dev, hlog.2.1.trans h.start, hlog.2.2.1.trans h.size, hn.1,
    Int.lt_of_le_of_lt hn.2 hnlt, ?_, ?_, ?_, ?_, h.dirty, ?_, hdisk, ?_, hstage⟩, hkeep, hpins⟩
  · rcases hlist with he | he <;> simp only [he]
    · exact h.home
    · exact fun b hb => absurd hb List.not_mem_nil
  · rcases hlist with he | he <;> simp only [he]
    · exact h.nodup
    · exact List.nodup_nil
  · intro b
    show Cache.refs s' b = (busy w.holder s' b).toNat + _
    rw [hrun.refs, hbusy]
    exact hr b
  · intro i p hp
    obtain ⟨hh, he⟩ := h.held_keeps hkeep hp
    refine ⟨hh, ?_⟩
    rw [show (World.store { w with store := s', phase := next }) = s' from rfl, he]
    exact (h.held i p hp).2
  · intro b hb hcl
    show Cache.view s' b = w.written b
    rw [hrun.view, hv b hb]
    exact h.view_keeps hkeep hb hcl
  · exact hlog.2.2.2.trans h.ops

theorem exec_eq {w' : World P} {bs : List Nat} {m : Kern Store Unit} {next : Phase}
    (hs : w.exec bs m next = some w') :
    (∀ b ∈ bs, busy w.holder w.store b = false) ∧
      ∃ s', m w.store = .ok () s' ∧ w' = { w with store := s', phase := next } := by
  rw [World.exec] at hs
  split at hs
  · cases hs
  · next hb =>
    refine ⟨fun b hbm => eq_false_of_ne_true fun ht => hb (List.any_eq_true.2 ⟨b, hbm, ht⟩), ?_⟩
    split at hs
    · next s' hm =>
      cases hs
      exact ⟨s', hm, rfl⟩
    · cases hs

theorem listed_of_log {s s' : Store} (hl : s'.log = s.log) : listed s' = listed s := by
  rw [listed, listed, hl]

/-- The log block of an entry is a block of the log. -/
theorem Coh.slot_inLog (h : Coh sb w) {j : Nat} (hj : (j : Int) < w.store.log.lh.n) :
    InLog sb (w.store.log.start + j + 1) := by
  have hlt := h.n_lt
  rw [h.start]
  exact ⟨by omega, by omega⟩

theorem Coh.block_home (h : Coh sb w) {j : Nat} (hj : (j : Int) < w.store.log.lh.n) :
    ¬ InLog sb (w.store.log.lh.block j) := h.home _ (mem_listed hj)

theorem ne_of_home {b c : Nat} (hb : ¬ InLog sb b) (hc : InLog sb c) : b ≠ c :=
  fun he => hb (he ▸ hc)

theorem Coh.step_writeLog (h : Coh sb w) {tail : Nat} (hp : w.phase = .writeLog tail)
    (hlt : (tail : Int) < w.store.log.lh.n) {s' : Store}
    (hfree : busy w.holder w.store (w.store.log.lh.block tail) = false)
    (hm : writeLogBody tail w.store = .ok () s') :
    Next sb w { w with store := s', phase := .writeLog (tail + 1) } := by
  have hstage := h.stage
  rw [Stage, hp] at hstage
  obtain ⟨hq, hle, hcopied⟩ := hstage
  have hslot := h.slot_inLog hlt
  have hhome := h.block_home hlt
  have hst := (writeLogBody_spec h.ok h.dev tail (ne_of_home hhome hslot)).ok hm
  have hl := hst.log
  have hpin : World.pinned { w with store := s', phase := .writeLog (tail + 1) } = w.pinned := by
    rw [World.pinned, World.pinned, hp]
    exact listed_of_log hl
  have hvb := h.view_of_free hhome hfree
  refine h.committed hst.toRun hst.keeps (by rw [hl]; exact ⟨rfl, rfl, rfl, rfl⟩)
    (by rw [hl]; exact ⟨h.n_nonneg, Int.le_refl _⟩) (.inl (listed_of_log hl)) (fun b hb => ?_)
    (fun b hb hnp => ?_) (fun b => ?_) (fun b hb => .inl (hpin ▸ hb)) ?_
  · rw [Function.update_of_ne (ne_of_home hb hslot)]
  · rw [hst.disk, applyWrites_singleton, Function.update_of_ne (ne_of_home hb hslot)]
    exact h.disk b hb (hpin ▸ hnp)
  · rw [hpin]
    exact h.refs b
  · refine ⟨by rw [show (World.store { w with store := s', phase := .writeLog (tail + 1) }).log
      = w.store.log from hl]; exact hq, ?_, fun j hj => ?_⟩
    · show ((tail + 1 : Nat) : Int) ≤ s'.log.lh.n
      rw [hl]
      omega
    · show Cache.view s' (s'.log.start + j + 1) = w.written (s'.log.lh.block j)
      rw [hl, hst.view]
      by_cases hjt : j = tail
      · rw [hjt, Function.update_self, hvb]
      · rw [Function.update_of_ne (by omega)]
        exact hcopied j (by omega)

/-- The head of the log is a block of the log. -/
theorem Coh.head_inLog (h : Coh sb w) : InLog sb w.store.log.start := by
  have h0 := h.n_nonneg
  have hlt := h.n_lt
  rw [h.start]
  exact ⟨Nat.le_refl _, by omega⟩

theorem Coh.step_writeHead (h : Coh sb w) (hp : w.phase = .writeHead) {s' : Store}
    (hm : writeHead w.store = .ok () s') :
    Next sb w { w with store := s', phase := .install 0 } := by
  have hstage := h.stage
  rw [Stage, hp] at hstage
  obtain ⟨hq, hcopied⟩ := hstage
  have hst := (writeHead_spec h.ok h.dev).ok hm
  have hl := hst.log
  have hpin : World.pinned { w with store := s', phase := .install 0 } = w.pinned := by
    rw [World.pinned, World.pinned, hp]
    exact listed_of_log hl
  refine h.committed hst.toRun hst.keeps (by rw [hl]; exact ⟨rfl, rfl, rfl, rfl⟩)
    (by rw [hl]; exact ⟨h.n_nonneg, Int.le_refl _⟩) (.inl (listed_of_log hl)) (fun b hb => ?_)
    (fun b hb hnp => ?_) (fun b => ?_) (fun b hb => .inl (hpin ▸ hb)) ?_
  · rw [Function.update_of_ne (ne_of_home hb h.head_inLog)]
  · rw [hst.disk, applyWrites_singleton, Function.update_of_ne (ne_of_home hb h.head_inLog)]
    exact h.disk b hb (hpin ▸ hnp)
  · rw [hpin]
    exact h.refs b
  · show (s'.log.committing = true ∧ w.ops = []) ∧ ((0 : Nat) : Int) ≤ s'.log.lh.n ∧
      ∀ j : Nat, (j : Int) < s'.log.lh.n →
        Cache.view s' (s'.log.start + j + 1) = w.written (s'.log.lh.block j)
    rw [hl, hst.view]
    refine ⟨hq, h.n_nonneg, fun j hj => ?_⟩
    rw [Function.update_of_ne (by omega)]
    exact hcopied j hj

/-- The block that an iteration of `install_trans` installs is the next one pinned. -/
theorem drop_listed {s : Store} {tail : Nat} (hlt : (tail : Int) < s.log.lh.n) :
    (listed s).drop tail = s.log.lh.block tail :: (listed s).drop (tail + 1) := by
  have hlen : tail < (listed s).length := by
    rw [listed, List.length_map, List.length_range]
    omega
  rw [List.drop_eq_getElem_cons hlen]
  simp only [listed, List.getElem_map, List.getElem_range]

theorem Coh.step_install (h : Coh sb w) {tail : Nat} (hp : w.phase = .install tail)
    (hlt : (tail : Int) < w.store.log.lh.n) {s' : Store}
    (hfree : busy w.holder w.store (w.store.log.lh.block tail) = false)
    (hm : installBody false tail w.store = .ok () s') :
    Next sb w { w with store := s', phase := .install (tail + 1) } := by
  have hstage := h.stage
  rw [Stage, hp] at hstage
  obtain ⟨hq, hle, hcopied⟩ := hstage
  have hslot := h.slot_inLog hlt
  have hhome := h.block_home hlt
  have hpinned : w.pinned = w.store.log.lh.block tail :: (listed w.store).drop (tail + 1) := by
    rw [World.pinned, hp]
    exact drop_listed hlt
  have hnd : w.pinned.Nodup := by
    rw [World.pinned, hp]
    exact h.nodup.sublist (List.drop_sublist _ _)
  rw [hpinned] at hnd
  have hnot := (List.nodup_cons.1 hnd).1
  have href : 0 < Cache.refs w.store (w.store.log.lh.block tail) := by
    rw [h.refs, hpinned, decide_eq_true List.mem_cons_self, Bool.toNat_true]
    omega
  have hst := (installBody_spec h.ok h.dev false tail (ne_of_home hhome hslot) fun _ => href).ok hm
  have hl := hst.log
  have hcopy : Cache.view w.store (w.store.log.start + tail + 1) =
      w.written (w.store.log.lh.block tail) := hcopied tail hlt
  have hpin : World.pinned { w with store := s', phase := .install (tail + 1) } =
      (listed w.store).drop (tail + 1) := by
    rw [World.pinned]
    exact congrArg _ (listed_of_log hl)
  have hview : ∀ b, ¬ InLog sb b → Function.update (Cache.view w.store)
      (w.store.log.lh.block tail) (Cache.view w.store (w.store.log.start + tail + 1)) b =
        Cache.view w.store b := by
    intro b hb
    by_cases hbt : b = w.store.log.lh.block tail
    · rw [hbt, Function.update_self, hcopy, h.view_of_free hhome hfree]
    · rw [Function.update_of_ne hbt]
  refine h.committed hst.toRun hst.keeps (by rw [hl]; exact ⟨rfl, rfl, rfl, rfl⟩)
    (by rw [hl]; exact ⟨h.n_nonneg, Int.le_refl _⟩) (.inl (listed_of_log hl)) hview
    (fun b hb hnp => ?_) (fun b => ?_) (fun b hb => ?_) ?_
  · rw [hst.disk, applyWrites_singleton]
    by_cases hbt : b = w.store.log.lh.block tail
    · rw [hbt, Function.update_self, hcopy]
    · rw [Function.update_of_ne hbt]
      refine h.disk b hb ?_
      rw [hpinned, List.mem_cons, not_or]
      exact ⟨hbt, hpin ▸ hnp⟩
  · rw [hpin, unpinned, if_neg Bool.false_ne_true]
    by_cases hbt : b = w.store.log.lh.block tail
    · rw [hbt, Function.update_self, h.refs, hpinned, decide_eq_true List.mem_cons_self,
        decide_eq_false hnot]
      rfl
    · rw [Function.update_of_ne hbt, h.refs, hpinned]
      simp only [List.mem_cons, hbt, false_or]
  · rw [hpinned, List.mem_cons] at hb
    rw [hpin]
    exact hb.symm.imp_right fun hb => ⟨tail, hp, hb⟩
  · show (s'.log.committing = true ∧ w.ops = []) ∧ ((tail + 1 : Nat) : Int) ≤ s'.log.lh.n ∧
      ∀ j : Nat, (j : Int) < s'.log.lh.n →
        Cache.view s' (s'.log.start + j + 1) = w.written (s'.log.lh.block j)
    rw [hl, hst.view]
    refine ⟨hq, by omega, fun j hj => ?_⟩
    rw [Function.update_of_ne (ne_of_home hhome (h.slot_inLog hj)).symm]
    exact hcopied j hj

theorem Coh.step_erase (h : Coh sb w) (hp : w.phase = .erase) {s' : Store}
    (hm : (do clearHead; writeHead : Kern Store Unit) w.store = .ok () s') :
    Next sb w { w with store := s', phase := .leave } := by
  have hq := h.stage
  rw [Stage, hp] at hq
  replace hq : w.store.log.committing = true ∧ w.ops = [] := hq
  have hwp := eraseHead_spec h.ok h.dev
  rw [clearHead, wp_modify] at hwp
  obtain ⟨hl, hrun, hkeep⟩ := hwp.ok hm
  have hn : s'.log.lh.n = 0 := by rw [hl]; rfl
  have hnil : listed s' = [] := by rw [listed, hn]; rfl
  have hpin : World.pinned { w with store := s', phase := .leave } = w.pinned := by
    rw [World.pinned, World.pinned, hp]
    exact hnil
  refine h.committed hrun hkeep (by rw [hl]; exact ⟨rfl, rfl, rfl, rfl⟩)
    (by rw [hn]; exact ⟨Int.le_refl 0, h.n_nonneg⟩) (.inr hnil) (fun b hb => ?_)
    (fun b hb hnp => ?_) (fun b => ?_) (fun b hb => .inl (hpin ▸ hb)) ?_
  · rw [Function.update_of_ne (ne_of_home hb h.head_inLog)]
  · rw [hrun.disk, applyWrites_singleton, Function.update_of_ne (ne_of_home hb h.head_inLog)]
    exact h.disk b hb (hpin ▸ hnp)
  · rw [hpin]
    exact h.refs b
  · refine ⟨?_, hn⟩
    show s'.log.committing = true ∧ w.ops = []
    rw [hl]
    exact hq

/-- Every step of `commit` keeps the invariant. -/
theorem Coh.step_commit (h : Coh sb w) {w' : World P} (hs : w.commitStep = some w') :
    Next sb w w' := by
  have hstage := h.stage
  rw [Stage] at hstage
  rw [World.commitStep] at hs
  split at hs
  · cases hs
  · next tail hp =>
    rw [hp] at hstage
    obtain ⟨hq, hle, hcopied⟩ := hstage
    split at hs
    · next hlt =>
      obtain ⟨hfree, s', hm, rfl⟩ := exec_eq hs
      exact h.step_writeLog hp hlt (hfree _ (by simp)) hm
    · next hge =>
      cases hs
      refine h.relog (l := w.store.log) rfl rfl rfl rfl rfl rfl rfl rfl ?_ h.ops ?_
      · rw [World.pinned, World.pinned, hp]
      · exact ⟨hq, fun j (hj : (j : Int) < w.store.log.lh.n) => hcopied j (by omega)⟩
  · next hp =>
    obtain ⟨-, s', hm, rfl⟩ := exec_eq hs
    exact h.step_writeHead hp hm
  · next tail hp =>
    rw [hp] at hstage
    obtain ⟨hq, hle, -⟩ := hstage
    split at hs
    · next hlt =>
      obtain ⟨hfree, s', hm, rfl⟩ := exec_eq hs
      exact h.step_install hp hlt (hfree _ (by simp)) hm
    · next hge =>
      cases hs
      refine h.relog (l := w.store.log) rfl rfl rfl rfl rfl rfl rfl rfl ?_ h.ops hq
      have hlen : (listed w.store).length ≤ tail := by
        rw [listed, List.length_map, List.length_range]
        omega
      rw [World.pinned, World.pinned, hp]
      exact (List.drop_eq_nil_of_le hlen).symm
  · next hp =>
    obtain ⟨-, s', hm, rfl⟩ := exec_eq hs
    exact h.step_erase hp hm
  · next hp =>
    rw [hp] at hstage
    obtain ⟨-, s', hm, rfl⟩ := exec_eq hs
    cases hm
    refine h.relog rfl rfl rfl rfl rfl rfl rfl rfl ?_ h.ops rfl
    rw [World.pinned, World.pinned, hp]
    rfl

/-! ## The steps of the processes -/

/-- Nobody is in `commit` while the log is not marked so. -/
theorem Coh.idle_of_not_committing (h : Coh sb w) (hc : w.store.log.committing = false) :
    w.phase = .idle := by
  have hstage := h.stage
  rw [Stage] at hstage
  cases hp : w.phase with
  | idle => rfl
  | writeLog tail => rw [hp] at hstage; exact absurd (hc.symm.trans hstage.1.1) Bool.false_ne_true
  | writeHead => rw [hp] at hstage; exact absurd (hc.symm.trans hstage.1.1) Bool.false_ne_true
  | install tail => rw [hp] at hstage; exact absurd (hc.symm.trans hstage.1.1) Bool.false_ne_true
  | erase => rw [hp] at hstage; exact absurd (hc.symm.trans hstage.1) Bool.false_ne_true
  | leave => rw [hp] at hstage; exact absurd (hc.symm.trans hstage.1.1) Bool.false_ne_true

/-- Nobody is in `commit` while an operation is running. -/
theorem Coh.idle_of_ops (h : Coh sb w) (ho : w.ops ≠ []) : w.phase = .idle := by
  have hstage := h.stage
  rw [Stage] at hstage
  cases hp : w.phase with
  | idle => rfl
  | writeLog tail => rw [hp] at hstage; exact absurd hstage.1.2 ho
  | writeHead => rw [hp] at hstage; exact absurd hstage.1.2 ho
  | install tail => rw [hp] at hstage; exact absurd hstage.1.2 ho
  | erase => rw [hp] at hstage; exact absurd hstage.2 ho
  | leave => rw [hp] at hstage; exact absurd hstage.1.2 ho

theorem beginOp_ok {s s' : Store} (h : beginOp s = .ok () s') : s.log.committing = false ∧
    s' = s.setLog { s.log with outstanding := s.log.outstanding + 1 } := by
  have hwp : wp beginOp (fun _ s' => s.log.committing = false ∧
      s' = s.setLog { s.log with outstanding := s.log.outstanding + 1 }) (fun _ _ => True) s := by
    rw [beginOp]
    simp only [wp_bind, wp_get, wp_ite, wp_sleep, wp_modify]
    split
    · trivial
    · next hc =>
      split
      · trivial
      · exact ⟨eq_false_of_ne_true hc, trivial⟩
  exact hwp.ok h

theorem endOpEnter_ok {s s' : Store} {c : Bool} (h : endOpEnter s = .ok c s') :
    s.log.committing = false ∧ s' = s.setLog { s.log with
      outstanding := s.log.outstanding - 1, committing := c } ∧
      (c = true ↔ s.log.outstanding - 1 = 0) := by
  have hwp : wp endOpEnter (fun c s' => s.log.committing = false ∧ s' = s.setLog { s.log with
      outstanding := s.log.outstanding - 1, committing := c } ∧
      (c = true ↔ s.log.outstanding - 1 = 0)) (fun _ _ => True) s := by
    rw [endOpEnter]
    simp only [wp_bind, wp_get, wp_ite, wp_panic, wp_modify, wp_pure, Store.setLog_log,
      Store.setLog_setLog]
    split
    · trivial
    · next hc =>
      have hc' := eq_false_of_ne_true hc
      split
      · next h0 => exact ⟨hc', trivial, fun _ => h0, fun _ => trivial⟩
      · next h0 => exact ⟨hc', by rw [hc'], (fun ht => by cases ht), fun he => absurd he h0⟩
  exact hwp.ok h

variable {w' : World P}

/-- What a process does to home blocks does not disturb `commit`. -/
theorem Coh.stage_congr (h : Coh sb w) (hp : w'.phase = w.phase) (ho : w'.ops = w.ops)
    (hl : w'.store.log = w.store.log)
    (hv : ∀ c, InLog sb c → Cache.view w'.store c = Cache.view w.store c)
    (hw : w'.written = w.written) : Stage w' := by
  have hstage := h.stage
  rw [Stage] at hstage ⊢
  simp only [hp, ho, hl, hw]
  cases hph : w.phase with
  | idle => rw [hph] at hstage; exact hstage
  | writeLog tail =>
    rw [hph] at hstage
    exact ⟨hstage.1, hstage.2.1, fun j hj =>
      (hv _ (h.slot_inLog (by have := hstage.2.1; omega))).trans (hstage.2.2 j hj)⟩
  | writeHead =>
    rw [hph] at hstage
    exact ⟨hstage.1, fun j hj => (hv _ (h.slot_inLog hj)).trans (hstage.2 j hj)⟩
  | install tail =>
    rw [hph] at hstage
    exact ⟨hstage.1, hstage.2.1, fun j hj => (hv _ (h.slot_inLog hj)).trans (hstage.2.2 j hj)⟩
  | erase => rw [hph] at hstage; exact hstage
  | leave => rw [hph] at hstage; exact hstage

theorem pinned_congr (hp : w'.phase = w.phase)
    (hl : w'.store.log = w.store.log) : w'.pinned = w.pinned := by
  rw [World.pinned, World.pinned, hp, listed_of_log hl]

theorem coh_boot {d : Nat → Block} (hd : Recoverable sb d) {s : Store}
    (hr : restart sb d = .ok () s) : Coh sb (World.boot s : World P) := by
  obtain ⟨s', hr', hb, hout⟩ := restart_idle hd
  cases hr.symm.trans hr'
  have hnil : listed s = [] := by rw [listed, hb.n_eq]; rfl
  have hrefs : ∀ b, Cache.refs s b = 0 := fun b => congrFun hb.run.refs b
  have hfree : ∀ b, busy (World.boot s : World P).holder s b = false := by
    intro b
    refine eq_false_of_ne_true fun ht => ?_
    obtain ⟨i, p, hp, -⟩ := busy_iff.1 ht
    cases hp
  have hn0 := hb.n_eq
  have hfits := hd.fits
  refine ⟨hb.run.ok, hb.dev, hb.start, hb.size, by show 0 ≤ s.log.lh.n; omega,
    by show s.log.lh.n < sb.nlog; omega, ?_, ?_, fun b => ?_, (fun _ _ h => by cases h),
    (fun _ h => by cases h), fun b _ _ => ?_, fun _ _ _ => rfl, hout, hb.committing⟩
  · show ∀ b ∈ listed s, _
    rw [hnil]
    exact fun b hb => absurd hb List.not_mem_nil
  · show (listed s).Nodup
    rw [hnil]
    exact List.nodup_nil
  · show Cache.refs s b = (busy _ s b).toNat + (decide (b ∈ listed s)).toNat
    rw [hrefs, hfree, hnil]
    rfl
  · exact view_eq_disk hb.run.ok (hrefs b)

theorem Coh.refcnt (h : Coh sb w) {i b : Nat} (hi : Has w.store i b) :
    (w.store.buf i).refcnt = (w.holder i).isSome.toNat + (decide (b ∈ w.pinned)).toNat := by
  rw [← refs_of_has h.ok hi, h.refs]
  congr 2
  rw [Bool.eq_iff_iff, busy_iff, Option.isSome_iff_exists]
  constructor
  · rintro ⟨j, q, hq, hj⟩
    rw [h.ok.inj i j b hi hj]
    exact ⟨q, hq⟩
  · rintro ⟨q, hq⟩
    exact ⟨i, q, hq, hi⟩

/-- A pinned block is cached. -/
theorem Coh.has_of_pinned (h : Coh sb w) {b : Nat} (hb : b ∈ w.pinned) :
    ∃ i, Has w.store i b := by
  by_contra hne
  have h0 := refs_of_not_has h.ok fun i hi => hne ⟨i, hi⟩
  rw [h.refs, decide_eq_true hb, Bool.toNat_true] at h0
  omega

variable [DecidableEq P] {p : P}

theorem Coh.step_beginOp (h : Coh sb w) (hs : w.step (.beginOp p) = some w') : Next sb w w' := by
  rw [World.step] at hs
  split at hs
  · cases hs
  split at hs
  · next s' hm =>
    cases hs
    obtain ⟨hc, rfl⟩ := beginOp_ok hm
    have hidle := h.idle_of_not_committing hc
    refine h.relog rfl rfl rfl rfl rfl rfl rfl rfl ?_ ?_ ?_
    · rw [World.pinned, World.pinned, hidle]
      rfl
    · rw [List.length_cons, h.ops]
      rfl
    · rw [Stage]
      simp only [hidle]
      exact hc
  · cases hs

theorem Coh.step_endOp (h : Coh sb w) (hs : w.step (.endOp p) = some w') : Next sb w w' := by
  rw [World.step] at hs
  split at hs
  · next hp =>
    split at hs
    · next c s' hm =>
      cases hs
      obtain ⟨hc, rfl, hzero⟩ := endOpEnter_ok hm
      have hidle := h.idle_of_not_committing hc
      have hlen : (w.ops.erase p).length = w.ops.length - 1 := List.length_erase_of_mem hp
      have hpos : 0 < w.ops.length := List.length_pos_of_mem hp
      have hops := h.ops
      refine h.relog rfl rfl rfl rfl rfl rfl rfl rfl ?_ ?_ ?_
      · rw [World.pinned, World.pinned, hidle]
        cases c with
        | false => rfl
        | true =>
          by_cases hn : w.store.log.lh.n > 0
          · simp only [if_true, Store.setLog_log, hn]
            rfl
          · simp only [if_true, Store.setLog_log, hn, if_false]
            rfl
      · show w.store.log.outstanding - 1 = ((w.ops.erase p).length : Int)
        omega
      · cases c with
        | false =>
          rw [Stage]
          simp only [Bool.false_eq_true, if_false, hidle]
          rfl
        | true =>
          have h0 := hzero.1 rfl
          have hnil : w.ops.erase p = [] := List.length_eq_zero_iff.1 (by omega)
          rw [Stage]
          simp only [if_true]
          by_cases hn : w.store.log.lh.n > 0
          · simp only [Store.setLog_log, hn, if_true]
            exact ⟨⟨trivial, hnil⟩, Int.le_of_lt hn, fun j hj => absurd hj (Nat.not_lt_zero j)⟩
          · simp only [Store.setLog_log, hn, if_false]
            have hnn := h.n_nonneg
            exact ⟨⟨trivial, hnil⟩, by omega⟩
    · cases hs
  · cases hs

/-- A step of one process on a buffer: the log and the disk stay as they are. -/
theorem Coh.of_step (h : Coh sb w) {v : Nat → Block} {r : Nat → Nat}
    (hst : Step w.store w'.store v r []) (hph : w'.phase = w.phase) (ho : w'.ops = w.ops)
    (hw : w'.written = w.written)
    (hrefs : ∀ b, r b = (busy w'.holder w'.store b).toNat + (decide (b ∈ w.pinned)).toNat)
    (hheld : ∀ i q, w'.holder i = some q → Has w'.store i (w'.store.buf i).blockno ∧
      ¬ InLog sb (w'.store.buf i).blockno)
    (hdirty : ∀ i, w'.dirty i = true → ∃ q, w'.holder i = some q)
    (hview : ∀ b, ¬ InLog sb b → (∀ i, Has w'.store i b → w'.dirty i = false) →
      v b = w.written b) (hstage : Stage w') : Next sb w w' := by
  have hl := hst.log
  have hlist := listed_of_log hl
  have hpin := pinned_congr hph hl
  have hdisk : w'.store.disk = w.store.disk := hst.disk
  refine ⟨⟨hst.ok, by rw [hl]; exact h.dev, by rw [hl]; exact h.start, by rw [hl]; exact h.size,
    by rw [hl]; exact h.n_nonneg, by rw [hl]; exact h.n_lt, by rw [hlist]; exact h.home,
    by rw [hlist]; exact h.nodup, ?_, hheld, hdirty, ?_, ?_,
    by rw [hl, ho]; exact h.ops, hstage⟩, hst.keeps, fun b hb => .inl (hpin ▸ hb)⟩
  · rw [hst.refs, hpin]
    exact hrefs
  · rw [hst.view, hw]
    exact hview
  · rw [hdisk, hw, hpin]
    exact h.disk

theorem Coh.step_bread (h : Coh sb w) {b : Nat} (hb : ¬ InLog sb b)
    (hs : w.step (.bread p b) = some w') : Next sb w w' := by
  rw [World.step] at hs
  split at hs
  · next i s' hm =>
    split at hs
    · next hfree =>
      cases hs
      obtain ⟨hi, hst⟩ := (bread_spec h.ok b).ok hm
      have hkeep := hst.keeps
      have hold : ∀ j q, w.holder j = some q → j ≠ i := fun j q hq he => by
        rw [he, hfree] at hq
        cases hq
      have hbusy : ∀ c, busy (Function.update w.holder i (some p)) s' c =
          (busy w.holder w.store c || decide (c = b)) := by
        intro c
        rw [← h.busy_keeps hkeep, Bool.eq_iff_iff, Bool.or_eq_true, busy_iff, busy_iff,
          decide_eq_true_eq]
        constructor
        · rintro ⟨j, q, hq, hc⟩
          by_cases hj : j = i
          · rw [hj] at hc
            exact .inr (hc.blockno.symm.trans hi.blockno)
          · rw [Function.update_of_ne hj] at hq
            exact .inl ⟨j, q, hq, hc⟩
        · rintro (⟨j, q, hq, hc⟩ | rfl)
          · exact ⟨j, q, by rw [Function.update_of_ne (hold j q hq)]; exact hq, hc⟩
          · exact ⟨i, p, Function.update_self .., hi⟩
      -- another holder would hold the very buffer that is free
      have hnot : busy w.holder w.store b = false := by
        refine eq_false_of_ne_true fun ht => ?_
        rw [← h.busy_keeps hkeep] at ht
        obtain ⟨j, q, hq, hj⟩ := busy_iff.1 ht
        exact hold j q hq (hst.ok.inj j i b hj hi)
      refine h.of_step hst rfl rfl rfl (fun c => ?_) (fun j q hq => ?_) (fun j hd => ?_)
        (fun c hc hcl => h.view_keeps hkeep hc hcl)
        (h.stage_congr rfl rfl hst.log (fun c _ => congrFun hst.view c) rfl)
      · simp only [hbusy]
        by_cases hcb : c = b
        · rw [hcb, Function.update_self, h.refs, hnot, decide_eq_true rfl]
          simp only [Bool.false_or, Bool.toNat_true, Bool.toNat_false]
          omega
        · rw [Function.update_of_ne hcb, h.refs, decide_eq_false hcb, Bool.or_false]
      · by_cases hj : j = i
        · rw [hj, hi.blockno]
          exact ⟨hi, hb⟩
        · simp only [Function.update_of_ne hj] at hq
          obtain ⟨hh, he⟩ := h.held_keeps hkeep hq
          refine ⟨hh, ?_⟩
          simp only [he]
          exact (h.held j q hq).2
      · obtain ⟨q, hq⟩ := h.dirty j hd
        exact ⟨q, by simp only [Function.update_of_ne (hold j q hq)]; exact hq⟩
    · cases hs
  · cases hs

theorem Coh.step_brelse (h : Coh sb w) {i : Nat} (hs : w.step (.brelse p i) = some w') :
    Next sb w w' := by
  rw [World.step] at hs
  split at hs
  · next hp =>
    cases hs
    obtain ⟨hi, hhome⟩ := h.held i p hp.1
    generalize hb : (w.store.buf i).blockno = b at hi hhome
    have hbusyb : busy w.holder w.store b = true := busy_iff.2 ⟨i, p, hp.1, hi⟩
    have honly : ∀ j, Has w.store j b → j = i := fun j hj => h.ok.inj j i b hj hi
    have hclean : Cache.refs w.store b ≤ 1 → Cache.view w.store b = w.store.disk b := by
      intro hle
      have hr := h.refs b
      rw [hbusyb, Bool.toNat_true] at hr
      have hnp : b ∉ w.pinned := by
        intro hm
        rw [decide_eq_true hm, Bool.toNat_true] at hr
        omega
      rw [h.disk b hhome hnp]
      refine h.view b hhome fun j hj => ?_
      rw [honly j hj]
      exact hp.2
    have hst : Step w.store (finalState (brelse i) w.store) (Cache.view w.store)
        (Function.update (Cache.refs w.store) b (Cache.refs w.store b - 1)) [] :=
      (brelse_spec (E := fun _ _ => False) h.ok hi hclean).ok rfl
    generalize finalState (brelse i) w.store = s' at hst ⊢
    have hkeep := hst.keeps
    have hother : ∀ j q, Function.update w.holder i none j = some q →
        j ≠ i ∧ w.holder j = some q := by
      intro j q hq
      by_cases hj : j = i
      · rw [hj, Function.update_self] at hq
        cases hq
      · rw [Function.update_of_ne hj] at hq
        exact ⟨hj, hq⟩
    have hbusy : ∀ c, busy (Function.update w.holder i none) s' c =
        (busy w.holder w.store c && decide (c ≠ b)) := by
      intro c
      rw [← h.busy_keeps hkeep, Bool.eq_iff_iff, Bool.and_eq_true, busy_iff, busy_iff,
        decide_eq_true_eq]
      have hi' : Has s' i b := hkeep i b hi (by rw [h.refs, hbusyb, Bool.toNat_true]; omega)
      constructor
      · rintro ⟨j, q, hq, hc⟩
        obtain ⟨hj, hq⟩ := hother j q hq
        exact ⟨⟨j, q, hq, hc⟩, fun he => hj (hst.ok.inj j i b (he ▸ hc) hi')⟩
      · rintro ⟨⟨j, q, hq, hc⟩, hcb⟩
        have hj : j ≠ i := fun he => hcb (hc.blockno.symm.trans (he ▸ hi'.blockno))
        exact ⟨j, q, by rw [Function.update_of_ne hj]; exact hq, hc⟩
    refine h.of_step hst rfl rfl rfl (fun c => ?_) (fun j q hq => ?_) (fun j hd => ?_)
      (fun c hc hcl => h.view_keeps hkeep hc hcl)
      (h.stage_congr rfl rfl hst.log (fun c _ => congrFun hst.view c) rfl)
    · simp only [hbusy]
      by_cases hcb : c = b
      · rw [hcb, Function.update_self, h.refs, hbusyb]
        simp only [ne_eq, not_true_eq_false, decide_false, Bool.and_false, Bool.toNat_true,
          Bool.toNat_false]
        omega
      · rw [Function.update_of_ne hcb, h.refs, decide_eq_true hcb, Bool.and_true]
    · obtain ⟨hj, hq⟩ := hother j q hq
      obtain ⟨hh, he⟩ := h.held_keeps hkeep hq
      refine ⟨hh, ?_⟩
      simp only [he]
      exact (h.held j q hq).2
    · obtain ⟨q, hq⟩ := h.dirty j hd
      have hj : j ≠ i := fun he => Bool.false_ne_true (hp.2.symm.trans (he ▸ hd))
      exact ⟨q, by simp only [Function.update_of_ne hj]; exact hq⟩
  · cases hs

theorem Coh.step_modify (h : Coh sb w) {i : Nat} {data : Block}
    (hs : w.step (.modify p i data) = some w') : Next sb w w' := by
  rw [World.step] at hs
  split at hs
  · next hp =>
    cases hs
    obtain ⟨hi, hhome⟩ := h.held i p hp
    have hpos := h.refs_pos hp
    generalize hb : (w.store.buf i).blockno = b at hi hhome hpos
    have hst : Step w.store (finalState (setData i data) w.store)
        (Function.update (Cache.view w.store) b data) (Cache.refs w.store) [] :=
      (setData_spec (E := fun _ _ => False) h.ok hi hpos data).ok rfl
    generalize finalState (setData i data) w.store = s' at hst ⊢
    have hkeep := hst.keeps
    refine h.of_step hst rfl rfl rfl (fun c => ?_) (fun j q hq => ?_) (fun j hd => ?_)
      (fun c hc hcl => ?_) (h.stage_congr rfl rfl hst.log (fun c hc => ?_) rfl)
    · simp only [h.busy_keeps hkeep]
      exact h.refs c
    · obtain ⟨hh, he⟩ := h.held_keeps hkeep hq
      refine ⟨hh, ?_⟩
      simp only [he]
      exact (h.held j q hq).2
    · by_cases hj : j = i
      · rw [hj]
        exact ⟨p, hp⟩
      · simp only [Function.update_of_ne hj] at hd
        exact h.dirty j hd
    · have hcb : c ≠ b := by
        rintro rfl
        have := hcl i (hkeep i _ hi hpos)
        simp only [Function.update_self] at this
        cases this
      rw [Function.update_of_ne hcb]
      refine h.view c hc fun j hj => eq_false_of_ne_true fun hd => ?_
      have hji : j ≠ i := fun he => hcb (hj.blockno.symm.trans (he ▸ hi.blockno))
      have := hcl j (h.dirty_keeps hkeep hj hd)
      simp only [Function.update_of_ne hji] at this
      exact Bool.false_ne_true (this.symm.trans hd)
    · rw [show Cache.view s' = _ from hst.view,
        Function.update_of_ne (ne_of_home hhome hc).symm]
  · cases hs

theorem Coh.step_logWrite (h : Coh sb w) {i : Nat} (hs : w.step (.logWrite p i) = some w') :
    Next sb w w' := by
  rw [World.step] at hs
  split at hs
  · next hp =>
    split at hs
    · next s' hm =>
      cases hs
      obtain ⟨hi, hhome⟩ := h.held i p hp
      generalize hb : (w.store.buf i).blockno = b at hi hhome
      obtain ⟨hlog, hsize, hl, hi', hrun, hout, hkeep⟩ :=
        (logWrite_spec h.ok hi h.n_nonneg).ok hm
      have hdata : (w.store.buf i).data = Cache.view w.store b := (view_of_has h.ok hi).symm
      have hidle := h.idle_of_ops fun hnil => by
        have := h.ops
        rw [hnil, List.length_nil] at this
        omega
      have hlist : listed s' = if b ∈ listed w.store then listed w.store
          else listed w.store ++ [b] := listed_logAdd h.n_nonneg (by rw [hl])
      have hn' : s'.log.lh.n = w.store.log.lh.n ∨ s'.log.lh.n = w.store.log.lh.n + 1 := by
        rw [hl]
        show (logAdd w.store.log.lh b).n = _ ∨ (logAdd w.store.log.lh b).n = _
        rw [logAdd]
        split
        · exact .inl rfl
        · exact .inr rfl
      have hpin : w.pinned = listed w.store := by rw [World.pinned, hidle]
      have hpin' : ∀ d wr, World.pinned { w with store := s', dirty := d, written := wr } =
          listed s' := by
        intro d wr
        rw [World.pinned]
        simp only [hidle]
      have hmem : ∀ c, c ∈ listed s' ↔ c ∈ listed w.store ∨ c = b := by
        intro c
        rw [hlist]
        exact mem_listed_logAdd
      have hnn := h.n_nonneg
      have hnl := h.n_lt
      rw [h.size] at hsize
      refine ⟨⟨hrun.ok, by rw [hl]; exact h.dev, by rw [hl]; exact h.start,
        by rw [hl]; exact h.size, by show 0 ≤ s'.log.lh.n; omega,
        by show s'.log.lh.n < sb.nlog; omega, fun c hc => ?_, ?_, fun c => ?_, fun j q hq => ?_,
        fun j hd => ?_, fun c hc hcl => ?_, fun c hc hnp => ?_, by rw [hl]; exact h.ops, ?_⟩,
        hkeep, fun c hc => .inl ?_⟩
      · rcases (hmem c).1 hc with hc | rfl
        · exact h.home c hc
        · exact hhome
      · show (listed s').Nodup
        rw [hlist]
        split
        · exact h.nodup
        · next hnb =>
          exact List.nodup_append.2 ⟨h.nodup, by simp, fun x hx y hy hxy =>
            hnb (by rw [List.mem_singleton.1 hy] at hxy; exact hxy ▸ hx)⟩
      · rw [hpin']
        show Cache.refs s' c = (busy w.holder s' c).toNat + _
        rw [hrun.refs, h.busy_keeps hkeep]
        by_cases hcb : c = b
        · rw [hcb, Function.update_self, decide_eq_true ((hmem b).2 (.inr rfl)), Bool.toNat_true,
            h.refs, hpin]
          by_cases hm : b ∈ listed w.store
          · rw [if_pos hm, decide_eq_true hm]; rfl
          · rw [if_neg hm, decide_eq_false hm]; rfl
        · rw [Function.update_of_ne hcb, h.refs, hpin]
          have : c ∈ listed s' ↔ c ∈ listed w.store := by rw [hmem, or_iff_left hcb]
          simp only [this]
      · obtain ⟨hh, he⟩ := h.held_keeps hkeep hq
        refine ⟨hh, ?_⟩
        simp only [he]
        exact (h.held j q hq).2
      · by_cases hj : j = i
        · rw [hj] at hd
          simp only [Function.update_self] at hd
          cases hd
        · simp only [Function.update_of_ne hj] at hd
          exact h.dirty j hd
      · show Cache.view s' c = Function.update w.written b (w.store.buf i).data c
        rw [hrun.view]
        by_cases hcb : c = b
        · rw [hcb, Function.update_self, hdata]
        · rw [Function.update_of_ne hcb]
          refine h.view c hc fun j hj => eq_false_of_ne_true fun hd => ?_
          have hji : j ≠ i := fun he => hcb (hj.blockno.symm.trans (he ▸ hi.blockno))
          have := hcl j (h.dirty_keeps hkeep hj hd)
          simp only [Function.update_of_ne hji] at this
          exact Bool.false_ne_true (this.symm.trans hd)
      · rw [hpin', hmem, not_or] at hnp
        show s'.disk c = Function.update w.written b (w.store.buf i).data c
        rw [show s'.disk = w.store.disk from hrun.disk, Function.update_of_ne hnp.2]
        exact h.disk c hc (hpin ▸ hnp.1)
      · have hstage := h.stage
        rw [Stage] at hstage ⊢
        simp only [hidle] at hstage ⊢
        rw [hl]
        exact hstage
      · rw [hpin', hmem]
        exact .inl (hpin ▸ hc)
    · cases hs
  · cases hs

/-- Every step that reads home blocks keeps the invariant. -/
theorem Coh.step (h : Coh sb w) {c : Call P} (hc : Home sb c) (hs : w.step c = some w') :
    Next sb w w' := by
  cases c with
  | beginOp p => exact h.step_beginOp hs
  | bread p b => exact h.step_bread hc hs
  | modify p i data => exact h.step_modify hs
  | logWrite p i => exact h.step_logWrite hs
  | brelse p i => exact h.step_brelse hs
  | endOp p => exact h.step_endOp hs
  | commit => exact h.step_commit hs

theorem coh_reach {d : Nat → Block} (hd : Recoverable sb d) {s : Store}
    (hr : restart sb d = .ok () s) (hw : Reach sb (World.boot s) w) : Coh sb w := by
  induction hw with
  | start => exact coh_boot hd hr
  | step hw hc hs ih => exact (ih.step hc hs).toCoh

/-- What `bread` hands out is the content most recently written. -/
theorem Coh.bread_data (h : Coh sb w) {b : Nat} (hb : ¬ InLog sb b)
    (hs : w.step (.bread p b) = some w') :
    ∃ i, w'.holder = Function.update w.holder i (some p) ∧ Has w'.store i b ∧
      (w'.store.buf i).data = w.written b := by
  rw [World.step] at hs
  split at hs
  · next i s' hm =>
    split at hs
    · next hfree =>
      cases hs
      obtain ⟨hi, hst⟩ := (bread_spec h.ok b).ok hm
      refine ⟨i, rfl, hi, ?_⟩
      show (s'.buf i).data = w.written b
      rw [← view_of_has hst.ok hi, hst.view]
      -- the buffer was free, so nobody had modified it
      refine h.view_keeps hst.keeps hb fun j hj => eq_false_of_ne_true fun hd => ?_
      obtain ⟨q, hq⟩ := h.dirty j hd
      rw [hst.ok.inj j i b hj hi, hfree] at hq
      cases hq
    · cases hs
  · cases hs

theorem Coh.logWrite_pins (h : Coh sb w) {i : Nat} (hs : w.step (.logWrite p i) = some w') :
    (w.store.buf i).blockno ∈ w'.pinned := by
  rw [World.step] at hs
  split at hs
  · next hp =>
    split at hs
    · next s' hm =>
      cases hs
      obtain ⟨-, -, hl, -, -, hout, -⟩ := (logWrite_spec h.ok (h.held i p hp).1 h.n_nonneg).ok hm
      have hidle := h.idle_of_ops fun hnil => by
        have := h.ops
        rw [hnil, List.length_nil] at this
        omega
      rw [World.pinned]
      simp only [hidle]
      rw [listed_logAdd h.n_nonneg (by rw [hl])]
      exact mem_listed_logAdd.2 (.inr rfl)
    · cases hs
  · cases hs

end

/-! A process writes sevens to block 50 and its operation commits. -/

/-- A sequence of calls, all of which return. -/
def World.run [DecidableEq P] (w : World P) : List (Call P) → Option (World P)
  | [] => some w
  | c :: cs => (w.step c).bind fun w' => w'.run cs

theorem Reach.run [DecidableEq P] {sb : Superblock} {w₀ w w' : World P} (hw : Reach sb w₀ w)
    {cs : List (Call P)} (hc : ∀ c ∈ cs, Home sb c) (hr : w.run cs = some w') :
    Reach sb w₀ w' := by
  induction cs generalizing w with
  | nil =>
    cases hr
    exact hw
  | cons c cs ih =>
    rw [World.run, Option.bind_eq_some_iff] at hr
    obtain ⟨w₁, hs, hr⟩ := hr
    exact ih (hw.step (hc c List.mem_cons_self) hs)
      (fun c' h' => hc c' (List.mem_cons_of_mem c h')) hr

/-- Write block 50, which gets buffer 1, and commit. -/
def writeCommit : List (Call Unit) :=
  [.beginOp (), .bread () 50, .modify () 1 fun _ => 7, .logWrite () 1, .brelse () 1, .endOp (),
    .commit, .commit, .commit, .commit, .commit, .commit]

/-- The machine started on an empty disk. -/
def emptyStore : Store :=
  finalState (initlog ROOTDEV mkfsSuperblock) (binit (fun _ _ => 0) log0)

theorem restart_empty : restart mkfsSuperblock (fun _ _ => 0) = .ok () emptyStore := rfl

theorem recoverable_empty : Recoverable mkfsSuperblock fun _ _ => 0 where
  nodup := by decide
  fits := by decide
  home := by rw [show entries (fun _ => 0) = [] by decide]; exact fun b hb => by cases hb

theorem home_writeCommit : ∀ c ∈ writeCommit, Home mkfsSuperblock c := by
  simp only [writeCommit, List.forall_mem_cons, Home, InLog, List.not_mem_nil, false_implies,
    implies_true, and_true, true_and]
  decide

end Coherent

end Xv6
