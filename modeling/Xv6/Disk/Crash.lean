import Xv6.Disk.Log

/-!
# Crash atomicity of the log

The log of `kernel/log.c` is an instance of the redo log of `Xv6.Base.RedoLog`: between two
commits the header on the disk lists nothing, the disk writes of `commit` are, in order,
`commitWrites`, and those of `recover_from_log` are `recoverWrites`.  What is proved here of the
code is therefore which writes it makes, and in which order; what a crash leaves follows from
the library.

A history of the machine is a sequence of file-system operations, which may overlap
(`begin_op` may be called several times before the first `end_op`), each block they write going
through `log_write`; of crashes after any number of the disk writes of the operation under way;
and of restarts, each of which may itself crash after any number of writes.  A panic is a crash
after the writes made so far.
-/

set_option autoImplicit false

namespace Xv6

open Cache

/-- Block `b` belongs to the log. -/
def InLog (sb : Superblock) (b : Nat) : Prop := sb.logstart ≤ b ∧ b < sb.logstart + sb.nlog

/-- The log as a redo log. -/
def logLayout (sb : Superblock) (h : 0 < sb.nlog) : LogLayout Nat Block where
  area := InLog sb
  head := sb.logstart
  slot i := sb.logstart + i + 1
  capacity := sb.nlog - 1
  entries := entries
  head_area := ⟨Nat.le_refl _, by omega⟩
  slot_area i hi := ⟨by omega, by omega⟩
  slot_ne_head i := by omega
  slot_inj i j hij := by omega

/-- The home blocks the in-memory header lists. -/
def listed (s : Store) : List Nat := (List.range s.log.lh.n.toNat).map s.log.lh.block

/-- The state of the cache and the log between the operations. -/
structure LogOk (sb : Superblock) (s : Store) : Prop where
  ok : Ok s
  dev : s.log.dev = ROOTDEV
  start : s.log.start = sb.logstart
  size : s.log.size = sb.nlog
  n_nonneg : 0 ≤ s.log.lh.n
  n_le : s.log.lh.n ≤ LOGSIZE
  n_lt : s.log.lh.n < sb.nlog
  /-- Only home blocks are listed. -/
  home : ∀ b ∈ listed s, ¬ InLog sb b ∧ b < 2 ^ 32
  nodup : (listed s).Nodup
  /-- The listed blocks are pinned and nothing else is held. -/
  refs : refs s = fun b => if b ∈ listed s then 1 else 0
  /-- The header on the disk lists nothing. -/
  empty : entries (s.disk sb.logstart) = []

section

variable {sb : Superblock} {s : Store} (hn : 0 < sb.nlog)

theorem listed_eq_range' (s : Store) :
    listed s = (List.range' 0 s.log.lh.n.toNat).map s.log.lh.block := by
  rw [listed, List.range_eq_range']

theorem mem_listed {i : Nat} (h : (i : Int) < s.log.lh.n) : s.log.lh.block i ∈ listed s :=
  List.mem_map_of_mem (List.mem_range.2 (by omega))

/-- A block that is not listed shows what the disk holds. -/
theorem LogOk.view_eq_disk (h : LogOk sb s) {b : Nat} (hb : b ∉ listed s) :
    view s b = s.disk b :=
  Cache.view_eq_disk h.ok ((congrFun h.refs b).trans (if_neg hb))

theorem LogOk.not_listed (h : LogOk sb s) {b : Nat} (hb : InLog sb b) : b ∉ listed s :=
  fun hm => (h.home b hm).1 hb

theorem LogOk.apart (h : LogOk sb s) : Apart s 0 s.log.lh.n.toNat := by
  intro i j _ hi _ hj heq
  have hl := (h.home _ (mem_listed (i := i) (by omega))).1
  have := h.n_lt
  rw [heq, h.start] at hl
  exact hl ⟨by omega, by omega⟩

theorem map_fst_pending (s : Store) : (pending s 0 s.log.lh.n.toNat).map Prod.fst = listed s := by
  rw [pending, List.map_map, listed_eq_range']
  rfl

theorem length_pending (s : Store) (tail k : Nat) : (pending s tail k).length = k := by
  rw [pending, List.length_map, List.length_range']

/-- The transaction in memory fits the log. -/
theorem LogOk.fits (h : LogOk sb s) : (logLayout sb hn).Fits (pending s 0 s.log.lh.n.toNat) := by
  refine ⟨?_, fun w hw => ?_⟩
  · have h1 := h.n_lt
    have h2 := h.n_nonneg
    rw [length_pending]
    show _ ≤ sb.nlog - 1
    omega
  · have hm : w.1 ∈ (pending s 0 s.log.lh.n.toNat).map Prod.fst := List.mem_map_of_mem hw
    rw [map_fst_pending] at hm
    exact (h.home _ hm).1

/-- The log writes of `write_log` are the copies of the redo log. -/
theorem copied_eq_copies (h : s.log.start = sb.logstart) : ∀ k tail : Nat,
    copied s tail k = (logLayout sb hn).copies tail (pending s tail k)
  | 0, _ => rfl
  | k + 1, tail => by
    show (s.log.start + tail + 1, view s (s.log.lh.block tail)) :: copied s (tail + 1) k = _
    rw [copied_eq_copies h k (tail + 1), h]
    rfl

/-- The header block with which `commit` commits. -/
def fullHead (sb : Superblock) (s : Store) : Block := putHead (s.disk sb.logstart) s.log.lh

/-- The header block with which `commit` erases the transaction. -/
def emptyHead (sb : Superblock) (s : Store) : Block :=
  putHead (fullHead sb s) s.log.lh.cleared

theorem entries_emptyHead (sb : Superblock) (s : Store) : entries (emptyHead sb s) = [] :=
  entries_cleared _ _

theorem LogOk.entries_fullHead (h : LogOk sb s) :
    entries (fullHead sb s) = (pending s 0 s.log.lh.n.toNat).map Prod.fst := by
  rw [map_fst_pending, listed]
  have h1 := h.n_le
  have h2 : (LOGSIZE : Int) < 2 ^ 31 := by decide
  exact entries_putHead _ h.n_nonneg (by omega) fun i hi => (h.home _ (mem_listed hi)).2

/-- The writes of a commit. -/
def txnWrites (s : Store) : List (Nat × Block) :=
  (logLayout sb hn).commitWrites (pending s 0 s.log.lh.n.toNat) (fullHead sb s) (emptyHead sb s)

/-- After `write_log` the log blocks hold what is to be installed. -/
theorem logged_eq_pending {s' : Store} (hn : 0 < sb.nlog) (h : s.log.start = sb.logstart) (hl : s'.log = s.log)
    (hv : ∀ i, i < s.log.lh.n.toNat → view s' (sb.logstart + i + 1) =
      applyWrites (view s) (copied s 0 s.log.lh.n.toNat) (sb.logstart + i + 1)) :
    logged s' 0 s.log.lh.n.toNat = pending s 0 s.log.lh.n.toNat := by
  refine range'_map_congr fun i _ hi => ?_
  rw [hl, h, hv i (by omega), copied_eq_copies hn h]
  have hlt : i < (pending s 0 s.log.lh.n.toNat).length := by rw [length_pending]; omega
  have hc := LogLayout.applyWrites_copies (L := logLayout sb hn) 0 _ (view s) i hlt
  rw [Nat.zero_add] at hc
  refine Prod.ext rfl (hc.trans ?_)
  simp only [pending, List.getElem_map, List.getElem_range', Nat.zero_add, Nat.one_mul]

/-- Dropping the pin of every listed block leaves no reference. -/
theorem unpinnedAll_false (r : Nat → Nat) : ∀ bs : List Nat, (∀ b ∈ bs, r b ≤ 1) →
    unpinnedAll false r bs = fun b => if b ∈ bs then 0 else r b := by
  intro bs
  induction bs generalizing r with
  | nil => intro _; funext b; simp [unpinnedAll]
  | cons c bs ih =>
    intro h
    have hc := h c (List.mem_cons_self ..)
    have hr : ∀ b ∈ bs, unpinned false r c b ≤ 1 := by
      intro b hb
      have := h b (List.mem_cons_of_mem _ hb)
      rw [unpinned, if_neg Bool.false_ne_true]
      by_cases hbc : b = c
      · rw [hbc, Function.update_self]; omega
      · rw [Function.update_of_ne hbc]; exact this
    show unpinnedAll false (unpinned false r c) bs = _
    rw [ih _ hr]
    funext b
    rw [unpinned, if_neg Bool.false_ne_true]
    by_cases hbc : b = c
    · subst hbc
      simp only [List.mem_cons_self, if_true, Function.update_self]
      split <;> omega
    · simp only [List.mem_cons, hbc, false_or, Function.update_of_ne hbc]

theorem unpinnedAll_true (r : Nat → Nat) : ∀ bs : List Nat, unpinnedAll true r bs = r
  | [] => rfl
  | _ :: bs => unpinnedAll_true r bs

theorem head_not_mem_copied (h : s.log.start = sb.logstart) (k : Nat) :
    sb.logstart ∉ (copied s 0 k).map Prod.fst := by
  intro hm
  rw [copied, List.map_map] at hm
  obtain ⟨i, -, hi⟩ := List.mem_map.1 hm
  rw [← h] at hi
  exact absurd hi (show s.log.start + i + 1 ≠ s.log.start by omega)

theorem head_not_mem_pending (hn : 0 < sb.nlog) (h : LogOk sb s) :
    sb.logstart ∉ (pending s 0 s.log.lh.n.toNat).map Prod.fst := by
  rw [map_fst_pending]
  exact h.not_listed (logLayout sb hn).head_area

/-- `commit` makes the writes of a redo log's commit, or panics after some of them. -/
theorem commit_spec (h : LogOk sb s) (hpos : 0 < s.log.lh.n) :
    wp commit
      (fun _ s' => s'.log = (s.setHead s.log.lh.cleared).log ∧
        Run s s' (applyWrites (view s) (txnWrites hn s)) (fun _ => 0) (txnWrites hn s))
      (fun _ s' => Cut s s' (txnWrites hn s)) s := by
  have hdisk : view s sb.logstart = s.disk sb.logstart :=
    h.view_eq_disk (h.not_listed (logLayout sb hn).head_area)
  have htxn : txnWrites hn s = copied s 0 s.log.lh.n.toNat ++ [(sb.logstart, fullHead sb s)] ++
      pending s 0 s.log.lh.n.toNat ++ [(sb.logstart, emptyHead sb s)] := by
    rw [txnWrites, LogLayout.commitWrites, copied_eq_copies hn h.start, List.append_assoc,
      List.append_assoc]
    rfl
  rw [commit, htxn]
  simp only [wp_bind, wp_get]
  rw [if_pos hpos]
  simp only [wp_bind]
  rw [writeLog, wp_bind, wp_get]
  -- the copies
  refine wp_mono (writeLogFrom_spec _ 0 h.ok h.dev h.apart) (fun _ s1 h1 => ?_)
    fun _ s' hc => ((hc.1.append _).append _).append _
  obtain ⟨hl1, h1⟩ := h1
  have hv1 : view s1 sb.logstart = s.disk sb.logstart := by
    rw [h1.view, applyWrites_of_not_mem _ (head_not_mem_copied h.start _), hdisk]
  have hw := writeHead_spec h1.ok (by rw [hl1]; exact h.dev)
  rw [hl1, h.start, hv1, ← fullHead] at hw
  -- the header
  refine wp_mono hw (fun _ s2 h2 => ?_)
    fun _ s' hc => ((h1.cut (hc.1.append _)).append _).append _
  have hl2 := h2.log.trans hl1
  replace h2 := h2.toRun
  have h02 := h1.trans h2
  have hlog := logged_eq_pending hn h.start hl2 fun i _ => by
    rw [h2.view, Function.update_of_ne (show sb.logstart + i + 1 ≠ sb.logstart by omega), h1.view]
  rw [installTrans, wp_bind, wp_get, hl2]
  have hr2 : refs s2 = refs s := by rw [h2.refs, h1.refs]
  have hnd : ((List.range' 0 s.log.lh.n.toNat).map s.log.lh.block).Nodup := by
    rw [← listed_eq_range']; exact h.nodup
  have hap : Apart s2 0 s.log.lh.n.toNat := by
    intro i j hi1 hi2 hj1 hj2
    rw [hl2]
    exact h.apart i j hi1 hi2 hj1 hj2
  have hin := installFrom_spec false s.log.lh.n.toNat 0 h2.ok (by rw [hl2]; exact h.dev) hap
    (by rw [hl2]; exact hnd) fun _ i _ hi => by
      rw [hl2, hr2, h.refs]
      simp only [if_pos (mem_listed (s := s) (i := i) (by omega)), Nat.one_pos]
  rw [hl2, hlog, ← listed_eq_range', hr2, unpinnedAll_false _ _ fun b hb => by
    rw [h.refs]; simp only [if_pos hb, Nat.le_refl]] at hin
  -- the home blocks
  refine wp_mono hin (fun _ s3 h3 => ?_) fun _ s' hc => (h02.cut hc.1).append _
  obtain ⟨hl3, h3⟩ := h3
  have h03 := h02.trans h3
  have hv3 : view s3 sb.logstart = fullHead sb s := by
    rw [h3.view, applyWrites_of_not_mem _ (head_not_mem_pending hn h), h2.view,
      Function.update_self]
  have he := eraseHead_spec h3.ok (by rw [hl3]; exact h.dev)
  rw [setHead_log, hl3, h.start, hv3, ← emptyHead] at he
  -- the empty header
  refine wp_mono he (fun _ s4 h4 => ?_) fun _ _ hf => hf.elim
  refine wp_mono h4 (fun _ s5 h5 => ?_) fun _ s' hc => h03.cut (hc.1.append _)
  obtain ⟨hl5, h5, -⟩ := h5
  have h05 := h03.trans h5
  refine ⟨hl5, h05.ok, ?_, ?_, h05.disk, h05.writes⟩
  · rw [h5.view, h3.view, h2.view, h1.view]
    simp only [applyWrites_append, applyWrites_singleton]
  · rw [h5.refs, h3.refs, h.refs]
    funext b
    by_cases hb : b ∈ listed s <;> simp only [hb, if_true, if_false]

/-! ## Recovery -/

/-- `struct log` before `initlog`. -/
def log0 : Log where
  start := 0
  size := 0
  outstanding := 0
  committing := false
  dev := 0
  lh := { n := 0, block := fun _ => 0 }

/-- The restart of the machine over a disk: an empty cache, then `initlog`. -/
def restart (sb : Superblock) (disk : Nat → Block) : EStateM.Result Halt Store Unit :=
  initlog ROOTDEV sb (binit disk log0)

/-- The transaction that recovery finds on a disk. -/
def foundTxn (sb : Superblock) (d : Nat → Block) : List (Nat × Block) :=
  (List.range (headN (d sb.logstart)).toNat).map fun i =>
    (headBlock (d sb.logstart) i, d (sb.logstart + i + 1))

/-- The header block recovery leaves. -/
def recoveredHead (sb : Superblock) (d : Nat → Block) : Block :=
  putHead (d sb.logstart) log0.lh.cleared

/-- A disk whose header lists distinct home blocks, as many as the log has copies of. -/
structure Recoverable (sb : Superblock) (d : Nat → Block) : Prop where
  nodup : (entries (d sb.logstart)).Nodup
  fits : (entries (d sb.logstart)).length < sb.nlog
  home : ∀ b ∈ entries (d sb.logstart), ¬ InLog sb b

theorem ok_binit (d : Nat → Block) (l : Log) : Ok (binit d l) := by
  have hno : ∀ i b, ¬ Has (binit d l) i b := fun i b h => absurd h.dev (by
    show (0 : Nat) ≠ ROOTDEV; decide)
  refine ⟨fun i => ?_, fun i b h => absurd h (hno i b), fun i j b h => absurd h (hno i b),
    fun i b h => absurd h (hno i b), fun i _ h => absurd h (Nat.lt_irrefl 0)⟩
  show i ∈ (List.range NBUF).reverse ↔ _
  rw [List.mem_reverse, List.mem_range]

theorem binit_run (d : Nat → Block) (l : Log) : Run (binit d l) (binit d l) d (fun _ => 0) [] := by
  have hs := ok_binit d l
  have hno : ∀ i b, ¬ Has (binit d l) i b := fun i b h => absurd h.dev (by
    show (0 : Nat) ≠ ROOTDEV; decide)
  exact ⟨hs, funext fun b => view_of_not_has hs fun i => hno i b,
    funext fun b => refs_of_not_has hs fun i => hno i b, rfl, (List.append_nil _).symm⟩

/-- The machine after a restart over the disk `d`. -/
structure Booted (sb : Superblock) (d : Nat → Block) (s : Store) : Prop where
  run : Run (binit d log0) s
    (applyWrites d ((foundTxn sb d) ++ [(sb.logstart, recoveredHead sb d)])) (fun _ => 0)
    (foundTxn sb d ++ [(sb.logstart, recoveredHead sb d)])
  dev : s.log.dev = ROOTDEV
  start : s.log.start = sb.logstart
  size : s.log.size = sb.nlog
  committing : s.log.committing = false
  n_eq : s.log.lh.n = 0

theorem map_fst_foundTxn (d : Nat → Block) :
    (foundTxn sb d).map Prod.fst = entries (d sb.logstart) := by
  rw [foundTxn, List.map_map]
  rfl

theorem headOf_block (data : Block) (lh : LogHeader) {i : Nat} (h : i < (headN data).toNat) :
    (headOf data lh).block i = headBlock data i := if_pos (by omega)

/-- The in-memory header after `read_head` lists the entries of the header block. -/
theorem map_headOf_block (data : Block) (lh : LogHeader) :
    (List.range' 0 (headN data).toNat).map (headOf data lh).block = entries data := by
  rw [entries, List.range_eq_range']
  exact range'_map_congr fun i _ hi => headOf_block data lh (by omega)

theorem Stop.false {s' : Store} {ws : List (Nat × Block)} (h : Stop s s' ws)
    (hr : refs s = fun _ => 0) : False := by
  obtain ⟨-, c, hc⟩ := h
  rw [hr] at hc
  exact absurd hc (Nat.lt_irrefl 0)

/-- `recover_from_log`, run with nothing referenced, installs what the header lists. -/
theorem recoverFromLog_spec {d : Nat → Block} (hd : Recoverable sb d) (hs : Ok s)
    (hdev : s.log.dev = ROOTDEV) (hst : s.log.start = sb.logstart) (hv : view s = d)
    (hr : refs s = fun _ => 0) :
    wp recoverFromLog
      (fun _ s' => s'.log = { s.log with lh := (headOf (d sb.logstart) s.log.lh).cleared } ∧
        Run s s' (applyWrites d (foundTxn sb d ++ [(sb.logstart, recoveredHead sb d)]))
          (fun _ => 0) (foundTxn sb d ++ [(sb.logstart, recoveredHead sb d)]))
      (fun _ _ => False) s := by
  rw [recoverFromLog]
  simp only [wp_bind]
  have hh := readHead_spec hs hdev
  rw [hv, hst, hr] at hh
  refine wp_mono hh (fun _ s1 h1 => ?_) fun _ _ h => h.false hr
  obtain ⟨hl1, h1⟩ := h1
  rw [setHead_log] at hl1
  rw [installTrans, wp_bind, wp_get, hl1]
  have hmap := map_headOf_block (d sb.logstart) s.log.lh
  have hap : Apart s1 0 (headN (d sb.logstart)).toNat := by
    intro i j _ hi _ hj heq
    rw [hl1] at heq
    have hmem : (headOf (d sb.logstart) s.log.lh).block i ∈ entries (d sb.logstart) := by
      rw [← hmap]
      exact List.mem_map_of_mem (List.mem_range'_1.2 ⟨Nat.zero_le i, hi⟩)
    have hlen := hd.fits
    rw [entries, List.length_map, List.length_range] at hlen
    have heq' : (headOf (d sb.logstart) s.log.lh).block i = s.log.start + j + 1 := heq
    rw [heq', hst] at hmem
    exact hd.home _ hmem ⟨by omega, by omega⟩
  have hlg : logged s1 0 (headN (d sb.logstart)).toNat = foundTxn sb d := by
    rw [foundTxn, List.range_eq_range']
    refine range'_map_congr fun i _ hi => ?_
    rw [hl1, h1.view]
    exact Prod.ext (headOf_block _ _ (by omega)) (by rw [← hst])
  have hin := installFrom_spec true (headN (d sb.logstart)).toNat 0 h1.ok (by rw [hl1]; exact hdev)
    hap (by rw [hl1, hmap]; exact hd.nodup) fun h => absurd h (by decide)
  rw [hlg, unpinnedAll_true, h1.view, h1.refs, hl1] at hin
  refine wp_mono hin (fun _ s2 h2 => ?_) fun _ _ h => h.false h1.refs
  obtain ⟨hl2, h2⟩ := h2
  have hhead : sb.logstart ∉ (foundTxn sb d).map Prod.fst := by
    rw [map_fst_foundTxn]
    exact fun h => hd.home _ h ⟨Nat.le_refl _, by have := hd.fits; omega⟩
  have he := eraseHead_spec h2.ok (by rw [hl2]; exact hdev)
  rw [setHead_log, hl2, h2.view, hst, applyWrites_of_not_mem _ hhead,
    putHead_cleared (d sb.logstart) _ log0.lh, ← recoveredHead] at he
  refine wp_mono he (fun _ s3 h3 => ?_) fun _ _ h => h.elim
  refine wp_mono h3 (fun _ s4 h4 => ?_) fun _ _ h => h.false h2.refs
  obtain ⟨hl4, h4, -⟩ := h4
  have h04 := (h1.trans h2).trans h4
  refine ⟨hl4, h04.ok, ?_, by rw [h4.refs, h2.refs], h04.disk, h04.writes⟩
  rw [h4.view, applyWrites_append]
  rfl

/-- Recovery from a recoverable disk returns, with no operation outstanding. -/
theorem restart_idle {d : Nat → Block} (hd : Recoverable sb d) :
    ∃ s', restart sb d = .ok () s' ∧ Booted sb d s' ∧ s'.log.outstanding = 0 := by
  have hwp : wp (initlog ROOTDEV sb) (fun _ s' => Booted sb d s' ∧ s'.log.outstanding = 0)
      (fun _ _ => False) (binit d log0) := by
    have h0 := binit_run d log0
    have h1 := run_setLog h0.ok ({ (binit d log0).log with
      start := sb.logstart, size := sb.nlog, dev := ROOTDEV } : Log)
    rw [initlog, if_neg (by decide)]
    simp only [wp_bind, wp_modify]
    refine wp_mono (recoverFromLog_spec hd h1.ok rfl rfl (by rw [h1.view, h0.view])
      (by rw [h1.refs, h0.refs])) (fun _ s2 h2 => ?_) fun _ _ h => h
    obtain ⟨hl2, h2⟩ := h2
    exact ⟨⟨h1.trans h2, by rw [hl2]; rfl, by rw [hl2]; rfl, by rw [hl2]; rfl, by rw [hl2]; rfl,
      by rw [hl2]; rfl⟩, by rw [hl2]; rfl⟩
  obtain ⟨_, s', h, hb⟩ := wp.exists_ok hwp
  exact ⟨s', h, hb⟩

/-- Recovery from a recoverable disk returns, having installed what the header lists. -/
theorem restart_spec {d : Nat → Block} (hd : Recoverable sb d) :
    ∃ s', restart sb d = .ok () s' ∧ Booted sb d s' := by
  obtain ⟨s', h, hb, -⟩ := restart_idle hd
  exact ⟨s', h, hb⟩

/-- What a restart over `d` leaves when the machine crashes after `k` of its writes. -/
def interrupted (sb : Superblock) (d : Nat → Block) (k : Nat) : Nat → Block :=
  applyWrites d ((finalState (initlog ROOTDEV sb) (binit d log0)).writes.take k)

section

variable {t : List (Nat × Block)} {d₀ d : Nat → Block}

/-- A logged disk is recoverable, and recovery finds the logged transaction. -/
theorem logged_found (hf : (logLayout sb hn).Fits t) (ht : (t.map Prod.fst).Nodup)
    (hd : (logLayout sb hn).Logged t d₀ d) : Recoverable sb d ∧ foundTxn sb d = t := by
  have hent : entries (d sb.logstart) = t.map Prod.fst := hd.1
  have hlen : (headN (d sb.logstart)).toNat = t.length := by
    have h := congrArg List.length hent
    rwa [entries, List.length_map, List.length_range, List.length_map] at h
  have hfit : t.length ≤ sb.nlog - 1 := hf.1
  refine ⟨⟨by rw [hent]; exact ht, by rw [hent, List.length_map]; omega, fun b hb => ?_⟩, ?_⟩
  · rw [hent] at hb
    obtain ⟨w, hw, rfl⟩ := List.mem_map.1 hb
    exact hf.2 w hw
  · refine List.ext_getElem (by rw [foundTxn, List.length_map, List.length_range, hlen]) ?_
    intro i hi hit
    have hb : headBlock (d sb.logstart) i = t[i].1 := by
      have h := List.getElem_of_eq hent (i := i) (by rw [hent, List.length_map]; exact hit)
      simpa [entries] using h
    have hs : d (sb.logstart + i + 1) = t[i].2 := hd.2.1 i hit
    simp only [foundTxn, List.getElem_map, List.getElem_range, hb, hs]

theorem Recoverable.writes_restart (hd : Recoverable sb d) :
    (finalState (initlog ROOTDEV sb) (binit d log0)).writes =
      foundTxn sb d ++ [(sb.logstart, recoveredHead sb d)] := by
  obtain ⟨s', h, hb⟩ := restart_spec hd
  rw [finalState, show initlog ROOTDEV sb (binit d log0) = .ok () s' from h]
  exact hb.run.writes

theorem entries_recoveredHead (sb : Superblock) (d : Nat → Block) :
    entries (recoveredHead sb d) = [] :=
  entries_cleared _ _

/-- A clean disk is one on which the empty transaction is logged. -/
theorem clean_iff_logged_nil : (logLayout sb hn).Clean d₀ d ↔ (logLayout sb hn).Logged [] d₀ d :=
  ⟨fun h => ⟨h.1, fun i hi => absurd hi (Nat.not_lt_zero i), fun b hb _ => h.2 b hb⟩,
    fun h => ⟨h.1, fun b hb => h.2.2 b hb (by simp)⟩⟩

theorem fits_nil : (logLayout sb hn).Fits [] := ⟨Nat.zero_le _, fun w hw => by simp at hw⟩

/-- A crash during a restart leaves a disk of the same kind. -/
theorem logged_interrupted (hf : (logLayout sb hn).Fits t)
    (ht : (t.map Prod.fst).Nodup) (hd : (logLayout sb hn).Logged t d₀ d) (k : Nat) :
    (logLayout sb hn).Crashed t d₀ (interrupted sb d k) := by
  obtain ⟨hrec, hfound⟩ := logged_found hn hf ht hd
  rw [interrupted, hrec.writes_restart, hfound]
  exact LogLayout.recover_take (L := logLayout sb hn) (entries_recoveredHead sb d) hf hd k

/-- A finished restart leaves the transaction applied and a machine between two operations. -/
theorem logged_restart (hf : (logLayout sb hn).Fits t) (ht : (t.map Prod.fst).Nodup)
    (hd : (logLayout sb hn).Logged t d₀ d) :
    ∃ s', restart sb d = .ok () s' ∧ Booted sb d s' ∧
      (logLayout sb hn).Clean (applyWrites d₀ t) s'.disk := by
  obtain ⟨hrec, hfound⟩ := logged_found hn hf ht hd
  obtain ⟨s', h, hb⟩ := restart_spec hrec
  refine ⟨s', h, hb, ?_⟩
  have hdisk : s'.disk = applyWrites d (foundTxn sb d ++ [(sb.logstart, recoveredHead sb d)]) :=
    hb.run.disk
  rw [hdisk, hfound, applyWrites_append, applyWrites_singleton]
  exact hd.finish (entries_recoveredHead sb d)

/-- Any number of crashes during restarts leave a disk of the same kind. -/
theorem crashed_interrupted (hf : (logLayout sb hn).Fits t) (ht : (t.map Prod.fst).Nodup) :
    ∀ (ks : List Nat) {d : Nat → Block}, (logLayout sb hn).Crashed t d₀ d →
      (logLayout sb hn).Crashed t d₀ (ks.foldl (interrupted sb) d)
  | [], _, h => h
  | k :: ks, d, h => by
    refine crashed_interrupted hf ht ks ?_
    rcases h with h | h
    · exact logged_interrupted hn hf ht h k
    · have hk := logged_interrupted hn (fits_nil hn) List.nodup_nil
        ((clean_iff_logged_nil hn).1 h) k
      refine Or.inr ?_
      rcases hk with hk | hk
      · exact (clean_iff_logged_nil hn).2 hk
      · exact hk

/-- **Recovery after crashes**: over what a crash left, a restart that is interrupted any number
of times and then finishes leaves exactly the home blocks of the transaction. -/
theorem crashed_restart (hf : (logLayout sb hn).Fits t) (ht : (t.map Prod.fst).Nodup)
    (ks : List Nat) (h : (logLayout sb hn).Crashed t d₀ d) :
    ∃ s', restart sb (ks.foldl (interrupted sb) d) = .ok () s' ∧
      Booted sb (ks.foldl (interrupted sb) d) s' ∧
      (logLayout sb hn).Clean (applyWrites d₀ t) s'.disk := by
  rcases crashed_interrupted hn hf ht ks h with h | h
  · exact logged_restart hn hf ht h
  · have hr := logged_restart hn (fits_nil hn) List.nodup_nil ((clean_iff_logged_nil hn).1 h)
    exact hr

end

end

end Xv6
