import Xv6.Disk.Crash

/-!
# Histories of the machine

The steps of a history and the invariant that holds along every one: the cache and the log are
in order (`LogOk`), the home blocks on the disk are those before the running transaction, and
what the cache shows is those with the transaction's writes applied.
-/

set_option autoImplicit false

namespace Xv6

open Cache

/-- What a file-system call does to the disk: it reads and writes blocks between `begin_op` and
`end_op`. -/
inductive FsOp
  | beginOp
  /-- `bread`; `brelse`. -/
  | read (b : Nat)
  /-- `bread`, modify, `log_write`, `brelse`. -/
  | write (b : Nat) (data : Block)
  | endOp

namespace FsOp

/-- The code of a step. -/
def run : FsOp → Kern Store Unit
  | .beginOp => Xv6.beginOp
  | .read b => do
    let i ← bread ROOTDEV b
    brelse i
  | .write b data => do
    let i ← bread ROOTDEV b
    setData i data
    logWrite i
    brelse i
  | .endOp => Xv6.endOp

/-- File-system calls write home blocks only; block numbers are 32-bit. -/
def Allowed (sb : Superblock) : FsOp → Prop
  | .write b _ => ¬ InLog sb b ∧ b < 2 ^ 32
  | _ => True

/-- The home blocks before the running transaction and the writes of that transaction, after a
step that ended in `s'`.  The `end_op` of the last call outstanding ends the transaction. -/
def next (op : FsOp) (s' : Store) (d : Nat → Block) (ws : List (Nat × Block)) :
    (Nat → Block) × List (Nat × Block) :=
  match op with
  | .write b data => (d, ws ++ [(b, data)])
  | .endOp => if s'.log.outstanding = 0 then (applyWrites d ws, []) else (d, ws)
  | _ => (d, ws)

/-- The disk writes of a step. -/
def writes (op : FsOp) (s : Store) : List (Nat × Block) :=
  (finalState op.run s).writes.drop s.writes.length

/-- The disk a crash leaves after `k` disk writes of a step. -/
def crash (op : FsOp) (s : Store) (k : Nat) : Nat → Block :=
  applyWrites s.disk ((op.writes s).take k)

end FsOp

/-- `History sb s d ws`: the machine can be in state `s`, the home blocks having been those of `d`
before the running transaction, which has written `ws` so far. -/
inductive History (sb : Superblock) : Store → (Nat → Block) → List (Nat × Block) → Prop
  /-- The machine starts on a disk with an empty log. -/
  | boot {d : Nat → Block} {s : Store} (hd : entries (d sb.logstart) = [])
      (h : restart sb d = .ok () s) : History sb s d []
  | step {s s' : Store} {d : Nat → Block} {ws : List (Nat × Block)} (op : FsOp)
      (hs : History sb s d ws) (ha : op.Allowed sb) (h : op.run s = .ok () s') :
      History sb s' (op.next s' d ws).1 (op.next s' d ws).2
  /-- A crash during a step, any number of crashed restarts, and one that finishes. -/
  | crash {s s' : Store} {d : Nat → Block} {ws : List (Nat × Block)} (op : FsOp) (k : Nat)
      (ks : List Nat) (hs : History sb s d ws) (ha : op.Allowed sb)
      (h : restart sb (ks.foldl (interrupted sb) (op.crash s k)) = .ok () s') :
      History sb s' s'.disk []

/-- The disk holds the home blocks before the running transaction, and the cache shows those
after its writes. -/
structure Tracks (sb : Superblock) (s : Store) (d : Nat → Block) (ws : List (Nat × Block)) :
    Prop where
  log : LogOk sb s
  disk : ∀ b, ¬ InLog sb b → s.disk b = d b
  view : ∀ b, ¬ InLog sb b → view s b = applyWrites d ws b

/-- The invariant of histories. -/
structure Inv (sb : Superblock) (s : Store) (d : Nat → Block) (ws : List (Nat × Block)) : Prop
    extends Tracks sb s d ws where
  committing : s.log.committing = false

section

variable {sb : Superblock} {s s' : Store} {d : Nat → Block} {ws : List (Nat × Block)}

/-! ## Each step keeps the invariant -/

/-- Code that shows nothing new keeps the invariant. -/
theorem Tracks.of_run (hi : Tracks sb s d ws) (hr : Run s s' (Cache.view s) (refs s) [])
    (hdev : s'.log.dev = s.log.dev) (hst : s'.log.start = s.log.start)
    (hsz : s'.log.size = s.log.size) (hlh : s'.log.lh = s.log.lh) : Tracks sb s' d ws := by
  have hlist : listed s' = listed s := by rw [listed, listed, hlh]
  have hdisk : s'.disk = s.disk := hr.disk
  have h := hi.log
  refine ⟨⟨hr.ok, hdev.trans h.dev, hst.trans h.start, hsz.trans h.size, ?_, ?_, ?_, ?_, ?_, ?_,
    ?_⟩, ?_, ?_⟩
  · rw [hlh]; exact h.n_nonneg
  · rw [hlh]; exact h.n_le
  · rw [hlh]; exact h.n_lt
  · rw [hlist]; exact h.home
  · rw [hlist]; exact h.nodup
  · rw [hlist, hr.refs]; exact h.refs
  · rw [hdisk]; exact h.empty
  · rw [hdisk]; exact hi.disk
  · rw [hr.view]; exact hi.view

theorem beginOp_spec (hi : Inv sb s d ws) :
    wp beginOp (fun _ s' => Inv sb s' d ws ∧ Run s s' (view s) (refs s) [])
      (fun _ s' => Cut s s' []) s := by
  rw [beginOp]
  simp only [wp_bind, wp_get, wp_ite, wp_sleep, wp_modify]
  split
  · exact Cut.refl s []
  · split
    · exact Cut.refl s []
    · have hr := run_setLog hi.log.ok { s.log with outstanding := s.log.outstanding + 1 }
      exact ⟨⟨hi.of_run hr rfl rfl rfl rfl, hi.committing⟩, hr⟩

theorem read_spec (hi : Inv sb s d ws) (b : Nat) :
    wp (FsOp.read b).run (fun _ s' => Inv sb s' d ws ∧ Run s s' (view s) (refs s) [])
      (fun _ s' => Cut s s' []) s := by
  rw [FsOp.run, wp_bind]
  refine wp_mono (bread_spec hi.log.ok b) (fun i s1 h1 => ?_)
    fun _ s' h => by rw [h.1]; exact Cut.refl s []
  obtain ⟨hi1, h1⟩ := h1
  have hd1 : s1.disk = s.disk := h1.disk
  have hr1 : refs s1 b = refs s b + 1 := by rw [h1.refs, Function.update_self]
  refine wp_mono (brelse_spec h1.ok hi1 fun h => ?_) (fun _ s2 h2 => ?_) fun _ _ h => h
  · rw [h1.view, hd1, view_eq_disk hi.log.ok (by omega)]
  · have h02 := h1.toRun.trans h2.toRun
    rw [h1.view, hr1, Nat.add_sub_cancel, h1.refs, Function.update_idem,
      Function.update_eq_self] at h02
    have hl : s2.log = s.log := by rw [h2.log, h1.log]
    exact ⟨⟨hi.of_run h02 (by rw [hl]) (by rw [hl]) (by rw [hl]) (by rw [hl]),
      by rw [hl]; exact hi.committing⟩, h02⟩

/-! ### `log_write` -/

/-- `log_write` finds the entry of a listed block. -/
theorem logIndex_of_mem {lh : LogHeader} {b : Nat}
    (h : b ∈ (List.range lh.n.toNat).map lh.block) :
    logIndex lh b < lh.n.toNat ∧ lh.block (logIndex lh b) = b := by
  rw [logIndex]
  cases hf : (List.range lh.n.toNat).find? fun i => lh.block i == b with
  | some i =>
    have h1 := List.find?_some hf
    rw [beq_iff_eq] at h1
    exact ⟨List.mem_range.1 (List.mem_of_find?_eq_some hf), h1⟩
  | none =>
    obtain ⟨i, hi, hb⟩ := List.mem_map.1 h
    have := List.find?_eq_none.1 hf i hi
    rw [beq_iff_eq] at this
    exact absurd hb this

/-- `log_write` adds a block that is not listed at the end. -/
theorem logIndex_of_not_mem {lh : LogHeader} {b : Nat}
    (h : b ∉ (List.range lh.n.toNat).map lh.block) : logIndex lh b = lh.n.toNat := by
  rw [logIndex, List.find?_eq_none.2 fun i hi => ?_, Option.getD_none]
  rw [beq_iff_eq]
  exact fun hb => h (hb ▸ List.mem_map_of_mem hi)

/-- The header after `log_write` of block `b`. -/
def logAdd (lh : LogHeader) (b : Nat) : LogHeader :=
  if b ∈ (List.range lh.n.toNat).map lh.block then lh
  else { n := lh.n + 1, block := Function.update lh.block lh.n.toNat b }

theorem logAdd_of_mem {b : Nat} (hb : b ∈ listed s) : logAdd s.log.lh b = s.log.lh := if_pos hb

theorem logAdd_of_not_mem {b : Nat} (hb : b ∉ listed s) : logAdd s.log.lh b =
    ⟨s.log.lh.n + 1, Function.update s.log.lh.block s.log.lh.n.toNat b⟩ := if_neg hb

/-- `log_write` of a held buffer lists its block, pinning it if it was not listed. -/
theorem logWrite_spec {i b : Nat} (hs : Ok s) (hi : Has s i b) (hn : 0 ≤ s.log.lh.n) :
    wp (logWrite i)
      (fun _ s' => s.log.lh.n < LOGSIZE ∧ s.log.lh.n < (s.log.size : Int) - 1 ∧
        s'.log = { s.log with lh := logAdd s.log.lh b } ∧ Has s' i b ∧
        Run s s' (view s)
          (Function.update (refs s) b (if b ∈ listed s then refs s b else refs s b + 1)) [] ∧
        1 ≤ s.log.outstanding ∧ ∀ k c, Has s k c → 0 < refs s c → Has s' k c)
      (fun _ s' => s' = s) s := by
  rw [logWrite]
  simp only [wp_bind, wp_get, wp_ite, wp_panic, hi.blockno]
  split
  · trivial
  next hroom =>
  split
  · trivial
  next hout =>
  rw [wp_modify]
  have hroom' : s.log.lh.n < LOGSIZE ∧ s.log.lh.n < (s.log.size : Int) - 1 := by omega
  by_cases hb : b ∈ listed s
  · obtain ⟨hlt, heq⟩ := logIndex_of_mem hb
    have hhead : (⟨s.log.lh.n, Function.update s.log.lh.block (logIndex s.log.lh b) b⟩ : LogHeader)
        = s.log.lh := by
      rw [Function.update_eq_self_iff.2 heq.symm]
    rw [if_neg (by omega), wp_pure, hhead, if_pos hb, Function.update_eq_self, logAdd_of_mem hb]
    exact ⟨hroom'.1, hroom'.2, rfl, ⟨hi.lt, hi.dev, hi.blockno⟩, run_setLog hs s.log, by omega,
      fun k c hk _ => ⟨hk.lt, hk.dev, hk.blockno⟩⟩
  · have hidx := logIndex_of_not_mem hb
    rw [if_pos (by omega)]
    have h1 := run_setLog hs { s.log with
      lh := { s.log.lh with block := Function.update s.log.lh.block (logIndex s.log.lh b) b } }
    rw [← Store.setHead] at h1
    have hi1 : Has (s.setHead { s.log.lh with
        block := Function.update s.log.lh.block (logIndex s.log.lh b) b }) i b :=
      ⟨hi.lt, hi.dev, hi.blockno⟩
    rw [if_neg hb, logAdd_of_not_mem hb]
    refine wp_mono (bpin_spec h1.ok hi1) (fun _ s2 h2 => ?_) fun _ _ h => h
    obtain ⟨hi2, h2⟩ := h2
    have h3 := run_setLog h2.ok { s2.log with lh := { s2.log.lh with n := s2.log.lh.n + 1 } }
    have h03 := (h1.trans h2.toRun).trans h3
    rw [h2.view, h2.refs, h1.view, h1.refs] at h03
    rw [wp_modify]
    refine ⟨hroom'.1, hroom'.2, ?_, ⟨hi2.lt, hi2.dev, hi2.blockno⟩, h03, by omega,
      fun k c hk hc => ?_⟩
    · rw [setHead_log, h2.log, setHead_log, hidx]
    · have hk2 := h2.keeps k c ⟨hk.lt, hk.dev, hk.blockno⟩ hc
      exact ⟨hk2.lt, hk2.dev, hk2.blockno⟩

/-- The blocks a header lists. -/
def LogHeader.blocks (lh : LogHeader) : List Nat := (List.range lh.n.toNat).map lh.block

/-- What a header lists after `log_write`. -/
theorem blocks_logAdd {lh : LogHeader} (hn : 0 ≤ lh.n) (b : Nat) :
    (logAdd lh b).blocks = if b ∈ lh.blocks then lh.blocks else lh.blocks ++ [b] := by
  rw [logAdd, LogHeader.blocks, LogHeader.blocks]
  by_cases hb : b ∈ (List.range lh.n.toNat).map lh.block
  · rw [if_pos hb, if_pos hb]
  · rw [if_neg hb, if_neg hb]
    have hsucc : (lh.n + 1).toNat = lh.n.toNat + 1 := by omega
    simp only [hsucc, List.range_succ, List.map_append, List.map_singleton, Function.update_self]
    congr 1
    refine List.map_congr_left fun i hi => ?_
    exact Function.update_of_ne (Nat.ne_of_lt (List.mem_range.1 hi)) _ _

/-- What `log_write` lists. -/
theorem listed_logAdd (hn : 0 ≤ s.log.lh.n) {b : Nat} (hl : s'.log.lh = logAdd s.log.lh b) :
    listed s' = if b ∈ listed s then listed s else listed s ++ [b] := by
  rw [listed, hl]
  exact blocks_logAdd hn b

theorem mem_listed_logAdd {b c : Nat} {l : List Nat} :
    c ∈ (if b ∈ l then l else l ++ [b]) ↔ c ∈ l ∨ c = b := by
  by_cases hb : b ∈ l
  · rw [if_pos hb]
    exact ⟨Or.inl, fun h => h.elim id fun h => h ▸ hb⟩
  · rw [if_neg hb, List.mem_append, List.mem_singleton]

/-- Writing a block adds it to the running transaction. -/
theorem write_spec (hi : Inv sb s d ws) {b : Nat} (hb : ¬ InLog sb b) (hlt : b < 2 ^ 32)
    (data : Block) :
    wp (FsOp.write b data).run
      (fun _ s' => Inv sb s' d (ws ++ [(b, data)]) ∧ s'.writes = s.writes)
      (fun _ s' => Cut s s' []) s := by
  have h := hi.log
  rw [FsOp.run]
  simp only [wp_bind]
  refine wp_mono (bread_spec h.ok b) (fun i s1 h1 => ?_)
    fun _ s' he => by rw [he.1]; exact Cut.refl s []
  obtain ⟨hi1, h1⟩ := h1
  have hr1 : refs s1 b = refs s b + 1 := by rw [h1.refs, Function.update_self]
  refine wp_mono (setData_spec h1.ok hi1 (by omega) data) (fun _ s2 h2 => ?_) fun _ _ he => he
  have h02 := h1.toRun.trans h2.toRun
  have hl2 : s2.log = s.log := by rw [h2.log, h1.log]
  have hi2 := h2.keeps i b hi1 (by omega)
  have hlist2 : listed s2 = listed s := by rw [listed, listed, hl2]
  refine wp_mono (logWrite_spec h2.ok hi2 (by rw [hl2]; exact h.n_nonneg))
    (fun _ s3 h3 => ?_) fun _ s' he => by
      rw [he]; exact h02.cut (Cut.refl s2 [])
  obtain ⟨hlog, hsize, hl3, hi3, h3, -⟩ := h3
  rw [hl2] at hlog hsize hl3
  rw [hlist2] at h3
  have hrefs : refs s b = if b ∈ listed s then 1 else 0 := congrFun h.refs b
  have hr3 : refs s3 b = 2 := by
    rw [h3.refs, Function.update_self, h2.refs, hr1, hrefs]
    split <;> rfl
  refine wp_mono (brelse_spec h3.ok hi3 fun he => by omega) (fun _ s4 h4 => ?_) fun _ _ he => he
  have h04 := (h02.trans h3).trans h4.toRun
  have hl4 : s4.log = { s.log with lh := logAdd s.log.lh b } := by rw [h4.log, hl3]
  have hlist : listed s4 = if b ∈ listed s then listed s else listed s ++ [b] :=
    listed_logAdd h.n_nonneg (by rw [hl4])
  have hn4 : s4.log.lh.n = s.log.lh.n ∨ s4.log.lh.n = s.log.lh.n + 1 := by
    rw [hl4]
    show (logAdd s.log.lh b).n = _ ∨ (logAdd s.log.lh b).n = _
    rw [logAdd]
    split
    · exact Or.inl rfl
    · exact Or.inr rfl
  have hdisk : s4.disk = s.disk := h04.disk
  have hview : view s4 = Function.update (view s) b data := by
    rw [h4.view, h3.view, h2.view, h1.view]
  have hnn := h.n_nonneg
  rw [h.size] at hsize
  refine ⟨⟨⟨⟨h04.ok, by rw [hl4]; exact h.dev, by rw [hl4]; exact h.start,
    by rw [hl4]; exact h.size, ?_, ?_, ?_, ?_, ?_, ?_, ?_⟩, ?_, ?_⟩, ?_⟩, ?_⟩
  · omega
  · omega
  · omega
  · intro c hc
    rw [hlist, mem_listed_logAdd] at hc
    rcases hc with hc | rfl
    · exact h.home c hc
    · exact ⟨hb, hlt⟩
  · rw [hlist]
    split
    · exact h.nodup
    · next hnb =>
      exact List.nodup_append.2 ⟨h.nodup, by simp, fun x hx y hy hxy =>
        hnb (by rw [List.mem_singleton.1 hy] at hxy; exact hxy ▸ hx)⟩
  · rw [h4.refs, hr3, h3.refs, Function.update_idem, h2.refs, h1.refs, Function.update_idem]
    funext c
    rw [hlist]
    simp only [mem_listed_logAdd]
    by_cases hcb : c = b
    · rw [hcb, Function.update_self, if_pos (Or.inr rfl)]
    · rw [Function.update_of_ne hcb, h.refs]
      simp only [hcb, or_false]
  · rw [hdisk]; exact h.empty
  · rw [hdisk]; exact hi.disk
  · intro c hc
    rw [hview, applyWrites_append, applyWrites_singleton]
    by_cases hcb : c = b
    · rw [hcb, Function.update_self, Function.update_self]
    · rw [Function.update_of_ne hcb, Function.update_of_ne hcb, hi.view c hc]
  · rw [hl4]; exact hi.committing
  · rw [h04.writes]
    exact List.append_nil _

/-! ### `end_op` -/

/-- The home blocks after the running transaction, as the log would install them. -/
theorem Tracks.applyWrites_pending (hi : Tracks sb s d ws) {b : Nat} (hb : ¬ InLog sb b) :
    applyWrites s.disk (pending s 0 s.log.lh.n.toNat) b = applyWrites d ws b := by
  rw [← hi.view b hb]
  by_cases hm : b ∈ listed s
  · rw [← map_fst_pending] at hm
    obtain ⟨w, hw, rfl⟩ := List.mem_map.1 hm
    have hnd : ((pending s 0 s.log.lh.n.toNat).map Prod.fst).Nodup := by
      rw [map_fst_pending]; exact hi.log.nodup
    rw [applyWrites_of_nodup _ hnd hw]
    obtain ⟨i, -, rfl⟩ := List.mem_map.1 hw
    rfl
  · rw [hi.log.view_eq_disk hm, applyWrites_of_not_mem]
    rwa [map_fst_pending]

/-- The log holds no transaction: the home blocks are those of the cache. -/
theorem Tracks.nothing_pending (hi : Tracks sb s d ws) (hn : ¬ 0 < s.log.lh.n) {b : Nat}
    (hb : ¬ InLog sb b) : d b = applyWrites d ws b := by
  have h0 : s.log.lh.n.toNat = 0 := by omega
  rw [← hi.applyWrites_pending hb, h0, ← hi.disk b hb]
  rfl

/-- Between commits the disk is clean. -/
theorem LogOk.clean (hn : 0 < sb.nlog) (h : LogOk sb s) :
    (logLayout sb hn).Clean s.disk s.disk := ⟨h.empty, fun _ _ => rfl⟩

/-- A commit ends the transaction. -/
theorem commit_tracks (hn : 0 < sb.nlog) (hi : Tracks sb s d ws) :
    wp commit
      (fun _ s' => Tracks sb s' (applyWrites d ws) [] ∧
        s'.log.outstanding = s.log.outstanding ∧
        s'.writes = s.writes ++ if 0 < s.log.lh.n then txnWrites hn s else [])
      (fun _ s' => Cut s s' (if 0 < s.log.lh.n then txnWrites hn s else [])) s := by
  by_cases hpos : 0 < s.log.lh.n
  · rw [if_pos hpos]
    refine wp_mono (commit_spec hn hi.log hpos) (fun _ s1 h1 => ?_) fun _ _ h => h
    obtain ⟨hl, h1⟩ := h1
    have hclean := LogLayout.commit_all (L := logLayout sb hn) hi.log.entries_fullHead
      (entries_emptyHead sb s) (hi.log.fits hn) (hi.log.clean hn)
    have hdisk : s1.disk = applyWrites s.disk (txnWrites hn s) := h1.disk
    have hn1 : s1.log.lh.n = 0 := by rw [hl]; rfl
    have hlist : listed s1 = [] := by rw [listed, hn1]; rfl
    have hok : LogOk sb s1 := by
      refine ⟨h1.ok, by rw [hl]; exact hi.log.dev, by rw [hl]; exact hi.log.start,
        by rw [hl]; exact hi.log.size, by omega, by omega, by omega, by simp [hlist],
        by simp [hlist], by rw [h1.refs, hlist]; simp, ?_⟩
      rw [hdisk]
      exact hclean.1
    have hhome : ∀ b, ¬ InLog sb b → s1.disk b = applyWrites d ws b := fun b hb => by
      rw [hdisk, ← hi.applyWrites_pending hb]
      exact hclean.2 b hb
    refine ⟨⟨hok, hhome, fun b hb => ?_⟩, by rw [hl]; rfl, h1.writes⟩
    rw [hok.view_eq_disk (by simp [hlist]), hhome b hb]
    rfl
  · rw [commit, if_neg hpos]
    simp only [wp_bind, wp_get, if_neg hpos, wp_pure]
    have h0 : s.log.lh.n.toNat = 0 := by omega
    refine ⟨⟨hi.log, fun b hb => ?_, hi.view⟩, trivial, (List.append_nil _).symm⟩
    rw [hi.disk b hb, hi.nothing_pending hpos hb]

/-- The disk writes of `end_op`: those of a commit, if it was the last call outstanding and
there is something to commit. -/
def endWrites (hn : 0 < sb.nlog) (s : Store) : List (Nat × Block) :=
  if s.log.outstanding - 1 = 0 ∧ 0 < s.log.lh.n then txnWrites hn s else []

theorem endOp_spec (hn : 0 < sb.nlog) (hi : Inv sb s d ws) :
    wp endOp
      (fun _ s' => Inv sb s' (FsOp.endOp.next s' d ws).1 (FsOp.endOp.next s' d ws).2 ∧
        s'.writes = s.writes ++ endWrites hn s)
      (fun _ s' => Cut s s' (endWrites hn s)) s := by
  rw [endOp]
  simp only [wp_bind, wp_modify, wp_get, Store.setLog_log, Store.setLog_setLog, hi.committing,
    Bool.false_eq_true, if_false, wp_ite, wp_pure]
  split
  · next hout =>
    -- `commit` runs with `outstanding` and `committing` changed, which it does not look at
    have h1 := run_setLog hi.log.ok
      { s.log with outstanding := s.log.outstanding - 1, committing := true }
    have hc := commit_tracks hn (hi.toTracks.of_run h1 rfl rfl rfl rfl)
    have hw : endWrites hn s = if 0 < s.log.lh.n then txnWrites hn s else [] := by
      rw [endWrites]
      simp only [hout, true_and]
    rw [hw]
    refine wp_mono hc (fun _ s2 hw2 => ?_) fun _ s' hcut => h1.cut hcut
    obtain ⟨ht, ho, hw2⟩ := hw2
    have ho2 : s2.log.outstanding = 0 := ho.trans hout
    rw [FsOp.next]
    simp only [Store.setLog_log, ho2, if_true]
    exact ⟨⟨ht.of_run (run_setLog ht.log.ok _) rfl rfl rfl rfl, rfl⟩, hw2⟩
  · next hout =>
    have h1 := run_setLog hi.log.ok
      { s.log with outstanding := s.log.outstanding - 1, committing := false }
    rw [endWrites, if_neg fun h => hout h.1, FsOp.next]
    simp only [Store.setLog_log, hout, if_false]
    exact ⟨⟨hi.of_run h1 rfl rfl rfl rfl, rfl⟩, (List.append_nil _).symm⟩

/-! ## Histories -/

/-- A restart that finished over a clean disk starts a history afresh. -/
theorem booted_inv (hn : 0 < sb.nlog) {d₀ c : Nat → Block} (hb : Booted sb c s)
    (hd : (logLayout sb hn).Clean d₀ s.disk) : Inv sb s d₀ [] := by
  have hlist : listed s = [] := by rw [listed, hb.n_eq]; rfl
  have hok : LogOk sb s := by
    have h0 := hb.n_eq
    refine ⟨hb.run.ok, hb.dev, hb.start, hb.size, by omega, by omega, by omega, by simp [hlist],
      by simp [hlist], by rw [hb.run.refs, hlist]; simp, hd.1⟩
  refine ⟨⟨hok, hd.2, fun b hbl => ?_⟩, hb.committing⟩
  rw [hok.view_eq_disk (by simp [hlist]), hd.2 b hbl]
  rfl

/-- The disk writes of a step, all of which belong to a commit. -/
def FsOp.commits (hn : 0 < sb.nlog) (op : FsOp) (s : Store) : List (Nat × Block) :=
  match op with
  | .endOp => endWrites hn s
  | _ => []

/-- Each step that returns keeps the invariant, and each step makes the writes it should. -/
theorem FsOp.run_spec (hn : 0 < sb.nlog) (hi : Inv sb s d ws) (op : FsOp) (ha : op.Allowed sb) :
    wp op.run
      (fun _ s' => Inv sb s' (op.next s' d ws).1 (op.next s' d ws).2 ∧
        s'.writes = s.writes ++ op.commits hn s)
      (fun _ s' => Cut s s' (op.commits hn s)) s := by
  cases op with
  | beginOp => exact wp_mono (beginOp_spec hi) (fun _ s' h => ⟨h.1, h.2.writes⟩) fun _ _ h => h
  | read b => exact wp_mono (read_spec hi b) (fun _ s' h => ⟨h.1, h.2.writes⟩) fun _ _ h => h
  | write b data =>
    exact wp_mono (write_spec hi ha.1 ha.2 data)
      (fun _ s' h => ⟨h.1, h.2.trans (List.append_nil _).symm⟩) fun _ _ h => h
  | endOp => exact endOp_spec hn hi

/-- The writes of a step are a part of those of a commit, up to some point. -/
theorem FsOp.writes_eq (hn : 0 < sb.nlog) (hi : Inv sb s d ws) (op : FsOp) (ha : op.Allowed sb) :
    ∃ m, op.writes s = (op.commits hn s).take m := by
  have h := op.run_spec hn hi ha
  have hf : ∃ m, (finalState op.run s).writes = s.writes ++ (op.commits hn s).take m := by
    refine wp.finalState (P := fun s' => ∃ m, s'.writes = s.writes ++ (op.commits hn s).take m)
      (wp_mono h (fun _ s' h => ⟨(op.commits hn s).length, ?_⟩) fun _ s' h => ?_)
    · rw [List.take_length]; exact h.2
    · obtain ⟨m, -, hw⟩ := h
      exact ⟨m, hw⟩
  obtain ⟨m, hm⟩ := hf
  exact ⟨m, by rw [FsOp.writes, hm, List.drop_left]⟩

/-- What a crash during a step leaves: the home blocks before the transaction, or a disk that
recovery takes to those after it; the latter if the header of the transaction was written. -/
theorem FsOp.crash_cases (hn : 0 < sb.nlog) (hi : Inv sb s d ws) (op : FsOp)
    (ha : op.Allowed sb) (k : Nat) :
    ((logLayout sb hn).Clean s.disk (op.crash s k) ∧
        ∀ w ∈ (op.writes s).take k, w.1 ≠ sb.logstart) ∨
      (logLayout sb hn).Crashed (pending s 0 s.log.lh.n.toNat) s.disk (op.crash s k) := by
  obtain ⟨m, hm⟩ := op.writes_eq hn hi ha
  rw [FsOp.crash, hm, List.take_take]
  by_cases hc : op.commits hn s = txnWrites hn s
  · rw [hc, txnWrites]
    by_cases hk : min k m ≤ (pending s 0 s.log.lh.n.toNat).length
    · refine Or.inl ⟨LogLayout.commit_take_of_le (hi.log.fits hn) (hi.log.clean hn) hk,
        fun w hw he => ?_⟩
      rw [LogLayout.commitWrites, List.take_append_of_le_length (by
        rw [LogLayout.length_copies]; exact hk)] at hw
      obtain ⟨j, -, -, hj⟩ := LogLayout.mem_copies (List.mem_of_mem_take hw)
      exact (logLayout sb hn).slot_ne_head j (hj.symm.trans he)
    · exact Or.inr (LogLayout.commit_take_of_lt (L := logLayout sb hn) hi.log.entries_fullHead
        (entries_emptyHead sb s) (hi.log.fits hn) (hi.log.clean hn) (by omega))
  · have hnil : op.commits hn s = [] := by
      cases op with
      | endOp =>
        rw [FsOp.commits, endWrites] at hc ⊢
        split
        · next h => exact absurd (if_pos h) hc
        · rfl
      | _ => rfl
    rw [hnil, List.take_nil]
    exact Or.inl ⟨hi.log.clean hn, fun w hw => by simp at hw⟩

/-- The restart after a crash, with any number of crashes on the way. -/
theorem FsOp.crash_restart (hn : 0 < sb.nlog) (hi : Inv sb s d ws) (op : FsOp)
    (ha : op.Allowed sb) (k : Nat) (ks : List Nat) :
    ∃ s', restart sb (ks.foldl (interrupted sb) (op.crash s k)) = .ok () s' ∧
      Booted sb (ks.foldl (interrupted sb) (op.crash s k)) s' ∧
      (((logLayout sb hn).Clean d s'.disk ∧ ∀ w ∈ (op.writes s).take k, w.1 ≠ sb.logstart) ∨
        (logLayout sb hn).Clean (applyWrites d ws) s'.disk) := by
  have hnd : ((pending s 0 s.log.lh.n.toNat).map Prod.fst).Nodup := by
    rw [map_fst_pending]; exact hi.log.nodup
  rcases op.crash_cases hn hi ha k with ⟨hc, hw⟩ | hc
  · obtain ⟨s', h, hb, hcl⟩ := crashed_restart hn (fits_nil hn) List.nodup_nil ks
      (Or.inl ((clean_iff_logged_nil hn).1 hc))
    exact ⟨s', h, hb, Or.inl ⟨⟨hcl.1, fun b hbl => (hcl.2 b hbl).trans (hi.disk b hbl)⟩, hw⟩⟩
  · obtain ⟨s', h, hb, hcl⟩ := crashed_restart hn (hi.log.fits hn) hnd ks hc
    exact ⟨s', h, hb, Or.inr ⟨hcl.1, fun b hbl =>
      (hcl.2 b hbl).trans (hi.applyWrites_pending hbl)⟩⟩

end

section

variable {sb : Superblock} {s : Store} {d : Nat → Block} {ws : List (Nat × Block)}

/-- Every history keeps the invariant. -/
theorem History.inv (hn : 0 < sb.nlog) (h : History sb s d ws) : Inv sb s d ws := by
  induction h with
  | @boot d s hd h =>
    have hcl : (logLayout sb hn).Clean d d := ⟨hd, fun _ _ => rfl⟩
    obtain ⟨s', h', hb, hcl'⟩ := crashed_restart hn (fits_nil hn) List.nodup_nil []
      (Or.inl ((clean_iff_logged_nil hn).1 hcl))
    cases h.symm.trans h'
    exact booted_inv hn hb hcl'
  | @step s s' d ws op hs ha h ih => exact ((op.run_spec hn ih ha).ok h).1
  | @crash s s' d ws op k ks hs ha h ih =>
    obtain ⟨s'', h', hb, hcl⟩ := op.crash_restart hn ih ha k ks
    cases h.symm.trans h'
    have hent : entries (s'.disk sb.logstart) = [] := hcl.elim (fun h => h.1.1) fun h => h.1
    exact booted_inv hn hb ⟨hent, fun _ _ => rfl⟩

/-- **Crash atomicity of the log.**  From any state the machine can be in, let it crash after any
number of the disk writes of the next step, and again after any number of the writes of each of
any number of restarts.  The restart that follows finishes, and leaves all home blocks as before
the running transaction or all as after it; as after it if a header block that lists something had
reached the disk. -/
theorem crash_atomic (hn : 0 < sb.nlog) (h : History sb s d ws) (op : FsOp) (ha : op.Allowed sb)
    (k : Nat) (ks : List Nat) :
    ∃ s', restart sb (ks.foldl (interrupted sb) (op.crash s k)) = .ok () s' ∧
      ((∀ b, ¬ InLog sb b → s'.disk b = d b) ∨
        ∀ b, ¬ InLog sb b → s'.disk b = applyWrites d ws b) ∧
      ((∃ w ∈ (op.writes s).take k, w.1 = sb.logstart ∧ 0 < headN w.2) →
        ∀ b, ¬ InLog sb b → s'.disk b = applyWrites d ws b) := by
  obtain ⟨s', hr, -, hcl⟩ := op.crash_restart hn (h.inv hn) ha k ks
  refine ⟨s', hr, ?_, ?_⟩
  · rcases hcl with hcl | hcl
    · exact Or.inl hcl.1.2
    · exact Or.inr hcl.2
  · rintro ⟨w, hw, hhead, -⟩
    rcases hcl with hcl | hcl
    · exact absurd hhead (hcl.2 w hw)
    · exact hcl.2

end

/-! A transaction of one block on an empty disk, crashed right after the header write of its
commit and then twice more during recovery. -/

/-- The superblock `mkfs` writes. -/
def mkfsSuperblock : Superblock where
  magic := 0x10203040
  size := 2000
  nblocks := 1954
  ninodes := 200
  nlog := 30
  logstart := 2
  inodestart := 32
  bmapstart := 45

/-- The machine started on an empty disk, in a transaction that has written block 50. -/
def writtenStore : Store :=
  finalState (FsOp.write 50 fun _ => 7).run
    (finalState FsOp.beginOp.run
      (finalState (initlog ROOTDEV mkfsSuperblock) (binit (fun _ _ => 0) log0)))

theorem history_writtenStore :
    History mkfsSuperblock writtenStore (fun _ _ => 0) [(50, fun _ => 7)] :=
  .step (FsOp.write 50 fun _ => 7)
    (.step FsOp.beginOp (.boot (by decide) rfl) trivial rfl)
    ⟨by rw [InLog]; decide, by decide⟩ rfl

theorem crash_atomic_written : ∃ s', restart mkfsSuperblock
    ([1, 0].foldl (interrupted mkfsSuperblock) (FsOp.endOp.crash writtenStore 2)) = .ok () s' ∧
      s'.disk 50 = fun _ => 7 := by
  obtain ⟨s', hr, -, ha⟩ :=
    crash_atomic (by decide) history_writtenStore FsOp.endOp trivial 2 [1, 0]
  refine ⟨s', hr, ha ⟨_, List.getElem_mem (n := 1) (h := by decide), rfl, by decide +kernel⟩ 50 ?_⟩
  rw [InLog]
  decide

end Xv6
