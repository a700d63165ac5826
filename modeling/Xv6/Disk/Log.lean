import Xv6.Disk.Bio

/-!
# The log

`kernel/log.c`: blocks modified by file-system calls are pinned in the cache and listed in the
in-memory header; `commit` copies them to the log, writes the header, installs the blocks at
their home locations and erases the header.  `recover_from_log` installs what the header on the
disk lists.

Each loop of the source is a recursion on the number of iterations left, and its body is a
definition of its own with one specification: what it writes to the disk, and what it leaves in
the cache.
-/

set_option autoImplicit false

namespace Xv6

/-- `struct superblock`. -/
structure Superblock where
  magic : Nat
  size : Nat
  nblocks : Nat
  ninodes : Nat
  nlog : Nat
  logstart : Nat
  inodestart : Nat
  bmapstart : Nat
  deriving DecidableEq, Repr

/-! ## The header block -/

/-- The field `n` of the `struct logheader` in a block. -/
def headN (data : Block) : Int := toInt32 (getLE data 0 4)

/-- The field `block[i]` of the `struct logheader` in a block. -/
def headBlock (data : Block) (i : Nat) : Nat := getLE data (4 + 4 * i) 4

/-- The header block `write_head` leaves: `n` and the first `n` entries are overwritten. -/
def putHead (data : Block) (lh : LogHeader) : Block :=
  (List.range lh.n.toNat).foldl (fun d i => setLE d (4 + 4 * i) 4 (lh.block i))
    (setLE data 0 4 (ofInt32 lh.n))

/-- The in-memory header `read_head` leaves: `n` and the first `n` entries are overwritten. -/
def headOf (data : Block) (lh : LogHeader) : LogHeader where
  n := headN data
  block := fun i => if (i : Int) < headN data then headBlock data i else lh.block i

/-- The header with no entry in use. -/
def LogHeader.cleared (lh : LogHeader) : LogHeader := { lh with n := 0 }

/-- Change the in-memory header. -/
def Store.setHead (s : Store) (lh : LogHeader) : Store := s.setLog { s.log with lh := lh }

theorem setHead_log (s : Store) (lh : LogHeader) : (s.setHead lh).log = { s.log with lh := lh } :=
  rfl

/-- `read_head()`. -/
def readHead : Kern Store Unit := do
  let s ← get
  let b ← bread s.log.dev s.log.start
  modify fun s => s.setHead (headOf (s.buf b).data s.log.lh)
  brelse b

/-- `write_head()`. -/
def writeHead : Kern Store Unit := do
  let s ← get
  let b ← bread s.log.dev s.log.start
  let s ← get
  setData b (putHead (s.buf b).data s.log.lh)
  bwrite b
  brelse b

/-! ## Copying to the log and installing from it -/

/-- One iteration of `install_trans(recovering)`. -/
def installBody (recovering : Bool) (tail : Nat) : Kern Store Unit := do
  let s ← get
  let lbuf ← bread s.log.dev (s.log.start + tail + 1)
  let dbuf ← bread s.log.dev (s.log.lh.block tail)
  let s ← get
  setData dbuf (s.buf lbuf).data
  bwrite dbuf
  if !recovering then
    bunpin dbuf
  brelse lbuf
  brelse dbuf

/-- The loop of `install_trans`, with `k` iterations left. -/
def installFrom (recovering : Bool) : Nat → Nat → Kern Store Unit
  | 0, _ => pure ()
  | k + 1, tail => do
    installBody recovering tail
    installFrom recovering k (tail + 1)

/-- `install_trans(recovering)`. -/
def installTrans (recovering : Bool) : Kern Store Unit := do
  let s ← get
  installFrom recovering s.log.lh.n.toNat 0

/-- One iteration of `write_log()`. -/
def writeLogBody (tail : Nat) : Kern Store Unit := do
  let s ← get
  let tobuf ← bread s.log.dev (s.log.start + tail + 1)
  let frombuf ← bread s.log.dev (s.log.lh.block tail)
  let s ← get
  setData tobuf (s.buf frombuf).data
  bwrite tobuf
  brelse frombuf
  brelse tobuf

/-- The loop of `write_log`, with `k` iterations left. -/
def writeLogFrom : Nat → Nat → Kern Store Unit
  | 0, _ => pure ()
  | k + 1, tail => do
    writeLogBody tail
    writeLogFrom k (tail + 1)

/-- `write_log()`. -/
def writeLog : Kern Store Unit := do
  let s ← get
  writeLogFrom s.log.lh.n.toNat 0

/-- `log.lh.n = 0`. -/
def clearHead : Kern Store Unit :=
  modify fun s => s.setHead s.log.lh.cleared

/-- `recover_from_log()`. -/
def recoverFromLog : Kern Store Unit := do
  readHead
  installTrans true
  clearHead
  writeHead

/-- `initlog(dev, sb)`. -/
def initlog (dev : Nat) (sb : Superblock) : Kern Store Unit := do
  if 4 + 4 * LOGSIZE ≥ BSIZE then
    panic "initlog: too big logheader"
  modify fun s => s.setLog { s.log with start := sb.logstart, size := sb.nlog, dev := dev }
  recoverFromLog

/-- `commit()`. -/
def commit : Kern Store Unit := do
  let s ← get
  if s.log.lh.n > 0 then
    writeLog
    writeHead
    installTrans false
    clearHead
    writeHead

/-- `begin_op()`, up to the point where it would sleep. -/
def beginOp : Kern Store Unit := do
  let s ← get
  if s.log.committing then
    sleep
  else if s.log.lh.n + (s.log.outstanding + 1) * MAXOPBLOCKS > LOGSIZE then
    sleep
  else
    modify fun s => s.setLog { s.log with outstanding := s.log.outstanding + 1 }

/-- `end_op()`. -/
def endOp : Kern Store Unit := do
  modify fun s => s.setLog { s.log with outstanding := s.log.outstanding - 1 }
  let s ← get
  if s.log.committing then
    panic "log.committing"
  if s.log.outstanding = 0 then
    modify fun s => s.setLog { s.log with committing := true }
    commit
    modify fun s => s.setLog { s.log with committing := false }

/-- The index at which `log_write` records a block: where it is already listed, or the end. -/
def logIndex (lh : LogHeader) (blockno : Nat) : Nat :=
  ((List.range lh.n.toNat).find? fun i => lh.block i == blockno).getD lh.n.toNat

/-- `log_write(b)`. -/
def logWrite (b : Nat) : Kern Store Unit := do
  let s ← get
  if s.log.lh.n ≥ LOGSIZE ∨ s.log.lh.n ≥ (s.log.size : Int) - 1 then
    panic "too big a transaction"
  if s.log.outstanding < 1 then
    panic "log_write outside of trans"
  let blockno := (s.buf b).blockno
  let i := logIndex s.log.lh blockno
  modify fun s => s.setHead { s.log.lh with block := Function.update s.log.lh.block i blockno }
  if (i : Int) = s.log.lh.n then
    bpin b
    modify fun s => s.setHead { s.log.lh with n := s.log.lh.n + 1 }

/-! ## What the loop bodies do -/

open Cache

/-- Code that stopped after some of the writes `ws`; it stops only for want of a buffer, so some
block was referenced when it began. -/
def Stop (s s' : Store) (ws : List (Nat × Block)) : Prop := Cut s s' ws ∧ ∃ c, 0 < refs s c

section Specs

variable {s : Store} {a b i j : Nat} {E : Halt → Store → Prop}

/-- A state with two buffers taken: `i` for block `a` and `j` for block `b`. -/
structure Two (s s' : Store) (a b i j : Nat) : Prop where
  run : Run s s' (view s)
    (Function.update (Function.update (refs s) a (refs s a + 1)) b (refs s b + 1)) []
  log : s'.log = s.log
  fst : Has s' i a
  snd : Has s' j b
  keeps : ∀ k c, Has s k c → 0 < refs s c → Has s' k c

theorem bread_two (hs : Ok s) (h : b ≠ a) {R : Nat → Nat → Store → Prop}
    (hR : ∀ i j s', Two s s' a b i j → R i j s') (hE : ∀ e s', Stop s s' [] → E e s') :
    wp (bread ROOTDEV a) (fun i => wp (bread ROOTDEV b) (R i) E) E s := by
  refine wp_mono (bread_spec hs a) (fun i s1 h1 => ?_) fun e s' h0 => ?_
  · obtain ⟨hi, h1⟩ := h1
    refine wp_mono (bread_spec h1.ok b) (fun j s2 h2 => ?_) fun e s' h2 => ?_
    · obtain ⟨hj, h2⟩ := h2
      refine hR i j s2 ⟨⟨h2.ok, by rw [h2.view, h1.view], ?_, ?_, ?_⟩, ?_, ?_, hj, ?_⟩
      · rw [h2.refs, h1.refs, Function.update_of_ne h]
      · rw [h2.disk, h1.disk]; rfl
      · rw [h2.writes, h1.writes, List.append_nil]
      · rw [h2.log, h1.log]
      · exact h2.keeps i a hi (by rw [h1.refs, Function.update_self]; omega)
      · intro k c hk hc
        refine h2.keeps k c (h1.keeps k c hk hc) ?_
        rw [h1.refs]
        by_cases hca : c = a
        · rw [hca, Function.update_self]; omega
        · rwa [Function.update_of_ne hca]
    · obtain ⟨heq, hf⟩ := h2
      obtain ⟨c, hc, hr⟩ := hf.exists_refs h1.ok a
      rw [h1.refs, Function.update_of_ne hc] at hr
      refine hE e s' ⟨?_, c, hr⟩
      rw [heq]
      exact h1.toRun.cut (Cut.refl s1 [])
  · obtain ⟨heq, hf⟩ := h0
    obtain ⟨c, -, hr⟩ := hf.exists_refs hs 0
    refine hE e s' ⟨?_, c, hr⟩
    rw [heq]
    exact Cut.refl s []

theorem Two.refs_fst {s' : Store} (h : Two s s' a b i j) (hne : b ≠ a) :
    refs s' a = refs s a + 1 := by
  rw [h.run.refs, Function.update_of_ne (Ne.symm hne), Function.update_self]

theorem Two.refs_snd {s' : Store} (h : Two s s' a b i j) : refs s' b = refs s b + 1 := by
  rw [h.run.refs, Function.update_self]

theorem Two.refs_pos {s' : Store} (h : Two s s' a b i j) (hne : b ≠ a) {c : Nat}
    (hc : 0 < refs s c) : 0 < refs s' c ∧ (c = a ∨ c = b → 1 < refs s' c) := by
  by_cases hca : c = a
  · rw [hca] at hc ⊢
    rw [h.refs_fst hne]
    exact ⟨by omega, fun _ => by omega⟩
  · by_cases hcb : c = b
    · rw [hcb] at hc ⊢
      rw [h.refs_snd]
      exact ⟨by omega, fun _ => by omega⟩
    · rw [h.run.refs, Function.update_of_ne hcb, Function.update_of_ne hca]
      exact ⟨hc, fun h => (h.elim hca hcb).elim⟩

theorem brelse_two (hs : Ok s) (hne : a ≠ b) (hi : Has s i a) (hj : Has s j b)
    (ha : refs s a ≤ 1 → view s a = s.disk a) (hb : refs s b ≤ 1 → view s b = s.disk b)
    (hpos : 0 < refs s b) :
    wp (brelse i) (fun _ => wp (brelse j) (fun _ s' => s'.log = s.log ∧ Run s s' (view s)
      (Function.update (Function.update (refs s) a (refs s a - 1)) b (refs s b - 1)) [] ∧
      ∀ k c, Has s k c → 0 < refs s c → (c = a → 1 < refs s c) → Has s' k c) E) E s := by
  refine wp_mono (brelse_spec hs hi ha) (fun _ s1 h1 => ?_) fun _ _ h => h
  have hr : refs s1 b = refs s b := by rw [h1.refs, Function.update_of_ne (Ne.symm hne)]
  have hd : s1.disk = s.disk := h1.disk
  refine wp_mono (brelse_spec h1.ok (h1.keeps j b hj hpos) ?_) (fun _ s2 h2 => ?_) fun _ _ h => h
  · rw [hr, h1.view, hd]; exact hb
  · have h02 := h1.toRun.trans h2.toRun
    refine ⟨by rw [h2.log, h1.log], ⟨h02.ok, by rw [h2.view, h1.view],
      by rw [h2.refs, hr, h1.refs], h02.disk, h02.writes⟩, fun k c hk hc ha => ?_⟩
    refine h2.keeps k c (h1.keeps k c hk hc) ?_
    rw [h1.refs]
    by_cases hca : c = a
    · have := ha hca
      rw [hca] at this ⊢
      rw [Function.update_self]
      omega
    · rwa [Function.update_of_ne hca]

/-- Copying the content of one taken buffer to another and writing it. -/
theorem setData_bwrite (hs : Ok s) (hj : Has s j b) (hpos : 0 < refs s b) (d : Block) :
    wp (setData j d) (fun _ => wp (bwrite j) (fun _ s' =>
      Step s s' (Function.update (view s) b d) (refs s) [(b, d)]) E) E s := by
  refine wp_mono (setData_spec hs hj hpos d) (fun _ s1 h1 => ?_) fun _ _ h => h
  refine wp_mono (bwrite_spec h1.ok (h1.keeps j b hj hpos)) (fun _ s2 h2 => ?_) fun _ _ h => h
  have h02 := h1.toRun.trans h2.toRun
  rw [h1.view, Function.update_self, h1.refs] at h02
  exact ⟨h02, by rw [h2.log, h1.log],
    fun k c hk hr => h2.keeps k c (h1.keeps k c hk hr) (by rw [h1.refs]; exact hr)⟩

/-- After a write to `c`, a block with no reference but the one taken since still agrees with the
disk. -/
theorem view_eq_disk_of_run {s' : Store} {r : Nat → Nat} {c : Nat} {d : Block} (hs : Ok s)
    (h : Run s s' (Function.update (view s) c d) r [(c, d)]) (h0 : b ≠ c → refs s b = 0) :
    view s' b = s'.disk b := by
  have hd : s'.disk = Function.update s.disk c d := h.disk
  rw [h.view, hd]
  by_cases hb : b = c
  · rw [hb, Function.update_self, Function.update_self]
  · rw [Function.update_of_ne hb, Function.update_of_ne hb, Cache.view_eq_disk hs (h0 hb)]

/-- Two references taken and changed again. -/
theorem update_two {r : Nat → Nat} (h : b ≠ a) (p q x : Nat) :
    Function.update (Function.update (Function.update (Function.update r a p) b q) a (r a)) b x =
      Function.update r b x := by
  rw [Function.update_comm h, Function.update_idem, Function.update_idem, Function.update_eq_self]

/-- One iteration of `write_log` copies a block to its log block. -/
theorem writeLogBody_spec (hs : Ok s) (hdev : s.log.dev = ROOTDEV) (tail : Nat)
    (hne : s.log.lh.block tail ≠ s.log.start + tail + 1) :
    wp (writeLogBody tail)
      (fun _ s' => Step s s'
        (Function.update (view s) (s.log.start + tail + 1) (view s (s.log.lh.block tail))) (refs s)
        [(s.log.start + tail + 1, view s (s.log.lh.block tail))])
      (fun _ s' => Stop s s' []) s := by
  generalize hlb : s.log.start + tail + 1 = lb at *
  generalize hhb : s.log.lh.block tail = hb at *
  rw [writeLogBody]
  simp only [wp_bind, wp_get, hdev, hlb, hhb]
  refine bread_two hs hne (fun i j s2 ht => ?_) fun _ _ h => h
  have ha := ht.refs_fst hne
  have hb' := ht.refs_snd
  have hdata : (s2.buf j).data = view s hb := by
    rw [← view_of_has ht.run.ok ht.snd, ht.run.view]
  rw [hdata]
  refine wp_mono (setData_bwrite ht.run.ok ht.fst (by omega) (view s hb)) (fun _ s3 h3 => ?_)
    fun _ _ h => h
  refine wp_mono h3 (fun _ s4 h4 => ?_) fun _ _ h => h
  have h04 := ht.run.trans h4.toRun
  rw [ht.run.view] at h04
  have hi := h4.keeps i lb ht.fst (by omega)
  have hj := h4.keeps j hb ht.snd (by omega)
  rw [← h4.refs] at ha hb'
  refine wp_mono (brelse_two h4.ok hne hj hi (fun h => view_eq_disk_of_run hs h04 fun _ => by omega)
    (fun _ => view_eq_disk_of_run hs h04 fun h => absurd rfl h) (by omega)) (fun _ s5 h5 => ?_)
    fun _ _ h => h
  refine wp_mono h5 (fun _ s6 h6 => ?_) fun _ _ h => h
  obtain ⟨hl6, h6, hk6⟩ := h6
  have h06 := h04.trans h6
  refine ⟨⟨h06.ok, by rw [h6.view, h04.view], ?_, h06.disk, h06.writes⟩,
    by rw [hl6, h4.log, ht.log], fun k c hk hc => ?_⟩
  · rw [h6.refs, ha, hb', Nat.add_sub_cancel, Nat.add_sub_cancel, h4.refs, ht.run.refs,
      Function.update_comm hne, update_two hne, Function.update_eq_self]
  · obtain ⟨hpos, htwo⟩ := ht.refs_pos hne hc
    refine hk6 k c (h4.keeps k c (ht.keeps k c hk hc) hpos) ?_ fun hcb => ?_
    · rwa [h4.refs]
    · rw [h4.refs]
      exact htwo (.inr hcb)

/-- The references after an iteration of `install_trans` on block `b`: it drops the pin unless it
is recovering. -/
def unpinned (recovering : Bool) (r : Nat → Nat) (b : Nat) : Nat → Nat :=
  if recovering then r else Function.update r b (r b - 1)

/-- One iteration of `install_trans` copies a log block to its home location. -/
theorem installBody_spec (hs : Ok s) (hdev : s.log.dev = ROOTDEV) (recovering : Bool) (tail : Nat)
    (hne : s.log.lh.block tail ≠ s.log.start + tail + 1)
    (hpin : recovering = false → 0 < refs s (s.log.lh.block tail)) :
    wp (installBody recovering tail)
      (fun _ s' => Step s s'
        (Function.update (view s) (s.log.lh.block tail) (view s (s.log.start + tail + 1)))
        (unpinned recovering (refs s) (s.log.lh.block tail))
        [(s.log.lh.block tail, view s (s.log.start + tail + 1))])
      (fun _ s' => Stop s s' []) s := by
  generalize hlb : s.log.start + tail + 1 = lb at *
  generalize hhb : s.log.lh.block tail = hb at *
  rw [installBody]
  simp only [wp_bind, wp_get, hdev, hlb, hhb]
  refine bread_two hs hne (fun i j s2 ht => ?_) fun _ _ h => h
  have ha := ht.refs_fst hne
  have hb' := ht.refs_snd
  have hdata : (s2.buf i).data = view s lb := by
    rw [← view_of_has ht.run.ok ht.fst, ht.run.view]
  rw [hdata]
  refine wp_mono (setData_bwrite ht.run.ok ht.snd (by omega) (view s lb)) (fun _ s3 h3 => ?_)
    fun _ _ h => h
  refine wp_mono h3 (fun _ s4 h4 => ?_) fun _ _ h => h
  have h04 := ht.run.trans h4.toRun
  rw [ht.run.view] at h04
  have hi := h4.keeps i lb ht.fst (by omega)
  have hj := h4.keeps j hb ht.snd (by omega)
  rw [← h4.refs] at ha hb'
  have hclean : view s4 hb = s4.disk hb := view_eq_disk_of_run hs h04 fun h => absurd rfl h
  cases recovering with
  | true =>
    simp only [Bool.not_true, Bool.false_eq_true, if_false, wp_bind]
    refine wp_mono (brelse_two h4.ok (Ne.symm hne) hi hj
      (fun h => view_eq_disk_of_run hs h04 fun _ => by omega) (fun _ => hclean) (by omega))
      (fun _ s5 h5 => ?_) fun _ _ h => h
    refine wp_mono h5 (fun _ s6 h6 => ?_) fun _ _ h => h
    obtain ⟨hl6, h6, hk6⟩ := h6
    have h06 := h04.trans h6
    refine ⟨⟨h06.ok, by rw [h6.view, h04.view], ?_, h06.disk, h06.writes⟩,
      by rw [hl6, h4.log, ht.log], fun k c hk hc => ?_⟩
    · rw [h6.refs, ha, hb', Nat.add_sub_cancel, Nat.add_sub_cancel, h4.refs, ht.run.refs,
        update_two hne, Function.update_eq_self]
      rfl
    · obtain ⟨hpos, htwo⟩ := ht.refs_pos hne hc
      refine hk6 k c (h4.keeps k c (ht.keeps k c hk hc) hpos) ?_ fun hca => ?_
      · rwa [h4.refs]
      · rw [h4.refs]
        exact htwo (.inl hca)
  | false =>
    simp only [Bool.not_false, if_true, wp_bind]
    have hp := hpin rfl
    refine wp_mono (bunpin_spec h4.ok hj fun _ => hclean) (fun _ s5 h5 => ?_) fun _ _ h => h
    have ha5 : refs s5 lb = refs s lb + 1 := by
      rw [h5.refs, Function.update_of_ne (Ne.symm hne), ha]
    have hb5 : refs s5 hb = refs s hb := by
      rw [h5.refs, Function.update_self, hb', Nat.add_sub_cancel]
    have h05 := h04.trans h5.toRun
    rw [h04.view] at h05
    refine wp_mono (brelse_two h5.ok (Ne.symm hne) (h5.keeps i lb hi (by omega))
      (h5.keeps j hb hj (by omega)) (fun h => view_eq_disk_of_run hs h05 fun _ => by omega)
      (fun _ => view_eq_disk_of_run hs h05 fun h => absurd rfl h) (by omega)) (fun _ s6 h6 => ?_)
      fun _ _ h => h
    refine wp_mono h6 (fun _ s7 h7 => ?_) fun _ _ h => h
    obtain ⟨hl7, h7, hk7⟩ := h7
    have h07 := h05.trans h7
    refine ⟨⟨h07.ok, by rw [h7.view, h05.view], ?_, h07.disk, h07.writes⟩,
      by rw [hl7, h5.log, h4.log, ht.log], fun k c hk hc => ?_⟩
    · rw [h7.refs, ha5, hb5, Nat.add_sub_cancel, h5.refs, h4.refs, ht.run.refs,
        Function.update_idem, update_two hne]
      rfl
    · obtain ⟨hpos, htwo⟩ := ht.refs_pos hne hc
      have hpos4 : 0 < refs s4 c := by rwa [h4.refs]
      refine hk7 k c (h5.keeps k c (h4.keeps k c (ht.keeps k c hk hc) hpos) hpos4) ?_ fun hca => ?_
      · by_cases hcb : c = hb
        · rw [hcb, hb5]; exact hp
        · rwa [h5.refs, Function.update_of_ne hcb]
      · rw [hca] at hc ⊢
        rw [ha5]
        omega

theorem ok_setLog (hs : Ok s) (l : Log) : Ok (s.setLog l) :=
  ⟨hs.mem_lru, fun k c h => hs.valid k c ⟨h.lt, h.dev, h.blockno⟩,
    fun k m c h h' => hs.inj k m c ⟨h.lt, h.dev, h.blockno⟩ ⟨h'.lt, h'.dev, h'.blockno⟩,
    fun k c h => hs.clean k c ⟨h.lt, h.dev, h.blockno⟩, hs.held⟩

/-- The cache does not see the in-memory log. -/
theorem run_setLog (hs : Ok s) (l : Log) : Run s (s.setLog l) (view s) (refs s) [] :=
  ⟨ok_setLog hs l, rfl, rfl, rfl, (List.append_nil _).symm⟩

theorem bread_stop {s' : Store} (hs : Ok s) (h : s' = s ∧ Full s) : Stop s s' [] := by
  obtain ⟨heq, hf⟩ := h
  obtain ⟨c, -, hr⟩ := hf.exists_refs hs 0
  exact ⟨heq ▸ Cut.refl s [], c, hr⟩

theorem readHead_spec (hs : Ok s) (hdev : s.log.dev = ROOTDEV) :
    wp readHead
      (fun _ s' => s'.log = (s.setHead (headOf (view s s.log.start) s.log.lh)).log ∧
        Run s s' (view s) (refs s) [])
      (fun _ s' => Stop s s' []) s := by
  rw [readHead]
  simp only [wp_bind, wp_get, hdev, wp_modify]
  refine wp_mono (bread_spec hs s.log.start) (fun i s1 h1 => ?_) fun e s' h => bread_stop hs h
  obtain ⟨hi, h1⟩ := h1
  have hdata : (s1.buf i).data = view s s.log.start := by rw [← view_of_has h1.ok hi, h1.view]
  have hr1 : refs s1 s.log.start = refs s s.log.start + 1 := by rw [h1.refs, Function.update_self]
  have h2 := run_setLog h1.ok { s1.log with lh := headOf (s1.buf i).data s1.log.lh }
  rw [← Store.setHead] at h2
  refine wp_mono (brelse_spec h2.ok ⟨hi.lt, hi.dev, hi.blockno⟩ fun h => ?_) (fun _ s3 h3 => ?_)
    fun _ _ h => h
  · rw [h2.refs, hr1] at h
    have hd : (s1.setHead (headOf (s1.buf i).data s1.log.lh)).disk = s.disk :=
      h1.disk
    rw [h2.view, h1.view, hd, view_eq_disk hs (by omega)]
  · have h03 := (h1.toRun.trans h2).trans h3.toRun
    refine ⟨?_, h03.ok, by rw [h3.view, h2.view, h1.view], ?_, h03.disk, h03.writes⟩
    · rw [h3.log, hdata, Store.setHead, Store.setHead, h1.log]
      rfl
    · rw [h3.refs, h2.refs, hr1, Nat.add_sub_cancel, h1.refs, Function.update_idem,
        Function.update_eq_self]

theorem writeHead_spec (hs : Ok s) (hdev : s.log.dev = ROOTDEV) :
    wp writeHead
      (fun _ s' =>
        Step s s' (Function.update (view s) s.log.start (putHead (view s s.log.start) s.log.lh))
          (refs s) [(s.log.start, putHead (view s s.log.start) s.log.lh)])
      (fun _ s' => Stop s s' []) s := by
  rw [writeHead]
  simp only [wp_bind, wp_get, hdev]
  refine wp_mono (bread_spec hs s.log.start) (fun i s1 h1 => ?_) fun e s' h => bread_stop hs h
  obtain ⟨hi, h1⟩ := h1
  have hdata : (s1.buf i).data = view s s.log.start := by rw [← view_of_has h1.ok hi, h1.view]
  have hr1 : refs s1 s.log.start = refs s s.log.start + 1 := by rw [h1.refs, Function.update_self]
  rw [hdata, h1.log]
  generalize hd : putHead (view s s.log.start) s.log.lh = d
  generalize hst : s.log.start = hb at *
  refine wp_mono (setData_bwrite h1.ok hi (by omega) d) (fun _ s2 h2 => ?_) fun _ _ h => h
  refine wp_mono h2 (fun _ s3 h3 => ?_) fun _ _ h => h
  have h03 := h1.toRun.trans h3.toRun
  rw [h1.view] at h03
  refine wp_mono (brelse_spec h3.ok (h3.keeps i hb hi (by omega)) fun _ =>
    view_eq_disk_of_run hs h03 fun h => absurd rfl h) (fun _ s4 h4 => ?_) fun _ _ h => h
  have h04 := h03.trans h4.toRun
  refine ⟨⟨h04.ok, by rw [h4.view, h03.view], ?_, h04.disk, h04.writes⟩,
    by rw [h4.log, h3.log, h1.log], fun k c hk hc => ?_⟩
  · rw [h4.refs, h3.refs, hr1, Nat.add_sub_cancel, h1.refs, Function.update_idem,
      Function.update_eq_self]
  · have hpos : 0 < refs s1 c := by
      rw [h1.refs]
      by_cases hcb : c = hb
      · rw [hcb, Function.update_self]; omega
      · rwa [Function.update_of_ne hcb]
    exact h4.keeps k c (h3.keeps k c (h1.keeps k c hk hc) hpos) (by rwa [h3.refs])

/-- Erasing the transaction from the log: `log.lh.n = 0; write_head()`. -/
theorem eraseHead_spec (hs : Ok s) (hdev : s.log.dev = ROOTDEV) :
    wp clearHead
      (fun _ => wp writeHead
        (fun _ s' => s'.log = (s.setHead s.log.lh.cleared).log ∧
          Run s s'
            (Function.update (view s) s.log.start (putHead (view s s.log.start) s.log.lh.cleared))
            (refs s) [(s.log.start, putHead (view s s.log.start) s.log.lh.cleared)] ∧
          ∀ k c, Has s k c → 0 < refs s c → Has s' k c)
        (fun _ s' => Stop s s' [])) (fun _ _ => False) s := by
  have h1 := run_setLog hs { s.log with lh := s.log.lh.cleared }
  rw [clearHead, wp_modify]
  exact wp_mono (writeHead_spec h1.ok hdev) (fun _ s2 h2 => ⟨h2.log, h1.trans h2.toRun,
      fun k c hk hc => h2.keeps k c ⟨hk.lt, hk.dev, hk.blockno⟩ hc⟩)
    fun _ s2 hc => ⟨h1.cut hc.1, hc.2⟩

/-! ## The loops -/

/-- The home blocks and contents that iterations `tail`, ..., `tail + k - 1` of `write_log` copy. -/
def pending (s : Store) (tail k : Nat) : List (Nat × Block) :=
  (List.range' tail k).map fun i => (s.log.lh.block i, view s (s.log.lh.block i))

/-- The home blocks and contents that iterations `tail`, ..., `tail + k - 1` of `install_trans`
install. -/
def logged (s : Store) (tail k : Nat) : List (Nat × Block) :=
  (List.range' tail k).map fun i => (s.log.lh.block i, view s (s.log.start + i + 1))

/-- The log blocks and contents that these iterations of `write_log` write. -/
def copied (s : Store) (tail k : Nat) : List (Nat × Block) :=
  (List.range' tail k).map fun i => (s.log.start + i + 1, view s (s.log.lh.block i))

/-- The listed blocks from `tail` on are not log blocks from `tail` on. -/
def Apart (s : Store) (tail k : Nat) : Prop :=
  ∀ i j, tail ≤ i → i < tail + k → tail ≤ j → j < tail + k → s.log.lh.block i ≠ s.log.start + j + 1

theorem Apart.tail {tail k : Nat} {s' : Store} (h : Apart s tail (k + 1)) (hl : s'.log = s.log) :
    Apart s' (tail + 1) k := fun i j h1 h2 h3 h4 => by
  rw [hl]
  exact h i j (by omega) (by omega) (by omega) (by omega)

theorem range'_map_congr {α : Type} {f g : Nat → α} {tail k : Nat}
    (h : ∀ i, tail ≤ i → i < tail + k → f i = g i) :
    (List.range' tail k).map f = (List.range' tail k).map g :=
  List.map_congr_left fun i hi => by
    obtain ⟨h1, h2⟩ := List.mem_range'_1.1 hi
    exact h i h1 h2

theorem Stop.run {s₁ s₂ : Store} {v : Nat → Block} {ws₁ ws₂ : List (Nat × Block)}
    (h₁ : Run s s₁ v (refs s) ws₁) (h₂ : Stop s₁ s₂ ws₂) : Stop s s₂ (ws₁ ++ ws₂) := by
  obtain ⟨hc, c, hr⟩ := h₂
  exact ⟨h₁.cut hc, c, by rwa [h₁.refs] at hr⟩

/-- The loop of `write_log` copies every listed block to its log block. -/
theorem writeLogFrom_spec : ∀ (k tail : Nat) {s : Store}, Ok s → s.log.dev = ROOTDEV →
    Apart s tail k →
    wp (writeLogFrom k tail)
      (fun _ s' => s'.log = s.log ∧
        Run s s' (applyWrites (view s) (copied s tail k)) (refs s) (copied s tail k))
      (fun _ s' => Stop s s' (copied s tail k)) s
  | 0, _, s, hs, _, _ => by
    rw [writeLogFrom, wp_pure]
    exact ⟨rfl, hs, rfl, rfl, rfl, (List.append_nil _).symm⟩
  | k + 1, tail, s, hs, hdev, hne => by
    have hc : copied s tail (k + 1) =
        (s.log.start + tail + 1, view s (s.log.lh.block tail)) :: copied s (tail + 1) k := rfl
    rw [writeLogFrom, wp_bind, hc]
    refine wp_mono (writeLogBody_spec hs hdev tail (hne tail tail (by omega) (by omega) (by omega)
      (by omega))) (fun _ s1 h1 => ?_) fun _ _ h => ⟨h.1.append _, h.2⟩
    have hl := h1.log
    replace h1 := h1.toRun
    have hcp : copied s1 (tail + 1) k = copied s (tail + 1) k := by
      refine range'_map_congr fun i h1' h2' => ?_
      rw [hl, h1.view, Function.update_of_ne (hne i tail (by omega) (by omega) (by omega) (by omega))]
    have ih := writeLogFrom_spec k (tail + 1) h1.ok (by rw [hl]; exact hdev) (hne.tail hl)
    rw [hcp, h1.view, h1.refs] at ih
    refine wp_mono ih (fun _ s2 h2 => ⟨h2.1.trans hl, h1.trans h2.2⟩) fun _ s2 h2 => ?_
    exact Stop.run h1 h2

/-- The references `install_trans` leaves after a run over the blocks `bs`. -/
def unpinnedAll (recovering : Bool) (r : Nat → Nat) (bs : List Nat) : Nat → Nat :=
  bs.foldl (unpinned recovering) r

/-- The loop of `install_trans` copies every log block to its home location. -/
theorem installFrom_spec (recovering : Bool) : ∀ (k tail : Nat) {s : Store}, Ok s →
    s.log.dev = ROOTDEV → Apart s tail k → ((List.range' tail k).map s.log.lh.block).Nodup →
    (recovering = false → ∀ i, tail ≤ i → i < tail + k → 0 < refs s (s.log.lh.block i)) →
    wp (installFrom recovering k tail)
      (fun _ s' => s'.log = s.log ∧
        Run s s' (applyWrites (view s) (logged s tail k))
          (unpinnedAll recovering (refs s) ((List.range' tail k).map s.log.lh.block))
          (logged s tail k))
      (fun _ s' => Stop s s' (logged s tail k)) s
  | 0, _, s, hs, _, _, _, _ => by
    rw [installFrom, wp_pure]
    exact ⟨rfl, hs, rfl, rfl, rfl, (List.append_nil _).symm⟩
  | k + 1, tail, s, hs, hdev, hne, hnd, hpin => by
    have hc : logged s tail (k + 1) =
        (s.log.lh.block tail, view s (s.log.start + tail + 1)) :: logged s (tail + 1) k := rfl
    rw [List.range'_succ, List.map_cons, List.nodup_cons] at hnd
    rw [installFrom, wp_bind, hc]
    refine wp_mono (installBody_spec hs hdev recovering tail (hne tail tail (by omega) (by omega)
      (by omega) (by omega)) fun h => hpin h tail (by omega) (by omega)) (fun _ s1 h1 => ?_)
      fun _ _ h => ⟨h.1.append _, h.2⟩
    have hl := h1.log
    replace h1 := h1.toRun
    have hcp : logged s1 (tail + 1) k = logged s (tail + 1) k := by
      refine range'_map_congr fun i h1' h2' => ?_
      rw [hl, h1.view, Function.update_of_ne]
      exact (hne tail i (by omega) (by omega) (by omega) (by omega)).symm
    have hpin' : recovering = false → ∀ i, tail + 1 ≤ i → i < tail + 1 + k →
        0 < refs s1 (s1.log.lh.block i) := by
      intro hr i hi1 hi2
      have hmem : s.log.lh.block i ∈ (List.range' (tail + 1) k).map s.log.lh.block :=
        List.mem_map_of_mem (List.mem_range'_1.2 ⟨hi1, hi2⟩)
      rw [h1.refs, hl, hr, unpinned, if_neg Bool.false_ne_true,
        Function.update_of_ne fun h : s.log.lh.block i = s.log.lh.block tail => hnd.1 (h ▸ hmem)]
      exact hpin hr i (by omega) (by omega)
    have ih := installFrom_spec recovering k (tail + 1) h1.ok (by rw [hl]; exact hdev) (hne.tail hl)
      (by rw [hl]; exact hnd.2) hpin'
    rw [hcp, h1.view, h1.refs, hl] at ih
    refine wp_mono ih (fun _ s2 h2 => ⟨h2.1, h1.trans h2.2⟩) fun _ s2 h2 => ?_
    obtain ⟨hcut, c, hr⟩ := h2
    refine ⟨h1.cut hcut, c, ?_⟩
    rw [h1.refs, unpinned] at hr
    split at hr
    · exact hr
    · by_cases hcb : c = s.log.lh.block tail
      · rw [hcb, Function.update_self] at hr; rw [hcb]; omega
      · rwa [Function.update_of_ne hcb] at hr

/-! ## Reading back the header -/

/-- Storing entries does not touch the field before them. -/
theorem getLE_putEntries_zero (data : Block) (f : Nat → Nat) : ∀ m : Nat,
    getLE ((List.range m).foldl (fun d i => setLE d (4 + 4 * i) 4 (f i)) data) 0 4 = getLE data 0 4
  | 0 => rfl
  | m + 1 => by
    rw [List.range_succ, List.foldl_append, List.foldl_cons, List.foldl_nil,
      getLE_setLE_disjoint _ _ (by omega), getLE_putEntries_zero data f m]

theorem getLE_putEntries (data : Block) (f : Nat → Nat) {i : Nat} : ∀ m : Nat, i < m →
    getLE ((List.range m).foldl (fun d i => setLE d (4 + 4 * i) 4 (f i)) data) (4 + 4 * i) 4 =
      f i % 256 ^ 4
  | 0, h => absurd h (Nat.not_lt_zero i)
  | m + 1, h => by
    rw [List.range_succ, List.foldl_append, List.foldl_cons, List.foldl_nil]
    by_cases hi : i = m
    · rw [hi, getLE_setLE_same]
    · rw [getLE_setLE_disjoint _ _ (by omega), getLE_putEntries data f m (by omega)]

theorem headN_putHead (data : Block) {lh : LogHeader} (h1 : 0 ≤ lh.n) (h2 : lh.n < 2 ^ 31) :
    headN (putHead data lh) = lh.n := by
  rw [headN, putHead, getLE_putEntries_zero, getLE_setLE_same]
  have h : ofInt32 lh.n % 256 ^ 4 = ofInt32 lh.n := by rw [ofInt32]; omega
  rw [h, toInt32_ofInt32 (by omega) h2]

theorem headBlock_putHead (data : Block) {lh : LogHeader} {i : Nat} (h : (i : Int) < lh.n)
    (hb : lh.block i < 2 ^ 32) : headBlock (putHead data lh) i = lh.block i := by
  rw [headBlock, putHead, getLE_putEntries _ _ _ (by omega)]
  exact Nat.mod_eq_of_lt hb

/-- The home blocks a header block lists. -/
def entries (data : Block) : List Nat := (List.range (headN data).toNat).map (headBlock data)

theorem entries_putHead (data : Block) {lh : LogHeader} (h1 : 0 ≤ lh.n) (h2 : lh.n < 2 ^ 31)
    (hb : ∀ i : Nat, (i : Int) < lh.n → lh.block i < 2 ^ 32) :
    entries (putHead data lh) = (List.range lh.n.toNat).map lh.block := by
  rw [entries, headN_putHead data h1 h2]
  refine List.map_congr_left fun i hi => ?_
  have hi' : (i : Int) < lh.n := by have := List.mem_range.1 hi; omega
  exact headBlock_putHead data hi' (hb i hi')

theorem entries_cleared (data : Block) (lh : LogHeader) : entries (putHead data lh.cleared) = [] := by
  have hn : lh.cleared.n = 0 := rfl
  rw [entries_putHead data (by omega) (by omega) fun i hi => by omega, hn]
  rfl

/-- Which entries are not in use does not matter. -/
theorem putHead_cleared (data : Block) (lh lh' : LogHeader) :
    putHead data lh.cleared = putHead data lh'.cleared := rfl

end Specs

-- From here on a header block is known only by what it lists.
attribute [irreducible] putHead

end Xv6
