import Xv6.Fs.Calls
import Xv6.Fs.Write

/-!
# A file is an array of bytes

`readi` returns the bytes of the file in the range it is asked for, and `writei` changes those in
its range and no others, of this file or of any other.
-/

set_option autoImplicit false

namespace Xv6.Fs

variable {μ : Type} {s s' : State μ} {sb : Superblock} {M : Memory μ} {p : Fin NPROC}
  {i : Fin NINODE}

/-! ## Reading -/

/-- How many bytes `readi` returns: `0` if the offset is beyond the end, or `off + n` overflows. -/
def readLen (size off n : Nat) : Nat :=
  if off ≤ size ∧ off + n < 2 ^ 32 then min n (size - off) else 0

/-- `readi` cuts the range off at the end of the file. -/
theorem readi_eq (dst : Dst) (off : Nat) {n : Nat} (hn : n < 2 ^ 32) :
    readi sb M p i dst off n s =
      readiFrom sb M p i dst (readLen (s.itable i).size off n)
        (readLen (s.itable i).size off n) 0 off (fun _ => 0) s := by
  rw [readi, bind_of_ok (show getInode i s = .ok (s.itable i) s from rfl), readLen]
  by_cases h : off ≤ (s.itable i).size ∧ off + n < 2 ^ 32
  · have hmod : (off + n) % 2 ^ 32 = off + n := Nat.mod_eq_of_lt h.2
    rw [if_pos h, hmod, if_neg (by omega)]
    split
    · next hgt => rw [Nat.min_eq_right (by omega)]
    · next hle => rw [Nat.min_eq_left (by omega)]
  · rw [if_neg h, if_pos (by omega)]
    rfl

/-- The range that `readi` reads is there. -/
theorem Consistent.present (h : Consistent sb s) (href : 0 < (s.itable i).ref)
    (hv : (s.itable i).valid) (off n : Nat) : readLen (s.itable i).size off n = 0 ∨
      Present s.disk (s.itable i).toDinode (off + readLen (s.itable i).size off n) := by
  have hlive : Live sb (s.dinode sb) (s.itable i).inum :=
    ⟨h.inum i href, by rw [h.dinode href hv]; exact h.live i href hv⟩
  have hp := h.blocks.present _ hlive
  rw [h.dinode href hv] at hp
  rw [readLen]
  split
  · next hle => exact .inr (hp.mono (by omega))
  · exact .inl rfl

/-- What `readi` reads of a file that is there, into a buffer of the kernel. -/
theorem Consistent.readi (h : Consistent sb s) (href : 0 < (s.itable i).ref)
    (hv : (s.itable i).valid) (off : Nat) {n : Nat} (hn : n < 2 ^ 32) :
    readi sb M p i .kernel off n s = .ok ((readLen (s.itable i).size off n : Int), fun j =>
      if j < readLen (s.itable i).size off n then byteAt s.disk (s.itable i).toDinode (off + j)
      else 0) s := by
  rw [readi_eq .kernel off hn]
  rcases h.present href hv off n with h0 | hp
  · rw [h0]
    rfl
  · generalize readLen (s.itable i).size off n = len at hp ⊢
    rw [readiFrom_present sb M p rfl len 0 off _ (Nat.zero_le _) (Nat.le_refl _) hp]
    congr 2
    funext j
    rw [readBuf]
    exact if_congr (by omega) (by rw [Nat.sub_zero]) rfl

/-- What `readi` reads is all copied out, if no copy fails. -/
theorem readiFrom_user {d : Dinode} {va n : Nat}
    (hout : ∀ a src len m, ∃ m', M.copyout p a src len m = .ok 0 m') :
    ∀ (k tot off : Nat) (buf : Bytes) {s : State μ}, (s.itable i).toDinode = d → tot ≤ n →
      n - tot ≤ k → Present s.disk d (off + (n - tot)) →
      ∃ m', readiFrom sb M p i (.user va) n k tot off buf s = .ok ((n : Int), buf) (s.setMem m')
  | 0, tot, off, buf, s, _, htot, hk, _ => by
    have hn : tot = n := by omega
    exact ⟨s.mem, by rw [hn]; rfl⟩
  | k + 1, tot, off, buf, s, hd, htot, hk, hp => by
    rw [readiFrom]
    by_cases hn : tot < n
    · obtain ⟨hm0, hmn, hmb, -⟩ := chunk_spec off hn
      obtain ⟨hbn, h0⟩ := hp (off / BSIZE) (by
        have := Nat.div_add_mod' off BSIZE
        omega)
      rw [if_pos hn, bind_of_ok (bmap_present sb hd hbn h0), if_neg h0]
      obtain ⟨m1, hm1⟩ := hout ((va + tot) % 2 ^ 64)
        (fun j => s.disk (blockAt s.disk d (off / BSIZE)) (off % BSIZE + j)) (chunk n tot off) s.mem
      have hcopy : eitherCopyout M p (.user va) buf tot
          (fun j => s.disk (blockAt s.disk d (off / BSIZE)) (off % BSIZE + j)) (chunk n tot off) s =
          .ok (0, buf) (s.setMem m1) := by
        have hmem : onMem (M.copyout p ((va + tot) % 2 ^ 64) (fun j =>
            s.disk (blockAt s.disk d (off / BSIZE)) (off % BSIZE + j)) (chunk n tot off)) s =
            .ok 0 (s.setMem m1) := by
          rw [onMem, hm1]
        exact bind_of_ok hmem
      obtain ⟨m2, hrest⟩ := readiFrom_user hout k (tot + chunk n tot off) (off + chunk n tot off) buf
        (s := s.setMem m1) hd hmn (by omega) (hp.mono (by omega))
      refine ⟨m2, ?_⟩
      rw [bind_of_ok (show bread _ s = .ok (s.disk _) s from rfl)]
      refine (bind_of_ok hcopy).trans ?_
      exact hrest
    · have hn : tot = n := by omega
      exact ⟨s.mem, by rw [if_neg (by omega), hn]; rfl⟩

theorem Consistent.readi_user (h : Consistent sb s) (href : 0 < (s.itable i).ref)
    (hv : (s.itable i).valid) (off : Nat) {n : Nat} (hn : n < 2 ^ 32) (va : Nat)
    (hout : ∀ a src len m, ∃ m', M.copyout p a src len m = .ok 0 m') :
    ∃ m' buf, Fs.readi sb M p i (.user va) off n s =
      .ok ((readLen (s.itable i).size off n : Int), buf) (s.setMem m') := by
  rw [readi_eq (.user va) off hn]
  rcases h.present href hv off n with h0 | hp
  · rw [h0]
    exact ⟨s.mem, _, rfl⟩
  · generalize readLen (s.itable i).size off n = len at hp ⊢
    have hread : ∃ m', readiFrom sb M p i (.user va) len len 0 off (fun _ => 0) s =
        .ok ((len : Int), fun _ => 0) (s.setMem m') :=
      readiFrom_user hout len 0 off _ rfl (Nat.zero_le _) (Nat.le_refl _) hp
    obtain ⟨m', hm'⟩ := hread
    exact ⟨m', _, hm'⟩

/-! ## Writing -/

/-- The inode of entry `i` has changed, and on the disk no other has. -/
theorem Consistent.dinode_update (h : Consistent sb s) (href : 0 < (s.itable i).ref)
    (hv : (s.itable i).valid) {d : Dinode}
    (htable : s'.itable = Function.update s.itable i { s.itable i with toDinode := d })
    (hdisk : ∀ j, j < sb.ninodes → j ≠ (s.itable i).inum →
      getDinode (s'.disk (iblock j sb)) (j % IPB) = getDinode (s.disk (iblock j sb)) (j % IPB))
    {j : Nat} (hj : j < sb.ninodes) :
    s'.dinode sb j = Function.update (s.dinode sb) (s.itable i).inum d j := by
  have hother : ∀ i', i' ≠ i → s'.itable i' = s.itable i' := by
    intro i' hi
    rw [htable, Function.update_of_ne hi]
  have hself : s'.itable i = { s.itable i with toDinode := d } := by
    rw [htable, Function.update_self]
  -- the entries are where they were
  have hentry : s'.entry j = s.entry j := by
    rw [State.entry, State.entry]
    congr 1
    funext i'
    by_cases hi : i' = i
    · rw [hi, hself]
    · rw [hother i' hi]
  rw [State.dinode, hentry]
  by_cases heq : j = (s.itable i).inum
  · rw [heq, h.entry href hv, Function.update_self]
    show (s'.itable i).toDinode = d
    rw [hself]
  · rw [Function.update_of_ne heq, State.dinode]
    cases he : s.entry j with
    | none => exact hdisk j hj heq
    | some i' =>
      have hi : i' ≠ i := by
        rintro rfl
        exact heq (State.entry_some he).2.2.symm
      show (s'.itable i').toDinode = (s.itable i').toDinode
      rw [hother i' hi]

/-- The inode of a write that has ended. -/
theorem Wrote.size_le {j0 off n t : Nat} {din : Nat → Dinode} {bytes : Bytes}
    {got : Nat → Nat → Nat} {s1 s2 : State μ} {d : Dinode}
    (h : Wrote sb i j0 din off n bytes got 0 t s s1 d s2) (hj : Live sb din j0)
    (hb : Blocks sb s.disk din) (hoff : off ≤ (din j0).size) :
    Present s1.disk d (max (din j0).size (off + t)) := by
  have hd : Function.update din j0 d j0 = d := Function.update_self ..
  intro bn hbn
  by_cases hlt : bn * BSIZE < (din j0).size
  · obtain ⟨h1, h2⟩ := hb.present j0 hj bn hlt
    have h3 := h.grew.frame.block_ne hj h1 h2
    rw [hd] at h3
    exact ⟨h1, h3⟩
  · have hpos : bn * BSIZE / BSIZE = bn := Nat.mul_div_cancel bn (by decide)
    obtain ⟨h1, h2, -⟩ := h.content (bn * BSIZE) (by omega) (by omega)
    rw [hpos] at h1 h2
    exact ⟨h1, h2⟩

/-- What a write leaves. -/
structure Written (sb : Superblock) (i : Fin NINODE) (off t : Nat) (bytes : Bytes)
    (s s' : State μ) : Prop where
  consistent : Consistent sb s'
  ref : (s'.itable i).ref = (s.itable i).ref
  valid : (s'.itable i).valid = (s.itable i).valid
  type : (s'.itable i).type = (s.itable i).type
  size : (s'.itable i).size = max (s.itable i).size (off + t)
  new : ∀ pos, off ≤ pos → pos < off + t →
    byteAt s'.disk (s'.itable i).toDinode pos = bytes (pos - off)
  old : ∀ pos, pos < (s.itable i).size → ¬ (off ≤ pos ∧ pos < off + t) →
    byteAt s'.disk (s'.itable i).toDinode pos = byteAt s.disk (s.itable i).toDinode pos
  other : ∀ j, Live sb (s.dinode sb) j → j ≠ (s.itable i).inum →
    s'.dinode sb j = s.dinode sb j ∧ ∀ pos, pos < (s.dinode sb j).size →
      byteAt s'.disk (s'.dinode sb j) pos = byteAt s.disk (s.dinode sb j) pos

theorem Consistent.inTable (h : Consistent sb s) (href : 0 < (s.itable i).ref)
    (hv : (s.itable i).valid) : InTable sb i (s.itable i).inum (s.dinode sb) s where
  layout := h.layout
  blocks := h.blocks
  live := ⟨h.inum i href, by rw [h.dinode href hv]; exact h.live i href hv⟩
  inum := rfl
  inode := (h.dinode href hv).symm

/-- **Writing keeps the file system consistent**, and changes the bytes in its range only. -/
theorem Consistent.written (h : Consistent sb s) (href : 0 < (s.itable i).ref)
    (hv : (s.itable i).valid) {off n t : Nat} {bytes : Bytes} {got : Nat → Nat → Nat}
    {s1 : State μ} {d : Dinode} (hoff : off ≤ (s.itable i).size) (hmax : off + n ≤ MAXFILE * BSIZE)
    (hw : Wrote sb i (s.itable i).inum (s.dinode sb) off n bytes got 0 t s s1 d s1)
    (hu : Updated sb i (s.itable i).inum { d with size := max (s.itable i).size (off + t) } s1 s') :
    Written sb i off t bytes s s' := by
  have hin := h.inTable href hv
  have hlt : MAXFILE * BSIZE < 2 ^ 32 := by decide
  have hsize : (s.dinode sb (s.itable i).inum).size = (s.itable i).size :=
    congrArg Dinode.size hin.inode.symm
  have h1 := hin.grew hw.grew
  have hd : Function.update (s.dinode sb) (s.itable i).inum d (s.itable i).inum = d :=
    Function.update_self ..
  have hhead : d.head = (s.itable i).head := by
    have := hw.grew.frame.head
    rwa [hd, ← hin.inode] at this
  -- the table, the disk and the inodes after the write
  have htable : s'.itable = Function.update s.itable i
      { s.itable i with toDinode := { d with size := max (s.itable i).size (off + t) } } := by
    rw [hu.state, hw.grew.entry, hw.grew.state]
    exact Function.update_idem ..
  have hdisk : s'.disk = Function.update s1.disk (iblock (s.itable i).inum sb)
      (putDinode (s1.disk (iblock (s.itable i).inum sb)) ((s.itable i).inum % IPB)
        { d with size := max (s.itable i).size (off + t) }) := by
    rw [hu.state]
  have hself : s'.itable i =
      { s.itable i with toDinode := { d with size := max (s.itable i).size (off + t) } } := by
    rw [htable, Function.update_self]
  have hother : ∀ i', i' ≠ i → s'.itable i' = s.itable i' := by
    intro i' hi
    rw [htable, Function.update_of_ne hi]
  have hfields : ∀ i', (s'.itable i').ref = (s.itable i').ref ∧
      (s'.itable i').valid = (s.itable i').valid ∧ (s'.itable i').inum = (s.itable i').inum := by
    intro i'
    by_cases hi : i' = i
    · rw [hi, hself]
      exact ⟨rfl, rfl, rfl⟩
    · rw [hother i' hi]
      exact ⟨rfl, rfl, rfl⟩
  have hdinode : ∀ {j}, j < sb.ninodes → s'.dinode sb j = Function.update (s.dinode sb)
      (s.itable i).inum { d with size := max (s.itable i).size (off + t) } j := by
    refine fun {j} hj => h.dinode_update href hv htable (fun j hj hne => ?_) hj
    rw [hdisk]
    by_cases heq : iblock j sb = iblock (s.itable i).inum sb
    · have hdiv : j / IPB = (s.itable i).inum / IPB := Nat.add_right_cancel heq
      have hmod : j % IPB ≠ (s.itable i).inum % IPB := by
        intro hmod
        apply hne
        rw [← Nat.div_add_mod j IPB, hdiv, hmod, Nat.div_add_mod]
      rw [heq, Function.update_self, getDinode_putDinode_of_ne _ _ hmod, ← heq,
        hw.grew.frame.inodes j hj]
    · rw [Function.update_of_ne heq, hw.grew.frame.inodes j hj]
  -- the blocks
  have hn : max (s.itable i).size (off + t) < 2 ^ 32 := by
    have hf := (h.blocks.fits _ hin.live).size
    have := hw.le_n
    omega
  have hpres := hw.size_le hin.live h.blocks (by rw [hsize]; exact hoff)
  rw [hsize] at hpres
  have hb1 := h1.blocks.resize h1.live hn (by rw [hd]; exact hpres) rfl
  rw [hd, Function.update_idem] at hb1
  obtain ⟨hb2, hbytes⟩ := hb1.iupdate h.layout hin.live.1 hdisk
  have hlive : ∀ {j}, Live sb (s.dinode sb) j → Live sb (Function.update (s.dinode sb)
      (s.itable i).inum { d with size := max (s.itable i).size (off + t) }) j := by
    intro j hj
    refine ⟨hj.1, ?_⟩
    by_cases heq : j = (s.itable i).inum
    · rw [heq, Function.update_self]
      show d.type ≠ 0
      rw [Dinode.type_of_head hhead]
      exact h.live i href hv
    · rw [Function.update_of_ne heq]
      exact hj.2
  have hkeep : ∀ {j pos}, Live sb (s.dinode sb) j → pos / BSIZE < MAXFILE →
      blockAt s1.disk (Function.update (s.dinode sb) (s.itable i).inum d j) (pos / BSIZE) ≠ 0 →
      byteAt s'.disk (s'.dinode sb j) pos =
        byteAt s1.disk (Function.update (s.dinode sb) (s.itable i).inum d j) pos := by
    intro j pos hj hpos h0
    have hb := fun h0 => (hbytes j pos (hlive hj) hpos h0).2
    rw [hdinode hj.1]
    by_cases heq : j = (s.itable i).inum
    · subst heq
      rw [Function.update_self] at hb h0
      rw [Function.update_self, Function.update_self]
      exact hb h0
    · rw [Function.update_of_ne heq] at hb h0
      rw [Function.update_of_ne heq, Function.update_of_ne heq]
      exact hb h0
  have hview : s'.dinode sb (s.itable i).inum = (s'.itable i).toDinode := by
    rw [hdinode hin.live.1, Function.update_self, hself]
  refine ⟨⟨h.layout, fun i1 i2 h1 h2 he => ?_, fun i' hr => ?_, fun i' hr hv' => ?_,
    hb2.congr fun j hj => hdinode hj⟩, (hfields i).1, (hfields i).2.1, ?_, ?_,
    fun pos hl hr => ?_, fun pos hp hout => ?_, fun j hj hne => ⟨?_, fun pos hp => ?_⟩⟩
  · rw [(hfields i1).1] at h1
    rw [(hfields i2).1] at h2
    rw [(hfields i1).2.2, (hfields i2).2.2] at he
    exact h.unique i1 i2 h1 h2 he
  · rw [(hfields i').1] at hr
    rw [(hfields i').2.2]
    exact h.inum i' hr
  · rw [(hfields i').1] at hr
    rw [(hfields i').2.1] at hv'
    by_cases hi : i' = i
    · rw [hi, hself]
      show d.type ≠ 0
      rw [Dinode.type_of_head hhead]
      exact h.live i href hv
    · rw [hother i' hi]
      exact h.live i' hr hv'
  · rw [hself]
    show d.type = _
    exact Dinode.type_of_head hhead
  · rw [hself]
  · obtain ⟨hbn, h0, hbyte⟩ := hw.content pos (by omega) hr
    rw [← hview, hkeep hin.live hbn (by rw [hd]; exact h0), hd]
    exact hbyte
  · rw [← hsize] at hp
    obtain ⟨hbn, h0⟩ := h.blocks.present _ hin.live (pos / BSIZE)
      ((Nat.div_mul_le_self pos BSIZE).trans_lt hp)
    rw [← hview, hkeep hin.live hbn (hw.grew.frame.block_ne hin.live hbn h0),
      hw.grew.frame.bytes _ pos hin.live hbn h0 (by omega), hin.inode]
  · rw [hdinode hj.1, Function.update_of_ne hne]
  · obtain ⟨hbn, h0⟩ := h.blocks.present j hj (pos / BSIZE)
      ((Nat.div_mul_le_self pos BSIZE).trans_lt hp)
    rw [hkeep hj hbn (hw.grew.frame.block_ne hj hbn h0),
      hw.grew.frame.bytes j pos hj hbn h0 fun hc => hne hc.1]

/-- **A file is an array of bytes.**  When `writei` of a source that can be read returns, it has
written some `t` bytes: the size is what it should be, what `readi` then returns of any range are the
new bytes and, elsewhere, the old ones, and no other file has changed.  And `readi` returns as many
bytes as there are, for all `off` and `n`; into user memory also, if no copy fails. -/
theorem file_is_byte_array (h : Consistent sb s) (href : 0 < (s.itable i).ref)
    (hv : (s.itable i).valid = true) :
    (∀ (src : Src) (bytes : Bytes) (off n : Nat) (r : Int) (s' : State μ),
      off ≤ (s.itable i).size → off + n ≤ MAXFILE * BSIZE →
      Source M p src n s.mem bytes (fun _ len => len) → writei sb M p i src off n s = .ok r s' →
      ∃ t : Nat, r = t ∧ t ≤ n ∧ (s'.itable i).size = max (s.itable i).size (off + t) ∧
        Consistent sb s' ∧
        (∀ off' n', n' < 2 ^ 32 → readi sb M p i .kernel off' n' s' =
          .ok ((readLen (max (s.itable i).size (off + t)) off' n' : Int), fun j =>
            if j < readLen (max (s.itable i).size (off + t)) off' n' then
              if off ≤ off' + j ∧ off' + j < off + t then bytes (off' + j - off)
              else byteAt s.disk (s.itable i).toDinode (off' + j)
            else 0) s') ∧
        ∀ j, Live sb (s.dinode sb) j → j ≠ (s.itable i).inum →
          s'.dinode sb j = s.dinode sb j ∧ ∀ pos, pos < (s.dinode sb j).size →
            byteAt s'.disk (s'.dinode sb j) pos = byteAt s.disk (s.dinode sb j) pos) ∧
    (∀ off n, n < 2 ^ 32 → readi sb M p i .kernel off n s =
      .ok ((readLen (s.itable i).size off n : Int), fun j =>
        if j < readLen (s.itable i).size off n then byteAt s.disk (s.itable i).toDinode (off + j)
        else 0) s) ∧
    ∀ va off n, n < 2 ^ 32 → (∀ a src len m, ∃ m', M.copyout p a src len m = .ok 0 m') →
      ∃ m' buf, readi sb M p i (.user va) off n s =
        .ok ((readLen (s.itable i).size off n : Int), buf) (s.setMem m') := by
  refine ⟨fun src bytes off n r s' hoff hmax hsrc hrun => ?_, fun off n hn => h.readi href hv off hn,
    fun va off n hn hout => h.readi_user href hv off hn va hout⟩
  have hin := h.inTable href hv
  have hsize : (s.dinode sb (s.itable i).inum).size = (s.itable i).size :=
    congrArg Dinode.size hin.inode.symm
  obtain ⟨t, s1, s2, d, rfl, hw, hu⟩ :=
    (writei_spec hin hsrc (by rw [hsize]; exact hoff) hmax).ok hrun
  rw [hsize] at hu
  -- no copy has failed
  obtain rfl : s2 = s1 := hw.last.resolve_right fun ht => lt_irrefl _ ht.short
  have hwr := h.written href hv hoff hmax hw hu
  refine ⟨t, rfl, hw.le_n, hwr.size, hwr.consistent, fun off' n' hn' => ?_, hwr.other⟩
  rw [hwr.consistent.readi (by rw [hwr.ref]; exact href) (by rw [hwr.valid]; exact hv) off' hn',
    hwr.size]
  congr 2
  funext j
  refine if_ctx_congr Iff.rfl (fun hj => ?_) fun _ => rfl
  have hlt : off' + j < max (s.itable i).size (off + t) := by
    rw [readLen] at hj
    split at hj
    · omega
    · exact absurd hj (Nat.not_lt_zero _)
  split
  · next hr => exact hwr.new _ hr.1 hr.2
  · next hr => exact hwr.old _ (by omega) hr

/-! ## One file -/

/-- On a disk without inodes only the inode in the table is that of a file. -/
theorem live_of_single (honly : ∀ k, 0 < (s.itable k).ref → k = i)
    (hdisk : ∀ j, j < sb.ninodes → s.disk (iblock j sb) = fun _ => 0) {j : Nat}
    (h : Live sb (s.dinode sb) j) : j = (s.itable i).inum := by
  by_contra hj
  have hentry : s.entry j = none := by
    refine List.find?_eq_none.2 fun k _ hk => hj ?_
    obtain ⟨h1, -, h3⟩ := of_decide_eq_true hk
    rw [← honly k h1]
    exact h3.symm
  refine h.2 ?_
  rw [State.dinode, hentry]
  show (getDinode (s.disk (iblock j sb)) (j % IPB)).type = 0
  rw [hdisk j h.1]
  exact getLE_zero 2 _

/-- A file system with one file, whose inode is in the table, is consistent if that file is as it
should be. -/
theorem Consistent.single (hl : Layout sb) (honly : ∀ k, 0 < (s.itable k).ref → k = i)
    (hinum : (s.itable i).inum < sb.ninodes) (href : 0 < (s.itable i).ref)
    (hv : (s.itable i).valid = true) (ht : (s.itable i).type ≠ 0)
    (hdisk : ∀ j, j < sb.ninodes → s.disk (iblock j sb) = fun _ => 0)
    (hreserved : ∀ b, b < datastart sb → b < sb.size → Used sb s.disk b)
    (hrange : ∀ sl, InFile sl → slot s.disk (s.itable i).toDinode sl ≠ 0 →
      datastart sb ≤ slot s.disk (s.itable i).toDinode sl ∧
        slot s.disk (s.itable i).toDinode sl < sb.size ∧
        Used sb s.disk (slot s.disk (s.itable i).toDinode sl))
    (hdistinct : ∀ sl sl', InFile sl → InFile sl' → slot s.disk (s.itable i).toDinode sl ≠ 0 →
      slot s.disk (s.itable i).toDinode sl = slot s.disk (s.itable i).toDinode sl' → sl = sl')
    (hpresent : Present s.disk (s.itable i).toDinode (s.itable i).size)
    (hfits : (s.itable i).toDinode.Fits) : Consistent sb s := by
  have hentry : s.entry (s.itable i).inum = some i := by
    cases hf : s.entry (s.itable i).inum with
    | none =>
      have := List.find?_eq_none.1 hf i (List.mem_finRange i)
      exact absurd (decide_eq_true ⟨href, hv, rfl⟩) this
    | some k => rw [honly k (State.entry_some hf).1]
  have hlive : ∀ {j}, Live sb (s.dinode sb) j → s.dinode sb j = (s.itable i).toDinode := by
    intro j hj
    rw [live_of_single honly hdisk hj, State.dinode, hentry]
  refine ⟨hl, fun k k' hk hk' _ => by rw [honly k hk, honly k' hk'], fun k hk => ?_,
    fun k hk _ => ?_, ⟨hreserved, fun j sl hj hin => ?_, fun j sl j' sl' hj hj' hin hin' h0 he => ?_,
      fun j hj => ?_, fun j hj => ?_⟩⟩
  · rw [honly k hk]
    exact hinum
  · rw [honly k hk]
    exact ht
  · rw [hlive hj]
    exact hrange sl hin
  · rw [hlive hj] at h0 he
    rw [hlive hj'] at he
    refine ⟨?_, hdistinct sl sl' hin hin' h0 he⟩
    rw [live_of_single honly hdisk hj, live_of_single honly hdisk hj']
  · rw [hlive hj]
    exact hpresent
  · rw [hlive hj]
    exact hfits

/-- The bitmap that has the first 46 blocks. -/
def firstBitmap : Block := fun k => if k < 5 then 255 else if k = 5 then 63 else 0

/-- An empty file, in a call. -/
def emptyFile : State Unit :=
  { boot (Function.update (fun _ _ => 0) 45 firstBitmap) () with
    outstanding := 1
    itable := Function.update (fun _ => Inode.blank) ⟨0, ninode_pos⟩
      { Inode.blank with
        dev := ROOTDEV, inum := 2, ref := 1, valid := true, type := T_FILE, nlink := 1 } }

theorem emptyFile_entry : emptyFile.itable ⟨0, ninode_pos⟩ = { Inode.blank with
    dev := ROOTDEV, inum := 2, ref := 1, valid := true, type := T_FILE, nlink := 1 } := by
  rfl

/-- The only entry of the table that is in use. -/
theorem ref_update_blank {x : Inode} {k : Fin NINODE}
    (h : 0 < (Function.update (fun _ => Inode.blank) i x k).ref) : k = i := by
  by_contra hk
  rw [Function.update_of_ne hk] at h
  exact absurd h (by decide)

theorem mkfsSuperblock_layout : Layout mkfsSuperblock := by
  refine ⟨by decide, fun j hj => ?_⟩
  show j / 16 + 32 < 45
  have h200 : j < 200 := hj
  omega

theorem iblock_mkfsSuperblock {j : Nat} (h : j < mkfsSuperblock.ninodes) :
    32 ≤ iblock j mkfsSuperblock ∧ iblock j mkfsSuperblock < 45 := by
  have h200 : j < 200 := h
  show 32 ≤ j / 16 + 32 ∧ j / 16 + 32 < 45
  omega

/-- All bits are in the one block of the bitmap. -/
theorem used_mkfsSuperblock {disk : Nat → Block} {b : Nat} (h : b < 2000) :
    Used mkfsSuperblock disk b ↔ testBit (disk 45) b = true := by
  have hblock : bblock b mkfsSuperblock = 45 := by
    show b / 8192 + 45 = 45
    omega
  rw [Used, hblock, Nat.mod_eq_of_lt (h.trans (by decide))]

theorem emptyFile_slot (sl : Option Nat) :
    slot emptyFile.disk (emptyFile.itable ⟨0, ninode_pos⟩).toDinode sl = 0 := by
  rw [emptyFile_entry]
  cases sl with
  | none => rfl
  | some bn =>
    show blockAt _ _ _ = 0
    rw [blockAt]
    split
    · rfl
    · exact if_pos rfl

theorem emptyFile_consistent : Consistent mkfsSuperblock emptyFile := by
  have hbits : ∀ b, b < 46 → testBit firstBitmap b = true := by decide
  refine .single (i := ⟨0, ninode_pos⟩) mkfsSuperblock_layout (fun k hk => ref_update_blank hk)
    (by decide) (by decide) rfl (by decide) (fun j hj => ?_) (fun b hb hs => ?_)
    (fun sl _ h0 => absurd (emptyFile_slot sl) h0) (fun sl _ _ _ h0 => absurd (emptyFile_slot sl) h0)
    (fun bn hbn => absurd hbn (Nat.not_lt_zero _))
    ⟨by decide, by decide, by decide, by decide, by decide, fun _ => (by decide : 0 < 2 ^ 32)⟩
  · have := iblock_mkfsSuperblock hj
    exact Function.update_of_ne (f := fun _ _ => 0) (by omega) _
  · exact (used_mkfsSuperblock hs).2 (hbits b hb)

/-- One byte is written to the empty file. -/
theorem emptyFile_write : ∃ s' : State Unit, writei mkfsSuperblock forkMemory ⟨0, nproc_pos⟩
    ⟨0, ninode_pos⟩ (.kernel fun _ => 7) 0 1 emptyFile = .ok 1 s' := by
  have hrun : (match writei mkfsSuperblock forkMemory ⟨0, nproc_pos⟩ ⟨0, ninode_pos⟩
      (.kernel fun _ => 7) 0 1 emptyFile with
    | .ok r _ => decide (r = 1)
    | .error _ _ => false) = true := by decide +kernel
  cases h : writei mkfsSuperblock forkMemory ⟨0, nproc_pos⟩ ⟨0, ninode_pos⟩
      (.kernel fun _ => 7) 0 1 emptyFile with
  | ok r s' =>
    rw [h] at hrun
    exact ⟨s', by rw [of_decide_eq_true hrun]⟩
  | error e s' =>
    rw [h] at hrun
    cases hrun

theorem file_is_byte_array_one : ∃ s' : State Unit,
    writei mkfsSuperblock forkMemory ⟨0, nproc_pos⟩ ⟨0, ninode_pos⟩ (.kernel fun _ => 7) 0 1
      emptyFile = .ok 1 s' ∧ (s'.itable ⟨0, ninode_pos⟩).size = 1 ∧
      Consistent mkfsSuperblock s' := by
  obtain ⟨s', hs⟩ := emptyFile_write
  have href : 0 < (emptyFile.itable ⟨0, ninode_pos⟩).ref := by rw [emptyFile_entry]; decide
  have hv : (emptyFile.itable ⟨0, ninode_pos⟩).valid = true := by rw [emptyFile_entry]
  have hsize : (emptyFile.itable ⟨0, ninode_pos⟩).size = 0 := by rw [emptyFile_entry]; rfl
  obtain ⟨t, ht, -, hsz, hc, -⟩ := (file_is_byte_array emptyFile_consistent href hv).1
    (.kernel fun _ => 7) (fun _ => 7) 0 1 1 s' (Nat.zero_le _) (by decide)
    (source_kernel forkMemory ⟨0, nproc_pos⟩ _ _ _) hs
  obtain rfl : t = 1 := by omega
  rw [hsize] at hsz
  exact ⟨s', hs, hsz, hc⟩

end Xv6.Fs
