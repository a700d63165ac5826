import Xv6.Fs.Consistent

/-!
# Allocating blocks

What `balloc` and `bmap` do to a consistent file system.  `bmap` returns the block that is there, or
it allocates one, and perhaps an indirect block; either way the content of every file stays what it
was, and every block that changes is in the log.
-/

set_option autoImplicit false

namespace Xv6.Fs

variable {μ : Type} {s s' s'' : State μ} {sb : Superblock} {E : Halt → State μ → Prop}

/-! ## The log -/

/-- There is room in the log for `k` more blocks, in a call. -/
structure LogRoom (sb : Superblock) (s : State μ) (k : Nat) : Prop where
  call : 1 ≤ s.outstanding
  header : s.lh.length + k ≤ LOGSIZE
  disk : s.lh.length + k < sb.nlog

/-- Blocks that have been logged take their part of the room. -/
theorem LogRoom.after {k j : Nat} (h : LogRoom sb s (k + j)) (ho : s'.outstanding = s.outstanding)
    (hlen : s'.lh.length ≤ s.lh.length + k) : LogRoom sb s' j where
  call := ho ▸ h.call
  header := by
    have := h.header
    omega
  disk := by
    have := h.disk
    omega

/-- `log_write`: the block is in the log, with what was there before. -/
theorem logWrite_spec {Q : Unit → State μ → Prop} {b : Nat} {data : Block}
    (hQ : ∀ lh', (∀ c, c ∈ lh' ↔ c ∈ s.lh ∨ c = b) → lh'.length ≤ s.lh.length + 1 →
      Q () { s with disk := Function.update s.disk b data, lh := lh' })
    (hE : ∀ e, (∃ msg, msg ≠ "freeing free block" ∧ e = .panic msg) → ¬ LogRoom sb s 1 → E e s) :
    wp (logWrite sb b data) Q E s := by
  rw [logWrite, wp_bind, wp_get, wp_ite]
  split
  · next hfull =>
    refine (wp_panic _).2 (hE _ ⟨_, by decide, rfl⟩ fun hr => ?_)
    have h1 := hr.header
    have h2 := hr.disk
    omega
  · rw [wp_ite]
    split
    · next hout =>
      refine (wp_panic _).2 (hE _ ⟨_, by decide, rfl⟩ fun hr => ?_)
      have := hr.call
      omega
    · rw [wp_set]
      refine hQ _ (fun c => ?_) ?_
      · split
        · next hb => exact ⟨.inl, fun hc => hc.elim id fun he => he ▸ hb⟩
        · rw [List.mem_append, List.mem_singleton]
      · split
        · exact Nat.le_succ _
        · rw [List.length_append, List.length_singleton]

/-! ## `balloc` -/

/-- The bit that the inner loop of `balloc` finds is the first that is clear. -/
theorem freeBit_spec {data : Block} {b r : Nat} : ∀ {k bi : Nat},
    freeBit sb data b k bi = some r → r < bi + k ∧ b + r < sb.size ∧ testBit data r = false ∧
      ∀ j, bi ≤ j → j < r → testBit data j = true
  | 0, bi, h => by rw [freeBit] at h; cases h
  | k + 1, bi, h => by
    rw [freeBit] at h
    split_ifs at h with hlt hbit
    · obtain ⟨h1, h2, h3, h4⟩ := freeBit_spec h
      refine ⟨by omega, h2, h3, fun j hj hr => ?_⟩
      rcases Nat.eq_or_lt_of_le hj with rfl | hj
      · exact hbit
      · exact h4 j hj hr
    · cases h
      exact ⟨by omega, hlt, eq_false_of_ne_true hbit, fun j h1 h2 => absurd h2 (not_lt.2 h1)⟩

/-- If the inner loop of `balloc` finds no bit, all are set. -/
theorem freeBit_none {data : Block} {b : Nat} : ∀ {k bi : Nat}, freeBit sb data b k bi = none →
    ∀ j, bi ≤ j → j < bi + k → b + j < sb.size → testBit data j = true
  | 0, bi, _, j, h1, h2, _ => absurd h2 (not_lt.2 h1)
  | k + 1, bi, h, j, h1, h2, h3 => by
    rw [freeBit] at h
    split_ifs at h with hlt hbit
    · rcases Nat.eq_or_lt_of_le h1 with rfl | h1
      · exact hbit
      · exact freeBit_none h j h1 (by omega) h3
    · exact absurd ((Nat.add_le_add_left h1 b).trans_lt h3) hlt

/-- The bit of block `b + bi` is bit `bi` of the block of the bitmap that starts with `b`. -/
theorem bblock_add (sb : Superblock) {b bi : Nat} (hb : BPB ∣ b) (hlt : bi < BPB) :
    bblock (b + bi) sb = bblock b sb ∧ (b + bi) % BPB = bi := by
  obtain ⟨c, rfl⟩ := hb
  refine ⟨?_, ?_⟩
  · rw [bblock, bblock, Nat.mul_add_div (by decide), Nat.mul_div_cancel_left _ (by decide),
      Nat.div_eq_of_lt hlt, Nat.add_zero]
  · rw [Nat.mul_add_mod, Nat.mod_eq_of_lt hlt]

theorem ballocFrom_spec {Q : Nat → State μ → Prop}
    (h0 : (∀ y, y < sb.size → Used sb s.disk y) → Q 0 s)
    (hQ : ∀ x lh', x < sb.size → ¬ Used sb s.disk x → (∀ y, y < x → Used sb s.disk y) →
      (∀ b, b ∈ lh' ↔ (b ∈ s.lh ∨ b = bblock x sb) ∨ b = x) → lh'.length ≤ s.lh.length + 2 →
      Q x { s with disk := allocated sb s.disk x, lh := lh' })
    (hE : ∀ e x t, (∃ msg, msg ≠ "freeing free block" ∧ e = .panic msg) → ¬ LogRoom sb s 2 →
      (∀ b ∈ t.lh, b ∈ s.lh ∨ b = bblock x sb) → E e t) :
    ∀ k b, BPB ∣ b → (∀ y, y < b → y < sb.size → Used sb s.disk y) → sb.size ≤ b + BPB * k →
      wp (ballocFrom sb k b) Q E s
  | 0, b, _, hlow, hk => by
    rw [ballocFrom]
    exact (wp_pure _).2 (h0 fun y hy => hlow y (hy.trans_le hk) hy)
  | k + 1, b, hb, hlow, hk => by
    rw [ballocFrom, wp_ite]
    split
    · rw [wp_bind, bread, wp_bind, wp_get, wp_pure]
      -- the bits of this block of the bitmap, up to `r`
      have hbits : ∀ r, r ≤ BPB →
          (∀ j, j < r → b + j < sb.size → testBit (s.disk (bblock b sb)) j = true) →
          ∀ y, y < b + r → y < sb.size → Used sb s.disk y := by
        intro r hr hset y hy hsize
        by_cases hyb : y < b
        · exact hlow y hyb hsize
        · obtain ⟨j, rfl⟩ := Nat.exists_eq_add_of_le (not_lt.1 hyb)
          obtain ⟨h1, h2⟩ := bblock_add sb hb (show j < BPB by omega)
          rw [Used, h1, h2]
          exact hset j (by omega) hsize
      split
      · next bi hbi =>
        obtain ⟨hlt, hsize, hbit, hfirst⟩ := freeBit_spec hbi
        rw [Nat.zero_add] at hlt
        obtain ⟨hblock, hmod⟩ := bblock_add sb hb hlt
        have hbefore : ∀ y, y < b + bi → Used sb s.disk y := fun y hy =>
          hbits bi hlt.le (fun j hj _ => hfirst j (Nat.zero_le j) hj) y hy (hy.trans hsize)
        rw [← hblock] at hbit ⊢
        refine wp_bind.2 (logWrite_spec (fun lh1 h1 hlen => ?_) fun e he hr => ?_)
        · refine wp_bind.2 (logWrite_spec (fun lh2 h2 hlen2 => ?_) fun e he hr => ?_)
          · refine (wp_pure _).2 ?_
            have halloc : allocated sb s.disk (b + bi) = Function.update (Function.update s.disk
                (bblock (b + bi) sb) (setBit (s.disk (bblock (b + bi) sb)) bi)) (b + bi)
                  fun _ => 0 := by
              rw [allocated, hmod]
            rw [← halloc]
            refine hQ _ _ hsize (fun hu => ?_) hbefore (fun c => by rw [h2 c, h1 c])
              (hlen2.trans (Nat.add_le_add_right hlen 1))
            rw [Used, hmod, hbit] at hu
            cases hu
          · exact hE e (b + bi) _ he (fun hroom => hr (LogRoom.after (s := s) (k := 1) hroom rfl hlen))
              fun c hc => (h1 c).1 hc
        · exact hE e 0 _ he (fun hroom => hr (hroom.after (k := 1) rfl (Nat.le_succ _)))
            fun c hc => .inl hc
      · next hnone =>
        have hall := hbits BPB le_rfl fun j hj hs =>
          freeBit_none hnone j (Nat.zero_le j) (by rw [Nat.zero_add]; exact hj) hs
        rw [Nat.mul_succ, Nat.add_comm _ BPB, ← Nat.add_assoc] at hk
        exact ballocFrom_spec h0 hQ hE k (b + BPB) (Nat.dvd_add hb (Nat.dvd_refl BPB)) hall hk
    · next hge => exact (wp_pure _).2 (h0 fun y hy => hlow y (hy.trans_le (not_lt.1 hge)) hy)

/-- `balloc`: nothing if all blocks are in use, or the first free block, which is zeroed. -/
theorem balloc_spec {Q : Nat → State μ → Prop}
    (h0 : (∀ y, y < sb.size → Used sb s.disk y) → Q 0 s)
    (hQ : ∀ x lh', x < sb.size → ¬ Used sb s.disk x → (∀ y, y < x → Used sb s.disk y) →
      (∀ b, b ∈ lh' ↔ (b ∈ s.lh ∨ b = bblock x sb) ∨ b = x) → lh'.length ≤ s.lh.length + 2 →
      Q x { s with disk := allocated sb s.disk x, lh := lh' })
    (hE : ∀ e x t, (∃ msg, msg ≠ "freeing free block" ∧ e = .panic msg) → ¬ LogRoom sb s 2 →
      (∀ b ∈ t.lh, b ∈ s.lh ∨ b = bblock x sb) → E e t) :
    wp (balloc sb) Q E s := by
  refine ballocFrom_spec h0 hQ hE _ 0 (Nat.dvd_zero BPB) (fun y hy => absurd hy y.not_lt_zero) ?_
  rw [Nat.zero_add]
  exact (Nat.lt_mul_div_succ sb.size (by decide)).le

/-! ## The file that grows -/

/-- Entry `i` of the table holds inode `j0` of a consistent file system. -/
structure InTable (sb : Superblock) (i : Fin NINODE) (j0 : Nat) (din : Nat → Dinode) (s : State μ) :
    Prop where
  layout : Layout sb
  blocks : Blocks sb s.disk din
  live : Live sb din j0
  inum : (s.itable i).inum = j0
  inode : (s.itable i).toDinode = din j0

/-- The file of entry `i` has come to have the inode `d`: only its bytes between `l` and `r`
have changed, and every block that has changed is in the log. -/
structure Grew (sb : Superblock) (i : Fin NINODE) (j0 : Nat) (din : Nat → Dinode) (l r : Nat)
    (s s' : State μ) (d : Dinode) : Prop where
  state : s' = { s with
    disk := s'.disk
    lh := s'.lh
    itable := Function.update s.itable i { s.itable i with toDinode := d } }
  blocks : Blocks sb s'.disk (Function.update din j0 d)
  frame : Frame sb j0 l r s.disk din s'.disk (Function.update din j0 d)
  log : ∀ b ∈ s.lh, b ∈ s'.lh
  clean : ∀ b, b ∉ s'.lh → s'.disk b = s.disk b
  indirect : (din j0).addrs (Fin.last NDIRECT) ≠ 0 →
    d.addrs (Fin.last NDIRECT) = (din j0).addrs (Fin.last NDIRECT)
  /-- A block that was there is new to the log only if it has some of these bytes. -/
  logged : ∀ j bn, Live sb din j → bn < MAXFILE → blockAt s.disk (din j) bn ≠ 0 →
    blockAt s.disk (din j) bn ∈ s'.lh → blockAt s.disk (din j) bn ∈ s.lh ∨
      (j = j0 ∧ l < r ∧ bn * BSIZE < r ∧ l < (bn + 1) * BSIZE)

section

variable {i : Fin NINODE} {j0 l m r : Nat} {din : Nat → Dinode} {d d' : Dinode}

theorem Grew.entry (h : Grew sb i j0 din l r s s' d) :
    s'.itable i = { s.itable i with toDinode := d } := by
  rw [h.state]
  exact Function.update_self ..

theorem Grew.mem (h : Grew sb i j0 din l r s s' d) : s'.mem = s.mem := by
  rw [h.state]

/-- The file that has grown is there. -/
theorem InTable.grew (h : InTable sb i j0 din s) (hg : Grew sb i j0 din l r s s' d) :
    InTable sb i j0 (Function.update din j0 d) s' where
  layout := h.layout
  blocks := hg.blocks
  live := hg.frame.live h.live
  inum := by rw [hg.entry]; exact h.inum
  inode := by rw [hg.entry, Function.update_self]

theorem InTable.refl (h : InTable sb i j0 din s) : Grew sb i j0 din l l s s (din j0) where
  state := by
    rw [← h.inode]
    exact congrArg (fun t => { s with itable := t }) (Function.update_eq_self i s.itable).symm
  blocks := by rw [Function.update_eq_self]; exact h.blocks
  frame := by rw [Function.update_eq_self]; exact .refl _ _
  log _ hb := hb
  clean _ _ := rfl
  indirect _ := rfl
  logged _ _ _ _ _ hb := .inl hb

theorem Grew.trans (h : Grew sb i j0 din l m s s' d)
    (h' : Grew sb i j0 (Function.update din j0 d) m r s' s'' d') (h1 : l ≤ m)
    (h2 : m ≤ r) : Grew sb i j0 din l r s s'' d' where
  state := by
    have hs := h'.state
    rw [h.entry] at hs
    rw [h.state] at hs
    rw [hs]
    dsimp only
    rw [Function.update_idem]
  blocks := by
    have := h'.blocks
    rwa [Function.update_idem] at this
  frame := by
    have := h'.frame
    rw [Function.update_idem] at this
    exact h.frame.trans this h1 h2
  log b hb := h'.log b (h.log b hb)
  clean b hb := (h'.clean b hb).trans (h.clean b fun hm => hb (h'.log b hm))
  indirect h0 := by
    have hd := h.indirect h0
    have hd' := h'.indirect (by rw [Function.update_self, hd]; exact h0)
    rw [hd', Function.update_self, hd]
  logged j bn hj hbn h0 hm := by
    have hblock := h.frame.block j bn hj hbn h0
    have hlog := h'.logged j bn (h.frame.live hj) hbn (hblock.trans_ne h0)
    rw [hblock] at hlog
    rcases hlog hm with hm | ⟨hj0, hr⟩
    · rcases h.logged j bn hj hbn h0 hm with hm | ⟨hj0, hr⟩
      · exact .inl hm
      · exact .inr ⟨hj0, by omega⟩
    · exact .inr ⟨hj0, by omega⟩

/-- The inode stays as it is. -/
theorem InTable.grew_disk (h : InTable sb i j0 din s) {disk' : Nat → Block} {lh' : List Nat}
    (hb : Blocks sb disk' din) (hf : Frame sb j0 l r s.disk din disk' din)
    (hlog : ∀ b ∈ s.lh, b ∈ lh') (hclean : ∀ b, b ∉ lh' → disk' b = s.disk b)
    (hlogged : ∀ j bn, Live sb din j → bn < MAXFILE → blockAt s.disk (din j) bn ≠ 0 →
      blockAt s.disk (din j) bn ∈ lh' → blockAt s.disk (din j) bn ∈ s.lh ∨
        (j = j0 ∧ l < r ∧ bn * BSIZE < r ∧ l < (bn + 1) * BSIZE)) :
    Grew sb i j0 din l r s { s with disk := disk', lh := lh' } (din j0) where
  state := by
    rw [← h.inode]
    exact congrArg (fun t => { s with disk := disk', lh := lh', itable := t })
      (Function.update_eq_self i s.itable).symm
  blocks := by rw [Function.update_eq_self]; exact hb
  frame := by rw [Function.update_eq_self]; exact hf
  log := hlog
  clean := hclean
  indirect _ := rfl
  logged := hlogged

/-- `balloc` takes a block for the file. -/
theorem InTable.alloc (h : InTable sb i j0 din s) {x : Nat} {lh' : List Nat} (hx : x < sb.size)
    (hfree : ¬ Used sb s.disk x) (hlh : ∀ b, b ∈ lh' ↔ (b ∈ s.lh ∨ b = bblock x sb) ∨ b = x) :
    Grew sb i j0 din l l s { s with disk := allocated sb s.disk x, lh := lh' } (din j0) ∧
      Spare sb (allocated sb s.disk x) din x ∧
      ∀ j sl, Live sb din j → InFile sl →
        slot (allocated sb s.disk x) (din j) sl = slot s.disk (din j) sl := by
  obtain ⟨h1, h2, h3, h4⟩ := h.blocks.alloc h.layout hx hfree
  refine ⟨h.grew_disk h1 h3 (fun b hb => (hlh b).2 (.inl (.inl hb))) (fun b hb => ?_)
    fun j bn hj hbn h0 hm => .inl ?_, h2, h4⟩
  · have hbx : b ≠ x := fun he => hb ((hlh b).2 (.inr he))
    have hbb : b ≠ bblock x sb := fun he => hb ((hlh b).2 (.inl (.inr he)))
    rw [allocated, Function.update_of_ne hbx, Function.update_of_ne hbb]
  · rcases (hlh _).1 hm with (hm | hm) | hm
    · exact hm
    · exact absurd hm (h.blocks.block_ne (some bn) hj hbn h0 (bblock_lt hx))
    · exact absurd ((h4 j (some bn) hj hbn).trans hm) (h2.free j (some bn) hj hbn)

theorem Spare.ne_zero {disk : Nat → Block} {x : Nat} (h : Spare sb disk din x) : x ≠ 0 :=
  ((Nat.succ_pos _).trans_le h.low).ne'

/-- Block 0 is never free. -/
theorem InTable.ne_zero (h : InTable sb i j0 din s) {x : Nat} (hx : x < sb.size)
    (hfree : ¬ Used sb s.disk x) : x ≠ 0 := by
  rintro rfl
  exact hfree (h.blocks.reserved 0 (Nat.succ_pos _) hx)

/-- Once a free block has been taken, all are used if it was the only free one. -/
theorem InTable.allocated_full (h : InTable sb i j0 din s) {x : Nat} (hx : x < sb.size)
    (hfree : ¬ Used sb s.disk x) : (∀ y, y < sb.size → Used sb (allocated sb s.disk x) y) ↔
      ∃ x', ∀ y, y < sb.size → y ≠ x' → Used sb s.disk y := by
  have hlow : datastart sb ≤ x := not_lt.1 fun hlt => hfree (h.blocks.reserved x hlt hx)
  refine ⟨fun hall => ⟨x, fun y hy hne => ?_⟩, fun ⟨x', hall⟩ y hy => ?_⟩
  · exact ((used_allocated hlow hy).1 (hall y hy)).resolve_left hne
  · obtain rfl : x = x' := not_not.1 fun hne => hfree (hall x hx hne)
    refine (used_allocated hlow hy).2 ?_
    by_cases hyx : y = x
    · exact .inl hyx
    · exact .inr (hall y hy hyx)

/-- How `addrAt` came by the block `x`, if `a` was the address there: it is `a`, or no block is free,
or a free one has been taken. -/
inductive Came (sb : Superblock) (a x : Nat) (s s' : State μ) : Prop
  | there (h0 : a ≠ 0) (hx : x = a) (hs : s' = s)
  | none (h0 : a = 0) (hx : x = 0) (hall : ∀ y, y < sb.size → Used sb s.disk y)
  | taken (h0 : a = 0) (hx : x < sb.size) (hfree : ¬ Used sb s.disk x)
      (hdisk : s'.disk = allocated sb s.disk x)

/-- `addrAt`: the block that is there, or the first free block, if there is one. -/
theorem addrAt_spec {Q : Nat → State μ → Prop} (h : InTable sb i j0 din s)
    (k : Fin (NDIRECT + 1))
    (hQ : ∀ x s' d, Grew sb i j0 din l l s s' d → (x ≠ 0 → d.addrs k = x) → (x = 0 → s' = s) →
      (∀ b ∈ s'.lh, (b ∈ s.lh ∨ b = bblock x sb) ∨ b = x) → s'.lh.length ≤ s.lh.length + 2 →
      Came sb ((din j0).addrs k) x s s' → Q x s')
    (hE : ∀ e x t, (din j0).addrs k = 0 → ¬ LogRoom sb s 2 →
      (∀ b ∈ t.lh, b ∈ s.lh ∨ b = bblock x sb) → E e t) :
    wp (addrAt sb i k) Q E s := by
  have haddr : (s.itable i).addrs k = (din j0).addrs k :=
    congrArg (fun d : Dinode => d.addrs k) h.inode
  have hlen : s.lh.length ≤ s.lh.length + 2 := Nat.le_add_right _ _
  rw [addrAt, wp_bind, getInode, wp_bind, wp_get, wp_pure, wp_ite, haddr]
  split
  · next h0 =>
    refine wp_bind.2 (balloc_spec (fun hall => ?_) (fun x lh' hx hfree _ hlh hlen2 => ?_)
      fun e x t _ => hE e x t h0)
    · rw [if_pos rfl, wp_pure]
      exact hQ 0 s _ h.refl (fun hne => absurd rfl hne) (fun _ => rfl) (fun b hb => .inl (.inl hb))
        hlen (.none h0 rfl hall)
    · obtain ⟨hg, hspare, -⟩ := h.alloc (l := l) hx hfree hlh
      rw [if_neg hspare.ne_zero, wp_bind, modifyInode, wp_modify, wp_pure]
      have h1 := h.grew hg
      rw [Function.update_eq_self] at h1
      -- the inode gets the block
      have hzero : allocated sb s.disk x x = fun _ => 0 := Function.update_self ..
      obtain ⟨hb, hf⟩ := h1.blocks.setAddr (l := l) h.layout hspare hzero h1.live h0 rfl
      have hset : Grew sb i j0 din l l { s with disk := allocated sb s.disk x, lh := lh' }
          (State.setInode { s with disk := allocated sb s.disk x, lh := lh' } i
            { s.itable i with addrs := Function.update (s.itable i).addrs k x })
          { din j0 with addrs := Function.update (din j0).addrs k x } := by
        refine ⟨?_, hb, hf, fun _ hb => hb, fun _ _ => rfl, fun hne => ?_,
          fun _ _ _ _ _ hm => .inl hm⟩
        · rw [← h.inode]
          rfl
        · refine Function.update_of_ne (fun heq => hne ?_) ..
          rw [heq]
          exact h0
      rw [← Function.update_eq_self j0 din] at hset
      exact hQ x _ _ (hg.trans hset (le_refl _) (le_refl _)) (fun _ => Function.update_self ..)
        (fun he => absurd he hspare.ne_zero) (fun b hb => (hlh b).1 hb) hlen2
        (.taken h0 hx hfree rfl)
  · next h0 =>
    rw [wp_pure]
    exact hQ _ s _ h.refl (fun _ => rfl) (fun _ => rfl) (fun b hb => .inl (.inl hb)) hlen
      (.there h0 rfl rfl)

/-- The log has at most the block `a` more, the block `y` and their bits. -/
def Adds (sb : Superblock) (a y : Nat) (lh lh' : List Nat) : Prop :=
  ∀ b ∈ lh', b ∈ lh ∨ (b = a ∨ b = bblock a sb) ∨ (b = y ∨ b = bblock y sb)

theorem Adds.trans {a y : Nat} {lh lh' lh'' : List Nat} (h : Adds sb a y lh lh')
    (h' : Adds sb a y lh' lh'') : Adds sb a y lh lh'' := fun b hb =>
  (h' b hb).elim (h b) .inr

/-- The entry of the indirect block, or a new block for it. -/
theorem bmapEntry_spec {Q : Nat → State μ → Prop} (h : InTable sb i j0 din s) {bn ind : Nat}
    (hbn : bn < MAXFILE) (hlo : ¬ bn < NDIRECT) (hind : (din j0).addrs (Fin.last NDIRECT) = ind)
    (hz : ind ≠ 0)
    (hQ : ∀ a s', Grew sb i j0 din l l s s' (din j0) →
      (a ≠ 0 → blockAt s'.disk (din j0) bn = a) → Adds sb a ind s.lh s'.lh →
      s'.lh.length ≤ s.lh.length + 3 → (blockAt s.disk (din j0) bn = 0 →
        (a = 0 ↔ ∀ y, y < sb.size → Used sb s.disk y)) → Q a s')
    (hE : ∀ e a t, Adds sb a ind s.lh t.lh → ¬ LogRoom sb s 3 → E e t) :
    wp (do
      let a ← bread ind
      if getLE a (4 * (bn - NDIRECT)) 4 = 0 then
        let addr ← balloc sb
        if addr = 0 then
          return 0
        else
          let a ← bread ind
          logWrite sb ind (setLE a (4 * (bn - NDIRECT)) 4 addr)
          return addr
      else
        return getLE a (4 * (bn - NDIRECT)) 4 : Kern (State μ) Nat) Q E s := by
  subst hind
  have hat : ∀ disk, blockAt disk (din j0) bn =
      getLE (disk ((din j0).addrs (Fin.last NDIRECT))) (4 * (bn - NDIRECT)) 4 := by
    intro disk
    rw [blockAt, dif_neg hlo, if_neg hz]
  have hsame : ∀ a, Adds sb a ((din j0).addrs (Fin.last NDIRECT)) s.lh s.lh := fun _ _ hb => .inl hb
  rw [wp_bind, bread, wp_bind, wp_get, wp_pure, wp_ite, ← hat]
  split
  · next h0 =>
    refine wp_bind.2 (balloc_spec (fun hall => ?_) (fun x lh2 hx hused _ hlh2 hlen2 => ?_)
      fun e x t _ hr hlog => ?_)
    · rw [if_pos rfl, wp_pure]
      exact hQ 0 s h.refl (fun hne => absurd rfl hne) (hsame 0) (Nat.le_add_right _ _)
        fun _ => iff_of_true rfl hall
    · obtain ⟨hg2, hspare, hslot⟩ := h.alloc (l := l) hx hused hlh2
      have hadds : Adds sb x ((din j0).addrs (Fin.last NDIRECT)) s.lh lh2 := fun b hb => by
        rcases (hlh2 b).1 hb with (hb | hb) | hb
        · exact .inl hb
        · exact .inr (.inl (.inr hb))
        · exact .inr (.inl (.inl hb))
      have h2 := h.grew hg2
      rw [Function.update_eq_self] at h2
      rw [if_neg hspare.ne_zero, wp_bind, wp_bind, wp_get, wp_pure]
      refine wp_bind.2 (logWrite_spec (fun lh3 hlh3 hlen3 => ?_)
        fun e _ hr => hE e x _ hadds fun hroom => hr (LogRoom.after (s := s) (k := 2) hroom rfl hlen2))
      rw [wp_pure]
      have h0' : blockAt (allocated sb s.disk x) (din j0) bn = 0 :=
        (hslot j0 (some bn) h.live hbn).trans h0
      obtain ⟨hb, hf, hnew⟩ := h2.blocks.setEntry (l := l) h.layout hspare h2.live
        (not_lt.1 hlo) hz h0' rfl
      have hg3 := h2.grew_disk hb hf (fun b hb => (hlh3 b).2 (.inl hb)) (fun b hb =>
          Function.update_of_ne (fun he => hb ((hlh3 b).2 (.inr he))) ..) fun j bn' hj hbn' h0 hm =>
        .inl (((hlh3 _).1 hm).resolve_right fun he => by
          have := (h2.blocks.distinct j (some bn') j0 none hj h2.live hbn' trivial h0 he).2
          cases this)
      rw [← Function.update_eq_self j0 din] at hg3
      have hg := hg2.trans hg3 (le_refl _) (le_refl _)
      rw [Function.update_eq_self] at hg
      refine hQ x _ hg (fun _ => hnew) (fun b hb => ?_)
        (hlen3.trans (Nat.add_le_add_right hlen2 1))
        fun _ => iff_of_false hspare.ne_zero fun hall => hused (hall x hx)
      rcases (hlh3 b).1 hb with hb | hb
      · exact hadds b hb
      · exact .inr (.inr (.inl hb))
    · refine hE e x t (fun b hb => ?_) fun hroom => hr (hroom.after (k := 1) rfl (Nat.le_succ _))
      exact (hlog b hb).imp_right fun hb => .inl (.inr hb)
  · next h0 =>
    rw [wp_pure]
    exact hQ _ s h.refl (fun _ => rfl) (hsame _) (Nat.le_add_right _ _) fun hz => absurd hz h0

/-- No block can be had for block `bn` of a file: all are used, or all but one and an indirect block
is needed as well. -/
def NoBlock (sb : Superblock) (disk : Nat → Block) (d : Dinode) (bn : Nat) : Prop :=
  if bn < NDIRECT ∨ d.addrs (Fin.last NDIRECT) ≠ 0 then ∀ y, y < sb.size → Used sb disk y
  else ∃ x, ∀ y, y < sb.size → y ≠ x → Used sb disk y

/-- `bmap`: the block that is there, or a new one, and perhaps a new indirect block. -/
theorem bmap_spec {Q : Nat → State μ → Prop} (h : InTable sb i j0 din s) {bn : Nat}
    (hbn : bn < MAXFILE)
    (hQ : ∀ a s' d, Grew sb i j0 din l l s s' d → (a ≠ 0 → blockAt s'.disk d bn = a) →
      (blockAt s.disk (din j0) bn ≠ 0 → s' = s ∧ a ≠ 0) →
      (∀ y, (d.addrs (Fin.last NDIRECT) ≠ 0 → y = d.addrs (Fin.last NDIRECT)) →
        Adds sb a y s.lh s'.lh) → s'.lh.length ≤ s.lh.length + 5 →
      (blockAt s.disk (din j0) bn = 0 → (a = 0 ↔ NoBlock sb s.disk (din j0) bn)) → Q a s')
    (hE : ∀ e a y t,
      ((din j0).addrs (Fin.last NDIRECT) ≠ 0 → y = (din j0).addrs (Fin.last NDIRECT)) →
      Adds sb a y s.lh t.lh → ¬ LogRoom sb s 5 → E e t) :
    wp (bmap sb i bn) Q E s := by
  have hroom : ∀ {k}, k ≤ 5 → ¬ LogRoom sb s k → ¬ LogRoom sb s 5 := fun {k} hk hr h5 => by
    refine hr (LogRoom.after (k := 5 - k) ?_ rfl (Nat.le_add_right _ _))
    rwa [Nat.sub_add_cancel hk]
  by_cases h0 : blockAt s.disk (din j0) bn = 0
  · -- the block is not there
    have hvac : ∀ {p : Prop}, blockAt s.disk (din j0) bn ≠ 0 → p := fun hne => absurd h0 hne
    rw [bmap]
    split
    · next hdir =>
      refine addrAt_spec (l := l) h _ (fun x s' d hg hx _ hlog hlen hwhy => ?_)
        fun e x t _ hr hlog => ?_
      · have hempty : (din j0).addrs ⟨bn, Nat.lt_succ_of_lt hdir⟩ = 0 := by
          rw [blockAt, dif_pos hdir] at h0
          exact h0
        refine hQ x s' d hg (fun hne => ?_) hvac (fun y _ b hb => ?_) (hlen.trans (by omega))
          fun _ => ?_
        · rw [blockAt, dif_pos hdir]
          exact hx hne
        · rcases hlog b hb with (hb | hb) | hb
          · exact .inl hb
          · exact .inr (.inl (.inr hb))
          · exact .inr (.inl (.inl hb))
        · rw [NoBlock, if_pos (.inl hdir)]
          cases hwhy with
          | there hne => exact absurd hempty hne
          | none _ hx0 hall => exact iff_of_true hx0 hall
          | taken _ hlt hfree =>
            exact iff_of_false (h.ne_zero hlt hfree) fun hall => hfree (hall x hlt)
      · refine hE e x _ t (fun _ => rfl) (fun b hb => ?_) (hroom (by decide) hr)
        exact (hlog b hb).imp_right fun hb => .inl (.inr hb)
    · next hdir =>
      have hm : MAXFILE = NDIRECT + NINDIRECT := rfl
      rw [wp_ite, if_pos (by omega)]
      refine wp_bind.2 (addrAt_spec (l := l) h _
        (fun ind s1 d1 hg1 hind hsame1 hlog1 hlen1 hwhy => ?_) fun e x t hold hr hlog => ?_)
      · rw [wp_ite]
        split
        · next hz =>
          rw [wp_pure]
          refine hQ 0 s1 d1 hg1 (fun hne => absurd rfl hne) hvac (fun y _ b hb => .inl ?_)
            (hlen1.trans (by omega)) fun _ => iff_of_true rfl ?_
          · rwa [hsame1 hz] at hb
          · cases hwhy with
            | there hne hx => exact absurd (hx.symm.trans hz) hne
            | none hold _ hall =>
              rw [NoBlock, if_neg fun hor => hor.elim hdir fun hne => hne hold]
              exact ⟨0, fun y hy _ => hall y hy⟩
            | taken _ hlt hfree => exact absurd hz (h.ne_zero hlt hfree)
        · next hz =>
          have hlast : d1.addrs (Fin.last NDIRECT) = ind := hind hz
          have hlog1' : ∀ a, Adds sb a ind s.lh s1.lh := fun a b hb => by
            rcases hlog1 b hb with (hb | hb) | hb
            · exact .inl hb
            · exact .inr (.inr (.inr hb))
            · exact .inr (.inr (.inl hb))
          have hy : ∀ {y}, (d1.addrs (Fin.last NDIRECT) ≠ 0 → y = d1.addrs (Fin.last NDIRECT)) →
              y = ind := fun hy => (hy (hlast.trans_ne hz)).trans hlast
          have hold : (din j0).addrs (Fin.last NDIRECT) ≠ 0 →
              ind = (din j0).addrs (Fin.last NDIRECT) := fun hne =>
            hlast.symm.trans (hg1.indirect hne)
          have h1 := h.grew hg1
          have hd1 : Function.update din j0 d1 j0 = d1 := Function.update_self ..
          refine bmapEntry_spec (l := l) h1 hbn hdir (by rw [hd1, hlast]) hz
            (fun a s' hg ha hadds hlen hwhy' => ?_) fun e a t hadds hr => ?_
          · rw [hd1] at hg ha hwhy'
            refine hQ a s' d1 (hg1.trans hg (le_refl _) (le_refl _)) ha hvac
              (fun y hy' => hy hy' ▸ (hlog1' a).trans hadds) (by omega) fun _ => ?_
            rw [NoBlock]
            cases hwhy with
            | there hne _ hs =>
              rw [hs] at hwhy'
              have hd : d1 = din j0 := by
                rw [← h.inode, ← hs, hg1.entry]
              rw [if_pos (.inr hne)]
              exact hwhy' (hd ▸ h0)
            | none _ hx => exact absurd hx hz
            | taken hold hlt hfree hdisk =>
              -- the new indirect block is empty
              have hat : blockAt s1.disk d1 bn = 0 := by
                have hzero : s1.disk ind = fun _ => 0 := by
                  rw [hdisk]
                  exact Function.update_self ..
                rw [blockAt, dif_neg hdir, hlast, if_neg hz, hzero, getLE_zero]
              rw [if_neg fun hor => hor.elim hdir fun hne => hne hold, hwhy' hat, hdisk]
              exact h.allocated_full hlt hfree
          · refine hE e a ind t hold ((hlog1' a).trans hadds) fun h5 => hr ?_
            exact LogRoom.after (k := 2) h5 (by rw [hg1.state]) hlen1
      · refine hE e 0 x t (fun hne => absurd hold hne) (fun b hb => ?_) (hroom (by decide) hr)
        exact (hlog b hb).imp_right fun hb => .inr (.inr hb)
  · exact (wp_of_ok (bmap_present sb h.inode hbn h0)).2 (hQ _ s _ h.refl (fun _ => rfl)
      (fun _ => ⟨rfl, h0⟩) (fun _ _ b hb => .inl hb) (Nat.le_add_right _ _) fun hz => absurd hz h0)

end

end Xv6.Fs
