import Xv6.Fs.Bmap

/-!
# Writing a file

What `writei` does to a consistent file system: the bytes of the file become those of the source,
block after block, until all are written, there is no block left, or a copy fails.  A copy that
fails has changed a block that is not in the log.
-/

set_option autoImplicit false

namespace Xv6.Fs

variable {μ : Type} {s s' : State μ} {sb : Superblock} {M : Memory μ} {p : Fin NPROC}

/-- The bytes of a source, of which `either_copyin` copies `got tot len`, and fails if these are not
all. -/
structure Source (M : Memory μ) (p : Fin NPROC) (src : Src) (n : Nat) (m : μ) (bytes : Bytes)
    (got : Nat → Nat → Nat) : Prop where
  le : ∀ tot len, got tot len ≤ len
  copy : ∀ (s : State μ) (data : Block) (o tot len : Nat), s.mem = m → tot + len ≤ n →
    eitherCopyin M p data o src tot len s =
      .ok (if got tot len = len then 0 else -1,
        blit data o (fun j => bytes (tot + j)) (got tot len)) s

/-- A buffer of the kernel can be read. -/
theorem source_kernel (M : Memory μ) (p : Fin NPROC) (buf : Bytes) (n : Nat) (m : μ) :
    Source M p (.kernel buf) n m buf fun _ len => len where
  le _ _ := Nat.le_refl _
  copy _ _ _ _ _ _ _ := by rw [if_pos rfl]; rfl

/-- The bytes of a file from `l` to `r` are there. -/
def HasBytes (disk : Nat → Block) (d : Dinode) (l r : Nat) (g : Nat → UInt8) : Prop :=
  ∀ pos, l ≤ pos → pos < r → pos / BSIZE < MAXFILE ∧ blockAt disk d (pos / BSIZE) ≠ 0 ∧
    byteAt disk d pos = g pos

/-- How many bytes one round of the loop of `writei` copies. -/
def chunk (n tot off : Nat) : Nat := min (n - tot) (BSIZE - off % BSIZE)

theorem chunk_spec {n tot : Nat} (off : Nat) (h : tot < n) :
    0 < chunk n tot off ∧ tot + chunk n tot off ≤ n ∧ off % BSIZE + chunk n tot off ≤ BSIZE ∧
      (tot + chunk n tot off < n → (off + chunk n tot off) % BSIZE = 0) := by
  have hlt : off % BSIZE < BSIZE := Nat.mod_lt off (by decide)
  refine ⟨Nat.lt_min.2 ⟨by omega, by omega⟩, ?_, ?_, fun hn => ?_⟩
  · have := Nat.min_le_left (n - tot) (BSIZE - off % BSIZE)
    rw [chunk]
    omega
  · have := Nat.min_le_right (n - tot) (BSIZE - off % BSIZE)
    rw [chunk]
    omega
  · have hm : chunk n tot off = BSIZE - off % BSIZE := by
      rw [chunk] at hn ⊢
      omega
    have hdiv := Nat.div_add_mod off BSIZE
    rw [hm, show off + (BSIZE - off % BSIZE) = BSIZE * (off / BSIZE + 1) by
      rw [Nat.mul_add]; omega]
    exact Nat.mul_mod_right _ _

/-- The bytes of a chunk are in one block. -/
theorem chunk_block {off m pos : Nat} (hm : off % BSIZE + m ≤ BSIZE) (h1 : off ≤ pos)
    (h2 : pos < off + m) : pos / BSIZE = off / BSIZE ∧ pos % BSIZE = off % BSIZE + (pos - off) := by
  have hpos : 0 < BSIZE := by decide
  have hoff := Nat.div_add_mod off BSIZE
  have hdiv : pos / BSIZE = off / BSIZE :=
    (Nat.div_eq_iff hpos).2 ⟨by rw [Nat.mul_comm]; omega, by rw [Nat.mul_comm]; omega⟩
  have hp := Nat.div_add_mod pos BSIZE
  rw [hdiv] at hp
  exact ⟨hdiv, by omega⟩

section

variable {i : Fin NINODE} {j0 off n : Nat} {din : Nat → Dinode} {d : Dinode} {bytes : Bytes}
  {got : Nat → Nat → Nat}

/-- The bytes that were there are there after a change beyond them. -/
theorem HasBytes.grew {l m r : Nat} {g : Nat → UInt8} (h : HasBytes s.disk (din j0) l m g)
    (hj : Live sb din j0) (hg : Grew sb i j0 din m r s s' d) : HasBytes s'.disk d l m g := by
  intro pos h1 h2
  obtain ⟨hbn, h0, hb⟩ := h pos h1 h2
  have hd : Function.update din j0 d j0 = d := Function.update_self ..
  have h0' := hg.frame.block_ne hj hbn h0
  have hb' := hg.frame.bytes j0 pos hj hbn h0 (by omega)
  rw [hd] at h0' hb'
  exact ⟨hbn, h0', hb'.trans hb⟩

/-- What the write of one chunk does: block `bn` of the file is in the log, with its new bytes. -/
theorem InTable.store (h : InTable sb i j0 din s) (bytes : Bytes) {tot m : Nat} {lh' : List Nat} (hm : 0 < m)
    (hb : (off + tot) % BSIZE + m ≤ BSIZE) (hbn : (off + tot) / BSIZE < MAXFILE)
    (h0 : blockAt s.disk (din j0) ((off + tot) / BSIZE) ≠ 0)
    (hlh : ∀ b, b ∈ lh' ↔ b ∈ s.lh ∨ b = blockAt s.disk (din j0) ((off + tot) / BSIZE))
    {disk' : Nat → Block} (hdisk : disk' = Function.update s.disk
      (blockAt s.disk (din j0) ((off + tot) / BSIZE))
      (blit (s.disk (blockAt s.disk (din j0) ((off + tot) / BSIZE))) ((off + tot) % BSIZE)
        (fun j => bytes (tot + j)) m)) :
    Grew sb i j0 din (off + tot) (off + (tot + m)) s { s with disk := disk', lh := lh' } (din j0) ∧
      HasBytes disk' (din j0) (off + tot) (off + (tot + m)) fun pos => bytes (pos - off) := by
  have hoff := Nat.div_add_mod' (off + tot) BSIZE
  obtain ⟨h1, h2, h3⟩ := h.blocks.write (l := off + tot) (r := off + (tot + m)) h.layout h.live hbn
    h0 (fun o ho => by rw [blit, if_neg (by omega)]) hdisk
  refine ⟨h.grew_disk h1 h2 (fun b hb => (hlh b).2 (.inl hb)) (fun b hb => ?_)
    fun j bn hj hbn' hne hmem => ?_, fun pos hl hr => ?_⟩
  · rw [hdisk, Function.update_of_ne fun he => hb ((hlh b).2 (.inr he))]
  · refine ((hlh _).1 hmem).imp_right fun he => ?_
    obtain ⟨rfl, hsl⟩ :=
      h.blocks.distinct j (some bn) j0 (some ((off + tot) / BSIZE)) hj h.live hbn' hbn hne he
    cases hsl
    rw [Nat.add_mul, Nat.one_mul]
    exact ⟨rfl, by omega⟩
  · obtain ⟨hdiv, hmod⟩ := chunk_block hb hl (by omega)
    refine ⟨hdiv ▸ hbn, ?_, ?_⟩
    · rw [hdiv, h2.block j0 _ h.live hbn h0]
      exact h0
    · rw [h3 pos hdiv, hmod, blit, if_pos (by omega)]
      exact congrArg bytes (by omega)

/-- A copy fails: the cached block has changed, and is not in the log for it. -/
structure Torn (off n : Nat) (bytes : Bytes) (got : Nat → Nat → Nat) (tot t : Nat) (s : State μ)
    (d : Dinode) (s' : State μ) : Prop where
  lt : t < n
  start : t = tot ∨ (off + t) % BSIZE = 0
  short : got t (chunk n t (off + t)) < chunk n t (off + t)
  block : (off + t) / BSIZE < MAXFILE
  present : blockAt s.disk d ((off + t) / BSIZE) ≠ 0
  state : s' = { s with
    disk := Function.update s.disk (blockAt s.disk d ((off + t) / BSIZE))
      (blit (s.disk (blockAt s.disk d ((off + t) / BSIZE))) ((off + t) % BSIZE)
        (fun j => bytes (t + j)) (got t (chunk n t (off + t)))) }

/-- What the loop of `writei` has done when it has written the bytes from `tot` to `t`. -/
structure Wrote (sb : Superblock) (i : Fin NINODE) (j0 : Nat) (din : Nat → Dinode) (off n : Nat)
    (bytes : Bytes) (got : Nat → Nat → Nat) (tot t : Nat) (s s1 : State μ) (d : Dinode)
    (s' : State μ) : Prop where
  le : tot ≤ t
  le_n : t ≤ n
  grew : Grew sb i j0 din (off + tot) (off + t) s s1 d
  content : HasBytes s1.disk d (off + tot) (off + t) fun pos => bytes (pos - off)
  last : s' = s1 ∨ Torn off n bytes got tot t s1 d s'

theorem Grew.wrote {tot : Nat} (hn : tot ≤ n) {d : Dinode} (hg : Grew sb i j0 din (off + tot) (off + tot) s s' d) {s'' : State μ}
    (hlast : s'' = s' ∨ Torn off n bytes got tot tot s' d s'') :
    Wrote sb i j0 din off n bytes got tot tot s s' d s'' :=
  ⟨le_refl _, hn, hg, fun _ h1 h2 => absurd h2 (not_lt.2 h1), hlast⟩

/-- A round of the loop, and what the rest of it does. -/
theorem Wrote.cons {tot m t : Nat} {s2 s1 : State μ} {d2 : Dinode}
    (hj : Live sb din j0) (hg : Grew sb i j0 din (off + tot) (off + (tot + m)) s s2 d2)
    (hb : HasBytes s2.disk d2 (off + tot) (off + (tot + m)) fun pos => bytes (pos - off))
    (halign : tot + m < n → (off + (tot + m)) % BSIZE = 0)
    (hw : Wrote sb i j0 (Function.update din j0 d2) off n bytes got (tot + m) t s2 s1 d s') :
    Wrote sb i j0 din off n bytes got tot t s s1 d s' where
  le := (Nat.le_add_right _ _).trans hw.le
  le_n := hw.le_n
  grew := by
    have := hw.le
    exact hg.trans hw.grew (by omega) (by omega)
  content := by
    have hb2 : HasBytes s2.disk (Function.update din j0 d2 j0) (off + tot) (off + (tot + m))
        fun pos => bytes (pos - off) := by
      rw [Function.update_self]
      exact hb
    have hb' := hb2.grew (hg.frame.live hj) hw.grew
    intro pos h1 h2
    by_cases hm : pos < off + (tot + m)
    · exact hb' pos h1 hm
    · exact hw.content pos (not_lt.1 hm) h2
  last := hw.last.imp_right fun ht => { ht with
    start := .inr (ht.start.elim (fun he => by rw [he]; exact halign (he ▸ ht.lt)) id) }

theorem writeiFrom_spec {src : Src} {m : μ} (hsrc : Source M p src n m bytes got)
    (hmax : off + n ≤ MAXFILE * BSIZE) : ∀ (k tot : Nat) {s : State μ} {din : Nat → Dinode},
    InTable sb i j0 din s → s.mem = m → tot ≤ n → n - tot ≤ k →
    wp (writeiFrom sb M p i src n k tot (off + tot))
      (fun t s' => ∃ s1 d, Wrote sb i j0 din off n bytes got tot t s s1 d s') (fun _ _ => True) s
  | 0, tot, s, din, h, _, htot, _ => by
    rw [writeiFrom, wp_pure]
    exact ⟨s, din j0, Grew.wrote htot h.refl (.inl rfl)⟩
  | k + 1, tot, s, din, h, hmem, htot, hk => by
    rw [writeiFrom, wp_ite]
    split
    · next hlt =>
      obtain ⟨hm0, hmn, hmb, halign⟩ := chunk_spec (off + tot) hlt
      have hbn : (off + tot) / BSIZE < MAXFILE := (Nat.div_lt_iff_lt_mul (by decide)).2 (by omega)
      refine wp_bind.2 (bmap_spec (l := off + tot) h hbn (fun a s1 d1 hg1 ha _ _ _ _ => ?_)
        fun _ _ _ _ _ _ _ => trivial)
      rw [wp_ite]
      split
      · exact (wp_pure _).2 ⟨s1, d1, Grew.wrote htot hg1 (.inl rfl)⟩
      · next hz =>
        have h1 := h.grew hg1
        have hd1 : Function.update din j0 d1 j0 = d1 := Function.update_self ..
        have hat := ha hz
        rw [wp_bind, bread, wp_bind, wp_get, wp_pure]
        refine wp_bind.2 ((wp_of_ok (hsrc.copy s1 _ _ _ _ (hg1.mem.trans hmem) hmn)).2 ?_)
        dsimp only
        rw [wp_ite]
        by_cases hall : got tot (chunk n tot (off + tot)) = chunk n tot (off + tot)
        · rw [if_pos hall, if_neg (by decide), hall]
          refine wp_bind.2 (logWrite_spec (fun lh2 hlh2 _ => ?_) fun _ _ _ => trivial)
          rw [← hat, ← hd1] at hlh2 hz
          obtain ⟨hg2, hbytes⟩ := h1.store bytes hm0 hmb hbn hz hlh2 rfl
          rw [hd1, hat] at hg2 hbytes
          have hg := hg1.trans hg2 (le_refl _) (by omega)
          have h2 := h.grew hg
          rw [Nat.add_assoc] at halign ⊢
          refine wp_mono (writeiFrom_spec hsrc hmax k _ h2 (hg1.mem.trans hmem) hmn (by omega))
            (fun t s' hw => ?_) fun _ _ _ => trivial
          obtain ⟨s3, d3, hw⟩ := hw
          exact ⟨s3, d3, hw.cons h.live hg hbytes halign⟩
        · rw [if_neg hall, if_pos rfl, wp_bind, wp_modify, wp_pure]
          refine ⟨s1, d1, Grew.wrote htot hg1 (.inr ⟨hlt, .inl rfl, ?_, hbn, ?_, ?_⟩)⟩
          · exact lt_of_le_of_ne (hsrc.le _ _) hall
          · rw [hat]
            exact hz
          · rw [hat]
    · next hge =>
      rw [wp_pure]
      exact ⟨s, din j0, Grew.wrote htot h.refl (.inl rfl)⟩

/-- `iupdate`: the inode `d` in the table is written to the disk. -/
structure Updated (sb : Superblock) (i : Fin NINODE) (j0 : Nat) (d : Dinode) (s s' : State μ) :
    Prop where
  log : ∀ b, b ∈ s'.lh ↔ b ∈ s.lh ∨ b = iblock j0 sb
  state : s' = { s with
    disk := Function.update s.disk (iblock j0 sb) (putDinode (s.disk (iblock j0 sb)) (j0 % IPB) d)
    lh := s'.lh
    itable := Function.update s.itable i { s.itable i with toDinode := d } }

theorem Torn.itable {tot t : Nat} {s1 : State μ} (h : Torn off n bytes got tot t s1 d s') :
    s'.itable = s1.itable := by
  rw [h.state]

/-- The end of `writei`, after its loop: the size, and `iupdate`. -/
theorem writeiEnd_spec {x : Inode} {tot : Nat} {E : Halt → State μ → Prop}
    (hentry : s.itable i = { x with toDinode := d }) (hinum : x.inum = j0)
    (hE : ∀ e, ¬ LogRoom sb s 1 → E e (s.setInode i
      { s.itable i with size := max (s.itable i).size (off + tot) })) :
    wp (do
      modifyInode i fun ip => { ip with size := max ip.size (off + tot) }
      iupdate sb i
      return (tot : Int) : Kern (State μ) Int)
      (fun r s' => r = tot ∧ Updated sb i j0 { d with size := max d.size (off + tot) } s s' ∧
        s'.lh.length ≤ s.lh.length + 1) E s := by
  rw [wp_bind, modifyInode, wp_modify, wp_bind, iupdate, wp_bind, getInode, wp_bind, wp_get,
    wp_pure, wp_bind, bread, wp_bind, wp_get, wp_pure, State.setInode_self]
  refine logWrite_spec (fun lh' hlh hlen => ?_) fun e _ hr =>
    hE e fun hroom => hr ⟨hroom.call, hroom.header, hroom.disk⟩
  rw [wp_pure]
  refine ⟨rfl, ?_, hlen⟩
  rw [hentry] at hlh ⊢
  refine ⟨fun b => ?_, ?_⟩
  · rw [← hinum]
    exact hlh b
  · rw [hentry, ← hinum]
    rfl

/-- `writei` of a range that can be written is its loop and what follows it. -/
theorem InTable.wp_writei {src : Src} {Q : Int → State μ → Prop} {E : Halt → State μ → Prop}
    (h : InTable sb i j0 din s) (hoff : off ≤ (din j0).size) (hmax : off + n ≤ MAXFILE * BSIZE) :
    wp (writei sb M p i src off n) Q E s ↔ wp (do
      let tot ← writeiFrom sb M p i src n n 0 off
      modifyInode i fun ip => { ip with size := max ip.size (off + tot) }
      iupdate sb i
      return (tot : Int)) Q E s := by
  have hlt : MAXFILE * BSIZE < 2 ^ 32 := by decide
  have hmod : (off + n) % 2 ^ 32 = off + n := Nat.mod_eq_of_lt (hmax.trans_lt hlt)
  have hsize : (s.itable i).size = (din j0).size := congrArg Dinode.size h.inode
  rw [writei, wp_bind, getInode, wp_bind, wp_get, wp_pure, wp_ite, hmod, hsize,
    if_neg (by omega), wp_ite, if_neg (by omega)]

theorem writei_spec {src : Src} (h : InTable sb i j0 din s)
    (hsrc : Source M p src n s.mem bytes got) (hoff : off ≤ (din j0).size)
    (hmax : off + n ≤ MAXFILE * BSIZE) :
    wp (writei sb M p i src off n) (fun r s' => ∃ (t : Nat) (s1 s2 : State μ) (d : Dinode),
      r = t ∧ Wrote sb i j0 din off n bytes got 0 t s s1 d s2 ∧
        Updated sb i j0 { d with size := max (din j0).size (off + t) } s2 s')
      (fun _ _ => True) s := by
  rw [h.wp_writei hoff hmax]
  refine wp_bind.2 (wp_mono (writeiFrom_spec hsrc hmax n 0 h rfl (Nat.zero_le n) (Nat.le_refl n))
    (fun t s2 hw => ?_) fun _ _ _ => trivial)
  obtain ⟨s1, d, hw⟩ := hw
  have hentry : s2.itable i = { s.itable i with toDinode := d } := by
    rcases hw.last with rfl | ht
    · exact hw.grew.entry
    · rw [ht.itable]
      exact hw.grew.entry
  have hd : d.size = (din j0).size := by
    have := hw.grew.frame.head
    rw [Function.update_self] at this
    exact Dinode.size_of_head this
  refine wp_mono (writeiEnd_spec (E := fun _ _ => True) hentry h.inum fun _ _ => trivial)
    (fun r s' hr => ?_) fun _ _ _ => trivial
  obtain ⟨hr, hu, -⟩ := hr
  rw [hd] at hu
  exact ⟨t, s1, s2, d, hr, hw, hu⟩

/-! ## Within one block -/

theorem writeiFrom_end {src : Src} {k tot : Nat} (h : ¬ tot < n) :
    writeiFrom sb M p i src n k tot off = pure tot := by
  cases k with
  | zero => rw [writeiFrom]
  | succ k => rw [writeiFrom, if_neg h]

/-- What the loop of `writei` does for a range within one block: all of it is written, or nothing
because there is no block for it. -/
theorem writeiFrom_block {buf : Bytes} (h : InTable sb i j0 din s) (hn : 0 < n)
    (hb : off % BSIZE + n ≤ BSIZE) (hmax : off + n ≤ MAXFILE * BSIZE) :
    wp (writeiFrom sb M p i (.kernel buf) n n 0 off)
      (fun t s' => (∃ d, Wrote sb i j0 din off n buf (fun _ len => len) 0 t s s' d s') ∧
        (t = n ∨ t = 0) ∧ s'.lh.length ≤ s.lh.length + 6 ∧
        (t = 0 ↔ blockAt s.disk (din j0) (off / BSIZE) = 0 ∧
          NoBlock sb s.disk (din j0) (off / BSIZE)))
      (fun _ _ => ¬ LogRoom sb s 6) s := by
  have hbn : off / BSIZE < MAXFILE := (Nat.div_lt_iff_lt_mul (by decide)).2 (by omega)
  have hmin : min (n - 0) (BSIZE - off % BSIZE) = n := by omega
  obtain ⟨k, rfl⟩ : ∃ k, n = k + 1 := ⟨n - 1, by omega⟩
  rw [writeiFrom, if_pos hn, hmin]
  refine wp_bind.2 (bmap_spec (l := off) h hbn (fun a s1 d1 hg1 ha hold _ hlen hwhy => ?_)
    fun _ _ _ _ _ _ hr hroom => hr (LogRoom.after (s := s) (k := 1) hroom rfl (Nat.le_succ _)))
  have hiff : a = 0 ↔ blockAt s.disk (din j0) (off / BSIZE) = 0 ∧
      NoBlock sb s.disk (din j0) (off / BSIZE) := by
    by_cases h0 : blockAt s.disk (din j0) (off / BSIZE) = 0
    · exact (hwhy h0).trans ⟨fun hx => ⟨h0, hx⟩, And.right⟩
    · exact iff_of_false (hold h0).2 fun hx => h0 hx.1
  rw [wp_ite]
  split
  · next hz =>
    rw [wp_pure]
    exact ⟨⟨d1, Grew.wrote (Nat.zero_le _) hg1 (.inl rfl)⟩, .inr rfl, by omega,
      iff_of_true rfl (hiff.1 hz)⟩
  · next hz =>
    have h1 := h.grew hg1
    have hd1 : Function.update din j0 d1 j0 = d1 := Function.update_self ..
    have hat := ha hz
    rw [wp_bind, bread, wp_bind, wp_get, wp_pure]
    refine wp_bind.2 ((wp_of_ok
      ((source_kernel M p buf (k + 1) s1.mem).copy s1 _ _ _ _ rfl (by omega))).2 ?_)
    dsimp only
    rw [if_pos rfl, if_neg (by decide)]
    refine wp_bind.2 (logWrite_spec (fun lh2 hlh2 hlen2 => ?_) fun _ _ hr hroom => hr ?_)
    · rw [← hat, ← hd1] at hlh2 hz
      have hb0 : (off + 0) % BSIZE + (k + 1) ≤ BSIZE := hb
      obtain ⟨hg2, hbytes⟩ := h1.store buf hn hb0 hbn hz hlh2 rfl
      rw [Nat.add_zero, Nat.zero_add, hd1, hat] at hg2 hbytes
      rw [Nat.zero_add, writeiFrom_end (Nat.lt_irrefl _), wp_pure]
      refine ⟨⟨d1, Nat.zero_le _, le_rfl, hg1.trans hg2 (le_refl _) (by omega), hbytes, .inl rfl⟩,
        .inl rfl, ?_, iff_of_false (Nat.succ_ne_zero k) fun hx => hz ?_⟩
      · exact hlen2.trans (Nat.add_le_add_right hlen 1)
      · rw [hd1, hat]
        exact hiff.2 hx
    · exact LogRoom.after (s := s) (k := 5) hroom (by rw [hg1.state]) hlen

/-- **`writei` of a range within one block** of a buffer of the kernel. -/
theorem writei_block {buf : Bytes} (h : InTable sb i j0 din s) (hn : 0 < n)
    (hb : off % BSIZE + n ≤ BSIZE) (hoff : off ≤ (din j0).size)
    (hmax : off + n ≤ MAXFILE * BSIZE) :
    wp (writei sb M p i (.kernel buf) off n) (fun r s' => ∃ (t : Nat) (s1 : State μ) (d : Dinode),
      r = t ∧ Wrote sb i j0 din off n buf (fun _ len => len) 0 t s s1 d s1 ∧
        Updated sb i j0 { d with size := max (din j0).size (off + t) } s1 s' ∧ (t = n ∨ t = 0) ∧
        (t = 0 ↔ blockAt s.disk (din j0) (off / BSIZE) = 0 ∧
          NoBlock sb s.disk (din j0) (off / BSIZE)))
      (fun _ _ => ¬ LogRoom sb s 7) s := by
  rw [h.wp_writei hoff hmax]
  refine wp_bind.2 (wp_mono (writeiFrom_block h hn hb hmax) (fun t s1 hw => ?_) fun _ _ hr hroom =>
    hr (LogRoom.after (s := s) (k := 1) hroom rfl (Nat.le_succ _)))
  obtain ⟨⟨d, hw⟩, ht, hlen, hwhy⟩ := hw
  have hd : d.size = (din j0).size := by
    have := hw.grew.frame.head
    rw [Function.update_self] at this
    exact Dinode.size_of_head this
  refine wp_mono (writeiEnd_spec (E := fun _ _ => ¬ LogRoom sb s 7) hw.grew.entry h.inum
    fun _ hr hroom => hr ?_) (fun r s' hr => ?_) fun _ _ he => he
  · exact LogRoom.after (s := s) (k := 6) hroom (by rw [hw.grew.state]) hlen
  · obtain ⟨hr, hu, -⟩ := hr
    rw [hd] at hu
    exact ⟨t, s1, d, hr, hw, hu, ht, hwhy⟩

end

end Xv6.Fs
