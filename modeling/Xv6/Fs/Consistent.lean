import Xv6.Fs.Slots

/-!
# Consistent file systems

The blocks that the inodes use are marked in the bitmap, lie in the data area and are all different,
and there is a block wherever a file has bytes.  `Blocks` says so of a disk, with `din j` the inode
of number `j`: the copy in the table, if there is one, is more recent than the disk.

A `Frame` is what a change to one file leaves of all the others, and of that file outside a range
of bytes.
-/

set_option autoImplicit false

namespace Xv6.Fs

/-! ## The layout -/

/-- The first block for data, after the bitmap. -/
def datastart (sb : Superblock) : Nat := sb.bmapstart + sb.size / BPB + 1

/-- The inodes are before the bitmap, and a block number fits a `uint`. -/
structure Layout (sb : Superblock) : Prop where
  size : sb.size < 2 ^ 32
  inodes : ∀ j, j < sb.ninodes → iblock j sb < sb.bmapstart

/-- The bitmap has the block. -/
def Used (sb : Superblock) (disk : Nat → Block) (b : Nat) : Prop :=
  testBit (disk (bblock b sb)) (b % BPB) = true

/-- The inodes of files. -/
def Live (sb : Superblock) (din : Nat → Dinode) (j : Nat) : Prop :=
  j < sb.ninodes ∧ (din j).type ≠ 0

/-- The blocks of the files. -/
structure Blocks (sb : Superblock) (disk : Nat → Block) (din : Nat → Dinode) : Prop where
  reserved : ∀ b, b < datastart sb → b < sb.size → Used sb disk b
  range : ∀ j sl, Live sb din j → InFile sl → slot disk (din j) sl ≠ 0 →
    datastart sb ≤ slot disk (din j) sl ∧ slot disk (din j) sl < sb.size ∧
      Used sb disk (slot disk (din j) sl)
  distinct : ∀ j sl j' sl', Live sb din j → Live sb din j' → InFile sl → InFile sl' →
    slot disk (din j) sl ≠ 0 → slot disk (din j) sl = slot disk (din j') sl' → j = j' ∧ sl = sl'
  present : ∀ j, Live sb din j → Present disk (din j) (din j).size
  fits : ∀ j, Live sb din j → (din j).Fits

/-- A block that is marked and that no file has. -/
structure Spare (sb : Superblock) (disk : Nat → Block) (din : Nat → Dinode) (x : Nat) : Prop where
  low : datastart sb ≤ x
  high : x < sb.size
  used : Used sb disk x
  free : ∀ j sl, Live sb din j → InFile sl → slot disk (din j) sl ≠ x

/-- The fields of an inode beside its block numbers. -/
def Dinode.head (d : Dinode) : Dinode := { d with addrs := fun _ => 0 }

/-- Only bytes of file `j0` between `l` and `r` have changed. -/
structure Frame (sb : Superblock) (j0 l r : Nat) (disk : Nat → Block) (din : Nat → Dinode)
    (disk' : Nat → Block) (din' : Nat → Dinode) : Prop where
  other : ∀ j, j ≠ j0 → din' j = din j
  head : (din' j0).head = (din j0).head
  block : ∀ j bn, Live sb din j → bn < MAXFILE → blockAt disk (din j) bn ≠ 0 →
    blockAt disk' (din' j) bn = blockAt disk (din j) bn
  bytes : ∀ j off, Live sb din j → off / BSIZE < MAXFILE → blockAt disk (din j) (off / BSIZE) ≠ 0 →
    ¬ (j = j0 ∧ l ≤ off ∧ off < r) → byteAt disk' (din' j) off = byteAt disk (din j) off
  inodes : ∀ j, j < sb.ninodes → disk' (iblock j sb) = disk (iblock j sb)

section

variable {sb : Superblock} {disk disk' disk'' : Nat → Block} {din din' din'' : Nat → Dinode}
  {j0 x l m r : Nat}

theorem bblock_lt {b : Nat} (hb : b < sb.size) : bblock b sb < datastart sb := by
  have := Nat.div_le_div_right (c := BPB) hb.le
  rw [bblock, datastart]
  omega

theorem iblock_lt_datastart (hl : Layout sb) {j : Nat} (hj : j < sb.ninodes) :
    iblock j sb < datastart sb := by
  have hj := hl.inodes j hj
  have hle : sb.bmapstart ≤ sb.bmapstart + sb.size / BPB := Nat.le_add_right _ _
  exact hj.trans_le (hle.trans (Nat.le_succ _))

theorem iblock_ne_bblock (hl : Layout sb) {j b : Nat} (hj : j < sb.ninodes) :
    iblock j sb ≠ bblock b sb :=
  ((hl.inodes j hj).trans_le (Nat.le_add_left _ _)).ne

theorem Dinode.type_of_head {d d' : Dinode} (h : d'.head = d.head) : d'.type = d.type :=
  show d'.head.type = d.head.type by rw [h]

theorem Dinode.size_of_head {d d' : Dinode} (h : d'.head = d.head) : d'.size = d.size :=
  show d'.head.size = d.head.size by rw [h]

theorem Live.of_head {j : Nat} (h : Live sb din j) (hd : (din' j).head = (din j).head) :
    Live sb din' j :=
  ⟨h.1, by rw [Dinode.type_of_head hd]; exact h.2⟩

/-! ## Frames -/

theorem Frame.head_eq (h : Frame sb j0 l r disk din disk' din') (j : Nat) :
    (din' j).head = (din j).head := by
  by_cases hj : j = j0
  · rw [hj, h.head]
  · rw [h.other j hj]

theorem Frame.live (h : Frame sb j0 l r disk din disk' din') {j : Nat} (hj : Live sb din j) :
    Live sb din' j :=
  hj.of_head (h.head_eq j)

theorem Frame.refl (disk : Nat → Block) (din : Nat → Dinode) :
    Frame sb j0 l l disk din disk din :=
  ⟨fun _ _ => rfl, rfl, fun _ _ _ _ _ => rfl, fun _ _ _ _ _ _ => rfl, fun _ _ => rfl⟩

theorem Frame.block_ne (h : Frame sb j0 l r disk din disk' din') {j bn : Nat}
    (hj : Live sb din j) (hbn : bn < MAXFILE) (h0 : blockAt disk (din j) bn ≠ 0) :
    blockAt disk' (din' j) bn ≠ 0 :=
  (h.block j bn hj hbn h0).trans_ne h0

theorem Frame.trans (h : Frame sb j0 l m disk din disk' din')
    (h' : Frame sb j0 m r disk' din' disk'' din'') (h1 : l ≤ m) (h2 : m ≤ r) :
    Frame sb j0 l r disk din disk'' din'' where
  other j hj := (h'.other j hj).trans (h.other j hj)
  head := h'.head.trans h.head
  block j bn hj hbn h0 :=
    (h'.block j bn (h.live hj) hbn (h.block_ne hj hbn h0)).trans (h.block j bn hj hbn h0)
  bytes j off hj hbn h0 hne := by
    rw [h'.bytes j off (h.live hj) hbn (h.block_ne hj hbn h0) (by omega)]
    exact h.bytes j off hj hbn h0 (by omega)
  inodes j hj := (h'.inodes j hj).trans (h.inodes j hj)

/-- Blocks that stay where they are, with their bytes. -/
theorem Frame.of_blocks (hother : ∀ j, j ≠ j0 → din' j = din j)
    (hhead : (din' j0).head = (din j0).head)
    (hblock : ∀ j bn, Live sb din j → bn < MAXFILE → blockAt disk (din j) bn ≠ 0 →
      blockAt disk' (din' j) bn = blockAt disk (din j) bn)
    (hdata : ∀ j bn, Live sb din j → bn < MAXFILE → blockAt disk (din j) bn ≠ 0 →
      disk' (blockAt disk (din j) bn) = disk (blockAt disk (din j) bn))
    (hinodes : ∀ j, j < sb.ninodes → disk' (iblock j sb) = disk (iblock j sb)) :
    Frame sb j0 l l disk din disk' din' where
  other := hother
  head := hhead
  block := hblock
  bytes j off hj hbn h0 _ := by rw [byteAt, byteAt, hblock j _ hj hbn h0, hdata j _ hj hbn h0]
  inodes := hinodes

/-! ## Changes that keep a file system consistent -/

/-- Nothing changes for the slots. -/
theorem Blocks.same (h : Blocks sb disk din)
    (hused : ∀ b, b < sb.size → Used sb disk b → Used sb disk' b)
    (hslot : ∀ j sl, Live sb din j → InFile sl → slot disk' (din j) sl = slot disk (din j) sl) :
    Blocks sb disk' din where
  reserved b h1 h2 := hused b h2 (h.reserved b h1 h2)
  range j sl hj hin h0 := by
    rw [hslot j sl hj hin] at h0 ⊢
    obtain ⟨h1, h2, h3⟩ := h.range j sl hj hin h0
    exact ⟨h1, h2, hused _ h2 h3⟩
  distinct j sl j' sl' hj hj' hin hin' := by
    rw [hslot j sl hj hin, hslot j' sl' hj' hin']
    exact h.distinct j sl j' sl' hj hj' hin hin'
  present j hj bn hbn := by
    obtain ⟨h1, h2⟩ := h.present j hj bn hbn
    exact ⟨h1, (hslot j (some bn) hj h1).trans_ne h2⟩
  fits := h.fits

/-- Only the inodes that exist matter. -/
theorem Blocks.congr (h : Blocks sb disk din) (hd : ∀ j, j < sb.ninodes → din' j = din j) :
    Blocks sb disk din' := by
  have hlive : ∀ {j}, Live sb din' j → Live sb din j := fun hj => ⟨hj.1, hd _ hj.1 ▸ hj.2⟩
  exact {
    reserved := h.reserved
    range := fun j sl hj => by rw [hd j hj.1]; exact h.range j sl (hlive hj)
    distinct := fun j sl j' sl' hj hj' => by
      rw [hd j hj.1, hd j' hj'.1]
      exact h.distinct j sl j' sl' (hlive hj) (hlive hj')
    present := fun j hj => by rw [hd j hj.1]; exact h.present j (hlive hj)
    fits := fun j hj => by rw [hd j hj.1]; exact h.fits j (hlive hj) }

/-- A slot that was empty gets a spare block. -/
theorem Blocks.add (h : Blocks sb disk din) (hx : Spare sb disk din x) {sl0 : Option Nat}
    (hother : ∀ j, j ≠ j0 → din' j = din j) (hhead : (din' j0).head = (din j0).head)
    (hfits : (din' j0).Fits) (h0 : slot disk (din j0) sl0 = 0)
    (hused : ∀ b, b < sb.size → Used sb disk b → Used sb disk' b)
    (hnew : slot disk' (din' j0) sl0 = x)
    (hslot : ∀ j sl, Live sb din j → InFile sl → (j, sl) ≠ (j0, sl0) →
      slot disk' (din' j) sl = slot disk (din j) sl) : Blocks sb disk' din' := by
  have hheads : ∀ j, (din' j).head = (din j).head := by
    intro j
    by_cases hj : j = j0
    · rw [hj, hhead]
    · rw [hother j hj]
  have hlive : ∀ {j}, Live sb din' j → Live sb din j := fun hj => hj.of_head (hheads _).symm
  exact {
    reserved := fun b h1 h2 => hused b h2 (h.reserved b h1 h2)
    range := fun j sl hj hin hne => by
      by_cases heq : (j, sl) = (j0, sl0)
      · cases heq
        rw [hnew]
        exact ⟨hx.low, hx.high, hused x hx.high hx.used⟩
      · rw [hslot j sl (hlive hj) hin heq] at hne ⊢
        obtain ⟨h1, h2, h3⟩ := h.range j sl (hlive hj) hin hne
        exact ⟨h1, h2, hused _ h2 h3⟩
    distinct := fun j sl j' sl' hj hj' hin hin' hne heq => by
      by_cases h1 : (j, sl) = (j0, sl0) <;> by_cases h2 : (j', sl') = (j0, sl0)
      · cases h1
        cases h2
        exact ⟨rfl, rfl⟩
      · cases h1
        rw [hnew, hslot j' sl' (hlive hj') hin' h2] at heq
        exact absurd heq.symm (hx.free j' sl' (hlive hj') hin')
      · cases h2
        rw [hnew, hslot j sl (hlive hj) hin h1] at heq
        exact absurd heq (hx.free j sl (hlive hj) hin)
      · rw [hslot j sl (hlive hj) hin h1] at hne heq
        rw [hslot j' sl' (hlive hj') hin' h2] at heq
        exact h.distinct j sl j' sl' (hlive hj) (hlive hj') hin hin' hne heq
    present := fun j hj bn hbn => by
      rw [Dinode.size_of_head (hheads j)] at hbn
      obtain ⟨h1, h2⟩ := h.present j (hlive hj) bn hbn
      refine ⟨h1, ?_⟩
      have heq : (j, some bn) ≠ (j0, sl0) := by
        intro heq
        cases heq
        exact h2 h0
      exact (hslot j (some bn) (hlive hj) h1 heq).trans_ne h2
    fits := fun j hj => by
      by_cases heq : j = j0
      · rw [heq]
        exact hfits
      · rw [hother j heq]
        exact h.fits j (hlive hj) }

/-- A block of a file is for data, and so are its indirect blocks. -/
theorem Blocks.block_ne (h : Blocks sb disk din) {j b : Nat} (sl : Option Nat)
    (hj : Live sb din j) (hin : InFile sl) (h0 : slot disk (din j) sl ≠ 0) (hb : b < datastart sb) :
    slot disk (din j) sl ≠ b :=
  (hb.trans_le (h.range j sl hj hin h0).1).ne'

/-- The disk after `balloc` has taken a block. -/
def allocated (sb : Superblock) (disk : Nat → Block) (x : Nat) : Nat → Block :=
  Function.update (Function.update disk (bblock x sb) (setBit (disk (bblock x sb)) (x % BPB))) x
    fun _ => 0

/-- Blocks with their bits in one block of the bitmap, at the same place, are the same. -/
theorem mod_eq_iff_of_bblock_eq {b : Nat} (h : bblock b sb = bblock x sb) :
    b % BPB = x % BPB ↔ b = x := by
  refine ⟨fun hm => ?_, fun he => by rw [he]⟩
  rw [← Nat.div_add_mod b BPB, ← Nat.div_add_mod x BPB, hm]
  rw [Nat.add_right_cancel h]

theorem allocated_of_ne {b : Nat} (h1 : b ≠ x) (h2 : b ≠ bblock x sb) :
    allocated sb disk x b = disk b := by
  rw [allocated, Function.update_of_ne h1, Function.update_of_ne h2]

/-- `balloc` sets the bit of the block. -/
theorem used_allocated {b : Nat} (hlow : datastart sb ≤ x) (hb : b < sb.size) :
    Used sb (allocated sb disk x) b ↔ b = x ∨ Used sb disk b := by
  have hbx : bblock b sb ≠ x := ((bblock_lt hb).trans_le hlow).ne
  by_cases heq : bblock b sb = bblock x sb
  · rw [Used, allocated, Function.update_of_ne hbx, heq, Function.update_self, testBit_setBit,
      Bool.or_eq_true, decide_eq_true_iff, mod_eq_iff_of_bblock_eq heq, Used, heq]
  · rw [Used, allocated_of_ne hbx heq]
    exact ⟨.inr, fun h => h.resolve_left fun he => heq (by rw [he])⟩

/-- A free block is taken. -/
theorem Blocks.alloc (h : Blocks sb disk din) (hl : Layout sb) (hx : x < sb.size)
    (hfree : ¬ Used sb disk x) :
    Blocks sb (allocated sb disk x) din ∧ Spare sb (allocated sb disk x) din x ∧
      Frame sb j0 l l disk din (allocated sb disk x) din ∧
      ∀ j sl, Live sb din j → InFile sl →
        slot (allocated sb disk x) (din j) sl = slot disk (din j) sl := by
  have hlow : datastart sb ≤ x := by
    by_contra hlt
    exact hfree (h.reserved x (not_le.1 hlt) hx)
  have hne : ∀ j sl, Live sb din j → InFile sl → slot disk (din j) sl ≠ x := by
    intro j sl hj hin heq
    have h0 : slot disk (din j) sl ≠ 0 := by
      rw [heq]
      exact (Nat.zero_lt_of_lt (hlow.trans_lt' (bblock_lt hx))).ne'
    exact hfree (heq ▸ (h.range j sl hj hin h0).2.2)
  have hkeep : ∀ j sl, Live sb din j → InFile sl → slot disk (din j) sl ≠ 0 →
      allocated sb disk x (slot disk (din j) sl) = disk (slot disk (din j) sl) :=
    fun j sl hj hin h0 =>
      allocated_of_ne (hne j sl hj hin) (h.block_ne sl hj hin h0 (bblock_lt hx))
  have hslot : ∀ j sl, Live sb din j → InFile sl →
      slot (allocated sb disk x) (din j) sl = slot disk (din j) sl :=
    fun j sl hj _ => slot_congr fun h0 => hkeep j none hj trivial h0
  refine ⟨h.same (fun b hb hu => ?_) hslot, ⟨hlow, hx, ?_, fun j sl hj hin => ?_⟩, ?_, hslot⟩
  · exact (used_allocated hlow hb).2 (.inr hu)
  · exact (used_allocated hlow hx).2 (.inl rfl)
  · rw [hslot j sl hj hin]
    exact hne j sl hj hin
  · refine .of_blocks (fun _ _ => rfl) rfl (fun j bn hj hbn _ => hslot j (some bn) hj hbn)
      (fun j bn hj hbn h0 => hkeep j (some bn) hj hbn h0) fun j hj => allocated_of_ne ?_ ?_
    · exact ((iblock_lt_datastart hl hj).trans_le hlow).ne
    · exact iblock_ne_bblock hl hj

/-- The spare block becomes `addrs[k]`. -/
theorem Blocks.setAddr (h : Blocks sb disk din) (hl : Layout sb) (hx : Spare sb disk din x)
    (hzero : disk x = fun _ => 0) (hj0 : Live sb din j0) {k : Fin (NDIRECT + 1)}
    (h0 : (din j0).addrs k = 0) {d : Dinode}
    (hd : d = { din j0 with addrs := Function.update (din j0).addrs k x }) :
    Blocks sb disk (Function.update din j0 d) ∧
      Frame sb j0 l l disk din disk (Function.update din j0 d) := by
  have hhead : (Function.update din j0 d j0).head = (din j0).head := by
    rw [Function.update_self, hd]
    rfl
  have hother : ∀ j, j ≠ j0 → Function.update din j0 d j = din j :=
    fun j hj => Function.update_of_ne hj ..
  have hslot : ∀ j sl, (j, sl) ≠ (j0, slotOf k) →
      slot disk (Function.update din j0 d j) sl = slot disk (din j) sl := by
    intro j sl hne
    by_cases hj : j = j0
    · subst hj
      rw [Function.update_self, hd]
      exact slot_update h0 hzero fun heq => hne (by rw [heq])
    · rw [hother j hj]
  have hfits : (Function.update din j0 d j0).Fits := by
    have hf := h.fits j0 hj0
    rw [Function.update_self, hd]
    refine ⟨hf.type, hf.major, hf.minor, hf.nlink, hf.size, fun k' => ?_⟩
    show Function.update (din j0).addrs k x k' < 2 ^ 32
    by_cases hk : k' = k
    · rw [hk, Function.update_self]
      exact hx.high.trans hl.size
    · rw [Function.update_of_ne hk]
      exact hf.addrs k'
  have hempty : slot disk (din j0) (slotOf k) = 0 := (slot_slotOf disk (din j0) k).trans h0
  refine ⟨h.add hx hother hhead hfits hempty (fun _ _ hu => hu) ?_
    fun j sl _ _ hne => hslot j sl hne, ?_⟩
  · rw [Function.update_self, slot_slotOf, hd]
    exact Function.update_self ..
  · refine .of_blocks hother hhead (fun j bn hj hbn hne => hslot j (some bn) fun heq => hne ?_)
      (fun _ _ _ _ _ => rfl) fun _ _ => rfl
    obtain ⟨rfl, hsl⟩ := Prod.mk.inj heq
    exact (congrArg (slot disk (din j)) hsl).trans hempty

/-- The spare block becomes an entry of the indirect block. -/
theorem Blocks.setEntry (h : Blocks sb disk din) (hl : Layout sb) (hx : Spare sb disk din x)
    (hj0 : Live sb din j0) {bn : Nat} (hlo : NDIRECT ≤ bn)
    (hind : (din j0).addrs (Fin.last NDIRECT) ≠ 0) (h0 : blockAt disk (din j0) bn = 0)
    (hdisk : disk' = Function.update disk ((din j0).addrs (Fin.last NDIRECT))
      (setLE (disk ((din j0).addrs (Fin.last NDIRECT))) (4 * (bn - NDIRECT)) 4 x)) :
    Blocks sb disk' din ∧ Frame sb j0 l l disk din disk' din ∧ blockAt disk' (din j0) bn = x := by
  have hself : disk' ((din j0).addrs (Fin.last NDIRECT)) =
      setLE (disk ((din j0).addrs (Fin.last NDIRECT))) (4 * (bn - NDIRECT)) 4 x := by
    rw [hdisk, Function.update_self]
  have hsame : ∀ b, b ≠ (din j0).addrs (Fin.last NDIRECT) → disk' b = disk b := by
    intro b hb
    rw [hdisk, Function.update_of_ne hb]
  have hlow : ∀ b, b < datastart sb → disk' b = disk b := fun b hb =>
    hsame b fun heq => h.block_ne none hj0 trivial hind hb heq.symm
  have hnew : blockAt disk' (din j0) bn = x := by
    rw [blockAt, dif_neg (by omega), if_neg hind, hself, getLE_setLE_same]
    exact Nat.mod_eq_of_lt (hx.high.trans hl.size)
  have hslot : ∀ j sl, Live sb din j → InFile sl → (j, sl) ≠ (j0, some bn) →
      slot disk' (din j) sl = slot disk (din j) sl := by
    intro j sl hj hin hne
    cases sl with
    | none => rfl
    | some bn' =>
      by_cases hjj : j = j0
      · subst hjj
        have hbb : bn' ≠ bn := fun heq => hne (by rw [heq])
        show blockAt _ _ _ = blockAt _ _ _
        rw [blockAt, blockAt]
        by_cases hdir : bn' < NDIRECT
        · rw [dif_pos hdir, dif_pos hdir]
        · rw [dif_neg hdir, dif_neg hdir, if_neg hind, if_neg hind, hself,
            getLE_setLE_disjoint _ _ (by omega)]
      · refine slot_congr fun hne0 => hsame _ fun heq => hjj ?_
        exact (h.distinct j none j0 none hj hj0 trivial trivial hne0 heq).1
  have hempty : slot disk (din j0) (some bn) = 0 := h0
  refine ⟨h.add hx (fun _ _ => rfl) rfl (h.fits j0 hj0) hempty (fun b hb hu => ?_) hnew hslot, ?_,
    hnew⟩
  · rw [Used, hlow _ (bblock_lt hb)]
    exact hu
  · refine .of_blocks (fun _ _ => rfl) rfl (fun j bn' hj hbn' hne => ?_)
      (fun j bn' hj hbn' hne => hsame _ fun heq => ?_)
      fun j hj => hlow _ (iblock_lt_datastart hl hj)
    · refine hslot j (some bn') hj hbn' fun heq => ?_
      cases heq
      exact hne h0
    · have := (h.distinct j (some bn') j0 none hj hj0 hbn' trivial hne heq).2
      cases this

/-- Bytes of a block of the file are changed. -/
theorem Blocks.write (h : Blocks sb disk din) (hl : Layout sb) (hj0 : Live sb din j0) {bn : Nat}
    (hbn : bn < MAXFILE) (h0 : blockAt disk (din j0) bn ≠ 0) {data : Block}
    (hdata : ∀ o, ¬ (l ≤ bn * BSIZE + o ∧ bn * BSIZE + o < r) →
      data o = disk (blockAt disk (din j0) bn) o)
    (hdisk : disk' = Function.update disk (blockAt disk (din j0) bn) data) :
    Blocks sb disk' din ∧ Frame sb j0 l r disk din disk' din ∧
      ∀ off, off / BSIZE = bn → byteAt disk' (din j0) off = data (off % BSIZE) := by
  have hself : disk' (blockAt disk (din j0) bn) = data := by rw [hdisk, Function.update_self]
  have hsame : ∀ b, b ≠ blockAt disk (din j0) bn → disk' b = disk b := by
    intro b hb
    rw [hdisk, Function.update_of_ne hb]
  have hlow : ∀ b, b < datastart sb → disk' b = disk b := fun b hb =>
    hsame b fun heq => h.block_ne (some bn) hj0 hbn h0 hb heq.symm
  have hslot : ∀ j sl, Live sb din j → InFile sl → slot disk' (din j) sl = slot disk (din j) sl := by
    refine fun j sl hj _ => slot_congr fun hne => hsame _ fun heq => ?_
    have := (h.distinct j none j0 (some bn) hj hj0 trivial hbn hne heq).2
    cases this
  have hblock : ∀ {j bn'}, Live sb din j → bn' < MAXFILE →
      blockAt disk' (din j) bn' = blockAt disk (din j) bn' :=
    fun {j bn'} hj hin => hslot j (some bn') hj hin
  refine ⟨h.same (fun b hb hu => ?_) hslot, ⟨fun _ _ => rfl, rfl, fun j bn' hj hin _ => hblock hj hin,
    fun j off hj hin hne hout => ?_, fun j hj => hlow _ (iblock_lt_datastart hl hj)⟩,
    fun off hoff => ?_⟩
  · rw [Used, hlow _ (bblock_lt hb)]
    exact hu
  · rw [byteAt, byteAt, hblock hj hin]
    by_cases heq : blockAt disk (din j) (off / BSIZE) = blockAt disk (din j0) bn
    · obtain ⟨hj', hb'⟩ := h.distinct j (some (off / BSIZE)) j0 (some bn) hj hj0 hin hbn hne heq
      subst hj'
      cases hb'
      rw [hself]
      refine hdata _ fun hr => hout ⟨rfl, ?_⟩
      rwa [Nat.div_add_mod'] at hr
    · rw [hsame _ heq]
  · rw [byteAt, hoff, hblock hj0 hbn, hself]

/-- The file is given another size. -/
theorem Blocks.resize (h : Blocks sb disk din) {n : Nat} (hj0 : Live sb din j0) (hn : n < 2 ^ 32)
    (hp : Present disk (din j0) n) {d : Dinode} (hd : d = { din j0 with size := n }) :
    Blocks sb disk (Function.update din j0 d) := by
  have hslot : ∀ j sl, slot disk (Function.update din j0 d j) sl = slot disk (din j) sl := by
    intro j sl
    by_cases hj : j = j0
    · subst hj
      rw [Function.update_self, hd]
      cases sl with
      | none => rfl
      | some bn => rfl
    · rw [Function.update_of_ne hj]
  have hlive : ∀ {j}, Live sb (Function.update din j0 d) j → Live sb din j := by
    intro j hj
    by_cases heq : j = j0
    · exact heq ▸ hj0
    · exact ⟨hj.1, by have := hj.2; rwa [Function.update_of_ne heq] at this⟩
  exact {
    reserved := h.reserved
    range := fun j sl hj hin => by rw [hslot]; exact h.range j sl (hlive hj) hin
    distinct := fun j sl j' sl' hj hj' hin hin' => by
      rw [hslot, hslot]
      exact h.distinct j sl j' sl' (hlive hj) (hlive hj') hin hin'
    present := fun j hj => by
      by_cases heq : j = j0
      · subst heq
        rw [Function.update_self, hd]
        exact hp
      · rw [Function.update_of_ne heq]
        exact h.present j (hlive hj)
    fits := fun j hj => by
      by_cases heq : j = j0
      · subst heq
        have hf := h.fits j hj0
        rw [Function.update_self, hd]
        exact ⟨hf.type, hf.major, hf.minor, hf.nlink, hn, hf.addrs⟩
      · rw [Function.update_of_ne heq]
        exact h.fits j (hlive hj) }

/-- A block of inodes is written. -/
theorem Blocks.iupdate (h : Blocks sb disk din) (hl : Layout sb) (hj0 : j0 < sb.ninodes)
    {data : Block} (hdisk : disk' = Function.update disk (iblock j0 sb) data) :
    Blocks sb disk' din ∧ ∀ j off, Live sb din j → off / BSIZE < MAXFILE →
      blockAt disk (din j) (off / BSIZE) ≠ 0 →
        blockAt disk' (din j) (off / BSIZE) = blockAt disk (din j) (off / BSIZE) ∧
          byteAt disk' (din j) off = byteAt disk (din j) off := by
  have hsame : ∀ b, b ≠ iblock j0 sb → disk' b = disk b := by
    intro b hb
    rw [hdisk, Function.update_of_ne hb]
  have hkeep : ∀ j sl, Live sb din j → InFile sl → slot disk (din j) sl ≠ 0 →
      disk' (slot disk (din j) sl) = disk (slot disk (din j) sl) :=
    fun j sl hj hin h0 => hsame _ (h.block_ne sl hj hin h0 (iblock_lt_datastart hl hj0))
  have hslot : ∀ j sl, Live sb din j → InFile sl → slot disk' (din j) sl = slot disk (din j) sl :=
    fun j sl hj _ => slot_congr fun h0 => hkeep j none hj trivial h0
  refine ⟨h.same (fun b _ hu => ?_) hslot, fun j off hj hin h0 => ?_⟩
  · rw [Used, hsame _ (iblock_ne_bblock hl hj0).symm]
    exact hu
  · have hb : blockAt disk' (din j) (off / BSIZE) = blockAt disk (din j) (off / BSIZE) :=
      hslot j (some (off / BSIZE)) hj hin
    refine ⟨hb, ?_⟩
    rw [byteAt, byteAt, hb]
    exact congrFun (hkeep j (some (off / BSIZE)) hj hin h0) _

end

/-! ## The file system -/

section

variable {μ : Type} {s : State μ}

/-- The entry of the table that holds inode `j`. -/
def State.entry (s : State μ) (j : Nat) : Option (Fin NINODE) :=
  (List.finRange NINODE).find? fun i =>
    0 < (s.itable i).ref ∧ (s.itable i).valid ∧ (s.itable i).inum = j

/-- Inode `j`: the copy in the table, or the one on the disk. -/
def State.dinode (sb : Superblock) (s : State μ) (j : Nat) : Dinode :=
  match s.entry j with
  | some i => (s.itable i).toDinode
  | none => getDinode (s.disk (iblock j sb)) (j % IPB)

/-- **A consistent file system.**  An inode has one entry in the table at most, and the blocks of
the inodes, in the table and on the disk, are as they should be. -/
structure Consistent (sb : Superblock) (s : State μ) : Prop where
  layout : Layout sb
  unique : ∀ i i', 0 < (s.itable i).ref → 0 < (s.itable i').ref →
    (s.itable i).inum = (s.itable i').inum → i = i'
  inum : ∀ i, 0 < (s.itable i).ref → (s.itable i).inum < sb.ninodes
  live : ∀ i, 0 < (s.itable i).ref → (s.itable i).valid → (s.itable i).type ≠ 0
  blocks : Blocks sb s.disk (s.dinode sb)

theorem State.entry_some {i : Fin NINODE} {j : Nat} (h : s.entry j = some i) :
    0 < (s.itable i).ref ∧ (s.itable i).valid ∧ (s.itable i).inum = j := by
  have hf := List.find?_some h
  exact of_decide_eq_true hf

variable {sb : Superblock} {i : Fin NINODE}

/-- An inode that has been read is found in its entry. -/
theorem Consistent.entry (h : Consistent sb s) (href : 0 < (s.itable i).ref)
    (hv : (s.itable i).valid) : s.entry (s.itable i).inum = some i := by
  cases hf : s.entry (s.itable i).inum with
  | none =>
    have := List.find?_eq_none.1 hf i (List.mem_finRange i)
    exact absurd (decide_eq_true ⟨href, hv, rfl⟩) this
  | some i' =>
    obtain ⟨hr, -, hj⟩ := State.entry_some hf
    rw [h.unique i' i hr href hj]

theorem Consistent.dinode (h : Consistent sb s) (href : 0 < (s.itable i).ref)
    (hv : (s.itable i).valid) : s.dinode sb (s.itable i).inum = (s.itable i).toDinode := by
  rw [State.dinode, h.entry href hv]

end

end Xv6.Fs
