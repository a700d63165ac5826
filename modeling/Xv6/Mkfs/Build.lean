import Xv6.Mkfs.Image

/-!
# The run of `mkfs`

Between two calls of `iappend` and `ialloc` the image is at `Rest`: every inode is on the disk, and
the files hold what has been appended to them.  The specification of each step goes from one such
state to the next, and that of `main` says what the image holds in the end.  A run can fail only if
the files do not fit.
-/

set_option autoImplicit false

namespace Xv6.Mkfs

open Fs

/-! ## Inodes on the disk -/

/-- An inode of the image. -/
def dinodeAt (img : Nat → Block) (j : Nat) : Dinode := getDinode (img (iblock j sb)) (j % IPB)

theorem iblock_lt {j : Nat} (hj : j < NINODES) :
    sb.inodestart ≤ iblock j sb ∧ iblock j sb < sb.bmapstart := by
  have h1 : NINODES = 200 := rfl
  have h2 : IPB = 16 := rfl
  have h3 : sb.inodestart = 32 := rfl
  have h4 : sb.bmapstart = 45 := rfl
  rw [iblock, h2, h3, h4]
  omega

theorem bmapstart_lt : sb.bmapstart < nmeta := by decide

/-- The image after `winode`. -/
def State.winode (s : State) (i : Nat) (d : Dinode) : State :=
  s.wrote (iblock i sb) (putDinode (s.img (iblock i sb)) (i % IPB) d)

section

variable {s : State} {i j : Nat} {d : Dinode} {E : Halt → State → Prop}

theorem State.winode_img_of_ne {b : Nat} (h : b ≠ iblock i sb) :
    (s.winode i d).img b = s.img b :=
  Function.update_of_ne h ..

theorem State.winode_img :
    (s.winode i d).img (iblock i sb) = putDinode (s.img (iblock i sb)) (i % IPB) d :=
  Function.update_self ..

theorem State.winode_len (hi : iblock i sb < s.len) : (s.winode i d).len = s.len := by
  show max s.len (iblock i sb + 1) = s.len
  omega

theorem dinodeAt_winode (hd : d.Fits) : dinodeAt (s.winode i d).img i = d := by
  rw [dinodeAt, State.winode_img]
  exact getDinode_putDinode _ _ hd

theorem dinodeAt_winode_of_ne (h : j ≠ i) :
    dinodeAt (s.winode i d).img j = dinodeAt s.img j := by
  have h2 : IPB = 16 := rfl
  rw [dinodeAt, dinodeAt]
  by_cases hb : iblock j sb = iblock i sb
  · rw [hb, State.winode_img]
    refine getDinode_putDinode_of_ne _ d ?_
    rw [iblock, iblock, h2] at hb
    rw [h2]
    omega
  · rw [State.winode_img_of_ne hb]

theorem wp_winode {Q : Unit → State → Prop} (hi : iblock i sb < s.len) :
    wp (Mkfs.winode i d) Q E s ↔ Q () (s.winode i d) := by
  rw [Mkfs.winode, wp_bind, wp_rsect, if_pos hi, wp_wsect]
  rfl

theorem wp_rinode {Q : Dinode → State → Prop} (hi : iblock i sb < s.len) :
    wp (rinode i) Q E s ↔ Q (dinodeAt s.img i) s := by
  rw [rinode, wp_bind, wp_rsect, if_pos hi, wp_pure]
  rfl

end

/-! ## At rest -/

/-- The type of an inode. -/
def typeOf (j : Nat) : Nat := if j = ROOTINO then T_DIR else T_FILE

/-- The fields of inode `j` with `n` bytes, beside its block numbers. -/
def headOf (j n : Nat) : Dinode := { Dinode.zero with type := typeOf j, nlink := 1, size := n }

/-- The boot block, the superblock and the log. -/
def bootBlocks (b : Nat) : Block := if b = 1 then superblockBytes else fun _ => 0

structure Rest (s : State) (din : Nat → Dinode) (bytes : Nat → List UInt8) : Prop where
  holds : ∃ U, Holds s din bytes U
  stored : ∀ j, 0 < j → j < s.freeinode → dinodeAt s.img j = din j
  shape : ∀ j, 0 < j → j < s.freeinode → head (din j) = headOf j (bytes j).length
  empty : ∀ j, j = 0 ∨ s.freeinode ≤ j → bytes j = []
  inodes : s.freeinode ≤ NINODES
  boot : ∀ b, b < sb.inodestart → s.img b = bootBlocks b

section

variable {s s' : State} {din din' : Nat → Dinode} {bytes : Nat → List UInt8} {U : Finset Slot}
  {i : Nat} {E : Halt → State → Prop}

theorem blockAt_of_addrs {img img' : Nat → Block} {d d' : Dinode} (ha : d'.addrs = d.addrs)
    (himg : d.addrs (Fin.last NDIRECT) ≠ 0 →
      img' (d.addrs (Fin.last NDIRECT)) = img (d.addrs (Fin.last NDIRECT))) (bn : Nat) :
    blockAt img' d' bn = blockAt img d bn := by
  rw [blockAt, blockAt, ha]
  split
  · rfl
  · split
    · rfl
    · next h => rw [himg h]

/-- Only the blocks from `nmeta` on and the block numbers of the inodes matter. -/
theorem Holds.congr (h : Holds s din bytes U) (ha : ∀ j, (din' j).addrs = (din j).addrs)
    (himg : ∀ b, nmeta ≤ b → s'.img b = s.img b) (hlen : s'.len = s.len)
    (hfb : s'.freeblock = s.freeblock) : Holds s' din' bytes U := by
  obtain ⟨own, hm⟩ := h.mapped
  have hind : ∀ j, (din j).addrs (Fin.last NDIRECT) ≠ 0 →
      s'.img ((din j).addrs (Fin.last NDIRECT)) = s.img ((din j).addrs (Fin.last NDIRECT)) := by
    intro j hne
    exact himg _ (hm.low j none ((hm.mem_iff (show InFile none from trivial)).2 hne))
  have hblk : ∀ j bn, blockAt s'.img (din' j) bn = blockAt s.img (din j) bn := fun j bn =>
    blockAt_of_addrs (ha j) (hind j) bn
  refine ⟨⟨own, ?_⟩, h.slots, fun j off b hb => ?_, hlen.trans h.len, hfb ▸ h.room⟩
  · rw [hfb]
    refine hm.same (fun j sl _ => ?_) fun b hb => himg b (Nat.le_trans hm.le hb)
    cases sl with
    | none => exact congrFun (ha j) _
    | some bn => exact hblk j bn
  · have hlow : nmeta ≤ blockAt s.img (din j) (off / BSIZE) :=
      hm.low j _ (h.mem_of_getElem? hb)
    rw [byteAt, hblk, himg _ hlow]
    exact h.data j off b hb

theorem Holds.length_le (h : Holds s din bytes U) (j : Nat) :
    (bytes j).length ≤ MAXFILE * BSIZE := by
  by_contra hlt
  have hu : (j, some MAXFILE) ∈ U := by
    rw [h.slots]
    exact lt_blocks.2 (by omega)
  exact Nat.lt_irrefl _ (h.uses_inFile hu)

theorem Holds.addrs_lt (h : Holds s din bytes U) (j : Nat) (k : Fin (NDIRECT + 1)) :
    (din j).addrs k < 2 ^ 32 := by
  have hF : FSSIZE = 2000 := rfl
  obtain ⟨own, hm⟩ := h.mapped
  rw [← slot_slotOf s.img (din j) k]
  by_cases hu : (j, slotOf k) ∈ U
  · have := hm.high j _ hu
    have := h.room
    omega
  · rw [hm.free j _ (slotOf_inFile k) hu]
    omega

/-- An inode at rest is stored in full. -/
theorem Holds.fits (h : Holds s din bytes U) {j n : Nat} {d : Dinode}
    (ha : d.addrs = (din j).addrs) (hh : head d = headOf j n) (hn : n < 2 ^ 32) : d.Fits := by
  have hf : (headOf j n).Fits := by
    have h0 : 0 < 2 ^ 16 := by decide
    have h1 : 1 < 2 ^ 16 := by decide
    refine ⟨?_, h0, h0, h1, hn, fun _ => Nat.two_pow_pos 32⟩
    show typeOf j < 2 ^ 16
    rw [typeOf]
    split <;> decide
  rw [← hh] at hf
  exact ⟨hf.type, hf.major, hf.minor, hf.nlink, hf.size, fun k => by
    rw [ha]
    exact h.addrs_lt j k⟩

theorem Rest.iblock_lt_len (h : Rest s din bytes) {j : Nat} (hj : j < s.freeinode) :
    iblock j sb < s.len := by
  obtain ⟨U, hU⟩ := h.holds
  have h1 := (iblock_lt (Nat.lt_of_lt_of_le hj h.inodes)).2
  have h2 : sb.bmapstart < FSSIZE := by decide
  rw [hU.len]
  omega

/-- The inode of a file is written back after its bytes have been appended. -/
theorem Rest.appended (h : Rest s din bytes) (h0 : 0 < i) (hi : i < s.freeinode) {p : List UInt8}
    {d' : Dinode} (ha : Appended i s din bytes p s' d') :
    ∃ din', Rest (s'.winode i { d' with size := (bytes i).length + p.length }) din'
      (appendTo bytes i p) := by
  obtain ⟨U, hU⟩ := ha.holds
  have hi' : i < s'.freeinode := by rw [ha.freeinode]; exact hi
  have hin : i < NINODES := Nat.lt_of_lt_of_le hi h.inodes
  obtain ⟨hb1, hb2⟩ := iblock_lt hin
  have hbm := bmapstart_lt
  have hlen : iblock i sb < s'.len := by
    rw [hU.len]
    have h2 : sb.bmapstart < FSSIZE := by decide
    omega
  set d := { d' with size := (bytes i).length + p.length } with hd
  have happ : (appendTo bytes i p i).length = (bytes i).length + p.length := by
    rw [appendTo_self, List.length_append]
  have hhead : head d = headOf i (appendTo bytes i p i).length := by
    have h1 : head d' = headOf i (bytes i).length := ha.head.trans (h.shape i h0 hi)
    have h2 : head d = { head d' with size := (bytes i).length + p.length } := rfl
    rw [h2, h1, happ]
    rfl
  have hfits : d.Fits := by
    refine hU.fits (j := i) ?_ hhead ?_
    · rw [Function.update_self]
    · have h1 := hU.length_le i
      have h2 : MAXFILE * BSIZE < 2 ^ 32 := by decide
      omega
  refine ⟨Function.update din i d, ⟨U, ?_⟩, ?_, ?_, ?_, ?_, ?_⟩
  · refine hU.congr (fun j => ?_) (fun b hb => ?_) (State.winode_len hlen) rfl
    · by_cases hj : j = i
      · rw [hj, Function.update_self, Function.update_self]
      · rw [Function.update_of_ne hj, Function.update_of_ne hj]
    · exact State.winode_img_of_ne (by omega)
  · intro j hj0 hj
    by_cases hji : j = i
    · subst hji
      rw [dinodeAt_winode hfits, Function.update_self]
    · have hj' : j < s.freeinode := by rw [← ha.freeinode]; exact hj
      have hjb := iblock_lt (Nat.lt_of_lt_of_le hj' h.inodes)
      rw [dinodeAt_winode_of_ne hji, Function.update_of_ne hji, ← h.stored j hj0 hj', dinodeAt,
        dinodeAt, ha.low _ (by omega)]
  · intro j hj0 hj
    by_cases hji : j = i
    · subst hji
      rw [Function.update_self]
      exact hhead
    · have hj' : j < s.freeinode := by rw [← ha.freeinode]; exact hj
      rw [Function.update_of_ne hji, appendTo_of_ne _ _ hji]
      exact h.shape j hj0 hj'
  · intro j hj
    have hj' : j = 0 ∨ s.freeinode ≤ j := by rw [← ha.freeinode]; exact hj
    rw [appendTo_of_ne _ _ (by omega)]
    exact h.empty j hj'
  · show s'.freeinode ≤ NINODES
    rw [ha.freeinode]
    exact h.inodes
  · intro b hb
    rw [State.winode_img_of_ne (by omega), ha.low b (by omega)]
    exact h.boot b hb

/-- **`iappend` appends.** -/
theorem iappend_spec {fin : Nat → Nat} (hE : Full fin → ∀ e t, E e t) (h : Rest s din bytes)
    (h0 : 0 < i) (hi : i < s.freeinode) {p : List UInt8} (hfin : Final fin (appendTo bytes i p)) :
    wp (iappend i p) (fun _ s' => s'.freeinode = s.freeinode ∧
      ∃ din', Rest s' din' (appendTo bytes i p)) E s := by
  obtain ⟨U, hU⟩ := h.holds
  have hsize : (din i).size = (bytes i).length := congrArg Dinode.size (h.shape i h0 hi)
  rw [iappend, wp_bind, wp_rinode (h.iblock_lt_len hi), h.stored i h0 hi, hsize]
  refine wp_seq (iappendFrom_spec hE p.length (Nat.le_refl _) hU rfl hfin) ?_
  rintro ⟨d', off⟩ s' ⟨ha, hoff⟩
  replace hoff : off = (bytes i).length + p.length := hoff
  replace ha : Appended i s din bytes p s' d' := ha
  obtain ⟨U', hU'⟩ := ha.holds
  have hlen : iblock i sb < s'.len := by
    rw [hU'.len, ← hU.len]
    exact h.iblock_lt_len hi
  show wp (Mkfs.winode i { d' with size := off }) _ E s'
  rw [wp_winode hlen, hoff]
  exact ⟨ha.freeinode, h.appended h0 hi ha⟩

/-- `ialloc` gives the next inode. -/
theorem ialloc_spec (h : Rest s din bytes) (hlt : s.freeinode < NINODES) (h0 : 0 < s.freeinode) :
    wp (ialloc (typeOf s.freeinode)) (fun r s' => r = s.freeinode ∧
      s'.freeinode = s.freeinode + 1 ∧ ∃ din', Rest s' din' bytes) E s := by
  obtain ⟨U, hU⟩ := h.holds
  obtain ⟨own, hm⟩ := hU.mapped
  obtain ⟨hb1, hb2⟩ := iblock_lt hlt
  have hbm := bmapstart_lt
  have hF : sb.bmapstart < FSSIZE := by decide
  set i := s.freeinode with hi
  have hlen : iblock i sb < s.len := by rw [hU.len]; omega
  rw [ialloc, wp_bind, wp_get, wp_bind, wp_set, wp_bind]
  refine (wp_winode (s := { s with freeinode := i + 1 }) hlen).2 ((wp_pure _).2 ⟨rfl, rfl, ?_⟩)
  have hbytes : bytes i = [] := h.empty i (.inr (Nat.le_refl i))
  -- the inode had no blocks before, and has none now
  have haddrs : ∀ k, (din i).addrs k = 0 := by
    intro k
    rw [← slot_slotOf s.img (din i) k]
    refine hm.free i _ (slotOf_inFile k) fun hu => ?_
    have := (hU.slots i _).1 hu
    rw [hbytes] at this
    exact not_uses_zero _ this
  refine ⟨Function.update din i (headOf i 0), ⟨U, ?_⟩, ?_, ?_, ?_, ?_, ?_⟩
  · refine hU.congr (fun j => ?_) (fun b hb => ?_) (State.winode_len hlen) rfl
    · by_cases hj : j = i
      · rw [hj, Function.update_self]
        funext k
        exact (haddrs k).symm
      · rw [Function.update_of_ne hj]
    · exact State.winode_img_of_ne (by omega)
  · intro j hj0 hj
    by_cases hji : j = i
    · rw [hji, Function.update_self]
      refine dinodeAt_winode (hU.fits (j := i) (n := 0) ?_ rfl (by decide))
      funext k
      exact (haddrs k).symm
    · have hj' : j < i := Nat.lt_of_le_of_ne (Nat.le_of_lt_succ hj) hji
      rw [dinodeAt_winode_of_ne hji, Function.update_of_ne hji]
      exact h.stored j hj0 hj'
  · intro j hj0 hj
    by_cases hji : j = i
    · rw [hji, Function.update_self, hbytes]
      rfl
    · have hj' : j < i := Nat.lt_of_le_of_ne (Nat.le_of_lt_succ hj) hji
      rw [Function.update_of_ne hji]
      exact h.shape j hj0 hj'
  · intro j hj
    have hj : j = 0 ∨ i + 1 ≤ j := hj
    exact h.empty j (by omega)
  · exact hlt
  · intro b hb
    rw [State.winode_img_of_ne (by omega)]
    exact h.boot b hb

/-! ## The files of the command line -/

theorem length_le_appendTo (bytes : Nat → List UInt8) (i : Nat) (p : List UInt8) (j : Nat) :
    (bytes j).length ≤ (appendTo bytes i p j).length := by
  by_cases hj : j = i
  · rw [hj, appendTo_self, List.length_append]
    exact Nat.le_add_right _ _
  · rw [appendTo_of_ne _ _ hj]

theorem Final.mono {fin : Nat → Nat} {bytes' : Nat → List UInt8} (h : Final fin bytes')
    (hle : ∀ j, (bytes j).length ≤ (bytes' j).length) : Final fin bytes :=
  ⟨fun j => (hle j).trans (h.le j), h.zero⟩

theorem copyIn_spec {fin : Nat → Nat} (hE : Full fin → ∀ e t, E e t) (h0 : 0 < i) :
    ∀ {cs : List (List UInt8)} {s : State} {din : Nat → Dinode} {bytes : Nat → List UInt8},
      Rest s din bytes → i < s.freeinode → Final fin (appendTo bytes i cs.flatten) →
      wp (copyIn i cs) (fun _ s' => s'.freeinode = s.freeinode ∧
        ∃ din', Rest s' din' (appendTo bytes i cs.flatten)) E s
  | [], s, din, bytes, h, _, _ => by
    refine (wp_pure _).2 ⟨rfl, din, ?_⟩
    rwa [List.flatten_nil, appendTo_nil]
  | c :: cs, s, din, bytes, h, hi, hfin => by
    have hsplit : appendTo (appendTo bytes i c) i cs.flatten =
        appendTo bytes i (c :: cs).flatten := by
      rw [appendTo_appendTo, List.flatten_cons]
    rw [← hsplit] at hfin ⊢
    rw [copyIn]
    refine wp_seq (iappend_spec hE h h0 hi (hfin.mono (length_le_appendTo _ _ _))) ?_
    rintro _ s' ⟨hfi, din', hr⟩
    rw [← hfi] at hi ⊢
    exact copyIn_spec hE h0 hr hi hfin

/-- The files with another one, which gets inode `k` and an entry in the root directory. -/
def addBytes (k : Nat) (f : Input) (bytes : Nat → List UInt8) : Nat → List UInt8 :=
  appendTo (appendTo bytes ROOTINO (direntBytes k f.shortname)) k f.bytes

/-- The files with more of them, from inode `k` on. -/
def addAll : Nat → List Input → (Nat → List UInt8) → Nat → List UInt8
  | _, [], bytes => bytes
  | k, f :: fs, bytes => addAll (k + 1) fs (addBytes k f bytes)

theorem length_le_addAll : ∀ (k : Nat) (fs : List Input) (bytes : Nat → List UInt8) (j : Nat),
    (bytes j).length ≤ (addAll k fs bytes j).length
  | _, [], _, _ => Nat.le_refl _
  | k, f :: fs, bytes, j =>
    ((length_le_appendTo _ _ _ j).trans (length_le_appendTo _ _ _ j)).trans
      (length_le_addAll (k + 1) fs _ j)

theorem addFile_spec {fin : Nat → Nat} (hE : Full fin → ∀ e t, E e t) {f : Input}
    (hslash : SLASH ∈ f.base → ∀ e t, E e t) (h : Rest s din bytes) (h1 : ROOTINO < s.freeinode)
    (hlt : s.freeinode < NINODES) (hfin : Final fin (addBytes s.freeinode f bytes)) :
    wp (addFile ROOTINO f) (fun _ s' => s'.freeinode = s.freeinode + 1 ∧
      ∃ din', Rest s' din' (addBytes s.freeinode f bytes)) E s := by
  rw [addFile]
  split
  · next hs =>
    rw [wp_panic]
    exact hslash hs _ _
  · have htype : typeOf s.freeinode = T_FILE := if_neg (Nat.ne_of_gt h1)
    rw [← htype]
    refine wp_seq (ialloc_spec h hlt (Nat.lt_trans (by decide) h1)) ?_
    rintro i s1 ⟨rfl, hf1, din1, hr1⟩
    have hfin1 := hfin.mono (length_le_appendTo (appendTo bytes ROOTINO
      (direntBytes s.freeinode f.shortname)) s.freeinode f.bytes)
    refine wp_seq (iappend_spec hE hr1 (by decide) (by omega) hfin1) ?_
    rintro _ s2 ⟨hf2, din2, hr2⟩
    refine wp_mono (copyIn_spec hE (Nat.lt_trans (by decide) h1) hr2 (by omega) hfin) ?_
      fun _ _ he => he
    rintro _ s3 ⟨hf3, hr3⟩
    exact ⟨by omega, hr3⟩

theorem addFiles_spec {fin : Nat → Nat} (hE : Full fin → ∀ e t, E e t) :
    ∀ {fs : List Input} {s : State} {din : Nat → Dinode} {bytes : Nat → List UInt8},
      (∀ f ∈ fs, SLASH ∈ f.base → ∀ e t, E e t) → Rest s din bytes → ROOTINO < s.freeinode →
      s.freeinode + fs.length ≤ NINODES → Final fin (addAll s.freeinode fs bytes) →
      wp (addFiles ROOTINO fs) (fun _ s' => s'.freeinode = s.freeinode + fs.length ∧
        ∃ din', Rest s' din' (addAll s.freeinode fs bytes)) E s
  | [], s, din, bytes, _, h, _, _, _ => (wp_pure _).2 ⟨rfl, din, h⟩
  | f :: fs, s, din, bytes, hslash, h, h1, hn, hfin => by
    rw [List.length_cons] at hn
    rw [addFiles]
    refine wp_seq (addFile_spec hE (hslash f List.mem_cons_self) h h1 (by omega)
      (hfin.mono (length_le_addAll _ fs _))) ?_
    rintro _ s' ⟨hf, din', hr⟩
    have hrec := addFiles_spec hE (fun g hg => hslash g (List.mem_cons_of_mem f hg)) hr
      (by omega) (by omega) (by rw [hf]; exact hfin)
    rw [hf] at hrec
    refine wp_mono hrec ?_ fun _ _ he => he
    rintro _ s'' ⟨hf', hr'⟩
    exact ⟨by rw [hf', List.length_cons]; omega, hr'⟩

/-! ## The program -/

theorem clear_spec : ∀ (k i : Nat) {s : State}, (∀ b, s.img b = fun _ => 0) → s.len = i →
    wp (clear k i) (fun _ s' => (∀ b, s'.img b = fun _ => 0) ∧ s'.len = i + k ∧
      s'.freeinode = s.freeinode ∧ s'.freeblock = s.freeblock) E s
  | 0, _, _, himg, hlen => (wp_pure _).2 ⟨himg, hlen, rfl, rfl⟩
  | k + 1, i, s, himg, hlen => by
    rw [clear, wp_bind, wp_wsect]
    refine wp_mono (clear_spec k (i + 1) (fun b => ?_) ?_) ?_ fun _ _ he => he
    · by_cases hb : b = i
      · rw [hb]
        exact State.wrote_img
      · exact (State.wrote_img_of_ne hb).trans (himg b)
    · show max s.len (i + 1) = i + 1
      omega
    · rintro _ s' ⟨h1, h2, h3⟩
      exact ⟨h1, by omega, h3⟩

/-- The root directory before the first file. -/
def dots : Nat → List UInt8 :=
  appendTo (appendTo (fun _ => []) ROOTINO (direntBytes ROOTINO dot)) ROOTINO
    (direntBytes ROOTINO dotdot)

/-- What the files hold in the end. -/
def contents (files : List Input) : Nat → List UInt8 := addAll (ROOTINO + 1) files dots

/-- Their lengths. -/
def lengths (files : List Input) (j : Nat) : Nat := (contents files j).length

/-- The size of the root directory in the end: too large by a block if its entries fill blocks. -/
def roundUp (n : Nat) : Nat := (n / BSIZE + 1) * BSIZE

/-- The image in the end.  In `din` the root directory has the size of its entries. -/
structure Built (s : State) (din : Nat → Dinode) (bytes : Nat → List UInt8) : Prop where
  holds : ∃ U, Holds s din bytes U
  stored : ∀ j, 0 < j → j < s.freeinode → j ≠ ROOTINO → dinodeAt s.img j = din j
  root : dinodeAt s.img ROOTINO = { din ROOTINO with size := roundUp (bytes ROOTINO).length }
  shape : ∀ j, 0 < j → j < s.freeinode → head (din j) = headOf j (bytes j).length
  empty : ∀ j, j = 0 ∨ s.freeinode ≤ j → bytes j = []
  inodes : s.freeinode ≤ NINODES
  boot : ∀ b, b < sb.inodestart → s.img b = bootBlocks b
  bitmap : s.img sb.bmapstart = bitmap s.freeblock

theorem fixRoot_spec (h : Rest s din bytes) (h1 : ROOTINO < s.freeinode) :
    wp (fixRoot ROOTINO) (fun _ s' => s' = s.winode ROOTINO
      { din ROOTINO with size := roundUp (bytes ROOTINO).length }) E s := by
  have hsize : (din ROOTINO).size = (bytes ROOTINO).length :=
    congrArg Dinode.size (h.shape ROOTINO (by decide) h1)
  rw [fixRoot, wp_bind, wp_rinode (h.iblock_lt_len h1), h.stored ROOTINO (by decide) h1, hsize,
    wp_winode (h.iblock_lt_len h1)]
  rfl

/-- The bitmap comes last. -/
theorem Rest.built (h : Rest s din bytes) (h1 : ROOTINO < s.freeinode) :
    Built ((s.winode ROOTINO { din ROOTINO with size := roundUp (bytes ROOTINO).length }).wrote
      sb.bmapstart (Mkfs.bitmap s.freeblock)) din bytes := by
  obtain ⟨U, hU⟩ := h.holds
  have hbm := bmapstart_lt
  have hF : sb.bmapstart < FSSIZE := by decide
  have hroot := iblock_lt (Nat.lt_of_lt_of_le h1 h.inodes)
  set d := { din ROOTINO with size := roundUp (bytes ROOTINO).length } with hd
  have hlen : (s.winode ROOTINO d).len = s.len := State.winode_len (h.iblock_lt_len h1)
  -- the bitmap is not among the inodes
  have hdin : ∀ j, j < s.freeinode →
      dinodeAt ((s.winode ROOTINO d).wrote sb.bmapstart (Mkfs.bitmap s.freeblock)).img j =
        dinodeAt (s.winode ROOTINO d).img j := by
    intro j hj
    have hjb := iblock_lt (Nat.lt_of_lt_of_le hj h.inodes)
    exact congrArg (getDinode · (j % IPB)) (State.wrote_img_of_ne (by omega))
  have hhead : head d = headOf ROOTINO (roundUp (bytes ROOTINO).length) := by
    have h2 : head d = { head (din ROOTINO) with size := roundUp (bytes ROOTINO).length } := rfl
    rw [h2, h.shape ROOTINO (by decide) h1]
    rfl
  have hfits : d.Fits := by
    refine hU.fits rfl hhead ?_
    have h2 := hU.length_le ROOTINO
    have h3 : MAXFILE * BSIZE = 274432 := rfl
    have h4 : BSIZE = 1024 := rfl
    rw [roundUp, h4]
    omega
  refine ⟨⟨U, ?_⟩, ?_, ?_, h.shape, h.empty, h.inodes, ?_, ?_⟩
  · refine hU.congr (fun _ => rfl) (fun b hb => ?_) ?_ rfl
    · exact (State.wrote_img_of_ne (by omega)).trans (State.winode_img_of_ne (by omega))
    · show max (s.winode ROOTINO d).len (sb.bmapstart + 1) = s.len
      have := hU.len
      omega
  · intro j hj0 hj hj1
    rw [hdin j hj, dinodeAt_winode_of_ne hj1]
    exact h.stored j hj0 hj
  · rw [hdin ROOTINO h1, dinodeAt_winode hfits]
  · intro b hb
    rw [State.wrote_img_of_ne (by omega), State.winode_img_of_ne (by omega)]
    exact h.boot b hb
  · exact State.wrote_img

/-- Nothing is there yet. -/
theorem rest_of_clear (himg : ∀ b, s.img b = fun _ => 0) (hlen : s.len = FSSIZE)
    (hfi : s.freeinode = 1) (hfb : s.freeblock = nmeta) :
    Rest (s.wrote 1 superblockBytes) (fun _ => Dinode.zero) (fun _ => []) := by
  have hblk : ∀ (img : Nat → Block) (sl : Option Nat), slot img Dinode.zero sl = 0 := by
    intro img sl
    cases sl with
    | none => rfl
    | some bn =>
      show blockAt img Dinode.zero bn = 0
      rw [blockAt]
      split
      · rfl
      · exact if_pos rfl
  have hm : Mapped (s.wrote 1 superblockBytes).img (fun _ => Dinode.zero) ∅
      (s.wrote 1 superblockBytes).freeblock (fun _ => none) := by
    refine ⟨fun _ _ h => absurd h (Finset.notMem_empty _),
      fun _ _ h => absurd h (Finset.notMem_empty _), fun _ _ h => absurd h (Finset.notMem_empty _),
      fun _ _ h => absurd h (Finset.notMem_empty _), fun j sl _ _ => hblk _ sl, fun b hb => ?_, ?_⟩
    · have hn : 1 < nmeta := by decide
      have hb : nmeta ≤ b := hfb ▸ hb
      exact (State.wrote_img_of_ne (by omega)).trans (himg b)
    · exact hfb
  refine ⟨⟨∅, ⟨_, hm⟩, fun j sl => ?_, fun _ _ _ h => (by cases h), ?_, ?_⟩,
    fun j h0 h1 => ?_, fun j h0 h1 => ?_, fun _ _ => rfl, ?_, fun b _ => ?_⟩
  · exact ⟨fun h => absurd h (Finset.notMem_empty _), fun h => absurd h (not_uses_zero sl)⟩
  · show max s.len 2 = FSSIZE
    rw [hlen]
    rfl
  · show s.freeblock ≤ FSSIZE
    rw [hfb]
    decide
  · have h1 : j < s.freeinode := h1
    omega
  · have h1 : j < s.freeinode := h1
    omega
  · show s.freeinode ≤ NINODES
    rw [hfi]
    decide
  · rw [bootBlocks]
    split
    · next hb =>
      rw [hb]
      exact State.wrote_img
    · next hb => exact (State.wrote_img_of_ne hb).trans (himg b)

/-- **The run of `mkfs`**, if there are not too many files: it fails only if they do not fit, or if
one has a `/` in its name. -/
theorem main_spec {files : List Input} (hE : Full (lengths files) → ∀ e t, E e t)
    (hslash : ∀ f ∈ files, SLASH ∈ f.base → ∀ e t, E e t) (hn : files.length + 2 ≤ NINODES)
    (hfin : Final (lengths files) (contents files)) :
    wp (main files) (fun _ s' => s'.freeinode = files.length + 2 ∧
      ∃ din, Built s' din (contents files)) E start := by
  rw [main]
  refine wp_seq (clear_spec FSSIZE 0 (s := start) (fun _ => rfl) rfl) ?_
  rintro _ s0 ⟨himg, hlen, hfi, hfb⟩
  rw [wp_bind, wp_wsect]
  have hr0 := rest_of_clear himg (by omega) hfi hfb
  have hfi0 : (s0.wrote 1 superblockBytes).freeinode = 1 := hfi
  have htype : typeOf (s0.wrote 1 superblockBytes).freeinode = T_DIR := by
    rw [hfi0]
    rfl
  rw [← htype]
  refine wp_seq (ialloc_spec hr0 (by rw [hfi0]; decide) (by rw [hfi0]; decide)) ?_
  rintro r s1 ⟨hr, hf1, din1, hr1⟩
  have hroot : r = ROOTINO := hr.trans hfi0
  rw [hfi0] at hf1
  rw [if_neg (fun h => h hroot), hroot]
  have hdots : ∀ j, (dots j).length ≤ (contents files j).length :=
    length_le_addAll _ files dots
  refine wp_seq (iappend_spec hE hr1 (by decide) (by rw [hf1]; decide) (hfin.mono fun j =>
    (length_le_appendTo _ ROOTINO (direntBytes ROOTINO dotdot) j).trans (hdots j))) ?_
  rintro _ s2 ⟨hf2, din2, hr2⟩
  refine wp_seq (iappend_spec hE hr2 (by decide) (by rw [hf2, hf1]; decide) (hfin.mono hdots)) ?_
  rintro _ s3 ⟨hf3, din3, hr3⟩
  have hf3 : s3.freeinode = ROOTINO + 1 := by rw [hf3, hf2, hf1]; rfl
  have hspec := addFiles_spec hE hslash hr3 (by rw [hf3]; decide)
    (by rw [hf3, Nat.add_comm]; exact hn) (by rw [hf3]; exact hfin)
  rw [hf3] at hspec
  refine wp_seq hspec ?_
  rintro _ s4 ⟨hf4, din4, hr4⟩
  replace hr4 : Rest s4 din4 (contents files) := hr4
  have h14 : ROOTINO < s4.freeinode := by
    rw [hf4]
    omega
  refine wp_seq (fixRoot_spec hr4 h14) ?_
  rintro _ s5 rfl
  rw [wp_bind, wp_get, balloc, if_pos, wp_wsect]
  · refine ⟨?_, din4, hr4.built h14⟩
    show s4.freeinode = files.length + 2
    rw [hf4, show ROOTINO = 1 from rfl]
    omega
  · obtain ⟨U, hU⟩ := hr4.holds
    exact Nat.lt_of_le_of_lt hU.room (by decide)

end

end Xv6.Mkfs
