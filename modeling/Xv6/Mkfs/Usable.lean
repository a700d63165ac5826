import Xv6.Mkfs.Build
import Mathlib.Algebra.BigOperators.Group.Finset.Basic

/-!
# Images that the kernel can use

The image that `mkfs` leaves is sound unless there are too many files for the inodes, which is not
checked, or the entries of the root directory fill its blocks, in which case its size is rounded up
to a block that it does not have.
-/

set_option autoImplicit false

namespace Xv6.Mkfs

open Fs

/-! ## What the files hold -/

theorem length_direntBytes (inum : Nat) (name : List UInt8) : (direntBytes inum name).length = 16 := by
  rw [direntBytes, List.length_map, List.length_range]

/-- The entries of files that get inodes from `k` on. -/
def entries : Nat → List Input → List UInt8
  | _, [] => []
  | k, f :: fs => direntBytes k f.shortname ++ entries (k + 1) fs

theorem length_entries : ∀ (k : Nat) (fs : List Input), (entries k fs).length = 16 * fs.length
  | _, [] => rfl
  | k, f :: fs => by
    rw [entries, List.length_append, length_direntBytes, length_entries (k + 1) fs,
      List.length_cons]
    omega

/-- The bytes of the file with inode `j`, if the files get inodes from `k` on. -/
def fileBytes (k : Nat) (fs : List Input) (j : Nat) : List UInt8 :=
  if k ≤ j then (fs[j - k]?.map Input.bytes).getD [] else []

theorem fileBytes_cons (k : Nat) (f : Input) (fs : List Input) (j : Nat) :
    fileBytes k (f :: fs) j = (if j = k then f.bytes else []) ++ fileBytes (k + 1) fs j := by
  rw [fileBytes, fileBytes]
  rcases Nat.lt_trichotomy j k with h | h | h
  · rw [if_neg (by omega), if_neg (by omega), if_neg (by omega)]
    rfl
  · rw [h, if_pos (Nat.le_refl k), if_pos rfl, if_neg (by omega), Nat.sub_self]
    exact (List.append_nil _).symm
  · rw [if_pos (by omega), if_neg (by omega), if_pos (by omega),
      show j - k = (j - (k + 1)) + 1 by omega, List.getElem?_cons_succ]
    rfl

theorem addAll_root : ∀ {k : Nat} (fs : List Input) (bytes : Nat → List UInt8), ROOTINO < k →
    addAll k fs bytes ROOTINO = bytes ROOTINO ++ entries k fs
  | _, [], _, _ => (List.append_nil _).symm
  | k, f :: fs, bytes, hk => by
    rw [addAll, addAll_root fs _ (Nat.lt_succ_of_lt hk), addBytes,
      appendTo_of_ne _ _ (Nat.ne_of_lt hk), appendTo_self, entries, List.append_assoc]

theorem addAll_file : ∀ {k : Nat} (fs : List Input) (bytes : Nat → List UInt8) {j : Nat},
    j ≠ ROOTINO → addAll k fs bytes j = bytes j ++ fileBytes k fs j
  | k, [], bytes, j, _ => by
    have hnil : fileBytes k [] j = [] := ite_self []
    rw [hnil, List.append_nil]
    rfl
  | k, f :: fs, bytes, j, hj => by
    rw [addAll, addAll_file fs _ hj, addBytes, fileBytes_cons, ← List.append_assoc]
    congr 1
    by_cases hjk : j = k
    · rw [hjk, appendTo_self, appendTo_of_ne _ _ (hjk ▸ hj), if_pos rfl]
    · rw [appendTo_of_ne _ _ hjk, appendTo_of_ne _ _ hj, if_neg hjk, List.append_nil]

/-- The root directory holds its two links and the entries of the files. -/
theorem contents_root (files : List Input) : contents files ROOTINO =
    direntBytes ROOTINO dot ++ direntBytes ROOTINO dotdot ++ entries (ROOTINO + 1) files := by
  rw [contents, addAll_root files dots (Nat.lt_succ_self _), dots, appendTo_self, appendTo_self,
    List.nil_append]

/-- Every other inode holds a file, or nothing. -/
theorem contents_file (files : List Input) {j : Nat} (hj : j ≠ ROOTINO) :
    contents files j = fileBytes (ROOTINO + 1) files j := by
  rw [contents, addAll_file files dots hj, dots, appendTo_of_ne _ _ hj, appendTo_of_ne _ _ hj,
    List.nil_append]

theorem lengths_root (files : List Input) : lengths files ROOTINO = 16 * (files.length + 2) := by
  rw [lengths, contents_root, List.length_append, List.length_append, length_direntBytes,
    length_direntBytes, length_entries]
  omega

theorem lengths_file (files : List Input) (m : Nat) :
    lengths files (m + 2) = (files[m]?.map fun f => f.bytes.length).getD 0 := by
  rw [lengths, contents_file files (show m + 2 ≠ 1 by omega), fileBytes,
    if_pos (show ROOTINO + 1 ≤ m + 2 by rw [ROOTINO]; omega),
    show m + 2 - (ROOTINO + 1) = m from Nat.add_sub_cancel m 2]
  cases files[m]? with
  | none => rfl
  | some f => rfl

theorem final_lengths {files : List Input} (hn : files.length + 2 ≤ NINODES) :
    Final (lengths files) (contents files) := by
  refine ⟨fun _ => Nat.le_refl _, fun j hj => ?_⟩
  have hN : NINODES = 200 := rfl
  rw [show j = (j - 2) + 2 by omega, lengths_file, List.getElem?_eq_none (by omega)]
  rfl

/-! ## Files that fit -/

/-- There are inodes and blocks enough for the files. -/
structure Fits (files : List Input) : Prop where
  inodes : files.length + 2 ≤ NINODES
  size : ∀ f ∈ files, f.bytes.length ≤ MAXFILE * BSIZE
  blocks : nmeta + cost (16 * (files.length + 2)) +
    (files.map fun f => cost f.bytes.length).sum ≤ FSSIZE

theorem sum_getElem? {α : Type} {g : Option α → Nat} (h0 : g none = 0) :
    ∀ (l : List α) (n : Nat), l.length ≤ n →
      ∑ m ∈ Finset.range n, g l[m]? = (l.map fun a => g (some a)).sum
  | [], n, _ => Finset.sum_eq_zero fun m _ => by rw [List.getElem?_nil, h0]
  | a :: l, 0, h => absurd h (Nat.not_succ_le_zero _)
  | a :: l, n + 1, h => by
    rw [Finset.sum_range_succ', List.map_cons, List.sum_cons, Nat.add_comm]
    congr 1
    exact sum_getElem? h0 l n (Nat.le_of_succ_le_succ h)

/-- The blocks that the files need: those of the root directory and their own. -/
theorem need_lengths {files : List Input} (hn : files.length + 2 ≤ NINODES) :
    need (lengths files) = cost (16 * (files.length + 2)) +
      (files.map fun f => cost f.bytes.length).sum := by
  have hN : NINODES = 198 + 1 + 1 := rfl
  have hzero : lengths files 0 = 0 := by
    rw [lengths, contents_file files (by decide)]
    rfl
  have hsum := sum_getElem? (g := fun f : Option Input => cost ((f.map fun f => f.bytes.length).getD 0))
    rfl files 198 (by omega)
  rw [need, hN, Finset.sum_range_succ', Finset.sum_range_succ', hzero,
    show lengths files (0 + 1) = _ from lengths_root files]
  simp only [show ∀ m, m + 1 + 1 = m + 2 from fun _ => rfl, lengths_file]
  rw [hsum, show cost 0 = 0 from rfl, Nat.add_zero, Nat.add_comm]
  rfl

theorem Fits.not_full {files : List Input} (h : Fits files) : ¬ Full (lengths files) := by
  have hmax : MAXFILE * BSIZE = 274432 := rfl
  have hN : NINODES = 200 := rfl
  have hi := h.inodes
  rintro (hlt | ⟨j, hj⟩)
  · rw [need_lengths hi] at hlt
    have := h.blocks
    omega
  · rcases Nat.lt_or_ge j 2 with hj2 | hj2
    · by_cases hroot : j = ROOTINO
      · rw [hroot, lengths_root] at hj
        omega
      · have h1 : ROOTINO = 1 := rfl
        have hj0 : j = 0 := by omega
        rw [hj0, lengths, contents_file files (by decide)] at hj
        exact Nat.not_lt_zero _ (show MAXFILE * BSIZE < 0 from hj)
    · rw [show j = (j - 2) + 2 by omega, lengths_file] at hj
      cases hf : files[j - 2]? with
      | none =>
        rw [hf] at hj
        exact absurd hj (by decide)
      | some f =>
        rw [hf] at hj
        have := h.size f (List.mem_of_getElem? hf)
        exact absurd (show MAXFILE * BSIZE < f.bytes.length from hj) (by omega)

/-- `mkfs` succeeds on files that fit. -/
theorem Fits.main {files : List Input} (h : Fits files) (hslash : ∀ f ∈ files, SLASH ∉ f.base) :
    ∃ s, Mkfs.main files start = .ok () s ∧ s.freeinode = files.length + 2 ∧
      ∃ din, Built s din (contents files) := by
  have hspec := main_spec (E := fun _ _ => False) (fun hf => absurd hf h.not_full)
    (fun f hf hs => absurd hs (hslash f hf)) h.inodes (final_lengths h.inodes)
  obtain ⟨_, s, hs, hfi, hb⟩ := hspec.exists_ok
  exact ⟨s, hs, hfi, hb⟩

/-! ## The number of inodes -/

/-- A step that allocates no inode. -/
def KeepsInodes {α : Type} (m : Kern State α) : Prop :=
  ∀ s, wp m (fun _ s' => s'.freeinode = s.freeinode) (fun _ _ => True) s

section

variable {α β : Type}

theorem KeepsInodes.pure (a : α) : KeepsInodes (pure a) := fun _ => (wp_pure _).2 rfl

theorem KeepsInodes.bind {m : Kern State α} {f : α → Kern State β} (hm : KeepsInodes m)
    (hf : ∀ a, KeepsInodes (f a)) : KeepsInodes (m >>= f) := fun s =>
  wp_seq (hm s) fun a s' h => wp_mono (hf a s') (fun _ _ h' => h'.trans h) fun _ _ he => he

theorem KeepsInodes.ite {p : Prop} [Decidable p] {m m' : Kern State α} (hm : KeepsInodes m)
    (hm' : KeepsInodes m') : KeepsInodes (if p then m else m') := by
  split
  · exact hm
  · exact hm'

theorem KeepsInodes.panic (msg : String) : KeepsInodes (panic msg : Kern State α) := fun _ =>
  (wp_panic _).2 trivial

theorem keepsInodes_rsect (sec : Nat) : KeepsInodes (rsect sec) := by
  intro s
  rw [wp_rsect]
  split
  · rfl
  · trivial

theorem keepsInodes_wsect (sec : Nat) (buf : Block) : KeepsInodes (wsect sec buf) := fun _ =>
  wp_wsect.2 rfl

theorem keepsInodes_takeBlock : KeepsInodes takeBlock := fun _ => wp_takeBlock.2 rfl

theorem keepsInodes_winode (i : Nat) (d : Dinode) : KeepsInodes (winode i d) :=
  .bind (keepsInodes_rsect _) fun _ => keepsInodes_wsect _ _

theorem keepsInodes_rinode (i : Nat) : KeepsInodes (rinode i) :=
  .bind (keepsInodes_rsect _) fun _ => .pure _

theorem keepsInodes_addrFor (d : Dinode) (k : Fin (NDIRECT + 1)) : KeepsInodes (addrFor d k) :=
  .ite (.bind keepsInodes_takeBlock fun _ => .pure _) (.pure _)

theorem keepsInodes_blockFor (d : Dinode) (fbn : Nat) : KeepsInodes (blockFor d fbn) := by
  rw [blockFor]
  split
  · exact .bind (keepsInodes_addrFor _ _) fun _ => .pure _
  · refine .bind (keepsInodes_addrFor _ _) fun _ => .bind (keepsInodes_rsect _) fun _ => ?_
    refine .ite (.bind keepsInodes_takeBlock fun _ => ?_) (.pure _)
    exact .bind (keepsInodes_wsect _ _) fun _ => .pure _

theorem keepsInodes_iappendFrom : ∀ (k : Nat) (d : Dinode) (off : Nat) (p : List UInt8),
    KeepsInodes (iappendFrom k d off p)
  | 0, _, _, _ => .pure _
  | k + 1, d, off, p => by
    rw [iappendFrom]
    refine .ite (.ite (.bind (keepsInodes_blockFor _ _) fun r => ?_) (.panic _)) (.pure _)
    refine .bind (keepsInodes_rsect _) fun _ => .bind (keepsInodes_wsect _ _) fun _ => ?_
    exact keepsInodes_iappendFrom k _ _ _

theorem keepsInodes_iappend (i : Nat) (p : List UInt8) : KeepsInodes (iappend i p) :=
  .bind (keepsInodes_rinode _) fun _ => .bind (keepsInodes_iappendFrom _ _ _ _) fun _ =>
    keepsInodes_winode _ _

theorem keepsInodes_copyIn (i : Nat) : ∀ cs : List (List UInt8), KeepsInodes (copyIn i cs)
  | [] => .pure _
  | c :: cs => .bind (keepsInodes_iappend i c) fun _ => keepsInodes_copyIn i cs

theorem keepsInodes_clear : ∀ k i : Nat, KeepsInodes (clear k i)
  | 0, _ => .pure _
  | k + 1, i => .bind (keepsInodes_wsect _ _) fun _ => keepsInodes_clear k (i + 1)

/-- `ialloc` counts. -/
theorem ialloc_freeinode (type : Nat) (s : State) :
    wp (ialloc type) (fun _ s' => s'.freeinode = s.freeinode + 1) (fun _ _ => True) s := by
  rw [ialloc, wp_bind, wp_get, wp_bind, wp_set]
  exact wp_mono ((keepsInodes_winode s.freeinode _).bind (fun _ => .pure s.freeinode)
    { s with freeinode := s.freeinode + 1 }) (fun _ _ h => h) fun _ _ he => he

theorem addFiles_freeinode (r : Nat) : ∀ (fs : List Input) (s : State),
    wp (addFiles r fs) (fun _ s' => s'.freeinode = s.freeinode + fs.length) (fun _ _ => True) s
  | [], _ => (wp_pure _).2 rfl
  | f :: fs, s => by
    rw [addFiles]
    have hf : wp (addFile r f) (fun _ s' => s'.freeinode = s.freeinode + 1) (fun _ _ => True) s := by
      rw [addFile, wp_ite]
      split
      · exact (wp_panic _).2 trivial
      · refine wp_seq (ialloc_freeinode T_FILE s) fun inum s' h => ?_
        exact wp_mono ((keepsInodes_iappend _ _).bind (fun _ => keepsInodes_copyIn _ _) s')
          (fun _ _ h' => h'.trans h) fun _ _ he => he
    refine wp_seq hf fun _ s' h => ?_
    refine wp_mono (addFiles_freeinode r fs s') (fun _ s'' h' => ?_) fun _ _ he => he
    rw [h', h, List.length_cons]
    omega

/-- One inode for the root directory and one for each file. -/
theorem main_freeinode {files : List Input} {s : State} (h : main files start = .ok () s) :
    s.freeinode = files.length + 2 := by
  have hspec : wp (main files) (fun _ s' => s'.freeinode = files.length + 2) (fun _ _ => True)
      start := by
    rw [main]
    refine wp_seq (keepsInodes_clear FSSIZE 0 start) fun _ s' h' => ?_
    refine wp_seq (keepsInodes_wsect 1 superblockBytes s') fun _ s0 h0 => ?_
    refine wp_seq (ialloc_freeinode T_DIR s0) fun r s1 h1 => ?_
    rw [wp_ite]
    split
    · exact (wp_panic _).2 trivial
    · refine wp_seq (keepsInodes_iappend r _ s1) fun _ s2' h2' => ?_
      refine wp_seq (keepsInodes_iappend r _ s2') fun _ s2 h2 => ?_
      refine wp_seq (addFiles_freeinode r files s2) fun _ s3 h3 => ?_
      have hfix : KeepsInodes (fixRoot r) :=
        .bind (keepsInodes_rinode _) fun _ => keepsInodes_winode _ _
      refine wp_seq (hfix s3) fun _ s4 h4 => ?_
      rw [wp_bind, wp_get]
      have hb : KeepsInodes (balloc s4.freeblock) := .ite (keepsInodes_wsect _ _) (.panic _)
      refine wp_mono (hb s4) (fun _ s5 h5 => ?_) fun _ _ he => he
      have hstart : start.freeinode = 1 := rfl
      omega
  exact hspec.ok h

end

/-! ## Usable images -/

/-- The inodes that `ialloc` has given out. -/
def Allocated (s : State) (j : Nat) : Prop := 0 < j ∧ j < s.freeinode

/-- The slots of an inode with a block number: those of the blocks below its size, and that of the
indirect block if it has one. -/
def HasBlock (d : Dinode) : Option Nat → Prop
  | some bn => bn < blocks d.size
  | none => d.addrs (Fin.last NDIRECT) ≠ 0

/-- The kernel can use the image. -/
structure Usable (s : State) : Prop where
  /-- There is room on the disk for every inode. -/
  inodes : ∀ j, Allocated s j → j < NINODES
  /-- No file has holes. -/
  mapped : ∀ j, Allocated s j → ∀ bn, bn < blocks (dinodeAt s.img j).size →
    blockAt s.img (dinodeAt s.img j) bn ≠ 0
  /-- The blocks of the files are blocks for data. -/
  range : ∀ j sl, Allocated s j → HasBlock (dinodeAt s.img j) sl →
    nmeta ≤ slot s.img (dinodeAt s.img j) sl ∧ slot s.img (dinodeAt s.img j) sl < FSSIZE
  /-- No block is used twice. -/
  distinct : ∀ j sl j' sl', Allocated s j → Allocated s j' → HasBlock (dinodeAt s.img j) sl →
    HasBlock (dinodeAt s.img j') sl' →
    slot s.img (dinodeAt s.img j) sl = slot s.img (dinodeAt s.img j') sl' → j = j' ∧ sl = sl'
  /-- The bitmap has the blocks in use. -/
  bitmap : ∀ b, b < BPB → (testBit (s.img sb.bmapstart) b ↔ b < s.freeblock)

theorem testBit_bitmap : ∀ n b : Nat, testBit (bitmap n) b = decide (b < n)
  | 0, b => by
    rw [decide_eq_false (Nat.not_lt_zero b), testBit, and_bitMask_ne_zero]
    exact BitVec.getLsbD_zero
  | n + 1, b => by
    rw [bitmap, testBit_setBit, testBit_bitmap n b, Bool.eq_iff_iff, Bool.or_eq_true,
      decide_eq_true_iff, decide_eq_true_iff, decide_eq_true_iff]
    omega

section

variable {s : State} {din : Nat → Dinode} {bytes : Nat → List UInt8}

theorem Built.addrs (h : Built s din bytes) {j : Nat} (hj : Allocated s j) :
    (dinodeAt s.img j).addrs = (din j).addrs := by
  by_cases hr : j = ROOTINO
  · rw [hr, h.root]
  · rw [h.stored j hj.1 hj.2 hr]

theorem Built.slot_eq (h : Built s din bytes) {j : Nat} (hj : Allocated s j) (sl : Option Nat) :
    slot s.img (dinodeAt s.img j) sl = slot s.img (din j) sl := by
  cases sl with
  | none => exact congrFun (h.addrs hj) _
  | some bn => exact blockAt_of_addrs (h.addrs hj) (fun _ => rfl) bn

/-- The size of an inode on the disk. -/
theorem Built.size (h : Built s din bytes) {j : Nat} (hj : Allocated s j) :
    (dinodeAt s.img j).size =
      if j = ROOTINO then roundUp (bytes ROOTINO).length else (bytes j).length := by
  by_cases hr : j = ROOTINO
  · rw [if_pos hr, hr, h.root]
  · rw [if_neg hr, h.stored j hj.1 hj.2 hr]
    exact congrArg Dinode.size (h.shape j hj.1 hj.2)

theorem blocks_roundUp {n : Nat} (h : ¬ BSIZE ∣ n) : blocks (roundUp n) = blocks n := by
  have hB : BSIZE = 1024 := rfl
  rw [blocks, blocks, roundUp, hB]
  rw [hB, Nat.dvd_iff_mod_eq_zero] at h
  omega

theorem lt_blocks_roundUp {n : Nat} (h : BSIZE ∣ n) : blocks n < blocks (roundUp n) := by
  have hB : BSIZE = 1024 := rfl
  rw [blocks, blocks, roundUp, hB]
  rw [hB, Nat.dvd_iff_mod_eq_zero] at h
  omega

/-- The slots with a block are those in use, unless the root directory is too large. -/
theorem Built.mem_of_hasBlock (h : Built s din bytes) {U : Finset Slot} (hU : Holds s din bytes U)
    (hd : ¬ BSIZE ∣ (bytes ROOTINO).length) {j : Nat} (hj : Allocated s j) {sl : Option Nat}
    (hb : HasBlock (dinodeAt s.img j) sl) : (j, sl) ∈ U := by
  cases sl with
  | none =>
    obtain ⟨own, hm⟩ := hU.mapped
    refine (hm.mem_iff (show InFile none from trivial)).2 ?_
    rw [← h.slot_eq hj]
    exact hb
  | some bn =>
    rw [hU.slots]
    have hb : bn < blocks (dinodeAt s.img j).size := hb
    rw [h.size hj] at hb
    split at hb
    · next hr =>
      rw [blocks_roundUp hd] at hb
      rw [hr]
      exact hb
    · exact hb

theorem Built.usable (h : Built s din bytes) (hd : ¬ BSIZE ∣ (bytes ROOTINO).length) :
    Usable s := by
  obtain ⟨U, hU⟩ := h.holds
  obtain ⟨own, hm⟩ := hU.mapped
  refine ⟨fun j hj => Nat.lt_of_lt_of_le hj.2 h.inodes, fun j hj bn hbn => ?_,
    fun j sl hj hb => ?_, fun j sl j' sl' hj hj' hb hb' heq => ?_, fun b _ => ?_⟩
  · have hu : (j, some bn) ∈ U := h.mem_of_hasBlock hU hd hj hbn
    have hne := hm.ne_zero hu
    rw [← h.slot_eq hj] at hne
    exact hne
  · have hu := h.mem_of_hasBlock hU hd hj hb
    rw [h.slot_eq hj]
    exact ⟨hm.low j sl hu, Nat.lt_of_lt_of_le (hm.high j sl hu) hU.room⟩
  · rw [h.slot_eq hj, h.slot_eq hj'] at heq
    exact Prod.mk.injEq .. ▸ hm.inj (h.mem_of_hasBlock hU hd hj hb)
      (h.mem_of_hasBlock hU hd hj' hb') heq
  · rw [h.bitmap, testBit_bitmap, decide_eq_true_iff]

/-- If its entries fill its blocks, the root directory has a hole at its end. -/
theorem Built.not_usable (h : Built s din bytes) (h1 : ROOTINO < s.freeinode)
    (hlen : (bytes ROOTINO).length < MAXFILE * BSIZE)
    (hd : BSIZE ∣ (bytes ROOTINO).length) : ¬ Usable s := by
  intro hu
  obtain ⟨U, hU⟩ := h.holds
  obtain ⟨own, hm⟩ := hU.mapped
  have hj : Allocated s ROOTINO := ⟨by decide, h1⟩
  refine hu.mapped ROOTINO hj (blocks (bytes ROOTINO).length) ?_ ?_
  · rw [h.size hj, if_pos rfl]
    exact lt_blocks_roundUp hd
  · refine (h.slot_eq hj (some _)).trans (hm.free ROOTINO (some _) ?_ ?_)
    · show blocks _ < MAXFILE
      obtain ⟨c, hc⟩ := hd
      have hB : BSIZE = 1024 := rfl
      rw [hc] at hlen ⊢
      rw [blocks]
      rw [hB] at hlen ⊢
      omega
    · rw [hU.slots]
      exact Nat.lt_irrefl _

end

/-- **The images of `mkfs`.**  On every command line on which `mkfs` reaches `exit(0)`, the kernel
can use the image if and only if there are inodes for all files and the entries of the root
directory do not fill its blocks. -/
theorem mkfs_usable_iff {files : List Input} {s : State} (h : main files start = .ok () s) :
    Usable s ↔ files.length + 2 ≤ NINODES ∧ ¬ 64 ∣ files.length + 2 := by
  have hfi := main_freeinode h
  have hdvd : BSIZE ∣ 16 * (files.length + 2) ↔ 64 ∣ files.length + 2 := by
    rw [show BSIZE = 16 * 64 from rfl]
    exact Nat.mul_dvd_mul_iff_left (by decide)
  by_cases hn : files.length + 2 ≤ NINODES
  · have hspec := main_spec (E := fun _ _ => True) (fun _ _ _ => trivial)
      (fun _ _ _ _ _ => trivial) hn (final_lengths hn)
    obtain ⟨-, din, hb⟩ := hspec.ok h
    have hlen : (contents files ROOTINO).length = 16 * (files.length + 2) := lengths_root files
    constructor
    · intro hu
      refine ⟨hn, fun hd => ?_⟩
      refine hb.not_usable (by rw [hfi, ROOTINO]; omega) ?_ ?_ hu
      · have h1 : MAXFILE * BSIZE = 274432 := rfl
        have h2 : NINODES = 200 := rfl
        omega
      · rw [hlen]
        exact hdvd.2 hd
    · rintro ⟨-, hd⟩
      refine hb.usable ?_
      rw [hlen]
      exact fun hd' => hd (hdvd.1 hd')
  · constructor
    · intro hu
      have := hu.inodes NINODES ⟨by decide, by omega⟩
      exact absurd this (Nat.lt_irrefl _)
    · exact fun hc => absurd hc.1 hn

/-- Empty files with different names. -/
def emptyFiles (n : Nat) : List Input :=
  (List.range n).map fun k =>
    { path := [97, UInt8.ofNat (k % 128 + 128)], reads := [],
      path_ne := by
        have hne : UInt8.ofNat (k % 128 + 128) ≠ 0 := by
          intro h
          have := congrArg UInt8.toNat h
          rw [UInt8.toNat_ofNat'] at this
          have h0 : (0 : UInt8).toNat = 0 := rfl
          omega
        rw [List.mem_cons, List.mem_cons]
        rintro (h | h | h)
        · cases h
        · exact hne h.symm
        · cases h
      reads_le := nofun
      reads_pos := nofun }

theorem emptyFiles_fits : Fits (emptyFiles 62) := by
  refine ⟨by decide, ?_, by decide⟩
  intro f hf
  obtain ⟨k, -, rfl⟩ := List.mem_map.1 hf
  exact Nat.zero_le _

/-- With 62 files the root directory has 64 entries. -/
theorem mkfs_root_hole : ∃ s, main (emptyFiles 62) start = .ok () s ∧ ¬ Usable s := by
  obtain ⟨s, hs, hfi, din, hb⟩ := emptyFiles_fits.main (by decide +kernel)
  have hlen : (contents (emptyFiles 62) ROOTINO).length = 1024 := by
    rw [← lengths, lengths_root, emptyFiles, List.length_map, List.length_range]
  refine ⟨s, hs, hb.not_usable (by rw [hfi]; decide) ?_ ?_⟩
  · rw [hlen]
    decide
  · rw [hlen]
    exact Nat.dvd_refl 1024

theorem mkfs_usable_iff_empty : ∃ s, main [] start = .ok () s ∧ Usable s := by
  have hfits : Fits [] := ⟨by decide, nofun, by decide⟩
  obtain ⟨s, hs, -⟩ := hfits.main nofun
  exact ⟨s, hs, (mkfs_usable_iff hs).2 ⟨by decide, by decide⟩⟩

end Xv6.Mkfs
