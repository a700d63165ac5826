import Xv6.Fs.Read
import Xv6.Fs.Calls
import Xv6.Mkfs.Usable

/-!
# The kernel reads what `mkfs` wrote

The kernel starts on the image, looks up a file by its name and reads it.  The two programs share
the layout of inodes, of block numbers and of directory entries, and both cut names to `DIRSIZ`
bytes.
-/

set_option autoImplicit false

namespace Xv6.Mkfs

open Fs

/-! ## The superblock -/

/-- `readsb(dev, sb)`. -/
def readsb (img : Nat → Block) : Superblock where
  magic := getLE (img 1) 0 4
  size := getLE (img 1) 4 4
  nblocks := getLE (img 1) 8 4
  ninodes := getLE (img 1) 12 4
  nlog := getLE (img 1) 16 4
  logstart := getLE (img 1) 20 4
  inodestart := getLE (img 1) 24 4
  bmapstart := getLE (img 1) 28 4

section

variable {s : State} {din : Nat → Dinode} {bytes : Nat → List UInt8}

theorem Built.readsb (h : Built s din bytes) : readsb s.img = sb := by
  have h1 : s.img 1 = superblockBytes := h.boot 1 (by decide)
  rw [Mkfs.readsb, h1]
  decide

/-! ## Blocks and bytes -/

theorem Built.byteAt_eq (h : Built s din bytes) {j off : Nat} {b : UInt8} (hj : Allocated s j)
    (hb : (bytes j)[off]? = some b) : byteAt s.img (dinodeAt s.img j) off = b := by
  obtain ⟨U, hU⟩ := h.holds
  have hslot := h.slot_eq hj (some (off / BSIZE))
  rw [byteAt, show blockAt s.img (dinodeAt s.img j) (off / BSIZE) = _ from hslot]
  exact hU.data j off b hb

theorem Built.present (h : Built s din bytes) {j : Nat} (hj : Allocated s j) :
    Present s.img (dinodeAt s.img j) (bytes j).length := by
  obtain ⟨U, hU⟩ := h.holds
  obtain ⟨own, hm⟩ := hU.mapped
  intro bn hbn
  have hu : (j, some bn) ∈ U := by
    rw [hU.slots]
    exact lt_blocks.2 hbn
  refine ⟨hU.uses_inFile hu, ?_⟩
  have hne := hm.ne_zero hu
  rw [← h.slot_eq hj] at hne
  exact hne

theorem Built.type_eq (h : Built s din bytes) {j : Nat} (hj : Allocated s j) :
    (dinodeAt s.img j).type = typeOf j := by
  have hs : (din j).type = typeOf j := congrArg Dinode.type (h.shape j hj.1 hj.2)
  by_cases hr : j = ROOTINO
  · rw [hr] at hs ⊢
    rw [h.root]
    exact hs
  · rw [h.stored j hj.1 hj.2 hr]
    exact hs

end

/-! ## The root directory -/

/-- The entries of files that get inodes from `k` on. -/
def numbered : Nat → List Input → List (Nat × List UInt8)
  | _, [] => []
  | k, f :: fs => (k, f.shortname) :: numbered (k + 1) fs

/-- The entries of the root directory. -/
def rootEntries (files : List Input) : List (Nat × List UInt8) :=
  (ROOTINO, dot) :: (ROOTINO, dotdot) :: numbered (ROOTINO + 1) files

theorem entries_eq_flatMap : ∀ (k : Nat) (fs : List Input),
    entries k fs = (numbered k fs).flatMap fun x => direntBytes x.1 x.2
  | _, [] => rfl
  | k, f :: fs => by
    rw [entries, numbered, List.flatMap_cons, entries_eq_flatMap (k + 1) fs]

theorem contents_root_eq (files : List Input) :
    contents files ROOTINO = (rootEntries files).flatMap fun x => direntBytes x.1 x.2 := by
  rw [contents_root, rootEntries, List.flatMap_cons, List.flatMap_cons, entries_eq_flatMap,
    List.append_assoc]

theorem getElem?_numbered : ∀ (k : Nat) (fs : List Input) (m : Nat),
    (numbered k fs)[m]? = fs[m]?.map fun f => (k + m, f.shortname)
  | _, [], _ => rfl
  | _, _ :: _, 0 => rfl
  | k, f :: fs, m + 1 => by
    rw [numbered, List.getElem?_cons_succ, List.getElem?_cons_succ, getElem?_numbered (k + 1) fs m,
      show k + 1 + m = k + (m + 1) by omega]

/-- A list of pieces of the same length. -/
theorem getElem?_flatMap {α β : Type} {g : α → List β} {c : Nat} (hc : ∀ a, (g a).length = c) :
    ∀ (l : List α) (m j : Nat), j < c → (l.flatMap g)[c * m + j]? = l[m]?.bind fun a => (g a)[j]?
  | [], _, _, _ => rfl
  | a :: l, 0, j, hj => by
    rw [List.flatMap_cons, Nat.mul_zero, Nat.zero_add, List.getElem?_append_left (by rw [hc]; exact hj)]
    rfl
  | a :: l, m + 1, j, hj => by
    rw [List.flatMap_cons, List.getElem?_append_right (by rw [hc, Nat.mul_succ]; omega), hc,
      List.getElem?_cons_succ, ← getElem?_flatMap hc l m j hj, Nat.mul_succ,
      show c * m + c + j - c = c * m + j by omega]

theorem contents_root_getElem? (files : List Input) {m j k : Nat} {name : List UInt8} (hj : j < 16)
    (hm : (rootEntries files)[m]? = some (k, name)) :
    (contents files ROOTINO)[16 * m + j]? = some (dirent k name j) := by
  rw [contents_root_eq, getElem?_flatMap (g := fun x : Nat × List UInt8 => direntBytes x.1 x.2)
    (fun x => length_direntBytes x.1 x.2) _ m j hj, hm, Option.bind_some, direntBytes, List.getElem?_map, List.getElem?_range hj]
  rfl

section

variable {s : State} {din : Nat → Dinode} {files : List Input}

/-- The entries that the kernel finds. -/
theorem Built.entryAt_eq (h : Built s din (contents files)) (h1 : Allocated s ROOTINO) {m k : Nat}
    {name : List UInt8} (hm : (rootEntries files)[m]? = some (k, name)) {j : Nat} (hj : j < 16) :
    entryAt s.img (dinodeAt s.img ROOTINO) m j = dirent k name j := by
  rw [entryAt, if_pos hj]
  exact h.byteAt_eq h1 (contents_root_getElem? files hj hm)

theorem Built.direntInum_entryAt (h : Built s din (contents files)) (h1 : Allocated s ROOTINO)
    {m k : Nat} {name : List UInt8} (hm : (rootEntries files)[m]? = some (k, name))
    (hk : k < NINODES) : direntInum (entryAt s.img (dinodeAt s.img ROOTINO) m) = k := by
  have hN : NINODES = 200 := rfl
  rw [direntInum, getLE_congr fun i _ h2 => h.entryAt_eq h1 hm (by omega), dirent,
    getLE_setLE_same]
  exact Nat.mod_eq_of_lt (by omega)

theorem Built.direntName_entryAt (h : Built s din (contents files)) (h1 : Allocated s ROOTINO)
    {m k : Nat} {name : List UInt8} (hm : (rootEntries files)[m]? = some (k, name)) {i : Nat}
    (hi : i < DIRSIZ) : (direntName (entryAt s.img (dinodeAt s.img ROOTINO) m)).getD i 0 =
      name.getD i 0 := by
  have hD : DIRSIZ = 14 := rfl
  rw [direntName, List.getD_eq_getElem?_getD, List.getElem?_map, List.getElem?_range hi]
  show entryAt s.img (dinodeAt s.img ROOTINO) m (2 + i) = _
  rw [h.entryAt_eq h1 hm (by omega), dirent, setLE, if_neg (by omega), Nat.add_sub_cancel_left]

/-- A search passes over an entry if the names differ in what is kept of them. -/
theorem Built.passes_iff (h : Built s din (contents files)) (h1 : Allocated s ROOTINO)
    {m k : Nat} {name : List UInt8} (hm : (rootEntries files)[m]? = some (k, name))
    (hk : k < NINODES) (hk0 : k ≠ 0) (hz : 0 ∉ name) {nm : List UInt8} (hnm : 0 ∉ nm) :
    Passes nm (entryAt s.img (dinodeAt s.img ROOTINO) m) ↔ nm.take DIRSIZ ≠ name.take DIRSIZ := by
  rw [Passes, h.direntInum_entryAt h1 hm hk, namecmp, ne_eq,
    strncmp_eq_zero hnm hz fun i hi => h.direntName_entryAt h1 hm hi]
  exact ⟨fun hp => hp.resolve_left hk0, .inr⟩

/-! ## Names -/

theorem Input.shortname_sublist (f : Input) : f.shortname.Sublist f.base := by
  rw [Input.shortname]
  split
  · exact List.tail_sublist _
  · exact List.Sublist.refl _

theorem Input.base_sublist (f : Input) : f.base.Sublist f.path := by
  rw [Input.base]
  split
  · exact List.drop_sublist _ _
  · exact List.Sublist.refl _

theorem Input.zero_notMem (f : Input) : 0 ∉ f.shortname := fun h =>
  f.path_ne (f.base_sublist.subset (f.shortname_sublist.subset h))

/-- The files have names of their own. -/
structure Named (files : List Input) : Prop where
  noSlash : ∀ f ∈ files, SLASH ∉ f.base
  ne_nil : ∀ f ∈ files, f.shortname ≠ []
  ne_dot : ∀ f ∈ files, f.shortname ≠ dot
  ne_dotdot : ∀ f ∈ files, f.shortname ≠ dotdot
  distinct : (files.map fun f => f.shortname.take DIRSIZ).Nodup

theorem Named.slash_notMem (h : Named files) {f : Input} (hf : f ∈ files) :
    SLASH ∉ f.shortname := fun hs =>
  h.noSlash f hf (f.shortname_sublist.subset hs)

/-- A short name is not the beginning of a longer one of at most that length. -/
theorem take_ne_of_ne {a b : List UInt8} {n : Nat} (hb : b.length < n) (hne : a ≠ b) :
    a.take n ≠ b.take n := by
  intro h
  rw [List.take_of_length_le (Nat.le_of_lt hb)] at h
  have hlen : (a.take n).length = b.length := congrArg List.length h
  rw [List.length_take] at hlen
  exact hne (by rwa [List.take_of_length_le (by omega)] at h)

/-- The search for a file passes over the entries before its own. -/
theorem Built.passes_before (h : Built s din (contents files)) (h1 : Allocated s ROOTINO)
    (hn : Named files) (hlen : files.length + 2 ≤ NINODES) {t : Nat} {f : Input}
    (hf : files[t]? = some f) {m : Nat} (hm : m < t + 2) :
    Passes (f.shortname.take DIRSIZ) (entryAt s.img (dinodeAt s.img ROOTINO) m) := by
  have hmem := List.mem_of_getElem? hf
  have hz : 0 ∉ f.shortname.take DIRSIZ := fun hz => f.zero_notMem (List.mem_of_mem_take hz)
  have htake : (f.shortname.take DIRSIZ).take DIRSIZ = f.shortname.take DIRSIZ := by
    rw [List.take_take, Nat.min_self]
  match m, hm with
  | 0, _ =>
    rw [h.passes_iff h1 (m := 0) rfl (by decide) (by decide) (by decide) hz, htake]
    exact take_ne_of_ne (by decide) (hn.ne_dot f hmem)
  | 1, _ =>
    rw [h.passes_iff h1 (m := 1) rfl (by decide) (by decide) (by decide) hz, htake]
    exact take_ne_of_ne (by decide) (hn.ne_dotdot f hmem)
  | m + 2, hm =>
    have htlt : t < files.length := (List.getElem?_eq_some_iff.1 hf).1
    obtain ⟨g, hg⟩ : ∃ g, files[m]? = some g :=
      ⟨_, List.getElem?_eq_getElem (show m < files.length by omega)⟩
    have hentry : (rootEntries files)[m + 2]? = some (ROOTINO + 1 + m, g.shortname) := by
      rw [rootEntries, List.getElem?_cons_succ, List.getElem?_cons_succ, getElem?_numbered, hg]
      rfl
    have hR : ROOTINO = 1 := rfl
    rw [h.passes_iff h1 hentry (by omega) (by omega) g.zero_notMem hz, htake]
    intro heq
    have hinj := (List.nodup_iff_injective_getElem.1 hn.distinct)
    have ht' : t < (files.map fun f => f.shortname.take DIRSIZ).length := by
      rwa [List.length_map]
    have hm' : m < (files.map fun f => f.shortname.take DIRSIZ).length := by
      rw [List.length_map]
      omega
    have hget : ∀ {k : Nat} {x : Input} (hk : k < (files.map fun f => f.shortname.take
        DIRSIZ).length), files[k]? = some x →
        (files.map fun f => f.shortname.take DIRSIZ)[k] = x.shortname.take DIRSIZ := by
      intro k x hk hx
      refine Option.some.inj ?_
      rw [← List.getElem?_eq_getElem hk, List.getElem?_map, hx]
      rfl
    have := @hinj ⟨t, ht'⟩ ⟨m, hm'⟩ (by
      show (files.map fun f => f.shortname.take DIRSIZ)[t] =
        (files.map fun f => f.shortname.take DIRSIZ)[m]
      rw [hget ht' hf, hget hm' hg, heq])
    have := congrArg Fin.val this
    simp only at this
    omega

theorem Built.not_passes (h : Built s din (contents files)) (h1 : Allocated s ROOTINO)
    (hlen : files.length + 2 ≤ NINODES) {t : Nat} {f : Input} (hf : files[t]? = some f) :
    ¬ Passes (f.shortname.take DIRSIZ) (entryAt s.img (dinodeAt s.img ROOTINO) (t + 2)) ∧
      direntInum (entryAt s.img (dinodeAt s.img ROOTINO) (t + 2)) = t + 2 := by
  have htlt : t < files.length := (List.getElem?_eq_some_iff.1 hf).1
  have hz : 0 ∉ f.shortname.take DIRSIZ := fun hz => f.zero_notMem (List.mem_of_mem_take hz)
  have hR : ROOTINO = 1 := rfl
  have hentry : (rootEntries files)[t + 2]? = some (t + 2, f.shortname) := by
    rw [rootEntries, List.getElem?_cons_succ, List.getElem?_cons_succ, getElem?_numbered, hf,
      show t + 2 = ROOTINO + 1 + t by omega]
    rfl
  refine ⟨?_, h.direntInum_entryAt h1 hentry (by omega)⟩
  rw [h.passes_iff h1 hentry (by omega) (by omega) f.zero_notMem hz, List.take_take, Nat.min_self]
  exact fun hne => hne rfl

/-! ## The kernel on the image -/

variable {μ : Type}

theorem boot_root (disk : Nat → Block) (mem : μ) : (boot disk mem).itable ⟨0, by decide⟩ =
    { Inode.blank with dev := ROOTDEV, inum := ROOTINO, ref := 1 } := rfl

theorem boot_of_ne (disk : Nat → Block) (mem : μ) {j : Fin NINODE} (h : j ≠ ⟨0, by decide⟩) :
    (boot disk mem).itable j = Inode.blank :=
  Function.update_of_ne (f := fun _ => Inode.blank) h _

/-- Only the root directory is in the table. -/
theorem boot_eq_root (disk : Nat → Block) (mem : μ) {j : Fin NINODE}
    (h : 0 < ((boot disk mem).itable j).ref) : j = ⟨0, by decide⟩ := by
  by_contra hj
  rw [boot_of_ne disk mem hj] at h
  exact absurd h (by decide)

theorem boot_lock (disk : Nat → Block) (mem : μ) (j : Fin NINODE) :
    ((boot disk mem).itable j).lock = none := by
  by_cases hj : j = ⟨0, by decide⟩
  · rw [hj, boot_root]
    rfl
  · rw [boot_of_ne disk mem hj]
    rfl

theorem size_root (n : Nat) : n ≤ roundUp n := by
  have hB : BSIZE = 1024 := rfl
  rw [roundUp, hB]
  omega

/-- The kernel finds a file and reads it. -/
theorem Built.read (h : Built s din (contents files)) (hfi : s.freeinode = files.length + 2)
    (hn : Named files) {f : Input} (hf : f ∈ files) (M : Memory μ) (mem : μ) (p : Fin NPROC) :
    ∃ (i : Fin NINODE) (k k' : Fs.State μ) (buf : Bytes),
      namei sb M p (SLASH :: f.shortname) (Fs.boot s.img mem) = .ok (some i) k ∧
      ilock sb p i k = .ok () k' ∧ (k'.itable i).type = T_FILE ∧
      (k'.itable i).size = f.bytes.length ∧
      readi sb M p i .kernel 0 (k'.itable i).size k' = .ok ((f.bytes.length : Int), buf) k' ∧
      ∀ j, j < f.bytes.length → some (buf j) = f.bytes[j]? := by
  obtain ⟨t, ht⟩ := List.getElem?_of_mem hf
  have htlt : t < files.length := (List.getElem?_eq_some_iff.1 ht).1
  have hlen : files.length + 2 ≤ NINODES := hfi ▸ h.inodes
  have h1 : Allocated s ROOTINO := ⟨by decide, by rw [hfi, ROOTINO]; omega⟩
  have h2 : Allocated s (t + 2) := ⟨by omega, by omega⟩
  have hne : t + 2 ≠ ROOTINO := by
    rw [ROOTINO]
    omega
  obtain ⟨hmatch, hinum⟩ := h.not_passes h1 hlen ht
  have hbytes : contents files (t + 2) = f.bytes := by
    rw [contents_file files hne, fileBytes,
      if_pos (show ROOTINO + 1 ≤ t + 2 by rw [ROOTINO]; omega),
      show t + 2 - (ROOTINO + 1) = t from Nat.add_sub_cancel t 2, ht]
    rfl
  -- the root directory
  have hlroot : (contents files ROOTINO).length = 16 * (files.length + 2) := lengths_root files
  have hsroot : (dinodeAt s.img ROOTINO).size = roundUp (16 * (files.length + 2)) := by
    rw [h.size h1, if_pos rfl, hlroot]
  have hB : BSIZE = 1024 := rfl
  have hN : NINODES = 200 := rfl
  have hle := size_root (16 * (files.length + 2))
  have hlt : roundUp (16 * (files.length + 2)) < 2 ^ 32 := by
    rw [roundUp, hB]
    omega
  have hpres := h.present h1
  rw [hlroot] at hpres
  obtain ⟨i, k, hname, hdisk, hfree, hi⟩ := namei_slash sb M p (s := Fs.boot s.img mem)
    (d := dinodeAt s.img ROOTINO) (r := ⟨0, by decide⟩) (f := ⟨1, by decide⟩)
    (t := t + 2) (hn.ne_nil f hf) (hn.slash_notMem hf)
    (by rw [boot_root]; exact ⟨by decide, rfl, rfl⟩)
    (fun j hj => boot_eq_root s.img mem hj.1) (boot_lock s.img mem _)
    (by rw [boot_root]; rfl) (by rw [diskInode, boot_root]; rfl)
    (by rw [h.type_eq h1]; rfl) (by rw [hsroot]; exact hlt) (by rw [hsroot]; omega)
    (hpres.mono (by omega)) hmatch (fun m hm => h.passes_before h1 hn hlen ht hm)
    (by rw [boot_of_ne s.img mem (by decide)]; rfl) (by
      intro j hj
      rw [boot_eq_root s.img mem hj, boot_root]
      show ROOTINO ≠ direntInum (entryAt s.img (dinodeAt s.img ROOTINO) (t + 2))
      rw [hinum, ROOTINO]
      omega)
  -- the file
  have hkd : diskInode sb k i = dinodeAt s.img (t + 2) := by
    rw [diskInode, hi, hdisk]
    show getDinode (s.img (iblock (direntInum (entryAt s.img (dinodeAt s.img ROOTINO) (t + 2))) sb))
      (direntInum (entryAt s.img (dinodeAt s.img ROOTINO) (t + 2)) % IPB) = _
    rw [hinum]
    rfl
  have htype : (dinodeAt s.img (t + 2)).type = T_FILE := by
    rw [h.type_eq h2, typeOf, if_neg hne]
  have hsize : (dinodeAt s.img (t + 2)).size = f.bytes.length := by
    rw [h.size h2, if_neg hne, hbytes]
  have hlock := ilock_load sb p (s := k) (i := i) (by rw [hi])
    (by rw [hi]; exact boot_lock s.img mem i) (by rw [hi]) (by rw [hkd, htype]; decide)
  rw [hkd] at hlock
  set k' := k.setInode i ((k.itable i).loaded p (dinodeAt s.img (t + 2))) with hk'
  have hki : (k'.itable i).toDinode = dinodeAt s.img (t + 2) := by
    rw [hk', k.setInode_self]
    rfl
  have hkdisk : k'.disk = s.img := hdisk
  have hksize : (k'.itable i).size = f.bytes.length := (congrArg Dinode.size hki).trans hsize
  obtain ⟨U, hU⟩ := h.holds
  have hmax : f.bytes.length ≤ 274432 := by
    have := hU.length_le (t + 2)
    rwa [hbytes] at this
  have hpres2 := h.present h2
  rw [hbytes] at hpres2
  have hread : readi sb M p i .kernel 0 f.bytes.length k' = _ :=
    readi_present sb M p hki (by rw [hsize]; omega) (by rw [hsize, Nat.zero_add])
      (by rwa [Nat.zero_add, hkdisk])
  refine ⟨i, k, k', fun j => if j < f.bytes.length then
    byteAt k'.disk (dinodeAt s.img (t + 2)) (0 + j) else 0, hname, hlock, (congrArg Dinode.type hki).trans htype, hksize, ?_,
    fun j hj => ?_⟩
  · rw [hksize]
    exact hread
  · show some (if j < f.bytes.length then byteAt k'.disk (dinodeAt s.img (t + 2)) (0 + j) else 0) = _
    rw [if_pos hj, Nat.zero_add, hkdisk, List.getElem?_eq_getElem hj]
    refine congrArg some (h.byteAt_eq h2 ?_)
    rw [hbytes, List.getElem?_eq_getElem hj]

end

/-- **The kernel reads back what `mkfs` wrote.**  For files that fit and have names of their own,
`mkfs` succeeds, the kernel finds the superblock, and for each file `namei` finds an inode of a
file, whose `readi` from the beginning to the end gives the bytes of the file. -/
theorem mkfs_readback {μ : Type} {files : List Input} (hfits : Fits files) (hn : Named files)
    (M : Memory μ) (mem : μ) (p : Fin NPROC) :
    ∃ s, main files start = .ok () s ∧ readsb s.img = sb ∧ ∀ f ∈ files,
      ∃ (i : Fin NINODE) (k k' : Fs.State μ) (buf : Bytes),
        namei (readsb s.img) M p (SLASH :: f.shortname) (boot s.img mem) = .ok (some i) k ∧
        ilock (readsb s.img) p i k = .ok () k' ∧ (k'.itable i).type = T_FILE ∧
        (k'.itable i).size = f.bytes.length ∧
        readi (readsb s.img) M p i .kernel 0 (k'.itable i).size k' =
          .ok ((f.bytes.length : Int), buf) k' ∧
        ∀ j, j < f.bytes.length → some (buf j) = f.bytes[j]? := by
  obtain ⟨s, hs, hfi, din, hb⟩ := hfits.main hn.noSlash
  refine ⟨s, hs, hb.readsb, fun f hf => ?_⟩
  rw [hb.readsb]
  exact hb.read hfi hn hf M mem p

/-- The file `user/_a`. -/
def oneFile : Input where
  path := [117, 115, 101, 114, 47, 95, 97]
  reads := [[104, 105]]
  path_ne := by decide
  reads_le := by decide
  reads_pos := by decide

theorem mkfs_readback_one : ∃ s, main [oneFile] start = .ok () s ∧
    ∃ (i : Fin NINODE) (k : Fs.State Unit), namei (readsb s.img) forkMemory ⟨0, by decide⟩
      [SLASH, 97] (boot s.img ()) = .ok (some i) k := by
  have hfits : Fits [oneFile] := ⟨by decide, by decide, by decide⟩
  have hn : Named [oneFile] := ⟨by decide, by decide, by decide, by decide, by decide⟩
  obtain ⟨s, hs, -, hf⟩ := mkfs_readback hfits hn forkMemory () ⟨0, by decide⟩
  obtain ⟨i, k, _, _, hname, -⟩ := hf oneFile List.mem_cons_self
  exact ⟨s, hs, i, k, hname⟩

end Xv6.Mkfs
