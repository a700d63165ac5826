import Xv6.Base.SlotMap
import Xv6.Fs.Content

/-!
# A directory is a finite map

A directory is a file of slots of 16 bytes, each free or with a name and an inode number.  Names
are told apart by their first `DIRSIZ` bytes, up to a zero: `nameKey` is that part of a name, and
`entries` are the slots of a directory as an array of a `SlotMap`.  `dirlookup` searches this
array, `dirlink` inserts, and the write of `sys_unlink` erases.
-/

set_option autoImplicit false

namespace Xv6.Fs

/-! ## Names -/

/-- A string, up to its zero. -/
def cstr (l : List UInt8) : List UInt8 := l.takeWhile (· != 0)

/-- The part of a name that a directory tells apart. -/
def nameKey (name : List UInt8) : List UInt8 := cstr (name.take DIRSIZ)

theorem cstr_cons_zero (l : List UInt8) : cstr (0 :: l) = [] := rfl

theorem cstr_cons {a : UInt8} (h : a ≠ 0) (l : List UInt8) : cstr (a :: l) = a :: cstr l :=
  List.takeWhile_cons_of_pos (by simpa using h)

/-- `strncmp` compares strings up to a zero and to `n` bytes. -/
theorem strncmp_iff : ∀ {n : Nat} {p q : List UInt8},
    strncmp p q n = 0 ↔ cstr (p.take n) = cstr (q.take n)
  | 0, p, q => iff_of_true (by rw [strncmp]) rfl
  | n + 1, p, q => by
    have hhead : ∀ l : List UInt8, cstr (l.take (n + 1)) =
        if l.headD 0 = 0 then [] else l.headD 0 :: cstr (l.tail.take n) := by
      intro l
      cases l with
      | nil => rfl
      | cons a l =>
        rw [List.take_succ_cons]
        by_cases ha : a = 0
        · rw [ha, cstr_cons_zero]
          rfl
        · rw [cstr_cons ha]
          exact (if_neg ha).symm
    rw [strncmp, hhead p, hhead q]
    by_cases hp : p.headD 0 = 0
    · rw [if_neg fun h => h.1 hp, if_pos hp, hp]
      by_cases hq : q.headD 0 = 0
      · rw [hq, if_pos rfl]
        exact iff_of_true rfl rfl
      · rw [if_neg hq]
        have hne : (q.headD 0).toNat ≠ 0 := fun h => hq (UInt8.toNat_inj.1 h)
        have hz : (0 : UInt8).toNat = 0 := rfl
        exact iff_of_false (by omega) (by simp)
    · rw [if_neg hp]
      by_cases hpq : p.headD 0 = q.headD 0
      · rw [if_pos ⟨hp, hpq⟩, if_neg (hpq ▸ hp), hpq, strncmp_iff]
        exact ⟨fun h => by rw [h], fun h => (List.cons.inj h).2⟩
      · rw [if_neg fun h => hpq h.2]
        have hne : (p.headD 0).toNat ≠ (q.headD 0).toNat := fun h => hpq (UInt8.toNat_inj.1 h)
        refine iff_of_false (by omega) ?_
        split
        · simp
        · exact fun h => hpq (List.cons.inj h).1

/-- `strncpy` pads with zeroes. -/
theorem cstr_getD (l : List UInt8) : ∀ n : Nat,
    cstr ((List.range n).map fun j => l.getD j 0) = cstr (l.take n) := by
  induction l with
  | nil =>
    intro n
    cases n with
    | zero => rfl
    | succ n =>
      rw [List.range_succ_eq_map]
      rfl
  | cons a l ih =>
    intro n
    cases n with
    | zero => rfl
    | succ n =>
      rw [List.range_succ_eq_map, List.map_cons, List.map_map, List.take_succ_cons]
      show cstr (a :: (List.range n).map fun j => l.getD j 0) = _
      by_cases ha : a = 0
      · rw [ha, cstr_cons_zero, cstr_cons_zero]
      · rw [cstr_cons ha, cstr_cons ha, ih]

/-! ## Slots -/

/-- What a directory entry holds. -/
def direntSlot (de : Bytes) : Option (List UInt8 × Nat) :=
  if direntInum de = 0 then none else some (cstr (direntName de), direntInum de)

/-- A directory entry is its 16 bytes. -/
theorem direntSlot_congr {de de' : Bytes} (h : ∀ j, j < 16 → de j = de' j) :
    direntSlot de = direntSlot de' := by
  have hinum : direntInum de = direntInum de' :=
    getLE_congr fun j _ hj => h j (by omega)
  have hname : direntName de = direntName de' := by
    refine List.map_congr_left fun j hj => h (2 + j) ?_
    have hlt : j < 14 := List.mem_range.1 hj
    omega
  rw [direntSlot, direntSlot, hinum, hname]

theorem direntSlot_zero : direntSlot (fun _ => 0) = none := if_pos (getLE_zero 2 0)

/-- What `strncpy` and the store of the number leave in an entry: the name, cut off, and all of the
number. -/
theorem direntSlot_dirent {name : List UInt8} {inum : Nat} (h0 : inum ≠ 0) (hlt : inum < 2 ^ 16) :
    direntSlot (dirent inum name) = some (nameKey name, inum) := by
  have hinum : direntInum (dirent inum name) = inum := by
    rw [direntInum, dirent, getLE_setLE_same]
    exact Nat.mod_eq_of_lt hlt
  have hname : direntName (dirent inum name) = (List.range DIRSIZ).map fun j => name.getD j 0 := by
    refine List.map_congr_left fun j _ => ?_
    rw [dirent, setLE, if_neg (by omega), Nat.add_sub_cancel_left]
  rw [direntSlot, hinum, if_neg h0, hname, nameKey, cstr_getD]

section

variable {μ : Type} {s s' : State μ} {sb : Superblock} {M : Memory μ} {p : Fin NPROC}
  {dp : Fin NINODE} {name : List UInt8} {t : Nat}

/-- The slots of the directory that an inode stands for. -/
def dirEntries (disk : Nat → Block) (d : Dinode) : SlotMap.Slots (List UInt8) Nat :=
  (List.range (d.size / 16)).map fun k => direntSlot (entryAt disk d k)

/-- The slots of the directory in the table. -/
def State.entries (s : State μ) (dp : Fin NINODE) : SlotMap.Slots (List UInt8) Nat :=
  dirEntries s.disk (s.itable dp).toDinode

/-- Entry `dp` of the table is a directory of a consistent file system. -/
structure Directory (sb : Superblock) (s : State μ) (dp : Fin NINODE) : Prop where
  consistent : Consistent sb s
  ref : 0 < (s.itable dp).ref
  valid : (s.itable dp).valid = true
  type : (s.itable dp).type = T_DIR
  size : (s.itable dp).size % 16 = 0

theorem State.length_entries (s : State μ) (dp : Fin NINODE) :
    (s.entries dp).length = (s.itable dp).size / 16 := by
  rw [State.entries, dirEntries, List.length_map, List.length_range]

theorem State.getElem?_entries (s : State μ) (dp : Fin NINODE) (k : Nat) : (s.entries dp)[k]? =
    if k < (s.itable dp).size / 16 then
      some (direntSlot (entryAt s.disk (s.itable dp).toDinode k)) else none := by
  rw [State.entries, dirEntries, List.getElem?_map]
  split
  · next h => rw [List.getElem?_range h, Option.map_some]
  · next h => rw [List.getElem?_eq_none (by rw [List.length_range]; omega), Option.map_none]

theorem State.drop_entries {k : Nat} (h : k < (s.itable dp).size / 16) : (s.entries dp).drop k =
    direntSlot (entryAt s.disk (s.itable dp).toDinode k) :: (s.entries dp).drop (k + 1) := by
  have hlt : k < (s.entries dp).length := by rwa [State.length_entries]
  have hget := s.getElem?_entries dp k
  rw [if_pos h, List.getElem?_eq_getElem hlt] at hget
  rw [List.drop_eq_getElem_cons hlt, Option.some_inj.1 hget]

theorem State.entries_congr (hdisk : s'.disk = s.disk)
    (hd : (s'.itable dp).toDinode = (s.itable dp).toDinode) : s'.entries dp = s.entries dp := by
  rw [State.entries, State.entries, hdisk, hd]

/-- The blocks of a directory are there. -/
theorem Directory.present (h : Directory sb s dp) :
    Present s.disk (s.itable dp).toDinode (s.itable dp).size := by
  have hlive := (h.consistent.inTable h.ref h.valid).live
  have hp := h.consistent.blocks.present _ hlive
  rwa [h.consistent.dinode h.ref h.valid] at hp

/-- The loops over a directory read its entries. -/
theorem Directory.readi (h : Directory sb s dp) {k : Nat} (hk : k < (s.itable dp).size / 16) :
    readi sb M p dp .kernel (16 * k) 16 s =
      .ok ((16 : Int), entryAt s.disk (s.itable dp).toDinode k) s := by
  have hlive := (h.consistent.inTable h.ref h.valid).live
  have hfit := h.consistent.blocks.fits _ hlive
  rw [h.consistent.dinode h.ref h.valid] at hfit
  exact readi_present sb M p rfl hfit.size (by omega) (h.present.mono (by omega))

/-! ## `dirlookup` -/

theorem dirlookupFrom_eq (h : Directory sb s dp) : ∀ n k, n + k = (s.itable dp).size / 16 →
    dirlookupFrom sb M p dp name n (16 * k) s =
      match SlotMap.find (nameKey name) ((s.entries dp).drop k) k with
      | none => .ok none s
      | some (t, inum) => (do
          let i ← iget (s.itable dp).dev inum
          return some (i, 16 * t) : Kern (State μ) (Option (Fin NINODE × Nat))) s
  | 0, k, hk => by
    rw [List.drop_eq_nil_of_le (by rw [State.length_entries]; omega)]
    rfl
  | n + 1, k, hk => by
    have hread : Fs.readi sb M p dp .kernel (16 * k) 16 s = _ := h.readi (by omega)
    have hrest := dirlookupFrom_eq h n (k + 1) (by omega)
    have hcmp : namecmp name (direntName (entryAt s.disk (s.itable dp).toDinode k)) = 0 ↔
        nameKey name = cstr (direntName (entryAt s.disk (s.itable dp).toDinode k)) := by
      rw [namecmp, strncmp_iff, nameKey, List.take_of_length_le (l := direntName _)]
      rw [direntName, List.length_map, List.length_range]
    rw [State.drop_entries (by omega), dirlookupFrom, bind_of_ok hread]
    show (if (16 : Int) ≠ 16 then _ else _ : Kern _ _) s = _
    rw [if_neg (by decide), direntSlot]
    split
    · exact hrest
    · rw [SlotMap.find]
      by_cases hk : nameKey name = cstr (direntName (entryAt s.disk (s.itable dp).toDinode k))
      · rw [if_pos (hcmp.2 hk), if_pos hk]
        rfl
      · rw [if_neg fun h => hk (hcmp.1 h), if_neg hk]
        exact hrest

/-- `dirlookup` is a search of the entries. -/
theorem Directory.dirlookup_eq (h : Directory sb s dp) (name : List UInt8) :
    dirlookup sb M p dp name s =
      match SlotMap.find (nameKey name) (s.entries dp) 0 with
      | none => .ok none s
      | some (t, inum) => (do
          let i ← iget (s.itable dp).dev inum
          return some (i, 16 * t) : Kern (State μ) (Option (Fin NINODE × Nat))) s := by
  have hsize := h.size
  rw [dirlookup, bind_of_ok (show getInode dp s = .ok (s.itable dp) s from rfl),
    if_neg fun hne => hne h.type]
  exact dirlookupFrom_eq h _ 0 (by omega)

/-! ## `iget` -/

/-- What `iget` does: the inode has entry `i` of the table, and one more reference. -/
inductive Got (dev inum : Nat) (s : State μ) (i : Fin NINODE) : State μ → Prop
  | found (href : 0 < (s.itable i).ref) (hdev : (s.itable i).dev = dev)
      (hinum : (s.itable i).inum = inum) :
      Got dev inum s i (s.setInode i { s.itable i with ref := (s.itable i).ref + 1 })
  | fresh (href : (s.itable i).ref = 0)
      (hnone : ∀ j, ¬ (0 < (s.itable j).ref ∧ (s.itable j).dev = dev ∧ (s.itable j).inum = inum)) :
      Got dev inum s i (s.setInode i
        { s.itable i with dev := dev, inum := inum, ref := 1, valid := false })

/-- The table has no entry for the inode: others have them all. -/
structure TableFull (dev inum : Nat) (s : State μ) : Prop where
  full : ∀ i, (s.itable i).ref ≠ 0
  none : ∀ i, ¬ (0 < (s.itable i).ref ∧ (s.itable i).dev = dev ∧ (s.itable i).inum = inum)

theorem iget_spec (dev inum : Nat) : wp (iget dev inum) (fun i s' => Got dev inum s i s')
    (fun e s' => e = .panic "iget: no inodes" ∧ s' = s ∧ TableFull dev inum s) s := by
  rw [iget, wp_bind, wp_get]
  split
  · next i hi =>
    have hfound := List.find?_some hi
    obtain ⟨h1, h2, h3⟩ := of_decide_eq_true hfound
    rw [wp_bind, wp_set, wp_pure]
    exact .found h1 h2 h3
  · next hnone =>
    have hno : ∀ j, ¬ (0 < (s.itable j).ref ∧ (s.itable j).dev = dev ∧ (s.itable j).inum = inum) :=
      fun j hj => List.find?_eq_none.1 hnone j (List.mem_finRange j) (decide_eq_true hj)
    split
    · next i hi =>
      have hfree := List.find?_some hi
      rw [wp_bind, wp_set, wp_pure]
      exact .fresh (of_decide_eq_true hfree) hno
    · next hfull =>
      rw [wp_panic]
      exact ⟨rfl, rfl, fun i hi =>
        List.find?_eq_none.1 hfull i (List.mem_finRange i) (decide_eq_true hi), hno⟩

theorem Got.inode {dev inum : Nat} {i : Fin NINODE} (h : Got dev inum s i s') :
    (s'.itable i).dev = dev ∧ (s'.itable i).inum = inum ∧ 0 < (s'.itable i).ref := by
  cases h with
  | found href hdev hinum =>
    rw [State.setInode_self]
    exact ⟨hdev, hinum, Int.lt_add_one_of_le href.le⟩
  | fresh href hnone =>
    rw [State.setInode_self]
    exact ⟨rfl, rfl, Int.one_pos⟩

theorem Got.disk {dev inum : Nat} {i : Fin NINODE} (h : Got dev inum s i s') :
    s'.disk = s.disk := by
  cases h <;> rfl

/-- An inode that is in use stays as it was. -/
theorem Got.dinode {dev inum : Nat} {i j : Fin NINODE} (h : Got dev inum s i s')
    (hj : 0 < (s.itable j).ref) : (s'.itable j).toDinode = (s.itable j).toDinode := by
  by_cases hji : j = i
  · subst hji
    cases h with
    | found => rw [State.setInode_self]
    | fresh href =>
      rw [href] at hj
      exact absurd hj (Int.lt_irrefl 0)
  · cases h <;> rw [State.setInode_of_ne _ hji]

/-- `iput` takes the reference of `iget` back. -/
theorem Got.iput {dev inum : Nat} {i : Fin NINODE} (h : Got dev inum s i s') :
    iput sb p i s' = .ok () (s'.setInode i { s'.itable i with ref := (s'.itable i).ref - 1 }) := by
  have hno : ¬ ((s'.itable i).ref = 1 ∧ (s'.itable i).valid ∧ (s'.itable i).nlink = 0) := by
    cases h with
    | found href =>
      rw [State.setInode_self]
      rintro ⟨h1, -⟩
      have h1 : (s.itable i).ref + 1 = 1 := h1
      omega
    | fresh =>
      rw [State.setInode_self]
      rintro ⟨-, h2, -⟩
      cases h2
  rw [Fs.iput, bind_of_ok (show getInode i s' = .ok (s'.itable i) s' from rfl), if_neg hno]
  rfl

/-- A change to entries that are not in use. -/
theorem Consistent.unused (h : Consistent sb s) (hdisk : s'.disk = s.disk)
    (hsame : ∀ j, 0 < (s.itable j).ref ∨ 0 < (s'.itable j).ref → s'.itable j = s.itable j) :
    Consistent sb s' := by
  have hin : ∀ j, 0 < (s'.itable j).ref → 0 < (s.itable j).ref ∧ s'.itable j = s.itable j :=
    fun j hj => by
      have he := hsame j (.inr hj)
      rw [he] at hj
      exact ⟨hj, he⟩
  have hentry : ∀ j, s'.entry j = s.entry j := by
    intro j
    rw [State.entry, State.entry]
    congr 1
    funext i
    refine decide_eq_decide.2 ⟨fun hi => ?_, fun hi => ?_⟩
    · rwa [(hin i hi.1).2] at hi
    · rwa [hsame i (.inl hi.1)]
  have hdinode : s'.dinode sb = s.dinode sb := by
    funext j
    rw [State.dinode, State.dinode, hentry, hdisk]
    cases he : s.entry j with
    | none => rfl
    | some i =>
      show (s'.itable i).toDinode = (s.itable i).toDinode
      rw [hsame i (.inl (State.entry_some he).1)]
  refine ⟨h.layout, fun i i' hi hi' heq => ?_, fun i hi => ?_, fun i hi hv => ?_, ?_⟩
  · obtain ⟨h1, h2⟩ := hin i hi
    obtain ⟨h3, h4⟩ := hin i' hi'
    rw [h2, h4] at heq
    exact h.unique i i' h1 h3 heq
  · obtain ⟨h1, h2⟩ := hin i hi
    rw [h2]
    exact h.inum i h1
  · obtain ⟨h1, h2⟩ := hin i hi
    rw [h2] at hv ⊢
    exact h.live i h1 hv
  · rw [hdisk, hdinode]
    exact h.blocks

/-- `iget` and `iput` leave the inodes in use alone. -/
theorem Got.put {dev inum : Nat} {i : Fin NINODE} (h : Got dev inum s i s') {s'' : State μ}
    (hs : s'' = s'.setInode i { s'.itable i with ref := (s'.itable i).ref - 1 }) {j : Fin NINODE}
    (hj : 0 < (s.itable j).ref ∨ 0 < (s''.itable j).ref) : s''.itable j = s.itable j := by
  by_cases hji : j = i
  · subst hji
    rw [hs, State.setInode_self] at hj ⊢
    cases h with
    | found =>
      rw [State.setInode_self, Int.add_sub_cancel]
    | fresh href =>
      rw [State.setInode_self, href] at hj
      have hj : (0 : Int) < 0 ∨ (0 : Int) < 1 - 1 := hj
      exact absurd hj (by decide)
  · rw [hs, State.setInode_of_ne _ hji]
    cases h <;> rw [State.setInode_of_ne _ hji]

/-- What `dirlookup` does if the name is there. -/
theorem Directory.dirlookup_found (h : Directory sb s dp) (hd : SlotMap.Distinct (s.entries dp))
    {inum : Nat} (hat : SlotMap.At (s.entries dp) t (nameKey name) inum) :
    wp (dirlookup sb M p dp name)
      (fun r s' => ∃ i, r = some (i, 16 * t) ∧ Got (s.itable dp).dev inum s i s')
      (fun e s' => e = .panic "iget: no inodes" ∧ s' = s ∧ TableFull (s.itable dp).dev inum s)
      s := by
  have hlook := h.dirlookup_eq (M := M) (p := p) name
  rw [hd.find_iff.2 hat] at hlook
  refine (wp_congr hlook).2 (wp_bind.2 (wp_mono (iget_spec _ _) (fun i s' hg => ?_) fun _ _ he => he))
  exact (wp_pure _).2 ⟨i, rfl, hg⟩

/-- `dirlookup` of a name that is not there. -/
theorem Directory.dirlookup_none (h : Directory sb s dp)
    (hno : ¬ SlotMap.Has (s.entries dp) (nameKey name)) :
    dirlookup sb M p dp name s = .ok none s := by
  have hlook := h.dirlookup_eq (M := M) (p := p) name
  rwa [SlotMap.find_none.2 hno] at hlook

/-! ## `dirlink` -/

theorem emptyDirent_eq (h : Directory sb s dp) : ∀ n k, n + k = (s.itable dp).size / 16 →
    emptyDirent sb M p dp n (16 * k) s = .ok (16 * (k + SlotMap.free ((s.entries dp).drop k))) s
  | 0, k, hk => by
    rw [List.drop_eq_nil_of_le (by rw [State.length_entries]; omega)]
    rfl
  | n + 1, k, hk => by
    have hread : Fs.readi sb M p dp .kernel (16 * k) 16 s = _ := h.readi (by omega)
    have hrest := emptyDirent_eq h n (k + 1) (by omega)
    rw [State.drop_entries (by omega), emptyDirent, bind_of_ok hread]
    show (if (16 : Int) ≠ 16 then _ else _ : Kern _ _) s = _
    rw [if_neg (by decide), direntSlot]
    split
    · rfl
    · rw [SlotMap.free, Nat.add_comm (SlotMap.free _) 1, ← Nat.add_assoc]
      exact hrest

/-- What a write of one entry leaves of the directory. -/
theorem Written.entries {buf : Bytes} (h : Written sb dp (16 * t) 16 buf s s')
    (hd : Directory sb s dp) (ht : t ≤ (s.entries dp).length) :
    Directory sb s' dp ∧ s'.entries dp = SlotMap.put (s.entries dp) t (direntSlot buf) := by
  have hsize := hd.size
  have hsize' := h.size
  rw [State.length_entries] at ht
  refine ⟨⟨h.consistent, by rw [h.ref]; exact hd.ref, by rw [h.valid]; exact hd.valid,
    by rw [h.type]; exact hd.type, by rw [hsize']; omega⟩, List.ext_getElem? fun k => ?_⟩
  rw [SlotMap.getElem?_put (by rw [State.length_entries]; exact ht), State.getElem?_entries,
    State.getElem?_entries, hsize']
  by_cases hk : k = t
  · rw [if_pos hk, if_pos (by omega), hk]
    refine congrArg some (direntSlot_congr fun j hj => ?_)
    rw [entryAt, if_pos hj, h.new _ (by omega) (by omega), Nat.add_sub_cancel_left]
  · rw [if_neg hk]
    refine if_ctx_congr (by omega) (fun hlt => ?_) fun _ => rfl
    refine congrArg some (direntSlot_congr fun j hj => ?_)
    rw [entryAt, entryAt, if_pos hj, if_pos hj, h.old _ (by omega) (by omega)]

/-- A write of nothing leaves the directory as it was. -/
theorem Written.entries_same {off : Nat} {buf : Bytes} (h : Written sb dp off 0 buf s s')
    (hd : Directory sb s dp) (hoff : off ≤ (s.itable dp).size) :
    Directory sb s' dp ∧ s'.entries dp = s.entries dp := by
  have hsize := hd.size
  have hsize' : (s'.itable dp).size = (s.itable dp).size := by
    rw [h.size]
    omega
  refine ⟨⟨h.consistent, by rw [h.ref]; exact hd.ref, by rw [h.valid]; exact hd.valid,
    by rw [h.type]; exact hd.type, by rw [hsize']; exact hsize⟩, List.ext_getElem? fun k => ?_⟩
  rw [State.getElem?_entries, State.getElem?_entries, hsize']
  refine if_ctx_congr Iff.rfl (fun hlt => ?_) fun _ => rfl
  refine congrArg some (direntSlot_congr fun j hj => ?_)
  rw [entryAt, entryAt, if_pos hj, if_pos hj, h.old _ (by omega) (by omega)]

/-- There is no slot for another entry, and none can be made: the directory has reached its greatest
size, or the block that is needed for it cannot be had. -/
structure NoSlot (sb : Superblock) (s : State μ) (dp : Fin NINODE) : Prop where
  full : SlotMap.free (s.entries dp) = (s.entries dp).length
  cannot : (s.itable dp).size = MAXFILE * BSIZE ∨
    blockAt s.disk (s.itable dp).toDinode ((s.itable dp).size / BSIZE) = 0 ∧
      NoBlock sb s.disk (s.itable dp).toDinode ((s.itable dp).size / BSIZE)

theorem Directory.size_le (h : Directory sb s dp) : (s.itable dp).size ≤ MAXFILE * BSIZE := by
  by_contra hgt
  exact absurd (h.present MAXFILE (not_le.1 hgt)).1 (lt_irrefl _)

/-- A write of one entry of a directory, in a slot or behind the last one. -/
theorem Directory.write (h : Directory sb s dp) (ht : t ≤ (s.entries dp).length)
    (hmax : 16 * t + 16 ≤ MAXFILE * BSIZE) (hroom : LogRoom sb s 7) (buf : Bytes) :
    wp (writei sb M p dp (.kernel buf) (16 * t) 16) (fun r s' => Directory sb s' dp ∧
      ((blockAt s.disk (s.itable dp).toDinode (16 * t / BSIZE) = 0 ∧
          NoBlock sb s.disk (s.itable dp).toDinode (16 * t / BSIZE)) ∧
        r = 0 ∧ s'.entries dp = s.entries dp ∨
      ¬ (blockAt s.disk (s.itable dp).toDinode (16 * t / BSIZE) = 0 ∧
          NoBlock sb s.disk (s.itable dp).toDinode (16 * t / BSIZE)) ∧
        r = 16 ∧ s'.entries dp = SlotMap.put (s.entries dp) t (direntSlot buf)))
      (fun _ _ => False) s := by
  have hin := h.consistent.inTable h.ref h.valid
  have hsize : (s.dinode sb (s.itable dp).inum).size = (s.itable dp).size :=
    congrArg Dinode.size hin.inode.symm
  have hlen : t ≤ (s.itable dp).size / 16 := by rwa [State.length_entries] at ht
  have hoff : 16 * t ≤ (s.itable dp).size := by omega
  have hb : 16 * t % BSIZE + 16 ≤ BSIZE := by
    rw [BSIZE]
    omega
  refine wp_mono (writei_block hin (by decide) hb (by rw [hsize]; exact hoff) hmax)
    (fun r s' hr => ?_) fun _ _ hr => hr hroom
  obtain ⟨t', s1, d, rfl, hw, hu, hcase, hwhy⟩ := hr
  rw [hsize] at hu
  rw [← hin.inode] at hwhy
  have hwr := h.consistent.written h.ref h.valid hoff hmax hw hu
  by_cases h0 : t' = 0
  · subst h0
    obtain ⟨hd, he⟩ := hwr.entries_same h hoff
    exact ⟨hd, .inl ⟨hwhy.1 rfl, rfl, he⟩⟩
  · obtain rfl : t' = 16 := hcase.resolve_right h0
    obtain ⟨hd, he⟩ := hwr.entries h ht
    exact ⟨hd, .inr ⟨fun hx => h0 (hwhy.2 hx), rfl, he⟩⟩

/-- `dirlink` of a name that is not there. -/
theorem Directory.link (h : Directory sb s dp) {inum : Nat} (h0 : inum ≠ 0) (hlt : inum < 2 ^ 16)
    (hroom : LogRoom sb s 7) :
    wp (do
      let ip ← getInode dp
      let off ← emptyDirent sb M p dp ((ip.size + 15) / 16) 0
      let r ← writei sb M p dp (.kernel (dirent inum name)) off 16
      if r ≠ 16 then return -1 else return 0 : Kern (State μ) Int)
      (fun r s' => Directory sb s' dp ∧
        (NoSlot sb s dp ∧ r = -1 ∧ s'.entries dp = s.entries dp ∨
          ¬ NoSlot sb s dp ∧ r = 0 ∧
            s'.entries dp = SlotMap.insert (s.entries dp) (nameKey name) inum))
      (fun _ _ => False) s := by
  have hsize := h.size
  have hsle := h.size_le
  have hmul : MAXFILE * BSIZE = 274432 := by decide
  have hfree := SlotMap.free_le (s.entries dp)
  have hlen := s.length_entries dp
  have hoff : emptyDirent sb M p dp (((s.itable dp).size + 15) / 16) 0 s =
      .ok (16 * SlotMap.free (s.entries dp)) s := by
    have := emptyDirent_eq (M := M) (p := p) h (((s.itable dp).size + 15) / 16) 0 (by omega)
    rwa [Nat.zero_add] at this
  rw [wp_bind, getInode, wp_bind, wp_get, wp_pure]
  refine wp_bind.2 ((wp_of_ok hoff).2 ?_)
  by_cases hmax : 16 * SlotMap.free (s.entries dp) + 16 ≤ MAXFILE * BSIZE
  · refine wp_bind.2 (wp_mono (h.write hfree hmax hroom _) (fun r s' hr => ?_) fun _ _ hf => hf)
    obtain ⟨hd, hcase⟩ := hr
    -- the write is for a new block only at the end of the directory
    have hiff : (blockAt s.disk (s.itable dp).toDinode (16 * SlotMap.free (s.entries dp) / BSIZE) = 0 ∧
        NoBlock sb s.disk (s.itable dp).toDinode (16 * SlotMap.free (s.entries dp) / BSIZE)) ↔
        NoSlot sb s dp := by
      constructor
      · intro hno
        have hend : SlotMap.free (s.entries dp) = (s.entries dp).length := by
          by_contra hne
          refine (h.present (16 * SlotMap.free (s.entries dp) / BSIZE) ?_).2 hno.1
          exact (Nat.div_mul_le_self _ _).trans_lt (by omega)
        have heq : 16 * SlotMap.free (s.entries dp) = (s.itable dp).size := by omega
        rw [heq] at hno
        exact ⟨hend, .inr hno⟩
      · rintro ⟨hend, hcannot⟩
        have heq : 16 * SlotMap.free (s.entries dp) = (s.itable dp).size := by omega
        rw [heq]
        exact hcannot.resolve_left (by omega)
    rcases hcase with ⟨hno, rfl, he⟩ | ⟨hno, rfl, he⟩
    · rw [if_pos (by decide), wp_pure]
      exact ⟨hd, .inl ⟨hiff.1 hno, rfl, he⟩⟩
    · rw [if_neg (by decide), wp_pure]
      refine ⟨hd, .inr ⟨fun hx => hno (hiff.2 hx), rfl, ?_⟩⟩
      rw [he, direntSlot_dirent h0 hlt]
      rfl
  · have hfull : (s.itable dp).size = MAXFILE * BSIZE := by omega
    have hrun : writei sb M p dp (.kernel (dirent inum name)) (16 * SlotMap.free (s.entries dp)) 16 s =
        .ok (-1) s := by
      rw [writei, bind_of_ok (show getInode dp s = .ok (s.itable dp) s from rfl),
        if_neg (by omega), if_pos (by omega)]
      rfl
    refine wp_bind.2 ((wp_of_ok hrun).2 ?_)
    rw [if_pos (by decide), wp_pure]
    exact ⟨h, .inl ⟨⟨by omega, .inl hfull⟩, rfl, rfl⟩⟩

/-- **What `dirlink` does to a directory.** -/
theorem Directory.dirlink (h : Directory sb s dp) (hd : SlotMap.Distinct (s.entries dp)) {inum : Nat}
    (h0 : inum ≠ 0) (hlt : inum < 2 ^ 16) (hroom : LogRoom sb s 7)
    (htable : ∀ t ino, SlotMap.At (s.entries dp) t (nameKey name) ino →
      ¬ TableFull (s.itable dp).dev ino s) :
    wp (dirlink sb M p dp name inum)
      (fun r s' => Directory sb s' dp ∧
        ((SlotMap.Has (s.entries dp) (nameKey name) ∨ NoSlot sb s dp) ∧ r = -1 ∧
            s'.entries dp = s.entries dp ∨
          ¬ (SlotMap.Has (s.entries dp) (nameKey name) ∨ NoSlot sb s dp) ∧ r = 0 ∧
            s'.entries dp = SlotMap.insert (s.entries dp) (nameKey name) inum))
      (fun _ _ => False) s := by
  rw [Fs.dirlink, wp_bind]
  by_cases hhas : SlotMap.Has (s.entries dp) (nameKey name)
  · obtain ⟨t, ino, hat⟩ := hhas
    refine wp_mono (h.dirlookup_found hd hat) (fun r s1 hr => ?_) fun _ _ he => htable t ino hat he.2.2
    obtain ⟨i, rfl, hgot⟩ := hr
    refine wp_bind.2 ((wp_of_ok hgot.iput).2 ?_)
    rw [wp_pure]
    -- the table has the references it had
    obtain ⟨s2, hs2⟩ : ∃ s2, s2 = s1.setInode i
      { s1.itable i with ref := (s1.itable i).ref - 1 } := ⟨_, rfl⟩
    rw [← hs2]
    have hdp : s2.itable dp = s.itable dp := hgot.put hs2 (.inl h.ref)
    have hdisk : s2.disk = s.disk := by
      rw [hs2]
      exact hgot.disk
    refine ⟨⟨h.consistent.unused hdisk fun j hj => hgot.put hs2 hj, ?_, ?_, ?_, ?_⟩,
      .inl ⟨.inl ⟨t, ino, hat⟩, rfl, State.entries_congr hdisk (by rw [hdp])⟩⟩
    · rw [hdp]
      exact h.ref
    · rw [hdp]
      exact h.valid
    · rw [hdp]
      exact h.type
    · rw [hdp]
      exact h.size
  · refine (wp_of_ok (h.dirlookup_none hhas)).2 (wp_mono (h.link h0 hlt hroom) (fun r s' hr => ?_)
      fun _ _ hx => hx)
    refine ⟨hr.1, hr.2.imp (fun hx => ⟨.inr hx.1, hx.2⟩) fun hx => ⟨?_, hx.2⟩⟩
    exact fun hor => hor.elim hhas hx.1

/-! ## The map -/

/-- **A directory is a finite map** from names, as far as their first `DIRSIZ` bytes tell them
apart, to inode numbers.

`dirlookup` finds a name that is there, with its number and its offset, unless there is no entry of
the inode table left for the inode, when `iget` panics; and it finds no other.

`dirlink` fails and changes no entry if the name is there, or if there is no free slot and none can
be had at the end of the directory; otherwise it adds the name with its number to the map and
nothing else, in the first free slot.

The write of `sys_unlink` removes the name from the map and nothing else.

All of them leave a directory whose names are distinct. -/
theorem directory_is_map (h : Directory sb s dp) (hd : SlotMap.Distinct (s.entries dp))
    (name : List UInt8) :
    ((¬ SlotMap.Has (s.entries dp) (nameKey name) → dirlookup sb M p dp name s = .ok none s) ∧
      ∀ t inum, SlotMap.At (s.entries dp) t (nameKey name) inum →
        (∃ i s', dirlookup sb M p dp name s = .ok (some (i, 16 * t)) s' ∧
          (s'.itable i).dev = (s.itable dp).dev ∧ (s'.itable i).inum = inum ∧
          s'.entries dp = s.entries dp) ∨
        TableFull (s.itable dp).dev inum s ∧
          dirlookup sb M p dp name s = .error (.panic "iget: no inodes") s) ∧
    (∀ inum, 1 ≤ inum → inum ≤ 65535 → LogRoom sb s 7 →
      (∀ t ino, SlotMap.At (s.entries dp) t (nameKey name) ino →
        ¬ TableFull (s.itable dp).dev ino s) →
      ∃ r s', dirlink sb M p dp name inum s = .ok r s' ∧ Directory sb s' dp ∧
        SlotMap.Distinct (s'.entries dp) ∧
        (SlotMap.Has (s.entries dp) (nameKey name) ∨ NoSlot sb s dp →
          r = -1 ∧ s'.entries dp = s.entries dp) ∧
        (¬ SlotMap.Has (s.entries dp) (nameKey name) → ¬ NoSlot sb s dp → r = 0 ∧
          s'.entries dp = SlotMap.insert (s.entries dp) (nameKey name) inum ∧
          ∀ k, SlotMap.lookup (s'.entries dp) k =
            if k = nameKey name then some inum else SlotMap.lookup (s.entries dp) k)) ∧
    ∀ t inum, SlotMap.At (s.entries dp) t (nameKey name) inum → LogRoom sb s 7 →
      ∃ s', writei sb M p dp (.kernel fun _ => 0) (16 * t) 16 s = .ok 16 s' ∧
        Directory sb s' dp ∧ SlotMap.Distinct (s'.entries dp) ∧
        ∀ k, SlotMap.lookup (s'.entries dp) k =
          if k = nameKey name then none else SlotMap.lookup (s.entries dp) k := by
  refine ⟨⟨h.dirlookup_none, fun t inum hat => ?_⟩, fun inum h0 hlt hroom htable => ?_,
    fun t inum hat hroom => ?_⟩
  · have hwp := h.dirlookup_found (M := M) (p := p) hd hat
    cases hrun : dirlookup sb M p dp name s with
    | ok r s' =>
      obtain ⟨i, rfl, hgot⟩ := hwp.ok hrun
      obtain ⟨h1, h2, -⟩ := hgot.inode
      exact .inl ⟨i, s', rfl, h1, h2, State.entries_congr hgot.disk (hgot.dinode h.ref)⟩
    | error e s' =>
      obtain ⟨rfl, rfl, hfull⟩ := hwp.error hrun
      exact .inr ⟨hfull, rfl⟩
  · have hpos : inum ≠ 0 := by omega
    have hword : inum < 2 ^ 16 := by omega
    obtain ⟨r, s', hrun, hdir, hcase⟩ :=
      (h.dirlink (M := M) (p := p) hd hpos hword hroom htable).exists_ok
    refine ⟨r, s', hrun, hdir, ?_⟩
    rcases hcase with ⟨hfail, hr, he⟩ | ⟨hok, hr, he⟩
    · refine ⟨by rw [he]; exact hd, fun _ => ⟨hr, he⟩, fun h1 h2 => ?_⟩
      exact absurd hfail fun hor => hor.elim h1 h2
    · have hno : ¬ SlotMap.Has (s.entries dp) (nameKey name) := fun hx => hok (.inl hx)
      refine ⟨by rw [he]; exact hd.insert hno, fun hx => absurd hx hok, fun _ _ => ⟨hr, he, ?_⟩⟩
      intro k
      rw [he]
      exact hd.lookup_insert hno k
  · have hlt := hat.lt
    have hlen := s.length_entries dp
    have hmax := h.size_le
    obtain ⟨r, s', hrun, hdir, hcase⟩ :=
      (h.write (M := M) (p := p) hlt.le (by omega) hroom fun _ => 0).exists_ok
    rcases hcase with ⟨hno, -⟩ | ⟨-, rfl, he⟩
    · -- the block of the entry is there
      refine absurd hno.1 (h.present _ ?_).2
      exact (Nat.div_mul_le_self _ _).trans_lt (by omega)
    · rw [direntSlot_zero] at he
      refine ⟨s', hrun, hdir, ?_, fun k => ?_⟩
      · rw [he]
        exact hd.erase hlt.le
      · rw [he]
        exact hd.lookup_erase hat k

end

/-! ## A directory of the greatest size -/

/-- The name of entry `k`, of two bytes. -/
def fullName (k : Nat) : List UInt8 := [UInt8.ofNat (1 + k % 255), UInt8.ofNat (1 + k / 255)]

/-- Byte `pos` of the directory. Each entry has the number 1. -/
def fullByte (pos : Nat) : UInt8 := dirent 1 (fullName (pos / 16)) (pos % 16)

/-- The bitmap that has the first 315 blocks. -/
def fullBitmap : Block := fun k => if k < 39 then 255 else if k = 39 then 7 else 0

theorem testBit_fullBitmap_of_ge {b : Nat} (h : 315 ≤ b) : testBit fullBitmap b = false := by
  by_cases hlt : b < 320
  · have hlast : ∀ b, b < 320 → 315 ≤ b → testBit fullBitmap b = false := by decide +kernel
    exact hlast b hlt h
  · have hzero : fullBitmap (b / 8) = 0 := by rw [fullBitmap, if_neg (by omega), if_neg (by omega)]
    rw [testBit, hzero, UInt8.zero_and]
    rfl

/-- The directory is in the blocks from 46 on, with its indirect block behind them. -/
def fullDisk (b : Nat) : Block :=
  if b = 45 then fullBitmap
  else if b = 314 then setWords (fun _ => 0) 0 NINDIRECT fun w => 58 + w
  else if 46 ≤ b ∧ b < 314 then fun o => fullByte ((b - 46) * BSIZE + o) else fun _ => 0

/-- The root directory with as many entries as there can be, in a call. -/
def fullDir : State Unit :=
  { boot fullDisk () with
    outstanding := 1
    itable := Function.update (fun _ => Inode.blank) ⟨0, ninode_pos⟩
      { Inode.blank with
        dev := ROOTDEV, inum := ROOTINO, ref := 1, valid := true, type := T_DIR, nlink := 1
        size := MAXFILE * BSIZE
        addrs := fun k => if k = Fin.last NDIRECT then 314 else 46 + k } }

theorem fullDir_entry : fullDir.itable ⟨0, ninode_pos⟩ = { Inode.blank with
    dev := ROOTDEV, inum := ROOTINO, ref := 1, valid := true, type := T_DIR, nlink := 1
    size := MAXFILE * BSIZE
    addrs := fun k => if k = Fin.last NDIRECT then 314 else 46 + k } := by
  rfl

theorem fullDir_blockAt {bn : Nat} (h : bn < MAXFILE) :
    blockAt fullDir.disk (fullDir.itable ⟨0, ninode_pos⟩).toDinode bn = 46 + bn := by
  rw [fullDir_entry, blockAt]
  split
  · next hd =>
    have hne : (⟨bn, Nat.lt_succ_of_lt hd⟩ : Fin (NDIRECT + 1)) ≠ Fin.last NDIRECT :=
      fun he => Nat.ne_of_lt hd (congrArg Fin.val he)
    exact if_neg hne
  · next hd =>
    have hind : fullDir.disk 314 = setWords (fun _ => 0) 0 NINDIRECT fun w => 58 + w := rfl
    have hm : MAXFILE = 12 + 256 := rfl
    have hlt : bn - NDIRECT < NINDIRECT := by
      rw [show NINDIRECT = 256 from rfl, show NDIRECT = 12 from rfl] at *
      omega
    rw [show NDIRECT = 12 from rfl] at hd hlt
    rw [if_neg (by decide)]
    show getLE (fullDir.disk 314) (4 * (bn - 12)) 4 = _
    have hget : getLE (setWords (fun _ => 0) 0 NINDIRECT fun w => 58 + w) (0 + 4 * (bn - 12)) 4 =
      (58 + (bn - 12)) % 256 ^ 4 := getLE_setWords hlt
    rw [Nat.zero_add] at hget
    rw [hind, hget, Nat.mod_eq_of_lt (by omega)]
    omega

theorem fullDir_slot {sl : Option Nat} (h : InFile sl) :
    slot fullDir.disk (fullDir.itable ⟨0, ninode_pos⟩).toDinode sl = 46 + sl.getD 268 := by
  cases sl with
  | none => rfl
  | some bn => exact fullDir_blockAt h

theorem fullDir_consistent : Consistent mkfsSuperblock fullDir := by
  have hbits : ∀ b, b < 315 → testBit fullBitmap b = true := by decide +kernel
  have hslot : ∀ sl, InFile sl → sl.getD 268 < 269 := by
    intro sl hsl
    cases sl with
    | none => decide
    | some bn => exact (show bn < 268 from hsl).trans (by decide)
  refine .single (i := ⟨0, ninode_pos⟩) mkfsSuperblock_layout (fun k hk => ref_update_blank hk)
    (by decide) (by decide) rfl (by decide) (fun j hj => ?_) (fun b hb hs => ?_)
    (fun sl hsl _ => ?_) (fun sl sl' hsl hsl' _ he => ?_) (fun bn hbn => ?_)
    ⟨by decide, by decide, by decide, by decide, by decide, fun k => ?_⟩
  · have hj := iblock_mkfsSuperblock hj
    show fullDisk _ = _
    rw [fullDisk, if_neg (by omega), if_neg (by omega), if_neg (by omega)]
  · have hb46 : b < 46 := hb
    exact (used_mkfsSuperblock hs).2 (hbits b (by omega))
  · have hlt := hslot sl hsl
    rw [fullDir_slot hsl]
    have h2000 : 46 + sl.getD 268 < 2000 := by omega
    exact ⟨Nat.le_add_right _ _, h2000, (used_mkfsSuperblock h2000).2 (hbits _ (by omega))⟩
  · rw [fullDir_slot hsl, fullDir_slot hsl'] at he
    cases sl with
    | none =>
      cases sl' with
      | none => rfl
      | some bn' =>
        have hlt : bn' < 268 := hsl'
        exact absurd (show 46 + 268 = 46 + bn' from he) (by omega)
    | some bn =>
      have hlt : bn < 268 := hsl
      cases sl' with
      | none => exact absurd (show 46 + bn = 46 + 268 from he) (by omega)
      | some bn' => exact congrArg some (Nat.add_left_cancel he)
  · have hlt : bn < MAXFILE := Nat.lt_of_mul_lt_mul_right hbn
    rw [fullDir_blockAt hlt]
    exact ⟨hlt, Nat.ne_of_gt (Nat.add_pos_left (by decide) bn)⟩
  · show (if k = Fin.last NDIRECT then 314 else 46 + (k : Nat)) < 2 ^ 32
    have hk : (k : Nat) < 13 := k.isLt
    split <;> omega

theorem fullDir_directory : Directory mkfsSuperblock fullDir ⟨0, ninode_pos⟩ :=
  ⟨fullDir_consistent, by decide, rfl, rfl, by decide⟩

theorem fullDisk_dir {k : Nat} (h : k < 268) (o : Nat) :
    fullDisk (46 + k) o = fullByte (k * BSIZE + o) := by
  rw [fullDisk, if_neg (by omega), if_neg (by omega), if_pos (by omega), Nat.add_sub_cancel_left]

theorem fullDir_byteAt {pos : Nat} (h : pos < MAXFILE * BSIZE) :
    byteAt fullDir.disk (fullDir.itable ⟨0, ninode_pos⟩).toDinode pos = fullByte pos := by
  have hbn : pos / BSIZE < MAXFILE := (Nat.div_lt_iff_lt_mul (by decide)).2 h
  rw [byteAt, fullDir_blockAt hbn]
  show fullDisk (46 + pos / BSIZE) (pos % BSIZE) = _
  rw [fullDisk_dir hbn, Nat.div_add_mod']

theorem fullDir_slotAt {k : Nat} (h : k < 17152) :
    direntSlot (entryAt fullDir.disk (fullDir.itable ⟨0, ninode_pos⟩).toDinode k) =
      some (nameKey (fullName k), 1) := by
  have hmul : MAXFILE * BSIZE = 274432 := by decide
  have hbyte : ∀ j, j < 16 →
      entryAt fullDir.disk (fullDir.itable ⟨0, ninode_pos⟩).toDinode k j =
        dirent 1 (fullName k) j := by
    intro j hj
    rw [entryAt, if_pos hj, fullDir_byteAt (by omega), fullByte,
      show (16 * k + j) % 16 = j by omega, show (16 * k + j) / 16 = k by omega]
  rw [direntSlot_congr hbyte, direntSlot_dirent (by decide) (by decide)]

/-- A byte of a name is no zero. -/
theorem ofNat_ne_zero {n : Nat} (h0 : 0 < n) (h : n < 256) : UInt8.ofNat n ≠ 0 := by
  intro he
  have hn := congrArg UInt8.toNat he
  rw [UInt8.toNat_ofNat', Nat.mod_eq_of_lt h] at hn
  exact absurd hn (Nat.ne_of_gt h0)

theorem nameKey_fullName {k : Nat} (h : k < 17152) : nameKey (fullName k) = fullName k := by
  have h1 := ofNat_ne_zero (show 0 < 1 + k % 255 by omega) (by omega)
  have h2 := ofNat_ne_zero (show 0 < 1 + k / 255 by omega) (by omega)
  show cstr (fullName k) = _
  rw [fullName, cstr_cons h1, cstr_cons h2]
  rfl

/-- The entries of the directory: `fullName` of each number, with inode 1. -/
theorem fullDir_at {k : Nat} {name : List UInt8} {inum : Nat} :
    SlotMap.At (fullDir.entries ⟨0, ninode_pos⟩) k name inum ↔
      k < 17152 ∧ fullName k = name ∧ 1 = inum := by
  have hsize : (fullDir.itable ⟨0, ninode_pos⟩).size / 16 = 17152 := by decide
  rw [SlotMap.At, State.getElem?_entries, hsize]
  split
  · next hk =>
    rw [fullDir_slotAt hk, nameKey_fullName hk, Option.some_inj, Option.some_inj, Prod.mk.injEq]
    exact (and_iff_right hk).symm
  · next hk => exact ⟨fun h => (by cases h), fun h => absurd h.1 hk⟩

theorem ofNat_inj {m n : Nat} (hm : m < 256) (hn : n < 256) (h : UInt8.ofNat m = UInt8.ofNat n) :
    m = n := by
  have he := congrArg UInt8.toNat h
  rwa [UInt8.toNat_ofNat', UInt8.toNat_ofNat', Nat.mod_eq_of_lt hm, Nat.mod_eq_of_lt hn] at he

theorem fullDir_distinct : SlotMap.Distinct (fullDir.entries ⟨0, ninode_pos⟩) := by
  intro k k' name v w h h'
  obtain ⟨hk, hname, -⟩ := fullDir_at.1 h
  obtain ⟨hk', hname', -⟩ := fullDir_at.1 h'
  have heq : fullName k = fullName k' := hname.trans hname'.symm
  rw [fullName, fullName, List.cons.injEq, List.cons.injEq] at heq
  have h1 := ofNat_inj (by omega) (by omega) heq.1
  have h2 := ofNat_inj (by omega) (by omega) heq.2.1
  omega

/-- No entry is named `A`. -/
theorem fullDir_not_has : ¬ SlotMap.Has (fullDir.entries ⟨0, ninode_pos⟩) (nameKey [65]) := by
  rintro ⟨k, v, h⟩
  obtain ⟨-, hname, -⟩ := fullDir_at.1 h
  exact absurd (congrArg List.length hname) (show 2 ≠ 1 by decide)

theorem fullDir_noSlot : NoSlot mkfsSuperblock fullDir ⟨0, ninode_pos⟩ := by
  refine ⟨?_, .inl rfl⟩
  by_contra hne
  have hlt := Nat.lt_of_le_of_ne (SlotMap.free_le _) hne
  have hget := SlotMap.getElem?_free (fullDir.entries ⟨0, ninode_pos⟩)
  have hsize : (fullDir.itable ⟨0, ninode_pos⟩).size / 16 = 17152 := by decide
  have hk := hlt
  rw [State.length_entries, hsize] at hk
  rw [if_pos hlt, (fullDir_at (k := SlotMap.free _)).2 ⟨hk, rfl, rfl⟩] at hget
  cases hget

theorem fullDir_logRoom : LogRoom mkfsSuperblock fullDir 7 := ⟨by decide, by decide, by decide⟩

/-- A name that is not in the directory is not found, and the write over entry 7 removes its name. -/
theorem directory_is_map_full :
    dirlookup mkfsSuperblock forkMemory ⟨0, nproc_pos⟩ ⟨0, ninode_pos⟩ [65] fullDir =
      .ok none fullDir ∧
    ∃ s', writei mkfsSuperblock forkMemory ⟨0, nproc_pos⟩ ⟨0, ninode_pos⟩ (.kernel fun _ => 0)
      (16 * 7) 16 fullDir = .ok 16 s' ∧
      SlotMap.lookup (s'.entries ⟨0, ninode_pos⟩) [8, 1] = none := by
  have hmap := directory_is_map (M := forkMemory) (p := ⟨0, nproc_pos⟩) fullDir_directory
    fullDir_distinct
  have hat : SlotMap.At (fullDir.entries ⟨0, ninode_pos⟩) 7 (nameKey [8, 1]) 1 :=
    fullDir_at.2 ⟨by decide, by decide, rfl⟩
  obtain ⟨s', hrun, -, -, hlook⟩ := (hmap [8, 1]).2.2 7 1 hat fullDir_logRoom
  refine ⟨(hmap [65]).1.1 fullDir_not_has, s', hrun, ?_⟩
  exact (hlook [8, 1]).trans (if_pos (by decide))

/-- **A directory of the greatest size with no free slot takes no entry**, though the name is new
and most blocks of the disk are free. -/
theorem dirlink_full :
    Directory mkfsSuperblock fullDir ⟨0, ninode_pos⟩ ∧
    SlotMap.Distinct (fullDir.entries ⟨0, ninode_pos⟩) ∧
    ¬ SlotMap.Has (fullDir.entries ⟨0, ninode_pos⟩) (nameKey [65]) ∧
    (∀ b, 315 ≤ b → b < 2000 → ¬ Used mkfsSuperblock fullDir.disk b) ∧
    ∃ s', dirlink mkfsSuperblock forkMemory ⟨0, nproc_pos⟩ ⟨0, ninode_pos⟩ [65] 2 fullDir =
      .ok (-1) s' := by
  refine ⟨fullDir_directory, fullDir_distinct, fullDir_not_has, fun b hb hlt hused => ?_, ?_⟩
  · have hbit : testBit fullBitmap b = true := (used_mkfsSuperblock hlt).1 hused
    rw [testBit_fullBitmap_of_ge hb] at hbit
    cases hbit
  · have habsent : ∀ t ino, SlotMap.At (fullDir.entries ⟨0, ninode_pos⟩) t (nameKey [65]) ino →
        ¬ TableFull (fullDir.itable ⟨0, ninode_pos⟩).dev ino fullDir := fun t ino hat =>
      absurd ⟨t, ino, hat⟩ fullDir_not_has
    obtain ⟨r, s', hrun, -, hcase⟩ := (fullDir_directory.dirlink (M := forkMemory)
      (p := ⟨0, nproc_pos⟩) fullDir_distinct (show 2 ≠ 0 by decide) (by decide)
      fullDir_logRoom habsent).exists_ok
    rcases hcase with ⟨-, rfl, -⟩ | ⟨hno, -⟩
    · exact ⟨s', hrun⟩
    · exact absurd (.inr fullDir_noSlot) hno

end Xv6.Fs
