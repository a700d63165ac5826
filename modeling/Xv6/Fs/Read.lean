import Xv6.Fs.Path
import Mathlib.Data.List.TakeWhile

/-!
# Reading a file that is there

When the blocks that `readi` needs are all present, `bmap` allocates nothing: `readi` and
`dirlookup` leave the state alone and return what lies on the disk.  `blockAt` is the block number
that the disk gives for a block of a file, and `byteAt` the byte at an offset.
-/

set_option autoImplicit false

namespace Xv6

theorem bind_of_ok {σ α β : Type} {m : Kern σ α} {f : α → Kern σ β} {s s' : σ} {a : α}
    (h : m s = .ok a s') : (m >>= f) s = f a s' := by
  rw [bind_eq, h]

/-- Only the result counts. -/
theorem wp_congr {σ α : Type} {m m' : Kern σ α} {s : σ} {Q : α → σ → Prop} {E : Halt → σ → Prop}
    (h : m s = m' s) : wp m Q E s ↔ wp m' Q E s := by
  rw [wp, wp, h]

namespace Fs

variable {μ : Type} {s : State μ} {i : Fin NINODE} {d : Dinode}

/-! ## Names -/

/-- Two strings without zeroes compare as equal if they agree up to `n` bytes; the second may be
padded with zeroes. -/
theorem strncmp_eq_zero : ∀ {n : Nat} {p q l : List UInt8}, 0 ∉ p → 0 ∉ l →
    (∀ i, i < n → q.getD i 0 = l.getD i 0) → (strncmp p q n = 0 ↔ p.take n = l.take n)
  | 0, p, q, l, _, _, _ => ⟨fun _ => rfl, fun _ => by rw [strncmp]⟩
  | n + 1, p, q, l, hp, hl, hq => by
    have hq0 : q.headD 0 = l.headD 0 := by
      have := hq 0 (Nat.succ_pos n)
      rwa [List.getD_eq_getElem?_getD, List.getD_eq_getElem?_getD, ← List.head?_eq_getElem?,
        ← List.head?_eq_getElem?, ← List.headD_eq_head?_getD, ← List.headD_eq_head?_getD] at this
    have hqt : ∀ i, i < n → q.tail.getD i 0 = l.tail.getD i 0 := by
      intro i hi
      have := hq (i + 1) (Nat.succ_lt_succ hi)
      rwa [List.getD_eq_getElem?_getD, List.getD_eq_getElem?_getD, ← List.getElem?_tail,
        ← List.getElem?_tail, ← List.getD_eq_getElem?_getD, ← List.getD_eq_getElem?_getD] at this
    rw [strncmp, hq0]
    cases p with
    | nil =>
      rw [if_neg fun h => h.1 rfl]
      cases l with
      | nil => exact ⟨fun _ => rfl, fun _ => rfl⟩
      | cons b l =>
        have hb : b ≠ 0 := fun h => hl (h ▸ List.mem_cons_self)
        have hb' : b.toNat ≠ 0 := fun h => hb (UInt8.toNat_inj.1 h)
        refine ⟨fun h => ?_, fun h => ?_⟩
        · have h : ((0 : UInt8).toNat : Int) - (b.toNat : Int) = 0 := h
          rw [show ((0 : UInt8).toNat : Int) = 0 from rfl] at h
          omega
        · rw [List.take_nil, List.take_succ_cons] at h
          cases h
    | cons a p =>
      have ha : a ≠ 0 := fun h => hp (h ▸ List.mem_cons_self)
      cases l with
      | nil =>
        have ha' : a.toNat ≠ 0 := fun h => ha (UInt8.toNat_inj.1 h)
        rw [if_neg fun h => ha h.2]
        refine ⟨fun h => ?_, fun h => ?_⟩
        · have h : (a.toNat : Int) - ((0 : UInt8).toNat : Int) = 0 := h
          rw [show ((0 : UInt8).toNat : Int) = 0 from rfl] at h
          omega
        · rw [List.take_nil, List.take_succ_cons] at h
          cases h
      | cons b l =>
        rw [List.take_succ_cons, List.take_succ_cons, List.cons.injEq]
        by_cases hab : a = b
        · rw [if_pos ⟨ha, hab⟩, List.tail_cons, strncmp_eq_zero
            (fun h => hp (List.mem_cons_of_mem _ h)) (fun h => hl (List.mem_cons_of_mem b h)) hqt]
          exact ⟨fun h => ⟨hab, h⟩, fun h => h.2⟩
        · rw [if_neg fun h => hab h.2]
          refine ⟨fun h => ?_, fun h => absurd h.1 hab⟩
          have h : (a.toNat : Int) - (b.toNat : Int) = 0 := h
          exact absurd (UInt8.toNat_inj.1 (by omega)) hab

/-- The only element of a path `/name`. -/
theorem skipelem_slash {name : List UInt8} (h0 : name ≠ []) (hs : SLASH ∉ name) :
    skipelem (SLASH :: name) = some (name.take DIRSIZ, []) := by
  cases name with
  | nil => exact absurd rfl h0
  | cons c l =>
    have hall : ∀ a ∈ c :: l, (a != SLASH) = true := fun a ha =>
      bne_iff_ne.2 fun h => hs (h ▸ ha)
    have hc : (c == SLASH) = false := by
      have := hall c List.mem_cons_self
      rwa [bne, Bool.not_eq_true'] at this
    have hdrop : (SLASH :: c :: l).dropWhile (· == SLASH) = c :: l := by
      rw [List.dropWhile_cons_of_pos (by exact beq_self_eq_true SLASH),
        List.dropWhile_cons_of_neg (by rw [hc]; exact Bool.false_ne_true)]
    rw [skipelem, hdrop]
    show some (((c :: l).takeWhile (· != SLASH)).take DIRSIZ,
      ((c :: l).dropWhile (· != SLASH)).dropWhile (· == SLASH)) = _
    rw [List.takeWhile_eq_self_iff.2 hall, List.dropWhile_eq_nil_iff.2 hall]
    rfl

/-! ## Inodes in the table -/

theorem State.setInode_setInode (x y : Inode) :
    (s.setInode i x).setInode i y = s.setInode i y := by
  rw [State.setInode, State.setInode, State.setInode]
  exact congrArg (fun t => { s with itable := t }) (Function.update_idem ..)

/-- `iget` of an inode that is in the table. -/
theorem iget_found {dev inum : Nat} (hi : 0 < (s.itable i).ref ∧ (s.itable i).dev = dev ∧
      (s.itable i).inum = inum)
    (huniq : ∀ j, 0 < (s.itable j).ref ∧ (s.itable j).dev = dev ∧ (s.itable j).inum = inum → j = i) :
    iget dev inum s = .ok i (s.setInode i { s.itable i with ref := (s.itable i).ref + 1 }) := by
  have hfind : (List.finRange NINODE).find? (fun i => decide (0 < (s.itable i).ref ∧
      (s.itable i).dev = dev ∧ (s.itable i).inum = inum)) = some i := by
    cases hf : (List.finRange NINODE).find? (fun i => decide (0 < (s.itable i).ref ∧
        (s.itable i).dev = dev ∧ (s.itable i).inum = inum)) with
    | none =>
      have := List.find?_eq_none.1 hf i (List.mem_finRange i)
      exact absurd (decide_eq_true hi) this
    | some j =>
      have hj := List.find?_some hf
      rw [huniq j (of_decide_eq_true hj)]
  rw [iget, bind_of_ok (show (get : Kern (State μ) (State μ)) s = .ok s s from rfl), hfind]
  rfl

/-- `iget` of an inode that is not in the table takes a free entry. -/
theorem iget_fresh {dev inum : Nat} (hfree : (s.itable i).ref = 0)
    (hnone : ∀ j, ¬ (0 < (s.itable j).ref ∧ (s.itable j).dev = dev ∧ (s.itable j).inum = inum)) :
    ∃ j, (s.itable j).ref = 0 ∧ iget dev inum s = .ok j
      (s.setInode j { s.itable j with dev := dev, inum := inum, ref := 1, valid := false }) := by
  have hfind : (List.finRange NINODE).find? (fun i => decide (0 < (s.itable i).ref ∧
      (s.itable i).dev = dev ∧ (s.itable i).inum = inum)) = none :=
    List.find?_eq_none.2 fun j _ h => hnone j (of_decide_eq_true h)
  cases hf : (List.finRange NINODE).find? (fun i => decide ((s.itable i).ref = 0)) with
  | none =>
    have := List.find?_eq_none.1 hf i (List.mem_finRange i)
    exact absurd (decide_eq_true hfree) this
  | some j =>
    have hj := List.find?_some hf
    refine ⟨j, of_decide_eq_true hj, ?_⟩
    rw [iget, bind_of_ok (show (get : Kern (State μ) (State μ)) s = .ok s s from rfl), hfind]
    dsimp only
    rw [hf]
    rfl

/-- The inode that `ilock` reads from the disk. -/
def diskInode (sb : Superblock) (s : State μ) (i : Fin NINODE) : Dinode :=
  getDinode (s.disk (iblock (s.itable i).inum sb)) ((s.itable i).inum % IPB)

/-- A table entry that is locked and holds its inode. -/
def Inode.loaded (x : Inode) (p : Fin NPROC) (d : Dinode) : Inode :=
  { x with lock := some p, toDinode := d, valid := true }

/-- `ilock` of an inode that has not been read yet. -/
theorem ilock_read (sb : Superblock) (p : Fin NPROC) (href : 1 ≤ (s.itable i).ref)
    (hl : (s.itable i).lock = none) (hv : (s.itable i).valid = false) :
    ilock sb p i s =
      (if (diskInode sb s i).type = 0 then panic "ilock: no type" else pure () : Kern _ Unit)
        (s.setInode i ((s.itable i).loaded p (diskInode sb s i))) := by
  have hacq : acquiresleep p i s =
      .ok () (s.setInode i { s.itable i with lock := some p }) := by
    rw [acquiresleep, bind_of_ok (show getInode i s = .ok (s.itable i) s from rfl), hl]
    rfl
  rw [ilock, bind_of_ok (show getInode i s = .ok (s.itable i) s from rfl),
    if_neg (by omega), bind_of_ok hacq, hv]
  show (if (diskInode sb s i).type = 0 then panic "ilock: no type" else pure () : Kern _ Unit)
    ((s.setInode i { s.itable i with lock := some p }).setInode i
      { (s.setInode i { s.itable i with lock := some p }).itable i with
        toDinode := diskInode sb s i, valid := true }) = _
  rw [State.setInode_self, State.setInode_setInode]
  rfl

theorem ilock_load (sb : Superblock) (p : Fin NPROC) (href : 1 ≤ (s.itable i).ref)
    (hl : (s.itable i).lock = none) (hv : (s.itable i).valid = false)
    (ht : (diskInode sb s i).type ≠ 0) :
    ilock sb p i s = .ok () (s.setInode i ((s.itable i).loaded p (diskInode sb s i))) := by
  rw [ilock_read sb p href hl hv, if_neg ht]
  rfl

/-- `iunlockput` of an inode with another reference. -/
theorem iunlockput_shared (sb : Superblock) {p : Fin NPROC} (hl : (s.itable i).lock = some p) (href : 1 < (s.itable i).ref) :
    iunlockput sb p i s = .ok ()
      (s.setInode i { s.itable i with lock := none, ref := (s.itable i).ref - 1 }) := by
  have hun : iunlock p i s = .ok () (s.setInode i { s.itable i with lock := none }) := by
    rw [iunlock, bind_of_ok (show getInode i s = .ok (s.itable i) s from rfl),
      if_neg fun h => h.elim (fun h => h hl) (by omega)]
    rfl
  rw [iunlockput, bind_of_ok hun, iput,
    bind_of_ok (show getInode i _ = .ok _ _ from rfl), State.setInode_self, if_neg (by
      intro h
      have h1 : (s.itable i).ref = 1 := h.1
      omega)]
  show EStateM.Result.ok () ((s.setInode i _).setInode i
    { (s.setInode i { s.itable i with lock := none }).itable i with
      ref := ((s.setInode i { s.itable i with lock := none }).itable i).ref - 1 }) = _
  rw [State.setInode_self, State.setInode_setInode]

/-! ## Blocks -/

/-- The block number of the `bn`th block of a file, `0` if there is none. -/
def blockAt (disk : Nat → Block) (d : Dinode) (bn : Nat) : Nat :=
  if h : bn < NDIRECT then d.addrs ⟨bn, Nat.lt_succ_of_lt h⟩
  else if d.addrs (Fin.last NDIRECT) = 0 then 0
  else getLE (disk (d.addrs (Fin.last NDIRECT))) (4 * (bn - NDIRECT)) 4

/-- The byte at an offset of a file. -/
def byteAt (disk : Nat → Block) (d : Dinode) (off : Nat) : UInt8 :=
  disk (blockAt disk d (off / BSIZE)) (off % BSIZE)

/-- The blocks of a file below the offset `n` are present. -/
def Present (disk : Nat → Block) (d : Dinode) (n : Nat) : Prop :=
  ∀ bn, bn * BSIZE < n → bn < MAXFILE ∧ blockAt disk d bn ≠ 0

theorem Present.mono {disk : Nat → Block} {n m : Nat} (h : Present disk d n) (hm : m ≤ n) :
    Present disk d m :=
  fun bn hbn => h bn (Nat.lt_of_lt_of_le hbn hm)

section

variable (sb : Superblock)

theorem addrAt_present {k : Fin (NDIRECT + 1)} (h0 : (s.itable i).addrs k ≠ 0) :
    addrAt sb i k s = .ok ((s.itable i).addrs k) s := by
  show (if (s.itable i).addrs k = 0 then _ else pure ((s.itable i).addrs k) : Kern _ Nat) s = _
  rw [if_neg h0]
  rfl

/-- `bmap` finds the block that is there. -/
theorem bmap_present (hd : (s.itable i).toDinode = d) {bn : Nat} (hbn : bn < MAXFILE)
    (h0 : blockAt s.disk d bn ≠ 0) : bmap sb i bn s = .ok (blockAt s.disk d bn) s := by
  rw [blockAt] at h0
  rw [bmap, blockAt]
  split at h0
  · next h =>
    rw [dif_pos h, dif_pos h, ← hd]
    rw [← hd] at h0
    exact addrAt_present sb h0
  · next h =>
    have hm : MAXFILE = NDIRECT + NINDIRECT := rfl
    rw [dif_neg h, dif_neg h, if_pos (by omega)]
    split at h0
    · exact absurd rfl h0
    · next hind =>
      rw [if_neg hind]
      rw [← hd] at hind h0 ⊢
      rw [bind_of_ok (addrAt_present sb hind), if_neg hind]
      show (if getLE (s.disk _) _ 4 = 0 then _ else pure _ : Kern _ Nat) s = _
      rw [if_neg h0]
      rfl

variable (M : Memory μ) (p : Fin NPROC)

/-- What the loop of `readi` leaves in the buffer. -/
def readBuf (disk : Nat → Block) (d : Dinode) (n tot off : Nat) (buf : Bytes) : Bytes := fun j =>
  if tot ≤ j ∧ j < n then byteAt disk d (off + (j - tot)) else buf j

theorem readBuf_end {disk : Nat → Block} {n off : Nat} {buf : Bytes} :
    readBuf disk d n n off buf = buf := by
  funext j
  rw [readBuf, if_neg (by omega)]

/-- One round of the loop reads to the end of a block, or of the range. -/
theorem readBuf_step {disk : Nat → Block} {n tot off m : Nat} {buf : Bytes} (hm : tot + m ≤ n)
    (hb : off % BSIZE + m ≤ BSIZE) :
    readBuf disk d n (tot + m) (off + m)
      (blit buf tot (fun j => disk (blockAt disk d (off / BSIZE)) (off % BSIZE + j)) m) =
      readBuf disk d n tot off buf := by
  have hpos : 0 < BSIZE := by decide
  funext j
  rw [readBuf, readBuf]
  by_cases h1 : tot + m ≤ j ∧ j < n
  · rw [if_pos h1, if_pos (by omega), show off + m + (j - (tot + m)) = off + (j - tot) by omega]
  · rw [if_neg h1, blit]
    by_cases h2 : tot ≤ j ∧ j < tot + m
    · have hdiv : (off + (j - tot)) / BSIZE = off / BSIZE :=
        (Nat.div_eq_iff hpos).2 ⟨by have := Nat.div_add_mod' off BSIZE; omega,
          by have := Nat.div_add_mod' off BSIZE; omega⟩
      have hmod : (off + (j - tot)) % BSIZE = off % BSIZE + (j - tot) := by
        have h3 := Nat.div_add_mod off BSIZE
        have h4 := Nat.div_add_mod (off + (j - tot)) BSIZE
        rw [hdiv] at h4
        omega
      rw [if_pos h2, if_pos (by omega), byteAt, hdiv, hmod]
    · rw [if_neg h2, if_neg (by omega)]

theorem readiFrom_present (hd : (s.itable i).toDinode = d) {n : Nat} :
    ∀ (k tot off : Nat) (buf : Bytes), tot ≤ n → n - tot ≤ k →
      Present s.disk d (off + (n - tot)) →
      readiFrom sb M p i .kernel n k tot off buf s =
        .ok ((n : Int), readBuf s.disk d n tot off buf) s
  | 0, tot, off, buf, htot, hk, _ => by
    have hn : tot = n := by omega
    rw [hn, readBuf_end]
    rfl
  | k + 1, tot, off, buf, htot, hk, hp => by
    have hpos : 0 < BSIZE := by decide
    have hoff := Nat.div_add_mod off BSIZE
    have hlt := Nat.mod_lt off hpos
    rw [readiFrom]
    by_cases hn : tot < n
    · obtain ⟨hbn, h0⟩ := hp (off / BSIZE) (by rw [Nat.mul_comm]; omega)
      rw [if_pos hn, bind_of_ok (bmap_present sb hd hbn h0), if_neg h0]
      have hmin : min (n - tot) (BSIZE - off % BSIZE) ≤ n - tot := Nat.min_le_left _ _
      have hmin' : min (n - tot) (BSIZE - off % BSIZE) ≤ BSIZE - off % BSIZE := Nat.min_le_right _ _
      have hmin0 : 0 < min (n - tot) (BSIZE - off % BSIZE) :=
        Nat.lt_min.2 ⟨by omega, by omega⟩
      refine (readiFrom_present hd k _ _ _ (by omega) (by omega) ?_).trans ?_
      · exact hp.mono (by omega)
      · rw [readBuf_step (by omega) (by omega)]
    · rw [if_neg hn]
      have hn : tot = n := by omega
      rw [hn, readBuf_end]
      rfl

/-- `readi` of a range that is there. -/
theorem readi_present (hd : (s.itable i).toDinode = d) (hsize : d.size < 2 ^ 32) {off n : Nat}
    (hoff : off + n ≤ d.size) (hp : Present s.disk d (off + n)) :
    readi sb M p i .kernel off n s =
      .ok ((n : Int), fun j => if j < n then byteAt s.disk d (off + j) else 0) s := by
  have hs : (s.itable i).size = d.size := congrArg Dinode.size hd
  have hmod : (off + n) % 2 ^ 32 = off + n := Nat.mod_eq_of_lt (by omega)
  rw [readi, bind_of_ok (show getInode i s = .ok (s.itable i) s from rfl), hs, hmod,
    if_neg (by omega), if_neg (by omega), readiFrom_present sb M p hd n 0 off _ (Nat.zero_le n)
      (Nat.le_refl n) hp]
  congr 2
  funext j
  rw [readBuf]
  exact if_congr (by omega) (by rw [Nat.sub_zero]) rfl

/-! ## Directories -/

/-- The `k`th entry of a directory. -/
def entryAt (disk : Nat → Block) (d : Dinode) (k : Nat) : Bytes := fun j =>
  if j < 16 then byteAt disk d (16 * k + j) else 0

/-- An entry that a search for the name passes over. -/
def Passes (name : List UInt8) (de : Bytes) : Prop :=
  direntInum de = 0 ∨ namecmp name (direntName de) ≠ 0

/-- The search comes to the entry that has the name. -/
theorem dirlookupFrom_present (hd : (s.itable i).toDinode = d) (hsize : d.size < 2 ^ 32)
    {name : List UInt8} {t : Nat} (ht : 16 * (t + 1) ≤ d.size)
    (hp : Present s.disk d (16 * (t + 1)))
    (hmatch : ¬ Passes name (entryAt s.disk d t)) :
    ∀ (j k : Nat), j ≤ t → t - j < k →
      (∀ m, j ≤ m → m < t → Passes name (entryAt s.disk d m)) →
      dirlookupFrom sb M p i name k (16 * j) s =
        (do let x ← iget (s.itable i).dev (direntInum (entryAt s.disk d t))
            return some (x, 16 * t) : Kern (State μ) (Option (Fin NINODE × Nat))) s
  | _, 0, _, hk, _ => absurd hk (Nat.not_lt_zero _)
  | j, k + 1, hj, hk, hpass => by
    have hread : readi sb M p i .kernel (16 * j) 16 s =
        .ok ((16 : Int), entryAt s.disk d j) s :=
      readi_present sb M p hd hsize (by omega) (hp.mono (by omega))
    rw [dirlookupFrom, bind_of_ok hread]
    show (if (16 : Int) ≠ 16 then _ else _ : Kern _ _) s = _
    rw [if_neg (by decide)]
    rcases Nat.eq_or_lt_of_le hj with rfl | hlt
    · rw [if_neg fun h => hmatch (.inl h), if_pos (by
        by_contra h
        exact hmatch (.inr h))]
      rfl
    · have hrest : dirlookupFrom sb M p i name k (16 * j + 16) s = _ :=
        dirlookupFrom_present hd hsize ht hp hmatch (j + 1) k hlt (by omega)
          fun m hm => hpass m (by omega)
      rcases hpass j (Nat.le_refl j) hlt with h | h
      · rw [if_pos h]
        exact hrest
      · by_cases h0 : direntInum (entryAt s.disk d j) = 0
        · rw [if_pos h0]
          exact hrest
        · rw [if_neg h0, if_neg h]
          exact hrest

/-- `dirlookup` of a name that is there: the entries before it have other names. -/
theorem dirlookup_present (hd : (s.itable i).toDinode = d) (hdir : d.type = T_DIR)
    (hsize : d.size < 2 ^ 32) {name : List UInt8} {t : Nat} (ht : 16 * (t + 1) ≤ d.size)
    (hp : Present s.disk d (16 * (t + 1))) (hmatch : ¬ Passes name (entryAt s.disk d t))
    (hpass : ∀ m, m < t → Passes name (entryAt s.disk d m)) :
    dirlookup sb M p i name s =
      (do let x ← iget (s.itable i).dev (direntInum (entryAt s.disk d t))
          return some (x, 16 * t) : Kern (State μ) (Option (Fin NINODE × Nat))) s := by
  have htype : (s.itable i).type = d.type := congrArg Dinode.type hd
  have hs : (s.itable i).size = d.size := congrArg Dinode.size hd
  rw [dirlookup, bind_of_ok (show getInode i s = .ok (s.itable i) s from rfl),
    if_neg (by rw [htype, hdir]; decide), hs]
  exact dirlookupFrom_present sb M p hd hsize ht hp hmatch 0 _ (Nat.zero_le t) (by omega)
    fun m _ => hpass m

/-- **A name in the root directory.**  `namei("/name")`, when the root directory is in the table
but has not been read and the file is not in the table, gives the file a new entry. -/
theorem namei_slash {r f : Fin NINODE} {name : List UInt8} {t : Nat}
    (h0 : name ≠ []) (hs : SLASH ∉ name)
    (hr : 0 < (s.itable r).ref ∧ (s.itable r).dev = ROOTDEV ∧ (s.itable r).inum = ROOTINO)
    (huniq : ∀ j, 0 < (s.itable j).ref ∧ (s.itable j).dev = ROOTDEV ∧
      (s.itable j).inum = ROOTINO → j = r)
    (hlock : (s.itable r).lock = none) (hvalid : (s.itable r).valid = false)
    (hd : diskInode sb s r = d) (hdir : d.type = T_DIR) (hsize : d.size < 2 ^ 32)
    (ht : 16 * (t + 1) ≤ d.size) (hp : Present s.disk d (16 * (t + 1)))
    (hmatch : ¬ Passes (name.take DIRSIZ) (entryAt s.disk d t))
    (hpass : ∀ m, m < t → Passes (name.take DIRSIZ) (entryAt s.disk d m))
    (hfree : (s.itable f).ref = 0)
    (hnone : ∀ j, 0 < (s.itable j).ref → (s.itable j).inum ≠ direntInum (entryAt s.disk d t)) :
    ∃ j s', namei sb M p (SLASH :: name) s = .ok (some j) s' ∧ s'.disk = s.disk ∧
      (s.itable j).ref = 0 ∧ s'.itable j = { s.itable j with
        dev := ROOTDEV, inum := direntInum (entryAt s.disk d t), ref := 1, valid := false } := by
  have hfr : f ≠ r := fun h => by
    rw [h] at hfree
    omega
  -- `iget` takes a reference to the root directory
  set s1 := s.setInode r { s.itable r with ref := (s.itable r).ref + 1 } with hs1
  have hget : iget ROOTDEV ROOTINO s = .ok r s1 := iget_found hr huniq
  have h1r : s1.itable r = { s.itable r with ref := (s.itable r).ref + 1 } := s.setInode_self ..
  -- `ilock` reads it
  have hd1 : diskInode sb s1 r = d := by
    rw [← hd, diskInode, h1r]
    rfl
  set s2 := s1.setInode r ((s1.itable r).loaded p d) with hs2
  have hlk : ilock sb p r s1 = .ok () s2 := by
    rw [hs2, ← hd1]
    refine ilock_load sb p ?_ ?_ ?_ ?_
    · rw [h1r]
      show 1 ≤ (s.itable r).ref + 1
      omega
    · rw [h1r]
      exact hlock
    · rw [h1r]
      exact hvalid
    · rw [hd1, hdir]
      decide
  have h2r : s2.itable r = (s1.itable r).loaded p d := s1.setInode_self ..
  have h2 : ∀ j, j ≠ r → s2.itable j = s.itable j := fun j hj => by
    rw [hs2, s1.setInode_of_ne hj, hs1, s.setInode_of_ne hj]
  -- `dirlookup` finds the entry
  have hlook := dirlookup_present sb M p (s := s2) (i := r) (congrArg Inode.toDinode h2r)
    hdir hsize ht hp hmatch hpass
  have hdev : (s2.itable r).dev = ROOTDEV := by
    rw [h2r, h1r]
    exact hr.2.1
  rw [hdev] at hlook
  obtain ⟨j, hj0, hfresh⟩ : ∃ j, (s2.itable j).ref = 0 ∧
      iget ROOTDEV (direntInum (entryAt s.disk d t)) s2 = .ok j (s2.setInode j { s2.itable j with
        dev := ROOTDEV, inum := direntInum (entryAt s.disk d t), ref := 1, valid := false }) := by
    refine iget_fresh (i := f) (by rw [h2 f hfr]; exact hfree) ?_
    rintro j ⟨hjr, -, hji⟩
    by_cases hjr' : j = r
    · rw [hjr', h2r, h1r] at hji
      exact hnone r hr.1 hji
    · rw [h2 j hjr'] at hjr hji
      exact hnone j hjr hji
  have hjr : j ≠ r := fun h => by
    rw [h, h2r, h1r] at hj0
    have : (s.itable r).ref + 1 = 0 := hj0
    omega
  set s3 := s2.setInode j { s2.itable j with
    dev := ROOTDEV, inum := direntInum (entryAt s.disk d t), ref := 1, valid := false } with hs3
  have h3r : s3.itable r = s2.itable r := s2.setInode_of_ne hjr.symm _
  have hlook' : dirlookup sb M p r (name.take DIRSIZ) s2 = .ok (some (j, 16 * t)) s3 := by
    rw [hlook]
    exact bind_of_ok hfresh
  have hput := iunlockput_shared sb (s := s3) (i := r) (p := p) (by rw [h3r, h2r]; rfl) (by
    rw [h3r, h2r, h1r]
    show 1 < (s.itable r).ref + 1
    omega)
  set s4 := s3.setInode r { s3.itable r with lock := none, ref := (s3.itable r).ref - 1 } with hs4
  have hnamex : namex sb M p (SLASH :: name) false s = .ok (some (j, [])) s4 := by
    rw [namex, if_pos (show (SLASH :: name).head? = some SLASH from rfl), bind_of_ok hget,
      namexFrom, skipelem_slash h0 hs]
    show (ilock sb p r >>= _ : Kern _ _) s1 = _
    rw [bind_of_ok hlk, bind_of_ok (show getInode r s2 = .ok (s2.itable r) s2 from rfl),
      if_neg (fun h => h (by rw [h2r]; exact hdir)), if_neg (fun h => Bool.false_ne_true h.1),
      bind_of_ok hlook']
    show (iunlockput sb p r >>= _ : Kern _ _) s3 = _
    rw [bind_of_ok hput]
    rfl
  refine ⟨j, s4, bind_of_ok hnamex, rfl, ?_, ?_⟩
  · rw [h2 j hjr] at hj0
    exact hj0
  · rw [hs4, s3.setInode_of_ne hjr, hs3, s2.setInode_self, h2 j hjr]

end

end Fs

end Xv6
