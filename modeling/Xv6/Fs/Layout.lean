import Xv6.Disk.Log

/-!
# The format of the file system

`kernel/fs.h`: where the inodes and the bitmap are, and how an inode, a directory entry and a list
of block numbers lie in a block.  The lemmas say that each of them is read back as it was stored
and leaves the others in its block alone.
-/

set_option autoImplicit false

namespace Xv6.Fs

/-- `ROOTINO`: the number of the root directory. -/
def ROOTINO : Nat := 1

/-- `NDIRECT`: the direct blocks of an inode. -/
def NDIRECT : Nat := 12

/-- `NINDIRECT`: the block numbers in an indirect block. -/
def NINDIRECT : Nat := BSIZE / 4

/-- `MAXFILE`: the blocks of the largest file. -/
def MAXFILE : Nat := NDIRECT + NINDIRECT

/-- `IPB`: inodes per block. -/
def IPB : Nat := BSIZE / 64

/-- `BPB`: bits of the bitmap per block. -/
def BPB : Nat := BSIZE * 8

/-- `DIRSIZ`: the longest name in a directory. -/
def DIRSIZ : Nat := 14

def T_DIR : Nat := 1

def T_FILE : Nat := 2

def T_DEVICE : Nat := 3

/-- `IBLOCK(i, sb)`: the block containing inode `i`. -/
def iblock (i : Nat) (sb : Superblock) : Nat := i / IPB + sb.inodestart

/-- `BBLOCK(b, sb)`: the block of the bitmap containing the bit for block `b`. -/
def bblock (b : Nat) (sb : Superblock) : Nat := b / BPB + sb.bmapstart

/-! ## Arrays of words -/

/-- Store the `n` words of `a` from offset `off` on. -/
def setWords (b : Bytes) (off n : Nat) (a : Nat → Nat) : Bytes := fun i =>
  if off ≤ i ∧ i < off + 4 * n then UInt8.ofNat (a ((i - off) / 4) / 256 ^ ((i - off) % 4)) else b i

theorem getLE_setWords {b : Bytes} {off n : Nat} {a : Nat → Nat} {j : Nat} (hj : j < n) :
    getLE (setWords b off n a) (off + 4 * j) 4 = a j % 256 ^ 4 := by
  refine getLE_of_digits fun i hi => ?_
  rw [setWords, if_pos (by omega), show (off + 4 * j + i - off) / 4 = j by omega,
    show (off + 4 * j + i - off) % 4 = i by omega, UInt8.toNat_ofNat']

theorem getLE_setWords_disjoint {b : Bytes} {off n off' n' : Nat} {a : Nat → Nat}
    (h : off' + n' ≤ off ∨ off + 4 * n ≤ off') :
    getLE (setWords b off n a) off' n' = getLE b off' n' := by
  refine getLE_congr fun i h1 h2 => ?_
  rw [setWords, if_neg (by omega)]

/-! ## Inodes -/

/-- `struct dinode`. -/
@[ext]
structure Dinode where
  /-- A `short`, like the next three: its 16 bits. -/
  type : Nat
  major : Nat
  minor : Nat
  nlink : Nat
  size : Nat
  addrs : Fin (NDIRECT + 1) → Nat

/-- `*dip = 0`. -/
def Dinode.zero : Dinode where
  type := 0
  major := 0
  minor := 0
  nlink := 0
  size := 0
  addrs := fun _ => 0

/-- Every field fits its type. -/
structure Dinode.Fits (d : Dinode) : Prop where
  type : d.type < 2 ^ 16
  major : d.major < 2 ^ 16
  minor : d.minor < 2 ^ 16
  nlink : d.nlink < 2 ^ 16
  size : d.size < 2 ^ 32
  addrs : ∀ k, d.addrs k < 2 ^ 32

/-- `*((struct dinode*)b + k)`. -/
def getDinode (b : Block) (k : Nat) : Dinode where
  type := getLE b (64 * k) 2
  major := getLE b (64 * k + 2) 2
  minor := getLE b (64 * k + 4) 2
  nlink := getLE b (64 * k + 6) 2
  size := getLE b (64 * k + 8) 4
  addrs := fun j => getLE b (64 * k + 12 + 4 * j) 4

/-- The array of an inode. -/
def Dinode.words (d : Dinode) (j : Nat) : Nat := if h : j < NDIRECT + 1 then d.addrs ⟨j, h⟩ else 0

/-- `*((struct dinode*)b + k) = d`. -/
def putDinode (b : Block) (k : Nat) (d : Dinode) : Block :=
  let b := setLE b (64 * k) 2 d.type
  let b := setLE b (64 * k + 2) 2 d.major
  let b := setLE b (64 * k + 4) 2 d.minor
  let b := setLE b (64 * k + 6) 2 d.nlink
  let b := setLE b (64 * k + 8) 4 d.size
  setWords b (64 * k + 12) (NDIRECT + 1) d.words

/-- An inode is read back as it was stored. -/
theorem getDinode_putDinode (b : Block) (k : Nat) {d : Dinode} (hd : d.Fits) :
    getDinode (putDinode b k d) k = d := by
  have hn : NDIRECT + 1 = 13 := rfl
  apply Dinode.ext
  · show getLE (putDinode b k d) (64 * k) 2 = d.type
    rw [putDinode, getLE_setWords_disjoint (by omega), getLE_setLE_disjoint _ _ (by omega),
      getLE_setLE_disjoint _ _ (by omega), getLE_setLE_disjoint _ _ (by omega),
      getLE_setLE_disjoint _ _ (by omega), getLE_setLE_same]
    exact Nat.mod_eq_of_lt hd.type
  · show getLE (putDinode b k d) (64 * k + 2) 2 = d.major
    rw [putDinode, getLE_setWords_disjoint (by omega), getLE_setLE_disjoint _ _ (by omega),
      getLE_setLE_disjoint _ _ (by omega), getLE_setLE_disjoint _ _ (by omega), getLE_setLE_same]
    exact Nat.mod_eq_of_lt hd.major
  · show getLE (putDinode b k d) (64 * k + 4) 2 = d.minor
    rw [putDinode, getLE_setWords_disjoint (by omega), getLE_setLE_disjoint _ _ (by omega),
      getLE_setLE_disjoint _ _ (by omega), getLE_setLE_same]
    exact Nat.mod_eq_of_lt hd.minor
  · show getLE (putDinode b k d) (64 * k + 6) 2 = d.nlink
    rw [putDinode, getLE_setWords_disjoint (by omega), getLE_setLE_disjoint _ _ (by omega),
      getLE_setLE_same]
    exact Nat.mod_eq_of_lt hd.nlink
  · show getLE (putDinode b k d) (64 * k + 8) 4 = d.size
    rw [putDinode, getLE_setWords_disjoint (by omega), getLE_setLE_same]
    exact Nat.mod_eq_of_lt hd.size
  · funext j
    show getLE (putDinode b k d) (64 * k + 12 + 4 * j) 4 = d.addrs j
    rw [putDinode, getLE_setWords j.isLt, Dinode.words, dif_pos j.isLt]
    exact Nat.mod_eq_of_lt (hd.addrs j)

/-- The bytes of an inode are its own. -/
theorem putDinode_of_out (b : Block) (k : Nat) (d : Dinode) {i : Nat}
    (hi : i < 64 * k ∨ 64 * k + 64 ≤ i) : putDinode b k d i = b i := by
  have hn : NDIRECT + 1 = 13 := rfl
  rw [putDinode, setWords, if_neg (by omega), setLE, if_neg (by omega), setLE, if_neg (by omega),
    setLE, if_neg (by omega), setLE, if_neg (by omega), setLE, if_neg (by omega)]

/-- An inode is read from its own bytes. -/
theorem getDinode_congr {b c : Block} {k : Nat}
    (h : ∀ i, 64 * k ≤ i → i < 64 * k + 64 → b i = c i) : getDinode b k = getDinode c k := by
  have hn : NDIRECT + 1 = 13 := rfl
  have hf : ∀ o n, o + n ≤ 64 → getLE b (64 * k + o) n = getLE c (64 * k + o) n :=
    fun o n ho => getLE_congr fun i h1 h2 => h i (by omega) (by omega)
  apply Dinode.ext
  · exact hf 0 2 (by omega)
  · exact hf 2 2 (by omega)
  · exact hf 4 2 (by omega)
  · exact hf 6 2 (by omega)
  · exact hf 8 4 (by omega)
  · funext j
    show getLE b (64 * k + 12 + 4 * j) 4 = getLE c (64 * k + 12 + 4 * j) 4
    have hj := j.isLt
    rw [Nat.add_assoc]
    exact hf (12 + 4 * j) 4 (by omega)

/-- An inode leaves the others of its block alone. -/
theorem getDinode_putDinode_of_ne (b : Block) {k l : Nat} (d : Dinode) (hkl : l ≠ k) :
    getDinode (putDinode b k d) l = getDinode b l :=
  getDinode_congr fun _ h1 h2 => putDinode_of_out b k d (by omega)

/-! ## The bitmap -/

/-- `1 << (bi % 8)`. -/
def bitMask (bi : Nat) : UInt8 := UInt8.ofNat (2 ^ (bi % 8))

/-- `bp->data[bi/8] & m`, as a truth value. -/
def testBit (b : Block) (bi : Nat) : Bool := b (bi / 8) &&& bitMask bi != 0

/-- `bp->data[bi/8] |= m`. -/
def setBit (b : Block) (bi : Nat) : Block :=
  Function.update b (bi / 8) (b (bi / 8) ||| bitMask bi)

/-- `bp->data[bi/8] &= ~m`. -/
def clearBit (b : Block) (bi : Nat) : Block :=
  Function.update b (bi / 8) (b (bi / 8) &&& ~~~ bitMask bi)

theorem bitMask_toBitVec (bi : Nat) : (bitMask bi).toBitVec = BitVec.twoPow 8 (bi % 8) := by
  apply BitVec.eq_of_toNat_eq
  rw [BitVec.toNat_twoPow]
  rfl

/-- The mask of a bit picks it out of its byte. -/
theorem and_bitMask_ne_zero (x : UInt8) (bi : Nat) :
    (x &&& bitMask bi != 0) = x.toBitVec.getLsbD (bi % 8) := by
  have h8 : bi % 8 < 8 := Nat.mod_lt bi (by decide)
  have hz : (BitVec.twoPow 8 (bi % 8) == 0#8) = false := by
    rw [beq_eq_false_iff_ne]
    intro h
    have := congrArg (BitVec.getLsbD · (bi % 8)) h
    simp [h8] at this
  have hb : (x &&& bitMask bi != 0) = ((x &&& bitMask bi).toBitVec != 0#8) := by
    rw [bne, bne]
    congr 1
    rw [Bool.eq_iff_iff, beq_iff_eq, beq_iff_eq, ← UInt8.toBitVec_inj]
    rfl
  rw [hb, UInt8.toBitVec_and, bitMask_toBitVec, BitVec.and_twoPow]
  cases x.toBitVec.getLsbD (bi % 8) with
  | true => rw [if_pos rfl, bne, hz]; rfl
  | false => rfl

/-- Setting a bit sets that one. -/
theorem testBit_setBit (b : Block) (k j : Nat) :
    testBit (setBit b k) j = (decide (j = k) || testBit b j) := by
  rw [testBit, testBit, setBit, and_bitMask_ne_zero, and_bitMask_ne_zero]
  by_cases h : j / 8 = k / 8
  · rw [h, Function.update_self, UInt8.toBitVec_or, bitMask_toBitVec, BitVec.getLsbD_or,
      BitVec.getLsbD_twoPow, Bool.or_comm]
    congr 1
    have h8 : k % 8 < 8 := Nat.mod_lt k (by decide)
    rw [decide_eq_true h8, Bool.true_and]
    exact decide_eq_decide.2 (by omega)
  · rw [Function.update_of_ne h, decide_eq_false (by omega), Bool.false_or]

/-- Clearing a bit clears that one. -/
theorem testBit_clearBit (b : Block) (k j : Nat) :
    testBit (clearBit b k) j = (decide (j ≠ k) && testBit b j) := by
  rw [testBit, testBit, clearBit, and_bitMask_ne_zero, and_bitMask_ne_zero]
  by_cases h : j / 8 = k / 8
  · have hk : k % 8 < 8 := Nat.mod_lt k (by decide)
    have hj : j % 8 < 8 := Nat.mod_lt j (by decide)
    rw [h, Function.update_self, UInt8.toBitVec_and, UInt8.toBitVec_not, bitMask_toBitVec,
      BitVec.getLsbD_and, BitVec.getLsbD_not, BitVec.getLsbD_twoPow, Bool.and_comm,
      decide_eq_true hk, decide_eq_true hj, Bool.true_and, Bool.true_and, decide_not]
    congr 2
    exact decide_eq_decide.2 (by omega)
  · have hne : j ≠ k := fun he => h (by rw [he])
    rw [Function.update_of_ne h, decide_eq_true hne, Bool.true_and]

/-! ## Names and directory entries -/

/-- The name in a `struct dirent`: `DIRSIZ` bytes. -/
def direntName (de : Bytes) : List UInt8 := (List.range DIRSIZ).map fun i => de (2 + i)

/-- `de.inum`. -/
def direntInum (de : Bytes) : Nat := getLE de 0 2

/-- `strncpy(de.name, name, DIRSIZ); de.inum = inum;`. -/
def dirent (inum : Nat) (name : List UInt8) : Bytes :=
  setLE (fun i => name.getD (i - 2) 0) 0 2 inum

/-- `strncmp(p, q, n)`; a string ends at a zero or with the list. -/
def strncmp : List UInt8 → List UInt8 → Nat → Int
  | _, _, 0 => 0
  | p, q, n + 1 =>
    if p.headD 0 ≠ 0 ∧ p.headD 0 = q.headD 0 then strncmp p.tail q.tail n
    else (p.headD 0).toNat - (q.headD 0).toNat

/-- `namecmp(s, t)`. -/
def namecmp (s t : List UInt8) : Int := strncmp s t DIRSIZ

/-- `'/'`. -/
def SLASH : UInt8 := 47

/-- `skipelem(path, name)`: the next element of the path, cut to `DIRSIZ` bytes, and what follows
it; `none` if there is none. -/
def skipelem (path : List UInt8) : Option (List UInt8 × List UInt8) :=
  match path.dropWhile (· == SLASH) with
  | [] => none
  | c :: s =>
    some (((c :: s).takeWhile (· != SLASH)).take DIRSIZ,
      ((c :: s).dropWhile (· != SLASH)).dropWhile (· == SLASH))

/-- What follows an element is shorter. -/
theorem skipelem_length {path name rest : List UInt8} (h : skipelem path = some (name, rest)) :
    rest.length < path.length := by
  rw [skipelem] at h
  split at h
  · cases h
  · next c s hs =>
    cases h
    have hc : (c == SLASH) = false := by
      have hne : path.dropWhile (· == SLASH) ≠ [] := by
        rw [hs]
        exact List.cons_ne_nil _ _
      have := List.head_dropWhile_not (· == SLASH) hne
      simpa [hs] using this
    have h1 : ((c :: s).dropWhile (· != SLASH)).length ≤ s.length := by
      rw [List.dropWhile_cons_of_pos (by simpa using hc)]
      exact (List.dropWhile_suffix _).length_le
    have h2 : s.length < path.length := by
      have := (List.dropWhile_suffix (l := path) (· == SLASH)).length_le
      rw [hs, List.length_cons] at this
      exact this
    exact Nat.lt_of_le_of_lt (Nat.le_trans (List.dropWhile_suffix _).length_le h1) h2

end Xv6.Fs
