import Xv6.Fs.Layout

/-!
# Building a file system image

`mkfs/mkfs.c`.  The state is the image file and the two counters of the program; a call of `die`
and a failed `assert` end it, so that only the runs that return reach `exit(0)`.

Sector numbers are natural numbers: `sec * BSIZE` would wrap from sector `2 ^ 22` on, but the
sectors are visited from below, and `rsect` dies at the end of the image.
-/

set_option autoImplicit false

namespace Xv6.Mkfs

open Fs

/-- `NINODES`. -/
def NINODES : Nat := 200

/-- `FSSIZE`: the blocks of the image. -/
def FSSIZE : Nat := 2000

/-- `FSMAGIC`. -/
def FSMAGIC : Nat := 0x10203040

def nbitmap : Nat := FSSIZE / (BSIZE * 8) + 1

def ninodeblocks : Nat := NINODES / IPB + 1

def nlog : Nat := 30

/-- The number of meta blocks: boot, superblock, log, inodes, bitmap. -/
def nmeta : Nat := 2 + nlog + ninodeblocks + nbitmap

def nblocks : Nat := FSSIZE - nmeta

def sb : Superblock where
  magic := FSMAGIC
  size := FSSIZE
  nblocks := nblocks
  ninodes := NINODES
  nlog := nlog
  logstart := 2
  inodestart := 2 + nlog
  bmapstart := 2 + nlog + ninodeblocks

/-- The image file, of `len` sectors, and the counters. -/
structure State where
  img : Nat → Block
  len : Nat
  freeinode : Nat
  freeblock : Nat

/-! ## Sectors and inodes -/

/-- `wsect(sec, buf)`. -/
def wsect (sec : Nat) (buf : Block) : Kern State Unit :=
  modify fun s => { s with img := Function.update s.img sec buf, len := max s.len (sec + 1) }

/-- `rsect(sec, buf)`: there is nothing to read past the end of the image. -/
def rsect (sec : Nat) : Kern State Block := do
  let s ← get
  if sec < s.len then return s.img sec else panic "read"

/-- `winode(inum, ip)`. -/
def winode (inum : Nat) (ip : Dinode) : Kern State Unit := do
  let buf ← rsect (iblock inum sb)
  wsect (iblock inum sb) (putDinode buf (inum % IPB) ip)

/-- `rinode(inum, ip)`. -/
def rinode (inum : Nat) : Kern State Dinode := do
  let buf ← rsect (iblock inum sb)
  return getDinode buf (inum % IPB)

/-- `ialloc(type)`. -/
def ialloc (type : Nat) : Kern State Nat := do
  let s ← get
  let inum := s.freeinode
  set { s with freeinode := s.freeinode + 1 }
  winode inum { Dinode.zero with type := type, nlink := 1, size := 0 }
  return inum

/-- The bitmap with the first `used` bits set. -/
def bitmap : Nat → Block
  | 0 => fun _ => 0
  | i + 1 => setBit (bitmap i) i

/-- `balloc(used)`. -/
def balloc (used : Nat) : Kern State Unit :=
  if used < BSIZE * 8 then wsect sb.bmapstart (bitmap used) else panic "used < BSIZE*8"

/-! ## Appending to a file -/

/-- `freeblock++`. -/
def takeBlock : Kern State Nat := do
  let s ← get
  set { s with freeblock := s.freeblock + 1 }
  return s.freeblock

/-- `ip->addrs[k] = x`. -/
def setAddr (d : Dinode) (k : Fin (NDIRECT + 1)) (x : Nat) : Dinode :=
  { d with addrs := Function.update d.addrs k x }

/-- The address in `din.addrs[k]`, which gets a new block if it has none. -/
def addrFor (d : Dinode) (k : Fin (NDIRECT + 1)) : Kern State Dinode :=
  if d.addrs k = 0 then do
    let x ← takeBlock
    return setAddr d k x
  else
    return d

/-- The part of `iappend` that finds the block `x` for block `fbn` of the file. -/
def blockFor (d : Dinode) (fbn : Nat) : Kern State (Nat × Dinode) :=
  if h : fbn < NDIRECT then do
    let d ← addrFor d ⟨fbn, Nat.lt_succ_of_lt h⟩
    return (d.addrs ⟨fbn, Nat.lt_succ_of_lt h⟩, d)
  else do
    let d ← addrFor d (Fin.last NDIRECT)
    let indirect ← rsect (d.addrs (Fin.last NDIRECT))
    if getLE indirect (4 * (fbn - NDIRECT)) 4 = 0 then
      let x ← takeBlock
      wsect (d.addrs (Fin.last NDIRECT)) (setLE indirect (4 * (fbn - NDIRECT)) 4 x)
      return (x, d)
    else
      return (getLE indirect (4 * (fbn - NDIRECT)) 4, d)

/-- The loop of `iappend`, with at most `k` rounds left. -/
def iappendFrom : Nat → Dinode → Nat → List UInt8 → Kern State (Dinode × Nat)
  | 0, d, off, _ => pure (d, off)
  | k + 1, d, off, p =>
    if 0 < p.length then
      if off / BSIZE < MAXFILE then do
        let (x, d) ← blockFor d (off / BSIZE)
        let n1 := min p.length ((off / BSIZE + 1) * BSIZE - off)
        let buf ← rsect x
        wsect x (blit buf (off - off / BSIZE * BSIZE) (fun j => p.getD j 0) n1)
        iappendFrom k d (off + n1) (p.drop n1)
      else
        panic "fbn < MAXFILE"
    else
      pure (d, off)

/-- `iappend(inum, p, n)`.  Each round appends at least one byte. -/
def iappend (inum : Nat) (p : List UInt8) : Kern State Unit := do
  let din ← rinode inum
  let (d, off) ← iappendFrom p.length din din.size p
  winode inum { d with size := off }

/-! ## The program -/

/-- A file on the command line: its name, and what the calls of `read` return until the end of the
file. -/
structure Input where
  path : List UInt8
  reads : List (List UInt8)
  path_ne : 0 ∉ path
  reads_le : ∀ c ∈ reads, c.length ≤ BSIZE
  reads_pos : ∀ c ∈ reads, 0 < c.length

/-- The bytes of a file. -/
def Input.bytes (f : Input) : List UInt8 := f.reads.flatten

/-- `"user/"`. -/
def userDir : List UInt8 := [117, 115, 101, 114, SLASH]

/-- The name without `user/`. -/
def Input.base (f : Input) : List UInt8 :=
  if strncmp f.path userDir 5 = 0 then f.path.drop 5 else f.path

/-- The name in the file system: without a leading `_`. -/
def Input.shortname (f : Input) : List UInt8 :=
  if f.base.head? = some 95 then f.base.tail else f.base

/-- The bytes of a directory entry. -/
def direntBytes (inum : Nat) (name : List UInt8) : List UInt8 :=
  (List.range 16).map (dirent inum name)

/-- Append what is read. -/
def copyIn (inum : Nat) : List (List UInt8) → Kern State Unit
  | [] => pure ()
  | c :: cs => do
    iappend inum c
    copyIn inum cs

/-- One file of the command line. -/
def addFile (rootino : Nat) (f : Input) : Kern State Unit :=
  if SLASH ∈ f.base then
    panic "index(shortname, '/') == 0"
  else do
    let inum ← ialloc T_FILE
    iappend rootino (direntBytes inum f.shortname)
    copyIn inum f.reads

def addFiles (rootino : Nat) : List Input → Kern State Unit
  | [] => pure ()
  | f :: fs => do
    addFile rootino f
    addFiles rootino fs

/-- Write zeroes from sector `i` on. -/
def clear : Nat → Nat → Kern State Unit
  | 0, _ => pure ()
  | k + 1, i => do
    wsect i fun _ => 0
    clear k (i + 1)

/-- `memmove(buf, &sb, sizeof(sb))`. -/
def superblockBytes : Block :=
  setWords (fun _ => 0) 0 8 fun j =>
    [sb.magic, sb.size, sb.nblocks, sb.ninodes, sb.nlog, sb.logstart, sb.inodestart,
      sb.bmapstart].getD j 0

/-- `"."` and `".."`. -/
def dot : List UInt8 := [46]

def dotdot : List UInt8 := [46, 46]

/-- Fix the size of the root directory. -/
def fixRoot (rootino : Nat) : Kern State Unit := do
  let din ← rinode rootino
  winode rootino { din with size := (din.size / BSIZE + 1) * BSIZE }

/-- `main`, from the opening of the image on. -/
def main (files : List Input) : Kern State Unit := do
  clear FSSIZE 0
  wsect 1 superblockBytes
  let rootino ← ialloc T_DIR
  if rootino ≠ ROOTINO then
    panic "rootino == ROOTINO"
  else
    iappend rootino (direntBytes rootino dot)
    iappend rootino (direntBytes rootino dotdot)
    addFiles rootino files
    fixRoot rootino
    let s ← get
    balloc s.freeblock

/-- The image is empty, and `freeblock` is the first block after the meta blocks. -/
def start : State where
  img := fun _ _ => 0
  len := 0
  freeinode := 1
  freeblock := nmeta

end Xv6.Mkfs
