import Mathlib.Data.List.FinRange
import Xv6.Fs.Layout
import Xv6.Sys.Proc

/-!
# Blocks and inodes

The lower half of `kernel/fs.c`: the allocator of disk blocks, the inodes, and their content.

The log and the buffer cache below it are modelled in `Disk`; here `disk` is what they show, the
latest content of each block, and of the log there remain the count of calls in progress and the
list of blocks logged since the last commit.  Calls run one at a time: a path that would have to
wait for a lock, or for space in the log, sleeps forever.

Whatever lies in memory, the user's and the kernel's, is seen through `Memory`: the operations that
the file system uses, with nothing assumed about them.
-/

set_option autoImplicit false

namespace Xv6.Fs

/-- `NINODE`: the most active inodes. -/
def NINODE : Nat := 50

theorem ninode_pos : 0 < NINODE := by decide

theorem nproc_pos : 0 < NPROC := by decide

/-! ## State -/

/-- `struct inode`: the copy of a disk inode, and what is known of it in memory. -/
structure Inode extends Dinode where
  dev : Nat
  inum : Nat
  ref : Int
  /-- The process that holds the sleep lock. -/
  lock : Option (Fin NPROC)
  /-- Has the inode been read from the disk? -/
  valid : Bool

/-- `struct file`. -/
structure File where
  type : FdType
  ref : Int
  readable : Bool
  writable : Bool
  /-- The page of the `struct pipe`. -/
  pipe : Nat
  ip : Option (Fin NINODE)
  off : Nat
  major : Nat

/-- `struct proc`, as far as files go. -/
structure Proc where
  state : ProcState
  ofile : Fin NOFILE → Option (Fin NFILE)
  cwd : Option (Fin NINODE)

/-- What a file stands for: an end of a pipe, or an inode. -/
inductive Obj
  | pipe (pi : Nat) (writable : Bool)
  | inode (i : Fin NINODE)
  deriving DecidableEq

/-- A file was opened on an object, or has released it. -/
structure Event where
  file : Fin NFILE
  opened : Bool
  obj : Obj

/-- The file system, the open files and the memory. -/
structure State (μ : Type) where
  disk : Nat → Block
  /-- `log.outstanding`. -/
  outstanding : Int
  /-- `log.lh`. -/
  lh : List Nat
  itable : Fin NINODE → Inode
  file : Fin NFILE → File
  proc : Fin NPROC → Proc
  initproc : Fin NPROC
  /-- Ghost: what the files were opened on, and what they released, latest first. -/
  events : List Event
  mem : μ

/-- What the file system asks of memory.  A page table is the number of its root page, and `0`
stands for the null pointer. -/
structure Memory (μ : Type) where
  /-- `copyout(p->pagetable, dstva, src, len)`. -/
  copyout : Fin NPROC → Nat → Bytes → Nat → Kern μ Int
  /-- `copyin(p->pagetable, dst, srcva, len)`, with what `dst` has become. -/
  copyin : Fin NPROC → Bytes → Nat → Nat → Kern μ (Int × Bytes)
  /-- `fetchstr(addr, buf, max)`: the string, or `none` for -1. -/
  fetchstr : Fin NPROC → Nat → Nat → Kern μ (Option (List UInt8))
  /-- `kalloc()` and the fields of a new `struct pipe`. -/
  newpipe : Kern μ Nat
  pipeclose : Nat → Bool → Kern μ Unit
  piperead : Fin NPROC → Nat → Nat → Int → Kern μ Int
  pipewrite : Fin NPROC → Nat → Nat → Int → Kern μ Int
  /-- `devsw[major].read`. -/
  devread : Nat → Option (Fin NPROC → Nat → Int → Kern μ Int)
  /-- `devsw[major].write`. -/
  devwrite : Nat → Option (Fin NPROC → Nat → Int → Kern μ Int)
  /-- The memory of a child: the pages that `allocproc` takes, and `uvmcopy`. -/
  fork : Fin NPROC → Fin NPROC → Kern μ (Option Int)
  /-- `freeproc(p)`. -/
  freeproc : Fin NPROC → Kern μ Unit
  procPagetable : Fin NPROC → Kern μ Nat
  procFreepagetable : Nat → Nat → Kern μ Unit
  uvmalloc : Nat → Nat → Nat → Nat → Kern μ Nat
  walkaddr : Nat → Nat → Kern μ Nat
  /-- Store bytes in a page. -/
  store : Nat → Bytes → Nat → Kern μ Unit
  /-- `exec` from the stack on: path, page table, size, entry point, arguments. -/
  execTail : Fin NPROC → List UInt8 → Nat → Nat → Nat → List Nat → Kern μ Int
  /-- The loop of `sys_exec` over the arguments. -/
  fetchArgs : Fin NPROC → Nat → Kern μ (Bool × List Nat)
  freeArgs : List Nat → Kern μ Unit

variable {μ : Type}

namespace State

/-- Change one inode of the table. -/
def setInode (s : State μ) (i : Fin NINODE) (x : Inode) : State μ :=
  { s with itable := Function.update s.itable i x }

/-- Change one file. -/
def setFile (s : State μ) (f : Fin NFILE) (x : File) : State μ :=
  { s with file := Function.update s.file f x }

/-- Change one process. -/
def setProc (s : State μ) (p : Fin NPROC) (x : Proc) : State μ :=
  { s with proc := Function.update s.proc p x }

def setMem (s : State μ) (m : μ) : State μ := { s with mem := m }

theorem setInode_self (s : State μ) (i : Fin NINODE) (x : Inode) :
    (s.setInode i x).itable i = x := Function.update_self ..

theorem setInode_of_ne (s : State μ) {i j : Fin NINODE} (h : j ≠ i) (x : Inode) :
    (s.setInode i x).itable j = s.itable j := Function.update_of_ne h ..

end State

/-- Code that works on memory.  What it says when it panics is its own. -/
def onMem {α : Type} (k : Kern μ α) : Kern (State μ) α := fun s =>
  match k s.mem with
  | .ok a m => .ok a (s.setMem m)
  | .error (.panic _) m => .error (.panic "memory") (s.setMem m)
  | .error e m => .error e (s.setMem m)

/-- Ghost: note that `f` was opened on `o`, or has released it. -/
def record (f : Fin NFILE) (opened : Bool) (o : Obj) : Kern (State μ) Unit :=
  modify fun s => { s with events := ⟨f, opened, o⟩ :: s.events }

/-- Update an inode of the table. -/
def modifyInode (i : Fin NINODE) (f : Inode → Inode) : Kern (State μ) Unit :=
  modify fun s => s.setInode i (f (s.itable i))

/-- Look at an inode of the table. -/
def getInode (i : Fin NINODE) : Kern (State μ) Inode := do
  return (← get).itable i

/-! ## The log, as the file system uses it -/

/-- `begin_op()`. -/
def beginOp : Kern (State μ) Unit := do
  let s ← get
  if (s.lh.length : Int) + (s.outstanding + 1) * MAXOPBLOCKS > LOGSIZE then
    -- this op might exhaust log space; wait for commit
    sleep
  else
    set { s with outstanding := s.outstanding + 1 }

/-- `end_op()`. -/
def endOp : Kern (State μ) Unit :=
  modify fun s =>
    if s.outstanding - 1 = 0 then { s with outstanding := s.outstanding - 1, lh := [] }
    else { s with outstanding := s.outstanding - 1 }

/-- The data of `bread(dev, b)`. -/
def bread (b : Nat) : Kern (State μ) Block := do
  return (← get).disk b

section

variable (sb : Superblock)

/-- `log_write(bp)`, for the buffer of block `b` that has come to hold `data`. -/
def logWrite (b : Nat) (data : Block) : Kern (State μ) Unit := do
  let s ← get
  if LOGSIZE ≤ s.lh.length ∨ sb.nlog ≤ s.lh.length + 1 then
    panic "too big a transaction"
  else if s.outstanding < 1 then
    panic "log_write outside of trans"
  else
    set { s with
      disk := Function.update s.disk b data
      lh := if b ∈ s.lh then s.lh else s.lh ++ [b] }

/-! ## Blocks -/

/-- `bzero(dev, bno)`. -/
def bzero (bno : Nat) : Kern (State μ) Unit := logWrite sb bno fun _ => 0

/-- The inner loop of `balloc`, with `k` bits of the block left: the first clear one. -/
def freeBit (data : Block) (b : Nat) : Nat → Nat → Option Nat
  | 0, _ => none
  | k + 1, bi =>
    if b + bi < sb.size then
      if testBit data bi then freeBit data b k (bi + 1) else some bi
    else none

/-- The outer loop of `balloc`, with at most `k` blocks of the bitmap left. -/
def ballocFrom : Nat → Nat → Kern (State μ) Nat
  | 0, _ => pure 0
  | k + 1, b => do
    if b < sb.size then
      let data ← bread (bblock b sb)
      match freeBit sb data b BPB 0 with
      | some bi =>
        logWrite sb (bblock b sb) (setBit data bi)
        bzero sb (b + bi)
        return b + bi
      | none => ballocFrom k (b + BPB)
    else
      return 0

/-- `balloc(dev)`: a zeroed block, or `0`. -/
def balloc : Kern (State μ) Nat := ballocFrom sb (sb.size / BPB + 1) 0

/-- `bfree(dev, b)`. -/
def bfree (b : Nat) : Kern (State μ) Unit := do
  let data ← bread (bblock b sb)
  if testBit data (b % BPB) then
    logWrite sb (bblock b sb) (clearBit data (b % BPB))
  else
    panic "freeing free block"

/-! ## Inodes -/

/-- `iupdate(ip)`. -/
def iupdate (i : Fin NINODE) : Kern (State μ) Unit := do
  let ip ← getInode i
  let data ← bread (iblock ip.inum sb)
  logWrite sb (iblock ip.inum sb) (putDinode data (ip.inum % IPB) ip.toDinode)

/-- `iget(dev, inum)`. -/
def iget (dev inum : Nat) : Kern (State μ) (Fin NINODE) := do
  let s ← get
  -- is the inode already in the table?
  match (List.finRange NINODE).find? fun i =>
      0 < (s.itable i).ref ∧ (s.itable i).dev = dev ∧ (s.itable i).inum = inum with
  | some i =>
    set (s.setInode i { s.itable i with ref := (s.itable i).ref + 1 })
    return i
  | none =>
    -- recycle an inode entry
    match (List.finRange NINODE).find? fun i => (s.itable i).ref = 0 with
    | some i =>
      set (s.setInode i { s.itable i with dev := dev, inum := inum, ref := 1, valid := false })
      return i
    | none => panic "iget: no inodes"

/-- `idup(ip)`. -/
def idup (i : Fin NINODE) : Kern (State μ) Unit :=
  modifyInode i fun ip => { ip with ref := ip.ref + 1 }

/-- The loop of `ialloc`, with `k` inodes left. -/
def iallocFrom (dev type : Nat) : Nat → Nat → Kern (State μ) (Option (Fin NINODE))
  | 0, _ => pure none
  | k + 1, inum => do
    let data ← bread (iblock inum sb)
    if (getDinode data (inum % IPB)).type = 0 then
      logWrite sb (iblock inum sb)
        (putDinode data (inum % IPB) { Dinode.zero with type := type })
      let i ← iget dev inum
      return some i
    else
      iallocFrom dev type k (inum + 1)

/-- `ialloc(dev, type)`. -/
def ialloc (dev type : Nat) : Kern (State μ) (Option (Fin NINODE)) :=
  iallocFrom sb dev type (sb.ninodes - 1) 1

/-- `acquiresleep(&ip->lock)`. -/
def acquiresleep (p : Fin NPROC) (i : Fin NINODE) : Kern (State μ) Unit := do
  let ip ← getInode i
  if ip.lock.isSome then
    sleep
  else
    modifyInode i fun ip => { ip with lock := some p }

/-- `releasesleep(&ip->lock)`. -/
def releasesleep (i : Fin NINODE) : Kern (State μ) Unit :=
  modifyInode i fun ip => { ip with lock := none }

/-- `ilock(ip)`. -/
def ilock (p : Fin NPROC) (i : Fin NINODE) : Kern (State μ) Unit := do
  let ip ← getInode i
  if ip.ref < 1 then
    panic "ilock"
  else
    acquiresleep p i
    if ip.valid then
      return ()
    else
      let data ← bread (iblock ip.inum sb)
      let din := getDinode data (ip.inum % IPB)
      modifyInode i fun ip => { ip with toDinode := din, valid := true }
      if din.type = 0 then
        panic "ilock: no type"
      else
        return ()

/-- `iunlock(ip)`. -/
def iunlock (p : Fin NPROC) (i : Fin NINODE) : Kern (State μ) Unit := do
  let ip ← getInode i
  if ip.lock ≠ some p ∨ ip.ref < 1 then
    panic "iunlock"
  else
    releasesleep i

/-! ## Inode content -/

/-- `if((addr = ip->addrs[k]) == 0){ addr = balloc(dev); if(addr) ip->addrs[k] = addr; }`. -/
def addrAt (i : Fin NINODE) (k : Fin (NDIRECT + 1)) : Kern (State μ) Nat := do
  let ip ← getInode i
  if ip.addrs k = 0 then
    let addr ← balloc sb
    if addr = 0 then
      return 0
    else
      modifyInode i fun ip => { ip with addrs := Function.update ip.addrs k addr }
      return addr
  else
    return ip.addrs k

/-- `bmap(ip, bn)`. -/
def bmap (i : Fin NINODE) (bn : Nat) : Kern (State μ) Nat := do
  if h : bn < NDIRECT then
    addrAt sb i ⟨bn, Nat.lt_succ_of_lt h⟩
  else if bn - NDIRECT < NINDIRECT then
    -- load indirect block, allocating if necessary
    let ind ← addrAt sb i (Fin.last NDIRECT)
    if ind = 0 then
      return 0
    else
      let a ← bread ind
      if getLE a (4 * (bn - NDIRECT)) 4 = 0 then
        let addr ← balloc sb
        if addr = 0 then
          return 0
        else
          let a ← bread ind
          logWrite sb ind (setLE a (4 * (bn - NDIRECT)) 4 addr)
          return addr
      else
        return getLE a (4 * (bn - NDIRECT)) 4
  else
    panic "bmap: out of range"

/-- The loop of `itrunc` over the direct blocks. -/
def itruncDirect (i : Fin NINODE) : List (Fin NDIRECT) → Kern (State μ) Unit
  | [] => pure ()
  | k :: ks => do
    let ip ← getInode i
    if ip.addrs k.castSucc = 0 then
      itruncDirect i ks
    else
      bfree sb (ip.addrs k.castSucc)
      modifyInode i fun ip => { ip with addrs := Function.update ip.addrs k.castSucc 0 }
      itruncDirect i ks

/-- The loop of `itrunc` over the indirect block `a`. -/
def itruncIndirect (a : Block) : List Nat → Kern (State μ) Unit
  | [] => pure ()
  | j :: js => do
    if getLE a (4 * j) 4 = 0 then
      itruncIndirect a js
    else
      bfree sb (getLE a (4 * j) 4)
      itruncIndirect a js

/-- `itrunc(ip)`. -/
def itrunc (i : Fin NINODE) : Kern (State μ) Unit := do
  itruncDirect sb i (List.finRange NDIRECT)
  let ip ← getInode i
  if ip.addrs (Fin.last NDIRECT) = 0 then
    modifyInode i fun ip => { ip with size := 0 }
    iupdate sb i
  else
    let a ← bread (ip.addrs (Fin.last NDIRECT))
    itruncIndirect sb a (List.range NINDIRECT)
    bfree sb (ip.addrs (Fin.last NDIRECT))
    modifyInode i fun ip =>
      { ip with addrs := Function.update ip.addrs (Fin.last NDIRECT) 0, size := 0 }
    iupdate sb i

/-- `iput(ip)`. -/
def iput (p : Fin NPROC) (i : Fin NINODE) : Kern (State μ) Unit := do
  let ip ← getInode i
  if ip.ref = 1 ∧ ip.valid ∧ ip.nlink = 0 then
    -- inode has no links and no other references: truncate and free
    acquiresleep p i
    itrunc sb i
    modifyInode i fun ip => { ip with type := 0 }
    iupdate sb i
    modifyInode i fun ip => { ip with valid := false }
    releasesleep i
    modifyInode i fun ip => { ip with ref := ip.ref - 1 }
  else
    modifyInode i fun ip => { ip with ref := ip.ref - 1 }

/-- `iunlockput(ip)`. -/
def iunlockput (p : Fin NPROC) (i : Fin NINODE) : Kern (State μ) Unit := do
  iunlock p i
  iput sb p i

section

variable (M : Memory μ)

/-- Where `readi` puts what it reads: a buffer of the kernel, or an address of the user. -/
inductive Dst
  | kernel
  | user (va : Nat)

/-- `either_copyout(user_dst, dst + tot, src, len)`, where `buf` is the kernel's buffer. -/
def eitherCopyout (p : Fin NPROC) (dst : Dst) (buf : Bytes) (tot : Nat) (src : Bytes)
    (len : Nat) : Kern (State μ) (Int × Bytes) :=
  match dst with
  | .kernel => pure (0, blit buf tot src len)
  | .user va => do
    let r ← onMem (M.copyout p ((va + tot) % 2 ^ 64) src len)
    return (r, buf)

/-- The loop of `readi`.  Each round reads at least one byte, so `n` rounds are enough. -/
def readiFrom (p : Fin NPROC) (i : Fin NINODE) (dst : Dst) (n : Nat) :
    Nat → Nat → Nat → Bytes → Kern (State μ) (Int × Bytes)
  | 0, tot, _, buf => pure (tot, buf)
  | k + 1, tot, off, buf => do
    if tot < n then
      let addr ← bmap sb i (off / BSIZE)
      if addr = 0 then
        return (tot, buf)
      else
        let data ← bread addr
        let m := min (n - tot) (BSIZE - off % BSIZE)
        let (r, buf) ← eitherCopyout M p dst buf tot (fun j => data (off % BSIZE + j)) m
        if r = -1 then
          return (-1, buf)
        else
          readiFrom p i dst n k (tot + m) (off + m) buf
    else
      return (tot, buf)

/-- `readi(ip, user_dst, dst, off, n)`: the result, and the kernel's buffer. -/
def readi (p : Fin NPROC) (i : Fin NINODE) (dst : Dst) (off n : Nat) :
    Kern (State μ) (Int × Bytes) := do
  let ip ← getInode i
  if off > ip.size ∨ (off + n) % 2 ^ 32 < off then
    return (0, fun _ => 0)
  else if (off + n) % 2 ^ 32 > ip.size then
    readiFrom sb M p i dst (ip.size - off) (ip.size - off) 0 off fun _ => 0
  else
    readiFrom sb M p i dst n n 0 off fun _ => 0

/-- Where `writei` takes what it writes: a buffer of the kernel, or an address of the user. -/
inductive Src
  | kernel (buf : Bytes)
  | user (va : Nat)

/-- `either_copyin(data + o, user_src, src + tot, len)`, with what `data` has become. -/
def eitherCopyin (p : Fin NPROC) (data : Block) (o : Nat) (src : Src) (tot len : Nat) :
    Kern (State μ) (Int × Block) :=
  match src with
  | .kernel buf => pure (0, blit data o (fun j => buf (tot + j)) len)
  | .user va => do
    let (r, b) ← onMem (M.copyin p (fun j => data (o + j)) ((va + tot) % 2 ^ 64) len)
    return (r, blit data o b len)

/-- The loop of `writei`: how many bytes it has written.  A copy that fails has changed the cached
block all the same. -/
def writeiFrom (p : Fin NPROC) (i : Fin NINODE) (src : Src) (n : Nat) :
    Nat → Nat → Nat → Kern (State μ) Nat
  | 0, tot, _ => pure tot
  | k + 1, tot, off => do
    if tot < n then
      let addr ← bmap sb i (off / BSIZE)
      if addr = 0 then
        return tot
      else
        let data ← bread addr
        let m := min (n - tot) (BSIZE - off % BSIZE)
        let (r, data) ← eitherCopyin M p data (off % BSIZE) src tot m
        if r = -1 then
          modify fun s => { s with disk := Function.update s.disk addr data }
          return tot
        else
          logWrite sb addr data
          writeiFrom p i src n k (tot + m) (off + m)
    else
      return tot

/-- `writei(ip, user_src, src, off, n)`. -/
def writei (p : Fin NPROC) (i : Fin NINODE) (src : Src) (off n : Nat) :
    Kern (State μ) Int := do
  let ip ← getInode i
  if off > ip.size ∨ (off + n) % 2 ^ 32 < off then
    return -1
  else if (off + n) % 2 ^ 32 > MAXFILE * BSIZE then
    return -1
  else
    let tot ← writeiFrom sb M p i src n n 0 off
    modifyInode i fun ip => { ip with size := max ip.size (off + tot) }
    iupdate sb i
    return tot

end

end

end Xv6.Fs
