import Xv6.Fs.Path
import Xv6.Sys.Exec

/-!
# File system calls

`kernel/file.c`, `kernel/sysfile.c`, and what `fork`, `exit` and `exec` do with files.  A call is
written for the process `p` that makes it, with its arguments: addresses of the user's memory for
paths and buffers, 32-bit words for integers.
-/

set_option autoImplicit false

namespace Xv6.Fs

variable {μ : Type} (sb : Superblock) (M : Memory μ)

def NDEV : Nat := 10

def O_WRONLY : Nat := 1

def O_RDWR : Nat := 2

def O_CREATE : Nat := 0x200

def O_TRUNC : Nat := 0x400

/-- A `short` is negative. -/
def negative (x : Nat) : Prop := 2 ^ 15 ≤ x

instance (x : Nat) : Decidable (negative x) := inferInstanceAs (Decidable (_ ≤ _))

/-- `x++`, of a `short`. -/
def incr16 (x : Nat) : Nat := (x + 1) % 2 ^ 16

/-- `x--`, of a `short`. -/
def decr16 (x : Nat) : Nat := (x + (2 ^ 16 - 1)) % 2 ^ 16

/-! ## `file.c` -/

def modifyFile (f : Fin NFILE) (g : File → File) : Kern (State μ) Unit :=
  modify fun s => s.setFile f (g (s.file f))

def modifyProc (p : Fin NPROC) (g : Proc → Proc) : Kern (State μ) Unit :=
  modify fun s => s.setProc p (g (s.proc p))

/-- `filealloc()`. -/
def filealloc : Kern (State μ) (Option (Fin NFILE)) := do
  let s ← get
  match (List.finRange NFILE).find? fun f => (s.file f).ref = 0 with
  | none => return none
  | some f =>
    modifyFile f fun x => { x with ref := 1 }
    return some f

/-- `filedup(f)`. -/
def filedup (f : Fin NFILE) : Kern (State μ) Unit := do
  let s ← get
  if (s.file f).ref < 1 then
    panic "filedup"
  else
    modifyFile f fun x => { x with ref := x.ref + 1 }

/-- `begin_op(); iput(ff.ip); end_op();`, for a file that is closed. -/
def closeInode (p : Fin NPROC) (f : Fin NFILE) (ip : Option (Fin NINODE)) :
    Kern (State μ) Unit := do
  beginOp
  let i ← deref ip
  record f false (.inode i)
  iput sb p i
  endOp

/-- `fileclose(f)`. -/
def fileclose (p : Fin NPROC) (f : Fin NFILE) : Kern (State μ) Unit := do
  let s ← get
  let ff := s.file f
  if ff.ref < 1 then
    panic "fileclose"
  else if ff.ref - 1 > 0 then
    modifyFile f fun x => { x with ref := x.ref - 1 }
  else
    modifyFile f fun x => { x with ref := 0, type := .none }
    match ff.type with
    | .pipe =>
      record f false (.pipe ff.pipe ff.writable)
      onMem (M.pipeclose ff.pipe ff.writable)
    | .none => return ()
    | _ => closeInode sb p f ff.ip

/-- `stati(ip, st)`: a `struct stat`. -/
def stati (ip : Inode) : Bytes :=
  let b := setLE (fun _ => 0) 0 4 ip.dev
  let b := setLE b 4 4 ip.inum
  let b := setLE b 8 2 ip.type
  let b := setLE b 10 2 ip.nlink
  setLE b 16 8 ip.size

/-- `filestat(f, addr)`. -/
def filestat (p : Fin NPROC) (f : Fin NFILE) (addr : Nat) : Kern (State μ) Int := do
  let s ← get
  if (s.file f).type = .inode ∨ (s.file f).type = .device then
    let i ← deref (s.file f).ip
    ilock sb p i
    let ip ← getInode i
    iunlock p i
    let r ← onMem (M.copyout p addr (stati ip) 24)
    if r < 0 then
      return -1
    else
      return 0
  else
    return -1

/-- `fileread(f, addr, n)`. -/
def fileread (p : Fin NPROC) (f : Fin NFILE) (addr : Nat) (n : Int) : Kern (State μ) Int := do
  let s ← get
  let ff := s.file f
  if !ff.readable then
    return -1
  else
    match ff.type with
    | .pipe => onMem (M.piperead p ff.pipe addr n)
    | .device =>
      if negative ff.major ∨ NDEV ≤ ff.major then
        return -1
      else
        match M.devread ff.major with
        | none => return -1
        | some read => onMem (read p addr n)
    | .inode =>
      let i ← deref ff.ip
      ilock sb p i
      let (r, _) ← readi sb M p i (.user addr) ff.off (ofInt32 n)
      if r > 0 then
        modifyFile f fun x => { x with off := (x.off + r.toNat) % 2 ^ 32 }
        iunlock p i
        return r
      else
        iunlock p i
        return r
    | .none => panic "fileread"

/-- The loop of `filewrite`, from the `i`th byte on: how many bytes were written.  Each round but
the last writes at least one byte, so `n` rounds are enough. -/
def filewriteFrom (p : Fin NPROC) (f : Fin NFILE) (addr n : Nat) : Nat → Nat → Kern (State μ) Nat
  | 0, i => pure i
  | k + 1, i => do
    if i < n then
      let n1 := min (n - i) ((MAXOPBLOCKS - 1 - 1 - 2) / 2 * BSIZE)
      beginOp
      let s ← get
      let ip ← deref (s.file f).ip
      ilock sb p ip
      let r ← writei sb M p ip (.user ((addr + i) % 2 ^ 64)) (s.file f).off n1
      if r > 0 then
        modifyFile f fun x => { x with off := (x.off + r.toNat) % 2 ^ 32 }
        iunlock p ip
        endOp
        if r ≠ n1 then
          -- error from writei
          return i
        else
          filewriteFrom p f addr n k (i + n1)
      else
        iunlock p ip
        endOp
        return i
    else
      return i

/-- `filewrite(f, addr, n)`. -/
def filewrite (p : Fin NPROC) (f : Fin NFILE) (addr : Nat) (n : Int) : Kern (State μ) Int := do
  let s ← get
  let ff := s.file f
  if !ff.writable then
    return -1
  else
    match ff.type with
    | .pipe => onMem (M.pipewrite p ff.pipe addr n)
    | .device =>
      if negative ff.major ∨ NDEV ≤ ff.major then
        return -1
      else
        match M.devwrite ff.major with
        | none => return -1
        | some write => onMem (write p addr n)
    | .inode =>
      let i ← filewriteFrom sb M p f addr n.toNat n.toNat 0
      if (i : Int) = n then
        return n
      else
        return -1
    | .none => panic "filewrite"

/-! ## `sysfile.c` -/

theorem fd_lt {fd : Int} (h : 0 ≤ fd ∧ fd.toNat < NOFILE) : fd.toNat < NOFILE := h.2

/-- `argfd`, for the descriptor. -/
def argfd (p : Fin NPROC) (fd : Int) : Kern (State μ) (Option (Fin NOFILE × Fin NFILE)) := do
  let s ← get
  if h : 0 ≤ fd ∧ fd.toNat < NOFILE then
    return ((s.proc p).ofile ⟨fd.toNat, fd_lt h⟩).map fun f => (⟨fd.toNat, fd_lt h⟩, f)
  else
    return none

/-- `fdalloc(f)`. -/
def fdalloc (p : Fin NPROC) (f : Fin NFILE) : Kern (State μ) (Option (Fin NOFILE)) := do
  let s ← get
  match (List.finRange NOFILE).find? fun fd => ((s.proc p).ofile fd).isNone with
  | none => return none
  | some fd =>
    modifyProc p fun x => { x with ofile := Function.update x.ofile fd (some f) }
    return some fd

/-- `p->ofile[fd] = 0`. -/
def clearFd (p : Fin NPROC) (fd : Fin NOFILE) : Kern (State μ) Unit :=
  modifyProc p fun x => { x with ofile := Function.update x.ofile fd none }

/-- `argstr(n, path, MAXPATH)`, for the address. -/
def argstr (p : Fin NPROC) (addr : Nat) : Kern (State μ) (Option (List UInt8)) :=
  onMem (M.fetchstr p addr MAXPATH)

/-- `sys_dup()`. -/
def sysDup (p : Fin NPROC) (fd : Int) : Kern (State μ) Int := do
  match ← argfd p fd with
  | none => return -1
  | some (_, f) =>
    match ← fdalloc p f with
    | none => return -1
    | some fd =>
      filedup f
      return fd

/-- `sys_read()`. -/
def sysRead (p : Fin NPROC) (fd : Int) (addr : Nat) (n : Int) : Kern (State μ) Int := do
  match ← argfd p fd with
  | none => return -1
  | some (_, f) => fileread sb M p f addr n

/-- `sys_write()`. -/
def sysWrite (p : Fin NPROC) (fd : Int) (addr : Nat) (n : Int) : Kern (State μ) Int := do
  match ← argfd p fd with
  | none => return -1
  | some (_, f) => filewrite sb M p f addr n

/-- `sys_close()`. -/
def sysClose (p : Fin NPROC) (fd : Int) : Kern (State μ) Int := do
  match ← argfd p fd with
  | none => return -1
  | some (fd, f) =>
    clearFd p fd
    fileclose sb M p f
    return 0

/-- `sys_fstat()`. -/
def sysFstat (p : Fin NPROC) (fd : Int) (st : Nat) : Kern (State μ) Int := do
  match ← argfd p fd with
  | none => return -1
  | some (_, f) => filestat sb M p f st

/-- The label `bad` of `sys_link`. -/
def linkBad (p : Fin NPROC) (ip : Fin NINODE) : Kern (State μ) Int := do
  ilock sb p ip
  modifyInode ip fun x => { x with nlink := decr16 x.nlink }
  iupdate sb ip
  iunlockput sb p ip
  endOp
  return -1

/-- `sys_link()` from `begin_op()` on. -/
def link (p : Fin NPROC) (old new : List UInt8) : Kern (State μ) Int := do
  beginOp
  match ← namei sb M p old with
  | none =>
    endOp
    return -1
  | some ip =>
    ilock sb p ip
    let x ← getInode ip
    if x.type = T_DIR then
      iunlockput sb p ip
      endOp
      return -1
    else
      modifyInode ip fun x => { x with nlink := incr16 x.nlink }
      iupdate sb ip
      iunlock p ip
      match ← nameiparent sb M p new with
      | none => linkBad sb p ip
      | some (dp, name) =>
        ilock sb p dp
        let d ← getInode dp
        if d.dev ≠ x.dev then
          iunlockput sb p dp
          linkBad sb p ip
        else
          let r ← dirlink sb M p dp name x.inum
          if r < 0 then
            iunlockput sb p dp
            linkBad sb p ip
          else
            iunlockput sb p dp
            iput sb p ip
            endOp
            return 0

/-- `sys_link()`. -/
def sysLink (p : Fin NPROC) (old new : Nat) : Kern (State μ) Int := do
  match ← argstr M p old with
  | none => return -1
  | some old =>
    match ← argstr M p new with
    | none => return -1
    | some new => link sb M p old new

/-- The loop of `isdirempty`, with at most `k` entries left. -/
def isdiremptyFrom (p : Fin NPROC) (dp : Fin NINODE) : Nat → Nat → Kern (State μ) Bool
  | 0, _ => pure true
  | k + 1, off => do
    let (r, de) ← readi sb M p dp .kernel off 16
    if r ≠ 16 then
      panic "isdirempty: readi"
    else if direntInum de ≠ 0 then
      return false
    else
      isdiremptyFrom p dp k (off + 16)

/-- `isdirempty(dp)`: the entries from the third on. -/
def isdirempty (p : Fin NPROC) (dp : Fin NINODE) : Kern (State μ) Bool := do
  let ip ← getInode dp
  isdiremptyFrom sb M p dp ((ip.size - 2 * 16 + 15) / 16) (2 * 16)

/-- The label `bad` of `sys_unlink`. -/
def unlinkBad (p : Fin NPROC) (dp : Fin NINODE) : Kern (State μ) Int := do
  iunlockput sb p dp
  endOp
  return -1

/-- `if(type == T_DIR){ dp->nlink = g(dp->nlink); iupdate(dp); }`: the entry ".." of a directory is
a link to its parent. -/
def parentLink (g : Nat → Nat) (dp : Fin NINODE) (type : Nat) : Kern (State μ) Unit := do
  if type = T_DIR then
    modifyInode dp fun d => { d with nlink := g d.nlink }
    iupdate sb dp
  else
    return ()

/-- The end of `sys_unlink`, where the entry at `off` of `dp` is erased. -/
def unlinkEntry (p : Fin NPROC) (dp ip : Fin NINODE) (off : Nat) : Kern (State μ) Int := do
  let r ← writei sb M p dp (.kernel fun _ => 0) off 16
  if r ≠ 16 then
    panic "unlink: writei"
  else
    let x ← getInode ip
    parentLink sb decr16 dp x.type
    iunlockput sb p dp
    modifyInode ip fun x => { x with nlink := decr16 x.nlink }
    iupdate sb ip
    iunlockput sb p ip
    endOp
    return 0

/-- `"."`. -/
def dot : List UInt8 := [46]

/-- `".."`. -/
def dotdot : List UInt8 := [46, 46]

/-- `sys_unlink()` from `begin_op()` on. -/
def unlink (p : Fin NPROC) (path : List UInt8) : Kern (State μ) Int := do
  beginOp
  match ← nameiparent sb M p path with
  | none =>
    endOp
    return -1
  | some (dp, name) =>
    ilock sb p dp
    -- cannot unlink "." or ".."
    if namecmp name dot = 0 ∨ namecmp name dotdot = 0 then
      unlinkBad sb p dp
    else
      match ← dirlookup sb M p dp name with
      | none => unlinkBad sb p dp
      | some (ip, off) =>
        ilock sb p ip
        let x ← getInode ip
        if x.nlink = 0 ∨ negative x.nlink then
          panic "unlink: nlink < 1"
        else if x.type = T_DIR then
          let empty ← isdirempty sb M p ip
          if empty then
            unlinkEntry sb M p dp ip off
          else
            iunlockput sb p ip
            unlinkBad sb p dp
        else
          unlinkEntry sb M p dp ip off

/-- `sys_unlink()`. -/
def sysUnlink (p : Fin NPROC) (path : Nat) : Kern (State μ) Int := do
  match ← argstr M p path with
  | none => return -1
  | some path => unlink sb M p path

/-- The label `fail` of `create`. -/
def createFail (p : Fin NPROC) (dp ip : Fin NINODE) : Kern (State μ) (Option (Fin NINODE)) := do
  modifyInode ip fun x => { x with nlink := 0 }
  iupdate sb ip
  iunlockput sb p ip
  iunlockput sb p dp
  return none

/-- `create` from the entry for the new inode in its parent on. -/
def createEntry (p : Fin NPROC) (dp ip : Fin NINODE) (name : List UInt8) (type : Nat) :
    Kern (State μ) (Option (Fin NINODE)) := do
  let x ← getInode ip
  let r ← dirlink sb M p dp name x.inum
  if r < 0 then
    createFail sb p dp ip
  else
    parentLink sb incr16 dp type
    iunlockput sb p dp
    return some ip

/-- `create(path, type, major, minor)`: the inode, locked. -/
def create (p : Fin NPROC) (path : List UInt8) (type major minor : Nat) :
    Kern (State μ) (Option (Fin NINODE)) := do
  match ← nameiparent sb M p path with
  | none => return none
  | some (dp, name) =>
    ilock sb p dp
    match ← dirlookup sb M p dp name with
    | some (ip, _) =>
      iunlockput sb p dp
      ilock sb p ip
      let x ← getInode ip
      if type = T_FILE ∧ (x.type = T_FILE ∨ x.type = T_DEVICE) then
        return some ip
      else
        iunlockput sb p ip
        return none
    | none =>
      let d ← getInode dp
      match ← ialloc sb d.dev type with
      | none =>
        iunlockput sb p dp
        return none
      | some ip =>
        ilock sb p ip
        modifyInode ip fun x => { x with major := major, minor := minor, nlink := 1 }
        iupdate sb ip
        if type = T_DIR then
          -- create . and .. entries
          let x ← getInode ip
          let r ← dirlink sb M p ip dot x.inum
          if r < 0 then
            createFail sb p dp ip
          else
            let r ← dirlink sb M p ip dotdot d.inum
            if r < 0 then
              createFail sb p dp ip
            else
              createEntry sb M p dp ip name type
        else
          createEntry sb M p dp ip name type

/-- The fields of a file that is opened on an inode. -/
def File.onInode (i : Fin NINODE) (ip : Inode) (omode : Nat) (x : File) : File where
  type := if ip.type = T_DEVICE then .device else .inode
  ref := x.ref
  readable := omode &&& O_WRONLY = 0
  writable := omode &&& O_WRONLY ≠ 0 ∨ omode &&& O_RDWR ≠ 0
  pipe := x.pipe
  ip := some i
  off := if ip.type = T_DEVICE then x.off else 0
  major := if ip.type = T_DEVICE then ip.major else x.major

/-- `if((omode & O_TRUNC) && ip->type == T_FILE) itrunc(ip);`. -/
def openTrunc (i : Fin NINODE) (ip : Inode) (omode : Nat) : Kern (State μ) Unit := do
  if omode &&& O_TRUNC ≠ 0 ∧ ip.type = T_FILE then
    itrunc sb i
  else
    return ()

/-- `sys_open` once it has the inode, locked. -/
def openInode (p : Fin NPROC) (i : Fin NINODE) (omode : Nat) : Kern (State μ) Int := do
  let ip ← getInode i
  if ip.type = T_DEVICE ∧ (negative ip.major ∨ NDEV ≤ ip.major) then
    iunlockput sb p i
    endOp
    return -1
  else
    match ← filealloc with
    | none =>
      iunlockput sb p i
      endOp
      return -1
    | some f =>
      match ← fdalloc p f with
      | none =>
        fileclose sb M p f
        iunlockput sb p i
        endOp
        return -1
      | some fd =>
        modifyFile f (File.onInode i ip omode)
        record f true (.inode i)
        openTrunc sb i ip omode
        iunlock p i
        endOp
        return fd

/-- `sys_open()` from `begin_op()` on. -/
def openPath (p : Fin NPROC) (path : List UInt8) (omode : Nat) : Kern (State μ) Int := do
  beginOp
  if omode &&& O_CREATE ≠ 0 then
    match ← create sb M p path T_FILE 0 0 with
    | none =>
      endOp
      return -1
    | some i => openInode sb M p i omode
  else
    match ← namei sb M p path with
    | none =>
      endOp
      return -1
    | some i =>
      ilock sb p i
      let ip ← getInode i
      if ip.type = T_DIR ∧ omode ≠ 0 then
        iunlockput sb p i
        endOp
        return -1
      else
        openInode sb M p i omode

/-- `sys_open()`. -/
def sysOpen (p : Fin NPROC) (path omode : Nat) : Kern (State μ) Int := do
  match ← argstr M p path with
  | none => return -1
  | some path => openPath sb M p path omode

/-- `sys_mkdir()` and `sys_mknod()`: `create`, and put what it made. -/
def makeNode (p : Fin NPROC) (path : Nat) (type major minor : Nat) : Kern (State μ) Int := do
  beginOp
  match ← argstr M p path with
  | none =>
    endOp
    return -1
  | some path =>
    match ← create sb M p path type major minor with
    | none =>
      endOp
      return -1
    | some ip =>
      iunlockput sb p ip
      endOp
      return 0

/-- `sys_mkdir()`. -/
def sysMkdir (p : Fin NPROC) (path : Nat) : Kern (State μ) Int :=
  makeNode sb M p path T_DIR 0 0

/-- `sys_mknod()`: the numbers are cut to a `short`. -/
def sysMknod (p : Fin NPROC) (path major minor : Nat) : Kern (State μ) Int :=
  makeNode sb M p path T_DEVICE (major % 2 ^ 16) (minor % 2 ^ 16)

/-- `sys_chdir()`. -/
def sysChdir (p : Fin NPROC) (path : Nat) : Kern (State μ) Int := do
  beginOp
  match ← argstr M p path with
  | none =>
    endOp
    return -1
  | some path =>
    match ← namei sb M p path with
    | none =>
      endOp
      return -1
    | some i =>
      ilock sb p i
      let ip ← getInode i
      if ip.type ≠ T_DIR then
        iunlockput sb p i
        endOp
        return -1
      else
        iunlock p i
        let s ← get
        let cwd ← deref (s.proc p).cwd
        iput sb p cwd
        endOp
        modifyProc p fun x => { x with cwd := some i }
        return 0

/-- The fields of a file on an end of a pipe: the one that is read, or the one that is written. -/
def File.onPipe (pi : Nat) (writable : Bool) (x : File) : File :=
  { x with type := .pipe, readable := !writable, writable := writable, pipe := pi }

/-- `pipealloc(f0, f1)`. -/
def pipealloc (p : Fin NPROC) : Kern (State μ) (Option (Fin NFILE × Fin NFILE)) := do
  match ← filealloc with
  | none => return none
  | some f0 =>
    match ← filealloc with
    | none =>
      fileclose sb M p f0
      return none
    | some f1 =>
      let pi ← onMem M.newpipe
      if pi = 0 then
        fileclose sb M p f0
        fileclose sb M p f1
        return none
      else
        modifyFile f0 (File.onPipe pi false)
        modifyFile f1 (File.onPipe pi true)
        record f0 true (.pipe pi false)
        record f1 true (.pipe pi true)
        return some (f0, f1)

/-- The end of a `sys_pipe` that fails with both files open. -/
def pipeBad (p : Fin NPROC) (rf wf : Fin NFILE) : Kern (State μ) Int := do
  fileclose sb M p rf
  fileclose sb M p wf
  return -1

/-- `sys_pipe()`. -/
def sysPipe (p : Fin NPROC) (fdarray : Nat) : Kern (State μ) Int := do
  match ← pipealloc sb M p with
  | none => return -1
  | some (rf, wf) =>
    match ← fdalloc p rf with
    | none => pipeBad sb M p rf wf
    | some fd0 =>
      match ← fdalloc p wf with
      | none =>
        clearFd p fd0
        pipeBad sb M p rf wf
      | some fd1 =>
        let r ← onMem (M.copyout p fdarray (intBytes fd0) 4)
        if r < 0 then
          clearFd p fd0
          clearFd p fd1
          pipeBad sb M p rf wf
        else
          let r ← onMem (M.copyout p ((fdarray + 4) % 2 ^ 64) (intBytes fd1) 4)
          if r < 0 then
            clearFd p fd0
            clearFd p fd1
            pipeBad sb M p rf wf
          else
            return 0

/-! ## `exec.c` -/

/-- The loop of `loadseg`, with `k` pages left. -/
def loadsegFrom (p : Fin NPROC) (pagetable va : Nat) (ip : Fin NINODE) (offset sz : Nat) :
    Nat → Nat → Kern (State μ) Int
  | 0, _ => pure 0
  | k + 1, i => do
    let pa ← onMem (M.walkaddr pagetable (va + i))
    if pa = 0 then
      panic "loadseg: address should exist"
    else
      let n := if sz - i < PGSIZE then sz - i else PGSIZE
      let (r, b) ← readi sb M p ip .kernel ((offset + i) % 2 ^ 32) n
      onMem (M.store pa b r.toNat)
      if r ≠ n then
        return -1
      else
        loadsegFrom p pagetable va ip offset sz k (i + PGSIZE)

/-- `loadseg(pagetable, va, ip, offset, sz)`. -/
def loadseg (p : Fin NPROC) (pagetable va : Nat) (ip : Fin NINODE) (offset sz : Nat) :
    Kern (State μ) Int :=
  loadsegFrom sb M p pagetable va ip offset sz ((sz + PGSIZE - 1) / PGSIZE) 0

/-- The loop of `exec` over the program headers, with `k` left: whether it came to the end, and the
size so far. -/
def execSegments (p : Fin NPROC) (ip : Fin NINODE) (pagetable : Nat) :
    Nat → Nat → Nat → Kern (State μ) (Bool × Nat)
  | 0, _, sz => pure (true, sz)
  | k + 1, off, sz => do
    let (r, ph) ← readi sb M p ip .kernel off 56
    if r ≠ 56 then
      return (false, sz)
    else
      let vaddr := getLE ph 16 8
      let filesz := getLE ph 32 8
      let memsz := getLE ph 40 8
      if getLE ph 0 4 ≠ 1 then
        execSegments p ip pagetable k ((off + 56) % 2 ^ 32) sz
      else if memsz < filesz ∨ (vaddr + memsz) % 2 ^ 64 < vaddr ∨ vaddr % PGSIZE ≠ 0 then
        return (false, sz)
      else
        let sz1 ← onMem (M.uvmalloc pagetable sz (vaddr + memsz) (flags2perm (getLE ph 4 4)))
        if sz1 = 0 then
          return (false, sz)
        else
          let r ← loadseg sb M p pagetable vaddr ip (getLE ph 8 8 % 2 ^ 32) (filesz % 2 ^ 32)
          if r < 0 then
            return (false, sz1)
          else
            execSegments p ip pagetable k ((off + 56) % 2 ^ 32) sz1

/-- `if(pagetable) proc_freepagetable(pagetable, sz);`. -/
def freePagetable (pagetable sz : Nat) : Kern (State μ) Unit := do
  if pagetable ≠ 0 then
    onMem (M.procFreepagetable pagetable sz)
  else
    return ()

/-- The label `bad` of `exec`, while it has the inode. -/
def execBad (p : Fin NPROC) (ip : Fin NINODE) (pagetable sz : Nat) : Kern (State μ) Int := do
  freePagetable M pagetable sz
  iunlockput sb p ip
  endOp
  return -1

/-- `exec(path, argv)`. -/
def exec (p : Fin NPROC) (path : List UInt8) (argv : List Nat) : Kern (State μ) Int := do
  beginOp
  match ← namei sb M p path with
  | none =>
    endOp
    return -1
  | some ip =>
    ilock sb p ip
    let (r, elf) ← readi sb M p ip .kernel 0 64
    if r ≠ 64 ∨ getLE elf 0 4 ≠ 0x464C457F then
      execBad sb M p ip 0 0
    else
      let pagetable ← onMem (M.procPagetable p)
      if pagetable = 0 then
        execBad sb M p ip 0 0
      else
        let (ok, sz) ← execSegments sb M p ip pagetable (getLE elf 56 2)
          (getLE elf 32 8 % 2 ^ 32) 0
        if !ok then
          execBad sb M p ip pagetable sz
        else
          iunlockput sb p ip
          endOp
          onMem (M.execTail p path pagetable sz (getLE elf 24 8) argv)

/-- `sys_exec()`. -/
def sysExec (p : Fin NPROC) (path uargv : Nat) : Kern (State μ) Int := do
  match ← argstr M p path with
  | none => return -1
  | some path =>
    let (ok, argv) ← onMem (M.fetchArgs p uargv)
    if !ok then
      onMem (M.freeArgs argv)
      return -1
    else
      let r ← exec sb M p path argv
      onMem (M.freeArgs argv)
      return r

/-! ## `proc.c` -/

/-- The loop of `fork` over the open files of `p`. -/
def dupFiles (p np : Fin NPROC) : List (Fin NOFILE) → Kern (State μ) Unit
  | [] => pure ()
  | fd :: fds => do
    let s ← get
    match (s.proc p).ofile fd with
    | none => dupFiles p np fds
    | some f =>
      filedup f
      modifyProc np fun x => { x with ofile := Function.update x.ofile fd (some f) }
      dupFiles p np fds

/-- `fork()`. -/
def fork (p : Fin NPROC) : Kern (State μ) Int := do
  let s ← get
  match (List.finRange NPROC).find? fun np => (s.proc np).state = .unused with
  | none => return -1
  | some np =>
    match ← onMem (M.fork p np) with
    | none => return -1
    | some pid =>
      modifyProc np fun x => { x with state := .used }
      dupFiles p np (List.finRange NOFILE)
      let cwd ← deref (s.proc p).cwd
      idup cwd
      modifyProc np fun x => { x with cwd := some cwd }
      modifyProc np fun x => { x with state := .runnable }
      return pid

/-- The loop of `exit` over the open files of `p`. -/
def closeFiles (p : Fin NPROC) : List (Fin NOFILE) → Kern (State μ) Unit
  | [] => pure ()
  | fd :: fds => do
    let s ← get
    match (s.proc p).ofile fd with
    | none => closeFiles p fds
    | some f =>
      fileclose sb M p f
      clearFd p fd
      closeFiles p fds

/-- `exit(status)`. -/
def exit (p : Fin NPROC) : Kern (State μ) Int := do
  let s ← get
  if p = s.initproc then
    panic "init exiting"
  else
    closeFiles sb M p (List.finRange NOFILE)
    beginOp
    let cwd ← deref (s.proc p).cwd
    iput sb p cwd
    endOp
    modifyProc p fun x => { x with cwd := none }
    modifyProc p fun x => { x with state := .zombie }
    return 0

/-- What `wait` does to the zombie `pp`. -/
def reap (pp : Fin NPROC) : Kern (State μ) Int := do
  let s ← get
  if (s.proc pp).state = .zombie then
    onMem (M.freeproc pp)
    modifyProc pp fun x => { x with state := .unused }
    return 0
  else
    return -1

/-! ## Calls -/

/-- The system calls that use files, with their arguments. -/
inductive Call
  | open (path omode : Nat)
  | close (fd : Int)
  | dup (fd : Int)
  | pipe (fdarray : Nat)
  | read (fd : Int) (addr : Nat) (n : Int)
  | write (fd : Int) (addr : Nat) (n : Int)
  | fstat (fd : Int) (st : Nat)
  | link (old new : Nat)
  | unlink (path : Nat)
  | mkdir (path : Nat)
  | mknod (path major minor : Nat)
  | chdir (path : Nat)
  | exec (path uargv : Nat)
  | fork
  | exit
  | wait (pp : Fin NPROC)

/-- A call of the process `p`. -/
def Call.run (p : Fin NPROC) : Call → Kern (State μ) Int
  | .open path omode => sysOpen sb M p path omode
  | .close fd => sysClose sb M p fd
  | .dup fd => sysDup p fd
  | .pipe fdarray => sysPipe sb M p fdarray
  | .read fd addr n => sysRead sb M p fd addr n
  | .write fd addr n => sysWrite sb M p fd addr n
  | .fstat fd st => sysFstat sb M p fd st
  | .link old new => sysLink sb M p old new
  | .unlink path => sysUnlink sb M p path
  | .mkdir path => sysMkdir sb M p path
  | .mknod path major minor => sysMknod sb M p path major minor
  | .chdir path => sysChdir sb M p path
  | .exec path uargv => sysExec sb M p path uargv
  | .fork => Fs.fork M p
  | .exit => Fs.exit sb M p
  | .wait pp => reap M pp

/-- An entry of a table that has never been used. -/
def Inode.blank : Inode :=
  { Dinode.zero with dev := 0, inum := 0, ref := 0, lock := none, valid := false }

def File.blank : File where
  type := .none
  ref := 0
  readable := false
  writable := false
  pipe := 0
  ip := none
  off := 0
  major := 0

def Proc.blank : Proc where
  state := .unused
  ofile := fun _ => none
  cwd := none

/-- After `userinit()`: the first process stands in the root directory. -/
def boot (disk : Nat → Block) (mem : μ) : State μ where
  disk := disk
  outstanding := 0
  lh := []
  itable := Function.update (fun _ => Inode.blank) ⟨0, ninode_pos⟩
    { Inode.blank with dev := ROOTDEV, inum := ROOTINO, ref := 1 }
  file := fun _ => File.blank
  proc := Function.update (fun _ => Proc.blank) ⟨0, nproc_pos⟩
    { Proc.blank with state := .runnable, cwd := some ⟨0, ninode_pos⟩ }
  initproc := ⟨0, nproc_pos⟩
  events := []
  mem := mem

/-- A process can make calls. -/
def Proc.alive (x : Proc) : Prop := x.state ≠ .unused ∧ x.state ≠ .zombie

/-- The states after complete calls, one after the other, by live processes. -/
inductive Reach (disk : Nat → Block) (mem : μ) : State μ → Prop
  | boot : Reach disk mem (boot disk mem)
  | call {s s' : State μ} {p : Fin NPROC} {c : Call} {r : Int} : Reach disk mem s →
      (s.proc p).alive → c.run sb M p s = .ok r s' → Reach disk mem s'

end Xv6.Fs
