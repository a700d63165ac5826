import Xv6.Sched.Life
import Xv6.Vm.User

/-!
# Processes, files and pipes

The parts of `kernel/proc.c`, `file.c`, `pipe.c`, `sysproc.c` and `trap.c` that hold
physical pages: the process table, the file table and the pipes, which live in pages of their own.
System calls are written for the process `p` that makes them.  Inodes, the scheduler's fields and
the locks are left out: no page depends on them.
-/

set_option autoImplicit false

namespace Xv6

/-! ## State -/

def NPROC : Nat := 64

/-- `NOFILE`: open files per process. -/
def NOFILE : Nat := 16

/-- `NFILE`: open files per system. -/
def NFILE : Nat := 100

/-- The type of a `struct file`. -/
inductive FdType
  | none | pipe | inode | device
  deriving DecidableEq, Repr

/-- `struct file`. -/
structure File where
  type : FdType
  ref : Nat
  readable : Bool
  writable : Bool
  pipe : Nat

/-- `struct proc`. -/
structure Proc where
  state : ProcState
  killed : Bool
  xstate : Int
  pid : Nat
  parent : Option (Fin NPROC)
  sz : Nat
  pagetable : Nat
  trapframe : Nat
  ofile : Fin NOFILE → Option (Fin NFILE)
  /-- `name`, up to its zero. -/
  name : List UInt8

/-- The machine, as far as processes and their memory go. -/
structure Sys where
  mem : Mem
  proc : Fin NPROC → Proc
  file : Fin NFILE → File
  nextpid : Nat
  initproc : Fin NPROC

def Sys.setMem (s : Sys) (m : Mem) : Sys := { s with mem := m }

def Sys.setProc (s : Sys) (p : Fin NPROC) (x : Proc) : Sys :=
  { s with proc := Function.update s.proc p x }

def Sys.setFile (s : Sys) (f : Fin NFILE) (x : File) : Sys :=
  { s with file := Function.update s.file f x }

/-- Code that works on memory. -/
def onMem {α : Type} (k : Kern Mem α) : Kern Sys α := zoom Sys.mem Sys.setMem k

/-- Update the fields of process `p`. -/
def modifyProc (p : Fin NPROC) (f : Proc → Proc) : Kern Sys Unit :=
  modify fun s => s.setProc p (f (s.proc p))

def modifyFile (f : Fin NFILE) (g : File → File) : Kern Sys Unit :=
  modify fun s => s.setFile f (g (s.file f))

/-! ## `file.c` and `pipe.c` -/

/-- `filedup(f)`. -/
def filedup (f : Fin NFILE) : Kern Sys Unit := do
  let s ← get
  if (s.file f).ref < 1 then
    panic "filedup"
  modifyFile f fun x => { x with ref := x.ref + 1 }

/-- `pi->readopen`, of the `struct pipe` in the page `pi`. -/
def readopen (ram : Nat → Bytes) (pi : Nat) : Nat := getLE (ram pi) 544 4

/-- `pi->writeopen`. -/
def writeopen (ram : Nat → Bytes) (pi : Nat) : Nat := getLE (ram pi) 548 4

/-- A store to the `n`-byte field at offset `off` of a structure in the page `pa`. -/
def setField (pa off n v : Nat) : Kern Mem Unit :=
  modify fun m => { m with ram := Function.update m.ram pa (setLE (m.ram pa) off n v) }

section

variable (K : Image)

/-- `pipeclose(pi, writable)`. -/
def pipeclose (pi : Nat) (writable : Bool) : Kern Mem Unit := do
  if writable then
    setField pi 548 4 0
  else
    setField pi 544 4 0
  let m ← get
  if readopen m.ram pi = 0 ∧ writeopen m.ram pi = 0 then
    kfree K pi

/-- `fileclose(f)`; what it does to an inode is not modelled here. -/
def fileclose (f : Fin NFILE) : Kern Sys Unit := do
  let s ← get
  let ff := s.file f
  if ff.ref < 1 then
    panic "fileclose"
  if ff.ref - 1 > 0 then
    modifyFile f fun x => { x with ref := x.ref - 1 }
  else
    modifyFile f fun x => { x with ref := 0, type := .none }
    if ff.type = .pipe then
      onMem (pipeclose K ff.pipe ff.writable)

end

/-- `p->ofile[fd] = 0`. -/
def clearFd (p : Fin NPROC) (fd : Fin NOFILE) : Kern Sys Unit :=
  modifyProc p fun x => { x with ofile := Function.update x.ofile fd none }

/-- The bytes of an `int`. -/
def intBytes (n : Nat) : Bytes := setLE (fun _ => 0) 0 4 n

section

variable (K : Image)

/-! ## `proc.c` -/

/-- `safestrcpy(s, t, n)`: what the string `s` becomes. -/
def safestrcpy (t : List UInt8) (n : Nat) : List UInt8 := t.take (n - 1)

/-- `freeproc(p)`. -/
def freeproc (p : Fin NPROC) : Kern Sys Unit := do
  let s ← get
  if (s.proc p).trapframe ≠ 0 then
    onMem (kfree K (s.proc p).trapframe)
  modifyProc p fun x => { x with trapframe := 0 }
  if (s.proc p).pagetable ≠ 0 then
    onMem (procFreepagetable K (s.proc p).pagetable (s.proc p).sz)
  modifyProc p fun x => { x with
    pagetable := 0, sz := 0, pid := 0, parent := none, name := [], killed := false, xstate := 0
    state := .unused }

/-- `allocproc()`. -/
def allocproc : Kern Sys (Option (Fin NPROC)) := do
  let s ← get
  match (List.finRange NPROC).find? fun p => (s.proc p).state = .unused with
  | none => return none
  | some p =>
    modify fun s => { s with nextpid := s.nextpid + 1 }
    modifyProc p fun x => { x with pid := s.nextpid, state := .used }
    let tf ← onMem kalloc
    modifyProc p fun x => { x with trapframe := tf }
    if tf = 0 then
      freeproc K p
      return none
    let pt ← onMem (procPagetable K tf)
    modifyProc p fun x => { x with pagetable := pt }
    if pt = 0 then
      freeproc K p
      return none
    return some p

/-- The loop of `fork` over the open files of `p`. -/
def dupFiles (p np : Fin NPROC) : List (Fin NOFILE) → Kern Sys Unit
  | [] => pure ()
  | fd :: fds => do
    let s ← get
    match (s.proc p).ofile fd with
    | none => dupFiles p np fds
    | some f =>
      filedup f
      modifyProc np fun x => { x with ofile := Function.update x.ofile fd (some f) }
      dupFiles p np fds

/-- `fork()`; a `struct trapframe` has 288 bytes and `a0` is at offset 112. -/
def fork (p : Fin NPROC) : Kern Sys Int := do
  match ← allocproc K with
  | none => return -1
  | some np =>
    let s ← get
    if (← onMem (uvmcopy K (s.proc p).pagetable (s.proc np).pagetable (s.proc p).sz)) < 0 then
      freeproc K np
      return -1
    modifyProc np fun x => { x with sz := (s.proc p).sz }
    let m := (← get).mem
    onMem (writeBytes (s.proc np).trapframe 0 (m.ram (s.proc p).trapframe) 288)
    onMem (setField (s.proc np).trapframe 112 8 0)
    dupFiles p np (List.finRange NOFILE)
    modifyProc np fun x => { x with name := safestrcpy (s.proc p).name 16 }
    modifyProc np fun x => { x with parent := some p }
    modifyProc np fun x => { x with state := .runnable }
    return (s.proc np).pid

/-- `growproc(n)`. -/
def growproc (p : Fin NPROC) (n : Int) : Kern Sys Int := do
  let s ← get
  let sz := (s.proc p).sz
  let t := (s.proc p).pagetable
  if n > 0 then
    let sz' ← onMem (uvmalloc K t sz (ofInt64 (sz + n)) PTE_W)
    if sz' = 0 then
      return -1
    modifyProc p fun x => { x with sz := sz' }
    return 0
  else if n < 0 then
    let sz' ← onMem (uvmdealloc K t sz (ofInt64 (sz + n)))
    modifyProc p fun x => { x with sz := sz' }
    return 0
  else
    return 0

/-- `sys_sbrk()`, for the argument `n`: growing only moves `sz`. -/
def sysSbrk (p : Fin NPROC) (n : Int) : Kern Sys Int := do
  let s ← get
  let addr : Int := (s.proc p).sz
  if n > 0 then
    modifyProc p fun x => { x with sz := ofInt64 (x.sz + n) }
    return addr
  else if n < 0 then
    if (← growproc K p n) < 0 then
      return -1
    return addr
  else
    return addr

/-- The loop of `exit` over the open files of `p`. -/
def closeFiles (p : Fin NPROC) : List (Fin NOFILE) → Kern Sys Unit
  | [] => pure ()
  | fd :: fds => do
    let s ← get
    match (s.proc p).ofile fd with
    | none => closeFiles p fds
    | some f =>
      fileclose K f
      clearFd p fd
      closeFiles p fds

/-- `reparent(p)`. -/
def reparent (p : Fin NPROC) : Kern Sys Unit :=
  modify fun s => { s with proc := fun i =>
    if (s.proc i).parent = some p then { s.proc i with parent := some s.initproc } else s.proc i }

/-- `exit(status)`. -/
def exit (p : Fin NPROC) (status : Int) : Kern Sys Unit := do
  let s ← get
  if p = s.initproc then
    panic "init exiting"
  closeFiles K p (List.finRange NOFILE)
  reparent p
  modifyProc p fun x => { x with xstate := status, state := .zombie }

/-! ## `trap.c` -/

/-- The branch of `usertrap` for a page fault at `va`. -/
def pageFault (p : Fin NPROC) (va : Nat) : Kern Sys Unit := do
  let s ← get
  if va ≥ (s.proc p).sz then
    modifyProc p fun x => { x with killed := true }
  else if (← onMem (lazyAlloc K (s.proc p).pagetable va)) < 0 then
    modifyProc p fun x => { x with killed := true }

/-- `usertrapret()`: the way back to the user runs in the trampoline page and loads the registers
from the trapframe page, through the user's page table; without them it traps forever. -/
def usertrapret (p : Fin NPROC) : Kern Sys Unit := do
  let s ← get
  let t := (s.proc p).pagetable
  if mmuWalk s.mem TRAMPOLINE 2 t = 0 ∨ mmuWalk s.mem TRAPFRAME 2 t = 0 then
    diverge

/-- `usertrap` for a page fault at `va`, up to the return to the user: whether the process lives. -/
def usertrapFault (p : Fin NPROC) (va : Nat) : Kern Sys Bool := do
  pageFault K p va
  if ((← get).proc p).killed then
    exit K p (-1)
    return false
  usertrapret p
  return true

/-- A user load at `va`: the byte, unless the process is killed for it.  An instruction that
faults is retried; if it faults again for the same reason it does so forever. -/
def userLoad (p : Fin NPROC) (va : Nat) : Kern Sys (Option UInt8) := do
  let s ← get
  match mmu s.mem (s.proc p).pagetable va false with
  | some pa => return some (s.mem.ram pa (va % PGSIZE))
  | none =>
    if !(← usertrapFault K p va) then
      return none
    let s ← get
    match mmu s.mem (s.proc p).pagetable va false with
    | some pa => return some (s.mem.ram pa (va % PGSIZE))
    | none => diverge

/-- A user store at `va`: whether the process lives. -/
def userStore (p : Fin NPROC) (va : Nat) (x : UInt8) : Kern Sys Bool := do
  let s ← get
  match mmu s.mem (s.proc p).pagetable va true with
  | some pa =>
    onMem (writeBytes pa (va % PGSIZE) (fun _ => x) 1)
    return true
  | none =>
    if !(← usertrapFault K p va) then
      return false
    let s ← get
    match mmu s.mem (s.proc p).pagetable va true with
    | some pa =>
      onMem (writeBytes pa (va % PGSIZE) (fun _ => x) 1)
      return true
    | none => diverge

end

end Xv6
