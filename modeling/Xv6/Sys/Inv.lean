import Mathlib.Algebra.BigOperators.Fin
import Xv6.Sys.Exec

/-!
# Who holds which page

Every page of physical memory is on the free list, or in one process (its trapframe, its tables,
its user pages), or a pipe that is open, or was taken at boot time.  `SysOk` says so, together with
what makes each owner well formed.

Its parameters say in which respects a state in the middle of a system call may differ: `R` are
the pages that are held by neither a process nor a pipe, and `x f` is how many references to the
file `f` are held by no file descriptor.  `B` is whether every process is known to have its pages
below `sz` and `sz` below the trapframe.
-/

set_option autoImplicit false

namespace Xv6

/-! ### Updates of the state -/

section

variable (s : Sys) (m : Mem) (p : Fin NPROC) (y : Proc)

@[simp] theorem setMem_mem : (s.setMem m).mem = m := rfl
@[simp] theorem setMem_proc : (s.setMem m).proc = s.proc := rfl
@[simp] theorem setProc_mem : (s.setProc p y).mem = s.mem := rfl
@[simp] theorem setProc_proc : (s.setProc p y).proc = Function.update s.proc p y := rfl

end

@[simp] theorem wp_onMem {α : Type} {k : Kern Mem α} {s : Sys} {Q : α → Sys → Prop}
    {E : Halt → Sys → Prop} : wp (onMem k) Q E s ↔
      wp k (fun a m => Q a (s.setMem m)) (fun e m => E e (s.setMem m)) s.mem := wp_zoom

@[simp] theorem wp_modifyProc {p : Fin NPROC} {f : Proc → Proc} {s : Sys} {Q : Unit → Sys → Prop}
    {E : Halt → Sys → Prop} :
    wp (modifyProc p f) Q E s ↔ Q () (s.setProc p (f (s.proc p))) := wp_modify _

/-! ### Owners -/

/-- The pages of a process. -/
def procPages (ram : Nat → Bytes) (p : Proc) : Multiset Nat :=
  if p.pagetable = 0 then 0 else {p.trapframe} + spacePages ram p.pagetable

/-- Every mapped page is below `sz`, and `sz` is below the trapframe. -/
structure Tight (ram : Nat → Bytes) (p : Proc) : Prop where
  sz_le : p.sz ≤ TRAPFRAME
  below : ∀ v, v < UVPN → leaf ram p.pagetable v ≠ 0 → v < vpnup p.sz

/-- A process that is in use has an address space; a free one has none. -/
structure ProcOk (K : Image) (B : Prop) (ram : Nat → Bytes) (p : Proc) : Prop where
  unused : p.state = .unused → p.pagetable = 0 ∧ p.trapframe = 0 ∧ p.sz = 0
  shape : p.state ≠ .unused → p.pagetable ≠ 0 ∧ Shape K ram p.pagetable p.trapframe
  tight : B → p.state ≠ .unused → Tight ram p
  sz_lt : p.sz < 2 ^ 64

/-- The file `f` is an end of a pipe. -/
def IsEnd (file : Fin NFILE → File) (f : Fin NFILE) : Prop :=
  0 < (file f).ref ∧ (file f).type = .pipe

instance (file : Fin NFILE → File) (f : Fin NFILE) : Decidable (IsEnd file f) :=
  inferInstanceAs (Decidable (_ ∧ _))

/-- The pages of the pipes that have an open end. -/
def pipePages (file : Fin NFILE → File) : Finset Nat :=
  (Finset.univ.filter (IsEnd file)).image fun f => (file f).pipe

/-- Whether the end of the pipe that `writable` says is open. -/
def endOpen (ram : Nat → Bytes) (pi : Nat) (writable : Bool) : Prop :=
  (if writable then writeopen ram pi else readopen ram pi) ≠ 0

/-- The flags of a pipe say which of its ends are open, and each open end is one file. -/
structure PipesOk (ram : Nat → Bytes) (file : Fin NFILE → File) : Prop where
  free : ∀ f, (file f).ref = 0 → (file f).type = .none
  opened : ∀ f, IsEnd file f → endOpen ram (file f).pipe (file f).writable
  uniq : ∀ f g, IsEnd file f → IsEnd file g → (file f).pipe = (file g).pipe →
    (file f).writable = (file g).writable → f = g
  held : ∀ f, IsEnd file f → ∀ w, endOpen ram (file f).pipe w →
    ∃ g, IsEnd file g ∧ (file g).pipe = (file f).pipe ∧ (file g).writable = w

/-- How many file descriptors refer to the file `f`. -/
def refCount (proc : Fin NPROC → Proc) (f : Fin NFILE) : Nat :=
  ∑ i, ∑ fd, if (proc i).ofile fd = some f then 1 else 0

/-- The state is well formed. -/
structure SysOk (K : Image) (B : Prop) (R : Multiset Nat) (x : Fin NFILE → Nat) (s : Sys) : Prop where
  good : Good K s.mem (∑ i, procPages s.mem.ram (s.proc i) + ((pipePages s.file).val + R))
  procs : ∀ i, ProcOk K B s.mem.ram (s.proc i)
  pipes : PipesOk s.mem.ram s.file
  refs : ∀ f, (s.file f).ref = refCount s.proc f + x f
  idle : ∀ i, (s.proc i).state = .unused ∨ (s.proc i).state = .zombie →
    ∀ fd, (s.proc i).ofile fd = none

end Xv6
