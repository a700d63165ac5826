import Xv6.Sys.Proc

/-!
# `exec`

`kernel/exec.c` and `sys_exec` of `sysfile.c`.  A file is its size and its bytes, and `namei` says
which file a path names; the inode layer below is modelled elsewhere.
-/

set_option autoImplicit false

namespace Xv6

def MAXARG : Nat := 32

def MAXPATH : Nat := 128

/-- A file, as `exec` reads it. -/
structure Exe where
  size : Nat
  data : Bytes

/-- `readi(ip, 0, dst, off, n)` reads from `off` on; this is how many bytes. -/
def Exe.readi (ip : Exe) (off n : Nat) : Nat :=
  if off > ip.size ∨ (off + n) % 2 ^ 32 < off then 0
  else if off + n > ip.size then ip.size - off else n

/-- `strlen(s)`, for a string that ends within a page. -/
def strlen (s : Bytes) : Nat := ((List.range PGSIZE).find? fun n => s n = 0).getD PGSIZE

/-- `strlen` finds the zero. -/
theorem strlen_spec {s : Bytes} (h : ∃ n, n < PGSIZE ∧ s n = 0) :
    strlen s < PGSIZE ∧ s (strlen s) = 0 ∧ ∀ j, j < strlen s → s j ≠ 0 := by
  obtain ⟨n, hn, h0⟩ := h
  cases hf : (List.range PGSIZE).find? fun n => s n = 0 with
  | none =>
    exact absurd (decide_eq_true h0) (List.find?_eq_none.1 hf n (List.mem_range.2 hn))
  | some k =>
    have hlen : strlen s = k := by
      rw [strlen, hf]
      rfl
    have hk := List.find?_some hf
    rw [List.find?_range_eq_some] at hf
    rw [hlen]
    refine ⟨List.mem_range.1 hf.2.1, of_decide_eq_true hk, fun j hj hj0 => ?_⟩
    have hno := hf.2.2 j hj
    rw [decide_eq_true hj0] at hno
    cases hno

-- `strlen` searches a page, which must never be enumerated.
attribute [irreducible] strlen

/-- `flags2perm(flags)`. -/
def flags2perm (flags : Nat) : Nat :=
  let perm := if flags &&& 1 ≠ 0 then PTE_X else 0
  if flags &&& 2 ≠ 0 then perm ||| PTE_W else perm

/-- The loop of `loadseg`, with `k` pages left. -/
def loadsegFrom (pagetable va : Nat) (ip : Exe) (offset sz : Nat) : Nat → Nat → Kern Mem Int
  | 0, _ => pure 0
  | k + 1, i => do
    let pa ← walkaddr pagetable (va + i)
    if pa = 0 then
      panic "loadseg: address should exist"
    let n := if sz - i < PGSIZE then sz - i else PGSIZE
    let off := (offset + i) % 2 ^ 32
    writeBytes pa 0 (fun j => ip.data (off + j)) (ip.readi off n)
    if ip.readi off n ≠ n then
      return -1
    loadsegFrom pagetable va ip offset sz k (i + PGSIZE)

/-- `loadseg(pagetable, va, ip, offset, sz)`. -/
def loadseg (pagetable va : Nat) (ip : Exe) (offset sz : Nat) : Kern Mem Int :=
  loadsegFrom pagetable va ip offset sz ((sz + PGSIZE - 1) / PGSIZE) 0

section

variable (K : Image)

/-- The loop of `exec` over the program headers, with `k` left: whether it came to the end, and the
size so far.  A `struct proghdr` has 56 bytes. -/
def execSegments (ip : Exe) (pagetable : Nat) : Nat → Nat → Nat → Kern Mem (Bool × Nat)
  | 0, _, sz => pure (true, sz)
  | k + 1, off, sz => do
    if ip.readi off 56 ≠ 56 then
      return (false, sz)
    let vaddr := getLE ip.data (off + 16) 8
    let filesz := getLE ip.data (off + 32) 8
    let memsz := getLE ip.data (off + 40) 8
    if getLE ip.data off 4 ≠ 1 then
      execSegments ip pagetable k ((off + 56) % 2 ^ 32) sz
    else if memsz < filesz then
      return (false, sz)
    else if (vaddr + memsz) % 2 ^ 64 < vaddr then
      return (false, sz)
    else if vaddr % PGSIZE ≠ 0 then
      return (false, sz)
    else
      let sz1 ← uvmalloc K pagetable sz (vaddr + memsz) (flags2perm (getLE ip.data (off + 4) 4))
      if sz1 = 0 then
        return (false, sz)
      let offset := getLE ip.data (off + 8) 8 % 2 ^ 32
      if (← loadseg pagetable vaddr ip offset (filesz % 2 ^ 32)) < 0 then
        return (false, sz1)
      execSegments ip pagetable k ((off + 56) % 2 ^ 32) sz1

/-- The loop of `exec` that pushes the argument strings; `argv` are the pages that hold those
left, and `ustack` the addresses of those pushed, last first. -/
def execArgs (pagetable stackbase : Nat) : List Nat → Nat → List Nat →
    Kern Mem (Option (Nat × List Nat))
  | [], sp, ustack => pure (some (sp, ustack))
  | arg :: argv, sp, ustack => do
    if ustack.length ≥ MAXARG then
      return none
    let m ← get
    let len := strlen (m.ram arg) + 1
    let sp := (sp + 2 ^ 64 - len) % 2 ^ 64
    let sp := sp - sp % 16
    if sp < stackbase then
      return none
    if (← copyout pagetable sp (m.ram arg) len) < 0 then
      return none
    execArgs pagetable stackbase argv sp (sp :: ustack)

/-- The array of `uint64`, as bytes. -/
def wordBytes (ws : List Nat) : Bytes := fun j => UInt8.ofNat (ws.getD (j / 8) 0 / 256 ^ (j % 8))

/-- The middle of `exec`: the stack and the arguments, from the size after the segments on.  The
result is the final size, and on success the stack pointer and `argc`. -/
def execStack (pagetable : Nat) (argv : List Nat) (sz : Nat) :
    Kern Mem (Nat × Option (Nat × Nat)) := do
  let sz := pgroundup sz
  let sz1 ← uvmalloc K pagetable sz (sz + 2 * PGSIZE) PTE_W
  if sz1 = 0 then
    return (sz, none)
  let sz := sz1
  uvmclear pagetable (sz - 2 * PGSIZE)
  let stackbase := sz - PGSIZE
  match ← execArgs pagetable stackbase argv sz [] with
  | none => return (sz, none)
  | some (sp, ustack) =>
    let argc := ustack.length
    let sp := (sp + 2 ^ 64 - (argc + 1) * 8) % 2 ^ 64
    let sp := sp - sp % 16
    if sp < stackbase then
      return (sz, none)
    if (← copyout pagetable sp (wordBytes (ustack.reverse ++ [0])) ((argc + 1) * 8)) < 0 then
      return (sz, none)
    return (sz, some (sp, argc))

/-- `last`, in `exec`: what follows the last slash of the path. -/
def lastElement (path : List UInt8) : List UInt8 := (path.reverse.takeWhile (· ≠ 47)).reverse

/-- `exec` from the stack on, for a page table with a program of size `sz` and its entry point; `a1`,
`epc` and `sp` are at offsets 120, 24 and 48 of the trapframe. -/
def execTail (p : Fin NPROC) (path : List UInt8) (pagetable sz entry : Nat) (argv : List Nat) :
    Kern Sys Int := do
  let s ← get
  let tf := (s.proc p).trapframe
  let (sz, r) ← onMem (execStack K pagetable argv sz)
  match r with
  | none =>
    onMem (procFreepagetable K pagetable sz)
    return -1
  | some (sp, argc) =>
    onMem (setField tf 120 8 sp)
    modifyProc p fun x => { x with name := safestrcpy (lastElement path) 16 }
    modifyProc p fun x => { x with pagetable := pagetable, sz := sz }
    onMem (setField tf 24 8 entry)
    onMem (setField tf 48 8 sp)
    onMem (procFreepagetable K (s.proc p).pagetable (s.proc p).sz)
    return argc

/-- `exec(path, argv)`, for the file that the path names. -/
def exec (p : Fin NPROC) (path : List UInt8) (file : Option Exe) (argv : List Nat) :
    Kern Sys Int := do
  match file with
  | none => return -1
  | some ip =>
    if ip.readi 0 64 ≠ 64 then
      return -1
    if getLE ip.data 0 4 ≠ 0x464C457F then
      return -1
    let s ← get
    let pagetable ← onMem (procPagetable K (s.proc p).trapframe)
    if pagetable = 0 then
      return -1
    let (ok, sz) ← onMem (execSegments K ip pagetable (getLE ip.data 56 2)
      (getLE ip.data 32 8 % 2 ^ 32) 0)
    if !ok then
      onMem (procFreepagetable K pagetable sz)
      return -1
    execTail K p path pagetable sz (getLE ip.data 24 8) argv

/-- `fetchaddr(addr, ip)`: the `uint64`, or `none` for -1. -/
def fetchaddr (p : Proc) (addr : Nat) : Kern Mem (Option Nat) := do
  if addr ≥ p.sz ∨ (addr + 8) % 2 ^ 64 > p.sz then
    return none
  let (r, b) ← copyin p.pagetable (fun _ => 0) addr 8
  if r ≠ 0 then
    return none
  return some (getLE b 0 8)

/-- The loop of `sys_exec` over the argument pointers, with `k` places left in `argv`; `pages` are
the pages it has taken, last first.  The result says whether it came to the null pointer. -/
def fetchArgs (p : Proc) (uargv : Nat) : Nat → List Nat → Kern Mem (Bool × List Nat)
  | 0, pages => pure (false, pages)
  | k + 1, pages => do
    match ← fetchaddr p ((uargv + 8 * pages.length) % 2 ^ 64) with
    | none => return (false, pages)
    | some uarg =>
      if uarg = 0 then
        return (true, pages)
      let page ← kalloc
      if page = 0 then
        return (false, pages)
      let m ← get
      let (r, b) ← copyinstr p.pagetable (m.ram page) uarg PGSIZE
      modify fun m => { m with ram := Function.update m.ram page b }
      if r < 0 then
        return (false, page :: pages)
      fetchArgs p uargv k (page :: pages)

/-- The loop that frees the pages of `argv`. -/
def freeArgs : List Nat → Kern Mem Unit
  | [] => pure ()
  | page :: pages => do
    kfree K page
    freeArgs pages

/-- `sys_exec()`, for its two arguments. -/
def sysExec (namei : List UInt8 → Option Exe) (p : Fin NPROC) (upath uargv : Nat) :
    Kern Sys Int := do
  let s ← get
  let (r, path) ← onMem (copyinstr (s.proc p).pagetable (fun _ => 0) upath MAXPATH)
  if r < 0 then
    return -1
  let (ok, pages) ← onMem (fetchArgs (s.proc p) uargv MAXARG [])
  if !ok then
    onMem (freeArgs K pages.reverse)
    return -1
  let path := ((List.range MAXPATH).map path).takeWhile (· ≠ 0)
  let ret ← exec K p path (namei path) pages.reverse
  onMem (freeArgs K pages.reverse)
  return ret

end

end Xv6
