import Xv6.Vm.Mem

/-!
# Page tables

`kernel/vm.c`, and from `kernel/proc.c` the two functions that make and free the page table of a
process.  A `pte_t *` is a pair of a table's address and an index into it, and the null
pointer is `none`; a null page address is `0`.  Each loop is a recursion on the number of
iterations left, over the body of the source.
-/

set_option autoImplicit false

namespace Xv6

/-- The entry `i` of the table `p`. -/
def Mem.pte (m : Mem) (p i : Nat) : Nat := getLE (m.ram p) (8 * i) 8

/-- `*pte = v`, for the entry `i` of the table `p`. -/
def setPte (p i v : Nat) : Kern Mem Unit :=
  modify fun m => { m with ram := Function.update m.ram p (setLE (m.ram p) (8 * i) 8 v) }

/-- The loop of `walk`, at `level`. -/
def walkLevel (alloc : Bool) (va : Nat) : Nat → Nat → Kern Mem (Option (Nat × Nat))
  | 0, pagetable => pure (some (pagetable, px 0 va))
  | level + 1, pagetable => do
    let m ← get
    let pte := m.pte pagetable (px (level + 1) va)
    if has pte PTE_V then
      walkLevel alloc va level (pte2pa pte)
    else if !alloc then
      return none
    else
      let pa ← kalloc
      if pa = 0 then
        return none
      memsetPage pa 0
      setPte pagetable (px (level + 1) va) (pa2pte pa ||| PTE_V)
      walkLevel alloc va level pa

/-- `walk(pagetable, va, alloc)`. -/
def walk (pagetable va : Nat) (alloc : Bool) : Kern Mem (Option (Nat × Nat)) := do
  if va ≥ MAXVA then
    panic "walk"
  walkLevel alloc va 2 pagetable

/-- `walkaddr(pagetable, va)`. -/
def walkaddr (pagetable va : Nat) : Kern Mem Nat := do
  if va ≥ MAXVA then
    return 0
  match ← walk pagetable va false with
  | none => return 0
  | some (p, i) =>
    let m ← get
    if !has (m.pte p i) PTE_V then
      return 0
    if !has (m.pte p i) PTE_U then
      return 0
    return pte2pa (m.pte p i)

/-- The loop of `mappages`, with `k` pages left. -/
def mappagesFrom (pagetable perm : Nat) : Nat → Nat → Nat → Kern Mem Int
  | 0, _, _ => pure 0
  | k + 1, a, pa => do
    match ← walk pagetable a true with
    | none => return -1
    | some (p, i) =>
      let m ← get
      if has (m.pte p i) PTE_V then
        panic "mappages: remap"
      setPte p i (pa2pte pa ||| perm ||| PTE_V)
      mappagesFrom pagetable perm k (a + PGSIZE) (pa + PGSIZE)

/-- `mappages(pagetable, va, size, pa, perm)`. -/
def mappages (pagetable va size pa perm : Nat) : Kern Mem Int := do
  if va % PGSIZE ≠ 0 then
    panic "mappages: va not aligned"
  if size % PGSIZE ≠ 0 then
    panic "mappages: size not aligned"
  if size = 0 then
    panic "mappages: size"
  mappagesFrom pagetable perm (size / PGSIZE) va pa

/-- `uvmcreate()`. -/
def uvmcreate : Kern Mem Nat := do
  let pagetable ← kalloc
  if pagetable = 0 then
    return 0
  memsetPage pagetable 0
  return pagetable

/-- `memmove(pa + off, src, n)`, inside one page. -/
def writeBytes (pa off : Nat) (src : Bytes) (n : Nat) : Kern Mem Unit :=
  modify fun m => { m with
    ram := Function.update m.ram pa fun j =>
      if off ≤ j ∧ j < off + n then src (j - off) else m.ram pa j }

/-- `uvmfirst(pagetable, src, sz)`. -/
def uvmfirst (pagetable : Nat) (src : Bytes) (sz : Nat) : Kern Mem Unit := do
  if sz ≥ PGSIZE then
    panic "uvmfirst: more than a page"
  let mem ← kalloc
  memsetPage mem 0
  let _ ← mappages pagetable 0 PGSIZE mem (PTE_W ||| PTE_R ||| PTE_X ||| PTE_U)
  writeBytes mem 0 src sz

/-! ### Copying between kernel and user

`dst` and `src` are buffers of the kernel, of which `done` bytes have been dealt with.  Every
iteration but the last moves on by a page, so `len + 1` bounds their number. -/

/-- The loop of `copyout`, with `len` bytes left. -/
def copyoutFrom (pagetable : Nat) (src : Bytes) : Nat → Nat → Nat → Nat → Kern Mem Int
  | 0, _, _, _ => diverge
  | fuel + 1, dstva, done, len => do
    if len = 0 then
      return 0
    let va0 := pgrounddown dstva
    if va0 ≥ MAXVA then
      return -1
    match ← walk pagetable va0 false with
    | none => return -1
    | some (p, i) =>
      let m ← get
      let pte := m.pte p i
      if !has pte PTE_V || !has pte PTE_U || !has pte PTE_W then
        return -1
      let n := if PGSIZE - (dstva - va0) > len then len else PGSIZE - (dstva - va0)
      writeBytes (pte2pa pte) (dstva - va0) (fun j => src (done + j)) n
      copyoutFrom pagetable src fuel (va0 + PGSIZE) (done + n) (len - n)

/-- `copyout(pagetable, dstva, src, len)`. -/
def copyout (pagetable dstva : Nat) (src : Bytes) (len : Nat) : Kern Mem Int :=
  copyoutFrom pagetable src (len + 1) dstva 0 len

/-- The loop of `copyin`, with `len` bytes left; the result holds what `dst` has become. -/
def copyinFrom (pagetable : Nat) : Nat → Bytes → Nat → Nat → Nat → Kern Mem (Int × Bytes)
  | 0, _, _, _, _ => diverge
  | fuel + 1, dst, done, srcva, len => do
    if len = 0 then
      return (0, dst)
    let va0 := pgrounddown srcva
    let pa0 ← walkaddr pagetable va0
    if pa0 = 0 then
      return (-1, dst)
    let n := if PGSIZE - (srcva - va0) > len then len else PGSIZE - (srcva - va0)
    let m ← get
    let dst := fun j =>
      if done ≤ j ∧ j < done + n then m.ram pa0 (srcva - va0 + (j - done)) else dst j
    copyinFrom pagetable fuel dst (done + n) (va0 + PGSIZE) (len - n)

/-- `copyin(pagetable, dst, srcva, len)`. -/
def copyin (pagetable : Nat) (dst : Bytes) (srcva len : Nat) : Kern Mem (Int × Bytes) :=
  copyinFrom pagetable (len + 1) dst 0 srcva len

/-- The inner loop of `copyinstr`, with `n` bytes of the page left: whether it found the 0, what
`dst` has become, and how many bytes are in it. -/
def copyinstrPage (page : Bytes) : Nat → Nat → Bytes → Nat → Bool × Bytes × Nat
  | 0, _, dst, done => (false, dst, done)
  | n + 1, off, dst, done =>
    if page off = 0 then
      (true, Function.update dst done 0, done)
    else
      copyinstrPage page n (off + 1) (Function.update dst done (page off)) (done + 1)

/-- The loop of `copyinstr`, with room for `max` bytes left. -/
def copyinstrFrom (pagetable : Nat) : Nat → Bytes → Nat → Nat → Nat → Kern Mem (Int × Bytes)
  | 0, _, _, _, _ => diverge
  | fuel + 1, dst, done, srcva, max => do
    if max = 0 then
      return (-1, dst)
    let va0 := pgrounddown srcva
    let pa0 ← walkaddr pagetable va0
    if pa0 = 0 then
      return (-1, dst)
    let n := if PGSIZE - (srcva - va0) > max then max else PGSIZE - (srcva - va0)
    let m ← get
    match copyinstrPage (m.ram pa0) n (srcva - va0) dst done with
    | (true, dst, _) => return (0, dst)
    | (false, dst, done) => copyinstrFrom pagetable fuel dst done (va0 + PGSIZE) (max - n)

/-- `copyinstr(pagetable, dst, srcva, max)`. -/
def copyinstr (pagetable : Nat) (dst : Bytes) (srcva max : Nat) : Kern Mem (Int × Bytes) :=
  copyinstrFrom pagetable (max + 1) dst 0 srcva max

section

variable (K : Image)

/-- The loop of `uvmunmap`, with `k` pages left. -/
def uvmunmapFrom (pagetable : Nat) (doFree : Bool) : Nat → Nat → Kern Mem Unit
  | 0, _ => pure ()
  | k + 1, a => do
    match ← walk pagetable a false with
    | none => uvmunmapFrom pagetable doFree k (a + PGSIZE)
    | some (p, i) =>
      let m ← get
      if !has (m.pte p i) PTE_V then
        uvmunmapFrom pagetable doFree k (a + PGSIZE)
      else
        if pteFlags (m.pte p i) = PTE_V then
          panic "uvmunmap: not a leaf"
        if doFree then
          kfree K (pte2pa (m.pte p i))
        setPte p i 0
        uvmunmapFrom pagetable doFree k (a + PGSIZE)

/-- `uvmunmap(pagetable, va, npages, do_free)`.  The bound of the loop is a 64-bit sum. -/
def uvmunmap (pagetable va npages : Nat) (doFree : Bool) : Kern Mem Unit := do
  if va % PGSIZE ≠ 0 then
    panic "uvmunmap: not aligned"
  uvmunmapFrom K pagetable doFree (((va + npages * PGSIZE) % 2 ^ 64 - va) / PGSIZE) va

/-- `uvmdealloc(pagetable, oldsz, newsz)`. -/
def uvmdealloc (pagetable oldsz newsz : Nat) : Kern Mem Nat := do
  if newsz ≥ oldsz then
    return oldsz
  if pgroundup newsz < pgroundup oldsz then
    -- `npages` is an `int`
    let npages := toInt32 ((pgroundup oldsz - pgroundup newsz) / PGSIZE)
    uvmunmap K pagetable (pgroundup newsz) (ofInt64 npages) true
  return newsz

/-- The loop of `uvmalloc`, with `k` pages left; `oldsz` is rounded up. -/
def uvmallocFrom (pagetable oldsz newsz xperm : Nat) : Nat → Nat → Kern Mem Nat
  | 0, _ => pure newsz
  | k + 1, a => do
    let mem ← kalloc
    if mem = 0 then
      let _ ← uvmdealloc K pagetable a oldsz
      return 0
    memsetPage mem 0
    if (← mappages pagetable a PGSIZE mem (PTE_R ||| PTE_U ||| xperm)) ≠ 0 then
      kfree K mem
      let _ ← uvmdealloc K pagetable a oldsz
      return 0
    uvmallocFrom pagetable oldsz newsz xperm k (a + PGSIZE)

/-- `uvmalloc(pagetable, oldsz, newsz, xperm)`. -/
def uvmalloc (pagetable oldsz newsz xperm : Nat) : Kern Mem Nat := do
  if newsz < oldsz then
    return oldsz
  uvmallocFrom K pagetable (pgroundup oldsz) newsz xperm
    ((newsz - pgroundup oldsz + PGSIZE - 1) / PGSIZE) (pgroundup oldsz)

/-- The loop of `freewalk` over the table, with `k` entries left; `sub` is the recursive call. -/
def freewalkFrom (sub : Nat → Kern Mem Unit) (pagetable : Nat) : Nat → Nat → Kern Mem Unit
  | 0, _ => pure ()
  | k + 1, i => do
    let m ← get
    let pte := m.pte pagetable i
    if has pte PTE_V && !has pte (PTE_R ||| PTE_W ||| PTE_X) then
      sub (pte2pa pte)
      setPte pagetable i 0
      freewalkFrom sub pagetable k (i + 1)
    else if has pte PTE_V then
      panic "freewalk: leaf"
    else
      freewalkFrom sub pagetable k (i + 1)

/-- `freewalk(pagetable)`, recursing at most `depth` deep. -/
def freewalk : Nat → Nat → Kern Mem Unit
  | 0, _ => diverge
  | depth + 1, pagetable => do
    freewalkFrom (freewalk depth) pagetable 512 0
    kfree K pagetable

/-- `uvmfree(pagetable, sz)`; a page table has three levels. -/
def uvmfree (pagetable sz : Nat) : Kern Mem Unit := do
  if sz > 0 then
    uvmunmap K pagetable 0 (pgroundup sz / PGSIZE) true
  freewalk K 3 pagetable

/-- The loop of `uvmcopy`, with `k` pages left. -/
def uvmcopyFrom (old new : Nat) : Nat → Nat → Kern Mem Int
  | 0, _ => pure 0
  | k + 1, i => do
    match ← walk old i false with
    | none => panic "uvmcopy: pte should exist"
    | some (p, j) =>
      let m ← get
      let pte := m.pte p j
      if !has pte PTE_V then
        panic "uvmcopy: page not present"
      let mem ← kalloc
      if mem = 0 then
        uvmunmap K new 0 (i / PGSIZE) true
        return -1
      let m ← get
      writeBytes mem 0 (m.ram (pte2pa pte)) PGSIZE
      if (← mappages new i PGSIZE mem (pteFlags pte)) ≠ 0 then
        kfree K mem
        uvmunmap K new 0 (i / PGSIZE) true
        return -1
      uvmcopyFrom old new k (i + PGSIZE)

/-- `uvmcopy(old, new, sz)`. -/
def uvmcopy (old new sz : Nat) : Kern Mem Int :=
  uvmcopyFrom K old new ((sz + PGSIZE - 1) / PGSIZE) 0

/-- `uvmclear(pagetable, va)`: the entry keeps all bits but `PTE_U`. -/
def uvmclear (pagetable va : Nat) : Kern Mem Unit := do
  match ← walk pagetable va false with
  | none => panic "uvmclear"
  | some (p, i) =>
    let m ← get
    setPte p i (m.pte p i &&& (2 ^ 64 - 1 - PTE_U))

/-- `lazy_alloc(pagetable, va)`. -/
def lazyAlloc (pagetable va : Nat) : Kern Mem Int := do
  let a := pgrounddown va
  if (← walkaddr pagetable a) ≠ 0 then
    return 0
  let mem ← kalloc
  if mem = 0 then
    return -1
  memsetPage mem 0
  if (← mappages pagetable a PGSIZE mem (PTE_R ||| PTE_W ||| PTE_U)) ≠ 0 then
    kfree K mem
    return -1
  return 0

/-- `proc_pagetable(p)`, for a process with this trapframe page. -/
def procPagetable (trapframe : Nat) : Kern Mem Nat := do
  let pagetable ← uvmcreate
  if pagetable = 0 then
    return 0
  if (← mappages pagetable TRAMPOLINE PGSIZE K.trampoline (PTE_R ||| PTE_X)) < 0 then
    uvmfree K pagetable 0
    return 0
  if (← mappages pagetable TRAPFRAME PGSIZE trapframe (PTE_R ||| PTE_W)) < 0 then
    uvmunmap K pagetable TRAMPOLINE 1 false
    uvmfree K pagetable 0
    return 0
  return pagetable

/-- `proc_freepagetable(pagetable, sz)`. -/
def procFreepagetable (pagetable sz : Nat) : Kern Mem Unit := do
  uvmunmap K pagetable TRAMPOLINE 1 false
  uvmunmap K pagetable TRAPFRAME 1 false
  uvmfree K pagetable sz

end

end Xv6
