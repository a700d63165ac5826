import Mathlib.Algebra.Order.Group.Multiset
import Mathlib.Data.Nat.Bitwise
import Xv6.Base.Kern
import Xv6.Base.Bytes
import Xv6.Base.Radix

/-!
# Physical memory and its allocator

`kernel/riscv.h`, `memlayout.h` and `kalloc.c`.  Physical memory is a function from the address of
a page to its bytes; only whole pages are allocated, so no other addresses are needed.  The free
list is a list of page addresses; the links, which the source keeps in the free pages themselves,
are in `Xv6.Vm.Kalloc`.

Addresses are natural numbers; where the source's 64-bit arithmetic can wrap around it is written
out.
-/

set_option autoImplicit false

namespace Xv6

/-! ## `riscv.h` and `memlayout.h` -/

def PGSIZE : Nat := 4096

/-- `MAXVA`: one beyond the highest possible virtual address. -/
def MAXVA : Nat := 1 <<< (9 + 9 + 9 + 12 - 1)

/-- `TRAMPOLINE`: the highest page of every address space. -/
def TRAMPOLINE : Nat := MAXVA - PGSIZE

/-- `TRAPFRAME`: the page below it. -/
def TRAPFRAME : Nat := TRAMPOLINE - PGSIZE

def KERNBASE : Nat := 0x80000000

/-- `PHYSTOP`: the end of physical memory. -/
def PHYSTOP : Nat := KERNBASE + 128 * 1024 * 1024

/-- `PTE_V`: valid. -/
def PTE_V : Nat := 1 <<< 0

def PTE_R : Nat := 1 <<< 1

def PTE_W : Nat := 1 <<< 2

def PTE_X : Nat := 1 <<< 3

/-- `PTE_U`: user can access. -/
def PTE_U : Nat := 1 <<< 4

/-- `PA2PTE(pa)`. -/
def pa2pte (pa : Nat) : Nat := (pa >>> 12) <<< 10

/-- `PTE2PA(pte)`. -/
def pte2pa (pte : Nat) : Nat := (pte >>> 10) <<< 12

/-- `PTE_FLAGS(pte)`. -/
def pteFlags (pte : Nat) : Nat := pte &&& 0x3FF

/-- `PX(level, va)`: the index of `va` into a table of that level. -/
def px (level va : Nat) : Nat := (va >>> (12 + 9 * level)) &&& 0x1FF

/-- `PGROUNDUP(sz)`, in 64-bit arithmetic. -/
def pgroundup (sz : Nat) : Nat := (sz + PGSIZE - 1) % 2 ^ 64 / PGSIZE * PGSIZE

/-- `PGROUNDDOWN(a)`. -/
def pgrounddown (a : Nat) : Nat := a / PGSIZE * PGSIZE

/-- `pte & f`, as a condition. -/
def has (pte f : Nat) : Bool := pte &&& f != 0

/-! ### Page-table entries -/

theorem has_or (a b f : Nat) : has (a ||| b) f = (has a f || has b f) := by
  rw [has, has, has, Nat.and_or_distrib_right]
  cases h : (a &&& f != 0) with
  | true => rw [Bool.true_or, bne_iff_ne, Ne, Nat.or_eq_zero_iff]; simp_all
  | false =>
    rw [Bool.false_or]
    rw [bne_eq_false_iff_eq] at h
    rw [h, Nat.zero_or]

theorem has_or_left {pte f g : Nat} (h : has pte f) : has pte (f ||| g) := by
  rw [has, bne_iff_ne] at h ⊢
  rw [Nat.and_or_distrib_left]
  exact fun h0 => h (Nat.or_eq_zero_iff.1 h0).1

/-- The address bits of an entry are apart from its flags. -/
theorem pa2pte_and {f : Nat} (hf : f < 1024) (pa : Nat) : pa2pte pa &&& f = 0 := by
  refine Nat.eq_of_testBit_eq fun i => ?_
  rw [Nat.testBit_and, pa2pte, Nat.testBit_shiftLeft, Nat.zero_testBit]
  by_cases hi : 10 ≤ i
  · have hpow : (2 : Nat) ^ 10 ≤ 2 ^ i := Nat.pow_le_pow_right (by omega) hi
    rw [Nat.testBit_lt_two_pow (Nat.lt_of_lt_of_le hf hpow), Bool.and_false]
  · rw [decide_eq_false hi, Bool.false_and, Bool.false_and]

theorem has_pa2pte {f : Nat} (hf : f < 1024) (pa : Nat) : has (pa2pte pa) f = false := by
  rw [has, pa2pte_and hf]
  rfl

theorem pa2pte_or_eq_add {f : Nat} (hf : f < 1024) (pa : Nat) :
    pa2pte pa ||| f = pa / 4096 * 1024 + f := by
  rw [pa2pte, ← Nat.shiftLeft_add_eq_or_of_lt hf, Nat.shiftLeft_eq, Nat.shiftRight_eq_div_pow]

/-- The address is read back from an entry. -/
theorem pte2pa_or {f pa : Nat} (hf : f < 1024) (hpa : pa % PGSIZE = 0) :
    pte2pa (pa2pte pa ||| f) = pa := by
  rw [PGSIZE] at hpa
  rw [pa2pte_or_eq_add hf, pte2pa, Nat.shiftLeft_eq, Nat.shiftRight_eq_div_pow]
  omega

/-- The flags are read back from an entry. -/
theorem pteFlags_or {f : Nat} (hf : f < 1024) (pa : Nat) : pteFlags (pa2pte pa ||| f) = f := by
  rw [pteFlags, Nat.and_or_distrib_right, pa2pte_and (by decide), Nat.zero_or]
  exact Nat.and_two_pow_sub_one_of_lt_two_pow (n := 10) hf

/-- The flags of an entry are among its flag bits. -/
theorem has_pteFlags {f : Nat} (hf : f < 1024) (pte : Nat) : has (pteFlags pte) f = has pte f := by
  rw [has, has, pteFlags, Nat.and_assoc, Nat.and_comm 0x3FF,
    show (0x3FF : Nat) = 2 ^ 10 - 1 from rfl, Nat.and_two_pow_sub_one_of_lt_two_pow hf]

theorem pteFlags_or_valid {pte : Nat} (h : has pte PTE_V) :
    pteFlags pte ||| PTE_V = pteFlags pte := by
  rw [has, show PTE_V = 1 from rfl, Nat.and_one_is_mod, bne_iff_ne] at h
  refine Nat.eq_of_testBit_eq fun i => ?_
  rw [Nat.testBit_or, show PTE_V = 1 from rfl]
  cases i with
  | zero =>
    rw [pteFlags, Nat.testBit_and, Nat.testBit_zero pte, decide_eq_true (by omega)]
    rfl
  | succ i => rw [Nat.testBit_succ 1, show 1 / 2 = 0 from rfl, Nat.zero_testBit, Bool.or_false]

theorem pte_lt {f pa : Nat} (hf : f < 1024) (hpa : pa < PHYSTOP) : pa2pte pa ||| f < 2 ^ 64 := by
  have h : PHYSTOP = 0x88000000 := rfl
  rw [pa2pte_or_eq_add hf]
  omega

/-! ## `kalloc.c` -/

/-- What the linker decides: where the kernel's image ends and where the trampoline page is. -/
structure Image where
  /-- `end`: the first address after the kernel. -/
  kend : Nat
  trampoline : Nat
  kend_le : kend ≤ PHYSTOP
  trampoline_aligned : trampoline % PGSIZE = 0
  trampoline_ge : KERNBASE ≤ trampoline
  trampoline_lt : trampoline + PGSIZE ≤ kend

/-- Physical memory and `kmem`. -/
structure Mem where
  ram : Nat → Bytes
  freelist : List Nat
  freePages : Nat
  totalPages : Nat
  /-- Ghost: how often `kalloc` has returned 0. -/
  failed : Nat

/-- `memset(pa, c, PGSIZE)`. -/
def memsetPage (pa : Nat) (c : UInt8) : Kern Mem Unit :=
  modify fun m => { m with ram := Function.update m.ram pa fun _ => c }

/-- `kalloc()`: the address of a page, or 0. -/
def kalloc : Kern Mem Nat := do
  let m ← get
  match m.freelist with
  | [] =>
    set { m with failed := m.failed + 1 }
    return 0
  | r :: next =>
    set { m with freelist := next, freePages := (m.freePages + 2 ^ 64 - 1) % 2 ^ 64 }
    memsetPage r 5
    return r

section

variable (K : Image)

/-- `kfree(pa)`. -/
def kfree (pa : Nat) : Kern Mem Unit := do
  if pa % PGSIZE ≠ 0 ∨ pa < K.kend ∨ pa ≥ PHYSTOP then
    panic "kfree"
  memsetPage pa 1
  modify fun m =>
    { m with freelist := pa :: m.freelist, freePages := (m.freePages + 1) % 2 ^ 64 }

/-- The loop of `freerange`, with `k` pages left from `p` on. -/
def freerangeFrom : Nat → Nat → Kern Mem Unit
  | 0, _ => pure ()
  | k + 1, p => do
    kfree K p
    freerangeFrom k (p + PGSIZE)

/-- `freerange(pa_start, pa_end)`: as many whole pages as fit. -/
def freerange (paStart paEnd : Nat) : Kern Mem Unit :=
  freerangeFrom K ((paEnd - pgroundup paStart) / PGSIZE) (pgroundup paStart)

/-- `kinit()`. -/
def kinit : Kern Mem Unit := do
  modify fun m => { m with freePages := 0, totalPages := 0 }
  freerange K K.kend PHYSTOP
  modify fun m => { m with totalPages := m.freePages }

/-! ### The pages of the allocator -/

/-- `pa` is the address of a page the allocator manages. -/
structure Page (pa : Nat) : Prop where
  aligned : pa % PGSIZE = 0
  ge : K.kend ≤ pa
  lt : pa < PHYSTOP

/-- The pages that `kinit` hands to the allocator: those of `[end, PHYSTOP)`. -/
def pages : Multiset Nat :=
  ((List.range ((PHYSTOP - pgroundup K.kend) / PGSIZE)).map fun i => pgroundup K.kend + i * PGSIZE :
    List Nat)

/-- Every page is on the free list or in `S`, what the rest of the kernel holds, and in one of
them once; `free_pages` counts the former. -/
structure Good (m : Mem) (S : Multiset Nat) : Prop where
  sum : (m.freelist : Multiset Nat) + S = pages K
  count : m.freePages = m.freelist.length

variable {K} {m m' : Mem} {S S' : Multiset Nat}

theorem Page.pos {pa : Nat} (h : Page K pa) : 0 < pa := by
  have h1 := K.trampoline_ge
  have h2 := K.trampoline_lt
  have h3 := h.ge
  have h4 : 0 < KERNBASE := by decide
  omega

theorem pgroundup_kend : pgroundup K.kend % PGSIZE = 0 ∧ K.kend ≤ pgroundup K.kend := by
  have h1 := K.kend_le
  have h2 : PHYSTOP = 0x88000000 := rfl
  rw [pgroundup, PGSIZE]
  omega

theorem page_of_mem {p : Nat} (h : p ∈ pages K) : Page K p := by
  rw [pages, Multiset.mem_coe, List.mem_map] at h
  obtain ⟨i, hi, rfl⟩ := h
  rw [List.mem_range] at hi
  obtain ⟨h1, h2⟩ := pgroundup_kend (K := K)
  rw [PGSIZE] at hi h1
  refine ⟨?_, ?_, ?_⟩
  · rw [PGSIZE]; omega
  · omega
  · rw [PGSIZE]; omega

theorem pages_nodup : (pages K).Nodup := by
  rw [pages, Multiset.coe_nodup]
  refine List.Nodup.map (fun i j hij => ?_) List.nodup_range
  rw [PGSIZE] at hij
  omega

/-- Memory is 128 MB. -/
theorem card_pages : Multiset.card (pages K) ≤ 32768 := by
  have h1 := K.trampoline_ge
  have h2 := K.trampoline_lt
  have h3 := (pgroundup_kend (K := K)).2
  have h4 : PHYSTOP = KERNBASE + 32768 * PGSIZE := rfl
  rw [pages, Multiset.coe_card, List.length_map, List.length_range]
  rw [PGSIZE] at h2 h4 ⊢
  omega

theorem Good.page (h : Good K m S) {p : Nat} (hp : p ∈ S) : Page K p :=
  page_of_mem (h.sum ▸ Multiset.mem_add.2 (Or.inr hp))

theorem Good.nodup (h : Good K m S) : S.Nodup :=
  (Multiset.nodup_add.1 (h.sum ▸ pages_nodup)).2.1

theorem Good.not_mem (h : Good K m S) {p : Nat} (hp : p ∈ S) : p ∉ m.freelist := fun hf =>
  Multiset.disjoint_left.1 (Multiset.nodup_add.1 (h.sum ▸ pages_nodup)).2.2
    (Multiset.mem_coe.2 hf) hp

/-- Two parts of what the kernel holds have no page in common. -/
theorem Good.disjoint (h : Good K m (S + S')) {p : Nat} (hp : p ∈ S) : p ∉ S' := fun hp' =>
  Multiset.disjoint_left.1 (Multiset.nodup_add.1 h.nodup).2.2 hp hp'

theorem Good.length_add_card (h : Good K m S) :
    m.freelist.length + Multiset.card S = Multiset.card (pages K) := by
  rw [← h.sum, Multiset.card_add, Multiset.coe_card]

theorem Good.length_le (h : Good K m S) : m.freelist.length ≤ 32768 :=
  Nat.le_trans (h.length_add_card ▸ Nat.le_add_right _ _) card_pages

theorem Good.congr (h : Good K m S) (hf : m'.freelist = m.freelist)
    (hp : m'.freePages = m.freePages) (hS : S' = S) : Good K m' S' :=
  ⟨by rw [hf, hS, h.sum], by rw [hf, hp, h.count]⟩

/-- A write to a page is not seen elsewhere. -/
theorem update_of_not_mem {p : Nat} (ram : Nat → Bytes) (b : Bytes) (h : p ∉ S) :
    ∀ q ∈ S, Function.update ram p b q = ram q := by
  intro q hq
  have hne : q ≠ p := fun heq => h (heq ▸ hq)
  exact Function.update_of_ne hne b ram

/-- What `kalloc` does when a page is left, and when none is. -/
theorem kalloc_eq (h : Good K m S) :
    wp kalloc
      (fun r m' => (r = 0 ∧ m.freelist = [] ∧ m' = { m with failed := m.failed + 1 }) ∨
        ∃ next, m.freelist = r :: next ∧ Page K r ∧ Good K m' ({r} + S) ∧
          m' = { m with
            ram := Function.update m.ram r fun _ => 5
            freelist := next
            freePages := next.length })
      (fun _ _ => False) m := by
  rw [kalloc]
  simp only [wp_bind, wp_get]
  split
  · next hf =>
    simp only [wp_bind, wp_set, wp_pure]
    exact Or.inl ⟨trivial, hf, trivial⟩
  · next r next hf =>
    simp only [wp_bind, wp_set, wp_pure, memsetPage, wp_modify]
    have hsum : (↑next : Multiset Nat) + ({r} + S) = pages K := by
      rw [← h.sum, hf, ← add_assoc, add_comm (next : Multiset Nat), ← Multiset.coe_singleton,
        Multiset.coe_add]
      rfl
    have hpages : (m.freePages + 2 ^ 64 - 1) % 2 ^ 64 = next.length := by
      have hlen := h.length_le
      rw [h.count]
      rw [hf, List.length_cons] at hlen ⊢
      omega
    have hr : Page K r := page_of_mem (by rw [← hsum]; simp)
    exact Or.inr ⟨next, hf, hr, ⟨hsum, hpages⟩, by rw [hpages]⟩

/-- `kalloc` takes a page off the free list, if there is one. -/
theorem kalloc_spec (h : Good K m S) :
    wp kalloc
      (fun r m' => (r = 0 ∧ m.freelist = [] ∧ Good K m' S ∧ m'.ram = m.ram ∧ m'.freelist = [] ∧
          m'.failed = m.failed + 1) ∨
        ∃ next, m.freelist = r :: next ∧ Page K r ∧ Good K m' ({r} + S) ∧
          m'.ram = Function.update m.ram r (fun _ => 5) ∧ m'.freelist = next ∧
          m'.failed = m.failed)
      (fun _ _ => False) m := by
  refine wp_mono (kalloc_eq h) (fun r m' h' => ?_) fun _ _ he => he
  rcases h' with ⟨hr, hnil, rfl⟩ | ⟨next, hnext, hp, hg, rfl⟩
  · exact Or.inl ⟨hr, hnil, h.congr rfl rfl rfl, rfl, hnil, rfl⟩
  · exact Or.inr ⟨next, hnext, hp, hg, rfl, rfl, rfl⟩

/-- What `kfree` does to a page of the allocator. -/
theorem kfree_page {pa : Nat} (hp : Page K pa) :
    wp (kfree K pa)
      (fun _ m' => m' = { m with
        ram := Function.update m.ram pa fun _ => 1
        freelist := pa :: m.freelist
        freePages := (m.freePages + 1) % 2 ^ 64 })
      (fun _ _ => False) m := by
  have hbad : ¬ (pa % PGSIZE ≠ 0 ∨ pa < K.kend ∨ pa ≥ PHYSTOP) := by
    have h1 := hp.aligned
    have h2 := hp.ge
    have h3 := hp.lt
    omega
  rw [kfree, if_neg hbad]
  simp only [wp_bind, memsetPage, wp_modify]

/-- `kfree` of a page the kernel holds puts it back. -/
theorem kfree_spec {pa : Nat} (h : Good K m ({pa} + S)) :
    wp (kfree K pa)
      (fun _ m' => Good K m' S ∧ m'.ram = Function.update m.ram pa (fun _ => 1) ∧
        m'.freelist = pa :: m.freelist ∧ m'.failed = m.failed)
      (fun _ _ => False) m := by
  have hsum : (↑(pa :: m.freelist) : Multiset Nat) + S = pages K := by
    rw [← h.sum, ← add_assoc, add_comm (m.freelist : Multiset Nat), ← Multiset.coe_singleton,
      Multiset.coe_add]
    rfl
  have hpages : (m.freePages + 1) % 2 ^ 64 = m.freelist.length + 1 := by
    have hlen := h.length_le
    rw [h.count]
    omega
  refine wp_mono (kfree_page (h.page (by simp))) (fun _ m' hm' => ?_) fun _ _ he => he
  rw [hm']
  exact ⟨⟨hsum, hpages⟩, rfl, rfl, rfl⟩

/-- The loop of `freerange` puts each of its pages on the free list. -/
theorem freerangeFrom_spec : ∀ {k p : Nat} {m : Mem},
    (∀ i, i < k → Page K (p + i * PGSIZE)) → m.freePages + k < 2 ^ 64 →
    wp (freerangeFrom K k p)
      (fun _ m' => (m'.freelist : Multiset Nat) =
          ((List.range k).map fun i => p + i * PGSIZE : List Nat) + (m.freelist : Multiset Nat) ∧
        m'.freePages = m.freePages + k)
      (fun _ _ => False) m
  | 0, p, m, _, _ => by
    rw [freerangeFrom, wp_pure]
    exact ⟨(zero_add _).symm, rfl⟩
  | k + 1, p, m, hp, hk => by
    have hp0 : Page K p := by simpa using hp 0 (Nat.succ_pos k)
    have hp1 : ∀ i, i < k → Page K (p + PGSIZE + i * PGSIZE) := by
      intro i hi
      have := hp (i + 1) (by omega)
      rwa [Nat.succ_mul, Nat.add_comm (i * PGSIZE), ← Nat.add_assoc] at this
    rw [freerangeFrom, wp_bind]
    refine wp_mono (kfree_page hp0) (fun _ m₁ hm₁ => ?_) fun _ _ he => he
    have hfree : m₁.freePages = m.freePages + 1 := by
      rw [hm₁]
      exact Nat.mod_eq_of_lt (by omega)
    refine wp_mono (freerangeFrom_spec hp1 (by omega)) (fun _ m' hm' => ?_) fun _ _ he => he
    obtain ⟨h1, h2⟩ := hm'
    refine ⟨?_, by omega⟩
    have hshift : ((List.range k).map fun i => p + PGSIZE + i * PGSIZE) =
        (List.range k).map fun i => p + (i + 1) * PGSIZE := by
      refine List.map_congr_left fun i _ => ?_
      rw [Nat.succ_mul, Nat.add_comm (i * PGSIZE), Nat.add_assoc]
    rw [h1, hm₁, hshift, List.range_succ_eq_map, List.map_cons, List.map_map, Nat.zero_mul,
      Nat.add_zero, ← Multiset.cons_coe, ← Multiset.cons_coe, Multiset.cons_add,
      Multiset.add_cons]
    rfl

/-- After `kinit` every page is free, and counted. -/
theorem kinit_spec (h : m.freelist = []) :
    wp (kinit K)
      (fun _ m' => Good K m' 0 ∧ m'.totalPages = Multiset.card (pages K)) (fun _ _ => False) m := by
  have hcard : Multiset.card (pages K) = (PHYSTOP - pgroundup K.kend) / PGSIZE := by
    rw [pages, Multiset.coe_card, List.length_map, List.length_range]
  have hle := card_pages (K := K)
  rw [kinit, freerange]
  simp only [wp_bind, wp_modify]
  refine wp_mono (freerangeFrom_spec (fun i hi => page_of_mem ?_) ?_) (fun _ m' hm' => ?_)
    fun _ _ he => he
  · exact Multiset.mem_coe.2 (List.mem_map.2 ⟨i, List.mem_range.2 hi, rfl⟩)
  · show 0 + _ < _
    omega
  · obtain ⟨h1, h2⟩ := hm'
    have hlen : (m'.freelist : Multiset Nat) = pages K := by
      rw [h1, show ({ m with freePages := 0, totalPages := 0 } : Mem).freelist = [] from h]
      exact add_zero _
    have hfree : m'.freePages = Multiset.card (pages K) := by
      rw [h2, hcard]
      exact Nat.zero_add _
    exact ⟨⟨by rw [add_zero]; exact hlen, by rw [hfree, ← hlen, Multiset.coe_card]⟩, hfree⟩

end

/-- A kernel of one page, which is the trampoline. -/
def onePageKernel : Image where
  kend := KERNBASE + PGSIZE
  trampoline := KERNBASE
  kend_le := by decide
  trampoline_aligned := by decide
  trampoline_ge := Nat.le_refl _
  trampoline_lt := Nat.le_refl _

/-- Memory at boot time, with that kernel. -/
theorem exists_booted : ∃ m : Mem, Good onePageKernel m 0 ∧ m.freelist.length = 32767 := by
  have hspec := kinit_spec (K := onePageKernel) (m := ⟨fun _ _ => 0, [], 0, 0, 0⟩) rfl
  obtain ⟨-, m, -, hg, -⟩ := hspec.exists_ok
  refine ⟨m, hg, ?_⟩
  have hlen := hg.length_add_card
  rw [Multiset.card_zero, Nat.add_zero] at hlen
  rw [hlen, pages, Multiset.coe_card, List.length_map, List.length_range]
  decide

end Xv6
