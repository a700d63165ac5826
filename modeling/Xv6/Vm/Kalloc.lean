import Xv6.Vm.Mem

/-!
# The free list, in the free pages

`kernel/kalloc.c` keeps the links of its free list in the free pages themselves.  `Kmem` is the
allocator with the links in memory; `Threads` says that it stands for a state of `Xv6.Vm.Mem`,
whose free list is a list.  Each call does to the one what it does to the other.
-/

set_option autoImplicit false

namespace Xv6

/-- Physical memory and `kmem`, with `freelist` a pointer. -/
structure Kmem where
  ram : Nat → Bytes
  freelist : Nat
  freePages : Nat
  totalPages : Nat

namespace Kmem

/-- `((struct run *)pa)->next`. -/
def next (s : Kmem) (pa : Nat) : Nat := getLE (s.ram pa) 0 8

/-- `kalloc()`. -/
def kalloc : Kern Kmem Nat := do
  let s ← get
  let r := s.freelist
  if r ≠ 0 then
    set { s with freelist := s.next r, freePages := (s.freePages + 2 ^ 64 - 1) % 2 ^ 64 }
    modify fun s => { s with ram := Function.update s.ram r fun _ => 5 }
  return r

section

variable (K : Image)

/-- `kfree(pa)`. -/
def kfree (pa : Nat) : Kern Kmem Unit := do
  if pa % PGSIZE ≠ 0 ∨ pa < K.kend ∨ pa ≥ PHYSTOP then
    panic "kfree"
  modify fun s => { s with
    ram := Function.update s.ram pa (setLE (fun _ => 1) 0 8 s.freelist)
    freelist := pa
    freePages := (s.freePages + 1) % 2 ^ 64 }

/-- The loop of `freerange`, with `k` pages left from `p` on. -/
def freerangeFrom : Nat → Nat → Kern Kmem Unit
  | 0, _ => pure ()
  | k + 1, p => do
    kfree K p
    freerangeFrom k (p + PGSIZE)

/-- `kinit()`, with `freerange(end, PHYSTOP)`. -/
def kinit : Kern Kmem Unit := do
  modify fun s => { s with freePages := 0, totalPages := 0 }
  freerangeFrom K ((PHYSTOP - pgroundup K.kend) / PGSIZE) (pgroundup K.kend)
  modify fun s => { s with totalPages := s.freePages }

end

/-! ### The list that the links make up -/

/-- From the pointer `p` on, `next` leads through the list to the null pointer. -/
def Chain (next : Nat → Nat) : Nat → List Nat → Prop
  | p, [] => p = 0
  | p, q :: l => p = q ∧ p ≠ 0 ∧ Chain next (next p) l

theorem Chain.cons {next : Nat → Nat} {l : List Nat} {p q : Nat} (hp : p ≠ 0) (hn : next p = q)
    (h : Chain next q l) : Chain next p (p :: l) := ⟨rfl, hp, hn ▸ h⟩

theorem Chain.congr {next next' : Nat → Nat} : ∀ {l : List Nat} {p : Nat}, Chain next p l →
    (∀ q ∈ l, next' q = next q) → Chain next' p l
  | [], _, h, _ => h
  | q :: l, p, h, hn => by
    refine ⟨h.1, h.2.1, ?_⟩
    rw [hn p (h.1 ▸ List.mem_cons_self)]
    exact h.2.2.congr fun x hx => hn x (.tail q hx)

/-- The allocator stands for one whose free list is a list. -/
structure Threads (s : Kmem) (m : Mem) : Prop where
  chain : Chain s.next s.freelist m.freelist
  word : s.freelist < 2 ^ 64
  ram : ∀ p, p ∉ m.freelist → s.ram p = m.ram p
  count : s.freePages = m.freePages

variable {K : Image} {s s' : Kmem} {m : Mem} {S : Multiset Nat} {pa : Nat}

/-- A write to a page off the list changes no link. -/
theorem Chain.write {l : List Nat} {p : Nat} {b : Bytes} (h : Chain s.next p l) (hpa : pa ∉ l)
    (hs : s'.ram = Function.update s.ram pa b) : Chain s'.next p l := by
  refine h.congr fun q hq => ?_
  have hne : q ≠ pa := fun he => hpa (he ▸ hq)
  rw [next, hs, Function.update_of_ne hne, next]

theorem Threads.write (h : Threads s m) (hpa : pa ∉ m.freelist) (b : Bytes) :
    Threads { s with ram := Function.update s.ram pa b }
      { m with ram := Function.update m.ram pa b } :=
  ⟨h.chain.write hpa rfl, h.word, fun p hp => by
    simp only [Function.update_apply, h.ram p hp], h.count⟩

theorem freelist_nodup (hg : Good K m S) : m.freelist.Nodup :=
  Multiset.coe_nodup.1 (Multiset.nodup_add.1 (hg.sum ▸ pages_nodup)).1

/-- `kalloc` finds the first page of the list, and a page it hands out is nobody's. -/
theorem Threads.kalloc (h : Threads s m) (hg : Good K m S) :
    wp kalloc (fun r s' => (r = 0 ↔ s.freePages = 0) ∧ (r ≠ 0 → Page K r ∧ r ∉ S) ∧
      s'.totalPages = s.totalPages ∧
      ∃ m', Xv6.kalloc m = .ok r m' ∧ Threads s' m' ∧ Good K m' (if r = 0 then S else {r} + S))
      (fun _ _ => False) s := by
  obtain ⟨r, m', hm, hr⟩ := (kalloc_eq hg).exists_ok
  have hchain := h.chain
  have hcount := h.count.trans hg.count
  rw [Kmem.kalloc]
  simp only [wp_bind, wp_get, wp_ite, wp_set, wp_modify, wp_pure]
  rcases hr with ⟨rfl, hnil, rfl⟩ | ⟨l, hl, hp, hg', rfl⟩
  · rw [hnil] at hchain hcount
    have hnull : s.freelist = 0 := hchain
    rw [if_neg fun hne => hne hnull, hnull]
    exact ⟨iff_of_true rfl hcount, fun hne => absurd rfl hne, trivial, _, hm,
      ⟨h.chain, h.word, h.ram, h.count⟩, hg.congr rfl rfl rfl⟩
  · have hnd := freelist_nodup hg
    have hlen := hg.length_le
    rw [hl] at hchain hcount hnd hlen
    obtain ⟨hr, hne, hrest⟩ := hchain
    rw [List.length_cons] at hcount hlen
    rw [hr] at hne hrest
    rw [if_pos (hr ▸ hne), hr]
    refine ⟨iff_of_false hne (by omega), fun _ => ⟨hp, fun hS => ?_⟩, trivial, _, hm,
      ⟨hrest.write (List.nodup_cons.1 hnd).1 rfl, getLE_lt _ 8 0, fun p hpl => ?_, ?_⟩,
      (if_neg hne).symm ▸ hg'⟩
    · exact hg.not_mem hS (hl ▸ List.mem_cons_self)
    · show Function.update s.ram r _ p = Function.update m.ram r _ p
      by_cases hpr : p = r
      · rw [hpr, Function.update_self, Function.update_self]
      · rw [Function.update_of_ne hpr, Function.update_of_ne hpr, h.ram p]
        exact hl ▸ List.not_mem_cons_of_ne_of_not_mem hpr hpl
    · show (s.freePages + 2 ^ 64 - 1) % 2 ^ 64 = l.length
      omega

/-- `kfree` of a page that is handed out links it in at the front. -/
theorem Threads.kfree (h : Threads s m) (hg : Good K m ({pa} + S)) :
    wp (kfree K pa) (fun _ s' => s'.totalPages = s.totalPages ∧
      ∃ m', Xv6.kfree K pa m = .ok () m' ∧ Threads s' m' ∧ Good K m' S) (fun _ _ => False) s := by
  have hmem : pa ∈ {pa} + S := Multiset.mem_add.2 (Or.inl (Multiset.mem_singleton_self pa))
  obtain ⟨h1, h2, h3⟩ := hg.page hmem
  have hfree := hg.not_mem hmem
  obtain ⟨_, m', hm, hg', hram, hlist, -⟩ := (kfree_spec hg).exists_ok
  rw [Kmem.kfree, if_neg (by omega)]
  simp only [wp_modify]
  have htop : PHYSTOP < 2 ^ 64 := by decide
  refine ⟨trivial, m', hm, ⟨?_, Nat.lt_trans h3 htop, fun p hpl => ?_, ?_⟩, hg'⟩
  · rw [hlist]
    refine .cons (Nat.ne_of_gt (hg.page hmem).pos) ?_ (h.chain.write hfree rfl)
    rw [next]
    dsimp only
    rw [Function.update_self, getLE_setLE_same]
    exact Nat.mod_eq_of_lt h.word
  · rw [hlist, List.mem_cons, not_or] at hpl
    rw [hram, Function.update_of_ne hpl.1, ← h.ram p hpl.2]
    exact Function.update_of_ne hpl.1 _ _
  · have hlen := hg.length_le
    show (s.freePages + 1) % 2 ^ 64 = m'.freePages
    rw [hg'.count, hlist, List.length_cons, h.count, hg.count]
    omega

/-! ### Every run of the allocator -/

/-- `s` stands for another allocator while `S` is handed out. -/
def Inv (K : Image) (s : Kmem) (S : Multiset Nat) : Prop := ∃ m, Threads s m ∧ Good K m S

/-- `freerange` frees pages that the boot code holds. -/
theorem freerangeFrom_inv : ∀ {k p : Nat} {s : Kmem},
    Inv K s (((List.range k).map fun i => p + i * PGSIZE : List Nat) + S) →
    wp (freerangeFrom K k p) (fun _ s' => Inv K s' S) (fun _ _ => False) s
  | 0, p, s, h => by
    rw [freerangeFrom, wp_pure]
    simpa using h
  | k + 1, p, s, h => by
    have hrange : (List.range (k + 1)).map (fun i => p + i * PGSIZE) =
        p :: (List.range k).map fun i => p + PGSIZE + i * PGSIZE := by
      rw [List.range_succ_eq_map, List.map_cons, Nat.zero_mul, Nat.add_zero, List.map_map]
      refine congrArg _ (List.map_congr_left fun i _ => ?_)
      rw [Function.comp_apply, Nat.succ_mul, Nat.add_comm (i * PGSIZE), Nat.add_assoc]
    rw [hrange, ← Multiset.cons_coe, ← Multiset.singleton_add, add_assoc] at h
    obtain ⟨m, ht, hg⟩ := h
    rw [freerangeFrom]
    refine wp_seq (ht.kfree hg) fun _ s' hs' => ?_
    obtain ⟨-, m', -, ht', hg'⟩ := hs'
    exact freerangeFrom_inv ⟨m', ht', hg'⟩

/-- `kinit` returns, with every page free and counted. -/
theorem kinit_inv (hnull : s.freelist = 0) :
    wp (kinit K) (fun _ s' => Inv K s' 0 ∧ s'.totalPages = Multiset.card (pages K))
      (fun _ _ => False) s := by
  rw [kinit]
  simp only [wp_bind, wp_modify]
  have hstart : Inv K { s with freePages := 0, totalPages := 0 } (pages K) :=
    ⟨⟨s.ram, [], 0, 0, 0⟩, ⟨hnull, hnull ▸ Nat.two_pow_pos 64, fun _ _ => rfl, rfl⟩,
      ⟨zero_add _, rfl⟩⟩
  rw [pages, ← add_zero (Multiset.ofList _)] at hstart
  refine wp_mono (freerangeFrom_inv hstart) (fun _ s' hs' => ?_) fun _ _ he => he
  obtain ⟨m, ht, hg⟩ := hs'
  have hlen := hg.length_add_card
  rw [Multiset.card_zero, Nat.add_zero] at hlen
  exact ⟨⟨m, ⟨ht.chain, ht.word, ht.ram, ht.count⟩, hg⟩, by rw [← hlen, ← hg.count, ← ht.count]⟩

/-- `s` is reached, with `S` handed out, by `kinit` and any calls of `kalloc`, of `kfree` for pages
handed out, and writes to them. -/
inductive Reach (K : Image) : Kmem → Multiset Nat → Prop
  | kinit {s s' : Kmem} : s.freelist = 0 → kinit K s = .ok () s' → Reach K s' 0
  | kalloc {s s' : Kmem} {S : Multiset Nat} {r : Nat} : Reach K s S → kalloc s = .ok r s' →
      Reach K s' (if r = 0 then S else {r} + S)
  | kfree {s s' : Kmem} {S : Multiset Nat} {pa : Nat} : Reach K s ({pa} + S) →
      kfree K pa s = .ok () s' → Reach K s' S
  | write {s : Kmem} {S : Multiset Nat} {pa : Nat} (b : Bytes) : Reach K s S → pa ∈ S →
      Reach K { s with ram := Function.update s.ram pa b } S

theorem Reach.inv (h : Reach K s S) : Inv K s S ∧ s.totalPages = Multiset.card (pages K) := by
  induction h with
  | kinit hnull hs => exact (kinit_inv hnull).ok hs
  | kalloc _ hs ih =>
    obtain ⟨⟨m, ht, hg⟩, htotal⟩ := ih
    obtain ⟨-, -, hk, m', -, ht', hg'⟩ := (ht.kalloc hg).ok hs
    exact ⟨⟨m', ht', hg'⟩, hk.trans htotal⟩
  | kfree _ hs ih =>
    obtain ⟨⟨m, ht, hg⟩, htotal⟩ := ih
    obtain ⟨hk, m', -, ht', hg'⟩ := (ht.kfree hg).ok hs
    exact ⟨⟨m', ht', hg'⟩, hk.trans htotal⟩
  | write b _ hpa ih =>
    obtain ⟨⟨m, ht, hg⟩, htotal⟩ := ih
    exact ⟨⟨_, ht.write (hg.not_mem hpa) b, hg.congr rfl rfl rfl⟩, htotal⟩

/-- **The free list survives every run.**  Its links lead through different pages, none of them
handed out, to the null pointer, and `free_pages` is their number.  `kalloc` returns a page that
is not handed out, or 0 exactly if none is free, `kfree` of one that is does not panic, and a write
to one does not change the list. -/
theorem Reach.sound (h : Reach K s S) :
    (∃ l : List Nat, Chain s.next s.freelist l ∧ l.Nodup ∧ (∀ p ∈ l, Page K p ∧ p ∉ S) ∧
      s.freePages = l.length ∧ l.length ≤ s.totalPages ∧ s.totalPages ≤ 32768 ∧
      ∀ pa ∈ S, ∀ b, Chain (next { s with ram := Function.update s.ram pa b }) s.freelist l) ∧
    wp Kmem.kalloc (fun r _ => (r = 0 ↔ s.freePages = 0) ∧ (r ≠ 0 → Page K r ∧ r ∉ S))
      (fun _ _ => False) s ∧
    ∀ pa ∈ S, wp (Kmem.kfree K pa) (fun _ _ => True) (fun _ _ => False) s := by
  obtain ⟨⟨m, ht, hg⟩, htotal⟩ := h.inv
  have hlen := hg.length_add_card
  refine ⟨⟨m.freelist, ht.chain, freelist_nodup hg, fun p hp => ⟨page_of_mem ?_, fun hS =>
    hg.not_mem hS hp⟩, ht.count.trans hg.count, by omega, htotal ▸ card_pages, fun pa hpa b =>
      (ht.write (hg.not_mem hpa) b).chain⟩, ?_, fun pa hpa => ?_⟩
  · exact hg.sum ▸ Multiset.mem_add.2 (Or.inl (Multiset.mem_coe.2 hp))
  · exact wp_mono (ht.kalloc hg) (fun r _ hr => ⟨hr.1, hr.2.1⟩) fun _ _ he => he
  · obtain ⟨S', rfl⟩ := Multiset.exists_cons_of_mem hpa
    rw [← Multiset.singleton_add] at hg
    exact wp_mono (ht.kfree hg) (fun _ _ _ => trivial) fun _ _ he => he

/-- After `kinit` there is a page to be had. -/
theorem Reach.sound_booted : ∃ s, Reach onePageKernel s 0 ∧
    wp Kmem.kalloc (fun r _ => r = 0 ↔ s.freePages = 0) (fun _ _ => False) s := by
  obtain ⟨_, s, hs, -⟩ :=
    (kinit_inv (K := onePageKernel) (s := ⟨fun _ _ => 0, 0, 0, 0⟩) rfl).exists_ok
  have hr : Reach onePageKernel s 0 := .kinit rfl hs
  exact ⟨s, hr, wp_mono hr.sound.2.1 (fun _ _ h => h.1) fun _ _ he => he⟩

end Kmem

end Xv6
