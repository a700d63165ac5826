import Xv6.Vm.Copy

/-!
# The address space of a process

A process's page table maps the trampoline and the trapframe at the top of the address space;
everything below belongs to the user.  `Space` says so, and that the user pages are the process's
own.
-/

set_option autoImplicit false

namespace Xv6

/-- The number of virtual pages below the trapframe: the user's part of the address space. -/
def UVPN : Nat := TRAPFRAME / PGSIZE

theorem UVPN_eq : UVPN = 2 ^ 26 - 2 := rfl

-- `UVPN` bounds ranges of pages, which must never be enumerated.
attribute [irreducible] UVPN

/-- The entry that `proc_pagetable` sets for the trampoline. -/
def trampolinePte (K : Image) : Nat := pa2pte K.trampoline ||| (PTE_R ||| PTE_X) ||| PTE_V

/-- The entry that it sets for the trapframe. -/
def trapframePte (tf : Nat) : Nat := pa2pte tf ||| (PTE_R ||| PTE_W) ||| PTE_V

/-- The page table `t` of a process with trapframe page `tf`, with the user pages it maps; `S` is
everything else the kernel holds. -/
structure Space (K : Image) (m : Mem) (t tf : Nat) (S : Multiset Nat) : Prop where
  table : Table K m t (upages (leaf m.ram t) 0 UVPN + S)
  trampoline : leaf m.ram t (UVPN + 1) = trampolinePte K
  trapframe : leaf m.ram t UVPN = trapframePte tf
  high : ∀ v, UVPN + 2 ≤ v → leaf m.ram t v = 0

variable {K : Image} {S : Multiset Nat} {m m₁ m' : Mem} {t tf v w sz : Nat}

/-- The pages of the tables and of the user. -/
def spacePages (ram : Nat → Bytes) (t : Nat) : Multiset Nat :=
  nodes ram 2 t + upages (leaf ram t) 0 UVPN

theorem spacePages_congr {ram ram' : Nat → Bytes} (h : ∀ p ∈ spacePages ram t, ram' p = ram p) :
    spacePages ram' t = spacePages ram t := by
  have hn := fun p hp => h p (Multiset.mem_add.2 (Or.inl hp))
  rw [spacePages, spacePages, nodes_congr hn, leaf_congr hn]

theorem Space.good (h : Space K m t tf S) : Good K m (spacePages m.ram t + S) := by
  have hg := h.table.good
  rw [← add_assoc] at hg
  exact hg

/-- An address space does not see a change of memory elsewhere. -/
theorem Space.congr {S' : Multiset Nat} (h : Space K m t tf S)
    (hm : ∀ p ∈ nodes m.ram 2 t, m'.ram p = m.ram p)
    (hg : Good K m' (spacePages m.ram t + S')) :
    Space K m' t tf S' ∧ leaf m'.ram t = leaf m.ram t := by
  rw [spacePages, add_assoc] at hg
  obtain ⟨htab, hleaf, -, -⟩ := h.table.congr hm hg
  refine ⟨⟨by rw [hleaf]; exact htab, ?_, ?_, ?_⟩, hleaf⟩
  · rw [hleaf]; exact h.trampoline
  · rw [hleaf]; exact h.trapframe
  · rw [hleaf]; exact h.high

/-- Below the trapframe every mapped page is one of the user's. -/
theorem Space.page (h : Space K m t tf S) (hv : v < UVPN) (hne : leaf m.ram t v ≠ 0) :
    Page K (pte2pa (leaf m.ram t v)) :=
  h.table.good.page (Multiset.mem_add.2 (Or.inr (Multiset.mem_add.2
    (Or.inl (mem_upages.2 ⟨v, Nat.zero_le v, hv, hne, rfl⟩)))))

/-- What an address space is, apart from whose pages it consists of. -/
structure Shape (K : Image) (ram : Nat → Bytes) (t tf : Nat) : Prop where
  wf : Wf ram 2 t
  read : ∀ v, leaf ram t v ≠ 0 → has (leaf ram t v) PTE_V ∧ has (leaf ram t v) PTE_R
  trampoline : leaf ram t (UVPN + 1) = trampolinePte K
  trapframe : leaf ram t UVPN = trapframePte tf
  high : ∀ v, UVPN + 2 ≤ v → leaf ram t v = 0

theorem Space.shape (h : Space K m t tf S) : Shape K m.ram t tf :=
  ⟨h.table.wf, h.table.read, h.trampoline, h.trapframe, h.high⟩

theorem Shape.space (h : Shape K m.ram t tf) (hg : Good K m (spacePages m.ram t + S)) :
    Space K m t tf S := by
  rw [spacePages, add_assoc] at hg
  exact ⟨⟨hg, h.wf, h.read⟩, h.trampoline, h.trapframe, h.high⟩

theorem Shape.congr {ram ram' : Nat → Bytes} (h : Shape K ram t tf)
    (hm : ∀ p ∈ nodes ram 2 t, ram' p = ram p) : Shape K ram' t tf := by
  have hleaf := leaf_congr hm
  refine ⟨wf_congr hm h.wf, ?_, ?_, ?_, ?_⟩
  · rw [hleaf]; exact h.read
  · rw [hleaf]; exact h.trampoline
  · rw [hleaf]; exact h.trapframe
  · rw [hleaf]; exact h.high

/-! ### `uvmcreate` -/

/-- `t` is a new page table that maps nothing. -/
structure Created (K : Image) (S : Multiset Nat) (m m' : Mem) (t : Nat) : Prop where
  table : Table K m' t S
  empty : ∀ v, leaf m'.ram t v = 0
  missing : ∀ w, missing m'.ram 2 t w = 2
  keeps : ∀ p ∈ S, m'.ram p = m.ram p
  freelist : m.freelist = t :: m'.freelist
  failed : m'.failed = m.failed

theorem uvmcreate_spec (h : Good K m S) :
    wp uvmcreate
      (fun r m' => (r = 0 ∧ m.freelist = [] ∧ Good K m' S ∧ m'.ram = m.ram ∧
        m'.failed = m.failed + 1) ∨ (r ≠ 0 ∧ Created K S m m' r))
      (fun _ _ => False) m := by
  rw [uvmcreate, wp_bind]
  refine wp_mono (kalloc_spec h) (fun r m₁ h₁ => ?_) fun _ _ he => he
  rcases h₁ with ⟨rfl, hnil, hg, hram, -, hf⟩ | ⟨next, hnext, hp, hg, hram, hfree, hf⟩
  · rw [if_pos rfl, wp_pure]
    exact Or.inl ⟨rfl, hnil, hg, hram, hf⟩
  · rw [if_neg (Nat.ne_of_gt hp.pos)]
    simp only [wp_bind, memsetPage, wp_modify, wp_pure]
    have hfill : ∀ j, j < 512 → tbl (Function.update m₁.ram r fun _ => 0) r j = 0 := fun j _ =>
      tbl_zero (Function.update_self _ _ _) j
    have hchild : ∀ j, j < 512 → child (tbl (Function.update m₁.ram r fun _ => 0) r j) = none :=
      fun j hj => by rw [hfill j hj, child_zero]
    have hnodes : nodes (Function.update m₁.ram r fun _ => 0) 2 r = {r} := Radix.nodes_leaf hchild 2
    have hleaf : ∀ v, leaf (Function.update m₁.ram r fun _ => 0) r v = 0 := fun v => by
      rw [leaf, leafAt_fill hfill, ite_self]
    refine Or.inr ⟨Nat.ne_of_gt hp.pos, ⟨?_, ?_, ?_⟩, hleaf, fun w => ?_, fun p hpS => ?_, ?_, hf⟩
    · rw [hnodes]
      exact hg.congr rfl rfl rfl
    · exact Radix.wf_leaf hchild 2
    · intro v hne
      exact absurd (hleaf v) hne
    · exact missing_none (hchild _ (path_lt w _))
    · have hr := hg.disjoint (Multiset.mem_singleton_self r)
      refine (update_of_not_mem _ _ hr p hpS).trans ?_
      rw [hram, update_of_not_mem _ _ hr p hpS]
    · rw [hnext, ← hfree]

/-! ### `proc_pagetable` -/

/-- `t` is the page table of a new process with trapframe page `tf`: it maps no user page. -/
structure NewSpace (K : Image) (S : Multiset Nat) (m m' : Mem) (t tf : Nat) : Prop where
  space : Space K m' t tf S
  empty : ∀ v, v < UVPN → leaf m'.ram t v = 0
  missing : ∀ w, w < 2 ^ 18 → missing m'.ram 2 t w = 2
  keeps : ∀ p ∈ S, m'.ram p = m.ram p
  freelist : m'.freelist.length + 3 = m.freelist.length
  failed : m'.failed = m.failed

theorem upages_eq_zero (lf : Nat → Nat) {lo hi : Nat} (h : ∀ v, lo ≤ v → v < hi → lf v = 0) :
    upages lf lo hi = 0 := by
  refine Finset.sum_eq_zero fun v hv => ?_
  rw [Finset.mem_Ico] at hv
  rw [h v hv.1 hv.2, upage_zero]

/-- Freeing a page table that maps nothing. -/
theorem uvmfree_empty (h : Table K m t S) (h0 : ∀ v, leaf m.ram t v = 0) :
    wp (uvmfree K t 0) (fun _ m' => Good K m' S ∧ (∀ p ∈ S, m'.ram p = m.ram p) ∧
      m'.failed = m.failed) (fun _ _ => False) m := by
  refine wp_mono (uvmfree_spec 0 (h.of_eq ?_)) (fun _ m' h' => h'.2.2) fun e _ he => ?_
  · rw [upages_eq_zero _ fun v _ _ => h0 v, zero_add]
  · rcases he with ⟨-, hlt⟩ | ⟨-, v, -, hne⟩
    · exact absurd hlt (by decide)
    · exact hne (h0 v)

theorem trampoline_page : TRAMPOLINE % PGSIZE = 0 ∧ TRAMPOLINE < MAXVA ∧
    TRAMPOLINE / PGSIZE = UVPN + 1 := by
  rw [UVPN_eq]
  decide

theorem trapframe_page : TRAPFRAME % PGSIZE = 0 ∧ TRAPFRAME < MAXVA ∧ TRAPFRAME / PGSIZE = UVPN := by
  rw [UVPN_eq]
  decide

theorem apart_trapframe : apart (UVPN + 1) UVPN 2 = 0 := by
  rw [UVPN_eq]
  decide

theorem apart_top (hv : UVPN ≤ v) (hv' : v < 2 ^ 26) (hw : w < 2 ^ 18) : apart v w 2 = 2 := by
  rw [UVPN_eq] at hv
  have hne : path w 2 ≠ path v 2 := by
    rw [path, path]
    omega
  rw [apart, if_neg hne]

/-- **`proc_pagetable` makes an empty address space out of three pages, or takes none.** -/
theorem procPagetable_spec (h : Good K m S) (htf : Page K tf) :
    wp (procPagetable K tf)
      (fun r m' => (r = 0 ∧ m.freelist.length < 3 ∧ Good K m' S ∧ (∀ p ∈ S, m'.ram p = m.ram p) ∧
        m'.failed = m.failed + 1) ∨ (r ≠ 0 ∧ NewSpace K S m m' r tf))
      (fun _ _ => False) m := by
  obtain ⟨ha, hlt, hdiv⟩ := trampoline_page
  obtain ⟨ha', hlt', hdiv'⟩ := trapframe_page
  have htr : K.trampoline < PHYSTOP := by
    have h1 := K.trampoline_lt
    have h2 := K.kend_le
    rw [PGSIZE] at h1
    omega
  rw [procPagetable, wp_bind]
  refine wp_mono (uvmcreate_spec h) (fun t m₁ h₁ => ?_) fun _ _ he => he
  rcases h₁ with ⟨rfl, hnil, hg, hram, hf⟩ | ⟨ht, hc⟩
  · rw [if_pos rfl, wp_pure]
    exact Or.inl ⟨rfl, by rw [hnil]; decide, hg, fun _ _ => by rw [hram], hf⟩
  · rw [if_neg ht, wp_bind]
    have hlen := congrArg List.length hc.freelist
    rw [List.length_cons] at hlen
    have hmap := mappages_spec _ hc.table ha hlt htr (by decide : PTE_R ||| PTE_X < 1024) (by decide)
    rw [hdiv, hc.empty] at hmap
    refine wp_mono hmap (fun x m₂ h₂ => ?_) fun e _ he => absurd rfl he.2
    rcases Nat.lt_or_ge m₁.freelist.length (missing m₁.ram 2 t (UVPN + 1)) with hlen₁ | hlen₁
    · obtain ⟨rfl, hf, hleaf⟩ := h₂.stuck hlen₁
      rw [hc.missing] at hlen₁
      rw [if_pos (by decide)]
      simp only [wp_bind, wp_pure]
      refine wp_mono (uvmfree_empty h₂.table fun v => by rw [hleaf, hc.empty]) (fun _ m' h' => ?_)
        fun _ _ he => he
      obtain ⟨hg, hk, hf'⟩ := h'
      refine Or.inl ⟨trivial, by omega, hg, fun p hp => ?_, by rw [hf', hf, hc.failed]⟩
      rw [hk p hp, h₂.keeps p hp, hc.keeps p hp]
    · obtain ⟨rfl, hf, hleaf, -, hmiss⟩ := h₂.done hlen₁
      have hfree := h₂.freelist
      rw [hc.missing] at hlen₁ hfree
      rw [if_neg (by decide)]
      simp only [wp_bind]
      have hmap' := mappages_spec _ h₂.table ha' hlt' htf.lt (by decide : PTE_R ||| PTE_W < 1024)
        (by decide)
      have hframe : leaf m₂.ram t UVPN = 0 := by
        rw [hleaf, Function.update_of_ne (by omega), hc.empty]
      rw [hdiv', hframe] at hmap'
      refine wp_mono hmap' (fun y m₃ h₃ => ?_) fun e _ he => absurd rfl he.2
      have hmiss₀ : missing m₂.ram 2 t UVPN = 0 := by rw [hmiss, apart_trapframe, Nat.min_zero]
      obtain ⟨rfl, hf₃, hleaf₃, -, hmiss₃⟩ := h₃.done (by omega)
      rw [if_neg (by decide), wp_pure]
      have hleaf' : leaf m₃.ram t = Function.update (Function.update (leaf m₁.ram t) (UVPN + 1)
          (trampolinePte K)) UVPN (trapframePte tf) := by
        rw [hleaf₃, hleaf]
        rfl
      have hzero : ∀ v, v ≠ UVPN → v ≠ UVPN + 1 → leaf m₃.ram t v = 0 := fun v h1 h2 => by
        rw [hleaf', Function.update_of_ne h1, Function.update_of_ne h2, hc.empty]
      refine Or.inr ⟨ht, ⟨h₃.table.of_eq ?_, ?_, ?_, fun v hv => hzero v (by omega) (by omega)⟩,
        fun v hv => hzero v (by omega) (by omega), fun w hw => ?_, fun p hp => ?_, ?_, ?_⟩
      · rw [upages_eq_zero _ fun v _ hv => hzero v (by omega) (by omega), zero_add]
      · rw [hleaf', Function.update_of_ne (by omega), Function.update_self]
      · rw [hleaf', Function.update_self]
      · rw [hmiss₃, hmiss, hc.missing, apart_top (Nat.le_succ _) (by rw [UVPN_eq]; decide) hw,
          apart_top (Nat.le_refl _) (by rw [UVPN_eq]; decide) hw]
        rfl
      · rw [h₃.keeps p hp, h₂.keeps p hp, hc.keeps p hp]
      · rw [h₃.freelist, hmiss₀, List.drop_zero, hfree, List.length_drop]
        omega
      · rw [hf₃, hf, hc.failed]

/-! ### `proc_freepagetable` -/

theorem trampoline_eq : TRAMPOLINE = (UVPN + 1) * PGSIZE := by
  rw [UVPN_eq]
  rfl

theorem trapframe_eq : TRAPFRAME = UVPN * PGSIZE := by
  rw [UVPN_eq]
  rfl

/-- Unmapping one page and keeping what it was mapped to. -/
theorem unmap_one (hv : v < 2 ^ 26) (h : Table K m t S) :
    wp (uvmunmap K t (v * PGSIZE) 1 false) (fun _ m' => Unmapped K S m m' t v (v + 1))
      (fun _ _ => False) m := by
  have hun := uvmunmap_spec (K := K) (S := S) (m := m) (t := t) (v := v) (k := 1) false
    (by omega) (h.of_eq (by rw [if_neg (by decide), zero_add]))
  exact wp_mono hun (fun _ m' h' => h'.2) fun e _ he => by omega

/-- **`proc_freepagetable` gives back an address space of which nothing is mapped at or above
`sz`.** -/
theorem procFreepagetable_spec (h : Space K m t tf S) :
    wp (procFreepagetable K t sz)
      (fun _ m' => vpnup sz ≤ 2 ^ 26 ∧ (∀ v, vpnup sz ≤ v → v < UVPN → leaf m.ram t v = 0) ∧
        Good K m' S ∧ (∀ p ∈ S, m'.ram p = m.ram p) ∧ m'.failed = m.failed)
      (fun e _ => (e = .panic "walk" ∧ 2 ^ 26 < vpnup sz) ∨
        (e = .panic "freewalk: leaf" ∧ ∃ v, vpnup sz ≤ v ∧ v < UVPN ∧ leaf m.ram t v ≠ 0)) m := by
  have hlt : UVPN < 2 ^ 26 - 1 := by rw [UVPN_eq]; decide
  rw [procFreepagetable, trampoline_eq, trapframe_eq]
  simp only [wp_bind]
  refine wp_mono (unmap_one (by omega) h.table) (fun _ m₁ h₁ => ?_) fun _ _ he => he.elim
  refine wp_mono (unmap_one (by omega) h₁.table) (fun _ m₂ h₂ => ?_) fun _ _ he => he.elim
  have hbelow : ∀ v, v < UVPN → leaf m₂.ram t v = leaf m.ram t v := fun v hv => by
    rw [h₂.leaf, h₁.leaf, unmapped, if_neg (by omega), unmapped, if_neg (by omega)]
  have habove : ∀ v, UVPN ≤ v → leaf m₂.ram t v = 0 := fun v hv => by
    rw [h₂.leaf, h₁.leaf, unmapped, unmapped]
    split
    · rfl
    · split
      · rfl
      · exact h.high v (by omega)
  have hkeep : ∀ p ∈ upages (leaf m.ram t) 0 UVPN + S, m₂.ram p = m.ram p := fun p hp =>
    (h₂.keeps p hp).trans (h₁.keeps p hp)
  -- the user pages below `sz`, which `uvmfree` gives back, and those that would be left
  have hsplit : upages (leaf m.ram t) 0 UVPN + S = upages (leaf m₂.ram t) 0 (vpnup sz) +
      (upages (leaf m.ram t) (min (vpnup sz) UVPN) UVPN + S) := by
    rw [← add_assoc, upages_append (leaf m.ram t) (Nat.zero_le _) (Nat.min_le_right (vpnup sz) UVPN),
      upages_append (leaf m₂.ram t) (Nat.zero_le _) (Nat.min_le_left (vpnup sz) UVPN),
      upages_congr fun v _ hv => hbelow v (by omega),
      upages_eq_zero (leaf m₂.ram t) fun v h1 h2 => habove v (by omega), add_zero]
  refine wp_mono (uvmfree_spec sz (h₂.table.of_eq hsplit.symm)) (fun _ m' h' => ?_) fun e _ he => ?_
  · obtain ⟨hle, h0, hg, hk, hf⟩ := h'
    have h0' : ∀ v, vpnup sz ≤ v → v < UVPN → leaf m.ram t v = 0 := fun v hv hu => by
      rw [← hbelow v hu, h0 v hv]
    rw [upages_eq_zero _ fun v h1 h2 => h0' v (by omega) h2, zero_add] at hg hk
    exact ⟨hle, h0', hg, fun p hp => (hk p hp).trans (hkeep p (Multiset.mem_add.2 (Or.inr hp))),
      by rw [hf, h₂.failed, h₁.failed]⟩
  · refine he.imp_right fun he => ⟨he.1, ?_⟩
    obtain ⟨-, v, hv, hne⟩ := he
    have hu : v < UVPN := by
      by_contra hu
      exact hne (habove v (by omega))
    exact ⟨v, hv, hu, by rwa [← hbelow v hu]⟩

/-- A page of zeroes is a table that maps nothing. -/
theorem uvmcopy_spec_new : ∃ (S : Multiset Nat) (m : Mem) (o t : Nat),
    CopyPre onePageKernel S m o t ∧ wp (uvmcopy onePageKernel o t PGSIZE)
      (CopyEnd onePageKernel S m o t 1) (fun e _ => CopyPanic m o 1 e) m := by
  obtain ⟨m₀, hg₀, hlen⟩ := exists_booted
  obtain ⟨o, m₁, -, ⟨-, hnil, -⟩ | ⟨next, hnext, hpage, hg₁, -, hfree, -⟩⟩ :=
    (kalloc_spec hg₀).exists_ok
  · rw [hnil, List.length_nil] at hlen
    cases hlen
  have hg₂ : Good onePageKernel { m₁ with ram := Function.update m₁.ram o fun _ => 0 }
      ({o} + 0) := hg₁.congr rfl rfl rfl
  obtain ⟨t, m, -, ⟨-, hfew, -⟩ | ⟨-, hnew⟩⟩ := (procPagetable_spec hg₂ hpage).exists_ok
  · rw [hnext, ← hfree, List.length_cons] at hlen
    dsimp only at hfew
    omega
  have htbl := tbl_zero ((hnew.keeps o (by simp)).trans
    (Function.update_self o (fun _ => 0) m₁.ram))
  have hleaf : ∀ w, leaf m.ram o w = 0 := fun w => by
    rw [leaf, leafAt_fill (fun j _ => htbl j), ite_self]
  have hnodes : nodes m.ram 2 o = {o} := by
    rw [nodes_eq_subtrees m.ram 1, subtrees, Finset.sum_eq_zero fun i _ => by
      rw [htbl, child_zero, Option.elim_none], add_zero]
  have hpre : CopyPre onePageKernel _ m o t :=
    ⟨hnew.space.table, fun w hw => hnew.empty w (by rw [UVPN_eq]; omega), hnew.missing,
      fun p hp => by rw [hnodes] at hp; simp [Multiset.mem_singleton.1 hp],
      fun w _ hne => absurd (hleaf w) hne, fun w hne => absurd (hleaf w) hne⟩
  exact ⟨_, m, o, t, hpre, uvmcopy_spec hpre⟩

end Xv6
