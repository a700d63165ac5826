import Xv6.Vm.Free

/-!
# Mapping new pages

`uvmalloc`, `uvmcopy` and `lazy_alloc` take pages off the free list, fill them and map them; when
they run out of pages they give back what they took.  All three rest on the same step: a fresh
page, filled, is mapped at a page that was not mapped.
-/

set_option autoImplicit false

namespace Xv6

variable {K : Image} {S : Multiset Nat} {m m₁ m' : Mem} {t v lo hi r : Nat} {b : Bytes}
  {next : List Nat}

/-! ### A fresh page -/

/-- The page `r`, the first of the free list, has been taken and holds `b`. -/
structure Fresh (K : Image) (S : Multiset Nat) (m m' : Mem) (t r : Nat) (b : Bytes)
    (next : List Nat) : Prop where
  table : Table K m' t ({r} + S)
  page : Page K r
  keeps : ∀ p ∈ S, m'.ram p = m.ram p
  leaf : leaf m'.ram t = Xv6.leaf m.ram t
  missing : ∀ w, missing m'.ram 2 t w = Xv6.missing m.ram 2 t w
  content : m'.ram r = b
  taken : m.freelist = r :: next
  freelist : m'.freelist = next
  failed : m'.failed = m.failed

/-- A page table does not see a page being taken and filled. -/
theorem Fresh.of_ram (h : Table K m t S) (hp : Page K r) (htaken : m.freelist = r :: next)
    (hg : Good K m' ({r} + (nodes m.ram 2 t + S))) (hram : m'.ram = Function.update m.ram r b)
    (hfree : m'.freelist = next) (hfailed : m'.failed = m.failed) : Fresh K S m m' t r b next := by
  have hr := hg.disjoint (Multiset.mem_singleton_self r)
  have hkeep : ∀ p ∈ nodes m.ram 2 t + S, m'.ram p = m.ram p := by
    rw [hram]
    exact update_of_not_mem _ _ hr
  obtain ⟨htab, hleaf, -, hmiss⟩ := h.congr (fun p hp => hkeep p (Multiset.mem_add.2 (Or.inl hp)))
    (hg.congr rfl rfl (add_left_comm _ _ _))
  exact ⟨htab, hp, fun p hp => hkeep p (Multiset.mem_add.2 (Or.inr hp)), hleaf, hmiss,
    by rw [hram, Function.update_self], htaken, hfree, hfailed⟩

theorem kalloc_table (h : Table K m t S) :
    wp kalloc
      (fun r m' => (r = 0 ∧ m.freelist = [] ∧ Table K m' t S ∧ m'.ram = m.ram ∧
          m'.failed = m.failed + 1) ∨
        ∃ next, r ≠ 0 ∧ Fresh K S m m' t r (fun _ => 5) next)
      (fun _ _ => False) m := by
  refine wp_mono (kalloc_spec h.good) (fun r m' h' => ?_) fun _ _ he => he
  rcases h' with ⟨hr, hnil, hg, hram, -, hf⟩ | ⟨next, hnext, hp, hg, hram, hfree, hf⟩
  · refine Or.inl ⟨hr, hnil, (h.congr (fun p _ => by rw [hram]) hg).1, hram, hf⟩
  · exact Or.inr ⟨next, Nat.ne_of_gt hp.pos, Fresh.of_ram h hp hnext hg hram hfree hf⟩

/-- Filling the fresh page with something else. -/
theorem Fresh.fill (h : Fresh K S m m₁ t r b next) (b' : Bytes) (hm : m' = { m₁ with
    ram := Function.update m₁.ram r b' }) : Fresh K S m m' t r b' next := by
  have hr : r ∉ nodes m₁.ram 2 t + S := by
    have hg := h.table.good
    rw [add_left_comm] at hg
    exact hg.disjoint (Multiset.mem_singleton_self r)
  have hram : m'.ram = Function.update m₁.ram r b' := by rw [hm]
  have hkeep : ∀ p ∈ nodes m₁.ram 2 t + S, m'.ram p = m₁.ram p := by
    rw [hram]
    exact update_of_not_mem _ _ hr
  obtain ⟨htab, hleaf, -, hmiss⟩ := h.table.congr
    (fun p hp => hkeep p (Multiset.mem_add.2 (Or.inl hp)))
    (h.table.good.congr (by rw [hm]) (by rw [hm]) rfl)
  exact ⟨htab, h.page, fun p hp => (hkeep p (Multiset.mem_add.2 (Or.inr hp))).trans (h.keeps p hp),
    hleaf.trans h.leaf, fun w => (hmiss w).trans (h.missing w),
    by rw [hram, Function.update_self], h.taken, by rw [hm, ← h.freelist], by rw [hm, ← h.failed]⟩

theorem Fresh.writeBytes (h : Fresh K S m m₁ t r b next) (src : Bytes) :
    wp (writeBytes r 0 src PGSIZE)
      (fun _ m' => ∃ b', Fresh K S m m' t r b' next ∧ ∀ j, j < PGSIZE → b' j = src j)
      (fun _ _ => False) m₁ := by
  rw [Xv6.writeBytes, wp_modify]
  refine ⟨_, h.fill _ rfl, fun j hj => ?_⟩
  rw [if_pos (by omega), Nat.sub_zero]

/-- The entry that maps a page reads back as that page and its permissions. -/
theorem pte2pa_entry {perm : Nat} (hp : Page K r) (hperm : perm < 1024) :
    pte2pa (pa2pte r ||| perm ||| PTE_V) = r := by
  rw [Nat.or_assoc]
  exact pte2pa_or (Nat.or_lt_two_pow (n := 10) hperm (by decide)) hp.aligned

theorem pteFlags_entry {perm : Nat} (hperm : perm < 1024) (pa : Nat) :
    pteFlags (pa2pte pa ||| perm ||| PTE_V) = perm ||| PTE_V := by
  rw [Nat.or_assoc]
  exact pteFlags_or (Nat.or_lt_two_pow (n := 10) hperm (by decide)) pa

theorem entry_ne_zero (pa perm : Nat) : pa2pte pa ||| perm ||| PTE_V ≠ 0 := fun h =>
  absurd (Nat.or_eq_zero_iff.1 h).2 (by decide)

/-- Giving the fresh page back because it could not be mapped. -/
theorem Mapped.undo {pte : Nat} {x : Int} (h : Mapped K ({r} + S) m m' t v pte x)
    (hlen : m.freelist.length < missing m.ram 2 t v) :
    wp (kfree K r) (fun _ m₂ => Table K m₂ t S ∧ (∀ p ∈ S, m₂.ram p = m.ram p) ∧
      leaf m₂.ram t = leaf m.ram t ∧ m₂.failed = m.failed + 1) (fun _ _ => False) m' := by
  obtain ⟨-, hf, hleaf⟩ := h.stuck hlen
  have hg := h.table.good
  rw [add_left_comm] at hg
  refine wp_mono (kfree_spec hg) (fun _ m₂ h₂ => ?_) fun _ _ he => he
  obtain ⟨hg₂, hram, -, hf₂⟩ := h₂
  have hkeep : ∀ p ∈ nodes m'.ram 2 t + S, m₂.ram p = m'.ram p := by
    rw [hram]
    exact update_of_not_mem _ _ (hg.disjoint (Multiset.mem_singleton_self r))
  obtain ⟨htab, hleaf₂, -, -⟩ := h.table.congr
    (fun p hp => hkeep p (Multiset.mem_add.2 (Or.inl hp))) hg₂
  exact ⟨htab, fun p hp => (hkeep p (Multiset.mem_add.2 (Or.inr hp))).trans
    (h.keeps p (Multiset.mem_add.2 (Or.inr hp))), hleaf₂.trans hleaf, by rw [hf₂, hf]⟩

/-! ### `lazy_alloc` -/

/-- Nothing that the page table maps has changed, though it may have got more tables; a `kalloc`
has failed. -/
structure Kept (K : Image) (S : Multiset Nat) (m m' : Mem) (t : Nat) : Prop where
  table : Table K m' t S
  keeps : ∀ p ∈ S, m'.ram p = m.ram p
  leaf : leaf m'.ram t = Xv6.leaf m.ram t
  failed : m'.failed = m.failed + 1

/-- The page `v` is now mapped to the page `pa`, which is full of zeroes. -/
structure Filled (K : Image) (S : Multiset Nat) (m m' : Mem) (t v pa : Nat) : Prop where
  page : Page K pa
  table : Table K m' t ({pa} + S)
  keeps : ∀ p ∈ S, m'.ram p = m.ram p
  leaf : leaf m'.ram t =
    Function.update (Xv6.leaf m.ram t) v (pa2pte pa ||| (PTE_R ||| PTE_W ||| PTE_U) ||| PTE_V)
  zero : m'.ram pa = fun _ => 0
  failed : m'.failed = m.failed

theorem kept_of_kalloc (htab : Table K m' t S) (hram : m'.ram = m.ram)
    (hf : m'.failed = m.failed + 1) : Kept K S m m' t :=
  ⟨htab, fun p _ => by rw [hram], by rw [hram], hf⟩

/-- **What `lazy_alloc` does, case by case, and exactly when it panics.** -/
theorem lazyAlloc_spec {va : Nat} (h : Table K m t S)
    (hpos : leaf m.ram t (va / PGSIZE) ≠ 0 → pte2pa (leaf m.ram t (va / PGSIZE)) ≠ 0) :
    wp (lazyAlloc K t va)
      (fun r m' =>
        (r = 0 ∧ m' = m ∧ va < MAXVA ∧ leaf m.ram t (va / PGSIZE) ≠ 0 ∧
          has (leaf m.ram t (va / PGSIZE)) PTE_U) ∨
        (r = -1 ∧ (m.freelist = [] ∨ (va < MAXVA ∧ leaf m.ram t (va / PGSIZE) = 0 ∧
          m.freelist.length < 1 + missing m.ram 2 t (va / PGSIZE))) ∧ Kept K S m m' t) ∨
        (r = 0 ∧ va < MAXVA ∧ leaf m.ram t (va / PGSIZE) = 0 ∧
          ∃ pa, Filled K S m m' t (va / PGSIZE) pa))
      (fun e _ => m.freelist ≠ [] ∧ ((e = .panic "walk" ∧ MAXVA ≤ va) ∨
        (e = .panic "mappages: remap" ∧ va < MAXVA ∧ leaf m.ram t (va / PGSIZE) ≠ 0 ∧
          has (leaf m.ram t (va / PGSIZE)) PTE_U = false))) m := by
  have hdown : pgrounddown va / PGSIZE = va / PGSIZE := Nat.mul_div_cancel _ (by decide)
  have hmax : pgrounddown va ≥ MAXVA ↔ MAXVA ≤ va := by
    rw [pgrounddown, PGSIZE, show MAXVA = 2 ^ 26 * 4096 from rfl]
    omega
  rw [lazyAlloc]
  simp only [wp_bind, wp_walkaddr, hdown, hmax]
  by_cases haddr : (if MAXVA ≤ va then 0 else addrOf (leaf m.ram t (va / PGSIZE))) ≠ 0
  · -- the page is already there for the user
    rw [if_pos haddr, wp_pure]
    have hlt : ¬ MAXVA ≤ va := fun hle => haddr (if_pos hle)
    rw [if_neg hlt, addrOf] at haddr
    refine Or.inl ⟨rfl, rfl, by omega, ?_⟩
    cases hV : has (leaf m.ram t (va / PGSIZE)) PTE_V with
    | false => rw [hV] at haddr; exact absurd rfl haddr
    | true =>
      cases hU : has (leaf m.ram t (va / PGSIZE)) PTE_U with
      | false => rw [hV, hU] at haddr; exact absurd rfl haddr
      | true => exact ⟨h.valid_iff.1 hV, rfl⟩
  · rw [if_neg haddr]
    simp only [wp_bind]
    refine wp_mono (kalloc_table h) (fun r m₁ h₁ => ?_) fun _ _ he => he.elim
    rcases h₁ with ⟨rfl, hnil, htab, hram, hf⟩ | ⟨next, hr, hfresh⟩
    · rw [if_pos rfl, wp_pure]
      exact Or.inr (Or.inl ⟨rfl, Or.inl hnil, kept_of_kalloc htab hram hf⟩)
    · rw [if_neg hr]
      simp only [wp_bind, memsetPage, wp_modify]
      have hfill := hfresh.fill (fun _ => 0) rfl
      have halign : pgrounddown va % PGSIZE = 0 := Nat.mul_mod_left _ _
      have hne : m.freelist ≠ [] := by rw [hfresh.taken]; exact List.cons_ne_nil _ _
      rcases Nat.lt_or_ge va MAXVA with hlt | hge
      · rw [if_neg (by omega)] at haddr
        have hmap := mappages_spec _ hfill.table halign (by omega) hfresh.page.lt
          (by decide : PTE_R ||| PTE_W ||| PTE_U < 1024) (by decide)
        rw [hdown] at hmap
        refine wp_mono hmap (fun x m₃ h₃ => ?_) fun e _ he => ?_
        · have hmiss := hfill.missing (va / PGSIZE)
          rcases Nat.lt_or_ge next.length (missing m.ram 2 t (va / PGSIZE)) with hlen | hlen
          · have hlen' := hlen
            rw [← hmiss, ← hfill.freelist] at hlen'
            obtain ⟨rfl, -, -⟩ := h₃.stuck hlen'
            rw [if_pos (by decide)]
            simp only [wp_bind, wp_pure]
            refine wp_mono (h₃.undo hlen') (fun _ m₄ h₄ => ?_) fun _ _ he => he.elim
            obtain ⟨htab, hkeeps, hleaf, hf⟩ := h₄
            have h0 : leaf m.ram t (va / PGSIZE) = 0 := by
              by_contra h0
              rw [leaf_missing h0] at hlen
              omega
            refine Or.inr (Or.inl ⟨trivial, Or.inr ⟨hlt, h0, ?_⟩, htab,
              fun p hp => (hkeeps p hp).trans (hfill.keeps p hp), hleaf.trans hfill.leaf,
              by rw [hf, hfill.failed]⟩)
            rw [hfresh.taken, List.length_cons]
            omega
          · rw [← hmiss, ← hfill.freelist] at hlen
            obtain ⟨rfl, hf, hleaf, h0, -⟩ := h₃.done hlen
            rw [if_neg (by decide), wp_pure]
            rw [hfill.leaf] at hleaf h0
            refine Or.inr (Or.inr ⟨rfl, hlt, h0, r, hfresh.page, h₃.table, fun p hp => ?_, hleaf,
              ?_, by rw [hf, hfill.failed]⟩)
            · rw [h₃.keeps p (Multiset.mem_add.2 (Or.inr hp)), hfill.keeps p hp]
            · rw [h₃.keeps r (Multiset.mem_add.2 (Or.inl (Multiset.mem_singleton_self r))),
                hfill.content]
        · rw [hfill.leaf] at he
          refine ⟨hne, Or.inr ⟨he.1, hlt, he.2, ?_⟩⟩
          rw [addrOf, (h.read _ he.2).1, Bool.true_and] at haddr
          by_contra hU
          rw [if_pos (by simpa using hU)] at haddr
          exact haddr (hpos he.2)
      · rw [mappages_of_ge halign (by omega)]
        exact ⟨hne, Or.inl ⟨rfl, hge⟩⟩

/-! ### Growing page by page -/

/-- The pages from `lo` up to `hi` have been mapped to new pages; `P` says what each entry and the
page behind it look like. -/
structure Grown (K : Image) (P : Nat → Nat → Bytes → Prop) (S : Multiset Nat) (m m' : Mem)
    (t lo hi : Nat) : Prop where
  table : Table K m' t (upages (leaf m'.ram t) lo hi + S)
  keeps : ∀ p ∈ S, m'.ram p = m.ram p
  out : ∀ v, v < lo ∨ hi ≤ v → leaf m'.ram t v = leaf m.ram t v
  entry : ∀ v, lo ≤ v → v < hi → leaf m'.ram t v ≠ 0 ∧
    P v (leaf m'.ram t v) (m'.ram (pte2pa (leaf m'.ram t v)))
  failed : m'.failed = m.failed

variable {P : Nat → Nat → Bytes → Prop}

theorem Grown.empty (h : Table K m t S) (lo : Nat) : Grown K P S m m t lo lo := by
  refine ⟨h.of_eq ?_, fun _ _ => rfl, fun _ _ => rfl, fun v h1 h2 => by omega, rfl⟩
  rw [upages_empty, zero_add]

/-- The page after the ones mapped so far is mapped to the fresh page `r`, which holds `b`. -/
theorem Grown.snoc {m₂ : Mem} {perm : Nat} (h : Grown K P S m m₁ t lo v) (hlo : lo ≤ v)
    (hf : Fresh K (upages (leaf m₁.ram t) lo v + S) m₁ m₂ t r b next) (hperm : perm < 1024)
    (hm : Mapped K ({r} + (upages (leaf m₁.ram t) lo v + S)) m₂ m' t v
      (pa2pte r ||| perm ||| PTE_V) 0)
    (hlen : missing m₂.ram 2 t v ≤ m₂.freelist.length)
    (hP : P v (pa2pte r ||| perm ||| PTE_V) b) :
    Grown K P S m m' t lo (v + 1) := by
  obtain ⟨-, hfail, hleaf, -, -⟩ := hm.done hlen
  rw [hf.leaf] at hleaf
  have hpa := pte2pa_entry hf.page hperm
  have hup : upages (leaf m'.ram t) lo (v + 1) = {r} + upages (leaf m₁.ram t) lo v := by
    rw [upages_append _ hlo (Nat.le_succ v), hleaf, upages_update_out _ _ (Or.inr (Nat.le_refl v)),
      upages_succ _ v 0, Function.update_self, upages_empty, add_zero,
      upage_of_ne (entry_ne_zero _ _), hpa, add_comm]
  have hkeep : ∀ p ∈ upages (leaf m₁.ram t) lo v + S, m'.ram p = m₁.ram p := fun p hp =>
    (hm.keeps p (Multiset.mem_add.2 (Or.inr hp))).trans (hf.keeps p hp)
  refine ⟨hm.table.of_eq (by rw [hup, add_assoc]), fun p hp => ?_, fun w hw => ?_,
    fun w h1 h2 => ?_, hfail.trans (hf.failed.trans h.failed)⟩
  · rw [hkeep p (Multiset.mem_add.2 (Or.inr hp)), h.keeps p hp]
  · rw [hleaf, Function.update_of_ne (by omega), h.out w (by omega)]
  · rw [hleaf]
    rcases Nat.lt_or_eq_of_le (Nat.le_of_lt_succ h2) with hlt | rfl
    · obtain ⟨hne, hPw⟩ := h.entry w h1 hlt
      rw [Function.update_of_ne (by omega), hkeep _ (Multiset.mem_add.2 (Or.inl ?_))]
      · exact ⟨hne, hPw⟩
      · exact mem_upages.2 ⟨w, h1, hlt, hne, rfl⟩
    · rw [Function.update_self, hpa,
        hm.keeps r (Multiset.mem_add.2 (Or.inl (Multiset.mem_singleton_self r))), hf.content]
      exact ⟨entry_ne_zero _ _, hP⟩

/-- Unmapping what has been mapped so far leads back to the page table before. -/
theorem Grown.rollback {m₂ : Mem} (h : Grown K P S m m₁ t lo hi)
    (hfree : ∀ v, lo ≤ v → v < hi → leaf m.ram t v = 0)
    (hk : ∀ p ∈ upages (leaf m₁.ram t) lo hi + S, m₂.ram p = m₁.ram p)
    (hl : leaf m₂.ram t = leaf m₁.ram t) (hf : m₂.failed = m₁.failed + 1)
    (hu : Unmapped K S m₂ m' t lo hi) : Kept K S m m' t := by
  refine ⟨hu.table, fun p hp => ?_, ?_, by rw [hu.failed, hf, h.failed]⟩
  · rw [hu.keeps p hp, hk p (Multiset.mem_add.2 (Or.inr hp)), h.keeps p hp]
  · funext v
    rw [hu.leaf, hl, unmapped]
    split
    · next hv => exact (hfree v hv.1 hv.2).symm
    · next hv => exact h.out v (by omega)

/-! ### `uvmalloc` -/

/-- What `uvmalloc` maps: zeroed pages. -/
def Zeroed (perm _v pte : Nat) (b : Bytes) : Prop := pteFlags pte = perm ||| PTE_V ∧ b = fun _ => 0

/-- The loop of `uvmalloc`, after `lo` up to `v` have been mapped. -/
theorem uvmallocFrom_spec {newsz xperm : Nat} (hperm : PTE_R ||| PTE_U ||| xperm < 1024) :
    ∀ {k v : Nat} {m₁ : Mem}, lo ≤ v → v ≤ 2 ^ 26 →
    Grown K (Zeroed (PTE_R ||| PTE_U ||| xperm)) S m m₁ t lo v →
    (∀ w, lo ≤ w → w < v + k → w < v + m₁.freelist.length → w < 2 ^ 26 ∧ leaf m.ram t w = 0) →
    wp (uvmallocFrom K t (lo * PGSIZE) newsz xperm k (v * PGSIZE))
      (fun r m' =>
        (r = newsz ∧ Grown K (Zeroed (PTE_R ||| PTE_U ||| xperm)) S m m' t lo (v + k)) ∨
        (r = 0 ∧ Kept K S m m' t))
      (fun _ _ => False) m₁
  | 0, v, m₁, hlo, hv, h, hfree => by
    rw [uvmallocFrom, wp_pure]
    exact Or.inl ⟨rfl, h⟩
  | k + 1, v, m₁, hlo, hv, h, hfree => by
    have hdiv : v * PGSIZE / PGSIZE = v := Nat.mul_div_cancel v (by decide)
    have hnext : v * PGSIZE + PGSIZE = (v + 1) * PGSIZE := by rw [Nat.succ_mul]
    rw [uvmallocFrom]
    simp only [wp_bind]
    refine wp_mono (kalloc_table h.table) (fun r m₂ h₂ => ?_) fun _ _ he => he
    rcases h₂ with ⟨rfl, hnil, htab, hram, hf⟩ | ⟨next, hr, hfresh⟩
    · rw [if_pos rfl]
      simp only [wp_bind, wp_pure]
      refine wp_mono (uvmdealloc_pages hlo hv (htab.of_eq (by rw [hram]))) (fun _ m' h' => ?_)
        fun _ _ he => he
      refine Or.inr ⟨trivial, h.rollback (fun w h1 h2 => ?_) (fun _ _ => by rw [hram])
        (by rw [hram]) hf h'⟩
      exact (hfree w h1 (by omega) (by omega)).2
    · rw [if_neg hr]
      simp only [wp_bind, memsetPage, wp_modify]
      have hfill := hfresh.fill (fun _ => 0) rfl
      obtain ⟨hvlt, hv0⟩ := hfree v hlo (by omega) (by rw [hfresh.taken, List.length_cons]; omega)
      have hR : has (PTE_R ||| PTE_U ||| xperm) PTE_R = true := by rw [has_or, has_or]; rfl
      have hmap := mappages_spec (v * PGSIZE) hfill.table (Nat.mul_mod_left _ _)
        (by rw [show MAXVA = 2 ^ 26 * PGSIZE from rfl]
            exact Nat.mul_lt_mul_of_pos_right hvlt (by decide)) hfresh.page.lt hperm hR
      rw [hdiv, hfill.leaf, h.out v (Or.inr (Nat.le_refl v)), hv0] at hmap
      refine wp_mono hmap (fun x m₃ h₃ => ?_) fun e _ he => absurd rfl he.2
      rcases Nat.lt_or_ge _ _ with hlen | hlen
      · obtain ⟨rfl, -, -⟩ := h₃.stuck hlen
        rw [if_pos (by decide)]
        simp only [wp_bind, wp_pure]
        refine wp_mono (h₃.undo hlen) (fun _ m₄ h₄ => ?_) fun _ _ he => he
        obtain ⟨htab, hkeeps, hleaf, hf⟩ := h₄
        rw [hfill.leaf] at hleaf
        refine wp_mono (uvmdealloc_pages hlo hv (htab.of_eq (by rw [hleaf]))) (fun _ m' h' => ?_)
          fun _ _ he => he
        refine Or.inr ⟨trivial, h.rollback (fun w h1 h2 => ?_)
          (fun p hp => (hkeeps p hp).trans (hfill.keeps p hp)) hleaf (by rw [hf, hfill.failed]) h'⟩
        exact (hfree w h1 (by omega) (by omega)).2
      · obtain ⟨rfl, -⟩ := h₃.done hlen
        rw [if_neg (by decide), hnext]
        have hgrown := h.snoc hlo hfill hperm h₃ hlen ⟨pteFlags_entry hperm r, rfl⟩
        refine wp_mono (uvmallocFrom_spec hperm (by omega) (by omega) hgrown
          fun w h1 h2 h3 => hfree w h1 (by omega) ?_) (fun x m' h' => ?_) fun _ _ he => he
        · rw [h₃.freelist, hfill.freelist, List.length_drop] at h3
          rw [hfresh.taken, List.length_cons]
          omega
        · rw [show v + (k + 1) = v + 1 + k by omega]
          exact h'

/-- **`uvmalloc` maps zeroed pages up to the new size, or gives back what it took.** -/
theorem uvmalloc_spec {oldsz newsz xperm : Nat} (h : Table K m t S) (hold : oldsz ≤ MAXVA)
    (hle : oldsz ≤ newsz) (hperm : PTE_R ||| PTE_U ||| xperm < 1024)
    (hfree : ∀ w, vpnup oldsz ≤ w → w < (newsz + 4095) / 4096 →
      w < vpnup oldsz + m.freelist.length → w < 2 ^ 26 ∧ leaf m.ram t w = 0) :
    wp (uvmalloc K t oldsz newsz xperm)
      (fun r m' => (r = newsz ∧ Grown K (Zeroed (PTE_R ||| PTE_U ||| xperm)) S m m' t
          (vpnup oldsz) ((newsz + 4095) / 4096)) ∨ (r = 0 ∧ Kept K S m m' t))
      (fun _ _ => False) m := by
  have hmax : MAXVA = 2 ^ 26 * 4096 := rfl
  have hv : vpnup oldsz = (oldsz + 4095) / 4096 := vpnup_eq (by omega)
  have hk : vpnup oldsz + (newsz - vpnup oldsz * PGSIZE + PGSIZE - 1) / PGSIZE =
      (newsz + 4095) / 4096 := by
    rw [PGSIZE]
    omega
  rw [uvmalloc, if_neg (by omega), pgroundup_eq, ← hk]
  rw [← hk] at hfree
  exact uvmallocFrom_spec hperm (Nat.le_refl _) (by omega) (Grown.empty h _) hfree

end Xv6
