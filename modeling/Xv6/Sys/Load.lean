import Xv6.Sys.Exec

/-!
# Loading a program

`exec` builds a new address space from what a file says, and the file may say anything.  What keeps
it safe is one invariant: exactly the pages below the running size are mapped, all of them for the
user.  So `uvmalloc` never finds a page that is mapped, `loadseg` finds all of its pages, and
`proc_freepagetable` leaves none behind.  The sizes stay small by themselves, since every page
below them takes one of memory.
-/

set_option autoImplicit false

namespace Xv6

variable {K : Image} {S : Multiset Nat} {m₀ m m' : Mem} {t tf sz newsz v : Nat}

/-- A new address space, of which exactly the pages below `sz` are mapped; the pages in `S` are as
they were in `m₀`. -/
structure Built (K : Image) (S : Multiset Nat) (m₀ m : Mem) (t tf sz : Nat) : Prop where
  space : Space K m t tf S
  mapped : ∀ v, v < UVPN → (leaf m.ram t v ≠ 0 ↔ v < vpnup sz)
  size : sz ≤ 2 ^ 27
  keeps : ∀ p ∈ S, m.ram p = m₀.ram p

theorem Built.vpnup_eq (h : Built K S m₀ m t tf sz) : vpnup sz = (sz + 4095) / 4096 :=
  Xv6.vpnup_eq (h.size.trans (by decide))

theorem Built.vpnup_le (h : Built K S m₀ m t tf sz) : vpnup sz ≤ 32768 := by
  have hs := h.size
  rw [h.vpnup_eq]
  omega

theorem Built.leaf_zero (h : Built K S m₀ m t tf sz) (hv : vpnup sz ≤ v) (hlt : v < UVPN) :
    leaf m.ram t v = 0 :=
  by_contra fun hne => Nat.not_lt.2 hv ((h.mapped v hlt).1 hne)

/-- A new address space, empty as `proc_pagetable` makes it. -/
theorem NewSpace.built (h : NewSpace K S m m' t tf) : Built K S m m' t tf 0 where
  space := h.space
  mapped v hv := ⟨fun hne => absurd (h.empty v hv) hne, fun hlt => absurd hlt (Nat.not_lt_zero v)⟩
  size := Nat.zero_le _
  keeps := h.keeps

/-! ## Growing -/

/-- Each page that is mapped is one of memory. -/
theorem card_upages {lf : Nat → Nat} {lo hi : Nat} (h : ∀ v, lo ≤ v → v < hi → lf v ≠ 0) :
    Multiset.card (upages lf lo hi) = hi - lo := by
  rw [upages, Multiset.card_sum, Finset.sum_congr rfl (g := fun _ => 1) fun v hv => ?_]
  · rw [← Finset.card_eq_sum_ones, Nat.card_Ico]
  · rw [Finset.mem_Ico] at hv
    rw [upage_of_ne (h v hv.1 hv.2), Multiset.card_singleton]

/-- **`uvmalloc` maps the pages up to the new size, or nothing.** -/
theorem Built.uvmalloc {xperm : Nat} (h : Built K S m₀ m t tf sz) (hle : sz ≤ newsz)
    (hperm : PTE_R ||| PTE_U ||| xperm < 1024) :
    wp (uvmalloc K t sz newsz xperm)
      (fun r m' => (r = newsz ∧ Built K S m₀ m' t tf newsz ∧
          (∀ v, v < vpnup sz → leaf m'.ram t v = leaf m.ram t v) ∧
          ∀ v, vpnup sz ≤ v → v < vpnup newsz →
            pteFlags (leaf m'.ram t v) = PTE_R ||| PTE_U ||| xperm ||| PTE_V) ∨
        (r = 0 ∧ Built K S m₀ m' t tf sz ∧ leaf m'.ram t = leaf m.ram t))
      (fun _ _ => False) m := by
  have hg := h.space.table.good
  have hfree := hg.length_le
  have hsmall := h.vpnup_le
  have hup := UVPN_eq
  have hmax : MAXVA = 2 ^ 38 := rfl
  have hsz := h.size
  have hlow : upages (leaf m.ram t) 0 UVPN = upages (leaf m.ram t) 0 (vpnup sz) := by
    rw [upages_append _ (Nat.zero_le (vpnup sz)) (by omega : vpnup sz ≤ UVPN),
      upages_eq_zero _ fun v h1 h2 => h.leaf_zero h1 h2, add_zero]
  refine wp_mono (uvmalloc_spec h.space.table (by omega) hle hperm fun w h1 _ h3 => ?_)
    (fun r m' hr => ?_) fun _ _ he => he
  · have hw : w < UVPN := by omega
    exact ⟨by omega, h.leaf_zero h1 hw⟩
  rcases hr with ⟨rfl, hgrown⟩ | ⟨rfl, hkept⟩
  · have hne := fun v h1 h2 => (hgrown.entry v h1 h2).1
    have hlohi : vpnup sz ≤ (r + 4095) / 4096 := by
      rw [h.vpnup_eq]
      omega
    -- the pages below the old size and the new ones are all different pages of memory
    have hcard : (r + 4095) / 4096 ≤ 32768 := by
      have hsum := hgrown.table.good.length_add_card
      have hpages := card_pages (K := K)
      have hold : Multiset.card (upages (leaf m.ram t) 0 UVPN) = vpnup sz := by
        rw [hlow, card_upages fun v _ hv => (h.mapped v (by omega)).2 hv, Nat.sub_zero]
      rw [Multiset.card_add, Multiset.card_add, Multiset.card_add, card_upages hne, hold] at hsum
      omega
    have hsize : r ≤ 2 ^ 27 := by omega
    have hvp : vpnup r = (r + 4095) / 4096 := Xv6.vpnup_eq (hsize.trans (by decide))
    rw [← hvp] at hgrown hlohi hcard hne
    have hpages : upages (leaf m'.ram t) 0 UVPN =
        upages (leaf m'.ram t) (vpnup sz) (vpnup r) + upages (leaf m.ram t) 0 UVPN := by
      rw [upages_append _ (Nat.zero_le (vpnup sz)) (by omega : vpnup sz ≤ UVPN),
        upages_append _ hlohi (by omega : vpnup r ≤ UVPN), hlow,
        upages_congr fun v _ hv => hgrown.out v (.inl hv),
        upages_eq_zero _ fun v h1 h2 => (hgrown.out v (.inr h1)).trans (h.leaf_zero (by omega) h2),
        add_zero, add_comm]
    have htop : ∀ v, UVPN ≤ v → leaf m'.ram t v = leaf m.ram t v := fun v hv =>
      hgrown.out v (.inr (by omega))
    refine .inl ⟨rfl, ⟨⟨hgrown.table.of_eq (by rw [hpages, add_assoc]), ?_, ?_, fun v hv => ?_⟩,
      fun v hv => ?_, hsize, fun p hp => ?_⟩, fun v hv => hgrown.out v (.inl hv), fun v h1 h2 =>
      (hgrown.entry v h1 h2).2.1⟩
    · rw [htop _ (Nat.le_succ _), h.space.trampoline]
    · rw [htop _ (Nat.le_refl _), h.space.trapframe]
    · rw [htop v (by omega), h.space.high v hv]
    · by_cases hlo : v < vpnup sz
      · rw [hgrown.out v (.inl hlo), h.mapped v hv]
        omega
      · by_cases hhi : v < vpnup r
        · exact ⟨fun _ => hhi, fun _ => hne v (by omega) hhi⟩
        · rw [hgrown.out v (.inr (by omega)), h.mapped v hv]
          omega
    · rw [hgrown.keeps p (Multiset.mem_add.2 (.inr hp)), h.keeps p hp]
  · refine .inr ⟨rfl, ⟨⟨by rw [hkept.leaf]; exact hkept.table, ?_, ?_, ?_⟩, ?_, h.size,
      fun p hp => ?_⟩, hkept.leaf⟩
    · rw [hkept.leaf, h.space.trampoline]
    · rw [hkept.leaf, h.space.trapframe]
    · rw [hkept.leaf]
      exact h.space.high
    · rw [hkept.leaf]
      exact h.mapped
    · rw [hkept.keeps p (Multiset.mem_add.2 (.inr hp)), h.keeps p hp]

/-- Writing user pages maps nothing. -/
theorem Built.wrote (h : Built K S m₀ m t tf sz) (hw : UserWrote K S m m' t tf) :
    Built K S m₀ m' t tf sz where
  space := hw.space
  mapped := by
    rw [hw.leaf]
    exact h.mapped
  size := h.size
  keeps p hp := (hw.keeps p hp).trans (h.keeps p hp)

/-! ## The segments -/

/-- While the program is loaded, every page that is mapped is the user's. -/
structure Loading (K : Image) (S : Multiset Nat) (m₀ m : Mem) (t tf sz : Nat) : Prop
    extends Built K S m₀ m t tf sz where
  user : ∀ v, v < vpnup sz → has (leaf m.ram t v) PTE_U

theorem Loading.wrote (h : Loading K S m₀ m t tf sz) (hw : UserWrote K S m m' t tf) :
    Loading K S m₀ m' t tf sz :=
  ⟨h.toBuilt.wrote hw, by rw [hw.leaf]; exact h.user⟩

theorem NewSpace.loading (h : NewSpace K S m m' t tf) : Loading K S m m' t tf 0 :=
  ⟨h.built, fun v hv => absurd hv (Nat.not_lt_zero v)⟩

/-- The loop of `loadseg` finds its pages. -/
theorem Loading.loadsegFrom {va : Nat} (ip : Exe) (offset n : Nat) : ∀ {k i : Nat} {m : Mem},
    Loading K S m₀ m t tf sz → (∀ j, j < k → va + i + j * PGSIZE < sz) →
    wp (loadsegFrom t va ip offset n k i) (fun _ m' => Loading K S m₀ m' t tf sz)
      (fun _ _ => False) m
  | 0, i, m, h, _ => by
    rw [Xv6.loadsegFrom, wp_pure]
    exact h
  | k + 1, i, m, h, hk => by
    have hlt : va + i < sz := by
      have hfirst := hk 0 (Nat.succ_pos k)
      omega
    have hsz := h.size
    have hmax : MAXVA = 2 ^ 38 := rfl
    have hpg : PGSIZE = 4096 := rfl
    have hv : (va + i) / PGSIZE < vpnup sz := by
      rw [h.vpnup_eq, hpg]
      omega
    have hu : (va + i) / PGSIZE < UVPN := by
      have hsmall := h.vpnup_le
      have hup := UVPN_eq
      omega
    have hne := (h.mapped _ hu).2 hv
    have hpage := h.space.page hu hne
    have haddr : addrOf (leaf m.ram t ((va + i) / PGSIZE)) =
        pte2pa (leaf m.ram t ((va + i) / PGSIZE)) := by
      rw [addrOf, (h.space.table.read _ hne).1, h.user _ hv]
      rfl
    have hpa : (if va + i ≥ MAXVA then 0 else addrOf (leaf m.ram t ((va + i) / PGSIZE))) =
        pte2pa (leaf m.ram t ((va + i) / PGSIZE)) := by
      rw [if_neg (by rw [hmax]; omega), haddr]
    rw [Xv6.loadsegFrom, wp_bind, wp_walkaddr, hpa, if_neg hpage.pos.ne']
    simp only [wp_bind]
    generalize (if n - i < PGSIZE then n - i else PGSIZE) = len
    refine wp_mono (h.space.writeBytes hu hne 0 _ _) (fun _ m₁ h₁ => ?_) fun _ _ he => he
    have hload := h.wrote h₁.1
    rw [wp_ite]
    split
    · exact (wp_pure _).2 hload
    · refine Loading.loadsegFrom ip offset n hload fun j hj => ?_
      have hnext := hk (j + 1) (Nat.succ_lt_succ hj)
      rw [Nat.succ_mul] at hnext
      omega

/-- **`loadseg` never panics on a segment that lies below the size.** -/
theorem Loading.loadseg {va n : Nat} (h : Loading K S m₀ m t tf sz) (ip : Exe) (offset : Nat)
    (hle : va + n ≤ sz) :
    wp (loadseg t va ip offset n) (fun _ m' => Loading K S m₀ m' t tf sz) (fun _ _ => False) m := by
  refine h.loadsegFrom ip offset n fun j hj => ?_
  have hpg : PGSIZE = 4096 := rfl
  rw [hpg] at hj ⊢
  omega

theorem flags2perm_lt (flags : Nat) : PTE_R ||| PTE_U ||| flags2perm flags < 1024 := by
  rw [flags2perm]
  split <;> split <;> decide

theorem Loading.uvmalloc {xperm : Nat} (h : Loading K S m₀ m t tf sz)
    (hperm : PTE_R ||| PTE_U ||| xperm < 1024) :
    wp (uvmalloc K t sz newsz xperm)
      (fun r m' => (r = max sz newsz ∧ Loading K S m₀ m' t tf (max sz newsz)) ∨
        (r = 0 ∧ Loading K S m₀ m' t tf sz)) (fun _ _ => False) m := by
  rcases Nat.lt_or_ge newsz sz with hlt | hle
  · rw [Xv6.uvmalloc, if_pos hlt, wp_pure, max_eq_left hlt.le]
    exact .inl ⟨rfl, h⟩
  · rw [max_eq_right hle]
    refine wp_mono (h.toBuilt.uvmalloc hle hperm) (fun r m' hr => ?_) fun _ _ he => he
    rcases hr with ⟨rfl, hb, hold, hnew⟩ | ⟨rfl, hb, hleaf⟩
    · refine .inl ⟨rfl, hb, fun v hv => ?_⟩
      by_cases hlo : v < vpnup sz
      · rw [hold v hlo]
        exact h.user v hlo
      · rw [← has_pteFlags (by decide), hnew v (Nat.le_of_not_lt hlo) hv, has_or, has_or, has_or]
        rfl
    · refine .inr ⟨rfl, hb, ?_⟩
      rw [hleaf]
      exact h.user

/-- One segment: what follows begins with a program of the size that is returned. -/
theorem Loading.segment {xperm : Nat} {rest : Nat → Kern Mem (Bool × Nat)}
    {Q : Bool × Nat → Mem → Prop} {E : Halt → Mem → Prop} (h : Loading K S m₀ m t tf sz)
    (ip : Exe) (vaddr memsz filesz offset : Nat) (hperm : PTE_R ||| PTE_U ||| xperm < 1024) (hfile : filesz ≤ memsz)
    (hbad : ∀ sz m', Loading K S m₀ m' t tf sz → Q (false, sz) m')
    (hrest : ∀ sz m', Loading K S m₀ m' t tf sz → wp (rest sz) Q E m') :
    wp (do
      let sz1 ← Xv6.uvmalloc K t sz (vaddr + memsz) xperm
      if sz1 = 0 then
        return (false, sz)
      if (← Xv6.loadseg t vaddr ip offset (filesz % 2 ^ 32)) < 0 then
        return (false, sz1)
      rest sz1) Q E m := by
  refine wp_bind.2 (wp_mono (h.uvmalloc hperm) (fun sz1 m₁ h₁ => ?_) fun _ _ he => he.elim)
  rw [wp_ite]
  rcases h₁ with ⟨hsz, h₁⟩ | ⟨hsz, h₁⟩
  · rw [← hsz] at h₁
    have hmax : sz ≤ sz1 ∧ vaddr + memsz ≤ sz1 := by
      rw [hsz]
      exact ⟨le_max_left _ _, le_max_right _ _⟩
    split
    · next h0 =>
      -- the segment is empty, and so is the program before it
      have hnil : sz = sz1 := by omega
      rw [hnil]
      exact (wp_pure _).2 (hbad sz1 m₁ h₁)
    · have hle : vaddr + filesz % 2 ^ 32 ≤ sz1 := by
        have hmod := Nat.mod_le filesz (2 ^ 32)
        omega
      refine wp_bind.2 (wp_mono (h₁.loadseg ip offset hle) (fun r m₂ h₂ => ?_)
        fun _ _ he => he.elim)
      rw [wp_ite]
      split
      · exact (wp_pure _).2 (hbad sz1 m₂ h₂)
      · exact hrest sz1 m₂ h₂
  · rw [if_pos hsz]
    exact (wp_pure _).2 (hbad sz m₁ h₁)

/-- **The program headers may say what they will.** -/
theorem Loading.execSegments (ip : Exe) : ∀ {k off sz : Nat} {m : Mem},
    Loading K S m₀ m t tf sz →
    wp (execSegments K ip t k off sz) (fun r m' => Loading K S m₀ m' t tf r.2) (fun _ _ => False) m
  | 0, off, sz, m, h => by
    rw [Xv6.execSegments, wp_pure]
    exact h
  | k + 1, off, sz, m, h => by
    have hbad : wp (pure (false, sz) : Kern Mem (Bool × Nat))
        (fun r m' => Loading K S m₀ m' t tf r.2) (fun _ _ => False) m := (wp_pure _).2 h
    rw [Xv6.execSegments, wp_ite]
    generalize getLE ip.data (off + 16) 8 = vaddr
    generalize getLE ip.data (off + 32) 8 = filesz
    generalize getLE ip.data (off + 40) 8 = memsz
    split
    · exact hbad
    rw [wp_ite]
    split
    · exact Loading.execSegments ip h
    rw [wp_ite]
    split
    · exact hbad
    · next hfile =>
      rw [wp_ite]
      split
      · exact hbad
      rw [wp_ite]
      split
      · exact hbad
      exact h.segment ip vaddr memsz filesz _ (flags2perm_lt _) (Nat.le_of_not_lt hfile)
        (fun _ _ h' => h') fun _ _ h' => Loading.execSegments ip h'

/-! ## Giving it back -/

/-- **An address space that has been built can be freed**, and nothing else has changed. -/
theorem Built.free (h : Built K S m₀ m t tf sz) :
    wp (procFreepagetable K t sz) (fun _ m' => Good K m' S ∧ ∀ p ∈ S, m'.ram p = m₀.ram p)
      (fun _ _ => False) m := by
  refine wp_mono (procFreepagetable_spec h.space) (fun _ m' h' => ?_) fun e _ he => ?_
  · exact ⟨h'.2.2.1, fun p hp => (h'.2.2.2.1 p hp).trans (h.keeps p hp)⟩
  · have hsmall := h.vpnup_le
    rcases he with ⟨-, hlt⟩ | ⟨-, v, h1, h2, hne⟩
    · omega
    · exact hne (h.leaf_zero h1 h2)

end Xv6
