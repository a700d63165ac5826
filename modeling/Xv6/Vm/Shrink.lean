import Xv6.Vm.Space

/-!
# Shrinking an address space

`uvmdealloc` on a page table with holes: pages that were never touched have no entry, and may not
even have a table.  It removes the entries of its range, gives each page they map back once, and
leaves the rest alone.
-/

set_option autoImplicit false

namespace Xv6

variable {K : Image} {S : Multiset Nat} {m m' : Mem} {t v oldsz newsz : Nat}

/-- The pages that `uvmdealloc` gives back. -/
def shrunk (lf : Nat → Nat) (oldsz newsz : Nat) : Multiset Nat :=
  if newsz < oldsz then upages lf (vpnup newsz) (vpnup oldsz) else 0

theorem vpnup_le_of_lt (h : pgroundup oldsz ≤ TRAPFRAME) : vpnup oldsz ≤ UVPN := by
  rw [vpnup, UVPN]
  exact Nat.div_le_div_right h

theorem upages_max (lf : Nat → Nat) (lo hi : Nat) :
    upages lf lo (max lo hi) = upages lf lo hi := by
  rcases Nat.le_total lo hi with hle | hle
  · rw [Nat.max_eq_right hle]
  · rw [Nat.max_eq_left hle, upages_empty, upages, Finset.Ico_eq_empty_of_le hle, Finset.sum_empty]

/-- The pages below `hi`, with those from `lo` on set apart. -/
theorem upages_split (lf : Nat → Nat) (lo hi : Nat) :
    upages lf 0 hi = upages lf lo (max lo hi) + upages lf 0 (min lo hi) := by
  rcases Nat.le_total lo hi with hle | hle
  · rw [Nat.max_eq_right hle, Nat.min_eq_left hle, add_comm]
    exact upages_append lf (Nat.zero_le lo) hle
  · rw [Nat.max_eq_left hle, Nat.min_eq_right hle, upages_empty, zero_add]

/-- What unmapping a range leaves of the free list. -/
theorem Unmapped.freelist {lo hi : Nat} (h : Table K m t (upages (Xv6.leaf m.ram t) lo hi + S))
    (hu : Unmapped K S m m' t lo hi) :
    (m'.freelist : Multiset Nat) = upages (Xv6.leaf m.ram t) lo hi + (m.freelist : Multiset Nat) := by
  have hsum := hu.table.good.sum.trans h.good.sum.symm
  rw [hu.nodes] at hsum
  refine add_right_cancel (b := Xv6.nodes m.ram 2 t + S) (hsum.trans ?_)
  abel

/-- **Shrinking is exact**, for a page table whose pages below `PGROUNDUP(oldsz)`, as many as
there are, are its own.  The result is the smaller size; the entries of the range are gone and no
others; the pages they mapped are on the free list, each of them once, in addition to what was
there; and no other page has changed but the tables. -/
theorem uvmdealloc_exact (oldsz newsz : Nat)
    (h : Table K m t (upages (leaf m.ram t) 0 (vpnup oldsz) + S))
    (hold : pgroundup oldsz ≤ TRAPFRAME) :
    ∃ m', uvmdealloc K t oldsz newsz m = .ok (if newsz < oldsz then newsz else oldsz) m' ∧
      (∀ v, leaf m'.ram t v = if newsz < oldsz ∧ pgroundup newsz ≤ v * PGSIZE ∧
        v * PGSIZE < pgroundup oldsz then 0 else leaf m.ram t v) ∧
      (m'.freelist : Multiset Nat) =
        shrunk (leaf m.ram t) oldsz newsz + (m.freelist : Multiset Nat) ∧
      m'.freelist.Nodup ∧
      (∀ p, p ∉ nodes m.ram 2 t → p ∉ shrunk (leaf m.ram t) oldsz newsz → m'.ram p = m.ram p) ∧
      ∀ v, v < vpnup oldsz → leaf m'.ram t v ≠ 0 →
        m'.ram (pte2pa (leaf m.ram t v)) = m.ram (pte2pa (leaf m.ram t v)) := by
  have hmax := vpnup_le_of_lt hold
  have huvpn : UVPN < 2 ^ 26 := by rw [UVPN_eq]; decide
  by_cases hlt : newsz < oldsz
  · rw [upages_split _ (vpnup newsz), add_assoc] at h
    have hspec := wp_mono (uvmdealloc_spec oldsz newsz hlt (by omega) h) (fun _ _ hq => hq)
      fun e _ he => (show False by omega)
    obtain ⟨r, m', hrun, hr, -, hu⟩ := hspec.exists_ok
    have hleaf : ∀ v, leaf m'.ram t v = if newsz < oldsz ∧ pgroundup newsz ≤ v * PGSIZE ∧
        v * PGSIZE < pgroundup oldsz then 0 else leaf m.ram t v := by
      intro v
      rw [hu.leaf, unmapped, pgroundup_eq, pgroundup_eq]
      refine if_congr ?_ rfl rfl
      rw [Nat.mul_le_mul_right_iff (by decide), Nat.mul_lt_mul_right (by decide)]
      omega
    refine ⟨m', by rw [if_pos hlt, hrun, hr], hleaf, ?_, ?_, fun p hn hp => ?_, fun v hv hne => ?_⟩
    · rw [hu.freelist h, upages_max, shrunk, if_pos hlt]
    · have hnd := pages_nodup (K := K)
      rw [← hu.table.good.sum] at hnd
      exact Multiset.coe_nodup.1 (Multiset.nodup_add.1 hnd).1
    · rw [shrunk, if_pos hlt, ← upages_max] at hp
      exact hu.frame p hn hp
    · -- the page is still mapped, so it is below the range
      have hlow : v < vpnup newsz := by
        by_contra hge
        rw [hu.leaf, unmapped, if_pos (by omega)] at hne
        exact hne rfl
      rw [hu.leaf, unmapped, if_neg (by omega)] at hne
      exact hu.keeps _ (Multiset.mem_add.2 (.inl (mem_upages.2
        ⟨v, Nat.zero_le v, by omega, hne, rfl⟩)))
  · have hspec : wp (uvmdealloc K t oldsz newsz) (fun r m' => r = oldsz ∧ m' = m)
        (fun _ _ => False) m := (uvmdealloc_of_le (not_lt.1 hlt)).2 ⟨rfl, rfl⟩
    obtain ⟨r, m', hrun, rfl, rfl⟩ := hspec.exists_ok
    refine ⟨m', by rw [if_neg hlt]; exact hrun, fun v => by rw [if_neg fun hc => hlt hc.1], ?_, ?_,
      fun _ _ _ => rfl, fun _ _ _ => rfl⟩
    · rw [shrunk, if_neg hlt, zero_add]
    · have hnd := pages_nodup (K := K)
      rw [← h.good.sum] at hnd
      exact Multiset.coe_nodup.1 (Multiset.nodup_add.1 hnd).1

/-- A page table that maps virtual page 1 and has a hole below it. -/
theorem exists_sparse : ∃ (m : Mem) (t : Nat),
    Table onePageKernel m t (upages (leaf m.ram t) 0 2 + 0) ∧
      leaf m.ram t 0 = 0 ∧ leaf m.ram t 1 ≠ 0 := by
  obtain ⟨m, hg, hlen⟩ := exists_booted
  obtain ⟨t, m₁, -, h₁⟩ := (uvmcreate_spec hg).exists_ok
  rcases h₁ with ⟨-, hnil, -⟩ | ⟨-, hc⟩
  · rw [hnil] at hlen
    exact absurd hlen (by decide)
  · have hlen₁ := congrArg List.length hc.freelist
    rw [List.length_cons, hlen] at hlen₁
    have hzero : leaf m₁.ram t (4096 / PGSIZE) = 0 := hc.empty _
    have hspec : wp (lazyAlloc onePageKernel t 4096) _ (fun _ _ => False) m₁ :=
      wp_mono (lazyAlloc_spec hc.table fun hne => absurd hzero hne) (fun _ _ hq => hq)
        fun e _ he => by
          rcases he.2 with ⟨-, hge⟩ | ⟨-, -, hne, -⟩
          · exact absurd hge (by decide)
          · exact hne hzero
    obtain ⟨r, m₂, -, h₂⟩ := hspec.exists_ok
    rcases h₂ with ⟨-, -, -, hne, -⟩ | ⟨-, hno, -⟩ | ⟨-, -, -, pa, hf⟩
    · exact absurd hzero hne
    · rw [hc.missing] at hno
      rcases hno with hnil | ⟨-, -, hlt⟩
      · rw [hnil] at hlen₁
        exact absurd hlen₁ (by decide)
      · omega
    · have hleaf0 : leaf m₂.ram t 0 = 0 := by
        rw [hf.leaf, Function.update_of_ne (by decide), hc.empty]
      have hleaf1 : leaf m₂.ram t 1 = pa2pte pa ||| (PTE_R ||| PTE_W ||| PTE_U) ||| PTE_V := by
        rw [hf.leaf]
        exact Function.update_self ..
      have hne : leaf m₂.ram t 1 ≠ 0 := by
        rw [hleaf1]
        exact entry_ne_zero _ _
      refine ⟨m₂, t, hf.table.of_eq ?_, hleaf0, hne⟩
      rw [upages_succ _ 0 1, upages_succ _ (0 + 1) 0, Nat.zero_add, Nat.add_zero, upages_empty, hleaf0,
        upage_zero, upage_of_ne hne, hleaf1, pte2pa_entry hf.page (by decide)]
      abel

/-- The page is given back, and the hole is passed over. -/
theorem uvmdealloc_exact_sparse : ∃ (m m' : Mem) (t : Nat), leaf m.ram t 1 ≠ 0 ∧
    uvmdealloc onePageKernel t 8000 1 m = .ok 1 m' ∧ leaf m'.ram t 1 = 0 ∧
    pte2pa (leaf m.ram t 1) ∈ m'.freelist := by
  obtain ⟨m, t, h, -, hne⟩ := exists_sparse
  obtain ⟨m', hrun, hleaf, hfree, -⟩ := uvmdealloc_exact 8000 1 h (by decide)
  refine ⟨m, m', t, hne, hrun, by rw [hleaf, if_pos (by decide)], Multiset.mem_coe.1 ?_⟩
  rw [hfree, shrunk, if_pos (by decide)]
  exact Multiset.mem_add.2 (.inl (mem_upages.2 ⟨1, by decide, by decide, hne, rfl⟩))

end Xv6
