import Mathlib.Algebra.BigOperators.Intervals
import Xv6.Vm.Map

/-!
# Unmapping and freeing

`upages lf lo hi` are the physical pages that the virtual pages from `lo` up to `hi` are mapped
to.  `uvmunmap` gives them back and `freewalk` gives back the tables; together they return to the
free list exactly what the page table held.
-/

set_option autoImplicit false

namespace Xv6

variable {K : Image} {S : Multiset Nat} {m m' : Mem} {ram ram' : Nat → Bytes}
  {t v w k lo hi : Nat} {lf lf' : Nat → Nat}

/-! ### The physical pages of a range -/

/-- The physical page that an entry maps, if it maps one. -/
def upage (pte : Nat) : Multiset Nat := if pte = 0 then 0 else {pte2pa pte}

theorem upage_zero : upage 0 = 0 := rfl

theorem upage_of_ne {pte : Nat} (h : pte ≠ 0) : upage pte = {pte2pa pte} := if_neg h

/-- The physical pages that the virtual pages from `lo` up to `hi` are mapped to. -/
def upages (lf : Nat → Nat) (lo hi : Nat) : Multiset Nat := ∑ v ∈ Finset.Ico lo hi, upage (lf v)

theorem upages_congr (h : ∀ v, lo ≤ v → v < hi → lf' v = lf v) : upages lf' lo hi = upages lf lo hi :=
  Finset.sum_congr rfl fun v hv => by
    rw [Finset.mem_Ico] at hv
    rw [h v hv.1 hv.2]

theorem upages_empty (lf : Nat → Nat) (lo : Nat) : upages lf lo lo = 0 := by
  rw [upages, Finset.Ico_self, Finset.sum_empty]

theorem upages_succ (lf : Nat → Nat) (lo k : Nat) :
    upages lf lo (lo + (k + 1)) = upage (lf lo) + upages lf (lo + 1) (lo + 1 + k) := by
  rw [upages, upages, Finset.sum_eq_sum_Ico_succ_bot (by omega), Nat.add_right_comm]
  rfl

theorem upages_append (lf : Nat → Nat) {a b c : Nat} (h1 : a ≤ b) (h2 : b ≤ c) :
    upages lf a c = upages lf a b + upages lf b c :=
  (Finset.sum_Ico_consecutive _ h1 h2).symm

theorem mem_upages {p : Nat} :
    p ∈ upages lf lo hi ↔ ∃ v, lo ≤ v ∧ v < hi ∧ lf v ≠ 0 ∧ pte2pa (lf v) = p := by
  rw [upages, Multiset.mem_sum]
  refine exists_congr fun v => ?_
  rw [Finset.mem_Ico, upage, and_assoc]
  refine and_congr_right fun _ => and_congr_right fun _ => ?_
  split
  · next h => simp [h]
  · next h => simp [h, eq_comm]

/-- Setting the entry of one page of a range. -/
theorem upages_update (lf : Nat → Nat) {x : Nat} (h1 : lo ≤ v) (h2 : v < hi) :
    upages (Function.update lf v x) lo hi + upage (lf v) = upages lf lo hi + upage x := by
  have hv : v ∈ Finset.Ico lo hi := Finset.mem_Ico.2 ⟨h1, h2⟩
  rw [upages, upages, ← Finset.add_sum_erase _ _ hv, ← Finset.add_sum_erase _ (fun v => upage (lf v)) hv,
    Function.update_self, Finset.sum_congr rfl fun w hw => by
      rw [Function.update_of_ne (Finset.ne_of_mem_erase hw)]]
  abel

theorem upages_update_out (lf : Nat → Nat) (x : Nat) (h : v < lo ∨ hi ≤ v) :
    upages (Function.update lf v x) lo hi = upages lf lo hi :=
  upages_congr fun w _ _ => Function.update_of_ne (by omega) _ _

/-- The entries with those from `lo` up to `hi` removed. -/
def unmapped (lf : Nat → Nat) (lo hi : Nat) (v : Nat) : Nat := if lo ≤ v ∧ v < hi then 0 else lf v

theorem unmapped_empty (lf : Nat → Nat) (lo : Nat) : unmapped lf lo lo = lf := by
  funext v
  rw [unmapped, if_neg (by omega)]

theorem unmapped_one (lf : Nat → Nat) (v : Nat) :
    unmapped lf v (v + 1) = Function.update lf v 0 := by
  funext w
  rw [unmapped]
  by_cases hw : w = v
  · rw [hw, if_pos (by omega), Function.update_self]
  · rw [if_neg (by omega), Function.update_of_ne hw]

theorem unmapped_of_zero (h : lf v = 0) : unmapped lf v (v + 1) = lf := by
  rw [unmapped_one, ← h, Function.update_eq_self]

theorem unmapped_succ (lf : Nat → Nat) (lo k : Nat) :
    unmapped (unmapped lf lo (lo + 1)) (lo + 1) (lo + 1 + k) = unmapped lf lo (lo + (k + 1)) := by
  funext v
  rw [unmapped_one, unmapped, unmapped]
  by_cases hv : v = lo
  · rw [hv, if_neg (by omega), if_pos (by omega), Function.update_self]
  · rw [Function.update_of_ne hv]
    exact if_congr (by omega) rfl rfl

/-! ### `uvmunmap` -/

/-- The outcome of unmapping the pages from `lo` up to `hi`. -/
structure Unmapped (K : Image) (S : Multiset Nat) (m m' : Mem) (t lo hi : Nat) : Prop where
  table : Table K m' t S
  keeps : ∀ p ∈ S, m'.ram p = m.ram p
  leaf : leaf m'.ram t = unmapped (Xv6.leaf m.ram t) lo hi
  nodes : nodes m'.ram 2 t = Xv6.nodes m.ram 2 t
  missing : ∀ w, missing m'.ram 2 t w = Xv6.missing m.ram 2 t w
  failed : m'.failed = m.failed
  frame : ∀ p, p ∉ Xv6.nodes m.ram 2 t → p ∉ upages (Xv6.leaf m.ram t) lo hi → m'.ram p = m.ram p

theorem Unmapped.empty (h : Table K m t S) (v : Nat) : Unmapped K S m m t v v :=
  ⟨h, fun _ _ => rfl, (unmapped_empty _ _).symm, rfl, fun _ => rfl, rfl, fun _ _ _ => rfl⟩

theorem Unmapped.hole (h : Table K m t S) (hv : Xv6.leaf m.ram t v = 0) :
    Unmapped K S m m t v (v + 1) :=
  ⟨h, fun _ _ => rfl, (unmapped_of_zero hv).symm, rfl, fun _ => rfl, rfl, fun _ _ _ => rfl⟩

theorem Unmapped.cons {S₁ : Multiset Nat} {m₁ : Mem} (h : Unmapped K S₁ m m₁ t v (v + 1))
    (hS : ∀ p ∈ S, p ∈ S₁) (h' : Unmapped K S m₁ m' t (v + 1) (v + 1 + k)) :
    Unmapped K S m m' t v (v + (k + 1)) := by
  refine ⟨h'.table, fun p hp => (h'.keeps p hp).trans (h.keeps p (hS p hp)),
    by rw [h'.leaf, h.leaf, unmapped_succ], h'.nodes.trans h.nodes,
    fun w => (h'.missing w).trans (h.missing w), h'.failed.trans h.failed, fun p hn hu => ?_⟩
  rw [upages_succ, Multiset.mem_add, not_or] at hu
  rw [h'.frame p (by rw [h.nodes]; exact hn), h.frame p hn]
  · rw [upages_succ _ _ 0, Multiset.mem_add, not_or, Nat.add_zero, upages_empty]
    exact ⟨hu.1, Multiset.notMem_zero p⟩
  · rw [h.leaf, unmapped_one, upages_update_out _ _ (Or.inl (Nat.lt_succ_self v))]
    exact hu.2

/-- An entry that can be read is not one that points to a table. -/
theorem pteFlags_ne_of_read {pte : Nat} (h : has pte PTE_R) : pteFlags pte ≠ PTE_V := by
  intro hf
  have h2 : pte &&& 2 = (pteFlags pte) &&& 2 := by rw [pteFlags, Nat.and_assoc]; rfl
  rw [hf] at h2
  rw [has, show PTE_R = 2 from rfl, h2] at h
  exact absurd h (by decide)

/-- Setting the entry of a page to 0. -/
theorem Unmapped.clear {p i : Nat} (h : Table K m t S) (hv : v < 2 ^ 27)
    (hsl : Radix.slot child (tbl m.ram) 2 t (path v) = some (p, i)) :
    wp (setPte p i 0) (fun _ m' => Unmapped K S m m' t v (v + 1)) (fun _ _ => False) m := by
  rw [setPte, wp_modify]
  obtain ⟨htab, hnodes, hkeeps, hleaf, hmiss⟩ := h.set_slot hv hsl (by decide)
    (fun h0 => absurd rfl h0) rfl
  refine ⟨htab, hkeeps, hleaf.trans (unmapped_one _ _).symm, hnodes, hmiss, rfl, fun q hq _ => ?_⟩
  have hne : q ≠ p := fun he => hq (he ▸ (Radix.slot_mem_nodes (path_lt v) hsl).1)
  exact Function.update_of_ne hne _ _

/-- Giving back the physical page of an entry, and then setting it to 0. -/
theorem Unmapped.free {p i : Nat} (h : Table K m t (upage (Xv6.leaf m.ram t v) + S))
    (hv : v < 2 ^ 27) (hne : Xv6.leaf m.ram t v ≠ 0)
    (hsl : Radix.slot child (tbl m.ram) 2 t (path v) = some (p, i)) :
    wp (do kfree K (pte2pa (Xv6.leaf m.ram t v)); setPte p i 0)
      (fun _ m' => Unmapped K S m m' t v (v + 1)) (fun _ _ => False) m := by
  have hg := h.good
  rw [upage_of_ne hne, add_left_comm] at hg
  rw [wp_bind]
  refine wp_mono (kfree_spec hg) (fun _ m₁ h₁ => ?_) fun _ _ he => he
  obtain ⟨hg₁, hram, -, hfailed⟩ := h₁
  have hpa : pte2pa (Xv6.leaf m.ram t v) ∉ Xv6.nodes m.ram 2 t + S :=
    hg.disjoint (Multiset.mem_singleton_self _)
  have hkeeps : ∀ q ∈ Xv6.nodes m.ram 2 t + S, m₁.ram q = m.ram q := by
    rw [hram]
    exact update_of_not_mem m.ram (fun _ => 1) hpa
  have hnodes := fun q hq => hkeeps q (Multiset.mem_add.2 (Or.inl hq))
  obtain ⟨htab₁, hleaf₁, hnodes₁, hmiss₁⟩ := h.congr hnodes hg₁
  have hsl₁ := (Radix.slot_congr (path_lt v) 2 t fun q hq => tbl_congr (hnodes q hq)).trans hsl
  refine wp_mono (Unmapped.clear htab₁ hv hsl₁) (fun _ m' h' => ?_) fun _ _ he => he
  refine ⟨h'.table, fun q hq => (h'.keeps q hq).trans (hkeeps q (Multiset.mem_add.2 (Or.inr hq))),
    h'.leaf.trans (by rw [hleaf₁]), h'.nodes.trans hnodes₁,
    fun w => (h'.missing w).trans (hmiss₁ w), h'.failed.trans hfailed, fun q hq hu => ?_⟩
  rw [h'.frame q (by rw [hnodes₁]; exact hq) (by rw [hleaf₁]; exact hu), hram]
  refine Function.update_of_ne (fun he => hu ?_) _ _
  exact mem_upages.2 ⟨v, Nat.le_refl v, Nat.lt_succ_self v, hne, he.symm⟩

/-- **`uvmunmap` removes the entries of a range and gives back the pages they map; it panics only
if the range leaves the address space.** -/
theorem uvmunmapFrom_spec {free : Bool} : ∀ {k v : Nat} {m : Mem},
    Table K m t ((if free then upages (leaf m.ram t) v (v + k) else 0) + S) →
    wp (uvmunmapFrom K t free k (v * PGSIZE))
      (fun _ m' => (0 < k → v + k ≤ 2 ^ 26) ∧ Unmapped K S m m' t v (v + k))
      (fun e _ => e = .panic "walk" ∧ 2 ^ 26 < v + k) m
  | 0, v, m, h => by
    rw [uvmunmapFrom, wp_pure]
    refine ⟨fun h0 => absurd h0 (Nat.lt_irrefl 0), Unmapped.empty (h.of_eq ?_) v⟩
    rw [Nat.add_zero, upages_empty, ite_self, zero_add]
  | k + 1, v, m, h => by
    have hnext : v * PGSIZE + PGSIZE = (v + 1) * PGSIZE := by rw [Nat.succ_mul]
    have hdiv : v * PGSIZE / PGSIZE = v := Nat.mul_div_cancel v (by decide)
    have hmax : MAXVA = 2 ^ 26 * PGSIZE := rfl
    have hsplit : (if free then upages (leaf m.ram t) v (v + (k + 1)) else 0) + S =
        (if free then upage (leaf m.ram t v) else 0) +
          ((if free then upages (leaf m.ram t) (v + 1) (v + 1 + k) else 0) + S) := by
      cases free
      · simp
      · simp only [if_true, upages_succ, add_assoc]
    rw [hsplit] at h
    rw [uvmunmapFrom]
    simp only [wp_bind, wp_walk_false, hdiv, hnext]
    split
    · next hge =>
      refine ⟨trivial, ?_⟩
      rw [hmax, ge_iff_le, Nat.mul_le_mul_right_iff (by decide)] at hge
      omega
    · next hlt =>
      have hv : v < 2 ^ 26 := by
        rw [hmax, ge_iff_le, Nat.mul_le_mul_right_iff (by decide)] at hlt
        omega
      -- what the rest of the loop does, once page `v` is unmapped
      have hrest : ∀ m₁ : Mem,
          Unmapped K ((if free then upages (leaf m.ram t) (v + 1) (v + 1 + k) else 0) + S) m m₁ t v
            (v + 1) →
          wp (uvmunmapFrom K t free k ((v + 1) * PGSIZE))
            (fun _ m' => (0 < k + 1 → v + (k + 1) ≤ 2 ^ 26) ∧ Unmapped K S m m' t v (v + (k + 1)))
            (fun e _ => e = .panic "walk" ∧ 2 ^ 26 < v + (k + 1)) m₁ := by
        intro m₁ h₁
        have hup : upages (leaf m₁.ram t) (v + 1) (v + 1 + k) =
            upages (leaf m.ram t) (v + 1) (v + 1 + k) := by
          rw [h₁.leaf, unmapped_one, upages_update_out _ _ (Or.inl (Nat.lt_succ_self v))]
        refine wp_mono (uvmunmapFrom_spec (h₁.table.of_eq (by rw [hup]))) (fun _ m' h' => ?_)
          fun e _ he => ⟨he.1, by omega⟩
        exact ⟨by omega, h₁.cons (fun p hp => Multiset.mem_add.2 (Or.inr hp)) h'.2⟩
      have hhole : leaf m.ram t v = 0 → wp (uvmunmapFrom K t free k ((v + 1) * PGSIZE))
            (fun _ m' => (0 < k + 1 → v + (k + 1) ≤ 2 ^ 26) ∧ Unmapped K S m m' t v (v + (k + 1)))
            (fun e _ => e = .panic "walk" ∧ 2 ^ 26 < v + (k + 1)) m := by
        intro h0
        refine hrest m (Unmapped.hole (h.of_eq ?_) h0)
        rw [h0, upage_zero, ite_self, zero_add]
      cases hs : Radix.slot child (tbl m.ram) 2 t (path v) with
      | none => exact hhole (leaf_of_no_slot hs)
      | some s =>
        have hleaf := leaf_of_slot (by omega) hs
        simp only [wp_bind, wp_get, Mem.pte_eq, ← hleaf]
        split
        · next hV =>
          refine hhole (by_contra fun hne => ?_)
          rw [h.valid_iff.2 hne] at hV
          exact absurd hV (by decide)
        · next hV =>
          have hne : leaf m.ram t v ≠ 0 := h.valid_iff.1 (by simpa using hV)
          rw [if_neg (pteFlags_ne_of_read (h.read v hne).2)]
          cases free with
          | false =>
            simp only [wp_bind, Bool.false_eq_true, if_false, zero_add] at h ⊢
            refine wp_mono (Unmapped.clear h (by omega) hs) (fun _ m₁ h₁ => ?_) fun _ _ h => h.elim
            exact hrest m₁ (by simpa using h₁)
          | true =>
            simp only [if_true] at h ⊢
            have hfree := Unmapped.free h (by omega) hne hs
            simp only [wp_bind] at hfree ⊢
            refine wp_mono hfree (fun _ m₁ h₁ => ?_) fun _ _ h => h.elim
            exact wp_mono h₁ (fun _ m₂ h₂ => hrest m₂ (by simpa using h₂)) fun _ _ h => h.elim

theorem uvmunmap_spec (free : Bool) (hk : v + k < 2 ^ 52)
    (h : Table K m t ((if free then upages (leaf m.ram t) v (v + k) else 0) + S)) :
    wp (uvmunmap K t (v * PGSIZE) k free)
      (fun _ m' => (0 < k → v + k ≤ 2 ^ 26) ∧ Unmapped K S m m' t v (v + k))
      (fun e _ => e = .panic "walk" ∧ 2 ^ 26 < v + k) m := by
  have hcount : ((v * PGSIZE + k * PGSIZE) % 2 ^ 64 - v * PGSIZE) / PGSIZE = k := by
    rw [PGSIZE]
    omega
  rw [uvmunmap, if_neg (by rw [Nat.mul_mod_left]; exact fun h => h rfl), hcount]
  exact uvmunmapFrom_spec h

/-- `PGROUNDUP(sz) / PGSIZE`: the number of pages of a process of `sz` bytes. -/
def vpnup (sz : Nat) : Nat := pgroundup sz / PGSIZE

theorem pgroundup_eq (sz : Nat) : pgroundup sz = vpnup sz * PGSIZE := by
  rw [vpnup, pgroundup, Nat.mul_div_cancel _ (by decide)]

theorem vpnup_eq {sz : Nat} (h : sz ≤ 2 ^ 63) : vpnup sz = (sz + 4095) / 4096 := by
  rw [vpnup, pgroundup, PGSIZE]
  omega

/-- `uvmdealloc` of a range that is not absurdly long (`npages` is an `int`). -/
theorem uvmdealloc_spec (oldsz newsz : Nat) (hlt : newsz < oldsz)
    (hlen : vpnup oldsz < vpnup newsz + 2 ^ 31)
    (h : Table K m t (upages (leaf m.ram t) (vpnup newsz) (max (vpnup newsz) (vpnup oldsz)) + S)) :
    wp (uvmdealloc K t oldsz newsz)
      (fun r m' => r = newsz ∧ (vpnup newsz < vpnup oldsz → vpnup oldsz ≤ 2 ^ 26) ∧
        Unmapped K S m m' t (vpnup newsz) (max (vpnup newsz) (vpnup oldsz)))
      (fun e _ => e = .panic "walk" ∧ 2 ^ 26 < vpnup oldsz ∧ vpnup newsz < vpnup oldsz) m := by
  rw [uvmdealloc, if_neg (by omega), pgroundup_eq, pgroundup_eq]
  simp only [Nat.mul_lt_mul_right (by decide : 0 < PGSIZE)]
  split
  · next hxy =>
    have hmax : max (vpnup newsz) (vpnup oldsz) = vpnup newsz + (vpnup oldsz - vpnup newsz) := by omega
    have hsmall : vpnup oldsz < 2 ^ 52 := by
      rw [vpnup, pgroundup, PGSIZE]
      omega
    have hn : ofInt64 (toInt32 ((vpnup oldsz * PGSIZE - vpnup newsz * PGSIZE) / PGSIZE)) =
        vpnup oldsz - vpnup newsz := by
      rw [← Nat.sub_mul, Nat.mul_div_cancel _ (by decide), ofInt64, toInt32, if_pos (by omega)]
      omega
    rw [hmax] at h ⊢
    simp only [wp_bind, wp_pure, hn]
    refine wp_mono (uvmunmap_spec true (by omega) h) (fun _ m' h' => ?_)
      fun e _ he => ⟨he.1, by omega, hxy⟩
    exact ⟨trivial, by omega, h'.2⟩
  · next hxy =>
    have hmax : max (vpnup newsz) (vpnup oldsz) = vpnup newsz := by omega
    rw [hmax, upages_empty, zero_add] at h
    rw [wp_pure, hmax]
    exact ⟨rfl, fun hlt => absurd hlt hxy, Unmapped.empty h _⟩

theorem uvmdealloc_of_le {oldsz newsz : Nat} {Q : Nat → Mem → Prop} {E : Halt → Mem → Prop}
    (hle : oldsz ≤ newsz) : wp (uvmdealloc K t oldsz newsz) Q E m ↔ Q oldsz m := by
  rw [uvmdealloc, if_pos hle, wp_pure]

theorem vpnup_mul (hv : v ≤ 2 ^ 26) : vpnup (v * PGSIZE) = v := by
  rw [PGSIZE, vpnup_eq (by omega)]
  omega

/-- `uvmdealloc` of whole pages, inside the address space. -/
theorem uvmdealloc_pages (hle : lo ≤ hi) (hhi : hi ≤ 2 ^ 26)
    (h : Table K m t (upages (leaf m.ram t) lo hi + S)) :
    wp (uvmdealloc K t (hi * PGSIZE) (lo * PGSIZE)) (fun _ m' => Unmapped K S m m' t lo hi)
      (fun _ _ => False) m := by
  have h1 := vpnup_mul (Nat.le_trans hle hhi)
  have h2 := vpnup_mul hhi
  rcases Nat.lt_or_eq_of_le hle with hlt | rfl
  · have hmax : max lo hi = hi := Nat.max_eq_right hle
    have hun := uvmdealloc_spec (K := K) (t := t) (S := S) (m := m) (hi * PGSIZE)
      (lo * PGSIZE) (by rw [PGSIZE]; omega) (by rw [h1, h2]; omega)
    rw [h1, h2, hmax] at hun
    exact wp_mono (hun h) (fun _ m' h' => h'.2.2) fun e _ he => by omega
  · rw [uvmdealloc_of_le (Nat.le_refl _)]
    exact Unmapped.empty (h.of_eq (by rw [upages_empty, zero_add])) lo

end Xv6
