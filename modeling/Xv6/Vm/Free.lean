import Xv6.Vm.Unmap

/-!
# Freeing a page table

`freewalk` gives back the tables of a page table, and panics if an entry is left.  It returns
exactly if the tree is vacant, so a page table that has been freed held no user page any more.
-/

set_option autoImplicit false

namespace Xv6

variable {K : Image} {S : Multiset Nat} {m m' : Mem} {ram ram' : Nat → Bytes} {n t i v c : Nat}

/-! ### Entries below one entry of the root -/

/-- The virtual page below entry `i` of the root of a tree of height `n + 1` that is `v` in the
subtree. -/
def below (n i v : Nat) : Nat := i * 512 ^ (n + 1) + v % 512 ^ (n + 1)

theorem path_eq_mod_div (v k : Nat) : path v k = v % 512 ^ (k + 1) / 512 ^ k := by
  rw [path, Nat.pow_succ, Nat.mod_mul_right_div_self]

theorem path_below_le {k : Nat} (hk : k ≤ n) : path (below n i v) k = path v k := by
  have hdvd : 512 ^ (k + 1) ∣ 512 ^ (n + 1) := Nat.pow_dvd_pow 512 (by omega)
  obtain ⟨q, hq⟩ := hdvd
  rw [path_eq_mod_div, path_eq_mod_div, below, hq, Nat.mul_left_comm, Nat.mul_add_mod,
    Nat.mod_mul_right_mod]

theorem path_below_top (hi : i < 512) : path (below n i v) (n + 1) = i := by
  have hpos : 0 < 512 ^ (n + 1) := Nat.pow_pos (by decide)
  rw [path, below, Nat.mul_comm i, Nat.mul_add_div hpos, Nat.div_eq_of_lt (Nat.mod_lt _ hpos),
    Nat.add_zero, Nat.mod_eq_of_lt hi]

theorem leafAt_below (hi : i < 512) (hc : child (tbl ram t i) = some c) (v : Nat) :
    leafAt ram (n + 1) t (below n i v) = leafAt ram n c v := by
  rw [leafAt_succ (c := c) (by rw [path_below_top hi, hc]), leafAt, leafAt,
    Radix.slot_path_congr fun k hk => path_below_le hk]

/-- No entry is left. -/
def Vacant (ram : Nat → Bytes) (n t : Nat) : Prop := ∀ v, leafAt ram n t v = 0

/-- Every entry is 0 or grants at least read access. -/
def Readable (ram : Nat → Bytes) (n t : Nat) : Prop :=
  ∀ v, leafAt ram n t v ≠ 0 → has (leafAt ram n t v) PTE_V ∧ has (leafAt ram n t v) PTE_R

theorem vacant_succ : Vacant ram (n + 1) t ↔
    ∀ i, i < 512 → ∀ c, child (tbl ram t i) = some c → Vacant ram n c := by
  refine ⟨fun h i hi c hc v => ?_, fun h v => ?_⟩
  · rw [← leafAt_below hi hc]
    exact h _
  · cases hc : child (tbl ram t (path v (n + 1))) with
    | none => exact leafAt_none hc
    | some c =>
      rw [leafAt_succ hc]
      exact h _ (path_lt v _) c hc v

theorem Readable.child (h : Readable ram (n + 1) t) (hi : i < 512)
    (hc : child (tbl ram t i) = some c) : Readable ram n c := by
  intro v
  rw [← leafAt_below hi hc]
  exact h _

theorem Readable.congr (h : Readable ram n t) (hm : ∀ p ∈ nodes ram n t, ram' p = ram p) :
    Readable ram' n t := by
  intro v
  rw [leafAt_congr hm]
  exact h v

/-! ### The loop over a table -/

/-- The tables below the entries of `t` from `i` on. -/
def subtrees (ram : Nat → Bytes) (n t i : Nat) : Multiset Nat :=
  ∑ j ∈ Finset.Ico i 512, (child (tbl ram t j)).elim 0 (nodes ram n)

theorem nodes_eq_subtrees (ram : Nat → Bytes) (n t : Nat) :
    nodes ram (n + 1) t = {t} + subtrees ram n t 0 := by
  rw [subtrees, ← Finset.range_eq_Ico]
  exact Radix.nodes_succ _ n t

theorem subtrees_succ (hi : i < 512) : subtrees ram n t i =
    (child (tbl ram t i)).elim 0 (nodes ram n) + subtrees ram n t (i + 1) :=
  Finset.sum_eq_sum_Ico_succ_bot hi _

theorem subtrees_end : subtrees ram n t 512 = 0 := by
  rw [subtrees, Finset.Ico_self, Finset.sum_empty]

theorem mem_subtrees {j p : Nat} (hj : i ≤ j) (hlt : j < 512) (hc : child (tbl ram t j) = some c)
    (hp : p ∈ nodes ram n c) : p ∈ subtrees ram n t i := by
  refine Multiset.mem_sum.2 ⟨j, Finset.mem_Ico.2 ⟨hj, hlt⟩, ?_⟩
  rw [hc]
  exact hp

theorem subtrees_congr (ht : ∀ j, i ≤ j → j < 512 → tbl ram' t j = tbl ram t j)
    (hm : ∀ p ∈ subtrees ram n t i, ram' p = ram p) :
    subtrees ram' n t i = subtrees ram n t i := by
  refine Finset.sum_congr rfl fun j hj => ?_
  rw [Finset.mem_Ico] at hj
  rw [ht j hj.1 hj.2]
  cases hc : child (tbl ram t j) with
  | none => rw [Option.elim_none, Option.elim_none]
  | some c => exact nodes_congr fun p hp => hm p (mem_subtrees hj.1 hj.2 hc hp)

/-- What is left to do for `freewalk` in a table of height `n + 1`, from entry `i` on. -/
structure Pending (ram : Nat → Bytes) (n t i : Nat) : Prop where
  wf : ∀ j, i ≤ j → j < 512 → ∀ c, child (tbl ram t j) = some c →
    has (tbl ram t j) (PTE_R ||| PTE_W ||| PTE_X) = false ∧ Wf ram n c
  read : ∀ j, i ≤ j → j < 512 → ∀ c, child (tbl ram t j) = some c → Readable ram n c

theorem Pending.congr (h : Pending ram n t i)
    (ht : ∀ j, i ≤ j → j < 512 → tbl ram' t j = tbl ram t j)
    (hm : ∀ p ∈ subtrees ram n t i, ram' p = ram p) : Pending ram' n t i := by
  refine ⟨fun j hj hlt c hc => ?_, fun j hj hlt c hc => ?_⟩
  · rw [ht j hj hlt] at hc ⊢
    obtain ⟨h1, h2⟩ := h.wf j hj hlt c hc
    exact ⟨h1, wf_congr (fun p hp => hm p (mem_subtrees hj hlt hc hp)) h2⟩
  · rw [ht j hj hlt] at hc
    exact (h.read j hj hlt c hc).congr fun p hp => hm p (mem_subtrees hj hlt hc hp)

theorem Pending.succ (h : Pending ram n t i) : Pending ram n t (i + 1) :=
  ⟨fun j hj => h.wf j (Nat.le_of_succ_le hj), fun j hj => h.read j (Nat.le_of_succ_le hj)⟩

/-- Setting the entry for a freed subtree to 0 does not disturb the others. -/
theorem good_clear_entry (hg : Good K m ({t} + subtrees ram n t (i + 1) + S))
    (hm : ∀ p ∈ {t} + subtrees ram n t (i + 1) + S, m.ram p = ram p)
    (hp : Pending ram n t (i + 1)) :
    wp (setPte t i 0)
      (fun _ m' => Good K m' ({t} + subtrees m'.ram n t (i + 1) + S) ∧
        Pending m'.ram n t (i + 1) ∧ (∀ p ∈ S, m'.ram p = ram p) ∧ m'.failed = m.failed ∧
        (∀ j, i < j → j < 512 → tbl m'.ram t j = tbl ram t j) ∧
        ∀ p ∈ subtrees ram n t (i + 1), m'.ram p = ram p)
      (fun _ _ => False) m := by
  rw [setPte, wp_modify]
  have ht : m.ram t = ram t := hm t (by simp)
  have htS : t ∉ subtrees ram n t (i + 1) + S := by
    rw [add_assoc] at hg
    exact hg.disjoint (Multiset.mem_singleton_self t)
  have hkeep : ∀ p ∈ subtrees ram n t (i + 1) + S,
      Function.update m.ram t (setLE (m.ram t) (8 * i) 8 0) p = ram p := by
    intro p hpS
    rw [update_of_not_mem m.ram _ htS p hpS, hm p (by rw [add_assoc]; exact Multiset.mem_add.2 (Or.inr hpS))]
  have htbl : ∀ j, i + 1 ≤ j → j < 512 →
      tbl (Function.update m.ram t (setLE (m.ram t) (8 * i) 8 0)) t j = tbl ram t j := by
    intro j hj _
    rw [tbl_setPte_of_ne _ _ _ (by omega), tbl_congr ht]
  have hsub := fun p hpS => hkeep p (Multiset.mem_add.2 (Or.inl hpS))
  refine ⟨hg.congr rfl rfl (by rw [subtrees_congr htbl hsub]), hp.congr htbl hsub,
    fun p hpS => hkeep p (Multiset.mem_add.2 (Or.inr hpS)), rfl, fun j hj => htbl j hj, hsub⟩

/-- What `freewalk` does to a tree of height `n`. -/
def FreewalkOk (K : Image) (n : Nat) : Prop := ∀ (t : Nat) (m : Mem) (S : Multiset Nat),
  Good K m (nodes m.ram n t + S) → Wf m.ram n t → Readable m.ram n t →
  wp (freewalk K (n + 1) t)
    (fun _ m' => Vacant m.ram n t ∧ Good K m' S ∧ (∀ p ∈ S, m'.ram p = m.ram p) ∧
      m'.failed = m.failed)
    (fun e _ => e = .panic "freewalk: leaf" ∧ ¬ Vacant m.ram n t) m

/-- The loop over an inner table frees the subtrees. -/
theorem freewalkFrom_spec (hsub : FreewalkOk K n) : ∀ {k i : Nat} {m : Mem}, i + k = 512 →
    Good K m ({t} + subtrees m.ram n t i + S) → Pending m.ram n t i →
    wp (freewalkFrom (freewalk K (n + 1)) t k i)
      (fun _ m' => (∀ j, i ≤ j → j < 512 → ∀ c, child (tbl m.ram t j) = some c → Vacant m.ram n c) ∧
        Good K m' ({t} + S) ∧ (∀ p ∈ S, m'.ram p = m.ram p) ∧ m'.failed = m.failed)
      (fun e _ => e = .panic "freewalk: leaf" ∧
        ¬ ∀ j, i ≤ j → j < 512 → ∀ c, child (tbl m.ram t j) = some c → Vacant m.ram n c) m
  | 0, i, m, hik, hg, hp => by
    rw [freewalkFrom, wp_pure]
    obtain rfl : i = 512 := hik
    rw [subtrees_end, add_zero] at hg
    exact ⟨fun j hj hlt => by omega, hg, fun _ _ => rfl, rfl⟩
  | k + 1, i, m, hik, hg, hp => by
    have hi : i < 512 := by omega
    rw [freewalkFrom]
    simp only [wp_bind, wp_get, Mem.pte_eq]
    cases hc : child (tbl m.ram t i) with
    | none =>
      have hV : has (tbl m.ram t i) PTE_V = false := by
        by_contra hV
        rw [child, if_pos (by simpa using hV)] at hc
        cases hc
      rw [subtrees_succ hi, hc, Option.elim_none, zero_add] at hg
      simp only [hV, Bool.false_and, Bool.false_eq_true, if_false]
      refine wp_mono (freewalkFrom_spec hsub (by omega) hg hp.succ) (fun _ m' h => ?_)
        fun e _ he => ⟨he.1, fun h => he.2 fun j hj => h j (by omega)⟩
      refine ⟨fun j hj hlt c hcj => ?_, h.2⟩
      rcases Nat.lt_or_eq_of_le hj with hlt' | rfl
      · exact h.1 j hlt' hlt c hcj
      · rw [hc] at hcj
        cases hcj
    | some c =>
      obtain ⟨hV, hpa⟩ := child_eq_some.1 hc
      obtain ⟨hX, hw⟩ := hp.wf i (Nat.le_refl i) hi c hc
      have hg' : Good K m (nodes m.ram n c + ({t} + subtrees m.ram n t (i + 1) + S)) := by
        rw [subtrees_succ hi, hc, Option.elim_some] at hg
        refine hg.congr rfl rfl ?_
        abel
      simp only [hV, hX, Bool.not_false, Bool.and_self, if_true, hpa, wp_bind]
      refine wp_mono (hsub c m _ hg' hw (hp.read i (Nat.le_refl i) hi c hc)) (fun _ m₁ h₁ => ?_)
        fun e _ he => ⟨he.1, fun h => he.2 (h i (Nat.le_refl i) hi c hc)⟩
      obtain ⟨hvac, hg₁, hk₁, hf₁⟩ := h₁
      refine wp_mono (good_clear_entry hg₁ hk₁ hp.succ) (fun _ m₂ h₂ => ?_) fun _ _ he => he.elim
      obtain ⟨hg₂, hp₂, hk₂, hf₂, htbl, hsubm⟩ := h₂
      have hback : ∀ j, i + 1 ≤ j → j < 512 → ∀ d, child (tbl m.ram t j) = some d →
          (Vacant m₂.ram n d ↔ Vacant m.ram n d) := fun j hj hlt d hd =>
        forall_congr' fun v => by rw [leafAt_congr fun p hpd => hsubm p (mem_subtrees hj hlt hd hpd)]
      refine wp_mono (freewalkFrom_spec hsub (by omega) hg₂ hp₂) (fun _ m' h => ?_)
        fun e _ he => ⟨he.1, fun h => he.2 fun j hj hlt d hd => ?_⟩
      · obtain ⟨hv', hg', hk', hf'⟩ := h
        refine ⟨fun j hj hlt d hd => ?_, hg', fun p hpS => (hk' p hpS).trans (hk₂ p hpS),
          hf'.trans (hf₂.trans hf₁)⟩
        rcases Nat.lt_or_eq_of_le hj with hlt' | rfl
        · exact (hback j hlt' hlt d hd).1 (hv' j hlt' hlt d (by rw [htbl j hlt' hlt, hd]))
        · rw [hc] at hd
          cases hd
          exact hvac
      · rw [htbl j hj hlt] at hd
        exact (hback j hj hlt d hd).2 (h j (by omega) hlt d hd)

theorem leafAt_zero (ram : Nat → Bytes) (t v : Nat) : leafAt ram 0 t v = tbl ram t (v % 512) := by
  rw [leafAt, Radix.slot, Option.elim_some, path, Nat.pow_zero, Nat.div_one]

theorem leafAt_zero_of_lt (ram : Nat → Bytes) (t : Nat) (hi : i < 512) :
    leafAt ram 0 t i = tbl ram t i := by
  rw [leafAt_zero, Nat.mod_eq_of_lt hi]

/-- The loop over a table at the bottom only looks for an entry that is left. -/
theorem freewalkFrom_bottom {sub : Nat → Kern Mem Unit} (hr : Readable m.ram 0 t) :
    ∀ {k i : Nat}, i + k = 512 →
    wp (freewalkFrom sub t k i) (fun _ m' => (∀ j, i ≤ j → j < 512 → tbl m.ram t j = 0) ∧ m' = m)
      (fun e _ => e = .panic "freewalk: leaf" ∧ ¬ ∀ j, i ≤ j → j < 512 → tbl m.ram t j = 0) m
  | 0, i, hik => by
    rw [freewalkFrom, wp_pure]
    exact ⟨fun j hj hlt => by omega, rfl⟩
  | k + 1, i, hik => by
    have hi : i < 512 := by omega
    rw [freewalkFrom]
    simp only [wp_bind, wp_get, Mem.pte_eq]
    by_cases h0 : tbl m.ram t i = 0
    · simp only [h0, has_zero, Bool.false_and, Bool.false_eq_true, if_false]
      refine wp_mono (freewalkFrom_bottom hr (by omega)) (fun _ m' h => ⟨fun j hj hlt => ?_, h.2⟩)
        fun e _ he => ⟨he.1, fun h => he.2 fun j hj => h j (by omega)⟩
      rcases Nat.lt_or_eq_of_le hj with hlt' | rfl
      · exact h.1 j hlt' hlt
      · exact h0
    · obtain ⟨hV, hR⟩ := hr i (by rwa [leafAt_zero_of_lt _ _ hi])
      rw [leafAt_zero_of_lt _ _ hi] at hV hR
      have hX : has (tbl m.ram t i) (PTE_R ||| PTE_W ||| PTE_X) = true :=
        has_or_left (has_or_left hR)
      simp only [hV, hX, Bool.not_true, Bool.and_false, Bool.false_eq_true, if_false, if_true,
        wp_panic]
      exact ⟨trivial, fun h => h0 (h i (Nat.le_refl i) hi)⟩

/-- **`freewalk` gives back the tables of a vacant tree, and panics on any other.** -/
theorem freewalk_spec : ∀ n, FreewalkOk K n
  | 0, t, m, S, hg, hw, hr => by
    rw [freewalk, wp_bind]
    refine wp_mono (freewalkFrom_bottom hr rfl) (fun _ m₁ h₁ => ?_)
      fun e _ he => ⟨he.1, fun h => he.2 fun j _ hlt => ?_⟩
    · obtain ⟨hz, rfl⟩ := h₁
      rw [show nodes m₁.ram 0 t = {t} from Radix.nodes_zero _ _] at hg
      refine wp_mono (kfree_spec hg) (fun _ m' h' => ?_) fun _ _ h => h.elim
      obtain ⟨hg', hram, -, hf⟩ := h'
      refine ⟨fun v => ?_, hg', ?_, hf⟩
      · rw [leafAt_zero]
        exact hz _ (Nat.zero_le _) (Nat.mod_lt _ (by decide))
      · rw [hram]
        exact update_of_not_mem _ _ (hg.disjoint (Multiset.mem_singleton_self t))
    · rw [← leafAt_zero_of_lt _ _ hlt]
      exact h j
  | n + 1, t, m, S, hg, hw, hr => by
    rw [freewalk, wp_bind]
    rw [nodes_eq_subtrees] at hg
    have hp : Pending m.ram n t 0 :=
      ⟨fun j _ hlt c hc => hw j hlt c hc, fun j _ hlt c hc => hr.child hlt hc⟩
    refine wp_mono (freewalkFrom_spec (freewalk_spec n) rfl hg hp) (fun _ m₁ h₁ => ?_)
      fun e _ he => ⟨he.1, fun h => he.2 fun j _ hlt c hc => vacant_succ.1 h j hlt c hc⟩
    obtain ⟨hvac, hg₁, hk₁, hf₁⟩ := h₁
    refine wp_mono (kfree_spec hg₁) (fun _ m' h' => ?_) fun _ _ h => h.elim
    obtain ⟨hg', hram, -, hf⟩ := h'
    refine ⟨vacant_succ.2 fun i hi c hc => hvac i (Nat.zero_le i) hi c hc, hg', fun p hpS => ?_,
      hf.trans hf₁⟩
    rw [hram, update_of_not_mem _ _ (hg₁.disjoint (Multiset.mem_singleton_self t)) p hpS, hk₁ p hpS]

/-! ### `uvmfree` -/

theorem leafAt_eq_leaf (ram : Nat → Bytes) (t v : Nat) :
    leafAt ram 2 t v = leaf ram t (v % 2 ^ 27) := by
  have hpath : ∀ k, k ≤ 2 → path v k = path (v % 2 ^ 27) k := by
    intro k hk
    have hdvd : 512 ^ (k + 1) ∣ 2 ^ 27 := Nat.pow_dvd_pow 512 (by omega : k + 1 ≤ 3)
    rw [path_eq_mod_div, path_eq_mod_div, Nat.mod_mod_of_dvd _ hdvd]
  rw [leaf, if_pos (Nat.mod_lt _ (by decide)), leafAt, leafAt, Radix.slot_path_congr hpath]

theorem vacant_iff : Vacant ram 2 t ↔ ∀ v, leaf ram t v = 0 := by
  refine ⟨fun h v => ?_, fun h v => ?_⟩
  · rw [leaf]
    split
    · exact h v
    · rfl
  · rw [leafAt_eq_leaf]
    exact h _

theorem Table.readable (h : Table K m t S) : Readable m.ram 2 t := by
  intro v
  rw [leafAt_eq_leaf]
  exact h.read _

/-- **`uvmfree` gives back a page table and the pages below `sz`, if nothing else is mapped.** -/
theorem uvmfree_spec (sz : Nat) (h : Table K m t (upages (leaf m.ram t) 0 (vpnup sz) + S)) :
    wp (uvmfree K t sz)
      (fun _ m' => vpnup sz ≤ 2 ^ 26 ∧ (∀ v, vpnup sz ≤ v → leaf m.ram t v = 0) ∧ Good K m' S ∧
        (∀ p ∈ S, m'.ram p = m.ram p) ∧ m'.failed = m.failed)
      (fun e _ => (e = .panic "walk" ∧ 2 ^ 26 < vpnup sz) ∨
        (e = .panic "freewalk: leaf" ∧ ∃ v, vpnup sz ≤ v ∧ leaf m.ram t v ≠ 0)) m := by
  -- what is left of `uvmfree` once the range below `sz` is unmapped
  have hwalk : ∀ m₁, vpnup sz ≤ 2 ^ 26 → Unmapped K S m m₁ t 0 (vpnup sz) →
      wp (freewalk K 3 t)
        (fun _ m' => vpnup sz ≤ 2 ^ 26 ∧ (∀ v, vpnup sz ≤ v → leaf m.ram t v = 0) ∧ Good K m' S ∧
          (∀ p ∈ S, m'.ram p = m.ram p) ∧ m'.failed = m.failed)
        (fun e _ => (e = .panic "walk" ∧ 2 ^ 26 < vpnup sz) ∨
          (e = .panic "freewalk: leaf" ∧ ∃ v, vpnup sz ≤ v ∧ leaf m.ram t v ≠ 0)) m₁ := by
    intro m₁ hle h₁
    have hvac : Vacant m₁.ram 2 t ↔ ∀ v, vpnup sz ≤ v → leaf m.ram t v = 0 := by
      rw [vacant_iff, h₁.leaf]
      refine forall_congr' fun v => ?_
      rw [unmapped]
      split
      · next hv => exact iff_of_true rfl fun hle => absurd hv.2 (Nat.not_lt.2 hle)
      · next hv => exact ⟨fun h0 _ => h0, fun h0 => h0 (by omega)⟩
    refine wp_mono (freewalk_spec 2 t m₁ S h₁.table.good h₁.table.wf h₁.table.readable)
      (fun _ m' h' => ?_) fun e _ he => Or.inr ⟨he.1, ?_⟩
    · obtain ⟨hv, hg, hk, hf⟩ := h'
      exact ⟨hle, hvac.1 hv, hg, fun p hp => (hk p hp).trans (h₁.keeps p hp), hf.trans h₁.failed⟩
    · have hne := he.2
      rw [hvac] at hne
      simpa using hne
  have hlt : vpnup sz < 2 ^ 52 := by
    rw [vpnup, pgroundup, PGSIZE]
    omega
  rw [uvmfree]
  split
  · next hsz =>
    have hun := uvmunmap_spec (v := 0) (k := vpnup sz) true (by omega)
      (h.of_eq (by rw [if_pos rfl, Nat.zero_add]))
    rw [Nat.zero_mul, Nat.zero_add] at hun
    rw [wp_bind]
    refine wp_mono hun (fun _ m₁ h₁ => hwalk m₁ (by omega) h₁.2) fun e _ he => Or.inl he
  · next hsz =>
    obtain rfl : sz = 0 := by omega
    exact hwalk m (by decide) (Unmapped.empty (h.of_eq (by
      rw [show vpnup 0 = 0 from rfl, upages_empty, zero_add])) 0)

end Xv6
