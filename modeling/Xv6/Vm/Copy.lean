import Xv6.Vm.Alloc

/-!
# Copying an address space

`uvmcopy` copies the pages of one page table into another, page by page from 0 on.  It panics on
the first page that is not mapped, if memory lasts until then; `copyCost` is how much memory that
is.
-/

set_option autoImplicit false

namespace Xv6

variable {K : Image} {S : Multiset Nat} {m m₁ m' : Mem} {o t v w n : Nat}

/-- What `uvmcopy` maps: copies of the pages of the old table, with their flags. -/
def Copied (m : Mem) (o v pte : Nat) (b : Bytes) : Prop :=
  pteFlags pte = pteFlags (leaf m.ram o v) ∧
    ∀ j, j < PGSIZE → b j = m.ram (pte2pa (leaf m.ram o v)) j

/-- The pages and tables it takes to map the virtual pages below `v` into an empty table. -/
def copyCost (v : Nat) : Nat := v + (v + 511) / 512 + (if v = 0 then 0 else 1)

/-- How many tables are missing for `w` after the virtual pages below `v` have been mapped. -/
def copyMissing (v w : Nat) : Nat := if v = 0 then 2 else if w / 512 = (v - 1) / 512 then 0 else 1

theorem copyCost_succ (v : Nat) : copyCost (v + 1) = copyCost v + 1 + copyMissing v v := by
  rcases Nat.eq_zero_or_pos v with rfl | hv
  · rfl
  · rw [copyCost, copyCost, copyMissing, if_neg (by omega), if_neg (by omega), if_neg (by omega)]
    split <;> omega

theorem apart_small (hv : v < 2 ^ 18) (hw : w < 2 ^ 18) :
    apart v w 2 = if w / 512 = v / 512 then 0 else 1 := by
  have h2 : path w 2 = path v 2 := by
    rw [path, path]
    omega
  have h1 : path w 1 = path v 1 ↔ w / 512 = v / 512 := by
    rw [path, path]
    omega
  rw [apart, if_pos h2, apart]
  exact if_congr h1 (by rw [apart]) rfl

theorem copyMissing_succ (hv : v < 2 ^ 18) (hvw : v < w) (hw : w < 2 ^ 18) :
    min (copyMissing v w) (apart v w 2) = copyMissing (v + 1) w := by
  rw [apart_small hv hw, copyMissing, copyMissing, if_neg (Nat.succ_ne_zero v), Nat.add_sub_cancel]
  split_ifs <;> omega

/-- The state of `uvmcopy` after the virtual pages below `v`. -/
structure Copying (K : Image) (S : Multiset Nat) (m m₁ : Mem) (o t v : Nat) : Prop where
  grown : Grown K (Copied m o) S m m₁ t 0 v
  missing : ∀ w, v ≤ w → w < 2 ^ 18 → missing m₁.ram 2 t w = copyMissing v w
  cost : m₁.freelist.length + copyCost v = m.freelist.length
  full : ∀ w, w < v → leaf m.ram o w ≠ 0

theorem Copying.lt (h : Copying K S m m₁ o t v) (hg : m.freelist.length ≤ 32768) : v < 2 ^ 18 := by
  have hcost := h.cost
  rw [copyCost] at hcost
  omega

/-- The new table is empty below the trapframe, the old one is apart from it. -/
structure CopyPre (K : Image) (S : Multiset Nat) (m : Mem) (o t : Nat) : Prop where
  table : Table K m t S
  empty : ∀ w, w < 2 ^ 18 → leaf m.ram t w = 0
  missing : ∀ w, w < 2 ^ 18 → missing m.ram 2 t w = 2
  tables : ∀ p ∈ nodes m.ram 2 o, p ∈ S
  pages : ∀ w, w < 2 ^ 18 → leaf m.ram o w ≠ 0 → pte2pa (leaf m.ram o w) ∈ S
  read : ∀ w, leaf m.ram o w ≠ 0 → has (leaf m.ram o w) PTE_V ∧ has (leaf m.ram o w) PTE_R

theorem CopyPre.start (h : CopyPre K S m o t) : Copying K S m m o t 0 :=
  ⟨Grown.empty h.table 0, fun w _ hw => h.missing w hw, rfl, fun w hw => absurd hw (Nat.not_lt_zero w)⟩

/-- The old table does not change. -/
theorem CopyPre.leaf_old (h : CopyPre K S m o t) (hk : ∀ p ∈ S, m₁.ram p = m.ram p) :
    leaf m₁.ram o = leaf m.ram o :=
  leaf_congr fun p hp => hk p (h.tables p hp)

/-- How `uvmcopy` ends. -/
def CopyEnd (K : Image) (S : Multiset Nat) (m : Mem) (o t n : Nat) (r : Int) (m' : Mem) : Prop :=
  (r = 0 ∧ Copying K S m m' o t n) ∨
  (r = -1 ∧ Kept K S m m' t ∧
    ∃ i, i < n ∧ (∀ w, w ≤ i → leaf m.ram o w ≠ 0) ∧ m.freelist.length < copyCost (i + 1))

/-- Why `uvmcopy` panics: it got to a page that is not mapped. -/
def CopyPanic (m : Mem) (o n : Nat) (e : Halt) : Prop :=
  (e = .panic "uvmcopy: pte should exist" ∨ e = .panic "uvmcopy: page not present") ∧
    ∃ h, h < n ∧ leaf m.ram o h = 0 ∧ (∀ w, w < h → leaf m.ram o w ≠ 0) ∧
      copyCost h ≤ m.freelist.length

/-- Giving back the pages copied so far. -/
theorem Copying.rollback {m₂ : Mem} (hpre : CopyPre K S m o t) (h : Copying K S m m₁ o t v)
    (htab : Table K m₂ t (upages (leaf m₁.ram t) 0 v + S))
    (hk : ∀ p ∈ upages (leaf m₁.ram t) 0 v + S, m₂.ram p = m₁.ram p)
    (hl : leaf m₂.ram t = leaf m₁.ram t) (hf : m₂.failed = m₁.failed + 1) :
    wp (uvmunmap K t 0 v true) (fun _ m' => Kept K S m m' t) (fun _ _ => False) m₂ := by
  have hv := h.lt hpre.table.good.length_le
  have hun := uvmunmap_spec (K := K) (S := S) (m := m₂) (t := t) (v := 0) (k := v) true
    (by omega) (htab.of_eq (by rw [if_pos rfl, Nat.zero_add, hl]))
  rw [Nat.zero_mul, Nat.zero_add] at hun
  refine wp_mono hun (fun _ m' h' => ?_) fun e _ he => by omega
  exact h.grown.rollback (fun w _ hw => hpre.empty w (by omega)) hk hl hf h'.2

/-- One page is copied. -/
theorem Copying.snoc {m₂ m₃ : Mem} {r : Nat} {b : Bytes} {next : List Nat}
    (hpre : CopyPre K S m o t) (h : Copying K S m m₁ o t v) (hne : leaf m.ram o v ≠ 0)
    (hf : Fresh K (upages (leaf m₁.ram t) 0 v + S) m₁ m₂ t r b next)
    (hb : ∀ j, j < PGSIZE → b j = m.ram (pte2pa (leaf m.ram o v)) j)
    (hm : Mapped K ({r} + (upages (leaf m₁.ram t) 0 v + S)) m₂ m₃ t v
      (pa2pte r ||| pteFlags (leaf m.ram o v) ||| PTE_V) 0)
    (hlen : Xv6.missing m₂.ram 2 t v ≤ m₂.freelist.length) : Copying K S m m₃ o t (v + 1) := by
  have hv := h.lt hpre.table.good.length_le
  have hperm : pteFlags (leaf m.ram o v) < 1024 := Nat.and_lt_two_pow (n := 10) _ (by decide)
  obtain ⟨-, -, -, -, hmiss⟩ := hm.done hlen
  refine ⟨h.grown.snoc (Nat.zero_le v) hf hperm hm hlen ⟨?_, hb⟩, fun w hvw hw => ?_, ?_, ?_⟩
  · rw [pteFlags_entry hperm, pteFlags_or_valid (hpre.read v hne).1]
  · rw [hmiss w, hf.missing w, h.missing w (by omega) hw, copyMissing_succ hv (by omega) hw]
  · have hcost := h.cost
    rw [hf.missing v, h.missing v (Nat.le_refl v) hv, hf.freelist] at hlen
    rw [hf.taken, List.length_cons] at hcost
    rw [hm.freelist, hf.missing v, h.missing v (Nat.le_refl v) hv, hf.freelist, List.length_drop,
      copyCost_succ]
    omega
  · intro w hw
    rcases Nat.lt_or_eq_of_le (Nat.le_of_lt_succ hw) with hlt | rfl
    · exact h.full w hlt
    · exact hne

/-- The part of the loop of `uvmcopy` that copies one page, with the rest of the loop as `rest`. -/
theorem uvmcopyPage_spec {k : Nat} {rest : Kern Mem Int} (hpre : CopyPre K S m o t)
    (h : Copying K S m m₁ o t v) (hne : leaf m.ram o v ≠ 0)
    (hrest : ∀ m₂, Copying K S m m₂ o t (v + 1) →
      wp rest (fun r m' => CopyEnd K S m o t (v + (k + 1)) r m')
        (fun e _ => CopyPanic m o (v + (k + 1)) e) m₂) :
    wp (do
        let mem ← kalloc
        if mem = 0 then
          uvmunmap K t 0 v true
          return -1
        let m₂ ← get
        writeBytes mem 0 (m₂.ram (pte2pa (leaf m.ram o v))) PGSIZE
        if (← mappages t (v * PGSIZE) PGSIZE mem (pteFlags (leaf m.ram o v))) ≠ 0 then
          kfree K mem
          uvmunmap K t 0 v true
          return -1
        rest)
      (fun r m' => CopyEnd K S m o t (v + (k + 1)) r m')
      (fun e _ => CopyPanic m o (v + (k + 1)) e) m₁ := by
  have hv := h.lt hpre.table.good.length_le
  have hcost := h.cost
  have hsucc := copyCost_succ v
  have hfull : ∀ w, w ≤ v → leaf m.ram o w ≠ 0 := fun w hw => by
    rcases Nat.lt_or_eq_of_le hw with hlt | rfl
    · exact h.full w hlt
    · exact hne
  have hperm : pteFlags (leaf m.ram o v) < 1024 := Nat.and_lt_two_pow (n := 10) _ (by decide)
  have hR : has (pteFlags (leaf m.ram o v)) PTE_R := by
    rw [has_pteFlags (by decide)]
    exact (hpre.read v hne).2
  simp only [wp_bind]
  refine wp_mono (kalloc_table h.grown.table) (fun r m₂ h₂ => ?_) fun _ _ he => he.elim
  rcases h₂ with ⟨rfl, hnil, htab, hram, hf⟩ | ⟨next, hr, hfresh⟩
  · rw [if_pos rfl]
    simp only [wp_bind, wp_pure]
    refine wp_mono (h.rollback hpre htab (fun _ _ => by rw [hram]) (by rw [hram]) hf)
      (fun _ m' h' => Or.inr ⟨rfl, h', v, by omega, hfull, ?_⟩) fun _ _ he => he.elim
    rw [hnil, List.length_nil] at hcost
    omega
  · rw [if_neg hr]
    simp only [wp_bind, wp_get]
    refine wp_mono (hfresh.writeBytes _) (fun _ m₃ h₃ => ?_) fun _ _ he => he.elim
    obtain ⟨b, hfill, hb⟩ := h₃
    have hsrc : m₂.ram (pte2pa (leaf m.ram o v)) = m.ram (pte2pa (leaf m.ram o v)) := by
      have hmem := hpre.pages v hv hne
      rw [hfresh.keeps _ (Multiset.mem_add.2 (Or.inr hmem)), h.grown.keeps _ hmem]
    have hmap := mappages_spec (v * PGSIZE) hfill.table (Nat.mul_mod_left _ _)
      (by rw [show MAXVA = 2 ^ 26 * 4096 from rfl, PGSIZE]; omega) hfresh.page.lt hperm hR
    rw [Nat.mul_div_cancel v (by decide), hfill.leaf, h.grown.out v (Or.inr (Nat.le_refl v)),
      hpre.empty v hv] at hmap
    refine wp_mono hmap (fun x m₄ h₄ => ?_) fun e _ he => absurd rfl he.2
    have hmiss : missing m₃.ram 2 t v = copyMissing v v :=
      (hfill.missing v).trans (h.missing v (Nat.le_refl v) hv)
    rcases Nat.lt_or_ge m₃.freelist.length (missing m₃.ram 2 t v) with hlen | hlen
    · obtain ⟨rfl, -, -⟩ := h₄.stuck hlen
      rw [if_pos (by decide)]
      simp only [wp_bind, wp_pure]
      refine wp_mono (h₄.undo hlen) (fun _ m₅ h₅ => ?_) fun _ _ he => he.elim
      obtain ⟨htab, hkeeps, hleaf, hf⟩ := h₅
      refine wp_mono (h.rollback hpre htab (fun p hp => (hkeeps p hp).trans (hfill.keeps p hp))
          (hleaf.trans hfill.leaf) (by rw [hf, hfill.failed]))
        (fun _ m' h' => Or.inr ⟨rfl, h', v, by omega, hfull, ?_⟩) fun _ _ he => he.elim
      rw [hmiss, hfill.freelist] at hlen
      rw [hfresh.taken, List.length_cons] at hcost
      omega
    · obtain ⟨rfl, -⟩ := h₄.done hlen
      rw [if_neg (by decide)]
      refine hrest m₄ (h.snoc hpre hne hfill (fun j hj => ?_) h₄ hlen)
      rw [hb j hj, hsrc]

/-- The loop of `uvmcopy`, after the virtual pages below `v`. -/
theorem uvmcopyFrom_spec (hpre : CopyPre K S m o t) : ∀ {k v : Nat} {m₁ : Mem},
    Copying K S m m₁ o t v →
    wp (uvmcopyFrom K o t k (v * PGSIZE)) (fun r m' => CopyEnd K S m o t (v + k) r m')
      (fun e _ => CopyPanic m o (v + k) e) m₁
  | 0, v, m₁, h => by
    rw [uvmcopyFrom, wp_pure]
    exact Or.inl ⟨rfl, h⟩
  | k + 1, v, m₁, h => by
    have hv := h.lt hpre.table.good.length_le
    have hdiv : v * PGSIZE / PGSIZE = v := Nat.mul_div_cancel v (by decide)
    have hnext : v * PGSIZE + PGSIZE = (v + 1) * PGSIZE := by rw [Nat.succ_mul]
    have hlt : ¬ v * PGSIZE ≥ MAXVA := by
      rw [show MAXVA = 2 ^ 26 * 4096 from rfl, PGSIZE]
      omega
    have hold := hpre.leaf_old h.grown.keeps
    have hhole : leaf m.ram o v = 0 → ∃ h, h < v + (k + 1) ∧ leaf m.ram o h = 0 ∧
        (∀ w, w < h → leaf m.ram o w ≠ 0) ∧ copyCost h ≤ m.freelist.length := fun h0 =>
      ⟨v, by omega, h0, h.full, by have := h.cost; omega⟩
    rw [uvmcopyFrom]
    simp only [wp_bind, wp_walk_false, hdiv, hnext, if_neg hlt]
    cases hs : Radix.slot child (tbl m₁.ram) 2 o (path v) with
    | none =>
      rw [wp_panic]
      exact ⟨Or.inl rfl, hhole (by rw [← hold, leaf_of_no_slot hs])⟩
    | some s =>
      have hleaf : tbl m₁.ram s.1 s.2 = leaf m.ram o v := by
        rw [← hold, leaf_of_slot (by omega) hs]
      simp only [wp_bind, wp_get, Mem.pte_eq, hleaf]
      split
      · next hV =>
        rw [wp_bind, wp_panic]
        refine ⟨Or.inr rfl, hhole (by_contra fun hne => ?_)⟩
        rw [(hpre.read v hne).1] at hV
        exact absurd hV (by decide)
      · next hV =>
        have hne : leaf m.ram o v ≠ 0 := by
          intro h0
          rw [h0, has_zero] at hV
          exact hV rfl
        refine uvmcopyPage_spec hpre h hne fun m₂ h₂ => ?_
        rw [show v + (k + 1) = v + 1 + k by omega]
        exact uvmcopyFrom_spec hpre h₂

/-- **`uvmcopy` copies every page below `sz`, or runs out of memory, or panics on the first page
that is not mapped.** -/
theorem uvmcopy_spec {sz : Nat} (hpre : CopyPre K S m o t) :
    wp (uvmcopy K o t sz) (fun r m' => CopyEnd K S m o t ((sz + 4095) / 4096) r m')
      (fun e _ => CopyPanic m o ((sz + 4095) / 4096) e) m := by
  have h := uvmcopyFrom_spec (k := (sz + 4095) / 4096) hpre hpre.start
  rw [Nat.zero_mul, Nat.zero_add] at h
  exact h

end Xv6
