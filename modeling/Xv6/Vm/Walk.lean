import Xv6.Vm.Vm

/-!
# What `walk` and `mappages` do to a page table

A page table is a radix tree of height 2 over physical memory.  `leaf ram t v` is the entry that
the table `t` has for the virtual page `v`, and `0` where an intermediate table is missing, which
is also what a table that has just been allocated holds; so `walk` with `alloc` changes the tables
of the tree and no entry, and `mappages` changes one entry.
-/

set_option autoImplicit false

namespace Xv6

/-- Memory, seen as page tables. -/
def tbl (ram : Nat → Bytes) (p i : Nat) : Nat := getLE (ram p) (8 * i) 8

/-- The table an entry points to. -/
def child (pte : Nat) : Option Nat := if has pte PTE_V then some (pte2pa pte) else none

/-- The tables of the tree of height `n` at `t`. -/
abbrev nodes (ram : Nat → Bytes) (n t : Nat) : Multiset Nat := Radix.nodes 512 child (tbl ram) n t

/-- The indices of the virtual page `v`. -/
def path (v k : Nat) : Nat := v / 512 ^ k % 512

/-- The entry for the virtual page `v` in the tree of height `n` at `t`. -/
def leafAt (ram : Nat → Bytes) (n t v : Nat) : Nat :=
  (Radix.slot child (tbl ram) n t (path v)).elim 0 fun s => tbl ram s.1 s.2

/-- The entry for the virtual page `v` in the page table `t`; there are `2 ^ 27` of them. -/
def leaf (ram : Nat → Bytes) (t v : Nat) : Nat := if v < 2 ^ 27 then leafAt ram 2 t v else 0

/-- Entries of the upper levels point to tables: they grant no access themselves. -/
abbrev Wf (ram : Nat → Bytes) (n t : Nat) : Prop :=
  Radix.Wf 512 child (fun pte => has pte (PTE_R ||| PTE_W ||| PTE_X) = false) (tbl ram) n t

section

variable {ram ram' : Nat → Bytes} {n t v w i p : Nat}

theorem path_lt (v : Nat) : Radix.Path 512 (path v) := fun _ => Nat.mod_lt _ (by decide)

theorem px_eq_path (k va : Nat) : px k va = path (va / PGSIZE) k := by
  have hmask : ∀ x : Nat, x &&& 0x1FF = x % 512 := fun x => Nat.and_two_pow_sub_one_eq_mod x 9
  have hpow : 2 ^ (12 + 9 * k) = 4096 * 512 ^ k := by rw [Nat.pow_add, Nat.pow_mul]
  rw [px, path, PGSIZE, hmask, Nat.shiftRight_eq_div_pow, hpow, Nat.div_div_eq_div_mul]

/-- A virtual page is its three indices. -/
theorem path_inj (hv : v < 2 ^ 27) (hw : w < 2 ^ 27) (h : ∀ k, k ≤ 2 → path v k = path w k) :
    v = w := by
  have h0 := h 0 (by decide)
  have h1 := h 1 (by decide)
  have h2 := h 2 (by decide)
  simp only [path] at h0 h1 h2
  omega

theorem child_eq_some {pte c : Nat} : child pte = some c ↔ has pte PTE_V = true ∧ pte2pa pte = c := by
  rw [child]
  split
  · next h => simp [h]
  · next h => simp [h]

theorem child_zero : child 0 = none := rfl

/-! ### Setting an entry -/

theorem tbl_congr (h : ram' p = ram p) : tbl ram' p = tbl ram p := by
  funext i
  rw [tbl, tbl, h]

theorem tbl_setPte_same (ram : Nat → Bytes) (p i : Nat) {x : Nat} (hx : x < 2 ^ 64) :
    tbl (Function.update ram p (setLE (ram p) (8 * i) 8 x)) p i = x := by
  rw [tbl, Function.update_self, getLE_setLE_same]
  exact Nat.mod_eq_of_lt hx

theorem tbl_setPte_of_ne (ram : Nat → Bytes) (p : Nat) {i j : Nat} (x : Nat) (h : j ≠ i) :
    tbl (Function.update ram p (setLE (ram p) (8 * i) 8 x)) p j = tbl ram p j := by
  rw [tbl, Function.update_self, getLE_setLE_disjoint _ _ (by omega), tbl]

/-- An entry of memory after another has been set. -/
theorem tbl_setPte (ram : Nat → Bytes) (p i : Nat) {x : Nat} (hx : x < 2 ^ 64) {q j : Nat} :
    tbl (Function.update ram p (setLE (ram p) (8 * i) 8 x)) q j =
      if q = p ∧ j = i then x else tbl ram q j := by
  by_cases hq : q = p
  · subst hq
    by_cases hj : j = i
    · rw [if_pos ⟨rfl, hj⟩, hj, tbl_setPte_same ram q i hx]
    · rw [if_neg fun h => hj h.2, tbl_setPte_of_ne ram q x hj]
  · rw [if_neg fun h => hq h.1, tbl_congr (Function.update_of_ne hq _ _)]

theorem setEntry_setPte (ram : Nat → Bytes) (p i x : Nat) :
    Radix.SetEntry (tbl ram) (tbl (Function.update ram p (setLE (ram p) (8 * i) 8 x))) p i :=
  ⟨fun _ h => tbl_setPte_of_ne ram p x h,
    fun _ h => tbl_congr (Function.update_of_ne h _ _)⟩

theorem tbl_zero (h : ram p = fun _ => 0) (i : Nat) : tbl ram p i = 0 := by
  rw [tbl, h, getLE_zero]

theorem Mem.pte_eq (m : Mem) (p i : Nat) : m.pte p i = tbl m.ram p i := by
  rw [Mem.pte, tbl]

-- From here on an entry is known only by what has been stored in it.
attribute [irreducible] tbl

/-! ### Frames -/

theorem nodes_congr (h : ∀ p ∈ nodes ram n t, ram' p = ram p) : nodes ram' n t = nodes ram n t :=
  Radix.nodes_congr n t fun p hp => tbl_congr (h p hp)

theorem wf_congr (h : ∀ p ∈ nodes ram n t, ram' p = ram p) (hw : Wf ram n t) : Wf ram' n t :=
  Radix.wf_congr n t (fun p hp => tbl_congr (h p hp)) hw

theorem leafAt_congr (h : ∀ p ∈ nodes ram n t, ram' p = ram p) (v : Nat) :
    leafAt ram' n t v = leafAt ram n t v := by
  rw [leafAt, leafAt, Radix.slot_congr (path_lt v) n t fun p hp => tbl_congr (h p hp)]
  cases hs : Radix.slot child (tbl ram) n t (path v) with
  | none => rw [Option.elim_none, Option.elim_none]
  | some s =>
    rw [Option.elim_some, Option.elim_some,
      tbl_congr (h s.1 (Radix.slot_mem_nodes (path_lt v) hs).1)]

theorem leaf_eq (h : ∀ v, leafAt ram' 2 t v = leafAt ram 2 t v) : leaf ram' t = leaf ram t := by
  funext v
  rw [leaf, leaf, h v]

theorem leaf_congr (h : ∀ p ∈ nodes ram 2 t, ram' p = ram p) : leaf ram' t = leaf ram t :=
  leaf_eq (leafAt_congr h)

/-! ### Entries below one entry of the root -/

theorem leafAt_succ {c : Nat} (hc : child (tbl ram t (path v (n + 1))) = some c) :
    leafAt ram (n + 1) t v = leafAt ram n c v := by
  rw [leafAt, leafAt, Radix.slot, hc, Option.bind_some]

theorem leafAt_none (hc : child (tbl ram t (path v (n + 1))) = none) :
    leafAt ram (n + 1) t v = 0 := by
  rw [leafAt, Radix.slot, hc, Option.bind_none, Option.elim_none]

/-- The entries that are not below entry `i` of the root do not see a change below it. -/
theorem leafAt_subtree {c : Nat} (hnd : (nodes ram (n + 1) t).Nodup) (hi : i < 512)
    (hc : child (tbl ram t i) = some c)
    (hm : ∀ p ∈ nodes ram (n + 1) t, p ∉ nodes ram n c → ram' p = ram p)
    (hv : path v (n + 1) ≠ i) : leafAt ram' (n + 1) t v = leafAt ram (n + 1) t v := by
  have hm' : ∀ p ∈ nodes ram (n + 1) t, p ∉ nodes ram n c → tbl ram' p = tbl ram p :=
    fun p hp hpc => tbl_congr (hm p hp hpc)
  obtain ⟨ht, hothers⟩ := Radix.erase_subtree hnd hi hc hm'
  rw [leafAt, leafAt, Radix.slot_subtree hnd hi hc hm' (path_lt v), if_neg hv]
  rw [Radix.slot]
  cases hd : child (tbl ram t (path v (n + 1))) with
  | none => rw [Option.bind_none, Option.elim_none, Option.elim_none]
  | some d =>
    rw [Option.bind_some]
    cases hs : Radix.slot child (tbl ram) n d (path v) with
    | none => rw [Option.elim_none, Option.elim_none]
    | some s =>
      rw [Option.elim_some, Option.elim_some,
        hothers _ (path_lt v _) hv d hd s.1 (Radix.slot_mem_nodes (path_lt v) hs).1]

/-- A table filled with zeroes has no entries below it. -/
theorem leafAt_fill (h : ∀ j, j < 512 → tbl ram t j = 0) (v : Nat) : leafAt ram n t v = 0 := by
  cases n with
  | zero => rw [leafAt, Radix.slot, Option.elim_some, h _ (path_lt v 0)]
  | succ k => exact leafAt_none (by rw [h _ (path_lt v _), child_zero])

/-- The entries that are not below entry `i` of the root do not see a table hung in there. -/
theorem leafAt_graft {c z : Nat} (hg : Radix.Graft 512 child (tbl ram) (tbl ram') t i c z)
    (hnd : (nodes ram (n + 1) t).Nodup) (hc : c ∉ nodes ram (n + 1) t)
    (hv : path v (n + 1) ≠ i) : leafAt ram' (n + 1) t v = leafAt ram (n + 1) t v := by
  rw [leafAt, leafAt, Radix.slot_graft hg hnd hc (path_lt v) hv, Radix.slot]
  cases hd : child (tbl ram t (path v (n + 1))) with
  | none => rw [Option.bind_none, Option.elim_none, Option.elim_none]
  | some d =>
    rw [Option.bind_some]
    cases hs : Radix.slot child (tbl ram) n d (path v) with
    | none => rw [Option.elim_none, Option.elim_none]
    | some s =>
      rw [Option.elim_some, Option.elim_some,
        hg.keeps hnd hc (path_lt v _) hd s.1 (Radix.slot_mem_nodes (path_lt v) hs).1]

/-! ### `walk` -/

/-- How many tables `walk` has to allocate on the way to the virtual page `v`. -/
def missing (ram : Nat → Bytes) : Nat → Nat → Nat → Nat
  | 0, _, _ => 0
  | n + 1, t, v => (child (tbl ram t (path v (n + 1)))).elim (n + 1) fun c => missing ram n c v

/-- The height of the highest table on the way to `w` that is not on the way to `v`, plus one. -/
def apart (v w : Nat) : Nat → Nat
  | 0 => 0
  | n + 1 => if path w (n + 1) = path v (n + 1) then apart v w n else n + 1

theorem apart_le (v w : Nat) : ∀ n, apart v w n ≤ n
  | 0 => Nat.le_refl 0
  | n + 1 => by
    rw [apart]
    split
    · exact Nat.le_succ_of_le (apart_le v w n)
    · exact Nat.le_refl _

theorem missing_le (ram : Nat → Bytes) (v : Nat) : ∀ n t, missing ram n t v ≤ n
  | 0, _ => Nat.le_refl 0
  | n + 1, t => by
    rw [missing]
    cases child (tbl ram t (path v (n + 1))) with
    | none => exact Nat.le_refl _
    | some c => exact Nat.le_succ_of_le (missing_le ram v n c)

theorem missing_succ {c : Nat} (hc : child (tbl ram t (path v (n + 1))) = some c) :
    missing ram (n + 1) t v = missing ram n c v := by
  rw [missing, hc, Option.elim_some]

theorem missing_none (hc : child (tbl ram t (path v (n + 1))) = none) :
    missing ram (n + 1) t v = n + 1 := by
  rw [missing, hc, Option.elim_none]

theorem missing_congr (v : Nat) : ∀ (n t : Nat), (∀ p ∈ nodes ram n t, tbl ram' p = tbl ram p) →
    missing ram' n t v = missing ram n t v
  | 0, _, _ => by rw [missing, missing]
  | n + 1, t, h => by
    rw [missing, missing, h t (Radix.root_mem_nodes _ _ _)]
    cases hc : child (tbl ram t (path v (n + 1))) with
    | none => rw [Option.elim_none, Option.elim_none]
    | some c =>
      exact missing_congr v n c fun p hp => h p (Radix.mem_nodes_child (path_lt v _) hc hp)

/-- A slot exists exactly where no table is missing. -/
theorem missing_eq_zero : ∀ {n t : Nat},
    missing ram n t v = 0 ↔ (Radix.slot child (tbl ram) n t (path v)).isSome
  | 0, t => by rw [missing, Radix.slot]; exact iff_of_true rfl rfl
  | n + 1, t => by
    rw [missing, Radix.slot]
    cases child (tbl ram t (path v (n + 1))) with
    | none => simp
    | some c => exact missing_eq_zero

/-- Where there is an entry other than 0, no table is missing. -/
theorem missing_of_leafAt (h : leafAt ram n t v ≠ 0) : missing ram n t v = 0 := by
  rw [missing_eq_zero]
  rw [leafAt] at h
  cases hs : Radix.slot child (tbl ram) n t (path v) with
  | none => rw [hs] at h; exact absurd rfl h
  | some s => rfl

/-- The outcome of `walk` with `alloc` in a tree of height `n`: it takes the missing tables off
the free list, as many as there are, and hangs them into the tree.  `S` is what the kernel holds
besides the tree. -/
structure Walked (K : Image) (S : Multiset Nat) (m m' : Mem) (n t v : Nat)
    (r : Option (Nat × Nat)) : Prop where
  good : Good K m' (nodes m'.ram n t + S)
  keeps : ∀ p ∈ S, m'.ram p = m.ram p
  wf : Wf m'.ram n t
  leaf : ∀ w, leafAt m'.ram n t w = leafAt m.ram n t w
  freelist : m'.freelist = m.freelist.drop (missing m.ram n t v)
  done : missing m.ram n t v ≤ m.freelist.length → m'.failed = m.failed ∧
    (∃ s, r = some s ∧ Radix.slot Xv6.child (tbl m'.ram) n t (path v) = some s) ∧
    ∀ w, missing m'.ram n t w = min (missing m.ram n t w) (apart v w n)
  stuck : m.freelist.length < missing m.ram n t v → m'.failed = m.failed + 1 ∧ r = none

variable {K : Image} {S R : Multiset Nat} {m m₁ m' : Mem} {r : Option (Nat × Nat)}

/-- `walk` in the subtree below an entry of the root is `walk` in the whole tree. -/
theorem Walked.child {c : Nat} (hg : Good K m (nodes m.ram (n + 1) t + S))
    (hw : Wf m.ram (n + 1) t) (hc : Xv6.child (tbl m.ram t (path v (n + 1))) = some c)
    (hR : nodes m.ram (n + 1) t = nodes m.ram n c + R) (h : Walked K (R + S) m m' n c v r) :
    Walked K S m m' (n + 1) t v r := by
  have hnd : (nodes m.ram (n + 1) t).Nodup := (Multiset.nodup_add.1 hg.nodup).1
  have hm : ∀ p ∈ nodes m.ram (n + 1) t, p ∉ nodes m.ram n c → m'.ram p = m.ram p := by
    intro p hp hpc
    rw [hR, Multiset.mem_add] at hp
    exact h.keeps p (Multiset.mem_add.2 (Or.inl (hp.resolve_left hpc)))
  have hm' : ∀ p ∈ nodes m.ram (n + 1) t, p ∉ nodes m.ram n c →
      tbl m'.ram p = tbl m.ram p := fun p hp hpc => tbl_congr (hm p hp hpc)
  obtain ⟨hroot, hothers⟩ := Radix.erase_subtree hnd (path_lt v _) hc hm'
  have hc' : Xv6.child (tbl m'.ram t (path v (n + 1))) = some c := by rw [hroot, hc]
  have hnodes : nodes m'.ram (n + 1) t = nodes m'.ram n c + R := by
    have hn : nodes m'.ram (n + 1) t + nodes m.ram n c =
        nodes m.ram (n + 1) t + nodes m'.ram n c :=
      Radix.nodes_subtree hnd (path_lt v _) hc hm'
    refine add_right_cancel (b := nodes m.ram n c) ?_
    rw [hn, hR]
    abel
  have hmiss := missing_succ hc
  refine ⟨?_, fun p hp => h.keeps p (Multiset.mem_add.2 (Or.inr hp)), ?_, fun w => ?_, ?_, ?_, ?_⟩
  · rw [hnodes, add_assoc]
    exact h.good
  · exact Radix.wf_subtree hnd (path_lt v _) hc hm' hw h.wf
  · by_cases hwv : path w (n + 1) = path v (n + 1)
    · have hcw : Xv6.child (tbl m.ram t (path w (n + 1))) = some c := by rw [hwv, hc]
      rw [leafAt_succ hcw, leafAt_succ (c := c) (by rw [hroot, hcw]), h.leaf w]
    · exact leafAt_subtree hnd (path_lt v _) hc hm hwv
  · rw [hmiss, h.freelist]
  · rw [hmiss]
    intro hle
    obtain ⟨hf, hs, hmw⟩ := h.done hle
    refine ⟨hf, ?_, fun w => ?_⟩
    · rw [Radix.slot, hc', Option.bind_some]
      exact hs
    · rw [apart]
      by_cases hwv : path w (n + 1) = path v (n + 1)
      · rw [if_pos hwv, missing_succ (c := c) (by rw [hwv, hc']),
          missing_succ (c := c) (by rw [hwv, hc]), hmw w]
      · rw [if_neg hwv, Nat.min_eq_left (missing_le _ _ _ _), missing, missing, hroot]
        cases hd : Xv6.child (tbl m.ram t (path w (n + 1))) with
        | none => rw [Option.elim_none, Option.elim_none]
        | some d => exact missing_congr w n d (hothers _ (path_lt w _) hwv d hd)
  · rw [hmiss]
    exact h.stuck

/-- Memory after `walk` has hung the zeroed page `c`, the first of the free list, into entry `i`
of the table `t`. -/
def Mem.hang (m : Mem) (t i c : Nat) (next : List Nat) : Mem :=
  { m with
    ram := Function.update (Function.update m.ram c fun _ => 0) t
      (setLE (Function.update m.ram c (fun _ => 0) t) (8 * i) 8 (pa2pte c ||| PTE_V))
    freelist := next
    freePages := next.length }

theorem hang_ram_of_ne {c p : Nat} (next : List Nat) (hpt : p ≠ t) :
    (m.hang t i c next).ram p = Function.update m.ram c (fun _ => 0) p :=
  Function.update_of_ne hpt _ _

theorem graft_hang {c : Nat} (next : List Nat) (hc : Page K c) (hct : c ≠ t) :
    Radix.Graft 512 child (tbl m.ram) (tbl (m.hang t i c next).ram) t i c 0 := by
  have hV : PTE_V < 1024 := by decide
  refine ⟨?_, fun j _ hj => ?_, fun j _ => ?_, fun p hpt hpc => ?_⟩
  · rw [Mem.hang, tbl_setPte_same _ _ _ (pte_lt hV hc.lt), child_eq_some, has_or, has_pa2pte hV]
    exact ⟨rfl, pte2pa_or hV hc.aligned⟩
  · rw [Mem.hang, tbl_setPte_of_ne _ _ _ hj, tbl_congr (Function.update_of_ne hct.symm _ _)]
  · refine tbl_zero ?_ j
    rw [hang_ram_of_ne next hct, Function.update_self]
  · refine tbl_congr ?_
    rw [hang_ram_of_ne next hpt, Function.update_of_ne hpc]

/-- Hanging in a table keeps what is known of the tree. -/
theorem good_hang {c : Nat} {next : List Nat} (hg : Good K m (nodes m.ram (n + 1) t + S))
    (hw : Wf m.ram (n + 1) t) (hnext : m.freelist = c :: next) (hi : i < 512)
    (hfree : child (tbl m.ram t i) = none) :
    c ∉ nodes m.ram (n + 1) t ∧
      Radix.Graft 512 child (tbl m.ram) (tbl (m.hang t i c next).ram) t i c 0 ∧
      Good K (m.hang t i c next) (nodes (m.hang t i c next).ram (n + 1) t + S) ∧
      Wf (m.hang t i c next).ram (n + 1) t ∧ ∀ p ∈ S, (m.hang t i c next).ram p = m.ram p := by
  have hV : PTE_V < 1024 := by decide
  have hmem : c ∈ m.freelist := by rw [hnext]; exact List.mem_cons_self
  have hc : Page K c := page_of_mem (hg.sum ▸ Multiset.mem_add.2 (Or.inl (Multiset.mem_coe.2 hmem)))
  have hnd : (nodes m.ram (n + 1) t).Nodup := (Multiset.nodup_add.1 hg.nodup).1
  have hcn : c ∉ nodes m.ram (n + 1) t := fun h => hg.not_mem (Multiset.mem_add.2 (Or.inl h)) hmem
  have hroot : t ∈ nodes m.ram (n + 1) t := Radix.root_mem_nodes _ _ _
  have hct : c ≠ t := fun h => hcn (h ▸ hroot)
  have hgr := graft_hang (m := m) (t := t) (i := i) next hc hct
  have hnodes : nodes (m.hang t i c next).ram (n + 1) t = nodes m.ram (n + 1) t + {c} :=
    Radix.nodes_graft child_zero hgr hi hfree hnd hcn
  refine ⟨hcn, hgr, ⟨?_, rfl⟩, ?_, fun p hp => ?_⟩
  · rw [hnodes, ← hg.sum, hnext, ← Multiset.cons_coe, ← Multiset.singleton_add, Mem.hang]
    abel
  · refine Radix.wf_graft child_zero hgr ?_ hnd hcn hw
    rw [Mem.hang, tbl_setPte_same _ _ _ (pte_lt hV hc.lt), has_or, has_pa2pte (by decide)]
    rfl
  · have hpc : p ≠ c := fun h => hg.not_mem (Multiset.mem_add.2 (Or.inr hp)) (h ▸ hmem)
    have hpt : p ≠ t := fun h => hg.disjoint hroot (h ▸ hp)
    rw [hang_ram_of_ne next hpt, Function.update_of_ne hpc]

/-- `walk` after a missing table has been hung in is `walk` before. -/
theorem Walked.graft {c : Nat} {next : List Nat} (hg : Good K m (nodes m.ram (n + 1) t + S))
    (hc : c ∉ nodes m.ram (n + 1) t)
    (hfree : Xv6.child (tbl m.ram t (path v (n + 1))) = none)
    (hgr : Radix.Graft 512 Xv6.child (tbl m.ram) (tbl m₁.ram) t (path v (n + 1)) c 0)
    (hkeeps : ∀ p ∈ S, m₁.ram p = m.ram p) (hnext : m.freelist = c :: next)
    (hnext₁ : m₁.freelist = next) (hfailed : m₁.failed = m.failed)
    (h : Walked K S m₁ m' (n + 1) t v r) : Walked K S m m' (n + 1) t v r := by
  have hnd : (nodes m.ram (n + 1) t).Nodup := (Multiset.nodup_add.1 hg.nodup).1
  have hzero : ∀ w, missing m₁.ram n c w = n := by
    intro w
    cases n with
    | zero => rfl
    | succ k => exact missing_none (by rw [hgr.fill _ (path_lt w _), child_zero])
  have hmiss := missing_none hfree
  have hmiss₁ : missing m₁.ram (n + 1) t v = n := by rw [missing_succ hgr.entry, hzero]
  have hothers : ∀ w, path w (n + 1) ≠ path v (n + 1) →
      missing m₁.ram (n + 1) t w = missing m.ram (n + 1) t w := by
    intro w hwv
    rw [missing, missing, hgr.others _ (path_lt w _) hwv]
    cases hd : Xv6.child (tbl m.ram t (path w (n + 1))) with
    | none => rw [Option.elim_none, Option.elim_none]
    | some d => exact missing_congr w n d (hgr.keeps hnd hc (path_lt w _) hd)
  refine ⟨h.good, fun p hp => ?_, h.wf, fun w => ?_, ?_, ?_, ?_⟩
  · rw [h.keeps p hp, hkeeps p hp]
  · rw [h.leaf w]
    by_cases hwv : path w (n + 1) = path v (n + 1)
    · rw [leafAt_succ (c := c) (by rw [hwv, hgr.entry]), leafAt_none (by rw [hwv, hfree])]
      exact leafAt_fill hgr.fill w
    · exact leafAt_graft hgr hnd hc hwv
  · rw [h.freelist, hmiss, hmiss₁, hnext, hnext₁, List.drop_succ_cons]
  · rw [hmiss, hnext, List.length_cons]
    intro hle
    have hdone := h.done
    rw [hmiss₁, hnext₁, hfailed] at hdone
    obtain ⟨hf, hs, hmw⟩ := hdone (Nat.le_of_succ_le_succ hle)
    refine ⟨hf, hs, fun w => ?_⟩
    rw [hmw w]
    by_cases hwv : path w (n + 1) = path v (n + 1)
    · rw [missing_succ (c := c) (by rw [hwv, hgr.entry]), hzero,
        missing_none (by rw [hwv, hfree]), apart, if_pos hwv]
      have hle := apart_le v w n
      omega
    · rw [hothers w hwv]
  · have hstuck := h.stuck
    rw [hmiss₁, hnext₁, hfailed] at hstuck
    rw [hmiss, hnext, List.length_cons]
    exact fun hlt => hstuck (Nat.lt_of_succ_lt_succ hlt)

/-- `walk` that finds no page for a missing table. -/
theorem Walked.empty (hg : Good K m (nodes m.ram (n + 1) t + S)) (hw : Wf m.ram (n + 1) t)
    (hfree : Xv6.child (tbl m.ram t (path v (n + 1))) = none) (hnil : m.freelist = []) :
    Walked K S m { m with failed := m.failed + 1 } (n + 1) t v none := by
  refine ⟨hg.congr rfl rfl rfl, fun _ _ => rfl, hw, fun _ => rfl, ?_, ?_, fun _ => ⟨rfl, rfl⟩⟩
  · rw [hnil, List.drop_nil]
  · rw [missing_none hfree, hnil]
    exact fun hle => absurd hle (Nat.not_succ_le_zero n)

/-- **`walk` with `alloc` hangs in the tables that are missing on the way, or as many as it
gets.** -/
theorem walkLevel_spec {va : Nat} : ∀ {n t : Nat} {m : Mem} {S : Multiset Nat},
    Good K m (nodes m.ram n t + S) → Wf m.ram n t →
    wp (walkLevel true va n t) (fun r m' => Walked K S m m' n t (va / PGSIZE) r)
      (fun _ _ => False) m
  | 0, t, m, S, hg, hw => by
    rw [walkLevel, wp_pure, px_eq_path]
    refine ⟨hg, fun _ _ => rfl, hw, fun _ => rfl, rfl, fun _ => ⟨rfl, ⟨_, rfl, ?_⟩, fun w => rfl⟩,
      fun h => absurd h (Nat.not_lt_zero _)⟩
    rw [Radix.slot]
  | n + 1, t, m, S, hg, hw => by
    rw [walkLevel]
    simp only [wp_bind, wp_get, px_eq_path, Mem.pte_eq]
    split
    · next hV =>
      have hc : child (tbl m.ram t (path (va / PGSIZE) (n + 1))) = some _ :=
        child_eq_some.2 ⟨hV, rfl⟩
      obtain ⟨R, hR⟩ : ∃ R, nodes m.ram (n + 1) t = nodes m.ram n _ + R :=
        Radix.exists_nodes_eq_add (path_lt _ _) hc
      have hg' := hg
      rw [hR, add_assoc] at hg'
      exact wp_mono (walkLevel_spec hg' (hw _ (path_lt _ _) _ hc).2)
        (fun r m' h => h.child hg hw hc hR) fun _ _ h => h
    · next hV =>
      have hfree : child (tbl m.ram t (path (va / PGSIZE) (n + 1))) = none := if_neg hV
      rw [if_neg (by decide)]
      simp only [wp_bind]
      refine wp_mono (kalloc_eq hg) (fun c m₁ h₁ => ?_) fun _ _ h => h
      rcases h₁ with ⟨rfl, hnil, rfl⟩ | ⟨next, hnext, hpage, hg₁, rfl⟩
      · rw [if_pos rfl, wp_pure]
        exact Walked.empty hg hw hfree hnil
      · rw [if_neg (Nat.ne_of_gt hpage.pos)]
        simp only [wp_bind, memsetPage, setPte, wp_modify, Function.update_idem]
        obtain ⟨hcn, hgr, hg₂, hw₂, hkeeps⟩ := good_hang hg hw hnext (path_lt _ _) hfree
        obtain ⟨R, hR⟩ : ∃ R, nodes (m.hang t _ c next).ram (n + 1) t =
            nodes (m.hang t _ c next).ram n c + R :=
          Radix.exists_nodes_eq_add (path_lt (va / PGSIZE) _) hgr.entry
        have hg' := hg₂
        rw [hR, add_assoc] at hg'
        refine wp_mono (walkLevel_spec hg' (hw₂ _ (path_lt _ _) _ hgr.entry).2) (fun r m' h => ?_)
          fun _ _ h => h
        exact (h.child hg₂ hw₂ hgr.entry hR).graft hg hcn hfree hgr hkeeps hnext rfl rfl

end

end Xv6
