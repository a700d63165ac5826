import Xv6.Vm.Walk

/-!
# Looking up and mapping a page

`walk` without `alloc` finds the entry of a virtual page, and `mappages` of one page sets it.
-/

set_option autoImplicit false

namespace Xv6

variable {K : Image} {S : Multiset Nat} {m m' : Mem} {ram ram' : Nat → Bytes}
  {n t p i v w va : Nat}

/-! ### Lookup -/

theorem vpn_lt (h : va < MAXVA) : va / PGSIZE < 2 ^ 26 := by
  have h1 : MAXVA = 2 ^ 26 * 4096 := rfl
  rw [PGSIZE]
  omega

theorem wp_walkLevel_false {Q : Option (Nat × Nat) → Mem → Prop} {E : Halt → Mem → Prop} :
    ∀ {n t : Nat}, wp (walkLevel false va n t) Q E m ↔
      Q (Radix.slot child (tbl m.ram) n t (path (va / PGSIZE))) m
  | 0, t => by rw [walkLevel, wp_pure, px_eq_path, Radix.slot]
  | n + 1, t => by
    rw [walkLevel, Radix.slot]
    simp only [wp_bind, wp_get, px_eq_path, Mem.pte_eq]
    split
    · next hV =>
      rw [child_eq_some.2 ⟨hV, rfl⟩, Option.bind_some]
      exact wp_walkLevel_false
    · next hV =>
      rw [show child (tbl m.ram t (path (va / PGSIZE) (n + 1))) = none from if_neg hV]
      simp

/-- `walk` without `alloc`, and a continuation that treats a missing table as an entry that is
not valid. -/
theorem wp_walk_false {Q : Option (Nat × Nat) → Mem → Prop} {E : Halt → Mem → Prop} :
    wp (walk t va false) Q E m ↔
      if va ≥ MAXVA then E (.panic "walk") m
      else Q (Radix.slot child (tbl m.ram) 2 t (path (va / PGSIZE))) m := by
  rw [walk]
  split
  · simp
  · simp [wp_walkLevel_false]

theorem leaf_of_slot (hv : v < 2 ^ 27) (hs : Radix.slot child (tbl ram) 2 t (path v) = some (p, i)) :
    leaf ram t v = tbl ram p i := by
  rw [leaf, if_pos hv, leafAt, hs, Option.elim_some]

theorem leaf_of_no_slot (hs : Radix.slot child (tbl ram) 2 t (path v) = none) :
    leaf ram t v = 0 := by
  rw [leaf]
  split
  · rw [leafAt, hs, Option.elim_none]
  · rfl

/-- Where a page is mapped, no table is missing. -/
theorem leaf_missing (h : leaf ram t v ≠ 0) : missing ram 2 t v = 0 := by
  rw [leaf] at h
  split at h
  · exact missing_of_leafAt h
  · exact absurd rfl h

/-- What `walkaddr` returns, by the entry of the page. -/
def addrOf (pte : Nat) : Nat := if has pte PTE_V && has pte PTE_U then pte2pa pte else 0

theorem wp_walkaddr {Q : Nat → Mem → Prop} {E : Halt → Mem → Prop} :
    wp (walkaddr t va) Q E m ↔
      Q (if va ≥ MAXVA then 0 else addrOf (leaf m.ram t (va / PGSIZE))) m := by
  rw [walkaddr]
  split
  · next h => simp
  · next h =>
    have hv := vpn_lt (Nat.lt_of_not_le h)
    simp only [wp_bind, wp_walk_false, if_neg h]
    cases hs : Radix.slot child (tbl m.ram) 2 t (path (va / PGSIZE)) with
    | none => rw [leaf_of_no_slot hs, wp_pure]; rfl
    | some s =>
      rw [leaf_of_slot (by omega) hs, addrOf]
      simp only [wp_bind, wp_get, Mem.pte_eq]
      cases has (tbl m.ram s.1 s.2) PTE_V <;> cases has (tbl m.ram s.1 s.2) PTE_U <;> simp

/-! ### Page tables -/

/-- `t` is a page table: a tree of tables of its own, apart from `S`, and every entry for a page
is 0 or grants at least read access. -/
structure Table (K : Image) (m : Mem) (t : Nat) (S : Multiset Nat) : Prop where
  good : Good K m (nodes m.ram 2 t + S)
  wf : Wf m.ram 2 t
  read : ∀ v, leaf m.ram t v ≠ 0 → has (leaf m.ram t v) PTE_V ∧ has (leaf m.ram t v) PTE_R

theorem Table.nodup (h : Table K m t S) : (nodes m.ram 2 t).Nodup :=
  (Multiset.nodup_add.1 h.good.nodup).1

/-- Which pages besides the tree are held does not matter to the tree. -/
theorem Table.of_eq {S' : Multiset Nat} (h : Table K m t S) (hS : S' = S) : Table K m t S' :=
  hS ▸ h

theorem has_zero (f : Nat) : has 0 f = false := by
  rw [has, Nat.zero_and]
  rfl

/-- A page is mapped if its entry is not 0. -/
theorem Table.valid_iff (h : Table K m t S) : has (leaf m.ram t v) PTE_V ↔ leaf m.ram t v ≠ 0 := by
  refine ⟨fun hV h0 => ?_, fun hne => (h.read v hne).1⟩
  rw [h0, has_zero] at hV
  exact Bool.false_ne_true hV

/-- A change of memory away from the tables is not seen by the page table. -/
theorem Table.congr {S' : Multiset Nat} (h : Table K m t S)
    (hm : ∀ p ∈ nodes m.ram 2 t, m'.ram p = m.ram p)
    (hg : Good K m' (nodes m.ram 2 t + S')) : Table K m' t S' ∧ leaf m'.ram t = leaf m.ram t ∧
      nodes m'.ram 2 t = nodes m.ram 2 t ∧ ∀ w, missing m'.ram 2 t w = missing m.ram 2 t w := by
  have hnodes := nodes_congr hm
  have hleaf := leaf_congr hm
  refine ⟨⟨by rw [hnodes]; exact hg, wf_congr hm h.wf, by rw [hleaf]; exact h.read⟩, hleaf, hnodes,
    fun w => missing_congr w 2 t fun p hp => tbl_congr (hm p hp)⟩

/-! ### Setting the entry of a page -/

theorem missing_set_slot (hs : Radix.SetEntry (tbl ram) (tbl ram') p i) (w : Nat) :
    ∀ {n t : Nat}, (nodes ram n t).Nodup → Radix.slot child (tbl ram) n t (path v) = some (p, i) →
      missing ram' n t w = missing ram n t w
  | 0, _, _, _ => by rw [missing, missing]
  | n + 1, t, hnd, h => by
    rw [Radix.slot] at h
    obtain ⟨c, hc, hsl⟩ := Option.bind_eq_some_iff.1 h
    obtain ⟨hroot, hothers⟩ := Radix.erase_subtree hnd (path_lt v _) hc
      (hs.subtree (Radix.slot_mem_nodes (path_lt v) hsl).1)
    by_cases hwv : path w (n + 1) = path v (n + 1)
    · rw [missing_succ (c := c) (by rw [hroot, hwv, hc]), missing_succ (c := c) (by rw [hwv, hc])]
      exact missing_set_slot hs w (Radix.nodup_split hnd (path_lt v _) hc).1 hsl
    · rw [missing, missing, hroot]
      cases hd : child (tbl ram t (path w (n + 1))) with
      | none => rw [Option.elim_none, Option.elim_none]
      | some d => exact missing_congr w n d (hothers _ (path_lt w _) hwv d hd)

/-- Setting the slot of a page sets its entry and no other. -/
theorem leaf_set_slot {x : Nat} (hnd : (nodes ram 2 t).Nodup) (hv : v < 2 ^ 27)
    (hsl : Radix.slot child (tbl ram) 2 t (path v) = some (p, i))
    (hs : Radix.SetEntry (tbl ram) (tbl ram') p i) (hx : tbl ram' p i = x) :
    leaf ram' t = Function.update (leaf ram t) v x := by
  have hslot : ∀ w, Radix.slot child (tbl ram') 2 t (path w) =
      Radix.slot child (tbl ram) 2 t (path w) := fun w =>
    Radix.slot_set_slot hs (path_lt v) (path_lt w) hnd hsl
  funext w
  by_cases hwv : w = v
  · rw [hwv, Function.update_self, leaf_of_slot hv ((hslot v).trans hsl), hx]
  · rw [Function.update_of_ne hwv]
    cases hw : Radix.slot child (tbl ram) 2 t (path w) with
    | none => rw [leaf_of_no_slot hw, leaf_of_no_slot ((hslot w).trans hw)]
    | some s =>
      rw [leaf, leaf]
      split
      · next hlt =>
        rw [leafAt, leafAt, hslot w, hw, Option.elim_some, Option.elim_some]
        by_cases hp : s.1 = p
        · rw [hp]
          refine hs.others _ fun hi => hwv ?_
          have hws : Radix.slot child (tbl ram) 2 t (path w) = some (p, i) := by rw [hw, ← hp, ← hi]
          exact path_inj hlt hv (Radix.slot_inj (path_lt w) (path_lt v) hnd hws hsl)
        · rw [hs.rest _ hp]
      · rfl

/-- What setting the slot of a page keeps. -/
theorem Table.set_slot {x : Nat} (h : Table K m t S) (hv : v < 2 ^ 27)
    (hsl : Radix.slot child (tbl m.ram) 2 t (path v) = some (p, i)) (hx : x < 2 ^ 64)
    (hok : x ≠ 0 → has x PTE_V ∧ has x PTE_R) (hm : m' = { m with
      ram := Function.update m.ram p (setLE (m.ram p) (8 * i) 8 x) }) :
    Table K m' t S ∧ nodes m'.ram 2 t = nodes m.ram 2 t ∧ (∀ q ∈ S, m'.ram q = m.ram q) ∧
      leaf m'.ram t = Function.update (leaf m.ram t) v x ∧
      ∀ w, missing m'.ram 2 t w = missing m.ram 2 t w := by
  subst hm
  have hs := setEntry_setPte m.ram p i x
  have hp := (Radix.slot_mem_nodes (path_lt v) hsl).1
  have hnodes : nodes (Function.update m.ram p (setLE (m.ram p) (8 * i) 8 x)) 2 t =
      nodes m.ram 2 t := Radix.nodes_set_slot hs (path_lt v) h.nodup hsl
  have hleaf := leaf_set_slot h.nodup hv hsl hs (tbl_setPte_same _ _ _ hx)
  refine ⟨⟨h.good.congr rfl rfl (by rw [hnodes]), ?_, fun w hne => ?_⟩, hnodes, fun q hq => ?_,
    hleaf, fun w => missing_set_slot hs w h.nodup hsl⟩
  · exact Radix.wf_set_slot hs (path_lt v) h.nodup hsl h.wf
  · rw [hleaf] at hne ⊢
    by_cases hwv : w = v
    · rw [hwv, Function.update_self] at hne ⊢
      exact hok hne
    · rw [Function.update_of_ne hwv] at hne ⊢
      exact h.read w hne
  · have hne : q ≠ p := fun heq => h.good.disjoint hp (heq ▸ hq)
    exact Function.update_of_ne hne _ _

/-! ### `mappages` -/

/-- An entry with its flags set. -/
theorem pa2pte_or_flags_lt {pa perm : Nat} (hpa : pa < PHYSTOP) (hperm : perm < 1024) :
    pa2pte pa ||| perm ||| PTE_V < 2 ^ 64 := by
  rw [Nat.or_assoc]
  exact pte_lt (Nat.or_lt_two_pow (n := 10) hperm (by decide)) hpa

/-- The outcome of mapping the page `v`. -/
structure Mapped (K : Image) (S : Multiset Nat) (m m' : Mem) (t v pte : Nat) (r : Int) : Prop where
  table : Table K m' t S
  keeps : ∀ p ∈ S, m'.ram p = m.ram p
  freelist : m'.freelist = m.freelist.drop (missing m.ram 2 t v)
  done : missing m.ram 2 t v ≤ m.freelist.length → r = 0 ∧ m'.failed = m.failed ∧
    leaf m'.ram t = Function.update (leaf m.ram t) v pte ∧
    leaf m.ram t v = 0 ∧
    ∀ w, missing m'.ram 2 t w = min (missing m.ram 2 t w) (apart v w 2)
  stuck : m.freelist.length < missing m.ram 2 t v → r = -1 ∧ m'.failed = m.failed + 1 ∧
    leaf m'.ram t = leaf m.ram t

/-- **`mappages` of one page sets its entry, or finds no page for a table; it panics exactly where
the page is mapped.** -/
theorem mappages_spec {pa perm : Nat} (va : Nat) (h : Table K m t S)
    (hva : va % PGSIZE = 0) (hlt : va < MAXVA) (hpa : pa < PHYSTOP) (hperm : perm < 1024)
    (hR : has perm PTE_R) :
    wp (mappages t va PGSIZE pa perm)
      (fun r m' => Mapped K S m m' t (va / PGSIZE) (pa2pte pa ||| perm ||| PTE_V) r)
      (fun e _ => e = .panic "mappages: remap" ∧ leaf m.ram t (va / PGSIZE) ≠ 0) m := by
  have hv := vpn_lt hlt
  rw [mappages, if_neg (by omega), if_neg (by decide), if_neg (by decide),
    show PGSIZE / PGSIZE = 1 by decide, mappagesFrom, walk, if_neg (by omega)]
  simp only [wp_bind]
  refine wp_mono (walkLevel_spec h.good h.wf) (fun r m₁ hwk => ?_) fun _ _ h => h.elim
  have hleaf := leaf_eq hwk.leaf
  have htab : Table K m₁ t S := ⟨hwk.good, hwk.wf, by rw [hleaf]; exact h.read⟩
  rcases Nat.lt_or_ge m.freelist.length (missing m.ram 2 t (va / PGSIZE)) with hlen | hlen
  · obtain ⟨hf, rfl⟩ := hwk.stuck hlen
    rw [wp_pure]
    exact ⟨htab, hwk.keeps, hwk.freelist, fun hle => absurd hlen (Nat.not_lt.2 hle),
      fun _ => ⟨rfl, hf, hleaf⟩⟩
  · obtain ⟨hf, ⟨s, rfl, hs⟩, hmiss⟩ := hwk.done hlen
    have hentry : tbl m₁.ram s.1 s.2 = leaf m.ram t (va / PGSIZE) := by
      rw [← leaf_of_slot (by omega) hs, hleaf]
    simp only [wp_bind, wp_get, Mem.pte_eq, hentry]
    split
    · next hV =>
      rw [wp_bind, wp_panic]
      exact ⟨rfl, h.valid_iff.1 hV⟩
    · next hV =>
      simp only [wp_bind, setPte, wp_modify, mappagesFrom, wp_pure]
      have hok : has (pa2pte pa ||| perm ||| PTE_V) PTE_V ∧ has (pa2pte pa ||| perm ||| PTE_V) PTE_R := by
        rw [has_or, has_or, has_or, has_or, hR]
        simp [has, PTE_V]
      obtain ⟨htab', -, hk', hl', hm'⟩ := htab.set_slot (by omega) hs
        (pa2pte_or_flags_lt hpa hperm) (fun _ => hok) rfl
      refine ⟨htab', fun p hp => (hk' p hp).trans (hwk.keeps p hp), hwk.freelist, fun _ => ?_,
        fun hlt => absurd hlt (Nat.not_lt.2 hlen)⟩
      refine ⟨rfl, hf, by rw [hl', hleaf], ?_, fun w => (hm' w).trans (hmiss w)⟩
      exact by_contra fun hne => hV (h.valid_iff.2 hne)

/-- Outside the address space `mappages` panics. -/
theorem mappages_of_ge {pa perm : Nat} {Q : Int → Mem → Prop} {E : Halt → Mem → Prop}
    (hva : va % PGSIZE = 0) (hge : MAXVA ≤ va) :
    wp (mappages t va PGSIZE pa perm) Q E m ↔ E (.panic "walk") m := by
  rw [mappages, if_neg (by omega), if_neg (by decide), if_neg (by decide),
    show PGSIZE / PGSIZE = 1 by decide, mappagesFrom, walk, if_pos hge]
  simp only [wp_bind, wp_panic]

end Xv6
