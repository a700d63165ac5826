import Mathlib.Algebra.Order.BigOperators.Group.Finset
import Mathlib.Algebra.Order.Group.Multiset
import Mathlib.Tactic.Abel

/-!
# Radix trees stored in memory

A radix tree of height `n` is a table of `w` entries; an entry of a table of height `n + 1` either
has a child, a table of height `n`, or has none.  Tables live at addresses `P` of a memory
`m : P → Nat → E`, and `child` reads the address of the child off an entry.

Two things are said of a tree.  `nodes` is the multiset of its tables, which has no duplicates
exactly when the tables are distinct, so that it really is a tree.  `slot` follows a path of
indices to an entry of a table of height `0`.  The lemmas say what a change of memory does to
both: nothing, away from the tree (`nodes_congr`, `slot_congr`); inside one subtree
(`nodes_subtree`, `slot_subtree`), when an empty table is hung into a free entry (`nodes_graft`),
and when an entry at the bottom is set (`nodes_set_slot`, `slot_set_slot`).
-/

set_option autoImplicit false

namespace Xv6

namespace Radix

variable {P E : Type} (w : Nat) (child : E → Option P)

/-- The tables of the tree of height `n` at `t`. -/
def nodes (m : P → Nat → E) : Nat → P → Multiset P
  | 0, t => {t}
  | n + 1, t => {t} + ∑ i ∈ Finset.range w, (child (m t i)).elim 0 (nodes m n)

/-- The entry at the bottom that the path `ix` leads to; `ix k` is the index into the table of
height `k`. -/
def slot (m : P → Nat → E) : Nat → P → (Nat → Nat) → Option (P × Nat)
  | 0, t, ix => some (t, ix 0)
  | n + 1, t, ix => (child (m t (ix (n + 1)))).bind fun c => slot m n c ix

/-- Every entry that has a child satisfies `ok`. -/
def Wf (ok : E → Prop) (m : P → Nat → E) : Nat → P → Prop
  | 0, _ => True
  | n + 1, t => ∀ i, i < w → ∀ c, child (m t i) = some c → ok (m t i) ∧ Wf ok m n c

section

variable {w} {child} {m m' : P → Nat → E} {n i : Nat} {t c p : P} {ix iy : Nat → Nat}

/-- A path of indices that are all below `w`. -/
def Path (w : Nat) (ix : Nat → Nat) : Prop := ∀ k, ix k < w

/-! ### Tables of a tree -/

theorem root_mem_nodes (m : P → Nat → E) : ∀ (n : Nat) (t : P), t ∈ nodes w child m n t
  | 0, t => Multiset.mem_singleton_self t
  | n + 1, t => by
    rw [nodes, Multiset.mem_add]
    exact Or.inl (Multiset.mem_singleton_self t)

theorem nodes_zero (m : P → Nat → E) (t : P) : nodes w child m 0 t = {t} := rfl

/-- The tables of a tree without its root. -/
theorem nodes_succ (m : P → Nat → E) (n : Nat) (t : P) : nodes w child m (n + 1) t =
    {t} + ∑ i ∈ Finset.range w, (child (m t i)).elim 0 (nodes w child m n) := rfl

/-- The subtree below one entry is part of the tree. -/
theorem nodes_child_le (hi : i < w) (hc : child (m t i) = some c) :
    nodes w child m n c ≤
      ∑ j ∈ Finset.range w, (child (m t j)).elim 0 (nodes w child m n) := by
  have h := Finset.single_le_sum (f := fun j => (child (m t j)).elim 0 (nodes w child m n))
    (fun j _ => Multiset.zero_le _) (Finset.mem_range.2 hi)
  simpa only [hc, Option.elim_some] using h

theorem mem_nodes_child (hi : i < w) (hc : child (m t i) = some c)
    (hp : p ∈ nodes w child m n c) : p ∈ nodes w child m (n + 1) t := by
  rw [nodes_succ, Multiset.mem_add]
  exact Or.inr (Multiset.mem_of_le (nodes_child_le hi hc) hp)

/-- A table is the root, or in the subtree below some entry. -/
theorem mem_nodes_succ (hp : p ∈ nodes w child m (n + 1) t) :
    p = t ∨ ∃ i, i < w ∧ ∃ c, child (m t i) = some c ∧ p ∈ nodes w child m n c := by
  rw [nodes_succ, Multiset.mem_add, Multiset.mem_singleton] at hp
  refine hp.imp_right fun hp => ?_
  obtain ⟨i, hi, hp⟩ := Multiset.mem_sum.1 hp
  cases hc : child (m t i) with
  | none =>
    rw [hc, Option.elim_none] at hp
    exact absurd hp (Multiset.notMem_zero p)
  | some c =>
    rw [hc, Option.elim_some] at hp
    exact ⟨i, Finset.mem_range.1 hi, c, hc, hp⟩

/-- A tree sees only its own tables. -/
theorem nodes_congr : ∀ (n : Nat) (t : P), (∀ p ∈ nodes w child m n t, m' p = m p) →
    nodes w child m' n t = nodes w child m n t
  | 0, _, _ => rfl
  | n + 1, t, h => by
    have ht : m' t = m t := h t (root_mem_nodes m (n + 1) t)
    rw [nodes_succ, nodes_succ, ht]
    congr 1
    refine Finset.sum_congr rfl fun i hi => ?_
    cases hc : child (m t i) with
    | none => rfl
    | some c =>
      exact nodes_congr n c fun p hp => h p (mem_nodes_child (Finset.mem_range.1 hi) hc hp)

theorem slot_congr (hx : Path w ix) : ∀ (n : Nat) (t : P),
    (∀ p ∈ nodes w child m n t, m' p = m p) → slot child m' n t ix = slot child m n t ix
  | 0, _, _ => rfl
  | n + 1, t, h => by
    have ht : m' t = m t := h t (root_mem_nodes m (n + 1) t)
    rw [slot, slot, ht]
    cases hc : child (m t (ix (n + 1))) with
    | none => rfl
    | some c => exact slot_congr hx n c fun p hp => h p (mem_nodes_child (hx _) hc hp)

theorem wf_congr {ok : E → Prop} : ∀ (n : Nat) (t : P),
    (∀ p ∈ nodes w child m n t, m' p = m p) → Wf w child ok m n t → Wf w child ok m' n t
  | 0, _, _, _ => trivial
  | n + 1, t, h, hw => by
    have ht : m' t = m t := h t (root_mem_nodes m (n + 1) t)
    intro i hi c hc
    rw [ht] at hc ⊢
    obtain ⟨h1, h2⟩ := hw i hi c hc
    exact ⟨h1, wf_congr n c (fun p hp => h p (mem_nodes_child hi hc hp)) h2⟩

/-- A slot lies in a table of the tree. -/
theorem slot_mem_nodes (hx : Path w ix) : ∀ {n : Nat} {t p : P} {i : Nat},
    slot child m n t ix = some (p, i) → p ∈ nodes w child m n t ∧ i = ix 0
  | 0, t, p, i, h => by
    rw [slot, Option.some.injEq, Prod.mk.injEq] at h
    exact ⟨h.1 ▸ root_mem_nodes m 0 t, h.2.symm⟩
  | n + 1, t, p, i, h => by
    rw [slot] at h
    obtain ⟨c, hc, hs⟩ := Option.bind_eq_some_iff.1 h
    obtain ⟨h1, h2⟩ := slot_mem_nodes hx hs
    exact ⟨mem_nodes_child (hx _) hc h1, h2⟩

/-! ### Changes inside one subtree -/

/-- The tables of a tree, with those below one entry set apart. -/
theorem nodes_split (m : P → Nat → E) (n : Nat) (t : P) (hi : i < w) : nodes w child m (n + 1) t =
    {t} + ((child (m t i)).elim 0 (nodes w child m n) +
      ∑ j ∈ (Finset.range w).erase i, (child (m t j)).elim 0 (nodes w child m n)) := by
  rw [nodes_succ]
  congr 1
  exact (Finset.add_sum_erase _ (fun j => (child (m t j)).elim 0 (nodes w child m n))
    (Finset.mem_range.2 hi)).symm

theorem exists_nodes_eq_add (hi : i < w) (hc : child (m t i) = some c) :
    ∃ R, nodes w child m (n + 1) t = nodes w child m n c + R := by
  rw [nodes_split m n t hi, hc, Option.elim_some]
  exact ⟨_, add_left_comm _ _ _⟩

theorem mem_nodes_erase {j : Nat} (hj : j < w) (hji : j ≠ i) (hc : child (m t j) = some c)
    (hp : p ∈ nodes w child m n c) :
    p ∈ ∑ j ∈ (Finset.range w).erase i, (child (m t j)).elim 0 (nodes w child m n) := by
  refine Multiset.mem_sum.2 ⟨j, Finset.mem_erase.2 ⟨hji, Finset.mem_range.2 hj⟩, ?_⟩
  rw [hc]
  exact hp

/-- In a tree the root is not below it, and two entries have nothing in common below them. -/
theorem nodup_split (hnd : (nodes w child m (n + 1) t).Nodup) (hi : i < w)
    (hc : child (m t i) = some c) :
    (nodes w child m n c).Nodup ∧ t ∉ nodes w child m n c ∧
      ∀ j, j < w → j ≠ i → ∀ d, child (m t j) = some d →
        t ∉ nodes w child m n d ∧ ∀ p ∈ nodes w child m n d, p ∉ nodes w child m n c := by
  rw [nodes_split m n t hi, hc, Option.elim_some, Multiset.nodup_add, Multiset.nodup_add] at hnd
  obtain ⟨-, ⟨hcn, -, hdis⟩, hroot⟩ := hnd
  have ht := Multiset.disjoint_left.1 hroot (Multiset.mem_singleton_self t)
  rw [Multiset.mem_add, not_or] at ht
  refine ⟨hcn, ht.1, fun j hj hji d hd => ⟨fun hm => ht.2 (mem_nodes_erase hj hji hd hm),
    fun p hp hpc => ?_⟩⟩
  exact Multiset.disjoint_left.1 hdis hpc (mem_nodes_erase hj hji hd hp)

/-- The subtrees of the other entries do not see a change below entry `i`. -/
theorem erase_subtree (hnd : (nodes w child m (n + 1) t).Nodup) (hi : i < w)
    (hc : child (m t i) = some c)
    (hm : ∀ p ∈ nodes w child m (n + 1) t, p ∉ nodes w child m n c → m' p = m p) :
    m' t = m t ∧ ∀ j, j < w → j ≠ i → ∀ d, child (m t j) = some d →
      ∀ p ∈ nodes w child m n d, m' p = m p := by
  obtain ⟨-, ht, hd⟩ := nodup_split hnd hi hc
  refine ⟨hm t (root_mem_nodes m (n + 1) t) ht, fun j hj hji d hdj p hp => ?_⟩
  exact hm p (mem_nodes_child hj hdj hp) ((hd j hj hji d hdj).2 p hp)

/-- A change below one entry changes the tables of the tree as it changes those below it. -/
theorem nodes_subtree (hnd : (nodes w child m (n + 1) t).Nodup) (hi : i < w)
    (hc : child (m t i) = some c)
    (hm : ∀ p ∈ nodes w child m (n + 1) t, p ∉ nodes w child m n c → m' p = m p) :
    nodes w child m' (n + 1) t + nodes w child m n c =
      nodes w child m (n + 1) t + nodes w child m' n c := by
  obtain ⟨ht, hothers⟩ := erase_subtree hnd hi hc hm
  have hsum : ∑ j ∈ (Finset.range w).erase i, (child (m' t j)).elim 0 (nodes w child m' n) =
      ∑ j ∈ (Finset.range w).erase i, (child (m t j)).elim 0 (nodes w child m n) := by
    refine Finset.sum_congr rfl fun j hj => ?_
    rw [Finset.mem_erase, Finset.mem_range] at hj
    rw [ht]
    cases hd : child (m t j) with
    | none => rfl
    | some d => exact nodes_congr n d (hothers j hj.2 hj.1 d hd)
  rw [nodes_split m' n t hi, nodes_split m n t hi, hsum, ht, hc, Option.elim_some, Option.elim_some]
  abel

theorem slot_subtree (hnd : (nodes w child m (n + 1) t).Nodup) (hi : i < w)
    (hc : child (m t i) = some c)
    (hm : ∀ p ∈ nodes w child m (n + 1) t, p ∉ nodes w child m n c → m' p = m p)
    (hx : Path w ix) : slot child m' (n + 1) t ix =
      if ix (n + 1) = i then slot child m' n c ix else slot child m (n + 1) t ix := by
  obtain ⟨ht, hothers⟩ := erase_subtree hnd hi hc hm
  rw [slot, ht]
  by_cases hxi : ix (n + 1) = i
  · rw [if_pos hxi, hxi, hc, Option.bind_some]
  · rw [if_neg hxi, slot]
    cases hd : child (m t (ix (n + 1))) with
    | none => rfl
    | some d =>
      rw [Option.bind_some, Option.bind_some]
      exact slot_congr hx n d (hothers _ (hx _) hxi d hd)

theorem wf_subtree {ok : E → Prop} (hnd : (nodes w child m (n + 1) t).Nodup) (hi : i < w)
    (hc : child (m t i) = some c)
    (hm : ∀ p ∈ nodes w child m (n + 1) t, p ∉ nodes w child m n c → m' p = m p)
    (hw : Wf w child ok m (n + 1) t) (hw' : Wf w child ok m' n c) :
    Wf w child ok m' (n + 1) t := by
  obtain ⟨ht, hothers⟩ := erase_subtree hnd hi hc hm
  intro j hj d hd
  rw [ht] at hd ⊢
  obtain ⟨h1, h2⟩ := hw j hj d hd
  refine ⟨h1, ?_⟩
  by_cases hji : j = i
  · subst hji
    rw [hc] at hd
    cases hd
    exact hw'
  · exact wf_congr n d (hothers j hj hji d hd) h2

/-! ### Hanging in an empty table -/

/-- A table none of whose entries has a child is a tree of any height. -/
theorem nodes_leaf (h : ∀ i, i < w → child (m t i) = none) : ∀ n, nodes w child m n t = {t}
  | 0 => rfl
  | n + 1 => by
    rw [nodes_succ, Finset.sum_eq_zero, add_zero]
    intro i hi
    rw [h i (Finset.mem_range.1 hi)]
    rfl

theorem wf_leaf {ok : E → Prop} (h : ∀ i, i < w → child (m t i) = none) :
    ∀ n, Wf w child ok m n t
  | 0 => trivial
  | n + 1 => fun i hi c hc => by
    rw [h i hi] at hc
    cases hc

/-- Memory in which the new table `c` has been filled with `z` and hung into entry `i` of `t`. -/
structure Graft (w : Nat) (child : E → Option P) (m m' : P → Nat → E) (t : P) (i : Nat) (c : P)
    (z : E) : Prop where
  entry : child (m' t i) = some c
  others : ∀ j, j < w → j ≠ i → m' t j = m t j
  fill : ∀ j, j < w → m' c j = z
  rest : ∀ p, p ≠ t → p ≠ c → m' p = m p

/-- The subtrees of the other entries do not see the new table. -/
theorem Graft.keeps {z : E} (hg : Graft w child m m' t i c z)
    (hnd : (nodes w child m (n + 1) t).Nodup) (hc : c ∉ nodes w child m (n + 1) t) {j : Nat}
    (hj : j < w) {d : P} (hd : child (m t j) = some d) : ∀ p ∈ nodes w child m n d, m' p = m p := by
  obtain ⟨-, ht, -⟩ := nodup_split hnd hj hd
  exact fun p hp => hg.rest p (fun h => ht (h ▸ hp)) fun h => hc (h ▸ mem_nodes_child hj hd hp)

/-- Hanging an empty table into a free entry adds it to the tree. -/
theorem nodes_graft {z : E} (hz : child z = none) (hg : Graft w child m m' t i c z) (hi : i < w)
    (hfree : child (m t i) = none) (hnd : (nodes w child m (n + 1) t).Nodup)
    (hc : c ∉ nodes w child m (n + 1) t) :
    nodes w child m' (n + 1) t = nodes w child m (n + 1) t + {c} := by
  have hleaf : nodes w child m' n c = {c} := nodes_leaf (fun j hj => by rw [hg.fill j hj, hz]) n
  have hsum : ∑ j ∈ (Finset.range w).erase i, (child (m' t j)).elim 0 (nodes w child m' n) =
      ∑ j ∈ (Finset.range w).erase i, (child (m t j)).elim 0 (nodes w child m n) := by
    refine Finset.sum_congr rfl fun j hj => ?_
    rw [Finset.mem_erase, Finset.mem_range] at hj
    rw [hg.others j hj.2 hj.1]
    cases hd : child (m t j) with
    | none => rfl
    | some d => exact nodes_congr n d (hg.keeps hnd hc hj.2 hd)
  rw [nodes_split m' n t hi, nodes_split m n t hi, hsum, hg.entry, hfree, Option.elim_some,
    Option.elim_none, hleaf]
  abel

theorem slot_graft {z : E} (hg : Graft w child m m' t i c z)
    (hnd : (nodes w child m (n + 1) t).Nodup) (hc : c ∉ nodes w child m (n + 1) t)
    (hx : Path w ix) (hxi : ix (n + 1) ≠ i) :
    slot child m' (n + 1) t ix = slot child m (n + 1) t ix := by
  rw [slot, slot, hg.others _ (hx _) hxi]
  cases hd : child (m t (ix (n + 1))) with
  | none => rfl
  | some d => exact slot_congr hx n d (hg.keeps hnd hc (hx _) hd)

theorem wf_graft {ok : E → Prop} {z : E} (hz : child z = none)
    (hg : Graft w child m m' t i c z) (hok : ok (m' t i))
    (hnd : (nodes w child m (n + 1) t).Nodup) (hc : c ∉ nodes w child m (n + 1) t)
    (hw : Wf w child ok m (n + 1) t) : Wf w child ok m' (n + 1) t := by
  intro j hj d hd
  by_cases hji : j = i
  · subst hji
    rw [hg.entry] at hd
    cases hd
    exact ⟨hok, wf_leaf (fun j hj => by rw [hg.fill j hj, hz]) n⟩
  · rw [hg.others j hj hji] at hd ⊢
    obtain ⟨h1, h2⟩ := hw j hj d hd
    exact ⟨h1, wf_congr n d (hg.keeps hnd hc hj hd) h2⟩

/-! ### Setting an entry at the bottom -/

/-- Memory in which only entry `i` of the table `p` may have changed. -/
structure SetEntry (m m' : P → Nat → E) (p : P) (i : Nat) : Prop where
  others : ∀ j, j ≠ i → m' p j = m p j
  rest : ∀ q, q ≠ p → m' q = m q

/-- A change at the bottom is a change inside the subtree that holds it. -/
theorem SetEntry.subtree (hs : SetEntry m m' p i) (hp : p ∈ nodes w child m n c) :
    ∀ q ∈ nodes w child m (n + 1) t, q ∉ nodes w child m n c → m' q = m q :=
  fun q _ hq => hs.rest q fun h => hq (h ▸ hp)

/-- Setting an entry at the bottom leaves the tables alone. -/
theorem nodes_set_slot (hs : SetEntry m m' p i) (hx : Path w ix) : ∀ {n : Nat} {t : P},
    (nodes w child m n t).Nodup → slot child m n t ix = some (p, i) →
    nodes w child m' n t = nodes w child m n t
  | 0, _, _, _ => rfl
  | n + 1, t, hnd, h => by
    rw [slot] at h
    obtain ⟨c, hc, hsl⟩ := Option.bind_eq_some_iff.1 h
    have hsub := nodes_subtree hnd (hx _) hc (hs.subtree (slot_mem_nodes hx hsl).1)
    rw [nodes_set_slot hs hx (nodup_split hnd (hx _) hc).1 hsl] at hsub
    exact add_right_cancel hsub

/-- Setting an entry at the bottom leaves the slots where they are. -/
theorem slot_set_slot (hs : SetEntry m m' p i) (hx : Path w ix) (hy : Path w iy) :
    ∀ {n : Nat} {t : P}, (nodes w child m n t).Nodup → slot child m n t ix = some (p, i) →
      slot child m' n t iy = slot child m n t iy
  | 0, _, _, _ => rfl
  | n + 1, t, hnd, h => by
    rw [slot] at h
    obtain ⟨c, hc, hsl⟩ := Option.bind_eq_some_iff.1 h
    rw [slot_subtree hnd (hx _) hc (hs.subtree (slot_mem_nodes hx hsl).1) hy]
    split
    · next hyx =>
      rw [slot_set_slot hs hx hy (nodup_split hnd (hx _) hc).1 hsl, slot, hyx, hc,
        Option.bind_some]
    · rfl

theorem wf_set_slot {ok : E → Prop} (hs : SetEntry m m' p i) (hx : Path w ix) :
    ∀ {n : Nat} {t : P}, (nodes w child m n t).Nodup → slot child m n t ix = some (p, i) →
      Wf w child ok m n t → Wf w child ok m' n t
  | 0, _, _, _, _ => trivial
  | n + 1, t, hnd, h, hw => by
    rw [slot] at h
    obtain ⟨c, hc, hsl⟩ := Option.bind_eq_some_iff.1 h
    exact wf_subtree hnd (hx _) hc (hs.subtree (slot_mem_nodes hx hsl).1) hw
      (wf_set_slot hs hx (nodup_split hnd (hx _) hc).1 hsl (hw _ (hx _) c hc).2)

/-! ### Slots and paths -/

/-- In a tree different paths lead to different slots. -/
theorem slot_inj (hx : Path w ix) (hy : Path w iy) : ∀ {n : Nat} {t : P},
    (nodes w child m n t).Nodup → slot child m n t ix = some (p, i) →
    slot child m n t iy = some (p, i) → ∀ k, k ≤ n → ix k = iy k
  | 0, t, _, h1, h2, k, hk => by
    obtain rfl : k = 0 := Nat.le_zero.1 hk
    exact (slot_mem_nodes hx h1).2.symm.trans (slot_mem_nodes hy h2).2
  | n + 1, t, hnd, h1, h2, k, hk => by
    rw [slot] at h1 h2
    obtain ⟨c, hc, hs1⟩ := Option.bind_eq_some_iff.1 h1
    obtain ⟨d, hd, hs2⟩ := Option.bind_eq_some_iff.1 h2
    obtain ⟨hcn, -, hdis⟩ := nodup_split hnd (hx _) hc
    have htop : ix (n + 1) = iy (n + 1) := by
      by_contra hne
      exact (hdis _ (hy _) (Ne.symm hne) d hd).2 p (slot_mem_nodes hy hs2).1
        (slot_mem_nodes hx hs1).1
    rcases Nat.le_succ_iff.1 hk with hk | rfl
    · rw [← htop, hc, Option.some.injEq] at hd
      subst hd
      exact slot_inj hx hy hcn hs1 hs2 k hk
    · exact htop

/-- Only the indices up to the height of the tree matter. -/
theorem slot_path_congr : ∀ {n : Nat} {t : P}, (∀ k, k ≤ n → ix k = iy k) →
    slot child m n t ix = slot child m n t iy
  | 0, _, h => by rw [slot, slot, h 0 (Nat.le_refl 0)]
  | n + 1, t, h => by
    rw [slot, slot, h (n + 1) (Nat.le_refl _)]
    congr 1
    funext c
    exact slot_path_congr fun k hk => h k (Nat.le_succ_of_le hk)

end

-- Outside this file trees are known by the lemmas above only.
attribute [irreducible] nodes slot

end Radix

end Xv6
