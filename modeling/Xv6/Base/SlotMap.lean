import Mathlib.Data.List.Basic

/-!
# Maps kept in an array of slots

An array whose slots are free or hold a key and a value, with no key twice, is a finite map.  A key
is found by a search from the front, a new one goes to the first free slot or behind the last one,
and a key is removed by freeing its slot.
-/

set_option autoImplicit false

namespace SlotMap

variable {κ ν : Type} {l l' : List (Option (κ × ν))} {k k' : κ} {v w : ν} {i j t : Nat}

/-- The array: `none` is a free slot. -/
abbrev Slots (κ ν : Type) : Type := List (Option (κ × ν))

/-- Slot `i` holds `k` with `v`. -/
def At (l : Slots κ ν) (i : Nat) (k : κ) (v : ν) : Prop := l[i]? = some (some (k, v))

/-- The key is in some slot. -/
def Has (l : Slots κ ν) (k : κ) : Prop := ∃ i v, At l i k v

/-- No key is in two slots. -/
def Distinct (l : Slots κ ν) : Prop := ∀ i j k v w, At l i k v → At l j k w → i = j

theorem At.lt (h : At l i k v) : i < l.length := by
  by_contra hi
  rw [At, List.getElem?_eq_none (Nat.le_of_not_lt hi)] at h
  cases h

theorem At.inj (h : At l i k v) (h' : At l i k' w) : k = k' ∧ v = w := by
  rw [At, h] at h'
  cases h'
  exact ⟨rfl, rfl⟩

/-! ## Searching -/

section

variable [DecidableEq κ]

/-- The slot of the key and its value; `i` is the number of the first slot of the list. -/
def find (k : κ) : Slots κ ν → Nat → Option (Nat × ν)
  | [], _ => none
  | none :: l, i => find k l (i + 1)
  | some (k', v) :: l, i => if k = k' then some (i, v) else find k l (i + 1)

theorem find_none : ∀ {l : Slots κ ν} {i : Nat}, find k l i = none ↔ ¬ Has l k
  | [], i => by
    refine iff_of_true rfl ?_
    rintro ⟨j, v, h⟩
    exact absurd h.lt (Nat.not_lt_zero j)
  | none :: l, i => by
    rw [find, find_none]
    refine not_congr ⟨fun ⟨j, v, h⟩ => ⟨j + 1, v, h⟩, fun ⟨j, v, h⟩ => ?_⟩
    cases j with
    | zero => cases h
    | succ j => exact ⟨j, v, h⟩
  | some (k', v) :: l, i => by
    rw [find]
    split
    · next hk => exact iff_of_false (by simp) fun h => h ⟨0, v, by rw [hk]; rfl⟩
    · next hk =>
      rw [find_none]
      refine not_congr ⟨fun ⟨j, w, h⟩ => ⟨j + 1, w, h⟩, fun ⟨j, w, h⟩ => ?_⟩
      cases j with
      | zero => exact absurd (At.inj h (show At _ 0 k' v from rfl)).1 hk
      | succ j => exact ⟨j, w, h⟩

theorem at_of_find : ∀ {l : Slots κ ν} {i : Nat}, find k l i = some (t, v) →
    i ≤ t ∧ At l (t - i) k v
  | [], i, h => by cases h
  | none :: l, i, h => by
    obtain ⟨hle, hat⟩ := at_of_find (l := l) h
    refine ⟨by omega, ?_⟩
    rw [show t - i = t - (i + 1) + 1 by omega]
    exact hat
  | some (k', w) :: l, i, h => by
    rw [find] at h
    split at h
    · next hk =>
      cases h
      refine ⟨Nat.le_refl _, ?_⟩
      rw [Nat.sub_self, hk]
      rfl
    · obtain ⟨hle, hat⟩ := at_of_find (l := l) h
      refine ⟨by omega, ?_⟩
      rw [show t - i = t - (i + 1) + 1 by omega]
      exact hat

/-- What the search finds, if no key is there twice. -/
theorem Distinct.find_iff (h : Distinct l) : find k l 0 = some (t, v) ↔ At l t k v := by
  refine ⟨fun hf => (at_of_find hf).2, fun hat => ?_⟩
  cases hf : find k l 0 with
  | none => exact absurd ⟨t, v, hat⟩ (find_none.1 hf)
  | some x =>
    obtain ⟨-, hx⟩ := at_of_find (v := x.2) hf
    rw [Nat.sub_zero] at hx
    obtain rfl := h _ _ _ _ _ hat hx
    rw [(hat.inj hx).2]

/-- The map. -/
def lookup (l : Slots κ ν) (k : κ) : Option ν := (find k l 0).map Prod.snd

theorem lookup_none : lookup l k = none ↔ ¬ Has l k := by
  rw [lookup, Option.map_eq_none_iff, find_none]

theorem Distinct.lookup_some (h : Distinct l) : lookup l k = some v ↔ ∃ i, At l i k v := by
  rw [lookup, Option.map_eq_some_iff]
  refine ⟨fun ⟨x, hx, hv⟩ => ⟨x.1, hv ▸ h.find_iff.1 hx⟩, fun ⟨i, hi⟩ => ⟨(i, v), ?_, rfl⟩⟩
  exact h.find_iff.2 hi

/-- Two arrays that hold the same keys with the same values are the same map. -/
theorem Distinct.lookup_congr (h : Distinct l) (h' : Distinct l')
    (heq : ∀ v, (∃ i, At l i k v) ↔ ∃ i, At l' i k v) : lookup l k = lookup l' k := by
  refine Option.ext fun v => ?_
  exact h.lookup_some.trans ((heq v).trans h'.lookup_some.symm)

end

/-! ## Adding a key -/

/-- The first free slot, or the end of the array. -/
def free : Slots κ ν → Nat
  | [] => 0
  | none :: _ => 0
  | some _ :: l => free l + 1

theorem free_le : ∀ l : Slots κ ν, free l ≤ l.length
  | [] => Nat.le_refl _
  | none :: l => Nat.zero_le _
  | some _ :: l => Nat.succ_le_succ (free_le l)

theorem getElem?_free : ∀ l : Slots κ ν, l[free l]? = if free l < l.length then some none else none
  | [] => rfl
  | none :: l => by rw [free, if_pos (by rw [List.length_cons]; exact Nat.succ_pos _)]; rfl
  | some x :: l => by
    rw [free, List.getElem?_cons_succ, getElem?_free l]
    exact if_congr (by rw [List.length_cons]; omega) rfl rfl

/-- Put `x` into slot `t`, or behind the last slot. -/
def put (l : Slots κ ν) (t : Nat) (x : Option (κ × ν)) : Slots κ ν :=
  if t < l.length then l.set t x else l ++ [x]

theorem getElem?_put (ht : t ≤ l.length) (x : Option (κ × ν)) :
    (put l t x)[i]? = if i = t then some x else l[i]? := by
  rw [put]
  split
  · next hlt =>
    rw [List.getElem?_set]
    by_cases hi : i = t
    · rw [if_pos hi.symm, if_pos hlt, if_pos hi]
    · rw [if_neg fun he => hi he.symm, if_neg hi]
  · next hge =>
    obtain rfl : t = l.length := by omega
    by_cases hi : i = l.length
    · rw [if_pos hi, hi, List.getElem?_concat_length]
    · rw [if_neg hi]
      rcases Nat.lt_or_ge i l.length with hlt | hge'
      · rw [List.getElem?_append_left hlt]
      · rw [List.getElem?_eq_none (by rw [List.length_append, List.length_singleton]; omega),
          List.getElem?_eq_none hge']

theorem at_put (ht : t ≤ l.length) {x : Option (κ × ν)} :
    At (put l t x) i k v ↔ if i = t then x = some (k, v) else At l i k v := by
  rw [At, getElem?_put ht]
  split
  · exact Option.some_inj
  · rfl

/-- Add a key, in the first free slot. -/
def insert (l : Slots κ ν) (k : κ) (v : ν) : Slots κ ν := put l (free l) (some (k, v))

theorem at_insert : At (insert l k v) i k' w ↔ (i = free l ∧ k = k' ∧ v = w) ∨ At l i k' w := by
  rw [insert, at_put (free_le l)]
  split
  · next hi =>
    have hno : ¬ At l i k' w := by
      rw [At, hi, getElem?_free]
      split <;> simp
    rw [or_iff_left hno, Option.some_inj, Prod.mk.injEq]
    exact (and_iff_right hi).symm
  · next hi => rw [or_iff_right fun h => hi h.1]

theorem Distinct.insert (h : Distinct l) (hk : ¬ Has l k) : Distinct (insert l k v) := by
  intro i j k' w w' hi hj
  rcases at_insert.1 hi with ⟨h1, rfl, -⟩ | h1
  · rcases at_insert.1 hj with ⟨h2, -, -⟩ | h2
    · exact h1.trans h2.symm
    · exact absurd ⟨j, w', h2⟩ hk
  · rcases at_insert.1 hj with ⟨-, he, -⟩ | h2
    · exact absurd ⟨i, w, he ▸ h1⟩ hk
    · exact h i j k' w w' h1 h2

/-- **Adding a key adds it and nothing else.** -/
theorem Distinct.lookup_insert [DecidableEq κ] (h : Distinct l) (hk : ¬ Has l k) (k' : κ) :
    lookup (SlotMap.insert l k v) k' = if k' = k then some v else lookup l k' := by
  have h' : Distinct (SlotMap.insert l k v) := h.insert hk
  split
  · next he => exact h'.lookup_some.2 ⟨free l, at_insert.2 (.inl ⟨rfl, he.symm, rfl⟩)⟩
  · next he =>
    refine h'.lookup_congr h fun w => exists_congr fun i => ?_
    rw [at_insert]
    exact or_iff_right fun hx => he hx.2.1.symm

/-! ## Removing a key -/

/-- Free a slot. -/
def erase (l : Slots κ ν) (t : Nat) : Slots κ ν := put l t none

theorem at_erase (ht : t ≤ l.length) : At (erase l t) i k v ↔ i ≠ t ∧ At l i k v := by
  rw [erase, at_put ht]
  split
  · next hi => exact iff_of_false (by simp) fun h => h.1 hi
  · next hi => exact (and_iff_right hi).symm

theorem Distinct.erase (h : Distinct l) (ht : t ≤ l.length) : Distinct (erase l t) :=
  fun i j k v w hi hj => h i j k v w ((at_erase ht).1 hi).2 ((at_erase ht).1 hj).2

/-- **Freeing the slot of a key removes it and nothing else.** -/
theorem Distinct.lookup_erase [DecidableEq κ] (h : Distinct l) (hk : At l t k v) (k' : κ) :
    lookup (SlotMap.erase l t) k' = if k' = k then none else lookup l k' := by
  have ht : t ≤ l.length := Nat.le_of_lt hk.lt
  split
  · next he =>
    rw [lookup_none]
    rintro ⟨i, w, hi⟩
    obtain ⟨hne, hi⟩ := (at_erase ht).1 hi
    exact hne (h i t k w v (he ▸ hi) hk)
  · next he =>
    refine (h.erase ht).lookup_congr h fun w => exists_congr fun i => ?_
    rw [at_erase ht]
    refine and_iff_right_of_imp fun hi hit => he ?_
    rw [hit] at hi
    exact (hi.inj hk).1

end SlotMap
