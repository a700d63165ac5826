import Mathlib.Logic.Function.Basic
import Mathlib.Data.List.Basic
import Mathlib.Algebra.Group.Nat.Defs

/-!
# Ring buffers with wrapping counters

A ring buffer of `cap` cells with two counters that only ever go up, modulo `m`: the number of
elements taken and the number stored.  The cell of an element is its number modulo `cap`, so `cap`
has to divide `m` for the cells to stay right when a counter wraps.

`contents` is the queue that the buffer holds; storing appends to it and taking removes its head.
-/

set_option autoImplicit false

/-- A ring buffer: its cells, the number of elements taken and the number stored. -/
structure RingBuffer (α : Type) where
  data : Nat → α
  nread : Nat
  nwrite : Nat

namespace RingBuffer

variable {α : Type} {cap m : Nat} {x : RingBuffer α}

/-- How many elements the buffer holds. -/
def count (m : Nat) (x : RingBuffer α) : Nat := (x.nwrite + m - x.nread) % m

/-- The elements the buffer holds, oldest first. -/
def contents (cap m : Nat) (x : RingBuffer α) : List α :=
  (List.range (x.count m)).map fun j => x.data ((x.nread + j) % cap)

/-- Store an element. -/
def push (cap m : Nat) (x : RingBuffer α) (a : α) : RingBuffer α where
  data := Function.update x.data (x.nwrite % cap) a
  nread := x.nread
  nwrite := (x.nwrite + 1) % m

/-- Take the oldest element out. -/
def pop (m : Nat) (x : RingBuffer α) : RingBuffer α := { x with nread := (x.nread + 1) % m }

/-- The oldest element. -/
def front (cap : Nat) (x : RingBuffer α) : α := x.data (x.nread % cap)

/-- The counters are in range, and the buffer holds no more than its capacity. -/
structure Ok (cap m : Nat) (x : RingBuffer α) : Prop where
  nread_lt : x.nread < m
  nwrite_lt : x.nwrite < m
  count_le : x.count m ≤ cap

theorem length_contents : (x.contents cap m).length = x.count m := by
  rw [contents, List.length_map, List.length_range]

theorem count_cases (hr : x.nread < m) (hw : x.nwrite < m) :
    (x.nread ≤ x.nwrite ∧ x.count m = x.nwrite - x.nread) ∨
      (x.nwrite < x.nread ∧ x.count m = x.nwrite + m - x.nread) := by
  rw [count]
  rcases Nat.lt_or_ge x.nwrite x.nread with h | h
  · exact .inr ⟨h, Nat.mod_eq_of_lt (by omega)⟩
  · refine .inl ⟨h, ?_⟩
    rw [show x.nwrite + m - x.nread = x.nwrite - x.nread + m by omega, Nat.add_mod_right]
    exact Nat.mod_eq_of_lt (by omega)

theorem succ_mod_cases {a m : Nat} (h : a < m) :
    (a + 1 = m ∧ (a + 1) % m = 0) ∨ (a + 1 < m ∧ (a + 1) % m = a + 1) := by
  rcases Nat.lt_or_ge (a + 1) m with hlt | hge
  · exact .inr ⟨hlt, Nat.mod_eq_of_lt hlt⟩
  · have he : a + 1 = m := by omega
    exact .inl ⟨he, by rw [he, Nat.mod_self]⟩

theorem add_mod_cases {a b m : Nat} (ha : a < m) (hb : b < m) :
    (a + b < m ∧ (a + b) % m = a + b) ∨ (m ≤ a + b ∧ (a + b) % m = a + b - m) := by
  rcases Nat.lt_or_ge (a + b) m with h | h
  · exact .inl ⟨h, Nat.mod_eq_of_lt h⟩
  · refine .inr ⟨h, ?_⟩
    rw [Nat.mod_eq_sub_mod h]
    exact Nat.mod_eq_of_lt (by omega)

/-- The counters agree exactly when the buffer is empty. -/
theorem Ok.empty_iff (h : x.Ok cap m) : x.nread = x.nwrite ↔ x.count m = 0 := by
  have h1 := h.nread_lt
  have h2 := h.nwrite_lt
  rcases count_cases h1 h2 with hc | hc <;> omega

/-- A buffer whose counters agree is sound and empty. -/
theorem ok_of_eq (h : x.nread = x.nwrite) (hlt : x.nwrite < m) :
    x.Ok cap m ∧ x.contents cap m = [] := by
  have hc : x.count m = 0 := by
    rw [count, h, Nat.add_sub_cancel_left, Nat.mod_self]
  exact ⟨⟨h ▸ hlt, hlt, hc ▸ Nat.zero_le cap⟩, List.length_eq_zero_iff.1 (length_contents.trans hc)⟩

/-- The counters differ by the capacity exactly when the buffer is full. -/
theorem Ok.full_iff (h : x.Ok cap m) (hm : cap < m) :
    x.nwrite = (x.nread + cap) % m ↔ x.count m = cap := by
  have h1 := h.nread_lt
  have h2 := h.nwrite_lt
  rcases count_cases h1 h2 with hc | hc <;> rcases add_mod_cases h1 hm with ha | ha <;> omega

/-- The cell of the next element. -/
theorem nwrite_mod (hr : x.nread < m) (hw : x.nwrite < m) (hd : cap ∣ m) :
    x.nwrite % cap = (x.nread + x.count m) % cap := by
  rcases count_cases hr hw with ⟨hle, hc⟩ | ⟨hlt, hc⟩
  · rw [hc, Nat.add_sub_cancel' hle]
  · rw [show x.nread + x.count m = x.nwrite + m by omega, Nat.add_mod,
      Nat.mod_eq_zero_of_dvd hd, Nat.add_zero, Nat.mod_mod]

/-- Different elements are in different cells. -/
theorem cell_ne {r i k : Nat} (hi : i < k) (hk : k < cap) : (r + i) % cap ≠ (r + k) % cap := by
  intro he
  have hd : cap ∣ (r + k) - (r + i) :=
    Nat.dvd_of_mod_eq_zero (Nat.sub_mod_eq_zero_of_mod_eq he.symm)
  have h0 : (r + k) - (r + i) = 0 := Nat.eq_zero_of_dvd_of_lt hd (by omega)
  omega

theorem Ok.count_push (h : x.Ok cap m) (hm : cap < m) (hc : x.count m < cap) (a : α) :
    (x.push cap m a).count m = x.count m + 1 := by
  have h1 := h.nread_lt
  have h2 := h.nwrite_lt
  have hw : (x.push cap m a).nwrite = (x.nwrite + 1) % m := rfl
  have hr : (x.push cap m a).nread = x.nread := rfl
  have hlt : (x.push cap m a).nwrite < m := Nat.mod_lt _ (by omega)
  rcases count_cases h1 h2 with h3 | h3 <;>
    rcases count_cases (x := x.push cap m a) h1 hlt with h4 | h4 <;>
      rcases succ_mod_cases h2 with h5 | h5 <;> omega

/-- Storing into a buffer that is not full appends. -/
theorem Ok.push (h : x.Ok cap m) (hm : cap < m) (hd : cap ∣ m) (hc : x.count m < cap) (a : α) :
    (x.push cap m a).Ok cap m ∧ (x.push cap m a).contents cap m = x.contents cap m ++ [a] := by
  have hcount := h.count_push hm hc a
  refine ⟨⟨h.nread_lt, Nat.mod_lt _ (by omega), by omega⟩, ?_⟩
  rw [contents, contents, hcount, List.range_succ, List.map_append, List.map_singleton]
  have hcell : x.nwrite % cap = (x.nread + x.count m) % cap := nwrite_mod h.nread_lt h.nwrite_lt hd
  have hdata : (x.push cap m a).data = Function.update x.data ((x.nread + x.count m) % cap) a := by
    rw [← hcell]
    rfl
  have hr : (x.push cap m a).nread = x.nread := rfl
  rw [hdata, hr, Function.update_self]
  congr 1
  refine List.map_congr_left fun j hj => ?_
  exact Function.update_of_ne (cell_ne (List.mem_range.1 hj) hc) _ _

theorem Ok.count_pop (h : x.Ok cap m) (hc : 0 < x.count m) :
    (x.pop m).count m + 1 = x.count m := by
  have h1 := h.nread_lt
  have h2 := h.nwrite_lt
  have hr : (x.pop m).nread = (x.nread + 1) % m := rfl
  have hw : (x.pop m).nwrite = x.nwrite := rfl
  have hlt : (x.pop m).nread < m := Nat.mod_lt _ (by omega)
  rcases count_cases h1 h2 with h3 | h3 <;>
    rcases count_cases (x := x.pop m) hlt h2 with h4 | h4 <;>
      rcases succ_mod_cases h1 with h5 | h5 <;> omega

/-- Taking from a buffer that is not empty removes the oldest element. -/
theorem Ok.pop (h : x.Ok cap m) (hd : cap ∣ m) (hc : 0 < x.count m) :
    (x.pop m).Ok cap m ∧ x.contents cap m = x.front cap :: (x.pop m).contents cap m := by
  have hcount := h.count_pop hc
  have hle := h.count_le
  have hlt := h.nread_lt
  refine ⟨⟨Nat.mod_lt _ (by omega), h.nwrite_lt, by omega⟩, ?_⟩
  rw [contents, contents, ← hcount, List.range_succ_eq_map, List.map_cons, List.map_map]
  refine congrArg₂ List.cons rfl (List.map_congr_left fun j _ => ?_)
  have hcell : ((x.nread + 1) % m + j) % cap = (x.nread + (j + 1)) % cap := by
    rw [Nat.add_mod, Nat.mod_mod_of_dvd _ hd, ← Nat.add_mod]
    congr 1
    omega
  exact congrArg x.data hcell.symm

/-- Take the newest element back. -/
def unpush (m : Nat) (x : RingBuffer α) : RingBuffer α :=
  { x with nwrite := (x.nwrite + m - 1) % m }

theorem pred_mod_cases {a m : Nat} (h : a < m) :
    (a = 0 ∧ (a + m - 1) % m = m - 1) ∨ (0 < a ∧ (a + m - 1) % m = a - 1) := by
  rcases Nat.eq_zero_or_pos a with rfl | hpos
  · refine .inl ⟨rfl, ?_⟩
    rw [Nat.zero_add, Nat.mod_eq_of_lt (by omega)]
  · refine .inr ⟨hpos, ?_⟩
    rw [show a + m - 1 = a - 1 + m by omega, Nat.add_mod_right, Nat.mod_eq_of_lt (by omega)]

theorem Ok.count_unpush (h : x.Ok cap m) (hc : 0 < x.count m) :
    (x.unpush m).count m + 1 = x.count m := by
  have h1 := h.nread_lt
  have h2 := h.nwrite_lt
  have hr : (x.unpush m).nread = x.nread := rfl
  have hw : (x.unpush m).nwrite = (x.nwrite + m - 1) % m := rfl
  have hlt : (x.unpush m).nwrite < m := Nat.mod_lt _ (by omega)
  rcases count_cases h1 h2 with h3 | h3 <;>
    rcases count_cases (x := x.unpush m) h1 hlt with h4 | h4 <;>
      rcases pred_mod_cases h2 with h5 | h5 <;> omega

/-- Taking the newest element back from a buffer that is not empty removes the last one. -/
theorem Ok.unpush (h : x.Ok cap m) (hd : cap ∣ m) (hc : 0 < x.count m) :
    (x.unpush m).Ok cap m ∧ x.contents cap m =
      (x.unpush m).contents cap m ++ [x.data ((x.unpush m).nwrite % cap)] := by
  have hcount := h.count_unpush hc
  have hle := h.count_le
  have hlt := h.nwrite_lt
  have hok : (x.unpush m).Ok cap m := ⟨h.nread_lt, Nat.mod_lt _ (by omega), by omega⟩
  refine ⟨hok, ?_⟩
  have hlast := nwrite_mod hok.nread_lt hok.nwrite_lt hd
  rw [contents, contents, ← hcount, List.range_succ, List.map_append, List.map_singleton, hlast]
  rfl

/-- A buffer read in two parts, up to a counter in between and from there on. -/
theorem contents_append (hd : cap ∣ m) {d : Nat → α} {r w e : Nat} (hr : r < m) (hw : w < m)
    (he : e < m) (hle : count m ⟨d, r, w⟩ + count m ⟨d, w, e⟩ < m) :
    count m ⟨d, r, e⟩ = count m ⟨d, r, w⟩ + count m ⟨d, w, e⟩ ∧
      contents cap m ⟨d, r, e⟩ = contents cap m ⟨d, r, w⟩ ++ contents cap m ⟨d, w, e⟩ := by
  have hcount : count m ⟨d, r, e⟩ = count m ⟨d, r, w⟩ + count m ⟨d, w, e⟩ := by
    rcases count_cases (x := ⟨d, r, w⟩) hr hw with h1 | h1 <;>
      rcases count_cases (x := ⟨d, w, e⟩) hw he with h2 | h2 <;>
        rcases count_cases (x := ⟨d, r, e⟩) hr he with h3 | h3 <;>
          simp only at h1 h2 h3 <;> omega
  refine ⟨hcount, ?_⟩
  rw [contents, contents, contents, hcount, List.range_add, List.map_append, List.map_map]
  congr 1
  refine List.map_congr_left fun j _ => congrArg d ?_
  -- the cell of the element is the same from both counters
  have hcell : w % cap = (r + count m ⟨d, r, w⟩) % cap :=
    nwrite_mod (x := ⟨d, r, w⟩) hr hw hd
  show (r + (count m ⟨d, r, w⟩ + j)) % cap = (w + j) % cap
  rw [← Nat.add_assoc, Nat.add_mod, ← hcell, ← Nat.add_mod]

end RingBuffer
