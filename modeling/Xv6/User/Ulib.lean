import Xv6.Base.Bytes

/-!
# Strings and copies

Functions of `user/ulib.c` on the memory of a program.  `Holds b p xs` says that the bytes `xs` are at
the address `p`; a C string is followed by a zero there.
-/

set_option autoImplicit false

namespace Xv6.User

/-! ## `memmove` -/

/-- The first loop of `memmove`, upwards. -/
def copyUp (b : Bytes) (dst src : Nat) : Nat → Bytes
  | 0 => b
  | n + 1 => copyUp (Function.update b dst (b src)) (dst + 1) (src + 1) n

/-- The second loop of `memmove`, downwards from the end. -/
def copyDown (b : Bytes) (dst src : Nat) : Nat → Bytes
  | 0 => b
  | n + 1 => copyDown (Function.update b (dst + n) (b (src + n))) dst src n

/-- `memmove(vdst, vsrc, n)`. -/
def memmove (b : Bytes) (dst src : Nat) (n : Int) : Bytes :=
  if src > dst then copyUp b dst src n.toNat else copyDown b dst src n.toNat

/-- Going up, the bytes that are still to be copied are ahead of those written. -/
theorem copyUp_eq : ∀ {n : Nat} {b : Bytes} {dst src : Nat}, dst < src →
    copyUp b dst src n = blit b dst (fun i => b (src + i)) n
  | 0, b, dst, src, _ => (blit_zero b dst _).symm
  | n + 1, b, dst, src, h => by
    rw [copyUp, copyUp_eq (by omega)]
    funext i
    rw [blit, blit]
    by_cases hi : i = dst
    · rw [if_neg (by omega), if_pos (by omega), hi, Function.update_self, Nat.sub_self, Nat.add_zero]
    · by_cases hin : dst + 1 ≤ i ∧ i < dst + 1 + n
      · rw [if_pos hin, if_pos (by omega), Function.update_of_ne (by omega)]
        congr 1
        omega
      · rw [if_neg hin, if_neg (by omega), Function.update_of_ne hi]

/-- Going down, they are below. -/
theorem copyDown_eq : ∀ {n : Nat} {b : Bytes} {dst src : Nat}, src ≤ dst →
    copyDown b dst src n = blit b dst (fun i => b (src + i)) n
  | 0, b, dst, src, _ => (blit_zero b dst _).symm
  | n + 1, b, dst, src, h => by
    rw [copyDown, copyDown_eq h]
    funext i
    rw [blit, blit]
    by_cases hi : i = dst + n
    · rw [if_neg (by omega), if_pos (by omega), hi, Function.update_self]
      congr 1
      omega
    · by_cases hin : dst ≤ i ∧ i < dst + n
      · rw [if_pos hin, if_pos (by omega), Function.update_of_ne (by omega)]
      · rw [if_neg hin, if_neg (by omega), Function.update_of_ne hi]

/-- **`memmove` copies what was there before**, however the two ranges overlap. -/
theorem memmove_eq (b : Bytes) (dst src : Nat) (n : Int) :
    memmove b dst src n = blit b dst (fun i => b (src + i)) n.toNat := by
  rw [memmove]
  split
  · next h => exact copyUp_eq h
  · next h => exact copyDown_eq (Nat.le_of_not_lt h)

/-! ## Strings in memory -/

/-- The bytes `xs` are at `p`. -/
def Holds (b : Bytes) (p : Nat) : List UInt8 → Prop
  | [] => True
  | x :: xs => b p = x ∧ Holds b (p + 1) xs

theorem holds_append {b : Bytes} : ∀ {xs ys : List UInt8} {p : Nat},
    Holds b p (xs ++ ys) ↔ Holds b p xs ∧ Holds b (p + xs.length) ys
  | [], ys, p => by rw [List.nil_append, Holds, true_and, List.length_nil, Nat.add_zero]
  | x :: xs, ys, p => by
    rw [List.cons_append, Holds, Holds, holds_append, List.length_cons, and_assoc,
      Nat.add_assoc, Nat.add_comm 1]

theorem Holds.congr {b b' : Bytes} : ∀ {xs : List UInt8} {p : Nat}, Holds b p xs →
    (∀ i, p ≤ i → i < p + xs.length → b' i = b i) → Holds b' p xs
  | [], _, _, _ => trivial
  | x :: xs, p, h, hb => by
    rw [List.length_cons] at hb
    exact ⟨(hb p (Nat.le_refl p) (by omega)).trans h.1,
      h.2.congr fun i h1 h2 => hb i (by omega) (by omega)⟩

/-- The bytes at `p`, one by one. -/
theorem Holds.map_range {b : Bytes} : ∀ {xs : List UInt8} {p : Nat}, Holds b p xs →
    ((List.range xs.length).map fun i => b (p + i)) = xs
  | [], _, _ => rfl
  | x :: xs, p, h => by
    have hrest : ((List.range xs.length).map fun i => b (p + (i + 1))) = xs := by
      rw [← h.2.map_range, List.length_map, List.length_range]
      refine List.map_congr_left fun i _ => ?_
      rw [Nat.add_assoc, Nat.add_comm 1]
    rw [List.length_cons, List.range_succ_eq_map, List.map_cons, List.map_map]
    exact List.cons_eq_cons.2 ⟨h.1, hrest⟩

theorem Holds.getD {b : Bytes} : ∀ {xs : List UInt8} {p : Nat}, Holds b p xs →
    ∀ i, i < xs.length → b (p + i) = xs.getD i 0
  | [], _, _, _, hi => absurd hi (Nat.not_lt_zero _)
  | x :: xs, p, h, 0, _ => h.1
  | x :: xs, p, h, i + 1, hi => by
    rw [List.getD_cons_succ, ← h.2.getD i (Nat.lt_of_succ_lt_succ hi), Nat.add_assoc, Nat.add_comm 1]

theorem holds_blit_add (b : Bytes) (p : Nat) (src : Bytes) : ∀ {xs : List UInt8} {k : Nat},
    (∀ i, i < xs.length → src (k + i) = xs.getD i 0) →
    ∀ n, k + xs.length ≤ n → Holds (blit b p src n) (p + k) xs
  | [], _, _, _, _ => trivial
  | x :: xs, k, h, n, hn => by
    rw [List.length_cons] at h hn
    refine ⟨?_, ?_⟩
    · rw [blit, if_pos (by omega), Nat.add_sub_cancel_left]
      exact h 0 (by omega)
    · rw [Nat.add_assoc]
      refine holds_blit_add b p src (fun i hi => ?_) n (by omega)
      have hnext := h (i + 1) (by omega)
      rw [List.getD_cons_succ] at hnext
      rw [Nat.add_assoc, Nat.add_comm 1]
      exact hnext

/-- A copy of a list of bytes. -/
theorem holds_blit (b : Bytes) (p : Nat) {src : Bytes} {xs : List UInt8} {n : Nat}
    (h : ∀ i, i < xs.length → src i = xs.getD i 0) (hn : xs.length ≤ n) :
    Holds (blit b p src n) p xs := by
  have hadd := holds_blit_add b p src (k := 0) (fun i hi => (congrArg src (Nat.zero_add i)).trans (h i hi)) n
    (by omega)
  exact hadd

/-- The string at `p`, of at most `k` characters. -/
def cstr (b : Bytes) : Nat → Nat → List UInt8
  | 0, _ => []
  | k + 1, p => if b p = 0 then [] else b p :: cstr b k (p + 1)

theorem cstr_eq {b : Bytes} : ∀ {xs : List UInt8} {p k : Nat}, Holds b p xs →
    b (p + xs.length) = 0 → 0 ∉ xs → xs.length < k → cstr b k p = xs
  | _, _, 0, _, _, _, hk => absurd hk (Nat.not_lt_zero _)
  | [], p, k + 1, _, hz, _, _ => by rw [cstr, if_pos (by simpa using hz)]
  | x :: xs, p, k + 1, h, hz, h0, hk => by
    rw [List.length_cons] at hz hk
    have hx : b p ≠ 0 := fun hb => h0 (by rw [← hb, h.1]; exact List.mem_cons_self)
    rw [cstr, if_neg hx, h.1, cstr_eq h.2 (by rw [Nat.add_assoc, Nat.add_comm 1]; exact hz)
      (fun hm => h0 (List.mem_cons_of_mem _ hm)) (by omega)]

end Xv6.User
