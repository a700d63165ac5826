import Mathlib.Logic.Function.Basic
import Mathlib.Data.List.Nodup

/-!
# Circular doubly linked lists

Nodes with a `next` and a `prev` link, threaded into a ring through a header `h`.  `Ring x h l`
says that the ring of `h` holds the nodes `l`, in the order of the `next` links, and that the
`prev` links run the other way; it is made of segments, on which the links of distinct nodes can
be changed one at a time.

The three things code does with such a ring are to put a node at its front, to take one out, and
to look for one from either end: `Ring.insert`, `Ring.remove` and `Ring.scan_next`,
`Ring.scan_prev` say what they do to the list.
-/

set_option autoImplicit false

/-- The links of the nodes. -/
structure Linked (α : Type) where
  next : α → α
  prev : α → α

namespace Linked

variable {α : Type}

/-- `x` links `a` to `b` through the nodes of a list, in both directions. -/
def Seg (x : Linked α) (a : α) : List α → α → Prop
  | [], b => x.next a = b ∧ x.prev b = a
  | c :: l, b => x.next a = c ∧ x.prev c = a ∧ Seg x c l b

/-- The ring of the header `h` holds the nodes `l`. -/
structure Ring (x : Linked α) (h : α) (l : List α) : Prop where
  nodup : (h :: l).Nodup
  seg : x.Seg h l h

/-- The links the other way round. -/
def flip (x : Linked α) : Linked α where
  next := x.prev
  prev := x.next

/-- The first node from `b` on, along `step`, that passes the test or is the header.  `fuel` bounds
the number of nodes looked at. -/
def scan [DecidableEq α] (step : α → α) (h : α) (test : α → Bool) : Nat → α → Option α
  | 0, _ => none
  | fuel + 1, b => if b = h ∨ test b = true then some b else scan step h test fuel (step b)

section Segments

variable {x y : Linked α} {a b c : α} {l l₁ l₂ : List α}

theorem Seg.next_mem (h : x.Seg a l b) : x.next a ∈ l ++ [b] := by
  cases l with
  | nil => exact List.mem_singleton.2 h.1
  | cons c l => exact List.mem_cons.2 (.inl h.1)

theorem Seg.prev_mem (h : x.Seg a l b) : x.prev b ∈ a :: l := by
  induction l generalizing a with
  | nil => exact List.mem_singleton.2 h.2
  | cons c l ih => exact List.mem_cons_of_mem a (ih h.2.2)

/-- A segment reads the `next` links of all its nodes but the last, and the `prev` links of all
but the first. -/
theorem Seg.congr (h : x.Seg a l b) (hn : ∀ c ∈ a :: l, y.next c = x.next c)
    (hp : ∀ c ∈ l ++ [b], y.prev c = x.prev c) : y.Seg a l b := by
  induction l generalizing a with
  | nil =>
    exact ⟨(hn a (List.mem_singleton.2 rfl)).trans h.1, (hp b (List.mem_singleton.2 rfl)).trans h.2⟩
  | cons c l ih =>
    refine ⟨(hn a List.mem_cons_self).trans h.1, (hp c List.mem_cons_self).trans h.2.1,
      ih h.2.2 (fun d hd => hn d (List.mem_cons_of_mem a hd)) fun d hd => hp d ?_⟩
    exact List.mem_cons_of_mem c hd

theorem seg_append : x.Seg a (l₁ ++ c :: l₂) b ↔ x.Seg a l₁ c ∧ x.Seg c l₂ b := by
  induction l₁ generalizing a with
  | nil => exact and_assoc.symm
  | cons d l₁ ih =>
    rw [List.cons_append, Seg, Seg, ih]
    exact ⟨fun ⟨h1, h2, h3, h4⟩ => ⟨⟨h1, h2, h3⟩, h4⟩, fun ⟨⟨h1, h2, h3⟩, h4⟩ => ⟨h1, h2, h3, h4⟩⟩

theorem Seg.flip (h : x.Seg a l b) : x.flip.Seg b l.reverse a := by
  induction l generalizing a with
  | nil => exact ⟨h.2, h.1⟩
  | cons c l ih =>
    rw [List.reverse_cons]
    exact seg_append.2 ⟨ih h.2.2, h.2.1, h.1⟩

end Segments

theorem Ring.flip {x : Linked α} {h : α} {l : List α} (hr : x.Ring h l) :
    x.flip.Ring h l.reverse := by
  refine ⟨?_, hr.seg.flip⟩
  have hnd := hr.nodup
  rw [List.nodup_cons] at hnd ⊢
  exact ⟨fun hm => hnd.1 (List.mem_reverse.1 hm), List.nodup_reverse.2 hnd.2⟩

section Scan

variable [DecidableEq α] {x : Linked α} {h a : α} {l : List α} {test : α → Bool} {fuel : Nat}

theorem Seg.scan (hs : x.Seg a l h) (hh : h ∉ l) (hf : l.length < fuel) :
    scan x.next h test fuel (x.next a) = some ((l.find? test).getD h) := by
  induction l generalizing a fuel with
  | nil =>
    obtain ⟨f, rfl⟩ : ∃ f, fuel = f + 1 := ⟨fuel - 1, by omega⟩
    rw [hs.1, Linked.scan, if_pos (.inl rfl), List.find?_nil, Option.getD_none]
  | cons c l ih =>
    obtain ⟨f, rfl⟩ : ∃ f, fuel = f + 1 := ⟨fuel - 1, by omega⟩
    have hne : c ≠ h := fun he => hh (he ▸ List.mem_cons_self)
    rw [hs.1, Linked.scan, List.find?_cons]
    cases ht : test c with
    | true => rw [if_pos (.inr rfl)]; rfl
    | false =>
      rw [if_neg (fun hc => hc.elim hne Bool.false_ne_true)]
      exact ih hs.2.2 (fun hm => hh (List.mem_cons_of_mem c hm)) (Nat.lt_of_succ_lt_succ hf)

/-- A search from the front finds the first node of the list that passes the test, or stops at
the header. -/
theorem Ring.scan_next (hr : x.Ring h l) (hf : l.length < fuel) :
    scan x.next h test fuel (x.next h) = some ((l.find? test).getD h) :=
  hr.seg.scan (List.nodup_cons.1 hr.nodup).1 hf

/-- A search from the back finds the last one. -/
theorem Ring.scan_prev (hr : x.Ring h l) (hf : l.length < fuel) :
    scan x.prev h test fuel (x.prev h) = some ((l.reverse.find? test).getD h) :=
  hr.flip.scan_next (by rwa [List.length_reverse])

end Scan

section Links

variable [DecidableEq α]

/-- `a->next = b`. -/
def setNext (x : Linked α) (a b : α) : Linked α := { x with next := Function.update x.next a b }

/-- `a->prev = b`. -/
def setPrev (x : Linked α) (a b : α) : Linked α := { x with prev := Function.update x.prev a b }

/-- Put `b` at the front of the ring of `h`. -/
def insert (x : Linked α) (h b : α) : Linked α :=
  let x := x.setNext b (x.next h)
  let x := x.setPrev b h
  let x := x.setPrev (x.next h) b
  x.setNext h b

/-- Take `b` out of its ring. -/
def remove (x : Linked α) (b : α) : Linked α :=
  let x := x.setPrev (x.next b) (x.prev b)
  x.setNext (x.prev b) (x.next b)

variable {x : Linked α} {a b c h : α} {l l₁ l₂ : List α}

theorem insert_next (c : α) :
    (x.insert h b).next c = if c = h then b else if c = b then x.next h else x.next c := by
  simp only [insert, setNext, setPrev, Function.update_apply]

theorem insert_prev (hb : b ≠ h) (c : α) :
    (x.insert h b).prev c = if c = x.next h then b else if c = b then h else x.prev c := by
  simp only [insert, setNext, setPrev, Function.update_apply, if_neg hb.symm]

theorem remove_next (hn : x.next b ≠ b) (c : α) :
    (x.remove b).next c = if c = x.prev b then x.next b else x.next c := by
  simp only [remove, setNext, setPrev, Function.update_apply, if_neg hn.symm]

theorem remove_prev (c : α) :
    (x.remove b).prev c = if c = x.next b then x.prev b else x.prev c := by
  simp only [remove, setNext, setPrev, Function.update_apply]

/-- Putting a node at the front of a ring that does not hold it. -/
theorem Ring.insert (hr : x.Ring h l) (hb : b ∉ h :: l) : (x.insert h b).Ring h (b :: l) := by
  rw [List.mem_cons, not_or] at hb
  obtain ⟨hbh, hbl⟩ := hb
  obtain ⟨hhl, hnd⟩ := List.nodup_cons.1 hr.nodup
  refine ⟨?_, ?_⟩
  · refine List.nodup_cons.2 ⟨?_, List.nodup_cons.2 ⟨hbl, hnd⟩⟩
    rw [List.mem_cons, not_or]
    exact ⟨Ne.symm hbh, hhl⟩
  have hh : (x.insert h b).next h = b := by rw [insert_next, if_pos rfl]
  have hbn : (x.insert h b).next b = x.next h := by rw [insert_next, if_neg hbh, if_pos rfl]
  have hfp : (x.insert h b).prev (x.next h) = b := by rw [insert_prev hbh, if_pos rfl]
  have hseg := hr.seg
  have hbf : b ≠ x.next h := by
    intro he
    have hm := hseg.next_mem
    rw [← he, List.mem_append, List.mem_singleton] at hm
    exact hm.elim hbl hbh
  have hbp : (x.insert h b).prev b = h := by
    rw [insert_prev hbh, if_neg hbf, if_pos rfl]
  refine ⟨hh, hbp, ?_⟩
  cases l with
  | nil =>
    rw [hseg.1] at hbn hfp
    exact ⟨hbn, hfp⟩
  | cons f l =>
    obtain ⟨hnf, -, hrest⟩ := hseg
    rw [hnf] at hbn hfp
    obtain ⟨hfl, -⟩ := List.nodup_cons.1 hnd
    refine ⟨hbn, hfp, hrest.congr (fun d hd => ?_) fun d hd => ?_⟩
    · -- `d` is neither the header nor the new node
      have hdh : d ≠ h := fun he => hhl (he ▸ hd)
      have hdb : d ≠ b := fun he => hbl (he ▸ hd)
      rw [insert_next, if_neg hdh, if_neg hdb]
    · have hdf : d ≠ f := by
        rintro rfl
        rw [List.mem_append, List.mem_singleton] at hd
        exact hd.elim hfl fun he => hhl (he ▸ List.mem_cons_self)
      have hdb : d ≠ b := by
        rintro rfl
        rw [List.mem_append, List.mem_singleton] at hd
        exact hd.elim (fun hm => hbl (List.mem_cons_of_mem f hm)) hbh
      rw [insert_prev hbh, hnf, if_neg hdf, if_neg hdb]

/-- Taking out the node between two segments joins them. -/
theorem Seg.remove (h₁ : x.Seg a l₁ b) (h₂ : x.Seg b l₂ c) (hnd : (a :: l₁ ++ b :: l₂).Nodup)
    (hc : c ∉ l₁ ++ b :: l₂) : (x.remove b).Seg a (l₁ ++ l₂) c := by
  have hbc : b ≠ c := fun he => hc (he ▸ List.mem_append_right _ List.mem_cons_self)
  have hbl : b ∉ l₂ := (List.nodup_cons.1 (List.nodup_append.1 hnd).2.1).1
  have hn : x.next b ≠ b := by
    intro he
    have hm := h₂.next_mem
    rw [he, List.mem_append, List.mem_singleton] at hm
    exact hm.elim hbl hbc
  induction l₁ generalizing a with
  | nil =>
    obtain ⟨hab, hba⟩ := h₁
    rw [List.nil_append]
    have hna : (x.remove b).next a = x.next b := by rw [remove_next hn, if_pos hba.symm]
    have hpa : (x.remove b).prev (x.next b) = a := by rw [remove_prev, if_pos rfl, hba]
    cases l₂ with
    | nil =>
      rw [h₂.1] at hna hpa
      exact ⟨hna, hpa⟩
    | cons q l₂ =>
      obtain ⟨hbq, -, hrest⟩ := h₂
      rw [hbq] at hna hpa
      have hal : a ∉ q :: l₂ := fun hm =>
        (List.nodup_cons.1 hnd).1 (List.mem_cons_of_mem b hm)
      have hql : q ∉ l₂ := (List.nodup_cons.1 (List.nodup_cons.1 (List.nodup_cons.1 hnd).2).2).1
      have hqc : q ≠ c := fun he => hc (he ▸ List.mem_cons_of_mem b List.mem_cons_self)
      refine ⟨hna, hpa, hrest.congr (fun d hd => ?_) fun d hd => ?_⟩
      · have hda : d ≠ a := fun he => hal (he ▸ hd)
        rw [remove_next hn, hba, if_neg hda]
      · have hdq : d ≠ q := by
          rintro rfl
          rw [List.mem_append, List.mem_singleton] at hd
          exact hd.elim hql hqc
        rw [remove_prev, hbq, if_neg hdq]
  | cons d l₁ ih =>
    obtain ⟨had, hda, h₁⟩ := h₁
    have hnd' := List.nodup_cons.1 hnd
    have hpm : x.prev b ∈ d :: l₁ := h₁.prev_mem
    have hqm := h₂.next_mem
    refine ⟨?_, ?_, ih h₁ hnd'.2 fun hm => hc (List.mem_cons_of_mem d hm)⟩
    · have hap : a ≠ x.prev b := fun he => hnd'.1 (List.mem_append_left _ (he ▸ hpm))
      rw [remove_next hn, if_neg hap, had]
    · have hdq : d ≠ x.next b := by
        intro he
        rw [← he, List.mem_append, List.mem_singleton] at hqm
        rcases hqm with hm | hm
        · exact (List.nodup_cons.1 hnd'.2).1
            (List.mem_append_right _ (List.mem_cons_of_mem b hm))
        · exact hc (hm ▸ List.mem_cons_self)
      rw [remove_prev, if_neg hdq, hda]

/-- Taking a node out of its ring. -/
theorem Ring.remove (hr : x.Ring h (l₁ ++ b :: l₂)) : (x.remove b).Ring h (l₁ ++ l₂) := by
  obtain ⟨hhl, hnd⟩ := List.nodup_cons.1 hr.nodup
  obtain ⟨h₁, h₂⟩ := seg_append.1 hr.seg
  have hsub : (l₁ ++ l₂).Sublist (l₁ ++ b :: l₂) :=
    (List.Sublist.refl l₁).append (List.sublist_cons_self b l₂)
  exact ⟨List.nodup_cons.2 ⟨fun hm => hhl (hsub.subset hm), hnd.sublist hsub⟩,
    h₁.remove h₂ hr.nodup hhl⟩

end Links

end Linked
