import Mathlib.Data.Set.Insert

/-!
# Pools

A pool hands out its elements and takes them back.  Its state is the set of those that are free:
only a free one is taken, and only one that is not free is given back.  In a run of such steps an
element that is taken twice has been given back in between (`Run.give_of_take_take`).
-/

set_option autoImplicit false

namespace Xv6.Pool

/-- What happens to a pool. -/
inductive Event (α : Type)
  | take (x : α)
  | give (x : α)

variable {α : Type} {free free' free'' : Set α} {x : α} {l l₁ l₂ l₃ : List (Event α)}

/-- One step of a pool. -/
inductive Step (free : Set α) : Event α → Set α → Prop
  | take {x : α} : x ∈ free → Step free (.take x) (free \ {x})
  | give {x : α} : x ∉ free → Step free (.give x) (insert x free)

/-- A run of a pool. -/
inductive Run : Set α → List (Event α) → Set α → Prop
  | nil (free : Set α) : Run free [] free
  | cons {free free' free'' : Set α} {e : Event α} {l : List (Event α)} :
    Step free e free' → Run free' l free'' → Run free (e :: l) free''

theorem Run.append (h : Run free l₁ free') (h' : Run free' l₂ free'') :
    Run free (l₁ ++ l₂) free'' := by
  induction h with
  | nil => exact h'
  | cons hs _ ih => exact .cons hs (ih h')

theorem Run.split (h : Run free (l₁ ++ l₂) free'') :
    ∃ free', Run free l₁ free' ∧ Run free' l₂ free'' := by
  induction l₁ generalizing free with
  | nil => exact ⟨free, .nil free, h⟩
  | cons e l₁ ih =>
    cases h with
    | cons hs h =>
      obtain ⟨free', h1, h2⟩ := ih h
      exact ⟨free', .cons hs h1, h2⟩

/-- An element becomes free by being given back. -/
theorem Run.give_of_mem (h : Run free l free') (hx : x ∉ free) (hx' : x ∈ free') :
    Event.give x ∈ l := by
  induction h with
  | nil => exact absurd hx' hx
  | cons hs _ ih =>
    cases hs with
    | take hy => exact List.mem_cons_of_mem _ (ih (fun hm => hx hm.1) hx')
    | @give y hy =>
      by_cases hxy : x = y
      · rw [hxy]
        exact List.mem_cons_self
      · exact List.mem_cons_of_mem _ (ih (fun hm => hm.elim hxy hx) hx')

/-- An element that is taken twice has been given back in between. -/
theorem Run.give_of_take_take (h : Run free (l₁ ++ .take x :: (l₂ ++ .take x :: l₃)) free') :
    Event.give x ∈ l₂ := by
  obtain ⟨f₁, -, h₁⟩ := h.split
  cases h₁ with
  | cons hs h₁ =>
    obtain ⟨f₂, h₂, h₃⟩ := h₁.split
    cases hs
    cases h₃ with
    | cons hs h₃ =>
      cases hs with
      | take hx => exact h₂.give_of_mem (fun hm => hm.2 rfl) hx

end Xv6.Pool
