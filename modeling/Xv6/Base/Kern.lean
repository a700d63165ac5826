import Mathlib.Algebra.Group.Nat.Defs
import Mathlib.Algebra.Group.Int.Defs

/-!
# Kernel code as state transformers, and what holds after it

Kernel functions are written in the monad `Kern σ`: a function of the machine state `σ` that
either returns a value or stops for one of the reasons in `Halt`.  The state is kept in both
cases, because a kernel that panics has still written to the disk what it wrote before.

`wp m Q E s` is the weakest precondition of `m` at the state `s`: if `m` returns, the value and
the state satisfy `Q`; if it stops, the reason and the state satisfy `E`.  The two postconditions
are what let the same rules serve three kinds of statement: a function never panics (`E` false),
a function keeps an invariant in the runs that do not panic (`E` true), and a function panics
exactly under some condition.
-/

set_option autoImplicit false

namespace Xv6

/-- Why a kernel path does not return to its caller. -/
inductive Halt
  /-- `panic(msg)`. -/
  | panic (msg : String)
  /-- The path went to sleep and nobody woke it. -/
  | sleep
  /-- The path never ends. -/
  | diverge
  deriving DecidableEq, Repr

/-- Kernel code over the machine state `σ`. -/
abbrev Kern (σ α : Type) : Type := EStateM Halt σ α

open EStateM (Result)

variable {σ τ α β : Type}

/-- `panic(msg)`: the machine stops. -/
def panic (msg : String) : Kern σ α := fun s => .error (.panic msg) s

/-- `sleep(chan, lk)` with nobody to wake the path. -/
def sleep : Kern σ α := fun s => .error .sleep s

/-- A path that never ends. -/
def diverge : Kern σ α := fun s => .error .diverge s

/-- The state a path ends in, whether it returned or stopped. -/
def finalState (m : Kern σ α) (s : σ) : σ :=
  match m s with
  | .ok _ s' => s'
  | .error _ s' => s'

/-- Code over a component `τ` of the state, run on the whole state `σ`. -/
def zoom (get : σ → τ) (set : σ → τ → σ) (m : Kern τ α) : Kern σ α := fun s =>
  match m (get s) with
  | .ok a t => .ok a (set s t)
  | .error h t => .error h (set s t)

/-! ## Weakest preconditions -/

/-- `m`, run at `s`, returns with `Q` or stops with `E`. -/
def wp (m : Kern σ α) (Q : α → σ → Prop) (E : Halt → σ → Prop) (s : σ) : Prop :=
  match m s with
  | .ok a s' => Q a s'
  | .error h s' => E h s'

section Rules

variable {m : Kern σ α} {f : α → Kern σ β} {s s' : σ}
variable {Q Q' : α → σ → Prop} {R : β → σ → Prop} {E E' : Halt → σ → Prop}

theorem wp_of_ok {a : α} (h : m s = .ok a s') : wp m Q E s ↔ Q a s' := by
  rw [wp, h]

theorem wp_of_error {e : Halt} (h : m s = .error e s') : wp m Q E s ↔ E e s' := by
  rw [wp, h]

@[simp] theorem wp_pure (a : α) : wp (pure a : Kern σ α) Q E s ↔ Q a s := Iff.rfl

@[simp] theorem wp_panic (msg : String) :
    wp (panic msg : Kern σ α) Q E s ↔ E (.panic msg) s := Iff.rfl

@[simp] theorem wp_sleep : wp (sleep : Kern σ α) Q E s ↔ E .sleep s := Iff.rfl

@[simp] theorem wp_diverge : wp (diverge : Kern σ α) Q E s ↔ E .diverge s := Iff.rfl

@[simp] theorem wp_get {Q : σ → σ → Prop} : wp (get : Kern σ σ) Q E s ↔ Q s s := Iff.rfl

@[simp] theorem wp_modify {Q : PUnit → σ → Prop} (g : σ → σ) :
    wp (modify g : Kern σ PUnit) Q E s ↔ Q ⟨⟩ (g s) := Iff.rfl

@[simp] theorem wp_set {Q : PUnit → σ → Prop} (t : σ) :
    wp (set t : Kern σ PUnit) Q E s ↔ Q ⟨⟩ t := Iff.rfl

theorem bind_eq (m : Kern σ α) (f : α → Kern σ β) (s : σ) :
    (m >>= f) s = match m s with
      | .ok a s' => f a s'
      | .error e s' => .error e s' := by
  show EStateM.bind m f s = _
  rw [EStateM.bind]
  cases m s <;> rfl

@[simp] theorem wp_bind :
    wp (m >>= f) R E s ↔ wp m (fun a s' => wp (f a) R E s') E s := by
  rw [wp, wp, bind_eq]
  cases m s <;> rfl

@[simp] theorem wp_ite {p : Prop} [Decidable p] {m' : Kern σ α} :
    wp (if p then m else m') Q E s ↔ if p then wp m Q E s else wp m' Q E s := by
  split <;> rfl

/-- A path satisfies every weaker pair of postconditions. -/
theorem wp_mono (h : wp m Q E s) (hQ : ∀ a s', Q a s' → Q' a s') (hE : ∀ e s', E e s' → E' e s') :
    wp m Q' E' s := by
  rw [wp] at h ⊢
  cases hm : m s with
  | ok a s' => rw [hm] at h; exact hQ a s' h
  | error e s' => rw [hm] at h; exact hE e s' h

/-- What holds of everything holds after any path. -/
theorem wp_of_forall (hQ : ∀ a s', Q a s') (hE : ∀ e s', E e s') : wp m Q E s := by
  rw [wp]
  cases m s with
  | ok a s' => exact hQ a s'
  | error e s' => exact hE e s'

/-- Sequencing: establish an intermediate postcondition, then continue from it. -/
theorem wp_seq (h : wp m Q E s) (hf : ∀ a s', Q a s' → wp (f a) R E s') :
    wp (m >>= f) R E s :=
  wp_bind.2 (wp_mono h hf fun _ _ he => he)

/-- Reading a returned result off a weakest precondition. -/
theorem wp.ok {a : α} (h : wp m Q E s) (hm : m s = .ok a s') : Q a s' :=
  (wp_of_ok hm).1 h

theorem wp.error {e : Halt} (h : wp m Q E s) (hm : m s = .error e s') : E e s' :=
  (wp_of_error hm).1 h

/-- A path that can only return does return. -/
theorem wp.exists_ok (h : wp m Q (fun _ _ => False) s) : ∃ a s', m s = .ok a s' ∧ Q a s' := by
  rw [wp] at h
  cases hm : m s with
  | ok a s' => rw [hm] at h; exact ⟨a, s', rfl, h⟩
  | error e s' => rw [hm] at h; exact h.elim

/-- A property of the final state, whichever way the path ends. -/
theorem wp.finalState {P : σ → Prop} (h : wp m (fun _ => P) (fun _ => P) s) :
    P (finalState m s) := by
  rw [wp] at h
  rw [Xv6.finalState]
  cases hm : m s with
  | ok a s' => rw [hm] at h; exact h
  | error e s' => rw [hm] at h; exact h

end Rules

theorem wp_zoom {get : σ → τ} {set : σ → τ → σ} {m : Kern τ α} {s : σ}
    {Q : α → σ → Prop} {E : Halt → σ → Prop} :
    wp (zoom get set m) Q E s ↔
      wp m (fun a t => Q a (set s t)) (fun e t => E e (set s t)) (get s) := by
  rw [wp, wp, zoom]
  cases m (get s) <;> rfl

-- Code is reasoned about by these rules only.
attribute [irreducible] wp

end Xv6
