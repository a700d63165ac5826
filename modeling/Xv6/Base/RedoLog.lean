import Mathlib.Logic.Function.Basic

/-!
# A redo log on a disk whose single-block writes are atomic

A transaction `t` is a list of writes to home blocks.  A redo log first writes a copy of every
new content to its own area of the disk, then one header block that lists the home blocks, then
the home blocks, and at last a header that lists nothing.  A crash keeps some prefix of that
sequence; recovery repeats the home writes from the copies if the header lists any.

Everything about crashes follows from two descriptions of a disk.  `Clean d₀ d`: the header lists
nothing and the home blocks are those of `d₀`.  `Logged t d₀ d`: the header lists `t`, the copies
are `t`'s contents, and outside `t` the home blocks are those of `d₀`; what the home blocks of
`t` hold does not matter.  Each write of the protocol moves between these two
(`commit_take`, `recover_take`), so a crash anywhere, and crashes during recovery, leave one of
them, and a finished recovery leaves `Clean`.
-/

set_option autoImplicit false

namespace Xv6

section Writes

variable {ι β : Type} [DecidableEq ι]

/-- The disk after a sequence of single-block writes. -/
def applyWrites (d : ι → β) (ws : List (ι × β)) : ι → β :=
  ws.foldl (fun d w => Function.update d w.1 w.2) d

@[simp] theorem applyWrites_nil (d : ι → β) : applyWrites d [] = d := rfl

@[simp] theorem applyWrites_cons (d : ι → β) (w : ι × β) (ws : List (ι × β)) :
    applyWrites d (w :: ws) = applyWrites (Function.update d w.1 w.2) ws := rfl

theorem applyWrites_append (d : ι → β) (ws vs : List (ι × β)) :
    applyWrites d (ws ++ vs) = applyWrites (applyWrites d ws) vs :=
  List.foldl_append

theorem applyWrites_singleton (d : ι → β) (w : ι × β) :
    applyWrites d [w] = Function.update d w.1 w.2 := rfl

/-- A block that is not written keeps its content. -/
theorem applyWrites_of_not_mem {ws : List (ι × β)} {b : ι} (d : ι → β)
    (h : b ∉ ws.map Prod.fst) : applyWrites d ws b = d b := by
  induction ws generalizing d with
  | nil => rfl
  | cons w ws ih =>
    rw [List.map_cons, List.mem_cons, not_or] at h
    rw [applyWrites_cons, ih _ h.2, Function.update_of_ne h.1]

/-- The content of a written block does not depend on what it held before. -/
theorem applyWrites_congr {ws : List (ι × β)} {b : ι} {d e : ι → β}
    (h : b ∈ ws.map Prod.fst ∨ d b = e b) : applyWrites d ws b = applyWrites e ws b := by
  induction ws generalizing d e with
  | nil => simpa using h
  | cons w ws ih =>
    rw [applyWrites_cons, applyWrites_cons]
    refine ih ?_
    by_cases hw : b = w.1
    · exact Or.inr (by rw [hw, Function.update_self, Function.update_self])
    · rw [Function.update_of_ne hw, Function.update_of_ne hw]
      rcases h with h | h
      · rw [List.map_cons, List.mem_cons] at h
        exact Or.inl (h.resolve_left hw)
      · exact Or.inr h

/-- The last write to a block decides its content. -/
theorem applyWrites_of_nodup {ws : List (ι × β)} (d : ι → β) (hnd : (ws.map Prod.fst).Nodup)
    {w : ι × β} (hw : w ∈ ws) : applyWrites d ws w.1 = w.2 := by
  induction ws generalizing d with
  | nil => simp at hw
  | cons v ws ih =>
    rw [List.map_cons, List.nodup_cons] at hnd
    rw [applyWrites_cons]
    rcases List.mem_cons.1 hw with rfl | hw
    · rw [applyWrites_of_not_mem _ hnd.1, Function.update_self]
    · exact ih _ hnd.2 hw

end Writes

/-! ## The layout of a log, and the two kinds of disk it leaves -/

/-- Where a redo log lives: its area of the disk, the header block and the slots of the copies in
it, and how a header block is read. -/
structure LogLayout (ι β : Type) where
  /-- The blocks that belong to the log. -/
  area : ι → Prop
  /-- The header block. -/
  head : ι
  /-- The block of the `i`-th copy. -/
  slot : Nat → ι
  /-- How many copies fit. -/
  capacity : Nat
  /-- The home blocks a header block lists. -/
  entries : β → List ι
  head_area : area head
  slot_area : ∀ i, i < capacity → area (slot i)
  slot_ne_head : ∀ i, slot i ≠ head
  slot_inj : ∀ i j, slot i = slot j → i = j

namespace LogLayout

variable {ι β : Type} (L : LogLayout ι β)

/-- The header lists nothing, and the home blocks are those of `d₀`. -/
def Clean (d₀ d : ι → β) : Prop :=
  L.entries (d L.head) = [] ∧ ∀ b, ¬ L.area b → d b = d₀ b

/-- The header lists the home blocks of `t`, the slots hold its contents, and every home block
outside `t` is that of `d₀`. -/
def Logged (t : List (ι × β)) (d₀ d : ι → β) : Prop :=
  L.entries (d L.head) = t.map Prod.fst ∧
    (∀ i (h : i < t.length), d (L.slot i) = t[i].2) ∧
    ∀ b, ¬ L.area b → b ∉ t.map Prod.fst → d b = d₀ b

/-- The transaction `t` fits the log and writes only home blocks. -/
def Fits (t : List (ι × β)) : Prop :=
  t.length ≤ L.capacity ∧ ∀ w ∈ t, ¬ L.area w.1

/-- The copies a transaction writes to the log, from slot `i` on. -/
def copies : Nat → List (ι × β) → List (ι × β)
  | _, [] => []
  | i, w :: t => (L.slot i, w.2) :: copies (i + 1) t

/-- The writes of a commit: the copies, the header, the home blocks, the empty header. -/
def commitWrites (t : List (ι × β)) (full empty : β) : List (ι × β) :=
  L.copies 0 t ++ (L.head, full) :: (t ++ [(L.head, empty)])

/-- The writes of a recovery that finds `t` in the log. -/
def recoverWrites (t : List (ι × β)) (empty : β) : List (ι × β) := t ++ [(L.head, empty)]

variable {L} {t : List (ι × β)} {d₀ d₁ d : ι → β}

theorem length_copies : ∀ (i : Nat) (t : List (ι × β)), (L.copies i t).length = t.length
  | _, [] => rfl
  | i, _ :: t => by rw [copies, List.length_cons, List.length_cons, length_copies (i + 1) t]

theorem mem_copies : ∀ {i : Nat} {t : List (ι × β)} {w : ι × β}, w ∈ L.copies i t →
    ∃ j, i ≤ j ∧ j < i + t.length ∧ w.1 = L.slot j
  | _, [], _, h => by simp [copies] at h
  | i, v :: t, w, h => by
    rw [copies, List.mem_cons] at h
    rcases h with rfl | h
    · exact ⟨i, Nat.le_refl i, by simp, rfl⟩
    · obtain ⟨j, h1, h2, h3⟩ := mem_copies h
      exact ⟨j, by omega, by rw [List.length_cons]; omega, h3⟩

theorem slot_not_mem_copies {i j : Nat} (h : j < i) : L.slot j ∉ (L.copies i t).map Prod.fst := by
  intro hm
  obtain ⟨w, hw, he⟩ := List.mem_map.1 hm
  obtain ⟨j', h1, -, h3⟩ := mem_copies hw
  have := L.slot_inj _ _ (he.symm.trans h3)
  omega

variable [DecidableEq ι]

/-- After the copies are written, slot `i + j` holds the `j`-th content. -/
theorem applyWrites_copies : ∀ (i : Nat) (t : List (ι × β)) (d : ι → β) (j : Nat)
    (h : j < t.length), applyWrites d (L.copies i t) (L.slot (i + j)) = t[j].2
  | _, [], _, _, h => absurd h (by simp)
  | i, w :: t, d, 0, _ => by
    have h : L.slot (i + 0) ∉ (L.copies (i + 1) t).map Prod.fst :=
      slot_not_mem_copies (Nat.lt_succ_self i)
    rw [copies, applyWrites_cons, applyWrites_of_not_mem _ h]
    exact Function.update_self _ _ _
  | i, w :: t, d, j + 1, h => by
    rw [copies, applyWrites_cons, show i + (j + 1) = i + 1 + j by omega,
      applyWrites_copies (i + 1) t _ j (by simpa using h)]
    rfl

/-- Writes inside the log area that keep off the header leave a clean disk clean. -/
theorem Clean.applyWrites {ws : List (ι × β)} (hd : L.Clean d₀ d) (hw : ∀ w ∈ ws, L.area w.1)
    (hh : L.head ∉ ws.map Prod.fst) : L.Clean d₀ (applyWrites d ws) := by
  refine ⟨by rw [applyWrites_of_not_mem _ hh]; exact hd.1, fun b hb => ?_⟩
  rw [applyWrites_of_not_mem, hd.2 b hb]
  intro hm
  obtain ⟨w, hmem, rfl⟩ := List.mem_map.1 hm
  exact hb (hw w hmem)

/-- Any home writes among those of `t` keep a logged disk logged. -/
theorem Logged.applyWrites {ws : List (ι × β)} (hf : L.Fits t) (hd : L.Logged t d₀ d)
    (hw : ∀ w ∈ ws, w ∈ t) : L.Logged t d₀ (applyWrites d ws) := by
  have hout : ∀ b, L.area b → b ∉ ws.map Prod.fst := by
    intro b hb hm
    obtain ⟨w, hmem, rfl⟩ := List.mem_map.1 hm
    exact hf.2 w (hw w hmem) hb
  refine ⟨?_, fun i hi => ?_, fun b hb hbt => ?_⟩
  · rw [applyWrites_of_not_mem _ (hout _ L.head_area)]
    exact hd.1
  · rw [applyWrites_of_not_mem _ (hout _ (L.slot_area i (by have := hf.1; omega)))]
    exact hd.2.1 i hi
  · rw [applyWrites_of_not_mem]
    · exact hd.2.2 b hb hbt
    · intro hm
      obtain ⟨w, hmem, rfl⟩ := List.mem_map.1 hm
      exact hbt (List.mem_map_of_mem (hw w hmem))

/-- Once all of `t` is installed and the header is empty, the home blocks are those of `d₀`
with `t` applied. -/
theorem Logged.finish {empty : β} (he : L.entries empty = []) (hd : L.Logged t d₀ d) :
    L.Clean (Xv6.applyWrites d₀ t) (Function.update (Xv6.applyWrites d t) L.head empty) := by
  refine ⟨by rw [Function.update_self, he], fun b hb => ?_⟩
  rw [Function.update_of_ne fun h => hb (by rw [h]; exact L.head_area)]
  refine applyWrites_congr ?_
  by_cases hbt : b ∈ t.map Prod.fst
  · exact Or.inl hbt
  · exact Or.inr (hd.2.2 b hb hbt)

/-- The header write turns a clean disk with the copies in place into a logged one. -/
theorem Clean.logged {full : β} (hfull : L.entries full = t.map Prod.fst) (hd : L.Clean d₀ d)
    (hf : L.Fits t) :
    L.Logged t d₀ (Function.update (Xv6.applyWrites d (L.copies 0 t)) L.head full) := by
  refine ⟨by rw [Function.update_self, hfull], fun i hi => ?_, fun b hb _ => ?_⟩
  · rw [Function.update_of_ne (L.slot_ne_head i)]
    have h := applyWrites_copies (L := L) 0 t d i hi
    rwa [Nat.zero_add] at h
  · rw [Function.update_of_ne fun h => hb (by rw [h]; exact L.head_area),
      applyWrites_of_not_mem, hd.2 b hb]
    intro hm
    obtain ⟨w, hmem, rfl⟩ := List.mem_map.1 hm
    obtain ⟨j, -, hj, he⟩ := mem_copies hmem
    exact hb (by rw [he]; exact L.slot_area j (by have := hf.1; omega))

/-! ## Crashes -/

/-- What a crash inside a commit of `t` can leave: before the header write the old home blocks,
and from it on a disk that recovery takes to the new ones. -/
def Crashed (L : LogLayout ι β) (t : List (ι × β)) (d₀ d : ι → β) : Prop :=
  L.Logged t d₀ d ∨ L.Clean (applyWrites d₀ t) d

theorem take_append_cons {α : Type} {k : Nat} {l m : List α} {x : α} (h : l.length < k) :
    (l ++ x :: m).take k = l ++ x :: m.take (k - l.length - 1) := by
  rw [List.take_append, List.take_of_length_le (Nat.le_of_lt h),
    show k - l.length = (k - l.length - 1) + 1 by omega, List.take_succ_cons, Nat.add_sub_cancel]

/-- **A crash during recovery is harmless**: whatever prefix of its writes reached the disk, a
further recovery finds the same transaction or finds it installed. -/
theorem recover_take {empty : β} (he : L.entries empty = []) (hf : L.Fits t)
    (hd : L.Logged t d₀ d) (k : Nat) :
    L.Crashed t d₀ (applyWrites d ((L.recoverWrites t empty).take k)) := by
  rw [recoverWrites]
  by_cases hk : t.length < k
  · refine Or.inr ?_
    rw [take_append_cons hk, List.take_nil, applyWrites_append, applyWrites_singleton]
    exact hd.finish he
  · refine Or.inl ?_
    rw [List.take_append_of_le_length (by omega)]
    exact hd.applyWrites hf fun w hw => List.mem_of_mem_take hw

/-- A crash before the header write of a commit leaves the old home blocks. -/
theorem commit_take_of_le {full empty : β} (hf : L.Fits t) (hd : L.Clean d₀ d) {k : Nat}
    (hk : k ≤ t.length) :
    L.Clean d₀ (applyWrites d ((L.commitWrites t full empty).take k)) := by
  rw [commitWrites, List.take_append_of_le_length (by rw [length_copies]; exact hk)]
  have hslot : ∀ w ∈ (L.copies 0 t).take k, ∃ j, j < t.length ∧ w.1 = L.slot j := by
    intro w hw
    obtain ⟨j, -, hj, h⟩ := mem_copies (List.mem_of_mem_take hw)
    exact ⟨j, by omega, h⟩
  refine hd.applyWrites (fun w hw => ?_) fun hm => ?_
  · obtain ⟨j, hj, h⟩ := hslot w hw
    rw [h]
    exact L.slot_area j (by have := hf.1; omega)
  · obtain ⟨w, hw, he⟩ := List.mem_map.1 hm
    obtain ⟨j, -, h⟩ := hslot w hw
    exact L.slot_ne_head j (h.symm.trans he)

/-- A crash after the header write of a commit leaves a disk that recovery completes. -/
theorem commit_take_of_lt {full empty : β} (hfull : L.entries full = t.map Prod.fst)
    (he : L.entries empty = []) (hf : L.Fits t) (hd : L.Clean d₀ d) {k : Nat}
    (hk : t.length < k) :
    L.Crashed t d₀ (applyWrites d ((L.commitWrites t full empty).take k)) := by
  rw [commitWrites, take_append_cons (by rw [length_copies]; exact hk), applyWrites_append,
    applyWrites_cons]
  exact recover_take he hf (hd.logged hfull hf) _

/-- A commit that finishes leaves the new home blocks. -/
theorem commit_all {full empty : β} (hfull : L.entries full = t.map Prod.fst)
    (he : L.entries empty = []) (hf : L.Fits t) (hd : L.Clean d₀ d) :
    L.Clean (applyWrites d₀ t) (applyWrites d (L.commitWrites t full empty)) := by
  rw [commitWrites, applyWrites_append, applyWrites_cons, applyWrites_append,
    applyWrites_singleton]
  exact (hd.logged hfull hf).finish he

end LogLayout

end Xv6
