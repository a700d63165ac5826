import Mathlib.Order.Bounds.Basic
import Xv6.Base.Pool
import Xv6.Fs.Content

/-!
# The allocator of disk blocks

The bitmap stands for a set: the blocks below `sb.size` whose bit is clear.  `balloc` takes its
least element and `bfree` gives one back, and each changes one bit of the bitmap.  Hence any run
of the two, in which only what is held is freed, is a run of a pool, on the blocks that follow the
metadata.
-/

set_option autoImplicit false

namespace Xv6.Fs

variable {μ : Type} {s s' : State μ} {sb : Superblock} {disk disk' : Nat → Block} {b x : Nat}

/-- The free blocks. -/
def free (sb : Superblock) (disk : Nat → Block) : Set Nat := {b | b < sb.size ∧ ¬ Used sb disk b}

/-- A bitmap that has the blocks before the data. -/
structure Bitmap (sb : Superblock) (disk : Nat → Block) : Prop where
  size : sb.size < 2 ^ 31
  reserved : ∀ b, b < datastart sb → b < sb.size → Used sb disk b

theorem Bitmap.datastart_le (h : Bitmap sb disk) (hx : x ∈ free sb disk) : datastart sb ≤ x := by
  by_contra hlt
  exact hx.2 (h.reserved x (not_le.1 hlt) hx.1)

/-- What `balloc` does to the disk when it returns `x`. -/
structure Taken (sb : Superblock) (disk : Nat → Block) (x : Nat) (disk' : Nat → Block) : Prop where
  least : IsLeast (free sb disk) x
  data : datastart sb ≤ x
  zero : ∀ k, disk' x k = 0
  bit : ∀ c, testBit (disk' (bblock x sb)) c =
    (decide (c = x % BPB) || testBit (disk (bblock x sb)) c)
  other : ∀ b, b ≠ x → b ≠ bblock x sb → disk' b = disk b
  free : free sb disk' = free sb disk \ {x}

/-- What `bfree(b)` does to the disk. -/
structure Given (sb : Superblock) (disk : Nat → Block) (b : Nat) (disk' : Nat → Block) : Prop where
  bit : ∀ c, testBit (disk' (bblock b sb)) c =
    (decide (c ≠ b % BPB) && testBit (disk (bblock b sb)) c)
  other : ∀ c, c ≠ bblock b sb → disk' c = disk c
  free : free sb disk' = insert b (free sb disk)

/-! ## The two operations -/

theorem Bitmap.taken (h : Bitmap sb disk) (hx : x < sb.size) (hfree : ¬ Used sb disk x)
    (hfirst : ∀ y, y < x → Used sb disk y) : Taken sb disk x (allocated sb disk x) := by
  have hlow : datastart sb ≤ x := h.datastart_le ⟨hx, hfree⟩
  refine ⟨⟨⟨hx, hfree⟩, fun y hy => not_lt.1 fun hlt => hy.2 (hfirst y hlt)⟩, hlow, fun k => ?_,
    fun c => ?_, fun b h1 h2 => allocated_of_ne h1 h2, ?_⟩
  · rw [allocated, Function.update_self]
  · rw [allocated, Function.update_of_ne ((bblock_lt hx).trans_le hlow).ne, Function.update_self,
      testBit_setBit]
  · ext b
    constructor
    · intro hb
      have hu := (not_congr (used_allocated hlow hb.1)).1 hb.2
      exact ⟨⟨hb.1, fun hub => hu (.inr hub)⟩, fun he => hu (.inl he)⟩
    · intro hb
      refine ⟨hb.1.1, fun hu => ?_⟩
      exact ((used_allocated hlow hb.1.1).1 hu).elim hb.2 hb.1.2

/-- When `balloc` returns, it has taken the least free block, or there is none. -/
theorem Bitmap.balloc_spec (h : Bitmap sb s.disk) : wp (balloc sb)
    (fun x s' => (x = 0 ∧ free sb s.disk = ∅ ∧ s' = s) ∨ (x ≠ 0 ∧ Taken sb s.disk x s'.disk))
    (fun e _ => (∃ msg, msg ≠ "freeing free block" ∧ e = .panic msg) ∧ ¬ LogRoom sb s 2) s := by
  refine Fs.balloc_spec (fun hall => .inl ⟨rfl, ?_, rfl⟩) (fun x lh' hx hfree hfirst _ _ => .inr ?_)
    fun e x t he hr _ => ⟨he, hr⟩
  · exact Set.eq_empty_of_forall_notMem fun y hy => hy.2 (hall y hy.1)
  · have ht := h.taken hx hfree hfirst
    exact ⟨((Nat.succ_pos _).trans_le ht.data).ne', ht⟩

theorem given (hb : b < sb.size) (hdisk : disk' = Function.update disk (bblock b sb)
    (clearBit (disk (bblock b sb)) (b % BPB))) : Given sb disk b disk' := by
  have hother : ∀ c, c ≠ bblock b sb → disk' c = disk c := fun c hc => by
    rw [hdisk, Function.update_of_ne hc]
  have hbit : ∀ c, testBit (disk' (bblock b sb)) c =
      (decide (c ≠ b % BPB) && testBit (disk (bblock b sb)) c) := fun c => by
    rw [hdisk, Function.update_self, testBit_clearBit]
  have hused : ∀ c, Used sb disk' c ↔ c ≠ b ∧ Used sb disk c := by
    intro c
    by_cases heq : bblock c sb = bblock b sb
    · rw [Used, heq, hbit, Bool.and_eq_true, decide_eq_true_iff, Ne, mod_eq_iff_of_bblock_eq heq,
        Used, heq]
    · rw [Used, hother _ heq]
      exact ⟨fun hu => ⟨fun he => heq (by rw [he]), hu⟩, And.right⟩
  refine ⟨hbit, hother, ?_⟩
  ext c
  constructor
  · intro hc
    by_cases he : c = b
    · exact .inl he
    · exact .inr ⟨hc.1, fun hu => hc.2 ((hused c).2 ⟨he, hu⟩)⟩
  · rintro (rfl | hc)
    · exact ⟨hb, fun hu => ((hused c).1 hu).1 rfl⟩
    · exact ⟨hc.1, fun hu => hc.2 ((hused c).1 hu).2⟩

/-- `bfree` of a block in use gives it back. -/
theorem bfree_spec (hb : b < sb.size) (hu : Used sb s.disk b) : wp (bfree sb b)
    (fun _ s' => Given sb s.disk b s'.disk)
    (fun e _ => (∃ msg, msg ≠ "freeing free block" ∧ e = .panic msg) ∧ ¬ LogRoom sb s 1) s := by
  have hbit : testBit (s.disk (bblock b sb)) (b % BPB) = true := hu
  rw [bfree, wp_bind, bread, wp_bind, wp_get, wp_pure, wp_ite, if_pos hbit]
  exact logWrite_spec (fun _ _ _ => given hb rfl) fun e he hr => ⟨he, hr⟩

theorem beginOp_disk (h : beginOp s = .ok () s') : s'.disk = s.disk := by
  refine wp.ok (Q := fun _ t => t.disk = s.disk) (E := fun _ _ => True) ?_ h
  rw [beginOp, wp_bind, wp_get, wp_ite]
  split
  · exact wp_sleep.2 trivial
  · exact (wp_set _).2 rfl

theorem endOp_disk (h : endOp s = .ok () s') : s'.disk = s.disk := by
  refine wp.ok (Q := fun _ t => t.disk = s.disk) (E := fun _ _ => True) ?_ h
  rw [endOp, wp_modify]
  split
  · rfl
  · rfl

/-! ## Runs -/

/-- One step of those who use the allocator: `held` are the blocks that they hold, and the list is
what has been taken and given. -/
inductive AllocStep (sb : Superblock) : State μ → Set Nat → List (Pool.Event Nat) → State μ →
    Set Nat → Prop
  | balloc {s s' : State μ} {held : Set Nat} {x : Nat} : balloc sb s = .ok x s' → x ≠ 0 →
    AllocStep sb s held [.take x] s' (insert x held)
  /-- Out of blocks. -/
  | full {s s' : State μ} {held : Set Nat} : balloc sb s = .ok 0 s' →
    AllocStep sb s held [] s' held
  | bfree {s s' : State μ} {held : Set Nat} {b : Nat} : b ∈ held → bfree sb b s = .ok () s' →
    AllocStep sb s held [.give b] s' (held \ {b})
  /-- A block that is held gets a new content. -/
  | write {s s' : State μ} {held : Set Nat} {b : Nat} {data : Block} : b ∈ held →
    logWrite sb b data s = .ok () s' → AllocStep sb s held [] s' held
  | beginOp {s s' : State μ} {held : Set Nat} : beginOp s = .ok () s' →
    AllocStep sb s held [] s' held
  | endOp {s s' : State μ} {held : Set Nat} : endOp s = .ok () s' →
    AllocStep sb s held [] s' held

/-- Any sequence of steps. -/
inductive AllocRun (sb : Superblock) (s₀ : State μ) (held₀ : Set Nat) :
    List (Pool.Event Nat) → State μ → Set Nat → Prop
  | start : AllocRun sb s₀ held₀ [] s₀ held₀
  | step {l l' : List (Pool.Event Nat)} {s s' : State μ} {held held' : Set Nat} :
    AllocRun sb s₀ held₀ l s held → AllocStep sb s held l' s' held' →
    AllocRun sb s₀ held₀ (l ++ l') s' held'

/-- The blocks that are held are blocks of data in use. -/
structure Holds (sb : Superblock) (disk : Nat → Block) (held : Set Nat) : Prop where
  bitmap : Bitmap sb disk
  data : ∀ b ∈ held, datastart sb ≤ b
  size : ∀ b ∈ held, b < sb.size
  used : ∀ b ∈ held, Used sb disk b

variable {held held' : Set Nat} {l : List (Pool.Event Nat)}

/-- What is free is data, and what is held is data that is not free. -/
theorem Holds.of_free (hsize : sb.size < 2 ^ 31) (hfree : ∀ b ∈ free sb disk, datastart sb ≤ b)
    (hheld : ∀ b ∈ held, datastart sb ≤ b ∧ b < sb.size ∧ b ∉ free sb disk) :
    Holds sb disk held where
  bitmap := {
    size := hsize
    reserved := fun b hb hs => by
      by_contra hu
      exact absurd (hfree b ⟨hs, hu⟩) (not_le.2 hb) }
  data b hb := (hheld b hb).1
  size b hb := (hheld b hb).2.1
  used b hb := by
    by_contra hu
    exact (hheld b hb).2.2 ⟨(hheld b hb).2.1, hu⟩

theorem Holds.notFree (h : Holds sb disk held) :
    ∀ b ∈ held, datastart sb ≤ b ∧ b < sb.size ∧ b ∉ Fs.free sb disk := fun b hb =>
  ⟨h.data b hb, h.size b hb, fun hf => hf.2 (h.used b hb)⟩

/-- Only the bitmap matters. -/
theorem Holds.quiet (h : Holds sb s.disk held)
    (heq : ∀ b, b < datastart sb → s'.disk b = s.disk b) :
    Pool.Run (free sb s.disk) [] (free sb s'.disk) ∧ Holds sb s'.disk held := by
  have hfree : free sb s'.disk = free sb s.disk := by
    ext b
    refine and_congr_right fun hb => ?_
    rw [Used, heq _ (bblock_lt hb), Used]
  rw [hfree]
  refine ⟨.nil _, .of_free h.bitmap.size (fun b hb => ?_) ?_⟩
  · rw [hfree] at hb
    exact h.bitmap.datastart_le hb
  · rw [hfree]
    exact h.notFree

/-- A step of the allocator is one of a pool. -/
theorem Holds.step (h : Holds sb s.disk held) (hs : AllocStep sb s held l s' held') :
    Pool.Run (free sb s.disk) l (free sb s'.disk) ∧ Holds sb s'.disk held' := by
  cases hs with
  | @balloc _ _ x hrun h0 =>
    have ht := ((h.bitmap.balloc_spec.ok hrun).resolve_left fun hn => h0 hn.1).2
    refine ⟨?_, .of_free h.bitmap.size (fun b hb => ?_) fun b hb => ?_⟩
    · rw [ht.free]
      exact .cons (.take ht.least.1) (.nil _)
    · rw [ht.free] at hb
      exact h.bitmap.datastart_le hb.1
    · rw [ht.free]
      rcases hb with rfl | hb
      · exact ⟨ht.data, ht.least.1.1, fun hf => hf.2 rfl⟩
      · exact ⟨h.data b hb, h.size b hb, fun hf => (h.notFree b hb).2.2 hf.1⟩
  | full hrun =>
    obtain ⟨-, -, rfl⟩ := (h.bitmap.balloc_spec.ok hrun).resolve_right fun hn => hn.1 rfl
    exact h.quiet fun _ _ => rfl
  | @bfree _ _ b hb hrun =>
    have hg := (bfree_spec (h.size b hb) (h.used b hb)).ok hrun
    refine ⟨?_, .of_free h.bitmap.size (fun c hc => ?_) fun c hc => ?_⟩
    · rw [hg.free]
      exact .cons (.give (h.notFree b hb).2.2) (.nil _)
    · rw [hg.free] at hc
      rcases hc with rfl | hc
      · exact h.data c hb
      · exact h.bitmap.datastart_le hc
    · rw [hg.free]
      obtain ⟨h1, h2, h3⟩ := h.notFree c hc.1
      exact ⟨h1, h2, fun hf => hf.elim hc.2 h3⟩
  | @write _ _ b data hb hrun =>
    have hdisk : s'.disk = Function.update s.disk b data :=
      (logWrite_spec (Q := fun _ t => t.disk = Function.update s.disk b data)
        (E := fun _ _ => True) (fun _ _ _ => rfl) fun _ _ _ => trivial).ok hrun
    refine h.quiet fun c hc => ?_
    rw [hdisk, Function.update_of_ne (hc.trans_le (h.data b hb)).ne]
  | beginOp hrun =>
    refine h.quiet fun b _ => ?_
    rw [beginOp_disk hrun]
  | endOp hrun =>
    refine h.quiet fun b _ => ?_
    rw [endOp_disk hrun]

/-- A run of the allocator is one of a pool. -/
theorem Holds.run {s₀ : State μ} {held₀ : Set Nat} (h : Holds sb s₀.disk held₀)
    (hr : AllocRun sb s₀ held₀ l s held) :
    Pool.Run (free sb s₀.disk) l (free sb s.disk) ∧ Holds sb s.disk held := by
  induction hr with
  | start => exact ⟨.nil _, h⟩
  | step _ hs ih =>
    obtain ⟨h1, h2⟩ := ih.2.step hs
    exact ⟨ih.1.append h1, h2⟩

/-- **The block allocator is a set.**  When `balloc` returns, it has taken the lowest free block, of
which it has set the bit and zeroed the content, or it returns `0`, there is no free block, and
nothing has changed; `bfree` clears the bit of its block; both return if the log has room.  So in
any run that frees only what is held, a block handed out twice was freed in between, what `balloc`
returns is not held and is no metadata, and `bfree` does not find its block free. -/
theorem block_allocator_is_set (h : Holds sb s.disk held) :
    (∀ x s', balloc sb s = .ok x s' →
      (x = 0 ↔ free sb s.disk = ∅) ∧ (x = 0 → s' = s) ∧ (x ≠ 0 → Taken sb s.disk x s'.disk)) ∧
    (LogRoom sb s 2 → ∃ x s', balloc sb s = .ok x s') ∧
    (∀ b s', b < sb.size → Used sb s.disk b → bfree sb b s = .ok () s' →
      Given sb s.disk b s'.disk) ∧
    (∀ b, b < sb.size → Used sb s.disk b → LogRoom sb s 1 → ∃ s', bfree sb b s = .ok () s') ∧
    ∀ l s' held', AllocRun sb s held l s' held' →
      (∀ x l₁ l₂ l₃, l = l₁ ++ .take x :: (l₂ ++ .take x :: l₃) → .give x ∈ l₂) ∧
      (∀ x s'', balloc sb s' = .ok x s'' → x ≠ 0 → x ∉ held' ∧ datastart sb ≤ x) ∧
      ∀ b ∈ held', ∀ s'', bfree sb b s' ≠ .error (.panic "freeing free block") s'' := by
  refine ⟨fun x s' hrun => ?_, fun hroom => ?_, fun b s' hb hu hrun => (bfree_spec hb hu).ok hrun,
    fun b hb hu hroom => ?_, fun l s' held' hr => ?_⟩
  · rcases h.bitmap.balloc_spec.ok hrun with ⟨h0, hf, hs⟩ | ⟨h0, ht⟩
    · exact ⟨⟨fun _ => hf, fun _ => h0⟩, fun _ => hs, fun hne => absurd h0 hne⟩
    · refine ⟨⟨fun he => absurd he h0, fun he => ?_⟩, fun he => absurd he h0, fun _ => ht⟩
      have hm := ht.least.1
      rw [he] at hm
      exact absurd hm (Set.notMem_empty x)
  · obtain ⟨x, s', hrun, -⟩ := (wp_mono h.bitmap.balloc_spec (fun _ _ hq => hq)
      fun _ _ he => he.2 hroom).exists_ok
    exact ⟨x, s', hrun⟩
  · obtain ⟨_, s', hrun, -⟩ := (wp_mono (bfree_spec hb hu) (fun _ _ hq => hq)
      fun _ _ he => he.2 hroom).exists_ok
    exact ⟨s', hrun⟩
  · obtain ⟨hpool, hh⟩ := h.run hr
    refine ⟨fun x l₁ l₂ l₃ hl => ?_, fun x s'' hrun h0 => ?_, fun b hb s'' hrun => ?_⟩
    · rw [hl] at hpool
      exact hpool.give_of_take_take
    · have ht := ((hh.bitmap.balloc_spec.ok hrun).resolve_left fun hn => h0 hn.1).2
      exact ⟨fun hx => (hh.notFree x hx).2.2 ht.least.1, ht.data⟩
    · obtain ⟨⟨msg, hmsg, he⟩, -⟩ := (bfree_spec (hh.size b hb) (hh.used b hb)).error hrun
      cases he
      exact hmsg rfl

/-- No block of the empty file system is held. -/
theorem emptyFile_holds : Holds mkfsSuperblock emptyFile.disk ∅ where
  bitmap := ⟨by decide, emptyFile_consistent.blocks.reserved⟩
  data _ hb := absurd hb (Set.notMem_empty _)
  size _ hb := absurd hb (Set.notMem_empty _)
  used _ hb := absurd hb (Set.notMem_empty _)

/-- The first block that `balloc` hands out is the first block of data. -/
theorem block_allocator_is_set_first : ∃ s', balloc mkfsSuperblock emptyFile = .ok 46 s' ∧
    Taken mkfsSuperblock emptyFile.disk 46 s'.disk := by
  have h := block_allocator_is_set emptyFile_holds
  have hrun : (match balloc mkfsSuperblock emptyFile with
    | .ok x _ => decide (x = 46)
    | .error _ _ => false) = true := by decide +kernel
  cases hx : balloc mkfsSuperblock emptyFile with
  | ok x s' =>
    rw [hx] at hrun
    have h46 : x = 46 := of_decide_eq_true hrun
    subst h46
    exact ⟨s', rfl, (h.1 46 s' hx).2.2 (by decide)⟩
  | error e s' =>
    rw [hx] at hrun
    cases hrun

end Xv6.Fs
