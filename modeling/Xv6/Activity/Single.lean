import Xv6.Activity.Stats

/-!
# One call of `getactivity` at a time

If calls do not overlap and all succeed, each reports on the interval from the snapshot of the
call before it to its own (`Chain`), so that the reported numbers of interrupts add up.  The
memory figure is the share of the allocator's pages that are not on the free list at the time of
`get_memory_stats`.
-/

set_option autoImplicit false

namespace Xv6.Activity

variable {P : Type}

/-- Calls do not overlap and succeed, and the ticks since the last one have room in the 64-bit
product `delta_active * 100`. -/
def Single (s : State P) : Step P → Prop
  | .call _ => (∀ q, s.call q = none) ∧ 100 * (s.count .total - s.reported .total) < 2 ^ 64
  | .go _ _ ok => ok = true
  | _ => True

/-- Every report begins where the one before it ended, and the first at boot; the last one ended at
`z`. -/
def Chain : List (Report P) → Counters → Prop
  | [], z => z = fun _ => 0
  | r :: rs, z => r.upto = z ∧ Chain rs r.since

/-- What bounds `Single` puts on an interval. -/
def Ticks : Field → Nat → Prop
  | .total, d => 100 * d < 2 ^ 64
  | _, _ => True

theorem Single.apart {s : State P} {l : Step P} (h : Single s l) : Apart Ticks s l := by
  cases l with
  | call p =>
    refine ⟨fun q pt f hq => ?_, fun c => ?_⟩
    · rw [h.1 q] at hq
      cases hq
    · cases c with
      | total => exact h.2
      | _ => trivial
  | _ => trivial

section

variable {K : Image} {s s' : State P}

/-! ## The allocator's counters -/

/-- `free_pages` counts the free list, and `total_pages` all pages. -/
def MemOk (K : Image) (m : Mem) : Prop :=
  (∃ S, Good K m S) ∧ m.totalPages = Multiset.card (pages K)

theorem memOk_boot (ram : Nat → Bytes) : MemOk K (boot K ram : State P).mem := by
  have h := kinit_spec (K := K) (m := ⟨ram, [], 0, 0, 0⟩) rfl
  refine wp.finalState (P := MemOk K) (wp_mono h (fun _ m' hm' => ⟨⟨0, hm'.1⟩, hm'.2⟩)
    fun _ _ he => he.elim)

theorem MemOk.kalloc {m m' : Mem} {r : Nat} (h : MemOk K m) (hk : kalloc m = .ok r m') :
    MemOk K m' := by
  obtain ⟨⟨S, hg⟩, ht⟩ := h
  rcases (kalloc_eq hg).ok hk with ⟨-, -, rfl⟩ | ⟨next, -, -, hg', rfl⟩
  · exact ⟨⟨S, hg.congr rfl rfl rfl⟩, ht⟩
  · exact ⟨⟨_, hg'⟩, ht⟩

theorem MemOk.kfree {m m' : Mem} {pa : Nat} (h : MemOk K m) (hp : pa ∈ pages K)
    (hn : pa ∉ m.freelist) (hk : kfree K pa m = .ok () m') : MemOk K m' := by
  obtain ⟨⟨S, hg⟩, ht⟩ := h
  have hS : pa ∈ S := by
    rw [← hg.sum, Multiset.mem_add] at hp
    exact hp.resolve_left fun hm => hn (Multiset.mem_coe.1 hm)
  obtain ⟨S', rfl⟩ := Multiset.exists_cons_of_mem hS
  rw [← Multiset.singleton_add] at hg
  refine ⟨⟨S', ((kfree_spec hg).ok hk).1⟩, ?_⟩
  rw [(kfree_page (page_of_mem hp)).ok hk]
  exact ht

theorem MemOk.freePages {m : Mem} (h : MemOk K m) :
    m.freePages = m.freelist.length ∧ m.freelist.length ≤ Multiset.card (pages K) := by
  obtain ⟨⟨S, hg⟩, -⟩ := h
  exact ⟨hg.count, hg.length_add_card ▸ Nat.le_add_right _ _⟩

/-- What a call knows once it has read the memory statistics. -/
def SawMem (K : Image) (f : Frame) : Prop :=
  (f.freeMem = f.inFree ∧ f.inFree ≤ Multiset.card (pages K)) ∧
    f.totalMem = Multiset.card (pages K)

/-- `mem_percent` is the share of the pages that are not on the free list. -/
theorem SawMem.memPercent {f : Frame} (h : SawMem K f) (ticks : Nat) (slot : Bytes) :
    getInt (fill (f.inputs ticks) slot) 4 = ((100 * (Multiset.card (pages K) - f.inFree) /
      Multiset.card (pages K) : Nat) : Int) ∧
    100 * (Multiset.card (pages K) - f.inFree) / Multiset.card (pages K) ≤ 100 := by
  obtain ⟨⟨h1, h2⟩, h3⟩ := h
  have hN := card_pages (K := K)
  have hpc := percent_le (Nat.sub_le (Multiset.card (pages K)) f.inFree)
  refine ⟨?_, hpc⟩
  rw [getInt_fill_memPercent, Inputs.memPercent]
  show (if f.totalMem = 0 then (0 : Int) else
    toInt32 (sub64 f.totalMem f.freeMem * 100 % 2 ^ 64 / f.totalMem)) = _
  rw [h3, h1]
  split
  · next h0 =>
    rw [h0, Nat.div_zero]
    rfl
  · have hsub : sub64 (Multiset.card (pages K)) f.inFree = Multiset.card (pages K) - f.inFree := by
      rw [sub64]
      omega
    rw [hsub, Nat.mod_eq_of_lt (by omega), Nat.mul_comm, toInt32_of_lt (by omega)]

/-! ## The chain of calls -/

/-- Where the reports end, as a call sees it. -/
def InChain (s : State P) (f : Frame) : Point → Prop
  | .delta _ => Chain s.reports s.reported
  | .last _ => Chain s.reports f.since
  | _ => Chain s.reports f.since ∧ s.reported = f.upto

/-- The reports are a chain, and the one call in progress carries it on. -/
structure Chained (s : State P) : Prop where
  only : ∀ q q' x x', s.call q = some x → s.call q' = some x' → q = q'
  idle : (∀ q, s.call q = none) → Chain s.reports s.reported
  chain : ∀ q pt f, s.call q = some (pt, f) → InChain s f pt

/-- A step that leaves the calls alone. -/
theorem Chained.count (h : Chained s) (hc : s'.call = s.call) (hr : s'.reported = s.reported)
    (hrs : s'.reports = s.reports) : Chained s' := by
  refine ⟨by rw [hc]; exact h.only, by rw [hc, hr, hrs]; exact h.idle, fun q pt f hq => ?_⟩
  rw [hc] at hq
  have hch := h.chain q pt f hq
  cases pt <;> simp only [InChain, hr, hrs] at hch ⊢ <;> exact hch

theorem Chained.exists_chain (h : Chained s) : ∃ z, Chain s.reports z := by
  by_cases hidle : ∀ q, s.call q = none
  · exact ⟨_, h.idle hidle⟩
  · obtain ⟨q, hq⟩ := not_forall.1 hidle
    obtain ⟨⟨pt, f⟩, hq⟩ := Option.ne_none_iff_exists'.1 hq
    have hch := h.chain q pt f hq
    cases pt with
    | delta c => exact ⟨_, hch⟩
    | last c => exact ⟨_, hch⟩
    | _ => exact ⟨_, hch.1⟩

/-- Calls do not overlap, and one whose `copyout` fails has found nothing new to report. -/
def InTurn (s : State P) : Step P → Prop
  | .call _ => ∀ q, s.call q = none
  | .go p _ ok => ok = false → ∀ f, s.call p = some (.ret, f) → ∀ c, f.upto c = f.since c
  | _ => True

theorem Single.inTurn {l : Step P} (h : Single s l) : InTurn s l := by
  cases l with
  | call p => exact h.1
  | go p slot ok => exact fun hf => absurd ((show ok = true from h).symm.trans hf) (by decide)
  | _ => trivial

section

variable [DecidableEq P] {p : P} {B : Field → Nat → Prop}

/-- A call is the only one. -/
theorem Chained.call_eq (h : Chained s) {pt pt' pt₁ : Point} {f f' f₁ : Frame} {q : P}
    (hp : s.call p = some (pt, f)) (hc : s'.call = Function.update s.call p (some (pt', f')))
    (hq : s'.call q = some (pt₁, f₁)) : q = p ∧ pt₁ = pt' ∧ f₁ = f' := by
  rcases call_update hc hq with ⟨hqp, he⟩ | ⟨hqp, hq⟩
  · have := Option.some.inj he
    exact ⟨hqp, (congrArg Prod.fst this).symm, (congrArg Prod.snd this).symm⟩
  · exact absurd (h.only q p _ _ hq hp) hqp

/-- The call in progress goes on. -/
theorem Chained.move (h : Chained s) {pt pt' : Point} {f f' : Frame}
    (hp : s.call p = some (pt, f)) (hc : s'.call = Function.update s.call p (some (pt', f')))
    (hch : InChain s' f' pt') : Chained s' := by
  refine ⟨fun q q' x x' hq hq' => (h.call_eq hp hc hq).1.trans (h.call_eq hp hc hq').1.symm,
    fun hidle => ?_, fun q pt₁ f₁ hq => ?_⟩
  · have := hidle p
    rw [hc, Function.update_self] at this
    cases this
  · obtain ⟨-, rfl, rfl⟩ := h.call_eq hp hc hq
    exact hch

/-- The call in progress returns. -/
theorem Chained.exec_ret (h : Chained s) {f : Frame} (hp : s.call p = some (.ret, f))
    (slot : Bytes) (ok : Bool) (q : P) : (s.exec p f slot ok .ret).call q = none := by
  show Function.update s.call p none q = none
  by_cases hqp : q = p
  · rw [hqp, Function.update_self]
  · rw [Function.update_of_ne hqp]
    refine Option.eq_none_iff_forall_not_mem.2 fun x hx => hqp ?_
    exact h.only q p x _ hx hp

theorem Chained.exec (h : Chained s) (hinv : Inv B s) {pt : Point} {f : Frame}
    (hp : s.call p = some (pt, f)) (slot : Bytes) {ok : Bool}
    (hok : ok = false → pt = .ret → ∀ c, f.upto c = f.since c) :
    Chained (s.exec p f slot ok pt) := by
  have hi := hinv.exec hp slot ok
  have hch := h.chain p pt f hp
  have hfr := hinv.frames p pt f hp
  cases pt with
  | delta c =>
    refine h.move hp rfl ?_
    cases c with
    | total => exact hch
    | active => exact hch
    | int =>
      -- all three have been read, so `since` is what has been reported
      have hlast := (hi.frames p (.last .total) _ (Function.update_self ..)).2
      have hsince : Function.update f.since .int (s.reported .int) = s.reported := by
        refine funext fun c' => ?_
        have := hlast c'
        rw [if_neg (show ¬ c'.rank < Field.total.rank from Nat.not_lt_zero _)] at this
        exact this.symm
      show Chain s.reports (Function.update f.since .int (s.reported .int))
      rw [hsince]
      exact hch
  | last c =>
    refine h.move hp rfl ?_
    cases c with
    | total => exact hch
    | active => exact hch
    | int =>
      refine ⟨hch, funext fun c' => ?_⟩
      show Function.update s.reported .int (f.upto .int) c' = f.upto c'
      have hrep := hfr.2 c'
      cases c' with
      | int => exact Function.update_self ..
      | total => exact hrep
      | active => exact hrep
  | memory => exact h.move hp rfl hch
  | user => exact h.move hp rfl hch
  | ret =>
    have hnone := h.exec_ret hp slot ok
    refine ⟨fun q q' x x' hq => ?_, fun _ => ?_, fun q pt₁ f₁ hq => ?_⟩
    · rw [hnone q] at hq
      cases hq
    · cases ok with
      | true => exact ⟨hch.2.symm, hch.1⟩
      | false =>
        -- the failed call has not moved the end of the chain
        have hsame : s.reported = f.since := hch.2.trans (funext (hok rfl rfl))
        show Chain s.reports s.reported
        rw [hsame]
        exact hch.1
    · rw [hnone q] at hq
      cases hq

theorem Chained.step (h : Chained s) (hinv : Inv B s) {l : Step P} (ha : InTurn s l)
    (hs : s.step K l = some s') : Chained s' := by
  cases l with
  | trap t =>
    cases hs
    exact h.count rfl rfl rfl
  | clockintr =>
    cases hs
    exact h.count rfl rfl rfl
  | keypress =>
    cases hs
    exact h.count rfl rfl rfl
  | kalloc =>
    rw [State.step] at hs
    split at hs <;> cases hs
    exact h.count rfl rfl rfl
  | kfree pa =>
    rw [State.step] at hs
    split at hs
    · split at hs <;> cases hs
      exact h.count rfl rfl rfl
    · cases hs
  | call p =>
    rw [State.step] at hs
    split at hs <;> cases hs
    have hcase : ∀ {q x}, Function.update s.call p (some (.delta .total,
        ⟨s.g, fun _ => 0, 0, 0, 0, 0, s.count, fun _ => 0, 0⟩)) q = some x →
        q = p ∧ x.1 = .delta .total := by
      intro q x hq
      by_cases hqp : q = p
      · rw [hqp, Function.update_self] at hq
        cases hq
        exact ⟨hqp, rfl⟩
      · rw [Function.update_of_ne hqp, ha q] at hq
        cases hq
    refine ⟨fun q q' x x' hq hq' => (hcase hq).1.trans (hcase hq').1.symm, fun _ => h.idle ha,
      fun q pt f hq => ?_⟩
    rw [show pt = .delta .total from (hcase hq).2]
    exact h.idle ha
  | go p slot ok =>
    rw [State.step] at hs
    split at hs
    · cases hs
    · next pt f hp =>
      cases hs
      exact h.exec hinv hp slot fun hf hpt => ha hf f (by rw [hp, hpt])

end

/-! ## One call at a time -/

/-- The invariant of the runs in which calls do not overlap. -/
structure Alone (K : Image) (s : State P) : Prop where
  inv : Inv Ticks s
  mem : MemOk K s.mem
  saw : ∀ q pt f, s.call q = some (pt, f) → pt = .user ∨ pt = .ret → SawMem K f
  only : ∀ q q' x x', s.call q = some x → s.call q' = some x' → q = q'
  idle : (∀ q, s.call q = none) → Chain s.reports s.reported
  chain : ∀ q pt f, s.call q = some (pt, f) → InChain s f pt
  reports : ∀ r ∈ s.reports, ∃ f ticks slot, r.act = fill (Frame.inputs f ticks) slot ∧
    SawMem K f ∧ f.inFree = r.inFree

theorem Alone.chained (h : Alone K s) : Chained s := ⟨h.only, h.idle, h.chain⟩

variable [DecidableEq P] {p : P}

/-- What the calls have seen of memory, after the statement of one of them. -/
theorem Alone.saw_exec (h : Alone K s) {pt : Point} {f : Frame} (hp : s.call p = some (pt, f))
    (slot : Bytes) (ok : Bool) {q : P} {pt₁ : Point} {f₁ : Frame}
    (hq : (s.exec p f slot ok pt).call q = some (pt₁, f₁)) (hpt : pt₁ = .user ∨ pt₁ = .ret) :
    SawMem K f₁ := by
  cases pt with
  | delta c =>
    obtain ⟨-, rfl, rfl⟩ := h.chained.call_eq hp rfl hq
    cases c <;> rcases hpt with hpt | hpt <;> cases hpt
  | last c =>
    obtain ⟨-, rfl, rfl⟩ := h.chained.call_eq hp rfl hq
    cases c <;> rcases hpt with hpt | hpt <;> cases hpt
  | memory =>
    obtain ⟨-, rfl, rfl⟩ := h.chained.call_eq hp rfl hq
    exact ⟨h.mem.freePages, h.mem.2⟩
  | user =>
    obtain ⟨-, rfl, rfl⟩ := h.chained.call_eq hp rfl hq
    exact h.saw p _ f hp (.inl rfl)
  | ret =>
    rw [h.chained.exec_ret hp slot ok q] at hq
    cases hq

/-- What the reports say of memory, after a statement of a call. -/
theorem Alone.reports_exec (h : Alone K s) {pt : Point} {f : Frame} (hp : s.call p = some (pt, f))
    (slot : Bytes) (ok : Bool) {r : Report P} (hr : r ∈ (s.exec p f slot ok pt).reports) :
    ∃ f ticks slot, r.act = fill (Frame.inputs f ticks) slot ∧ SawMem K f ∧
      f.inFree = r.inFree := by
  cases pt with
  | ret =>
    cases ok with
    | false => exact h.reports r hr
    | true =>
      rcases List.mem_cons.1 hr with rfl | hr
      · exact ⟨f, s.ticks, slot, rfl, h.saw p _ f hp (.inr rfl), rfl⟩
      · exact h.reports r hr
  | _ => exact h.reports r hr

theorem Alone.step (h : Alone K s) {l : Step P} (ha : Single s l) (hs : s.step K l = some s') :
    Alone K s' := by
  have hi := h.inv.step ha.apart hs
  obtain ⟨honly, hidle, hchain⟩ := h.chained.step h.inv ha.inTurn hs
  cases l with
  | trap t =>
    cases hs
    exact ⟨hi, h.mem, h.saw, honly, hidle, hchain, h.reports⟩
  | clockintr =>
    cases hs
    exact ⟨hi, h.mem, h.saw, honly, hidle, hchain, h.reports⟩
  | keypress =>
    cases hs
    exact ⟨hi, h.mem, h.saw, honly, hidle, hchain, h.reports⟩
  | kalloc =>
    rw [State.step] at hs
    split at hs
    · next r m hk =>
      cases hs
      exact ⟨hi, h.mem.kalloc hk, h.saw, honly, hidle, hchain, h.reports⟩
    · cases hs
  | kfree pa =>
    rw [State.step] at hs
    split at hs
    · next hpa =>
      split at hs
      · next m hk =>
        cases hs
        exact ⟨hi, h.mem.kfree hpa.1 hpa.2 hk, h.saw, honly, hidle, hchain, h.reports⟩
      · cases hs
    · cases hs
  | call p =>
    rw [State.step] at hs
    split at hs
    · cases hs
      refine ⟨hi, h.mem, fun q pt f hq hpt => ?_, honly, hidle, hchain, h.reports⟩
      rcases call_update rfl hq with ⟨-, he⟩ | ⟨-, hq⟩
      · cases he
        rcases hpt with hpt | hpt <;> cases hpt
      · exact h.saw q pt f hq hpt
    · cases hs
  | go p slot ok =>
    rw [State.step] at hs
    split at hs
    · cases hs
    · next pt f hp =>
      cases hs
      refine ⟨hi, ?_, fun q pt₁ f₁ => h.saw_exec hp slot ok, honly, hidle, hchain,
        fun r => h.reports_exec hp slot ok⟩
      cases pt <;> exact h.mem

theorem Reach.alone (hr : Reach K Single s) : Alone K s := by
  induction hr with
  | boot ram =>
    exact ⟨inv_boot ram, memOk_boot ram, nofun, nofun, fun _ => rfl, nofun, nofun⟩
  | step hs ha h ih => exact ih.step ha h

/-- A step counts an active tick only with a tick. -/
theorem State.step_after {l : Step P} (hs : s.step K l = some s') : After s.count s'.count := by
  cases l with
  | trap t =>
    cases hs
    exact t.after s.count
  | clockintr =>
    cases hs
    exact .refl _
  | keypress =>
    cases hs
    exact .refl _
  | kalloc =>
    rw [State.step] at hs
    split at hs <;> cases hs
    exact .refl _
  | kfree pa =>
    rw [State.step] at hs
    split at hs
    · split at hs <;> cases hs
      exact .refl _
    · cases hs
  | call p =>
    rw [State.step] at hs
    split at hs <;> cases hs
    exact .refl _
  | go p slot ok =>
    rw [State.step] at hs
    split at hs
    · cases hs
    · next pt f hp =>
      cases hs
      cases pt <;> exact .refl _

theorem State.run_after {ls : List (Step P)} (h : s.run K ls = some s') :
    After s.count s'.count := by
  induction ls generalizing s with
  | nil =>
    cases h
    exact .refl _
  | cons l ls ih =>
    rw [State.run, Option.bind_eq_some_iff] at h
    obtain ⟨s₁, h1, h2⟩ := h
    exact (State.step_after h1).trans (ih h2)

theorem toInt32_emod (x : Nat) : (toInt32 (x % 2 ^ 64) - x) % 2 ^ 32 = 0 := by
  rw [toInt32]
  split <;> omega

/-- The reported numbers of interrupts add up. -/
theorem Chain.sum {rs : List (Report P)} {z : Counters} (h : Chain rs z)
    (hle : ∀ r ∈ rs, r.since .int ≤ r.upto .int)
    (hint : ∀ r ∈ rs, (getInt r.act 12 - ((r.upto .int - r.since .int : Nat) : Int)) % 2 ^ 32 = 0) :
    ((rs.map fun r => getInt r.act 12).sum - (z .int : Int)) % 2 ^ 32 = 0 := by
  induction rs generalizing z with
  | nil =>
    rw [show z = fun _ => 0 from h]
    rfl
  | cons r rs ih =>
    obtain ⟨rfl, hrs⟩ := h
    have h1 := ih hrs (fun r' hr' => hle r' (List.mem_cons_of_mem _ hr'))
      fun r' hr' => hint r' (List.mem_cons_of_mem _ hr')
    have h2 := hint r List.mem_cons_self
    have h3 := hle r List.mem_cons_self
    rw [List.map_cons, List.sum_cons]
    omega

/-- **The statistics are consistent for one caller at a time.**  In every run in which calls do not
overlap and succeed, with fewer than `2 ^ 64 / 100` ticks from one call to the next: active ticks
grow by at most as much as ticks over every interval; each report begins where the one before it
ended; its `cpu_percent` is the share of the active ticks in its interval, its `mem_percent` the
share of the pages not on the free list, both from 0 to 100; and the reported numbers of
interrupts add up to the interrupts up to the last report, modulo `2 ^ 32`. -/
theorem getactivity_statistics (hr : Reach K Single s) :
    (∀ c, s.g c = s.count c % 2 ^ 64) ∧
    (∀ ls s', s.run K ls = some s' → s.count .total ≤ s'.count .total ∧
      s'.count .active - s.count .active ≤ s'.count .total - s.count .total) ∧
    (∃ z, Chain s.reports z ∧
      ((s.reports.map fun r => getInt r.act 12).sum - (z .int : Int)) % 2 ^ 32 = 0) ∧
    ∀ r ∈ s.reports,
      (getInt r.act 0 = ((100 * (r.upto .active - r.since .active) /
        (r.upto .total - r.since .total) : Nat) : Int) ∧
        0 ≤ getInt r.act 0 ∧ getInt r.act 0 ≤ 100) ∧
      (getInt r.act 4 = ((100 * (Multiset.card (pages K) - r.inFree) /
        Multiset.card (pages K) : Nat) : Int) ∧ 0 ≤ getInt r.act 4 ∧ getInt r.act 4 ≤ 100) ∧
      (getInt r.act 12 - ((r.upto .int - r.since .int : Nat) : Int)) % 2 ^ 32 = 0 := by
  have h := hr.alone
  have hint : ∀ r ∈ s.reports, r.since .int ≤ r.upto .int ∧
      (getInt r.act 12 - ((r.upto .int - r.since .int : Nat) : Int)) % 2 ^ 32 = 0 := by
    intro r hrep
    obtain ⟨f, ticks, slot, hact, hfit⟩ := h.inv.fits r hrep
    rw [hact, hfit.interrupts ticks slot]
    exact ⟨hfit.after.le .int, toInt32_emod _⟩
  refine ⟨h.inv.words, fun ls s' hrun => ?_, ?_, fun r hrep => ⟨?_, ?_, (hint r hrep).2⟩⟩
  · have ha := State.run_after hrun
    have h1 := ha.le .total
    have h2 := ha.le .active
    have h3 := ha.active
    exact ⟨h1, by omega⟩
  · obtain ⟨z, hz⟩ := h.chained.exists_chain
    exact ⟨z, hz, hz.sum (fun r hrep => (hint r hrep).1) fun r hrep => (hint r hrep).2⟩
  · obtain ⟨f, ticks, slot, hact, hfit⟩ := h.inv.fits r hrep
    obtain ⟨hcpu, hle⟩ := hfit.cpuPercent (hfit.bound .total) ticks slot
    rw [hact, hcpu]
    exact ⟨rfl, Int.natCast_nonneg _, Int.ofNat_le.2 hle⟩
  · obtain ⟨f, ticks, slot, hact, hsaw, hfree⟩ := h.reports r hrep
    obtain ⟨hmem, hle⟩ := hsaw.memPercent ticks slot
    rw [hact, hmem, ← hfree]
    exact ⟨rfl, Int.natCast_nonneg _, Int.ofNat_le.2 hle⟩

end

theorem getactivity_statistics_once : ∃ s : State Unit,
    (boot image fun _ _ => 0).run image once = some s ∧
    ∃ r ∈ s.reports, getInt r.act 0 = ((100 * (r.upto .active - r.since .active) /
        (r.upto .total - r.since .total) : Nat) : Int) ∧
      getInt r.act 4 = ((100 * (Multiset.card (pages image) - r.inFree) /
        Multiset.card (pages image) : Nat) : Int) := by
  have hcall : ∀ s : State Unit, (∀ q, s.call q = none) → (∀ c, s.count c - s.reported c = 1) →
      Single s (.call ()) :=
    fun s hidle hone => ⟨hidle, by rw [hone]; decide⟩
  obtain ⟨s, r, hs, hreach, hr⟩ := reach_once (fun _ => trivial) hcall fun _ => rfl
  obtain ⟨hcpu, hmem, -⟩ := (getactivity_statistics hreach).2.2.2 r hr
  exact ⟨s, hs, r, hr, hcpu.1, hmem.1⟩

/-- The machine after `k` ticks, before the first call; `w` is the word that counts them. -/
def afterTicks (m : Mem) (w k : Nat) : State Unit where
  g _ := w
  last _ := 0
  ticks := 0
  lastKeypress := 0
  mem := m
  call _ := none
  count _ := k
  reported _ := 0
  reports := []

theorem run_ticks (m : Mem) (k j : Nat) (ls : List (Step Unit)) :
    (afterTicks m (j % 2 ^ 64) j).run image (List.replicate k tick ++ ls) =
      (afterTicks m ((j + k) % 2 ^ 64) (j + k)).run image ls := by
  induction k generalizing j with
  | zero => rfl
  | succ k ih =>
    have hstep : (afterTicks m (j % 2 ^ 64) j).step image tick =
        some (afterTicks m ((j + 1) % 2 ^ 64) (j + 1)) := by
      have hg : (Trap.kernel true true).apply inc64 (fun _ => j % 2 ^ 64) =
          fun _ => (j + 1) % 2 ^ 64 := by
        refine funext fun c => ?_
        rw [Trap.apply_mod (a := fun _ => j) _ fun _ => rfl]
        cases c <;> rfl
      have hc : (Trap.kernel true true).apply (· + 1) (fun _ => j) = fun _ => j + 1 := by
        refine funext fun c => ?_
        cases c <;> rfl
      rw [tick, State.step]
      simp only [afterTicks, hg, hc]
    rw [List.replicate_succ, List.cons_append, State.run, hstep, Option.bind_some, ih,
      Nat.add_assoc, Nat.add_comm 1 k]

theorem boot_eq (K : Image) (ram : Nat → Bytes) : ∃ m, boot K ram = afterTicks m 0 0 := ⟨_, rfl⟩

/-- The call after them. -/
theorem run_call (m : Mem) (w k : Nat) :
    ∃ s, (afterTicks m w k).run image (.call () :: goOn () 9) = some s ∧
    ∃ r ∈ s.reports, (∀ c, r.since c = 0) ∧ ∀ c, r.upto c = k := by
  refine ⟨_, rfl, _, List.mem_cons_self, fun c => ?_, fun c => rfl⟩
  cases c <;> rfl

/-- After `2 ^ 58` ticks without a call, all of them active, `delta_active * 100` wraps around and
`cpu_percent` is 36. -/
theorem getactivity_overflow : ∃ s : State Unit,
    (boot image fun _ _ => 0).run image
      (List.replicate (2 ^ 58) tick ++ .call () :: goOn () 9) = some s ∧
    ∃ r ∈ s.reports, (∀ c, r.since c = 0) ∧ (∀ c, r.upto c = 2 ^ 58) ∧ getInt r.act 0 = 36 := by
  have hreach : Reach image (Apart fun _ _ => True) (boot image fun _ _ => 0 : State Unit) := .boot _
  obtain ⟨m, hboot⟩ := boot_eq image fun _ _ => 0
  obtain ⟨s, hs, r, hr, h0, hk⟩ := run_call m (2 ^ 58) (2 ^ 58)
  have hticks : ∀ ls, (afterTicks m 0 0).run image (List.replicate (2 ^ 58) tick ++ ls) =
      (afterTicks m (2 ^ 58) (2 ^ 58)).run image ls := by
    intro ls
    have := run_ticks m (2 ^ 58) 0 ls
    rwa [Nat.zero_add, Nat.zero_mod, Nat.mod_eq_of_lt (by decide)] at this
  have hreach' : Reach image (Apart fun _ _ => True) s := by
    have h1 : Reach image (Apart fun _ _ => True) (afterTicks m (2 ^ 58) (2 ^ 58)) := by
      have hrun := hticks []
      rw [List.append_nil] at hrun
      refine (hboot ▸ hreach).run (fun l hl s => ?_) hrun
      rw [List.eq_of_mem_replicate hl]
      trivial
    rw [State.run, Option.bind_eq_some_iff] at hs
    obtain ⟨s₁, h2, hs⟩ := hs
    have hcall : Apart (fun _ _ => True) (afterTicks m (2 ^ 58) (2 ^ 58)) (.call ()) :=
      ⟨(fun _ _ _ h => by cases h), fun _ => trivial⟩
    refine (h1.step hcall h2).run (fun l hl s => ?_) hs
    rw [List.eq_of_mem_replicate hl]
    trivial
  refine ⟨s, by rw [hboot, hticks]; exact hs, r, hr, h0, hk, ?_⟩
  obtain ⟨f, ticks, slot, hact, hfit⟩ := (hreach'.inv fun _ _ ha => ha).fits r hr
  rw [hact, getInt_fill_cpuPercent, Inputs.cpuPercent]
  show (if f.delta .total = 0 then (0 : Int) else
    toInt32 (f.delta .active * 100 % 2 ^ 64 / f.delta .total)) = 36
  rw [hfit.deltaOf, hfit.deltaOf, h0, h0, hk, hk]
  decide

end Xv6.Activity
