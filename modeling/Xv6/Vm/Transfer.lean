import Xv6.Vm.Map

/-!
# Copying between the kernel and user memory

`copyin`, `copyinstr` and `copyout` on any page table.  Each of them goes through the range page by
page and stops at the first page that it may not use; `lead` is how many bytes that leaves.

The first two only read.  What `copyout` writes is read back only if the tables are not among the
pages that it writes to, and where two virtual pages are the same physical page the later write
wins.
-/

set_option autoImplicit false

namespace Xv6

variable {m m₁ m' : Mem} {t a b n len : Nat}

/-! ### The bytes at the front -/

/-- How many of the `n` addresses from `a` on have the property, up to the first that has not. -/
def lead (P : Nat → Prop) [DecidablePred P] : Nat → Nat → Nat
  | _, 0 => 0
  | a, n + 1 => if P a then lead P (a + 1) n + 1 else 0

section

variable {P : Nat → Prop} [DecidablePred P]

theorem lead_zero (P : Nat → Prop) [DecidablePred P] (a : Nat) : lead P a 0 = 0 := by
  rw [lead]

theorem lead_of_not (h : ¬ P a) : ∀ n, lead P a n = 0
  | 0 => by rw [lead]
  | n + 1 => by rw [lead, if_neg h]

theorem lead_le (P : Nat → Prop) [DecidablePred P] : ∀ a n, lead P a n ≤ n
  | _, 0 => by rw [lead]
  | a, n + 1 => by
    rw [lead]
    split
    · exact Nat.succ_le_succ (lead_le P (a + 1) n)
    · exact Nat.zero_le _

theorem lead_add : ∀ {a n : Nat}, (∀ i, i < n → P (a + i)) → ∀ k,
    lead P a (n + k) = n + lead P (a + n) k
  | a, 0, _, k => by rw [Nat.zero_add, Nat.zero_add, Nat.add_zero]
  | a, n + 1, h, k => by
    have h0 : P a := h 0 (Nat.succ_pos n)
    have ht : ∀ i, i < n → P (a + 1 + i) := fun i hi => by
      rw [Nat.add_assoc, Nat.add_comm 1]
      exact h (i + 1) (Nat.succ_lt_succ hi)
    rw [Nat.succ_add, lead, if_pos h0, lead_add ht k, Nat.add_assoc a 1 n, Nat.add_comm 1 n]
    omega

theorem lead_spec : ∀ {a n : Nat}, (∀ i, i < lead P a n → P (a + i)) ∧
    (lead P a n < n → ¬ P (a + lead P a n))
  | a, 0 => by
    rw [lead]
    exact ⟨fun i hi => absurd hi i.not_lt_zero, fun h => absurd h (lt_irrefl 0)⟩
  | a, n + 1 => by
    obtain ⟨h1, h2⟩ := lead_spec (a := a + 1) (n := n)
    rw [lead]
    split
    · next h0 =>
      refine ⟨fun i hi => ?_, fun h => ?_⟩
      · cases i with
        | zero => exact h0
        | succ i =>
          rw [Nat.add_comm i 1, ← Nat.add_assoc]
          exact h1 i (Nat.lt_of_succ_lt_succ hi)
      · rw [Nat.add_comm _ 1, ← Nat.add_assoc]
        exact h2 (Nat.lt_of_succ_lt_succ h)
    · next h0 => exact ⟨fun i hi => absurd hi i.not_lt_zero, fun _ => h0⟩

/-- All of them have the property. -/
theorem lead_eq_iff : lead P a n = n ↔ ∀ i, i < n → P (a + i) := by
  constructor
  · intro h i hi
    exact lead_spec.1 i (by rw [h]; exact hi)
  · intro h
    have := lead_add h 0
    rwa [lead_zero, Nat.add_zero] at this

end

/-! ### Mapped addresses -/

/-- `a` is below `MAXVA` and mapped with `PTE_V` and `PTE_U`. -/
def CanRead (lf : Nat → Nat) (a : Nat) : Prop :=
  a < MAXVA ∧ has (lf (a / PGSIZE)) PTE_V ∧ has (lf (a / PGSIZE)) PTE_U

/-- `a` is mapped with `PTE_W` as well. -/
def CanWrite (lf : Nat → Nat) (a : Nat) : Prop := CanRead lf a ∧ has (lf (a / PGSIZE)) PTE_W

instance (lf : Nat → Nat) : DecidablePred (CanRead lf) := fun _ =>
  inferInstanceAs (Decidable (_ ∧ _ ∧ _))

instance (lf : Nat → Nat) : DecidablePred (CanWrite lf) := fun _ =>
  inferInstanceAs (Decidable (_ ∧ _))

/-- Where the byte at the user address `a` is: its page and its place there. -/
def place (lf : Nat → Nat) (a : Nat) : Nat × Nat := (pte2pa (lf (a / PGSIZE)), a % PGSIZE)

/-- The byte at the user address `a`. -/
def ubyte (m : Mem) (t a : Nat) : UInt8 := m.ram (pte2pa (leaf m.ram t (a / PGSIZE))) (a % PGSIZE)

/-- No page for the user is at address 0, which stands for none. -/
def Framed (ram : Nat → Bytes) (t : Nat) : Prop :=
  ∀ v, has (leaf ram t v) PTE_V → has (leaf ram t v) PTE_U → pte2pa (leaf ram t v) ≠ 0

/-- No page that the user may write is one of the tables. -/
def TablesApart (ram : Nat → Bytes) (t : Nat) : Prop :=
  ∀ a, CanWrite (leaf ram t) a → pte2pa (leaf ram t (a / PGSIZE)) ∉ nodes ram 2 t

/-- No two virtual pages that the user may write are the same page. -/
def Distinct (ram : Nat → Bytes) (t : Nat) : Prop :=
  ∀ a b, CanWrite (leaf ram t) a → CanWrite (leaf ram t) b →
    pte2pa (leaf ram t (a / PGSIZE)) = pte2pa (leaf ram t (b / PGSIZE)) → a / PGSIZE = b / PGSIZE

theorem Distinct.place_inj (h : Distinct m.ram t) (ha : CanWrite (leaf m.ram t) a)
    (hb : CanWrite (leaf m.ram t) b) (heq : place (leaf m.ram t) a = place (leaf m.ram t) b) :
    a = b := by
  obtain ⟨hpa, hoff⟩ := Prod.mk.inj heq
  rw [← Nat.div_add_mod a PGSIZE, ← Nat.div_add_mod b PGSIZE, h a b ha hb hpa, hoff]

/-- What one iteration of a copy covers: `n` bytes, all of them on one page. -/
theorem chunk (hlen : 0 < len)
    (hn : n = if PGSIZE - (a - pgrounddown a) > len then len else PGSIZE - (a - pgrounddown a)) :
    0 < n ∧ n ≤ len ∧ (∀ i, i < n → (a + i) / PGSIZE = a / PGSIZE ∧
      (a + i) % PGSIZE = a - pgrounddown a + i) ∧ (n < len → pgrounddown a + PGSIZE = a + n) := by
  rw [pgrounddown, PGSIZE] at *
  split at hn <;> exact ⟨by omega, by omega, fun i hi => by omega, by omega⟩

theorem pgrounddown_div (a : Nat) : pgrounddown a / PGSIZE = a / PGSIZE :=
  Nat.mul_div_cancel _ (by decide)

theorem pgrounddown_ge : pgrounddown a ≥ MAXVA ↔ MAXVA ≤ a := by
  rw [pgrounddown, PGSIZE, show MAXVA = 2 ^ 26 * 4096 from rfl]
  omega

theorem canRead_congr {lf : Nat → Nat} (h : b / PGSIZE = a / PGSIZE) :
    CanRead lf b ↔ CanRead lf a := by
  have hmax : b < MAXVA ↔ a < MAXVA := by
    rw [show MAXVA = 2 ^ 26 * 4096 from rfl]
    rw [PGSIZE] at h
    omega
  rw [CanRead, CanRead, h, hmax]

theorem canWrite_congr {lf : Nat → Nat} (h : b / PGSIZE = a / PGSIZE) :
    CanWrite lf b ↔ CanWrite lf a := by
  rw [CanWrite, CanWrite, canRead_congr h, h]

/-- The `n` bytes of a chunk, and those after it. -/
theorem lead_chunk {P : Nat → Prop} [DecidablePred P] (hn : n ≤ len)
    (hP : ∀ i, i < n → P (a + i)) (hnext : n < len → b = a + n) :
    lead P a len = n + lead P b (len - n) := by
  obtain ⟨k, rfl⟩ := Nat.exists_eq_add_of_le hn
  rw [lead_add hP, Nat.add_sub_cancel_left]
  rcases Nat.eq_zero_or_pos k with rfl | hk
  · rw [lead_zero, lead_zero]
  · rw [hnext (by omega)]

/-- `walkaddr` finds the page exactly where the user may read. -/
theorem Framed.wp_walkaddr (h : Framed m.ram t) {Q : Nat → Mem → Prop} {E : Halt → Mem → Prop} :
    (CanRead (leaf m.ram t) a → pte2pa (leaf m.ram t (a / PGSIZE)) ≠ 0) ∧
    (wp (walkaddr t (pgrounddown a)) Q E m ↔
      Q (if CanRead (leaf m.ram t) a then pte2pa (leaf m.ram t (a / PGSIZE)) else 0) m) := by
  refine ⟨fun hr => h _ hr.2.1 hr.2.2, ?_⟩
  rw [Xv6.wp_walkaddr, pgrounddown_div]
  have heq : (if pgrounddown a ≥ MAXVA then 0 else addrOf (leaf m.ram t (a / PGSIZE))) =
      if CanRead (leaf m.ram t) a then pte2pa (leaf m.ram t (a / PGSIZE)) else 0 := by
    by_cases hge : MAXVA ≤ a
    · rw [if_pos (pgrounddown_ge.2 hge), if_neg fun hr => absurd hr.1 (Nat.not_lt.2 hge)]
    · rw [if_neg fun hr => hge (pgrounddown_ge.1 hr), addrOf]
      refine if_congr ?_ rfl rfl
      rw [CanRead, Bool.and_eq_true]
      simp only [Nat.lt_of_not_le hge, true_and]
  rw [heq]

/-! ### `copyin` -/

theorem copyinFrom_spec (h : Framed m.ram t) : ∀ {fuel : Nat} {dst : Bytes} {done srcva len : Nat},
    len < fuel → wp (copyinFrom t fuel dst done srcva len)
      (fun r m' => m' = m ∧ r = (if lead (CanRead (leaf m.ram t)) srcva len = len then 0 else -1,
        blit dst done (fun i => ubyte m t (srcva + i)) (lead (CanRead (leaf m.ram t)) srcva len)))
      (fun _ _ => False) m
  | 0, _, _, _, _, hf => absurd hf (Nat.not_lt_zero _)
  | fuel + 1, dst, done, srcva, len, hf => by
    rw [copyinFrom]
    split
    · next hlen =>
      rw [wp_pure, hlen, lead_zero, if_pos rfl, blit_zero]
      exact ⟨rfl, rfl⟩
    · next hlen =>
      obtain ⟨n, hn⟩ : ∃ n, n = if PGSIZE - (srcva - pgrounddown srcva) > len then len
        else PGSIZE - (srcva - pgrounddown srcva) := ⟨_, rfl⟩
      obtain ⟨hpos, hle, hpage, hnext⟩ := chunk (by omega) hn
      simp only [wp_bind, h.wp_walkaddr.2]
      by_cases hr : CanRead (leaf m.ram t) srcva
      · rw [if_pos hr, if_neg (h _ hr.2.1 hr.2.2)]
        simp only [wp_bind, wp_get, ← hn]
        have hall : ∀ i, i < n → CanRead (leaf m.ram t) (srcva + i) := fun i hi =>
          (canRead_congr (hpage i hi).1).2 hr
        refine wp_mono (copyinFrom_spec h (by omega)) (fun r m' hm => ⟨hm.1, ?_⟩) fun _ _ he => he
        -- the bytes of this page, and then the rest
        have hfirst : (fun j => if done ≤ j ∧ j < done + n then
            m.ram (pte2pa (leaf m.ram t (srcva / PGSIZE)))
              (srcva - pgrounddown srcva + (j - done)) else dst j) =
            blit dst done (fun i => ubyte m t (srcva + i)) n := by
          show blit dst done (fun i => m.ram (pte2pa (leaf m.ram t (srcva / PGSIZE)))
            (srcva - pgrounddown srcva + i)) n = _
          refine blit_congr fun i hi => ?_
          rw [ubyte, (hpage i hi).1, (hpage i hi).2]
        have hrest := lead_le (CanRead (leaf m.ram t)) (pgrounddown srcva + PGSIZE) (len - n)
        rw [hm.2, lead_chunk hle hall hnext, hfirst, blit_append fun i hi => ?_]
        · exact congrArg (·, _) (if_congr (by omega) rfl rfl)
        · rw [hnext (by omega), Nat.add_assoc]
      · rw [if_neg hr, if_pos rfl, wp_pure, lead_of_not hr, if_neg (by omega), blit_zero]
        exact ⟨rfl, rfl⟩

/-- `copyin` copies the bytes up to the first that the user may not read. -/
theorem copyin_eq (h : Framed m.ram t) (dst : Bytes) (srcva len : Nat) :
    copyin t dst srcva len m =
      .ok (if lead (CanRead (leaf m.ram t)) srcva len = len then 0 else -1,
        blit dst 0 (fun i => ubyte m t (srcva + i)) (lead (CanRead (leaf m.ram t)) srcva len)) m := by
  have hspec : wp (copyin t dst srcva len) _ _ m := copyinFrom_spec h (Nat.lt_succ_self len)
  obtain ⟨r, m', hrun, rfl, rfl⟩ := hspec.exists_ok
  exact hrun

/-! ### `copyinstr` -/

/-- The inner loop of `copyinstr` copies the bytes up to the first 0, and that one if it is among
the `n` bytes. -/
theorem copyinstrPage_eq (page : Bytes) : ∀ (n off : Nat) (dst : Bytes) (done : Nat) {k : Nat},
    k = lead (page · ≠ 0) off n → copyinstrPage page n off dst done =
      if k < n then
        (true, Function.update (blit dst done (fun i => page (off + i)) k) (done + k) 0, done + k)
      else (false, blit dst done (fun i => page (off + i)) k, done + k)
  | 0, off, dst, done, k, hk => by
    rw [lead_zero] at hk
    rw [hk, if_neg (lt_irrefl 0), blit_zero]
    rfl
  | n + 1, off, dst, done, k, hk => by
    rw [copyinstrPage]
    by_cases h0 : page off = 0
    · rw [lead_of_not (not_not.2 h0)] at hk
      rw [hk, if_pos h0, if_pos (Nat.succ_pos n), blit_zero]
      rfl
    · rw [lead, if_pos h0] at hk
      have hblit : blit (Function.update dst done (page off)) (done + 1)
          (fun i => page (off + 1 + i)) (lead (page · ≠ 0) (off + 1) n) =
          blit dst done (fun i => page (off + i)) k := by
        have hone := blit_one dst done fun i => page (off + i)
        rw [Nat.add_zero] at hone
        rw [hk, ← hone, blit_append fun i _ => by rw [Nat.add_assoc], Nat.add_comm 1]
      rw [if_neg h0, copyinstrPage_eq page n _ _ _ rfl, hblit, hk, Nat.add_assoc, Nat.add_comm 1]
      exact if_congr (by omega) rfl rfl

/-- `a` is mapped for the user to read, and does not hold a 0. -/
def InString (m : Mem) (t a : Nat) : Prop := CanRead (leaf m.ram t) a ∧ ubyte m t a ≠ 0

instance (m : Mem) (t : Nat) : DecidablePred (InString m t) := fun _ =>
  inferInstanceAs (Decidable (_ ∧ _))

/-- What `copyinstr` returns, and what `dst` has become, when it has come to the end of the string
at `srcva`, of `k` bytes, or has got stuck there. -/
def strResult (m : Mem) (t : Nat) (dst : Bytes) (done srcva max k : Nat) : Int × Bytes :=
  if k < max ∧ CanRead (leaf m.ram t) (srcva + k) then
    (0, Function.update (blit dst done (fun i => ubyte m t (srcva + i)) k) (done + k) 0)
  else (-1, blit dst done (fun i => ubyte m t (srcva + i)) k)

/-- A string that goes on after the first `n` bytes. -/
theorem strResult_append {dst : Bytes} {done srcva next max k : Nat} (hn : n ≤ max)
    (hk : k ≤ max - n) (hnext : n < max → next = srcva + n) :
    strResult m t (blit dst done (fun i => ubyte m t (srcva + i)) n) (done + n) next (max - n) k =
      strResult m t dst done srcva max (n + k) := by
  rw [strResult, strResult, blit_append fun i hi => by rw [hnext (by omega), Nat.add_assoc],
    Nat.add_assoc]
  refine if_congr ?_ rfl rfl
  constructor
  · rintro ⟨h1, h2⟩
    rw [hnext (by omega), Nat.add_assoc] at h2
    exact ⟨by omega, h2⟩
  · rintro ⟨h1, h2⟩
    rw [hnext (by omega), Nat.add_assoc]
    exact ⟨by omega, h2⟩

theorem copyinstrFrom_spec (h : Framed m.ram t) :
    ∀ {fuel : Nat} {dst : Bytes} {done srcva max : Nat},
    max < fuel → wp (copyinstrFrom t fuel dst done srcva max)
      (fun r m' => m' = m ∧
        r = strResult m t dst done srcva max (lead (InString m t) srcva max))
      (fun _ _ => False) m
  | 0, _, _, _, _, hf => absurd hf (Nat.not_lt_zero _)
  | fuel + 1, dst, done, srcva, max, hf => by
    rw [copyinstrFrom]
    split
    · next hmax =>
      rw [wp_pure, hmax, lead_zero, strResult, if_neg (by omega), blit_zero]
      exact ⟨rfl, rfl⟩
    · next hmax =>
      obtain ⟨n, hn⟩ : ∃ n, n = if PGSIZE - (srcva - pgrounddown srcva) > max then max
        else PGSIZE - (srcva - pgrounddown srcva) := ⟨_, rfl⟩
      obtain ⟨hpos, hle, hpage, hnext⟩ := chunk (by omega) hn
      simp only [wp_bind, h.wp_walkaddr.2]
      by_cases hr : CanRead (leaf m.ram t) srcva
      · rw [if_pos hr, if_neg (h _ hr.2.1 hr.2.2)]
        simp only [wp_bind, wp_get, ← hn]
        have hb : ∀ i, i < n → m.ram (pte2pa (leaf m.ram t (srcva / PGSIZE)))
            (srcva - pgrounddown srcva + i) = ubyte m t (srcva + i) :=
          fun i hi => by rw [ubyte, (hpage i hi).1, (hpage i hi).2]
        have hreads : ∀ i, i < n → CanRead (leaf m.ram t) (srcva + i) := fun i hi =>
          (canRead_congr (hpage i hi).1).2 hr
        obtain ⟨k, hk⟩ : ∃ k, k = lead (m.ram (pte2pa (leaf m.ram t (srcva / PGSIZE))) · ≠ 0)
          (srcva - pgrounddown srcva) n := ⟨_, rfl⟩
        have hkn : k ≤ n := hk ▸ lead_le _ _ _
        have hstr : ∀ i, i < k → InString m t (srcva + i) := fun i hi => by
          refine ⟨hreads i (by omega), ?_⟩
          rw [← hb i (by omega)]
          rw [hk] at hi
          exact lead_spec.1 i hi
        have hblit : blit dst done (fun i => m.ram (pte2pa (leaf m.ram t (srcva / PGSIZE)))
            (srcva - pgrounddown srcva + i)) k = blit dst done (fun i => ubyte m t (srcva + i)) k :=
          blit_congr fun i hi => hb i (by omega)
        rw [copyinstrPage_eq _ n _ _ _ hk, hblit]
        by_cases hlt : k < n
        · -- the string ends on this page
          have hend : ¬ InString m t (srcva + k) := fun hs => hs.2 (by
            rw [← hb k hlt]
            have hstop := hlt
            rw [hk] at hstop
            exact hk ▸ not_not.1 (lead_spec.2 hstop))
          have hlead : lead (InString m t) srcva max = k := by
            rw [lead_chunk (b := srcva + k) (by omega) hstr fun _ => rfl, lead_of_not hend,
              Nat.add_zero]
          rw [if_pos hlt, wp_pure, hlead, strResult, if_pos ⟨by omega, hreads k hlt⟩]
          exact ⟨rfl, rfl⟩
        · obtain rfl : k = n := by omega
          rw [if_neg hlt]
          refine wp_mono (copyinstrFrom_spec h (by omega)) (fun r m' hm => ⟨hm.1, ?_⟩)
            fun _ _ he => he
          rw [hm.2, strResult_append hle (lead_le _ _ _) hnext, lead_chunk hle hstr hnext]
      · have hs : ¬ InString m t srcva := fun hs => hr hs.1
        rw [if_neg hr, if_pos rfl, wp_pure, lead_of_not hs, strResult, if_neg fun hc => hr hc.2,
          blit_zero]
        exact ⟨rfl, rfl⟩

/-- `copyinstr` copies the bytes of the string, up to its end or to where it gets stuck. -/
theorem copyinstr_eq (h : Framed m.ram t) (dst : Bytes) (srcva max : Nat) :
    copyinstr t dst srcva max m =
      .ok (strResult m t dst 0 srcva max (lead (InString m t) srcva max)) m := by
  have hspec : wp (copyinstr t dst srcva max) _ _ m := copyinstrFrom_spec h (Nat.lt_succ_self max)
  obtain ⟨r, m', hrun, rfl, rfl⟩ := hspec.exists_ok
  exact hrun

/-! ### `copyout` -/

/-- The first `c` bytes of `src`, from `done` on, have been written to the user addresses from
`dstva` on: to a place with several addresses the last of them. -/
structure Wrote (m m' : Mem) (t : Nat) (src : Bytes) (done dstva c : Nat) : Prop where
  mem : m' = { m with ram := m'.ram }
  leaf : leaf m'.ram t = Xv6.leaf m.ram t
  tables : ∀ p ∈ nodes m.ram 2 t, m'.ram p = m.ram p
  last : ∀ i, i < c → (∀ j, i < j → j < c →
    place (Xv6.leaf m.ram t) (dstva + j) ≠ place (Xv6.leaf m.ram t) (dstva + i)) →
    ubyte m' t (dstva + i) = src (done + i)
  frame : ∀ p o, (∀ i, i < c → place (Xv6.leaf m.ram t) (dstva + i) ≠ (p, o)) →
    m'.ram p o = m.ram p o

theorem Wrote.zero (m : Mem) (t : Nat) (src : Bytes) (done dstva : Nat) :
    Wrote m m t src done dstva 0 :=
  ⟨rfl, rfl, fun _ _ => rfl, fun i hi => absurd hi i.not_lt_zero, fun _ _ _ => rfl⟩

theorem TablesApart.congr (h : TablesApart m.ram t) (hm : ∀ p ∈ nodes m.ram 2 t, m'.ram p = m.ram p) :
    TablesApart m'.ram t := by
  rw [TablesApart, leaf_congr hm, nodes_congr hm]
  exact h

/-- `n` bytes have been written, and then `c` more. -/
theorem Wrote.append {src : Bytes} {done dstva next c k : Nat}
    (h₁ : Wrote m m₁ t src done dstva n) (h₂ : Wrote m₁ m' t src (done + n) next c) (hc : c ≤ k)
    (hnext : 0 < k → next = dstva + n) : Wrote m m' t src done dstva (n + c) := by
  have hnode : ∀ p ∈ nodes m.ram 2 t, p ∈ nodes m₁.ram 2 t := fun p hp => by
    rwa [nodes_congr h₁.tables]
  refine ⟨by rw [h₂.mem, h₁.mem], h₂.leaf.trans h₁.leaf,
    fun p hp => (h₂.tables p (hnode p hp)).trans (h₁.tables p hp), fun i hi hlast => ?_,
    fun p o hp => ?_⟩
  · rcases Nat.lt_or_ge i n with hin | hin
    · -- written first, and not written again
      have hb := h₁.last i hin fun j h1 h2 => hlast j h1 (by omega)
      rw [ubyte, h₁.leaf] at hb
      rw [ubyte, h₂.leaf, h₁.leaf, h₂.frame _ _ fun j hj => ?_, hb]
      rw [h₁.leaf, hnext (by omega), Nat.add_assoc]
      exact hlast (n + j) (by omega) (by omega)
    · obtain ⟨j, rfl⟩ := Nat.exists_eq_add_of_le hin
      have hb := h₂.last j (by omega) fun j' h1 h2 => by
        rw [h₁.leaf, hnext (by omega), Nat.add_assoc, Nat.add_assoc]
        exact hlast (n + j') (by omega) (by omega)
      rw [hnext (by omega), Nat.add_assoc, Nat.add_assoc] at hb
      exact hb
  · rw [h₂.frame p o fun i hi => ?_, h₁.frame p o fun i hi => hp i (by omega)]
    rw [h₁.leaf, hnext (by omega), Nat.add_assoc]
    exact hp (n + i) (by omega)

/-- One chunk is written, to the page of `a`. -/
theorem writeBytes_wrote {src : Bytes} {done : Nat}
    (hpage : ∀ i, i < n → (a + i) / PGSIZE = a / PGSIZE ∧
      (a + i) % PGSIZE = a - pgrounddown a + i)
    (hnot : pte2pa (leaf m.ram t (a / PGSIZE)) ∉ nodes m.ram 2 t) :
    wp (writeBytes (pte2pa (leaf m.ram t (a / PGSIZE))) (a - pgrounddown a)
      (fun j => src (done + j)) n) (fun _ m' => Wrote m m' t src done a n) (fun _ _ => False) m := by
  rw [writeBytes, wp_modify]
  have hother : ∀ p, p ≠ pte2pa (leaf m.ram t (a / PGSIZE)) →
      Function.update m.ram (pte2pa (leaf m.ram t (a / PGSIZE))) (fun j =>
        if a - pgrounddown a ≤ j ∧ j < a - pgrounddown a + n
        then src (done + (j - (a - pgrounddown a)))
        else m.ram (pte2pa (leaf m.ram t (a / PGSIZE))) j) p = m.ram p := fun p hp =>
    Function.update_of_ne hp _ _
  have htables : ∀ p ∈ nodes m.ram 2 t, _ = m.ram p := fun p hp =>
    hother p fun he => hnot (he ▸ hp)
  have hleaf := leaf_congr htables
  refine ⟨rfl, hleaf, htables, fun i hi _ => ?_, fun p o hp => ?_⟩
  · obtain ⟨hdiv, hmod⟩ := hpage i hi
    rw [ubyte]
    dsimp only
    rw [hleaf, hdiv, hmod, Function.update_self, if_pos (by omega), Nat.add_sub_cancel_left]
  · by_cases hpa : p = pte2pa (leaf m.ram t (a / PGSIZE))
    · dsimp only
      rw [hpa, Function.update_self]
      refine if_neg fun hc => ?_
      obtain ⟨hdiv, hmod⟩ := hpage (o - (a - pgrounddown a)) (by omega)
      refine hp (o - (a - pgrounddown a)) (by omega) ?_
      rw [place, hdiv, hmod, hpa, Nat.add_sub_cancel' hc.1]
    · exact congrFun (hother p hpa) o

theorem copyoutFrom_spec (src : Bytes) : ∀ {fuel : Nat} {m : Mem} {dstva done len : Nat},
    TablesApart m.ram t → len < fuel → wp (copyoutFrom t src fuel dstva done len)
      (fun r m' => r = (if lead (CanWrite (leaf m.ram t)) dstva len = len then 0 else -1) ∧
        Wrote m m' t src done dstva (lead (CanWrite (leaf m.ram t)) dstva len))
      (fun _ _ => False) m
  | 0, _, _, _, _, _, hf => absurd hf (Nat.not_lt_zero _)
  | fuel + 1, m, dstva, done, len, h, hf => by
    rw [copyoutFrom]
    split
    · next hlen =>
      rw [wp_pure, hlen, lead_zero, if_pos rfl]
      exact ⟨rfl, .zero m t src done dstva⟩
    · next hlen =>
      obtain ⟨n, hn⟩ : ∃ n, n = if PGSIZE - (dstva - pgrounddown dstva) > len then len
        else PGSIZE - (dstva - pgrounddown dstva) := ⟨_, rfl⟩
      obtain ⟨hpos, hle, hpage, hnext⟩ := chunk (by omega) hn
      -- every way to fail is that the first byte may not be written
      have hfail : ¬ CanWrite (leaf m.ram t) dstva →
          (-1 : Int) = (if lead (CanWrite (leaf m.ram t)) dstva len = len then 0 else -1) ∧
            Wrote m m t src done dstva (lead (CanWrite (leaf m.ram t)) dstva len) := fun hw => by
        rw [lead_of_not hw, if_neg (by omega)]
        exact ⟨rfl, .zero m t src done dstva⟩
      by_cases hmax : pgrounddown dstva ≥ MAXVA
      · rw [if_pos hmax, wp_pure]
        exact hfail fun hw => absurd hw.1.1 (Nat.not_lt.2 (pgrounddown_ge.1 hmax))
      · rw [if_neg hmax]
        simp only [wp_bind, wp_walk_false, pgrounddown_div, if_neg hmax]
        have hlt : dstva < MAXVA := Nat.lt_of_not_le fun hge => hmax (pgrounddown_ge.2 hge)
        have hv := vpn_lt hlt
        cases hs : Radix.slot child (tbl m.ram) 2 t (path (dstva / PGSIZE)) with
        | none =>
          rw [wp_pure]
          refine hfail fun hw => ?_
          have hV := hw.1.2.1
          rw [leaf_of_no_slot hs, has_zero] at hV
          cases hV
        | some s =>
          simp only [wp_bind, wp_get, Mem.pte_eq, ← leaf_of_slot (by omega) hs]
          by_cases hw : CanWrite (leaf m.ram t) dstva
          · rw [if_neg (by rw [hw.1.2.1, hw.1.2.2, hw.2]; decide)]
            simp only [wp_bind, ← hn]
            have hall : ∀ i, i < n → CanWrite (leaf m.ram t) (dstva + i) := fun i hi =>
              (canWrite_congr (hpage i hi).1).2 hw
            refine wp_mono (writeBytes_wrote hpage (h dstva hw)) (fun _ m₁ h₁ => ?_)
              fun _ _ he => he
            refine wp_mono (copyoutFrom_spec src (h.congr h₁.tables) (by omega)) (fun r m' h' => ?_)
              fun _ _ he => he
            rw [h₁.leaf] at h'
            rw [lead_chunk hle hall hnext]
            refine ⟨h'.1.trans (if_congr ?_ rfl rfl), h₁.append h'.2 (lead_le _ _ _) fun hk => ?_⟩
            · have := lead_le (CanWrite (leaf m.ram t)) (pgrounddown dstva + PGSIZE) (len - n)
              omega
            · exact hnext (by omega)
          · rw [if_pos, wp_pure]
            · exact hfail hw
            · by_contra hc
              simp only [Bool.or_eq_true, Bool.not_eq_true', not_or, Bool.not_eq_false] at hc
              exact hw ⟨⟨hlt, hc.1.1, hc.1.2⟩, hc.2⟩

/-- `copyout` writes the bytes up to the first that the user may not write. -/
theorem copyout_eq (h : TablesApart m.ram t) (dstva : Nat) (src : Bytes) (len : Nat) :
    ∃ m', copyout t dstva src len m =
        .ok (if lead (CanWrite (leaf m.ram t)) dstva len = len then 0 else -1) m' ∧
      Wrote m m' t src 0 dstva (lead (CanWrite (leaf m.ram t)) dstva len) := by
  have hspec : wp (copyout t dstva src len) _ _ m := copyoutFrom_spec src h (Nat.lt_succ_self len)
  obtain ⟨r, m', hrun, rfl, hw⟩ := hspec.exists_ok
  exact ⟨m', hrun, hw⟩

end Xv6
