import Xv6.Vm.Space
import Xv6.Vm.Transfer

/-!
# User memory, as the user and as the kernel see it

The user reaches memory through the hardware (`mmu`), the kernel through `copyin`, `copyinstr` and
`copyout`, which walk the page table themselves.  In the address space of a process both see the
same pages, each user page is a page of its own, and what is written there is read back.
-/

set_option autoImplicit false

namespace Xv6

/-! ### The hardware -/

/-- The entry the hardware finds for `va` in the table `t` of this level.  An entry of an upper
level that grants access would be a larger page; no table of xv6 has one. -/
def mmuWalk (m : Mem) (va : Nat) : Nat → Nat → Nat
  | 0, t => m.pte t (px 0 va)
  | level + 1, t =>
    let pte := m.pte t (px (level + 1) va)
    if has pte PTE_V && !has pte (PTE_R ||| PTE_W ||| PTE_X) then mmuWalk m va level (pte2pa pte)
    else 0

/-- The physical page that a user access to `va` goes to, or `none` for a page fault.  An address
whose bits 63–38 are not all equal is no virtual address. -/
def mmu (m : Mem) (t va : Nat) (store : Bool) : Option Nat :=
  if va < 2 ^ 38 ∨ 2 ^ 64 - 2 ^ 38 ≤ va ∧ va < 2 ^ 64 then
    let pte := mmuWalk m va 2 t
    if has pte PTE_V && has pte PTE_U && has pte (if store then PTE_W else PTE_R) then
      some (pte2pa pte)
    else none
  else none

variable {K : Image} {S : Multiset Nat} {m m₁ m' : Mem} {t tf v w a va len : Nat}

theorem mmuWalk_eq {ram : Nat → Bytes} (hm : m.ram = ram) : ∀ {n t : Nat}, Wf ram n t →
    mmuWalk m va n t = leafAt ram n t (va / PGSIZE)
  | 0, t, _ => by
    rw [mmuWalk, Mem.pte_eq, px_eq_path, hm, leafAt, Radix.slot, Option.elim_some]
  | n + 1, t, hw => by
    rw [mmuWalk, Mem.pte_eq, px_eq_path, hm]
    cases hc : child (tbl ram t (path (va / PGSIZE) (n + 1))) with
    | none =>
      have hV : has (tbl ram t (path (va / PGSIZE) (n + 1))) PTE_V = false := by
        by_contra hV
        rw [child, if_pos (by simpa using hV)] at hc
        cases hc
      rw [leafAt_none hc, hV]
      rfl
    | some c =>
      obtain ⟨hV, hpa⟩ := child_eq_some.1 hc
      obtain ⟨hX, hw'⟩ := hw _ (path_lt _ _) c hc
      rw [leafAt_succ hc, hV, hX, hpa, ← mmuWalk_eq hm hw']
      rfl

/-! ### Mapped addresses -/

/-- `a` is an address of a user page that is mapped. -/
def UserMapped (lf : Nat → Nat) (a : Nat) : Prop := a / PGSIZE < UVPN ∧ lf (a / PGSIZE) ≠ 0

/-- Only pages below the trapframe are mapped for the user. -/
theorem Space.lt_of_user (h : Space K m t tf S) (hU : has (leaf m.ram t v) PTE_U) : v < UVPN := by
  by_contra hv
  rcases Nat.lt_trichotomy v (UVPN + 1) with hlt | rfl | hgt
  · obtain rfl : v = UVPN := by omega
    rw [h.trapframe, trapframePte, has_or, has_or, has_pa2pte (by decide)] at hU
    exact absurd hU (by decide)
  · rw [h.trampoline, trampolinePte, has_or, has_or, has_pa2pte (by decide)] at hU
    exact absurd hU (by decide)
  · rw [h.high v (by omega), has_zero] at hU
    exact absurd hU (by decide)

theorem Space.mapped (h : Space K m t tf S) (hr : CanRead (leaf m.ram t) a) :
    UserMapped (leaf m.ram t) a :=
  ⟨h.lt_of_user hr.2.2, h.table.valid_iff.1 hr.2.1⟩

theorem Space.framed (h : Space K m t tf S) : Framed m.ram t := fun _ hV hU =>
  Nat.ne_of_gt (h.page (h.lt_of_user hU) (h.table.valid_iff.1 hV)).pos

/-- The page of a user address is one of the user's. -/
theorem UserMapped.mem (h : UserMapped (leaf m.ram t) a) :
    pte2pa (leaf m.ram t (a / PGSIZE)) ∈ upages (leaf m.ram t) 0 UVPN :=
  mem_upages.2 ⟨_, Nat.zero_le _, h.1, h.2, rfl⟩

theorem Space.apart (h : Space K m t tf S) : TablesApart m.ram t := fun _ hw hn =>
  h.table.good.disjoint hn (Multiset.mem_add.2 (Or.inl (h.mapped hw.1).mem))

/-- Two virtual pages of the user are never the same physical page. -/
theorem Space.inj (h : Space K m t tf S) (hv : v < UVPN) (hw : w < UVPN)
    (hv0 : leaf m.ram t v ≠ 0) (hw0 : leaf m.ram t w ≠ 0)
    (heq : pte2pa (leaf m.ram t v) = pte2pa (leaf m.ram t w)) : v = w := by
  by_contra hne
  have hnd : (upages (leaf m.ram t) 0 UVPN).Nodup :=
    (Multiset.nodup_add.1 (Multiset.nodup_add.1 h.table.good.nodup).2.1).1
  -- without the entry of `v` the page is still there, because of `w`
  have hsplit := upages_update (leaf m.ram t) (x := 0) (Nat.zero_le v) hv
  rw [upage_zero, add_zero, upage_of_ne hv0] at hsplit
  rw [← hsplit] at hnd
  refine Multiset.disjoint_right.1 (Multiset.nodup_add.1 hnd).2.2 (Multiset.mem_singleton_self _) ?_
  refine mem_upages.2 ⟨w, Nat.zero_le w, hw, ?_⟩
  rw [Function.update_of_ne (Ne.symm hne)]
  exact ⟨hw0, heq.symm⟩

theorem Space.distinct (h : Space K m t tf S) : Distinct m.ram t := fun _ _ ha hb heq =>
  h.inj (h.mapped ha.1).1 (h.mapped hb.1).1 (h.mapped ha.1).2 (h.mapped hb.1).2 heq

/-! ### What the hardware lets through -/

/-- The hardware lets the user through exactly where the page is mapped for the access. -/
theorem Space.mmu_eq (h : Space K m t tf S) (va : Nat) (store : Bool) : mmu m t va store =
    if CanRead (leaf m.ram t) va ∧ (store → has (leaf m.ram t (va / PGSIZE)) PTE_W)
    then some (pte2pa (leaf m.ram t (va / PGSIZE))) else none := by
  have hmax : MAXVA = 2 ^ 38 := rfl
  rw [mmu]
  by_cases hlow : va < 2 ^ 38
  · have hleaf : mmuWalk m va 2 t = leaf m.ram t (va / PGSIZE) := by
      rw [mmuWalk_eq rfl h.table.wf, leafAt_eq_leaf, PGSIZE, Nat.mod_eq_of_lt (by omega)]
    rw [if_pos (Or.inl hlow), hleaf]
    refine if_congr ?_ rfl rfl
    rw [CanRead, hmax]
    by_cases h0 : leaf m.ram t (va / PGSIZE) = 0
    · simp [h0, has_zero]
    · obtain ⟨hV, hR⟩ := h.table.read _ h0
      have hlow' : va < 274877906944 := hlow
      cases store <;> simp [hV, hR, hlow']
  · have hno : ¬ (CanRead (leaf m.ram t) va ∧
        (store → has (leaf m.ram t (va / PGSIZE)) PTE_W)) := fun hr => hlow (hmax ▸ hr.1.1)
    rw [if_neg hno]
    split
    · next hhigh =>
      have h0 : mmuWalk m va 2 t = 0 := by
        rw [mmuWalk_eq rfl h.table.wf, leafAt_eq_leaf]
        refine h.high _ ?_
        rw [UVPN_eq, PGSIZE]
        omega
      simp [h0, has_zero]
    · rfl

/-! ### Writing user memory -/

/-- Only user pages have been written. -/
structure UserWrote (K : Image) (S : Multiset Nat) (m m' : Mem) (t tf : Nat) : Prop where
  space : Space K m' t tf S
  leaf : leaf m'.ram t = Xv6.leaf m.ram t
  keeps : ∀ p ∈ S, m'.ram p = m.ram p
  freelist : m'.freelist = m.freelist
  failed : m'.failed = m.failed
  missing : ∀ w, missing m'.ram 2 t w = Xv6.missing m.ram 2 t w

/-- Replacing the bytes of the user page `v`. -/
theorem Space.write {b : Bytes} (h : Space K m t tf S) (hv : v < UVPN) (hv0 : leaf m.ram t v ≠ 0)
    (hram : m'.ram = Function.update m.ram (pte2pa (leaf m.ram t v)) b)
    (hfree : m'.freelist = m.freelist) (hcount : m'.freePages = m.freePages)
    (hfailed : m'.failed = m.failed) :
    UserWrote K S m m' t tf ∧ ∀ a, UserMapped (leaf m.ram t) a →
      ubyte m' t a = if a / PGSIZE = v then b (a % PGSIZE) else ubyte m t a := by
  have hmem : pte2pa (leaf m.ram t v) ∈ upages (leaf m.ram t) 0 UVPN :=
    mem_upages.2 ⟨v, Nat.zero_le v, hv, hv0, rfl⟩
  have hg := h.table.good
  have hnodes : ∀ p ∈ nodes m.ram 2 t, m'.ram p = m.ram p := by
    rw [hram]
    exact update_of_not_mem _ _ fun hn => hg.disjoint hn (Multiset.mem_add.2 (Or.inl hmem))
  have hS : ∀ p ∈ S, m'.ram p = m.ram p := by
    rw [← add_assoc, add_comm (nodes m.ram 2 t), add_assoc] at hg
    rw [hram]
    exact update_of_not_mem _ _ fun hs => hg.disjoint hmem (Multiset.mem_add.2 (Or.inr hs))
  obtain ⟨hsp, hleaf⟩ := h.congr hnodes (h.good.congr hfree hcount rfl)
  refine ⟨⟨hsp, hleaf, hS, hfree, hfailed,
    fun w => missing_congr w 2 t fun p hp => tbl_congr (hnodes p hp)⟩, fun a ha => ?_⟩
  rw [ubyte, hleaf, hram]
  by_cases hav : a / PGSIZE = v
  · rw [if_pos hav, hav, Function.update_self]
  · have hne : pte2pa (leaf m.ram t (a / PGSIZE)) ≠ pte2pa (leaf m.ram t v) := fun heq =>
      hav (h.inj ha.1 hv ha.2 hv0 heq)
    rw [if_neg hav, Function.update_of_ne hne, ubyte]

/-- Writing bytes of the user page `v`. -/
theorem Space.writeBytes (h : Space K m t tf S) (hv : v < UVPN) (hv0 : leaf m.ram t v ≠ 0)
    (off : Nat) (src : Bytes) (n : Nat) :
    wp (writeBytes (pte2pa (leaf m.ram t v)) off src n)
      (fun _ m' => UserWrote K S m m' t tf ∧ ∀ a, UserMapped (leaf m.ram t) a →
        ubyte m' t a = if a / PGSIZE = v ∧ off ≤ a % PGSIZE ∧ a % PGSIZE < off + n
          then src (a % PGSIZE - off) else ubyte m t a)
      (fun _ _ => False) m := by
  rw [Xv6.writeBytes, wp_modify]
  generalize hm : Mem.mk _ _ _ _ _ = m'
  have hram : m'.ram = _ := congrArg Mem.ram hm.symm
  obtain ⟨hwrote, hbytes⟩ := h.write hv hv0 hram (by rw [← hm]) (by rw [← hm]) (by rw [← hm])
  refine ⟨hwrote, fun a ha => ?_⟩
  rw [hbytes a ha]
  by_cases hav : a / PGSIZE = v
  · simp only [hav, true_and, if_true, ubyte]
  · rw [if_neg hav, if_neg fun hc => hav hc.1]

/-- Nothing but user pages has been written. -/
theorem Wrote.userWrote {src : Bytes} {dstva c : Nat} (h : Space K m t tf S)
    (hw : Wrote m m' t src 0 dstva c)
    (hc : ∀ i, i < c → CanWrite (Xv6.leaf m.ram t) (dstva + i)) :
    UserWrote K S m m' t tf := by
  have hfree : m'.freelist = m.freelist := by rw [hw.mem]
  have hcount : m'.freePages = m.freePages := by rw [hw.mem]
  have hg := h.table.good
  rw [← add_assoc, add_comm (nodes m.ram 2 t), add_assoc] at hg
  obtain ⟨hsp, hleaf⟩ := h.congr hw.tables (h.good.congr hfree hcount rfl)
  refine ⟨hsp, hleaf, fun p hp => funext fun o => hw.frame p o fun i hi heq => ?_, hfree,
    by rw [hw.mem], fun w => missing_congr w 2 t fun p hp => tbl_congr (hw.tables p hp)⟩
  obtain ⟨rfl, -⟩ := Prod.mk.inj heq
  exact hg.disjoint (h.mapped (hc i hi).1).mem (Multiset.mem_add.2 (Or.inr hp))

/-- **`copyout` writes what the user may write of the range, up to the first byte that it may not,
and the user reads it there.** -/
theorem Space.copyout (h : Space K m t tf S) (dstva : Nat) (src : Bytes) (len : Nat) {c : Nat}
    (hc : c = lead (CanWrite (leaf m.ram t)) dstva len) :
    wp (copyout t dstva src len)
      (fun r m' => r = (if c = len then 0 else -1) ∧ UserWrote K S m m' t tf ∧
        ∀ a, UserMapped (leaf m.ram t) a → ubyte m' t a =
          if dstva ≤ a ∧ a < dstva + c then src (a - dstva) else ubyte m t a)
      (fun _ _ => False) m := by
  obtain ⟨m', hrun, hw⟩ := copyout_eq h.apart dstva src len
  rw [← hc] at hrun hw
  have hcan : ∀ i, i < c → CanWrite (leaf m.ram t) (dstva + i) := fun i hi => by
    rw [hc] at hi
    exact lead_spec.1 i hi
  refine (wp_of_ok hrun).2 ⟨rfl, hw.userWrote h hcan, fun a ha => ?_⟩
  split
  · next hr =>
    have hb := hw.last (a - dstva) (by omega) fun j h1 h2 heq => ?_
    · rwa [Nat.add_sub_cancel' hr.1, Nat.zero_add] at hb
    · have := h.distinct.place_inj (hcan j h2) (hcan _ (by omega)) heq
      omega
  · next hr =>
    rw [ubyte, hw.leaf, hw.frame _ _ fun i hi heq => hr ?_, ubyte]
    obtain ⟨hpa, hoff⟩ := Prod.mk.inj heq
    have hm := h.mapped (hcan i hi).1
    have hpage := h.inj hm.1 ha.1 hm.2 ha.2 hpa
    have hai : dstva + i = a := by
      rw [← Nat.div_add_mod (dstva + i) PGSIZE, ← Nat.div_add_mod a PGSIZE, hpage, hoff]
    omega

end Xv6
