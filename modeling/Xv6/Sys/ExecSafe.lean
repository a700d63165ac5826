import Xv6.Sys.Stack
import Xv6.Sys.Inv

/-!
# `exec` on any file

Whatever the file holds, `exec` ends in one of two ways.  Either it fails, every page it took is
back on the free list and nothing else has changed; or the process has the new address space, with
the arguments on its stack, and the old one is back on the free list.
-/

set_option autoImplicit false

namespace Xv6

variable {K : Image} {S S' : Multiset Nat} {s s' : Sys} {m₀ m m' : Mem} {p : Fin NPROC}
  {t tf sz base : Nat} {argv : List Nat}

/-! ## The caller -/

/-- A process that calls `exec`.  Its pages are mapped below its size, and its size is below the
trapframe; `S` are the pages that are held outside of it. -/
structure Caller (K : Image) (S : Multiset Nat) (s : Sys) (p : Fin NPROC) : Prop where
  good : Good K s.mem (procPages s.mem.ram (s.proc p) + S)
  pagetable : (s.proc p).pagetable ≠ 0
  shape : Shape K s.mem.ram (s.proc p).pagetable (s.proc p).trapframe
  tight : Tight s.mem.ram (s.proc p)

/-- Every process in use is such a caller. -/
theorem SysOk.caller {R : Multiset Nat} {x : Fin NFILE → Nat} (h : SysOk K True R x s)
    (hp : (s.proc p).state ≠ .unused) :
    Caller K (∑ i ∈ Finset.univ.erase p, procPages s.mem.ram (s.proc i) +
      ((pipePages s.file).val + R)) s p where
  good := by
    rw [← add_assoc, Finset.add_sum_erase _ (fun i => procPages s.mem.ram (s.proc i))
      (Finset.mem_univ p)]
    exact h.good
  pagetable := ((h.procs p).shape hp).1
  shape := ((h.procs p).shape hp).2
  tight := (h.procs p).tight trivial hp

theorem Caller.procPages_eq (h : Caller K S s p) : procPages s.mem.ram (s.proc p) =
    {(s.proc p).trapframe} + spacePages s.mem.ram (s.proc p).pagetable := by
  rw [procPages, if_neg h.pagetable]

theorem Caller.mem_trapframe (h : Caller K S s p) :
    (s.proc p).trapframe ∈ procPages s.mem.ram (s.proc p) + S := by
  rw [h.procPages_eq]
  exact Multiset.mem_add.2 (.inl (Multiset.mem_add.2 (.inl (Multiset.mem_singleton_self _))))

/-! ## Writing outside an address space -/

/-- An address space and what the user sees in it depend on its own pages only. -/
theorem Space.elsewhere (h : Space K m t tf S) (hm : ∀ q ∈ spacePages m.ram t, m'.ram q = m.ram q)
    (hg : Good K m' (spacePages m.ram t + S')) :
    Space K m' t tf S' ∧ leaf m'.ram t = leaf m.ram t ∧
      ∀ a, UserMapped (leaf m.ram t) a → ubyte m' t a = ubyte m t a := by
  obtain ⟨hspace, hleaf⟩ := h.congr (fun q hq => hm q (Multiset.mem_add.2 (.inl hq))) hg
  refine ⟨hspace, hleaf, fun a ha => ?_⟩
  rw [ubyte, hleaf, hm _ (Multiset.mem_add.2 (.inr ha.mem)), ubyte]

/-- The arguments stay while the stack is not written. -/
theorem ArgStack.congr {top sp : Nat} (h : ArgStack m₀ m t top sp argv) (hargs : Args S m₀.ram argv)
    (hfit : sp + argsSize m₀.ram argv ≤ top)
    (hb : ∀ a, sp ≤ a → a < top → ubyte m' t a = ubyte m t a) : ArgStack m₀ m' t top sp argv where
  pointers i hi := by
    have hin := (h.inside _ (List.mem_append_right _ (List.mem_singleton_self _))).2
    rw [← h.pointers i hi]
    refine getLE_congr fun j h1 h2 => hb _ (Nat.le_add_right _ _) ?_
    dsimp only at hin
    omega
  strings := h.strings.keep hargs (by omega) fun a h1 h2 => hb a (by omega) h2
  apart := h.apart
  inside := h.inside

/-! ## The two ends of `exec` -/

/-- Nothing has changed but pages that are free. -/
structure Unchanged (K : Image) (S : Multiset Nat) (s s' : Sys) : Prop where
  same : s' = s.setMem s'.mem
  good : Good K s'.mem S
  keeps : ∀ q ∈ S, s'.mem.ram q = s.mem.ram q

/-- The process has the new address space `t`, whose stack page begins at `base`. -/
structure Replaced (K : Image) (S : Multiset Nat) (s s' : Sys) (p : Fin NPROC) (path : List UInt8)
    (t entry base : Nat) (argv : List Nat) : Prop where
  same : s' = (s.setProc p { s.proc p with
    name := safestrcpy (lastElement path) 16, pagetable := t, sz := base + PGSIZE }).setMem s'.mem
  space : Space K s'.mem t (s.proc p).trapframe ({(s.proc p).trapframe} + S)
  fits : stackSize s.mem.ram argv ≤ PGSIZE
  stacked : Stacked K ({(s.proc p).trapframe} + S) s'.mem s'.mem t (s.proc p).trapframe base
  stack : ArgStack s.mem s'.mem t (base + PGSIZE) (base + PGSIZE - stackSize s.mem.ram argv) argv
  frame : s'.mem.ram (s.proc p).trapframe =
    setLE (setLE (setLE (s.mem.ram (s.proc p).trapframe)
      120 8 (base + PGSIZE - stackSize s.mem.ram argv)) 24 8 entry)
      48 8 (base + PGSIZE - stackSize s.mem.ram argv)
  keeps : ∀ q ∈ S, s'.mem.ram q = s.mem.ram q

/-- How `exec` ends. -/
def ExecEnd (K : Image) (S : Multiset Nat) (s : Sys) (p : Fin NPROC) (path : List UInt8)
    (argv : List Nat) (r : Int) (s' : Sys) : Prop :=
  r = -1 ∧ Unchanged K (procPages s.mem.ram (s.proc p) + S) s s' ∨
    r = argv.length ∧ ∃ t entry base, Replaced K S s s' p path t entry base argv

theorem wp_setField {pa off n v : Nat} {Q : Unit → Mem → Prop} {E : Halt → Mem → Prop} :
    wp (setField pa off n v) Q E m ↔
      Q () { m with ram := Function.update m.ram pa (setLE (m.ram pa) off n v) } := wp_modify _

/-- The new program takes the place of the old one. -/
theorem Caller.commit (h : Caller K S s p) {b : Bytes}
    (hst : Stacked K (procPages s.mem.ram (s.proc p) + S) s.mem m t (s.proc p).trapframe base)
    (hm' : m' = { m with ram := Function.update m.ram (s.proc p).trapframe b }) :
    wp (procFreepagetable K (s.proc p).pagetable (s.proc p).sz)
      (fun _ m'' => Stacked K ({(s.proc p).trapframe} + S) m'' m'' t (s.proc p).trapframe base ∧
        m''.ram (s.proc p).trapframe = b ∧ (∀ q ∈ S, m''.ram q = s.mem.ram q) ∧
        ∀ a, base ≤ a → a < base + PGSIZE → ubyte m'' t a = ubyte m t a)
      (fun _ _ => False) m' := by
  have hH : Good K m (spacePages m.ram t + (procPages s.mem.ram (s.proc p) + S)) := hst.space.good
  have hnodup := h.good
  rw [h.procPages_eq, add_assoc] at hnodup
  -- the trapframe is in neither of the two address spaces
  have hnew : ∀ q ∈ spacePages m.ram t, m'.ram q = m.ram q := fun q hq => by
    have hne : q ≠ (s.proc p).trapframe := fun heq => hH.disjoint hq (heq ▸ h.mem_trapframe)
    rw [hm']
    exact Function.update_of_ne hne _ _
  have hold : ∀ q ∈ spacePages s.mem.ram (s.proc p).pagetable + S, m'.ram q = s.mem.ram q :=
    fun q hq => by
      have hne : q ≠ (s.proc p).trapframe := fun heq =>
        hnodup.disjoint (Multiset.mem_singleton_self _) (heq ▸ hq)
      rw [hm', ← hst.keeps q (by rw [h.procPages_eq, add_assoc]; exact Multiset.mem_add.2 (.inr hq))]
      exact Function.update_of_ne hne _ _
  have hspace := fun q hq => hold q (Multiset.mem_add.2 (.inl hq))
  have htables := fun q hq => hspace q (Multiset.mem_add.2 (.inl hq))
  have hleaf : leaf m'.ram (s.proc p).pagetable = leaf s.mem.ram (s.proc p).pagetable :=
    leaf_congr htables
  have hspace' : Space K m' (s.proc p).pagetable (s.proc p).trapframe
      (spacePages m.ram t + ({(s.proc p).trapframe} + S)) := by
    refine (h.shape.congr htables).space ?_
    rw [spacePages_congr hspace]
    refine hH.congr (by rw [hm']) (by rw [hm']) ?_
    rw [h.procPages_eq]
    abel
  refine wp_mono (procFreepagetable_spec hspace') (fun _ m'' h'' => ?_) fun e _ he => ?_
  · obtain ⟨-, -, hg, hk, -⟩ := h''
    have hmem := fun q hq => hk q (Multiset.mem_add.2 (.inr hq))
    obtain ⟨hsp, hlf, hub⟩ := hst.space.elsewhere
      (fun q hq => (hk q (Multiset.mem_add.2 (.inl hq))).trans (hnew q hq)) hg
    refine ⟨⟨⟨hsp, ?_, hst.size, fun _ _ => rfl⟩, hst.aligned, hst.above, ?_, ?_⟩, ?_,
      fun q hq => ?_, fun a h1 h2 => hub a (hst.space.mapped (hst.write a h1 h2).1)⟩
    · rw [hlf]
      exact hst.mapped
    · rw [hlf]
      exact hst.write
    · rw [hlf]
      exact hst.guard
    · rw [hmem _ (Multiset.mem_add.2 (.inl (Multiset.mem_singleton_self _))), hm']
      exact Function.update_self _ _ _
    · rw [hmem q (Multiset.mem_add.2 (.inr hq)), hold q (Multiset.mem_add.2 (.inr hq))]
  · have hsz := h.tight.sz_le
    rcases he with ⟨-, hlt⟩ | ⟨-, v, h1, h2, hne⟩
    · have htf : TRAPFRAME = 2 ^ 38 - 8192 := rfl
      rw [vpnup_eq (by omega)] at hlt
      omega
    · rw [hleaf] at hne
      exact absurd (h.tight.below v h2 hne) (Nat.not_lt.2 h1)

/-- **`exec` from the stack on.**  It fails for want of two pages, or because the arguments do not
fit one. -/
theorem Caller.execTail (h : Caller K S s p)
    (hl : Loading K (procPages s.mem.ram (s.proc p) + S) s.mem m t (s.proc p).trapframe sz)
    (hargs : Args (procPages s.mem.ram (s.proc p) + S) s.mem.ram argv) (hlen : argv.length < MAXARG)
    (path : List UInt8) (entry : Nat) :
    wp (execTail K p path t sz entry argv) (fun r s' => ExecEnd K S s p path argv r s' ∧
        (r = -1 → PGSIZE < stackSize s.mem.ram argv ∨
          ∃ m₁, uvmalloc K t (pgroundup sz) (pgroundup sz + 2 * PGSIZE) PTE_W m = .ok 0 m₁))
      (fun _ _ => False) (s.setMem m) := by
  have hfail : ∀ {n : Nat} {m₁ : Mem},
      Built K (procPages s.mem.ram (s.proc p) + S) s.mem m₁ t (s.proc p).trapframe n →
      wp (do onMem (procFreepagetable K t n); return -1) (ExecEnd K S s p path argv)
        (fun _ _ => False) (s.setMem m₁) := fun hb => by
    refine wp_bind.2 (wp_onMem.2 (wp_mono hb.free (fun _ m₂ h₂ => ?_) fun _ _ he => he))
    exact (wp_pure _).2 (.inl ⟨rfl, rfl, h₂.1, h₂.2⟩)
  rw [Xv6.execTail]
  refine wp_bind.2 (wp_get.2 (wp_bind.2 (wp_onMem.2 ?_)))
  refine wp_mono (hl.execStack hargs hlen) (fun r m₁ h₁ => ?_) fun _ _ he => he
  obtain ⟨base, -, ⟨rfl, hb, hno⟩ | ⟨hr, hst, ⟨hr', hfull⟩ | ⟨hr', hfit, hstack⟩⟩⟩ := h₁
  · exact wp_mono (hfail hb) (fun _ _ hend => ⟨hend, fun _ => .inr hno⟩) fun _ _ he => he
  · obtain ⟨n, o⟩ := r
    obtain rfl : n = base + PGSIZE := hr
    obtain rfl : o = none := hr'
    exact wp_mono (hfail hst.toBuilt) (fun _ _ hend => ⟨hend, fun _ => .inl hfull⟩) fun _ _ he => he
  · obtain ⟨n, o⟩ := r
    obtain rfl : n = base + PGSIZE := hr
    obtain rfl : o = some _ := hr'
    have hframe : m₁.ram (s.proc p).trapframe = s.mem.ram (s.proc p).trapframe :=
      hst.keeps _ h.mem_trapframe
    simp only [wp_bind, wp_onMem, wp_setField, wp_modifyProc, setMem_mem, setMem_proc, setProc_mem,
      setProc_proc, Function.update_self, Function.update_idem, hframe]
    refine wp_mono (h.commit hst rfl) (fun _ m₂ h₂ => ?_) fun _ _ he => he
    obtain ⟨hst₂, hframe₂, hkeep, hub⟩ := h₂
    have hsize : argsSize s.mem.ram argv ≤ stackSize s.mem.ram argv := Nat.le_add_right _ _
    refine (wp_pure _).2 ⟨.inr ⟨rfl, t, entry, base, ?_, hst₂.space, hfit, hst₂,
      hstack.congr hargs (by omega) fun a h1 h2 => hub a (by omega) h2, hframe₂, hkeep⟩,
      fun hr => absurd hr (by omega)⟩
    simp only [Sys.setMem, Sys.setProc, Function.update_idem]

theorem Unchanged.refl (h : Good K s.mem S) : Unchanged K S s s := ⟨rfl, h, fun _ _ => rfl⟩

/-- **`exec` on any file**: nothing has changed, or the process has been replaced. -/
theorem Caller.exec (h : Caller K S s p)
    (hargs : Args (procPages s.mem.ram (s.proc p) + S) s.mem.ram argv) (hlen : argv.length < MAXARG)
    (path : List UInt8) (file : Option Exe) :
    wp (exec K p path file argv) (ExecEnd K S s p path argv) (fun _ _ => False) s := by
  have hbad : ∀ {s₁ : Sys}, Unchanged K (procPages s.mem.ram (s.proc p) + S) s s₁ →
      wp (pure (-1)) (ExecEnd K S s p path argv) (fun _ _ => False) s₁ := fun hu =>
    (wp_pure _).2 (.inl ⟨rfl, hu⟩)
  have hrefl := Unchanged.refl h.good
  cases file with
  | none =>
    rw [Xv6.exec]
    exact hbad hrefl
  | some ip =>
    rw [Xv6.exec, wp_ite]
    split
    · exact hbad hrefl
    rw [wp_ite]
    generalize getLE ip.data 0 4 = magic
    generalize getLE ip.data 24 8 = entry
    split
    · exact hbad hrefl
    refine wp_bind.2 (wp_get.2 (wp_bind.2 (wp_onMem.2 ?_)))
    refine wp_mono (procPagetable_spec h.good (h.good.page h.mem_trapframe)) (fun t m₁ h₁ => ?_)
      fun _ _ he => he
    rcases h₁ with ⟨rfl, -, hg, hk, -⟩ | ⟨ht, hnew⟩
    · rw [if_pos rfl]
      exact hbad ⟨rfl, hg, hk⟩
    rw [if_neg ht]
    refine wp_bind.2 (wp_onMem.2 (wp_mono (hnew.loading.execSegments ip) (fun r m₂ h₂ => ?_)
      fun _ _ he => he))
    obtain ⟨ok, sz⟩ := r
    cases ok with
    | false =>
      refine wp_bind.2 (wp_onMem.2 (wp_mono h₂.free (fun _ m₃ h₃ => ?_) fun _ _ he => he))
      exact hbad ⟨rfl, h₃.1, h₃.2⟩
    | true =>
      exact wp_mono (h.execTail h₂ hargs hlen path entry) (fun _ _ hend => hend.1) fun _ _ he => he

/-! ## The arguments -/

/-- `fetchaddr` changes nothing. -/
theorem Space.fetchaddr {x : Proc} (h : Space K m x.pagetable tf S) (addr : Nat) :
    wp (fetchaddr x addr) (fun _ m' => m' = m) (fun _ _ => False) m := by
  rw [Xv6.fetchaddr, wp_ite]
  split
  · exact (wp_pure _).2 rfl
  · refine wp_bind.2 ((wp_of_ok (copyin_eq h.framed _ addr 8)).2 ?_)
    dsimp only
    rw [wp_ite]
    split
    · exact (wp_pure _).2 rfl
    · exact (wp_pure _).2 rfl

/-- A string that `copyinstr` has copied ends where it may. -/
theorem strResult_ends {dst : Bytes} {srcva max k : Nat}
    (h : ¬ (strResult m t dst 0 srcva max k).1 < 0) :
    ∃ n, n < max ∧ (strResult m t dst 0 srcva max k).2 n = 0 := by
  rw [strResult] at h ⊢
  by_cases hk : k < max ∧ CanRead (leaf m.ram t) (srcva + k)
  · rw [if_pos hk]
    refine ⟨k, hk.1, ?_⟩
    dsimp only
    rw [Nat.zero_add, Function.update_self]
  · rw [if_neg hk] at h
    exact absurd (show (-1 : Int) < 0 by decide) h

/-- The pages that `sys_exec` has taken for arguments, and what they hold. -/
structure Fetched (K : Image) (S : Multiset Nat) (m₀ m : Mem) (t tf : Nat) (pages : List Nat) :
    Prop where
  space : Space K m t tf ((pages : Multiset Nat) + S)
  user : ∀ q ∈ spacePages m₀.ram t, m.ram q = m₀.ram q
  keeps : ∀ q ∈ S, m.ram q = m₀.ram q

/-- One more page. -/
theorem Fetched.take {pages : List Nat} {page : Nat} (h : Fetched K S m₀ m t tf pages)
    (hg : Good K m' ({page} + (spacePages m.ram t + ((pages : Multiset Nat) + S))))
    (hram : ∀ q, q ≠ page → m'.ram q = m.ram q) :
    Fetched K S m₀ m' t tf (page :: pages) ∧ ∀ a ∈ pages, m'.ram a = m.ram a := by
  have hmem : ∀ q ∈ spacePages m.ram t + ((pages : Multiset Nat) + S), m'.ram q = m.ram q :=
    fun q hq => hram q fun heq => hg.disjoint (Multiset.mem_singleton_self page) (heq ▸ hq)
  have hspace := fun q hq => hmem q (Multiset.mem_add.2 (.inl hq))
  have hrest := fun q hq => hmem q (Multiset.mem_add.2 (.inr hq))
  refine ⟨⟨(h.space.elsewhere hspace (hg.congr rfl rfl ?_)).1, fun q hq => ?_, fun q hq => ?_⟩,
    fun a ha => hrest a (Multiset.mem_add.2 (.inl (Multiset.mem_coe.2 ha)))⟩
  · rw [← Multiset.cons_coe, ← Multiset.singleton_add]
    abel
  · rw [hspace q (by rw [spacePages_congr h.user]; exact hq), h.user q hq]
  · rw [hrest q (Multiset.mem_add.2 (.inr hq)), h.keeps q hq]

/-- **The loop of `sys_exec`** stops at a null pointer with fewer arguments than it has room for,
each of them a string that ends within its page. -/
theorem Fetched.fetchArgs {x : Proc} (uargv : Nat) : ∀ {k : Nat} {pages : List Nat} {m : Mem},
    Fetched K S m₀ m x.pagetable tf pages → (∀ a ∈ pages, ∃ n, n < PGSIZE ∧ m.ram a n = 0) →
    wp (fetchArgs x uargv k pages) (fun r m' => Fetched K S m₀ m' x.pagetable tf r.2 ∧
        (r.1 = true → r.2.length < pages.length + k ∧ ∀ a ∈ r.2, ∃ n, n < PGSIZE ∧ m'.ram a n = 0))
      (fun _ _ => False) m
  | 0, pages, m, h, _ => by
    rw [Xv6.fetchArgs, wp_pure]
    exact ⟨h, fun hf => Bool.noConfusion hf⟩
  | k + 1, pages, m, h, hends => by
    rw [Xv6.fetchArgs]
    refine wp_bind.2 (wp_mono (h.space.fetchaddr _) (fun o m₁ h₁ => ?_) fun _ _ he => he)
    subst h₁
    cases o with
    | none => exact (wp_pure _).2 ⟨h, fun hf => Bool.noConfusion hf⟩
    | some uarg =>
      dsimp only
      rw [wp_ite]
      split
      · refine (wp_pure _).2 ⟨h, fun _ => ⟨?_, hends⟩⟩
        dsimp only
        omega
      refine wp_bind.2 (wp_mono (kalloc_spec h.space.good) (fun page m₂ h₂ => ?_) fun _ _ he => he)
      rcases h₂ with ⟨rfl, -, hg, hram, -⟩ | ⟨next, -, hpage, hg, hram, -⟩
      · rw [if_pos rfl, wp_pure]
        refine ⟨⟨(h.space.elsewhere (fun q _ => by rw [hram]) hg).1, ?_, ?_⟩,
          fun hf => Bool.noConfusion hf⟩
        · rw [hram]
          exact h.user
        · rw [hram]
          exact h.keeps
      rw [if_neg hpage.pos.ne']
      have hother : ∀ q, q ≠ page → m₂.ram q = m₁.ram q := fun q hq => by
        rw [hram, Function.update_of_ne hq]
      have htaken := (h.take hg hother).1
      refine wp_bind.2 (wp_get.2 (wp_bind.2 ((wp_of_ok (copyinstr_eq htaken.space.framed _ _ _)).2 ?_)))
      generalize hr : strResult m₂ x.pagetable (m₂.ram page) 0 uarg PGSIZE _ = r
      obtain ⟨r, b⟩ := r
      dsimp only
      refine wp_bind.2 ((wp_modify _).2 ?_)
      have hg' : Good K { m₂ with ram := Function.update m₂.ram page b }
          ({page} + (spacePages m₁.ram x.pagetable + ((pages : Multiset Nat) + S))) :=
        hg.congr rfl rfl rfl
      obtain ⟨htaken', hkept⟩ := h.take hg' fun q hq =>
        (Function.update_of_ne hq _ _).trans (hother q hq)
      rw [wp_ite]
      split
      · exact (wp_pure _).2 ⟨htaken', fun hf => Bool.noConfusion hf⟩
      · next hok =>
        have hstr := strResult_ends (by rw [hr]; exact hok)
        rw [hr] at hstr
        refine wp_mono (Fetched.fetchArgs uargv htaken' fun a ha => ?_) (fun r m₃ h₃ => ?_)
          fun _ _ he => he
        · rcases List.mem_cons.1 ha with rfl | ha
          · dsimp only
            rw [Function.update_self]
            exact hstr
          · rw [hkept a ha]
            exact hends a ha
        · refine ⟨h₃.1, fun ht => ⟨?_, (h₃.2 ht).2⟩⟩
          have hlt := (h₃.2 ht).1
          rw [List.length_cons] at hlt
          omega

/-- After `sys_exec` has fetched its arguments the process is as it was, and they are what `exec`
expects. -/
theorem Caller.fetchArgs (h : Caller K S s p) (uargv : Nat) :
    wp (fetchArgs (s.proc p) uargv MAXARG []) (fun r m' => r.1 = true → r.2.length < MAXARG ∧
        Caller K ((r.2 : Multiset Nat) + S) (s.setMem m') p ∧
        Args (procPages m'.ram (s.proc p) + ((r.2 : Multiset Nat) + S)) m'.ram r.2)
      (fun _ _ => False) s.mem := by
  have hnil : Fetched K ({(s.proc p).trapframe} + S) s.mem s.mem (s.proc p).pagetable
      (s.proc p).trapframe [] := by
    refine ⟨h.shape.space (h.good.congr rfl rfl ?_), fun _ _ => rfl, fun _ _ => rfl⟩
    rw [h.procPages_eq, Multiset.coe_nil]
    abel
  refine wp_mono (hnil.fetchArgs uargv fun a ha => absurd ha List.not_mem_nil) (fun r m' hr => ?_)
    fun _ _ he => he
  obtain ⟨hf, hok⟩ := hr
  intro ht
  obtain ⟨hlen, hends⟩ := hok ht
  rw [List.length_nil, Nat.zero_add] at hlen
  have hleaf : leaf m'.ram (s.proc p).pagetable = leaf s.mem.ram (s.proc p).pagetable :=
    leaf_congr fun q hq => hf.user q (Multiset.mem_add.2 (.inl hq))
  refine ⟨hlen, ⟨hf.space.good.congr rfl rfl ?_, h.pagetable, hf.space.shape, h.tight.sz_le, ?_⟩,
    fun a ha => Multiset.mem_add.2 (.inr (Multiset.mem_add.2 (.inl (Multiset.mem_coe.2 ha)))), hends⟩
  · rw [setMem_mem, setMem_proc, procPages, if_neg h.pagetable]
    abel
  · rw [setMem_mem, setMem_proc, hleaf]
    exact h.tight.below

theorem Args.reverse {ram : Nat → Bytes} (h : Args S ram argv) : Args S ram argv.reverse :=
  ⟨fun a ha => h.held a (List.mem_reverse.1 ha), fun a ha => h.ends a (List.mem_reverse.1 ha)⟩

/-! ## A state -/

theorem zero_lt_nproc : 0 < NPROC := by decide

/-- A process with an empty address space. -/
def emptyProc (t tf : Nat) : Proc where
  state := .running
  killed := false
  xstate := 0
  pid := 1
  parent := none
  sz := 0
  pagetable := t
  trapframe := tf
  ofile := fun _ => none
  name := []

/-- A machine with such processes only. -/
def emptySys (m : Mem) (t tf : Nat) : Sys where
  mem := m
  proc := fun _ => emptyProc t tf
  file := fun _ => ⟨.none, 0, false, false, 0⟩
  nextpid := 2
  initproc := ⟨0, zero_lt_nproc⟩

/-- After booting, a process and a page with the empty string can be made. -/
theorem exists_caller : ∃ (s : Sys) (a : Nat), Caller onePageKernel {a} s ⟨0, zero_lt_nproc⟩ ∧
    Args (procPages s.mem.ram (s.proc ⟨0, zero_lt_nproc⟩) + {a}) s.mem.ram [a] ∧
    s.mem.ram a 0 = 0 := by
  obtain ⟨m₀, hg₀, hlen₀⟩ := exists_booted
  obtain ⟨tf, m₁, -, ⟨-, hnil, -⟩ | ⟨next₁, hnext₁, hpage₁, hg₁, -, hfree₁, -⟩⟩ :=
    (kalloc_spec hg₀).exists_ok
  · rw [hnil, List.length_nil] at hlen₀
    cases hlen₀
  obtain ⟨a, m₂, -, ⟨-, hnil, -⟩ | ⟨next₂, hnext₂, -, hg₂, -, hfree₂, -⟩⟩ :=
    (kalloc_spec hg₁).exists_ok
  · rw [← hfree₁, hnil] at hnext₁
    rw [hnext₁] at hlen₀
    cases hlen₀
  have hg₃ : Good onePageKernel { m₂ with ram := Function.update m₂.ram a fun _ => 0 }
      ({a} + ({tf} + 0)) := hg₂.congr rfl rfl rfl
  obtain ⟨t, m₄, -, ⟨-, hfew, -⟩ | ⟨ht, hnew⟩⟩ := (procPagetable_spec hg₃ hpage₁).exists_ok
  · rw [hnext₁, ← hfree₁, hnext₂, ← hfree₂, List.length_cons, List.length_cons] at hlen₀
    dsimp only at hfew
    omega
  have h0 : m₄.ram a 0 = 0 := by
    rw [hnew.keeps a (Multiset.mem_add.2 (.inl (Multiset.mem_singleton_self a)))]
    exact congrFun (Function.update_self a (fun _ => 0) m₂.ram) 0
  refine ⟨emptySys m₄ t tf, a, ⟨?_, ht, hnew.space.shape, Nat.zero_le _, fun v hv hne => ?_⟩,
    ⟨fun b hb => ?_, fun b hb => ⟨0, by decide, ?_⟩⟩, h0⟩
  · refine hnew.space.good.congr rfl rfl ?_
    show procPages m₄.ram (emptyProc t tf) + {a} = spacePages m₄.ram t + ({a} + ({tf} + 0))
    have hpages : procPages m₄.ram (emptyProc t tf) = {tf} + spacePages m₄.ram t := if_neg ht
    rw [hpages, add_zero]
    abel
  · exact absurd (hnew.empty v hv) hne
  · rw [List.mem_singleton.1 hb]
    exact Multiset.mem_add.2 (.inr (Multiset.mem_singleton_self a))
  · rw [List.mem_singleton.1 hb]
    exact h0

/-! ## Main results -/

theorem ExecEnd.returns {path : List UInt8} {k : Kern Sys Int}
    (h : wp k (ExecEnd K S s p path argv) (fun _ _ => False) s') :
    ∃ s'', k s' = .ok (-1) s'' ∨ k s' = .ok argv.length s'' := by
  obtain ⟨r, s'', hrun, ⟨rfl, -⟩ | ⟨rfl, -⟩⟩ := h.exists_ok
  · exact ⟨s'', .inl hrun⟩
  · exact ⟨s'', .inr hrun⟩

/-- **`exec` is robust against any file.**  For a process whose size is at most `TRAPFRAME`, with
any memory left, and for strings that end within their pages, `exec` returns -1 or the number of
arguments, whatever the file holds.  `sys_exec` fetches such strings, without a panic. -/
theorem exec_returns (h : Caller K S s p) :
    (∀ argv, Args (procPages s.mem.ram (s.proc p) + S) s.mem.ram argv → argv.length < MAXARG →
      ∀ (path : List UInt8) (file : Option Exe), ∃ s',
        exec K p path file argv s = .ok (-1) s' ∨ exec K p path file argv s = .ok argv.length s') ∧
    ∀ uargv, ∃ ok pages m, fetchArgs (s.proc p) uargv MAXARG [] s.mem = .ok (ok, pages) m ∧
      (ok = true → ∀ (path : List UInt8) (file : Option Exe), ∃ s',
        exec K p path file pages.reverse (s.setMem m) = .ok (-1) s' ∨
        exec K p path file pages.reverse (s.setMem m) = .ok pages.length s') := by
  refine ⟨fun argv hargs hlen path file => ExecEnd.returns (h.exec hargs hlen path file), fun uargv => ?_⟩
  obtain ⟨⟨ok, pages⟩, m, hrun, hr⟩ := (h.fetchArgs uargv).exists_ok
  refine ⟨ok, pages, m, hrun, fun hok path file => ?_⟩
  obtain ⟨hlen, hcaller, hargs⟩ := hr hok
  have hlen' : pages.reverse.length < MAXARG := by
    rw [List.length_reverse]
    exact hlen
  have hret := ExecEnd.returns (hcaller.exec hargs.reverse hlen' path file)
  rw [List.length_reverse] at hret
  exact hret

/-- Any file at all, with one argument, the empty string. -/
theorem exec_returns_booted : ∃ (s : Sys) (a : Nat),
    Caller onePageKernel {a} s ⟨0, zero_lt_nproc⟩ ∧ s.mem.ram a 0 = 0 ∧
    ∀ (path : List UInt8) (file : Option Exe), ∃ s',
      exec onePageKernel ⟨0, zero_lt_nproc⟩ path file [a] s = .ok (-1) s' ∨
      exec onePageKernel ⟨0, zero_lt_nproc⟩ path file [a] s = .ok 1 s' := by
  obtain ⟨s, a, h, hargs, h0⟩ := exists_caller
  exact ⟨s, a, h, h0, (exec_returns h).1 [a] hargs (by rw [List.length_singleton]; decide)⟩

/-- The loop of `exec` stores one address for each argument. -/
theorem execArgs_length {t base : Nat} : ∀ {argv : List Nat} {sp : Nat} {ustack : List Nat} {m : Mem},
    wp (execArgs t base argv sp ustack)
      (fun r _ => ∀ x, r = some x → x.2.length = ustack.length + argv.length) (fun _ _ => True) m
  | [], sp, ustack, m => by
    rw [execArgs, wp_pure]
    intro x hx
    rw [← Option.some.inj hx]
    rfl
  | arg :: argv, sp, ustack, m => by
    have hnone : ∀ {m : Mem}, wp (pure none : Kern Mem (Option (Nat × List Nat)))
        (fun r _ => ∀ x, r = some x → x.2.length = ustack.length + (arg :: argv).length)
        (fun _ _ => True) m := (wp_pure _).2 fun x hx => by cases hx
    rw [execArgs, wp_ite]
    split
    · exact hnone
    refine wp_bind.2 (wp_get.2 ?_)
    dsimp only
    rw [wp_ite]
    split
    · exact hnone
    refine wp_bind.2 (wp_of_forall (fun r m₁ => ?_) fun _ _ => trivial)
    rw [wp_ite]
    split
    · exact hnone
    refine wp_mono execArgs_length (fun r _ hr x hx => ?_) fun _ _ _ => trivial
    rw [hr x hx, List.length_cons, List.length_cons]
    omega

theorem align16_mod (n : Nat) : align16 n % 16 = 0 := by
  rw [align16]
  exact Nat.mul_mod_left _ _

/-- What the new program finds in its registers and on its stack. -/
theorem Replaced.layout {path : List UInt8} {entry : Nat}
    (h : Replaced K S s s' p path t entry base argv)
    (hargs : Args (procPages s.mem.ram (s.proc p) + S) s.mem.ram argv) :
    ∃ sp, getLE (s'.mem.ram (s'.proc p).trapframe) 48 8 = sp ∧
      getLE (s'.mem.ram (s'.proc p).trapframe) 120 8 = sp ∧ sp % 16 = 0 ∧
      (s'.proc p).sz ≤ sp + PGSIZE ∧ sp < (s'.proc p).sz ∧
      ArgStack s.mem s'.mem (s'.proc p).pagetable (s'.proc p).sz sp argv ∧
      getLE (fun j => ubyte s'.mem (s'.proc p).pagetable (sp + j)) (8 * argv.length) 8 = 0 ∧
      ∀ a, (s'.proc p).sz ≤ a + 2 * PGSIZE → a + PGSIZE < (s'.proc p).sz →
        ¬ CanRead (leaf s'.mem.ram (s'.proc p).pagetable) a := by
  have hproc : s'.proc p = { s.proc p with
      name := safestrcpy (lastElement path) 16, pagetable := t, sz := base + PGSIZE } := by
    rw [h.same, setMem_proc, setProc_proc, Function.update_self]
  have hpg : PGSIZE = 4096 := rfl
  have hfit := h.fits
  have hsz := h.stacked.size
  have haligned := h.stacked.aligned
  have hmod := argsSize_mod hargs
  have hpos : 8 ≤ align16 ((argv.length + 1) * 8) ∧ align16 ((argv.length + 1) * 8) % 16 = 0 := by
    refine ⟨?_, align16_mod _⟩
    rw [align16]
    omega
  have hsize : stackSize s.mem.ram argv = argsSize s.mem.ram argv +
    align16 ((argv.length + 1) * 8) := rfl
  have hlt : base + PGSIZE - stackSize s.mem.ram argv < 256 ^ 8 := by
    rw [show (256 : Nat) ^ 8 = 2 ^ 64 by decide]
    omega
  rw [hproc]
  refine ⟨base + PGSIZE - stackSize s.mem.ram argv, ?_, ?_, ?_, ?_, ?_, h.stack, ?_, fun a h1 h2 => ?_⟩
  · rw [h.frame, getLE_setLE_same, Nat.mod_eq_of_lt hlt]
  · rw [h.frame, getLE_setLE_disjoint _ _ (by omega), getLE_setLE_disjoint _ _ (by omega),
      getLE_setLE_same, Nat.mod_eq_of_lt hlt]
  · rw [hpg] at haligned ⊢
    omega
  · dsimp only
    omega
  · dsimp only
    omega
  · rw [h.stack.pointers _ (Nat.le_refl _), List.getD_eq_default]
    rw [length_argAddrs]
  · dsimp only at h1 h2
    exact h.stacked.guard a (by omega) (by omega)

/-- **`exec` lays out the argument stack correctly.**  `sys_exec` hands over fewer than `MAXARG`
strings, each ending within its page.  Then `exec` stores fewer addresses than `ustack` has room
for, the null pointer included.  From the point where it has the two pages for the stack, it fails
exactly when the aligned sizes exceed a page.  When it returns the number of arguments, `sp` and
`a1` are the aligned address of the array of pointers, in the page below the new size; the array
ends with a null pointer; what lies on the stack is disjoint; and the page below the stack is a
guard. -/
theorem exec_argument_stack (h : Caller K S s p)
    (hargs : Args (procPages s.mem.ram (s.proc p) + S) s.mem.ram argv)
    (hlen : argv.length < MAXARG) :
    (∀ uargv pages m, fetchArgs (s.proc p) uargv MAXARG [] s.mem = .ok (true, pages) m →
      pages.length < MAXARG ∧ ∀ a ∈ pages, ∃ n, n < PGSIZE ∧ m.ram a n = 0) ∧
    (∀ t base sp m sp' ustack m', execArgs t base argv sp [] m = .ok (some (sp', ustack)) m' →
      ustack.length < MAXARG) ∧
    (∀ t sz m, Loading K (procPages s.mem.ram (s.proc p) + S) s.mem m t (s.proc p).trapframe sz →
      ∀ sz1 m₁, uvmalloc K t (pgroundup sz) (pgroundup sz + 2 * PGSIZE) PTE_W m = .ok sz1 m₁ →
      sz1 ≠ 0 → ∀ path entry, ∃ r s', execTail K p path t sz entry argv (s.setMem m) = .ok r s' ∧
        (r = -1 ↔ PGSIZE < stackSize s.mem.ram argv)) ∧
    ∀ path file r s', exec K p path file argv s = .ok r s' → r ≠ -1 → r = argv.length ∧
      ∃ sp, getLE (s'.mem.ram (s'.proc p).trapframe) 48 8 = sp ∧
        getLE (s'.mem.ram (s'.proc p).trapframe) 120 8 = sp ∧ sp % 16 = 0 ∧
        (s'.proc p).sz ≤ sp + PGSIZE ∧ sp < (s'.proc p).sz ∧
        ArgStack s.mem s'.mem (s'.proc p).pagetable (s'.proc p).sz sp argv ∧
        getLE (fun j => ubyte s'.mem (s'.proc p).pagetable (sp + j)) (8 * argv.length) 8 = 0 ∧
        ∀ a, (s'.proc p).sz ≤ a + 2 * PGSIZE → a + PGSIZE < (s'.proc p).sz →
          ¬ CanRead (leaf s'.mem.ram (s'.proc p).pagetable) a := by
  refine ⟨fun uargv pages m hrun => ?_, fun t base sp m sp' ustack m' hrun => ?_,
    fun t sz m hl sz1 m₁ hrun h0 path entry => ?_, fun path file r s' hrun hr => ?_⟩
  · obtain ⟨hlt, -, hargs'⟩ := (h.fetchArgs uargv).ok hrun rfl
    exact ⟨hlt, hargs'.ends⟩
  · have hcount := execArgs_length.ok hrun _ rfl
    rw [List.length_nil, Nat.zero_add] at hcount
    rw [hcount]
    exact hlen
  · obtain ⟨r, s', hexec, hend, hwhy⟩ := (h.execTail hl hargs hlen path entry).exists_ok
    refine ⟨r, s', hexec, fun hr => ?_, fun hfull => ?_⟩
    · rcases hwhy hr with hfull | ⟨m₂, hno⟩
      · exact hfull
      · rw [hrun] at hno
        injection hno with hsz
        exact absurd hsz h0
    · rcases hend with ⟨hr, -⟩ | ⟨-, t', entry', base, hrep⟩
      · exact hr
      · exact absurd hrep.fits (Nat.not_le.2 hfull)
  · rcases (h.exec hargs hlen path file).ok hrun with ⟨hr', -⟩ | ⟨hr', t, entry, base, hrep⟩
    · exact absurd hr' hr
    · exact ⟨hr', hrep.layout hargs⟩

/-- With one argument, the empty string. -/
theorem exec_argument_stack_empty : ∃ (s : Sys) (a : Nat),
    Caller onePageKernel {a} s ⟨0, zero_lt_nproc⟩ ∧ s.mem.ram a 0 = 0 ∧
    ∀ path file r s', exec onePageKernel ⟨0, zero_lt_nproc⟩ path file [a] s = .ok r s' → r ≠ -1 →
      r = 1 := by
  obtain ⟨s, a, h, hargs, h0⟩ := exists_caller
  refine ⟨s, a, h, h0, fun path file r s' hrun hr => ?_⟩
  exact ((exec_argument_stack h hargs (by rw [List.length_singleton]; decide)).2.2.2
    path file r s' hrun hr).1

theorem Caller.unchanged (h : Caller K S s p)
    (hu : Unchanged K (procPages s.mem.ram (s.proc p) + S) s s') : Caller K S s' p := by
  have hproc : s'.proc p = s.proc p := by rw [hu.same, setMem_proc]
  have hk := fun q hq => hu.keeps q (Multiset.mem_add.2 (.inl hq))
  rw [h.procPages_eq] at hk
  have hspace := fun q hq => hk q (Multiset.mem_add.2 (.inr hq))
  have htables := fun q hq => hspace q (Multiset.mem_add.2 (.inl hq))
  have hpages : procPages s'.mem.ram (s.proc p) = procPages s.mem.ram (s.proc p) := by
    rw [h.procPages_eq, procPages, if_neg h.pagetable, spacePages_congr hspace]
  refine ⟨?_, ?_, ?_, ?_⟩ <;> rw [hproc]
  · rw [hpages]
    exact hu.good
  · exact h.pagetable
  · exact h.shape.congr htables
  · exact ⟨h.tight.sz_le, by rw [leaf_congr htables]; exact h.tight.below⟩

variable {path : List UInt8} {entry va : Nat}

theorem Replaced.proc (h : Replaced K S s s' p path t entry base argv) : s'.proc p = { s.proc p with
      name := safestrcpy (lastElement path) 16, pagetable := t, sz := base + PGSIZE } := by
  rw [h.same, setMem_proc, setProc_proc, Function.update_self]

theorem Replaced.caller (h : Replaced K S s s' p path t entry base argv) : Caller K S s' p := by
  have ht : t ≠ 0 := Nat.ne_of_gt (h.space.good.page (Multiset.mem_add.2 (.inl
    (Multiset.mem_add.2 (.inl (Radix.root_mem_nodes _ _ _)))))).pos
  refine ⟨?_, ?_, ?_, ?_⟩ <;> rw [h.proc]
  · refine h.space.good.congr rfl rfl ?_
    rw [procPages, if_neg ht]
    abel
  · exact ht
  · exact h.space.shape
  · exact ⟨Nat.le_trans h.stacked.size (by decide), fun v hv => (h.stacked.mapped v hv).1⟩

/-- **`exec` keeps the machine sound.**  Whatever the file holds, the process has an address space
of its own, and no other page is lost or written; if `exec` fails, the process and its memory are
as before and the same pages are free. -/
theorem exec_keeps_caller (h : Caller K S s p)
    (hargs : Args (procPages s.mem.ram (s.proc p) + S) s.mem.ram argv) (hlen : argv.length < MAXARG)
    (path : List UInt8) (file : Option Exe) :
    wp (exec K p path file argv) (fun r s' => Caller K S s' p ∧
      (∀ q ∈ S, s'.mem.ram q = s.mem.ram q) ∧
      (r = -1 → s' = s.setMem s'.mem ∧ s'.mem.freelist.Perm s.mem.freelist ∧
        ∀ q ∈ procPages s.mem.ram (s.proc p), s'.mem.ram q = s.mem.ram q)) (fun _ _ => False) s := by
  refine wp_mono (h.exec hargs hlen path file) (fun r s' hend => ?_) fun _ _ he => he
  rcases hend with ⟨-, hu⟩ | ⟨rfl, t, entry, base, hrep⟩
  · refine ⟨h.unchanged hu, fun q hq => hu.keeps q (Multiset.mem_add.2 (.inr hq)), fun _ =>
      ⟨hu.same, Multiset.coe_eq_coe.1 ?_, fun q hq => hu.keeps q (Multiset.mem_add.2 (.inl hq))⟩⟩
    exact add_right_cancel (hu.good.sum.trans h.good.sum.symm)
  · exact ⟨hrep.caller, hrep.keeps, fun hr => by omega⟩

theorem exec_keeps_caller_empty : ∃ (s : Sys) (a : Nat),
    Caller onePageKernel {a} s ⟨0, zero_lt_nproc⟩ ∧ ∀ path file,
    wp (exec onePageKernel ⟨0, zero_lt_nproc⟩ path file [a])
      (fun _ s' => Caller onePageKernel {a} s' ⟨0, zero_lt_nproc⟩) (fun _ _ => False) s := by
  obtain ⟨s, a, h, hargs, -⟩ := exists_caller
  exact ⟨s, a, h, fun path file => wp_mono (exec_keeps_caller h hargs
    (by rw [List.length_singleton]; decide) path file) (fun _ _ hr => hr.1) fun _ _ he => he⟩

/-- The code ends in this panic. -/
def Panics {α : Type} (k : Kern Sys α) (msg : String) (s : Sys) : Prop :=
  wp k (fun _ _ => False) (fun e _ => e = .panic msg) s

/-- The page below the stack is there, but not for the user: `lazy_alloc` maps it again. -/
theorem Replaced.guard_fault (h : Replaced K S s s' p path t entry base argv)
    (h1 : base ≤ va + PGSIZE) (h2 : va < base) (hfree : s'.mem.freelist ≠ []) :
    (∀ w, mmu s'.mem (s'.proc p).pagetable va w = none) ∧
      Panics (usertrapFault K p va) "mappages: remap" s' := by
  have hno := h.stacked.guard va h1 h2
  have hsz := h.stacked.size
  have hmax : MAXVA = 2 ^ 38 := rfl
  have hpg : PGSIZE = 4096 := rfl
  have hv : va / PGSIZE < UVPN := by
    rw [UVPN_eq, hpg]
    omega
  have hne := (h.stacked.mapped _ hv).2 (by rw [vpnup_eq (by omega), hpg]; omega)
  rw [Panics, usertrapFault, pageFault, h.proc]
  refine ⟨fun w => by rw [h.space.mmu_eq, if_neg fun hr => hno hr.1], ?_⟩
  simp only [wp_bind, wp_get, wp_ite, wp_onMem, h.proc]
  rw [if_neg (by omega)]
  refine wp_mono (lazyAlloc_spec h.space.table fun _ => Nat.ne_of_gt (h.space.page hv hne).pos)
    (fun r m' hr => ?_) fun e _ he => ?_
  · exfalso
    rcases hr with ⟨-, -, hlt, -, hU⟩ | ⟨-, hnil | ⟨-, h0, -⟩, -⟩ | ⟨-, -, h0, -⟩
    · exact hno ⟨hlt, (h.space.table.read _ hne).1, hU⟩
    · exact hfree hnil
    · exact hne h0
    · exact hne h0
  · rcases he.2 with ⟨-, hge⟩ | ⟨he, -⟩
    · omega
    · exact he

/-- **Touching the page below the stack takes the kernel down.**  After an `exec` that succeeds, a
load or store there faults; `usertrap` takes it for a page that is not allocated yet, and if one
is free this ends in `panic("mappages: remap")`. -/
theorem guard_page_panics (h : Caller K S s p)
    (hargs : Args (procPages s.mem.ram (s.proc p) + S) s.mem.ram argv) (hlen : argv.length < MAXARG)
    (path : List UInt8) (file : Option Exe) :
    wp (exec K p path file argv) (fun r s' => r ≠ -1 → s'.mem.freelist ≠ [] →
      ∀ va, (s'.proc p).sz ≤ va + 2 * PGSIZE → va + PGSIZE < (s'.proc p).sz →
        Panics (userLoad K p va) "mappages: remap" s' ∧
        ∀ x, Panics (userStore K p va x) "mappages: remap" s') (fun _ _ => False) s := by
  refine wp_mono (h.exec hargs hlen path file) (fun r s' hend hr hfree va h1 h2 => ?_)
    fun _ _ he => he
  rcases hend with ⟨hr', -⟩ | ⟨-, t, entry, base, hrep⟩
  · exact absurd hr' hr
  · have hsz := congrArg Proc.sz hrep.proc
    dsimp only at hsz
    have hge : base ≤ va + PGSIZE := by omega
    obtain ⟨hmmu, hfault⟩ := hrep.guard_fault hge (by omega) hfree
    simp only [Panics, userLoad, userStore, wp_bind, wp_get, hmmu]
    exact ⟨wp_mono hfault (fun _ _ hf => hf.elim) fun _ _ he => he, fun _ =>
      wp_mono hfault (fun _ _ hf => hf.elim) fun _ _ he => he⟩

theorem guard_page_panics_empty : ∃ (s : Sys) (a : Nat),
    Caller onePageKernel {a} s ⟨0, zero_lt_nproc⟩ ∧ ∀ path file,
    wp (exec onePageKernel ⟨0, zero_lt_nproc⟩ path file [a]) (fun r s' => r ≠ -1 →
      s'.mem.freelist ≠ [] → ∀ va, (s'.proc ⟨0, zero_lt_nproc⟩).sz = va + 2 * PGSIZE →
      Panics (userLoad onePageKernel ⟨0, zero_lt_nproc⟩ va) "mappages: remap" s')
      (fun _ _ => False) s := by
  obtain ⟨s, a, h, hargs, -⟩ := exists_caller
  refine ⟨s, a, h, fun path file => wp_mono (guard_page_panics h hargs
    (by rw [List.length_singleton]; decide) path file) (fun _ _ hr h1 h2 va hva =>
      (hr h1 h2 va hva.le (by rw [hva, PGSIZE]; omega)).1) fun _ _ he => he⟩

end Xv6
