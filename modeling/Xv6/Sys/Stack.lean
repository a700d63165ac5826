import Xv6.Sys.Load

/-!
# The argument stack

The second half of `exec` allocates two pages above the program: one that the user cannot reach, as
a guard, and one for the stack.  It pushes the argument strings, each at a multiple of 16, and then
the array of pointers to them.
-/

set_option autoImplicit false

namespace Xv6

variable {K : Image} {S : Multiset Nat} {m₀ m m' : Mem} {t tf sz v : Nat}

/-! ## The guard page -/

/-- An entry without `PTE_U`. -/
def cleared (pte : Nat) : Nat := pte &&& (2 ^ 64 - 1 - PTE_U)

theorem cleared_and {pte f : Nat} (hf : (2 ^ 64 - 1 - PTE_U) &&& f = f) :
    cleared pte &&& f = pte &&& f := by
  rw [cleared, Nat.and_assoc, hf]

theorem has_cleared {pte f : Nat} (hf : (2 ^ 64 - 1 - PTE_U) &&& f = f) :
    has (cleared pte) f = has pte f := by
  rw [has, has, cleared_and hf]

theorem not_has_cleared (pte : Nat) : has (cleared pte) PTE_U = false := by
  have hzero : (2 ^ 64 - 1 - PTE_U) &&& PTE_U = 0 := by decide
  rw [has, cleared, Nat.and_assoc, hzero, Nat.and_zero]
  rfl

theorem pte2pa_cleared {pte : Nat} (h : pte < 2 ^ 64) : pte2pa (cleared pte) = pte2pa pte := by
  have hmask : (2 ^ 64 - 1 - PTE_U) >>> 10 = 2 ^ 54 - 1 := by decide
  have hlt : pte >>> 10 < 2 ^ 54 := by
    rw [Nat.shiftRight_eq_div_pow]
    omega
  rw [pte2pa, cleared, Nat.shiftRight_and_distrib, hmask,
    Nat.and_two_pow_sub_one_of_lt_two_pow hlt, pte2pa]

theorem tbl_lt (ram : Nat → Bytes) (p i : Nat) : tbl ram p i < 2 ^ 64 := by
  have hlt := getLE_lt (ram p) 8 (8 * i)
  rw [show 256 ^ 8 = 2 ^ 64 by decide] at hlt
  rw [tbl]
  exact hlt

theorem leaf_lt (ram : Nat → Bytes) (t v : Nat) : leaf ram t v < 2 ^ 64 := by
  rw [leaf]
  split
  · rw [leafAt]
    cases Radix.slot child (tbl ram) 2 t (path v) with
    | none => exact Nat.two_pow_pos 64
    | some s =>
      rw [Option.elim_some]
      exact tbl_lt ram s.1 s.2
  · exact Nat.two_pow_pos 64

/-- **`uvmclear` takes a page from the user, and nothing else changes.** -/
theorem Built.uvmclear (h : Built K S m₀ m t tf sz) (hv : v < vpnup sz) :
    wp (uvmclear t (v * PGSIZE)) (fun _ m' => Built K S m₀ m' t tf sz ∧
        leaf m'.ram t = Function.update (leaf m.ram t) v (cleared (leaf m.ram t v)))
      (fun _ _ => False) m := by
  have hsmall := h.vpnup_le
  have hup := UVPN_eq
  have hu : v < UVPN := by omega
  have hne := (h.mapped v hu).2 hv
  have hdiv : v * PGSIZE / PGSIZE = v := Nat.mul_div_cancel v (by decide)
  have hlt : ¬ v * PGSIZE ≥ MAXVA := by
    rw [show MAXVA = 2 ^ 26 * PGSIZE from rfl]
    exact Nat.not_le.2 (Nat.mul_lt_mul_of_pos_right (by omega) (by decide))
  have hread := h.space.table.read v hne
  have hok : has (cleared (leaf m.ram t v)) PTE_V ∧ has (cleared (leaf m.ram t v)) PTE_R := by
    rw [has_cleared (by decide), has_cleared (by decide)]
    exact hread
  have hne' : cleared (leaf m.ram t v) ≠ 0 := fun h0 => by
    rw [h0, has_zero] at hok
    exact Bool.false_ne_true hok.1
  have hpa := pte2pa_cleared (leaf_lt m.ram t v)
  rw [Xv6.uvmclear]
  refine wp_bind.2 (wp_walk_false.2 ?_)
  rw [if_neg hlt, hdiv]
  cases hs : Radix.slot child (tbl m.ram) 2 t (path v) with
  | none => exact absurd (leaf_of_no_slot hs) hne
  | some s =>
    have hentry : leaf m.ram t v = tbl m.ram s.1 s.2 := leaf_of_slot (by omega) hs
    refine wp_bind.2 (wp_get.2 ?_)
    rw [setPte, wp_modify, Mem.pte_eq, ← hentry]
    generalize hm : Mem.mk _ _ _ _ _ = m'
    obtain ⟨htab, -, hkeep, hleaf, -⟩ := h.space.table.set_slot (by omega) hs
      (show cleared (leaf m.ram t v) < 2 ^ 64 from
        Nat.lt_of_le_of_lt Nat.and_le_left (leaf_lt m.ram t v)) (fun _ => hok) hm.symm
    have hother : ∀ w, w ≠ v → leaf m'.ram t w = leaf m.ram t w := fun w hw => by
      rw [hleaf, Function.update_of_ne hw]
    have hpages : upages (leaf m'.ram t) 0 UVPN = upages (leaf m.ram t) 0 UVPN := by
      refine Finset.sum_congr rfl fun w _ => ?_
      by_cases hw : w = v
      · rw [hw, hleaf, Function.update_self, upage_of_ne hne', upage_of_ne hne, hpa]
      · rw [hother w hw]
    refine ⟨⟨⟨htab.of_eq (by rw [hpages]), ?_, ?_, fun w hw => ?_⟩, fun w hw => ?_, h.size,
      fun p hp => ?_⟩, hleaf⟩
    · rw [hother _ (by omega), h.space.trampoline]
    · rw [hother _ (by omega), h.space.trapframe]
    · rw [hother w (by omega), h.space.high w hw]
    · by_cases hwv : w = v
      · rw [hwv, hleaf, Function.update_self]
        exact ⟨fun _ => hv, fun _ => hne'⟩
      · rw [hother w hwv]
        exact h.mapped w hw
    · rw [hkeep p (Multiset.mem_add.2 (.inr hp)), h.keeps p hp]

/-! ## The stack page -/

/-- The stack page begins at `base` and ends the program; the page below it is a guard that the
user cannot reach. -/
structure Stacked (K : Image) (S : Multiset Nat) (m₀ m : Mem) (t tf base : Nat) : Prop
    extends Built K S m₀ m t tf (base + PGSIZE) where
  aligned : base % PGSIZE = 0
  above : PGSIZE ≤ base
  write : ∀ a, base ≤ a → a < base + PGSIZE → CanWrite (leaf m.ram t) a
  guard : ∀ a, base ≤ a + PGSIZE → a < base → ¬ CanRead (leaf m.ram t) a

variable {base : Nat}

theorem Stacked.wrote (h : Stacked K S m₀ m t tf base) (hw : UserWrote K S m m' t tf) :
    Stacked K S m₀ m' t tf base :=
  ⟨h.toBuilt.wrote hw, h.aligned, h.above, by rw [hw.leaf]; exact h.write,
    by rw [hw.leaf]; exact h.guard⟩

/-- `copyout` to the stack never fails. -/
theorem Stacked.copyout {sp len : Nat} (h : Stacked K S m₀ m t tf base) (hlo : base ≤ sp)
    (hhi : sp + len ≤ base + PGSIZE) (src : Bytes) :
    wp (copyout t sp src len) (fun r m' => r = 0 ∧ Stacked K S m₀ m' t tf base ∧
        ∀ a, base ≤ a → a < base + PGSIZE →
          ubyte m' t a = if sp ≤ a ∧ a < sp + len then src (a - sp) else ubyte m t a)
      (fun _ _ => False) m := by
  have hlead : lead (CanWrite (leaf m.ram t)) sp len = len :=
    lead_eq_iff.2 fun i hi => h.write _ (by omega) (by omega)
  refine wp_mono (h.space.copyout sp src len hlead.symm) (fun r m' hr => ?_) fun _ _ he => he
  obtain ⟨hr0, hw, hbytes⟩ := hr
  refine ⟨by rw [hr0, if_pos rfl], h.wrote hw, fun a h1 h2 => hbytes a ?_⟩
  exact h.space.mapped (h.write a h1 h2).1

/-! ## Pushing strings -/

/-- The next multiple of 16. -/
def align16 (n : Nat) : Nat := (n + 15) / 16 * 16

/-- What pushing `n` bytes takes off an aligned stack pointer. -/
theorem push_eq {sp n : Nat} (h : sp % 16 = 0) (hn : n ≤ sp) :
    sp - n - (sp - n) % 16 = sp - align16 n := by
  rw [align16]
  omega

/-- The room that the string in a page takes on the stack, with its zero. -/
def argSize (ram : Nat → Bytes) (arg : Nat) : Nat := align16 (strlen (ram arg) + 1)

/-- The room that all of them take. -/
def argsSize (ram : Nat → Bytes) (argv : List Nat) : Nat := (argv.map (argSize ram)).sum

/-- Where the strings go, from `sp` down. -/
def argAddrs (ram : Nat → Bytes) : Nat → List Nat → List Nat
  | _, [] => []
  | sp, arg :: argv => (sp - argSize ram arg) :: argAddrs ram (sp - argSize ram arg) argv

/-- The arguments as `sys_exec` prepares them: strings that end within their pages. -/
structure Args (S : Multiset Nat) (ram : Nat → Bytes) (argv : List Nat) : Prop where
  held : ∀ arg ∈ argv, arg ∈ S
  ends : ∀ arg ∈ argv, ∃ n, n < PGSIZE ∧ ram arg n = 0

theorem Args.tail {ram : Nat → Bytes} {arg : Nat} {argv : List Nat} (h : Args S ram (arg :: argv)) :
    Args S ram argv :=
  ⟨fun a ha => h.held a (List.mem_cons_of_mem _ ha), fun a ha => h.ends a (List.mem_cons_of_mem _ ha)⟩

theorem argSize_le {ram : Nat → Bytes} {arg : Nat} (h : ∃ n, n < PGSIZE ∧ ram arg n = 0) :
    strlen (ram arg) + 1 ≤ argSize ram arg ∧ argSize ram arg ≤ PGSIZE ∧ argSize ram arg % 16 = 0 := by
  have hlen := (strlen_spec h).1
  have hpg : PGSIZE = 4096 := rfl
  rw [argSize, align16]
  omega

/-- The string of each argument is at its address. -/
def Placed (m₀ m : Mem) (t : Nat) : List Nat → List Nat → Prop :=
  List.Forall₂ fun addr arg =>
    ∀ j, j ≤ strlen (m₀.ram arg) → ubyte m t (addr + j) = m₀.ram arg j

theorem argsSize_cons (ram : Nat → Bytes) (arg : Nat) (argv : List Nat) :
    argsSize ram (arg :: argv) = argSize ram arg + argsSize ram argv := by
  rw [argsSize, List.map_cons, List.sum_cons, argsSize]

theorem argsSize_mod {ram : Nat → Bytes} : ∀ {argv : List Nat}, Args S ram argv →
    argsSize ram argv % 16 = 0
  | [], _ => rfl
  | arg :: argv, h => by
    have hhead := (argSize_le (h.ends arg List.mem_cons_self)).2.2
    have htail := argsSize_mod h.tail
    rw [argsSize_cons]
    omega

/-- **The loop of `exec` that pushes the strings.** -/
theorem Stacked.execArgs : ∀ {argv : List Nat} {sp : Nat} {ustack : List Nat} {m : Mem},
    Stacked K S m₀ m t tf base → Args S m₀.ram argv → base ≤ sp → sp ≤ base + PGSIZE →
    sp % 16 = 0 → ustack.length + argv.length ≤ MAXARG →
    wp (execArgs t base argv sp ustack)
      (fun r m' => Stacked K S m₀ m' t tf base ∧
        (r = none ∧ sp < base + argsSize m₀.ram argv ∨
          r = some (sp - argsSize m₀.ram argv, (argAddrs m₀.ram sp argv).reverse ++ ustack) ∧
          base + argsSize m₀.ram argv ≤ sp ∧
          (∀ a, sp ≤ a → a < base + PGSIZE → ubyte m' t a = ubyte m t a) ∧
          Placed m₀ m' t (argAddrs m₀.ram sp argv) argv))
      (fun _ _ => False) m
  | [], sp, ustack, m, h, _, hlo, _, _, _ => by
    rw [Xv6.execArgs, wp_pure]
    exact ⟨h, .inr ⟨rfl, hlo, fun _ _ _ => rfl, .nil⟩⟩
  | arg :: argv, sp, ustack, m, h, hargs, hlo, hhi, h16, hlen => by
    have hpg : PGSIZE = 4096 := rfl
    have habove := h.above
    have hsz := h.size
    have hram : m.ram arg = m₀.ram arg := h.keeps arg (hargs.held arg List.mem_cons_self)
    obtain ⟨hsize, hmax, hmod⟩ := argSize_le (hargs.ends arg List.mem_cons_self)
    have hsp : (sp + 2 ^ 64 - (strlen (m₀.ram arg) + 1)) % 2 ^ 64 =
        sp - (strlen (m₀.ram arg) + 1) := by
      omega
    have hpush : sp - (strlen (m₀.ram arg) + 1) - (sp - (strlen (m₀.ram arg) + 1)) % 16 =
        sp - argSize m₀.ram arg := push_eq h16 (by omega)
    rw [Xv6.execArgs, if_neg (by rw [List.length_cons] at hlen; omega)]
    refine wp_bind.2 (wp_get.2 ?_)
    dsimp only
    rw [hram, hsp, hpush, argsSize_cons]
    rw [wp_ite]
    split
    · next hlt => exact (wp_pure _).2 ⟨h, .inl ⟨rfl, by omega⟩⟩
    · next hge =>
      have hsp' : sp - argSize m₀.ram arg + (strlen (m₀.ram arg) + 1) ≤ base + PGSIZE := by omega
      refine wp_bind.2 (wp_mono (h.copyout (Nat.le_of_not_lt hge) hsp' _) (fun r m₁ h₁ => ?_)
        fun _ _ he => he)
      obtain ⟨rfl, hst, hbytes⟩ := h₁
      rw [if_neg (by decide)]
      refine wp_mono (Stacked.execArgs hst hargs.tail (Nat.le_of_not_lt hge) (by omega) (by omega)
        (by rw [List.length_cons] at hlen ⊢; omega)) (fun r m₂ h₂ => ?_) fun _ _ he => he
      obtain ⟨hst₂, hr⟩ := h₂
      refine ⟨hst₂, hr.imp (fun hn => ⟨hn.1, by omega⟩) fun hs => ?_⟩
      obtain ⟨hr, hle, hkeep, hplaced⟩ := hs
      refine ⟨?_, by omega, fun a h1 h2 => ?_, .cons (fun j hj => ?_) hplaced⟩
      · rw [hr, argAddrs, List.reverse_cons, List.append_assoc, Nat.sub_sub]
        rfl
      · rw [hkeep a (by omega) h2, hbytes a (by omega) h2, if_neg (by omega)]
      · rw [hkeep _ (Nat.le_add_right _ _) (by omega), hbytes _ (by omega) (by omega),
          if_pos ⟨Nat.le_add_right _ _, by omega⟩, Nat.add_sub_cancel_left]

/-! ## The pointers -/

theorem length_argAddrs (ram : Nat → Bytes) : ∀ (argv : List Nat) (sp : Nat),
    (argAddrs ram sp argv).length = argv.length
  | [], _ => rfl
  | arg :: argv, sp => by rw [argAddrs, List.length_cons, length_argAddrs ram argv, List.length_cons]

/-- All that `exec` puts on the stack. -/
def stackSize (ram : Nat → Bytes) (argv : List Nat) : Nat :=
  argsSize ram argv + align16 ((argv.length + 1) * 8)

/-- The strings on the stack, from the top down: where each begins and ends. -/
def stringRegions (ram : Nat → Bytes) (top : Nat) (argv : List Nat) : List (Nat × Nat) :=
  List.zipWith (fun addr arg => (addr, addr + strlen (ram arg) + 1)) (argAddrs ram top argv) argv

/-- All that is on the stack: the strings, and below them the pointers. -/
def stackRegions (ram : Nat → Bytes) (top sp : Nat) (argv : List Nat) : List (Nat × Nat) :=
  stringRegions ram top argv ++ [(sp, sp + (argv.length + 1) * 8)]

/-- The stack of a new program, from `sp` up to `top`: the pointers to the strings and a null
pointer, and above them the strings. -/
structure ArgStack (m₀ m : Mem) (t top sp : Nat) (argv : List Nat) : Prop where
  pointers : ∀ i, i ≤ argv.length → getLE (fun j => ubyte m t (sp + j)) (8 * i) 8 =
    (argAddrs m₀.ram top argv).getD i 0
  strings : Placed m₀ m t (argAddrs m₀.ram top argv) argv
  apart : (stackRegions m₀.ram top sp argv).Pairwise fun x y => y.2 ≤ x.1
  inside : ∀ x ∈ stackRegions m₀.ram top sp argv, sp ≤ x.1 ∧ x.2 ≤ top

theorem stringRegions_cons (ram : Nat → Bytes) (top arg : Nat) (argv : List Nat) :
    stringRegions ram top (arg :: argv) =
      (top - argSize ram arg, top - argSize ram arg + strlen (ram arg) + 1) ::
        stringRegions ram (top - argSize ram arg) argv := by
  rw [stringRegions, argAddrs, List.zipWith_cons_cons, stringRegions]

/-- The strings lie in the room that was taken for them, one below the other. -/
theorem stringRegions_spec : ∀ {argv : List Nat} {top : Nat}, Args S m₀.ram argv →
    argsSize m₀.ram argv ≤ top →
    (∀ x ∈ stringRegions m₀.ram top argv, top - argsSize m₀.ram argv ≤ x.1 ∧ x.2 ≤ top) ∧
      (stringRegions m₀.ram top argv).Pairwise fun x y => y.2 ≤ x.1
  | [], _, _, _ => ⟨fun _ hx => absurd hx List.not_mem_nil, .nil⟩
  | arg :: argv, top, h, hle => by
    have hsize := (argSize_le (h.ends arg List.mem_cons_self)).1
    rw [argsSize_cons] at hle ⊢
    have hrest : argsSize m₀.ram argv ≤ top - argSize m₀.ram arg := by omega
    obtain ⟨hin, hpair⟩ := stringRegions_spec h.tail hrest
    rw [stringRegions_cons]
    refine ⟨fun x hx => ?_, List.pairwise_cons.2 ⟨fun x hx => (hin x hx).2, hpair⟩⟩
    rcases List.mem_cons.1 hx with rfl | hx
    · dsimp only
      omega
    · have hx := hin x hx
      omega

/-- Strings stay while their room is not written. -/
theorem Placed.keep : ∀ {argv : List Nat} {top : Nat}, Args S m₀.ram argv →
    argsSize m₀.ram argv ≤ top →
    (∀ a, top - argsSize m₀.ram argv ≤ a → a < top → ubyte m' t a = ubyte m t a) →
    Placed m₀ m t (argAddrs m₀.ram top argv) argv → Placed m₀ m' t (argAddrs m₀.ram top argv) argv
  | [], _, _, _, _, _ => .nil
  | arg :: argv, top, h, hle, hkeep, hp => by
    have hsize := (argSize_le (h.ends arg List.mem_cons_self)).1
    rw [argsSize_cons] at hle hkeep
    rw [argAddrs] at hp ⊢
    obtain ⟨hhead, htail⟩ := List.forall₂_cons.1 hp
    refine .cons (fun j hj => ?_) (Placed.keep h.tail (by omega) (fun a h1 h2 => ?_) htail)
    · rw [hkeep _ (by omega) (by omega), hhead j hj]
    · exact hkeep a (by omega) (by omega)

/-- The words of an array that lies in memory. -/
theorem getLE_wordBytes {b : Bytes} {ws : List Nat} {i : Nat}
    (hb : ∀ j, j < 8 → b (8 * i + j) = wordBytes ws (8 * i + j)) (hw : ws.getD i 0 < 2 ^ 64) :
    getLE b (8 * i) 8 = ws.getD i 0 := by
  have hdigits : getLE b (8 * i) 8 = ws.getD i 0 % 256 ^ 8 := by
    refine getLE_of_digits fun j hj => ?_
    rw [hb j hj, wordBytes, show (8 * i + j) / 8 = i by omega, show (8 * i + j) % 8 = j by omega]
    exact UInt8.toNat_ofNat'
  rw [show (2 : Nat) ^ 64 = 256 ^ 8 by decide] at hw
  rw [hdigits, Nat.mod_eq_of_lt hw]

/-- Addresses on the stack are below the top. -/
theorem argAddrs_getD_le (ram : Nat → Bytes) : ∀ (argv : List Nat) (top i : Nat),
    (argAddrs ram top argv).getD i 0 ≤ top
  | [], top, i => by
    rw [argAddrs, List.getD_nil]
    exact Nat.zero_le top
  | arg :: argv, top, 0 => Nat.sub_le _ _
  | arg :: argv, top, i + 1 =>
    (argAddrs_getD_le ram argv (top - argSize ram arg) i).trans (Nat.sub_le _ _)

/-- The null pointer at the end of the array is what its default would be. -/
theorem getD_append_zero (ws : List Nat) (i : Nat) : (ws ++ [0]).getD i 0 = ws.getD i 0 := by
  rw [List.getD_eq_getElem?_getD, List.getD_eq_getElem?_getD, List.getElem?_append]
  split
  · rfl
  · next h =>
    rw [List.getElem?_eq_none (Nat.le_of_not_lt h), List.getElem?_singleton]
    split <;> rfl

/-- **The pointers complete the stack.** -/
theorem Stacked.pointers {argv : List Nat} {sp : Nat} (h : Stacked K S m₀ m t tf base)
    (hargs : Args S m₀.ram argv) (hfit : base + stackSize m₀.ram argv ≤ base + PGSIZE)
    (hsp : sp = base + PGSIZE - stackSize m₀.ram argv)
    (hplaced : Placed m₀ m t (argAddrs m₀.ram (base + PGSIZE) argv) argv) :
    wp (Xv6.copyout t sp (wordBytes (argAddrs m₀.ram (base + PGSIZE) argv ++ [0]))
        ((argv.length + 1) * 8))
      (fun r m' => r = 0 ∧ Stacked K S m₀ m' t tf base ∧ ArgStack m₀ m' t (base + PGSIZE) sp argv)
      (fun _ _ => False) m := by
  have hpg : PGSIZE = 4096 := rfl
  have hsz := h.size
  rw [stackSize] at hfit hsp
  have hroom : (argv.length + 1) * 8 ≤ align16 ((argv.length + 1) * 8) := by
    rw [align16]
    omega
  have hstrings : argsSize m₀.ram argv ≤ base + PGSIZE := by omega
  obtain ⟨hin, hpair⟩ := stringRegions_spec hargs hstrings
  refine wp_mono (h.copyout (by omega) (by omega) _) (fun r m' hr => ?_) fun _ _ he => he
  obtain ⟨hr, hst, hbytes⟩ := hr
  refine ⟨hr, hst, fun i hi => ?_, ?_, List.pairwise_append.2 ⟨hpair, List.pairwise_singleton _ _,
    fun x hx y hy => ?_⟩, fun x hx => ?_⟩
  · rw [← getD_append_zero]
    refine getLE_wordBytes (fun j hj => ?_) ?_
    · rw [hbytes _ (by omega) (by omega), if_pos (by omega), Nat.add_sub_cancel_left]
    · have hle := argAddrs_getD_le m₀.ram argv (base + PGSIZE) i
      rw [getD_append_zero]
      omega
  · refine hplaced.keep hargs (by omega) fun a h1 h2 => ?_
    rw [hbytes a (by omega) h2, if_neg (by omega)]
  · rw [List.mem_singleton.1 hy]
    have hx := (hin x hx).1
    dsimp only
    omega
  · rcases List.mem_append.1 hx with hx | hx
    · have hx := hin x hx
      omega
    · rw [List.mem_singleton.1 hx]
      dsimp only
      omega

theorem Loading.round (h : Loading K S m₀ m t tf sz) : Loading K S m₀ m t tf (pgroundup sz) := by
  have hsmall := h.vpnup_le
  have hv : vpnup (pgroundup sz) = vpnup sz := by
    rw [pgroundup_eq]
    exact vpnup_mul (by omega)
  have hpg : PGSIZE = 4096 := rfl
  refine ⟨⟨h.space, ?_, ?_, h.keeps⟩, ?_⟩
  · rw [hv]
    exact h.mapped
  · rw [pgroundup_eq, hpg]
    omega
  · rw [hv]
    exact h.user

/-- What the two new pages are once `uvmclear` has been there. -/
theorem Loading.stacked {m₁ : Mem} (h : Loading K S m₀ m t tf (v * PGSIZE))
    (hb : Built K S m₀ m₁ t tf (v * PGSIZE + 2 * PGSIZE))
    (hnew : ∀ w, v ≤ w → w < v + 2 →
      pteFlags (leaf m₁.ram t w) = PTE_R ||| PTE_U ||| PTE_W ||| PTE_V)
    (hb' : Built K S m₀ m' t tf (v * PGSIZE + 2 * PGSIZE))
    (hleaf : leaf m'.ram t = Function.update (leaf m₁.ram t) v (cleared (leaf m₁.ram t v))) :
    Stacked K S m₀ m' t tf (v * PGSIZE + PGSIZE) := by
  have hpg : PGSIZE = 4096 := rfl
  have hmax : MAXVA = 2 ^ 38 := rfl
  have hsz := hb.size
  have hsum : v * PGSIZE + 2 * PGSIZE = v * PGSIZE + PGSIZE + PGSIZE := by omega
  rw [hsum] at hb'
  refine ⟨hb', ?_, Nat.le_add_left _ _, fun a h1 h2 => ?_, fun a h1 h2 hread => ?_⟩
  · rw [← Nat.succ_mul]
    exact Nat.mul_mod_left _ _
  · have hpage : a / PGSIZE = v + 1 := by
      rw [hpg] at *
      omega
    have hflags : ∀ f, f < 1024 →
        has (leaf m'.ram t (a / PGSIZE)) f = has (PTE_R ||| PTE_U ||| PTE_W ||| PTE_V) f := by
      intro f hf
      rw [hpage, hleaf, Function.update_of_ne (by omega), ← has_pteFlags hf,
        hnew (v + 1) (by omega) (by omega)]
    refine ⟨⟨by rw [hmax]; omega, ?_, ?_⟩, ?_⟩
    · rw [hflags _ (by decide)]
      decide
    · rw [hflags _ (by decide)]
      decide
    · rw [hflags _ (by decide)]
      decide
  · have hpage : a / PGSIZE = v := by
      rw [hpg] at *
      omega
    obtain ⟨-, -, hU⟩ := hread
    rw [hpage, hleaf, Function.update_self, not_has_cleared] at hU
    cases hU

/-- **The middle of `exec`.**  Once there is memory for the two pages, it fails exactly when the
strings and the pointers do not fit one page, and otherwise leaves the argument stack. -/
theorem Loading.execStack {argv : List Nat} (h : Loading K S m₀ m t tf sz)
    (hargs : Args S m₀.ram argv) (hlen : argv.length < MAXARG) :
    wp (execStack K t argv sz) (fun r m' => ∃ base, base = pgroundup sz + PGSIZE ∧
        (r = (pgroundup sz, none) ∧ Built K S m₀ m' t tf (pgroundup sz) ∧
            (∃ m₁, Xv6.uvmalloc K t (pgroundup sz) (pgroundup sz + 2 * PGSIZE) PTE_W m = .ok 0 m₁) ∨
          r.1 = base + PGSIZE ∧ Stacked K S m₀ m' t tf base ∧
          (r.2 = none ∧ PGSIZE < stackSize m₀.ram argv ∨
            r.2 = some (base + PGSIZE - stackSize m₀.ram argv, argv.length) ∧
            stackSize m₀.ram argv ≤ PGSIZE ∧
            ArgStack m₀ m' t (base + PGSIZE) (base + PGSIZE - stackSize m₀.ram argv) argv)))
      (fun _ _ => False) m := by
  have hpg : PGSIZE = 4096 := rfl
  have hmaxarg : MAXARG = 32 := rfl
  have hsmall := h.vpnup_le
  have hup : pgroundup sz = vpnup sz * PGSIZE := pgroundup_eq sz
  have hround := h.round
  rw [hup] at hround
  generalize vpnup sz = v at hup hround hsmall
  have hv : ∀ n, n ≤ 32768 → vpnup (n * PGSIZE) = n := fun n hn => vpnup_mul (by omega)
  have hsum : v * PGSIZE + 2 * PGSIZE = (v + 2) * PGSIZE :=
    (Nat.add_mul v 2 PGSIZE).symm
  rw [Xv6.execStack]
  dsimp only
  rw [hup]
  have hperm : PTE_R ||| PTE_U ||| PTE_W < 1024 := by decide
  obtain ⟨sz1, m₁, hrun, h₁⟩ :=
    (hround.toBuilt.uvmalloc (Nat.le_add_right _ (2 * PGSIZE)) hperm).exists_ok
  refine wp_bind.2 ((wp_of_ok hrun).2 ?_)
  rw [wp_ite]
  rcases h₁ with ⟨rfl, hb, -, hnew⟩ | ⟨rfl, hb, -⟩
  · have hv2 : v + 2 ≤ 32768 := by
      have hb2 := hb.size
      rw [hpg] at hb2
      omega
    rw [hsum, hv v (by omega), hv (v + 2) hv2] at hnew
    rw [if_neg (by omega), show v * PGSIZE + 2 * PGSIZE - 2 * PGSIZE = v * PGSIZE by omega,
      show v * PGSIZE + 2 * PGSIZE - PGSIZE = v * PGSIZE + PGSIZE by omega]
    have hclear : v < vpnup (v * PGSIZE + 2 * PGSIZE) := by
      rw [hsum, hv (v + 2) hv2]
      omega
    refine wp_bind.2 (wp_mono (hb.uvmclear hclear) (fun _ m₂ h₂ => ?_) fun _ _ he => he.elim)
    have hst := hround.stacked hb hnew h₂.1 h₂.2
    rw [show v * PGSIZE + 2 * PGSIZE = v * PGSIZE + PGSIZE + PGSIZE by omega]
    generalize v * PGSIZE + PGSIZE = base at hst
    have hsz := hst.size
    have habove := hst.above
    have h16 : (base + PGSIZE) % 16 = 0 := by
      have haligned := hst.aligned
      rw [hpg] at haligned ⊢
      omega
    refine wp_bind.2 (wp_mono (hst.execArgs hargs (Nat.le_add_right _ _) (Nat.le_refl _) h16
      (by rw [List.length_nil]; omega)) (fun r m₃ h₃ => ?_) fun _ _ he => he.elim)
    obtain ⟨hst₃, ⟨rfl, hlt⟩ | ⟨rfl, hle, -, hplaced⟩⟩ := h₃
    · refine (wp_pure _).2 ⟨base, rfl, .inr ⟨rfl, hst₃, .inl ⟨rfl, ?_⟩⟩⟩
      rw [stackSize]
      omega
    · -- the strings fit; whether the pointers do is checked after they have been pushed
      have hlen' : ((argAddrs m₀.ram (base + PGSIZE) argv).reverse ++ []).length = argv.length := by
        rw [List.append_nil, List.length_reverse, length_argAddrs]
      have hsp : (base + PGSIZE - argsSize m₀.ram argv + 2 ^ 64 - (argv.length + 1) * 8) % 2 ^ 64 =
          base + PGSIZE - argsSize m₀.ram argv - (argv.length + 1) * 8 := by
        omega
      have hmod : (base + PGSIZE - argsSize m₀.ram argv) % 16 = 0 := by
        have hdvd := argsSize_mod hargs
        omega
      have hpush := push_eq hmod (show (argv.length + 1) * 8 ≤ base + PGSIZE - argsSize m₀.ram argv
        by omega)
      have hsize : base + PGSIZE - argsSize m₀.ram argv - align16 ((argv.length + 1) * 8) =
          base + PGSIZE - stackSize m₀.ram argv := by
        rw [stackSize, Nat.sub_sub]
      dsimp only
      rw [hlen', hsp, hpush, hsize, List.append_nil, List.reverse_reverse, wp_ite]
      have halign : align16 ((argv.length + 1) * 8) ≤ PGSIZE := by
        rw [align16]
        omega
      split
      · next hlt =>
        refine (wp_pure _).2 ⟨base, rfl, .inr ⟨rfl, hst₃, .inl ⟨rfl, ?_⟩⟩⟩
        omega
      · next hge =>
        have hfit : base + stackSize m₀.ram argv ≤ base + PGSIZE := by
          rw [stackSize] at hge ⊢
          omega
        refine wp_bind.2 (wp_mono (hst₃.pointers hargs hfit rfl hplaced) (fun r m₄ h₄ => ?_)
          fun _ _ he => he.elim)
        obtain ⟨rfl, hst₄, hstack⟩ := h₄
        rw [if_neg (by decide), wp_pure]
        exact ⟨base, rfl, .inr ⟨rfl, hst₄, .inr ⟨rfl, by omega, hstack⟩⟩⟩
  · rw [if_pos rfl, wp_pure]
    exact ⟨_, rfl, .inl ⟨rfl, hb, m₁, hrun⟩⟩

end Xv6
