import Xv6.Vm.Transfer

/-!
# What `copyin`, `copyout` and `copyinstr` guarantee

The three routines return 0 exactly if the user may access the range, or the string, and then they
have copied exactly it.  For `copyout` this takes a page table whose user pages are apart from its
tables, and from each other if the user is to read back what was written: on a table that maps one
page twice it is not so.
-/

set_option autoImplicit false

namespace Xv6

variable {m : Mem} {t : Nat}

/-- **`copyout` and `copyin` are exact**, on any page table whose user pages are not at address 0
and, for `copyout`, hold none of its tables.  `copyout` returns 0 exactly if the user may write
every byte of the range.  It changes no byte but those of the range, up to the first that the user
may not write; and if no two user pages are the same page, the user then reads `src`, and so does
`copyin`.  `copyin` returns 0 exactly if the user may read every byte, and then `dst` has them. -/
theorem copy_exact (hf : Framed m.ram t) (ht : TablesApart m.ram t) (va len : Nat)
    (src dst : Bytes) :
    (∃ r m', copyout t va src len m = .ok r m' ∧ (r = 0 ∨ r = -1) ∧
      (r = 0 ↔ ∀ i, i < len → CanWrite (leaf m.ram t) (va + i)) ∧
      m' = { m with ram := m'.ram } ∧ leaf m'.ram t = leaf m.ram t ∧
      (∀ p o, (∀ i, i < len → (∀ j, j ≤ i → CanWrite (leaf m.ram t) (va + j)) →
        place (leaf m.ram t) (va + i) ≠ (p, o)) → m'.ram p o = m.ram p o) ∧
      (r = 0 → Distinct m.ram t → (∀ i, i < len → ubyte m' t (va + i) = src i) ∧
        ∃ dst', copyin t dst va len m' = .ok (0, dst') m' ∧ ∀ i, i < len → dst' i = src i)) ∧
    ∃ r dst', copyin t dst va len m = .ok (r, dst') m ∧ (r = 0 ∨ r = -1) ∧
      (r = 0 ↔ ∀ i, i < len → CanRead (leaf m.ram t) (va + i)) ∧
      (r = 0 → ∀ j, dst' j = if j < len then ubyte m t (va + j) else dst j) := by
  have hres : ∀ {P : Prop} [Decidable P], ((if P then 0 else -1 : Int) = 0 ∨
      (if P then 0 else -1 : Int) = -1) ∧ ((if P then 0 else -1 : Int) = 0 ↔ P) := by
    intro P _
    split
    · next h => exact ⟨.inl rfl, iff_of_true rfl h⟩
    · next h => exact ⟨.inr rfl, iff_of_false (by decide) h⟩
  have hblit : ∀ (f : Nat → UInt8) j, blit dst 0 f len j = if j < len then f j else dst j := by
    intro f j
    rw [blit]
    exact if_congr (by omega) rfl rfl
  refine ⟨?_, ?_⟩
  · obtain ⟨m', hrun, hw⟩ := copyout_eq ht va src len
    refine ⟨_, m', hrun, hres.1, hres.2.trans lead_eq_iff, hw.mem, hw.leaf, fun p o hp => ?_,
      fun h0 hd => ?_⟩
    · refine hw.frame p o fun i hi => hp i (hi.trans_le (lead_le _ _ _)) fun j hj => ?_
      exact lead_spec.1 j (hj.trans_lt hi)
    · have hall := hres.2.1 h0
      have hcan := lead_eq_iff.1 hall
      rw [hall] at hw
      have hbytes : ∀ i, i < len → ubyte m' t (va + i) = src i := fun i hi => by
        have hb := hw.last i hi fun j h1 h2 heq => ?_
        · rwa [Nat.zero_add] at hb
        · have := hd.place_inj (hcan j h2) (hcan i hi) heq
          omega
      have hf' : Framed m'.ram t := by
        rw [Framed, hw.leaf]
        exact hf
      have hread : lead (CanRead (leaf m'.ram t)) va len = len := by
        rw [hw.leaf]
        exact lead_eq_iff.2 fun i hi => (hcan i hi).1
      refine ⟨hbytes, _, by rw [copyin_eq hf', hread, if_pos rfl], fun i hi => ?_⟩
      rw [hblit, if_pos hi, hbytes i hi]
  · refine ⟨_, _, copyin_eq hf dst va len, hres.1, hres.2.trans lead_eq_iff, fun h0 j => ?_⟩
    rw [hres.2.1 h0, hblit]

/-- **`copyinstr` is exact**, on any page table whose user pages are not at address 0: it returns 0
exactly if the user may read up to a 0 within `max` bytes, and then `dst` has the string with that
0 and is otherwise as it was.  It never writes more than `max` bytes. -/
theorem copyinstr_exact (h : Framed m.ram t) (dst : Bytes) (srcva max : Nat) :
    ∃ r dst', copyinstr t dst srcva max m = .ok (r, dst') m ∧ (r = 0 ∨ r = -1) ∧
      (r = 0 ↔ ∃ k, k < max ∧ ubyte m t (srcva + k) = 0 ∧
        ∀ i, i ≤ k → CanRead (leaf m.ram t) (srcva + i)) ∧
      (r = 0 → ∃ k, k < max ∧ ubyte m t (srcva + k) = 0 ∧
        (∀ i, i < k → ubyte m t (srcva + i) ≠ 0) ∧
        ∀ j, dst' j = if j ≤ k then ubyte m t (srcva + j) else dst j) ∧
      ∀ j, max ≤ j → dst' j = dst j := by
  obtain ⟨k, hk⟩ : ∃ k, k = lead (InString m t) srcva max := ⟨_, rfl⟩
  have hle : k ≤ max := hk ▸ lead_le _ _ _
  have hin : ∀ i, i < k → InString m t (srcva + i) := fun i hi => lead_spec.1 i (hk ▸ hi)
  have hblit : ∀ j, blit dst 0 (fun i => ubyte m t (srcva + i)) k j =
      if j < k then ubyte m t (srcva + j) else dst j := by
    intro j
    rw [blit]
    exact if_congr (by omega) rfl rfl
  by_cases hend : k < max ∧ CanRead (leaf m.ram t) (srcva + k)
  · -- the string ends at `k`
    have hz : ubyte m t (srcva + k) = 0 := by
      have hstop := lead_spec.2 (hk ▸ hend.1)
      rw [← hk] at hstop
      exact not_not.1 fun hne => hstop ⟨hend.2, hne⟩
    have hdst : ∀ j, Function.update (blit dst 0 (fun i => ubyte m t (srcva + i)) k) k 0 j =
        if j ≤ k then ubyte m t (srcva + j) else dst j := by
      intro j
      by_cases hj : j = k
      · rw [hj, Function.update_self, if_pos le_rfl, hz]
      · rw [Function.update_of_ne hj, hblit]
        exact if_congr (by omega) rfl rfl
    refine ⟨0, _, by rw [copyinstr_eq h, ← hk, strResult, if_pos hend, Nat.zero_add], .inl rfl,
      iff_of_true rfl ⟨k, hend.1, hz, fun i hi => ?_⟩,
      fun _ => ⟨k, hend.1, hz, fun i hi => (hin i hi).2, hdst⟩, fun j hj => ?_⟩
    · rcases Nat.eq_or_lt_of_le hi with rfl | hi
      · exact hend.2
      · exact (hin i hi).1
    · rw [hdst, if_neg (by omega)]
  · refine ⟨-1, _, by rw [copyinstr_eq h, ← hk, strResult, if_neg hend], .inr rfl,
      iff_of_false (by decide) ?_, fun h0 => absurd h0 (by decide), fun j hj => ?_⟩
    · rintro ⟨i, hi, hz, hr⟩
      -- the 0 is not among the bytes that were copied
      have hik : k ≤ i := not_lt.1 fun hlt => (hin i hlt).2 hz
      exact hend ⟨by omega, hr k hik⟩
    · rw [hblit, if_neg (by omega)]

/-! ### Two pages -/

/-- The entry for a page that the user may read and write. -/
def userPte (pa : Nat) : Nat := pa2pte pa ||| (PTE_R ||| PTE_W ||| PTE_U ||| PTE_V)

/-- A page table at address 4096, with its tables at 8192 and 12288, that maps the virtual pages 0
and 1 to `pa` and `pb`. -/
def twoPages (pa pb : Nat) : Nat → Bytes :=
  let ram : Nat → Bytes := fun _ _ => 0
  let ram := Function.update ram 4096 (setLE (ram 4096) (8 * 0) 8 (pa2pte 8192 ||| PTE_V))
  let ram := Function.update ram 8192 (setLE (ram 8192) (8 * 0) 8 (pa2pte 12288 ||| PTE_V))
  let ram := Function.update ram 12288 (setLE (ram 12288) (8 * 0) 8 (userPte pa))
  Function.update ram 12288 (setLE (ram 12288) (8 * 1) 8 (userPte pb))

section

variable {pa pb : Nat}

theorem userPte_lt (h : pa < PHYSTOP) : userPte pa < 2 ^ 64 := pte_lt (by decide) h

theorem twoPages_tbl (ha : pa < PHYSTOP) (hb : pb < PHYSTOP) (p i : Nat) :
    tbl (twoPages pa pb) p i =
      if p = 12288 ∧ i = 1 then userPte pb
      else if p = 12288 ∧ i = 0 then userPte pa
      else if p = 8192 ∧ i = 0 then pa2pte 12288 ||| PTE_V
      else if p = 4096 ∧ i = 0 then pa2pte 8192 ||| PTE_V else 0 := by
  rw [twoPages]
  dsimp only
  rw [tbl_setPte _ _ _ (userPte_lt hb), tbl_setPte _ _ _ (userPte_lt ha),
    tbl_setPte _ _ _ (by decide), tbl_setPte _ _ _ (by decide), tbl_zero rfl]

/-- The entries of the upper tables. -/
theorem twoPages_child (ha : pa < PHYSTOP) (hb : pb < PHYSTOP) {p i c : Nat}
    (hp : p = 4096 ∨ p = 8192) (hc : child (tbl (twoPages pa pb) p i) = some c) :
    i = 0 ∧ c = if p = 4096 then 8192 else 12288 := by
  rw [twoPages_tbl ha hb, if_neg (by omega), if_neg (by omega)] at hc
  split at hc
  · next h =>
    obtain ⟨-, rfl⟩ := child_eq_some.1 hc
    rw [if_neg (by omega), pte2pa_or (by decide) (by decide)]
    exact ⟨h.2, rfl⟩
  · split at hc
    · next h =>
      obtain ⟨-, rfl⟩ := child_eq_some.1 hc
      rw [if_pos h.1, pte2pa_or (by decide) (by decide)]
      exact ⟨h.2, rfl⟩
    · cases hc

theorem twoPages_leaf (ha : pa < PHYSTOP) (hb : pb < PHYSTOP) {v : Nat} :
    leaf (twoPages pa pb) 4096 v =
      if v = 1 then userPte pb else if v = 0 then userPte pa else 0 := by
  have h2 : child (tbl (twoPages pa pb) 4096 0) = some 8192 := by
    rw [twoPages_tbl ha hb, if_neg (by decide), if_neg (by decide), if_neg (by decide),
      if_pos (by decide)]
    decide
  have h1 : child (tbl (twoPages pa pb) 8192 0) = some 12288 := by
    rw [twoPages_tbl ha hb, if_neg (by decide), if_neg (by decide), if_pos (by decide)]
    decide
  rw [leaf]
  split
  · next hv =>
    have hpath : ∀ k, path v k = v / 512 ^ k % 512 := fun _ => rfl
    cases hc2 : child (tbl (twoPages pa pb) 4096 (path v 2)) with
    | none =>
      have hne : path v 2 ≠ 0 := fun h0 => by rw [h0, h2] at hc2; cases hc2
      rw [hpath] at hne
      rw [leafAt_none hc2, if_neg (by omega), if_neg (by omega)]
    | some c2 =>
      obtain ⟨h20, rfl⟩ := twoPages_child ha hb (.inl rfl) hc2
      rw [leafAt_succ hc2, if_pos rfl]
      cases hc1 : child (tbl (twoPages pa pb) 8192 (path v 1)) with
      | none =>
        have hne : path v 1 ≠ 0 := fun h0 => by rw [h0, h1] at hc1; cases hc1
        rw [hpath] at hne
        rw [leafAt_none hc1, if_neg (by omega), if_neg (by omega)]
      | some c1 =>
        obtain ⟨h10, rfl⟩ := twoPages_child ha hb (.inr rfl) hc1
        rw [leafAt_succ hc1, if_neg (by decide), leafAt, Radix.slot, Option.elim_some,
          twoPages_tbl ha hb]
        rw [hpath] at h20 h10
        have hv0 : path v 0 = v := by
          rw [hpath]
          omega
        rw [hv0]
        simp
  · next hv => rw [if_neg (by omega), if_neg (by omega)]

theorem twoPages_nodes (ha : pa < PHYSTOP) (hb : pb < PHYSTOP) {p : Nat}
    (hp : p ∈ nodes (twoPages pa pb) 2 4096) : p ≤ 12288 := by
  rcases Radix.mem_nodes_succ hp with rfl | ⟨i, -, c, hc, hp⟩
  · decide
  · obtain ⟨-, rfl⟩ := twoPages_child ha hb (.inl rfl) hc
    rcases Radix.mem_nodes_succ hp with rfl | ⟨i, -, c, hc, hp⟩
    · decide
    · obtain ⟨-, rfl⟩ := twoPages_child ha hb (.inr rfl) hc
      rw [Radix.nodes_zero, Multiset.mem_singleton] at hp
      rw [hp]
      decide

/-- The pages of `twoPages`, by virtual page. -/
theorem twoPages_frame (ha : pa < PHYSTOP) (hb : pb < PHYSTOP) (ha0 : pa % PGSIZE = 0)
    (hb0 : pb % PGSIZE = 0) {v : Nat} (hV : has (leaf (twoPages pa pb) 4096 v) PTE_V) :
    v = 0 ∧ pte2pa (leaf (twoPages pa pb) 4096 v) = pa ∨
      v = 1 ∧ pte2pa (leaf (twoPages pa pb) 4096 v) = pb := by
  rw [twoPages_leaf ha hb] at hV ⊢
  split
  · next h1 => exact .inr ⟨h1, pte2pa_or (by decide) hb0⟩
  · next h1 =>
    rw [if_neg h1] at hV
    split
    · next h0 => exact .inl ⟨h0, pte2pa_or (by decide) ha0⟩
    · next h0 =>
      rw [if_neg h0, has_zero] at hV
      cases hV

theorem userPte_has {f : Nat} (hf : f < 1024)
    (h : has (PTE_R ||| PTE_W ||| PTE_U ||| PTE_V) f = true) : has (userPte pa) f = true := by
  rw [userPte, has_or, has_pa2pte hf, h]
  rfl

theorem twoPages_canWrite (ha : pa < PHYSTOP) (hb : pb < PHYSTOP) {a : Nat} (h : a < 8192) :
    CanWrite (leaf (twoPages pa pb) 4096) a := by
  have hpte : ∃ p, leaf (twoPages pa pb) 4096 (a / PGSIZE) = userPte p := by
    rw [twoPages_leaf ha hb]
    split
    · exact ⟨pb, rfl⟩
    · rw [if_pos (by rw [PGSIZE] at *; omega)]
      exact ⟨pa, rfl⟩
  obtain ⟨p, hp⟩ := hpte
  rw [CanWrite, CanRead, hp]
  exact ⟨⟨h.trans (by decide), userPte_has (by decide) rfl, userPte_has (by decide) rfl⟩,
    userPte_has (by decide) rfl⟩

theorem twoPages_framed (ha : pa < PHYSTOP) (hb : pb < PHYSTOP) (ha0 : pa % PGSIZE = 0)
    (hb0 : pb % PGSIZE = 0) (hpa : 12288 < pa) (hpb : 12288 < pb) :
    Framed (twoPages pa pb) 4096 ∧ TablesApart (twoPages pa pb) 4096 := by
  refine ⟨fun v hV _ => ?_, fun a hw hn => ?_⟩
  · rcases twoPages_frame ha hb ha0 hb0 hV with ⟨-, h⟩ | ⟨-, h⟩
    · rw [h]
      omega
    · rw [h]
      omega
  · have hle := twoPages_nodes ha hb hn
    rcases twoPages_frame ha hb ha0 hb0 hw.1.2.1 with ⟨-, h⟩ | ⟨-, h⟩
    · omega
    · omega

theorem twoPages_distinct (ha : pa < PHYSTOP) (hb : pb < PHYSTOP) (ha0 : pa % PGSIZE = 0)
    (hb0 : pb % PGSIZE = 0) (hne : pa ≠ pb) : Distinct (twoPages pa pb) 4096 := by
  intro a b hwa hwb heq
  rcases twoPages_frame ha hb ha0 hb0 hwa.1.2.1 with ⟨h1, h2⟩ | ⟨h1, h2⟩
  · rcases twoPages_frame ha hb ha0 hb0 hwb.1.2.1 with ⟨h3, h4⟩ | ⟨h3, h4⟩
    · rw [h1, h3]
    · exact absurd (h2.symm.trans (heq.trans h4)) hne
  · rcases twoPages_frame ha hb ha0 hb0 hwb.1.2.1 with ⟨h3, h4⟩ | ⟨h3, h4⟩
    · exact absurd (h2.symm.trans (heq.trans h4)) hne.symm
    · rw [h1, h3]

end

/-- Memory with no free page. -/
def memOf (ram : Nat → Bytes) : Mem := ⟨ram, [], 0, 0, 0⟩

/-- Where two virtual pages are the same page, `copyout` succeeds but the user does not read what
it wrote. -/
theorem copyout_aliased : Framed (twoPages 16384 16384) 4096 ∧ ∃ m' : Mem,
    copyout 4096 0 (fun j => if j = 0 then 1 else 0) 4097 (memOf (twoPages 16384 16384)) =
      .ok 0 m' ∧ ubyte m' 4096 0 ≠ 1 := by
  have hlt : 16384 < PHYSTOP := by decide
  obtain ⟨hf, ht⟩ := twoPages_framed hlt hlt (by decide) (by decide) (by decide) (by decide)
  refine ⟨hf, ?_⟩
  obtain ⟨m', hrun, hw⟩ := copyout_eq (m := memOf (twoPages 16384 16384)) ht 0
    (fun j => if j = 0 then 1 else 0) 4097
  have hall : lead (CanWrite (leaf (twoPages 16384 16384) 4096)) 0 4097 = 4097 :=
    lead_eq_iff.2 fun i hi => twoPages_canWrite hlt hlt (by omega)
  rw [show (memOf (twoPages 16384 16384)).ram = twoPages 16384 16384 from rfl, hall] at hrun hw
  refine ⟨m', hrun, ?_⟩
  -- the byte that was written last is at the same place as the first
  have hlast := hw.last 4096 (by decide) fun j h1 h2 => by omega
  have hsame : ubyte m' 4096 0 = ubyte m' 4096 (0 + 4096) := by
    rw [ubyte, ubyte, hw.leaf]
    show m'.ram (pte2pa (leaf (twoPages 16384 16384) 4096 0)) 0 =
      m'.ram (pte2pa (leaf (twoPages 16384 16384) 4096 1)) 0
    rw [twoPages_leaf hlt hlt, twoPages_leaf hlt hlt]
    rfl
  rw [hsame, hlast]
  decide

/-- Two bytes over a page boundary are written and read back. -/
theorem copy_exact_two : ∃ m' dst', copyout 4096 4095 (fun j => if j = 0 then 7 else 8) 2
      (memOf (twoPages 16384 20480)) = .ok 0 m' ∧
    copyin 4096 (fun _ => 0) 4095 2 m' = .ok (0, dst') m' ∧ dst' 0 = 7 ∧ dst' 1 = 8 := by
  have ha : 16384 < PHYSTOP := by decide
  have hb : 20480 < PHYSTOP := by decide
  obtain ⟨hf, ht⟩ := twoPages_framed ha hb (by decide) (by decide) (by decide) (by decide)
  obtain ⟨⟨r, m', hrun, -, h0, -, -, -, hback⟩, -⟩ := copy_exact
    (m := memOf (twoPages 16384 20480)) hf ht 4095 2 (fun j => if j = 0 then 7 else 8) fun _ => 0
  have hr : r = 0 := h0.2 fun i hi => twoPages_canWrite ha hb (by omega)
  obtain ⟨-, dst', hin, hdst⟩ :=
    hback hr (twoPages_distinct ha hb (by decide) (by decide) (by decide))
  rw [hr] at hrun
  exact ⟨m', dst', hrun, hin, hdst 0 (by decide), hdst 1 (by decide)⟩

/-- The empty string at the end of the first page. -/
theorem copyinstr_exact_empty : ∃ dst', copyinstr 4096 (fun _ => 5) 4095 1
      (memOf (twoPages 16384 20480)) = .ok (0, dst') (memOf (twoPages 16384 20480)) ∧
    dst' 0 = 0 ∧ dst' 1 = 5 := by
  have ha : 16384 < PHYSTOP := by decide
  have hb : 20480 < PHYSTOP := by decide
  obtain ⟨hf, -⟩ := twoPages_framed ha hb (by decide) (by decide) (by decide) (by decide)
  obtain ⟨r, dst', hrun, -, h0, hstr, hrest⟩ := copyinstr_exact
    (m := memOf (twoPages 16384 20480)) hf (fun _ => 5) 4095 1
  have hz : ubyte (memOf (twoPages 16384 20480)) 4096 4095 = 0 := by
    show (twoPages 16384 20480) (pte2pa (leaf (twoPages 16384 20480) 4096 0)) 4095 = 0
    rw [twoPages_leaf ha hb]
    decide +kernel
  have hr : r = 0 := h0.2 ⟨0, by decide, hz, fun i hi => by
    obtain rfl : i = 0 := by omega
    exact (twoPages_canWrite ha hb (by decide)).1⟩
  obtain ⟨k, hk, -, -, hdst⟩ := hstr hr
  obtain rfl : k = 0 := by omega
  refine ⟨dst', by rw [← hr]; exact hrun, ?_, hrest 1 (by decide)⟩
  rw [hdst 0, if_pos (le_refl 0)]
  exact hz

end Xv6
