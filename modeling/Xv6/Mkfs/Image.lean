import Xv6.Fs.Slots
import Xv6.Mkfs.Mkfs
import Mathlib.Data.Finset.Card
import Mathlib.Data.Finset.Union
import Mathlib.Algebra.Order.BigOperators.Group.Finset

/-!
# What `mkfs` writes

`Mapped` says that the slots in use hold different blocks, all of them handed out by `freeblock++`:
`own` gives back the slot of a block.  It is what lets a write to one file leave the others alone.
-/

set_option autoImplicit false

namespace Xv6.Mkfs

open Fs

/-- The inode number and the slot of a block. -/
abbrev Slot : Type := Nat × Option Nat

/-- The slots in `U` are in use, and no others. -/
structure Mapped (img : Nat → Block) (din : Nat → Dinode) (U : Finset Slot) (fb : Nat)
    (own : Nat → Option Slot) : Prop where
  inFile : ∀ j sl, (j, sl) ∈ U → InFile sl
  low : ∀ j sl, (j, sl) ∈ U → nmeta ≤ slot img (din j) sl
  high : ∀ j sl, (j, sl) ∈ U → slot img (din j) sl < fb
  own : ∀ j sl, (j, sl) ∈ U → own (slot img (din j) sl) = some (j, sl)
  free : ∀ j sl, InFile sl → (j, sl) ∉ U → slot img (din j) sl = 0
  fresh : ∀ b, fb ≤ b → img b = fun _ => 0
  count : fb = nmeta + U.card

section

variable {img img' : Nat → Block} {din din' : Nat → Dinode} {U : Finset Slot} {fb : Nat}
  {own : Nat → Option Slot} {i : Nat}

theorem nmeta_pos : 0 < nmeta := by decide

theorem Mapped.le (h : Mapped img din U fb own) : nmeta ≤ fb := by
  have := h.count
  omega

theorem Mapped.ne_zero (h : Mapped img din U fb own) {j : Nat} {sl : Option Nat}
    (hu : (j, sl) ∈ U) : slot img (din j) sl ≠ 0 := by
  have := h.low j sl hu
  have := nmeta_pos
  omega

/-- A slot is in use if it is not empty. -/
theorem Mapped.mem_iff (h : Mapped img din U fb own) {j : Nat} {sl : Option Nat}
    (hin : InFile sl) : (j, sl) ∈ U ↔ slot img (din j) sl ≠ 0 :=
  ⟨h.ne_zero, fun hne => by_contra fun hu => hne (h.free j sl hin hu)⟩

/-- Slots in use hold different blocks. -/
theorem Mapped.inj (h : Mapped img din U fb own) {x y : Slot} (hx : x ∈ U) (hy : y ∈ U)
    (heq : slot img (din x.1) x.2 = slot img (din y.1) y.2) : x = y := by
  have h1 := h.own x.1 x.2 hx
  rw [heq, h.own y.1 y.2 hy] at h1
  exact (Option.some.inj h1).symm

/-- Nothing changes for the slots. -/
theorem Mapped.same (h : Mapped img din U fb own)
    (hslot : ∀ j sl, InFile sl → slot img' (din' j) sl = slot img (din j) sl)
    (hfresh : ∀ b, fb ≤ b → img' b = img b) : Mapped img' din' U fb own where
  inFile := h.inFile
  low j sl hu := by rw [hslot j sl (h.inFile j sl hu)]; exact h.low j sl hu
  high j sl hu := by rw [hslot j sl (h.inFile j sl hu)]; exact h.high j sl hu
  own j sl hu := by rw [hslot j sl (h.inFile j sl hu)]; exact h.own j sl hu
  free j sl hin hu := by rw [hslot j sl hin]; exact h.free j sl hin hu
  fresh b hb := by rw [hfresh b hb]; exact h.fresh b hb
  count := h.count

/-- One more slot gets the next block. -/
theorem Mapped.add (h : Mapped img din U fb own) {sl : Option Nat} (hin : InFile sl)
    (hnot : (i, sl) ∉ U) (hnew : slot img' (din' i) sl = fb)
    (hslot : ∀ j sl', InFile sl' → (j, sl') ≠ (i, sl) →
      slot img' (din' j) sl' = slot img (din j) sl')
    (hfresh : ∀ b, fb < b → img' b = img b) :
    Mapped img' din' (insert (i, sl) U) (fb + 1) (Function.update own fb (some (i, sl))) where
  inFile j sl' hu := by
    rcases Finset.mem_insert.1 hu with heq | hu
    · cases heq
      exact hin
    · exact h.inFile j sl' hu
  low j sl' hu := by
    by_cases heq : (j, sl') = (i, sl)
    · cases heq
      rw [hnew]
      exact h.le
    · have hu := (Finset.mem_insert.1 hu).resolve_left heq
      rw [hslot j sl' (h.inFile j sl' hu) heq]
      exact h.low j sl' hu
  high j sl' hu := by
    by_cases heq : (j, sl') = (i, sl)
    · cases heq
      rw [hnew]
      exact Nat.lt_succ_self fb
    · have hu := (Finset.mem_insert.1 hu).resolve_left heq
      rw [hslot j sl' (h.inFile j sl' hu) heq]
      exact Nat.lt_succ_of_lt (h.high j sl' hu)
  own j sl' hu := by
    by_cases heq : (j, sl') = (i, sl)
    · cases heq
      rw [hnew, Function.update_self]
    · have hu := (Finset.mem_insert.1 hu).resolve_left heq
      rw [hslot j sl' (h.inFile j sl' hu) heq,
        Function.update_of_ne (Nat.ne_of_lt (h.high j sl' hu))]
      exact h.own j sl' hu
  free j sl' hin' hu := by
    have heq : (j, sl') ≠ (i, sl) := fun heq => hu (heq ▸ Finset.mem_insert_self _ _)
    rw [hslot j sl' hin' heq]
    exact h.free j sl' hin' fun hu' => hu (Finset.mem_insert_of_mem hu')
  fresh b hb := by
    rw [hfresh b hb]
    exact h.fresh b (by omega)
  count := by
    rw [Finset.card_insert_of_notMem hnot, h.count]
    omega

/-! ## Frames -/

/-- The meta blocks and the blocks of data that were there stay as they are. -/
structure Frame (img : Nat → Block) (din : Nat → Dinode) (U : Finset Slot) (img' : Nat → Block)
    (din' : Nat → Dinode) : Prop where
  low : ∀ b, b < nmeta → img' b = img b
  slot : ∀ j bn, (j, some bn) ∈ U → blockAt img' (din' j) bn = blockAt img (din j) bn
  data : ∀ j bn, (j, some bn) ∈ U →
    img' (blockAt img (din j) bn) = img (blockAt img (din j) bn)

theorem Frame.refl (img : Nat → Block) (din : Nat → Dinode) (U : Finset Slot) :
    Frame img din U img din :=
  ⟨fun _ _ => rfl, fun _ _ _ => rfl, fun _ _ _ => rfl⟩

theorem Frame.trans {img'' : Nat → Block} {din'' : Nat → Dinode} {U' : Finset Slot}
    (h : Frame img din U img' din') (h' : Frame img' din' U' img'' din'') (hU : U ⊆ U') :
    Frame img din U img'' din'' where
  low b hb := (h'.low b hb).trans (h.low b hb)
  slot j bn hu := (h'.slot j bn (hU hu)).trans (h.slot j bn hu)
  data j bn hu := by
    have h2 := h'.data j bn (hU hu)
    rw [h.slot j bn hu] at h2
    exact h2.trans (h.data j bn hu)

theorem Frame.byteAt (h : Frame img din U img' din') {j off : Nat}
    (hu : (j, some (off / BSIZE)) ∈ U) :
    byteAt img' (din' j) off = byteAt img (din j) off := by
  rw [Fs.byteAt, Fs.byteAt, h.slot j _ hu, h.data j _ hu]

end

/-! ## Finding a block for `iappend` -/

/-- The fields of an inode beside its block numbers. -/
def head (d : Dinode) : Dinode := { d with addrs := fun _ => 0 }

theorem setAddr_addrs (d : Dinode) (k : Fin (NDIRECT + 1)) (x : Nat) :
    (setAddr d k x).addrs k = x :=
  Function.update_self ..

section

variable {s s' s'' : State} {din : Nat → Dinode} {U U' U'' : Finset Slot}
  {own : Nat → Option Slot} {i : Nat}

/-- What the search for a block leaves, with the inode `d'` not yet written. -/
structure Grown (i : Nat) (s : State) (din : Nat → Dinode) (U : Finset Slot) (s' : State)
    (d' : Dinode) (U' : Finset Slot) : Prop where
  mapped : ∃ own', Mapped s'.img (Function.update din i d') U' s'.freeblock own'
  frame : Frame s.img din U s'.img (Function.update din i d')
  head : head d' = head (din i)
  len : s'.len = s.len
  freeinode : s'.freeinode = s.freeinode
  sub : U ⊆ U'

theorem Grown.refl (h : Mapped s.img din U s.freeblock own) : Grown i s din U s (din i) U where
  mapped := ⟨own, by rwa [Function.update_eq_self]⟩
  frame := by
    rw [Function.update_eq_self]
    exact Frame.refl ..
  head := rfl
  len := rfl
  freeinode := rfl
  sub := Finset.Subset.refl U

theorem Grown.trans {d' d'' : Dinode} (h : Grown i s din U s' d' U')
    (h' : Grown i s' (Function.update din i d') U' s'' d'' U'') : Grown i s din U s'' d'' U'' where
  mapped := by
    obtain ⟨own', hm⟩ := h'.mapped
    exact ⟨own', by rwa [Function.update_idem] at hm⟩
  frame := by
    have hf := h'.frame
    rw [Function.update_idem] at hf
    exact h.frame.trans hf h.sub
  head := by
    have hh := h'.head
    rw [Function.update_self] at hh
    exact hh.trans h.head
  len := h'.len.trans h.len
  freeinode := h'.freeinode.trans h.freeinode
  sub := h.sub.trans h'.sub

/-- `freeblock++`. -/
def State.took (s : State) : State := { s with freeblock := s.freeblock + 1 }

/-- A new block for an address of the inode. -/
theorem Grown.setAddr (h : Mapped s.img din U s.freeblock own) {k : Fin (NDIRECT + 1)}
    (h0 : (din i).addrs k = 0) :
    Grown i s din U s.took (setAddr (din i) k s.freeblock) (insert (i, slotOf k) U) := by
  have hnot : (i, slotOf k) ∉ U := fun hu =>
    h.ne_zero hu ((slot_slotOf s.img (din i) k).trans h0)
  have hslot : ∀ j sl, (j, sl) ≠ (i, slotOf k) →
      slot s.img (Function.update din i (Mkfs.setAddr (din i) k s.freeblock) j) sl =
        slot s.img (din j) sl := by
    intro j sl hne
    by_cases hj : j = i
    · subst hj
      rw [Function.update_self]
      exact slot_update h0 (h.fresh _ (Nat.le_refl _)) fun heq => hne (by rw [heq])
    · rw [Function.update_of_ne hj]
  refine ⟨⟨_, h.add (slotOf_inFile k) hnot ?_ (fun j sl _ => hslot j sl) fun _ _ => rfl⟩,
    ⟨fun _ _ => rfl, fun j bn hu => ?_, fun _ _ _ => rfl⟩, rfl, rfl, rfl,
    Finset.subset_insert _ _⟩
  · rw [Function.update_self, slot_slotOf, setAddr_addrs]
  · exact hslot j (some bn) fun heq => hnot (heq ▸ hu)

variable {E : Halt → State → Prop}

theorem wp_takeBlock {Q : Nat → State → Prop} :
    wp takeBlock Q E s ↔ Q s.freeblock s.took := by
  rw [takeBlock, wp_bind, wp_get, wp_bind, wp_set, wp_pure]
  rfl

theorem addrFor_spec (h : Mapped s.img din U s.freeblock own) (k : Fin (NDIRECT + 1)) :
    wp (addrFor (din i) k) (fun d' s' => Grown i s din U s' d' (insert (i, slotOf k) U) ∧
      d'.addrs k ≠ 0 ∧ (s'.freeblock = s.freeblock ∨ s'.freeblock = d'.addrs k + 1)) E s := by
  rw [addrFor]
  split
  · next h0 =>
    rw [wp_bind, wp_takeBlock, wp_pure]
    refine ⟨Grown.setAddr h h0, ?_, .inr ?_⟩
    · rw [setAddr_addrs]
      have := h.le
      have := nmeta_pos
      omega
    · rw [setAddr_addrs]
      rfl
  · next h0 =>
    have hu : (i, slotOf k) ∈ U :=
      (h.mem_iff (slotOf_inFile k)).2 (by rwa [slot_slotOf])
    refine (wp_pure _).2 ⟨?_, h0, .inl rfl⟩
    rw [Finset.insert_eq_of_mem hu]
    exact Grown.refl h

/-- Another sector. -/
def State.wrote (s : State) (sec : Nat) (buf : Block) : State :=
  { s with img := Function.update s.img sec buf, len := max s.len (sec + 1) }

theorem State.wrote_img {sec : Nat} {buf : Block} : (s.wrote sec buf).img sec = buf :=
  Function.update_self ..

theorem State.wrote_img_of_ne {sec b : Nat} {buf : Block} (h : b ≠ sec) :
    (s.wrote sec buf).img b = s.img b :=
  Function.update_of_ne h ..

theorem wp_wsect {Q : Unit → State → Prop} {sec : Nat} {buf : Block} :
    wp (wsect sec buf) Q E s ↔ Q () (s.wrote sec buf) := by
  rw [wsect, wp_modify, State.wrote]

theorem wp_rsect {Q : Block → State → Prop} {sec : Nat} :
    wp (rsect sec) Q E s ↔
      if sec < s.len then Q (s.img sec) s else E (.panic "read") s := by
  rw [rsect, wp_bind, wp_get, wp_ite, wp_pure, wp_panic]

/-- A new block for an entry of the indirect block. -/
theorem Grown.setEntry (h : Mapped s.img din U s.freeblock own) {fbn : Nat}
    (hfbn : NDIRECT ≤ fbn) (hmax : fbn < MAXFILE) (hind : (i, none) ∈ U)
    (hlen : (din i).addrs (Fin.last NDIRECT) < s.len)
    (h0 : blockAt s.img (din i) fbn = 0) (hfb : s.freeblock < 2 ^ 32) :
    Grown i s din U (s.took.wrote ((din i).addrs (Fin.last NDIRECT))
      (setLE (s.img ((din i).addrs (Fin.last NDIRECT))) (4 * (fbn - NDIRECT)) 4 s.freeblock))
      (din i) (insert (i, some fbn) U) := by
  set b := (din i).addrs (Fin.last NDIRECT) with hb
  have hb0 : b ≠ 0 := h.ne_zero hind
  have hblt : b < s.freeblock := h.high i none hind
  have hbown : own b = some (i, none) := h.own i none hind
  have hblow : nmeta ≤ b := h.low i none hind
  have hnot : (i, some fbn) ∉ U := fun hu => h.ne_zero hu h0
  -- the indirect blocks of the other files are other blocks
  have hother : ∀ j, j ≠ i → (din j).addrs (Fin.last NDIRECT) ≠ b := by
    intro j hj heq
    have hu : (j, none) ∈ U := (h.mem_iff (show InFile none from trivial)).2 (by rw [slot, heq]; exact hb0)
    have := h.own j none hu
    rw [slot, heq, hbown] at this
    exact hj (congrArg Prod.fst (Option.some.inj this)).symm
  have hslot : ∀ j sl, InFile sl → (j, sl) ≠ (i, some fbn) →
      slot (s.took.wrote b (setLE (s.img b) (4 * (fbn - NDIRECT)) 4 s.freeblock)).img (din j) sl =
        slot s.img (din j) sl := by
    intro j sl _ hne
    by_cases hj : j = i
    · subst hj
      cases sl with
      | none => rfl
      | some bn =>
        have hbn : bn ≠ fbn := fun heq => hne (by rw [heq])
        show blockAt (Function.update s.img b _) (din j) bn = blockAt s.img (din j) bn
        rw [blockAt, blockAt]
        split
        · rfl
        · rw [← hb, Function.update_self]
          exact getLE_setLE_disjoint _ _ (by omega)
    · exact slot_congr fun _ => Function.update_of_ne (hother j hj) ..
  have hnew : slot (s.took.wrote b (setLE (s.img b) (4 * (fbn - NDIRECT)) 4 s.freeblock)).img
      (din i) (some fbn) = s.freeblock := by
    show blockAt (Function.update s.img b _) (din i) fbn = s.freeblock
    rw [blockAt, dif_neg (by omega), ← hb, if_neg hb0, Function.update_self, getLE_setLE_same]
    exact Nat.mod_eq_of_lt hfb
  have hupd : Function.update din i (din i) = din := Function.update_eq_self i din
  refine ⟨⟨Function.update own s.freeblock (some (i, some fbn)), ?_⟩, ?_, rfl, ?_, rfl,
    Finset.subset_insert _ _⟩
  · rw [hupd]
    refine h.add hmax hnot hnew hslot fun c hc => ?_
    exact Function.update_of_ne (by omega) ..
  · rw [hupd]
    refine ⟨fun c hc => Function.update_of_ne (by omega) .., fun j bn hu => ?_, fun j bn hu => ?_⟩
    · exact hslot j (some bn) (h.inFile j _ hu) fun heq => hnot (heq ▸ hu)
    · refine Function.update_of_ne (fun heq => ?_) ..
      have := h.own j (some bn) hu
      rw [show slot s.img (din j) (some bn) = b from heq, hbown] at this
      cases congrArg Prod.snd (Option.some.inj this)
  · show max s.len (b + 1) = s.len
    omega

/-- The slots in use after the search for block `fbn`. -/
def grow (i fbn : Nat) (U : Finset Slot) : Finset Slot :=
  if fbn < NDIRECT then insert (i, some fbn) U
  else insert (i, some fbn) (insert (i, none) U)

theorem mem_grow {fbn : Nat} {x : Slot} :
    x ∈ grow i fbn U ↔ x = (i, some fbn) ∨ (x = (i, none) ∧ NDIRECT ≤ fbn) ∨ x ∈ U := by
  rw [grow]
  split
  · next h =>
    rw [Finset.mem_insert]
    have : ¬ NDIRECT ≤ fbn := by omega
    tauto
  · next h =>
    rw [Finset.mem_insert, Finset.mem_insert]
    have : NDIRECT ≤ fbn := by omega
    tauto

/-- **The search for a block** ends with the block in its slot.  It can fail only if the image is
too small for the blocks that are then in use. -/
theorem blockFor_spec (h : Mapped s.img din U s.freeblock own) {fbn : Nat} (hmax : fbn < MAXFILE)
    (hlen : s.len = FSSIZE) (hfb : s.freeblock ≤ FSSIZE)
    (hE : FSSIZE < nmeta + (grow i fbn U).card → ∀ e t, E e t) :
    wp (blockFor (din i) fbn) (fun r s' => Grown i s din U s' r.2 (grow i fbn U) ∧
      r.1 = blockAt s'.img r.2 fbn ∧
      (s'.freeblock ≤ FSSIZE ∨ s'.freeblock = r.1 + 1)) E s := by
  have hF : FSSIZE = 2000 := rfl
  rw [blockFor, grow]
  rw [grow] at hE
  by_cases hd : fbn < NDIRECT
  · rw [dif_pos hd, if_pos hd]
    refine wp_seq (addrFor_spec h ⟨fbn, Nat.lt_succ_of_lt hd⟩) ?_
    rintro d' s' ⟨hg, -, hfb'⟩
    rw [slotOf_direct hd] at hg
    refine (wp_pure _).2 ⟨hg, by rw [blockAt, dif_pos hd], ?_⟩
    rcases hfb' with hfb' | hfb'
    · exact .inl (by omega)
    · exact .inr hfb'
  · rw [dif_neg hd, if_neg hd]
    rw [if_neg hd] at hE
    refine wp_seq (addrFor_spec h (Fin.last NDIRECT)) ?_
    rintro d' s' ⟨hg, hd0, hfb'⟩
    rw [slotOf_last] at hg
    obtain ⟨own', hm⟩ := hg.mapped
    have hself : Function.update din i d' i = d' := Function.update_self ..
    have hu : (i, none) ∈ insert (i, none) U := Finset.mem_insert_self _ _
    have hlt : d'.addrs (Fin.last NDIRECT) < s'.freeblock := by
      have := hm.high i none hu
      rwa [hself] at this
    have hlen' : s'.len = FSSIZE := hg.len.trans hlen
    rw [wp_bind, wp_rsect]
    split
    · next hin =>
      have hblk : blockAt s'.img d' fbn =
          getLE (s'.img (d'.addrs (Fin.last NDIRECT))) (4 * (fbn - NDIRECT)) 4 := by
        rw [blockAt, dif_neg hd, if_neg hd0]
      rw [wp_ite]
      split
      · next h0 =>
        rw [wp_bind, wp_takeBlock, wp_bind, wp_wsect, wp_pure]
        have hg2 := Grown.setEntry (i := i) hm (Nat.le_of_not_lt hd) hmax hu
          (by rw [hself]; exact hin) (by rw [hself, hblk]; exact h0) (by omega)
        rw [hself] at hg2
        refine ⟨hg.trans hg2, ?_, .inr rfl⟩
        show s'.freeblock = blockAt (Function.update s'.img _ _) d' fbn
        rw [blockAt, dif_neg hd, if_neg hd0, Function.update_self, getLE_setLE_same]
        exact (Nat.mod_eq_of_lt (by omega)).symm
      · next h0 =>
        have hmem : (i, some fbn) ∈ insert (i, none) U :=
          (hm.mem_iff (show InFile (some fbn) from hmax)).2 (by
            rw [hself, slot, hblk]
            exact h0)
        rw [wp_pure, Finset.insert_eq_of_mem hmem]
        exact ⟨hg, hblk.symm, .inl (by omega)⟩
    · next hin =>
      refine hE ?_ _ _
      have h1 := hm.count
      have h2 := Finset.card_le_card (Finset.subset_insert (i, some fbn) (insert (i, none) U))
      omega

/-! ## Appending -/

/-- The blocks of `n` bytes. -/
def blocks (n : Nat) : Nat := (n + (BSIZE - 1)) / BSIZE

theorem lt_blocks {n bn : Nat} : bn < blocks n ↔ bn * BSIZE < n := by
  have hB : BSIZE = 1024 := rfl
  rw [blocks, hB]
  omega

/-- The slots that a file of `n` bytes uses. -/
def Uses (n : Nat) : Option Nat → Prop
  | some bn => bn < blocks n
  | none => NDIRECT < blocks n

/-- The image holds the files: `bytes j` is what has been appended to inode `j`, and `din j` its
inode, on the disk or in the variable of `iappend`. -/
structure Holds (s : State) (din : Nat → Dinode) (bytes : Nat → List UInt8) (U : Finset Slot) :
    Prop where
  mapped : ∃ own, Mapped s.img din U s.freeblock own
  slots : ∀ j sl, (j, sl) ∈ U ↔ Uses (bytes j).length sl
  data : ∀ j off b, (bytes j)[off]? = some b → byteAt s.img (din j) off = b
  len : s.len = FSSIZE
  room : s.freeblock ≤ FSSIZE

variable {bytes : Nat → List UInt8}

/-- Append to the bytes of a file. -/
def appendTo (bytes : Nat → List UInt8) (i : Nat) (p : List UInt8) : Nat → List UInt8 :=
  Function.update bytes i (bytes i ++ p)

theorem appendTo_self (bytes : Nat → List UInt8) (i : Nat) (p : List UInt8) :
    appendTo bytes i p i = bytes i ++ p :=
  Function.update_self ..

theorem appendTo_of_ne (bytes : Nat → List UInt8) {i j : Nat} (p : List UInt8) (h : j ≠ i) :
    appendTo bytes i p j = bytes j :=
  Function.update_of_ne h ..

theorem appendTo_appendTo (bytes : Nat → List UInt8) (i : Nat) (p q : List UInt8) :
    appendTo (appendTo bytes i p) i q = appendTo bytes i (p ++ q) := by
  rw [appendTo, appendTo_self, List.append_assoc, appendTo, Function.update_idem, appendTo]

theorem appendTo_nil (bytes : Nat → List UInt8) (i : Nat) : appendTo bytes i [] = bytes := by
  rw [appendTo, List.append_nil, Function.update_eq_self]

/-- The slots after `n` more bytes, up to the end of the block at the most. -/
theorem uses_grow {off n : Nat} (h0 : 0 < n) (hn : off % BSIZE + n ≤ BSIZE) (sl : Option Nat) :
    Uses (off + n) sl ↔
      sl = some (off / BSIZE) ∨ (sl = none ∧ NDIRECT ≤ off / BSIZE) ∨ Uses off sl := by
  have hB : BSIZE = 1024 := rfl
  have hb : blocks (off + n) = off / BSIZE + 1 := by
    rw [blocks]
    rw [hB] at hn ⊢
    omega
  have hb' : blocks off = off / BSIZE ∨ blocks off = off / BSIZE + 1 := by
    rw [blocks, hB]
    omega
  cases sl with
  | none =>
    simp only [Uses, hb, reduceCtorEq, true_and, false_or]
    omega
  | some bn =>
    simp only [Uses, hb, Option.some.injEq, reduceCtorEq, false_and, false_or]
    omega

theorem Holds.uses_inFile (h : Holds s din bytes U) {j bn : Nat}
    (hu : (j, some bn) ∈ U) : bn < MAXFILE := by
  obtain ⟨own, hm⟩ := h.mapped
  exact hm.inFile j (some bn) hu

/-- A byte that has been appended lies in a block in use. -/
theorem Holds.mem_of_getElem? (h : Holds s din bytes U) {j off : Nat} {b : UInt8}
    (hb : (bytes j)[off]? = some b) : (j, some (off / BSIZE)) ∈ U := by
  obtain ⟨hlt, -⟩ := List.getElem?_eq_some_iff.1 hb
  rw [h.slots]
  show off / BSIZE < blocks _
  rw [lt_blocks]
  exact Nat.lt_of_le_of_lt (Nat.div_mul_le_self off BSIZE) hlt

/-- **One round of `iappend`**: `n` bytes go to the block that was found for them. -/
theorem Holds.write (h : Holds s din bytes U) {d' : Dinode} {off n : Nat} {p : List UInt8}
    (hoff : off = (bytes i).length)
    (hg : Grown i s din U s' d' (grow i (off / BSIZE) U))
    (hx : blockAt s'.img d' (off / BSIZE) < FSSIZE)
    (hfb : s'.freeblock ≤ FSSIZE ∨ s'.freeblock = blockAt s'.img d' (off / BSIZE) + 1)
    (h0 : 0 < n) (hnp : n ≤ p.length) (hn : off % BSIZE + n ≤ BSIZE) :
    Holds (s'.wrote (blockAt s'.img d' (off / BSIZE))
      (blit (s'.img (blockAt s'.img d' (off / BSIZE))) (off % BSIZE) (fun j => p.getD j 0) n))
      (Function.update din i d') (appendTo bytes i (p.take n)) (grow i (off / BSIZE) U) := by
  obtain ⟨own', hm⟩ := hg.mapped
  have hpos : 0 < BSIZE := by decide
  set x := blockAt s'.img d' (off / BSIZE) with hxdef
  have hself : Function.update din i d' i = d' := Function.update_self ..
  have hxU : (i, some (off / BSIZE)) ∈ grow i (off / BSIZE) U := mem_grow.2 (.inl rfl)
  have hxslot : slot s'.img (Function.update din i d' i) (some (off / BSIZE)) = x := by
    rw [hself]
    rfl
  have hxlow : nmeta ≤ x := hxslot ▸ hm.low i _ hxU
  have hxfb : x < s'.freeblock := hxslot ▸ hm.high i _ hxU
  have hxown : own' x = some (i, some (off / BSIZE)) := by
    have := hm.own i _ hxU
    rwa [hxslot] at this
  have hlen : s'.len = FSSIZE := hg.len.trans h.len
  -- an indirect block is not a block of data
  have hind : ∀ j, Function.update s'.img x
        (blit (s'.img x) (off % BSIZE) (fun j => p.getD j 0) n)
        ((Function.update din i d' j).addrs (Fin.last NDIRECT)) =
      s'.img ((Function.update din i d' j).addrs (Fin.last NDIRECT)) := by
    intro j
    refine Function.update_of_ne (fun heq => ?_) ..
    have hu : (j, none) ∈ grow i (off / BSIZE) U :=
      (hm.mem_iff (show InFile none from trivial)).2 (by
        rw [slot, heq]
        have := nmeta_pos
        omega)
    have := hm.own j none hu
    rw [slot, heq, hxown] at this
    cases congrArg Prod.snd (Option.some.inj this)
  refine ⟨⟨own', hm.same (fun j sl _ => slot_congr fun _ => hind j) fun b hb => ?_⟩, ?_, ?_, ?_, ?_⟩
  · exact Function.update_of_ne (by omega) ..
  · -- the slots
    intro j sl
    rw [mem_grow]
    by_cases hj : j = i
    · subst hj
      rw [appendTo_self, List.length_append, List.length_take, Nat.min_eq_left hnp, ← hoff,
        uses_grow h0 hn, ← (show (j, sl) ∈ U ↔ Uses off sl from hoff ▸ h.slots j sl)]
      simp only [Prod.mk.injEq, true_and]
    · rw [appendTo_of_ne _ _ hj, ← h.slots]
      simp only [Prod.mk.injEq, hj, false_and, false_or]
  · -- the data
    intro j o b hb
    rw [byteAt, show (s'.wrote x _).img = Function.update s'.img x _ from rfl,
      blockAt_congr fun _ => hind j]
    by_cases hj : j = i ∧ off ≤ o
    · obtain ⟨rfl, hle⟩ := hj
      rw [appendTo_self, List.getElem?_append_right (by omega), ← hoff,
        List.getElem?_take] at hb
      split at hb
      · next hlt =>
        have hdiv : o / BSIZE = off / BSIZE :=
          (Nat.div_eq_iff hpos).2 ⟨by have := Nat.div_add_mod' off BSIZE; omega,
            by have := Nat.div_add_mod' off BSIZE; omega⟩
        have hmod : o % BSIZE = off % BSIZE + (o - off) := by
          have h3 := Nat.div_add_mod off BSIZE
          have h4 := Nat.div_add_mod o BSIZE
          rw [hdiv] at h4
          omega
        rw [hself, hdiv, ← hxdef, Function.update_self, blit, hmod, if_pos (by omega),
          Nat.add_sub_cancel_left, List.getD_eq_getElem?_getD, hb]
        rfl
      · cases hb
    · have hb' : (bytes j)[o]? = some b := by
        by_cases hji : j = i
        · subst hji
          have hlt : o < (bytes j).length := by
            rw [← hoff]
            exact Nat.lt_of_not_le fun hle => hj ⟨rfl, hle⟩
          rwa [appendTo_self, List.getElem?_append_left hlt] at hb
        · rwa [appendTo_of_ne _ _ hji] at hb
      have hu := h.mem_of_getElem? hb'
      have hold : byteAt s'.img (Function.update din i d' j) o = b :=
        (hg.frame.byteAt hu).trans (h.data j o b hb')
      rw [byteAt] at hold
      by_cases hxo : blockAt s'.img (Function.update din i d' j) (o / BSIZE) = x
      · -- the block already had some bytes, below the new ones
        have hsl : (j, some (o / BSIZE)) = (i, some (off / BSIZE)) :=
          hm.inj (hg.sub hu) hxU (hxo.trans hxslot.symm)
        have hji : j = i := congrArg Prod.fst hsl
        have hdiv : o / BSIZE = off / BSIZE := Option.some.inj (congrArg Prod.snd hsl)
        have hlt : o < off := Nat.lt_of_not_le fun hle => hj ⟨hji, hle⟩
        have h3 := Nat.div_add_mod off BSIZE
        have h4 := Nat.div_add_mod o BSIZE
        rw [hdiv] at h4
        rw [hxo] at hold ⊢
        rw [Function.update_self, blit, if_neg (by omega)]
        exact hold
      · rw [Function.update_of_ne hxo]
        exact hold
  · show max s'.len (x + 1) = FSSIZE
    omega
  · show s'.freeblock ≤ FSSIZE
    omega

/-! ## The blocks that are needed -/

/-- The blocks of a file of `n` bytes, with its indirect block. -/
def cost (n : Nat) : Nat := blocks n + if NDIRECT < blocks n then 1 else 0

/-- The blocks that files of these lengths need. -/
def need (len : Nat → Nat) : Nat := ∑ j ∈ Finset.range NINODES, cost (len j)

/-- The slots of a file of `n` bytes. -/
def slotsOf (n : Nat) : Finset (Option Nat) :=
  (Finset.range (blocks n)).image some ∪ if NDIRECT < blocks n then {none} else ∅

theorem mem_slotsOf {n : Nat} {sl : Option Nat} (h : Uses n sl) : sl ∈ slotsOf n := by
  rw [slotsOf, Finset.mem_union]
  cases sl with
  | none =>
    right
    rw [if_pos (show NDIRECT < blocks n from h)]
    exact Finset.mem_singleton_self _
  | some bn => exact .inl (Finset.mem_image_of_mem _ (Finset.mem_range.2 h))

theorem card_slotsOf_le (n : Nat) : (slotsOf n).card ≤ cost n := by
  refine (Finset.card_union_le _ _).trans (Nat.add_le_add ?_ ?_)
  · exact Finset.card_image_le.trans (Nat.le_of_eq (Finset.card_range _))
  · split
    · exact Nat.le_of_eq (Finset.card_singleton _)
    · exact Nat.le_of_eq Finset.card_empty

theorem blocks_mono {m n : Nat} (h : m ≤ n) : blocks m ≤ blocks n :=
  Nat.div_le_div_right (by omega)

theorem Uses.mono {m n : Nat} {sl : Option Nat} (h : Uses m sl) (hmn : m ≤ n) : Uses n sl := by
  cases sl with
  | none => exact Nat.lt_of_lt_of_le h (blocks_mono hmn)
  | some bn => exact Nat.lt_of_lt_of_le h (blocks_mono hmn)

theorem blocks_zero : blocks 0 = 0 := rfl

theorem not_uses_zero (sl : Option Nat) : ¬ Uses 0 sl := by
  cases sl with
  | none => exact Nat.not_lt_zero _
  | some bn => exact Nat.not_lt_zero _

/-- The lengths that the files have in the end. -/
structure Final (fin : Nat → Nat) (bytes : Nat → List UInt8) : Prop where
  le : ∀ j, (bytes j).length ≤ fin j
  zero : ∀ j, NINODES ≤ j → fin j = 0

/-- The slots in use are not more than the files need in the end. -/
theorem Final.card_le {fin : Nat → Nat} (hf : Final fin bytes)
    (hU : ∀ j sl, (j, sl) ∈ U → Uses (bytes j).length sl) : U.card ≤ need fin := by
  have hsub : U ⊆ (Finset.range NINODES).biUnion fun j => (slotsOf (fin j)).image (Prod.mk j) := by
    rintro ⟨j, sl⟩ hu
    have huse : Uses (fin j) sl := (hU j sl hu).mono (hf.le j)
    have hj : j < NINODES := by
      by_contra hj
      rw [hf.zero j (by omega)] at huse
      exact not_uses_zero sl huse
    exact Finset.mem_biUnion.2
      ⟨j, Finset.mem_range.2 hj, Finset.mem_image_of_mem _ (mem_slotsOf huse)⟩
  refine (Finset.card_le_card hsub).trans (Finset.card_biUnion_le.trans ?_)
  exact Finset.sum_le_sum fun j _ => Finset.card_image_le.trans (card_slotsOf_le _)

/-! ## `iappend` -/

/-- Files of these lengths do not fit. -/
def Full (fin : Nat → Nat) : Prop :=
  FSSIZE < nmeta + need fin ∨ ∃ j, MAXFILE * BSIZE < fin j

/-- What the loop of `iappend` leaves, with the inode `d'` not yet written. -/
structure Appended (i : Nat) (s : State) (din : Nat → Dinode) (bytes : Nat → List UInt8)
    (p : List UInt8) (s' : State) (d' : Dinode) : Prop where
  holds : ∃ U', Holds s' (Function.update din i d') (appendTo bytes i p) U'
  low : ∀ b, b < nmeta → s'.img b = s.img b
  head : head d' = head (din i)
  freeinode : s'.freeinode = s.freeinode

theorem Appended.refl (h : Holds s din bytes U) : Appended i s din bytes [] s (din i) where
  holds := ⟨U, by rwa [Function.update_eq_self, appendTo_nil]⟩
  low _ _ := rfl
  head := rfl
  freeinode := rfl

theorem iappendFrom_spec {fin : Nat → Nat} (hE : Full fin → ∀ e t, E e t) :
    ∀ (k : Nat) {p : List UInt8} {s : State} {din : Nat → Dinode} {bytes : Nat → List UInt8}
      {U : Finset Slot} {off : Nat}, p.length ≤ k → Holds s din bytes U →
      off = (bytes i).length → Final fin (appendTo bytes i p) →
      wp (iappendFrom k (din i) off p)
        (fun r s' => Appended i s din bytes p s' r.1 ∧ r.2 = off + p.length) E s
  | 0, p, s, din, bytes, U, off, hk, h, hoff, hfin => by
    have hp : p = [] := List.eq_nil_of_length_eq_zero (by omega)
    subst hp
    exact (wp_pure _).2 ⟨Appended.refl h, rfl⟩
  | k + 1, p, s, din, bytes, U, off, hk, h, hoff, hfin => by
    rw [iappendFrom]
    by_cases hp : 0 < p.length
    · rw [if_pos hp]
      have hpos : 0 < BSIZE := by decide
      have hdm := Nat.div_add_mod' off BSIZE
      have hml := Nat.mod_lt off hpos
      have hlast : off + p.length ≤ fin i := by
        have := hfin.le i
        rwa [appendTo_self, List.length_append, ← hoff] at this
      by_cases hmax : off / BSIZE < MAXFILE
      · rw [if_pos hmax]
        set n1 := min p.length ((off / BSIZE + 1) * BSIZE - off) with hn1
        have hsucc : (off / BSIZE + 1) * BSIZE = off / BSIZE * BSIZE + BSIZE := Nat.succ_mul _ _
        have hn0 : 0 < n1 := Nat.lt_min.2 ⟨hp, by omega⟩
        have hnp : n1 ≤ p.length := Nat.min_le_left _ _
        have hnb : n1 ≤ (off / BSIZE + 1) * BSIZE - off := Nat.min_le_right _ _
        have hsplit : appendTo (appendTo bytes i (p.take n1)) i (p.drop n1) = appendTo bytes i p := by
          rw [appendTo_appendTo, List.take_append_drop]
        -- the blocks of the bytes up to here are needed
        have hcard : (grow i (off / BSIZE) U).card ≤ need fin := by
          refine hfin.card_le fun j sl hu => ?_
          by_cases hj : j = i
          · subst hj
            have huse : Uses (off + n1) sl := by
              rw [uses_grow hn0 (by omega), ← (show (j, sl) ∈ U ↔ Uses off sl from
                hoff ▸ h.slots j sl)]
              simpa only [mem_grow, Prod.mk.injEq, true_and] using hu
            rw [appendTo_self, List.length_append, ← hoff]
            exact huse.mono (by omega)
          · rw [appendTo_of_ne _ _ hj, ← h.slots]
            simpa only [mem_grow, Prod.mk.injEq, hj, false_and, false_or] using hu
        obtain ⟨own, hm⟩ := h.mapped
        refine wp_seq (blockFor_spec hm hmax h.len h.room fun hlt => hE (.inl ?_)) ?_
        · exact Nat.lt_of_lt_of_le hlt (Nat.add_le_add_left hcard _)
        · rintro ⟨x, d'⟩ s' ⟨hg, hx, hfb⟩
          replace hg : Grown i s din U s' d' (grow i (off / BSIZE) U) := hg
          replace hx : x = blockAt s'.img d' (off / BSIZE) := hx
          rw [wp_bind, wp_rsect]
          have hlen : s'.len = FSSIZE := hg.len.trans h.len
          split
          · next hin =>
            replace hin : x < s'.len := hin
            rw [wp_bind, wp_wsect, show off - off / BSIZE * BSIZE = off % BSIZE by omega]
            have hw := h.write hoff hg (by omega) (by rw [← hx]; exact hfb) hn0 hnp (by omega)
            have hself : Function.update din i d' i = d' := Function.update_self ..
            have hrec := iappendFrom_spec hE k (p := p.drop n1)
              (by rw [List.length_drop]; omega) hw
              (show off + n1 = _ by
                rw [appendTo_self, List.length_append, List.length_take, ← hoff]
                omega)
              (by rwa [hsplit])
            rw [hself, ← hx] at hrec
            refine wp_mono hrec ?_ fun _ _ he => he
            rintro r s'' ⟨ha, hr⟩
            have hxlow : nmeta ≤ x := by
              obtain ⟨own', hm'⟩ := hg.mapped
              have := hm'.low i (some (off / BSIZE)) (mem_grow.2 (.inl rfl))
              rwa [hself, slot, ← hx] at this
            refine ⟨⟨?_, fun b hb => ?_, ?_, ?_⟩, ?_⟩
            · obtain ⟨U', hU'⟩ := ha.holds
              rw [Function.update_idem, hsplit] at hU'
              exact ⟨U', hU'⟩
            · rw [ha.low b hb, ← hg.frame.low b hb]
              exact Function.update_of_ne (by omega) ..
            · rw [ha.head, hself]
              exact hg.head
            · exact ha.freeinode.trans hg.freeinode
            · rw [hr, List.length_drop]
              omega
          · next hin =>
            replace hin : ¬ x < s'.len := hin
            refine hE (.inl ?_) _ _
            obtain ⟨own', hm'⟩ := hg.mapped
            have hc := hm'.count
            have hlt := hm'.high i (some (off / BSIZE)) (mem_grow.2 (.inl rfl))
            rw [Function.update_self, slot, ← hx] at hlt
            omega
      · rw [if_neg hmax, wp_panic]
        refine hE (.inr ⟨i, ?_⟩) _ _
        have := Nat.mul_le_mul_right BSIZE (Nat.le_of_not_lt hmax)
        omega
    · have hp : p = [] := List.eq_nil_of_length_eq_zero (by omega)
      subst hp
      rw [if_neg (by decide)]
      exact (wp_pure _).2 ⟨Appended.refl h, rfl⟩

end

end Xv6.Mkfs
