import Xv6.Fs.Read

/-!
# Slots

The block numbers of a file lie in *slots*: slot `some bn` is the number of its `bn`th block, and
slot `none` the number of its indirect block.  They are read from the inode and from the indirect
block, so they change with these only.
-/

set_option autoImplicit false

namespace Xv6.Fs

/-- The block number in a slot. -/
def slot (img : Nat → Block) (d : Dinode) : Option Nat → Nat
  | some bn => blockAt img d bn
  | none => d.addrs (Fin.last NDIRECT)

/-- The slots that a file has. -/
def InFile : Option Nat → Prop
  | some bn => bn < MAXFILE
  | none => True

/-- The slot of `addrs[k]`. -/
def slotOf (k : Fin (NDIRECT + 1)) : Option Nat := if k = Fin.last NDIRECT then none else some k

section

variable {img img' : Nat → Block} {d : Dinode}

/-- The block number of a block is found in the inode and in the indirect block. -/
theorem blockAt_congr {bn : Nat} (h : d.addrs (Fin.last NDIRECT) ≠ 0 →
      img' (d.addrs (Fin.last NDIRECT)) = img (d.addrs (Fin.last NDIRECT))) :
    blockAt img' d bn = blockAt img d bn := by
  rw [blockAt, blockAt]
  by_cases h0 : d.addrs (Fin.last NDIRECT) = 0
  · rw [if_pos h0, if_pos h0]
  · rw [h h0]

theorem slot_congr {sl : Option Nat} (h : d.addrs (Fin.last NDIRECT) ≠ 0 →
      img' (d.addrs (Fin.last NDIRECT)) = img (d.addrs (Fin.last NDIRECT))) :
    slot img' d sl = slot img d sl := by
  cases sl with
  | none => rfl
  | some bn => exact blockAt_congr h

theorem slotOf_last : slotOf (Fin.last NDIRECT) = none := if_pos rfl

theorem slotOf_direct {fbn : Nat} (h : fbn < NDIRECT) :
    slotOf ⟨fbn, Nat.lt_succ_of_lt h⟩ = some fbn :=
  if_neg fun heq => Nat.ne_of_lt h (congrArg Fin.val heq)

theorem slotOf_inFile (k : Fin (NDIRECT + 1)) : InFile (slotOf k) := by
  rw [slotOf]
  split
  · trivial
  · have hk := k.isLt
    have hm : NDIRECT + 1 ≤ MAXFILE := by decide
    exact Nat.lt_of_lt_of_le hk hm

theorem slot_slotOf (img : Nat → Block) (d : Dinode) (k : Fin (NDIRECT + 1)) :
    slot img d (slotOf k) = d.addrs k := by
  rw [slotOf]
  split
  · next h => rw [h]; rfl
  · next h =>
    have hk : (k : Nat) < NDIRECT :=
      Nat.lt_of_le_of_ne (Nat.le_of_lt_succ k.isLt) fun heq => h (Fin.ext heq)
    exact dif_pos hk

/-- A new address is in its own slot only.  A new indirect block is all zero, like the slots that
it has room for were before. -/
theorem slot_update {k : Fin (NDIRECT + 1)} {x : Nat} {sl : Option Nat} (h0 : d.addrs k = 0)
    (hx : img x = fun _ => 0) (hne : sl ≠ slotOf k) :
    slot img { d with addrs := Function.update d.addrs k x } sl = slot img d sl := by
  cases sl with
  | none =>
    have hk : Fin.last NDIRECT ≠ k := fun heq => hne (by rw [← heq, slotOf_last])
    exact Function.update_of_ne hk ..
  | some bn =>
    show blockAt _ _ bn = blockAt _ _ bn
    rw [blockAt, blockAt]
    split
    · next h =>
      exact Function.update_of_ne (fun heq => hne (by rw [← heq, slotOf_direct h])) ..
    · by_cases hk : Fin.last NDIRECT = k
      · subst hk
        have hlast : ({ d with addrs := Function.update d.addrs (Fin.last NDIRECT) x } :
            Dinode).addrs (Fin.last NDIRECT) = x := Function.update_self (Fin.last NDIRECT) x d.addrs
        rw [hlast, if_pos h0, hx, getLE_zero]
        exact ite_self 0
      · have hlast : ({ d with addrs := Function.update d.addrs k x } : Dinode).addrs
            (Fin.last NDIRECT) = d.addrs (Fin.last NDIRECT) := Function.update_of_ne hk x d.addrs
        rw [hlast]

end

end Xv6.Fs
