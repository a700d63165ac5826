import Mathlib.Algebra.Group.Nat.Defs
import Mathlib.Algebra.Group.Int.Defs
import Mathlib.Logic.Function.Basic

/-!
# Machine integers and little-endian fields

The integers of the source are two's complement words of 32 and 64 bits.  Disk blocks, directory
entries and ELF headers are byte sequences that the code reads through structures of fixed-width
integers.  `getLE b off n` is the `n`-byte little-endian number at offset `off` of `b`, and
`setLE b off n v` stores one; the lemmas say that a stored field is read back and that it leaves
every disjoint field alone.
-/

set_option autoImplicit false

namespace Xv6

/-- An `int` from its 32 bits. -/
def toInt32 (x : Nat) : Int :=
  if x % 2 ^ 32 < 2 ^ 31 then (x % 2 ^ 32 : Nat) else (x % 2 ^ 32 : Nat) - 2 ^ 32

/-- The 32 bits of an `int`. -/
def ofInt32 (x : Int) : Nat := (x % 2 ^ 32).toNat

/-- A signed number, converted to a 64-bit unsigned one. -/
def ofInt64 (x : Int) : Nat := (x % 2 ^ 64).toNat

theorem toInt32_ofInt32 {n : Int} (h1 : -2 ^ 31 ≤ n) (h2 : n < 2 ^ 31) :
    toInt32 (ofInt32 n) = n := by
  rw [toInt32, ofInt32]
  split <;> omega

theorem toInt32_of_lt {x : Nat} (h : x < 2 ^ 31) : toInt32 x = x := by
  rw [toInt32]
  split <;> omega

/-- A sequence of bytes; the structures that use it never look past their own length. -/
abbrev Bytes : Type := Nat → UInt8

/-- The little-endian number in the `n` bytes at offset `off`. -/
def getLE (b : Bytes) (off : Nat) : Nat → Nat
  | 0 => 0
  | n + 1 => (b off).toNat + 256 * getLE b (off + 1) n

/-- Store `v` as `n` little-endian bytes at offset `off`. -/
def setLE (b : Bytes) (off n v : Nat) : Bytes := fun i =>
  if off ≤ i ∧ i < off + n then UInt8.ofNat (v / 256 ^ (i - off)) else b i

/-- Reading a field looks only at its own bytes. -/
theorem getLE_congr {b c : Bytes} : ∀ {n off : Nat},
    (∀ i, off ≤ i → i < off + n → b i = c i) → getLE b off n = getLE c off n
  | 0, _, _ => rfl
  | n + 1, off, h => by
    have ht : getLE b (off + 1) n = getLE c (off + 1) n :=
      getLE_congr fun i h1 h2 => h i (by omega) (by omega)
    rw [getLE, getLE, h off (by omega) (by omega), ht]

/-- A field whose bytes are the base-256 digits of `v` reads as `v`, cut to its width. -/
theorem getLE_of_digits {b : Bytes} : ∀ {n off v : Nat},
    (∀ i, i < n → (b (off + i)).toNat = v / 256 ^ i % 256) → getLE b off n = v % 256 ^ n
  | 0, _, v, _ => by rw [getLE, Nat.pow_zero, Nat.mod_one]
  | n + 1, off, v, h => by
    have h0 : (b off).toNat = v % 256 := by simpa using h 0 (by omega)
    have ht : getLE b (off + 1) n = v / 256 % 256 ^ n := by
      refine getLE_of_digits fun i hi => ?_
      have hi1 := h (i + 1) (by omega)
      rw [show off + (i + 1) = off + 1 + i by omega] at hi1
      rw [hi1, Nat.div_div_eq_div_mul, Nat.pow_succ, Nat.mul_comm]
    rw [getLE, h0, ht, Nat.pow_succ, Nat.mul_comm (256 ^ n), Nat.mod_mul]

theorem getLE_setLE_same (b : Bytes) (off n v : Nat) :
    getLE (setLE b off n v) off n = v % 256 ^ n := by
  refine getLE_of_digits fun i hi => ?_
  rw [setLE, if_pos (by omega), Nat.add_sub_cancel_left, UInt8.toNat_ofNat']

/-- A stored field leaves every disjoint field alone. -/
theorem getLE_setLE_disjoint (b : Bytes) {off n off' n' : Nat} (v : Nat)
    (h : off' + n' ≤ off ∨ off + n ≤ off') :
    getLE (setLE b off n v) off' n' = getLE b off' n' := by
  refine getLE_congr fun i h1 h2 => ?_
  rw [setLE, if_neg (by omega)]

theorem getLE_zero : ∀ (n off : Nat), getLE (fun _ => 0) off n = 0
  | 0, _ => rfl
  | n + 1, off => by rw [getLE, getLE_zero n]; rfl

theorem getLE_lt (b : Bytes) : ∀ (n off : Nat), getLE b off n < 256 ^ n
  | 0, _ => by rw [getLE]; exact Nat.one_pos
  | n + 1, off => by
    have h := getLE_lt b n (off + 1)
    have hb := (b off).toNat_lt
    rw [getLE, Nat.pow_succ]
    omega

/-! ## Copies -/

/-- Copy `n` bytes of `src` to offset `off`. -/
def blit (b : Bytes) (off : Nat) (src : Bytes) (n : Nat) : Bytes := fun i =>
  if off ≤ i ∧ i < off + n then src (i - off) else b i

theorem blit_zero (b : Bytes) (off : Nat) (src : Bytes) : blit b off src 0 = b := by
  funext i
  rw [blit, if_neg (by omega)]

theorem blit_congr {b : Bytes} {off n : Nat} {src src' : Bytes}
    (h : ∀ i, i < n → src i = src' i) : blit b off src n = blit b off src' n := by
  funext i
  rw [blit, blit]
  split
  · exact h _ (by omega)
  · rfl

/-- Copying `n` bytes and then `k` more. -/
theorem blit_append {b : Bytes} {off n k : Nat} {src src' : Bytes}
    (h : ∀ i, i < k → src' i = src (n + i)) :
    blit (blit b off src n) (off + n) src' k = blit b off src (n + k) := by
  funext i
  rw [blit, blit, blit]
  by_cases hi : off + n ≤ i ∧ i < off + n + k
  · rw [if_pos hi, if_pos (by omega), h _ (by omega)]
    exact congrArg src (by omega)
  · rw [if_neg hi]
    by_cases hi' : off ≤ i ∧ i < off + n
    · rw [if_pos hi', if_pos (by omega)]
    · rw [if_neg hi', if_neg (by omega)]

theorem blit_one (b : Bytes) (off : Nat) (src : Bytes) :
    blit b off src 1 = Function.update b off (src 0) := by
  funext i
  rw [blit]
  by_cases hi : i = off
  · rw [hi, Function.update_self, if_pos (by omega), Nat.sub_self]
  · rw [Function.update_of_ne hi, if_neg (by omega)]

end Xv6
