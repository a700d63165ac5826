import Xv6.Base.Residues
import Xv6.Heat.Kernel

/-!
# How often a hot process is skipped

The scheduler compares `(pid * tick) % 100` with the skip chance, which `HEAT_SKIP_MAX` caps at 90.
Over 100 consecutive ticks the remainders take `gcd 100 pid` times each value that agrees with the
first modulo `gcd 100 pid`, and no other, so how many of them are below the chance depends on that
`gcd`: a process whose pid is a multiple of 100 is skipped always or never.  Two more things enter: the product is a `uint64`,
and its remainders jump where it wraps around; and the chance is an `int`, and skips always when
the heat is so large that it is negative.
-/

set_option autoImplicit false

namespace Xv6.Heat

open Residues

/-- On how many of the 100 ticks from `tick` on a runnable process is skipped. -/
def skipped (pid : Int) (heat tick : UInt64) : Nat :=
  Nat.count (fun i => shouldSkip pid heat (tick + .ofNat i)) 100

/-- How many of the first `k` of the products `b, b + pid, b + 2 * pid, …` have a remainder below
`chance`. -/
def below (pid b chance k : Nat) : Nat := Nat.count (fun i => (b + pid * i) % 100 < chance) k

/-- The products of the first ticks of the window, up to this one, do not wrap around. -/
def lap (pid b : Nat) : Nat := min 100 ((2 ^ 64 - b + pid - 1) / pid)

/-- The ticks of the window on which a process with the product `b` at its start is skipped, if the
products do not wrap around in it. -/
def share (pid b chance : Nat) : Nat :=
  Nat.gcd 100 pid * (chance / Nat.gcd 100 pid +
    if b % Nat.gcd 100 pid < chance % Nat.gcd 100 pid then 1 else 0)

/-- When a process of a pid is skipped on at most 90 of 100 ticks, if `b` is the product at the first
of them. -/
def Capped (pid b chance : Nat) : Prop :=
  if lap pid b = 100 then share pid b chance ≤ 90
  else below pid b chance (lap pid b) +
    below pid (b + pid * lap pid b - 2 ^ 64) chance (100 - lap pid b) ≤ 90

instance (pid b chance : Nat) : Decidable (Capped pid b chance) := by
  unfold Capped
  infer_instance

theorem toNat_ofInt_of_nonneg {x : Int} (h0 : 0 ≤ x) (h1 : x < 2 ^ 64) :
    (UInt64.ofInt x).toNat = x.toNat := by
  rw [UInt64.ofInt, UInt64.toNat_ofNat', Int.emod_eq_of_lt h0 h1]
  omega

/-- The product `i` ticks later. -/
theorem toNat_mul_add (x tick : UInt64) (i : Nat) :
    (x * (tick + .ofNat i)).toNat = ((x * tick).toNat + x.toNat * i) % 2 ^ 64 := by
  rw [UInt64.toNat_mul, UInt64.toNat_mul, UInt64.toNat_add, UInt64.toNat_ofNat', Nat.mod_add_mod,
    ← Nat.mul_add]
  simp only [Nat.add_mod_mod, Nat.mul_mod_mod]

section

variable {pid : Int} {heat tick : UInt64}

theorem shouldSkip_iff (hh : HEAT_THRESHOLD_HOT ≤ heat) (i : Nat) :
    shouldSkip pid heat (tick + .ofNat i) ↔
      ((UInt64.ofInt pid * tick).toNat + (UInt64.ofInt pid).toNat * i) % 2 ^ 64 % 100 <
        (UInt64.ofInt (skipChance heat)).toNat := by
  rw [shouldSkip, decide_eq_true_iff, and_iff_right hh, UInt64.lt_iff_toNat_lt, UInt64.toNat_mod,
    toNat_mul_add]
  rfl

/-- The skip chance, as it is compared. -/
theorem skipChance_le : skipChance heat ≤ 90 := min_le_right _ _

theorem skipChance_ge : -2 ^ 31 ≤ skipChance heat := by
  have h : -2 ^ 31 ≤ Int.bmod ((heat - HEAT_THRESHOLD_HOT) / HEAT_SKIP_SCALE).toNat (2 ^ 32) := by
    have := Int.le_bmod (x := ((heat - HEAT_THRESHOLD_HOT) / HEAT_SKIP_SCALE).toNat)
      (m := 2 ^ 32) (by decide)
    omega
  exact le_min h (by decide)

/-- A negative skip chance is larger than every remainder. -/
theorem toNat_ofInt_of_neg (h : skipChance heat < 0) :
    100 ≤ (UInt64.ofInt (skipChance heat)).toNat := by
  have hge : -2 ^ 31 ≤ skipChance heat := skipChance_ge
  rw [UInt64.ofInt, UInt64.toNat_ofNat']
  omega

end

section

variable {p b c : Nat}

theorem lt_lap_iff (hp : 0 < p) {i : Nat} (hi : i < 100) : i < lap p b ↔ b + p * i < 2 ^ 64 := by
  rw [lap, lt_min_iff, and_iff_right hi, ← Nat.succ_le_iff, Nat.le_div_iff_mul_le hp,
    Nat.succ_mul, Nat.mul_comm p i]
  omega

theorem lap_le : lap p b ≤ 100 := min_le_left _ _

/-- The products on which a process is skipped, with the wrap-around. -/
theorem count_products (hp : 0 < p) (hp' : p < 2 ^ 31) (hb : b < 2 ^ 64) :
    Nat.count (fun i => (b + p * i) % 2 ^ 64 % 100 < c) 100 =
      below p b c (lap p b) + below p (b + p * lap p b - 2 ^ 64) c (100 - lap p b) := by
  have hadd := Nat.count_add (fun i => (b + p * i) % 2 ^ 64 % 100 < c) (lap p b) (100 - lap p b)
  rw [Nat.add_sub_cancel' lap_le] at hadd
  rw [hadd]
  congr 1
  · refine count_congr fun i hi => ?_
    rw [Nat.mod_eq_of_lt ((lt_lap_iff hp (hi.trans_le lap_le)).1 hi)]
  · refine count_congr fun i hi => ?_
    have hlap : lap p b < 100 := by omega
    -- the first product after the wrap-around, and all later ones, are past it
    have hge : 2 ^ 64 ≤ b + p * lap p b :=
      Nat.le_of_not_lt fun h => Nat.lt_irrefl _ ((lt_lap_iff hp hlap).2 h)
    have hlt : p * (lap p b + i) ≤ p * 100 := Nat.mul_le_mul_left p (by omega)
    have hmul := Nat.mul_add p (lap p b) i
    rw [show (b + p * (lap p b + i)) % 2 ^ 64 = b + p * lap p b - 2 ^ 64 + p * i by omega]

/-- The ticks on which a process is skipped are capped exactly if `Capped` says so. -/
theorem count_le_iff_capped (hp : 0 < p) (hp' : p < 2 ^ 31) (hb : b < 2 ^ 64) (hc : c ≤ 90) :
    Nat.count (fun i => (b + p * i) % 2 ^ 64 % 100 < c) 100 ≤ 90 ↔ Capped p b c := by
  rw [count_products hp hp' hb, Capped]
  split
  · next hl =>
    have hfull : below p b c 100 = share p b c :=
      count_remainder_lt (by decide) (hc.trans (by decide))
    have hrest : below p (b + p * 100 - 2 ^ 64) c (100 - 100) = 0 := Nat.count_zero _
    rw [hl, hfull, hrest, Nat.add_zero]
  · rfl

end

end Xv6.Heat
