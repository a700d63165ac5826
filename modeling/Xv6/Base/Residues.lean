import Mathlib.Data.Int.CardIntervalMod
import Mathlib.Data.Int.GCD
import Mathlib.Algebra.BigOperators.Ring.Finset

/-!
# The remainders of an arithmetic progression

The terms `b, b + p, b + 2 * p, …` modulo `M` run through the remainders that agree with `b`
modulo `gcd M p`, and any `M` consecutive terms take each of them `gcd M p` times
(`count_remainder_eq`).  So how many of `M` consecutive terms leave a remainder below `c` depends on
`p` through that `gcd` alone (`count_remainder_lt`).
-/

set_option autoImplicit false

namespace Xv6.Residues

variable {M p b c x : Nat}

theorem count_congr {P Q : Nat → Prop} [DecidablePred P] [DecidablePred Q] {n : Nat}
    (h : ∀ i < n, P i ↔ Q i) : Nat.count P n = Nat.count Q n :=
  le_antisymm (Nat.count_mono_left fun i hi => (h i hi).1)
    (Nat.count_mono_left fun i hi => (h i hi).2)

/-- A remainder of the progression agrees with `b` modulo `gcd M p`. -/
theorem modEq_of_remainder {i : Nat} (h : (b + p * i) % M = x) : x ≡ b [MOD M.gcd p] := by
  have h1 : x ≡ b + p * i [MOD M.gcd p] := by
    rw [← h]
    exact (Nat.mod_modEq _ _).of_dvd (Nat.gcd_dvd_left M p)
  have h2 : p * i ≡ 0 [MOD M.gcd p] :=
    Nat.modEq_zero_iff_dvd.2 (Dvd.dvd.mul_right (Nat.gcd_dvd_right M p) i)
  exact h1.trans (Nat.ModEq.add_left b h2)

/-- Some multiple of `p` is `gcd M p` modulo `M`. -/
theorem exists_mul_modEq_gcd (hM : 0 < M) (p : Nat) : ∃ m, p * m ≡ M.gcd p [MOD M] := by
  rcases Nat.lt_or_ge (p.gcd M) M with h | h
  · obtain ⟨m, -, hm⟩ := Nat.exists_mul_mod_eq_gcd h
    refine ⟨m, ?_⟩
    rw [Nat.gcd_comm, Nat.ModEq, hm, Nat.mod_eq_of_lt h]
  · refine ⟨0, (Nat.modEq_zero_iff_dvd.2 ?_).symm⟩
    rw [Nat.gcd_comm, Nat.le_antisymm (Nat.le_of_dvd hM (Nat.gcd_dvd_right p M)) h]

/-- Every remainder that agrees with `b` modulo `gcd M p` is one of the progression. -/
theorem exists_remainder (hx : x < M) (h : x ≡ b [MOD M.gcd p]) : ∃ i, (b + p * i) % M = x := by
  have hM : 0 < M := by omega
  obtain ⟨m, hm⟩ := exists_mul_modEq_gcd hM p
  -- `x + M * b` is `b` plus a multiple of the `gcd`
  have hle : b ≤ x + M * b := (Nat.le_mul_of_pos_left b hM).trans (Nat.le_add_left _ _)
  have hb : b ≡ x + M * b [MOD M.gcd p] := by
    refine h.symm.trans (Nat.ModEq.symm ?_)
    exact Nat.ModEq.add_left x
      (Nat.modEq_zero_iff_dvd.2 (Dvd.dvd.mul_right (Nat.gcd_dvd_left M p) b))
  obtain ⟨d, hd⟩ := (Nat.modEq_iff_dvd' hle).1 hb
  refine ⟨m * d, ?_⟩
  have h1 : b + p * (m * d) ≡ x + M * b [MOD M] := by
    rw [← Nat.mul_assoc, show x + M * b = b + M.gcd p * d by omega]
    exact Nat.ModEq.add_left b (hm.mul_right d)
  rw [h1, Nat.add_mul_mod_self_left, Nat.mod_eq_of_lt hx]

/-- Of `M` consecutive terms, `gcd M p` leave a given remainder that any leaves. -/
theorem count_remainder_eq (hx : x < M) :
    Nat.count (fun i => (b + p * i) % M = x) M =
      if x ≡ b [MOD M.gcd p] then M.gcd p else 0 := by
  have hM : 0 < M := by omega
  split
  · next h =>
    obtain ⟨i₀, hi₀⟩ := exists_remainder hx h
    have hiff : ∀ i, (b + p * i) % M = x ↔ i ≡ i₀ [MOD M / M.gcd p] := by
      intro i
      constructor
      · intro hi
        exact Nat.ModEq.cancel_left_div_gcd hM (Nat.ModEq.add_left_cancel' b (hi.trans hi₀.symm))
      · intro hi
        have hdvd : M ∣ p * (M / M.gcd p) := by
          rw [← Nat.mul_div_assoc p (Nat.gcd_dvd_left M p), Nat.mul_comm,
            Nat.mul_div_assoc M (Nat.gcd_dvd_right M p)]
          exact Nat.dvd_mul_right M _
        have hp : p * i ≡ p * i₀ [MOD M] := (hi.mul_left' p).of_dvd hdvd
        exact Eq.trans (Nat.ModEq.add_left b hp) hi₀
    have hg : 0 < M.gcd p := Nat.gcd_pos_of_pos_left p hM
    have hpos : 0 < M / M.gcd p := Nat.div_pos (Nat.gcd_le_left p hM) hg
    have hdiv : M / (M / M.gcd p) = M.gcd p := Nat.div_div_self (Nat.gcd_dvd_left M p) hM.ne'
    have hmod : M % (M / M.gcd p) = 0 :=
      Nat.mod_eq_zero_of_dvd (Nat.div_dvd_of_dvd (Nat.gcd_dvd_left M p))
    simp only [hiff]
    rw [Nat.count_modEq_card _ hpos, hdiv, hmod, if_neg (Nat.not_lt_zero _), Nat.add_zero]
  · next h =>
    rw [Nat.count_eq_card_filter_range, Finset.card_eq_zero, Finset.filter_eq_empty_iff]
    exact fun i _ hi => h (modEq_of_remainder hi)

/-- **How many of `M` consecutive terms leave a remainder below `c`.** -/
theorem count_remainder_lt (hM : 0 < M) (hc : c ≤ M) :
    Nat.count (fun i => (b + p * i) % M < c) M =
      M.gcd p * (c / M.gcd p + if b % M.gcd p < c % M.gcd p then 1 else 0) := by
  have hmaps : ∀ i ∈ (Finset.range M).filter (fun i => (b + p * i) % M < c),
      (b + p * i) % M ∈ Finset.range c :=
    fun i hi => Finset.mem_range.2 (Finset.mem_filter.1 hi).2
  rw [← Nat.count_modEq_card _ (Nat.gcd_pos_of_pos_left p hM), Nat.count_eq_card_filter_range,
    Finset.card_eq_sum_card_fiberwise hmaps, Nat.count_eq_card_filter_range, Finset.card_filter,
    Finset.mul_sum]
  refine Finset.sum_congr rfl fun x hx => ?_
  have hxc := Finset.mem_range.1 hx
  rw [Finset.filter_filter, mul_ite, Nat.mul_one, Nat.mul_zero,
    ← count_remainder_eq (Nat.lt_of_lt_of_le hxc hc), Nat.count_eq_card_filter_range]
  congr 1
  refine Finset.filter_congr fun i _ => ⟨fun h => h.2, fun h => ⟨by omega, h⟩⟩

end Xv6.Residues
