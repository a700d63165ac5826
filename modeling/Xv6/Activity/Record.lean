import Xv6.Base.Bytes
import Mathlib.Logic.Function.Basic
import Mathlib.Data.List.Basic

/-!
# The record that `getactivity` returns

`sys_getactivity` fills a `struct activity` on its kernel stack and copies all of it to the user.
`fill` is what it writes there, from the numbers it has read and from what the stack slot held
before; `copied` are the bytes that reach the user.

The five integers are written in full.  Of the 32 bytes of `timestamp`, `safestrcpy` writes the
date, its terminator and one more zero, and the time goes over those and up to `t[19]`; the bytes
after it keep what the kernel stack held (`writes_fill`), and are copied out with the rest.
-/

set_option autoImplicit false

namespace Xv6.Activity

/-! ## `string.c` and `fmt_int` -/

/-- `*s = c`. -/
def poke (b : Bytes) (s : Nat) (c : UInt8) : Bytes := Function.update b s c

/-- The loop `while(--n > 0 && (*s++ = *t++) != 0)` of `safestrcpy`, with `m` copies left to make.
The string `t` is read from offset `i` on.  It returns where it leaves `s`. -/
def copyLoop (t : Bytes) : Nat → Bytes → Nat → Nat → Bytes × Nat
  | 0, b, s, _ => (b, s)
  | m + 1, b, s, i =>
    if t i ≠ 0 then copyLoop t m (poke b s (t i)) (s + 1) (i + 1) else (poke b s (t i), s + 1)

/-- `safestrcpy(s, t, n)`. -/
def safestrcpy (b : Bytes) (s : Nat) (t : Bytes) (n : Int) : Bytes :=
  if n ≤ 0 then b
  else
    let r := copyLoop t (n - 1).toNat b s 0
    poke r.1 r.2 0

/-- An `int`, cut to a `char`. -/
def toChar (n : Int) : UInt8 := UInt8.ofNat (n % 256).toNat

/-- `fmt_int(b, n)`, at `s`. -/
def fmtInt (b : Bytes) (s : Nat) (n : Int) : Bytes :=
  if n < 10 then poke (poke b s 48) (s + 1) (toChar (n + 48))
  else poke (poke b s (toChar (n.tdiv 10 + 48))) (s + 1) (toChar (n.tmod 10 + 48))

/-- The string `"2025-12-22 "`. -/
def date : Bytes := fun i =>
  [50, 48, 50, 53, 45, 49, 50, 45, 50, 50, 32].getD i 0

/-! ## `struct activity` -/

/-- What `sys_getactivity` has read when it fills the record; all are `uint64`. -/
structure Inputs where
  deltaTotal : Nat
  deltaActive : Nat
  deltaInt : Nat
  freeMem : Nat
  totalMem : Nat
  /-- `ticks`, as read for `user_activity`. -/
  ticks : Nat
  lastKeypress : Nat
  /-- `ticks`, as read for the time. -/
  ticks' : Nat

/-- `a - b`, in 64-bit arithmetic. -/
def sub64 (a b : Nat) : Nat := (a + 2 ^ 64 - b) % 2 ^ 64

namespace Inputs

def cpuPercent (x : Inputs) : Int :=
  if x.deltaTotal = 0 then 0 else toInt32 (x.deltaActive * 100 % 2 ^ 64 / x.deltaTotal)

def memPercent (x : Inputs) : Int :=
  if x.totalMem = 0 then 0 else toInt32 (sub64 x.totalMem x.freeMem * 100 % 2 ^ 64 / x.totalMem)

def userActivity (x : Inputs) : Int := if sub64 x.ticks x.lastKeypress < 100 then 1 else 0

def interrupts (x : Inputs) : Int := toInt32 x.deltaInt

def state (x : Inputs) : Int :=
  if x.cpuPercent > 20 ∨ x.userActivity = 1 ∨ x.memPercent > 30 then 1 else 0

/-- `seconds_running`. -/
def secondsRunning (x : Inputs) : Nat := x.ticks' / 10

def totalMin (x : Inputs) : Nat := (30 + x.secondsRunning / 60) % 2 ^ 64

def totalHour (x : Inputs) : Nat := (19 + x.totalMin / 60) % 2 ^ 64

def s (x : Inputs) : Int := toInt32 (x.secondsRunning % 60)

def m (x : Inputs) : Int := toInt32 (x.totalMin % 60)

def h (x : Inputs) : Int := toInt32 (x.totalHour % 24)

end Inputs

/-- `sizeof(struct activity)`: five `int`s and `char timestamp[32]`. -/
def SIZEOF : Nat := 52

/-- Store an `int` field. -/
def putInt (b : Bytes) (off : Nat) (v : Int) : Bytes := setLE b off 4 (ofInt32 v)

/-- Read an `int` field. -/
def getInt (b : Bytes) (off : Nat) : Int := toInt32 (getLE b off 4)

/-- The time, at `t`. -/
def fillTime (x : Inputs) (t : Nat) (b : Bytes) : Bytes :=
  let b := safestrcpy b t date 32
  let b := fmtInt b (t + 11) x.h
  let b := poke b (t + 13) 58
  let b := fmtInt b (t + 14) x.m
  let b := poke b (t + 16) 58
  let b := fmtInt b (t + 17) x.s
  poke b (t + 19) 0

/-- What `sys_getactivity` makes of the stack slot of `act`, which held `b`. -/
def fill (x : Inputs) (b : Bytes) : Bytes :=
  let b := putInt b 0 x.cpuPercent
  let b := putInt b 4 x.memPercent
  let b := putInt b 8 x.userActivity
  let b := putInt b 12 x.interrupts
  let b := putInt b 16 x.state
  fillTime x 20 b

/-- The bytes of `copyout(..., &act, sizeof(act))`. -/
def copied (x : Inputs) (b : Bytes) : List UInt8 := (List.range SIZEOF).map (fill x b)

/-! ## What is written -/

/-- The bytes that a piece of code writes: the same whatever the memory was, and no others. -/
structure Writes (f : Bytes → Bytes) (w : Nat → Prop) : Prop where
  same : ∀ a b i, w i → f a i = f b i
  other : ∀ a i, ¬ w i → f a i = a i

section

variable {f g : Bytes → Bytes} {w w' : Nat → Prop}

theorem Writes.comp (hf : Writes f w) (hg : Writes g w') :
    Writes (fun b => g (f b)) fun i => w i ∨ w' i := by
  constructor
  · intro a b i hi
    by_cases h : w' i
    · exact hg.same (f a) (f b) i h
    · rw [hg.other (f a) i h, hg.other (f b) i h]
      exact hf.same a b i (hi.resolve_right h)
  · intro a i hi
    rw [not_or] at hi
    rw [hg.other (f a) i hi.2, hf.other a i hi.1]

theorem Writes.congr (hf : Writes f w) (h : ∀ i, w i ↔ w' i) : Writes f w' :=
  ⟨fun a b i hi => hf.same a b i ((h i).2 hi), fun a i hi => hf.other a i fun hx => hi ((h i).1 hx)⟩

theorem writes_poke (s : Nat) (c : UInt8) : Writes (fun b => poke b s c) fun i => i = s := by
  constructor
  · rintro a b i rfl
    rw [poke, poke, Function.update_self, Function.update_self]
  · intro a i hi
    exact Function.update_of_ne hi c a

theorem writes_setLE (off n v : Nat) :
    Writes (fun b => setLE b off n v) fun i => off ≤ i ∧ i < off + n := by
  constructor
  · intro a b i hi
    rw [setLE, setLE, if_pos hi, if_pos hi]
  · intro a i hi
    rw [setLE, if_neg hi]

theorem writes_fmtInt (s : Nat) (n : Int) :
    Writes (fun b => fmtInt b s n) fun i => i = s ∨ i = s + 1 := by
  by_cases h : n < 10
  · simp only [fmtInt, if_pos h]
    exact (writes_poke _ _).comp (writes_poke _ _)
  · simp only [fmtInt, if_neg h]
    exact (writes_poke _ _).comp (writes_poke _ _)

/-- How far a string of `k` characters is copied. -/
theorem copyLoop_eq {t : Bytes} {k : Nat} (hlen : ∀ i, i < k → t i ≠ 0) (h0 : t k = 0) :
    ∀ (m i s : Nat) (b : Bytes), i ≤ k → k - i < m →
      (copyLoop t m b s i).2 = s + (k - i) + 1 ∧
      ∀ j, (copyLoop t m b s i).1 j =
        if s ≤ j ∧ j < s + (k - i) + 1 then t (i + (j - s)) else b j
  | 0, _, _, _, _, hm => absurd hm (Nat.not_lt_zero _)
  | m + 1, i, s, b, hi, hm => by
    rw [copyLoop]
    by_cases hti : t i = 0
    · have hil : i = k := by
        by_contra hne
        exact hlen i (by omega) hti
      rw [if_neg (not_not.2 hti)]
      refine ⟨by omega, fun j => ?_⟩
      show Function.update b s (t i) j = _
      rw [Function.update_apply]
      by_cases hj : j = s
      · rw [if_pos hj, if_pos (by omega), hj, Nat.sub_self, Nat.add_zero]
      · rw [if_neg hj, if_neg (by omega)]
    · have hil : i < k := Nat.lt_of_le_of_ne hi fun he => hti (he ▸ h0)
      rw [if_pos hti]
      obtain ⟨h1, h2⟩ := copyLoop_eq hlen h0 m (i + 1) (s + 1) (poke b s (t i)) hil (by omega)
      refine ⟨by omega, fun j => ?_⟩
      rw [h2 j]
      by_cases hj : j = s
      · rw [if_neg (by omega), if_pos (by omega), hj, Nat.sub_self]
        exact Function.update_self ..
      · by_cases hr : s + 1 ≤ j ∧ j < s + 1 + (k - (i + 1)) + 1
        · rw [if_pos hr, if_pos (by omega), show i + 1 + (j - (s + 1)) = i + (j - s) by omega]
        · rw [if_neg hr, if_neg (by omega)]
          exact Function.update_of_ne hj ..

/-- `safestrcpy` writes the string, its terminator, and one more zero. -/
theorem writes_safestrcpy {t : Bytes} {k : Nat} (hlen : ∀ i, i < k → t i ≠ 0)
    (h0 : t k = 0) (s : Nat) {n : Nat} (hn : k + 1 < n) :
    Writes (fun b => safestrcpy b s t n) fun i => s ≤ i ∧ i < s + k + 2 := by
  have hloop := fun b => copyLoop_eq hlen h0 (n - 1) 0 s b (Nat.zero_le _) (by omega)
  have hval : ∀ b i, safestrcpy b s t n i = if i = s + k + 1 then 0 else
      if s ≤ i ∧ i < s + k + 1 then t (i - s) else b i := by
    intro b i
    rw [safestrcpy, if_neg (by omega), show ((n : Int) - 1).toNat = n - 1 by omega]
    show Function.update _ _ _ _ = _
    rw [Function.update_apply, (hloop b).1, (hloop b).2 i, Nat.sub_zero, Nat.zero_add]
  constructor
  · intro a b i hi
    rw [hval, hval]
    split
    · rfl
    · rw [if_pos (by omega), if_pos (by omega)]
  · intro a i hi
    rw [hval, if_neg (by omega), if_neg (by omega)]

end

/-- The time is 20 of the 32 bytes of `timestamp`. -/
theorem writes_fillTime (x : Inputs) (t : Nat) :
    Writes (fillTime x t) fun i => t ≤ i ∧ i < t + 20 := by
  have hdate : Writes (fun b => safestrcpy b t date 32) fun i => t ≤ i ∧ i < t + 11 + 2 :=
    writes_safestrcpy (k := 11) (n := 32) (by decide) (by decide) t (by omega)
  refine Writes.congr ((((((hdate.comp (writes_fmtInt _ _)).comp (writes_poke _ _)).comp
    (writes_fmtInt _ _)).comp (writes_poke _ _)).comp (writes_fmtInt _ _)).comp
    (writes_poke _ _)) fun i => ?_
  omega

/-- The record is written up to `timestamp[19]`. -/
theorem writes_fill (x : Inputs) : Writes (fill x) fun i => i < 40 := by
  refine Writes.congr (((((writes_setLE 0 4 _).comp (writes_setLE 4 4 _)).comp
    (writes_setLE 8 4 _)).comp (writes_setLE 12 4 _)).comp (writes_setLE 16 4 _) |>.comp
    (writes_fillTime x 20)) fun i => ?_
  omega

theorem toInt32_range (x : Nat) : -2 ^ 31 ≤ toInt32 x ∧ toInt32 x < 2 ^ 31 := by
  rw [toInt32]
  split <;> omega

/-- A field is read back after code that writes elsewhere. -/
theorem getInt_putInt {g : Bytes → Bytes} {w : Nat → Prop} (hg : Writes g w) {off : Nat}
    (hw : ∀ i, off ≤ i → i < off + 4 → ¬ w i) (b : Bytes) {v : Int} (h1 : -2 ^ 31 ≤ v)
    (h2 : v < 2 ^ 31) : getInt (g (putInt b off v)) off = v := by
  have hlt : ofInt32 v < 256 ^ 4 := by
    rw [ofInt32]
    omega
  rw [getInt, getLE_congr fun i hi1 hi2 => hg.other (putInt b off v) i (hw i hi1 hi2), putInt,
    getLE_setLE_same, Nat.mod_eq_of_lt hlt, toInt32_ofInt32 h1 h2]

section

variable (x : Inputs) (b : Bytes)

theorem getInt_fill_interrupts : getInt (fill x b) 12 = x.interrupts := by
  have hw : Writes (fun b => fillTime x 20 (putInt b 16 x.state)) _ :=
    (writes_setLE 16 4 _).comp (writes_fillTime x 20)
  exact getInt_putInt hw (by omega) _ (toInt32_range _).1 (toInt32_range _).2

theorem getInt_fill_memPercent : getInt (fill x b) 4 = x.memPercent := by
  have hw : Writes (fun b => fillTime x 20 (putInt (putInt (putInt b 8 x.userActivity) 12
      x.interrupts) 16 x.state)) _ :=
    (((writes_setLE 8 4 _).comp (writes_setLE 12 4 _)).comp (writes_setLE 16 4 _)).comp
      (writes_fillTime x 20)
  have hr : -2 ^ 31 ≤ x.memPercent ∧ x.memPercent < 2 ^ 31 := by
    rw [Inputs.memPercent]
    split
    · omega
    · exact toInt32_range _
  exact getInt_putInt hw (by omega) _ hr.1 hr.2

theorem getInt_fill_cpuPercent : getInt (fill x b) 0 = x.cpuPercent := by
  have hw : Writes (fun b => fillTime x 20 (putInt (putInt (putInt (putInt b 4 x.memPercent) 8
      x.userActivity) 12 x.interrupts) 16 x.state)) _ :=
    ((((writes_setLE 4 4 _).comp (writes_setLE 8 4 _)).comp (writes_setLE 12 4 _)).comp
      (writes_setLE 16 4 _)).comp (writes_fillTime x 20)
  have hr : -2 ^ 31 ≤ x.cpuPercent ∧ x.cpuPercent < 2 ^ 31 := by
    rw [Inputs.cpuPercent]
    split
    · omega
    · exact toInt32_range _
  exact getInt_putInt hw (by omega) _ hr.1 hr.2

end

/-! ## What is copied out -/

/-- **What `getactivity` copies out depends on what the stack slot held before in the last twelve
bytes of `timestamp`, and only there.** -/
theorem getactivity_leak (x : Inputs) (a b : Bytes) :
    copied x a = copied x b ↔ ∀ i, 40 ≤ i → i < SIZEOF → a i = b i := by
  have hw := writes_fill x
  rw [copied, copied, List.map_inj_left]
  constructor
  · intro h i h1 h2
    have hi := h i (List.mem_range.2 h2)
    rwa [hw.other a i (by omega), hw.other b i (by omega)] at hi
  · intro h i hi
    by_cases h1 : i < 40
    · exact hw.same a b i h1
    · rw [hw.other a i h1, hw.other b i h1]
      exact h i (by omega) (List.mem_range.1 hi)

/-- Two runs just after boot, on stacks that held zeroes and ones. -/
theorem getactivity_leaks : ∃ x a b, copied x a ≠ copied x b :=
  ⟨⟨0, 0, 0, 100, 100, 0, 0, 0⟩, fun _ => 0, fun _ => 1, by decide +kernel⟩

end Xv6.Activity
