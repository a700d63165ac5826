import Mathlib.Computability.Language

/-!
# The matcher of `grep`

`match`, `matchhere` and `matchstar` of `user/grep.c`, and the language of a pattern.  A C string is
the list of its characters, so that the end of the list is where C reads a zero.

A pattern is read from the left: a character with a `*` after it stands for any number of that
character, every other one for itself, and `.` for any.  A `^` at the very beginning and a `$` at the
very end are no characters of the pattern; they say where the match must begin and end.  `matchText_iff`
says that the matcher finds exactly what this describes.
-/

set_option autoImplicit false

namespace Xv6.User

def STAR : UInt8 := 42

def DOT : UInt8 := 46

def DOLLAR : UInt8 := 36

def CARET : UInt8 := 94

/-! ## `grep.c` -/

mutual

/-- `matchhere(re, text)`: search for `re` at the beginning of `text`. -/
def matchhere : List UInt8 → List UInt8 → Bool
  | [], _ => true
  | c :: re, text =>
    if re.head? = some STAR then
      matchstar c re.tail text
    else if c = DOLLAR ∧ re = [] then
      text.isEmpty
    else
      match text with
      | [] => false
      | t :: text => if c = DOT ∨ c = t then matchhere re text else false
termination_by re text => (re.length, text.length, 0)

/-- `matchstar(c, re, text)`: search for `c*re` at the beginning of `text`. -/
def matchstar (c : UInt8) (re text : List UInt8) : Bool :=
  if matchhere re text then
    true
  else
    match text with
    | [] => false
    | t :: text => if t = c ∨ c = DOT then matchstar c re text else false
termination_by (re.length, text.length, 1)

end

/-- The loop of `match`, which looks at the empty string too. -/
def matchFrom (re : List UInt8) : List UInt8 → Bool
  | [] => matchhere re []
  | t :: text => if matchhere re (t :: text) then true else matchFrom re text

/-- `match(re, text)`; 1 is `true`. -/
def matchText (re text : List UInt8) : Bool :=
  if re.head? = some CARET then matchhere re.tail text else matchFrom re text

/-! ## The language of a pattern -/

/-- The character `t` is one that `c` stands for. -/
def StandsFor (c t : UInt8) : Prop := c = DOT ∨ c = t

/-- The words of one character that `c` stands for. -/
def letter (c : UInt8) : Language UInt8 := {w | ∃ t, StandsFor c t ∧ w = [t]}

open Computability in
/-- The words that a pattern describes. -/
def lang : List UInt8 → Language UInt8
  | [] => 1
  | [c] => letter c
  | c :: r :: re => if r = STAR then (letter c)∗ * lang re else letter c * lang (r :: re)

/-- A pattern without the `^` at its beginning. -/
def unanchored (re : List UInt8) : List UInt8 := if re.head? = some CARET then re.tail else re

/-- Whether a pattern, without its `^`, ends with the text: its last character is a `$`, which no
`*` can follow. -/
def AtEnd (re : List UInt8) : Prop := re.getLast? = some DOLLAR

instance (re : List UInt8) : Decidable (AtEnd re) := inferInstanceAs (Decidable (_ = _))

/-- What is left of a pattern without the `$` at its end. -/
def body (re : List UInt8) : List UInt8 := if AtEnd re then re.dropLast else re

open Computability in
/-- Any number of the characters that `c` stands for. -/
theorem mem_letter_kstar {c : UInt8} : ∀ {w : List UInt8},
    w ∈ (letter c)∗ ↔ ∀ t ∈ w, StandsFor c t := by
  intro w
  rw [Language.mem_kstar]
  constructor
  · rintro ⟨L, rfl, hL⟩ t ht
    obtain ⟨x, hx, ht⟩ := List.mem_flatten.1 ht
    obtain ⟨u, hu, rfl⟩ := hL x hx
    rw [List.mem_singleton.1 ht]
    exact hu
  · intro hw
    refine ⟨w.map fun t => [t], ?_, fun x hx => ?_⟩
    · induction w with
      | nil => rfl
      | cons t w ih => rw [List.map_cons, List.flatten_cons, ← ih fun u hu => hw u (.tail t hu)]; rfl
    · obtain ⟨t, ht, rfl⟩ := List.mem_map.1 hx
      exact ⟨t, hw t ht, rfl⟩

/-- A prefix of `text` is in the language of the pattern, and it is all of `text` if the pattern
says so. -/
def Here (re text : List UInt8) : Prop :=
  ∃ word rest, text = word ++ rest ∧ word ∈ lang (body re) ∧ (AtEnd re → rest = [])

/-! ### One character of the pattern at a time -/

/-- The last character of a pattern is that of what follows the first, unless nothing does. -/
theorem atEnd_cons {c : UInt8} {re : List UInt8} (h : c = DOLLAR → re ≠ []) :
    AtEnd (c :: re) ↔ AtEnd re := by
  cases re with
  | nil =>
    rw [AtEnd, AtEnd, List.getLast?_singleton, List.getLast?_nil]
    exact ⟨fun hc => absurd rfl (h (Option.some.inj hc)), fun hn => by cases hn⟩
  | cons r re => rw [AtEnd, AtEnd, List.getLast?_cons_cons]

theorem body_cons {c : UInt8} {re : List UInt8} (h : c = DOLLAR → re ≠ []) :
    body (c :: re) = c :: body re := by
  have hend := atEnd_cons h
  rw [body, body]
  by_cases hre : AtEnd re
  · rw [if_pos hre, if_pos (hend.2 hre)]
    cases re with
    | nil => cases hre
    | cons r re => rw [List.dropLast_cons_cons]
  · rw [if_neg hre, if_neg fun h => hre (hend.1 h)]

theorem head_body {c : UInt8} {re : List UInt8} (h : re.head? ≠ some c) :
    (body re).head? ≠ some c := by
  rw [body]
  split
  · match re with
    | [] => exact h
    | [_] => exact fun hn => by cases hn
    | r :: r' :: re => exact h
  · exact h

theorem lang_star (c : UInt8) (re : List UInt8) :
    lang (c :: STAR :: re) = KStar.kstar (letter c) * lang re := by
  rw [lang, if_pos rfl]

theorem lang_cons {c : UInt8} {re : List UInt8} (h : re.head? ≠ some STAR) :
    lang (c :: re) = letter c * lang re := by
  cases re with
  | nil => rw [lang, lang, mul_one]
  | cons r re => rw [lang, if_neg fun hr => h (by rw [hr]; rfl)]

theorem here_nil (text : List UInt8) : Here [] text :=
  ⟨[], text, rfl, rfl, fun h => by cases h⟩

theorem here_dollar {text : List UInt8} : Here [DOLLAR] text ↔ text = [] := by
  have hbody : body [DOLLAR] = [] := if_pos rfl
  constructor
  · rintro ⟨word, rest, rfl, hword, hrest⟩
    rw [hbody] at hword
    rw [hrest rfl, (Language.mem_one word).1 hword]
    rfl
  · rintro rfl
    exact ⟨[], [], rfl, by rw [hbody]; rfl, fun _ => rfl⟩

/-- A character that is neither starred nor the `$` at the end. -/
theorem here_cons {c : UInt8} {re text : List UInt8} (hstar : re.head? ≠ some STAR)
    (hdollar : ¬ (c = DOLLAR ∧ re = [])) :
    Here (c :: re) text ↔ ∃ t rest, text = t :: rest ∧ StandsFor c t ∧ Here re rest := by
  have hd : c = DOLLAR → re ≠ [] := fun hc hre => hdollar ⟨hc, hre⟩
  rw [Here, body_cons hd, lang_cons (head_body hstar), atEnd_cons hd]
  constructor
  · rintro ⟨word, rest, rfl, hword, hrest⟩
    obtain ⟨_, ⟨t, ht, rfl⟩, w, hw, rfl⟩ := Language.mem_mul.1 hword
    exact ⟨t, w ++ rest, rfl, ht, w, rest, rfl, hw, hrest⟩
  · rintro ⟨t, _, rfl, ht, w, rest, rfl, hw, hrest⟩
    exact ⟨t :: w, rest, rfl, Language.mem_mul.2 ⟨[t], ⟨t, ht, rfl⟩, w, hw, rfl⟩, hrest⟩

/-- A starred character. -/
theorem here_star {c : UInt8} {re text : List UInt8} : Here (c :: STAR :: re) text ↔
    ∃ run rest, text = run ++ rest ∧ (∀ t ∈ run, StandsFor c t) ∧ Here re rest := by
  have hs : STAR = DOLLAR → re ≠ [] := fun h => absurd h (by decide)
  have hc : c = DOLLAR → STAR :: re ≠ [] := fun _ => List.cons_ne_nil _ _
  rw [Here, body_cons hc, body_cons hs, lang_star, atEnd_cons hc, atEnd_cons hs]
  constructor
  · rintro ⟨word, rest, rfl, hword, hrest⟩
    obtain ⟨run, hrun, w, hw, rfl⟩ := Language.mem_mul.1 hword
    exact ⟨run, w ++ rest, List.append_assoc _ _ _, mem_letter_kstar.1 hrun, w, rest, rfl, hw, hrest⟩
  · rintro ⟨run, _, rfl, hrun, w, rest, rfl, hw, hrest⟩
    exact ⟨run ++ w, rest, (List.append_assoc _ _ _).symm,
      Language.mem_mul.2 ⟨run, mem_letter_kstar.2 hrun, w, hw, rfl⟩, hrest⟩

/-! ## The matcher and the language -/

/-- `matchstar` tries every number of characters, the smallest first. -/
theorem matchstar_iff {c : UInt8} {re : List UInt8}
    (hre : ∀ text, matchhere re text = true ↔ Here re text) : ∀ {text : List UInt8},
    matchstar c re text = true ↔
      ∃ run rest, text = run ++ rest ∧ (∀ t ∈ run, StandsFor c t) ∧ Here re rest
  | [] => by
    rw [matchstar, Bool.if_true_left, Bool.or_false, decide_eq_true_eq, hre]
    constructor
    · exact fun h => ⟨[], [], rfl, fun t ht => absurd ht List.not_mem_nil, h⟩
    · rintro ⟨run, rest, hnil, -, h⟩
      rw [(List.append_eq_nil_iff.1 hnil.symm).2] at h
      exact h
  | t :: text => by
    rw [matchstar]
    by_cases hnow : matchhere re (t :: text) = true
    · rw [if_pos hnow]
      exact ⟨fun _ => ⟨[], t :: text, rfl, fun t ht => absurd ht List.not_mem_nil, (hre _).1 hnow⟩,
        fun _ => rfl⟩
    rw [if_neg hnow]
    constructor
    · intro h
      split at h
      · next ht =>
        obtain ⟨run, rest, rfl, hrun, hrest⟩ := (matchstar_iff hre).1 h
        refine ⟨t :: run, rest, rfl, fun u hu => ?_, hrest⟩
        rcases List.mem_cons.1 hu with rfl | hu
        · exact ht.symm.imp_right Eq.symm
        · exact hrun u hu
      · cases h
    · rintro ⟨run, rest, heq, hrun, hrest⟩
      cases run with
      | nil =>
        rw [List.nil_append] at heq
        exact absurd ((hre _).2 (heq ▸ hrest)) hnow
      | cons u run =>
        obtain ⟨rfl, rfl⟩ := List.cons.inj heq
        have ht : t = c ∨ c = DOT := (hrun t List.mem_cons_self).symm.imp_left Eq.symm
        rw [if_pos ht]
        exact (matchstar_iff hre).2 ⟨run, rest, rfl, fun u hu => hrun u (.tail t hu), hrest⟩

/-- A character of the pattern that is neither starred nor the `$` at the end. -/
theorem matchhere_cons {c : UInt8} {re : List UInt8} (hstar : re.head? ≠ some STAR)
    (hdollar : ¬ (c = DOLLAR ∧ re = [])) (hre : ∀ text, matchhere re text = true ↔ Here re text)
    (text : List UInt8) : matchhere (c :: re) text = true ↔ Here (c :: re) text := by
  rw [here_cons hstar hdollar, matchhere.eq_def]
  dsimp only
  rw [if_neg hstar, if_neg hdollar]
  cases text with
  | nil =>
    constructor
    · intro h
      cases h
    · rintro ⟨t, rest, h, -⟩
      cases h
  | cons t text =>
    dsimp only
    constructor
    · intro h
      split at h
      · next hc => exact ⟨t, text, rfl, hc, (hre text).1 h⟩
      · cases h
    · rintro ⟨u, rest, heq, hc, hrest⟩
      obtain ⟨rfl, rfl⟩ := List.cons.inj heq
      exact (if_pos hc).trans ((hre text).2 hrest)

/-- **`matchhere` finds the pattern at the beginning of the text.** -/
theorem matchhere_iff : ∀ {re : List UInt8} (text : List UInt8),
    matchhere re text = true ↔ Here re text
  | [], text => by
    rw [matchhere.eq_def]
    exact ⟨fun _ => here_nil text, fun _ => rfl⟩
  | [c], text => by
    by_cases hc : c = DOLLAR
    · rw [hc, here_dollar, matchhere.eq_def]
      dsimp only
      rw [if_neg (fun h => by cases h), if_pos ⟨rfl, rfl⟩, List.isEmpty_iff]
    · exact matchhere_cons (fun h => by cases h) (fun h => hc h.1) matchhere_iff text
  | c :: r :: re, text => by
    by_cases hr : r = STAR
    · rw [hr, here_star, matchhere.eq_def]
      dsimp only
      rw [if_pos (by rw [List.head?_cons])]
      exact matchstar_iff matchhere_iff
    · have hstar : (r :: re).head? ≠ some STAR := fun h => hr (Option.some.inj h)
      exact matchhere_cons hstar (fun h => List.cons_ne_nil _ _ h.2) matchhere_iff text

/-- The loop of `match` tries every place. -/
theorem matchFrom_iff {re : List UInt8} : ∀ {text : List UInt8},
    matchFrom re text = true ↔ ∃ before rest, text = before ++ rest ∧ Here re rest
  | [] => by
    rw [matchFrom, matchhere_iff]
    constructor
    · exact fun h => ⟨[], [], rfl, h⟩
    · rintro ⟨before, rest, hnil, h⟩
      rw [(List.append_eq_nil_iff.1 hnil.symm).2] at h
      exact h
  | t :: text => by
    rw [matchFrom]
    by_cases hnow : matchhere re (t :: text) = true
    · rw [if_pos hnow]
      exact ⟨fun _ => ⟨[], t :: text, rfl, (matchhere_iff _).1 hnow⟩, fun _ => rfl⟩
    rw [if_neg hnow, matchFrom_iff]
    constructor
    · rintro ⟨before, rest, rfl, h⟩
      exact ⟨t :: before, rest, rfl, h⟩
    · rintro ⟨before, rest, heq, h⟩
      cases before with
      | nil =>
        rw [List.nil_append] at heq
        exact absurd ((matchhere_iff _).2 (heq ▸ h)) hnow
      | cons u before =>
        obtain ⟨rfl, rfl⟩ := List.cons.inj heq
        exact ⟨before, rest, rfl, h⟩

/-- **The matcher of `grep` is correct.**  It finds a pattern in a text exactly if some part of the
text is in the language of the pattern: a part at the beginning if the pattern starts with `^`, and
one at the end if it ends in `$`. -/
theorem matchText_iff (re text : List UInt8) : matchText re text = true ↔
    ∃ before word after, text = before ++ (word ++ after) ∧
      word ∈ lang (body (unanchored re)) ∧ (re.head? = some CARET → before = []) ∧
      (AtEnd (unanchored re) → after = []) := by
  rw [matchText, unanchored]
  by_cases hre : re.head? = some CARET
  · rw [if_pos hre, if_pos hre, matchhere_iff]
    constructor
    · rintro ⟨word, rest, rfl, hword, hrest⟩
      exact ⟨[], word, rest, rfl, hword, fun _ => rfl, hrest⟩
    · rintro ⟨before, word, rest, rfl, hword, hbefore, hrest⟩
      rw [hbefore hre]
      exact ⟨word, rest, rfl, hword, hrest⟩
  · rw [if_neg hre, if_neg hre, matchFrom_iff]
    constructor
    · rintro ⟨before, _, rfl, word, rest, rfl, hword, hrest⟩
      exact ⟨before, word, rest, rfl, hword, fun h => absurd h hre, hrest⟩
    · rintro ⟨before, word, rest, rfl, hword, -, hrest⟩
      exact ⟨before, word ++ rest, rfl, word, rest, rfl, hword, hrest⟩

end Xv6.User
