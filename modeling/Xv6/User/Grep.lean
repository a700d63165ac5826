import Xv6.Base.Kern
import Xv6.User.Match
import Xv6.User.Ulib

/-!
# `grep`

`grep` of `user/grep.c` reads its input piece by piece into a buffer of 1024 bytes.  It writes the
lines in the buffer that match, moves what is left of the last line to the front, and reads on behind
it.  It stops at the end of the input, and at a line that fills the buffer.

How the input comes in pieces is up to `read`; what `grep` writes does not depend on it
(`grep_writes`).
-/

set_option autoImplicit false

namespace Xv6.User

/-- `sizeof(buf)`. -/
def BUFSIZE : Nat := 1024

def NEWLINE : UInt8 := 10

/-- `buf`, the input that has not been read and what has been written. -/
structure Grep where
  buf : Bytes
  input : List UInt8
  out : List UInt8

/-! ## The program -/

/-- A store to `buf`. -/
def storeBuf (i : Nat) (c : UInt8) : Kern Grep Unit := do
  if i ≥ BUFSIZE then
    panic "store outside buf"
  modify fun s => { s with buf := Function.update s.buf i c }

/-- `read(fd, buf+m, len)`.  It returns at least one byte if there is input and room, and otherwise
as many as `chunk` says for what is left of the input. -/
def readBuf (chunk : Nat → Nat) (m len : Nat) : Kern Grep Nat := do
  let s ← get
  let n := min (max 1 (chunk s.input.length)) (min len s.input.length)
  if m + n > BUFSIZE then
    panic "store outside buf"
  set { s with buf := blit s.buf m (fun i => s.input.getD i 0) n, input := s.input.drop n }
  return n

/-- `write(1, buf+p, n)`. -/
def writeBuf (p n : Nat) : Kern Grep Unit :=
  modify fun s => { s with out := s.out ++ (List.range n).map fun i => s.buf (p + i) }

/-- `strchr(buf+p, c)`, with `k` bytes of `buf` left. -/
def strchr (c : UInt8) : Nat → Nat → Kern Grep (Option Nat)
  | 0, _ => panic "load outside buf"
  | k + 1, p => do
    let s ← get
    if s.buf p = 0 then
      return none
    else if s.buf p = c then
      return some p
    else
      strchr c k (p + 1)

/-- `memmove(buf, buf+p, m)`. -/
def moveBuf (p m : Nat) : Kern Grep Unit := do
  if m > BUFSIZE then
    panic "store outside buf"
  modify fun s => { s with buf := memmove s.buf 0 p m }

/-- The inner loop of `grep`, over the lines in `buf` from `p` on; the result is where the last one
begins, which is not complete. -/
def grepLines (pattern : List UInt8) : Nat → Nat → Kern Grep Nat
  | 0, _ => diverge
  | k + 1, p => do
    match ← strchr NEWLINE (BUFSIZE - p) p with
    | none => return p
    | some q =>
      storeBuf q 0
      let s ← get
      if matchText pattern (cstr s.buf (BUFSIZE - p) p) then
        storeBuf q NEWLINE
        writeBuf p (q + 1 - p)
      grepLines pattern k (q + 1)

/-- The outer loop of `grep`, with `m` bytes of a line in `buf`. -/
def grepFrom (pattern : List UInt8) (chunk : Nat → Nat) : Nat → Nat → Kern Grep Unit
  | 0, _ => diverge
  | k + 1, m => do
    let n ← readBuf chunk m (BUFSIZE - m - 1)
    if n > 0 then
      let m := m + n
      storeBuf m 0
      let p ← grepLines pattern BUFSIZE 0
      if m > 0 then
        moveBuf p (m - p)
        grepFrom pattern chunk k (m - p)
      else
        grepFrom pattern chunk k m

/-- `grep(pattern, fd)`. -/
def grep (pattern : List UInt8) (chunk : Nat → Nat) : Kern Grep Unit := do
  let s ← get
  grepFrom pattern chunk (s.input.length + 1) 0

/-! ## The lines of the input -/

/-- The lines that end in a newline, without it. -/
def lines (input : List UInt8) : List (List UInt8) := (input.splitOn NEWLINE).dropLast

/-- What `grep` is to write: the lines that match, up to the first that is longer than 1022
characters. -/
def matching (pattern input : List UInt8) : List UInt8 :=
  (((lines input).takeWhile fun l => l.length ≤ 1022).filter (matchText pattern)).flatMap
    fun l => l ++ [NEWLINE]

theorem lines_of_not_mem {l : List UInt8} (h : NEWLINE ∉ l) : lines l = [] := by
  have hone : l.splitOn NEWLINE = [l] := by
    rw [List.splitOn]
    refine List.splitOnP_eq_singleton fun x hx => ?_
    exact beq_eq_false_iff_ne.2 fun hx' => h (hx' ▸ hx)
  rw [lines, hone]
  rfl

theorem splitOn_ne_nil (c : UInt8) (l : List UInt8) : l.splitOn c ≠ [] := by
  rw [List.splitOn]
  exact List.splitOnP_ne_nil _ _

theorem lines_cons {l : List UInt8} (h : NEWLINE ∉ l) (rest : List UInt8) :
    lines (l ++ NEWLINE :: rest) = l :: lines rest := by
  have htwo : (l ++ NEWLINE :: rest).splitOn NEWLINE = l :: rest.splitOn NEWLINE := by
    rw [List.splitOn, List.splitOn]
    have hl : ∀ x ∈ l, (x == NEWLINE) = false := fun x hx =>
      beq_eq_false_iff_ne.2 fun hx' => h (hx' ▸ hx)
    exact List.splitOnP_append_cons_of_forall_mem hl NEWLINE (beq_self_eq_true _) rest
  obtain ⟨x, xs, hx⟩ := List.exists_cons_of_ne_nil (splitOn_ne_nil NEWLINE rest)
  rw [lines, lines, htwo, hx, List.dropLast_cons_cons]

theorem matching_of_not_mem (pattern : List UInt8) {l : List UInt8} (h : NEWLINE ∉ l) :
    matching pattern l = [] := by
  rw [matching, lines_of_not_mem h]
  rfl

theorem matching_cons (pattern : List UInt8) {l : List UInt8} (h : NEWLINE ∉ l)
    (hlen : l.length ≤ 1022) (rest : List UInt8) : matching pattern (l ++ NEWLINE :: rest) =
      (if matchText pattern l then l ++ [NEWLINE] else []) ++ matching pattern rest := by
  rw [matching, lines_cons h, List.takeWhile_cons_of_pos (by exact decide_eq_true hlen), matching]
  by_cases hm : matchText pattern l = true
  · rw [List.filter_cons_of_pos hm, List.flatMap_cons, if_pos hm]
  · rw [List.filter_cons_of_neg hm, if_neg hm, List.nil_append]

/-- Nothing is written from a line that is too long on. -/
theorem matching_long (pattern : List UInt8) {l : List UInt8} (h : NEWLINE ∉ l)
    (hlen : 1022 < l.length) (rest : List UInt8) : matching pattern (l ++ rest) = [] := by
  by_cases hrest : NEWLINE ∈ rest
  · obtain ⟨a, b, rfl, ha⟩ := List.eq_append_cons_of_mem hrest
    have hla : NEWLINE ∉ l ++ a := fun hm => (List.mem_append.1 hm).elim h ha
    have hlong : ¬ (l ++ a).length ≤ 1022 := by
      rw [List.length_append]
      omega
    have hstop : (lines (l ++ a ++ NEWLINE :: b)).takeWhile (fun l => l.length ≤ 1022) = [] := by
      rw [lines_cons hla]
      exact List.takeWhile_cons_of_neg fun hle => hlong (of_decide_eq_true hle)
    rw [← List.append_assoc, matching, hstop]
    rfl
  · exact matching_of_not_mem pattern fun hm => (List.mem_append.1 hm).elim h hrest

/-! ## One buffer of lines -/

variable {s : Grep} {pattern : List UInt8}

theorem strchr_succ (c : UInt8) (k p : Nat) : strchr c (k + 1) p s =
    if s.buf p = 0 then .ok none s else if s.buf p = c then .ok (some p) s
      else strchr c k (p + 1) s := by
  rw [strchr]
  show (if s.buf p = 0 then pure none else if s.buf p = c then pure (some p)
    else strchr c k (p + 1) : Kern Grep (Option Nat)) s = _
  split
  · rfl
  · split <;> rfl

/-- `strchr` finds the first one. -/
theorem strchr_some {c : UInt8} (hc : c ≠ 0) : ∀ {l rest : List UInt8} {p k : Nat},
    Holds s.buf p (l ++ c :: rest) → c ∉ l → 0 ∉ l → l.length < k →
    strchr c k p s = .ok (some (p + l.length)) s
  | _, _, _, 0, _, _, _, hk => absurd hk (Nat.not_lt_zero _)
  | [], rest, p, k + 1, h, _, _, _ => by
    have hp : s.buf p = c := h.1
    rw [strchr_succ, if_neg (by rw [hp]; exact hc), if_pos hp]
    rfl
  | x :: l, rest, p, k + 1, h, hx, h0, hk => by
    rw [List.length_cons] at hk
    have hp : s.buf p = x := h.1
    have hx0 : x ≠ 0 := fun h => h0 (by rw [h]; exact List.mem_cons_self)
    have hxc : x ≠ c := fun h => hx (by rw [h]; exact List.mem_cons_self)
    rw [strchr_succ, if_neg (by rw [hp]; exact hx0), if_neg (by rw [hp]; exact hxc),
      strchr_some hc h.2 (fun h => hx (.tail x h)) (fun h => h0 (.tail x h)) (by omega),
      List.length_cons, Nat.add_assoc, Nat.add_comm 1]

/-- `strchr` finds none in a string that has none. -/
theorem strchr_none {c : UInt8} : ∀ {l : List UInt8} {p k : Nat},
    Holds s.buf p l → s.buf (p + l.length) = 0 → c ∉ l → 0 ∉ l → l.length < k →
    strchr c k p s = .ok none s
  | _, _, 0, _, _, _, _, hk => absurd hk (Nat.not_lt_zero _)
  | [], p, k + 1, _, hz, _, _, _ => by rw [strchr_succ, if_pos (by simpa using hz)]
  | x :: l, p, k + 1, h, hz, hx, h0, hk => by
    rw [List.length_cons] at hk hz
    have hp : s.buf p = x := h.1
    have hx0 : x ≠ 0 := fun h => h0 (by rw [h]; exact List.mem_cons_self)
    have hxc : x ≠ c := fun h => hx (by rw [h]; exact List.mem_cons_self)
    rw [strchr_succ, if_neg (by rw [hp]; exact hx0), if_neg (by rw [hp]; exact hxc),
      strchr_none h.2 (by rw [Nat.add_assoc, Nat.add_comm 1]; exact hz) (fun h => hx (.tail x h))
        (fun h => h0 (.tail x h)) (by omega)]

/-- `m` bytes are in `buf`, those from `p` on are `text`, and a zero follows. -/
structure Filled (s : Grep) (p : Nat) (text : List UInt8) (m : Nat) : Prop where
  holds : Holds s.buf p text
  size : p + text.length = m
  zero : s.buf m = 0
  fits : m < BUFSIZE

theorem wp_storeBuf {i : Nat} {c : UInt8} {Q : Unit → Grep → Prop} {E : Halt → Grep → Prop}
    (hi : i < BUFSIZE) (hQ : Q () { s with buf := Function.update s.buf i c }) :
    wp (storeBuf i c) Q E s := by
  rw [storeBuf, if_neg (Nat.not_le.2 hi)]
  exact (wp_modify _).2 hQ

/-- The buffer after a line of it. -/
theorem Filled.next {l rest : List UInt8} {p m : Nat} {s' : Grep}
    (h : Filled s p (l ++ NEWLINE :: rest) m)
    (hb : ∀ i, i ≠ p + l.length → s'.buf i = s.buf i) : Filled s' (p + l.length + 1) rest m := by
  have hsize := h.size
  rw [List.length_append, List.length_cons] at hsize
  refine ⟨?_, by omega, ?_, h.fits⟩
  · exact (holds_append.1 h.holds).2.2.congr fun i h1 h2 => hb i (by omega)
  · rw [hb m (by omega), h.zero]

/-- **The lines in the buffer**: those that match have been written, and the last part is where it
was. -/
theorem grepLines_spec : ∀ {k : Nat} {text : List UInt8} {p m : Nat} {s : Grep},
    Filled s p text m → 0 ∉ text → text.length < k →
    wp (grepLines pattern k p) (fun p' s' => ∃ part written, Filled s' p' part m ∧
        NEWLINE ∉ part ∧ 0 ∉ part ∧ part.length ≤ text.length ∧ s'.input = s.input ∧
        s'.out = s.out ++ written ∧
        ∀ rest, matching pattern (text ++ rest) = written ++ matching pattern (part ++ rest))
      (fun _ _ => False) s
  | 0, _, _, _, _, _, _, hk => absurd hk (Nat.not_lt_zero _)
  | k + 1, text, p, m, s, h, h0, hk => by
    have hfits := h.fits
    have hsize := h.size
    rw [grepLines]
    by_cases hline : NEWLINE ∈ text
    · obtain ⟨l, rest, rfl, hl⟩ := List.eq_append_cons_of_mem hline
      rw [List.length_append, List.length_cons] at hsize hk
      have hpg : BUFSIZE = 1024 := rfl
      have hl0 : 0 ∉ l := fun hm => h0 (List.mem_append_left _ hm)
      have hrest0 : 0 ∉ rest := fun hm => h0 (List.mem_append_right _ (.tail _ hm))
      obtain ⟨hholds, hnl, -⟩ := holds_append.1 h.holds
      refine wp_bind.2 ((wp_of_ok (strchr_some (by decide) h.holds hl hl0 (by omega))).2 ?_)
      refine wp_bind.2 (wp_storeBuf (by omega) ?_)
      refine wp_bind.2 (wp_get.2 ?_)
      have hcstr : cstr (Function.update s.buf (p + l.length) 0) (BUFSIZE - p) p = l :=
        cstr_eq (hholds.congr fun i h1 h2 => Function.update_of_ne (by omega) _ _)
          (Function.update_self _ _ _) hl0 (by omega)
      dsimp only
      rw [hcstr]
      -- what follows begins with the rest of the lines
      have hgo : ∀ s' written, (∀ i, i ≠ p + l.length → s'.buf i = s.buf i) →
          s'.input = s.input → s'.out = s.out ++ written →
          written = (if matchText pattern l then l ++ [NEWLINE] else []) →
          wp (grepLines pattern k (p + l.length + 1)) (fun p' s'' => ∃ part written,
            Filled s'' p' part m ∧ NEWLINE ∉ part ∧ 0 ∉ part ∧
            part.length ≤ (l ++ NEWLINE :: rest).length ∧ s''.input = s.input ∧
            s''.out = s.out ++ written ∧ ∀ rest', matching pattern (l ++ NEWLINE :: rest ++ rest') =
              written ++ matching pattern (part ++ rest')) (fun _ _ => False) s' := by
        intro s' written hb hin hout hw
        refine wp_mono (grepLines_spec (h.next hb) hrest0 (by omega)) (fun p' s'' h'' => ?_)
          fun _ _ he => he
        obtain ⟨part, written', hf, hnl', h0', hlen, hin', hout', hmatch⟩ := h''
        refine ⟨part, written ++ written', hf, hnl', h0', ?_, hin'.trans hin, ?_, fun rest' => ?_⟩
        · rw [List.length_append, List.length_cons]
          omega
        · rw [hout', hout, List.append_assoc]
        · rw [List.append_assoc, List.cons_append, matching_cons pattern hl (by omega), hmatch, hw,
            List.append_assoc]
      by_cases hm : matchText pattern l = true
      · rw [if_pos hm]
        simp only [wp_bind]
        refine wp_storeBuf (by omega) ((wp_modify _).2 (hgo _ (l ++ [NEWLINE]) (fun i hi => ?_) rfl ?_
          (if_pos hm).symm))
        · dsimp only
          rw [Function.update_of_ne hi, Function.update_of_ne hi]
        · have hback : Function.update (Function.update s.buf (p + l.length) 0) (p + l.length) NEWLINE
              = s.buf := by
            rw [Function.update_idem, ← hnl, Function.update_eq_self]
          have hwrite := (holds_append.2 ⟨hholds, hnl, trivial⟩ :
            Holds s.buf p (l ++ [NEWLINE])).map_range
          rw [List.length_append, List.length_singleton] at hwrite
          dsimp only
          rw [hback, show p + l.length + 1 - p = l.length + 1 by omega, hwrite]
      · rw [if_neg hm]
        exact hgo _ [] (fun i hi => Function.update_of_ne hi _ _) rfl (List.append_nil _).symm
          (if_neg hm).symm
    · refine wp_bind.2 ((wp_of_ok (strchr_none h.holds (by rw [hsize]; exact h.zero) hline h0
        (by omega))).2 ?_)
      exact (wp_pure _).2 ⟨text, [], h, hline, h0, Nat.le_refl _, rfl, (List.append_nil _).symm,
        fun rest => (List.nil_append _).symm⟩

/-! ## The whole input -/

/-- The line that is being read, at the front of the buffer. -/
structure Partial (s : Grep) (part : List UInt8) (m : Nat) : Prop where
  holds : Holds s.buf 0 part
  size : part.length = m
  fits : m < BUFSIZE
  line : NEWLINE ∉ part
  nonzero : 0 ∉ part

/-- `read` appends to the line a piece of the input, which is not empty unless the input is or the
buffer is full. -/
theorem Partial.readBuf {part : List UInt8} {m : Nat} (h : Partial s part m) (chunk : Nat → Nat) :
    wp (readBuf chunk m (BUFSIZE - m - 1)) (fun n s' => n ≤ s.input.length ∧ m + n < BUFSIZE ∧
        (n = 0 → s.input = [] ∨ m = 1023) ∧ s'.input = s.input.drop n ∧ s'.out = s.out ∧
        Holds s'.buf 0 (part ++ s.input.take n)) (fun _ _ => False) s := by
  have hfits := h.fits
  have hsize := h.size
  have hpg : BUFSIZE = 1024 := rfl
  rw [Xv6.User.readBuf]
  refine wp_bind.2 (wp_get.2 ?_)
  dsimp only
  generalize hn : min (max 1 (chunk s.input.length)) (min (BUFSIZE - m - 1) s.input.length) = n
  rw [if_neg (by omega)]
  refine wp_bind.2 (wp_set _ |>.2 ((wp_pure _).2 ⟨by omega, by omega, fun h0 => ?_, rfl, rfl, ?_⟩))
  · rw [← List.length_eq_zero_iff]
    omega
  · have hlen : (s.input.take n).length = n := by
      rw [List.length_take]
      omega
    refine holds_append.2 ⟨h.holds.congr fun i h1 h2 => ?_, ?_⟩
    · exact if_neg (by omega)
    · have hpiece : ∀ i, i < (s.input.take n).length →
          s.input.getD i 0 = (s.input.take n).getD i 0 := by
        intro i hi
        rw [hlen] at hi
        rw [List.getD_eq_getElem?_getD, List.getD_eq_getElem?_getD, List.getElem?_take, if_pos hi]
      rw [hsize, Nat.zero_add]
      exact holds_blit s.buf m hpiece hlen.le

/-- What is left of a line is moved to the front. -/
theorem Filled.moveBuf {part : List UInt8} {p m : Nat} (h : Filled s p part m)
    (hline : NEWLINE ∉ part) (h0 : 0 ∉ part) :
    wp (moveBuf p (m - p)) (fun _ s' => Partial s' part (m - p) ∧ s'.input = s.input ∧
      s'.out = s.out) (fun _ _ => False) s := by
  have hfits := h.fits
  have hsize := h.size
  rw [Xv6.User.moveBuf, if_neg (by omega)]
  refine (wp_modify _).2 ⟨⟨?_, by omega, by omega, hline, h0⟩, rfl, rfl⟩
  dsimp only
  rw [memmove_eq, Int.toNat_natCast]
  exact holds_blit s.buf 0 h.holds.getD (by omega)

/-- The outer loop, by the length of the input: what has been written and what is still to be are
together always the same. -/
theorem grepFrom_spec (chunk : Nat → Nat) : ∀ {k : Nat} {part : List UInt8} {m : Nat} {s : Grep},
    Partial s part m → 0 ∉ s.input → s.input.length < k →
    wp (grepFrom pattern chunk k m) (fun _ s' => s'.out = s.out ++ matching pattern (part ++ s.input))
      (fun _ _ => False) s
  | 0, _, _, _, _, _, hk => absurd hk (Nat.not_lt_zero _)
  | k + 1, part, m, s, h, h0, hk => by
    have hsize := h.size
    rw [grepFrom]
    refine wp_bind.2 (wp_mono (h.readBuf chunk) (fun n s₁ h₁ => ?_) fun _ _ he => he)
    obtain ⟨hn, hfit, hend, hin, hout, hholds⟩ := h₁
    by_cases hpos : n > 0
    · rw [if_pos hpos]
      have htext0 : 0 ∉ part ++ s.input.take n := fun hm =>
        (List.mem_append.1 hm).elim h.nonzero fun hm => h0 (List.mem_of_mem_take hm)
      have hlen : (part ++ s.input.take n).length = m + n := by
        rw [List.length_append, List.length_take]
        omega
      refine wp_bind.2 (wp_storeBuf hfit ?_)
      have hfilled : Filled { s₁ with buf := Function.update s₁.buf (m + n) 0 } 0
          (part ++ s.input.take n) (m + n) :=
        ⟨hholds.congr fun i h1 h2 => Function.update_of_ne (by omega) _ _, by omega,
          Function.update_self _ _ _, hfit⟩
      refine wp_bind.2 (wp_mono (grepLines_spec hfilled htext0 (by omega)) (fun p s₂ h₂ => ?_)
        fun _ _ he => he)
      obtain ⟨part', written, hf, hline, hz, -, hin₂, hout₂, hmatch⟩ := h₂
      rw [if_pos (by omega)]
      refine wp_bind.2 (wp_mono (hf.moveBuf hline hz) (fun _ s₃ h₃ => ?_) fun _ _ he => he)
      obtain ⟨hpart, hin₃, hout₃⟩ := h₃
      have hinput : s₃.input = s.input.drop n := by rw [hin₃, hin₂, hin]
      refine wp_mono (grepFrom_spec chunk hpart ?_ ?_) (fun _ s' h' => ?_) fun _ _ he => he
      · rw [hinput]
        exact fun hm => h0 (List.mem_of_mem_drop hm)
      · rw [hinput, List.length_drop]
        omega
      · have hall := hmatch (s.input.drop n)
        rw [List.append_assoc, List.take_append_drop] at hall
        rw [h', hout₃, hout₂, hinput, hall, ← List.append_assoc]
        dsimp only
        rw [hout]
    · rw [if_neg hpos]
      refine (wp_pure _).2 ?_
      have hnone : matching pattern (part ++ s.input) = [] := by
        rcases hend (by omega) with hnil | hfull
        · rw [hnil, List.append_nil]
          exact matching_of_not_mem pattern h.line
        · exact matching_long pattern h.line (by omega) s.input
      rw [hout, hnone, List.append_nil]

/-- **What `grep` writes does not depend on how `read` splits the input.**  On an input without
zeros it returns, it has written the lines that match, up to the first that is longer than 1022
characters, and it never stores outside `buf`. -/
theorem grep_writes (pattern : List UInt8) (chunk : Nat → Nat) (s : Grep) (h : 0 ∉ s.input) :
    ∃ s', grep pattern chunk s = .ok () s' ∧ s'.out = s.out ++ matching pattern s.input := by
  have hempty : Partial s [] 0 :=
    ⟨trivial, rfl, by decide, List.not_mem_nil, List.not_mem_nil⟩
  have hspec : wp (grepFrom pattern chunk (s.input.length + 1) 0)
      (fun _ s' => s'.out = s.out ++ matching pattern s.input) (fun _ _ => False) s :=
    grepFrom_spec chunk hempty h (Nat.lt_succ_self _)
  obtain ⟨_, s', hrun, hout⟩ := hspec.exists_ok
  exact ⟨s', hrun, hout⟩

/-- Two lines, read in pieces of three bytes. -/
theorem grep_writes_ab : ∃ s', grep [97] (fun _ => 3) ⟨fun _ => 0, [97, 98, 10, 99, 10], []⟩ =
    .ok () s' ∧ s'.out = [] ++ matching [97] [97, 98, 10, 99, 10] :=
  grep_writes [97] (fun _ => 3) ⟨fun _ => 0, [97, 98, 10, 99, 10], []⟩ (by decide)

end Xv6.User
