import Mathlib.Data.List.Infix
import Xv6.Console.Console

/-!
# Lines

What the console is for, in terms of lists: the characters that are committed and not yet read
(`Cons.pending`), followed by the line that is being edited (`Cons.line`).  A keystroke edits the
line, or commits it; a read takes characters off the front.  Here the functions of the console are
shown to do that, and what follows for every interleaving of keystrokes and reads.
-/

set_option autoImplicit false

namespace Xv6.Console

theorem input_dvd : INPUT_BUF_SIZE ∣ UINT := ⟨2 ^ 25, by decide⟩

theorem input_lt : INPUT_BUF_SIZE < UINT := by decide

/-! ## The buffer as two lists -/

/-- The indices are in range and in order, and the buffer is not over-full. -/
structure Cons.Ok (x : Cons) : Prop where
  r_lt : x.r < UINT
  w_lt : x.w < UINT
  e_lt : x.e < UINT
  le : x.pending.length + x.line.length ≤ INPUT_BUF_SIZE

section

variable {x : Cons}

theorem Cons.between_congr {x y : Cons} {i j : Nat} (h : x.buf = y.buf) :
    x.between i j = y.between i j := by
  rw [Cons.between, Cons.between, h]

theorem Cons.length_pending :
    x.pending.length = RingBuffer.count UINT (⟨x.buf, x.r, x.w⟩ : RingBuffer UInt8) :=
  RingBuffer.length_contents

theorem Cons.length_line :
    x.line.length = RingBuffer.count UINT (⟨x.buf, x.w, x.e⟩ : RingBuffer UInt8) :=
  RingBuffer.length_contents

/-- The committed characters, as a ring buffer. -/
theorem Cons.Ok.front (h : x.Ok) :
    RingBuffer.Ok INPUT_BUF_SIZE UINT (⟨x.buf, x.r, x.w⟩ : RingBuffer UInt8) := by
  refine ⟨h.r_lt, h.w_lt, ?_⟩
  rw [← Cons.length_pending]
  exact (Nat.le_add_right _ _).trans h.le

/-- The line, as a ring buffer. -/
theorem Cons.Ok.back (h : x.Ok) :
    RingBuffer.Ok INPUT_BUF_SIZE UINT (⟨x.buf, x.w, x.e⟩ : RingBuffer UInt8) := by
  refine ⟨h.w_lt, h.e_lt, ?_⟩
  rw [← Cons.length_line]
  exact (Nat.le_add_left _ _).trans h.le

/-- The whole buffer. -/
theorem Cons.Ok.whole (h : x.Ok) : x.count = x.pending.length + x.line.length ∧
    x.between x.r x.e = x.pending ++ x.line := by
  have hlt := input_lt
  have hle := h.le
  rw [Cons.length_pending, Cons.length_line] at hle ⊢
  exact RingBuffer.contents_append input_dvd h.r_lt h.w_lt h.e_lt (hle.trans_lt hlt)

theorem Cons.Ok.pending_nil (h : x.Ok) : x.r = x.w ↔ x.pending = [] := by
  rw [← List.length_eq_zero_iff, Cons.length_pending]
  exact h.front.empty_iff

theorem Cons.Ok.line_nil (h : x.Ok) : x.w = x.e ↔ x.line = [] := by
  rw [← List.length_eq_zero_iff, Cons.length_line]
  exact h.back.empty_iff

/-- A character is stored at the end of the line. -/
theorem Cons.Ok.store (h : x.Ok) (hc : x.count < INPUT_BUF_SIZE) (c : UInt8) :
    (x.store c).Ok ∧ (x.store c).pending = x.pending ∧ (x.store c).line = x.line ++ [c] := by
  obtain ⟨hcount, -⟩ := h.whole
  have hlt := input_lt
  have hline : RingBuffer.count UINT (⟨x.buf, x.w, x.e⟩ : RingBuffer UInt8) < INPUT_BUF_SIZE := by
    rw [← Cons.length_line]
    exact lt_of_le_of_lt (Nat.le_add_left _ _) (hcount ▸ hc)
  obtain ⟨hok, hpush⟩ := h.back.push hlt input_dvd hline c
  -- the cell of the new character is none of those of the committed ones
  have hpend : (x.store c).pending = x.pending := by
    have hcell : x.e % INPUT_BUF_SIZE = (x.r + x.count) % INPUT_BUF_SIZE :=
      RingBuffer.nwrite_mod (x := ⟨x.buf, x.r, x.e⟩) h.r_lt h.e_lt input_dvd
    refine List.map_congr_left fun j hj => ?_
    have hj : j < x.pending.length := Cons.length_pending ▸ List.mem_range.1 hj
    show Function.update x.buf (x.e % INPUT_BUF_SIZE) c _ = _
    rw [hcell]
    exact Function.update_of_ne (RingBuffer.cell_ne (by omega) hc) _ _
  have hl : (x.store c).line = x.line ++ [c] := hpush
  refine ⟨⟨h.r_lt, h.w_lt, hok.nwrite_lt, ?_⟩, hpend, hl⟩
  rw [hpend, hl, List.length_append, List.length_singleton]
  omega

theorem Cons.erase_buf : x.erase.buf = x.buf := by rw [Cons.erase]

theorem Cons.erase_r : x.erase.r = x.r := by rw [Cons.erase]

theorem Cons.erase_w : x.erase.w = x.w := by rw [Cons.erase]

/-- The last character of the line is erased. -/
theorem Cons.Ok.erase (h : x.Ok) (hne : x.line ≠ []) :
    x.erase.Ok ∧ x.erase.pending = x.pending ∧
      x.line = x.erase.line ++ [x.char ((x.e + UINT - 1) % UINT)] := by
  have hpos : 0 < RingBuffer.count UINT (⟨x.buf, x.w, x.e⟩ : RingBuffer UInt8) := by
    rw [← Cons.length_line]
    exact List.length_pos_iff.2 hne
  obtain ⟨hok, hlast⟩ := h.back.unpush input_dvd hpos
  have hl : x.line = x.erase.line ++ [x.char ((x.e + UINT - 1) % UINT)] := hlast
  have hp : x.erase.pending = x.pending := by
    rw [Cons.pending, Cons.pending, Cons.erase_r, Cons.erase_w]
    exact Cons.between_congr Cons.erase_buf
  have hle : x.erase.pending.length + x.erase.line.length ≤ INPUT_BUF_SIZE := by
    have hle := h.le
    rw [hl, List.length_append, List.length_singleton, ← Nat.add_assoc] at hle
    rw [hp]
    exact (Nat.le_succ _).trans hle
  have hr : x.erase.r < UINT := by rw [Cons.erase_r]; exact h.r_lt
  have hw : x.erase.w < UINT := by rw [Cons.erase_w]; exact h.w_lt
  exact ⟨⟨hr, hw, hok.nwrite_lt, hle⟩, hp, hl⟩

/-- The line is committed. -/
theorem Cons.Ok.commit (h : x.Ok) : Cons.Ok { x with w := x.e } ∧
    Cons.pending { x with w := x.e } = x.pending ++ x.line ∧ Cons.line { x with w := x.e } = [] := by
  have hall : Cons.pending { x with w := x.e } = x.pending ++ x.line := by
    rw [← h.whole.2]
    exact Cons.between_congr rfl
  have hnil : Cons.line { x with w := x.e } = [] := by
    rw [Cons.line]
    exact (RingBuffer.ok_of_eq (x := ⟨x.buf, x.e, x.e⟩) rfl h.e_lt).2
  refine ⟨⟨h.r_lt, h.e_lt, h.e_lt, ?_⟩, hall, hnil⟩
  rw [hall, hnil, List.length_append, List.length_nil, Nat.add_zero]
  exact h.le

/-- The oldest committed character is read. -/
theorem Cons.Ok.take (h : x.Ok) (hne : x.r ≠ x.w) :
    Cons.Ok { x with r := (x.r + 1) % UINT } ∧
      x.pending = x.char x.r :: Cons.pending { x with r := (x.r + 1) % UINT } := by
  have hpos : 0 < RingBuffer.count UINT (⟨x.buf, x.r, x.w⟩ : RingBuffer UInt8) := by
    rw [← Cons.length_pending]
    exact List.length_pos_iff.2 fun hnil => hne (h.pending_nil.2 hnil)
  obtain ⟨hok, hpop⟩ := h.front.pop input_dvd hpos
  have hp : x.pending = x.char x.r :: Cons.pending { x with r := (x.r + 1) % UINT } := hpop
  refine ⟨⟨hok.nread_lt, h.w_lt, h.e_lt, ?_⟩, hp⟩
  have hle := h.le
  rw [hp, List.length_cons] at hle
  exact (Nat.add_le_add_right (Nat.le_succ _) _).trans hle

/-- Putting back the character just read. -/
theorem Cons.Ok.pred_succ (h : x.Ok) : ((x.r + 1) % UINT + UINT - 1) % UINT = x.r := by
  have hr := h.r_lt
  rcases RingBuffer.succ_mod_cases hr with h1 | h1 <;>
    rcases RingBuffer.pred_mod_cases (Nat.mod_lt (x.r + 1) (Nat.zero_lt_of_lt hr)) with h2 | h2 <;>
      omega

end

/-! ## The line discipline on lists -/

/-- What the console holds. -/
structure Tty where
  pending : List UInt8
  line : List UInt8

/-- The console's buffer, as lists. -/
def Cons.tty (x : Cons) : Tty := ⟨x.pending, x.line⟩

/-- A keystroke. -/
def Tty.key (c : UInt8) (t : Tty) : Tty :=
  if c = ctrl 'P' then t
  else if c = ctrl 'U' then { t with line := [] }
  else if c = ctrl 'H' ∨ c = delete then { t with line := t.line.dropLast }
  else if c = ctrl 'C' then t
  else if c ≠ 0 ∧ t.pending.length + t.line.length < INPUT_BUF_SIZE then
    let c := if c = carriageReturn then newline else c
    if c = newline ∨ c = ctrl 'D' ∨ t.pending.length + t.line.length + 1 = INPUT_BUF_SIZE then
      ⟨t.pending ++ (t.line ++ [c]), []⟩
    else { t with line := t.line ++ [c] }
  else t

/-- A call of `consoleread(target)` with the bytes `got`, up to where it sleeps or returns: what
is left, what it has taken, and how it ends. -/
def takeLine (killed : Bool) (target : Nat) :
    List UInt8 → (n : Nat) → (got : List UInt8) → List UInt8 × List UInt8 × Out
  | p, 0, got => (p, [], .done got)
  | [], n + 1, got => ([], [], if killed then .killed got else .sleep (n + 1) got)
  | c :: p, n + 1, got =>
    if c = ctrl 'D' then
      if n + 1 < target then (c :: p, [], .done got) else (p, [c], .done got)
    else if c = newline then (p, [c], .done (got ++ [c]))
    else
      let y := takeLine killed target p n (got ++ [c])
      (y.1, c :: y.2.1, y.2.2)

/-- Ctrl-U empties a line with no newline in it. -/
theorem Cons.Ok.killLine {x : Cons} (h : x.Ok) (hnl : newline ∉ x.line) :
    ∀ k, x.line.length ≤ k → (x.killLine k).Ok ∧ (x.killLine k).tty = ⟨x.pending, []⟩ ∧
      (x.killLine k).buf = x.buf ∧ (x.killLine k).r = x.r ∧ (x.killLine k).w = x.w := by
  intro k
  induction k generalizing x with
  | zero =>
    intro hk
    have hnil : x.line = [] := List.length_eq_zero_iff.1 (Nat.le_zero.1 hk)
    exact ⟨h, congrArg _ hnil, rfl, rfl, rfl⟩
  | succ k ih =>
    intro hk
    rw [Cons.killLine]
    by_cases hnil : x.line = []
    · rw [if_neg fun hc => hc.1 (h.line_nil.2 hnil).symm]
      exact ⟨h, congrArg _ hnil, rfl, rfl, rfl⟩
    · obtain ⟨hok, hp, hl⟩ := h.erase hnil
      rw [hl, List.length_append, List.length_singleton] at hk
      rw [hl, List.mem_append, List.mem_singleton, not_or] at hnl
      obtain ⟨h1, h2, h3⟩ := ih hok hnl.1 (Nat.le_of_succ_le_succ hk)
      rw [if_pos ⟨fun he => hnil (h.line_nil.1 he.symm), fun he => hnl.2 he.symm⟩]
      rw [hp] at h2
      rw [Cons.erase_buf, Cons.erase_r, Cons.erase_w] at h3
      exact ⟨h1, h2, h3⟩

/-- The keys that edit the line. -/
def Edits (c : UInt8) : Prop := c = ctrl 'U' ∨ c = ctrl 'H' ∨ c = delete

/-- What a keystroke does to the buffer: it stays within its bounds, and holds what it should; what
is new between `w` and the old `w` is what was committed; and editing leaves all but `e` alone. -/
structure Keyed (c : UInt8) (x y : Cons) : Prop where
  ok : y.Ok
  tty : y.tty = x.tty.key c
  pending : y.pending = x.pending ++ y.between x.w y.w
  edits : Edits c → y.buf = x.buf ∧ y.r = x.r ∧ y.w = x.w

/-- A keystroke that commits nothing. -/
theorem Keyed.of_w {c : UInt8} {x y : Cons} (hx : x.Ok) (hok : y.Ok) (htty : y.tty = x.tty.key c)
    (hp : y.pending = x.pending) (hw : y.w = x.w)
    (he : Edits c → y.buf = x.buf ∧ y.r = x.r ∧ y.w = x.w) : Keyed c x y := by
  refine ⟨hok, htty, ?_, he⟩
  have hnil : y.between x.w x.w = [] :=
    (RingBuffer.ok_of_eq (x := ⟨y.buf, x.w, x.w⟩) rfl hx.w_lt).2
  rw [hw, hnil, List.append_nil, hp]

/-- A key that is stored, as the character `c`. -/
theorem Cons.Ok.stored {x : Cons} (h : x.Ok) (hc : x.count < INPUT_BUF_SIZE) (c : UInt8)
    {k : UInt8} (hk : ¬ Edits k)
    (hkey : x.tty.key k =
      if c = newline ∨ c = ctrl 'D' ∨
          x.tty.pending.length + x.tty.line.length + 1 = INPUT_BUF_SIZE then
        ⟨x.tty.pending ++ (x.tty.line ++ [c]), []⟩
      else { x.tty with line := x.tty.line ++ [c] }) :
    Keyed k x
      (if c = newline ∨ c = ctrl 'D' ∨ (x.store c).count = INPUT_BUF_SIZE then
        { x.store c with w := (x.store c).e } else x.store c) := by
  obtain ⟨hok, hp, hl⟩ := h.store hc c
  have hcount : (x.store c).count = x.tty.pending.length + x.tty.line.length + 1 := by
    rw [hok.whole.1, hp, hl, List.length_append, List.length_singleton, ← Nat.add_assoc]
    rfl
  rw [← hcount] at hkey
  split_ifs at hkey ⊢ with hcommit
  · obtain ⟨hok', hp', hl'⟩ := hok.commit
    refine ⟨hok', ?_, ?_, fun he => absurd he hk⟩
    · rw [hkey, Cons.tty, hp', hl', hp, hl]
      rfl
    · rw [hp', hp]
      rfl
  · refine .of_w h hok ?_ hp rfl fun he => absurd he hk
    rw [hkey, Cons.tty, hp, hl]
    rfl

/-- **`consoleintr` is the line discipline on lists.** -/
theorem Cons.Ok.keyed {x : Cons} (h : x.Ok) (hnl : newline ∉ x.line) (c : UInt8) :
    Keyed c x (consoleintr c x) := by
  have hcount : x.count = x.tty.pending.length + x.tty.line.length := h.whole.1
  have hsame : x.tty = x.tty.key c → Keyed c x x := fun he =>
    .of_w h h he rfl rfl fun _ => ⟨rfl, rfl, rfl⟩
  rw [consoleintr]
  split_ifs with hP hU hH hne hC hstore hcr
  · exact hsame (by rw [Tty.key, if_pos hP])
  · obtain ⟨h1, h2, h3⟩ := h.killLine hnl ((x.e + UINT - x.w) % UINT) Cons.length_line.le
    have hp := congrArg Tty.pending h2
    exact .of_w h h1 (by rw [h2, Tty.key, if_neg hP, if_pos hU]; rfl) hp h3.2.2 fun _ => h3
  · have hnil : x.line ≠ [] := fun hnil => hne (h.line_nil.2 hnil).symm
    obtain ⟨h1, h2, h3⟩ := h.erase hnil
    refine .of_w h h1 ?_ h2 Cons.erase_w fun _ => ⟨Cons.erase_buf, Cons.erase_r, Cons.erase_w⟩
    rw [Tty.key, if_neg hP, if_neg hU, if_pos hH, Cons.tty, Cons.tty, h2, h3, List.dropLast_concat]
  · have hnil : x.line = [] := h.line_nil.1 (not_ne_iff.1 hne).symm
    refine hsame ?_
    rw [Tty.key, if_neg hP, if_neg hU, if_pos hH, Cons.tty, hnil]
    rfl
  · exact hsame (by rw [Tty.key, if_neg hP, if_neg hU, if_neg hH, if_pos hC])
  · refine h.stored hstore.2 newline (fun he => he.elim hU hH) ?_
    rw [hcount] at hstore
    rw [Tty.key, if_neg hP, if_neg hU, if_neg hH, if_neg hC, if_pos hstore, if_pos hcr]
  · refine h.stored hstore.2 c (fun he => he.elim hU hH) ?_
    rw [hcount] at hstore
    rw [Tty.key, if_neg hP, if_neg hU, if_neg hH, if_neg hC, if_pos hstore, if_neg hcr]
  · rw [hcount] at hstore
    exact hsame (by rw [Tty.key, if_neg hP, if_neg hU, if_neg hH, if_neg hC, if_neg hstore])

/-- The line has no newline in it, after a keystroke as before. -/
theorem Tty.newline_notMem_key {t : Tty} (h : newline ∉ t.line) (c : UInt8) :
    newline ∉ (t.key c).line := by
  have hstore : ∀ d, newline ∉
      (if d = newline ∨ d = ctrl 'D' ∨ t.pending.length + t.line.length + 1 = INPUT_BUF_SIZE then
        (⟨t.pending ++ (t.line ++ [d]), []⟩ : Tty) else { t with line := t.line ++ [d] }).line := by
    intro d
    split_ifs with hcommit
    · exact List.not_mem_nil
    · rw [List.mem_append, List.mem_singleton]
      exact fun hm => hm.elim h fun he => hcommit (.inl he.symm)
  rw [Tty.key]
  split_ifs with hP hU hH hC hin hcr
  · exact h
  · exact List.not_mem_nil
  · exact fun hm => h (List.mem_of_mem_dropLast hm)
  · exact h
  · exact hstore newline
  · exact hstore c
  · exact h

/-- `consoleread` takes from the list of what is pending. -/
theorem Cons.Ok.takes {x : Cons} (h : x.Ok) (killed : Bool) (target n : Nat) (got : List UInt8) :
    (consoleread killed target x n got).1.Ok ∧
      (consoleread killed target x n got).1.line = x.line ∧
      ((consoleread killed target x n got).1.pending, (consoleread killed target x n got).2) =
        takeLine killed target x.pending n got := by
  induction n generalizing x got with
  | zero => exact ⟨h, rfl, by rw [consoleread, takeLine]⟩
  | succ n ih =>
    rw [consoleread]
    by_cases hw : x.r = x.w
    · rw [if_pos hw, h.pending_nil.1 hw, takeLine]
      exact ⟨h, rfl, rfl⟩
    · obtain ⟨hok, hp⟩ := h.take hw
      rw [if_neg hw, hp, takeLine]
      dsimp only
      split_ifs with hD hn hnl
      · -- the index is back where it was
        rw [h.pred_succ]
        exact ⟨h, rfl, by rw [← hp]⟩
      · exact ⟨hok, Cons.between_congr rfl, rfl⟩
      · exact ⟨hok, Cons.between_congr rfl, rfl⟩
      · obtain ⟨h1, h2, h3⟩ := ih hok (got ++ [x.char x.r])
        refine ⟨h1, h2.trans (Cons.between_congr rfl), ?_⟩
        rw [← h3]

end Xv6.Console
