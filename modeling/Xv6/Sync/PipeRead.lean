import Xv6.Sync.Pipe
import Xv6.Vm.Exact

/-!
# `piperead` and the reader's buffer

`Sync/Pipe` takes the outcome of each `copyout` as given.  Here it is the `copyout` of `Vm`, into
the page table of the reader: `piperead` takes a byte out of the ring and then tries to store it,
so a byte that cannot be stored is gone.  What is left of the pipe and of the buffer is stated for
every page table, address and length (`piperead_spec`); the call consumes what it returns exactly
if the reader may write every byte that is there for it (`piperead_consumes_iff`).
-/

set_option autoImplicit false

namespace Xv6

namespace Pipe

/-- What `piperead` works on: the ring of the pipe and its `writeopen`, `killed(pr)`, and memory. -/
structure Reader where
  ring : RingBuffer UInt8
  writeopen : Bool
  killed : Bool
  mem : Mem

namespace Reader

/-- The bytes in the pipe. -/
def contents (s : Reader) : List UInt8 := s.ring.contents PIPESIZE UINT

/-- Code that only works on memory. -/
def onMem {α : Type} : Kern Mem α → Kern Reader α := zoom mem fun s m => { s with mem := m }

end Reader

/-- The loop of `piperead` with `left` iterations to go; the last argument is `i`.  `pi->nread` has
been advanced when `copyout` is called. -/
def pipereadFrom (t addr : Nat) : Nat → Nat → Kern Reader Nat
  | 0, i => pure i
  | left + 1, i => do
    let s ← get
    if s.ring.nread = s.ring.nwrite then return i
    let ch := s.ring.front PIPESIZE
    set { s with ring := s.ring.pop UINT }
    let r ← Reader.onMem (copyout t ((addr + i) % 2 ^ 64) (fun _ => ch) 1)
    if r = -1 then return i
    pipereadFrom t addr left (i + 1)

/-- `piperead(pi, addr, n)` by a process with the page table `t`.  A reader that sleeps holds no
byte and makes its tests again when it wakes up, so the rest of its call is the call from the state
of that moment. -/
def piperead (t addr : Nat) (n : Int) : Kern Reader Int := do
  let s ← get
  if s.ring.nread = s.ring.nwrite ∧ s.writeopen then
    if s.killed then return -1 else sleep
  else
    let i ← pipereadFrom t addr n.toNat 0
    return i

/-! ### One byte -/

section

variable {m : Mem} {t : Nat}

/-- `copyout` of one byte. -/
theorem copyout_one (ht : TablesApart m.ram t) (hd : Distinct m.ram t) (a : Nat) (ch : UInt8) :
    wp (copyout t a (fun _ => ch) 1)
      (fun r m' => r = (if CanWrite (leaf m.ram t) a then 0 else -1) ∧
        leaf m'.ram t = leaf m.ram t ∧ TablesApart m'.ram t ∧
        ∀ x, CanWrite (leaf m.ram t) x → ubyte m' t x =
          if CanWrite (leaf m.ram t) a ∧ x = a then ch else ubyte m t x)
      (fun _ _ => False) m := by
  obtain ⟨m', hrun, hw⟩ := copyout_eq ht a (fun _ => ch) 1
  have hlead : lead (CanWrite (leaf m.ram t)) a 1 = if CanWrite (leaf m.ram t) a then 1 else 0 := by
    rw [lead, lead_zero]
  rw [hlead] at hrun hw
  refine (wp_of_ok hrun).2 ⟨?_, hw.leaf, ht.congr hw.tables, fun x hx => ?_⟩
  · split <;> rfl
  by_cases ha : CanWrite (leaf m.ram t) a
  · rw [if_pos ha] at hw
    by_cases hxa : x = a
    · rw [if_pos ⟨ha, hxa⟩, hxa]
      exact hw.last 0 Nat.one_pos fun j h1 h2 => absurd h2 (by omega)
    · rw [if_neg fun h => hxa h.2, ubyte, hw.leaf, hw.frame _ _ fun i hi heq => hxa ?_, ubyte]
      obtain rfl : i = 0 := by omega
      exact (hd.place_inj ha hx heq).symm
  · rw [if_neg ha] at hw
    rw [if_neg fun h => ha h.1, ubyte, hw.leaf, hw.frame _ _ fun i hi => absurd hi i.not_lt_zero,
      ubyte]

end

/-! ### The loop -/

/-- The reader may write byte `j` of its buffer. -/
def Fits (lf : Nat → Nat) (addr j : Nat) : Prop := CanWrite lf ((addr + j) % 2 ^ 64)

instance (lf : Nat → Nat) (addr : Nat) : DecidablePred (Fits lf addr) := fun _ =>
  inferInstanceAs (Decidable (CanWrite _ _))

/-- How many bytes the loop of `piperead` has for its reader. -/
abbrev Reader.ready (s : Reader) (left : Nat) : Nat := min left (s.ring.count UINT)

/-- What the loop of `piperead` leaves behind from iteration `i` on, if it stores `c` bytes out of
the `w` that are there: a byte that it failed to store is taken out as well. -/
structure Looped (t addr i c w : Nat) (s s' : Reader) : Prop where
  ring : s'.ring.Ok PIPESIZE UINT
  left : s'.contents = s.contents.drop (if c = w then c else c + 1)
  stored : ∀ j, j < c → s.contents[j]? = some (ubyte s'.mem t ((addr + (i + j)) % 2 ^ 64))
  frame : ∀ x, CanWrite (leaf s.mem.ram t) x → (∀ j, j < c → x ≠ (addr + (i + j)) % 2 ^ 64) →
    ubyte s'.mem t x = ubyte s.mem t x

variable {s : Reader} {t addr : Nat}

theorem Reader.length_contents (s : Reader) : s.contents.length = s.ring.count UINT :=
  RingBuffer.length_contents

/-- An iteration that stores its byte, and the rest of the loop. -/
theorem Looped.cons {s s₁ s' : Reader} {i c w : Nat} {ch : UInt8}
    (h : Looped t addr (i + 1) c w s₁ s') (hcons : s.contents = ch :: s₁.contents)
    (hleaf : leaf s₁.mem.ram t = leaf s.mem.ram t) (hc : c < 512) (hfit : Fits (leaf s.mem.ram t) addr i)
    (hbyte : ∀ x, CanWrite (leaf s.mem.ram t) x → ubyte s₁.mem t x =
      if x = (addr + i) % 2 ^ 64 then ch else ubyte s.mem t x) :
    Looped t addr i (c + 1) (w + 1) s s' := by
  -- the buffer is too short to come back to the byte just stored
  have hne : ∀ j, j < c → (addr + i) % 2 ^ 64 ≠ (addr + (i + 1 + j)) % 2 ^ 64 := fun j hj => by
    omega
  refine ⟨h.ring, ?_, fun j hj => ?_, fun x hx hx' => ?_⟩
  · rw [h.left, hcons]
    split <;> rename_i hcw
    · rw [if_pos (by omega), List.drop_succ_cons]
    · rw [if_neg (by omega), List.drop_succ_cons]
  · rw [hcons]
    cases j with
    | zero =>
      rw [List.getElem?_cons_zero, Nat.add_zero, h.frame _ (by rw [hleaf]; exact hfit) hne,
        hbyte _ hfit, if_pos rfl]
    | succ j =>
      rw [List.getElem?_cons_succ, h.stored j (by omega), Nat.add_comm j 1, Nat.add_assoc i 1 j]
  · rw [h.frame x (by rw [hleaf]; exact hx) fun j hj => ?_, hbyte x hx, if_neg]
    · exact hx' 0 (Nat.succ_pos c)
    · rw [Nat.add_assoc i 1 j, Nat.add_comm 1 j]
      exact hx' (j + 1) (by omega)

/-- **What the loop of `piperead` does**: it stores bytes up to the first that the reader may not
write. -/
theorem pipereadFrom_spec : ∀ {left i c : Nat} {s : Reader}, s.ring.Ok PIPESIZE UINT →
    TablesApart s.mem.ram t → Distinct s.mem.ram t → c = lead (Fits (leaf s.mem.ram t) addr) i (s.ready left) →
    wp (pipereadFrom t addr left i)
      (fun r s' => r = i + c ∧ Looped t addr i c (s.ready left) s s') (fun _ _ => False) s
  | 0, i, c, s, hok, _, _, hc => by
    rw [Reader.ready, Nat.zero_min, lead_zero] at hc
    rw [pipereadFrom, wp_pure, hc, Reader.ready, Nat.zero_min]
    exact ⟨rfl, hok, rfl, fun j hj => absurd hj j.not_lt_zero, fun _ _ _ => rfl⟩
  | left + 1, i, c, s, hok, ht, hd, hc => by
    rw [pipereadFrom, wp_bind, wp_get]
    by_cases hempty : s.ring.nread = s.ring.nwrite
    · have hcount := hok.empty_iff.1 hempty
      rw [Reader.ready, hcount, Nat.min_zero, lead_zero] at hc
      rw [if_pos hempty, wp_pure, hc, Reader.ready, hcount, Nat.min_zero]
      exact ⟨rfl, hok, rfl, fun j hj => absurd hj j.not_lt_zero, fun _ _ _ => rfl⟩
    · have hpos : 0 < s.ring.count UINT := Nat.pos_of_ne_zero fun h0 => hempty (hok.empty_iff.2 h0)
      obtain ⟨hok₁, hcons⟩ := hok.pop PIPESIZE_dvd hpos
      have hcount := hok.count_pop hpos
      have hsmall : s.ring.count UINT ≤ 512 := hok.count_le
      have hready : s.ready (left + 1) = min left ((s.ring.pop UINT).count UINT) + 1 := by
        rw [Reader.ready]
        omega
      rw [hready, lead] at hc
      rw [if_neg hempty, wp_bind, wp_set, wp_bind, Reader.onMem, wp_zoom]
      refine wp_mono (copyout_one ht hd _ _) (fun r m' h' => ?_) fun _ _ h => h
      obtain ⟨hr, hleaf, ht', hbyte⟩ := h'
      generalize hs₁ : Reader.mk _ _ _ m' = s₁
      have hring : s₁.ring = s.ring.pop UINT := by rw [← hs₁]
      have hmem : s₁.mem = m' := by rw [← hs₁]
      rw [← hmem] at hleaf ht' hbyte
      rw [← hring] at hok₁ hcons hcount hready hc
      have hd' : Distinct s₁.mem.ram t := by
        rw [Distinct, hleaf]
        exact hd
      by_cases hfit : Fits (leaf s.mem.ram t) addr i
      · rw [if_pos hfit] at hc
        have hr0 : r = 0 := hr.trans (if_pos hfit)
        have hle := lead_le (Fits (leaf s.mem.ram t) addr) (i + 1) (s₁.ready left)
        rw [if_neg (by rw [hr0]; decide)]
        refine wp_mono (pipereadFrom_spec hok₁ ht' hd' rfl) (fun r' s' h' => ?_) fun _ _ h => h
        obtain ⟨hr', hloop⟩ := h'
        rw [hleaf] at hr' hloop
        rw [hc, hready]
        refine ⟨by rw [hr', Nat.add_assoc, Nat.add_comm 1],
          hloop.cons hcons hleaf (by rw [Reader.ready] at hle ⊢; omega) hfit fun x hx => ?_⟩
        rw [hbyte x hx]
        exact if_congr ⟨And.right, fun h => ⟨hfit, h⟩⟩ rfl rfl
      · rw [if_neg hfit] at hc
        have hr1 : r = -1 := hr.trans (if_neg hfit)
        rw [if_pos hr1, wp_pure, hc, hready]
        refine ⟨rfl, hok₁, ?_, fun j hj => absurd hj j.not_lt_zero, fun x hx _ => ?_⟩
        · rw [if_neg (by omega), Reader.contents, Reader.contents, hcons, List.drop_succ_cons,
            List.drop_zero]
        · rw [hbyte x hx, if_neg fun h => hfit h.1]

/-! ### The call -/

/-- What `piperead` owes its caller: the `r` bytes that it returns are out of the pipe, no others,
and they are in the buffer in their order. -/
structure Consumes (t addr r : Nat) (s s' : Reader) : Prop where
  length : r ≤ s.contents.length
  left : s'.contents = s.contents.drop r
  delivered : ∀ j, j < r → s.contents[j]? = some (ubyte s'.mem t ((addr + j) % 2 ^ 64))

/-- **A call of `piperead` that returns a count** stores the bytes up to the first that the reader
may not write, returns how many these are, and has taken that one more out of the pipe. -/
theorem piperead_spec (hok : s.ring.Ok PIPESIZE UINT) (ht : TablesApart s.mem.ram t)
    (hd : Distinct s.mem.ram t) (n : Int) {c : Nat}
    (hc : c = lead (Fits (leaf s.mem.ram t) addr) 0 (s.ready n.toNat)) :
    wp (piperead t addr n)
      (fun r s' => r = -1 ∧ s' = s ∨ r = c ∧ Looped t addr 0 c (s.ready n.toNat) s s')
      (fun e s' => e = .sleep ∧ s' = s) s := by
  rw [piperead, wp_bind, wp_get, wp_ite]
  split
  · rw [wp_ite]
    split
    · exact wp_pure _ |>.2 (.inl ⟨rfl, rfl⟩)
    · exact wp_sleep.2 ⟨rfl, rfl⟩
  · rw [wp_bind]
    refine wp_mono (pipereadFrom_spec hok ht hd hc) (fun i s' ⟨hi, hl⟩ => ?_) fun _ _ h => h.elim
    rw [wp_pure, hi, Nat.zero_add]
    exact .inr ⟨rfl, hl⟩

/-- A pipe with bytes in it is read: the call neither fails nor sleeps. -/
theorem piperead_ready (hok : s.ring.Ok PIPESIZE UINT) (ht : TablesApart s.mem.ram t)
    (hd : Distinct s.mem.ram t) (n : Int) {c : Nat}
    (hc : c = lead (Fits (leaf s.mem.ram t) addr) 0 (s.ready n.toNat))
    (hpos : 0 < s.ring.count UINT) :
    ∃ s', piperead t addr n s = .ok c s' ∧ Looped t addr 0 c (s.ready n.toNat) s s' := by
  have hne : s.ring.nread ≠ s.ring.nwrite := fun h => by
    rw [hok.empty_iff.1 h] at hpos
    exact absurd hpos (Nat.lt_irrefl 0)
  have hwp : wp (piperead t addr n) (fun r s' => r = (c : Int) ∧
      Looped t addr 0 c (s.ready n.toNat) s s') (fun _ _ => False) s := by
    rw [piperead, wp_bind, wp_get, if_neg fun h => hne h.1, wp_bind]
    refine wp_mono (pipereadFrom_spec hok ht hd hc) (fun i s' ⟨hi, hl⟩ => ?_) fun _ _ h => h
    rw [wp_pure, hi, Nat.zero_add]
    exact ⟨rfl, hl⟩
  obtain ⟨r, s', hrun, rfl, hl⟩ := hwp.exists_ok
  exact ⟨s', hrun, hl⟩

/-- **`piperead` consumes what it returns exactly if the reader may write every byte of its buffer
that the pipe has a byte for.** -/
theorem piperead_consumes_iff (hok : s.ring.Ok PIPESIZE UINT) (ht : TablesApart s.mem.ram t)
    (hd : Distinct s.mem.ram t) (addr : Nat) (n : Int) :
    (∀ r s', piperead t addr n s = .ok r s' → 0 ≤ r → Consumes t addr r.toNat s s') ↔
      ∀ j, j < min n.toNat s.contents.length →
        CanWrite (leaf s.mem.ram t) ((addr + j) % 2 ^ 64) := by
  rw [s.length_contents]
  obtain ⟨c, hc⟩ : ∃ c, c = lead (Fits (leaf s.mem.ram t) addr) 0 (s.ready n.toNat) := ⟨_, rfl⟩
  have hle : c ≤ s.ready n.toNat := hc ▸ lead_le _ _ _
  have hcount : s.ready n.toNat ≤ s.ring.count UINT := Nat.min_le_right _ _
  have hall : c = s.ready n.toNat ↔ ∀ j, j < s.ready n.toNat → Fits (leaf s.mem.ram t) addr j := by
    rw [hc, lead_eq_iff]
    simp only [Nat.zero_add]
  refine ⟨fun h => ?_, fun h r s' hrun hr => ?_⟩
  · by_contra hcon
    have hlt : c < s.ready n.toNat := hle.lt_of_ne fun heq => hcon (hall.1 heq)
    obtain ⟨s', hrun, hl⟩ := piperead_ready hok ht hd n hc (by omega)
    have hleft := (h c s' hrun (Int.natCast_nonneg c)).left
    -- the byte that could not be stored is missing
    have hlen := congrArg List.length (hl.left.symm.trans hleft)
    rw [if_neg (by omega), List.length_drop, List.length_drop, s.length_contents,
      Int.toNat_natCast] at hlen
    omega
  · rcases (piperead_spec hok ht hd n hc).ok hrun with ⟨rfl, -⟩ | ⟨rfl, hl⟩
    · exact absurd hr (by decide)
    · have hleft := hl.left
      rw [if_pos (hall.2 h)] at hleft
      rw [Int.toNat_natCast]
      refine ⟨by rw [s.length_contents]; omega, hleft, fun j hj => ?_⟩
      rw [hl.stored j hj, Nat.zero_add]

/-! ### Two bytes at the end of the mapped pages -/

/-- A pipe that holds the bytes 7 and 8, and a reader with two pages. -/
def twoBytes : Reader where
  ring := ⟨fun i => if i = 0 then 7 else 8, 0, 2⟩
  writeopen := true
  killed := false
  mem := memOf (twoPages 16384 20480)

theorem twoBytes_ok : twoBytes.ring.Ok PIPESIZE UINT ∧ TablesApart twoBytes.mem.ram 4096 ∧
    Distinct twoBytes.mem.ram 4096 :=
  ⟨⟨by decide, by decide, by decide⟩,
    (twoPages_framed (by decide) (by decide) (by decide) (by decide) (by decide) (by decide)).2,
    twoPages_distinct (by decide) (by decide) (by decide) (by decide) (by decide)⟩

/-- Both bytes are read into the last two bytes of the second page. -/
theorem piperead_consumes_two : twoBytes.contents = [7, 8] ∧
    ∀ r s', piperead 4096 8190 2 twoBytes = .ok r s' → 0 ≤ r →
      Consumes 4096 8190 r.toNat twoBytes s' := by
  obtain ⟨hok, ht, hd⟩ := twoBytes_ok
  refine ⟨by decide, (piperead_consumes_iff hok ht hd 8190 2).2 fun j hj => ?_⟩
  have hj2 : j < 2 := hj.trans_le (Nat.min_le_left _ _)
  exact twoPages_canWrite (by decide) (by decide) (by omega)

/-- A read of two bytes into the last byte of the second page returns 1, with both bytes gone. -/
theorem piperead_loses : twoBytes.contents = [7, 8] ∧
    ∃ s', piperead 4096 8191 2 twoBytes = .ok 1 s' ∧ s'.contents = [] ∧
      ¬ Consumes 4096 8191 1 twoBytes s' := by
  obtain ⟨hok, ht, hd⟩ := twoBytes_ok
  have hcontents : twoBytes.contents = [7, 8] := by decide
  have hfit : Fits (leaf twoBytes.mem.ram 4096) 8191 0 :=
    twoPages_canWrite (by decide) (by decide) (by decide)
  have hnot : ¬ Fits (leaf twoBytes.mem.ram 4096) 8191 1 := fun h => by
    have hV := h.1.2.1
    rcases twoPages_frame (by decide) (by decide) (by decide) (by decide) hV with ⟨h1, -⟩ | ⟨h1, -⟩
    · exact absurd h1 (by decide)
    · exact absurd h1 (by decide)
  have hready : twoBytes.ready (2 : Int).toNat = 2 := by decide
  have hc : 1 = lead (Fits (leaf twoBytes.mem.ram 4096) 8191) 0 (twoBytes.ready (2 : Int).toNat) := by
    rw [hready, lead, if_pos hfit, lead_of_not hnot]
  obtain ⟨s', hrun, hl⟩ := piperead_ready hok ht hd 2 hc (by decide)
  have hleft : s'.contents = [] := by
    rw [hl.left, hready, hcontents]
    rfl
  refine ⟨hcontents, s', hrun, hleft, fun h => ?_⟩
  have hdrop := h.left
  rw [hleft, hcontents] at hdrop
  cases hdrop

end Pipe

end Xv6
