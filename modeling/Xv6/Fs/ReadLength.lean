import Xv6.Console.Console
import Xv6.Fs.Calls
import Xv6.Fs.Content
import Xv6.Fs.Namei
import Xv6.Sync.PipeRead

/-!
# How much `read` reads

`sys_read` and `fileread` take the length as an `int`, and so do `piperead` and `consoleread`, which
compare it with 0.  `readi` takes a `uint`: a negative length becomes one of more than 2 GB, and
where the offset is too small for `off + n` to wrap around it reads to the end of the file.

The memory below the file system is here the real one: the page tables of the processes, the pipes
and the console.  A reader of a pipe has stored nothing yet when it sleeps, so its call is the one
from the state in which it wakes up.  A reader of the console may sleep in the middle of its call;
what it finds each time it wakes up is anything at all, and is given in advance.
-/

set_option autoImplicit false

namespace Xv6.Fs

/-! ## The memory, the pipes and the console -/

structure Io where
  mem : Mem
  pagetable : Fin NPROC → Nat
  killed : Fin NPROC → Bool
  ring : Nat → RingBuffer UInt8
  writeopen : Nat → Bool
  cons : Console.Cons
  /-- What a reader of the console finds when it wakes up: the console, and whether it has been
  killed. -/
  wakes : List (Console.Cons × Bool)

namespace Io

def onMem {α : Type} : Kern Mem α → Kern Io α := zoom mem fun s m => { s with mem := m }

/-- A pipe and its reader. -/
def reader (p : Fin NPROC) (pi : Nat) (s : Io) : Pipe.Reader where
  ring := s.ring pi
  writeopen := s.writeopen pi
  killed := s.killed p
  mem := s.mem

def setReader (pi : Nat) (s : Io) (r : Pipe.Reader) : Io :=
  { s with mem := r.mem, ring := Function.update s.ring pi r.ring }

/-- `either_copyout(1, dst, src, len)`. -/
def copyout (p : Fin NPROC) (dst : Nat) (src : Bytes) (len : Nat) : Kern Io Int := do
  let s ← get
  onMem (Xv6.copyout (s.pagetable p) dst src len)

/-- `piperead(pi, addr, n)`. -/
def piperead (p : Fin NPROC) (pi addr : Nat) (n : Int) : Kern Io Int := do
  let s ← get
  zoom (reader p pi) (setReader pi) (Pipe.piperead (s.pagetable p) addr n)

/-- `while(cons.r == cons.w)` in `consoleread`: false if the reader has been killed. -/
def awaitInput (p : Fin NPROC) : List (Console.Cons × Bool) → Kern Io Bool
  | [] => do
    let s ← get
    if s.cons.r ≠ s.cons.w then
      return true
    else if s.killed p then
      return false
    else
      sleep
  | (cons, killed) :: wakes => do
    let s ← get
    if s.cons.r ≠ s.cons.w then
      return true
    else if s.killed p then
      return false
    else
      set { s with cons := cons, killed := Function.update s.killed p killed, wakes := wakes }
      awaitInput p wakes

/-- The loop of `consoleread` with `n` bytes to go: how many are left at its end, or `none` if the
reader has been killed. -/
def consolereadFrom (p : Fin NPROC) (target : Nat) : Nat → Nat → Kern Io (Option Nat)
  | 0, _ => pure (some 0)
  | n + 1, dst => do
    let s ← get
    let ok ← awaitInput p s.wakes
    if !ok then
      return none
    else
      let s ← get
      let c := s.cons.char s.cons.r
      let cons := { s.cons with r := (s.cons.r + 1) % Console.UINT }
      if c = Console.ctrl 'D' then
        if n + 1 < target then
          -- save ^D for next time, to make sure caller gets a 0-byte result
          set { s with cons := { cons with r := (cons.r + Console.UINT - 1) % Console.UINT } }
          return some (n + 1)
        else
          set { s with cons := cons }
          return some (n + 1)
      else
        set { s with cons := cons }
        let r ← copyout p dst (fun _ => c) 1
        if r = -1 then
          return some (n + 1)
        else if c = Console.newline then
          return some n
        else
          consolereadFrom p target n ((dst + 1) % 2 ^ 64)

/-- `consoleread(1, dst, n)`. -/
def consoleread (p : Fin NPROC) (dst : Nat) (n : Int) : Kern Io Int := do
  match ← consolereadFrom p n.toNat n.toNat dst with
  | none => return -1
  | some left => return n.toNat - left

end Io

/-- `CONSOLE`. -/
def CONSOLE : Nat := 1

/-- The memory of the file system, with these functions in it. -/
def ioMemory (rest : Memory Io) : Memory Io :=
  { rest with
    copyout := Io.copyout
    piperead := Io.piperead
    devread := fun major => if major = CONSOLE then some Io.consoleread else none }

/-! ## What a call may change -/

/-- In memory, nothing has changed but the `k` bytes from the user address `addr` on. -/
structure Within (t addr k : Nat) (m m' : Mem) : Prop where
  leaf : Xv6.leaf m'.ram t = Xv6.leaf m.ram t
  tables : ∀ p ∈ nodes m.ram 2 t, m'.ram p = m.ram p
  frame : ∀ p o, (∀ i, i < k → place (Xv6.leaf m.ram t) ((addr + i) % 2 ^ 64) ≠ (p, o)) →
    m'.ram p o = m.ram p o

section

variable {t addr k : Nat} {m m₁ m' : Mem}

theorem Within.refl (t addr k : Nat) (m : Mem) : Within t addr k m m :=
  ⟨rfl, fun _ _ => rfl, fun _ _ _ => rfl⟩

theorem Within.trans (h₁ : Within t addr k m m₁) (h₂ : Within t addr k m₁ m') :
    Within t addr k m m' := by
  refine ⟨h₂.leaf.trans h₁.leaf, fun p hp => ?_, fun p o hp => ?_⟩
  · rw [h₂.tables p (by rwa [nodes_congr h₁.tables]), h₁.tables p hp]
  · rw [h₂.frame p o (by rwa [h₁.leaf]), h₁.frame p o hp]

theorem Within.apart (h : Within t addr k m m') (ht : TablesApart m.ram t) :
    TablesApart m'.ram t :=
  ht.congr h.tables

/-- Bytes written to addresses of the range. -/
theorem Within.of_wrote {src : Bytes} {done a tot c : Nat} (ha : a = (addr + tot) % 2 ^ 64)
    (h : Xv6.Wrote m m' t src done a c)
    (hcan : ∀ i, i < c → CanWrite (Xv6.leaf m.ram t) (a + i)) (hk : tot + c ≤ k) :
    Within t addr k m m' := by
  refine ⟨h.leaf, h.tables, fun p o hp => h.frame p o fun i hi heq => ?_⟩
  have hlt : a + i < MAXVA := (hcan i hi).1.1
  have hmax : MAXVA = 2 ^ 38 := by decide
  refine hp (tot + i) (by omega) ?_
  rw [show (addr + (tot + i)) % 2 ^ 64 = a + i by omega]
  exact heq

/-- `copyout` to addresses of the range. -/
theorem copyout_within (ht : TablesApart m.ram t) {tot len : Nat} (src : Bytes)
    (hk : tot + len ≤ k) :
    wp (copyout t ((addr + tot) % 2 ^ 64) src len) (fun _ m' => Within t addr k m m')
      (fun _ _ => False) m := by
  obtain ⟨m', hrun, hw⟩ := copyout_eq ht ((addr + tot) % 2 ^ 64) src len
  have hle := lead_le (CanWrite (leaf m.ram t)) ((addr + tot) % 2 ^ 64) len
  exact (wp_of_ok hrun).2 (.of_wrote rfl hw lead_spec.1 (by omega))

/-! ## Pipes -/

theorem pipereadFrom_within : ∀ {left i : Nat} {s : Pipe.Reader}, TablesApart s.mem.ram t →
    i + left ≤ k → wp (Pipe.pipereadFrom t addr left i)
      (fun r s' => r ≤ i + left ∧ Within t addr k s.mem s'.mem) (fun _ _ => True) s
  | 0, i, s, _, _ => by
    rw [Pipe.pipereadFrom, wp_pure]
    exact ⟨le_rfl, .refl t addr k s.mem⟩
  | left + 1, i, s, ht, hk => by
    rw [Pipe.pipereadFrom, wp_bind, wp_get]
    by_cases hempty : s.ring.nread = s.ring.nwrite
    · rw [if_pos hempty, wp_pure]
      exact ⟨Nat.le_add_right i _, .refl t addr k s.mem⟩
    · rw [if_neg hempty, wp_bind, wp_set, wp_bind, Pipe.Reader.onMem, wp_zoom]
      refine wp_mono (copyout_within ht _ (show i + 1 ≤ k by omega)) (fun r m' hm => ?_)
        fun _ _ _ => trivial
      rw [wp_ite]
      split
      · rw [wp_pure]
        exact ⟨Nat.le_add_right i _, hm⟩
      · refine wp_mono (pipereadFrom_within (hm.apart ht) (by omega)) (fun r' s' hr => ?_)
          fun _ _ _ => trivial
        exact ⟨by omega, hm.trans hr.2⟩

theorem piperead_within {s : Pipe.Reader} (ht : TablesApart s.mem.ram t) (n : Int) :
    wp (Pipe.piperead t addr n)
      (fun r s' => r ≤ max n 0 ∧ Within t addr n.toNat s.mem s'.mem) (fun _ _ => True) s := by
  rw [Pipe.piperead, wp_bind, wp_get, wp_ite]
  split
  · rw [wp_ite]
    split
    · rw [wp_pure]
      exact ⟨by omega, .refl ..⟩
    · exact wp_sleep.2 trivial
  · rw [wp_bind]
    refine wp_mono (pipereadFrom_within ht (show 0 + n.toNat ≤ n.toNat by omega))
      (fun r s' hr => ?_) fun _ _ _ => trivial
    rw [wp_pure]
    exact ⟨by omega, hr.2⟩

end

/-! ## The console -/

section

variable {p : Fin NPROC} {addr k : Nat}

/-- What happens while a reader of the console sleeps does not touch its memory. -/
theorem awaitInput_mem : ∀ {wakes : List (Console.Cons × Bool)} {s : Io},
    wp (Io.awaitInput p wakes)
      (fun _ s' => s'.mem = s.mem ∧ s'.pagetable = s.pagetable) (fun _ _ => True) s
  | [], s => by
    rw [Io.awaitInput, wp_bind, wp_get, wp_ite]
    split
    · rw [wp_pure]
      exact ⟨rfl, rfl⟩
    · rw [wp_ite]
      split
      · rw [wp_pure]
        exact ⟨rfl, rfl⟩
      · exact wp_sleep.2 trivial
  | (cons, killed) :: wakes, s => by
    rw [Io.awaitInput, wp_bind, wp_get, wp_ite]
    split
    · rw [wp_pure]
      exact ⟨rfl, rfl⟩
    · rw [wp_ite]
      split
      · rw [wp_pure]
        exact ⟨rfl, rfl⟩
      · rw [wp_bind, wp_set]
        exact wp_mono awaitInput_mem (fun _ _ h => h) fun _ _ h => h

/-- The process has stored bytes in the range, and has its page table. -/
structure Stored (p : Fin NPROC) (addr k : Nat) (s s' : Io) : Prop where
  within : Within (s.pagetable p) addr k s.mem s'.mem
  pagetable : s'.pagetable = s.pagetable

theorem Stored.trans {s s₁ s' : Io} (h₁ : Stored p addr k s s₁) (h₂ : Stored p addr k s₁ s') :
    Stored p addr k s s' := by
  refine ⟨h₁.within.trans ?_, h₂.pagetable.trans h₁.pagetable⟩
  rw [← h₁.pagetable]
  exact h₂.within

theorem Stored.of_mem {s s' : Io} (hm : s'.mem = s.mem) (hp : s'.pagetable = s.pagetable) :
    Stored p addr k s s' :=
  ⟨hm ▸ .refl .., hp⟩

theorem Stored.apart {s s' : Io} (h : Stored p addr k s s')
    (ht : TablesApart s.mem.ram (s.pagetable p)) : TablesApart s'.mem.ram (s'.pagetable p) := by
  rw [h.pagetable]
  exact h.within.apart ht

/-- `copyout` to addresses of the range. -/
theorem Io.copyout_stored {s : Io} (ht : TablesApart s.mem.ram (s.pagetable p)) {tot len : Nat}
    (src : Bytes) (hk : tot + len ≤ k) :
    wp (Io.copyout p ((addr + tot) % 2 ^ 64) src len) (fun _ s' => Stored p addr k s s')
      (fun _ _ => False) s := by
  rw [Io.copyout, wp_bind, wp_get, Io.onMem, wp_zoom]
  exact wp_mono (copyout_within ht src hk) (fun _ m' hm => ⟨hm, rfl⟩) fun _ _ h => h

theorem consolereadFrom_stored {target : Nat} : ∀ {n tot : Nat} {s : Io},
    TablesApart s.mem.ram (s.pagetable p) → tot + n ≤ k →
    wp (Io.consolereadFrom p target n ((addr + tot) % 2 ^ 64))
      (fun _ s' => Stored p addr k s s') (fun _ _ => True) s
  | 0, tot, s, _, _ => by
    rw [Io.consolereadFrom, wp_pure]
    exact .of_mem rfl rfl
  | n + 1, tot, s, ht, hk => by
    rw [Io.consolereadFrom, wp_bind, wp_get, wp_bind]
    refine wp_mono awaitInput_mem (fun ok s₁ h₁ => ?_) fun _ _ _ => trivial
    have hs₁ : Stored p addr k s s₁ := .of_mem h₁.1 h₁.2
    rw [wp_ite]
    split
    · rw [wp_pure]
      exact hs₁
    · rw [wp_bind, wp_get, wp_ite]
      split
      · rw [wp_ite]
        split
        · rw [wp_bind, wp_set, wp_pure]
          exact hs₁.trans (.of_mem rfl rfl)
        · rw [wp_bind, wp_set, wp_pure]
          exact hs₁.trans (.of_mem rfl rfl)
      · rw [wp_bind, wp_set, wp_bind]
        generalize hs₂ : ({ s₁ with cons := _ } : Io) = s₂
        have hs₁₂ : Stored p addr k s s₂ := by
          rw [← hs₂]
          exact hs₁.trans (.of_mem rfl rfl)
        refine wp_mono (Io.copyout_stored (hs₁₂.apart ht) _ (show tot + 1 ≤ k by omega))
          (fun r s₃ h₃ => ?_) fun _ _ h => h.elim
        have hs₃ := hs₁₂.trans h₃
        rw [wp_ite]
        split
        · rw [wp_pure]
          exact hs₃
        · rw [wp_ite]
          split
          · rw [wp_pure]
            exact hs₃
          · rw [Nat.mod_add_mod, Nat.add_assoc]
            refine wp_mono (consolereadFrom_stored (hs₃.apart ht) (by omega)) (fun _ s' h' => ?_)
              fun _ _ _ => trivial
            exact hs₃.trans h'

theorem consoleread_stored {s : Io} (ht : TablesApart s.mem.ram (s.pagetable p))
    (ha : addr < 2 ^ 64) (n : Int) :
    wp (Io.consoleread p addr n)
      (fun r s' => r ≤ max n 0 ∧ Stored p addr n.toNat s s') (fun _ _ => True) s := by
  have hrun : wp (Io.consolereadFrom p n.toNat n.toNat ((addr + 0) % 2 ^ 64))
      (fun _ s' => Stored p addr n.toNat s s') (fun _ _ => True) s :=
    consolereadFrom_stored ht (by omega)
  rw [Nat.add_zero, Nat.mod_eq_of_lt ha] at hrun
  rw [Io.consoleread, wp_bind]
  refine wp_mono hrun (fun r s' hs => ?_) fun _ _ _ => trivial
  cases r with
  | none =>
    rw [wp_pure]
    exact ⟨by omega, hs⟩
  | some left =>
    rw [wp_pure]
    exact ⟨by omega, hs⟩

end

/-! ## Inodes -/

/-- Behind a failure there is nothing more. -/
theorem lead_eq_of_lt {P : Nat → Prop} [DecidablePred P] : ∀ {a n len : Nat}, lead P a n < n →
    n ≤ len → lead P a len = lead P a n
  | _, 0, _, h, _ => absurd h (Nat.not_lt_zero _)
  | a, n + 1, 0, _, hle => absurd hle (by omega)
  | a, n + 1, len + 1, h, hle => by
    rw [lead] at h ⊢
    rw [lead]
    split
    · next ha =>
      rw [if_pos ha] at h
      have hlt : lead P (a + 1) n < n := by omega
      rw [lead_eq_of_lt hlt (by omega)]
    · rfl

/-- The same bytes, from another buffer. -/
theorem Wrote.congr {m m' : Mem} {t done done' dstva c : Nat} {src src' : Bytes}
    (h : Xv6.Wrote m m' t src done dstva c) (he : ∀ i, i < c → src (done + i) = src' (done' + i)) :
    Xv6.Wrote m m' t src' done' dstva c :=
  ⟨h.mem, h.leaf, h.tables, fun i hi hlast => (h.last i hi hlast).trans (he i hi), h.frame⟩

section

variable {rest : Memory Io} {sb : Superblock} {p : Fin NPROC} {i : Fin NINODE} {d : Dinode}

/-- The writable bytes of a buffer, up to the first that is not. -/
def room (p : Fin NPROC) (s : Io) (addr len : Nat) : Nat :=
  lead (CanWrite (leaf s.mem.ram (s.pagetable p))) addr len

/-- The state with other memory. -/
def State.withRam (s : State Io) (m : Mem) : State Io := s.setMem { s.mem with mem := m }

/-- A block of a file, as the bytes of the file. -/
theorem byteAt_chunk {disk : Nat → Block} {off len j : Nat} (hlen : off % BSIZE + len ≤ BSIZE)
    (hj : j < len) :
    byteAt disk d (off + j) = disk (blockAt disk d (off / BSIZE)) (off % BSIZE + j) := by
  obtain ⟨hdiv, hmod⟩ := chunk_block hlen (Nat.le_add_right off j) (Nat.add_lt_add_left hj off)
  rw [byteAt, hdiv, hmod, Nat.add_sub_cancel_left]

/-- `either_copyout` in the loop of `readi`. -/
theorem eitherCopyout_wrote (rest : Memory Io) {va tot : Nat} (len : Nat) (buf src : Bytes)
    {s : State Io}
    (ht : TablesApart s.mem.mem.ram (s.mem.pagetable p)) (hva : va + tot < 2 ^ 64) :
    ∃ m', eitherCopyout (ioMemory rest) p (.user va) buf tot src len s =
        .ok (if room p s.mem (va + tot) len = len then 0 else -1, buf) (s.withRam m') ∧
      Xv6.Wrote s.mem.mem m' (s.mem.pagetable p) src 0 (va + tot)
        (room p s.mem (va + tot) len) := by
  obtain ⟨m', hm', hw⟩ := copyout_eq ht (va + tot) src len
  refine ⟨m', ?_, hw⟩
  have hio : Io.copyout p (va + tot) src len s.mem =
      .ok (if room p s.mem (va + tot) len = len then 0 else -1) { s.mem with mem := m' } := by
    rw [Io.copyout, bind_of_ok (show (get : Kern Io Io) s.mem = .ok s.mem s.mem from rfl), Io.onMem,
      zoom, hm']
    rfl
  have hmem : onMem ((ioMemory rest).copyout p ((va + tot) % 2 ^ 64) src len) s =
      .ok (if room p s.mem (va + tot) len = len then 0 else -1) (s.withRam m') := by
    rw [Nat.mod_eq_of_lt hva, onMem, show (ioMemory rest).copyout = Io.copyout from rfl, hio]
    rfl
  exact bind_of_ok hmem

/-- **The loop of `readi`, for a user.**  It stores the bytes of the file up to the first that the
user may not write. -/
theorem readiFrom_wrote {va n off : Nat} : ∀ (k tot : Nat) (buf : Bytes) {s : State Io},
    (s.itable i).toDinode = d → tot ≤ n → n - tot ≤ k →
    (tot < n → Present s.disk d (off + n)) → TablesApart s.mem.mem.ram (s.mem.pagetable p) →
    va + tot < 2 ^ 64 → ∃ m',
      readiFrom sb (ioMemory rest) p i (.user va) n k tot (off + tot) buf s =
        .ok (if room p s.mem (va + tot) (n - tot) = n - tot then (n : Int) else -1, buf)
          (s.withRam m') ∧
      Xv6.Wrote s.mem.mem m' (s.mem.pagetable p) (fun j => byteAt s.disk d (off + j)) tot (va + tot)
        (room p s.mem (va + tot) (n - tot))
  | 0, tot, buf, s, _, htot, hk, _, _, _ => by
    obtain rfl : tot = n := by omega
    rw [Nat.sub_self, room, lead_zero, if_pos rfl]
    exact ⟨s.mem.mem, rfl, .zero ..⟩
  | k + 1, tot, buf, s, hd, htot, hk, hp, ht, hva => by
    rw [readiFrom]
    by_cases hn : tot < n
    · obtain ⟨hm0, hmn, hmb, -⟩ := chunk_spec (off + tot) hn
      obtain ⟨hbn, h0⟩ := hp hn ((off + tot) / BSIZE) (by
        have := Nat.div_add_mod' (off + tot) BSIZE
        omega)
      rw [if_pos hn, bind_of_ok (bmap_present sb hd hbn h0), if_neg h0]
      rw [bind_of_ok (show bread _ s = .ok (s.disk _) s from rfl),
        show min (n - tot) (BSIZE - (off + tot) % BSIZE) = chunk n tot (off + tot) from rfl]
      generalize chunk n tot (off + tot) = len at hm0 hmn hmb ⊢
      obtain ⟨m1, hcopy, hw1⟩ := eitherCopyout_wrote rest len buf
        (fun j => s.disk (blockAt s.disk d ((off + tot) / BSIZE)) ((off + tot) % BSIZE + j)) ht hva
      have hle := lead_le (CanWrite (leaf s.mem.mem.ram (s.mem.pagetable p))) (va + tot) len
      have hw1 : Xv6.Wrote s.mem.mem m1 (s.mem.pagetable p) (fun j => byteAt s.disk d (off + j)) tot
          (va + tot) (room p s.mem (va + tot) len) := Wrote.congr hw1 fun j hj => by
        rw [Nat.zero_add, ← Nat.add_assoc]
        exact (byteAt_chunk hmb (Nat.lt_of_lt_of_le hj hle)).symm
      rw [bind_of_ok hcopy]
      by_cases hall : room p s.mem (va + tot) len = len
      · rw [if_pos hall]
        -- the next address is not beyond the last that can be mapped
        have hcan := lead_eq_iff.1 hall
        have hlast : va + tot + (len - 1) < MAXVA := (hcan (len - 1) (by omega)).1.1
        have hmax : MAXVA = 2 ^ 38 := by decide
        rw [hall] at hw1
        have hroom : ∀ a l, room p (s.withRam m1).mem a l = room p s.mem a l := fun a l => by
          show lead (CanWrite (leaf m1.ram (s.mem.pagetable p))) a l = _
          simp only [hw1.leaf]
          rfl
        have hchunk : room p s.mem (va + tot) (n - tot) =
            len + room p s.mem (va + (tot + len)) (n - (tot + len)) := by
          rw [← Nat.sub_sub, ← Nat.add_assoc]
          exact lead_chunk (by omega) hcan fun _ => rfl
        obtain ⟨m2, hrest, hw2⟩ : ∃ m', readiFrom sb (ioMemory rest) p i (.user va) n k (tot + len)
              (off + (tot + len)) buf (s.withRam m1) =
              .ok (if room p (s.withRam m1).mem (va + (tot + len)) (n - (tot + len)) =
                n - (tot + len) then (n : Int) else -1, buf) ((s.withRam m1).withRam m') ∧
            Xv6.Wrote m1 m' (s.mem.pagetable p) (fun j => byteAt s.disk d (off + j)) (tot + len)
              (va + (tot + len)) (room p (s.withRam m1).mem (va + (tot + len)) (n - (tot + len))) :=
          readiFrom_wrote k (tot + len) buf hd hmn (by omega) (fun _ => hp hn) (ht.congr hw1.tables)
            (by omega)
        rw [hroom] at hrest hw2
        rw [hchunk]
        refine ⟨m2, ?_, hw1.append hw2 (lead_le _ _ _) fun _ => (Nat.add_assoc ..).symm⟩
        show (if (0 : Int) = -1 then _ else _ : Kern (State Io) _) (s.withRam m1) = _
        rw [if_neg (by decide), Nat.add_assoc off, hrest]
        have hiff : room p s.mem (va + (tot + len)) (n - (tot + len)) = n - (tot + len) ↔
            len + room p s.mem (va + (tot + len)) (n - (tot + len)) = n - tot := by omega
        rw [if_congr hiff rfl rfl]
        rfl
      · have hlt : room p s.mem (va + tot) len < len := lt_of_le_of_ne hle hall
        have hstop : room p s.mem (va + tot) (n - tot) = room p s.mem (va + tot) len :=
          lead_eq_of_lt hlt (by omega)
        rw [if_neg hall, hstop, if_neg (by omega)]
        exact ⟨m1, rfl, hw1⟩
    · obtain rfl : tot = n := by omega
      rw [if_neg hn, Nat.sub_self, room, lead_zero, if_pos rfl]
      exact ⟨s.mem.mem, rfl, .zero ..⟩

/-- `readi`, for a user. -/
theorem readi_wrote (rest : Memory Io) (sb : Superblock) (off : Nat) {va n : Nat} {s : State Io}
    (hd : (s.itable i).toDinode = d) (hp : Present s.disk d d.size)
    (ht : TablesApart s.mem.mem.ram (s.mem.pagetable p)) (hva : va < 2 ^ 64) (hn : n < 2 ^ 32) :
    ∃ m', readi sb (ioMemory rest) p i (.user va) off n s =
        .ok (if room p s.mem va (readLen d.size off n) = readLen d.size off n
          then (readLen d.size off n : Int) else -1, fun _ => 0) (s.withRam m') ∧
      Xv6.Wrote s.mem.mem m' (s.mem.pagetable p) (fun j => byteAt s.disk d (off + j)) 0 va
        (room p s.mem va (readLen d.size off n)) := by
  have hsize : (s.itable i).size = d.size := congrArg Dinode.size hd
  have hpres : 0 < readLen d.size off n → Present s.disk d (off + readLen d.size off n) := by
    intro hpos
    refine hp.mono ?_
    rw [readLen] at hpos ⊢
    split at hpos
    · next h =>
      rw [if_pos h]
      omega
    · exact absurd hpos (Nat.lt_irrefl 0)
  rw [readi_eq (.user va) off hn, hsize]
  exact readiFrom_wrote _ 0 _ hd (Nat.zero_le _) le_rfl hpres ht hva

/-- The inode that `ilock` finds in the table, or reads. -/
def inodeAt (sb : Superblock) (s : State Io) (i : Fin NINODE) : Dinode :=
  if (s.itable i).valid then (s.itable i).toDinode else diskInode sb s i

/-- `ilock` of an inode that nobody has locked. -/
theorem ilock_eq {s : State Io} (href : 1 ≤ (s.itable i).ref) (hl : (s.itable i).lock = none)
    (ht : (inodeAt sb s i).type ≠ 0) :
    ilock sb p i s = .ok () (s.setInode i ((s.itable i).loaded p (inodeAt sb s i))) := by
  cases hv : (s.itable i).valid with
  | false =>
    rw [inodeAt, hv, if_neg Bool.false_ne_true] at ht ⊢
    exact ilock_load sb p href hl hv ht
  | true =>
    have hacq : acquiresleep p i s = .ok () (s.setInode i { s.itable i with lock := some p }) := by
      rw [acquiresleep, bind_of_ok (show getInode i s = .ok (s.itable i) s from rfl), hl]
      rfl
    rw [ilock, bind_of_ok (show getInode i s = .ok (s.itable i) s from rfl), if_neg (by omega),
      bind_of_ok hacq, hv, inodeAt, if_pos hv]
    show EStateM.Result.ok () _ = _
    rw [Inode.loaded, ← hv]

/-- How many bytes of the inode a call of `fileread` has for its caller. -/
def fileLen (d : Dinode) (off : Nat) (n : Int) : Nat := readLen d.size off (ofInt32 n)

/-- **`fileread` of an inode** stores the bytes of the file up to the first that the user may not
write, and fails if there is one. -/
theorem fileread_inode {s : State Io} {f : Fin NFILE} {addr : Nat} {n : Int}
    (hr : (s.file f).readable = true) (htype : (s.file f).type = .inode)
    (hip : (s.file f).ip = some i) (href : 1 ≤ (s.itable i).ref) (hl : (s.itable i).lock = none)
    (hlive : (inodeAt sb s i).type ≠ 0)
    (hp : Present s.disk (inodeAt sb s i) (inodeAt sb s i).size)
    (ht : TablesApart s.mem.mem.ram (s.mem.pagetable p)) (ha : addr < 2 ^ 64) :
    ∃ s', fileread sb (ioMemory rest) p f addr n s =
        .ok (if room p s.mem addr (fileLen (inodeAt sb s i) (s.file f).off n) =
          fileLen (inodeAt sb s i) (s.file f).off n
          then (fileLen (inodeAt sb s i) (s.file f).off n : Int) else -1) s' ∧
      Xv6.Wrote s.mem.mem s'.mem.mem (s.mem.pagetable p)
        (fun j => byteAt s.disk (inodeAt sb s i) ((s.file f).off + j)) 0 addr
        (room p s.mem addr (fileLen (inodeAt sb s i) (s.file f).off n)) := by
  have hlock := ilock_eq (p := p) href hl hlive
  generalize inodeAt sb s i = d at hlock hp ⊢
  generalize hs₁ : s.setInode i ((s.itable i).loaded p d) = s₁ at hlock
  have hentry : s₁.itable i = (s.itable i).loaded p d := hs₁ ▸ s.setInode_self ..
  have hmem : s₁.mem = s.mem := hs₁ ▸ rfl
  have hdisk : s₁.disk = s.disk := hs₁ ▸ rfl
  have hlt : ofInt32 n < 2 ^ 32 := by
    rw [ofInt32]
    omega
  have hd : (s₁.itable i).toDinode = d := congrArg Inode.toDinode hentry
  obtain ⟨m', hread, hw⟩ := readi_wrote rest sb (s.file f).off hd (hdisk ▸ hp) (hmem ▸ ht) ha hlt
  rw [hmem, hdisk] at hw
  rw [hmem] at hread
  have hlocked : ((s₁.withRam m').itable i).lock = some p := by
    show (s₁.itable i).lock = _
    rw [hentry]
    rfl
  have hrefs : 1 ≤ ((s₁.withRam m').itable i).ref := by
    show 1 ≤ (s₁.itable i).ref
    rw [hentry]
    exact href
  rw [fileread, bind_of_ok (show (get : Kern (State Io) (State Io)) s = .ok s s from rfl)]
  dsimp only
  rw [hr, htype, hip]
  show ∃ s', (ilock sb p i >>= _ : Kern (State Io) Int) s = _ ∧ _
  rw [bind_of_ok hlock, show fileLen d (s.file f).off n = readLen d.size (s.file f).off (ofInt32 n)
    from rfl]
  show ∃ s', (readi sb (ioMemory rest) p i (.user addr) (s.file f).off (ofInt32 n) >>= _ :
    Kern (State Io) Int) s₁ = _ ∧ _
  rw [bind_of_ok hread]
  generalize readLen d.size (s.file f).off (ofInt32 n) = len at hw ⊢
  generalize (if room p s.mem addr len = len then (len : Int) else -1) = r
  show ∃ s', (if r > 0 then _ else _ : Kern (State Io) Int) (s₁.withRam m') = _ ∧ _
  by_cases hpos : r > 0
  · -- the new offset does not concern the lock of the inode
    rw [if_pos hpos]
    refine ⟨_, (bind_of_ok (show modifyFile f _ (s₁.withRam m') = .ok () _ from rfl)).trans
      (bind_of_ok (iunlock_eq (s := (s₁.withRam m').setFile f _) hlocked hrefs)), hw⟩
  · rw [if_neg hpos, bind_of_ok (iunlock_eq hlocked hrefs)]
    exact ⟨_, rfl, hw⟩

/-! ## `sys_read` -/

/-- What `read` owes its caller: it returns no more than it was asked for, and stores no more. -/
def Respects (t addr : Nat) (n : Int) (m : Mem) (r : Int) (m' : Mem) : Prop :=
  r ≤ max n 0 ∧ Within t addr n.toNat m m'

/-- A state in which `p` may call `read`: the user's pages are not page tables and are mapped only
once, and the inode of a file is in the table with all its blocks, and not locked. -/
structure Ready (sb : Superblock) (s : State Io) (p : Fin NPROC) : Prop where
  apart : TablesApart s.mem.mem.ram (s.mem.pagetable p)
  distinct : Distinct s.mem.mem.ram (s.mem.pagetable p)
  inode : ∀ f, (s.file f).type = .inode → ∃ i, (s.file f).ip = some i ∧ 1 ≤ (s.itable i).ref ∧
    (s.itable i).lock = none ∧ (inodeAt sb s i).type ≠ 0 ∧
    Present s.disk (inodeAt sb s i) (inodeAt sb s i).size

/-- The file of a descriptor. -/
def fileOf (s : State Io) (p : Fin NPROC) (fd : Int) : Option (Fin NFILE) :=
  if h : 0 ≤ fd ∧ fd.toNat < NOFILE then (s.proc p).ofile ⟨fd.toNat, fd_lt h⟩ else none

/-- The call reads on to the end of a file although its length is negative: the offset is small
enough for `off + n` not to wrap around, and there is a byte left.  It returns a count, or it has
changed a byte before it came to one that it may not write. -/
def Overruns (sb : Superblock) (s : State Io) (p : Fin NPROC) (fd : Int) (addr : Nat) (n : Int) :
    Prop :=
  ∃ f i, fileOf s p fd = some f ∧ (s.file f).readable = true ∧ (s.file f).type = .inode ∧
    (s.file f).ip = some i ∧ n < 0 ∧ ((s.file f).off : Int) < -n ∧
    (s.file f).off < (inodeAt sb s i).size ∧
    (room p s.mem addr ((inodeAt sb s i).size - (s.file f).off) =
        (inodeAt sb s i).size - (s.file f).off ∨
      ∃ j, j < room p s.mem addr ((inodeAt sb s i).size - (s.file f).off) ∧
        ubyte s.mem.mem (s.mem.pagetable p) (addr + j) ≠
          byteAt s.disk (inodeAt sb s i) ((s.file f).off + j))

theorem sysRead_none {s : State Io} {fd : Int} {addr : Nat} {n : Int} (h : fileOf s p fd = none) :
    sysRead sb (ioMemory rest) p fd addr n s = .ok (-1) s := by
  have hargfd : argfd p fd s = .ok none s := by
    rw [argfd, bind_of_ok (show (get : Kern (State Io) (State Io)) s = .ok s s from rfl)]
    rw [fileOf] at h
    split
    · next hfd =>
      rw [dif_pos hfd] at h
      rw [h]
      rfl
    · rfl
  rw [sysRead, bind_of_ok hargfd]
  rfl

theorem sysRead_some {s : State Io} {fd : Int} {addr : Nat} {n : Int} {f : Fin NFILE}
    (h : fileOf s p fd = some f) :
    sysRead sb (ioMemory rest) p fd addr n s = fileread sb (ioMemory rest) p f addr n s := by
  rw [fileOf] at h
  split at h
  · next hfd =>
    have hargfd : argfd p fd s = .ok (some (⟨fd.toNat, fd_lt hfd⟩, f)) s := by
      rw [argfd, bind_of_ok (show (get : Kern (State Io) (State Io)) s = .ok s s from rfl),
        dif_pos hfd, h]
      rfl
    rw [sysRead, bind_of_ok hargfd]
  · cases h

/-- A file that has its blocks is not too large. -/
theorem Present.size_le {disk : Nat → Block} (h : Present disk d d.size) :
    d.size ≤ MAXFILE * BSIZE := by
  by_contra hlt
  exact absurd (h MAXFILE (not_le.1 hlt)).1 (Nat.lt_irrefl _)

/-- A negative length is one of more than 2 GB. -/
theorem fileLen_of_neg {n : Int} (hlo : -2 ^ 31 ≤ n) (hneg : n < 0) {off : Nat}
    (hsize : d.size ≤ MAXFILE * BSIZE) :
    fileLen d off n = if (off : Int) < -n then d.size - off else 0 := by
  have hmax : MAXFILE * BSIZE = 274432 := by decide
  have hn : (ofInt32 n : Int) = n + 2 ^ 32 := by
    rw [ofInt32]
    omega
  rw [fileLen, readLen]
  split
  · next h => rw [if_pos (by omega), Nat.min_eq_right (by omega)]
  · next h =>
    split
    · omega
    · rfl

theorem fileLen_of_nonneg {n : Int} (hpos : 0 ≤ n) {off : Nat} : fileLen d off n ≤ n.toNat := by
  have hn : ofInt32 n ≤ n.toNat := by
    rw [ofInt32]
    omega
  rw [fileLen, readLen]
  split
  · omega
  · omega

/-- Bytes written where they are not to be written show, unless they were there already. -/
theorem within_zero_iff {m m' : Mem} {t addr c : Nat} {src : Bytes}
    (h : Xv6.Wrote m m' t src 0 addr c) (hd : Distinct m.ram t)
    (hcan : ∀ j, j < c → CanWrite (leaf m.ram t) (addr + j)) :
    Within t addr 0 m m' ↔ ∀ j, j < c → ubyte m t (addr + j) = src j := by
  have hbyte : ∀ j, j < c → ubyte m' t (addr + j) = src j := by
    intro j hj
    rw [h.last j hj fun j' h1 h2 heq => ?_, Nat.zero_add]
    have := hd.place_inj (hcan j' h2) (hcan j hj) heq
    omega
  constructor
  · intro hw j hj
    rw [← hbyte j hj, ubyte, ubyte, hw.leaf]
    exact (hw.frame _ _ fun i hi => absurd hi (Nat.not_lt_zero i)).symm
  · intro hsame
    refine ⟨h.leaf, h.tables, fun p o _ => ?_⟩
    by_cases hp : ∃ j, j < c ∧ place (leaf m.ram t) (addr + j) = (p, o)
    · obtain ⟨j, hj, hpl⟩ := hp
      have hb := (hbyte j hj).trans (hsame j hj).symm
      rw [ubyte, ubyte, h.leaf] at hb
      rw [place, Prod.mk.injEq] at hpl
      rw [← hpl.1, ← hpl.2]
      exact hb
    · exact h.frame p o fun j hj hpl => hp ⟨j, hj, hpl⟩

/-- Code on memory. -/
theorem wp_onMem {α : Type} {k : Kern Io α} {s : State Io} {Q : α → State Io → Prop}
    (h : wp k (fun a m => Q a (s.setMem m)) (fun _ _ => True) s.mem) :
    wp (onMem k) Q (fun _ _ => True) s := by
  rw [wp] at h ⊢
  rw [onMem]
  cases hk : k s.mem with
  | ok a m =>
    rw [hk] at h
    exact h
  | error e m => cases e <;> trivial

/-- Pipes and devices. -/
theorem fileread_respects {s : State Io} (hs : Ready sb s p) {f : Fin NFILE} {addr : Nat} {n : Int}
    (ha : addr < 2 ^ 64) (hno : (s.file f).readable = true → (s.file f).type ≠ .inode) :
    wp (fileread sb (ioMemory rest) p f addr n)
      (fun r s' => Respects (s.mem.pagetable p) addr n s.mem.mem r s'.mem.mem) (fun _ _ => True)
      s := by
  have hfail : Respects (s.mem.pagetable p) addr n s.mem.mem (-1) s.mem.mem :=
    ⟨by omega, .refl ..⟩
  rw [fileread, wp_bind, wp_get]
  dsimp only
  cases hr : (s.file f).readable with
  | false =>
    rw [Bool.not_false, if_pos rfl, wp_pure]
    exact hfail
  | true =>
    rw [Bool.not_true, if_neg Bool.false_ne_true]
    cases hty : (s.file f).type with
    | none => exact (wp_panic _).2 trivial
    | inode => exact absurd hty (hno hr)
    | pipe =>
      refine wp_onMem ?_
      show wp (Io.piperead p (s.file f).pipe addr n) _ _ s.mem
      rw [Io.piperead, wp_bind, wp_get, wp_zoom]
      exact wp_mono (piperead_within hs.apart n) (fun _ _ h => h) fun _ _ h => h
    | device =>
      dsimp only
      rw [wp_ite]
      split
      · rw [wp_pure]
        exact hfail
      · rw [show (ioMemory rest).devread (s.file f).major =
          if (s.file f).major = CONSOLE then some Io.consoleread else none from rfl]
        split
        · rw [wp_pure]
          exact hfail
        · next read hread =>
          split at hread
          · cases hread
            refine wp_onMem (wp_mono (consoleread_stored hs.apart ha n) (fun _ _ h => ?_)
              fun _ _ h => h)
            exact ⟨h.1, h.2.within⟩
          · cases hread

/-- The condition, for a file that is known. -/
theorem overruns_iff {s : State Io} {fd : Int} {f : Fin NFILE} {addr : Nat} {n : Int}
    (hf : fileOf s p fd = some f) (hr : (s.file f).readable = true)
    (hty : (s.file f).type = .inode) (hip : (s.file f).ip = some i) (hlo : -2 ^ 31 ≤ n)
    (hneg : n < 0) (hsize : (inodeAt sb s i).size ≤ MAXFILE * BSIZE) :
    Overruns sb s p fd addr n ↔ 0 < fileLen (inodeAt sb s i) (s.file f).off n ∧
      (room p s.mem addr (fileLen (inodeAt sb s i) (s.file f).off n) =
          fileLen (inodeAt sb s i) (s.file f).off n ∨
        ∃ j, j < room p s.mem addr (fileLen (inodeAt sb s i) (s.file f).off n) ∧
          ubyte s.mem.mem (s.mem.pagetable p) (addr + j) ≠
            byteAt s.disk (inodeAt sb s i) ((s.file f).off + j)) := by
  rw [fileLen_of_neg hlo hneg hsize]
  constructor
  · rintro ⟨f', i', hf', -, -, hip', -, hoff, hlt, hchanged⟩
    cases hf.symm.trans hf'
    cases hip.symm.trans hip'
    rw [if_pos hoff]
    exact ⟨by omega, hchanged⟩
  · rintro ⟨hpos, hchanged⟩
    split at hpos
    · next hoff =>
      rw [if_pos hoff] at hchanged
      exact ⟨f, i, hf, hr, hty, hip, hneg, hoff, by omega, hchanged⟩
    · exact absurd hpos (Nat.lt_irrefl 0)

/-- An inode of which the call reads what is there. -/
theorem inode_respects_iff {m m' : Mem} {t addr len c : Nat} {n r : Int} {src : Bytes}
    (hneg : n < 0) (hd : Distinct m.ram t) (hc : c = lead (CanWrite (leaf m.ram t)) addr len)
    (hr : r = if c = len then (len : Int) else -1) (hw : Xv6.Wrote m m' t src 0 addr c) :
    Respects t addr n m r m' ↔
      ¬ (0 < len ∧ (c = len ∨ ∃ j, j < c ∧ ubyte m t (addr + j) ≠ src j)) := by
  have hcan : ∀ j, j < c → CanWrite (leaf m.ram t) (addr + j) := fun j hj =>
    lead_spec.1 j (hc ▸ hj)
  have hle : c ≤ len := hc ▸ lead_le _ _ _
  rw [Respects, Int.toNat_of_nonpos hneg.le, within_zero_iff hw hd hcan]
  constructor
  · rintro ⟨hr0, hsame⟩ ⟨hpos, hall | ⟨j, hj, hne⟩⟩
    · rw [if_pos hall] at hr
      omega
    · exact hne (hsame j hj)
  · intro h
    have hr0 : r ≤ max n 0 := by
      by_cases hall : c = len
      · have hlen : ¬ 0 < len := fun hpos => h ⟨hpos, .inl hall⟩
        rw [if_pos hall] at hr
        omega
      · rw [if_neg hall] at hr
        omega
    refine ⟨hr0, fun j hj => ?_⟩
    by_contra hne
    exact h ⟨by omega, .inr ⟨j, hj, hne⟩⟩

/-- **`read` respects its length**, for every descriptor, buffer and length, exactly where it does
not read on to the end of a file although the length is negative. -/
theorem sys_read_respects_iff {s : State Io} (hs : Ready sb s p) (fd : Int) {addr : Nat}
    (ha : addr < 2 ^ 64) {n : Int} (hlo : -2 ^ 31 ≤ n) :
    (∀ r s', sysRead sb (ioMemory rest) p fd addr n s = .ok r s' →
        Respects (s.mem.pagetable p) addr n s.mem.mem r s'.mem.mem) ↔
      ¬ Overruns sb s p fd addr n := by
  cases hf : fileOf s p fd with
  | none =>
    refine iff_of_true (fun r s' hrun => ?_) fun ⟨f, i, hf', _⟩ => ?_
    · rw [sysRead_none hf] at hrun
      cases hrun
      exact ⟨by omega, .refl ..⟩
    · cases hf.symm.trans hf'
  | some f =>
    rw [sysRead_some hf]
    by_cases hi : (s.file f).readable = true ∧ (s.file f).type = .inode
    · obtain ⟨i, hip, href, hl, hlive, hp⟩ := hs.inode f hi.2
      obtain ⟨s', hrun, hw⟩ := fileread_inode hi.1 hi.2 hip href hl hlive hp hs.apart ha
      have honly : (∀ r s', fileread sb (ioMemory rest) p f addr n s = .ok r s' →
            Respects (s.mem.pagetable p) addr n s.mem.mem r s'.mem.mem) ↔
          Respects (s.mem.pagetable p) addr n s.mem.mem _ s'.mem.mem :=
        ⟨fun h => h _ s' hrun, fun h r s'' hr => by cases hrun.symm.trans hr; exact h⟩
      rw [honly]
      by_cases hneg : n < 0
      · rw [overruns_iff hf hi.1 hi.2 hip hlo hneg hp.size_le]
        exact inode_respects_iff hneg hs.distinct rfl rfl hw
      · refine iff_of_true ?_ fun ⟨_, _, _, _, _, _, hn, _⟩ => hneg hn
        have hlen : fileLen (inodeAt sb s i) (s.file f).off n ≤ n.toNat :=
          fileLen_of_nonneg (not_lt.1 hneg)
        have hle : room p s.mem addr (fileLen (inodeAt sb s i) (s.file f).off n) ≤
            fileLen (inodeAt sb s i) (s.file f).off n := lead_le _ _ _
        have haddr : addr = (addr + 0) % 2 ^ 64 := (Nat.mod_eq_of_lt ha).symm
        exact ⟨by split <;> omega, .of_wrote haddr hw lead_spec.1 (by omega)⟩
    · refine iff_of_true (fun r s' hrun => ?_) fun ⟨f', i, hf', hr, hty, _⟩ => ?_
      · exact (fileread_respects hs ha fun hr hty => hi ⟨hr, hty⟩).ok hrun
      · cases hf.symm.trans hf'
        exact hi ⟨hr, hty⟩

end

/-! ## A file of one byte -/

/-- A memory in which nothing but reading succeeds. -/
def readOnlyMemory : Memory Io where
  copyout := fun _ _ _ _ => pure (-1)
  copyin := fun _ b _ _ => pure (-1, b)
  fetchstr := fun _ _ _ => pure none
  newpipe := pure 0
  pipeclose := fun _ _ => pure ()
  piperead := fun _ _ _ _ => pure (-1)
  pipewrite := fun _ _ _ _ => pure (-1)
  devread := fun _ => none
  devwrite := fun _ => none
  fork := fun _ _ => pure none
  freeproc := fun _ => pure ()
  procPagetable := fun _ => pure 0
  procFreepagetable := fun _ _ => pure ()
  uvmalloc := fun _ _ _ _ => pure 0
  walkaddr := fun _ _ => pure 0
  store := fun _ _ _ => pure ()
  execTail := fun _ _ _ _ _ _ => pure (-1)
  fetchArgs := fun _ _ => pure (false, [])
  freeArgs := fun _ => pure ()

theorem nfile_pos : 0 < NFILE := by decide

/-- Every descriptor is open on a file that holds the byte 7, and the processes have two pages. -/
def oneByte : State Io where
  disk b _ := if b = 50 then 7 else 0
  outstanding := 0
  lh := []
  itable _ :=
    { type := 2, major := 0, minor := 0, nlink := 1, size := 1
      addrs := fun k => if k.val = 0 then 50 else 0
      dev := 1, inum := 2, ref := 1, lock := none, valid := true }
  file _ :=
    { type := .inode, ref := 1, readable := true, writable := false, pipe := 0
      ip := some ⟨0, ninode_pos⟩, off := 0, major := 0 }
  proc _ := { state := .running, ofile := fun _ => some ⟨0, nfile_pos⟩, cwd := none }
  initproc := ⟨0, nproc_pos⟩
  events := []
  mem :=
    { mem := memOf (twoPages 16384 20480)
      pagetable := fun _ => 4096
      killed := fun _ => false
      ring := fun _ => ⟨fun _ => 0, 0, 0⟩
      writeopen := fun _ => false
      cons := ⟨fun _ => 0, 0, 0, 0⟩
      wakes := [] }

theorem oneByte_ready (p : Fin NPROC) : Ready mkfsSuperblock oneByte p := by
  refine ⟨(twoPages_framed (by decide) (by decide) (by decide) (by decide) (by decide)
    (by decide)).2, twoPages_distinct (by decide) (by decide) (by decide) (by decide) (by decide),
    fun f _ => ⟨⟨0, ninode_pos⟩, rfl, by decide, rfl, by decide, fun bn hbn => ?_⟩⟩
  have hbn : bn * 1024 < 1 := hbn
  obtain rfl : bn = 0 := by omega
  exact ⟨by decide, by decide⟩

/-- A length that is not negative is respected. -/
theorem sys_read_respects_five : Ready mkfsSuperblock oneByte ⟨0, nproc_pos⟩ ∧
    ∀ r s', sysRead mkfsSuperblock (ioMemory readOnlyMemory) ⟨0, nproc_pos⟩ 0 0 5 oneByte =
        .ok r s' →
      Respects 4096 0 5 oneByte.mem.mem r s'.mem.mem := by
  refine ⟨oneByte_ready ⟨0, nproc_pos⟩, ?_⟩
  exact (sys_read_respects_iff (oneByte_ready ⟨0, nproc_pos⟩) 0 (by decide) (by decide)).2
    fun ⟨_, _, _, _, _, _, hn, _⟩ => absurd hn (by decide)

/-- `read(fd, buf, -1)` stores the byte, and returns 1. -/
theorem sys_read_overruns : Ready mkfsSuperblock oneByte ⟨0, nproc_pos⟩ ∧
    ∃ s', sysRead mkfsSuperblock (ioMemory readOnlyMemory) ⟨0, nproc_pos⟩ 0 0 (-1) oneByte =
        .ok 1 s' ∧
      ubyte oneByte.mem.mem 4096 0 = 0 ∧ ubyte s'.mem.mem 4096 0 = 7 ∧
      ¬ Respects 4096 0 (-1) oneByte.mem.mem 1 s'.mem.mem := by
  have hs := oneByte_ready ⟨0, nproc_pos⟩
  have hp : Present oneByte.disk (inodeAt mkfsSuperblock oneByte ⟨0, ninode_pos⟩) 1 := by
    obtain ⟨i, hip, -, -, -, hp⟩ := hs.inode ⟨0, nfile_pos⟩ rfl
    cases hip
    exact hp
  obtain ⟨s', hrun, hw⟩ : ∃ s', fileread mkfsSuperblock (ioMemory readOnlyMemory) ⟨0, nproc_pos⟩
      ⟨0, nfile_pos⟩ 0 (-1) oneByte = _ ∧ _ :=
    fileread_inode rfl rfl rfl (by decide) rfl (by decide) hp hs.apart (by decide)
  have hlen : fileLen (inodeAt mkfsSuperblock oneByte ⟨0, ninode_pos⟩) 0 (-1) = 1 := by decide
  have hcan : CanWrite (leaf (twoPages 16384 20480) 4096) 0 :=
    twoPages_canWrite (by decide) (by decide) (by decide)
  have hroom : room ⟨0, nproc_pos⟩ oneByte.mem 0 1 = 1 := lead_eq_iff.2 fun j hj => by
    obtain rfl : j = 0 := by omega
    exact hcan
  rw [show (oneByte.file ⟨0, nfile_pos⟩).off = 0 from rfl, hlen, hroom, if_pos rfl] at hrun
  rw [show (oneByte.file ⟨0, nfile_pos⟩).off = 0 from rfl, hlen, hroom] at hw
  have hnew : ubyte s'.mem.mem 4096 0 = 7 := hw.last 0 (by decide) fun j h1 h2 => by omega
  refine ⟨hs, s', ?_, ?_, hnew, fun h => absurd h.1 (by decide)⟩
  · exact (sysRead_some rfl).trans hrun
  · have hframe := twoPages_frame (by decide) (by decide) (by decide) (by decide) hcan.1.2.1
    rcases hframe with ⟨-, hpa⟩ | ⟨h1, -⟩
    · show twoPages 16384 20480 (pte2pa (leaf (twoPages 16384 20480) 4096 (0 / PGSIZE))) 0 = 0
      rw [hpa]
      simp [twoPages]
    · exact absurd h1 (by decide)

end Xv6.Fs
