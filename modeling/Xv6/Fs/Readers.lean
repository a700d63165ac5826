import Xv6.Base.Monitor
import Xv6.Disk.Bcache
import Xv6.Fs.Inode

/-!
# Processes that read files

Any number of processes are in `read()`, each on its own file, and no transaction is in progress.
The steps of `fileread`, `ilock`, `readi`, `bmap`, `bread` and `brelse` of different processes come
in any order; the critical sections under `bcache.lock` are those of `Disk.Bcache`, a process that
waits for a sleep lock takes no step, and one that waits for the disk goes on at any later time.

`bmap` allocates a block where a file has a hole, and would then hold two buffers.  The files here
have no holes that are read: a process that comes to one takes no further step.
-/

set_option autoImplicit false

namespace Xv6.Readers

open Fs Monitor

/-- What a block is read for: by `ilock`, by `bmap` and by `readi`. -/
inductive Why
  | inode
  | indirect
  | data

/-- Where the code goes on after `brelse`. -/
inductive Cont
  /-- In `ilock`, at `ip->valid = 1`. -/
  | loaded
  /-- In `readi`, at `bread`, with the block number from `bmap`. -/
  | fetch (addr : Nat)
  /-- At the head of the loop of `readi`. -/
  | next
  /-- In `readi`, after a failed copy. -/
  | fail

/-- Where a process is. -/
inductive Pc
  /-- Not in `read()`. -/
  | user
  /-- In `ilock`, at `acquiresleep(&ip->lock)`. -/
  | lock
  /-- In `ilock`, with the inode copied from the disk. -/
  | loaded
  /-- In `readi`, at the tests of `off` and `n`. -/
  | check
  /-- At the head of the loop of `readi`. -/
  | next
  /-- In `bread`, at `bget`. -/
  | bget (w : Why) (blockno : Nat)
  /-- In `bget`, at `acquiresleep(&b->lock)`. -/
  | wait (w : Why) (b : Fin NBUF)
  /-- In `bread`, at the test of `b->valid`. -/
  | test (w : Why) (b : Fin NBUF)
  /-- In `virtio_disk_rw`. -/
  | disk (w : Why) (b : Fin NBUF)
  /-- `bread` has returned. -/
  | use (w : Why) (b : Fin NBUF)
  /-- In `brelse`, at `releasesleep(&b->lock)`. -/
  | unlock (b : Fin NBUF) (k : Cont)
  /-- In `brelse`, at `b->refcnt--`. -/
  | release (b : Fin NBUF) (k : Cont)
  /-- In `fileread`, after `readi`. -/
  | done (ok : Bool)

/-- A process: the offset of its file, and the variables of `readi`. -/
structure Local where
  pc : Pc
  fileOff : Nat
  off : Nat
  n : Nat
  tot : Nat

/-- The buffers with their data and their sleep locks, the inodes and the processes. -/
structure State where
  cache : Bcache.State
  data : Fin NBUF → Block
  holder : Fin NBUF → Option (Fin NPROC)
  itable : Fin NINODE → Inode
  loc : Fin NPROC → Local
  halted : Option String

/-- What the environment decides. -/
inductive Input
  /-- The process calls `read()` for `n` bytes. -/
  | read (n : Nat)
  /-- The copy to the user succeeds, or fails. -/
  | copy (ok : Bool)
  | step

namespace State

/-- Process `p` goes to `x`. -/
def goto (s : State) (p : Fin NPROC) (x : Pc) : State :=
  { s with loc := Function.update s.loc p { s.loc p with pc := x } }

def setLocal (s : State) (p : Fin NPROC) (l : Local) : State :=
  { s with loc := Function.update s.loc p l }

def setCache (s : State) (c : Bcache.State) : State := { s with cache := c }

def setData (s : State) (b : Fin NBUF) (x : Block) : State :=
  { s with data := Function.update s.data b x }

def setHolder (s : State) (b : Fin NBUF) (o : Option (Fin NPROC)) : State :=
  { s with holder := Function.update s.holder b o }

def setInode (s : State) (i : Fin NINODE) (x : Inode) : State :=
  { s with itable := Function.update s.itable i x }

def halt (s : State) (msg : String) : State := { s with halted := some msg }

end State

/-- Where `brelse` returns to. -/
def Cont.pc : Cont → Pc
  | .loaded => .loaded
  | .fetch addr => .bget .data addr
  | .next => .next
  | .fail => .done false

section

variable (sb : Superblock) (disk : Nat → Block) (ip : Fin NPROC → Fin NINODE)

/-- What the process does with a block that it has read. -/
def useBlock (s : State) (p : Fin NPROC) (b : Fin NBUF) : Why → Input → Option State
  | .inode, .step =>
    let x := s.itable (ip p)
    some ((s.setInode (ip p) { x with toDinode := getDinode (s.data b) (x.inum % IPB) }).goto p
      (.unlock b .loaded))
  | .indirect, .step =>
    let addr := getLE (s.data b) (4 * ((s.loc p).off / BSIZE - NDIRECT)) 4
    if addr = 0 then none else some (s.goto p (.unlock b (.fetch addr)))
  | .data, .copy true =>
    let l := s.loc p
    let m := min (l.n - l.tot) (BSIZE - l.off % BSIZE)
    some (s.setLocal p { l with pc := .unlock b .next, off := l.off + m, tot := l.tot + m })
  | .data, .copy false => some (s.goto p (.unlock b .fail))
  | _, _ => none

/-- The head of the loop of `readi`, and `bmap`. -/
def nextBlock (s : State) (p : Fin NPROC) : Option State :=
  let l := s.loc p
  let x := s.itable (ip p)
  if l.tot < l.n then
    if h : l.off / BSIZE < NDIRECT then
      if x.addrs ⟨l.off / BSIZE, Nat.lt_succ_of_lt h⟩ = 0 then none
      else some (s.goto p (.bget .data (x.addrs ⟨l.off / BSIZE, Nat.lt_succ_of_lt h⟩)))
    else if l.off / BSIZE < MAXFILE then
      if x.addrs (Fin.last NDIRECT) = 0 then none
      else some (s.goto p (.bget .indirect (x.addrs (Fin.last NDIRECT))))
    else some (s.halt "bmap: out of range")
  else some (s.goto p (.done true))

/-- The next step of process `p`, if it can take one. -/
def step (s : State) (p : Fin NPROC) (i : Input) : Option State :=
  let l := s.loc p
  let x := s.itable (ip p)
  if s.halted.isSome then none else
  match l.pc, i with
  | .user, .read n => some (s.setLocal p { l with pc := .lock, off := l.fileOff, n := n, tot := 0 })
  | .lock, .step =>
    if x.lock.isSome then none
    else
      some ((s.setInode (ip p) { x with lock := some p }).goto p
        (if x.valid then .check else .bget .inode (iblock x.inum sb)))
  | .loaded, .step =>
    if x.type = 0 then some (s.halt "ilock: no type")
    else some ((s.setInode (ip p) { x with valid := true }).goto p .check)
  | .check, .step =>
    if l.off > x.size ∨ (l.off + l.n) % 2 ^ 32 < l.off then some (s.goto p (.done true))
    else if (l.off + l.n) % 2 ^ 32 > x.size then
      some (s.setLocal p { l with pc := .next, n := x.size - l.off })
    else some (s.goto p .next)
  | .next, .step => nextBlock ip s p
  | .bget w blockno, .step =>
    match Bcache.bget x.dev blockno s.cache with
    | .ok b c => some ((s.setCache c).goto p (.wait w b))
    | .error (.panic msg) _ => some (s.halt msg)
    | .error _ _ => none
  | .wait w b, .step =>
    if (s.holder b).isSome then none else some ((s.setHolder b (some p)).goto p (.test w b))
  | .test w b, .step => some (s.goto p (if (s.cache.buf b).valid then .use w b else .disk w b))
  | .disk w b, .step =>
    -- the request is complete
    let e := s.cache.buf b
    some (((s.setData b (disk e.blockno)).setCache (s.cache.setBuf b { e with valid := true })).goto p
      (.use w b))
  | .use w b, i => useBlock ip s p b w i
  | .unlock b k, .step => some ((s.setHolder b none).goto p (.release b k))
  | .release b k, .step =>
    some ((s.setCache (finalState (Bcache.brelse b) s.cache)).goto p k.pc)
  | .done ok, .step =>
    some ((s.setInode (ip p) { x with lock := none }).setLocal p
      { l with pc := .user, fileOff := if ok then l.fileOff + l.tot else l.fileOff })
  | _, _ => none

/-! ## Holders -/

/-- The buffer that a process has a reference to. -/
def Pc.buf : Pc → Option (Fin NBUF)
  | .wait _ b | .test _ b | .disk _ b | .use _ b | .unlock b _ | .release b _ => some b
  | _ => none

/-- The processes between `bget` and the end of `brelse`. -/
def holders (s : State) : Nat := total (fun l : Local => if l.pc.buf.isSome then 1 else 0) s.loc

/-- The references to one buffer. -/
def refs (s : State) (b : Fin NBUF) : Nat :=
  total (fun l : Local => if l.pc.buf = some b then 1 else 0) s.loc

/-- The ring is sound, and the reference counts are exact. -/
structure Counted (s : State) : Prop where
  listed : ∃ l, Bcache.Listed s.cache.links l
  refcnt : ∀ b, (s.cache.buf b).refcnt = refs s b

theorem refs_le (s : State) (b : Fin NBUF) : refs s b ≤ NPROC := by
  refine total_le (fun l => ?_) s.loc
  split <;> decide

/-- Different buffers are referred to by different processes. -/
theorem exists_free {s : State} (h : Counted s) (hlt : holders s < NBUF) :
    ∃ b, (s.cache.buf b).refcnt = 0 := by
  by_contra hall
  have hex : ∀ b : Fin NBUF, ∃ p, (s.loc p).pc.buf = some b := by
    intro b
    by_contra hno
    refine hall ⟨b, (h.refcnt b).trans (total_eq_zero fun p => if_neg fun hp => hno ⟨p, hp⟩)⟩
  choose g hg using hex
  have hinj : Function.Injective g := by
    intro b c hbc
    have h1 := hg b
    rw [hbc, hg c] at h1
    exact (Option.some.inj h1).symm
  have hle : NBUF ≤ holders s := le_total_of_injective hinj fun b => by
    rw [hg b]
    exact Nat.le_refl 1
  omega

/-- `bget` finds a buffer if fewer than `NBUF` processes hold one. -/
theorem Counted.bget {s : State} (h : Counted s) (hlt : holders s < NBUF) (dev blockno : Nat) :
    ∃ b c, Bcache.bget dev blockno s.cache = .ok b c := by
  obtain ⟨l, hl⟩ := h.listed
  rw [Bcache.bget_eq hl]
  cases l.find? fun b => s.cache.isBlock dev blockno (some b) with
  | some b => exact ⟨b, _, rfl⟩
  | none =>
    cases hf : l.reverse.find? fun b => s.cache.isFree (some b) with
    | some b => exact ⟨b, _, rfl⟩
    | none =>
      obtain ⟨b, hb⟩ := exists_free h hlt
      have := List.find?_eq_none.1 hf b (List.mem_reverse.2 (hl.all b))
      exact absurd (beq_iff_eq.2 hb) this

/-! ## Steps -/

/-- A step that takes and drops no reference to a buffer. -/
structure Plain (s : State) (p : Fin NPROC) (s' : State) : Prop where
  links : s'.cache.links = s.cache.links
  refcnt : ∀ b, (s'.cache.buf b).refcnt = (s.cache.buf b).refcnt
  loc : ∃ l : Local, s'.loc = Function.update s.loc p l ∧ l.pc.buf = (s.loc p).pc.buf
  halted : s'.halted = s.halted

/-- What a step does to the buffers. -/
inductive Move (ip : Fin NPROC → Fin NINODE) (s : State) (p : Fin NPROC) : State → Prop
  | plain {s' : State} (h : Plain s p s') : Move ip s p s'
  | halt {msg : String} (hmsg : msg ≠ "bget: no buffers") : Move ip s p (s.halt msg)
  | get {w : Why} {blockno : Nat} {b : Fin NBUF} {c : Bcache.State}
      (hpc : (s.loc p).pc = .bget w blockno)
      (hget : Bcache.bget (s.itable (ip p)).dev blockno s.cache = .ok b c) :
      Move ip s p ((s.setCache c).goto p (.wait w b))
  | starve {w : Why} {blockno : Nat} {msg : String} {c : Bcache.State}
      (hpc : (s.loc p).pc = .bget w blockno)
      (hget : Bcache.bget (s.itable (ip p)).dev blockno s.cache = .error (.panic msg) c) :
      Move ip s p (s.halt msg)
  | release {b : Fin NBUF} {k : Cont} (hpc : (s.loc p).pc = .release b k) :
      Move ip s p ((s.setCache (finalState (Bcache.brelse b) s.cache)).goto p k.pc)

variable {s s' : State} {p : Fin NPROC} {i : Input}

/-- A process goes on without touching the reference counts. -/
theorem Plain.of_loc {l : Local} (hc : s'.cache = s.cache)
    (hl : s'.loc = Function.update s.loc p l) (hb : l.pc.buf = (s.loc p).pc.buf)
    (hh : s'.halted = s.halted) : Plain s p s' :=
  ⟨by rw [hc], fun b => by rw [hc], ⟨l, hl, hb⟩, hh⟩

theorem move_useBlock {b : Fin NBUF} {w : Why} (hpc : (s.loc p).pc = .use w b)
    (h : useBlock ip s p b w i = some s') : Move ip s p s' := by
  have hb : (s.loc p).pc.buf = some b := by rw [hpc]; rfl
  cases w with
  | inode =>
    cases i with
    | step => cases h; exact .plain (.of_loc rfl rfl hb.symm rfl)
    | read n => cases h
    | copy ok => cases h
  | indirect =>
    cases i with
    | step =>
      rw [useBlock] at h
      split at h
      · cases h
      · cases h; exact .plain (.of_loc rfl rfl hb.symm rfl)
    | read n => cases h
    | copy ok => cases h
  | data =>
    cases i with
    | step => cases h
    | read n => cases h
    | copy ok =>
      cases ok with
      | true => cases h; exact .plain (.of_loc rfl rfl hb.symm rfl)
      | false => cases h; exact .plain (.of_loc rfl rfl hb.symm rfl)

theorem move_nextBlock (hpc : (s.loc p).pc = .next) (h : nextBlock ip s p = some s') :
    Move ip s p s' := by
  have hb : (s.loc p).pc.buf = none := by rw [hpc]; rfl
  unfold nextBlock at h
  dsimp only at h
  split at h
  · split at h
    · split at h
      · cases h
      · cases h; exact .plain (.of_loc rfl rfl hb.symm rfl)
    · split at h
      · split at h
        · cases h
        · cases h; exact .plain (.of_loc rfl rfl hb.symm rfl)
      · cases h; exact .halt (by decide)
  · cases h; exact .plain (.of_loc rfl rfl hb.symm rfl)

/-- Every step is one of the moves. -/
theorem step_move (h : step sb disk ip s p i = some s') : s.halted = none ∧ Move ip s p s' := by
  unfold step at h
  dsimp only at h
  split at h
  · cases h
  next hh =>
  refine ⟨by simpa using hh, ?_⟩
  split at h
  · next hpc => cases h; exact .plain (.of_loc rfl rfl (by rw [hpc]; rfl) rfl)
  · next hpc =>
    split at h
    · cases h
    · cases h
      refine .plain (.of_loc rfl rfl ?_ rfl)
      rw [hpc]
      show Pc.buf (if _ then _ else _) = none
      split <;> rfl
  · next hpc =>
    split at h
    · cases h; exact .halt (by decide)
    · cases h; exact .plain (.of_loc rfl rfl (by rw [hpc]; rfl) rfl)
  · next hpc =>
    split at h
    · cases h; exact .plain (.of_loc rfl rfl (by rw [hpc]; rfl) rfl)
    · split at h
      · cases h; exact .plain (.of_loc rfl rfl (by rw [hpc]; rfl) rfl)
      · cases h; exact .plain (.of_loc rfl rfl (by rw [hpc]; rfl) rfl)
  · next hpc => exact move_nextBlock ip hpc h
  · next hpc =>
    split at h
    · next hget => cases h; exact .get hpc hget
    · next hget => cases h; exact .starve hpc hget
    · cases h
  · next hpc =>
    split at h
    · cases h
    · cases h; exact .plain (.of_loc rfl rfl (by rw [hpc]; rfl) rfl)
  · next hpc =>
    cases h
    refine .plain (.of_loc rfl rfl ?_ rfl)
    rw [hpc]
    show Pc.buf (if _ then _ else _) = _
    split <;> rfl
  · next w b hpc =>
    cases h
    refine .plain ⟨rfl, fun c => ?_, ⟨_, rfl, by rw [hpc]; rfl⟩, rfl⟩
    show ((s.cache.setBuf b _).buf c).refcnt = _
    by_cases hc : c = b
    · rw [hc, Bcache.setBuf_self]
    · rw [Bcache.setBuf_of_ne _ hc]
  · next hpc => exact move_useBlock ip hpc h
  · next hpc => cases h; exact .plain (.of_loc rfl rfl (by rw [hpc]; rfl) rfl)
  · next hpc => cases h; exact .release hpc
  · next hpc => cases h; exact .plain (.of_loc rfl rfl (by rw [hpc]; rfl) rfl)
  · cases h

/-- A process comes to refer to another buffer, or to none. -/
theorem refs_goto {x : Pc} (b : Fin NBUF) (hs : s'.loc = Function.update s.loc p
      { s.loc p with pc := x }) :
    refs s' b + (if (s.loc p).pc.buf = some b then 1 else 0) =
      refs s b + (if x.buf = some b then 1 else 0) := by
  rw [refs, refs, hs]
  exact total_update (fun l : Local => if l.pc.buf = some b then 1 else 0) s.loc p _

theorem Counted.plain (h : Counted s) (hp : Plain s p s') : Counted s' := by
  obtain ⟨l, hl, hb⟩ := hp.loc
  refine ⟨by rw [hp.links]; exact h.listed, fun b => ?_⟩
  rw [hp.refcnt, h.refcnt, refs, refs, hl]
  exact (total_update_same (by rw [hb])).symm

theorem bget_effect {l : List (Fin NBUF)} {c d : Bcache.State} {b : Fin NBUF} {dev blockno : Nat}
    (hl : Bcache.Listed c.links l) (hlt : ∀ b, (c.buf b).refcnt + 1 < 2 ^ 32)
    (h : Bcache.bget dev blockno c = .ok b d) : d.links = c.links ∧
      (d.buf b).refcnt = (c.buf b).refcnt + 1 ∧
      ∀ a, a ≠ b → (d.buf a).refcnt = (c.buf a).refcnt := by
  rw [Bcache.bget_eq hl] at h
  split at h
  · cases h
    refine ⟨rfl, ?_, fun a ha => by rw [Bcache.setBuf_of_ne _ ha]⟩
    rw [Bcache.setBuf_self]
    exact Nat.mod_eq_of_lt (hlt b)
  · split at h
    · next hb =>
      cases h
      have h0 : (c.buf b).refcnt = 0 := by
        have := List.find?_some hb
        exact beq_iff_eq.1 this
      refine ⟨rfl, ?_, fun a ha => by rw [Bcache.setBuf_of_ne _ ha]⟩
      rw [Bcache.setBuf_self, h0]
    · cases h

theorem brelse_effect {l : List (Fin NBUF)} {c : Bcache.State} {b : Fin NBUF}
    (hl : Bcache.Listed c.links l) (hpos : 0 < (c.buf b).refcnt) (hlt : (c.buf b).refcnt < 2 ^ 32) :
    (∃ l', Bcache.Listed (finalState (Bcache.brelse b) c).links l') ∧
      ((finalState (Bcache.brelse b) c).buf b).refcnt + 1 = (c.buf b).refcnt ∧
      ∀ a, a ≠ b → ((finalState (Bcache.brelse b) c).buf a).refcnt = (c.buf a).refcnt := by
  have hself : ((c.setBuf b (Bcache.decr (c.buf b))).buf b).refcnt + 1 = (c.buf b).refcnt := by
    rw [Bcache.setBuf_self]
    show ((c.buf b).refcnt + (2 ^ 32 - 1)) % 2 ^ 32 + 1 = (c.buf b).refcnt
    omega
  have hne : ∀ a, a ≠ b →
      ((c.setBuf b (Bcache.decr (c.buf b))).buf a).refcnt = (c.buf a).refcnt := fun a ha => by
    rw [Bcache.setBuf_of_ne _ ha]
  by_cases h0 : ((c.setBuf b (Bcache.decr (c.buf b))).buf b).refcnt = 0
  · have hfin : finalState (Bcache.brelse b) c =
        { c.setBuf b (Bcache.decr (c.buf b)) with
          links := (c.links.remove (some b)).insert none (some b) } := if_pos h0
    rw [hfin]
    exact ⟨⟨_, hl.toFront b⟩, hself, hne⟩
  · have hfin : finalState (Bcache.brelse b) c = c.setBuf b (Bcache.decr (c.buf b)) := if_neg h0
    rw [hfin]
    exact ⟨⟨l, hl⟩, hself, hne⟩

/-- A reference more. -/
theorem Counted.get (h : Counted s) {b : Fin NBUF} {c : Bcache.State} {x : Pc}
    (hb : (s.loc p).pc.buf = none) (hx : x.buf = some b)
    (hl : ∃ l, Bcache.Listed c.links l) (h1 : (c.buf b).refcnt = (s.cache.buf b).refcnt + 1)
    (h2 : ∀ a, a ≠ b → (c.buf a).refcnt = (s.cache.buf a).refcnt) :
    Counted ((s.setCache c).goto p x) := by
  refine ⟨hl, fun a => ?_⟩
  have hr : refs ((s.setCache c).goto p x) a + _ = refs s a + _ := refs_goto a (s := s) rfl
  rw [hb, hx, if_neg nofun, Nat.add_zero] at hr
  show (c.buf a).refcnt = _
  by_cases ha : a = b
  · rw [ha, if_pos rfl] at hr
    rw [ha, h1, h.refcnt]
    exact hr.symm
  · rw [if_neg fun heq => ha (Option.some.inj heq).symm, Nat.add_zero] at hr
    rw [h2 a ha, h.refcnt]
    exact hr.symm

/-- A reference less. -/
theorem Counted.drop (h : Counted s) {b : Fin NBUF} {c : Bcache.State} {x : Pc}
    (hb : (s.loc p).pc.buf = some b) (hx : x.buf = none)
    (hl : ∃ l, Bcache.Listed c.links l) (h1 : (c.buf b).refcnt + 1 = (s.cache.buf b).refcnt)
    (h2 : ∀ a, a ≠ b → (c.buf a).refcnt = (s.cache.buf a).refcnt) :
    Counted ((s.setCache c).goto p x) := by
  refine ⟨hl, fun a => ?_⟩
  have hr : refs ((s.setCache c).goto p x) a + _ = refs s a + _ := refs_goto a (s := s) rfl
  rw [hb, hx, if_neg (c := none = some a) nofun, Nat.add_zero] at hr
  show (c.buf a).refcnt = _
  by_cases ha : a = b
  · rw [ha, if_pos rfl] at hr
    rw [h.refcnt] at h1
    rw [ha]
    omega
  · rw [if_neg fun heq => ha (Option.some.inj heq).symm, Nat.add_zero] at hr
    rw [h2 a ha, h.refcnt]
    exact hr.symm

theorem Counted.refcnt_lt (h : Counted s) (b : Fin NBUF) : (s.cache.buf b).refcnt + 1 < 2 ^ 32 := by
  have hle := refs_le s b
  have hN : NPROC + 1 < 2 ^ 32 := by decide
  rw [h.refcnt]
  omega

/-- Whoever refers to a buffer is counted. -/
theorem Counted.refcnt_pos (h : Counted s) {b : Fin NBUF} (hb : (s.loc p).pc.buf = some b) :
    0 < (s.cache.buf b).refcnt := by
  have hle : (if (s.loc p).pc.buf = some b then 1 else 0) ≤ refs s b :=
    le_total (fun l : Local => if l.pc.buf = some b then 1 else 0) s.loc p
  rw [if_pos hb] at hle
  rw [h.refcnt]
  exact hle

/-- Every step keeps the reference counts exact. -/
theorem Counted.move (h : Counted s) (hm : Move ip s p s') : Counted s' := by
  obtain ⟨l, hl⟩ := h.listed
  cases hm with
  | plain hp => exact h.plain hp
  | halt hmsg => exact ⟨h.listed, h.refcnt⟩
  | starve hpc hget => exact ⟨h.listed, h.refcnt⟩
  | get hpc hget =>
    obtain ⟨h1, h2, h3⟩ := bget_effect hl h.refcnt_lt hget
    exact h.get (by rw [hpc]; rfl) rfl ⟨l, h1 ▸ hl⟩ h2 h3
  | @release b k hpc =>
    have hb : (s.loc p).pc.buf = some b := by rw [hpc]; rfl
    have hlt := h.refcnt_lt b
    obtain ⟨h1, h2, h3⟩ := brelse_effect hl (h.refcnt_pos hb) (by omega)
    exact h.drop hb (by cases k <;> rfl) h1 h2 h3

/-! ## Runs -/

/-- Nobody reads, and no buffer is in use. -/
structure Quiet (s : State) : Prop where
  listed : ∃ l, Bcache.Listed s.cache.links l
  refcnt : ∀ b, (s.cache.buf b).refcnt = 0
  user : ∀ p, (s.loc p).pc = .user
  halted : s.halted = none

theorem Quiet.counted (h : Quiet s) : Counted s :=
  ⟨h.listed, fun b => (h.refcnt b).trans (total_eq_zero fun q => by rw [h.user q]; rfl).symm⟩

/-- Process `p` calls `bget` only while fewer than `NBUF` processes hold a buffer. -/
def Calm (s : State) (p : Fin NPROC) : Prop :=
  ∀ w blockno, (s.loc p).pc = .bget w blockno → holders s < NBUF

/-- The states of the runs from `s` whose steps all meet the condition. -/
inductive Reach (s : State) : State → Prop
  | refl : Reach s s
  | step {s' s'' : State} {p : Fin NPROC} {i : Input} (hr : Reach s s') (hc : Calm s' p)
      (hs : Readers.step sb disk ip s' p i = some s'') : Reach s s''

theorem Reach.counted (hq : Quiet s) (hr : Reach sb disk ip s s') :
    Counted s' ∧ s'.halted ≠ some "bget: no buffers" := by
  induction hr with
  | refl => exact ⟨hq.counted, by rw [hq.halted]; exact nofun⟩
  | @step s' s'' p i _ hc hs ih =>
    obtain ⟨hcount, -⟩ := ih
    obtain ⟨hnone, hm⟩ := step_move sb disk ip hs
    refine ⟨hcount.move ip hm, ?_⟩
    cases hm with
    | plain hp =>
      rw [hp.halted, hnone]
      exact nofun
    | @halt msg hmsg => exact fun h => hmsg (Option.some.inj h)
    | get hpc hget =>
      show s'.halted ≠ _
      rw [hnone]
      exact nofun
    | @starve w blockno msg c hpc hget =>
      obtain ⟨b, d, hok⟩ := hcount.bget (hc w blockno hpc) (s'.itable (ip p)).dev blockno
      rw [hok] at hget
      cases hget
    | release hpc =>
      show s'.halted ≠ _
      rw [hnone]
      exact nofun

/-- Steps one after the other. -/
def run : List (Fin NPROC × Input) → State → Option State
  | [], s => some s
  | x :: xs, s => (Readers.step sb disk ip s x.1 x.2).bind (run xs)

end

/-- Files of one byte, each in a block of its own, and no block in the cache. -/
def idle : State where
  cache := Bcache.binit
  data := fun _ _ => 0
  holder := fun _ => none
  itable := fun i =>
    { type := T_FILE, major := 0, minor := 0, nlink := 1, size := 1, addrs := fun _ => 100 + i,
      dev := ROOTDEV, inum := i, ref := 1, lock := none, valid := true }
  loc := fun _ => { pc := .user, fileOff := 0, off := 0, n := 0, tot := 0 }
  halted := none

theorem idle_quiet : Quiet idle :=
  ⟨⟨_, Bcache.listed_init⟩, fun _ => rfl, fun _ => rfl, rfl⟩

/-- Process `p` reads inode `p`, for the first processes. -/
def ownFile (p : Fin NPROC) : Fin NINODE := ⟨p % NINODE, Nat.mod_lt _ (by decide)⟩

/-- The first `n` processes call `read()` and go on to the end of `bget`. -/
def allMiss (n : Nat) : List (Fin NPROC × Input) :=
  (List.finRange NPROC).filter (fun p => decide (p.val < n)) |>.flatMap fun p =>
    [(p, .read 1), (p, .step), (p, .step), (p, .step), (p, .step)]

/-- The superblock plays no part in a read of inodes in memory. -/
def anySuperblock : Superblock where
  magic := 0
  size := 0
  nblocks := 0
  ninodes := 0
  nlog := 0
  logstart := 0
  inodestart := 0
  bmapstart := 0

/-- One call of `read()`. -/
def oneRead : State :=
  idle.setLocal ⟨0, nproc_pos⟩ { pc := .lock, fileOff := 0, off := 0, n := 1, tot := 0 }

end Xv6.Readers
