import Xv6.Base.Monitor
import Xv6.Base.RingBuffer

/-!
# Pipes

`kernel/pipe.c` and the reference counts of `kernel/file.c`: any number of processes write to,
read from, duplicate and close the two ends of one pipe, and kill each other.  `pi->lock` is the
lock of a `Monitor` with two channels, `&pi->nread` for readers and `&pi->nwrite` for writers; the
buffer is a `RingBuffer` whose counters wrap at 32 bits.

An end of the pipe is named by `writable`: `true` is the write end.  The reference counts are
changed under `ftable.lock`, in one step each.  What `copyin` and `copyout` do is an input: the
byte read from the user's memory, or a failure.

Ghost state records the bytes stored by writers, the bytes taken by readers, what each `piperead`
returned, and the `kfree` of the page.
-/

set_option autoImplicit false

namespace Xv6

open Monitor

namespace Pipe

/-- `PIPESIZE`. -/
def PIPESIZE : Nat := 512

/-- The range of a `uint`. -/
def UINT : Nat := 2 ^ 32

/-- The addresses processes sleep on. -/
inductive Chan
  /-- `&pi->nread`. -/
  | nread
  /-- `&pi->nwrite`. -/
  | nwrite
  deriving DecidableEq

/-- `struct pipe`, the reference counts of its two files and the descriptors that refer to them. -/
structure Shared (n : Nat) where
  /-- `data`, `nread` and `nwrite`. -/
  ring : RingBuffer UInt8
  readopen : Bool
  writeopen : Bool
  /-- `f->ref` of the file of each end. -/
  ref : Bool → Nat
  /-- How many descriptors of each process refer to each end. -/
  fds : Fin n → Bool → Nat
  /-- Ghost: the bytes stored by writers. -/
  stored : List UInt8
  /-- Ghost: the bytes taken by readers. -/
  taken : List UInt8
  /-- Ghost: what each `piperead` returned. -/
  reads : List (List UInt8)
  /-- Ghost: a `pipeclose` has found both ends closed. -/
  doomed : Bool
  /-- Ghost: how often the page has been freed. -/
  freed : Nat

/-- Where a process is in the code of the pipe. -/
inductive Loc
  | user
  /-- In `pipewrite` of `k` bytes, at the tests of the loop, `i` bytes having been stored.
  `dirty`: some since the last `wakeup(&pi->nread)`. -/
  | writeLoop (i : Nat) (k : Int) (dirty : Bool)
  /-- In `pipewrite`, at the `release(&pi->lock)` before `return -1`. -/
  | writeFail
  /-- In `pipewrite`, at the test whether the buffer is full. -/
  | writeTest (i : Nat) (k : Int) (dirty : Bool)
  /-- In `pipewrite`, at `sleep(&pi->nwrite, &pi->lock)`. -/
  | writeSleep (i : Nat) (k : Int)
  /-- In `pipewrite`, at the `wakeup(&pi->nread)` after the loop. -/
  | writeWake (i : Nat)
  /-- In `pipewrite`, at the `release(&pi->lock)` before `return i`. -/
  | writeDone (i : Nat)
  /-- In `piperead` of `k` bytes, at the test of the first loop. -/
  | readLoop (k : Int)
  /-- In `piperead`, at the `release(&pi->lock)` before `return -1`. -/
  | readFail
  /-- In `piperead`, at `sleep(&pi->nread, &pi->lock)`. -/
  | readSleep (k : Int)
  /-- In `piperead`, at the test of the second loop, the bytes `got` having been copied out. -/
  | readCopy (k : Int) (got : List UInt8)
  /-- In `piperead`, at `wakeup(&pi->nwrite)`. -/
  | readWake (k : Int) (got : List UInt8)
  /-- In `piperead`, at the `release(&pi->lock)` before `return i`. -/
  | readDone (k : Int) (got : List UInt8)
  /-- In `pipeclose`, at `acquire(&pi->lock)`. -/
  | closeLock (writable : Bool)
  /-- In `pipeclose`, at closing the end. -/
  | closeSet (writable : Bool)
  /-- In `pipeclose`, at the `wakeup`. -/
  | closeWake (writable : Bool)
  /-- In `pipeclose`, at the test whether both ends are closed. -/
  | closeTest
  /-- In `pipeclose`, at `release(&pi->lock)`. -/
  | closeRel (last : Bool)
  /-- In `pipeclose`, at `kfree((char*)pi)`. -/
  | free

/-- What a process does next, where it has a choice, and what `copyin` and `copyout` do. -/
inductive Call (n : Nat)
  | write (k : Int)
  | read (k : Int)
  | close (writable : Bool)
  /-- `filedup` for a descriptor of process `q`: by `dup` or by `fork`. -/
  | dup (writable : Bool) (q : Fin n)
  | kill (q : Fin n)
  /-- The next byte is copied from or to the user's memory, or the copy fails. -/
  | copy (ch : Option UInt8)

namespace Shared

variable {n : Nat}

/-- `pi->nread == pi->nwrite`. -/
abbrev Empty (t : Shared n) : Prop := t.ring.nread = t.ring.nwrite

/-- `pi->nwrite == pi->nread + PIPESIZE`. -/
abbrev Full (t : Shared n) : Prop := t.ring.nwrite = (t.ring.nread + PIPESIZE) % UINT

/-- Is the end open? -/
def opened (t : Shared n) (writable : Bool) : Bool := if writable then t.writeopen else t.readopen

/-- `pi->readopen == 0 && pi->writeopen == 0`. -/
def bothClosed (t : Shared n) : Bool := !t.readopen && !t.writeopen

/-- `pi->data[pi->nwrite++ % PIPESIZE] = ch`. -/
def store (t : Shared n) (ch : UInt8) : Shared n :=
  { t with ring := t.ring.push PIPESIZE UINT ch, stored := t.stored ++ [ch] }

/-- `ch = pi->data[pi->nread++ % PIPESIZE]`. -/
def take (t : Shared n) : Shared n :=
  { t with ring := t.ring.pop UINT, taken := t.taken ++ [t.ring.front PIPESIZE] }

/-- A `piperead` is done. -/
def endRead (t : Shared n) (got : List UInt8) : Shared n := { t with reads := t.reads ++ [got] }

/-- `filedup(f)`, for a descriptor of process `q`. -/
def dup (t : Shared n) (writable : Bool) (q : Fin n) : Shared n :=
  { t with
    ref := Function.update t.ref writable (t.ref writable + 1)
    fds := Function.update t.fds q
      (Function.update (t.fds q) writable (t.fds q writable + 1)) }

/-- `--f->ref` in `fileclose(f)`, for a descriptor of process `p`. -/
def drop (t : Shared n) (p : Fin n) (writable : Bool) : Shared n :=
  { t with
    ref := Function.update t.ref writable (t.ref writable - 1)
    fds := Function.update t.fds p
      (Function.update (t.fds p) writable (t.fds p writable - 1)) }

/-- `pi->writeopen = 0` or `pi->readopen = 0`. -/
def shut (t : Shared n) (writable : Bool) : Shared n :=
  if writable then { t with writeopen := false } else { t with readopen := false }

end Shared

/-- The code of `pipewrite`, `piperead`, `filedup`, `fileclose` and `pipeclose`. -/
def code {n : Nat} : Code n Chan (Shared n) Loc (Call n)
  | p, .user, t, .write k =>
    if 0 < t.fds p true then some (.acquire (.writeLoop 0 k false)) else none
  | p, .user, t, .read k => if 0 < t.fds p false then some (.acquire (.readLoop k)) else none
  | p, .user, t, .dup w q =>
    if 0 < t.fds p w then
      if t.ref w < 1 then some (.panic "filedup") else some (.update (t.dup w q) .user)
    else none
  | p, .user, t, .close w =>
    if 0 < t.fds p w then
      if t.ref w < 1 then some (.panic "fileclose")
      else some (.update (t.drop p w) (if t.ref w - 1 > 0 then .user else .closeLock w))
    else none
  | _, .user, _, .kill q => some (.kill q .user)
  | _, .user, _, .copy _ => none
  | _, .writeLoop i k d, t, _ =>
    if (i : Int) < k then
      if t.readopen = false then some (.update t .writeFail)
      else some (.killed fun b => if b then .writeFail else .writeTest i k d)
    else some (.update t (.writeWake i))
  | _, .writeFail, _, _ => some (.release .user)
  | _, .writeTest i k _, t, c =>
    if t.Full then some (.wakeup .nread (.writeSleep i k))
    else
      match c with
      | .copy (some ch) => some (.update (t.store ch) (.writeLoop (i + 1) k true))
      | .copy none => some (.update t (.writeWake i))
      | _ => none
  | _, .writeSleep i k, _, _ => some (.sleep .nwrite (.writeLoop i k false))
  | _, .writeWake i, _, _ => some (.wakeup .nread (.writeDone i))
  | _, .writeDone _, _, _ => some (.release .user)
  | _, .readLoop k, t, _ =>
    if t.Empty ∧ t.writeopen = true then
      some (.killed fun b => if b then .readFail else .readSleep k)
    else some (.update t (.readCopy k []))
  | _, .readFail, _, _ => some (.release .user)
  | _, .readSleep k, _, _ => some (.sleep .nread (.readLoop k))
  | _, .readCopy k got, t, c =>
    if (got.length : Int) < k then
      if t.Empty then some (.update (t.endRead got) (.readWake k got))
      else
        match c with
        | .copy (some _) => some (.update t.take (.readCopy k (got ++ [t.ring.front PIPESIZE])))
        -- the byte is lost
        | .copy none => some (.update (t.take.endRead got) (.readWake k got))
        | _ => none
    else some (.update (t.endRead got) (.readWake k got))
  | _, .readWake k got, _, _ => some (.wakeup .nwrite (.readDone k got))
  | _, .readDone _ _, _, _ => some (.release .user)
  | _, .closeLock w, _, _ => some (.acquire (.closeSet w))
  | _, .closeSet w, t, _ => some (.update (t.shut w) (.closeWake w))
  | _, .closeWake w, _, _ => some (.wakeup (if w then .nread else .nwrite) .closeTest)
  | _, .closeTest, t, _ =>
    some (.update { t with doomed := t.doomed || t.bothClosed } (.closeRel t.bothClosed))
  | _, .closeRel last, _, _ => some (.release (if last then .free else .user))
  | _, .free, t, _ => some (.update { t with freed := t.freed + 1 } .user)

/-- A machine with `n` processes and one pipe. -/
abbrev Machine (n : Nat) : Type := State n Chan (Shared n) Loc

/-- What `pipealloc` leaves: one descriptor for each end, both of process `p`. -/
def pipealloc {n : Nat} (p : Fin n) (data : Nat → UInt8) : Shared n where
  ring := { data := data, nread := 0, nwrite := 0 }
  readopen := true
  writeopen := true
  ref := fun _ => 1
  fds := fun q _ => if q = p then 1 else 0
  stored := []
  taken := []
  reads := []
  doomed := false
  freed := 0

/-- The machine at the start: process `p` has created the pipe. -/
def boot {n : Nat} (p : Fin n) (data : Nat → UInt8) : Machine n :=
  start (fun _ => .user) (pipealloc p data)

/-! ## What the code does -/

/-- The acts of the code, one constructor for each, with the tests that lead to it. -/
inductive Does {n : Nat} (p : Fin n) (t : Shared n) (c : Call n) :
    Loc → Act n Chan (Shared n) Loc → Prop
  | write {k : Int} (hf : 0 < t.fds p true) : Does p t c .user (.acquire (.writeLoop 0 k false))
  | read {k : Int} (hf : 0 < t.fds p false) : Does p t c .user (.acquire (.readLoop k))
  | dupPanic {w : Bool} (hf : 0 < t.fds p w) (hr : t.ref w < 1) :
      Does p t c .user (.panic "filedup")
  | dup {w : Bool} {q : Fin n} (hr : 1 ≤ t.ref w) : Does p t c .user (.update (t.dup w q) .user)
  | closePanic {w : Bool} (hf : 0 < t.fds p w) (hr : t.ref w < 1) :
      Does p t c .user (.panic "fileclose")
  | close {w : Bool} (hf : 0 < t.fds p w) (hr : 1 < t.ref w) :
      Does p t c .user (.update (t.drop p w) .user)
  | closeLast {w : Bool} (hf : 0 < t.fds p w) (hr : t.ref w = 1) :
      Does p t c .user (.update (t.drop p w) (.closeLock w))
  | kill {q : Fin n} : Does p t c .user (.kill q .user)
  | writeClosed {i : Nat} {k : Int} {d : Bool} (hr : t.readopen = false) :
      Does p t c (.writeLoop i k d) (.update t .writeFail)
  | writeKilled {i : Nat} {k : Int} {d : Bool} (hi : (i : Int) < k) (hr : t.readopen = true) :
      Does p t c (.writeLoop i k d) (.killed fun b => if b then .writeFail else .writeTest i k d)
  | writeEnd {i : Nat} {k : Int} {d : Bool} : Does p t c (.writeLoop i k d) (.update t (.writeWake i))
  | writeFail : Does p t c .writeFail (.release .user)
  | writeFull {i : Nat} {k : Int} {d : Bool} (hf : t.Full) :
      Does p t c (.writeTest i k d) (.wakeup .nread (.writeSleep i k))
  | store {i : Nat} {k : Int} {d : Bool} {ch : UInt8} (hf : ¬ t.Full) :
      Does p t c (.writeTest i k d) (.update (t.store ch) (.writeLoop (i + 1) k true))
  | writeStop {i : Nat} {k : Int} {d : Bool} : Does p t c (.writeTest i k d) (.update t (.writeWake i))
  | writeSleep {i : Nat} {k : Int} :
      Does p t c (.writeSleep i k) (.sleep .nwrite (.writeLoop i k false))
  | writeWake {i : Nat} : Does p t c (.writeWake i) (.wakeup .nread (.writeDone i))
  | writeDone {i : Nat} : Does p t c (.writeDone i) (.release .user)
  | readKilled {k : Int} (he : t.Empty) (hw : t.writeopen = true) :
      Does p t c (.readLoop k) (.killed fun b => if b then .readFail else .readSleep k)
  | readGo {k : Int} (he : t.Empty → t.writeopen = false) :
      Does p t c (.readLoop k) (.update t (.readCopy k []))
  | readFail : Does p t c .readFail (.release .user)
  | readSleep {k : Int} : Does p t c (.readSleep k) (.sleep .nread (.readLoop k))
  | readEmpty {k : Int} {got : List UInt8} (he : t.Empty) :
      Does p t c (.readCopy k got) (.update (t.endRead got) (.readWake k got))
  | take {k : Int} {got : List UInt8} (he : ¬ t.Empty) :
      Does p t c (.readCopy k got) (.update t.take (.readCopy k (got ++ [t.ring.front PIPESIZE])))
  | lose {k : Int} {got : List UInt8} (he : ¬ t.Empty) (hc : c = .copy none) :
      Does p t c (.readCopy k got) (.update (t.take.endRead got) (.readWake k got))
  | readEnd {k : Int} {got : List UInt8} (hk : ¬ (got.length : Int) < k) :
      Does p t c (.readCopy k got) (.update (t.endRead got) (.readWake k got))
  | readWake {k : Int} {got : List UInt8} :
      Does p t c (.readWake k got) (.wakeup .nwrite (.readDone k got))
  | readDone {k : Int} {got : List UInt8} : Does p t c (.readDone k got) (.release .user)
  | closeLock {w : Bool} : Does p t c (.closeLock w) (.acquire (.closeSet w))
  | closeSet {w : Bool} : Does p t c (.closeSet w) (.update (t.shut w) (.closeWake w))
  | closeWake {w : Bool} :
      Does p t c (.closeWake w) (.wakeup (if w then .nread else .nwrite) .closeTest)
  | closeTest : Does p t c .closeTest
      (.update { t with doomed := t.doomed || t.bothClosed } (.closeRel t.bothClosed))
  | closeRel {last : Bool} : Does p t c (.closeRel last) (.release (if last then .free else .user))
  | free : Does p t c .free (.update { t with freed := t.freed + 1 } .user)

section

variable {n : Nat} {p : Fin n} {t : Shared n} {c : Call n} {l : Loc}
variable {a : Act n Chan (Shared n) Loc}

theorem does_user (h : code p .user t c = some a) : Does p t c .user a := by
  cases c with
  | write k =>
    rw [code] at h
    split at h
    · next hf => cases h; exact .write hf
    · cases h
  | read k =>
    rw [code] at h
    split at h
    · next hf => cases h; exact .read hf
    · cases h
  | close w =>
    rw [code] at h
    split at h
    · next hf =>
      split at h
      · next hr => cases h; exact .closePanic hf hr
      · next hr =>
        cases h
        split
        · exact .close hf (by omega)
        · exact .closeLast hf (by omega)
    · cases h
  | dup w q =>
    rw [code] at h
    split at h
    · next hf =>
      split at h
      · next hr => cases h; exact .dupPanic hf hr
      · next hr => cases h; exact .dup (by omega)
    · cases h
  | kill q => cases h; exact .kill
  | copy ch => cases h

/-- Whatever the code does is one of the acts. -/
theorem does (h : code p l t c = some a) : Does p t c l a := by
  cases l with
  | user => exact does_user h
  | writeLoop i k d =>
    rw [code] at h
    split at h
    · next hi =>
      split at h
      · next hr => cases h; exact .writeClosed hr
      · next hr => cases h; exact .writeKilled hi (Bool.eq_true_of_not_eq_false hr)
    · cases h; exact .writeEnd
  | writeFail => cases h; exact .writeFail
  | writeTest i k d =>
    simp only [code] at h
    split at h
    · next hf => cases h; exact .writeFull hf
    · next hf =>
      split at h
      · cases h; exact .store hf
      · cases h; exact .writeStop
      · cases h
  | writeSleep i k => cases h; exact .writeSleep
  | writeWake i => cases h; exact .writeWake
  | writeDone i => cases h; exact .writeDone
  | readLoop k =>
    rw [code] at h
    split at h
    · next he => cases h; exact .readKilled he.1 he.2
    · next he =>
      cases h
      exact .readGo fun h => Bool.eq_false_of_not_eq_true fun hw => he ⟨h, hw⟩
  | readFail => cases h; exact .readFail
  | readSleep k => cases h; exact .readSleep
  | readCopy k got =>
    simp only [code] at h
    split at h
    · split at h
      · next he => cases h; exact .readEmpty he
      · next he =>
        split at h
        · cases h; exact .take he
        · cases h; exact .lose he rfl
        · cases h
    · next hk => cases h; exact .readEnd hk
  | readWake k got => cases h; exact .readWake
  | readDone k got => cases h; exact .readDone
  | closeLock w => cases h; exact .closeLock
  | closeSet w => cases h; exact .closeSet
  | closeWake w => cases h; exact .closeWake
  | closeTest => cases h; exact .closeTest
  | closeRel last => cases h; exact .closeRel
  | free => cases h; exact .free

end

/-! ## The lock of the monitor -/

/-- The control points at which a process holds `pi->lock`. -/
def inside : Loc → Bool
  | .user | .closeLock _ | .free => false
  | _ => true

theorem disciplined {n : Nat} : (code (n := n)).Disciplined inside := by
  intro p l t c a h
  cases does h with
  | write => exact ⟨rfl, rfl⟩
  | read => exact ⟨rfl, rfl⟩
  | dupPanic => trivial
  | closePanic => trivial
  | writeKilled => intro b; cases b <;> rfl
  | readKilled => intro b; cases b <;> rfl
  | closeRel => refine ⟨rfl, ?_⟩; split <;> rfl
  | closeLock => exact ⟨rfl, rfl⟩
  | writeFail => exact ⟨rfl, rfl⟩
  | writeSleep => exact ⟨rfl, rfl⟩
  | writeDone => exact ⟨rfl, rfl⟩
  | readFail => exact ⟨rfl, rfl⟩
  | readSleep => exact ⟨rfl, rfl⟩
  | readDone => exact ⟨rfl, rfl⟩
  | _ => exact rfl

/-! ## The bytes in the buffer -/

/-- The buffer is sound, and holds what has been stored and not yet taken. -/
structure Queue {n : Nat} (t : Shared n) : Prop where
  ring : t.ring.Ok PIPESIZE UINT
  queue : t.taken ++ t.ring.contents PIPESIZE UINT = t.stored

section

variable {n : Nat} {p : Fin n} {t : Shared n} {c : Call n} {l : Loc}
variable {a : Act n Chan (Shared n) Loc}

theorem PIPESIZE_lt : PIPESIZE < UINT := by decide

theorem PIPESIZE_dvd : PIPESIZE ∣ UINT := ⟨8388608, rfl⟩

theorem Queue.full_iff (h : Queue t) : t.Full ↔ t.ring.count UINT = PIPESIZE :=
  h.ring.full_iff PIPESIZE_lt

theorem Queue.store (h : Queue t) (hf : ¬ t.Full) (ch : UInt8) : Queue (t.store ch) := by
  have hc : t.ring.count UINT < PIPESIZE :=
    Nat.lt_of_le_of_ne h.ring.count_le fun he => hf (h.full_iff.2 he)
  obtain ⟨hok, hcont⟩ := h.ring.push PIPESIZE_lt PIPESIZE_dvd hc ch
  refine ⟨hok, ?_⟩
  calc t.taken ++ (t.ring.push PIPESIZE UINT ch).contents PIPESIZE UINT
      = (t.taken ++ t.ring.contents PIPESIZE UINT) ++ [ch] := by rw [hcont, List.append_assoc]
    _ = t.stored ++ [ch] := by rw [h.queue]

theorem Queue.take (h : Queue t) (he : ¬ t.Empty) : Queue t.take := by
  have hc : 0 < t.ring.count UINT := Nat.pos_of_ne_zero fun h0 => he (h.ring.empty_iff.2 h0)
  obtain ⟨hok, hcont⟩ := h.ring.pop PIPESIZE_dvd hc
  refine ⟨hok, ?_⟩
  calc (t.taken ++ [t.ring.front PIPESIZE]) ++ (t.ring.pop UINT).contents PIPESIZE UINT
      = t.taken ++ t.ring.contents PIPESIZE UINT := by
        rw [hcont, List.append_assoc, List.singleton_append]
    _ = t.stored := h.queue

theorem Queue.shut (h : Queue t) (w : Bool) : Queue (t.shut w) := by
  cases w <;> exact ⟨h.ring, h.queue⟩

/-- Every act of the code keeps the buffer a queue. -/
theorem Queue.act (h : Queue t) (ha : Does p t c l a) : Queue (a.next t l).1 := by
  cases ha with
  | store hf => exact h.store hf _
  | take he => exact h.take he
  | lose he hc => exact ⟨(h.take he).ring, (h.take he).queue⟩
  | closeSet => exact h.shut _
  | _ => exact ⟨h.ring, h.queue⟩

end

/-! ## The reference counts -/

/-- The end of the pipe that a process reading or writing there uses. -/
def Loc.uses : Loc → Option Bool
  | .writeLoop _ _ _ | .writeFail | .writeTest _ _ _ | .writeSleep _ _ | .writeWake _
  | .writeDone _ => some true
  | .readLoop _ | .readFail | .readSleep _ | .readCopy _ _ | .readWake _ _ | .readDone _ _ =>
    some false
  | _ => none

/-- Is the process about to close the end? -/
def Loc.closes (w : Bool) : Loc → Nat
  | .closeLock w' | .closeSet w' => if w' = w then 1 else 0
  | _ => 0

/-- Is the process about to free the page? -/
def Loc.frees : Loc → Nat
  | .closeRel last => last.toNat
  | .free => 1
  | _ => 0

/-- The reference counts count the descriptors; an end stays open while it has a reference and
until the process that dropped the last one has closed it; a page is freed by the process that
found both ends closed. -/
structure Counts {n : Nat} (loc : Fin n → Loc) (t : Shared n) : Prop where
  refs : ∀ w, t.ref w = total (fun f : Bool → Nat => f w) t.fds
  held : ∀ p w, (loc p).uses = some w → 0 < t.fds p w
  opened : ∀ w, (t.opened w).toNat = (if 0 < t.ref w then 1 else 0) + total (Loc.closes w) loc
  freed : t.freed + total Loc.frees loc = t.doomed.toNat

section

variable {n : Nat} {loc : Fin n → Loc} {p : Fin n} {t : Shared n} {c : Call n} {l : Loc}
variable {a : Act n Chan (Shared n) Loc}

theorem Counts.held_update (h : Counts loc t) (hu : ∀ w, l.uses = some w → 0 < t.fds p w)
    (q : Fin n) (w : Bool) (hq : (Function.update loc p l q).uses = some w) : 0 < t.fds q w := by
  by_cases hqp : q = p
  · subst hqp
    rw [Function.update_self] at hq
    exact hu w hq
  · rw [Function.update_of_ne hqp] at hq
    exact h.held q w hq

/-- What the counts are about. -/
def Shared.books (t : Shared n) : (Bool → Nat) × (Fin n → Bool → Nat) × (Bool → Bool) × Bool × Nat :=
  (t.ref, t.fds, t.opened, t.doomed, t.freed)

theorem Counts.congr (h : Counts loc t) {t' : Shared n} (ht : t'.books = t.books) :
    Counts loc t' := by
  simp only [Shared.books, Prod.mk.injEq] at ht
  obtain ⟨h1, h2, h3, h4, h5⟩ := ht
  refine ⟨?_, ?_, ?_, ?_⟩
  · rw [h1, h2]; exact h.refs
  · rw [h2]; exact h.held
  · rw [h1, h3]; exact h.opened
  · rw [h4, h5]; exact h.freed

/-- A process goes on without closing or freeing anything. -/
theorem Counts.goto (h : Counts loc t) {t' : Shared n} (ht : t'.books = t.books)
    (hu : ∀ w, l.uses = some w → 0 < t.fds p w) (hc : ∀ w, l.closes w = (loc p).closes w)
    (hf : l.frees = (loc p).frees) : Counts (Function.update loc p l) t' := by
  refine Counts.congr ⟨h.refs, h.held_update hu, fun w => ?_, ?_⟩ ht
  · rw [total_update_same (hc w)]
    exact h.opened w
  · rw [total_update_same hf]
    exact h.freed

theorem Counts.dup (h : Counts loc t) {w : Bool} (hr : 1 ≤ t.ref w) (q : Fin n) :
    Counts loc (t.dup w q) := by
  refine ⟨fun w' => ?_, fun r w' hw => ?_, fun w' => ?_, h.freed⟩
  · have hsum := total_update (fun f : Bool → Nat => f w') t.fds q
      (Function.update (t.fds q) w (t.fds q w + 1))
    have hrefs := h.refs w'
    simp only [Shared.dup]
    by_cases hw : w' = w
    · subst hw
      rw [Function.update_self] at hsum ⊢
      omega
    · rw [Function.update_of_ne hw] at hsum ⊢
      omega
  · have hheld := h.held r w' hw
    simp only [Shared.dup]
    by_cases hrq : r = q
    · subst hrq
      rw [Function.update_self]
      by_cases hww : w' = w
      · subst hww
        rw [Function.update_self]
        omega
      · rwa [Function.update_of_ne hww]
    · rwa [Function.update_of_ne hrq]
  · have hpos : 0 < (t.dup w q).ref w' ↔ 0 < t.ref w' := by
      simp only [Shared.dup]
      by_cases hw : w' = w
      · subst hw
        rw [Function.update_self]
        omega
      · rw [Function.update_of_ne hw]
    simp only [hpos]
    exact h.opened w'

/-- A process in none of the functions drops a reference; with the last one it goes on to close
the end. -/
theorem Counts.drop (h : Counts loc t) (hp : loc p = .user) {w : Bool} (hf : 0 < t.fds p w)
    (hl : l = if 1 < t.ref w then .user else .closeLock w) (hr : 1 ≤ t.ref w) :
    Counts (Function.update loc p l) (t.drop p w) := by
  have hfrees : l.frees = (loc p).frees := by
    rw [hl, hp]
    split <;> rfl
  have huses : l.uses = none := by
    rw [hl]
    split <;> rfl
  refine ⟨fun w' => ?_, fun r w' hw => ?_, fun w' => ?_, ?_⟩
  · have hsum := total_update (fun f : Bool → Nat => f w') t.fds p
      (Function.update (t.fds p) w (t.fds p w - 1))
    have hrefs := h.refs w'
    simp only [Shared.drop]
    by_cases hw : w' = w
    · subst hw
      rw [Function.update_self] at hsum ⊢
      omega
    · rw [Function.update_of_ne hw] at hsum ⊢
      omega
  · by_cases hrp : r = p
    · subst hrp
      rw [Function.update_self, huses] at hw
      cases hw
    · rw [Function.update_of_ne hrp] at hw
      simp only [Shared.drop]
      rw [Function.update_of_ne hrp]
      exact h.held r w' hw
  · have hop := h.opened w'
    have htot := total_update (Loc.closes w') loc p l
    have hc0 : (loc p).closes w' = 0 := by rw [hp]; rfl
    show (t.opened w').toNat = (if 0 < Function.update t.ref w (t.ref w - 1) w' then 1 else 0) + _
    by_cases hw : w' = w
    · subst hw
      rw [Function.update_self]
      rw [if_pos (by omega)] at hop
      by_cases h1 : 1 < t.ref w'
      · have hl0 : l.closes w' = 0 := by rw [hl, if_pos h1]; rfl
        rw [if_pos (by omega)]
        omega
      · have hl1 : l.closes w' = 1 := by rw [hl, if_neg h1]; exact if_pos rfl
        rw [if_neg (by omega)]
        omega
    · have hl0 : l.closes w' = 0 := by
        rw [hl]
        split
        · rfl
        · exact if_neg (Ne.symm hw)
      rw [Function.update_of_ne hw]
      omega
  · rw [total_update_same hfrees]
    exact h.freed

/-- The end that a process is about to close is open, and has no reference left. -/
theorem Counts.closing (h : Counts loc t) {w : Bool} (hp : (loc p).closes w = 1) :
    t.opened w = true ∧ t.ref w = 0 := by
  have hle := le_total (Loc.closes w) loc p
  have hop := h.opened w
  cases ho : t.opened w with
  | true =>
    refine ⟨rfl, ?_⟩
    by_contra hne
    rw [ho, if_pos (Nat.pos_of_ne_zero hne), Bool.toNat_true] at hop
    omega
  | false =>
    rw [ho, Bool.toNat_false] at hop
    omega

theorem opened_shut (t : Shared n) (w w' : Bool) :
    (t.shut w).opened w' = if w' = w then false else t.opened w' := by
  cases w <;> cases w' <;> rfl

theorem Counts.shut (h : Counts loc t) {w : Bool} (hp : loc p = .closeSet w) :
    Counts (Function.update loc p (.closeWake w)) (t.shut w) := by
  have hfd : (t.shut w).fds = t.fds := by cases w <;> rfl
  have href : (t.shut w).ref = t.ref := by cases w <;> rfl
  have hfr : (t.shut w).freed = t.freed ∧ (t.shut w).doomed = t.doomed := by
    cases w <;> exact ⟨rfl, rfl⟩
  refine ⟨fun w' => ?_, ?_, fun w' => ?_, ?_⟩
  · rw [hfd, href]
    exact h.refs w'
  · rw [hfd]
    exact h.held_update nofun
  · have hop := h.opened w'
    have htot := total_update (Loc.closes w') loc p (.closeWake w)
    have hl0 : (Loc.closeWake w).closes w' = 0 := rfl
    rw [opened_shut, href]
    by_cases hw : w' = w
    · subst hw
      have hc1 : (loc p).closes w' = 1 := by rw [hp]; exact if_pos rfl
      obtain ⟨hopen, h0⟩ := h.closing hc1
      rw [hopen, Bool.toNat_true] at hop
      rw [if_pos rfl, Bool.toNat_false]
      omega
    · have hc0 : (loc p).closes w' = 0 := by rw [hp]; exact if_neg (Ne.symm hw)
      rw [if_neg hw]
      omega
  · rw [hfr.1, hfr.2, total_update_same (by rw [hp]; rfl)]
    exact h.freed

/-- The process that finds both ends closed goes on to free the page. -/
theorem Counts.doom (h : Counts loc t) (hp : loc p = .closeTest) (hd : t.doomed = false) :
    Counts (Function.update loc p (.closeRel t.bothClosed))
      { t with doomed := t.doomed || t.bothClosed } := by
  refine ⟨h.refs, h.held_update nofun, fun w => ?_, ?_⟩
  · rw [total_update_same (by rw [hp]; rfl)]
    exact h.opened w
  · have htot := total_update Loc.frees loc p (.closeRel t.bothClosed)
    have hfr := h.freed
    have h0 : (loc p).frees = 0 := by rw [hp]; rfl
    have h1 : (Loc.closeRel t.bothClosed).frees = t.bothClosed.toNat := rfl
    rw [hd, Bool.toNat_false] at hfr
    show t.freed + _ = (t.doomed || t.bothClosed).toNat
    rw [hd, Bool.false_or]
    omega

theorem Counts.free (h : Counts loc t) (hp : loc p = .free) :
    Counts (Function.update loc p .user) { t with freed := t.freed + 1 } := by
  refine ⟨h.refs, h.held_update nofun, fun w => ?_, ?_⟩
  · rw [total_update_same (by rw [hp]; rfl)]
    exact h.opened w
  · have htot := total_update Loc.frees loc p .user
    have hfr := h.freed
    have h1 : (loc p).frees = 1 := by rw [hp]; rfl
    have h0 : Loc.user.frees = 0 := rfl
    show t.freed + 1 + _ = t.doomed.toNat
    omega

end

/-! ## What a process knows inside -/

/-- Has the process that closed the second end been told to free the page? -/
def Settled {n : Nat} (t : Shared n) : Prop := t.doomed = t.bothClosed

/-- What a process at `l` knows of the pipe while it holds `pi->lock`. -/
def Knows {n : Nat} (l : Loc) (t : Shared n) : Prop :=
  match l with
  | .closeWake _ | .closeTest => t.doomed = false
  | .closeRel last => Settled t ∧ last = t.bothClosed
  | .writeLoop _ _ d => Settled t ∧ (d = true → t.readopen = true)
  | .writeTest _ _ _ => Settled t ∧ t.readopen = true
  | .writeSleep _ _ => Settled t ∧ t.Full ∧ t.readopen = true
  | .readSleep _ => Settled t ∧ t.Empty ∧ t.writeopen = true
  | _ => Settled t

section

variable {n : Nat} {loc : Fin n → Loc} {p : Fin n} {t : Shared n} {c : Call n}
variable {a : Act n Chan (Shared n) Loc}

theorem Counts.keeps (h : Counts loc t) (ha : Does p t c (loc p) a) :
    a.Keeps inside Settled Knows t (loc p) := by
  generalize hl : loc p = l at ha
  cases ha with
  | write hf => exact fun hs => ⟨hs, nofun⟩
  | read hf => exact id
  | dupPanic => trivial
  | dup hr => exact ⟨id, fun m _ hm => by cases m <;> exact hm⟩
  | closePanic => trivial
  | close hf hr => exact ⟨id, fun m _ hm => by cases m <;> exact hm⟩
  | closeLast hf hr => exact ⟨id, fun m _ hm => by cases m <;> exact hm⟩
  | kill => exact id
  | writeClosed hr => exact And.left
  | writeKilled hi hr =>
    intro b hk
    cases b with
    | true => exact hk.1
    | false => exact ⟨hk.1, hr⟩
  | writeEnd => exact And.left
  | writeFail => exact id
  | writeFull hf => exact fun hk => ⟨hk.1, hf, hk.2⟩
  | store hf => exact fun hk => ⟨hk.1, fun _ => hk.2⟩
  | writeStop => exact And.left
  | writeSleep => exact And.left
  | writeWake => exact id
  | writeDone => exact id
  | readKilled he hw =>
    intro b hk
    cases b with
    | true => exact hk
    | false => exact ⟨hk, he, hw⟩
  | readGo he => exact id
  | readFail => exact id
  | readSleep => exact And.left
  | readEmpty he => exact id
  | take he => exact id
  | lose he hc => exact id
  | readEnd hk => exact id
  | readWake => exact id
  | readDone => exact id
  | closeLock => exact id
  | @closeSet w =>
    intro (hk : t.doomed = t.bothClosed)
    have hopen : t.opened w = true := (h.closing (p := p) (by rw [hl]; exact if_pos rfl)).1
    have hd : t.doomed = false := by
      rw [hk, Shared.bothClosed]
      cases w with
      | true => rw [show t.writeopen = true from hopen]; exact Bool.and_false _
      | false => rw [show t.readopen = true from hopen]; rfl
    show (t.shut w).doomed = false
    cases w <;> exact hd
  | closeWake => exact id
  | closeTest =>
    intro (hk : t.doomed = false)
    refine ⟨?_, rfl⟩
    show (t.doomed || t.bothClosed) = t.bothClosed
    rw [hk, Bool.false_or]
  | closeRel => exact And.left
  | free => exact ⟨id, fun m _ hm => by cases m <;> exact hm⟩

/-- Every act of the code keeps the counts. -/
theorem Counts.act (h : Counts loc t) (ha : Does p t c (loc p) a)
    (hk : inside (loc p) = true → Knows (loc p) t) :
    Counts (Function.update loc p (a.next t (loc p)).2) (a.next t (loc p)).1 := by
  generalize hl : loc p = l at ha hk
  have hheld := h.held p
  rw [hl] at hheld
  cases ha with
  | dupPanic => rw [← hl]; exact h.goto rfl (fun w hw => h.held p w hw) (fun _ => rfl) rfl
  | closePanic => rw [← hl]; exact h.goto rfl (fun w hw => h.held p w hw) (fun _ => rfl) rfl
  | dup hr =>
    exact (h.dup hr _).goto rfl nofun (fun _ => by rw [hl]; rfl) (by rw [hl]; rfl)
  | close hf hr => exact h.drop hl hf (if_pos hr).symm (by omega)
  | closeLast hf hr => exact h.drop hl hf (if_neg (by omega)).symm (by omega)
  | closeSet => exact h.shut hl
  | closeTest => exact h.doom hl (hk rfl)
  | @closeRel last =>
    refine h.goto rfl (fun w hw => ?_) (fun w => ?_) ?_
    · cases last <;> cases hw
    · rw [hl]; cases last <;> rfl
    · rw [hl]; cases last <;> rfl
  | free => exact h.free hl
  | write hf =>
    exact h.goto rfl (fun w hw => by cases hw; exact hf) (fun _ => by rw [hl]; rfl) (by rw [hl]; rfl)
  | read hf =>
    exact h.goto rfl (fun w hw => by cases hw; exact hf) (fun _ => by rw [hl]; rfl) (by rw [hl]; rfl)
  | writeKilled => rw [← hl]; exact h.goto rfl (fun w hw => h.held p w hw) (fun _ => rfl) rfl
  | readKilled => rw [← hl]; exact h.goto rfl (fun w hw => h.held p w hw) (fun _ => rfl) rfl
  | _ =>
    -- the act changes at most the buffer, and the process goes on using the end it uses
    exact h.goto rfl (by first | exact hheld | nofun) (fun _ => by rw [hl]; rfl) (by rw [hl]; rfl)

theorem not_panic (h : Counts loc t) {msg : String} : ¬ Does p t c (loc p) (.panic msg) := by
  generalize loc p = l
  intro ha
  have hle : ∀ w, t.fds p w ≤ t.ref w := by
    intro w
    rw [h.refs w]
    exact le_total (fun f : Bool → Nat => f w) t.fds p
  cases ha with
  | @dupPanic w hf hr => have := hle w; omega
  | @closePanic w hf hr => have := hle w; omega

end

/-! ## The invariant of pipes -/

/-- The invariant of pipes. -/
structure Ok {n : Nat} (s : Machine n) : Prop where
  locks : Monitor.Inv code inside s
  queue : Queue s.shared
  counts : Counts s.loc s.shared
  knows : Inside inside Settled Knows s
  alive : s.halted = none

section

variable {n : Nat} {s s' : Machine n} {p : Fin n} {c : Call n}

theorem Counts.answer {loc : Fin n → Loc} {t t' : Shared n} {k : Bool → Loc}
    (h : Counts loc t) (ha : Does p t' c (loc p) (.killed k)) (b : Bool) :
    Counts (Function.update loc p (k b)) t := by
  generalize hl : loc p = l at ha
  have hheld := h.held p
  rw [hl] at hheld
  cases ha with
  | writeKilled hi hr =>
    exact h.goto rfl (by cases b <;> exact hheld) (fun _ => by rw [hl]; cases b <;> rfl)
      (by rw [hl]; cases b <;> rfl)
  | readKilled he hw =>
    exact h.goto rfl (by cases b <;> exact hheld) (fun _ => by rw [hl]; cases b <;> rfl)
      (by rw [hl]; cases b <;> rfl)

/-- What a process knows when it takes `pi->lock` again after a sleep. -/
theorem knows_of_sleep {t t' : Shared n} {l l' : Loc} {ch : Chan}
    (ha : Does p t' c l (.sleep ch l')) (h : Settled t) : Knows l' t := by
  cases ha with
  | writeSleep => exact ⟨h, nofun⟩
  | readSleep => exact h

theorem Ok.step (h : Ok s) (hm : Move code s p c s') : Ok s' := by
  refine ⟨h.locks.step disciplined hm, ?_, ?_, ?_, ?_⟩
  · cases hm.effect h.locks with
    | quiet hs hl => rw [hs]; exact h.queue
    | act hpc ha hs hl => rw [hs]; exact h.queue.act (does ha)
    | answer hpc ha hs hl => rw [hs]; exact h.queue
  · cases hm.effect h.locks with
    | quiet hs hl => rw [hs, hl]; exact h.counts
    | act hpc ha hs hl => rw [hs, hl]; exact h.counts.act (does ha) (h.knows.at_code hpc)
    | answer hpc ha hs hl => rw [hs, hl]; exact h.counts.answer (does ha) _
  · refine h.knows.step disciplined h.locks (fun l a hpc ha => ?_)
      (fun l t j ch l' ha => knows_of_sleep (does ha)) hm
    have hloc : s.loc p = l := by rw [State.loc, hpc]; rfl
    subst hloc
    exact h.counts.keeps (does ha)
  · by_contra hne
    obtain ⟨msg, hmsg⟩ := Option.ne_none_iff_exists'.1 hne
    rcases hm.halted hmsg with hh | ⟨-, ha⟩
    · rw [h.alive] at hh
      cases hh
    · exact not_panic h.counts (does ha)

theorem ok_boot (p₀ : Fin n) (data : Nat → UInt8) : Ok (boot p₀ data) := by
  obtain ⟨hok, hnil⟩ : (pipealloc p₀ data).ring.Ok PIPESIZE UINT ∧
      (pipealloc p₀ data).ring.contents PIPESIZE UINT = [] :=
    RingBuffer.ok_of_eq rfl (show 0 < UINT by decide)
  refine ⟨inv_start fun _ => rfl, ⟨hok, ?_⟩, ⟨fun w => ?_, nofun, fun w => ?_, ?_⟩,
    inside_start (fun _ => rfl) rfl, rfl⟩
  · show [] ++ (pipealloc p₀ data).ring.contents PIPESIZE UINT = []
    rw [hnil, List.append_nil]
  · show 1 = ∑ q : Fin n, if q = p₀ then 1 else 0
    rw [Finset.sum_ite_eq' Finset.univ p₀ fun _ => 1, if_pos (Finset.mem_univ p₀)]
  · have h0 : total (Loc.closes w) (boot p₀ data).loc = 0 := total_eq_zero fun _ => rfl
    rw [h0]
    cases w <;> rfl
  · have h0 : total Loc.frees (boot p₀ data).loc = 0 := total_eq_zero fun _ => rfl
    rw [h0]
    rfl

theorem ok_of_reach {ok : Machine n → Fin n → Call n → Prop} {p₀ : Fin n} {data : Nat → UInt8}
    (h : Reach code ok (boot p₀ data) s) : Ok s :=
  h.induct (J := Ok) (ok_boot p₀ data) fun _ _ _ _ hs _ _ hm => hs.step hm

end

/-! ## Pipes are byte streams -/

/-- The user's buffers are valid: no copy fails. -/
def ValidCopy {n : Nat} (_ : Machine n) (_ : Fin n) (c : Call n) : Prop :=
  match c with
  | .copy none => False
  | _ => True

instance {n : Nat} (s : Machine n) (p : Fin n) (c : Call n) : Decidable (ValidCopy s p c) :=
  match c with
  | .copy none => isFalse id
  | .copy (some _) => isTrue trivial
  | .write _ => isTrue trivial
  | .read _ => isTrue trivial
  | .close _ => isTrue trivial
  | .dup _ _ => isTrue trivial
  | .kill _ => isTrue trivial

/-- Every byte taken has been returned. -/
def Returned {n : Nat} (t : Shared n) : Prop := t.taken = t.reads.flatten

/-- What has been taken and not yet returned, and why a `piperead` returns nothing. -/
def Returns {n : Nat} (l : Loc) (t : Shared n) : Prop :=
  match l with
  | .readCopy _ got =>
    t.taken = t.reads.flatten ++ got ∧ (got = [] → t.Empty → t.writeopen = false)
  | .readWake k got | .readDone k got =>
    Returned t ∧ (0 < k → got = [] → t.Empty ∧ t.writeopen = false)
  | _ => Returned t

section

variable {n : Nat} {s s' : Machine n} {p : Fin n} {t : Shared n} {c : Call n} {l : Loc}
variable {a : Act n Chan (Shared n) Loc}

theorem returned_endRead {got : List UInt8} (h : t.taken = t.reads.flatten ++ got) :
    Returned (t.endRead got) := by
  show t.taken = (t.reads ++ [got]).flatten
  rw [h, List.flatten_append, List.flatten_singleton]

theorem returns_keeps (hv : c ≠ .copy none) (ha : Does p t c l a) :
    a.Keeps inside Returned Returns t l := by
  cases ha with
  | dupPanic => trivial
  | closePanic => trivial
  | dup hr => exact ⟨id, fun m _ hm => by cases m <;> exact hm⟩
  | close hf hr => exact ⟨id, fun m _ hm => by cases m <;> exact hm⟩
  | closeLast hf hr => exact ⟨id, fun m _ hm => by cases m <;> exact hm⟩
  | free => exact ⟨id, fun m _ hm => by cases m <;> exact hm⟩
  | writeKilled hi hr => intro b hk; cases b <;> exact hk
  | readKilled he hw => intro b hk; cases b <;> exact hk
  | readGo he =>
    intro (hk : t.taken = t.reads.flatten)
    exact ⟨by rw [hk, List.append_nil], fun _ => he⟩
  | readEmpty he =>
    intro hk
    exact ⟨returned_endRead hk.1, fun _ hg => ⟨he, hk.2 hg he⟩⟩
  | @readEnd k got hlen =>
    intro hk
    refine ⟨returned_endRead hk.1, fun h0 hg => ?_⟩
    subst hg
    exact absurd h0 hlen
  | take he =>
    intro hk
    refine ⟨?_, fun hg => by simp at hg⟩
    show t.taken ++ [_] = _
    rw [hk.1, List.append_assoc]
    rfl
  | lose he hc => exact (hv hc).elim
  | @closeSet w => cases w <;> exact id
  | readDone => exact And.left
  | _ => exact id

theorem returned_of_sleep {t' : Shared n} {l' : Loc} {ch : Chan}
    (ha : Does p t' c l (.sleep ch l')) (h : Returned t) : Returns l' t := by
  cases ha with
  | writeSleep => exact h
  | readSleep => exact h

theorem returns_of_reach {p₀ : Fin n} {data : Nat → UInt8}
    (h : Reach code ValidCopy (boot p₀ data) s) : Inside inside Returned Returns s := by
  refine (h.induct (J := fun s => Ok s ∧ Inside inside Returned Returns s)
    ⟨ok_boot p₀ data, inside_start (fun _ => rfl) rfl⟩ fun s p c s' hs hok _ hm => ?_).2
  have hv : c ≠ .copy none := by
    rintro rfl
    exact hok
  exact ⟨hs.1.step hm, hs.2.step disciplined hs.1.locks
    (fun l a hpc ha => returns_keeps hv (does ha))
    (fun l t j ch l' ha => returned_of_sleep (does ha)) hm⟩

/-- What has been returned has been taken. -/
theorem returned_isPrefix (hi : Monitor.Inv code inside s)
    (h : Inside inside Returned Returns s) : s.shared.reads.flatten <+: s.shared.taken := by
  have hall : Returned s.shared → s.shared.reads.flatten <+: s.shared.taken := by
    intro (hr : s.shared.taken = s.shared.reads.flatten)
    rw [hr]
  have hat : ∀ l, Returns l s.shared → s.shared.reads.flatten <+: s.shared.taken := by
    intro l hl
    cases l with
    | readCopy k got => exact ⟨got, hl.1.symm⟩
    | readWake k got => exact hall hl.1
    | readDone k got => exact hall hl.1
    | _ => exact hall hl
  exact h.always hi hall hat

/-- Both ends are closed once nothing refers to them and nobody is closing them. -/
theorem Ok.bothClosed (h : Ok s) (hr : ∀ w, s.shared.ref w = 0) (hu : ∀ p, s.loc p = .user) :
    s.shared.bothClosed = true := by
  have hop : ∀ w, s.shared.opened w = false := by
    intro w
    have hop := h.counts.opened w
    rw [hr w, if_neg (Nat.lt_irrefl 0), total_eq_zero (fun p => by rw [hu p]; rfl)] at hop
    exact Bool.toNat_eq_zero.1 hop
  rw [Shared.bothClosed, show s.shared.readopen = false from hop false,
    show s.shared.writeopen = false from hop true]
  rfl

/-- The page is freed once nothing refers to the pipe and nobody is closing it. -/
theorem Ok.freed_of_user (h : Ok s) (hr : ∀ w, s.shared.ref w = 0)
    (hu : ∀ p, s.loc p = .user) : s.shared.freed = 1 := by
  have hlock : s.lock = none := by
    by_contra hne
    obtain ⟨q, hq⟩ := Option.ne_none_iff_exists'.1 hne
    have hh := (h.locks.lock q).1 hq
    have huq := hu q
    rw [State.loc] at huq
    cases hx : s.pc q <;> rw [hx] at hh huq <;> cases huq <;> cases hh
    all_goals
      obtain ⟨l, t, j, ch, ha⟩ := h.locks.slept q (by rw [hx]; rfl)
      rw [hx] at ha
      cases does ha
  have hs : s.shared.doomed = s.shared.bothClosed := h.knows.free hlock
  have hf := h.counts.freed
  rw [hs, h.bothClosed hr hu, total_eq_zero (fun p => by rw [hu p]; rfl)] at hf
  exact hf

theorem Knows.bothClosed {l : Loc} (h : Knows l t) (hd : t.doomed = true) :
    t.bothClosed = true := by
  have hs : Settled t → t.bothClosed = true := fun hs => hs.symm.trans hd
  cases l with
  | closeWake w => exact absurd (h.symm.trans hd) Bool.false_ne_true
  | closeTest => exact absurd (h.symm.trans hd) Bool.false_ne_true
  | closeRel last => exact hs h.1
  | writeLoop i k d => exact hs h.1
  | writeTest i k d => exact hs h.1
  | writeSleep i k => exact hs h.1
  | readSleep k => exact hs h.1
  | _ => exact hs h

/-- The control points of `pipeclose` under `pi->lock`. -/
def Loc.closing : Loc → Bool
  | .closeSet _ | .closeWake _ | .closeTest | .closeRel _ => true
  | _ => false

theorem Ok.knows_closing (h : Ok s) (hp : (s.loc p).closing = true) :
    Knows (s.loc p) s.shared := by
  have hin : inside (s.loc p) = true := by
    cases hl : s.loc p <;> rw [hl] at hp <;> first | rfl | cases hp
  refine h.knows.at_loc h.locks hin (fun l t j ch ha => ?_) fun t j k ha => ?_
  · generalize s.loc p = l' at hp ha
    cases does ha <;> cases hp
  · generalize s.loc p = l' at hp ha
    cases does ha <;> cases hp

/-- The page is freed when both ends are closed, nothing refers to the pipe and nobody is in its
code. -/
theorem Ok.user_of_freed (h : Ok s) (hf : 0 < s.shared.freed) :
    s.shared.freed = 1 ∧ (∀ w, s.shared.opened w = false) ∧ (∀ w, s.shared.ref w = 0) ∧
      ∀ p, s.loc p = .user := by
  have hfreed := h.counts.freed
  have hdoom : s.shared.doomed = true := by
    by_contra hne
    rw [Bool.eq_false_of_not_eq_true hne, Bool.toNat_false] at hfreed
    omega
  rw [hdoom, Bool.toNat_true] at hfreed
  have hboth : s.shared.bothClosed = true :=
    h.knows.always h.locks (fun hs => hs.symm.trans hdoom) fun l hl => hl.bothClosed hdoom
  have hopen : ∀ w, s.shared.opened w = false := by
    rw [Shared.bothClosed, Bool.and_eq_true, Bool.not_eq_true', Bool.not_eq_true'] at hboth
    intro w
    cases w with
    | true => exact hboth.2
    | false => exact hboth.1
  have hzero : ∀ w, s.shared.ref w = 0 ∧ total (Loc.closes w) s.loc = 0 := by
    intro w
    have hop := h.counts.opened w
    rw [hopen w, Bool.toNat_false] at hop
    split at hop
    · omega
    · exact ⟨by omega, by omega⟩
  refine ⟨by omega, hopen, fun w => (hzero w).1, fun p => ?_⟩
  -- a process that reads or writes has a descriptor
  have huse : ∀ w, (s.loc p).uses ≠ some w := by
    intro w hw
    have hpos := h.counts.held p w hw
    have hle := le_total (fun f : Bool → Nat => f w) s.shared.fds p
    rw [← h.counts.refs w, (hzero w).1] at hle
    exact absurd hpos (Nat.not_lt_of_le hle)
  have hclose : ∀ w, (s.loc p).closes w = 0 := fun w =>
    Nat.le_zero.1 ((hzero w).2 ▸ le_total (Loc.closes w) s.loc p)
  have hfree : (s.loc p).frees = 0 := by
    have hle := le_total Loc.frees s.loc p
    omega
  cases hl : s.loc p with
  | user => rfl
  | closeLock w => exact absurd ((if_pos rfl).symm.trans (hl ▸ hclose w)) Nat.one_ne_zero
  | closeSet w => exact absurd ((if_pos rfl).symm.trans (hl ▸ hclose w)) Nat.one_ne_zero
  | closeWake w =>
    have hk := h.knows_closing (p := p) (by rw [hl]; rfl)
    rw [hl] at hk
    exact absurd (hk.symm.trans hdoom) Bool.false_ne_true
  | closeTest =>
    have hk := h.knows_closing (p := p) (by rw [hl]; rfl)
    rw [hl] at hk
    exact absurd (hk.symm.trans hdoom) Bool.false_ne_true
  | closeRel last =>
    have hk := h.knows_closing (p := p) (by rw [hl]; rfl)
    rw [hl] at hk hfree
    rw [Loc.frees, hk.2, hboth] at hfree
    cases hfree
  | free => rw [hl] at hfree; cases hfree
  | _ => exact absurd (by rw [hl]; rfl) (huse _)

/-- **Pipes are FIFO byte streams.**  However any number of processes write, read, duplicate and
close the two ends, with valid buffers: the bytes taken by readers, followed by the contents of
the buffer, are the bytes stored by writers, and what the finished reads returned is a prefix of
that, all of what was taken while nobody is in the pipe's code; the counters differ by at most
`PIPESIZE` modulo `2 ^ 32`; a `piperead` of `k > 0` bytes returns `0` only when the buffer is empty
and the write end closed; and the page is freed at most once, only when both ends are closed,
nothing refers to the pipe and nobody is in its code, and always by then. -/
theorem pipe_fifo {p₀ : Fin n} {data : Nat → UInt8} (h : Reach code ValidCopy (boot p₀ data) s) :
    s.shared.taken ++ s.shared.ring.contents PIPESIZE UINT = s.shared.stored ∧
      s.shared.reads.flatten <+: s.shared.stored ∧
      (s.lock = none → s.shared.reads.flatten ++ s.shared.ring.contents PIPESIZE UINT =
        s.shared.stored) ∧
      (s.shared.ring.nwrite + UINT - s.shared.ring.nread) % UINT ≤ PIPESIZE ∧
      (∀ p k, s.pc p = .code (.readDone k []) → 0 < k →
        s.shared.ring.nread = s.shared.ring.nwrite ∧ s.shared.writeopen = false) ∧
      s.shared.freed ≤ 1 ∧
      (s.shared.freed = 1 ↔ (∀ w, s.shared.ref w = 0) ∧ ∀ p, s.loc p = .user) ∧
      (s.shared.freed = 1 → s.shared.readopen = false ∧ s.shared.writeopen = false) := by
  have hok := ok_of_reach h
  have hret := returns_of_reach h
  have hq := hok.queue.queue
  refine ⟨hq, ?_, ?_, hok.queue.ring.count_le, ?_, ?_, ⟨?_, ?_⟩, ?_⟩
  · exact (returned_isPrefix hok.locks hret).trans ⟨_, hq⟩
  · intro hl
    rw [← show s.shared.taken = s.shared.reads.flatten from hret.free hl]
    exact hq
  · intro p k hpc hk
    exact (hret.at_code hpc rfl).2 hk rfl
  · rcases Nat.eq_zero_or_pos s.shared.freed with h0 | hpos
    · omega
    · exact (hok.user_of_freed hpos).1.le
  · intro hf
    exact (hok.user_of_freed (by omega)).2.2
  · intro hu
    exact hok.freed_of_user hu.1 hu.2
  · intro hf
    obtain ⟨-, hopen, -⟩ := hok.user_of_freed (s := s) (by omega)
    exact ⟨hopen false, hopen true⟩

end

/-- The only process. -/
def alone : Fin 1 := ⟨0, Nat.one_pos⟩

/-- One process creates a pipe, writes a byte, reads it and closes both ends. -/
def onePipe : List (Fin 1 × Call 1) :=
  (alone, Call.write 1) :: List.replicate 10 (alone, Call.copy (some 7)) ++
    (alone, Call.read 1) :: List.replicate 7 (alone, Call.copy (some 7)) ++
    List.replicate 8 (alone, Call.close true) ++ List.replicate 9 (alone, Call.close false)

theorem pipe_fifo_onePipe :
    ∃ s, run code ValidCopy onePipe (boot 0 fun _ => 0) = some s ∧ s.shared.stored = [7] ∧
      s.shared.freed = 1 ∧ s.shared.reads.flatten <+: s.shared.stored := by
  have h : ((run code ValidCopy onePipe (boot 0 fun _ => 0)).map
      fun s => (s.shared.stored, s.shared.freed)) = some ([7], 1) := by decide +kernel
  obtain ⟨s, hs, he⟩ := Option.map_eq_some_iff.1 h
  rw [Prod.mk.injEq] at he
  exact ⟨s, hs, he.1, he.2, (pipe_fifo (reach_run hs)).2.1⟩

/-! ## No sleeper is stranded -/

/-- The condition of the processes asleep on a channel: for readers, that there is something to
read or the write end is closed; for writers, that there is room or the read end is closed. -/
def wake {n : Nat} (ch : Chan) (t : Shared n) : Prop :=
  match ch with
  | .nread => ¬ t.Empty ∨ t.writeopen = false
  | .nwrite => ¬ t.Full ∨ t.readopen = false

/-- The control points from which a process is still to wake a channel. -/
def owes (l : Loc) (ch : Chan) : Prop :=
  match l with
  | .writeLoop _ _ d | .writeTest _ _ d => d = true ∧ ch = .nread
  | .writeWake _ => ch = .nread
  | .readCopy _ _ | .readWake _ _ => ch = .nwrite
  | .closeWake w => ch = if w then .nread else .nwrite
  | _ => False

section

variable {n : Nat} {p : Fin n} {t : Shared n} {c : Call n} {l : Loc}
variable {a : Act n Chan (Shared n) Loc}

theorem pays (ha : Does p t c l a) (hk : inside l = true → Knows l t) :
    a.Pays inside wake owes t l := by
  cases ha with
  | write hf => trivial
  | read hf => trivial
  | dupPanic => trivial
  | closePanic => trivial
  | closeLock => trivial
  | writeKilled hi hr => trivial
  | readKilled he hw => trivial
  | dup hr => intro ch hw; cases ch <;> exact hw
  | close hf hr => intro ch hw; cases ch <;> exact hw
  | closeLast hf hr => intro ch hw; cases ch <;> exact hw
  | free => intro ch hw; cases ch <;> exact hw
  | kill => exact fun ch ho => ho
  | writeClosed hr =>
    -- a writer that has stored something has seen the read end open
    refine fun ch hw => .inr ⟨hw, fun ho => ?_⟩
    exact Bool.false_ne_true (hr.symm.trans ((hk rfl).2 ho.1))
  | writeEnd =>
    intro ch hw
    cases ch with
    | nread => exact .inl rfl
    | nwrite => exact .inr ⟨hw, fun ho => by cases ho.2⟩
  | writeFull hf => exact fun ch hne ho => absurd ho.2 hne
  | store hf =>
    intro ch hw
    cases ch with
    | nread => exact .inl ⟨rfl, rfl⟩
    | nwrite => exact .inr ⟨.inl hf, fun ho => by cases ho.2⟩
  | writeStop =>
    intro ch hw
    cases ch with
    | nread => exact .inl rfl
    | nwrite => exact .inr ⟨hw, fun ho => by cases ho.2⟩
  | writeSleep =>
    obtain ⟨-, hf, hr⟩ := hk rfl
    exact ⟨fun hw => hw.elim (fun h => h hf) fun h => Bool.false_ne_true (h.symm.trans hr),
      fun ch ho => ho.elim⟩
  | writeWake => exact fun ch hne ho => absurd ho hne
  | readGo he =>
    intro ch hw
    cases ch with
    | nread => exact .inr ⟨hw, id⟩
    | nwrite => exact .inl rfl
  | readSleep =>
    obtain ⟨-, he, hw⟩ := hk rfl
    exact ⟨fun h => h.elim (fun h => h he) fun h => Bool.false_ne_true (h.symm.trans hw),
      fun ch ho => ho.elim⟩
  | readEmpty he =>
    intro ch hw
    cases ch with
    | nread => exact .inr ⟨hw, nofun⟩
    | nwrite => exact .inl rfl
  | take he =>
    intro ch hw
    cases ch with
    | nread => exact .inr ⟨.inl he, nofun⟩
    | nwrite => exact .inl rfl
  | lose he hc =>
    intro ch hw
    cases ch with
    | nread => exact .inr ⟨.inl he, nofun⟩
    | nwrite => exact .inl rfl
  | readEnd hlen =>
    intro ch hw
    cases ch with
    | nread => exact .inr ⟨hw, nofun⟩
    | nwrite => exact .inl rfl
  | readWake => exact fun ch hne ho => absurd ho hne
  | @closeSet w =>
    intro ch hw
    cases w <;> cases ch <;> first | exact .inl rfl | exact .inr ⟨hw, id⟩
  | closeWake => exact fun ch hne ho => absurd ho hne
  | closeTest => exact fun ch hw => .inr ⟨by cases ch <;> exact hw, id⟩
  | _ => exact fun ch ho => ho.elim

end

/-- A process there that has been killed leaves `pipewrite` without waking the readers, although
it has stored a byte or will have: the loop asks whether the process has been killed before every
byte but wakes the readers only after the last one. -/
def Loc.exposed {n : Nat} (t : Shared n) : Loc → Bool
  | .writeLoop i k d => d && decide ((i : Int) < k)
  | .writeTest i k _ => !decide t.Full && decide ((i : Int) + 1 < k)
  | _ => false

/-- The step kills no process that is exposed while a reader sleeps or is about to. -/
def Spares {n : Nat} (s : Machine n) (p : Fin n) (_ : Call n) : Prop :=
  ∀ q, (s.pc p).kills = some q → (s.loc q).exposed s.shared = true → ∀ r, ¬ Dozing s r .nread

instance {n : Nat} (s : Machine n) (p : Fin n) (c : Call n) : Decidable (Spares s p c) :=
  inferInstanceAs (Decidable (∀ _, _ → _ → ∀ _, ¬ _))

/-- No reader dozes while an exposed process is marked killed. -/
def Safe {n : Nat} (s : Machine n) : Prop :=
  ∀ q, (s.loc q).exposed s.shared = true → s.killed q = true → ∀ r, ¬ Dozing s r .nread

section

variable {n : Nat} {s s' : Machine n} {p : Fin n} {c : Call n}

theorem inside_of_exposed {t : Shared n} {l : Loc} (h : l.exposed t = true) :
    inside l = true := by
  cases l <;> first | rfl | cases h

/-- An exposed process holds `pi->lock`. -/
theorem holds_of_exposed (hi : Monitor.Inv code inside s) {q : Fin n} {t : Shared n}
    (h : (s.loc q).exposed t = true) : (s.pc q).holds inside = true := by
  refine hi.holds (inside_of_exposed h) fun l t j ch ha => ?_
  rw [State.loc] at h
  generalize (s.pc q).loc = l' at h ha
  cases does ha with
  | writeSleep => cases h
  | readSleep => cases h

/-- A process that becomes exposed by an act of its own was exposed already. -/
theorem exposed_act {t : Shared n} {l : Loc} {a : Act n Chan (Shared n) Loc}
    (ha : Does p t c l a) (h : (a.next t l).2.exposed (a.next t l).1 = true) :
    l.exposed t = true := by
  cases ha with
  | dupPanic => cases h
  | closePanic => cases h
  | writeKilled hi hr => exact h
  | readKilled he hw => cases h
  | store hf =>
    simp only [Act.next, Loc.exposed, Bool.true_and, decide_eq_true_eq] at h
    simp only [Loc.exposed, Bool.and_eq_true, Bool.not_eq_true', decide_eq_false_iff_not,
      decide_eq_true_eq]
    exact ⟨hf, by push_cast at h; exact h⟩
  | closeRel => split at h <;> cases h
  | _ => cases h

/-- An act made outside the pipe's lock exposes no other process. -/
theorem exposed_outside {t : Shared n} {l m : Loc} {a : Act n Chan (Shared n) Loc}
    (ha : Does p t c l a) (hl : inside l = false) (h : m.exposed (a.next t l).1 = true) :
    m.exposed t = true := by
  cases ha with
  | dup hr => cases m <;> exact h
  | close hf hr => cases m <;> exact h
  | closeLast hf hr => cases m <;> exact h
  | free => cases m <;> exact h
  | write => exact h
  | read => exact h
  | dupPanic => exact h
  | closePanic => exact h
  | kill => exact h
  | closeLock => exact h
  | _ => cases hl

/-- A process that is exposed after a step was exposed before, unless it has just found that it
has not been killed. -/
theorem exposed_before (hi : Monitor.Inv code inside s) (hm : Move code s p c s') {q : Fin n}
    (hq : (s'.loc q).exposed s'.shared = true) :
    (s.loc q).exposed s.shared = true ∨
      (s.killed q = false ∧ ∃ k, s.pc p = .killedRead (s.loc p) k) := by
  cases hm.effect hi with
  | quiet hs hl =>
    rw [hs, hl] at hq
    exact .inl hq
  | act hpc ha hs hl =>
    rw [hs, hl] at hq
    refine .inl ?_
    by_cases hqp : q = p
    · subst hqp
      rw [Function.update_self] at hq
      exact exposed_act (does ha) hq
    · rw [Function.update_of_ne hqp] at hq
      by_cases hin : inside (s.loc p) = true
      · exact absurd (hi.unique (holds_of_exposed hi hq) (by rw [hpc]; exact hin)) hqp
      · exact exposed_outside (does ha) (Bool.eq_false_of_not_eq_true hin) hq
  | @answer k t j hpc ha hs hl =>
    rw [hs, hl] at hq
    by_cases hqp : q = p
    · subst hqp
      rw [Function.update_self] at hq
      refine .inr ⟨Bool.eq_false_of_not_eq_true fun hk => ?_, k, hpc⟩
      rw [hk] at hq
      generalize s.loc q = l at ha
      cases does ha with
      | writeKilled hi hr => cases hq
      | readKilled he hw => cases hq
    · rw [Function.update_of_ne hqp] at hq
      exact .inl hq

/-- A process on its way to sleep is not exposed, and no other is. -/
theorem not_exposed_of_sleep (hi : Monitor.Inv code inside s) (hpc : s.pc p = .code (s.loc p))
    {ch : Chan} {l' : Loc} (ha : code p (s.loc p) s.shared c = some (.sleep ch l')) {q : Fin n} :
    ¬ (s.loc q).exposed s.shared = true := by
  intro hq
  have hin : inside (s.loc p) = true := (disciplined _ _ _ _ _ ha).1
  have hqp : q = p := hi.unique (holds_of_exposed hi hq) (by rw [hpc]; exact hin)
  subst hqp
  generalize s.loc q = l at hq ha
  cases does ha with
  | writeSleep => cases hq
  | readSleep => cases hq

theorem Safe.step (hi : Monitor.Inv code inside s) (h : Safe s) (hok : Spares s p c)
    (hm : Move code s p c s') : Safe s' := by
  intro q hq hkill r hz
  have hdoze : Dozing s r .nread := by
    rcases hm.dozing_cases hz with hz | ⟨-, l', hpc, ha⟩
    · exact hz
    · rcases exposed_before hi hm hq with he | ⟨-, k, hk⟩
      · exact absurd he (not_exposed_of_sleep hi hpc ha)
      · rw [hpc] at hk
        cases hk
  rcases hm.killed_cases q with hsame | ⟨hkills, hs, hl⟩
  · rcases exposed_before hi hm hq with he | ⟨hno, -⟩
    · exact h q he (hsame.symm.trans hkill) r hdoze
    · exact Bool.false_ne_true (hno.symm.trans (hsame.symm.trans hkill))
  · rw [hs, hl] at hq
    exact hok q hkills hq r hdoze

theorem noLost_step (hok : Ok s) (hsafe : Safe s) (h : NoLost wake owes s)
    (hm : Move code s p c s') : NoLost wake owes s' := by
  refine h.step disciplined hok.locks (fun l a hpc ha => ?_)
    (fun l t j k hpc ha q ch hz ho => ?_) hm
  · exact pays (does ha) (hok.knows.at_code hpc)
  · have hloc : s.loc p = l := by rw [State.loc, hpc]; rfl
    cases does ha with
    | @writeKilled i m d hi hr =>
      obtain ⟨rfl, rfl⟩ := ho
      cases hkill : s.killed p with
      | false => exact ⟨rfl, rfl⟩
      | true =>
        refine absurd hz (hsafe p ?_ hkill q)
        rw [hloc, Loc.exposed, Bool.true_and]
        exact decide_eq_true hi
    | readKilled he hw => exact ho.elim

/-- **No pipe sleeper is stranded.**  If no process is killed inside `pipewrite` where it has
stored a byte, or may store one, since it last woke the readers, and has more to store, while a
reader sleeps, then while `pi->lock` is free no reader is asleep although there is something to
read or the write end is closed, and no writer although there is room or the read end is
closed. -/
theorem pipe_not_stranded {p₀ : Fin n} {data : Nat → UInt8}
    (h : Reach code Spares (boot p₀ data) s) (hl : s.lock = none) (q : Fin n) :
    ¬ (s.state q = .sleeping ∧ s.chan q = some .nread ∧
        (s.shared.ring.nread ≠ s.shared.ring.nwrite ∨ s.shared.writeopen = false)) ∧
      ¬ (s.state q = .sleeping ∧ s.chan q = some .nwrite ∧
        (s.shared.ring.count UINT < PIPESIZE ∨ s.shared.readopen = false)) := by
  obtain ⟨hok, -, hlost⟩ := h.induct (J := fun s => Ok s ∧ Safe s ∧ NoLost wake owes s)
    ⟨ok_boot p₀ data, nofun, noLost_start⟩ fun s p c s' hs hsp _ hm =>
      ⟨hs.1.step hm, hs.2.1.step hs.1.locks hsp hm, noLost_step hs.1 hs.2.1 hs.2.2 hm⟩
  refine ⟨fun hz => ?_, fun hz => ?_⟩
  · exact hlost.not_sleeping (c := .nread) hl hz.2.2 ⟨hz.1, hz.2.1⟩
  · have hw : wake .nwrite s.shared :=
      hz.2.2.imp_left fun hlt hf => Nat.ne_of_lt hlt (hok.queue.full_iff.1 hf)
    exact hlost.not_sleeping (c := .nwrite) hl hw ⟨hz.1, hz.2.1⟩

end

theorem zero_lt_three : 0 < 3 := by decide

theorem one_lt_three : 1 < 3 := by decide

theorem two_lt_three : 2 < 3 := by decide

/-- The process that writes. -/
def writer : Fin 3 := ⟨0, zero_lt_three⟩

/-- The process that reads. -/
def reader : Fin 3 := ⟨1, one_lt_three⟩

/-- The process that kills. -/
def killer : Fin 3 := ⟨2, two_lt_three⟩

/-- Process `0` creates the pipe and shares it with process `1`, which sleeps in `piperead`. -/
def readerSleeps : List (Fin 3 × Call 3) :=
  (writer, .dup false reader) :: List.replicate 10 (reader, .read 1)

/-- Then process `0` stores the first of two bytes, and process `2` kills it. -/
def writerKilled : List (Fin 3 × Call 3) :=
  readerSleeps ++ (writer, Call.write 2) :: List.replicate 5 (writer, Call.copy (some 7)) ++
    List.replicate 4 (killer, Call.kill writer) ++ List.replicate 5 (writer, Call.kill writer)

theorem pipe_not_stranded_readerSleeps :
    ∃ s, run code Spares readerSleeps (boot 0 fun _ => 0) = some s ∧ s.lock = none ∧
      s.state 1 = .sleeping ∧ s.chan 1 = some .nread ∧ ¬ s.shared.ring.nread ≠ s.shared.ring.nwrite := by
  have h : ((run code Spares readerSleeps (boot 0 fun _ => 0)).map
      fun s => (s.lock, s.state 1, s.chan 1)) = some (none, .sleeping, some .nread) := by
    decide +kernel
  obtain ⟨s, hs, he⟩ := Option.map_eq_some_iff.1 h
  simp only [Prod.mk.injEq] at he
  refine ⟨s, hs, he.1, he.2.1, he.2.2, fun hne => ?_⟩
  exact (pipe_not_stranded (reach_run hs) he.1 1).1 ⟨he.2.1, he.2.2, .inl hne⟩

/-- A writer that is killed after storing a byte leaves the reader asleep. -/
theorem pipe_stranded_writerKilled :
    ∃ s, Reach code anyStep (boot (0 : Fin 3) fun _ => 0) s ∧ s.lock = none ∧
      s.state 1 = .sleeping ∧ s.chan 1 = some .nread ∧
      s.shared.ring.nread ≠ s.shared.ring.nwrite := by
  have h : ((run code anyStep writerKilled (boot 0 fun _ => 0)).map
      fun s => (s.lock, s.state 1, s.chan 1, s.shared.ring.nread, s.shared.ring.nwrite)) =
        some (none, .sleeping, some .nread, 0, 1) := by
    decide +kernel
  obtain ⟨s, hs, he⟩ := Option.map_eq_some_iff.1 h
  simp only [Prod.mk.injEq] at he
  obtain ⟨hl, hz, hc, hr, hw⟩ := he
  exact ⟨s, reach_run hs, hl, hz, hc, by rw [hr, hw]; decide⟩

end Pipe

end Xv6
