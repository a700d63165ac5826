import Xv6.Base.RingBuffer

/-!
# The console

`consoleintr` and `consoleread` of `kernel/console.c`.  The indices `r`, `w` and `e` are `uint`s,
which wrap around; what the user types is echoed, which is left out.

Both functions hold `cons.lock` but while `consoleread` sleeps, so a step of the machine is one
call of `consoleintr`, or `consoleread` from one point at which it does not hold the lock to the
next: from its start, or from its `sleep`, to its next `sleep` or to its end.  A process may leave
`sleep` at any time.  The buffers of the readers are valid, so `either_copyout` does not fail.
-/

set_option autoImplicit false

namespace Xv6.Console

/-- `INPUT_BUF_SIZE`. -/
def INPUT_BUF_SIZE : Nat := 128

/-- The range of a `uint`. -/
def UINT : Nat := 2 ^ 32

/-- `C(x)`, for a letter. -/
def ctrl (x : Char) : UInt8 := x.toUInt8 - 64

/-- `'\n'`. -/
def newline : UInt8 := 10

/-- `'\r'`. -/
def carriageReturn : UInt8 := 13

/-- `'\x7f'`. -/
def delete : UInt8 := 127

/-- `cons`. -/
structure Cons where
  buf : Nat → UInt8
  r : Nat
  w : Nat
  e : Nat

namespace Cons

/-- `cons.buf[i % INPUT_BUF_SIZE]`. -/
def char (x : Cons) (i : Nat) : UInt8 := x.buf (i % INPUT_BUF_SIZE)

/-- `cons.e--`. -/
def erase (x : Cons) : Cons := { x with e := (x.e + UINT - 1) % UINT }

/-- The loop of Ctrl-U; `cons.e - cons.w` turns are enough. -/
def killLine (x : Cons) : Nat → Cons
  | 0 => x
  | k + 1 =>
    if x.e ≠ x.w ∧ x.char ((x.e + UINT - 1) % UINT) ≠ newline then x.erase.killLine k else x

/-- `cons.buf[cons.e++ % INPUT_BUF_SIZE] = c`. -/
def store (x : Cons) (c : UInt8) : Cons :=
  { x with buf := Function.update x.buf (x.e % INPUT_BUF_SIZE) c, e := (x.e + 1) % UINT }

/-- `cons.e - cons.r`. -/
def count (x : Cons) : Nat := (x.e + UINT - x.r) % UINT

end Cons

/-- `consoleintr(c)`.  `procdump` and `kill_all_user_processes` do not touch `cons`. -/
def consoleintr (c : UInt8) (x : Cons) : Cons :=
  if c = ctrl 'P' then x
  else if c = ctrl 'U' then x.killLine ((x.e + UINT - x.w) % UINT)
  else if c = ctrl 'H' ∨ c = delete then if x.e ≠ x.w then x.erase else x
  else if c = ctrl 'C' then x
  else if c ≠ 0 ∧ x.count < INPUT_BUF_SIZE then
    let c := if c = carriageReturn then newline else c
    let x := x.store c
    if c = newline ∨ c = ctrl 'D' ∨ x.count = INPUT_BUF_SIZE then { x with w := x.e } else x
  else x

/-- How a stretch of `consoleread` ends. -/
inductive Out
  /-- It sleeps, with `n` bytes to go. -/
  | sleep (n : Nat) (got : List UInt8)
  /-- It returns the bytes it has copied. -/
  | done (got : List UInt8)
  /-- It returns -1, since the process was killed. -/
  | killed (got : List UInt8)
  deriving DecidableEq

/-- The loop of `consoleread(target)`, with `n` bytes to go and the bytes `got` copied.  The list is
what it has taken out of the buffer for good. -/
def consoleread (killed : Bool) (target : Nat) (x : Cons) :
    (n : Nat) → (got : List UInt8) → Cons × List UInt8 × Out
  | 0, got => (x, [], .done got)
  | n + 1, got =>
    if x.r = x.w then (x, [], if killed then .killed got else .sleep (n + 1) got)
    else
      let c := x.char x.r
      let x' := { x with r := (x.r + 1) % UINT }
      if c = ctrl 'D' then
        -- save ^D for next time, to make sure caller gets a 0-byte result
        if n + 1 < target then ({ x' with r := (x'.r + UINT - 1) % UINT }, [], .done got)
        else (x', [c], .done got)
      else if c = newline then (x', [c], .done (got ++ [c]))
      else
        let y := consoleread killed target x' n (got ++ [c])
        (y.1, c :: y.2.1, y.2.2)

/-! ## The machine -/

/-- A call of `consoleread(target)` that sleeps, with `n` bytes to go and the bytes `got` copied. -/
structure Call where
  id : Nat
  target : Nat
  n : Nat
  got : List UInt8

/-- A call of `consoleread(target)` that has returned. -/
structure Read where
  id : Nat
  target : Nat
  out : Out

/-- The console and the processes that read it. -/
structure State (P : Type) where
  cons : Cons
  /-- The call that a process is in. -/
  call : P → Option Call
  killed : P → Bool
  /-- Ghost: how many calls there have been. -/
  calls : Nat
  /-- Ghost: the characters that were committed. -/
  committed : List UInt8
  /-- Ghost: the characters that were taken, each with the call that took it. -/
  taken : List (Nat × UInt8)
  /-- Ghost: the calls that have returned. -/
  reads : List Read

/-- What happens. -/
inductive Label (P : Type)
  /-- A keystroke. -/
  | key (c : UInt8)
  /-- A call of `consoleread(n)`. -/
  | read (p : P) (n : Nat)
  /-- A process leaves `sleep`. -/
  | wake (p : P)
  /-- Somebody kills a process. -/
  | kill (p : P)

/-- The characters between two indices. -/
def Cons.between (x : Cons) (i j : Nat) : List UInt8 :=
  RingBuffer.contents INPUT_BUF_SIZE UINT ⟨x.buf, i, j⟩

/-- The characters that are committed and not yet read. -/
def Cons.pending (x : Cons) : List UInt8 := x.between x.r x.w

/-- The line being edited. -/
def Cons.line (x : Cons) : List UInt8 := x.between x.w x.e

variable {P : Type}

/-- `kill_all_user_processes()`, for processes with these pids. -/
def killAll (pid : P → Int) (killed : P → Bool) (p : P) : Bool := killed p || decide (2 < pid p)

variable [DecidableEq P]

/-- A process executes its call up to its `sleep` or its end. -/
def State.go (s : State P) (p : P) (z : Call) : State P :=
  let y := consoleread (s.killed p) z.target s.cons z.n z.got
  let s := { s with cons := y.1, taken := s.taken ++ y.2.1.map fun c => (z.id, c) }
  match y.2.2 with
  | .sleep n got => { s with call := Function.update s.call p (some { z with n := n, got := got }) }
  | out => { s with
      call := Function.update s.call p none
      reads := s.reads ++ [⟨z.id, z.target, out⟩] }

/-- A step; `pid` are the pids of the processes. -/
def State.step (pid : P → Int) (s : State P) : Label P → Option (State P)
  | .key c =>
    let x := consoleintr c s.cons
    some { s with
      cons := x
      killed := if c = ctrl 'C' then killAll pid s.killed else s.killed
      committed := s.committed ++ x.between s.cons.w x.w }
  | .read p n =>
    match s.call p with
    | none => if 0 < n then
        some ({ s with calls := s.calls + 1 }.go p ⟨s.calls, n, n, []⟩) else none
    | some _ => none
  | .wake p =>
    match s.call p with
    | none => none
    | some z => some (s.go p z)
  | .kill p => some { s with killed := Function.update s.killed p true }

/-- The console at boot. -/
def boot : State P where
  cons := ⟨fun _ => 0, 0, 0, 0⟩
  call _ := none
  killed _ := false
  calls := 0
  committed := []
  taken := []
  reads := []

/-- The states the machine reaches. -/
inductive Reach (pid : P → Int) : State P → Prop
  | boot : Reach pid boot
  | step {s s' : State P} {l : Label P} (hs : Reach pid s) (h : s.step pid l = some s') :
      Reach pid s'

end Xv6.Console
