import Xv6.Fs.Balance

/-!
# Open files

References to `struct file` are counted by the descriptors of the processes, as references to
inodes are by the files and the current directories.  `Files T held fresh` is the account of the files
half way through a call: the reference count of each file is the number of descriptors that point
to it, plus the references in `held` that the call itself has; a free file has no type; every
object a file was opened on has been released once, or is the one it is open on; and a file in use
is open on one, unless it is in `fresh`, those the call has just allocated.

What a function does to the tables is a function of the tables: `Tables.alloc`, `Tables.close` and
the like.  The rules for the code say which of them it computes, and lemmas about `Files` say what
becomes of the account.
-/

set_option autoImplicit false

namespace Xv6.Fs

open Monitor (total total_update total_update_same le_total)

variable {μ : Type}

/-! ## References in the tables -/

/-- How many references to the inode an open file is: one or none. -/
def File.points (x : File) (i : Fin NINODE) : Nat :=
  if 0 < x.ref ∧ (x.type = .inode ∨ x.type = .device) ∧ x.ip = some i then 1 else 0

/-- How many references to the inode a process is, by its current directory. -/
def Proc.stands (x : Proc) (i : Fin NINODE) : Nat := if x.cwd = some i then 1 else 0

/-- A descriptor, as a reference to the file. -/
def hold (f : Fin NFILE) (d : Option (Fin NFILE)) : Nat := if d = some f then 1 else 0

/-- How many descriptors of a process point to the file. -/
def Proc.slots (x : Proc) (f : Fin NFILE) : Nat := total (hold f) x.ofile

/-- What an open file has to release. -/
def File.obj (x : File) : Option Obj :=
  match x.type with
  | .none => none
  | .pipe => some (.pipe x.pipe x.writable)
  | _ => x.ip.map .inode

namespace Tables

/-- The references to an inode from files and processes. -/
def uses (T : Tables) (i : Fin NINODE) : Nat :=
  total (fun x => File.points x i) T.file + total (fun x => Proc.stands x i) T.proc

/-- How many descriptors point to the file. -/
def slots (T : Tables) (f : Fin NFILE) : Nat := total (fun x => Proc.slots x f) T.proc

/-- What happened to a file, latest first. -/
def history (T : Tables) (f : Fin NFILE) : List (Bool × Obj) :=
  (T.events.filter fun e => e.file = f).map fun e => (e.opened, e.obj)

def setFile (T : Tables) (f : Fin NFILE) (x : File) : Tables :=
  { T with file := Function.update T.file f x }

def setProc (T : Tables) (q : Fin NPROC) (x : Proc) : Tables :=
  { T with proc := Function.update T.proc q x }

/-- `q->ofile[fd] = d`. -/
def setFd (T : Tables) (q : Fin NPROC) (fd : Fin NOFILE) (d : Option (Fin NFILE)) : Tables :=
  T.setProc q { T.proc q with ofile := Function.update (T.proc q).ofile fd d }

/-- `q->cwd = d`. -/
def setCwd (T : Tables) (q : Fin NPROC) (d : Option (Fin NINODE)) : Tables :=
  T.setProc q { T.proc q with cwd := d }

def record (T : Tables) (f : Fin NFILE) (opened : Bool) (ob : Obj) : Tables :=
  { T with events := ⟨f, opened, ob⟩ :: T.events }

/-- What `filealloc` does with the file it finds. -/
def alloc (T : Tables) (f : Fin NFILE) : Tables := T.setFile f { T.file f with ref := 1 }

/-- What `filedup` does. -/
def dup (T : Tables) (f : Fin NFILE) : Tables :=
  T.setFile f { T.file f with ref := (T.file f).ref + 1 }

/-- What a file that is opened on `ob` becomes. -/
def opened (T : Tables) (f : Fin NFILE) (x : File) (ob : Obj) : Tables :=
  (T.setFile f x).record f true ob

/-- What becomes of a file when its last reference is closed, and it releases what it stood for. -/
def released (T : Tables) (f : Fin NFILE) : Option Obj → Tables
  | none => T.setFile f { T.file f with ref := 0, type := .none }
  | some ob => (T.setFile f { T.file f with ref := 0, type := .none }).record f false ob

/-- What `fileclose` does. -/
def close (T : Tables) (f : Fin NFILE) : Tables :=
  if (T.file f).ref - 1 > 0 then T.setFile f { T.file f with ref := (T.file f).ref - 1 }
  else T.released f (T.file f).obj

section

variable (T : Tables) (f g : Fin NFILE) (q : Fin NPROC) (i : Fin NINODE)

theorem setFile_self (x : File) : (T.setFile f x).file f = x := Function.update_self ..

theorem setFile_of_ne {f g : Fin NFILE} (h : g ≠ f) (x : File) :
    (T.setFile f x).file g = T.file g := Function.update_of_ne h ..

theorem setProc_self (x : Proc) : (T.setProc q x).proc q = x := Function.update_self ..

theorem setProc_of_ne {q r : Fin NPROC} (h : r ≠ q) (x : Proc) :
    (T.setProc q x).proc r = T.proc r := Function.update_of_ne h ..

theorem setFd_self (fd : Fin NOFILE) (d : Option (Fin NFILE)) :
    ((T.setFd q fd d).proc q).ofile fd = d := by
  rw [setFd, setProc_self]
  exact Function.update_self ..

theorem setFd_of_ne {fd fd' : Fin NOFILE} (h : fd' ≠ fd) (d : Option (Fin NFILE)) :
    ((T.setFd q fd d).proc q).ofile fd' = (T.proc q).ofile fd' := by
  rw [setFd, setProc_self]
  exact Function.update_of_ne h ..

theorem setFd_cwd (fd : Fin NOFILE) (d : Option (Fin NFILE)) :
    ((T.setFd q fd d).proc q).cwd = (T.proc q).cwd := by
  rw [setFd, setProc_self]

theorem setFd_alive {q : Fin NPROC} (h : (T.proc q).alive) (fd : Fin NOFILE)
    (d : Option (Fin NFILE)) : ((T.setFd q fd d).proc q).alive := by
  rw [setFd, setProc_self]
  exact h

theorem uses_setFile (x : File) :
    (T.setFile f x).uses i + (T.file f).points i = T.uses i + x.points i := by
  have h := total_update (fun x => File.points x i) T.file f x
  simp only [uses, setFile]
  omega

theorem uses_setProc (x : Proc) :
    (T.setProc q x).uses i + (T.proc q).stands i = T.uses i + x.stands i := by
  have h := total_update (fun x => Proc.stands x i) T.proc q x
  simp only [uses, setProc]
  omega

theorem slots_setProc (x : Proc) :
    (T.setProc q x).slots f + (T.proc q).slots f = T.slots f + x.slots f :=
  total_update (fun x => Proc.slots x f) T.proc q x

theorem uses_setFd (fd : Fin NOFILE) (d : Option (Fin NFILE)) : (T.setFd q fd d).uses = T.uses := by
  funext i
  have h : (T.setFd q fd d).uses i + (T.proc q).stands i = T.uses i + (T.proc q).stands i :=
    T.uses_setProc q i _
  omega

theorem uses_setCwd (d : Option (Fin NINODE)) :
    (T.setCwd q d).uses i + (T.proc q).cwd.toList.count i = T.uses i + d.toList.count i := by
  have hcount : ∀ d : Option (Fin NINODE), d.toList.count i = if d = some i then 1 else 0 := by
    intro d
    cases d with
    | none => exact (if_neg nofun).symm
    | some j =>
      rw [Option.toList_some, List.count_singleton]
      exact if_congr (by rw [beq_iff_eq, Option.some.injEq]) rfl rfl
  rw [hcount, hcount]
  exact T.uses_setProc q i _

/-- A file that goes on standing for the same inode. -/
theorem uses_setFile_same {x : File} (h : ∀ i, x.points i = (T.file f).points i) :
    (T.setFile f x).uses = T.uses := by
  funext i
  have := T.uses_setFile f i x
  have := h i
  omega

theorem history_record (b : Bool) (ob : Obj) :
    (T.record f b ob).history g = if g = f then (b, ob) :: T.history g else T.history g := by
  simp only [history, record, List.filter_cons]
  by_cases h : g = f
  · rw [if_pos (decide_eq_true h.symm), if_pos h, List.map_cons]
  · rw [if_neg (fun hd => h (of_decide_eq_true hd).symm), if_neg h]

/-- Closing a file and clearing a descriptor are independent. -/
theorem close_setFd (fd : Fin NOFILE) (d : Option (Fin NFILE)) :
    (T.close f).setFd q fd d = (T.setFd q fd d).close f := by
  have hfile : (T.setFd q fd d).file = T.file := rfl
  rw [close, close, hfile]
  split
  · rfl
  · cases (T.file f).obj <;> rfl

theorem close_proc : (T.close f).proc = T.proc := by
  rw [close]
  split
  · rfl
  · cases (T.file f).obj <;> rfl

theorem close_of_ne {f g : Fin NFILE} (h : g ≠ f) : (T.close f).file g = T.file g := by
  rw [close]
  split
  · exact T.setFile_of_ne h _
  · cases (T.file f).obj <;> exact T.setFile_of_ne h _

/-- The last reference is closed. -/
theorem ref_close {T : Tables} {f : Fin NFILE} (h : (T.file f).ref = 1) :
    ((T.close f).file f).ref = 0 := by
  rw [close, if_neg (by omega)]
  cases (T.file f).obj <;> exact congrArg File.ref (T.setFile_self f _)

/-- A process stands in its current directory. -/
theorem stands_uses : Stands q T T.uses := by
  intro i h
  have hle := le_total (fun x => Proc.stands x i) T.proc q
  have h1 : Proc.stands (T.proc q) i = 1 := if_pos h
  rw [uses]
  omega

end

end Tables

theorem hold_self (f : Fin NFILE) : hold f (some f) = 1 := if_pos rfl

theorem hold_of_ne {f g : Fin NFILE} (h : g ≠ f) : hold g (some f) = 0 :=
  if_neg fun he => h (Option.some.inj he).symm

theorem hold_none (f : Fin NFILE) : hold f none = 0 := if_neg nofun

/-! ## The account -/

/-- Each object that was opened has been released, once. -/
inductive Paired : List (Bool × Obj) → Prop
  | nil : Paired []
  | cons {ob : Obj} {h : List (Bool × Obj)} : Paired h → Paired ((false, ob) :: (true, ob) :: h)

/-- The history of a file that is open on an object, or on none. -/
def Hist : Option Obj → List (Bool × Obj) → Prop
  | none, h => Paired h
  | some ob, h => ∃ h', h = (true, ob) :: h' ∧ Paired h'

/-- The account of the files. -/
structure Files (T : Tables) (held fresh : List (Fin NFILE)) : Prop where
  ref : ∀ f, (T.file f).ref = (T.slots f + held.count f : Nat)
  closed : ∀ f, (T.file f).ref = 0 → (T.file f).type = .none
  hist : ∀ f, Hist (T.file f).obj (T.history f)
  opened : ∀ f, (T.file f).ref ≠ 0 → f ∉ fresh → (T.file f).obj ≠ none
  /-- A process that does not exist has no files and stands nowhere. -/
  dead : ∀ q, ¬ (T.proc q).alive → (∀ fd, (T.proc q).ofile fd = none) ∧ (T.proc q).cwd = none

section

variable {T : Tables} {held fresh : List (Fin NFILE)} {f : Fin NFILE} {p q : Fin NPROC}

theorem obj_of_none {x : File} (h : x.type = .none) : x.obj = none := by
  rw [File.obj, h]

theorem points_of_none {x : File} (h : x.type = .none) (i : Fin NINODE) : x.points i = 0 := by
  rw [File.points, h]
  exact if_neg fun hx => by rcases hx.2.1 with h | h <;> cases h

theorem points_of_pipe {x : File} (h : x.type = .pipe) (i : Fin NINODE) : x.points i = 0 := by
  rw [File.points, h]
  exact if_neg fun hx => by rcases hx.2.1 with h | h <;> cases h

/-- What the call holds is in use. -/
theorem Files.held_pos (h : Files T held fresh) (hm : f ∈ held) : 1 ≤ (T.file f).ref := by
  have := List.count_pos_iff.2 hm
  rw [h.ref f]
  omega

theorem Files.perm (h : Files T held fresh) {held' fresh' : List (Fin NFILE)}
    (hp : held.Perm held') (hf : fresh.Perm fresh') : Files T held' fresh' :=
  ⟨fun f => by rw [h.ref f, hp.count_eq], h.closed, h.hist,
    fun f h0 hn => h.opened f h0 fun hm => hn (hf.mem_iff.1 hm), h.dead⟩

/-- A file that was allocated and is free again. -/
theorem Files.forget (h : Files T held (f :: fresh)) (h0 : (T.file f).ref = 0) :
    Files T held fresh := by
  refine ⟨h.ref, h.closed, h.hist, fun g hg hn => h.opened g hg fun hm => ?_, h.dead⟩
  rcases List.mem_cons.1 hm with rfl | hm
  · exact hg h0
  · exact hn hm

theorem Files.ref_pos (h : Files T held fresh) {fd : Fin NOFILE} (hfd : (T.proc q).ofile fd = some f) :
    1 ≤ (T.file f).ref := by
  have h1 := le_total (fun x => Proc.slots x f) T.proc q
  have h2 := le_total (hold f) (T.proc q).ofile fd
  rw [hfd, hold_self] at h2
  rw [h.ref f]
  simp only [Tables.slots, Proc.slots] at h1 h2 ⊢
  omega

/-- One file changes, its count with it. -/
theorem Files.setFile (h : Files T held fresh) {x : File} {held' fresh' : List (Fin NFILE)}
    (hr : x.ref = (T.slots f + held'.count f : Nat))
    (hc : ∀ g, g ≠ f → held'.count g = held.count g) (h0 : x.ref = 0 → x.type = .none)
    (ho : x.obj = (T.file f).obj) (hfr : x.ref ≠ 0 → f ∉ fresh' → (T.file f).obj ≠ none)
    (hsub : ∀ g, g ∈ fresh → g ∈ fresh') : Files (T.setFile f x) held' fresh' := by
  refine ⟨fun g => ?_, fun g => ?_, fun g => ?_, fun g => ?_, h.dead⟩ <;> by_cases hg : g = f
  · rw [hg, T.setFile_self, hr]
    rfl
  · rw [T.setFile_of_ne hg, h.ref g, hc g hg]
    rfl
  · rw [hg, T.setFile_self]
    exact h0
  · rw [T.setFile_of_ne hg]
    exact h.closed g
  · rw [hg, T.setFile_self, ho]
    exact h.hist f
  · rw [T.setFile_of_ne hg]
    exact h.hist g
  · rw [hg, T.setFile_self, ho]
    exact hfr
  · rw [T.setFile_of_ne hg]
    exact fun h1 h2 => h.opened g h1 fun hm => h2 (hsub g hm)

theorem Files.alloc (h : Files T held fresh) (h0 : (T.file f).ref = 0) :
    Files (T.alloc f) (f :: held) (f :: fresh) := by
  refine h.setFile ?_ (fun g hg => List.count_cons_of_ne (Ne.symm hg)) (fun h1 => nomatch h1) rfl
    (fun _ hn => absurd List.mem_cons_self hn) fun g hg => List.mem_cons_of_mem f hg
  have := h.ref f
  rw [List.count_cons_self]
  show (1 : Int) = _
  omega

theorem Files.dup (h : Files T held fresh) (hpos : 1 ≤ (T.file f).ref) :
    Files (T.dup f) (f :: held) fresh := by
  have hr := h.ref f
  refine h.setFile ?_ (fun g hg => List.count_cons_of_ne (Ne.symm hg)) (fun h1 => ?_) rfl
    (fun _ hn => h.opened f (by omega) hn) fun _ hg => hg
  · rw [List.count_cons_self]
    show (T.file f).ref + 1 = _
    omega
  · have h1 : (T.file f).ref + 1 = 0 := h1
    omega

/-- A field that is no account of anything changes. -/
theorem Files.touch (h : Files T held fresh) {x : File} (hr : x.ref = (T.file f).ref)
    (ht : x.type = (T.file f).type) (ho : x.obj = (T.file f).obj) :
    Files (T.setFile f x) held fresh :=
  h.setFile (hr.trans (h.ref f)) (fun _ _ => rfl) (fun h0 => ht.trans (h.closed f (hr ▸ h0))) ho
    (fun h0 hn => h.opened f (hr ▸ h0) hn) fun _ hg => hg

/-- A file that was open on nothing is opened. -/
theorem Files.install (h : Files T held (f :: fresh)) {x : File} {ob : Obj} (hr : x.ref = (T.file f).ref)
    (hpos : (T.file f).ref ≠ 0) (hno : (T.file f).obj = none) (hob : x.obj = some ob) :
    Files (T.opened f x ob) held fresh := by
  refine ⟨fun g => ?_, fun g => ?_, fun g => ?_, fun g h0 hn => ?_, h.dead⟩
  · by_cases hg : g = f
    · rw [hg]
      exact ((congrArg File.ref (T.setFile_self f x)).trans hr).trans (h.ref f)
    · exact (congrArg File.ref (T.setFile_of_ne hg x)).trans (h.ref g)
  · by_cases hg : g = f
    · rw [hg]
      exact fun h0 => absurd ((congrArg File.ref (T.setFile_self f x)).symm.trans h0) (hr ▸ hpos)
    · intro h0
      have hsame : (T.opened f x ob).file g = T.file g := T.setFile_of_ne hg x
      rw [hsame] at h0 ⊢
      exact h.closed g h0
  · rw [Tables.opened, Tables.history_record]
    by_cases hg : g = f
    · have hh := h.hist f
      rw [hno] at hh
      have hx : ((T.setFile f x).record f true ob).file f = x := T.setFile_self f x
      rw [hg, if_pos rfl, hx, hob]
      exact ⟨_, rfl, hh⟩
    · have hx : ((T.setFile f x).record f true ob).file g = T.file g := T.setFile_of_ne hg x
      rw [if_neg hg, hx]
      exact h.hist g
  · by_cases hg : g = f
    · have hx : (T.opened f x ob).file f = x := T.setFile_self f x
      rw [hg, hx, hob]
      nofun
    · have hx : (T.opened f x ob).file g = T.file g := T.setFile_of_ne hg x
      rw [hx] at h0 ⊢
      exact h.opened g h0 fun hm => hn ((List.mem_cons.1 hm).resolve_left hg)

theorem Files.close (h : Files T (f :: held) fresh) : Files (T.close f) held fresh := by
  have hr := h.ref f
  rw [List.count_cons_self] at hr
  have hc : ∀ g, g ≠ f → held.count g = (f :: held).count g :=
    fun g hg => (List.count_cons_of_ne (Ne.symm hg)).symm
  rw [Tables.close]
  split
  · refine h.setFile ?_ hc (fun h0 => ?_) rfl (fun _ hn => h.opened f (by omega) hn)
      fun _ hg => hg
    · show (T.file f).ref - 1 = _
      omega
    · have h0 : (T.file f).ref - 1 = 0 := h0
      omega
  · next hlast =>
    have hzero : (0 : Int) = (T.slots f + held.count f : Nat) := by omega
    cases hob : (T.file f).obj with
    | none =>
      exact h.setFile hzero hc (fun _ => rfl) ((obj_of_none rfl).trans hob.symm)
        (fun h0 => absurd rfl h0) fun _ hg => hg
    | some ob =>
      refine ⟨fun g => ?_, fun g => ?_, fun g => ?_, fun g h0 hn => ?_, h.dead⟩
      · by_cases hg : g = f
        · rw [hg]
          exact (congrArg File.ref (T.setFile_self f _)).trans hzero
        · rw [hc g hg]
          exact (congrArg File.ref (T.setFile_of_ne hg _)).trans (h.ref g)
      · by_cases hg : g = f
        · rw [hg]
          exact fun _ => congrArg File.type (T.setFile_self f _)
        · intro h0
          have hsame := T.setFile_of_ne hg { T.file f with ref := 0, type := .none }
          exact (congrArg File.type hsame).trans
            (h.closed g ((congrArg File.ref hsame).symm.trans h0))
      · rw [Tables.released, Tables.history_record]
        by_cases hg : g = f
        · obtain ⟨h', hh, hp⟩ : Hist (some ob) (T.history f) := hob ▸ h.hist f
          have hx : (((T.setFile f { T.file f with ref := 0, type := .none }).record f false
              ob).file f).obj = none :=
            obj_of_none (congrArg File.type (T.setFile_self f _))
          rw [hg, if_pos rfl, hx]
          show Paired ((false, ob) :: T.history f)
          rw [hh]
          exact hp.cons
        · have hx := T.setFile_of_ne hg { T.file f with ref := 0, type := .none }
          rw [if_neg hg]
          show Hist (((T.setFile f { T.file f with ref := 0, type := .none }).file g).obj) _
          rw [hx]
          exact h.hist g
      · by_cases hg : g = f
        · rw [hg] at h0
          exact absurd (congrArg File.ref (T.setFile_self f _)) h0
        · have hx : (T.released f (some ob)).file g = T.file g := T.setFile_of_ne hg _
          rw [hx] at h0 ⊢
          exact h.opened g h0 hn

/-- One process changes, the descriptors not counted. -/
theorem Files.setProc (h : Files T held fresh) {x : Proc} {held' : List (Fin NFILE)}
    (hs : ∀ g, x.slots g + held'.count g = (T.proc q).slots g + held.count g)
    (hd : ¬ x.alive → (∀ fd, x.ofile fd = none) ∧ x.cwd = none) :
    Files (T.setProc q x) held' fresh := by
  refine ⟨fun g => ?_, h.closed, h.hist, h.opened, fun r => ?_⟩
  · have h1 := T.slots_setProc g q x
    have h2 := hs g
    have h3 := h.ref g
    have h4 : ((T.setProc q x).file g).ref = (T.file g).ref := rfl
    omega
  · by_cases hr : r = q
    · rw [hr, T.setProc_self]
      exact hd
    · rw [T.setProc_of_ne hr]
      exact h.dead r

/-- A descriptor is given to a file, or taken from one. -/
theorem Files.setFd (h : Files T held fresh) (ha : (T.proc q).alive) {fd : Fin NOFILE}
    {d : Option (Fin NFILE)} {held' : List (Fin NFILE)}
    (hc : ∀ g, hold g d + held'.count g = hold g ((T.proc q).ofile fd) + held.count g) :
    Files (T.setFd q fd d) held' fresh := by
  refine h.setProc (fun g => ?_) fun hn => absurd ha hn
  have h1 := total_update (hold g) (T.proc q).ofile fd d
  have h2 := hc g
  simp only [Proc.slots]
  omega

theorem Files.fill (h : Files T (f :: held) fresh) (ha : (T.proc q).alive) {fd : Fin NOFILE}
    (hfd : (T.proc q).ofile fd = none) : Files (T.setFd q fd (some f)) held fresh := by
  refine h.setFd ha fun g => ?_
  rw [hfd, hold_none]
  by_cases hg : g = f
  · rw [hg, hold_self, List.count_cons_self]
    omega
  · rw [hold_of_ne hg, List.count_cons_of_ne (Ne.symm hg)]

theorem Files.clear (h : Files T held fresh) (ha : (T.proc q).alive) {fd : Fin NOFILE}
    (hfd : (T.proc q).ofile fd = some f) : Files (T.setFd q fd none) (f :: held) fresh := by
  refine h.setFd ha fun g => ?_
  rw [hfd, hold_none]
  by_cases hg : g = f
  · rw [hg, hold_self, List.count_cons_self]
    omega
  · rw [hold_of_ne hg, List.count_cons_of_ne (Ne.symm hg)]

end

end Xv6.Fs
