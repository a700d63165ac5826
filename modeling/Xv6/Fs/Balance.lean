import Xv6.Base.Monitor
import Xv6.Fs.Syscall

/-!
# What the inode layer takes and gives back

References to inodes, their locks and the count of calls in the log are taken and given back all
over `kernel/fs.c`.  `Bal p T U o own lk s` is the account of a call by `p` half way through: the
reference count of each inode is what the tables `T` of files and processes explain, plus the
references in `own` that the call itself holds; it holds exactly the locks in `lk`; and `o` calls
are in the log.  Each function of the layer has a rule that says what it does to `own` and `lk`.

The rules also say how a function can stop: never for one of the reasons that `Quiet` excludes,
except that `iget` stops when the table of inodes is full.  `Room` is what rules that out.
-/

set_option autoImplicit false

namespace Xv6.Fs

variable {μ : Type} {α β : Type}

/-- What lies above the inodes. -/
structure Tables where
  file : Fin NFILE → File
  proc : Fin NPROC → Proc
  initproc : Fin NPROC
  events : List Event

/-- The tables of a state. -/
def State.tables (s : State μ) : Tables := ⟨s.file, s.proc, s.initproc, s.events⟩

/-- Reasons to stop that have nothing to do with reference counts. -/
structure Quiet (e : Halt) : Prop where
  filedup : e ≠ .panic "filedup"
  fileclose : e ≠ .panic "fileclose"
  iget : e ≠ .panic "iget: no inodes"

theorem quiet_sleep : Quiet .sleep := ⟨nofun, nofun, nofun⟩

theorem quiet_diverge : Quiet .diverge := ⟨nofun, nofun, nofun⟩

theorem quiet_panic {msg : String} (h1 : msg ≠ "filedup") (h2 : msg ≠ "fileclose")
    (h3 : msg ≠ "iget: no inodes") : Quiet (.panic msg) :=
  ⟨fun h => h1 (Halt.panic.inj h), fun h => h2 (Halt.panic.inj h), fun h => h3 (Halt.panic.inj h)⟩

/-! ## Code that changes no account -/

/-- Nothing has changed but the disk, the memory and what the inodes hold of the disk. -/
structure Same (s s' : State μ) : Prop where
  tables : s'.tables = s.tables
  outstanding : s'.outstanding = s.outstanding
  dev : ∀ i, (s'.itable i).dev = (s.itable i).dev
  inum : ∀ i, (s'.itable i).inum = (s.itable i).inum
  ref : ∀ i, (s'.itable i).ref = (s.itable i).ref
  lock : ∀ i, (s'.itable i).lock = (s.itable i).lock

theorem Same.refl (s : State μ) : Same s s :=
  ⟨rfl, rfl, fun _ => rfl, fun _ => rfl, fun _ => rfl, fun _ => rfl⟩

theorem Same.trans {s₁ s₂ s₃ : State μ} (h : Same s₁ s₂) (h' : Same s₂ s₃) : Same s₁ s₃ :=
  ⟨h'.tables.trans h.tables, h'.outstanding.trans h.outstanding,
    fun i => (h'.dev i).trans (h.dev i), fun i => (h'.inum i).trans (h.inum i),
    fun i => (h'.ref i).trans (h.ref i), fun i => (h'.lock i).trans (h.lock i)⟩

/-- The code changes no account. -/
def Keeps (m : Kern (State μ) α) : Prop :=
  ∀ s, wp m (fun _ s' => Same s s') (fun e _ => Quiet e) s

section Keeps

variable {m m' : Kern (State μ) α} {f : α → Kern (State μ) β}

theorem Keeps.bind (h : Keeps m) (hf : ∀ a, Keeps (f a)) : Keeps (m >>= f) := by
  intro s
  refine wp_seq (h s) fun a s₁ h₁ => ?_
  exact wp_mono (hf a s₁) (fun _ _ h₂ => h₁.trans h₂) fun _ _ he => he

theorem Keeps.ite {c : Prop} [Decidable c] (h : Keeps m) (h' : Keeps m') :
    Keeps (if c then m else m') := by
  split
  · exact h
  · exact h'

theorem keeps_pure (a : α) : Keeps (pure a : Kern (State μ) α) :=
  fun s => wp_pure a |>.2 (Same.refl s)

theorem keeps_panic {msg : String} (h1 : msg ≠ "filedup") (h2 : msg ≠ "fileclose")
    (h3 : msg ≠ "iget: no inodes") : Keeps (panic msg : Kern (State μ) α) :=
  fun _ => (wp_panic msg).2 (quiet_panic h1 h2 h3)

theorem keeps_get : Keeps (get : Kern (State μ) (State μ)) := fun s => wp_get.2 (Same.refl s)

theorem keeps_getInode (i : Fin NINODE) : Keeps (getInode i : Kern (State μ) Inode) :=
  keeps_get.bind fun _ => keeps_pure _

theorem keeps_bread (b : Nat) : Keeps (bread b : Kern (State μ) Block) :=
  keeps_get.bind fun _ => keeps_pure _

/-- The disk is nobody's account. -/
theorem keeps_disk (g : State μ → Nat → Block) :
    Keeps (modify fun s => { s with disk := g s } : Kern (State μ) Unit) :=
  fun _ => (wp_modify _).2 ⟨rfl, rfl, fun _ => rfl, fun _ => rfl, fun _ => rfl, fun _ => rfl⟩

/-- What an inode holds of the disk may change. -/
theorem keeps_content {i : Fin NINODE} (g : Inode → Dinode) (v : Inode → Bool) :
    Keeps (modifyInode i fun x => ⟨g x, x.dev, x.inum, x.ref, x.lock, v x⟩ :
      Kern (State μ) Unit) := by
  intro s
  have hall : ∀ (x : Inode), x.dev = (s.itable i).dev → x.inum = (s.itable i).inum →
      x.ref = (s.itable i).ref → x.lock = (s.itable i).lock → Same s (s.setInode i x) := by
    intro x hd hn hr hl
    refine ⟨rfl, rfl, fun j => ?_, fun j => ?_, fun j => ?_, fun j => ?_⟩ <;>
      · by_cases hj : j = i
        · rw [hj, State.setInode_self]
          assumption
        · rw [State.setInode_of_ne s hj]
  rw [modifyInode, wp_modify]
  exact hall _ rfl rfl rfl rfl

theorem keeps_onMem (k : Kern μ α) : Keeps (onMem k : Kern (State μ) α) := by
  intro s
  have hsame : ∀ m, Same s (s.setMem m) := fun m =>
    ⟨rfl, rfl, fun _ => rfl, fun _ => rfl, fun _ => rfl, fun _ => rfl⟩
  cases hk : k s.mem with
  | ok a m =>
    rw [wp_of_ok (show onMem k s = .ok a (s.setMem m) by rw [onMem, hk])]
    exact hsame m
  | error e m =>
    cases e with
    | panic msg =>
      rw [wp_of_error (show onMem k s = .error (.panic "memory") (s.setMem m) by rw [onMem, hk])]
      exact quiet_panic (by simp) (by simp) (by simp)
    | sleep =>
      rw [wp_of_error (show onMem k s = .error .sleep (s.setMem m) by rw [onMem, hk])]
      exact quiet_sleep
    | diverge =>
      rw [wp_of_error (show onMem k s = .error .diverge (s.setMem m) by rw [onMem, hk])]
      exact quiet_diverge

end Keeps

section Content

variable (sb : Superblock)

theorem keeps_logWrite (b : Nat) (data : Block) :
    Keeps (logWrite sb b data : Kern (State μ) Unit) := by
  intro s
  rw [logWrite, wp_bind, wp_get, wp_ite]
  split
  · exact keeps_panic (by simp) (by simp) (by simp) s
  · rw [wp_ite]
    split
    · exact keeps_panic (by simp) (by simp) (by simp) s
    · rw [wp_set]
      exact ⟨rfl, rfl, fun _ => rfl, fun _ => rfl, fun _ => rfl, fun _ => rfl⟩

theorem keeps_ballocFrom : ∀ k b, Keeps (ballocFrom sb k b : Kern (State μ) Nat)
  | 0, _ => keeps_pure 0
  | k + 1, b => by
    rw [ballocFrom]
    refine Keeps.ite ((keeps_bread _).bind fun data => ?_) (keeps_pure 0)
    cases freeBit sb data b BPB 0 with
    | some bi =>
      exact (keeps_logWrite sb _ _).bind fun _ => (keeps_logWrite sb _ _).bind fun _ =>
        keeps_pure _
    | none => exact keeps_ballocFrom k _

theorem keeps_balloc : Keeps (balloc sb : Kern (State μ) Nat) := keeps_ballocFrom sb _ _

theorem keeps_bfree (b : Nat) : Keeps (bfree sb b : Kern (State μ) Unit) :=
  (keeps_bread _).bind fun _ => Keeps.ite (keeps_logWrite sb _ _)
    (keeps_panic (by simp) (by simp) (by simp))

theorem keeps_iupdate (i : Fin NINODE) : Keeps (iupdate sb i : Kern (State μ) Unit) :=
  (keeps_getInode i).bind fun _ => (keeps_bread _).bind fun _ => keeps_logWrite sb _ _

theorem keeps_addrAt (i : Fin NINODE) (k : Fin (NDIRECT + 1)) :
    Keeps (addrAt sb i k : Kern (State μ) Nat) := by
  refine (keeps_getInode i).bind fun ip => Keeps.ite ?_ (keeps_pure _)
  refine (keeps_balloc sb).bind fun addr => Keeps.ite (keeps_pure 0) ?_
  exact (keeps_content _ _).bind fun _ => keeps_pure _

theorem keeps_bmap (i : Fin NINODE) (bn : Nat) : Keeps (bmap sb i bn : Kern (State μ) Nat) := by
  rw [bmap]
  split
  · exact keeps_addrAt sb i _
  · refine Keeps.ite ?_ (keeps_panic (by simp) (by simp) (by simp))
    refine (keeps_addrAt sb i _).bind fun ind => Keeps.ite (keeps_pure 0) ?_
    refine (keeps_bread _).bind fun a => Keeps.ite ?_ (keeps_pure _)
    refine (keeps_balloc sb).bind fun addr => Keeps.ite (keeps_pure 0) ?_
    exact (keeps_bread _).bind fun _ => (keeps_logWrite sb _ _).bind fun _ => keeps_pure _

theorem keeps_itruncDirect (i : Fin NINODE) :
    ∀ ks, Keeps (itruncDirect sb i ks : Kern (State μ) Unit)
  | [] => keeps_pure ()
  | k :: ks => by
    refine (keeps_getInode i).bind fun ip => Keeps.ite (keeps_itruncDirect i ks) ?_
    refine (keeps_bfree sb _).bind fun _ => ?_
    exact (keeps_content _ _).bind fun _ => keeps_itruncDirect i ks

theorem keeps_itruncIndirect (a : Block) :
    ∀ js, Keeps (itruncIndirect sb a js : Kern (State μ) Unit)
  | [] => keeps_pure ()
  | _ :: js => Keeps.ite (keeps_itruncIndirect a js)
      ((keeps_bfree sb _).bind fun _ => keeps_itruncIndirect a js)

theorem keeps_itrunc (i : Fin NINODE) : Keeps (itrunc sb i : Kern (State μ) Unit) := by
  refine (keeps_itruncDirect sb i _).bind fun _ => (keeps_getInode i).bind fun ip => ?_
  refine Keeps.ite ?_ ?_
  · exact (keeps_content _ _).bind fun _ => keeps_iupdate sb i
  · refine (keeps_bread _).bind fun a => (keeps_itruncIndirect sb a _).bind fun _ => ?_
    refine (keeps_bfree sb _).bind fun _ => ?_
    exact (keeps_content _ _).bind fun _ => keeps_iupdate sb i

theorem keeps_parentLink (g : Nat → Nat) (dp : Fin NINODE) (type : Nat) :
    Keeps (parentLink sb g dp type : Kern (State μ) Unit) :=
  Keeps.ite ((keeps_content _ _).bind fun _ => keeps_iupdate sb dp) (keeps_pure _)

variable (M : Memory μ) (p : Fin NPROC) (i : Fin NINODE)

theorem keeps_eitherCopyout (dst : Dst) (buf : Bytes) (tot : Nat) (src : Bytes) (len : Nat) :
    Keeps (eitherCopyout M p dst buf tot src len) := by
  cases dst with
  | kernel => exact keeps_pure _
  | user va => exact (keeps_onMem _).bind fun _ => keeps_pure _

theorem keeps_readiFrom (dst : Dst) (n : Nat) :
    ∀ k tot off buf, Keeps (readiFrom sb M p i dst n k tot off buf)
  | 0, _, _, _ => keeps_pure _
  | k + 1, tot, off, buf => by
    refine Keeps.ite ((keeps_bmap sb i _).bind fun addr => ?_) (keeps_pure _)
    refine Keeps.ite (keeps_pure _) ((keeps_bread _).bind fun data => ?_)
    refine (keeps_eitherCopyout M p dst _ _ _ _).bind fun r => ?_
    exact Keeps.ite (keeps_pure _) (keeps_readiFrom dst n k _ _ _)

theorem keeps_readi (dst : Dst) (off n : Nat) : Keeps (readi sb M p i dst off n) :=
  (keeps_getInode i).bind fun _ => Keeps.ite (keeps_pure _)
    (Keeps.ite (keeps_readiFrom sb M p i dst _ _ _ _ _) (keeps_readiFrom sb M p i dst _ _ _ _ _))

theorem keeps_eitherCopyin (data : Block) (o : Nat) (src : Src) (tot len : Nat) :
    Keeps (eitherCopyin M p data o src tot len) := by
  cases src with
  | kernel buf => exact keeps_pure _
  | user va => exact (keeps_onMem _).bind fun _ => keeps_pure _

theorem keeps_writeiFrom (src : Src) (n : Nat) :
    ∀ k tot off, Keeps (writeiFrom sb M p i src n k tot off)
  | 0, _, _ => keeps_pure _
  | k + 1, tot, off => by
    refine Keeps.ite ((keeps_bmap sb i _).bind fun addr => ?_) (keeps_pure _)
    refine Keeps.ite (keeps_pure _) ((keeps_bread _).bind fun data => ?_)
    refine (keeps_eitherCopyin M p _ _ src _ _).bind fun r => Keeps.ite ?_ ?_
    · exact (keeps_disk _).bind fun _ => keeps_pure _
    · exact (keeps_logWrite sb _ _).bind fun _ => keeps_writeiFrom src n k _ _

theorem keeps_writei (src : Src) (off n : Nat) : Keeps (writei sb M p i src off n) := by
  refine (keeps_getInode i).bind fun _ => Keeps.ite (keeps_pure _) (Keeps.ite (keeps_pure _) ?_)
  refine (keeps_writeiFrom sb M p i src n _ _ _).bind fun tot => ?_
  exact (keeps_content _ _).bind fun _ =>
    (keeps_iupdate sb i).bind fun _ => keeps_pure _

end Content

/-! ## The account -/

/-- How many inodes have uses. -/
def used (U : Fin NINODE → Nat) : Nat := (Finset.univ.filter fun i => 0 < U i).card

/-- The account of the process `p`, in a call; `U` counts the references from files and current
directories. -/
structure Bal (p : Fin NPROC) (T : Tables) (U : Fin NINODE → Nat) (o : Int)
    (own lk : List (Fin NINODE)) (s : State μ) : Prop where
  tables : s.tables = T
  outstanding : s.outstanding = o
  unique : ∀ i j, 0 < (s.itable i).ref → 0 < (s.itable j).ref →
    (s.itable i).dev = (s.itable j).dev → (s.itable i).inum = (s.itable j).inum → i = j
  ref : ∀ i, (s.itable i).ref = (U i + own.count i : Nat)
  lock : ∀ i, (s.itable i).lock = if i ∈ lk then some p else none
  nodup : lk.Nodup

/-- The table of inodes has room for one more beside those in use and `n` others, or it need not
have. -/
def Room (E : Halt → Prop) (U : Fin NINODE → Nat) (n : Nat) : Prop :=
  E (.panic "iget: no inodes") ∨ used U + n < NINODE

theorem Room.mono {E : Halt → Prop} {U : Fin NINODE → Nat} {n m : Nat} (h : Room E U n) (hm : m ≤ n) :
    Room E U m := h.imp_right fun h => by omega

section Rules

variable {p : Fin NPROC} {T : Tables} {U : Fin NINODE → Nat} {o : Int}
variable {own lk : List (Fin NINODE)} {s s' : State μ} {E : Halt → Prop} {i j : Fin NINODE}

theorem Bal.same (h : Bal p T U o own lk s) (hs : Same s s') : Bal p T U o own lk s' := by
  refine ⟨hs.tables.trans h.tables, hs.outstanding.trans h.outstanding, fun i j => ?_, fun i => ?_,
    fun i => ?_, h.nodup⟩
  · rw [hs.ref i, hs.ref j, hs.dev i, hs.dev j, hs.inum i, hs.inum j]
    exact h.unique i j
  · rw [hs.ref i, h.ref i]
  · rw [hs.lock i, h.lock i]

/-- The order of what a call holds does not matter. -/
theorem Bal.perm (h : Bal p T U o own lk s) {own' lk' : List (Fin NINODE)} (ho : own.Perm own')
    (hl : lk.Perm lk') : Bal p T U o own' lk' s := by
  refine ⟨h.tables, h.outstanding, h.unique, fun i => ?_, fun i => ?_, hl.nodup_iff.1 h.nodup⟩
  · rw [h.ref i, ho.count_eq]
  · rw [h.lock i]
    exact if_congr hl.mem_iff rfl rfl

variable (hE : ∀ e, Quiet e → E e)
include hE

/-- Code that changes no account. -/
theorem Keeps.bal {m : Kern (State μ) α} (hk : Keeps m) (h : Bal p T U o own lk s) :
    wp m (fun _ s' => Bal p T U o own lk s') (fun e _ => E e) s :=
  wp_mono (hk s) (fun _ _ hs => h.same hs) fun e _ he => hE e he

/-- The same, before more code. -/
theorem Keeps.then {m : Kern (State μ) α} (hk : Keeps m) (h : Bal p T U o own lk s)
    {f : α → Kern (State μ) β} {Q : β → State μ → Prop}
    (hf : ∀ a s', Bal p T U o own lk s' → wp (f a) Q (fun e _ => E e) s') :
    wp (m >>= f) Q (fun e _ => E e) s :=
  wp_seq (hk.bal hE h) hf

theorem Bal.beginOp (h : Bal p T U o own lk s) :
    wp Fs.beginOp (fun _ s' => Bal p T U (o + 1) own lk s') (fun e _ => E e) s := by
  rw [Fs.beginOp, wp_bind, wp_get, wp_ite]
  split
  · rw [wp_sleep]
    exact hE _ quiet_sleep
  · rw [wp_set]
    exact ⟨h.tables, congrArg (· + 1) h.outstanding, h.unique, h.ref, h.lock, h.nodup⟩

omit hE in
theorem Bal.endOp (h : Bal p T U (o + 1) own lk s) :
    wp Fs.endOp (fun _ s' => Bal p T U o own lk s') (fun e _ => E e) s := by
  have ho : s.outstanding - 1 = o := by
    rw [h.outstanding]
    exact Int.add_sub_cancel o 1
  rw [Fs.endOp, wp_modify]
  split
  · exact ⟨h.tables, ho, h.unique, h.ref, h.lock, h.nodup⟩
  · exact ⟨h.tables, ho, h.unique, h.ref, h.lock, h.nodup⟩

omit hE in
/-- One reference more, to an inode that had some. -/
theorem Bal.take (h : Bal p T U o own lk s) {x : Inode} (hpos : 0 < (s.itable i).ref)
    (hd : x.dev = (s.itable i).dev) (hn : x.inum = (s.itable i).inum)
    (hr : x.ref = (s.itable i).ref + 1) (hl : x.lock = (s.itable i).lock) :
    Bal p T U o (i :: own) lk (s.setInode i x) := by
  have hkey : ∀ j, 0 < ((s.setInode i x).itable j).ref → 0 < (s.itable j).ref ∧
      ((s.setInode i x).itable j).dev = (s.itable j).dev ∧
      ((s.setInode i x).itable j).inum = (s.itable j).inum := by
    intro j
    by_cases hj : j = i
    · rw [hj, State.setInode_self]
      exact fun _ => ⟨hpos, hd, hn⟩
    · rw [State.setInode_of_ne s hj]
      exact fun h => ⟨h, rfl, rfl⟩
  refine ⟨h.tables, h.outstanding, fun j k hj hk => ?_, fun j => ?_, fun j => ?_, h.nodup⟩
  · rw [(hkey j hj).2.1, (hkey k hk).2.1, (hkey j hj).2.2, (hkey k hk).2.2]
    exact h.unique j k (hkey j hj).1 (hkey k hk).1
  · by_cases hj : j = i
    · rw [hj, State.setInode_self, hr, h.ref i, List.count_cons_self]
      omega
    · rw [State.setInode_of_ne s hj, h.ref j, List.count_cons_of_ne (Ne.symm hj)]
  · by_cases hj : j = i
    · rw [hj, State.setInode_self, hl, h.lock i]
    · rw [State.setInode_of_ne s hj, h.lock j]

omit hE in
/-- The first reference to an inode that is not in the table. -/
theorem Bal.recycle (h : Bal p T U o own lk s) {x : Inode} (h0 : (s.itable i).ref = 0)
    (hnew : ∀ j, ¬ (0 < (s.itable j).ref ∧ (s.itable j).dev = x.dev ∧ (s.itable j).inum = x.inum))
    (hr : x.ref = 1) (hl : x.lock = (s.itable i).lock) :
    Bal p T U o (i :: own) lk (s.setInode i x) := by
  refine ⟨h.tables, h.outstanding, fun j k => ?_, fun j => ?_, fun j => ?_, h.nodup⟩
  · by_cases hj : j = i
    · by_cases hk : k = i
      · exact fun _ _ _ _ => hj.trans hk.symm
      · rw [hj, State.setInode_self, State.setInode_of_ne s hk]
        exact fun _ h2 h3 h4 => absurd ⟨h2, h3.symm, h4.symm⟩ (hnew k)
    · rw [State.setInode_of_ne s hj]
      by_cases hk : k = i
      · rw [hk, State.setInode_self]
        exact fun h1 _ h3 h4 => absurd ⟨h1, h3, h4⟩ (hnew j)
      · rw [State.setInode_of_ne s hk]
        exact h.unique j k
  · by_cases hj : j = i
    · have := h.ref i
      rw [hj, State.setInode_self, hr, List.count_cons_self]
      omega
    · rw [State.setInode_of_ne s hj, h.ref j, List.count_cons_of_ne (Ne.symm hj)]
  · by_cases hj : j = i
    · rw [hj, State.setInode_self, hl, h.lock i]
    · rw [State.setInode_of_ne s hj, h.lock j]

omit hE in
/-- A table that refers to few inodes has an entry to spare. -/
theorem Bal.exists_free (h : Bal p T U o own lk s) (hlt : used U + own.length < NINODE) :
    ∃ i, (s.itable i).ref = 0 := by
  by_contra hno
  have hsub : (Finset.univ : Finset (Fin NINODE)) ⊆
      (Finset.univ.filter fun i => 0 < U i) ∪ own.toFinset := by
    intro i _
    rw [Finset.mem_union, Finset.mem_filter, List.mem_toFinset]
    by_contra hi
    rw [not_or] at hi
    have hu : U i = 0 := by
      by_contra hu
      exact hi.1 ⟨Finset.mem_univ i, Nat.pos_of_ne_zero hu⟩
    have hc : own.count i = 0 := List.count_eq_zero.2 hi.2
    exact hno ⟨i, by rw [h.ref i, hu, hc]; rfl⟩
  have hcard := (Finset.card_le_card hsub).trans (Finset.card_union_le _ _)
  rw [Finset.card_univ, Fintype.card_fin] at hcard
  have hlen := own.toFinset_card_le
  have hused : used U = (Finset.univ.filter fun i => 0 < U i).card := rfl
  omega

omit hE in
theorem Bal.iget (h : Bal p T U o own lk s) (hroom : Room E U own.length) (dev inum : Nat) :
    wp (Fs.iget dev inum) (fun i s' => Bal p T U o (i :: own) lk s') (fun e _ => E e) s := by
  rw [Fs.iget, wp_bind, wp_get]
  split
  · next i hi =>
    have hp := List.find?_some hi
    simp only [decide_eq_true_eq] at hp
    rw [wp_bind, wp_set, wp_pure]
    exact h.take hp.1 rfl rfl rfl rfl
  · next hno =>
    split
    · next i hi =>
      have hp := List.find?_some hi
      simp only [decide_eq_true_eq] at hp
      rw [wp_bind, wp_set, wp_pure]
      refine h.recycle hp (fun j hj => ?_) rfl rfl
      have := List.find?_eq_none.1 hno j (List.mem_finRange j)
      simp only [decide_eq_true_eq] at this
      exact this hj
    · next hfull =>
      rw [wp_panic]
      refine hroom.elim id fun hlt => ?_
      obtain ⟨i, hi⟩ := h.exists_free hlt
      have := List.find?_eq_none.1 hfull i (List.mem_finRange i)
      simp only [decide_eq_true_eq] at this
      exact absurd hi this

omit hE in
theorem Bal.idup (h : Bal p T U o own lk s) (hu : 0 < U i) :
    wp (Fs.idup i) (fun _ s' => Bal p T U o (i :: own) lk s') (fun e _ => E e) s := by
  rw [Fs.idup, modifyInode, wp_modify]
  refine h.take ?_ rfl rfl rfl rfl
  rw [h.ref i]
  omega

omit hE in
/-- A reference is dropped. -/
theorem Bal.drop (h : Bal p T U o (i :: own) lk s) :
    wp (modifyInode i fun ip => { ip with ref := ip.ref - 1 })
      (fun _ s' => Bal p T U o own lk s') (fun e _ => E e) s := by
  rw [modifyInode, wp_modify]
  have hkey : ∀ j, ((s.setInode i { s.itable i with ref := (s.itable i).ref - 1 }).itable j).ref ≤
      (s.itable j).ref ∧
      ((s.setInode i { s.itable i with ref := (s.itable i).ref - 1 }).itable j).dev =
        (s.itable j).dev ∧
      ((s.setInode i { s.itable i with ref := (s.itable i).ref - 1 }).itable j).inum =
        (s.itable j).inum ∧
      ((s.setInode i { s.itable i with ref := (s.itable i).ref - 1 }).itable j).lock =
        (s.itable j).lock := by
    intro j
    by_cases hj : j = i
    · rw [hj, State.setInode_self]
      exact ⟨Int.sub_le_self _ (by decide), rfl, rfl, rfl⟩
    · rw [State.setInode_of_ne s hj]
      exact ⟨Int.le_refl _, rfl, rfl, rfl⟩
  refine ⟨h.tables, h.outstanding, fun j k hj hk => ?_, fun j => ?_, fun j => ?_, h.nodup⟩
  · rw [(hkey j).2.1, (hkey k).2.1, (hkey j).2.2.1, (hkey k).2.2.1]
    exact h.unique j k (Int.lt_of_lt_of_le hj (hkey j).1) (Int.lt_of_lt_of_le hk (hkey k).1)
  · by_cases hj : j = i
    · have := h.ref i
      rw [List.count_cons_self] at this
      rw [hj, State.setInode_self]
      show (s.itable i).ref - 1 = _
      omega
    · rw [State.setInode_of_ne s hj, h.ref j, List.count_cons_of_ne (Ne.symm hj)]
  · rw [(hkey j).2.2.2, h.lock j]

theorem Bal.acquiresleep (h : Bal p T U o own lk s) (i : Fin NINODE) :
    wp (Fs.acquiresleep p i) (fun _ s' => Bal p T U o own (i :: lk) s') (fun e _ => E e) s := by
  rw [Fs.acquiresleep, wp_bind, getInode, wp_bind, wp_get, wp_pure, wp_ite]
  split
  · rw [wp_sleep]
    exact hE _ quiet_sleep
  · next hfree =>
    have hi : i ∉ lk := fun hi => hfree (by rw [h.lock i, if_pos hi]; rfl)
    rw [modifyInode, wp_modify]
    refine ⟨h.tables, h.outstanding, fun j k => ?_, fun j => ?_, fun j => ?_,
      List.nodup_cons.2 ⟨hi, h.nodup⟩⟩
    · have hkey : ∀ j, ((s.setInode i { s.itable i with lock := some p }).itable j).ref =
          (s.itable j).ref ∧
          ((s.setInode i { s.itable i with lock := some p }).itable j).dev = (s.itable j).dev ∧
          ((s.setInode i { s.itable i with lock := some p }).itable j).inum =
            (s.itable j).inum := by
        intro j
        by_cases hj : j = i
        · rw [hj, State.setInode_self]
          exact ⟨rfl, rfl, rfl⟩
        · rw [State.setInode_of_ne s hj]
          exact ⟨rfl, rfl, rfl⟩
      rw [(hkey j).1, (hkey k).1, (hkey j).2.1, (hkey k).2.1, (hkey j).2.2, (hkey k).2.2]
      exact h.unique j k
    · by_cases hj : j = i
      · rw [hj, State.setInode_self]
        exact h.ref i
      · rw [State.setInode_of_ne s hj]
        exact h.ref j
    · by_cases hj : j = i
      · rw [hj, State.setInode_self, if_pos List.mem_cons_self]
      · rw [State.setInode_of_ne s hj, h.lock j]
        exact if_congr (by rw [List.mem_cons, or_iff_right hj]) rfl rfl

omit hE in
theorem Bal.releasesleep (h : Bal p T U o own (i :: lk) s) :
    wp (Fs.releasesleep i) (fun _ s' => Bal p T U o own lk s') (fun e _ => E e) s := by
  obtain ⟨hi, hnd⟩ := List.nodup_cons.1 h.nodup
  rw [Fs.releasesleep, modifyInode, wp_modify]
  have hkey : ∀ j, ((s.setInode i { s.itable i with lock := none }).itable j).ref =
      (s.itable j).ref ∧
      ((s.setInode i { s.itable i with lock := none }).itable j).dev = (s.itable j).dev ∧
      ((s.setInode i { s.itable i with lock := none }).itable j).inum = (s.itable j).inum := by
    intro j
    by_cases hj : j = i
    · rw [hj, State.setInode_self]
      exact ⟨rfl, rfl, rfl⟩
    · rw [State.setInode_of_ne s hj]
      exact ⟨rfl, rfl, rfl⟩
  refine ⟨h.tables, h.outstanding, fun j k => ?_, fun j => ?_, fun j => ?_, hnd⟩
  · rw [(hkey j).1, (hkey k).1, (hkey j).2.1, (hkey k).2.1, (hkey j).2.2, (hkey k).2.2]
    exact h.unique j k
  · rw [(hkey j).1, h.ref j]
  · by_cases hj : j = i
    · rw [hj, State.setInode_self, if_neg hi]
    · rw [State.setInode_of_ne s hj, h.lock j]
      exact if_congr (by rw [List.mem_cons, or_iff_right hj]) rfl rfl

theorem Bal.ilock (sb : Superblock) (h : Bal p T U o own lk s) (i : Fin NINODE) :
    wp (Fs.ilock sb p i) (fun _ s' => Bal p T U o own (i :: lk) s') (fun e _ => E e) s := by
  refine (keeps_getInode i).then hE h fun ip s₁ h₁ => ?_
  rw [wp_ite]
  split
  · rw [wp_panic]
    exact hE _ (quiet_panic (by simp) (by simp) (by simp))
  · refine wp_seq (h₁.acquiresleep hE i) fun _ s₂ h₂ => ?_
    rw [wp_ite]
    split
    · exact (wp_pure _).2 h₂
    · refine (keeps_bread _).then hE h₂ fun data s₃ h₃ => ?_
      refine (keeps_content _ _).then hE h₃ fun _ s₄ h₄ => ?_
      exact (Keeps.ite (keeps_panic (by simp) (by simp) (by simp)) (keeps_pure _)).bal hE h₄

theorem Bal.iunlock (h : Bal p T U o own (i :: lk) s) :
    wp (Fs.iunlock p i) (fun _ s' => Bal p T U o own lk s') (fun e _ => E e) s := by
  refine (keeps_getInode i).then hE h fun ip s₁ h₁ => ?_
  rw [wp_ite]
  split
  · rw [wp_panic]
    exact hE _ (quiet_panic (by simp) (by simp) (by simp))
  · exact h₁.releasesleep

theorem Bal.iput (sb : Superblock) (h : Bal p T U o (i :: own) lk s) :
    wp (Fs.iput sb p i) (fun _ s' => Bal p T U o own lk s') (fun e _ => E e) s := by
  refine (keeps_getInode i).then hE h fun ip s₁ h₁ => ?_
  rw [wp_ite]
  split
  · refine wp_seq (h₁.acquiresleep hE i) fun _ s₂ h₂ => ?_
    refine (keeps_itrunc sb i).then hE h₂ fun _ s₃ h₃ => ?_
    refine (keeps_content _ _).then hE h₃ fun _ s₄ h₄ => ?_
    refine (keeps_iupdate sb i).then hE h₄ fun _ s₅ h₅ => ?_
    refine (keeps_content _ _).then hE h₅ fun _ s₆ h₆ => ?_
    exact wp_seq h₆.releasesleep fun _ s₇ h₇ => h₇.drop
  · exact h₁.drop

theorem Bal.iunlockput (sb : Superblock) (h : Bal p T U o (i :: own) (i :: lk) s) :
    wp (Fs.iunlockput sb p i) (fun _ s' => Bal p T U o own lk s') (fun e _ => E e) s :=
  wp_seq (h.iunlock hE) fun _ _ h₁ => h₁.iput hE sb

/-- What a function that may return an inode leaves: a reference to it, if it does. -/
def Found (p : Fin NPROC) (T : Tables) (U : Fin NINODE → Nat) (o : Int) (own lk : List (Fin NINODE)) :
    Option (Fin NINODE) → State μ → Prop
  | none, s => Bal p T U o own lk s
  | some i, s => Bal p T U o (i :: own) lk s

variable (sb : Superblock)

theorem Bal.iallocFrom (hroom : Room E U own.length) (dev type : Nat) :
    ∀ (k inum : Nat) {s : State μ}, Bal p T U o own lk s →
      wp (Fs.iallocFrom sb dev type k inum) (Found p T U o own lk) (fun e _ => E e) s
  | 0, _, _, h => (wp_pure _).2 h
  | k + 1, inum, s, h => by
    refine (keeps_bread _).then hE h fun data s₁ h₁ => ?_
    rw [wp_ite]
    split
    · refine (keeps_logWrite sb _ _).then hE h₁ fun _ s₂ h₂ => ?_
      exact wp_seq (h₂.iget hroom dev inum) fun i s₃ h₃ => (wp_pure _).2 h₃
    · exact Bal.iallocFrom hroom dev type k (inum + 1) h₁

theorem Bal.ialloc (h : Bal p T U o own lk s) (hroom : Room E U own.length) (dev type : Nat) :
    wp (Fs.ialloc sb dev type) (Found p T U o own lk) (fun e _ => E e) s :=
  Bal.iallocFrom hE sb hroom dev type _ _ h

/-! ## Directories and paths -/

variable (M : Memory μ)

theorem Bal.dirlookupFrom (hroom : Room E U own.length) (dp : Fin NINODE) (name : List UInt8) :
    ∀ (k off : Nat) {s : State μ}, Bal p T U o own lk s →
      wp (Fs.dirlookupFrom sb M p dp name k off)
        (fun r => Found p T U o own lk (r.map Prod.fst)) (fun e _ => E e) s
  | 0, _, _, h => (wp_pure _).2 h
  | k + 1, off, s, h => by
    refine (keeps_readi sb M p dp _ _ _).then hE h fun r s₁ h₁ => ?_
    rw [wp_ite]
    split
    · rw [wp_panic]
      exact hE _ (quiet_panic (by simp) (by simp) (by simp))
    · rw [wp_ite]
      split
      · exact Bal.dirlookupFrom hroom dp name k _ h₁
      · rw [wp_ite]
        split
        · refine (keeps_getInode dp).then hE h₁ fun ip s₂ h₂ => ?_
          exact wp_seq (h₂.iget hroom _ _) fun i s₃ h₃ => (wp_pure _).2 h₃
        · exact Bal.dirlookupFrom hroom dp name k _ h₁

theorem Bal.dirlookup (h : Bal p T U o own lk s) (hroom : Room E U own.length) (dp : Fin NINODE)
    (name : List UInt8) :
    wp (Fs.dirlookup sb M p dp name) (fun r => Found p T U o own lk (r.map Prod.fst))
      (fun e _ => E e) s := by
  refine (keeps_getInode dp).then hE h fun ip s₁ h₁ => ?_
  rw [wp_ite]
  split
  · rw [wp_panic]
    exact hE _ (quiet_panic (by simp) (by simp) (by simp))
  · exact Bal.dirlookupFrom hE sb M hroom dp name _ _ h₁

omit hE in
theorem keeps_emptyDirent (dp : Fin NINODE) :
    ∀ k off, Keeps (emptyDirent sb M p dp k off)
  | 0, _ => keeps_pure _
  | k + 1, off => (keeps_readi sb M p dp _ _ _).bind fun _ =>
      Keeps.ite (keeps_panic (by simp) (by simp) (by simp))
        (Keeps.ite (keeps_pure _) (keeps_emptyDirent dp k _))

theorem Bal.dirlink (h : Bal p T U o own lk s) (hroom : Room E U own.length) (dp : Fin NINODE)
    (name : List UInt8) (inum : Nat) :
    wp (Fs.dirlink sb M p dp name inum) (fun _ s' => Bal p T U o own lk s') (fun e _ => E e) s := by
  refine wp_seq (h.dirlookup hE sb M hroom dp name) fun r s₁ h₁ => ?_
  cases r with
  | some x => exact wp_seq (Bal.iput hE sb h₁) fun _ s₂ h₂ => (wp_pure _).2 h₂
  | none =>
    refine (keeps_getInode dp).then hE h₁ fun ip s₂ h₂ => ?_
    refine (keeps_emptyDirent sb M dp _ _).then hE h₂ fun off s₃ h₃ => ?_
    refine (keeps_writei sb M p dp _ _ _).then hE h₃ fun r s₄ h₄ => ?_
    exact (Keeps.ite (keeps_pure _) (keeps_pure _)).bal hE h₄

theorem Bal.namexFrom (hroom : Room E U (own.length + 1)) (parent : Bool) :
    ∀ (k : Nat) (i : Fin NINODE) (path : List UInt8) {s : State μ}, Bal p T U o (i :: own) lk s →
      wp (Fs.namexFrom sb M p parent k i path) (fun r => Found p T U o own lk (r.map Prod.fst))
        (fun e _ => E e) s
  | 0, _, _, _, _ => by
    rw [Fs.namexFrom, wp_diverge]
    exact hE _ quiet_diverge
  | k + 1, i, path, s, h => by
    rw [Fs.namexFrom]
    split
    · rw [wp_ite]
      split
      · exact wp_seq (h.iput hE sb) fun _ s₁ h₁ => (wp_pure _).2 h₁
      · exact (wp_pure _).2 h
    · next name rest _ =>
      refine wp_seq (h.ilock hE sb i) fun _ s₁ h₁ => ?_
      refine (keeps_getInode i).then hE h₁ fun ip s₂ h₂ => ?_
      rw [wp_ite]
      split
      · exact wp_seq (h₂.iunlockput hE sb) fun _ s₃ h₃ => (wp_pure _).2 h₃
      · rw [wp_ite]
        split
        · exact wp_seq (h₂.iunlock hE) fun _ s₃ h₃ => (wp_pure _).2 h₃
        · refine wp_seq (h₂.dirlookup hE sb M hroom i name) fun r s₃ h₃ => ?_
          cases r with
          | none => exact wp_seq (Bal.iunlockput hE sb h₃) fun _ s₄ h₄ => (wp_pure _).2 h₄
          | some x =>
            have h₃' := Bal.perm h₃ (List.Perm.swap _ _ _) (.refl _)
            exact wp_seq (h₃'.iunlockput hE sb) fun _ s₄ h₄ =>
              Bal.namexFrom hroom parent k x.1 rest h₄

theorem Bal.deref (h : Bal p T U o own lk s) (r : Option (Fin NINODE)) :
    wp (Fs.deref r) (fun i s' => r = some i ∧ Bal p T U o own lk s') (fun e _ => E e) s := by
  cases r with
  | some i => exact (wp_pure _).2 ⟨rfl, h⟩
  | none =>
    rw [Fs.deref, wp_panic]
    exact hE _ (quiet_panic (by simp) (by simp) (by simp))

/-- The current directory of `p` is in use. -/
def Stands (p : Fin NPROC) (T : Tables) (U : Fin NINODE → Nat) : Prop :=
  ∀ i, (T.proc p).cwd = some i → 0 < U i

theorem Bal.namex (h : Bal p T U o own lk s) (hcwd : Stands p T U)
    (hroom : Room E U (own.length + 1)) (path : List UInt8) (parent : Bool) :
    wp (Fs.namex sb M p path parent) (fun r => Found p T U o own lk (r.map Prod.fst))
      (fun e _ => E e) s := by
  rw [Fs.namex, wp_ite]
  split
  · exact wp_seq (h.iget (hroom.mono (Nat.le_succ _)) _ _) fun i s₁ h₁ =>
      Bal.namexFrom hE sb M hroom parent _ i path h₁
  · rw [wp_bind, wp_get]
    refine wp_seq (h.deref hE _) fun i s₁ h₁ => ?_
    have hu : 0 < U i := hcwd i (by rw [← h.tables]; exact h₁.1)
    exact wp_seq (h₁.2.idup hu) fun _ s₂ h₂ => Bal.namexFrom hE sb M hroom parent _ i path h₂

theorem Bal.namei (h : Bal p T U o own lk s) (hcwd : Stands p T U)
    (hroom : Room E U (own.length + 1)) (path : List UInt8) :
    wp (Fs.namei sb M p path) (Found p T U o own lk) (fun e _ => E e) s :=
  wp_seq (h.namex hE sb M hcwd hroom path false) fun _ _ h₁ => (wp_pure _).2 h₁

theorem Bal.nameiparent (h : Bal p T U o own lk s) (hcwd : Stands p T U)
    (hroom : Room E U (own.length + 1)) (path : List UInt8) :
    wp (Fs.nameiparent sb M p path) (fun r => Found p T U o own lk (r.map Prod.fst))
      (fun e _ => E e) s :=
  h.namex hE sb M hcwd hroom path true

/-! ## New inodes -/

/-- What `create` leaves: a reference to the inode and its lock, if it returns one. -/
def Created (p : Fin NPROC) (T : Tables) (U : Fin NINODE → Nat) (o : Int) (own lk : List (Fin NINODE)) :
    Option (Fin NINODE) → State μ → Prop
  | none, s => Bal p T U o own lk s
  | some i, s => Bal p T U o (i :: own) (i :: lk) s

theorem Bal.createFail {dp ip : Fin NINODE}
    (h : Bal p T U o (ip :: dp :: own) (ip :: dp :: lk) s) :
    wp (Fs.createFail sb p dp ip) (Created p T U o own lk) (fun e _ => E e) s := by
  refine (keeps_content _ _).then hE h fun _ s₁ h₁ => ?_
  refine (keeps_iupdate sb ip).then hE h₁ fun _ s₂ h₂ => ?_
  refine wp_seq (h₂.iunlockput hE sb) fun _ s₃ h₃ => ?_
  exact wp_seq (h₃.iunlockput hE sb) fun _ s₄ h₄ => (wp_pure _).2 h₄

theorem Bal.createEntry {dp ip : Fin NINODE} (h : Bal p T U o (ip :: dp :: own) (ip :: dp :: lk) s)
    (hroom : Room E U (own.length + 2)) (name : List UInt8) (type : Nat) :
    wp (Fs.createEntry sb M p dp ip name type) (Created p T U o own lk) (fun e _ => E e) s := by
  refine (keeps_getInode ip).then hE h fun x s₁ h₁ => ?_
  refine wp_seq (h₁.dirlink hE sb M hroom dp name x.inum) fun r s₂ h₂ => ?_
  rw [wp_ite]
  split
  · exact h₂.createFail hE sb
  · refine (keeps_parentLink sb _ dp type).then hE h₂ fun _ s₃ h₃ => ?_
    have h₃' := h₃.perm (List.Perm.swap _ _ _) (List.Perm.swap _ _ _)
    exact wp_seq (h₃'.iunlockput hE sb) fun _ s₄ h₄ => (wp_pure _).2 h₄

theorem Bal.create (h : Bal p T U o own lk s) (hcwd : Stands p T U)
    (hroom : Room E U (own.length + 2)) (path : List UInt8) (type major minor : Nat) :
    wp (Fs.create sb M p path type major minor) (Created p T U o own lk) (fun e _ => E e) s := by
  have hroom1 : Room E U (own.length + 1) := hroom.mono (Nat.le_succ _)
  refine wp_seq (h.nameiparent hE sb M hcwd hroom1 path) fun r s₁ h₁ => ?_
  cases r with
  | none => exact (wp_pure _).2 h₁
  | some x =>
    obtain ⟨dp, name⟩ := x
    refine wp_seq (Bal.ilock hE sb h₁ dp) fun _ s₂ h₂ => ?_
    refine wp_seq (h₂.dirlookup hE sb M hroom1 dp name) fun r s₃ h₃ => ?_
    cases r with
    | some x =>
      obtain ⟨ip, off⟩ := x
      have h₃' := Bal.perm h₃ (List.Perm.swap _ _ _) (.refl _)
      refine wp_seq (h₃'.iunlockput hE sb) fun _ s₄ h₄ => ?_
      refine wp_seq (h₄.ilock hE sb ip) fun _ s₅ h₅ => ?_
      refine (keeps_getInode ip).then hE h₅ fun x s₆ h₆ => ?_
      rw [wp_ite]
      split
      · exact (wp_pure _).2 h₆
      · exact wp_seq (h₆.iunlockput hE sb) fun _ s₇ h₇ => (wp_pure _).2 h₇
    | none =>
      refine (keeps_getInode dp).then hE h₃ fun d s₄ h₄ => ?_
      refine wp_seq (h₄.ialloc hE sb hroom1 d.dev type) fun r s₅ h₅ => ?_
      cases r with
      | none => exact wp_seq (Bal.iunlockput hE sb h₅) fun _ s₆ h₆ => (wp_pure _).2 h₆
      | some ip =>
        refine wp_seq (Bal.ilock hE sb h₅ ip) fun _ s₆ h₆ => ?_
        refine (keeps_content _ _).then hE h₆ fun _ s₇ h₇ => ?_
        refine (keeps_iupdate sb ip).then hE h₇ fun _ s₈ h₈ => ?_
        rw [wp_ite]
        split
        · refine (keeps_getInode ip).then hE h₈ fun x s₉ h₉ => ?_
          refine wp_seq (h₉.dirlink hE sb M hroom ip dot x.inum) fun r s₁₀ h₁₀ => ?_
          rw [wp_ite]
          split
          · exact h₁₀.createFail hE sb
          · refine wp_seq (h₁₀.dirlink hE sb M hroom ip dotdot d.inum) fun r s₁₁ h₁₁ => ?_
            rw [wp_ite]
            split
            · exact h₁₁.createFail hE sb
            · exact h₁₁.createEntry hE sb M hroom name type
        · exact h₈.createEntry hE sb M hroom name type

end Rules

end Xv6.Fs
