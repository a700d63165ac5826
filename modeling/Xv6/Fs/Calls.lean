import Xv6.Fs.Files

/-!
# File system calls are balanced

Every call of `kernel/sysfile.c`, and `fork` and `exit`, gives back what it took, on every path on
which it returns: `Done` after the call what was `Done` before it.  From this the reference counts
of inodes and of files are exact in every state between calls.
-/

set_option autoImplicit false

namespace Xv6.Fs

open Monitor (total total_update total_eq_zero)

variable {μ : Type} {p q : Fin NPROC} {T : Tables} {U : Fin NINODE → Nat} {o : Int}
variable {own lk : List (Fin NINODE)} {s s' : State μ} {E : Halt → Prop} {i : Fin NINODE}
variable {f : Fin NFILE} {held fresh : List (Fin NFILE)}

/-! ## Tables -/

/-- The tables change, and references move between them and the call. -/
theorem Bal.retable (h : Bal p T U o own lk s) {T' : Tables} {U' : Fin NINODE → Nat}
    {own' : List (Fin NINODE)} (ht : s'.tables = T') (hi : s'.itable = s.itable)
    (ho : s'.outstanding = s.outstanding)
    (hu : ∀ i, U' i + own'.count i = U i + own.count i) : Bal p T' U' o own' lk s' := by
  refine ⟨ht, ho.trans h.outstanding, ?_, fun i => ?_, fun i => ?_, h.nodup⟩
  · rw [hi]
    exact h.unique
  · rw [hi, h.ref i, hu i]
  · rw [hi, h.lock i]

theorem Bal.file (h : Bal p T U o own lk s) : s.file = T.file := congrArg Tables.file h.tables

theorem Bal.proc (h : Bal p T U o own lk s) : s.proc = T.proc := congrArg Tables.proc h.tables

/-- A reference in the tables is taken over by the call, or given up to them. -/
theorem Bal.move (h : Bal p T U o own lk s) {U' : Fin NINODE → Nat} {own' : List (Fin NINODE)}
    (hu : ∀ i, U' i + own'.count i = U i + own.count i) : Bal p T U' o own' lk s :=
  h.retable h.tables rfl rfl hu

theorem Bal.modifyFile (h : Bal p T U o own lk s) (f : Fin NFILE) (g : File → File)
    {U' : Fin NINODE → Nat} {own' : List (Fin NINODE)}
    (hu : ∀ i, U' i + own'.count i = U i + own.count i) :
    wp (Fs.modifyFile f g) (fun _ s' => Bal p (T.setFile f (g (T.file f))) U' o own' lk s')
      (fun e _ => E e) s := by
  rw [Fs.modifyFile, wp_modify]
  refine h.retable ?_ rfl rfl hu
  rw [← h.tables]
  rfl

theorem Bal.modifyProc (h : Bal p T U o own lk s) (q : Fin NPROC) (g : Proc → Proc)
    {U' : Fin NINODE → Nat} {own' : List (Fin NINODE)}
    (hu : ∀ i, U' i + own'.count i = U i + own.count i) :
    wp (Fs.modifyProc q g) (fun _ s' => Bal p (T.setProc q (g (T.proc q))) U' o own' lk s')
      (fun e _ => E e) s := by
  rw [Fs.modifyProc, wp_modify]
  refine h.retable ?_ rfl rfl hu
  rw [← h.tables]
  rfl

theorem Bal.record (h : Bal p T U o own lk s) (f : Fin NFILE) (b : Bool) (ob : Obj) :
    wp (Fs.record f b ob) (fun _ s' => Bal p (T.record f b ob) U o own lk s')
      (fun e _ => E e) s := by
  rw [Fs.record, wp_modify]
  refine h.retable ?_ rfl rfl fun _ => rfl
  rw [← h.tables]
  rfl

theorem Bal.setFd (h : Bal p T T.uses o own lk s) (q : Fin NPROC) (fd : Fin NOFILE)
    (d : Option (Fin NFILE)) :
    wp (Fs.modifyProc q fun x => { x with ofile := Function.update x.ofile fd d })
      (fun _ s' => Bal p (T.setFd q fd d) (T.setFd q fd d).uses o own lk s')
      (fun e _ => E e) s :=
  h.modifyProc q _ fun i => by rw [T.uses_setFd]

/-! ## `file.c` -/

theorem Bal.filealloc (h : Bal p T T.uses o own lk s) (hf : Files T held fresh) :
    wp Fs.filealloc (fun r s' => match r with
      | none => Bal p T T.uses o own lk s'
      | some f => (T.file f).ref = 0 ∧ Bal p (T.alloc f) (T.alloc f).uses o own lk s')
      (fun e _ => E e) s := by
  rw [Fs.filealloc, wp_bind, wp_get]
  split
  · exact (wp_pure _).2 h
  · next f hfind =>
    have h0 := List.find?_some hfind
    simp only [decide_eq_true_eq] at h0
    rw [h.file] at h0
    have ht := hf.closed f h0
    have hu : (T.alloc f).uses = T.uses :=
      T.uses_setFile_same f fun i => by
        rw [points_of_none ht i]
        refine points_of_none ?_ i
        exact ht
    refine wp_seq (h.modifyFile f _ fun i => rfl) fun _ s₁ h₁ => (wp_pure _).2 ⟨h0, ?_⟩
    rw [hu]
    exact h₁

theorem Bal.fdalloc (h : Bal p T T.uses o own lk s) (q : Fin NPROC) (f : Fin NFILE) :
    wp (Fs.fdalloc q f) (fun r s' => match r with
      | none => Bal p T T.uses o own lk s'
      | some fd => (T.proc q).ofile fd = none ∧
          Bal p (T.setFd q fd (some f)) (T.setFd q fd (some f)).uses o own lk s')
      (fun e _ => E e) s := by
  rw [Fs.fdalloc, wp_bind, wp_get]
  split
  · exact (wp_pure _).2 h
  · next fd hfind =>
    have h0 := List.find?_some hfind
    rw [h.proc, Option.isNone_iff_eq_none] at h0
    exact wp_seq (h.setFd q fd (some f)) fun _ s₁ h₁ => (wp_pure _).2 ⟨h0, h₁⟩

theorem Bal.filedup (h : Bal p T T.uses o own lk s) (hpos : 1 ≤ (T.file f).ref) :
    wp (Fs.filedup f) (fun _ s' => Bal p (T.dup f) (T.dup f).uses o own lk s')
      (fun e _ => E e) s := by
  have hu : (T.dup f).uses = T.uses := by
    refine T.uses_setFile_same f fun i => ?_
    rw [File.points, File.points]
    refine if_congr (and_congr_left' ?_) rfl rfl
    show 0 < (T.file f).ref + 1 ↔ 0 < (T.file f).ref
    omega
  rw [Fs.filedup, wp_bind, wp_get, wp_ite, h.file, if_neg (by omega)]
  exact h.modifyFile f _ fun i => by rw [hu]

/-- The uses that closing a file leaves. -/
theorem uses_close_last {T : Tables} {f : Fin NFILE} (j : Fin NINODE) :
    (T.setFile f { T.file f with ref := 0, type := .none }).uses j + (T.file f).points j =
      T.uses j := by
  rw [T.uses_setFile, points_of_none rfl, Nat.add_zero]

variable (sb : Superblock) (M : Memory μ)

theorem Bal.closeInode (hE : ∀ e, Quiet e → E e) {ip : Option (Fin NINODE)}
    {own' : List (Fin NINODE)} (h : Bal p T U o own' lk s)
    (hown : ∀ i, ip = some i → own' = i :: own) :
    wp (Fs.closeInode sb p f ip) (fun _ s' => ∃ i, ip = some i ∧
      Bal p (T.record f false (.inode i)) U o own lk s') (fun e _ => E e) s := by
  refine wp_seq (h.beginOp hE) fun _ s₁ h₁ => ?_
  refine wp_seq (h₁.deref hE ip) fun i s₂ h₂ => ?_
  obtain ⟨hi, h₂⟩ := h₂
  rw [hown i hi] at h₂
  refine wp_seq (h₂.record f _ _) fun _ s₃ h₃ => ?_
  refine wp_seq (h₃.iput hE sb) fun _ s₄ h₄ => ?_
  exact wp_mono h₄.endOp (fun _ _ h₅ => ⟨i, hi, h₅⟩) fun _ _ he => he

/-- A file on an inode, as a list of references. -/
theorem points_eq_count {x : File} (hpos : 1 ≤ x.ref) (ht : x.type = .inode ∨ x.type = .device)
    (j : Fin NINODE) : x.points j = x.ip.toList.count j := by
  have h0 : 0 < x.ref := by omega
  cases hip : x.ip with
  | none =>
    rw [File.points, hip]
    exact if_neg fun hx => by cases hx.2.2
  | some i =>
    rw [File.points, hip]
    by_cases hj : j = i
    · rw [hj, if_pos ⟨h0, ht, rfl⟩]
      exact List.count_singleton_self.symm
    · rw [if_neg fun hx => hj (Option.some.inj hx.2.2).symm]
      exact (List.count_eq_zero.2 fun hm => hj (List.mem_singleton.1 hm)).symm

theorem Bal.fileclose (hE : ∀ e, Quiet e → E e) (h : Bal p T T.uses o own lk s)
    (hpos : 1 ≤ (T.file f).ref) :
    wp (Fs.fileclose sb M p f) (fun _ s' => Bal p (T.close f) (T.close f).uses o own lk s')
      (fun e _ => E e) s := by
  rw [Fs.fileclose, wp_bind, wp_get, h.file, wp_ite, if_neg (by omega), wp_ite, Tables.close]
  split
  · next hmore =>
    refine h.modifyFile f _ fun i => ?_
    rw [T.uses_setFile_same f fun i => ?_]
    rw [File.points, File.points]
    refine if_congr (and_congr_left' ?_) rfl rfl
    show 0 < (T.file f).ref - 1 ↔ 0 < (T.file f).ref
    omega
  · next hlast =>
    -- the references of the file pass to the call
    have hstep : ∀ own', (∀ j, (T.file f).points j + own.count j = own'.count j) →
        wp (Fs.modifyFile f fun x => { x with ref := 0, type := .none })
          (fun _ s' => Bal p (T.setFile f { T.file f with ref := 0, type := .none })
            (T.setFile f { T.file f with ref := 0, type := .none }).uses o own' lk s')
          (fun e _ => E e) s := fun own' ho =>
      h.modifyFile f _ fun j => by
        have h1 := uses_close_last (T := T) (f := f) j
        have h2 := ho j
        omega
    have hnone : (T.file f).type ≠ .inode → (T.file f).type ≠ .device →
        ∀ j, (T.file f).points j + own.count j = own.count j := by
      intro h1 h2 j
      rw [File.points, if_neg fun hx => hx.2.1.elim h1 h2, Nat.zero_add]
    have hinode : (T.file f).type = .inode ∨ (T.file f).type = .device →
        (T.file f).obj = (T.file f).ip.map .inode →
        wp (Fs.modifyFile f (fun x => { x with ref := 0, type := .none }) >>= fun _ =>
            Fs.closeInode sb p f (T.file f).ip)
          (fun _ s' => Bal p (T.released f (T.file f).obj) (T.released f (T.file f).obj).uses o own
            lk s')
          (fun e _ => E e) s := by
      intro ht hob
      refine wp_seq (hstep ((T.file f).ip.toList ++ own) fun j => ?_) fun _ s₁ h₁ => ?_
      · rw [points_eq_count hpos ht, List.count_append]
      · refine wp_mono (h₁.closeInode sb hE fun i hi => by rw [hi]; rfl) (fun _ s₂ h₂ => ?_)
          fun _ _ he => he
        obtain ⟨i, hi, h₂⟩ := h₂
        rw [hob, hi]
        exact h₂
    cases ht : (T.file f).type with
    | none =>
      rw [obj_of_none ht]
      refine wp_seq (hstep own (hnone (by rw [ht]; decide) (by rw [ht]; decide))) fun _ s₁ h₁ => ?_
      exact (wp_pure _).2 h₁
    | pipe =>
      have hob : (T.file f).obj = some (.pipe (T.file f).pipe (T.file f).writable) := by
        rw [File.obj, ht]
      rw [hob]
      refine wp_seq (hstep own (hnone (by rw [ht]; decide) (by rw [ht]; decide))) fun _ s₁ h₁ => ?_
      exact wp_seq (h₁.record f _ _) fun _ s₂ h₂ => (keeps_onMem _).bal hE h₂
    | inode => exact hinode (.inl ht) (by rw [File.obj, ht])
    | device => exact hinode (.inr ht) (by rw [File.obj, ht])

/-! ## Calls -/

/-- Nothing is held by the call: the state between calls. -/
def Done (p : Fin NPROC) (o : Int) (s : State μ) : Prop :=
  ∃ T : Tables, Bal p T T.uses o [] [] s ∧ Files T [] []

theorem Bal.done (h : Bal p T T.uses o [] [] s) (hf : Files T [] []) : Done p o s := ⟨T, h, hf⟩

theorem Bal.argfd (h : Bal p T U o own lk s) (fd : Int) :
    wp (Fs.argfd p fd) (fun r s' => Bal p T U o own lk s' ∧
      ∀ x, r = some x → (T.proc p).ofile x.1 = some x.2) (fun e _ => E e) s := by
  rw [Fs.argfd, wp_bind, wp_get]
  split
  · next hfd =>
    rw [wp_pure, h.proc]
    refine ⟨h, fun x hx => ?_⟩
    obtain ⟨f, hf, rfl⟩ := Option.map_eq_some_iff.1 hx
    exact hf
  · rw [wp_pure]
    exact ⟨h, fun x hx => nomatch hx⟩

/-- A descriptor and a reference to its file are given to a process. -/
theorem Files.share (h : Files T held fresh) (hpos : 1 ≤ (T.file f).ref) (ha : (T.proc q).alive) {fd : Fin NOFILE}
    (hfd : (T.proc q).ofile fd = none) : Files ((T.setFd q fd (some f)).dup f) held fresh :=
  Files.fill (h.dup hpos) ha hfd

theorem sysDup_done (h : Bal p T T.uses o [] [] s) (hf : Files T [] []) (ha : (T.proc p).alive)
    (fd : Int) : wp (sysDup p fd) (fun _ s' => Done p o s') (fun e _ => E e) s := by
  refine wp_seq (h.argfd fd) fun r s₁ h₁ => ?_
  obtain ⟨h₁, hr⟩ := h₁
  cases r with
  | none => exact (wp_pure _).2 (h₁.done hf)
  | some x =>
    have hx := hr x rfl
    refine wp_seq (h₁.fdalloc p x.2) fun r s₂ h₂ => ?_
    cases r with
    | none => exact (wp_pure _).2 (Bal.done h₂ hf)
    | some fd' =>
      refine wp_seq (h₂.2.filedup (f := x.2) (hf.ref_pos hx)) fun _ s₃ h₃ => ?_
      exact (wp_pure _).2 (h₃.done (hf.share (hf.ref_pos hx) ha h₂.1))

section

variable (hE : ∀ e, Quiet e → E e)
include hE

theorem sysClose_done (h : Bal p T T.uses o [] [] s) (hf : Files T [] []) (ha : (T.proc p).alive)
    (fd : Int) : wp (sysClose sb M p fd) (fun _ s' => Done p o s') (fun e _ => E e) s := by
  refine wp_seq (h.argfd fd) fun r s₁ h₁ => ?_
  obtain ⟨h₁, hr⟩ := h₁
  cases r with
  | none => exact (wp_pure _).2 (h₁.done hf)
  | some x =>
    have hx := hr x rfl
    refine wp_seq (h₁.setFd p x.1 none) fun _ s₂ h₂ => ?_
    refine wp_seq (h₂.fileclose sb M hE (f := x.2) (hf.ref_pos hx)) fun _ s₃ h₃ => ?_
    exact (wp_pure _).2 (h₃.done (hf.clear ha hx).close)

/-- Code that changes no account. -/
theorem Keeps.done {m : Kern (State μ) Int} (hk : Keeps m) (h : Bal p T T.uses o [] [] s)
    (hf : Files T [] []) : wp m (fun _ s' => Done p o s') (fun e _ => E e) s :=
  wp_mono (hk.bal hE h) (fun _ _ h₁ => h₁.done hf) fun _ _ he => he

theorem sysFstat_done (h : Bal p T T.uses o [] [] s) (hf : Files T [] []) (fd : Int) (st : Nat) :
    wp (sysFstat sb M p fd st) (fun _ s' => Done p o s') (fun e _ => E e) s := by
  refine wp_seq (h.argfd fd) fun r s₁ h₁ => ?_
  obtain ⟨h₁, -⟩ := h₁
  cases r with
  | none => exact (wp_pure _).2 (h₁.done hf)
  | some x =>
    refine keeps_get.then hE h₁ fun t s₂ h₂ => ?_
    rw [wp_ite]
    split
    · refine wp_seq (h₂.deref hE _) fun i s₃ h₃ => ?_
      refine wp_seq (h₃.2.ilock hE sb i) fun _ s₄ h₄ => ?_
      refine (keeps_getInode i).then hE h₄ fun ip s₅ h₅ => ?_
      refine wp_seq (h₅.iunlock hE) fun _ s₆ h₆ => ?_
      exact ((keeps_onMem _).bind fun r => Keeps.ite (keeps_pure _) (keeps_pure _)).done hE h₆ hf
    · exact (wp_pure _).2 (h₂.done hf)

omit hE in
/-- Moving the offset of a file. -/
theorem Bal.seek (h : Bal p T T.uses o own lk s) (hf : Files T held fresh) (f : Fin NFILE) (n : Nat) :
    wp (Fs.modifyFile f fun x => { x with off := (x.off + n) % 2 ^ 32 })
      (fun _ s' => ∃ T', Bal p T' T'.uses o own lk s' ∧ Files T' held fresh) (fun e _ => E e) s := by
  refine wp_mono (h.modifyFile f _ fun i => ?_) (fun _ s₁ h₁ => ⟨_, h₁, ?_⟩) fun _ _ he => he
  · rw [T.uses_setFile_same f]
    exact fun i => rfl
  · exact hf.touch rfl rfl rfl

theorem sysRead_done (h : Bal p T T.uses o [] [] s) (hf : Files T [] []) (fd : Int) (addr : Nat)
    (n : Int) : wp (sysRead sb M p fd addr n) (fun _ s' => Done p o s') (fun e _ => E e) s := by
  refine wp_seq (h.argfd fd) fun r s₁ h₁ => ?_
  obtain ⟨h₁, -⟩ := h₁
  cases r with
  | none => exact (wp_pure _).2 (h₁.done hf)
  | some x =>
    refine keeps_get.then hE h₁ fun t s₂ h₂ => ?_
    rw [wp_ite]
    split
    · exact (wp_pure _).2 (h₂.done hf)
    · cases (t.file x.2).type with
      | none => exact (keeps_panic (by simp) (by simp) (by simp)).done hE h₂ hf
      | pipe => exact (keeps_onMem _).done hE h₂ hf
      | device =>
        refine Keeps.done hE ?_ h₂ hf
        refine Keeps.ite (keeps_pure _) ?_
        cases M.devread (t.file x.2).major with
        | none => exact keeps_pure _
        | some read => exact keeps_onMem _
      | inode =>
        refine wp_seq (h₂.deref hE _) fun i s₃ h₃ => ?_
        refine wp_seq (h₃.2.ilock hE sb i) fun _ s₄ h₄ => ?_
        refine (keeps_readi sb M p i _ _ _).then hE h₄ fun r s₅ h₅ => ?_
        rw [wp_ite]
        split
        · refine wp_seq (h₅.seek hf x.2 r.1.toNat) fun _ s₆ h₆ => ?_
          obtain ⟨T', h₆, hf'⟩ := h₆
          exact wp_seq (h₆.iunlock hE) fun _ s₇ h₇ => (wp_pure _).2 (h₇.done hf')
        · exact wp_seq (h₅.iunlock hE) fun _ s₆ h₆ => (wp_pure _).2 (h₆.done hf)

theorem filewriteFrom_done (f : Fin NFILE) (addr n : Nat) :
    ∀ (k i : Nat) {s : State μ}, Done p o s →
      wp (filewriteFrom sb M p f addr n k i) (fun _ s' => Done p o s') (fun e _ => E e) s
  | 0, _, _, h => (wp_pure _).2 h
  | k + 1, i, s, h => by
    obtain ⟨T, h, hf⟩ := h
    rw [filewriteFrom, wp_ite]
    split
    · refine wp_seq (h.beginOp hE) fun _ s₁ h₁ => ?_
      refine keeps_get.then hE h₁ fun t s₂ h₂ => ?_
      refine wp_seq (h₂.deref hE _) fun ip s₃ h₃ => ?_
      refine wp_seq (h₃.2.ilock hE sb ip) fun _ s₄ h₄ => ?_
      refine (keeps_writei sb M p ip _ _ _).then hE h₄ fun r s₅ h₅ => ?_
      rw [wp_ite]
      split
      · refine wp_seq (h₅.seek hf f r.toNat) fun _ s₆ h₆ => ?_
        obtain ⟨T', h₆, hf'⟩ := h₆
        refine wp_seq (h₆.iunlock hE) fun _ s₇ h₇ => ?_
        refine wp_seq h₇.endOp fun _ s₈ h₈ => ?_
        rw [wp_ite]
        split
        · exact (wp_pure _).2 (h₈.done hf')
        · exact filewriteFrom_done f addr n k _ (h₈.done hf')
      · refine wp_seq (h₅.iunlock hE) fun _ s₆ h₆ => ?_
        exact wp_seq h₆.endOp fun _ s₇ h₇ => (wp_pure _).2 (h₇.done hf)
    · exact (wp_pure _).2 (h.done hf)

theorem sysWrite_done (h : Bal p T T.uses o [] [] s) (hf : Files T [] []) (fd : Int) (addr : Nat)
    (n : Int) : wp (sysWrite sb M p fd addr n) (fun _ s' => Done p o s') (fun e _ => E e) s := by
  refine wp_seq (h.argfd fd) fun r s₁ h₁ => ?_
  obtain ⟨h₁, -⟩ := h₁
  cases r with
  | none => exact (wp_pure _).2 (h₁.done hf)
  | some x =>
    refine keeps_get.then hE h₁ fun t s₂ h₂ => ?_
    rw [wp_ite]
    split
    · exact (wp_pure _).2 (h₂.done hf)
    · cases (t.file x.2).type with
      | none => exact (keeps_panic (by simp) (by simp) (by simp)).done hE h₂ hf
      | pipe => exact (keeps_onMem _).done hE h₂ hf
      | device =>
        refine Keeps.done hE ?_ h₂ hf
        refine Keeps.ite (keeps_pure _) ?_
        cases M.devwrite (t.file x.2).major with
        | none => exact keeps_pure _
        | some write => exact keeps_onMem _
      | inode =>
        refine wp_seq (filewriteFrom_done sb M hE x.2 addr n.toNat n.toNat 0 (h₂.done hf))
          fun i s₃ h₃ => ?_
        rw [wp_ite]
        split <;> exact (wp_pure _).2 h₃

/-! ## Links -/

theorem linkBad_done {ip : Fin NINODE} (h : Bal p T T.uses (o + 1) [ip] [] s) (hf : Files T [] []) :
    wp (linkBad sb p ip) (fun _ s' => Done p o s') (fun e _ => E e) s := by
  refine wp_seq (h.ilock hE sb ip) fun _ s₁ h₁ => ?_
  refine (keeps_content _ _).then hE h₁ fun _ s₂ h₂ => ?_
  refine (keeps_iupdate sb ip).then hE h₂ fun _ s₃ h₃ => ?_
  refine wp_seq (h₃.iunlockput hE sb) fun _ s₄ h₄ => ?_
  exact wp_seq h₄.endOp fun _ s₅ h₅ => (wp_pure _).2 (h₅.done hf)

theorem link_done (h : Bal p T T.uses o [] [] s) (hf : Files T [] []) (hroom : Room E T.uses 2)
    (old new : List UInt8) :
    wp (link sb M p old new) (fun _ s' => Done p o s') (fun e _ => E e) s := by
  refine wp_seq (h.beginOp hE) fun _ s₁ h₁ => ?_
  refine wp_seq (h₁.namei hE sb M (T.stands_uses p) (hroom.mono (by decide)) old)
    fun r s₂ h₂ => ?_
  cases r with
  | none => exact wp_seq (Bal.endOp h₂) fun _ s₃ h₃ => (wp_pure _).2 (h₃.done hf)
  | some ip =>
    refine wp_seq (Bal.ilock hE sb h₂ ip) fun _ s₃ h₃ => ?_
    refine (keeps_getInode ip).then hE h₃ fun x s₄ h₄ => ?_
    rw [wp_ite]
    split
    · refine wp_seq (h₄.iunlockput hE sb) fun _ s₅ h₅ => ?_
      exact wp_seq h₅.endOp fun _ s₆ h₆ => (wp_pure _).2 (h₆.done hf)
    · refine (keeps_content _ _).then hE h₄ fun _ s₅ h₅ => ?_
      refine (keeps_iupdate sb ip).then hE h₅ fun _ s₆ h₆ => ?_
      refine wp_seq (h₆.iunlock hE) fun _ s₇ h₇ => ?_
      refine wp_seq (h₇.nameiparent hE sb M (T.stands_uses p) hroom new) fun r s₈ h₈ => ?_
      cases r with
      | none => exact linkBad_done sb hE h₈ hf
      | some y =>
        obtain ⟨dp, name⟩ := y
        refine wp_seq (Bal.ilock hE sb h₈ dp) fun _ s₉ h₉ => ?_
        refine (keeps_getInode dp).then hE h₉ fun d s₁₀ h₁₀ => ?_
        rw [wp_ite]
        split
        · exact wp_seq (h₁₀.iunlockput hE sb) fun _ s₁₁ h₁₁ => linkBad_done sb hE h₁₁ hf
        · refine wp_seq (h₁₀.dirlink hE sb M hroom dp name x.inum) fun r s₁₁ h₁₁ => ?_
          rw [wp_ite]
          split
          · exact wp_seq (h₁₁.iunlockput hE sb) fun _ s₁₂ h₁₂ => linkBad_done sb hE h₁₂ hf
          · refine wp_seq (h₁₁.iunlockput hE sb) fun _ s₁₂ h₁₂ => ?_
            refine wp_seq (h₁₂.iput hE sb) fun _ s₁₃ h₁₃ => ?_
            exact wp_seq h₁₃.endOp fun _ s₁₄ h₁₄ => (wp_pure _).2 (h₁₄.done hf)

theorem unlinkBad_done {dp : Fin NINODE} (h : Bal p T T.uses (o + 1) [dp] [dp] s)
    (hf : Files T [] []) : wp (unlinkBad sb p dp) (fun _ s' => Done p o s') (fun e _ => E e) s := by
  refine wp_seq (h.iunlockput hE sb) fun _ s₁ h₁ => ?_
  exact wp_seq h₁.endOp fun _ s₂ h₂ => (wp_pure _).2 (h₂.done hf)

theorem unlinkEntry_done {dp ip : Fin NINODE} (h : Bal p T T.uses (o + 1) [ip, dp] [ip, dp] s)
    (hf : Files T [] []) (off : Nat) :
    wp (unlinkEntry sb M p dp ip off) (fun _ s' => Done p o s') (fun e _ => E e) s := by
  refine (keeps_writei sb M p dp _ _ _).then hE h fun r s₁ h₁ => ?_
  rw [wp_ite]
  split
  · rw [wp_panic]
    exact hE _ (quiet_panic (by simp) (by simp) (by simp))
  · refine (keeps_getInode ip).then hE h₁ fun x s₂ h₂ => ?_
    refine (keeps_parentLink sb _ dp _).then hE h₂ fun _ s₃ h₃ => ?_
    have h₃' := h₃.perm (List.Perm.swap _ _ _) (List.Perm.swap _ _ _)
    refine wp_seq (h₃'.iunlockput hE sb) fun _ s₄ h₄ => ?_
    refine (keeps_content _ _).then hE h₄ fun _ s₅ h₅ => ?_
    refine (keeps_iupdate sb ip).then hE h₅ fun _ s₆ h₆ => ?_
    refine wp_seq (h₆.iunlockput hE sb) fun _ s₇ h₇ => ?_
    exact wp_seq h₇.endOp fun _ s₈ h₈ => (wp_pure _).2 (h₈.done hf)

omit hE in
theorem keeps_isdiremptyFrom (dp : Fin NINODE) : ∀ k off, Keeps (isdiremptyFrom sb M p dp k off)
  | 0, _ => keeps_pure _
  | k + 1, off => (keeps_readi sb M p dp _ _ _).bind fun _ =>
      Keeps.ite (keeps_panic (by simp) (by simp) (by simp))
        (Keeps.ite (keeps_pure _) (keeps_isdiremptyFrom dp k _))

theorem unlink_done (h : Bal p T T.uses o [] [] s) (hf : Files T [] []) (hroom : Room E T.uses 1)
    (path : List UInt8) :
    wp (unlink sb M p path) (fun _ s' => Done p o s') (fun e _ => E e) s := by
  refine wp_seq (h.beginOp hE) fun _ s₁ h₁ => ?_
  refine wp_seq (h₁.nameiparent hE sb M (T.stands_uses p) hroom path) fun r s₂ h₂ => ?_
  cases r with
  | none => exact wp_seq (Bal.endOp h₂) fun _ s₃ h₃ => (wp_pure _).2 (h₃.done hf)
  | some y =>
    obtain ⟨dp, name⟩ := y
    refine wp_seq (Bal.ilock hE sb h₂ dp) fun _ s₃ h₃ => ?_
    rw [wp_ite]
    split
    · exact unlinkBad_done sb hE h₃ hf
    · refine wp_seq (h₃.dirlookup hE sb M hroom dp name) fun r s₄ h₄ => ?_
      cases r with
      | none => exact unlinkBad_done sb hE h₄ hf
      | some y =>
        obtain ⟨ip, off⟩ := y
        refine wp_seq (Bal.ilock hE sb h₄ ip) fun _ s₅ h₅ => ?_
        refine (keeps_getInode ip).then hE h₅ fun x s₆ h₆ => ?_
        rw [wp_ite]
        split
        · rw [wp_panic]
          exact hE _ (quiet_panic (by simp) (by simp) (by simp))
        · rw [wp_ite]
          split
          · have hk : Keeps (isdirempty sb M p ip) :=
              (keeps_getInode ip).bind fun _ => keeps_isdiremptyFrom sb M ip _ _
            refine hk.then hE h₆ fun empty s₇ h₇ => ?_
            rw [wp_ite]
            split
            · exact unlinkEntry_done sb M hE h₇ hf off
            · exact wp_seq (h₇.iunlockput hE sb) fun _ s₈ h₈ => unlinkBad_done sb hE h₈ hf
          · exact unlinkEntry_done sb M hE h₆ hf off

/-! ## Opening -/

omit hE in
theorem count_cons_eq (i j : Fin NINODE) (l : List (Fin NINODE)) :
    (i :: l).count j = [i].count j + l.count j := by
  rw [← List.singleton_append, List.count_append]

omit hE in
/-- The file on an inode refers to it. -/
theorem Bal.openFile (h : Bal p T T.uses o (i :: own) lk s) (hf : Files T held (f :: fresh))
    (hpos : 1 ≤ (T.file f).ref) (ht : (T.file f).type = .none) (ip : Inode) (omode : Nat) :
    wp (Fs.modifyFile f (File.onInode i ip omode))
      (fun _ s' => ∃ x : File, Files (T.opened f x (.inode i)) held fresh ∧
        Bal p (T.setFile f x) (T.setFile f x).uses o own lk s') (fun e _ => E e) s := by
  have htype : (File.onInode i ip omode (T.file f)).type = .inode ∨
      (File.onInode i ip omode (T.file f)).type = .device := by
    rw [File.onInode]
    split
    · exact .inr rfl
    · exact .inl rfl
  have hob : (File.onInode i ip omode (T.file f)).obj = some (.inode i) := by
    rcases htype with ht | ht <;> rw [File.obj, ht] <;> rfl
  refine wp_mono (h.modifyFile f (File.onInode i ip omode) fun j => ?_)
    (fun _ s₁ h₁ => ⟨File.onInode i ip omode (T.file f), ?_, h₁⟩) fun _ _ he => he
  rotate_left
  · exact hf.install (by rfl) (by omega) (obj_of_none ht) hob
  · have h1 := T.uses_setFile f j (File.onInode i ip omode (T.file f))
    rw [points_of_none ht,
      points_eq_count (x := File.onInode i ip omode (T.file f)) hpos htype] at h1
    have h3 : (File.onInode i ip omode (T.file f)).ip.toList = [i] := rfl
    rw [h3] at h1
    have h2 := count_cons_eq i j own
    omega

theorem openInode_done (h : Bal p T T.uses (o + 1) [i] [i] s) (hf : Files T [] [])
    (ha : (T.proc p).alive) (omode : Nat) :
    wp (openInode sb M p i omode) (fun _ s' => Done p o s') (fun e _ => E e) s := by
  have hbad : ∀ {T' : Tables} {s' : State μ}, Bal p T' T'.uses (o + 1) [i] [i] s' →
      Files T' [] [] → wp (do iunlockput sb p i; endOp; return (-1 : Int))
        (fun _ s' => Done p o s') (fun e _ => E e) s' := by
    intro T' s' h' hf'
    refine wp_seq (h'.iunlockput hE sb) fun _ s₁ h₁ => ?_
    exact wp_seq h₁.endOp fun _ s₂ h₂ => (wp_pure _).2 (h₂.done hf')
  refine (keeps_getInode i).then hE h fun ip s₁ h₁ => ?_
  rw [wp_ite]
  split
  · exact hbad h₁ hf
  · refine wp_seq (h₁.filealloc hf) fun r s₂ h₂ => ?_
    cases r with
    | none => exact hbad h₂ hf
    | some f =>
      obtain ⟨h0, h₂⟩ := h₂
      have hf₂ := hf.alloc h0
      have href : ((T.alloc f).file f).ref = 1 := congrArg File.ref (T.setFile_self f _)
      have htype : ((T.alloc f).file f).type = .none :=
        (congrArg File.type (T.setFile_self f _)).trans (hf.closed f h0)
      refine wp_seq (h₂.fdalloc p f) fun r s₃ h₃ => ?_
      cases r with
      | none =>
        refine wp_seq (Bal.fileclose sb M hE h₃ (Int.le_of_eq href.symm)) fun _ s₄ h₄ => ?_
        exact hbad h₄ (hf₂.close.forget (Tables.ref_close href))
      | some fd =>
        obtain ⟨hfd, h₃⟩ := h₃
        have hf₃ := hf₂.fill ha hfd
        refine wp_seq (h₃.openFile hf₃ (f := f) (Int.le_of_eq href.symm) htype ip omode) fun _ s₄ h₄ => ?_
        obtain ⟨x, hf₄, h₄⟩ := h₄
        refine wp_seq (h₄.record f _ _) fun _ s₅ h₅ => ?_
        have hk : Keeps (openTrunc sb i ip omode : Kern (State μ) Unit) :=
          Keeps.ite (keeps_itrunc sb i) (keeps_pure _)
        refine hk.then hE h₅ fun _ s₆ h₆ => ?_
        refine wp_seq (h₆.iunlock hE) fun _ s₇ h₇ => ?_
        exact wp_seq h₇.endOp fun _ s₈ h₈ => (wp_pure _).2 (Bal.done h₈ hf₄)

theorem openPath_done (h : Bal p T T.uses o [] [] s) (hf : Files T [] []) (ha : (T.proc p).alive)
    {omode : Nat} (hroom : Room E T.uses 1) (hroom' : omode &&& O_CREATE ≠ 0 → Room E T.uses 2)
    (path : List UInt8) :
    wp (openPath sb M p path omode) (fun _ s' => Done p o s') (fun e _ => E e) s := by
  refine wp_seq (h.beginOp hE) fun _ s₁ h₁ => ?_
  rw [wp_ite]
  split
  · next hc =>
    refine wp_seq (h₁.create hE sb M (T.stands_uses p) (hroom' hc) path T_FILE 0 0)
      fun r s₂ h₂ => ?_
    cases r with
    | none => exact wp_seq (Bal.endOp h₂) fun _ s₃ h₃ => (wp_pure _).2 (h₃.done hf)
    | some i => exact openInode_done sb M hE h₂ hf ha omode
  · refine wp_seq (h₁.namei hE sb M (T.stands_uses p) hroom path) fun r s₂ h₂ => ?_
    cases r with
    | none => exact wp_seq (Bal.endOp h₂) fun _ s₃ h₃ => (wp_pure _).2 (h₃.done hf)
    | some i =>
      refine wp_seq (Bal.ilock hE sb h₂ i) fun _ s₃ h₃ => ?_
      refine (keeps_getInode i).then hE h₃ fun ip s₄ h₄ => ?_
      rw [wp_ite]
      split
      · refine wp_seq (h₄.iunlockput hE sb) fun _ s₅ h₅ => ?_
        exact wp_seq h₅.endOp fun _ s₆ h₆ => (wp_pure _).2 (h₆.done hf)
      · exact openInode_done sb M hE h₄ hf ha omode

/-- A call that begins with `argstr`. -/
theorem argstr_done (h : Bal p T T.uses o [] [] s) (hf : Files T [] []) (addr : Nat)
    {k : List UInt8 → Kern (State μ) Int}
    (hk : ∀ path s', Bal p T T.uses o [] [] s' →
      wp (k path) (fun _ s' => Done p o s') (fun e _ => E e) s') :
    wp (argstr M p addr >>= fun r => match r with
      | none => pure (-1)
      | some path => k path) (fun _ s' => Done p o s') (fun e _ => E e) s := by
  refine (keeps_onMem _).then hE h fun r s₁ h₁ => ?_
  cases r with
  | none => exact (wp_pure _).2 (h₁.done hf)
  | some path => exact hk path s₁ h₁

theorem makeNode_done (h : Bal p T T.uses o [] [] s) (hf : Files T [] []) (hroom : Room E T.uses 2)
    (path type major minor : Nat) :
    wp (makeNode sb M p path type major minor) (fun _ s' => Done p o s') (fun e _ => E e) s := by
  refine wp_seq (h.beginOp hE) fun _ s₁ h₁ => ?_
  refine (keeps_onMem _).then hE h₁ fun r s₂ h₂ => ?_
  cases r with
  | none => exact wp_seq h₂.endOp fun _ s₃ h₃ => (wp_pure _).2 (h₃.done hf)
  | some path =>
    refine wp_seq (h₂.create hE sb M (T.stands_uses p) hroom path type major minor)
      fun r s₃ h₃ => ?_
    cases r with
    | none => exact wp_seq (Bal.endOp h₃) fun _ s₄ h₄ => (wp_pure _).2 (h₄.done hf)
    | some ip =>
      refine wp_seq (Bal.iunlockput hE sb h₃) fun _ s₄ h₄ => ?_
      exact wp_seq h₄.endOp fun _ s₅ h₅ => (wp_pure _).2 (h₅.done hf)

omit hE in
/-- A process gives up its current directory to the call. -/
theorem Bal.leave (h : Bal p T T.uses o own lk s) (hcwd : (T.proc q).cwd = some i) :
    Bal p T (T.setCwd q none).uses o (i :: own) lk s := by
  refine h.move fun j => ?_
  have h1 := T.uses_setCwd q j none
  rw [hcwd, Option.toList_some, Option.toList_none, List.count_nil] at h1
  have h2 := count_cons_eq i j own
  omega

omit hE in
/-- The call gives a reference to a process as its current directory. -/
theorem Bal.enter (h : Bal p T (T.setCwd q none).uses o (i :: own) lk s) :
    wp (Fs.modifyProc q fun x => { x with cwd := some i })
      (fun _ s' => Bal p (T.setCwd q (some i)) (T.setCwd q (some i)).uses o own lk s')
      (fun e _ => E e) s := by
  refine h.modifyProc q _ fun j => ?_
  have h1 := T.uses_setCwd q j none
  have h2 := T.uses_setCwd q j (some i)
  rw [Option.toList_none, List.count_nil] at h1
  rw [Option.toList_some] at h2
  have h3 := count_cons_eq i j own
  omega

omit hE in
theorem Files.setCwd (hf : Files T held fresh) (ha : (T.proc q).alive) (d : Option (Fin NINODE)) :
    Files (T.setCwd q d) held fresh :=
  hf.setProc (fun _ => rfl) fun hn => absurd ha hn

theorem sysChdir_done (h : Bal p T T.uses o [] [] s) (hf : Files T [] []) (ha : (T.proc p).alive)
    (hroom : Room E T.uses 1) (path : Nat) :
    wp (sysChdir sb M p path) (fun _ s' => Done p o s') (fun e _ => E e) s := by
  refine wp_seq (h.beginOp hE) fun _ s₁ h₁ => ?_
  refine (keeps_onMem _).then hE h₁ fun r s₂ h₂ => ?_
  cases r with
  | none => exact wp_seq h₂.endOp fun _ s₃ h₃ => (wp_pure _).2 (h₃.done hf)
  | some path =>
    refine wp_seq (h₂.namei hE sb M (T.stands_uses p) hroom path) fun r s₃ h₃ => ?_
    cases r with
    | none => exact wp_seq (Bal.endOp h₃) fun _ s₄ h₄ => (wp_pure _).2 (h₄.done hf)
    | some i =>
      refine wp_seq (Bal.ilock hE sb h₃ i) fun _ s₄ h₄ => ?_
      refine (keeps_getInode i).then hE h₄ fun ip s₅ h₅ => ?_
      rw [wp_ite]
      split
      · refine wp_seq (h₅.iunlockput hE sb) fun _ s₆ h₆ => ?_
        exact wp_seq h₆.endOp fun _ s₇ h₇ => (wp_pure _).2 (h₇.done hf)
      · refine wp_seq (h₅.iunlock hE) fun _ s₆ h₆ => ?_
        rw [wp_bind, wp_get]
        refine wp_seq (h₆.deref hE _) fun c s₇ h₇ => ?_
        obtain ⟨hc, h₇⟩ := h₇
        rw [h₆.proc] at hc
        refine wp_seq ((h₇.leave hc).iput hE sb) fun _ s₈ h₈ => ?_
        refine wp_seq h₈.endOp fun _ s₉ h₉ => ?_
        -- the reference that `namei` took becomes the current directory
        exact wp_seq h₉.enter fun _ s₁₀ h₁₀ => (wp_pure _).2 (h₁₀.done (hf.setCwd ha _))

/-! ## Pipes -/

omit hE in
theorem Bal.openPipe (h : Bal p T T.uses o own lk s) (ht : (T.file f).type = .none) (pi : Nat)
    (w : Bool) :
    wp (Fs.modifyFile f (File.onPipe pi w))
      (fun _ s' => Bal p (T.setFile f (File.onPipe pi w (T.file f)))
        (T.setFile f (File.onPipe pi w (T.file f))).uses o own lk s') (fun e _ => E e) s := by
  refine h.modifyFile f (File.onPipe pi w) fun j => ?_
  rw [T.uses_setFile_same f fun i => ?_]
  rw [points_of_none ht]
  exact points_of_pipe rfl i

theorem pipeBad_done {f0 f1 : Fin NFILE} (h : Bal p T T.uses o [] [] s) (hf : Files T [f0, f1] []) :
    wp (pipeBad sb M p f0 f1) (fun _ s' => Done p o s') (fun e _ => E e) s := by
  refine wp_seq (h.fileclose sb M hE (hf.held_pos List.mem_cons_self)) fun _ s₁ h₁ => ?_
  have hf₁ := hf.close
  refine wp_seq (h₁.fileclose sb M hE (hf₁.held_pos List.mem_cons_self)) fun _ s₂ h₂ => ?_
  exact (wp_pure _).2 (h₂.done hf₁.close)

/-- What `pipealloc` leaves: two new files on the ends of a pipe, which the call holds. -/
theorem pipealloc_spec (h : Bal p T T.uses o [] [] s) (hf : Files T [] []) :
    wp (pipealloc sb M p) (fun r s' => match r with
      | none => Done p o s'
      | some (f0, f1) => ∃ T', Bal p T' T'.uses o [] [] s' ∧ Files T' [f0, f1] [] ∧
          T'.proc = T.proc) (fun e _ => E e) s := by
  refine wp_seq (h.filealloc hf) fun r s₁ h₁ => ?_
  cases r with
  | none => exact (wp_pure _).2 (Bal.done h₁ hf)
  | some f0 =>
    obtain ⟨h0, h₁⟩ := h₁
    have hf₁ := hf.alloc h0
    have href0 : ((T.alloc f0).file f0).ref = 1 := congrArg File.ref (T.setFile_self f0 _)
    have htype0 : ((T.alloc f0).file f0).type = .none :=
      (congrArg File.type (T.setFile_self f0 _)).trans (hf.closed f0 h0)
    refine wp_seq (h₁.filealloc hf₁) fun r s₂ h₂ => ?_
    cases r with
    | none =>
      refine wp_seq (Bal.fileclose sb M hE h₂ (hf₁.held_pos List.mem_cons_self))
        fun _ s₃ h₃ => ?_
      exact (wp_pure _).2 (Bal.done h₃ (hf₁.close.forget (Tables.ref_close href0)))
    | some f1 =>
      obtain ⟨h1, h₂⟩ := h₂
      have hf₂ := (hf₁.alloc h1).perm (List.Perm.swap _ _ _) (List.Perm.swap _ _ _)
      have hne : f1 ≠ f0 := fun he => by
        have hpos := hf₁.held_pos (List.mem_cons_self (a := f0))
        rw [he] at h1
        omega
      refine (keeps_onMem _).then hE h₂ fun pi s₃ h₃ => ?_
      rw [wp_ite]
      split
      · refine wp_seq (h₃.fileclose sb M hE (hf₂.held_pos List.mem_cons_self)) fun _ s₄ h₄ => ?_
        have href0' : (((T.alloc f0).alloc f1).file f0).ref = 1 :=
          (congrArg File.ref ((T.alloc f0).setFile_of_ne (Ne.symm hne) _)).trans href0
        have href1 : ((((T.alloc f0).alloc f1).close f0).file f1).ref = 1 := by
          rw [Tables.close_of_ne _ hne]
          exact congrArg File.ref ((T.alloc f0).setFile_self f1 _)
        have hf₄ := hf₂.close.forget (Tables.ref_close href0')
        refine wp_seq (h₄.fileclose sb M hE (hf₄.held_pos List.mem_cons_self)) fun _ s₅ h₅ => ?_
        exact (wp_pure _).2 (h₅.done (hf₄.close.forget (Tables.ref_close href1)))
      · have ht0 : (((T.alloc f0).alloc f1).file f0).type = .none :=
          (congrArg File.type ((T.alloc f0).setFile_of_ne (Ne.symm hne) _)).trans htype0
        have ht1 : (((T.alloc f0).alloc f1).file f1).type = .none :=
          (congrArg File.type ((T.alloc f0).setFile_self f1 _)).trans (hf₁.closed f1 h1)
        refine wp_seq (h₃.openPipe ht0 pi false) fun _ s₄ h₄ => ?_
        have hp0 := hf₂.held_pos List.mem_cons_self
        have hf₄ := hf₂.install (x := File.onPipe pi false (((T.alloc f0).alloc f1).file f0))
          rfl (by omega) (obj_of_none ht0) rfl
        have ht1' : ((((T.alloc f0).alloc f1).setFile f0
            (File.onPipe pi false (((T.alloc f0).alloc f1).file f0))).file f1).type = .none :=
          (congrArg File.type (((T.alloc f0).alloc f1).setFile_of_ne hne _)).trans ht1
        refine wp_seq (h₄.openPipe ht1' pi true) fun _ s₅ h₅ => ?_
        refine wp_seq (h₅.record f0 _ _) fun _ s₆ h₆ => ?_
        refine wp_seq (h₆.record f1 _ _) fun _ s₇ h₇ => (wp_pure _).2 ⟨_, h₇, ?_, rfl⟩
        have hp1 := hf₄.held_pos (List.mem_cons_of_mem f0 (List.mem_cons_self (a := f1)))
        refine hf₄.install (by rfl) (by omega) (obj_of_none ht1') rfl

theorem sysPipe_done (h : Bal p T T.uses o [] [] s) (hf : Files T [] []) (ha : (T.proc p).alive)
    (fdarray : Nat) :
    wp (sysPipe sb M p fdarray) (fun _ s' => Done p o s') (fun e _ => E e) s := by
  refine wp_seq (pipealloc_spec sb M hE h hf) fun r s₁ h₁ => ?_
  cases r with
  | none => exact (wp_pure _).2 h₁
  | some x =>
    obtain ⟨rf, wf⟩ := x
    obtain ⟨T₁, h₁, hf₁, hproc⟩ := h₁
    have ha₁ : (T₁.proc p).alive := by
      rw [hproc]
      exact ha
    refine wp_seq (h₁.fdalloc p rf) fun r s₂ h₂ => ?_
    cases r with
    | none => exact pipeBad_done sb M hE h₂ hf₁
    | some fd0 =>
      obtain ⟨hfd0, h₂⟩ := h₂
      have hf₂ := hf₁.fill ha₁ hfd0
      have hset0 := T₁.setFd_self p fd0 (some rf)
      have ha₂ := T₁.setFd_alive ha₁ fd0 (some rf)
      refine wp_seq (h₂.fdalloc p wf) fun r s₃ h₃ => ?_
      cases r with
      | none =>
        refine wp_seq (Bal.setFd h₃ p fd0 none) fun _ s₄ h₄ => ?_
        exact pipeBad_done sb M hE h₄ (hf₂.clear ha₂ hset0)
      | some fd1 =>
        obtain ⟨hfd1, h₃⟩ := h₃
        have hf₃ := hf₂.fill ha₂ hfd1
        have hne : fd0 ≠ fd1 := fun he => by
          rw [← he, hset0] at hfd1
          cases hfd1
        -- the failing `copyout`s take both descriptors back
        have hbad : ∀ {s' : State μ}, Bal p ((T₁.setFd p fd0 (some rf)).setFd p fd1 (some wf))
            ((T₁.setFd p fd0 (some rf)).setFd p fd1 (some wf)).uses o [] [] s' →
            wp (do Fs.clearFd p fd0; Fs.clearFd p fd1; pipeBad sb M p rf wf)
              (fun _ s' => Done p o s') (fun e _ => E e) s' := by
          intro s' h'
          refine wp_seq (h'.setFd p fd0 none) fun _ s₅ h₅ => ?_
          have hf₅ := hf₃.clear (Tables.setFd_alive _ ha₂ fd1 (some wf))
            ((Tables.setFd_of_ne _ p hne (some wf)).trans hset0)
          refine wp_seq (h₅.setFd p fd1 none) fun _ s₆ h₆ => ?_
          refine pipeBad_done sb M hE h₆ (Files.perm (hf₅.clear ?_ ?_) (List.Perm.swap _ _ _) (.refl _))
          · exact Tables.setFd_alive _ (Tables.setFd_alive _ ha₂ fd1 (some wf)) fd0 none
          · exact (Tables.setFd_of_ne _ p (Ne.symm hne) none).trans (Tables.setFd_self _ p fd1 _)
        refine (keeps_onMem _).then hE h₃ fun r s₄ h₄ => ?_
        rw [wp_ite]
        split
        · exact hbad h₄
        · refine (keeps_onMem _).then hE h₄ fun r s₅ h₅ => ?_
          rw [wp_ite]
          split
          · exact hbad h₅
          · exact (wp_pure _).2 (h₅.done hf₃)

/-! ## `exec` -/

omit hE in
theorem keeps_loadsegFrom (pagetable va : Nat) (ip : Fin NINODE) (offset sz : Nat) :
    ∀ k j, Keeps (loadsegFrom sb M p pagetable va ip offset sz k j)
  | 0, _ => keeps_pure _
  | k + 1, j => by
    refine (keeps_onMem _).bind fun pa => Keeps.ite (keeps_panic (by simp) (by simp) (by simp)) ?_
    refine (keeps_readi sb M p ip _ _ _).bind fun r => (keeps_onMem _).bind fun _ => ?_
    exact Keeps.ite (keeps_pure _) (keeps_loadsegFrom pagetable va ip offset sz k _)

omit hE in
theorem keeps_execSegments (ip : Fin NINODE) (pagetable : Nat) :
    ∀ k off sz, Keeps (execSegments sb M p ip pagetable k off sz)
  | 0, _, _ => keeps_pure _
  | k + 1, off, sz => by
    refine (keeps_readi sb M p ip _ _ _).bind fun r => Keeps.ite (keeps_pure _) ?_
    refine Keeps.ite (keeps_execSegments ip pagetable k _ _) (Keeps.ite (keeps_pure _) ?_)
    refine (keeps_onMem _).bind fun sz1 => Keeps.ite (keeps_pure _) ?_
    refine (keeps_loadsegFrom sb M _ _ ip _ _ _ _).bind fun r => Keeps.ite (keeps_pure _) ?_
    exact keeps_execSegments ip pagetable k _ _

theorem execBad_done {ip : Fin NINODE} (h : Bal p T T.uses (o + 1) [ip] [ip] s) (hf : Files T [] [])
    (pagetable sz : Nat) :
    wp (execBad sb M p ip pagetable sz) (fun _ s' => Done p o s') (fun e _ => E e) s := by
  have hk : Keeps (freePagetable M pagetable sz) := Keeps.ite (keeps_onMem _) (keeps_pure _)
  refine hk.then hE h fun _ s₁ h₁ => ?_
  refine wp_seq (h₁.iunlockput hE sb) fun _ s₂ h₂ => ?_
  exact wp_seq h₂.endOp fun _ s₃ h₃ => (wp_pure _).2 (h₃.done hf)

theorem exec_done (h : Bal p T T.uses o [] [] s) (hf : Files T [] []) (hroom : Room E T.uses 1)
    (path : List UInt8) (argv : List Nat) :
    wp (exec sb M p path argv) (fun _ s' => Done p o s') (fun e _ => E e) s := by
  refine wp_seq (h.beginOp hE) fun _ s₁ h₁ => ?_
  refine wp_seq (h₁.namei hE sb M (T.stands_uses p) hroom path) fun r s₂ h₂ => ?_
  cases r with
  | none => exact wp_seq (Bal.endOp h₂) fun _ s₃ h₃ => (wp_pure _).2 (h₃.done hf)
  | some ip =>
    refine wp_seq (Bal.ilock hE sb h₂ ip) fun _ s₃ h₃ => ?_
    refine (keeps_readi sb M p ip _ _ _).then hE h₃ fun r s₄ h₄ => ?_
    rw [wp_ite]
    split
    · exact execBad_done sb M hE h₄ hf 0 0
    · refine (keeps_onMem _).then hE h₄ fun pagetable s₅ h₅ => ?_
      rw [wp_ite]
      split
      · exact execBad_done sb M hE h₅ hf 0 0
      · refine (keeps_execSegments sb M ip _ _ _ _).then hE h₅ fun r s₆ h₆ => ?_
        rw [wp_ite]
        split
        · exact execBad_done sb M hE h₆ hf _ _
        · refine wp_seq (h₆.iunlockput hE sb) fun _ s₇ h₇ => ?_
          exact wp_seq h₇.endOp fun _ s₈ h₈ => (keeps_onMem _).done hE h₈ hf

theorem sysExec_done (h : Bal p T T.uses o [] [] s) (hf : Files T [] []) (hroom : Room E T.uses 1)
    (path uargv : Nat) :
    wp (sysExec sb M p path uargv) (fun _ s' => Done p o s') (fun e _ => E e) s := by
  refine argstr_done M hE h hf path fun path s₁ h₁ => ?_
  refine (keeps_onMem _).then hE h₁ fun r s₂ h₂ => ?_
  rw [wp_ite]
  split
  · exact ((keeps_onMem _).bind fun _ => keeps_pure _).done hE h₂ hf
  · refine wp_seq (exec_done sb M hE h₂ hf hroom path _) fun r s₃ h₃ => ?_
    obtain ⟨T', h₃, hf'⟩ := h₃
    exact ((keeps_onMem _).bind fun _ => keeps_pure _).done hE h₃ hf'

/-! ## Processes -/

omit hE in
/-- The loop of `fork` over the files of the parent. -/
theorem dupFiles_spec {np : Fin NPROC} (hne : p ≠ np) : ∀ (fds : List (Fin NOFILE)) {T : Tables}
    {s : State μ}, fds.Nodup → Bal p T T.uses o own lk s → Files T held fresh → (T.proc np).alive →
      (∀ fd ∈ fds, (T.proc np).ofile fd = none) →
      wp (dupFiles p np fds) (fun _ s' => ∃ T', Bal p T' T'.uses o own lk s' ∧ Files T' held fresh ∧
        (T'.proc np).cwd = (T.proc np).cwd ∧ (T'.proc np).alive ∧ T'.proc p = T.proc p)
        (fun e _ => E e) s
  | [], T, s, _, h, hf, ha, _ => (wp_pure _).2 ⟨T, h, hf, rfl, ha, rfl⟩
  | fd :: fds, T, s, hnd, h, hf, ha, hnone => by
    obtain ⟨hfd, hnd⟩ := List.nodup_cons.1 hnd
    rw [dupFiles, wp_bind, wp_get, h.proc]
    cases hd : (T.proc p).ofile fd with
    | none => exact dupFiles_spec hne fds hnd h hf ha fun x hx => hnone x (.tail _ hx)
    | some f =>
      have hnp := hnone fd (.head _)
      refine wp_seq (h.filedup (hf.ref_pos hd)) fun _ s₁ h₁ => ?_
      refine wp_seq (h₁.setFd np fd (some f)) fun _ s₂ h₂ => ?_
      have hf₂ := (hf.dup (hf.ref_pos hd)).fill (q := np) ha hnp
      refine wp_mono (dupFiles_spec hne fds hnd h₂ hf₂ ((T.dup f).setFd_alive ha fd _)
        fun x hx => ?_) (fun _ s₃ h₃ => ?_) fun _ _ he => he
      · have hxf : x ≠ fd := fun he => hfd (he ▸ hx)
        exact ((T.dup f).setFd_of_ne np hxf _).trans (hnone x (.tail _ hx))
      · obtain ⟨T', h₃, hf₃, hcwd, ha₃, hp⟩ := h₃
        refine ⟨T', h₃, hf₃, hcwd.trans ?_, ha₃, hp.trans ?_⟩
        · exact (T.dup f).setFd_cwd np fd _
        · exact (T.dup f).setProc_of_ne hne _

omit hE in
/-- A process changes its state. -/
theorem Bal.setState (h : Bal p T T.uses o own lk s) (q : Fin NPROC) (st : ProcState) :
    wp (Fs.modifyProc q fun x => { x with state := st })
      (fun _ s' => Bal p (T.setProc q { T.proc q with state := st })
        (T.setProc q { T.proc q with state := st }).uses o own lk s') (fun e _ => E e) s := by
  refine h.modifyProc q _ fun j => ?_
  have h1 : (T.setProc q { T.proc q with state := st }).uses j + (T.proc q).stands j =
      T.uses j + (T.proc q).stands j := T.uses_setProc q j _
  omega

theorem fork_done (h : Bal p T T.uses o [] [] s) (hf : Files T [] []) (ha : (T.proc p).alive) :
    wp (fork M p) (fun _ s' => Done p o s') (fun e _ => E e) s := by
  rw [fork, wp_bind, wp_get]
  split
  · exact (wp_pure _).2 (h.done hf)
  · next np hfind =>
    have hun := List.find?_some hfind
    simp only [decide_eq_true_eq] at hun
    rw [h.proc] at hun
    have hne : p ≠ np := fun he => ha.1 (he ▸ hun)
    obtain ⟨hno, hcwd⟩ := hf.dead np fun hal => hal.1 hun
    refine (keeps_onMem _).then hE h fun r s₁ h₁ => ?_
    cases r with
    | none => exact (wp_pure _).2 (h₁.done hf)
    | some pid =>
      refine wp_seq (h₁.setState np .used) fun _ s₂ h₂ => ?_
      have hself := T.setProc_self np { T.proc np with state := .used }
      have ha₂ : ((T.setProc np { T.proc np with state := .used }).proc np).alive := by
        rw [hself]
        exact ⟨nofun, nofun⟩
      have hf₂ : Files (T.setProc np { T.proc np with state := .used }) [] [] :=
        hf.setProc (fun _ => rfl) fun _ => ⟨hno, hcwd⟩
      refine wp_seq (dupFiles_spec hne _ (List.nodup_finRange NOFILE) h₂ hf₂ ha₂
        fun fd _ => by rw [hself]; exact hno fd) fun _ s₃ h₃ => ?_
      obtain ⟨T₃, h₃, hf₃, hcwd₃, ha₃, hp₃⟩ := h₃
      rw [hself] at hcwd₃
      have hp : (T₃.proc p).cwd = (s.proc p).cwd := by
        rw [hp₃, T.setProc_of_ne hne, h.proc]
      refine wp_seq (h₃.deref hE _) fun c s₄ h₄ => ?_
      obtain ⟨hc, h₄⟩ := h₄
      have hu : 0 < T₃.uses c := T₃.stands_uses p c (hp.trans hc)
      refine wp_seq (h₄.idup hu) fun _ s₅ h₅ => ?_
      have hno₃ : (T₃.setCwd np none).uses = T₃.uses := by
        funext j
        have h1 := T₃.uses_setCwd np j none
        rw [hcwd₃, hcwd] at h1
        omega
      refine wp_seq (Bal.enter (q := np) (by rw [hno₃]; exact h₅)) fun _ s₆ h₆ => ?_
      refine wp_seq (h₆.setState np .runnable) fun _ s₇ h₇ => (wp_pure _).2 (h₇.done ?_)
      exact (hf₃.setCwd ha₃ _).setProc (fun _ => rfl) fun hn => absurd ⟨nofun, nofun⟩ hn

/-- The loop of `exit` over the files of the process. -/
theorem closeFiles_spec : ∀ (fds : List (Fin NOFILE)) {T : Tables} {s : State μ},
    Bal p T T.uses o own lk s → Files T [] [] → (T.proc p).alive →
      wp (closeFiles sb M p fds) (fun _ s' => ∃ T', Bal p T' T'.uses o own lk s' ∧ Files T' [] [] ∧
        (T'.proc p).cwd = (T.proc p).cwd ∧ (T'.proc p).alive ∧
        (∀ fd, (T.proc p).ofile fd = none → (T'.proc p).ofile fd = none) ∧
        ∀ fd ∈ fds, (T'.proc p).ofile fd = none) (fun e _ => E e) s
  | [], T, s, h, hf, ha => (wp_pure _).2 ⟨T, h, hf, rfl, ha, fun _ hn => hn, nofun⟩
  | fd :: fds, T, s, h, hf, ha => by
    rw [closeFiles, wp_bind, wp_get, h.proc]
    cases hd : (T.proc p).ofile fd with
    | none =>
      refine wp_mono (closeFiles_spec fds h hf ha) (fun _ s₁ h₁ => ?_) fun _ _ he => he
      obtain ⟨T', h₁, hf₁, hcwd, ha₁, hkeep, hall⟩ := h₁
      refine ⟨T', h₁, hf₁, hcwd, ha₁, hkeep, fun x hx => ?_⟩
      rcases List.mem_cons.1 hx with rfl | hx
      · exact hkeep x hd
      · exact hall x hx
    | some f =>
      refine wp_seq (h.fileclose sb M hE (hf.ref_pos hd)) fun _ s₁ h₁ => ?_
      refine wp_seq (h₁.setFd p fd none) fun _ s₂ h₂ => ?_
      rw [T.close_setFd f p fd none] at h₂
      have hf₂ := (hf.clear ha hd).close
      have hproc : ((T.setFd p fd none).close f).proc = (T.setFd p fd none).proc :=
        (T.setFd p fd none).close_proc f
      have ha₂ : (((T.setFd p fd none).close f).proc p).alive := by
        rw [hproc]
        exact T.setFd_alive ha fd none
      have hgone : (((T.setFd p fd none).close f).proc p).ofile fd = none := by
        rw [hproc]
        exact T.setFd_self p fd none
      refine wp_mono (closeFiles_spec fds h₂ hf₂ ha₂) (fun _ s₃ h₃ => ?_) fun _ _ he => he
      obtain ⟨T', h₃, hf₃, hcwd, ha₃, hkeep, hall⟩ := h₃
      refine ⟨T', h₃, hf₃, hcwd.trans ?_, ha₃, fun x hx => ?_, fun x hx => ?_⟩
      · rw [hproc]
        exact T.setFd_cwd p fd none
      · by_cases hxf : x = fd
        · rw [hxf]
          exact hkeep fd hgone
        · refine hkeep x ?_
          rw [hproc]
          exact (T.setFd_of_ne p hxf none).trans hx
      · rcases List.mem_cons.1 hx with rfl | hx
        · exact hkeep x hgone
        · exact hall x hx

theorem exit_done (h : Bal p T T.uses o [] [] s) (hf : Files T [] []) (ha : (T.proc p).alive) :
    wp (exit sb M p) (fun _ s' => Done p o s') (fun e _ => E e) s := by
  rw [exit, wp_bind, wp_get, wp_ite]
  split
  · rw [wp_panic]
    exact hE _ (quiet_panic (by simp) (by simp) (by simp))
  · refine wp_seq (closeFiles_spec sb M hE _ h hf ha) fun _ s₁ h₁ => ?_
    obtain ⟨T₁, h₁, hf₁, hcwd, ha₁, -, hall⟩ := h₁
    refine wp_seq (h₁.beginOp hE) fun _ s₂ h₂ => ?_
    refine wp_seq (h₂.deref hE _) fun c s₃ h₃ => ?_
    obtain ⟨hc, h₃⟩ := h₃
    rw [h.proc, ← hcwd] at hc
    refine wp_seq ((h₃.leave hc).iput hE sb) fun _ s₄ h₄ => ?_
    refine wp_seq h₄.endOp fun _ s₅ h₅ => ?_
    refine wp_seq (h₅.modifyProc p (fun x => { x with cwd := none }) fun _ => rfl)
      fun _ s₆ h₆ => ?_
    have h₆ : Bal p (T₁.setCwd p none) (T₁.setCwd p none).uses o [] [] s₆ := h₆
    refine wp_seq (h₆.setState p .zombie) fun _ s₇ h₇ => (wp_pure _).2 (h₇.done ?_)
    refine (hf₁.setCwd ha₁ none).setProc (fun _ => rfl) fun _ => ⟨fun fd => ?_, ?_⟩
    · show ((T₁.setCwd p none).proc p).ofile fd = none
      rw [Tables.setCwd, T₁.setProc_self]
      exact hall fd (List.mem_finRange fd)
    · show ((T₁.setCwd p none).proc p).cwd = none
      rw [Tables.setCwd, T₁.setProc_self]

theorem reap_done (h : Bal p T T.uses o [] [] s) (hf : Files T [] []) (pp : Fin NPROC) :
    wp (reap M pp) (fun _ s' => Done p o s') (fun e _ => E e) s := by
  rw [reap, wp_bind, wp_get, wp_ite, h.proc]
  split
  · next hz =>
    refine (keeps_onMem _).then hE h fun _ s₁ h₁ => ?_
    refine wp_seq (h₁.setState pp .unused) fun _ s₂ h₂ => (wp_pure _).2 (h₂.done ?_)
    exact hf.setProc (fun _ => rfl) fun _ => hf.dead pp fun hal => hal.2 hz
  · exact (wp_pure _).2 (h.done hf)

/-! ## Any call -/

omit hE in
/-- How many inodes beside those in use a call may hold when it looks for one more. -/
def Call.room : Call → Option Nat
  | .open _ omode => if omode &&& O_CREATE ≠ 0 then some 2 else some 1
  | .link _ _ | .mkdir _ | .mknod _ _ _ => some 2
  | .unlink _ | .chdir _ | .exec _ _ => some 1
  | _ => none

theorem Call.done (c : Call) (h : Bal p T T.uses o [] [] s) (hf : Files T [] [])
    (ha : (T.proc p).alive) (hroom : ∀ n, c.room = some n → Room E T.uses n) :
    wp (c.run sb M p) (fun _ s' => Done p o s') (fun e _ => E e) s := by
  cases c with
  | «open» path omode =>
    have hroom1 : Room E T.uses 1 := by
      by_cases hc : omode &&& O_CREATE ≠ 0
      · exact (hroom 2 (if_pos hc)).mono (by decide)
      · exact hroom 1 (if_neg hc)
    exact argstr_done M hE h hf path fun path s₁ h₁ =>
      openPath_done sb M hE h₁ hf ha hroom1 (fun hc => hroom 2 (if_pos hc)) path
  | close fd => exact sysClose_done sb M hE h hf ha fd
  | dup fd => exact sysDup_done h hf ha fd
  | pipe fdarray => exact sysPipe_done sb M hE h hf ha fdarray
  | read fd addr n => exact sysRead_done sb M hE h hf fd addr n
  | write fd addr n => exact sysWrite_done sb M hE h hf fd addr n
  | fstat fd st => exact sysFstat_done sb M hE h hf fd st
  | link old new =>
    exact argstr_done M hE h hf old fun old s₁ h₁ =>
      argstr_done M hE h₁ hf new fun new s₂ h₂ => link_done sb M hE h₂ hf (hroom 2 rfl) old new
  | unlink path =>
    exact argstr_done M hE h hf path fun path s₁ h₁ =>
      unlink_done sb M hE h₁ hf (hroom 1 rfl) path
  | mkdir path => exact makeNode_done sb M hE h hf (hroom 2 rfl) path _ _ _
  | mknod path major minor => exact makeNode_done sb M hE h hf (hroom 2 rfl) path _ _ _
  | chdir path => exact sysChdir_done sb M hE h hf ha (hroom 1 rfl) path
  | exec path uargv => exact sysExec_done sb M hE h hf (hroom 1 rfl) path uargv
  | fork => exact fork_done M hE h hf ha
  | exit => exact exit_done sb M hE h hf ha
  | wait pp => exact reap_done M hE h hf pp

end

/-- Between calls the account is nobody's. -/
theorem Done.anyone (h : Done p o s) (q : Fin NPROC) : Done q o s := by
  obtain ⟨T, h, hf⟩ := h
  refine ⟨T, ⟨h.tables, h.outstanding, h.unique, h.ref, fun i => ?_, h.nodup⟩, hf⟩
  rw [h.lock i, if_neg List.not_mem_nil, if_neg List.not_mem_nil]

/-- The tables after boot. -/
def bootTables : Tables where
  file := fun _ => File.blank
  proc := Function.update (fun _ => Proc.blank) ⟨0, nproc_pos⟩
    { Proc.blank with state := .runnable, cwd := some ⟨0, ninode_pos⟩ }
  initproc := ⟨0, nproc_pos⟩
  events := []

theorem bootTables_uses (i : Fin NINODE) :
    bootTables.uses i = if i = ⟨0, by decide⟩ then 1 else 0 := by
  have hfile : total (fun x => File.points x i) bootTables.file = 0 :=
    total_eq_zero fun _ => points_of_none rfl i
  have hproc := total_update (fun x => Proc.stands x i) (fun _ : Fin NPROC => Proc.blank)
    ⟨0, by decide⟩ { Proc.blank with state := .runnable, cwd := some ⟨0, ninode_pos⟩ }
  have hblank : total (fun x => Proc.stands x i) (fun _ : Fin NPROC => Proc.blank) = 0 :=
    total_eq_zero fun _ => rfl
  have h0 : Proc.stands Proc.blank i = 0 := rfl
  have h1 : Proc.stands { Proc.blank with state := .runnable, cwd := some ⟨0, ninode_pos⟩ } i =
      if i = ⟨0, by decide⟩ then 1 else 0 :=
    if_congr (by rw [Option.some.injEq, eq_comm]) rfl rfl
  have huses : bootTables.uses i = total (fun x => File.points x i) bootTables.file +
    total (fun x => Proc.stands x i) (Function.update (fun _ : Fin NPROC => Proc.blank)
      ⟨0, by decide⟩ { Proc.blank with state := .runnable, cwd := some ⟨0, ninode_pos⟩ }) := rfl
  rw [huses, ← h1]
  omega

theorem bootTables_proc {q : Fin NPROC} (hq : q ≠ ⟨0, by decide⟩) :
    bootTables.proc q = Proc.blank :=
  Function.update_of_ne (f := fun _ => Proc.blank) hq _

theorem bootTables_ofile (q : Fin NPROC) (fd : Fin NOFILE) :
    (bootTables.proc q).ofile fd = none := by
  by_cases hq : q = ⟨0, by decide⟩
  · rw [hq]
    rfl
  · rw [bootTables_proc hq]
    rfl

theorem boot_itable (disk : Nat → Block) (mem : μ) {i : Fin NINODE} (hi : i ≠ ⟨0, by decide⟩) :
    (boot disk mem).itable i = Inode.blank :=
  Function.update_of_ne (f := fun _ => Inode.blank) hi _

theorem boot_done (disk : Nat → Block) (mem : μ) (p : Fin NPROC) : Done p 0 (boot disk mem) := by
  have href : ∀ i, ((boot disk mem).itable i).ref = if i = ⟨0, by decide⟩ then 1 else 0 := by
    intro i
    by_cases hi : i = ⟨0, by decide⟩
    · rw [hi]
      rfl
    · rw [boot_itable disk mem hi, if_neg hi]
      rfl
  have hzero : ∀ i, 0 < ((boot disk mem).itable i).ref → i = ⟨0, by decide⟩ := by
    intro i hi
    by_contra hne
    rw [href i, if_neg hne] at hi
    exact absurd hi (by decide)
  refine ⟨bootTables, ⟨rfl, rfl, fun i j hi hj _ _ => ?_, fun i => ?_, fun i => ?_, List.nodup_nil⟩,
    ⟨fun f => ?_, fun f _ => rfl, fun f => ?_, fun f h0 => absurd rfl h0, fun q hq => ?_⟩⟩
  · rw [hzero i hi, hzero j hj]
  · rw [href i, bootTables_uses, List.count_nil]
    split <;> rfl
  · rw [if_neg List.not_mem_nil]
    by_cases hi : i = ⟨0, by decide⟩
    · rw [hi]
      rfl
    · rw [boot_itable disk mem hi]
      rfl
  · have hslots : bootTables.slots f = 0 := total_eq_zero fun q => total_eq_zero fun fd => by
      rw [bootTables_ofile, hold_none]
    rw [hslots]
    rfl
  · exact Paired.nil
  · refine ⟨bootTables_ofile q, ?_⟩
    have hne : q ≠ ⟨0, by decide⟩ := fun he => hq (by rw [he]; exact ⟨nofun, nofun⟩)
    rw [bootTables_proc hne]
    rfl

theorem Reach.done {disk : Nat → Block} {mem : μ} (h : Reach sb M disk mem s) (q : Fin NPROC) :
    Done q 0 s := by
  induction h generalizing q with
  | boot => exact boot_done disk mem q
  | @call s s' p c r _ ha hc ih =>
    obtain ⟨T, h, hf⟩ := ih p
    have ha' : (T.proc p).alive := by
      rw [← h.proc]
      exact ha
    have hwp := Call.done (E := fun _ => True) sb M (fun _ _ => trivial) c h hf ha'
      fun n _ => .inl trivial
    exact (hwp.ok hc).anyone q

/-- The references to an inode from open files and current directories, counted. -/
theorem uses_eq_card (T : Tables) (i : Fin NINODE) : T.uses i =
    (Finset.univ.filter fun f => 0 < (T.file f).ref ∧
      ((T.file f).type = .inode ∨ (T.file f).type = .device) ∧ (T.file f).ip = some i).card +
    (Finset.univ.filter fun q => (T.proc q).cwd = some i).card := by
  rw [Finset.card_filter, Finset.card_filter]
  rfl

/-- The descriptors that point to a file, counted. -/
theorem slots_eq_card (T : Tables) (f : Fin NFILE) : T.slots f =
    (Finset.univ.filter fun x : Fin NPROC × Fin NOFILE =>
      (T.proc x.1).ofile x.2 = some f).card := by
  rw [Finset.card_filter, Fintype.sum_prod_type]
  rfl

/-- **File system calls are balanced.**  When a live process has completed a call in any state
between calls, successfully or not: `log.outstanding` is what it was; the process holds the lock of
no inode; no inode of a device is twice in the table; and the reference count of each entry is the
number of open files and of current directories that point to it. -/
theorem calls_balanced {disk : Nat → Block} {mem : μ} {c : Call} {r : Int}
    (hr : Reach sb M disk mem s) (ha : (s.proc p).alive) (hc : c.run sb M p s = .ok r s') :
    s'.outstanding = s.outstanding ∧ (∀ i, (s'.itable i).lock ≠ some p) ∧
      (∀ i j, 0 < (s'.itable i).ref → 0 < (s'.itable j).ref →
        (s'.itable i).dev = (s'.itable j).dev → (s'.itable i).inum = (s'.itable j).inum → i = j) ∧
      ∀ i, (s'.itable i).ref =
        ((Finset.univ.filter fun f => 0 < (s'.file f).ref ∧
            ((s'.file f).type = .inode ∨ (s'.file f).type = .device) ∧
            (s'.file f).ip = some i).card +
          (Finset.univ.filter fun q => (s'.proc q).cwd = some i).card : Nat) := by
  obtain ⟨T, h, -⟩ := hr.done sb M p
  obtain ⟨T', h', -⟩ := (Reach.call hr ha hc).done sb M p
  refine ⟨h'.outstanding.trans h.outstanding.symm, fun i hl => ?_, h'.unique, fun i => ?_⟩
  · rw [h'.lock i, if_neg List.not_mem_nil] at hl
    cases hl
  · rw [h'.ref i, List.count_nil, Nat.add_zero, uses_eq_card, h'.file, h'.proc]

/-- A memory in which only `fork` succeeds. -/
def forkMemory : Memory Unit where
  copyout := fun _ _ _ _ => pure (-1)
  copyin := fun _ b _ _ => pure (-1, b)
  fetchstr := fun _ _ _ => pure none
  newpipe := pure 0
  pipeclose := fun _ _ => pure ()
  piperead := fun _ _ _ _ => pure (-1)
  pipewrite := fun _ _ _ _ => pure (-1)
  devread := fun _ => none
  devwrite := fun _ => none
  fork := fun _ _ => pure (some 2)
  freeproc := fun _ => pure ()
  procPagetable := fun _ => pure 0
  procFreepagetable := fun _ _ => pure ()
  uvmalloc := fun _ _ _ _ => pure 0
  walkaddr := fun _ _ => pure 0
  store := fun _ _ _ => pure ()
  execTail := fun _ _ _ _ _ _ => pure (-1)
  fetchArgs := fun _ _ => pure (false, [])
  freeArgs := fun _ => pure ()

/-- The superblock that `mkfs` writes. -/
def mkfsSuperblock : Superblock where
  magic := 0x10203040
  size := 2000
  nblocks := 1954
  ninodes := 200
  nlog := 30
  logstart := 2
  inodestart := 32
  bmapstart := 45

theorem boot_alive (disk : Nat → Block) (mem : μ) :
    ((boot disk mem).proc ⟨0, by decide⟩).alive := by
  have hst : ((boot disk mem).proc ⟨0, by decide⟩).state = .runnable := rfl
  rw [Proc.alive, hst]
  exact ⟨nofun, nofun⟩

theorem fork_boot : ∃ s' : State Unit, Call.fork.run mkfsSuperblock forkMemory ⟨0, by decide⟩
    (boot (fun _ _ => 0) ()) = .ok 2 s' :=
  ⟨_, rfl⟩

theorem calls_balanced_fork : ∃ s' : State Unit, Call.fork.run mkfsSuperblock forkMemory
    ⟨0, by decide⟩ (boot (fun _ _ => 0) ()) = .ok 2 s' ∧ s'.outstanding = 0 := by
  obtain ⟨s', hs⟩ := fork_boot
  exact ⟨s', hs, (calls_balanced mkfsSuperblock forkMemory .boot (boot_alive _ _) hs).1⟩

end Xv6.Fs
