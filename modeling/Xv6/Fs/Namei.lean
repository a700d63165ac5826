import Xv6.Fs.Directory

/-!
# Path resolution

`namex` walks along a path, with one loop for `namei` and `nameiparent`.  What it is for is a search
in a graph: the nodes are the inodes, `child` is the edge of a directory for a name, and a path is
the list of its `components`.  `resolve` follows all of them, `resolveParent` all but the last.

The walk takes a reference to each inode that it comes to and gives it back when it has found the
next; it never changes what the inodes and directories are.  `Walked` says so of each state on the
way.  There are two ways for it to end in a panic, and `Stuck` describes them: a name that leads to
an inode that has been freed, and an inode for which the table has no entry left.
-/

set_option autoImplicit false

namespace Xv6

/-- Code that returns what it should except on a condition, when it panics. -/
theorem wp.returns_iff {σ α : Type} {m : Kern σ α} {s : σ} {B : Prop} {P : α → σ → Prop}
    {E : Halt → Prop} (h : wp m (fun a t => ¬ B ∧ P a t) (fun e _ => B ∧ E e) s) :
    (∃ a t, m s = .ok a t ∧ P a t) ↔ ¬ B := by
  cases hm : m s with
  | ok a t =>
    obtain ⟨h1, h2⟩ := h.ok hm
    exact ⟨fun _ => h1, fun _ => ⟨a, t, rfl, h2⟩⟩
  | error e t =>
    obtain ⟨h1, -⟩ := h.error hm
    exact ⟨fun ⟨_, _, hx, _⟩ => (by cases hx), fun hx => absurd h1 hx⟩

namespace Fs

/-! ## The elements of a path -/

/-- The elements of a path: what there is between slashes, without the empty ones, each cut to
`DIRSIZ` bytes. -/
def components (path : List UInt8) : List (List UInt8) :=
  ((path.splitOn SLASH).filter (· ≠ [])).map (List.take DIRSIZ)

theorem components_slash (path : List UInt8) : components (SLASH :: path) = components path := by
  rw [components, List.splitOn, List.splitOnP_cons_eq_if_modifyHead, if_pos (beq_self_eq_true _)]
  rfl

theorem components_dropWhile (path : List UInt8) :
    components (path.dropWhile (· == SLASH)) = components path := by
  induction path with
  | nil => rfl
  | cons a path ih =>
    by_cases ha : a = SLASH
    · rw [ha, List.dropWhile_cons_of_pos (by exact beq_self_eq_true SLASH), components_slash, ih]
    · rw [List.dropWhile_cons_of_neg (by simpa using ha)]

/-- What is dropped ends where the test fails. -/
theorem head_of_dropWhile {test : UInt8 → Bool} {l q : List UInt8} {b : UInt8}
    (h : l.dropWhile test = b :: q) : test b = false := by
  have hne : l.dropWhile test ≠ [] := by
    rw [h]
    exact List.cons_ne_nil b q
  have hnot := List.head_dropWhile_not test hne
  simpa only [h, List.head_cons] using hnot

/-- An element ends at the next slash, or with the path. -/
theorem components_cons {a : UInt8} (ha : a ≠ SLASH) (l : List UInt8) :
    components (a :: l) = ((a :: l).takeWhile (· != SLASH)).take DIRSIZ ::
      components ((a :: l).dropWhile (· != SLASH)) := by
  have hsplit := List.takeWhile_append_dropWhile (p := (· != SLASH)) (l := a :: l)
  have hword : ∀ x ∈ (a :: l).takeWhile (· != SLASH), (x == SLASH) = false := by
    intro x hx
    have hne := List.mem_takeWhile_imp hx
    rwa [bne, Bool.not_eq_true'] at hne
  have hne : (a :: l).takeWhile (· != SLASH) ≠ [] := by
    rw [List.takeWhile_cons_of_pos (by simpa using ha)]
    exact List.cons_ne_nil _ _
  have hfirst : ∀ rest : List (List UInt8),
      ((((a :: l).takeWhile (· != SLASH)) :: rest).filter (· ≠ [])).map (List.take DIRSIZ) =
        ((a :: l).takeWhile (· != SLASH)).take DIRSIZ ::
          (rest.filter (· ≠ [])).map (List.take DIRSIZ) := by
    intro rest
    rw [List.filter_cons_of_pos (by simpa using hne), List.map_cons]
  cases hq : (a :: l).dropWhile (· != SLASH) with
  | nil =>
    rw [hq, List.append_nil] at hsplit
    have hone : (a :: l).splitOn SLASH = [(a :: l).takeWhile (· != SLASH)] := by
      rw [List.splitOn, hsplit]
      exact List.splitOnP_eq_singleton (by rwa [hsplit] at hword)
    rw [components, hone, hfirst]
    rfl
  | cons b q =>
    have hb : b = SLASH := by simpa using head_of_dropWhile hq
    have htwo : (a :: l).splitOn SLASH = (a :: l).takeWhile (· != SLASH) :: q.splitOn SLASH := by
      rw [hq, hb] at hsplit
      nth_rewrite 1 [← hsplit]
      exact List.splitOnP_append_cons_of_forall_mem hword SLASH (beq_self_eq_true _) q
    rw [hb, components_slash, components, htwo, hfirst]
    rfl

/-- `skipelem` finds nothing if there are no elements. -/
theorem components_of_skipelem_none {path : List UInt8} (h : skipelem path = none) :
    components path = [] := by
  rw [← components_dropWhile]
  rw [skipelem] at h
  split at h
  · next hnil => rw [hnil]; rfl
  · cases h

/-- `skipelem` takes off the first element, and nothing is left only if it was the last. -/
theorem components_of_skipelem {path name rest : List UInt8} (h : skipelem path = some (name, rest)) :
    components path = name :: components rest ∧ (rest = [] ↔ components rest = []) := by
  rw [skipelem] at h
  split at h
  · cases h
  · next c l hcons =>
    have hc : c ≠ SLASH := by simpa using head_of_dropWhile hcons
    cases h
    refine ⟨?_, ?_⟩
    · rw [components_dropWhile, ← components_cons hc, ← hcons, components_dropWhile]
    · constructor
      · intro hnil
        rw [hnil]
        rfl
      · intro hnil
        by_contra hne
        obtain ⟨b, q, hq⟩ := List.exists_cons_of_ne_nil hne
        have hb : b ≠ SLASH := by simpa using head_of_dropWhile hq
        rw [hq, components_cons hb] at hnil
        cases hnil

/-! ## What a path stands for -/

section

variable {μ : Type} (sb : Superblock) (s : State μ)

/-- The inode that a directory has under a name. -/
def child (j : Nat) (name : List UInt8) : Option Nat :=
  if (s.dinode sb j).type = T_DIR then
    SlotMap.lookup (dirEntries s.disk (s.dinode sb j)) (nameKey name)
  else none

/-- The inode at the end of a path from inode `j`. -/
def resolve (j : Nat) (names : List (List UInt8)) : Option Nat := names.foldlM (child sb s) j

/-- The directory of the last element of a path from inode `j`, and that element. -/
def resolveParent (j : Nat) (names : List (List UInt8)) : Option (Nat × List UInt8) :=
  names.getLast?.bind fun name => (resolve sb s j names.dropLast).bind fun d =>
    if (s.dinode sb d).type = T_DIR then some (d, name) else none

/-- What `namex` looks for, in either mode. -/
def target (parent : Bool) (j : Nat) (names : List (List UInt8)) : Option (Nat × List UInt8) :=
  if parent then resolveParent sb s j names else (resolve sb s j names).map fun j => (j, [])

variable {sb s} {parent : Bool} {j : Nat} {name : List UInt8} {names : List (List UInt8)}

theorem resolve_cons :
    resolve sb s j (name :: names) = (child sb s j name).bind fun k => resolve sb s k names := by
  rw [resolve, List.foldlM_cons]
  rfl

/-- The last element is looked up in the parent. -/
theorem resolve_eq_parent (h : names ≠ []) : resolve sb s j names =
    (resolveParent sb s j names).bind fun d => child sb s d.1 d.2 := by
  obtain ⟨init, last, rfl⟩ : ∃ init last, names = init ++ [last] :=
    ⟨_, _, (List.dropLast_append_getLast h).symm⟩
  rw [resolve, List.foldlM_append, resolveParent, List.getLast?_append, List.dropLast_concat]
  show (resolve sb s j init).bind (fun d => (child sb s d last).bind some) = _
  cases resolve sb s j init with
  | none => rfl
  | some d =>
    show (child sb s d last).bind some = (if _ then _ else _ : Option _).bind _
    rw [Option.bind_fun_some]
    split
    · rfl
    · next hd => rw [child, if_neg hd]; rfl

theorem target_nil : target sb s parent j [] = if parent then none else some (j, []) := rfl

theorem target_cons (h : ¬ (parent ∧ names = [])) : target sb s parent j (name :: names) =
    (child sb s j name).bind fun k => target sb s parent k names := by
  cases parent with
  | false =>
    show (resolve sb s j (name :: names)).map _ = _
    rw [resolve_cons, Option.map_bind]
    rfl
  | true =>
    obtain ⟨a, l, rfl⟩ := List.exists_cons_of_ne_nil fun hnil => h ⟨rfl, hnil⟩
    show resolveParent sb s j (name :: a :: l) = _
    rw [resolveParent, List.getLast?_cons_cons, List.dropLast_cons_cons, resolve_cons]
    cases child sb s j name with
    | none =>
      show (Option.bind _ fun _ => none) = none
      cases (a :: l).getLast? <;> rfl
    | some k => rfl

theorem target_file (h : (s.dinode sb j).type ≠ T_DIR) :
    target sb s parent j (name :: names) = none := by
  have hchild : child sb s j name = none := if_neg h
  by_cases hlast : parent ∧ names = []
  · obtain ⟨rfl, rfl⟩ := hlast
    exact if_neg h
  · rw [target_cons hlast, hchild]
    rfl

theorem target_last (h : (s.dinode sb j).type = T_DIR) :
    target sb s true j [name] = some (j, name) :=
  if_pos h

end

/-! ## Locks and references -/

section

variable {μ : Type} {sb : Superblock} {s t t' : State μ} {p : Fin NPROC} {i : Fin NINODE}
  {own lk : List (Fin NINODE)}

/-- `ilock` of an inode that nobody has locked. -/
theorem ilock_spec {Q : Unit → State μ → Prop} {E : Halt → State μ → Prop}
    (href : 1 ≤ (s.itable i).ref) (hl : (s.itable i).lock = none)
    (hvalid : (s.itable i).valid → Q () (s.setInode i { s.itable i with lock := some p }))
    (hload : (s.itable i).valid = false → (diskInode sb s i).type ≠ 0 →
      Q () (s.setInode i ((s.itable i).loaded p (diskInode sb s i))))
    (hfree : ∀ s', (s.itable i).valid = false → (diskInode sb s i).type = 0 →
      E (.panic "ilock: no type") s') : wp (ilock sb p i) Q E s := by
  have hacq : acquiresleep p i s = .ok () (s.setInode i { s.itable i with lock := some p }) := by
    rw [acquiresleep, bind_of_ok (show getInode i s = .ok (s.itable i) s from rfl), hl]
    rfl
  by_cases hv : (s.itable i).valid = true
  · have hrun : ilock sb p i s = .ok () (s.setInode i { s.itable i with lock := some p }) := by
      rw [ilock, bind_of_ok (show getInode i s = .ok (s.itable i) s from rfl), if_neg (by omega),
        bind_of_ok hacq, hv]
      rfl
    exact (wp_of_ok hrun).2 (hvalid hv)
  · have hv : (s.itable i).valid = false := by simpa using hv
    by_cases ht : (diskInode sb s i).type = 0
    · have hrun := ilock_read sb p href hl hv
      rw [if_pos ht] at hrun
      exact (wp_of_error hrun).2 (hfree _ hv ht)
    · exact (wp_of_ok (ilock_load sb p href hl hv ht)).2 (hload hv ht)

/-- `iput` that does not free the inode. -/
theorem iput_keeps (h : 1 < (s.itable i).ref ∨ (s.itable i).valid = false ∨ (s.itable i).nlink ≠ 0) :
    iput sb p i s = .ok () (s.setInode i { s.itable i with ref := (s.itable i).ref - 1 }) := by
  have hno : ¬ ((s.itable i).ref = 1 ∧ (s.itable i).valid ∧ (s.itable i).nlink = 0) := by
    rintro ⟨h1, h2, h3⟩
    rcases h with h | h | h
    · omega
    · rw [h] at h2
      cases h2
    · exact h h3
  rw [iput, bind_of_ok (show getInode i s = .ok (s.itable i) s from rfl), if_neg hno]
  rfl

theorem iunlock_eq (hl : (s.itable i).lock = some p) (href : 1 ≤ (s.itable i).ref) :
    iunlock p i s = .ok () (s.setInode i { s.itable i with lock := none }) := by
  rw [iunlock, bind_of_ok (show getInode i s = .ok (s.itable i) s from rfl),
    if_neg fun h => h.elim (fun h => h hl) (by omega)]
  rfl

/-- `iunlockput` that does not free the inode. -/
theorem iunlockput_keeps (hl : (s.itable i).lock = some p) (href : 1 ≤ (s.itable i).ref)
    (h : 1 < (s.itable i).ref ∨ (s.itable i).valid = false ∨ (s.itable i).nlink ≠ 0) :
    iunlockput sb p i s = .ok ()
      (s.setInode i { s.itable i with lock := none, ref := (s.itable i).ref - 1 }) := by
  rw [iunlockput, bind_of_ok (iunlock_eq hl href), iput_keeps (by
    rw [State.setInode_self]
    exact h), State.setInode_self, State.setInode_setInode]

/-! ## The states of a walk -/

/-- A state on the walk that began in state `s`: the walk has a reference to each entry in `own`,
and holds the locks of those in `lk`.  Every copy of an inode in the table is what it was, or what
it was on the disk. -/
structure Walked (sb : Superblock) (s : State μ) (p : Fin NPROC) (own lk : List (Fin NINODE))
    (t : State μ) : Prop where
  state : t = { s with itable := t.itable }
  ref : ∀ k, (t.itable k).ref = (s.itable k).ref + own.count k
  lock : ∀ k, (t.itable k).lock = if k ∈ lk then some p else none
  dev : ∀ k, 0 < (t.itable k).ref → (t.itable k).dev = ROOTDEV
  inum : ∀ k, 0 < (t.itable k).ref → (t.itable k).inum < sb.ninodes
  unique : ∀ k k', 0 < (t.itable k).ref → 0 < (t.itable k').ref →
    (t.itable k).inum = (t.itable k').inum → k = k'
  view : ∀ k, 0 < (t.itable k).ref → (t.itable k).valid →
    (t.itable k).toDinode = s.dinode sb (t.itable k).inum ∧ (t.itable k).type ≠ 0
  held : ∀ k, 0 < (s.itable k).ref →
    (t.itable k).inum = (s.itable k).inum ∧ ((s.itable k).valid → (t.itable k).valid)

/-- The inode has an entry in the table. -/
def State.Holds (s : State μ) (j : Nat) : Prop := ∃ i, 0 < (s.itable i).ref ∧ (s.itable i).inum = j

/-- The inode is in a directory, or somebody uses it. -/
def Kept (sb : Superblock) (s : State μ) (j : Nat) : Prop :=
  (s.dinode sb j).nlink ≠ 0 ∨ s.Holds j

/-- A consistent file system, all on one device, with no inode locked and with references to the
current directories.  A directory that is kept has a whole number of entries, and what they name is
an inode that was freed, or one that is kept. -/
structure Walkable (sb : Superblock) (s : State μ) : Prop where
  consistent : Consistent sb s
  dev : ∀ i, 0 < (s.itable i).ref → (s.itable i).dev = ROOTDEV
  ref : ∀ i, 0 ≤ (s.itable i).ref
  lock : ∀ i, (s.itable i).lock = none
  cwd : ∀ p i, (s.proc p).cwd = some i → 0 < (s.itable i).ref
  root : ROOTINO < sb.ninodes ∧ Kept sb s ROOTINO
  dirs : ∀ j, j < sb.ninodes → Kept sb s j → (s.dinode sb j).type = T_DIR →
    (s.dinode sb j).size % 16 = 0 ∧
      ∀ k name ino, SlotMap.At (dirEntries s.disk (s.dinode sb j)) k name ino →
        ino < sb.ninodes ∧ ((s.dinode sb ino).type = 0 ∨ Kept sb s ino)

theorem Walkable.walked (h : Walkable sb s) (p : Fin NPROC) : Walked sb s p [] [] s where
  state := rfl
  ref k := (Int.add_zero _).symm
  lock k := (h.lock k).trans (if_neg List.not_mem_nil).symm
  dev := h.dev
  inum := h.consistent.inum
  unique := h.consistent.unique
  view k href hv := ⟨(h.consistent.dinode href hv).symm, h.consistent.live k href hv⟩
  held k _ := ⟨rfl, id⟩

theorem Walked.disk (h : Walked sb s p own lk t) : t.disk = s.disk := by rw [h.state]

/-- Entries that are in use at the start stay in use. -/
theorem Walked.pos (h : Walked sb s p own lk t) {k : Fin NINODE} (hk : 0 < (s.itable k).ref) :
    0 < (t.itable k).ref := by
  rw [h.ref k]
  omega

/-- The inodes are what they were. -/
theorem Walked.dinode (h : Walked sb s p own lk t) : t.dinode sb = s.dinode sb := by
  funext j
  rw [State.dinode]
  cases he : t.entry j with
  | some k =>
    obtain ⟨h1, h2, h3⟩ := State.entry_some he
    show (t.itable k).toDinode = _
    rw [(h.view k h1 h2).1, h3]
  | none =>
    have hs : s.entry j = none := by
      refine List.find?_eq_none.2 fun k hk hin => ?_
      obtain ⟨h1, h2, h3⟩ := of_decide_eq_true hin
      obtain ⟨hinum, hvalid⟩ := h.held k h1
      exact List.find?_eq_none.1 he k hk (decide_eq_true ⟨h.pos h1, hvalid h2, hinum.trans h3⟩)
    rw [State.dinode, hs, h.disk]

theorem Walked.consistent (h : Walked sb s p own lk t) (hs : Walkable sb s) : Consistent sb t where
  layout := hs.consistent.layout
  unique := h.unique
  inum := h.inum
  live k href hv := (h.view k href hv).2
  blocks := by
    rw [h.dinode, h.disk]
    exact hs.consistent.blocks

/-- A step of the walk changes one entry. -/
theorem Walked.set (h : Walked sb s p own lk t) {x : Inode} {own' lk' : List (Fin NINODE)}
    (href : x.ref = (s.itable i).ref + own'.count i) (hcount : ∀ k, k ≠ i → own'.count k = own.count k)
    (hlock : x.lock = if i ∈ lk' then some p else none) (hlk : ∀ k, k ≠ i → (k ∈ lk' ↔ k ∈ lk))
    (hdev : 0 < x.ref → x.dev = ROOTDEV) (hinum : 0 < x.ref → x.inum < sb.ninodes)
    (huniq : 0 < x.ref → ∀ k, k ≠ i → 0 < (t.itable k).ref → (t.itable k).inum ≠ x.inum)
    (hview : 0 < x.ref → x.valid → x.toDinode = s.dinode sb x.inum ∧ x.type ≠ 0)
    (hheld : 0 < (s.itable i).ref → x.inum = (s.itable i).inum ∧ ((s.itable i).valid → x.valid)) :
    Walked sb s p own' lk' (t.setInode i x) where
  state := by
    rw [h.state]
    rfl
  ref k := by
    by_cases hk : k = i
    · rw [hk, State.setInode_self, href]
    · rw [State.setInode_of_ne _ hk, h.ref k, hcount k hk]
  lock k := by
    by_cases hk : k = i
    · rw [hk, State.setInode_self, hlock]
    · rw [State.setInode_of_ne _ hk, h.lock k, if_congr (hlk k hk).symm rfl rfl]
  dev k := by
    by_cases hk : k = i
    · rw [hk, State.setInode_self]
      exact hdev
    · rw [State.setInode_of_ne _ hk]
      exact h.dev k
  inum k := by
    by_cases hk : k = i
    · rw [hk, State.setInode_self]
      exact hinum
    · rw [State.setInode_of_ne _ hk]
      exact h.inum k
  unique k k' := by
    by_cases hk : k = i <;> by_cases hk' : k' = i
    · exact fun _ _ _ => hk.trans hk'.symm
    · rw [hk, State.setInode_self, State.setInode_of_ne _ hk']
      exact fun h1 h2 heq => absurd heq.symm (huniq h1 k' hk' h2)
    · rw [hk', State.setInode_self, State.setInode_of_ne _ hk]
      exact fun h1 h2 heq => absurd heq (huniq h2 k hk h1)
    · rw [State.setInode_of_ne _ hk, State.setInode_of_ne _ hk']
      exact h.unique k k'
  view k := by
    by_cases hk : k = i
    · rw [hk, State.setInode_self]
      exact hview
    · rw [State.setInode_of_ne _ hk]
      exact h.view k
  held k := by
    by_cases hk : k = i
    · rw [hk, State.setInode_self]
      exact hheld
    · rw [State.setInode_of_ne _ hk]
      exact h.held k

/-- Another reference, from `iget`. -/
theorem Walked.got (h : Walked sb s p own lk t) (hs : Walkable sb s) {ino : Nat}
    (hino : ino < sb.ninodes) (hgot : Got ROOTDEV ino t i t') : Walked sb s p (i :: own) lk t' := by
  have hcount : ∀ k, k ≠ i → (i :: own).count k = own.count k :=
    fun k hk => List.count_cons_of_ne (fun heq => hk heq.symm)
  have hself : (i :: own).count i = own.count i + 1 := List.count_cons_self
  have hi := h.ref i
  have h0 := hs.ref i
  cases hgot with
  | found href hdev hinum =>
    refine h.set ?_ hcount (h.lock i) (fun _ _ => Iff.rfl) (fun _ => h.dev i href)
      (fun _ => h.inum i href) (fun _ k hk hpos heq => hk (h.unique k i hpos href heq))
      (fun _ hv => h.view i href hv) (h.held i)
    show (t.itable i).ref + 1 = _
    omega
  | fresh href hnone =>
    refine h.set ?_ hcount (h.lock i) (fun _ _ => Iff.rfl) (fun _ => rfl) (fun _ => hino)
      (fun _ k hk hpos heq => hnone k ⟨hpos, h.dev k hpos, heq⟩) (fun _ hv => ?_) fun hpos => ?_
    · show (1 : Int) = _
      omega
    · cases hv
    · omega

/-- The inode that the walk has come to is locked and read. -/
theorem Walked.ilock {j : Nat} (h : Walked sb s p own [] t) (hi : i ∈ own) (hs : Walkable sb s)
    (hj : (t.itable i).inum = j) :
    wp (ilock sb p i) (fun _ t' => (s.dinode sb j).type ≠ 0 ∧ Walked sb s p own [i] t' ∧
        (t'.itable i).inum = j ∧ (t'.itable i).valid = true)
      (fun e _ => (s.dinode sb j).type = 0 ∧ e = .panic "ilock: no type") t := by
  have hcount : 0 < own.count i := List.count_pos_iff.2 hi
  have hri := h.ref i
  have h0 := hs.ref i
  have hpos : 0 < (t.itable i).ref := by omega
  have hlk : ∀ k, k ≠ i → (k ∈ [i] ↔ k ∈ ([] : List (Fin NINODE))) := fun k hk =>
    ⟨fun hmem => absurd (List.mem_singleton.1 hmem) hk, fun hmem => absurd hmem List.not_mem_nil⟩
  have huniq : ∀ k, k ≠ i → 0 < (t.itable k).ref → (t.itable k).inum ≠ (t.itable i).inum :=
    fun k hk hk0 heq => hk (h.unique k i hk0 hpos heq)
  have hdisk : (t.itable i).valid = false → diskInode sb t i = s.dinode sb j := by
    intro hv
    have hnone : t.entry j = none := by
      refine List.find?_eq_none.2 fun k _ hin => ?_
      obtain ⟨h1, h2, h3⟩ := of_decide_eq_true hin
      rw [h.unique k i h1 hpos (h3.trans hj.symm), hv] at h2
      cases h2
    rw [← h.dinode, State.dinode, hnone, diskInode, hj]
  refine ilock_spec (by omega) ((h.lock i).trans (if_neg List.not_mem_nil)) (fun hv => ?_)
    (fun hv ht => ?_) fun s' hv ht => ?_
  · obtain ⟨hview, htype⟩ := h.view i hpos hv
    refine ⟨?_, h.set hri (fun _ _ => rfl) (if_pos (List.mem_singleton.2 rfl)).symm hlk
      (fun _ => h.dev i hpos) (fun _ => h.inum i hpos) (fun _ => huniq) (fun _ => h.view i hpos)
      (h.held i), ?_, ?_⟩
    · rw [← hj, ← hview]
      exact htype
    · rw [State.setInode_self]
      exact hj
    · rw [State.setInode_self]
      exact hv
  · rw [hdisk hv] at ht ⊢
    refine ⟨ht, h.set hri (fun _ _ => rfl) (if_pos (List.mem_singleton.2 rfl)).symm hlk
      (fun _ => h.dev i hpos) (fun _ => h.inum i hpos) (fun _ => huniq) (fun _ _ => ?_)
      (fun hk => ⟨(h.held i hk).1, fun _ => rfl⟩), ?_, ?_⟩
    · exact ⟨congrArg (s.dinode sb) hj.symm, ht⟩
    · rw [State.setInode_self]
      exact hj
    · rw [State.setInode_self]
      rfl
  · rw [hdisk hv] at ht
    exact ⟨ht, rfl⟩

theorem Walked.perm {own' : List (Fin NINODE)} (h : Walked sb s p own lk t) (hp : own.Perm own') :
    Walked sb s p own' lk t :=
  { h with ref := fun k => by rw [h.ref k, hp.count_eq] }

/-- The walk never frees an inode that is kept. -/
theorem Walked.keeps {j : Nat} (h : Walked sb s p (i :: own) lk t) (hs : Walkable sb s)
    (hj : (t.itable i).inum = j) (hk : (s.dinode sb j).type = 0 ∨ Kept sb s j) :
    1 ≤ (t.itable i).ref ∧
      (1 < (t.itable i).ref ∨ (t.itable i).valid = false ∨ (t.itable i).nlink ≠ 0) := by
  have hri := h.ref i
  have h0 := hs.ref i
  rw [List.count_cons_self] at hri
  refine ⟨by omega, ?_⟩
  by_cases hv : (t.itable i).valid = true
  · obtain ⟨hview, htype⟩ := h.view i (by omega) hv
    rw [hj] at hview
    rcases hk with hfree | hlink | ⟨k, hk0, hkj⟩
    · exact absurd (hview ▸ hfree) htype
    · rw [← hview] at hlink
      exact .inr (.inr hlink)
    · have hki : k = i :=
        h.unique k i (h.pos hk0) (by omega) (((h.held k hk0).1.trans hkj).trans hj.symm)
      rw [hki] at hk0
      exact .inl (by omega)
  · exact .inr (.inl (by simpa using hv))

/-- A reference is given back. -/
theorem Walked.drop {x : Inode} {lk' : List (Fin NINODE)} (h : Walked sb s p (i :: own) lk t)
    (hx : x = { t.itable i with ref := (t.itable i).ref - 1, lock := x.lock })
    (hlock : x.lock = if i ∈ lk' then some p else none) (hlk : ∀ k, k ≠ i → (k ∈ lk' ↔ k ∈ lk)) :
    Walked sb s p own lk' (t.setInode i x) := by
  have hri := h.ref i
  rw [List.count_cons_self] at hri
  have hxr : x.ref = (t.itable i).ref - 1 := by rw [hx]
  have hpos : 0 < x.ref → 0 < (t.itable i).ref := by omega
  refine h.set (by omega) (fun k hk => (List.count_cons_of_ne fun heq => hk heq.symm).symm) hlock hlk
    (fun hr => ?_) (fun hr => ?_) (fun hr k hk hk0 heq => ?_) (fun hr hv => ?_) fun hr => ?_
  · rw [hx]
    exact h.dev i (hpos hr)
  · rw [hx]
    exact h.inum i (hpos hr)
  · rw [hx] at heq
    exact hk (h.unique k i hk0 (hpos hr) heq)
  · rw [hx] at hv ⊢
    exact h.view i (hpos hr) hv
  · rw [hx]
    exact h.held i hr

theorem Walked.iput {j : Nat} (h : Walked sb s p (i :: own) [] t) (hs : Walkable sb s)
    (hj : (t.itable i).inum = j) (hk : (s.dinode sb j).type = 0 ∨ Kept sb s j) :
    ∃ t', iput sb p i t = .ok () t' ∧ Walked sb s p own [] t' :=
  ⟨_, iput_keeps (h.keeps hs hj hk).2, h.drop rfl (h.lock i) fun _ _ => Iff.rfl⟩

theorem Walked.iunlockput {j : Nat} (h : Walked sb s p (i :: own) [i] t) (hs : Walkable sb s)
    (hj : (t.itable i).inum = j) (hk : (s.dinode sb j).type = 0 ∨ Kept sb s j) :
    ∃ t', iunlockput sb p i t = .ok () t' ∧ Walked sb s p own [] t' ∧
      ∀ k, (t'.itable k).inum = (t.itable k).inum := by
  obtain ⟨h1, h2⟩ := h.keeps hs hj hk
  refine ⟨_, iunlockput_keeps ((h.lock i).trans (if_pos (List.mem_singleton.2 rfl))) h1 h2,
    h.drop rfl (if_neg List.not_mem_nil).symm fun k hk =>
      ⟨fun hmem => absurd hmem List.not_mem_nil, fun hmem => absurd (List.mem_singleton.1 hmem) hk⟩,
    fun k => ?_⟩
  by_cases hki : k = i
  · rw [hki, State.setInode_self]
  · rw [State.setInode_of_ne _ hki]

theorem Walked.iunlock (h : Walked sb s p own [i] t) (hi : i ∈ own) (hs : Walkable sb s) :
    ∃ t', iunlock p i t = .ok () t' ∧ Walked sb s p own [] t' ∧
      (t'.itable i).inum = (t.itable i).inum ∧ (t'.itable i).valid = (t.itable i).valid := by
  have hcount : 0 < own.count i := List.count_pos_iff.2 hi
  have hri := h.ref i
  have h0 := hs.ref i
  have hpos : 0 < (t.itable i).ref := by omega
  refine ⟨_, iunlock_eq ((h.lock i).trans (if_pos (List.mem_singleton.2 rfl))) (by omega),
    h.set hri (fun _ _ => rfl) (if_neg List.not_mem_nil).symm (fun k hk => ?_)
      (fun _ => h.dev i hpos) (fun _ => h.inum i hpos)
      (fun _ k hk hk0 heq => hk (h.unique k i hk0 hpos heq)) (fun _ => h.view i hpos) (h.held i),
    by rw [State.setInode_self], by rw [State.setInode_self]⟩
  exact ⟨fun hmem => absurd hmem List.not_mem_nil, fun hmem => absurd (List.mem_singleton.1 hmem) hk⟩

/-! ## Room in the table -/

/-- The entries of the table that are not in use. -/
def State.unused (s : State μ) : Nat :=
  (Finset.univ.filter fun i => (s.itable i).ref = 0).card

theorem State.unused_eq_zero : s.unused = 0 ↔ ∀ i, (s.itable i).ref ≠ 0 := by
  rw [State.unused, Finset.card_eq_zero, Finset.filter_eq_empty_iff]
  exact ⟨fun h i => h (Finset.mem_univ i), fun h i _ => h i⟩

/-- The table has no entry for inode `ino` while the walk has a reference to inode `j`. -/
def NoEntry (s : State μ) (j ino : Nat) : Prop :=
  ino ≠ j ∧ ¬ s.Holds ino ∧ (s.unused = 0 ∨ s.unused = 1 ∧ ¬ s.Holds j)

theorem Walked.tableFull_iff (h : Walked sb s p own lk t) {ino : Nat} :
    TableFull ROOTDEV ino t ↔ ¬ t.Holds ino ∧ t.unused = 0 := by
  rw [State.unused_eq_zero]
  refine ⟨fun hf => ⟨fun ⟨k, h1, h2⟩ => hf.none k ⟨h1, h.dev k h1, h2⟩, hf.full⟩, fun hf => ?_⟩
  exact ⟨hf.2, fun k hk => hf.1 ⟨k, hk.1, hk.2.2⟩⟩

theorem Walked.holds (h : Walked sb s p [i] lk t) (hs : Walkable sb s) {ino j : Nat}
    (hj : (t.itable i).inum = j) : t.Holds ino ↔ ino = j ∨ s.Holds ino := by
  have h0 := hs.ref i
  have hri := h.ref i
  rw [List.count_singleton_self] at hri
  constructor
  · rintro ⟨k, hk, hkj⟩
    by_cases hki : k = i
    · rw [hki, hj] at hkj
      exact .inl hkj.symm
    · have hrk := h.ref k
      rw [List.count_singleton, if_neg (by simpa using fun heq => hki heq.symm)] at hrk
      have hk0 : 0 < (s.itable k).ref := by omega
      exact .inr ⟨k, hk0, (h.held k hk0).1.symm.trans hkj⟩
  · rintro (rfl | ⟨k, hk, hkj⟩)
    · exact ⟨i, by omega, hj⟩
    · exact ⟨k, h.pos hk, (h.held k hk).1.trans hkj⟩

/-- The entry of the walk is the only one that it has taken. -/
theorem Walked.unused (h : Walked sb s p [i] lk t) (hs : Walkable sb s) {j : Nat}
    (hj : (t.itable i).inum = j) :
    t.unused = 0 ↔ s.unused = 0 ∨ s.unused = 1 ∧ ¬ s.Holds j := by
  have h0 := hs.ref i
  have hri := h.ref i
  rw [List.count_singleton_self] at hri
  have hother : ∀ k, k ≠ i → (t.itable k).ref = (s.itable k).ref := by
    intro k hk
    have hrk := h.ref k
    rw [List.count_singleton, if_neg (by simpa using fun heq => hk heq.symm)] at hrk
    omega
  have hheld : s.Holds j ↔ 0 < (s.itable i).ref := by
    refine ⟨fun ⟨k, hk, hkj⟩ => ?_, fun hi => ⟨i, hi, (h.held i hi).1.symm.trans hj⟩⟩
    have hki : k = i :=
      h.unique k i (h.pos hk) (by omega) (((h.held k hk).1.trans hkj).trans hj.symm)
    rwa [hki] at hk
  rw [State.unused_eq_zero, State.unused_eq_zero, hheld]
  constructor
  · intro hfull
    have hne : ∀ k, k ≠ i → (s.itable k).ref ≠ 0 := fun k hk => by
      rw [← hother k hk]
      exact hfull k
    by_cases hi : (s.itable i).ref = 0
    · refine .inr ⟨?_, by omega⟩
      rw [State.unused, Finset.card_eq_one]
      refine ⟨i, Finset.ext fun k => ?_⟩
      rw [Finset.mem_filter, Finset.mem_singleton]
      refine ⟨fun hk => ?_, fun hk => ⟨Finset.mem_univ k, hk ▸ hi⟩⟩
      by_contra hki
      exact hne k hki hk.2
    · refine .inl fun k => ?_
      by_cases hki : k = i
      · rw [hki]
        exact hi
      · exact hne k hki
  · rintro (hfull | ⟨hone, hi⟩) k
    · by_cases hki : k = i
      · rw [hki]
        omega
      · rw [hother k hki]
        exact hfull k
    · by_cases hki : k = i
      · rw [hki]
        omega
      · rw [hother k hki]
        intro hk
        rw [State.unused] at hone
        have hsub := Finset.card_le_card (s := {k, i})
          (t := Finset.univ.filter fun i => (s.itable i).ref = 0) (by
            intro x hx
            rw [Finset.mem_filter]
            rcases Finset.mem_insert.1 hx with rfl | hx
            · exact ⟨Finset.mem_univ _, hk⟩
            · rw [Finset.mem_singleton.1 hx]
              exact ⟨Finset.mem_univ _, by omega⟩)
        rw [Finset.card_pair hki, hone] at hsub
        omega

/-- `iget` on the walk. -/
theorem Walked.iget {ino j : Nat} (h : Walked sb s p [i] lk t) (hs : Walkable sb s)
    (hj : (t.itable i).inum = j) (hino : ino < sb.ninodes) :
    wp (iget ROOTDEV ino) (fun k t' => ¬ NoEntry s j ino ∧ (t'.itable k).inum = ino ∧
        (t'.itable i).inum = j ∧ Walked sb s p [k, i] lk t')
      (fun e _ => NoEntry s j ino ∧ e = .panic "iget: no inodes") t := by
  have hiff : TableFull ROOTDEV ino t ↔ NoEntry s j ino := by
    rw [h.tableFull_iff, h.holds hs hj, h.unused hs hj, not_or, and_assoc, NoEntry]
  have hri := h.ref i
  have h0 := hs.ref i
  rw [List.count_singleton_self] at hri
  refine wp_mono (iget_spec ROOTDEV ino) (fun k t' hgot => ?_) fun e t' he => ?_
  · refine ⟨fun hno => ?_, hgot.inode.2.1, ?_, h.got hs hino hgot⟩
    · have hfull := hiff.2 hno
      cases hgot with
      | found href hdev hinum => exact hfull.none k ⟨href, hdev, hinum⟩
      | fresh href => exact hfull.full k href
    · by_cases hik : i = k
      · subst hik
        cases hgot with
        | found =>
          rw [State.setInode_self]
          exact hj
        | fresh href => omega
      · cases hgot <;> rw [State.setInode_of_ne _ hik] <;> exact hj
  · exact ⟨hiff.1 he.2.2, he.1⟩

/-! ## The walk -/

variable {M : Memory μ} {j : Nat} {name : List UInt8}

theorem Walked.directory (h : Walked sb s p own lk t) (hs : Walkable sb s) (hi : i ∈ own)
    (hj : (t.itable i).inum = j) (hv : (t.itable i).valid = true)
    (ht : (s.dinode sb j).type = T_DIR) (hk : Kept sb s j) :
    Directory sb t i ∧ t.entries i = dirEntries s.disk (s.dinode sb j) := by
  have hcount : 0 < own.count i := List.count_pos_iff.2 hi
  have hri := h.ref i
  have h0 := hs.ref i
  have hpos : 0 < (t.itable i).ref := by omega
  have hview := (h.view i hpos hv).1
  rw [hj] at hview
  refine ⟨⟨h.consistent hs, hpos, hv, ?_, ?_⟩, ?_⟩
  · rw [← hview] at ht
    exact ht
  · show (t.itable i).toDinode.size % 16 = 0
    rw [hview]
    exact (hs.dirs j (hj ▸ h.inum i hpos) hk ht).1
  · rw [State.entries, h.disk, hview]

/-- What a directory names is on the disk. -/
theorem Walkable.child (hs : Walkable sb s) (hj : j < sb.ninodes) (hk : Kept sb s j) {ino : Nat}
    (hc : child sb s j name = some ino) :
    ino < sb.ninodes ∧ ((s.dinode sb ino).type = 0 ∨ Kept sb s ino) := by
  rw [Fs.child] at hc
  split at hc
  · next ht =>
    obtain ⟨⟨n, ino'⟩, hfind, rfl⟩ := Option.map_eq_some_iff.1 hc
    exact (hs.dirs j hj hk ht).2 _ _ _ (SlotMap.at_of_find hfind).2
  · cases hc

/-- `dirlookup` on the walk finds no more than there is. -/
theorem Walked.dirlookup_none (h : Walked sb s p own lk t) (hs : Walkable sb s) (hi : i ∈ own)
    (hj : (t.itable i).inum = j) (hv : (t.itable i).valid = true)
    (ht : (s.dinode sb j).type = T_DIR) (hk : Kept sb s j) (hc : child sb s j name = none) :
    dirlookup sb M p i name t = .ok none t := by
  obtain ⟨hdir, hent⟩ := h.directory hs hi hj hv ht hk
  rw [child, if_pos ht, ← hent] at hc
  exact hdir.dirlookup_none (SlotMap.lookup_none.1 hc)

/-- `dirlookup` on the walk goes on to the inode that has the name. -/
theorem Walked.dirlookup_some {ino : Nat} (h : Walked sb s p [i] lk t) (hs : Walkable sb s)
    (hj : (t.itable i).inum = j) (hv : (t.itable i).valid = true)
    (ht : (s.dinode sb j).type = T_DIR) (hk : Kept sb s j) (hc : child sb s j name = some ino) :
    wp (dirlookup sb M p i name) (fun r t' => ∃ k off, r = some (k, off) ∧ ¬ NoEntry s j ino ∧
        (t'.itable k).inum = ino ∧ (t'.itable i).inum = j ∧ Walked sb s p [k, i] lk t')
      (fun e _ => NoEntry s j ino ∧ e = .panic "iget: no inodes") t := by
  have hmem : i ∈ [i] := List.mem_singleton.2 rfl
  obtain ⟨hdir, hent⟩ := h.directory hs hmem hj hv ht hk
  have hino := (hs.child (hj ▸ h.inum i hdir.ref) hk hc).1
  have hlook := hdir.dirlookup_eq (M := M) (p := p) name
  rw [child, if_pos ht, SlotMap.lookup, ← hent] at hc
  obtain ⟨⟨n, ino'⟩, hfind, rfl⟩ := Option.map_eq_some_iff.1 hc
  rw [hfind, h.dev i hdir.ref] at hlook
  refine (wp_congr hlook).2 (wp_seq (h.iget hs hj hino) fun k t' hk' => ?_)
  exact (wp_pure _).2 ⟨k, _, rfl, hk'⟩

/-- The walk along a path from inode `j` ends in a panic: it comes to an inode that has been freed,
or to one for which the table has no entry. -/
def Stuck (sb : Superblock) (s : State μ) (parent : Bool) : Nat → List (List UInt8) → Prop
  | _, [] => False
  | j, name :: names => (s.dinode sb j).type = 0 ∨ ¬ (parent ∧ names = []) ∧
      ∃ ino, child sb s j name = some ino ∧ (NoEntry s j ino ∨ Stuck sb s parent ino names)

section

variable {parent : Bool} {names : List (List UInt8)} {ino : Nat}

theorem not_stuck_file (h0 : (s.dinode sb j).type ≠ 0) (h : (s.dinode sb j).type ≠ T_DIR) :
    ¬ Stuck sb s parent j (name :: names) := by
  rintro (hst | ⟨-, ino, hino, -⟩)
  · exact h0 hst
  · rw [child, if_neg h] at hino
    cases hino

theorem not_stuck_last (h0 : (s.dinode sb j).type ≠ 0) : ¬ Stuck sb s true j [name] := by
  rintro (hst | ⟨hst, -⟩)
  · exact h0 hst
  · exact hst ⟨rfl, rfl⟩

theorem not_stuck_none (h0 : (s.dinode sb j).type ≠ 0) (hc : child sb s j name = none) :
    ¬ Stuck sb s parent j (name :: names) := by
  rintro (hst | ⟨-, ino, hino, -⟩)
  · exact h0 hst
  · rw [hc] at hino
    cases hino

theorem stuck_some (h0 : (s.dinode sb j).type ≠ 0) (hgo : ¬ (parent ∧ names = []))
    (hc : child sb s j name = some ino) : Stuck sb s parent j (name :: names) ↔
      NoEntry s j ino ∨ Stuck sb s parent ino names := by
  constructor
  · rintro (hst | ⟨-, ino', hino, hst⟩)
    · exact absurd hst h0
    · rw [hc] at hino
      exact Option.some_inj.1 hino ▸ hst
  · exact fun hst => .inr ⟨hgo, ino, hc, hst⟩

end

/-- What a walk leaves: a reference to the inode that it has come to.  If it has stopped early, this
is a directory, and it has been read. -/
def Arrived (sb : Superblock) (s : State μ) (p : Fin NPROC) (parent : Bool) :
    Option (Nat × List UInt8) → Option (Fin NINODE × List UInt8) → State μ → Prop
  | none, r, t => r = none ∧ Walked sb s p [] [] t
  | some (j, name), r, t => ∃ i, r = some (i, name) ∧ (t.itable i).inum = j ∧
      Walked sb s p [i] [] t ∧
      (parent → (t.itable i).valid = true ∧ (s.dinode sb j).type = T_DIR ∧ Kept sb s j)

theorem namexFrom_spec (hs : Walkable sb s) (parent : Bool) :
    ∀ (n : Nat) (i : Fin NINODE) (path : List UInt8) {t : State μ} {j : Nat}, path.length < n →
      Walked sb s p [i] [] t → (t.itable i).inum = j →
      (s.dinode sb j).type = 0 ∨ Kept sb s j →
      wp (namexFrom sb M p parent n i path)
        (fun r t' => ¬ Stuck sb s parent j (components path) ∧
          Arrived sb s p parent (target sb s parent j (components path)) r t')
        (fun e _ => Stuck sb s parent j (components path) ∧
          (e = .panic "ilock: no type" ∨ e = .panic "iget: no inodes")) t
  | 0, _, _, _, _, hn, _, _, _ => absurd hn (Nat.not_lt_zero _)
  | n + 1, i, path, t, j, hn, h, hj, hk => by
    rw [namexFrom]
    split
    · next hskip =>
      rw [components_of_skipelem_none hskip, target_nil, wp_ite]
      split
      · obtain ⟨t', hput, h'⟩ := h.iput hs hj hk
        exact wp_bind.2 ((wp_of_ok hput).2 ((wp_pure _).2 ⟨id, rfl, h'⟩))
      · next hpar =>
        exact (wp_pure _).2 ⟨id, i, rfl, hj, h, fun hp => absurd hp hpar⟩
    · next name rest hskip =>
      obtain ⟨hcomp, hlast⟩ := components_of_skipelem hskip
      have hmem : i ∈ [i] := List.mem_singleton.2 rfl
      rw [hcomp]
      refine wp_bind.2 (wp_mono (h.ilock hmem hs hj) ?_ fun e _ he => ⟨.inl he.1, .inl he.2⟩)
      rintro - t1 ⟨htype, h1, hj1, hv1⟩
      have hkept : Kept sb s j := hk.resolve_left htype
      obtain ⟨t2, hput, h2, -⟩ := h1.iunlockput hs hj1 hk
      refine wp_bind.2 ((wp_of_ok (show getInode i t1 = .ok (t1.itable i) t1 from rfl)).2 ?_)
      have hpos : 0 < (t1.itable i).ref := (h1.keeps hs hj1 hk).1
      have htype1 : (t1.itable i).type = (s.dinode sb j).type := by
        rw [← hj1, ← (h1.view i hpos hv1).1]
      rw [wp_ite]
      split
      · -- not a directory
        next hdir =>
        rw [htype1] at hdir
        rw [target_file hdir]
        exact wp_bind.2 ((wp_of_ok hput).2 ((wp_pure _).2 ⟨not_stuck_file htype hdir, rfl, h2⟩))
      · next hdir =>
        have hdir : (s.dinode sb j).type = T_DIR := by
          rw [← htype1]
          exact not_not.1 hdir
        rw [wp_ite]
        split
        · -- the last element, for `nameiparent`
          next hstop =>
          obtain ⟨hpar, hrest⟩ := hstop
          have hnil := hlast.1 hrest
          obtain ⟨t3, hun, h3, hj3, hv3⟩ := h1.iunlock hmem hs
          rw [hnil, hpar, target_last hdir]
          exact wp_bind.2 ((wp_of_ok hun).2 ((wp_pure _).2 ⟨not_stuck_last htype, i, rfl,
            hj3.trans hj1, h3, fun _ => ⟨hv3.trans hv1, hdir, hkept⟩⟩))
        · next hstop =>
          have hgo : ¬ (parent ∧ components rest = []) := fun hc => hstop ⟨hc.1, hlast.2 hc.2⟩
          rw [target_cons hgo]
          cases hc : child sb s j name with
          | none =>
            refine wp_bind.2 ((wp_of_ok (h1.dirlookup_none hs hmem hj1 hv1 hdir hkept hc)).2 ?_)
            exact wp_bind.2 ((wp_of_ok hput).2 ((wp_pure _).2 ⟨not_stuck_none htype hc, rfl, h2⟩))
          | some ino =>
            have hchild := hs.child (hj1 ▸ h1.inum i hpos) hkept hc
            rw [stuck_some htype hgo hc]
            refine wp_bind.2 (wp_mono (h1.dirlookup_some hs hj1 hv1 hdir hkept hc) ?_
              fun e _ he => ⟨.inl he.1, .inr he.2⟩)
            rintro - t3 ⟨k, off, rfl, hroom, hk3, hi3, h3⟩
            obtain ⟨t4, hput4, h4, hinum4⟩ :=
              (h3.perm (List.Perm.swap i k [])).iunlockput hs hi3 hk
            have hlen := skipelem_length hskip
            refine wp_bind.2 ((wp_of_ok hput4).2 (wp_mono (namexFrom_spec hs parent n k rest
              (by omega) h4 ((hinum4 k).trans hk3) hchild.2) ?_ ?_))
            · exact fun r t' hr => ⟨fun hst => hst.elim hroom hr.1, hr.2⟩
            · exact fun e t' he => ⟨.inr he.1, he.2⟩

/-- Where a path begins: at the root, or at the current directory `c`. -/
def start (s : State μ) (c : Fin NINODE) (path : List UInt8) : Nat :=
  if path.head? = some SLASH then ROOTINO else (s.itable c).inum

/-- The walk along a path ends in a panic, if not already at the root. -/
def Barred (sb : Superblock) (s : State μ) (c : Fin NINODE) (parent : Bool) (path : List UInt8) :
    Prop :=
  (path.head? = some SLASH ∧ ¬ s.Holds ROOTINO ∧ s.unused = 0) ∨
    Stuck sb s parent (start s c path) (components path)

variable {c : Fin NINODE}

/-- What `namex` does. -/
theorem namex_spec (hs : Walkable sb s) (hc : (s.proc p).cwd = some c) (path : List UInt8)
    (parent : Bool) :
    wp (namex sb M p path parent)
      (fun r t => ¬ Barred sb s c parent path ∧
        Arrived sb s p parent (target sb s parent (start s c path) (components path)) r t)
      (fun e _ => Barred sb s c parent path ∧
        (e = .panic "ilock: no type" ∨ e = .panic "iget: no inodes")) s := by
  have h := hs.walked p
  have hlen : path.length < path.length + 1 := Nat.lt_succ_self _
  rw [namex, wp_ite]
  split
  · next hslash =>
    have hstart : start s c path = ROOTINO := if_pos hslash
    have hfull : TableFull ROOTDEV ROOTINO s ↔ ¬ s.Holds ROOTINO ∧ s.unused = 0 := h.tableFull_iff
    refine wp_bind.2 (wp_mono (iget_spec ROOTDEV ROOTINO) (fun i t hgot => ?_) fun e t he => ?_)
    · have hroom : ¬ TableFull ROOTDEV ROOTINO s := by
        intro hno
        cases hgot with
        | found href hdev hinum => exact hno.none i ⟨href, hdev, hinum⟩
        | fresh href => exact hno.full i href
      rw [Barred, hstart]
      refine wp_mono (namexFrom_spec hs parent _ i path hlen (h.got hs hs.root.1 hgot)
        hgot.inode.2.1 (.inr hs.root.2)) ?_ fun e t he => ⟨.inr he.1, he.2⟩
      exact fun r t hr => ⟨fun hb => hb.elim (fun hx => hroom (hfull.2 hx.2)) hr.1, hr.2⟩
    · exact ⟨.inl ⟨hslash, hfull.1 he.2.2⟩, .inr he.1⟩
  · next hslash =>
    have hstart : start s c path = (s.itable c).inum := if_neg hslash
    have href := hs.cwd p c hc
    have hgot : Got ROOTDEV (s.itable c).inum s c
      (s.setInode c { s.itable c with ref := (s.itable c).ref + 1 }) :=
      .found href (hs.dev c href) rfl
    rw [wp_bind, wp_get, hc]
    refine wp_bind.2 ((wp_of_ok (show deref (some c) s = .ok c s from rfl)).2 ?_)
    refine wp_bind.2 ((wp_of_ok (show idup c s = .ok () _ from rfl)).2 ?_)
    rw [Barred, hstart]
    refine wp_mono (namexFrom_spec hs parent _ c path hlen
      (h.got hs (hs.consistent.inum c href) hgot) hgot.inode.2.1 (.inr (.inr ⟨c, href, rfl⟩))) ?_
      fun e t he => ⟨.inr he.1, he.2⟩
    exact fun r t hr => ⟨fun hb => hb.elim (fun hx => hslash hx.1) hr.1, hr.2⟩

/-- The last lookup of `namei` finds room in the table. -/
theorem not_noEntry_of_parent {j' ino : Nat} : ∀ {names : List (List UInt8)} {j : Nat},
    ¬ Stuck sb s false j names → resolveParent sb s j names = some (j', name) →
    child sb s j' name = some ino → ¬ NoEntry s j' ino
  | [], j, _, hp, _ => by cases hp
  | a :: names, j, hst, hp, hc => by
    have h0 : (s.dinode sb j).type ≠ 0 := fun h0 => hst (.inl h0)
    have hgo : ¬ (false = true ∧ names = []) := fun h => Bool.false_ne_true h.1
    by_cases hnil : names = []
    · have hdir : (s.dinode sb j).type = T_DIR := by
        by_contra hdir
        have hnone : target sb s true j (a :: names) = none := target_file hdir
        cases hnone.symm.trans hp
      subst hnil
      cases (target_last hdir).symm.trans hp
      exact fun hno => hst ((stuck_some h0 hgo hc).2 (.inl hno))
    · have hcons : target sb s true j (a :: names) =
          (child sb s j a).bind fun k => target sb s true k names := target_cons fun h => hnil h.2
      have hp : (child sb s j a).bind (fun k => resolveParent sb s k names) = some (j', name) :=
        hcons.symm.trans hp
      obtain ⟨k, hk, hp⟩ := Option.bind_eq_some_iff.1 hp
      exact not_noEntry_of_parent (fun hst' => hst ((stuck_some h0 hgo hk).2 (.inr hst'))) hp hc

theorem Arrived.result {parent : Bool} {dst : Option (Nat × List UInt8)}
    {r : Option (Fin NINODE × List UInt8)} (h : Arrived sb s p parent dst r t) :
    r.map (fun x => ((t.itable x.1).inum, x.2)) = dst := by
  cases dst with
  | none => rw [h.1]; rfl
  | some d =>
    obtain ⟨i, rfl, hj, -⟩ := h
    exact congrArg (fun j => some (j, d.2)) hj

theorem namei_spec (hs : Walkable sb s) (hc : (s.proc p).cwd = some c) (path : List UInt8) :
    wp (namei sb M p path)
      (fun r t => ¬ Barred sb s c false path ∧
        r.map (fun i => (t.itable i).inum) = resolve sb s (start s c path) (components path))
      (fun e _ => Barred sb s c false path ∧
        (e = .panic "ilock: no type" ∨ e = .panic "iget: no inodes")) s := by
  refine wp_seq (namex_spec hs hc path false) fun r t hr => (wp_pure _).2 ⟨hr.1, ?_⟩
  have hres := congrArg (Option.map Prod.fst) (Arrived.result hr.2)
  rw [Option.map_map] at hres
  rw [Option.map_map]
  refine hres.trans ?_
  show ((resolve sb s (start s c path) (components path)).map fun j => (j, [])).map Prod.fst = _
  rw [Option.map_map]
  exact congrFun Option.map_id _

/-- The last element, looked up in the directory that `nameiparent` returns. -/
theorem dirlookup_parent (hs : Walkable sb s) {names : List (List UInt8)} {j j' : Nat}
    (hst : ¬ Stuck sb s false j names) (hp : resolveParent sb s j names = some (j', name))
    {r : Option (Fin NINODE × List UInt8)} (h : Arrived sb s p true (some (j', name)) r t) :
    ∃ i q t', r = some (i, name) ∧ dirlookup sb M p i name t = .ok q t' ∧
      q.map (fun x => (t'.itable x.1).inum) = child sb s j' name := by
  obtain ⟨i, rfl, hj, hw, hv⟩ := h
  obtain ⟨hv, hdir, hkept⟩ := hv rfl
  cases hchild : child sb s j' name with
  | none =>
    exact ⟨i, none, t, rfl,
      hw.dirlookup_none hs (List.mem_singleton.2 rfl) hj hv hdir hkept hchild, rfl⟩
  | some ino =>
    have hroom := not_noEntry_of_parent hst hp hchild
    obtain ⟨q, t', hrun, k, off, rfl, -, hk, -⟩ :=
      (wp_mono (hw.dirlookup_some (M := M) hs hj hv hdir hkept hchild) (fun _ _ hx => hx)
        fun e _ he => hroom he.1).exists_ok
    exact ⟨i, _, t', rfl, hrun, congrArg some hk⟩

/-- **Paths are resolved** from the root or the current directory, element by element, as long as
no element leads to an inode that has been freed and the table has entries for the inodes on the
way.

`namei` returns the inode at the end of the path, and fails if an element is missing or is looked
for in what is not a directory.  `nameiparent` stops before the last element and returns it as well;
it fails if there is none, or if what comes before does not lead to a directory.  The inode that
`namei` returns for a path with an element is the one that `dirlookup` finds in the directory that
`nameiparent` returns. -/
theorem path_resolution_iff (hs : Walkable sb s) (hc : (s.proc p).cwd = some c)
    (path : List UInt8) :
    ((∃ r s', namei sb M p path s = .ok r s' ∧
        r.map (fun i => (s'.itable i).inum) =
          resolve sb s (start s c path) (components path)) ↔ ¬ Barred sb s c false path) ∧
    ((∃ r s', nameiparent sb M p path s = .ok r s' ∧
        r.map (fun x => ((s'.itable x.1).inum, x.2)) =
          resolveParent sb s (start s c path) (components path)) ↔ ¬ Barred sb s c true path) ∧
    ∀ r s' d t, components path ≠ [] → namei sb M p path s = .ok r s' →
      nameiparent sb M p path s = .ok d t →
      match d with
      | none => r = none
      | some (dp, name) => ∃ q t', dirlookup sb M p dp name t = .ok q t' ∧
          q.map (fun x => (t'.itable x.1).inum) = r.map fun i => (s'.itable i).inum := by
  have hnamei := namei_spec (M := M) hs hc path
  have hparent := namex_spec (M := M) hs hc path true
  refine ⟨hnamei.returns_iff, ?_, fun r s' d t hne hr hd => ?_⟩
  · exact wp.returns_iff (wp_mono hparent (fun r t h => ⟨h.1, Arrived.result h.2⟩) fun _ _ he => he)
  · obtain ⟨hbar, hres⟩ := hnamei.ok hr
    obtain ⟨-, harr⟩ := hparent.ok hd
    rw [hres, resolve_eq_parent hne]
    have htarget : target sb s true (start s c path) (components path) =
      resolveParent sb s (start s c path) (components path) := rfl
    rw [htarget] at harr
    cases hp : resolveParent sb s (start s c path) (components path) with
    | none =>
      rw [hp] at harr
      rw [harr.1]
      rw [resolve_eq_parent hne, hp] at hres
      exact Option.map_eq_none_iff.1 hres
    | some x =>
      rw [hp] at harr
      obtain ⟨i, q, t', rfl, hrun, hq⟩ :=
        dirlookup_parent (M := M) hs (fun hst => hbar (.inr hst)) hp harr
      exact ⟨q, t', hrun, hq⟩

end

/-! ## A directory whose parent is gone -/

/-- Files of one block each. -/
theorem Blocks.of_direct {sb : Superblock} {disk : Nat → Block} {din : Nat → Dinode}
    (hreserved : ∀ b, b < datastart sb → b < sb.size → Used sb disk b)
    (hone : ∀ j, Live sb din j → ∀ k, k ≠ 0 → (din j).addrs k = 0)
    (hrange : ∀ j, Live sb din j → datastart sb ≤ (din j).addrs 0 ∧ (din j).addrs 0 < sb.size ∧
      Used sb disk ((din j).addrs 0))
    (hdistinct : ∀ j j', Live sb din j → Live sb din j' → (din j).addrs 0 = (din j').addrs 0 → j = j')
    (hsize : ∀ j, Live sb din j → (din j).size ≤ BSIZE)
    (hfits : ∀ j, Live sb din j → (din j).Fits) : Blocks sb disk din := by
  have hlast : (Fin.last NDIRECT) ≠ 0 := by decide
  have hslot : ∀ j sl, Live sb din j → slot disk (din j) sl ≠ 0 →
      sl = some 0 ∧ slot disk (din j) sl = (din j).addrs 0 := by
    intro j sl hj h0
    cases sl with
    | none => exact absurd (hone j hj _ hlast) h0
    | some bn =>
      have h0 : blockAt disk (din j) bn ≠ 0 := h0
      show _ ∧ blockAt disk (din j) bn = _
      rw [blockAt] at h0 ⊢
      split at h0
      · next hbn =>
        rw [dif_pos hbn]
        by_cases hz : bn = 0
        · subst hz
          exact ⟨rfl, rfl⟩
        · exact absurd (hone j hj _ fun heq => hz (congrArg Fin.val heq)) h0
      · rw [if_pos (hone j hj _ hlast)] at h0
        exact absurd rfl h0
  refine ⟨hreserved, fun j sl hj _ h0 => ?_, fun j sl j' sl' hj hj' _ _ h0 heq => ?_,
    fun j hj bn hbn => ?_, hfits⟩
  · rw [(hslot j sl hj h0).2]
    exact hrange j hj
  · obtain ⟨h1, h2⟩ := hslot j sl hj h0
    obtain ⟨h3, h4⟩ := hslot j' sl' hj' (heq ▸ h0)
    exact ⟨hdistinct j j' hj hj' (h2.symm.trans (heq.trans h4)), h1.trans h3.symm⟩
  · have hz : bn = 0 := by
      have hle := hsize j hj
      by_contra hne
      exact absurd (hbn.trans_le hle) (Nat.not_lt.2 (Nat.le_mul_of_pos_left BSIZE (by omega)))
    subst hz
    exact ⟨by decide, (Nat.zero_lt_of_lt ((hrange j hj).1.trans_lt' (Nat.succ_pos _))).ne'⟩

/-- The disk after `mkdir a`, `mkdir a/b` and, from within `a/b`, `unlink /a/b` and `unlink /a`:
the root is inode 1, `b` is inode 3 without a name, and the parent that it still names, inode 2, has
been freed. -/
def orphanDisk (b : Nat) : Block :=
  if b = 32 then fun k =>
    if k = 64 ∨ k = 192 then 1 else if k = 70 then 1 else if k = 72 ∨ k = 200 then 32
    else if k = 76 then 46 else if k = 204 then 48 else 0
  else if b = 45 then fun k => if k < 5 then 255 else if k = 5 then 127 else if k = 6 then 1 else 0
  else if b = 46 then fun k =>
    if k < 16 then dirent 1 [46] k else if k < 32 then dirent 1 [46, 46] (k - 16) else 0
  else if b = 48 then fun k =>
    if k < 16 then dirent 3 [46] k else if k < 32 then dirent 2 [46, 46] (k - 16) else 0
  else fun _ => 0

/-- The directory `b` is the current one. -/
def orphan : State Unit :=
  { boot orphanDisk () with
    outstanding := 1
    itable := Function.update (fun _ => Inode.blank) ⟨0, ninode_pos⟩
      { Inode.blank with
        dev := ROOTDEV, inum := 3, ref := 1, valid := true, type := T_DIR, nlink := 0
        size := 32
        addrs := fun k => if k = 0 then 48 else 0 } }

/-- A directory of two entries, in the given block. -/
def twoEntries (nlink block : Nat) : Dinode where
  type := T_DIR
  major := 0
  minor := 0
  nlink := nlink
  size := 32
  addrs := fun k => if k = 0 then block else 0

theorem twoEntries_fits {nlink block : Nat} (hn : nlink < 2 ^ 16) (hb : block < 2 ^ 32) :
    (twoEntries nlink block).Fits := by
  have hdir : T_DIR < 2 ^ 16 := by decide
  refine ⟨hdir, Nat.two_pow_pos 16, Nat.two_pow_pos 16, hn, show 32 < 2 ^ 32 by decide, fun k => ?_⟩
  show (if k = 0 then block else 0) < 2 ^ 32
  split
  · exact hb
  · decide

/-- The inodes in use are the root and `b`. -/
theorem orphan_inodes :
    (∀ j, j < 200 → (orphan.dinode mkfsSuperblock j).type ≠ 0 → j = 1 ∨ j = 3) ∧
    orphan.dinode mkfsSuperblock 1 = twoEntries 1 46 ∧
    orphan.dinode mkfsSuperblock 3 = twoEntries 0 48 := by
  have haddrs : ∀ k, (orphan.dinode mkfsSuperblock 1).addrs k = (twoEntries 1 46).addrs k := by
    decide +kernel
  have hroot : orphan.dinode mkfsSuperblock 1 =
      { twoEntries 1 46 with addrs := (orphan.dinode mkfsSuperblock 1).addrs } := rfl
  refine ⟨by decide +kernel, ?_, rfl⟩
  rw [hroot, funext haddrs]

theorem orphan_live {j : Nat} (hj : j < 200) (h0 : (orphan.dinode mkfsSuperblock j).type ≠ 0) :
    j = 1 ∨ j = 3 := orphan_inodes.1 j hj h0

theorem orphan_freed : (orphan.dinode mkfsSuperblock 2).type = 0 := by
  by_contra h0
  exact absurd (orphan_live (by decide) h0) (by decide)

theorem orphan_consistent : Consistent mkfsSuperblock orphan := by
  obtain ⟨-, h1, h3⟩ := orphan_inodes
  have hlive : ∀ {j}, Live mkfsSuperblock (orphan.dinode mkfsSuperblock) j → j = 1 ∨ j = 3 :=
    fun hj => orphan_live hj.1 hj.2
  have honly : ∀ i, 0 < (orphan.itable i).ref → i = ⟨0, ninode_pos⟩ := fun i hi =>
    ref_update_blank hi
  have hbits : ∀ b, b < 47 ∨ b = 48 → testBit (orphanDisk 45) b = true := by
    have hlow : ∀ b, b < 47 → testBit (orphanDisk 45) b = true := by decide +kernel
    rintro b (hb | rfl)
    · exact hlow b hb
    · decide
  refine ⟨mkfsSuperblock_layout, fun i i' hi hi' _ => (honly i hi).trans (honly i' hi').symm,
    fun i hi => ?_, fun i hi _ => ?_, .of_direct (fun b hb hs => ?_) (fun j hj k hk => ?_)
      (fun j hj => ?_) (fun j j' hj hj' heq => ?_) (fun j hj => ?_) fun j hj => ?_⟩
  · rw [honly i hi]
    decide
  · rw [honly i hi]
    decide
  · have hb46 : b < 46 := hb
    exact (used_mkfsSuperblock hs).2 (hbits b (.inl (by omega)))
  · rcases hlive hj with rfl | rfl
    · rw [h1]
      exact if_neg hk
    · rw [h3]
      exact if_neg hk
  · rcases hlive hj with rfl | rfl
    · rw [h1]
      exact ⟨by decide, by decide, (used_mkfsSuperblock (by decide)).2 (hbits 46 (.inl (by decide)))⟩
    · rw [h3]
      exact ⟨by decide, by decide, (used_mkfsSuperblock (by decide)).2 (hbits 48 (.inr rfl))⟩
  · rcases hlive hj with rfl | rfl <;> rcases hlive hj' with rfl | rfl
    · rfl
    · rw [h1, h3] at heq
      cases heq
    · rw [h1, h3] at heq
      cases heq
    · rfl
  · rcases hlive hj with rfl | rfl
    · rw [h1]
      decide
    · rw [h3]
      decide
  · rcases hlive hj with rfl | rfl
    · rw [h1]
      exact twoEntries_fits (by decide) (by decide)
    · rw [h3]
      exact twoEntries_fits (by decide) (by decide)

/-- The entries of the two directories. -/
theorem orphan_entries :
    dirEntries orphan.disk (orphan.dinode mkfsSuperblock 1) = [some ([46], 1), some ([46, 46], 1)] ∧
    dirEntries orphan.disk (orphan.dinode mkfsSuperblock 3) =
      [some ([46], 3), some ([46, 46], 2)] := by
  decide +kernel

theorem orphan_child :
    child mkfsSuperblock orphan 1 [46, 46] = some 1 ∧
      child mkfsSuperblock orphan 3 [46, 46] = some 2 := by
  obtain ⟨-, h1, h3⟩ := orphan_inodes
  obtain ⟨hent1, hent3⟩ := orphan_entries
  rw [child, child, hent1, hent3, h1, h3]
  exact ⟨rfl, rfl⟩

theorem orphan_kept : Kept mkfsSuperblock orphan 1 ∧ Kept mkfsSuperblock orphan 3 := by
  refine ⟨.inl ?_, .inr ⟨⟨0, ninode_pos⟩, by decide, by decide⟩⟩
  rw [orphan_inodes.2.1]
  decide

theorem at_pair {x y : List UInt8 × Nat} {k : Nat} {name : List UInt8} {ino : Nat}
    (h : SlotMap.At [some x, some y] k name ino) : (name, ino) = x ∨ (name, ino) = y := by
  rcases k with - | - | k
  · exact .inl (Option.some_inj.1 (Option.some_inj.1 h)).symm
  · exact .inr (Option.some_inj.1 (Option.some_inj.1 h)).symm
  · cases h

theorem orphan_walkable : Walkable mkfsSuperblock orphan := by
  obtain ⟨-, h1, h3⟩ := orphan_inodes
  obtain ⟨hent1, hent3⟩ := orphan_entries
  obtain ⟨hk1, hk3⟩ := orphan_kept
  have honly : ∀ i, 0 < (orphan.itable i).ref → i = ⟨0, ninode_pos⟩ := fun i hi =>
    ref_update_blank hi
  have htable : ∀ i, 0 ≤ (orphan.itable i).ref ∧ (orphan.itable i).lock = none := by decide
  have hcwd : ∀ q, (orphan.proc q).cwd = none ∨ (orphan.proc q).cwd = some ⟨0, ninode_pos⟩ := by
    decide
  refine ⟨orphan_consistent, fun i hi => ?_, fun i => (htable i).1, fun i => (htable i).2,
    fun q i hq => ?_, ⟨by decide, hk1⟩, fun j hj _ hdir => ?_⟩
  · rw [honly i hi]
    rfl
  · rcases hcwd q with hno | hyes
    · rw [hno] at hq
      cases hq
    · rw [hyes] at hq
      cases hq
      decide
  · rcases orphan_live hj (by rw [hdir]; decide) with rfl | rfl
    · refine ⟨by rw [h1]; rfl, fun k name ino hat => ?_⟩
      rw [hent1] at hat
      rcases at_pair hat with heq | heq <;> cases heq
      · exact ⟨by decide, .inr hk1⟩
      · exact ⟨by decide, .inr hk1⟩
    · refine ⟨by rw [h3]; rfl, fun k name ino hat => ?_⟩
      rw [hent3] at hat
      rcases at_pair hat with heq | heq <;> cases heq
      · exact ⟨by decide, .inr hk3⟩
      · exact ⟨by decide, .inl orphan_freed⟩

theorem orphan_cwd : (orphan.proc ⟨0, nproc_pos⟩).cwd = some ⟨0, ninode_pos⟩ := rfl

/-- The parent of the root is the root. -/
theorem path_resolution_root : ∃ r s',
    namei mkfsSuperblock forkMemory ⟨0, nproc_pos⟩ [SLASH, 46, 46] orphan = .ok r s' ∧
      r.map (fun i => (s'.itable i).inum) = some ROOTINO := by
  have hchild : child mkfsSuperblock orphan ROOTINO [46, 46] = some ROOTINO := orphan_child.1
  have hres : resolve mkfsSuperblock orphan ROOTINO [[46, 46]] = some ROOTINO := by
    rw [resolve_cons, hchild]
    rfl
  have hiff := (path_resolution_iff (M := forkMemory) orphan_walkable orphan_cwd
    [SLASH, 46, 46]).1
  obtain ⟨r, s', hrun, hr⟩ := hiff.2 (by
    rintro (⟨-, -, hfull⟩ | hst)
    · exact absurd hfull (by decide)
    · have h0 : (orphan.dinode mkfsSuperblock ROOTINO).type ≠ 0 := by
        rw [show orphan.dinode mkfsSuperblock ROOTINO = _ from orphan_inodes.2.1]
        decide
      have hgo : ¬ (false = true ∧ ([] : List (List UInt8)) = []) := fun h => Bool.false_ne_true h.1
      exact ((stuck_some h0 hgo hchild).1 hst).elim (fun hno => hno.1 rfl) id)
  exact ⟨r, s', hrun, hr.trans hres⟩

/-- **A path through a directory that has been removed makes the kernel panic**: from `b`, the path
`../x` leads to the inode of the parent, which has been freed. -/
theorem namei_panics :
    Walkable mkfsSuperblock orphan ∧
    (orphan.proc ⟨0, nproc_pos⟩).cwd = some ⟨0, ninode_pos⟩ ∧
    resolve mkfsSuperblock orphan (start orphan ⟨0, ninode_pos⟩ [46, 46, SLASH, 120])
      (components [46, 46, SLASH, 120]) = none ∧
    ∃ msg s', namei mkfsSuperblock forkMemory ⟨0, nproc_pos⟩ [46, 46, SLASH, 120] orphan =
      .error (.panic msg) s' := by
  have hchild := orphan_child.2
  have hnone : child mkfsSuperblock orphan 2 [120] = none := by
    rw [child, orphan_freed]
    rfl
  have hbar : Barred mkfsSuperblock orphan ⟨0, ninode_pos⟩ false [46, 46, SLASH, 120] :=
    .inr (.inr ⟨fun h => Bool.false_ne_true h.1, 2, hchild, .inr (.inl orphan_freed)⟩)
  have hspec := namei_spec (M := forkMemory) orphan_walkable orphan_cwd [46, 46, SLASH, 120]
  refine ⟨orphan_walkable, orphan_cwd, ?_, ?_⟩
  · show resolve mkfsSuperblock orphan 3 [[46, 46], [120]] = none
    rw [resolve_cons, hchild, Option.bind_some, resolve_cons, hnone]
    rfl
  · cases hrun : namei mkfsSuperblock forkMemory ⟨0, nproc_pos⟩ [46, 46, SLASH, 120] orphan with
    | ok r s' => exact absurd hbar (hspec.ok hrun).1
    | error e s' =>
      rcases (hspec.error hrun).2 with rfl | rfl
      · exact ⟨_, s', rfl⟩
      · exact ⟨_, s', rfl⟩

end Fs

end Xv6
