import Mathlib.Data.List.Basic
import Xv6.Base.Kern
import Xv6.Base.Bytes
import Xv6.Base.RedoLog

/-!
# The buffer cache

`kernel/bio.c` keeps `NBUF` cached disk blocks.  A `struct buf *` is an index into `bcache.buf`,
and the doubly linked list through `bcache.head` is the list `lru` of these indices, from
`head.next` (most recently used) to `head.prev`.  The sleep locks of the buffers are not part of
the model: one kernel path runs at a time, so a buffer's lock is free when it is taken.

The disk is a function of the block number.  `virtio_disk_rw` reads or writes one block; every
write is also appended to `writes`, a ghost record of the order in which blocks reach the disk,
from which the states a crash can leave are read off.

The correctness of the cache rests on `Cache.Ok`: an unreferenced buffer agrees with the disk, so
recycling it loses nothing.  Under it `view s b`, the content a `bread` of block `b` returns,
changes only where a buffer's data is changed.
-/

set_option autoImplicit false

namespace Xv6

/-- `BSIZE`: bytes in a disk block. -/
def BSIZE : Nat := 1024

/-- `MAXOPBLOCKS`: the most blocks one file-system operation writes. -/
def MAXOPBLOCKS : Nat := 10

/-- `LOGSIZE`: the most data blocks in the log. -/
def LOGSIZE : Nat := MAXOPBLOCKS * 3

/-- `NBUF`: the size of the buffer cache. -/
def NBUF : Nat := MAXOPBLOCKS * 3

/-- `ROOTDEV`: the device of the file system. -/
def ROOTDEV : Nat := 1

/-- The content of a disk block. -/
abbrev Block : Type := Bytes

/-- `struct buf`. -/
structure Buf where
  /-- Has the data been read from the disk? -/
  valid : Bool
  dev : Nat
  blockno : Nat
  refcnt : Nat
  data : Block

/-- `struct logheader`. -/
structure LogHeader where
  n : Int
  block : Nat → Nat

/-- `struct log`, without its spin lock. -/
structure Log where
  start : Nat
  size : Nat
  /-- How many file-system calls are executing. -/
  outstanding : Int
  /-- In `commit()`, please wait. -/
  committing : Bool
  dev : Nat
  lh : LogHeader

/-- The disk, the buffer cache and the log. -/
structure Store where
  disk : Nat → Block
  /-- Ghost: the disk writes so far, oldest first. -/
  writes : List (Nat × Block)
  buf : Nat → Buf
  lru : List Nat
  log : Log

namespace Store

/-- Change one buffer. -/
def setBuf (s : Store) (b : Nat) (x : Buf) : Store := { s with buf := Function.update s.buf b x }

/-- Change the log. -/
def setLog (s : Store) (l : Log) : Store := { s with log := l }

@[simp] theorem setLog_log (s : Store) (l : Log) : (s.setLog l).log = l := rfl

@[simp] theorem setLog_setLog (s : Store) (l m : Log) : (s.setLog l).setLog m = s.setLog m := rfl

end Store

/-! ## `bio.c` -/

/-- `virtio_disk_rw(b, write)`. -/
def virtioDiskRw (b : Nat) (write : Bool) : Kern Store Unit :=
  modify fun s =>
    let x := s.buf b
    if write then
      { s with
        disk := Function.update s.disk x.blockno x.data
        writes := s.writes ++ [(x.blockno, x.data)] }
    else s.setBuf b { x with data := s.disk x.blockno }

/-- `binit()`: an empty cache over a disk.  Each buffer is pushed at the front of the list. -/
def binit (disk : Nat → Block) (log : Log) : Store where
  disk := disk
  writes := []
  buf := fun _ => { valid := false, dev := 0, blockno := 0, refcnt := 0, data := fun _ => 0 }
  lru := (List.range NBUF).reverse
  log := log

/-- `bget(dev, blockno)`: the cached buffer, or the least recently used unreferenced one. -/
def bget (dev blockno : Nat) : Kern Store Nat := do
  let s ← get
  match s.lru.find? fun b => (s.buf b).dev == dev && (s.buf b).blockno == blockno with
  | some b =>
    set (s.setBuf b { s.buf b with refcnt := (s.buf b).refcnt + 1 })
    return b
  | none =>
    -- not cached: scan from `head.prev`
    match s.lru.reverse.find? fun b => (s.buf b).refcnt == 0 with
    | some b =>
      set (s.setBuf b { s.buf b with dev := dev, blockno := blockno, valid := false, refcnt := 1 })
      return b
    | none => panic "bget: no buffers"

/-- `bread(dev, blockno)`. -/
def bread (dev blockno : Nat) : Kern Store Nat := do
  let b ← bget dev blockno
  let s ← get
  if !(s.buf b).valid then
    virtioDiskRw b false
    modify fun s => s.setBuf b { s.buf b with valid := true }
  return b

/-- `bwrite(b)`. -/
def bwrite (b : Nat) : Kern Store Unit := virtioDiskRw b true

/-- `brelse(b)`: an unreferenced buffer moves to the front of the list. -/
def brelse (b : Nat) : Kern Store Unit :=
  modify fun s =>
    let s := s.setBuf b { s.buf b with refcnt := (s.buf b).refcnt - 1 }
    if (s.buf b).refcnt = 0 then { s with lru := b :: s.lru.erase b } else s

/-- `bpin(b)`. -/
def bpin (b : Nat) : Kern Store Unit :=
  modify fun s => s.setBuf b { s.buf b with refcnt := (s.buf b).refcnt + 1 }

/-- `bunpin(b)`. -/
def bunpin (b : Nat) : Kern Store Unit :=
  modify fun s => s.setBuf b { s.buf b with refcnt := (s.buf b).refcnt - 1 }

/-- `memmove(b->data, data, BSIZE)`. -/
def setData (b : Nat) (data : Block) : Kern Store Unit :=
  modify fun s => s.setBuf b { s.buf b with data := data }

/-! ## What the cache shows -/

namespace Cache

/-- Buffer `i` is the cached copy of block `b` of the root device. -/
structure Has (s : Store) (i b : Nat) : Prop where
  lt : i < NBUF
  dev : (s.buf i).dev = ROOTDEV
  blockno : (s.buf i).blockno = b

/-- The invariant of the cache. -/
structure Ok (s : Store) : Prop where
  /-- The list holds every buffer. -/
  mem_lru : ∀ i, i ∈ s.lru ↔ i < NBUF
  /-- A buffer of the root device has been read. -/
  valid : ∀ i b, Has s i b → (s.buf i).valid = true
  /-- At most one buffer for each block of the root device. -/
  inj : ∀ i j b, Has s i b → Has s j b → i = j
  /-- Recycling an unreferenced buffer loses nothing. -/
  clean : ∀ i b, Has s i b → (s.buf i).refcnt = 0 → (s.buf i).data = s.disk b
  /-- Only buffers of the root device are referenced. -/
  held : ∀ i, i < NBUF → 0 < (s.buf i).refcnt → (s.buf i).dev = ROOTDEV

/-- The content a `bread` of block `b` of the root device returns. -/
def view (s : Store) (b : Nat) : Block :=
  match s.lru.find? fun i => (s.buf i).dev == ROOTDEV && (s.buf i).blockno == b with
  | some i => (s.buf i).data
  | none => s.disk b

/-- How many references the cached copy of block `b` of the root device has. -/
def refs (s : Store) (b : Nat) : Nat :=
  match s.lru.find? fun i => (s.buf i).dev == ROOTDEV && (s.buf i).blockno == b with
  | some i => (s.buf i).refcnt
  | none => 0

variable {s s' : Store} {i j b c : Nat}

/-- A search of the list that succeeds names the cached copy. -/
theorem has_of_find (hs : Ok s)
    (h : s.lru.find? (fun i => (s.buf i).dev == ROOTDEV && (s.buf i).blockno == b) = some i) :
    Has s i b := by
  have h1 := List.find?_some h
  rw [Bool.and_eq_true, beq_iff_eq, beq_iff_eq] at h1
  exact ⟨(hs.mem_lru i).1 (List.mem_of_find?_eq_some h), h1.1, h1.2⟩

theorem not_has_of_find (hs : Ok s)
    (h : s.lru.find? (fun i => (s.buf i).dev == ROOTDEV && (s.buf i).blockno == b) = none)
    (i : Nat) : ¬ Has s i b := by
  intro hi
  have h1 := List.find?_eq_none.1 h i ((hs.mem_lru i).2 hi.lt)
  simp [hi.dev, hi.blockno] at h1

theorem view_of_has (hs : Ok s) (h : Has s i b) : view s b = (s.buf i).data := by
  rw [view]
  split
  · next j hj => rw [hs.inj i j b h (has_of_find hs hj)]
  · next hn => exact absurd h (not_has_of_find hs hn i)

theorem view_of_not_has (hs : Ok s) (h : ∀ i, ¬ Has s i b) : view s b = s.disk b := by
  rw [view]
  split
  · next j hj => exact absurd (has_of_find hs hj) (h j)
  · rfl

theorem refs_of_has (hs : Ok s) (h : Has s i b) : refs s b = (s.buf i).refcnt := by
  rw [refs]
  split
  · next j hj => rw [hs.inj i j b h (has_of_find hs hj)]
  · next hn => exact absurd h (not_has_of_find hs hn i)

theorem refs_of_not_has (hs : Ok s) (h : ∀ i, ¬ Has s i b) : refs s b = 0 := by
  rw [refs]
  split
  · next j hj => exact absurd (has_of_find hs hj) (h j)
  · rfl

/-- A block without references shows what the disk holds. -/
theorem view_eq_disk (hs : Ok s) (h : refs s b = 0) : view s b = s.disk b := by
  by_cases hc : ∃ i, Has s i b
  · obtain ⟨i, hi⟩ := hc
    rw [refs_of_has hs hi] at h
    rw [view_of_has hs hi, hs.clean i b hi h]
  · exact view_of_not_has hs fun i hi => hc ⟨i, hi⟩

/-- The cache shows the same contents and references for a block when the cached copy is the
same and the disk is, where nothing is cached. -/
theorem view_refs_ext (hs : Ok s) (hs' : Ok s') (hb : ∀ i, Has s' i b ↔ Has s i b)
    (hbuf : ∀ i, Has s i b → (s'.buf i).data = (s.buf i).data ∧ (s'.buf i).refcnt = (s.buf i).refcnt)
    (hdisk : s'.disk b = s.disk b) : view s' b = view s b ∧ refs s' b = refs s b := by
  by_cases h : ∃ i, Has s i b
  · obtain ⟨i, hi⟩ := h
    rw [view_of_has hs' ((hb i).2 hi), view_of_has hs hi, refs_of_has hs' ((hb i).2 hi),
      refs_of_has hs hi]
    exact hbuf i hi
  · have hn : ∀ i, ¬ Has s i b := fun i hi => h ⟨i, hi⟩
    have hn' : ∀ i, ¬ Has s' i b := fun i hi => hn i ((hb i).1 hi)
    rw [view_of_not_has hs hn, view_of_not_has hs' hn', refs_of_not_has hs hn,
      refs_of_not_has hs' hn']
    exact ⟨hdisk, rfl⟩

/-! ### Changing one buffer -/

theorem setBuf_self (s : Store) (i : Nat) (x : Buf) : (s.setBuf i x).buf i = x := by
  simp only [Store.setBuf, Function.update_self]

theorem setBuf_of_ne (s : Store) (x : Buf) (h : j ≠ i) : (s.setBuf i x).buf j = s.buf j := by
  simp only [Store.setBuf, Function.update_of_ne h]

theorem has_setBuf_of_ne {x : Buf} (h : j ≠ i) : Has (s.setBuf i x) j b ↔ Has s j b := by
  constructor
  · rintro ⟨h1, h2, h3⟩
    rw [setBuf_of_ne _ _ h] at h2 h3
    exact ⟨h1, h2, h3⟩
  · rintro ⟨h1, h2, h3⟩
    exact ⟨h1, by rw [setBuf_of_ne _ _ h, h2], by rw [setBuf_of_ne _ _ h, h3]⟩

/-- A buffer whose key stays the same caches the same block. -/
theorem has_setBuf_same {x : Buf} (hd : x.dev = (s.buf i).dev)
    (hb : x.blockno = (s.buf i).blockno) : Has (s.setBuf i x) j b ↔ Has s j b := by
  by_cases hj : j = i
  · subst hj
    constructor
    · rintro ⟨h1, h2, h3⟩
      rw [setBuf_self] at h2 h3
      exact ⟨h1, hd ▸ h2, hb ▸ h3⟩
    · rintro ⟨h1, h2, h3⟩
      exact ⟨h1, by rw [setBuf_self, hd, h2], by rw [setBuf_self, hb, h3]⟩
  · exact has_setBuf_of_ne hj

/-! ### What the operations do

Seen from outside, the cache is the pair of functions `view` and `refs` of the block number.
`Run` says what a stretch of code did to them, to the disk and to the record of disk writes;
`Step`, for one operation, also that it left the log alone and the referenced buffers where they
were, so that the buffers the caller holds are still its own. -/

/-- Code that got from `s` to `s'` by the disk writes `ws`, after which the cache shows `v` and
counts `r`. -/
structure Run (s s' : Store) (v : Nat → Block) (r : Nat → Nat) (ws : List (Nat × Block)) :
    Prop where
  ok : Ok s'
  view : view s' = v
  refs : refs s' = r
  disk : s'.disk = applyWrites s.disk ws
  writes : s'.writes = s.writes ++ ws

/-- A `Run` by one operation of the cache. -/
structure Step (s s' : Store) (v : Nat → Block) (r : Nat → Nat) (ws : List (Nat × Block)) :
    Prop extends Run s s' v r ws where
  log : s'.log = s.log
  keeps : ∀ i b, Has s i b → 0 < Cache.refs s b → Has s' i b

theorem Run.trans {s₁ s₂ : Store} {v₁ v₂ : Nat → Block} {r₁ r₂ : Nat → Nat}
    {ws₁ ws₂ : List (Nat × Block)} (h₁ : Run s s₁ v₁ r₁ ws₁) (h₂ : Run s₁ s₂ v₂ r₂ ws₂) :
    Run s s₂ v₂ r₂ (ws₁ ++ ws₂) :=
  ⟨h₂.ok, h₂.view, h₂.refs, by rw [h₂.disk, h₁.disk, applyWrites_append],
    by rw [h₂.writes, h₁.writes, List.append_assoc]⟩

/-- Code that stopped after some of the writes `ws` had reached the disk. -/
def Cut (s s' : Store) (ws : List (Nat × Block)) : Prop :=
  ∃ k, s'.disk = applyWrites s.disk (ws.take k) ∧ s'.writes = s.writes ++ ws.take k

theorem Cut.refl (s : Store) (ws : List (Nat × Block)) : Cut s s ws :=
  ⟨0, by rw [List.take_zero, applyWrites_nil], by rw [List.take_zero, List.append_nil]⟩

theorem Run.cut {s₁ s₂ : Store} {v : Nat → Block} {r : Nat → Nat} {ws₁ ws₂ : List (Nat × Block)}
    (h₁ : Run s s₁ v r ws₁) (h₂ : Cut s₁ s₂ ws₂) : Cut s s₂ (ws₁ ++ ws₂) := by
  obtain ⟨k, hd, hw⟩ := h₂
  refine ⟨ws₁.length + k, ?_, ?_⟩
  · rw [List.take_length_add_append, applyWrites_append, hd, h₁.disk]
  · rw [List.take_length_add_append, hw, h₁.writes, List.append_assoc]

theorem Cut.append {ws₁ : List (Nat × Block)} (h : Cut s s' ws₁) (ws₂ : List (Nat × Block)) :
    Cut s s' (ws₁ ++ ws₂) := by
  obtain ⟨k, hd, hw⟩ := h
  refine ⟨min k ws₁.length, ?_, ?_⟩ <;>
    rw [List.take_append_of_le_length (Nat.min_le_right k _), ← List.take_eq_take_min]
  · exact hd
  · exact hw

/-- Changing the data or the references of the cached copy of `b`. -/
theorem step_setBuf (hs : Ok s) (h : Has s i b) {x : Buf} (hd : x.dev = (s.buf i).dev)
    (hb : x.blockno = (s.buf i).blockno) (hv : x.valid = (s.buf i).valid)
    (hc : x.refcnt = 0 → x.data = s.disk b) :
    Step s (s.setBuf i x) (Function.update (view s) b x.data)
      (Function.update (refs s) b x.refcnt) [] := by
  have hhas : ∀ j c, Has (s.setBuf i x) j c ↔ Has s j c := fun j c => has_setBuf_same hd hb
  have hne : ∀ j c, Has s j c → c ≠ b → j ≠ i := fun j c hj hcb hji =>
    hcb (hj.blockno.symm.trans (by rw [hji, h.blockno]))
  have hok : Ok (s.setBuf i x) := by
    refine ⟨hs.mem_lru, fun j c hj => ?_, fun j k c hj hk => ?_, fun j c hj hr => ?_,
      fun j hj hr => ?_⟩
    · rw [hhas] at hj
      by_cases hji : j = i
      · subst hji; rw [setBuf_self, hv]; exact hs.valid j c hj
      · rw [setBuf_of_ne _ _ hji]; exact hs.valid j c hj
    · rw [hhas] at hj hk
      exact hs.inj j k c hj hk
    · rw [hhas] at hj
      by_cases hji : j = i
      · subst hji
        rw [setBuf_self] at hr ⊢
        rw [hc hr, ← hj.blockno, ← h.blockno]
        rfl
      · rw [setBuf_of_ne _ _ hji] at hr ⊢
        exact hs.clean j c hj hr
    · by_cases hji : j = i
      · subst hji; rw [setBuf_self, hd]; exact h.dev
      · rw [setBuf_of_ne _ _ hji] at hr ⊢; exact hs.held j hj hr
  have hother : ∀ c, c ≠ b →
      view (s.setBuf i x) c = view s c ∧ refs (s.setBuf i x) c = refs s c := fun c hcb =>
    view_refs_ext hs hok (fun j => hhas j c)
      (fun j hj => by rw [setBuf_of_ne _ _ (hne j c hj hcb)]; exact ⟨rfl, rfl⟩) rfl
  refine ⟨⟨hok, ?_, ?_, rfl, (List.append_nil _).symm⟩, rfl, fun j c hj _ => (hhas j c).2 hj⟩
  · funext c
    by_cases hcb : c = b
    · subst hcb
      rw [view_of_has hok ((hhas i c).2 h), setBuf_self, Function.update_self]
    · rw [Function.update_of_ne hcb, (hother c hcb).1]
  · funext c
    by_cases hcb : c = b
    · subst hcb
      rw [refs_of_has hok ((hhas i c).2 h), setBuf_self, Function.update_self]
    · rw [Function.update_of_ne hcb, (hother c hcb).2]

/-- The buffer a miss leaves for block `b`. -/
def fresh (s : Store) (b : Nat) : Buf where
  valid := true
  dev := ROOTDEV
  blockno := b
  refcnt := 1
  data := s.disk b

theorem has_fresh (hi : i < NBUF) : Has (s.setBuf i (fresh s b)) j c ↔
    if j = i then c = b else Has s j c := by
  by_cases hj : j = i
  · subst hj
    rw [if_pos rfl]
    refine ⟨fun h => ?_, fun h => ⟨hi, by rw [setBuf_self]; rfl, by rw [setBuf_self, h]; rfl⟩⟩
    have := h.blockno
    rw [setBuf_self] at this
    exact this.symm
  · rw [if_neg hj, has_setBuf_of_ne hj]

theorem ok_fresh (hs : Ok s) (hn : ∀ j, ¬ Has s j b) (hi : i < NBUF) :
    Ok (s.setBuf i (fresh s b)) := by
  refine ⟨hs.mem_lru, fun j c h => ?_, fun j k c h h' => ?_, fun j c h h0 => ?_, fun j h h0 => ?_⟩
  · rw [has_fresh hi] at h
    by_cases hj : j = i
    · subst hj; rw [setBuf_self]; rfl
    · rw [if_neg hj] at h; rw [setBuf_of_ne _ _ hj]; exact hs.valid j c h
  · rw [has_fresh hi] at h h'
    by_cases hj : j = i <;> by_cases hk : k = i
    · rw [hj, hk]
    · rw [if_pos hj] at h; rw [if_neg hk, h] at h'; exact absurd h' (hn k)
    · rw [if_pos hk] at h'; rw [if_neg hj, h'] at h; exact absurd h (hn j)
    · rw [if_neg hj] at h; rw [if_neg hk] at h'; exact hs.inj j k c h h'
  · rw [has_fresh hi] at h
    by_cases hj : j = i
    · subst hj; rw [setBuf_self] at h0; exact absurd h0 Nat.one_ne_zero
    · rw [if_neg hj] at h; rw [setBuf_of_ne _ _ hj] at h0 ⊢; exact hs.clean j c h h0
  · by_cases hj : j = i
    · subst hj; rw [setBuf_self]; rfl
    · rw [setBuf_of_ne _ _ hj] at h0 ⊢; exact hs.held j h h0

/-- Recycling an unreferenced buffer for a block that is not cached shows nothing new. -/
theorem step_fresh (hs : Ok s) (hn : ∀ j, ¬ Has s j b) (hi : i < NBUF)
    (hr : (s.buf i).refcnt = 0) :
    Step s (s.setBuf i (fresh s b)) (view s) (Function.update (refs s) b (refs s b + 1)) [] := by
  have hok := ok_fresh hs hn hi
  have hib : Has (s.setBuf i (fresh s b)) i b := (has_fresh hi).2 (by rw [if_pos rfl])
  have hother : ∀ c, c ≠ b → view (s.setBuf i (fresh s b)) c = view s c ∧
      refs (s.setBuf i (fresh s b)) c = refs s c := by
    intro c hcb
    by_cases hic : Has s i c
    · -- the block that loses its buffer showed the disk's content
      have hn' : ∀ j, ¬ Has (s.setBuf i (fresh s b)) j c := fun j h => by
        rw [has_fresh hi] at h
        by_cases hj : j = i
        · rw [if_pos hj] at h; exact hcb h
        · rw [if_neg hj] at h; exact hj (hs.inj j i c h hic)
      rw [view_of_has hs hic, refs_of_has hs hic, hs.clean i c hic hr, hr,
        view_of_not_has hok hn', refs_of_not_has hok hn']
      exact ⟨rfl, rfl⟩
    · refine view_refs_ext hs hok (fun j => ?_) (fun j hj => ?_) rfl
      · rw [has_fresh hi]
        by_cases hj : j = i
        · subst hj; rw [if_pos rfl]; exact ⟨fun h => absurd h hcb, fun h => absurd h hic⟩
        · rw [if_neg hj]
      · rw [setBuf_of_ne _ _ fun h : j = i => hic (h ▸ hj)]
        exact ⟨rfl, rfl⟩
  refine ⟨⟨hok, ?_, ?_, rfl, (List.append_nil _).symm⟩, rfl, fun j c hj hpos => ?_⟩
  · funext c
    by_cases hcb : c = b
    · subst hcb
      rw [view_of_has hok hib, setBuf_self, view_of_not_has hs hn]
      rfl
    · exact (hother c hcb).1
  · funext c
    by_cases hcb : c = b
    · subst hcb
      rw [refs_of_has hok hib, setBuf_self, Function.update_self, refs_of_not_has hs hn]
      rfl
    · rw [Function.update_of_ne hcb, (hother c hcb).2]
  · have hji : j ≠ i := fun h => by
      rw [refs_of_has hs hj, h, hr] at hpos
      exact absurd hpos (Nat.lt_irrefl 0)
    exact (has_setBuf_of_ne hji).2 hj

/-- Every buffer is referenced. -/
def Full (s : Store) : Prop := ∀ i, i < NBUF → ∃ b, Has s i b ∧ 0 < refs s b

/-- A full cache references a block beside any given one. -/
theorem Full.exists_refs (hs : Ok s) (hf : Full s) (b : Nat) : ∃ c, c ≠ b ∧ 0 < refs s c := by
  obtain ⟨c₀, h₀, hr₀⟩ := hf 0 (by decide)
  obtain ⟨c₁, h₁, hr₁⟩ := hf 1 (by decide)
  by_cases hc : c₀ = b
  · refine ⟨c₁, fun h => ?_, hr₁⟩
    rw [hc] at h₀
    rw [h] at h₁
    exact absurd (hs.inj 0 1 b h₀ h₁) (by decide)
  · exact ⟨c₀, hc, hr₀⟩

/-- `bread` either finds or makes a buffer for the block, or every buffer is referenced and it
panics with nothing changed. -/
theorem bread_spec (hs : Ok s) (b : Nat) :
    wp (bread ROOTDEV b)
      (fun i s' => Has s' i b ∧
        Step s s' (view s) (Function.update (refs s) b (refs s b + 1)) [])
      (fun _ s' => s' = s ∧ Full s) s := by
  rw [bread, bget]
  simp only [wp_bind, wp_get]
  split
  · next i hi =>
    have h := has_of_find hs hi
    have hstep := step_setBuf hs h (x := { s.buf i with refcnt := (s.buf i).refcnt + 1 }) rfl rfl
      rfl fun h0 => absurd h0 (Nat.succ_ne_zero _)
    rw [← view_of_has hs h, Function.update_eq_self, ← refs_of_has hs h] at hstep
    have hh : Has (s.setBuf i { s.buf i with refcnt := refs s b + 1 }) i b :=
      (has_setBuf_same (by rfl) (by rfl)).2 h
    simp only [wp_bind, wp_set, wp_pure, ← refs_of_has hs h, hstep.ok.valid i b hh,
      Bool.not_true, Bool.false_eq_true, if_false]
    exact ⟨hh, hstep⟩
  · next hn =>
    split
    · next i hi =>
      have hlru := List.mem_reverse.1 (List.mem_of_find?_eq_some hi)
      have hr := List.find?_some hi
      rw [beq_iff_eq] at hr
      have hlt := (hs.mem_lru i).1 hlru
      have hset : ∀ x y z : Buf, ((s.setBuf i x).setBuf i y).setBuf i z = s.setBuf i z :=
        fun x y z => by simp only [Store.setBuf, Function.update_idem]
      simp only [wp_bind, wp_set, wp_pure, setBuf_self, Bool.not_false, if_true, virtioDiskRw,
        wp_modify, Bool.false_eq_true, if_false, hset]
      exact ⟨(has_fresh hlt).2 (by rw [if_pos rfl]),
        step_fresh hs (not_has_of_find hs hn) hlt hr⟩
    · next hfree =>
      rw [wp_panic]
      refine ⟨rfl, fun i hi => ?_⟩
      have hlru := List.mem_reverse.2 ((hs.mem_lru i).2 hi)
      have hr : 0 < (s.buf i).refcnt := by
        have := List.find?_eq_none.1 hfree i hlru
        rw [beq_iff_eq] at this
        omega
      have hhas : Has s i (s.buf i).blockno := ⟨hi, hs.held i hi hr, rfl⟩
      exact ⟨_, hhas, by rw [refs_of_has hs hhas]; exact hr⟩

variable {E : Halt → Store → Prop}

theorem setData_spec (hs : Ok s) (h : Has s i b) (hpos : 0 < refs s b) (d : Block) :
    wp (setData i d) (fun _ s' => Step s s' (Function.update (view s) b d) (refs s) []) E s := by
  have hr := refs_of_has hs h
  have hstep := step_setBuf hs h (x := { s.buf i with data := d }) rfl rfl rfl
    fun h0 => absurd (hr.trans h0) (Nat.ne_of_gt hpos)
  rw [← hr, Function.update_eq_self] at hstep
  rw [setData, wp_modify]
  exact hstep

theorem bpin_spec (hs : Ok s) (h : Has s i b) :
    wp (bpin i) (fun _ s' => Has s' i b ∧
      Step s s' (view s) (Function.update (refs s) b (refs s b + 1)) []) E s := by
  have hstep := step_setBuf hs h (x := { s.buf i with refcnt := (s.buf i).refcnt + 1 }) rfl rfl rfl
    fun h0 => absurd h0 (Nat.succ_ne_zero _)
  rw [← view_of_has hs h, Function.update_eq_self, ← refs_of_has hs h] at hstep
  rw [bpin, wp_modify, ← refs_of_has hs h]
  exact ⟨(has_setBuf_same (by rfl) (by rfl)).2 h, hstep⟩

/-- Dropping a reference that is not the last one, or one to a buffer that agrees with the
disk. -/
theorem step_unref (hs : Ok s) (h : Has s i b) (hc : refs s b ≤ 1 → view s b = s.disk b) :
    Step s (s.setBuf i { s.buf i with refcnt := (s.buf i).refcnt - 1 }) (view s)
        (Function.update (refs s) b (refs s b - 1)) [] := by
  rw [view_of_has hs h, refs_of_has hs h] at hc
  have hstep := step_setBuf hs h (x := { s.buf i with refcnt := (s.buf i).refcnt - 1 }) rfl rfl rfl
    fun h0 => hc (by have : (s.buf i).refcnt - 1 = 0 := h0; omega)
  rw [← view_of_has hs h, Function.update_eq_self, ← refs_of_has hs h] at hstep
  rw [← refs_of_has hs h]
  exact hstep

theorem bunpin_spec (hs : Ok s) (h : Has s i b) (hc : refs s b ≤ 1 → view s b = s.disk b) :
    wp (bunpin i)
      (fun _ s' => Step s s' (view s) (Function.update (refs s) b (refs s b - 1)) []) E s := by
  rw [bunpin, wp_modify]
  exact step_unref hs h hc

/-- The order of the list does not show. -/
theorem step_lru (hs : Ok s) (l : List Nat) (hl : ∀ j, j ∈ l ↔ j < NBUF) :
    Step s { s with lru := l } (view s) (refs s) [] := by
  have hhas : ∀ j c, Has { s with lru := l } j c ↔ Has s j c := fun j c =>
    ⟨fun h => ⟨h.lt, h.dev, h.blockno⟩, fun h => ⟨h.lt, h.dev, h.blockno⟩⟩
  have hok : Ok { s with lru := l } :=
    ⟨hl, fun j c h => hs.valid j c ((hhas j c).1 h),
      fun j k c h h' => hs.inj j k c ((hhas j c).1 h) ((hhas k c).1 h'),
      fun j c h => hs.clean j c ((hhas j c).1 h), hs.held⟩
  have hext := fun c => view_refs_ext hs hok (fun j => hhas j c) (fun _ _ => ⟨rfl, rfl⟩) rfl
  exact ⟨⟨hok, funext fun c => (hext c).1, funext fun c => (hext c).2, rfl,
    (List.append_nil _).symm⟩, rfl, fun j c h _ => (hhas j c).2 h⟩

theorem brelse_spec (hs : Ok s) (h : Has s i b) (hc : refs s b ≤ 1 → view s b = s.disk b) :
    wp (brelse i)
      (fun _ s' => Step s s' (view s) (Function.update (refs s) b (refs s b - 1)) []) E s := by
  have hstep := step_unref hs h hc
  have hhas : ∀ j c, Has s j c →
      Has (s.setBuf i { s.buf i with refcnt := (s.buf i).refcnt - 1 }) j c := fun j c hj =>
    (has_setBuf_same (by rfl) (by rfl)).2 hj
  rw [brelse, wp_modify]
  simp only
  split
  · have hl : ∀ j, j ∈ i :: (s.setBuf i { s.buf i with refcnt := (s.buf i).refcnt - 1 }).lru.erase i
        ↔ j < NBUF := by
      intro j
      rw [← hs.mem_lru j, List.mem_cons]
      by_cases hj : j = i
      · simp only [hj, true_or, true_iff]
        exact (hs.mem_lru i).2 h.lt
      · rw [List.mem_erase_of_ne hj]
        exact ⟨fun h => h.resolve_left hj, Or.inr⟩
    have hlru := step_lru hstep.ok _ hl
    refine ⟨⟨hlru.ok, hlru.view.trans hstep.view, hlru.refs.trans hstep.refs, rfl,
      (List.append_nil _).symm⟩, rfl, fun j c hj _ => ?_⟩
    exact ⟨hj.lt, (hhas j c hj).dev, (hhas j c hj).blockno⟩
  · exact hstep

/-- `bwrite` makes the disk agree with the buffer. -/
theorem bwrite_spec (hs : Ok s) (h : Has s i b) :
    wp (bwrite i) (fun _ s' => Step s s' (view s) (refs s) [(b, view s b)]) E s := by
  rw [bwrite, virtioDiskRw, wp_modify]
  simp only [if_true, h.blockno, ← view_of_has hs h]
  have hhas : ∀ j c, Has { s with
      disk := Function.update s.disk b (view s b)
      writes := s.writes ++ [(b, view s b)] } j c ↔ Has s j c := fun j c =>
    ⟨fun h => ⟨h.lt, h.dev, h.blockno⟩, fun h => ⟨h.lt, h.dev, h.blockno⟩⟩
  have hok : Ok { s with
      disk := Function.update s.disk b (view s b)
      writes := s.writes ++ [(b, view s b)] } := by
    refine ⟨hs.mem_lru, fun j c hj => hs.valid j c ((hhas j c).1 hj),
      fun j k c hj hk => hs.inj j k c ((hhas j c).1 hj) ((hhas k c).1 hk), fun j c hj hr => ?_,
      hs.held⟩
    rw [hhas] at hj
    by_cases hcb : c = b
    · subst hcb
      simp only [Function.update_self]
      exact (view_of_has hs hj).symm
    · simp only [Function.update_of_ne hcb]
      exact hs.clean j c hj hr
  have hext : ∀ c, view { s with
      disk := Function.update s.disk b (view s b)
      writes := s.writes ++ [(b, view s b)] } c = view s c ∧ refs { s with
      disk := Function.update s.disk b (view s b)
      writes := s.writes ++ [(b, view s b)] } c = refs s c := by
    intro c
    by_cases hcb : c = b
    · subst hcb
      rw [view_of_has hok ((hhas i c).2 h), refs_of_has hok ((hhas i c).2 h), view_of_has hs h,
        refs_of_has hs h]
      exact ⟨rfl, rfl⟩
    · refine view_refs_ext hs hok (fun j => hhas j c) (fun _ _ => ⟨rfl, rfl⟩) ?_
      simp only [Function.update_of_ne hcb]
  exact ⟨⟨hok, funext fun c => (hext c).1, funext fun c => (hext c).2, rfl, rfl⟩, rfl,
    fun j c hj _ => (hhas j c).2 hj⟩

end Cache

end Xv6
