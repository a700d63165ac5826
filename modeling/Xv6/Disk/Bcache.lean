import Mathlib.Data.List.FinRange
import Mathlib.Algebra.GroupWithZero.Nat
import Xv6.Base.Linked
import Xv6.Disk.Bio

/-!
# The list of buffers

`Disk.Bio` keeps the buffers in a list of indices and counts their references by natural numbers.
Here is what `kernel/bio.c` does underneath: a ring of `next` and `prev` pointers through
`bcache.head`, searched from either end and spliced by `brelse`, and a reference count of 32 bits.
`Represents` relates the two, and `bget_represents`, `brelse_represents`, `bpin_represents` and
`bunpin_represents` say that the pointer code refines the list.

The critical section of each function under `bcache.lock` is one step.  The sleep lock of a buffer
is not modelled: whoever has come out of the critical section of `bget` is a holder, whether or not
it still waits for the sleep lock.

Ghost state records the holders and the pins of each buffer, and when it was last released.
-/

set_option autoImplicit false

namespace Xv6

namespace Bcache

instance : NeZero NBUF := ⟨by decide⟩

/-- A `struct buf *`: `&bcache.head`, or `&bcache.buf[b]`. -/
abbrev Node : Type := Option (Fin NBUF)

/-- `struct buf`, without its data, its sleep lock and its links. -/
structure Entry where
  valid : Bool
  dev : Nat
  blockno : Nat
  /-- A `uint`. -/
  refcnt : Nat

/-- `bcache`. -/
structure State where
  buf : Fin NBUF → Entry
  links : Linked Node

namespace State

/-- Change one buffer. -/
def setBuf (s : State) (b : Fin NBUF) (x : Entry) : State :=
  { s with buf := Function.update s.buf b x }

/-- `b->dev == dev && b->blockno == blockno`. -/
def isBlock (s : State) (dev blockno : Nat) : Node → Bool
  | none => false
  | some b => (s.buf b).dev == dev && (s.buf b).blockno == blockno

/-- `b->refcnt == 0`. -/
def isFree (s : State) : Node → Bool
  | none => false
  | some b => (s.buf b).refcnt == 0

end State

/-- The links after `binit()`: each buffer is put at the front. -/
def initLinks : Linked Node :=
  (List.finRange NBUF).foldl (fun x b => x.insert none (some b))
    { next := fun _ => none, prev := fun _ => none }

/-- `binit()`. -/
def binit : State where
  buf := fun _ => { valid := false, dev := 0, blockno := 0, refcnt := 0 }
  links := initLinks

/-- `refcnt++`, of a `uint`. -/
def incr (x : Entry) : Entry := { x with refcnt := (x.refcnt + 1) % 2 ^ 32 }

/-- `refcnt--`, of a `uint`. -/
def decr (x : Entry) : Entry := { x with refcnt := (x.refcnt + (2 ^ 32 - 1)) % 2 ^ 32 }

/-- `bget(dev, blockno)`. -/
def bget (dev blockno : Nat) : Kern State (Fin NBUF) := do
  let s ← get
  -- is the block already cached?
  match Linked.scan s.links.next none (s.isBlock dev blockno) (NBUF + 1) (s.links.next none) with
  | none => diverge
  | some (some b) =>
    set (s.setBuf b (incr (s.buf b)))
    return b
  | some none =>
    -- not cached
    match Linked.scan s.links.prev none s.isFree (NBUF + 1) (s.links.prev none) with
    | none => diverge
    | some (some b) =>
      set (s.setBuf b { dev := dev, blockno := blockno, valid := false, refcnt := 1 })
      return b
    | some none => panic "bget: no buffers"

/-- `brelse(b)`. -/
def brelse (b : Fin NBUF) : Kern State Unit :=
  modify fun s =>
    let s := s.setBuf b (decr (s.buf b))
    if (s.buf b).refcnt = 0 then
      { s with links := (s.links.remove (some b)).insert none (some b) }
    else s

/-- `bpin(b)`. -/
def bpin (b : Fin NBUF) : Kern State Unit := modify fun s => s.setBuf b (incr (s.buf b))

/-- `bunpin(b)`. -/
def bunpin (b : Fin NBUF) : Kern State Unit := modify fun s => s.setBuf b (decr (s.buf b))

/-! ## The ring -/

/-- The ring through `bcache.head` holds each buffer once, in the order `l`. -/
structure Listed (x : Linked Node) (l : List (Fin NBUF)) : Prop where
  ring : x.Ring none (l.map some)
  all : ∀ b, b ∈ l

section

variable {x : Linked Node} {l : List (Fin NBUF)} {b : Fin NBUF}

theorem Listed.nodup (h : Listed x l) : l.Nodup :=
  List.Nodup.of_map some (List.nodup_cons.1 h.ring.nodup).2

theorem Listed.length (h : Listed x l) : l.length = NBUF := by
  have hperm : l.Perm (List.finRange NBUF) :=
    (List.perm_ext_iff_of_nodup h.nodup (List.nodup_finRange NBUF)).2 fun b =>
      ⟨fun _ => List.mem_finRange b, fun _ => h.all b⟩
  rw [hperm.length_eq, List.length_finRange]

theorem find_map_some (l : List (Fin NBUF)) (test : Node → Bool) :
    ((l.map some).find? test).getD none = l.find? fun b => test (some b) := by
  rw [List.find?_map]
  change Option.getD (Option.map some (l.find? fun b => test (some b))) none = _
  cases l.find? fun b => test (some b) <;> rfl

theorem Listed.scan_next (h : Listed x l) (test : Node → Bool) :
    Linked.scan x.next none test (NBUF + 1) (x.next none) =
      some (l.find? fun b => test (some b)) := by
  rw [h.ring.scan_next (by rw [List.length_map, h.length]; exact Nat.lt_succ_self _),
    find_map_some]

theorem Listed.scan_prev (h : Listed x l) (test : Node → Bool) :
    Linked.scan x.prev none test (NBUF + 1) (x.prev none) =
      some (l.reverse.find? fun b => test (some b)) := by
  rw [h.ring.scan_prev (by rw [List.length_map, h.length]; exact Nat.lt_succ_self _),
    ← List.map_reverse, find_map_some]

/-- `brelse` moves a buffer to the front. -/
theorem Listed.toFront (h : Listed x l) (b : Fin NBUF) :
    Listed ((x.remove (some b)).insert none (some b)) (b :: l.erase b) := by
  obtain ⟨l₁, l₂, rfl⟩ := List.append_of_mem (h.all b)
  have hnd := List.nodup_middle.1 h.nodup
  have hb : b ∉ l₁ ++ l₂ := (List.nodup_cons.1 hnd).1
  have herase : (l₁ ++ b :: l₂).erase b = l₁ ++ l₂ := by
    rw [List.erase_append_right _ fun hm => hb (List.mem_append_left _ hm), List.erase_cons_head]
  have hring := h.ring
  rw [List.map_append, List.map_cons] at hring
  refine ⟨?_, fun c => ?_⟩
  · rw [herase, List.map_cons, List.map_append]
    refine hring.remove.insert ?_
    rw [List.mem_cons, not_or, ← List.map_append]
    exact ⟨nofun, fun hm => hb ((List.mem_map_of_injective (Option.some_injective _)).1 hm)⟩
  · by_cases hc : c = b
    · exact hc ▸ List.mem_cons_self
    · exact List.mem_cons_of_mem b ((List.mem_erase_of_ne hc).2 (h.all c))

end

theorem ring_foldl_insert (l : List (Fin NBUF)) : ∀ (x : Linked Node) (m : List (Fin NBUF)),
    x.Ring none (m.map some) → (l ++ m).Nodup →
      (l.foldl (fun x b => x.insert none (some b)) x).Ring none ((l.reverse ++ m).map some) := by
  induction l with
  | nil => exact fun x m h _ => h
  | cons b l ih =>
    intro x m h hnd
    rw [List.cons_append, List.nodup_cons, List.mem_append, not_or] at hnd
    rw [List.foldl_cons, List.reverse_cons, List.append_assoc]
    refine ih _ (b :: m) ?_ ?_
    · refine h.insert ?_
      rw [List.mem_cons, not_or]
      exact ⟨nofun, fun hm =>
        hnd.1.2 ((List.mem_map_of_injective (Option.some_injective _)).1 hm)⟩
    · rw [List.nodup_append_comm, List.cons_append, List.nodup_cons, List.mem_append]
      refine ⟨fun hm => hm.elim hnd.1.2 hnd.1.1, ?_⟩
      rw [List.nodup_append_comm]
      exact hnd.2

theorem listed_init : Listed initLinks (List.finRange NBUF).reverse := by
  refine ⟨?_, fun b => List.mem_reverse.2 (List.mem_finRange b)⟩
  have h := ring_foldl_insert (List.finRange NBUF)
    { next := fun _ => none, prev := fun _ => none } [] ⟨List.nodup_singleton _, rfl, rfl⟩
    (by rw [List.append_nil]; exact List.nodup_finRange NBUF)
  rw [List.append_nil] at h
  exact h

/-- `bget` on a sound ring, in terms of the list. -/
theorem bget_eq {s : State} {l : List (Fin NBUF)} (h : Listed s.links l) (dev blockno : Nat) :
    bget dev blockno s =
      match l.find? fun b => s.isBlock dev blockno (some b) with
      | some b => .ok b (s.setBuf b (incr (s.buf b)))
      | none =>
        match l.reverse.find? fun b => s.isFree (some b) with
        | some b => .ok b (s.setBuf b { dev := dev, blockno := blockno, valid := false, refcnt := 1 })
        | none => .error (.panic "bget: no buffers") s := by
  have hget : ∀ f : State → Kern State (Fin NBUF), (get >>= f) s = f s s := fun f => rfl
  rw [bget, hget, h.scan_next, h.scan_prev]
  cases l.find? fun b => s.isBlock dev blockno (some b) with
  | some b => rfl
  | none => cases l.reverse.find? fun b => s.isFree (some b) <;> rfl

/-! ## Histories -/

/-- The cache after some calls, with who uses the buffers. -/
structure History where
  cache : State
  /-- Calls of `bget` that returned the buffer, less calls of `brelse`. -/
  holders : Fin NBUF → Nat
  /-- Calls of `bpin`, less calls of `bunpin`. -/
  pins : Fin NBUF → Nat
  /-- The number of calls so far. -/
  time : Nat
  /-- When `brelse` was last called for the buffer. -/
  brelsed : Fin NBUF → Nat
  /-- When `brelse` last dropped the last reference to the buffer; `0` if it never did. -/
  freed : Fin NBUF → Nat

/-- The calls. -/
inductive Call
  | bget (dev blockno : Nat)
  | brelse (b : Fin NBUF)
  | bpin (b : Fin NBUF)
  | bunpin (b : Fin NBUF)

namespace History

/-- One call; nothing if it panics, or releases or unpins what was not taken. -/
def step (h : History) : Call → Option History
  | .bget dev blockno =>
    match Bcache.bget dev blockno h.cache with
    | .ok b s => some { h with
        cache := s, time := h.time + 1
        holders := Function.update h.holders b (h.holders b + 1) }
    | .error _ _ => none
  | .brelse b =>
    if 0 < h.holders b then
      let s := finalState (Bcache.brelse b) h.cache
      some { h with
        cache := s, time := h.time + 1
        holders := Function.update h.holders b (h.holders b - 1)
        brelsed := Function.update h.brelsed b (h.time + 1)
        freed := if (s.buf b).refcnt = 0 then Function.update h.freed b (h.time + 1) else h.freed }
    else none
  | .bpin b => some { h with
      cache := finalState (Bcache.bpin b) h.cache, time := h.time + 1
      pins := Function.update h.pins b (h.pins b + 1) }
  | .bunpin b =>
    if 0 < h.pins b then some { h with
      cache := finalState (Bcache.bunpin b) h.cache, time := h.time + 1
      pins := Function.update h.pins b (h.pins b - 1) }
    else none

/-- Calls one after the other. -/
def run : List Call → History → Option History
  | [], h => some h
  | c :: cs, h => (h.step c).bind (run cs)

/-- Before any call. -/
def start : History where
  cache := binit
  holders := fun _ => 0
  pins := fun _ => 0
  time := 0
  brelsed := fun _ => 0
  freed := fun _ => 0

end History

/-- Buffer `b` was freed before buffer `a`, or neither ever was and `b` has the smaller index. -/
def Older (h : History) (a b : Fin NBUF) : Prop :=
  h.freed b < h.freed a ∨ (h.freed a = 0 ∧ h.freed b = 0 ∧ b < a)

/-- The invariant of the cache. -/
structure Inv (h : History) (l : List (Fin NBUF)) : Prop where
  listed : Listed h.cache.links l
  unique : ∀ b c, (h.cache.buf b).dev ≠ 0 → (h.cache.buf b).dev = (h.cache.buf c).dev →
    (h.cache.buf b).blockno = (h.cache.buf c).blockno → b = c
  counts : ∀ b, (h.cache.buf b).refcnt = (h.holders b + h.pins b) % 2 ^ 32
  order : l.Pairwise (Older h)
  past : ∀ b, h.freed b ≤ h.time

section

variable {h h' : History} {l : List (Fin NBUF)} {b : Fin NBUF}

theorem setBuf_self (s : State) (b : Fin NBUF) (x : Entry) : (s.setBuf b x).buf b = x :=
  Function.update_self ..

theorem setBuf_of_ne (s : State) {b c : Fin NBUF} (hc : c ≠ b) (x : Entry) :
    (s.setBuf b x).buf c = s.buf c := Function.update_of_ne hc ..

/-- A buffer keeps its key. -/
theorem Inv.unique_setBuf (hi : Inv h l) {x : Entry} (hd : x.dev = (h.cache.buf b).dev)
    (hb : x.blockno = (h.cache.buf b).blockno) (c d : Fin NBUF)
    (h0 : ((h.cache.setBuf b x).buf c).dev ≠ 0)
    (h1 : ((h.cache.setBuf b x).buf c).dev = ((h.cache.setBuf b x).buf d).dev)
    (h2 : ((h.cache.setBuf b x).buf c).blockno = ((h.cache.setBuf b x).buf d).blockno) :
    c = d := by
  have hkey : ∀ c, ((h.cache.setBuf b x).buf c).dev = (h.cache.buf c).dev ∧
      ((h.cache.setBuf b x).buf c).blockno = (h.cache.buf c).blockno := by
    intro c
    by_cases hc : c = b
    · rw [hc, setBuf_self]
      exact ⟨hd, hb⟩
    · rw [setBuf_of_ne _ hc]
      exact ⟨rfl, rfl⟩
  rw [(hkey c).1] at h0 h1
  rw [(hkey d).1] at h1
  rw [(hkey c).2, (hkey d).2] at h2
  exact hi.unique c d h0 h1 h2

/-- A buffer gets a key that no buffer has. -/
theorem Inv.unique_recycle (hi : Inv h l) {dev blockno : Nat}
    (hn : ∀ c, h.cache.isBlock dev blockno (some c) = false) {x : Entry} (hd : x.dev = dev)
    (hb : x.blockno = blockno) (c d : Fin NBUF) (h0 : ((h.cache.setBuf b x).buf c).dev ≠ 0)
    (h1 : ((h.cache.setBuf b x).buf c).dev = ((h.cache.setBuf b x).buf d).dev)
    (h2 : ((h.cache.setBuf b x).buf c).blockno = ((h.cache.setBuf b x).buf d).blockno) :
    c = d := by
  have hother : ∀ e, (h.cache.buf e).dev = dev → (h.cache.buf e).blockno = blockno → False := by
    intro e he1 he2
    have := hn e
    rw [State.isBlock, he1, he2, beq_self_eq_true, beq_self_eq_true] at this
    cases this
  by_cases hc : c = b
  · by_cases hdb : d = b
    · rw [hc, hdb]
    · rw [hc, setBuf_self, setBuf_of_ne _ hdb] at h1 h2
      exact (hother d (h1.symm.trans hd) (h2.symm.trans hb)).elim
  · rw [setBuf_of_ne _ hc] at h0 h1 h2
    by_cases hdb : d = b
    · rw [hdb, setBuf_self] at h1 h2
      exact (hother c (h1.trans hd) (h2.trans hb)).elim
    · rw [setBuf_of_ne _ hdb] at h1 h2
      exact hi.unique c d h0 h1 h2

theorem decr_key (x : Entry) : (decr x).dev = x.dev ∧ (decr x).blockno = x.blockno := by
  cases x
  exact ⟨rfl, rfl⟩

theorem incr_mod (n : Nat) : (n % 2 ^ 32 + 1) % 2 ^ 32 = (n + 1) % 2 ^ 32 := by omega

theorem decr_mod {n : Nat} (hn : 0 < n) :
    (n % 2 ^ 32 + (2 ^ 32 - 1)) % 2 ^ 32 = (n - 1) % 2 ^ 32 := by omega

/-- One buffer and its count change. -/
theorem Inv.counts_setBuf (hi : Inv h l) {x : Entry} {holders pins : Fin NBUF → Nat}
    (hb : x.refcnt = (holders b + pins b) % 2 ^ 32)
    (hh : ∀ c, c ≠ b → holders c = h.holders c ∧ pins c = h.pins c) (c : Fin NBUF) :
    ((h.cache.setBuf b x).buf c).refcnt = (holders c + pins c) % 2 ^ 32 := by
  by_cases hc : c = b
  · rw [hc, setBuf_self, hb]
  · rw [setBuf_of_ne _ hc, (hh c hc).1, (hh c hc).2]
    exact hi.counts c

theorem not_isBlock_of_find {s : State} (hl : Listed s.links l) {dev blockno : Nat}
    (hn : (l.find? fun b => s.isBlock dev blockno (some b)) = none) (c : Fin NBUF) :
    s.isBlock dev blockno (some c) = false :=
  Bool.eq_false_of_not_eq_true (List.find?_eq_none.1 hn c (hl.all c))

theorem Inv.step_bget (hi : Inv h l) {dev blockno : Nat}
    (hs : h.step (.bget dev blockno) = some h') : Inv h' l := by
  rw [History.step, bget_eq hi.listed] at hs
  cases hk : l.find? fun b => h.cache.isBlock dev blockno (some b) with
  | some b =>
    rw [hk] at hs
    cases hs
    refine ⟨hi.listed, hi.unique_setBuf rfl rfl, hi.counts_setBuf ?_ fun c hc => ?_, hi.order,
      fun c => Nat.le_succ_of_le (hi.past c)⟩
    · show ((h.cache.buf b).refcnt + 1) % 2 ^ 32 =
        (Function.update h.holders b (h.holders b + 1) b + h.pins b) % 2 ^ 32
      rw [Function.update_self, hi.counts b, incr_mod, Nat.add_right_comm]
    · exact ⟨Function.update_of_ne hc .., rfl⟩
  | none =>
    rw [hk] at hs
    have hn := not_isBlock_of_find hi.listed hk
    cases hf : l.reverse.find? fun b => h.cache.isFree (some b) with
    | some b =>
      rw [hf] at hs
      cases hs
      have hfree : (h.cache.buf b).refcnt = 0 := by
        have := List.find?_some hf
        exact beq_iff_eq.1 this
      refine ⟨hi.listed, hi.unique_recycle hn rfl rfl, hi.counts_setBuf ?_ fun c hc => ?_,
        hi.order, fun c => Nat.le_succ_of_le (hi.past c)⟩
      · have h0 := hi.counts b
        rw [hfree] at h0
        show 1 = (Function.update h.holders b (h.holders b + 1) b + h.pins b) % 2 ^ 32
        rw [Function.update_self, Nat.add_right_comm, ← incr_mod, ← h0]
        rfl
      · exact ⟨Function.update_of_ne hc .., rfl⟩
    | none =>
      rw [hf] at hs
      cases hs

theorem Inv.step_bpin (hi : Inv h l) (hs : h.step (.bpin b) = some h') : Inv h' l := by
  cases hs
  refine ⟨hi.listed, hi.unique_setBuf rfl rfl, hi.counts_setBuf ?_ fun c hc => ?_, hi.order,
    fun c => Nat.le_succ_of_le (hi.past c)⟩
  · show ((h.cache.buf b).refcnt + 1) % 2 ^ 32 =
      (h.holders b + Function.update h.pins b (h.pins b + 1) b) % 2 ^ 32
    rw [Function.update_self, hi.counts b, incr_mod, Nat.add_assoc]
  · exact ⟨rfl, Function.update_of_ne hc ..⟩

theorem Inv.step_bunpin (hi : Inv h l) (hs : h.step (.bunpin b) = some h') : Inv h' l := by
  rw [History.step] at hs
  split at hs
  · next hpos =>
    cases hs
    have hkey := decr_key (h.cache.buf b)
    refine ⟨hi.listed, hi.unique_setBuf hkey.1 hkey.2, hi.counts_setBuf ?_ fun c hc => ?_, hi.order,
      fun c => Nat.le_succ_of_le (hi.past c)⟩
    · show ((h.cache.buf b).refcnt + (2 ^ 32 - 1)) % 2 ^ 32 =
        (h.holders b + Function.update h.pins b (h.pins b - 1) b) % 2 ^ 32
      rw [Function.update_self, hi.counts b, decr_mod (by omega), Nat.add_sub_assoc hpos]
    · exact ⟨rfl, Function.update_of_ne hc ..⟩
  · cases hs

/-- Moving the buffer just freed to the front keeps the order. -/
theorem Inv.order_toFront (hi : Inv h l) (b : Fin NBUF)
    (hf : h'.freed = Function.update h.freed b (h.time + 1)) :
    (b :: l.erase b).Pairwise (Older h') := by
  have hnd := hi.listed.nodup
  refine List.pairwise_cons.2 ⟨fun c hc => ?_, ?_⟩
  · have hcb : c ≠ b := fun he => hnd.not_mem_erase (he ▸ hc)
    left
    rw [hf, Function.update_self, Function.update_of_ne hcb]
    exact Nat.lt_succ_of_le (hi.past c)
  · refine (hi.order.sublist List.erase_sublist).imp_of_mem fun {c d} hc hd hcd => ?_
    have hcb : c ≠ b := fun he => hnd.not_mem_erase (he ▸ hc)
    have hdb : d ≠ b := fun he => hnd.not_mem_erase (he ▸ hd)
    rw [Older, hf, Function.update_of_ne hcb, Function.update_of_ne hdb]
    exact hcd

theorem Inv.step_brelse (hi : Inv h l) (hs : h.step (.brelse b) = some h') :
    ∃ l', Inv h' l' := by
  rw [History.step] at hs
  split at hs
  · next hpos =>
    have hcount : ∀ c, ((h.cache.setBuf b (decr (h.cache.buf b))).buf c).refcnt =
        (Function.update h.holders b (h.holders b - 1) c + h.pins c) % 2 ^ 32 := by
      refine hi.counts_setBuf ?_ fun c hc => ⟨Function.update_of_ne hc .., rfl⟩
      show ((h.cache.buf b).refcnt + (2 ^ 32 - 1)) % 2 ^ 32 = _
      rw [Function.update_self, hi.counts b, decr_mod (by omega), Nat.sub_add_comm hpos]
    have huniq := hi.unique_setBuf (decr_key (h.cache.buf b)).1 (decr_key (h.cache.buf b)).2
    have hpast : ∀ c, h.freed c ≤ h.time + 1 := fun c => Nat.le_succ_of_le (hi.past c)
    by_cases h0 : ((h.cache.setBuf b (decr (h.cache.buf b))).buf b).refcnt = 0
    · have hfin : finalState (brelse b) h.cache =
          { h.cache.setBuf b (decr (h.cache.buf b)) with
            links := (h.cache.links.remove (some b)).insert none (some b) } := if_pos h0
      rw [hfin] at hs
      simp only [h0, if_true] at hs
      cases hs
      refine ⟨b :: l.erase b, hi.listed.toFront b, huniq, hcount, hi.order_toFront b rfl,
        fun c => ?_⟩
      show Function.update h.freed b (h.time + 1) c ≤ h.time + 1
      by_cases hc : c = b
      · rw [hc, Function.update_self]
      · rw [Function.update_of_ne hc]
        exact hpast c
    · have hfin : finalState (brelse b) h.cache = h.cache.setBuf b (decr (h.cache.buf b)) :=
        if_neg h0
      rw [hfin] at hs
      simp only [h0, if_false] at hs
      cases hs
      exact ⟨l, hi.listed, huniq, hcount, hi.order, hpast⟩
  · cases hs

/-- Every call keeps the invariant. -/
theorem Inv.step (hi : Inv h l) {c : Call} (hs : h.step c = some h') : ∃ l', Inv h' l' := by
  cases c with
  | bget dev blockno => exact ⟨l, hi.step_bget hs⟩
  | brelse b => exact hi.step_brelse hs
  | bpin b => exact ⟨l, hi.step_bpin hs⟩
  | bunpin b => exact ⟨l, hi.step_bunpin hs⟩

theorem inv_start : Inv History.start (List.finRange NBUF).reverse := by
  refine ⟨listed_init, fun b c h0 => absurd rfl h0, fun _ => rfl, ?_, fun _ => Nat.le_refl 0⟩
  rw [List.pairwise_reverse]
  exact (List.pairwise_lt_finRange NBUF).imp fun hlt => .inr ⟨rfl, rfl, hlt⟩

/-- The invariant holds after any calls. -/
theorem inv_run {cs : List Call} (hr : History.run cs History.start = some h) :
    ∃ l, Inv h l := by
  have hall : ∀ (cs : List Call) (h₀ : History) (l₀ : List (Fin NBUF)), Inv h₀ l₀ →
      History.run cs h₀ = some h → ∃ l, Inv h l := by
    intro cs
    induction cs with
    | nil =>
      intro h₀ l₀ hi hr
      cases hr
      exact ⟨l₀, hi⟩
    | cons c cs ih =>
      intro h₀ l₀ hi hr
      obtain ⟨h₁, h1, h2⟩ := Option.bind_eq_some_iff.1 hr
      obtain ⟨l₁, hi₁⟩ := hi.step h1
      exact ih h₁ l₁ hi₁ h2
  exact hall cs _ _ inv_start hr

/-- A search from the back finds the oldest. -/
theorem older_of_find {test : Fin NBUF → Bool} {R : Fin NBUF → Fin NBUF → Prop}
    (hp : l.Pairwise R) (hf : l.reverse.find? test = some b) {c : Fin NBUF} (hc : c ∈ l)
    (ht : test c = true) (hne : c ≠ b) : R c b := by
  obtain ⟨-, l₁, l₂, he, hno⟩ := List.find?_eq_some_iff_append.1 hf
  have hl : l = l₂.reverse ++ b :: l₁.reverse := by
    rw [← List.reverse_reverse l, he, List.reverse_append, List.reverse_cons, List.append_assoc]
    rfl
  rw [hl, List.pairwise_append] at hp
  rw [hl, List.mem_append, List.mem_cons] at hc
  rcases hc with hc | hc | hc
  · exact hp.2.2 c hc b List.mem_cons_self
  · exact absurd hc hne
  · have := hno c (List.mem_reverse.1 hc)
    rw [ht] at this
    cases this

/-- What `bget` does: it takes a reference to the buffer that caches the block; or, if none does,
it recycles an unreferenced buffer, of which it takes the one freed longest ago; or, if there is
none, it panics. -/
def Gets (h : History) (dev blockno : Nat) : EStateM.Result Halt State (Fin NBUF) → Prop
  | .ok b s =>
    ((h.cache.buf b).dev = dev ∧ (h.cache.buf b).blockno = blockno ∧
      s = h.cache.setBuf b (incr (h.cache.buf b))) ∨
    ((∀ c, ¬ ((h.cache.buf c).dev = dev ∧ (h.cache.buf c).blockno = blockno)) ∧
      (h.cache.buf b).refcnt = 0 ∧
      (∀ c, c ≠ b → (h.cache.buf c).refcnt = 0 → Older h c b) ∧
      s = h.cache.setBuf b { dev := dev, blockno := blockno, valid := false, refcnt := 1 })
  | .error e s =>
    e = .panic "bget: no buffers" ∧ s = h.cache ∧
      (∀ c, ¬ ((h.cache.buf c).dev = dev ∧ (h.cache.buf c).blockno = blockno)) ∧
      ∀ c, (h.cache.buf c).refcnt ≠ 0

theorem Inv.gets (hi : Inv h l) (dev blockno : Nat) :
    Gets h dev blockno (bget dev blockno h.cache) := by
  rw [bget_eq hi.listed]
  cases hk : l.find? fun b => h.cache.isBlock dev blockno (some b) with
  | some b =>
    have hb := List.find?_some hk
    rw [State.isBlock, Bool.and_eq_true, beq_iff_eq, beq_iff_eq] at hb
    exact .inl ⟨hb.1, hb.2, rfl⟩
  | none =>
    have hn : ∀ c, ¬ ((h.cache.buf c).dev = dev ∧ (h.cache.buf c).blockno = blockno) := by
      rintro c ⟨h1, h2⟩
      have hc := not_isBlock_of_find hi.listed hk c
      rw [State.isBlock, h1, h2, beq_self_eq_true, beq_self_eq_true] at hc
      cases hc
    cases hf : l.reverse.find? fun b => h.cache.isFree (some b) with
    | some b =>
      have hb := List.find?_some hf
      refine .inr ⟨hn, beq_iff_eq.1 hb, fun c hc h0 => ?_, rfl⟩
      exact older_of_find hi.order hf (hi.listed.all c) (beq_iff_eq.2 h0) hc
    | none =>
      refine ⟨rfl, rfl, hn, fun c h0 => ?_⟩
      exact List.find?_eq_none.1 hf c (List.mem_reverse.2 (hi.listed.all c)) (beq_iff_eq.2 h0)

/-- **The representation of the buffer cache.**  After any calls of `bget`, `brelse`, `bpin` and
`bunpin` that release and unpin only what was taken: the ring through `bcache.head` holds each
buffer exactly once, in both directions; no two buffers of a device other than `0` hold the same
block; the reference count is the number of holders and pins, modulo `2 ^ 32`; and `bget` finds a
cached block, recycles only an unreferenced buffer, the one that `brelse` freed longest ago, and
panics only if there is none. -/
theorem bcache_representation {cs : List Call} (hr : History.run cs History.start = some h) :
    (∃ l : List (Fin NBUF), l.Nodup ∧ (∀ b, b ∈ l) ∧ h.cache.links.Ring none (l.map some)) ∧
      (∀ b c, (h.cache.buf b).dev ≠ 0 → (h.cache.buf b).dev = (h.cache.buf c).dev →
        (h.cache.buf b).blockno = (h.cache.buf c).blockno → b = c) ∧
      (∀ b, (h.cache.buf b).refcnt = (h.holders b + h.pins b) % 2 ^ 32) ∧
      ∀ dev blockno, Gets h dev blockno (bget dev blockno h.cache) := by
  obtain ⟨l, hi⟩ := inv_run hr
  exact ⟨⟨l, hi.listed.nodup, hi.listed.all, hi.listed.ring⟩, hi.unique, hi.counts, hi.gets⟩

end

/-- All buffers are used and released in order; then the first block is read once more, pinned
while it is held, and unpinned only after it has been released. -/
def pinned : List Call :=
  (List.range NBUF).map (Call.bget 1) ++ (List.finRange NBUF).map Call.brelse ++
    [Call.bget 1 0, .bpin 0, .brelse 0, .bunpin 0]

theorem run_pinned : ((History.run pinned History.start).map fun h => ((match bget 1 100 h.cache with
    | .ok b _ => some b
    | .error _ _ => none), (h.cache.buf 0).refcnt, (h.cache.buf 1).refcnt,
      decide (h.brelsed 1 < h.brelsed 0))) = some (some 0, 0, 0, true) := by
  decide +kernel

theorem bcache_representation_pinned :
    ∃ h, History.run pinned History.start = some h ∧ (h.cache.buf 0).refcnt = 0 ∧
      Gets h 1 100 (bget 1 100 h.cache) := by
  obtain ⟨h, hr, he⟩ := Option.map_eq_some_iff.1 run_pinned
  simp only [Prod.mk.injEq] at he
  exact ⟨h, hr, he.2.1, (bcache_representation hr).2.2.2 1 100⟩

/-- The buffer that a pin kept from being freed has kept its place in the list: `bget` recycles
it although buffer `1` is unreferenced too and was released before it. -/
theorem bget_recycles_pinned :
    ∃ h s, History.run pinned History.start = some h ∧ bget 1 100 h.cache = .ok 0 s ∧
      (h.cache.buf 0).refcnt = 0 ∧ (h.cache.buf 1).refcnt = 0 ∧ h.brelsed 1 < h.brelsed 0 := by
  obtain ⟨h, hr, he⟩ := Option.map_eq_some_iff.1 run_pinned
  simp only [Prod.mk.injEq, decide_eq_true_eq] at he
  obtain ⟨hb, h0, h1, hlt⟩ := he
  cases hg : bget 1 100 h.cache with
  | ok b s =>
    rw [hg] at hb
    cases hb
    exact ⟨h, s, hr, hg, h0, h1, hlt⟩
  | error e s =>
    rw [hg] at hb
    cases hb

/-! ## The list of `Disk.Bio` -/

/-- What the pointer code sees of a buffer. -/
def entry (x : Buf) : Entry where
  valid := x.valid
  dev := x.dev
  blockno := x.blockno
  refcnt := x.refcnt

/-- A cache of pointers stands for a cache of `Disk.Bio`. -/
structure Represents (c : State) (s : Store) : Prop where
  listed : ∃ l, Listed c.links l ∧ s.lru = l.map Fin.val
  buf : ∀ b : Fin NBUF, c.buf b = entry (s.buf b)

/-- The pointer code ends as the code on lists does. -/
def Agrees : EStateM.Result Halt State (Fin NBUF) → EStateM.Result Halt Store Nat → Prop
  | .ok b c, .ok i s => i = b ∧ Represents c s
  | .error e c, .error e' s => e' = e ∧ Represents c s
  | _, _ => False

section

variable {c : State} {s : Store} {b : Fin NBUF}

/-- The same buffer changes on both sides. -/
theorem Represents.setBuf (h : Represents c s) {x : Entry} {y : Buf} (hxy : x = entry y) :
    Represents (c.setBuf b x) (s.setBuf b y) := by
  refine ⟨h.listed, fun d => ?_⟩
  by_cases hd : d = b
  · rw [hd, setBuf_self, Cache.setBuf_self, hxy]
  · rw [setBuf_of_ne _ hd, Cache.setBuf_of_ne _ _ fun he => hd (Fin.ext he)]
    exact h.buf d

theorem find_map_val (l : List (Fin NBUF)) (p : Nat → Bool) :
    (l.map Fin.val).find? p = (l.find? fun b => p b.val).map Fin.val := by
  rw [List.find?_map]
  rfl

/-- `bget` refines the `bget` of `Disk.Bio`, while no reference count overflows. -/
theorem bget_represents (h : Represents c s) (hlt : ∀ b, (c.buf b).refcnt + 1 < 2 ^ 32)
    (dev blockno : Nat) : Agrees (bget dev blockno c) (Xv6.bget dev blockno s) := by
  obtain ⟨l, hl, hlru⟩ := h.listed
  have hblock : (fun b : Fin NBUF => (s.buf b).dev == dev && (s.buf b).blockno == blockno) =
      fun b => c.isBlock dev blockno (some b) := by
    funext b
    rw [State.isBlock, h.buf b]
    rfl
  have hfree : (fun b : Fin NBUF => (s.buf b).refcnt == 0) = fun b => c.isFree (some b) := by
    funext b
    rw [State.isFree, h.buf b]
    rfl
  have hget : ∀ f : Store → Kern Store Nat, (get >>= f) s = f s s := fun f => rfl
  rw [bget_eq hl, Xv6.bget, hget, hlru, ← List.map_reverse, find_map_val, find_map_val, hblock,
    hfree]
  cases l.find? fun b => c.isBlock dev blockno (some b) with
  | some b =>
    refine ⟨rfl, h.setBuf ?_⟩
    rw [incr, h.buf b, Nat.mod_eq_of_lt (by rw [← h.buf b]; exact hlt b)]
    rfl
  | none =>
    cases l.reverse.find? fun b => c.isFree (some b) with
    | some b => exact ⟨rfl, h.setBuf rfl⟩
    | none => exact ⟨rfl, h⟩

theorem bpin_represents (h : Represents c s) (hlt : (c.buf b).refcnt + 1 < 2 ^ 32) :
    Represents (finalState (bpin b) c) (finalState (Xv6.bpin b) s) := by
  refine h.setBuf ?_
  rw [h.buf b] at hlt ⊢
  rw [incr, Nat.mod_eq_of_lt hlt]
  rfl

theorem decr_eq {x : Entry} (hpos : 0 < x.refcnt) (hlt : x.refcnt < 2 ^ 32) :
    decr x = { x with refcnt := x.refcnt - 1 } := by
  rw [decr, show (x.refcnt + (2 ^ 32 - 1)) % 2 ^ 32 = x.refcnt - 1 by omega]

theorem bunpin_represents (h : Represents c s) (hpos : 0 < (c.buf b).refcnt)
    (hlt : (c.buf b).refcnt < 2 ^ 32) :
    Represents (finalState (bunpin b) c) (finalState (Xv6.bunpin b) s) := by
  refine h.setBuf ?_
  rw [decr_eq hpos hlt, h.buf b]
  rfl

theorem brelse_represents (h : Represents c s) (hpos : 0 < (c.buf b).refcnt)
    (hlt : (c.buf b).refcnt < 2 ^ 32) :
    Represents (finalState (brelse b) c) (finalState (Xv6.brelse b) s) := by
  have hset : Represents (c.setBuf b (decr (c.buf b)))
      (s.setBuf b { s.buf b with refcnt := (s.buf b).refcnt - 1 }) := by
    refine h.setBuf ?_
    rw [decr_eq hpos hlt, h.buf b]
    rfl
  have hr := hset.buf b
  by_cases h0 : ((c.setBuf b (decr (c.buf b))).buf b).refcnt = 0
  · have h0' : ((s.setBuf b { s.buf b with refcnt := (s.buf b).refcnt - 1 }).buf b).refcnt = 0 := by
      rw [hr] at h0
      exact h0
    obtain ⟨l, hl, hlru⟩ := hset.listed
    rw [show finalState (brelse b) c = _ from if_pos h0,
      show finalState (Xv6.brelse b) s = _ from if_pos h0']
    refine ⟨⟨b :: l.erase b, hl.toFront b, ?_⟩, hset.buf⟩
    show b.val :: s.lru.erase b.val = _
    rw [show s.lru = l.map Fin.val from hlru, List.map_cons, List.map_erase Fin.val_injective]
  · have h0' : ¬ ((s.setBuf b { s.buf b with refcnt := (s.buf b).refcnt - 1 }).buf b).refcnt = 0 := by
      rw [hr] at h0
      exact h0
    rw [show finalState (brelse b) c = _ from if_neg h0,
      show finalState (Xv6.brelse b) s = _ from if_neg h0']
    exact hset

end

theorem binit_represents (disk : Nat → Block) (log : Log) :
    Represents binit (Xv6.binit disk log) := by
  refine ⟨⟨_, listed_init, ?_⟩, fun _ => rfl⟩
  show (List.range NBUF).reverse = _
  rw [List.map_reverse, List.map_coe_finRange_eq_range]

/-- **The ring of pointers refines the list.**  It stands for the list after `binit`, and after
each further call, with the same result, while no reference count overflows and only buffers with
references are released or unpinned. -/
theorem ring_refines_list :
    (∀ disk log, Represents binit (Xv6.binit disk log)) ∧
    ∀ c s, Represents c s → (∀ b, (c.buf b).refcnt + 1 < 2 ^ 32) →
      (∀ dev blockno, Agrees (bget dev blockno c) (Xv6.bget dev blockno s)) ∧
      ∀ b, Represents (finalState (bpin b) c) (finalState (Xv6.bpin b) s) ∧
        (0 < (c.buf b).refcnt →
          Represents (finalState (brelse b) c) (finalState (Xv6.brelse b) s) ∧
          Represents (finalState (bunpin b) c) (finalState (Xv6.bunpin b) s)) := by
  refine ⟨binit_represents, fun c s h hlt => ⟨bget_represents h hlt, fun b => ?_⟩⟩
  have hb := Nat.lt_of_succ_lt (hlt b)
  exact ⟨bpin_represents h (hlt b), fun hpos =>
    ⟨brelse_represents h hpos hb, bunpin_represents h hpos hb⟩⟩

theorem ring_refines_list_binit : (∀ b, (binit.buf b).refcnt + 1 < 2 ^ 32) ∧
    ∀ disk log dev blockno,
      Agrees (bget dev blockno binit) (Xv6.bget dev blockno (Xv6.binit disk log)) := by
  obtain ⟨hinit, hcalls⟩ := ring_refines_list
  have hlt : ∀ b, (binit.buf b).refcnt + 1 < 2 ^ 32 := fun b => by
    show 0 + 1 < 2 ^ 32
    decide
  exact ⟨hlt, fun disk log => (hcalls _ _ (hinit disk log) hlt).1⟩

end Bcache

end Xv6
