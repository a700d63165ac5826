import Mathlib.Data.UInt
import Xv6.Base.Monitor

/-!
# The statistics of the scheduler while the machine boots

`main()` lets the other harts wait until hart 0 has set `started`; hart 0 then enters `scheduler()`,
and each other hart first initialises `heat_stats` once more: its lock, and its counters.  So a hart
may initialise the lock while another holds it, and set the counters to 0 after they have counted.

Here every load and store of `heat_stats` is a step, and so is every step of `acquire` and `release`
on its lock.  What else the harts do in `scheduler()`, and which processes they run, plays no
part: from there a hart takes a decision, to skip a process or to run one, at any time.  Where the
other harts initialise `heat_stats` before the first decision (`Early`), the lock works and nothing
is lost.
-/

set_option autoImplicit false

namespace Xv6.Heat.Boot

/-- What a scheduler has decided about a process that can run. -/
inductive Decision
  | skip | run
  deriving DecidableEq

/-- Where a hart is. -/
inductive Pc
  /-- Hart 0, before `started = 1`. -/
  | boot
  /-- At `while(started == 0)`. -/
  | wait
  /-- At the stores of `initlock`, and at those to the counters after it. -/
  | initLocked | initCpu | initSkips | initSchedules | initPenalty
  /-- In `scheduler()`, and not at its statistics. -/
  | scheduler
  /-- In `acquire`: at the loads of `holding`, at the atomic swap, at `lk->cpu = mycpu()`. -/
  | acquire (d : Decision) | acquireCpu (d : Decision) | swap (d : Decision) | own (d : Decision)
  /-- At the load and at the store of `total_heat_skips++` or `total_schedules++`. -/
  | load (d : Decision) | store (d : Decision) (v : UInt64)
  /-- At those of `total_heat_penalty_ticks++`. -/
  | loadPenalty | storePenalty (v : UInt64)
  /-- In `release`: at the loads of `holding`, at `lk->cpu = 0`, at the last store. -/
  | release | releaseCpu | clear | unlock
  | panic (msg : String)
  deriving DecidableEq

/-- The shared memory. -/
structure Mem (n : Nat) where
  started : Bool
  locked : Bool
  cpu : Option (Fin n)
  skips : UInt64
  schedules : UInt64
  penalty : UInt64
  /-- Ghost: how many processes went from `RUNNABLE` to `RUNNING`. -/
  decisions : Nat

variable {n : Nat}

/-- The step of hart `h` at a point; `d` is what it decides in `scheduler()`. -/
def act (h : Fin n) (d : Decision) (m : Mem n) : Pc → Option (Mem n × Pc)
  | .boot => some ({ m with started := true }, .scheduler)
  | .wait => if m.started then some (m, .initLocked) else some (m, .wait)
  | .initLocked => some ({ m with locked := false }, .initCpu)
  | .initCpu => some ({ m with cpu := none }, .initSkips)
  | .initSkips => some ({ m with skips := 0 }, .initSchedules)
  | .initSchedules => some ({ m with schedules := 0 }, .initPenalty)
  | .initPenalty => some ({ m with penalty := 0 }, .scheduler)
  | .scheduler => match d with
    | .skip => some (m, .acquire .skip)
    -- `p->state = RUNNING`
    | .run => some ({ m with decisions := m.decisions + 1 }, .acquire .run)
  | .acquire d => some (m, if m.locked then .acquireCpu d else .swap d)
  | .acquireCpu d => some (m, if m.cpu = some h then .panic "acquire" else .swap d)
  | .swap d => if m.locked then some (m, .swap d) else some ({ m with locked := true }, .own d)
  | .own d => some ({ m with cpu := some h }, .load d)
  | .load .skip => some (m, .store .skip m.skips)
  | .load .run => some (m, .store .run m.schedules)
  | .store .skip v => some ({ m with skips := v + 1 }, .loadPenalty)
  | .store .run v => some ({ m with schedules := v + 1 }, .release)
  | .loadPenalty => some (m, .storePenalty m.penalty)
  | .storePenalty v => some ({ m with penalty := v + 1 }, .release)
  | .release => some (m, if m.locked then .releaseCpu else .panic "release")
  | .releaseCpu => some (m, if m.cpu = some h then .clear else .panic "release")
  | .clear => some ({ m with cpu := none }, .unlock)
  | .unlock => some ({ m with locked := false }, .scheduler)
  | .panic _ => none

/-- The machine. -/
structure State (n : Nat) where
  mem : Mem n
  pc : Fin n → Pc

/-- A step of hart `h`. -/
def State.step (s : State n) (h : Fin n) (d : Decision) : Option (State n) :=
  (act h d s.mem (s.pc h)).map fun x => ⟨x.1, Function.update s.pc h x.2⟩

/-- Power on: `heat_stats` is zero, as all of the kernel's data. -/
def start [NeZero n] : State n where
  mem := ⟨false, false, none, 0, 0, 0, 0⟩
  pc h := if h = 0 then .boot else .wait

/-- The states reached by steps that `allow` allows. -/
inductive Reach [NeZero n] (allow : State n → Fin n → Prop) : State n → Prop
  | start : Reach allow start
  | step {s s' : State n} {h : Fin n} {d : Decision} (hs : Reach allow s) (ha : allow s h)
      (h : s.step h d = some s') : Reach allow s'

namespace Pc

/-- At a step of the initialisation. -/
def init : Pc → Bool
  | .initLocked | .initCpu | .initSkips | .initSchedules | .initPenalty => true
  | _ => false

/-- Between the swap in `acquire` and the last store of `release`. -/
def inside : Pc → Bool
  | .own _ | .load _ | .store _ _ | .loadPenalty | .storePenalty _ | .release | .releaseCpu | .clear
  | .unlock => true
  | _ => false

/-- Has `acquire` returned, and `release` not yet given the lock up? -/
def owns : Pc → Bool
  | .load _ | .store _ _ | .loadPenalty | .storePenalty _ | .release | .releaseCpu | .clear => true
  | _ => false

/-- Between a decision and its statistics. -/
def busy : Pc → Bool
  | .acquire _ | .acquireCpu _ | .swap _ => true
  | l => l.inside

/-- 1 from the decision to run a process until it is counted. -/
def pending : Pc → Nat
  | .acquire .run | .acquireCpu .run | .swap .run | .own .run | .load .run | .store .run _ => 1
  | _ => 0

/-- Nothing is loaded at this point, and it is not a panic. -/
def silent : Pc → Bool
  | .store .run _ | .panic _ => false
  | _ => true

end Pc

/-- Does hart `h` hold the lock? -/
def Mem.holding (m : Mem n) (h : Fin n) : Prop := m.locked = true ∧ m.cpu = some h

/-- A hart initialises `heat_stats` only while no decision to run a process has been taken, and
none of the statistics is being updated. -/
def Early (s : State n) (h : Fin n) : Prop :=
  (s.pc h).init = true → s.mem.decisions = 0 ∧ ∀ g, (s.pc g).busy = false

/-! ## The invariant -/

open Monitor (total total_update)

/-- The lock works, and every decision is counted or about to be. -/
structure Ok (s : State n) : Prop where
  once : ∀ h g, (s.pc h).inside = true → (s.pc g).inside = true → h = g
  locked : s.mem.locked = true ↔ ∃ h, (s.pc h).inside = true
  cpu : ∀ h, s.mem.cpu = some h ↔ (s.pc h).owns = true
  value : ∀ h v, s.pc h = .store .run v → v = s.mem.schedules
  count : ∃ c, s.mem.schedules = .ofNat c ∧ c + total Pc.pending s.pc = s.mem.decisions
  quiet : ∀ h msg, s.pc h ≠ .panic msg

theorem Pc.inside_of_owns {l : Pc} (h : l.owns = true) : l.inside = true := by
  cases l <;> first | rfl | cases h

theorem Pc.inside_of_busy {l : Pc} (h : l.busy = false) : l.inside = false := by
  cases l <;> first | rfl | cases h

section

variable {s s' : State n} {g : Fin n} {m' : Mem n} {k : Pc}

/-- What has to be known of a step of hart `g` from `l` to `k`. -/
structure Move (s : State n) (g : Fin n) (l : Pc) (m' : Mem n) (k : Pc) : Prop where
  lock : (k.inside = l.inside ∧ m'.locked = s.mem.locked) ∨
    (k.inside = true ∧ s.mem.locked = false ∧ m'.locked = true) ∨
    (k.inside = false ∧ l.inside = true ∧ m'.locked = false)
  /-- The lock protects its owner and the counter. -/
  share : (m'.cpu = s.mem.cpu ∧ m'.schedules = s.mem.schedules) ∨
    (∀ h, h ≠ g → (s.pc h).inside = false) ∧ (m'.cpu = none ∨ m'.cpu = some g)
  owner : m'.cpu = some g ↔ k.owns = true
  value : ∀ v, k = .store .run v → v = m'.schedules
  count : ∃ a b, m'.schedules = s.mem.schedules + .ofNat a ∧
    m'.decisions = s.mem.decisions + b ∧ a + k.pending = b + l.pending
  quiet : ∀ msg, k ≠ .panic msg

theorem Ok.move (h : Ok s) (hm : Move s g (s.pc g) m' k) : Ok ⟨m', Function.update s.pc g k⟩ := by
  have hpc : ∀ x, Function.update s.pc g k x = if x = g then k else s.pc x :=
    fun x => Function.update_apply ..
  -- nobody is inside the free lock
  have hfree : s.mem.locked = false → ∀ x, (s.pc x).inside = false := by
    intro hl x
    refine eq_false_of_ne_true fun hx => ?_
    rw [h.locked.2 ⟨x, hx⟩] at hl
    cases hl
  refine ⟨fun x y hx hy => ?_, ?_, fun x => ?_, fun x v hx => ?_, ?_, fun x msg => ?_⟩
  · dsimp only at hx hy
    rw [hpc] at hx hy
    have hcase : ∀ z, k.inside = true → z ≠ g → (s.pc z).inside = true → False := by
      intro z hk hz hin
      rcases hm.lock with ⟨he, -⟩ | ⟨-, hl, -⟩ | ⟨he, -, -⟩
      · exact hz (h.once z g hin (he ▸ hk))
      · rw [hfree hl z] at hin
        cases hin
      · rw [he] at hk
        cases hk
    split at hx <;> split at hy
    · next h1 h2 => exact h1.trans h2.symm
    · next h2 => exact (hcase y hx h2 hy).elim
    · next h1 _ => exact (hcase x hy h1 hx).elim
    · exact h.once x y hx hy
  · show m'.locked = true ↔ ∃ x, (Function.update s.pc g k x).inside = true
    rcases hm.lock with ⟨he, hl⟩ | ⟨he, -, hl⟩ | ⟨he, hin, hl⟩
    · rw [hl, h.locked]
      refine exists_congr fun x => ?_
      rw [hpc]
      split
      · next hx => rw [hx, he]
      · rfl
    · exact iff_of_true hl ⟨g, by rw [hpc, if_pos rfl, he]⟩
    · refine iff_of_false (by rw [hl]; exact Bool.false_ne_true) fun hex => ?_
      obtain ⟨x, hx⟩ := hex
      rw [hpc] at hx
      split at hx
      · rw [he] at hx
        cases hx
      · next hxg => exact hxg (h.once x g hx hin)
  · dsimp only
    rw [hpc]
    split
    · next hxg => exact hxg ▸ hm.owner
    · next hxg =>
      rcases hm.share with ⟨hc, -⟩ | ⟨hout, hc⟩
      · rw [hc]
        exact h.cpu x
      · refine iff_of_false (fun hx => ?_) fun ho => ?_
        · rcases hc with hc | hc
          · rw [hc] at hx
            cases hx
          · rw [hc] at hx
            exact hxg (Option.some.inj hx).symm
        · have hin := Pc.inside_of_owns ho
          rw [hout x hxg] at hin
          cases hin
  · dsimp only at hx ⊢
    rw [hpc] at hx
    split at hx
    · exact hm.value v hx
    · next hxg =>
      rcases hm.share with ⟨-, hc⟩ | ⟨hout, -⟩
      · exact (h.value x v hx).trans hc.symm
      · have := hout x hxg
        rw [hx] at this
        cases this
  · obtain ⟨c, hc, hsum⟩ := h.count
    obtain ⟨a, b, ha, hb, hab⟩ := hm.count
    have htot := total_update Pc.pending s.pc g k
    refine ⟨c + a, ?_, ?_⟩
    · show m'.schedules = _
      rw [ha, hc, UInt64.ofNat_add]
    · show c + a + total Pc.pending (Function.update s.pc g k) = m'.decisions
      omega
  · show Function.update s.pc g k x ≠ _
    rw [hpc]
    split
    · exact hm.quiet msg
    · exact h.quiet x msg

/-- A step that leaves the lock, the counter and the decisions alone. -/
theorem Move.plain {l : Pc} (h : Ok s) (hl : s.pc g = l) (hlocked : m'.locked = s.mem.locked)
    (hc : m'.cpu = s.mem.cpu) (hs : m'.schedules = s.mem.schedules)
    (hd : m'.decisions = s.mem.decisions) (hin : k.inside = l.inside) (hown : k.owns = l.owns)
    (hp : k.pending = l.pending) (hq : k.silent = true) : Move s g l m' k where
  lock := .inl ⟨hin, hlocked⟩
  share := .inl ⟨hc, hs⟩
  owner := by rw [hc, h.cpu g, hl, hown]
  value v hv := by
    rw [hv] at hq
    cases hq
  count := ⟨0, 0, by rw [hs]; exact (UInt64.add_zero _).symm, hd, by rw [hp]⟩
  quiet msg hm := by
    rw [hm] at hq
    cases hq

/-- The steps of the code. -/
theorem Ok.act (h : Ok s) (he : Early s g) {d : Decision}
    (ha : act g d s.mem (s.pc g) = some (m', k)) : Move s g (s.pc g) m' k := by
  have hlock : (s.pc g).inside = true → s.mem.locked = true := fun hin => h.locked.2 ⟨g, hin⟩
  have hothers : (s.pc g).inside = true → ∀ x, x ≠ g → (s.pc x).inside = false :=
    fun hin x hx => eq_false_of_ne_true fun hx' => hx (h.once x g hx' hin)
  -- while a hart initialises, the lock is free and nothing is counted
  have hnobody : (s.pc g).init = true → ∀ x, (s.pc x).inside = false :=
    fun hi x => Pc.inside_of_busy ((he hi).2 x)
  have hfree : (s.pc g).init = true → s.mem.locked = false := by
    intro hi
    refine eq_false_of_ne_true fun hl => ?_
    obtain ⟨x, hx⟩ := h.locked.1 hl
    rw [hnobody hi x] at hx
    cases hx
  have hzero : (s.pc g).init = true → s.mem.schedules = 0 := by
    intro hi
    obtain ⟨c, hc, hsum⟩ := h.count
    have h0 := (he hi).1
    rw [hc, show c = 0 by omega]
    rfl
  have hvalue := h.value g
  have hcpu := h.cpu g
  have hplain := @Move.plain _ s g m' k _ h rfl
  generalize s.pc g = l at ha hcpu hlock hothers hnobody hfree hzero hvalue hplain ⊢
  have hzeros : s.mem.schedules = s.mem.schedules + .ofNat 0 := (UInt64.add_zero _).symm
  cases l with
  | boot =>
    cases ha
    exact hplain rfl rfl rfl rfl rfl rfl rfl rfl
  | wait =>
    rw [Boot.act] at ha
    split at ha <;> cases ha
    · exact hplain rfl rfl rfl rfl rfl rfl rfl rfl
    · exact hplain rfl rfl rfl rfl rfl rfl rfl rfl
  | initLocked =>
    cases ha
    exact hplain (hfree rfl).symm rfl rfl rfl rfl rfl rfl rfl
  | initCpu =>
    cases ha
    exact ⟨.inl ⟨rfl, rfl⟩, .inr ⟨fun x _ => hnobody rfl x, .inl rfl⟩,
      iff_of_false (fun h => by cases h) Bool.false_ne_true, (fun v h => by cases h),
      ⟨0, 0, hzeros, rfl, rfl⟩, (fun _ h => by cases h)⟩
  | initSkips =>
    cases ha
    exact hplain rfl rfl rfl rfl rfl rfl rfl rfl
  | initSchedules =>
    cases ha
    exact hplain rfl rfl (hzero rfl).symm rfl rfl rfl rfl rfl
  | initPenalty =>
    cases ha
    exact hplain rfl rfl rfl rfl rfl rfl rfl rfl
  | scheduler =>
    cases d with
    | skip =>
      cases ha
      exact hplain rfl rfl rfl rfl rfl rfl rfl rfl
    | run =>
      cases ha
      exact ⟨.inl ⟨rfl, rfl⟩, .inl ⟨rfl, rfl⟩, hcpu, (fun v h => by cases h),
        ⟨0, 1, hzeros, rfl, rfl⟩, (fun _ h => by cases h)⟩
  | acquire d =>
    have hm : m' = s.mem := by cases ha; rfl
    have hk : k = .acquireCpu d ∨ k = .swap d := by
      cases ha
      split
      · exact .inl rfl
      · exact .inr rfl
    subst hm
    rcases hk with rfl | rfl
    · exact hplain rfl rfl rfl rfl rfl rfl (by cases d <;> rfl) rfl
    · exact hplain rfl rfl rfl rfl rfl rfl (by cases d <;> rfl) rfl
  | acquireCpu d =>
    rw [Boot.act, if_neg fun hc => Bool.false_ne_true (hcpu.1 hc)] at ha
    cases ha
    exact hplain rfl rfl rfl rfl rfl rfl (by cases d <;> rfl) rfl
  | swap d =>
    rw [Boot.act] at ha
    split at ha
    · cases ha
      exact hplain rfl rfl rfl rfl rfl rfl rfl rfl
    · next hl =>
      cases ha
      exact ⟨.inr (.inl ⟨rfl, eq_false_of_ne_true hl, rfl⟩), .inl ⟨rfl, rfl⟩, hcpu,
        (fun v h => by cases h), ⟨0, 0, hzeros, rfl, by cases d <;> rfl⟩, (fun _ h => by cases h)⟩
  | own d =>
    cases ha
    exact ⟨.inl ⟨rfl, rfl⟩, .inr ⟨hothers rfl, .inr rfl⟩, iff_of_true rfl rfl,
      (fun v h => by cases h), ⟨0, 0, hzeros, rfl, by cases d <;> rfl⟩, (fun _ h => by cases h)⟩
  | load d =>
    cases d with
    | skip =>
      cases ha
      exact hplain rfl rfl rfl rfl rfl rfl rfl rfl
    | run =>
      cases ha
      exact ⟨.inl ⟨rfl, rfl⟩, .inl ⟨rfl, rfl⟩, hcpu, (fun v h => by cases h; rfl),
        ⟨0, 0, hzeros, rfl, rfl⟩, (fun _ h => by cases h)⟩
  | store d v =>
    cases d with
    | skip =>
      cases ha
      exact hplain rfl rfl rfl rfl rfl rfl rfl rfl
    | run =>
      cases ha
      refine ⟨.inl ⟨rfl, rfl⟩, .inr ⟨hothers rfl, .inr (hcpu.2 rfl)⟩, hcpu, (fun v h => by cases h),
        ⟨1, 0, ?_, rfl, rfl⟩, (fun _ h => by cases h)⟩
      rw [← hvalue v rfl]
      rfl
  | loadPenalty =>
    cases ha
    exact hplain rfl rfl rfl rfl rfl rfl rfl rfl
  | storePenalty v =>
    cases ha
    exact hplain rfl rfl rfl rfl rfl rfl rfl rfl
  | release =>
    rw [Boot.act, if_pos (hlock rfl)] at ha
    cases ha
    exact hplain rfl rfl rfl rfl rfl rfl rfl rfl
  | releaseCpu =>
    rw [Boot.act, if_pos (hcpu.2 rfl)] at ha
    cases ha
    exact hplain rfl rfl rfl rfl rfl rfl rfl rfl
  | clear =>
    cases ha
    exact ⟨.inl ⟨rfl, rfl⟩, .inr ⟨hothers rfl, .inl rfl⟩,
      iff_of_false (fun h => by cases h) Bool.false_ne_true, (fun v h => by cases h),
      ⟨0, 0, hzeros, rfl, rfl⟩, (fun _ h => by cases h)⟩
  | unlock =>
    cases ha
    exact ⟨.inr (.inr ⟨rfl, rfl, rfl⟩), .inl ⟨rfl, rfl⟩, hcpu, (fun v h => by cases h),
      ⟨0, 0, hzeros, rfl, rfl⟩, (fun _ h => by cases h)⟩
  | panic msg => cases ha

theorem Ok.step {d : Decision} (h : Ok s) (he : Early s g) (hs : s.step g d = some s') : Ok s' := by
  obtain ⟨⟨m', k⟩, ha, rfl⟩ := Option.map_eq_some_iff.1 hs
  exact h.move (h.act he ha)

theorem ok_start [NeZero n] : Ok (start : State n) := by
  have hpc : ∀ h : Fin n, (start : State n).pc h = .boot ∨ (start : State n).pc h = .wait := by
    intro h
    show (if h = 0 then Pc.boot else Pc.wait) = _ ∨ (if h = 0 then Pc.boot else Pc.wait) = _
    split
    · exact .inl rfl
    · exact .inr rfl
  have hall : ∀ P : Pc → Prop, P .boot → P .wait → ∀ h, P ((start : State n).pc h) := by
    intro P hb hw h
    rcases hpc h with he | he
    · rw [he]
      exact hb
    · rw [he]
      exact hw
  have hout := hall (fun l => l.inside = false) rfl rfl
  refine ⟨fun h g hh => ?_, iff_of_false Bool.false_ne_true ?_,
    fun h => iff_of_false (fun hc => by cases hc) ?_, fun h v hv => ?_, ⟨0, rfl, ?_⟩, ?_⟩
  · rw [hout h] at hh
    cases hh
  · rintro ⟨h, hh⟩
    rw [hout h] at hh
    cases hh
  · exact hall (fun l => ¬ l.owns = true) Bool.false_ne_true Bool.false_ne_true h
  · exact absurd hv (hall (fun l => l ≠ .store .run v) (fun h => by cases h) (fun h => by cases h) h)
  · rw [Monitor.total_eq_zero (hall (fun l => l.pending = 0) rfl rfl)]
    rfl
  · exact hall (fun l => ∀ msg, l ≠ .panic msg) (fun _ h => by cases h) (fun _ h => by cases h)

theorem Reach.ok [NeZero n] (hr : Reach Early s) : Ok s := by
  induction hr with
  | start => exact ok_start
  | step _ ha h ih => exact ih.step ha h

end

/-! ## Two harts -/

def State.run (s : State n) : List (Fin n × Decision) → Option (State n)
  | [] => some s
  | x :: xs => (s.step x.1 x.2).bind fun s' => s'.run xs

theorem Reach.run [NeZero n] {allow : State n → Fin n → Prop} {s s' : State n}
    (hs : Reach allow s) (ha : ∀ s h, allow s h) {xs : List (Fin n × Decision)}
    (h : s.run xs = some s') : Reach allow s' := by
  induction xs generalizing s with
  | nil => exact Option.some.inj h ▸ hs
  | cons x xs ih =>
    obtain ⟨s₁, h1, h⟩ := Option.bind_eq_some_iff.1 h
    exact ih (hs.step (ha s x.1) h1) h

/-- Hart 0 boots, and hart 1 sees it. -/
def bothUp : List (Fin 2 × Decision) := [(⟨0, Nat.two_pos⟩, .run), (⟨1, Nat.one_lt_two⟩, .run)]

end Xv6.Heat.Boot
