import Xv6.Console.Lines

/-!
# Reads of the console

Every character that is committed goes to one call of `consoleread`, in the order of the keystrokes,
and the calls stop where a line does.  This is shown of every reachable state, by an invariant that
ties what a call has copied to what was taken out of the buffer in its name.
-/

set_option autoImplicit false

namespace Xv6.Console

/-! ## One stretch of a call -/

/-- The call that had the bytes `got`, and took the bytes `took` and left the bytes `rest`, has now
the bytes `all`, of which it was asked for `target`. -/
inductive Ended (target : Nat) (got took rest : List UInt8) : Out → Prop
  /-- It sleeps. -/
  | sleep {n : Nat} {all : List UInt8} (hall : all = got ++ took) (hn : all.length + n = target)
      (hnl : newline ∉ all) (heof : ctrl 'D' ∉ all) : Ended target got took rest (.sleep n all)
  /-- It gives up. -/
  | killed {all : List UInt8} (hall : all = got ++ took) (heof : ctrl 'D' ∉ all) :
      Ended target got took rest (.killed all)
  /-- It returns some bytes: as many as it was asked for, a line, or what is before a Ctrl-D. -/
  | done {all : List UInt8} (hall : all = got ++ took) (hne : all ≠ [])
      (hle : all.length ≤ target) (hnl : newline ∉ all.dropLast) (heof : ctrl 'D' ∉ all)
      (hstop : all.length = target ∨ all.getLast? = some newline ∨ rest.head? = some (ctrl 'D')) :
      Ended target got took rest (.done all)
  /-- It returns nothing, at a Ctrl-D. -/
  | eof (hgot : got = []) (htook : took = [ctrl 'D']) : Ended target got took rest (.done [])

/-- The first character of a stretch may count as one that the call had. -/
theorem Ended.cons {target : Nat} {got took rest : List UInt8} {c : UInt8} {o : Out}
    (h : Ended target (got ++ [c]) took rest o) : Ended target got (c :: took) rest o := by
  have hcons : got ++ [c] ++ took = got ++ c :: took := List.append_assoc got [c] took
  cases h with
  | sleep hall hn hnl heof => exact .sleep (hall.trans hcons) hn hnl heof
  | killed hall heof => exact .killed (hall.trans hcons) heof
  | done hall hne hle hnl heof hstop => exact .done (hall.trans hcons) hne hle hnl heof hstop
  | eof hgot htook =>
    exact absurd hgot (List.append_ne_nil_of_right_ne_nil _ (List.cons_ne_nil _ _))

/-- What a call takes is a piece of what is pending, and it stops where it should. -/
theorem takeLine_ended (killed : Bool) {target : Nat} (ht : 0 < target) (p : List UInt8) {n : Nat}
    {got : List UInt8} (hn : got.length + n = target) (hnl : newline ∉ got)
    (heof : ctrl 'D' ∉ got) :
    p = (takeLine killed target p n got).2.1 ++ (takeLine killed target p n got).1 ∧
      Ended target got (takeLine killed target p n got).2.1 (takeLine killed target p n got).1
        (takeLine killed target p n got).2.2 := by
  induction p generalizing n got with
  | nil =>
    cases n with
    | zero =>
      rw [takeLine]
      have hne : got ≠ [] := List.length_pos_iff.1 (by omega)
      exact ⟨rfl, .done (List.append_nil _).symm hne (by omega)
        (fun hm => hnl (List.mem_of_mem_dropLast hm)) heof (.inl hn)⟩
    | succ n =>
      rw [takeLine]
      cases killed with
      | true => exact ⟨rfl, .killed (List.append_nil _).symm heof⟩
      | false => exact ⟨rfl, .sleep (List.append_nil _).symm hn hnl heof⟩
  | cons c p ih =>
    have hdrop : newline ∉ got.dropLast := fun hm => hnl (List.mem_of_mem_dropLast hm)
    cases n with
    | zero =>
      rw [takeLine]
      have hne : got ≠ [] := List.length_pos_iff.1 (by omega)
      exact ⟨rfl, .done (List.append_nil _).symm hne (by omega) hdrop heof (.inl hn)⟩
    | succ n =>
      rw [takeLine]
      split_ifs with hc hlt hc'
      · have hne : got ≠ [] := List.length_pos_iff.1 (by omega)
        exact ⟨rfl, .done (List.append_nil _).symm hne (by omega) hdrop heof
          (.inr (.inr (congrArg some hc)))⟩
      · have hnil : got = [] := List.length_eq_zero_iff.1 (by omega)
        subst hnil
        exact ⟨rfl, .eof rfl (congrArg (fun c => [c]) hc)⟩
      · refine ⟨rfl, .done rfl (List.append_ne_nil_of_right_ne_nil _ (List.cons_ne_nil _ _)) ?_ ?_ ?_
          (.inr (.inl ?_))⟩
        · rw [List.length_append, List.length_singleton]
          omega
        · rw [List.dropLast_concat]
          exact hnl
        · rw [List.mem_append, List.mem_singleton]
          exact fun hm => hm.elim heof (fun he => hc he.symm)
        · rw [List.getLast?_concat, hc']
      · have hlen : (got ++ [c]).length + n = target := by
          rw [List.length_append, List.length_singleton]
          omega
        have hmem : ∀ {d : UInt8}, d ∉ got → c ≠ d → d ∉ got ++ [c] := by
          intro d hd hne
          rw [List.mem_append, List.mem_singleton]
          exact fun hm => hm.elim hd fun he => hne he.symm
        obtain ⟨h1, h2⟩ := ih hlen (hmem hnl hc') (hmem heof hc)
        exact ⟨congrArg (c :: ·) h1, h2.cons⟩

/-! ## The invariant -/

/-- What a call has taken. -/
def takenBy (taken : List (Nat × UInt8)) (id : Nat) : List UInt8 :=
  (taken.filter fun x => x.1 = id).map Prod.snd

/-- A call has returned what it took: its bytes, or nothing for a Ctrl-D. -/
def Served (taken : List (Nat × UInt8)) (z : Read) : Prop :=
  match z.out with
  | .sleep _ _ => False
  | .killed got => takenBy taken z.id = got ∧ ctrl 'D' ∉ got
  | .done got => ctrl 'D' ∉ got ∧ newline ∉ got.dropLast ∧ got.length ≤ z.target ∧
      takenBy taken z.id = if got = [] then [ctrl 'D'] else got

/-- Who is in a call, after one process's entry has changed. -/
theorem update_eq_some {P α : Type} [DecidableEq P] {f : P → Option α} {p q : P} {a b : α}
    (h : Function.update f p (some a) q = some b) : (q = p ∧ b = a) ∨ (q ≠ p ∧ f q = some b) := by
  by_cases hq : q = p
  · subst hq
    rw [Function.update_self] at h
    exact .inl ⟨rfl, (Option.some.inj h).symm⟩
  · rw [Function.update_of_ne hq] at h
    exact .inr ⟨hq, h⟩

theorem takenBy_append (t : List (Nat × UInt8)) (id : Nat) (cs : List UInt8) :
    takenBy (t ++ cs.map fun c => (id, c)) id = takenBy t id ++ cs := by
  rw [takenBy, List.filter_append, List.map_append, List.filter_map, List.map_map]
  congr 1
  induction cs with
  | nil => rfl
  | cons c cs ih => simpa using ih

theorem takenBy_append_of_ne (t : List (Nat × UInt8)) {id k : Nat} (hne : id ≠ k)
    (cs : List UInt8) : takenBy (t ++ cs.map fun c => (id, c)) k = takenBy t k := by
  have hnil : (cs.map fun c => (id, c)).filter (fun x => x.1 = k) = [] := by
    refine List.filter_eq_nil_iff.2 fun x hx he => ?_
    obtain ⟨c, -, rfl⟩ := List.mem_map.1 hx
    exact hne (of_decide_eq_true he)
  rw [takenBy, List.filter_append, hnil, List.append_nil, takenBy]

theorem takenBy_eq_nil {t : List (Nat × UInt8)} {id : Nat} (h : ∀ x ∈ t, x.1 < id) :
    takenBy t id = [] := by
  rw [takenBy, List.filter_eq_nil_iff.2, List.map_nil]
  exact fun x hx he => (h x hx).ne (of_decide_eq_true he)

theorem mem_takenBy {t : List (Nat × UInt8)} {id : Nat} {c : UInt8} (h : (id, c) ∈ t) :
    c ∈ takenBy t id :=
  List.mem_map.2 ⟨(id, c), List.mem_filter.2 ⟨h, decide_eq_true rfl⟩, rfl⟩

variable {P : Type} {s s' : State P} {pid : P → Int}

/-- A call that has what it took. -/
structure Call.Ok (s : State P) (z : Call) : Prop where
  pos : 0 < z.target
  length : z.got.length + z.n = z.target
  newline : newline ∉ z.got
  eof : ctrl 'D' ∉ z.got
  taken : takenBy s.taken z.id = z.got
  old : z.id < s.calls
  running : ∀ y ∈ s.reads, y.id ≠ z.id

/-- The invariant. -/
structure Inv (s : State P) : Prop where
  cons : s.cons.Ok
  line : newline ∉ s.cons.line
  committed : s.committed = s.taken.map Prod.snd ++ s.cons.pending
  call : ∀ p z, s.call p = some z → z.Ok s
  ids : ∀ p q z y, s.call p = some z → s.call q = some y → z.id = y.id → p = q
  reads : ∀ z ∈ s.reads, z.id < s.calls ∧ Served s.taken z
  old : ∀ x ∈ s.taken, x.1 < s.calls
  all : ∀ id < s.calls, (∃ p z, s.call p = some z ∧ z.id = id) ∨ ∃ z ∈ s.reads, z.id = id

variable [DecidableEq P]

/-- What a stretch of a call does: it takes a piece of what is pending, and then it sleeps or has
returned. -/
inductive Went (s : State P) (p : P) (z : Call) : State P → Prop
  | sleep {x : Cons} {took got : List UInt8} {n : Nat} (hok : x.Ok) (hline : x.line = s.cons.line)
      (hp : s.cons.pending = took ++ x.pending)
      (he : Ended z.target z.got took x.pending (.sleep n got)) :
      Went s p z { s with
        cons := x
        taken := s.taken ++ took.map fun c => (z.id, c)
        call := Function.update s.call p (some { z with n := n, got := got }) }
  | returned {x : Cons} {took : List UInt8} {out : Out} (hok : x.Ok)
      (hline : x.line = s.cons.line) (hp : s.cons.pending = took ++ x.pending)
      (he : Ended z.target z.got took x.pending out) (hout : ∀ n got, out ≠ .sleep n got) :
      Went s p z { s with
        cons := x
        taken := s.taken ++ took.map fun c => (z.id, c)
        call := Function.update s.call p none
        reads := s.reads ++ [⟨z.id, z.target, out⟩] }

theorem Inv.went (h : Inv s) {z : Call} (hz : z.Ok s) (p : P) : Went s p z (s.go p z) := by
  obtain ⟨h1, h2, h3⟩ := h.cons.takes (s.killed p) z.target z.n z.got
  obtain ⟨h4, h5⟩ := takeLine_ended (s.killed p) hz.pos s.cons.pending hz.length hz.newline hz.eof
  rw [← h3] at h4 h5
  rw [State.go]
  generalize consoleread (s.killed p) z.target s.cons z.n z.got = y at *
  obtain ⟨x, took, out⟩ := y
  cases out with
  | sleep n got => exact .sleep h1 h2 h4 h5
  | done got => exact .returned h1 h2 h4 h5 fun _ _ he => by cases he
  | killed got => exact .returned h1 h2 h4 h5 fun _ _ he => by cases he

theorem Served.append {t : List (Nat × UInt8)} {y : Read} (h : Served t y) {id : Nat}
    (hne : id ≠ y.id) (cs : List UInt8) : Served (t ++ cs.map fun c => (id, c)) y := by
  unfold Served at h ⊢
  rw [takenBy_append_of_ne t hne]
  exact h

/-- A call that has returned is served. -/
theorem Ended.served {z : Call} (hz : z.Ok s) {took rest : List UInt8} {out : Out}
    (h : Ended z.target z.got took rest out) (hout : ∀ n got, out ≠ .sleep n got) :
    Served (s.taken ++ took.map fun c => (z.id, c)) ⟨z.id, z.target, out⟩ := by
  have htaken : takenBy (s.taken ++ took.map fun c => (z.id, c)) z.id = z.got ++ took := by
    rw [takenBy_append, hz.taken]
  cases h with
  | sleep => exact absurd rfl (hout _ _)
  | killed hall heof => exact ⟨htaken.trans hall.symm, heof⟩
  | done hall hne hle hnl heof hstop =>
    refine ⟨heof, hnl, hle, ?_⟩
    rw [if_neg hne]
    exact htaken.trans hall.symm
  | eof hgot htook =>
    refine ⟨List.not_mem_nil, List.not_mem_nil, Nat.zero_le _, ?_⟩
    rw [if_pos rfl]
    exact htaken.trans (by rw [hgot, htook]; rfl)

/-- Other calls have what they took. -/
theorem Call.Ok.frame {y z : Call} (h : y.Ok s) (hne : z.id ≠ y.id) (took : List UInt8)
    (hs : s'.taken = s.taken ++ took.map fun c => (z.id, c)) (hcalls : s'.calls = s.calls)
    (hreads : ∀ x ∈ s'.reads, x ∈ s.reads ∨ x.id = z.id) : y.Ok s' where
  pos := h.pos
  length := h.length
  newline := h.newline
  eof := h.eof
  taken := by rw [hs, takenBy_append_of_ne _ hne, h.taken]
  old := hcalls ▸ h.old
  running x hx := (hreads x hx).elim (h.running x) fun he => he.trans_ne hne

theorem Inv.old_append (h : Inv s) {z : Call} (hz : z.Ok s) (took : List UInt8) :
    ∀ x ∈ s.taken ++ took.map (fun c => (z.id, c)), x.1 < s.calls := by
  intro x hx
  rcases List.mem_append.1 hx with hx | hx
  · exact h.old x hx
  · obtain ⟨c, -, rfl⟩ := List.mem_map.1 hx
    exact hz.old

theorem Inv.committed_append (h : Inv s) {id : Nat} {took rest : List UInt8}
    (hp : s.cons.pending = took ++ rest) :
    s.committed = (s.taken ++ took.map fun c => (id, c)).map Prod.snd ++ rest := by
  rw [h.committed, hp, List.map_append, List.map_map, List.append_assoc]
  congr 2
  exact (List.map_id took).symm

theorem Inv.of_went (h : Inv s) {p : P} {z : Call} (hc : s.call p = some z)
    (hw : Went s p z s') : Inv s' := by
  have hz := h.call p z hc
  have hother : ∀ q y, q ≠ p → s.call q = some y → z.id ≠ y.id := fun q y hq hy he =>
    hq (h.ids q p y z hy hc he.symm)
  have hne : ∀ y ∈ s.reads, z.id ≠ y.id := fun y hy => (hz.running y hy).symm
  cases hw with
  | @sleep x took got n hok hline hp he =>
    cases he with
    | sleep hall hn hnl heof =>
      exact {
        cons := hok
        line := hline ▸ h.line
        committed := h.committed_append hp
        call := fun q y hy => by
          rcases update_eq_some hy with ⟨rfl, rfl⟩ | ⟨hq, hy⟩
          · exact {
              pos := hz.pos
              length := hn
              newline := hnl
              eof := heof
              taken := (takenBy_append _ _ _).trans (by rw [hz.taken, hall])
              old := hz.old
              running := hz.running }
          · exact (h.call q y hy).frame (hother q y hq hy) took rfl rfl fun _ hx => .inl hx
        ids := fun q q' y y' hy hy' hid => by
          rcases update_eq_some hy with ⟨rfl, rfl⟩ | ⟨hq, h1⟩ <;>
            rcases update_eq_some hy' with ⟨rfl, rfl⟩ | ⟨hq', h2⟩
          · rfl
          · exact absurd hid (hother q' y' hq' h2)
          · exact absurd hid.symm (hother q y hq h1)
          · exact h.ids q q' y y' h1 h2 hid
        reads := fun y hy => ⟨(h.reads y hy).1, (h.reads y hy).2.append (hne y hy) took⟩
        old := h.old_append hz took
        all := fun id hid => by
          rcases h.all id hid with ⟨q, y, hy, hid⟩ | hr
          · by_cases hq : q = p
            · subst hq
              obtain rfl := Option.some.inj (hc.symm.trans hy)
              exact .inl ⟨q, _, Function.update_self .., hid⟩
            · exact .inl ⟨q, y, (Function.update_of_ne hq ..).trans hy, hid⟩
          · exact .inr hr }
  | @returned x took out hok hline hp he hout =>
    have hcall : ∀ q y, Function.update s.call p none q = some y → q ≠ p ∧ s.call q = some y := by
      intro q y hy
      have hq : q ≠ p := fun hq => by
        rw [hq, Function.update_self] at hy
        cases hy
      exact ⟨hq, (Function.update_of_ne hq ..).symm.trans hy⟩
    have hmem : ∀ y ∈ s.reads ++ [⟨z.id, z.target, out⟩], y ∈ s.reads ∨ y = ⟨z.id, z.target, out⟩ :=
      fun y hy => (List.mem_append.1 hy).imp_right List.mem_singleton.1
    exact {
      cons := hok
      line := hline ▸ h.line
      committed := h.committed_append hp
      call := fun q y hy => by
        obtain ⟨hq, hy⟩ := hcall q y hy
        refine (h.call q y hy).frame (hother q y hq hy) took rfl rfl fun x hx => ?_
        exact (hmem x hx).imp_right (congrArg Read.id)
      ids := fun q q' y y' hy hy' => h.ids q q' y y' (hcall q y hy).2 (hcall q' y' hy').2
      reads := fun y hy => by
        rcases hmem y hy with hy | rfl
        · exact ⟨(h.reads y hy).1, (h.reads y hy).2.append (hne y hy) took⟩
        · exact ⟨hz.old, he.served hz hout⟩
      old := h.old_append hz took
      all := fun id hid => by
        rcases h.all id hid with ⟨q, y, hy, hid⟩ | ⟨y, hy, hid⟩
        · by_cases hq : q = p
          · subst hq
            obtain rfl := Option.some.inj (hc.symm.trans hy)
            exact .inr ⟨_, List.mem_append_right _ (List.mem_singleton.2 rfl), hid⟩
          · exact .inl ⟨q, y, (Function.update_of_ne hq ..).trans hy, hid⟩
        · exact .inr ⟨y, List.mem_append_left _ hy, hid⟩ }

/-! ## Steps -/

/-- A step: a keystroke, a stretch of a call, which may be a new one, or a kill. -/
inductive Stepped (pid : P → Int) (s : State P) : Label P → State P → Prop
  | key (c : UInt8) : Stepped pid s (.key c) { s with
      cons := consoleintr c s.cons
      killed := if c = ctrl 'C' then killAll pid s.killed else s.killed
      committed := s.committed ++ (consoleintr c s.cons).between s.cons.w (consoleintr c s.cons).w }
  | read {p : P} {n : Nat} (hp : s.call p = none) (hn : 0 < n) : Stepped pid s (.read p n)
      ({ s with
          calls := s.calls + 1
          call := Function.update s.call p (some ⟨s.calls, n, n, []⟩) }.go p ⟨s.calls, n, n, []⟩)
  | wake {p : P} {z : Call} (hp : s.call p = some z) : Stepped pid s (.wake p) (s.go p z)
  | kill (p : P) : Stepped pid s (.kill p) { s with killed := Function.update s.killed p true }

theorem State.go_update (s : State P) (p : P) (o : Option Call) (z : Call) :
    { s with call := Function.update s.call p o }.go p z = s.go p z := by
  rw [State.go, State.go]
  dsimp only
  generalize consoleread (s.killed p) z.target s.cons z.n z.got = y
  obtain ⟨x, took, out⟩ := y
  cases out with
  | sleep n got => dsimp only; rw [Function.update_idem]
  | done got => dsimp only; rw [Function.update_idem]
  | killed got => dsimp only; rw [Function.update_idem]

theorem State.step_stepped {l : Label P} (h : s.step pid l = some s') : Stepped pid s l s' := by
  cases l with
  | key c => exact Option.some.inj h ▸ .key c
  | read p n =>
    rw [State.step] at h
    split at h
    · next hp =>
      split_ifs at h with hn
      rw [← State.go_update _ p (some ⟨s.calls, n, n, []⟩)] at h
      exact Option.some.inj h ▸ .read hp hn
    · cases h
  | wake p =>
    rw [State.step] at h
    split at h
    · cases h
    · next z hp => exact Option.some.inj h ▸ .wake hp
  | kill p => exact Option.some.inj h ▸ .kill p

/-- A call begins. -/
theorem Inv.begin (h : Inv s) {p : P} (hp : s.call p = none) {n : Nat} (hn : 0 < n) :
    Inv { s with
      calls := s.calls + 1
      call := Function.update s.call p (some ⟨s.calls, n, n, []⟩) } := by
  exact {
    cons := h.cons
    line := h.line
    committed := h.committed
    call := fun q y hy => by
      rcases update_eq_some hy with ⟨rfl, rfl⟩ | ⟨hq, h1⟩
      · exact {
          pos := hn
          length := Nat.zero_add n
          newline := List.not_mem_nil
          eof := List.not_mem_nil
          taken := takenBy_eq_nil h.old
          old := Nat.lt_succ_self _
          running := fun y hy => (h.reads y hy).1.ne }
      · exact { h.call q y h1 with old := (h.call q y h1).old.trans (Nat.lt_succ_self _) }
    ids := fun q q' y y' hy hy' hid => by
      rcases update_eq_some hy with ⟨rfl, rfl⟩ | ⟨hq, h1⟩ <;>
        rcases update_eq_some hy' with ⟨rfl, rfl⟩ | ⟨hq', h2⟩
      · rfl
      · exact absurd hid (h.call q' y' h2).old.ne'
      · exact absurd hid (h.call q y h1).old.ne
      · exact h.ids q q' y y' h1 h2 hid
    reads := fun y hy => ⟨(h.reads y hy).1.trans (Nat.lt_succ_self _), (h.reads y hy).2⟩
    old := fun x hx => (h.old x hx).trans (Nat.lt_succ_self _)
    all := fun id hid => by
      rcases Nat.lt_succ_iff_lt_or_eq.1 hid with hid | rfl
      · refine (h.all id hid).imp_left fun ⟨q, y, hy, hid⟩ => ⟨q, y, ?_, hid⟩
        exact (Function.update_of_ne (fun hq => by rw [hq, hp] at hy; cases hy) ..).trans hy
      · exact .inl ⟨p, _, Function.update_self .., rfl⟩ }

theorem Inv.step (h : Inv s) {l : Label P} (hs : Stepped pid s l s') : Inv s' := by
  cases hs with
  | key c =>
    have hk := h.cons.keyed h.line c
    have hline : newline ∉ (consoleintr c s.cons).tty.line := by
      rw [hk.tty]
      exact Tty.newline_notMem_key h.line c
    refine { h with cons := hk.ok, line := hline, committed := ?_, call := ?_ }
    · show _ = s.taken.map Prod.snd ++ (consoleintr c s.cons).pending
      rw [hk.pending, ← List.append_assoc, ← h.committed]
    · exact fun p z hz => { h.call p z hz with }
  | read hp hn =>
    have hb := h.begin hp hn
    exact hb.of_went (Function.update_self ..) (hb.went (hb.call _ _ (Function.update_self ..)) _)
  | wake hp => exact h.of_went hp (h.went (h.call _ _ hp) _)
  | kill p => exact { h with call := fun q z hz => { h.call q z hz with } }

theorem Inv.boot : Inv (boot : State P) := by
  have hpos : 0 < UINT := by decide
  have hnil : Cons.between ⟨fun _ => 0, 0, 0, 0⟩ 0 0 = [] := by
    rw [Cons.between]
    exact (RingBuffer.ok_of_eq rfl hpos).2
  have hpending : (Console.boot : State P).cons.pending = [] := hnil
  have hline : (Console.boot : State P).cons.line = [] := hnil
  exact {
    cons := ⟨hpos, hpos, hpos, by rw [hpending, hline]; exact Nat.zero_le _⟩
    line := by rw [hline]; exact List.not_mem_nil
    committed := by rw [hpending]; rfl
    call := fun _ _ hz => by cases hz
    ids := fun _ _ _ _ hz => by cases hz
    reads := fun _ hz => by cases hz
    old := fun _ hx => by cases hx
    all := fun _ hid => absurd hid (Nat.not_lt_zero _) }

theorem Reach.inv (h : Reach pid s) : Inv s := by
  induction h with
  | boot => exact .boot
  | step _ hs ih => exact ih.step (State.step_stepped hs)

/-! ## What the reads return -/

/-- A Ctrl-D was taken by a call that returned nothing. -/
theorem Inv.eof (h : Inv s) {id : Nat} (hid : (id, ctrl 'D') ∈ s.taken) :
    takenBy s.taken id = [ctrl 'D'] ∧ ∃ z ∈ s.reads, z.id = id ∧ z.out = .done [] := by
  have hmem := mem_takenBy hid
  rcases h.all id (h.old _ hid) with ⟨p, z, hz, rfl⟩ | ⟨z, hz, rfl⟩
  · rw [(h.call p z hz).taken] at hmem
    exact absurd hmem (h.call p z hz).eof
  · have hserved := (h.reads z hz).2
    unfold Served at hserved
    split at hserved
    · exact hserved.elim
    · exact absurd (hserved.1 ▸ hmem) hserved.2
    · next got hout =>
      obtain ⟨heof, -, -, htaken⟩ := hserved
      split_ifs at htaken with hnil
      · exact ⟨htaken, z, hz, rfl, hnil ▸ hout⟩
      · exact absurd (htaken ▸ hmem) heof

/-- The end of a call: what it returns is all it was asked for, or ends with a newline, or comes
right before a Ctrl-D. -/
theorem Went.stops {p : P} {z : Call} (h : Went s p z s') {y : Read} {got : List UInt8}
    (hy : s'.reads = s.reads ++ [y]) (hout : y.out = .done got) (hne : got ≠ []) :
    got.length = y.target ∨ got.getLast? = some newline ∨
      s'.cons.pending.head? = some (ctrl 'D') := by
  cases h with
  | sleep => exact absurd (congrArg List.length hy) (by simp)
  | returned hok hline hp he =>
    obtain rfl := List.singleton_inj.1 (List.append_cancel_left hy)
    obtain rfl : _ = Out.done got := hout
    cases he with
    | done _ _ _ _ _ hstop => exact hstop
    | eof => exact absurd rfl hne

theorem Inv.stops (h : Inv s) {l : Label P} (hs : Stepped pid s l s') {y : Read}
    {got : List UInt8} (hy : s'.reads = s.reads ++ [y]) (hout : y.out = .done got)
    (hne : got ≠ []) :
    got.length = y.target ∨ got.getLast? = some newline ∨
      s'.cons.pending.head? = some (ctrl 'D') := by
  cases hs with
  | key c => exact absurd (congrArg List.length hy) (by simp)
  | read hp hn =>
    have hb := h.begin hp hn
    exact (hb.went (hb.call _ _ (Function.update_self ..)) _).stops hy hout hne
  | wake hp => exact (h.went (h.call _ _ hp) _).stops hy hout hne
  | kill p => exact absurd (congrArg List.length hy) (by simp)

/-- The bytes that a call has copied. -/
def Out.got : Out → List UInt8
  | .sleep _ got => got
  | .done got => got
  | .killed got => got

/-- The bytes that the calls that have returned copied, one call after the other. -/
def State.returned (s : State P) : List UInt8 := s.reads.flatMap fun z => z.out.got

/-- The characters, without the Ctrl-D markers. -/
def unmarked (cs : List UInt8) : List UInt8 := cs.filter (· ≠ ctrl 'D')

/-- The states the machine reaches when calls do not overlap. -/
inductive Solo (pid : P → Int) : State P → Prop
  | boot : Solo pid boot
  | step {s s' : State P} {l : Label P} (hs : Solo pid s) (h : s.step pid l = some s')
      (hl : ∀ p n, l = .read p n → ∀ q, s.call q = none) : Solo pid s'

/-- What a call copies in a stretch is what it takes, without the marker. -/
theorem Ended.got {target : Nat} {got took rest : List UInt8} {out : Out}
    (h : Ended target got took rest out) : out.got = got ++ unmarked took := by
  have hun : ∀ {all : List UInt8}, all = got ++ took → ctrl 'D' ∉ all →
      all = got ++ unmarked took := by
    intro all hall heof
    rw [hall, List.mem_append, not_or] at heof
    rw [hall, unmarked, List.filter_eq_self.2]
    exact fun c hc => decide_eq_true fun he => heof.2 (he ▸ hc)
  cases h with
  | sleep hall hn hnl heof => exact hun hall heof
  | killed hall heof => exact hun hall heof
  | done hall hne hle hnl heof hstop => exact hun hall heof
  | eof hgot htook =>
    subst hgot htook
    decide

/-- At most one call runs; what was taken is what the calls have copied, in order. -/
structure Alone (s : State P) : Prop where
  one : ∀ p q z y, s.call p = some z → s.call q = some y → p = q
  busy : ∀ p z, s.call p = some z → unmarked (s.taken.map Prod.snd) = s.returned ++ z.got
  idle : (∀ p, s.call p = none) → unmarked (s.taken.map Prod.snd) = s.returned

theorem Alone.of_went (h : Alone s) {p : P} {z : Call} (hc : s.call p = some z)
    (hw : Went s p z s') : Alone s' := by
  have hothers : ∀ q, q ≠ p → s.call q = none := by
    intro q hq
    cases hy : s.call q with
    | none => rfl
    | some y => exact absurd (h.one q p y z hy hc) hq
  have hun : ∀ took : List UInt8,
      unmarked ((s.taken ++ took.map fun c => (z.id, c)).map Prod.snd) =
        s.returned ++ (z.got ++ unmarked took) := by
    intro took
    have hid : (took.map fun c => (z.id, c)).map Prod.snd = took := by
      rw [List.map_map]
      exact List.map_id took
    rw [List.map_append, hid, unmarked, List.filter_append, ← List.append_assoc, ← h.busy p z hc]
    rfl
  cases hw with
  | @sleep x took got n hok hline hp he =>
    have hcall : ∀ q y, Function.update s.call p (some { z with n := n, got := got }) q = some y →
        q = p ∧ y = { z with n := n, got := got } := by
      refine fun q y hy => (update_eq_some hy).resolve_right fun ⟨hq, hy⟩ => ?_
      rw [hothers q hq] at hy
      cases hy
    refine ⟨fun q q' y y' hy hy' => (hcall q y hy).1.trans (hcall q' y' hy').1.symm, ?_, ?_⟩
    · intro q y hy
      obtain ⟨-, rfl⟩ := hcall q y hy
      rw [hun took, ← he.got]
      rfl
    · exact fun hidle =>
        absurd ((Function.update_self ..).symm.trans (hidle p)) (Option.some_ne_none _)
  | @returned x took out hok hline hp he hout =>
    have hidle : ∀ q, Function.update s.call p none q = none := by
      intro q
      by_cases hq : q = p
      · rw [hq, Function.update_self]
      · rw [Function.update_of_ne hq, hothers q hq]
    have hreturned : s.returned ++ out.got =
        (s.reads ++ [(⟨z.id, z.target, out⟩ : Read)]).flatMap fun z => z.out.got := by
      rw [List.flatMap_append, List.flatMap_singleton]
      rfl
    refine ⟨fun q _ y _ hy => ?_, fun q y hy => ?_, fun _ => ?_⟩
    · exact absurd (hy.symm.trans (hidle q)) (Option.some_ne_none _)
    · exact absurd (hy.symm.trans (hidle q)) (Option.some_ne_none _)
    · rw [hun took, ← he.got]
      exact hreturned

theorem Alone.step (h : Alone s) (hi : Inv s) {l : Label P} (hs : Stepped pid s l s')
    (hl : ∀ p n, l = .read p n → ∀ q, s.call q = none) : Alone s' := by
  cases hs with
  | key c => exact { h with }
  | @read p n hp hn =>
    have hb := hi.begin hp hn
    have hnone := hl p n rfl
    have hcall : ∀ q y, Function.update s.call p (some ⟨s.calls, n, n, []⟩) q = some y →
        q = p ∧ y = ⟨s.calls, n, n, []⟩ := by
      refine fun q y hy => (update_eq_some hy).resolve_right fun ⟨_, hy⟩ => ?_
      rw [hnone q] at hy
      cases hy
    have ha : Alone { s with
        calls := s.calls + 1
        call := Function.update s.call p (some ⟨s.calls, n, n, []⟩) } := by
      refine ⟨fun q q' y y' hy hy' => (hcall q y hy).1.trans (hcall q' y' hy').1.symm, ?_, ?_⟩
      · intro q y hy
        obtain ⟨-, rfl⟩ := hcall q y hy
        exact (h.idle hnone).trans (List.append_nil _).symm
      · exact fun hidle =>
          absurd ((Function.update_self ..).symm.trans (hidle p)) (Option.some_ne_none _)
    exact ha.of_went (Function.update_self ..) (hb.went (hb.call _ _ (Function.update_self ..)) _)
  | wake hp => exact h.of_went hp (hi.went (hi.call _ _ hp) _)
  | kill p => exact { h with }

theorem Solo.reach (h : Solo pid s) : Reach pid s := by
  induction h with
  | boot => exact .boot
  | step _ hs _ ih => exact .step ih hs

theorem Solo.alone (h : Solo pid s) : Alone s := by
  induction h with
  | boot => exact ⟨fun _ _ _ _ hz => (by cases hz), fun _ _ hz => (by cases hz), fun _ => rfl⟩
  | step hs h hl ih => exact ih.step hs.reach.inv (State.step_stepped h) hl

/-- When no two calls overlap, what the calls copy is what was committed. -/
theorem Solo.committed (h : Solo pid s) (hidle : ∀ p, s.call p = none) :
    unmarked s.committed = s.returned ++ unmarked s.cons.pending := by
  rw [h.reach.inv.committed, ← h.alone.idle hidle, unmarked, List.filter_append]
  rfl

end Xv6.Console
