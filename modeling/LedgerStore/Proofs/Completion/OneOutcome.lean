import LedgerStore.Proofs.Completion.Session

/-!
What is seen of completions over a whole session. All of it goes into a record. The main statement
is that the record tells one story of each completion: it is pending until it is settled, which
happens once, and from then on everyone sees the same outcome.
-/

set_option autoImplicit false

namespace LedgerStore.Completion

/-- A session, what its threads wait for, and all that was seen in it so far. -/
structure Chronicle where
  session : Session := {}
  asks : List Ask := []
  record : List Event := []

namespace Chronicle

variable {σ : Type} (path : Storage σ)

def shows (c : Chronicle) (a : Act) : List Event :=
  (c.session.act path c.asks a).1

def step (c : Chronicle) (a : Act) : Chronicle where
  session := (c.session.act path c.asks a).2
  asks := c.asks ++ (a.ask? c.session).toList
  record := c.record ++ c.shows path a

def follow (c : Chronicle) (acts : List Act) : Chronicle :=
  acts.foldl (step path) c

def run (acts : List Act) : Chronicle :=
  follow path {} acts

structure Answers (c : Chronicle) (i : Nat) (ask : Ask) (cell : Nat) (answer : Option Outcome) :
    Prop where
  back : (c.session.waiters[i]?).bind Waiter.answer? = some answer
  seen : Session.shown path ask cell answer ∈ c.record

structure Awaited (c : Chronicle) (i : Nat) (ask : Ask) (cell : Nat) (deadline : Option Nat) :
    Prop where
  /-- Once the outcome is known the thread comes back with it when it next looks, however long ago
  it began to wait, unless it has given up at its deadline. -/
  known : ∀ o, c.session.completions.outcome? cell = some o →
    (c.step path (.turn i)).Answers path i ask cell (some o) ∨
      c.Answers path i ask cell none ∧ ∃ limit, deadline = some limit ∧ limit ≤ c.session.now
  late : ∀ limit, deadline = some limit → limit ≤ c.session.now →
    c.session.completions.outcome? cell = none →
    (c.follow path [.turn i, .expire i, .turn i]).Answers path i ask cell none

end Chronicle

/-- What a record tells of a completion, with what is known of it in the end. One that was made with
its outcome was never seen without. -/
def Told (id : Nat) (record : List Event) : Option Outcome → Prop
  | none => ∀ e ∈ record, e.cell = id → e.Agrees none
  | some o => ∃ before cause after, record = before ++ .settled id cause :: after ∧
      cause.outcome = o ∧
      (∀ e ∈ before, e.cell = id → e.Agrees none ∧ ∀ p, cause ≠ .given p) ∧
      ∀ e ∈ after, e.cell = id → e.Agrees (some o)

namespace Told

variable {id : Nat} {record es : List Event} {x : Option Outcome} {cause : Cause}

theorem append (h : Told id record x) (hes : ∀ e ∈ es, e.cell = id → e.Agrees x) :
    Told id (record ++ es) x := by
  cases x with
  | none =>
    intro e he
    rcases List.mem_append.1 he with he | he
    · exact h e he
    · exact hes e he
  | some o =>
    obtain ⟨before, cause, after, rfl, hcause, hbefore, hafter⟩ := h
    refine ⟨before, cause, after ++ es, by simp, hcause, hbefore, fun e he => ?_⟩
    rcases List.mem_append.1 he with he | he
    · exact hafter e he
    · exact hes e he

theorem settle (h : Told id record none) (hcause : ∀ p, cause ≠ .given p) :
    Told id (record ++ [.settled id cause]) (some cause.outcome) :=
  ⟨record, cause, [], rfl, rfl, fun e he hid => ⟨h e he hid, hcause⟩, fun _ he => by cases he⟩

theorem give (h : ∀ e ∈ record, e.cell ≠ id) (o : Outcome) :
    Told id (record ++ [.settled id (.given o)]) (some o) :=
  ⟨record, .given o, [], rfl, rfl, fun e he hid => absurd hid (h e he), fun _ he => by cases he⟩

end Told

section Passes

open Session

variable {s s' : Session} {es : List Event}

theorem Session.Passes.told (h : Passes s es s') {record : List Event}
    (hbounded : ∀ e ∈ record, e.cell < s.completions.cells.length)
    (hrecord : ∀ id, Told id record (s.completions.outcome? id)) (id : Nat) :
    Told id (record ++ es) (s'.completions.outcome? id) := by
  have hfresh : ∀ e ∈ record, e.cell ≠ s.completions.cells.length :=
    fun e he => Nat.ne_of_lt (hbounded e he)
  cases h with
  | quiet completions handles places threads goes events =>
    rw [completions]
    refine (hrecord id).append fun e he hid => ?_
    exact hid ▸ (events e he).2
  | pair =>
    rw [List.append_nil, show s.pair.2.completions.outcome? id = _ from Completions.outcome?_add ..]
    split
    · next hid =>
      intro e he heq
      exact absurd (heq.trans hid) (hfresh e he)
    · exact hrecord id
  | ready o =>
    rw [show (s.ready o).2.completions.outcome? id = _ from Completions.outcome?_add ..]
    split
    · next hid => exact hid ▸ Told.give hfresh o
    · next hne =>
      refine (hrecord id).append fun e he hid => ?_
      rw [List.mem_singleton.1 he] at hid
      exact absurd hid.symm hne
  | settled h cause pending late =>
    rw [completions_settle, Completions.outcome?_resolve pending]
    split
    · next heq =>
      rw [← heq]
      exact Told.settle (pending.outcome? ▸ hrecord h.cell) late
    · next hne =>
      refine (hrecord id).append fun e he hid => ?_
      rw [List.mem_singleton.1 he] at hid
      exact absurd hid hne

end Passes

namespace Session

variable {σ : Type} (path : Storage σ) {s : Session} {asks : List Ask}

theorem length_resolved (h : Handle) (o : Outcome) :
    (s.resolve h o).2.waiters.length = s.waiters.length := by
  rw [resolve]
  split
  · dsimp only
    rw [settle]
    split <;> simp [notifyAll]
  · rfl

theorem length_waiters (a : Act) : (s.act path asks a).2.waiters.length =
    s.waiters.length + (a.ask? s).toList.length := by
  cases a with
  | on i u =>
    rw [act, Act.ask?]
    cases s.handles[i]? with
    | none => rfl
    | some h =>
      dsimp only [Option.bind_some]
      cases u with
      | resolve o =>
        rw [use_resolve]
        exact length_resolved h o
      | drop =>
        rw [use_drop]
        exact length_resolved h _
      | wait ask => exact List.length_append
      | waitTimeout timeout ask => exact List.length_append
      | _ => rfl
  | turn i =>
    rw [act]
    split
    · rfl
    · exact List.length_modify _ _ _
  | expire i => exact List.length_modify _ _ _
  | _ => rfl

/-- No thread comes back. -/
def Silent (s s' : Session) : Prop :=
  ∀ (i : Nat) w answer, s'.waiters[i]? = some w → w.answer? = some answer →
    ∃ v, s.waiters[i]? = some v ∧ v.cell = w.cell ∧ v.answer? = some answer

section Silent

variable {s' : Session} {f : Waiter → Waiter}

theorem silent_of_waiters (hwaiters : s'.waiters = s.waiters) : s.Silent s' :=
  fun _ w _ hw hanswer => ⟨w, hwaiters ▸ hw, rfl, hanswer⟩

theorem silent_map (hf : ∀ w : Waiter, w.Goes (f w) ∧ (f w).answer? = w.answer?)
    (hwaiters : s'.waiters = s.waiters.map f) : s.Silent s' := by
  intro i w answer hw hanswer
  rw [hwaiters, List.getElem?_map, Option.map_eq_some_iff] at hw
  obtain ⟨v, hv, rfl⟩ := hw
  exact ⟨v, hv, (hf v).1.cell.symm, (hf v).2 ▸ hanswer⟩

theorem silent_modify {j : Nat} (hf : ∀ w : Waiter, w.Goes (f w) ∧ (f w).answer? = w.answer?)
    (hwaiters : s'.waiters = s.waiters.modify j f) : s.Silent s' := by
  intro i w answer hw hanswer
  rw [hwaiters, List.getElem?_modify, Option.map_eq_map, Option.map_eq_some_iff] at hw
  obtain ⟨v, hv, heq⟩ := hw
  split at heq <;> subst heq
  · exact ⟨v, hv, (hf v).1.cell.symm, (hf v).2 ▸ hanswer⟩
  · exact ⟨v, hv, rfl, hanswer⟩

theorem silent_append {u : Waiter} (hu : u.answer? = none)
    (hwaiters : s'.waiters = s.waiters ++ [u]) : s.Silent s' := by
  intro i w answer hw hanswer
  rw [hwaiters, List.getElem?_append] at hw
  split at hw
  · exact ⟨w, hw, rfl, hanswer⟩
  · rw [List.getElem?_singleton] at hw
    split at hw <;> cases hw
    cases hu.symm.trans hanswer

/-- Those who are notified come back later, when they look. -/
theorem silent_resolve (s : Session) (h : Handle) (o : Outcome) : s.Silent (s.resolve h o).2 := by
  rw [resolve]
  split
  · dsimp only
    rw [settle]
    split
    · refine silent_map (fun w => ?_) rfl
      split
      · exact ⟨w.goes_notify, w.answer?_notify⟩
      · exact ⟨.refl w, rfl⟩
    · exact silent_of_waiters rfl
  · exact silent_of_waiters rfl

theorem silent_use (s : Session) (h : Handle) (u : Use) : s.Silent (s.use path h u).2 := by
  cases u with
  | resolve o =>
    rw [use_resolve]
    exact silent_resolve s h o
  | drop =>
    rw [use_drop]
    exact silent_resolve s h _
  | wait ask => exact silent_append rfl rfl
  | waitTimeout timeout ask =>
    refine silent_append ?_ rfl
    rw [Waiter.answer?]
    split
    · next heq => split at heq <;> cases heq
    · rfl
  | _ => exact silent_of_waiters rfl

end Silent

/-- A thread that has an answer after its turn had it before, or comes back in this turn. -/
theorem turn_answers {i k : Nat} {v w : Waiter} {answer : Option Outcome}
    (hv : s.waiters[k]? = some v) (hw : (s.turn k).waiters[i]? = some w)
    (hanswer : w.answer? = some answer) :
    ∃ u, s.waiters[i]? = some u ∧ u.cell = w.cell ∧ (u.answer? = some answer ∨
      k = i ∧ u = v ∧ v.back? (s.completions.outcome? v.cell) = some answer) := by
  rw [turn, List.getElem?_modify, Option.map_eq_map, Option.map_eq_some_iff] at hw
  obtain ⟨u, hu, heq⟩ := hw
  split at heq
  · next hki =>
    subst hki heq
    obtain rfl : u = v := Option.some.inj (hu.symm.trans hv)
    refine ⟨u, hu, (u.goes_look _).cell.symm, ?_⟩
    cases hbefore : u.answer? with
    | some old =>
      have hsame := (u.goes_look (s.completions.outcome? u.cell)).answer old hbefore
      exact Or.inl (hsame.symm.trans hanswer)
    | none =>
      refine Or.inr ⟨rfl, rfl, ?_⟩
      rw [Waiter.back?, hbefore, Option.isNone_none, if_pos rfl]
      exact hanswer
  · subst heq
    exact ⟨u, hu, rfl, Or.inl hanswer⟩

/-- A thread that has an answer after an act had it before, or comes back in this act. -/
theorem act_answers (a : Act) {i : Nat} {w : Waiter} {answer : Option Outcome}
    (hw : (s.act path asks a).2.waiters[i]? = some w) (hanswer : w.answer? = some answer) :
    ∃ v, s.waiters[i]? = some v ∧ v.cell = w.cell ∧
      (v.answer? = some answer ∨
        shown path (asks[i]?).join w.cell answer ∈ (s.act path asks a).1) := by
  have hold : s.Silent (s.act path asks a).2 → ∃ v, s.waiters[i]? = some v ∧ v.cell = w.cell ∧
      (v.answer? = some answer ∨
        shown path (asks[i]?).join w.cell answer ∈ (s.act path asks a).1) := by
    intro hsilent
    obtain ⟨v, hv, hcell, hbefore⟩ := hsilent i w answer hw hanswer
    exact ⟨v, hv, hcell, Or.inl hbefore⟩
  cases a with
  | on k u =>
    refine hold ?_
    rw [act]
    split
    · exact silent_of_waiters rfl
    · exact silent_use path s _ u
  | turn k =>
    cases hget : s.waiters[k]? with
    | none =>
      rw [act, hget] at hw
      exact ⟨w, hw, rfl, Or.inl hanswer⟩
    | some v =>
      rw [act, hget] at hw ⊢
      obtain ⟨u, hu, hcell, hseen⟩ := turn_answers hget hw hanswer
      refine ⟨u, hu, hcell, hseen.imp_right ?_⟩
      rintro ⟨rfl, rfl, hback⟩
      dsimp only
      rw [hback, ← hcell]
      exact List.mem_singleton_self _
  | expire k =>
    exact hold (silent_modify (fun w => ⟨w.goes_expire _, w.answer?_expire _⟩) rfl)
  | _ => exact hold (silent_of_waiters rfl)

end Session

namespace Chronicle

variable {σ : Type} (path : Storage σ)

structure Kept (c : Chronicle) : Prop where
  session : c.session.Sound
  bounded : ∀ e ∈ c.record, e.cell < c.session.completions.cells.length
  told : ∀ id, Told id c.record (c.session.completions.outcome? id)
  asks : c.asks.length = c.session.waiters.length
  answered : ∀ (i : Nat) w answer, c.session.waiters[i]? = some w → w.answer? = some answer →
    Session.shown path (c.asks[i]?).join w.cell answer ∈ c.record

variable {path} {c d : Chronicle}

theorem Kept.step (h : c.Kept path) (a : Act) : (c.step path a).Kept path := by
  have hpasses := h.session.act_passes path c.asks a
  obtain ⟨hlength, hevents⟩ := hpasses.bounded
  exact {
    session := hpasses.sound h.session
    bounded e he := by
      rcases List.mem_append.1 he with he | he
      · exact Nat.lt_of_lt_of_le (h.bounded e he) hlength
      · exact hevents e he
    told := hpasses.told h.bounded h.told
    asks := by
      rw [Chronicle.step, List.length_append, h.asks]
      exact (Session.length_waiters path a).symm
    answered i w answer hw hanswer := by
      obtain ⟨v, hv, hcell, hseen⟩ := Session.act_answers path a hw hanswer
      have hask : (c.asks ++ (a.ask? c.session).toList)[i]? = c.asks[i]? :=
        List.getElem?_append_left (h.asks ▸ (List.getElem?_eq_some_iff.1 hv).1)
      rw [Chronicle.step, hask]
      rcases hseen with hold | hnew
      · exact List.mem_append_left _ (hcell ▸ h.answered i v answer hv hold)
      · exact List.mem_append_right _ hnew }

theorem Kept.follow (h : c.Kept path) (acts : List Act) : (c.follow path acts).Kept path := by
  induction acts generalizing c with
  | nil => exact h
  | cons a acts ih => exact ih (h.step a)

/-- Threads go on as they began, and for what they began. -/
theorem Kept.goes (h : c.Kept path) (acts : List Act) :
    c.session.Goes (c.follow path acts).session ∧ c.asks <+: (c.follow path acts).asks := by
  induction acts generalizing c with
  | nil => exact ⟨.refl _, List.prefix_refl _⟩
  | cons a acts ih =>
    obtain ⟨hgoes, hasks⟩ := ih (h.step a)
    exact ⟨(h.session.act_passes path c.asks a).goes.trans hgoes,
      (List.prefix_append _ _).trans hasks⟩

section Thread

variable {i : Nat} {ask : Ask} {w : Waiter}

theorem Kept.answers (h : c.Kept path) (hw : c.session.waiters[i]? = some w)
    (hask : c.asks[i]? = some ask) {answer : Option Outcome} (hanswer : w.answer? = some answer) :
    c.Answers path i ask w.cell answer where
  back := by
    rw [hw]
    exact hanswer
  seen := by
    have hseen := h.answered i w answer hw hanswer
    rwa [hask] at hseen

theorem Kept.begins (h : c.Kept path) {k : Nat} {g : Handle} {u : Use}
    (hg : c.session.handles[k]? = some g) (hask : u.ask? = some ask)
    (hw : (c.session.use path g u).2.waiters = c.session.waiters ++ [w]) (more : List Act) :
    ((c.step path (.on k u)).follow path more).Kept path ∧ ∃ v,
      ((c.step path (.on k u)).follow path more).session.waiters[c.session.waiters.length]? =
        some v ∧ w.Goes v ∧
      ((c.step path (.on k u)).follow path more).asks[c.session.waiters.length]? = some ask := by
  have hstep := h.step (.on k u)
  obtain ⟨hgoes, later, hasks⟩ := hstep.goes more
  have hbegun : (c.step path (.on k u)).session.waiters[c.session.waiters.length]? = some w := by
    simp only [Chronicle.step, Session.act, hg, hw]
    exact List.getElem?_concat_length
  have hasked : (c.step path (.on k u)).asks[c.session.waiters.length]? = some ask := by
    simp only [Chronicle.step, Act.ask?, hg, Option.bind_some, hask, ← h.asks]
    exact List.getElem?_concat_length
  obtain ⟨v, hv, hgone⟩ := hgoes _ w hbegun
  refine ⟨hstep.follow more, v, hv, hgone, ?_⟩
  rw [← hasks, List.getElem?_append_left (List.getElem?_eq_some_iff.1 hasked).1, hasked]

end Thread

example (path : Storage σ) : (run path [.pair, .on 0 .clone, .on 1 (.wait none), .turn 0,
      .on 1 .look, .on 0 (.resolve (.ok ())), .on 0 .drop, .turn 0, .on 0 .isResolved]).record =
    [.outcome 0 none, .settled 0 (.resolved (.ok ())), .outcome 0 (some (.ok ())),
      .known 0 true] := by
  cbv

end Chronicle

end LedgerStore.Completion
