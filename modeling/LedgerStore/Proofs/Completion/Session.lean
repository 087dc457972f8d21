import LedgerStore.Proofs.Completion.Waiter
import LedgerStore.Proofs.Handler.Dialogue

set_option autoImplicit false

namespace LedgerStore

open Wire

namespace Storage

variable {σ : Type} (s : Storage σ)

theorem fst_report (good : Response) (answer : Option Outcome) :
    (s.report good answer).1 = answer.map (settled good) := by
  cases answer with
  | none => rfl
  | some o => exact congrArg some (s.conclude_state good o).1

theorem fst_poll (good : Response) (id : Nat) :
    (s.poll (.durable good id)).1 = (s.completions.outcome? id).map (settled good) :=
  s.fst_report good _

end Storage

namespace Completion

inductive Cause
  | resolved (o : Outcome)
  | dropped
  | given (o : Outcome)

def Cause.outcome : Cause → Outcome
  | resolved o => o
  | dropped => .error .shuttingDown
  | given o => o

inductive Event
  | settled (cell : Nat) (cause : Cause)
  | known (cell : Nat) (answer : Bool)
  | outcome (cell : Nat) (answer : Option Outcome)
  | response (cell : Nat) (good : Response) (answer : Option Response)

namespace Event

def cell : Event → Nat
  | settled id _ => id
  | known id _ => id
  | outcome id _ => id
  | response id _ _ => id

/-- What was seen fits what is known of the completion. Nothing is settled a second time. -/
def Agrees (x : Option Outcome) : Event → Prop
  | settled _ _ => False
  | known _ answer => answer = x.isSome
  | outcome _ answer => answer = x
  | response _ good answer => answer = x.map (Storage.settled good)

end Event

/-- What a thread waits for: the outcome, or a response, a good one if all goes well. -/
abbrev Ask := Option Response

inductive Use
  | clone
  | resolve (o : Outcome)
  | drop
  | isResolved
  | look
  | wait (ask : Ask)
  | waitTimeout (timeout : Nat) (ask : Ask)
  | isReady (good : Response)
  | poll (good : Response)

def Use.ask? : Use → Option Ask
  | wait ask => some ask
  | waitTimeout _ ask => some ask
  | _ => none

inductive Act
  | pair
  | ready (o : Outcome)
  | on (handle : Nat) (use : Use)
  | turn (thread : Nat)
  | expire (thread : Nat)
  | tick (time : Nat)

def Waiter.back? (w : Waiter) (known : Option Outcome) : Option (Option Outcome) :=
  if w.answer?.isNone then (w.look known).answer? else none

namespace Session

variable {σ : Type}

def under (s : Session) (path : Storage σ) : Storage σ :=
  { path with completions := s.completions }

variable (path : Storage σ)

def shown (ask : Ask) (cell : Nat) (answer : Option Outcome) : Event :=
  match ask with
  | none => .outcome cell answer
  | some good => .response cell good (path.report good answer).1

/-- A resolver that has settled its completion is lost like any other. -/
def use (s : Session) (h : Handle) : Use → List Event × Session
  | .clone => ([], (s.clone h).2)
  | .resolve o =>
    let (resolved, s) := s.resolve h o
    let (dropped, s) := s.drop h
    ((if resolved then [.settled h.cell (.resolved o)] else []) ++
      (if dropped then [.settled h.cell .dropped] else []), s)
  | .drop =>
    let (dropped, s) := s.drop h
    (if dropped then [.settled h.cell .dropped] else [], s)
  | .isResolved => ([.known h.cell (s.outcome? h).isSome], s)
  | .look => ([.outcome h.cell (s.outcome? h)], s)
  | .wait _ => ([], s.wait h)
  | .waitTimeout timeout _ => ([], s.waitTimeout h timeout)
  | .isReady good => ([.known h.cell ((s.under path).isReady (.durable good h.cell))], s)
  | .poll good => ([.response h.cell good ((s.under path).poll (.durable good h.cell)).1], s)

def act (asks : List Ask) (s : Session) : Act → List Event × Session
  | .pair => ([], s.pair.2)
  | .ready o => ([.settled (s.completions.ready o).1 (.given o)], (s.ready o).2)
  | .on i u =>
    match s.handles[i]? with
    | none => ([], s)
    | some h => s.use path h u
  | .turn i =>
    match s.waiters[i]? with
    | none => ([], s)
    | some w =>
      (((w.back? (s.completions.outcome? w.cell)).map (shown path (asks[i]?).join w.cell)).toList,
        s.turn i)
  | .expire i => ([], s.expire i)
  | .tick time => ([], s.tick time)

end Session

def Act.ask? (s : Session) : Act → Option Ask
  | .on i u => (s.handles[i]?).bind fun _ => u.ask?
  | _ => none

namespace Session

structure Sound (s : Session) : Prop where
  cells : ∀ cell ∈ s.completions.cells, cell = .pending ∨ ∃ o, cell = .ready o
  handles : ∀ h ∈ s.handles, h.cell < s.completions.cells.length
  waiters : ∀ w ∈ s.waiters, w.Fits s.completions s.now
  resolver : ∀ id, s.completions.Pending id → ∃ h ∈ s.handles, h.cell = id ∧ h.resolver = true

def Goes (s s' : Session) : Prop :=
  ∀ (i : Nat) w, s.waiters[i]? = some w → ∃ w', s'.waiters[i]? = some w' ∧ w.Goes w'

variable {s s' s'' : Session} {h : Handle} {es : List Event}

theorem Sound.cell (hs : s.Sound) {id : Nat} (hid : id < s.completions.cells.length) :
    s.completions.Pending id ∨ ∃ o, s.completions.cells[id]? = some (.ready o) := by
  have hget : s.completions.cells[id]? = some s.completions.cells[id] :=
    List.getElem?_eq_getElem hid
  rcases hs.cells _ (List.getElem_mem hid) with hpending | ⟨o, hready⟩
  · exact Or.inl (hget.trans (congrArg some hpending))
  · exact Or.inr ⟨o, hget.trans (congrArg some hready)⟩

theorem Sound.holds_iff (hs : s.Sound) (hh : h ∈ s.handles) :
    s.holds h = true ↔ h.resolver = true ∧ s.completions.Pending h.cell := by
  rcases hs.cell (hs.handles h hh) with hpending | ⟨o, hready⟩
  · rw [holds, show s.completions.cells[h.cell]? = some .pending from hpending]
    simp [Cell.pending, hpending]
  · rw [holds, Completions.Pending, hready]
    simp [Cell.ready, Cell.pending]

theorem Goes.refl (s : Session) : s.Goes s :=
  fun _ w hw => ⟨w, hw, .refl w⟩

theorem Goes.trans (h : s.Goes s') (h' : s'.Goes s'') : s.Goes s'' := by
  intro i w hw
  obtain ⟨w', hw', hgoes⟩ := h i w hw
  obtain ⟨w'', hw'', hgoes'⟩ := h' i w' hw'
  exact ⟨w'', hw'', hgoes.trans hgoes'⟩

theorem goes_map {f : Waiter → Waiter} (hf : ∀ w : Waiter, w.Goes (f w))
    (hwaiters : s'.waiters = s.waiters.map f) : s.Goes s' := by
  intro i w hw
  refine ⟨f w, ?_, hf w⟩
  rw [hwaiters, List.getElem?_map, hw]
  rfl

theorem goes_modify {f : Waiter → Waiter} (hf : ∀ w : Waiter, w.Goes (f w)) {j : Nat}
    (hwaiters : s'.waiters = s.waiters.modify j f) : s.Goes s' := by
  intro i w hw
  rw [hwaiters, List.getElem?_modify, hw]
  split
  · exact ⟨f w, rfl, hf w⟩
  · exact ⟨w, rfl, .refl w⟩

theorem goes_append {w : Waiter} (hwaiters : s'.waiters = s.waiters ++ [w]) : s.Goes s' := by
  intro i v hv
  refine ⟨v, ?_, .refl v⟩
  rw [hwaiters, List.getElem?_append_left (List.getElem?_eq_some_iff.1 hv).1, hv]

/-- What an act does: nothing that anyone else could tell, or it makes a completion, or a resolver
settles its own. -/
inductive Passes (s : Session) : List Event → Session → Prop
  | quiet {es : List Event} {s' : Session} (completions : s'.completions = s.completions)
    (handles : s.handles <+: s'.handles)
    (places : ∀ h ∈ s'.handles, h.cell < s.completions.cells.length)
    (threads : ∀ w ∈ s'.waiters, w.Fits s.completions s'.now) (goes : s.Goes s')
    (events : ∀ e ∈ es, e.cell < s.completions.cells.length ∧
      e.Agrees (s.completions.outcome? e.cell)) : Passes s es s'
  | pair : Passes s [] s.pair.2
  | ready (o : Outcome) : Passes s [.settled s.completions.cells.length (.given o)] (s.ready o).2
  | settled (h : Handle) (cause : Cause) (pending : s.completions.Pending h.cell)
    (late : ∀ o, cause ≠ .given o) :
    Passes s [.settled h.cell cause] (s.settle h.cell cause.outcome)

theorem Sound.still (hs : s.Sound) (hes : ∀ e ∈ es, e.cell < s.completions.cells.length ∧
    e.Agrees (s.completions.outcome? e.cell)) : Passes s es s :=
  .quiet rfl (List.prefix_refl _) hs.handles hs.waiters (.refl s) hes

theorem Sound.begins (hs : s.Sound) {w : Waiter} (hw : w.Fits s.completions s.now) :
    Passes s [] { s with waiters := s.waiters ++ [w] } := by
  refine .quiet rfl (List.prefix_refl _) hs.handles (fun v hv => ?_) (goes_append rfl)
    fun e he => by cases he
  rcases List.mem_append.1 hv with hv | hv
  · exact hs.waiters v hv
  · rw [List.mem_singleton.1 hv]
    exact hw

theorem Sound.goes_on (hs : s.Sound) {f : Waiter → Waiter} (hgoes : ∀ w : Waiter, w.Goes (f w))
    (hf : ∀ w : Waiter, w.Fits s.completions s.now → (f w).Fits s.completions s.now) (i : Nat)
    (hes : ∀ e ∈ es, e.cell < s.completions.cells.length ∧
      e.Agrees (s.completions.outcome? e.cell)) :
    Passes s es { s with waiters := s.waiters.modify i f } := by
  refine .quiet rfl (List.prefix_refl _) hs.handles (fun v hv => ?_) (goes_modify hgoes rfl) hes
  obtain ⟨j, hj⟩ := List.getElem?_of_mem hv
  rw [List.getElem?_modify] at hj
  cases hw : s.waiters[j]? with
  | none => rw [hw] at hj; split at hj <;> cases hj
  | some w =>
    have hfits := hs.waiters w (List.mem_of_getElem? hw)
    rw [hw] at hj
    split at hj <;> cases hj
    · exact hf w hfits
    · exact hfits

theorem resolve_of_not_holds (hh : s.holds h = false) (o : Outcome) :
    s.resolve h o = (false, s) := by
  simp [resolve, hh]

theorem resolve_of_holds (hh : s.holds h = true) (o : Outcome) :
    s.resolve h o = (true, s.settle h.cell o) := by
  simp [resolve, hh]

@[simp] theorem completions_settle (s : Session) (id : Nat) (o : Outcome) :
    (s.settle id o).completions = s.completions.resolve id o := by
  rw [settle]
  split <;> rfl

theorem holds_resolve (s : Session) (h : Handle) (o : Outcome) :
    (s.resolve h o).2.holds h = false := by
  cases hh : s.holds h with
  | false => rw [resolve_of_not_holds hh, hh]
  | true =>
    rw [resolve_of_holds hh, holds]
    dsimp only
    rw [completions_settle, Completions.cell_resolve, if_pos rfl]
    cases s.completions.cells[h.cell]? with
    | none => simp
    | some cell =>
      cases hheld : cell.held <;> simp [Cell.resolve, hheld]

variable {σ : Type} (path : Storage σ)

/-- The loss of a resolver that has settled its completion does nothing. -/
theorem use_resolve (s : Session) (h : Handle) (o : Outcome) :
    s.use path h (.resolve o) =
      (if s.holds h then [.settled h.cell (.resolved o)] else [], (s.resolve h o).2) := by
  have hlost := resolve_of_not_holds (s.holds_resolve h o) (.error .shuttingDown)
  rw [use]
  dsimp only
  rw [drop, hlost]
  cases hh : s.holds h <;> simp [resolve, hh]

theorem use_drop (s : Session) (h : Handle) :
    s.use path h .drop =
      (if s.holds h then [.settled h.cell .dropped] else [], (s.drop h).2) := by
  cases hh : s.holds h <;> simp [use, drop, resolve, hh]

theorem cell_shown (ask : Ask) (cell : Nat) (answer : Option Outcome) :
    (shown path ask cell answer).cell = cell := by
  cases ask <;> rfl

theorem agrees_shown (ask : Ask) (cell : Nat) (known : Option Outcome) :
    (shown path ask cell known).Agrees known := by
  cases ask with
  | none => rfl
  | some good => exact path.fst_report good known

theorem Sound.settles (hs : s.Sound) (hh : h ∈ s.handles) {cause : Cause} {o : Outcome}
    (hcause : cause.outcome = o) (hlate : ∀ p, cause ≠ .given p) :
    Passes s (if s.holds h then [.settled h.cell cause] else []) (s.resolve h o).2 := by
  cases hholds : s.holds h with
  | false =>
    rw [resolve_of_not_holds hholds]
    exact hs.still fun e he => by cases he
  | true =>
    rw [resolve_of_holds hholds, ← hcause]
    exact .settled h cause ((hs.holds_iff hh).1 hholds).2 hlate

theorem Sound.use_passes (hs : s.Sound) (hh : h ∈ s.handles) (u : Use) :
    Passes s (s.use path h u).1 (s.use path h u).2 := by
  have hlt := hs.handles h hh
  have hsingle : ∀ e : Event, e.cell = h.cell → e.Agrees (s.outcome? h) →
      ∀ e' ∈ [e], e'.cell < s.completions.cells.length ∧
        e'.Agrees (s.completions.outcome? e'.cell) := by
    rintro e hcell hagrees _ (_ | ⟨_, ⟨⟩⟩)
    rw [hcell]
    exact ⟨hlt, hagrees⟩
  cases u with
  | clone =>
    refine .quiet rfl (List.prefix_append _ _) (fun g hg => ?_) hs.waiters (.refl _)
      fun e he => by cases he
    rcases List.mem_append.1 hg with hg | hg
    · exact hs.handles g hg
    · rw [List.mem_singleton.1 hg]
      exact hlt
  | resolve o =>
    rw [use_resolve]
    exact hs.settles hh rfl fun p => by simp
  | drop =>
    rw [use_drop]
    exact hs.settles hh rfl fun p => by simp
  | isResolved => exact hs.still (hsingle _ rfl rfl)
  | look => exact hs.still (hsingle _ rfl rfl)
  | wait ask =>
    exact hs.begins ⟨hlt, by simp, by simp, by simp, by simp⟩
  | waitTimeout timeout ask =>
    refine hs.begins ?_
    split
    · next hlt' => exact ⟨hlt, by simp, by simp, by simp, by simpa using hlt'⟩
    · next hle => exact ⟨hlt, by simp, by simp, by simp, by simpa using hle⟩
  | isReady good => exact hs.still (hsingle _ rfl rfl)
  | poll good => exact hs.still (hsingle _ rfl (Storage.fst_poll _ _ _))

theorem back?_eq {w : Waiter} {known answer : Option Outcome} (h : w.back? known = some answer) :
    answer = known := by
  obtain ⟨cell, deadline, stage⟩ := w
  rcases stage with (_ | _) | _ | _ | _ <;> cases known <;>
    simp_all [Waiter.back?, Waiter.look, Waiter.answer?]

theorem Sound.act_passes (hs : s.Sound) (asks : List Ask) (a : Act) :
    Passes s (s.act path asks a).1 (s.act path asks a).2 := by
  have hnothing : ∀ e ∈ ([] : List Event), e.cell < s.completions.cells.length ∧
      e.Agrees (s.completions.outcome? e.cell) := fun e he => by cases he
  cases a with
  | pair => exact .pair
  | ready o => exact .ready o
  | on i u =>
    rw [act]
    split
    · exact hs.still hnothing
    · next h hget => exact hs.use_passes path (List.mem_of_getElem? hget) u
  | turn i =>
    rw [act]
    split
    · exact hs.still hnothing
    · next w hget =>
      have hlt := (hs.waiters w (List.mem_of_getElem? hget)).cell
      refine hs.goes_on (fun w => w.goes_look _) (fun w hw => hw.look) i fun e he => ?_
      rw [Option.mem_toList, Option.map_eq_some_iff] at he
      obtain ⟨answer, hback, rfl⟩ := he
      rw [back?_eq hback, cell_shown]
      exact ⟨hlt, agrees_shown path _ _ _⟩
  | expire i => exact hs.goes_on (fun w => w.goes_expire _) (fun w hw => hw.expire) i hnothing
  | tick time =>
    refine .quiet rfl (List.prefix_refl _) hs.handles (fun w hw => ?_) (.refl _) hnothing
    exact (hs.waiters w hw).later (Nat.le_refl _) rfl (Nat.le_add_right _ _)

theorem Sound.give (hs : s.Sound) {cell : Cell} {resolver : Bool}
    (hcell : cell = .pending ∧ resolver = true ∨ ∃ o, cell = .ready o) :
    (s.give (s.completions.add cell) resolver).2.Sound where
  cells c hc := by
    rcases List.mem_append.1 hc with hc | hc
    · exact hs.cells c hc
    · rw [List.mem_singleton.1 hc]
      exact hcell.imp_left And.left
  handles h hh := by
    change h.cell < (s.completions.add cell).2.cells.length
    rw [Completions.length_add]
    rcases List.mem_append.1 hh with hh | hh
    · exact Nat.lt_succ_of_lt (hs.handles h hh)
    · rw [List.mem_singleton.1 hh]
      exact Nat.lt_succ_self _
  waiters w hw := by
    have hfits := hs.waiters w hw
    refine hfits.later ?_ ?_ (Nat.le_refl _)
    · exact Nat.le_of_lt (Nat.lt_of_lt_of_eq (Nat.lt_succ_self _)
        (Completions.length_add s.completions cell).symm)
    · exact (Completions.outcome?_add _ _ _).trans (if_neg (Nat.ne_of_lt hfits.cell))
  resolver id hid := by
    change (s.completions.add cell).2.cells[id]? = some .pending at hid
    rw [Completions.cell_add] at hid
    split at hid
    · next heq =>
      rcases hcell with ⟨-, hresolver⟩ | ⟨o, rfl⟩
      · exact ⟨_, List.mem_append_right _ (List.mem_singleton_self _), heq.symm, hresolver⟩
      · simp [Cell.ready, Cell.pending] at hid
    · obtain ⟨h, hh, hsame⟩ := hs.resolver id hid
      exact ⟨h, List.mem_append_left _ hh, hsame⟩

theorem settle_pending {id : Nat} (hid : s.completions.Pending id) (o : Outcome) :
    s.settle id o = { s with
      completions := s.completions.resolve id o
      waiters := s.waiters.map fun w => if w.cell = id then w.notify else w } := by
  rw [settle, hid.outcome?]
  rfl

theorem Sound.settle (hs : s.Sound) {id : Nat} (hid : s.completions.Pending id) (o : Outcome) :
    (s.settle id o).Sound := by
  rw [settle_pending hid]
  exact {
    cells cell hcell := by
      obtain ⟨other, hother⟩ := List.getElem?_of_mem hcell
      rw [Completions.cell_resolve] at hother
      split at hother
      · next heq =>
        rw [← heq, show s.completions.cells[id]? = some .pending from hid] at hother
        exact Or.inr ⟨o, (Option.some.inj hother).symm⟩
      · exact hs.cells cell (List.mem_of_getElem? hother)
    handles h hh := by
      rw [Completions.length_resolve]
      exact hs.handles h hh
    waiters w hw := by
      obtain ⟨v, hv, rfl⟩ := List.mem_map.1 hw
      exact (hs.waiters v hv).settled id o
    resolver other hother := by
      rw [Completions.Pending, Completions.cell_resolve] at hother
      split at hother
      · next heq =>
        rw [← heq, show s.completions.cells[id]? = some .pending from hid] at hother
        simp [Cell.resolve, Cell.pending] at hother
      · exact hs.resolver other hother }

theorem Passes.sound (h : Passes s es s') (hs : s.Sound) : s'.Sound := by
  cases h with
  | quiet completions handles places threads goes events =>
    refine ⟨completions ▸ hs.cells, completions ▸ places, completions ▸ threads, fun id hid => ?_⟩
    obtain ⟨h, hh, hsame⟩ := hs.resolver id (completions ▸ hid)
    exact ⟨h, handles.subset hh, hsame⟩
  | pair => exact hs.give (Or.inl ⟨rfl, rfl⟩)
  | ready o => exact hs.give (Or.inr ⟨o, rfl⟩)
  | settled h cause pending late => exact hs.settle pending _

theorem Passes.goes (h : Passes s es s') : s.Goes s' := by
  cases h with
  | quiet completions handles places threads goes events => exact goes
  | pair => exact .refl _
  | ready o => exact .refl _
  | settled h cause pending late =>
    rw [settle_pending pending]
    refine goes_map (fun w => ?_) rfl
    split
    · exact w.goes_notify
    · exact .refl w

theorem Passes.handles (h : Passes s es s') : s.handles <+: s'.handles := by
  cases h with
  | quiet completions handles places threads goes events => exact handles
  | pair => exact List.prefix_append _ _
  | ready o => exact List.prefix_append _ _
  | settled h cause pending late =>
    exact ⟨[], by simp [settle_pending pending]⟩

theorem Passes.bounded (h : Passes s es s') :
    s.completions.cells.length ≤ s'.completions.cells.length ∧
      ∀ e ∈ es, e.cell < s'.completions.cells.length := by
  cases h with
  | quiet completions handles places threads goes events =>
    rw [completions]
    exact ⟨Nat.le_refl _, fun e he => (events e he).1⟩
  | pair =>
    rw [show s.pair.2.completions.cells.length = _ from Completions.length_add _ _]
    exact ⟨Nat.le_succ _, fun e he => by cases he⟩
  | ready o =>
    rw [show (s.ready o).2.completions.cells.length = _ from Completions.length_add _ _]
    refine ⟨Nat.le_succ _, fun e he => ?_⟩
    rw [List.mem_singleton.1 he]
    exact Nat.lt_succ_self _
  | settled h cause pending late =>
    rw [completions_settle, Completions.length_resolve]
    refine ⟨Nat.le_refl _, fun e he => ?_⟩
    rw [List.mem_singleton.1 he]
    exact pending.lt

section Apart

structure Spares (s s' : Session) (id : Nat) : Prop where
  cell : s'.completions.cells[id]? = s.completions.cells[id]?
  waiters : ∀ (i : Nat) w, s.waiters[i]? = some w → w.cell = id → s'.waiters[i]? = some w

variable {id : Nat}

theorem Spares.refl (s : Session) (id : Nat) : Spares s s id :=
  ⟨rfl, fun _ _ hw _ => hw⟩

theorem Spares.outcome? (h : Spares s s' id) :
    s'.completions.outcome? id = s.completions.outcome? id := by
  rw [Completions.outcome?, Completions.outcome?, h.cell]

end Apart

end Session

end Completion

end LedgerStore
