import Mathlib.Data.List.Induction
import LedgerStore.Proofs.Completion
import LedgerStore.Proofs.Storage.Turn

/-!
What the events between the write path and its engine say about the completions: which sync settled
which of them, and why the others have their outcomes. The main statement is that every move keeps
it true.
-/

set_option autoImplicit false

namespace LedgerStore.Storage

variable {σ : Type}

def Lost (events : List Event) : Prop :=
  .stopped ∈ events ∨ ∃ c ∈ Event.calls events, c.ending = .died

inductive Explained (events : List Event) (id : Nat) : Outcome → Prop
  | settled (c : SyncCall) (back : c ∈ Event.calls events) (batch : id ∈ c.batch)
      (before : .applied id ∈ c.before) : Explained events id c.outcome
  | refused (key : Key) (cause : StorageError) (seen : .refused id key cause ∈ events) :
      Explained events id (.error (.applyFailed key cause.message))
  | lost (why : Lost events) : Explained events id (.error .shuttingDown)

/-- The phase of the journal thread is what the events say. -/
def InPhase (events : List Event) (t : JournalThread) : JournalPhase → Prop
  | .acquiring => .stopped ∉ events
  | .draining => .stopped ∉ events
  | .parked => .stopped ∉ events
  | .syncing => .stopped ∉ events ∧ t.batch ≠ [] ∧ ∃ before,
      Event.current? events = some (before, t.batch) ∧ ∀ id ∈ t.batch, .applied id ∈ before
  | .settling outcome false => .stopped ∉ events ∧ ∃ c ∈ Event.calls events, c.outcome = outcome ∧
      ∀ id ∈ t.batch, id ∈ c.batch ∧ .applied id ∈ c.before
  | .settling outcome true => outcome = .error .shuttingDown ∧ Lost events
  | .abandoning => Lost events
  | .ended _ => Lost events

/-- What the events so far say about a write path that began with some completions. -/
structure Kept (first : Completions) (events : List Event) (s : Storage σ) (t : JournalThread) :
    Prop where
  thread : s.thread = some t
  nodup : (s.waiting t).Nodup
  pending : ∀ id ∈ s.waiting t, s.completions.Pending id ∧ .applied id ∈ events
  explained : ∀ id outcome, s.completions.outcome? id = some outcome →
    first.outcome? id = some outcome ∨ Explained events id outcome
  early : ∀ id outcome, first.outcome? id = some outcome →
    s.completions.outcome? id = some outcome
  calls : ∀ c ∈ Event.calls events, c.batch ≠ [] ∧ c.batch.Nodup ∧
    ∀ id ∈ c.batch, s.completions.outcome? id = some c.outcome ∨
      id ∈ t.batch ∧ t.phase = .settling c.outcome false
  refused : ∀ id key cause, .refused id key cause ∈ events → .applied id ∉ events ∧
    s.completions.outcome? id = some (.error (.applyFailed key cause.message))
  fresh : ∀ id, .applied id ∈ events → id < s.completions.cells.length
  began : ∀ batch, .began batch ∈ events → batch ≠ [] ∧ ∀ id ∈ batch, .applied id ∈ events
  answered : Event.Answered events
  order : events.Pairwise fun new old => old = .stopped → ∀ batch, new ≠ .began batch
  phase : InPhase events t t.phase

variable {first : Completions} {events : List Event} {s s' : Storage σ} {t t' : JournalThread}
  {x : Event}

theorem Lost.cons (h : Lost events) (x : Event) : Lost (x :: events) := by
  rcases h with h | ⟨c, hc, hdied⟩
  · exact Or.inl (List.mem_cons_of_mem _ h)
  · exact Or.inr ⟨c, Event.calls_cons hc x, hdied⟩

theorem Explained.cons {id : Nat} {outcome : Outcome} (h : Explained events id outcome)
    (x : Event) : Explained (x :: events) id outcome := by
  cases h with
  | settled c back batch before => exact .settled c (Event.calls_cons back x) batch before
  | refused key cause seen => exact .refused key cause (List.mem_cons_of_mem _ seen)
  | lost why => exact .lost (why.cons x)

theorem Explained.good {id : Nat} (h : Explained events id (.ok ())) : ∃ c ∈ Event.calls events,
    id ∈ c.batch ∧ .applied id ∈ c.before ∧ c.ending = .synced := by
  generalize ho : (.ok () : Outcome) = o at h
  cases h with
  | settled c back batch before =>
    refine ⟨c, back, batch, before, ?_⟩
    rw [SyncCall.outcome] at ho
    revert ho
    cases c.ending with
    | synced => exact fun _ => rfl
    | failed cause => exact nofun
    | died => exact nofun
  | refused key cause seen => cases ho
  | lost why => cases ho

theorem Explained.failed {id size : Nat} {reason : String}
    (h : Explained events id (.error (.syncFailed size reason))) : ∃ c ∈ Event.calls events,
      id ∈ c.batch ∧ .applied id ∈ c.before ∧
        ∃ cause, c.ending = .failed cause ∧ size = c.batch.length ∧ reason = cause.message := by
  generalize ho : (.error (.syncFailed size reason) : Outcome) = o at h
  cases h with
  | settled c back batch before =>
    refine ⟨c, back, batch, before, ?_⟩
    rw [SyncCall.outcome] at ho
    revert ho
    cases c.ending with
    | synced => exact nofun
    | failed cause =>
      rintro ⟨⟩
      exact ⟨cause, rfl, rfl, rfl⟩
    | died => exact nofun
  | refused key cause seen => cases ho
  | lost why => cases ho

theorem InPhase.cons {phase : JournalPhase} (h : InPhase events t phase)
    (hx : x ≠ .stopped) (hcurrent : Event.current? (x :: events) = Event.current? events) :
    InPhase (x :: events) t phase := by
  have hno : .stopped ∉ events → .stopped ∉ x :: events := by
    intro hno hmem
    rcases List.mem_cons.1 hmem with heq | hmem
    · exact hx heq.symm
    · exact hno hmem
  cases phase with
  | acquiring => exact hno h
  | draining => exact hno h
  | parked => exact hno h
  | syncing => exact ⟨hno h.1, h.2.1, hcurrent ▸ h.2.2⟩
  | settling outcome last =>
    cases last with
    | false =>
      obtain ⟨hstopped, c, hc, hrest⟩ := h
      exact ⟨hno hstopped, c, Event.calls_cons hc x, hrest⟩
    | true => exact ⟨h.1, h.2.cons x⟩
  | abandoning => exact Lost.cons h x
  | ended panicked => exact Lost.cons h x

theorem waiting_perm (sending : s'.sending = s.sending) (ids : t'.ids.Perm t.ids) :
    (s'.waiting t').Perm (s.waiting t) := by
  rw [waiting, waiting, sending]
  exact ids.append_left _

namespace Kept

/-- The journal thread or a caller moves what waits from one place to another. -/
theorem rearrange (h : Kept first events s t) (thread : s'.thread = some t')
    (completions : s'.completions = s.completions) (perm : (s'.waiting t').Perm (s.waiting t))
    (phase : InPhase events t' t'.phase)
    (calls : ∀ id outcome, id ∈ t.batch → t.phase = .settling outcome false →
      id ∈ t'.batch ∧ t'.phase = .settling outcome false) :
    Kept first events s' t' where
  thread := thread
  nodup := perm.nodup_iff.2 h.nodup
  pending id hid := by
    rw [completions]
    exact h.pending id (perm.mem_iff.1 hid)
  explained := by
    rw [completions]
    exact h.explained
  early := by
    rw [completions]
    exact h.early
  calls c hc := by
    obtain ⟨hne, hnodup, hall⟩ := h.calls c hc
    refine ⟨hne, hnodup, fun id hid => ?_⟩
    rw [completions]
    exact (hall id hid).imp_right fun ⟨hbatch, hphase⟩ => calls id _ hbatch hphase
  refused := by
    rw [completions]
    exact h.refused
  fresh := by
    rw [completions]
    exact h.fresh
  began := h.began
  answered := h.answered
  order := h.order
  phase := phase

theorem shift (h : Kept first events s t) (hset : ∀ outcome, t.phase ≠ .settling outcome false)
    (thread : s'.thread = some t') (completions : s'.completions = s.completions)
    (sending : s'.sending = s.sending) (ids : t'.ids.Perm t.ids)
    (phase : InPhase events t' t'.phase) : Kept first events s' t' :=
  h.rearrange thread completions (waiting_perm sending ids) phase
    fun _ _ _ heq => absurd heq (hset _)

theorem congr (h : Kept first events s t) (thread : s'.thread = s.thread)
    (completions : s'.completions = s.completions) (sending : s'.sending = s.sending) :
    Kept first events s' t :=
  h.rearrange (thread.trans h.thread) completions (waiting_perm sending (.refl _)) h.phase
    fun _ _ hbatch hphase => ⟨hbatch, hphase⟩

theorem signal (h : Kept first events s t) (thread : s'.thread = some t')
    (completions : s'.completions = s.completions) (sending : s'.sending = s.sending)
    (ids : t'.ids = t.ids) (phase : InPhase (x :: events) t' t'.phase)
    (hx : x = .stopped ∨ x = .began t.batch ∧ t.batch ≠ [] ∧ .stopped ∉ events)
    (hphase : ∀ outcome, t.phase ≠ .settling outcome false) :
    Kept first (x :: events) s' t' := by
  have perm := waiting_perm sending (.of_eq ids)
  have hcalls : Event.calls (x :: events) = Event.calls events := by
    rcases hx with rfl | ⟨rfl, -⟩ <;> rfl
  have happlied : ∀ id, .applied id ∈ x :: events ↔ .applied id ∈ events := by
    intro id
    rcases hx with rfl | ⟨rfl, -⟩ <;> simp
  have hrefused : ∀ id key cause, .refused id key cause ∈ x :: events ↔
      .refused id key cause ∈ events := by
    intro id key cause
    rcases hx with rfl | ⟨rfl, -⟩ <;> simp
  exact {
    thread := thread
    nodup := perm.nodup_iff.2 h.nodup
    pending id hid := by
      rw [completions, happlied]
      exact h.pending id (perm.mem_iff.1 hid)
    explained id outcome ho := by
      rw [completions] at ho
      exact (h.explained id outcome ho).imp_right fun he => he.cons x
    early := completions ▸ h.early
    calls c hc := by
      rw [hcalls] at hc
      obtain ⟨hne, hnodup, hall⟩ := h.calls c hc
      refine ⟨hne, hnodup, fun id hid => ?_⟩
      rw [completions]
      exact (hall id hid).imp_right fun ⟨_, hp⟩ => absurd hp (hphase _)
    refused id key cause hid := by
      rw [completions, happlied]
      exact h.refused id key cause ((hrefused id key cause).1 hid)
    fresh id hid := by
      rw [completions]
      exact h.fresh id ((happlied id).1 hid)
    began batch hbatch := by
      simp only [happlied]
      rcases List.mem_cons.1 hbatch with rfl | hbatch
      · rcases hx with hx | ⟨hx, hne, -⟩
        · cases hx
        · cases hx
          refine ⟨hne, fun id hid => (h.pending id ?_).2⟩
          exact List.mem_append_right _ (List.mem_append_right _ hid)
      · exact h.began batch hbatch
    answered := h.answered.cons (by rcases hx with rfl | ⟨rfl, -⟩ <;> simp)
    order := by
      refine List.pairwise_cons.2 ⟨fun old hold heq batch hbatch => ?_, h.order⟩
      rcases hx with rfl | ⟨-, -, hno⟩
      · cases hbatch
      · exact hno (heq ▸ hold)
    phase := phase }

theorem back (h : Kept first events s t) (hphase : t.phase = .syncing) (ending : SyncEnd)
    (thread : s'.thread = some { t with phase := .settling (ending.outcome t.batch.length) false })
    (completions : s'.completions = s.completions) (sending : s'.sending = s.sending) :
    Kept first (.ended ending :: events) s'
      { t with phase := .settling (ending.outcome t.batch.length) false } := by
  have hcurrent := h.phase
  rw [hphase] at hcurrent
  obtain ⟨hno, hne, before, hcurrent, happlied⟩ := hcurrent
  have hcalls : Event.calls (.ended ending :: events) =
      ⟨before, t.batch, ending⟩ :: Event.calls events := by
    rw [Event.calls, hcurrent]
  have hwaiting : s'.waiting { t with phase := .settling (ending.outcome t.batch.length) false } =
      s.waiting t := by
    rw [waiting, waiting, sending]
    rfl
  have hbatch : t.batch.Nodup :=
    (List.nodup_append.1 (List.nodup_append.1 h.nodup).2.1).2.1
  exact {
    thread := thread
    nodup := hwaiting ▸ h.nodup
    pending id hid := by
      rw [hwaiting] at hid
      rw [completions]
      exact (h.pending id hid).imp_right (List.mem_cons_of_mem _)
    explained id outcome ho := by
      rw [completions] at ho
      exact (h.explained id outcome ho).imp_right fun he => he.cons _
    early := completions ▸ h.early
    calls c hc := by
      rw [completions]
      rw [hcalls] at hc
      rcases List.mem_cons.1 hc with rfl | hc
      · exact ⟨hne, hbatch, fun id hid => Or.inr ⟨hid, rfl⟩⟩
      · obtain ⟨hne, hnodup, hall⟩ := h.calls c hc
        refine ⟨hne, hnodup, fun id hid => Or.inl ?_⟩
        rcases hall id hid with hknown | ⟨-, hp⟩
        · exact hknown
        · rw [hphase] at hp
          cases hp
    refused id key cause hid := by
      rw [completions]
      obtain ⟨hnot, hknown⟩ := h.refused id key cause (by simpa using hid)
      exact ⟨by simpa using hnot, hknown⟩
    fresh id hid := by
      rw [completions]
      exact h.fresh id (by simpa using hid)
    began batch hid := by
      obtain ⟨hne, hall⟩ := h.began batch (by simpa using hid)
      exact ⟨hne, fun id hid => List.mem_cons_of_mem _ (hall id hid)⟩
    answered := h.answered.ended hno hcurrent hne
    order := List.pairwise_cons.2 ⟨by simp, h.order⟩
    phase := by
      refine ⟨by simpa using hno, ⟨before, t.batch, ending⟩, ?_, rfl, fun id hid => ?_⟩
      · rw [hcalls]
        exact List.mem_cons_self
      · exact ⟨hid, happlied id hid⟩ }

theorem resolve (h : Kept first events s t) {id : Nat} {outcome : Outcome}
    (thread : s'.thread = some t') (completions : s'.completions = s.completions.resolve id outcome)
    (perm : (s.waiting t).Perm (id :: s'.waiting t')) (explained : Explained events id outcome)
    (phase : InPhase events t' t'.phase)
    (calls : ∀ other o, other ∈ t.batch → t.phase = .settling o false →
      other = id ∧ o = outcome ∨ other ∈ t'.batch ∧ t'.phase = .settling o false) :
    Kept first events s' t' := by
  obtain ⟨hid, hnodup⟩ := List.nodup_cons.1 (perm.nodup_iff.1 h.nodup)
  have hpending := (h.pending id (perm.mem_iff.2 List.mem_cons_self)).1
  have hknown := fun other => Completions.outcome?_resolve hpending outcome other
  exact {
    thread := thread
    nodup := hnodup
    pending other hother := by
      have hne : id ≠ other := fun heq => hid (heq ▸ hother)
      obtain ⟨hp, happlied⟩ := h.pending other (perm.mem_iff.2 (List.mem_cons_of_mem _ hother))
      exact ⟨completions ▸ hp.resolve hne outcome, happlied⟩
    explained other o ho := by
      rw [completions, hknown] at ho
      split at ho
      · next heq =>
        cases ho
        exact Or.inr (heq ▸ explained)
      · exact h.explained other o ho
    early other o ho :=
      completions ▸ Completions.outcome?_resolve_of_known (h.early other o ho) _ _
    calls c hc := by
      obtain ⟨hne, hbatch, hall⟩ := h.calls c hc
      refine ⟨hne, hbatch, fun other hother => ?_⟩
      rw [completions]
      rcases hall other hother with hold | ⟨hmem, hp⟩
      · exact Or.inl (Completions.outcome?_resolve_of_known hold _ _)
      · rcases calls other c.outcome hmem hp with ⟨heq, ho⟩ | hstill
        · left
          rw [hknown, if_pos heq.symm, ho]
        · exact Or.inr hstill
    refused other key cause hother := by
      obtain ⟨hnot, hold⟩ := h.refused other key cause hother
      exact ⟨hnot, completions ▸ Completions.outcome?_resolve_of_known hold _ _⟩
    fresh other hother := by
      rw [completions, Completions.length_resolve]
      exact h.fresh other hother
    began := h.began
    answered := h.answered
    order := h.order
    phase := phase }

theorem lose (h : Kept first events s t) (why : Lost events)
    (hphase : ∀ outcome, t.phase = .settling outcome false → outcome = .error .shuttingDown)
    {panicked : Bool}
    (thread : s'.thread = some { t with queue := [], batch := [], phase := .ended panicked })
    (completions : s'.completions =
      s.completions.dropAll (t.batch ++ t.queue.filterMap JournalMessage.id?))
    (sending : s'.sending = s.sending) :
    Kept first events s' { t with queue := [], batch := [], phase := .ended panicked } := by
  obtain ⟨hsending, hrest, hapart⟩ := List.nodup_append.1 h.nodup
  have hlost : (t.batch ++ t.queue.filterMap JournalMessage.id?).Nodup :=
    List.perm_append_comm.nodup_iff.1 hrest
  have hmem : ∀ id, id ∈ t.batch ++ t.queue.filterMap JournalMessage.id? ↔
      id ∈ t.queue.filterMap JournalMessage.id? ++ t.batch :=
    fun id => List.perm_append_comm.mem_iff
  have hknown := fun id => Completions.outcome?_dropAll hlost
    (fun id hid => (h.pending id (List.mem_append_right _ ((hmem id).1 hid))).1) id
  -- Only writes that their callers have yet to send go on waiting.
  have hwaiting : s'.waiting { t with queue := [], batch := [], phase := .ended panicked } =
      s.sending.map (·.1) := by
    simp [waiting, JournalThread.ids, sending]
  exact {
    thread := thread
    nodup := hwaiting ▸ hsending
    pending id hid := by
      rw [hwaiting] at hid
      obtain ⟨hp, happlied⟩ := h.pending id (List.mem_append_left _ hid)
      have hnot : id ∉ t.batch ++ t.queue.filterMap JournalMessage.id? :=
        fun hin => hapart id hid id ((hmem id).1 hin) rfl
      exact ⟨completions ▸ hp.dropAll hnot, happlied⟩
    explained id o ho := by
      rw [completions, hknown] at ho
      split at ho
      · cases ho
        exact Or.inr (.lost why)
      · exact h.explained id o ho
    early id o ho := completions ▸ Completions.outcome?_dropAll_of_known (h.early id o ho) _
    calls c hc := by
      obtain ⟨hne, hbatch, hall⟩ := h.calls c hc
      refine ⟨hne, hbatch, fun id hid => Or.inl ?_⟩
      rw [completions]
      rcases hall id hid with hold | ⟨hin, hp⟩
      · exact Completions.outcome?_dropAll_of_known hold _
      · rw [hknown, if_pos (List.mem_append_left _ hin), hphase _ hp]
    refused id key cause hid := by
      obtain ⟨hnot, hold⟩ := h.refused id key cause hid
      exact ⟨hnot, completions ▸ Completions.outcome?_dropAll_of_known hold _⟩
    fresh id hid := by
      rw [completions, Completions.length_dropAll]
      exact h.fresh id hid
    began := h.began
    answered := h.answered
    order := h.order
    phase := why }

theorem accept (h : Kept first events s t) (key : Key) (thread : s'.thread = some t)
    (completions : s'.completions = s.completions.pair.2)
    (sending : s'.sending = s.sending ++ [(s.completions.cells.length, key)]) :
    Kept first (.applied s.completions.cells.length :: events) s' t := by
  have hperm : (s'.waiting t).Perm (s.completions.cells.length :: s.waiting t) := by
    rw [waiting, waiting, sending, List.map_append, List.append_assoc]
    exact List.perm_middle
  have hnew : s.completions.cells.length ∉ s.waiting t :=
    fun hin => Nat.lt_irrefl _ (h.pending _ hin).1.lt
  have hold : ∀ {id : Nat} {o : Outcome}, s.completions.outcome? id = some o →
      s'.completions.outcome? id = some o :=
    fun ho => completions ▸ Completions.outcome?_add_of_known ho _
  exact {
    thread := thread
    nodup := hperm.nodup_iff.2 (List.nodup_cons.2 ⟨hnew, h.nodup⟩)
    pending id hid := by
      rw [completions]
      rcases List.mem_cons.1 (hperm.mem_iff.1 hid) with rfl | hid
      · refine ⟨?_, List.mem_cons_self⟩
        rw [Completions.Pending, Completions.pair, Completions.cell_add, if_pos rfl]
      · obtain ⟨hp, happlied⟩ := h.pending id hid
        exact ⟨hp.add _, List.mem_cons_of_mem _ happlied⟩
    explained id o ho := by
      rw [completions, Completions.pair, Completions.outcome?_add] at ho
      split at ho
      · cases ho
      · exact (h.explained id o ho).imp_right fun he => he.cons _
    early id o ho := hold (h.early id o ho)
    calls c hc := by
      obtain ⟨hne, hbatch, hall⟩ := h.calls c hc
      exact ⟨hne, hbatch, fun id hid => (hall id hid).imp_left hold⟩
    refused id key cause hid := by
      obtain ⟨hnot, hknown⟩ := h.refused id key cause (by simpa using hid)
      refine ⟨fun hin => ?_, hold hknown⟩
      rcases List.mem_cons.1 hin with heq | hin
      · cases heq
        exact Nat.lt_irrefl _ (Completions.lt_of_outcome? hknown)
      · exact hnot hin
    fresh id hid := by
      rw [completions, Completions.pair, Completions.length_add]
      rcases List.mem_cons.1 hid with heq | hid
      · cases heq
        omega
      · have := h.fresh id hid
        omega
    began batch hbatch := by
      obtain ⟨hne, hall⟩ := h.began batch (by simpa using hbatch)
      exact ⟨hne, fun id hid => List.mem_cons_of_mem _ (hall id hid)⟩
    answered := h.answered.cons (by simp)
    order := List.pairwise_cons.2 ⟨by simp, h.order⟩
    phase := h.phase.cons (by simp) rfl }

theorem refuse (h : Kept first events s t) (key : Key) (cause : StorageError)
    (thread : s'.thread = some t)
    (completions : s'.completions =
      (s.completions.ready (.error (.applyFailed key cause.message))).2)
    (sending : s'.sending = s.sending) :
    Kept first (.refused s.completions.cells.length key cause :: events) s' t := by
  have hwaiting : s'.waiting t = s.waiting t := by rw [waiting, waiting, sending]
  have hold : ∀ {id : Nat} {o : Outcome}, s.completions.outcome? id = some o →
      s'.completions.outcome? id = some o :=
    fun ho => completions ▸ Completions.outcome?_add_of_known ho _
  have hnew : s'.completions.outcome? s.completions.cells.length =
      some (.error (.applyFailed key cause.message)) := by
    rw [completions, Completions.ready, Completions.outcome?_add, if_pos rfl]
    rfl
  exact {
    thread := thread
    nodup := hwaiting ▸ h.nodup
    pending id hid := by
      obtain ⟨hp, happlied⟩ := h.pending id (hwaiting ▸ hid)
      exact ⟨completions ▸ hp.add _, List.mem_cons_of_mem _ happlied⟩
    explained id o ho := by
      rw [completions, Completions.ready, Completions.outcome?_add] at ho
      split at ho
      · next heq =>
        cases ho
        rw [heq]
        exact Or.inr (.refused key cause List.mem_cons_self)
      · exact (h.explained id o ho).imp_right fun he => he.cons _
    early id o ho := hold (h.early id o ho)
    calls c hc := by
      obtain ⟨hne, hbatch, hall⟩ := h.calls c hc
      exact ⟨hne, hbatch, fun id hid => (hall id hid).imp_left hold⟩
    refused id k why hid := by
      rcases List.mem_cons.1 hid with heq | hid
      · cases heq
        refine ⟨fun hin => ?_, hnew⟩
        exact Nat.lt_irrefl _ (h.fresh _ (by simpa using hin))
      · obtain ⟨hnot, hknown⟩ := h.refused id k why hid
        exact ⟨by simpa using hnot, hold hknown⟩
    fresh id hid := by
      rw [completions, Completions.ready, Completions.length_add]
      exact Nat.lt_succ_of_lt (h.fresh id (by simpa using hid))
    began batch hbatch := by
      obtain ⟨hne, hall⟩ := h.began batch (by simpa using hbatch)
      exact ⟨hne, fun id hid => List.mem_cons_of_mem _ (hall id hid)⟩
    answered := h.answered.cons (by simp)
    order := List.pairwise_cons.2 ⟨by simp, h.order⟩
    phase := h.phase.cons (by simp) rfl }

end Kept

theorem perm_sending {sending : List (Nat × Key)} {id : Nat} {key : Key}
    (h : sending.lookup id = some key) (hnodup : (sending.map (·.1)).Nodup) :
    (sending.map (·.1)).Perm (id :: (sending.filter fun w => w.1 != id).map (·.1)) := by
  have hmem : id ∈ sending.map (·.1) := by
    obtain ⟨front, rest, hsplit, -⟩ := List.lookup_eq_some_iff.1 h
    simp [hsplit]
  have hfilter : (sending.filter fun w => w.1 != id).map (·.1) =
      (sending.map (·.1)).erase id := by
    rw [hnodup.erase_eq_filter, List.filter_map]
    rfl
  rw [hfilter]
  exact List.perm_cons_erase hmem

theorem kept_send (h : Kept first events s t) (id : Nat) :
    ∃ t', Kept first events (s.send id) t' := by
  rw [send, h.thread]
  cases hlookup : s.sending.lookup id with
  | none => exact ⟨t, h⟩
  | some key =>
    have hperm := perm_sending hlookup (List.nodup_append.1 h.nodup).1
    have hphase := h.phase
    dsimp only
    split
    · next panicked hended =>
      rw [hended] at hphase
      refine ⟨t, h.resolve rfl rfl ?_ (.lost hphase) h.phase ?_⟩
      · exact hperm.append_right _
      · intro other o _ hp
        rw [hended] at hp
        cases hp
    · refine ⟨_, h.rearrange rfl rfl ?_ ?_ fun other o hbatch hp => ⟨hbatch, hp⟩⟩
      · refine List.Perm.trans ?_ (hperm.append_right _).symm
        exact ((t.ids_push id).append_left _).trans List.perm_middle
      · exact h.phase

/-- What the journal thread is about to settle has its reason. -/
theorem Kept.explains (h : Kept first events s t) {outcome : Outcome} {last : Bool} {id : Nat}
    (hp : t.phase = .settling outcome last) (hid : id ∈ t.batch) : Explained events id outcome := by
  have hphase := h.phase
  rw [hp] at hphase
  cases last with
  | false =>
    obtain ⟨-, c, hc, rfl, hall⟩ := hphase
    exact .settled c hc (hall id hid).1 (hall id hid).2
  | true =>
    obtain ⟨rfl, why⟩ := hphase
    exact .lost why

theorem kept_settle (h : Kept first events s t) {outcome : Outcome} {last : Bool}
    (hp : t.phase = .settling outcome last) {id : Nat} {batch : List Nat}
    (hb : t.batch = id :: batch) :
    ∃ t', Kept first events { s with
      thread := some { t with batch, phase := .settling outcome last }
      completions := s.completions.resolve id outcome } t' := by
  have hphase := h.phase
  rw [hp] at hphase
  have hsub : ∀ other ∈ batch, other ∈ t.batch := fun other hother =>
    hb ▸ List.mem_cons_of_mem _ hother
  have hexplained := h.explains hp (hb ▸ List.mem_cons_self)
  refine ⟨_, h.resolve rfl rfl ?_ hexplained ?_ ?_⟩
  · exact ((t.ids_settle hb).append_left _).trans List.perm_middle
  · cases last with
    | false =>
      obtain ⟨hno, c, hc, heq, hall⟩ := hphase
      exact ⟨hno, c, hc, heq, fun other hother => hall other (hsub other hother)⟩
    | true => exact hphase
  · intro other o hother heq
    rw [hp] at heq
    cases heq
    rw [hb] at hother
    rcases List.mem_cons.1 hother with rfl | hother
    · exact Or.inl ⟨rfl, rfl⟩
    · exact Or.inr ⟨hother, rfl⟩

theorem kept_start (engine : σ) (host : Host) (permits : PermitSource) (first : Completions) :
    Kept first [] (start engine host true permits first) { permits } where
  thread := rfl
  nodup := List.nodup_nil
  pending := nofun
  explained _ _ ho := Or.inl ho
  early _ _ ho := ho
  calls := nofun
  refused := nofun
  fresh := nofun
  began := nofun
  answered := .nil
  order := List.Pairwise.nil
  phase := nofun

variable [Engine σ]

theorem kept_apply (h : Kept first events s t) (key : Key) (value : Bytes) :
    Kept first ((s.event? (.apply key value)).toList ++ events) (s.act (.apply key value)) t := by
  rw [event?, act, apply, applyShown]
  cases hput : Engine.put key value (s.engine, s.host) with
  | error cause w => exact h.refuse key cause h.thread rfl rfl
  | ok u w =>
    simp only [h.thread]
    exact h.accept key rfl rfl rfl

theorem kept_commit (h : Kept first events s t) (hp : t.phase = .syncing) :
    ∃ t', Kept first (.ended (Engine.sync (s.engine, s.host)).1 :: events) (s.commit t).2 t' := by
  rw [commit]
  rcases hsync : Engine.sync (s.engine, s.host) with ⟨ending, engine, host⟩
  cases ending with
  | synced => exact ⟨_, h.back hp .synced rfl rfl rfl⟩
  | failed cause => exact ⟨_, h.back hp (.failed cause) rfl rfl rfl⟩
  | died =>
    -- The batch goes with the thread, as if it had been settled with the loss.
    have hback : Kept first (.ended .died :: events)
        { s with thread := some { t with phase := .settling (.error .shuttingDown) false } }
        { t with phase := .settling (.error .shuttingDown) false } := h.back hp .died rfl rfl rfl
    have hphase := h.phase
    rw [hp] at hphase
    obtain ⟨-, -, before, hcurrent, -⟩ := hphase
    have why : Lost (.ended .died :: events) := by
      refine Or.inr ⟨⟨before, t.batch, .died⟩, ?_, rfl⟩
      rw [Event.calls, hcurrent]
      exact List.mem_cons_self
    refine ⟨_, hback.lose why (fun o heq => ?_) rfl rfl rfl⟩
    cases heq
    rfl

omit [Engine σ] in
theorem Kept.gathering (h : Kept first events s t) (hp : t.phase = .draining ∨ t.phase = .parked) :
    .stopped ∉ events ∧ ∀ outcome, t.phase ≠ .settling outcome false := by
  have hphase := h.phase
  rcases hp with hp | hp
  all_goals
    rw [hp] at hphase ⊢
    exact ⟨hphase, nofun⟩

theorem Kept.turn (h : Kept first events s t) {x : Option Event} (turn : Turn s t x s') :
    ∃ t', Kept first (x.toList ++ events) s' t' := by
  have hphase := h.phase
  cases turn with
  | permit hp granted =>
    rw [hp] at hphase
    exact ⟨_, h.shift (by simp [hp]) rfl rfl rfl (.refl _) hphase⟩
  | take hp next =>
    obtain ⟨hno, hset⟩ := h.gathering hp
    exact ⟨_, h.shift hset rfl rfl rfl (t.ids_take next .draining) hno⟩
  | stop hp next =>
    obtain ⟨hno, hset⟩ := h.gathering hp
    exact ⟨_, h.signal rfl rfl rfl (t.ids_pass next .abandoning) (Or.inl List.mem_cons_self)
      (Or.inl rfl) hset⟩
  | park hp next idle =>
    obtain ⟨hno, hset⟩ := h.gathering (Or.inl hp)
    exact ⟨_, h.shift hset rfl rfl rfl (.refl _) hno⟩
  | gather hp next busy =>
    obtain ⟨hno, hset⟩ := h.gathering (Or.inl hp)
    refine ⟨_, h.signal rfl rfl rfl rfl ?_ (Or.inr ⟨rfl, busy, hno⟩) hset⟩
    refine ⟨by simpa using hno, busy, events, rfl, fun id hid => (h.pending id ?_).2⟩
    exact List.mem_append_right _ (List.mem_append_right _ hid)
  | sync hp => exact kept_commit h hp
  | settle hp next => exact kept_settle h hp next
  | again hp next =>
    rw [hp] at hphase
    refine ⟨_, h.rearrange rfl rfl (.refl _) hphase.1 fun id o hid _ => ?_⟩
    rw [next] at hid
    cases hid
  | leave hp next =>
    rw [hp] at hphase
    refine ⟨_, h.lose hphase.2 (fun o heq => ?_) rfl rfl rfl⟩
    rw [hp] at heq
    cases heq
  | collect hp next =>
    rw [hp] at hphase
    exact ⟨_, h.shift (by simp [hp]) rfl rfl rfl (t.ids_take next .abandoning) hphase⟩
  | skip hp next =>
    rw [hp] at hphase
    exact ⟨_, h.shift (by simp [hp]) rfl rfl rfl (.of_eq (t.ids_pass next .abandoning)) hphase⟩
  | giveUp hp next =>
    rw [hp] at hphase
    obtain ⟨hthread, hsending, hcompletions, -⟩ := s.abandon_state t
    exact ⟨_, h.shift (by simp [hp]) hthread hcompletions hsending (.refl _) ⟨rfl, hphase⟩⟩

theorem kept_advance (h : Kept first events s t) :
    ∃ t', Kept first ((s.event? .advance).toList ++ events) (s.act .advance) t' := by
  rcases act_advance h.thread with ⟨-, hsame, hnone⟩ | hturn
  · rw [hsame, hnone]
    exact ⟨t, h⟩
  · exact h.turn hturn

theorem kept_watch (h : Kept first events s t) (deed : Deed) :
    ∃ t', Kept first (watch (s, events) deed).2 (watch (s, events) deed).1 t' := by
  cases deed with
  | apply key value => exact ⟨t, kept_apply h key value⟩
  | send id => exact kept_send h id
  | advance => exact kept_advance h
  | permits change =>
    have hthread : (s.withPermits change).thread = some { t with permits := change t.permits } := by
      rw [withPermits, h.thread]
      rfl
    refine ⟨_, h.rearrange hthread rfl (.refl _) ?_ fun id o hid hp => ⟨hid, hp⟩⟩
    exact h.phase
  | shutdown =>
    rw [watch, act, requestShutdown, h.thread]
    dsimp only
    split
    · exact ⟨t, h⟩
    · refine ⟨_, h.rearrange rfl rfl (waiting_perm rfl (.of_eq t.ids_close)) ?_
        fun id o hid hp => ⟨hid, hp⟩⟩
      exact h.phase

theorem kept_run (engine : σ) (host : Host) (permits : PermitSource) (first : Completions)
    (deeds : List Deed) :
    ∃ t, Kept first (deeds.foldl watch (start engine host true permits first, [])).2
      (deeds.foldl watch (start engine host true permits first, [])).1 t := by
  induction deeds using List.reverseRecOn with
  | nil => exact ⟨_, kept_start engine host permits first⟩
  | append_singleton deeds deed ih =>
    obtain ⟨t, h⟩ := ih
    rw [List.foldl_append]
    exact kept_watch h deed

end LedgerStore.Storage
