import LedgerStore.Engine.Memory
import LedgerStore.Proofs.Storage.Followed

set_option autoImplicit false

namespace LedgerStore.Storage

variable {σ : Type}

/-- Each accepted write is in one place, and the counters count what the journal thread settles. -/
structure Conserved (s : Storage σ) (t : JournalThread) (r : Trail) : Prop where
  distinct : (Event.accepted r.events).Nodup
  /-- An accepted write is with its caller, in the queue, in the batch, settled by the journal
  thread or lost with it: in one of these places, and there once. -/
  places : (Event.accepted r.events).Perm (s.sending.map (·.1) ++
    t.queue.filterMap JournalMessage.id? ++ t.batch ++ r.settled.map (·.1) ++ r.lost)
  /-- Its completion is known once it is settled or lost, and tells which of them. -/
  known : ∀ id ∈ Event.accepted r.events, ∀ o, s.completions.outcome? id = some o ↔
    (id, o) ∈ r.settled ∨ id ∈ r.lost ∧ o = .error .shuttingDown
  /-- The journal thread settles with the outcome of a sync that had the write in its batch, or with
  the shutdown. -/
  reasons : ∀ x ∈ r.settled,
    (∃ c ∈ Event.calls r.events, x.1 ∈ c.batch ∧ x.2 = c.outcome) ∨ x.2 = .error .shuttingDown
  died : r.lost ≠ [] → .ended .died ∈ r.events
  order : r.queued = r.settled.map (·.1) ++ t.batch ++ t.queue.filterMap JournalMessage.id? ++
    r.stranded
  batches : (Event.batches r.events).flatten <+: r.queued
  syncs : s.stats.syncs = r.events.countP Event.returned
  synced : s.stats.synced = (r.settled ++ t.due).countP (·.2.isOk)
  failed : s.stats.failed = (r.settled ++ t.due).countP (!·.2.isOk)

structure Closed (s : Storage σ) (r : Trail) : Prop where
  ended : ∃ t panicked, s.thread = some t ∧ t.phase = .ended panicked
  settled : ∀ id ∈ Event.accepted r.events,
    (∃ c ∈ Event.calls r.events, id ∈ c.batch ∧ s.completions.outcome? id = some c.outcome) ∨
      (∀ c ∈ Event.calls r.events, id ∉ c.batch) ∧
        s.completions.outcome? id = some (.error .shuttingDown)
  total : s.stats.synced + s.stats.failed + r.lost.length = (Event.accepted r.events).length
  /-- Every accepted write is counted once, unless the journal thread died in a sync. -/
  exact : .ended .died ∉ r.events →
    s.stats.synced + s.stats.failed = (Event.accepted r.events).length

variable {first : Completions} {closing : Bool} {r : Trail} {s : Storage σ} {t : JournalThread}

theorem Followed.places (h : Followed closing s t r) :
    (Event.accepted r.events).Perm (s.sending.map (·.1) ++
      t.queue.filterMap JournalMessage.id? ++ t.batch ++ r.settled.map (·.1) ++ r.lost) := by
  have haccepted := List.perm_iff_count.1 h.accepted
  rw [List.perm_iff_count]
  intro id
  rw [haccepted id, h.queued]
  simp only [JournalThread.held, Trail.lost, List.count_append]
  omega

theorem Followed.place (h : Followed closing s t r) {id : Nat}
    (hid : id ∈ Event.accepted r.events) :
    id ∈ s.waiting t ∨ (∃ o, (id, o) ∈ r.settled) ∨ id ∈ r.lost := by
  have hmem := h.places.mem_iff.1 hid
  simp only [List.mem_append, or_assoc] at hmem
  rcases hmem with hsending | hqueue | hbatch | hsettled | hlost
  · exact Or.inl (List.mem_append_left _ hsending)
  · exact Or.inl (List.mem_append_right _ (List.mem_append_left _ hqueue))
  · exact Or.inl (List.mem_append_right _ (List.mem_append_right _ hbatch))
  · obtain ⟨⟨other, o⟩, ho, rfl⟩ := List.mem_map.1 hsettled
    exact Or.inr (Or.inl ⟨o, ho⟩)
  · exact Or.inr (Or.inr hlost)

theorem Followed.reason (hk : Kept first r.events s t) (h : Followed closing s t r)
    {x : Nat × Outcome} (hx : x ∈ r.settled) :
    (∃ c ∈ Event.calls r.events, x.1 ∈ c.batch ∧ x.2 = c.outcome) ∨ x.2 = .error .shuttingDown := by
  have hmem : x.1 ∈ Event.accepted r.events :=
    h.places.mem_iff.2 (List.mem_append_left _ (List.mem_append_right _ (List.mem_map_of_mem hx)))
  cases x with
  | mk id o =>
    have he : Explained r.events id o := (h.settled _ hx).2
    cases he with
    | settled c back batch before => exact Or.inl ⟨c, back, batch, rfl⟩
    | refused key cause seen => exact absurd (Event.mem_accepted.1 hmem) (hk.refused _ _ _ seen).1
    | lost why => exact Or.inr rfl

theorem Followed.conserved (hk : Kept first r.events s t) (h : Followed closing s t r) :
    Conserved s t r where
  distinct := h.nodup
  places := h.places
  known id hid o := by
    constructor
    · intro ho
      rcases h.place hid with hwaits | ⟨other, hsettled⟩ | hlost
      · rw [(hk.pending id hwaits).1.outcome?] at ho
        cases ho
      · rw [(h.settled _ hsettled).1] at ho
        cases ho
        exact Or.inl hsettled
      · rw [h.lost id hlost] at ho
        cases ho
        exact Or.inr ⟨hlost, rfl⟩
    · rintro (hsettled | ⟨hlost, rfl⟩)
      · exact (h.settled _ hsettled).1
      · exact h.lost id hlost
  reasons _ hx := h.reason hk hx
  died := h.died
  order := by
    rw [h.queued, JournalThread.held, ← List.append_assoc]
  batches := h.batches
  syncs := h.syncs
  synced := h.synced
  failed := h.failed

theorem Followed.closed (hk : Kept first r.events s t) (h : Followed true s t r) {panicked : Bool}
    (phase : t.phase = .ended panicked) : Closed s r := by
  have hstage := h.stage
  rw [phase] at hstage
  obtain ⟨hbatch, hqueue, -⟩ := hstage
  have hwaiting : s.waiting t = [] := by
    rw [waiting, JournalThread.ids, h.done rfl, hbatch, hqueue]
    rfl
  have hdue : t.due = [] := by rw [JournalThread.due, phase]
  have hcount : s.stats.synced + s.stats.failed = r.settled.length := by
    rw [h.synced, h.failed, hdue, List.append_nil, List.length_eq_countP_add_countP (·.2.isOk)]
    simp
  have hlength := h.places.length_eq
  rw [h.done rfl, hbatch, hqueue] at hlength
  have htotal : s.stats.synced + s.stats.failed + r.lost.length =
      (Event.accepted r.events).length := by
    rw [hlength, hcount]
    simp
  refine ⟨⟨t, panicked, h.thread, phase⟩, fun id hid => ?_, htotal, fun hdied => ?_⟩
  · -- Nothing is in a batch any more, so each batch has the outcome of its sync.
    by_cases hcovered : ∃ c ∈ Event.calls r.events, id ∈ c.batch
    · obtain ⟨c, hc, hin⟩ := hcovered
      rcases (hk.calls c hc).2.2 id hin with hknown | ⟨hmem, -⟩
      · exact Or.inl ⟨c, hc, hin, hknown⟩
      · rw [hbatch] at hmem
        cases hmem
    · refine Or.inr ⟨fun c hc hin => hcovered ⟨c, hc, hin⟩, ?_⟩
      rcases h.place hid with hwaits | ⟨o, hsettled⟩ | hlost
      · rw [hwaiting] at hwaits
        cases hwaits
      · rcases h.reason hk hsettled with ⟨c, hc, hin, -⟩ | ho
        · exact absurd ⟨c, hc, hin⟩ hcovered
        · exact ho ▸ (h.settled _ hsettled).1
      · exact h.lost id hlost
  · have hlost : r.lost = [] := by
      by_contra hne
      exact hdied (h.died hne)
    rw [hlost] at htotal
    exact htotal

def closeDeeds (s : Storage σ) : List Deed :=
  .shutdown :: .permits (fun _ => .unlimited) ::
    List.replicate (s.requestShutdown.withPermits fun _ => .unlimited).moves .advance

variable [Engine σ]

theorem foldl_record (deeds : List Deed) (w : Storage σ × Trail) :
    (deeds.foldl record w).1 = deeds.foldl act w.1 := by
  induction deeds generalizing w with
  | nil => rfl
  | cons deed deeds ih => exact ih (record w deed)

theorem foldl_closing (s : Storage σ) :
    s.closeDeeds.foldl act s = (s.requestShutdown.withPermits fun _ => .unlimited).settle :=
  foldl_advance _ _

/-- A close only adds a line to the log when the journal thread has panicked. -/
theorem close_state (s : Storage σ) : s.close.thread = (s.closeDeeds.foldl act s).thread ∧
    s.close.completions = (s.closeDeeds.foldl act s).completions ∧
      s.close.stats = (s.closeDeeds.foldl act s).stats := by
  rw [foldl_closing, close]
  split <;> exact ⟨rfl, rfl, rfl⟩

theorem reached_moves {start : Storage σ} {w : Storage σ × Trail} (h : Reached start false w)
    (deeds : List Deed) (serving : ∀ deed ∈ deeds, deed ≠ .shutdown) :
    Reached start false (deeds.foldl record w) := by
  induction deeds generalizing w with
  | nil => exact h
  | cons deed deeds ih =>
    exact ih (h.move (serving _ List.mem_cons_self)) fun other hother =>
      serving other (List.mem_cons_of_mem _ hother)

theorem reached_closing {start : Storage σ} {w : Storage σ × Trail} (h : Reached start false w)
    (done : w.1.sending = []) : Reached start true (w.1.closeDeeds.foldl record w) := by
  have hadvance : ∀ (n : Nat) {w : Storage σ × Trail}, Reached start true w →
      Reached start true ((List.replicate n Deed.advance).foldl record w) := by
    intro n
    induction n with
    | zero => exact fun h => h
    | succ n ih => exact fun h => ih h.advance
  exact hadvance _ ((h.shutdown done).permits _)

/-- The journal thread of a close ends, as it gets all permits and the message waits for it. -/
theorem ended_close {t' : JournalThread} (ht : s.thread = some t)
    (h : Followed true (s.closeDeeds.foldl act s) t' r) :
    ∃ panicked, t'.phase = .ended panicked := by
  have hstart : ∃ t₁, (s.requestShutdown.withPermits fun _ => .unlimited).thread = some t₁ ∧
      t₁.permits = .unlimited := by
    simp only [requestShutdown, ht]
    cases hp : t.phase <;> simp [withPermits, ht]
  obtain ⟨t₁, ht₁, hu₁⟩ := hstart
  obtain ⟨t₂, ht₂, hu₂⟩ := unlimited_run _ ht₁ hu₁
  have hthread := h.thread
  rw [foldl_closing] at hthread
  have heq : t₂ = t' := Option.some.inj (ht₂.symm.trans hthread)
  rcases ended_or_idle hthread (heq ▸ hu₂) (advance_settle _) with hended | ⟨hparked, hempty⟩
  · exact hended
  · -- It cannot wait for a message, since the one to stop is still in its queue.
    have hstage := h.stage
    rw [hparked] at hstage
    have hmem := hstage.2.1 rfl
    rw [hempty] at hmem
    cases hmem

theorem closed_close {engine : σ} {host : Host} {permits : PermitSource} {w : Storage σ × Trail}
    (h : Reached (start engine host true permits first) false w) (done : w.1.sending = []) :
    Closed w.1.close (w.1.closeDeeds.foldl record w).2 := by
  obtain ⟨t, hk, -⟩ := followed_reached engine host permits first h
  obtain ⟨t', hk', hf'⟩ := followed_reached engine host permits first (reached_closing h done)
  rw [foldl_record] at hk' hf'
  obtain ⟨panicked, hended⟩ := ended_close hk.thread hf'
  obtain ⟨⟨t'', p, ht'', hp⟩, hsettled, htotal, hexact⟩ := hf'.closed hk' hended
  obtain ⟨hthread, hcompletions, hstats⟩ := w.1.close_state
  exact ⟨⟨t'', p, hthread ▸ ht'', hp⟩, hcompletions ▸ hsettled, hstats ▸ htotal, hstats ▸ hexact⟩

/-- No completion is lost, settled twice or miscounted. Whatever the engine answers, and in whatever
order callers, journal thread and shutdown move, each accepted write is in one place or settled
once. No later move takes an outcome or a count back, and once the journal thread has ended after a
shutdown, as it has when a close returns, every accepted write has its outcome and is counted. -/
theorem conserved_reached (engine : σ) (host : Host) (permits : PermitSource)
    (first : Completions) {closing : Bool} {w : Storage σ × Trail}
    (h : Reached (start engine host true permits first) closing w) :
    ∃ t, w.1.thread = some t ∧ Conserved w.1 t w.2 ∧
      (∀ deeds : List Deed, Lasting w.1 (deeds.foldl act w.1)) ∧
      (closing = true → ∀ panicked, t.phase = .ended panicked → Closed w.1 w.2) ∧
      (closing = false → w.1.sending = [] →
        Closed w.1.close (w.1.closeDeeds.foldl record w).2) := by
  obtain ⟨t, hk, hf⟩ := followed_reached engine host permits first h
  refine ⟨t, hk.thread, hf.conserved hk, w.1.lasting_run, ?_, ?_⟩
  · rintro rfl panicked phase
    exact hf.closed hk phase
  · rintro rfl done
    exact closed_close h done

/-- One write is synced, and another waits in the queue when the store is closed. -/
theorem conserved_reached_two :
    let first := start ({} : MemoryEngine) {} true .unlimited {}
    let deeds : List Deed := [.apply ⟨1, 2⟩ [7], .send 0, .advance, .advance, .advance, .advance,
      .advance, .advance, .apply ⟨1, 3⟩ [8], .send 1]
    let w := deeds.foldl record (first, {})
    Reached first false w ∧ Closed w.1.close (w.1.closeDeeds.foldl record w).2 ∧
      w.1.close.stats = ⟨1, 1, 1⟩ := by
  intro first deeds w
  have hreached : Reached first false w := reached_moves .start deeds (by simp [deeds])
  obtain ⟨t, -, -, -, -, hclose⟩ := conserved_reached _ _ _ _ hreached
  refine ⟨hreached, hclose rfl ?_, ?_⟩
  all_goals
    dsimp only [w, deeds, first]
    decide +kernel

end LedgerStore.Storage
