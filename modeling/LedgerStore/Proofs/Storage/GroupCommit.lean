import LedgerStore.Engine.Memory
import LedgerStore.Proofs.Storage.Kept

set_option autoImplicit false

namespace LedgerStore.Storage

variable {σ : Type}

/-- A move is one call of the engine, which left it and its files so. -/
structure Calls (s' : Storage σ) (after : σ × Host) : Prop where
  engine : s'.engine = after.1
  disk : s'.host.disk = after.2.disk

/-- What the moves show is all that happens between the write path and its engine. -/
structure Telling [Engine σ] (s : Storage σ) : Prop where
  applied : ∀ key value after, Engine.put key value (s.engine, s.host) = .ok () after →
    Calls (s.act (.apply key value)) after ∧
      s.event? (.apply key value) = some (.applied (s.apply key value).1)
  refused : ∀ key value cause after,
    Engine.put key value (s.engine, s.host) = .error cause after →
    Calls (s.act (.apply key value)) after ∧
      s.event? (.apply key value) = some (.refused (s.apply key value).1 key cause)
  ended : ∀ deed ending, s.event? deed = some (.ended ending) →
    Calls (s.act deed) (Engine.sync (s.engine, s.host)).2 ∧
      ending = (Engine.sync (s.engine, s.host)).1
  quiet : ∀ deed, (∀ key value, deed ≠ .apply key value) →
    (∀ ending, s.event? deed ≠ some (.ended ending)) → Quiet s (s.act deed)
  stopped : ∀ t queue, s.thread = some t → t.phase = .draining ∨ t.phase = .parked →
    t.queue = .shutdown :: queue → s.event? .advance = some .stopped

structure Accounted [Engine σ] (s : Storage σ) (events : List Event) : Prop where
  /-- A completion is good only by a sync that began after the write was applied and came back
  good. -/
  good : ∀ id, s.completions.outcome? id = some (.ok ()) → ∃ c ∈ Event.calls events,
    id ∈ c.batch ∧ .applied id ∈ c.before ∧ c.ending = .synced
  /-- It tells of a failed sync only by one that began after the write was applied, and with the
  size of its batch. -/
  failed : ∀ id size reason,
    s.completions.outcome? id = some (.error (.syncFailed size reason)) →
    ∃ c ∈ Event.calls events, id ∈ c.batch ∧ .applied id ∈ c.before ∧
      ∃ cause, c.ending = .failed cause ∧ size = c.batch.length ∧ reason = cause.message
  /-- All completions of a batch, which are as many as its size, have the outcome of its sync, or
  are about to get it. -/
  uniform : ∀ c ∈ Event.calls events, c.batch.Nodup ∧ ∀ id ∈ c.batch,
    s.completions.outcome? id = some c.outcome ∨ s.completions.outcome? id = none ∧
      ∃ t, s.thread = some t ∧ id ∈ t.batch ∧ t.phase = .settling c.outcome false
  refused : ∀ id key cause, .refused id key cause ∈ events →
    s.completions.outcome? id = some (.error (.applyFailed key cause.message)) ∧
      (∀ t, s.thread = some t → id ∉ s.waiting t) ∧ ∀ batch, .began batch ∈ events → id ∉ batch
  nonempty : ∀ batch, .began batch ∈ events → batch ≠ []
  stopped : events.Pairwise fun new old => old = .stopped → ∀ batch, new ≠ .began batch
  answered : Event.Answered events
  /-- The same is true of the sync that the journal thread is about to make. -/
  syncing : ∀ t, s.thread = some t → t.phase = .syncing → t.batch ≠ [] ∧ .stopped ∉ events ∧
    ∃ before, Event.current? events = some (before, t.batch) ∧ ∀ id ∈ t.batch, .applied id ∈ before
  telling : Telling s

variable [Engine σ] {events : List Event}

theorem telling_of_thread {s : Storage σ} {t : JournalThread} (h : s.thread = some t) :
    Telling s where
  applied key value after hput := by
    simp only [act, event?, apply, applyShown, hput, h]
    exact ⟨⟨rfl, rfl⟩, trivial⟩
  refused key value cause after hput := by
    simp only [act, event?, apply, applyShown, hput]
    exact ⟨⟨rfl, rfl⟩, trivial⟩
  ended deed ending hevent := by
    cases deed with
    | apply key value =>
      rw [event?, applyShown] at hevent
      cases hput : Engine.put key value (s.engine, s.host) <;> simp [hput, h] at hevent
    | advance =>
      rcases act_advance h with ⟨-, -, hnone⟩ | hturn
      · cases hnone.symm.trans hevent
      · rw [hevent] at hturn
        generalize s.act .advance = s' at hturn ⊢
        cases hturn with
        | sync phase => exact ⟨⟨(s.commit_state t).1, (s.commit_state t).2⟩, rfl⟩
    | _ => cases hevent
  quiet deed hno hevent := by
    cases deed with
    | apply key value => exact absurd rfl (hno key value)
    | send id => exact s.quiet_send id
    | advance =>
      rcases act_advance h with ⟨-, hsame, -⟩ | hturn
      · rw [hsame]
        exact ⟨rfl, rfl⟩
      · exact hturn.quiet hevent
    | permits change => exact ⟨rfl, rfl⟩
    | shutdown => exact s.quiet_shutdown
  stopped t' queue ht' hphase hqueue := by
    rw [event?, advanceShown, ht']
    rcases hphase with hphase | hphase <;> simp only [hphase, hqueue] <;> rfl

theorem Kept.accounted {s : Storage σ} {t : JournalThread} (h : Kept {} events s t) :
    Accounted s events where
  good id ho := by
    rcases h.explained id _ ho with hfirst | he
    · cases hfirst
    · exact he.good
  failed id size reason ho := by
    rcases h.explained id _ ho with hfirst | he
    · cases hfirst
    · exact he.failed
  uniform c hc := by
    obtain ⟨-, hnodup, hall⟩ := h.calls c hc
    refine ⟨hnodup, fun id hid => (hall id hid).imp_right fun ⟨hbatch, hp⟩ => ?_⟩
    have hwaits : id ∈ s.waiting t := List.mem_append_right _ (List.mem_append_right _ hbatch)
    exact ⟨(h.pending id hwaits).1.outcome?, t, h.thread, hbatch, hp⟩
  refused id key cause hid := by
    obtain ⟨hnot, hknown⟩ := h.refused id key cause hid
    refine ⟨hknown, fun t' ht' hwaits => ?_, fun batch hbatch hin => ?_⟩
    · rw [h.thread] at ht'
      cases ht'
      exact hnot (h.pending id hwaits).2
    · exact hnot ((h.began batch hbatch).2 id hin)
  nonempty batch hbatch := (h.began batch hbatch).1
  stopped := h.order
  answered := h.answered
  syncing t' ht' hphase := by
    cases ht'.symm.trans h.thread
    have hcalling := h.phase
    rw [hphase] at hcalling
    exact ⟨hcalling.2.1, hcalling.1, hcalling.2.2⟩
  telling := telling_of_thread h.thread

/-- Group commit never acknowledges early. Whatever the engine answers, and in whatever order the
callers, the journal thread and the shutdown move, the events account for the completions. -/
theorem accounted_run (engine : σ) (host : Host) (permits : PermitSource)
    (deeds : List Deed) :
    Accounted (deeds.foldl watch (start engine host true permits {}, [])).1
      (deeds.foldl watch (start engine host true permits {}, [])).2 := by
  obtain ⟨t, h⟩ := kept_run engine host permits {} deeds
  exact h.accounted

/-- A write that lands while a sync is going on is not in its batch. -/
example :
    let deeds : List Deed := [.apply ⟨1, 2⟩ [7], .send 0, .advance, .advance, .advance,
      .apply ⟨1, 3⟩ [8], .send 1, .advance, .advance, .advance]
    let s := (deeds.foldl watch (start ({} : MemoryEngine) {} true .unlimited {}, [])).1
    s.completions.outcome? 0 = some (.ok ()) ∧ s.completions.outcome? 1 = none :=
  ⟨rfl, rfl⟩

end LedgerStore.Storage
