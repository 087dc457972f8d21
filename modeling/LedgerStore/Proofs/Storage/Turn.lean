import LedgerStore.Proofs.Storage.Watch

/-!
The turns of the journal thread: all that one move of it can be, with what the move shows. The main
statements read off them that counters never fall, that a known outcome never changes, and that a
thread with all permits rests only at its end or when its queue is empty.
-/

set_option autoImplicit false

namespace LedgerStore

structure StorageStats.AtMost (a b : StorageStats) : Prop where
  syncs : a.syncs ≤ b.syncs
  synced : a.synced ≤ b.synced
  failed : a.failed ≤ b.failed

theorem StorageStats.AtMost.refl (a : StorageStats) : a.AtMost a :=
  ⟨Nat.le_refl _, Nat.le_refl _, Nat.le_refl _⟩

theorem StorageStats.AtMost.trans {a b c : StorageStats} (hab : a.AtMost b) (hbc : b.AtMost c) :
    a.AtMost c :=
  ⟨Nat.le_trans hab.syncs hbc.syncs, Nat.le_trans hab.synced hbc.synced,
    Nat.le_trans hab.failed hbc.failed⟩

inductive JournalThread.Rests (t : JournalThread) : Prop
  | permit (phase : t.phase = .acquiring) (none_left : t.permits.acquire = none)
  | message (phase : t.phase = .parked) (empty : t.queue = [])
  | ended (panicked : Bool) (phase : t.phase = .ended panicked)

namespace Storage

variable {σ : Type} [Engine σ]

/-- A turn of the journal thread: what it shows, and where it leads. -/
inductive Turn (s : Storage σ) (t : JournalThread) : Option Event → Storage σ → Prop
  | permit {permits : PermitSource} (phase : t.phase = .acquiring)
      (granted : t.permits.acquire = some permits) :
      Turn s t none { s with thread := some { t with permits, phase := .draining } }
  | take {id : Nat} {queue : List JournalMessage} (phase : t.phase = .draining ∨ t.phase = .parked)
      (next : t.queue = .pending id :: queue) :
      Turn s t none
        { s with thread := some { t with queue, batch := t.batch ++ [id], phase := .draining } }
  | stop {queue : List JournalMessage} (phase : t.phase = .draining ∨ t.phase = .parked)
      (next : t.queue = .shutdown :: queue) :
      Turn s t (some .stopped) { s with thread := some { t with queue, phase := .abandoning } }
  | park (phase : t.phase = .draining) (next : t.queue = []) (idle : t.batch = []) :
      Turn s t none { s with thread := some { t with phase := .parked } }
  | gather (phase : t.phase = .draining) (next : t.queue = []) (busy : t.batch ≠ []) :
      Turn s t (some (.began t.batch)) { s with thread := some { t with phase := .syncing } }
  | sync (phase : t.phase = .syncing) :
      Turn s t (some (.ended (Engine.sync (s.engine, s.host)).1)) (s.commit t).2
  | settle {outcome : Outcome} {last : Bool} {id : Nat} {batch : List Nat}
      (phase : t.phase = .settling outcome last) (next : t.batch = id :: batch) :
      Turn s t none
        { s with
          thread := some { t with batch, phase := .settling outcome last }
          completions := s.completions.resolve id outcome }
  | again {outcome : Outcome} (phase : t.phase = .settling outcome false) (next : t.batch = []) :
      Turn s t none { s with thread := some { t with phase := .acquiring } }
  | leave {outcome : Outcome} (phase : t.phase = .settling outcome true) (next : t.batch = []) :
      Turn s t none (s.finish t false)
  | collect {id : Nat} {queue : List JournalMessage} (phase : t.phase = .abandoning)
      (next : t.queue = .pending id :: queue) :
      Turn s t none
        { s with thread := some { t with queue, batch := t.batch ++ [id], phase := .abandoning } }
  | skip {queue : List JournalMessage} (phase : t.phase = .abandoning)
      (next : t.queue = .shutdown :: queue) :
      Turn s t none { s with thread := some { t with queue, phase := .abandoning } }
  | giveUp (phase : t.phase = .abandoning) (next : t.queue = []) : Turn s t none (s.abandon t)

variable {s s' : Storage σ} {t : JournalThread} {x : Option Event}

/-- The journal thread rests, or it takes one of its turns. -/
theorem rests_or_turn (h : s.thread = some t) :
    t.Rests ∧ s.advance = none ∧ s.event? .advance = none ∨
      ∃ s', s.advance = some s' ∧ Turn s t (s.event? .advance) s' := by
  obtain ⟨queue, batch, phase, permits⟩ := t
  simp only [advance, event?, advanceShown, h]
  cases phase with
  | acquiring =>
    cases hpermit : permits.acquire with
    | none => exact Or.inl ⟨.permit rfl hpermit, rfl, rfl⟩
    | some left => exact Or.inr ⟨_, rfl, .permit rfl hpermit⟩
  | draining =>
    cases queue with
    | nil =>
      by_cases hb : batch = []
      · simp only [hb, ↓reduceIte]
        exact Or.inr ⟨_, rfl, .park rfl rfl rfl⟩
      · simp only [hb, ↓reduceIte]
        exact Or.inr ⟨_, rfl, .gather rfl rfl hb⟩
    | cons message queue =>
      cases message with
      | pending id => exact Or.inr ⟨_, rfl, .take (Or.inl rfl) rfl⟩
      | shutdown => exact Or.inr ⟨_, rfl, .stop (Or.inl rfl) rfl⟩
  | parked =>
    cases queue with
    | nil => exact Or.inl ⟨.message rfl rfl, rfl, rfl⟩
    | cons message queue =>
      cases message with
      | pending id => exact Or.inr ⟨_, rfl, .take (Or.inr rfl) rfl⟩
      | shutdown => exact Or.inr ⟨_, rfl, .stop (Or.inr rfl) rfl⟩
  | syncing => exact Or.inr ⟨_, rfl, .sync rfl⟩
  | settling outcome last =>
    cases batch with
    | nil =>
      cases last with
      | false => exact Or.inr ⟨_, rfl, .again rfl rfl⟩
      | true => exact Or.inr ⟨_, rfl, .leave rfl rfl⟩
    | cons id batch => exact Or.inr ⟨_, rfl, .settle rfl rfl⟩
  | abandoning =>
    cases queue with
    | nil => exact Or.inr ⟨_, rfl, .giveUp rfl rfl⟩
    | cons message queue =>
      cases message with
      | pending id => exact Or.inr ⟨_, rfl, .collect rfl rfl⟩
      | shutdown => exact Or.inr ⟨_, rfl, .skip rfl rfl⟩
  | ended panicked => exact Or.inl ⟨.ended panicked rfl, rfl, rfl⟩

theorem act_advance (h : s.thread = some t) :
    t.Rests ∧ s.act .advance = s ∧ s.event? .advance = none ∨
      Turn s t (s.event? .advance) (s.act .advance) := by
  rw [act]
  rcases rests_or_turn h with ⟨hrests, hnone, hevent⟩ | ⟨s', hsome, hturn⟩
  · rw [hnone]
    exact Or.inl ⟨hrests, rfl, hevent⟩
  · rw [hsome]
    exact Or.inr hturn

theorem act_without_thread (h : s.thread = none) :
    s.act .advance = s ∧ s.event? .advance = none := by
  rw [act, advance, event?, advanceShown, h]
  exact ⟨rfl, rfl⟩

/-- Moves that are neither a write nor a sync leave the engine and its files as they are. -/
structure Quiet (s s' : Storage σ) : Prop where
  engine : s'.engine = s.engine
  disk : s'.host.disk = s.host.disk

omit [Engine σ] in
theorem quiet_send (s : Storage σ) (id : Nat) : Quiet s (s.send id) := by
  rw [send]
  split
  · dsimp only
    split <;> exact ⟨rfl, rfl⟩
  · exact ⟨rfl, rfl⟩

omit [Engine σ] in
theorem quiet_shutdown (s : Storage σ) : Quiet s s.requestShutdown := by
  rw [requestShutdown]
  split
  · exact ⟨rfl, rfl⟩
  · split <;> exact ⟨rfl, rfl⟩

theorem Turn.ne_ended (h : Turn s t x s') (hp : t.phase ≠ .syncing) (ending : SyncEnd) :
    x ≠ some (.ended ending) := by
  cases h with
  | sync phase => exact absurd phase hp
  | _ => simp

theorem Turn.quiet (h : Turn s t x s') (hx : ∀ ending, x ≠ some (.ended ending)) : Quiet s s' := by
  cases h with
  | sync phase => exact absurd rfl (hx _)
  | giveUp phase next =>
    rw [abandon]
    split <;> exact ⟨rfl, rfl⟩
  | _ => exact ⟨rfl, rfl⟩

theorem Turn.event {y : Event} (h : Turn s t (some y) s') (hp : t.phase ≠ .syncing)
    (events : List Event) :
    Event.calls (y :: events) = Event.calls events ∧ ∀ id, y ≠ .applied id := by
  cases h with
  | stop phase next => exact ⟨rfl, nofun⟩
  | gather phase next busy => exact ⟨rfl, nofun⟩
  | sync phase => exact absurd phase hp

theorem quiet_advance (s : Storage σ) (hp : ∀ t, s.thread = some t → t.phase ≠ .syncing) :
    Quiet s (s.act .advance) := by
  cases ht : s.thread with
  | none =>
    rw [(act_without_thread ht).1]
    exact ⟨rfl, rfl⟩
  | some t =>
    rcases act_advance ht with ⟨-, hsame, -⟩ | hturn
    · rw [hsame]
      exact ⟨rfl, rfl⟩
    · exact hturn.quiet (hturn.ne_ended (hp t ht))

/-- Only the end of a sync and an applied write say that something is durable or is to be so. -/
theorem quiet_event (s : Storage σ) (hp : ∀ t, s.thread = some t → t.phase ≠ .syncing) {y : Event}
    (h : s.event? .advance = some y) (events : List Event) :
    Event.calls (y :: events) = Event.calls events ∧ ∀ id, y ≠ .applied id := by
  cases ht : s.thread with
  | none =>
    rw [(act_without_thread ht).2] at h
    cases h
  | some t =>
    rcases act_advance ht with ⟨-, -, hnone⟩ | hturn
    · rw [hnone] at h
      cases h
    · exact (h ▸ hturn).event (hp t ht) events

theorem commit_state (s : Storage σ) (t : JournalThread) :
    (s.commit t).2.engine = (Engine.sync (s.engine, s.host)).2.1 ∧
      (s.commit t).2.host.disk = (Engine.sync (s.engine, s.host)).2.2.disk := by
  rw [commit]
  rcases Engine.sync (s.engine, s.host) with ⟨ending, engine, host⟩
  cases ending <;> exact ⟨rfl, rfl⟩

omit [Engine σ] in
theorem abandon_state (s : Storage σ) (t : JournalThread) :
    (s.abandon t).thread = some { t with phase := .settling (.error .shuttingDown) true } ∧
      (s.abandon t).sending = s.sending ∧ (s.abandon t).completions = s.completions ∧
        (s.abandon t).stats = { s.stats with failed := s.stats.failed + t.batch.length } := by
  rw [abandon]
  split <;> exact ⟨rfl, rfl, rfl, rfl⟩

structure Lasting (s s' : Storage σ) : Prop where
  stats : s.stats.AtMost s'.stats
  cells : s.completions.cells.length ≤ s'.completions.cells.length
  outcome? : ∀ id o, s.completions.outcome? id = some o → s'.completions.outcome? id = some o

omit [Engine σ] in
theorem Lasting.of_stats (stats : s.stats.AtMost s'.stats)
    (completions : s'.completions = s.completions) : Lasting s s' :=
  ⟨stats, completions ▸ Nat.le_refl _, fun _ _ ho => completions ▸ ho⟩

omit [Engine σ] in
theorem Lasting.of_add (stats : s'.stats = s.stats) (c : Completion.Cell)
    (completions : s'.completions = (s.completions.add c).2) : Lasting s s' where
  stats := stats ▸ .refl _
  cells := by
    rw [completions, Completions.length_add]
    exact Nat.le_succ _
  outcome? _ _ ho := completions ▸ Completions.outcome?_add_of_known ho c

omit [Engine σ] in
theorem Lasting.of_resolve (stats : s'.stats = s.stats) {id : Nat} {o : Outcome}
    (completions : s'.completions = s.completions.resolve id o) : Lasting s s' where
  stats := stats ▸ .refl _
  cells := Nat.le_of_eq (by rw [completions, Completions.length_resolve])
  outcome? _ _ ho := completions ▸ Completions.outcome?_resolve_of_known ho id o

omit [Engine σ] in
theorem lasting_finish (s : Storage σ) (t : JournalThread) (panicked : Bool) :
    Lasting s (s.finish t panicked) where
  stats := .refl _
  cells := Nat.le_of_eq (Completions.length_dropAll _ _).symm
  outcome? _ _ ho := Completions.outcome?_dropAll_of_known ho _

theorem Turn.lasting (h : Turn s t x s') : Lasting s s' := by
  cases h with
  | sync phase =>
    rw [commit]
    rcases Engine.sync (s.engine, s.host) with ⟨ending, engine, host⟩
    cases ending with
    | synced => exact .of_stats ⟨Nat.le_succ _, Nat.le_add_right _ _, Nat.le_refl _⟩ rfl
    | failed cause => exact .of_stats ⟨Nat.le_succ _, Nat.le_refl _, Nat.le_add_right _ _⟩ rfl
    | died =>
      obtain ⟨hstats, hcells, houtcome⟩ := s.lasting_finish t true
      exact ⟨hstats, hcells, houtcome⟩
  | settle phase next => exact .of_resolve rfl rfl
  | leave phase next => exact s.lasting_finish t false
  | giveUp phase next =>
    rw [abandon]
    split <;> exact .of_stats ⟨Nat.le_refl _, Nat.le_refl _, Nat.le_add_right _ _⟩ rfl
  | _ => exact .of_stats (.refl _) rfl

theorem Turn.unlimited (h : Turn s t x s') (ht : t.permits = .unlimited) :
    ∃ t', s'.thread = some t' ∧ t'.permits = .unlimited := by
  cases h with
  | permit phase granted =>
    rw [ht] at granted
    cases granted
    exact ⟨_, rfl, rfl⟩
  | sync phase =>
    rw [commit]
    rcases Engine.sync (s.engine, s.host) with ⟨ending, engine, host⟩
    cases ending <;> exact ⟨_, rfl, ht⟩
  | giveUp phase next =>
    rw [abandon]
    split <;> exact ⟨_, rfl, ht⟩
  | _ => exact ⟨_, rfl, ht⟩

theorem lasting_act (s : Storage σ) (deed : Deed) : Lasting s (s.act deed) := by
  cases deed with
  | apply key value =>
    rw [act, apply, applyShown]
    cases Engine.put key value (s.engine, s.host) with
    | error cause w => exact .of_add rfl _ rfl
    | ok u w =>
      dsimp only
      cases s.thread with
      | none => exact .of_add rfl _ rfl
      | some t => exact .of_add rfl _ rfl
  | send id =>
    rw [act, send]
    split
    · dsimp only
      split
      · exact .of_resolve rfl rfl
      · exact .of_stats (.refl _) rfl
    · exact .of_stats (.refl _) rfl
  | advance =>
    cases ht : s.thread with
    | none =>
      rw [(act_without_thread ht).1]
      exact .of_stats (.refl _) rfl
    | some t =>
      rcases act_advance ht with ⟨-, hsame, -⟩ | hturn
      · rw [hsame]
        exact .of_stats (.refl _) rfl
      · exact hturn.lasting
  | permits change => exact .of_stats (.refl _) rfl
  | shutdown =>
    rw [act, requestShutdown]
    split
    · exact .of_stats (.refl _) rfl
    · split <;> exact .of_stats (.refl _) rfl

/-- However a run goes on, no counter falls and no known outcome changes. -/
theorem lasting_run (s : Storage σ) (deeds : List Deed) : Lasting s (deeds.foldl act s) := by
  induction deeds generalizing s with
  | nil => exact .of_stats (.refl _) rfl
  | cons deed deeds ih =>
    obtain ⟨hstats, hcells, houtcome⟩ := s.lasting_act deed
    obtain ⟨hstats', hcells', houtcome'⟩ := ih (s.act deed)
    exact ⟨hstats.trans hstats', Nat.le_trans hcells hcells',
      fun id o ho => houtcome' id o (houtcome id o ho)⟩

/-- With all permits granted, a journal thread that rests has ended or has an empty queue. -/
theorem ended_or_idle (ht : s.thread = some t) (hu : t.permits = .unlimited)
    (hs : s.advance = none) :
    (∃ panicked, t.phase = .ended panicked) ∨ t.phase = .parked ∧ t.queue = [] := by
  rcases rests_or_turn ht with ⟨hrests, -, -⟩ | ⟨s', hsome, -⟩
  · cases hrests with
    | permit phase none_left =>
      rw [hu] at none_left
      cases none_left
    | message phase empty => exact Or.inr ⟨phase, empty⟩
    | ended panicked phase => exact Or.inl ⟨panicked, phase⟩
  · rw [hsome] at hs
    cases hs

theorem run_turns {P : Storage σ → Prop}
    (hturn : ∀ {s s' t x}, s.thread = some t → Turn s t x s' → P s → P s') (n : Nat) (h : P s) :
    P (run n s) := by
  induction n generalizing s with
  | zero => exact h
  | succ n ih =>
    rw [run]
    cases hmove : s.advance with
    | none => exact h
    | some s' =>
      cases ht : s.thread with
      | none => simp [advance, advanceShown, ht] at hmove
      | some t =>
        rcases rests_or_turn ht with ⟨-, hnone, -⟩ | ⟨s'', hsome, ht'⟩
        · cases hnone.symm.trans hmove
        · cases hsome.symm.trans hmove
          exact ih (hturn ht ht' h)

theorem unlimited_run (n : Nat) (ht : s.thread = some t) (hu : t.permits = .unlimited) :
    ∃ t', (run n s).thread = some t' ∧ t'.permits = .unlimited := by
  refine run_turns (P := fun s : Storage σ => ∃ t, s.thread = some t ∧ t.permits = .unlimited) ?_ n
    ⟨t, ht, hu⟩
  rintro s s' t x ht hturn ⟨t', ht', hu'⟩
  cases ht.symm.trans ht'
  exact hturn.unlimited hu'

theorem foldl_advance (n : Nat) (s : Storage σ) :
    (List.replicate n Deed.advance).foldl act s = run n s := by
  induction n generalizing s with
  | zero => rfl
  | succ n ih =>
    rw [List.replicate_succ, List.foldl_cons, ih, run, act]
    cases hs : s.advance with
    | none =>
      -- A thread at rest stays there.
      cases n with
      | zero => rfl
      | succ n => simp only [Option.getD_none, run, hs]
    | some s' => rfl

theorem await_of_known {id : Nat} {o : Outcome} (h : s.completions.outcome? id = some o) :
    s.await id = (o, s.settle) := by
  have hlasts : s.settle.completions.outcome? id = some o := by
    rw [settle, ← foldl_advance]
    exact (lasting_run s _).outcome? id o h
  rw [await]
  simp [hlasts]

end Storage

end LedgerStore
