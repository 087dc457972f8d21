import LedgerStore.Proofs.Storage.Kept
import LedgerStore.Proofs.Storage.Trail

set_option autoImplicit false

namespace LedgerStore.Storage

variable {σ : Type}

/-- The phase of the journal thread is what the trail and the shutdown say. -/
def AtStage (closing : Bool) (r : Trail) (t : JournalThread) : JournalPhase → Prop
  | .acquiring | .draining | .parked =>
    (Event.batches r.events).flatten = r.settled.map (·.1) ∧
      (closing = true ↔ .shutdown ∈ t.queue)
  | .syncing | .settling _ false =>
    (Event.batches r.events).flatten = r.settled.map (·.1) ++ t.batch ∧
      (closing = true ↔ .shutdown ∈ t.queue)
  | .abandoning => closing = true
  | .settling _ true => closing = true ∧ t.queue = []
  | .ended _ => t.batch = [] ∧ t.queue = [] ∧ (closing = true ∨ .ended .died ∈ r.events)

structure Followed (closing : Bool) (s : Storage σ) (t : JournalThread) (r : Trail) : Prop where
  thread : s.thread = some t
  nodup : (Event.accepted r.events).Nodup
  accepted : (Event.accepted r.events).Perm (s.sending.map (·.1) ++ r.queued ++ r.late)
  queued : r.queued = r.settled.map (·.1) ++ t.held ++ r.stranded
  batches : (Event.batches r.events).flatten <+: r.queued
  settled : ∀ x ∈ r.settled, s.completions.outcome? x.1 = some x.2 ∧ Explained r.events x.1 x.2
  lost : ∀ id ∈ r.lost, s.completions.outcome? id = some (.error .shuttingDown)
  died : r.lost ≠ [] → .ended .died ∈ r.events
  live : r.stranded = [] ∨ ∃ panicked, t.phase = .ended panicked
  syncs : s.stats.syncs = r.events.countP Event.returned
  synced : s.stats.synced = (r.settled ++ t.due).countP (·.2.isOk)
  failed : s.stats.failed = (r.settled ++ t.due).countP (!·.2.isOk)
  done : closing = true → s.sending = []
  stage : AtStage closing r t t.phase

variable {first : Completions} {closing closing' : Bool} {r : Trail} {s s' : Storage σ}
  {t t' : JournalThread} {x : Option Event}

theorem AtStage.event {phase : JournalPhase} (h : AtStage closing r t phase) {x : Option Event}
    (batches : Event.batches (x.toList ++ r.events) = Event.batches r.events) :
    AtStage closing { r with events := x.toList ++ r.events } t phase := by
  cases phase with
  | acquiring => exact ⟨batches ▸ h.1, h.2⟩
  | draining => exact ⟨batches ▸ h.1, h.2⟩
  | parked => exact ⟨batches ▸ h.1, h.2⟩
  | syncing => exact ⟨batches ▸ h.1, h.2⟩
  | settling outcome last =>
    cases last with
    | false => exact ⟨batches ▸ h.1, h.2⟩
    | true => exact h
  | abandoning => exact h
  | ended panicked =>
    obtain ⟨hbatch, hqueue, hwhy⟩ := h
    exact ⟨hbatch, hqueue, hwhy.imp_right (List.mem_append_right _)⟩

theorem AtStage.push {phase : JournalPhase} (h : AtStage false r t phase)
    (running : ∀ panicked, phase ≠ .ended panicked) {message : JournalMessage}
    (closes : closing = true ↔ message = .shutdown) :
    AtStage closing r { t with queue := t.queue ++ [message] } phase := by
  have hmem : (false = true ↔ .shutdown ∈ t.queue) →
      (closing = true ↔ .shutdown ∈ t.queue ++ [message]) := by
    intro hopen
    have hnot : .shutdown ∉ t.queue := fun hin => nomatch hopen.2 hin
    rw [closes, List.mem_append, List.mem_singleton]
    exact ⟨fun heq => Or.inr heq.symm, fun hin => (hin.resolve_left hnot).symm⟩
  cases phase with
  | acquiring => exact h.imp_right hmem
  | draining => exact h.imp_right hmem
  | parked => exact h.imp_right hmem
  | syncing => exact h.imp_right hmem
  | settling outcome last =>
    cases last with
    | false => exact h.imp_right hmem
    | true => exact absurd h.1 nofun
  | abandoning => exact absurd h nofun
  | ended panicked => exact absurd rfl (running panicked)

theorem perm_pass {xs ys : List Nat} {id : Nat} (h : xs.Perm (id :: ys)) (zs : List Nat) :
    (xs ++ zs).Perm (ys ++ (zs ++ [id])) := by
  rw [← List.append_assoc]
  exact (h.append_right zs).trans (List.perm_append_singleton id (ys ++ zs)).symm

theorem mem_waiting (s : Storage σ) {id : Nat} (hid : id ∈ t.held) : id ∈ s.waiting t :=
  List.mem_append_right _ (t.ids_perm_held.mem_iff.2 hid)

theorem Explained.after {events : List Event} {id : Nat} {o : Outcome} (h : Explained events id o)
    (x : Option Event) : Explained (x.toList ++ events) id o := by
  cases x with
  | none => exact h
  | some x => exact h.cons x

namespace Followed

theorem still_settled (h : Followed closing s t r)
    (known : ∀ id o, s.completions.outcome? id = some o → s'.completions.outcome? id = some o)
    (x : Option Event) : ∀ y ∈ r.settled,
      s'.completions.outcome? y.1 = some y.2 ∧ Explained (x.toList ++ r.events) y.1 y.2 := by
  intro y hy
  obtain ⟨ho, he⟩ := h.settled y hy
  exact ⟨known _ _ ho, he.after x⟩

/-- What changes neither the completions that are to be settled nor their order. -/
theorem rearrange (h : Followed closing s t r) (thread : s'.thread = some t')
    (sending : s'.sending = s.sending)
    (known : ∀ id o, s.completions.outcome? id = some o → s'.completions.outcome? id = some o)
    (accepted : Event.accepted (x.toList ++ r.events) = Event.accepted r.events)
    (held : t'.held = t.held)
    (batches : (Event.batches (x.toList ++ r.events)).flatten <+: r.queued)
    (live : r.stranded = [] ∨ ∃ panicked, t'.phase = .ended panicked)
    (syncs : s'.stats.syncs = s.stats.syncs + x.toList.countP Event.returned)
    (synced : s'.stats.synced + t.due.countP (·.2.isOk) =
      s.stats.synced + t'.due.countP (·.2.isOk))
    (failed : s'.stats.failed + t.due.countP (!·.2.isOk) =
      s.stats.failed + t'.due.countP (!·.2.isOk))
    (done : closing' = true → s.sending = [])
    (stage : AtStage closing' { r with events := x.toList ++ r.events } t' t'.phase) :
    Followed closing' s' t' { r with events := x.toList ++ r.events } where
  thread := thread
  nodup := accepted ▸ h.nodup
  accepted := by
    rw [accepted, sending]
    exact h.accepted
  queued := held ▸ h.queued
  batches := batches
  settled := h.still_settled known x
  lost id hid := known _ _ (h.lost id hid)
  died hne := List.mem_append_right _ (h.died hne)
  live := live
  syncs := by
    rw [syncs, h.syncs, List.countP_append, Nat.add_comm]
  synced := by
    have hold := h.synced
    rw [List.countP_append] at hold ⊢
    change _ = r.settled.countP _ + _
    omega
  failed := by
    have hold := h.failed
    rw [List.countP_append] at hold ⊢
    change _ = r.settled.countP _ + _
    omega
  done hc := sending ▸ done hc
  stage := stage

theorem shift (h : Followed closing s t r) (thread : s'.thread = some t')
    (sending : s'.sending = s.sending) (stats : s'.stats = s.stats)
    (known : ∀ id o, s.completions.outcome? id = some o → s'.completions.outcome? id = some o)
    (accepted : Event.accepted (x.toList ++ r.events) = Event.accepted r.events)
    (batches : Event.batches (x.toList ++ r.events) = Event.batches r.events)
    (syncs : x.toList.countP Event.returned = 0) (held : t'.held = t.held) (due : t'.due = t.due)
    (live : r.stranded = [] ∨ ∃ panicked, t'.phase = .ended panicked)
    (done : closing' = true → s.sending = [])
    (stage : AtStage closing' { r with events := x.toList ++ r.events } t' t'.phase) :
    Followed closing' s' t' { r with events := x.toList ++ r.events } :=
  h.rearrange thread sending known accepted held (batches ▸ h.batches) live
    (by rw [syncs, stats]; rfl) (by rw [stats, due]) (by rw [stats, due]) done stage

theorem stranded_nil (h : Followed closing s t r) (hp : ∀ panicked, t.phase ≠ .ended panicked) :
    r.stranded = [] := by
  rcases h.live with hnil | ⟨panicked, hended⟩
  · exact hnil
  · exact absurd hended (hp panicked)

theorem pass (h : Followed closing s t r) (running : ∀ panicked, t.phase ≠ .ended panicked)
    (held : t'.held = t.held) (due : t'.due = t.due) (stage : AtStage closing r t' t'.phase) :
    Followed closing { s with thread := some t' } t' r :=
  h.shift (x := none) rfl rfl rfl (fun _ _ ho => ho) rfl rfl rfl held due
    (Or.inl (h.stranded_nil running)) h.done stage

theorem settle (hk : Kept first r.events s t) (h : Followed closing s t r) {outcome : Outcome}
    {last : Bool} {id : Nat} {batch : List Nat} (phase : t.phase = .settling outcome last)
    (next : t.batch = id :: batch) :
    Followed closing
      { s with
        thread := some { t with batch, phase := .settling outcome last }
        completions := s.completions.resolve id outcome }
      { t with batch, phase := .settling outcome last }
      { r with settled := r.settled ++ [(id, outcome)] } := by
  let t' : JournalThread := { t with batch, phase := .settling outcome last }
  have hstage := h.stage
  have hstranded := h.stranded_nil (by simp [phase])
  have hheld : t.held = id :: t'.held := by
    rw [JournalThread.held, next]
    rfl
  have hdue : r.settled ++ [(id, outcome)] ++ t'.due = r.settled ++ t.due := by
    simp [t', JournalThread.due, phase, next]
  have hpending := (hk.pending id (s.mem_waiting (hheld ▸ List.mem_cons_self))).1
  have hknown : ∀ other o, s.completions.outcome? other = some o →
      (s.completions.resolve id outcome).outcome? other = some o :=
    fun _ _ ho => Completions.outcome?_resolve_of_known ho _ _
  exact {
    thread := rfl
    nodup := h.nodup
    accepted := h.accepted
    queued := by
      -- The head of the batch is the next to be settled, and so the order stays.
      change r.queued = (r.settled ++ [(id, outcome)]).map (·.1) ++ t'.held ++ r.stranded
      have hold := h.queued
      rw [hheld] at hold
      simp only [hold, List.map_append, List.append_assoc, List.map_cons, List.map_nil,
        List.cons_append, List.nil_append]
    batches := h.batches
    settled y hy := by
      rcases List.mem_append.1 hy with hy | hy
      · exact (h.settled y hy).imp_left (hknown _ _)
      · cases List.mem_singleton.1 hy
        refine ⟨?_, hk.explains phase (next ▸ List.mem_cons_self)⟩
        rw [Completions.outcome?_resolve hpending, if_pos rfl]
    lost other hother := hknown _ _ (h.lost other hother)
    died := h.died
    live := Or.inl hstranded
    syncs := h.syncs
    synced := hdue ▸ h.synced
    failed := hdue ▸ h.failed
    done := h.done
    stage := by
      rw [phase] at hstage
      cases last with
      | false =>
        obtain ⟨hbatches, hclosing⟩ := hstage
        refine ⟨?_, hclosing⟩
        rw [hbatches, next]
        simp
      | true => exact hstage }

theorem finish (hk : Kept first r.events s t) (h : Followed closing s t r) (idle : t.due = [])
    (running : ∀ panicked, t.phase ≠ .ended panicked) {panicked : Bool}
    (syncs : x.toList.countP Event.returned = 0)
    (accepted : Event.accepted (x.toList ++ r.events) = Event.accepted r.events)
    (batches : Event.batches (x.toList ++ r.events) = Event.batches r.events)
    (why : t.held = [] ∧ closing = true ∨ x = some (.ended .died)) :
    Followed closing (s.finish t panicked)
      { t with queue := [], batch := [], phase := .ended panicked }
      { r with stranded := r.stranded ++ t.held, events := x.toList ++ r.events } := by
  have hstranded := h.stranded_nil running
  have hnodup : t.held.Nodup :=
    t.ids_perm_held.nodup_iff.1 (List.nodup_append.1 hk.nodup).2.1
  have hpending : ∀ id ∈ t.held, s.completions.Pending id :=
    fun id hid => (hk.pending id (s.mem_waiting hid)).1
  have hknown := (s.lasting_finish t panicked).outcome?
  exact {
    thread := rfl
    nodup := accepted ▸ h.nodup
    accepted := accepted ▸ h.accepted
    queued := by
      have hold := h.queued
      rw [hstranded, List.append_nil] at hold
      simp [hold, hstranded, JournalThread.held]
    batches := batches ▸ h.batches
    settled := h.still_settled hknown x
    lost id hid := by
      simp only [Trail.lost, hstranded, List.nil_append] at hid
      rcases List.mem_append.1 hid with hid | hid
      · change (s.completions.dropAll t.held).outcome? id = _
        rw [Completions.outcome?_dropAll hnodup hpending, if_pos hid]
      · exact hknown _ _ (h.lost id (List.mem_append_right _ hid))
    died hne := by
      rcases why with ⟨hheld, -⟩ | rfl
      · refine List.mem_append_right _ (h.died ?_)
        simpa [Trail.lost, hheld] using hne
      · exact List.mem_cons_self
    live := Or.inr ⟨panicked, rfl⟩
    syncs := by
      rw [List.countP_append, syncs, Nat.zero_add]
      exact h.syncs
    synced := by
      have hold := h.synced
      rw [idle] at hold
      exact hold
    failed := by
      have hold := h.failed
      rw [idle] at hold
      exact hold
    done := h.done
    stage := by
      refine ⟨rfl, rfl, ?_⟩
      rcases why with ⟨-, hclosing⟩ | rfl
      · exact Or.inl hclosing
      · exact Or.inr List.mem_cons_self }

theorem accept (hk : Kept first r.events s t) (h : Followed false s t r) (key : Key)
    (thread : s'.thread = some t) (stats : s'.stats = s.stats)
    (completions : s'.completions = s.completions.pair.2)
    (sending : s'.sending = s.sending ++ [(s.completions.cells.length, key)]) :
    Followed false s' t { r with events := .applied s.completions.cells.length :: r.events } := by
  have hknown : ∀ id o, s.completions.outcome? id = some o →
      s'.completions.outcome? id = some o :=
    fun _ _ ho => completions ▸ Completions.outcome?_add_of_known ho _
  exact {
    thread := thread
    nodup := by
      refine List.nodup_cons.2 ⟨fun hin => ?_, h.nodup⟩
      exact Nat.lt_irrefl _ (hk.fresh _ (Event.mem_accepted.1 hin))
    accepted := by
      have hperm := h.accepted.cons s.completions.cells.length
      refine hperm.trans ?_
      rw [sending, List.map_append, List.append_assoc, List.append_assoc, List.append_assoc]
      exact List.perm_middle.symm
    queued := h.queued
    batches := h.batches
    settled := h.still_settled hknown (some (.applied s.completions.cells.length))
    lost id hid := hknown _ _ (h.lost id hid)
    died hne := List.mem_cons_of_mem _ (h.died hne)
    live := h.live
    syncs := stats ▸ h.syncs
    synced := stats ▸ h.synced
    failed := stats ▸ h.failed
    done := nofun
    stage := AtStage.event (x := some (.applied s.completions.cells.length)) h.stage rfl }

variable [Engine σ]

theorem send (hk : Kept first r.events s t) (h : Followed false s t r) (id : Nat) :
    ∃ t', Followed false (s.send id) t' { r.follow s (.send id) with events := r.events } := by
  cases hlookup : s.sending.lookup id with
  | none =>
    simp only [Storage.send, Trail.follow, hlookup]
    exact ⟨t, h⟩
  | some key =>
    have hsending := perm_sending hlookup (List.nodup_append.1 hk.nodup).1
    have hpending : s.completions.Pending id :=
      (hk.pending id (List.mem_append_left _ (hsending.mem_iff.2 List.mem_cons_self))).1
    by_cases hended : ∃ panicked, t.phase = .ended panicked
    · obtain ⟨panicked, hended⟩ := hended
      have hstage := h.stage
      rw [hended] at hstage
      obtain ⟨-, -, hwhy⟩ := hstage
      simp only [Storage.send, Trail.follow, hlookup, h.thread, hended, note]
      refine ⟨t, { h with
        thread := rfl, accepted := ?_, settled := ?_, lost := ?_, died := ?_, done := by simp }⟩
      · refine h.accepted.trans ?_
        rw [List.append_assoc, List.append_assoc, ← List.append_assoc r.queued]
        exact perm_pass hsending _
      · intro y hy
        obtain ⟨ho, he⟩ := h.settled y hy
        exact ⟨Completions.outcome?_resolve_of_known ho _ _, he⟩
      · intro other hother
        simp only [Trail.lost, ← List.append_assoc] at hother
        rcases List.mem_append.1 hother with hother | hother
        · exact Completions.outcome?_resolve_of_known (h.lost other hother) _ _
        · cases List.mem_singleton.1 hother
          change (s.completions.resolve id _).outcome? id = _
          rw [Completions.outcome?_resolve hpending, if_pos rfl]
      · -- Before a shutdown only a sync can have ended the thread.
        exact fun _ => hwhy.resolve_left (by simp)
    · have hrunning : ∀ panicked, t.phase ≠ .ended panicked := not_exists.1 hended
      have hstranded := h.stranded_nil hrunning
      simp only [Storage.send, Trail.follow, hlookup, h.thread]
      refine ⟨{ t with queue := t.queue ++ [.pending id] }, { h with
        thread := rfl, accepted := ?_, queued := ?_, batches := ?_, done := by simp, stage := ?_ }⟩
      · refine h.accepted.trans ?_
        exact (perm_pass hsending _).append_right _
      · have hold := h.queued
        rw [hstranded, List.append_nil] at hold
        rw [t.held_push, hstranded, List.append_nil, ← List.append_assoc, ← hold]
        rfl
      · exact h.batches.trans (List.prefix_append _ _)
      · exact AtStage.push h.stage hrunning (by simp)

omit [Engine σ] in
/-- The journal thread begins to settle its batch, which is counted now. -/
theorem charge (h : Followed closing s t r) (idle : t.due = []) {outcome : Outcome} {last : Bool}
    (live : r.stranded = []) (thread : s'.thread = some { t with phase := .settling outcome last })
    (sending : s'.sending = s.sending) (completions : s'.completions = s.completions)
    (accepted : Event.accepted (x.toList ++ r.events) = Event.accepted r.events)
    (batches : Event.batches (x.toList ++ r.events) = Event.batches r.events)
    (syncs : s'.stats.syncs = s.stats.syncs + x.toList.countP Event.returned)
    (synced : s'.stats.synced = s.stats.synced + if outcome.isOk then t.batch.length else 0)
    (failed : s'.stats.failed = s.stats.failed + if !outcome.isOk then t.batch.length else 0)
    (stage :
      AtStage closing r { t with phase := .settling outcome last } (.settling outcome last)) :
    Followed closing s' { t with phase := .settling outcome last }
      { r with events := x.toList ++ r.events } := by
  refine h.rearrange thread sending (fun _ _ ho => completions ▸ ho) accepted rfl
    (batches ▸ h.batches) (Or.inl live) syncs ?_ ?_ h.done (stage.event batches)
  · rw [synced, idle, JournalThread.countP_due rfl fun o => o.isOk]
    rfl
  · rw [failed, idle, JournalThread.countP_due rfl fun o => !o.isOk]
    rfl

theorem gathering (h : Followed closing s t r) (phase : t.phase = .draining ∨ t.phase = .parked) :
    t.due = [] ∧ (∀ panicked, t.phase ≠ .ended panicked) ∧ r.turn s t = r ∧
      (Event.batches r.events).flatten = r.settled.map (·.1) ∧
        (closing = true ↔ .shutdown ∈ t.queue) := by
  have hstage := h.stage
  rcases phase with phase | phase
  all_goals
    rw [phase] at hstage
    exact ⟨by rw [JournalThread.due, phase], by simp [phase], by simp only [Trail.turn, phase],
      hstage⟩

/-- One sync for the batch, and what its end means for the trail. -/
theorem commit (hk : Kept first r.events s t) (h : Followed closing s t r)
    (phase : t.phase = .syncing) :
    ∃ t', Followed closing (s.commit t).2 t'
      { r.turn s t with events := .ended (Engine.sync (s.engine, s.host)).1 :: r.events } := by
  have hstage := h.stage
  rw [phase] at hstage
  have hidle : t.due = [] := by rw [JournalThread.due, phase]
  have hlive := h.stranded_nil (by simp [phase])
  simp only [Storage.commit, Trail.turn, phase]
  rcases Engine.sync (s.engine, s.host) with ⟨ending, engine, host⟩
  cases ending with
  | synced =>
    exact ⟨_, h.charge (x := some (.ended .synced)) hidle hlive rfl rfl rfl rfl rfl rfl rfl rfl
      hstage⟩
  | failed cause =>
    exact ⟨_, h.charge (x := some (.ended (.failed cause))) hidle hlive rfl rfl rfl rfl rfl rfl rfl
      rfl hstage⟩
  | died =>
    -- The thread ends in the sync. Neither the sync nor the batch is counted.
    have hsame : Followed closing { s with engine, host } t r := { h with thread := h.thread }
    have hkept : Kept first r.events { s with engine, host } t := hk.congr rfl rfl rfl
    exact ⟨_, finish (x := some (.ended .died)) hkept hsame hidle (by simp [phase]) rfl rfl rfl
      (Or.inr rfl)⟩

theorem turn (hk : Kept first r.events s t) (h : Followed closing s t r) (turn : Turn s t x s') :
    ∃ t', Followed closing s' t' { r.turn s t with events := x.toList ++ r.events } := by
  have hstage := h.stage
  cases turn with
  | permit phase granted =>
    rw [phase] at hstage
    simp only [Trail.turn, phase]
    exact ⟨_, h.pass (by simp [phase]) rfl (by simp [JournalThread.due, phase]) hstage⟩
  | take phase next =>
    obtain ⟨hdue, hrunning, hturn, hbatches, hclosing⟩ := h.gathering phase
    rw [next] at hclosing
    rw [hturn]
    exact ⟨_, h.pass hrunning (JournalThread.held_take next .draining) hdue.symm
      ⟨hbatches, hclosing.trans (by simp)⟩⟩
  | stop phase next =>
    obtain ⟨hdue, hrunning, hturn, hbatches, hclosing⟩ := h.gathering phase
    rw [next] at hclosing
    rw [hturn]
    exact ⟨_, h.shift (x := some .stopped) rfl rfl rfl (fun _ _ ho => ho) rfl rfl rfl
      (JournalThread.held_pass next .abandoning) hdue.symm (Or.inl (h.stranded_nil hrunning)) h.done
      (hclosing.2 List.mem_cons_self)⟩
  | park phase next idle =>
    rw [phase] at hstage
    simp only [Trail.turn, phase]
    exact ⟨_, h.pass (by simp [phase]) rfl (by simp [JournalThread.due, phase]) hstage⟩
  | gather phase next busy =>
    obtain ⟨hdue, hrunning, hturn, hbatches, hclosing⟩ := h.gathering (Or.inl phase)
    -- All that was in a batch before is settled, so this one is the next piece of the queue.
    have hflat : (Event.batches (.began t.batch :: r.events)).flatten =
        r.settled.map (·.1) ++ t.batch := by
      rw [Event.batches_began, List.flatten_append, hbatches, List.flatten_singleton]
    have hprefix : (Event.batches (.began t.batch :: r.events)).flatten <+: r.queued := by
      rw [hflat, h.queued, JournalThread.held, ← List.append_assoc, List.append_assoc]
      exact List.prefix_append _ _
    rw [hturn]
    exact ⟨_, h.rearrange (x := some (.began t.batch)) rfl rfl (fun _ _ ho => ho) rfl rfl hprefix
      (Or.inl (h.stranded_nil hrunning)) rfl (by rw [hdue]; rfl) (by rw [hdue]; rfl) h.done
      ⟨hflat, hclosing⟩⟩
  | sync phase => exact commit hk h phase
  | settle phase next =>
    simp only [Trail.turn, phase, next]
    exact ⟨_, settle hk h phase next⟩
  | again phase next =>
    rw [phase] at hstage
    obtain ⟨hbatches, hclosing⟩ := hstage
    rw [next, List.append_nil] at hbatches
    have hturn : r.turn s t = r := by simp only [Trail.turn, phase, next]
    rw [hturn]
    exact ⟨_, h.pass (by simp [phase]) rfl (by simp [JournalThread.due, phase, next])
      ⟨hbatches, hclosing⟩⟩
  | leave phase next =>
    rw [phase] at hstage
    obtain ⟨hclosing, hqueue⟩ := hstage
    simp only [Trail.turn, phase, next]
    -- No caller has come behind the shutdown message, so nothing is left in the queue to be lost.
    have hheld : t.held = [] := by rw [JournalThread.held, next, hqueue]; rfl
    exact ⟨_, finish (x := none) hk h (by simp [JournalThread.due, phase, next]) (by simp [phase])
      rfl rfl rfl (Or.inl ⟨hheld, hclosing⟩)⟩
  | collect phase next =>
    rw [phase] at hstage
    simp only [Trail.turn, phase]
    exact ⟨_, h.pass (by simp [phase]) (JournalThread.held_take next .abandoning)
      (by simp [JournalThread.due, phase]) hstage⟩
  | skip phase next =>
    rw [phase] at hstage
    simp only [Trail.turn, phase]
    exact ⟨_, h.pass (by simp [phase]) (JournalThread.held_pass next .abandoning)
      (by simp [JournalThread.due, phase]) hstage⟩
  | giveUp phase next =>
    rw [phase] at hstage
    obtain ⟨hthread, hsending, hcompletions, hstats⟩ := s.abandon_state t
    have hstranded := h.stranded_nil (by simp [phase])
    simp only [Trail.turn, phase]
    exact ⟨_, h.charge (x := none) (by simp [JournalThread.due, phase]) hstranded hthread hsending
      hcompletions rfl rfl (by rw [hstats]; rfl) (by rw [hstats]; rfl) (by rw [hstats]; rfl)
      ⟨hstage, next⟩⟩

theorem advance (hk : Kept first r.events s t) (h : Followed closing s t r) :
    ∃ t', Followed closing (s.act .advance) t'
      { r.follow s .advance with events := (s.event? .advance).toList ++ r.events } := by
  have hfollow : r.follow s .advance = r.turn s t := by simp only [Trail.follow, h.thread]
  rw [hfollow]
  rcases act_advance h.thread with ⟨hrests, hsame, hnone⟩ | hturn
  · have hturn : r.turn s t = r := by
      cases hrests with
      | permit phase none_left => simp only [Trail.turn, phase]
      | message phase empty => simp only [Trail.turn, phase]
      | ended panicked phase => simp only [Trail.turn, phase]
    rw [hsame, hnone, hturn]
    exact ⟨t, h⟩
  · exact turn hk h hturn

theorem apply (hk : Kept first r.events s t) (h : Followed false s t r) (key : Key)
    (value : Bytes) :
    Followed false (s.act (.apply key value)) t
      { r with events := (s.event? (.apply key value)).toList ++ r.events } := by
  rw [event?, act, Storage.apply, applyShown]
  cases hput : Engine.put key value (s.engine, s.host) with
  | error cause w =>
    have hknown : ∀ id o, s.completions.outcome? id = some o →
        (s.completions.ready (.error (.applyFailed key cause.message))).2.outcome? id = some o :=
      fun _ _ ho => Completions.outcome?_add_of_known ho _
    exact h.shift (x := some (.refused s.completions.cells.length key cause)) h.thread rfl rfl
      hknown rfl rfl rfl rfl rfl h.live h.done (h.stage.event rfl)
  | ok u w =>
    simp only [h.thread]
    exact accept hk h key rfl rfl rfl rfl

omit [Engine σ] in
theorem permits (h : Followed closing s t r) (change : PermitSource → PermitSource) :
    Followed closing (s.withPermits change) { t with permits := change t.permits } r := by
  have hthread : (s.withPermits change).thread = some { t with permits := change t.permits } := by
    rw [withPermits, h.thread]
    rfl
  exact h.shift (x := none) hthread rfl rfl (fun _ _ ho => ho) rfl rfl rfl rfl rfl h.live h.done
    h.stage

omit [Engine σ] in
theorem shutdown (h : Followed false s t r) (done : s.sending = []) :
    ∃ t', Followed true s.requestShutdown t' r := by
  by_cases hended : ∃ panicked, t.phase = .ended panicked
  · obtain ⟨panicked, hended⟩ := hended
    have hstage := h.stage
    rw [hended] at hstage
    obtain ⟨hbatch, hqueue, -⟩ := hstage
    have hsame : s.requestShutdown = s := by simp only [requestShutdown, h.thread, hended]
    rw [hsame]
    exact ⟨t, h.shift (x := none) h.thread rfl rfl (fun _ _ ho => ho) rfl rfl rfl rfl rfl h.live
      (fun _ => done) (hended ▸ ⟨hbatch, hqueue, Or.inl rfl⟩)⟩
  · have hrunning : ∀ panicked, t.phase ≠ .ended panicked := not_exists.1 hended
    have hheld := t.held_push .shutdown
    rw [JournalMessage.id?, Option.toList_none, List.append_nil] at hheld
    simp only [requestShutdown, h.thread]
    exact ⟨_, h.shift (x := none) rfl rfl rfl (fun _ _ ho => ho) rfl rfl rfl hheld rfl h.live
      (fun _ => done) (h.stage.push hrunning (by simp))⟩

end Followed

theorem followed_start (engine : σ) (host : Host) (permits : PermitSource) (first : Completions) :
    Followed false (start engine host true permits first) { permits } {} where
  thread := rfl
  nodup := List.nodup_nil
  accepted := .refl _
  queued := rfl
  batches := List.nil_prefix
  settled := nofun
  lost := nofun
  died hne := absurd rfl hne
  live := Or.inl rfl
  syncs := rfl
  synced := rfl
  failed := rfl
  done := nofun
  stage := ⟨rfl, by simp⟩

/-- Both what the events and what the trail say is kept by a move that keeps each of them. -/
theorem kept_and_followed [Engine σ] {w : Storage σ × Trail} {deed : Deed}
    (hk : Kept first w.2.events w.1 t)
    (hf : ∃ t', Followed closing (record w deed).1 t' (record w deed).2) :
    ∃ t', Kept first (record w deed).2.events (record w deed).1 t' ∧
      Followed closing (record w deed).1 t' (record w deed).2 := by
  obtain ⟨t', hk'⟩ := kept_watch hk deed
  obtain ⟨t'', hf'⟩ := hf
  have heq : t' = t'' := Option.some.inj (hk'.thread.symm.trans hf'.thread)
  exact ⟨t', hk', heq ▸ hf'⟩

theorem followed_reached [Engine σ] (engine : σ) (host : Host) (permits : PermitSource)
    (first : Completions) {w : Storage σ × Trail}
    (h : Reached (start engine host true permits first) closing w) :
    ∃ t, Kept first w.2.events w.1 t ∧ Followed closing w.1 t w.2 := by
  induction h with
  | start =>
    exact ⟨_, kept_start engine host permits first, followed_start engine host permits first⟩
  | @move w before deed serving ih =>
    obtain ⟨t, hk, hf⟩ := ih
    refine kept_and_followed hk ?_
    cases deed with
    | apply key value => exact ⟨t, hf.apply hk key value⟩
    | send id => exact hf.send hk id
    | advance => exact hf.advance hk
    | permits change => exact ⟨_, hf.permits change⟩
    | shutdown => exact absurd rfl serving
  | shutdown before done ih =>
    obtain ⟨t, hk, hf⟩ := ih
    exact kept_and_followed hk (hf.shutdown done)
  | advance before ih =>
    obtain ⟨t, hk, hf⟩ := ih
    exact kept_and_followed hk (hf.advance hk)
  | permits before change ih =>
    obtain ⟨t, hk, hf⟩ := ih
    exact kept_and_followed hk ⟨_, hf.permits change⟩

end LedgerStore.Storage
