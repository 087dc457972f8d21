import LedgerStore.Proofs.Completion
import LedgerStore.Proofs.Storage.Turn

/-!
Waits come to an end, whatever the engine answers. The journal thread owes an outcome to every write
that was applied, and no move of anybody makes it forget one; the main statement is that a wait
for a write that was sent to it finds the outcome known.
-/

set_option autoImplicit false

namespace LedgerStore

namespace JournalThread

def Has (t : JournalThread) (id : Nat) : Prop :=
  id ∈ t.batch ∨ .pending id ∈ t.queue

/-- The thread is to settle a write. If a permit has been granted for it, the thread needs no other
one before. -/
def Owes (granted : Prop) (t : JournalThread) (id : Nat) : Prop :=
  match t.phase with
  | .acquiring => t.Has id ∧ (granted → t.permits.acquire ≠ none)
  | .draining | .abandoning | .settling _ true => t.Has id
  | .parked => .pending id ∈ t.queue
  | .syncing | .settling _ false => t.Has id ∧ (granted → id ∈ t.batch)
  | .ended _ => False

variable {granted : Prop} {t : JournalThread} {id : Nat}

theorem Owes.has (h : t.Owes granted id) : t.Has id := by
  unfold Owes at h
  split at h
  · exact h.1
  · exact h
  · exact h
  · exact h
  · exact Or.inr h
  · exact h.1
  · exact h.1
  · exact h.elim

theorem Has.owes (h : t.Has id) (parked : t.phase = .parked → .pending id ∈ t.queue)
    (running : ∀ panicked, t.phase ≠ .ended panicked) : t.Owes False id := by
  unfold Owes
  split
  · exact ⟨h, nofun⟩
  · exact h
  · exact h
  · exact h
  · next phase => exact parked phase
  · exact ⟨h, nofun⟩
  · exact ⟨h, nofun⟩
  · next panicked phase => exact running panicked phase

theorem Owes.running (h : t.Owes granted id) (panicked : Bool) : t.phase ≠ .ended panicked := by
  intro phase
  rw [Owes, phase] at h
  exact h

theorem Owes.parked (h : t.Owes granted id) (phase : t.phase = .parked) :
    .pending id ∈ t.queue := by
  rw [Owes, phase] at h
  exact h

theorem Owes.stay (h : t.Owes granted id) {t' : JournalThread} (phase : t'.phase = t.phase)
    (batch : t'.batch = t.batch) (queue : ∀ id, .pending id ∈ t.queue → .pending id ∈ t'.queue) :
    t'.Owes False id := by
  refine Has.owes ?_ (fun parked => ?_) (fun panicked => ?_)
  · exact h.has.imp (fun hbatch => batch ▸ hbatch) (queue id)
  · exact queue id (h.parked (phase ▸ parked))
  · rw [phase]
    exact h.running panicked

end JournalThread

namespace Storage

variable {σ : Type} {s s' : Storage σ} {t : JournalThread} {x : Option Event} {granted : Prop}
  {id : Nat}

inductive Due (granted : Prop) (s : Storage σ) (id : Nat) : Prop
  | known (o : Outcome) (outcome : s.completions.outcome? id = some o)
  | owed {t : JournalThread} (thread : s.thread = some t) (pending : s.completions.Pending id)
      (place : t.Owes granted id)

theorem known_dropAll {cs : Completions} {ids : List Nat} (pending : cs.Pending id)
    (hid : id ∈ ids) : ∃ o, (cs.dropAll ids).outcome? id = some o := by
  induction ids generalizing cs with
  | nil => cases hid
  | cons first ids ih =>
    rw [Completions.dropAll_cons]
    by_cases hfirst : first = id
    · have hdropped : (cs.drop first).outcome? id = some (.error .shuttingDown) := by
        rw [hfirst, Completions.drop_eq, Completions.outcome?_resolve pending, if_pos rfl]
      exact ⟨_, Completions.outcome?_dropAll_of_known hdropped ids⟩
    · have hrest : id ∈ ids := (List.mem_cons.1 hid).resolve_left (Ne.symm hfirst)
      exact ih (pending.resolve hfirst _) hrest

/-- When the thread ends the outcomes of all that it has are known. -/
theorem due_finish (pending : s.completions.Pending id) (has : t.Has id) (panicked : Bool) :
    Due granted (s.finish t panicked) id := by
  have hid : id ∈ t.batch ++ t.queue.filterMap JournalMessage.id? := by
    cases has with
    | inl hbatch => exact List.mem_append_left _ hbatch
    | inr hqueue => exact List.mem_append_right _ (List.mem_filterMap.2 ⟨_, hqueue, rfl⟩)
  obtain ⟨o, ho⟩ := known_dropAll pending hid
  exact .known o ho

theorem has_take {first : Nat} {queue : List JournalMessage}
    (next : t.queue = .pending first :: queue) (h : t.Has id) (phase : JournalPhase) :
    ({ t with queue, batch := t.batch ++ [first], phase } : JournalThread).Has id := by
  simp only [JournalThread.Has, next, List.mem_cons, JournalMessage.pending.injEq] at h
  simp only [JournalThread.Has, List.mem_append, List.mem_singleton]
  rcases h with hbatch | hid | hlater
  · exact Or.inl (Or.inl hbatch)
  · exact Or.inl (Or.inr hid)
  · exact Or.inr hlater

theorem has_pass {queue : List JournalMessage} (next : t.queue = .shutdown :: queue) (h : t.Has id)
    (phase : JournalPhase) : ({ t with queue, phase } : JournalThread).Has id := by
  simpa [JournalThread.Has, next] using h

variable [Engine σ]

theorem due_commit (phase : t.phase = .syncing) (pending : s.completions.Pending id)
    (place : t.Owes granted id) : Due granted (s.commit t).2 id := by
  have hplace : ∀ o, ({ t with phase := .settling o false } : JournalThread).Owes granted id := by
    intro o
    rw [JournalThread.Owes, phase] at place
    exact place
  rw [commit]
  rcases Engine.sync (s.engine, s.host) with ⟨ending, engine, host⟩
  cases ending with
  | synced => exact .owed rfl pending (hplace _)
  | failed cause => exact .owed rfl pending (hplace _)
  | died => exact due_finish (s := { s with engine, host }) pending place.has true

theorem Due.turn (h : Due granted s id) (ht : s.thread = some t) (hturn : Turn s t x s') :
    Due granted s' id := by
  cases h with
  | known o outcome => exact .known o (hturn.lasting.outcome? id o outcome)
  | owed thread pending place =>
    cases ht.symm.trans thread
    have hhas := place.has
    cases hturn with
    | permit phase granted => exact .owed rfl pending hhas
    | take phase next => exact .owed rfl pending (has_take next hhas .draining)
    | stop phase next => exact .owed rfl pending (has_pass next hhas .abandoning)
    | park phase next idle => simp [JournalThread.Has, next, idle] at hhas
    | gather phase next busy =>
      have hbatch : id ∈ t.batch := by simpa [JournalThread.Has, next] using hhas
      exact .owed rfl pending ⟨hhas, fun _ => hbatch⟩
    | sync phase => exact due_commit phase pending place
    | settle phase next =>
      rename_i outcome last first batch
      by_cases hid : first = id
      · refine .known outcome ?_
        rw [hid, Completions.outcome?_resolve pending, if_pos rfl]
      · have hmem : id ∈ t.batch → id ∈ batch := by
          rw [next]
          exact fun hin => (List.mem_cons.1 hin).resolve_left (Ne.symm hid)
        refine .owed rfl (pending.resolve hid _) ?_
        rw [JournalThread.Owes, phase] at place
        cases last with
        | false => exact ⟨place.1.imp_left hmem, fun hgranted => hmem (place.2 hgranted)⟩
        | true => exact place.imp_left hmem
    | again phase next =>
      rw [JournalThread.Owes, phase] at place
      refine .owed rfl pending ⟨hhas, fun hgranted => absurd (place.2 hgranted) ?_⟩
      simp [next]
    | leave phase next => exact due_finish pending hhas false
    | collect phase next => exact .owed rfl pending (has_take next hhas .abandoning)
    | skip phase next => exact .owed rfl pending (has_pass next hhas .abandoning)
    | giveUp phase next =>
      obtain ⟨hthread, -, hcompletions, -⟩ := s.abandon_state t
      exact .owed hthread (hcompletions ▸ pending) hhas

theorem Due.settle (h : Due granted s id) : Due granted s.settle id :=
  run_turns (P := fun s => Due granted s id) (fun ht hturn hs => hs.turn ht hturn) _ h

theorem Due.rest (h : Due granted s id) (hrest : s.advance = none) :
    (∃ o, s.completions.outcome? id = some o) ∨ ∃ t, s.thread = some t ∧ t.phase = .acquiring ∧
      t.permits.acquire = none ∧ s.completions.Pending id ∧ t.Owes granted id := by
  cases h with
  | known o outcome => exact Or.inl ⟨o, outcome⟩
  | owed thread pending place =>
    rename_i t
    rcases rests_or_turn thread with ⟨hrests, -, -⟩ | ⟨s', hsome, -⟩
    · cases hrests with
      | permit phase none_left => exact Or.inr ⟨t, thread, phase, none_left, pending, place⟩
      | message phase empty =>
        have hqueue := place.parked phase
        simp [empty] at hqueue
      | ended panicked phase => exact absurd phase (place.running panicked)
    · cases hrest.symm.trans hsome

theorem acquire_grant (p : PermitSource) : p.grant.acquire ≠ none := by
  cases p <;> simp [PermitSource.grant, PermitSource.acquire]

/-- A wait ends with an outcome that is known then. -/
theorem await_due (h : Due False s id) :
    (s.await id).2.completions.outcome? id = some (s.await id).1 := by
  rcases h.settle.rest (advance_settle s) with
    ⟨o, hknown⟩ | ⟨t, ht, hphase, -, hpending, hplace⟩
  · rw [await]
    simp [hknown]
  · have hthread : s.settle.grant.thread = some { t with permits := t.permits.grant } := by
      simp [grant, withPermits, ht]
    have howes : ({ t with permits := t.permits.grant } : JournalThread).Owes True id := by
      rw [JournalThread.Owes, hphase]
      exact ⟨hplace.has, fun _ => acquire_grant _⟩
    have hgranted : Due True s.settle.grant id := .owed hthread hpending howes
    rcases hgranted.settle.rest (advance_settle _) with
      ⟨o, hknown⟩ | ⟨t', -, hphase', hnone, -, hplace'⟩
    · rw [await]
      simp [hpending.outcome?, hknown]
    · rw [JournalThread.Owes, hphase'] at hplace'
      exact absurd hnone (hplace'.2 trivial)

inductive Tracked (s : Storage σ) (id : Nat) : Prop
  | sending {t : JournalThread} (thread : s.thread = some t) (pending : s.completions.Pending id)
      (caller : id ∈ s.sending.map (·.1))
  | due (due : Due False s id)

omit [Engine σ] in
theorem known_or_pending (pending : s.completions.Pending id) (ids : List Nat) :
    (∃ o, (s.completions.dropAll ids).outcome? id = some o) ∨
      (s.completions.dropAll ids).Pending id := by
  by_cases hid : id ∈ ids
  · exact Or.inl (known_dropAll pending hid)
  · exact Or.inr (pending.dropAll hid)

theorem tracked_turn (hturn : Turn s t x s') (pending : s.completions.Pending id)
    (caller : id ∈ s.sending.map (·.1)) : Tracked s' id := by
  have hfinish : ∀ (s : Storage σ) (panicked : Bool), s.completions.Pending id →
      id ∈ s.sending.map (·.1) → Tracked (s.finish t panicked) id := by
    intro s panicked pending caller
    rcases known_or_pending pending (t.batch ++ t.queue.filterMap JournalMessage.id?) with
      ⟨o, hknown⟩ | hpending
    · exact .due (.known o hknown)
    · exact .sending rfl hpending caller
  cases hturn with
  | sync phase =>
    rw [commit]
    rcases Engine.sync (s.engine, s.host) with ⟨ending, engine, host⟩
    cases ending with
    | synced => exact .sending rfl pending caller
    | failed cause => exact .sending rfl pending caller
    | died => exact hfinish { s with engine, host } true pending caller
  | settle phase next =>
    rename_i outcome last first batch
    by_cases hid : first = id
    · refine .due (.known outcome ?_)
      rw [hid, Completions.outcome?_resolve pending, if_pos rfl]
    · exact .sending rfl (pending.resolve hid _) caller
  | leave phase next => exact hfinish s false pending caller
  | giveUp phase next =>
    obtain ⟨hthread, hsending, hcompletions, -⟩ := s.abandon_state t
    exact .sending hthread (hcompletions ▸ pending) (hsending ▸ caller)
  | _ => exact .sending rfl pending caller

omit [Engine σ] in
theorem Due.push (h : Due False s id) (ht : s.thread = some t) (message : JournalMessage) :
    Due False { s with thread := some { t with queue := t.queue ++ [message] } } id := by
  cases h with
  | known o outcome => exact .known o outcome
  | owed thread pending place =>
    cases ht.symm.trans thread
    exact .owed rfl pending (place.stay rfl rfl fun _ => List.mem_append_left _)

omit [Engine σ] in
theorem tracked_send (h : Tracked s id) (other : Nat) : Tracked (s.send other) id := by
  rw [send]
  cases hlookup : s.sending.lookup other with
  | none => exact h
  | some key =>
    cases ht : s.thread with
    | none => exact h
    | some t =>
      have hkept : id ≠ other → id ∈ s.sending.map (·.1) →
          id ∈ (s.sending.filter fun w => w.1 != other).map (·.1) := by
        intro hne hin
        obtain ⟨w, hw, rfl⟩ := List.mem_map.1 hin
        exact List.mem_map_of_mem (List.mem_filter.2 ⟨hw, by simpa using hne⟩)
      dsimp only
      split
      · next panicked phase =>
        -- The thread has ended, and the resolver of the other write is lost.
        cases h with
        | sending thread pending caller =>
          by_cases hid : id = other
          · refine .due (.known (.error .shuttingDown) ?_)
            rw [← hid]
            simp only [note, Completions.drop_eq]
            rw [Completions.outcome?_resolve pending, if_pos rfl]
          · exact .sending rfl (pending.resolve (Ne.symm hid) _) (hkept hid caller)
        | due due =>
          cases due with
          | known o outcome =>
            exact .due (.known o (Completions.outcome?_resolve_of_known outcome other _))
          | owed thread pending place =>
            cases ht.symm.trans thread
            exact absurd phase (place.running panicked)
      · next running =>
        cases h with
        | sending thread pending caller =>
          by_cases hid : id = other
          · have hqueue : JournalMessage.pending id ∈ t.queue ++ [.pending other] := by simp [hid]
            exact .due (.owed rfl pending (JournalThread.Has.owes (Or.inr hqueue) (fun _ => hqueue)
              running))
          · exact .sending rfl pending (hkept hid caller)
        | due due =>
          have hdue :
              Due False { s with sending := s.sending.filter fun w => w.1 != other } id := by
            cases due with
            | known o outcome => exact .known o outcome
            | owed thread pending place => exact .owed thread pending place
          exact .due (hdue.push ht _)

omit [Engine σ] in
theorem tracked_shutdown (h : Tracked s id) : Tracked s.requestShutdown id := by
  rw [requestShutdown]
  cases ht : s.thread with
  | none => exact h
  | some t =>
    dsimp only
    split
    · exact h
    · cases h with
      | sending thread pending caller => exact .sending rfl pending caller
      | due due => exact .due (due.push ht _)

omit [Engine σ] in
theorem tracked_permits (h : Tracked s id) (change : PermitSource → PermitSource) :
    Tracked (s.withPermits change) id := by
  have hthread : ∀ t, s.thread = some t →
      (s.withPermits change).thread = some { t with permits := change t.permits } := by
    intro t ht
    rw [withPermits, ht]
    rfl
  cases h with
  | sending thread pending caller => exact .sending (hthread _ thread) pending caller
  | due due =>
    cases due with
    | known o outcome => exact .due (.known o outcome)
    | owed thread pending place =>
      exact .due (.owed (hthread _ thread) pending (place.stay rfl rfl fun _ h => h))

omit [Engine σ] in
theorem Tracked.add (h : Tracked s id) (c : Completion.Cell) (thread : s'.thread = s.thread)
    (completions : s'.completions = (s.completions.add c).2) (sending : s.sending ⊆ s'.sending) :
    Tracked s' id := by
  cases h with
  | sending ht pending caller =>
    refine .sending (thread.trans ht) (completions ▸ pending.add c) ?_
    obtain ⟨w, hw, rfl⟩ := List.mem_map.1 caller
    exact List.mem_map_of_mem (sending hw)
  | due due =>
    cases due with
    | known o outcome =>
      exact .due (.known o (completions ▸ Completions.outcome?_add_of_known outcome c))
    | owed ht pending place =>
      exact .due (.owed (thread.trans ht) (completions ▸ pending.add c) place)

theorem tracked_apply (h : Tracked s id) (key : Key) (value : Bytes) :
    Tracked (s.apply key value).2 id := by
  rw [apply, applyShown]
  cases Engine.put key value (s.engine, s.host) with
  | error cause w => exact h.add _ rfl rfl (List.Subset.refl _)
  | ok u w =>
    dsimp only
    cases ht : s.thread with
    | none => exact h.add _ ht.symm rfl (List.Subset.refl _)
    | some t => exact h.add _ ht.symm rfl (List.subset_append_left _ _)

/-- No move loses track of a write. -/
theorem Tracked.act (h : Tracked s id) (deed : Deed) : Tracked (s.act deed) id := by
  cases deed with
  | apply key value => exact tracked_apply h key value
  | send other => exact tracked_send h other
  | permits change => exact tracked_permits h change
  | shutdown => exact tracked_shutdown h
  | advance =>
    cases ht : s.thread with
    | none =>
      rw [(act_without_thread ht).1]
      exact h
    | some t =>
      rcases act_advance ht with ⟨-, hsame, -⟩ | hturn
      · rw [hsame]
        exact h
      · cases h with
        | sending thread pending caller => exact tracked_turn hturn pending caller
        | due due => exact .due (due.turn ht hturn)

end Storage

end LedgerStore
