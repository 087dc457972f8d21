import LedgerStore.Proofs.Engine.Reliable
import LedgerStore.Proofs.Storage.Owed

/-!
A write path in service: its engine can be relied on and its journal thread is not told to stop. The
main statements say that it stays so whatever the journal thread does, that it applies the writes
that are admitted, and that a wait for such a write ends well.
-/

set_option autoImplicit false

namespace LedgerStore

/-- What a journal thread can be about to do if no sync fails and it is not told to stop. -/
def JournalPhase.Serves : JournalPhase → Prop
  | settling outcome last => outcome = .ok () ∧ last = false
  | abandoning => False
  | ended _ => False
  | _ => True

namespace JournalThread

structure Serves (t : JournalThread) : Prop where
  queue : .shutdown ∉ t.queue
  phase : t.phase.Serves

theorem Serves.running {t : JournalThread} (h : t.Serves) (panicked : Bool) :
    t.phase ≠ .ended panicked := by
  intro phase
  have hserves := h.phase
  rw [phase] at hserves
  exact hserves

end JournalThread

namespace Storage

variable {σ : Type} [Engine σ] {R : Reliable σ} {n : Nat} {m : Contents} {s s' : Storage σ}
  {t : JournalThread} {x : Option Event} {id : Nat}

/-- A write path whose engine holds these entries and is good for so many puts, between the calls of
its callers. -/
structure Ready (R : Reliable σ) (n : Nat) (m : Contents) (s : Storage σ) : Prop where
  engine : R.Holds n m (s.engine, s.host)
  sent : s.sending = []
  thread : ∀ t, s.thread = some t → t.Serves

structure Awaited (s : Storage σ) (id : Nat) : Prop where
  due : Due False s id
  good : ∀ o, s.completions.outcome? id = some o → o = .ok ()

theorem Ready.note (h : Ready R n m s) (line : LogLine) : Ready R n m (s.note line) :=
  ⟨R.note h.engine line, h.sent, h.thread⟩

theorem Ready.permits (h : Ready R n m s) (change : PermitSource → PermitSource) :
    Ready R n m (s.withPermits change) where
  engine := h.engine
  sent := h.sent
  thread t ht := by
    obtain ⟨t', ht', rfl⟩ := Option.map_eq_some_iff.1 ht
    exact ⟨(h.thread t' ht').queue, (h.thread t' ht').phase⟩

theorem commit_synced (hsync : (Engine.sync (s.engine, s.host)).1 = .synced) (t : JournalThread) :
    ∃ line stats, (s.commit t).2 =
      { s with
        engine := (Engine.sync (s.engine, s.host)).2.1
        host := (Engine.sync (s.engine, s.host)).2.2.note line
        thread := some { t with phase := .settling (.ok ()) false }
        stats } := by
  rw [commit]
  revert hsync
  rcases Engine.sync (s.engine, s.host) with ⟨ending, engine, host⟩
  rintro ⟨⟩
  exact ⟨_, _, rfl⟩

theorem Ready.turn (h : Ready R n m s) (ht : s.thread = some t) (hturn : Turn s t x s') :
    Ready R n m s' := by
  obtain ⟨hqueue, hphase⟩ := h.thread t ht
  have hnext : ∀ t' : JournalThread, t'.Serves → ∀ t, some t' = some t → t.Serves := by
    rintro t' ht' _ ⟨⟩
    exact ht'
  cases hturn with
  | permit phase granted => exact ⟨h.engine, h.sent, hnext _ ⟨hqueue, trivial⟩⟩
  | take phase next =>
    rw [next] at hqueue
    exact ⟨h.engine, h.sent, hnext _ ⟨fun hin => hqueue (List.mem_cons_of_mem _ hin), trivial⟩⟩
  | stop phase next =>
    rw [next] at hqueue
    exact absurd List.mem_cons_self hqueue
  | park phase next idle => exact ⟨h.engine, h.sent, hnext _ ⟨hqueue, trivial⟩⟩
  | gather phase next busy => exact ⟨h.engine, h.sent, hnext _ ⟨hqueue, trivial⟩⟩
  | sync phase =>
    obtain ⟨hsynced, hholds⟩ := R.sync h.engine
    obtain ⟨line, stats, hcommit⟩ := commit_synced hsynced t
    rw [hcommit]
    exact ⟨R.note hholds line, h.sent, hnext _ ⟨hqueue, rfl, rfl⟩⟩
  | settle phase next =>
    rw [phase] at hphase
    exact ⟨h.engine, h.sent, hnext _ ⟨hqueue, hphase⟩⟩
  | again phase next => exact ⟨h.engine, h.sent, hnext _ ⟨hqueue, trivial⟩⟩
  | _ =>
    rename_i phase _
    simp [phase, JournalPhase.Serves] at hphase

theorem Ready.good_turn (h : Ready R n m s) (ht : s.thread = some t) (hturn : Turn s t x s')
    (hgood : ∀ o, s.completions.outcome? id = some o → o = .ok ()) :
    ∀ o, s'.completions.outcome? id = some o → o = .ok () := by
  obtain ⟨hqueue, hphase⟩ := h.thread t ht
  cases hturn with
  | permit phase granted => exact hgood
  | take phase next => exact hgood
  | stop phase next =>
    rw [next] at hqueue
    exact absurd List.mem_cons_self hqueue
  | park phase next idle => exact hgood
  | gather phase next busy => exact hgood
  | sync phase =>
    obtain ⟨line, stats, hcommit⟩ := commit_synced (R.sync h.engine).1 t
    rw [hcommit]
    exact hgood
  | settle phase next =>
    rw [phase] at hphase
    intro o ho
    rcases Completions.outcome?_of_resolve ho with hold | hnew
    · exact hgood o hold
    · rw [hnew, hphase.1]
  | again phase next => exact hgood
  | _ =>
    rename_i phase _
    simp [phase, JournalPhase.Serves] at hphase

theorem Ready.settle (h : Ready R n m s) : Ready R n m s.settle :=
  run_turns (fun ht hturn hs => hs.turn ht hturn) _ h

theorem Ready.good_settle (h : Ready R n m s)
    (hgood : ∀ o, s.completions.outcome? id = some o → o = .ok ()) :
    ∀ o, s.settle.completions.outcome? id = some o → o = .ok () := by
  have hturn : ∀ {s s' : Storage σ} {t x}, s.thread = some t → Turn s t x s' →
      (Ready R n m s ∧ ∀ o, s.completions.outcome? id = some o → o = .ok ()) →
      Ready R n m s' ∧ ∀ o, s'.completions.outcome? id = some o → o = .ok () :=
    fun ht hturn hs => ⟨hs.1.turn ht hturn, hs.1.good_turn ht hturn hs.2⟩
  exact (run_turns hturn _ ⟨h, hgood⟩).2

theorem Ready.advance (h : Ready R n m s) : Ready R n m (s.act .advance) := by
  cases ht : s.thread with
  | none =>
    rw [(act_without_thread ht).1]
    exact h
  | some t =>
    rcases act_advance ht with ⟨-, hsame, -⟩ | hturn
    · rw [hsame]
      exact h
    · exact h.turn ht hturn

theorem await_known (h : Ready R n m s) {o : Outcome} (ho : s.completions.outcome? id = some o) :
    (s.await id).1 = o ∧ Ready R n m (s.await id).2 := by
  rw [await_of_known ho]
  exact ⟨rfl, h.settle⟩

/-- A wait for a write that is to be settled ends well. -/
theorem await_ready (h : Ready R n m s) (hid : Awaited s id) :
    (s.await id).1 = .ok () ∧ Ready R n m (s.await id).2 := by
  have hsettled := h.good_settle hid.good
  have hafter : Ready R n m (s.await id).2 ∧
      ∀ o, (s.await id).2.completions.outcome? id = some o → o = .ok () := by
    rw [await]
    dsimp only
    split
    · exact ⟨h.settle, hsettled⟩
    · have hgranted := h.settle.permits PermitSource.grant
      exact ⟨hgranted.settle, hgranted.good_settle hsettled⟩
  exact ⟨hafter.2 _ (await_due hid.due), hafter.1⟩

theorem Ready.spares (h : Ready R n m s) {k : Nat} (hle : k ≤ n) : Ready R k m s :=
  ⟨R.spares hle h.engine, h.sent, h.thread⟩

theorem ready_start {e : σ} {host : Host} (h : R.Holds n m (e, host)) (batching : Bool)
    (permits : PermitSource) (completions : Completions) :
    Ready R n m (start e host batching permits completions) where
  engine := h
  sent := rfl
  thread t ht := by
    cases batching with
    | false => cases ht
    | true =>
      cases ht
      exact ⟨nofun, trivial⟩

omit [Engine σ] in
theorem send_nothing (h : s.sending = []) (id : Nat) : s.send id = s := by
  simp [send, h]

omit [Engine σ] in
theorem send_serving (ht : s.thread = some t) (hserves : t.Serves) {key : Key}
    (hsending : s.sending = [(id, key)]) :
    s.send id =
      { s with sending := [], thread := some { t with queue := t.queue ++ [.pending id] } } := by
  obtain ⟨queue, batch, phase, permits⟩ := t
  have hphase : phase.Serves := hserves.phase
  cases phase with
  | ended panicked => cases hphase
  | _ => simp [send, ht, hsending]

/-- A put is refused at once, or it is applied and will be settled well. -/
theorem put_ready (h : Ready R (n + 1) m s) (key : Key) {value : Bytes}
    (hvalue : value.length < 2 ^ 31) :
    if R.admits value then
      Ready R n (m.put ⟨key, value⟩) (s.put key value).2 ∧
        Awaited (s.put key value).2 (s.put key value).1
    else Ready R n m (s.put key value).2 ∧ ∃ cause,
      (s.put key value).2.completions.outcome? (s.put key value).1 = some (.error cause) := by
  have hrun := R.put key hvalue (s.engine, s.host) h.engine
  rw [put, apply, applyShown]
  revert hrun
  cases Engine.put key value (s.engine, s.host) with
  | error cause w =>
    rintro ⟨hadmits, hholds⟩
    simp only [hadmits, Bool.false_eq_true, if_false]
    rw [send_nothing (by exact h.sent)]
    refine ⟨⟨R.note hholds _, h.sent, h.thread⟩, .applyFailed key cause.message, ?_⟩
    simp [answer, Completions.ready, Completions.outcome?_add, Completion.Cell.ready, Storage.note]
  | ok u w =>
    rintro ⟨hadmits, hholds⟩
    simp only [hadmits, if_true]
    cases ht : s.thread with
    | none =>
      dsimp only
      rw [send_nothing (by exact h.sent)]
      have hknown : (s.completions.add (.ready (.ok ()))).2.outcome? s.completions.cells.length =
          some (.ok ()) := by simp [Completions.outcome?_add, Completion.Cell.ready]
      refine ⟨⟨hholds, h.sent, ?_⟩, .known _ hknown, fun o ho => ?_⟩
      · rintro _ ⟨⟩
      · exact Option.some.inj (ho.symm.trans hknown)
    | some t =>
      have hserves := h.thread t ht
      dsimp only
      rw [send_serving rfl hserves (by rw [h.sent]; rfl)]
      have hpending : (s.completions.pair).2.Pending s.completions.pair.1 := by
        simp [Completions.Pending, Completions.pair, Completions.cell_add]
      have hqueue : JournalMessage.pending s.completions.pair.1 ∈
          t.queue ++ [.pending s.completions.pair.1] := by simp
      have howes := JournalThread.Has.owes
        (t := { t with queue := t.queue ++ [.pending s.completions.pair.1] }) (Or.inr hqueue)
        (fun _ => hqueue) hserves.running
      refine ⟨⟨hholds, rfl, ?_⟩, .owed rfl hpending howes, fun o ho => ?_⟩
      · rintro _ ⟨⟩
        exact ⟨by simp [hserves.queue], hserves.phase⟩
      · cases hpending.outcome?.symm.trans ho

end Storage

end LedgerStore
