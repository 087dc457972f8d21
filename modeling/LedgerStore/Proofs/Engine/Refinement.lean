import LedgerStore.Proofs.Engine.Life

set_option autoImplicit false

namespace LedgerStore

/-- The answers are those of a map: a scan gives the entries of the ledger, each once, in the order
of their entry numbers. -/
structure EntryLog.Answers (e : EntryLog) (m : Contents) : Prop where
  get : ∀ key, Engine.get e key = .ok (m key)
  contains : ∀ key, e.index.contains key = (m key).isSome
  size : ∃ keys : List Key, keys.Nodup ∧ (∀ key, key ∈ keys ↔ (m key).isSome) ∧
    e.index.size = keys.length
  scan : ∀ ledger, ∃ es, Engine.scan e ledger = .ok es ∧
    (es.Pairwise fun x y => x.1.entry < y.1.entry) ∧
    ∀ key value, (key, value) ∈ es ↔ key.ledger = ledger ∧ m key = some value

theorem EntryLog.answers_of_replay {e : EntryLog} {rs : List Record}
    (h : e.index = Index.replay {} rs) : e.Answers (Contents.empty.after rs) := by
  have hget : e.index.get? = Contents.empty.after rs := by
    rw [h, Index.get?_replay, Index.get?_empty]
  exact {
    get key := by
      change Except.ok (e.index.get? key) = _
      rw [hget]
    contains key := by
      rw [Index.contains_eq, hget]
    size := by
      refine ⟨e.index.keys, e.index.keys_nodup, fun key => ?_, e.index.length_keys.symm⟩
      rw [Index.mem_keys, hget]
    scan ledger := by
      refine ⟨e.index.ofLedger ledger, rfl, e.index.ofLedger_increasing ledger, fun key value => ?_⟩
      rw [Index.mem_ofLedger, hget] }

namespace Life

/-- The next life on the same files: the process ends, and an opening without faults follows. -/
def reopen (config : Config) (l : Life) (leftover : Option Bytes) : Life :=
  (l.step config (.halt leftover)).step config (.start [])

theorem run_reopen (config : Config) (d : Disk) (moves : List Move) (leftover : Option Bytes) :
    run config d (moves ++ [.halt leftover, .start []]) =
      (run config d moves).reopen config leftover := by
  simp [run, reopen]

variable {s : Site} {a : Archive} {n : Nat} {l : Life}

theorem stands_reopen (h : Stands s a n l) (hn : n + 1 < FileName.sequenceBound)
    (leftover : Option Bytes) :
    ∃ a' e, Stands s a' (n + 2) (l.reopen s.config leftover) ∧
      (l.reopen s.config leftover).engine = some e ∧ e.index = a.index := by
  have hhalt : Stands s a (n + 1) (l.step s.config (.halt leftover)) ∧
      (l.step s.config (.halt leftover)).engine = none := by
    cases he : l.engine with
    | none =>
      simp only [step, he]
      exact ⟨h.succ, trivial⟩
    | some e =>
      simp only [step, he]
      exact ⟨stands_halt h he leftover, rfl⟩
  obtain ⟨a', hreopen, h', -, hcalm⟩ := stands_start hhalt.1 hhalt.2 hn []
  obtain ⟨e, he⟩ := hcalm rfl
  refine ⟨a', e, h', he, ?_⟩
  rw [h'.index he, Archive.index, Archive.index, hreopen.writes]

/-- After every run without crashes of the machine, an open engine and the engine of the next opening
answer as the map of the accepted puts. -/
theorem answers_run {d : Disk} (hd : s.Vacant d) (moves : List Move)
    (hfair : ∀ m ∈ moves, m.Fair) (hcrash : ∀ m ∈ moves, ∀ keep, m ≠ .crash keep)
    (hn : moves.length + 1 < FileName.sequenceBound) :
    (∀ e, (run s.config d moves).engine = some e →
        e.Answers (Contents.empty.after (run s.config d moves).accepted)) ∧
      ∀ leftover, ∃ e, ((run s.config d moves).reopen s.config leftover).engine = some e ∧
        e.Answers (Contents.empty.after (run s.config d moves).accepted) := by
  obtain ⟨a, h, hindex⟩ := stands_run hd moves hfair (by omega)
  have hreplay := hindex hcrash
  constructor
  · intro e he
    exact EntryLog.answers_of_replay ((h.index he).trans hreplay)
  · intro leftover
    obtain ⟨a', e, -, he, hsame⟩ := stands_reopen h hn leftover
    exact ⟨e, he, EntryLog.answers_of_replay (hsame.trans hreplay)⟩

theorem answers_run_small :
    let moves : List Move :=
      [.start [.clear, .refuse "busy"], .start [], .put ⟨1, 2⟩ [7] [], .save .whole [.refuse "full"]]
    (∀ m ∈ moves, m.Fair) ∧
      ∃ e, ((run Site.small.config Site.smallDisk moves).reopen Site.small.config none).engine =
          some e ∧
        e.Answers (Contents.empty.after (run Site.small.config Site.smallDisk moves).accepted) := by
  intro moves
  have hfair : ∀ m ∈ moves, m.Fair := by simp [moves, Move.Fair]
  have hcrash : ∀ m ∈ moves, ∀ keep, m ≠ .crash keep := by simp [moves]
  have hn : moves.length + 1 < FileName.sequenceBound := by decide
  exact ⟨hfair, (answers_run Site.small_vacant moves hfair hcrash hn).2 none⟩

end Life

end LedgerStore
