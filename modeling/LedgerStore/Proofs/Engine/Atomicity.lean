import LedgerStore.Proofs.Engine.Refinement

set_option autoImplicit false

namespace LedgerStore

namespace Life

open Checkpoint

variable {s : Site} {a : Archive} {n : Nat} {l : Life} {e : EntryLog}

theorem stands_accept (h : Stands s a n l) (he : l.engine = some e)
    (hn : n < FileName.sequenceBound) (key : Key) {value : Bytes} (hvalue : value.length < 2 ^ 31)
    (hsize : value.length ≤ s.config.maxValueSize) :
    ∃ a' e', Stands s a' (n + 1) (l.step s.config (.put key value [])) ∧
      (l.step s.config (.put key value [])).engine = some e' ∧
      (l.step s.config (.put key value [])).accepted = l.accepted ++ [⟨key, value⟩] ∧
      e'.index = e.index.insert key value := by
  have hfair : (Move.put key value []).Fair := ⟨hvalue, nofun⟩
  obtain ⟨a', h', hput⟩ := stands_put h he hn hfair
  have hthere : ∃ e', (l.operate e (.put key value [])).engine = some e' := by
    simp only [operate]
    split <;> exact ⟨_, rfl⟩
  obtain ⟨e', he'⟩ := hthere
  simp only [step, he]
  rcases hput with ⟨haccepted, hindex⟩ | ⟨-, -, hrefused⟩
  · exact ⟨a', e', h', he', haccepted, by rw [h'.index he', hindex, h.index he]⟩
  · have := hrefused rfl
    omega

/-- After every run, the process may end wherever a checkpoint is, with any bytes in its unfinished
file: the next opening gives the same index. Checkpoints keep the index of the engine whatever faults
they meet, and puts are accepted and recovered afterwards. The sequences of the checkpoints that end
well increase. -/
theorem atomic_run {d : Disk} (hd : s.Vacant d) (moves : List Move)
    (hfair : ∀ m ∈ moves, m.Fair) (hn : moves.length + 2 < FileName.sequenceBound) :
    (run s.config d moves).saved.Pairwise (· < ·) ∧
      ∀ e, (run s.config d moves).engine = some e →
        (∀ leftover, ∃ e', ((run s.config d moves).reopen s.config leftover).engine = some e' ∧
          e'.index = e.index) ∧
        (∀ part faults, ∃ e', ((run s.config d moves).step s.config (.save part faults)).engine =
          some e' ∧ e'.index = e.index) ∧
        ∀ key value, value.length < 2 ^ 31 → value.length ≤ s.config.maxValueSize →
          ∃ l', (run s.config d moves).step s.config (.put key value []) = l' ∧
            l'.accepted = (run s.config d moves).accepted ++ [⟨key, value⟩] ∧
            (∃ e', l'.engine = some e' ∧ e'.index = e.index.insert key value) ∧
            ∀ leftover, ∃ e', (l'.reopen s.config leftover).engine = some e' ∧
              e'.index = e.index.insert key value := by
  obtain ⟨a, h, -⟩ := stands_run hd moves hfair (by omega)
  refine ⟨h.increasing, fun e he => ⟨fun leftover => ?_, fun part faults => ?_, ?_⟩⟩
  · obtain ⟨a', e', -, he', hindex⟩ := stands_reopen h (by omega) leftover
    exact ⟨e', he', hindex.trans (h.index he).symm⟩
  · obtain ⟨a', h', hindex⟩ := stands_save h he (by omega) part faults
    simp only [step, he]
    exact ⟨_, rfl, by rw [h'.index rfl, hindex, h.index he]⟩
  · intro key value hvalue hsize
    obtain ⟨a', e', h', he', haccepted, hindex⟩ :=
      stands_accept h he (by omega) key hvalue hsize
    refine ⟨_, rfl, haccepted, ⟨e', he', hindex⟩, fun leftover => ?_⟩
    obtain ⟨a'', e'', -, he'', hsame⟩ := stands_reopen h' (by omega) leftover
    exact ⟨e'', he'', by rw [hsame, ← h'.index he', hindex]⟩

/-- A checkpoint fails at its second call, and the process ends in the middle of the next, with some
bytes in the unfinished file. -/
theorem atomic_run_small :
    let front : List Move := [.start [], .put ⟨1, 2⟩ [7] [], .save .whole [.clear, .refuse "full"],
      .save .begin [], .save (.step 0) []]
    let moves := front ++ [.halt (some [0x42, 0x4b]), .start []]
    ∃ e, (run Site.small.config Site.smallDisk moves).engine = some e ∧
      ∀ leftover, ∃ e', ((run Site.small.config Site.smallDisk moves).reopen Site.small.config
        leftover).engine = some e' ∧ e'.index = e.index := by
  intro front moves
  have hfair : ∀ m ∈ moves, m.Fair := by simp [moves, front, Move.Fair]
  have hn : moves.length + 2 < FileName.sequenceBound := by decide
  have hrun := atomic_run Site.small_vacant moves hfair hn
  obtain ⟨a, h, -⟩ := stands_run Site.small_vacant front
    (fun m hm => hfair m (List.mem_append_left _ hm)) (by decide)
  obtain ⟨-, e, -, he, -⟩ := stands_reopen h (by decide) (some [0x42, 0x4b])
  rw [← run_reopen] at he
  exact ⟨e, he, (hrun.2 e he).1⟩

end Life

end LedgerStore
