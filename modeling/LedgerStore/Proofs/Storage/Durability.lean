import LedgerStore.Proofs.Storage.Service

set_option autoImplicit false

namespace LedgerStore.Service

open Storage

/-- The engine has the writes of the good completions: it answers each of their keys with the value
of that write or of a later one. -/
structure Recovered (w : Service) (e : EntryLog) : Prop where
  named : ∀ id, w.completions.outcome? id = some (.ok ()) → id ∈ w.history.map (·.1)
  latest : ∀ i id (r : Record), w.history[i]? = some (id, r) →
    w.completions.outcome? id = some (.ok ()) →
    ∃ (j id' : Nat) (r' : Record), i ≤ j ∧ w.history[j]? = some (id', r') ∧ r'.key = r.key ∧
      Engine.get e r.key = .ok (some r'.value)

/-- The next service on the same machine: a crash, and an opening without faults. -/
def reopen (config : Config) (w : Service) (keep : Nat → Nat) : Service :=
  (w.step config (.crash keep)).step config (.start [])

theorem reopen_keeps (config : Config) (w : Service) (keep : Nat → Nat) :
    (w.reopen config keep).completions = w.completions ∧
      (w.reopen config keep).history = w.history := by
  simp only [reopen, step]
  split
  · exact ⟨rfl, rfl⟩
  · exact ⟨rfl, rfl⟩

variable {s : Site} {a : Archive} {n : Nat} {w : Service} {st : Storage EntryLog}

theorem Stands.recovered (h : Stands s a n w) (hst : w.storage = some st) :
    Recovered w st.engine where
  named := h.named
  latest i id r hi ho := by
    obtain ⟨x, hx, hle⟩ := (h.good i id r hi ho).last h.tells
    obtain ⟨hmem, hkey⟩ := Write.last?_eq_some hx
    -- The stamp of a write is its place in the history.
    have hgenuine := h.tells.genuine x hmem
    rw [List.getElem?_map, Option.map_eq_some_iff] at hgenuine
    obtain ⟨⟨id', r'⟩, hj, hrecord⟩ := hgenuine
    have hrecord : r' = x.record := hrecord
    have hindex : st.engine.index = a.index := ((h.running st hst).2.busy []).works.disk.1.index
    refine ⟨x.stamp, id', r', hle, hj, by rw [hrecord, hkey], ?_⟩
    change Except.ok (st.engine.index.get? r.key) = _
    rw [hindex, Archive.get?_index, hx, hrecord]
    rfl

theorem stands_reopen (h : Stands s a n w) (hsync : s.config.syncEveryWrite = true)
    (hn : n + 1 < FileName.sequenceBound) (keep : Nat → Nat) :
    ∃ a' st, Stands s a' (n + 2) (w.reopen s.config keep) ∧
      (w.reopen s.config keep).storage = some st := by
  have hcrash : (Happening.crash keep).Fair := trivial
  obtain ⟨a₁, h₁⟩ := stands_step h hsync (by omega) hcrash
  obtain ⟨a', h', hcalm⟩ := stands_start h₁ rfl hsync hn []
  obtain ⟨st, hst⟩ := hcalm rfl
  exact ⟨a', st, h', hst⟩

/-- Acknowledged writes are never lost. After every run an open engine has the writes of the good
completions, and so has the engine that an opening without faults gives after one more crash. -/
theorem recovered_run {d : Disk} (hd : s.Vacant d) (hsync : s.config.syncEveryWrite = true)
    (happenings : List Happening) (hfair : ∀ x ∈ happenings, x.Fair)
    (hn : happenings.length + 1 < FileName.sequenceBound) :
    (∀ st, (run s.config d happenings).storage = some st →
        Recovered (run s.config d happenings) st.engine) ∧
      ∀ keep, ∃ st, ((run s.config d happenings).reopen s.config keep).storage = some st ∧
        Recovered (run s.config d happenings) st.engine := by
  obtain ⟨a, h⟩ := stands_run hd hsync happenings hfair (by omega)
  refine ⟨fun st hst => h.recovered hst, fun keep => ?_⟩
  obtain ⟨a', st, h', hst⟩ := stands_reopen h hsync hn keep
  obtain ⟨hcompletions, hhistory⟩ :=
    reopen_keeps s.config (run s.config d happenings) keep
  have hrecovered := h'.recovered hst
  refine ⟨st, hst, ?_, ?_⟩
  · rw [← hcompletions, ← hhistory]
    exact hrecovered.named
  · rw [← hcompletions, ← hhistory]
    exact hrecovered.latest

theorem recovered_run_small :
    let happenings : List Happening :=
      [.start [.clear, .refuse "busy"], .start [], .deed (.apply ⟨1, 2⟩ [7]) [], .deed (.send 0) [],
        .save .begin [], .deed .advance [], .deed .advance [], .deed .advance [],
        .deed .advance [], .deed .advance [], .save .whole [.refuse "full"], .crash fun _ => 0]
    (∀ x ∈ happenings, x.Fair) ∧
      (run Site.small.config Site.smallDisk happenings).completions.outcome? 0 = some (.ok ()) ∧
      ∃ st, ((run Site.small.config Site.smallDisk happenings).reopen Site.small.config
          fun _ => 0).storage = some st ∧
        Recovered (run Site.small.config Site.smallDisk happenings) st.engine := by
  intro happenings
  have hfair : ∀ x ∈ happenings, x.Fair := by simp [happenings, Happening.Fair]
  have hn : happenings.length + 1 < FileName.sequenceBound := by decide
  have hgood : (run Site.small.config Site.smallDisk happenings).completions.outcome? 0 =
      some (.ok ()) := by decide +kernel
  exact ⟨hfair, hgood, (recovered_run Site.small_vacant rfl happenings hfair hn).2 fun _ => 0⟩

end LedgerStore.Service
