import LedgerStore.Proofs.Engine.Entries
import LedgerStore.Proofs.Engine.Life

set_option autoImplicit false

namespace LedgerStore

/-- Which entries an engine holds, with the machine beside it, and how many puts it is good for. -/
structure Reliable (σ : Type) [Engine σ] where
  Holds : Nat → Contents → σ × Host → Prop
  admits : Bytes → Bool
  note : ∀ {n m t}, Holds n m t → ∀ line, Holds n m (t.1, t.2.note line)
  spare : ∀ {n m t}, Holds (n + 1) m t → Holds n m t
  get : ∀ {n m t}, Holds n m t → ∀ key, Engine.get t.1 key = .ok (m key)
  sync : ∀ {n m t}, Holds n m t → (Engine.sync t).1 = .synced ∧ Holds n m (Engine.sync t).2
  put : ∀ {n m value} key, value.length < 2 ^ 31 →
    Ensures (Holds (n + 1) m) (Engine.put key value)
      (fun _ t => admits value = true ∧ Holds n (m.put ⟨key, value⟩) t)
      (fun t => admits value = false ∧ Holds n m t)

theorem Reliable.spares {σ : Type} [Engine σ] (R : Reliable σ) {n k : Nat} {m : Contents}
    {t : σ × Host} (hle : n ≤ k) (h : R.Holds k m t) : R.Holds n m t := by
  induction hle with
  | refl => exact h
  | step _ ih => exact ih (R.spare h)

namespace EntryLog

theorem current_turn {a a' : Archive} (h : a.Turn a') :
    a'.current.sequence ≤ a.current.sequence + 1 := by
  cases h with
  | stay => exact Nat.le_succ _
  | sync => simp [Archive.synced, Volume.sync]
  | roll => simp

def Keeps (s : Site) (n : Nat) (m : Contents) (t : EntryLog × Host) : Prop :=
  t.1.index.get? = m ∧ ∃ a, Works (· ∈ ([] : List Fault)) s (fun _ => True) a t ∧
    a.current.sequence + n < FileName.sequenceBound

variable {s : Site} {n : Nat} {m : Contents} {t : EntryLog × Host}

theorem steady_trivial : s.Steady fun _ => True :=
  ⟨fun _ _ _ _ _ _ _ => trivial, fun _ _ _ _ => trivial⟩

theorem keeps_sync (h : Keeps s n m t) :
    (Engine.sync t).1 = .synced ∧ Keeps s n m (Engine.sync t).2 := by
  obtain ⟨hindex, a, hworks, hroom⟩ := h
  have hrun := ensures_syncLog steady_trivial t hworks
  have hentries := index_sync t
  simp only [Engine.sync] at hentries ⊢
  revert hrun hentries
  cases syncLog t with
  | ok u t' =>
    intro hworks' hentries
    refine ⟨rfl, hentries ▸ hindex, a.synced, hworks', ?_⟩
    simpa [Archive.synced, Volume.sync] using hroom
  | error cause t' => exact fun hfailed => absurd Mood.calm_nil hfailed.2

theorem keeps_put {value : Bytes} (key : Key) (hvalue : value.length < 2 ^ 31) :
    Ensures (Keeps s (n + 1) m) (Engine.put key value)
      (fun _ t => decide (value.length ≤ s.config.maxValueSize) = true ∧
        Keeps s n (m.put ⟨key, value⟩) t)
      (fun t => decide (value.length ≤ s.config.maxValueSize) = false ∧ Keeps s n m t) := by
  rintro t ⟨hindex, a, hworks, hroom⟩
  have hrun := ensures_put steady_trivial (fun f hf => nomatch hf)
    (fun _ => (.of_length hvalue : (⟨key, value⟩ : Record).Fits)) (by omega) 0 t hworks
  have hentries := index_put key value t
  have hadmits := put_admits key value t
  rw [hworks.disk.1.writer.limit] at hadmits
  generalize hrun' : Engine.put key value t = ending at hentries hadmits ⊢
  rw [show EntryLog.put key value t = ending from hrun'] at hrun
  cases ending with
  | ok u t' =>
    obtain ⟨a', hturn, hworks'⟩ := hrun
    refine ⟨decide_eq_true hadmits, ?_, a'.add ⟨0, ⟨key, value⟩⟩, hworks', ?_⟩
    · rw [hentries, Index.get?_insert, hindex]
    · have hnext := current_turn hturn
      simp only [Archive.add, Archive.current_amend, Volume.add]
      omega
  | error cause t' =>
    obtain ⟨a', hturn, hworks', hcalm⟩ := hrun
    have hlong := Nat.not_le.2 (hcalm Mood.calm_nil)
    refine ⟨decide_eq_false hlong, hentries ▸ hindex, a', hworks', ?_⟩
    have hnext := current_turn hturn
    omega

def reliable (s : Site) : Reliable EntryLog where
  Holds := Keeps s
  admits value := decide (value.length ≤ s.config.maxValueSize)
  note h line := ⟨h.1, h.2.imp fun _ ha => ⟨ha.1.note line, ha.2⟩⟩
  spare h := ⟨h.1, h.2.imp fun _ ha => ⟨ha.1, by omega⟩⟩
  get h key := congrArg (fun m : Contents => Except.ok (m key)) h.1
  sync := keeps_sync
  put := keeps_put

end EntryLog

/-- After every run an open engine can be relied on, with the entries of its index. -/
theorem Life.reliable_run {s : Site} {d : Disk} (hd : s.Vacant d) (moves : List Move)
    (hfair : ∀ m ∈ moves, m.Fair) {n : Nat} (hn : moves.length + n ≤ FileName.sequenceBound)
    {e : EntryLog} (he : (Life.run s.config d moves).engine = some e) :
    (EntryLog.reliable s).Holds n e.index.get? (e, (Life.run s.config d moves).host.facing []) := by
  obtain ⟨a, h, -⟩ := stands_run hd moves hfair (by omega)
  have hbusy := h.engine e he []
  refine ⟨rfl, a, hbusy.works.imp fun d hd => ⟨hd.1, trivial⟩, ?_⟩
  have hcurrent := h.current_lt he
  omega

end LedgerStore
