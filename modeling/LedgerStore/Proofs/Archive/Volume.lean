import LedgerStore.Index
import LedgerStore.Proofs.Disk.Reach
import LedgerStore.Proofs.FileName
import LedgerStore.Proofs.Record.RoundTrip

/-!
Volumes: files of records as lists of writes, some of which lie in the part of the file that is
permanent. The main statements say what an append, a sync and a crash make of a volume.
-/

set_option autoImplicit false

namespace LedgerStore

/-- A record and its place in the order in which records were written. -/
structure Write where
  stamp : Nat
  record : Record

/-- A file of records. At its end there may be a part of one more record. -/
structure Volume where
  sequence : Nat
  safe : List Write := []
  loose : List Write := []
  tail : Bytes := []

namespace Volume

def writes (v : Volume) : List Write :=
  v.safe ++ v.loose

def records (v : Volume) : List Record :=
  v.writes.map (·.record)

structure Holds (v : Volume) (f : FileData) : Prop where
  bytes : f.bytes = Record.written v.records ++ v.tail
  synced : (Record.written (v.safe.map (·.record))).length ≤ f.synced
  fits : ∀ r ∈ v.records, r.Fits
  torn : Record.Torn v.tail

theorem Holds.scan {v : Volume} {f : FileData} (h : v.Holds f) :
    Record.scan f.bytes = v.records := by
  rw [h.bytes, Record.scan_written h.fits h.torn]

theorem holds_empty (n : Nat) : Holds { sequence := n } {} where
  bytes := rfl
  synced := Nat.le_refl _
  fits r hr := by cases hr
  torn := Record.torn_nil

theorem Holds.nil {v : Volume} {f : FileData} (h : v.Holds f) (hf : f.bytes = []) :
    v.writes = [] ∧ v.tail = [] := by
  have hb := h.bytes
  rw [hf, eq_comm, List.append_eq_nil_iff] at hb
  refine ⟨?_, hb.2⟩
  cases hw : v.writes with
  | nil => rfl
  | cons w ws =>
    have hr := hb.1
    rw [records, hw, List.map_cons, Record.written_cons, List.append_eq_nil_iff] at hr
    exact absurd hr.1 (Record.bytes_ne_nil _)

def add (v : Volume) (w : Write) : Volume :=
  { v with loose := v.loose ++ [w] }

@[simp] theorem writes_add (v : Volume) (w : Write) : (v.add w).writes = v.writes ++ [w] := by
  simp [writes, add]

@[simp] theorem records_add (v : Volume) (w : Write) :
    (v.add w).records = v.records ++ [w.record] := by
  simp [records]

theorem Holds.add {v : Volume} {f : FileData} (h : v.Holds f) (ht : v.tail = []) {w : Write}
    (hw : w.record.Fits) : (v.add w).Holds { f with bytes := f.bytes ++ w.record.bytes } where
  bytes := by
    have htail : (v.add w).tail = [] := ht
    simp only [h.bytes, ht, htail, records_add, Record.written_append, List.append_nil,
      Record.written_cons, Record.written_nil]
  synced := h.synced
  fits r hr := by
    rw [records_add, List.mem_append, List.mem_singleton] at hr
    rcases hr with hr | rfl
    · exact h.fits r hr
    · exact hw
  torn := h.torn

def sync (v : Volume) : Volume :=
  { v with safe := v.writes, loose := [] }

@[simp] theorem writes_sync (v : Volume) : v.sync.writes = v.writes := by
  simp [writes, sync]

theorem Holds.sync {v : Volume} {f : FileData} (h : v.Holds f) :
    v.sync.Holds { f with synced := f.bytes.length } where
  bytes := by rw [records, writes_sync]; exact h.bytes
  synced := by
    simp only [h.bytes, List.length_append]
    exact Nat.le_add_right _ _
  fits := by rw [records, writes_sync]; exact h.fits
  torn := h.torn

structure Whole (v : Volume) : Prop where
  loose : v.loose = []
  tail : v.tail = []

structure Cut (v v' : Volume) : Prop where
  sequence : v'.sequence = v.sequence
  safe : v'.safe = v.safe
  loose : v'.loose <+: v.loose
  tail : v.loose = [] → v.tail = [] → v'.tail = []

theorem Cut.eq_of_whole {v v' : Volume} (h : v.Cut v') (hw : v.Whole) : v' = v := by
  have hloose : v'.loose = [] := List.prefix_nil.1 (hw.loose ▸ h.loose)
  have htail : v'.tail = [] := h.tail hw.loose hw.tail
  obtain ⟨n, safe, loose, tail⟩ := v
  obtain ⟨n', safe', loose', tail'⟩ := v'
  have hs := h.sequence
  have hf := h.safe
  have hl := hw.loose
  have ht := hw.tail
  dsimp only at *
  rw [hs, hf, hloose, htail, hl, ht]

theorem Cut.writes {v v' : Volume} (h : v.Cut v') : v'.writes <+: v.writes := by
  rw [Volume.writes, Volume.writes, h.safe]
  exact (List.prefix_append_right_inj _).2 h.loose

theorem Holds.cut {v : Volume} {f : FileData} (h : v.Holds f) {k : Nat} (hk : f.synced ≤ k) :
    ∃ v', v.Cut v' ∧ v'.Holds { f with bytes := f.bytes.take k } := by
  obtain ⟨m, rest, hrest, heq, hm⟩ := Record.take_written h.fits h.torn k
  have hrec : v.records = v.safe.map (·.record) ++ v.loose.map (·.record) := by
    simp [records, Volume.writes]
  have hsafe : v.safe.length ≤ m := by
    refine hm _ (by simp [records, Volume.writes]) ?_
    rw [hrec, List.take_left' (by simp)]
    exact Nat.le_trans h.synced hk
  have htake : v.records.take m =
      v.safe.map (·.record) ++ (v.loose.take (m - v.safe.length)).map (·.record) := by
    rw [hrec, List.take_append, List.take_of_length_le (by simpa using hsafe), List.map_take,
      List.length_map]
  refine ⟨⟨v.sequence, v.safe, v.loose.take (m - v.safe.length), rest⟩,
    ⟨rfl, rfl, List.take_prefix _ _, ?_⟩, ?_, h.synced, ?_, hrest⟩
  · intro hl ht
    have hall : v.records = v.safe.map (·.record) := by rw [hrec, hl]; simp
    have hlen : (Record.written v.records ++ v.tail).length ≤ k := by
      rw [ht, List.append_nil, hall]
      exact Nat.le_trans h.synced hk
    rw [List.take_of_length_le hlen, htake, hl, ht, List.take_nil, hall] at heq
    simpa using heq
  · simp only [h.bytes, heq, htake]
    simp [records, Volume.writes]
  · intro r hr
    refine h.fits r (List.mem_of_mem_take (i := m) ?_)
    rw [htake]
    simpa [records, Volume.writes] using hr

end Volume

end LedgerStore
