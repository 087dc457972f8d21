import LedgerStore.Proofs.Archive.Volume
import LedgerStore.Proofs.Index

/-!
Archives: what the files of the store say, as volumes. The journal files numbered below the newest
checkpoint are superfluous; the writes of an archive are those of that checkpoint and of the other
journal files. The main statements say what each change of an archive does to its writes, and that
the last write to a key is what its index holds.
-/

set_option autoImplicit false

namespace LedgerStore

namespace Write

def last? (ws : List Write) (key : Key) : Option Write :=
  (ws.filter fun w => w.record.key = key).getLast?

theorem last?_append (ws us : List Write) (key : Key) :
    last? (ws ++ us) key = (last? us key).or (last? ws key) := by
  rw [last?, List.filter_append, List.getLast?_append]
  rfl

theorem last?_singleton (w : Write) (key : Key) :
    last? [w] key = if w.record.key = key then some w else none := by
  by_cases h : w.record.key = key
  · simp [last?, h]
  · simp [last?, h]

theorem last?_eq_some {ws : List Write} {key : Key} {w : Write} (h : last? ws key = some w) :
    w ∈ ws ∧ w.record.key = key := by
  simpa using List.mem_of_getLast? h

theorem last?_isSome {ws : List Write} {w : Write} (h : w ∈ ws) :
    ∃ x, last? ws w.record.key = some x := by
  cases hl : last? ws w.record.key with
  | none =>
    have hmem : w ∈ ws.filter fun x => x.record.key = w.record.key := by simp [h]
    rw [List.getLast?_eq_none_iff.1 hl] at hmem
    cases hmem
  | some x => exact ⟨x, rfl⟩

theorem get?_replay (ws : List Write) (key : Key) :
    (Index.replay {} (ws.map (·.record))).get? key = (last? ws key).map (·.record.value) := by
  induction ws using List.reverseRecOn with
  | nil => rfl
  | append_singleton ws w ih =>
    rw [List.map_append, Index.replay_append, List.map_singleton, Index.replay_singleton,
      Index.get?_insert, last?_append, last?_singleton, Contents.put, ih]
    by_cases h : key = w.record.key
    · simp [h]
    · have hne : ¬ w.record.key = key := fun heq => h heq.symm
      simp [h, hne]

theorem replay_congr {ws us : List Write} (h : ∀ key, last? ws key = last? us key) :
    Index.replay {} (ws.map (·.record)) = Index.replay {} (us.map (·.record)) := by
  refine Index.ext_get? ?_
  funext key
  rw [get?_replay, get?_replay, h key]

/-- Some writes stand for others: there is one for each key, and it is the last. -/
structure Digest (ws us : List Write) : Prop where
  distinct : ws.Pairwise fun w w' => w.record.key ≠ w'.record.key
  last : ∀ key, last? ws key = last? us key

theorem last?_of_distinct {ws : List Write}
    (h : ws.Pairwise fun w w' => w.record.key ≠ w'.record.key) {w : Write} (hw : w ∈ ws) :
    last? ws w.record.key = some w := by
  induction ws with
  | nil => cases hw
  | cons x ws ih =>
    obtain ⟨hx, hws⟩ := List.pairwise_cons.1 h
    rw [← List.singleton_append, last?_append, last?_singleton]
    rcases List.mem_cons.1 hw with rfl | hw
    · cases hl : last? ws w.record.key with
      | none => simp
      | some y =>
        obtain ⟨hy, hkey⟩ := last?_eq_some hl
        exact absurd hkey.symm (hx y hy)
    · rw [ih hws hw]
      rfl

theorem Digest.subset {ws us : List Write} (h : Digest ws us) : ws ⊆ us := by
  intro w hw
  have hlast := last?_of_distinct h.distinct hw
  rw [h.last] at hlast
  exact (last?_eq_some hlast).1

end Write

abbrev Ascending (vs : List Volume) : Prop :=
  vs.Pairwise fun a b => a.sequence < b.sequence

theorem Ascending.le_last {vs : List Volume} (h : Ascending vs) {v : Volume} (hv : v ∈ vs)
    (other : Volume) : v.sequence ≤ (vs.getLast?.getD other).sequence := by
  obtain ⟨front, last, rfl⟩ := (List.eq_nil_or_concat' vs).resolve_left (List.ne_nil_of_mem hv)
  rw [List.getLast?_concat, Option.getD_some]
  rcases List.mem_append.1 hv with hv | hv
  · exact Nat.le_of_lt ((List.pairwise_append.1 h).2.2 v hv last List.mem_cons_self)
  · rw [List.mem_singleton.1 hv]

theorem Ascending.split {vs : List Volume} (h : Ascending vs) (n : Nat) :
    (vs.filter fun v => v.sequence < n) ++ (vs.filter fun v => n ≤ v.sequence) = vs := by
  induction vs with
  | nil => rfl
  | cons v vs ih =>
    obtain ⟨hv, hvs⟩ := List.pairwise_cons.1 h
    by_cases hn : v.sequence < n
    · have hle : ¬ n ≤ v.sequence := by omega
      rw [List.filter_cons_of_pos (by simpa using hn), List.filter_cons_of_neg (by simpa using hle),
        List.cons_append, ih hvs]
    · have hnone : (vs.filter fun w => w.sequence < n) = [] := by
        rw [List.filter_eq_nil_iff]
        intro w hw
        have := hv w hw
        simp only [decide_eq_true_eq]
        omega
      have hall : (vs.filter fun w => n ≤ w.sequence) = vs := by
        rw [List.filter_eq_self]
        intro w hw
        have := hv w hw
        simp only [decide_eq_true_eq]
        omega
      rw [List.filter_cons_of_neg (by simpa using hn), List.filter_cons_of_pos (by simpa using hn),
        hnone, hall]
      rfl

structure Archive where
  journal : List Volume := []
  checkpoints : List Volume := []

namespace Archive

/-- The newest checkpoint. Without one it is as if there were an empty one numbered zero. -/
def newest (a : Archive) : Volume :=
  a.checkpoints.getLast?.getD { sequence := 0 }

def first (a : Archive) : Nat :=
  a.newest.sequence

def upFrom (a : Archive) (n : Nat) : List Volume :=
  a.journal.filter fun v => n ≤ v.sequence

def live (a : Archive) : List Volume :=
  a.upFrom a.first

/-- All writes that are not superfluous, in the order of replay. -/
def writes (a : Archive) : List Write :=
  a.newest.writes ++ a.live.flatMap (·.writes)

def safe (a : Archive) : List Write :=
  a.newest.safe ++ a.live.flatMap (·.safe)

def index (a : Archive) : Index :=
  Index.replay {} (a.writes.map (·.record))

theorem get?_index (a : Archive) (key : Key) :
    a.index.get? key = (Write.last? a.writes key).map (·.record.value) :=
  Write.get?_replay a.writes key

def current (a : Archive) : Volume :=
  a.journal.getLast?.getD { sequence := 0 }

/-- There is a journal file to write: the checkpoints do not cover it, and it ends in a record. -/
structure Open (a : Archive) : Prop where
  nonempty : a.journal ≠ []
  covers : ∀ c ∈ a.checkpoints, c.sequence ≤ a.current.sequence
  clean : a.current.tail = []

def older (a : Archive) : Archive :=
  { a with journal := a.journal.dropLast }

def amend (a : Archive) (v : Volume) : Archive :=
  { a with journal := a.journal.dropLast ++ [v] }

def add (a : Archive) (w : Write) : Archive :=
  a.amend (a.current.add w)

def synced (a : Archive) : Archive :=
  a.amend a.current.sync

def extend (a : Archive) (n : Nat) : Archive :=
  { a with journal := a.journal ++ [{ sequence := n }] }

def publish (a : Archive) (v : Volume) : Archive :=
  { a with checkpoints := a.checkpoints ++ [v] }

def trim (a : Archive) (n : Nat) : Archive :=
  { a with journal := a.journal.filter fun v => v.sequence != n }

def discard (a : Archive) (n : Nat) : Archive :=
  { a with checkpoints := a.checkpoints.filter fun v => v.sequence != n }

def cut (a : Archive) (g : Volume → Volume) : Archive :=
  { a with journal := a.journal.map g }

theorem newest_of_getLast? {a : Archive} {v : Volume} (h : a.checkpoints.getLast? = some v) :
    a.newest = v := by
  rw [newest, h]
  rfl

theorem first_le {a : Archive} {n : Nat} (h : ∀ c ∈ a.checkpoints, c.sequence ≤ n) :
    a.first ≤ n := by
  cases hl : a.checkpoints.getLast? with
  | none => simp [first, newest, hl]
  | some c =>
    rw [first, newest_of_getLast? hl]
    exact h c (List.mem_of_getLast? hl)

@[simp] theorem current_amend (a : Archive) (v : Volume) : (a.amend v).current = v := by
  simp [current, amend]

@[simp] theorem current_extend (a : Archive) (n : Nat) :
    (a.extend n).current = { sequence := n } := by
  simp [current, extend]

theorem current_of_getLast? {a : Archive} {v : Volume} (h : a.journal.getLast? = some v) :
    a.current = v := by
  rw [current, h]
  rfl

theorem le_current {a : Archive} (h : Ascending a.journal) {v : Volume} (hv : v ∈ a.journal) :
    v.sequence ≤ a.current.sequence :=
  h.le_last hv _

theorem le_first {a : Archive} (h : Ascending a.checkpoints) {c : Volume} (hc : c ∈ a.checkpoints) :
    c.sequence ≤ a.first :=
  h.le_last hc _

theorem current_mem {a : Archive} (h : a.journal ≠ []) : a.current ∈ a.journal := by
  rw [current, List.getLast?_eq_some_getLast h]
  exact List.getLast_mem h

namespace Open

variable {a : Archive} (h : a.Open)

include h

theorem last : a.journal.getLast? = some a.current := by
  rw [current, List.getLast?_eq_some_getLast h.nonempty]
  rfl

theorem split : a.journal = a.journal.dropLast ++ [a.current] :=
  (List.dropLast_append_getLast? _ h.last).symm

theorem mem : a.current ∈ a.journal :=
  current_mem h.nonempty

theorem amend_self : a.amend a.current = a := by
  rw [amend, ← h.split]

theorem amend {v : Volume} (hs : v.sequence = a.current.sequence) (ht : v.tail = []) :
    (a.amend v).Open where
  nonempty := by simp [Archive.amend]
  covers c hc := by
    rw [current_amend, hs]
    exact h.covers c hc
  clean := by rw [current_amend, ht]

theorem add (w : Write) : (a.add w).Open :=
  h.amend rfl h.clean

theorem synced : a.synced.Open :=
  h.amend rfl h.clean

theorem first_le : a.first ≤ a.current.sequence :=
  Archive.first_le h.covers

theorem extend {n : Nat} (hn : a.current.sequence < n) : (a.extend n).Open where
  nonempty := by simp [Archive.extend]
  covers c hc := by
    rw [current_extend]
    exact Nat.le_trans (h.covers c hc) (Nat.le_of_lt hn)
  clean := by rw [current_extend]

theorem publish {c : Volume} (hc : c.sequence ≤ a.current.sequence) : (a.publish c).Open where
  nonempty := h.nonempty
  covers x hx := by
    rcases List.mem_append.1 hx with hx | hx
    · exact h.covers x hx
    · rw [List.mem_singleton.1 hx]
      exact hc
  clean := h.clean

theorem current_trim {n : Nat} (hn : n < a.current.sequence) :
    (a.trim n).current = a.current := by
  have hne : a.current.sequence ≠ n := by omega
  refine current_of_getLast? ?_
  rw [Archive.trim, h.split, List.filter_append, List.filter_cons_of_pos (by simpa using hne)]
  simp

theorem trim {n : Nat} (hn : n < a.current.sequence) : (a.trim n).Open where
  nonempty := by
    have hne : a.current.sequence ≠ n := by omega
    have hmem : a.current ∈ (a.trim n).journal := List.mem_filter.2 ⟨h.mem, by simpa using hne⟩
    exact List.ne_nil_of_mem hmem
  covers := by
    rw [h.current_trim hn]
    exact h.covers
  clean := by rw [h.current_trim hn, h.clean]

theorem discard (n : Nat) : (a.discard n).Open where
  nonempty := h.nonempty
  covers c hc := h.covers c (List.mem_of_mem_filter hc)
  clean := h.clean

end Open

theorem live_amend {a : Archive} {v : Volume} (hv : a.first ≤ v.sequence) :
    (a.amend v).live = a.older.live ++ [v] := by
  change List.filter (fun w => decide (a.first ≤ w.sequence)) (a.journal.dropLast ++ [v]) = _
  rw [List.filter_append, List.filter_cons_of_pos (by simpa using hv), List.filter_nil]
  rfl

theorem writes_amend {a : Archive} {v : Volume} (hv : a.first ≤ v.sequence) :
    (a.amend v).writes = a.older.writes ++ v.writes := by
  rw [writes, live_amend hv, List.flatMap_append, List.flatMap_singleton, ← List.append_assoc]
  rfl

theorem safe_amend {a : Archive} {v : Volume} (hv : a.first ≤ v.sequence) :
    (a.amend v).safe = a.older.safe ++ v.safe := by
  rw [safe, live_amend hv, List.flatMap_append, List.flatMap_singleton, ← List.append_assoc]
  rfl

theorem Open.writes {a : Archive} (h : a.Open) :
    a.writes = a.older.writes ++ a.current.writes := by
  rw [← writes_amend h.first_le, h.amend_self]

theorem Open.safe {a : Archive} (h : a.Open) : a.safe = a.older.safe ++ a.current.safe := by
  rw [← safe_amend h.first_le, h.amend_self]

theorem Open.writes_add {a : Archive} (h : a.Open) (w : Write) :
    (a.add w).writes = a.writes ++ [w] := by
  have hv : a.first ≤ (a.current.add w).sequence := h.first_le
  rw [Archive.add, writes_amend hv, Volume.writes_add, h.writes, List.append_assoc]

theorem Open.index_add {a : Archive} (h : a.Open) (w : Write) :
    (a.add w).index = a.index.insert w.record.key w.record.value := by
  rw [index, index, h.writes_add, List.map_append, Index.replay_append]
  rfl

theorem Open.writes_synced {a : Archive} (h : a.Open) : a.synced.writes = a.writes := by
  have hv : a.first ≤ a.current.sync.sequence := h.first_le
  rw [Archive.synced, writes_amend hv, Volume.writes_sync, h.writes]

theorem Open.safe_add {a : Archive} (h : a.Open) (w : Write) : (a.add w).safe = a.safe := by
  have hv : a.first ≤ (a.current.add w).sequence := h.first_le
  rw [Archive.add, safe_amend hv, h.safe]
  rfl

theorem Open.safe_synced {a : Archive} (h : a.Open) :
    a.synced.safe = a.older.safe ++ a.current.writes := by
  have hv : a.first ≤ a.current.sync.sequence := h.first_le
  exact safe_amend hv

theorem flatMap_extend {f : Volume → List Write} (a : Archive) {n : Nat}
    (hf : f { sequence := n } = []) :
    (a.extend n).live.flatMap f = a.live.flatMap f := by
  change (List.filter (fun v => decide (a.first ≤ v.sequence)) (a.journal ++ [_])).flatMap f =
    (List.filter (fun v => decide (a.first ≤ v.sequence)) a.journal).flatMap f
  rw [List.filter_append, List.flatMap_append, List.append_right_eq_self]
  by_cases h : a.first ≤ n
  · rw [List.filter_cons_of_pos (by simpa using h)]
    simpa using hf
  · rw [List.filter_cons_of_neg (by simpa using h)]
    rfl

@[simp] theorem writes_extend (a : Archive) (n : Nat) : (a.extend n).writes = a.writes := by
  rw [writes, flatMap_extend a rfl]
  rfl

@[simp] theorem safe_extend (a : Archive) (n : Nat) : (a.extend n).safe = a.safe := by
  rw [safe, flatMap_extend a rfl]
  rfl

@[simp] theorem newest_publish (a : Archive) (v : Volume) : (a.publish v).newest = v :=
  newest_of_getLast? (by simp [publish])

theorem writes_publish (a : Archive) (v : Volume) :
    (a.publish v).writes = v.writes ++ (a.upFrom v.sequence).flatMap (·.writes) := by
  rw [writes, live, first, newest_publish]
  rfl

theorem safe_publish (a : Archive) (v : Volume) :
    (a.publish v).safe = v.safe ++ (a.upFrom v.sequence).flatMap (·.safe) := by
  rw [safe, live, first, newest_publish]
  rfl

theorem live_trim {a : Archive} {n : Nat} (hn : n < a.first) : (a.trim n).live = a.live := by
  change List.filter (fun v => decide (a.first ≤ v.sequence)) (a.journal.filter _) = _
  rw [List.filter_filter]
  refine List.filter_congr fun v _ => ?_
  by_cases h : a.first ≤ v.sequence
  · have hne : v.sequence ≠ n := by omega
    simp [h, hne]
  · simp [h]

theorem writes_trim {a : Archive} {n : Nat} (hn : n < a.first) : (a.trim n).writes = a.writes := by
  rw [writes, live_trim hn]
  rfl

theorem safe_trim {a : Archive} {n : Nat} (hn : n < a.first) : (a.trim n).safe = a.safe := by
  rw [safe, live_trim hn]
  rfl

theorem newest_discard {a : Archive} {n : Nat} (hn : n < a.first) :
    (a.discard n).newest = a.newest := by
  rcases List.eq_nil_or_concat' a.checkpoints with hnil | ⟨front, c, hc⟩
  · simp [newest, discard, hnil]
  · have hnew : a.newest = c := newest_of_getLast? (by simp [hc])
    have hne : c.sequence ≠ n := by rw [first, hnew] at hn; omega
    rw [hnew]
    refine newest_of_getLast? ?_
    rw [discard, hc, List.filter_append, List.filter_cons_of_pos (by simpa using hne)]
    simp

theorem live_discard {a : Archive} {n : Nat} (hn : n < a.first) : (a.discard n).live = a.live := by
  rw [live, first, newest_discard hn]
  rfl

theorem writes_discard {a : Archive} {n : Nat} (hn : n < a.first) :
    (a.discard n).writes = a.writes := by
  rw [writes, live_discard hn, newest_discard hn]
  rfl

theorem safe_discard {a : Archive} {n : Nat} (hn : n < a.first) : (a.discard n).safe = a.safe := by
  rw [safe, live_discard hn, newest_discard hn]
  rfl

/-- What becomes of an archive when its writer may go on to a new file: it stays, or the last file
is synced, after which there may be a new one. -/
inductive Turn (a : Archive) : Archive → Prop
  | stay : Turn a a
  | sync : Turn a a.synced
  | roll : Turn a (a.synced.extend (a.current.sequence + 1))

namespace Turn

variable {a a' : Archive}

theorem stays_open (h : a.Turn a') (ha : a.Open) : a'.Open := by
  cases h with
  | stay => exact ha
  | sync => exact ha.synced
  | roll => exact ha.synced.extend (by simp [Archive.synced, Volume.sync])

theorem writes (h : a.Turn a') (ha : a.Open) : a'.writes = a.writes := by
  cases h with
  | stay => rfl
  | sync => exact ha.writes_synced
  | roll => rw [writes_extend, ha.writes_synced]

theorem index (h : a.Turn a') (ha : a.Open) : a'.index = a.index := by
  rw [Archive.index, Archive.index, h.writes ha]

end Turn

/-- The writes that a checkpoint numbered `n` would cover. -/
def covered (a : Archive) (n : Nat) : List Write :=
  a.newest.writes ++ (a.live.filter fun v => v.sequence < n).flatMap (·.writes)

/-- The writes are those that a checkpoint would cover and those it would not. -/
theorem writes_split {a : Archive} (h : Ascending a.journal) {n : Nat} (hn : a.first ≤ n) :
    a.writes = a.covered n ++ (a.upFrom n).flatMap (·.writes) := by
  have hup : (a.live.filter fun v => n ≤ v.sequence) = a.upFrom n := by
    rw [live, upFrom, List.filter_filter]
    refine List.filter_congr fun v _ => ?_
    by_cases hv : n ≤ v.sequence
    · have : a.first ≤ v.sequence := by omega
      simp [hv, this]
    · simp [hv]
  have hsorted : Ascending a.live := h.filter _
  have hlive : a.live.flatMap (·.writes) =
      (a.live.filter fun v => v.sequence < n).flatMap (·.writes) ++
        (a.upFrom n).flatMap (·.writes) := by
    rw [← hup, ← List.flatMap_append, hsorted.split n]
  rw [writes, covered, hlive, List.append_assoc]

theorem last?_publish {a : Archive} (h : Ascending a.journal) {v : Volume}
    (hv : a.first ≤ v.sequence)
    (hagree : ∀ key, Write.last? v.writes key = Write.last? (a.covered v.sequence) key)
    (key : Key) : Write.last? (a.publish v).writes key = Write.last? a.writes key := by
  rw [writes_publish, writes_split h hv, Write.last?_append, Write.last?_append, hagree]

end Archive

end LedgerStore
