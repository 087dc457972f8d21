import LedgerStore.Proofs.Archive.History

set_option autoImplicit false

namespace LedgerStore

/-- The last write to each of some keys, each once, are the same writes again. -/
theorem Write.last?_filterMap (ws : List Write) {ks : List Key} (hks : ks.Nodup) (key : Key) :
    last? (ks.filterMap (last? ws)) key = if key ∈ ks then last? ws key else none := by
  induction ks with
  | nil => rfl
  | cons k ks ih =>
    obtain ⟨hk, hks⟩ := List.nodup_cons.1 hks
    have htail := ih hks
    cases hw : last? ws k with
    | none =>
      rw [List.filterMap_cons_none hw, htail]
      by_cases hkey : key = k
      · rw [hkey, if_neg hk, if_pos List.mem_cons_self, hw]
      · simp [hkey]
    | some w =>
      have hwk : w.record.key = k := (last?_eq_some hw).2
      rw [List.filterMap_cons_some hw, ← List.singleton_append, last?_append, htail,
        last?_singleton, hwk]
      by_cases hkey : key = k
      · rw [hkey, if_neg hk, if_pos rfl, if_pos List.mem_cons_self, hw]
        rfl
      · have hne : ¬ k = key := fun heq => hkey heq.symm
        simp [hkey, hne]

namespace Archive

variable {a a' : Archive}

/-- What a checkpoint would cover of the last journal file, it covers as a whole or not at all. -/
theorem covered_amend (ha : a.Open) {v : Volume} (hs : v.sequence = a.current.sequence) (n : Nat) :
    (a.amend v).covered n =
      a.newest.writes ++ (a.older.live.filter fun x => x.sequence < n).flatMap (·.writes) ++
        if a.current.sequence < n then v.writes else [] := by
  have hlive : (a.amend v).live.filter (fun x => x.sequence < n) =
      a.older.live.filter (fun x => x.sequence < n) ++ [v].filter fun x => x.sequence < n := by
    rw [live_amend (hs ▸ ha.first_le), List.filter_append]
  have hlast : ([v].filter fun x => x.sequence < n).flatMap (·.writes) =
      if a.current.sequence < n then v.writes else [] := by
    by_cases hn : a.current.sequence < n
    · simp [hs, hn]
    · simp [hs, hn]
  rw [covered, hlive, List.flatMap_append, hlast, List.append_assoc]
  rfl

theorem covered_synced (ha : a.Open) (n : Nat) : a.synced.covered n = a.covered n := by
  have hself := covered_amend ha (v := a.current) rfl n
  rw [ha.amend_self] at hself
  rw [synced, covered_amend ha (v := a.current.sync) rfl n, Volume.writes_sync, hself]

theorem covered_add (ha : a.Open) (w : Write) {n : Nat} (hn : n ≤ a.current.sequence) :
    (a.add w).covered n = a.covered n := by
  have hself := covered_amend ha (v := a.current) rfl n
  rw [ha.amend_self] at hself
  rw [add, covered_amend ha (v := a.current.add w) rfl n, hself, if_neg (by omega),
    if_neg (by omega)]

theorem covered_extend (a : Archive) (m n : Nat) : (a.extend m).covered n = a.covered n := by
  have hlast : ((a.extend m).live.filter fun x => x.sequence < n).flatMap (·.writes) =
      (a.live.filter fun x => x.sequence < n).flatMap (·.writes) := by
    have hnone : ∀ vs : List Volume, vs ⊆ [{ sequence := m }] → vs.flatMap (·.writes) = [] := by
      intro vs hvs
      rw [List.flatMap_eq_nil_iff]
      intro v hv
      rw [List.mem_singleton.1 (hvs hv)]
      rfl
    change ((List.filter (fun x => decide (a.first ≤ x.sequence)) (a.journal ++ [_])).filter
      fun x => decide (x.sequence < n)).flatMap (·.writes) = _
    rw [List.filter_append, List.filter_append, List.flatMap_append,
      hnone _ (List.Subset.trans (List.filter_subset_self _) (List.filter_subset_self _)),
      List.append_nil]
    rfl
  rw [covered, covered, hlast]
  rfl

theorem covered_of_below {n : Nat} (h : ∀ v ∈ a.journal, v.sequence < n) :
    a.covered n = a.writes := by
  have hall : (a.live.filter fun v => v.sequence < n) = a.live := by
    rw [List.filter_eq_self]
    intro v hv
    simpa using h v (List.mem_of_mem_filter hv)
  rw [covered, hall]
  rfl

theorem Retains.covers {key : Key} {i : Nat} (h : a.Retains key i) (ha : Ascending a.journal)
    {n : Nat} (hn : a.current.sequence < n) : a.Covers n key i := by
  rwa [Covers, covered_of_below fun v hv => Nat.lt_of_le_of_lt (le_current ha hv) hn]

theorem Turn.covered (h : a.Turn a') (ha : a.Open) (n : Nat) : a'.covered n = a.covered n := by
  cases h with
  | stay => rfl
  | sync => exact covered_synced ha n
  | roll => rw [covered_extend, covered_synced ha]

theorem Turn.checkpoints (h : a.Turn a') : a'.checkpoints = a.checkpoints := by
  cases h <;> rfl

theorem Turn.current_le (h : a.Turn a') : a.current.sequence ≤ a'.current.sequence := by
  cases h with
  | stay => exact Nat.le_refl _
  | sync => simp [synced, Volume.sync]
  | roll => simp

end Archive

theorem Archive.On.fits {a : Archive} {s : Site} {d : Disk} (h : a.On s d) {w : Write}
    (hw : w ∈ a.writes) : w.record.Fits := by
  have hvolume : ∀ {kind : FileName} {dir : Place} {vs : List Volume}, Shelf kind dir vs d →
      ∀ v ∈ vs, w ∈ v.writes → w.record.Fits := by
    intro kind dir vs hshelf v hv hmem
    obtain ⟨f, -, hholds⟩ := hshelf.stored v hv
    exact hholds.fits _ (List.mem_map_of_mem hmem)
  rcases List.mem_append.1 hw with hw | hw
  · cases hlast : a.checkpoints.getLast? with
    | none =>
      rw [newest, hlast] at hw
      cases hw
    | some c =>
      rw [newest_of_getLast? hlast] at hw
      exact hvolume h.checkpoints c (List.mem_of_getLast? hlast) hw
  · obtain ⟨v, hv, hmem⟩ := List.mem_flatMap.1 hw
    exact hvolume h.journal v (List.mem_of_mem_filter hv) hmem

def Archive.Rises (a a' : Archive) : Prop :=
  ∀ v ∈ a.journal, ∃ v' ∈ a'.journal, v.sequence ≤ v'.sequence

theorem Archive.rises_of_current {a a' : Archive} (h : Ascending a.journal) (ha' : a'.Open)
    (hle : a.current.sequence ≤ a'.current.sequence) : a.Rises a' :=
  fun _ hv => ⟨a'.current, ha'.mem, Nat.le_trans (le_current h hv) hle⟩

theorem Archive.Reopen.rises {a a' : Archive} (h : a.Reopen a') : a.Rises a' := by
  intro v hv
  cases h with
  | same => exact ⟨v, hv, Nat.le_refl _⟩
  | fresh n least => exact ⟨v, List.mem_append_left _ hv, Nat.le_refl _⟩

theorem Archive.rises_cut {a : Archive} {g : Volume → Volume} (hg : ∀ v ∈ a.journal, v.Cut (g v)) :
    a.Rises (a.cut g) :=
  fun v hv => ⟨g v, List.mem_map_of_mem hv, Nat.le_of_eq (hg v hv).sequence.symm⟩

theorem Archive.Below.cut {a : Archive} {g : Volume → Volume} {m : Nat} (h : a.Below m)
    (hg : ∀ v ∈ a.journal, v.Cut (g v)) : (a.cut g).Below m := by
  refine ⟨fun v' hv' => ?_, h.checkpoints⟩
  obtain ⟨v, hv, rfl⟩ := List.mem_map.1 hv'
  rw [(hg v hv).sequence]
  exact h.journal v hv

theorem Archive.Below.succ {a : Archive} {m : Nat} (h : a.Below m) : a.Below (m + 1) :=
  ⟨fun v hv => Nat.lt_succ_of_lt (h.journal v hv), fun c hc => Nat.lt_succ_of_lt (h.checkpoints c hc)⟩

theorem Archive.Below.extend {a : Archive} {m n : Nat} (h : a.Below m) (hn : n ≤ m) :
    (a.extend n).Below (m + 1) := by
  refine ⟨fun v hv => ?_, h.succ.checkpoints⟩
  rcases List.mem_append.1 hv with hv | hv
  · exact h.succ.journal v hv
  · rw [List.mem_singleton.1 hv]
    exact Nat.lt_succ_of_le hn

theorem Archive.Below.amend {a : Archive} {m : Nat} (h : a.Below m) (ha : a.Open) {v : Volume}
    (hs : v.sequence = a.current.sequence) : (a.amend v).Below m := by
  refine ⟨fun w hw => ?_, h.checkpoints⟩
  rcases List.mem_append.1 hw with hw | hw
  · exact h.journal w (List.mem_of_mem_dropLast hw)
  · rw [List.mem_singleton.1 hw, hs]
    exact h.journal _ ha.mem

theorem Archive.Turn.below {a a' : Archive} (h : a.Turn a') (ha : a.Open) {m : Nat}
    (hm : a.Below m) : a'.Below (m + 1) := by
  have hsync : a.synced.Below m := hm.amend ha rfl
  cases h with
  | stay => exact hm.succ
  | sync => exact hsync.succ
  | roll => exact hsync.extend (hm.journal _ ha.mem)

theorem Archive.Reopen.below {a a' : Archive} (h : a.Reopen a') {m : Nat} (hm : a.Below m) :
    a'.Below (m + 1) := by
  cases h with
  | same => exact hm.succ
  | fresh n least => exact hm.extend (least m hm)

/-- The same index in the same journal file, with no files numbered higher and nothing lost, which
a checkpoint to come has too. -/
structure Archive.Same (a a' : Archive) : Prop where
  index : a'.index = a.index
  current : a'.current = a.current
  below : ∀ m, a.Below m → a'.Below m
  lasts : a.Lasts a'
  covers : ∀ history, a.Tells history → ∀ n key i, a.Covers n key i → a'.Covers n key i

theorem Archive.Same.refl (a : Archive) : a.Same a :=
  ⟨rfl, rfl, fun _ h => h, .refl a, fun _ _ _ _ _ h => h⟩

theorem Archive.Same.trans {a a' a'' : Archive} (h : a.Same a') (h' : a'.Same a'') : a.Same a'' :=
  ⟨h'.index.trans h.index, h'.current.trans h.current, fun m hm => h'.below m (h.below m hm),
    h.lasts.trans h'.lasts, fun history ht n key i hc =>
      h'.covers history (h.lasts.tells history ht) n key i (h.covers history ht n key i hc)⟩

theorem Archive.Tidy.below {a a' : Archive} (h : a.Tidy a') (ha : a.Open) {m : Nat}
    (hm : a.Below m) : a'.Below m := by
  cases h with
  | stay => exact hm
  | publish v whole above reached agree =>
    refine ⟨hm.journal, fun c hc => ?_⟩
    rcases List.mem_append.1 hc with hc | hc
    · exact hm.checkpoints c hc
    · rw [List.mem_singleton.1 hc]
      exact Nat.lt_of_le_of_lt reached (hm.journal _ ha.mem)
  | trim n below => exact ⟨fun v hv => hm.journal v (List.mem_of_mem_filter hv), hm.checkpoints⟩
  | discard n below => exact ⟨hm.journal, fun c hc => hm.checkpoints c (List.mem_of_mem_filter hc)⟩

theorem Archive.Tidy.same {a a' : Archive} (h : a.Tidy a') (ha : a.Open)
    (hasc : Ascending a.journal) : a.Same a' :=
  ⟨h.index hasc, h.current ha, fun _ => h.below ha, h.lasts hasc,
    fun _ ht _ _ _ => h.covers hasc ht⟩

namespace Checkpoint

theorem captured_records (ws : List Write) :
    ((Index.replay {} (ws.map (·.record))).keys.filterMap (Write.last? ws)).map (·.record) =
      (Index.replay {} (ws.map (·.record))).records := by
  have hrecords : ∀ i : Index, i.records = i.entries.filterMap fun e => some ⟨e.1, e.2⟩ := by
    intro i
    rw [Index.records, List.filterMap_eq_map']
  rw [List.map_filterMap, Index.keys, List.filterMap_map, hrecords]
  refine List.filterMap_congr fun e he => ?_
  have hget := Index.mem_entries.1 he
  rw [Write.get?_replay] at hget
  obtain ⟨w, hw, hv⟩ := Option.map_eq_some_iff.1 hget
  obtain ⟨-, hk⟩ := Write.last?_eq_some hw
  change (Write.last? ws e.1).map (·.record) = _
  rw [hw, Option.map_some, ← hk, ← hv]

theorem Plan.begun {e : EntryLog} {s : Site} {a : Archive} {d : Disk} {n : Nat}
    (he : e.At s (a.extend n) d) (hn : ∀ v ∈ a.journal, v.sequence < n)
    (hc : ∀ c ∈ a.checkpoints, c.sequence < n) :
    Plan.For ⟨e.dataDir, e.journalDir, n, e.index.records⟩ s (a.extend n) ∧
      Plan.Due ⟨e.dataDir, e.journalDir, n, e.index.records⟩ (a.extend n) := by
  have hwrites : (a.extend n).covered n = (a.extend n).writes := by
    rw [Archive.covered_extend a n n, Archive.covered_of_below hn,
      Archive.writes_extend]
  have hrecords := captured_records (a.extend n).writes
  rw [← Archive.index, ← he.index] at hrecords
  have hagree : ∀ key, Write.last? (e.index.keys.filterMap (Write.last? (a.extend n).writes)) key =
      Write.last? (a.extend n).writes key := by
    intro key
    rw [Write.last?_filterMap _ e.index.keys_nodup]
    split
    · rfl
    · next hkey =>
      rw [Index.mem_keys, he.index, Archive.get?_index] at hkey
      revert hkey
      cases Write.last? (a.extend n).writes key with
      | none => exact fun _ => rfl
      | some w => exact fun hkey => absurd rfl hkey
  refine ⟨⟨he.dataDir, he.journalDir, by rw [Archive.current_extend]⟩, hc, ?_, _, hrecords, ?_⟩
  · intro r hr
    rw [← hrecords] at hr
    obtain ⟨w, hw, rfl⟩ := List.mem_map.1 hr
    obtain ⟨k, -, hk⟩ := List.mem_filterMap.1 hw
    exact he.writer.on.fits (Write.last?_eq_some hk).1
  · rw [hwrites]
    refine ⟨?_, hagree⟩
    refine List.Pairwise.filterMap _ ?_ e.index.keys_nodup
    intro k k' hne w hw w' hw' heq
    exact hne (by rw [← (Write.last?_eq_some hw).2, ← (Write.last?_eq_some hw').2, heq])

end Checkpoint

namespace EntryLog

open Checkpoint

def Awaits (s : Site) (a : Archive) : Option (Plan × Stage) → Prop
  | some (p, st) => p.For s a ∧ st.Good p a
  | none => True

def Drafted (s : Site) : Option (Plan × Stage) → Disk → Prop
  | some (p, st) => st.Draft p s
  | none => fun _ => True

theorem steady_drafted (s : Site) (saving : Option (Plan × Stage)) :
    s.Steady (Drafted s saving) := by
  cases saving with
  | none => exact ⟨fun _ _ _ _ _ _ _ => trivial, fun _ _ _ _ => trivial⟩
  | some x => exact x.2.steady x.1 s

variable {mood : Mood} {s : Site} {a a' : Archive} {saving : Option (Plan × Stage)}

theorem Awaits.turn (h : Awaits s a saving) (ha : a.Open) (hturn : a.Turn a') :
    Awaits s a' saving := by
  cases saving with
  | none => exact h
  | some x =>
    obtain ⟨hp, hgood⟩ := h
    exact ⟨⟨hp.dataDir, hp.journalDir, Nat.le_trans hp.reached hturn.current_le⟩,
      hgood.congr hturn.checkpoints (hturn.covered ha _)⟩

theorem Awaits.add (h : Awaits s a saving) (ha : a.Open) (w : Write) :
    Awaits s (a.add w) saving := by
  cases saving with
  | none => exact h
  | some x =>
    obtain ⟨hp, hgood⟩ := h
    have hcur : (a.add w).current.sequence = a.current.sequence := by
      rw [Archive.add, Archive.current_amend]
      rfl
    exact ⟨⟨hp.dataDir, hp.journalDir, hcur ▸ hp.reached⟩,
      hgood.congr rfl (Archive.covered_add ha w hp.reached)⟩

/-- The engine works on an archive, while a checkpoint may be being saved. -/
structure Busy (mood : Mood) (s : Site) (a : Archive) (saving : Option (Plan × Stage))
    (t : EntryLog × Host) : Prop where
  works : Works mood s (Drafted s saving) a t
  awaits : Awaits s a saving

theorem Busy.ready {t : EntryLog × Host} (h : Busy mood s a saving t) : a.Open :=
  h.works.disk.1.writer.ready

theorem Busy.facing {t : EntryLog × Host} (h : Busy mood s a saving t) {e : EntryLog} {host : Host}
    (engine : e = t.1) (disk : host.disk = t.2.disk) (faults : List Fault) :
    Busy (· ∈ faults) s a saving (e, host.facing faults) := by
  refine ⟨⟨?_, fun _ hf => hf⟩, h.awaits⟩
  have hdisk : (host.facing faults).disk = t.2.disk := disk
  rw [hdisk, engine]
  exact h.works.disk

theorem busy_put (hmood : mood.Whole) {key : Key} {value : Bytes}
    (hr : value.length ≤ s.config.maxValueSize → (⟨key, value⟩ : Record).Fits)
    (hn : a.current.sequence + 1 < FileName.sequenceBound) (stamp : Nat) :
    Ensures (Busy mood s a saving) (put key value)
      (fun _ t => ∃ a', a.Turn a' ∧ Busy mood s (a'.add ⟨stamp, ⟨key, value⟩⟩) saving t)
      (fun t => ∃ a', a.Turn a' ∧ Busy mood s a' saving t ∧
        (mood.Calm → s.config.maxValueSize < value.length)) := by
  refine Ensures.peek (p := a.Open ∧ Awaits s a saving) (fun t ht => ⟨ht.ready, ht.awaits⟩)
    fun hfacts => ?_
  obtain ⟨ha, hawaits⟩ := hfacts
  refine (ensures_put (steady_drafted s saving) hmood hr hn stamp).weaken (fun t ht => ht.works)
    ?_ ?_
  · rintro _ t ⟨a', ha', ht⟩
    exact ⟨a', ha', ht, (hawaits.turn ha ha').add (ha'.stays_open ha) _⟩
  · rintro t ⟨a', ha', ht, hcalm⟩
    exact ⟨a', ha', ⟨ht, hawaits.turn ha ha'⟩, hcalm⟩

theorem busy_sync :
    Ensures (Busy mood s a saving) syncLog (fun _ => Busy mood s a.synced saving)
      (fun t => Busy mood s a saving t ∧ ¬ mood.Calm) := by
  refine Ensures.peek (p := a.Open ∧ Awaits s a saving) (fun t ht => ⟨ht.ready, ht.awaits⟩)
    fun hfacts => ?_
  obtain ⟨ha, hawaits⟩ := hfacts
  exact (ensures_syncLog (steady_drafted s saving)).weaken (fun t ht => ht.works)
    (fun _ t ht => ⟨ht, hawaits.turn ha .sync⟩) fun t ht => ⟨⟨ht.1, hawaits⟩, ht.2⟩

theorem busy_start {m : Nat} (hm : a.Below m) (hb : m < FileName.sequenceBound) :
    Ensures (Host.Holds mood (a.On s)) (start s.config)
      (fun e h => ∃ a', a.Reopen a' ∧ Busy mood s a' none (e, h))
      (fun h => ∃ a', a.Reopen a' ∧ h.Failed mood (a'.On s)) := by
  refine (ensures_start hm hb).weaken (fun _ => id) ?_ fun _ => id
  rintro e h ⟨a', ha', hh⟩
  exact ⟨a', ha', hh.imp fun d hd => ⟨hd, trivial⟩, trivial⟩

theorem Works.drop {F : Disk → Prop} {t : EntryLog × Host} (h : Works mood s F a t) :
    Busy mood s a none t :=
  ⟨h.imp fun _ hd => ⟨hd.1, trivial⟩, trivial⟩

theorem busy_begin (hn : a.current.sequence + 1 < FileName.sequenceBound) :
    Ensures (Busy mood s a none) beginCheckpoint
      (fun r t => r.1.sequence = a.current.sequence + 1 ∧
        Busy mood s (a.synced.extend (a.current.sequence + 1)) (some r) t)
      (fun t => ∃ a', a.Turn a' ∧ Busy mood s a' none t ∧ ¬ mood.Calm) := by
  refine Ensures.peek (fun t ht => ht.ready) fun hready => ?_
  refine Ensures.bind ((ensures_roll (steady_drafted s none) hn).weaken (fun t ht => ht.works)
    (fun _ _ => id) fun t ⟨a', ha', ht, hcalm⟩ => ⟨a', ha', ht.drop, hcalm⟩) fun n => ?_
  refine Ensures.fact fun hseq => Ensures.get_bind fun t ht => Ensures.pure ?_
  rintro _ rfl
  rw [hseq] at ht ⊢
  have hlast : ∀ v ∈ a.synced.journal, v.sequence < a.current.sequence + 1 := by
    intro v hv
    have hasc := ht.disk.1.writer.on.journal.ascending
    exact (List.pairwise_append.1 hasc).2.2 v hv _ List.mem_cons_self
  have hbegun := Plan.begun ht.disk.1 hlast fun c hc => Nat.lt_succ_of_le (hready.covers c hc)
  exact ⟨rfl, ht.imp fun d hd => ⟨hd.1, trivial⟩, hbegun⟩

theorem busy_step (p : Plan) (pick : Nat) (st : Stage) :
    Ensures (Busy mood s a (some (p, st))) (Action.onHost (p.step pick st))
      (fun next t => ∃ a', a.Tidy a' ∧ (next = none → p.sequence ≤ a'.first) ∧
        Busy mood s a' (next.map (p, ·)) t)
      (Busy mood s a none) := by
  intro t ht
  have hindex : ∀ {a' : Archive} {e : EntryLog}, a.Tidy a' → e.At s a t.2.disk → ∀ {d : Disk},
      e.writer.At s a' d → e.At s a' d := fun ha' he _ hw =>
    ⟨hw, by rw [he.index, ha'.index he.writer.on.journal.ascending], he.dataDir, he.journalDir⟩
  have he := ht.works.disk.1
  have hsaves : p.Saves t.1.writer mood s a st t.2 :=
    ⟨ht.awaits, ht.works.imp fun d hd => ⟨hd.1.writer, hd.2⟩⟩
  have hrun := ((ensures_step p pick st).beside t.1) t ⟨rfl, hsaves⟩
  revert hrun
  cases Action.onHost (p.step pick st) t with
  | error cause t' =>
    rintro ⟨heq, hfail⟩
    refine ⟨hfail.imp fun d hd => ⟨?_, trivial⟩, trivial⟩
    rw [heq]
    exact hindex .stay he hd
  | ok next t' =>
    rintro ⟨heq, hstep⟩
    cases next with
    | none =>
      obtain ⟨a', ha', hfirst, hh⟩ := hstep
      refine ⟨a', ha', fun _ => hfirst, hh.imp fun d hd => ⟨?_, trivial⟩, trivial⟩
      rw [heq]
      exact hindex ha' he hd
    | some st' =>
      obtain ⟨a', ha', hfacts, hh⟩ := hstep
      refine ⟨a', ha', nofun, hh.imp fun d hd => ⟨?_, hd.2⟩, hfacts⟩
      rw [heq]
      exact hindex ha' he hd.1

/-- Whole checkpoints keep the index, and use the next sequence. -/
theorem busy_checkpoint (hn : a.current.sequence + 1 < FileName.sequenceBound) :
    Ensures (Busy mood s a none) checkpoint
      (fun n t => n = a.current.sequence + 1 ∧
        ∃ a', (a.synced.extend n).Same a' ∧ n ≤ a'.first ∧ Busy mood s a' none t)
      (fun t => ∃ a₁ a', a.Turn a₁ ∧ a₁.Same a' ∧ Busy mood s a' none t) := by
  rw [checkpoint_eq]
  refine Ensures.bind ((busy_begin hn).weaken (fun _ => id) (fun _ _ => id) ?_) ?_
  · rintro t ⟨a', ha', ht, -⟩
    exact ⟨a', a', ha', .refl a', ht⟩
  · rintro ⟨p, st⟩
    refine Ensures.fact fun hseq => ?_
    -- The roll is not undone by a failure, so the invariant speaks of the archive with its new file.
    have hstep : ∀ st, Ensures
        (fun t => ∃ a', (a.synced.extend p.sequence).Same a' ∧ Busy mood s a' (some (p, st)) t)
        (Action.onHost (p.step 0 st))
        (fun next t => (∀ st', next = some st' → ∃ a', (a.synced.extend p.sequence).Same a' ∧
            Busy mood s a' (some (p, st')) t) ∧
          (next = none → ∃ a', (a.synced.extend p.sequence).Same a' ∧ p.sequence ≤ a'.first ∧
            Busy mood s a' none t))
        (fun t => ∃ a', (a.synced.extend p.sequence).Same a' ∧ Busy mood s a' none t) := by
      rintro st t ⟨a', hsame, ht⟩
      have hasc := ht.works.disk.1.writer.on.journal.ascending
      have hrun := busy_step p 0 st t ht
      revert hrun
      cases Action.onHost (p.step 0 st) t with
      | error cause t' => exact fun hrun => ⟨a', hsame, hrun⟩
      | ok next t' =>
        rintro ⟨a'', htidy, hfirst, ht'⟩
        have hsame' := hsame.trans (htidy.same ht.ready hasc)
        constructor
        · rintro st' rfl
          exact ⟨a'', hsame', ht'⟩
        · rintro rfl
          exact ⟨a'', hsame', hfirst rfl, ht'⟩
    refine (p.ensures_rest hstep st).weaken ?_ ?_ ?_
    · exact fun t ht => ⟨_, .refl _, hseq ▸ ht⟩
    · rintro n t ⟨rfl, a', hsame, hfirst, ht⟩
      exact ⟨hseq, a', hsame, hfirst, ht⟩
    · rintro t ⟨a', hsame, ht⟩
      exact ⟨_, a', .roll, hseq ▸ hsame, ht⟩

/-- What a part of a checkpoint makes of the archive, whether it ends well or not. A sequence that
is new is above that of the journal file which was written before. -/
structure Passed (mood : Mood) (s : Site) (a : Archive) (saving : Option (Plan × Stage))
    (r : Progress) (a' : Archive) : Prop where
  through : ∃ a₁, a.Turn a₁ ∧ a₁.Same a'
  busy : Busy mood s a' r.saving r.state
  ended : ∀ k, r.ended = some k → r.saving = none ∧ k ≤ a'.current.sequence ∧
    (a.current.sequence < k ∨ ∃ p st, saving = some (p, st) ∧ k = p.sequence)
  first : ∀ k, r.ended = some k → k ≤ a'.first
  begun : ∀ p st, r.saving = some (p, st) →
    a.current.sequence < p.sequence ∨ ∃ st', saving = some (p, st')

theorem Passed.index {r : Progress} (h : Passed mood s a saving r a') (ha : a.Open) :
    a'.index = a.index := by
  obtain ⟨a₁, hturn, hsame⟩ := h.through
  rw [hsame.index, hturn.index ha]

theorem Passed.covers {r : Progress} (h : Passed mood s a saving r a') (ha : a.Open)
    {history : List Record} (ht : a.Tells history) {n : Nat} {key : Key} {i : Nat}
    (hcovers : a.Covers n key i) : a'.Covers n key i := by
  obtain ⟨a₁, hturn, hsame⟩ := h.through
  refine hsame.covers history ((hturn.lasts ha).tells _ ht) n key i ?_
  rwa [Archive.Covers, hturn.covered ha]

theorem Passed.idle {t : EntryLog × Host} (h : Busy mood s a saving t) :
    Passed mood s a saving { state := t, saving } a :=
  ⟨⟨a, .stay, .refl a⟩, h, nofun, nofun, fun _ st hst => Or.inr ⟨st, hst⟩⟩

theorem busy_part {t : EntryLog × Host} (h : Busy mood s a saving t)
    (hn : a.current.sequence + 1 < FileName.sequenceBound) (part : Part) :
    ∃ a', Passed mood s a saving (part.run saving t) a' := by
  have hready := h.ready
  cases part with
  | whole =>
    cases saving with
    | some x => exact ⟨a, .idle h⟩
    | none =>
      have hrun := busy_checkpoint hn t h
      rw [Part.run]
      revert hrun
      cases checkpoint t with
      | ok k t' =>
        rintro ⟨rfl, a', hsame, hfirst, ht⟩
        have hcur : a'.current.sequence = a.current.sequence + 1 := by
          rw [hsame.current, Archive.current_extend]
        refine ⟨a', ⟨_, .roll, hsame⟩, ht, ?_, ?_, nofun⟩
        · rintro k ⟨⟩
          exact ⟨rfl, by omega, Or.inl (by omega)⟩
        · rintro k ⟨⟩
          exact hfirst
      | error cause t' =>
        rintro ⟨a₁, a', hturn, hsame, ht⟩
        exact ⟨a', ⟨a₁, hturn, hsame⟩, ht, nofun, nofun, nofun⟩
  | begin =>
    cases saving with
    | some x => exact ⟨a, .idle h⟩
    | none =>
      have hrun := busy_begin hn t h
      rw [Part.run]
      revert hrun
      cases beginCheckpoint t with
      | ok begun t' =>
        rintro ⟨hseq, ht⟩
        refine ⟨_, ⟨_, .roll, .refl _⟩, ht, nofun, nofun, ?_⟩
        rintro p st ⟨⟩
        exact Or.inl (Nat.lt_of_succ_le (Nat.le_of_eq hseq.symm))
      | error cause t' =>
        rintro ⟨a', hturn, ht, -⟩
        exact ⟨a', ⟨a', hturn, .refl a'⟩, ht, nofun, nofun, nofun⟩
  | step pick =>
    cases saving with
    | none => exact ⟨a, .idle h⟩
    | some x =>
      obtain ⟨p, st⟩ := x
      have hasc := h.works.disk.1.writer.on.journal.ascending
      have hrun := busy_step p pick st t h
      rw [Part.run]
      revert hrun
      cases Action.onHost (p.step pick st) t with
      | ok next t' =>
        rintro ⟨a', htidy, hfirst, ht⟩
        have hsame := htidy.same hready hasc
        cases next with
        | some st' =>
          refine ⟨a', ⟨a, .stay, hsame⟩, ht, nofun, nofun, ?_⟩
          rintro p' st'' ⟨⟩
          exact Or.inr ⟨st, rfl⟩
        | none =>
          refine ⟨a', ⟨a, .stay, hsame⟩, ht, ?_, ?_, nofun⟩
          · rintro k ⟨⟩
            exact ⟨rfl, hsame.current ▸ h.awaits.1.reached, Or.inr ⟨p, st, rfl, rfl⟩⟩
          · rintro k ⟨⟩
            exact hfirst rfl
      | error cause t' =>
        intro ht
        exact ⟨a, ⟨a, .stay, .refl a⟩, ht, nofun, nofun, nofun⟩

end EntryLog

end LedgerStore
