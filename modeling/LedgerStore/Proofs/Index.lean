import LedgerStore.Index

set_option autoImplicit false

namespace LedgerStore

namespace Key

theorem not_lt_of_eq {a b : Key} (h : a = b) : ¬ a < b := by
  intro hlt
  exact lt_irrefl b (h ▸ hlt)

theorem lt_asymm {a b : Key} (h : a < b) : ¬ b < a := by
  intro hba
  exact lt_irrefl a (lt_trans h hba)

end Key

abbrev Contents := Key → Option Bytes

namespace Contents

def empty : Contents := fun _ => none

def put (m : Contents) (r : Record) : Contents :=
  fun key => if key = r.key then some r.value else m key

def after (m : Contents) (rs : List Record) : Contents :=
  rs.foldl put m

end Contents

theorem lookup_entry (f : Entry) (es : List Entry) (k : Key) :
    (f :: es).lookup k = if k = f.1 then some f.2 else es.lookup k := by
  obtain ⟨fk, fv⟩ := f
  by_cases hk : k = fk
  · simp [hk]
  · have hb : (k == fk) = false := by simpa using hk
    simp [List.lookup_cons, hb, hk]

theorem lookup_insertEntry (e : Entry) (es : List Entry) (k : Key) :
    (insertEntry e es).lookup k = if k = e.1 then some e.2 else es.lookup k := by
  induction es with
  | nil => rw [insertEntry, lookup_entry]
  | cons f rest ih =>
    rw [insertEntry]
    split
    · rw [lookup_entry]
    · split
      · next heq => rw [lookup_entry, lookup_entry, ← heq]; split <;> rfl
      · next hne =>
        rw [lookup_entry, ih, lookup_entry]
        by_cases hk : k = e.1
        · rw [if_neg (hk ▸ hne), if_pos hk, if_pos hk]
        · rw [if_neg hk, if_neg hk]

theorem lookup_eq_some_iff {es : List Entry} (h : Increasing es) {k : Key} {v : Bytes} :
    es.lookup k = some v ↔ (k, v) ∈ es := by
  induction es with
  | nil => simp
  | cons f rest ih =>
    have hf := List.pairwise_cons.1 h
    rw [lookup_entry, List.mem_cons]
    by_cases hk : k = f.1
    · have hn : (k, v) ∉ rest := fun hm => Key.not_lt_of_eq hk.symm (hf.1 _ hm)
      rw [if_pos hk, Option.some.injEq]
      constructor
      · intro hv; exact Or.inl (Prod.ext hk hv.symm)
      · rintro (hv | hm)
        · exact (congrArg Prod.snd hv).symm
        · exact absurd hm hn
    · have hn : (k, v) ≠ f := fun hv => hk (congrArg Prod.fst hv)
      rw [if_neg hk, ih hf.2, or_iff_right hn]

namespace Index

@[ext] theorem ext {i j : Index} (h : i.entries = j.entries) : i = j := by
  cases i; cases j; congr

@[simp] theorem get?_empty : get? {} = Contents.empty := rfl

theorem get?_insert (i : Index) (key : Key) (value : Bytes) :
    (i.insert key value).get? = Contents.put i.get? ⟨key, value⟩ := by
  funext k
  exact lookup_insertEntry (key, value) i.entries k

theorem replay_append (i : Index) (rs qs : List Record) :
    i.replay (rs ++ qs) = (i.replay rs).replay qs := by
  simp [replay]

theorem replay_singleton (i : Index) (r : Record) : i.replay [r] = i.insert r.key r.value := rfl

theorem get?_replay (i : Index) (rs : List Record) :
    (i.replay rs).get? = Contents.after i.get? rs := by
  induction rs generalizing i with
  | nil => rfl
  | cons r rs ih =>
    rw [replay, List.foldl_cons, ← replay, ih, get?_insert]
    rfl

theorem contains_eq (i : Index) (key : Key) : i.contains key = (i.get? key).isSome := rfl

theorem nodup_entries (i : Index) : i.entries.Nodup :=
  i.increasing.imp fun hlt heq => Key.not_lt_of_eq (congrArg Prod.fst heq) hlt

theorem mem_entries {i : Index} {k : Key} {v : Bytes} :
    (k, v) ∈ i.entries ↔ i.get? k = some v :=
  (lookup_eq_some_iff i.increasing).symm

theorem ext_get? {i j : Index} (h : i.get? = j.get?) : i = j := by
  have hperm : i.entries.Perm j.entries := by
    refine (List.perm_ext_iff_of_nodup i.nodup_entries j.nodup_entries).2 fun e => ?_
    rw [mem_entries, mem_entries, h]
  refine ext (List.Perm.eq_of_pairwise (fun _ _ _ _ hab hba => ?_) i.increasing j.increasing hperm)
  exact absurd hba (Key.lt_asymm hab)

theorem mem_ofLedger {i : Index} {ledger : Int64} {k : Key} {v : Bytes} :
    (k, v) ∈ i.ofLedger ledger ↔ k.ledger = ledger ∧ i.get? k = some v := by
  simp [ofLedger, ← mem_entries, and_comm]

theorem ofLedger_increasing (i : Index) (ledger : Int64) :
    (i.ofLedger ledger).Pairwise fun a b => a.1.entry < b.1.entry := by
  have hp : (i.ofLedger ledger).Pairwise fun a b => a.1 < b.1 := i.increasing.filter _
  refine hp.imp_of_mem ?_
  intro a b ha hb hlt
  have ha' : a.1.ledger = ledger := by simpa [ofLedger] using (List.mem_filter.1 ha).2
  have hb' : b.1.ledger = ledger := by simpa [ofLedger] using (List.mem_filter.1 hb).2
  rcases (Key.lt_def _ _).1 hlt with h | ⟨_, h⟩
  · rw [ha', hb'] at h
    exact absurd h (Int64.lt_irrefl)
  · exact h

def keys (i : Index) : List Key :=
  i.entries.map (·.1)

theorem keys_nodup (i : Index) : i.keys.Nodup := by
  rw [keys, List.Nodup, List.pairwise_map]
  exact i.increasing.imp fun hlt heq => Key.not_lt_of_eq heq hlt

theorem mem_keys {i : Index} {k : Key} : k ∈ i.keys ↔ (i.get? k).isSome := by
  rw [Option.isSome_iff_exists, keys, List.mem_map]
  constructor
  · rintro ⟨⟨_, v⟩, hm, rfl⟩
    exact ⟨v, mem_entries.1 hm⟩
  · rintro ⟨v, hv⟩
    exact ⟨(k, v), mem_entries.2 hv, rfl⟩

@[simp] theorem length_keys (i : Index) : i.keys.length = i.size := by
  simp [keys, size]

end Index

end LedgerStore
