import LedgerStore.Record

/-!
The index of live entries: a finite map from keys to values, kept as a list in strictly increasing
order of the keys, so that equal maps are equal indexes.
-/

set_option autoImplicit false

namespace LedgerStore

abbrev Entry := Key × Bytes

abbrev Increasing (es : List Entry) : Prop :=
  es.Pairwise fun a b => a.1 < b.1

def insertEntry (e : Entry) : List Entry → List Entry
  | [] => [e]
  | f :: rest =>
    if e.1 < f.1 then e :: f :: rest
    else if e.1 = f.1 then e :: rest
    else f :: insertEntry e rest

theorem mem_insertEntry {e x : Entry} {es : List Entry} (h : x ∈ insertEntry e es) :
    x = e ∨ x ∈ es := by
  induction es with
  | nil => simpa [insertEntry] using h
  | cons f rest ih =>
    rw [insertEntry] at h
    split at h
    · simpa using h
    · split at h
      · rcases List.mem_cons.1 h with h | h
        · exact Or.inl h
        · exact Or.inr (List.mem_cons_of_mem _ h)
      · rcases List.mem_cons.1 h with h | h
        · exact Or.inr (h ▸ List.mem_cons_self)
        · exact (ih h).imp id (List.mem_cons_of_mem _)

theorem increasing_nil : Increasing [] :=
  List.Pairwise.nil

theorem increasing_insertEntry (e : Entry) {es : List Entry} (h : Increasing es) :
    Increasing (insertEntry e es) := by
  induction es with
  | nil => exact List.pairwise_singleton _ _
  | cons f rest ih =>
    have hf := List.pairwise_cons.1 h
    rw [insertEntry]
    split
    next lt =>
      refine List.pairwise_cons.2 ⟨fun x hx => ?_, h⟩
      rcases List.mem_cons.1 hx with rfl | hx
      · exact lt
      · exact Key.lt_trans lt (hf.1 x hx)
    next ge =>
      split
      next eq => exact List.pairwise_cons.2 ⟨fun x hx => eq ▸ hf.1 x hx, hf.2⟩
      next ne =>
        refine List.pairwise_cons.2 ⟨fun x hx => ?_, ih hf.2⟩
        rcases mem_insertEntry hx with rfl | hx
        · rcases Key.lt_or_eq_or_gt x.1 f.1 with lt | eq | gt
          · exact absurd lt ge
          · exact absurd eq ne
          · exact gt
        · exact hf.1 x hx

structure Index where
  entries : List Entry := []
  increasing : Increasing entries := by exact increasing_nil

namespace Index

def insert (i : Index) (key : Key) (value : Bytes) : Index :=
  ⟨insertEntry (key, value) i.entries, increasing_insertEntry _ i.increasing⟩

def replay (i : Index) (records : List Record) : Index :=
  records.foldl (fun i r => i.insert r.key r.value) i

def get? (i : Index) (key : Key) : Option Bytes :=
  i.entries.lookup key

def contains (i : Index) (key : Key) : Bool :=
  (i.get? key).isSome

def size (i : Index) : Nat :=
  i.entries.length

def ofLedger (i : Index) (ledger : Int64) : List Entry :=
  i.entries.filter fun e => e.1.ledger = ledger

def ledgers (i : Index) : List Int64 :=
  (i.entries.map fun e => e.1.ledger).eraseDups

def records (i : Index) : List Record :=
  i.entries.map fun e => ⟨e.1, e.2⟩

end Index

end LedgerStore
