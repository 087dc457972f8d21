import Mathlib.Data.List.Basic
import LedgerStore.Completion

set_option autoImplicit false

namespace LedgerStore

namespace Completion.Cell

theorem resolve_of_known {c : Cell} {o : Outcome} (h : c.outcome = some o) (other : Outcome) :
    (c.resolve other).outcome = some o := by
  rw [resolve]
  split <;> simp [h]

theorem outcome_resolve (c : Cell) (o : Outcome) :
    (c.resolve o).outcome = c.outcome ∨ (c.resolve o).outcome = some o := by
  rw [resolve]
  split
  · cases hc : c.outcome <;> simp
  · exact Or.inl rfl

end Completion.Cell

namespace Completions

def Pending (s : Completions) (id : Nat) : Prop :=
  s.cells[id]? = some .pending

variable {s : Completions} {id other : Nat} {o : Outcome} {c : Completion.Cell}

theorem Pending.outcome? (h : s.Pending id) : s.outcome? id = none := by
  simp [Completions.outcome?, show s.cells[id]? = some .pending from h, Completion.Cell.pending]

theorem Pending.lt (h : s.Pending id) : id < s.cells.length :=
  (List.getElem?_eq_some_iff.1 h).1

theorem lt_of_outcome? (h : s.outcome? id = some o) : id < s.cells.length := by
  rw [Completions.outcome?] at h
  obtain ⟨cell, hcell, -⟩ := Option.bind_eq_some_iff.1 h
  exact (List.getElem?_eq_some_iff.1 hcell).1

@[simp] theorem fst_add (s : Completions) (c : Completion.Cell) :
    (s.add c).1 = s.cells.length := rfl

theorem length_add (s : Completions) (c : Completion.Cell) :
    (s.add c).2.cells.length = s.cells.length + 1 := by
  simp [add]

theorem cell_add (s : Completions) (c : Completion.Cell) (id : Nat) :
    (s.add c).2.cells[id]? = if id = s.cells.length then some c else s.cells[id]? := by
  rw [add, List.getElem?_append]
  by_cases hid : id < s.cells.length
  · have hne : id ≠ s.cells.length := by omega
    rw [if_pos hid, if_neg hne]
  · rw [if_neg hid, List.getElem?_singleton]
    by_cases heq : id = s.cells.length
    · have hzero : id - s.cells.length = 0 := by omega
      rw [if_pos heq, if_pos hzero]
    · have hzero : id - s.cells.length ≠ 0 := by omega
      have hle : s.cells.length ≤ id := by omega
      rw [if_neg heq, if_neg hzero, List.getElem?_eq_none hle]

theorem Pending.add (h : s.Pending id) (c : Completion.Cell) : (s.add c).2.Pending id := by
  have hne : id ≠ s.cells.length := Nat.ne_of_lt h.lt
  rw [Pending, cell_add, if_neg hne]
  exact h

theorem outcome?_add (s : Completions) (c : Completion.Cell) (id : Nat) :
    (s.add c).2.outcome? id = if id = s.cells.length then c.outcome else s.outcome? id := by
  rw [outcome?, cell_add]
  split
  · rfl
  · rfl

theorem outcome?_add_of_known (h : s.outcome? id = some o) (c : Completion.Cell) :
    (s.add c).2.outcome? id = some o := by
  have hne : id ≠ s.cells.length := Nat.ne_of_lt (lt_of_outcome? h)
  rw [outcome?_add, if_neg hne, h]

@[simp] theorem length_resolve (s : Completions) (id : Nat) (o : Outcome) :
    (s.resolve id o).cells.length = s.cells.length := by
  simp [resolve]

theorem cell_resolve (s : Completions) (id : Nat) (o : Outcome) (other : Nat) :
    (s.resolve id o).cells[other]? =
      if id = other then (s.cells[other]?).map (·.resolve o) else s.cells[other]? := by
  rw [resolve, List.getElem?_modify]
  split
  · rfl
  · simp

theorem Pending.resolve (h : s.Pending id) (hne : other ≠ id) (o : Outcome) :
    (s.resolve other o).Pending id := by
  rw [Pending, cell_resolve, if_neg hne]
  exact h

theorem outcome?_resolve (h : s.Pending id) (o : Outcome) (other : Nat) :
    (s.resolve id o).outcome? other = if id = other then some o else s.outcome? other := by
  rw [outcome?, cell_resolve]
  split
  · next heq =>
    rw [← heq, show s.cells[id]? = some .pending from h]
    rfl
  · rfl

theorem outcome?_resolve_of_known (h : s.outcome? id = some o) (other : Nat) (p : Outcome) :
    (s.resolve other p).outcome? id = some o := by
  obtain ⟨cell, hcell, ho⟩ := Option.bind_eq_some_iff.1 h
  rw [outcome?, cell_resolve]
  split
  · rw [hcell]
    exact Completion.Cell.resolve_of_known ho p
  · exact h

/-- What is known after a write is settled was known before, or is what it is settled with. -/
theorem outcome?_of_resolve {p : Outcome} (h : (s.resolve other o).outcome? id = some p) :
    s.outcome? id = some p ∨ p = o := by
  rw [outcome?, cell_resolve] at h
  split at h
  · obtain ⟨cell, hcell, hp⟩ := Option.bind_eq_some_iff.1 h
    obtain ⟨old, hold, rfl⟩ := Option.map_eq_some_iff.1 hcell
    rcases old.outcome_resolve o with hsame | hnew
    · exact Or.inl (Option.bind_eq_some_iff.2 ⟨old, hold, hsame ▸ hp⟩)
    · exact Or.inr (Option.some.inj (hp.symm.trans hnew))
  · exact Or.inl h

theorem drop_eq (s : Completions) (id : Nat) :
    s.drop id = s.resolve id (.error .shuttingDown) := rfl

theorem dropAll_cons (s : Completions) (id : Nat) (ids : List Nat) :
    s.dropAll (id :: ids) = (s.drop id).dropAll ids := rfl

@[simp] theorem length_dropAll (s : Completions) (ids : List Nat) :
    (s.dropAll ids).cells.length = s.cells.length := by
  induction ids generalizing s with
  | nil => rfl
  | cons id ids ih => rw [dropAll_cons, ih, drop_eq, length_resolve]

theorem outcome?_dropAll_of_known (h : s.outcome? id = some o) (ids : List Nat) :
    (s.dropAll ids).outcome? id = some o := by
  induction ids generalizing s with
  | nil => exact h
  | cons other ids ih =>
    rw [dropAll_cons]
    exact ih (outcome?_resolve_of_known h other _)

theorem Pending.dropAll {ids : List Nat} (h : s.Pending id) (hid : id ∉ ids) :
    (s.dropAll ids).Pending id := by
  induction ids generalizing s with
  | nil => exact h
  | cons other ids ih =>
    rw [List.mem_cons, not_or] at hid
    rw [dropAll_cons]
    exact ih (h.resolve (Ne.symm hid.1) _) hid.2

theorem outcome?_dropAll {ids : List Nat} (hids : ids.Nodup) (h : ∀ id ∈ ids, s.Pending id)
    (other : Nat) :
    (s.dropAll ids).outcome? other =
      if other ∈ ids then some (.error .shuttingDown) else s.outcome? other := by
  induction ids generalizing s with
  | nil => rfl
  | cons id ids ih =>
    obtain ⟨hid, hids⟩ := List.nodup_cons.1 hids
    have hhead := outcome?_resolve (h id List.mem_cons_self) (.error .shuttingDown) other
    have hrest : ∀ x ∈ ids, (s.drop id).Pending x := by
      intro x hx
      have hne : id ≠ x := fun heq => hid (heq ▸ hx)
      exact (h x (List.mem_cons_of_mem _ hx)).resolve hne _
    rw [dropAll_cons, ih hids hrest, drop_eq, hhead]
    by_cases heq : id = other
    · simp [heq]
    · simp [heq, Ne.symm heq]

end Completions

end LedgerStore
