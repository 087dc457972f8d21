import LedgerStore.Proofs.Completion

set_option autoImplicit false

namespace LedgerStore.Completion.Waiter

structure Goes (w w' : Waiter) : Prop where
  cell : w'.cell = w.cell
  deadline : w'.deadline = w.deadline
  answer : ∀ answer, w.answer? = some answer → w'.answer? = some answer

/-- Where a thread may stand. It sleeps only while nothing is known, it gives up only when its
deadline has passed, and it comes back with nothing but the outcome. -/
structure Fits (w : Waiter) (cells : Completions) (now : Nat) : Prop where
  cell : w.cell < cells.cells.length
  asleep : w.stage = .asleep → cells.outcome? w.cell = none
  late : w.stage = .awake true ∨ w.stage = .returned none →
    ∃ deadline, w.deadline = some deadline ∧ deadline ≤ now
  told : ∀ o, w.stage = .returned (some o) → cells.outcome? w.cell = some o
  panicked : w.stage = .panicked ↔ ∃ deadline, w.deadline = some deadline ∧ instantBound ≤ deadline

variable {w w' w'' : Waiter} {cells cells' : Completions} {now now' : Nat} {o : Outcome}

theorem Goes.refl (w : Waiter) : w.Goes w :=
  ⟨rfl, rfl, fun _ => id⟩

theorem Goes.trans (h : w.Goes w') (h' : w'.Goes w'') : w.Goes w'' :=
  ⟨h'.cell.trans h.cell, h'.deadline.trans h.deadline, fun a ha => h'.answer a (h.answer a ha)⟩

theorem goes_look (w : Waiter) (known : Option Outcome) : w.Goes (w.look known) := by
  obtain ⟨cell, deadline, stage⟩ := w
  rcases stage with (late | late) | _ | answer | _ <;> cases known <;>
    exact ⟨rfl, rfl, by simp [look, answer?]⟩

theorem goes_notify (w : Waiter) : w.Goes w.notify := by
  obtain ⟨cell, deadline, stage⟩ := w
  cases stage <;> exact ⟨rfl, rfl, by simp [notify, answer?]⟩

theorem goes_expire (w : Waiter) (now : Nat) : w.Goes (w.expire now) := by
  rw [expire]
  split
  · next hstage _ =>
    split
    · exact ⟨rfl, rfl, by simp [answer?, hstage]⟩
    · exact .refl w
  · exact .refl w

theorem answer?_notify (w : Waiter) : w.notify.answer? = w.answer? := by
  obtain ⟨cell, deadline, stage⟩ := w
  cases stage <;> rfl

theorem answer?_expire (w : Waiter) (now : Nat) : (w.expire now).answer? = w.answer? := by
  rw [expire]
  split
  · next hstage _ => split <;> simp [answer?, hstage]
  · rfl

namespace Fits

theorem later (h : w.Fits cells now) (hlength : cells.cells.length ≤ cells'.cells.length)
    (houtcome : cells'.outcome? w.cell = cells.outcome? w.cell) (hnow : now ≤ now') :
    w.Fits cells' now' where
  cell := Nat.lt_of_lt_of_le h.cell hlength
  asleep hstage := houtcome ▸ h.asleep hstage
  late hstage := by
    obtain ⟨deadline, hdeadline, hle⟩ := h.late hstage
    exact ⟨deadline, hdeadline, Nat.le_trans hle hnow⟩
  told o hstage := houtcome ▸ h.told o hstage
  panicked := h.panicked

theorem look (h : w.Fits cells now) : (w.look (cells.outcome? w.cell)).Fits cells now := by
  obtain ⟨cell, deadline, stage⟩ := w
  have hpanicked := h.panicked
  rcases stage with (_ | _) | _ | _ | _ <;> cases hknown : cells.outcome? cell <;>
    simp only [Waiter.look]
  case awake.false.none =>
    exact ⟨h.cell, fun _ => hknown, by simp, by simp, by simpa using hpanicked⟩
  case awake.false.some | awake.true.some =>
    exact ⟨h.cell, by simp, by simp, by simp [hknown], by simpa using hpanicked⟩
  case awake.true.none =>
    exact ⟨h.cell, by simp, fun _ => h.late (Or.inl rfl), by simp, by simpa using hpanicked⟩
  all_goals exact h

theorem expire (h : w.Fits cells now) : (w.expire now).Fits cells now := by
  rw [Waiter.expire]
  split
  · next deadline hstage hdeadline =>
    split
    · next hle =>
      have hpanicked := h.panicked
      rw [hstage] at hpanicked
      exact ⟨h.cell, by simp, fun _ => ⟨deadline, hdeadline, hle⟩, by simp,
        by simpa using hpanicked⟩
    · exact h
  · exact h

/-- The resolver notifies those who sleep on the cell that it settles. -/
theorem settled (h : w.Fits cells now) (cell : Nat) (o : Outcome) :
    (if w.cell = cell then w.notify else w).Fits (cells.resolve cell o) now := by
  have hlength : w.cell < (cells.resolve cell o).cells.length := by
    rw [Completions.length_resolve]
    exact h.cell
  have htold : ∀ p, w.stage = .returned (some p) →
      (cells.resolve cell o).outcome? w.cell = some p :=
    fun p hstage => Completions.outcome?_resolve_of_known (h.told p hstage) cell o
  split
  · have hpanicked := h.panicked
    rw [notify]
    split
    · next hstage =>
      rw [hstage] at hpanicked
      exact ⟨hlength, by simp, by simp, by simp, by simpa using hpanicked⟩
    · next hstage => exact ⟨hlength, fun heq => absurd heq hstage, h.late, htold, hpanicked⟩
  · next hne =>
    refine h.later (Nat.le_of_eq (Completions.length_resolve _ _ _).symm) ?_ (Nat.le_refl _)
    rw [Completions.outcome?, Completions.cell_resolve, if_neg (Ne.symm hne)]
    rfl

end Fits

end LedgerStore.Completion.Waiter
