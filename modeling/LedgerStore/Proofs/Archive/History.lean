import LedgerStore.Proofs.Archive.Saving

/-!
Archives and the history of all writes. Each write in an archive bears its place in the history.
The main statements say that whatever becomes of an archive, by its engine or by a crash, the last
write to a key stays the latest one there is, and no permanent write gives way to an earlier one.
-/

set_option autoImplicit false

namespace LedgerStore

def Write.Ordered (ws : List Write) : Prop :=
  ws.Pairwise fun w w' => w.record.key = w'.record.key → w.stamp < w'.stamp

theorem Write.Ordered.le_last {ws : List Write} (h : Write.Ordered ws) {w x : Write}
    (hw : w ∈ ws) (hx : last? ws w.record.key = some x) : w.stamp ≤ x.stamp := by
  induction ws with
  | nil => cases hw
  | cons y ws ih =>
    obtain ⟨hy, hws⟩ := List.pairwise_cons.1 h
    rw [← List.singleton_append, last?_append, last?_singleton] at hx
    cases hl : last? ws w.record.key with
    | none =>
      rcases List.mem_cons.1 hw with rfl | hw
      · simp only [hl, Option.none_or, ↓reduceIte, Option.some.injEq] at hx
        rw [hx]
      · obtain ⟨z, hz⟩ := last?_isSome hw
        rw [hl] at hz
        cases hz
    | some z =>
      rw [hl, Option.some_or] at hx
      cases hx
      rcases List.mem_cons.1 hw with rfl | hw
      · obtain ⟨hz, hkey⟩ := last?_eq_some hl
        exact Nat.le_of_lt (hy x hz hkey.symm)
      · exact ih hws hw hl

/-- What stands for some writes has for each of them that one or a later one to its key. -/
theorem Write.Digest.reaches {ws us : List Write} (h : Digest ws us) (hus : Ordered us)
    {w : Write} (hw : w ∈ us) : ∃ x ∈ ws, x.record.key = w.record.key ∧ w.stamp ≤ x.stamp := by
  obtain ⟨x, hx⟩ := last?_isSome hw
  have hle := hus.le_last hw hx
  rw [← h.last] at hx
  obtain ⟨hmem, hkey⟩ := last?_eq_some hx
  exact ⟨x, hmem, hkey, hle⟩

namespace Archive

/-- The writes are in the history, each at its stamp, and later ones replace earlier ones. -/
structure Tells (a : Archive) (history : List Record) : Prop where
  genuine : ∀ w ∈ a.writes, history[w.stamp]? = some w.record
  ordered : Write.Ordered a.writes

/-- A write to a key that is permanent, and has the stamp `i` or a higher one. -/
def Secured (a : Archive) (key : Key) (i : Nat) : Prop :=
  ∃ w ∈ a.safe, w.record.key = key ∧ i ≤ w.stamp

/-- Such a write that is permanent or will be so after the next sync. -/
def Held (a : Archive) (key : Key) (i : Nat) : Prop :=
  a.Secured key i ∨ ∃ w ∈ a.current.writes, w.record.key = key ∧ i ≤ w.stamp

/-- Such a write that is there, whether a crash can take it away or not. -/
def Retains (a : Archive) (key : Key) (i : Nat) : Prop :=
  ∃ w ∈ a.writes, w.record.key = key ∧ i ≤ w.stamp

/-- Such a write that a checkpoint numbered `n` would cover. -/
def Covers (a : Archive) (n : Nat) (key : Key) (i : Nat) : Prop :=
  ∃ w ∈ a.covered n, w.record.key = key ∧ i ≤ w.stamp

/-- No permanent write gives way to an earlier one. -/
structure Lasts (a a' : Archive) : Prop where
  tells : ∀ history, a.Tells history → a'.Tells history
  secured : ∀ history, a.Tells history → ∀ key i, a.Secured key i → a'.Secured key i

variable {a a' a'' : Archive} {history : List Record} {key : Key} {i : Nat}

theorem Lasts.refl (a : Archive) : a.Lasts a :=
  ⟨fun _ h => h, fun _ _ _ _ h => h⟩

theorem Lasts.trans (h : a.Lasts a') (h' : a'.Lasts a'') : a.Lasts a'' where
  tells history ht := h'.tells history (h.tells history ht)
  secured history ht key i hs :=
    h'.secured history (h.tells history ht) key i (h.secured history ht key i hs)

theorem Lasts.of_writes (hw : a'.writes = a.writes) (hs : a.safe ⊆ a'.safe) : a.Lasts a' where
  tells _ ht := ⟨hw ▸ ht.genuine, hw ▸ ht.ordered⟩
  secured _ _ _ _ := fun ⟨w, hmem, hw⟩ => ⟨w, hs hmem, hw⟩

theorem safe_subset (v : Volume) : v.safe ⊆ v.writes :=
  List.subset_append_left _ _

theorem mem_writes_of_safe {w : Write} (h : w ∈ a.safe) : w ∈ a.writes := by
  rcases List.mem_append.1 h with h | h
  · exact List.mem_append_left _ (safe_subset _ h)
  · obtain ⟨v, hv, hw⟩ := List.mem_flatMap.1 h
    exact List.mem_append_right _ (List.mem_flatMap.2 ⟨v, hv, safe_subset v hw⟩)

theorem Secured.last (h : a.Secured key i) (ht : a.Tells history) :
    ∃ w, Write.last? a.writes key = some w ∧ i ≤ w.stamp := by
  obtain ⟨w, hw, rfl, hi⟩ := h
  have hmem := mem_writes_of_safe hw
  obtain ⟨x, hx⟩ := Write.last?_isSome hmem
  exact ⟨x, hx, Nat.le_trans hi (ht.ordered.le_last hmem hx)⟩

theorem Open.safe_subset_synced (ha : a.Open) : a.safe ⊆ a.synced.safe := by
  rw [ha.safe, ha.safe_synced]
  exact List.append_subset.2 ⟨List.subset_append_left _ _,
    fun w hw => List.mem_append_right _ (safe_subset _ hw)⟩

theorem Turn.lasts (h : a.Turn a') (ha : a.Open) : a.Lasts a' := by
  refine .of_writes (h.writes ha) ?_
  cases h with
  | stay => exact List.Subset.refl _
  | sync => exact ha.safe_subset_synced
  | roll =>
    rw [safe_extend]
    exact ha.safe_subset_synced

theorem Reopen.lasts (h : a.Reopen a') : a.Lasts a' := by
  refine .of_writes h.writes ?_
  cases h with
  | same => exact List.Subset.refl _
  | fresh n least =>
    rw [safe_extend]
    exact List.Subset.refl _

theorem Held.synced (h : a.Held key i) (ha : a.Open) : a.synced.Secured key i := by
  rcases h with ⟨w, hw, hk⟩ | ⟨w, hw, hk⟩
  · exact ⟨w, ha.safe_subset_synced hw, hk⟩
  · rw [Secured, ha.safe_synced]
    exact ⟨w, List.mem_append_right _ hw, hk⟩

theorem Held.turn (h : a.Held key i) (hturn : a.Turn a') (ha : a.Open) : a'.Held key i := by
  cases hturn with
  | stay => exact h
  | sync => exact Or.inl (h.synced ha)
  | roll =>
    obtain ⟨w, hw, hk⟩ := h.synced ha
    exact Or.inl ⟨w, by rw [safe_extend]; exact hw, hk⟩

theorem Held.lasts (h : a.Held key i) (hlasts : a.Lasts a') (ht : a.Tells history)
    (hc : a'.current = a.current) : a'.Held key i := by
  rcases h with h | h
  · exact Or.inl (hlasts.secured history ht key i h)
  · exact Or.inr (hc ▸ h)

theorem Secured.add (h : a.Secured key i) (ha : a.Open) (w : Write) :
    (a.add w).Secured key i := by
  rw [Secured, ha.safe_add]
  exact h

theorem Held.add (h : a.Held key i) (ha : a.Open) (w : Write) : (a.add w).Held key i := by
  rcases h with h | ⟨x, hx, hk⟩
  · exact Or.inl (h.add ha w)
  · refine Or.inr ⟨x, ?_, hk⟩
    rw [Archive.add, current_amend, Volume.writes_add]
    exact List.mem_append_left _ hx

theorem held_add (a : Archive) (w : Write) : (a.add w).Held w.record.key w.stamp := by
  refine Or.inr ⟨w, ?_, rfl, Nat.le_refl _⟩
  rw [Archive.add, current_amend, Volume.writes_add]
  exact List.mem_append_right _ List.mem_cons_self

theorem Tells.add (h : a.Tells history) (ha : a.Open) (r : Record) :
    (a.add ⟨history.length, r⟩).Tells (history ++ [r]) := by
  have hstamp : ∀ w ∈ a.writes, w.stamp < history.length := fun w hw =>
    (List.getElem?_eq_some_iff.1 (h.genuine w hw)).1
  constructor
  · intro w hw
    rw [ha.writes_add] at hw
    rcases List.mem_append.1 hw with hw | hw
    · rw [List.getElem?_append_left (hstamp w hw), h.genuine w hw]
    · rw [List.mem_singleton.1 hw]
      simp
  · rw [ha.writes_add, Write.Ordered, List.pairwise_append]
    refine ⟨h.ordered, List.pairwise_singleton _ _, fun w hw x hx _ => ?_⟩
    rw [List.mem_singleton.1 hx]
    exact hstamp w hw

theorem writes_subset_covered {v : Volume} {n : Nat} (hv : v ∈ a.live) (hn : v.sequence < n) :
    v.writes ⊆ a.covered n := by
  intro w hw
  have hfilter : v ∈ a.live.filter fun x => x.sequence < n :=
    List.mem_filter.2 ⟨hv, by simpa using hn⟩
  exact List.mem_append_right _ (List.mem_flatMap.2 ⟨v, hfilter, hw⟩)

theorem mem_upFrom {v : Volume} {n : Nat} (hv : v ∈ a.live) (hn : ¬ v.sequence < n) :
    v ∈ a.upFrom n :=
  List.mem_filter.2 ⟨List.mem_of_mem_filter hv, by simpa using hn⟩

/-- What a checkpoint numbered `n` would not cover is in the journal files from there on. -/
theorem safe_covered_or {n : Nat} {w : Write} (hw : w ∈ a.safe) :
    w ∈ a.covered n ∨ w ∈ (a.upFrom n).flatMap (·.safe) := by
  rcases List.mem_append.1 hw with hw | hw
  · exact Or.inl (List.mem_append_left _ (safe_subset _ hw))
  · obtain ⟨v, hv, hmem⟩ := List.mem_flatMap.1 hw
    by_cases hlt : v.sequence < n
    · exact Or.inl (writes_subset_covered hv hlt (safe_subset v hmem))
    · exact Or.inr (List.mem_flatMap.2 ⟨v, mem_upFrom hv hlt, hmem⟩)

theorem Tells.ordered_covered (h : a.Tells history) (ha : Ascending a.journal) {n : Nat}
    (hn : a.first ≤ n) : Write.Ordered (a.covered n) := by
  have hall := h.ordered
  rw [Write.Ordered, writes_split ha hn] at hall
  exact (List.pairwise_append.1 hall).1

theorem lasts_publish (ha : Ascending a.journal) {v : Volume} (whole : v.Whole)
    (hv : a.first ≤ v.sequence) (agree : Write.Digest v.writes (a.covered v.sequence)) :
    a.Lasts (a.publish v) := by
  have hsplit := writes_split ha hv
  have hsafe : v.safe = v.writes := by rw [Volume.writes, whole.loose, List.append_nil]
  constructor
  · intro history ht
    have hordered := ht.ordered
    rw [Write.Ordered, hsplit, List.pairwise_append] at hordered
    obtain ⟨-, hup, hcross⟩ := hordered
    constructor
    · intro w hw
      rw [writes_publish] at hw
      refine ht.genuine w ?_
      rw [hsplit]
      rcases List.mem_append.1 hw with hw | hw
      · exact List.mem_append_left _ (agree.subset hw)
      · exact List.mem_append_right _ hw
    · -- Within the checkpoint no two writes have one key; those behind it were behind what it
      -- covers.
      rw [writes_publish, Write.Ordered, List.pairwise_append]
      refine ⟨agree.distinct.imp fun hne heq => absurd heq hne, hup, fun w hw x hx => ?_⟩
      exact hcross w (agree.subset hw) x hx
  · rintro history ht key i ⟨w, hw, rfl, hi⟩
    rw [Secured, safe_publish]
    rcases safe_covered_or hw with hcovered | hup
    · obtain ⟨x, hx, hkey, hle⟩ := agree.reaches (ht.ordered_covered ha hv) hcovered
      exact ⟨x, List.mem_append_left _ (hsafe ▸ hx), hkey, Nat.le_trans hi hle⟩
    · exact ⟨w, List.mem_append_right _ hup, rfl, hi⟩

theorem Tidy.lasts (h : a.Tidy a') (ha : Ascending a.journal) : a.Lasts a' := by
  cases h with
  | stay => exact .refl a
  | publish v whole above reached agree =>
    exact lasts_publish ha whole (a.first_le fun c hc => Nat.le_of_lt (above c hc)) agree
  | trim n below =>
    exact .of_writes (writes_trim below) (by rw [safe_trim below]; exact List.Subset.refl _)
  | discard n below =>
    exact .of_writes (writes_discard below) (by rw [safe_discard below]; exact List.Subset.refl _)

theorem covered_subset (a : Archive) (n : Nat) : a.covered n ⊆ a.writes := by
  refine List.append_subset.2 ⟨List.subset_append_left _ _, fun w hw => ?_⟩
  obtain ⟨v, hv, hmem⟩ := List.mem_flatMap.1 hw
  exact List.mem_append_right _ (List.mem_flatMap.2 ⟨v, List.mem_of_mem_filter hv, hmem⟩)

theorem Covers.retains {n : Nat} (h : a.Covers n key i) : a.Retains key i := by
  obtain ⟨w, hw, hkey⟩ := h
  exact ⟨w, a.covered_subset n hw, hkey⟩

theorem covers_publish (ha : Ascending a.journal) (ht : a.Tells history) {v : Volume} {n : Nat}
    (hv : a.first ≤ v.sequence) (agree : Write.Digest v.writes (a.covered v.sequence))
    (h : a.Covers n key i) : (a.publish v).Covers n key i := by
  obtain ⟨w, hw, rfl, hi⟩ := h
  have hcovered : (a.publish v).covered n =
      v.writes ++ ((a.upFrom v.sequence).filter fun x => x.sequence < n).flatMap (·.writes) := by
    rw [covered, live, first, newest_publish]
    rfl
  rw [Covers, hcovered]
  -- What the new checkpoint does not cover is in a journal file between the two.
  have hsplit : w ∈ a.covered v.sequence ∨
      w ∈ ((a.upFrom v.sequence).filter fun x => x.sequence < n).flatMap (·.writes) := by
    rcases List.mem_append.1 hw with hw | hw
    · exact Or.inl (List.mem_append_left _ hw)
    · obtain ⟨u, hu, hmem⟩ := List.mem_flatMap.1 hw
      obtain ⟨hlive, hun⟩ := List.mem_filter.1 hu
      by_cases hlt : u.sequence < v.sequence
      · exact Or.inl (writes_subset_covered hlive hlt hmem)
      · have hfilter : u ∈ (a.upFrom v.sequence).filter fun x => x.sequence < n :=
          List.mem_filter.2 ⟨mem_upFrom hlive hlt, hun⟩
        exact Or.inr (List.mem_flatMap.2 ⟨u, hfilter, hmem⟩)
  rcases hsplit with hw | hw
  · obtain ⟨x, hx, hkey, hle⟩ := agree.reaches (ht.ordered_covered ha hv) hw
    exact ⟨x, List.mem_append_left _ hx, hkey, Nat.le_trans hi hle⟩
  · exact ⟨w, List.mem_append_right _ hw, rfl, hi⟩

theorem Tidy.covers (h : a.Tidy a') (ha : Ascending a.journal) (ht : a.Tells history) {n : Nat}
    (hcovers : a.Covers n key i) : a'.Covers n key i := by
  cases h with
  | stay => exact hcovers
  | publish v whole above reached agree =>
    exact covers_publish ha ht (a.first_le fun c hc => Nat.le_of_lt (above c hc)) agree hcovers
  | trim m below =>
    rw [Covers, covered, live_trim below]
    exact hcovers
  | discard m below =>
    rw [Covers, covered, live_discard below, newest_discard below]
    exact hcovers

theorem Covers.secured {n : Nat} (h : a.Covers n key i) (hn : n ≤ a.first)
    (hwhole : a.newest.loose = []) : a.Secured key i := by
  obtain ⟨w, hw, hkey⟩ := h
  have hnone : (a.live.filter fun v => v.sequence < n) = [] := by
    rw [List.filter_eq_nil_iff]
    intro v hv
    have hfirst : a.first ≤ v.sequence := by simpa using (List.mem_filter.1 hv).2
    simp only [decide_eq_true_eq]
    omega
  rw [covered, hnone, List.flatMap_nil, List.append_nil, Volume.writes, hwhole,
    List.append_nil] at hw
  exact ⟨w, List.mem_append_left _ hw, hkey⟩

theorem live_cut {g : Volume → Volume} (hg : ∀ v ∈ a.journal, v.Cut (g v)) :
    (a.cut g).live = a.live.map g := by
  rw [live, upFrom, cut, List.filter_map, live, upFrom]
  refine congrArg _ (List.filter_congr fun v hv => ?_)
  rw [Function.comp_apply, (hg v hv).sequence]
  rfl

/-- A crash takes only writes that are not permanent, and with a write all later ones of its file. -/
theorem lasts_cut {g : Volume → Volume} (hg : ∀ v ∈ a.journal, v.Cut (g v)) :
    a.Lasts (a.cut g) := by
  have hlive : ∀ v ∈ a.live, v.Cut (g v) := fun v hv => hg v (List.mem_of_mem_filter hv)
  have hsub : ∀ vs : List Volume, (∀ v ∈ vs, v.Cut (g v)) →
      ((vs.map g).flatMap (·.writes)).Sublist (vs.flatMap (·.writes)) := by
    intro vs hvs
    induction vs with
    | nil => exact List.Sublist.refl _
    | cons v vs ih =>
      have hhead := (hvs v List.mem_cons_self).writes.sublist
      exact hhead.append (ih fun x hx => hvs x (List.mem_cons_of_mem _ hx))
  -- Each file keeps a front of its writes, so the order of all writes is not disturbed.
  have hwrites : (a.cut g).writes.Sublist a.writes := by
    rw [writes, live_cut hg]
    exact (hsub a.live hlive).append_left _
  have hsafe : (a.cut g).safe = a.safe := by
    rw [safe, live_cut hg, List.flatMap_map]
    refine congrArg _ (List.flatMap_congr fun v hv => ?_)
    exact (hlive v hv).safe
  constructor
  · intro history ht
    exact ⟨fun w hw => ht.genuine w (hwrites.subset hw), ht.ordered.sublist hwrites⟩
  · intro history _ key i h
    rw [Secured, hsafe]
    exact h

end Archive

end LedgerStore
