import Mathlib.Data.List.Nodup
import LedgerStore.Checkpoint
import LedgerStore.Proofs.Archive.Shelf

set_option autoImplicit false

namespace LedgerStore

namespace Journal

theorem File.le_iff {a b : File} :
    File.le a b = true ↔ a.1 < b.1 ∨ (a.1 = b.1 ∧ a.2 ≤ b.2) := by
  simp [File.le]

theorem File.le_trans (a b c : File) (hab : File.le a b = true) (hbc : File.le b c = true) :
    File.le a c = true := by
  rw [le_iff] at *
  rcases hab with hab | ⟨hab, hab'⟩
  · rcases hbc with hbc | ⟨hbc, -⟩
    · exact Or.inl (Nat.lt_trans hab hbc)
    · exact Or.inl (hbc ▸ hab)
  · rcases hbc with hbc | ⟨hbc, hbc'⟩
    · exact Or.inl (hab ▸ hbc)
    · exact Or.inr ⟨hab.trans hbc, String.le_trans hab' hbc'⟩

theorem File.le_total (a b : File) : (File.le a b || File.le b a) = true := by
  rw [Bool.or_eq_true, le_iff, le_iff]
  rcases Nat.lt_trichotomy a.1 b.1 with h | h | h
  · exact Or.inl (Or.inl h)
  · exact (String.le_total a.2 b.2).imp (fun hs => Or.inr ⟨h, hs⟩) fun hs => Or.inr ⟨h.symm, hs⟩
  · exact Or.inr (Or.inl h)

theorem File.le_antisymm {a b : File} (hab : File.le a b = true) (hba : File.le b a = true) :
    a = b := by
  rw [le_iff] at hab hba
  have hs : a.1 = b.1 := by omega
  rcases hab with h | ⟨-, hab⟩
  · omega
  · rcases hba with h | ⟨-, hba⟩
    · omega
    · exact Prod.ext hs (String.le_antisymm hab hba)

theorem perm_files (names : List String) : (files names).Perm (fileName.parsed names) :=
  List.mergeSort_perm _ _

theorem sorted_files (names : List String) :
    (files names).Pairwise fun a b => File.le a b = true :=
  List.pairwise_mergeSort File.le_trans File.le_total _

theorem files_insert {names names' : List String} {file : File}
    (h : fileName.parsed names' = file :: fileName.parsed names) :
    ∃ front back, files names' = front ++ file :: back ∧ files names = front ++ back := by
  have hperm := perm_files names'
  have hsorted := sorted_files names'
  rw [h] at hperm
  obtain ⟨front, back, heq⟩ := List.append_of_mem (hperm.mem_iff.2 List.mem_cons_self)
  rw [heq] at hperm hsorted
  have hrest : (front ++ back).Perm (files names) :=
    ((List.perm_middle.symm.trans hperm).cons_inv).trans (perm_files names).symm
  refine ⟨front, back, heq, (hrest.eq_of_pairwise (fun _ _ _ _ => File.le_antisymm) ?_
    (sorted_files names)).symm⟩
  exact hsorted.sublist ((List.sublist_cons_self file back).append_left front)

structure Listed (kind : File → Prop) (fs : List File) : Prop where
  ordered : fs.Pairwise fun a b => a.1 < b.1 ∨ (a.1 = b.1 ∧ a.2 ≤ b.2)
  once : fs.Nodup
  mem : ∀ file, file ∈ fs ↔ kind file

theorem listed_files {names : List String} (h : names.Nodup) :
    Listed (fun file => file.2 ∈ names ∧ fileName.sequence? file.2 = some file.1) (files names) := by
  have honce : (fileName.parsed names).Nodup := by
    refine List.Nodup.filterMap (fun a b f hf hg => ?_) h
    obtain ⟨_, _, rfl⟩ := Option.map_eq_some_iff.1 hf
    obtain ⟨_, _, heq⟩ := Option.map_eq_some_iff.1 hg
    exact (congrArg Prod.snd heq).symm
  exact
    { ordered := (sorted_files names).imp File.le_iff.1
      once := (perm_files names).nodup_iff.2 honce
      mem := fun file => (perm_files names).mem_iff.trans FileName.mem_parsed }

namespace Listed

variable {kind kind' : File → Prop} {fs fs' : List File}

theorem congr (h : Listed kind fs) (hkind : ∀ file, kind file ↔ kind' file) : Listed kind' fs :=
  ⟨h.ordered, h.once, fun file => (h.mem file).trans (hkind file)⟩

theorem unique (h : Listed kind fs) (h' : Listed kind fs') : fs = fs' := by
  have hperm : fs.Perm fs' :=
    (List.perm_ext_iff_of_nodup h.once h'.once).2 fun file => (h.mem file).trans (h'.mem file).symm
  exact hperm.eq_of_pairwise
    (fun _ _ _ _ hab hba => File.le_antisymm (File.le_iff.2 hab) (File.le_iff.2 hba))
    h.ordered h'.ordered

theorem filter (h : Listed kind fs) (p : File → Bool) :
    Listed (fun file => kind file ∧ p file = true) (fs.filter p) where
  ordered := h.ordered.filter p
  once := h.once.filter p
  mem file := by rw [List.mem_filter, h.mem]

theorem split (h : Listed kind fs) (s : Nat) :
    (fs.filter fun file => file.1 < s) ++ (fs.filter fun file => s ≤ file.1) = fs ∧
      (fs.takeWhile fun file => file.1 < s) = fs.filter fun file => file.1 < s := by
  have hordered := h.ordered
  clear h
  induction fs with
  | nil => exact ⟨rfl, rfl⟩
  | cons file fs ih =>
    obtain ⟨hhead, htail⟩ := List.pairwise_cons.1 hordered
    obtain ⟨hsplit, htake⟩ := ih htail
    by_cases hlt : file.1 < s
    · have hge : ¬ s ≤ file.1 := by omega
      simp [hlt, hge, hsplit, htake]
    · have hlow : fs.filter (fun file => file.1 < s) = [] := by
        rw [List.filter_eq_nil_iff]
        intro other hother
        have := hhead other hother
        simp only [decide_eq_true_eq]
        omega
      rw [hlow, List.nil_append] at hsplit
      have hge : s ≤ file.1 := by omega
      simp [hlt, hge, hsplit, hlow]

end Listed

end Journal

theorem Numbered.files_journal {V : Type} {sequence : V → Nat} {holds : V → FileData → Prop}
    {dir : Place} {vs : List V} {d : Disk}
    (h : Numbered sequence holds Journal.fileName dir vs d) :
    Journal.files (d.names dir) = vs.map fun v => Journal.fileName.label (sequence v) := by
  have hperm := (Journal.perm_files (d.names dir)).trans h.named
  refine List.Perm.eq_of_pairwise (fun _ _ _ _ => Journal.File.le_antisymm)
    (Journal.sorted_files _) ?_ hperm
  rw [List.pairwise_map]
  exact h.ascending.imp fun hlt => Journal.File.le_iff.2 (Or.inl hlt)

namespace Checkpoint

def better (best : Option (Nat × String)) (f : Nat × String) : Option (Nat × String) :=
  match best with
  | none => some f
  | some b => if b.1 < f.1 then some f else best

theorem highest_eq (names : List String) :
    highest names = (fileName.parsed names).foldl better none := by
  rw [highest, FileName.parsed, List.foldl_filterMap]
  congr 1
  funext best name
  cases fileName.sequence? name with
  | none => rfl
  | some n => cases best <;> rfl

theorem foldl_better (b : Nat × String) (fs : List (Nat × String)) :
    ∃ m, fs.foldl better (some b) = some m ∧ m ∈ b :: fs ∧ ∀ f ∈ b :: fs, f.1 ≤ m.1 := by
  induction fs generalizing b with
  | nil => exact ⟨b, rfl, List.mem_cons_self, by simp⟩
  | cons f fs ih =>
    rw [List.foldl_cons, better]
    by_cases hlt : b.1 < f.1
    · rw [if_pos hlt]
      obtain ⟨m, hm, hmem, hmax⟩ := ih f
      refine ⟨m, hm, List.mem_cons_of_mem _ hmem, ?_⟩
      have hf := hmax f List.mem_cons_self
      simp only [List.mem_cons, forall_eq_or_imp] at hmax ⊢
      exact ⟨by omega, hmax⟩
    · rw [if_neg hlt]
      obtain ⟨m, hm, hmem, hmax⟩ := ih b
      have hb := hmax b List.mem_cons_self
      simp only [List.mem_cons, forall_eq_or_imp] at hmem hmax ⊢
      exact ⟨m, hm, hmem.imp id Or.inr, hmax.1, by omega, hmax.2⟩

theorem highest_cases (names : List String) :
    highest names = none ∧ fileName.parsed names = [] ∨
      ∃ m, highest names = some m ∧ m ∈ fileName.parsed names ∧
        ∀ f ∈ fileName.parsed names, f.1 ≤ m.1 := by
  rw [highest_eq]
  cases fileName.parsed names with
  | nil => exact Or.inl ⟨rfl, rfl⟩
  | cons f fs => exact Or.inr (foldl_better f fs)

end Checkpoint

theorem Shelf.highest_checkpoint {dir : Place} {vs : List Volume} {d : Disk}
    (h : Shelf Checkpoint.fileName dir vs d) :
    Checkpoint.highest (d.names dir) =
      vs.getLast?.map fun v => Checkpoint.fileName.label v.sequence := by
  have hnamed := h.named
  rcases Checkpoint.highest_cases (d.names dir) with ⟨hnone, hnil⟩ | ⟨m, hm, hmem, hmax⟩
  · rw [hnil] at hnamed
    have hvs : vs = [] := by simpa using hnamed.nil_eq
    simp [hnone, hvs]
  · rw [hm]
    obtain ⟨v, hv, rfl⟩ := List.mem_map.1 (hnamed.mem_iff.1 hmem)
    obtain ⟨front, last, rfl⟩ :=
      (List.eq_nil_or_concat' vs).resolve_left (List.ne_nil_of_mem hv)
    have hle : last.sequence ≤ v.sequence :=
      hmax _ (hnamed.mem_iff.2 (List.mem_map.2 ⟨last, by simp, rfl⟩))
    rw [List.getLast?_concat, Option.map_some]
    rcases List.mem_append.1 hv with hfront | hlast
    · have hlt := (List.pairwise_append.1 h.ascending).2.2 v hfront last (by simp)
      omega
    · rw [List.mem_singleton.1 hlast]

end LedgerStore
