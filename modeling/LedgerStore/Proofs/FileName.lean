import Mathlib.Algebra.Group.Nat.Defs
import Mathlib.Data.List.Infix
import LedgerStore.Checkpoint
import LedgerStore.Proofs.Digits

set_option autoImplicit false

namespace LedgerStore

namespace Hex

theorem digitChar_ne_plus {n : Nat} (h : n < 16) : '+' ≠ Nat.digitChar n := by
  have all : ∀ m : Fin 16, '+' ≠ Nat.digitChar m.val := by decide
  exact all ⟨n, h⟩

theorem plus_notMem_fixed (w n : Nat) : '+' ∉ fixed w n := by
  induction w generalizing n with
  | zero => simp [fixed]
  | succ w ih =>
    have hd := digitChar_ne_plus (Nat.mod_lt n (by omega : 16 > 0))
    simp [fixed, ih, hd]

theorem digits?_append (acc : Nat) (front back : List Char) :
    digits? acc (front ++ back) = (digits? acc front).bind (digits? · back) := by
  induction front generalizing acc with
  | nil => rfl
  | cons c front ih =>
    simp only [List.cons_append, digits?]
    cases digitValue? c with
    | none => rfl
    | some d => exact ih _

theorem digits?_fixed (w n acc : Nat) :
    digits? acc (fixed w n) = some (acc * 16 ^ w + n % 16 ^ w) := by
  induction w generalizing n with
  | zero => simp [fixed, digits?, Nat.mod_one]
  | succ w ih =>
    have hd := digitValue?_digitChar (Nat.mod_lt n (by omega : 16 > 0))
    rw [fixed, digits?_append, ih]
    simp only [Option.bind_some, digits?, hd, Option.some.injEq]
    rw [Nat.pow_succ', Nat.mod_mul, Nat.add_mul, Nat.mul_assoc, Nat.mul_comm (16 ^ w) 16]
    omega

theorem read?_fixed (w n : Nat) : read? (fixed (w+1) n) = some (n % 16 ^ (w+1)) := by
  have h := digits?_fixed (w+1) n 0
  have hp := plus_notMem_fixed (w+1) n
  have hlen := length_fixed (w+1) n
  cases hf : fixed (w+1) n with
  | nil => rw [hf] at hlen; simp at hlen
  | cons c cs =>
    rw [hf] at h hp
    have hc : c ≠ '+' := by
      intro hc
      exact hp (hc ▸ List.mem_cons_self)
    rw [read?, h]
    · simp
    · simp
    · simp [hc]
    · simp [hc]

end Hex

namespace FileName

/-- A name gives back the low 64 bits that were written in it. -/
theorem sequence?_render_mod (f : FileName) (n : Nat) :
    f.sequence? (f.render n) = some (n % sequenceBound) := by
  have hread := Hex.read?_fixed 15 n
  rw [show 16 ^ (15+1) = sequenceBound from rfl] at hread
  have hpre : f.before.isPrefixOf? (f.before ++ Hex.fixed 16 n ++ f.after) =
      some (Hex.fixed 16 n ++ f.after) := by simp
  have hsuf : f.after.isSuffixOf? (Hex.fixed 16 n ++ f.after) = some (Hex.fixed 16 n) := by simp
  have hlt : n % sequenceBound < sequenceBound := Nat.mod_lt n (by decide)
  simp only [sequence?, render, String.toList_ofList, Option.bind_eq_bind, hpre, hsuf, hread, hlt,
    Option.bind_some, if_true]

theorem sequence?_render (f : FileName) {n : Nat} (h : n < sequenceBound) :
    f.sequence? (f.render n) = some n := by
  rw [sequence?_render_mod, Nat.mod_eq_of_lt h]

theorem render_inj (f : FileName) {m n : Nat} (hm : m < sequenceBound) (hn : n < sequenceBound)
    (h : f.render m = f.render n) : m = n := by
  have hs := f.sequence?_render hm
  rw [h, f.sequence?_render hn] at hs
  exact (Option.some.inj hs).symm

def nameBytes (name : String) : Bytes :=
  name.toUTF8.data.toList

theorem nameBytes_ofList (cs : List Char) :
    nameBytes (String.ofList cs) = cs.flatMap String.utf8EncodeChar := by
  simp [nameBytes, String.toUTF8, List.utf8Encode]

/-- Names of one form are ordered byte by byte as their sequences. -/
theorem render_lt_iff (f : FileName) {m n : Nat} (hm : m < sequenceBound) (hn : n < sequenceBound) :
    nameBytes (f.render m) < nameBytes (f.render n) ↔ m < n := by
  have hstored : ∀ k, nameBytes (f.render k) = f.before.flatMap String.utf8EncodeChar ++
      (Hex.stored 16 k ++ f.after.flatMap String.utf8EncodeChar) := by
    intro k
    rw [render, nameBytes_ofList, List.flatMap_append, List.flatMap_append, List.append_assoc,
      Hex.stored]
  have hlength : (Hex.stored 16 m).length = (Hex.stored 16 n).length := by
    rw [Hex.positional_stored.length, Hex.positional_stored.length]
  rw [hstored, hstored, Bytes.append_lt_append_iff rfl, Bytes.append_lt_append_iff hlength,
    Hex.positional_stored.lt_iff hm hn]
  simp [List.lt_irrefl]

theorem shape_of_sequence? {f : FileName} {name : String} {n : Nat}
    (h : f.sequence? name = some n) :
    f.before <+: name.toList ∧ f.after <:+ name.toList := by
  simp only [sequence?, Option.bind_eq_bind, Option.bind_eq_some_iff] at h
  obtain ⟨rest, hrest, middle, hmiddle, _⟩ := h
  have hp := List.append_eq_of_isPrefixOf?_eq_some hrest
  have hs := List.append_eq_of_isSuffixOf?_eq_some hmiddle
  refine ⟨⟨rest, hp⟩, ⟨f.before ++ middle, ?_⟩⟩
  rw [List.append_assoc, hs, hp]

theorem sequence?_lt {f : FileName} {name : String} {n : Nat} (h : f.sequence? name = some n) :
    n < sequenceBound := by
  simp only [sequence?, Option.bind_eq_bind, Option.bind_eq_some_iff] at h
  obtain ⟨_, _, _, _, m, _, hm⟩ := h
  by_cases hlt : m < sequenceBound
  · simp only [hlt, if_true, Option.some.injEq] at hm
    omega
  · simp [hlt] at hm

end FileName

theorem FileName.before_begins_render (f : FileName) (n : Nat) :
    f.before <+: (f.render n).toList := by
  simp only [render, String.toList_ofList, List.append_assoc]
  exact List.prefix_append _ _

/-- No name begins like a journal file's and like a checkpoint's. -/
theorem Journal.before_apart {name : List Char} (hj : fileName.before <+: name) :
    ¬ Checkpoint.fileName.before <+: name := by
  rintro ⟨b, hb⟩
  obtain ⟨a, ha⟩ := hj
  have hj : fileName.before = 'j' :: "ournal-".toList := by decide
  have hc : Checkpoint.fileName.before = 'c' :: "heckpoint-".toList := by decide
  rw [← hb, hj, hc, List.cons_append, List.cons_append] at ha
  exact absurd (List.cons.inj ha).1 (by decide)

theorem Journal.sequence?_eq_none {name : String}
    (h : Checkpoint.fileName.before <+: name.toList) : Journal.fileName.sequence? name = none := by
  cases hs : Journal.fileName.sequence? name with
  | none => rfl
  | some n => exact absurd h (before_apart (FileName.shape_of_sequence? hs).1)

namespace Checkpoint

theorem sequence?_journal (n : Nat) : fileName.sequence? (Journal.fileName.render n) = none := by
  cases hs : fileName.sequence? (Journal.fileName.render n) with
  | none => rfl
  | some m =>
    exact absurd (FileName.shape_of_sequence? hs).1
      (Journal.before_apart (FileName.before_begins_render _ n))

theorem before_begins_temporaryName (n : Nat) :
    fileName.before <+: (temporaryName n).toList := by
  simp only [temporaryName, String.toList_append]
  exact (FileName.before_begins_render _ n).trans (List.prefix_append _ _)

theorem sequence?_eq_none {name : String} (h : temporarySuffix.toList <:+ name.toList) :
    fileName.sequence? name = none := by
  cases hs : fileName.sequence? name with
  | none => rfl
  | some n =>
    have hafter := (FileName.shape_of_sequence? hs).2
    exact absurd (List.suffix_of_suffix_length_le hafter h (by decide)) (by decide)

theorem temporarySuffix_ends_temporaryName (n : Nat) :
    temporarySuffix.toList <:+ (temporaryName n).toList := by
  simp only [temporaryName, String.toList_append]
  exact List.suffix_append _ _

theorem sequence?_temporaryName (n : Nat) : fileName.sequence? (temporaryName n) = none :=
  sequence?_eq_none (temporarySuffix_ends_temporaryName n)

end Checkpoint

end LedgerStore
