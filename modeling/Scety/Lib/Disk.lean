import Mathlib.Data.List.Basic
import Mathlib.Logic.Function.Basic

/-!
# Files and their names

An entry of a disk names a file, and the contents belong to the file: who has opened it writes on when the
entry is gone, or when somebody else has emptied it.  A write goes to a place of the file, and a gap before
that place is filled with zeros.  So a file that is written from several sides at once is made of what is
written there, place by place.
-/

namespace Scety.Disks

variable {P B : Type*}

structure Disk (P B : Type*) where
  entry : P → Option ℕ
  data : ℕ → List B
  /-- The number of the next file. -/
  next : ℕ
  entry_lt : ∀ {p file}, entry p = some file → file < next

namespace Disk

variable (d : Disk P B) {p q : P} {file file' : ℕ} {bs : List B}

/-- The contents of the file of this name. -/
def read (p : P) : Option (List B) := (d.entry p).map d.data

/-- The file gets other contents. -/
def put (file : ℕ) (bs : List B) : Disk P B := { d with data := Function.update d.data file bs }

@[simp] theorem put_data_self : (d.put file bs).data file = bs := Function.update_self ..

theorem put_data_of_ne (h : file' ≠ file) : (d.put file bs).data file' = d.data file' :=
  Function.update_of_ne h ..

section Entries

variable [DecidableEq P]

/-- A new file without contents. -/
def add (p : P) : Disk P B where
  entry := Function.update d.entry p (some d.next)
  data := Function.update d.data d.next []
  next := d.next + 1
  entry_lt := by
    intro q file h
    by_cases hq : q = p
    · rw [hq, Function.update_self] at h
      obtain rfl := Option.some.inj h
      exact Nat.lt_succ_self _
    · rw [Function.update_of_ne hq] at h
      exact Nat.lt_succ_of_lt (d.entry_lt h)

/-- The entry is removed; the file stays for those who have opened it. -/
def remove (p : P) : Disk P B where
  entry := Function.update d.entry p none
  data := d.data
  next := d.next
  entry_lt := by
    intro q file h
    by_cases hq : q = p
    · rw [hq, Function.update_self] at h
      exact nomatch h
    · rw [Function.update_of_ne hq] at h
      exact d.entry_lt h

@[simp] theorem add_entry_self : (d.add p).entry p = some d.next := Function.update_self ..

theorem add_entry_of_ne (h : q ≠ p) : (d.add p).entry q = d.entry q := Function.update_of_ne h ..

@[simp] theorem add_data_self : (d.add p).data d.next = [] := Function.update_self ..

theorem add_data_of_lt (h : file < d.next) : (d.add p).data file = d.data file :=
  Function.update_of_ne (Nat.ne_of_lt h) ..

@[simp] theorem remove_entry_self : (d.remove p).entry p = none := Function.update_self ..

theorem remove_entry_of_ne (h : q ≠ p) : (d.remove p).entry q = d.entry q := Function.update_of_ne h ..

/-- The entries after a file was created. -/
theorem entry_of_add (h : (d.add p).entry q = some file) :
    (q = p ∧ file = d.next) ∨ (q ≠ p ∧ d.entry q = some file) := by
  by_cases hq : q = p
  · subst hq
    rw [add_entry_self] at h
    exact Or.inl ⟨rfl, (Option.some.inj h).symm⟩
  · rw [add_entry_of_ne d hq] at h
    exact Or.inr ⟨hq, h⟩

/-- The entries after one was removed. -/
theorem entry_of_remove (h : (d.remove p).entry q = some file) : d.entry q = some file := by
  by_cases hq : q = p
  · subst hq
    rw [remove_entry_self] at h
    exact absurd h.symm (Option.some_ne_none file)
  · rwa [remove_entry_of_ne d hq] at h

end Entries

end Disk

/-! ### Contents that are written in pieces -/

variable [Zero B]

/-- A piece is written at a place, behind zeros if the contents end before it. -/
def writePiece (bs : List B) (offset : ℕ) (piece : List B) : List B :=
  bs.take offset ++ List.replicate (offset - bs.length) 0 ++ piece ++ bs.drop (offset + piece.length)

theorem getElem?_writePiece (bs piece : List B) (offset k : ℕ) :
    (writePiece bs offset piece)[k]? = if k < offset then some (bs[k]?.getD 0)
      else if k < offset + piece.length then piece[k - offset]? else bs[k]? := by
  have hfront : (bs.take offset ++ List.replicate (offset - bs.length) 0).length = offset := by
    rw [List.length_append, List.length_take, List.length_replicate]
    omega
  unfold writePiece
  rw [List.append_assoc]
  by_cases hk : k < offset
  · rw [if_pos hk, List.getElem?_append_left (by rw [hfront]; exact hk)]
    by_cases hc : k < bs.length
    · rw [List.getElem?_append_left (by rw [List.length_take]; omega), List.getElem?_take_of_lt hk,
        List.getElem?_eq_getElem hc, Option.getD_some]
    · rw [List.getElem?_append_right (by rw [List.length_take]; omega), List.getElem?_replicate,
        if_pos (by rw [List.length_take]; omega), List.getElem?_eq_none (Nat.not_lt.mp hc), Option.getD_none]
  · rw [if_neg hk, List.getElem?_append_right (by rw [hfront]; omega), hfront]
    by_cases hp : k < offset + piece.length
    · rw [if_pos hp, List.getElem?_append_left (by omega)]
    · rw [if_neg hp, List.getElem?_append_right (by omega), List.getElem?_drop]
      congr 1
      omega

theorem writePiece_nil_zero (piece : List B) : writePiece [] 0 piece = piece := by
  rw [writePiece, List.take_nil, List.drop_nil, List.append_nil, List.length_nil, Nat.sub_zero,
    List.replicate_zero, List.nil_append, List.nil_append]

/-- Every place of the contents is that place of one of the sources, or a zero where a source has one. -/
def MadeOf (S : List B → Prop) (bs : List B) : Prop :=
  ∀ (k : ℕ) (b : B), bs[k]? = some b → ∃ s, S s ∧ k < s.length ∧ (s[k]? = some b ∨ b = 0)

variable {S : List B → Prop} {bs s : List B}

theorem madeOf_nil : MadeOf S [] := fun _ _ h => nomatch h

theorem MadeOf.mono {S' : List B → Prop} (h : MadeOf S bs) (hS : ∀ s, S s → S' s) : MadeOf S' bs := by
  intro k b hb
  obtain ⟨s, hs, hk⟩ := h k b hb
  exact ⟨s, hS s hs, hk⟩

/-- A piece of a source at its place. -/
theorem getElem?_writePiece_inside {offset n k : ℕ} (hlow : offset ≤ k) (hhigh : k < offset + n)
    (hk : k < s.length) : (writePiece bs offset ((s.drop offset).take n))[k]? = s[k]? := by
  rw [getElem?_writePiece, if_neg (Nat.not_lt.mpr hlow), if_pos, List.getElem?_take_of_lt (by omega),
    List.getElem?_drop]
  · congr 1
    omega
  · rw [List.length_take, List.length_drop]
    omega

theorem MadeOf.writePiece (h : MadeOf S bs) (hs : S s) {offset : ℕ} (hoffset : offset ≤ s.length) (n : ℕ) :
    MadeOf S (writePiece bs offset ((s.drop offset).take n)) := by
  intro k b hb
  rw [getElem?_writePiece] at hb
  split_ifs at hb with hlow hpiece
  · obtain rfl := Option.some.inj hb
    cases hk : bs[k]? with
    | none => exact ⟨s, hs, by omega, Or.inr rfl⟩
    | some b => exact h k b hk
  · rw [List.length_take, List.length_drop] at hpiece
    have hk : k < s.length := by omega
    rw [List.getElem?_take_of_lt (by omega), List.getElem?_drop, show offset + (k - offset) = k by omega] at hb
    exact ⟨s, hs, hk, Or.inl hb⟩
  · exact h k b hb

/-- A write keeps a place that agrees with the source. -/
theorem writePiece_agrees {offset n k : ℕ} (hk : k < s.length) (h : bs[k]? = s[k]?) :
    (writePiece bs offset ((s.drop offset).take n))[k]? = s[k]? := by
  by_cases hin : offset ≤ k ∧ k < offset + n
  · exact getElem?_writePiece_inside hin.1 hin.2 hk
  · rw [getElem?_writePiece]
    by_cases hlow : k < offset
    · rw [if_pos hlow, h, List.getElem?_eq_getElem hk, Option.getD_some]
    · rw [if_neg hlow, if_neg, h]
      rw [List.length_take, List.length_drop]
      omega

/-- Contents of one source that agree with all of it. -/
theorem MadeOf.eq_of_agrees (h : MadeOf (· = s) bs) (hall : ∀ k < s.length, bs[k]? = s[k]?) : bs = s := by
  refine List.ext_getElem? fun k => ?_
  by_cases hk : k < s.length
  · exact hall k hk
  · rw [List.getElem?_eq_none (Nat.not_lt.mp hk)]
    cases hc : bs[k]? with
    | none => rfl
    | some b =>
      obtain ⟨_, rfl, hlt, -⟩ := h k b hc
      exact absurd hlt hk

end Scety.Disks
