import Mathlib
import Scety.Lib.Split

/-!
# Strings, labels and maps

A Rust `str` is the list of its characters, a `HashMap` a finite map without duplicate keys, and
host names and patterns are read as lists of labels separated by dots.
-/

namespace Scety

/-- A Rust `str`. -/
abbrev Str := List Char

instance : LawfulBEq Str := inferInstanceAs (LawfulBEq (List Char))

/-- `HashMap<K, V>` (only `get`, `insert`, `entry`, `keys` and iteration are used). -/
abbrev HashMap (K V : Type) := AList (fun _ : K => V)

/-- `s.split('.').collect()`. -/
def labels (s : Str) : List Str := s.splitOn '.'

/-- `labels.join(".")`. -/
def joinDots (ls : List Str) : Str := ['.'].intercalate ls

/-- The label `*`. -/
def star : Str := ['*']

/-- The label `**`. -/
def doubleStar : Str := ['*', '*']

theorem star_ne_doubleStar : star ≠ doubleStar := by decide

/-! ### Labels -/

theorem labels_length_pos (s : Str) : 0 < (labels s).length := Split.splitOn_length_pos s

theorem dot_notMem_of_mem_labels {s l : Str} (h : l ∈ labels s) : '.' ∉ l :=
  Split.notMem_of_mem_splitOn h

theorem labels_injective : Function.Injective labels := Split.splitOn_injective

@[simp] theorem joinDots_labels (s : Str) : joinDots (labels s) = s := List.intercalate_splitOn _

theorem labels_joinDots {ls : List Str} (h : ∀ l ∈ ls, '.' ∉ l) (h0 : ls ≠ []) :
    labels (joinDots ls) = ls := List.splitOn_intercalate _ h h0

/-- Two non-empty lists of labels with the same join are equal. -/
theorem joinDots_inj {xs ys : List Str} (hx : ∀ l ∈ xs, '.' ∉ l) (hy : ∀ l ∈ ys, '.' ∉ l)
    (hx0 : xs ≠ []) (hy0 : ys ≠ []) : joinDots xs = joinDots ys ↔ xs = ys :=
  Split.intercalate_inj hx hy hx0 hy0

/-! ### Maps -/

theorem lookup_insert_eq {K V : Type} [DecidableEq K] (m : HashMap K V) (k k' : K) (v : V) :
    (m.insert k v).lookup k' = if k' = k then some v else m.lookup k' := by
  by_cases hk : k' = k
  · subst hk
    rw [AList.lookup_insert, if_pos rfl]
  · rw [AList.lookup_insert_ne hk, if_neg hk]

theorem lookup_erase_eq {K V : Type} [DecidableEq K] (m : HashMap K V) (k k' : K) :
    (m.erase k).lookup k' = if k' = k then none else m.lookup k' := by
  by_cases hk : k' = k
  · subst hk
    rw [AList.lookup_erase, if_pos rfl]
  · rw [AList.lookup_erase_ne hk, if_neg hk]

end Scety
