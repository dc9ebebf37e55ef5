import Mathlib.Data.List.Basic
import Mathlib.Data.List.Infix

/-!
# Splitting a list at a separator

`List.splitOn` and `List.intercalate` are the library's `split` and `join`.  This file adds the two
one-cut splits (`splitOnce` at the first separator, `rsplitOnce` at the last one), relates them to
`List.splitOn`, and proves that joining separator-free pieces is injective.
-/

namespace Scety.Split

variable {α : Type*} [DecidableEq α] {c : α}

/-- Cut `l` at the first `c`: the part before it and the part after it. -/
def splitOnce (c : α) : List α → Option (List α × List α)
  | [] => none
  | a :: l => if a = c then some ([], l) else (splitOnce c l).map fun p => (a :: p.1, p.2)

/-- Cut `l` at the last `c`: the part before it and the part after it. -/
def rsplitOnce (c : α) (l : List α) : Option (List α × List α) :=
  (splitOnce c l.reverse).map fun p => (p.2.reverse, p.1.reverse)

theorem splitOnce_eq_some_iff {l a b : List α} :
    splitOnce c l = some (a, b) ↔ l = a ++ c :: b ∧ c ∉ a := by
  induction l generalizing a b with
  | nil => simp [splitOnce]
  | cons x l ih =>
    by_cases hx : x = c
    · subst hx
      cases a with
      | nil => simp [splitOnce]
      | cons y a =>
        simp only [splitOnce, if_true, Option.some.injEq, Prod.mk.injEq, List.cons_append]
        constructor
        · rintro ⟨h, -⟩; exact absurd h (by simp)
        · rintro ⟨h, hc⟩
          obtain ⟨rfl, -⟩ := List.cons_eq_cons.mp h
          exact absurd List.mem_cons_self hc
    · simp only [splitOnce, if_neg hx, Option.map_eq_some_iff, Prod.exists]
      constructor
      · rintro ⟨a', b', h, he⟩
        obtain ⟨rfl, rfl⟩ := Prod.mk.inj he
        obtain ⟨rfl, hc⟩ := ih.mp h
        exact ⟨rfl, by simp [Ne.symm hx, hc]⟩
      · rintro ⟨h, hc⟩
        cases a with
        | nil => exact absurd (List.cons_eq_cons.mp h).1 hx
        | cons y a =>
          obtain ⟨rfl, rfl⟩ := List.cons_eq_cons.mp h
          exact ⟨a, b, ih.mpr ⟨rfl, fun hm => hc (List.mem_cons_of_mem _ hm)⟩, rfl⟩

theorem rsplitOnce_eq_some_iff {l a b : List α} :
    rsplitOnce c l = some (a, b) ↔ l = a ++ c :: b ∧ c ∉ b := by
  unfold rsplitOnce
  simp only [Option.map_eq_some_iff, Prod.exists, Prod.mk.injEq]
  constructor
  · rintro ⟨x, y, h, rfl, rfl⟩
    obtain ⟨h, hc⟩ := splitOnce_eq_some_iff.mp h
    refine ⟨?_, by simpa using hc⟩
    have := congrArg List.reverse h
    simpa using this
  · rintro ⟨rfl, hc⟩
    exact ⟨b.reverse, a.reverse, splitOnce_eq_some_iff.mpr ⟨by simp, by simpa using hc⟩, by simp, by simp⟩

/-! ### Joining -/

omit [DecidableEq α] in
theorem intercalate_append {xs ys : List (List α)} (hx : xs ≠ []) (hy : ys ≠ []) :
    [c].intercalate (xs ++ ys) = [c].intercalate xs ++ c :: [c].intercalate ys := by
  induction xs with
  | nil => exact absurd rfl hx
  | cons x xs ih =>
    cases xs with
    | nil =>
      rw [List.singleton_append, List.intercalate_cons_of_ne_nil hy, List.intercalate_singleton,
        List.append_assoc, List.singleton_append]
    | cons z xs =>
      have hrest := ih (List.cons_ne_nil z xs)
      have hne : z :: xs ++ ys ≠ [] := List.cons_ne_nil _ _
      rw [List.cons_append, List.intercalate_cons_of_ne_nil hne, hrest,
        List.intercalate_cons_of_ne_nil (List.cons_ne_nil z xs)]
      simp only [List.append_assoc]

omit [DecidableEq α] in
theorem notMem_intercalate {xs : List (List α)} {a : α} (hc : a ≠ c) (h : ∀ x ∈ xs, a ∉ x) :
    a ∉ [c].intercalate xs := by
  induction xs with
  | nil => exact List.not_mem_nil
  | cons x xs ih =>
    obtain ⟨hx, hxs⟩ := List.forall_mem_cons.mp h
    cases xs with
    | nil => rwa [List.intercalate_singleton]
    | cons z xs =>
      rw [List.intercalate_cons_of_ne_nil (List.cons_ne_nil z xs)]
      simp [hx, hc, ih hxs]

/-! ### Pieces of a split -/

theorem splitOn_append_cons (a b : List α) : (a ++ c :: b).splitOn c = a.splitOn c ++ b.splitOn c :=
  List.splitOnP_append_cons _ _ (by simp)

theorem splitOn_of_notMem {a : List α} (h : c ∉ a) : a.splitOn c = [a] :=
  List.splitOnP_eq_singleton fun x hx => by
    simp only [beq_eq_false_iff_ne]
    rintro rfl
    exact h hx

theorem splitOn_cons_of_notMem {a : List α} (h : c ∉ a) (b : List α) :
    (a ++ c :: b).splitOn c = a :: b.splitOn c := by
  rw [splitOn_append_cons, splitOn_of_notMem h, List.singleton_append]

theorem splitOn_concat_of_notMem {b : List α} (h : c ∉ b) (a : List α) :
    (a ++ c :: b).splitOn c = a.splitOn c ++ [b] := by
  rw [splitOn_append_cons, splitOn_of_notMem h]

theorem splitOn_length_pos (l : List α) : 0 < (l.splitOn c).length :=
  List.length_pos_of_ne_nil (List.splitOn_ne_nil c l)

/-- A list is either one piece, or a first piece, the separator and the rest. -/
theorem notMem_or_exists_cut (l : List α) : c ∉ l ∨ ∃ a b, l = a ++ c :: b ∧ c ∉ a := by
  cases h : splitOnce c l with
  | some p => exact Or.inr ⟨p.1, p.2, splitOnce_eq_some_iff.mp h⟩
  | none =>
    refine Or.inl ?_
    intro hm
    obtain ⟨a, b, rfl, ha⟩ := List.eq_append_cons_of_mem hm
    rw [splitOnce_eq_some_iff.mpr ⟨rfl, ha⟩] at h
    exact absurd h (by simp)

theorem notMem_of_mem_splitOn {l x : List α} (h : x ∈ l.splitOn c) : c ∉ x := by
  induction hn : l.length using Nat.strong_induction_on generalizing l with
  | _ n ih =>
    rcases notMem_or_exists_cut (c := c) l with hl | ⟨a, b, rfl, ha⟩
    · rw [splitOn_of_notMem hl, List.mem_singleton] at h
      exact h ▸ hl
    · rw [splitOn_cons_of_notMem ha, List.mem_cons] at h
      rcases h with rfl | h
      · exact ha
      · exact ih b.length (by simp at hn; omega) h rfl

theorem mem_of_mem_splitOn {l x : List α} (h : x ∈ l.splitOn c) {a : α} (ha : a ∈ x) : a ∈ l := by
  induction hn : l.length using Nat.strong_induction_on generalizing l with
  | _ n ih =>
    rcases notMem_or_exists_cut (c := c) l with hl | ⟨u, v, rfl, hu⟩
    · rw [splitOn_of_notMem hl, List.mem_singleton] at h
      exact h ▸ ha
    · rw [splitOn_cons_of_notMem hu, List.mem_cons] at h
      rcases h with rfl | h
      · exact List.mem_append_left _ ha
      · have := ih v.length (by simp at hn; omega) h rfl
        exact List.mem_append_right _ (List.mem_cons_of_mem _ this)

/-- An element other than the separator is in one of the pieces. -/
theorem exists_mem_splitOn {l : List α} {a : α} (ha : a ∈ l) (hac : a ≠ c) :
    ∃ x ∈ l.splitOn c, a ∈ x := by
  induction hn : l.length using Nat.strong_induction_on generalizing l with
  | _ n ih =>
    rcases notMem_or_exists_cut (c := c) l with hl | ⟨u, v, rfl, hu⟩
    · rw [splitOn_of_notMem hl]
      exact ⟨l, List.mem_singleton_self l, ha⟩
    · rw [splitOn_cons_of_notMem hu]
      rcases List.mem_append.mp ha with h | h
      · exact ⟨u, List.mem_cons_self, h⟩
      · obtain ⟨x, hx, hax⟩ :=
          ih v.length (by simp at hn; omega) ((List.mem_cons.mp h).resolve_left hac) rfl
        exact ⟨x, List.mem_cons_of_mem _ hx, hax⟩

theorem splitOn_injective : Function.Injective (List.splitOn c : List α → List (List α)) := by
  intro a b h
  calc a = [c].intercalate (a.splitOn c) := (List.intercalate_splitOn c).symm
    _ = [c].intercalate (b.splitOn c) := by rw [h]
    _ = b := List.intercalate_splitOn c

/-- Cutting at the first separator takes the first piece away. -/
theorem splitOn_eq_cons_iff {l x d : List α} :
    l.splitOn c = x :: d.splitOn c ↔ splitOnce c l = some (x, d) := by
  rw [splitOnce_eq_some_iff]
  refine ⟨?_, ?_⟩
  · intro h
    have hx : c ∉ x := notMem_of_mem_splitOn (h ▸ List.mem_cons_self)
    exact ⟨splitOn_injective (h.trans (splitOn_cons_of_notMem hx d).symm), hx⟩
  · rintro ⟨rfl, hx⟩
    exact splitOn_cons_of_notMem hx d

/-- Cutting at the last separator takes the last piece away. -/
theorem splitOn_eq_concat_iff {l x d : List α} :
    l.splitOn c = d.splitOn c ++ [x] ↔ rsplitOnce c l = some (d, x) := by
  rw [rsplitOnce_eq_some_iff]
  refine ⟨?_, ?_⟩
  · intro h
    have hx : c ∉ x := notMem_of_mem_splitOn (h ▸ List.mem_append_right _ List.mem_cons_self)
    exact ⟨splitOn_injective (h.trans (splitOn_concat_of_notMem hx d).symm), hx⟩
  · rintro ⟨rfl, hx⟩
    exact splitOn_concat_of_notMem hx d

/-- Joining separator-free pieces loses nothing. -/
theorem intercalate_inj {xs ys : List (List α)} (hx : ∀ x ∈ xs, c ∉ x) (hy : ∀ y ∈ ys, c ∉ y)
    (hx0 : xs ≠ []) (hy0 : ys ≠ []) :
    [c].intercalate xs = [c].intercalate ys ↔ xs = ys := by
  refine ⟨?_, fun h => h ▸ rfl⟩
  intro h
  rw [← List.splitOn_intercalate c hx hx0, h, List.splitOn_intercalate c hy hy0]

end Scety.Split
