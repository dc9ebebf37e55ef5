import Scety.Core.HostRouter
import Scety.Core.Language

/-!
# The dynamic-programming matcher computes the pattern language

The flattened table of `dp_host_matches` has one row for every prefix of the pattern and one column
for every prefix of the host.  The invariant of the two loops: a cell that has been written holds
whether that pattern prefix covers that host prefix.
-/

namespace Scety

open Glob

section Table

variable (patternLabels hostLabels : List Str)

/-- What the cell of row `i` and column `j` must hold. -/
def cellSpec (i j : ℕ) : Bool := covers ((tokens patternLabels).take i) (hostLabels.take j)

/-- The first `n` cells of row `i` are written. -/
def RowDone (t : List Bool) (i n : ℕ) : Prop :=
  ∀ j < n, t[i * (hostLabels.length + 1) + j]? = some (cellSpec patternLabels hostLabels i j)

variable {patternLabels hostLabels}

theorem RowDone.getD {t : List Bool} {i n j : ℕ} (h : RowDone patternLabels hostLabels t i n)
    (hj : j < n) : t.getD (i * (hostLabels.length + 1) + j) false =
      cellSpec patternLabels hostLabels i j := by
  rw [List.getD_eq_getElem?_getD, h j hj, Option.getD_some]

theorem tokens_take_succ {i : ℕ} (hi : i < patternLabels.length) :
    (tokens patternLabels).take (i + 1) =
      (tokens patternLabels).take i ++ [token (patternLabels.getD i [])] := by
  have hi' : i < (tokens patternLabels).length := by simpa using hi
  rw [List.take_succ_eq_append_getElem hi', List.getD_eq_getElem _ _ hi]
  simp [tokens]

theorem host_take_succ {j : ℕ} (hj : j < hostLabels.length) :
    hostLabels.take (j + 1) = hostLabels.take j ++ [hostLabels.getD j []] := by
  rw [List.take_succ_eq_append_getElem hj, List.getD_eq_getElem _ _ hj]

/-- One cell: if the row above is finished and the row so far is, the next value is right. -/
theorem dpCell_eq {t : List Bool} {i j : ℕ} (hi : i < patternLabels.length)
    (hj : j ≤ hostLabels.length)
    (habove : RowDone patternLabels hostLabels t i (hostLabels.length + 1))
    (hleft : RowDone patternLabels hostLabels t (i + 1) j) :
    dpCell (patternLabels.getD i []) hostLabels (hostLabels.length + 1) t (i + 1) j =
      cellSpec patternLabels hostLabels (i + 1) j := by
  set l := patternLabels.getD i [] with hl
  have hup : ∀ k ≤ hostLabels.length, t.getD (i * (hostLabels.length + 1) + k) false =
      cellSpec patternLabels hostLabels i k := fun k hk => habove.getD (by omega)
  rw [Bool.eq_iff_iff]
  unfold cellSpec
  rw [covers_iff, tokens_take_succ hi, ← hl]
  unfold dpCell
  simp only [Nat.add_sub_cancel]
  by_cases hd : l = doubleStar
  · rw [if_pos hd, hd, token_doubleStar, hup j hj, Bool.or_eq_true, Bool.and_eq_true]
    cases j with
    | zero => simp [cellSpec, covers_iff, covers_concat_any_nil_iff]
    | succ j =>
      have hprev := hleft.getD (Nat.lt_succ_self j)
      rw [Nat.add_sub_cancel, hprev]
      unfold cellSpec
      rw [covers_iff, covers_iff, host_take_succ hj, tokens_take_succ hi, ← hl, hd,
        token_doubleStar, covers_concat_any_iff]
      simp
  · rw [if_neg hd]
    have hne : token l ≠ .any := fun h => hd (token_injective (h.trans token_doubleStar.symm))
    cases j with
    | zero =>
      rw [if_neg (lt_irrefl 0), List.take_zero]
      simp only [Bool.false_eq_true, false_iff]
      exact not_covers_concat_nil hne
    | succ j =>
      rw [if_pos (Nat.succ_pos j), Nat.add_sub_cancel, hup j (by omega), host_take_succ hj]
      unfold cellSpec
      rw [Bool.and_eq_true, covers_iff, decide_eq_true_eq]
      by_cases hs : l = star
      · rw [hs, token_star, covers_concat_one_iff]
        simp
      · rw [token_of_literal hs hd, covers_concat_lit_iff]
        simp [hs, eq_comm]

/-- One step of the inner loop writes one more cell of the row and nothing above it. -/
theorem dpRow_prefix {t : List Bool} {i : ℕ} (hi : i < patternLabels.length)
    (hlen : t.length = (patternLabels.length + 1) * (hostLabels.length + 1))
    (habove : RowDone patternLabels hostLabels t i (hostLabels.length + 1)) :
    ∀ n ≤ hostLabels.length + 1,
      let t' := (List.range n).foldl
        (fun t j => t.set ((i + 1) * (hostLabels.length + 1) + j)
          (dpCell (patternLabels.getD (i + 1 - 1) []) hostLabels (hostLabels.length + 1) t (i + 1) j)) t
      t'.length = t.length ∧ RowDone patternLabels hostLabels t' (i + 1) n ∧
        ∀ k < (i + 1) * (hostLabels.length + 1), t'[k]? = t[k]? := by
  intro n
  induction n with
  | zero => exact fun _ => ⟨rfl, fun j hj => absurd hj (by omega), fun _ _ => rfl⟩
  | succ n ih =>
    intro hn
    obtain ⟨h1, h2, h3⟩ := ih (by omega)
    simp only [List.range_succ, List.foldl_append, List.foldl_cons, List.foldl_nil]
    set t' := (List.range n).foldl _ t
    have habove' : RowDone patternLabels hostLabels t' i (hostLabels.length + 1) := by
      intro j hj
      rw [h3 _ (by rw [Nat.add_mul]; omega)]
      exact habove j hj
    have hcell := dpCell_eq hi (by omega) habove' h2
    have hin : (i + 1) * (hostLabels.length + 1) + n < t'.length := by
      have h4 : (i + 1) * (hostLabels.length + 1) + (hostLabels.length + 1) ≤
          (patternLabels.length + 1) * (hostLabels.length + 1) := by
        rw [← Nat.succ_mul]; exact Nat.mul_le_mul_right _ (by omega)
      omega
    refine ⟨by rw [List.length_set, h1], ?_, ?_⟩
    · intro j hj
      rcases Nat.lt_succ_iff_lt_or_eq.mp hj with hj | rfl
      · rw [List.getElem?_set_ne (by omega)]
        exact h2 j hj
      · rw [List.getElem?_set_self hin, Nat.add_sub_cancel, hcell]
    · intro k hk
      rw [List.getElem?_set_ne (by omega)]
      exact h3 k hk

theorem dpRow_spec {t : List Bool} {i : ℕ} (hi : i < patternLabels.length)
    (hlen : t.length = (patternLabels.length + 1) * (hostLabels.length + 1))
    (habove : RowDone patternLabels hostLabels t i (hostLabels.length + 1)) :
    (dpRow patternLabels hostLabels (hostLabels.length + 1) t (i + 1)).length = t.length ∧
      RowDone patternLabels hostLabels
        (dpRow patternLabels hostLabels (hostLabels.length + 1) t (i + 1)) (i + 1)
        (hostLabels.length + 1) :=
  have h := dpRow_prefix hi hlen habove _ le_rfl
  ⟨h.1, h.2.1⟩

/-- The table after `clear`, `resize` and the write of its first cell. -/
theorem initial_row (scratch : List Bool) :
    RowDone patternLabels hostLabels
      ((vecResize (scratch.take 0) ((patternLabels.length + 1) * (hostLabels.length + 1)) false).set
        0 true) 0 (hostLabels.length + 1) := by
  intro j hj
  have hlt : j < (patternLabels.length + 1) * (hostLabels.length + 1) := by
    rw [Nat.add_mul]; omega
  have hspec : cellSpec patternLabels hostLabels 0 j = decide (j = 0) := by
    rw [Bool.eq_iff_iff]
    unfold cellSpec
    rw [covers_iff]
    cases j with
    | zero => simp
    | succ j =>
      have : hostLabels ≠ [] := by rintro rfl; simp at hj
      simp [this]
  rw [hspec]
  cases j with
  | zero => simp [vecResize]
  | succ j => simp [vecResize, List.getElem?_replicate]; omega

theorem table_rows (scratch : List Bool) : ∀ n ≤ patternLabels.length,
    let t := (List.range' 1 n).foldl (dpRow patternLabels hostLabels (hostLabels.length + 1))
      ((vecResize (scratch.take 0) ((patternLabels.length + 1) * (hostLabels.length + 1)) false).set
        0 true)
    t.length = (patternLabels.length + 1) * (hostLabels.length + 1) ∧
      RowDone patternLabels hostLabels t n (hostLabels.length + 1) := by
  intro n
  induction n with
  | zero => exact fun _ => ⟨by simp [vecResize], initial_row scratch⟩
  | succ n ih =>
    intro hn
    obtain ⟨h1, h2⟩ := ih (by omega)
    simp only [List.range'_concat, List.foldl_append, List.foldl_cons, List.foldl_nil, one_mul]
    have h := dpRow_spec (by omega) h1 h2
    rw [Nat.add_comm 1 n]
    exact ⟨h.1.trans h1, h.2⟩

end Table

/-- The verdict of the table is the pattern language, whatever the scratch vector held. -/
theorem dpHostMatches_iff (patternLabels hostLabels : List Str) (scratch : List Bool) :
    (dpHostMatches patternLabels hostLabels scratch).1 = true ↔
      Covers (tokens patternLabels) hostLabels := by
  obtain ⟨-, h⟩ := @table_rows patternLabels hostLabels scratch patternLabels.length le_rfl
  have hget := h.getD (Nat.lt_succ_self hostLabels.length)
  unfold dpHostMatches
  simp only
  rw [hget]
  unfold cellSpec
  rw [covers_iff, List.take_length, ← length_tokens, List.take_length]

/-- The complex patterns are scanned in order, whatever the scratch vector held. -/
theorem lookupComplex_eq (hostLabels : List Str) (l : List (List Str × ℕ)) (scratch : List Bool) :
    lookupComplex hostLabels l scratch =
      l.findSome? fun e => if Covers (tokens e.1) hostLabels then some e.2 else none := by
  induction l generalizing scratch with
  | nil => rfl
  | cons e l ih =>
    have h := dpHostMatches_iff e.1 hostLabels scratch
    rw [List.findSome?_cons]
    unfold lookupComplex
    by_cases hc : Covers (tokens e.1) hostLabels
    · simp [h.mpr hc, hc]
    · have hf : (dpHostMatches e.1 hostLabels scratch).1 = false := by
        rw [← Bool.not_eq_true, h]; exact hc
      simp [hf, hc, ih]

theorem lookupComplex_scratch (hostLabels : List Str) (l : List (List Str × ℕ))
    (scratch scratch' : List Bool) :
    lookupComplex hostLabels l scratch = lookupComplex hostLabels l scratch' := by
  rw [lookupComplex_eq, lookupComplex_eq]

end Scety
