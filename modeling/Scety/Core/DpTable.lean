import Scety.Core.DpMatch

/-!
# The table of `dp_host_matches` is never left

`dpHostMatches` reads a default value behind the end of a list.  Here every index is checked, as the
slices of the source are, and no check fails: the loops keep the length of the table.  The verdict is
then read as a partition of the host labels.
-/

namespace Scety

open Glob

/-- `table[index] = b`, where `none` is the panic of an index that is out of range. -/
def writeAt (table : List Bool) (index : ℕ) (b : Bool) : Option (List Bool) :=
  if index < table.length then some (table.set index b) else none

/-- `dpCell` with the checks of the source. -/
def dpCellChecked (patternLabel : Str) (hostLabels : List Str) (columns : ℕ) (table : List Bool)
    (patternPos hostPos : ℕ) : Option Bool :=
  if patternLabel = doubleStar then do
    let skipThisLabel ← table[(patternPos - 1) * columns + hostPos]?
    let eatOneMoreLabel ←
      (if 0 < hostPos then table[patternPos * columns + (hostPos - 1)]? else some false)
    return skipThisLabel || eatOneMoreLabel
  else if 0 < hostPos then do
    let currentHostLabel ← hostLabels[hostPos - 1]?
    let previousLabelsMatches ← table[(patternPos - 1) * columns + (hostPos - 1)]?
    let thisLabelMatches := decide (patternLabel = star ∨ patternLabel = currentHostLabel)
    return previousLabelsMatches && thisLabelMatches
  else return false

/-- `dpRow` with the checks of the source. -/
def dpRowChecked (patternLabels hostLabels : List Str) (columns : ℕ) (table : List Bool)
    (patternPos : ℕ) : Option (List Bool) := do
  let currentPatternLabel ← patternLabels[patternPos - 1]?
  (List.range (hostLabels.length + 1)).foldlM
    (fun t hostPos => do
      let b ← dpCellChecked currentPatternLabel hostLabels columns t patternPos hostPos
      writeAt t (patternPos * columns + hostPos) b)
    table

/-- `dp_host_matches` with its checks. -/
def dpHostMatchesChecked (patternLabels hostLabels : List Str) (scratch : List Bool) :
    Option (Bool × List Bool) := do
  let columns := hostLabels.length + 1
  let needed := (patternLabels.length + 1) * columns
  let cleared := scratch.take 0
  let table ← writeAt (vecResize cleared needed false) 0 true
  let table ← (List.range' 1 patternLabels.length).foldlM
    (dpRowChecked patternLabels hostLabels columns) table
  let verdict ← table[patternLabels.length * columns + hostLabels.length]?
  return (verdict, table)

/-! ### No check fails -/

/-- A loop whose steps succeed where an invariant holds, and keep it. -/
theorem foldlM_eq_some {α β : Type} {step : β → α → Option β} {f : β → α → β} (Inv : β → Prop)
    {l : List α} (hstep : ∀ b, ∀ a ∈ l, Inv b → step b a = some (f b a) ∧ Inv (f b a)) {b : β}
    (hb : Inv b) : l.foldlM step b = some (l.foldl f b) ∧ Inv (l.foldl f b) := by
  induction l generalizing b with
  | nil => exact ⟨rfl, hb⟩
  | cons a l ih =>
    obtain ⟨ha, hnext⟩ := hstep b a List.mem_cons_self hb
    rw [List.foldlM_cons, ha]
    exact ih (fun b a hl => hstep b a (List.mem_cons_of_mem _ hl)) hnext

theorem getElem?_of_lt {t : List Bool} {i : ℕ} (h : i < t.length) :
    t[i]? = some (t.getD i false) := by
  rw [List.getElem?_eq_getElem h, List.getD_eq_getElem _ _ h]

theorem writeAt_of_lt {t : List Bool} {i : ℕ} (h : i < t.length) (b : Bool) :
    writeAt t i b = some (t.set i b) := if_pos h

section Bounds

variable {patternLabels hostLabels : List Str}

/-- The cells of a table with `rows` rows. -/
theorem cell_lt {rows columns i j : ℕ} (hi : i < rows) (hj : j < columns) :
    i * columns + j < rows * columns := by
  calc i * columns + j < i * columns + columns := Nat.add_lt_add_left hj _
    _ = (i + 1) * columns := (Nat.succ_mul i columns).symm
    _ ≤ rows * columns := Nat.mul_le_mul_right _ hi

theorem dpCellChecked_eq {t : List Bool} {i j : ℕ} (hi : i < patternLabels.length)
    (hj : j ≤ hostLabels.length)
    (hlen : t.length = (patternLabels.length + 1) * (hostLabels.length + 1)) (label : Str) :
    dpCellChecked label hostLabels (hostLabels.length + 1) t (i + 1) j =
      some (dpCell label hostLabels (hostLabels.length + 1) t (i + 1) j) := by
  have habove : ∀ k ≤ hostLabels.length, t[i * (hostLabels.length + 1) + k]? =
      some (t.getD (i * (hostLabels.length + 1) + k) false) := fun k hk =>
    getElem?_of_lt (hlen ▸ cell_lt (by omega) (by omega))
  have hleft : ∀ k ≤ hostLabels.length, t[(i + 1) * (hostLabels.length + 1) + k]? =
      some (t.getD ((i + 1) * (hostLabels.length + 1) + k) false) := fun k hk =>
    getElem?_of_lt (hlen ▸ cell_lt (by omega) (by omega))
  unfold dpCellChecked dpCell
  rw [Nat.add_sub_cancel]
  by_cases hd : label = doubleStar
  · rw [if_pos hd, if_pos hd, habove j hj]
    cases j with
    | zero => rfl
    | succ j =>
      rw [if_pos (Nat.succ_pos j), Nat.add_sub_cancel, hleft j (by omega)]
      rfl
  · rw [if_neg hd, if_neg hd]
    cases j with
    | zero => rfl
    | succ j =>
      have hhost : hostLabels[j]? = some (hostLabels.getD j []) := by
        rw [List.getElem?_eq_getElem hj, List.getD_eq_getElem _ _ hj]
      rw [if_pos (Nat.succ_pos j), if_pos (Nat.succ_pos j), Nat.add_sub_cancel, hhost,
        habove j (by omega)]
      rfl

theorem dpRowChecked_eq {t : List Bool} {i : ℕ} (hi : i < patternLabels.length)
    (hlen : t.length = (patternLabels.length + 1) * (hostLabels.length + 1)) :
    dpRowChecked patternLabels hostLabels (hostLabels.length + 1) t (i + 1) =
        some (dpRow patternLabels hostLabels (hostLabels.length + 1) t (i + 1)) ∧
      (dpRow patternLabels hostLabels (hostLabels.length + 1) t (i + 1)).length =
        (patternLabels.length + 1) * (hostLabels.length + 1) := by
  have hlabel : patternLabels[i]? = some (patternLabels.getD i []) := by
    rw [List.getElem?_eq_getElem hi, List.getD_eq_getElem _ _ hi]
  unfold dpRowChecked dpRow
  rw [Nat.add_sub_cancel, hlabel]
  refine foldlM_eq_some (fun t : List Bool => t.length =
    (patternLabels.length + 1) * (hostLabels.length + 1)) ?_ hlen
  intro t j hj ht
  have hj' : j < hostLabels.length + 1 := List.mem_range.mp hj
  rw [dpCellChecked_eq hi (Nat.lt_succ_iff.mp hj') ht]
  exact ⟨writeAt_of_lt (ht ▸ cell_lt (by omega) hj') _, by rw [List.length_set, ht]⟩

theorem tableChecked_eq {t : List Bool}
    (hlen : t.length = (patternLabels.length + 1) * (hostLabels.length + 1)) :
    (List.range' 1 patternLabels.length).foldlM
        (dpRowChecked patternLabels hostLabels (hostLabels.length + 1)) t =
        some ((List.range' 1 patternLabels.length).foldl
          (dpRow patternLabels hostLabels (hostLabels.length + 1)) t) ∧
      ((List.range' 1 patternLabels.length).foldl
        (dpRow patternLabels hostLabels (hostLabels.length + 1)) t).length =
        (patternLabels.length + 1) * (hostLabels.length + 1) := by
  refine foldlM_eq_some (fun t : List Bool => t.length =
    (patternLabels.length + 1) * (hostLabels.length + 1)) ?_ hlen
  intro t k hk ht
  obtain ⟨hk1, hk2⟩ := List.mem_range'_1.mp hk
  obtain ⟨i, rfl⟩ := Nat.exists_eq_add_of_le' hk1
  exact dpRowChecked_eq (by omega) ht

theorem dpHostMatchesChecked_eq (patternLabels hostLabels : List Str) (scratch : List Bool) :
    dpHostMatchesChecked patternLabels hostLabels scratch =
      some (dpHostMatches patternLabels hostLabels scratch) := by
  have hnew : (vecResize (scratch.take 0)
      ((patternLabels.length + 1) * (hostLabels.length + 1)) false).length =
      (patternLabels.length + 1) * (hostLabels.length + 1) := by simp [vecResize]
  have hpos : 0 < (patternLabels.length + 1) * (hostLabels.length + 1) := by positivity
  obtain ⟨hrows, hlen⟩ := tableChecked_eq ((List.length_set ..).trans hnew)
  unfold dpHostMatchesChecked dpHostMatches
  simp only [writeAt_of_lt (hnew ▸ hpos), Option.bind_eq_bind, Option.bind_some]
  rw [hrows, Option.bind_some, getElem?_of_lt]
  · rfl
  · rw [hlen]
    exact cell_lt (Nat.lt_succ_self _) (Nat.lt_succ_self _)

end Bounds

/-! ### The verdict as a partition -/

/-- The consecutive host labels that one pattern label may stand for. -/
def PartOf (patternLabel : Str) (part : List Str) : Prop :=
  if patternLabel = doubleStar then True
  else if patternLabel = star then part.length = 1
  else part = [patternLabel]

/-- The host labels can be partitioned in order, one part for every pattern label. -/
def Partitions (patternLabels hostLabels : List Str) : Prop :=
  ∃ parts, List.Forall₂ PartOf patternLabels parts ∧ parts.flatten = hostLabels

theorem partOf_eq : PartOf = fun l part => (token l).Takes part := by
  funext l part
  unfold PartOf
  by_cases hd : l = doubleStar
  · rw [if_pos hd, hd, token_doubleStar]
    rfl
  · rw [if_neg hd]
    by_cases hs : l = star
    · rw [if_pos hs, hs, token_star]
      rfl
    · rw [if_neg hs, token_of_literal hs hd]
      rfl

theorem partitions_iff {patternLabels hostLabels : List Str} :
    Partitions patternLabels hostLabels ↔ Covers (tokens patternLabels) hostLabels := by
  unfold Partitions tokens
  rw [covers_iff_parts, partOf_eq]
  simp only [List.forall₂_map_left_iff]

/-- **The table decides the pattern language**: no index is out of range, the verdict is whether the
host labels can be partitioned, and nothing depends on what the scratch vector held. -/
theorem dp_decides_partition (patternLabels hostLabels : List Str) (scratch : List Bool) :
    ∃ verdict table,
      dpHostMatchesChecked patternLabels hostLabels scratch = some (verdict, table) ∧
      (verdict = true ↔ Partitions patternLabels hostLabels) ∧
      ∀ scratch', dpHostMatchesChecked patternLabels hostLabels scratch' = some (verdict, table) := by
  refine ⟨_, _, dpHostMatchesChecked_eq patternLabels hostLabels scratch, ?_, ?_⟩
  · rw [partitions_iff]
    exact dpHostMatches_iff patternLabels hostLabels scratch
  · intro scratch'
    rw [dpHostMatchesChecked_eq]
    rfl

end Scety
