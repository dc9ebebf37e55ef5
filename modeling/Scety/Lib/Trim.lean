import Mathlib.Data.List.DropRight
import Mathlib.Data.List.TakeWhile

/-!
# Trimming a list at both ends

`trim p l` drops the longest prefix and then the longest suffix of elements satisfying `p`.
-/

namespace Scety.Trim

variable {α : Type*} {p : α → Bool}

def trim (p : α → Bool) (l : List α) : List α := (l.dropWhile p).rdropWhile p

/-- What is dropped satisfies `p`. -/
theorem exists_trim (p : α → Bool) (l : List α) :
    ∃ u v, l = u ++ trim p l ++ v ∧ (∀ a ∈ u, p a = true) ∧ ∀ a ∈ v, p a = true := by
  refine ⟨l.takeWhile p, (l.dropWhile p).rtakeWhile p, ?_, fun a ha => List.mem_takeWhile_imp ha,
    fun a ha => List.mem_rtakeWhile_imp ha⟩
  unfold trim
  rw [List.append_assoc, List.rdropWhile_append_rtakeWhile, List.takeWhile_append_dropWhile]

/-- A part without elements of `p` is what is left. -/
theorem trim_append {u m v : List α} (hu : ∀ a ∈ u, p a = true) (hm : ∀ a ∈ m, p a = false)
    (hv : ∀ a ∈ v, p a = true) (h0 : m ≠ []) : trim p (u ++ m ++ v) = m := by
  have hback : ∀ v : List α, (∀ a ∈ v, p a = true) → (m ++ v).rdropWhile p = m := by
    intro v hv
    induction v using List.reverseRecOn with
    | nil =>
      rw [List.append_nil, List.rdropWhile_eq_self_iff]
      intro hl
      simp [hm _ (List.getLast_mem hl)]
    | append_singleton v a ih =>
      rw [← List.append_assoc, List.rdropWhile_concat_pos _ _ _ (hv a (by simp))]
      exact ih fun b hb => hv b (List.mem_append_left _ hb)
  have hfront : (u ++ m ++ v).dropWhile p = m ++ v := by
    rw [List.append_assoc, List.dropWhile_append_of_pos hu]
    obtain ⟨a, m, rfl⟩ := List.exists_cons_of_ne_nil h0
    rw [List.cons_append, List.dropWhile_cons_of_neg]
    simp [hm a List.mem_cons_self]
  unfold trim
  rw [hfront, hback v hv]

end Scety.Trim
