import Scety.Core.Routing

/-!
# `**` at an end of a pattern

All matchers let a `**` at an end take zero labels.  Where it is to take at least one, they differ
exactly for the hosts that the other labels of the pattern cover alone, such as the bare domain of
`**.example.com` (`edge_doubleStar_iff`).
-/

namespace Scety

open Glob

/-- The labels are covered with at least one of them taken by the `**` between `a` and `b`. -/
def CoversSome (a b hs : List Str) : Prop :=
  ∃ u v w, hs = u ++ v ++ w ∧ v ≠ [] ∧ Covers (tokens a) u ∧ Covers (tokens b) w

section Edge

variable {a b hs : List Str}

/-- `**` takes at least one label or none. -/
theorem covers_doubleStar_iff :
    Covers (tokens (a ++ doubleStar :: b)) hs ↔ CoversSome a b hs ∨ Covers (tokens (a ++ b)) hs := by
  rw [tokens_append, tokens_cons, token_doubleStar, tokens_append, covers_append_iff]
  simp only [covers_any_iff]
  refine ⟨?_, ?_⟩
  · rintro ⟨u, -, rfl, hu, v, w, rfl, hw⟩
    by_cases hv : v = []
    · rw [hv, List.nil_append]
      exact Or.inr (covers_append_iff.mpr ⟨u, w, rfl, hu, hw⟩)
    · exact Or.inl ⟨u, v, w, (List.append_assoc u v w).symm, hv, hu, hw⟩
  · rintro (⟨u, v, w, rfl, -, hu, hw⟩ | h)
    · exact ⟨u, v ++ w, List.append_assoc u v w, hu, v, w, rfl, hw⟩
    · obtain ⟨u, w, rfl, hu, hw⟩ := covers_append_iff.mp h
      exact ⟨u, w, rfl, hu, [], w, rfl, hw⟩

/-- Without other `**`, the number of labels tells the two cases apart. -/
theorem CoversSome.not_covers (hfree : doubleStar ∉ a ++ b) (h : CoversSome a b hs) :
    ¬ Covers (tokens (a ++ b)) hs := by
  obtain ⟨u, v, w, rfl, hv, hu, hw⟩ := h
  intro hall
  have hab := hall.length_eq (any_mem_tokens_iff.not.mpr hfree)
  rw [List.mem_append, not_or] at hfree
  have ha := hu.length_eq (any_mem_tokens_iff.not.mpr hfree.1)
  have hb := hw.length_eq (any_mem_tokens_iff.not.mpr hfree.2)
  have hpos := List.length_pos_of_ne_nil hv
  simp only [length_tokens, List.length_append] at hab ha hb
  omega

/-- A pattern with one `**` is not of the repeated kind. -/
theorem not_repeatedInner {p : Str} (hp : labels p = a ++ doubleStar :: b)
    (hfree : doubleStar ∉ a ++ b) : ¬ RepeatedInner p := by
  rintro ⟨-, -, hmany⟩
  rw [List.mem_append, not_or] at hfree
  rw [hp, List.count_append, List.count_cons_self, List.count_eq_zero.mpr hfree.1,
    List.count_eq_zero.mpr hfree.2] at hmany
  omega

theorem matches_single_isSome_iff {p h : Str} {i : ℕ} :
    ((HostRouter.new.addPattern p i).matches h).isSome ↔ (classify p).Hits h := by
  have hcalls : HostRouter.new.addPattern p i = HostRouter.ofCalls [(p, i)] := rfl
  rw [hcalls, ← Option.ne_none_iff_isSome, Ne, matches_eq_none_iff]
  simp

/-- A router with one pattern that has one `**` finds the hosts that the pattern covers. -/
theorem matches_doubleStar_iff {p h : Str} {i : ℕ} (hp : labels p = a ++ doubleStar :: b)
    (hfree : doubleStar ∉ a ++ b) :
    ((HostRouter.new.addPattern p i).matches h).isSome ↔
      Covers (tokens (a ++ doubleStar :: b)) (labels h) := by
  rw [matches_single_isSome_iff]
  by_cases hlone : p = doubleStar
  · subst hlone
    have hcover : Covers (tokens (labels doubleStar)) (labels h) :=
      (@covers_any_literal_iff [] (labels h)).mpr List.nil_suffix
    exact iff_of_true trivial (hp ▸ hcover)
  · have hstar : p ≠ star := by
      rintro rfl
      have hmem : doubleStar ∈ labels star := hp ▸ by simp
      exact absurd hmem (by decide)
    rw [hits_iff_covers hstar hlone (classOf_classify p) (not_repeatedInner hp hfree), hp]

end Edge

/-- **`**` at an end** (or anywhere else, if it is the only one): a router that holds only this
pattern finds the host exactly when `**` can take one or more labels, each `*` one and the other
labels are equal, if and only if the labels without the `**` do not cover the host. -/
theorem edge_doubleStar_iff {p : Str} {a b : List Str} (hp : labels p = a ++ doubleStar :: b)
    (hfree : doubleStar ∉ a ++ b) (i : ℕ) (h : Str) :
    (((HostRouter.new.addPattern p i).matches h).isSome ↔ CoversSome a b (labels h)) ↔
      ¬ Covers (tokens (a ++ b)) (labels h) := by
  rw [matches_doubleStar_iff hp hfree, covers_doubleStar_iff]
  refine ⟨fun hsome hnone => ?_, fun hnone => or_iff_left hnone⟩
  exact (hsome.mp (Or.inr hnone)).not_covers hfree hnone

theorem edge_doubleStar_iff_example : ((HostRouter.new.addPattern "**.example.com".toList 0).matches
      "a.example.com".toList).isSome ↔
    CoversSome [] ["example".toList, "com".toList] (labels "a.example.com".toList) :=
  (edge_doubleStar_iff (by decide) (by decide) 0 "a.example.com".toList).mpr
    (by decide)

/-- `**.example.com` is found for `example.com`. -/
theorem edge_doubleStar_takes_none : ¬ ∀ p a b, labels p = a ++ doubleStar :: b → a = [] ∨ b = [] →
    doubleStar ∉ a ++ b → ∀ i h, ((HostRouter.new.addPattern p i).matches h).isSome ↔
      CoversSome a b (labels h) := by
  intro hall
  have hcover : Covers (tokens ["example".toList, "com".toList]) (labels "example.com".toList) := by
    decide
  have hsome := (hall "**.example.com".toList [] ["example".toList, "com".toList] (by decide)
    (Or.inl rfl) (by decide) 0 "example.com".toList).mp (by decide)
  exact hsome.not_covers (by decide) hcover

end Scety
