import Scety.Core.SearchKeys

/-!
# Routing is sound, and complete up to repeated inner `**`

Every store answers with the index of a registration of its own that is found for the host, and is
silent only if it has none (`answers_answer`).  `matches` takes the first answer in the order of the
stores.  Soundness and completeness follow from what the stores find patterns for (`hits_iff`).
-/

namespace Scety

open Glob

/-! ### The answer of one store -/

/-- `o` is a correct answer of store `k` for the host `h`. -/
def Answer (calls : List (Str × ℕ)) (h : Str) (k : ℕ) : Option ℕ → Prop
  | some i => ∃ e ∈ calls, e.2 = i ∧ (classify e.1).store = k ∧ (classify e.1).Hits h
  | none => ∀ e ∈ calls, (classify e.1).store = k → ¬ (classify e.1).Hits h

/-- Every store answers correctly. -/
theorem answers_answer (calls : List (Str × ℕ)) (h : Str) (k : ℕ) (o : Option ℕ)
    (hk : (answers calls h)[k]? = some o) : Answer calls h k o := by
  rw [answers_eq_map, List.getElem?_map] at hk
  obtain ⟨k', hrange, ho⟩ := Option.map_eq_some_iff.mp hk
  obtain rfl : k' = k := by
    obtain ⟨hlt, heq⟩ := List.getElem?_eq_some_iff.mp hrange
    rw [← heq, List.getElem_range]
  cases o with
  | none =>
    intro e he hs hh
    obtain ⟨s, hmem, hkind⟩ := kind_iff_of_store.mpr ⟨hs, hh⟩
    exact Key.index_eq_none_iff.mp (List.findSome?_eq_none_iff.mp ho s hmem) e he hkind
  | some i =>
    obtain ⟨s, hmem, hs⟩ := List.exists_of_findSome?_eq_some ho
    obtain ⟨e, he, hi, hkind⟩ := Key.exists_of_index hs
    exact ⟨e, he, hi, kind_iff_of_store.mp ⟨s, hmem, hkind⟩⟩

/-! ### The first answer -/

/-- What `matches` returns comes from a registration that is found for the host, and no store
before its own has one. -/
theorem exists_of_matches {calls : List (Str × ℕ)} {h : Str} {i : ℕ}
    (hm : (HostRouter.ofCalls calls).matches h = some i) :
    ∃ e ∈ calls, e.2 = i ∧ (classify e.1).Hits h ∧
      (answers calls h)[(classify e.1).store]? = some (some i) ∧
      ∀ e' ∈ calls, (classify e'.1).Hits h → (classify e.1).store ≤ (classify e'.1).store := by
  unfold HostRouter.matches at hm
  rw [lookups_ofCalls] at hm
  obtain ⟨l₁, a, l₂, hl, ha, hbefore⟩ := List.findSome?_eq_some_iff.mp hm
  have ha' : a = some i := ha
  subst ha'
  have hget : (answers calls h)[l₁.length]? = some (some i) := by
    rw [hl]
    simp
  obtain ⟨e, he, hi, hs, hh⟩ := answers_answer calls h _ _ hget
  refine ⟨e, he, hi, hh, by rw [hs]; exact hget, ?_⟩
  intro e' he' hh'
  rw [hs]
  by_contra hlt
  have hlt' : (classify e'.1).store < l₁.length := not_le.mp hlt
  have hnone : (answers calls h)[(classify e'.1).store]? = some none := by
    rw [hl, List.getElem?_append_left hlt', List.getElem?_eq_getElem hlt']
    exact congrArg some (hbefore _ (List.getElem_mem hlt'))
  exact answers_answer calls h _ _ hnone e' he' rfl hh'

/-- `matches` is silent exactly when no registration is found for the host. -/
theorem matches_eq_none_iff {calls : List (Str × ℕ)} {h : Str} :
    (HostRouter.ofCalls calls).matches h = none ↔ ∀ e ∈ calls, ¬ (classify e.1).Hits h := by
  rw [matches_eq_findSome?, List.findSome?_eq_none_iff]
  refine ⟨?_, ?_⟩
  · intro hnone e he hh
    obtain ⟨s, hs, hkind⟩ := kind_iff.mpr hh
    exact Key.index_eq_none_iff.mp (hnone s hs) e he hkind
  · intro hno s hs
    refine Key.index_eq_none_iff.mpr ?_
    intro e he hkind
    exact hno e he (kind_iff.mp ⟨s, hs, hkind⟩)

/-! ### Soundness and completeness -/

/-- **Soundness**: a host is only routed to an index that was registered with a pattern covering
it. -/
theorem matches_sound (calls : List (Str × ℕ)) (h : Str) (i : ℕ)
    (hm : (HostRouter.ofCalls calls).matches h = some i) :
    ∃ p, (p, i) ∈ calls ∧ PatternCovers p h := by
  obtain ⟨⟨p, j⟩, he, rfl, hh, -⟩ := exists_of_matches hm
  exact ⟨p, he, ((hits_iff p h).mp hh).1⟩

theorem matches_sound_two_services : ∃ p, (p, 1) ∈ [("a.com".toList, 0), ("**.b.*".toList, 1)] ∧
    PatternCovers p "x.b.org".toList :=
  matches_sound [("a.com".toList, 0), ("**.b.*".toList, 1)] "x.b.org".toList 1 (by decide)

/-- A host that some registered pattern covers is covered by one that the stores read in full: not
of the kind `RepeatedInner`, or with its later `**` present in the host as written. -/
def ReadInFull (calls : List (Str × ℕ)) (h : Str) : Prop :=
  ∃ e ∈ calls, PatternCovers e.1 h ∧ (RepeatedInner e.1 → CoversLiterally e.1 h)

/-- **Completeness**, exactly: a covered host is found if and only if one of the patterns covering
it is read in full. -/
theorem matches_complete_iff (calls : List (Str × ℕ)) (h : Str) :
    ((∃ e ∈ calls, PatternCovers e.1 h) → ((HostRouter.ofCalls calls).matches h).isSome) ↔
      ((∃ e ∈ calls, PatternCovers e.1 h) → ReadInFull calls h) := by
  apply imp_congr_right
  intro _
  rw [← Option.not_isNone, Bool.not_eq_true', ← Bool.not_eq_true, Option.isNone_iff_eq_none,
    matches_eq_none_iff]
  simp only [hits_iff, ReadInFull]
  push Not
  exact Iff.rfl

/-- A router that holds `a.**.b.**.c` alone does not find `a.x.b.y.c`. -/
theorem matches_complete_fails :
    ¬ ((∃ e ∈ [("a.**.b.**.c".toList, 0)], PatternCovers e.1 "a.x.b.y.c".toList) →
      ((HostRouter.ofCalls [("a.**.b.**.c".toList, 0)]).matches "a.x.b.y.c".toList).isSome) := by
  decide

end Scety
