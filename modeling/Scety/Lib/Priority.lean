import Mathlib.Data.List.Sort

/-!
# The first answer along a list of keys

A lookup that tries keys in a fixed order and returns the first answer.  If the order of the keys
is a relation `R`, the answer comes from the `R`-least key that has one; so only the keys with an
answer matter, and two sorted lists that contain them give the same result.
-/

namespace Scety.Priority

variable {κ β : Type*}

/-- The key that answers comes before every other key with an answer. -/
theorem exists_first {R : κ → κ → Prop} {L : List κ} (hL : L.Pairwise R) {g : κ → Option β} {b : β}
    (h : L.findSome? g = some b) :
    ∃ a ∈ L, g a = some b ∧ ∀ a' ∈ L, g a' ≠ none → a' = a ∨ R a a' := by
  obtain ⟨l₁, a, l₂, rfl, ha, hbefore⟩ := List.findSome?_eq_some_iff.mp h
  refine ⟨a, by simp, ha, ?_⟩
  intro a' ha' hne
  rcases List.mem_append.mp ha' with hm | hm
  · exact absurd (hbefore a' hm) hne
  · rcases List.mem_cons.mp hm with rfl | hm
    · exact Or.inl rfl
    · have htail := (List.pairwise_append.mp hL).2.1
      exact Or.inr ((List.pairwise_cons.mp htail).1 a' hm)

theorem findSome?_congr {L : List κ} {g g' : κ → Option β} (h : ∀ a ∈ L, g a = g' a) :
    L.findSome? g = L.findSome? g' := by
  induction L with
  | nil => rfl
  | cons a L ih =>
    rw [List.findSome?_cons, List.findSome?_cons, h a List.mem_cons_self,
      ih fun b hb => h b (List.mem_cons_of_mem _ hb)]

/-- Keys that pass a test all have the same answer. -/
theorem findSome?_ite_eq_some_iff {L : List κ} {Q : κ → Prop} [DecidablePred Q] {b c : β} :
    (L.findSome? fun a => if Q a then some b else none) = some c ↔ c = b ∧ ∃ a ∈ L, Q a := by
  induction L with
  | nil => simp
  | cons a L ih =>
    rw [List.findSome?_cons, List.exists_mem_cons_iff]
    by_cases ha : Q a
    · rw [if_pos ha, and_iff_left (Or.inl ha), Option.some.injEq]
      exact eq_comm
    · rw [if_neg ha, or_iff_right ha]
      exact ih

theorem bind_ite_eq_some_iff {o : Option κ} {Q : κ → Prop} [DecidablePred Q] {b c : β} :
    (o.bind fun a => if Q a then some b else none) = some c ↔ c = b ∧ ∃ a, o = some a ∧ Q a := by
  cases o with
  | none => simp
  | some a =>
    rw [Option.bind_some]
    by_cases ha : Q a
    · rw [if_pos ha, and_iff_left ⟨a, rfl, ha⟩, Option.some.injEq]
      exact eq_comm
    · rw [if_neg ha]
      refine iff_of_false (by simp) ?_
      rintro ⟨-, a', ha', hq⟩
      obtain rfl := Option.some.inj ha'
      exact ha hq

/-- Answers that change to `b` only change the first answer to `b` only. -/
theorem findSome?_update {L : List κ} {g g' : κ → Option β} {b : β}
    (h : ∀ a ∈ L, g' a = g a ∨ g' a = some b) :
    L.findSome? g' = L.findSome? g ∨ L.findSome? g' = some b := by
  induction L with
  | nil => exact Or.inl rfl
  | cons a L ih =>
    rw [List.findSome?_cons, List.findSome?_cons]
    rcases h a List.mem_cons_self with ha | ha
    · rw [ha]
      cases g a with
      | none => exact ih fun c hc => h c (List.mem_cons_of_mem _ hc)
      | some c => exact Or.inl rfl
    · rw [ha]
      exact Or.inr rfl

/-- What stands before a key of a strictly descending list are the larger keys. -/
theorem exists_split_of_descending {L : List ℕ} (hL : L.Pairwise (· > ·)) {n : ℕ} (hn : n ∈ L) :
    ∃ l₁ l₂, L = l₁ ++ n :: l₂ ∧ ∀ m, m ∈ l₁ ↔ m ∈ L ∧ n < m := by
  obtain ⟨l₁, l₂, rfl⟩ := List.append_of_mem hn
  refine ⟨l₁, l₂, rfl, ?_⟩
  obtain ⟨-, htail, hcross⟩ := List.pairwise_append.mp hL
  intro m
  refine ⟨fun hm => ⟨List.mem_append_left _ hm, hcross m hm n List.mem_cons_self⟩, ?_⟩
  rintro ⟨hm, hlt⟩
  rcases List.mem_append.mp hm with hm | hm
  · exact hm
  · rcases List.mem_cons.mp hm with rfl | hm
    · exact absurd hlt (lt_irrefl m)
    · exact absurd hlt (lt_asymm ((List.pairwise_cons.mp htail).1 m hm))

/-- Keys without an answer can be left out. -/
theorem findSome?_filter_isSome (g : κ → Option β) (L : List κ) :
    (L.filter fun a => (g a).isSome).findSome? g = L.findSome? g := by
  induction L with
  | nil => rfl
  | cons a L ih =>
    cases h : g a with
    | none => simp [h, ih]
    | some b => simp [h]

/-- Two strictly descending key lists that contain every key with an answer agree. -/
theorem findSome?_eq_of_descending {L L' : List ℕ} (hL : L.Pairwise (· > ·))
    (hL' : L'.Pairwise (· > ·)) {g : ℕ → Option β} (hg : ∀ n, g n ≠ none → (n ∈ L ↔ n ∈ L')) :
    L.findSome? g = L'.findSome? g := by
  rw [← findSome?_filter_isSome g L, ← findSome?_filter_isSome g L']
  congr 1
  have hp : (L.filter fun n => (g n).isSome).Perm (L'.filter fun n => (g n).isSome) := by
    have hnd : ∀ {M : List ℕ}, M.Pairwise (· > ·) → (M.filter fun n => (g n).isSome).Nodup :=
      fun hM => (hM.filter _).imp fun hab => hab.ne'
    refine (List.perm_ext_iff_of_nodup (hnd hL) (hnd hL')).mpr ?_
    intro n
    simp only [List.mem_filter]
    refine and_congr_left fun hs => hg n ?_
    rw [ne_eq, ← Option.not_isSome_iff_eq_none, not_not]
    exact hs
  exact hp.eq_of_pairwise (fun a b _ _ hab hba => absurd hab (lt_asymm hba)) (hL.filter _)
    (hL'.filter _)

end Scety.Priority
