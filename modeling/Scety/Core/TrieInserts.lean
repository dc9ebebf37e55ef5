import Scety.Core.Trie
import Scety.Lib.Priority

/-!
# What a trie finds after any sequence of insertions

The trie keeps the first index of every inserted list (`valueAt_ofInserts`), and the search answers
with the covering list that comes first in the literal-first order.  So the answer is a function of
the first indices alone, whatever the order of the insertions.
-/

namespace Scety

open Glob

/-- The trie after the calls `insert(labels, index)`, in their order. -/
def LabelTrie.ofInserts (calls : List (List Str × ℕ)) : LabelTrie :=
  calls.foldl (fun t c => t.insert c.1 c.2) LabelTrie.new

/-- A list of the trie matches the host labels, label by label. -/
def LabelsMatch (ls hostLabels : List Str) : Prop :=
  List.Forall₂ (fun l x => l = star ∨ l = x) ls hostLabels

/-- At the first position where the lists differ, `a` has a literal label and `b` has `*`. -/
def LeftmostLiteral (a b : List Str) : Prop :=
  ∃ u l a' b', a = u ++ l :: a' ∧ b = u ++ star :: b' ∧ l ≠ star

/-- The index of the first call that inserts `ls`. -/
def firstIndex (calls : List (List Str × ℕ)) (ls : List Str) : Option ℕ :=
  (calls.find? fun c => c.1 = ls).map Prod.snd

/-! ### Labels and tokens -/

theorem trieTokens_injective : Function.Injective trieTokens :=
  List.map_injective_iff.mpr trieToken_injective

theorem hit_trieToken_iff {l x : Str} : (trieToken l).Hit x ↔ l = star ∨ l = x := by
  by_cases hs : l = star
  · rw [hs, trieToken_star]
    exact iff_of_true trivial (Or.inl rfl)
  · rw [trieToken_of_ne hs, or_iff_right hs]
    exact eq_comm

theorem labelsMatch_iff {ls hs : List Str} : LabelsMatch ls hs ↔ Covers (trieTokens ls) hs := by
  rw [covers_iff_forall₂ (any_notMem_trieTokens ls)]
  unfold LabelsMatch trieTokens
  simp only [List.forall₂_map_left_iff, hit_trieToken_iff]

theorem trieToken_eq_lit_iff {l x : Str} : trieToken l = .lit x ↔ l = x ∧ l ≠ star := by
  by_cases hs : l = star
  · rw [hs, trieToken_star]
    simp
  · rw [trieToken_of_ne hs, Token.lit.injEq, and_iff_left hs]

theorem trieToken_eq_one_iff {l : Str} : trieToken l = .one ↔ l = star := by
  rw [← trieToken_star, trieToken_injective.eq_iff]

theorem leftmostLiteral_iff {a b : List Str} :
    LeftmostLiteral a b ↔ LiteralFirst (trieTokens a) (trieTokens b) := by
  refine ⟨?_, ?_⟩
  · rintro ⟨u, l, a', b', rfl, rfl, hl⟩
    refine ⟨trieTokens u, l, trieTokens a', trieTokens b', ?_, ?_⟩
    · simp [trieTokens, trieToken_of_ne hl]
    · simp [trieTokens]
  · rintro ⟨u, x, a', b', ha, hb⟩
    obtain ⟨u₁, r₁, rfl, hu₁, hr₁⟩ := List.map_eq_append_iff.mp ha
    obtain ⟨l, a₁, rfl, hl, -⟩ := List.map_eq_cons_iff.mp hr₁
    obtain ⟨u₂, r₂, rfl, hu₂, hr₂⟩ := List.map_eq_append_iff.mp hb
    obtain ⟨m, b₁, rfl, hm, -⟩ := List.map_eq_cons_iff.mp hr₂
    obtain rfl : u₁ = u₂ := trieTokens_injective (hu₁.trans hu₂.symm)
    obtain rfl := trieToken_eq_one_iff.mp hm
    exact ⟨u₁, l, a₁, b₁, rfl, rfl, (trieToken_eq_lit_iff.mp hl).2⟩

theorem LeftmostLiteral.asymm {a b : List Str} (h : LeftmostLiteral a b) :
    ¬ LeftmostLiteral b a := by
  rw [leftmostLiteral_iff] at h ⊢
  exact h.asymm

/-! ### Insertion keeps the first index -/

section Inserts

variable (calls : List (List Str × ℕ))

theorem firstIndex_concat (c : List Str × ℕ) (ls : List Str) :
    firstIndex (calls ++ [c]) ls =
      (firstIndex calls ls).or (if c.1 = ls then some c.2 else none) := by
  unfold firstIndex
  rw [List.find?_append, Option.map_or]
  congr 1
  by_cases h : c.1 = ls
  · simp [h]
  · simp [h]

/-- What one more call does to the entry of a list. -/
theorem valueAt_ofInserts_concat (c : List Str × ℕ) (path : List (Token Str)) :
    (LabelTrie.ofInserts (calls ++ [c])).root.valueAt path =
      if path = trieTokens c.1 then
        ((LabelTrie.ofInserts calls).root.valueAt path).or (some c.2)
      else (LabelTrie.ofInserts calls).root.valueAt path := by
  have hstep : LabelTrie.ofInserts (calls ++ [c]) =
      (LabelTrie.ofInserts calls).insert c.1 c.2 := by simp [LabelTrie.ofInserts]
  rw [hstep]
  exact TrieNode.valueAt_insert _ _ _ _

theorem valueAt_ofInserts (ls : List Str) :
    (LabelTrie.ofInserts calls).root.valueAt (trieTokens ls) = firstIndex calls ls := by
  induction calls using List.reverseRecOn with
  | nil => exact TrieNode.valueAt_new _
  | append_singleton calls c ih =>
    rw [valueAt_ofInserts_concat, firstIndex_concat, ← ih]
    by_cases h : ls = c.1
    · rw [if_pos (congrArg trieTokens h), if_pos h.symm]
    · rw [if_neg (trieTokens_injective.ne h), if_neg (Ne.symm h), Option.or_none]

/-- Only inserted lists have a value. -/
theorem exists_of_valueAt_ofInserts {path : List (Token Str)} {i : ℕ}
    (h : (LabelTrie.ofInserts calls).root.valueAt path = some i) :
    ∃ ls, path = trieTokens ls := by
  induction calls using List.reverseRecOn generalizing i with
  | nil => exact absurd ((TrieNode.valueAt_new path).symm.trans h) (by simp)
  | append_singleton calls c ih =>
    rw [valueAt_ofInserts_concat] at h
    by_cases hp : path = trieTokens c.1
    · exact ⟨c.1, hp⟩
    · rw [if_neg hp] at h
      exact ih h

theorem firstIndex_isSome_iff (ls : List Str) :
    (firstIndex calls ls).isSome = true ↔ ∃ c ∈ calls, c.1 = ls := by
  unfold firstIndex
  rw [Option.isSome_map, List.find?_isSome]
  simp only [decide_eq_true_eq]

variable {calls}

/-- The list that the search answers with. -/
theorem exists_of_lookup {hs : List Str} {i : ℕ}
    (h : (LabelTrie.ofInserts calls).lookup hs = some i) :
    ∃ ls, LabelsMatch ls hs ∧ firstIndex calls ls = some i ∧
      ∀ c ∈ calls, LabelsMatch c.1 hs → c.1 = ls ∨ LeftmostLiteral ls c.1 := by
  unfold LabelTrie.lookup at h
  rw [TrieNode.lookupFrom_eq] at h
  obtain ⟨path, hpath, hval, hfirst⟩ := Priority.exists_first (hostPaths_pairwise hs) h
  obtain ⟨ls, rfl⟩ := exists_of_valueAt_ofInserts calls hval
  refine ⟨ls, labelsMatch_iff.mpr (mem_hostPaths_iff.mp hpath).2, ?_, ?_⟩
  · rw [← valueAt_ofInserts, hval]
  · intro c hc hmatch
    have hmem : trieTokens c.1 ∈ hostPaths hs :=
      mem_hostPaths_iff.mpr ⟨any_notMem_trieTokens _, labelsMatch_iff.mp hmatch⟩
    have hsome := (firstIndex_isSome_iff calls c.1).mpr ⟨c, hc, rfl⟩
    rw [← valueAt_ofInserts, Option.isSome_iff_ne_none] at hsome
    rcases hfirst _ hmem hsome with heq | hlit
    · exact Or.inl (trieTokens_injective heq)
    · exact Or.inr (leftmostLiteral_iff.mpr hlit)

theorem lookup_eq_none_iff {hs : List Str} :
    (LabelTrie.ofInserts calls).lookup hs = none ↔ ∀ c ∈ calls, ¬ LabelsMatch c.1 hs := by
  refine ⟨?_, ?_⟩
  · intro h c hc hmatch
    unfold LabelTrie.lookup at h
    rw [TrieNode.lookupFrom_eq, List.findSome?_eq_none_iff] at h
    have hnone := h (trieTokens c.1)
      (mem_hostPaths_iff.mpr ⟨any_notMem_trieTokens _, labelsMatch_iff.mp hmatch⟩)
    rw [valueAt_ofInserts] at hnone
    have hsome := (firstIndex_isSome_iff calls c.1).mpr ⟨c, hc, rfl⟩
    rw [hnone] at hsome
    exact absurd hsome Bool.false_ne_true
  · intro h
    cases hfound : (LabelTrie.ofInserts calls).lookup hs with
    | none => rfl
    | some i =>
      obtain ⟨ls, hmatch, hidx, -⟩ := exists_of_lookup hfound
      obtain ⟨c, hc, rfl⟩ := (firstIndex_isSome_iff calls ls).mp (by rw [hidx]; rfl)
      exact absurd hmatch (h c hc)

theorem lookup_eq_some_iff {hs : List Str} {i : ℕ} :
    (LabelTrie.ofInserts calls).lookup hs = some i ↔
      ∃ ls, LabelsMatch ls hs ∧ firstIndex calls ls = some i ∧
        ∀ c ∈ calls, LabelsMatch c.1 hs → c.1 = ls ∨ LeftmostLiteral ls c.1 := by
  refine ⟨exists_of_lookup, ?_⟩
  rintro ⟨ls, hmatch, hidx, hgreatest⟩
  obtain ⟨c, hc, rfl⟩ := (firstIndex_isSome_iff calls ls).mp (by rw [hidx]; rfl)
  cases hfound : (LabelTrie.ofInserts calls).lookup hs with
  | none => exact absurd hmatch (lookup_eq_none_iff.mp hfound c hc)
  | some j =>
    -- two greatest lists are the same one
    obtain ⟨ms, hmatch', hidx', hgreatest'⟩ := exists_of_lookup hfound
    obtain ⟨d, hd, rfl⟩ := (firstIndex_isSome_iff calls ms).mp (by rw [hidx']; rfl)
    have heq : d.1 = c.1 := by
      rcases hgreatest d hd hmatch' with heq | hlit
      · exact heq
      · exact ((hgreatest' c hc hmatch).resolve_right hlit.asymm).symm
    rw [heq] at hidx'
    exact hidx'.symm.trans hidx

end Inserts

/-- **Trie lookup returns the leftmost-literal match**: after any insertions nothing is found exactly
if no inserted list matches, otherwise the first index of the matching list that prefers literal
labels from the left; and lookups depend on the first index of every list alone. -/
theorem lookup_leftmost_literal (calls : List (List Str × ℕ)) (hs : List Str) :
    ((LabelTrie.ofInserts calls).lookup hs = none ↔ ∀ c ∈ calls, ¬ LabelsMatch c.1 hs) ∧
    (∀ i, (LabelTrie.ofInserts calls).lookup hs = some i ↔
      ∃ ls, LabelsMatch ls hs ∧ firstIndex calls ls = some i ∧
        ∀ c ∈ calls, LabelsMatch c.1 hs → c.1 = ls ∨ LeftmostLiteral ls c.1) ∧
    ∀ calls' : List (List Str × ℕ), (∀ ls, firstIndex calls' ls = firstIndex calls ls) →
      (LabelTrie.ofInserts calls').lookup hs = (LabelTrie.ofInserts calls).lookup hs := by
  refine ⟨lookup_eq_none_iff, fun i => lookup_eq_some_iff, ?_⟩
  intro calls' hsame
  have hmem : ∀ P : List Str → Prop, (∀ c ∈ calls', P c.1) ↔ ∀ c ∈ calls, P c.1 := by
    intro P
    have hinserted : ∀ ls, (∃ c ∈ calls', c.1 = ls) ↔ ∃ c ∈ calls, c.1 = ls := by
      intro ls
      rw [← firstIndex_isSome_iff, ← firstIndex_isSome_iff, hsame]
    refine ⟨?_, ?_⟩
    · intro h c hc
      obtain ⟨d, hd, hdc⟩ := (hinserted c.1).mpr ⟨c, hc, rfl⟩
      exact hdc ▸ h d hd
    · intro h c hc
      obtain ⟨d, hd, hdc⟩ := (hinserted c.1).mp ⟨c, hc, rfl⟩
      exact hdc ▸ h d hd
  refine Option.ext fun i => ?_
  simp only [lookup_eq_some_iff, hsame]
  exact exists_congr fun ls => and_congr_right fun _ => and_congr_right fun _ =>
    hmem fun ms => LabelsMatch ms hs → ms = ls ∨ LeftmostLiteral ls ms

end Scety
