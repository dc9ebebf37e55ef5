import Scety.Core.SearchKeys
import Scety.Core.TrieInserts

/-!
# The fast matchers agree with the table

A pattern with one wildcard is stored under a key or as the labels around the wildcard, one with
several `*` in the trie.  For each of these stores, a router that holds only this pattern finds a
host through the store exactly when `dp_host_matches` accepts the labels of the pattern.
-/

namespace Scety

open Glob

/-- Labels without a star, as a list of labels of a pattern. -/
def StarFree (ls : List Str) : Prop := ∀ l ∈ ls, '*' ∉ l ∧ '.' ∉ l

instance (ls : List Str) : Decidable (StarFree ls) :=
  inferInstanceAs (Decidable (∀ l ∈ ls, '*' ∉ l ∧ '.' ∉ l))

/-- The router after one call of `add_pattern`. -/
def onlyPattern (ls : List Str) (index : ℕ) : HostRouter :=
  HostRouter.new.addPattern (joinDots ls) index

/-- What the table says about the one pattern. -/
def viaTable (ls : List Str) (index : ℕ) (h : Str) (scratch : List Bool) : Option ℕ :=
  if (dpHostMatches ls (labels h) scratch).1 then some index else none

/-! ### Joined labels -/

theorem joinDots_append {xs ys : List Str} (hx : xs ≠ []) (hy : ys ≠ []) :
    joinDots (xs ++ ys) = joinDots xs ++ '.' :: joinDots ys := Split.intercalate_append hx hy

theorem joinDots_singleton (l : Str) : joinDots [l] = l := List.intercalate_singleton

theorem joinDots_cons (l : Str) {ls : List Str} (h : ls ≠ []) :
    joinDots (l :: ls) = l ++ '.' :: joinDots ls := by
  have happend := joinDots_append (List.cons_ne_nil l []) h
  rwa [List.singleton_append, joinDots_singleton] at happend

theorem joinDots_concat_star {ls : List Str} (h : ls ≠ []) :
    joinDots (ls ++ [star]) = joinDots ls ++ ['.', '*'] := by
  rw [joinDots_append h (List.cons_ne_nil _ _), joinDots_singleton]
  rfl

namespace StarFree

variable {P S : List Str}

theorem dots (h : StarFree P) : ∀ l ∈ P, '.' ∉ l := fun l hl => (h l hl).2

theorem stars (h : StarFree P) : ∀ l ∈ P, '*' ∉ l := fun l hl => (h l hl).1

theorem doubleStar_notMem (h : StarFree P) : doubleStar ∉ P := (not_mem_of_star_notMem h.stars).2

theorem star_notMem (h : StarFree P) : star ∉ P := (not_mem_of_star_notMem h.stars).1

theorem labels_eq (h : StarFree P) (h0 : P ≠ []) : labels (joinDots P) = P :=
  labels_joinDots h.dots h0

theorem star_notMem_joinDots (h : StarFree P) (h0 : P ≠ []) : '*' ∉ joinDots P := by
  intro hm
  obtain ⟨l, hl, hstar⟩ := Split.exists_mem_splitOn hm (by decide : '*' ≠ '.')
  have hlabel : l ∈ labels (joinDots P) := hl
  rw [h.labels_eq h0] at hlabel
  exact h.stars l hlabel hstar

theorem count_joinDots (h : StarFree P) (h0 : P ≠ []) : (joinDots P).count '*' = 0 :=
  List.count_eq_zero.mpr (h.star_notMem_joinDots h0)

/-- The labels around a wildcard have no dot. -/
theorem dots_around (hP : StarFree P) (hS : StarFree S) {w : Str} (hw : '.' ∉ w) :
    ∀ l ∈ P ++ w :: S, '.' ∉ l := by
  intro l hl
  rcases List.mem_append.mp hl with hl | hl
  · exact hP.dots l hl
  · rcases List.mem_cons.mp hl with rfl | hl
    · exact hw
    · exact hS.dots l hl

theorem nil : StarFree [] := fun _ hl => absurd hl List.not_mem_nil

end StarFree

/-! ### The class of each kind of pattern -/

theorem head_of_star_prefix {p : Str} (h : ['*', '.'] <+: p) : (labels p).head? = some star := by
  obtain ⟨d, rfl⟩ := h
  have hls : labels (star ++ '.' :: d) = star :: labels d :=
    Split.splitOn_cons_of_notMem (by decide) d
  exact congrArg List.head? hls

theorem getLast_of_star_suffix {p : Str} (h : ['.', '*'] <:+ p) :
    (labels p).getLast? = some star := by
  obtain ⟨d, rfl⟩ := h
  have hls : labels (d ++ '.' :: star) = labels d ++ [star] :=
    Split.splitOn_concat_of_notMem (by decide) d
  exact (congrArg List.getLast? hls).trans List.getLast?_concat

section Classes

variable {P S : List Str}

theorem labels_around (hP : StarFree P) (hS : StarFree S) {w : Str} (hw : '.' ∉ w) :
    labels (joinDots (P ++ w :: S)) = P ++ w :: S :=
  labels_joinDots (hP.dots_around hS hw) (by simp)

theorem joinDots_ne {ls : List Str} (hdot : ∀ l ∈ ls, '.' ∉ l) (h : 2 ≤ ls.length) {w : Str}
    (hw : '.' ∉ w) : joinDots ls ≠ w := by
  intro heq
  have h0 : ls ≠ [] := by
    rintro rfl
    exact absurd h (by simp)
  have hls := labels_joinDots hdot h0
  rw [heq, labels, Split.splitOn_of_notMem hw] at hls
  rw [← hls] at h
  exact absurd h (by simp)

theorem not_lone {ls : List Str} (hdot : ∀ l ∈ ls, '.' ∉ l) (h : 2 ≤ ls.length) :
    ¬ (joinDots ls = star ∨ joinDots ls = doubleStar) :=
  not_or.mpr ⟨joinDots_ne hdot h (by decide), joinDots_ne hdot h (by decide)⟩

theorem two_le_around {w : Str} (h : P ≠ [] ∨ S ≠ []) : 2 ≤ (P ++ w :: S).length := by
  rw [List.length_append, List.length_cons]
  rcases h with h | h
  · have := List.length_pos_of_ne_nil h
    omega
  · have := List.length_pos_of_ne_nil h
    omega

theorem count_around (hP : StarFree P) (hS : StarFree S) (w : Str) :
    (joinDots (P ++ w :: S)).count '*' = w.count '*' := by
  have hcons : (joinDots (w :: S)).count '*' = w.count '*' := by
    by_cases hS0 : S = []
    · rw [hS0, joinDots_singleton]
    · rw [joinDots_cons w hS0, List.count_append, List.count_cons_of_ne (by decide),
        hS.count_joinDots hS0, Nat.add_zero]
  by_cases hP0 : P = []
  · rw [hP0, List.nil_append, hcons]
  · rw [joinDots_append hP0 (List.cons_ne_nil w S), List.count_append, hP.count_joinDots hP0,
      List.count_cons_of_ne (by decide), hcons, Nat.zero_add]

/-- What the first tests of `classify` see of the joined labels. -/
structure Seen (ls : List Str) (stars : ℕ) : Prop where
  not_lone : ¬ (joinDots ls = star ∨ joinDots ls = doubleStar)
  count : (joinDots ls).count '*' = stars
  labels_eq : labels (joinDots ls) = ls

theorem seen_around (hP : StarFree P) (hS : StarFree S) {w : Str} (hw : '.' ∉ w)
    (h : P ≠ [] ∨ S ≠ []) : Seen (P ++ w :: S) (w.count '*') :=
  ⟨not_lone (hP.dots_around hS hw) (two_le_around h), count_around hP hS w, labels_around hP hS hw⟩

theorem classify_star_cons (hS : StarFree S) (h0 : S ≠ []) :
    classify (joinDots (star :: S)) = .leadingWildcards (joinDots S) := by
  have hseen : Seen (star :: S) 1 := seen_around .nil hS (by decide) (Or.inr h0)
  have hjoin : joinDots (star :: S) = '*' :: '.' :: joinDots S := joinDots_cons star h0
  unfold classify
  rw [if_neg hseen.not_lone, hseen.count]
  dsimp only
  rw [if_neg Nat.one_ne_zero, if_pos ⟨rfl, joinDots S, hjoin.symm⟩, hjoin]
  rfl

theorem classify_concat_star (hP : StarFree P) (h0 : P ≠ []) :
    classify (joinDots (P ++ [star])) = .trailingWildcards (joinDots P) := by
  have hseen : Seen (P ++ [star]) 1 := seen_around hP .nil (by decide) (Or.inl h0)
  have hjoin := joinDots_concat_star h0
  have hprefix : ¬ ['*', '.'] <+: joinDots (P ++ [star]) := by
    intro h
    have hhead := head_of_star_prefix h
    rw [hseen.labels_eq, List.head?_append_of_ne_nil _ h0] at hhead
    exact hP.star_notMem (List.mem_of_mem_head? hhead)
  unfold classify
  rw [if_neg hseen.not_lone, hseen.count]
  dsimp only
  rw [if_neg Nat.one_ne_zero, if_neg fun h => hprefix h.2, if_pos ⟨rfl, joinDots P, hjoin.symm⟩,
    hjoin]
  simp

theorem classify_doubleStar_cons (hS : StarFree S) (h0 : S ≠ []) :
    classify (joinDots (doubleStar :: S)) = .doubleStarLeading S.length (joinDots S) := by
  have hseen : Seen (doubleStar :: S) 2 := seen_around .nil hS (by decide) (Or.inr h0)
  unfold classify
  rw [if_neg hseen.not_lone, hseen.count, hseen.labels_eq]
  dsimp only
  rw [if_neg (by decide), if_neg fun h => absurd h.1 (by decide), if_neg fun h =>
    absurd h.1 (by decide), if_pos ⟨rfl, hS.stars⟩]
  rfl

theorem classify_concat_doubleStar (hP : StarFree P) (h0 : P ≠ []) :
    classify (joinDots (P ++ [doubleStar])) = .doubleStarTrailing P.length (joinDots P) := by
  have hseen : Seen (P ++ [doubleStar]) 2 := seen_around hP .nil (by decide) (Or.inl h0)
  have hhead : (P ++ [doubleStar]).head? ≠ some doubleStar := by
    rw [List.head?_append_of_ne_nil _ h0]
    exact fun h => hP.doubleStar_notMem (List.mem_of_mem_head? h)
  unfold classify
  rw [if_neg hseen.not_lone, hseen.count, hseen.labels_eq]
  dsimp only
  rw [if_neg (by decide), if_neg fun h => absurd h.1 (by decide), if_neg fun h =>
    absurd h.1 (by decide), if_neg fun h => hhead h.1,
    if_pos ⟨List.getLast?_concat, by rw [List.dropLast_concat]; exact hP.stars⟩,
    List.dropLast_concat]
  simp

theorem splitInner_around {w : Str} (hw : w ∉ P) (hP0 : P ≠ []) (hS0 : S ≠ []) :
    splitInner (P ++ w :: S) w = some (P, S) :=
  splitInner_eq_some_iff.mpr ⟨rfl, hw, hP0, hS0⟩

/-- The ends of a pattern with an inner wildcard are plain labels. -/
theorem head_around (hP : StarFree P) (hP0 : P ≠ []) {w v : Str} (hv : '*' ∈ v) :
    (P ++ w :: S).head? ≠ some v := by
  rw [List.head?_append_of_ne_nil _ hP0]
  exact fun h => hP.stars v (List.mem_of_mem_head? h) hv

theorem getLast_around (hS : StarFree S) (hS0 : S ≠ []) {w v : Str} (hv : '*' ∈ v) :
    (P ++ w :: S).getLast? ≠ some v := by
  rw [List.getLast?_append_of_ne_nil _ (List.cons_ne_nil w S), List.getLast?_cons_of_ne_nil hS0]
  exact fun h => hS.stars v (List.mem_of_getLast? h) hv

theorem classify_inner_star (hP : StarFree P) (hS : StarFree S) (hP0 : P ≠ []) (hS0 : S ≠ []) :
    classify (joinDots (P ++ star :: S)) = .simpleInternalWildcards P S := by
  have hseen : Seen (P ++ star :: S) 1 := seen_around hP hS (by decide) (Or.inl hP0)
  have hprefix : ¬ ['*', '.'] <+: joinDots (P ++ star :: S) := fun h =>
    head_around hP hP0 List.mem_cons_self (hseen.labels_eq ▸ head_of_star_prefix h)
  have hsuffix : ¬ ['.', '*'] <:+ joinDots (P ++ star :: S) := fun h =>
    getLast_around hS hS0 List.mem_cons_self (hseen.labels_eq ▸ getLast_of_star_suffix h)
  have hd : doubleStar ∉ P ++ star :: S := by
    simp [hP.doubleStar_notMem, hS.doubleStar_notMem, star_ne_doubleStar.symm]
  have hone : (P ++ star :: S).count star = 1 := by
    rw [List.count_append, List.count_cons_self, List.count_eq_zero.mpr hP.star_notMem,
      List.count_eq_zero.mpr hS.star_notMem]
  unfold classify
  rw [if_neg hseen.not_lone, hseen.count, hseen.labels_eq]
  dsimp only
  rw [if_neg (by decide), if_neg fun h => hprefix h.2, if_neg fun h => hsuffix h.2,
    if_neg fun h => head_around hP hP0 List.mem_cons_self h.1,
    if_neg fun h => getLast_around hS hS0 List.mem_cons_self h.1, if_neg fun h => hd h.1,
    if_pos ⟨hone, hd⟩, splitInner_around hP.star_notMem hP0 hS0]

theorem classify_inner_doubleStar (hP : StarFree P) (hS : StarFree S) (hP0 : P ≠ [])
    (hS0 : S ≠ []) :
    classify (joinDots (P ++ doubleStar :: S)) = .internalDoubleStarWildcards P S := by
  have hseen : Seen (P ++ doubleStar :: S) 2 := seen_around hP hS (by decide) (Or.inl hP0)
  have hs : star ∉ P ++ doubleStar :: S := by
    simp [hP.star_notMem, hS.star_notMem, star_ne_doubleStar]
  have hd : doubleStar ∈ P ++ doubleStar :: S := by simp
  have hzero : (P ++ doubleStar :: S).count star = 0 := List.count_eq_zero.mpr hs
  unfold classify
  rw [if_neg hseen.not_lone, hseen.count, hseen.labels_eq]
  dsimp only
  rw [if_neg (by decide), if_neg fun h => absurd h.1 (by decide),
    if_neg fun h => absurd h.1 (by decide),
    if_neg fun h => head_around hP hP0 List.mem_cons_self h.1,
    if_neg fun h => getLast_around hS hS0 List.mem_cons_self h.1, if_neg fun h => hs h.2,
    if_neg fun h => h.2 hd]
  dsimp only
  rw [if_neg fun h => h.2 hd, if_pos ⟨hd, hs⟩, splitInner_around hP.doubleStar_notMem hP0 hS0]

end Classes

/-! ### Looking up the only pattern -/

section Single

variable {ls : List Str} {i : ℕ} {h : Str}

theorem lastWith_single (P : PatternClass → Bool) (p : Str) (i : ℕ) :
    lastWith P [(p, i)] = if P (classify p) then some i else none := lastWith_concat [] (p, i)

theorem firstWith_single (P : PatternClass → Bool) (p : Str) (i : ℕ) :
    firstWith P [(p, i)] = if P (classify p) then some i else none := by
  have hconcat := firstWith_concat (P := P) [] (p, i)
  rwa [List.nil_append, show firstWith P [] = none from rfl, Option.none_or] at hconcat

variable (ls i h) in
theorem lookups_onlyPattern : (onlyPattern ls i).lookups h = answers [(joinDots ls, i)] h :=
  lookups_ofCalls [(joinDots ls, i)] h

/-- An answer that is `i` exactly for the hosts that the labels cover. -/
theorem eq_viaTable {o : Option ℕ} (ho : ∀ j, o = some j ↔ j = i ∧ Covers (tokens ls) (labels h))
    (scratch : List Bool) : o = viaTable ls i h scratch := by
  refine Option.ext fun j => ?_
  unfold viaTable
  rw [ho, ← dpHostMatches_iff ls (labels h) scratch]
  by_cases hdp : (dpHostMatches ls (labels h) scratch).1 = true
  · rw [if_pos hdp, and_iff_left hdp, Option.some.injEq]
    exact eq_comm
  · rw [if_neg hdp]
    exact iff_of_false (fun hj => hdp hj.2) (by simp)

/-- The key of one of the numbers of labels that are tried. -/
theorem exists_counts_iff {k : ℕ} {s : Str} {joined : ℕ → Str} :
    (∃ n ∈ counts h, k = n ∧ s = joined n) ↔ k ≤ (labels h).length ∧ joined k = s := by
  refine ⟨?_, ?_⟩
  · rintro ⟨_, hn, rfl, rfl⟩
    exact ⟨mem_counts_iff.mp hn, rfl⟩
  · rintro ⟨hn, rfl⟩
    exact ⟨k, mem_counts_iff.mpr hn, rfl, rfl⟩

end Single

section Lookups

variable {P S T : List Str} (i : ℕ) (h : Str) (scratch : List Bool)

theorem lookupLeading_eq (hS : StarFree S) (h0 : S ≠ []) :
    lookupLeading (onlyPattern (star :: S) i).leadingWildcards h =
      viaTable (star :: S) i h scratch := by
  have hstore : lookupLeading (onlyPattern (star :: S) i).leadingWildcards h =
      (Split.splitOnce '.' h).bind fun q =>
        lastWith (· = .leadingWildcards q.2) [(joinDots (star :: S), i)] :=
    Option.some.inj (congrArg (·[7]?) (lookups_onlyPattern (star :: S) i h))
  have hls : labels ('*' :: '.' :: joinDots S) = star :: S :=
    (congrArg labels (joinDots_cons star h0).symm).trans
      (labels_around .nil hS (by decide : '.' ∉ star))
  have hcover := splitOnce_iff_covers (hS.star_notMem_joinDots h0) h
  rw [hls] at hcover
  refine eq_viaTable (fun j => ?_) scratch
  rw [hstore, ← hcover]
  simp only [lastWith_single, classify_star_cons hS h0, Priority.bind_ite_eq_some_iff,
    decide_eq_true_eq, PatternClass.leadingWildcards.injEq, Prod.exists]
  simp [eq_comm]

theorem lookupTrailing_eq (hP : StarFree P) (h0 : P ≠ []) :
    lookupTrailing (onlyPattern (P ++ [star]) i).trailingWildcards h =
      viaTable (P ++ [star]) i h scratch := by
  have hstore : lookupTrailing (onlyPattern (P ++ [star]) i).trailingWildcards h =
      (Split.rsplitOnce '.' h).bind fun q =>
        lastWith (· = .trailingWildcards q.1) [(joinDots (P ++ [star]), i)] :=
    Option.some.inj (congrArg (·[8]?) (lookups_onlyPattern (P ++ [star]) i h))
  have hjoin := joinDots_concat_star h0
  have hcover := rsplitOnce_iff_covers (hP.star_notMem_joinDots h0) h
  rw [← hjoin, labels_around hP .nil (by decide : '.' ∉ star)] at hcover
  refine eq_viaTable (fun j => ?_) scratch
  rw [hstore, ← hcover]
  simp only [lastWith_single, classify_concat_star hP h0, Priority.bind_ite_eq_some_iff,
    decide_eq_true_eq, PatternClass.trailingWildcards.injEq, Prod.exists]
  simp [eq_comm]

theorem lookupDoubleStarLeading_eq (hS : StarFree S) (h0 : S ≠ []) :
    lookupDoubleStarLeading (onlyPattern (doubleStar :: S) i).doubleStarLeading (labels h) =
      viaTable (doubleStar :: S) i h scratch := by
  have hstore : lookupDoubleStarLeading (onlyPattern (doubleStar :: S) i).doubleStarLeading
      (labels h) = (counts h).findSome? fun n =>
        lastWith (· = .doubleStarLeading n (lastJoined h n)) [(joinDots (doubleStar :: S), i)] :=
    Option.some.inj (congrArg (·[1]?) (lookups_onlyPattern (doubleStar :: S) i h))
  refine eq_viaTable (fun j => ?_) scratch
  rw [hstore, tokens_cons, token_doubleStar, tokens_of_star_notMem hS.stars,
    covers_any_literal_iff, ← drop_join_iff h0 hS.dots]
  simp only [lastWith_single, classify_doubleStar_cons hS h0, Priority.findSome?_ite_eq_some_iff,
    decide_eq_true_eq, PatternClass.doubleStarLeading.injEq]
  exact and_congr_right fun _ => exists_counts_iff

theorem lookupDoubleStarTrailing_eq (hP : StarFree P) (h0 : P ≠ []) :
    lookupDoubleStarTrailing (onlyPattern (P ++ [doubleStar]) i).doubleStarTrailing (labels h) =
      viaTable (P ++ [doubleStar]) i h scratch := by
  have hstore : lookupDoubleStarTrailing (onlyPattern (P ++ [doubleStar]) i).doubleStarTrailing
      (labels h) = (counts h).findSome? fun n =>
        lastWith (· = .doubleStarTrailing n (firstJoined h n))
          [(joinDots (P ++ [doubleStar]), i)] :=
    Option.some.inj (congrArg (·[2]?) (lookups_onlyPattern (P ++ [doubleStar]) i h))
  refine eq_viaTable (fun j => ?_) scratch
  rw [hstore, tokens_append, tokens_cons, token_doubleStar, tokens_nil,
    tokens_of_star_notMem hP.stars, covers_literal_any_iff, ← take_join_iff h0 hP.dots]
  simp only [lastWith_single, classify_concat_doubleStar hP h0, Priority.findSome?_ite_eq_some_iff,
    decide_eq_true_eq, PatternClass.doubleStarTrailing.injEq]
  exact and_congr_right fun _ => exists_counts_iff

theorem matchesSingleInternalWildcard_eq (hP : StarFree P) (hS : StarFree S) :
    matchesSingleInternalWildcard P S (labels h) =
      (dpHostMatches (P ++ star :: S) (labels h) scratch).1 := by
  rw [Bool.eq_iff_iff, dpHostMatches_iff]
  exact matchesSingleInternalWildcard_iff_covers (by simp [hP.star_notMem, hS.star_notMem])
    (by simp [hP.doubleStar_notMem, hS.doubleStar_notMem]) _

theorem matchesInternalDoubleStar_eq (hP : StarFree P) (hS : StarFree S) :
    matchesInternalDoubleStar P S (labels h) =
      (dpHostMatches (P ++ doubleStar :: S) (labels h) scratch).1 := by
  rw [Bool.eq_iff_iff, dpHostMatches_iff]
  exact matchesInternalDoubleStar_iff_covers (by simp [hP.star_notMem, hS.star_notMem])
    (by simp [hP.doubleStar_notMem, hS.doubleStar_notMem]) _

theorem lookupSimpleInternal_eq (hP : StarFree P) (hS : StarFree S) (hP0 : P ≠ [])
    (hS0 : S ≠ []) :
    lookupSimpleInternal (onlyPattern (P ++ star :: S) i).simpleInternalWildcards (labels h) =
      viaTable (P ++ star :: S) i h scratch := by
  have hstore : lookupSimpleInternal (onlyPattern (P ++ star :: S) i).simpleInternalWildcards
      (labels h) =
      firstWith (simpleInternalHit (labels h)) [(joinDots (P ++ star :: S), i)] :=
    Option.some.inj (congrArg (·[3]?) (lookups_onlyPattern (P ++ star :: S) i h))
  rw [hstore, firstWith_single, classify_inner_star hP hS hP0 hS0]
  unfold viaTable
  rw [← matchesSingleInternalWildcard_eq h scratch hP hS]
  rfl

theorem lookupInternalDoubleStar_eq (hP : StarFree P) (hS : StarFree S) (hP0 : P ≠ [])
    (hS0 : S ≠ []) :
    lookupInternalDoubleStar (onlyPattern (P ++ doubleStar :: S) i).internalDoubleStarWildcards
      (labels h) = viaTable (P ++ doubleStar :: S) i h scratch := by
  have hstore : lookupInternalDoubleStar
      (onlyPattern (P ++ doubleStar :: S) i).internalDoubleStarWildcards (labels h) =
      firstWith (internalDoubleStarHit (labels h)) [(joinDots (P ++ doubleStar :: S), i)] :=
    Option.some.inj (congrArg (·[4]?) (lookups_onlyPattern (P ++ doubleStar :: S) i h))
  rw [hstore, firstWith_single, classify_inner_doubleStar hP hS hP0 hS0]
  unfold viaTable
  rw [← matchesInternalDoubleStar_eq h scratch hP hS]
  rfl

theorem lookupTrie_eq (hT : doubleStar ∉ T) :
    (LabelTrie.new.insert T i).lookup (labels h) = viaTable T i h scratch := by
  have hlookup : (LabelTrie.new.insert T i).lookup (labels h) =
      (hostPaths (labels h)).findSome? fun path =>
        if path = trieTokens T then some i else none := by
    unfold LabelTrie.lookup
    rw [TrieNode.lookupFrom_eq]
    refine Priority.findSome?_congr fun path _ => ?_
    show (TrieNode.new.insert T i).valueAt path = _
    rw [TrieNode.valueAt_insert, TrieNode.valueAt_new, Option.none_or]
  refine eq_viaTable (fun j => ?_) scratch
  rw [hlookup, Priority.findSome?_ite_eq_some_iff, ← trieTokens_eq_tokens hT]
  simp only [exists_eq_right, mem_hostPaths_iff, any_notMem_trieTokens, not_false_eq_true,
    true_and]

end Lookups

/-- What each optimised lookup finds for its only pattern is what the table says. -/
structure FastMatchersAgree (P S T : List Str) (i : ℕ) (h : Str) (scratch : List Bool) : Prop where
  leadingWildcards : S ≠ [] → lookupLeading (onlyPattern (star :: S) i).leadingWildcards h =
    viaTable (star :: S) i h scratch
  trailingWildcards : P ≠ [] → lookupTrailing (onlyPattern (P ++ [star]) i).trailingWildcards h =
    viaTable (P ++ [star]) i h scratch
  doubleStarLeading : S ≠ [] →
    lookupDoubleStarLeading (onlyPattern (doubleStar :: S) i).doubleStarLeading (labels h) =
      viaTable (doubleStar :: S) i h scratch
  doubleStarTrailing : P ≠ [] →
    lookupDoubleStarTrailing (onlyPattern (P ++ [doubleStar]) i).doubleStarTrailing (labels h) =
      viaTable (P ++ [doubleStar]) i h scratch
  matchesSingleInternalWildcard : matchesSingleInternalWildcard P S (labels h) =
    (dpHostMatches (P ++ star :: S) (labels h) scratch).1
  simpleInternalWildcards : P ≠ [] → S ≠ [] →
    lookupSimpleInternal (onlyPattern (P ++ star :: S) i).simpleInternalWildcards (labels h) =
      viaTable (P ++ star :: S) i h scratch
  matchesInternalDoubleStar : matchesInternalDoubleStar P S (labels h) =
    (dpHostMatches (P ++ doubleStar :: S) (labels h) scratch).1
  internalDoubleStarWildcards : P ≠ [] → S ≠ [] →
    lookupInternalDoubleStar (onlyPattern (P ++ doubleStar :: S) i).internalDoubleStarWildcards
      (labels h) = viaTable (P ++ doubleStar :: S) i h scratch
  multiStarTrie : (LabelTrie.new.insert T i).lookup (labels h) = viaTable T i h scratch

/-- **The fast matchers agree with the table**, for every host, all star-free labels around a
wildcard, and all labels without `**` in the trie. -/
theorem fast_matchers_agree {P S T : List Str} (hP : StarFree P) (hS : StarFree S)
    (hT : doubleStar ∉ T) (i : ℕ) (h : Str) (scratch : List Bool) :
    FastMatchersAgree P S T i h scratch where
  leadingWildcards := lookupLeading_eq i h scratch hS
  trailingWildcards := lookupTrailing_eq i h scratch hP
  doubleStarLeading := lookupDoubleStarLeading_eq i h scratch hS
  doubleStarTrailing := lookupDoubleStarTrailing_eq i h scratch hP
  matchesSingleInternalWildcard := matchesSingleInternalWildcard_eq h scratch hP hS
  simpleInternalWildcards := lookupSimpleInternal_eq i h scratch hP hS
  matchesInternalDoubleStar := matchesInternalDoubleStar_eq h scratch hP hS
  internalDoubleStarWildcards := lookupInternalDoubleStar_eq i h scratch hP hS
  multiStarTrie := lookupTrie_eq i h scratch hT

/-- An empty label, and a host that is shorter than the pattern. -/
theorem fast_matchers_agree_empty_label :
    FastMatchersAgree ["a".toList, []] ["b".toList] [star, "a".toList, star] 0 "a..b".toList
      [true] :=
  fast_matchers_agree (by decide) (by decide) (by decide) 0 "a..b".toList [true]

end Scety
