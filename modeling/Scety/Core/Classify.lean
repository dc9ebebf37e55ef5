import Scety.Core.Trie
import Scety.Core.DpMatch

/-!
# What each store takes, and which hosts it finds a pattern for

`classOf_classify` says once what `add_pattern` can decide about a pattern.  `PatternClass.Hits` is
the test that the lookup of a store makes for one stored pattern, and `hits_iff` compares it with
the pattern language: they agree for every pattern except those with a second `**` behind an inner
first one and without a `*`, whose later `**` are kept as literal labels.
-/

namespace Scety

open Glob

/-! ### The matchers of the scanned lists -/

theorem zip_all_eq_iff {xs ys : List Str} (h : xs.length ≤ ys.length) :
    ((xs.zip ys).all fun p => decide (p.1 = p.2)) = true ↔ xs <+: ys := by
  induction xs generalizing ys with
  | nil => simp
  | cons x xs ih =>
    cases ys with
    | nil => simp at h
    | cons y ys =>
      have hlen : xs.length ≤ ys.length := by simpa using h
      rw [List.zip_cons_cons, List.all_cons, Bool.and_eq_true, ih hlen, List.cons_prefix_cons,
        decide_eq_true_eq]

theorem matchesSingleInternalWildcard_iff (a b hs : List Str) :
    matchesSingleInternalWildcard a b hs = true ↔ ∃ x, hs = a ++ x :: b := by
  unfold matchesSingleInternalWildcard
  by_cases hlen : a.length + 1 + b.length = hs.length
  · rw [if_neg (by simpa using hlen)]
    simp only
    rw [Bool.and_eq_true, zip_all_eq_iff (by omega),
      zip_all_eq_iff (by rw [List.length_drop]; omega)]
    refine ⟨?_, ?_⟩
    · rintro ⟨⟨t, rfl⟩, hb⟩
      cases t with
      | nil => exact absurd hlen (by simp; omega)
      | cons x t =>
        have hdrop : (a ++ x :: t).drop (a.length + 1) = t := by simp
        rw [hdrop] at hb
        have hbt : b = t := hb.eq_of_length (by simp at hlen; omega)
        exact ⟨x, by rw [hbt]⟩
    · rintro ⟨x, rfl⟩
      exact ⟨List.prefix_append _ _, by simp⟩
  · rw [if_pos hlen]
    refine ⟨fun h => absurd h (by simp), ?_⟩
    rintro ⟨x, rfl⟩
    exact absurd (by simp; omega) hlen

theorem matchesInternalDoubleStar_iff (a b hs : List Str) :
    matchesInternalDoubleStar a b hs = true ↔ ∃ mid, hs = a ++ mid ++ b := by
  unfold matchesInternalDoubleStar
  by_cases hlen : a.length + b.length > hs.length
  · rw [if_pos hlen]
    refine ⟨fun h => absurd h (by simp), ?_⟩
    rintro ⟨mid, rfl⟩
    simp at hlen
  · have hstart : ¬ a.length > hs.length - b.length := by omega
    rw [if_neg hlen]
    simp only
    rw [if_neg hstart, Bool.and_eq_true, zip_all_eq_iff (by omega),
      zip_all_eq_iff (by rw [List.length_drop]; omega)]
    refine ⟨?_, ?_⟩
    · rintro ⟨⟨t, rfl⟩, hb⟩
      have hb' : b = (a ++ t).drop ((a ++ t).length - b.length) :=
        hb.eq_of_length (by rw [List.length_drop]; omega)
      have hcut : (a ++ t).length - b.length = a.length + (t.length - b.length) := by
        simp at hlen ⊢; omega
      rw [hcut, List.drop_append] at hb'
      simp only [Nat.add_sub_cancel_left, List.drop_eq_nil_of_le (Nat.le_add_right _ _),
        List.nil_append] at hb'
      refine ⟨t.take (t.length - b.length), ?_⟩
      rw [List.append_assoc]
      congr 1
      calc t = t.take (t.length - b.length) ++ t.drop (t.length - b.length) :=
            (List.take_append_drop _ _).symm
        _ = t.take (t.length - b.length) ++ b := congrArg (t.take (t.length - b.length) ++ ·) hb'.symm
    · rintro ⟨mid, rfl⟩
      refine ⟨⟨mid ++ b, by simp⟩, ?_⟩
      have : (a ++ mid ++ b).length - b.length = (a ++ mid).length := by simp; omega
      rw [this, List.drop_left]

/-! ### What `add_pattern` decides -/

/-- The facts about a pattern that lead to a class. -/
def ClassOf (p : Str) : PatternClass → Prop
  | .catchAll => p = star ∨ p = doubleStar
  | .exactMatches key => key = p ∧ '*' ∉ p
  | .leadingWildcards d => p = '*' :: '.' :: d ∧ '*' ∉ d
  | .trailingWildcards d => p = d ++ ['.', '*'] ∧ '*' ∉ d
  | .doubleStarLeading n known => ∃ ls, labels p = doubleStar :: ls ∧ ls ≠ [] ∧
      (∀ l ∈ ls, '*' ∉ l) ∧ n = ls.length ∧ known = joinDots ls
  | .doubleStarTrailing n known => ∃ ls, labels p = ls ++ [doubleStar] ∧ ls ≠ [] ∧
      (∀ l ∈ ls, '*' ∉ l) ∧ n = ls.length ∧ known = joinDots ls
  | .simpleInternalWildcards a b => labels p = a ++ star :: b ∧ a ≠ [] ∧ b ≠ [] ∧
      star ∉ a ++ b ∧ doubleStar ∉ a ++ b
  | .internalDoubleStarWildcards a b => labels p = a ++ doubleStar :: b ∧ a ≠ [] ∧ b ≠ [] ∧
      doubleStar ∉ a ∧ star ∉ a ++ b
  | .multiStarTrie ls => labels p = ls ∧ doubleStar ∉ ls ∧ 2 ≤ ls.count star
  | .complexPatterns ls => labels p = ls ∧ p ≠ star ∧ p ≠ doubleStar ∧
      ¬ (star ∉ ls ∧ ls.head? ≠ some doubleStar ∧ 2 ≤ ls.count doubleStar)

/-- The first occurrence of a label splits a list in only one way. -/
theorem append_cons_inj_of_notMem {w : Str} {a b a' b' : List Str}
    (h : a ++ w :: b = a' ++ w :: b') (ha : w ∉ a) (ha' : w ∉ a') : a = a' ∧ b = b' := by
  induction a generalizing a' with
  | nil =>
    cases a' with
    | nil => exact ⟨rfl, (List.cons_eq_cons.mp h).2⟩
    | cons x a' =>
      obtain ⟨rfl, -⟩ := List.cons_eq_cons.mp h
      exact absurd List.mem_cons_self ha'
  | cons y a ih =>
    cases a' with
    | nil =>
      obtain ⟨rfl, -⟩ := List.cons_eq_cons.mp h
      exact absurd List.mem_cons_self ha
    | cons x a' =>
      obtain ⟨rfl, htail⟩ := List.cons_eq_cons.mp h
      obtain ⟨rfl, rfl⟩ := ih htail (fun hm => ha (List.mem_cons_of_mem _ hm))
        (fun hm => ha' (List.mem_cons_of_mem _ hm))
      exact ⟨rfl, rfl⟩

/-- The two parts of `splitInner` surround the first occurrence, away from the ends. -/
theorem splitInner_eq_some_iff {ls a b : List Str} {w : Str} :
    splitInner ls w = some (a, b) ↔ ls = a ++ w :: b ∧ w ∉ a ∧ a ≠ [] ∧ b ≠ [] := by
  unfold splitInner
  cases h : ls.idxOf? w with
  | none =>
    have hw : w ∉ ls := List.idxOf?_eq_none_iff.mp h
    refine ⟨fun h => absurd h (by simp), ?_⟩
    rintro ⟨rfl, -⟩
    exact absurd (by simp) hw
  | some pos =>
    obtain ⟨hlt, hget, hfirst⟩ := List.idxOf?_eq_some_iff.mp h
    have hls : ls = ls.take pos ++ w :: ls.drop (pos + 1) := by
      conv_lhs => rw [← List.take_append_drop pos ls, List.drop_eq_getElem_cons hlt, hget]
    have hw : w ∉ ls.take pos := by
      intro hm
      obtain ⟨j, hj, hjw⟩ := List.mem_take_iff_getElem.mp hm
      exact hfirst j (by omega) hjw
    simp only
    by_cases hin : 0 < pos ∧ pos < ls.length - 1
    · rw [if_pos hin]
      refine ⟨?_, ?_⟩
      · rintro he
        obtain ⟨rfl, rfl⟩ := Prod.mk.inj (Option.some.inj he)
        refine ⟨hls, hw, ?_, ?_⟩
        · intro h0
          have hlen := congrArg List.length h0
          rw [List.length_take, List.length_nil] at hlen
          omega
        · intro h0
          have hlen := congrArg List.length h0
          rw [List.length_drop, List.length_nil] at hlen
          omega
      · rintro ⟨he, hwa, -, -⟩
        obtain ⟨h1, h3⟩ := append_cons_inj_of_notMem (hls.symm.trans he) hw hwa
        rw [h1, h3]
    · rw [if_neg hin]
      refine ⟨fun h => absurd h (by simp), ?_⟩
      rintro ⟨he, hwa, ha, hb⟩
      obtain ⟨h1, h3⟩ := append_cons_inj_of_notMem (hls.symm.trans he) hw hwa
      exfalso
      have hla := List.length_pos_of_ne_nil ha
      have hlb := List.length_pos_of_ne_nil hb
      rw [← h1] at hla
      rw [← h3] at hlb
      simp at hla hlb
      omega

section Decisions

variable {p : Str}

/-- The lone `**` is the only pattern with the single label `**`. -/
theorem labels_ne_doubleStar (hd : p ≠ doubleStar) : labels p ≠ [doubleStar] := by
  intro h
  have hjoin := joinDots_labels p
  rw [h] at hjoin
  exact hd hjoin.symm

theorem classOf_doubleStarLeading (hd : p ≠ doubleStar)
    (hhead : (labels p).head? = some doubleStar) (htail : ∀ l ∈ (labels p).tail, '*' ∉ l) :
    ClassOf p (.doubleStarLeading ((labels p).length - 1) (joinDots (labels p).tail)) := by
  have hls : labels p = doubleStar :: (labels p).tail := List.eq_cons_of_mem_head? hhead
  refine ⟨(labels p).tail, hls, ?_, htail, by simp, rfl⟩
  intro h0
  rw [h0] at hls
  exact labels_ne_doubleStar hd hls

theorem classOf_doubleStarTrailing (hd : p ≠ doubleStar)
    (hlast : (labels p).getLast? = some doubleStar) (hinit : ∀ l ∈ (labels p).dropLast, '*' ∉ l) :
    ClassOf p (.doubleStarTrailing ((labels p).length - 1) (joinDots (labels p).dropLast)) := by
  have hls : labels p = (labels p).dropLast ++ [doubleStar] :=
    (List.dropLast_append_getLast? _ hlast).symm
  refine ⟨(labels p).dropLast, hls, ?_, hinit, by simp, rfl⟩
  intro h0
  rw [h0] at hls
  exact labels_ne_doubleStar hd hls

/-- Only `**` labels, and the first one is inside. -/
theorem classOf_internalDoubleStar {a b : List Str} (hsm : star ∉ labels p)
    (hsplit : splitInner (labels p) doubleStar = some (a, b)) :
    ClassOf p (.internalDoubleStarWildcards a b) := by
  obtain ⟨hls, hda, ha, hb⟩ := splitInner_eq_some_iff.mp hsplit
  refine ⟨hls, ha, hb, hda, fun hm => hsm ?_⟩
  rw [hls]
  rcases List.mem_append.mp hm with h | h
  · exact List.mem_append_left _ h
  · exact List.mem_append_right _ (List.mem_cons_of_mem _ h)

/-- Only `**` labels, and the first one is at an end: there is no second one behind an inner one. -/
theorem classOf_complex_of_splitInner (hs : p ≠ star) (hd : p ≠ doubleStar)
    (hdm : doubleStar ∈ labels p) (hsplit : splitInner (labels p) doubleStar = none) :
    ClassOf p (.complexPatterns (labels p)) := by
  refine ⟨rfl, hs, hd, ?_⟩
  rintro ⟨-, hhead, hmany⟩
  obtain ⟨a, b, hls, hda⟩ := List.eq_append_cons_of_mem hdm
  have ha : a ≠ [] := by
    rintro rfl
    exact hhead (by rw [hls]; rfl)
  have hb : b ≠ [] := by
    rintro rfl
    rw [hls, List.count_append, List.count_eq_zero.mpr hda] at hmany
    simp at hmany
  rw [splitInner_eq_some_iff.mpr ⟨hls, hda, ha, hb⟩] at hsplit
  exact absurd hsplit (by simp)

/-- One `*` label, which is inside. -/
theorem classOf_simpleInternal {a b : List Str} (hdm : doubleStar ∉ labels p)
    (hone : (labels p).count star = 1) (hsplit : splitInner (labels p) star = some (a, b)) :
    ClassOf p (.simpleInternalWildcards a b) := by
  obtain ⟨hls, hsa, ha, hb⟩ := splitInner_eq_some_iff.mp hsplit
  have hsb : star ∉ b := by
    rw [hls, List.count_append, List.count_eq_zero.mpr hsa, List.count_cons_self] at hone
    have hzero : b.count star = 0 := by omega
    exact List.count_eq_zero.mp hzero
  refine ⟨hls, ha, hb, ?_, fun hm => hdm ?_⟩
  · intro hm
    rcases List.mem_append.mp hm with h | h
    · exact hsa h
    · exact hsb h
  · rw [hls]
    rcases List.mem_append.mp hm with h | h
    · exact List.mem_append_left _ h
    · exact List.mem_append_right _ (List.mem_cons_of_mem _ h)

/-- Without `**` labels there is no second one. -/
theorem classOf_complex_of_notMem (hs : p ≠ star) (hd : p ≠ doubleStar)
    (hdm : doubleStar ∉ labels p) : ClassOf p (.complexPatterns (labels p)) := by
  refine ⟨rfl, hs, hd, ?_⟩
  intro h
  rw [List.count_eq_zero.mpr hdm] at h
  exact absurd h.2.2 (by simp)

end Decisions

/-- The class of a pattern comes with its facts. -/
theorem classOf_classify (p : Str) : ClassOf p (classify p) := by
  unfold classify
  by_cases hcatch : p = star ∨ p = doubleStar
  · rw [if_pos hcatch]
    exact hcatch
  rw [if_neg hcatch]
  obtain ⟨hs, hd⟩ := not_or.mp hcatch
  simp only
  by_cases hzero : p.count '*' = 0
  · rw [if_pos hzero]
    exact ⟨rfl, List.count_eq_zero.mp hzero⟩
  rw [if_neg hzero]
  by_cases hlead : p.count '*' = 1 ∧ ['*', '.'] <+: p
  · rw [if_pos hlead]
    obtain ⟨hone, d, rfl⟩ := hlead
    refine ⟨rfl, List.count_eq_zero.mp ?_⟩
    simpa using hone
  rw [if_neg hlead]
  by_cases htrail : p.count '*' = 1 ∧ ['.', '*'] <:+ p
  · rw [if_pos htrail]
    obtain ⟨hone, d, rfl⟩ := htrail
    have htake : (d ++ ['.', '*']).take ((d ++ ['.', '*']).length - 2) = d := by simp
    rw [htake]
    refine ⟨rfl, List.count_eq_zero.mp ?_⟩
    simpa using hone
  rw [if_neg htrail]
  by_cases hdl : (labels p).head? = some doubleStar ∧ ∀ l ∈ (labels p).tail, '*' ∉ l
  · rw [if_pos hdl]
    exact classOf_doubleStarLeading hd hdl.1 hdl.2
  rw [if_neg hdl]
  by_cases hdt : (labels p).getLast? = some doubleStar ∧ ∀ l ∈ (labels p).dropLast, '*' ∉ l
  · rw [if_pos hdt]
    exact classOf_doubleStarTrailing hd hdt.1 hdt.2
  rw [if_neg hdt]
  by_cases hboth : doubleStar ∈ labels p ∧ star ∈ labels p
  · rw [if_pos hboth]
    exact ⟨rfl, hs, hd, fun h => h.1 hboth.2⟩
  rw [if_neg hboth]
  by_cases hdm : doubleStar ∈ labels p
  · have hsm : star ∉ labels p := fun h => hboth ⟨hdm, h⟩
    simp only [hdm, not_true_eq_false, and_false, if_false, hsm, not_false_eq_true, and_true,
      if_true]
    cases hsplit : splitInner (labels p) doubleStar with
    | some ab => exact classOf_internalDoubleStar hsm hsplit
    | none => exact classOf_complex_of_splitInner hs hd hdm hsplit
  · simp only [hdm, not_false_eq_true, and_true, false_and, if_false]
    by_cases hone : (labels p).count star = 1
    · rw [if_pos hone]
      cases hsplit : splitInner (labels p) star with
      | some ab => exact classOf_simpleInternal hdm hone hsplit
      | none =>
        have hmany : ¬ (labels p).count star > 1 := by omega
        simp only [hmany, if_false]
        exact classOf_complex_of_notMem hs hd hdm
    · rw [if_neg hone]
      by_cases hmany : (labels p).count star > 1
      · simp only [hmany, if_true]
        exact ⟨rfl, hdm, hmany⟩
      · simp only [hmany, if_false]
        exact classOf_complex_of_notMem hs hd hdm

theorem lone_of_class {p : Str} (h : classify p ≠ .catchAll) : p ≠ star ∧ p ≠ doubleStar := by
  rw [← not_or]
  intro hlone
  exact h (if_pos hlone)

/-! ### Which hosts a stored pattern is found for -/

/-- The test a lookup makes for a pattern of this class. -/
def PatternClass.Hits : PatternClass → Str → Prop
  | .catchAll, _ => True
  | .exactMatches key, h => h = key
  | .leadingWildcards d, h => ∃ x, Split.splitOnce '.' h = some (x, d)
  | .trailingWildcards d, h => ∃ x, Split.rsplitOnce '.' h = some (d, x)
  | .doubleStarLeading n known, h => n ≤ (labels h).length ∧
      joinDots ((labels h).drop ((labels h).length - n)) = known
  | .doubleStarTrailing n known, h => n ≤ (labels h).length ∧ joinDots ((labels h).take n) = known
  | .simpleInternalWildcards a b, h => matchesSingleInternalWildcard a b (labels h) = true
  | .internalDoubleStarWildcards a b, h => matchesInternalDoubleStar a b (labels h) = true
  | .multiStarTrie ls, h => Covers (trieTokens ls) (labels h)
  | .complexPatterns ls, h => Covers (tokens ls) (labels h)

/-- A pattern whose first `**` is inner, with another `**` behind it and no `*`. -/
def RepeatedInner (p : Str) : Prop :=
  star ∉ labels p ∧ (labels p).head? ≠ some doubleStar ∧ 2 ≤ (labels p).count doubleStar

instance (p : Str) : Decidable (RepeatedInner p) := by unfold RepeatedInner; infer_instance

/-- The labels before the first `**` of `p` begin the host and the labels after it, read literally,
end the host. -/
def CoversLiterally (p h : Str) : Prop :=
  ∃ a b mid, labels p = a ++ doubleStar :: b ∧ doubleStar ∉ a ∧ labels h = a ++ mid ++ b

theorem covers_any_literal_iff {ls hs : List Str} :
    Covers (.any :: ls.map .lit) hs ↔ ls <:+ hs := by
  rw [covers_any_iff]
  refine ⟨?_, ?_⟩
  · rintro ⟨u, v, rfl, hv⟩
    rw [covers_map_lit_iff.mp hv]
    exact List.suffix_append u ls
  · rintro ⟨u, rfl⟩
    exact ⟨u, ls, rfl, covers_map_lit_iff.mpr rfl⟩

theorem covers_literal_any_iff {ls hs : List Str} :
    Covers (ls.map .lit ++ [.any]) hs ↔ ls <+: hs := by
  rw [covers_append_iff]
  refine ⟨?_, ?_⟩
  · rintro ⟨u, v, rfl, hu, -⟩
    rw [covers_map_lit_iff.mp hu]
    exact List.prefix_append ls v
  · rintro ⟨v, rfl⟩
    exact ⟨ls, v, rfl, covers_map_lit_iff.mpr rfl, covers_singleton_any⟩

/-- Comparing the joins of the last `n` labels is comparing the labels. -/
theorem drop_join_iff {h : Str} {ls : List Str} (h0 : ls ≠ []) (hdot : ∀ l ∈ ls, '.' ∉ l) :
    (ls.length ≤ (labels h).length ∧
      joinDots ((labels h).drop ((labels h).length - ls.length)) = joinDots ls) ↔
      ls <:+ labels h := by
  have hpos := List.length_pos_of_ne_nil h0
  refine ⟨fun ⟨hlen, hjoin⟩ => ?_, ?_⟩
  · have hne : (labels h).drop ((labels h).length - ls.length) ≠ [] := by
      intro he
      have := congrArg List.length he
      rw [List.length_drop, List.length_nil] at this
      omega
    rw [← (joinDots_inj (fun l hl => dot_notMem_of_mem_labels (List.mem_of_mem_drop hl)) hdot hne
      h0).mp hjoin]
    exact List.drop_suffix _ _
  · intro hsuf
    refine ⟨hsuf.length_le, ?_⟩
    obtain ⟨u, hu⟩ := hsuf
    rw [← hu]
    simp

theorem take_join_iff {h : Str} {ls : List Str} (h0 : ls ≠ []) (hdot : ∀ l ∈ ls, '.' ∉ l) :
    (ls.length ≤ (labels h).length ∧ joinDots ((labels h).take ls.length) = joinDots ls) ↔
      ls <+: labels h := by
  have hpos := List.length_pos_of_ne_nil h0
  refine ⟨fun ⟨hlen, hjoin⟩ => ?_, ?_⟩
  · have hne : (labels h).take ls.length ≠ [] := by
      intro he
      have := congrArg List.length he
      rw [List.length_take, List.length_nil] at this
      omega
    rw [← (joinDots_inj (fun l hl => dot_notMem_of_mem_labels (List.mem_of_mem_take hl)) hdot hne
      h0).mp hjoin]
    exact List.take_prefix _ _
  · intro hpre
    refine ⟨hpre.length_le, ?_⟩
    obtain ⟨u, hu⟩ := hpre
    rw [← hu]
    simp

theorem star_notMem_of_mem_labels {p l : Str} (hp : '*' ∉ p) (hl : l ∈ labels p) : '*' ∉ l :=
  fun h => hp (Split.mem_of_mem_splitOn hl h)

theorem tokens_labels_of_star_notMem {p : Str} (h : '*' ∉ p) :
    tokens (labels p) = (labels p).map .lit :=
  tokens_of_star_notMem fun _ hl => star_notMem_of_mem_labels h hl

/-- A pattern label never contains a dot. -/
theorem dot_notMem_of_labels_eq {p : Str} {ls : List Str} {l : Str} (h : labels p = ls)
    (hl : l ∈ ls) : '.' ∉ l :=
  dot_notMem_of_mem_labels (h ▸ hl)

theorem hits_internalDoubleStar_iff {p : Str} {a b : List Str}
    (hc : ClassOf p (.internalDoubleStarWildcards a b)) (h : Str) :
    (PatternClass.internalDoubleStarWildcards a b).Hits h ↔ CoversLiterally p h := by
  obtain ⟨hls, -, -, hda, -⟩ := hc
  show matchesInternalDoubleStar a b (labels h) = true ↔ _
  rw [matchesInternalDoubleStar_iff]
  refine ⟨fun ⟨mid, hmid⟩ => ⟨a, b, mid, hls, hda, hmid⟩, ?_⟩
  rintro ⟨a', b', mid, hls', hda', hmid⟩
  obtain ⟨rfl, rfl⟩ := append_cons_inj_of_notMem (hls.symm.trans hls') hda hda'
  exact ⟨mid, hmid⟩

/-- Only the store of inner `**` patterns takes a pattern with a second `**` behind an inner one. -/
theorem class_of_repeatedInner {p : Str} {c : PatternClass} (hs : p ≠ star) (hd : p ≠ doubleStar)
    (hc : ClassOf p c) (hrep : RepeatedInner p) :
    ∃ a b, c = .internalDoubleStarWildcards a b := by
  obtain ⟨hstar, hhead, hmany⟩ := hrep
  have hmem : doubleStar ∈ labels p := List.count_pos_iff.mp (by omega)
  cases c with
  | catchAll => exact absurd hc (not_or.mpr ⟨hs, hd⟩)
  | exactMatches key => exact absurd (star_notMem_of_mem_labels hc.2 hmem) (by decide)
  | leadingWildcards d =>
    obtain ⟨rfl, -⟩ := hc
    have hls : labels (star ++ '.' :: d) = star :: labels d :=
      Split.splitOn_cons_of_notMem (by decide) d
    exact absurd (hls ▸ List.mem_cons_self) hstar
  | trailingWildcards d =>
    obtain ⟨rfl, -⟩ := hc
    have hls : labels (d ++ '.' :: star) = labels d ++ [star] :=
      Split.splitOn_concat_of_notMem (by decide) d
    exact absurd (hls ▸ List.mem_append_right _ List.mem_cons_self) hstar
  | doubleStarLeading n known =>
    obtain ⟨ls, hls, -⟩ := hc
    exact absurd (by rw [hls]; rfl) hhead
  | doubleStarTrailing n known =>
    obtain ⟨ls, hls, -, hfree, -⟩ := hc
    rw [hls, List.count_append, List.count_eq_zero.mpr (not_mem_of_star_notMem hfree).2] at hmany
    simp at hmany
  | simpleInternalWildcards a b =>
    obtain ⟨hls, -⟩ := hc
    exact absurd (by rw [hls]; simp) hstar
  | internalDoubleStarWildcards a b => exact ⟨a, b, rfl⟩
  | multiStarTrie ls =>
    obtain ⟨rfl, hnd, -⟩ := hc
    exact absurd hmem hnd
  | complexPatterns ls =>
    obtain ⟨rfl, -, -, hno⟩ := hc
    exact absurd ⟨hstar, hhead, hmany⟩ hno

/-! ### The stores against the language, one by one -/

/-- `*.d` by its key. -/
theorem splitOnce_iff_covers {d : Str} (hfree : '*' ∉ d) (h : Str) :
    (∃ x, Split.splitOnce '.' h = some (x, d)) ↔
      Covers (tokens (labels ('*' :: '.' :: d))) (labels h) := by
  have hls : labels ('*' :: '.' :: d) = star :: labels d :=
    Split.splitOn_cons_of_notMem (a := star) (by decide) d
  rw [hls, tokens_cons, token_star, covers_one_iff, tokens_labels_of_star_notMem hfree]
  simp only [covers_map_lit_iff, ← Split.splitOn_eq_cons_iff]
  refine ⟨?_, ?_⟩
  · rintro ⟨x, hx⟩
    exact ⟨x, labels d, hx, rfl⟩
  · rintro ⟨x, t, hx, rfl⟩
    exact ⟨x, hx⟩

/-- `d.*` by its key. -/
theorem rsplitOnce_iff_covers {d : Str} (hfree : '*' ∉ d) (h : Str) :
    (∃ x, Split.rsplitOnce '.' h = some (d, x)) ↔
      Covers (tokens (labels (d ++ ['.', '*']))) (labels h) := by
  have hls : labels (d ++ ['.', '*']) = labels d ++ [star] :=
    Split.splitOn_concat_of_notMem (b := star) (by decide) d
  rw [hls, tokens_append, tokens_cons, token_star, tokens_nil, covers_append_iff,
    tokens_labels_of_star_notMem hfree]
  simp only [covers_map_lit_iff, covers_singleton_one_iff, ← Split.splitOn_eq_concat_iff]
  refine ⟨?_, ?_⟩
  · rintro ⟨x, hx⟩
    exact ⟨labels d, [x], hx, rfl, x, rfl⟩
  · rintro ⟨u, v, hx, rfl, x, rfl⟩
    exact ⟨x, hx⟩

theorem matchesSingleInternalWildcard_iff_covers {a b : List Str} (hs : star ∉ a ++ b)
    (hd : doubleStar ∉ a ++ b) (hs' : List Str) :
    matchesSingleInternalWildcard a b hs' = true ↔ Covers (tokens (a ++ star :: b)) hs' := by
  rw [List.mem_append, not_or] at hs hd
  rw [tokens_append, tokens_cons, token_star, tokens_of_literal hs.1 hd.1,
    tokens_of_literal hs.2 hd.2, covers_append_iff]
  simp only [matchesSingleInternalWildcard_iff, covers_map_lit_iff, covers_one_iff]
  refine ⟨?_, ?_⟩
  · rintro ⟨x, hx⟩
    exact ⟨a, x :: b, hx, rfl, x, b, rfl, rfl⟩
  · rintro ⟨u, v, hx, rfl, x, t, rfl, rfl⟩
    exact ⟨x, hx⟩

theorem matchesInternalDoubleStar_iff_covers {a b : List Str} (hs : star ∉ a ++ b)
    (hd : doubleStar ∉ a ++ b) (hs' : List Str) :
    matchesInternalDoubleStar a b hs' = true ↔ Covers (tokens (a ++ doubleStar :: b)) hs' := by
  rw [List.mem_append, not_or] at hs hd
  rw [tokens_append, tokens_cons, token_doubleStar, tokens_of_literal hs.1 hd.1,
    tokens_of_literal hs.2 hd.2, covers_append_iff]
  simp only [matchesInternalDoubleStar_iff, covers_map_lit_iff, covers_any_literal_iff]
  refine ⟨?_, ?_⟩
  · rintro ⟨mid, hmid⟩
    exact ⟨a, mid ++ b, by simp [hmid], rfl, mid, rfl⟩
  · rintro ⟨u, v, hx, rfl, mid, rfl⟩
    exact ⟨mid, by simp [hx]⟩

/-- Every other pattern is found for exactly the hosts it covers. -/
theorem hits_iff_covers {p : Str} {c : PatternClass} (hs : p ≠ star) (hd : p ≠ doubleStar)
    (hc : ClassOf p c) (hrep : ¬ RepeatedInner p) (h : Str) :
    c.Hits h ↔ Covers (tokens (labels p)) (labels h) := by
  cases c with
  | catchAll => exact absurd hc (not_or.mpr ⟨hs, hd⟩)
  | exactMatches key =>
    obtain ⟨rfl, hfree⟩ := hc
    rw [tokens_labels_of_star_notMem hfree, covers_map_lit_iff]
    exact labels_injective.eq_iff.symm
  | leadingWildcards d =>
    obtain ⟨rfl, hfree⟩ := hc
    exact splitOnce_iff_covers hfree h
  | trailingWildcards d =>
    obtain ⟨rfl, hfree⟩ := hc
    exact rsplitOnce_iff_covers hfree h
  | doubleStarLeading n known =>
    obtain ⟨ls, hls, h0, hfree, rfl, rfl⟩ := hc
    have hdot : ∀ l ∈ ls, '.' ∉ l := fun l hl =>
      dot_notMem_of_labels_eq hls (List.mem_cons_of_mem _ hl)
    rw [hls, tokens_cons, token_doubleStar, tokens_of_star_notMem hfree, covers_any_literal_iff]
    exact drop_join_iff h0 hdot
  | doubleStarTrailing n known =>
    obtain ⟨ls, hls, h0, hfree, rfl, rfl⟩ := hc
    have hdot : ∀ l ∈ ls, '.' ∉ l := fun l hl =>
      dot_notMem_of_labels_eq hls (List.mem_append_left _ hl)
    rw [hls, tokens_append, tokens_cons, token_doubleStar, tokens_nil, tokens_of_star_notMem hfree,
      covers_literal_any_iff]
    exact take_join_iff h0 hdot
  | simpleInternalWildcards a b =>
    obtain ⟨hls, -, -, hsab, hdab⟩ := hc
    rw [hls]
    exact matchesSingleInternalWildcard_iff_covers hsab hdab _
  | internalDoubleStarWildcards a b =>
    obtain ⟨hls, ha, -, hda, hsab⟩ := hc
    have hstar : star ∉ labels p := by
      rw [hls]
      rw [List.mem_append, not_or] at hsab
      simp [hsab, star_ne_doubleStar]
    have hhead : (labels p).head? ≠ some doubleStar := by
      rw [hls, List.head?_append_of_ne_nil _ ha]
      exact fun hh => hda (List.mem_of_mem_head? hh)
    -- a second `**` would make it the excluded kind
    have hdb : doubleStar ∉ b := by
      intro hm
      have hpos := List.count_pos_iff.mpr hm
      refine hrep ⟨hstar, hhead, ?_⟩
      rw [hls, List.count_append, List.count_cons_self]
      omega
    rw [hls]
    exact matchesInternalDoubleStar_iff_covers hsab (by simp [hda, hdb]) _
  | multiStarTrie ls =>
    obtain ⟨rfl, hnd, -⟩ := hc
    show Covers (trieTokens (labels p)) (labels h) ↔ _
    rw [trieTokens_eq_tokens hnd]
  | complexPatterns ls =>
    obtain ⟨rfl, -⟩ := hc
    exact Iff.rfl

/-- The later `**` read literally is a special case of what the pattern means. -/
theorem CoversLiterally.covers {p h : Str} (hc : CoversLiterally p h) :
    Covers (tokens (labels p)) (labels h) := by
  obtain ⟨a, b, mid, hls, -, hh⟩ := hc
  rw [hls, hh, List.append_assoc, tokens_append, tokens_cons, token_doubleStar]
  exact covers_append_iff.mpr ⟨a, mid ++ b, rfl, covers_tokens_self a,
    (covers_tokens_self b).any_append mid⟩

/-- What the store of a pattern finds it for, for every pattern. -/
theorem hits_iff (p h : Str) :
    (classify p).Hits h ↔ PatternCovers p h ∧ (RepeatedInner p → CoversLiterally p h) := by
  have hc := classOf_classify p
  by_cases hlone : p = star ∨ p = doubleStar
  · have hclass : classify p = .catchAll := if_pos hlone
    have hrep : ¬ RepeatedInner p := by
      rcases hlone with rfl | rfl <;> decide
    rw [hclass]
    refine ⟨fun _ => ⟨?_, fun hr => absurd hr hrep⟩, fun _ => trivial⟩
    rcases hlone with h | h
    · exact Or.inl h
    · exact Or.inr (Or.inl h)
  · obtain ⟨hs, hd⟩ := not_or.mp hlone
    rw [patternCovers_iff hs hd]
    by_cases hrep : RepeatedInner p
    · obtain ⟨a, b, hab⟩ := class_of_repeatedInner hs hd hc hrep
      rw [hab] at hc ⊢
      rw [hits_internalDoubleStar_iff hc]
      exact ⟨fun h => ⟨h.covers, fun _ => h⟩, fun h => h.2 hrep⟩
    · rw [hits_iff_covers hs hd hc hrep]
      exact ⟨fun h => ⟨h, fun hr => absurd hr hrep⟩, fun h => h.1⟩

end Scety
