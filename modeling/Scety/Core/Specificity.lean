import Scety.Core.Routing

/-!
# When the more specific pattern wins

`matches` asks the stores in a fixed order, so a broader pattern wins whenever its store comes
first, and inside the two scanned lists with `**` whenever it was registered first.  In all other
cases the narrower of two patterns covering a host comes first: within a store of fixed-length
patterns no inclusion is strict, the `**` maps are searched by descending length and the trie
prefers literals.
-/

namespace Scety

open Glob

/-- The hosts a pattern covers. -/
def hostsOf (p : Str) : Set Str := {h | PatternCovers p h}

/-- The lists with `**` that are scanned in registration order. -/
def PatternClass.Scanned : PatternClass → Prop
  | .internalDoubleStarWildcards _ _ => True
  | .complexPatterns _ => True
  | _ => False

instance (c : PatternClass) : Decidable c.Scanned :=
  match c with
  | .internalDoubleStarWildcards _ _ => .isTrue trivial
  | .complexPatterns _ => .isTrue trivial
  | .catchAll | .exactMatches _ | .leadingWildcards _ | .trailingWildcards _
  | .doubleStarLeading _ _ | .doubleStarTrailing _ _ | .simpleInternalWildcards _ _
  | .multiStarTrie _ => .isFalse id

/-- Being scanned is a property of the store. -/
theorem PatternClass.Scanned.congr {c d : PatternClass} (h : c.store = d.store) (hc : c.Scanned) :
    d.Scanned := by
  cases c <;> cases d <;> simp_all [PatternClass.store, PatternClass.Scanned]

/-! ### Inclusion, label by label -/

/-- Inclusion of the hosts is inclusion of the label lists. -/
theorem covers_of_hostsOf_subset {p q : Str} (hp : classify p ≠ .catchAll)
    (hq : classify q ≠ .catchAll) (hsub : hostsOf p ⊆ hostsOf q) {ls : List Str} (h0 : ls ≠ [])
    (hdot : ∀ l ∈ ls, '.' ∉ l) (hc : Covers (tokens (labels p)) ls) :
    Covers (tokens (labels q)) ls := by
  have hmem : joinDots ls ∈ hostsOf p := by
    show PatternCovers p (joinDots ls)
    rw [patternCovers_iff (lone_of_class hp).1 (lone_of_class hp).2, labels_joinDots hdot h0]
    exact hc
  have hq' : PatternCovers q (joinDots ls) := hsub hmem
  rwa [patternCovers_iff (lone_of_class hq).1 (lone_of_class hq).2, labels_joinDots hdot h0] at hq'

theorem dot_notMem_fill {p : Str} {x : Str} (hx : '.' ∉ x) :
    ∀ l ∈ (tokens (labels p)).map (Token.fill x), '.' ∉ l := by
  intro l hl
  simp only [tokens, List.map_map, List.mem_map, Function.comp_apply] at hl
  obtain ⟨m, hm, rfl⟩ := hl
  unfold token
  split_ifs
  · exact hx
  · exact hx
  · exact dot_notMem_of_mem_labels hm

/-- Between patterns without `**`, the broader one is broader label by label. -/
theorem forall₂_of_hostsOf_subset {p q : Str} (hp : classify p ≠ .catchAll)
    (hq : classify q ≠ .catchAll) (hdp : doubleStar ∉ labels p) (hdq : doubleStar ∉ labels q)
    (hsub : hostsOf p ⊆ hostsOf q) :
    List.Forall₂ (fun a b => b = .one ∨ a = b) (tokens (labels p)) (tokens (labels q)) := by
  have hap : Token.any ∉ tokens (labels p) := any_mem_tokens_iff.not.mpr hdp
  have haq : Token.any ∉ tokens (labels q) := any_mem_tokens_iff.not.mpr hdq
  have hne : ∀ x : Str, (tokens (labels p)).map (Token.fill x) ≠ [] := by
    intro x hnil
    have := congrArg List.length hnil
    rw [List.length_map, length_tokens, List.length_nil] at this
    exact absurd this (labels_length_pos p).ne'
  have hfill : ∀ x : Str, '.' ∉ x →
      Covers (tokens (labels q)) ((tokens (labels p)).map (Token.fill x)) := fun x hx =>
    covers_of_hostsOf_subset hp hq hsub (hne x) (dot_notMem_fill hx) (covers_fill x hap)
  have hab : ([] : Str) ≠ ['a'] := by simp
  exact forall₂_of_covers_fill hap haq hab (hfill [] (by simp)) (hfill ['a'] (by decide))

/-! ### The stores of fixed-length patterns -/

/-- The stores whose patterns all have the same number of `*` and no `**`. -/
def PatternClass.fixedStars : PatternClass → Option ℕ
  | .exactMatches _ => some 0
  | .simpleInternalWildcards _ _ => some 1
  | .leadingWildcards _ => some 1
  | .trailingWildcards _ => some 1
  | _ => none

theorem count_one_tokens (ls : List Str) : (tokens ls).count .one = ls.count star := by
  rw [← token_star]
  exact List.count_map_of_injective _ _ token_injective _

theorem fixedStars_spec {p : Str} {n : ℕ} (h : (classify p).fixedStars = some n) :
    doubleStar ∉ labels p ∧ (labels p).count star = n := by
  have hc := classOf_classify p
  cases hcp : classify p with
  | exactMatches key =>
    rw [hcp] at hc h
    obtain rfl := Option.some.inj h
    have hfree := not_mem_of_star_notMem fun _ hl => star_notMem_of_mem_labels hc.2 hl
    exact ⟨hfree.2, List.count_eq_zero.mpr hfree.1⟩
  | simpleInternalWildcards a b =>
    rw [hcp] at hc h
    obtain rfl := Option.some.inj h
    obtain ⟨hls, -, -, hs, hd⟩ := hc
    rw [List.mem_append, not_or] at hs hd
    rw [hls]
    refine ⟨by simp [hd, star_ne_doubleStar.symm], ?_⟩
    rw [List.count_append, List.count_cons_self, List.count_eq_zero.mpr hs.1,
      List.count_eq_zero.mpr hs.2]
  | leadingWildcards d =>
    rw [hcp] at hc h
    obtain rfl := Option.some.inj h
    obtain ⟨rfl, hd⟩ := hc
    have hfree := not_mem_of_star_notMem fun _ hl => star_notMem_of_mem_labels hd hl
    have hls : labels ('*' :: '.' :: d) = star :: labels d :=
      Split.splitOn_cons_of_notMem (a := star) (by decide) d
    rw [hls, List.count_cons_self, List.count_eq_zero.mpr hfree.1]
    exact ⟨by simp [hfree.2, star_ne_doubleStar.symm], rfl⟩
  | trailingWildcards d =>
    rw [hcp] at hc h
    obtain rfl := Option.some.inj h
    obtain ⟨rfl, hd⟩ := hc
    have hfree := not_mem_of_star_notMem fun _ hl => star_notMem_of_mem_labels hd hl
    have hls : labels (d ++ ['.', '*']) = labels d ++ [star] :=
      Split.splitOn_concat_of_notMem (b := star) (by decide) d
    rw [hls, List.count_append, List.count_eq_zero.mpr hfree.1]
    exact ⟨by simp [hfree.2, star_ne_doubleStar.symm], rfl⟩
  | _ => rw [hcp] at h; exact absurd h (by simp [PatternClass.fixedStars])

theorem fixedStars_ne_catchAll {c : PatternClass} {n : ℕ} (h : c.fixedStars = some n) :
    c ≠ .catchAll := by
  rintro rfl
  exact absurd h (by simp [PatternClass.fixedStars])

/-- In such a store no pattern is strictly narrower than another. -/
theorem not_ssubset_of_fixedStars {p q : Str} {n : ℕ} (hp : (classify p).fixedStars = some n)
    (hq : (classify q).fixedStars = some n) : ¬ hostsOf p ⊂ hostsOf q := by
  intro hss
  obtain ⟨hdp, hcp⟩ := fixedStars_spec hp
  obtain ⟨hdq, hcq⟩ := fixedStars_spec hq
  have h2 := forall₂_of_hostsOf_subset (fixedStars_ne_catchAll hp) (fixedStars_ne_catchAll hq) hdp
    hdq hss.subset
  have heq := eq_of_forall₂_of_count h2 (by rw [count_one_tokens, count_one_tokens, hcp, hcq])
  have hpq : p = q := labels_injective (tokens_injective heq)
  exact absurd hss (hpq ▸ ssubset_irrefl _)

theorem not_ssubset_of_catchAll {p q : Str} (hp : classify p = .catchAll) :
    ¬ hostsOf p ⊂ hostsOf q := by
  have hc := classOf_classify p
  rw [hp] at hc
  intro hss
  obtain ⟨h, -, hno⟩ := Set.exists_of_ssubset hss
  exact hno (hc.elim Or.inl fun hd => Or.inr (Or.inl hd))

/-! ### The stores searched by key -/

theorem eq_of_index {calls : List (Str × ℕ)} (hidx : (calls.map Prod.snd).Nodup) {e e' : Str × ℕ}
    (he : e ∈ calls) (he' : e' ∈ calls) (h : e.2 = e'.2) : e = e' :=
  List.inj_on_of_nodup_map hidx he he' h

theorem counts_pairwise (h : Str) : (counts h).Pairwise (· > ·) :=
  List.pairwise_reverse.mpr List.pairwise_lt_range

section Keys

variable {calls : List (Str × ℕ)} (hidx : (calls.map Prod.snd).Nodup) {p q : Str} {i j : ℕ}
  (hp : (p, i) ∈ calls) (hq : (q, j) ∈ calls)
include hidx hp hq

/-- If the search ends with the index of `q`, the key of `q` comes before every key of `p`. -/
theorem key_first {κ : Type} {R : κ → κ → Prop} {L : List κ} (hL : L.Pairwise R)
    {P : κ → PatternClass → Bool} {g : κ → Option ℕ}
    (hsome : ∀ a i, g a = some i → ∃ e ∈ calls, e.2 = i ∧ P a (classify e.1) = true)
    (hnone : ∀ a, g a = none → ∀ e ∈ calls, ¬ P a (classify e.1) = true)
    (hg : L.findSome? g = some j) {a : κ} (ha : a ∈ L) (hpa : P a (classify p) = true) :
    ∃ b, P b (classify q) = true ∧ (a = b ∨ R b a) := by
  obtain ⟨b, -, hb, hbest⟩ := Priority.exists_first hL hg
  obtain ⟨e, he, hej, hpb⟩ := hsome b j hb
  obtain rfl := eq_of_index hidx he hq hej
  have hne : g a ≠ none := fun h => hnone a h _ hp hpa
  exact ⟨b, hpb, hbest a ha hne⟩

theorem doubleStarLeading_first {n m : ℕ} {k l h : Str} (hcp : classify p = .doubleStarLeading n k)
    (hcq : classify q = .doubleStarLeading m l) (hhit : (classify p).Hits h)
    (hans : (answers calls h)[1]? = some (some j)) : n ≤ m := by
  rw [hcp] at hhit
  obtain ⟨hn, hk⟩ := hhit
  obtain ⟨b, hb, hnb⟩ := key_first hidx hp hq (counts_pairwise h)
    (P := fun n c => c = .doubleStarLeading n (lastJoined h n)) (fun _ _ => exists_of_lastWith)
    (fun _ => lastWith_eq_none_iff.mp) (Option.some.inj hans) (mem_counts_iff.mpr hn)
    (by rw [hcp, ← hk]; exact decide_eq_true rfl)
  rw [hcq, decide_eq_true_eq] at hb
  obtain ⟨rfl, -⟩ := PatternClass.doubleStarLeading.inj hb
  exact hnb.elim le_of_eq le_of_lt

theorem doubleStarTrailing_first {n m : ℕ} {k l h : Str}
    (hcp : classify p = .doubleStarTrailing n k) (hcq : classify q = .doubleStarTrailing m l)
    (hhit : (classify p).Hits h) (hans : (answers calls h)[2]? = some (some j)) : n ≤ m := by
  rw [hcp] at hhit
  obtain ⟨hn, hk⟩ := hhit
  obtain ⟨b, hb, hnb⟩ := key_first hidx hp hq (counts_pairwise h)
    (P := fun n c => c = .doubleStarTrailing n (firstJoined h n)) (fun _ _ => exists_of_lastWith)
    (fun _ => lastWith_eq_none_iff.mp) (Option.some.inj hans) (mem_counts_iff.mpr hn)
    (by rw [hcp, ← hk]; exact decide_eq_true rfl)
  rw [hcq, decide_eq_true_eq] at hb
  obtain ⟨rfl, -⟩ := PatternClass.doubleStarTrailing.inj hb
  exact hnb.elim le_of_eq le_of_lt

theorem multiStarTrie_first {ls ms : List Str} {h : Str} (hcp : classify p = .multiStarTrie ls)
    (hcq : classify q = .multiStarTrie ms) (hhit : (classify p).Hits h)
    (hans : (answers calls h)[5]? = some (some j)) :
    trieTokens ls = trieTokens ms ∨ LiteralFirst (trieTokens ms) (trieTokens ls) := by
  rw [hcp] at hhit
  have hpath : trieTokens ls ∈ hostPaths (labels h) :=
    mem_hostPaths_iff.mpr ⟨any_notMem_trieTokens ls, hhit⟩
  obtain ⟨b, hb, hfirst⟩ := key_first hidx hp hq (hostPaths_pairwise (labels h))
    (P := trieClass) (fun _ _ => exists_of_firstWith) (fun _ => firstWith_eq_none_iff.mp)
    (Option.some.inj hans) hpath (by rw [hcp]; exact decide_eq_true rfl)
  rw [hcq] at hb
  obtain rfl : b = trieTokens ms := of_decide_eq_true hb
  exact hfirst

/-- In a scanned list the first registration that is found wins. -/
theorem scanned_first {P : PatternClass → Bool} (hpp : P (classify p) = true)
    (horder : List.Sublist [(p, i), (q, j)] calls) : firstWith P calls ≠ some j := by
  intro hf
  obtain ⟨e, he, hej⟩ := Option.map_eq_some_iff.mp hf
  obtain rfl := eq_of_index hidx (List.mem_of_find?_eq_some he) hq hej
  obtain ⟨-, as, bs, rfl, has⟩ := List.find?_eq_some_iff_append.mp he
  have hpas : (p, i) ∉ as := by
    intro hm
    have hno : (!P (classify p)) = true := has _ hm
    rw [hpp] at hno
    exact absurd hno (by simp)
  have hqas : (q, j) ∉ as := by
    intro hm
    rw [List.map_append, List.nodup_append] at hidx
    exact hidx.2.2 j (List.mem_map_of_mem hm) j (by simp) rfl
  -- so `p` comes at `q` or later, and then `q` comes a second time
  have hrest : List.Sublist [(p, i), (q, j)] ((q, j) :: bs) := by
    obtain ⟨u, v, huv, hu, hv⟩ := List.sublist_append_iff.mp horder
    cases u with
    | nil => exact huv ▸ hv
    | cons x u =>
      obtain ⟨rfl, -⟩ := List.cons_eq_cons.mp huv
      exact absurd (hu.subset List.mem_cons_self) hpas
  have hbs : (q, j) ∈ bs := by
    have htail := hrest.tail
    exact List.singleton_sublist.mp htail
  rw [List.map_append, List.nodup_append, List.map_cons, List.nodup_cons] at hidx
  exact hidx.2.1.1 (List.mem_map_of_mem hbs)

/-- The two lists with `**` answer with `q` only if `p` was not registered before it. -/
theorem scanned_store_first {h : Str} (hsame : (classify q).store = (classify p).store)
    (hs : (classify q).Scanned) (hhit : (classify p).Hits h)
    (horder : List.Sublist [(p, i), (q, j)] calls)
    (hans : (answers calls h)[(classify q).store]? = some (some j)) : False := by
  cases hcq : classify q with
  | internalDoubleStarWildcards a b =>
    rw [hcq] at hans hsame
    cases hcp : classify p with
    | internalDoubleStarWildcards a' b' =>
      rw [hcp] at hhit
      have hpp : internalDoubleStarHit (labels h) (classify p) = true := by rw [hcp]; exact hhit
      exact scanned_first hidx hp hq hpp horder (Option.some.inj hans)
    | _ => rw [hcp] at hsame; exact absurd hsame (by simp [PatternClass.store])
  | complexPatterns ls =>
    rw [hcq] at hans hsame
    cases hcp : classify p with
    | complexPatterns ms =>
      rw [hcp] at hhit
      have hpp : complexHit (labels h) (classify p) = true := by
        rw [hcp]
        exact (covers_iff _ _).mpr hhit
      exact scanned_first hidx hp hq hpp horder (Option.some.inj hans)
    | _ => rw [hcp] at hsame; exact absurd hsame (by simp [PatternClass.store])
  | _ => rw [hcq] at hs; exact hs

end Keys

/-! ### Inclusion within the stores searched by key -/

/-- A broader pattern `**.ms` has fewer known labels than `**.ls`, and the same number only if it
is the same pattern. -/
theorem doubleStarLeading_narrower {p q : Str} {n m : ℕ} {k l : Str}
    (hcp : classify p = .doubleStarLeading n k) (hcq : classify q = .doubleStarLeading m l)
    (hss : hostsOf p ⊂ hostsOf q) : m < n := by
  have hp : ClassOf p (.doubleStarLeading n k) := hcp ▸ classOf_classify p
  have hq : ClassOf q (.doubleStarLeading m l) := hcq ▸ classOf_classify q
  obtain ⟨ls, hls, h0, hfree, rfl, -⟩ := hp
  obtain ⟨ms, hms, -, hfreeq, rfl, -⟩ := hq
  have hdot : ∀ l ∈ ls, '.' ∉ l := fun l hl =>
    dot_notMem_of_labels_eq hls (List.mem_cons_of_mem _ hl)
  have hself : Covers (tokens (labels p)) ls := by
    rw [hls, tokens_cons, token_doubleStar]
    exact .anyNil (covers_tokens_self ls)
  have hcov := covers_of_hostsOf_subset (by simp [hcp]) (by simp [hcq]) hss.subset h0 hdot hself
  rw [hms, tokens_cons, token_doubleStar, tokens_of_star_notMem hfreeq,
    covers_any_literal_iff] at hcov
  refine lt_of_le_of_ne hcov.length_le ?_
  intro hlen
  have hpq : p = q := labels_injective (by rw [hls, hms, hcov.eq_of_length hlen])
  exact absurd hss (hpq ▸ ssubset_irrefl _)

theorem doubleStarTrailing_narrower {p q : Str} {n m : ℕ} {k l : Str}
    (hcp : classify p = .doubleStarTrailing n k) (hcq : classify q = .doubleStarTrailing m l)
    (hss : hostsOf p ⊂ hostsOf q) : m < n := by
  have hp : ClassOf p (.doubleStarTrailing n k) := hcp ▸ classOf_classify p
  have hq : ClassOf q (.doubleStarTrailing m l) := hcq ▸ classOf_classify q
  obtain ⟨ls, hls, h0, hfree, rfl, -⟩ := hp
  obtain ⟨ms, hms, -, hfreeq, rfl, -⟩ := hq
  have hdot : ∀ l ∈ ls, '.' ∉ l := fun l hl =>
    dot_notMem_of_labels_eq hls (List.mem_append_left _ hl)
  have hself : Covers (tokens (labels p)) ls := by
    rw [hls, tokens_append, tokens_cons, token_doubleStar, tokens_nil]
    exact covers_append_iff.mpr ⟨ls, [], by simp, covers_tokens_self ls, covers_singleton_any⟩
  have hcov := covers_of_hostsOf_subset (by simp [hcp]) (by simp [hcq]) hss.subset h0 hdot hself
  rw [hms, tokens_append, tokens_cons, token_doubleStar, tokens_nil, tokens_of_star_notMem hfreeq,
    covers_literal_any_iff] at hcov
  refine lt_of_le_of_ne hcov.length_le ?_
  intro hlen
  have hpq : p = q := labels_injective (by rw [hls, hms, hcov.eq_of_length hlen])
  exact absurd hss (hpq ▸ ssubset_irrefl _)

/-- A broader pattern of the trie has a star where the narrower one still has a literal. -/
theorem multiStarTrie_narrower {p q : Str} {ls ms : List Str}
    (hcp : classify p = .multiStarTrie ls) (hcq : classify q = .multiStarTrie ms)
    (hss : hostsOf p ⊂ hostsOf q) : LiteralFirst (trieTokens ls) (trieTokens ms) := by
  have hp : ClassOf p (.multiStarTrie ls) := hcp ▸ classOf_classify p
  have hq : ClassOf q (.multiStarTrie ms) := hcq ▸ classOf_classify q
  obtain ⟨rfl, hdp, -⟩ := hp
  obtain ⟨rfl, hdq, -⟩ := hq
  rw [trieTokens_eq_tokens hdp, trieTokens_eq_tokens hdq]
  have h2 := forall₂_of_hostsOf_subset (by simp [hcp]) (by simp [hcq]) hdp hdq hss.subset
  refine (eq_or_literalFirst (any_mem_tokens_iff.not.mpr hdp) h2).resolve_left ?_
  intro heq
  have hpq : p = q := labels_injective (tokens_injective heq)
  exact absurd hss (hpq ▸ ssubset_irrefl _)

/-! ### The order in which the router asks -/

/-- The router asks for the registration `e` before `e'`: its store comes first, or both are in one
scanned list with `**` and `e` was registered first. -/
def AskedBefore (calls : List (Str × ℕ)) (e e' : Str × ℕ) : Prop :=
  (classify e.1).store < (classify e'.1).store ∨
    (classify e.1).store = (classify e'.1).store ∧ (classify e.1).Scanned ∧
      List.Sublist [e, e'] calls

instance (calls : List (Str × ℕ)) (e e' : Str × ℕ) : Decidable (AskedBefore calls e e') := by
  unfold AskedBefore
  infer_instance

/-- Two classes of one store. -/
theorem same_store_cases {c d : PatternClass} (h : c.store = d.store) :
    (∃ n, c.fixedStars = some n ∧ d.fixedStars = some n) ∨ c = .catchAll ∨
      (∃ n k m l, c = .doubleStarLeading n k ∧ d = .doubleStarLeading m l) ∨
      (∃ n k m l, c = .doubleStarTrailing n k ∧ d = .doubleStarTrailing m l) ∨
      (∃ ls ms, c = .multiStarTrie ls ∧ d = .multiStarTrie ms) ∨ d.Scanned := by
  cases c <;> cases d <;> simp_all [PatternClass.store, PatternClass.fixedStars,
    PatternClass.Scanned]

theorem pair_sublist_or {α : Type} {l : List α} {a b : α} (ha : a ∈ l) (hb : b ∈ l) (hab : a ≠ b) :
    List.Sublist [a, b] l ∨ List.Sublist [b, a] l := by
  obtain ⟨as, bs, rfl⟩ := List.append_of_mem ha
  rcases List.mem_append.mp hb with hm | hm
  · right
    exact (List.singleton_sublist.mpr hm).append (List.singleton_sublist.mpr List.mem_cons_self)
  · left
    have hbs : b ∈ bs := (List.mem_cons.mp hm).resolve_left hab.symm
    exact List.sublist_append_of_sublist_right ((List.singleton_sublist.mpr hbs).cons_cons a)

/-- **The narrower pattern wins** unless the router asks for the broader one first. -/
theorem specific_wins (calls : List (Str × ℕ)) (hidx : (calls.map Prod.snd).Nodup) (p q : Str)
    (i j : ℕ) (hp : (p, i) ∈ calls) (hq : (q, j) ∈ calls) (h : Str) (hph : PatternCovers p h)
    (hss : hostsOf p ⊂ hostsOf q) (hfull : RepeatedInner p → CoversLiterally p h)
    (hasked : ¬ AskedBefore calls (q, j) (p, i)) :
    (HostRouter.ofCalls calls).matches h ≠ some j := by
  intro hm
  obtain ⟨e, he, hej, -, hans, hbefore⟩ := exists_of_matches hm
  obtain rfl := eq_of_index hidx he hq hej
  have hhit : (classify p).Hits h := (hits_iff p h).mpr ⟨hph, hfull⟩
  have hle : (classify q).store ≤ (classify p).store := hbefore (p, i) hp hhit
  have hge : ¬ (classify q).store < (classify p).store := fun hlt => hasked (Or.inl hlt)
  have hsame : (classify q).store = (classify p).store := by omega
  have hscan : (classify q).Scanned → List.Sublist [(p, i), (q, j)] calls := by
    intro hs
    have hne : (p, i) ≠ (q, j) := by
      intro heq
      obtain ⟨rfl, -⟩ := Prod.mk.inj heq
      exact absurd hss (ssubset_irrefl _)
    refine (pair_sublist_or hp hq hne).resolve_right ?_
    intro hqp
    exact hasked (Or.inr ⟨hsame, hs, hqp⟩)
  have hpq := same_store_cases hsame.symm
  obtain ⟨n, hcp, hcq⟩ | hcp | ⟨n, k, m, l, hcp, hcq⟩ | ⟨n, k, m, l, hcp, hcq⟩ | ⟨ls, ms, hcp, hcq⟩ |
    hs := hpq
  · exact not_ssubset_of_fixedStars hcp hcq hss
  · exact not_ssubset_of_catchAll hcp hss
  · dsimp only at hans
    rw [hcq] at hans
    have hfirst := doubleStarLeading_first hidx hp hq hcp hcq hhit hans
    have hnarrow := doubleStarLeading_narrower hcp hcq hss
    omega
  · dsimp only at hans
    rw [hcq] at hans
    have hfirst := doubleStarTrailing_first hidx hp hq hcp hcq hhit hans
    have hnarrow := doubleStarTrailing_narrower hcp hcq hss
    omega
  · dsimp only at hans
    rw [hcq] at hans
    have hnarrow := multiStarTrie_narrower hcp hcq hss
    rcases multiStarTrie_first hidx hp hq hcp hcq hhit hans with heq | hfirst
    · exact absurd (heq ▸ hnarrow) fun hl => hl.asymm hl
    · exact hfirst.asymm hnarrow
  · exact scanned_store_first hidx hp hq hsame hs hhit (hscan hs) hans

theorem trie_pair_ssubset : hostsOf "x.y.*.*".toList ⊂ hostsOf "x.*.*.*".toList := by
  refine Set.ssubset_iff_exists.mpr ⟨?_, "x.z.z.z".toList, ?_, ?_⟩
  · intro h hh
    have hcov := (patternCovers_iff (by decide) (by decide)).mp hh
    refine (patternCovers_iff (by decide) (by decide)).mpr ?_
    obtain ⟨s, hs, htail⟩ := covers_lit_iff.mp hcov
    obtain ⟨t, rfl, hstars⟩ := covers_lit_iff.mp htail
    rw [hs]
    exact .lit (.one hstars)
  · show PatternCovers _ _
    decide
  · show ¬ PatternCovers _ _
    decide

theorem specific_wins_trie : (HostRouter.ofCalls
    [("x.*.*.*".toList, 0), ("x.y.*.*".toList, 1)]).matches "x.y.z.w".toList ≠ some 0 :=
  specific_wins [("x.*.*.*".toList, 0), ("x.y.*.*".toList, 1)] (by decide) "x.y.*.*".toList
    "x.*.*.*".toList 1 0 (by decide) (by decide) "x.y.z.w".toList (by decide) trie_pair_ssubset
    (fun hr => absurd hr (by decide)) (by decide)

/-- **The broader pattern wins** over a narrower one when it is asked first and nothing else is
registered. -/
theorem broader_wins {calls : List (Str × ℕ)} {p q : Str} {i j : ℕ} {h : Str}
    (hcalls : calls.Perm [(p, i), (q, j)]) (hij : i ≠ j) (hqh : PatternCovers q h)
    (hfull : RepeatedInner q → CoversLiterally q h) (hasked : AskedBefore calls (q, j) (p, i)) :
    (HostRouter.ofCalls calls).matches h = some j := by
  have hp : (p, i) ∈ calls := hcalls.mem_iff.mpr (by simp)
  have hq : (q, j) ∈ calls := hcalls.mem_iff.mpr (by simp)
  have hhit : (classify q).Hits h := (hits_iff q h).mpr ⟨hqh, hfull⟩
  have hidx : (calls.map Prod.snd).Nodup := by
    rw [(hcalls.map Prod.snd).nodup_iff]
    simpa using hij
  cases hm : (HostRouter.ofCalls calls).matches h with
  | none => exact absurd hhit (matches_eq_none_iff.mp hm _ hq)
  | some w =>
    obtain ⟨e, he, rfl, -, hans, hbefore⟩ := exists_of_matches hm
    have hpq : e = (p, i) ∨ e = (q, j) := by simpa using hcalls.mem_iff.mp he
    obtain rfl | rfl := hpq
    · have hle : (classify p).store ≤ (classify q).store := hbefore _ hq hhit
      obtain hlt | ⟨hsame, hs, horder⟩ := hasked
      · dsimp only at hlt
        omega
      · exact absurd hans fun hans =>
          scanned_store_first hidx hq hp hsame.symm (hs.congr hsame) hhit horder hans
    · rfl

theorem leading_pair_ssubset : hostsOf "*.example.com".toList ⊂ hostsOf "**.example.com".toList := by
  refine Set.ssubset_iff_exists.mpr ⟨?_, "example.com".toList, ?_, ?_⟩
  · intro h hh
    have hcov := (patternCovers_iff (by decide) (by decide)).mp hh
    refine (patternCovers_iff (by decide) (by decide)).mpr ?_
    obtain ⟨x, t, hs, htail⟩ := covers_one_iff.mp hcov
    rw [hs]
    exact .anyCons (.anyNil htail)
  · show PatternCovers _ _
    decide
  · show ¬ PatternCovers _ _
    decide

/-- `**.example.com` takes `api.example.com` away from `*.example.com`. -/
theorem specific_loses : ¬ ∀ (calls : List (Str × ℕ)) (p q : Str) (i j : ℕ) (h : Str),
    (calls.map Prod.fst).Nodup → (calls.map Prod.snd).Nodup → (p, i) ∈ calls → (q, j) ∈ calls →
      PatternCovers p h → PatternCovers q h → hostsOf p ⊂ hostsOf q →
        (HostRouter.ofCalls calls).matches h ≠ some j := by
  intro hall
  have hno := hall [("**.example.com".toList, 0), ("*.example.com".toList, 1)]
    "*.example.com".toList "**.example.com".toList 1 0 "api.example.com".toList (by decide)
    (by decide) (by decide) (by decide) (by decide) (by decide) leading_pair_ssubset
  exact hno (by decide)

end Scety
