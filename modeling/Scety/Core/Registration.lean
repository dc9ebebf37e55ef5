import Scety.Core.Routing

/-!
# What one more registration changes

A registration touches the keys of its own kind only, so hosts it does not cover are routed as
before (`add_pattern_frame`).  Where the keys are those of a map, the registration replaces the
index of an earlier one of the same pattern (`first_registration_iff`).  Without the scanned lists
every key has at most one registration, so that the order of registration does not matter
(`order_irrelevant`).
-/

namespace Scety

/-! ### The frame of `add_pattern` -/

theorem addPattern_ofCalls (calls : List (Str × ℕ)) (p : Str) (i : ℕ) :
    (HostRouter.ofCalls calls).addPattern p i = HostRouter.ofCalls (calls ++ [(p, i)]) :=
  (HostRouter.ofCalls_concat calls (p, i)).symm

/-- A host that the pattern does not cover is routed as before. -/
theorem matches_concat_of_not_covers {calls : List (Str × ℕ)} {p h : Str}
    (hp : ¬ PatternCovers p h) (i : ℕ) : (HostRouter.ofCalls (calls ++ [(p, i)])).matches h =
      (HostRouter.ofCalls calls).matches h := by
  rw [matches_eq_findSome?, matches_eq_findSome?]
  refine Priority.findSome?_congr fun s hs => Key.index_concat_of_not ?_
  intro hkind
  exact hp ((hits_iff p h).mp (kind_iff.mp ⟨s, hs, hkind⟩)).1

/-- **Frame**: one more registration changes an answer only to its own index, and only for hosts
that its pattern covers. -/
theorem add_pattern_frame (calls : List (Str × ℕ)) (p : Str) (i : ℕ) (h : Str) :
    let r := HostRouter.ofCalls calls
    ((r.addPattern p i).matches h = r.matches h ∨ (r.addPattern p i).matches h = some i) ∧
      (¬ PatternCovers p h → (r.addPattern p i).matches h = r.matches h) := by
  intro r
  rw [addPattern_ofCalls]
  refine ⟨?_, fun hp => matches_concat_of_not_covers hp i⟩
  rw [matches_eq_findSome?, matches_eq_findSome?]
  exact Priority.findSome?_update fun s _ => Key.index_concat (p, i)

theorem add_pattern_frame_other_host :
    ((HostRouter.ofCalls [("*.a.com".toList, 0)]).addPattern "**.b.com".toList 1).matches
        "x.a.com".toList =
      (HostRouter.ofCalls [("*.a.com".toList, 0)]).matches "x.a.com".toList :=
  (add_pattern_frame [("*.a.com".toList, 0)] "**.b.com".toList 1 "x.a.com".toList).2 (by decide)

/-! ### Patterns and their classes -/

/-- Patterns of one class are equal, but for the two catch-alls. -/
theorem eq_of_classify_eq {p q : Str} (h : classify p = classify q)
    (hc : classify p ≠ .catchAll) : p = q := by
  have hp := classOf_classify p
  have hq := classOf_classify q
  rw [← h] at hq
  apply labels_injective
  cases hcp : classify p with
  | catchAll => exact absurd hcp hc
  | exactMatches key =>
    rw [hcp] at hp hq
    rw [← hp.1, ← hq.1]
  | leadingWildcards d =>
    rw [hcp] at hp hq
    rw [hp.1, hq.1]
  | trailingWildcards d =>
    rw [hcp] at hp hq
    rw [hp.1, hq.1]
  | doubleStarLeading n known =>
    rw [hcp] at hp hq
    obtain ⟨ls, hls, h0, -, -, hk⟩ := hp
    obtain ⟨ms, hms, h0', -, -, hk'⟩ := hq
    have heq := (joinDots_inj (fun l hl => dot_notMem_of_labels_eq hls (List.mem_cons_of_mem _ hl))
      (fun l hl => dot_notMem_of_labels_eq hms (List.mem_cons_of_mem _ hl)) h0 h0').mp
      (hk.symm.trans hk')
    rw [hls, hms, heq]
  | doubleStarTrailing n known =>
    rw [hcp] at hp hq
    obtain ⟨ls, hls, h0, -, -, hk⟩ := hp
    obtain ⟨ms, hms, h0', -, -, hk'⟩ := hq
    have heq := (joinDots_inj (fun l hl => dot_notMem_of_labels_eq hls (List.mem_append_left _ hl))
      (fun l hl => dot_notMem_of_labels_eq hms (List.mem_append_left _ hl)) h0 h0').mp
      (hk.symm.trans hk')
    rw [hls, hms, heq]
  | simpleInternalWildcards a b =>
    rw [hcp] at hp hq
    rw [hp.1, hq.1]
  | internalDoubleStarWildcards a b =>
    rw [hcp] at hp hq
    rw [hp.1, hq.1]
  | multiStarTrie ls =>
    rw [hcp] at hp hq
    rw [hp.1, hq.1]
  | complexPatterns ls =>
    rw [hcp] at hp hq
    rw [hp.1, hq.1]

/-- The classes stored in a map, where a later registration of a pattern replaces the earlier. -/
def PatternClass.isMapped : PatternClass → Bool
  | .exactMatches _ | .leadingWildcards _ | .trailingWildcards _ => true
  | .doubleStarLeading _ _ | .doubleStarTrailing _ _ => true
  | _ => false

/-- The classes stored in a list that is scanned in the order of registration. -/
def PatternClass.isListed : PatternClass → Bool
  | .simpleInternalWildcards _ _ | .internalDoubleStarWildcards _ _ | .complexPatterns _ => true
  | _ => false

/-- The key of a class stored in a map is for this class alone and keeps the last registration; the
other keys keep the first. -/
theorem key_cases {h : Str} {s : Key} (hs : s ∈ searchKeys h) {c : PatternClass}
    (hc : s.kind c = true) : (c.isMapped = true ∧ s = .last fun c' => c' = c) ∨
      (c.isMapped = false ∧ ∃ kind, s = .first kind) := by
  have hlast : ∀ d, s = (.last fun c' => c' = d) → s = .last fun c' => c' = c := by
    rintro d rfl
    rw [of_decide_eq_true hc]
  obtain ⟨k, -, hk⟩ := List.mem_flatMap.mp hs
  obtain ⟨rfl, -⟩ := kind_iff_of_store.mp ⟨s, hk, hc⟩
  cases c with
  | exactMatches key => exact Or.inl ⟨rfl, hlast _ (List.mem_singleton.mp hk)⟩
  | doubleStarLeading n known =>
    obtain ⟨m, -, hkey⟩ := List.mem_map.mp hk
    exact Or.inl ⟨rfl, hlast _ hkey.symm⟩
  | doubleStarTrailing n known =>
    obtain ⟨m, -, hkey⟩ := List.mem_map.mp hk
    exact Or.inl ⟨rfl, hlast _ hkey.symm⟩
  | leadingWildcards d =>
    obtain ⟨p, -, hkey⟩ := List.mem_map.mp hk
    exact Or.inl ⟨rfl, hlast _ hkey.symm⟩
  | trailingWildcards d =>
    obtain ⟨p, -, hkey⟩ := List.mem_map.mp hk
    exact Or.inl ⟨rfl, hlast _ hkey.symm⟩
  | multiStarTrie ls =>
    obtain ⟨path, -, hkey⟩ := List.mem_map.mp hk
    exact Or.inr ⟨rfl, _, hkey.symm⟩
  | simpleInternalWildcards a b => exact Or.inr ⟨rfl, _, List.mem_singleton.mp hk⟩
  | internalDoubleStarWildcards a b => exact Or.inr ⟨rfl, _, List.mem_singleton.mp hk⟩
  | complexPatterns ls => exact Or.inr ⟨rfl, _, List.mem_singleton.mp hk⟩
  | catchAll => exact Or.inr ⟨rfl, _, List.mem_singleton.mp hk⟩

/-- Outside the scanned lists a key is for one class. -/
theorem eq_of_kind {h : Str} {s : Key} (hs : s ∈ searchKeys h) {c c' : PatternClass}
    (hc : s.kind c = true) (hc' : s.kind c' = true) (hl : c.isListed = false) : c = c' := by
  rcases key_cases hs hc with ⟨-, rfl⟩ | ⟨hm, -⟩
  · exact (of_decide_eq_true hc').symm
  obtain ⟨k, -, hk⟩ := List.mem_flatMap.mp hs
  obtain ⟨rfl, -⟩ := kind_iff_of_store.mp ⟨s, hk, hc⟩
  cases c with
  | multiStarTrie ls =>
    obtain ⟨path, -, rfl⟩ := List.mem_map.mp hk
    cases c' with
    | multiStarTrie ms =>
      have heq := (of_decide_eq_true hc).symm.trans (of_decide_eq_true hc')
      rw [List.map_injective_iff.mpr trieToken_injective heq]
    | _ => exact absurd hc' Bool.false_ne_true
  | catchAll =>
    obtain rfl := List.mem_singleton.mp hk
    exact (of_decide_eq_true hc').symm
  | simpleInternalWildcards a b => exact absurd hl.symm Bool.false_ne_true
  | internalDoubleStarWildcards a b => exact absurd hl.symm Bool.false_ne_true
  | complexPatterns ls => exact absurd hl.symm Bool.false_ne_true
  | _ => exact absurd hm.symm Bool.false_ne_true

/-! ### The order of registration -/

/-- A key with at most one registration does not depend on the order of the calls. -/
theorem Key.index_perm {s : Key} {calls calls' : List (Str × ℕ)} (hperm : calls.Perm calls')
    (hone : ∀ e ∈ calls, ∀ e' ∈ calls, s.kind (classify e.1) = true →
      s.kind (classify e'.1) = true → e = e') : s.index calls = s.index calls' := by
  have hindex : ∀ {calls : List (Str × ℕ)} {e : Str × ℕ}, e ∈ calls →
      s.kind (classify e.1) = true →
      (∀ e' ∈ calls, s.kind (classify e'.1) = true → e' = e) → s.index calls = some e.2 := by
    intro calls e he hkind honly
    cases hs : s.index calls with
    | none => exact absurd hkind (index_eq_none_iff.mp hs e he)
    | some i =>
      obtain ⟨e', he', rfl, hkind'⟩ := exists_of_index hs
      rw [honly e' he' hkind']
  cases hs : s.index calls with
  | none =>
    refine (index_eq_none_iff.mpr ?_).symm
    intro e he
    exact index_eq_none_iff.mp hs e (hperm.mem_iff.mpr he)
  | some i =>
    obtain ⟨e, he, rfl, hkind⟩ := exists_of_index hs
    refine (hindex (hperm.mem_iff.mp he) hkind ?_).symm
    intro e' he' hkind'
    exact hone e' (hperm.mem_iff.mpr he') e he hkind' hkind

/-- **The order of registration is irrelevant** for distinct patterns outside the scanned lists,
with at most one of the catch-alls. -/
theorem order_irrelevant {calls calls' : List (Str × ℕ)} (hperm : calls.Perm calls')
    (hnd : (calls.map Prod.fst).Nodup)
    (hcatch : ¬ (star ∈ calls.map Prod.fst ∧ doubleStar ∈ calls.map Prod.fst))
    (hlist : ∀ e ∈ calls, (classify e.1).isListed = false) (h : Str) :
    (HostRouter.ofCalls calls).matches h = (HostRouter.ofCalls calls').matches h := by
  rw [matches_eq_findSome?, matches_eq_findSome?]
  refine Priority.findSome?_congr fun s hs => Key.index_perm hperm ?_
  intro e he e' he' hkind hkind'
  have hclass : classify e.1 = classify e'.1 := eq_of_kind hs hkind hkind' (hlist e he)
  refine List.inj_on_of_nodup_map hnd he he' ?_
  by_cases hc : classify e.1 = .catchAll
  · have hlone := classOf_classify e.1
    have hlone' := classOf_classify e'.1
    rw [hc] at hlone
    rw [← hclass, hc] at hlone'
    have hmem := List.mem_map_of_mem (f := Prod.fst) he
    have hmem' := List.mem_map_of_mem (f := Prod.fst) he'
    rcases hlone with hp | hp <;> rcases hlone' with hp' | hp'
    · rw [hp, hp']
    · exact absurd ⟨hp ▸ hmem, hp' ▸ hmem'⟩ hcatch
    · exact absurd ⟨hp' ▸ hmem', hp ▸ hmem⟩ hcatch
    · rw [hp, hp']
  · exact eq_of_classify_eq hclass hc

theorem order_irrelevant_swap :
    (HostRouter.ofCalls [("**.com".toList, 0), ("a.*.*".toList, 1)]).matches "a.b.com".toList =
      (HostRouter.ofCalls [("a.*.*".toList, 1), ("**.com".toList, 0)]).matches "a.b.com".toList :=
  order_irrelevant (.swap _ _ _) (by decide) (by decide) (by decide) "a.b.com".toList

/-! ### Registering a pattern again -/

/-- The number of labels by which an edge `**` pattern is searched. -/
def PatternClass.count : PatternClass → ℕ
  | .doubleStarLeading n _ | .doubleStarTrailing n _ => n
  | _ => 0

/-- `matches` asks for the first class before it asks for the second, which is stored in a map. -/
def PatternClass.Precedes (c d : PatternClass) : Prop :=
  c.store < d.store ∨ c.store = d.store ∧ d.count < c.count

/-- The index with which the pattern was registered last. -/
def lastIndex (calls : List (Str × ℕ)) (p : Str) : Option ℕ :=
  (calls.reverse.find? fun e => e.1 = p).map Prod.snd

theorem lastIndex_eq_lastWith {calls : List (Str × ℕ)} {p : Str} (hc : classify p ≠ .catchAll) :
    lastIndex calls p = lastWith (fun c => c = classify p) calls := by
  have hclass : ∀ e : Str × ℕ, decide (e.1 = p) = decide (classify e.1 = classify p) := by
    intro e
    refine decide_eq_decide.mpr ⟨fun h => h ▸ rfl, fun h => ?_⟩
    exact (eq_of_classify_eq h.symm hc).symm
  unfold lastIndex lastWith firstWith
  simp only [hclass]

section Split

variable {h : Str}

/-- The keys before that of `n` are those of larger counts. -/
theorem exists_split_counts {n : ℕ} (hn : n ≤ (labels h).length) (at_ : ℕ → PatternClass) :
    ∃ l₁ l₂, ((counts h).map fun n => Key.last fun c => c = at_ n) =
        l₁ ++ Key.last (fun c => c = at_ n) :: l₂ ∧
      ∀ c', (∃ s ∈ l₁, s.kind c' = true) ↔ ∃ m, m ≤ (labels h).length ∧ n < m ∧ c' = at_ m := by
  have hdesc : (counts h).Pairwise (· > ·) := List.pairwise_reverse.mpr List.pairwise_lt_range
  obtain ⟨l₁, l₂, hl, hmem⟩ := Priority.exists_split_of_descending hdesc (mem_counts_iff.mpr hn)
  refine ⟨l₁.map fun n => Key.last fun c => c = at_ n, l₂.map fun n => Key.last fun c => c = at_ n,
    by rw [hl, List.map_append, List.map_cons], ?_⟩
  intro c'
  refine ⟨?_, ?_⟩
  · rintro ⟨s, hs, hkind⟩
    obtain ⟨m, hm, rfl⟩ := List.mem_map.mp hs
    obtain ⟨hcount, hlt⟩ := (hmem m).mp hm
    exact ⟨m, mem_counts_iff.mp hcount, hlt, of_decide_eq_true hkind⟩
  · rintro ⟨m, hm, hlt, rfl⟩
    exact ⟨_, List.mem_map_of_mem ((hmem m).mpr ⟨mem_counts_iff.mpr hm, hlt⟩), decide_eq_true rfl⟩

/-- A class with a larger count that the host meets. -/
theorem exists_larger_iff {n m : ℕ} {known : Str} {joined : ℕ → Str} :
    (∃ k, k ≤ (labels h).length ∧ n < k ∧ m = k ∧ known = joined k) ↔
      (m ≤ (labels h).length ∧ known = joined m) ∧ n < m := by
  refine ⟨?_, ?_⟩
  · rintro ⟨_, hm, hlt, rfl, rfl⟩
    exact ⟨⟨hm, rfl⟩, hlt⟩
  · rintro ⟨⟨hm, rfl⟩, hlt⟩
    exact ⟨m, hm, hlt, rfl, rfl⟩

/-- The key of a class stored in a map, and what the store tries before it. -/
theorem exists_split_storeKeys {c : PatternClass} (hc : c.isMapped = true) (hh : c.Hits h) :
    ∃ l₁ l₂, storeKeys h c.store = l₁ ++ Key.last (fun c' => c' = c) :: l₂ ∧
      ∀ c', (∃ s ∈ l₁, s.kind c' = true) ↔ c'.Hits h ∧ c'.store = c.store ∧ c.count < c'.count := by
  cases c with
  | exactMatches key =>
    obtain rfl : h = key := hh
    refine ⟨[], [], rfl, ?_⟩
    intro c'
    cases c' <;> simp [PatternClass.store, PatternClass.count]
  | doubleStarLeading n known =>
    obtain ⟨hn, rfl⟩ := hh
    obtain ⟨l₁, l₂, hl, hkind⟩ :=
      exists_split_counts hn fun n => .doubleStarLeading n (lastJoined h n)
    refine ⟨l₁, l₂, hl, ?_⟩
    intro c'
    rw [hkind]
    cases c' with
    | doubleStarLeading m known =>
      simp only [PatternClass.doubleStarLeading.injEq, PatternClass.store, PatternClass.count,
        true_and]
      exact exists_larger_iff.trans (and_congr_left' (and_congr_right' eq_comm))
    | _ => simp [PatternClass.store]
  | doubleStarTrailing n known =>
    obtain ⟨hn, rfl⟩ := hh
    obtain ⟨l₁, l₂, hl, hkind⟩ :=
      exists_split_counts hn fun n => .doubleStarTrailing n (firstJoined h n)
    refine ⟨l₁, l₂, hl, ?_⟩
    intro c'
    rw [hkind]
    cases c' with
    | doubleStarTrailing m known =>
      simp only [PatternClass.doubleStarTrailing.injEq, PatternClass.store, PatternClass.count,
        true_and]
      exact exists_larger_iff.trans (and_congr_left' (and_congr_right' eq_comm))
    | _ => simp [PatternClass.store]
  | leadingWildcards d =>
    obtain ⟨x, hx⟩ := hh
    refine ⟨[], [], by simp [PatternClass.store, storeKeys, hx], ?_⟩
    intro c'
    cases c' <;> simp [PatternClass.store, PatternClass.count]
  | trailingWildcards d =>
    obtain ⟨x, hx⟩ := hh
    refine ⟨[], [], by simp [PatternClass.store, storeKeys, hx], ?_⟩
    intro c'
    cases c' <;> simp [PatternClass.store, PatternClass.count]
  | _ => exact absurd hc (by simp [PatternClass.isMapped])

/-- The key of a class stored in a map, and all that `matches` tries before it. -/
theorem exists_split_searchKeys {c : PatternClass} (hc : c.isMapped = true) (hh : c.Hits h) :
    ∃ l₁ l₂, searchKeys h = l₁ ++ Key.last (fun c' => c' = c) :: l₂ ∧
      ∀ c', (∃ s ∈ l₁, s.kind c' = true) ↔ c'.Hits h ∧ c'.Precedes c := by
  obtain ⟨l₁, l₂, hl, hkind⟩ := exists_split_storeKeys hc hh
  have hrange : List.range 10 = List.range c.store ++
      c.store :: (List.range' (c.store + 1) (10 - (c.store + 1))) := by
    have hlt := c.store_lt
    rw [List.range_eq_range', List.range_eq_range', ← List.range'_succ]
    have happend := List.range'_append_1 (s := 0) (m := c.store) (n := 10 - (c.store + 1) + 1)
    rw [Nat.zero_add] at happend
    rw [happend]
    congr 1
    omega
  refine ⟨(List.range c.store).flatMap (storeKeys h) ++ l₁, l₂ ++
    (List.range' (c.store + 1) (10 - (c.store + 1))).flatMap (storeKeys h), ?_, ?_⟩
  · unfold searchKeys
    rw [hrange, List.flatMap_append, List.flatMap_cons, hl]
    simp
  · intro c'
    have hbefore : (∃ s ∈ (List.range c.store).flatMap (storeKeys h), s.kind c' = true) ↔
        c'.Hits h ∧ c'.store < c.store := by
      simp only [List.mem_flatMap, List.mem_range]
      refine ⟨?_, ?_⟩
      · rintro ⟨s, ⟨k, hk, hs⟩, hs'⟩
        obtain ⟨rfl, hh'⟩ := kind_iff_of_store.mp ⟨s, hs, hs'⟩
        exact ⟨hh', hk⟩
      · rintro ⟨hh', hlt⟩
        obtain ⟨s, hs, hs'⟩ := kind_iff_of_store.mpr ⟨rfl, hh'⟩
        exact ⟨s, ⟨_, hlt, hs⟩, hs'⟩
    unfold PatternClass.Precedes
    rw [and_or_left, ← hbefore, ← hkind]
    simp only [List.mem_append, or_and_right, exists_or]

end Split

/-- A pattern stored in a map is found for every host it covers. -/
theorem hits_iff_of_isMapped {p h : Str} (hc : (classify p).isMapped = true) :
    (classify p).Hits h ↔ PatternCovers p h := by
  rw [hits_iff]
  refine ⟨fun hh => hh.1, fun hh => ⟨hh, fun hr => ?_⟩⟩
  have hlone : p ≠ star ∧ p ≠ doubleStar := by
    refine lone_of_class ?_
    intro hcatch
    rw [hcatch] at hc
    exact absurd hc (by simp [PatternClass.isMapped])
  obtain ⟨a, b, hab⟩ := class_of_repeatedInner hlone.1 hlone.2 (classOf_classify p) hr
  rw [hab] at hc
  exact absurd hc (by simp [PatternClass.isMapped])

/-- The keys of the other classes keep their first registration. -/
theorem exists_first_of_kind {h : Str} {s : Key} (hs : s ∈ searchKeys h) {c : PatternClass}
    (hkind : s.kind c = true) (hc : c.isMapped = false) : ∃ kind, s = .first kind := by
  rcases key_cases hs hkind with ⟨hm, -⟩ | ⟨-, hfirst⟩
  · exact absurd (hc.symm.trans hm) Bool.false_ne_true
  · exact hfirst

/-- A key that keeps its first registration does not change when a pattern comes again. -/
theorem Key.index_concat_of_mem {kind : PatternClass → Bool} {calls : List (Str × ℕ)} {p : Str}
    (hp : p ∈ calls.map Prod.fst) (j : ℕ) :
    (Key.first kind).index (calls ++ [(p, j)]) = (Key.first kind).index calls := by
  by_cases hkind : kind (classify p) = true
  · show firstWith kind _ = firstWith kind calls
    rw [firstWith_concat]
    cases hf : firstWith kind calls with
    | some i => rfl
    | none =>
      obtain ⟨e, he, rfl⟩ := List.mem_map.mp hp
      exact absurd hkind (firstWith_eq_none_iff.mp hf e he)
  · exact index_concat_of_not hkind

theorem matches_concat_of_not_isMapped {calls : List (Str × ℕ)} {p : Str}
    (hp : p ∈ calls.map Prod.fst) (hc : (classify p).isMapped = false) (j : ℕ) (h : Str) :
    (HostRouter.ofCalls (calls ++ [(p, j)])).matches h = (HostRouter.ofCalls calls).matches h := by
  rw [matches_eq_findSome?, matches_eq_findSome?]
  apply Priority.findSome?_congr
  intro s hs
  by_cases hkind : s.kind (classify p) = true
  · obtain ⟨kind, rfl⟩ := exists_first_of_kind hs hkind hc
    exact Key.index_concat_of_mem hp j
  · exact Key.index_concat_of_not hkind

/-- The key of a class stored in a map has the last index of the pattern. -/
theorem index_last_eq_lastIndex {p : Str} (hc : (classify p).isMapped = true)
    (calls : List (Str × ℕ)) :
    (Key.last fun c => c = classify p).index calls = lastIndex calls p := by
  refine (lastIndex_eq_lastWith ?_).symm
  intro hcatch
  rw [hcatch] at hc
  exact absurd hc (by simp [PatternClass.isMapped])

theorem exists_index_last {calls : List (Str × ℕ)} {p : Str} (hp : p ∈ calls.map Prod.fst) :
    ∃ i, (Key.last fun c => c = classify p).index calls = some i := by
  refine Option.ne_none_iff_exists'.mp fun hnone => ?_
  obtain ⟨e, he, rfl⟩ := List.mem_map.mp hp
  exact Key.index_eq_none_iff.mp hnone e he (decide_eq_true rfl)

/-- Some of the keys answers if and only if a registration is of one of their kinds. -/
theorem findSome?_index_ne_none_iff {keys : List Key} {calls : List (Str × ℕ)} :
    (keys.findSome? fun s => s.index calls) ≠ none ↔
      ∃ e ∈ calls, ∃ s ∈ keys, s.kind (classify e.1) = true := by
  rw [Ne, List.findSome?_eq_none_iff]
  refine ⟨?_, ?_⟩
  · intro hne
    by_contra hno
    refine hne fun s hs => Key.index_eq_none_iff.mpr fun e he hkind => ?_
    exact hno ⟨e, he, s, hs, hkind⟩
  · rintro ⟨e, he, s, hs, hkind⟩ hnone
    exact Key.index_eq_none_iff.mp (hnone s hs) e he hkind

/-- **Registering a pattern again** leaves the answer for a host alone if and only if the pattern is
not stored in a map, the index is the last one registered with it, it does not cover the host, or a
pattern that is asked before it is found for the host. -/
theorem first_registration_iff (calls : List (Str × ℕ)) (p : Str) (j : ℕ) (h : Str)
    (hp : p ∈ calls.map Prod.fst) :
    ((HostRouter.ofCalls calls).addPattern p j).matches h = (HostRouter.ofCalls calls).matches h ↔
      (classify p).isMapped = false ∨ lastIndex calls p = some j ∨ ¬ PatternCovers p h ∨
        ∃ e ∈ calls, (classify e.1).Hits h ∧ (classify e.1).Precedes (classify p) := by
  rw [addPattern_ofCalls]
  cases hc : (classify p).isMapped with
  | false => exact iff_of_true (matches_concat_of_not_isMapped hp hc j h) (Or.inl rfl)
  | true =>
    rw [or_iff_right (by simp)]
    by_cases hcov : PatternCovers p h
    swap
    · exact iff_of_true (matches_concat_of_not_covers hcov j) (Or.inr (Or.inl hcov))
    rw [or_iff_right (not_not.mpr hcov)]
    obtain ⟨l₁, l₂, hl, hbefore⟩ := exists_split_searchKeys hc ((hits_iff_of_isMapped hc).mpr hcov)
    have hfront : (l₁.findSome? fun s => s.index (calls ++ [(p, j)])) =
        l₁.findSome? fun s => s.index calls := by
      apply Priority.findSome?_congr
      intro s hs
      refine Key.index_concat_of_not fun hkind => ?_
      obtain ⟨-, hlt | ⟨-, hlt⟩⟩ := (hbefore _).mp ⟨s, hs, hkind⟩ <;>
        exact absurd hlt (lt_irrefl _)
    have hkey : (Key.last fun c => c = classify p).index (calls ++ [(p, j)]) = some j := by
      show lastWith _ _ = _
      rw [lastWith_concat, if_pos (decide_eq_true rfl)]
    have hasked : (l₁.findSome? fun s => s.index calls) ≠ none ↔
        ∃ e ∈ calls, (classify e.1).Hits h ∧ (classify e.1).Precedes (classify p) := by
      rw [findSome?_index_ne_none_iff]
      exact exists_congr fun e => and_congr_right fun _ => hbefore (classify e.1)
    rw [matches_eq_findSome?, matches_eq_findSome?, hl, List.findSome?_append,
      List.findSome?_append, hfront, List.findSome?_cons, List.findSome?_cons, hkey, ← hasked]
    cases l₁.findSome? fun s => s.index calls with
    | some i => exact iff_of_true rfl (Or.inr (by simp))
    | none =>
      obtain ⟨i, hi⟩ := exists_index_last hp
      rw [or_iff_left (by simp), ← index_last_eq_lastIndex hc, hi]
      exact eq_comm

/-- A second registration of an exact host takes the host over. -/
theorem first_registration_loses : ¬ ∀ (calls : List (Str × ℕ)) (p : Str) (j : ℕ) (h : Str),
    p ∈ calls.map Prod.fst →
      ((HostRouter.ofCalls calls).addPattern p j).matches h =
        (HostRouter.ofCalls calls).matches h := by
  intro hall
  have hsame := hall [("a.com".toList, 0)] "a.com".toList 1 "a.com".toList (by decide)
  exact absurd hsame (by decide)

theorem first_registration_iff_trie :
    ((HostRouter.ofCalls [("a.*.*".toList, 0)]).addPattern "a.*.*".toList 1).matches
        "a.b.com".toList =
      (HostRouter.ofCalls [("a.*.*".toList, 0)]).matches "a.b.com".toList :=
  (first_registration_iff [("a.*.*".toList, 0)] "a.*.*".toList 1 "a.b.com".toList (by decide)).mpr
    (Or.inl (by decide))

end Scety
