import Scety.Core.Deciding
import Scety.Core.LetterCase
import Scety.Core.SearchRouter

/-!
# Letter case in the lookup of hosts

A pattern keeps its class when its case changes, but a literal label is only found as it is written.
So two spellings of a host, or of the patterns, lead to the same service exactly if the pattern that
decides for one of them is found for the other, too, or if the service has both patterns
(`host_case_iff`).
-/

namespace Scety

open Cache Glob

/-! ### The class of a pattern in another case -/

theorem isAlpha_star : ∀ c ∈ star, c.isAlpha = false :=
  List.forall_mem_singleton.mpr (by decide)

theorem isAlpha_doubleStar : ∀ c ∈ doubleStar, c.isAlpha = false :=
  List.forall_mem_cons.mpr ⟨by decide, isAlpha_star⟩

def PatternClass.lowercase : PatternClass → PatternClass
  | .catchAll => .catchAll
  | .exactMatches key => .exactMatches (Scety.lowercase key)
  | .leadingWildcards d => .leadingWildcards (Scety.lowercase d)
  | .trailingWildcards d => .trailingWildcards (Scety.lowercase d)
  | .doubleStarLeading n known => .doubleStarLeading n (Scety.lowercase known)
  | .doubleStarTrailing n known => .doubleStarTrailing n (Scety.lowercase known)
  | .simpleInternalWildcards a b =>
    .simpleInternalWildcards (a.map Scety.lowercase) (b.map Scety.lowercase)
  | .internalDoubleStarWildcards a b =>
    .internalDoubleStarWildcards (a.map Scety.lowercase) (b.map Scety.lowercase)
  | .multiStarTrie ls => .multiStarTrie (ls.map Scety.lowercase)
  | .complexPatterns ls => .complexPatterns (ls.map Scety.lowercase)

section Labels

variable {ls : List Str} {w : Str}

/-- `w` is a label without letters. -/
theorem mem_map_lowercase_iff (hw : ∀ c ∈ w, c.isAlpha = false) :
    w ∈ ls.map lowercase ↔ w ∈ ls := by
  rw [List.mem_map]
  simp only [lowercase_eq_iff hw, exists_eq_right]

theorem count_map_lowercase (hw : ∀ c ∈ w, c.isAlpha = false) :
    (ls.map lowercase).count w = ls.count w := by
  unfold List.count
  rw [List.countP_map]
  refine List.countP_congr fun l _ => ?_
  simp only [Function.comp_apply, beq_iff_eq, lowercase_eq_iff hw]

theorem splitInner_lowercase (hw : ∀ c ∈ w, c.isAlpha = false) :
    splitInner (ls.map lowercase) w =
      (splitInner ls w).map fun p => (p.1.map lowercase, p.2.map lowercase) := by
  have hindex : (ls.map lowercase).idxOf? w = ls.idxOf? w := by
    unfold List.idxOf?
    rw [List.findIdx?_map]
    refine congrArg (fun p => List.findIdx? p ls) (funext fun l => ?_)
    exact Bool.eq_iff_iff.mpr (by simp [lowercase_eq_iff hw])
  unfold splitInner
  rw [hindex, List.length_map]
  cases ls.idxOf? w with
  | none => rfl
  | some pos =>
    dsimp only
    split_ifs
    · rw [Option.map_some, List.map_take, List.map_drop]
    · rfl

end Labels

/-! ### The decisions of `add_pattern` -/

section Decisions

variable {p : Str}

theorem count_lowercase (p : Str) : (lowercase p).count '*' = p.count '*' := by
  unfold lowercase List.count
  rw [List.countP_map]
  refine List.countP_congr fun c _ => ?_
  have hstar : c.toLower = '*' ↔ c = '*' := toLower_eq_iff (by decide)
  simp only [Function.comp_apply, beq_iff_eq, hstar]

theorem length_lowercase (p : Str) : (lowercase p).length = p.length := List.length_map _

theorem take_lowercase (p : Str) (n : ℕ) : (lowercase p).take n = lowercase (p.take n) :=
  List.map_take.symm

theorem drop_lowercase (p : Str) (n : ℕ) : (lowercase p).drop n = lowercase (p.drop n) :=
  List.map_drop.symm

theorem prefix_lowercase_iff {w : Str} (hw : ∀ c ∈ w, c.isAlpha = false) :
    w <+: lowercase p ↔ w <+: p := by
  rw [List.prefix_iff_eq_take, List.prefix_iff_eq_take, eq_comm, @eq_comm _ w, take_lowercase]
  exact lowercase_eq_iff hw

theorem suffix_lowercase_iff {w : Str} (hw : ∀ c ∈ w, c.isAlpha = false) :
    w <:+ lowercase p ↔ w <:+ p := by
  rw [List.suffix_iff_eq_drop, List.suffix_iff_eq_drop, eq_comm, @eq_comm _ w, drop_lowercase,
    length_lowercase]
  exact lowercase_eq_iff hw

theorem forall_star_notMem_iff {ls : List Str} :
    (∀ l ∈ ls.map lowercase, '*' ∉ l) ↔ ∀ l ∈ ls, '*' ∉ l := by
  rw [List.forall_mem_map]
  exact forall₂_congr fun l _ => not_congr (mem_lowercase_iff (by decide))

theorem option_map_lowercase_iff {o : Option Str} {w : Str} (hw : ∀ c ∈ w, c.isAlpha = false) :
    o.map lowercase = some w ↔ o = some w := by
  cases o with
  | none => exact Iff.rfl
  | some l =>
    rw [Option.map_some, Option.some_inj, Option.some_inj]
    exact lowercase_eq_iff hw

end Decisions

/-- A pattern in lower case has the class in lower case. -/
theorem classify_lowercase (p : Str) : classify (lowercase p) = (classify p).lowercase := by
  have hstar := isAlpha_star
  have hdouble := isAlpha_doubleStar
  have hfront : ∀ c ∈ ['*', '.'], c.isAlpha = false := List.forall_mem_cons.mpr
    ⟨by decide, List.forall_mem_singleton.mpr (by decide)⟩
  have hback : ∀ c ∈ ['.', '*'], c.isAlpha = false := List.forall_mem_cons.mpr
    ⟨by decide, isAlpha_star⟩
  unfold classify
  simp only [lowercase_eq_iff hstar, lowercase_eq_iff hdouble, count_lowercase, labels_lowercase,
    prefix_lowercase_iff hfront, suffix_lowercase_iff hback, take_lowercase, drop_lowercase,
    length_lowercase, mem_map_lowercase_iff hstar, mem_map_lowercase_iff hdouble,
    count_map_lowercase hstar, splitInner_lowercase hstar, splitInner_lowercase hdouble,
    List.head?_map, List.getLast?_map, option_map_lowercase_iff hdouble, ← List.map_tail,
    ← List.map_dropLast, forall_star_notMem_iff, ← lowercase_joinDots, List.length_map]
  -- the tests are those of `p` now, so both sides take the same branch
  iterate 7
    rw [apply_ite PatternClass.lowercase]
    refine if_congr Iff.rfl rfl ?_
  split_ifs
  all_goals cases splitInner (labels p) star <;> cases splitInner (labels p) doubleStar <;> rfl

theorem PatternClass.rank_lowercase (c : PatternClass) : c.lowercase.rank = c.rank := by
  cases c with
  | multiStarTrie ls =>
    have hbare : ∀ l : Str, bareToken (trieToken (Scety.lowercase l)) = bareToken (trieToken l) := by
      intro l
      unfold trieToken
      rw [apply_ite bareToken, apply_ite bareToken]
      exact if_congr (lowercase_eq_iff isAlpha_star) rfl rfl
    have hpath : ((ls.map Scety.lowercase).map trieToken).map bareToken =
        (ls.map trieToken).map bareToken := by
      rw [List.map_map, List.map_map, List.map_map]
      exact List.map_congr_left fun l _ => hbare l
    exact congrArg (fun path => (5, 0, path)) hpath
  | _ => rfl

theorem rank_congr {p p' : Str} (h : SameUpToCase p p') :
    (classify p).rank = (classify p').rank := by
  have hlower : lowercase p = lowercase p' := h
  rw [← PatternClass.rank_lowercase (classify p), ← classify_lowercase, hlower, classify_lowercase,
    PatternClass.rank_lowercase]

/-! ### Services with patterns in another case -/

/-- The patterns of the two services are equal up to case. -/
structure SamePatterns (c c' : ClientConfig) : Prop where
  host : Option.Rel SameUpToCase c.host c'.host
  hosts : Option.Rel (List.Forall₂ SameUpToCase) c.hosts c'.hosts

namespace SearchRouter

variable {configs configs' : List ClientConfig}

/-- The same place and the same pattern up to case. -/
def SameCall (e e' : Str × ℕ) : Prop := SameUpToCase e.1 e'.1 ∧ e.2 = e'.2

theorem forall₂_callsOf {c c' : ClientConfig} (h : SamePatterns c c') (n : ℕ) :
    List.Forall₂ SameCall (callsOf (c, n)) (callsOf (c', n)) := by
  have hpatterns : List.Forall₂ SameUpToCase (c.host.toList ++ c.hosts.getD [])
      (c'.host.toList ++ c'.hosts.getD []) := by
    obtain ⟨hhost, hhosts⟩ := h
    generalize c.host = host, c'.host = host', c.hosts = hosts, c'.hosts = hosts' at hhost hhosts ⊢
    refine List.rel_append ?_ ?_
    · cases hhost with
      | some hp => exact .cons hp .nil
      | none => exact .nil
    · cases hhosts with
      | some hps => exact hps
      | none => exact .nil
  refine List.forall₂_map_left_iff.mpr (List.forall₂_map_right_iff.mpr (hpatterns.imp ?_))
  exact fun p p' hp => ⟨hp, rfl⟩

theorem forall₂_registrations (h : List.Forall₂ SamePatterns configs configs') :
    List.Forall₂ SameCall (registrations configs) (registrations configs') := by
  have hfrom : ∀ n, List.Forall₂ SameCall ((configs.zipIdx n).flatMap callsOf)
      ((configs'.zipIdx n).flatMap callsOf) := by
    induction h with
    | nil => exact fun n => .nil
    | cons hc _ ih => exact fun n => List.rel_append (forall₂_callsOf hc n) (ih (n + 1))
  exact hfrom 0

theorem getElem?_registrations (h : List.Forall₂ SamePatterns configs configs') {k : ℕ}
    {e e' : Str × ℕ} (he : (registrations configs)[k]? = some e)
    (he' : (registrations configs')[k]? = some e') : SameCall e e' := by
  have hall := forall₂_registrations h
  obtain ⟨hk, rfl⟩ := List.getElem?_eq_some_iff.mp he
  obtain ⟨hk', rfl⟩ := List.getElem?_eq_some_iff.mp he'
  exact hall.get hk hk'

/-! ### The service of the registration that decides -/

/-- The service that the registration at `k` is for. -/
def serviceAt (configs : List ClientConfig) (k : ℕ) : Option ClientConfig :=
  (registrations configs)[k]?.bind fun e => configs[e.2]?

/-- The two results are the services at one place of the two lists, or both are nothing. -/
def SamePlace (configs configs' : List ClientConfig) (o o' : Option ClientConfig) : Prop :=
  ∃ place : Option ℕ, o = place.bind (fun i => configs[i]?) ∧ o' = place.bind fun i => configs'[i]?

section Deciding

variable {h : Str} {k : ℕ}

/-- `find` in a router for `configs`, in any state of its cache. -/
theorem find_new (lru : LruCache Str (Option ℕ)) (configs : List ClientConfig) (capacity : ℕ+)
    (seen : List Str) (h : Str) :
    ((((new lru configs).withCacheCapacity capacity).afterFinds seen).find h).1 =
      ((HostRouter.ofCalls (registrations configs)).matches h).bind fun i => configs[i]? := by
  rw [find_afterFinds (cacheCorrect_withCacheCapacity _ _), ← router_new lru]
  rfl

theorem serviceAt_ne_none (hk : Decides (registrations configs) h k) :
    serviceAt configs k ≠ none := by
  obtain ⟨c, ⟨hclass, -⟩, -⟩ := hk
  obtain ⟨e, he, -⟩ := Option.map_eq_some_iff.mp hclass
  have hlt := lt_of_mem_registrations (List.mem_of_getElem? he)
  unfold serviceAt
  rw [he]
  exact mt List.getElem?_eq_none_iff.mp (not_le.mpr hlt)

theorem matches_of_decides (hk : Decides (registrations configs) h k) :
    ((HostRouter.ofCalls (registrations configs)).matches h).bind (fun i => configs[i]?) =
      serviceAt configs k := by
  cases hm : (HostRouter.ofCalls (registrations configs)).matches h with
  | none =>
    obtain ⟨c, ⟨hclass, hhits⟩, -⟩ := hk
    obtain ⟨e, he, rfl⟩ := Option.map_eq_some_iff.mp hclass
    exact absurd hhits (matches_eq_none_iff.mp hm e (List.mem_of_getElem? he))
  | some i =>
    obtain ⟨l, e, he, rfl, hl⟩ := decides_of_matches hm
    obtain rfl := hk.unique hl
    unfold serviceAt
    rw [he]
    rfl

theorem matches_of_not_decides (hno : ∀ k, ¬ Decides (registrations configs) h k) :
    ((HostRouter.ofCalls (registrations configs)).matches h).bind (fun i => configs[i]?) = none := by
  cases hm : (HostRouter.ofCalls (registrations configs)).matches h with
  | none => rfl
  | some i =>
    obtain ⟨l, -, -, -, hl⟩ := decides_of_matches hm
    exact absurd hl (hno l)

end Deciding

/-- The registration at `k` is found for the host. -/
def Found (calls : List (Str × ℕ)) (h : Str) (k : ℕ) : Prop := ∃ c, FoundAt calls h k c

/-- The registration that decides for the one host is found for the other. -/
def DecidesForBoth (calls calls' : List (Str × ℕ)) (h h' : Str) : Prop :=
  (∀ k, Decides calls h k → Found calls' h' k) ∧ ∀ k, Decides calls' h' k → Found calls h k

/-- Two registrations decide, both of the same service. -/
def DecidesTwice (configs configs' : List ClientConfig) (h h' : Str) : Prop :=
  ∃ k k', k ≠ k' ∧ Decides (registrations configs) h k ∧ Decides (registrations configs') h' k' ∧
    SamePlace configs configs' (serviceAt configs k) (serviceAt configs' k')

section Lookups

variable {h h' : Str}

theorem exists_decides_of_found {calls : List (Str × ℕ)} {k : ℕ} (hk : Found calls h k) :
    ∃ l, Decides calls h l := by
  obtain ⟨c, hc⟩ := hk
  exact exists_decides hc

theorem found_of_decides {calls : List (Str × ℕ)} {k : ℕ} (hk : Decides calls h k) :
    Found calls h k := by
  obtain ⟨c, hc, -⟩ := hk
  exact ⟨c, hc⟩

/-- A registration that decides for both leads to the service at its place. -/
theorem samePlace_of_decides (hsame : List.Forall₂ SamePatterns configs configs') {k : ℕ}
    (hk : Decides (registrations configs) h k) (hk' : Decides (registrations configs') h' k) :
    SamePlace configs configs' (serviceAt configs k) (serviceAt configs' k) := by
  obtain ⟨c, ⟨hclass, -⟩, -⟩ := hk
  obtain ⟨c', ⟨hclass', -⟩, -⟩ := hk'
  obtain ⟨e, he, -⟩ := Option.map_eq_some_iff.mp hclass
  obtain ⟨e', he', -⟩ := Option.map_eq_some_iff.mp hclass'
  have hplace : e.2 = e'.2 := (getElem?_registrations hsame he he').2
  refine ⟨some e.2, ?_, ?_⟩
  · unfold serviceAt
    rw [he]
    rfl
  · unfold serviceAt
    rw [he', hplace]
    rfl

theorem rank_of_samePatterns (hsame : List.Forall₂ SamePatterns configs configs') {k : ℕ}
    {c c' : PatternClass} (hc : classAt (registrations configs) k = some c)
    (hc' : classAt (registrations configs') k = some c') : c.rank = c'.rank := by
  obtain ⟨e, he, rfl⟩ := Option.map_eq_some_iff.mp hc
  obtain ⟨e', he', rfl⟩ := Option.map_eq_some_iff.mp hc'
  exact rank_congr (getElem?_registrations hsame he he').1

/-- Two results at one place are both nothing or both something. -/
theorem SamePlace.eq_none_iff (hsame : List.Forall₂ SamePatterns configs configs')
    {o o' : Option ClientConfig} (h : SamePlace configs configs' o o') : o = none ↔ o' = none := by
  obtain ⟨place, rfl, rfl⟩ := h
  cases place with
  | none => exact Iff.rfl
  | some i =>
    show configs[i]? = none ↔ configs'[i]? = none
    rw [List.getElem?_eq_none_iff, List.getElem?_eq_none_iff, hsame.length_eq]

/-- Where both hosts are decided. -/
theorem samePlace_iff_of_decides (hsame : List.Forall₂ SamePatterns configs configs') {k k' : ℕ}
    (hk : Decides (registrations configs) h k) (hk' : Decides (registrations configs') h' k') :
    SamePlace configs configs' (serviceAt configs k) (serviceAt configs' k') ↔
      DecidesForBoth (registrations configs) (registrations configs') h h' ∨
        DecidesTwice configs configs' h h' := by
  constructor
  · intro hplace
    by_cases heq : k = k'
    · subst heq
      refine Or.inl ⟨fun l hl => ?_, fun l hl => ?_⟩
      · exact hk.unique hl ▸ found_of_decides hk'
      · exact hk'.unique hl ▸ found_of_decides hk
    · exact Or.inr ⟨k, k', heq, hk, hk', hplace⟩
  · rintro (⟨hfound, hfound'⟩ | ⟨l, l', -, hl, hl', hplace⟩)
    · obtain rfl := eq_of_decides (fun _ _ _ => rank_of_samePatterns hsame) hk hk' (hfound k hk)
        (hfound' k' hk')
      exact samePlace_of_decides hsame hk hk'
    · rwa [hk.unique hl, hk'.unique hl']

/-- Where one host is decided and the other is not. -/
theorem not_decidesForBoth {calls calls' : List (Str × ℕ)} {k : ℕ} (hk : Decides calls h k)
    (hno : ∀ k', ¬ Decides calls' h' k') (hfound : ∀ k, Decides calls h k → Found calls' h' k) :
    False := by
  obtain ⟨l, hl⟩ := exists_decides_of_found (hfound k hk)
  exact hno l hl

end Lookups

/-- **Letter case.**  For two spellings of the patterns and two hosts, `find` gives the services at
one place, whatever the two caches hold, exactly if the pattern that decides for one of the hosts is
found for the other, or if two patterns of the same service decide. -/
theorem host_case_iff (lru : LruCache Str (Option ℕ)) {configs configs' : List ClientConfig}
    (hsame : List.Forall₂ SamePatterns configs configs') (h h' : Str) :
    (∀ (capacity capacity' : ℕ+) (seen seen' : List Str), SamePlace configs configs'
      ((((new lru configs).withCacheCapacity capacity).afterFinds seen).find h).1
      ((((new lru configs').withCacheCapacity capacity').afterFinds seen').find h').1) ↔
    DecidesForBoth (registrations configs) (registrations configs') h h' ∨
      DecidesTwice configs configs' h h' := by
  simp only [find_new, forall_const]
  by_cases hk : ∃ k, Decides (registrations configs) h k
  · obtain ⟨k, hk⟩ := hk
    rw [matches_of_decides hk]
    by_cases hk' : ∃ k', Decides (registrations configs') h' k'
    · obtain ⟨k', hk'⟩ := hk'
      rw [matches_of_decides hk']
      exact samePlace_iff_of_decides hsame hk hk'
    · rw [not_exists] at hk'
      rw [matches_of_not_decides hk']
      refine iff_of_false (fun hplace => ?_) ?_
      · exact serviceAt_ne_none hk ((hplace.eq_none_iff hsame).mpr rfl)
      · rintro (⟨hfound, -⟩ | ⟨l, l', -, -, hl', -⟩)
        · exact not_decidesForBoth hk hk' hfound
        · exact hk' l' hl'
  · rw [not_exists] at hk
    rw [matches_of_not_decides hk]
    by_cases hk' : ∃ k', Decides (registrations configs') h' k'
    · obtain ⟨k', hk'⟩ := hk'
      rw [matches_of_decides hk']
      refine iff_of_false (fun hplace => ?_) ?_
      · exact serviceAt_ne_none hk' ((hplace.eq_none_iff hsame).mp rfl)
      · rintro (⟨-, hfound⟩ | ⟨l, l', -, hl, -, -⟩)
        · exact not_decidesForBoth hk' hk hfound
        · exact hk l hl
    · rw [not_exists] at hk'
      rw [matches_of_not_decides hk']
      refine iff_of_true ⟨none, rfl, rfl⟩ (Or.inl ⟨fun k h => ?_, fun k h => ?_⟩)
      · exact absurd h (hk k)
      · exact absurd h (hk' k)

/-- `*.com` has no letter that `A.com` writes in another case than `a.com`. -/
theorem host_case_iff_wildcard :
    SamePlace [plainService "*.com".toList] [plainService "*.com".toList]
      ((((new (recencyList Str (Option ℕ)) [plainService "*.com".toList]).withCacheCapacity 1).afterFinds
        ["A.com".toList]).find "a.com".toList).1
      ((((new (recencyList Str (Option ℕ)) [plainService "*.com".toList]).withCacheCapacity 2).afterFinds
        []).find "A.com".toList).1 := by
  have hfound : ∀ h x, Split.splitOnce '.' h = some (x, "com".toList) → ∀ h' k,
      Decides (registrations [plainService "*.com".toList]) h' k →
        Found (registrations [plainService "*.com".toList]) h k := by
    rintro h x hx h' k ⟨c, ⟨hc, -⟩, -⟩
    cases k with
    | zero => exact ⟨_, rfl, x, hx⟩
    | succ k => exact absurd hc (by simp [classAt, registrations, callsOf, plainService])
  exact (host_case_iff (recencyList Str (Option ℕ)) (.cons ⟨.some (.refl _), .none⟩ .nil) "a.com".toList
    "A.com".toList).mpr (Or.inl ⟨hfound _ "A".toList (by decide) _, hfound _ "a".toList (by decide) _⟩)
      1 2 ["A.com".toList] []

/-- A service for `a.com` is not found for `A.com`. -/
theorem host_case_fails : ¬ ∀ (configs : List ClientConfig) (h h' : Str), SameUpToCase h h' →
    ∀ (capacity : ℕ+) (seen seen' : List Str),
      ((((new (recencyList Str (Option ℕ)) configs).withCacheCapacity capacity).afterFinds
        seen).find h).1 =
      ((((new (recencyList Str (Option ℕ)) configs).withCacheCapacity capacity).afterFinds
        seen').find h').1 := by
  intro hall
  have hsame := hall [plainService "a.com".toList] "a.com".toList "A.com".toList (by decide) 128 [] []
  have hfound : (HostRouter.ofCalls (registrations [plainService "a.com".toList])).matches
      "a.com".toList = some 0 := by decide
  have hnot : (HostRouter.ofCalls (registrations [plainService "a.com".toList])).matches
      "A.com".toList = none := by decide
  rw [find_new, find_new, hfound, hnot] at hsame
  exact absurd hsame (by simp)

end SearchRouter

end Scety
