import Scety.Core.Registration

/-!
# The registration that decides

Of the registrations that are found for a host, `matches` takes the index of one: by the kinds of
the patterns, and by the order of registration where the kinds do not tell (`Preferred`).  This
order is the same for all hosts (`decides_of_matches`).
-/

namespace Scety

open Glob

/-! ### The order of the classes -/

/-- A token without its label. -/
def bareToken : Token Str → Token Unit
  | .lit _ => .lit ()
  | .one => .one
  | .any => .any

/-- Where the stars stand in a pattern of the trie. -/
def PatternClass.path : PatternClass → List (Token Unit)
  | .multiStarTrie ls => (trieTokens ls).map bareToken
  | _ => []

/-- `matches` asks for patterns of the first class before it asks for those of the second, if they
are found for the same host. -/
def PatternClass.Before (c d : PatternClass) : Prop :=
  c.store < d.store ∨ c.store = d.store ∧
    (d.count < c.count ∨ d.count = c.count ∧ LiteralFirst c.path d.path)

theorem PatternClass.Before.asymm {c d : PatternClass} (h : c.Before d) : ¬ d.Before c := by
  rcases h with hstore | ⟨hstore, hcount | ⟨hcount, hpath⟩⟩
  · rintro (hstore' | ⟨hstore', -⟩) <;> omega
  · rintro (hstore' | ⟨-, hcount' | ⟨hcount', -⟩⟩) <;> omega
  · rintro (hstore' | ⟨-, hcount' | ⟨-, hpath'⟩⟩)
    · omega
    · omega
    · exact hpath.asymm hpath'

theorem PatternClass.not_before_self (c : PatternClass) : ¬ c.Before c := fun h => h.asymm h

theorem PatternClass.isMapped_congr {c d : PatternClass} (h : c.store = d.store) :
    c.isMapped = d.isMapped := by
  cases c <;> cases d <;> first | rfl | exact absurd h (by simp [PatternClass.store])

theorem PatternClass.isListed_congr {c d : PatternClass} (h : c.store = d.store) :
    c.isListed = d.isListed := by
  cases c <;> cases d <;> first | rfl | exact absurd h (by simp [PatternClass.store])

theorem PatternClass.count_path_of_isListed {c : PatternClass} (h : c.isListed = true) :
    c.count = 0 ∧ c.path = [] := by
  cases c <;> first | exact ⟨rfl, rfl⟩ | exact absurd h Bool.false_ne_true

theorem literalFirst_map_bareToken {a b : List (Token Str)} (h : LiteralFirst a b) :
    LiteralFirst (a.map bareToken) (b.map bareToken) := by
  obtain ⟨u, x, a', b', rfl, rfl⟩ := h
  exact ⟨u.map bareToken, (), a'.map bareToken, b'.map bareToken, by simp [bareToken],
    by simp [bareToken]⟩

/-! ### The order of the keys -/

section Keys

variable {h : Str}

/-- A key is asked before the other: so are all patterns of its kind. -/
def Key.Before (s s' : Key) : Prop :=
  ∀ c d, s.kind c = true → s'.kind d = true → c.Before d

theorem counts_map_pairwise {at_ : ℕ → PatternClass}
    (hat : ∀ n m, m < n → (at_ n).Before (at_ m)) :
    ((counts h).map fun n => Key.last fun c => c = at_ n).Pairwise Key.Before := by
  refine List.pairwise_map.mpr ((List.pairwise_reverse.mpr List.pairwise_lt_range).imp ?_)
  intro n m hlt c d hc hd
  rw [of_decide_eq_true hc, of_decide_eq_true hd]
  exact hat n m hlt

theorem storeKeys_pairwise (h : Str) (k : ℕ) : (storeKeys h k).Pairwise Key.Before := by
  unfold storeKeys
  match k with
  | 0 | 3 | 4 | 6 | 9 => exact List.pairwise_singleton _ _
  | 1 => exact counts_map_pairwise fun n m hlt => Or.inr ⟨rfl, Or.inl hlt⟩
  | 2 => exact counts_map_pairwise fun n m hlt => Or.inr ⟨rfl, Or.inl hlt⟩
  | 5 =>
    refine List.pairwise_map.mpr ((hostPaths_pairwise (labels h)).imp ?_)
    intro path path' hfirst c d hc hd
    cases c with
    | multiStarTrie ls =>
      cases d with
      | multiStarTrie ms =>
        obtain rfl : path = trieTokens ls := of_decide_eq_true hc
        obtain rfl : path' = trieTokens ms := of_decide_eq_true hd
        exact Or.inr ⟨rfl, Or.inr ⟨rfl, literalFirst_map_bareToken hfirst⟩⟩
      | _ => exact absurd hd (by simp [Key.kind, trieClass])
    | _ => exact absurd hc (by simp [Key.kind, trieClass])
  | 7 => cases Split.splitOnce '.' h <;> simp
  | 8 => cases Split.rsplitOnce '.' h <;> simp
  | k + 10 => exact List.Pairwise.nil

/-- The keys are asked in the order of the classes. -/
theorem searchKeys_pairwise (h : Str) : (searchKeys h).Pairwise Key.Before := by
  refine List.pairwise_flatMap.mpr ⟨fun k _ => storeKeys_pairwise h k, ?_⟩
  refine List.pairwise_lt_range.imp ?_
  intro k k' hlt s hs s' hs' c d hc hd
  obtain ⟨rfl, -⟩ := kind_iff_of_store.mp ⟨s, hs, hc⟩
  obtain ⟨rfl, -⟩ := kind_iff_of_store.mp ⟨s', hs', hd⟩
  exact Or.inl hlt

/-- The scanned lists are not ordered by class. -/
theorem not_before_of_isListed {c d : PatternClass} (hc : c.isListed = true)
    (h : c.store = d.store) : ¬ c.Before d := by
  have hnil : ∀ {l : List (Token Unit)}, ¬ LiteralFirst [] l := by
    rintro l ⟨u, x, a, b, hu, -⟩
    exact absurd hu (by simp)
  obtain ⟨hcount, hpath⟩ := PatternClass.count_path_of_isListed hc
  rw [PatternClass.isListed_congr h] at hc
  obtain ⟨hcount', -⟩ := PatternClass.count_path_of_isListed hc
  rintro (hlt | ⟨-, hlt | ⟨-, hlt⟩⟩)
  · omega
  · omega
  · exact hnil (hpath ▸ hlt)

theorem store_eq_of_kind {s : Key} (hs : s ∈ searchKeys h) {c d : PatternClass}
    (hc : s.kind c = true) (hd : s.kind d = true) : c.store = d.store := by
  obtain ⟨k, -, hk⟩ := List.mem_flatMap.mp hs
  obtain ⟨hstore, -⟩ := kind_iff_of_store.mp ⟨s, hk, hc⟩
  obtain ⟨hstore', -⟩ := kind_iff_of_store.mp ⟨s, hk, hd⟩
  exact hstore.trans hstore'.symm

/-- Within a key the classes do not tell. -/
theorem not_before_of_kind {s : Key} (hs : s ∈ searchKeys h) {c d : PatternClass}
    (hc : s.kind c = true) (hd : s.kind d = true) : ¬ c.Before d := by
  cases hl : c.isListed with
  | false =>
    obtain rfl := eq_of_kind hs hc hd hl
    exact c.not_before_self
  | true => exact not_before_of_isListed hl (store_eq_of_kind hs hc hd)

/-- A key that keeps the last registration is for a class stored in a map. -/
theorem isMapped_of_last {kind : PatternClass → Bool} (hs : Key.last kind ∈ searchKeys h)
    {c : PatternClass} (hc : kind c = true) : c.isMapped = true := by
  rcases key_cases hs hc with ⟨hm, -⟩ | ⟨-, kind', hkey⟩
  · exact hm
  · exact Key.noConfusion hkey

/-- A key that keeps the first registration is for the other classes. -/
theorem not_isMapped_of_first {kind : PatternClass → Bool} (hs : Key.first kind ∈ searchKeys h)
    {c : PatternClass} (hc : kind c = true) : c.isMapped = false := by
  rcases key_cases hs hc with ⟨-, hkey⟩ | ⟨hm, -⟩
  · exact Key.noConfusion hkey
  · exact hm

end Keys

/-! ### The places of the registrations -/

section Places

variable {calls : List (Str × ℕ)} {P : PatternClass → Bool} {i : ℕ}

/-- The class of the registration at a place. -/
def classAt (calls : List (Str × ℕ)) (k : ℕ) : Option PatternClass :=
  calls[k]?.map fun e => classify e.1

theorem exists_place_of_firstWith (h : firstWith P calls = some i) :
    ∃ k e, calls[k]? = some e ∧ e.2 = i ∧ P (classify e.1) = true ∧
      ∀ l d, classAt calls l = some d → P d = true → l ≠ k → k < l := by
  obtain ⟨e, he, rfl⟩ := Option.map_eq_some_iff.mp h
  obtain ⟨hP, k, hk, hget, hbefore⟩ := List.find?_eq_some_iff_getElem.mp he
  refine ⟨k, e, List.getElem?_eq_some_iff.mpr ⟨hk, hget⟩, rfl, hP, ?_⟩
  intro l d hl hd hne
  obtain ⟨e', he', rfl⟩ := Option.map_eq_some_iff.mp hl
  obtain ⟨hlt, rfl⟩ := List.getElem?_eq_some_iff.mp he'
  by_contra hle
  have hno := hbefore l (by omega)
  rw [hd] at hno
  exact absurd hno (by decide)

theorem exists_place_of_lastWith (h : lastWith P calls = some i) :
    ∃ k e, calls[k]? = some e ∧ e.2 = i ∧ P (classify e.1) = true ∧
      ∀ l d, classAt calls l = some d → P d = true → l ≠ k → l < k := by
  obtain ⟨k, e, hget, hi, hP, hbest⟩ := exists_place_of_firstWith h
  have hk : k < calls.length := by
    have hlt := (List.getElem?_eq_some_iff.mp hget).1
    rwa [List.length_reverse] at hlt
  rw [List.getElem?_reverse hk] at hget
  refine ⟨_, e, hget, hi, hP, ?_⟩
  intro l d hl hd hne
  have hlt : l < calls.length := by
    obtain ⟨e', he', -⟩ := Option.map_eq_some_iff.mp hl
    exact (List.getElem?_eq_some_iff.mp he').1
  have hrev : classAt calls.reverse (calls.length - 1 - l) = some d := by
    unfold classAt
    rw [List.getElem?_reverse (by omega), ← hl]
    unfold classAt
    congr 2
    omega
  have hafter := hbest _ d hrev hd (by omega)
  omega

end Places

/-! ### The registration that decides -/

/-- Of two registrations that are found for a host, at `k` and `l` and of the classes `c` and `d`,
`matches` prefers the first. -/
def Preferred (k l : ℕ) (c d : PatternClass) : Prop :=
  c.Before d ∨ ¬ d.Before c ∧ if c.isMapped then l < k else k < l

/-- The registration at `k` is of the class `c` and found for the host. -/
def FoundAt (calls : List (Str × ℕ)) (h : Str) (k : ℕ) (c : PatternClass) : Prop :=
  classAt calls k = some c ∧ c.Hits h

/-- The registration at `k` is found for the host and preferred to all others that are. -/
def Decides (calls : List (Str × ℕ)) (h : Str) (k : ℕ) : Prop :=
  ∃ c, FoundAt calls h k c ∧ ∀ l d, FoundAt calls h l d → l ≠ k → Preferred k l c d

theorem Preferred.asymm {k l : ℕ} {c d : PatternClass} (h : Preferred k l c d) :
    ¬ Preferred l k d c := by
  rcases h with hc | ⟨hd, hplace⟩
  · rintro (hd' | ⟨hc', -⟩)
    · exact hc.asymm hd'
    · exact hc' hc
  · rintro (hd' | ⟨hc', hplace'⟩)
    · exact hd hd'
    · have hstore : c.store = d.store := by
        by_contra hne
        rcases Nat.lt_or_gt_of_ne hne with hlt | hlt
        · exact hc' (Or.inl hlt)
        · exact hd (Or.inl hlt)
      rw [PatternClass.isMapped_congr hstore] at hplace
      split_ifs at hplace hplace' <;> omega

section Deciding

variable {calls : List (Str × ℕ)} {h : Str}

/-- A key holds the registration of its kind that is preferred to the others. -/
theorem exists_place_of_index {s : Key} (hs : s ∈ searchKeys h) {i : ℕ}
    (hi : s.index calls = some i) : ∃ k e, calls[k]? = some e ∧ e.2 = i ∧
      s.kind (classify e.1) = true ∧ ∀ l d, classAt calls l = some d → s.kind d = true → l ≠ k →
        Preferred k l (classify e.1) d := by
  cases s with
  | first kind =>
    obtain ⟨k, e, hk, hei, hkind, hbest⟩ := exists_place_of_firstWith hi
    refine ⟨k, e, hk, hei, hkind, fun l d hl hd hne => Or.inr ⟨not_before_of_kind hs hd hkind, ?_⟩⟩
    rw [not_isMapped_of_first hs hkind]
    exact hbest l d hl hd hne
  | last kind =>
    obtain ⟨k, e, hk, hei, hkind, hbest⟩ := exists_place_of_lastWith hi
    refine ⟨k, e, hk, hei, hkind, fun l d hl hd hne => Or.inr ⟨not_before_of_kind hs hd hkind, ?_⟩⟩
    rw [isMapped_of_last hs hkind]
    exact hbest l d hl hd hne

/-- `matches` returns the index of the registration that decides. -/
theorem decides_of_matches {i : ℕ} (hm : (HostRouter.ofCalls calls).matches h = some i) :
    ∃ k e, calls[k]? = some e ∧ e.2 = i ∧ Decides calls h k := by
  rw [matches_eq_findSome?] at hm
  obtain ⟨s, hs, hi, hfirst⟩ := Priority.exists_first (searchKeys_pairwise h) hm
  obtain ⟨k, e, hk, hei, hkind, hbest⟩ := exists_place_of_index hs hi
  have hclass : classAt calls k = some (classify e.1) := by
    unfold classAt
    rw [hk]
    rfl
  refine ⟨k, e, hk, hei, _, ⟨hclass, kind_iff.mp ⟨s, hs, hkind⟩⟩, ?_⟩
  rintro l d ⟨hl, hd⟩ hne
  obtain ⟨s', hs', hkind'⟩ := kind_iff.mpr hd
  obtain ⟨e', he', rfl⟩ := Option.map_eq_some_iff.mp hl
  have hanswers : s'.index calls ≠ none := fun hnone =>
    Key.index_eq_none_iff.mp hnone e' (List.mem_of_getElem? he') hkind'
  rcases hfirst s' hs' hanswers with rfl | hbefore
  · exact hbest l _ hl hkind' hne
  · exact Or.inl (hbefore _ _ hkind hkind')

/-- Some registration is found for the host. -/
theorem exists_decides {k : ℕ} {c : PatternClass} (hk : FoundAt calls h k c) :
    ∃ l, Decides calls h l := by
  cases hm : (HostRouter.ofCalls calls).matches h with
  | none =>
    obtain ⟨e, he, rfl⟩ := Option.map_eq_some_iff.mp hk.1
    exact absurd hk.2 (matches_eq_none_iff.mp hm e (List.mem_of_getElem? he))
  | some i =>
    obtain ⟨l, -, -, -, hl⟩ := decides_of_matches hm
    exact ⟨l, hl⟩

end Deciding

/-! ### Two runs -/

/-- What the order of the classes depends on. -/
def PatternClass.rank (c : PatternClass) : ℕ × ℕ × List (Token Unit) := (c.store, c.count, c.path)

theorem PatternClass.before_congr {c c' d d' : PatternClass} (hc : c.rank = c'.rank)
    (hd : d.rank = d'.rank) : c.Before d ↔ c'.Before d' := by
  obtain ⟨hstore, hc⟩ := Prod.mk.inj hc
  obtain ⟨hcount, hpath⟩ := Prod.mk.inj hc
  obtain ⟨hstore', hd⟩ := Prod.mk.inj hd
  obtain ⟨hcount', hpath'⟩ := Prod.mk.inj hd
  unfold Before
  rw [hstore, hcount, hpath, hstore', hcount', hpath']

theorem preferred_congr {k l : ℕ} {c c' d d' : PatternClass} (hc : c.rank = c'.rank)
    (hd : d.rank = d'.rank) : Preferred k l c d ↔ Preferred k l c' d' := by
  unfold Preferred
  rw [PatternClass.before_congr hc hd, PatternClass.before_congr hd hc,
    PatternClass.isMapped_congr (Prod.mk.inj hc).1]

/-- Where the classes at all places are of the same rank, two registrations that decide are one if
each is found in the run of the other. -/
theorem eq_of_decides {calls calls' : List (Str × ℕ)} {h h' : Str}
    (hrank : ∀ k c c', classAt calls k = some c → classAt calls' k = some c' → c.rank = c'.rank)
    {k l : ℕ} (hk : Decides calls h k) (hl : Decides calls' h' l)
    (hk' : ∃ c, FoundAt calls' h' k c) (hl' : ∃ c, FoundAt calls h l c) : k = l := by
  obtain ⟨c, hfound, hbest⟩ := hk
  obtain ⟨d', hfound', hbest'⟩ := hl
  obtain ⟨c', hc'⟩ := hk'
  obtain ⟨d, hd⟩ := hl'
  by_contra hne
  have hkl : Preferred k l c d := hbest l d hd (Ne.symm hne)
  have hlk : Preferred l k d' c' := hbest' k c' hc' hne
  rw [← preferred_congr (hrank l d d' hd.1 hfound'.1) (hrank k c c' hfound.1 hc'.1)] at hlk
  exact hkl.asymm hlk

/-- At most one registration decides. -/
theorem Decides.unique {calls : List (Str × ℕ)} {h : Str} {k l : ℕ} (hk : Decides calls h k)
    (hl : Decides calls h l) : k = l := by
  refine eq_of_decides (fun k c c' hc hc' => ?_) hk hl ⟨_, hk.choose_spec.1⟩ ⟨_, hl.choose_spec.1⟩
  rw [Option.some.inj (hc.symm.trans hc')]

end Scety
