import Scety.Core.Stores

/-!
# What `matches` asks for a host, key by key

Every store is a list of keys, tried in order, and every key holds the first or the last
registration of one kind.  So `matches` is the first answer along one list of keys
(`matches_eq_findSome?`), and a registration is found for a host exactly if it is of the kind of one
of them (`kind_iff`).
-/

namespace Scety

open Glob

/-- The position of a store in the order in which `matches` asks them. -/
def PatternClass.store : PatternClass → ℕ
  | .exactMatches _ => 0
  | .doubleStarLeading _ _ => 1
  | .doubleStarTrailing _ _ => 2
  | .simpleInternalWildcards _ _ => 3
  | .internalDoubleStarWildcards _ _ => 4
  | .multiStarTrie _ => 5
  | .complexPatterns _ => 6
  | .leadingWildcards _ => 7
  | .trailingWildcards _ => 8
  | .catchAll => 9

theorem PatternClass.store_lt (c : PatternClass) : c.store < 10 := by
  cases c <;> simp [store]

/-! ### Keys -/

/-- A key of a store. -/
inductive Key where
  /-- It keeps the first registration of its kind. -/
  | first (kind : PatternClass → Bool)
  /-- A later registration of its kind replaces an earlier one. -/
  | last (kind : PatternClass → Bool)

namespace Key

def kind : Key → PatternClass → Bool
  | first kind => kind
  | last kind => kind

/-- What the key holds after the calls. -/
def index (calls : List (Str × ℕ)) : Key → Option ℕ
  | first kind => firstWith kind calls
  | last kind => lastWith kind calls

variable {s : Key} {calls calls' : List (Str × ℕ)}

theorem index_eq_none_iff : s.index calls = none ↔ ∀ e ∈ calls, ¬ s.kind (classify e.1) = true := by
  cases s with
  | first kind => exact firstWith_eq_none_iff
  | last kind => exact lastWith_eq_none_iff

theorem exists_of_index {i : ℕ} (h : s.index calls = some i) :
    ∃ e ∈ calls, e.2 = i ∧ s.kind (classify e.1) = true := by
  cases s with
  | first kind => exact exists_of_firstWith h
  | last kind => exact exists_of_lastWith h

/-- A registration of another kind leaves the key alone. -/
theorem index_concat_of_not {e : Str × ℕ} (h : ¬ s.kind (classify e.1) = true) :
    s.index (calls ++ [e]) = s.index calls := by
  cases s with
  | first kind =>
    have h' : ¬ kind (classify e.1) = true := h
    show firstWith kind (calls ++ [e]) = firstWith kind calls
    rw [firstWith_concat, if_neg h', Option.or_none]
  | last kind =>
    have h' : ¬ kind (classify e.1) = true := h
    show lastWith kind (calls ++ [e]) = lastWith kind calls
    rw [lastWith_concat, if_neg h']

/-- One more registration changes what a key holds only to its own index. -/
theorem index_concat (e : Str × ℕ) :
    s.index (calls ++ [e]) = s.index calls ∨ s.index (calls ++ [e]) = some e.2 := by
  by_cases h : s.kind (classify e.1) = true
  · cases s with
    | first kind =>
      have h' : kind (classify e.1) = true := h
      show firstWith kind (calls ++ [e]) = firstWith kind calls ∨ firstWith kind (calls ++ [e]) = _
      rw [firstWith_concat, if_pos h']
      cases firstWith kind calls with
      | none => exact Or.inr rfl
      | some i => exact Or.inl rfl
    | last kind =>
      have h' : kind (classify e.1) = true := h
      show _ ∨ lastWith kind (calls ++ [e]) = _
      rw [lastWith_concat, if_pos h']
      exact Or.inr rfl
  · exact Or.inl (index_concat_of_not h)

end Key

/-! ### The keys of the stores -/

theorem mem_counts_iff {h : Str} {n : ℕ} : n ∈ counts h ↔ n ≤ (labels h).length := by
  simp [counts]

/-- The keys that a store tries for the host, in its order. -/
def storeKeys (h : Str) : ℕ → List Key
  | 0 => [.last fun c => c = .exactMatches h]
  | 1 => (counts h).map fun n => .last fun c => c = .doubleStarLeading n (lastJoined h n)
  | 2 => (counts h).map fun n => .last fun c => c = .doubleStarTrailing n (firstJoined h n)
  | 3 => [.first (simpleInternalHit (labels h))]
  | 4 => [.first (internalDoubleStarHit (labels h))]
  | 5 => (hostPaths (labels h)).map fun path => .first (trieClass path)
  | 6 => [.first (complexHit (labels h))]
  | 7 => (Split.splitOnce '.' h).toList.map fun p => .last fun c => c = .leadingWildcards p.2
  | 8 => (Split.rsplitOnce '.' h).toList.map fun p => .last fun c => c = .trailingWildcards p.1
  | 9 => [.first fun c => c = .catchAll]
  | _ + 10 => []

/-- The keys that `matches` tries for the host, in its order. -/
def searchKeys (h : Str) : List Key := (List.range 10).flatMap (storeKeys h)

theorem findSome?_toList {α β : Type} (o : Option α) (f : α → Key) (g : Key → Option β) :
    (o.toList.map f).findSome? g = o.bind fun a => g (f a) := by
  cases o with
  | none => rfl
  | some a => exact List.findSome?_singleton

/-- A store answers with the first of its keys that holds something. -/
theorem answers_eq_map (calls : List (Str × ℕ)) (h : Str) :
    answers calls h =
      (List.range 10).map fun k => (storeKeys h k).findSome? fun s => s.index calls := by
  have hrange : List.range 10 = [0, 1, 2, 3, 4, 5, 6, 7, 8, 9] := rfl
  rw [hrange]
  simp only [List.map_cons, List.map_nil, storeKeys]
  rw [findSome?_toList, findSome?_toList]
  simp only [List.findSome?_map, List.findSome?_singleton]
  rfl

theorem matches_eq_findSome? (calls : List (Str × ℕ)) (h : Str) :
    (HostRouter.ofCalls calls).matches h = (searchKeys h).findSome? fun s => s.index calls := by
  have hflat : ∀ ks : List ℕ, (ks.map fun k => (storeKeys h k).findSome? fun s =>
      s.index calls).findSome? id = (ks.flatMap (storeKeys h)).findSome? fun s => s.index calls := by
    intro ks
    induction ks with
    | nil => rfl
    | cons k ks ih =>
      rw [List.map_cons, List.flatMap_cons, List.findSome?_append, List.findSome?_cons, ih]
      cases (storeKeys h k).findSome? fun s => s.index calls <;> rfl
  unfold HostRouter.matches searchKeys
  rw [lookups_ofCalls, answers_eq_map, hflat]

theorem exists_mem_singleton_iff {s : Key} {c : PatternClass} :
    (∃ s' ∈ [s], s'.kind c = true) ↔ s.kind c = true := by
  simp only [List.mem_singleton, exists_eq_left]

/-- The keys for one class each. -/
theorem exists_last_iff {ι : Type} {l : List ι} {f : ι → PatternClass} {c : PatternClass} :
    (∃ s ∈ l.map (fun x => Key.last fun c => c = f x), s.kind c = true) ↔ ∃ x ∈ l, c = f x := by
  simp only [List.mem_map, exists_exists_and_eq_and, Key.kind, decide_eq_true_eq]

section Stores

variable {h : Str} {c : PatternClass}

theorem kind_iff_exactMatches : (∃ s ∈ storeKeys h 0, s.kind c = true) ↔ c.store = 0 ∧ c.Hits h := by
  refine exists_mem_singleton_iff.trans ⟨fun hc => ?_, ?_⟩
  · obtain rfl := of_decide_eq_true hc
    exact ⟨rfl, rfl⟩
  · rintro ⟨hstore, hh⟩
    cases c with
    | exactMatches key => exact decide_eq_true (congrArg _ (Eq.symm hh))
    | _ => exact absurd hstore (Nat.ne_of_beq_eq_false rfl)

theorem kind_iff_doubleStarLeading :
    (∃ s ∈ storeKeys h 1, s.kind c = true) ↔ c.store = 1 ∧ c.Hits h := by
  refine exists_last_iff.trans ⟨?_, ?_⟩
  · rintro ⟨n, hn, rfl⟩
    exact ⟨rfl, mem_counts_iff.mp hn, rfl⟩
  · rintro ⟨hstore, hh⟩
    cases c with
    | doubleStarLeading n known =>
      obtain ⟨hn, rfl⟩ := hh
      exact ⟨n, mem_counts_iff.mpr hn, rfl⟩
    | _ => exact absurd hstore (Nat.ne_of_beq_eq_false rfl)

theorem kind_iff_doubleStarTrailing :
    (∃ s ∈ storeKeys h 2, s.kind c = true) ↔ c.store = 2 ∧ c.Hits h := by
  refine exists_last_iff.trans ⟨?_, ?_⟩
  · rintro ⟨n, hn, rfl⟩
    exact ⟨rfl, mem_counts_iff.mp hn, rfl⟩
  · rintro ⟨hstore, hh⟩
    cases c with
    | doubleStarTrailing n known =>
      obtain ⟨hn, rfl⟩ := hh
      exact ⟨n, mem_counts_iff.mpr hn, rfl⟩
    | _ => exact absurd hstore (Nat.ne_of_beq_eq_false rfl)

/-- A scanned store tests the classes of its own. -/
theorem simpleInternalHit_iff :
    simpleInternalHit (labels h) c = true ↔ c.store = 3 ∧ c.Hits h := by
  cases c with
  | simpleInternalWildcards a b => exact ⟨fun hh => ⟨rfl, hh⟩, And.right⟩
  | _ => exact iff_of_false Bool.false_ne_true fun hh => Nat.ne_of_beq_eq_false rfl hh.1

theorem internalDoubleStarHit_iff :
    internalDoubleStarHit (labels h) c = true ↔ c.store = 4 ∧ c.Hits h := by
  cases c with
  | internalDoubleStarWildcards a b => exact ⟨fun hh => ⟨rfl, hh⟩, And.right⟩
  | _ => exact iff_of_false Bool.false_ne_true fun hh => Nat.ne_of_beq_eq_false rfl hh.1

theorem complexHit_iff : complexHit (labels h) c = true ↔ c.store = 6 ∧ c.Hits h := by
  cases c with
  | complexPatterns ls =>
    exact (covers_iff (tokens ls) (labels h)).trans ⟨fun hh => ⟨rfl, hh⟩, And.right⟩
  | _ => exact iff_of_false Bool.false_ne_true fun hh => Nat.ne_of_beq_eq_false rfl hh.1

theorem kind_iff_multiStarTrie :
    (∃ s ∈ storeKeys h 5, s.kind c = true) ↔ c.store = 5 ∧ c.Hits h := by
  constructor
  · rintro ⟨s, hs, hc⟩
    obtain ⟨path, hpath, rfl⟩ := List.mem_map.mp hs
    cases c with
    | multiStarTrie ls =>
      obtain rfl : path = trieTokens ls := of_decide_eq_true hc
      exact ⟨rfl, (mem_hostPaths_iff.mp hpath).2⟩
    | _ => exact absurd hc Bool.false_ne_true
  · rintro ⟨hstore, hh⟩
    cases c with
    | multiStarTrie ls =>
      have hpath := mem_hostPaths_iff.mpr ⟨any_notMem_trieTokens ls, hh⟩
      exact ⟨_, List.mem_map_of_mem hpath, decide_eq_true rfl⟩
    | _ => exact absurd hstore (Nat.ne_of_beq_eq_false rfl)

theorem kind_iff_leadingWildcards :
    (∃ s ∈ storeKeys h 7, s.kind c = true) ↔ c.store = 7 ∧ c.Hits h := by
  refine exists_last_iff.trans ⟨?_, ?_⟩
  · rintro ⟨p, hp, rfl⟩
    exact ⟨rfl, p.1, Option.mem_toList.mp hp⟩
  · rintro ⟨hstore, hh⟩
    cases c with
    | leadingWildcards d =>
      obtain ⟨x, hx⟩ := hh
      exact ⟨(x, d), Option.mem_toList.mpr hx, rfl⟩
    | _ => exact absurd hstore (Nat.ne_of_beq_eq_false rfl)

theorem kind_iff_trailingWildcards :
    (∃ s ∈ storeKeys h 8, s.kind c = true) ↔ c.store = 8 ∧ c.Hits h := by
  refine exists_last_iff.trans ⟨?_, ?_⟩
  · rintro ⟨p, hp, rfl⟩
    exact ⟨rfl, p.2, Option.mem_toList.mp hp⟩
  · rintro ⟨hstore, hh⟩
    cases c with
    | trailingWildcards d =>
      obtain ⟨x, hx⟩ := hh
      exact ⟨(d, x), Option.mem_toList.mpr hx, rfl⟩
    | _ => exact absurd hstore (Nat.ne_of_beq_eq_false rfl)

theorem kind_iff_catchAll : (∃ s ∈ storeKeys h 9, s.kind c = true) ↔ c.store = 9 ∧ c.Hits h := by
  refine exists_mem_singleton_iff.trans ⟨fun hc => ?_, ?_⟩
  · obtain rfl := of_decide_eq_true hc
    exact ⟨rfl, trivial⟩
  · rintro ⟨hstore, -⟩
    cases c with
    | catchAll => exact decide_eq_true (rfl : PatternClass.catchAll = .catchAll)
    | _ => exact absurd hstore (Nat.ne_of_beq_eq_false rfl)

/-- The keys of a store are for its own registrations that are found for the host. -/
theorem kind_iff_of_store {k : ℕ} :
    (∃ s ∈ storeKeys h k, s.kind c = true) ↔ c.store = k ∧ c.Hits h := by
  match k with
  | 0 => exact kind_iff_exactMatches
  | 1 => exact kind_iff_doubleStarLeading
  | 2 => exact kind_iff_doubleStarTrailing
  | 3 => exact exists_mem_singleton_iff.trans simpleInternalHit_iff
  | 4 => exact exists_mem_singleton_iff.trans internalDoubleStarHit_iff
  | 5 => exact kind_iff_multiStarTrie
  | 6 => exact exists_mem_singleton_iff.trans complexHit_iff
  | 7 => exact kind_iff_leadingWildcards
  | 8 => exact kind_iff_trailingWildcards
  | 9 => exact kind_iff_catchAll
  | k + 10 =>
    have hlt := c.store_lt
    refine iff_of_false ?_ fun hh => ?_
    · rintro ⟨s, hs, -⟩
      exact absurd hs List.not_mem_nil
    · omega

end Stores

/-- A registration is found for a host if it is of the kind of one of the keys that are tried. -/
theorem kind_iff {h : Str} {c : PatternClass} :
    (∃ s ∈ searchKeys h, s.kind c = true) ↔ c.Hits h := by
  unfold searchKeys
  refine ⟨?_, ?_⟩
  · rintro ⟨s, hs, hkind⟩
    obtain ⟨k, -, hk⟩ := List.mem_flatMap.mp hs
    exact (kind_iff_of_store.mp ⟨s, hk, hkind⟩).2
  · intro hh
    obtain ⟨s, hs, hkind⟩ := kind_iff_of_store.mpr ⟨rfl, hh⟩
    exact ⟨s, List.mem_flatMap.mpr ⟨c.store, List.mem_range.mpr c.store_lt, hs⟩, hkind⟩

end Scety
