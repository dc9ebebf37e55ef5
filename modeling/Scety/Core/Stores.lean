import Scety.Core.Classify
import Scety.Lib.Priority

/-!
# The stores of a router as functions of the registrations

`HostRouter.ofCalls calls` is the router after the calls `add_pattern(p, i)` for `(p, i)` in
`calls`.  A map answers with the last registration of a key, the trie and the catch-all with the
first one, a scanned list with the first registration that matches.  `lookups_ofCalls` collects
this: what `matches` finds is a function of the calls alone.
-/

namespace Scety

open Glob

/-- The router after a sequence of `add_pattern` calls. -/
def HostRouter.ofCalls (calls : List (Str × ℕ)) : HostRouter :=
  calls.foldl (fun r e => r.addPattern e.1 e.2) HostRouter.new

theorem HostRouter.ofCalls_concat (calls : List (Str × ℕ)) (e : Str × ℕ) :
    HostRouter.ofCalls (calls ++ [e]) =
      (HostRouter.ofCalls calls).insertClass (classify e.1) e.2 := by
  simp only [HostRouter.ofCalls, List.foldl_append, List.foldl_cons, List.foldl_nil]
  rfl

/-! ### The first and the last registration of a kind -/

section Registrations

variable (P : PatternClass → Bool)

/-- The index of the first call whose class satisfies `P`. -/
def firstWith (calls : List (Str × ℕ)) : Option ℕ :=
  (calls.find? fun e => P (classify e.1)).map Prod.snd

/-- The index of the last call whose class satisfies `P`. -/
def lastWith (calls : List (Str × ℕ)) : Option ℕ := firstWith P calls.reverse

variable {P}

theorem firstWith_append (xs ys : List (Str × ℕ)) :
    firstWith P (xs ++ ys) = (firstWith P xs).or (firstWith P ys) := by
  unfold firstWith
  rw [List.find?_append, Option.map_or]

theorem firstWith_concat (calls : List (Str × ℕ)) (e : Str × ℕ) :
    firstWith P (calls ++ [e]) =
      (firstWith P calls).or (if P (classify e.1) then some e.2 else none) := by
  rw [firstWith_append]
  congr 1
  unfold firstWith
  by_cases h : P (classify e.1) = true
  · simp [h]
  · simp [h]

theorem lastWith_concat (calls : List (Str × ℕ)) (e : Str × ℕ) :
    lastWith P (calls ++ [e]) = if P (classify e.1) then some e.2 else lastWith P calls := by
  unfold lastWith
  rw [List.reverse_append, firstWith_append]
  by_cases h : P (classify e.1) = true
  · simp [firstWith, h]
  · simp [firstWith, h]

theorem firstWith_eq_none_iff {calls : List (Str × ℕ)} :
    firstWith P calls = none ↔ ∀ e ∈ calls, ¬ P (classify e.1) = true := by
  unfold firstWith
  rw [Option.map_eq_none_iff, List.find?_eq_none]

theorem lastWith_eq_none_iff {calls : List (Str × ℕ)} :
    lastWith P calls = none ↔ ∀ e ∈ calls, ¬ P (classify e.1) = true := by
  unfold lastWith
  rw [firstWith_eq_none_iff]
  simp only [List.mem_reverse]

theorem exists_of_firstWith {calls : List (Str × ℕ)} {i : ℕ} (h : firstWith P calls = some i) :
    ∃ e ∈ calls, e.2 = i ∧ P (classify e.1) = true := by
  obtain ⟨e, he, rfl⟩ := Option.map_eq_some_iff.mp h
  have hP := List.find?_some he
  exact ⟨e, List.mem_of_find?_eq_some he, rfl, hP⟩

theorem exists_of_lastWith {calls : List (Str × ℕ)} {i : ℕ} (h : lastWith P calls = some i) :
    ∃ e ∈ calls, e.2 = i ∧ P (classify e.1) = true := by
  obtain ⟨e, he, h⟩ := exists_of_firstWith h
  exact ⟨e, List.mem_reverse.mp he, h⟩

end Registrations

/-! ### What one insertion does to each store -/

/-- The entry of a map of maps. -/
def countedLookup (m : HashMap ℕ (HashMap Str ℕ)) (n : ℕ) (known : Str) : Option ℕ :=
  (m.lookup n).bind fun inner => inner.lookup known

theorem countedLookup_insertCounted (m : HashMap ℕ (HashMap Str ℕ)) (n n' : ℕ) (k k' : Str)
    (index : ℕ) : countedLookup (insertCounted m n k index) n' k' =
      if n' = n ∧ k' = k then some index else countedLookup m n' k' := by
  unfold countedLookup insertCounted
  rw [lookup_insert_eq]
  by_cases hn : n' = n
  · subst hn
    rw [if_pos rfl, Option.bind_some, lookup_insert_eq]
    simp only [true_and]
    congr 1
    cases m.lookup n' <;> rfl
  · rw [if_neg hn, if_neg (fun h => hn h.1)]

section Insert

variable (r : HostRouter) (c : PatternClass) (index : ℕ)

/-- Any class but the catch-all leaves the catch-all alone, which keeps its first value. -/
theorem catchAll_insertClass : (r.insertClass c index).catchAll =
    r.catchAll.or (if c = .catchAll then some index else none) := by
  cases c with
  | catchAll => cases h : r.catchAll <;> simp [HostRouter.insertClass, h]
  | _ => simp [HostRouter.insertClass]

theorem insertClass_catchAll_other :
    ∃ o, r.insertClass .catchAll index = { r with catchAll := o } := by
  unfold HostRouter.insertClass
  dsimp only
  split_ifs
  · exact ⟨r.catchAll, rfl⟩
  · exact ⟨some index, rfl⟩

theorem exactMatches_insertClass (key : Str) :
    (r.insertClass c index).exactMatches.lookup key =
      if c = .exactMatches key then some index else r.exactMatches.lookup key := by
  cases c with
  | exactMatches k =>
    simp only [HostRouter.insertClass, lookup_insert_eq, PatternClass.exactMatches.injEq]
    simp only [eq_comm]
  | catchAll => obtain ⟨o, ho⟩ := insertClass_catchAll_other r index; simp [ho]
  | _ => simp [HostRouter.insertClass]

theorem leadingWildcards_insertClass (key : Str) :
    (r.insertClass c index).leadingWildcards.lookup key =
      if c = .leadingWildcards key then some index else r.leadingWildcards.lookup key := by
  cases c with
  | leadingWildcards k =>
    simp only [HostRouter.insertClass, lookup_insert_eq, PatternClass.leadingWildcards.injEq]
    simp only [eq_comm]
  | catchAll => obtain ⟨o, ho⟩ := insertClass_catchAll_other r index; simp [ho]
  | _ => simp [HostRouter.insertClass]

theorem trailingWildcards_insertClass (key : Str) :
    (r.insertClass c index).trailingWildcards.lookup key =
      if c = .trailingWildcards key then some index else r.trailingWildcards.lookup key := by
  cases c with
  | trailingWildcards k =>
    simp only [HostRouter.insertClass, lookup_insert_eq, PatternClass.trailingWildcards.injEq]
    simp only [eq_comm]
  | catchAll => obtain ⟨o, ho⟩ := insertClass_catchAll_other r index; simp [ho]
  | _ => simp [HostRouter.insertClass]

theorem doubleStarLeading_insertClass (n : ℕ) (key : Str) :
    countedLookup (r.insertClass c index).doubleStarLeading n key =
      if c = .doubleStarLeading n key then some index
      else countedLookup r.doubleStarLeading n key := by
  cases c with
  | doubleStarLeading n' k =>
    simp only [HostRouter.insertClass, countedLookup_insertCounted, PatternClass.doubleStarLeading.injEq]
    simp only [eq_comm]
  | catchAll => obtain ⟨o, ho⟩ := insertClass_catchAll_other r index; simp [ho]
  | _ => simp [HostRouter.insertClass]

theorem doubleStarTrailing_insertClass (n : ℕ) (key : Str) :
    countedLookup (r.insertClass c index).doubleStarTrailing n key =
      if c = .doubleStarTrailing n key then some index
      else countedLookup r.doubleStarTrailing n key := by
  cases c with
  | doubleStarTrailing n' k =>
    simp only [HostRouter.insertClass, countedLookup_insertCounted, PatternClass.doubleStarTrailing.injEq]
    simp only [eq_comm]
  | catchAll => obtain ⟨o, ho⟩ := insertClass_catchAll_other r index; simp [ho]
  | _ => simp [HostRouter.insertClass]

/-- A path of the trie belongs to one class only. -/
def trieClass (path : List (Token Str)) : PatternClass → Bool
  | .multiStarTrie ls => path = trieTokens ls
  | _ => false

theorem multiStarTrie_insertClass (path : List (Token Str)) :
    (r.insertClass c index).multiStarTrie.root.valueAt path =
      (r.multiStarTrie.root.valueAt path).or (if trieClass path c then some index else none) := by
  cases c with
  | multiStarTrie ls =>
    simp only [HostRouter.insertClass, LabelTrie.insert, TrieNode.valueAt_insert, trieClass,
      decide_eq_true_eq]
    split_ifs <;> simp
  | catchAll => obtain ⟨o, ho⟩ := insertClass_catchAll_other r index; simp [ho, trieClass]
  | _ => simp [HostRouter.insertClass, trieClass]

/-- The host test of a scanned store, for classes of that store. -/
def simpleInternalHit (hs : List Str) : PatternClass → Bool
  | .simpleInternalWildcards a b => matchesSingleInternalWildcard a b hs
  | _ => false

def internalDoubleStarHit (hs : List Str) : PatternClass → Bool
  | .internalDoubleStarWildcards a b => matchesInternalDoubleStar a b hs
  | _ => false

def complexHit (hs : List Str) : PatternClass → Bool
  | .complexPatterns ls => covers (tokens ls) hs
  | _ => false

theorem simpleInternal_insertClass (hs : List Str) :
    lookupSimpleInternal (r.insertClass c index).simpleInternalWildcards hs =
      (lookupSimpleInternal r.simpleInternalWildcards hs).or
        (if simpleInternalHit hs c then some index else none) := by
  cases c with
  | simpleInternalWildcards a b =>
    simp [HostRouter.insertClass, lookupSimpleInternal, simpleInternalHit, List.findSome?_append]
    rfl
  | catchAll => obtain ⟨o, ho⟩ := insertClass_catchAll_other r index; simp [ho, simpleInternalHit]
  | _ => simp [HostRouter.insertClass, simpleInternalHit]

theorem internalDoubleStar_insertClass (hs : List Str) :
    lookupInternalDoubleStar (r.insertClass c index).internalDoubleStarWildcards hs =
      (lookupInternalDoubleStar r.internalDoubleStarWildcards hs).or
        (if internalDoubleStarHit hs c then some index else none) := by
  cases c with
  | internalDoubleStarWildcards a b =>
    simp [HostRouter.insertClass, lookupInternalDoubleStar, internalDoubleStarHit,
      List.findSome?_append]
    rfl
  | catchAll =>
    obtain ⟨o, ho⟩ := insertClass_catchAll_other r index; simp [ho, internalDoubleStarHit]
  | _ => simp [HostRouter.insertClass, internalDoubleStarHit]

theorem complex_insertClass (hs : List Str) :
    lookupComplex hs (r.insertClass c index).complexPatterns [] =
      (lookupComplex hs r.complexPatterns []).or
        (if complexHit hs c then some index else none) := by
  simp only [lookupComplex_eq]
  cases c with
  | complexPatterns ls =>
    simp [HostRouter.insertClass, complexHit, covers_iff, List.findSome?_append]
  | catchAll => obtain ⟨o, ho⟩ := insertClass_catchAll_other r index; simp [ho, complexHit]
  | _ => simp [HostRouter.insertClass, complexHit]

end Insert

/-! ### Maps of maps, searched by descending count -/

theorem mem_descending_iff {V : Type} {m : HashMap ℕ V} {e : Sigma fun _ : ℕ => V} :
    e ∈ descending m ↔ m.lookup e.1 = some e.2 := by
  rw [← Option.mem_def, AList.mem_lookup_iff]
  exact (List.perm_insertionSort _ _).mem_iff

theorem descending_pairwise {V : Type} (m : HashMap ℕ V) :
    ((descending m).map Sigma.fst).Pairwise (· > ·) := by
  have hperm : ((descending m).map Sigma.fst).Perm m.keys :=
    (List.perm_insertionSort _ _).map Sigma.fst
  have hnd : ((descending m).map Sigma.fst).Nodup := hperm.nodup_iff.mpr m.keys_nodup
  have htotal : Std.Total fun a b : Sigma fun _ : ℕ => V => b.1 ≤ a.1 :=
    ⟨fun a b => Nat.le_total b.1 a.1⟩
  have htrans : IsTrans (Sigma fun _ : ℕ => V) fun a b => b.1 ≤ a.1 :=
    ⟨fun a b c hab hbc => Nat.le_trans hbc hab⟩
  have hsort : (descending m).Pairwise fun a b => b.1 ≤ a.1 := List.pairwise_insertionSort _ _
  have hge : ((descending m).map Sigma.fst).Pairwise (· ≥ ·) := List.pairwise_map.mpr hsort
  exact hge.imp₂ (fun _ _ hab hne => lt_of_le_of_ne hab hne.symm) hnd

/-- Searching the stored counts is searching all counts. -/
theorem findSome?_descending (m : HashMap ℕ (HashMap Str ℕ)) (key : ℕ → Str) (bound : ℕ) :
    ((descending m).findSome? fun e => if e.1 ≤ bound then e.2.lookup (key e.1) else none) =
      (List.range (bound + 1)).reverse.findSome? fun n => countedLookup m n (key n) := by
  have hentry : ∀ e ∈ descending m, (if e.1 ≤ bound then e.2.lookup (key e.1) else none) =
      if e.1 ≤ bound then countedLookup m e.1 (key e.1) else none := by
    intro e he
    unfold countedLookup
    rw [mem_descending_iff.mp he, Option.bind_some]
  have hmap : ((descending m).findSome? fun e =>
      if e.1 ≤ bound then e.2.lookup (key e.1) else none) =
      ((descending m).map Sigma.fst).findSome? fun n =>
        if n ≤ bound then countedLookup m n (key n) else none := by
    rw [List.findSome?_map]
    exact Priority.findSome?_congr hentry
  have hrange : ((List.range (bound + 1)).reverse.findSome? fun n => countedLookup m n (key n)) =
      (List.range (bound + 1)).reverse.findSome? fun n =>
        if n ≤ bound then countedLookup m n (key n) else none := by
    refine Priority.findSome?_congr fun n hn => ?_
    rw [if_pos (by simpa [Nat.lt_succ_iff] using hn)]
  rw [hmap, hrange]
  refine Priority.findSome?_eq_of_descending (descending_pairwise m) ?_ fun n hn => ?_
  · exact List.pairwise_reverse.mpr List.pairwise_lt_range
  · have hle : n ≤ bound := by
      by_contra h
      exact hn (if_neg h)
    have hmem : n ∈ (descending m).map Sigma.fst := by
      rw [if_pos hle] at hn
      unfold countedLookup at hn
      cases hl : m.lookup n with
      | none => exact absurd (by rw [hl, Option.bind_none]) hn
      | some v => exact List.mem_map.mpr ⟨⟨n, v⟩, mem_descending_iff.mpr hl, rfl⟩
    refine ⟨fun _ => by simpa [Nat.lt_succ_iff] using hle, fun _ => hmem⟩

/-! ### The whole router as a function of the calls -/

section Run

variable {F : HostRouter → Option ℕ} {P : PatternClass → Bool}

/-- A view of the router that every insertion of its kind overwrites. -/
theorem ofCalls_lastWith (h0 : F HostRouter.new = none)
    (hstep : ∀ r c index, F (r.insertClass c index) = if P c then some index else F r)
    (calls : List (Str × ℕ)) : F (HostRouter.ofCalls calls) = lastWith P calls := by
  induction calls using List.reverseRecOn with
  | nil => exact h0
  | append_singleton calls e ih =>
    rw [HostRouter.ofCalls_concat, hstep, lastWith_concat, ih]

/-- A view of the router that only the first insertion of its kind sets. -/
theorem ofCalls_firstWith (h0 : F HostRouter.new = none)
    (hstep : ∀ r c index, F (r.insertClass c index) = (F r).or (if P c then some index else none))
    (calls : List (Str × ℕ)) : F (HostRouter.ofCalls calls) = firstWith P calls := by
  induction calls using List.reverseRecOn with
  | nil => exact h0
  | append_singleton calls e ih =>
    rw [HostRouter.ofCalls_concat, hstep, firstWith_concat, ih]

end Run

/-- The last `n` labels of the host, joined. -/
def lastJoined (h : Str) (n : ℕ) : Str := joinDots ((labels h).drop ((labels h).length - n))

/-- The first `n` labels of the host, joined. -/
def firstJoined (h : Str) (n : ℕ) : Str := joinDots ((labels h).take n)

/-- The label counts, longest first. -/
def counts (h : Str) : List ℕ := (List.range ((labels h).length + 1)).reverse

/-- What the stores answer after `calls`, in the order of `matches`. -/
def answers (calls : List (Str × ℕ)) (h : Str) : List (Option ℕ) :=
  [lastWith (· = .exactMatches h) calls,
    (counts h).findSome? fun n => lastWith (· = .doubleStarLeading n (lastJoined h n)) calls,
    (counts h).findSome? fun n => lastWith (· = .doubleStarTrailing n (firstJoined h n)) calls,
    firstWith (simpleInternalHit (labels h)) calls,
    firstWith (internalDoubleStarHit (labels h)) calls,
    (hostPaths (labels h)).findSome? fun path => firstWith (trieClass path) calls,
    firstWith (complexHit (labels h)) calls,
    (Split.splitOnce '.' h).bind fun p => lastWith (· = .leadingWildcards p.2) calls,
    (Split.rsplitOnce '.' h).bind fun p => lastWith (· = .trailingWildcards p.1) calls,
    firstWith (· = .catchAll) calls]

theorem lookups_ofCalls (calls : List (Str × ℕ)) (h : Str) :
    (HostRouter.ofCalls calls).lookups h = answers calls h := by
  have hexact := fun key => ofCalls_lastWith (F := fun r => r.exactMatches.lookup key)
    (P := (· = .exactMatches key)) (AList.lookup_empty _)
    (fun r c i => by simpa using exactMatches_insertClass r c i key) calls
  have hleading := fun key => ofCalls_lastWith (F := fun r => r.leadingWildcards.lookup key)
    (P := (· = .leadingWildcards key)) (AList.lookup_empty _)
    (fun r c i => by simpa using leadingWildcards_insertClass r c i key) calls
  have htrailing := fun key => ofCalls_lastWith (F := fun r => r.trailingWildcards.lookup key)
    (P := (· = .trailingWildcards key)) (AList.lookup_empty _)
    (fun r c i => by simpa using trailingWildcards_insertClass r c i key) calls
  have hdsl := fun n key => ofCalls_lastWith (F := fun r => countedLookup r.doubleStarLeading n key)
    (P := (· = .doubleStarLeading n key)) (by simp [countedLookup, HostRouter.new])
    (fun r c i => by simpa using doubleStarLeading_insertClass r c i n key) calls
  have hdst := fun n key => ofCalls_lastWith (F := fun r => countedLookup r.doubleStarTrailing n key)
    (P := (· = .doubleStarTrailing n key)) (by simp [countedLookup, HostRouter.new])
    (fun r c i => by simpa using doubleStarTrailing_insertClass r c i n key) calls
  have hsimple := ofCalls_firstWith (F := fun r =>
      lookupSimpleInternal r.simpleInternalWildcards (labels h)) rfl
    (fun r c i => simpleInternal_insertClass r c i (labels h)) calls
  have hids := ofCalls_firstWith (F := fun r =>
      lookupInternalDoubleStar r.internalDoubleStarWildcards (labels h)) rfl
    (fun r c i => internalDoubleStar_insertClass r c i (labels h)) calls
  have htrie := fun path => ofCalls_firstWith (F := fun r => r.multiStarTrie.root.valueAt path)
    (TrieNode.valueAt_new path) (fun r c i => multiStarTrie_insertClass r c i path) calls
  have hcomplex := ofCalls_firstWith (F := fun r => lookupComplex (labels h) r.complexPatterns [])
    rfl (fun r c i => complex_insertClass r c i (labels h)) calls
  have hcatch := ofCalls_firstWith (F := fun r => r.catchAll) (P := (· = .catchAll)) rfl
    (fun r c i => by simpa using catchAll_insertClass r c i) calls
  unfold HostRouter.lookups answers lookupDoubleStarLeading lookupDoubleStarTrailing lookupLeading
    lookupTrailing LabelTrie.lookup
  rw [findSome?_descending _ (fun n => joinDots ((labels h).drop ((labels h).length - n))),
    findSome?_descending _ (fun n => joinDots ((labels h).take n)), TrieNode.lookupFrom_eq, hsimple,
    hids, hcomplex, hcatch]
  simp only [hexact, hleading, htrailing, hdsl, hdst, counts, lastJoined, firstJoined]
  rw [show (HostRouter.ofCalls calls).multiStarTrie.root.valueAt =
    fun path => firstWith (trieClass path) calls from funext htrie]
  rfl

end Scety
