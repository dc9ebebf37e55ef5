import Scety.Core.HostRouter
import Scety.Core.Language

/-!
# The label trie is a map from label lists, searched literal first

A trie node is read as the partial map `valueAt` from token lists (a literal label or `one`) to
values.  Insertion writes one entry of that map and never replaces one; lookup tries the token
lists that cover the host (`hostPaths`) in order, a literal before `one` at every position.
-/

namespace Scety

open Glob

/-- The meaning of one label of a trie list: only `*` is special. -/
def trieToken (l : Str) : Token Str := if l = star then .one else .lit l

def trieTokens (ls : List Str) : List (Token Str) := ls.map trieToken

@[simp] theorem trieToken_star : trieToken star = .one := if_pos rfl

theorem trieToken_of_ne {l : Str} (h : l ≠ star) : trieToken l = .lit l := if_neg h

theorem trieToken_injective : Function.Injective trieToken := by
  intro a b h
  unfold trieToken at h
  split_ifs at h <;> simp_all

theorem any_notMem_trieTokens (ls : List Str) : Token.any ∉ trieTokens ls := by
  intro h
  obtain ⟨l, -, hl⟩ := List.mem_map.mp h
  unfold trieToken at hl
  split_ifs at hl

/-- Without a `**` among the labels the trie reads them as the pattern language does. -/
theorem trieTokens_eq_tokens {ls : List Str} (h : doubleStar ∉ ls) : trieTokens ls = tokens ls := by
  apply List.map_congr_left
  intro l hl
  have hd : l ≠ doubleStar := ne_of_mem_of_not_mem hl h
  unfold trieToken token
  rw [if_neg hd]

namespace TrieNode

/-- The value stored for a token list. -/
def valueAt (node : TrieNode) : List (Token Str) → Option ℕ
  | [] => node.value
  | .one :: rest => node.wildcardChild.bind fun child => child.valueAt rest
  | .lit label :: rest => (node.children label).bind fun child => child.valueAt rest
  | .any :: _ => none

/-! ### Insertion -/

theorem valueAt_new (path : List (Token Str)) : new.valueAt path = none := by
  cases path with
  | nil => rfl
  | cons l ls => cases l <;> rfl

/-- A missing child is as good as an empty one. -/
theorem bind_valueAt (o : Option TrieNode) (path : List (Token Str)) :
    (o.bind fun child => child.valueAt path) = (o.getD new).valueAt path := by
  cases o with
  | none => exact (valueAt_new path).symm
  | some n => rfl

theorem valueAt_one (node : TrieNode) (path : List (Token Str)) :
    node.valueAt (.one :: path) = (node.wildcardChild.getD new).valueAt path := by
  rw [← bind_valueAt]
  rfl

theorem valueAt_lit (node : TrieNode) (l : Str) (path : List (Token Str)) :
    node.valueAt (.lit l :: path) = ((node.children l).getD new).valueAt path := by
  rw [← bind_valueAt]
  rfl

/-- `insert` writes the entry of its own list, unless that entry exists, and no other entry. -/
theorem valueAt_insert (node : TrieNode) (ls : List Str) (path : List (Token Str)) (index : ℕ) :
    (node.insert ls index).valueAt path =
      if path = trieTokens ls then (node.valueAt path).or (some index) else node.valueAt path := by
  induction ls generalizing node path with
  | nil =>
    cases path with
    | nil =>
      have hnil : ([] : List (Token Str)) = trieTokens [] := rfl
      rw [if_pos hnil]
      show (if node.value.isNone then some index else node.value) = node.value.or (some index)
      cases node.value <;> rfl
    | cons k path =>
      have hne : ¬ (k :: path = trieTokens []) := by simp [trieTokens]
      rw [if_neg hne]
      cases k <;> rfl
  | cons l ls ih =>
    have hcons : trieTokens (l :: ls) = trieToken l :: trieTokens ls := rfl
    rw [hcons]
    unfold insert
    by_cases hl : l = star
    · rw [if_pos hl, hl, trieToken_star]
      cases path with
      | nil => rfl
      | cons k path =>
        cases k with
        | one =>
          rw [valueAt_one, valueAt_one]
          show ((node.wildcardChild.getD new).insert ls index).valueAt path = _
          rw [ih]
          simp only [List.cons.injEq, true_and]
        | lit k => rfl
        | any => rfl
    · rw [if_neg hl, trieToken_of_ne hl]
      cases path with
      | nil => rfl
      | cons k path =>
        cases k with
        | one => rfl
        | any => rfl
        | lit k =>
          rw [valueAt_lit, valueAt_lit]
          by_cases hk : k = l
          · subst hk
            show ((Function.update node.children k (some (((node.children k).getD new).insert
              ls index)) k).getD new).valueAt path = _
            rw [Function.update_self, Option.getD_some, ih]
            simp only [List.cons.injEq, true_and]
          · have hne : ¬ (Token.lit k :: path = .lit l :: trieTokens ls) := fun h =>
              hk (Token.lit.inj (List.cons_eq_cons.mp h).1)
            rw [if_neg hne]
            show ((Function.update node.children l _ k).getD new).valueAt path = _
            rw [Function.update_of_ne hk]

end TrieNode

/-! ### The token lists that cover a host, in the order of the search -/

/-- Every way of reading labels of the host as `one`, literal labels first. -/
def hostPaths : List Str → List (List (Token Str))
  | [] => [[]]
  | h :: hs => (hostPaths hs).map (.lit h :: ·) ++ (hostPaths hs).map (.one :: ·)

theorem mem_hostPaths_iff {hs : List Str} {path : List (Token Str)} :
    path ∈ hostPaths hs ↔ .any ∉ path ∧ Covers path hs := by
  induction hs generalizing path with
  | nil =>
    rw [hostPaths, List.mem_singleton]
    cases path with
    | nil => simp
    | cons k path => cases k <;> simp [covers_one_iff, covers_lit_iff]
  | cons h hs ih =>
    rw [hostPaths, List.mem_append, List.mem_map, List.mem_map]
    cases path with
    | nil => simp
    | cons k path =>
      cases k with
      | any => simp
      | one => simp [ih, covers_one_iff]
      | lit k =>
        simp only [List.cons.injEq, Token.lit.injEq, reduceCtorEq, false_and, and_false,
          exists_false, or_false, List.mem_cons, false_or, covers_lit_iff, ih]
        refine ⟨?_, ?_⟩
        · rintro ⟨a, ⟨ha, hc⟩, rfl, rfl⟩
          exact ⟨ha, hs, ⟨rfl, rfl⟩, hc⟩
        · rintro ⟨ha, t, ⟨rfl, rfl⟩, hc⟩
          exact ⟨path, ⟨ha, hc⟩, rfl, rfl⟩

/-- The search order is the literal-first order. -/
theorem hostPaths_pairwise (hs : List Str) : (hostPaths hs).Pairwise LiteralFirst := by
  induction hs with
  | nil => exact List.pairwise_singleton _ _
  | cons h hs ih =>
    have hmap : ∀ k : Token Str, ((hostPaths hs).map (k :: ·)).Pairwise LiteralFirst := fun k =>
      List.pairwise_map.mpr (ih.imp fun hab => hab.cons k)
    refine List.pairwise_append.mpr ⟨hmap _, hmap _, ?_⟩
    intro a ha b hb
    obtain ⟨a', -, rfl⟩ := List.mem_map.mp ha
    obtain ⟨b', -, rfl⟩ := List.mem_map.mp hb
    exact ⟨[], h, a', b', rfl, rfl⟩

/-- The search finds the first covering list that has a value. -/
theorem TrieNode.lookupFrom_eq (node : TrieNode) (hs : List Str) :
    node.lookupFrom hs = (hostPaths hs).findSome? node.valueAt := by
  induction hs generalizing node with
  | nil => simp [lookupFrom, hostPaths, valueAt]
  | cons h hs ih =>
    have hchild : ∀ o : Option TrieNode, (o.bind fun child => child.lookupFrom hs) =
        (hostPaths hs).findSome? fun p => o.bind fun child => child.valueAt p := by
      intro o
      cases o with
      | none => exact (List.findSome?_eq_none_iff.mpr fun _ _ => rfl).symm
      | some n => exact ih n
    unfold lookupFrom
    rw [hostPaths, List.findSome?_append, List.findSome?_map, List.findSome?_map, hchild, hchild]
    show _ = ((hostPaths hs).findSome? fun p => (node.children h).bind fun child =>
      child.valueAt p).or ((hostPaths hs).findSome? fun p => node.wildcardChild.bind fun child =>
      child.valueAt p)
    cases (hostPaths hs).findSome? fun p => (node.children h).bind fun child => child.valueAt p <;>
      rfl

end Scety
