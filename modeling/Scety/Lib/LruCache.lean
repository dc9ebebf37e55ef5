import Mathlib.Data.PNat.Notation
import Mathlib.Data.List.Basic
import Mathlib.Tactic

/-!
# Caches that may forget

A bounded cache promises little: `get` returns nothing or the value last put under the key, and any
entry may be gone after a `put`.  That is enough for a memo table to be transparent: a property of
all pairs ever put is a property of all pairs ever got (`Holds`).  `recencyList` is the cache that
drops the least recently used entry.
-/

namespace Scety.Cache

/-- The operations of a bounded cache, with what they promise about the entries. -/
structure LruCache (K V : Type) where
  Carrier : Type
  new : ℕ+ → Carrier
  get : Carrier → K → Option V × Carrier
  put : Carrier → K → V → Carrier
  /-- What `get` would return. -/
  peek : Carrier → K → Option V
  peek_new (n : ℕ+) (k : K) : peek (new n) k = none
  get_fst (c : Carrier) (k : K) : (get c k).1 = peek c k
  peek_get (c : Carrier) (k k' : K) : peek (get c k).2 k' = peek c k'
  peek_put_self (c : Carrier) (k : K) (v : V) : ∀ w ∈ peek (put c k v) k, w = v
  peek_put_ne (c : Carrier) {k k' : K} (v : V) (h : k' ≠ k) :
    ∀ w ∈ peek (put c k v) k', peek c k' = some w

namespace LruCache

variable {K V : Type} (L : LruCache K V)

/-- All entries of the cache satisfy `P`. -/
def Holds (P : K → V → Prop) (c : L.Carrier) : Prop := ∀ k, ∀ v ∈ L.peek c k, P k v

variable {L} {P : K → V → Prop} {c : L.Carrier}

theorem Holds.new (n : ℕ+) : L.Holds P (L.new n) := by
  intro k v hv
  rw [L.peek_new] at hv
  exact absurd hv (by simp)

theorem Holds.get (h : L.Holds P c) (k : K) : L.Holds P (L.get c k).2 := by
  intro k' v hv
  rw [L.peek_get] at hv
  exact h k' v hv

theorem Holds.put (h : L.Holds P c) {k : K} {v : V} (hv : P k v) : L.Holds P (L.put c k v) := by
  intro k' w hw
  by_cases hk : k' = k
  · subst hk
    rw [L.peek_put_self c k' v w hw]
    exact hv
  · exact h k' w (L.peek_put_ne c v hk w hw)

/-- A value found in the cache satisfies `P`. -/
theorem Holds.of_get (h : L.Holds P c) {k : K} {v : V} (hv : (L.get c k).1 = some v) : P k v := by
  rw [L.get_fst] at hv
  exact h k v hv

end LruCache

/-! ### The least recently used entry goes -/

section RecencyList

variable {K V : Type} [DecidableEq K]

theorem lookup_filter_ne {l : List (K × V)} {k k' : K} (h : k' ≠ k) :
    (l.filter fun e => e.1 ≠ k).lookup k' = l.lookup k' := by
  induction l with
  | nil => rfl
  | cons e l ih =>
    obtain ⟨a, v⟩ := e
    by_cases ha : a = k
    · subst ha
      have hne : (k' == a) = false := beq_eq_false_iff_ne.mpr h
      rw [List.filter_cons_of_neg (by simp), List.lookup_cons, hne]
      exact ih
    · rw [List.filter_cons_of_pos (by simpa using ha), List.lookup_cons, List.lookup_cons, ih]

theorem lookup_take {l : List (K × V)} {n : ℕ} {k : K} {v : V} (h : (l.take n).lookup k = some v) :
    l.lookup k = some v :=
  (List.take_prefix n l).lookup_eq_some h

/-- A list of entries, the most recently used first. -/
def recencyList (K V : Type) [DecidableEq K] : LruCache K V where
  Carrier := ℕ+ × List (K × V)
  new n := (n, [])
  get c k :=
    match c.2.lookup k with
    | some v => (some v, (c.1, (k, v) :: c.2.filter fun e => e.1 ≠ k))
    | none => (none, c)
  put c k v := (c.1, ((k, v) :: c.2.filter fun e => e.1 ≠ k).take c.1)
  peek c k := c.2.lookup k
  peek_new n k := rfl
  get_fst c k := by
    cases h : c.2.lookup k <;> simp
  peek_get c k k' := by
    cases h : c.2.lookup k with
    | none => simp
    | some v =>
      simp only
      by_cases hk : k' = k
      · subst hk
        rw [List.lookup_cons_self, h]
      · have hne : (k' == k) = false := beq_eq_false_iff_ne.mpr hk
        rw [List.lookup_cons, hne]
        exact lookup_filter_ne hk
  peek_put_self c k v w hw := by
    have hfull := lookup_take hw
    rw [List.lookup_cons_self] at hfull
    exact (Option.some.inj hfull).symm
  peek_put_ne c k k' v hk w hw := by
    have hfull := lookup_take hw
    have hne : (k' == k) = false := beq_eq_false_iff_ne.mpr hk
    rw [List.lookup_cons, hne] at hfull
    exact (lookup_filter_ne hk).symm.trans hfull

end RecencyList

end Scety.Cache
