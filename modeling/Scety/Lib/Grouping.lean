import Mathlib.Data.List.Dedup
import Mathlib.Data.List.Perm.Basic

/-!
# Grouping a list by a partial key

The groups of the keys that occur are sublists of the list, and together they are the elements that
have a key, each as often as it occurs.
-/

namespace Scety.Grouping

variable {α κ : Type*} [DecidableEq κ]

/-- The elements with key `k`, in their order. -/
def group (key : α → Option κ) (k : κ) (l : List α) : List α := l.filter fun a => key a = some k

/-- The keys that occur, each once. -/
def keys (key : α → Option κ) (l : List α) : List κ := (l.filterMap key).dedup

variable {key : α → Option κ} {k : κ} {l : List α}

theorem mem_keys : k ∈ keys key l ↔ ∃ a ∈ l, key a = some k := by
  unfold keys
  rw [List.mem_dedup, List.mem_filterMap]

theorem nodup_keys : (keys key l).Nodup := List.nodup_dedup _

/-- Two predicates that exclude each other split a filter. -/
theorem filter_or_perm {p q : α → Bool} (h : ∀ a ∈ l, q a = true → p a = false) :
    (l.filter fun a => p a || q a).Perm (l.filter p ++ l.filter q) := by
  have hsplit := List.filter_append_perm p (l.filter fun a => p a || q a)
  have hp : (l.filter fun a => p a || q a).filter p = l.filter p := by
    rw [List.filter_filter]
    exact List.filter_congr fun a _ => by cases p a <;> simp
  have hq : (l.filter fun a => p a || q a).filter (fun a => !p a) = l.filter q := by
    rw [List.filter_filter]
    refine List.filter_congr fun a ha => ?_
    cases hqa : q a with
    | false => cases p a <;> rfl
    | true => simp [h a ha hqa]
  rw [hp, hq] at hsplit
  exact hsplit.symm

/-- The groups of distinct keys are together the elements with one of these keys. -/
theorem flatMap_group_perm {ks : List κ} (hks : ks.Nodup) :
    (ks.flatMap fun k => group key k l).Perm (l.filter fun a => decide (∃ k ∈ ks, key a = some k)) := by
  induction ks with
  | nil => simp
  | cons k ks ih =>
    obtain ⟨hk, hks⟩ := List.nodup_cons.mp hks
    have hor : (l.filter fun a => decide (∃ k' ∈ k :: ks, key a = some k')) =
        l.filter fun a => decide (key a = some k) || decide (∃ k' ∈ ks, key a = some k') :=
      List.filter_congr fun a _ => by simp
    rw [List.flatMap_cons, hor]
    refine ((ih hks).append_left _).trans (filter_or_perm ?_).symm
    intro a _ ha
    obtain ⟨k', hk', hkey⟩ := of_decide_eq_true ha
    refine decide_eq_false fun hkey' => hk ?_
    obtain rfl := Option.some.inj (hkey.symm.trans hkey')
    exact hk'

/-- **The groups of a list** are together its elements that have a key. -/
theorem flatMap_group_keys_perm :
    ((keys key l).flatMap fun k => group key k l).Perm (l.filter fun a => (key a).isSome) := by
  refine (flatMap_group_perm nodup_keys).trans (List.Perm.of_eq (List.filter_congr fun a ha => ?_))
  rw [Bool.eq_iff_iff, decide_eq_true_eq, Option.isSome_iff_exists]
  refine ⟨fun ⟨k, _, hk⟩ => ⟨k, hk⟩, fun ⟨k, hk⟩ => ⟨k, mem_keys.mpr ⟨a, ha, hk⟩, hk⟩⟩

end Scety.Grouping
