import Mathlib.Data.List.Basic
import Mathlib.Data.List.Forall2
import Mathlib.Data.List.Infix
import Mathlib.Tactic

/-!
# Glob patterns over sequences of labels

A pattern is a list of tokens: a literal label, `one` (exactly one arbitrary label) or `any` (zero
or more arbitrary labels).  `Covers ps hs` says that the labels `hs` can be cut, in order, into one
block for every token.  The file proves the cons, append and concat rules of `Covers`, a decision
procedure, the special cases with few stars, and what inclusion of two pattern languages says about
the patterns.
-/

namespace Scety.Glob

variable {α : Type*}

/-- One token of a pattern. -/
inductive Token (α : Type*) where
  | lit (a : α)
  | one
  | any
  deriving DecidableEq

/-- The labels `hs` are covered by the pattern `ps`. -/
inductive Covers : List (Token α) → List α → Prop where
  | nil : Covers [] []
  | lit {a : α} {ps hs} : Covers ps hs → Covers (.lit a :: ps) (a :: hs)
  | one {x : α} {ps hs} : Covers ps hs → Covers (.one :: ps) (x :: hs)
  | anyNil {ps hs} : Covers ps hs → Covers (.any :: ps) hs
  | anyCons {x : α} {ps hs} : Covers (.any :: ps) hs → Covers (.any :: ps) (x :: hs)

/-! ### Rules at the front -/

@[simp] theorem covers_nil_iff {hs : List α} : Covers [] hs ↔ hs = [] :=
  ⟨fun h => by cases h; rfl, fun h => h ▸ .nil⟩

theorem covers_lit_iff {a : α} {ps : List (Token α)} {hs : List α} :
    Covers (.lit a :: ps) hs ↔ ∃ t, hs = a :: t ∧ Covers ps t := by
  constructor
  · intro h
    cases h with
    | lit h => exact ⟨_, rfl, h⟩
  · rintro ⟨t, rfl, h⟩
    exact .lit h

theorem covers_one_iff {ps : List (Token α)} {hs : List α} :
    Covers (.one :: ps) hs ↔ ∃ x t, hs = x :: t ∧ Covers ps t := by
  constructor
  · intro h
    cases h with
    | one h => exact ⟨_, _, rfl, h⟩
  · rintro ⟨x, t, rfl, h⟩
    exact .one h

theorem Covers.any_append {ps : List (Token α)} {v : List α} (h : Covers ps v) (u : List α) :
    Covers (.any :: ps) (u ++ v) := by
  induction u with
  | nil => exact .anyNil h
  | cons x u ih => exact .anyCons ih

theorem covers_any_iff {ps : List (Token α)} {hs : List α} :
    Covers (.any :: ps) hs ↔ ∃ u v, hs = u ++ v ∧ Covers ps v := by
  constructor
  · intro h
    generalize hq : Token.any :: ps = q at h
    induction h with
    | nil => cases hq
    | lit _ => cases hq
    | one _ => cases hq
    | anyNil h => cases hq; exact ⟨[], _, rfl, h⟩
    | anyCons h ih =>
      obtain ⟨u, v, rfl, hv⟩ := ih hq
      exact ⟨_ :: u, v, rfl, hv⟩
  · rintro ⟨u, v, rfl, h⟩
    exact h.any_append u

/-! ### Concatenation -/

/-- Covering a concatenation of patterns is cutting the labels in two. -/
theorem covers_append_iff {ps qs : List (Token α)} {hs : List α} :
    Covers (ps ++ qs) hs ↔ ∃ u v, hs = u ++ v ∧ Covers ps u ∧ Covers qs v := by
  induction ps generalizing hs with
  | nil => simp
  | cons p ps ih =>
    cases p with
    | lit a =>
      simp only [List.cons_append, covers_lit_iff, ih]
      constructor
      · rintro ⟨t, rfl, u, v, rfl, hu, hv⟩
        exact ⟨a :: u, v, rfl, ⟨u, rfl, hu⟩, hv⟩
      · rintro ⟨_, v, rfl, ⟨u, rfl, hu⟩, hv⟩
        exact ⟨u ++ v, rfl, u, v, rfl, hu, hv⟩
    | one =>
      simp only [List.cons_append, covers_one_iff, ih]
      constructor
      · rintro ⟨x, t, rfl, u, v, rfl, hu, hv⟩
        exact ⟨x :: u, v, rfl, ⟨x, u, rfl, hu⟩, hv⟩
      · rintro ⟨_, v, rfl, ⟨x, u, rfl, hu⟩, hv⟩
        exact ⟨x, u ++ v, rfl, u, v, rfl, hu, hv⟩
    | any =>
      simp only [List.cons_append, covers_any_iff, ih]
      constructor
      · rintro ⟨w, t, rfl, u, v, rfl, hu, hv⟩
        exact ⟨w ++ u, v, by simp, ⟨w, u, rfl, hu⟩, hv⟩
      · rintro ⟨_, v, rfl, ⟨w, u, rfl, hu⟩, hv⟩
        exact ⟨w, u ++ v, by simp, u, v, rfl, hu, hv⟩

/-- A literal pattern covers exactly itself. -/
@[simp] theorem covers_map_lit_iff {ls hs : List α} : Covers (ls.map .lit) hs ↔ hs = ls := by
  induction ls generalizing hs with
  | nil => simp
  | cons a ls ih =>
    simp only [List.map_cons, covers_lit_iff, ih]
    constructor
    · rintro ⟨t, rfl, rfl⟩; rfl
    · rintro rfl; exact ⟨ls, rfl, rfl⟩

/-- Literal labels of the pattern are among the labels. -/
theorem Covers.mem_of_lit {ps : List (Token α)} {hs : List α} (h : Covers ps hs) {a : α}
    (ha : .lit a ∈ ps) : a ∈ hs := by
  obtain ⟨qs, rs, rfl⟩ := List.append_of_mem ha
  obtain ⟨u, v, rfl, -, hv⟩ := covers_append_iff.mp h
  obtain ⟨t, rfl, -⟩ := covers_lit_iff.mp hv
  exact List.mem_append_right _ List.mem_cons_self

@[simp] theorem covers_singleton_one_iff {hs : List α} : Covers [.one] hs ↔ ∃ x, hs = [x] := by
  simp [covers_one_iff]

@[simp] theorem covers_singleton_any {hs : List α} : Covers [.any] hs :=
  covers_any_iff.mpr ⟨hs, [], by simp, .nil⟩

/-! ### Rules at the back, as a left-to-right table needs them -/

theorem covers_concat_any_iff {ps : List (Token α)} {hs : List α} {x : α} :
    Covers (ps ++ [.any]) (hs ++ [x]) ↔ Covers ps (hs ++ [x]) ∨ Covers (ps ++ [.any]) hs := by
  simp only [covers_append_iff]
  constructor
  · rintro ⟨u, v, he, hu, -⟩
    rcases List.eq_nil_or_concat v with rfl | ⟨v, y, rfl⟩
    · left; rw [he, List.append_nil]; exact hu
    · right
      rw [List.concat_eq_append, ← List.append_assoc] at he
      obtain ⟨rfl, -⟩ := List.append_inj' he rfl
      exact ⟨u, v, rfl, hu, covers_singleton_any⟩
  · rintro (h | ⟨u, v, rfl, hu, -⟩)
    · exact ⟨_, [], by simp, h, covers_singleton_any⟩
    · exact ⟨u, v ++ [x], by simp, hu, covers_singleton_any⟩

theorem covers_concat_any_nil_iff {ps : List (Token α)} :
    Covers (ps ++ [.any]) [] ↔ Covers ps [] := by
  rw [covers_append_iff]
  constructor
  · rintro ⟨u, v, he, hu, -⟩
    obtain ⟨rfl, rfl⟩ := List.append_eq_nil_iff.mp he.symm
    exact hu
  · intro h
    exact ⟨[], [], rfl, h, covers_singleton_any⟩

theorem covers_concat_one_iff {ps : List (Token α)} {hs : List α} {x : α} :
    Covers (ps ++ [.one]) (hs ++ [x]) ↔ Covers ps hs := by
  simp only [covers_append_iff, covers_singleton_one_iff]
  constructor
  · rintro ⟨u, v, he, hu, y, rfl⟩
    obtain ⟨rfl, -⟩ := List.append_inj' he rfl
    exact hu
  · intro h
    exact ⟨hs, [x], rfl, h, x, rfl⟩

theorem covers_concat_lit_iff {ps : List (Token α)} {hs : List α} {x a : α} :
    Covers (ps ++ [.lit a]) (hs ++ [x]) ↔ Covers ps hs ∧ x = a := by
  have h1 : ∀ v : List α, Covers [.lit a] v ↔ v = [a] := fun v => by simp [covers_lit_iff]
  simp only [covers_append_iff, h1]
  constructor
  · rintro ⟨u, v, he, hu, rfl⟩
    obtain ⟨rfl, he⟩ := List.append_inj' he rfl
    exact ⟨hu, by simpa using he⟩
  · rintro ⟨h, rfl⟩
    exact ⟨hs, [x], rfl, h, rfl⟩

/-- Only an `any` at the end can leave no label behind. -/
theorem not_covers_concat_nil {ps : List (Token α)} {p : Token α} (hp : p ≠ .any) :
    ¬ Covers (ps ++ [p]) [] := by
  rw [covers_append_iff]
  rintro ⟨u, v, he, -, hv⟩
  obtain ⟨rfl, rfl⟩ := List.append_eq_nil_iff.mp he.symm
  cases p with
  | lit a => cases hv
  | one => cases hv
  | any => exact hp rfl

/-! ### Deciding -/

/-- Executable matcher. -/
def covers [DecidableEq α] : List (Token α) → List α → Bool
  | [], hs => hs.isEmpty
  | .lit _ :: _, [] => false
  | .lit a :: ps, x :: hs => decide (x = a) && covers ps hs
  | .one :: _, [] => false
  | .one :: ps, _ :: hs => covers ps hs
  | .any :: ps, hs => hs.tails.any fun t => covers ps t

theorem covers_iff [DecidableEq α] (ps : List (Token α)) (hs : List α) :
    covers ps hs = true ↔ Covers ps hs := by
  induction ps generalizing hs with
  | nil => simp [covers]
  | cons p ps ih =>
    cases p with
    | lit a => cases hs <;> simp [covers, covers_lit_iff, ih]
    | one => cases hs <;> simp [covers, covers_one_iff, ih]
    | any =>
      simp only [covers, List.any_eq_true, List.mem_tails, ih, covers_any_iff]
      constructor
      · rintro ⟨t, ⟨u, rfl⟩, ht⟩; exact ⟨u, t, rfl, ht⟩
      · rintro ⟨u, v, rfl, hv⟩; exact ⟨v, ⟨u, rfl⟩, hv⟩

instance [DecidableEq α] (ps : List (Token α)) (hs : List α) : Decidable (Covers ps hs) :=
  decidable_of_iff _ (covers_iff ps hs)

/-! ### Covering as a partition -/

/-- The block of labels that one token may take. -/
def Token.Takes : Token α → List α → Prop
  | .lit a, part => part = [a]
  | .one, part => part.length = 1
  | .any, _ => True

/-- The labels can be cut into one block for every token, in order. -/
theorem covers_iff_parts {ps : List (Token α)} {hs : List α} :
    Covers ps hs ↔ ∃ parts, List.Forall₂ Token.Takes ps parts ∧ parts.flatten = hs := by
  constructor
  · intro h
    induction h with
    | nil => exact ⟨[], .nil, rfl⟩
    | @lit a ps hs _ ih =>
      obtain ⟨parts, hparts, rfl⟩ := ih
      exact ⟨[a] :: parts, .cons rfl hparts, rfl⟩
    | @one x ps hs _ ih =>
      obtain ⟨parts, hparts, rfl⟩ := ih
      exact ⟨[x] :: parts, .cons rfl hparts, rfl⟩
    | @anyNil ps hs _ ih =>
      obtain ⟨parts, hparts, rfl⟩ := ih
      exact ⟨[] :: parts, .cons trivial hparts, rfl⟩
    | @anyCons x ps hs _ ih =>
      -- the block of the first `any` grows by one label
      obtain ⟨parts, hparts, rfl⟩ := ih
      cases hparts with
      | @cons _ part _ parts _ hrest => exact ⟨(x :: part) :: parts, .cons trivial hrest, rfl⟩
  · rintro ⟨parts, hparts, rfl⟩
    induction hparts with
    | nil => exact .nil
    | @cons p part ps parts htakes _ ih =>
      rw [List.flatten_cons]
      cases p with
      | lit a =>
        obtain rfl := htakes
        exact .lit ih
      | one =>
        obtain ⟨x, rfl⟩ := List.length_eq_one_iff.mp htakes
        exact .one ih
      | any => exact ih.any_append part

/-! ### Patterns without `any` have a fixed length -/

/-- One label is matched by one token that is not `any`. -/
def Token.Hit : Token α → α → Prop
  | .lit a, x => x = a
  | .one, _ => True
  | .any, _ => False

theorem covers_iff_forall₂ {ps : List (Token α)} (h : .any ∉ ps) {hs : List α} :
    Covers ps hs ↔ List.Forall₂ Token.Hit ps hs := by
  induction ps generalizing hs with
  | nil => simp
  | cons p ps ih =>
    have hps : Token.any ∉ ps := fun hm => h (List.mem_cons_of_mem _ hm)
    cases p with
    | lit a =>
      rw [covers_lit_iff, List.forall₂_cons_left_iff]
      constructor
      · rintro ⟨t, rfl, ht⟩; exact ⟨a, t, rfl, (ih hps).mp ht, rfl⟩
      · rintro ⟨b, t, hb, ht, rfl⟩; cases hb; exact ⟨t, rfl, (ih hps).mpr ht⟩
    | one =>
      rw [covers_one_iff, List.forall₂_cons_left_iff]
      constructor
      · rintro ⟨x, t, rfl, ht⟩; exact ⟨x, t, trivial, (ih hps).mp ht, rfl⟩
      · rintro ⟨b, t, -, ht, rfl⟩; exact ⟨b, t, rfl, (ih hps).mpr ht⟩
    | any => exact absurd List.mem_cons_self h

theorem Covers.length_eq {ps : List (Token α)} {hs : List α} (h : Covers ps hs)
    (hp : .any ∉ ps) : ps.length = hs.length :=
  ((covers_iff_forall₂ hp).mp h).length_eq

/-! ### Inclusion of languages without `any` -/

/-- The label a token is instantiated with: its literal, or `x`. -/
def Token.fill (x : α) : Token α → α
  | .lit a => a
  | .one => x
  | .any => x

/-- A pattern covers its own instances. -/
theorem covers_fill {ps : List (Token α)} (x : α) (h : .any ∉ ps) :
    Covers ps (ps.map (Token.fill x)) := by
  induction ps with
  | nil => exact .nil
  | cons p ps ih =>
    have hps := ih fun hm => h (List.mem_cons_of_mem _ hm)
    cases p with
    | lit a => exact .lit hps
    | one => exact .one hps
    | any => exact absurd List.mem_cons_self h

/-- Two instances with different labels are enough to see that `qs` is at least as broad as `ps`
token by token. -/
theorem forall₂_of_covers_fill {ps qs : List (Token α)} (hp : .any ∉ ps) (hq : .any ∉ qs) {u v : α}
    (huv : u ≠ v) (hu : Covers qs (ps.map (Token.fill u))) (hv : Covers qs (ps.map (Token.fill v))) :
    List.Forall₂ (fun p q => q = .one ∨ p = q) ps qs := by
  induction ps generalizing qs with
  | nil =>
    cases qs with
    | nil => exact .nil
    | cons q qs => exact absurd (hu.length_eq hq) (by simp)
  | cons p ps ih =>
    cases qs with
    | nil => exact absurd (hu.length_eq hq) (by simp)
    | cons q qs =>
      have hps : Token.any ∉ ps := fun hm => hp (List.mem_cons_of_mem _ hm)
      have hqs : Token.any ∉ qs := fun hm => hq (List.mem_cons_of_mem _ hm)
      cases q with
      | any => exact absurd List.mem_cons_self hq
      | one =>
        obtain ⟨_, _, hu1, hu2⟩ := covers_one_iff.mp hu
        obtain ⟨_, _, hv1, hv2⟩ := covers_one_iff.mp hv
        obtain ⟨-, rfl⟩ := List.cons_eq_cons.mp hu1
        obtain ⟨-, rfl⟩ := List.cons_eq_cons.mp hv1
        exact .cons (Or.inl rfl) (ih hps hqs hu2 hv2)
      | lit b =>
        obtain ⟨_, hu1, hu2⟩ := covers_lit_iff.mp hu
        obtain ⟨_, hv1, hv2⟩ := covers_lit_iff.mp hv
        obtain ⟨hub, rfl⟩ := List.cons_eq_cons.mp hu1
        obtain ⟨hvb, rfl⟩ := List.cons_eq_cons.mp hv1
        refine .cons (Or.inr ?_) (ih hps hqs hu2 hv2)
        cases p with
        | lit a => exact congrArg Token.lit hub
        | one => exact absurd (hub.trans hvb.symm) huv
        | any => exact absurd List.mem_cons_self hp

/-- A broader pattern with as many stars is the same pattern. -/
theorem eq_of_forall₂_of_count [DecidableEq α] {ps qs : List (Token α)}
    (h : List.Forall₂ (fun p q => q = .one ∨ p = q) ps qs)
    (hcount : qs.count .one ≤ ps.count .one) : ps = qs := by
  have hle : ∀ {ps qs : List (Token α)}, List.Forall₂ (fun p q => q = .one ∨ p = q) ps qs →
      ps.count .one ≤ qs.count .one := by
    intro ps qs h
    induction h with
    | nil => exact le_rfl
    | cons hpq _ ih =>
      rw [List.count_cons, List.count_cons]
      rcases hpq with rfl | rfl
      · split_ifs <;> simp_all; omega
      · omega
  induction h with
  | nil => rfl
  | @cons p q ps qs hpq htail ih =>
    have htail' := hle htail
    rw [List.count_cons, List.count_cons] at hcount
    rcases hpq with rfl | rfl
    · by_cases hp : p = .one
      · subst hp
        rw [ih (by omega)]
      · rw [if_pos (by simp), if_neg (by simpa using hp)] at hcount
        omega
    · rw [ih (by omega)]

/-! ### Literal labels before stars -/

/-- At the first token where `a` and `b` differ, `a` has a literal and `b` has `one`. -/
def LiteralFirst (a b : List (Token α)) : Prop :=
  ∃ u x a' b', a = u ++ .lit x :: a' ∧ b = u ++ .one :: b'

theorem LiteralFirst.cons {a b : List (Token α)} (h : LiteralFirst a b) (k : Token α) :
    LiteralFirst (k :: a) (k :: b) := by
  obtain ⟨u, x, a', b', rfl, rfl⟩ := h
  exact ⟨k :: u, x, a', b', rfl, rfl⟩

theorem LiteralFirst.asymm {a b : List (Token α)} (h : LiteralFirst a b) : ¬ LiteralFirst b a := by
  obtain ⟨u, x, a', b', rfl, rfl⟩ := h
  induction u with
  | nil =>
    rintro ⟨v, y, c, d, h1, h2⟩
    cases v with
    | nil => exact absurd (List.cons_eq_cons.mp h1).1 (by simp)
    | cons k v =>
      have h3 := (List.cons_eq_cons.mp h1).1
      have h4 := (List.cons_eq_cons.mp h2).1
      exact absurd (h4.trans h3.symm) (by simp)
  | cons k u ih =>
    rintro ⟨v, y, c, d, h1, h2⟩
    cases v with
    | nil =>
      have h3 := (List.cons_eq_cons.mp h1).1
      have h4 := (List.cons_eq_cons.mp h2).1
      exact absurd (h3.symm.trans h4) (by simp)
    | cons l v =>
      exact ih ⟨v, y, c, d, (List.cons_eq_cons.mp h1).2, (List.cons_eq_cons.mp h2).2⟩

/-- A strictly broader pattern has a star where the narrower one still has a literal. -/
theorem eq_or_literalFirst {ps qs : List (Token α)} (hp : .any ∉ ps)
    (h : List.Forall₂ (fun p q => q = .one ∨ p = q) ps qs) : ps = qs ∨ LiteralFirst ps qs := by
  induction h with
  | nil => exact Or.inl rfl
  | @cons p q ps qs hpq _ ih =>
    have hps : Token.any ∉ ps := fun hm => hp (List.mem_cons_of_mem _ hm)
    by_cases heq : p = q
    · subst heq
      rcases ih hps with rfl | hl
      · exact Or.inl rfl
      · exact Or.inr (hl.cons p)
    · obtain rfl := hpq.resolve_right heq
      cases p with
      | lit a => exact Or.inr ⟨[], a, ps, qs, rfl, rfl⟩
      | one => exact absurd rfl heq
      | any => exact absurd List.mem_cons_self hp

end Scety.Glob
