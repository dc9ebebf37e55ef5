import Scety.Basic
import Scety.Lib.Glob

/-!
# The host pattern language

What a host pattern means, independently of how the router stores it: the lone `*` and `**` stand
for every host, any other pattern is read label by label, `*` standing for one label and `**` for
zero or more.  Every other label, starred or not, is literal.
-/

namespace Scety

open Glob

/-- The meaning of one pattern label. -/
def token (l : Str) : Token Str :=
  if l = star then .one else if l = doubleStar then .any else .lit l

/-- The meaning of a list of pattern labels. -/
def tokens (ls : List Str) : List (Token Str) := ls.map token

/-- The pattern `p` covers the host `h`. -/
def PatternCovers (p h : Str) : Prop :=
  p = star ∨ p = doubleStar ∨ Covers (tokens (labels p)) (labels h)

instance (p h : Str) : Decidable (PatternCovers p h) := by unfold PatternCovers; infer_instance

/-! ### Tokens -/

@[simp] theorem token_star : token star = .one := if_pos rfl

@[simp] theorem token_doubleStar : token doubleStar = .any := by
  simp [token, star_ne_doubleStar.symm]

theorem token_of_literal {l : Str} (h1 : l ≠ star) (h2 : l ≠ doubleStar) : token l = .lit l := by
  simp [token, h1, h2]

theorem token_injective : Function.Injective token := by
  intro a b h
  unfold token at h
  split_ifs at h with h1 h2 h3 h4 h5 h6 <;> simp_all

@[simp] theorem tokens_nil : tokens [] = [] := rfl

@[simp] theorem tokens_cons (l : Str) (ls : List Str) :
    tokens (l :: ls) = token l :: tokens ls := rfl

@[simp] theorem tokens_append (xs ys : List Str) : tokens (xs ++ ys) = tokens xs ++ tokens ys :=
  List.map_append

@[simp] theorem length_tokens (ls : List Str) : (tokens ls).length = ls.length := List.length_map _

theorem tokens_injective : Function.Injective tokens := List.map_injective_iff.mpr token_injective

theorem any_mem_tokens_iff {ls : List Str} : Token.any ∈ tokens ls ↔ doubleStar ∈ ls := by
  unfold tokens
  rw [← token_doubleStar, List.mem_map_of_injective token_injective]

/-- Labels other than `*` and `**` are literal. -/
theorem tokens_of_literal {ls : List Str} (h1 : star ∉ ls) (h2 : doubleStar ∉ ls) :
    tokens ls = ls.map .lit :=
  List.map_congr_left fun _ hl =>
    token_of_literal (ne_of_mem_of_not_mem hl h1) (ne_of_mem_of_not_mem hl h2)

theorem not_mem_of_star_notMem {ls : List Str} (h : ∀ l ∈ ls, '*' ∉ l) :
    star ∉ ls ∧ doubleStar ∉ ls :=
  ⟨fun hm => h _ hm (by decide), fun hm => h _ hm (by decide)⟩

theorem tokens_of_star_notMem {ls : List Str} (h : ∀ l ∈ ls, '*' ∉ l) : tokens ls = ls.map .lit :=
  tokens_of_literal (not_mem_of_star_notMem h).1 (not_mem_of_star_notMem h).2

/-- Labels cover themselves, also when some of them are stars. -/
theorem covers_tokens_self (ls : List Str) : Covers (tokens ls) ls := by
  induction ls with
  | nil => exact .nil
  | cons l ls ih =>
    rw [tokens_cons]
    unfold token
    split_ifs
    · exact .one ih
    · exact .anyCons (.anyNil ih)
    · exact .lit ih

/-- A pattern that is not a lone star is read label by label. -/
theorem patternCovers_iff {p h : Str} (h1 : p ≠ star) (h2 : p ≠ doubleStar) :
    PatternCovers p h ↔ Covers (tokens (labels p)) (labels h) := by
  simp [PatternCovers, h1, h2]

end Scety
