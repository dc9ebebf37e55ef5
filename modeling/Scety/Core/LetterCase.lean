import Scety.Basic

/-!
# Letter case

`eq_ignore_ascii_case` compares the lower-case forms.  Dots and stars have no case, so changing the
case of a name changes its labels one by one.
-/

namespace Scety

/-- `s.to_ascii_lowercase()`. -/
def lowercase (s : Str) : Str := s.map Char.toLower

/-- `a.eq_ignore_ascii_case(b)`. -/
def strEqIgnoreAsciiCase (a b : Str) : Bool := lowercase a = lowercase b

/-- Equal up to ASCII case. -/
def SameUpToCase (a b : Str) : Prop := lowercase a = lowercase b

instance (a b : Str) : Decidable (SameUpToCase a b) := by unfold SameUpToCase; infer_instance

theorem strEqIgnoreAsciiCase_iff {a b : Str} :
    strEqIgnoreAsciiCase a b = true ↔ SameUpToCase a b := decide_eq_true_iff

namespace SameUpToCase

variable {a b d : Str}

theorem refl (a : Str) : SameUpToCase a a := rfl

theorem symm (h : SameUpToCase a b) : SameUpToCase b a := Eq.symm h

theorem trans (h : SameUpToCase a b) (h' : SameUpToCase b d) : SameUpToCase a d := Eq.trans h h'

theorem length_eq (h : SameUpToCase a b) : a.length = b.length := by
  have hlen := congrArg List.length h
  rwa [lowercase, lowercase, List.length_map, List.length_map] at hlen

end SameUpToCase

/-- Only a character without case becomes one. -/
theorem toLower_eq_iff {c d : Char} (hd : d.isAlpha = false) : c.toLower = d ↔ c = d := by
  have hfix : ∀ {e : Char}, e.isAlpha = false → e.toLower = e := by
    intro e he
    rw [Char.isAlpha, Bool.or_eq_false_iff] at he
    exact Char.toLower_eq_of_not_isUpper (by simp [he.1])
  refine ⟨fun h => ?_, by rintro rfl; exact hfix hd⟩
  have hc : c.isAlpha = false := by rw [← Char.isAlpha_toLower_eq_isAlpha, h, hd]
  rw [← h, hfix hc]

theorem mem_lowercase_iff {s : Str} {d : Char} (hd : d.isAlpha = false) :
    d ∈ lowercase s ↔ d ∈ s := by
  unfold lowercase
  rw [List.mem_map]
  refine ⟨?_, fun h => ⟨d, h, (toLower_eq_iff hd).mpr rfl⟩⟩
  rintro ⟨c, hc, h⟩
  rwa [← (toLower_eq_iff hd).mp h]

/-- Names that are equal up to case have the same characters without case. -/
theorem SameUpToCase.mem_iff {a b : Str} (h : SameUpToCase a b) {d : Char}
    (hd : d.isAlpha = false) : d ∈ a ↔ d ∈ b := by
  rw [← mem_lowercase_iff hd, ← @mem_lowercase_iff b d hd, h]

/-- A text without letters is only equal to itself. -/
theorem lowercase_eq_iff {s w : Str} (hw : ∀ c ∈ w, c.isAlpha = false) :
    lowercase s = w ↔ s = w := by
  induction w generalizing s with
  | nil => exact List.map_eq_nil_iff
  | cons d w ih =>
    obtain ⟨hd, hw⟩ := List.forall_mem_cons.mp hw
    cases s with
    | nil => exact iff_of_false (List.cons_ne_nil _ _).symm (List.cons_ne_nil _ _).symm
    | cons c s =>
      have hcons : lowercase (c :: s) = c.toLower :: lowercase s := rfl
      rw [hcons, List.cons_eq_cons, List.cons_eq_cons, ih hw, toLower_eq_iff hd]

/-! ### Labels -/

theorem lowercase_joinDots (ls : List Str) :
    lowercase (joinDots ls) = joinDots (ls.map lowercase) := by
  unfold lowercase joinDots
  induction ls with
  | nil => rfl
  | cons l ls ih =>
    cases ls with
    | nil => simp
    | cons m ls =>
      rw [List.intercalate_cons_cons, List.map_append, List.map_append, ih]
      exact List.intercalate_cons_cons.symm

/-- The labels change one by one. -/
theorem labels_lowercase (s : Str) : labels (lowercase s) = (labels s).map lowercase := by
  have hdot : ∀ l ∈ (labels s).map lowercase, '.' ∉ l := by
    intro l hl
    obtain ⟨m, hm, rfl⟩ := List.mem_map.mp hl
    exact mt (mem_lowercase_iff (by decide)).mp (dot_notMem_of_mem_labels hm)
  have hne : (labels s).map lowercase ≠ [] :=
    List.ne_nil_of_length_pos (by rw [List.length_map]; exact labels_length_pos s)
  rw [← labels_joinDots hdot hne, ← lowercase_joinDots, joinDots_labels]

end Scety
