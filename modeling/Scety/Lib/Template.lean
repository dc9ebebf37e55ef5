import Mathlib.Data.List.Infix

/-!
# Filling in a template

`DiffersOnlyAt holes s t`: `t` is the template `s` with any texts in the place of some of its holes,
and everything else as it was.
-/

namespace Scety.Template

variable {α : Type*} {holes : List (List α)}

inductive DiffersOnlyAt (holes : List (List α)) : List α → List α → Prop where
  | nil : DiffersOnlyAt holes [] []
  | cons (a : α) {s t : List α} : DiffersOnlyAt holes s t → DiffersOnlyAt holes (a :: s) (a :: t)
  | hole {h : List α} (text : List α) {s t : List α} : h ∈ holes → DiffersOnlyAt holes s t →
      DiffersOnlyAt holes (h ++ s) (text ++ t)

theorem DiffersOnlyAt.append {s t : List α} (h : DiffersOnlyAt holes s t) (u : List α) :
    DiffersOnlyAt holes (u ++ s) (u ++ t) := by
  induction u with
  | nil => exact h
  | cons a u ih => exact .cons a ih

theorem DiffersOnlyAt.refl (s : List α) : DiffersOnlyAt holes s s := by
  have hnil : DiffersOnlyAt holes [] [] := .nil
  have h := hnil.append s
  rwa [List.append_nil] at h

end Scety.Template
