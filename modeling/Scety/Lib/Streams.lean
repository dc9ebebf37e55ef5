import Mathlib.Data.List.Basic

/-!
# Deliveries of a stream

A run takes a stream piece by piece, in any segmentation.  `Delivers` says that the pieces that a
list of events took are those of the stream, in order: a read gets nothing only at the end of the
stream or into an empty slice, and no read fails.
-/

namespace Scety.Streams

variable {α β : Type*}

/-- What an event takes from a stream: a read into a slice of length `len`, all that is left, or a
read that fails. -/
inductive Taking (α : Type*) where
  | piece (len : ℕ) (data : List α)
  | rest (data : List α)
  | failed

/-- The events take the stream in order, and then perhaps stop before its end. -/
inductive Delivers (takes : β → Option (Taking α)) : List α → List β → Prop where
  | stop (stream : List α) : Delivers takes stream []
  | skip {ev : β} {stream : List α} {evs : List β} : takes ev = none →
      Delivers takes stream evs → Delivers takes stream (ev :: evs)
  | piece {ev : β} {len : ℕ} {data rest : List α} {evs : List β} :
      takes ev = some (.piece len data) → (data = [] → rest = [] ∨ len = 0) →
      Delivers takes rest evs → Delivers takes (data ++ rest) (ev :: evs)
  | rest {ev : β} {data : List α} {evs : List β} : takes ev = some (.rest data) →
      Delivers takes [] evs → Delivers takes data (ev :: evs)

variable {takes : β → Option (Taking α)} {ev : β} {evs : List β} {stream : List α}

theorem delivers_cons_piece_iff {len : ℕ} {data : List α} (h : takes ev = some (.piece len data)) :
    Delivers takes stream (ev :: evs) ↔
      ∃ rest, stream = data ++ rest ∧ (data = [] → rest = [] ∨ len = 0) ∧
        Delivers takes rest evs := by
  refine ⟨?_, ?_⟩
  · intro hd
    cases hd with
    | skip hnone _ => rw [h] at hnone; exact absurd hnone (by simp)
    | piece hpiece hempty hrest =>
      rw [h] at hpiece
      obtain ⟨rfl, rfl⟩ := Taking.piece.inj (Option.some.inj hpiece)
      exact ⟨_, rfl, hempty, hrest⟩
    | rest hrest _ => rw [h] at hrest; exact absurd hrest (by simp)
  · rintro ⟨rest, rfl, hempty, hrest⟩
    exact .piece h hempty hrest

theorem delivers_cons_rest_iff {data : List α} (h : takes ev = some (.rest data)) :
    Delivers takes stream (ev :: evs) ↔ stream = data ∧ Delivers takes [] evs := by
  refine ⟨?_, ?_⟩
  · intro hd
    cases hd with
    | skip hnone _ => rw [h] at hnone; exact absurd hnone (by simp)
    | piece hpiece _ _ => rw [h] at hpiece; exact absurd hpiece (by simp)
    | rest hrest hevs =>
      rw [h] at hrest
      obtain rfl := Taking.rest.inj (Option.some.inj hrest)
      exact ⟨rfl, hevs⟩
  · rintro ⟨rfl, hevs⟩
    exact .rest h hevs

theorem delivers_cons_skip_iff (h : takes ev = none) :
    Delivers takes stream (ev :: evs) ↔ Delivers takes stream evs := by
  refine ⟨?_, .skip h⟩
  intro hd
  cases hd with
  | skip _ hevs => exact hevs
  | piece hpiece _ _ => rw [h] at hpiece; exact absurd hpiece (by simp)
  | rest hrest _ => rw [h] at hrest; exact absurd hrest (by simp)

theorem not_delivers_cons_failed (h : takes ev = some .failed) :
    ¬ Delivers takes stream (ev :: evs) := by
  intro hd
  cases hd with
  | skip hnone _ => rw [h] at hnone; exact absurd hnone (by simp)
  | piece hpiece _ _ => rw [h] at hpiece; exact absurd hpiece (by simp)
  | rest hrest _ => rw [h] at hrest; exact absurd hrest (by simp)

theorem delivers_append_skip_iff {evs' : List β} (h : ∀ ev ∈ evs, takes ev = none) :
    Delivers takes stream (evs ++ evs') ↔ Delivers takes stream evs' := by
  induction evs with
  | nil => exact Iff.rfl
  | cons ev evs ih =>
    obtain ⟨hev, hevs⟩ := List.forall_mem_cons.mp h
    rw [List.cons_append, delivers_cons_skip_iff hev, ih hevs]

/-- Only the events that take something matter. -/
theorem delivers_filter_iff :
    Delivers takes stream (evs.filter fun ev => (takes ev).isSome) ↔ Delivers takes stream evs := by
  induction evs generalizing stream with
  | nil => exact Iff.rfl
  | cons ev evs ih =>
    rw [List.filter_cons]
    cases h : takes ev with
    | none => rw [if_neg (by simp), ih, delivers_cons_skip_iff h]
    | some taking =>
      rw [if_pos (show (some taking).isSome = true from rfl)]
      cases taking with
      | piece len data =>
        rw [delivers_cons_piece_iff h, delivers_cons_piece_iff h]
        simp only [ih]
      | rest data => rw [delivers_cons_rest_iff h, delivers_cons_rest_iff h, ih]
      | failed =>
        exact iff_of_false (not_delivers_cons_failed h) (not_delivers_cons_failed h)

/-- What an event takes. -/
def Taking.data : Taking α → List α
  | .piece _ data => data
  | .rest data => data
  | .failed => []

/-- What is taken comes from the front of the stream. -/
theorem Delivers.front (h : Delivers takes stream evs) :
    (evs.flatMap fun ev => ((takes ev).map Taking.data).getD []) <+: stream := by
  induction h with
  | stop stream => exact List.nil_prefix
  | skip hnone hevs ih =>
    rw [List.flatMap_cons, hnone]
    exact ih
  | piece hpiece hempty hrest ih =>
    rw [List.flatMap_cons, hpiece]
    exact (List.prefix_append_right_inj _).mpr ih
  | rest hrest hevs ih =>
    rw [List.flatMap_cons, hrest, List.prefix_nil.mp ih, List.append_nil]
    exact List.prefix_rfl

/-- The rest of the stream may be delivered afterwards. -/
theorem Delivers.exists_rest (h : Delivers takes stream evs) :
    ∃ rest, ∀ evs', Delivers takes rest evs' → Delivers takes stream (evs ++ evs') := by
  induction h with
  | stop stream => exact ⟨stream, fun _ h' => h'⟩
  | skip hnone hevs ih =>
    obtain ⟨rest, hrest⟩ := ih
    exact ⟨rest, fun evs' h' => .skip hnone (hrest evs' h')⟩
  | piece hpiece hempty hevs ih =>
    obtain ⟨rest, hrest⟩ := ih
    exact ⟨rest, fun evs' h' => .piece hpiece hempty (hrest evs' h')⟩
  | rest hdata hevs ih =>
    obtain ⟨rest, hrest⟩ := ih
    exact ⟨rest, fun evs' h' => .rest hdata (hrest evs' h')⟩

end Scety.Streams
