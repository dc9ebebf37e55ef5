import Mathlib.Data.List.Induction
import Scety.Lib.Effects

/-!
# Protocols of operations

A monitor reads the events of a run one after the other and refuses those that its protocol does not
allow.  A program obeys it if it never shows it an event that it refuses, whatever the answers are; the
rules are those of sequencing, of early return with an error, and of a program under a timer.
-/

universe u v w

namespace Scety.Effects

/-- An automaton that reads events and may refuse them. -/
structure Monitor (E : Type u) (R : E → Type v) (S : Type*) where
  next : S → Event E R → Option S

variable {E : Type u} {R : E → Type v} {S : Type*} {α β : Type w} {ε : Type w}

namespace Monitor

variable (M : Monitor E R S)

/-- The state after the events of a trace. -/
def after (s : S) : List (Event E R) → Option S
  | [] => some s
  | ev :: tr => (M.next s ev).bind fun s' => after s' tr

variable {M} {s t : S} {tr tr' : List (Event E R)} {ev : Event E R}

theorem after_cons_iff :
    M.after s (ev :: tr) = some t ↔ ∃ s', M.next s ev = some s' ∧ M.after s' tr = some t :=
  Option.bind_eq_some_iff

theorem after_append_iff :
    M.after s (tr ++ tr') = some t ↔ ∃ s', M.after s tr = some s' ∧ M.after s' tr' = some t := by
  induction tr generalizing s with
  | nil => simp [after]
  | cons ev tr ih =>
    rw [List.cons_append, after_cons_iff]
    simp only [ih, after_cons_iff]
    refine ⟨?_, ?_⟩
    · rintro ⟨s₁, hev, s₂, htr, htr'⟩
      exact ⟨s₂, ⟨s₁, hev, htr⟩, htr'⟩
    · rintro ⟨s₂, ⟨s₁, hev, htr⟩, htr'⟩
      exact ⟨s₁, hev, s₂, htr, htr'⟩

theorem after_concat_iff :
    M.after s (tr ++ [ev]) = some t ↔ ∃ s', M.after s tr = some s' ∧ M.next s' ev = some t := by
  rw [after_append_iff]
  simp [after]

/-- What holds at the start and is kept by every event that the monitor accepts holds of all traces
that it accepts. -/
theorem after_invariant {J : List (Event E R) → S → Prop} (hstart : J [] s)
    (hstep : ∀ tr s₁ ev s₂, J tr s₁ → M.next s₁ ev = some s₂ → J (tr ++ [ev]) s₂)
    (h : M.after s tr = some t) : J tr t := by
  induction tr using List.reverseRecOn generalizing t with
  | nil =>
    obtain rfl := Option.some.inj h
    exact hstart
  | append_singleton tr ev ih =>
    obtain ⟨s', hs', hev⟩ := after_concat_iff.mp h
    exact hstep tr s' ev t (ih hs') hev

end Monitor

/-- Whatever the answers are, the monitor accepts the operations of the program, `I` holds before each
of them, and `post` at the end. -/
def Obeys (M : Monitor E R S) (I : S → Prop) (post : α → S → Prop) : Prog E R α → S → Prop
  | .pure a, s => post a s
  | .perform e k, s => I s ∧ ∀ r, ∃ s', M.next s ⟨e, r⟩ = some s' ∧ Obeys M I post (k r) s'

variable {M : Monitor E R S} {I I' : S → Prop} {s : S}

/-! ### Rules -/

section Rules

theorem Obeys.mono {post post' : α → S → Prop} {p : Prog E R α} (h : Obeys M I post p s)
    (hI : ∀ s, I s → I' s) (hpost : ∀ a s, post a s → post' a s) : Obeys M I' post' p s := by
  induction p generalizing s with
  | pure a => exact hpost a s h
  | perform e k ih =>
    refine ⟨hI s h.1, ?_⟩
    intro r
    obtain ⟨s', hs', hk⟩ := h.2 r
    exact ⟨s', hs', ih r hk⟩

theorem Obeys.bind {post : β → S → Prop} {p : Prog E R α} {f : α → Prog E R β}
    (h : Obeys M I (fun a s => Obeys M I post (f a) s) p s) : Obeys M I post (p >>= f) s := by
  show Obeys M I post (p.bind f) s
  induction p generalizing s with
  | pure a => exact h
  | perform e k ih =>
    refine ⟨h.1, ?_⟩
    intro r
    obtain ⟨s', hs', hk⟩ := h.2 r
    exact ⟨s', hs', ih r hk⟩

theorem Obeys.map {post : β → S → Prop} {p : Prog E R α} {f : α → β}
    (h : Obeys M I (fun a => post (f a)) p s) : Obeys M I post (f <$> p) s :=
  Obeys.bind h

/-- Sequencing with early return. -/
theorem Obeys.bind_run {post : Except ε α → S → Prop} {post' : Except ε β → S → Prop}
    {p : ExceptT ε (Prog E R) α} {f : α → ExceptT ε (Prog E R) β} (h : Obeys M I post p.run s)
    (herror : ∀ e s, post (.error e) s → post' (.error e) s)
    (hok : ∀ a s, post (.ok a) s → Obeys M I post' (f a).run s) :
    Obeys M I post' (p >>= f).run s := by
  show Obeys M I post' (p.run >>= ExceptT.bindCont f) s
  refine Obeys.bind (h.mono (fun _ hI => hI) ?_)
  intro r s' hr
  cases r with
  | error e => exact herror e s' hr
  | ok a => exact hok a s' hr

/-- A program runs under a timer if `I` holds wherever the timer may fire: the monitor passes over a
timer that does not fire, and accepts one that does. -/
theorem Obeys.withTimer {timer : E} {fires : R timer → Bool} {post : Option α → S → Prop}
    {p : Prog E R α} (hpass : ∀ s t, I s → fires t = false → M.next s ⟨timer, t⟩ = some s)
    (hfire : ∀ s t, I s → fires t = true → ∃ s', M.next s ⟨timer, t⟩ = some s' ∧ post none s')
    (h : Obeys M I (fun a => post (some a)) p s) :
    Obeys M I post (Effects.withTimer timer fires p) s := by
  induction p generalizing s with
  | pure a => exact h
  | perform e k ih =>
    refine ⟨h.1, ?_⟩
    intro t
    cases ht : fires t with
    | true =>
      obtain ⟨s', hs', hpost⟩ := hfire s t h.1 ht
      refine ⟨s', hs', ?_⟩
      dsimp only
      rw [if_pos ht]
      exact hpost
    | false =>
      refine ⟨s, hpass s t h.1 ht, ?_⟩
      dsimp only
      rw [if_neg (by simp [ht])]
      refine ⟨h.1, ?_⟩
      intro r
      obtain ⟨s', hs', hk⟩ := h.2 r
      exact ⟨s', hs', ih r hk⟩

end Rules

/-! ### Runs -/

/-- Every run of a program that obeys is accepted so far, and what is left of the program obeys from
there. -/
theorem Obeys.of_reaches {post : α → S → Prop} {p q : Prog E R α} {tr : List (Event E R)}
    (h : Obeys M I post p s) (hr : Reaches p tr q) :
    ∃ s', M.after s tr = some s' ∧ Obeys M I post q s' := by
  induction hr generalizing s with
  | refl p => exact ⟨s, rfl, h⟩
  | perform r hr ih =>
    obtain ⟨s₁, hs₁, hk⟩ := h.2 r
    obtain ⟨s', hs', hq⟩ := ih hk
    exact ⟨s', Monitor.after_cons_iff.mpr ⟨s₁, hs₁, hs'⟩, hq⟩

/-- The operation that comes next may be answered by anything. -/
theorem Reaches.concat {p : Prog E R α} {e : E} {k : R e → Prog E R α} {tr : List (Event E R)}
    (h : Reaches p tr (.perform e k)) (r : R e) : Reaches p (tr ++ [⟨e, r⟩]) (k r) := by
  generalize hq : Prog.perform e k = q at h
  induction h with
  | refl p =>
    subst hq
    exact .perform r (.refl _)
  | perform r' h ih => exact .perform r' (ih hq)

end Scety.Effects
