import Mathlib.Data.Nat.Basic
import Mathlib.Logic.Relation

/-!
# Labelled transition systems

The states a system reaches, the rule that an inductive invariant holds in all of them, the rule
that a system whose steps are steps (or no steps) of another reaches what the other reaches, the
states where a measure stops it, the restriction of a system to some labels, or to some labels in each
state, and runs with their labels.
-/

namespace Scety.Transition

/-- A labelled transition system. -/
structure System (σ ℓ : Type*) where
  init : σ → Prop
  step : σ → ℓ → σ → Prop

variable {σ τ ℓ m : Type*}

/-- The states that the runs of a system reach. -/
inductive System.Reachable (S : System σ ℓ) : σ → Prop where
  | init {s} : S.init s → S.Reachable s
  | step {s a s'} : S.Reachable s → S.step s a s' → S.Reachable s'

/-- An invariant: it holds initially and every step from a reachable state keeps it. -/
theorem System.Reachable.invariant {S : System σ ℓ} {I : σ → Prop} (hinit : ∀ s, S.init s → I s)
    (hstep : ∀ s a s', S.Reachable s → I s → S.step s a s' → I s') {s : σ} (h : S.Reachable s) :
    I s := by
  induction h with
  | init h => exact hinit _ h
  | step hr h ih => exact hstep _ _ _ hr ih h

/-- A refinement mapping: every step of `S` is a step of `T` or leaves the image alone. -/
theorem System.Reachable.map {S : System σ ℓ} {T : System τ m} {f : σ → τ}
    (hinit : ∀ s, S.init s → T.init (f s))
    (hstep : ∀ s a s', S.Reachable s → S.step s a s' → f s' = f s ∨ ∃ b, T.step (f s) b (f s'))
    {s : σ} (h : S.Reachable s) : T.Reachable (f s) := by
  induction h with
  | init h => exact .init (hinit _ h)
  | step hr h ih =>
    rcases hstep _ _ _ hr h with heq | ⟨b, hb⟩
    · rw [heq]
      exact ih
    · exact .step ih hb

/-- If a measure decreases with every step, then every run can be continued to one that cannot. -/
theorem System.Reachable.exists_terminal {S : System σ ℓ} (measure : σ → ℕ)
    (hstep : ∀ s a s', S.Reachable s → S.step s a s' → measure s' < measure s) {s : σ}
    (h : S.Reachable s) : ∃ t, S.Reachable t ∧ ∀ a t', ¬ S.step t a t' := by
  induction hn : measure s using Nat.strongRecOn generalizing s with
  | ind n ih =>
    by_cases hterminal : ∀ a t', ¬ S.step s a t'
    · exact ⟨s, h, hterminal⟩
    · simp only [not_forall, not_not] at hterminal
      obtain ⟨a, s', hs'⟩ := hterminal
      have hlt := hstep s a s' h hs'
      rw [hn] at hlt
      exact ih _ hlt (h.step hs') rfl

/-- The system with only the steps whose label satisfies `A`. -/
def System.restrict (S : System σ ℓ) (A : ℓ → Prop) : System σ ℓ where
  init := S.init
  step s a s' := A a ∧ S.step s a s'

theorem System.Reachable.of_restrict {S : System σ ℓ} {A : ℓ → Prop} {s : σ}
    (h : (S.restrict A).Reachable s) : S.Reachable s := by
  induction h with
  | init h => exact .init h
  | step _ h ih => exact .step ih h.2

theorem System.Reachable.restrict {S : System σ ℓ} {A : ℓ → Prop}
    (hA : ∀ s a s', S.step s a s' → A a) {s : σ} (h : S.Reachable s) :
    (S.restrict A).Reachable s := by
  induction h with
  | init h => exact .init h
  | step _ h ih => exact .step ih ⟨hA _ _ _ h, h⟩

/-- The system with only the steps that `G` allows in the state before. -/
def System.when (S : System σ ℓ) (G : σ → ℓ → Prop) : System σ ℓ where
  init := S.init
  step s a s' := G s a ∧ S.step s a s'

theorem System.Reachable.of_when {S : System σ ℓ} {G : σ → ℓ → Prop} {s : σ}
    (h : (S.when G).Reachable s) : S.Reachable s := by
  induction h with
  | init h => exact .init h
  | step _ h ih => exact .step ih h.2

/-- A run, with its labels. -/
inductive System.Run (S : System σ ℓ) : σ → List ℓ → σ → Prop where
  | nil (s) : S.Run s [] s
  | cons {s a s' as t} : S.step s a s' → S.Run s' as t → S.Run s (a :: as) t

/-- If the steps with some labels lower a measure and no step raises it, then a run has at most as many
of them as the measure says. -/
theorem System.Run.count_le {S : System σ ℓ} {counts : ℓ → Bool} {measure : σ → ℕ} {I : σ → Prop}
    (hI : ∀ s a s', I s → S.step s a s' → I s')
    (hle : ∀ s a s', I s → S.step s a s' → measure s' + (if counts a then 1 else 0) ≤ measure s)
    {s t : σ} {as : List ℓ} (h : S.Run s as t) (hs : I s) :
    measure t + as.countP counts ≤ measure s ∧ I t := by
  induction h with
  | nil s => exact ⟨Nat.le_refl _, hs⟩
  | cons hstep _ ih =>
    obtain ⟨hrest, hlast⟩ := ih (hI _ _ _ hs hstep)
    have hone := hle _ _ _ hs hstep
    rw [List.countP_cons]
    exact ⟨by omega, hlast⟩

end Scety.Transition
