import Scety.Lib.Effects

/-!
# Computations that take time

A computation with the time that it takes, and what a timeout makes of it.  A program that is written
once over any monad with timeouts is run on the clock here, and by its operations in `Prog`; `Realises`
relates the two.
-/

universe u v w

namespace Scety

/-- A way to give a computation up after some time. -/
class MonadTimeout (m : Type u → Type v) where
  timeout {α : Type u} (duration : ℕ) (future : m α) : m (Option α)

/-- A result, and the time until it is there. -/
structure Timed (α : Type u) where
  takes : ℕ
  result : α

namespace Timed

variable {α β : Type u} {ε : Type u}

instance : Monad Timed where
  pure a := ⟨0, a⟩
  bind x f := ⟨x.takes + (f x.result).takes, (f x.result).result⟩

/-- A result that is there when the time is up counts. -/
instance : MonadTimeout Timed where
  timeout duration x := if x.takes ≤ duration then ⟨x.takes, some x.result⟩ else ⟨duration, none⟩

theorem timeout_of_le {duration : ℕ} {x : Timed α} (h : x.takes ≤ duration) :
    MonadTimeout.timeout duration x = ⟨x.takes, some x.result⟩ := if_pos h

theorem timeout_of_lt {duration : ℕ} {x : Timed α} (h : duration < x.takes) :
    MonadTimeout.timeout duration x = ⟨duration, none⟩ := if_neg (Nat.not_le.mpr h)

/-! ### The clock -/

/-- The computation is not over before this time. -/
def OpenAt (x : Timed α) (t : ℕ) : Prop := t ≤ x.takes

/-- The clock does not pass the bound before the computation is over. -/
def StaysWithin (bound : ℕ) (x : Timed α) : Prop := ∀ t, x.OpenAt t → t ≤ bound

theorem staysWithin_iff {bound : ℕ} {x : Timed α} : x.StaysWithin bound ↔ x.takes ≤ bound :=
  ⟨fun h => h x.takes (Nat.le_refl _), fun h _ ht => Nat.le_trans ht h⟩

/-! ### Early return with an error -/

theorem run_bind (x : ExceptT ε Timed α) (f : α → ExceptT ε Timed β) :
    (x >>= f).run = ⟨x.run.takes + (ExceptT.bindCont f x.run.result).takes,
      (ExceptT.bindCont f x.run.result).result⟩ := rfl

theorem run_bind_ok {x : ExceptT ε Timed α} {f : α → ExceptT ε Timed β} {a : α}
    (h : x.run.result = .ok a) :
    (x >>= f).run = ⟨x.run.takes + (f a).run.takes, (f a).run.result⟩ := by
  rw [run_bind, h]
  rfl

theorem run_bind_error {x : ExceptT ε Timed α} {f : α → ExceptT ε Timed β} {e : ε}
    (h : x.run.result = .error e) : (x >>= f).run = ⟨x.run.takes, .error e⟩ := by
  rw [run_bind, h]
  rfl

end Timed

/-! ### Timed computations and programs -/

namespace Effects

section Realises

variable {E : Type v} {R : E → Type w} {α β : Type u} {x : Timed α} {p : Prog E R α}

/-- Some complete run of the program ends with the result of the computation. -/
def Realises (x : Timed α) (p : Prog E R α) : Prop := ∃ tr, Runs p tr x.result

theorem realises_pure (a : α) : Realises (pure a) (pure a : Prog E R α) := ⟨[], .pure a⟩

theorem Realises.bind {f : α → Timed β} {g : α → Prog E R β} (h : Realises x p)
    (hf : ∀ a, Realises (f a) (g a)) : Realises (x >>= f) (p >>= g) := by
  obtain ⟨tr₁, h₁⟩ := h
  obtain ⟨tr₂, h₂⟩ := hf x.result
  exact ⟨tr₁ ++ tr₂, runs_bind_iff.mpr ⟨x.result, tr₁, tr₂, rfl, h₁, h₂⟩⟩

theorem Realises.map (f : α → β) (h : Realises x p) : Realises (f <$> x) (f <$> p) := by
  obtain ⟨tr, htr⟩ := h
  exact ⟨tr, runs_map_iff.mpr ⟨x.result, rfl, htr⟩⟩

/-- The first program ends with an error, or the second one goes on. -/
theorem Realises.bindExcept {ε : Type u} {x : ExceptT ε Timed α} {p : ExceptT ε (Prog E R) α}
    {f : α → ExceptT ε Timed β} {g : α → ExceptT ε (Prog E R) β} (h : Realises x.run p.run)
    (hf : ∀ a, Realises (f a).run (g a).run) : Realises (x >>= f).run (p >>= g).run := by
  have hcont : ∀ r, Realises (ExceptT.bindCont f r) (ExceptT.bindCont g r) := by
    intro r
    cases r with
    | ok a => exact hf a
    | error e => exact realises_pure (Except.error e)
  exact Realises.bind h hcont

/-- The program performs an operation before it ends. -/
def Prog.Waits : Prog E R α → Prop
  | .pure _ => False
  | .perform _ _ => True

variable {timer : E} {fires : R timer → Bool}

/-- A run during which the timer does not fire. -/
theorem Runs.underTimer {t : R timer} (ht : fires t = false) {tr : List (Event E R)} {a : α}
    (h : Runs p tr a) : ∃ tr', Runs (Effects.withTimer timer fires p) tr' (some a) := by
  induction h with
  | pure a => exact ⟨[], .pure (some a)⟩
  | perform r h ih =>
    obtain ⟨tr', h'⟩ := ih
    exact ⟨_, Runs.withTimer ht r h'⟩

/-- The timer fires where the computation takes longer. -/
theorem Realises.timeout (hlate : ∃ t, fires t = true) (hearly : ∃ t, fires t = false)
    (hwaits : p.Waits) (duration : ℕ) (h : Realises x p) :
    Realises (MonadTimeout.timeout duration x) (withTimer timer fires p) := by
  obtain ⟨tr, htr⟩ := h
  by_cases hle : x.takes ≤ duration
  · obtain ⟨t, ht⟩ := hearly
    rw [Timed.timeout_of_le hle]
    exact htr.underTimer ht
  · obtain ⟨t, ht⟩ := hlate
    rw [Timed.timeout_of_lt (Nat.not_le.mp hle)]
    cases p with
    | pure a => exact absurd hwaits (fun h => h)
    | perform e k =>
      refine ⟨[⟨timer, t⟩], .perform t ?_⟩
      rw [if_pos ht]
      exact .pure none

end Realises

end Effects

end Scety
