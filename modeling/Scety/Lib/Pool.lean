import Mathlib.Data.List.Basic
import Mathlib.Logic.Relation

/-!
# Pools of tasks

A pool is a list of tasks that come and go.  A step of the pool spawns a task, lets one task take a step
of its own, removes one, or leaves the pool alone; so what every new task has and every step of a task
keeps holds of all tasks in every interleaving.
-/

namespace Scety.Transition

variable {κ : Type*} {Spawn : κ → Prop} {Step : κ → κ → Prop} {P : κ → Prop}

/-- A step of a pool, where new tasks satisfy `Spawn` and `Step` are the steps of a task. -/
inductive PoolStep (Spawn : κ → Prop) (Step : κ → κ → Prop) : List κ → List κ → Prop where
  | idle (l) : PoolStep Spawn Step l l
  | spawn {c l} : Spawn c → PoolStep Spawn Step l (c :: l)
  | step {c c' l₁ l₂} : Step c c' → PoolStep Spawn Step (l₁ ++ c :: l₂) (l₁ ++ c' :: l₂)
  | remove {c l₁ l₂} : PoolStep Spawn Step (l₁ ++ c :: l₂) (l₁ ++ l₂)

/-- What holds of all tasks. -/
theorem PoolStep.forall_mem {l l' : List κ} (h : PoolStep Spawn Step l l')
    (hspawn : ∀ c, Spawn c → P c) (hstep : ∀ c c', P c → Step c c' → P c') (hl : ∀ c ∈ l, P c) :
    ∀ c ∈ l', P c := by
  cases h with
  | idle => exact hl
  | spawn hc => exact List.forall_mem_cons.mpr ⟨hspawn _ hc, hl⟩
  | step hc =>
    obtain ⟨h₁, h₂⟩ := List.forall_mem_append.mp hl
    obtain ⟨hc₀, h₂⟩ := List.forall_mem_cons.mp h₂
    exact List.forall_mem_append.mpr ⟨h₁, List.forall_mem_cons.mpr ⟨hstep _ _ hc₀ hc, h₂⟩⟩
  | remove =>
    obtain ⟨h₁, h₂⟩ := List.forall_mem_append.mp hl
    exact List.forall_mem_append.mpr ⟨h₁, (List.forall_mem_cons.mp h₂).2⟩

end Scety.Transition
