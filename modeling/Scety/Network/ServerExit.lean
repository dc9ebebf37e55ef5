import Scety.Network.ServerRuns

/-!
# How the process ends

The exit code tells why: 1 if a listener has ended before Ctrl-C, or if there is none, and 0 if all have
ended after it.  After Ctrl-C only the listeners have to end, each of which takes at most two steps; the
tasks that serve the clients are waited for by nobody.
-/

namespace Scety

open Effects Transition

variable {S : Server} {s s' : ServerState} {a : ServerAction}

/-! ### The exit code -/

/-- What an exit code says of the listeners. -/
def ServerState.ExitTells (s : ServerState) : Prop :=
  ∀ code, s.main = .exited code →
    (code = 0 ∧ ∀ loop ∈ s.loops, loop.phase = .ended) ∨
      (code = 1 ∧ (s.loops = [] ∨ ∃ loop ∈ s.loops, loop.phase = .ended))

theorem exitTells_of_reachable (h : (serverSystem S).Reachable s) : s.ExitTells := by
  refine h.invariant (I := ServerState.ExitTells) ?_ ?_
  · rintro s rfl code hcode
    exact nomatch hcode
  · intro s a s' _ _ hstep code hcode
    obtain ⟨halive, heq | ⟨-, -, hmain⟩ | ⟨-, -, hmain, hloops, hended⟩ | ⟨-, -, hmain, hloops, hended⟩⟩ :=
      main_of_step hstep
    · rw [heq] at hcode
      rw [hcode] at halive
      rcases halive with h | h <;> exact nomatch h
    · rw [hmain] at hcode
      exact nomatch hcode
    · obtain rfl : 1 = code := Main.exited.inj (hmain.symm.trans hcode)
      rw [hloops]
      exact Or.inr ⟨rfl, hended⟩
    · obtain rfl : 0 = code := Main.exited.inj (hmain.symm.trans hcode)
      rw [hloops]
      exact Or.inl ⟨rfl, hended⟩

/-- Without Ctrl-C, the process runs or has exited with 1. -/
theorem main_of_no_ctrlC (h : ((serverSystem S).restrict (· ≠ .ctrlC)).Reachable s) :
    s.main = .running ∨ s.main = .exited 1 := by
  refine h.invariant (I := fun s => s.main = .running ∨ s.main = .exited 1) ?_ ?_
  · rintro s rfl
    exact Or.inl rfl
  · intro s a s' _ hs hstep
    obtain ⟨-, heq | ⟨hctrlC, -⟩ | ⟨-, -, hmain, -⟩ | ⟨-, hdraining, -⟩⟩ := main_of_step hstep.2
    · rw [heq]
      exact hs
    · exact absurd hctrlC hstep.1
    · exact Or.inr hmain
    · rw [hdraining] at hs
      rcases hs with h | h <;> exact nomatch h

/-- A listener ends while `run` is in its `select!`. -/
def ServerState.LosesListener (s : ServerState) (a : ServerAction) : Prop :=
  s.main = .running ∧ ∃ l, a = .failed l ∨ a = .stopped l

/-- While no listener ends before Ctrl-C, none has ended before it, and the code is not 1. -/
theorem main_of_no_loss (hlisteners : S.listeners ≠ [])
    (h : ((serverSystem S).when fun s a => ¬ s.LosesListener a).Reachable s) :
    (s.main = .running → ∀ loop ∈ s.loops, loop.phase ≠ .ended) ∧ s.main ≠ .exited 1 := by
  refine h.invariant
    (I := fun s => (s.main = .running → ∀ loop ∈ s.loops, loop.phase ≠ .ended) ∧ s.main ≠ .exited 1) ?_ ?_
  · rintro s rfl
    refine ⟨fun _ => ?_, fun h => nomatch h⟩
    simp
  · intro s a s' hr ⟨hphases, hcode⟩ ⟨hno, hstep⟩
    have hloops : s.loops ≠ [] := by
      intro hnil
      refine hlisteners ?_
      rw [← listeners_of_reachable hr.of_when, hnil, List.map_nil]
    obtain ⟨halive, heq | ⟨-, -, hmain⟩ | ⟨-, hrunning, -, -, hnil | ⟨loop, hloop, hended⟩⟩ |
      ⟨-, -, hmain, -⟩⟩ := main_of_step hstep
    · refine ⟨?_, by rw [heq]; exact hcode⟩
      rw [heq]
      intro hrunning
      rcases loops_of_step hstep with ⟨-, hsame⟩ | ⟨l, before, after, -, -, l₁, l₂, hbefore, hafter, hhow⟩
      · rw [hsame]
        exact hphases hrunning
      · have hold := hphases hrunning
        rw [hbefore] at hold
        rw [hafter]
        rcases hhow with ⟨-, rfl, -⟩ | ⟨-, -, hfailed⟩ | ⟨-, -, hstopped, -⟩
        · intro loop hloop
          rcases List.mem_append.mp hloop with hloop | hloop
          · exact hold loop (List.mem_append_left _ hloop)
          · rcases List.mem_cons.mp hloop with rfl | hloop
            · simp
            · exact hold loop (List.mem_append_right _ (List.mem_cons_of_mem _ hloop))
        · exact absurd ⟨hrunning, l, Or.inl hfailed⟩ hno
        · exact absurd ⟨hrunning, l, Or.inr hstopped⟩ hno
    · rw [hmain]
      exact ⟨fun h => (nomatch h), fun h => nomatch h⟩
    · exact absurd hnil hloops
    · exact absurd hended (hphases hrunning loop hloop)
    · rw [hmain]
      exact ⟨fun h => (nomatch h), fun h => nomatch h⟩

/-- **The exit code tells why the process has ended**: 0 if all listeners have ended after Ctrl-C, 1 if
one of them ended, or if there is none; without Ctrl-C it is never 0, and with a listener and none that
ends before Ctrl-C it is never 1. -/
theorem exit_code_tells (S : Server) :
    (∀ s, (serverSystem S).Reachable s → s.ExitTells) ∧
    (∀ s, ((serverSystem S).restrict (· ≠ .ctrlC)).Reachable s →
      s.main = .running ∨ s.main = .exited 1) ∧
    (S.listeners ≠ [] → ∀ s, ((serverSystem S).when fun s a => ¬ s.LosesListener a).Reachable s →
      s.main ≠ .exited 1) :=
  ⟨fun _ => exitTells_of_reachable, fun _ => main_of_no_ctrlC,
    fun hlisteners _ hs => (main_of_no_loss hlisteners hs).2⟩

/-! ### After Ctrl-C -/

/-- The steps that a listener has left. -/
def LoopPhase.steps : LoopPhase → ℕ
  | .starting => 2
  | .accepting => 1
  | .ended => 0

/-- The steps that the listeners and `run` have left. -/
def ServerState.stepsLeft (s : ServerState) : ℕ :=
  (s.loops.map fun loop => loop.phase.steps).sum +
    match s.main with
    | .exited _ => 0
    | _ => 1

/-- The step is one of a listener, or the last one of `run`. -/
def ServerAction.ends : ServerAction → Bool
  | .joined => true
  | a => a.listener.isSome

theorem stepsLeft_le (h : (serverSystem S).Reachable s) :
    s.stepsLeft ≤ 2 * S.listeners.length + 1 := by
  have hlength : s.loops.length = S.listeners.length := by
    rw [← listeners_of_reachable h, List.length_map]
  have hsum : ∀ loops : List Loop, (loops.map fun loop => loop.phase.steps).sum ≤ 2 * loops.length := by
    intro loops
    induction loops with
    | nil => exact Nat.le_refl _
    | cons loop loops ih =>
      have hone : loop.phase.steps ≤ 2 := by cases loop.phase <;> decide
      rw [List.map_cons, List.sum_cons, List.length_cons]
      omega
  have hloops := hsum s.loops
  unfold ServerState.stepsLeft
  rw [hlength] at hloops
  split <;> omega

/-- No step adds a step, and each of those that count takes one away. -/
theorem stepsLeft_of_step (h : ServerStep S s a s') :
    s'.stepsLeft + (if a.ends then 1 else 0) ≤ s.stepsLeft := by
  have hsum : ∀ (l : Listener) (before after : LoopPhase) (l₁ l₂ : List Loop),
      after.steps + 1 ≤ before.steps →
      ((l₁ ++ ⟨l, after⟩ :: l₂).map fun loop => loop.phase.steps).sum + 1 ≤
        ((l₁ ++ ⟨l, before⟩ :: l₂).map fun loop => loop.phase.steps).sum := by
    intro l before after l₁ l₂ hlt
    simp only [List.map_append, List.map_cons, List.sum_append, List.sum_cons]
    omega
  unfold ServerState.stepsLeft
  cases h with
  | ctrlC hmain =>
    rw [hmain]
    exact Nat.le_refl _
  | died hmain _ =>
    rw [hmain]
    exact Nat.le_succ _
  | joined hmain _ =>
    rw [hmain]
    exact Nat.le_refl _
  | @started l l₁ l₂ _ hloops _ =>
    have hlt := hsum l .starting .accepting l₁ l₂ (Nat.le_refl _)
    rw [hloops]
    simp only [ServerAction.ends, ServerAction.listener, Option.isSome_some, if_pos]
    omega
  | @failed l l₁ l₂ _ hloops =>
    have hlt := hsum l .starting .ended l₁ l₂ (by decide)
    rw [hloops]
    simp only [ServerAction.ends, ServerAction.listener, Option.isSome_some, if_pos]
    omega
  | @stopped l l₁ l₂ _ hloops _ =>
    have hlt := hsum l .accepting .ended l₁ l₂ (Nat.le_refl _)
    rw [hloops]
    simp only [ServerAction.ends, ServerAction.listener, Option.isSome_some, if_pos]
    omega
  | accept _ _ => exact Nat.le_refl _
  | task _ _ _ => exact Nat.le_refl _
  | ended _ _ _ => exact Nat.le_refl _

/-- While the process is draining, a step that counts is possible, which leaves the tasks alone. -/
theorem exists_step_of_draining (hmain : s.main = .draining) : ∃ a s', a.ends = true ∧
    ServerStep S s a s' ∧ s'.main.Cancelled ∧ s'.tasks = s.tasks ∧ s'.table = s.table := by
  by_cases hended : ∀ loop ∈ s.loops, loop.phase = .ended
  · exact ⟨.joined, _, rfl, .joined hmain hended, Or.inr rfl, rfl, rfl⟩
  · simp only [not_forall] at hended
    obtain ⟨⟨l, phase⟩, hloop, hphase⟩ := hended
    obtain ⟨l₁, l₂, hloops⟩ := List.append_of_mem hloop
    cases phase with
    | starting => exact ⟨.failed l, _, rfl, .failed (Or.inr hmain) hloops, Or.inl hmain, rfl, rfl⟩
    | accepting =>
      exact ⟨.stopped l, _, rfl, .stopped (Or.inr hmain) hloops (Or.inl hmain), Or.inl hmain, rfl, rfl⟩
    | ended => exact absurd rfl hphase

/-- So the process can exit with whatever its tasks are doing. -/
theorem exists_exit (hcancelled : s.main.Cancelled) : ∃ as t, (serverSystem S).Run s as t ∧
    t.main = .exited 0 ∧ t.tasks = s.tasks ∧ t.table = s.table := by
  induction hn : s.stepsLeft using Nat.strongRecOn generalizing s with
  | ind n ih =>
    rcases hcancelled with hmain | hmain
    · obtain ⟨a, s', hends, hstep, hcancelled', htasks, htable⟩ := exists_step_of_draining (S := S) hmain
      have hlt := stepsLeft_of_step hstep
      rw [hends, hn] at hlt
      obtain ⟨as, t, hrun, hexit, htasks', htable'⟩ := ih s'.stepsLeft hlt hcancelled' rfl
      exact ⟨a :: as, t, .cons hstep hrun, hexit, htasks'.trans htasks, htable'.trans htable⟩
    · exact ⟨[], s, .nil s, hmain, rfl, rfl⟩

/-- **The shutdown waits for the listeners only**: in every run from a state after Ctrl-C, the process
drains or has exited with 0; until then a step of a listener or of `run` is possible that waits for no
task, and there are at most two of them for each listener and one for `run`.  So from every such state
the process can exit while every task is where it was. -/
theorem shutdown_completes (h : (serverSystem S).Reachable s) (hmain : s.main = .draining) :
    (∀ as t, (serverSystem S).Run s as t → t.main.Cancelled ∧
      as.countP (·.ends) ≤ 2 * S.listeners.length + 1 ∧
        (t.main = .draining → ∃ a t', a.ends = true ∧ ServerStep S t a t' ∧ t'.tasks = t.tasks)) ∧
    ∃ as t, (serverSystem S).Run s as t ∧ t.main = .exited 0 ∧ t.tasks = s.tasks ∧
      t.table = s.table := by
  refine ⟨?_, exists_exit (Or.inl hmain)⟩
  intro as t hrun
  obtain ⟨hcount, hcancelled⟩ := hrun.count_le (I := fun s => s.main.Cancelled)
    (fun _ _ _ hI hstep => cancelled_of_step hstep hI) (fun _ _ _ _ hstep => stepsLeft_of_step hstep)
    (Or.inl hmain)
  have hbound := stepsLeft_le h
  refine ⟨hcancelled, by omega, ?_⟩
  intro hdraining
  obtain ⟨a, t', hends, hstep, -, htasks, -⟩ := exists_step_of_draining (S := S) hdraining
  exact ⟨a, t', hends, hstep, htasks⟩

/-- A client that was sent nothing, and is dropped. -/
theorem shutdown_completes_one : ∃ as t, (serverSystem oneServer).Run
    { oneState (.client (Server.startClient proxyContext)) with main := .draining } as t ∧
      t.main = .exited 0 ∧ t.tasks = [oneTask (.client (Server.startClient proxyContext))] := by
  have hdraining := reachable_oneState.step (ServerStep.ctrlC rfl)
  obtain ⟨as, t, hrun, hexit, htasks, -⟩ := (shutdown_completes hdraining rfl).2
  exact ⟨as, t, hrun, hexit, htasks⟩

end Scety
