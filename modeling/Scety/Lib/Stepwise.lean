import Scety.Lib.Monitor
import Scety.Lib.Transition

/-!
# Programs whose operations take several steps

Programs are started at any time and run at the same time on one device.  An operation may be in progress
for a while, and the others act on the device in between; a program that is killed takes no further step,
wherever it is.  The rule is that of rely and guarantee: what the answer of an operation shows its program,
and what an operation in progress relies on, the steps of the others leave alone.
-/

universe u v w

namespace Scety.Stepwise

open Transition Effects

variable {E : Type u} {R : E → Type v} {α : Type w} {ι D W : Type*}

/-- A program that was started, with its events so far, what is left of it, and how far its next operation
has come. -/
structure Task (ι : Type*) (E : Type u) (R : E → Type v) (α : Type w) (W : Type*) where
  label : ι
  events : List (Event E R)
  rest : Prog E R α
  progress : Option W

structure State (ι : Type*) (E : Type u) (R : E → Type v) (α : Type w) (W D : Type*) where
  device : D
  tasks : List (Task ι E R α W)

/-- `acts d e w next d'`: on the device `d` the operation, which has come as far as `w`, takes a step, with
which it comes as far as `next` or is answered, and `d'` is the device after it. -/
inductive Step (programs : ι → Prog E R α) (Starts : ι → Prop)
    (acts : D → (e : E) → Option W → W ⊕ R e → D → Prop) : State ι E R α W D → State ι E R α W D → Prop where
  | start {d tasks i} : Starts i →
      Step programs Starts acts ⟨d, tasks⟩ ⟨d, ⟨i, [], programs i, none⟩ :: tasks⟩
  | works {d d' i tr e k w w' l₁ l₂} : acts d e w (.inl w') d' →
      Step programs Starts acts ⟨d, l₁ ++ ⟨i, tr, .perform e k, w⟩ :: l₂⟩
        ⟨d', l₁ ++ ⟨i, tr, .perform e k, some w'⟩ :: l₂⟩
  | answers {d d' i tr e k w r l₁ l₂} : acts d e w (.inr r) d' →
      Step programs Starts acts ⟨d, l₁ ++ ⟨i, tr, .perform e k, w⟩ :: l₂⟩
        ⟨d', l₁ ++ ⟨i, tr ++ [⟨e, r⟩], k r, none⟩ :: l₂⟩

def system (programs : ι → Prog E R α) (Starts : ι → Prop)
    (acts : D → (e : E) → Option W → W ⊕ R e → D → Prop) (d₀ : D) : System (State ι E R α W D) Unit where
  init s := s = ⟨d₀, []⟩
  step s _ s' := Step programs Starts acts s s'

/-- What is known before a step of a task: `A` allows the operation, the device satisfies `J`, the events
have shown `K`, and the operation relies on `H` once it is in progress. -/
structure Ready (A : ι → List (Event E R) → E → Prop) (Starts : ι → Prop) (J : D → Prop)
    (K : Event E R → D → Prop) (H : E → W → D → Prop) (d : D) (i : ι) (tr : List (Event E R)) (e : E)
    (w : Option W) : Prop where
  starts : Starts i
  allowed : A i tr e
  device : J d
  shown : ∀ ev ∈ tr, K ev d
  progress : ∀ w' ∈ w, H e w' d

/-- Every step keeps `J`, sets up what it shows or relies on, and leaves alone what was shown to all tasks
and what they rely on. -/
structure Guarantees (A : ι → List (Event E R) → E → Prop) (Starts : ι → Prop)
    (acts : D → (e : E) → Option W → W ⊕ R e → D → Prop) (J : D → Prop) (K : Event E R → D → Prop)
    (H : E → W → D → Prop) : Prop where
  keeps {d i tr e w next d'} : Ready A Starts J K H d i tr e w → acts d e w next d' → J d'
  relies {d i tr e w w' d'} : Ready A Starts J K H d i tr e w → acts d e w (.inl w') d' → H e w' d'
  shows {d i tr e w r d'} : Ready A Starts J K H d i tr e w → acts d e w (.inr r) d' → K ⟨e, r⟩ d'
  shownStable {d i tr e w next d'} : Ready A Starts J K H d i tr e w → acts d e w next d' →
    ∀ ev, K ev d → K ev d'
  progressStable {d i tr e w next d'} : Ready A Starts J K H d i tr e w → acts d e w next d' →
    ∀ e' w', H e' w' d → H e' w' d'

variable {programs : ι → Prog E R α} {Starts : ι → Prop}
  {acts : D → (e : E) → Option W → W ⊕ R e → D → Prop} {d₀ : D} {A : ι → List (Event E R) → E → Prop}
  {J : D → Prop} {K : Event E R → D → Prop} {H : E → W → D → Prop}

/-- A task that is in order: a partial run of a program that may be started, with what it was shown and
what it relies on. -/
structure Task.Sound (programs : ι → Prog E R α) (Starts : ι → Prop) (K : Event E R → D → Prop)
    (H : E → W → D → Prop) (d : D) (t : Task ι E R α W) : Prop where
  starts : Starts t.label
  reaches : Reaches (programs t.label) t.events t.rest
  shown : ∀ ev ∈ t.events, K ev d
  progress : ∀ w ∈ t.progress, ∃ e k, t.rest = .perform e k ∧ H e w d

theorem Task.Sound.mono {d d' : D} {t : Task ι E R α W} (h : t.Sound programs Starts K H d)
    (hshown : ∀ ev, K ev d → K ev d') (hprogress : ∀ e w, H e w d → H e w d') :
    t.Sound programs Starts K H d' := by
  refine ⟨h.starts, h.reaches, fun ev hev => hshown ev (h.shown ev hev), fun w hw => ?_⟩
  obtain ⟨e, k, hrest, hH⟩ := h.progress w hw
  exact ⟨e, k, hrest, hprogress e w hH⟩

/-- The task that takes a step is ready for it. -/
theorem Task.Sound.ready {d : D} {i : ι} {tr : List (Event E R)} {e : E} {k : R e → Prog E R α} {w : Option W}
    (hA : ∀ i tr e k, Reaches (programs i) tr (.perform e k) → A i tr e)
    (h : Task.Sound programs Starts K H d ⟨i, tr, .perform e k, w⟩) (hJ : J d) :
    Ready A Starts J K H d i tr e w := by
  refine ⟨h.starts, hA i tr e k h.reaches, hJ, h.shown, ?_⟩
  intro w' hw
  obtain ⟨e', k', hrest, hH⟩ := h.progress w' hw
  obtain ⟨rfl, -⟩ := Prog.perform.inj hrest
  exact hH

/-- In every interleaving the device keeps `J` and all tasks are in order. -/
theorem Guarantees.of_reachable (h : Guarantees A Starts acts J K H) (hJ : J d₀)
    (hA : ∀ i tr e k, Reaches (programs i) tr (.perform e k) → A i tr e)
    {s : State ι E R α W D} (hs : (system programs Starts acts d₀).Reachable s) :
    J s.device ∧ ∀ t ∈ s.tasks, t.Sound programs Starts K H s.device := by
  refine hs.invariant
    (I := fun s => J s.device ∧ ∀ t ∈ s.tasks, t.Sound programs Starts K H s.device) ?_ ?_
  · rintro s rfl
    exact ⟨hJ, by simp⟩
  · intro s a s' _ ⟨hdevice, htasks⟩ hstep
    -- the other tasks stay in order, whatever step one of them takes
    have hothers : ∀ {d d' : D} {i tr e w next}, Ready A Starts J K H d i tr e w → acts d e w next d' →
        ∀ t : Task ι E R α W, t.Sound programs Starts K H d → t.Sound programs Starts K H d' :=
      fun hready hacts t ht => ht.mono (h.shownStable hready hacts)
        fun e' w' => h.progressStable hready hacts e' w'
    cases hstep with
    | start hi => exact ⟨hdevice, List.forall_mem_cons.mpr ⟨⟨hi, .refl _, by simp, by simp⟩, htasks⟩⟩
    | @works d d' i tr e k w w' l₁ l₂ hacts =>
      obtain ⟨h₁, h₂⟩ := List.forall_mem_append.mp htasks
      obtain ⟨hsound, h₂⟩ := List.forall_mem_cons.mp h₂
      have hready := hsound.ready hA hdevice
      have hother := hothers hready hacts
      refine ⟨h.keeps hready hacts, List.forall_mem_append.mpr ⟨fun t ht => hother t (h₁ t ht),
        List.forall_mem_cons.mpr ⟨⟨hsound.starts, hsound.reaches, ?_, ?_⟩, fun t ht => hother t (h₂ t ht)⟩⟩⟩
      · exact fun ev hev => h.shownStable hready hacts ev (hsound.shown ev hev)
      · rintro w'' ⟨⟩
        exact ⟨e, k, rfl, h.relies hready hacts⟩
    | @answers d d' i tr e k w r l₁ l₂ hacts =>
      obtain ⟨h₁, h₂⟩ := List.forall_mem_append.mp htasks
      obtain ⟨hsound, h₂⟩ := List.forall_mem_cons.mp h₂
      have hready := hsound.ready hA hdevice
      have hother := hothers hready hacts
      refine ⟨h.keeps hready hacts, List.forall_mem_append.mpr ⟨fun t ht => hother t (h₁ t ht),
        List.forall_mem_cons.mpr ⟨⟨hsound.starts, hsound.reaches.concat r, ?_, nofun⟩,
          fun t ht => hother t (h₂ t ht)⟩⟩⟩
      refine List.forall_mem_append.mpr ⟨?_, ?_⟩
      · exact fun ev hev => h.shownStable hready hacts ev (hsound.shown ev hev)
      · intro ev hev
        rw [List.mem_singleton.mp hev]
        exact h.shows hready hacts

/-- No task is ever removed, so only the programs that were started need to be those that may be. -/
theorem reachable_of_labels {Starts' : ι → Prop} {s : State ι E R α W D}
    (hs : (system programs Starts acts d₀).Reachable s) (hlabels : ∀ t ∈ s.tasks, Starts' t.label) :
    (system programs Starts' acts d₀).Reachable s := by
  induction hs with
  | init h => exact .init h
  | step _ hstep ih =>
    -- the task that goes on has the label that it had
    have hbefore : ∀ {l₁ l₂} {t t' : Task ι E R α W}, (∀ x ∈ l₁ ++ t' :: l₂, Starts' x.label) →
        t'.label = t.label → ∀ x ∈ l₁ ++ t :: l₂, Starts' x.label := by
      intro l₁ l₂ t t' hall hlabel
      obtain ⟨h₁, h₂⟩ := List.forall_mem_append.mp hall
      obtain ⟨ht, h₂⟩ := List.forall_mem_cons.mp h₂
      exact List.forall_mem_append.mpr ⟨h₁, List.forall_mem_cons.mpr ⟨hlabel ▸ ht, h₂⟩⟩
    cases hstep with
    | start hi =>
      obtain ⟨hi', hrest⟩ := List.forall_mem_cons.mp hlabels
      exact (ih hrest).step (a := ()) (.start hi')
    | works hacts => exact (ih (hbefore hlabels rfl)).step (a := ()) (.works hacts)
    | answers hacts => exact (ih (hbefore hlabels rfl)).step (a := ()) (.answers hacts)

/-! ### One program alone -/

/-- The operation goes on until it is answered. -/
inductive Answered (acts : D → (e : E) → Option W → W ⊕ R e → D → Prop) (e : E) (r : R e) :
    D → Option W → D → Prop where
  | now {d w d'} : acts d e w (.inr r) d' → Answered acts e r d w d'
  | works {d w w' d' d''} : acts d e w (.inl w') d' → Answered acts e r d' (some w') d'' →
      Answered acts e r d w d''

/-- The events in a row. -/
inductive DeviceRun (acts : D → (e : E) → Option W → W ⊕ R e → D → Prop) :
    D → List (Event E R) → D → Prop where
  | nil (d) : DeviceRun acts d [] d
  | cons {d e r d' tr d''} : Answered acts e r d none d' → DeviceRun acts d' tr d'' →
      DeviceRun acts d (⟨e, r⟩ :: tr) d''

theorem reachable_of_answered {i : ι} {tr : List (Event E R)} {e : E} {r : R e} {k : R e → Prog E R α}
    {d d' : D} {w : Option W} (h : Answered acts e r d w d')
    (hs : (system programs Starts acts d₀).Reachable ⟨d, [⟨i, tr, .perform e k, w⟩]⟩) :
    (system programs Starts acts d₀).Reachable ⟨d', [⟨i, tr ++ [⟨e, r⟩], k r, none⟩]⟩ := by
  induction h with
  | @now d w d' hacts =>
    have hstep : Step programs Starts acts ⟨d, [] ++ [⟨i, tr, .perform e k, w⟩]⟩
        ⟨d', [] ++ [⟨i, tr ++ [⟨e, r⟩], k r, none⟩]⟩ := .answers hacts
    exact hs.step (a := ()) hstep
  | @works d w w' d' _ hacts _ ih =>
    have hstep : Step programs Starts acts ⟨d, [] ++ [⟨i, tr, .perform e k, w⟩]⟩
        ⟨d', [] ++ [⟨i, tr, .perform e k, some w'⟩]⟩ := .works hacts
    exact ih (hs.step (a := ()) hstep)

theorem reachable_of_reaches {i : ι} {d d' : D} {tr₀ tr : List (Event E R)} {p q : Prog E R α}
    (hs : (system programs Starts acts d₀).Reachable ⟨d, [⟨i, tr₀, p, none⟩]⟩) (h : Reaches p tr q)
    (hd : DeviceRun acts d tr d') :
    (system programs Starts acts d₀).Reachable ⟨d', [⟨i, tr₀ ++ tr, q, none⟩]⟩ := by
  induction h generalizing d tr₀ with
  | refl p =>
    cases hd
    rw [List.append_nil]
    exact hs
  | perform r h ih =>
    cases hd with
    | cons hanswered hd =>
      have hrest := ih (reachable_of_answered hanswered hs) hd
      rwa [List.append_assoc] at hrest

/-- A partial run of a program alone. -/
theorem reachable_of_run {i : ι} {d : D} {tr : List (Event E R)} {q : Prog E R α} (hi : Starts i)
    (h : Reaches (programs i) tr q) (hd : DeviceRun acts d₀ tr d) :
    (system programs Starts acts d₀).Reachable ⟨d, [⟨i, tr, q, none⟩]⟩ :=
  reachable_of_reaches (.step (a := ()) (.init rfl) (.start hi)) h hd

end Scety.Stepwise
