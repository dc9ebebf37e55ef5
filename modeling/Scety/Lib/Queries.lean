import Scety.Lib.Effects
import Scety.Lib.Transition

/-!
# Queries to a shared store

Between its operations a program may ask queries of a store that it shares with others.  If the store
answers every query by a function of the query, in every state that queries reach (a memo table, a
cache that may forget), then programs that share it do what they would do with the function in its
place, in every interleaving, and everything that they would do.
-/

universe u v w

namespace Scety.Effects

open Transition

variable {E Q : Type u} {R : E → Type v} {A : Q → Type v} {α β : Type w} {ε : Type w}

namespace Prog

/-- A program that asks nothing. -/
def ofPlain : Prog E R α → Prog (E ⊕ Q) (Sum.elim R A) α
  | .pure a => .pure a
  | .perform e k => .perform (.inl e) fun r => ofPlain (k r)

/-- The program that asks one query and returns the answer. -/
def ask (q : Q) : Prog (E ⊕ Q) (Sum.elim R A) (A q) := Prog.op (Sum.inr q)

/-- The program with its queries answered by `f`. -/
def answer (f : ∀ q, A q) : Prog (E ⊕ Q) (Sum.elim R A) α → Prog E R α
  | .pure a => .pure a
  | .perform (.inl e) k => .perform e fun r => answer f (k r)
  | .perform (.inr q) k => answer f (k (f q))

end Prog

/-- `p` under a timer, which may fire while `p` waits for an operation to complete, but not at a
query. -/
def withTimerOnPlain (timer : E) (fires : R timer → Bool) :
    Prog (E ⊕ Q) (Sum.elim R A) α → Prog (E ⊕ Q) (Sum.elim R A) (Option α)
  | .pure a => .pure (some a)
  | .perform (.inl e) k => .perform (.inl timer) fun t =>
      if fires t then .pure none else .perform (.inl e) fun r => withTimerOnPlain timer fires (k r)
  | .perform (.inr q) k => .perform (.inr q) fun r => withTimerOnPlain timer fires (k r)

/-! ### Rules -/

section Rules

variable {f : ∀ q, A q}

theorem answer_bind (p : Prog (E ⊕ Q) (Sum.elim R A) α)
    (g : α → Prog (E ⊕ Q) (Sum.elim R A) β) :
    (p >>= g).answer f = p.answer f >>= fun a => (g a).answer f := by
  show (p.bind g).answer f = (p.answer f).bind fun a => (g a).answer f
  induction p with
  | pure a => rfl
  | perform e k ih =>
    cases e with
    | inl e => exact congrArg (Prog.perform e) (funext ih)
    | inr q => exact ih (f q)

theorem answer_map (p : Prog (E ⊕ Q) (Sum.elim R A) α) (g : α → β) :
    (g <$> p).answer f = g <$> p.answer f := answer_bind p _

theorem answer_ofPlain (p : Prog E R α) : (p.ofPlain : Prog (E ⊕ Q) (Sum.elim R A) α).answer f = p := by
  induction p with
  | pure a => rfl
  | perform e k ih => exact congrArg (Prog.perform e) (funext ih)

theorem answer_withTimerOnPlain {timer : E} {fires : R timer → Bool}
    (p : Prog (E ⊕ Q) (Sum.elim R A) α) :
    (withTimerOnPlain timer fires p).answer f = withTimer timer fires (p.answer f) := by
  induction p with
  | pure a => rfl
  | perform e k ih =>
    cases e with
    | inl e =>
      refine congrArg (Prog.perform timer) (funext fun t => ?_)
      dsimp only
      split_ifs
      · rfl
      · exact congrArg (Prog.perform e) (funext ih)
    | inr q => exact ih (f q)

/-- Sequencing with early return. -/
theorem answer_bind_run {p : ExceptT ε (Prog (E ⊕ Q) (Sum.elim R A)) α}
    {g : α → ExceptT ε (Prog (E ⊕ Q) (Sum.elim R A)) β} {p' : ExceptT ε (Prog E R) α}
    {g' : α → ExceptT ε (Prog E R) β} (hp : p.run.answer f = p'.run)
    (hg : ∀ a, (g a).run.answer f = (g' a).run) : (p >>= g).run.answer f = (p' >>= g').run := by
  show (p.run >>= ExceptT.bindCont g).answer f = p'.run >>= ExceptT.bindCont g'
  rw [answer_bind, hp]
  refine congrArg (p'.run >>= ·) (funext fun r => ?_)
  cases r with
  | error e => rfl
  | ok a => exact hg a

end Rules

/-! ### Programs that share a device

Programs are started at any time and run at the same time on one device, whose state their operations read
and change; an operation is one step.
-/

section Sharing

variable {ι D : Type*}

/-- A program that was started, with its events so far and what is left of it. -/
structure Running (ι : Type*) (E : Type u) (R : E → Type v) (α : Type w) where
  label : ι
  events : List (Event E R)
  rest : Prog E R α

structure Shared (ι : Type*) (E : Type u) (R : E → Type v) (α : Type w) (D : Type*) where
  device : D
  tasks : List (Running ι E R α)

/-- `does d ev d'`: in the state `d` the operation may be answered so, and `d'` is the state after it. -/
inductive SharedStep (programs : ι → Prog E R α) (Starts : ι → Prop) (does : D → Event E R → D → Prop) :
    Shared ι E R α D → Shared ι E R α D → Prop where
  | start {d tasks i} : Starts i →
      SharedStep programs Starts does ⟨d, tasks⟩ ⟨d, ⟨i, [], programs i⟩ :: tasks⟩
  | perform {d d' i tr e k r l₁ l₂} : does d ⟨e, r⟩ d' →
      SharedStep programs Starts does ⟨d, l₁ ++ ⟨i, tr, .perform e k⟩ :: l₂⟩
        ⟨d', l₁ ++ ⟨i, tr ++ [⟨e, r⟩], k r⟩ :: l₂⟩

def sharedSystem (programs : ι → Prog E R α) (Starts : ι → Prop) (does : D → Event E R → D → Prop)
    (d₀ : D) : System (Shared ι E R α D) Unit where
  init s := s = ⟨d₀, []⟩
  step s _ s' := SharedStep programs Starts does s s'

end Sharing

/-! ### The store -/

section Store

variable {D C : Type*} {ι : Type*}

/-- The operations use the device, the queries the store. -/
inductive StoreStep (does : D → Event E R → D → Prop) (store : C → (q : Q) → A q × C) :
    D × C → Event (E ⊕ Q) (Sum.elim R A) → D × C → Prop where
  | plain {d e r d' c} : does d ⟨e, r⟩ d' → StoreStep does store (d, c) ⟨.inl e, r⟩ (d', c)
  | asked {d c q} :
      StoreStep does store (d, c) ⟨.inr q, (store c q).1⟩ (d, (store c q).2)

/-- In the states that satisfy `J` the store answers by `f`, and queries keep `J`. -/
structure Answers (store : C → (q : Q) → A q × C) (f : ∀ q, A q) (J : C → Prop) : Prop where
  answer {c} (q) : J c → (store c q).1 = f q
  keeps {c} (q) : J c → J (store c q).2

/-- The operation of an event that is not a query. -/
def plainEvent : Event (E ⊕ Q) (Sum.elim R A) → Option (Event E R)
  | ⟨.inl e, r⟩ => some ⟨e, r⟩
  | ⟨.inr _, _⟩ => none

/-- The operations among the events. -/
def plainEvents (tr : List (Event (E ⊕ Q) (Sum.elim R A))) : List (Event E R) :=
  tr.filterMap plainEvent

/-- A task without its queries. -/
def Running.answer (f : ∀ q, A q) (t : Running ι (E ⊕ Q) (Sum.elim R A) α) : Running ι E R α :=
  ⟨t.label, plainEvents t.events, t.rest.answer f⟩

/-- The tasks without their queries, and without the store. -/
def Shared.answer (f : ∀ q, A q) (s : Shared ι (E ⊕ Q) (Sum.elim R A) α (D × C)) :
    Shared ι E R α D := ⟨s.device.1, s.tasks.map (·.answer f)⟩

variable {programs : ι → Prog (E ⊕ Q) (Sum.elim R A) α} {Starts : ι → Prop}
  {does : D → Event E R → D → Prop} {store : C → (q : Q) → A q × C} {f : ∀ q, A q} {J : C → Prop}
  {d₀ : D} {c₀ : C}

theorem plainEvents_concat_inl (tr : List (Event (E ⊕ Q) (Sum.elim R A))) (e : E) (r : R e) :
    plainEvents (tr ++ [⟨.inl e, r⟩]) = plainEvents tr ++ [⟨e, r⟩] := List.filterMap_append

theorem plainEvents_concat_inr (tr : List (Event (E ⊕ Q) (Sum.elim R A))) (q : Q) (a : A q) :
    plainEvents (tr ++ [⟨.inr q, a⟩]) = plainEvents tr :=
  List.filterMap_append.trans (List.append_nil _)

theorem answer_tasks (d : D) (c : C) (l₁ l₂ : List (Running ι (E ⊕ Q) (Sum.elim R A) α))
    (t : Running ι (E ⊕ Q) (Sum.elim R A) α) :
    (⟨(d, c), l₁ ++ t :: l₂⟩ : Shared ι (E ⊕ Q) (Sum.elim R A) α (D × C)).answer f =
      ⟨d, l₁.map (·.answer f) ++ t.answer f :: l₂.map (·.answer f)⟩ := by
  unfold Shared.answer
  rw [List.map_append, List.map_cons]

/-- The store keeps its invariant in every interleaving. -/
theorem Answers.of_reachable (h : Answers store f J) (hc : J c₀)
    {s : Shared ι (E ⊕ Q) (Sum.elim R A) α (D × C)}
    (hs : (sharedSystem programs Starts (StoreStep does store) (d₀, c₀)).Reachable s) :
    J s.device.2 := by
  refine hs.invariant (I := fun s => J s.device.2) ?_ ?_
  · rintro s rfl
    exact hc
  · intro s a s' _ hJ hstep
    cases hstep with
    | start hi => exact hJ
    | perform hdoes =>
      cases hdoes with
      | plain hdoes => exact hJ
      | asked => exact h.keeps _ hJ

/-- A query leaves the plain tasks alone, and every other step is one of theirs. -/
theorem Answers.reachable_answer (h : Answers store f J) (hc : J c₀)
    {s : Shared ι (E ⊕ Q) (Sum.elim R A) α (D × C)}
    (hs : (sharedSystem programs Starts (StoreStep does store) (d₀, c₀)).Reachable s) :
    (sharedSystem (fun i => (programs i).answer f) Starts does d₀).Reachable (s.answer f) := by
  refine hs.map ?_ ?_
  · rintro s rfl
    rfl
  · intro s a s' hreach hstep
    have hJ := h.of_reachable hc hreach
    cases hstep with
    | start hi => exact Or.inr ⟨(), .start hi⟩
    | @perform d d' i tr e k r l₁ l₂ hdoes =>
      cases hdoes with
      | @plain d e r d' c hdoes =>
        refine Or.inr ⟨(), ?_⟩
        rw [answer_tasks, answer_tasks]
        unfold Running.answer
        rw [plainEvents_concat_inl]
        exact .perform hdoes
      | @asked d c q =>
        refine Or.inl ?_
        rw [answer_tasks, answer_tasks]
        unfold Running.answer
        rw [plainEvents_concat_inr, h.answer q hJ]
        rfl

/-- A task may ask its queries until it comes to its next operation. -/
theorem Answers.exists_asked (h : Answers store f J) (hc : J c₀) {d : D} {c : C} {i : ι}
    {tr : List (Event (E ⊕ Q) (Sum.elim R A))} {p : Prog (E ⊕ Q) (Sum.elim R A) α}
    {l₁ l₂ : List (Running ι (E ⊕ Q) (Sum.elim R A) α)} {e : E} {k : R e → Prog E R α}
    (hs : (sharedSystem programs Starts (StoreStep does store) (d₀, c₀)).Reachable
      ⟨(d, c), l₁ ++ ⟨i, tr, p⟩ :: l₂⟩) (hp : p.answer f = .perform e k) :
    ∃ c' tr' k', (sharedSystem programs Starts (StoreStep does store) (d₀, c₀)).Reachable
      ⟨(d, c'), l₁ ++ ⟨i, tr', .perform (.inl e) k'⟩ :: l₂⟩ ∧ plainEvents tr' = plainEvents tr ∧
        ∀ r, (k' r).answer f = k r := by
  induction p generalizing c tr with
  | pure a => cases hp
  | perform o k' ih =>
    cases o with
    | inl e' =>
      obtain ⟨rfl, hk⟩ := Prog.perform.inj hp
      exact ⟨c, tr, k', hs, rfl, congrFun (eq_of_heq hk)⟩
    | inr q =>
      have hstep := hs.step (a := ()) (.perform (StoreStep.asked (c := c) (d := d) (q := q)))
      rw [h.answer q (h.of_reachable hc hs)] at hstep
      obtain ⟨c', tr', k'', hreach, htr', hk⟩ := ih (f q) hstep hp
      exact ⟨c', tr', k'', hreach, htr'.trans (plainEvents_concat_inr tr q (f q)), hk⟩

/-- The plain tasks do nothing that those with queries cannot do. -/
theorem Answers.exists_reachable (h : Answers store f J) (hc : J c₀) {t : Shared ι E R α D}
    (ht : (sharedSystem (fun i => (programs i).answer f) Starts does d₀).Reachable t) :
    ∃ s, (sharedSystem programs Starts (StoreStep does store) (d₀, c₀)).Reachable s ∧
      s.answer f = t := by
  induction ht with
  | init ht =>
    obtain rfl := ht
    exact ⟨⟨(d₀, c₀), []⟩, .init rfl, rfl⟩
  | @step t a t' _ hstep ih =>
    obtain ⟨⟨⟨d, c⟩, tasks⟩, hreach, rfl⟩ := ih
    generalize hs : Shared.answer f ⟨(d, c), tasks⟩ = t at hstep
    cases hstep with
    | start hi =>
      obtain ⟨rfl, rfl⟩ := Shared.mk.inj hs
      exact ⟨_, hreach.step (a := ()) (.start hi), rfl⟩
    | @perform d₁ d' i tr e k r l₁ l₂ hdoes =>
      obtain ⟨rfl, htasks⟩ := Shared.mk.inj hs
      obtain ⟨m₁, m, rfl, rfl, hm⟩ := List.map_eq_append_iff.mp htasks
      obtain ⟨⟨i', tr', p⟩, m₂, rfl, htask, rfl⟩ := List.map_eq_cons_iff.mp hm
      obtain ⟨rfl, rfl, hp⟩ := Running.mk.inj htask
      obtain ⟨c', tr'', k', hreach', htr', hk⟩ := h.exists_asked hc hreach hp
      refine ⟨_, hreach'.step (a := ()) (.perform (.plain hdoes)), ?_⟩
      rw [answer_tasks]
      unfold Running.answer
      rw [plainEvents_concat_inl, htr', hk r]

/-- **A store that answers by a function is invisible**: the tasks reach the same states, up to their
queries, as with the function in its place. -/
theorem Answers.reachable_iff (h : Answers store f J) (hc : J c₀) {t : Shared ι E R α D} :
    (sharedSystem (fun i => (programs i).answer f) Starts does d₀).Reachable t ↔
      ∃ s, (sharedSystem programs Starts (StoreStep does store) (d₀, c₀)).Reachable s ∧
        s.answer f = t := by
  refine ⟨h.exists_reachable hc, ?_⟩
  rintro ⟨s, hs, rfl⟩
  exact h.reachable_answer hc hs

end Store

end Scety.Effects
