import Mathlib.Control.Basic
import Mathlib.Data.List.Basic

/-!
# Programs that talk to an environment

A program is a tree: it returns, or it performs an operation and goes on with the answer.  `Runs`
relates it to the operations and answers of its complete runs.  The rules are those of sequencing,
of early return with an error, and of a program under a timer.
-/

universe u v w

namespace Scety.Effects

/-- A program over the operations `E`, where `e` is answered by a value of `R e`. -/
inductive Prog (E : Type u) (R : E → Type v) (α : Type w) : Type (max u v w) where
  | pure (a : α)
  | perform (e : E) (k : R e → Prog E R α)

variable {E : Type u} {R : E → Type v} {α β : Type w} {ε : Type w}

namespace Prog

/-- Sequencing: `f` goes on where `p` returns. -/
def bind : Prog E R α → (α → Prog E R β) → Prog E R β
  | .pure a, f => f a
  | .perform e k, f => .perform e fun r => (k r).bind f

instance : Monad (Prog E R) where
  pure := Prog.pure
  bind := Prog.bind

/-- The program that performs one operation and returns the answer. -/
def op (e : E) : Prog E R (R e) := .perform e .pure

end Prog

/-- An operation with its answer. -/
abbrev Event (E : Type u) (R : E → Type v) := Σ e, R e

/-- The complete runs of a program. -/
inductive Runs : Prog E R α → List (Event E R) → α → Prop where
  | pure (a : α) : Runs (.pure a) [] a
  | perform {e : E} {k : R e → Prog E R α} (r : R e) {tr : List (Event E R)} {a : α} :
      Runs (k r) tr a → Runs (.perform e k) (⟨e, r⟩ :: tr) a

/-! ### Sequencing -/

section Rules

variable {tr : List (Event E R)}

@[simp] theorem runs_pure_iff {a b : α} : Runs (Pure.pure a : Prog E R α) tr b ↔ tr = [] ∧ b = a := by
  refine ⟨?_, ?_⟩
  · intro h
    cases h with
    | pure => exact ⟨rfl, rfl⟩
  · rintro ⟨rfl, rfl⟩
    exact .pure _

theorem runs_perform_iff {e : E} {k : R e → Prog E R α} {a : α} :
    Runs (.perform e k) tr a ↔ ∃ r tr', tr = ⟨e, r⟩ :: tr' ∧ Runs (k r) tr' a := by
  refine ⟨?_, ?_⟩
  · intro h
    cases h with
    | perform r h => exact ⟨r, _, rfl, h⟩
  · rintro ⟨r, tr', rfl, h⟩
    exact .perform r h

@[simp] theorem runs_op_iff {R : E → Type w} {tr : List (Event E R)} {e : E} {a : R e} :
    Runs (Prog.op e : Prog E R (R e)) tr a ↔ tr = [⟨e, a⟩] := by
  refine ⟨?_, ?_⟩
  · intro h
    obtain ⟨r, tr', rfl, h'⟩ := runs_perform_iff.mp h
    obtain ⟨rfl, rfl⟩ := runs_pure_iff.mp h'
    rfl
  · rintro rfl
    exact .perform a (.pure a)

theorem runs_bind_iff {p : Prog E R α} {f : α → Prog E R β} {b : β} :
    Runs (p >>= f) tr b ↔
      ∃ a tr₁ tr₂, tr = tr₁ ++ tr₂ ∧ Runs p tr₁ a ∧ Runs (f a) tr₂ b := by
  show Runs (p.bind f) tr b ↔ _
  induction p generalizing tr with
  | pure a =>
    refine ⟨fun h => ⟨a, [], tr, rfl, .pure a, h⟩, ?_⟩
    rintro ⟨a', tr₁, tr₂, rfl, h₁, h₂⟩
    obtain ⟨rfl, rfl⟩ := runs_pure_iff.mp h₁
    exact h₂
  | perform e k ih =>
    refine ⟨?_, ?_⟩
    · intro h
      obtain ⟨r, tr', rfl, h'⟩ := runs_perform_iff.mp h
      obtain ⟨a, tr₁, tr₂, rfl, h₁, h₂⟩ := (ih r).mp h'
      exact ⟨a, ⟨e, r⟩ :: tr₁, tr₂, rfl, .perform r h₁, h₂⟩
    · rintro ⟨a, tr₁, tr₂, rfl, h₁, h₂⟩
      obtain ⟨r, tr', rfl, h'⟩ := runs_perform_iff.mp h₁
      exact .perform r ((ih r).mpr ⟨a, tr', tr₂, rfl, h', h₂⟩)

theorem runs_map_iff {p : Prog E R α} {f : α → β} {b : β} :
    Runs (f <$> p) tr b ↔ ∃ a, b = f a ∧ Runs p tr a := by
  show Runs (p >>= fun a => pure (f a)) tr b ↔ _
  rw [runs_bind_iff]
  refine ⟨?_, ?_⟩
  · rintro ⟨a, tr₁, tr₂, rfl, h₁, h₂⟩
    obtain ⟨rfl, rfl⟩ := runs_pure_iff.mp h₂
    refine ⟨a, rfl, ?_⟩
    rwa [List.append_nil]
  · rintro ⟨a, rfl, h⟩
    exact ⟨a, tr, [], by simp, h, runs_pure_iff.mpr ⟨rfl, rfl⟩⟩

end Rules

/-! ### Unfinished runs -/

/-- `q` is what is left of `p` after the events of the trace. -/
inductive Reaches : Prog E R α → List (Event E R) → Prog E R α → Prop where
  | refl (p : Prog E R α) : Reaches p [] p
  | perform {e : E} {k : R e → Prog E R α} (r : R e) {tr : List (Event E R)} {q : Prog E R α} :
      Reaches (k r) tr q → Reaches (.perform e k) (⟨e, r⟩ :: tr) q

section Unfinished

variable {tr : List (Event E R)} {q : Prog E R α}

theorem reaches_pure_iff {a : α} : Reaches (.pure a) tr q ↔ tr = [] ∧ q = .pure a := by
  refine ⟨?_, ?_⟩
  · intro h
    cases h with
    | refl => exact ⟨rfl, rfl⟩
  · rintro ⟨rfl, rfl⟩
    exact .refl _

theorem reaches_perform_iff {e : E} {k : R e → Prog E R α} :
    Reaches (.perform e k) tr q ↔
      (tr = [] ∧ q = .perform e k) ∨ ∃ r tr', tr = ⟨e, r⟩ :: tr' ∧ Reaches (k r) tr' q := by
  refine ⟨?_, ?_⟩
  · intro h
    cases h with
    | refl => exact Or.inl ⟨rfl, rfl⟩
    | perform r h => exact Or.inr ⟨r, _, rfl, h⟩
  · rintro (⟨rfl, rfl⟩ | ⟨r, tr', rfl, h⟩)
    · exact .refl _
    · exact .perform r h

/-- The complete runs are those that reach the end. -/
theorem reaches_end_iff {p : Prog E R α} {a : α} : Reaches p tr (.pure a) ↔ Runs p tr a := by
  induction p generalizing tr with
  | pure b =>
    rw [reaches_pure_iff]
    refine ⟨?_, ?_⟩
    · rintro ⟨rfl, hb⟩
      obtain rfl := Prog.pure.inj hb
      exact .pure _
    · intro h
      obtain ⟨rfl, rfl⟩ := runs_pure_iff.mp h
      exact ⟨rfl, rfl⟩
  | perform e k ih =>
    rw [reaches_perform_iff, runs_perform_iff, or_iff_right (by simp)]
    exact exists_congr fun r => exists_congr fun tr' => and_congr_right fun _ => ih r

theorem Reaches.runs_append {p : Prog E R α} (h : Reaches p tr q) {tr' : List (Event E R)} {a : α}
    (h' : Runs q tr' a) : Runs p (tr ++ tr') a := by
  induction h with
  | refl p => exact h'
  | perform r _ ih => exact .perform r (ih h')

/-- A run before one of its events. -/
theorem Runs.reaches_front {e : E} {r : R e} {tr₁ tr₂ : List (Event E R)} {p : Prog E R α} {a : α}
    (h : Runs p (tr₁ ++ ⟨e, r⟩ :: tr₂) a) : ∃ k, Reaches p tr₁ (.perform e k) := by
  induction tr₁ generalizing p with
  | nil =>
    cases h with
    | perform r h => exact ⟨_, .refl _⟩
  | cons ev tr₁ ih =>
    cases h with
    | perform r h =>
      obtain ⟨k, hk⟩ := ih h
      exact ⟨k, .perform r hk⟩

end Unfinished

/-! ### Early return with an error -/

section Errors

variable {tr : List (Event E R)}

/-- The complete runs of a program that may fail. -/
def Completes (p : ExceptT ε (Prog E R) α) (tr : List (Event E R)) (r : Except ε α) : Prop :=
  Runs p.run tr r

theorem completes_pure_iff {a : α} {r : Except ε α} :
    Completes (pure a : ExceptT ε (Prog E R) α) tr r ↔ tr = [] ∧ r = .ok a :=
  runs_pure_iff

theorem completes_lift_iff {p : Prog E R α} {r : Except ε α} :
    Completes (ExceptT.lift p : ExceptT ε (Prog E R) α) tr r ↔ ∃ a, r = .ok a ∧ Runs p tr a :=
  runs_map_iff

theorem completes_throw_iff {e : ε} {r : Except ε α} :
    Completes (throw e : ExceptT ε (Prog E R) α) tr r ↔ tr = [] ∧ r = .error e :=
  runs_pure_iff

/-- The first program fails and its error is returned, or the second one runs after it. -/
theorem completes_bind_iff {p : ExceptT ε (Prog E R) α} {f : α → ExceptT ε (Prog E R) β}
    {r : Except ε β} : Completes (p >>= f) tr r ↔
      (∃ e, Completes p tr (.error e) ∧ r = .error e) ∨
        ∃ a tr₁ tr₂, tr = tr₁ ++ tr₂ ∧ Completes p tr₁ (.ok a) ∧ Completes (f a) tr₂ r := by
  show Runs (p.run >>= ExceptT.bindCont f) tr r ↔ _
  rw [runs_bind_iff]
  refine ⟨?_, ?_⟩
  · rintro ⟨a, tr₁, tr₂, rfl, h₁, h₂⟩
    cases a with
    | error e =>
      obtain ⟨rfl, rfl⟩ := runs_pure_iff.mp h₂
      refine Or.inl ⟨e, ?_, rfl⟩
      rw [List.append_nil]
      exact h₁
    | ok a => exact Or.inr ⟨a, tr₁, tr₂, rfl, h₁, h₂⟩
  · rintro (⟨e, h, rfl⟩ | ⟨a, tr₁, tr₂, rfl, h₁, h₂⟩)
    · exact ⟨.error e, tr, [], by simp, h, runs_pure_iff.mpr ⟨rfl, rfl⟩⟩
    · exact ⟨.ok a, tr₁, tr₂, rfl, h₁, h₂⟩

/-- A sequence that is before an operation is in the first program, or in the second one after it. -/
theorem reaches_bind_run {p : ExceptT ε (Prog E R) α} {f : α → ExceptT ε (Prog E R) β} {e : E}
    {k : R e → Prog E R (Except ε β)} (h : Reaches (p >>= f).run tr (.perform e k)) :
    (∃ k', Reaches p.run tr (.perform e k')) ∨ ∃ a tr₁ tr₂, tr = tr₁ ++ tr₂ ∧
      Completes p tr₁ (.ok a) ∧ Reaches (f a).run tr₂ (.perform e k) := by
  have hbind : ∀ (p' : Prog E R (Except ε α)) (tr : List (Event E R)),
      Reaches (p'.bind (ExceptT.bindCont f)) tr (.perform e k) →
      (∃ k', Reaches p' tr (.perform e k')) ∨ ∃ a tr₁ tr₂, tr = tr₁ ++ tr₂ ∧
        Runs p' tr₁ (.ok a) ∧ Reaches (f a).run tr₂ (.perform e k) := by
    intro p'
    induction p' with
    | pure r =>
      intro tr h
      cases r with
      | error err => exact absurd (reaches_pure_iff.mp h).2 (by simp)
      | ok a => exact Or.inr ⟨a, [], tr, rfl, .pure _, h⟩
    | perform e' k' ih =>
      intro tr h
      rcases reaches_perform_iff.mp h with ⟨rfl, heq⟩ | ⟨r, tr', rfl, h'⟩
      · obtain rfl := (Prog.perform.inj heq).1
        exact Or.inl ⟨k', .refl _⟩
      · rcases ih r tr' h' with ⟨k'', hk⟩ | ⟨a, tr₁, tr₂, rfl, hruns, hf⟩
        · exact Or.inl ⟨k'', .perform r hk⟩
        · exact Or.inr ⟨a, ⟨e', r⟩ :: tr₁, tr₂, rfl, .perform r hruns, hf⟩
  exact hbind p.run tr h

end Errors

/-! ### Timers -/

section Timers

variable (timer : E) (fires : R timer → Bool)

/-- `p` under a timer, which may fire while `p` waits for an operation to complete. -/
def withTimer : Prog E R α → Prog E R (Option α)
  | .pure a => .pure (some a)
  | .perform e k => .perform timer fun t =>
      if fires t then .pure none else .perform e fun r => withTimer (k r)

variable {timer fires}

/-- An operation completes before the timer fires. -/
theorem Runs.withTimer {e : E} {k : R e → Prog E R α} {t : R timer} (ht : fires t = false) (r : R e)
    {tr : List (Event E R)} {b : Option α} (h : Runs (Effects.withTimer timer fires (k r)) tr b) :
    Runs (Effects.withTimer timer fires (.perform e k)) (⟨timer, t⟩ :: ⟨e, r⟩ :: tr) b := by
  refine .perform t ?_
  rw [if_neg (by simp [ht])]
  exact .perform r h

/-- The run is that of `p`, up to the events of the timer, until `p` ends or the timer fires. -/
theorem reaches_of_withTimer {p : Prog E R α} {tr : List (Event E R)} {b : Option α}
    (h : Runs (withTimer timer fires p) tr b) :
    ∃ tr' q, Reaches p tr' q ∧
      (∀ keep : Event E R → Bool, (∀ t, keep ⟨timer, t⟩ = false) →
        tr.filter keep = tr'.filter keep) ∧
      ((b = none ∧ ∃ t, fires t = true ∧ ⟨timer, t⟩ ∈ tr) ∨ ∃ a, b = some a ∧ q = .pure a) := by
  induction p generalizing tr with
  | pure a =>
    obtain ⟨rfl, rfl⟩ := runs_pure_iff.mp h
    exact ⟨[], _, .refl _, fun _ _ => rfl, Or.inr ⟨a, rfl, rfl⟩⟩
  | perform e k ih =>
    unfold withTimer at h
    obtain ⟨t, tr', rfl, h'⟩ := runs_perform_iff.mp h
    split_ifs at h' with ht
    · obtain ⟨rfl, rfl⟩ := runs_pure_iff.mp h'
      refine ⟨[], _, .refl _, ?_, Or.inl ⟨rfl, t, ht, List.mem_cons_self⟩⟩
      exact fun keep hk => List.filter_cons_of_neg (by simp [hk])
    · obtain ⟨r, tr', rfl, hk⟩ := runs_perform_iff.mp h'
      obtain ⟨tr'', q, hreach, hkeep, hend⟩ := ih r hk
      refine ⟨⟨e, r⟩ :: tr'', q, .perform r hreach, ?_, hend.imp_left ?_⟩
      · intro keep hk
        rw [List.filter_cons_of_neg (by simp [hk]), List.filter_cons, List.filter_cons,
          hkeep keep hk]
      · rintro ⟨rfl, t', ht', hmem⟩
        exact ⟨rfl, t', ht', by simp [hmem]⟩

/-- A timer that fires ends the program; otherwise the run is a run of `p`, up to the events of the
timer. -/
theorem runs_withTimer {p : Prog E R α} {tr : List (Event E R)} {b : Option α}
    (h : Runs (withTimer timer fires p) tr b) :
    (b = none ∧ ∃ t, fires t = true ∧ ⟨timer, t⟩ ∈ tr) ∨
      ∃ a tr', b = some a ∧ Runs p tr' a ∧
        ∀ keep : Event E R → Bool, (∀ t, keep ⟨timer, t⟩ = false) →
          tr.filter keep = tr'.filter keep := by
  obtain ⟨tr', q, hreach, hkeep, hfired | ⟨a, rfl, rfl⟩⟩ := reaches_of_withTimer h
  · exact Or.inl hfired
  · exact Or.inr ⟨a, tr', rfl, reaches_end_iff.mp hreach, hkeep⟩

end Timers

/-! ### The operations of a program -/

section Only

variable {P : E → Prop}

/-- All operations that `p` may perform satisfy `P`. -/
def Only (P : E → Prop) : Prog E R α → Prop
  | .pure _ => True
  | .perform e k => P e ∧ ∀ r, Only P (k r)

/-- Also before a run has ended. -/
theorem Only.events {p q : Prog E R α} (h : Only P p) {tr : List (Event E R)} (hr : Reaches p tr q) :
    ∀ ev ∈ tr, P ev.1 := by
  induction hr with
  | refl p => simp
  | perform r hr ih =>
    intro ev hev
    rcases List.mem_cons.mp hev with rfl | hev
    · exact h.1
    · exact ih (h.2 r) ev hev

theorem Only.of_runs {p : Prog E R α} (h : Only P p) {tr : List (Event E R)} {a : α}
    (hr : Runs p tr a) : ∀ ev ∈ tr, P ev.1 := h.events (reaches_end_iff.mpr hr)

theorem Only.mono {P' : E → Prop} {p : Prog E R α} (h : Only P p) (hP : ∀ e, P e → P' e) :
    Only P' p := by
  induction p with
  | pure a => trivial
  | perform e k ih => exact ⟨hP e h.1, fun r => ih r (h.2 r)⟩

theorem only_bind {p : Prog E R α} {f : α → Prog E R β} (hp : Only P p)
    (hf : ∀ a, Only P (f a)) : Only P (p >>= f) := by
  show Only P (p.bind f)
  induction p with
  | pure a => exact hf a
  | perform e k ih => exact ⟨hp.1, fun r => ih r (hp.2 r)⟩

theorem only_map {p : Prog E R α} {f : α → β} (hp : Only P p) : Only P (f <$> p) :=
  only_bind hp fun _ => trivial

theorem only_op {R : E → Type w} {e : E} (h : P e) : Only P (Prog.op e : Prog E R (R e)) :=
  ⟨h, fun _ => trivial⟩

theorem only_withTimer {timer : E} {fires : R timer → Bool} {p : Prog E R α} (ht : P timer)
    (hp : Only P p) : Only P (withTimer timer fires p) := by
  induction p with
  | pure a => trivial
  | perform e k ih =>
    refine ⟨ht, ?_⟩
    intro t
    dsimp only
    split_ifs
    · trivial
    · exact ⟨hp.1, fun r => ih r (hp.2 r)⟩

theorem only_bind_run {p : ExceptT ε (Prog E R) α} {f : α → ExceptT ε (Prog E R) β}
    (hp : Only P p.run) (hf : ∀ a, Only P (f a).run) : Only P (p >>= f).run := by
  apply only_bind hp
  intro r
  cases r with
  | error e => trivial
  | ok a => exact hf a

/-- What is left of a program performs no other operations. -/
theorem Only.of_reaches {p q : Prog E R α} (h : Only P p) {tr : List (Event E R)}
    (hr : Reaches p tr q) : Only P q := by
  induction hr with
  | refl p => exact h
  | perform r hr ih => exact ih (h.2 r)

end Only

/-! ### How many operations a program performs -/

section AtMost

variable {counts : E → Bool}

/-- `p` performs at most `n` of the operations that count, whatever the answers. -/
def AtMost (counts : E → Bool) : Prog E R α → ℕ → Prop
  | .pure _, _ => True
  | .perform e k, n =>
    if counts e then 0 < n ∧ ∀ r, AtMost counts (k r) (n - 1) else ∀ r, AtMost counts (k r) n

theorem atMost_perform_neg {e : E} {k : R e → Prog E R α} {n : ℕ} (he : counts e = false) :
    AtMost counts (.perform e k) n ↔ ∀ r, AtMost counts (k r) n := by
  rw [AtMost, if_neg (by simp [he])]

theorem AtMost.mono {p : Prog E R α} {m n : ℕ} (h : AtMost counts p m) (hmn : m ≤ n) :
    AtMost counts p n := by
  induction p generalizing m n with
  | pure a => trivial
  | perform e k ih =>
    unfold AtMost at h ⊢
    split_ifs at h ⊢
    · exact ⟨by omega, fun r => ih r (h.2 r) (by omega)⟩
    · exact fun r => ih r (h r) hmn

theorem AtMost.of_reaches {p q : Prog E R α} {n : ℕ} (h : AtMost counts p n)
    {tr : List (Event E R)} (hr : Reaches p tr q) :
    (tr.filter fun ev => counts ev.1).length ≤ n := by
  induction hr generalizing n with
  | refl p => exact Nat.zero_le _
  | @perform e k r tr q hr ih =>
    unfold AtMost at h
    split_ifs at h with he
    · have htr := ih (h.2 r)
      rw [List.filter_cons, if_pos he, List.length_cons]
      omega
    · rw [List.filter_cons, if_neg he]
      exact ih (h r)

theorem atMost_of_only {p : Prog E R α} (h : Only (counts · = false) p) (n : ℕ) :
    AtMost counts p n := by
  induction p with
  | pure a => trivial
  | perform e k ih => exact (atMost_perform_neg h.1).mpr fun r => ih r (h.2 r)

theorem atMost_bind {p : Prog E R α} {f : α → Prog E R β} {m n : ℕ} (hp : AtMost counts p m)
    (hf : ∀ a, AtMost counts (f a) n) : AtMost counts (p >>= f) (m + n) := by
  show AtMost counts (p.bind f) _
  induction p generalizing m with
  | pure a => exact (hf a).mono (Nat.le_add_left _ _)
  | perform e k ih =>
    unfold AtMost at hp
    unfold Prog.bind AtMost
    split_ifs at hp ⊢
    · refine ⟨by omega, ?_⟩
      intro r
      rw [Nat.sub_add_comm hp.1]
      exact ih r (hp.2 r)
    · exact fun r => ih r (hp r)

theorem atMost_op {R : E → Type w} {e : E} : AtMost counts (Prog.op e : Prog E R (R e)) 1 := by
  unfold Prog.op AtMost
  split_ifs
  · exact ⟨Nat.one_pos, fun _ => trivial⟩
  · exact fun _ => trivial

theorem atMost_bind_run {p : ExceptT ε (Prog E R) α} {f : α → ExceptT ε (Prog E R) β} {m n : ℕ}
    (hp : AtMost counts p.run m) (hf : ∀ a, AtMost counts (f a).run n) :
    AtMost counts (p >>= f).run (m + n) := by
  apply atMost_bind hp
  intro r
  cases r with
  | error e => trivial
  | ok a => exact hf a

end AtMost

/-! ### What a trace shows -/

section Observations

variable {O : Type*} {tr : List (Event E R)} {keep : Event E R → Bool}

/-- The events that an observation sees nothing in can be left out. -/
theorem flatMap_filter_kept {see : Event E R → List O} (h : ∀ ev, keep ev = false → see ev = []) :
    (tr.filter keep).flatMap see = tr.flatMap see := by
  induction tr with
  | nil => rfl
  | cons ev tr ih =>
    rw [List.filter_cons, List.flatMap_cons]
    cases hev : keep ev with
    | true => exact congrArg (see ev ++ ·) ih
    | false =>
      rw [h ev hev]
      exact ih

theorem filterMap_filter_kept {see : Event E R → Option O}
    (h : ∀ ev, keep ev = false → see ev = none) :
    (tr.filter keep).filterMap see = tr.filterMap see := by
  rw [List.filterMap_filter]
  apply List.filterMap_congr
  intro ev _
  cases hev : keep ev with
  | true => rfl
  | false => exact (h ev hev).symm

end Observations

end Scety.Effects
