import Mathlib.Logic.Relation
import Scety.Lib.Effects

/-!
# The moments of a run

An operation takes time: while it is in progress a part of its output is out already, and a program
that is dropped then leaves it there.  `Advance` runs a program in such steps; a timer is passed over
until it fires, and then the operation that it guards is given up.  `Keeps` is a program logic for
what holds at every moment: its rules are those of sequencing, of a program under a timer, and of an
invariant of the operations.
-/

universe u v w

namespace Scety.Effects

variable {E : Type u} {R : E → Type v} {α α' : Type w} {β γ : Type*}

/-- What is observed of the operations of a program. -/
structure Observer (E : Type u) (R : E → Type v) (β γ : Type*) where
  /-- The answer of a timer that has not fired; no other operation has one. -/
  passes : ∀ e, Option (R e)
  /-- The output of an operation that is in progress. -/
  partly : E → List β → Prop
  /-- The output of an operation that has been answered. -/
  wholly : ∀ e, R e → List β → Prop
  /-- The input that an answer brings. -/
  sees : ∀ e, R e → List γ

variable (o : Observer E R β γ)

/-- The operation that is in progress, behind the timers that guard it. -/
def inProgress : Prog E R α → Option E
  | .pure _ => none
  | .perform e k =>
    match o.passes e with
    | some r => inProgress (k r)
    | none => some e

/-- A moment of a run: what is left of the program, the input and the output so far, and the part of
the output that is of the operation in progress. -/
structure Moment (E : Type u) (R : E → Type v) (α : Type w) (β γ : Type*) where
  program : Prog E R α
  seen : List γ
  out : List β
  done : List β

inductive Advance : Moment E R α β γ → Moment E R α β γ → Prop where
  | emits {m e chunk} : inProgress o m.program = some e → o.partly e (m.done ++ chunk) →
      Advance m { m with out := m.out ++ chunk, done := m.done ++ chunk }
  | answers {m e k} (r : R e) : m.program = .perform e k → o.passes e = none →
      o.wholly e r m.done → Advance m ⟨k r, m.seen ++ o.sees e r, m.out, []⟩
  | passes {m e k r} : m.program = .perform e k → o.passes e = some r →
      Advance m { m with program := k r }
  | fires {m e k r} (r' : R e) : m.program = .perform e k → o.passes e = some r → r' ≠ r →
      Advance m ⟨k r', m.seen, m.out, []⟩

/-- Every timer of a program guards an operation. -/
def TimersGuard : Prog E R α → Prop
  | .pure _ => True
  | .perform e k =>
    (∀ r, o.passes e = some r → (inProgress o (k r)).isSome = true) ∧ ∀ r, TimersGuard (k r)

/-- `Q` holds at every moment of a run of the program, and `post` of its result at the end. -/
def Keeps (Q : List γ → List β → Prop) (post : α → List γ → List β → Prop) :
    Prog E R α → List γ → List β → Prop
  | .pure a, seen, out => Q seen out ∧ post a seen out
  | .perform e k, seen, out => Q seen out ∧
    match o.passes e with
    | none => (∀ d, o.partly e d → Q seen (out ++ d)) ∧
        ∀ r d, o.wholly e r d → Keeps Q post (k r) (seen ++ o.sees e r) (out ++ d)
    | some r => Keeps Q post (k r) seen out ∧
        ∀ r', r' ≠ r → ∀ d, (d = [] ∨ ∃ e', inProgress o (k r) = some e' ∧ o.partly e' d) →
          Keeps Q post (k r') seen (out ++ d)

variable {o} {Q Q' : List γ → List β → Prop} {post post' : α → List γ → List β → Prop}
  {seen : List γ} {out : List β}

/-! ### Rules -/

theorem inProgress_perform {e : E} {k : R e → Prog E R α} (h : o.passes e = none) :
    inProgress o (.perform e k) = some e := by
  rw [inProgress, h]

theorem inProgress_timer {e : E} {k : R e → Prog E R α} {r : R e} (h : o.passes e = some r) :
    inProgress o (.perform e k) = inProgress o (k r) := by
  rw [inProgress, h]

theorem keeps_perform_iff {e : E} {k : R e → Prog E R α} (h : o.passes e = none) :
    Keeps o Q post (.perform e k) seen out ↔ Q seen out ∧
      (∀ d, o.partly e d → Q seen (out ++ d)) ∧
        ∀ r d, o.wholly e r d → Keeps o Q post (k r) (seen ++ o.sees e r) (out ++ d) := by
  rw [Keeps, h]

theorem keeps_timer_iff {e : E} {k : R e → Prog E R α} {r : R e} (h : o.passes e = some r) :
    Keeps o Q post (.perform e k) seen out ↔ Q seen out ∧ Keeps o Q post (k r) seen out ∧
      ∀ r', r' ≠ r → ∀ d, (d = [] ∨ ∃ e', inProgress o (k r) = some e' ∧ o.partly e' d) →
        Keeps o Q post (k r') seen (out ++ d) := by
  rw [Keeps, h]

theorem Keeps.now {p : Prog E R α} (h : Keeps o Q post p seen out) : Q seen out := by
  cases p with
  | pure a => exact h.1
  | perform e k =>
    rw [Keeps] at h
    exact h.1

/-- The operation in progress keeps `Q` with any part of its output. -/
theorem Keeps.inProgress {p : Prog E R α} (h : Keeps o Q post p seen out) {e : E}
    (he : inProgress o p = some e) {d : List β} (hd : o.partly e d) : Q seen (out ++ d) := by
  induction p with
  | pure a => exact absurd he (by simp [Effects.inProgress])
  | perform e' k ih =>
    cases hpass : o.passes e' with
    | none =>
      rw [inProgress_perform hpass] at he
      obtain rfl := Option.some.inj he
      exact ((keeps_perform_iff hpass).mp h).2.1 d hd
    | some r =>
      rw [inProgress_timer hpass] at he
      exact ih r ((keeps_timer_iff hpass).mp h).2.1 he

theorem Keeps.mono {p : Prog E R α} (h : Keeps o Q post p seen out)
    (hQ : ∀ seen out, Q seen out → Q' seen out)
    (hpost : ∀ a seen out, Q seen out → post a seen out → post' a seen out) :
    Keeps o Q' post' p seen out := by
  induction p generalizing seen out with
  | pure a => exact ⟨hQ _ _ h.1, hpost _ _ _ h.1 h.2⟩
  | perform e k ih =>
    cases hpass : o.passes e with
    | none =>
      obtain ⟨hnow, hpart, hwhole⟩ := (keeps_perform_iff hpass).mp h
      exact (keeps_perform_iff hpass).mpr
        ⟨hQ _ _ hnow, fun d hd => hQ _ _ (hpart d hd), fun r d hd => ih r (hwhole r d hd)⟩
    | some r =>
      obtain ⟨hnow, hpassed, hfired⟩ := (keeps_timer_iff hpass).mp h
      exact (keeps_timer_iff hpass).mpr
        ⟨hQ _ _ hnow, ih r hpassed, fun r' hr d hd => ih r' (hfired r' hr d hd)⟩

theorem Keeps.and {p : Prog E R α} (h : Keeps o Q post p seen out) (h' : Keeps o Q' post' p seen out) :
    Keeps o (fun seen out => Q seen out ∧ Q' seen out)
      (fun a seen out => post a seen out ∧ post' a seen out) p seen out := by
  induction p generalizing seen out with
  | pure a => exact ⟨⟨h.1, h'.1⟩, h.2, h'.2⟩
  | perform e k ih =>
    cases hpass : o.passes e with
    | none =>
      obtain ⟨hnow, hpart, hwhole⟩ := (keeps_perform_iff hpass).mp h
      obtain ⟨hnow', hpart', hwhole'⟩ := (keeps_perform_iff hpass).mp h'
      exact (keeps_perform_iff hpass).mpr ⟨⟨hnow, hnow'⟩, fun d hd => ⟨hpart d hd, hpart' d hd⟩,
        fun r d hd => ih r (hwhole r d hd) (hwhole' r d hd)⟩
    | some r =>
      obtain ⟨hnow, hpassed, hfired⟩ := (keeps_timer_iff hpass).mp h
      obtain ⟨hnow', hpassed', hfired'⟩ := (keeps_timer_iff hpass).mp h'
      exact (keeps_timer_iff hpass).mpr ⟨⟨hnow, hnow'⟩, ih r hpassed hpassed',
        fun r' hr d hd => ih r' (hfired r' hr d hd) (hfired' r' hr d hd)⟩

theorem inProgress_bind {p : Prog E R α} {f : α → Prog E R α'}
    (h : (inProgress o p).isSome = true) : inProgress o (p.bind f) = inProgress o p := by
  induction p with
  | pure a => exact absurd h (by simp [inProgress])
  | perform e k ih =>
    unfold Prog.bind
    cases hpass : o.passes e with
    | none => rw [inProgress_perform hpass, inProgress_perform hpass]
    | some r =>
      rw [inProgress_timer hpass] at h
      rw [inProgress_timer hpass, inProgress_timer hpass]
      exact ih r h

theorem Keeps.bind {p : Prog E R α} {f : α → Prog E R α'}
    {post : α' → List γ → List β → Prop} (hp : TimersGuard o p)
    (h : Keeps o Q (fun a seen out => Keeps o Q post (f a) seen out) p seen out) :
    Keeps o Q post (p >>= f) seen out := by
  show Keeps o Q post (p.bind f) seen out
  induction p generalizing seen out with
  | pure a => exact h.2
  | perform e k ih =>
    obtain ⟨hguards, hk⟩ := hp
    unfold Prog.bind
    cases hpass : o.passes e with
    | none =>
      obtain ⟨hnow, hpart, hwhole⟩ := (keeps_perform_iff hpass).mp h
      exact (keeps_perform_iff hpass).mpr ⟨hnow, hpart, fun r d hd => ih r (hk r) (hwhole r d hd)⟩
    | some r =>
      obtain ⟨hnow, hpassed, hfired⟩ := (keeps_timer_iff hpass).mp h
      refine (keeps_timer_iff hpass).mpr ⟨hnow, ih r (hk r) hpassed, ?_⟩
      intro r' hr d hd
      rw [inProgress_bind (hguards r hpass)] at hd
      exact ih r' (hk r') (hfired r' hr d hd)

/-- Sequencing with early return. -/
theorem Keeps.bind_run {ε : Type w} {p : ExceptT ε (Prog E R) α} {f : α → ExceptT ε (Prog E R) α'}
    {post : Except ε α → List γ → List β → Prop} {post' : Except ε α' → List γ → List β → Prop}
    (hp : TimersGuard o p.run) (h : Keeps o Q post p.run seen out)
    (herror : ∀ e seen out, post (.error e) seen out → post' (.error e) seen out)
    (hok : ∀ a seen out, Q seen out → post (.ok a) seen out → Keeps o Q post' (f a).run seen out) :
    Keeps o Q post' (p >>= f).run seen out := by
  show Keeps o Q post' (p.run >>= ExceptT.bindCont f) seen out
  refine Keeps.bind hp (h.mono (fun _ _ hQ => hQ) ?_)
  intro r seen out hQ hr
  cases r with
  | error e => exact ⟨hQ, herror e seen out hr⟩
  | ok a => exact hok a seen out hQ hr

theorem timersGuard_bind {p : Prog E R α} {f : α → Prog E R α'} (hp : TimersGuard o p)
    (hf : ∀ a, TimersGuard o (f a)) : TimersGuard o (p.bind f) := by
  induction p with
  | pure a => exact hf a
  | perform e k ih =>
    refine ⟨?_, fun r => ih r (hp.2 r)⟩
    intro r hr
    rw [inProgress_bind (hp.1 r hr)]
    exact hp.1 r hr

theorem timersGuard_of_only {p : Prog E R α} (h : Only (fun e => o.passes e = none) p) :
    TimersGuard o p := by
  induction p with
  | pure a => trivial
  | perform e k ih =>
    refine ⟨?_, fun r => ih r (h.2 r)⟩
    intro r hr
    rw [h.1] at hr
    exact absurd hr (by simp)

section Timer

variable {timer : E} {fires : R timer → Bool} {pass : R timer}

theorem timersGuard_withTimer {p : Prog E R α} (hpass : o.passes timer = some pass)
    (hfires : fires pass = false) (h : Only (fun e => o.passes e = none) p) :
    TimersGuard o (withTimer timer fires p) := by
  induction p with
  | pure a => trivial
  | perform e k ih =>
    unfold withTimer
    refine ⟨?_, ?_⟩
    · intro r hr
      obtain rfl := Option.some.inj (hpass.symm.trans hr)
      dsimp only
      rw [if_neg (by simp [hfires]), inProgress_perform h.1]
      rfl
    · intro r
      dsimp only
      split_ifs
      · trivial
      · refine ⟨?_, fun r => ih r (h.2 r)⟩
        intro r hr
        rw [h.1] at hr
        exact absurd hr (by simp)

/-- If a program keeps what is asked for when the timer fires, it may run under the timer. -/
theorem Keeps.withTimer {p : Prog E R α} {post : Option α → List γ → List β → Prop}
    (hpass : o.passes timer = some pass) (hfires : ∀ r, fires r = true ↔ r ≠ pass)
    (htimers : Only (fun e => o.passes e = none) p)
    (h : Keeps o (fun seen out => Q seen out ∧ post none seen out) (fun a => post (some a)) p
      seen out) : Keeps o Q post (Effects.withTimer timer fires p) seen out := by
  induction p generalizing seen out with
  | pure a => exact ⟨h.1.1, h.2⟩
  | perform e k ih =>
    obtain ⟨he, hk⟩ := htimers
    obtain ⟨hnow, hpart, hwhole⟩ := (keeps_perform_iff he).mp h
    have hnot : ¬ fires pass = true := fun hf => (hfires pass).mp hf rfl
    unfold Effects.withTimer
    refine (keeps_timer_iff hpass).mpr ⟨hnow.1, ?_, ?_⟩
    · rw [if_neg hnot]
      exact (keeps_perform_iff he).mpr
        ⟨hnow.1, fun d hd => (hpart d hd).1, fun r d hd => ih r (hk r) (hwhole r d hd)⟩
    · intro r' hr d hd
      rw [if_neg hnot] at hd
      rw [if_pos ((hfires r').mpr hr)]
      rcases hd with rfl | ⟨e', he', hd⟩
      · rw [List.append_nil]
        exact hnow
      · rw [inProgress_perform he] at he'
        obtain rfl := Option.some.inj he'
        exact hpart d hd

end Timer

theorem Only.inProgress {P : E → Prop} {p : Prog E R α} (h : Only P p) {e : E}
    (he : inProgress o p = some e) : P e := by
  induction p with
  | pure a => exact absurd he (by simp [Effects.inProgress])
  | perform e' k ih =>
    cases hpass : o.passes e' with
    | none =>
      rw [inProgress_perform hpass] at he
      obtain rfl := Option.some.inj he
      exact h.1
    | some r =>
      rw [inProgress_timer hpass] at he
      exact ih r (h.2 r) he

/-- An invariant of the operations that a program may perform. -/
theorem keeps_of_only {P : E → Prop}
    (hpart : ∀ e, P e → ∀ seen out d, Q seen out → o.partly e d → Q seen (out ++ d))
    (hwhole : ∀ e, P e → ∀ r seen out d, Q seen out → o.wholly e r d →
      Q (seen ++ o.sees e r) (out ++ d)) {p : Prog E R α} (hp : Only P p) (h : Q seen out) :
    Keeps o Q (fun _ => Q) p seen out := by
  induction p generalizing seen out with
  | pure a => exact ⟨h, h⟩
  | perform e k ih =>
    cases hpass : o.passes e with
    | none =>
      exact (keeps_perform_iff hpass).mpr ⟨h, fun d hd => hpart e hp.1 _ _ d h hd,
        fun r d hd => ih r (hp.2 r) (hwhole e hp.1 r _ _ d h hd)⟩
    | some r =>
      refine (keeps_timer_iff hpass).mpr ⟨h, ih r (hp.2 r) h, ?_⟩
      rintro r' - d (rfl | ⟨e', he', hd⟩)
      · rw [List.append_nil]
        exact ih r' (hp.2 r') h
      · exact ih r' (hp.2 r') (hpart e' ((hp.2 r).inProgress he') _ _ d h hd)

/-! ### Runs -/

/-- What the logic says of a moment. -/
def Moment.Keeps (o : Observer E R β γ) (Q : List γ → List β → Prop)
    (post : α → List γ → List β → Prop) (m : Moment E R α β γ) : Prop :=
  ∃ out, m.out = out ++ m.done ∧ Effects.Keeps o Q post m.program m.seen out ∧
    (m.done = [] ∨ ∃ e, inProgress o m.program = some e ∧ o.partly e m.done)

theorem Moment.Keeps.now {m : Moment E R α β γ} (h : m.Keeps o Q post) : Q m.seen m.out := by
  obtain ⟨out, hout, hkeeps, hdone | ⟨e, he, hd⟩⟩ := h
  · rw [hout, hdone, List.append_nil]
    exact hkeeps.now
  · rw [hout]
    exact hkeeps.inProgress he hd

theorem Moment.Keeps.advance {m m' : Moment E R α β γ} (h : m.Keeps o Q post)
    (hstep : Advance o m m') : m'.Keeps o Q post := by
  obtain ⟨out, hout, hkeeps, hdone⟩ := h
  cases hstep with
  | @emits e chunk he hd =>
    refine ⟨out, ?_, hkeeps, Or.inr ⟨e, he, hd⟩⟩
    rw [hout, List.append_assoc]
  | @answers e k r hp hpass hd =>
    rw [hp] at hkeeps
    refine ⟨out ++ m.done, ?_, ((keeps_perform_iff hpass).mp hkeeps).2.2 r _ hd, Or.inl rfl⟩
    rw [hout, List.append_nil]
  | @passes e k r hp hpass =>
    rw [hp] at hkeeps hdone
    refine ⟨out, hout, ((keeps_timer_iff hpass).mp hkeeps).2.1, ?_⟩
    rw [inProgress_timer hpass] at hdone
    exact hdone
  | @fires e k r r' hp hpass hr =>
    rw [hp] at hkeeps hdone
    rw [inProgress_timer hpass] at hdone
    refine ⟨out ++ m.done, ?_, ((keeps_timer_iff hpass).mp hkeeps).2.2 r' hr _ hdone, Or.inl rfl⟩
    rw [hout, List.append_nil]

/-- If every answer has an output that the operation can show, then every run of the program is a run
in such steps. -/
theorem advances_of_reaches
    (hshows : ∀ e r, o.passes e = none → ∃ d, o.partly e d ∧ o.wholly e r d) {p q : Prog E R α}
    {tr : List (Event E R)} (h : Reaches p tr q) (seen : List γ) (out : List β) :
    ∃ seen' out', Relation.ReflTransGen (Advance o) ⟨p, seen, out, []⟩ ⟨q, seen', out', []⟩ := by
  induction h generalizing seen out with
  | refl p => exact ⟨seen, out, .refl⟩
  | @perform e k r tr q h ih =>
    cases hpass : o.passes e with
    | none =>
      obtain ⟨d, hpart, hwhole⟩ := hshows e r hpass
      obtain ⟨seen', out', hrest⟩ := ih (seen ++ o.sees e r) (out ++ d)
      refine ⟨seen', out', .head (.emits (inProgress_perform hpass) hpart) (.head ?_ hrest)⟩
      exact .answers r rfl hpass hwhole
    | some r₀ =>
      obtain ⟨seen', out', hrest⟩ := ih seen out
      refine ⟨seen', out', .head ?_ hrest⟩
      by_cases hr : r = r₀
      · subst hr
        exact .passes rfl hpass
      · exact .fires r rfl hpass hr

end Scety.Effects
