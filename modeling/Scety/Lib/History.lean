import Scety.Lib.Monitor

/-!
# Programs that remember

The monitor that allows an operation by what was done before it.  A program that obeys it is one whose
operations are all justified by its own history, so the rules here are those of a program logic whose
assertions speak of the events so far.
-/

universe u v w

namespace Scety.Effects

variable {E : Type u} {R : E → Type v} {α β : Type w} {ε : Type w}

open Classical in
/-- The monitor that remembers all events and allows the operations that `A` allows after them. -/
noncomputable def Monitor.history (A : List (Event E R) → E → Prop) :
    Monitor E R (List (Event E R)) where
  next tr ev := if A tr ev.1 then some (tr ++ [ev]) else none

variable {A : List (Event E R) → E → Prop} {I : List (Event E R) → Prop} {tr tr' : List (Event E R)}
  {ev : Event E R}

namespace Monitor

theorem history_next (h : A tr ev.1) : (history A).next tr ev = some (tr ++ [ev]) := if_pos h

theorem history_next_iff :
    (history A).next tr ev = some tr' ↔ A tr ev.1 ∧ tr' = tr ++ [ev] := by
  refine ⟨?_, ?_⟩
  · intro h
    by_cases hA : A tr ev.1
    · rw [history_next hA] at h
      exact ⟨hA, (Option.some.inj h).symm⟩
    · have hnone : (history A).next tr ev = none := if_neg hA
      rw [hnone] at h
      exact nomatch h
  · rintro ⟨hA, rfl⟩
    exact history_next hA

/-- It ends with the events that it has read. -/
theorem after_history (h : (history A).after [] tr = some tr') : tr' = tr :=
  after_invariant (J := fun tr s => s = tr) rfl
    (fun tr s₁ ev s₂ hs hev => by rw [(history_next_iff.mp hev).2, hs]) h

end Monitor

theorem only_true (p : Prog E R α) : Only (fun _ => True) p := by
  induction p with
  | pure a => trivial
  | perform e k ih => exact ⟨trivial, ih⟩

/-! ### Rules -/

section Rules

variable {post : α → List (Event E R) → Prop}

/-- An operation that is allowed, and then the program that goes on with its answer. -/
theorem obeys_perform {e : E} {k : R e → Prog E R α} (hI : I tr) (hA : A tr e)
    (hk : ∀ r, Obeys (Monitor.history A) I post (k r) (tr ++ [⟨e, r⟩])) :
    Obeys (Monitor.history A) I post (.perform e k) tr :=
  ⟨hI, fun r => ⟨_, Monitor.history_next hA, hk r⟩⟩

/-- What the operations of a program leave alone holds at its end if it holds before it. -/
theorem Obeys.frame {P : E → Prop} {K : List (Event E R) → Prop} {p : Prog E R α}
    (h : Obeys (Monitor.history A) I post p tr) (hp : Only P p)
    (hK : ∀ tr ev, P ev.1 → K tr → K (tr ++ [ev])) (htr : K tr) :
    Obeys (Monitor.history A) I (fun a s => K s ∧ post a s) p tr := by
  induction p generalizing tr with
  | pure a => exact ⟨htr, h⟩
  | perform e k ih =>
    refine ⟨h.1, ?_⟩
    intro r
    obtain ⟨s', hs', hk⟩ := h.2 r
    obtain ⟨-, rfl⟩ := Monitor.history_next_iff.mp hs'
    exact ⟨_, hs', ih r hk (hp.2 r) (hK tr ⟨e, r⟩ hp.1 htr)⟩

end Rules

/-! ### Programs that may fail -/

section Triples

/-- From a history that satisfies `pre` every operation of the program is allowed; it ends with a
history that satisfies `post`, or with an error and `failed`. -/
def Triple (A : List (Event E R) → E → Prop) (failed : ε → List (Event E R) → Prop)
    (pre : List (Event E R) → Prop) (p : ExceptT ε (Prog E R) α)
    (post : α → List (Event E R) → Prop) : Prop :=
  ∀ tr, pre tr → Obeys (Monitor.history A) (fun _ => True)
    (fun r s => match r with | .ok a => post a s | .error e => failed e s) p.run tr

variable {failed : ε → List (Event E R) → Prop} {pre : List (Event E R) → Prop}
  {post : α → List (Event E R) → Prop}

theorem triple_pure {a : α} (h : ∀ tr, pre tr → post a tr) :
    Triple A failed pre (pure a : ExceptT ε (Prog E R) α) post := h

theorem triple_throw {e : ε} (h : ∀ tr, pre tr → failed e tr) :
    Triple A failed pre (throw e : ExceptT ε (Prog E R) α) post := h

theorem Triple.mono {pre' : List (Event E R) → Prop} {post' : α → List (Event E R) → Prop}
    {p : ExceptT ε (Prog E R) α} (h : Triple A failed pre p post) (hpre : ∀ tr, pre' tr → pre tr)
    (hpost : ∀ a tr, post a tr → post' a tr) : Triple A failed pre' p post' := by
  intro tr htr
  refine (h tr (hpre tr htr)).mono (fun _ h => h) ?_
  intro r s hr
  cases r with
  | ok a => exact hpost a s hr
  | error e => exact hr

theorem Triple.bind {mid : α → List (Event E R) → Prop} {post : β → List (Event E R) → Prop}
    {p : ExceptT ε (Prog E R) α} {f : α → ExceptT ε (Prog E R) β} (h : Triple A failed pre p mid)
    (hf : ∀ a, Triple A failed (mid a) (f a) post) : Triple A failed pre (p >>= f) post := by
  intro tr htr
  exact (h tr htr).bind_run (fun _ _ h => h) fun a s hs => hf a s hs

/-- What holds from some point of a history on. -/
def Persistent (K : List (Event E R) → Prop) : Prop := ∀ ⦃tr tr'⦄, tr <+: tr' → K tr → K tr'

theorem persistent_mem (ev : Event E R) : Persistent (ev ∈ ·) := fun _ _ h hmem => h.subset hmem

theorem Persistent.and {K K' : List (Event E R) → Prop} (h : Persistent K) (h' : Persistent K') :
    Persistent fun tr => K tr ∧ K' tr := fun _ _ hprefix htr => ⟨h hprefix htr.1, h' hprefix htr.2⟩

/-- A program keeps what its operations leave alone. -/
theorem Triple.frame {P : E → Prop} {K : List (Event E R) → Prop} {p : ExceptT ε (Prog E R) α}
    (h : Triple A failed pre p post) (hp : Only P p.run)
    (hK : ∀ tr ev, P ev.1 → K tr → K (tr ++ [ev])) :
    Triple A failed (fun tr => pre tr ∧ K tr) p fun a tr => post a tr ∧ K tr := by
  rintro tr ⟨hpre, htr⟩
  refine ((h tr hpre).frame hp hK htr).mono (fun _ h => h) ?_
  rintro r s ⟨hs, hr⟩
  cases r with
  | ok a => exact ⟨hr, hs⟩
  | error e => exact hr

/-- A program keeps what persists. -/
theorem Triple.frame_persistent {K : List (Event E R) → Prop} {p : ExceptT ε (Prog E R) α}
    (h : Triple A failed pre p post) (hK : Persistent K) :
    Triple A failed (fun tr => pre tr ∧ K tr) p fun a tr => post a tr ∧ K tr :=
  h.frame (only_true p.run) fun _ _ _ htr => hK (List.prefix_append _ _) htr

end Triples

/-! ### Runs -/

/-- Every operation of a partial run is allowed where it is performed. -/
theorem Obeys.allowed_of_reaches {post : α → List (Event E R) → Prop} {p q : Prog E R α}
    (h : Obeys (Monitor.history A) I post p []) {tr₁ tr₂ : List (Event E R)}
    (hr : Reaches p (tr₁ ++ ev :: tr₂) q) : A tr₁ ev.1 := by
  obtain ⟨s, hafter, -⟩ := h.of_reaches hr
  obtain ⟨s₁, hs₁, hrest⟩ := Monitor.after_append_iff.mp hafter
  obtain ⟨s₂, hnext, -⟩ := Monitor.after_cons_iff.mp hrest
  rw [← Monitor.after_history hs₁]
  exact (Monitor.history_next_iff.mp hnext).1

/-- The assertion at the end of a complete run. -/
theorem Obeys.of_runs {post : α → List (Event E R) → Prop} {p : Prog E R α} {a : α}
    (h : Obeys (Monitor.history A) I post p []) (hr : Runs p tr a) : post a tr := by
  obtain ⟨s, hafter, hpost⟩ := h.of_reaches (reaches_end_iff.mpr hr)
  obtain rfl := Monitor.after_history hafter
  exact hpost

end Scety.Effects
