import Scety.Config.Services
import Scety.Core.EdgeDoubleStar
import Scety.Core.LetterCase

/-!
# `network/cert_check.rs`: names of a certificate and patterns of a service

`domain_matches` cuts the first label off the pattern as TLS cuts it off a host name.  For a host
name that is TLS name matching (`domainMatches_iff`).  For a pattern it says something about the
hosts that the router sends to the service only if the pattern is a name or one `*` before a name
(`coverage_agrees_iff`).
-/

namespace Scety

open Glob

def domainMatches (san host : Str) : Bool :=
  match stripPrefix ['*', '.'] san with
  | some rest =>
    match Split.splitOnce '.' host with
    | some (_, remainder) => strEqIgnoreAsciiCase remainder rest
    | none => false
  | none => strEqIgnoreAsciiCase san host

/-- TLS name matching: `*.rest` covers one label (which may be empty, as in the router) before
`rest`, any other name covers itself, both up to ASCII case. -/
def TlsCovers (san host : Str) : Prop :=
  (∃ rest x r, san = '*' :: '.' :: rest ∧ host = x ++ '.' :: r ∧ '.' ∉ x ∧ SameUpToCase r rest) ∨
    (¬ ['*', '.'] <+: san ∧ SameUpToCase san host)

theorem stripPrefix_cons_cons (rest : Str) :
    stripPrefix ['*', '.'] ('*' :: '.' :: rest) = some rest := stripPrefix_append ['*', '.'] rest

theorem stripPrefix_eq_none {name key : Str} (h : ¬ name <+: key) : stripPrefix name key = none :=
  if_neg h

/-- On host names, `domain_matches` is TLS name matching. -/
theorem domainMatches_iff {san host : Str} : domainMatches san host = true ↔ TlsCovers san host := by
  unfold domainMatches TlsCovers
  by_cases hpre : ['*', '.'] <+: san
  · obtain ⟨rest, rfl⟩ := hpre
    rw [List.cons_append, List.singleton_append, stripPrefix_cons_cons]
    dsimp only
    have hleft : ¬ (¬ ['*', '.'] <+: '*' :: '.' :: rest ∧ SameUpToCase ('*' :: '.' :: rest) host) :=
      fun h => h.1 ⟨rest, rfl⟩
    rw [or_iff_left hleft]
    cases hsplit : Split.splitOnce '.' host with
    | none =>
      simp only [Bool.false_eq_true, false_iff]
      rintro ⟨rest', x, r, -, hhost, hx, -⟩
      rw [Split.splitOnce_eq_some_iff.mpr ⟨hhost, hx⟩] at hsplit
      exact absurd hsplit (by simp)
    | some p =>
      obtain ⟨x, r⟩ := p
      dsimp only
      rw [strEqIgnoreAsciiCase_iff]
      refine ⟨fun h => ⟨rest, x, r, rfl, (Split.splitOnce_eq_some_iff.mp hsplit).1,
        (Split.splitOnce_eq_some_iff.mp hsplit).2, h⟩, ?_⟩
      rintro ⟨rest', x', r', hrest, hhost, hx, h⟩
      obtain rfl : rest = rest' := by simpa using hrest
      rw [Split.splitOnce_eq_some_iff.mpr ⟨hhost, hx⟩] at hsplit
      obtain ⟨rfl, rfl⟩ := Prod.mk.inj (Option.some.inj hsplit)
      exact h
  · rw [stripPrefix_eq_none hpre]
    dsimp only
    rw [strEqIgnoreAsciiCase_iff]
    refine ⟨fun h => Or.inr ⟨hpre, h⟩, ?_⟩
    rintro (⟨rest, x, r, rfl, -⟩ | ⟨-, h⟩)
    · exact absurd ⟨rest, rfl⟩ hpre
    · exact h

/-! ### The patterns that find a host name -/

/-- A host name for the label of a pattern. -/
def concreteLabel (l : Str) : Str := if l = star ∨ l = doubleStar then ['a'] else l

/-- A pattern that finds host names without a `*`: its labels with a `*` are all `*` or `**`, and it
is not of the repeated kind. -/
def Routable (p : Str) : Prop :=
  ¬ RepeatedInner p ∧ ∀ l ∈ labels p, '*' ∈ l → l = star ∨ l = doubleStar

theorem covers_concreteLabel (ls : List Str) : Covers (tokens ls) (ls.map concreteLabel) := by
  induction ls with
  | nil => exact .nil
  | cons l ls ih =>
    rw [tokens_cons, List.map_cons]
    unfold token concreteLabel
    by_cases hs : l = star
    · rw [if_pos hs]
      exact .one ih
    · by_cases hd : l = doubleStar
      · rw [if_neg hs, if_pos hd]
        exact .anyCons (.anyNil ih)
      · rw [if_neg hs, if_neg hd, if_neg (not_or.mpr ⟨hs, hd⟩)]
        exact .lit ih

theorem star_notMem_of_labels {h : Str} (hl : ∀ l ∈ labels h, '*' ∉ l) : '*' ∉ h := by
  intro hm
  obtain ⟨l, hlm, hml⟩ := Split.exists_mem_splitOn hm (by decide : '*' ≠ '.')
  exact hl l hlm hml

theorem hits_of_covers {p h : Str} (hrep : ¬ RepeatedInner p)
    (hcov : Covers (tokens (labels p)) (labels h)) : (classify p).Hits h :=
  (hits_iff p h).mpr ⟨Or.inr (Or.inr hcov), fun hr => absurd hr hrep⟩

/-- A pattern is routable exactly if it finds some host name. -/
theorem routable_iff {p : Str} : Routable p ↔ ∃ h, '*' ∉ h ∧ (classify p).Hits h := by
  refine ⟨fun ⟨hrep, hstar⟩ => ?_, ?_⟩
  · have hdot : ∀ l ∈ (labels p).map concreteLabel, '.' ∉ l := by
      rw [List.forall_mem_map]
      intro l hl
      unfold concreteLabel
      split_ifs
      · decide
      · exact dot_notMem_of_mem_labels hl
    have hne : (labels p).map concreteLabel ≠ [] :=
      List.map_eq_nil_iff.not.mpr (List.length_pos_iff.mp (labels_length_pos p))
    have hlabels := labels_joinDots hdot hne
    refine ⟨joinDots ((labels p).map concreteLabel), star_notMem_of_labels ?_,
      hits_of_covers hrep ?_⟩
    · rw [hlabels, List.forall_mem_map]
      intro l hl
      unfold concreteLabel
      split_ifs with hlone
      · decide
      · exact fun hm => hlone (hstar l hl hm)
    · rw [hlabels]
      exact covers_concreteLabel (labels p)
  · rintro ⟨h, hh, hhit⟩
    obtain ⟨hcov, hlit⟩ := (hits_iff p h).mp hhit
    refine ⟨fun hrep => ?_, fun l hl hm => ?_⟩
    · obtain ⟨a, b, mid, hp, hda, hlabels⟩ := hlit hrep
      have hb : doubleStar ∈ b := by
        have hmany := hrep.2.2
        rw [hp, List.count_append, List.count_eq_zero.mpr hda, List.count_cons_self] at hmany
        exact List.count_pos_iff.mp (by omega)
      have hmem : doubleStar ∈ labels h := hlabels ▸ List.mem_append_right _ hb
      exact star_notMem_of_mem_labels hh hmem (by decide)
    · by_contra hlone
      obtain ⟨hs, hd⟩ := not_or.mp hlone
      rcases hcov with rfl | rfl | hcov
      · exact hs (List.mem_singleton.mp hl)
      · exact hd (List.mem_singleton.mp hl)
      · have hmem : l ∈ labels h := by
          refine hcov.mem_of_lit ?_
          rw [← token_of_literal hs hd]
          exact List.mem_map_of_mem hl
        exact star_notMem_of_mem_labels hh hmem hm

/-! ### Coverage against routing -/

section Coverage

variable {s p h : Str}

/-- A name that covers only itself covers no host name if it has a `*`. -/
theorem not_tlsCovers_of_star (hs : ¬ ['*', '.'] <+: s) (hp : SameUpToCase s p) (hstar : '*' ∈ p)
    (hh : '*' ∉ h) : ¬ TlsCovers s h := by
  rintro (⟨rest, x, r, rfl, -⟩ | ⟨-, h'⟩)
  · exact hs ⟨rest, rfl⟩
  · exact hh ((h'.mem_iff (by decide)).mp ((hp.mem_iff (by decide)).mpr hstar))

/-- What `*.rest` covers ends in `rest`. -/
theorem exists_of_tlsCovers_cons {rest : Str} (hc : TlsCovers ('*' :: '.' :: rest) h) :
    ∃ x r, h = x ++ '.' :: r ∧ '.' ∉ x ∧ SameUpToCase r rest := by
  obtain ⟨rest', x, r, hrest, hh, hx, hr⟩ | ⟨hno, -⟩ := hc
  · obtain rfl : rest = rest' := by simpa using hrest
    exact ⟨x, r, hh, hx, hr⟩
  · exact absurd ⟨rest, rfl⟩ hno

/-- A pattern without `*` finds itself only. -/
theorem eq_of_hits_of_star_notMem (hp : '*' ∉ p) (hhit : (classify p).Hits h) : h = p := by
  obtain ⟨hcov, -⟩ := (hits_iff p h).mp hhit
  rcases hcov with rfl | rfl | hcov
  · exact absurd List.mem_cons_self hp
  · exact absurd List.mem_cons_self hp
  · rw [tokens_labels_of_star_notMem hp, covers_map_lit_iff] at hcov
    exact labels_injective hcov

/-- `*.d` finds one label before `d`. -/
theorem exists_of_hits_leading {d : Str} (hd : '*' ∉ d)
    (hhit : (classify ('*' :: '.' :: d)).Hits h) : ∃ x, h = x ++ '.' :: d ∧ '.' ∉ x := by
  obtain ⟨hcov, -⟩ := (hits_iff _ h).mp hhit
  have hne : ('*' :: '.' :: d) ≠ star ∧ ('*' :: '.' :: d) ≠ doubleStar := by
    refine ⟨fun he => ?_, fun he => ?_⟩
    · exact absurd (congrArg List.length he) (by simp [star])
    · obtain ⟨-, htail⟩ := List.cons_eq_cons.mp he
      exact absurd (List.cons_eq_cons.mp htail).1 (by decide)
  rw [patternCovers_iff hne.1 hne.2, ← splitOnce_iff_covers hd] at hcov
  obtain ⟨x, hx⟩ := hcov
  exact ⟨x, Split.splitOnce_eq_some_iff.mp hx⟩

theorem prefix_of_sameUpToCase {d : Str} (h : SameUpToCase s ('*' :: '.' :: d)) :
    ['*', '.'] <+: s := by
  have hs : s.map Char.toLower = '*' :: '.' :: lowercase d := h
  obtain ⟨a, t, rfl, ha, ht⟩ := List.map_eq_cons_iff.mp hs
  obtain ⟨b, u, rfl, hb, -⟩ := List.map_eq_cons_iff.mp ht
  obtain rfl := (toLower_eq_iff (by decide)).mp ha
  obtain rfl := (toLower_eq_iff (by decide)).mp hb
  exact ⟨u, rfl⟩

/-- A name or one `*` before a name. -/
def PlainOrOneStar (p : Str) : Prop := '*' ∉ p ∨ ∃ d, p = '*' :: '.' :: d ∧ '*' ∉ d

/-- For these patterns, a SAN accepted for the pattern covers what the router sends. -/
theorem TlsCovers.of_hits (hc : TlsCovers s p) (hp : PlainOrOneStar p)
    (hhit : (classify p).Hits h) : TlsCovers s h := by
  rcases hp with hfree | ⟨d, rfl, hd⟩
  · exact eq_of_hits_of_star_notMem hfree hhit ▸ hc
  · obtain ⟨x, rfl, hx⟩ := exists_of_hits_leading hd hhit
    obtain ⟨rest, y, r, rfl, hy, hdot, hr⟩ | ⟨hno, hsame⟩ := hc
    · refine Or.inl ⟨rest, x, d, rfl, rfl, hx, ?_⟩
      have hcut := Split.splitOnce_eq_some_iff.mpr ⟨hy, hdot⟩
      have hcut' : Split.splitOnce '.' ('*' :: '.' :: d) = some (['*'], d) :=
        Split.splitOnce_eq_some_iff.mpr ⟨rfl, by decide⟩
      obtain ⟨-, rfl⟩ := Prod.mk.inj (Option.some.inj (hcut.symm.trans hcut'))
      exact hr
    · exact absurd (prefix_of_sameUpToCase hsame) hno

/-- For every other routable pattern, there is a host name that is sent and not covered. -/
theorem TlsCovers.exists_uncovered (hc : TlsCovers s p) (hr : Routable p)
    (hp : ¬ PlainOrOneStar p) : ∃ h, '*' ∉ h ∧ (classify p).Hits h ∧ ¬ TlsCovers s h := by
  obtain ⟨hstar, hno⟩ := not_or.mp hp
  rw [not_not] at hstar
  obtain ⟨h, hh, hhit⟩ := routable_iff.mp hr
  obtain ⟨rest, x, r, rfl, rfl, hx, hsame⟩ | ⟨hs, hsame⟩ := hc
  · by_cases hrstar : '*' ∈ r
    · refine ⟨h, hh, hhit, fun hcov => hh ?_⟩
      obtain ⟨y, r', rfl, -, hr'⟩ := exists_of_tlsCovers_cons hcov
      have hmem := ((hr'.trans hsame.symm).mem_iff (by decide)).mpr hrstar
      exact List.mem_append_right _ (List.mem_cons_of_mem _ hmem)
    · -- only the first label has a star, and it is `**`: the rest alone is found too
      have hls : labels (x ++ '.' :: r) = x :: labels r := Split.splitOn_cons_of_notMem hx r
      have hxstar : '*' ∈ x := by
        rcases List.mem_append.mp hstar with hm | hm
        · exact hm
        · exact absurd ((List.mem_cons.mp hm).resolve_left (by decide)) hrstar
      rcases hr.2 x (hls ▸ List.mem_cons_self) hxstar with rfl | rfl
      · exact absurd ⟨r, rfl, hrstar⟩ hno
      · refine ⟨r, hrstar, hits_of_covers hr.1 ?_, fun hcov => ?_⟩
        · rw [hls, tokens_cons, token_doubleStar]
          exact .anyNil (covers_tokens_self (labels r))
        · obtain ⟨y, r', rfl, -, hr'⟩ := exists_of_tlsCovers_cons hcov
          have hlen := (hr'.trans hsame.symm).length_eq
          rw [List.length_append, List.length_cons] at hlen
          omega
  · exact ⟨h, hh, hhit, not_tlsCovers_of_star hs hsame hstar hh⟩

end Coverage

/-- **Certificate coverage agrees with routing**: a SAN accepted for a pattern covers every host
name that a router with only this pattern finds, if and only if the pattern finds none, or is a
name or one `*` before a name. -/
theorem coverage_agrees_iff (s p : Str) (i : ℕ) :
    (domainMatches s p = true → ∀ h, '*' ∉ h →
      ((HostRouter.new.addPattern p i).matches h).isSome → TlsCovers s h) ↔
      (domainMatches s p = true → Routable p → PlainOrOneStar p) := by
  refine imp_congr_ctx Iff.rfl fun hm => ?_
  have hc : TlsCovers s p := domainMatches_iff.mp hm
  simp only [matches_single_isSome_iff]
  refine ⟨fun hall hr => ?_, fun hplain h hh hhit => ?_⟩
  · by_contra hp
    obtain ⟨h, hh, hhit, hno⟩ := hc.exists_uncovered hr hp
    exact hno (hall h hh hhit)
  · exact hc.of_hits (hplain (routable_iff.mpr ⟨h, hh, hhit⟩)) hhit

/-- `*.example.com` is accepted for `**.example.com`, which is found for `a.b.example.com`. -/
theorem coverage_not_agreeing : ¬ ∀ s p i, domainMatches s p = true → ∀ h, '*' ∉ h →
    ((HostRouter.new.addPattern p i).matches h).isSome → TlsCovers s h := by
  intro hall
  have hcov : TlsCovers "*.example.com".toList "a.b.example.com".toList :=
    hall _ "**.example.com".toList 0 (by decide) _ (by decide) (by decide)
  exact absurd (domainMatches_iff.mpr hcov) (by decide)

end Scety
