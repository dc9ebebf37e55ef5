import Scety.Network.Headers

/-!
# When the framing guard is exact

The guard keeps the last Transfer-Encoding value only and trims it as Unicode text.  So it accepts
some lists that are ambiguous to an HTTP peer (`framing_exact_iff`).
-/

namespace Scety

/-- The values of the headers with a name, in order. -/
def valuesOf (name : Str) (headers : List Header) : List Bytes :=
  (headers.filter fun h => h.named name).map Header.value

def contentLengths : List Header → List Bytes := valuesOf contentLengthName

def transferEncodings : List Header → List Bytes := valuesOf transferEncodingName

/-- SP or HTAB. -/
def isOws (b : UInt8) : Bool := b = 32 ∨ b = 9

/-- The value is the coding `chunked`, between optional SP and HTAB. -/
def IsChunkedCoding (value : Bytes) : Prop :=
  eqIgnoreAsciiCase (Trim.trim isOws value) (bytes "chunked".toList) = true

/-- The message framing is unambiguous. -/
def ExactFraming (headers : List Header) : Prop :=
  (∀ v ∈ contentLengths headers, ∀ w ∈ contentLengths headers, v = w) ∧
    ¬ (contentLengths headers ≠ [] ∧ transferEncodings headers ≠ []) ∧
      (transferEncodings headers ≠ [] → ∃ v, transferEncodings headers = [v] ∧ IsChunkedCoding v)

/-! ### What the loop computes -/

theorem not_named_both (h : Header) :
    ¬ (h.named contentLengthName = true ∧ h.named transferEncodingName = true) := by
  rintro ⟨hc, ht⟩
  have hc' := of_decide_eq_true hc
  have ht' := of_decide_eq_true ht
  exact absurd (hc'.symm.trans ht') (by decide)

theorem valuesOf_cons (name : Str) (h : Header) (hs : List Header) :
    valuesOf name (h :: hs) = if h.named name then h.value :: valuesOf name hs else valuesOf name hs := by
  unfold valuesOf
  rw [List.filter_cons]
  split_ifs <;> rfl

theorem contentLengths_cons (h : Header) (hs : List Header) : contentLengths (h :: hs) =
    if h.named contentLengthName then h.value :: contentLengths hs else contentLengths hs :=
  valuesOf_cons _ h hs

theorem transferEncodings_cons (h : Header) (hs : List Header) : transferEncodings (h :: hs) =
    if h.named transferEncodingName then h.value :: transferEncodings hs
    else transferEncodings hs :=
  valuesOf_cons _ h hs

/-- The loop succeeds if all Content-Length values are the first one, and ends with that one and the
last Transfer-Encoding value. -/
theorem foldlM_framingStep {hs : List Header} {st st' : Framing} :
    hs.foldlM framingStep st = .ok st' ↔
      (∀ c ∈ st.contentLength.or (contentLengths hs).head?, ∀ v ∈ contentLengths hs, v = c) ∧
        st' = ⟨st.contentLength.or (contentLengths hs).head?,
          (transferEncodings hs).getLast?.or st.transferEncoding⟩ := by
  induction hs generalizing st with
  | nil =>
    obtain ⟨cl, te⟩ := st
    rw [List.foldlM_nil]
    show Except.ok _ = Except.ok _ ↔ _
    simp [contentLengths, transferEncodings, valuesOf, eq_comm]
  | cons h hs ih =>
    rw [List.foldlM_cons, contentLengths_cons, transferEncodings_cons]
    by_cases hc : h.named contentLengthName = true
    · have ht : ¬ h.named transferEncodingName = true := fun ht => not_named_both h ⟨hc, ht⟩
      rw [if_pos hc, if_neg ht]
      cases hst : st.contentLength with
      | none =>
        have hstep : framingStep st h = .ok { st with contentLength := some h.value } := by
          unfold framingStep
          rw [if_pos hc, hst]
        rw [hstep]
        show hs.foldlM framingStep _ = _ ↔ _
        rw [ih]
        simp
      | some prev =>
        by_cases hprev : prev = h.value
        · have hstep : framingStep st h = .ok st := by
            unfold framingStep
            rw [if_pos hc, hst]
            exact if_pos hprev
          rw [hstep]
          show hs.foldlM framingStep _ = _ ↔ _
          rw [ih, hst]
          simp [hprev]
        · have hstep : framingStep st h =
              .error "multiple Content-Length headers with different values".toList := by
            unfold framingStep
            rw [if_pos hc, hst]
            exact if_neg hprev
          rw [hstep]
          refine ⟨fun herr => absurd herr (by simp [bind, Except.bind]), ?_⟩
          intro hall
          exact absurd (hall.1 prev rfl h.value List.mem_cons_self).symm hprev
    · rw [if_neg hc]
      by_cases ht : h.named transferEncodingName = true
      · have hstep : framingStep st h = .ok { st with transferEncoding := some h.value } := by
          unfold framingStep
          rw [if_neg hc, if_pos ht]
        rw [if_pos ht, hstep]
        show hs.foldlM framingStep _ = _ ↔ _
        rw [ih, List.getLast?_cons]
        cases (transferEncodings hs).getLast? <;> simp
      · have hstep : framingStep st h = .ok st := by
          unfold framingStep
          rw [if_neg hc, if_neg ht]
        rw [if_neg ht, hstep]
        show hs.foldlM framingStep _ = _ ↔ _
        exact ih

/-- What the guard accepts. -/
theorem validateFramingHeaders_eq_ok_iff {hs : List Header} : validateFramingHeaders hs = .ok () ↔
    (∀ v ∈ contentLengths hs, ∀ w ∈ contentLengths hs, v = w) ∧
      ¬ (contentLengths hs ≠ [] ∧ transferEncodings hs ≠ []) ∧
        ∀ v ∈ (transferEncodings hs).getLast?, isChunked v = true := by
  have heq : (∀ c ∈ (contentLengths hs).head?, ∀ v ∈ contentLengths hs, v = c) ↔
      ∀ v ∈ contentLengths hs, ∀ w ∈ contentLengths hs, v = w := by
    refine ⟨?_, fun hall c hc v hv => hall v hv c (List.mem_of_head? hc)⟩
    intro hall v hv w hw
    obtain ⟨c, hc⟩ := Option.isSome_iff_exists.mp
      (List.isSome_head?.mpr (List.ne_nil_of_mem hv))
    rw [hall c hc v hv, hall c hc w hw]
  rw [← heq]
  unfold validateFramingHeaders
  cases hfold : hs.foldlM framingStep ⟨none, none⟩ with
  | error e =>
    refine ⟨fun h => absurd h (by simp [bind, Except.bind]), ?_⟩
    intro h
    exact absurd (hfold.symm.trans (foldlM_framingStep.mpr ⟨h.1, rfl⟩)) (by simp)
  | ok st =>
    obtain ⟨hall, rfl⟩ := foldlM_framingStep.mp hfold
    rw [Option.none_or] at hall
    rw [and_iff_right hall]
    show (if _ then _ else _) = _ ↔ _
    dsimp only
    rw [Option.none_or, Option.or_none]
    cases hte : (transferEncodings hs).getLast? with
    | none =>
      have hnil : transferEncodings hs = [] := List.getLast?_eq_none_iff.mp hte
      rw [if_neg (fun h => absurd h.1 (by simp)), hnil]
      exact ⟨fun _ => ⟨fun h => h.2 rfl, by simp⟩, fun _ => rfl⟩
    | some v =>
      have hne : transferEncodings hs ≠ [] := by
        intro hnil
        rw [hnil] at hte
        exact absurd hte (by simp)
      dsimp only
      by_cases hcl : contentLengths hs = []
      · rw [if_neg (by rw [hcl]; exact fun h => absurd h.2 (by simp)), hcl]
        by_cases hv : isChunked v = true
        · rw [if_pos hv]
          refine ⟨fun _ => ⟨fun h => h.1 rfl, ?_⟩, fun _ => rfl⟩
          intro w hw
          rw [← Option.some.inj hw]
          exact hv
        · rw [if_neg hv]
          exact ⟨fun h => absurd h (by simp only [reduceCtorEq, not_false_eq_true]),
            fun h => absurd (h.2 v rfl) hv⟩
      · rw [if_pos ⟨rfl, List.isSome_head?.mpr hcl⟩]
        exact ⟨fun h => absurd h (by simp only [reduceCtorEq, not_false_eq_true]),
          fun h => absurd ⟨hcl, hne⟩ h.1⟩

/-! ### The coding `chunked` -/

theorem ascii_letter_of_asciiLower {b t : UInt8} (h : asciiLower b = t) (ht : 97 ≤ t ∧ t ≤ 122) :
    32 < b ∧ b < 128 := by
  unfold asciiLower at h
  simp only [UInt8.le_iff_toNat_le, UInt8.lt_iff_toNat_lt] at *
  split_ifs at h with hb
  · have h65 : 65 ≤ b.toNat := hb.1
    have h90 : b.toNat ≤ 90 := hb.2
    exact ⟨show 32 < b.toNat by omega, show b.toNat < 128 by omega⟩
  · subst h
    have h97 : 97 ≤ b.toNat := ht.1
    have h122 : b.toNat ≤ 122 := ht.2
    exact ⟨show 32 < b.toNat by omega, show b.toNat < 128 by omega⟩

/-- A value that is `chunked` to an HTTP peer is `chunked` to the guard. -/
theorem IsChunkedCoding.isChunked {v : Bytes} (h : IsChunkedCoding v) : isChunked v = true := by
  obtain ⟨u, w, hv, hu, hw⟩ := Trim.exists_trim isOws v
  set core := Trim.trim isOws v with hcore
  have hlower : core.map asciiLower = (bytes "chunked".toList).map asciiLower := of_decide_eq_true h
  have hletters : ∀ b ∈ core, 32 < b ∧ b < 128 := by
    intro b hb
    have hm : asciiLower b ∈ (bytes "chunked".toList).map asciiLower :=
      hlower ▸ List.mem_map_of_mem hb
    have hall : ((bytes "chunked".toList).map asciiLower).all
        (fun t => decide (97 ≤ t ∧ t ≤ 122)) = true := by decide
    exact ascii_letter_of_asciiLower rfl (of_decide_eq_true (List.all_eq_true.mp hall _ hm))
  have hows : ∀ b, isOws b = true → b < 128 ∧ isWhitespace (asciiChar b) = true := by
    intro b hb
    rcases of_decide_eq_true hb with rfl | rfl
    · exact ⟨by decide, rfl⟩
    · exact ⟨by decide, rfl⟩
  have hascii : ∀ b ∈ v, b < 128 := by
    intro b hb
    rw [hv] at hb
    rcases List.mem_append.mp hb with hb | hb
    · rcases List.mem_append.mp hb with hb | hb
      · exact (hows b (hu b hb)).1
      · exact (hletters b hb).2
    · exact (hows b (hw b hb)).1
  have hne : core.map asciiChar ≠ [] := by
    intro hnil
    rw [List.map_eq_nil_iff.mp hnil] at hlower
    exact absurd hlower (by decide)
  have htrim : trim (v.map asciiChar) = core.map asciiChar := by
    rw [hv, List.map_append, List.map_append]
    refine Trim.trim_append ?_ ?_ ?_ hne
    · rintro c hc
      obtain ⟨b, hb, rfl⟩ := List.mem_map.mp hc
      exact (hows b (hu b hb)).2
    · rintro c hc
      obtain ⟨b, hb, rfl⟩ := List.mem_map.mp hc
      exact isWhitespace_asciiChar (hletters b hb).2 (hletters b hb).1
    · rintro c hc
      obtain ⟨b, hb, rfl⟩ := List.mem_map.mp hc
      exact (hows b (hw b hb)).2
  unfold Scety.isChunked
  rw [fromUtf8_ascii hascii, Option.getD_some, htrim, bytes_asciiChar fun b hb => (hletters b hb).2]
  exact h

/-! ### Exactness -/

/-- Without Content-Length, a value that the guard takes for `chunked` is the only
Transfer-Encoding line and is `chunked` up to SP and HTAB. -/
def ChunkedAlone (headers : List Header) : Prop :=
  contentLengths headers = [] → (∃ v ∈ transferEncodings headers, isChunked v = true) →
    ∃ v, transferEncodings headers = [v] ∧ IsChunkedCoding v

section Perm

variable {hs hs' : List Header} (h : hs'.Perm hs)
include h

theorem valuesOf_perm (name : Str) : (valuesOf name hs').Perm (valuesOf name hs) :=
  (h.filter _).map _

theorem ExactFraming.perm (hx : ExactFraming hs) : ExactFraming hs' := by
  have hcl : (contentLengths hs').Perm (contentLengths hs) := valuesOf_perm h _
  have hte : (transferEncodings hs').Perm (transferEncodings hs) := valuesOf_perm h _
  have hnil : ∀ {l l' : List Bytes}, l'.Perm l → l' ≠ [] → l ≠ [] := by
    rintro l l' hp hne rfl
    exact hne hp.eq_nil
  obtain ⟨h1, h2, h3⟩ := hx
  refine ⟨fun v hv w hw => h1 v (hcl.mem_iff.mp hv) w (hcl.mem_iff.mp hw),
    fun hboth => h2 ⟨hnil hcl hboth.1, hnil hte hboth.2⟩, fun hne => ?_⟩
  obtain ⟨v, hv, hchunked⟩ := h3 (hnil hte hne)
  rw [hv] at hte
  exact ⟨v, List.perm_singleton.mp hte, hchunked⟩

theorem ChunkedAlone.perm (hx : ChunkedAlone hs) : ChunkedAlone hs' := by
  have hcl : (contentLengths hs').Perm (contentLengths hs) := valuesOf_perm h _
  have hte : (transferEncodings hs').Perm (transferEncodings hs) := valuesOf_perm h _
  rintro hnil ⟨v, hv, hchunked⟩
  rw [hnil] at hcl
  obtain ⟨w, hw, hcoding⟩ := hx hcl.symm.eq_nil ⟨v, hte.mem_iff.mp hv, hchunked⟩
  rw [hw] at hte
  exact ⟨w, List.perm_singleton.mp hte, hcoding⟩

end Perm

/-- What is unambiguous is accepted. -/
theorem ExactFraming.accepted {hs : List Header} (h : ExactFraming hs) :
    validateFramingHeaders hs = .ok () := by
  obtain ⟨h1, h2, h3⟩ := h
  refine validateFramingHeaders_eq_ok_iff.mpr ⟨h1, h2, ?_⟩
  intro v hv
  obtain ⟨w, hw, hchunked⟩ := h3 (List.ne_nil_of_mem (List.mem_of_getLast? hv))
  rw [hw] at hv
  obtain rfl := Option.some.inj hv
  exact hchunked.isChunked

theorem accepted_iff_exact {hs : List Header} (h : ChunkedAlone hs) :
    validateFramingHeaders hs = .ok () ↔ ExactFraming hs := by
  refine ⟨?_, ExactFraming.accepted⟩
  intro hok
  obtain ⟨h1, h2, h3⟩ := validateFramingHeaders_eq_ok_iff.mp hok
  refine ⟨h1, h2, ?_⟩
  intro hne
  have hcl : contentLengths hs = [] := by
    by_contra hcl
    exact h2 ⟨hcl, hne⟩
  have hlast : (transferEncodings hs).getLast? = some ((transferEncodings hs).getLast hne) :=
    List.getLast?_eq_some_getLast hne
  exact h hcl ⟨_, List.getLast_mem hne, h3 _ hlast⟩

/-- **The framing guard is exact**, in every order of the headers, if and only if a value it takes
for `chunked` is the only Transfer-Encoding line and is `chunked` up to SP and HTAB. -/
theorem framing_exact_iff (headers : List Header) :
    ((validateFramingHeaders headers = .ok () ↔ ExactFraming headers) ∧
      ∀ headers', headers'.Perm headers →
        (validateFramingHeaders headers' = .ok () ↔ validateFramingHeaders headers = .ok ())) ↔
      ChunkedAlone headers := by
  refine ⟨fun ⟨hexact, horder⟩ => ?_, fun h => ⟨accepted_iff_exact h, ?_⟩⟩
  · rintro hcl ⟨v, hv, hchunked⟩
    obtain ⟨x, hx, rfl⟩ := List.mem_map.mp hv
    obtain ⟨hmem, hnamed⟩ := List.mem_filter.mp hx
    obtain ⟨as, bs, rfl⟩ := List.append_of_mem hmem
    -- the order in which the chunked value comes last is accepted
    have hp : (as ++ bs ++ [x]).Perm (as ++ x :: bs) := by
      rw [List.append_assoc]
      exact List.perm_append_left_iff as |>.mpr (List.perm_append_singleton x bs)
    have hcl' : contentLengths (as ++ bs ++ [x]) = [] := by
      have hcls : (contentLengths (as ++ bs ++ [x])).Perm (contentLengths (as ++ x :: bs)) :=
        valuesOf_perm hp _
      rw [hcl] at hcls
      exact hcls.eq_nil
    have hlast : (transferEncodings (as ++ bs ++ [x])).getLast? = some x.value := by
      unfold transferEncodings valuesOf
      rw [List.filter_append]
      simp [hnamed]
    have hok : validateFramingHeaders (as ++ bs ++ [x]) = .ok () := by
      refine validateFramingHeaders_eq_ok_iff.mpr ⟨by rw [hcl']; simp,
        fun hboth => hboth.1 hcl', fun w hw => ?_⟩
      rw [hlast] at hw
      rw [← Option.some.inj hw]
      exact hchunked
    exact (hexact.mp ((horder _ hp).mp hok)).2.2 (List.ne_nil_of_mem hv)
  · intro headers' hp
    rw [accepted_iff_exact h, accepted_iff_exact (h.perm hp)]
    exact ⟨ExactFraming.perm hp.symm, ExactFraming.perm hp⟩

/-- Two Transfer-Encoding lines, the second of them `chunked`. -/
def gzipThenChunked : List Header :=
  [⟨transferEncodingName, bytes "gzip".toList⟩, ⟨transferEncodingName, bytes "chunked".toList⟩]

theorem framing_not_exact :
    ¬ (validateFramingHeaders gzipThenChunked = .ok () ↔ ExactFraming gzipThenChunked) := by
  have hchunked : IsChunkedCoding (bytes "chunked".toList) := by
    unfold IsChunkedCoding
    decide
  have hte : transferEncodings gzipThenChunked =
      [bytes "gzip".toList, bytes "chunked".toList] := by decide
  have hcl : contentLengths gzipThenChunked = [] := by decide
  have hok : validateFramingHeaders gzipThenChunked = .ok () := by
    refine validateFramingHeaders_eq_ok_iff.mpr ⟨by simp [hcl], by simp [hcl], ?_⟩
    intro v hv
    rw [hte] at hv
    rw [← Option.some.inj hv]
    exact hchunked.isChunked
  intro hiff
  obtain ⟨v, hv, -⟩ := (hiff.mp hok).2.2 (by rw [hte]; simp)
  rw [hte] at hv
  exact absurd hv (by simp)

end Scety
