import Mathlib.Data.List.Basic
import Mathlib.Data.List.Infix

/-!
# Cutting a list into lines

`splitInclusive p l` cuts after every element of `p`, which stays with its piece.  A list of
complete lines is found again in front of any text (`splitInclusive_flatten_append`).
`findWindow` searches for the first occurrence of a list.
-/

namespace Scety.Lines

variable {α β : Type*} {p : α → Bool}

def splitInclusive (p : α → Bool) : List α → List (List α)
  | [] => []
  | a :: l =>
    if p a then [a] :: splitInclusive p l
    else
      match splitInclusive p l with
      | [] => [[a]]
      | s :: ss => (a :: s) :: ss

/-- A complete line: its last element, and no other, is a separator. -/
def IsLine (p : α → Bool) (s : List α) : Prop :=
  ∃ u a, s = u ++ [a] ∧ p a = true ∧ ∀ b ∈ u, p b = false

/-- The text ends with a separator or is empty. -/
def Terminated (p : α → Bool) (l : List α) : Prop := ∀ a ∈ l.getLast?, p a = true

theorem IsLine.cons {a : α} {s : List α} (h : IsLine p s) (ha : p a = false) :
    IsLine p (a :: s) := by
  obtain ⟨u, b, rfl, hb, hu⟩ := h
  refine ⟨a :: u, b, rfl, hb, ?_⟩
  intro c hc
  rcases List.mem_cons.mp hc with rfl | hc
  · exact ha
  · exact hu c hc

theorem splitInclusive_cons_pos {a : α} (h : p a = true) (l : List α) :
    splitInclusive p (a :: l) = [a] :: splitInclusive p l := if_pos h

theorem splitInclusive_cons_neg {a : α} (h : p a = false) {l s : List α} {ss : List (List α)}
    (hl : splitInclusive p l = s :: ss) : splitInclusive p (a :: l) = (a :: s) :: ss := by
  rw [splitInclusive, if_neg (by simp [h]), hl]

@[simp] theorem flatten_splitInclusive (p : α → Bool) (l : List α) :
    (splitInclusive p l).flatten = l := by
  induction l with
  | nil => rfl
  | cons a l ih =>
    unfold splitInclusive
    split_ifs with ha
    · rw [List.flatten_cons, ih]
      rfl
    · cases hl : splitInclusive p l with
      | nil =>
        rw [hl] at ih
        rw [← ih]
        rfl
      | cons s ss =>
        rw [hl] at ih
        rw [← ih]
        rfl

theorem splitInclusive_map (f : β → α) (l : List β) :
    splitInclusive p (l.map f) = (splitInclusive (p ∘ f) l).map (List.map f) := by
  induction l with
  | nil => rfl
  | cons b l ih =>
    rw [List.map_cons]
    unfold splitInclusive
    rw [ih]
    by_cases hb : p (f b) = true
    · rw [if_pos hb, if_pos (show (p ∘ f) b = true from hb)]
      rfl
    · rw [if_neg hb, if_neg (show ¬ (p ∘ f) b = true from hb)]
      cases splitInclusive (p ∘ f) l <;> rfl

/-- A line in front of a text is its first piece. -/
theorem splitInclusive_append_of_isLine {s : List α} (h : IsLine p s) (m : List α) :
    splitInclusive p (s ++ m) = s :: splitInclusive p m := by
  obtain ⟨u, a, rfl, ha, hu⟩ := h
  induction u with
  | nil => exact splitInclusive_cons_pos ha m
  | cons b u ih =>
    have hrest := ih fun c hc => hu c (List.mem_cons_of_mem _ hc)
    exact splitInclusive_cons_neg (hu b List.mem_cons_self) hrest

/-- Lines in front of a text are its first pieces. -/
theorem splitInclusive_flatten_append {ss : List (List α)} (h : ∀ s ∈ ss, IsLine p s)
    (m : List α) : splitInclusive p (ss.flatten ++ m) = ss ++ splitInclusive p m := by
  induction ss with
  | nil => rfl
  | cons s ss ih =>
    obtain ⟨hs, hss⟩ := List.forall_mem_cons.mp h
    rw [List.flatten_cons, List.append_assoc, splitInclusive_append_of_isLine hs, ih hss]
    rfl

/-- A piece has no separator before its last element. -/
theorem exists_of_mem {l s : List α} (h : s ∈ splitInclusive p l) :
    ∃ u a, s = u ++ [a] ∧ ∀ b ∈ u, p b = false := by
  induction l generalizing s with
  | nil => simp [splitInclusive] at h
  | cons a l ih =>
    by_cases ha : p a = true
    · rw [splitInclusive_cons_pos ha] at h
      rcases List.mem_cons.mp h with rfl | h
      · exact ⟨[], a, rfl, by simp⟩
      · exact ih h
    · have ha' : p a = false := by simpa using ha
      cases hss : splitInclusive p l with
      | nil =>
        rw [splitInclusive, if_neg ha, hss] at h
        obtain rfl := List.mem_singleton.mp h
        exact ⟨[], a, rfl, by simp⟩
      | cons t ss =>
        rw [splitInclusive_cons_neg ha' hss] at h
        rw [hss] at ih
        rcases List.mem_cons.mp h with rfl | h
        · obtain ⟨u, b, rfl, hu⟩ := ih List.mem_cons_self
          exact ⟨a :: u, b, rfl, List.forall_mem_cons.mpr ⟨ha', hu⟩⟩
        · exact ih (List.mem_cons_of_mem _ h)

/-- A piece that ends with a separator is a line. -/
theorem isLine_of_getLast {l s : List α} (h : s ∈ splitInclusive p l) {a : α}
    (hlast : s.getLast? = some a) (ha : p a = true) : IsLine p s := by
  obtain ⟨u, b, rfl, hu⟩ := exists_of_mem h
  obtain rfl : b = a := by simpa using hlast
  exact ⟨u, b, rfl, ha, hu⟩

/-- The pieces of a terminated text are lines. -/
theorem isLine_of_mem {l s : List α} (hl : Terminated p l) (h : s ∈ splitInclusive p l) :
    IsLine p s := by
  induction l generalizing s with
  | nil => simp [splitInclusive] at h
  | cons a l ih =>
    have htail : Terminated p l := by
      intro b hb
      apply hl b
      cases l with
      | nil => simp at hb
      | cons c l => rwa [List.getLast?_cons_cons]
    by_cases ha : p a = true
    · rw [splitInclusive_cons_pos ha] at h
      rcases List.mem_cons.mp h with rfl | h
      · exact ⟨[], a, rfl, ha, by simp⟩
      · exact ih htail h
    · have ha' : p a = false := by simpa using ha
      cases hss : splitInclusive p l with
      | nil =>
        have hnil : l = [] := by
          have hflat := flatten_splitInclusive p l
          rwa [hss, List.flatten_nil, eq_comm] at hflat
        subst hnil
        exact absurd (hl a rfl) ha
      | cons t ss =>
        rw [splitInclusive_cons_neg ha' hss] at h
        rw [hss] at ih
        rcases List.mem_cons.mp h with rfl | h
        · exact (ih htail List.mem_cons_self).cons ha'
        · exact ih htail (List.mem_cons_of_mem _ h)

theorem splitInclusive_append {l : List α} (hl : Terminated p l) (m : List α) :
    splitInclusive p (l ++ m) = splitInclusive p l ++ splitInclusive p m := by
  have h := splitInclusive_flatten_append (fun s hs => isLine_of_mem hl hs) m
  rwa [flatten_splitInclusive] at h

/-- Elements in front that are no separators belong to the first piece. -/
theorem splitInclusive_append_front {u : List α} (hu : ∀ b ∈ u, p b = false) {m : List α}
    (hm : m ≠ []) : ∃ s ss, splitInclusive p (u ++ m) = (u ++ s) :: ss := by
  induction u with
  | nil =>
    cases hs : splitInclusive p m with
    | nil =>
      have hflat := flatten_splitInclusive p m
      rw [hs] at hflat
      exact absurd hflat.symm hm
    | cons s ss => exact ⟨s, ss, hs⟩
  | cons b u ih =>
    obtain ⟨hb, hu⟩ := List.forall_mem_cons.mp hu
    obtain ⟨s, ss, hs⟩ := ih hu
    exact ⟨s, ss, splitInclusive_cons_neg hb hs⟩

/-! ### Splitting at two elements -/

/-- `l.split(&[a, b])`: the pieces between the occurrences of `a` followed by `b`. -/
def splitPair [DecidableEq α] (a b : α) : List α → List (List α)
  | [] => [[]]
  | [x] => [[x]]
  | x :: y :: l =>
    if x = a ∧ y = b then [] :: splitPair a b l
    else
      match splitPair a b (y :: l) with
      | [] => [[x]]
      | s :: ss => (x :: s) :: ss

section Pairs

variable [DecidableEq α] {a b : α}

theorem splitPair_cons_of_ne {x : α} (hx : x ≠ a) {l s : List α} {ss : List (List α)}
    (hl : splitPair a b l = s :: ss) : splitPair a b (x :: l) = (x :: s) :: ss := by
  cases l with
  | nil =>
    obtain ⟨rfl, rfl⟩ := List.cons_eq_cons.mp hl
    rfl
  | cons y l => rw [splitPair, if_neg fun h => hx h.1, hl]

theorem splitPair_of_notMem {s : List α} (h : a ∉ s) : splitPair a b s = [s] := by
  induction s with
  | nil => rfl
  | cons x s ih =>
    obtain ⟨hx, hs⟩ := not_or.mp (List.mem_cons.not.mp h)
    exact splitPair_cons_of_ne (Ne.symm hx) (ih hs)

theorem splitPair_append {s : List α} (h : a ∉ s) (l : List α) :
    splitPair a b (s ++ a :: b :: l) = s :: splitPair a b l := by
  induction s with
  | nil => rw [List.nil_append, splitPair, if_pos ⟨rfl, rfl⟩]
  | cons x s ih =>
    obtain ⟨hx, hs⟩ := not_or.mp (List.mem_cons.not.mp h)
    exact splitPair_cons_of_ne (Ne.symm hx) (ih hs)

/-- Joining pieces and splitting again. -/
theorem splitPair_intercalate {ss : List (List α)} (h : ∀ s ∈ ss, a ∉ s) (h0 : ss ≠ []) :
    splitPair a b ([a, b].intercalate ss) = ss := by
  induction ss with
  | nil => exact absurd rfl h0
  | cons s ss ih =>
    obtain ⟨hs, hss⟩ := List.forall_mem_cons.mp h
    cases ss with
    | nil => rw [List.intercalate_singleton, splitPair_of_notMem hs]
    | cons t ss =>
      have ht := List.cons_ne_nil t ss
      rw [List.intercalate_cons_of_ne_nil ht, List.append_assoc]
      show splitPair a b (s ++ a :: b :: [a, b].intercalate (t :: ss)) = s :: t :: ss
      rw [splitPair_append hs, ih hss ht]

end Pairs

/-! ### Searching -/

/-- `l.windows(needle.len()).position(|w| w == needle)`. -/
def findWindow [DecidableEq α] (needle l : List α) : Option ℕ :=
  l.tails.findIdx? fun t => needle.isPrefixOf t

/-- What stands at a position that leaves room for the needle does not depend on what follows. -/
theorem prefix_drop_append_iff {needle l : List α} {j : ℕ} (hj : j + needle.length ≤ l.length) (m : List α) :
    needle <+: (l ++ m).drop j ↔ needle <+: l.drop j := by
  rw [List.drop_append_of_le_length (by omega)]
  refine ⟨?_, fun h => h.trans (List.prefix_append _ _)⟩
  intro h
  refine List.prefix_of_prefix_length_le h (List.prefix_append _ _) ?_
  rw [List.length_drop]
  omega

section Search

variable [DecidableEq α] {needle l : List α}

theorem findWindow_eq_some {i : ℕ} (h : findWindow needle l = some i) :
    ∃ u v, u.length = i ∧ l = u ++ needle ++ v := by
  obtain ⟨hi, hpre, -⟩ := List.findIdx?_eq_some_iff_getElem.mp h
  rw [List.getElem_tails] at hpre
  obtain ⟨v, hv⟩ := List.isPrefixOf_iff_prefix.mp hpre
  have hlen : i ≤ l.length := by
    rw [List.length_tails] at hi
    omega
  refine ⟨l.take i, v, ?_, ?_⟩
  · rw [List.length_take]
    omega
  · rw [List.append_assoc, hv, List.take_append_drop]

/-- The search finds the first position at which the needle stands. -/
theorem findWindow_eq_some_iff {i : ℕ} :
    findWindow needle l = some i ↔
      i ≤ l.length ∧ needle <+: l.drop i ∧ ∀ j < i, ¬ needle <+: l.drop j := by
  unfold findWindow
  rw [List.findIdx?_eq_some_iff_getElem]
  simp only [List.getElem_tails, List.isPrefixOf_iff_prefix, exists_prop, List.length_tails,
    Nat.lt_succ_iff]

/-- The first occurrence in the front is the first one in the whole. -/
theorem findWindow_append_iff {i : ℕ} (hi : i + needle.length ≤ l.length) (m : List α) :
    findWindow needle (l ++ m) = some i ↔ findWindow needle l = some i := by
  rw [findWindow_eq_some_iff, findWindow_eq_some_iff, prefix_drop_append_iff hi, List.length_append]
  have hbefore : (∀ j < i, ¬ needle <+: (l ++ m).drop j) ↔ ∀ j < i, ¬ needle <+: l.drop j :=
    forall_congr' fun j => forall_congr' fun hj =>
      not_congr (prefix_drop_append_iff (by omega) m)
  rw [hbefore]
  exact and_congr_left' (iff_of_true (by omega) (by omega))

/-- What is found lies inside. -/
theorem le_of_findWindow {i : ℕ} (h : findWindow needle l = some i) :
    i + needle.length ≤ l.length := by
  obtain ⟨u, v, rfl, rfl⟩ := findWindow_eq_some h
  rw [List.length_append, List.length_append]
  omega

end Search

end Scety.Lines
