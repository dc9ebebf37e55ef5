import Scety.Network.HeaderRewrite

/-!
# Heads of requests

The grammar by which `httparse` accepts the head of a request: empty lines are skipped, then comes
the request line, then field lines up to an empty line.  A line ends with LF or CRLF.  Which texts
are request lines and field lines is a parameter.
-/

namespace Scety

open Lines

/-- The texts of request lines and of field lines, without their terminators. -/
structure HeadGrammar where
  requestOk : Bytes → Bool
  fieldOk : Bytes → Bool

/-- The head as it is read, and the lines after it. -/
structure Head (α : Type) where
  request : List α
  fields : List (List α)
  rest : List (List α)

section Reader

variable {α : Type} (c : Carrier α) (g : HeadGrammar)

/-- A line without its LF or CRLF. -/
def lineContent (line : List α) : Option (List α) :=
  if line.getLast?.map c.val = some lf then
    if line.dropLast.getLast?.map c.val = some cr then some line.dropLast.dropLast
    else some line.dropLast
  else none

/-- The field lines up to the empty line, and the lines after it. -/
def readFields : List (List α) → Option (List (List α) × List (List α))
  | [] => none
  | line :: lines =>
    match lineContent c line with
    | none => none
    | some [] => some ([], lines)
    | some (a :: text) =>
      if g.fieldOk ((a :: text).map c.val) then
        (readFields lines).map fun r => ((a :: text) :: r.1, r.2)
      else none

def readHead : List (List α) → Option (Head α)
  | [] => none
  | line :: lines =>
    match lineContent c line with
    | none => none
    | some [] => readHead lines
    | some (a :: text) =>
      if g.requestOk ((a :: text).map c.val) then
        (readFields c g lines).map fun r => ⟨a :: text, r.1, r.2⟩
      else none

/-- An empty line. -/
def IsBlank (line : List α) : Prop := lineContent c line = some []

/-- A line that reads as a field. -/
def IsField (line : List α) : Prop :=
  ∃ text, lineContent c line = some text ∧ text ≠ [] ∧ g.fieldOk (text.map c.val) = true

/-- The text of a line. -/
def textOf (line : List α) : List α := (lineContent c line).getD []

end Reader

section Lemmas

variable {α : Type} {c : Carrier α} {g : HeadGrammar}

theorem textOf_eq {line text : List α} (h : lineContent c line = some text) :
    textOf c line = text := by
  unfold textOf
  rw [h]
  rfl

theorem not_isBlank_of_text {line text : List α} (h : lineContent c line = some text)
    (h0 : text ≠ []) : ¬ IsBlank c line := fun hb => h0 (Option.some.inj (h.symm.trans hb))

theorem IsField.not_isBlank {line : List α} (h : IsField c g line) : ¬ IsBlank c line := by
  obtain ⟨text, htext, h0, -⟩ := h
  exact not_isBlank_of_text htext h0

/-- A line is its text with its terminator. -/
theorem exists_of_lineContent {line text : List α} (h : lineContent c line = some text) :
    ∃ t, line = text ++ t ∧
      (t.map c.val = crlf ∨ t.map c.val = [lf] ∧ text.getLast?.map c.val ≠ some cr) := by
  have hback : ∀ {l : List α} {b : UInt8}, l.getLast?.map c.val = some b →
      ∃ a, l = l.dropLast ++ [a] ∧ c.val a = b := by
    intro l b hl
    obtain ⟨a, ha, hb⟩ := Option.map_eq_some_iff.mp hl
    exact ⟨a, (List.dropLast_append_getLast? a ha).symm, hb⟩
  unfold lineContent at h
  split_ifs at h with hlf hcr
  · obtain rfl := Option.some.inj h
    obtain ⟨a, hline, ha⟩ := hback hlf
    obtain ⟨b, hinit, hb⟩ := hback hcr
    refine ⟨[b, a], ?_, Or.inl ?_⟩
    · rw [show [b, a] = [b] ++ [a] from rfl, ← List.append_assoc, ← hinit]
      exact hline
    · rw [List.map_cons, List.map_cons, ha, hb]
      rfl
  · obtain rfl := Option.some.inj h
    obtain ⟨a, hline, ha⟩ := hback hlf
    refine ⟨[a], hline, Or.inr ⟨?_, hcr⟩⟩
    rw [List.map_cons, ha]
    rfl

/-- A line of a text that ends with LF. -/
theorem isLine_of_lineContent {l line text : List α} (hl : line ∈ linesOf c l)
    (h : lineContent c line = some text) : IsLine (fun a => decide (c.val a = lf)) line := by
  unfold lineContent at h
  have hlast : line.getLast?.map c.val = some lf := by
    by_contra hno
    rw [if_neg hno] at h
    exact absurd h (by simp)
  obtain ⟨a, ha, hval⟩ := Option.map_eq_some_iff.mp hlast
  exact isLine_of_getLast hl ha (decide_eq_true hval)

/-- Whether a line is stripped depends on its text only. -/
theorem isNamedLine_of_lineContent {line text : List α} (h : lineContent c line = some text)
    (name : Bytes) : isNamedLine (line.map c.val) name = startsWithName (text.map c.val) name := by
  rw [isNamedLine_eq]
  obtain ⟨t, rfl, ht | ⟨ht, -⟩⟩ := exists_of_lineContent h
  · rw [List.map_append, ht, startsWithName_append_crlf]
  · rw [List.map_append, ht, startsWithName_append (by decide)]

/-! ### Fields -/

theorem readFields_blank {line : List α} (h : IsBlank c line) (lines : List (List α)) :
    readFields c g (line :: lines) = some ([], lines) := by
  rw [readFields, show lineContent c line = some [] from h]

theorem readFields_field {line : List α} (h : IsField c g line) (lines : List (List α)) :
    readFields c g (line :: lines) =
      (readFields c g lines).map fun r => (textOf c line :: r.1, r.2) := by
  obtain ⟨text, htext, h0, hok⟩ := h
  obtain ⟨a, text, rfl⟩ := List.exists_cons_of_ne_nil h0
  rw [readFields, textOf_eq htext, htext]
  exact if_pos hok

/-- Field lines in front are the first fields. -/
theorem readFields_append {fields : List (List α)} (h : ∀ l ∈ fields, IsField c g l)
    (lines : List (List α)) : readFields c g (fields ++ lines) =
      (readFields c g lines).map fun r => (fields.map (textOf c) ++ r.1, r.2) := by
  induction fields with
  | nil => simp
  | cons l fields ih =>
    obtain ⟨hl, hfields⟩ := List.forall_mem_cons.mp h
    rw [List.cons_append, readFields_field hl, ih hfields, Option.map_map]
    rfl

/-- What it means that fields are read. -/
theorem readFields_eq_some {lines fields rest : List (List α)}
    (h : readFields c g lines = some (fields, rest)) :
    ∃ fs z, lines = fs ++ z :: rest ∧ IsBlank c z ∧ (∀ l ∈ fs, IsField c g l) ∧
      fields = fs.map (textOf c) := by
  induction lines generalizing fields with
  | nil => exact absurd h (by simp [readFields])
  | cons line lines ih =>
    rw [readFields] at h
    cases hline : lineContent c line with
    | none =>
      rw [hline] at h
      exact absurd h (by simp)
    | some text =>
      rw [hline] at h
      cases text with
      | nil =>
        obtain ⟨rfl, rfl⟩ := Prod.mk.inj (Option.some.inj h)
        exact ⟨[], line, rfl, hline, by simp, rfl⟩
      | cons a text =>
        dsimp only at h
        split_ifs at h with hok
        obtain ⟨⟨fields', rest'⟩, hrec, heq⟩ := Option.map_eq_some_iff.mp h
        obtain ⟨rfl, rfl⟩ := Prod.mk.inj heq
        obtain ⟨fs, z, rfl, hz, hfs, rfl⟩ := ih hrec
        have hfield : IsField c g line := ⟨a :: text, hline, by simp, hok⟩
        refine ⟨line :: fs, z, rfl, hz, List.forall_mem_cons.mpr ⟨hfield, hfs⟩, ?_⟩
        rw [List.map_cons, textOf_eq hline]

/-- What follows the first empty line does not matter. -/
theorem readFields_append_blank {z : List α} (hz : IsBlank c z) (lines rest : List (List α)) :
    readFields c g (lines ++ z :: rest) =
      (readFields c g (lines ++ [z])).map fun r => (r.1, r.2 ++ rest) := by
  induction lines with
  | nil => rw [List.nil_append, List.nil_append, readFields_blank hz, readFields_blank hz]; rfl
  | cons line lines ih =>
    rw [List.cons_append, List.cons_append, readFields, readFields, ih]
    cases lineContent c line with
    | none => rfl
    | some text =>
      cases text with
      | nil => simp
      | cons a text =>
        dsimp only
        split_ifs
        · rw [Option.map_map, Option.map_map]
          rfl
        · rfl

/-! ### Heads -/

theorem readHead_blanks {blanks : List (List α)} (h : ∀ l ∈ blanks, IsBlank c l)
    (lines : List (List α)) : readHead c g (blanks ++ lines) = readHead c g lines := by
  induction blanks with
  | nil => rfl
  | cons l blanks ih =>
    obtain ⟨hl, hblanks⟩ := List.forall_mem_cons.mp h
    rw [List.cons_append, readHead, show lineContent c l = some [] from hl]
    exact ih hblanks

theorem readHead_request {line text : List α} (h : lineContent c line = some text) (h0 : text ≠ [])
    (hok : g.requestOk (text.map c.val) = true) (lines : List (List α)) :
    readHead c g (line :: lines) = (readFields c g lines).map fun r => ⟨text, r.1, r.2⟩ := by
  obtain ⟨a, text, rfl⟩ := List.exists_cons_of_ne_nil h0
  rw [readHead, h]
  exact if_pos hok

/-- What it means that a head is read. -/
theorem readHead_eq_some {lines : List (List α)} {head : Head α}
    (h : readHead c g lines = some head) :
    ∃ blanks line tail, lines = blanks ++ line :: tail ∧ (∀ l ∈ blanks, IsBlank c l) ∧
      lineContent c line = some head.request ∧ head.request ≠ [] ∧
        g.requestOk (head.request.map c.val) = true ∧
          readFields c g tail = some (head.fields, head.rest) := by
  induction lines with
  | nil => exact absurd h (by simp [readHead])
  | cons line lines ih =>
    rw [readHead] at h
    cases hline : lineContent c line with
    | none =>
      rw [hline] at h
      exact absurd h (by simp)
    | some text =>
      rw [hline] at h
      cases text with
      | nil =>
        obtain ⟨blanks, l, tail, rfl, hblanks, hrest⟩ := ih h
        exact ⟨line :: blanks, l, tail, rfl, List.forall_mem_cons.mpr ⟨hline, hblanks⟩, hrest⟩
      | cons a text =>
        dsimp only at h
        split_ifs at h with hok
        obtain ⟨r, hr, rfl⟩ := Option.map_eq_some_iff.mp h
        exact ⟨[], line, lines, rfl, by simp, hline, by simp, hok, hr⟩

/-- The lines of a text that starts with a head. -/
structure HeadLines (c : Carrier α) (g : HeadGrammar) (head : Head α) (blanks : List (List α))
    (line : List α) (fields : List (List α)) (z : List α) : Prop where
  isBlank : ∀ l ∈ blanks, IsBlank c l
  content : lineContent c line = some head.request
  request_ne : head.request ≠ []
  requestOk : g.requestOk (head.request.map c.val) = true
  isField : ∀ l ∈ fields, IsField c g l
  fields_eq : head.fields = fields.map (textOf c)
  isBlank_last : IsBlank c z

theorem exists_headLines {lines : List (List α)} {head : Head α}
    (h : readHead c g lines = some head) : ∃ blanks line fields z,
      lines = blanks ++ line :: (fields ++ z :: head.rest) ∧
        HeadLines c g head blanks line fields z := by
  obtain ⟨blanks, line, tail, rfl, hblanks, hline, h0, hok, htail⟩ := readHead_eq_some h
  obtain ⟨fields, z, rfl, hz, hfields, heq⟩ := readFields_eq_some htail
  exact ⟨blanks, line, fields, z, rfl, hblanks, hline, h0, hok, hfields, heq, hz⟩

theorem HeadLines.line_pos {head : Head α} {blanks fields : List (List α)} {line z : List α}
    (h : HeadLines c g head blanks line fields z) : 0 < line.length := by
  obtain ⟨u, hu, -⟩ := exists_of_lineContent h.content
  have hpos := List.length_pos_of_ne_nil h.request_ne
  rw [hu, List.length_append]
  omega

/-- What is read when other lines follow the request line. -/
theorem HeadLines.readHead_eq {head : Head α} {blanks fields : List (List α)} {line z : List α}
    (h : HeadLines c g head blanks line fields z) (tail : List (List α)) :
    readHead c g (blanks ++ line :: tail) =
      (readFields c g tail).map fun r => ⟨head.request, r.1, r.2⟩ := by
  rw [readHead_blanks h.isBlank, readHead_request h.content h.request_ne h.requestOk]

/-- What is read when the fields are others, before an empty line. -/
theorem HeadLines.readHead_fields {head : Head α} {blanks fields fs : List (List α)}
    {line z : List α} (h : HeadLines c g head blanks line fields z)
    (hfs : ∀ l ∈ fs, IsField c g l) (tail : List (List α)) :
    readHead c g (blanks ++ line :: (fs ++ z :: tail)) =
      some ⟨head.request, fs.map (textOf c), tail⟩ := by
  rw [h.readHead_eq, readFields_append hfs, readFields_blank h.isBlank_last]
  simp

/-- The lines of a head stay what they are when the text goes on. -/
theorem HeadLines.linesOf_append {head : Head α} {blanks fields : List (List α)} {line z : List α}
    (h : HeadLines c g head blanks line fields z) {text : List α}
    (heq : linesOf c text = blanks ++ line :: (fields ++ z :: head.rest)) (more : List α) :
    linesOf c (text ++ more) =
      blanks ++ line :: (fields ++ z :: linesOf c (head.rest.flatten ++ more)) := by
  have heq' : linesOf c text = (blanks ++ line :: (fields ++ [z])) ++ head.rest := by simp [heq]
  have hcontent : ∀ l ∈ blanks ++ line :: (fields ++ [z]), ∃ t, lineContent c l = some t := by
    intro l hl
    rcases List.mem_append.mp hl with hl | hl
    · exact ⟨_, h.isBlank l hl⟩
    rcases List.mem_cons.mp hl with rfl | hl
    · exact ⟨_, h.content⟩
    rcases List.mem_append.mp hl with hl | hl
    · obtain ⟨t, ht, -⟩ := h.isField l hl
      exact ⟨t, ht⟩
    · obtain rfl := List.mem_singleton.mp hl
      exact ⟨_, h.isBlank_last⟩
  have hlines : ∀ l ∈ blanks ++ line :: (fields ++ [z]),
      IsLine (fun a => decide (c.val a = lf)) l := by
    intro l hl
    obtain ⟨t, ht⟩ := hcontent l hl
    refine isLine_of_lineContent (l := text) ?_ ht
    rw [heq']
    exact List.mem_append_left _ hl
  have htext : text = (blanks ++ line :: (fields ++ [z])).flatten ++ head.rest.flatten := by
    rw [← List.flatten_append, ← heq']
    exact (flatten_splitInclusive _ _).symm
  rw [htext, List.append_assoc]
  unfold linesOf
  rw [splitInclusive_flatten_append hlines]
  simp

theorem HeadLines.not_isBlank {head : Head α} {blanks fields : List (List α)} {line z : List α}
    (h : HeadLines c g head blanks line fields z) : ¬ IsBlank c line :=
  not_isBlank_of_text h.content h.request_ne

/-- If the first part of the lines is not all blank, the request line is in it. -/
theorem request_mem {front back : List (List α)} {head : Head α}
    (h : readHead c g (front ++ back) = some head) (hfront : ∃ l ∈ front, ¬ IsBlank c l) :
    ∃ l ∈ front, lineContent c l = some head.request := by
  obtain ⟨blanks, line, tail, heq, hblanks, hline, -⟩ := readHead_eq_some h
  refine ⟨line, ?_, hline⟩
  rcases List.append_eq_append_iff.mp heq with ⟨t, rfl, -⟩ | ⟨t, rfl, ht⟩
  · obtain ⟨l, hl, hnot⟩ := hfront
    exact absurd (hblanks l (List.mem_append_left _ hl)) hnot
  · cases t with
    | nil =>
      obtain ⟨l, hl, hnot⟩ := hfront
      rw [List.append_nil] at hl
      exact absurd (hblanks l hl) hnot
    | cons l t =>
      obtain ⟨rfl, -⟩ := List.cons.inj ht
      simp

/-! ### Reading without the marks -/

theorem lineContent_map_val (line : List α) :
    lineContent .plain (line.map c.val) = (lineContent c line).map (List.map c.val) := by
  have hlast : ∀ l : List α, (l.map c.val).getLast?.map Carrier.plain.val = l.getLast?.map c.val := by
    intro l
    rw [List.getLast?_map, Option.map_map]
    rfl
  unfold lineContent
  rw [← List.map_dropLast, ← List.map_dropLast, hlast, hlast]
  split_ifs <;> rfl

theorem readFields_map_val (lines : List (List α)) :
    readFields .plain g (lines.map (List.map c.val)) =
      (readFields c g lines).map fun r =>
        (r.1.map (List.map c.val), r.2.map (List.map c.val)) := by
  induction lines with
  | nil => rfl
  | cons line lines ih =>
    rw [List.map_cons, readFields, readFields, lineContent_map_val, ih]
    cases lineContent c line with
    | none => rfl
    | some text =>
      cases text with
      | nil => rfl
      | cons a text =>
        show (if g.fieldOk (((a :: text).map c.val).map Carrier.plain.val) = true then _ else none) = _
        rw [map_plain_val]
        dsimp only
        split_ifs
        · rw [Option.map_map, Option.map_map]
          rfl
        · rfl

theorem readHead_map_val (lines : List (List α)) :
    readHead .plain g (lines.map (List.map c.val)) =
      (readHead c g lines).map fun h =>
        ⟨h.request.map c.val, h.fields.map (List.map c.val), h.rest.map (List.map c.val)⟩ := by
  induction lines with
  | nil => rfl
  | cons line lines ih =>
    rw [List.map_cons, readHead, readHead, lineContent_map_val]
    cases lineContent c line with
    | none => rfl
    | some text =>
      cases text with
      | nil => exact ih
      | cons a text =>
        show (if g.requestOk (((a :: text).map c.val).map Carrier.plain.val) = true then _
          else none) = _
        rw [map_plain_val]
        dsimp only
        split_ifs
        · rw [readFields_map_val, Option.map_map, Option.map_map]
          rfl
        · rfl

end Lemmas

end Scety
