import Scety.Network.HeaderRewrite

/-!
# Messages with a rewritten head

Where every line of a head ends with CRLF, its end is the first empty line that does not stand
first.  Removing lines and adding others that are not empty leaves the end of the head where it was,
between the lines and the body (`rewrite_preserves_message`).
-/

namespace Scety

open Lines

/-- A line that ends with CRLF and has no other LF. -/
def IsCrlfLine (line : Bytes) : Prop := ∃ u, line = u ++ crlf ∧ lf ∉ u

/-- The lines of a head: each ends with CRLF, and only the first may be empty. -/
structure IsHead (lines : List Bytes) : Prop where
  isCrlfLine : ∀ l ∈ lines, IsCrlfLine l
  ne_crlf : ∀ l ∈ lines.tail, l ≠ crlf

/-- The end of a line in `linesOf`. -/
abbrev isLf (b : UInt8) : Bool := decide (Carrier.plain.val b = lf)

/-! ### Lines that end with CRLF -/

theorem IsCrlfLine.isLine {line : Bytes} (h : IsCrlfLine line) : IsLine isLf line := by
  obtain ⟨u, rfl, hu⟩ := h
  refine ⟨u ++ [cr], lf, by simp [crlf], rfl, ?_⟩
  intro b hb
  rcases List.mem_append.mp hb with hb | hb
  · exact decide_eq_false fun hlf => hu (hlf ▸ hb)
  · obtain rfl := List.mem_singleton.mp hb
    rfl

theorem terminated_append_crlf (u : Bytes) : Terminated isLf (u ++ crlf) := by
  intro a ha
  simp [crlf] at ha
  rw [← ha]
  rfl

theorem isLine_crlf : IsLine isLf crlf :=
  IsCrlfLine.isLine ⟨[], rfl, List.not_mem_nil⟩

theorem isLine_of_isHead {lines : List Bytes} (h : IsHead lines) : ∀ l ∈ lines, IsLine isLf l :=
  fun l hl => (h.isCrlfLine l hl).isLine

/-- The lines of a head are found again. -/
theorem linesOf_flatten {lines : List Bytes} (h : IsHead lines) :
    linesOf .plain lines.flatten = lines := by
  have hlines := splitInclusive_flatten_append (isLine_of_isHead h) []
  rw [List.append_nil] at hlines
  exact hlines.trans (List.append_nil _)

/-- The lines around an empty line that follows a line. -/
theorem linesOf_around (u v : Bytes) :
    linesOf .plain (u ++ crlfCrlf ++ v) =
      linesOf .plain (u ++ crlf) ++ crlf :: linesOf .plain v := by
  have htext : u ++ crlfCrlf ++ v = (u ++ crlf) ++ (crlf ++ v) := by simp [crlfCrlf]
  rw [htext]
  unfold linesOf
  rw [splitInclusive_append (terminated_append_crlf u), splitInclusive_append_of_isLine isLine_crlf]

theorem flatten_linesOf (text : Bytes) : (linesOf .plain text).flatten = text :=
  flatten_splitInclusive _ text

/-! ### Where a head ends -/

/-- A CRLFCRLF that ends inside a list of lines makes one of them empty that is not the first. -/
theorem crlf_mem_tail {lines : List Bytes} (hlines : ∀ l ∈ lines, IsLine isLf l)
    {front body v : Bytes} (hsplit : lines.flatten ++ crlf ++ body = front ++ crlfCrlf ++ v)
    (hlt : front.length + 2 < lines.flatten.length) : crlf ∈ lines.tail := by
  have heq : lines ++ crlf :: linesOf .plain body =
      linesOf .plain (front ++ crlf) ++ crlf :: linesOf .plain v := by
    rw [← linesOf_around, ← hsplit, List.append_assoc]
    unfold linesOf
    rw [splitInclusive_flatten_append hlines, splitInclusive_append_of_isLine isLine_crlf]
  have hflat := congrArg List.length (flatten_linesOf (front ++ crlf))
  rw [List.length_append, show crlf.length = 2 from rfl] at hflat
  rcases List.append_eq_append_iff.mp heq with ⟨t, ht, -⟩ | ⟨t, ht, ht'⟩
  · rw [ht, List.flatten_append, List.length_append] at hflat
    omega
  · cases t with
    | nil =>
      rw [List.append_nil] at ht
      rw [← ht] at hflat
      omega
    | cons l t =>
      obtain ⟨rfl, -⟩ := List.cons.inj ht'
      have hne : linesOf .plain (front ++ crlf) ≠ [] := by
        intro hnil
        rw [hnil] at hflat
        simp at hflat
      obtain ⟨l₀, ls, hls⟩ := List.exists_cons_of_ne_nil hne
      rw [ht, hls]
      simp

/-- The first CRLFCRLF is the end of the head. -/
theorem IsHead.findWindow_eq {lines : List Bytes} (h : IsHead lines) (h0 : lines ≠ [])
    (body : Bytes) :
    findWindow crlfCrlf (lines.flatten ++ crlf ++ body) = some (lines.flatten.length - 2) := by
  obtain ⟨init, last, rfl⟩ := (List.eq_nil_or_concat lines).resolve_left h0
  rw [List.concat_eq_append] at h ⊢
  obtain ⟨u, rfl, -⟩ := h.isCrlfLine last (by simp)
  have htext : (init ++ [u ++ crlf]).flatten ++ crlf ++ body =
      (init.flatten ++ u) ++ (crlfCrlf ++ body) := by simp [crlfCrlf]
  have hlen : (init ++ [u ++ crlf]).flatten.length = (init.flatten ++ u).length + 2 := by
    simp [crlf]
    omega
  have htotal := (congrArg List.length htext).trans List.length_append
  rw [findWindow_eq_some_iff, hlen, Nat.add_sub_cancel]
  refine ⟨by omega, ?_, ?_⟩
  · rw [htext, List.drop_left]
    exact List.prefix_append _ _
  · rintro j hj ⟨v, hv⟩
    have hle : j ≤ ((init ++ [u ++ crlf]).flatten ++ crlf ++ body).length := by omega
    have hsplit := List.take_append_drop j ((init ++ [u ++ crlf]).flatten ++ crlf ++ body)
    rw [← hv, ← List.append_assoc] at hsplit
    refine h.ne_crlf crlf (crlf_mem_tail (isLine_of_isHead h) hsplit.symm ?_) rfl
    rw [List.length_take, min_eq_left hle, hlen]
    omega

/-- Every LF of a text is preceded by CR. -/
def LfAfterCr (text : Bytes) : Prop :=
  ∀ i < text.length, text[i]? = some lf → 0 < i ∧ text[i - 1]? = some cr

instance (text : Bytes) : Decidable (LfAfterCr text) :=
  inferInstanceAs (Decidable (∀ i < text.length, text[i]? = some lf → 0 < i ∧ text[i - 1]? = some cr))

theorem LfAfterCr.getLast? {u v : Bytes} (h : LfAfterCr (u ++ lf :: v)) : u.getLast? = some cr := by
  obtain ⟨hpos, hcr⟩ := h u.length (by simp) (by simp)
  rwa [List.getElem?_append_left (by omega), ← List.getLast?_eq_getElem?] at hcr

/-- The lines of a text in which every LF is preceded by CR. -/
theorem isCrlfLine_of_mem {text : Bytes} (ht : Terminated isLf text) (hcr : LfAfterCr text) :
    ∀ l ∈ linesOf .plain text, IsCrlfLine l := by
  intro l hl
  obtain ⟨before, after, hsplit⟩ := List.append_of_mem hl
  obtain ⟨u, a, rfl, ha, hu⟩ := isLine_of_mem ht hl
  obtain rfl : a = lf := of_decide_eq_true ha
  have hflat := flatten_linesOf text
  rw [hsplit] at hflat
  rw [← hflat, show (before ++ (u ++ [lf]) :: after).flatten =
    (before.flatten ++ u) ++ lf :: after.flatten by simp] at hcr
  have hlast := hcr.getLast?
  rcases List.eq_nil_or_concat u with rfl | ⟨w, b, rfl⟩
  · -- the LF would follow the LF of the line before, or stand first
    rw [List.append_nil] at hlast
    rcases List.eq_nil_or_concat before with rfl | ⟨init, last, rfl⟩
    · exact absurd hlast (by simp)
    · have hmem : last ∈ linesOf .plain text := by
        rw [hsplit]
        simp
      obtain ⟨w, b, rfl, hb, -⟩ := isLine_of_mem ht hmem
      obtain rfl : b = lf := of_decide_eq_true hb
      simp [List.getLast?_append] at hlast
      exact absurd hlast (by decide)
  · rw [List.concat_eq_append] at hu hlast ⊢
    obtain rfl : b = cr := by simpa [← List.append_assoc] using hlast
    refine ⟨w, by simp [crlf], ?_⟩
    intro hmem
    exact absurd (hu lf (List.mem_append_left _ hmem)) (by decide)

/-- Lines that end with CRLF make a text that ends with CRLF. -/
theorem exists_flatten_eq {lines : List Bytes} (h : ∀ l ∈ lines, IsCrlfLine l) (h0 : lines ≠ []) :
    ∃ x, lines.flatten = x ++ crlf := by
  obtain ⟨init, last, rfl⟩ := (List.eq_nil_or_concat lines).resolve_left h0
  rw [List.concat_eq_append] at h ⊢
  obtain ⟨u, rfl, -⟩ := h last (by simp)
  exact ⟨init.flatten ++ u, by simp⟩

/-- What stands before the first CRLFCRLF, and its own CRLF, are the lines of a head. -/
theorem isHead_linesOf {text body : Bytes}
    (hpos : findWindow crlfCrlf (text ++ crlfCrlf ++ body) = some text.length)
    (hcr : LfAfterCr (text ++ crlf)) : IsHead (linesOf .plain (text ++ crlf)) := by
  have hcrlf := isCrlfLine_of_mem (terminated_append_crlf text) hcr
  refine ⟨hcrlf, ?_⟩
  rintro l hl rfl
  cases hlines : linesOf .plain (text ++ crlf) with
  | nil =>
    rw [hlines] at hl
    exact absurd hl List.not_mem_nil
  | cons l₀ ls =>
    rw [hlines] at hl hcrlf
    obtain ⟨s, t, rfl⟩ := List.append_of_mem hl
    obtain ⟨x, hx⟩ := @exists_flatten_eq (l₀ :: s)
      (fun l hl => hcrlf l (by rw [← List.cons_append]; exact List.mem_append_left _ hl)) (by simp)
    have hflat := flatten_linesOf (text ++ crlf)
    rw [hlines, ← List.cons_append, List.flatten_append, hx, List.flatten_cons] at hflat
    have hlen := congrArg List.length hflat
    simp only [List.length_append] at hlen
    have hfirst := (findWindow_eq_some_iff.mp hpos).2.2 x.length (by
      rw [show crlf.length = 2 from rfl] at hlen
      omega)
    apply hfirst
    have htext : text ++ crlfCrlf ++ body = x ++ (crlfCrlf ++ (t.flatten ++ crlf ++ body)) := by
      rw [show text ++ crlfCrlf ++ body = (text ++ crlf) ++ crlf ++ body by simp [crlfCrlf], ← hflat]
      simp [crlfCrlf]
    rw [htext, List.drop_left]
    exact List.prefix_append _ _

/-! ### Configured heads -/

/-- The lines of a head without those of `names`, then the lines of `headers`. -/
def configured (names : List Bytes) (headers : List (Str × Str)) (lines : List Bytes) :
    List Bytes :=
  (lines.filter fun line => !isNamedLineOf names line) ++ headers.map headerLine

variable {names : List Bytes} {headers : List (Str × Str)}

/-- What is built from a message and its first CRLFCRLF. -/
theorem rewriteHead_eq (names : List Bytes) (headers : List (Str × Str)) (text body : Bytes) :
    rewriteHead .plain names headers text.length (text ++ crlfCrlf ++ body) =
      (configured names headers (linesOf .plain (text ++ crlf))).flatten ++ crlf ++ body := by
  have hmessage : text ++ crlfCrlf ++ body = (text ++ crlf) ++ (crlf ++ body) := by simp [crlfCrlf]
  have hlen : text.length + 2 = (text ++ crlf).length := by simp [crlf]
  unfold rewriteHead stripHeadersByName configured
  rw [hmessage, hlen, List.take_left, List.drop_left, List.flatten_append, map_plain_own,
    ← List.flatMap_def]
  simp only [map_plain_val, List.append_assoc]

/-- The line of a header has the name of the header. -/
theorem isNamedLine_headerLine (header : Str × Str) :
    isNamedLine (headerLine header) (bytes header.1) = true := by
  unfold headerLine
  rw [isNamedLine_append_crlf]
  exact startsWithName_header header.1 header.2

/-- Configuring a head again changes nothing. -/
theorem configured_configured (h : ∀ e ∈ headers, bytes e.1 ∈ names) (lines : List Bytes) :
    configured names headers (configured names headers lines) = configured names headers lines := by
  have hadded : (headers.map headerLine).filter (fun line => !isNamedLineOf names line) = [] := by
    rw [List.filter_eq_nil_iff]
    intro line hline
    obtain ⟨e, he, rfl⟩ := List.mem_map.mp hline
    have hnamed := isNamedLineOf_iff.mpr ⟨_, h e he, isNamedLine_headerLine e⟩
    rw [hnamed]
    simp
  unfold configured
  rw [List.filter_append, hadded, List.append_nil, List.filter_filter]
  simp only [Bool.and_self]

/-- The line of a header without LF is the line of a head. -/
theorem isCrlfLine_headerLine {header : Str × Str} (hkey : '\n' ∉ header.1)
    (hvalue : '\n' ∉ header.2) : IsCrlfLine (headerLine header) := by
  refine ⟨_, rfl, ?_⟩
  rw [mem_bytes_iff (by decide), List.mem_append, List.mem_append, not_or, not_or]
  exact ⟨⟨hkey, by decide⟩, hvalue⟩

theorem headerLine_ne_crlf (header : Str × Str) : headerLine header ≠ crlf := by
  intro heq
  have hnamed := startsWithName_header header.1 header.2
  unfold headerLine at heq
  rw [List.append_left_eq_self.mp heq] at hnamed
  exact absurd hnamed (by simp [startsWithName])

theorem mem_tail_of_filter {p : Bytes → Bool} {lines : List Bytes} {l : Bytes}
    (h : l ∈ (lines.filter p).tail) : l ∈ lines.tail := by
  cases lines with
  | nil => exact h
  | cons l₀ ls =>
    rw [List.filter_cons] at h
    split_ifs at h
    · exact List.mem_of_mem_filter h
    · exact List.mem_of_mem_filter (List.mem_of_mem_tail h)

/-- Configuring a head makes a head. -/
theorem IsHead.configured {lines : List Bytes} (h : IsHead lines)
    (hlf : ∀ e ∈ headers, '\n' ∉ e.1 ∧ '\n' ∉ e.2) : IsHead (configured names headers lines) := by
  have hadded : ∀ l ∈ headers.map headerLine, IsCrlfLine l ∧ l ≠ crlf := by
    intro l hl
    obtain ⟨e, he, rfl⟩ := List.mem_map.mp hl
    exact ⟨isCrlfLine_headerLine (hlf e he).1 (hlf e he).2, headerLine_ne_crlf e⟩
  refine ⟨?_, ?_⟩
  · intro l hl
    rcases List.mem_append.mp hl with hkept | hown
    · exact h.isCrlfLine l (List.mem_of_mem_filter hkept)
    · exact (hadded l hown).1
  · intro l hl
    unfold Scety.configured at hl
    cases hkept : lines.filter fun line => !isNamedLineOf names line with
    | nil =>
      rw [hkept] at hl
      exact (hadded l (List.mem_of_mem_tail hl)).2
    | cons a kept =>
      rw [hkept] at hl
      rcases List.mem_append.mp hl with hl | hl
      · refine h.ne_crlf l (mem_tail_of_filter (p := fun line => !isNamedLineOf names line) ?_)
        rw [hkept]
        exact hl
      · exact (hadded l hl).2

/-! ### The two callers -/

theorem rewriteHead_congr {names names' : List Bytes} (h : ∀ name, name ∈ names ↔ name ∈ names')
    (headers : List (Str × Str)) (pos : ℕ) (buf : Bytes) :
    rewriteHead .plain names headers pos buf = rewriteHead .plain names' headers pos buf := by
  unfold rewriteHead stripHeadersByName
  rw [isNamedLineOf_congr h]

theorem finalBuf_eq {message : Bytes} {pos : ℕ} (h : findWindow crlfCrlf message = some pos)
    (headers : HashMap Str Str) : finalBuf .plain headers message =
      rewriteHead .plain (headers.keys.map bytes) (sortedHeaders headers) pos message := by
  unfold finalBuf
  rw [map_plain_val, h]

theorem configured_eq (keys : List Str) (headers : List (Str × Str)) (lines : List Bytes) :
    (lines.filter fun line => !keys.any fun key => startsWithName line (bytes key)) ++
      headers.map headerLine = configured (keys.map bytes) headers lines := by
  unfold configured
  congr 2
  funext line
  rw [isNamedLineOf_eq]

theorem take_message (text body : Bytes) :
    (text ++ crlfCrlf ++ body).take (text.length + 2) = text ++ crlf := by
  simp [crlfCrlf, crlf, List.take_append]

theorem drop_message (text body : Bytes) :
    (text ++ crlfCrlf ++ body).drop (text.length + 4) = body := by
  simp [crlfCrlf, crlf, List.drop_append]

/-- The message of a head and a body: its first CRLFCRLF is the end of the head, and what is built
from it. -/
theorem exists_stop_of_isHead {lines : List Bytes} (h : IsHead lines) (h0 : lines ≠ [])
    {body message : Bytes} (hmessage : message = lines.flatten ++ crlf ++ body) :
    ∃ stop, findWindow crlfCrlf message = some stop ∧
      linesOf .plain (message.take (stop + 2)) = lines ∧ message.drop (stop + 4) = body ∧
        ∀ names headers, rewriteHead .plain names headers stop message =
          (configured names headers lines).flatten ++ crlf ++ body := by
  obtain ⟨text, htext⟩ := exists_flatten_eq h.isCrlfLine h0
  have hsplit : message = text ++ crlfCrlf ++ body := by
    rw [hmessage, htext]
    simp [crlfCrlf]
  have hlines : linesOf .plain (text ++ crlf) = lines := by rw [← htext, linesOf_flatten h]
  refine ⟨text.length, ?_, ?_, ?_, ?_⟩
  · rw [hmessage, h.findWindow_eq h0, htext, List.length_append]
    rfl
  · rw [hsplit, take_message, hlines]
  · rw [hsplit, drop_message]
  · intro names headers
    rw [hsplit, rewriteHead_eq, hlines]

/-- **Rewriting preserves the message**: the two callers build the same bytes; their first CRLFCRLF
is the end of the rewritten head; its lines are those of the old head that have no configured name,
and one line for each entry in the order of the names; the body is the old one; and rewriting again
changes nothing. -/
theorem rewrite_preserves_message {message : Bytes} {pos : ℕ}
    (hpos : findWindow crlfCrlf message = some pos) (hcr : LfAfterCr (message.take (pos + 2)))
    {headers : HashMap Str Str} (h0 : headers.keys ≠ [])
    (hlf : ∀ key value, headers.lookup key = some value → '\n' ∉ key ∧ '\n' ∉ value) :
    let added := sortedHeaders headers
    let names := added.map fun e => bytes e.1
    let rewritten := finalBuf .plain headers message
    (added.Pairwise fun a b => a.1 < b.1) ∧
    (∀ key value, (key, value) ∈ added ↔ headers.lookup key = some value) ∧
    rewritten = rewriteHead .plain names added pos message ∧
    ∃ stop, findWindow crlfCrlf rewritten = some stop ∧
      linesOf .plain (rewritten.take (stop + 2)) =
        ((linesOf .plain (message.take (pos + 2))).filter fun line =>
          !headers.keys.any fun key => startsWithName line (bytes key)) ++ added.map headerLine ∧
      rewritten.drop (stop + 4) = message.drop (pos + 4) ∧
      finalBuf .plain headers rewritten = rewritten ∧
      rewriteHead .plain names added stop rewritten = rewritten := by
  intro added names rewritten
  have hnames : ∀ name, name ∈ headers.keys.map bytes ↔ name ∈ names :=
    fun name => mem_map_sortedHeaders_iff.symm
  have hadded : ∀ e ∈ added, '\n' ∉ e.1 ∧ '\n' ∉ e.2 :=
    fun e he => hlf e.1 e.2 (mem_sortedHeaders_iff.mp he)
  have hkeys : ∀ e ∈ added, bytes e.1 ∈ headers.keys.map bytes :=
    fun e he => (hnames _).mpr (List.mem_map.mpr ⟨e, he, rfl⟩)
  obtain ⟨text, body, rfl, rfl⟩ := findWindow_eq_some hpos
  rw [take_message] at hcr ⊢
  rw [drop_message]
  have hhead := isHead_linesOf hpos hcr
  have hhead' : IsHead (configured (headers.keys.map bytes) added
      (linesOf .plain (text ++ crlf))) := hhead.configured hadded
  have hne : configured (headers.keys.map bytes) added (linesOf .plain (text ++ crlf)) ≠ [] :=
    List.append_ne_nil_of_right_ne_nil _ (by simpa using sortedHeaders_ne_nil h0)
  have hagain := configured_configured hkeys (linesOf .plain (text ++ crlf))
  have hrewritten : rewritten = (configured (headers.keys.map bytes) added
      (linesOf .plain (text ++ crlf))).flatten ++ crlf ++ body := by
    rw [← rewriteHead_eq]
    exact finalBuf_eq hpos headers
  rw [configured_eq]
  obtain ⟨stop, hstop, hlines, hbody, hrewrite⟩ := exists_stop_of_isHead hhead' hne hrewritten
  have hsame : rewriteHead .plain (headers.keys.map bytes) added stop rewritten = rewritten := by
    rw [hrewrite, hagain, ← hrewritten]
  refine ⟨pairwise_sortedHeaders headers, fun _ _ => mem_sortedHeaders_iff, ?_, stop, hstop,
    hlines, hbody, ?_, ?_⟩
  · rw [← rewriteHead_congr hnames]
    exact finalBuf_eq hpos headers
  · rw [finalBuf_eq hstop, hsame]
  · rw [← rewriteHead_congr hnames, hsame]

def oldMessage : Bytes := bytes "GET / HTTP/1.1\r\nx: 0\r\nA: 1\r\n\r\nbody".toList

/-- The same message with the configured header. -/
def newMessage : Bytes := bytes "GET / HTTP/1.1\r\nA: 1\r\nX: 2\r\n\r\nbody".toList

def newHeaders : HashMap Str Str := AList.singleton "X".toList "2".toList

theorem rewrite_preserves_message_again :
    finalBuf .plain newHeaders newMessage = newMessage := by
  have hpos : findWindow crlfCrlf oldMessage = some 26 := by decide
  have h0 : newHeaders.keys ≠ [] := by decide
  have hlf : ∀ key value, newHeaders.lookup key = some value → '\n' ∉ key ∧ '\n' ∉ value := by
    intro key value h
    have hmem := AList.mem_lookup_iff.mp h
    obtain ⟨rfl, hvalue⟩ := Sigma.mk.inj (List.mem_singleton.mp hmem)
    obtain rfl := eq_of_heq hvalue
    decide
  have hnew : finalBuf .plain newHeaders oldMessage = newMessage := by decide
  obtain ⟨-, -, -, stop, -, -, -, hagain, -⟩ := rewrite_preserves_message hpos (by decide) h0 hlf
  rwa [hnew] at hagain

end Scety
