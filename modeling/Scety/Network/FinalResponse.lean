import Scety.Network.Message
import Scety.Network.Relay

/-!
# Configured headers and interim responses

The relay acts on the first CRLFCRLF of the upstream's stream.  If interim responses come first,
that is the end of the first of them, and the head of the final response is copied as it is.  The
bytes are marked with the part of the stream that they come from, so that the head of the final
response can be told apart in what the client gets (`final_head_configured_iff`).
-/

namespace Scety

open Effects Lines Streams

/-! ### Responses -/

/-- A response head: a status line and fields, each ending with CRLF and none of them empty. -/
structure ResponseHead where
  status : Bytes
  fields : List Bytes
  isCrlfLine : ∀ l ∈ status :: fields, IsCrlfLine l
  ne_crlf : ∀ l ∈ status :: fields, l ≠ crlf

def ResponseHead.bytes (head : ResponseHead) : Bytes :=
  (head.status :: head.fields).flatten ++ crlf

def digitOf (b : UInt8) : Option ℕ := if 48 ≤ b ∧ b ≤ 57 then some (b.toNat - 48) else none

/-- The status code: the three digits after the first space. -/
def statusCode (line : Bytes) : Option ℕ :=
  match line.dropWhile (· ≠ 32) with
  | _ :: a :: b :: c :: _ => do
    let x ← digitOf a
    let y ← digitOf b
    let z ← digitOf c
    return 100 * x + 10 * y + z
  | _ => none

/-- A response 1xx other than 101, after which another one follows. -/
def ResponseHead.Interim (head : ResponseHead) : Prop :=
  ∃ code ∈ statusCode head.status, 100 ≤ code ∧ code < 200 ∧ code ≠ 101

/-- What the upstream sends: interim responses, the head of the final one, and its body. -/
structure ResponseStream where
  interims : List ResponseHead
  interim : ∀ head ∈ interims, head.Interim
  final : ResponseHead
  isFinal : ¬ final.Interim
  body : Bytes

/-- The stream up to the end of the final head. -/
def ResponseStream.heads (s : ResponseStream) : Bytes :=
  s.interims.flatMap ResponseHead.bytes ++ s.final.bytes

def ResponseStream.bytes (s : ResponseStream) : Bytes := s.heads ++ s.body

/-- The part that a byte comes from. -/
inductive Part where
  | interim
  | status
  | field
  | body
  | own
  deriving DecidableEq

/-- Bytes marked with their part. -/
def Carrier.parts : Carrier (UInt8 × Part) := ⟨Prod.fst, fun b => (b, .own), fun _ => rfl⟩

def mark (part : Part) (data : Bytes) : List (UInt8 × Part) := data.map fun b => (b, part)

/-- The stream with the parts of its bytes. -/
def ResponseStream.marked (s : ResponseStream) : List (UInt8 × Part) :=
  mark .interim (s.interims.flatMap ResponseHead.bytes) ++ mark .status s.final.status ++
    mark .field (s.final.fields.flatten ++ crlf) ++ mark .body s.body

/-! ### The relay on marked bytes -/

/-- `relayed`, for any carrier. -/
def relayedOn {α : Type} (c : Carrier α) (extraHeaders : List (Str × Str)) (maxBuf : ℕ)
    (stream : List α) : List α :=
  match findWindow crlfCrlf (stream.map c.val) with
  | some pos =>
    if pos + 4 ≤ maxBuf then
      rewriteHead c (extraHeaders.map fun e => bytes e.1) extraHeaders pos stream
    else stream
  | none => stream

/-- Erasing the marks gives what is relayed. -/
theorem relayedOn_map_val {α : Type} (c : Carrier α) (extraHeaders : List (Str × Str))
    (maxBuf : ℕ) (stream : List α) :
    (relayedOn c extraHeaders maxBuf stream).map c.val =
      relayed extraHeaders maxBuf (stream.map c.val) := by
  rw [relayed_eq_rewriteHead]
  unfold relayedOn
  cases findWindow crlfCrlf (stream.map c.val) with
  | none => rfl
  | some pos =>
    dsimp only
    split_ifs
    · unfold rewriteHead
      rw [← List.map_take, ← List.map_drop, stripHeadersByName_map_val, List.map_append,
        List.map_append, map_val_own, map_plain_own]
    · rfl

/-- The complete lines in front of a text are its lines. -/
theorem linesOf_flatten_of_isHead {α : Type} {c : Carrier α} {ls : List (List α)}
    (h : IsHead (ls.map (List.map c.val))) : linesOf c ls.flatten = ls := by
  have hlines : ∀ l ∈ ls, IsLine (fun a => decide (c.val a = lf)) l := by
    intro l hl
    obtain ⟨u, b, hub, hb, hu⟩ := isLine_of_isHead h _ (List.mem_map_of_mem hl)
    obtain ⟨v, w, rfl, rfl, hw⟩ := List.map_eq_append_iff.mp hub
    obtain ⟨a, rfl, rfl⟩ := List.map_eq_singleton_iff.mp hw
    refine ⟨v, a, rfl, hb, fun x hx => ?_⟩
    exact hu (c.val x) (List.mem_map_of_mem hx)
  have hsplit := splitInclusive_flatten_append hlines []
  rw [List.append_nil] at hsplit
  exact hsplit.trans (List.append_nil _)

/-- The head of a marked message is found and rewritten line by line. -/
theorem rewriteHead_of_lines {α : Type} {c : Carrier α} {ls : List (List α)} {e : List α}
    (rest : List α) (h : IsHead (ls.map (List.map c.val))) (h0 : ls ≠ []) (he : e.map c.val = crlf) :
    ∃ pos, findWindow crlfCrlf ((ls.flatten ++ e ++ rest).map c.val) = some pos ∧
      pos + 4 = (ls.flatten ++ e).length ∧ (ls.flatten ++ e ++ rest).take (pos + 2) = ls.flatten ∧
      ∀ names headers, rewriteHead c names headers pos (ls.flatten ++ e ++ rest) =
        (ls.filter fun l => !isNamedLineOf names (l.map c.val)).flatten ++
          (headers.flatMap headerLine).map c.own ++ e ++ rest := by
  have hval : (ls.flatten ++ e ++ rest).map c.val =
      (ls.map (List.map c.val)).flatten ++ crlf ++ rest.map c.val := by
    rw [List.map_append, List.map_append, List.map_flatten, he]
  have h0' : ls.map (List.map c.val) ≠ [] := by simpa using h0
  have hlen : ((ls.map (List.map c.val)).flatten).length = ls.flatten.length := by
    rw [← List.map_flatten, List.length_map]
  have helen : e.length = 2 := by rw [← List.length_map c.val, he]; rfl
  obtain ⟨x, hx⟩ := exists_flatten_eq h.isCrlfLine h0'
  have hlong : 2 ≤ ls.flatten.length := by
    rw [← hlen, hx, List.length_append]
    exact Nat.le_add_left 2 _
  have hcut : ls.flatten.length - 2 + 2 = ls.flatten.length := by omega
  refine ⟨ls.flatten.length - 2, ?_, ?_, ?_, fun names headers => ?_⟩
  · rw [hval, h.findWindow_eq h0', hlen]
  · rw [List.length_append]
    omega
  · rw [hcut, List.append_assoc, List.take_left]
  · unfold rewriteHead stripHeadersByName
    rw [hcut, List.append_assoc ls.flatten e rest, List.take_left, List.drop_left,
      linesOf_flatten_of_isHead h]
    simp only [List.append_assoc]

/-! ### What the client is to see -/

/-- The line of the program for a header. -/
def ownLine (e : Str × Str) : List (UInt8 × Part) := mark .own (headerLine e)

/-- The lines of the head of the final response, in what the client gets: from its status line to
the first empty line. -/
def FinalHeadIs (s : ResponseStream) (client : List (UInt8 × Part))
    (lines : List (List (UInt8 × Part))) : Prop :=
  ∃ front head pos, client = front ++ head ∧ mark .status s.final.status <+: head ∧
    findWindow crlfCrlf (head.map Carrier.parts.val) = some pos ∧
      lines = linesOf .parts (head.take (pos + 2))

/-- Every configured line is there once, and no line of the upstream has one of the names. -/
structure ShowsConfigured (extraHeaders : List (Str × Str))
    (lines : List (List (UInt8 × Part))) : Prop where
  once : ∀ e ∈ extraHeaders, lines.count (ownLine e) = 1
  named : ∀ l ∈ lines, isNamedLineOf (extraHeaders.map fun e => bytes e.1)
    (l.map Carrier.parts.val) = true → ∀ b ∈ l, b.2 = .own

/-! ### Marks -/

@[simp] theorem map_val_mark (part : Part) (data : Bytes) :
    (mark part data).map Carrier.parts.val = data := by
  unfold mark
  rw [List.map_map]
  exact List.map_id _

theorem part_of_mem_mark {part : Part} {data : Bytes} {b : UInt8 × Part} (h : b ∈ mark part data) :
    b.2 = part := by
  obtain ⟨a, -, rfl⟩ := List.mem_map.mp h
  rfl

theorem part_of_mem_kept {part : Part} {ls : List Bytes} {p : List (UInt8 × Part) → Bool}
    {b : UInt8 × Part} (h : b ∈ ((ls.map (mark part)).filter p).flatten) : b.2 = part := by
  obtain ⟨l, hl, hbl⟩ := List.mem_flatten.mp h
  obtain ⟨l', -, rfl⟩ := List.mem_map.mp (List.mem_of_mem_filter hl)
  exact part_of_mem_mark hbl

theorem part_of_mem_ownLines {headers : List (Str × Str)} {b : UInt8 × Part}
    (h : b ∈ (headers.map ownLine).flatten) : b.2 = .own := by
  obtain ⟨l, hl, hbl⟩ := List.mem_flatten.mp h
  obtain ⟨e, -, rfl⟩ := List.mem_map.mp hl
  exact part_of_mem_mark hbl

theorem mark_injective (part : Part) : Function.Injective (mark part) :=
  List.map_injective_iff.mpr fun _ _ h => (Prod.mk.inj h).1

theorem mark_eq_nil_iff {part : Part} {data : Bytes} : mark part data = [] ↔ data = [] :=
  List.map_eq_nil_iff

theorem mark_append (part : Part) (a b : Bytes) : mark part (a ++ b) = mark part a ++ mark part b :=
  List.map_append

theorem mark_flatten (part : Part) (ls : List Bytes) :
    mark part ls.flatten = (ls.map (mark part)).flatten := List.map_flatten

theorem map_own_eq (data : Bytes) : data.map Carrier.parts.own = mark .own data := rfl

theorem flatMap_headerLine_own (headers : List (Str × Str)) :
    (headers.flatMap headerLine).map Carrier.parts.own = (headers.map ownLine).flatten := by
  rw [map_own_eq, List.flatMap_def, mark_flatten, List.map_map]
  rfl

theorem ResponseStream.map_val_marked (s : ResponseStream) :
    s.marked.map Carrier.parts.val = s.bytes := by
  unfold marked bytes heads ResponseHead.bytes
  simp only [List.map_append, map_val_mark, List.flatten_cons, List.append_assoc]

theorem IsCrlfLine.ne_nil {l : Bytes} (h : IsCrlfLine l) : l ≠ [] := by
  obtain ⟨u, rfl, -⟩ := h
  exact List.append_ne_nil_of_right_ne_nil _ (by decide)

theorem ownLine_ne_nil (e : Str × Str) : ownLine e ≠ [] := by
  intro hnil
  have hline := mark_eq_nil_iff.mp hnil
  unfold headerLine at hline
  exact absurd (List.append_eq_nil_iff.mp hline).2 (by decide)

theorem ResponseStream.status_ne_nil (s : ResponseStream) : s.final.status ≠ [] :=
  (s.final.isCrlfLine _ List.mem_cons_self).ne_nil

theorem ResponseHead.isHead (head : ResponseHead) : IsHead (head.status :: head.fields) :=
  ⟨head.isCrlfLine, fun l hl => head.ne_crlf l (List.mem_of_mem_tail hl)⟩

/-! ### What the client gets -/

section Sent

variable {extraHeaders : List (Str × Str)} {maxBuf : ℕ} {s : ResponseStream}

/-- The line is not stripped. -/
def keepsLine (extraHeaders : List (Str × Str)) (l : List (UInt8 × Part)) : Bool :=
  !isNamedLineOf (extraHeaders.map fun e => bytes e.1) (l.map Carrier.parts.val)

/-- The relay, on a stream that begins with the lines of a head. -/
theorem relayedOn_of_lines {ls : List (List (UInt8 × Part))} {e rest : List (UInt8 × Part)}
    (h : IsHead (ls.map (List.map Carrier.parts.val))) (h0 : ls ≠ [])
    (he : e.map Carrier.parts.val = crlf) (hfits : (ls.flatten ++ e).length ≤ maxBuf) :
    relayedOn .parts extraHeaders maxBuf (ls.flatten ++ e ++ rest) =
      (ls.filter (keepsLine extraHeaders)).flatten ++ (extraHeaders.map ownLine).flatten ++ e ++
        rest := by
  obtain ⟨pos, hpos, hend, -, hrewrite⟩ := rewriteHead_of_lines rest h h0 he
  unfold relayedOn
  rw [hpos]
  dsimp only
  rw [if_pos (hend.trans_le hfits), hrewrite, flatMap_headerLine_own]
  rfl

theorem map_val_map_mark (part : Part) (ls : List Bytes) :
    (ls.map (mark part)).map (List.map Carrier.parts.val) = ls := by
  rw [List.map_map]
  refine (List.map_congr_left fun l _ => ?_).trans (List.map_id ls)
  exact map_val_mark part l

/-- With an interim response first, the lines of the program stand before the final head. -/
theorem exists_sent_of_interim {first : ResponseHead} {others : List ResponseHead}
    (hs : s.interims = first :: others) (hfits : s.heads.length ≤ maxBuf) :
    ∃ front rest, relayedOn .parts extraHeaders maxBuf s.marked = front ++ rest ∧
      (∀ b ∈ front, b.2 ≠ .status) ∧ ∀ b ∈ rest, b.2 ≠ .own := by
  have hlines : IsHead (((first.status :: first.fields).map (mark .interim)).map
      (List.map Carrier.parts.val)) := by
    rw [map_val_map_mark]
    exact first.isHead
  have hmarked : s.marked = ((first.status :: first.fields).map (mark .interim)).flatten ++
      mark .interim crlf ++ (mark .interim (others.flatMap ResponseHead.bytes) ++
        mark .status s.final.status ++ mark .field (s.final.fields.flatten ++ crlf) ++
          mark .body s.body) := by
    unfold ResponseStream.marked
    rw [hs, List.flatMap_cons, ResponseHead.bytes, mark_append, mark_append, mark_flatten]
    simp only [List.append_assoc]
  have hlen : (((first.status :: first.fields).map (mark .interim)).flatten ++
      mark .interim crlf).length ≤ maxBuf := by
    rw [← mark_flatten, ← mark_append, mark, List.length_map]
    show first.bytes.length ≤ maxBuf
    unfold ResponseStream.heads at hfits
    rw [hs, List.flatMap_cons, List.length_append, List.length_append] at hfits
    omega
  have hsent := @relayedOn_of_lines extraHeaders maxBuf _ _ (mark .interim
    (others.flatMap ResponseHead.bytes) ++ mark .status s.final.status ++
      mark .field (s.final.fields.flatten ++ crlf) ++ mark .body s.body) hlines (by simp)
        (map_val_mark _ _) hlen
  rw [← hmarked, List.append_assoc] at hsent
  refine ⟨_, _, hsent, fun b hb => ?_, fun b hb => ?_⟩
  · rcases List.mem_append.mp hb with hb | hb
    · rw [part_of_mem_kept hb]
      decide
    · rw [part_of_mem_ownLines hb]
      decide
  · simp only [List.mem_append] at hb
    rcases hb with hb | ((hb | hb) | hb) | hb
    all_goals
      rw [part_of_mem_mark hb]
      decide

/-- No line of the program is in a final head that comes after all of them. -/
theorem not_showsConfigured_of_interim (hextra : extraHeaders ≠ []) (hi : s.interims ≠ [])
    (hfits : s.heads.length ≤ maxBuf) : ¬ ∃ lines,
      FinalHeadIs s (relayedOn .parts extraHeaders maxBuf s.marked) lines ∧
        ShowsConfigured extraHeaders lines := by
  rintro ⟨lines, ⟨front, head, pos, hclient, hstatus, -, rfl⟩, hshows⟩
  obtain ⟨first, others, hs⟩ := List.exists_cons_of_ne_nil hi
  obtain ⟨sent, rest, hsent, hfront, hrest⟩ :=
    @exists_sent_of_interim extraHeaders maxBuf s first others hs hfits
  obtain ⟨e, others, rfl⟩ := List.exists_cons_of_ne_nil hextra
  -- the head begins with a status line, so it lies behind the lines of the program
  have hafter : ∀ b ∈ head, b.2 ≠ .own := by
    rw [hsent] at hclient
    rcases List.append_eq_append_iff.mp hclient with ⟨m, rfl, rfl⟩ | ⟨m, rfl, rfl⟩
    · exact fun b hb => hrest b (List.mem_append_right _ hb)
    · cases m with
      | nil => exact hrest
      | cons b m =>
        obtain ⟨rest', hrest'⟩ := hstatus
        obtain ⟨b', status, hb'⟩ := List.exists_cons_of_ne_nil s.status_ne_nil
        rw [hb'] at hrest'
        obtain ⟨rfl, -⟩ := List.cons.inj hrest'
        exact absurd rfl (hfront (b', .status) (List.mem_append_right _ List.mem_cons_self))
  have honce := hshows.once e List.mem_cons_self
  have hmem : ownLine e ∈ linesOf .parts (head.take (pos + 2)) :=
    List.count_pos_iff.mp (honce ▸ Nat.one_pos)
  obtain ⟨b, hb⟩ := List.exists_mem_of_ne_nil _ (ownLine_ne_nil e)
  have hbhead : b ∈ head.take (pos + 2) := by
    rw [← flatten_splitInclusive (fun a => decide (Carrier.parts.val a = lf)) (head.take _)]
    exact List.mem_flatten.mpr ⟨_, hmem, hb⟩
  exact hafter b (List.mem_of_mem_take hbhead) (part_of_mem_mark hb)

/-- The lines of the final head. -/
def ResponseStream.finalLines (s : ResponseStream) : List (List (UInt8 × Part)) :=
  mark .status s.final.status :: s.final.fields.map (mark .field)

/-- The lines of the rewritten head. -/
def ResponseStream.rewritten (s : ResponseStream) (extraHeaders : List (Str × Str)) :
    List (List (UInt8 × Part)) :=
  s.finalLines.filter (keepsLine extraHeaders) ++ extraHeaders.map ownLine

theorem ResponseStream.map_val_finalLines (s : ResponseStream) :
    s.finalLines.map (List.map Carrier.parts.val) = s.final.status :: s.final.fields := by
  unfold finalLines
  rw [List.map_cons, map_val_mark, map_val_map_mark]

/-- Without interim responses the final head is rewritten. -/
theorem sent_of_no_interims (hi : s.interims = []) (hfits : s.heads.length ≤ maxBuf) :
    relayedOn .parts extraHeaders maxBuf s.marked =
      (s.rewritten extraHeaders).flatten ++ mark .field crlf ++ mark .body s.body := by
  have hlines : IsHead (s.finalLines.map (List.map Carrier.parts.val)) := by
    rw [s.map_val_finalLines]
    exact s.final.isHead
  have hmarked : s.marked =
      s.finalLines.flatten ++ mark .field crlf ++ mark .body s.body := by
    unfold ResponseStream.marked ResponseStream.finalLines
    rw [hi, List.flatten_cons, ← mark_flatten, mark_append]
    simp only [List.flatMap_nil, List.append_assoc]
    rfl
  have hlen : (s.finalLines.flatten ++ mark .field crlf).length ≤ maxBuf := by
    rw [← List.length_map Carrier.parts.val, List.map_append, List.map_flatten,
      s.map_val_finalLines, map_val_mark]
    unfold ResponseStream.heads at hfits
    rwa [hi] at hfits
  rw [hmarked, relayedOn_of_lines hlines (List.cons_ne_nil _ _) (map_val_mark _ _) hlen]
  unfold ResponseStream.rewritten
  rw [List.flatten_append]

theorem keepsLine_status_iff : keepsLine extraHeaders (mark .status s.final.status) = true ↔
    ∀ e ∈ extraHeaders, startsWithName s.final.status (bytes e.1) = false := by
  have hnames : (extraHeaders.map fun e => bytes e.1) = (extraHeaders.map Prod.fst).map bytes := by
    rw [List.map_map]
    rfl
  unfold keepsLine
  rw [map_val_mark, hnames, isNamedLineOf_eq]
  simp

/-- The bytes of the status line are in the rewritten head if the line is kept, and they are
nowhere else. -/
theorem keepsLine_of_status_mem {b : UInt8 × Part} (hb : b.2 = .status)
    (hmem : b ∈ (s.rewritten extraHeaders).flatten ++ mark .field crlf ++ mark .body s.body) :
    keepsLine extraHeaders (mark .status s.final.status) = true := by
  have hother : ∀ {part data}, part ≠ .status → b ∉ mark part data := fun hne hin =>
    hne ((part_of_mem_mark hin).symm.trans hb)
  simp only [List.mem_append, hother (show Part.field ≠ .status by decide),
    hother (show Part.body ≠ .status by decide), or_false] at hmem
  obtain ⟨l, hl, hbl⟩ := List.mem_flatten.mp hmem
  rcases List.mem_append.mp hl with hl | hl
  · obtain ⟨hline, hkeeps⟩ := List.mem_filter.mp hl
    rcases List.mem_cons.mp hline with rfl | hline
    · exact hkeeps
    · obtain ⟨field, -, rfl⟩ := List.mem_map.mp hline
      exact absurd hbl (hother (by decide))
  · obtain ⟨e, -, rfl⟩ := List.mem_map.mp hl
    exact absurd hbl (hother (by decide))

/-- A line holds one LF, so a header with LF in it is no line. -/
theorem lf_not_mem_of_mem_linesOf {text : List (UInt8 × Part)} {e : Str × Str}
    (h : ownLine e ∈ linesOf .parts text) : '\n' ∉ e.1 ∧ '\n' ∉ e.2 := by
  obtain ⟨u, b, hub, hu⟩ := exists_of_mem h
  have hline := congrArg (List.map Carrier.parts.val) hub
  rw [ownLine, map_val_mark, List.map_append, headerLine, show crlf = [cr] ++ [lf] from rfl,
    ← List.append_assoc] at hline
  obtain ⟨hfront, -⟩ := List.append_inj' hline rfl
  have hlf : lf ∉ bytes (e.1 ++ ": ".toList ++ e.2) := by
    intro hin
    obtain ⟨a, ha, hval⟩ := List.mem_map.mp (hfront ▸ List.mem_append_left [cr] hin)
    exact absurd (hu a ha) (by simp [hval])
  rw [mem_bytes_iff (by decide), List.mem_append, List.mem_append, not_or, not_or] at hlf
  exact ⟨hlf.1.1, hlf.2⟩

/-- The status line, if it is kept, is first, and its bytes are nowhere else. -/
theorem exists_behind_status (hkeeps : keepsLine extraHeaders (mark .status s.final.status) = true) :
    ∃ others, (s.rewritten extraHeaders).flatten ++ mark .field crlf ++ mark .body s.body =
      mark .status s.final.status ++ others ∧ ∀ b ∈ others, b.2 ≠ .status := by
  refine ⟨((s.final.fields.map (mark .field)).filter (keepsLine extraHeaders)).flatten ++
    (extraHeaders.map ownLine).flatten ++ mark .field crlf ++ mark .body s.body, ?_, ?_⟩
  · unfold ResponseStream.rewritten ResponseStream.finalLines
    rw [List.filter_cons_of_pos hkeeps, List.flatten_append, List.flatten_cons]
    simp only [List.append_assoc]
  · intro b hb
    simp only [List.mem_append] at hb
    rcases hb with ((hb | hb) | hb) | hb
    · rw [part_of_mem_kept hb]
      decide
    · rw [part_of_mem_ownLines hb]
      decide
    all_goals
      rw [part_of_mem_mark hb]
      decide

/-- A text that occurs only once is where it stands first. -/
theorem front_eq_nil {front head others : List (UInt8 × Part)} {status : Bytes}
    (h : front ++ head = mark .status status ++ others) (hstatus : mark .status status <+: head)
    (hne : status ≠ []) (hothers : ∀ b ∈ others, b.2 ≠ .status) : front = [] := by
  have hmark : ∀ b ∈ mark .status status, decide (b.2 = .status) = true := fun b hb =>
    decide_eq_true (part_of_mem_mark hb)
  have hothers' : others.countP (fun b => decide (b.2 = .status)) = 0 :=
    List.countP_eq_zero.mpr fun b hb => by simpa using hothers b hb
  have hcount := hstatus.sublist.countP_le (p := fun b => decide (b.2 = .status))
  rw [List.countP_eq_length.mpr hmark] at hcount
  rcases List.append_eq_append_iff.mp h with ⟨m, hm, rfl⟩ | ⟨m, rfl, rfl⟩
  · rw [List.countP_append, hothers', hm, List.length_append] at hcount
    have hle : m.countP (fun b => decide (b.2 = .status)) ≤ m.length := List.countP_le_length
    exact List.eq_nil_of_length_eq_zero (by omega)
  · rw [List.countP_append] at hothers'
    have hpos := List.length_pos_iff.mpr (mt mark_eq_nil_iff.mp hne : mark .status status ≠ [])
    omega

theorem map_val_rewritten : (s.rewritten extraHeaders).map (List.map Carrier.parts.val) =
    configured (extraHeaders.map fun e => bytes e.1) extraHeaders
      (s.final.status :: s.final.fields) := by
  have hown : (extraHeaders.map ownLine).map (List.map Carrier.parts.val) =
      extraHeaders.map headerLine := by
    rw [List.map_map]
    exact List.map_congr_left fun e _ => map_val_mark _ _
  unfold ResponseStream.rewritten configured
  rw [List.map_append, hown, ← s.map_val_finalLines, List.filter_map]
  rfl

/-- The final head is the head of what is sent, and its lines are the rewritten ones. -/
theorem finalHeadIs_iff (hkeeps : keepsLine extraHeaders (mark .status s.final.status) = true)
    (hlf : ∀ e ∈ extraHeaders, '\n' ∉ e.1 ∧ '\n' ∉ e.2) {lines : List (List (UInt8 × Part))} :
    FinalHeadIs s ((s.rewritten extraHeaders).flatten ++ mark .field crlf ++ mark .body s.body)
      lines ↔ lines = s.rewritten extraHeaders := by
  have hhead : IsHead ((s.rewritten extraHeaders).map (List.map Carrier.parts.val)) := by
    rw [map_val_rewritten]
    exact s.final.isHead.configured hlf
  have h0 : s.rewritten extraHeaders ≠ [] := by
    unfold ResponseStream.rewritten ResponseStream.finalLines
    rw [List.filter_cons_of_pos hkeeps]
    exact List.cons_ne_nil _ _
  obtain ⟨others, hsent, hothers⟩ := exists_behind_status hkeeps
  obtain ⟨pos, hpos, -, htake, -⟩ :=
    rewriteHead_of_lines (mark .body s.body) hhead h0 (map_val_mark .field crlf)
  constructor
  · rintro ⟨front, head, pos', hclient, hstatus, hpos', rfl⟩
    obtain rfl := front_eq_nil (hclient.symm.trans hsent) hstatus s.status_ne_nil hothers
    obtain rfl : _ = head := hclient
    obtain rfl : pos = pos' := Option.some.inj (hpos.symm.trans hpos')
    rw [htake, linesOf_flatten_of_isHead hhead]
  · rintro rfl
    have hlines := (linesOf_flatten_of_isHead hhead).symm
    rw [← htake] at hlines
    refine ⟨[], _, pos, (List.nil_append _).symm, ?_, hpos, hlines⟩
    rw [hsent]
    exact List.prefix_append _ _

/-- The upstream's lines hold no byte of the program. -/
theorem part_ne_own_of_mem {l : List (UInt8 × Part)} (hl : l ∈ s.finalLines) {b : UInt8 × Part}
    (hb : b ∈ l) : b.2 ≠ .own := by
  rcases List.mem_cons.mp hl with rfl | hl
  · rw [part_of_mem_mark hb]
    decide
  · obtain ⟨field, -, rfl⟩ := List.mem_map.mp hl
    rw [part_of_mem_mark hb]
    decide

/-- The rewritten lines show the configured ones if no two of those are the same. -/
theorem showsConfigured_rewritten_iff : ShowsConfigured extraHeaders (s.rewritten extraHeaders) ↔
    (extraHeaders.map headerLine).Nodup := by
  have hcount : ∀ e, (s.rewritten extraHeaders).count (ownLine e) =
      (extraHeaders.map headerLine).count (headerLine e) := by
    intro e
    have hkept : ownLine e ∉ s.finalLines.filter (keepsLine extraHeaders) := by
      intro hmem
      obtain ⟨b, hb⟩ := List.exists_mem_of_ne_nil _ (ownLine_ne_nil e)
      exact part_ne_own_of_mem (List.mem_of_mem_filter hmem) hb (part_of_mem_mark hb)
    have hmap : extraHeaders.map ownLine = (extraHeaders.map headerLine).map (mark .own) := by
      rw [List.map_map]
      rfl
    unfold ResponseStream.rewritten
    rw [List.count_append, List.count_eq_zero_of_not_mem hkept, Nat.zero_add, hmap]
    exact List.count_map_of_injective _ _ (mark_injective .own) _
  constructor
  · intro h
    refine List.nodup_iff_count_eq_one.mpr fun line hline => ?_
    obtain ⟨e, he, rfl⟩ := List.mem_map.mp hline
    exact (hcount e).symm.trans (h.once e he)
  · intro h
    refine ⟨fun e he => ?_, fun l hl hnamed => ?_⟩
    · exact (hcount e).trans (List.nodup_iff_count_eq_one.mp h _ (List.mem_map_of_mem he))
    · rcases List.mem_append.mp hl with hl | hl
      · have hkeeps := (List.mem_filter.mp hl).2
        unfold keepsLine at hkeeps
        rw [hnamed] at hkeeps
        exact absurd hkeeps (by decide)
      · obtain ⟨e, -, rfl⟩ := List.mem_map.mp hl
        exact fun b hb => part_of_mem_mark hb

/-- When the final head shows the configured lines. -/
theorem exists_showsConfigured_iff (hextra : extraHeaders ≠ []) (hfits : s.heads.length ≤ maxBuf) :
    (∃ lines, FinalHeadIs s (relayedOn .parts extraHeaders maxBuf s.marked) lines ∧
        ShowsConfigured extraHeaders lines) ↔
      s.interims = [] ∧ (∀ e ∈ extraHeaders, '\n' ∉ e.1 ∧ '\n' ∉ e.2) ∧
        (extraHeaders.map headerLine).Nodup ∧
          ∀ e ∈ extraHeaders, startsWithName s.final.status (bytes e.1) = false := by
  rw [← keepsLine_status_iff]
  constructor
  · intro h
    have hi : s.interims = [] := by
      by_contra hi
      exact not_showsConfigured_of_interim hextra hi hfits h
    rw [sent_of_no_interims hi hfits] at h
    obtain ⟨lines, hfinal, hshows⟩ := h
    have hlf : ∀ e ∈ extraHeaders, '\n' ∉ e.1 ∧ '\n' ∉ e.2 := by
      intro e he
      obtain ⟨front, head, pos, -, -, -, rfl⟩ := hfinal
      have hone := hshows.once e he
      exact lf_not_mem_of_mem_linesOf (List.count_pos_iff.mp (hone ▸ Nat.one_pos))
    have hkeeps : keepsLine extraHeaders (mark .status s.final.status) = true := by
      obtain ⟨front, head, pos, hclient, ⟨rest, rfl⟩, -, -⟩ := hfinal
      obtain ⟨b, hb⟩ := List.exists_mem_of_ne_nil _ (mt mark_eq_nil_iff.mp s.status_ne_nil)
      refine keepsLine_of_status_mem (part_of_mem_mark hb) ?_
      rw [hclient]
      exact List.mem_append_right _ (List.mem_append_left _ hb)
    obtain rfl := (finalHeadIs_iff hkeeps hlf).mp hfinal
    exact ⟨hi, hlf, showsConfigured_rewritten_iff.mp hshows, hkeeps⟩
  · rintro ⟨hi, hlf, hnodup, hkeeps⟩
    rw [sent_of_no_interims hi hfits]
    exact ⟨_, (finalHeadIs_iff hkeeps hlf).mpr rfl, showsConfigured_rewritten_iff.mpr hnodup⟩

end Sent

/-- **The configured headers and the final response.**  Whatever the segmentation, the client gets
the relayed stream, and the head of the final response has every configured line once and no line
of the upstream with one of the names just if no interim response comes first, the configured
headers are lines and different ones, and the status line does not start with one of their names. -/
theorem final_head_configured_iff {extraHeaders : List (Str × Str)} {maxBuf : ℕ} {tr : Trace}
    {r : Except Unit Unit} (s : ResponseStream) (hextra : extraHeaders ≠ [])
    (hfits : s.heads.length ≤ maxBuf)
    (h : Completes (relayUpstreamResponse extraHeaders maxBuf) tr r)
    (hs : Delivers upstreamTaking s.bytes tr) (hw : false ∉ outputResults tr) :
    ∃ sent : List (UInt8 × Part), written tr = sent.map Carrier.parts.val ∧
      sent = relayedOn .parts extraHeaders maxBuf s.marked ∧
      ((∃ lines, FinalHeadIs s sent lines ∧ ShowsConfigured extraHeaders lines) ↔
        s.interims = [] ∧ (∀ e ∈ extraHeaders, '\n' ∉ e.1 ∧ '\n' ∉ e.2) ∧
          (extraHeaders.map headerLine).Nodup ∧
            ∀ e ∈ extraHeaders, startsWithName s.final.status (bytes e.1) = false) := by
  have hmax : 0 < maxBuf := by
    have hpos := List.length_pos_iff.mpr s.status_ne_nil
    unfold ResponseStream.heads ResponseHead.bytes at hfits
    rw [List.flatten_cons, List.length_append, List.length_append, List.length_append] at hfits
    omega
  refine ⟨_, ?_, rfl, exists_showsConfigured_iff hextra hfits⟩
  rw [relayedOn_map_val, s.map_val_marked]
  exact written_relayUpstreamResponse hextra hmax h hs hw

/-- A response with one field of its own. -/
def okHead : ResponseHead where
  status := bytes "HTTP/1.1 200 OK\r\n".toList
  fields := [bytes "X: 0\r\n".toList]
  isCrlfLine := List.forall_mem_cons.mpr ⟨⟨bytes "HTTP/1.1 200 OK".toList, by decide, by decide⟩,
    List.forall_mem_cons.mpr ⟨⟨bytes "X: 0".toList, by decide, by decide⟩, by simp⟩⟩
  ne_crlf := by decide

def hintsHead : ResponseHead where
  status := bytes "HTTP/1.1 103 Early Hints\r\n".toList
  fields := []
  isCrlfLine := List.forall_mem_cons.mpr
    ⟨⟨bytes "HTTP/1.1 103 Early Hints".toList, by decide, by decide⟩, by simp⟩
  ne_crlf := by decide

theorem not_interim_okHead : ¬ okHead.Interim := by
  rintro ⟨code, hcode, -, hlt, -⟩
  rw [show statusCode okHead.status = some 200 by decide] at hcode
  obtain rfl := Option.some.inj hcode
  exact absurd hlt (by decide)

theorem interim_hintsHead : hintsHead.Interim :=
  ⟨103, by decide, by decide, by decide, by decide⟩

def okResponse : ResponseStream := ⟨[], by simp, okHead, not_interim_okHead, []⟩

def hintsResponse : ResponseStream :=
  ⟨[hintsHead], by simpa using interim_hintsHead, okHead, not_interim_okHead, []⟩

/-- The upstream sends `data` at once, and the client gets `sent`. -/
def atOnce (data sent : Bytes) (h : data.length ≤ 64) : Trace :=
  [⟨.readUpstream 64, .ok ⟨data, h⟩⟩, ⟨.writeClient (.relay sent), .ok ()⟩,
    ⟨.copyBidirectional, ⟨[], [], .ok ()⟩⟩]

theorem delivers_atOnce {data sent : Bytes} (h : data.length ≤ 64) (h0 : data ≠ []) :
    Delivers upstreamTaking data (atOnce data sent h) := by
  refine delivers_readUpstream_iff.mpr ⟨[], (List.append_nil _).symm, fun hnil => absurd hnil h0, ?_⟩
  exact delivers_writeClient_iff.mpr (delivers_copyBidirectional_iff.mpr ⟨rfl, .stop []⟩)

theorem completes_atOnce (extraHeaders : List (Str × Str)) (pos : ℕ) {data : Bytes}
    (hextra : extraHeaders ≠ []) (h : data.length ≤ 64) (h0 : data ≠ [])
    (hpos : findWindow crlfCrlf data = some pos) :
    Completes (relayUpstreamResponse extraHeaders 64) (atOnce data (rewriteHead .plain
      (extraHeaders.map fun e => bytes e.1) extraHeaders pos data) h) (.ok ()) := by
  unfold relayUpstreamResponse
  rw [if_neg hextra, relayLoop]
  refine completes_bind_iff.mpr
    (Or.inr ⟨⟨data, h⟩, [_], _, rfl, completes_readUpstream.mpr rfl, ?_⟩)
  rw [dif_neg h0]
  have hread : findWindow crlfCrlf ((ReadBuffer.empty 64).push ⟨data, h⟩).data = some pos := hpos
  rw [hread]
  refine completes_bind_iff.mpr (Or.inr ⟨(), [_], _, rfl, completes_writeClient.mpr rfl, ?_⟩)
  exact completes_copyBidirectional.mpr ⟨_, rfl, rfl⟩

/-- `X: 1` instead of the field of the response. -/
theorem final_head_configured_iff_ok : ∃ sent : List (UInt8 × Part),
    sent.map Carrier.parts.val = bytes "HTTP/1.1 200 OK\r\nX: 1\r\n\r\n".toList ∧
      ∃ lines, FinalHeadIs okResponse sent lines ∧
        ShowsConfigured [("X".toList, "1".toList)] lines := by
  obtain ⟨sent, hsent, -, hiff⟩ := final_head_configured_iff okResponse (by decide) (by decide)
    (completes_atOnce [("X".toList, "1".toList)] 21 (by decide) (by decide) (by decide) (by decide))
      (delivers_atOnce (by decide) (by decide)) (by decide)
  exact ⟨sent, hsent.symm.trans (by decide), hiff.mpr ⟨rfl, by decide, by decide, by decide⟩⟩

/-- Behind early hints the field of the response is still there, and `X: 1` is in the hints. -/
theorem final_head_not_configured : ∃ tr r,
    Completes (relayUpstreamResponse [("X".toList, "1".toList)] 64) tr r ∧
      Delivers upstreamTaking hintsResponse.bytes tr ∧ false ∉ outputResults tr ∧
      hintsResponse.heads.length ≤ 64 ∧
      written tr = bytes ("HTTP/1.1 103 Early Hints\r\nX: 1\r\n\r\n" ++
        "HTTP/1.1 200 OK\r\nX: 0\r\n\r\n").toList ∧
      written tr = (relayedOn .parts [("X".toList, "1".toList)] 64 hintsResponse.marked).map
        Carrier.parts.val ∧
      ¬ ∃ lines, FinalHeadIs hintsResponse
          (relayedOn .parts [("X".toList, "1".toList)] 64 hintsResponse.marked) lines ∧
        ShowsConfigured [("X".toList, "1".toList)] lines :=
  ⟨_, _, completes_atOnce _ 24 (by decide) (by decide) (by decide) (by decide),
    delivers_atOnce (by decide) (by decide), by decide, by decide, by decide, by decide,
      not_showsConfigured_of_interim (by decide) (by decide) (by decide)⟩

end Scety
