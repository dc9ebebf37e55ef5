import Scety.Network.HeadGrammar
import Scety.Network.RequestRuns

/-!
# When `X-Forwarded-For` cannot be spoofed

Stripping and injection happen at the first CRLFCRLF of the bytes read.  `httparse` accepts heads
that end elsewhere: with bare LF, or behind leading empty lines.  So the upstream reads the
client's own fields unless the first CRLFCRLF is the end of the head (`forwards_clientBytes_iff`).
-/

namespace Scety

open Effects Lines

/-! ### What is read upstream -/

/-- The name of a field: what stands before its first colon. -/
def fieldName (text : Bytes) : Option Bytes :=
  if colon ∈ text then some (text.takeWhile (· ≠ colon)) else none

/-- The field has the name, in any letter case. -/
def FieldNamed (text name : Bytes) : Prop :=
  ∃ n ∈ fieldName text, eqIgnoreAsciiCase n name = true

/-- Bytes that the client sent. -/
def clientBytes (data : Bytes) : List (UInt8 × Origin) := data.map fun b => (b, .client)

/-- Bytes of the program. -/
def ownBytes (data : Bytes) : List (UInt8 × Origin) := data.map Carrier.marked.own

/-- The text of the line that tells the upstream the client's address. -/
def xffText (clientIp : Str) : Bytes := bytes (xffName ++ ": ".toList ++ xffIp clientIp)

/-- The head sent is that of the client's request; it contains the program's line, and no field of
the client with a name that the program sets. -/
structure Unspoofed (names : List Bytes) (xff : Bytes) (received sent : Head (UInt8 × Origin)) :
    Prop where
  request : sent.request = received.request
  own : ownBytes xff ∈ sent.fields
  stripped : ∀ f ∈ sent.fields, (∃ b ∈ f, b.2 = .client) →
    ∀ name ∈ names, ¬ FieldNamed (f.map Prod.fst) name

/-- What the upstream gets for `received` reads as an unspoofed head. -/
def ForwardsUnspoofed (g : HeadGrammar) (headers : HashMap Str Str) (clientIp : Str)
    (received upstream : List (UInt8 × Origin)) : Prop :=
  ∃ head sent, readHead .marked g (linesOf .marked received) = some head ∧
    readHead .marked g (linesOf .marked upstream) = some sent ∧
      Unspoofed (headers.keys.map bytes) (xffText clientIp) head sent

/-- The lines that the program adds. -/
def ownBlock (headers : HashMap Str Str) : Bytes := (sortedHeaders headers).flatMap headerLine

/-- The first CRLFCRLF read is the end of the head, the request line is not taken for a line to
strip, and the lines of the program, up to an empty line in them, read as fields with the line for
the client's address. -/
structure EndsAtCrlf (g : HeadGrammar) (headers : HashMap Str Str) (clientIp : Str)
    (data : Bytes) : Prop where
  headEnd : ∀ head, readHead .plain g (linesOf .plain data) = some head →
    (findWindow crlfCrlf data).map (· + 4) = some (data.length - head.rest.flatten.length)
  request : ∀ head, readHead .plain g (linesOf .plain data) = some head →
    ∀ name ∈ headers.keys.map bytes, startsWithName head.request name = false
  own : ∃ r, readFields .plain g (linesOf .plain (ownBlock headers ++ crlf)) = some r ∧
    xffText clientIp ∈ r.1

/-! ### Names -/

theorem FieldNamed.startsWithName {text name : Bytes} (h : FieldNamed text name) :
    startsWithName text name = true := by
  obtain ⟨n, hn, hname⟩ := h
  unfold fieldName at hn
  split_ifs at hn with hcolon
  · obtain rfl : text.takeWhile (· ≠ colon) = n := by simpa using hn
    have hsplit := List.takeWhile_append_dropWhile (p := (· ≠ colon)) (l := text)
    have hdrop : text.dropWhile (· ≠ colon) ≠ [] := by
      rw [Ne, List.dropWhile_eq_nil_iff]
      exact fun hall => absurd rfl (of_decide_eq_true (hall colon hcolon))
    have hlen : (text.takeWhile (· ≠ colon)).length = name.length := by
      have hmap := congrArg List.length (of_decide_eq_true hname)
      simpa using hmap
    obtain ⟨b, rest, hrest⟩ := List.exists_cons_of_ne_nil hdrop
    obtain rfl : b = colon := by
      have hnot := List.head?_dropWhile_not (· ≠ colon) text
      rw [hrest] at hnot
      simpa using hnot
    unfold Scety.startsWithName
    rw [← hsplit, hrest, ← hlen, List.take_left, hname]
    simp
  · exact absurd hn (by simp)

/-! ### Blank lines -/

section Blank

variable {α : Type} {c : Carrier α} {g : HeadGrammar}

/-- Where an empty line stands relative to a head: it ends the head, it is skipped before the
request line, or it comes after the head. -/
theorem blank_cases {blanks fields back front back' : List (List α)} {line z z' : List α}
    (h : blanks ++ line :: (fields ++ z :: back) = front ++ z' :: back')
    (hline : ¬ IsBlank c line) (hfields : ∀ l ∈ fields, ¬ IsBlank c l) (hz' : IsBlank c z') :
    (front = blanks ++ line :: fields ∧ z = z' ∧ back = back') ∨
      (∃ t, blanks = front ++ z' :: t) ∨ ∃ t, front = blanks ++ line :: (fields ++ z :: t) := by
  have hbody : ∀ l ∈ line :: fields, ¬ IsBlank c l := List.forall_mem_cons.mpr ⟨hline, hfields⟩
  have h' : (blanks ++ line :: fields) ++ z :: back = front ++ z' :: back' := by
    rw [List.append_assoc]
    exact h
  rcases List.append_eq_append_iff.mp h' with ⟨t, rfl, ht⟩ | ⟨t, hfront, ht⟩
  · cases t with
    | nil =>
      obtain ⟨rfl, rfl⟩ := List.cons.inj ht
      exact Or.inl ⟨by simp, rfl, rfl⟩
    | cons l t =>
      obtain ⟨rfl, -⟩ := List.cons.inj ht
      exact Or.inr (Or.inr ⟨t, by simp⟩)
  · cases t with
    | nil =>
      obtain ⟨rfl, rfl⟩ := List.cons.inj ht
      exact Or.inl ⟨by simpa using hfront.symm, rfl, rfl⟩
    | cons l t =>
      obtain ⟨rfl, -⟩ := List.cons.inj ht
      right
      left
      rcases List.append_eq_append_iff.mp hfront with ⟨s, rfl, hs⟩ | ⟨s, rfl, hs⟩
      · exact absurd hz' (hbody z' (by simp [hs]))
      · cases s with
        | nil =>
          obtain ⟨rfl, -⟩ := List.cons.inj hs
          exact absurd hz' hline
        | cons l s =>
          obtain ⟨rfl, -⟩ := List.cons.inj hs
          exact ⟨s, rfl⟩

end Blank

/-! ### Who wrote what -/

/-- The client wrote all of it. -/
def IsClients (l : List (UInt8 × Origin)) : Prop := ∀ b ∈ l, b.2 = .client

/-- The program wrote all of it. -/
def IsOwn (l : List (UInt8 × Origin)) : Prop := ∀ b ∈ l, b.2 = .scety

theorem IsClients.not_isOwn {l : List (UInt8 × Origin)} (h : IsClients l) (h0 : l ≠ []) :
    ¬ IsOwn l := by
  obtain ⟨b, l, rfl⟩ := List.exists_cons_of_ne_nil h0
  intro hown
  have hb := (h b List.mem_cons_self).symm.trans (hown b List.mem_cons_self)
  exact absurd hb (by decide)

theorem isClients_clientBytes (data : Bytes) : IsClients (clientBytes data) := by
  intro b hb
  obtain ⟨a, -, rfl⟩ := List.mem_map.mp hb
  rfl

theorem isOwn_ownBytes (data : Bytes) : IsOwn (ownBytes data) := by
  intro b hb
  obtain ⟨a, -, rfl⟩ := List.mem_map.mp hb
  rfl

/-- Bytes of the program are determined by what they carry. -/
theorem IsOwn.eq {l : List (UInt8 × Origin)} (h : IsOwn l) :
    l = ownBytes (l.map Carrier.marked.val) := by
  unfold ownBytes
  rw [List.map_map]
  refine ((List.map_congr_left ?_).trans (List.map_id l)).symm
  intro b hb
  exact Prod.ext rfl (h b hb).symm

@[simp] theorem map_val_clientBytes (data : Bytes) :
    (clientBytes data).map Carrier.marked.val = data := by
  unfold clientBytes
  rw [List.map_map]
  exact List.map_id _

/-- What is written is the erasure of what the marked functions make of the client's bytes. -/
theorem finalBuf_plain_eq (headers : HashMap Str Str) (data : Bytes) :
    finalBuf .plain headers data =
      (finalBuf .marked headers (clientBytes data)).map Carrier.marked.val := by
  rw [← finalBuf_map_val, map_val_clientBytes]

@[simp] theorem map_val_ownBytes (data : Bytes) :
    (ownBytes data).map Carrier.marked.val = data := map_val_own _ data

/-- The lines of a text, and their texts, consist of bytes of the text. -/
theorem mem_of_mem_linesOf {α : Type} {c : Carrier α} {text line : List α}
    (h : line ∈ linesOf c text) {b : α} (hb : b ∈ line) : b ∈ text := by
  have hflat := flatten_splitInclusive (fun a => decide (c.val a = lf)) text
  rw [← hflat]
  exact List.mem_flatten.mpr ⟨line, h, hb⟩

theorem mem_of_lineContent {α : Type} {c : Carrier α} {line text : List α}
    (h : lineContent c line = some text) {b : α} (hb : b ∈ text) : b ∈ line := by
  obtain ⟨t, rfl, -⟩ := exists_of_lineContent h
  exact List.mem_append_left _ hb

/-! ### The lines sent -/

/-- The line is not stripped. -/
def keeps (names : List Bytes) (line : List (UInt8 × Origin)) : Bool :=
  !isNamedLineOf names (line.map Carrier.marked.val)

theorem keeps_eq {names : List Bytes} {line text : List (UInt8 × Origin)}
    (h : lineContent .marked line = some text) :
    keeps names line = !names.any (startsWithName (text.map Carrier.marked.val)) := by
  unfold keeps isNamedLineOf
  congr 2
  funext name
  exact isNamedLine_of_lineContent h name

theorem keeps_iff {names : List Bytes} {line text : List (UInt8 × Origin)}
    (h : lineContent .marked line = some text) :
    keeps names line = true ↔
      ∀ name ∈ names, startsWithName (text.map Carrier.marked.val) name = false := by
  rw [keeps_eq h, Bool.not_eq_true', List.any_eq_false]
  simp only [Bool.not_eq_true]

theorem keeps_of_isBlank {names : List Bytes} {line : List (UInt8 × Origin)}
    (h : IsBlank .marked line) : keeps names line = true := by
  rw [keeps_iff h]
  intro name _
  simp [startsWithName]

/-- Every added line ends with CRLF. -/
theorem terminated_ownBlock (headers : HashMap Str Str) :
    Terminated (fun a => decide (Carrier.marked.val a = lf)) (ownBytes (ownBlock headers)) := by
  unfold ownBlock
  rcases List.eq_nil_or_concat (sortedHeaders headers) with hnil | ⟨init, last, hlast⟩
  · rw [hnil]
    exact fun a ha => absurd ha (by simp [ownBytes])
  · intro a ha
    rw [hlast, List.concat_eq_append, List.flatMap_append] at ha
    simp [ownBytes, headerLine, crlf] at ha
    rw [← ha]
    rfl

theorem terminated_clientBytes_crlf (u : Bytes) :
    Terminated (fun a => decide (Carrier.marked.val a = lf)) (clientBytes (u ++ crlf)) := by
  intro a ha
  simp [clientBytes, crlf] at ha
  rw [← ha]
  rfl

theorem isLine_clientBytes_crlf :
    IsLine (fun a => decide (Carrier.marked.val a = lf)) (clientBytes crlf) := by
  refine ⟨[(cr, .client)], (lf, .client), rfl, rfl, ?_⟩
  intro b hb
  obtain rfl := List.mem_singleton.mp hb
  rfl

/-- What is sent, in terms of what stands before and after the first CRLFCRLF. -/
theorem finalBuf_clientBytes (headers : HashMap Str Str) {u back : Bytes}
    (h : findWindow crlfCrlf (u ++ crlfCrlf ++ back) = some u.length) :
    finalBuf .marked headers (clientBytes (u ++ crlfCrlf ++ back)) =
      ((linesOf .marked (clientBytes (u ++ crlf))).filter
        (keeps (headers.keys.map bytes))).flatten ++ ownBytes (ownBlock headers) ++
          (clientBytes crlf ++ clientBytes back) := by
  have hhead : (clientBytes (u ++ crlfCrlf ++ back)).take (u.length + 2) =
      clientBytes (u ++ crlf) := by
    simp [clientBytes, crlfCrlf, crlf, List.take_append]
  have hrest : (clientBytes (u ++ crlfCrlf ++ back)).drop (u.length + 2) =
      clientBytes crlf ++ clientBytes back := by
    simp [clientBytes, crlfCrlf, crlf, List.drop_append]
  unfold finalBuf
  rw [map_val_clientBytes, h]
  show rewriteHead _ _ _ _ _ = _
  unfold rewriteHead
  rw [hhead, hrest]
  rfl

/-- The lines read and the lines sent, around the first CRLFCRLF. -/
theorem lines_around_crlfCrlf (headers : HashMap Str Str) {data : Bytes} {pos : ℕ}
    (h : findWindow crlfCrlf data = some pos) :
    ∃ front back, front.flatten.length = pos + 2 ∧ data.length = pos + 4 + back.length ∧
      (∀ l ∈ front, IsClients l) ∧
      linesOf .marked (clientBytes data) =
        front ++ clientBytes crlf :: linesOf .marked (clientBytes back) ∧
      ∀ more, linesOf .marked (finalBuf .marked headers (clientBytes data) ++ clientBytes more) =
        front.filter (keeps (headers.keys.map bytes)) ++
          linesOf .marked (ownBytes (ownBlock headers)) ++
            clientBytes crlf :: linesOf .marked (clientBytes (back ++ more)) := by
  obtain ⟨u, back, rfl, rfl⟩ := findWindow_eq_some h
  have hend := terminated_clientBytes_crlf u
  refine ⟨linesOf .marked (clientBytes (u ++ crlf)), back, ?_, ?_, ?_, ?_, ?_⟩
  · unfold linesOf
    rw [flatten_splitInclusive]
    simp [clientBytes, crlf]
  · simp [crlfCrlf, crlf]
    omega
  · intro l hl b hb
    exact isClients_clientBytes _ b (mem_of_mem_linesOf hl hb)
  · have hsplit : clientBytes (u ++ crlfCrlf ++ back) =
        clientBytes (u ++ crlf) ++ (clientBytes crlf ++ clientBytes back) := by
      simp [clientBytes, crlfCrlf, crlf]
    unfold linesOf
    rw [hsplit, splitInclusive_append hend, splitInclusive_append_of_isLine isLine_clientBytes_crlf]
  · intro more
    have hlines : ∀ l ∈ (linesOf .marked (clientBytes (u ++ crlf))).filter
        (keeps (headers.keys.map bytes)), IsLine (fun a => decide (Carrier.marked.val a = lf)) l :=
      fun l hl => isLine_of_mem hend (List.mem_of_mem_filter hl)
    have happend : clientBytes (back ++ more) = clientBytes back ++ clientBytes more :=
      List.map_append
    rw [finalBuf_clientBytes headers h, happend]
    simp only [List.append_assoc]
    unfold linesOf at hlines ⊢
    rw [splitInclusive_flatten_append hlines, splitInclusive_append (terminated_ownBlock headers),
      splitInclusive_append_of_isLine isLine_clientBytes_crlf]

/-! ### The added lines -/

section OwnBlock

variable {headers : HashMap Str Str}

theorem isOwn_of_mem_ownBlock {l : List (UInt8 × Origin)}
    (h : l ∈ linesOf .marked (ownBytes (ownBlock headers))) : IsOwn l :=
  fun b hb => isOwn_ownBytes _ b (mem_of_mem_linesOf h hb)

/-- A line with a colon is not blank. -/
theorem not_isBlank_of_colon {l : List (UInt8 × Origin)} (h : colon ∈ l.map Carrier.marked.val) :
    ¬ IsBlank .marked l := by
  intro hblank
  obtain ⟨t, rfl, ht⟩ := exists_of_lineContent hblank
  rcases ht with ht | ⟨ht, -⟩ <;> rw [ht] at h <;> exact absurd h (by decide)

/-- Some added line is not blank. -/
theorem exists_not_isBlank (h : sortedHeaders headers ≠ []) :
    ∃ l ∈ linesOf .marked (ownBytes (ownBlock headers)), ¬ IsBlank .marked l := by
  obtain ⟨header, rest, hcons⟩ := List.exists_cons_of_ne_nil h
  have hcolon : colon ∈ ownBlock headers := by
    unfold ownBlock
    rw [hcons, List.flatMap_cons]
    refine List.mem_append_left _ (List.mem_append_left _ ?_)
    unfold bytes
    rw [List.flatMap_append, List.flatMap_append]
    exact List.mem_append_left _ (List.mem_append_right _ (by decide))
  have hmem : (colon, Origin.scety) ∈ ownBytes (ownBlock headers) :=
    List.mem_map.mpr ⟨colon, hcolon, rfl⟩
  rw [← flatten_splitInclusive (fun a => decide (Carrier.marked.val a = lf))
    (ownBytes (ownBlock headers))] at hmem
  obtain ⟨l, hl, hb⟩ := List.mem_flatten.mp hmem
  exact ⟨l, hl, not_isBlank_of_colon (List.mem_map.mpr ⟨_, hb, rfl⟩)⟩

/-- The fields read from the added lines are the program's. -/
theorem isOwn_of_mem_fields {g : HeadGrammar} {z : List (UInt8 × Origin)} (hz : IsBlank .marked z)
    {fields rest : List (List (UInt8 × Origin))}
    (h : readFields .marked g (linesOf .marked (ownBytes (ownBlock headers)) ++ [z]) =
      some (fields, rest)) : ∀ f ∈ fields, IsOwn f := by
  obtain ⟨fs, z', heq, -, hfs, rfl⟩ := readFields_eq_some h
  intro f hf
  obtain ⟨l, hl, rfl⟩ := List.mem_map.mp hf
  have hmem : l ∈ linesOf .marked (ownBytes (ownBlock headers)) ++ [z] := by
    rw [heq]
    exact List.mem_append_left _ hl
  obtain ⟨text, htext, -⟩ := hfs l hl
  rw [textOf_eq htext]
  rcases List.mem_append.mp hmem with hown | hlast
  · exact fun b hb => isOwn_of_mem_ownBlock hown b (mem_of_lineContent htext hb)
  · obtain rfl := List.mem_singleton.mp hlast
    exact absurd hz (hfs l hl).not_isBlank

/-- The program's line is among the fields read if its text is. -/
theorem ownBytes_mem_iff {fields : List (List (UInt8 × Origin))} (h : ∀ f ∈ fields, IsOwn f)
    (text : Bytes) :
    ownBytes text ∈ fields ↔ text ∈ fields.map (List.map Carrier.marked.val) := by
  refine ⟨fun hmem => List.mem_map.mpr ⟨_, hmem, map_val_ownBytes text⟩, ?_⟩
  intro hmem
  obtain ⟨f, hf, rfl⟩ := List.mem_map.mp hmem
  rwa [← (h f hf).eq]

end OwnBlock

/-! ### The head that is sent -/

section Sent

variable {g : HeadGrammar} {headers : HashMap Str Str} {head : Head (UInt8 × Origin)}
  {blanks fields front : List (List (UInt8 × Origin))} {line z : List (UInt8 × Origin)}

/-- If the request line is stripped, or nothing but empty lines stands before the added lines, the
request line sent is not that of the client. -/
theorem request_ne (h : HeadLines .marked g head blanks line fields z)
    (hclient : IsClients head.request) (hheaders : sortedHeaders headers ≠ [])
    (hfront : keeps (headers.keys.map bytes) line = false ∨ ∀ l ∈ front, IsBlank .marked l)
    {back : List (List (UInt8 × Origin))} {sent : Head (UInt8 × Origin)}
    (hsent : readHead .marked g (front.filter (keeps (headers.keys.map bytes)) ++
      linesOf .marked (ownBytes (ownBlock headers)) ++ back) = some sent) :
    sent.request ≠ head.request := by
  intro heq
  obtain ⟨l₀, hl₀, hnot⟩ := exists_not_isBlank hheaders
  obtain ⟨l, hl, hcontent⟩ := request_mem hsent ⟨l₀, List.mem_append_right _ hl₀, hnot⟩
  rw [heq] at hcontent
  rcases List.mem_append.mp hl with hkept | hown
  · obtain ⟨hmem, hkeeps⟩ := List.mem_filter.mp hkept
    rcases hfront with hstrip | hblank
    · rw [keeps_eq hcontent, ← keeps_eq h.content, hstrip] at hkeeps
      exact absurd hkeeps (by decide)
    · exact not_isBlank_of_text hcontent h.request_ne (hblank l hmem)
  · refine hclient.not_isOwn h.request_ne ?_
    intro b hb
    exact isOwn_of_mem_ownBlock hown b (mem_of_lineContent hcontent hb)

/-- Fields of the client do not contain the program's line. -/
theorem ownBytes_notMem (hfields : ∀ l ∈ fields, IsField .marked g l)
    (hclient : ∀ l ∈ fields, IsClients l) (text : Bytes) :
    ownBytes text ∉ fields.map (textOf .marked) := by
  intro hmem
  obtain ⟨l, hl, hl'⟩ := List.mem_map.mp hmem
  obtain ⟨t, htext, h0, -⟩ := hfields l hl
  rw [textOf_eq htext] at hl'
  have hown : IsOwn t := by
    rw [hl']
    exact isOwn_ownBytes text
  exact IsClients.not_isOwn (fun b hb => hclient l hl b (mem_of_lineContent htext hb)) h0 hown

end Sent

/-- The fields of the client that are sent. -/
def keptFields (names : List Bytes) (fields : List (List (UInt8 × Origin))) :
    List (List (UInt8 × Origin)) :=
  fields.filter fun f => !names.any (startsWithName (f.map Carrier.marked.val))

theorem keptFields_map_textOf {g : HeadGrammar} {names : List Bytes}
    {fields : List (List (UInt8 × Origin))} (h : ∀ l ∈ fields, IsField .marked g l) :
    keptFields names (fields.map (textOf .marked)) =
      (fields.filter (keeps names)).map (textOf .marked) := by
  unfold keptFields
  rw [List.filter_map]
  congr 1
  apply List.filter_congr
  intro l hl
  obtain ⟨text, htext, -⟩ := h l hl
  rw [keeps_eq htext, ← textOf_eq htext]
  rfl

/-- They have none of the names. -/
theorem not_fieldNamed_of_mem_keptFields {names : List Bytes}
    {fields : List (List (UInt8 × Origin))} {f : List (UInt8 × Origin)}
    (h : f ∈ keptFields names fields) :
    ∀ name ∈ names, ¬ FieldNamed (f.map Prod.fst) name := by
  intro name hname hnamed
  have hno := (List.mem_filter.mp h).2
  rw [Bool.not_eq_true', List.any_eq_false] at hno
  exact hno name hname hnamed.startsWithName

/-- The head that is sent if the program's lines stand at its end: `own` are the fields and lines
that are read from them. -/
def sentHead (names : List Bytes) (head : Head (UInt8 × Origin))
    (own : List (List (UInt8 × Origin)) × List (List (UInt8 × Origin))) (more : Bytes) :
    Head (UInt8 × Origin) :=
  ⟨head.request, keptFields names head.fields ++ own.1,
    own.2 ++ linesOf .marked (head.rest.flatten ++ clientBytes more)⟩

/-- What is read from the program's lines with the empty line that ends the head. -/
def ownFields (g : HeadGrammar) (headers : HashMap Str Str) :
    Option (List (List (UInt8 × Origin)) × List (List (UInt8 × Origin))) :=
  readFields .marked g (linesOf .marked (ownBytes (ownBlock headers)) ++ [clientBytes crlf])

/-- The head that is read upstream stands in the relation `Q` to that of the client. -/
def Forwards (g : HeadGrammar) (Q : Head (UInt8 × Origin) → Head (UInt8 × Origin) → Prop)
    (received upstream : List (UInt8 × Origin)) : Prop :=
  ∃ head sent, readHead .marked g (linesOf .marked received) = some head ∧
    readHead .marked g (linesOf .marked upstream) = some sent ∧ Q head sent

/-- The relation keeps the request line and asks for a field of the program. -/
structure Anchored (Q : Head (UInt8 × Origin) → Head (UInt8 × Origin) → Prop) : Prop where
  request : ∀ {head sent}, Q head sent → sent.request = head.request
  own : ∀ {head sent}, Q head sent → ∃ text, ownBytes text ∈ sent.fields

/-! ### The three places of the first CRLFCRLF -/

section Cases

variable {g : HeadGrammar} {headers : HashMap Str Str} {data more : Bytes}
  {head : Head (UInt8 × Origin)} {blanks fields : List (List (UInt8 × Origin))}
  {line z : List (UInt8 × Origin)} {Q : Head (UInt8 × Origin) → Head (UInt8 × Origin) → Prop}

/-- What is read upstream is compared with the head of the client. -/
theorem forwards_iff {received upstream : List (UInt8 × Origin)}
    (hhead : readHead .marked g (linesOf .marked received) = some head) :
    Forwards g Q received upstream ↔
      ∃ sent, readHead .marked g (linesOf .marked upstream) = some sent ∧ Q head sent := by
  refine ⟨?_, ?_⟩
  · rintro ⟨head', sent, hhead', hsent, h⟩
    obtain rfl := Option.some.inj (hhead'.symm.trans hhead)
    exact ⟨sent, hsent, h⟩
  · rintro ⟨sent, hsent, h⟩
    exact ⟨head, sent, hhead, hsent, h⟩

/-- If only fields of the client follow the request line, the program's fields are missing. -/
theorem not_forwards_of_fields (hQ : Anchored Q) {received upstream : List (UInt8 × Origin)}
    (hhead : readHead .marked g (linesOf .marked received) = some head)
    (hlines : HeadLines .marked g head blanks line fields z)
    {fs tail : List (List (UInt8 × Origin))} (hfs : ∀ l ∈ fs, IsField .marked g l)
    (hclient : ∀ l ∈ fs, IsClients l)
    (heq : linesOf .marked upstream = blanks ++ line :: (fs ++ z :: tail)) :
    ¬ Forwards g Q received upstream := by
  rw [forwards_iff hhead, heq, hlines.readHead_fields hfs]
  rintro ⟨sent, hsent, hun⟩
  obtain rfl := Option.some.inj hsent
  obtain ⟨text, htext⟩ := hQ.own hun
  exact ownBytes_notMem hfs hclient text htext

/-- If the first CRLFCRLF comes before the request line, the head sent starts with an added line. -/
theorem not_forwards_of_early (hQ : Anchored Q) {received upstream : List (UInt8 × Origin)}
    (hhead : readHead .marked g (linesOf .marked received) = some head)
    (hlines : HeadLines .marked g head blanks line fields z) (hclient : IsClients line)
    (hheaders : sortedHeaders headers ≠ []) {front back : List (List (UInt8 × Origin))}
    (hfront : ∀ l ∈ front, IsBlank .marked l)
    (hsent : linesOf .marked upstream = front.filter (keeps (headers.keys.map bytes)) ++
      linesOf .marked (ownBytes (ownBlock headers)) ++ back) :
    ¬ Forwards g Q received upstream := by
  rw [forwards_iff hhead, hsent]
  rintro ⟨sent, hread, hun⟩
  have hrequest : IsClients head.request := fun b hb =>
    hclient b (mem_of_lineContent hlines.content hb)
  exact absurd (hQ.request hun) (request_ne hlines hrequest hheaders (Or.inr hfront) hread)

/-- If the first CRLFCRLF comes after the head, the lines are added behind the head. -/
theorem not_forwards_of_late (hQ : Anchored Q) {received upstream : List (UInt8 × Origin)}
    (hhead : readHead .marked g (linesOf .marked received) = some head)
    (hlines : HeadLines .marked g head blanks line fields z)
    {t back : List (List (UInt8 × Origin))}
    (hclient : ∀ l ∈ blanks ++ line :: (fields ++ z :: t), IsClients l)
    (hheaders : sortedHeaders headers ≠ [])
    (hsent : linesOf .marked upstream =
      (blanks ++ line :: (fields ++ z :: t)).filter (keeps (headers.keys.map bytes)) ++
        linesOf .marked (ownBytes (ownBlock headers)) ++ back) :
    ¬ Forwards g Q received upstream := by
  cases hkeeps : keeps (headers.keys.map bytes) line with
  | false =>
    rw [forwards_iff hhead, hsent]
    rintro ⟨sent, hread, hun⟩
    have hrequest : IsClients head.request := fun b hb =>
      hclient line (by simp) b (mem_of_lineContent hlines.content hb)
    exact absurd (hQ.request hun) (request_ne hlines hrequest hheaders (Or.inl hkeeps) hread)
  | true =>
    have hblanks : blanks.filter (keeps (headers.keys.map bytes)) = blanks :=
      List.filter_eq_self.mpr fun l hl => keeps_of_isBlank (hlines.isBlank l hl)
    rw [List.filter_append, List.filter_cons_of_pos hkeeps, List.filter_append,
      List.filter_cons_of_pos (keeps_of_isBlank hlines.isBlank_last), hblanks] at hsent
    simp only [List.append_assoc, List.cons_append] at hsent
    refine not_forwards_of_fields hQ hhead hlines
      (fun l hl => hlines.isField l (List.mem_of_mem_filter hl)) (fun l hl => hclient l ?_) hsent
    simp [List.mem_of_mem_filter hl]

/-- At the end of the head the added lines follow the fields that are kept. -/
theorem forwards_of_headEnd (hQ : Anchored Q) {received upstream : List (UInt8 × Origin)}
    (hhead : readHead .marked g (linesOf .marked received) = some head)
    (hlines : HeadLines .marked g head blanks line fields (clientBytes crlf))
    (hclient : ∀ l ∈ blanks ++ line :: fields, IsClients l) (hheaders : sortedHeaders headers ≠ [])
    (hsent : linesOf .marked upstream =
      (blanks ++ line :: fields).filter (keeps (headers.keys.map bytes)) ++
        linesOf .marked (ownBytes (ownBlock headers)) ++ clientBytes crlf ::
          linesOf .marked (head.rest.flatten ++ clientBytes more)) :
    Forwards g Q received upstream ↔
      keeps (headers.keys.map bytes) line = true ∧ ∃ own, ownFields g headers = some own ∧
        Q head (sentHead (headers.keys.map bytes) head own more) := by
  rw [forwards_iff hhead]
  cases hkeeps : keeps (headers.keys.map bytes) line with
  | false =>
    refine ⟨?_, fun h => absurd h.1 (by decide)⟩
    rintro ⟨sent, hread, hun⟩
    rw [hsent] at hread
    have hrequest : IsClients head.request := fun b hb =>
      hclient line (by simp) b (mem_of_lineContent hlines.content hb)
    exact absurd (hQ.request hun) (request_ne hlines hrequest hheaders (Or.inl hkeeps) hread)
  | true =>
    have hfilter : (blanks ++ line :: fields).filter (keeps (headers.keys.map bytes)) =
        blanks ++ line :: fields.filter (keeps (headers.keys.map bytes)) := by
      rw [List.filter_append, List.filter_cons_of_pos hkeeps,
        List.filter_eq_self.mpr fun l hl => keeps_of_isBlank (hlines.isBlank l hl)]
    have hfields : ∀ l ∈ fields.filter (keeps (headers.keys.map bytes)), IsField .marked g l :=
      fun l hl => hlines.isField l (List.mem_of_mem_filter hl)
    have hread : readHead .marked g (linesOf .marked upstream) = (ownFields g headers).map
        fun own => sentHead (headers.keys.map bytes) head own more := by
      rw [hsent, hfilter, List.append_assoc, List.append_assoc, List.cons_append, hlines.readHead_eq,
        readFields_append hfields, readFields_append_blank hlines.isBlank_last, Option.map_map,
        Option.map_map, ← keptFields_map_textOf hlines.isField, ← hlines.fields_eq]
      rfl
    rw [hread]
    simp only [Option.map_eq_some_iff, true_and, exists_exists_and_eq_and]

theorem length_flatten_linesOf_clientBytes (data : Bytes) :
    (linesOf .marked (clientBytes data)).flatten.length = data.length := by
  unfold linesOf
  rw [flatten_splitInclusive]
  exact List.length_map _

/-- **The three places**: the upstream reads a head in the relation `Q` exactly if the first
CRLFCRLF is the end of the client's head, its request line is not stripped, and the head with the
program's fields stands in the relation. -/
theorem forwards_clientBytes_iff (hQ : Anchored Q)
    (hhead : readHead .marked g (linesOf .marked (clientBytes data)) = some head)
    (hheaders : sortedHeaders headers ≠ []) (more : Bytes) :
    Forwards g Q (clientBytes data)
        (finalBuf .marked headers (clientBytes data) ++ clientBytes more) ↔
      ((findWindow crlfCrlf data).map (· + 4) = some (data.length - head.rest.flatten.length) ∧
        ∀ name ∈ headers.keys.map bytes,
          startsWithName (head.request.map Carrier.marked.val) name = false) ∧
        ∃ own, ownFields g headers = some own ∧
          Q head (sentHead (headers.keys.map bytes) head own more) := by
  obtain ⟨blanks, line, fields, z, heq, hlines⟩ := exists_headLines hhead
  have hclient : ∀ l ∈ linesOf .marked (clientBytes data), IsClients l :=
    fun l hl b hb => isClients_clientBytes _ b (mem_of_mem_linesOf hl hb)
  rw [← keeps_iff hlines.content]
  cases hpos : findWindow crlfCrlf data with
  | none =>
    have hfinal : finalBuf .marked headers (clientBytes data) = clientBytes data := by
      unfold finalBuf
      rw [map_val_clientBytes, hpos]
    have hsent := hlines.linesOf_append heq (clientBytes more)
    rw [← hfinal] at hsent
    refine iff_of_false (not_forwards_of_fields hQ hhead hlines hlines.isField
      (fun l hl => hclient l ?_) hsent) fun h => absurd h.1.1 (by simp)
    rw [heq]
    simp [hl]
  | some pos =>
    obtain ⟨front, back, hfront, hlen, hfrontClient, hdata, hsent⟩ :=
      lines_around_crlfCrlf headers hpos
    have hblank : IsBlank .marked (clientBytes crlf) := rfl
    have htotal := length_flatten_linesOf_clientBytes data
    rw [heq] at htotal
    have hline := hlines.line_pos
    rcases blank_cases (heq.symm.trans hdata) hlines.not_isBlank
      (fun l hl => (hlines.isField l hl).not_isBlank) hblank with
      ⟨rfl, rfl, hrest⟩ | ⟨t, rfl⟩ | ⟨t, rfl⟩
    · have hback : head.rest.flatten = clientBytes back := by
        rw [hrest]
        exact flatten_splitInclusive _ _
      have hrestLen : head.rest.flatten.length = back.length := by
        rw [hback]
        exact List.length_map _
      have hmore : clientBytes (back ++ more) = head.rest.flatten ++ clientBytes more := by
        rw [hback]
        exact List.map_append
      have hsent' := hsent more
      rw [hmore] at hsent'
      rw [forwards_of_headEnd hQ hhead hlines hfrontClient hheaders hsent', hrestLen,
        Option.map_some, hlen, Nat.add_sub_cancel]
      simp
    · have hne : pos + 4 ≠ data.length - head.rest.flatten.length := by
        simp only [List.flatten_append, List.flatten_cons, List.length_append] at htotal
        simp only [clientBytes, List.length_map] at htotal
        simp only [crlf, List.length_cons, List.length_nil] at htotal
        omega
      refine iff_of_false ?_ fun h => hne (Option.some.inj h.1.1)
      exact not_forwards_of_early hQ hhead hlines (hclient line (by simp [heq])) hheaders
        (fun l hl => hlines.isBlank l (List.mem_append_left _ hl)) (hsent more)
    · have hne : pos + 4 ≠ data.length - head.rest.flatten.length := by
        simp only [List.flatten_append, List.flatten_cons, List.length_append] at htotal hfront
        omega
      refine iff_of_false ?_ fun h => hne (Option.some.inj h.1.1)
      exact not_forwards_of_late hQ hhead hlines hfrontClient hheaders (hsent more)

/-- The fields read from the head of a client are the client's. -/
theorem isClients_fields
    (hhead : readHead .marked g (linesOf .marked (clientBytes data)) = some head) :
    ∀ f ∈ head.fields, IsClients f ∧ f ≠ [] := by
  obtain ⟨blanks, line, fields, z, heq, hlines⟩ := exists_headLines hhead
  intro f hf
  rw [hlines.fields_eq] at hf
  obtain ⟨l, hl, rfl⟩ := List.mem_map.mp hf
  obtain ⟨text, htext, h0, -⟩ := hlines.isField l hl
  rw [textOf_eq htext]
  have hmem : l ∈ linesOf .marked (clientBytes data) := by
    rw [heq]
    simp [hl]
  exact ⟨fun b hb => isClients_clientBytes _ b
    (mem_of_mem_linesOf hmem (mem_of_lineContent htext hb)), h0⟩

/-- A field of the program that is sent is read from its own lines. -/
theorem ownBytes_mem_sentHead_iff
    (hhead : readHead .marked g (linesOf .marked (clientBytes data)) = some head)
    {names : List Bytes} {own : List (List (UInt8 × Origin)) × List (List (UInt8 × Origin))}
    {text : Bytes} :
    ownBytes text ∈ (sentHead names head own more).fields ↔ ownBytes text ∈ own.1 := by
  refine ⟨?_, fun h => List.mem_append_right _ h⟩
  intro h
  refine (List.mem_append.mp h).resolve_left fun hkept => ?_
  obtain ⟨hclient, h0⟩ := isClients_fields hhead _ (List.mem_of_mem_filter hkept)
  exact hclient.not_isOwn h0 (isOwn_ownBytes text)

end Cases

/-! ### Unspoofed heads -/

section Unspoofed

variable {g : HeadGrammar} {headers : HashMap Str Str} {clientIp : Str} {data more : Bytes}
  {head : Head (UInt8 × Origin)}

theorem anchored_unspoofed (names : List Bytes) (xff : Bytes) : Anchored (Unspoofed names xff) :=
  ⟨fun h => h.request, fun h => ⟨xff, h.own⟩⟩

/-- A head that is read without the marks is read with them. -/
theorem exists_head_of_isSome (h : (readHead .plain g (linesOf .plain data)).isSome = true) :
    ∃ head, readHead .marked g (linesOf .marked (clientBytes data)) = some head := by
  have hlines := linesOf_map_val Carrier.marked (clientBytes data)
  rw [map_val_clientBytes] at hlines
  rw [hlines, readHead_map_val, Option.isSome_map] at h
  exact Option.isSome_iff_exists.mp h

/-- The head with the marks is the head without them. -/
theorem readHead_plain (hhead : readHead .marked g (linesOf .marked (clientBytes data)) = some head) :
    readHead .plain g (linesOf .plain data) =
      some ⟨head.request.map Carrier.marked.val, head.fields.map (List.map Carrier.marked.val),
        head.rest.map (List.map Carrier.marked.val)⟩ := by
  have hlines := linesOf_map_val Carrier.marked (clientBytes data)
  rw [map_val_clientBytes] at hlines
  rw [hlines, readHead_map_val, hhead]
  rfl

/-- The added lines with an empty line, without the marks. -/
theorem linesOf_ownBlock_crlf (headers : HashMap Str Str) :
    linesOf .plain (ownBlock headers ++ crlf) =
      (linesOf .marked (ownBytes (ownBlock headers)) ++ [clientBytes crlf]).map
        (List.map Carrier.marked.val) := by
  have hval : (ownBytes (ownBlock headers) ++ clientBytes crlf).map Carrier.marked.val =
      ownBlock headers ++ crlf := by
    rw [List.map_append, map_val_ownBytes, map_val_clientBytes]
  rw [← hval, linesOf_map_val]
  unfold linesOf
  rw [splitInclusive_append (terminated_ownBlock headers)]
  rfl

/-- Where the head ends and what its request line is, without the marks. -/
theorem forall_head_iff (hhead : readHead .marked g (linesOf .marked (clientBytes data)) = some head)
    (names : List Bytes) :
    (∀ h, readHead .plain g (linesOf .plain data) = some h →
      (findWindow crlfCrlf data).map (· + 4) = some (data.length - h.rest.flatten.length) ∧
        ∀ name ∈ names, startsWithName h.request name = false) ↔
      (findWindow crlfCrlf data).map (· + 4) = some (data.length - head.rest.flatten.length) ∧
        ∀ name ∈ names, startsWithName (head.request.map Carrier.marked.val) name = false := by
  have hlen : (head.rest.map (List.map Carrier.marked.val)).flatten.length =
      head.rest.flatten.length := by
    rw [← List.map_flatten, List.length_map]
  rw [readHead_plain hhead]
  refine ⟨?_, ?_⟩
  · intro h
    obtain ⟨hend, hreq⟩ := h _ rfl
    rw [hend, hlen]
    exact ⟨rfl, hreq⟩
  · rintro ⟨hend, hreq⟩ h hh
    obtain rfl := Option.some.inj hh
    rw [hend, hlen]
    exact ⟨rfl, hreq⟩

/-- What the condition says once the head is known. -/
theorem endsAtCrlf_iff (hhead : readHead .marked g (linesOf .marked (clientBytes data)) = some head) :
    EndsAtCrlf g headers clientIp data ↔
      ((findWindow crlfCrlf data).map (· + 4) = some (data.length - head.rest.flatten.length) ∧
        ∀ name ∈ headers.keys.map bytes,
          startsWithName (head.request.map Carrier.marked.val) name = false) ∧
        ∃ own, ownFields g headers = some own ∧
          xffText clientIp ∈ own.1.map (List.map Carrier.marked.val) := by
  have hown : (∃ r, readFields .plain g (linesOf .plain (ownBlock headers ++ crlf)) = some r ∧
      xffText clientIp ∈ r.1) ↔ ∃ own, ownFields g headers = some own ∧
        xffText clientIp ∈ own.1.map (List.map Carrier.marked.val) := by
    rw [linesOf_ownBlock_crlf, readFields_map_val]
    show (∃ r, (ownFields g headers).map _ = some r ∧ _) ↔ _
    simp only [Option.map_eq_some_iff, exists_exists_and_eq_and]
  rw [← forall_head_iff hhead, ← hown]
  refine ⟨?_, ?_⟩
  · intro h
    exact ⟨fun h' hh' => ⟨h.headEnd h' hh', h.request h' hh'⟩, h.own⟩
  · rintro ⟨hhead', hfields⟩
    exact ⟨fun h' hh' => (hhead' h' hh').1, fun h' hh' => (hhead' h' hh').2, hfields⟩

/-- The head sent is unspoofed if the program's line for the client's address is read. -/
theorem unspoofed_sentHead_iff
    (hhead : readHead .marked g (linesOf .marked (clientBytes data)) = some head)
    {own : List (List (UInt8 × Origin)) × List (List (UInt8 × Origin))}
    (hown : ownFields g headers = some own) :
    Unspoofed (headers.keys.map bytes) (xffText clientIp) head
        (sentHead (headers.keys.map bytes) head own more) ↔
      xffText clientIp ∈ own.1.map (List.map Carrier.marked.val) := by
  have hblank : IsBlank .marked (clientBytes crlf) := rfl
  have hisOwn : ∀ f ∈ own.1, IsOwn f := isOwn_of_mem_fields hblank hown
  rw [← ownBytes_mem_iff hisOwn]
  refine ⟨fun h => (ownBytes_mem_sentHead_iff hhead).mp h.own, ?_⟩
  intro hmem
  refine ⟨rfl, (ownBytes_mem_sentHead_iff hhead).mpr hmem, ?_⟩
  rintro f hf ⟨b, hb, hbc⟩
  rcases List.mem_append.mp hf with hkept | hadded
  · exact not_fieldNamed_of_mem_keptFields hkept
  · exact absurd (hbc.symm.trans (hisOwn f hadded b hb)) (by decide)

/-- **Unspoofed exactly at CRLF**, for the bytes read and whatever the client sends after them. -/
theorem forwardsUnspoofed_clientBytes_iff
    (hread : (readHead .plain g (linesOf .plain data)).isSome = true)
    (hheaders : sortedHeaders headers ≠ []) (more : Bytes) :
    ForwardsUnspoofed g headers clientIp (clientBytes data)
        (finalBuf .marked headers (clientBytes data) ++ clientBytes more) ↔
      EndsAtCrlf g headers clientIp data := by
  obtain ⟨head, hhead⟩ := exists_head_of_isSome hread
  have hforwards := forwards_clientBytes_iff
    (anchored_unspoofed (headers.keys.map bytes) (xffText clientIp)) hhead hheaders more
  rw [endsAtCrlf_iff hhead]
  refine Iff.trans hforwards (and_congr_right fun _ => ?_)
  exact exists_congr fun own => and_congr_right fun hown => unspoofed_sentHead_iff hhead hown

end Unspoofed

/-! ### Runs -/

theorem sortedHeaders_upstreamHeaders_ne_nil (cfg : ScetyConfig)
    (headersConfig : Option HeadersConfig) (clientIp : Str) :
    sortedHeaders (upstreamHeaders cfg headersConfig clientIp) ≠ [] := by
  intro hnil
  have hlen := congrArg List.length hnil
  unfold sortedHeaders upstreamHeaders at hlen
  rw [List.length_insertionSort, List.length_map, AList.entries_insert] at hlen
  exact absurd hlen (by simp)

/-- An accepted request has a head. -/
theorem isSome_readHead_of_accepted {ctx : Context} {g : HeadGrammar}
    (hparse : ∀ data headers, ctx.parse data = .complete headers →
      (readHead .plain g (linesOf .plain data)).isSome = true) {data : Bytes} {request : Request}
    (hacc : ctx.accepted data = some request) :
    (readHead .plain g (linesOf .plain data)).isSome = true := by
  unfold Context.accepted at hacc
  split at hacc
  · exact hparse _ _ (by assumption)
  · exact absurd hacc (by simp)
  · exact absurd hacc (by simp)

/-- **Spoofing `X-Forwarded-For`**: whenever a run writes a request to the upstream, what it writes
is the accepted request with the program's lines, and it reads as an unspoofed head if and only if
the first CRLFCRLF is the end of the head. -/
theorem xff_not_spoofed_iff {ctx : Context} {g : HeadGrammar}
    (hparse : ∀ data headers, ctx.parse data = .complete headers →
      (readHead .plain g (linesOf .plain data)).isSome = true)
    {tr : Trace} {r : Except Unit Unit} (h : Completes ctx.processRequestInner tr r)
    {data : Bytes} {res : Except Unit Unit}
    (hw : (⟨.writeUpstream data, res⟩ : Event Op Op.Answer) ∈ tr) :
    ∃ headersConfig,
      let headers := upstreamHeaders ctx.cfg headersConfig ctx.clientIp
      let received := clientBytes (delivered tr)
      (ctx.accepted (delivered tr)).map Request.headersConfig = some headersConfig ∧
        data = (finalBuf .marked headers received).map Prod.fst ∧
          ∀ more, ForwardsUnspoofed g headers ctx.clientIp received
            (finalBuf .marked headers received ++ clientBytes more) ↔
              EndsAtCrlf g headers ctx.clientIp (delivered tr) := by
  obtain ⟨request, hacc, rfl⟩ := exists_accepted_of_writeUpstream h hw
  refine ⟨request.headersConfig, ?_, ?_, ?_⟩
  · rw [hacc]
    rfl
  · exact finalBuf_plain_eq _ _
  · intro more
    exact forwardsUnspoofed_clientBytes_iff (isSome_readHead_of_accepted hparse hacc)
      (sortedHeaders_upstreamHeaders_ne_nil _ _ _) more

/-! ### Concrete runs -/

/-- `tchar`: the bytes of methods and field names. -/
def isTokenByte (b : UInt8) : Bool :=
  (48 ≤ b ∧ b ≤ 57) ∨ (65 ≤ b ∧ b ≤ 90) ∨ (97 ≤ b ∧ b ≤ 122) ∨ b ∈ bytes "!#$%&'*+-.^_`|~".toList

/-- A method, a target and a version; and a name, a colon and a value without control bytes. -/
def plainGrammar : HeadGrammar where
  requestOk text :=
    match text.splitOn 32 with
    | [method, target, version] =>
      decide (method ≠ []) && method.all isTokenByte && decide (target ≠ []) &&
        decide (version = bytes "HTTP/1.1".toList)
    | _ => false
  fieldOk text :=
    let name := text.takeWhile isTokenByte
    decide (name ≠ []) && decide (text[name.length]? = some colon) &&
      (text.drop (name.length + 1)).all fun b => b = 9 ∨ (32 ≤ b ∧ b ≠ 127)

def proxiedService : ClientConfig :=
  ⟨"proxy".toList, some "a".toList, none, some 80, none, some ⟨some 3000, none, none⟩, ∅, none, ∅,
    none⟩

def spoofingHeaders : List Header :=
  [⟨"Host".toList, bytes "a".toList⟩, ⟨xffName, bytes "6.6.6.6".toList⟩]

/-- The same head with lines that end with CRLF and with LF. -/
def crlfRequest : Bytes :=
  bytes "GET / HTTP/1.1\r\nHost: a\r\nX-Forwarded-For: 6.6.6.6\r\n\r\n".toList

def lfRequest : Bytes := bytes "GET / HTTP/1.1\nHost: a\nX-Forwarded-For: 6.6.6.6\n\n".toList

/-- `httparse` on these two heads. -/
def parseSpoofing (data : Bytes) : ParseResult :=
  if data = crlfRequest ∨ data = lfRequest then .complete spoofingHeaders else .incomplete

/-- A port with one service. -/
def proxyContext : Context :=
  ⟨plainSettings, "10.0.0.1:5000".toList, false,
    HostRouter.new.addPattern "a".toList 0, [proxiedService], parseSpoofing⟩

/-- The headers that this port sets. -/
def proxyHeaders : HashMap Str Str := upstreamHeaders proxyContext.cfg none proxyContext.clientIp

theorem parseSpoofing_readHead : ∀ data headers, proxyContext.parse data = .complete headers →
    (readHead .plain plainGrammar (linesOf .plain data)).isSome = true := by
  intro data headers h
  have hdata : data = crlfRequest ∨ data = lfRequest := by
    by_contra hno
    have hincomplete : proxyContext.parse data = .incomplete := if_neg hno
    exact absurd (hincomplete.symm.trans h) (by simp)
  rcases hdata with rfl | rfl
  · decide
  · decide

/-- A run that proxies one of the two requests. -/
def proxyEvents (data : Bytes) (h : data.length ≤ 4096) : Trace :=
  [⟨.readClient 4096, .ok ⟨data, h⟩⟩, ⟨.timerFires, false⟩, ⟨.connect 3000, .ok ()⟩,
    ⟨.writeUpstream (finalBuf .plain proxyHeaders data), .ok ()⟩,
    ⟨.copyBidirectional, ⟨[], [], .ok ()⟩⟩]

/-- The same port with global headers, and with headers of the service. -/
def headersContext (upstream response : HashMap Str Str) (service : Option HeadersConfig) :
    Context :=
  { proxyContext with
    cfg := { plainSettings with
      globalUpstreamHeaders := upstream
      globalResponseHeaders := response }
    configs := [{ proxiedService with headers := service }] }

/-- A run of a port without headers for the response that proxies one of the two requests. -/
theorem completes_headersContext (upstream : HashMap Str Str) (service : Option HeadersConfig)
    (hservice : service.bind (·.response) = none) (data : Bytes) (hlen : data.length ≤ 4096)
    (h0 : data ≠ []) (hparse : parseSpoofing data = .complete spoofingHeaders) :
    let ctx := headersContext upstream ∅ service
    Completes ctx.processRequestInner
      [⟨.readClient 4096, .ok ⟨data, hlen⟩⟩, ⟨.timerFires, false⟩, ⟨.connect 3000, .ok ()⟩,
        ⟨.writeUpstream (finalBuf .plain (upstreamHeaders ctx.cfg service ctx.clientIp) data),
          .ok ()⟩, ⟨.copyBidirectional, ⟨[], [], .ok ()⟩⟩] (.ok ()) := by
  intro ctx
  have hread : Completes ctx.readRequest [⟨.readClient 4096, .ok ⟨data, hlen⟩⟩]
      (.ok (some ⟨data, some 3000, service, false⟩)) :=
    @Context.completes_readRequest ctx ⟨data, hlen⟩ h0 _ hparse _ _
      (completes_pure_iff.mpr ⟨rfl, rfl⟩)
  have hconnect := completes_timeout_connect 30000000000 3000
  have hresponse : responseHeaders ctx.cfg service = [] := by
    unfold responseHeaders
    rw [hservice]
    rfl
  have hcopy : Completes (relayUpstreamResponse (responseHeaders ctx.cfg service) ctx.cfg.maxBuf)
      [⟨.copyBidirectional, ⟨[], [], .ok ()⟩⟩] (.ok ()) := by
    rw [hresponse]
    exact runs_map_iff.mpr ⟨⟨[], [], .ok ()⟩, rfl, runs_op_iff.mpr rfl⟩
  have hrelay := completes_timeoutIfSome_none hcopy
  have hproxy : Completes (ctx.proxyRequest ⟨data, some 3000, service, false⟩)
      [⟨.writeUpstream (finalBuf .plain (upstreamHeaders ctx.cfg service ctx.clientIp) data),
        .ok ()⟩, ⟨.copyBidirectional, ⟨[], [], .ok ()⟩⟩] (.ok ()) :=
    completes_bind_iff.mpr (Or.inr ⟨(), [_], [_], rfl, completes_writeUpstream.mpr rfl,
      completes_bind_iff.mpr (Or.inr ⟨_, [_], [], rfl, hrelay, completes_pure_iff.mpr ⟨rfl, rfl⟩⟩)⟩)
  have haccepted : Completes (ctx.acceptedRequest ⟨data, some 3000, service, false⟩)
      [⟨.timerFires, false⟩, ⟨.connect 3000, .ok ()⟩,
        ⟨.writeUpstream (finalBuf .plain (upstreamHeaders ctx.cfg service ctx.clientIp) data),
          .ok ()⟩, ⟨.copyBidirectional, ⟨[], [], .ok ()⟩⟩] (.ok ()) :=
    completes_bind_iff.mpr (Or.inr ⟨_, [_, _], [_, _], rfl, hconnect, hproxy⟩)
  exact completes_bind_iff.mpr
    (Or.inr ⟨_, [_], _, rfl, completes_timeoutIfSome_none hread, haccepted⟩)

theorem completes_proxyEvents (data : Bytes) (hlen : data.length ≤ 4096) (h0 : data ≠ [])
    (hparse : parseSpoofing data = .complete spoofingHeaders) :
    Completes proxyContext.processRequestInner (proxyEvents data hlen) (.ok ()) :=
  completes_headersContext ∅ none rfl data hlen h0 hparse

theorem endsAtCrlf_crlfRequest :
    EndsAtCrlf plainGrammar proxyHeaders proxyContext.clientIp crlfRequest := by
  have hhead : (readHead .plain plainGrammar (linesOf .plain crlfRequest)).map
      (fun h => (h.request, h.rest)) = some (bytes "GET / HTTP/1.1".toList, []) := by decide
  have hread : (readFields .plain plainGrammar
      (linesOf .plain (ownBlock proxyHeaders ++ crlf))).map Prod.fst =
        some [xffText proxyContext.clientIp] := by decide
  refine ⟨?_, ?_, ?_⟩
  · intro head h
    rw [h] at hhead
    rw [(Prod.mk.inj (Option.some.inj hhead)).2]
    decide
  · intro head h
    rw [h] at hhead
    rw [(Prod.mk.inj (Option.some.inj hhead)).1]
    decide
  · obtain ⟨r, hr, hfst⟩ := Option.map_eq_some_iff.mp hread
    exact ⟨r, hr, by rw [hfst]; exact List.mem_singleton.mpr rfl⟩

theorem xff_not_spoofed_iff_crlf :
    ForwardsUnspoofed plainGrammar proxyHeaders proxyContext.clientIp (clientBytes crlfRequest)
      (finalBuf .marked proxyHeaders (clientBytes crlfRequest)) := by
  obtain ⟨headersConfig, hacc, -, hiff⟩ := xff_not_spoofed_iff parseSpoofing_readHead
    (completes_proxyEvents crlfRequest (by decide) (by decide) rfl)
    (List.mem_cons_of_mem _ (List.mem_cons_of_mem _ (List.mem_cons_of_mem _ List.mem_cons_self)))
  obtain rfl : none = headersConfig := Option.some.inj hacc
  have h := (hiff []).mpr endsAtCrlf_crlfRequest
  rwa [show clientBytes [] = [] from rfl, List.append_nil] at h

/-- A client whose lines end with LF gets its `X-Forwarded-For` through. -/
theorem xff_spoofed :
    ¬ ∀ (ctx : Context) (g : HeadGrammar),
      (∀ data headers, ctx.parse data = .complete headers →
        (readHead .plain g (linesOf .plain data)).isSome = true) →
      ∀ (tr : Trace) (r : Except Unit Unit), Completes ctx.processRequestInner tr r →
      ∀ (data : Bytes) (res : Except Unit Unit),
        (⟨.writeUpstream data, res⟩ : Event Op Op.Answer) ∈ tr →
      ∀ headersConfig, (ctx.accepted (delivered tr)).map Request.headersConfig = some headersConfig →
        ForwardsUnspoofed g (upstreamHeaders ctx.cfg headersConfig ctx.clientIp) ctx.clientIp
          (clientBytes (delivered tr)) (finalBuf .marked
            (upstreamHeaders ctx.cfg headersConfig ctx.clientIp) (clientBytes (delivered tr))) := by
  intro hall
  have hforwards := hall proxyContext plainGrammar parseSpoofing_readHead _ _
    (completes_proxyEvents lfRequest (by decide) (by decide) rfl) _ _
    (List.mem_cons_of_mem _ (List.mem_cons_of_mem _ (List.mem_cons_of_mem _ List.mem_cons_self)))
    none rfl
  have hread : (readHead .plain plainGrammar (linesOf .plain lfRequest)).isSome = true := by decide
  have hheaders := sortedHeaders_upstreamHeaders_ne_nil proxyContext.cfg none proxyContext.clientIp
  have hiff : ForwardsUnspoofed plainGrammar proxyHeaders proxyContext.clientIp
      (clientBytes lfRequest) (finalBuf .marked proxyHeaders (clientBytes lfRequest) ++ []) ↔
        EndsAtCrlf plainGrammar proxyHeaders proxyContext.clientIp lfRequest :=
    forwardsUnspoofed_clientBytes_iff hread hheaders []
  rw [List.append_nil] at hiff
  have hends := hiff.mp hforwards
  obtain ⟨head, hhead⟩ := Option.isSome_iff_exists.mp hread
  have hnone : findWindow crlfCrlf lfRequest = none := by decide
  have hend := hends.headEnd head hhead
  rw [hnone] at hend
  exact absurd hend (by simp)

end Scety
