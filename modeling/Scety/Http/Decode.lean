import Scety.Http.Response
import Scety.Network.Headers
import Scety.Network.Message

/-!
# Generated responses are read back

A response is built by a sequence of calls and written as one text.  Its reader cuts it at the first
CRLFCRLF, the head into lines and the lines into fields.  Where the texts of a response have no line
end of their own, it finds what the calls put in, and the length that was fixed when the body was
added is the number of bytes that are left.
-/

namespace Scety

open Lines

/-! ### Building -/

/-- A call of the builder. -/
inductive ResponseCall where
  | withHeaders (extra : List (Str × Str))
  | withContent (contentType body : Str)

def ResponseCall.isContent : ResponseCall → Bool
  | withHeaders _ => false
  | withContent _ _ => true

/-- The entries that a call adds to the header list. -/
def ResponseCall.added : ResponseCall → List (Str × Str)
  | withHeaders extra => extra
  | withContent contentType body => [("Content-Type".toList, contentType),
      (contentLengthName, decimal (bytes body).length)]

namespace HttpResponse

def call (self : HttpResponse) : ResponseCall → HttpResponse
  | .withHeaders extra => self.withHeaders extra
  | .withContent contentType body => self.withContent contentType body

/-- `HttpResponse::new(..)` with the calls in their order. -/
def build (code : ℕ) (connection : Str) (exposeVersion : Bool) (calls : List ResponseCall) :
    HttpResponse :=
  calls.foldl call (new code connection exposeVersion)

end HttpResponse

/-! ### Reading -/

/-- What a reader finds in a response. -/
structure DecodedResponse where
  code : ℕ
  fields : List (Str × Str)
  body : Bytes
  deriving DecidableEq

/-- The number between the first two spaces. -/
def decodeStatus (line : Str) : Option ℕ :=
  ((line.splitOn ' ')[1]?).bind fun digits =>
    if digits ≠ [] ∧ ∀ c ∈ digits, c.isDigit then some (Nat.ofDigitChars 10 digits 0) else none

/-- The name before the first colon, and the value behind the space that follows it. -/
def decodeField (line : Str) : Option (Str × Str) :=
  (Split.splitOnce ':' line).map fun p => (p.1, p.2.drop 1)

def decodeResponse (data : Bytes) : Option DecodedResponse := do
  let pos ← findWindow crlfCrlf data
  match ← (splitPair cr lf (data.take pos)).mapM fromUtf8 with
  | [] => none
  | status :: lines =>
    return ⟨← decodeStatus status, ← lines.mapM decodeField, data.drop (pos + 4)⟩

/-! ### Texts of one line -/

/-- Text without a line end. -/
def OneLine (s : Str) : Prop := '\r' ∉ s ∧ '\n' ∉ s

instance (s : Str) : Decidable (OneLine s) := inferInstanceAs (Decidable ('\r' ∉ s ∧ '\n' ∉ s))

/-- The status messages and the date have no line end. -/
structure Site.OneLine (site : Site) : Prop where
  message : ∀ code m, site.statuses.lookup code = some m → Scety.OneLine m
  date : ∀ code, Scety.OneLine (site.date code)

/-- A header that may be added: a name that is not empty and has no colon, one line each, and neither
of the names that frame the body. -/
structure ExtraHeader (e : Str × Str) : Prop where
  name_ne_nil : e.1 ≠ []
  colon_notMem : ':' ∉ e.1
  name : OneLine e.1
  value : OneLine e.2
  not_length : eqIgnoreAsciiCase (bytes e.1) (bytes contentLengthName) = false
  not_coding : eqIgnoreAsciiCase (bytes e.1) (bytes transferEncodingName) = false

def ResponseCall.Allowed : ResponseCall → Prop
  | withHeaders extra => ∀ e ∈ extra, ExtraHeader e
  | withContent contentType _ => OneLine contentType

theorem OneLine.append {s t : Str} (hs : OneLine s) (ht : OneLine t) : OneLine (s ++ t) := by
  unfold OneLine
  rw [List.mem_append, not_or, List.mem_append, not_or]
  exact ⟨⟨hs.1, ht.1⟩, hs.2, ht.2⟩

theorem OneLine.bytes {s : Str} (h : OneLine s) : cr ∉ bytes s ∧ lf ∉ bytes s :=
  ⟨(mem_bytes_iff (b := cr) (by decide)).not.mpr h.1,
    (mem_bytes_iff (b := lf) (by decide)).not.mpr h.2⟩

theorem isDigit_of_mem_decimal {n : ℕ} {c : Char} (h : c ∈ decimal n) : c.isDigit = true := by
  unfold decimal Nat.repr at h
  rw [String.toList_ofList] at h
  exact Nat.isDigit_of_mem_toDigits (by omega) le_rfl h

theorem oneLine_decimal (n : ℕ) : OneLine (decimal n) :=
  ⟨fun h => absurd (isDigit_of_mem_decimal h) (by decide),
    fun h => absurd (isDigit_of_mem_decimal h) (by decide)⟩

theorem ofDigitChars_decimal (n : ℕ) : Nat.ofDigitChars 10 (decimal n) 0 = n := by
  unfold decimal Nat.repr
  rw [String.toList_ofList]
  exact Nat.ofDigitChars_ten_toDigits

theorem decimal_ne_nil (n : ℕ) : decimal n ≠ [] := by
  unfold decimal Nat.repr
  rw [String.toList_ofList]
  exact Nat.toDigits_ne_nil

/-! ### The lines of a response -/

/-- A field that is read back from its line. -/
structure PlainField (e : Str × Str) : Prop where
  colon_notMem : ':' ∉ e.1
  name : OneLine e.1
  value : OneLine e.2

def fieldLine (e : Str × Str) : Str := e.1 ++ ": ".toList ++ e.2

namespace HttpResponse

variable (self : HttpResponse) (site : Site)

def statusLine : Str :=
  "HTTP/1.1 ".toList ++ decimal self.code ++ " ".toList ++ site.statusMessage self.code

/-- The fields of the response, with those that are written before the header list. -/
def fields : List (Str × Str) :=
  ("Server".toList, self.server) :: ("Connection".toList, self.connection) ::
    ("Date".toList, site.date self.code) :: self.headers

def headLines : List Str := self.statusLine site :: (self.fields site).map fieldLine

theorem toHttpString_eq : self.toHttpString site =
    (self.headLines site).flatMap (· ++ "\r\n".toList) ++ "\r\n".toList ++ self.body.getD [] := by
  unfold toHttpString headLines fields statusLine
  simp only [List.map_cons, List.flatMap_cons, List.flatMap_map, line, fieldLine,
    List.append_assoc]

theorem bytes_toHttpString : bytes (self.toHttpString site) =
    ((self.headLines site).map fun l => bytes l ++ crlf).flatten ++ crlf ++
      bytes (self.body.getD []) := by
  have hend : bytes "\r\n".toList = crlf := by decide
  have hlines : ∀ ls : List Str, bytes (ls.flatMap (· ++ "\r\n".toList)) =
      (ls.map fun l => bytes l ++ crlf).flatten := by
    intro ls
    induction ls with
    | nil => rfl
    | cons l ls ih =>
      rw [List.flatMap_cons, bytes_append, bytes_append, ih, hend]
      rfl
  rw [toHttpString_eq, bytes_append, bytes_append, hlines, hend]

end HttpResponse

theorem fieldLine_ne_nil (e : Str × Str) : fieldLine e ≠ [] := by
  unfold fieldLine
  simp

theorem PlainField.oneLine {e : Str × Str} (h : PlainField e) : OneLine (fieldLine e) :=
  (h.name.append (by decide)).append h.value

theorem PlainField.decode {e : Str × Str} (h : PlainField e) :
    decodeField (fieldLine e) = some e := by
  have hcut : Split.splitOnce ':' (fieldLine e) = some (e.1, ' ' :: e.2) :=
    Split.splitOnce_eq_some_iff.mpr ⟨by simp [fieldLine], h.colon_notMem⟩
  unfold decodeField
  rw [hcut]
  rfl

theorem decodeStatus_eq (code : ℕ) (message : Str) :
    decodeStatus ("HTTP/1.1 ".toList ++ decimal code ++ " ".toList ++ message) = some code := by
  have hspace : ' ' ∉ decimal code := fun h => absurd (isDigit_of_mem_decimal h) (by decide)
  have htext : "HTTP/1.1 ".toList ++ decimal code ++ " ".toList ++ message =
      "HTTP/1.1".toList ++ ' ' :: (decimal code ++ ' ' :: message) := by simp
  unfold decodeStatus
  rw [htext, Split.splitOn_cons_of_notMem (by decide), Split.splitOn_cons_of_notMem hspace]
  show (some (decimal code)).bind _ = _
  rw [Option.bind_some, if_pos ⟨decimal_ne_nil code, fun c hc => isDigit_of_mem_decimal hc⟩,
    ofDigitChars_decimal]

/-! ### Cutting the response -/

/-- Lines that are not empty behind the first are a head. -/
theorem isHead_map_crlf {ls : List Str} (h : ∀ l ∈ ls, OneLine l) (h0 : ∀ l ∈ ls.tail, l ≠ []) :
    IsHead (ls.map fun l => bytes l ++ crlf) where
  isCrlfLine := by
    intro line hline
    obtain ⟨l, hl, rfl⟩ := List.mem_map.mp hline
    exact ⟨bytes l, rfl, (h l hl).bytes.2⟩
  ne_crlf := by
    intro line hline
    rw [← List.map_tail] at hline
    obtain ⟨l, hl, rfl⟩ := List.mem_map.mp hline
    intro heq
    have hnil : bytes l = [] := List.append_left_eq_self.mp heq
    cases l with
    | nil => exact h0 [] hl rfl
    | cons c l =>
      have hdecode := fromUtf8_bytes (c :: l)
      rw [hnil] at hdecode
      have hempty : fromUtf8 [] = some [] := fromUtf8_bytes []
      exact absurd (hempty.symm.trans hdecode) (by simp)

theorem flatten_map_crlf (ls : List Bytes) (h0 : ls ≠ []) :
    (ls.map (· ++ crlf)).flatten = crlf.intercalate ls ++ crlf := by
  induction ls with
  | nil => exact absurd rfl h0
  | cons l ls ih =>
    cases ls with
    | nil => simp
    | cons m ls =>
      have hm := List.cons_ne_nil m ls
      rw [List.map_cons, List.flatten_cons, ih hm, List.intercalate_cons_of_ne_nil hm]
      simp only [List.append_assoc]

theorem mapM_fromUtf8 (ls : List Str) : (ls.map bytes).mapM fromUtf8 = some ls := by
  induction ls with
  | nil => rfl
  | cons l ls ih => rw [List.map_cons, List.mapM_cons, fromUtf8_bytes, ih]; rfl

theorem mapM_decodeField {es : List (Str × Str)} (h : ∀ e ∈ es, PlainField e) :
    (es.map fieldLine).mapM decodeField = some es := by
  induction es with
  | nil => rfl
  | cons e es ih =>
    obtain ⟨he, hes⟩ := List.forall_mem_cons.mp h
    rw [List.map_cons, List.mapM_cons, he.decode, ih hes]
    rfl

/-- The first CRLFCRLF of a response ends its head, whose lines are found again. -/
theorem cut_response {ls : List Str} (h : ∀ l ∈ ls, OneLine l) (h0 : ls ≠ [])
    (htail : ∀ l ∈ ls.tail, l ≠ []) (body : Bytes) :
    ∃ pos, findWindow crlfCrlf ((ls.map fun l => bytes l ++ crlf).flatten ++ crlf ++ body) =
        some pos ∧
      splitPair cr lf (((ls.map fun l => bytes l ++ crlf).flatten ++ crlf ++ body).take pos) =
        ls.map bytes ∧
      ((ls.map fun l => bytes l ++ crlf).flatten ++ crlf ++ body).drop (pos + 4) = body := by
  have hhead := isHead_map_crlf h htail
  have hne : (ls.map fun l => bytes l ++ crlf) ≠ [] := by simpa using h0
  have hflat : (ls.map fun l => bytes l ++ crlf).flatten = crlf.intercalate (ls.map bytes) ++ crlf := by
    rw [← flatten_map_crlf _ (by simpa using h0), List.map_map]
    rfl
  have hplain : ∀ l ∈ ls.map bytes, cr ∉ l := by
    intro line hline
    obtain ⟨l, hl, rfl⟩ := List.mem_map.mp hline
    exact (h l hl).bytes.1
  have htext : (ls.map fun l => bytes l ++ crlf).flatten ++ crlf ++ body =
      crlf.intercalate (ls.map bytes) ++ crlfCrlf ++ body := by
    rw [hflat]
    simp [crlfCrlf]
  refine ⟨(crlf.intercalate (ls.map bytes)).length, ?_, ?_, ?_⟩
  · rw [hhead.findWindow_eq hne, hflat, List.length_append]
    rfl
  · rw [htext, List.append_assoc, List.take_left]
    exact splitPair_intercalate hplain (by simpa using h0)
  · rw [htext, drop_message]

/-! ### What the calls leave in a response -/

/-- The entries of a header list with this name, in any letter case. -/
def entriesNamed (name : Str) (headers : List (Str × Str)) : List (Str × Str) :=
  headers.filter fun e => eqIgnoreAsciiCase (bytes e.1) (bytes name)

theorem entriesNamed_append (name : Str) (xs ys : List (Str × Str)) :
    entriesNamed name (xs ++ ys) = entriesNamed name xs ++ entriesNamed name ys :=
  List.filter_append ..

theorem entriesNamed_of_extra {extra : List (Str × Str)} (h : ∀ e ∈ extra, ExtraHeader e) :
    entriesNamed contentLengthName extra = [] := by
  refine List.filter_eq_nil_iff.mpr fun e he => ?_
  rw [(h e he).not_length]
  exact Bool.false_ne_true

theorem entriesNamed_added (contentType body : Str) :
    entriesNamed contentLengthName (ResponseCall.withContent contentType body).added =
      [(contentLengthName, decimal (bytes body).length)] := by
  have htype : eqIgnoreAsciiCase (bytes "Content-Type".toList) (bytes contentLengthName) = false := by
    decide
  have hlength : eqIgnoreAsciiCase (bytes contentLengthName) (bytes contentLengthName) = true := by
    decide
  unfold entriesNamed ResponseCall.added
  rw [List.filter_cons_of_neg (by rw [htype]; exact Bool.false_ne_true), List.filter_cons, hlength,
    if_pos rfl, List.filter_nil]

/-- The names that the code itself puts into a response. -/
def fixedNames : List Str :=
  ["Server".toList, "Connection".toList, "Date".toList, "Content-Type".toList, contentLengthName]

theorem plainField_fixed {name value : Str} (hname : name ∈ fixedNames) (hvalue : OneLine value) :
    PlainField (name, value) := by
  have hall : ∀ name ∈ fixedNames, ':' ∉ name ∧ OneLine name := by decide
  exact ⟨(hall name hname).1, (hall name hname).2, hvalue⟩

theorem plainField_added {c : ResponseCall} (h : c.Allowed) : ∀ e ∈ c.added, PlainField e := by
  intro e he
  cases c with
  | withHeaders extra =>
    have hextra := h e he
    exact ⟨hextra.colon_notMem, hextra.name, hextra.value⟩
  | withContent contentType body =>
    rcases List.mem_pair.mp he with rfl | rfl
    · exact plainField_fixed (by simp [fixedNames]) h
    · exact plainField_fixed (by simp [fixedNames]) (oneLine_decimal _)

namespace HttpResponse

theorem call_headers (self : HttpResponse) (c : ResponseCall) :
    (self.call c).headers = self.headers ++ c.added := by
  cases c <;> rfl

variable {code : ℕ} {connection : Str} {exposeVersion : Bool}

theorem build_concat (calls : List ResponseCall) (c : ResponseCall) :
    build code connection exposeVersion (calls ++ [c]) =
      (build code connection exposeVersion calls).call c := by
  unfold build
  rw [List.foldl_append]
  rfl

/-- No call changes the first three parts. -/
theorem build_parts (calls : List ResponseCall) :
    (build code connection exposeVersion calls).code = code ∧
      (build code connection exposeVersion calls).connection = connection ∧
      (build code connection exposeVersion calls).exposeVersion = exposeVersion := by
  induction calls using List.reverseRecOn with
  | nil => exact ⟨rfl, rfl, rfl⟩
  | append_singleton calls c ih =>
    rw [build_concat]
    cases c with
    | withHeaders extra => exact ih
    | withContent contentType body => exact ih

/-- The header list is what the calls add, in their order. -/
theorem build_headers (calls : List ResponseCall) :
    (build code connection exposeVersion calls).headers = calls.flatMap ResponseCall.added := by
  induction calls using List.reverseRecOn with
  | nil => rfl
  | append_singleton calls c ih =>
    rw [build_concat, call_headers, ih, List.flatMap_append, List.flatMap_singleton]

/-- Where the body comes from at most one call, its length is announced once. -/
theorem build_length {calls : List ResponseCall} (hcalls : ∀ c ∈ calls, c.Allowed)
    (honce : calls.countP ResponseCall.isContent ≤ 1) :
    entriesNamed contentLengthName (build code connection exposeVersion calls).headers =
      (build code connection exposeVersion calls).body.toList.map fun body =>
        (contentLengthName, decimal (bytes body).length) := by
  have hbody : ∀ calls : List ResponseCall, calls.countP ResponseCall.isContent = 0 →
      (build code connection exposeVersion calls).body = none := by
    intro calls hzero
    induction calls using List.reverseRecOn with
    | nil => rfl
    | append_singleton calls c ih =>
      rw [List.countP_append, Nat.add_eq_zero_iff] at hzero
      cases c with
      | withHeaders extra =>
        rw [build_concat]
        exact ih hzero.1
      | withContent contentType body => exact absurd hzero.2 (by simp [ResponseCall.isContent])
  induction calls using List.reverseRecOn with
  | nil => rfl
  | append_singleton calls c ih =>
    obtain ⟨hbefore, hc⟩ := List.forall_mem_append.mp hcalls
    rw [List.countP_append] at honce
    have hlength := ih hbefore (by omega)
    have hlast := hc c (List.mem_singleton_self c)
    rw [build_concat, call_headers, entriesNamed_append, hlength]
    cases c with
    | withHeaders extra =>
      have hnone : entriesNamed contentLengthName (ResponseCall.withHeaders extra).added = [] :=
        entriesNamed_of_extra hlast
      rw [hnone, List.append_nil]
      rfl
    | withContent contentType body =>
      -- the earlier calls have set no body
      have hone : [ResponseCall.withContent contentType body].countP ResponseCall.isContent = 1 :=
        rfl
      rw [hbody calls (by omega), entriesNamed_added]
      rfl

theorem plainField_fields {site : Site} (hsite : site.OneLine) (hconn : OneLine connection)
    {calls : List ResponseCall} (hcalls : ∀ c ∈ calls, c.Allowed) :
    ∀ e ∈ (build code connection exposeVersion calls).fields site, PlainField e := by
  obtain ⟨-, hc, -⟩ := @build_parts code connection exposeVersion calls
  have hserver : OneLine (build code connection exposeVersion calls).server := by
    unfold server
    split_ifs
    · decide
    · decide
  unfold fields
  rw [build_headers, hc]
  simp only [List.forall_mem_cons]
  refine ⟨plainField_fixed (by simp [fixedNames]) hserver,
    plainField_fixed (by simp [fixedNames]) hconn,
    plainField_fixed (by simp [fixedNames]) (hsite.date _), ?_⟩
  intro e he
  obtain ⟨c, hcall, hadded⟩ := List.mem_flatMap.mp he
  exact plainField_added (hcalls c hcall) e hadded

theorem oneLine_statusLine {site : Site} (hsite : site.OneLine) (self : HttpResponse) :
    OneLine (self.statusLine site) := by
  have hmessage : OneLine (site.statusMessage self.code) := by
    unfold Site.statusMessage
    cases h : site.statuses.lookup self.code with
    | none => exact (by decide : OneLine "Something went wrong.".toList)
    | some m => exact hsite.message self.code m h
  have hversion : OneLine "HTTP/1.1 ".toList := by decide
  exact ((hversion.append (oneLine_decimal _)).append (by decide)).append hmessage

end HttpResponse

/-- **Generated responses are read back**: the reader finds the status code, the lines of the server,
the connection and the date, then the entries that the calls added, in their order, and the bytes of
the body; the length is announced once if there is a body, and it counts these bytes. -/
theorem response_decodes {site : Site} (hsite : site.OneLine) {connection : Str}
    (hconn : OneLine connection) {calls : List ResponseCall} (hcalls : ∀ c ∈ calls, c.Allowed)
    (honce : calls.countP ResponseCall.isContent ≤ 1) (code : ℕ) (exposeVersion : Bool) :
    let response := HttpResponse.build code connection exposeVersion calls
    decodeResponse (bytes (response.toHttpString site)) = some
        ⟨code, ("Server".toList, response.server) :: ("Connection".toList, connection) ::
          ("Date".toList, site.date code) :: response.headers, bytes (response.body.getD [])⟩ ∧
      response.headers = calls.flatMap ResponseCall.added ∧
      ∀ body, response.body = some body →
        entriesNamed contentLengthName response.headers =
          [(contentLengthName, decimal (bytes body).length)] := by
  intro response
  obtain ⟨hcode, hconnection, -⟩ := @HttpResponse.build_parts code connection exposeVersion calls
  have hfields : ∀ e ∈ response.fields site, PlainField e :=
    HttpResponse.plainField_fields hsite hconn hcalls
  refine ⟨?_, HttpResponse.build_headers calls, ?_⟩
  · have hlines : ∀ l ∈ response.headLines site, OneLine l := by
      unfold HttpResponse.headLines
      rw [List.forall_mem_cons]
      refine ⟨HttpResponse.oneLine_statusLine hsite response, ?_⟩
      intro l hl
      obtain ⟨e, he, rfl⟩ := List.mem_map.mp hl
      exact (hfields e he).oneLine
    have htail : ∀ l ∈ (response.headLines site).tail, l ≠ [] := by
      intro l hl
      obtain ⟨e, -, rfl⟩ := List.mem_map.mp hl
      exact fieldLine_ne_nil e
    obtain ⟨pos, hpos, hsplit, hrest⟩ := cut_response hlines (List.cons_ne_nil _ _) htail
      (bytes (response.body.getD []))
    rw [HttpResponse.bytes_toHttpString]
    unfold decodeResponse
    rw [hpos]
    simp only [Option.bind_eq_bind, Option.bind_some]
    rw [hsplit, mapM_fromUtf8, hrest]
    have hstatus : decodeStatus (response.statusLine site) = some code := by
      rw [← hcode]
      exact decodeStatus_eq _ _
    have hread := mapM_decodeField hfields
    unfold HttpResponse.headLines
    simp only [Option.bind_some, hstatus, hread]
    unfold HttpResponse.fields
    rw [hcode, hconnection]
    rfl
  · intro body hbody
    have hlength := @HttpResponse.build_length code connection exposeVersion _ hcalls honce
    rw [show (HttpResponse.build code connection exposeVersion calls).body = some body from hbody]
      at hlength
    exact hlength

/-- A page of two lines with a blank line between, one character of two bytes among them. -/
theorem response_decodes_page : decodeResponse (bytes
      ((HttpResponse.build 404 "close".toList true [.withHeaders [("X-A".toList, "b: c".toList)],
        .withContent "text/html".toList "é\r\n\r\nx".toList]).toHttpString
          ⟨∅, [], fun _ => "Thu, 01 Jan 1970".toList⟩)) = some
    ⟨404, [("Server".toList, "scety/0.1.1".toList), ("Connection".toList, "close".toList),
      ("Date".toList, "Thu, 01 Jan 1970".toList), ("X-A".toList, "b: c".toList),
      ("Content-Type".toList, "text/html".toList), ("Content-Length".toList, "7".toList)],
      bytes "é\r\n\r\nx".toList⟩ := by
  have hdate : OneLine "Thu, 01 Jan 1970".toList := by decide
  have hsite : Site.OneLine ⟨∅, [], fun _ => "Thu, 01 Jan 1970".toList⟩ :=
    ⟨fun code _ h => absurd (h.symm.trans (AList.lookup_empty code)) (Option.some_ne_none _),
      fun _ => hdate⟩
  have hextra : ExtraHeader ("X-A".toList, "b: c".toList) := by
    constructor <;> decide
  have hcalls : ∀ c ∈ [ResponseCall.withHeaders [("X-A".toList, "b: c".toList)],
      .withContent "text/html".toList "é\r\n\r\nx".toList], c.Allowed := by
    have hplain : OneLine "text/html".toList := by decide
    intro c hc
    rcases List.mem_pair.mp hc with rfl | rfl
    · exact List.forall_mem_singleton.mpr hextra
    · exact hplain
  exact (response_decodes hsite (by decide) hcalls (by decide) 404 true).1

/-- `generate_text_response` builds its response by these calls. -/
theorem generateTextResponse_eq (site : Site) (headers : List (Str × Str)) (code : ℕ)
    (connection : Str) (withContent : Bool) (contentType content : Option Str)
    (exposeVersion : Bool) :
    generateTextResponse site headers code connection withContent contentType content exposeVersion =
      (HttpResponse.build code connection exposeVersion (.withHeaders headers ::
        if withContent then [.withContent (contentType.getD "text/plain; charset=utf-8".toList)
          (content.getD [])] else [])).toHttpString site := by
  cases withContent <;> rfl

end Scety
