import Scety.Bytes
import Scety.Config.Global
import Scety.Config.Services
import Scety.Lib.Lines

/-!
# `network/listeners.rs`: removing and adding header lines

`strip_headers_by_name` and its two callers work on byte strings.  The functions are written over
any carrier of bytes, so that the same functions run on bytes that are marked with where they come
from.
-/

namespace Scety

open Lines

/-- What carries a byte: `val` reads it, `own` is what the program makes of a byte of its own. -/
structure Carrier (α : Type) where
  val : α → UInt8
  own : UInt8 → α
  val_own : ∀ b, val (own b) = b

/-- The bytes themselves. -/
def Carrier.plain : Carrier UInt8 := ⟨id, id, fun _ => rfl⟩

/-- Who wrote a byte. -/
inductive Origin where
  | client
  | scety
  deriving DecidableEq

/-- Bytes marked with who wrote them. -/
def Carrier.marked : Carrier (UInt8 × Origin) := ⟨Prod.fst, fun b => (b, .scety), fun _ => rfl⟩

def lf : UInt8 := 10

def cr : UInt8 := 13

def crlf : Bytes := [cr, lf]

/-- `b"\r\n\r\n"`. -/
def crlfCrlf : Bytes := crlf ++ crlf

/-- `':'`. -/
def colon : UInt8 := 58

/-- The text starts with the name, in any letter case, and a colon. -/
def startsWithName (trimmed name : Bytes) : Bool :=
  decide (name.length < trimmed.length) &&
    eqIgnoreAsciiCase (trimmed.take name.length) name &&
      decide (trimmed[name.length]? = some colon)

/-- The test of `strip_headers_by_name` for one name. -/
def isNamedLine (line name : Bytes) : Bool :=
  startsWithName ((line.dropSuffix? crlf).getD line) name

/-- The line starts with one of the names. -/
def isNamedLineOf (names : List Bytes) (line : Bytes) : Bool :=
  names.any fun name => isNamedLine line name

/-- `format!("{key}: {value}\r\n").as_bytes()`. -/
def headerLine (header : Str × Str) : Bytes :=
  bytes (header.1 ++ ": ".toList ++ header.2) ++ crlf

/-- `sorted_headers`. -/
def sortedHeaders (headers : HashMap Str Str) : List (Str × Str) :=
  (headers.entries.map fun e => (e.1, e.2)).insertionSort fun a b => a.1 ≤ b.1

/-- `headers.extend(custom)`, if the service has headers of its own. -/
def extendHeaders (headers : HashMap Str Str) : Option (HashMap Str Str) → HashMap Str Str
  | some custom => custom ∪ headers
  | none => headers

section Rewrite

variable {α : Type} (c : Carrier α)

/-- The lines of a text, each with its terminator. -/
def linesOf (text : List α) : List (List α) := splitInclusive (fun a => c.val a = lf) text

def stripHeadersByName (head : List α) (names : List Bytes) : List α :=
  ((linesOf c head).filter fun line => !isNamedLineOf names (line.map c.val)).flatten

/-- The head up to `pos + 2` without the lines of `names`, the lines of `headers`, and the rest. -/
def rewriteHead (names : List Bytes) (headers : List (Str × Str)) (pos : ℕ) (buf : List α) :
    List α :=
  stripHeadersByName c (buf.take (pos + 2)) names ++ (headers.flatMap headerLine).map c.own ++
    buf.drop (pos + 2)

end Rewrite

/-! ### The upstream request -/

/-- `client_ip.rsplit_once(':').map(|(ip, _)| ip).unwrap_or(client_ip)`. -/
def xffIp (clientIp : Str) : Str :=
  if ':' ∈ clientIp then ((clientIp.reverse.dropWhile (· ≠ ':')).tail).reverse else clientIp

def xffName : Str := "X-Forwarded-For".toList

/-- `upstream_headers`: the global ones, those of the service, and the address of the client. -/
def upstreamHeaders (cfg : ScetyConfig) (headersConfig : Option HeadersConfig) (clientIp : Str) :
    HashMap Str Str :=
  (extendHeaders cfg.globalUpstreamHeaders (headersConfig.bind (·.upstream))).insert xffName
    (xffIp clientIp)

/-- `response_headers`. -/
def responseHeaders (cfg : ScetyConfig) (headersConfig : Option HeadersConfig) :
    List (Str × Str) :=
  sortedHeaders (extendHeaders cfg.globalResponseHeaders (headersConfig.bind (·.response)))

/-- `final_buf`: the bytes read, rewritten if they contain an empty line of CRLF. -/
def finalBuf {α : Type} (c : Carrier α) (headers : HashMap Str Str) (buf : List α) : List α :=
  match findWindow crlfCrlf (buf.map c.val) with
  | some pos => rewriteHead c (headers.keys.map bytes) (sortedHeaders headers) pos buf
  | none => buf

/-! ### Lines with a name -/

/-- A byte at the end that is no colon does not matter. -/
theorem startsWithName_append {b : UInt8} (hb : b ≠ colon) (text name : Bytes) :
    startsWithName (text ++ [b]) name = startsWithName text name := by
  unfold startsWithName
  rcases lt_trichotomy name.length text.length with hlt | heq | hgt
  · rw [List.take_append_of_le_length (le_of_lt hlt), List.getElem?_append_left hlt,
      List.length_append, decide_eq_true hlt, decide_eq_true (by omega)]
  · have hend : (text ++ [b])[name.length]? = some b := by
      rw [heq]
      simp
    rw [hend, decide_eq_false (by omega : ¬ name.length < text.length),
      decide_eq_false fun h => hb (Option.some.inj h), Bool.and_false, Bool.false_and,
      Bool.false_and]
  · rw [List.length_append, decide_eq_false (by omega : ¬ name.length < text.length),
      decide_eq_false]
    · simp only [Bool.false_and]
    · show ¬ name.length < text.length + 1
      omega

theorem startsWithName_append_crlf (text name : Bytes) :
    startsWithName (text ++ crlf) name = startsWithName text name := by
  rw [show crlf = [cr] ++ [lf] from rfl, ← List.append_assoc, startsWithName_append (by decide),
    startsWithName_append (by decide)]

/-- The suffix is trimmed. -/
theorem isNamedLine_append_crlf (text name : Bytes) :
    isNamedLine (text ++ crlf) name = startsWithName text name := by
  have hdrop : (text ++ crlf).dropSuffix? crlf = some text := by
    rw [List.dropSuffix?_eq_some_iff]
    exact ⟨crlf, rfl, beq_self_eq_true crlf⟩
  unfold isNamedLine
  rw [hdrop]
  rfl

/-- The CRLF at the end does not matter for the test, and so it is that of the line as it stands. -/
theorem isNamedLine_eq (line name : Bytes) : isNamedLine line name = startsWithName line name := by
  cases hdrop : line.dropSuffix? crlf with
  | none =>
    unfold isNamedLine
    rw [hdrop]
    rfl
  | some text =>
    obtain ⟨suffix, rfl, hsuffix⟩ := List.dropSuffix?_eq_some_iff.mp hdrop
    obtain rfl := beq_iff_eq.mp hsuffix
    rw [isNamedLine_append_crlf, startsWithName_append_crlf]

theorem isNamedLineOf_eq (keys : List Str) (line : Bytes) :
    isNamedLineOf (keys.map bytes) line = keys.any fun key => startsWithName line (bytes key) := by
  unfold isNamedLineOf
  rw [List.any_map]
  congr 1
  funext key
  exact isNamedLine_eq line _

theorem isNamedLineOf_iff {names : List Bytes} {line : Bytes} :
    isNamedLineOf names line = true ↔ ∃ name ∈ names, isNamedLine line name = true :=
  List.any_eq_true

/-- The order of the names does not matter. -/
theorem isNamedLineOf_congr {names names' : List Bytes} (h : ∀ name, name ∈ names ↔ name ∈ names') :
    isNamedLineOf names = isNamedLineOf names' := by
  funext line
  rw [Bool.eq_iff_iff, isNamedLineOf_iff, isNamedLineOf_iff]
  exact exists_congr fun name => and_congr_left' (h name)

theorem startsWithName_front (name rest : Bytes) :
    startsWithName (name ++ colon :: rest) name = true := by
  unfold startsWithName
  rw [List.take_left]
  simp [eqIgnoreAsciiCase]

/-- The text of an added line. -/
theorem bytes_header (key value : Str) :
    bytes (key ++ ": ".toList ++ value) = bytes key ++ colon :: 32 :: bytes value := by
  unfold bytes
  rw [List.flatMap_append, List.flatMap_append, List.append_assoc]
  rfl

/-- The text of an added line starts with its name. -/
theorem startsWithName_header (key value : Str) :
    startsWithName (bytes (key ++ ": ".toList ++ value)) (bytes key) = true := by
  rw [bytes_header]
  exact startsWithName_front _ _

/-! ### The sorted headers -/

theorem mem_keys_of_lookup {headers : HashMap Str Str} {key value : Str}
    (h : headers.lookup key = some value) : key ∈ headers.keys :=
  AList.mem_keys.mp (AList.lookup_isSome.mp (by rw [h]; rfl))

theorem exists_lookup_of_mem_keys {headers : HashMap Str Str} {key : Str}
    (h : key ∈ headers.keys) : ∃ value, headers.lookup key = some value :=
  Option.isSome_iff_exists.mp (AList.lookup_isSome.mpr (AList.mem_keys.mpr h))

theorem mem_sortedHeaders_iff {headers : HashMap Str Str} {key value : Str} :
    (key, value) ∈ sortedHeaders headers ↔ headers.lookup key = some value := by
  unfold sortedHeaders
  rw [List.mem_insertionSort, List.mem_map, ← Option.mem_def, AList.mem_lookup_iff]
  refine ⟨?_, fun h => ⟨_, h, rfl⟩⟩
  rintro ⟨e, he, heq⟩
  obtain ⟨rfl, rfl⟩ := Prod.mk.inj heq
  exact he

theorem sortedHeaders_ne_nil {headers : HashMap Str Str} (h0 : headers.keys ≠ []) :
    sortedHeaders headers ≠ [] := by
  obtain ⟨name, hname⟩ := List.exists_mem_of_ne_nil _ h0
  obtain ⟨value, hvalue⟩ := exists_lookup_of_mem_keys hname
  exact List.ne_nil_of_mem (mem_sortedHeaders_iff.mpr hvalue)

/-- Each name stands once. -/
theorem nodup_sortedHeaders (headers : HashMap Str Str) :
    ((sortedHeaders headers).map Prod.fst).Nodup := by
  have hperm : ((sortedHeaders headers).map Prod.fst).Perm
      ((headers.entries.map fun e => (e.1, e.2)).map Prod.fst) :=
    (List.perm_insertionSort _ _).map Prod.fst
  rw [hperm.nodup_iff, List.map_map]
  exact headers.nodupKeys

/-- The names ascend. -/
theorem pairwise_sortedHeaders (headers : HashMap Str Str) :
    (sortedHeaders headers).Pairwise fun a b => a.1 < b.1 := by
  have hle : (sortedHeaders headers).Pairwise fun a b => a.1 ≤ b.1 := by
    have : Std.Total fun a b : Str × Str => a.1 ≤ b.1 := ⟨fun a b => le_total a.1 b.1⟩
    have : IsTrans (Str × Str) fun a b => a.1 ≤ b.1 := ⟨fun _ _ _ => le_trans⟩
    exact List.pairwise_insertionSort _ _
  have hne := List.pairwise_map.mp (nodup_sortedHeaders headers)
  exact (hle.and hne).imp fun h => lt_of_le_of_ne h.1 h.2

theorem mem_map_sortedHeaders_iff {headers : HashMap Str Str} {name : Bytes} :
    name ∈ (sortedHeaders headers).map (fun e => bytes e.1) ↔ name ∈ headers.keys.map bytes := by
  rw [List.mem_map, List.mem_map]
  refine ⟨?_, ?_⟩
  · rintro ⟨e, he, rfl⟩
    exact ⟨e.1, mem_keys_of_lookup (mem_sortedHeaders_iff.mp he), rfl⟩
  · rintro ⟨key, hkey, rfl⟩
    obtain ⟨value, hvalue⟩ := exists_lookup_of_mem_keys hkey
    exact ⟨(key, value), mem_sortedHeaders_iff.mpr hvalue, rfl⟩

/-- Without headers nothing is changed. -/
theorem rewriteHead_nil {α : Type} (c : Carrier α) (pos : ℕ) (buf : List α) :
    rewriteHead c [] [] pos buf = buf := by
  have hall : (linesOf c (buf.take (pos + 2))).filter
      (fun line => !isNamedLineOf [] (line.map c.val)) = linesOf c (buf.take (pos + 2)) :=
    List.filter_eq_self.mpr fun _ _ => rfl
  unfold rewriteHead stripHeadersByName
  rw [hall, linesOf, flatten_splitInclusive, List.flatMap_nil, List.map_nil, List.append_nil,
    List.take_append_drop]

/-! ### Erasing the marks -/

section Erase

variable {α : Type} (c : Carrier α)

@[simp] theorem map_plain_val (l : Bytes) : l.map Carrier.plain.val = l := List.map_id l

@[simp] theorem map_plain_own (l : Bytes) : l.map Carrier.plain.own = l := List.map_id l

theorem map_val_own (l : Bytes) : (l.map c.own).map c.val = l := by
  rw [List.map_map]
  refine (List.map_congr_left ?_).trans (List.map_id l)
  intro b _
  exact c.val_own b

theorem linesOf_map_val (text : List α) :
    linesOf .plain (text.map c.val) = (linesOf c text).map (List.map c.val) :=
  splitInclusive_map c.val text

theorem stripHeadersByName_map_val (head : List α) (names : List Bytes) :
    stripHeadersByName .plain (head.map c.val) names =
      (stripHeadersByName c head names).map c.val := by
  unfold stripHeadersByName
  rw [linesOf_map_val, List.filter_map, List.map_flatten]
  congr 2
  apply List.filter_congr
  intro line _
  show (!isNamedLineOf names ((line.map c.val).map Carrier.plain.val)) = _
  rw [map_plain_val]

theorem finalBuf_map_val (headers : HashMap Str Str) (buf : List α) :
    finalBuf .plain headers (buf.map c.val) = (finalBuf c headers buf).map c.val := by
  unfold finalBuf
  rw [map_plain_val]
  cases findWindow crlfCrlf (buf.map c.val) with
  | none => rfl
  | some pos =>
    show rewriteHead _ _ _ _ _ = (rewriteHead _ _ _ _ _).map c.val
    unfold rewriteHead
    rw [← List.map_take, ← List.map_drop, stripHeadersByName_map_val, List.map_append,
      List.map_append, map_val_own, map_plain_own]

end Erase

end Scety
