import Scety.Http.Decode
import Scety.Lib.Pool
import Scety.Network.Shutdown

/-!
# `network/fallback_server.rs`: the server without services

Every connection is answered with the same page, once it has sent something, and whatever that is.  In
every interleaving of the connections each has got a front of the page, which is a response with its
length announced.
-/

namespace Scety

open Effects Transition

/-! ### The page -/

section Page

-- the page `no_configs.html` of the repository, and the constant `EXPOSE_VERSION`
variable (noConfigHtml : Str) (exposeVersion : Bool)

def serverHeader : Str :=
  if exposeVersion then engineName ++ "/".toList ++ engineVersion else engineName

def htmlBody : Str := replace noConfigHtml "\x7b\x7bENGINE\x7d\x7d".toList (serverHeader exposeVersion)

def fallbackResponse : Str :=
  "HTTP/1.1 200 OK\r\n".toList ++
    HttpResponse.line "Content-Type".toList "text/html; charset=utf-8".toList ++
    HttpResponse.line "Content-Length".toList
      (decimal (bytes (htmlBody noConfigHtml exposeVersion)).length) ++
    HttpResponse.line "Connection".toList "close".toList ++
    HttpResponse.line "Server".toList (serverHeader exposeVersion) ++
    "\r\n".toList ++ htmlBody noConfigHtml exposeVersion

end Page

/-! ### The connections -/

inductive SocketOp where
  | read (len : ℕ)
  | write (data : Bytes)

def SocketOp.Answer : SocketOp → Type
  | read len => ReadResult len
  | write _ => Except Unit Unit

/-- The task of a connection; errors are only logged. -/
def serveFallback (response : Bytes) : Prog SocketOp SocketOp.Answer Unit :=
  Prog.op (.read 1024) >>= fun (n : ReadResult 1024) =>
    match n with
    | .ok n => if n.1 = [] then pure () else (fun _ => ()) <$> Prog.op (.write response)
    | .error _ => pure ()

/-- The client's side of the operations. -/
def fallbackSocket : Observer SocketOp SocketOp.Answer UInt8 UInt8 where
  passes _ := none
  partly
    | .read _, d => d = []
    | .write data, d => d <+: data
  wholly
    | .read _, _, d => d = []
    | .write data, .ok _, d => d = data
    | .write data, .error _, d => d <+: data
  sees
    | .read _, .ok n => n.1
    | _, _ => []

/-- A connection, from its task's point of view. -/
abbrev FallbackTask := Moment SocketOp SocketOp.Answer Unit UInt8 UInt8

/-- The loop of `start_fallback_server`, with the tasks that it spawns. -/
def fallbackSystem (response : Bytes) : System (List FallbackTask) Unit where
  init s := s = []
  step s _ s' := PoolStep (fun m => m = ⟨serveFallback response, [], [], []⟩)
    (Advance fallbackSocket) s s'

/-- A connection has got a front of the page, and nothing before it has sent something. -/
structure Answered (response seen out : Bytes) : Prop where
  front : out <+: response
  asked : out ≠ [] → seen ≠ []
  bounded : seen.length ≤ 1024

theorem keeps_serveFallback (response : Bytes) :
    Keeps fallbackSocket (Answered response) (fun _ => Answered response) (serveFallback response) []
      [] := by
  have hstart : Answered response [] [] := ⟨List.nil_prefix, fun h => absurd rfl h, by simp⟩
  have hread : fallbackSocket.passes (.read 1024) = none := rfl
  refine (keeps_perform_iff hread).mpr ⟨hstart, ?_, ?_⟩
  · rintro d rfl
    exact hstart
  · rintro (e | n) d rfl
    · exact ⟨hstart, hstart⟩
    · have hseen : ([] : Bytes) ++ fallbackSocket.sees (.read 1024) (.ok n) = n.1 := rfl
      rw [hseen]
      have hnow : Answered response n.1 [] := ⟨List.nil_prefix, fun h => absurd rfl h, n.2⟩
      show Keeps fallbackSocket _ _ (if n.1 = [] then pure () else _) _ _
      split_ifs with hn
      · exact ⟨hnow, hnow⟩
      · have hfront : ∀ d, d <+: response → Answered response n.1 d := fun d hd => ⟨hd, fun _ => hn, n.2⟩
        have hwrite : fallbackSocket.passes (.write response) = none := rfl
        refine (keeps_perform_iff hwrite).mpr ⟨hnow, hfront, ?_⟩
        intro r d hd
        have hd' : d <+: response := by
          cases r with
          | ok u =>
            obtain rfl : d = response := hd
            exact List.prefix_rfl
          | error e => exact hd
        have hseen' : n.1 ++ fallbackSocket.sees (.write response) r = n.1 := List.append_nil _
        rw [hseen']
        exact ⟨hfront d hd', hfront d hd'⟩

theorem answered_of_reachable {response : Bytes} {s : List FallbackTask}
    (h : (fallbackSystem response).Reachable s) : ∀ m ∈ s, Answered response m.seen m.out := by
  have hinv : ∀ m ∈ s, Moment.Keeps fallbackSocket (Answered response) (fun _ => Answered response) m := by
    refine h.invariant (I := fun s => ∀ m ∈ s,
      Moment.Keeps fallbackSocket (Answered response) (fun _ => Answered response) m) ?_ ?_
    · rintro s rfl
      simp
    · intro s a s' _ hs hstep
      refine hstep.forall_mem ?_ (fun m m' hm hadvance => hm.advance hadvance) hs
      rintro m rfl
      exact ⟨[], rfl, keeps_serveFallback response, Or.inl rfl⟩
  exact fun m hm => (hinv m hm).now

/-! ### Reading the page -/

/-- A text of a status line, fields and a body is read back. -/
theorem decodeResponse_lines {status : Str} {code : ℕ} (hstatus : decodeStatus status = some code)
    (hline : OneLine status) {es : List (Str × Str)} (hes : ∀ e ∈ es, PlainField e) (body : Bytes) :
    decodeResponse (((status :: es.map fieldLine).map fun l => bytes l ++ crlf).flatten ++ crlf ++ body) =
      some ⟨code, es, body⟩ := by
  have hlines : ∀ l ∈ status :: es.map fieldLine, OneLine l := by
    refine List.forall_mem_cons.mpr ⟨hline, ?_⟩
    intro l hl
    obtain ⟨e, he, rfl⟩ := List.mem_map.mp hl
    exact (hes e he).oneLine
  have htail : ∀ l ∈ (status :: es.map fieldLine).tail, l ≠ [] := by
    intro l hl
    obtain ⟨e, -, rfl⟩ := List.mem_map.mp hl
    exact fieldLine_ne_nil e
  obtain ⟨pos, hpos, hsplit, hrest⟩ := cut_response hlines (List.cons_ne_nil _ _) htail body
  unfold decodeResponse
  rw [hpos]
  simp only [Option.bind_eq_bind, Option.bind_some]
  rw [hsplit, mapM_fromUtf8, hrest]
  simp only [Option.bind_some, hstatus, mapM_decodeField hes]
  rfl

theorem oneLine_serverHeader (exposeVersion : Bool) : OneLine (serverHeader exposeVersion) := by
  unfold serverHeader
  split_ifs
  · decide
  · decide

def fallbackFields (noConfigHtml : Str) (exposeVersion : Bool) : List (Str × Str) :=
  [("Content-Type".toList, "text/html; charset=utf-8".toList),
    ("Content-Length".toList, decimal (bytes (htmlBody noConfigHtml exposeVersion)).length),
    ("Connection".toList, "close".toList), ("Server".toList, serverHeader exposeVersion)]

theorem bytes_fallbackResponse (noConfigHtml : Str) (exposeVersion : Bool) :
    bytes (fallbackResponse noConfigHtml exposeVersion) =
      (("HTTP/1.1 200 OK".toList :: (fallbackFields noConfigHtml exposeVersion).map fieldLine).map
        fun l => bytes l ++ crlf).flatten ++ crlf ++ bytes (htmlBody noConfigHtml exposeVersion) := by
  have hend : bytes "\r\n".toList = crlf := by decide
  have hstatus : "HTTP/1.1 200 OK\r\n".toList = "HTTP/1.1 200 OK".toList ++ "\r\n".toList := by decide
  unfold fallbackResponse fallbackFields HttpResponse.line fieldLine
  rw [hstatus]
  simp only [bytes_append, hend, List.map_cons, List.map_nil, List.flatten_cons, List.flatten_nil,
    List.append_assoc, List.nil_append]

/-- **The fallback server answers everybody alike**: in every interleaving a connection has got a front
of one page, nothing before it has sent something, and no more than a kilobyte of it was read; and the
page is a response with status 200 that announces the length of its body and the end of the
connection. -/
theorem fallback_answers (noConfigHtml : Str) (exposeVersion : Bool) :
    (∀ s, (fallbackSystem (bytes (fallbackResponse noConfigHtml exposeVersion))).Reachable s →
      ∀ m ∈ s, Answered (bytes (fallbackResponse noConfigHtml exposeVersion)) m.seen m.out) ∧
    decodeResponse (bytes (fallbackResponse noConfigHtml exposeVersion)) =
      some ⟨200, fallbackFields noConfigHtml exposeVersion,
        bytes (htmlBody noConfigHtml exposeVersion)⟩ := by
  refine ⟨fun s hs => answered_of_reachable hs, ?_⟩
  rw [bytes_fallbackResponse]
  have hstatus : decodeStatus "HTTP/1.1 200 OK".toList = some 200 := by
    have htext : "HTTP/1.1 200 OK".toList =
        "HTTP/1.1 ".toList ++ decimal 200 ++ " ".toList ++ "OK".toList := by decide
    rw [htext]
    exact decodeStatus_eq 200 "OK".toList
  refine decodeResponse_lines hstatus (by decide) ?_ _
  have hplain : ∀ {name value : Str}, ':' ∉ name → OneLine name → OneLine value →
      PlainField (name, value) := fun hcolon hname hvalue => ⟨hcolon, hname, hvalue⟩
  unfold fallbackFields
  simp only [List.forall_mem_cons, List.not_mem_nil, false_implies, implies_true, and_true]
  exact ⟨hplain (by decide) (by decide) (by decide), hplain (by decide) (by decide) (oneLine_decimal _),
    hplain (by decide) (by decide) (by decide),
    hplain (by decide) (by decide) (oneLine_serverHeader exposeVersion)⟩

end Scety
