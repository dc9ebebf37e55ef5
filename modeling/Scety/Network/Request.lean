import Scety.Core.HostRouter
import Scety.Lib.Effects
import Scety.Network.HeaderRewrite
import Scety.Network.Headers

/-!
# `network/listeners.rs`: serving one request

`process_request_inner` and what it calls, as programs over the operations on the two sockets and
the timers.  An operation is answered by the environment: every chunking of the bytes of a peer,
every error of a socket and every firing of a timer is an answer.
-/

namespace Scety

open Effects Lines

/-- What is written to the client: a page of `error_pages::send`, or bytes of the upstream. -/
inductive Output where
  | page (code : ℕ) (exposeVersion : Bool)
  | relay (data : Bytes)
  deriving DecidableEq

inductive Op where
  /-- Whether the timer fires before the next operation completes. -/
  | timerFires
  | readClient (len : ℕ)
  | writeClient (output : Output)
  | flushClient
  | connect (port : UInt16)
  | readUpstream (len : ℕ)
  | writeUpstream (data : Bytes)
  | copyBidirectional
  deriving DecidableEq

/-- The result of `read` into a slice of length `len`. -/
abbrev ReadResult (len : ℕ) := Except Unit { data : Bytes // data.length ≤ len }

/-- What `tokio::io::copy_bidirectional` has copied in each direction, and how it ended. -/
structure Copied where
  toClient : Bytes
  toUpstream : Bytes
  result : Except Unit Unit

def Op.Answer : Op → Type
  | timerFires => Bool
  | readClient len => ReadResult len
  | writeClient _ => Except Unit Unit
  | flushClient => Except Unit Unit
  | connect _ => Except Unit Unit
  | readUpstream len => ReadResult len
  | writeUpstream _ => Except Unit Unit
  | copyBidirectional => Copied

/-- Code that ends with `?` at an error of a socket. -/
abbrev Io := ExceptT Unit (Prog Op Op.Answer)

abbrev Trace := List (Event Op Op.Answer)

def perform (op : Op) : Prog Op Op.Answer op.Answer := Prog.op op

def readClient (len : ℕ) : Io { data : Bytes // data.length ≤ len } :=
  ExceptT.mk (perform (.readClient len))

def writeClient (output : Output) : Io Unit := ExceptT.mk (perform (.writeClient output))

def flushClient : Io Unit := ExceptT.mk (perform .flushClient)

def connectUpstream (port : UInt16) : Io Unit := ExceptT.mk (perform (.connect port))

def readUpstream (len : ℕ) : Io { data : Bytes // data.length ≤ len } :=
  ExceptT.mk (perform (.readUpstream len))

def writeUpstream (data : Bytes) : Io Unit := ExceptT.mk (perform (.writeUpstream data))

def copyBidirectional : Io Unit := ExceptT.mk (Copied.result <$> perform .copyBidirectional)

/-- `timeout(duration, future).await`: `none` if the timer fires first.  The duration decides when,
which the environment chooses. -/
def timeout {α : Type} (_duration : Duration) (future : Io α) : Io (Option (Except Unit α)) :=
  ExceptT.lift (withTimer .timerFires id future.run)

/-- The match on an optional timeout: with `none` the future runs without a timer. -/
def timeoutIfSome {α : Type} (duration : Option Duration) (future : Io α) :
    Io (Option (Except Unit α)) :=
  match duration with
  | some d => timeout d future
  | none => ExceptT.lift (some <$> future.run)

/-- `error_pages::send`. -/
def send (code : ℕ) (exposeVersion : Bool) : Io Unit := do
  writeClient (.page code exposeVersion)
  flushClient

/-! ### Reading into a growing buffer -/

/-- The buffer of a reading loop: `data` is `buf[..read_bytes]`, and `len` is `buf.len()`. -/
structure ReadBuffer (maxBuf : ℕ) where
  data : Bytes
  len : ℕ
  data_le : data.length ≤ len
  len_le : len ≤ maxBuf

namespace ReadBuffer

variable {maxBuf : ℕ}

/-- `vec![0u8; max_buf.min(4096)]`. -/
def empty (maxBuf : ℕ) : ReadBuffer maxBuf where
  data := []
  len := min maxBuf 4096
  data_le := Nat.zero_le _
  len_le := min_le_left _ _

/-- The length of `&mut buf[read_bytes..]`. -/
def free (buf : ReadBuffer maxBuf) : ℕ := buf.len - buf.data.length

/-- `read_bytes += n`. -/
def push (buf : ReadBuffer maxBuf) (n : { data : Bytes // data.length ≤ buf.free }) :
    ReadBuffer maxBuf where
  data := buf.data ++ n.1
  len := buf.len
  data_le := by
    have hn := n.2
    have hdata := buf.data_le
    unfold free at hn
    rw [List.length_append]
    omega
  len_le := buf.len_le

/-- `buf.resize((buf.len() * 2).min(max_buf), 0)`. -/
def grow (buf : ReadBuffer maxBuf) : ReadBuffer maxBuf where
  data := buf.data
  len := min (buf.len * 2) maxBuf
  data_le := by
    have hdata := buf.data_le
    have hlen := buf.len_le
    omega
  len_le := min_le_right _ _

/-- Doubled if it is full. -/
def growIfFull (buf : ReadBuffer maxBuf) : ReadBuffer maxBuf :=
  if buf.len ≤ buf.data.length then buf.grow else buf

/-- Full and as long as it may get. -/
def isFull (buf : ReadBuffer maxBuf) : Bool := buf.len ≤ buf.data.length ∧ maxBuf ≤ buf.len

@[simp] theorem data_push (buf : ReadBuffer maxBuf) (n) : (buf.push n).data = buf.data ++ n.1 := rfl

@[simp] theorem data_growIfFull (buf : ReadBuffer maxBuf) : buf.growIfFull.data = buf.data := by
  unfold growIfFull
  split_ifs <;> rfl

theorem isFull_iff (buf : ReadBuffer maxBuf) : buf.isFull = true ↔ maxBuf ≤ buf.data.length := by
  have hdata := buf.data_le
  have hlen := buf.len_le
  unfold isFull
  rw [decide_eq_true_eq]
  omega

/-- There is room for the next read. -/
theorem free_growIfFull {buf : ReadBuffer maxBuf} (h0 : buf.data ≠ []) (h : ¬ buf.isFull = true) :
    0 < buf.growIfFull.free := by
  rw [isFull_iff] at h
  have hpos : 0 < buf.data.length := List.length_pos_of_ne_nil h0
  have hdata := buf.data_le
  have hlen := buf.len_le
  unfold free
  rw [data_growIfFull]
  unfold growIfFull
  split_ifs with hfull
  · show 0 < min (buf.len * 2) maxBuf - buf.data.length
    omega
  · omega

theorem free_empty (hmax : 0 < maxBuf) : 0 < (empty maxBuf).free := by
  show 0 < min maxBuf 4096 - 0
  omega

theorem push_ne_nil (buf : ReadBuffer maxBuf) {n : { data : Bytes // data.length ≤ buf.free }}
    (h : n.1 ≠ []) : (buf.push n).data ≠ [] := List.append_ne_nil_of_right_ne_nil _ h

/-- Every read that is not the end of the stream brings the buffer closer to its bound. -/
theorem measure_push (buf : ReadBuffer maxBuf) {n : { data : Bytes // data.length ≤ buf.free }}
    (h : n.1 ≠ []) : maxBuf - (buf.push n).growIfFull.data.length < maxBuf - buf.data.length := by
  have hpos : 0 < n.1.length := List.length_pos_of_ne_nil h
  have hn := n.2
  have hlen := buf.len_le
  unfold free at hn
  rw [data_growIfFull, data_push, List.length_append]
  omega

end ReadBuffer

/-! ### `read_request` -/

/-- The result of `httparse::Request::parse`, with the entries of the array of headers. -/
inductive ParseResult where
  | complete (headers : List Header)
  | incomplete
  | error

/-- What a connection is served with. -/
structure Context where
  cfg : ScetyConfig
  clientIp : Str
  exposeVersion : Bool
  router : HostRouter
  configs : List ClientConfig
  /-- `httparse`, which is not part of the repository. -/
  parse : Bytes → ParseResult

/-- What `read_request` returns for an accepted request: `buf` is `buf[..read_bytes]`. -/
structure Request where
  buf : Bytes
  targetPort : Option UInt16
  headersConfig : Option HeadersConfig
  isWs : Bool

/-- `s.trim_start_matches(pat)`. -/
def trimStartMatches (pat s : Str) : Str :=
  (fun s => if pat.isPrefixOf s then s.drop pat.length else s)^[s.length] s

/-- `clean_host`. -/
def cleanHost (reqHost : Str) : Str :=
  ((trimStartMatches "https://".toList (trimStartMatches "http://".toList reqHost)).splitOn
    ':').head?.getD reqHost

/-- The first `Host` header, decoded and cleaned. -/
def requestHost (headers : List Header) : Option Str :=
  (headers.find? fun h => h.named "Host".toList).map fun h => cleanHost (fromUtf8Lossy h.value)

namespace Context

variable (ctx : Context)

/-- `search_router.find`, whose answer does not depend on its cache. -/
def find (host : Str) : Option ClientConfig :=
  (ctx.router.matches host).bind fun i => ctx.configs[i]?

/-- The branch of a complete head. -/
def completeRequest (data : Bytes) (headers : List Header) : Io (Option Request) :=
  match validateFramingHeaders headers with
  | .error _ => do
    send 400 ctx.exposeVersion
    return none
  | .ok () =>
    match requestHost headers with
    | some host =>
      if ctx.cfg.hostExceedsLabelLimit host then do
        send 423 ctx.exposeVersion
        return none
      else
        match ctx.find host with
        | some target =>
          return some ⟨data, target.upstream.bind (·.port), target.headers,
            isWebsocketUpgrade headers⟩
        | none => return none
    | none => return none

/-- The loop of `read_request`. -/
def readLoop (buf : ReadBuffer ctx.cfg.maxBuf) : Io (Option Request) := do
  let n ← readClient buf.free
  if _ : n.1 = [] then
    return none
  else
    match ctx.parse (buf.push n).data with
    | .complete headers => ctx.completeRequest (buf.push n).data headers
    | .incomplete =>
      if (buf.push n).isFull then
        send 431 ctx.exposeVersion
        return none
      else
        readLoop (buf.push n).growIfFull
    | .error => return none
termination_by ctx.cfg.maxBuf - buf.data.length
decreasing_by exact buf.measure_push ‹_›

def readRequest : Io (Option Request) := ctx.readLoop (.empty ctx.cfg.maxBuf)

end Context

/-! ### `relay_upstream_response` -/

/-- The loop that waits for the head of the response, and what follows it. -/
def relayLoop (extraHeaders : List (Str × Str)) {maxBuf : ℕ} (buf : ReadBuffer maxBuf) :
    Io Unit := do
  let n ← readUpstream buf.free
  if _ : n.1 = [] then
    writeClient (.relay buf.data)
  else
    match findWindow crlfCrlf (buf.push n).data with
    | some pos =>
      let names := extraHeaders.map fun e => bytes e.1
      writeClient (.relay (rewriteHead .plain names extraHeaders pos (buf.push n).data))
      copyBidirectional
    | none =>
      if (buf.push n).isFull then
        writeClient (.relay (buf.push n).data)
        copyBidirectional
      else
        relayLoop extraHeaders (buf.push n).growIfFull
termination_by maxBuf - buf.data.length
decreasing_by exact buf.measure_push ‹_›

def relayUpstreamResponse (extraHeaders : List (Str × Str)) (maxBuf : ℕ) : Io Unit :=
  if extraHeaders = [] then copyBidirectional
  else relayLoop extraHeaders (.empty maxBuf)

/-! ### `process_request_inner` -/

namespace Context

variable (ctx : Context)

/-- The body of the innermost branch, after the connection to the upstream is there. -/
def proxyRequest (request : Request) : Io Unit := do
  let headers := upstreamHeaders ctx.cfg request.headersConfig ctx.clientIp
  writeUpstream (finalBuf .plain headers request.buf)
  let copy := relayUpstreamResponse (responseHeaders ctx.cfg request.headersConfig) ctx.cfg.maxBuf
  if request.isWs then
    copy
  else
    match ← timeoutIfSome ctx.cfg.clientBodyTimeout copy with
    | some result => ExceptT.mk (pure result)
    | none => return ()

/-- The branch of an accepted request. -/
def acceptedRequest (request : Request) : Io Unit :=
  match request.targetPort with
  | none => send 502 ctx.exposeVersion
  | some port => do
    match ← timeout 30000000000 (connectUpstream port) with
    | none => send 504 ctx.exposeVersion
    | some (.error _) => send 502 ctx.exposeVersion
    | some (.ok ()) => ctx.proxyRequest request

def processRequestInner : Io Unit := do
  match ← timeoutIfSome ctx.cfg.clientHeadersTimeout ctx.readRequest with
  | none => send 408 ctx.exposeVersion
  | some (.error e) => throw e
  | some (.ok none) => send 404 ctx.exposeVersion
  | some (.ok (some request)) => ctx.acceptedRequest request

end Context

end Scety
