import Scety.Lib.Transition
import Scety.Network.Forwarding
import Scety.Network.Relay

/-!
# The exchange of a request for a response

Client, proxy and upstream, with the bytes that are under way between them.  The proxy has written
what it has read of the request and runs `relay_upstream_response`; the upstream answers when it has
all of the request.  With headers for the response the proxy first only reads from the upstream, so
a client that still has a part of its request to send is not heard, and all three wait.
-/

namespace Scety

open Effects Lines Streams Transition

/-- An exchange after the single write of the request: what was read and accepted, the part of the
request that the client still sends, and the response of the upstream. -/
structure Exchange where
  ctx : Context
  data : Bytes
  request : Request
  accepted : ctx.accepted data = some request
  maxBuf_pos : 0 < ctx.cfg.maxBuf
  rest : Bytes
  response : Bytes

namespace Exchange

variable (e : Exchange)

def maxBuf : ℕ := e.ctx.cfg.maxBuf

def extraHeaders : List (Str × Str) := responseHeaders e.ctx.cfg e.request.headersConfig

/-- What the proxy has written to the upstream. -/
def written : Bytes :=
  finalBuf .plain (upstreamHeaders e.ctx.cfg e.request.headersConfig e.ctx.clientIp) e.request.buf

/-- The request, as the upstream gets it. -/
def whole : Bytes := e.written ++ e.rest

/-- The proxy does not wait for the head of a response that has none. -/
def EndsLoop : Prop :=
  e.response = [] ∨ (findWindow crlfCrlf e.response).isSome = true ∨ e.maxBuf ≤ e.response.length

/-- No headers are added to the response, so that the proxy copies from the start; or nothing of the
request is left to be forwarded when it waits for the head of the response. -/
def Progresses : Prop := e.extraHeaders = [] ∨ e.rest = [] ∧ e.EndsLoop

end Exchange

/-- What each party has, and what is under way. -/
structure ExchangeState where
  proxy : Prog Op Op.Answer (Except Unit Unit)
  toSend : Bytes
  clientQueue : Bytes
  upstreamQueue : Bytes
  received : Bytes
  toRespond : Bytes
  responseQueue : Bytes
  clientReceived : Bytes

inductive Move where
  | clientSends
  | upstreamReceives
  | upstreamResponds
  | proxyReads
  | proxyWrites
  | forwardsRequest
  | forwardsResponse

/-- A step of one party, in any chunking.  `copy_bidirectional` forwards what is available in either
direction. -/
inductive ExchangeStep (e : Exchange) : ExchangeState → Move → ExchangeState → Prop where
  | clientSends {s chunk rest} : s.toSend = chunk ++ rest → chunk ≠ [] →
      ExchangeStep e s .clientSends
        { s with toSend := rest, clientQueue := s.clientQueue ++ chunk }
  | upstreamReceives {s chunk rest} : s.upstreamQueue = chunk ++ rest → chunk ≠ [] →
      ExchangeStep e s .upstreamReceives
        { s with upstreamQueue := rest, received := s.received ++ chunk }
  /-- The upstream responds only after it has received the whole request. -/
  | upstreamResponds {s chunk rest} : s.received = e.whole → s.toRespond = chunk ++ rest →
      chunk ≠ [] → ExchangeStep e s .upstreamResponds
        { s with toRespond := rest, responseQueue := s.responseQueue ++ chunk }
  | proxyReads {s len k n rest} : s.proxy = .perform (.readUpstream len) k →
      s.responseQueue = n.1 ++ rest → (n.1 = [] → len = 0) →
      ExchangeStep e s .proxyReads { s with proxy := k (.ok n), responseQueue := rest }
  | proxyWrites {s data k} : s.proxy = .perform (.writeClient (.relay data)) k →
      ExchangeStep e s .proxyWrites
        { s with proxy := k (.ok ()), clientReceived := s.clientReceived ++ data }
  | forwardsRequest {s k chunk rest} : s.proxy = .perform .copyBidirectional k →
      s.clientQueue = chunk ++ rest → chunk ≠ [] → ExchangeStep e s .forwardsRequest
        { s with clientQueue := rest, upstreamQueue := s.upstreamQueue ++ chunk }
  | forwardsResponse {s k chunk rest} : s.proxy = .perform .copyBidirectional k →
      s.responseQueue = chunk ++ rest → chunk ≠ [] → ExchangeStep e s .forwardsResponse
        { s with responseQueue := rest, clientReceived := s.clientReceived ++ chunk }

namespace Exchange

variable (e : Exchange)

/-- The proxy starts to relay; the client has sent nothing since. -/
def start : ExchangeState :=
  ⟨(relayUpstreamResponse e.extraHeaders e.maxBuf).run, e.rest, [], e.written, [], e.response, [], []⟩

def system : System ExchangeState Move where
  init s := s = e.start
  step := ExchangeStep e

/-- The upstream has the request, and the client has the response. -/
def Finished (s : ExchangeState) : Prop :=
  s.received = e.whole ∧ s.clientReceived = relayed e.extraHeaders e.maxBuf e.response

end Exchange

/-! ### The programs of the proxy -/

section Programs

variable {maxBuf : ℕ}

theorem run_copyBidirectional :
    copyBidirectional.run = .perform .copyBidirectional fun copied => .pure copied.result := rfl

/-- A write of the relay, then the copy. -/
def writeAndCopy (data : Bytes) : Io Unit := do
  writeClient (.relay data)
  copyBidirectional

theorem run_writeAndCopy (data : Bytes) :
    ∃ k, (writeAndCopy data).run = .perform (.writeClient (.relay data)) k ∧
      k (.ok ()) = copyBidirectional.run := ⟨_, rfl, rfl⟩

/-- What the loop does with bytes that it gets: it writes what is to be written so far, or it goes
on. -/
theorem run_relayLoop (extraHeaders : List (Str × Str)) (buf : ReadBuffer maxBuf) :
    ∃ k, (relayLoop extraHeaders buf).run = .perform (.readUpstream buf.free) k ∧
      ∀ n : { data : Bytes // data.length ≤ buf.free }, n.1 ≠ [] →
        (∃ data, k (.ok n) = (writeAndCopy data).run ∧
          ((findWindow crlfCrlf (buf.push n).data).isSome = true ∨ (buf.push n).isFull = true) ∧
          ∀ rest, data ++ rest = relayed extraHeaders maxBuf ((buf.push n).data ++ rest)) ∨
        (findWindow crlfCrlf (buf.push n).data = none ∧ ¬ (buf.push n).isFull = true ∧
          k (.ok n) = (relayLoop extraHeaders (buf.push n).growIfFull).run) := by
  rw [relayLoop]
  refine ⟨_, rfl, ?_⟩
  intro n hn
  have hfits : (buf.push n).data.length ≤ maxBuf :=
    (buf.push n).data_le.trans (buf.push n).len_le
  show (∃ data, ExceptT.run (if _ : n.1 = [] then _ else _) = _ ∧ _) ∨
    _ ∧ _ ∧ ExceptT.run (if _ : n.1 = [] then _ else _) = _
  rw [dif_neg hn]
  cases hpos : findWindow crlfCrlf (buf.push n).data with
  | some pos =>
    refine Or.inl ⟨_, rfl, Or.inl rfl, ?_⟩
    exact fun rest => (relayed_of_found hpos hfits rest).symm
  | none =>
    dsimp only
    by_cases hfull : (buf.push n).isFull = true
    · rw [if_pos hfull]
      refine Or.inl ⟨_, rfl, Or.inr hfull, ?_⟩
      exact fun rest => (relayed_of_full hpos ((ReadBuffer.isFull_iff _).mp hfull) rest).symm
    · rw [if_neg hfull]
      exact Or.inr ⟨rfl, hfull, rfl⟩

variable {op : Op} {k : Op.Answer op → Prog Op Op.Answer (Except Unit Unit)}

theorem op_of_relayLoop {extraHeaders : List (Str × Str)} {buf : ReadBuffer maxBuf}
    (h : (relayLoop extraHeaders buf).run = .perform op k) : op = .readUpstream buf.free := by
  obtain ⟨k', hrun, -⟩ := run_relayLoop extraHeaders buf
  exact (Prog.perform.inj (h.symm.trans hrun)).1

theorem op_of_writeAndCopy {data : Bytes} (h : (writeAndCopy data).run = .perform op k) :
    op = .writeClient (.relay data) := by
  obtain ⟨k', hrun, -⟩ := run_writeAndCopy data
  exact (Prog.perform.inj (h.symm.trans hrun)).1

theorem op_of_copyBidirectional (h : copyBidirectional.run = .perform op k) :
    op = .copyBidirectional := (Prog.perform.inj (h.symm.trans run_copyBidirectional)).1

end Programs

/-- Every run that writes to the upstream starts an exchange, whatever the client still sends and the
upstream responds. -/
theorem exists_exchange_of_writeUpstream {ctx : Context} {tr : Trace} {r : Except Unit Unit}
    (h : Completes ctx.processRequestInner tr r) {data : Bytes} {res : Except Unit Unit}
    (hw : (⟨.writeUpstream data, res⟩ : Event Op Op.Answer) ∈ tr) (rest response : Bytes) :
    ∃ e : Exchange, e.ctx = ctx ∧ e.data = delivered tr ∧ e.written = data ∧ e.rest = rest ∧
      e.response = response := by
  obtain ⟨request, -, -, -, -, -, -, hacc, hmax⟩ := exists_proxyRequest_of_writeUpstream h hw
  obtain ⟨request', hacc', rfl⟩ := exists_accepted_of_writeUpstream h hw
  obtain rfl := Option.some.inj (hacc.symm.trans hacc')
  refine ⟨⟨ctx, delivered tr, request, hacc, hmax, rest, response⟩, rfl, rfl, ?_, rfl, rfl⟩
  exact congrArg _ (Context.accepted_buf hacc)

/-! ### The invariant -/

/-- Where the proxy is, and what it has of the response.  While it waits for the head of the
response, what is left of the request stays where it is. -/
inductive Relaying (e : Exchange) (s : ExchangeState) : Prop where
  | reading (buf : ReadBuffer e.maxBuf) : e.extraHeaders ≠ [] →
      s.proxy = (relayLoop e.extraHeaders buf).run → 0 < buf.free →
      findWindow crlfCrlf buf.data = none → buf.data.length < e.maxBuf →
      buf.data ++ (s.responseQueue ++ s.toRespond) = e.response → s.clientReceived = [] →
      s.clientQueue ++ s.toSend = e.rest → Relaying e s
  | writing (data : Bytes) : e.rest = [] → e.EndsLoop → s.proxy = (writeAndCopy data).run →
      data ++ (s.responseQueue ++ s.toRespond) = relayed e.extraHeaders e.maxBuf e.response →
      s.clientReceived = [] → s.clientQueue ++ s.toSend = e.rest → Relaying e s
  | copying : e.Progresses → s.proxy = copyBidirectional.run →
      s.clientReceived ++ (s.responseQueue ++ s.toRespond) =
        relayed e.extraHeaders e.maxBuf e.response → Relaying e s

/-- No byte of the request is lost, and the upstream waits for all of it. -/
structure ExchangeInv (e : Exchange) (s : ExchangeState) : Prop where
  request : s.received ++ s.upstreamQueue ++ (s.clientQueue ++ s.toSend) = e.whole
  waits : s.toRespond = e.response ∨ s.received = e.whole
  relaying : Relaying e s

section Invariant

variable {e : Exchange} {s s' : ExchangeState}

/-- The steps of the client and of the upstream. -/
theorem Relaying.congr (h : Relaying e s) (hproxy : s'.proxy = s.proxy)
    (hgot : s'.clientReceived = s.clientReceived)
    (hresponse : s'.responseQueue ++ s'.toRespond = s.responseQueue ++ s.toRespond)
    (hrequest : s'.clientQueue ++ s'.toSend = s.clientQueue ++ s.toSend) : Relaying e s' := by
  cases h with
  | reading buf hextra hp hfree hnone hlt hdata hnil hrest =>
    exact .reading buf hextra (hproxy.trans hp) hfree hnone hlt (by rw [hresponse, hdata])
      (hgot.trans hnil) (hrequest.trans hrest)
  | writing data hall hends hp hdata hnil hrest =>
    exact .writing data hall hends (hproxy.trans hp) (by rw [hresponse, hdata]) (hgot.trans hnil)
      (hrequest.trans hrest)
  | copying hprogress hp hdata =>
    exact .copying hprogress (hproxy.trans hp) (by rw [hgot, hresponse, hdata])

/-- Once the upstream has responded, the proxy can have nothing of the request left to forward. -/
theorem ExchangeInv.rest_eq_nil (h : ExchangeInv e s) (hrest : s.clientQueue ++ s.toSend = e.rest)
    (hresponded : s.toRespond ≠ e.response) : e.rest = [] := by
  have hall := h.waits.resolve_left hresponded
  have hlen := congrArg List.length h.request
  rw [hall, hrest] at hlen
  simp only [List.length_append] at hlen
  exact List.eq_nil_of_length_eq_zero (by omega)

/-- A read gets something, since there is room for it. -/
theorem ExchangeInv.reads (h : ExchangeInv e s) {len : ℕ} {k}
    {n : { data : Bytes // data.length ≤ len }} {rest : Bytes}
    (hp : s.proxy = .perform (.readUpstream len) k) (hqueue : s.responseQueue = n.1 ++ rest)
    (hempty : n.1 = [] → len = 0) :
    n.1 ≠ [] ∧ Relaying e { s with proxy := k (.ok n), responseQueue := rest } := by
  cases h.relaying with
  | reading buf hextra hproxy hfree hnone hlt hdata hnil hrest =>
    obtain ⟨k', hrun, hread⟩ := run_relayLoop e.extraHeaders buf
    obtain ⟨hop, hk⟩ := Prog.perform.inj (hp.symm.trans (hproxy.trans hrun))
    obtain rfl := Op.readUpstream.inj hop
    obtain rfl := eq_of_heq hk
    have hn : n.1 ≠ [] := by
      intro h0
      have hlen := hempty h0
      omega
    refine ⟨hn, ?_⟩
    rw [hqueue] at hdata
    have hall : (buf.push n).data ++ (rest ++ s.toRespond) = e.response := by
      rw [← hdata, ReadBuffer.data_push]
      simp
    rcases hread n hn with ⟨data, hk, hends, hwrite⟩ | ⟨hnone', hfull, hk⟩
    · have hresponded : s.toRespond ≠ e.response := by
        intro heq
        have hlen := congrArg List.length hdata
        have hpos := List.length_pos_of_ne_nil hn
        simp only [heq, List.length_append] at hlen
        omega
      refine .writing data (h.rest_eq_nil hrest hresponded) (Or.inr ?_) hk
        ((hwrite _).trans (congrArg _ hall)) hnil hrest
      refine hends.imp ?_ ?_
      · intro hsome
        obtain ⟨pos, hpos⟩ := Option.isSome_iff_exists.mp hsome
        rw [← hall, (findWindow_append_iff (le_of_findWindow hpos) _).mpr hpos]
        rfl
      · intro hfull
        have hle := (ReadBuffer.isFull_iff _).mp hfull
        rw [← hall, List.length_append]
        omega
    · have hlt' : ¬ e.maxBuf ≤ (buf.push n).data.length :=
        fun hle => hfull ((ReadBuffer.isFull_iff _).mpr hle)
      refine .reading _ hextra hk (ReadBuffer.free_growIfFull (buf.push_ne_nil hn) hfull) ?_ ?_ ?_
        hnil hrest
      · rw [ReadBuffer.data_growIfFull, hnone']
      · rw [ReadBuffer.data_growIfFull]
        omega
      · rw [ReadBuffer.data_growIfFull]
        exact hall
  | writing data _ _ hproxy _ _ _ =>
    exact absurd (op_of_writeAndCopy (hproxy.symm.trans hp)) (by simp)
  | copying _ hproxy _ =>
    exact absurd (op_of_copyBidirectional (hproxy.symm.trans hp)) (by simp)

theorem Relaying.writes (h : Relaying e s) {data : Bytes} {k}
    (hp : s.proxy = .perform (.writeClient (.relay data)) k) :
    Relaying e { s with proxy := k (.ok ()), clientReceived := s.clientReceived ++ data } ∧
      k (.ok ()) = copyBidirectional.run := by
  cases h with
  | reading buf hextra hproxy hfree hnone hlt hdata hnil hrest =>
    exact absurd (op_of_relayLoop (hproxy.symm.trans hp)) (by simp)
  | writing data' hall hends hproxy hdata hnil hrest =>
    obtain ⟨k', hrun, hcopy⟩ := run_writeAndCopy data'
    obtain ⟨hop, hk⟩ := Prog.perform.inj (hp.symm.trans (hproxy.trans hrun))
    obtain rfl := Output.relay.inj (Op.writeClient.inj hop)
    obtain rfl := eq_of_heq hk
    refine ⟨.copying (Or.inr ⟨hall, hends⟩) hcopy ?_, hcopy⟩
    rw [hnil]
    exact hdata
  | copying _ hproxy _ =>
    exact absurd (op_of_copyBidirectional (hproxy.symm.trans hp)) (by simp)

/-- The copy has all of the response that the client has not got. -/
theorem Relaying.copies (h : Relaying e s) {k} (hp : s.proxy = .perform .copyBidirectional k) :
    e.Progresses ∧ s.proxy = copyBidirectional.run ∧
      s.clientReceived ++ (s.responseQueue ++ s.toRespond) =
        relayed e.extraHeaders e.maxBuf e.response := by
  cases h with
  | reading buf hextra hproxy hfree hnone hlt hdata hnil hrest =>
    exact absurd (op_of_relayLoop (hproxy.symm.trans hp)) (by simp)
  | writing data _ _ hproxy _ _ _ =>
    exact absurd (op_of_writeAndCopy (hproxy.symm.trans hp)) (by simp)
  | copying hprogress hproxy hdata => exact ⟨hprogress, hproxy, hdata⟩

theorem exchangeInv_start (e : Exchange) : ExchangeInv e e.start := by
  refine ⟨rfl, Or.inl rfl, ?_⟩
  by_cases hextra : e.extraHeaders = []
  · refine .copying (Or.inl hextra) ?_ ?_
    · show (relayUpstreamResponse e.extraHeaders e.maxBuf).run = _
      unfold relayUpstreamResponse
      rw [if_pos hextra]
    · rw [hextra, relayed_nil]
      rfl
  · refine .reading (.empty e.maxBuf) hextra ?_ (ReadBuffer.free_empty e.maxBuf_pos) rfl
      e.maxBuf_pos rfl rfl rfl
    show (relayUpstreamResponse e.extraHeaders e.maxBuf).run = _
    unfold relayUpstreamResponse
    rw [if_neg hextra]

/-- What a step keeps. -/
theorem ExchangeInv.step (h : ExchangeInv e s) {a : Move} (hstep : ExchangeStep e s a s') :
    ExchangeInv e s' := by
  have hrequest := h.request
  cases hstep with
  | @clientSends chunk rest hqueue _ =>
    rw [hqueue] at hrequest
    refine ⟨?_, h.waits, h.relaying.congr rfl rfl rfl ?_⟩
    · rw [← hrequest]
      simp
    · rw [hqueue]
      simp
  | @upstreamReceives chunk rest hqueue _ =>
    rw [hqueue] at hrequest
    have hrequest' : s.received ++ chunk ++ rest ++ (s.clientQueue ++ s.toSend) = e.whole := by
      rw [← hrequest]
      simp
    refine ⟨hrequest', ?_, h.relaying.congr rfl rfl rfl rfl⟩
    refine h.waits.imp_right fun hall => ?_
    have hlen := congrArg List.length (hrequest'.trans hall.symm)
    simp only [List.length_append] at hlen
    have hnil : chunk = [] := List.eq_nil_of_length_eq_zero (by omega)
    rw [hnil, List.append_nil, hall]
  | @upstreamResponds chunk rest hall hqueue _ =>
    refine ⟨hrequest, Or.inr hall, h.relaying.congr rfl rfl ?_ rfl⟩
    rw [hqueue]
    simp
  | @proxyReads len k n rest hp hqueue hempty =>
    exact ⟨hrequest, h.waits, (h.reads hp hqueue hempty).2⟩
  | @proxyWrites data k hp => exact ⟨hrequest, h.waits, (h.relaying.writes hp).1⟩
  | @forwardsRequest k chunk rest hp hqueue _ =>
    obtain ⟨hprogress, hproxy, hdata⟩ := h.relaying.copies hp
    rw [hqueue] at hrequest
    refine ⟨?_, h.waits, .copying hprogress hproxy hdata⟩
    rw [← hrequest]
    simp
  | @forwardsResponse k chunk rest hp hqueue _ =>
    obtain ⟨hprogress, hproxy, hdata⟩ := h.relaying.copies hp
    rw [hqueue] at hdata
    refine ⟨hrequest, h.waits, .copying hprogress hproxy ?_⟩
    rw [← hdata]
    simp

theorem exchangeInv_of_reachable (h : e.system.Reachable s) : ExchangeInv e s := by
  refine h.invariant ?_ fun s a s' _ hinv hstep => hinv.step hstep
  rintro s rfl
  exact exchangeInv_start e

/-! ### Every run stops -/

/-- Whether the next operation of the proxy is a write to the client. -/
def pendingWrite : Prog Op Op.Answer (Except Unit Unit) → ℕ
  | .perform (.writeClient _) _ => 1
  | _ => 0

theorem pendingWrite_le (p : Prog Op Op.Answer (Except Unit Unit)) : pendingWrite p ≤ 1 := by
  unfold pendingWrite
  split <;> omega

/-- How far the bytes still have to go. -/
def ExchangeState.distance (s : ExchangeState) : ℕ :=
  3 * s.toSend.length + 2 * s.clientQueue.length + s.upstreamQueue.length +
    3 * s.toRespond.length + 2 * s.responseQueue.length + pendingWrite s.proxy

theorem distance_lt (h : ExchangeInv e s) {a : Move} (hstep : ExchangeStep e s a s') :
    s'.distance < s.distance := by
  unfold ExchangeState.distance
  cases hstep with
  | @clientSends chunk rest hqueue h0 =>
    have hpos := List.length_pos_of_ne_nil h0
    simp only [hqueue, List.length_append]
    omega
  | @upstreamReceives chunk rest hqueue h0 =>
    have hpos := List.length_pos_of_ne_nil h0
    simp only [hqueue, List.length_append]
    omega
  | @upstreamResponds chunk rest _ hqueue h0 =>
    have hpos := List.length_pos_of_ne_nil h0
    simp only [hqueue, List.length_append]
    omega
  | @proxyReads len k n rest hp hqueue hempty =>
    have hpos := List.length_pos_of_ne_nil (h.reads hp hqueue hempty).1
    have hpending := pendingWrite_le (k (.ok n))
    simp only [hqueue, List.length_append]
    omega
  | @proxyWrites data k hp =>
    have hcopy : pendingWrite (k (.ok ())) = 0 := by
      rw [(h.relaying.writes hp).2]
      rfl
    have hwrite : pendingWrite s.proxy = 1 := by
      rw [hp]
      rfl
    simp only [hcopy, hwrite]
    omega
  | @forwardsRequest k chunk rest hp hqueue h0 =>
    have hpos := List.length_pos_of_ne_nil h0
    simp only [hqueue, List.length_append]
    omega
  | @forwardsResponse k chunk rest hp hqueue h0 =>
    have hpos := List.length_pos_of_ne_nil h0
    simp only [hqueue, List.length_append]
    omega

/-- In the loop for the head of the response, the exchange is finished only if there is nothing to
be forwarded and no response. -/
theorem finished_iff_of_reading (hnil : s.clientReceived = []) :
    e.Finished s ↔ s.received = e.whole ∧ e.response = [] := by
  refine and_congr_right fun _ => ?_
  rw [hnil]
  refine ⟨?_, ?_⟩
  · intro hrelayed
    by_contra h0
    exact relayed_ne_nil h0 hrelayed.symm
  · rintro h0
    rw [h0]
    rfl

/-- All that was received of the response has no head that the proxy finds. -/
theorem endsLoop_iff_of_reading {buf : ReadBuffer e.maxBuf}
    (hnone : findWindow crlfCrlf buf.data = none) (hlt : buf.data.length < e.maxBuf)
    (hdata : buf.data = e.response) : e.EndsLoop ↔ e.response = [] := by
  refine ⟨?_, Or.inl⟩
  rintro (hnil | hsome | hle)
  · exact hnil
  · rw [← hdata, hnone] at hsome
    exact absurd hsome (by simp)
  · rw [← hdata] at hle
    omega

/-- Where a run stops. -/
theorem terminal_iff (h : ExchangeInv e s) (hno : ∀ a s', ¬ ExchangeStep e s a s') :
    e.Finished s ↔ e.Progresses := by
  have hsend : s.toSend = [] := by
    by_contra h0
    exact hno _ _ (.clientSends (List.append_nil _).symm h0)
  have hupstream : s.upstreamQueue = [] := by
    by_contra h0
    exact hno _ _ (.upstreamReceives (List.append_nil _).symm h0)
  have hrespond : s.received = e.whole → s.toRespond = [] := by
    intro hall
    by_contra h0
    exact hno _ _ (.upstreamResponds hall (List.append_nil _).symm h0)
  have hrequest := h.request
  rw [hupstream, hsend, List.append_nil, List.append_nil] at hrequest
  cases h.relaying with
  | reading buf hextra hproxy hfree hnone hlt hdata hnil hrest =>
    obtain ⟨k, hrun, -⟩ := run_relayLoop e.extraHeaders buf
    have hqueue : s.responseQueue = [] := by
      by_contra h0
      refine hno _ _ (.proxyReads (hproxy.trans hrun)
        (n := ⟨s.responseQueue.take buf.free, List.length_take_le _ _⟩)
        (List.take_append_drop buf.free _).symm ?_)
      intro htake
      exact (List.take_eq_nil_iff.mp htake).resolve_right h0
    rw [finished_iff_of_reading hnil]
    rw [hsend, List.append_nil] at hrest
    rw [hqueue, List.nil_append] at hdata
    rw [Exchange.Progresses, or_iff_right hextra]
    have hall : s.received = e.whole ↔ e.rest = [] := by
      rw [← hrequest, ← hrest]
      exact ⟨fun heq => List.self_eq_append_right.mp heq, fun heq => by rw [heq, List.append_nil]⟩
    rw [hall]
    refine and_congr_right fun h0 => ?_
    rw [hrespond (hall.mpr h0), List.append_nil] at hdata
    exact (endsLoop_iff_of_reading hnone hlt hdata).symm
  | writing data _ _ hproxy _ _ _ =>
    obtain ⟨k, hrun, -⟩ := run_writeAndCopy data
    exact absurd (.proxyWrites (hproxy.trans hrun)) (hno _ _)
  | copying hprogress hproxy hdata =>
    refine iff_of_true ?_ hprogress
    have hcopy := hproxy.trans run_copyBidirectional
    have hclient : s.clientQueue = [] := by
      by_contra h0
      exact hno _ _ (.forwardsRequest hcopy (List.append_nil _).symm h0)
    have hqueue : s.responseQueue = [] := by
      by_contra h0
      exact hno _ _ (.forwardsResponse hcopy (List.append_nil _).symm h0)
    rw [hclient, List.append_nil] at hrequest
    rw [hqueue, hrespond hrequest, List.append_nil, List.append_nil] at hdata
    exact ⟨hrequest, hdata⟩

/-- Some run gets to where no step is possible. -/
theorem exists_terminal (e : Exchange) :
    ∃ s, e.system.Reachable s ∧ ∀ a s', ¬ e.system.step s a s' := by
  have hstart : e.system.Reachable e.start := .init rfl
  exact hstart.exists_terminal ExchangeState.distance
    fun s a s' hs hstep => distance_lt (exchangeInv_of_reachable hs) hstep

/-- **No deadlock**: in every reachable state of an exchange that is not finished some party can take
a step, and what the client has sent can be forwarded, if and only if no headers are configured for
the response, or all of the request was read before it was written and the response has a head that
the proxy finds. -/
theorem exchange_progress_iff (e : Exchange) :
    (∀ s, e.system.Reachable s →
      (¬ e.Finished s → ∃ a s', e.system.step s a s') ∧
        (s.clientQueue ≠ [] → ∃ s', e.system.step s .forwardsRequest s')) ↔ e.Progresses := by
  refine ⟨?_, ?_⟩
  · intro hall
    obtain ⟨s, hs, hno⟩ := exists_terminal e
    refine (terminal_iff (exchangeInv_of_reachable hs) hno).mp ?_
    by_contra hfinished
    obtain ⟨a, s', hstep⟩ := (hall s hs).1 hfinished
    exact hno a s' hstep
  · intro hprogress s hs
    have hinv := exchangeInv_of_reachable hs
    refine ⟨?_, ?_⟩
    · intro hfinished
      by_contra hno
      simp only [not_exists] at hno
      exact hfinished ((terminal_iff hinv hno).mpr hprogress)
    · intro hqueue
      have hwaits : s.clientQueue ++ s.toSend = e.rest → e.rest ≠ [] := by
        intro hrest hnil
        exact hqueue (List.append_eq_nil_iff.mp (hrest.trans hnil)).1
      cases hinv.relaying with
      | reading buf hextra _ _ _ _ _ _ hrest =>
        exact absurd (hprogress.resolve_left hextra).1 (hwaits hrest)
      | writing data hnil _ _ _ _ hrest => exact absurd hnil (hwaits hrest)
      | copying _ hproxy _ =>
        have hcopy := hproxy.trans run_copyBidirectional
        exact ⟨_, .forwardsRequest hcopy (List.append_nil _).symm hqueue⟩

end Invariant

/-! ### A deadlock -/

def postHead : Bytes := bytes "POST / HTTP/1.1\r\nHost: a\r\nContent-Length: 1\r\n\r\n".toList

def postHeaders : List Header :=
  [⟨"Host".toList, bytes "a".toList⟩, ⟨contentLengthName, bytes "1".toList⟩]

/-- A port that adds a header to the responses. -/
def postContext : Context where
  cfg := { plainSettings with globalResponseHeaders := AList.singleton "X-A".toList "1".toList }
  clientIp := "10.0.0.1:5000".toList
  exposeVersion := false
  router := HostRouter.new.addPattern "a".toList 0
  configs := [proxiedService]
  parse data := if data = postHead then .complete postHeaders else .incomplete

/-- The body of the request arrives after its head. -/
def postExchange : Exchange where
  ctx := postContext
  data := postHead
  request := ⟨postHead, some 3000, none, false⟩
  accepted := rfl
  maxBuf_pos := by decide
  rest := bytes "b".toList
  response := bytes "HTTP/1.1 204 No Content\r\n\r\n".toList

/-- With a header for the response, a body that arrives after the head is never forwarded. -/
theorem exchange_deadlocks :
    ¬ ∀ (e : Exchange) (s : ExchangeState), e.system.Reachable s →
      (¬ e.Finished s → ∃ a s', e.system.step s a s') ∧
        (s.clientQueue ≠ [] → ∃ s', e.system.step s .forwardsRequest s') := by
  intro hall
  obtain ⟨s, hs, hno⟩ := exists_terminal postExchange
  have hblocked : ¬ postExchange.Progresses := by
    rintro (hextra | ⟨hrest, -⟩)
    · exact absurd hextra (by decide)
    · exact absurd hrest (by decide)
  have hfinished : ¬ postExchange.Finished s :=
    fun h => hblocked ((terminal_iff (exchangeInv_of_reachable hs) hno).mp h)
  obtain ⟨a, s', hstep⟩ := (hall postExchange s hs).1 hfinished
  exact hno a s' hstep

end Scety
