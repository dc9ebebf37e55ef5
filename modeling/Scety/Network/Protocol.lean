import Scety.Lib.Monitor
import Scety.Network.RequestRuns

/-!
# `network/listeners.rs`: the protocol of a connection

What a connection may do, as an automaton over its operations: it reads the head, may be rejected with a
page, is dialed, forwarded once and relayed, or ends with a page.  The automaton decides on the bytes
that were read.  Every partial run of `process_request_inner` is one that it accepts
(`obeys_processRequestInner`).
-/

namespace Scety

open Effects Lines

/-- How far the serving of a connection has come. -/
inductive Stage where
  /-- These bytes of a head were read. -/
  | reading (data : Bytes)
  /-- The page of a rejection is to be written. -/
  | rejecting (code : ℕ)
  /-- The page of a rejection is to be flushed. -/
  | rejected
  /-- The page that ends the connection is to be written. -/
  | failing (code : ℕ)
  /-- The page that ends the connection is to be flushed. -/
  | failed
  | dialing (request : Request) (port : UInt16)
  | connected (request : Request)
  | relaying
  | closed
  /-- A socket failed. -/
  | broken

namespace Context

variable (ctx : Context)

/-- The stage of an accepted request. -/
def stageOfRequest (request : Request) : Stage :=
  match request.targetPort with
  | some port => .dialing request port
  | none => .failing 502

/-- The stage after these bytes were read. -/
def stageOf (data : Bytes) : Stage :=
  match ctx.rejection data with
  | some code => .rejecting code
  | none =>
    match ctx.accepted data with
    | some request => stageOfRequest request
    | none =>
      match ctx.parse data with
      | .incomplete => .reading data
      | _ => .failing 404

/-- What is written to the upstream of an accepted request. -/
def forwarded (request : Request) : Bytes :=
  finalBuf .plain (upstreamHeaders ctx.cfg request.headersConfig ctx.clientIp) request.buf

/-- The stage after a timer, which fires or does not. -/
def ifLate (fired : Bool) (late stage : Stage) : Stage := if fired then late else stage

/-- The stage after a write or a flush. -/
def whenOk (r : Except Unit Unit) (stage : Stage) : Stage :=
  match r with
  | .ok _ => stage
  | .error _ => .broken

/-- The stage after an event, if the protocol allows it. -/
def nextStage : Stage → Event Op Op.Answer → Option Stage
  | .reading data, ⟨.timerFires, fired⟩ => some (ifLate fired (.failing 408) (.reading data))
  | .reading _, ⟨.readClient _, .error _⟩ => some .broken
  | .reading data, ⟨.readClient _, .ok n⟩ =>
    some (if n.1 = [] then .failing 404 else ctx.stageOf (data ++ n.1))
  | .rejecting code, ⟨.timerFires, fired⟩ => some (ifLate fired (.failing 408) (.rejecting code))
  | .rejecting code, ⟨.writeClient output, r⟩ =>
    if output = .page code ctx.exposeVersion then some (whenOk r .rejected) else none
  | .rejected, ⟨.timerFires, fired⟩ => some (ifLate fired (.failing 408) .rejected)
  | .rejected, ⟨.flushClient, r⟩ => some (whenOk r (.failing 404))
  | .failing code, ⟨.writeClient output, r⟩ =>
    if output = .page code ctx.exposeVersion then some (whenOk r .failed) else none
  | .failed, ⟨.flushClient, r⟩ => some (whenOk r .closed)
  | .dialing request port, ⟨.timerFires, fired⟩ =>
    some (ifLate fired (.failing 504) (.dialing request port))
  | .dialing request port, ⟨.connect port', r⟩ =>
    if port' = port then
      match r with
      | .ok _ => some (.connected request)
      | .error _ => some (.failing 502)
    else none
  | .connected request, ⟨.writeUpstream data, r⟩ =>
    if data = ctx.forwarded request then some (whenOk r .relaying) else none
  | .relaying, ⟨.timerFires, fired⟩ => some (ifLate fired .closed .relaying)
  | .relaying, ⟨.readUpstream _, r⟩ =>
    match r with
    | .ok _ => some .relaying
    | .error _ => some .broken
  | .relaying, ⟨.writeClient (.relay _), r⟩ => some (whenOk r .relaying)
  | .relaying, ⟨.copyBidirectional, copied⟩ => some (whenOk (Copied.result copied) .closed)
  | _, _ => none

def protocol : Monitor Op Op.Answer Stage where
  next := ctx.nextStage

end Context

/-! ### Every run follows the protocol -/

section Obeys

variable {ctx : Context}

/-- A complete head is rejected or decided. -/
theorem Context.completeRequest_eq {data : Bytes} {headers : List Header} (h0 : data ≠ [])
    (hparse : ctx.parse data = .complete headers) :
    ctx.completeRequest data headers = match ctx.rejection data with
      | some code => do send code ctx.exposeVersion; return none
      | none => return ctx.accepted data := by
  unfold completeRequest rejection accepted
  rw [if_neg h0, hparse]
  dsimp only
  cases validateFramingHeaders headers with
  | error e => rfl
  | ok u =>
    dsimp only
    cases requestHost headers with
    | none => rfl
    | some host =>
      dsimp only
      rw [Option.bind_eq_bind, Option.bind_some]
      cases hlimit : ctx.cfg.hostExceedsLabelLimit host with
      | true => rfl
      | false =>
        cases ctx.find host with
        | none => rfl
        | some target => rfl

/-- The timer of the head may fire here. -/
def Stage.InHead : Stage → Prop
  | .reading _ => True
  | .rejecting _ => True
  | .rejected => True
  | _ => False

/-- The stage when `read_request` has returned. -/
def Stage.ReadDone (r : Except Unit (Option Request)) (stage : Stage) : Prop :=
  match r with
  | .error _ => stage = .broken
  | .ok none => stage = .failing 404
  | .ok (some request) => stage = Context.stageOfRequest request

/-- The stage when everything is done: the result is an error if a socket failed, and an exchange may
end while it is relayed. -/
def Stage.Over (r : Except Unit Unit) (stage : Stage) : Prop :=
  match r with
  | .error _ => stage = .broken
  | .ok _ => stage = .relaying ∨ stage = .closed

theorem over_whenOk (r : Except Unit Unit) : Stage.Over r (Context.whenOk r .closed) := by
  cases r with
  | error e => exact rfl
  | ok u => exact Or.inr rfl

/-- The page that ends the connection. -/
theorem obeys_send_failing (code : ℕ) :
    Obeys ctx.protocol (fun _ => True) Stage.Over (send code ctx.exposeVersion).run
      (.failing code) := by
  refine ⟨trivial, ?_⟩
  intro r
  refine ⟨Context.whenOk r .failed, if_pos rfl, ?_⟩
  cases r with
  | error e => exact rfl
  | ok u => exact ⟨trivial, fun r' => ⟨Context.whenOk r' .closed, rfl, over_whenOk r'⟩⟩

/-- The page of a rejection, and what follows it. -/
theorem obeys_reject (code : ℕ) :
    Obeys ctx.protocol Stage.InHead Stage.ReadDone
      (do send code ctx.exposeVersion; return none : Io (Option Request)).run (.rejecting code) := by
  have hsend : Obeys ctx.protocol Stage.InHead
      (fun r stage => stage = Context.whenOk r (.failing 404))
      (send code ctx.exposeVersion).run (.rejecting code) := by
    refine ⟨trivial, ?_⟩
    intro r
    refine ⟨Context.whenOk r .rejected, if_pos rfl, ?_⟩
    cases r with
    | error e => exact rfl
    | ok u => exact ⟨trivial, fun r' => ⟨Context.whenOk r' (.failing 404), rfl, rfl⟩⟩
  exact hsend.bind_run (fun _ _ h => h) fun _ _ h => h

theorem obeys_readLoop (buf : ReadBuffer ctx.cfg.maxBuf) :
    Obeys ctx.protocol Stage.InHead Stage.ReadDone (ctx.readLoop buf).run (.reading buf.data) := by
  induction buf using Context.readLoop.induct with
  | case1 buf ih =>
    rw [Context.readLoop]
    refine ⟨trivial, ?_⟩
    intro r
    cases r with
    | error e => exact ⟨.broken, rfl, rfl⟩
    | ok n =>
      refine ⟨if n.1 = [] then .failing 404 else ctx.stageOf (buf.push n).data, rfl, ?_⟩
      show Obeys _ _ _ (ExceptT.run (if _ : n.1 = [] then _ else _)) _
      by_cases hn : n.1 = []
      · rw [dif_pos hn, if_pos hn]
        exact rfl
      · rw [dif_neg hn, if_neg hn]
        have h0 := buf.push_ne_nil hn
        unfold Context.stageOf
        cases hparse : ctx.parse (buf.push n).data with
        | complete headers =>
          dsimp only
          rw [Context.completeRequest_eq h0 hparse]
          cases ctx.rejection (buf.push n).data with
          | some code => exact obeys_reject code
          | none =>
            dsimp only
            cases ctx.accepted (buf.push n).data with
            | none => exact rfl
            | some request => exact rfl
        | incomplete =>
          have hrej : ctx.rejection (buf.push n).data =
              if ctx.cfg.maxBuf ≤ (buf.push n).data.length then some 431 else none := by
            unfold Context.rejection
            rw [if_neg h0, hparse]
          have hacc : ctx.accepted (buf.push n).data = none := by
            unfold Context.accepted
            rw [hparse]
          rw [hrej, hacc]
          dsimp only
          by_cases hfull : (buf.push n).isFull = true
          · rw [if_pos hfull, if_pos ((ReadBuffer.isFull_iff _).mp hfull)]
            exact obeys_reject 431
          · rw [if_neg hfull, if_neg fun h => hfull ((ReadBuffer.isFull_iff _).mpr h)]
            have hloop := ih n hn
            rwa [ReadBuffer.data_growIfFull] at hloop
        | error =>
          have hrej : ctx.rejection (buf.push n).data = none := by
            unfold Context.rejection
            rw [if_neg h0, hparse]
          have hacc : ctx.accepted (buf.push n).data = none := by
            unfold Context.accepted
            rw [hparse]
          rw [hrej, hacc]
          exact rfl

/-- The stage when a timer has fired, or the future under it has ended. -/
def Stage.Timed {α : Type} (late : Stage) (done : Except Unit α → Stage → Prop)
    (r : Except Unit (Option (Except Unit α))) (stage : Stage) : Prop :=
  match r with
  | .error _ => False
  | .ok none => stage = late
  | .ok (some a) => done a stage

/-- A timer leaves the stages alone in which it runs, until it fires. -/
theorem obeys_timeoutIfSome {α : Type} {duration : Option Duration} {p : Io α} {stage : Stage}
    {I : Stage → Prop} {late : Stage} {done : Except Unit α → Stage → Prop}
    (hnext : ∀ s fired, I s → ctx.nextStage s ⟨.timerFires, fired⟩ = some (Context.ifLate fired late s))
    (h : Obeys ctx.protocol I done p.run stage) :
    Obeys ctx.protocol I (Stage.Timed late done) (timeoutIfSome duration p).run stage := by
  cases duration with
  | none =>
    have hmap : Obeys ctx.protocol I (fun a => Stage.Timed late done (.ok a)) (some <$> p.run) stage :=
      Obeys.map h
    exact Obeys.map hmap
  | some d =>
    have htimer : Obeys ctx.protocol I (fun a => Stage.Timed late done (.ok a))
        (withTimer Op.timerFires id p.run) stage := by
      refine Obeys.withTimer ?_ ?_ h
      · intro s fired hs hfired
        have hf : fired = false := hfired
        subst hf
        exact hnext s false hs
      · intro s fired hs hfired
        have hf : fired = true := hfired
        subst hf
        exact ⟨late, hnext s true hs, rfl⟩
    exact Obeys.map htimer

theorem obeys_copyBidirectional :
    Obeys ctx.protocol (· = .relaying) Stage.Over copyBidirectional.run .relaying :=
  ⟨rfl, fun copied => ⟨Context.whenOk (Copied.result copied) .closed, rfl, over_whenOk _⟩⟩

theorem obeys_writeRelay (data : Bytes) :
    Obeys ctx.protocol (· = .relaying) (fun r stage => stage = Context.whenOk r .relaying)
      (writeClient (.relay data)).run .relaying :=
  ⟨rfl, fun r => ⟨Context.whenOk r .relaying, rfl, rfl⟩⟩

/-- A write to the client, and then the rest of the stream. -/
theorem obeys_writeRelay_copy (data : Bytes) :
    Obeys ctx.protocol (· = .relaying) Stage.Over
      (do writeClient (.relay data); copyBidirectional : Io Unit).run .relaying := by
  refine (obeys_writeRelay data).bind_run (fun _ _ h => h) ?_
  rintro _ _ rfl
  exact obeys_copyBidirectional

theorem obeys_relayLoop (extraHeaders : List (Str × Str)) {maxBuf : ℕ} (buf : ReadBuffer maxBuf) :
    Obeys ctx.protocol (· = .relaying) Stage.Over (relayLoop extraHeaders buf).run
      .relaying := by
  induction buf using relayLoop.induct with
  | case1 buf ih =>
    rw [relayLoop]
    refine ⟨rfl, ?_⟩
    intro r
    cases r with
    | error e => exact ⟨.broken, rfl, rfl⟩
    | ok n =>
      refine ⟨.relaying, rfl, ?_⟩
      show Obeys _ _ _ (ExceptT.run (if _ : n.1 = [] then _ else _)) _
      by_cases hn : n.1 = []
      · rw [dif_pos hn]
        refine (obeys_writeRelay buf.data).mono (fun _ h => h) ?_
        rintro r' _ rfl
        cases r' with
        | error e => exact rfl
        | ok u => exact Or.inl rfl
      · rw [dif_neg hn]
        cases hfind : findWindow crlfCrlf (buf.push n).data with
        | some pos => exact obeys_writeRelay_copy _
        | none =>
          dsimp only
          split_ifs
          · exact obeys_writeRelay_copy _
          · exact ih n hn

theorem obeys_proxyRequest (request : Request) :
    Obeys ctx.protocol (fun _ => True) Stage.Over (ctx.proxyRequest request).run
      (.connected request) := by
  have hrelay : Obeys ctx.protocol (· = .relaying) Stage.Over
      (relayUpstreamResponse (responseHeaders ctx.cfg request.headersConfig) ctx.cfg.maxBuf).run
      .relaying := by
    unfold relayUpstreamResponse
    split_ifs
    · exact obeys_copyBidirectional
    · exact obeys_relayLoop _ _
  have hwrite : Obeys ctx.protocol (fun _ => True) (fun r stage => stage = Context.whenOk r .relaying)
      (writeUpstream (ctx.forwarded request)).run (.connected request) :=
    ⟨trivial, fun r => ⟨Context.whenOk r .relaying, if_pos rfl, rfl⟩⟩
  refine hwrite.bind_run (fun _ _ h => h) ?_
  rintro _ _ rfl
  dsimp only
  split_ifs
  · exact hrelay.mono (fun _ _ => trivial) fun _ _ h => h
  · have htimed : Obeys ctx.protocol (· = .relaying) (Stage.Timed .closed Stage.Over)
        (timeoutIfSome ctx.cfg.clientBodyTimeout (relayUpstreamResponse
          (responseHeaders ctx.cfg request.headersConfig) ctx.cfg.maxBuf)).run .relaying := by
      refine obeys_timeoutIfSome ?_ hrelay
      rintro _ fired rfl
      rfl
    refine (htimed.mono (fun _ _ => trivial) fun _ _ h => h).bind_run (fun _ _ h => h.elim) ?_
    intro result stage hstage
    rcases result with _ | result
    · exact Or.inr hstage
    · exact hstage

theorem obeys_acceptedRequest (request : Request) :
    Obeys ctx.protocol (fun _ => True) Stage.Over (ctx.acceptedRequest request).run
      (Context.stageOfRequest request) := by
  unfold Context.acceptedRequest Context.stageOfRequest
  cases request.targetPort with
  | none => exact obeys_send_failing 502
  | some port =>
    have hconnect : Obeys ctx.protocol (· = .dialing request port)
        (fun r stage => stage = match r with | .ok _ => .connected request | .error _ => .failing 502)
        (connectUpstream port).run (.dialing request port) := by
      refine ⟨rfl, ?_⟩
      intro r
      cases r with
      | error e => exact ⟨.failing 502, if_pos rfl, rfl⟩
      | ok u => exact ⟨.connected request, if_pos rfl, rfl⟩
    have htimed : Obeys ctx.protocol (· = .dialing request port) (Stage.Timed (.failing 504) fun r stage =>
          stage = match r with | .ok _ => .connected request | .error _ => .failing 502)
        (timeoutIfSome (some 30000000000) (connectUpstream port)).run (.dialing request port) := by
      refine obeys_timeoutIfSome ?_ hconnect
      rintro _ fired rfl
      rfl
    refine (htimed.mono (fun _ _ => trivial) fun _ _ h => h).bind_run (fun _ _ h => h.elim) ?_
    intro result stage hstage
    rcases result with _ | _ | _
    · obtain rfl : stage = .failing 504 := hstage
      exact obeys_send_failing 504
    · obtain rfl : stage = .failing 502 := hstage
      exact obeys_send_failing 502
    · obtain rfl : stage = .connected request := hstage
      exact obeys_proxyRequest request

theorem obeys_processRequestInner :
    Obeys ctx.protocol (fun _ => True) Stage.Over ctx.processRequestInner.run (.reading []) := by
  have hread : Obeys ctx.protocol Stage.InHead (Stage.Timed (.failing 408) Stage.ReadDone)
      (timeoutIfSome ctx.cfg.clientHeadersTimeout ctx.readRequest).run (.reading []) := by
    refine obeys_timeoutIfSome ?_ (obeys_readLoop (.empty ctx.cfg.maxBuf))
    intro stage fired hstage
    cases stage with
    | reading data => rfl
    | rejecting code => rfl
    | rejected => rfl
    | _ => exact hstage.elim
  refine (hread.mono (fun _ _ => trivial) fun _ _ h => h).bind_run (fun _ _ h => h.elim) ?_
  intro result stage hstage
  rcases result with _ | _ | _ | request
  · obtain rfl : stage = .failing 408 := hstage
    exact obeys_send_failing 408
  · obtain rfl : stage = .broken := hstage
    exact rfl
  · obtain rfl : stage = .failing 404 := hstage
    exact obeys_send_failing 404
  · obtain rfl : stage = Context.stageOfRequest request := hstage
    exact obeys_acceptedRequest request

end Obeys

/-! ### The events that the protocol allows -/

/-- The events that a stage allows, with the stage after each of them. -/
inductive Next (ctx : Context) : Stage → Event Op Op.Answer → Stage → Prop where
  | headTimer {stage} (fired : Bool) : stage.InHead →
      Next ctx stage ⟨.timerFires, fired⟩ (Context.ifLate fired (.failing 408) stage)
  | readLost {data len e} : Next ctx (.reading data) ⟨.readClient len, .error e⟩ .broken
  | readEnd {data len n} : n.1 = [] → Next ctx (.reading data) ⟨.readClient len, .ok n⟩ (.failing 404)
  | readMore {data len n} : n.1 ≠ [] →
      Next ctx (.reading data) ⟨.readClient len, .ok n⟩ (ctx.stageOf (data ++ n.1))
  | rejects {code} (r : Except Unit Unit) :
      Next ctx (.rejecting code) ⟨.writeClient (.page code ctx.exposeVersion), r⟩
        (Context.whenOk r .rejected)
  | rejectedFlush (r : Except Unit Unit) :
      Next ctx .rejected ⟨.flushClient, r⟩ (Context.whenOk r (.failing 404))
  | fails {code} (r : Except Unit Unit) :
      Next ctx (.failing code) ⟨.writeClient (.page code ctx.exposeVersion), r⟩
        (Context.whenOk r .failed)
  | failedFlush (r : Except Unit Unit) :
      Next ctx .failed ⟨.flushClient, r⟩ (Context.whenOk r .closed)
  | dialTimer {request port} (fired : Bool) : Next ctx (.dialing request port)
      ⟨.timerFires, fired⟩ (Context.ifLate fired (.failing 504) (.dialing request port))
  | refused {request port e} :
      Next ctx (.dialing request port) ⟨.connect port, .error e⟩ (.failing 502)
  | connects {request port u} :
      Next ctx (.dialing request port) ⟨.connect port, .ok u⟩ (.connected request)
  | forwards {request} (r : Except Unit Unit) : Next ctx (.connected request)
      ⟨.writeUpstream (ctx.forwarded request), r⟩ (Context.whenOk r .relaying)
  | relayTimer (fired : Bool) :
      Next ctx .relaying ⟨.timerFires, fired⟩ (Context.ifLate fired .closed .relaying)
  | relayLost {len e} : Next ctx .relaying ⟨.readUpstream len, .error e⟩ .broken
  | relayRead {len n} : Next ctx .relaying ⟨.readUpstream len, .ok n⟩ .relaying
  | relayWrite {data} (r : Except Unit Unit) :
      Next ctx .relaying ⟨.writeClient (.relay data), r⟩ (Context.whenOk r .relaying)
  | relayCopy (copied : Copied) :
      Next ctx .relaying ⟨.copyBidirectional, copied⟩ (Context.whenOk copied.result .closed)

section NextStage

variable {ctx : Context} {stage stage' : Stage} {ev : Event Op Op.Answer}

theorem next_of_reading {data : Bytes} (h : ctx.nextStage (.reading data) ev = some stage') :
    Next ctx (.reading data) ev stage' := by
  obtain ⟨op, r⟩ := ev
  cases op with
  | timerFires =>
    obtain rfl := Option.some.inj h
    exact .headTimer _ trivial
  | readClient len =>
    cases r with
    | error e =>
      obtain rfl := Option.some.inj h
      exact .readLost
    | ok n =>
      obtain rfl := Option.some.inj h
      split_ifs with hn
      · exact .readEnd hn
      · exact .readMore hn
  | _ => exact absurd h.symm (Option.some_ne_none _)

theorem next_of_rejecting {code : ℕ} (h : ctx.nextStage (.rejecting code) ev = some stage') :
    Next ctx (.rejecting code) ev stage' := by
  obtain ⟨op, r⟩ := ev
  cases op with
  | timerFires =>
    obtain rfl := Option.some.inj h
    exact .headTimer _ trivial
  | writeClient output =>
    obtain ⟨rfl, hs⟩ := Option.ite_none_right_eq_some.mp h
    obtain rfl := Option.some.inj hs
    exact .rejects r
  | _ => exact absurd h.symm (Option.some_ne_none _)

theorem next_of_rejected (h : ctx.nextStage .rejected ev = some stage') :
    Next ctx .rejected ev stage' := by
  obtain ⟨op, r⟩ := ev
  cases op with
  | timerFires =>
    obtain rfl := Option.some.inj h
    exact .headTimer _ trivial
  | flushClient =>
    obtain rfl := Option.some.inj h
    exact .rejectedFlush r
  | _ => exact absurd h.symm (Option.some_ne_none _)

theorem next_of_failing {code : ℕ} (h : ctx.nextStage (.failing code) ev = some stage') :
    Next ctx (.failing code) ev stage' := by
  obtain ⟨op, r⟩ := ev
  cases op with
  | writeClient output =>
    obtain ⟨rfl, hs⟩ := Option.ite_none_right_eq_some.mp h
    obtain rfl := Option.some.inj hs
    exact .fails r
  | _ => exact absurd h.symm (Option.some_ne_none _)

theorem next_of_failed (h : ctx.nextStage .failed ev = some stage') :
    Next ctx .failed ev stage' := by
  obtain ⟨op, r⟩ := ev
  cases op with
  | flushClient =>
    obtain rfl := Option.some.inj h
    exact .failedFlush r
  | _ => exact absurd h.symm (Option.some_ne_none _)

theorem next_of_dialing {request : Request} {port : UInt16}
    (h : ctx.nextStage (.dialing request port) ev = some stage') :
    Next ctx (.dialing request port) ev stage' := by
  obtain ⟨op, r⟩ := ev
  cases op with
  | timerFires =>
    obtain rfl := Option.some.inj h
    exact .dialTimer _
  | connect port' =>
    obtain ⟨rfl, hs⟩ := Option.ite_none_right_eq_some.mp h
    cases r with
    | error e =>
      obtain rfl := Option.some.inj hs
      exact .refused
    | ok u =>
      obtain rfl := Option.some.inj hs
      exact .connects
  | _ => exact absurd h.symm (Option.some_ne_none _)

theorem next_of_connected {request : Request}
    (h : ctx.nextStage (.connected request) ev = some stage') :
    Next ctx (.connected request) ev stage' := by
  obtain ⟨op, r⟩ := ev
  cases op with
  | writeUpstream data =>
    obtain ⟨rfl, hs⟩ := Option.ite_none_right_eq_some.mp h
    obtain rfl := Option.some.inj hs
    exact .forwards r
  | _ => exact absurd h.symm (Option.some_ne_none _)

theorem next_of_relaying (h : ctx.nextStage .relaying ev = some stage') :
    Next ctx .relaying ev stage' := by
  obtain ⟨op, r⟩ := ev
  cases op with
  | timerFires =>
    obtain rfl := Option.some.inj h
    exact .relayTimer _
  | readUpstream len =>
    cases r with
    | error e =>
      obtain rfl := Option.some.inj h
      exact .relayLost
    | ok n =>
      obtain rfl := Option.some.inj h
      exact .relayRead
  | writeClient output =>
    cases output with
    | page code v => exact absurd h.symm (Option.some_ne_none _)
    | relay data =>
      obtain rfl := Option.some.inj h
      exact .relayWrite r
  | copyBidirectional =>
    obtain rfl := Option.some.inj h
    exact .relayCopy r
  | _ => exact absurd h.symm (Option.some_ne_none _)

/-- What a stage goes on with is one of the events above. -/
theorem next_of_nextStage (h : ctx.nextStage stage ev = some stage') : Next ctx stage ev stage' := by
  cases stage with
  | reading data => exact next_of_reading h
  | rejecting code => exact next_of_rejecting h
  | rejected => exact next_of_rejected h
  | failing code => exact next_of_failing h
  | failed => exact next_of_failed h
  | dialing request port => exact next_of_dialing h
  | connected request => exact next_of_connected h
  | relaying => exact next_of_relaying h
  | closed =>
    obtain ⟨op, r⟩ := ev
    cases op <;> exact absurd h.symm (Option.some_ne_none _)
  | broken =>
    obtain ⟨op, r⟩ := ev
    cases op <;> exact absurd h.symm (Option.some_ne_none _)

end NextStage

/-! ### What has happened at a stage -/

/-- The event reads from the client, or is of a timer. -/
def Op.isHeadOp : Op → Bool
  | timerFires => true
  | readClient _ => true
  | _ => false

/-- The operations on the connection to the upstream. -/
def Op.isUpstreamOp : Op → Bool
  | connect _ => true
  | readUpstream _ => true
  | writeUpstream _ => true
  | copyBidirectional => true
  | _ => false

/-- A request was accepted for this port, and nothing was done but reading it. -/
structure Dialing (ctx : Context) (request : Request) (port : UInt16) (tr : Trace) : Prop where
  accepted : ctx.accepted (delivered tr) = some request
  unrejected : ctx.rejection (delivered tr) = none
  port : request.targetPort = some port
  head : ∀ ev ∈ tr, ev.1.isHeadOp = true

/-- What has happened when a connection is at a stage. -/
def Stage.Since (ctx : Context) (tr : Trace) : Stage → Prop
  | .reading data => delivered tr = data ∧ ∀ ev ∈ tr, ev.1.isHeadOp = true
  | .rejecting _ => ∀ ev ∈ tr, ev.1.isHeadOp = true
  | .rejected => ∀ ev ∈ tr, ev.1.isUpstreamOp = false
  | .failing _ => ∀ ev ∈ tr, ev.1.isUpstreamOp = false ∨
      ∃ port, ev = ⟨.connect port, .error ()⟩
  | .failed => ∀ ev ∈ tr, ev.1.isUpstreamOp = false ∨ ∃ port, ev = ⟨.connect port, .error ()⟩
  | .dialing request port => Dialing ctx request port tr
  | .connected request => ∃ port tr₀, tr = tr₀ ++ [⟨.connect port, .ok ()⟩] ∧
      Dialing ctx request port tr₀
  | .relaying => ∃ request port tr₀ tr₁,
      tr = tr₀ ++ ⟨.connect port, .ok ()⟩ :: ⟨.writeUpstream (ctx.forwarded request), .ok ()⟩ :: tr₁ ∧
        Dialing ctx request port tr₀ ∧ ∀ ev ∈ tr₁, ev.1.isRelayOp = true
  | .closed => True
  | .broken => True

theorem forall_mem_concat {α : Type*} {p : α → Prop} {l : List α} {a : α} (hl : ∀ x ∈ l, p x)
    (ha : p a) : ∀ x ∈ l ++ [a], p x :=
  List.forall_mem_append.mpr ⟨hl, List.forall_mem_singleton.mpr ha⟩

section Since

variable {ctx : Context} {tr : Trace} {stage stage' : Stage} {ev : Event Op Op.Answer}

theorem Op.isUpstreamOp_of_isHeadOp {op : Op} (h : op.isHeadOp = true) :
    op.isUpstreamOp = false := by
  cases op <;> first | rfl | exact absurd h (by simp [Op.isHeadOp])

theorem delivered_concat (h : ev.1.isClientRead = false) :
    delivered (tr ++ [ev]) = delivered tr := by
  have hnil : delivered [ev] = [] := delivered_eq_nil (by simpa using h)
  rw [delivered_append, hnil, List.append_nil]

/-- What a read adds. -/
theorem delivered_read {len : ℕ} (n : { data : Bytes // data.length ≤ len }) :
    delivered (tr ++ [⟨.readClient len, .ok n⟩]) = delivered tr ++ n.1 := by
  rw [delivered_append]
  exact congrArg (delivered tr ++ ·) (List.append_nil n.1)

/-- After a read, nothing was done but reading. -/
theorem since_stageOf (hhead : ∀ ev ∈ tr, ev.1.isHeadOp = true) :
    (ctx.stageOf (delivered tr)).Since ctx tr := by
  have hup : ∀ ev ∈ tr, ev.1.isUpstreamOp = false ∨
      ∃ port, ev = (⟨.connect port, .error ()⟩ : Event Op Op.Answer) :=
    fun ev hev => Or.inl (Op.isUpstreamOp_of_isHeadOp (hhead ev hev))
  unfold Context.stageOf
  cases hrej : ctx.rejection (delivered tr) with
  | some code => exact hhead
  | none =>
    dsimp only
    cases hacc : ctx.accepted (delivered tr) with
    | some request =>
      dsimp only
      unfold Context.stageOfRequest
      cases hport : request.targetPort with
      | none => exact hup
      | some port => exact ⟨hacc, hrej, hport, hhead⟩
    | none =>
      dsimp only
      cases ctx.parse (delivered tr) with
      | incomplete => exact ⟨rfl, hhead⟩
      | complete headers => exact hup
      | error => exact hup

theorem since_whenOk {r : Except Unit Unit} (h : r = .ok () → stage.Since ctx tr) :
    (Context.whenOk r stage).Since ctx tr := by
  cases r with
  | error e => trivial
  | ok u => exact h rfl

/-- A stage that a timer leaves or ends with a page. -/
theorem since_ifLate {fired : Bool} {code : ℕ}
    (hup : ∀ ev ∈ tr, ev.1.isUpstreamOp = false)
    (hstage : stage.Since ctx (tr ++ [⟨.timerFires, fired⟩])) :
    (Context.ifLate fired (.failing code) stage).Since ctx (tr ++ [⟨.timerFires, fired⟩]) := by
  cases fired with
  | false => exact hstage
  | true => exact forall_mem_concat (fun ev hev => Or.inl (hup ev hev)) (Or.inl rfl)

/-- While the head is read, nothing is done to the upstream. -/
theorem Stage.Since.inHead (h : stage.Since ctx tr) (hhead : stage.InHead) :
    (∀ ev ∈ tr, ev.1.isUpstreamOp = false) ∧
      ∀ fired, stage.Since ctx (tr ++ [⟨.timerFires, fired⟩]) := by
  have hup : (∀ ev ∈ tr, ev.1.isHeadOp = true) → ∀ ev ∈ tr, ev.1.isUpstreamOp = false :=
    fun hops ev hev => Op.isUpstreamOp_of_isHeadOp (hops ev hev)
  cases stage with
  | reading data =>
    refine ⟨hup h.2, fun fired => ⟨?_, forall_mem_concat h.2 rfl⟩⟩
    rw [delivered_concat rfl, h.1]
  | rejecting code => exact ⟨hup h, fun fired => forall_mem_concat h rfl⟩
  | rejected => exact ⟨h, fun fired => forall_mem_concat h rfl⟩
  | _ => exact hhead.elim

theorem Dialing.upstream {request : Request} {port : UInt16} (h : Dialing ctx request port tr) :
    ∀ ev ∈ tr, ev.1.isUpstreamOp = false :=
  fun ev hev => Op.isUpstreamOp_of_isHeadOp (h.head ev hev)

/-- Every event that the protocol allows keeps the account of what has happened. -/
theorem since_next (h : stage.Since ctx tr) (hnext : Next ctx stage ev stage') :
    stage'.Since ctx (tr ++ [ev]) := by
  have hrelay : ∀ {op : Op} (r : op.Answer), op.isRelayOp = true → Stage.relaying.Since ctx tr →
      Stage.relaying.Since ctx (tr ++ [⟨op, r⟩]) := by
    rintro op r hop ⟨request, port, tr₀, tr₁, rfl, hdial, hops⟩
    exact ⟨request, port, tr₀, tr₁ ++ [⟨op, r⟩], by simp, hdial, forall_mem_concat hops hop⟩
  cases hnext with
  | headTimer fired hhead => exact since_ifLate (h.inHead hhead).1 ((h.inHead hhead).2 fired)
  | readLost => trivial
  | readEnd hn =>
    exact forall_mem_concat (fun ev hev => Or.inl (Op.isUpstreamOp_of_isHeadOp (h.2 ev hev)))
      (Or.inl rfl)
  | @readMore data len n hn =>
    rw [← h.1, ← delivered_read n]
    exact since_stageOf (forall_mem_concat h.2 rfl)
  | rejects r =>
    exact since_whenOk fun _ => forall_mem_concat
      (fun ev hev => Op.isUpstreamOp_of_isHeadOp (h ev hev)) rfl
  | rejectedFlush r =>
    exact since_whenOk fun _ => forall_mem_concat (fun ev hev => Or.inl (h ev hev)) (Or.inl rfl)
  | fails r => exact since_whenOk fun _ => forall_mem_concat h (Or.inl rfl)
  | failedFlush r => exact since_whenOk fun _ => trivial
  | dialTimer fired =>
    refine since_ifLate h.upstream ⟨?_, ?_, h.port, forall_mem_concat h.head rfl⟩
    · rw [delivered_concat rfl, h.accepted]
    · rw [delivered_concat rfl, h.unrejected]
  | @refused request port e =>
    exact forall_mem_concat (fun ev hev => Or.inl (h.upstream ev hev)) (Or.inr ⟨port, rfl⟩)
  | @connects request port u => exact ⟨port, tr, rfl, h⟩
  | @forwards request r =>
    obtain ⟨port, tr₀, rfl, hdial⟩ := h
    refine since_whenOk ?_
    rintro rfl
    exact ⟨request, port, tr₀, [], by simp, hdial, by simp⟩
  | relayTimer fired =>
    cases fired with
    | false => exact hrelay _ rfl h
    | true => trivial
  | relayLost => trivial
  | relayRead => exact hrelay _ rfl h
  | relayWrite r => exact since_whenOk fun _ => hrelay _ rfl h
  | relayCopy copied => exact since_whenOk fun _ => trivial

/-- What the protocol says of each event of a run: the stage before it and the stage after it. -/
theorem stages_of_reaches {q : Prog Op Op.Answer (Except Unit Unit)} {tr₁ tr₂ : Trace}
    (h : Reaches ctx.processRequestInner.run (tr₁ ++ ev :: tr₂) q) :
    ∃ stage stage', stage.Since ctx tr₁ ∧ Next ctx stage ev stage' ∧
      ∃ last, ctx.protocol.after stage' tr₂ = some last ∧
        Obeys ctx.protocol (fun _ => True) Stage.Over q last := by
  obtain ⟨last, hafter, hq⟩ := obeys_processRequestInner.of_reaches h
  obtain ⟨stage, hbefore, hrest⟩ := Monitor.after_append_iff.mp hafter
  obtain ⟨stage', hnext, hlast⟩ := Monitor.after_cons_iff.mp hrest
  have hstart : Stage.Since ctx [] (.reading []) := ⟨rfl, by simp⟩
  have hsince : stage.Since ctx tr₁ :=
    Monitor.after_invariant (J := fun tr s => Stage.Since ctx tr s) hstart
      (fun _ _ _ _ hJ hev => since_next hJ (next_of_nextStage hev)) hbefore
  exact ⟨stage, stage', hsince, next_of_nextStage hnext, last, hlast, hq⟩

end Since

end Scety
