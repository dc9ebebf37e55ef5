import Scety.Config.Limitation
import Scety.Lib.Timed
import Scety.Network.Forwarding

/-!
# `process_request_inner` on the clock

The phases of a connection and the timeouts between them, written once for every monad with timeouts.
By its operations this is `process_request_inner` as it stands; on the clock it says how long a
connection stays open.  The full timeout is put on the head and again on the response, a connection
to the upstream has a timeout of its own, and the rest has none.
-/

namespace Scety

open Effects

instance : MonadTimeout (Prog Op Op.Answer) where
  timeout _ future := withTimer .timerFires id future

/-- The phases of a connection. -/
structure Phases (m : Type → Type) where
  readRequest : m (Except Unit (Option Request))
  connect : UInt16 → m (Except Unit Unit)
  writeRequest : Request → m (Except Unit Unit)
  relay : Request → m (Except Unit Unit)
  send : ℕ → m (Except Unit Unit)

/-- Thirty seconds in nanoseconds, which the code has for every upstream. -/
def connectTimeout : ℕ := 30000000000

namespace Phases

section Skeleton

variable {m : Type → Type} [Monad m] [MonadTimeout m] (phases : Phases m) (cfg : ScetyConfig)

/-- A future under an optional timeout. -/
def timeoutIfSome {α : Type} (duration : Option Duration) (future : m α) :
    ExceptT Unit m (Option α) :=
  match duration with
  | some d => ExceptT.lift (MonadTimeout.timeout d future)
  | none => ExceptT.lift (some <$> future)

def proxyRequest (request : Request) : ExceptT Unit m Unit := do
  ExceptT.mk (phases.writeRequest request)
  if request.isWs then
    ExceptT.mk (phases.relay request)
  else
    match ← timeoutIfSome cfg.clientBodyTimeout (phases.relay request) with
    | some result => ExceptT.mk (pure result)
    | none => return ()

def acceptedRequest (request : Request) : ExceptT Unit m Unit :=
  match request.targetPort with
  | none => ExceptT.mk (phases.send 502)
  | some port => do
    match ← timeoutIfSome (some connectTimeout) (phases.connect port) with
    | none => ExceptT.mk (phases.send 504)
    | some (.error _) => ExceptT.mk (phases.send 502)
    | some (.ok ()) => phases.proxyRequest cfg request

def processRequestInner : ExceptT Unit m Unit := do
  match ← timeoutIfSome cfg.clientHeadersTimeout phases.readRequest with
  | none => ExceptT.mk (phases.send 408)
  | some (.error e) => throw e
  | some (.ok none) => ExceptT.mk (phases.send 404)
  | some (.ok (some request)) => phases.acceptedRequest cfg request

end Skeleton

end Phases

/-! ### By its operations -/

namespace Context

variable (ctx : Context)

/-- The phases of the program. -/
def phases : Phases (Prog Op Op.Answer) where
  readRequest := ctx.readRequest.run
  connect port := (connectUpstream port).run
  writeRequest request := (writeUpstream (finalBuf .plain
    (upstreamHeaders ctx.cfg request.headersConfig ctx.clientIp) request.buf)).run
  relay request := (relayUpstreamResponse (responseHeaders ctx.cfg request.headersConfig)
    ctx.cfg.maxBuf).run
  send code := (Scety.send code ctx.exposeVersion).run

/-- With these phases it is the program. -/
theorem phases_processRequestInner :
    ctx.phases.processRequestInner ctx.cfg = ctx.processRequestInner := rfl

theorem waits_readRequest : ctx.phases.readRequest.Waits := by
  have hloop : ∀ buf, (ctx.readLoop buf).run.Waits := by
    intro buf
    rw [readLoop]
    trivial
  exact hloop _

theorem waits_relay (request : Request) : (ctx.phases.relay request).Waits := by
  have hloop : ∀ (extra : List (Str × Str)) (buf : ReadBuffer ctx.cfg.maxBuf),
      (relayLoop extra buf).run.Waits := by
    intro extra buf
    rw [relayLoop]
    trivial
  show (relayUpstreamResponse _ _).run.Waits
  unfold relayUpstreamResponse
  split_ifs
  · trivial
  · exact hloop _ _

end Context

namespace Phases

/-- Each phase of the run ends as it may end in the program. -/
structure RunOf (run : Phases Timed) (ctx : Context) : Prop where
  readRequest : Realises run.readRequest ctx.phases.readRequest
  connect : ∀ port, Realises (run.connect port) (ctx.phases.connect port)
  writeRequest : ∀ request, Realises (run.writeRequest request) (ctx.phases.writeRequest request)
  relay : ∀ request, Realises (run.relay request) (ctx.phases.relay request)
  send : ∀ code, Realises (run.send code) (ctx.phases.send code)

section RunOf

variable {run : Phases Timed} {ctx : Context}

theorem realises_timeoutIfSome {α : Type} {x : Timed α} {p : Prog Op Op.Answer α} (hwaits : p.Waits)
    (duration : Option Duration) (h : Realises x p) :
    Realises (timeoutIfSome duration x).run (timeoutIfSome duration p).run := by
  cases duration with
  | none => exact (h.map some).map Except.ok
  | some d => exact (h.timeout ⟨true, rfl⟩ ⟨false, rfl⟩ hwaits d).map Except.ok

theorem RunOf.proxyRequest (h : run.RunOf ctx) (cfg : ScetyConfig) (request : Request) :
    Realises (run.proxyRequest cfg request).run (ctx.phases.proxyRequest cfg request).run := by
  refine Realises.bindExcept (h.writeRequest request) fun _ => ?_
  split_ifs
  · exact h.relay request
  · refine Realises.bindExcept
      (realises_timeoutIfSome (ctx.waits_relay request) _ (h.relay request)) fun result => ?_
    cases result with
    | none => exact realises_pure (Except.ok ())
    | some result => exact realises_pure result

theorem RunOf.acceptedRequest (h : run.RunOf ctx) (cfg : ScetyConfig) (request : Request) :
    Realises (run.acceptedRequest cfg request).run (ctx.phases.acceptedRequest cfg request).run := by
  unfold Phases.acceptedRequest
  cases request.targetPort with
  | none => exact h.send 502
  | some port =>
    have hconnect := realises_timeoutIfSome (p := ctx.phases.connect port) trivial
      (some connectTimeout) (h.connect port)
    refine Realises.bindExcept hconnect fun result => ?_
    cases result with
    | none => exact h.send 504
    | some result =>
      cases result with
      | error e => exact h.send 502
      | ok u => exact h.proxyRequest cfg request

/-- The result on the clock is that of a complete run of the program. -/
theorem RunOf.processRequestInner (h : run.RunOf ctx) :
    ∃ tr, Completes ctx.processRequestInner tr (run.processRequestInner ctx.cfg).run.result := by
  have hinner : Realises (run.processRequestInner ctx.cfg).run
      (ctx.phases.processRequestInner ctx.cfg).run := by
    refine Realises.bindExcept
      (realises_timeoutIfSome ctx.waits_readRequest _ h.readRequest) fun result => ?_
    cases result with
    | none => exact h.send 408
    | some result =>
      cases result with
      | error e => exact realises_pure (Except.error e)
      | ok accepted =>
        cases accepted with
        | none => exact h.send 404
        | some request => exact h.acceptedRequest ctx.cfg request
  rw [ctx.phases_processRequestInner] at hinner
  exact hinner

/-- Apart from the head, every phase may end in every way. -/
theorem RunOf.of_readRequest (h : Realises run.readRequest ctx.phases.readRequest) :
    run.RunOf ctx where
  readRequest := h
  connect port := ⟨_, runs_op_iff.mpr rfl⟩
  writeRequest request := ⟨_, completes_writeUpstream.mpr rfl⟩
  relay request := by
    have hcopy : ∀ r, ∃ tr, Completes copyBidirectional tr r := fun r =>
      ⟨_, runs_map_iff.mpr ⟨⟨[], [], r⟩, rfl, runs_op_iff.mpr rfl⟩⟩
    have hloop : ∀ (extra : List (Str × Str)) r,
        ∃ tr, Completes (relayLoop extra (.empty ctx.cfg.maxBuf)) tr r := by
      intro extra r
      rw [relayLoop]
      -- the upstream closes the connection before it sends anything
      exact ⟨_, completes_bind_iff.mpr (Or.inr ⟨⟨[], Nat.zero_le _⟩, [_],
        [⟨.writeClient (.relay []), r⟩], rfl, runs_op_iff.mpr rfl, completes_writeClient.mpr rfl⟩)⟩
    show ∃ tr, Completes (relayUpstreamResponse _ _) tr _
    unfold relayUpstreamResponse
    split_ifs
    · exact hcopy _
    · exact hloop _ _
  send code := ⟨_, completes_bind_iff.mpr (Or.inr ⟨(), [_], [_], rfl,
    completes_writeClient.mpr rfl, completes_flushClient.mpr rfl⟩)⟩

end RunOf

end Phases

end Scety
