import Scety.Network.Phases

/-!
# The full timeout of a connection

With the full timeout in use, the head and the response of the upstream each get all of it.  So a
connection is over when that time is up only if its phases together leave it enough (`Fits`), and no
setting makes sure of that: nothing bounds the writes, and the connection to the upstream has thirty
seconds of its own.
-/

namespace Scety

open Effects

namespace Phases

variable (run : Phases Timed) (full : ℕ)

/-- No request of the run asks for a WebSocket. -/
def NonWebSocket : Prop :=
  ∀ request, run.readRequest.result = .ok (some request) → request.isWs = false

/-! ### What has to fit -/

/-- After some time is spent: writing the request and relaying all of the response fit, or no time
was spent at all when the response that is cut off begins. -/
def ProxyFits (spent : ℕ) (request : Request) : Prop :=
  match (run.writeRequest request).result with
  | .error _ => spent + (run.writeRequest request).takes ≤ full
  | .ok () =>
    spent + (run.writeRequest request).takes + (run.relay request).takes ≤ full ∨
      (spent + (run.writeRequest request).takes = 0 ∧ full < (run.relay request).takes)

/-- After some time is spent: the connection to the upstream and what follows it, or the page. -/
def AcceptedFits (spent : ℕ) (request : Request) : Prop :=
  match request.targetPort with
  | none => spent + (run.send 502).takes ≤ full
  | some port =>
    if connectTimeout < (run.connect port).takes then
      spent + connectTimeout + (run.send 504).takes ≤ full
    else
      match (run.connect port).result with
      | .error _ => spent + (run.connect port).takes + (run.send 502).takes ≤ full
      | .ok () => run.ProxyFits full (spent + (run.connect port).takes) request

/-- A head that is cut off leaves no time for its page; another one leaves the rest of the time. -/
def Fits : Prop :=
  if full < run.readRequest.takes then (run.send 408).takes = 0
  else
    match run.readRequest.result with
    | .error _ => True
    | .ok none => run.readRequest.takes + (run.send 404).takes ≤ full
    | .ok (some request) => run.AcceptedFits full run.readRequest.takes request

/-! ### The time of each part -/

section Takes

variable {run : Phases Timed} {full : ℕ} {cfg : ScetyConfig}

theorem run_timeoutIfSome_of_le {α : Type} {x : Timed α} (h : x.takes ≤ full) :
    (timeoutIfSome (some full) x).run = ⟨x.takes, .ok (some x.result)⟩ := by
  show Except.ok <$> MonadTimeout.timeout full x = _
  rw [Timed.timeout_of_le h]
  rfl

theorem run_timeoutIfSome_of_lt {α : Type} {x : Timed α} (h : full < x.takes) :
    (timeoutIfSome (some full) x).run = ⟨full, .ok none⟩ := by
  show Except.ok <$> MonadTimeout.timeout full x = _
  rw [Timed.timeout_of_lt h]
  rfl

/-- The time of a run that goes on after the first part. -/
theorem takes_timeoutIfSome_bind_of_le {α β : Type} {x : Timed α} (h : x.takes ≤ full)
    (f : Option α → ExceptT Unit Timed β) :
    (timeoutIfSome (some full) x >>= f).run.takes = x.takes + (f (some x.result)).run.takes := by
  have hrun := run_timeoutIfSome_of_le h
  rw [Timed.run_bind_ok (congrArg Timed.result hrun), hrun]

theorem takes_timeoutIfSome_bind_of_lt {α β : Type} {x : Timed α} (h : full < x.takes)
    (f : Option α → ExceptT Unit Timed β) :
    (timeoutIfSome (some full) x >>= f).run.takes = full + (f none).run.takes := by
  have hrun := run_timeoutIfSome_of_lt h
  rw [Timed.run_bind_ok (congrArg Timed.result hrun), hrun]

theorem proxyRequest_fits_iff (hbody : cfg.clientBodyTimeout = some full) (spent : ℕ)
    {request : Request} (hws : request.isWs = false) :
    spent + (run.proxyRequest cfg request).run.takes ≤ full ↔ run.ProxyFits full spent request := by
  unfold proxyRequest ProxyFits
  rw [hbody, hws]
  cases hwrite : (run.writeRequest request).result with
  | error e =>
    rw [Timed.run_bind_error (x := ExceptT.mk (run.writeRequest request)) hwrite]
    rfl
  | ok u =>
    rw [Timed.run_bind_ok (x := ExceptT.mk (run.writeRequest request)) hwrite,
      if_neg Bool.false_ne_true]
    show spent + ((run.writeRequest request).takes + _) ≤ full ↔ _
    by_cases hlt : full < (run.relay request).takes
    · rw [takes_timeoutIfSome_bind_of_lt hlt]
      show spent + ((run.writeRequest request).takes + (full + 0)) ≤ full ↔ _
      omega
    · have hle := Nat.not_lt.mp hlt
      rw [takes_timeoutIfSome_bind_of_le hle]
      show spent + ((run.writeRequest request).takes + ((run.relay request).takes + 0)) ≤ full ↔ _
      omega

theorem acceptedRequest_fits_iff (hbody : cfg.clientBodyTimeout = some full) (spent : ℕ)
    {request : Request} (hws : request.isWs = false) :
    spent + (run.acceptedRequest cfg request).run.takes ≤ full ↔
      run.AcceptedFits full spent request := by
  unfold acceptedRequest AcceptedFits
  cases request.targetPort with
  | none => rfl
  | some port =>
    dsimp only
    by_cases hlt : connectTimeout < (run.connect port).takes
    · rw [if_pos hlt, takes_timeoutIfSome_bind_of_lt hlt, ← Nat.add_assoc]
      rfl
    · rw [if_neg hlt, takes_timeoutIfSome_bind_of_le (Nat.not_lt.mp hlt), ← Nat.add_assoc]
      cases (run.connect port).result with
      | error e => rfl
      | ok u => exact proxyRequest_fits_iff hbody _ hws

/-- A connection is over in time if and only if its phases fit. -/
theorem staysWithin_iff_fits (hhead : cfg.clientHeadersTimeout = some full)
    (hbody : cfg.clientBodyTimeout = some full) (hws : run.NonWebSocket) :
    (run.processRequestInner cfg).run.StaysWithin full ↔ run.Fits full := by
  rw [Timed.staysWithin_iff]
  unfold processRequestInner Fits
  rw [hhead]
  by_cases hlt : full < run.readRequest.takes
  · rw [if_pos hlt, takes_timeoutIfSome_bind_of_lt hlt]
    show full + (run.send 408).takes ≤ full ↔ _
    omega
  · have hle := Nat.not_lt.mp hlt
    rw [if_neg hlt, takes_timeoutIfSome_bind_of_le hle]
    cases hresult : run.readRequest.result with
    | error e => exact iff_of_true hle trivial
    | ok accepted =>
      cases accepted with
      | none => rfl
      | some request => exact acceptedRequest_fits_iff hbody _ (hws request hresult)

end Takes

/-! ### No bound holds for every run -/

/-- A client that closes its side at once and takes the page late. -/
def latePage (late : ℕ) : Phases Timed where
  readRequest := ⟨0, .ok none⟩
  connect _ := ⟨0, .ok ()⟩
  writeRequest _ := ⟨0, .ok ()⟩
  relay _ := ⟨0, .ok ()⟩
  send _ := ⟨late, .ok ()⟩

theorem runOf_latePage (late : ℕ) (ctx : Context) : (latePage late).RunOf ctx := by
  refine RunOf.of_readRequest ?_
  show ∃ tr, Completes (ctx.readLoop (.empty ctx.cfg.maxBuf)) tr (.ok none)
  rw [Context.readLoop]
  refine ⟨_, completes_bind_iff.mpr (Or.inr ⟨⟨[], Nat.zero_le _⟩, [_], [], rfl,
    completes_readClient.mpr rfl, ?_⟩)⟩
  exact completes_pure_iff.mpr ⟨rfl, rfl⟩

theorem takes_latePage (late : ℕ) (cfg : ScetyConfig) :
    ((latePage late).processRequestInner cfg).run.takes = late := by
  unfold processRequestInner
  cases cfg.clientHeadersTimeout with
  | none => exact Nat.zero_add late
  | some d =>
    rw [takes_timeoutIfSome_bind_of_le (Nat.zero_le d)]
    exact Nat.zero_add late

end Phases

/-- **When the full timeout bounds the connection**: a run that asks for no WebSocket stays within it
if and only if its phases fit, and whatever the bound, some run of the program passes it. -/
theorem full_timeout_iff {parseDuration : Str → Option Duration} {limitation : LimitationSection}
    {limitBuffers : LimitBuffersSection} {tls : TlsSection} {headers : GlobalHeadersSection}
    {cfg : LoadedConfig} (hcfg : cfg = .new parseDuration limitation limitBuffers tls headers)
    (hmode : cfg.clientUseFullTimeout = true) {full : ℕ}
    (hfull : cfg.clientFullTimeout = some full) :
    (∀ run : Phases Timed, run.NonWebSocket →
      ((run.processRequestInner cfg.toScetyConfig).run.StaysWithin full ↔ run.Fits full)) ∧
    ∀ ctx : Context, ctx.cfg = cfg.toScetyConfig → ∀ bound, ∃ run : Phases Timed,
      run.RunOf ctx ∧ run.NonWebSocket ∧
        ¬ (run.processRequestInner ctx.cfg).run.StaysWithin bound := by
  subst hcfg
  obtain ⟨hhead, hbody⟩ := timeouts_of_full hmode hfull
  refine ⟨fun run hws => Phases.staysWithin_iff_fits hhead hbody hws, fun ctx _ bound => ?_⟩
  refine ⟨.latePage (bound + 1), Phases.runOf_latePage _ ctx, ?_, ?_⟩
  · intro request h
    exact absurd (Except.ok.inj h) (Option.some_ne_none request).symm
  · rw [Timed.staysWithin_iff, Phases.takes_latePage]
    omega

/-! ### A head of three seconds and a response of four -/

/-- `humantime` on this text. -/
def parseFiveSeconds (s : Str) : Option Duration := if s = "5s".toList then some 5000000000 else none

/-- The settings `client_full_timeout = "5s"`. -/
def fullTimeoutConfig : LoadedConfig :=
  .new parseFiveSeconds ⟨none, none, none, none, some "5s".toList⟩ ⟨none⟩ ⟨none⟩ ⟨none, none⟩

def fullTimeoutContext : Context := { proxyContext with cfg := fullTimeoutConfig.toScetyConfig }

/-- A proxied request whose head and whose response take this long. -/
def proxiedRun (head relay : ℕ) : Phases Timed where
  readRequest := ⟨head, .ok (some ⟨crlfRequest, some 3000, none, false⟩)⟩
  connect _ := ⟨0, .ok ()⟩
  writeRequest _ := ⟨0, .ok ()⟩
  relay _ := ⟨relay, .ok ()⟩
  send _ := ⟨0, .ok ()⟩

theorem nonWebSocket_proxiedRun (head relay : ℕ) : (proxiedRun head relay).NonWebSocket := by
  intro request h
  obtain rfl := Option.some.inj (Except.ok.inj h)
  rfl

theorem runOf_proxiedRun (head relay : ℕ) : (proxiedRun head relay).RunOf fullTimeoutContext := by
  refine .of_readRequest ⟨_, @Context.completes_readRequest fullTimeoutContext
    ⟨crlfRequest, by decide⟩ (by decide) spoofingHeaders rfl _ _ (completes_pure_iff.mpr ⟨rfl, rfl⟩)⟩

/-- Two seconds and three fit. -/
theorem full_timeout_iff_fits :
    ((proxiedRun 2000000000 3000000000).processRequestInner
      fullTimeoutConfig.toScetyConfig).run.StaysWithin 5000000000 := by
  have hcfg : fullTimeoutConfig = .new parseFiveSeconds
      ⟨none, none, none, none, some "5s".toList⟩ ⟨none⟩ ⟨none⟩ ⟨none, none⟩ := rfl
  refine ((full_timeout_iff hcfg rfl rfl).1 _ (nonWebSocket_proxiedRun _ _)).mpr ?_
  exact Or.inl (by decide)

/-- The clock reaches seven seconds. -/
theorem full_timeout_fails :
    ¬ ∀ (parseDuration : Str → Option Duration) (limitation : LimitationSection)
      (limitBuffers : LimitBuffersSection) (tls : TlsSection) (headers : GlobalHeadersSection)
      (ctx : Context) (full : ℕ),
      let cfg : LoadedConfig := .new parseDuration limitation limitBuffers tls headers
      cfg.clientUseFullTimeout = true → cfg.clientFullTimeout = some full →
      ctx.cfg = cfg.toScetyConfig →
      ∀ run : Phases Timed, run.RunOf ctx → run.NonWebSocket →
        (run.processRequestInner ctx.cfg).run.StaysWithin full := by
  intro hall
  have hwithin := hall parseFiveSeconds ⟨none, none, none, none, some "5s".toList⟩ ⟨none⟩ ⟨none⟩
    ⟨none, none⟩ fullTimeoutContext 5000000000 rfl rfl rfl (proxiedRun 3000000000 4000000000)
    (runOf_proxiedRun _ _) (nonWebSocket_proxiedRun _ _)
  have hopen : ((proxiedRun 3000000000 4000000000).processRequestInner
      fullTimeoutContext.cfg).run.OpenAt 7000000000 := Nat.le_of_eq rfl
  exact absurd (hwithin 7000000000 hopen) (by decide)

end Scety
