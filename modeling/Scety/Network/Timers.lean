import Scety.Config.SettingsFile
import Scety.Network.Forwarding
import Scety.Network.Output
import Scety.Network.Protocol

/-!
# Where no timer runs

The head of a request is read under the timer of `client_headers_timeout`, and its response is relayed
under that of `client_body_timeout`, unless the connection has become a WebSocket.  The timers of the
program are off exactly where the settings file says so.
-/

namespace Scety

open Effects

/-- No timer runs. -/
def Untimed (tr : Trace) : Prop := ∀ fired : Bool, (⟨.timerFires, fired⟩ : Event Op Op.Answer) ∉ tr

theorem untimed_of_only {α : Type} {p q : Prog Op Op.Answer α} {tr : Trace}
    (h : Only (· ≠ .timerFires) p) (hr : Reaches p tr q) : Untimed tr :=
  fun _ hev => h.events hr _ hev rfl

/-- A future under a timer, before its first operation. -/
theorem reaches_timer {α β : Type} {d : Duration} {p : Io α} {e : Op}
    {k : e.Answer → Prog Op Op.Answer (Except Unit α)} (hp : p.run = .perform e k)
    (f : Option (Except Unit α) → Io β) : ∃ k',
      Reaches (timeoutIfSome (some d) p >>= f).run [⟨.timerFires, false⟩] (.perform e k') := by
  have hrun : ∃ k₁ : Bool → Prog Op Op.Answer (Except Unit β), ∃ k₂,
      (timeoutIfSome (some d) p >>= f).run = .perform .timerFires k₁ ∧ k₁ false = .perform e k₂ := by
    show ∃ k₁ : Bool → Prog Op Op.Answer (Except Unit β), ∃ k₂,
      ((ExceptT.lift (withTimer .timerFires id p.run) : Io _) >>= f).run = _ ∧ _
    rw [hp]
    exact ⟨_, _, rfl, rfl⟩
  obtain ⟨k₁, k₂, hrun, hfirst⟩ := hrun
  rw [hrun]
  refine ⟨k₂, .perform (R := Op.Answer) (e := .timerFires) false ?_⟩
  rw [hfirst]
  exact .refl _

namespace Context

variable {ctx : Context}

/-- What is done when the request is written. -/
def relayRequest (ctx : Context) (request : Request) : Io Unit :=
  let copy := relayUpstreamResponse (responseHeaders ctx.cfg request.headersConfig) ctx.cfg.maxBuf
  if request.isWs then
    copy
  else do
    match ← timeoutIfSome ctx.cfg.clientBodyTimeout copy with
    | some result => ExceptT.mk (pure result)
    | none => return ()

theorem proxyRequest_eq (request : Request) : ctx.proxyRequest request =
    (do writeUpstream (ctx.forwarded request); ctx.relayRequest request) := rfl

theorem only_readRequest : Only (· ≠ .timerFires) ctx.readRequest.run :=
  only_readLoop (P := (· ≠ .timerFires)) (fun _ => nofun)
    (fun _ => only_bind_run (only_op nofun) fun _ => only_op nofun) _

/-- The head is read without a timer, in every run, if and only if it has no timeout. -/
theorem head_untimed_iff :
    (∀ tr len k, Reaches ctx.processRequestInner.run tr (.perform (.readClient len) k) → Untimed tr) ↔
      ctx.cfg.clientHeadersTimeout = none := by
  have hsend : ∀ code, Only (·.isClientRead = false) (send code ctx.exposeVersion).run :=
    fun code => only_bind_run (only_op rfl) fun _ => only_op rfl
  unfold processRequestInner
  cases ctx.cfg.clientHeadersTimeout with
  | some d =>
    refine iff_of_false ?_ (Option.some_ne_none d)
    intro hall
    have hread : ∃ k, ctx.readRequest.run =
        .perform (.readClient (ReadBuffer.empty ctx.cfg.maxBuf).free) k := by
      unfold readRequest
      rw [readLoop]
      exact ⟨_, rfl⟩
    obtain ⟨k, hread⟩ := hread
    obtain ⟨k', hreach⟩ := reaches_timer (d := d) hread _
    exact hall _ _ k' hreach false List.mem_cons_self
  | none =>
    refine iff_of_true ?_ rfl
    intro tr len k hreach
    rcases reaches_bind_run hreach with ⟨k', hread⟩ | ⟨result, tr₁, tr₂, rfl, -, hrest⟩
    · have honly : Only (· ≠ .timerFires) (timeoutIfSome none ctx.readRequest).run :=
        only_map (only_map only_readRequest)
      exact untimed_of_only honly hread
    · -- what follows the head reads nothing from the client
      have hno : ∀ {p : Io Unit}, Only (·.isClientRead = false) p.run →
          ¬ Reaches p.run tr₂ (.perform (.readClient len) k) :=
        fun honly hr => Bool.false_ne_true (honly.of_reaches hr).1.symm
      rcases result with _ | _ | _ | request
      · exact absurd hrest (hno (hsend 408))
      · exact absurd (reaches_pure_iff.mp hrest).2 (by simp)
      · exact absurd hrest (hno (hsend 404))
      · exact absurd hrest (hno (only_acceptedRequest ctx request))

/-- The response is relayed without a timer if and only if the connection has become a WebSocket or
there is no timeout for the body. -/
theorem relay_untimed_iff {request : Request} :
    (∀ tr q, Reaches (ctx.relayRequest request).run tr q → Untimed tr) ↔
      request.isWs = true ∨ ctx.cfg.clientBodyTimeout = none := by
  have hrelay : Only (· ≠ .timerFires) (relayUpstreamResponse
      (responseHeaders ctx.cfg request.headersConfig) ctx.cfg.maxBuf).run :=
    only_relay (fun _ _ hop => hop) _ _
  unfold relayRequest
  cases request.isWs with
  | true => exact iff_of_true (fun tr q hreach => untimed_of_only hrelay hreach) (Or.inl rfl)
  | false =>
    dsimp only
    rw [if_neg Bool.false_ne_true]
    cases ctx.cfg.clientBodyTimeout with
    | none =>
      refine iff_of_true (fun tr q hreach => untimed_of_only ?_ hreach) (Or.inr rfl)
      refine only_bind_run (only_map (only_map hrelay)) ?_
      intro result
      cases result <;> trivial
    | some d =>
      refine iff_of_false ?_ (by simp)
      intro hall
      have hfirst : ∃ e k, (relayUpstreamResponse (responseHeaders ctx.cfg request.headersConfig)
          ctx.cfg.maxBuf).run = .perform e k := by
        unfold relayUpstreamResponse
        split_ifs
        · exact ⟨_, _, rfl⟩
        · rw [relayLoop]
          exact ⟨_, _, rfl⟩
      obtain ⟨e, k, hfirst⟩ := hfirst
      obtain ⟨k', hreach⟩ := reaches_timer (d := d) hfirst _
      exact hall _ _ hreach false List.mem_cons_self

theorem only_relayRequest (request : Request) :
    Only (·.isRelayOp = true) (ctx.relayRequest request).run := by
  have htimer : Op.timerFires.isRelayOp = true := rfl
  have hrelay := only_relayUpstreamResponse (responseHeaders ctx.cfg request.headersConfig) ctx.cfg.maxBuf
  unfold relayRequest
  dsimp only
  split_ifs
  · exact hrelay
  · refine only_bind_run (only_timeoutIfSome htimer hrelay _) ?_
    intro result
    cases result <;> trivial

/-- The operations before and after the one that writes the request. -/
def MayNotForward (op : Op) : Prop :=
  op.isRequestOp = true ∨ op.isRelayOp = true ∨ ∃ port, op = .connect port

theorem not_reaches_writeUpstream {α : Type} {p : Io α} (h : Only MayNotForward p.run) {tr : Trace}
    {data : Bytes} {k : Except Unit Unit → Prog Op Op.Answer (Except Unit α)} :
    ¬ Reaches p.run tr (.perform (.writeUpstream data) k) := by
  intro hr
  rcases (h.of_reaches hr).1 with hop | hop | ⟨port, hop⟩
  · exact nomatch hop
  · exact nomatch hop
  · exact nomatch hop

/-- A proxied request is written first, and then relayed. -/
theorem relay_of_proxyRequest_front {request : Request} {tr : Trace} {data : Bytes}
    {k : Except Unit Unit → Prog Op Op.Answer (Except Unit Unit)}
    (h : Reaches (ctx.proxyRequest request).run tr (.perform (.writeUpstream data) k)) :
    k (.ok ()) = (ctx.relayRequest request).run := by
  rw [proxyRequest_eq] at h
  rcases reaches_perform_iff.mp h with ⟨-, heq⟩ | ⟨r, tr', -, hrest⟩
  · obtain ⟨hop, hk⟩ := Prog.perform.inj heq
    obtain rfl := Op.writeUpstream.inj hop
    rw [eq_of_heq hk]
    rfl
  · cases r with
    | error e => exact absurd (reaches_pure_iff.mp hrest).2 nofun
    | ok u =>
      have honly : Only MayNotForward (ctx.relayRequest request).run :=
        (only_relayRequest request).mono fun _ hop => Or.inr (Or.inl hop)
      exact absurd hrest (not_reaches_writeUpstream honly)

/-- A run before the request is written has accepted it, and what follows is the relay. -/
theorem relay_of_writeUpstream {tr : Trace} {data : Bytes}
    {k : Except Unit Unit → Prog Op Op.Answer (Except Unit Unit)}
    (h : Reaches ctx.processRequestInner.run tr (.perform (.writeUpstream data) k)) :
    ∃ request, ctx.accepted (delivered tr) = some request ∧
      k (.ok ()) = (ctx.relayRequest request).run := by
  have hsend : ∀ code tr, ¬ Reaches (send code ctx.exposeVersion).run tr
      (.perform (.writeUpstream data) k) :=
    fun code tr => not_reaches_writeUpstream ((only_send code _).mono fun _ => Or.inl)
  have hread : Only MayNotForward (timeoutIfSome ctx.cfg.clientHeadersTimeout ctx.readRequest).run :=
    only_timeoutIfSome (Or.inl rfl) ((only_readLoop (P := (·.isRequestOp = true)) (fun _ => rfl)
      (fun code => only_send code _) _).mono fun _ => Or.inl) _
  have hconnect : ∀ port, Only MayNotForward (timeout 30000000000 (connectUpstream port)).run := by
    intro port
    have hop : Only MayNotForward (connectUpstream port).run :=
      only_op (Or.inr (Or.inr ⟨port, rfl⟩))
    exact only_timeout (Or.inl rfl) hop _
  rcases reaches_bind_run h with ⟨k', hfront⟩ | ⟨result, tr₁, tr₂, rfl, hdone, hrest⟩
  · exact absurd hfront (not_reaches_writeUpstream hread)
  rcases result with _ | _ | _ | request
  · exact absurd hrest (hsend 408 _)
  · exact absurd (reaches_pure_iff.mp hrest).2 nofun
  · exact absurd hrest (hsend 404 _)
  have haccepted : ctx.accepted (delivered tr₁) = some request := by
    rcases completes_timeoutIfSome hdone with ⟨hnone, -⟩ | ⟨a, tr', hsome, hreads, hsame⟩
    · exact nomatch hnone
    · obtain rfl := Option.some.inj (Except.ok.inj hsome)
      rw [hsame.delivered]
      have houtcome := readRequest_outcome hreads
      generalize outputs tr' = out at houtcome
      cases houtcome with
      | accepted _ hacc => exact hacc
  have hnil : delivered tr₂ = [] := delivered_eq_nil ((only_acceptedRequest ctx request).events hrest)
  refine ⟨request, ?_, ?_⟩
  · rw [delivered_append, hnil, List.append_nil]
    exact haccepted
  · dsimp only at hrest
    unfold acceptedRequest at hrest
    cases hport : request.targetPort with
    | none =>
      rw [hport] at hrest
      exact absurd hrest (hsend 502 _)
    | some port =>
      rw [hport] at hrest
      rcases reaches_bind_run hrest with ⟨k', hfront⟩ | ⟨dialed, tr₃, tr₄, rfl, -, hproxy⟩
      · exact absurd hfront (not_reaches_writeUpstream (hconnect port))
      rcases dialed with _ | _ | _
      · exact absurd hproxy (hsend 504 _)
      · exact absurd hproxy (hsend 502 _)
      · exact relay_of_proxyRequest_front hproxy

end Context

/-- **A timer is off only where the file says so**: in every run of a port under the settings of a usable
file, the head of a request is read without a timer if and only if its timeout is `-1`, or if the full
timeout is and neither of the others is there; and the response is relayed without one if and only if
the request has asked for a WebSocket, or the timeout of the body is off in the same way.  A text that is
no duration, a missing key, section or value never switches a timer off. -/
theorem timers_off_iff {parseToml : Str → Except Str Table} {parseDuration : Str → Option Duration}
    {settings : SettingsFile} {file : Table} {t : TomlConfig}
    (h : UsableSettings parseToml settings file t) {ctx : Context}
    (hcfg : ctx.cfg = (t.load parseDuration).toScetyConfig) :
    let off := limitationText file "client_headers_timeout".toList = none ∧
      limitationText file "client_body_timeout".toList = none ∧
        SaysOff file "client_full_timeout".toList
    ((∀ tr len k, Reaches ctx.processRequestInner.run tr (.perform (.readClient len) k) → Untimed tr) ↔
      SaysOff file "client_headers_timeout".toList ∨ off) ∧
    ∀ tr data k, Reaches ctx.processRequestInner.run tr (.perform (.writeUpstream data) k) →
      ∃ request, ctx.accepted (delivered tr) = some request ∧
        ((∀ tr' q, Reaches (k (.ok ())) tr' q → Untimed tr') ↔
          request.isWs = true ∨ SaysOff file "client_body_timeout".toList ∨ off) := by
  intro off
  obtain ⟨hheaders, hbody⟩ := @timeouts_off_iff _ parseDuration _ _ _ h
  refine ⟨?_, ?_⟩
  · rw [Context.head_untimed_iff, hcfg]
    exact hheaders
  · intro tr data k hreach
    obtain ⟨request, haccepted, hrest⟩ := Context.relay_of_writeUpstream hreach
    refine ⟨request, haccepted, ?_⟩
    rw [hrest, Context.relay_untimed_iff, hcfg]
    exact or_congr_right hbody

/-- A file that switches off the timer of the head, and has no duration for the body. -/
def offFile : Table :=
  [("limitation".toList, .table [("client_headers_timeout".toList, .string "-1".toList),
    ("client_body_timeout".toList, .string "soon".toList)])]

def offConfig : TomlConfig :=
  ⟨some ⟨none, none, some "-1".toList, some "soon".toList, none⟩, none, none, none⟩

/-- A port under the settings of this file. -/
def offContext : Context := { proxyContext with cfg := (offConfig.load fun _ => none).toScetyConfig }

/-- A run to the write of the request, which fails. -/
theorem completes_offContext : ∃ data, Completes offContext.processRequestInner
    ([⟨.readClient 4096, .ok ⟨crlfRequest, by decide⟩⟩, ⟨.timerFires, false⟩, ⟨.connect 3000, .ok ()⟩] ++
      [⟨.writeUpstream data, .error ()⟩]) (.error ()) := by
  have hread : Completes offContext.readRequest [⟨.readClient 4096, .ok ⟨crlfRequest, by decide⟩⟩]
      (.ok (some ⟨crlfRequest, some 3000, none, false⟩)) :=
    @Context.completes_readRequest offContext ⟨crlfRequest, by decide⟩ (by decide) spoofingHeaders rfl
      _ _ (completes_pure_iff.mpr ⟨rfl, rfl⟩)
  have haccepted : Completes (offContext.acceptedRequest ⟨crlfRequest, some 3000, none, false⟩)
      [⟨.timerFires, false⟩, ⟨.connect 3000, .ok ()⟩, ⟨.writeUpstream (offContext.forwarded
        ⟨crlfRequest, some 3000, none, false⟩), .error ()⟩] (.error ()) :=
    completes_bind_iff.mpr (Or.inr ⟨_, [_, _], [_], rfl, completes_timeout_connect 30000000000 3000,
      completes_bind_iff.mpr (Or.inl ⟨(), completes_writeUpstream.mpr rfl, rfl⟩)⟩)
  exact ⟨_, completes_bind_iff.mpr
    (Or.inr ⟨_, [_], _, rfl, completes_timeoutIfSome_none hread, haccepted⟩)⟩

theorem timers_off_iff_head :
    (∀ tr len k, Reaches offContext.processRequestInner.run tr (.perform (.readClient len) k) →
      Untimed tr) ∧
    ∃ tr data k, Reaches offContext.processRequestInner.run tr (.perform (.writeUpstream data) k) ∧
      ¬ ∀ tr' q, Reaches (k (.ok ())) tr' q → Untimed tr' := by
  have husable : UsableSettings (fun _ => .ok offFile) ⟨true, .ok []⟩ offFile offConfig :=
    ⟨rfl, [], rfl, rfl, rfl⟩
  obtain ⟨hhead, hbody⟩ := @timers_off_iff _ (fun _ => none) _ _ _ husable offContext rfl
  refine ⟨hhead.mpr (Or.inl ⟨_, rfl, by decide⟩), ?_⟩
  obtain ⟨data, hrun⟩ := completes_offContext
  obtain ⟨k, hreach⟩ := hrun.reaches_front
  obtain ⟨request, haccepted, hiff⟩ := hbody _ data k hreach
  refine ⟨_, data, k, hreach, ?_⟩
  rw [hiff]
  rintro (hws | ⟨raw, hraw, hoff⟩ | ⟨hnone, -⟩)
  · obtain rfl : (⟨crlfRequest, some 3000, none, false⟩ : Request) = request :=
      Option.some.inj haccepted
    exact nomatch hws
  · obtain rfl := Option.some.inj hraw
    exact absurd hoff (by decide)
  · exact nomatch hnone

end Scety
