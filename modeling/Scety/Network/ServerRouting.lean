import Scety.Network.Framing
import Scety.Network.ServerRuns

/-!
# From the files of the services to the upstreams

A process whose listeners are those of the services directory only ever dials the upstream of a valid
file for the port that the client came in on, with a host pattern that covers the host of the request;
and what it writes there is the request with the headers of that service.
-/

namespace Scety

open Effects Transition Cache

variable {S : Server} {s : ServerState}

/-! ### The service of a request -/

/-- No two Content-Length values differ, none is beside a Transfer-Encoding, and the last value of
Transfer-Encoding is `chunked`; what stands before it may be any. -/
def FramingAccepted (headers : List Header) : Prop :=
  (∀ v ∈ contentLengths headers, ∀ w ∈ contentLengths headers, v = w) ∧
    ¬ (contentLengths headers ≠ [] ∧ transferEncodings headers ≠ []) ∧
      ∀ v ∈ (transferEncodings headers).getLast?, isChunked v = true

/-- The bytes read from a client are a complete request for a host of the service, which is on the
port. -/
structure AsksFor (S : Server) (data : Bytes) (port : UInt16) (config : ClientConfig) : Prop where
  listenPort : config.listenPort = some port
  /-- The head is complete, its framing headers are accepted, and its host has not too many labels and
  is covered by a pattern. -/
  covered : ∃ headers host pattern, S.parse data = .complete headers ∧
    FramingAccepted headers ∧ requestHost headers = some host ∧
      S.cfg.hostExceedsLabelLimit host = false ∧
        pattern ∈ config.host.toList ++ config.hosts.getD [] ∧ PatternCovers pattern host

/-- The service at the index of a pattern is one with that pattern. -/
theorem pattern_of_registrations {configs : List ClientConfig} {pattern : Str} {i : ℕ}
    {config : ClientConfig} (he : (pattern, i) ∈ SearchRouter.registrations configs)
    (hi : configs[i]? = some config) : pattern ∈ config.host.toList ++ config.hosts.getD [] := by
  obtain ⟨⟨c, n⟩, hc, hmem⟩ := List.mem_flatMap.mp he
  obtain ⟨p, hp, heq⟩ := List.mem_map.mp hmem
  obtain ⟨rfl, rfl⟩ := Prod.mk.inj heq
  rw [List.mem_zipIdx_iff_getElem?.mp hc] at hi
  obtain rfl := Option.some.inj hi
  exact hp

/-- The service of an accepted request. -/
theorem asksFor_of_accepted {l : Listener} {clientIp : Str} {data : Bytes} {request : Request}
    (hconfigs : ∀ c ∈ l.configs, c.listenPort = some l.port)
    (h : (S.context l clientIp).accepted data = some request) : ∃ config ∈ l.configs,
      AsksFor S data l.port config ∧ request.targetPort = config.upstream.bind (·.port) ∧
        request.headersConfig = config.headers ∧ request.buf = data := by
  have hbuf := Context.accepted_buf h
  unfold Context.accepted at h
  cases hparse : (S.context l clientIp).parse data with
  | incomplete =>
    rw [hparse] at h
    exact nomatch h
  | error =>
    rw [hparse] at h
    exact nomatch h
  | complete headers =>
    rw [hparse] at h
    dsimp only at h
    cases hframing : validateFramingHeaders headers with
    | error e =>
      rw [hframing] at h
      exact nomatch h
    | ok u =>
      rw [hframing] at h
      obtain ⟨host, hhost, h⟩ := Option.bind_eq_some_iff.mp h
      split_ifs at h with hlabels
      obtain ⟨config, hfind, h⟩ := Option.bind_eq_some_iff.mp h
      obtain rfl := Option.some.inj h
      obtain ⟨i, hmatch, hi⟩ := Option.bind_eq_some_iff.mp hfind
      obtain ⟨⟨pattern, j⟩, he, rfl, hhits, -⟩ := exists_of_matches hmatch
      have hmem : config ∈ l.configs := List.mem_of_getElem? hi
      refine ⟨config, hmem, ⟨hconfigs config hmem, headers, host, pattern, hparse,
        validateFramingHeaders_eq_ok_iff.mp hframing, hhost, ?_, pattern_of_registrations he hi,
        ((hits_iff pattern host).mp hhits).1⟩, rfl, rfl, hbuf⟩
      exact Bool.eq_false_iff.mpr hlabels

/-! ### The operations of a task -/

section Points

variable {ctx : Context} {site : Site} {c : ClientTask}

/-- A task before an operation is at a stage that allows it. -/
theorem next_of_handleClient (h : (handleClient ctx site).Reachable c) (hc : c.cancelled = false)
    {op : Op} {k : op.Answer → Prog Op Op.Answer (Except Unit Unit)}
    (hop : c.moment.program = .perform op k) (r : op.Answer) :
    ∃ tr stage stage', delivered tr = c.moment.seen ∧ stage.Since ctx tr ∧
      Next ctx stage ⟨op, r⟩ stage' := by
  obtain ⟨tr, hreach, hseen⟩ := reaches_of_handleClient h hc
  rw [hop] at hreach
  obtain ⟨stage, stage', hsince, hnext, -⟩ := stages_of_reaches (hreach.concat r)
  exact ⟨tr, stage, stage', hseen, hsince, hnext⟩

/-- A task that dials has accepted a request. -/
theorem accepted_of_connect (h : (handleClient ctx site).Reachable c) (hc : c.cancelled = false)
    {port : UInt16} {k : Except Unit Unit → Prog Op Op.Answer (Except Unit Unit)}
    (hop : c.moment.program = .perform (.connect port) k) :
    ∃ request, ctx.accepted c.moment.seen = some request ∧ request.targetPort = some port := by
  obtain ⟨tr, stage, stage', hseen, hsince, hnext⟩ := next_of_handleClient h hc hop (.ok ())
  rw [← hseen]
  cases hnext with
  | connects => exact ⟨_, hsince.accepted, hsince.port⟩

/-- A task that writes to the upstream writes the request that it has accepted. -/
theorem accepted_of_writeUpstream (h : (handleClient ctx site).Reachable c)
    (hc : c.cancelled = false) {data : Bytes}
    {k : Except Unit Unit → Prog Op Op.Answer (Except Unit Unit)}
    (hop : c.moment.program = .perform (.writeUpstream data) k) :
    ∃ request, ctx.accepted c.moment.seen = some request ∧ data = ctx.forwarded request := by
  obtain ⟨tr, stage, stage', hseen, hsince, hnext⟩ := next_of_handleClient h hc hop (.ok ())
  rw [← hseen]
  cases hnext with
  | forwards =>
    obtain ⟨port, tr₀, rfl, hdial⟩ := hsince
    refine ⟨_, ?_, rfl⟩
    rw [delivered_concat rfl]
    exact hdial.accepted

end Points

/-! ### The whole way -/

/-- The services of a listener are those of the valid files for its port. -/
theorem validFile_of_listener {parseToml : Str → Except Str Table} {fs : FileSystem} {v : Bool}
    {l : Listener} (hl : l ∈ startListen (getAllConfigs parseToml fs none) v) {config : ClientConfig}
    (hconfig : config ∈ l.configs) : (∃ conf ∈ getAllConfigPaths fs, ValidFile parseToml fs conf config) ∧
      config.listenPort = some l.port := by
  rw [eq_of_mem_startListen hl] at hconfig
  obtain ⟨hmem, hport⟩ := mem_configsOn.mp hconfig
  refine ⟨?_, hport⟩
  rw [getAllConfigs_eq, List.mem_filterMap] at hmem
  obtain ⟨conf, hconf, hload⟩ := hmem
  exact ⟨conf, hconf, loadFile_eq_some_iff.mp hload⟩

/-- **From the files to the upstreams**: in every interleaving, a connection that dials has read a
request for the host of a valid service file on the port of its listener, and dials the upstream of that
service; and what a connection writes upstream is the bytes it has read, with the headers of such a
service. -/
theorem proxied_to_configured_service {parseToml : Str → Except Str Table} {fs : FileSystem} {v : Bool}
    (hlisteners : S.listeners.Perm (startListen (getAllConfigs parseToml fs none) v))
    (h : (serverSystem S).Reachable s) {t : Task} (ht : t ∈ s.tasks) {c : ClientTask}
    (hjob : t.job = .client c) (hc : c.cancelled = false) :
    (∀ port k, c.moment.program = .perform (.connect port) k → ∃ conf ∈ getAllConfigPaths fs,
      ∃ config, ValidFile parseToml fs conf config ∧
        AsksFor S c.moment.seen t.listener.port config ∧ config.upstream.bind (·.port) = some port) ∧
    ∀ data k, c.moment.program = .perform (.writeUpstream data) k → ∃ conf ∈ getAllConfigPaths fs,
      ∃ config, ValidFile parseToml fs conf config ∧
        AsksFor S c.moment.seen t.listener.port config ∧
          data = finalBuf .plain (upstreamHeaders S.cfg.toScetyConfig config.headers t.clientIp)
            c.moment.seen := by
  have hsound := sound_of_reachable h t ht
  have hreach := (hsound.client c hjob).1
  have hl := hlisteners.mem_iff.mp hsound.listener
  have hconfigs : ∀ config ∈ t.listener.configs, config.listenPort = some t.listener.port :=
    fun _ hconfig => (validFile_of_listener hl hconfig).2
  refine ⟨?_, ?_⟩
  · intro port k hop
    obtain ⟨request, haccepted, hport⟩ := accepted_of_connect hreach hc hop
    obtain ⟨config, hconfig, hasks, htarget, -⟩ := asksFor_of_accepted hconfigs haccepted
    obtain ⟨⟨conf, hconf, hvalid⟩, -⟩ := validFile_of_listener hl hconfig
    exact ⟨conf, hconf, config, hvalid, hasks, htarget.symm.trans hport⟩
  · intro data k hop
    obtain ⟨request, haccepted, rfl⟩ := accepted_of_writeUpstream hreach hc hop
    obtain ⟨config, hconfig, hasks, -, hheaders, hbuf⟩ := asksFor_of_accepted hconfigs haccepted
    obtain ⟨⟨conf, hconf, hvalid⟩, -⟩ := validFile_of_listener hl hconfig
    refine ⟨conf, hconf, config, hvalid, hasks, ?_⟩
    unfold Context.forwarded
    rw [hheaders, hbuf]
    rfl

def proxyFile : Table :=
  [("mode".toList, .string "proxy".toList), ("host".toList, .string "a".toList),
    ("listen_port".toList, .integer 80), ("upstream".toList, .table [("port".toList, .integer 3000)])]

theorem loadConfig_proxyFile : loadConfig proxyFile = some proxiedService := by
  refine loadConfig_eq_some_iff.mpr ⟨ClientConfig.ofToml_eq_some_iff.mpr ?_, rfl⟩
  exact ⟨rfl, rfl, rfl, rfl, rfl, rfl, rfl, rfl, rfl, rfl⟩

/-- The file that `oneServer` is started from. -/
theorem startListen_proxyFile :
    startListen (getAllConfigs (fun _ => .ok proxyFile) oneService none) false = [oneListener] := by
  rw [getAllConfigs_oneService loadConfig_proxyFile]
  rfl

theorem proxied_to_configured_service_one : ∃ data, ∃ conf ∈ getAllConfigPaths oneService, ∃ config,
    ValidFile (fun _ => .ok proxyFile) oneService conf config ∧ AsksFor oneServer data 80 config ∧
      config.upstream.bind (·.port) = some 3000 := by
  have hrun : Runs proxyContext.processRequestInner.run
      ([⟨.readClient 4096, .ok ⟨crlfRequest, by decide⟩⟩, ⟨.timerFires, false⟩] ++
        ⟨.connect 3000, .ok ()⟩ :: _) (.ok ()) :=
    completes_proxyEvents crlfRequest (by decide) (by decide) rfl
  obtain ⟨k, hfront⟩ := hrun.reaches_front
  obtain ⟨seen, out, hc⟩ := @reachable_of_reaches proxyContext oneServer.site _ _ hfront
  have hserver := @reachable_of_handleClient oneServer oneListener _ _ _ [] [] _ _ _ _
    reachable_oneState (Or.inl rfl) hc rfl
  have hlisteners : oneServer.listeners.Perm
      (startListen (getAllConfigs (fun _ => .ok proxyFile) oneService none) false) := by
    rw [startListen_proxyFile]
    exact List.Perm.refl _
  exact ⟨seen, (proxied_to_configured_service hlisteners hserver (List.mem_singleton.mpr rfl) rfl
    rfl).1 3000 k rfl⟩

/-! ### Services with several upstream ports -/

/-- A valid service with a `listen_port` has an upstream, with one port or with several. -/
theorem upstream_of_valid {config : ClientConfig} (hvalid : validateConfig config = .ok ())
    {port : UInt16} (hport : config.listenPort = some port) :
    ∃ u, config.upstream = some u ∧ (u.port.isSome ↔ u.ports = none) := by
  obtain ⟨-, hlisten, hsections, hupstreams, -, -⟩ := validateConfig_eq_ok_iff.mp hvalid
  have hnone : config.listensPort = none := by
    unfold checkListenPorts at hlisten
    rw [hport] at hlisten
    cases hports : config.listensPort with
    | none => rfl
    | some ports =>
      rw [hports] at hlisten
      exact nomatch hlisten
  unfold checkSections at hsections
  rw [hnone] at hsections
  cases hu : config.upstream with
  | none =>
    rw [hu] at hsections
    exact nomatch hsections
  | some u =>
    have hcheck := forM_option_eq_ok_iff.mp (bind_eq_ok_iff.mp hupstreams).1 u hu
    exact ⟨u, rfl, checkUpstream_eq_ok_iff.mp hcheck⟩

theorem rejection_of_accepted {ctx : Context} {data : Bytes} {request : Request}
    (h : ctx.accepted data = some request) : ctx.rejection data = none := by
  unfold Context.accepted at h
  unfold Context.rejection
  rw [ite_eq_left_iff]
  intro _
  cases hparse : ctx.parse data with
  | incomplete =>
    rw [hparse] at h
    exact nomatch h
  | error => rfl
  | complete headers =>
    rw [hparse] at h
    dsimp only at h ⊢
    cases hframing : validateFramingHeaders headers with
    | error e =>
      rw [hframing] at h
      exact nomatch h
    | ok u =>
      rw [hframing] at h
      obtain ⟨host, hhost, h⟩ := Option.bind_eq_some_iff.mp h
      split_ifs at h with hlabels
      dsimp only
      rw [hhost]
      exact if_neg hlabels

/-- **Several upstream ports are not served**: in every run of a connection whose request is accepted for
a valid service, a service with `ports` is answered with the 502 page and nothing is done to an upstream;
a service with `port` gets no page unless its upstream refuses the connection. -/
theorem ports_not_served {parseToml : Str → Except Str Table} {fs : FileSystem} {v : Bool} {l : Listener}
    (hl : l ∈ startListen (getAllConfigs parseToml fs none) v) {clientIp : Str} {tr : Trace}
    (h : Completes (S.context l clientIp).processRequestInner tr (.ok ())) (h0 : delivered tr ≠ [])
    {request : Request} (haccepted : (S.context l clientIp).accepted (delivered tr) = some request) :
    ∃ config ∈ l.configs, AsksFor S (delivered tr) l.port config ∧ ∃ u, config.upstream = some u ∧
      (u.ports.isSome = true → (∀ ev ∈ tr, ev.1.isUpstreamOp = false) ∧
        (Quiet tr → pagesOf tr = [502])) ∧
      (u.ports = none → Quiet tr → tr.any isRefused = false → pagesOf tr = []) := by
  have hconfigs : ∀ config ∈ l.configs, config.listenPort = some l.port :=
    fun _ hconfig => (validFile_of_listener hl hconfig).2
  obtain ⟨config, hconfig, hasks, htarget, -⟩ := asksFor_of_accepted hconfigs haccepted
  obtain ⟨⟨conf, -, content, file, -, -, -, hvalid⟩, hport⟩ := validFile_of_listener hl hconfig
  obtain ⟨u, hu, hone⟩ := upstream_of_valid hvalid hport
  rw [hu, Option.bind_some] at htarget
  have hreach := reaches_end_iff.mpr h
  have hdue : Quiet tr → pagesOf tr =
      request.targetPort.elim [502] fun _ => if tr.any isRefused then [502] else [] := by
    intro hquiet
    obtain ⟨last, hafter, hover⟩ := obeys_processRequestInner.of_reaches hreach
    rw [pagesOf_of_over (pages_of_after hafter hquiet) hover]
    unfold Context.pagesDue
    rw [if_neg h0, rejection_of_accepted haccepted, haccepted]
    dsimp only
    cases request.targetPort <;> rfl
  refine ⟨config, hconfig, hasks, u, hu, ?_, ?_⟩
  · intro hports
    have hnone : request.targetPort = none := by
      rw [htarget, ← Option.not_isSome_iff_eq_none, hone]
      intro h
      rw [h] at hports
      exact nomatch hports
    rw [hnone] at hdue
    refine ⟨?_, hdue⟩
    intro ev hev
    by_contra hup
    obtain ⟨request', port, haccepted', hport'⟩ :=
      acceptsPort_of_upstream hreach ⟨ev, hev, by simpa using hup⟩
    obtain rfl := Option.some.inj (haccepted.symm.trans haccepted')
    rw [hnone] at hport'
    exact nomatch hport'
  · intro hnone hquiet hrefused
    obtain ⟨port, hport⟩ := Option.isSome_iff_exists.mp (hone.mpr hnone)
    rw [htarget, hport, hrefused] at hdue
    exact hdue hquiet

def portsService : ClientConfig :=
  { proxiedService with upstream := some ⟨none, some [3000, 3001], none⟩ }

def portsFile : Table :=
  [("mode".toList, .string "proxy".toList), ("host".toList, .string "a".toList),
    ("listen_port".toList, .integer 80),
    ("upstream".toList, .table [("ports".toList, .array [.integer 3000, .integer 3001])])]

theorem loadConfig_portsFile : loadConfig portsFile = some portsService := by
  refine loadConfig_eq_some_iff.mpr ⟨ClientConfig.ofToml_eq_some_iff.mpr ?_, rfl⟩
  exact ⟨rfl, rfl, rfl, rfl, rfl, rfl, rfl, rfl, rfl, rfl⟩

def portsListener : Listener := ⟨80, [portsService], false, .none⟩

/-- The request is read and answered with 502. -/
def portsEvents : Trace :=
  ⟨.readClient 4096, .ok ⟨crlfRequest, by decide⟩⟩ :: sendEvents 502

theorem completes_portsEvents :
    Completes (oneServer.context portsListener "10.0.0.1:5000".toList).processRequestInner portsEvents
      (.ok ()) := by
  have hread : Completes (oneServer.context portsListener "10.0.0.1:5000".toList).readRequest
      [⟨.readClient 4096, .ok ⟨crlfRequest, by decide⟩⟩]
      (.ok (some ⟨crlfRequest, none, none, false⟩)) :=
    @Context.completes_readRequest (oneServer.context portsListener "10.0.0.1:5000".toList)
      ⟨crlfRequest, by decide⟩ (by decide) spoofingHeaders rfl _ _ (completes_pure_iff.mpr ⟨rfl, rfl⟩)
  exact completes_bind_iff.mpr (Or.inr ⟨_, [_], sendEvents 502, rfl,
    completes_timeoutIfSome_none hread, completes_sendEvents 502⟩)

theorem quiet_proxyEvents (data : Bytes) (hlen : data.length ≤ 4096) : Quiet (proxyEvents data hlen) := by
  intro fired hmem
  have hcases : (⟨.timerFires, fired⟩ : Event Op Op.Answer) = ⟨.timerFires, false⟩ := by
    simp only [proxyEvents, List.mem_cons, List.not_mem_nil, or_false] at hmem
    rcases hmem with h | h | h | h | h
    · exact nomatch congrArg Sigma.fst h
    · exact h
    · exact nomatch congrArg Sigma.fst h
    · exact nomatch congrArg Sigma.fst h
    · exact nomatch congrArg Sigma.fst h
  exact eq_of_heq (Sigma.mk.inj hcases).2

/-- The same request for a service with two ports, and for one with one port. -/
theorem ports_not_served_one :
    (∃ config ∈ portsListener.configs, ∃ u, config.upstream = some u ∧ u.ports.isSome = true ∧
      (∀ ev ∈ portsEvents, ev.1.isUpstreamOp = false) ∧ pagesOf portsEvents = [502]) ∧
    ∃ config ∈ oneListener.configs, ∃ u, config.upstream = some u ∧ u.ports = none ∧
      pagesOf (proxyEvents crlfRequest (by decide)) = [] := by
  refine ⟨?_, ?_⟩
  · have hl : portsListener ∈
        startListen (getAllConfigs (fun _ => .ok portsFile) oneService none) false := by
      rw [getAllConfigs_oneService loadConfig_portsFile]
      exact List.mem_singleton.mpr rfl
    have hdelivered : delivered portsEvents = crlfRequest := List.append_nil _
    have haccepted : (oneServer.context portsListener "10.0.0.1:5000".toList).accepted
        (delivered portsEvents) = some ⟨crlfRequest, none, none, false⟩ := by
      rw [hdelivered]
      rfl
    obtain ⟨config, hconfig, -, u, hu, hports, -⟩ :=
      ports_not_served hl completes_portsEvents (by rw [hdelivered]; decide) haccepted
    obtain rfl := List.mem_singleton.mp hconfig
    obtain rfl := Option.some.inj hu
    obtain ⟨hupstream, hpages⟩ := hports rfl
    exact ⟨_, hconfig, _, hu, rfl, hupstream, hpages (quiet_of_all rfl)⟩
  · have hl : oneListener ∈
        startListen (getAllConfigs (fun _ => .ok proxyFile) oneService none) false := by
      rw [startListen_proxyFile]
      exact List.mem_singleton.mpr rfl
    have hrun : Completes (oneServer.context oneListener "10.0.0.1:5000".toList).processRequestInner
        (proxyEvents crlfRequest (by decide)) (.ok ()) :=
      completes_proxyEvents crlfRequest (by decide) (by decide) rfl
    have hdelivered : delivered (proxyEvents crlfRequest (by decide)) = crlfRequest := List.append_nil _
    have haccepted : (oneServer.context oneListener "10.0.0.1:5000".toList).accepted
        (delivered (proxyEvents crlfRequest (by decide))) =
          some ⟨crlfRequest, some 3000, none, false⟩ := by
      rw [hdelivered]
      rfl
    obtain ⟨config, hconfig, -, u, hu, -, hport⟩ :=
      ports_not_served hl hrun (by rw [hdelivered]; decide) haccepted
    obtain rfl := List.mem_singleton.mp hconfig
    obtain rfl := Option.some.inj hu
    exact ⟨_, hconfig, _, hu, rfl, hport rfl (quiet_proxyEvents _ _) rfl⟩

end Scety
