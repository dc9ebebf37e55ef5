import Scety.Network.Forwarding
import Scety.Network.Protocol
import Scety.Network.Responses

/-!
# The order of the operations of a connection

What the protocol of a connection says of the points of a run: when the upstream is dialed, what was
done before it is written to and before its bytes are relayed, which pages may follow what, and that a
socket that fails ends the run.
-/

namespace Scety

open Effects

/-! ### Before an operation -/

section Order

variable {ctx : Context} {stage stage' : Stage} {tr tr₁ tr₂ : Trace} {ev : Event Op Op.Answer}
  {q : Prog Op Op.Answer (Except Unit Unit)}

/-- The operations that relay the response, but for the timer. -/
def Op.relaysResponse : Op → Bool
  | readUpstream _ => true
  | copyBidirectional => true
  | writeClient (.relay _) => true
  | _ => false

theorem stage_of_relaysResponse (h : Next ctx stage ev stage') (hop : ev.1.relaysResponse = true) :
    stage = .relaying := by
  cases h <;> first | rfl | exact absurd hop (by simp [Op.relaysResponse])

theorem stage_of_page {code : ℕ} {exposeVersion : Bool} {r : Except Unit Unit}
    (h : Next ctx stage ⟨.writeClient (.page code exposeVersion), r⟩ stage') :
    exposeVersion = ctx.exposeVersion ∧ (stage = .rejecting code ∨ stage = .failing code) := by
  cases h with
  | rejects => exact ⟨rfl, Or.inl rfl⟩
  | fails => exact ⟨rfl, Or.inr rfl⟩

/-- The bytes read are those of a request with a port. -/
def Context.AcceptsPort (ctx : Context) (tr : Trace) : Prop :=
  ∃ request port, ctx.accepted (delivered tr) = some request ∧ request.targetPort = some port

theorem Context.AcceptsPort.concat (h : ctx.AcceptsPort tr) (hev : ev.1.isClientRead = false) :
    ctx.AcceptsPort (tr ++ [ev]) := by
  unfold Context.AcceptsPort
  rw [delivered_concat hev]
  exact h

theorem whenOk_not_inHead {r : Except Unit Unit} (h : ¬ stage.InHead) :
    ¬ (Context.whenOk r stage).InHead := by
  cases r with
  | error e => exact id
  | ok u => exact h

theorem ifLate_not_inHead {fired : Bool} {late : Stage} (hlate : ¬ late.InHead) (h : ¬ stage.InHead) :
    ¬ (Context.ifLate fired late stage).InHead := by
  cases fired with
  | false => exact h
  | true => exact hlate

/-- Once something was done to the upstream, the request stays the one that was accepted. -/
theorem acceptsPort_next (hsince : stage.Since ctx tr)
    (h : (∃ ev ∈ tr, ev.1.isUpstreamOp = true) → ¬ stage.InHead ∧ ctx.AcceptsPort tr)
    (hnext : Next ctx stage ev stage')
    (hup : ∃ ev' ∈ tr ++ [ev], ev'.1.isUpstreamOp = true) :
    ¬ stage'.InHead ∧ ctx.AcceptsPort (tr ++ [ev]) := by
  have hold : ev.1.isUpstreamOp = false → ¬ stage.InHead ∧ ctx.AcceptsPort tr := by
    intro hev
    obtain ⟨ev', hmem, hev'⟩ := hup
    rcases List.mem_append.mp hmem with hmem | hmem
    · exact h ⟨ev', hmem, hev'⟩
    · rw [List.mem_singleton.mp hmem, hev] at hev'
      exact nomatch hev'
  have hrelay : Stage.relaying.Since ctx tr → stage = .relaying → ctx.AcceptsPort tr := by
    rintro ⟨request, port, tr₀, tr₁, rfl, -, -⟩ -
    exact (h ⟨_, List.mem_append_right _ List.mem_cons_self, rfl⟩).2
  cases hnext with
  | headTimer fired hhead => exact absurd hhead (hold rfl).1
  | readLost => exact absurd trivial (hold rfl).1
  | readEnd hn => exact absurd trivial (hold rfl).1
  | readMore hn => exact absurd trivial (hold rfl).1
  | rejects r => exact absurd trivial (hold rfl).1
  | rejectedFlush r => exact absurd trivial (hold rfl).1
  | fails r => exact ⟨whenOk_not_inHead id, (hold rfl).2.concat rfl⟩
  | failedFlush r => exact ⟨whenOk_not_inHead id, (hold rfl).2.concat rfl⟩
  | dialTimer fired => exact ⟨ifLate_not_inHead id id, (hold rfl).2.concat rfl⟩
  | refused => exact ⟨id, .concat ⟨_, _, hsince.accepted, hsince.port⟩ rfl⟩
  | connects => exact ⟨id, .concat ⟨_, _, hsince.accepted, hsince.port⟩ rfl⟩
  | forwards r =>
    obtain ⟨port, tr₀, rfl, hdial⟩ := hsince
    have haccepts : ctx.AcceptsPort tr₀ := ⟨_, _, hdial.accepted, hdial.port⟩
    exact ⟨whenOk_not_inHead id, (haccepts.concat rfl).concat rfl⟩
  | relayTimer fired => exact ⟨ifLate_not_inHead id id, (hrelay hsince rfl).concat rfl⟩
  | relayLost => exact ⟨id, (hrelay hsince rfl).concat rfl⟩
  | relayRead => exact ⟨id, (hrelay hsince rfl).concat rfl⟩
  | relayWrite r => exact ⟨whenOk_not_inHead id, (hrelay hsince rfl).concat rfl⟩
  | relayCopy copied => exact ⟨whenOk_not_inHead id, (hrelay hsince rfl).concat rfl⟩

/-- If something was done to the upstream, the bytes read are those of a request with a port. -/
theorem acceptsPort_of_upstream {q : Prog Op Op.Answer (Except Unit Unit)}
    (h : Reaches ctx.processRequestInner.run tr q) (hup : ∃ ev ∈ tr, ev.1.isUpstreamOp = true) :
    ctx.AcceptsPort tr := by
  obtain ⟨last, hafter, -⟩ := obeys_processRequestInner.of_reaches h
  have hinv : last.Since ctx tr ∧
      ((∃ ev ∈ tr, ev.1.isUpstreamOp = true) → ¬ last.InHead ∧ ctx.AcceptsPort tr) := by
    refine Monitor.after_invariant (J := fun tr s => Stage.Since ctx tr s ∧
      ((∃ ev ∈ tr, ev.1.isUpstreamOp = true) → ¬ s.InHead ∧ ctx.AcceptsPort tr)) ?_ ?_ hafter
    · exact ⟨⟨rfl, by simp⟩, by simp⟩
    · intro tr s₁ ev s₂ ⟨hsince, hJ⟩ hnext
      have hnext' := next_of_nextStage hnext
      exact ⟨since_next hsince hnext', acceptsPort_next hsince hJ hnext'⟩
  exact (hinv.2 hup).2

/-- **The order of the operations**, at every point of every partial run: the upstream is dialed only
when a request was accepted for its port and nothing was done but reading it; it is written to only
right after the connection, and then it is the rewritten request; its bytes are relayed only after that
write; and a page is written only if no connection was established. -/
theorem connection_order (h : Reaches ctx.processRequestInner.run (tr₁ ++ ev :: tr₂) q) :
    (∀ port, ev.1 = .connect port → ∃ request, Dialing ctx request port tr₁) ∧
    (∀ data, ev.1 = .writeUpstream data → ∃ request port tr₀,
      tr₁ = tr₀ ++ [⟨.connect port, .ok ()⟩] ∧ Dialing ctx request port tr₀ ∧
        data = ctx.forwarded request) ∧
    (ev.1.relaysResponse = true → ∃ request port tr₀ tr₃,
      tr₁ = tr₀ ++ ⟨.connect port, .ok ()⟩ :: ⟨.writeUpstream (ctx.forwarded request), .ok ()⟩ :: tr₃ ∧
        Dialing ctx request port tr₀ ∧ ∀ ev' ∈ tr₃, ev'.1.isRelayOp = true) ∧
    ∀ code exposeVersion, ev.1 = .writeClient (.page code exposeVersion) →
      exposeVersion = ctx.exposeVersion ∧ ∀ ev' ∈ tr₁, ev'.1.isUpstreamOp = false ∨
        ∃ port, ev' = ⟨.connect port, .error ()⟩ := by
  obtain ⟨stage, stage', hsince, hnext, -⟩ := stages_of_reaches h
  refine ⟨?_, ?_, ?_, ?_⟩
  · intro port hop
    obtain ⟨op, r⟩ := ev
    obtain rfl : op = .connect port := hop
    cases hnext with
    | refused => exact ⟨_, hsince⟩
    | connects => exact ⟨_, hsince⟩
  · intro data hop
    obtain ⟨op, r⟩ := ev
    obtain rfl : op = .writeUpstream data := hop
    cases hnext with
    | @forwards request r =>
      obtain ⟨port, tr₀, htr, hdial⟩ := hsince
      exact ⟨request, port, tr₀, htr, hdial, rfl⟩
  · intro hop
    obtain rfl := stage_of_relaysResponse hnext hop
    exact hsince
  · intro code exposeVersion hop
    obtain ⟨op, r⟩ := ev
    obtain rfl : op = .writeClient (.page code exposeVersion) := hop
    obtain ⟨hversion, rfl | rfl⟩ := stage_of_page hnext
    · exact ⟨hversion, fun ev' hev => Or.inl (Op.isUpstreamOp_of_isHeadOp (hsince ev' hev))⟩
    · exact ⟨hversion, hsince⟩

theorem connection_order_crlf : ∃ request, Dialing proxyContext request 3000
    [⟨.readClient 4096, .ok ⟨crlfRequest, by decide⟩⟩, ⟨.timerFires, false⟩] :=
  (@connection_order proxyContext [⟨.readClient 4096, .ok ⟨crlfRequest, by decide⟩⟩, ⟨.timerFires, false⟩]
    _ ⟨.connect 3000, .ok ()⟩ _
    (reaches_end_iff.mpr (completes_proxyEvents crlfRequest (by decide) (by decide) rfl))).1 3000 rfl

end Order

/-! ### A socket that fails -/

/-- The socket of the client or of the upstream fails.  A connection that is refused is no failure. -/
def socketFails : Event Op Op.Answer → Bool
  | ⟨.readClient _, .error _⟩ => true
  | ⟨.writeClient _, .error _⟩ => true
  | ⟨.flushClient, .error _⟩ => true
  | ⟨.readUpstream _, .error _⟩ => true
  | ⟨.writeUpstream _, .error _⟩ => true
  | ⟨.copyBidirectional, ⟨_, _, .error _⟩⟩ => true
  | _ => false

section Failures

variable {ctx : Context} {stage stage' : Stage} {tr : Trace} {ev : Event Op Op.Answer}

/-- A write whose result decides whether the socket has failed. -/
theorem whenOk_broken_iff {f : Except Unit Unit → Bool} (h : stage ≠ .broken)
    (herr : f (.error ()) = true) (hok : f (.ok ()) = false) (r : Except Unit Unit) :
    Context.whenOk r stage = .broken ↔ f r = true := by
  cases r with
  | error e => exact iff_of_true rfl herr
  | ok u => exact iff_of_false h (by rw [hok]; exact Bool.false_ne_true)

theorem ifLate_ne_broken {fired : Bool} {late : Stage} (hlate : late ≠ .broken)
    (h : stage ≠ .broken) : Context.ifLate fired late stage ≠ .broken := by
  cases fired with
  | false => exact h
  | true => exact hlate

theorem stageOf_ne_broken (data : Bytes) : ctx.stageOf data ≠ .broken := by
  unfold Context.stageOf Context.stageOfRequest
  split
  · simp
  · split
    · split <;> simp
    · split <;> simp

/-- An event leads to the broken stage if and only if it is a failure. -/
theorem Next.broken_iff (h : Next ctx stage ev stage') :
    stage' = .broken ↔ socketFails ev = true := by
  have hno : ∀ {s : Stage}, s ≠ .broken → socketFails ev = false →
      (s = .broken ↔ socketFails ev = true) :=
    fun hs hev => iff_of_false hs (by rw [hev]; exact Bool.false_ne_true)
  cases h with
  | headTimer fired hhead =>
    refine hno (ifLate_ne_broken (by simp) ?_) rfl
    rintro rfl
    exact hhead
  | readLost => exact iff_of_true rfl rfl
  | readEnd => exact hno (by simp) rfl
  | readMore => exact hno (stageOf_ne_broken _) rfl
  | @rejects code r =>
    exact whenOk_broken_iff (f := fun r => socketFails ⟨.writeClient _, r⟩) (by simp) rfl rfl r
  | rejectedFlush r =>
    exact whenOk_broken_iff (f := fun r => socketFails ⟨.flushClient, r⟩) (by simp) rfl rfl r
  | fails r =>
    exact whenOk_broken_iff (f := fun r => socketFails ⟨.writeClient _, r⟩) (by simp) rfl rfl r
  | failedFlush r =>
    exact whenOk_broken_iff (f := fun r => socketFails ⟨.flushClient, r⟩) (by simp) rfl rfl r
  | dialTimer fired => exact hno (ifLate_ne_broken (by simp) (by simp)) rfl
  | refused => exact hno (by simp) rfl
  | connects => exact hno (by simp) rfl
  | forwards r =>
    exact whenOk_broken_iff (f := fun r => socketFails ⟨.writeUpstream _, r⟩) (by simp) rfl rfl r
  | relayTimer fired => exact hno (ifLate_ne_broken (by simp) (by simp)) rfl
  | relayLost => exact iff_of_true rfl rfl
  | relayRead => exact hno (by simp) rfl
  | relayWrite r =>
    exact whenOk_broken_iff (f := fun r => socketFails ⟨.writeClient _, r⟩) (by simp) rfl rfl r
  | relayCopy copied =>
    obtain ⟨toClient, toUpstream, result⟩ := copied
    exact whenOk_broken_iff (f := fun r => socketFails ⟨.copyBidirectional, ⟨_, _, r⟩⟩) (by simp)
      rfl rfl result

theorem not_next_broken : ¬ Next ctx .broken ev stage' := by
  intro h
  cases h with
  | headTimer fired hhead => exact hhead

/-- The stage is broken as soon as a socket has failed. -/
theorem after_eq_broken_iff (h : ctx.protocol.after (.reading []) tr = some stage) :
    stage = .broken ↔ ∃ ev ∈ tr, socketFails ev = true := by
  refine Monitor.after_invariant (J := fun tr s => s = .broken ↔ ∃ ev ∈ tr, socketFails ev = true)
    ?_ ?_ h
  · exact iff_of_false (by simp) (by simp)
  · intro tr s₁ ev s₂ hs hnext
    have hnext' := next_of_nextStage hnext
    have hbefore : ¬ ∃ ev ∈ tr, socketFails ev = true := by
      rw [← hs]
      rintro rfl
      exact not_next_broken hnext'
    rw [hnext'.broken_iff]
    refine ⟨fun hev => ⟨ev, by simp, hev⟩, ?_⟩
    rintro ⟨ev', hmem, hev'⟩
    rcases List.mem_append.mp hmem with hmem | hmem
    · exact absurd ⟨ev', hmem, hev'⟩ hbefore
    · rwa [← List.mem_singleton.mp hmem]

/-- **A socket that fails ends the run**: `process_request` returns an error if and only if a socket of
the client or of the upstream has failed, and the failure is the last thing that happens.  A connection
to the upstream that is refused is answered with a page instead. -/
theorem socket_failure_iff {r : Except Unit Unit} (h : Completes ctx.processRequestInner tr r) :
    (r = .error () ↔ ∃ ev ∈ tr, socketFails ev = true) ∧
      ∀ tr₁ ev tr₂, tr = tr₁ ++ ev :: tr₂ → socketFails ev = true → tr₂ = [] := by
  have hreach := reaches_end_iff.mpr h
  refine ⟨?_, ?_⟩
  · obtain ⟨last, hafter, hover⟩ := obeys_processRequestInner.of_reaches hreach
    rw [← after_eq_broken_iff hafter]
    have hover' : Stage.Over r last := hover
    cases r with
    | error e => exact iff_of_true rfl hover'
    | ok u =>
      refine iff_of_false (by simp) ?_
      rcases hover' with rfl | rfl
      · simp
      · simp
  · rintro tr₁ ev tr₂ rfl hev
    obtain ⟨stage, stage', -, hnext, last, hafter, -⟩ := stages_of_reaches hreach
    obtain rfl := hnext.broken_iff.mpr hev
    cases tr₂ with
    | nil => rfl
    | cons ev' tr₂ =>
      obtain ⟨s, hs, -⟩ := Monitor.after_cons_iff.mp hafter
      have hnext' : ctx.nextStage .broken ev' = some s := hs
      exact absurd (next_of_nextStage hnext') not_next_broken

/-- A client that is lost before it has sent anything. -/
theorem socket_failure_lost : ∃ ev ∈ ([⟨.readClient 4096, .error ()⟩] : Trace),
    socketFails ev = true := by
  have hread : Completes (emptyContext fun _ => .incomplete).readRequest
      [⟨.readClient 4096, .error ()⟩] (.error ()) := by
    unfold Context.readRequest
    rw [Context.readLoop]
    exact completes_bind_iff.mpr (Or.inl ⟨(), completes_readClient.mpr rfl, rfl⟩)
  have hrun : Completes (emptyContext fun _ => .incomplete).processRequestInner
      [⟨.readClient 4096, .error ()⟩] (.error ()) :=
    completes_bind_iff.mpr (Or.inr ⟨some (.error ()), [_], [], rfl, completes_timeoutIfSome_none hread,
      completes_throw_iff.mpr ⟨rfl, rfl⟩⟩)
  exact (socket_failure_iff hrun).1.mp rfl

end Failures

/-! ### The pages of a run -/

/-- The upstream refuses the connection. -/
def isRefused : Event Op Op.Answer → Bool
  | ⟨.connect _, .error _⟩ => true
  | _ => false

/-- The pages that a client gets while no timer fires and no socket fails, decided on the bytes read and
on whether the upstream refuses the connection. -/
def Context.pagesDue (ctx : Context) (tr : Trace) : List ℕ :=
  if delivered tr = [] then [404]
  else
    match ctx.rejection (delivered tr) with
    | some code => [code, 404]
    | none =>
      match ctx.accepted (delivered tr) with
      | none => [404]
      | some request =>
        match request.targetPort with
        | none => [502]
        | some _ => if tr.any isRefused then [502] else []

/-- The pages written so far, and those that are due. -/
def Stage.Pages (ctx : Context) (tr : Trace) : Stage → Prop
  | .reading data => pagesOf tr = [] ∧
      (data ≠ [] → ctx.rejection data = none ∧ ctx.accepted data = none)
  | .rejecting code => pagesOf tr = [] ∧ ctx.pagesDue tr = [code, 404]
  | .rejected => ∃ code, pagesOf tr = [code] ∧ ctx.pagesDue tr = [code, 404]
  | .failing code => ctx.pagesDue tr = pagesOf tr ++ [code]
  | .dialing _ _ => pagesOf tr = [] ∧ delivered tr ≠ []
  | .broken => True
  | _ => ctx.pagesDue tr = pagesOf tr

section Pages

variable {ctx : Context} {stage stage' : Stage} {tr : Trace} {ev : Event Op Op.Answer}

theorem pagesOf_concat (h : pageOf ev = none) : pagesOf (tr ++ [ev]) = pagesOf tr := by
  rw [pagesOf_append]
  unfold pagesOf
  rw [List.filterMap_cons_none h, List.filterMap_nil, List.append_nil]

/-- Events that neither read nor refuse do not change what is due. -/
theorem pagesDue_concat (hread : ev.1.isClientRead = false) (hrefused : isRefused ev = false) :
    ctx.pagesDue (tr ++ [ev]) = ctx.pagesDue tr := by
  unfold Context.pagesDue
  rw [delivered_concat hread, List.any_append, List.any_cons, hrefused, List.any_nil, Bool.or_false,
    Bool.or_false]

/-- Events that change neither side. -/
theorem pagesDue_eq_concat (h : ctx.pagesDue tr = pagesOf tr) (hread : ev.1.isClientRead = false)
    (hrefused : isRefused ev = false) (hpage : pageOf ev = none) :
    ctx.pagesDue (tr ++ [ev]) = pagesOf (tr ++ [ev]) := by
  rw [pagesDue_concat hread hrefused, pagesOf_concat hpage]
  exact h

theorem isRefused_eq_false (h : ev.1.isHeadOp = true) : isRefused ev = false := by
  obtain ⟨op, r⟩ := ev
  cases op <;> first | rfl | exact absurd h (by simp [Op.isHeadOp])

/-- Of a dialed request only the answer of the upstream is open. -/
theorem pagesDue_of_dialing {request : Request} {port : UInt16} (hdial : Dialing ctx request port tr)
    (h0 : delivered tr ≠ []) (r : Except Unit Unit) :
    ctx.pagesDue (tr ++ [⟨.connect port, r⟩]) =
      if isRefused ⟨.connect port, r⟩ then [502] else [] := by
  have hnone : tr.any isRefused = false := by
    rw [List.any_eq_false]
    intro ev hev
    rw [isRefused_eq_false (hdial.head ev hev)]
    exact Bool.false_ne_true
  unfold Context.pagesDue
  rw [delivered_concat rfl, if_neg h0, hdial.unrejected, hdial.accepted]
  dsimp only
  rw [hdial.port, List.any_append, hnone, List.any_cons, List.any_nil, Bool.or_false, Bool.false_or]

/-- What is due after a read. -/
theorem pages_stageOf (h0 : delivered tr ≠ []) (hpages : pagesOf tr = []) :
    (ctx.stageOf (delivered tr)).Pages ctx tr := by
  have hdue : ctx.pagesDue tr = match ctx.rejection (delivered tr) with
      | some code => [code, 404]
      | none =>
        match ctx.accepted (delivered tr) with
        | none => [404]
        | some request =>
          match request.targetPort with
          | none => [502]
          | some _ => if tr.any isRefused then [502] else [] := if_neg h0
  unfold Context.stageOf
  cases hrej : ctx.rejection (delivered tr) with
  | some code =>
    rw [hrej] at hdue
    exact ⟨hpages, hdue⟩
  | none =>
    rw [hrej] at hdue
    dsimp only at hdue ⊢
    cases hacc : ctx.accepted (delivered tr) with
    | some request =>
      rw [hacc] at hdue
      dsimp only at hdue ⊢
      unfold Context.stageOfRequest
      cases hport : request.targetPort with
      | some port => exact ⟨hpages, h0⟩
      | none =>
        rw [hport] at hdue
        show ctx.pagesDue tr = pagesOf tr ++ [502]
        rw [hpages]
        exact hdue
    | none =>
      rw [hacc] at hdue
      dsimp only at hdue ⊢
      have hfail : ctx.pagesDue tr = pagesOf tr ++ [404] := by
        rw [hpages]
        exact hdue
      cases ctx.parse (delivered tr) with
      | incomplete => exact ⟨hpages, fun _ => ⟨hrej, hacc⟩⟩
      | complete headers => exact hfail
      | error => exact hfail

theorem pages_whenOk {r : Except Unit Unit} (h : r = .ok () → stage.Pages ctx tr) :
    (Context.whenOk r stage).Pages ctx tr := by
  cases r with
  | error e => trivial
  | ok u => exact h rfl

/-- A timer that does not fire leaves everything as it is. -/
theorem pages_timer (h : stage.Pages ctx tr) :
    stage.Pages ctx (tr ++ [⟨.timerFires, false⟩]) := by
  have hpages : pagesOf (tr ++ [⟨.timerFires, false⟩]) = pagesOf tr := pagesOf_concat rfl
  have hdue : ctx.pagesDue (tr ++ [⟨.timerFires, false⟩]) = ctx.pagesDue tr := pagesDue_concat rfl rfl
  have hdelivered : delivered (tr ++ [⟨.timerFires, false⟩]) = delivered tr := delivered_concat rfl
  unfold Stage.Pages at h ⊢
  rw [hpages, hdue, hdelivered]
  exact h

theorem pages_next (hsince : stage.Since ctx tr) (h : stage.Pages ctx tr)
    (hnext : Next ctx stage ev stage') (hquiet : ev ≠ ⟨.timerFires, true⟩) :
    stage'.Pages ctx (tr ++ [ev]) := by
  have htimer : ∀ {late : Stage} {fired : Bool},
      (⟨.timerFires, fired⟩ : Event Op Op.Answer) ≠ ⟨.timerFires, true⟩ →
        (Context.ifLate fired late stage).Pages ctx (tr ++ [⟨.timerFires, fired⟩]) := by
    intro late fired hfired
    cases fired with
    | false => exact pages_timer h
    | true => exact absurd rfl hfired
  cases hnext with
  | headTimer fired hhead => exact htimer hquiet
  | readLost => trivial
  | @readEnd data len n hn =>
    have hdata : delivered (tr ++ [⟨.readClient len, .ok n⟩]) = data := by
      rw [delivered_read, hsince.1, hn, List.append_nil]
    have hpages : pagesOf (tr ++ [⟨.readClient len, .ok n⟩]) = [] := (pagesOf_concat rfl).trans h.1
    show ctx.pagesDue _ = pagesOf _ ++ [404]
    rw [hpages]
    unfold Context.pagesDue
    rw [hdata]
    by_cases h0 : data = []
    · rw [if_pos h0]
      rfl
    · obtain ⟨hrej, hacc⟩ := h.2 h0
      rw [if_neg h0, hrej, hacc]
      rfl
  | @readMore data len n hn =>
    rw [← hsince.1, ← delivered_read n]
    refine pages_stageOf ?_ ((pagesOf_concat rfl).trans h.1)
    rw [delivered_read]
    exact List.append_ne_nil_of_right_ne_nil _ hn
  | @rejects code r =>
    refine pages_whenOk ?_
    rintro rfl
    refine ⟨code, ?_, (pagesDue_concat rfl rfl).trans h.2⟩
    rw [pagesOf_append, h.1]
    rfl
  | rejectedFlush r =>
    obtain ⟨code, hpages, hdue⟩ := h
    refine pages_whenOk ?_
    rintro rfl
    show ctx.pagesDue _ = pagesOf _ ++ [404]
    rw [pagesDue_concat rfl rfl, pagesOf_concat rfl, hpages, hdue]
    rfl
  | @fails code r =>
    refine pages_whenOk ?_
    rintro rfl
    show ctx.pagesDue _ = pagesOf _
    rw [pagesDue_concat rfl rfl, pagesOf_append]
    exact h
  | failedFlush r =>
    refine pages_whenOk ?_
    rintro rfl
    exact pagesDue_eq_concat h rfl rfl rfl
  | dialTimer fired => exact htimer hquiet
  | @refused request port e =>
    show ctx.pagesDue _ = pagesOf _ ++ [502]
    rw [pagesDue_of_dialing hsince h.2, pagesOf_concat rfl, h.1]
    rfl
  | @connects request port u =>
    show ctx.pagesDue _ = pagesOf _
    rw [pagesDue_of_dialing hsince h.2, pagesOf_concat rfl, h.1]
    rfl
  | forwards r =>
    refine pages_whenOk ?_
    rintro rfl
    exact pagesDue_eq_concat h rfl rfl rfl
  | relayTimer fired => exact htimer hquiet
  | relayLost => trivial
  | relayRead => exact pagesDue_eq_concat h rfl rfl rfl
  | relayWrite r =>
    refine pages_whenOk ?_
    rintro rfl
    exact pagesDue_eq_concat h rfl rfl rfl
  | relayCopy copied =>
    exact pages_whenOk fun _ => pagesDue_eq_concat h rfl rfl rfl

/-- While no timer fires, the pages are accounted for at every stage. -/
theorem pages_of_after (h : ctx.protocol.after (.reading []) tr = some stage) (hquiet : Quiet tr) :
    stage.Pages ctx tr := by
  have hinv : Quiet tr → stage.Since ctx tr ∧ stage.Pages ctx tr := by
    refine Monitor.after_invariant
      (J := fun tr s => Quiet tr → Stage.Since ctx tr s ∧ Stage.Pages ctx tr s) ?_ ?_ h
    · exact fun _ => ⟨⟨rfl, by simp⟩, rfl, fun h0 => absurd rfl h0⟩
    · intro tr s₁ ev s₂ hs hnext hq
      have hq' : Quiet tr := fun fired hmem => hq fired (List.mem_append_left _ hmem)
      have hnext' := next_of_nextStage hnext
      obtain ⟨hsince, hpages⟩ := hs hq'
      refine ⟨since_next hsince hnext', pages_next hsince hpages hnext' ?_⟩
      rintro rfl
      exact absurd (hq true (by simp)) (by decide)
  exact (hinv hquiet).2

theorem pagesOf_of_over (hpages : stage.Pages ctx tr) (hover : Stage.Over (.ok ()) stage) :
    pagesOf tr = ctx.pagesDue tr := by
  have hover' : stage = .relaying ∨ stage = .closed := hover
  rcases hover' with rfl | rfl
  · exact hpages.symm
  · exact hpages.symm

/-- **The pages of a run** in which no timer fires and no socket fails are decided by the bytes read and
by whether the upstream refuses the connection. -/
theorem pagesOf_eq_pagesDue (h : Completes ctx.processRequestInner tr (.ok ())) (hquiet : Quiet tr) :
    pagesOf tr = ctx.pagesDue tr := by
  obtain ⟨last, hafter, hover⟩ := obeys_processRequestInner.of_reaches (reaches_end_iff.mpr h)
  exact pagesOf_of_over (pages_of_after hafter hquiet) hover

/-- The rejected request gets its page and the 404 page. -/
theorem pagesOf_smuggled : [400, 404] =
    (emptyContext parseSmuggled).pagesDue ((smuggledEvents ++ sendEvents 400) ++ sendEvents 404) :=
  pagesOf_eq_pagesDue (completes_emptyContext completes_smuggledEvents) (quiet_of_all rfl)

end Pages

end Scety
