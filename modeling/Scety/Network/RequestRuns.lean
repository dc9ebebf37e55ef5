import Scety.Network.Request

/-!
# The runs of `process_request_inner`

What a run shows of the client's bytes and of the pages and bytes written to the client, and what
the two parts of a run do: reading the request (`readRequest_outcome`) and serving an accepted one
(`isReply_acceptedRequest`).
-/

namespace Scety

open Effects Lines

/-! ### What a trace shows -/

/-- The bytes that the event delivers from the client. -/
def deliveredBy : Event Op Op.Answer → Bytes
  | ⟨.readClient _, .ok data⟩ => data.1
  | _ => []

/-- The client's bytes that a run has read. -/
def delivered (tr : Trace) : Bytes := tr.flatMap deliveredBy

/-- The page that `send` starts to write. -/
def pageOf : Event Op Op.Answer → Option ℕ
  | ⟨.writeClient (.page code _), _⟩ => some code
  | _ => none

/-- The calls of `send` in a run. -/
def pagesOf (tr : Trace) : List ℕ := tr.filterMap pageOf

/-- The event writes bytes of the upstream to the client. -/
def relays : Event Op Op.Answer → Bool
  | ⟨.writeClient (.relay data), _⟩ => data ≠ []
  | ⟨.copyBidirectional, copied⟩ => copied.toClient ≠ []
  | _ => false

/-- Whether a write to the client or a flush succeeds. -/
def outputResult : Event Op Op.Answer → Option Bool
  | ⟨.writeClient _, .ok _⟩ => some true
  | ⟨.writeClient _, .error _⟩ => some false
  | ⟨.flushClient, .ok _⟩ => some true
  | ⟨.flushClient, .error _⟩ => some false
  | _ => none

def outputResults (tr : Trace) : List Bool := tr.filterMap outputResult

/-- The operations that change what the client has got. -/
def Op.isOutput : Op → Bool
  | writeClient _ => true
  | flushClient => true
  | copyBidirectional => true
  | _ => false

def Op.isClientRead : Op → Bool
  | readClient _ => true
  | _ => false

/-- The part of a run that concerns the output to the client. -/
def outputs (tr : Trace) : Trace := tr.filter fun ev => ev.1.isOutput

/-- No timer fires. -/
def Quiet (tr : Trace) : Prop :=
  ∀ fired : Bool, (⟨.timerFires, fired⟩ : Event Op Op.Answer) ∈ tr → fired = false

/-- No timer runs. -/
theorem quiet_of_all {tr : Trace} (h : tr.all (fun ev => ev.1 ≠ .timerFires) = true) :
    Quiet tr := fun _ hmem => absurd rfl (of_decide_eq_true (List.all_eq_true.mp h _ hmem))

section Observations

variable {tr tr₁ tr₂ : Trace}

@[simp] theorem delivered_append : delivered (tr₁ ++ tr₂) = delivered tr₁ ++ delivered tr₂ :=
  List.flatMap_append

@[simp] theorem pagesOf_append : pagesOf (tr₁ ++ tr₂) = pagesOf tr₁ ++ pagesOf tr₂ :=
  List.filterMap_append

@[simp] theorem outputResults_append :
    outputResults (tr₁ ++ tr₂) = outputResults tr₁ ++ outputResults tr₂ := List.filterMap_append

theorem deliveredBy_eq_nil {ev : Event Op Op.Answer} (h : ev.1.isClientRead = false) :
    deliveredBy ev = [] := by
  obtain ⟨op, answer⟩ := ev
  cases op <;> first | rfl | exact absurd h (by simp [Op.isClientRead])

theorem pageOf_eq_none {ev : Event Op Op.Answer} (h : ev.1.isOutput = false) :
    pageOf ev = none := by
  obtain ⟨op, answer⟩ := ev
  cases op <;> first | rfl | exact absurd h (by simp [Op.isOutput])

theorem relays_eq_false {ev : Event Op Op.Answer} (h : ev.1.isOutput = false) :
    relays ev = false := by
  obtain ⟨op, answer⟩ := ev
  cases op <;> first | rfl | exact absurd h (by simp [Op.isOutput])

theorem outputResult_eq_none {ev : Event Op Op.Answer} (h : ev.1.isOutput = false) :
    outputResult ev = none := by
  obtain ⟨op, answer⟩ := ev
  cases op <;> first | rfl | exact absurd h (by simp [Op.isOutput])

theorem delivered_eq_nil (h : ∀ ev ∈ tr, ev.1.isClientRead = false) : delivered tr = [] := by
  unfold delivered
  rw [List.flatMap_eq_nil_iff]
  exact fun ev hev => deliveredBy_eq_nil (h ev hev)

/-- The reads of a run decide what it has read. -/
theorem delivered_filter :
    delivered (tr.filter fun ev => ev.1.isClientRead) = delivered tr :=
  flatMap_filter_kept fun _ => deliveredBy_eq_nil

@[simp] theorem pagesOf_outputs : pagesOf (outputs tr) = pagesOf tr :=
  filterMap_filter_kept fun _ => pageOf_eq_none

@[simp] theorem outputResults_outputs : outputResults (outputs tr) = outputResults tr :=
  filterMap_filter_kept fun _ => outputResult_eq_none

@[simp] theorem any_relays_outputs : (outputs tr).any relays = tr.any relays := by
  unfold outputs
  rw [List.any_filter]
  congr 1
  funext ev
  cases hev : ev.1.isOutput with
  | true => rfl
  | false => rw [relays_eq_false hev]; rfl

end Observations

/-- The traces agree up to the events of the timers. -/
def SameUpToTimers (tr tr' : Trace) : Prop :=
  ∀ keep : Event Op Op.Answer → Bool, (∀ fired, keep ⟨.timerFires, fired⟩ = false) →
    tr.filter keep = tr'.filter keep

theorem SameUpToTimers.outputs {tr tr' : Trace} (h : SameUpToTimers tr tr') :
    outputs tr = outputs tr' := h _ fun _ => rfl

theorem SameUpToTimers.delivered {tr tr' : Trace} (h : SameUpToTimers tr tr') :
    delivered tr = delivered tr' := by
  rw [← delivered_filter, h _ fun _ => rfl, delivered_filter]

/-! ### Rules -/

section Rules

variable {tr : Trace}

/-- What becomes of a future under a timer. -/
theorem completes_timeout {α : Type} {duration : Duration} {p : Io α}
    {r : Except Unit (Option (Except Unit α))} (h : Completes (timeout duration p) tr r) :
    (r = .ok none ∧ (⟨.timerFires, true⟩ : Event Op Op.Answer) ∈ tr) ∨
      ∃ a tr', r = .ok (some a) ∧ Completes p tr' a ∧ SameUpToTimers tr tr' := by
  obtain ⟨b, rfl, hrun⟩ := completes_lift_iff.mp h
  rcases runs_withTimer hrun with ⟨rfl, t, ht, hmem⟩ | ⟨a, tr', rfl, hp, hkeep⟩
  · have ht' : t = true := ht
    subst ht'
    exact Or.inl ⟨rfl, hmem⟩
  · exact Or.inr ⟨a, tr', rfl, hp, hkeep⟩

theorem completes_timeoutIfSome {α : Type} {duration : Option Duration} {p : Io α}
    {r : Except Unit (Option (Except Unit α))} (h : Completes (timeoutIfSome duration p) tr r) :
    (r = .ok none ∧ (⟨.timerFires, true⟩ : Event Op Op.Answer) ∈ tr) ∨
      ∃ a tr', r = .ok (some a) ∧ Completes p tr' a ∧ SameUpToTimers tr tr' := by
  cases duration with
  | some d =>
    have h' : Completes (timeout d p) tr r := h
    exact completes_timeout h'
  | none =>
    obtain ⟨b, rfl, hrun⟩ := completes_lift_iff.mp h
    obtain ⟨a, rfl, hp⟩ := runs_map_iff.mp hrun
    exact Or.inr ⟨a, tr, rfl, hp, fun _ _ => rfl⟩

/-- Under a timer a future runs until it ends or the timer fires. -/
theorem reaches_of_timeoutIfSome {α : Type} {duration : Option Duration} {p : Io α}
    {r : Except Unit (Option (Except Unit α))} (h : Completes (timeoutIfSome duration p) tr r) :
    ∃ tr' q, Reaches p.run tr' q ∧ SameUpToTimers tr tr' ∧ (Quiet tr → ∃ a, q = .pure a) := by
  cases duration with
  | some d =>
    obtain ⟨b, -, hrun⟩ := completes_lift_iff.mp h
    obtain ⟨tr', q, hreach, hsame, hend⟩ := reaches_of_withTimer hrun
    refine ⟨tr', q, hreach, hsame, ?_⟩
    intro hquiet
    rcases hend with ⟨-, t, ht, hmem⟩ | ⟨a, -, hq⟩
    · exact absurd (ht.symm.trans (hquiet t hmem)) (by simp)
    · exact ⟨a, hq⟩
  | none =>
    obtain ⟨b, -, hrun⟩ := completes_lift_iff.mp h
    obtain ⟨a, -, hp⟩ := runs_map_iff.mp hrun
    exact ⟨tr, _, reaches_end_iff.mpr hp, fun _ _ => rfl, fun _ => ⟨a, rfl⟩⟩

theorem completes_readClient {len : ℕ} {r : Except Unit { data : Bytes // data.length ≤ len }} :
    Completes (readClient len) tr r ↔ tr = [⟨.readClient len, r⟩] := runs_op_iff

theorem completes_writeClient {output : Output} {r : Except Unit Unit} :
    Completes (writeClient output) tr r ↔ tr = [⟨.writeClient output, r⟩] := runs_op_iff

theorem completes_flushClient {r : Except Unit Unit} :
    Completes flushClient tr r ↔ tr = [⟨.flushClient, r⟩] := runs_op_iff

theorem completes_writeUpstream {data : Bytes} {r : Except Unit Unit} :
    Completes (writeUpstream data) tr r ↔ tr = [⟨.writeUpstream data, r⟩] := runs_op_iff

/-- `send` stops at the first write that fails. -/
theorem completes_send {code : ℕ} {exposeVersion : Bool} {r : Except Unit Unit}
    (h : Completes (send code exposeVersion) tr r) :
    (tr = [⟨.writeClient (.page code exposeVersion), .error ()⟩] ∧ r = .error ()) ∨
      tr = [⟨.writeClient (.page code exposeVersion), .ok ()⟩, ⟨.flushClient, r⟩] := by
  rcases completes_bind_iff.mp h with ⟨e, hw, rfl⟩ | ⟨a, tr₁, tr₂, rfl, hw, hf⟩
  · exact Or.inl ⟨completes_writeClient.mp hw, rfl⟩
  · obtain rfl := completes_writeClient.mp hw
    obtain rfl := completes_flushClient.mp hf
    exact Or.inr rfl

/-- What `send` shows: one page, all of it output, and its result is that of its writes. -/
structure IsSend (code : ℕ) (tr : Trace) (r : Except Unit Unit) : Prop where
  pages : pagesOf tr = [code]
  relays : tr.any relays = false
  delivered : delivered tr = []
  outputs : outputs tr = tr
  results : outputResults tr = [false] ∧ r = .error () ∨
    outputResults tr = [true, false] ∧ r = .error () ∨
      outputResults tr = [true, true] ∧ r = .ok ()

theorem isSend {code : ℕ} {exposeVersion : Bool} {r : Except Unit Unit}
    (h : Completes (send code exposeVersion) tr r) : IsSend code tr r := by
  rcases completes_send h with ⟨rfl, rfl⟩ | rfl
  · exact ⟨rfl, rfl, rfl, rfl, Or.inl ⟨rfl, rfl⟩⟩
  · cases r with
    | error e => exact ⟨rfl, rfl, rfl, rfl, Or.inr (Or.inl ⟨rfl, rfl⟩)⟩
    | ok u => exact ⟨rfl, rfl, rfl, rfl, Or.inr (Or.inr ⟨rfl, rfl⟩)⟩

theorem completes_timeoutIfSome_none {α : Type} {p : Io α} {r : Except Unit α}
    (h : Completes p tr r) : Completes (timeoutIfSome none p) tr (.ok (some r)) :=
  completes_lift_iff.mpr ⟨_, rfl, runs_map_iff.mpr ⟨_, rfl, h⟩⟩

/-- The upstream accepts the connection in time. -/
theorem completes_timeout_connect (duration : Duration) (port : UInt16) :
    Completes (timeout duration (connectUpstream port))
      [⟨.timerFires, false⟩, ⟨.connect port, .ok ()⟩] (.ok (some (.ok ()))) := by
  refine completes_lift_iff.mpr ⟨_, rfl, ?_⟩
  show Runs (R := Op.Answer) (withTimer Op.timerFires id
    (Prog.perform (Op.connect port) Prog.pure)) _ _
  refine Runs.withTimer ?_ _ ?_
  · rfl
  · exact Runs.pure _

/-- A branch that sends a page and returns `Ok(None)`. -/
theorem completes_reject {code : ℕ} {exposeVersion : Bool} {r : Except Unit (Option Request)}
    (h : Completes (do send code exposeVersion; return none) tr r) :
    (IsSend code tr (.error ()) ∧ r = .error ()) ∨ (IsSend code tr (.ok ()) ∧ r = .ok none) := by
  rcases completes_bind_iff.mp h with ⟨e, hs, rfl⟩ | ⟨a, tr₁, tr₂, rfl, hs, hp⟩
  · exact Or.inl ⟨isSend hs, rfl⟩
  · obtain ⟨rfl, rfl⟩ := completes_pure_iff.mp hp
    rw [List.append_nil]
    exact Or.inr ⟨isSend hs, rfl⟩

end Rules

/-! ### Reading the request -/

namespace Context

variable (ctx : Context)

/-- The page with which `read_request` rejects a request, decided on the bytes read so far. -/
def rejection (data : Bytes) : Option ℕ :=
  if data = [] then none
  else
    match ctx.parse data with
    | .complete headers =>
      match validateFramingHeaders headers with
      | .error _ => some 400
      | .ok () =>
        match requestHost headers with
        | some host => if ctx.cfg.hostExceedsLabelLimit host then some 423 else none
        | none => none
    | .incomplete => if ctx.cfg.maxBuf ≤ data.length then some 431 else none
    | .error => none

/-- The request that `read_request` returns, decided on the bytes read so far. -/
def accepted (data : Bytes) : Option Request :=
  match ctx.parse data with
  | .complete headers =>
    match validateFramingHeaders headers with
    | .error _ => none
    | .ok () => do
      let host ← requestHost headers
      if ctx.cfg.hostExceedsLabelLimit host then none
      else
        let target ← ctx.find host
        return ⟨data, target.upstream.bind (·.port), target.headers, isWebsocketUpgrade headers⟩
  | .incomplete => none
  | .error => none

variable {ctx}

theorem accepted_buf {data : Bytes} {request : Request} (h : ctx.accepted data = some request) :
    request.buf = data := by
  unfold accepted at h
  split at h
  · split at h
    · simp at h
    · obtain ⟨host, -, h⟩ := Option.bind_eq_some_iff.mp h
      split_ifs at h
      obtain ⟨target, -, h⟩ := Option.bind_eq_some_iff.mp h
      obtain rfl := Option.some.inj h
      rfl
  · simp at h
  · simp at h

/-- How reading ends: `data` is what was read, `out` what was written to the client. -/
inductive ReadOutcome (ctx : Context) (data : Bytes) :
    (out : Trace) → Except Unit (Option Request) → Prop where
  /-- The socket failed. -/
  | lost : ctx.rejection data = none → ReadOutcome ctx data [] (.error ())
  /-- The stream ended, or the request has no service. -/
  | unmatched : ctx.rejection data = none → ReadOutcome ctx data [] (.ok none)
  | accepted {request} : ctx.rejection data = none → ctx.accepted data = some request →
      ReadOutcome ctx data [] (.ok (some request))
  | rejected {code out} : ctx.rejection data = some code → IsSend code out (.ok ()) →
      ReadOutcome ctx data out (.ok none)
  /-- The page of the rejection could not be sent. -/
  | unsent {code out} : ctx.rejection data = some code → IsSend code out (.error ()) →
      ReadOutcome ctx data out (.error ())

theorem ReadOutcome.of_send {data : Bytes} {code : ℕ} (hcode : ctx.rejection data = some code)
    {tr : Trace} {r : Except Unit (Option Request)}
    (h : Completes (do send code ctx.exposeVersion; return none) tr r) :
    ReadOutcome ctx data (outputs tr) r ∧ delivered tr = [] := by
  rcases completes_reject h with ⟨hsend, rfl⟩ | ⟨hsend, rfl⟩
  · rw [hsend.outputs]
    exact ⟨.unsent hcode hsend, hsend.delivered⟩
  · rw [hsend.outputs]
    exact ⟨.rejected hcode hsend, hsend.delivered⟩

/-- A complete head is answered with the page of its rejection, or what is accepted of it is
returned. -/
theorem completeRequest_cases (ctx : Context) (data : Bytes) (headers : List Header) :
    (∃ code, code ≠ 503 ∧
      (data ≠ [] → ctx.parse data = .complete headers → ctx.rejection data = some code) ∧
        ctx.completeRequest data headers = do send code ctx.exposeVersion; return none) ∨
      ∃ request, ctx.completeRequest data headers = (return request) ∧
        (data ≠ [] → ctx.parse data = .complete headers → ctx.rejection data = none ∧
          ∀ found, request = some found → ctx.accepted data = some found) := by
  have hrej : data ≠ [] → ctx.parse data = .complete headers →
      ctx.rejection data = match validateFramingHeaders headers with
        | .error _ => some 400
        | .ok () =>
          match requestHost headers with
          | some host => if ctx.cfg.hostExceedsLabelLimit host then some 423 else none
          | none => none := by
    intro h0 hparse
    unfold rejection
    rw [if_neg h0, hparse]
  have hacc : ctx.parse data = .complete headers →
      ctx.accepted data = match validateFramingHeaders headers with
        | .error _ => none
        | .ok () => do
          let host ← requestHost headers
          if ctx.cfg.hostExceedsLabelLimit host then none
          else
            let target ← ctx.find host
            return ⟨data, target.upstream.bind (·.port), target.headers,
              isWebsocketUpgrade headers⟩ := by
    intro hparse
    unfold accepted
    rw [hparse]
  unfold completeRequest
  cases hframing : validateFramingHeaders headers with
  | error reason =>
    rw [hframing] at hrej
    exact Or.inl ⟨400, by decide, hrej, rfl⟩
  | ok u =>
    rw [hframing] at hrej hacc
    cases hhost : requestHost headers with
    | none =>
      rw [hhost] at hrej
      exact Or.inr ⟨none, rfl, fun h0 hparse => ⟨hrej h0 hparse, fun _ h => nomatch h⟩⟩
    | some host =>
      rw [hhost] at hrej hacc
      dsimp only at hrej ⊢
      rw [Option.bind_eq_bind, Option.bind_some] at hacc
      by_cases hlimit : ctx.cfg.hostExceedsLabelLimit host = true
      · rw [if_pos hlimit] at hrej ⊢
        exact Or.inl ⟨423, by decide, hrej, rfl⟩
      · rw [if_neg hlimit] at hrej hacc ⊢
        cases hfind : ctx.find host with
        | none => exact Or.inr ⟨none, rfl, fun h0 hparse => ⟨hrej h0 hparse, fun _ h => nomatch h⟩⟩
        | some target =>
          rw [hfind] at hacc
          refine Or.inr ⟨_, rfl, fun h0 hparse => ⟨hrej h0 hparse, ?_⟩⟩
          exact fun found hfound => (hacc hparse).trans hfound

/-- The branch of a complete head. -/
theorem completeRequest_outcome {data : Bytes} (h0 : data ≠ []) {headers : List Header}
    (hparse : ctx.parse data = .complete headers) {tr : Trace} {r : Except Unit (Option Request)}
    (h : Completes (ctx.completeRequest data headers) tr r) :
    ReadOutcome ctx data (outputs tr) r ∧ delivered tr = [] := by
  rcases ctx.completeRequest_cases data headers with
    ⟨code, -, hrej, heq⟩ | ⟨request, heq, hreturn⟩
  · rw [heq] at h
    exact ReadOutcome.of_send (hrej h0 hparse) h
  · rw [heq] at h
    obtain ⟨rfl, rfl⟩ := completes_pure_iff.mp h
    obtain ⟨hrej, hacc⟩ := hreturn h0 hparse
    cases request with
    | none => exact ⟨.unmatched hrej, rfl⟩
    | some found => exact ⟨.accepted hrej (hacc found rfl), rfl⟩

/-- What one turn of the loop does. -/
theorem readLoop_cases {buf : ReadBuffer ctx.cfg.maxBuf} {tr : Trace}
    {r : Except Unit (Option Request)} (h : Completes (ctx.readLoop buf) tr r) :
    (tr = [⟨.readClient buf.free, .error ()⟩] ∧ r = .error ()) ∨
    (∃ n, n.1 = [] ∧ tr = [⟨.readClient buf.free, .ok n⟩] ∧ r = .ok none) ∨
    ∃ n tr', n.1 ≠ [] ∧ tr = ⟨.readClient buf.free, .ok n⟩ :: tr' ∧
      ((∃ headers, ctx.parse (buf.push n).data = .complete headers ∧
          Completes (ctx.completeRequest (buf.push n).data headers) tr' r) ∨
        (ctx.parse (buf.push n).data = .incomplete ∧ (buf.push n).isFull = true ∧
          Completes (do send 431 ctx.exposeVersion; return none) tr' r) ∨
        (ctx.parse (buf.push n).data = .incomplete ∧ (buf.push n).isFull = false ∧
          Completes (ctx.readLoop (buf.push n).growIfFull) tr' r) ∨
        (ctx.parse (buf.push n).data = .error ∧ tr' = [] ∧ r = .ok none)) := by
  rw [readLoop] at h
  rcases completes_bind_iff.mp h with ⟨e, hread, rfl⟩ | ⟨n, tr₁, tr', rfl, hread, hrest⟩
  · exact Or.inl ⟨completes_readClient.mp hread, rfl⟩
  obtain rfl := completes_readClient.mp hread
  right
  by_cases hn : n.1 = []
  · rw [dif_pos hn] at hrest
    obtain ⟨rfl, rfl⟩ := completes_pure_iff.mp hrest
    exact Or.inl ⟨n, hn, rfl, rfl⟩
  · rw [dif_neg hn] at hrest
    refine Or.inr ⟨n, tr', hn, rfl, ?_⟩
    cases hparse : ctx.parse (buf.push n).data with
    | complete headers =>
      rw [hparse] at hrest
      exact Or.inl ⟨headers, rfl, hrest⟩
    | incomplete =>
      rw [hparse] at hrest
      dsimp only at hrest
      cases hfull : (buf.push n).isFull with
      | true =>
        rw [if_pos hfull] at hrest
        exact Or.inr (Or.inl ⟨rfl, rfl, hrest⟩)
      | false =>
        rw [if_neg (by simp [hfull])] at hrest
        exact Or.inr (Or.inr (Or.inl ⟨rfl, rfl, hrest⟩))
    | error =>
      rw [hparse] at hrest
      obtain ⟨rfl, rfl⟩ := completes_pure_iff.mp hrest
      exact Or.inr (Or.inr (Or.inr ⟨rfl, rfl, rfl⟩))

theorem delivered_cons_read {len : ℕ} {n : { data : Bytes // data.length ≤ len }} {tr : Trace} :
    delivered (⟨.readClient len, .ok n⟩ :: tr) = n.1 ++ delivered tr := rfl

/-- The outcome of reading, on all bytes that the run has read. -/
theorem readLoop_outcome {buf : ReadBuffer ctx.cfg.maxBuf} (hbuf : ctx.rejection buf.data = none)
    {tr : Trace} {r : Except Unit (Option Request)} (h : Completes (ctx.readLoop buf) tr r) :
    ReadOutcome ctx (buf.data ++ delivered tr) (outputs tr) r := by
  induction buf using Context.readLoop.induct generalizing tr with
  | case1 buf ih =>
    rcases readLoop_cases h with ⟨rfl, rfl⟩ | ⟨n, hn, rfl, rfl⟩ | ⟨n, tr', hn, rfl, hcases⟩
    · rw [show delivered [_] = [] from rfl, List.append_nil]
      exact .lost hbuf
    · rw [delivered_cons_read, hn]
      rw [show delivered [] = [] from rfl, List.append_nil, List.append_nil]
      exact .unmatched hbuf
    · have h0 := buf.push_ne_nil hn
      rw [delivered_cons_read, ← List.append_assoc, ← ReadBuffer.data_push]
      show ReadOutcome ctx _ (outputs tr') r
      rcases hcases with ⟨headers, hparse, hrest⟩ | ⟨hparse, hfull, hrest⟩ |
        ⟨hparse, hfull, hrest⟩ | ⟨hparse, rfl, rfl⟩
      · obtain ⟨hout, hnil⟩ := completeRequest_outcome h0 hparse hrest
        rw [hnil, List.append_nil]
        exact hout
      · have hrej : ctx.rejection (buf.push n).data = some 431 := by
          unfold rejection
          rw [if_neg h0, hparse]
          exact if_pos ((ReadBuffer.isFull_iff _).mp hfull)
        obtain ⟨hout, hnil⟩ := ReadOutcome.of_send hrej hrest
        rw [hnil, List.append_nil]
        exact hout
      · have hrej : ctx.rejection (buf.push n).growIfFull.data = none := by
          rw [ReadBuffer.data_growIfFull]
          unfold rejection
          rw [if_neg h0, hparse]
          apply if_neg
          intro hle
          rw [(ReadBuffer.isFull_iff _).mpr hle] at hfull
          exact absurd hfull (by decide)
        have hout := ih n hn hrej hrest
        rwa [ReadBuffer.data_growIfFull] at hout
      · have hrej : ctx.rejection (buf.push n).data = none := by
          unfold rejection
          rw [if_neg h0, hparse]
        rw [show delivered [] = [] from rfl, List.append_nil]
        exact .unmatched hrej

/-- A run that reads a complete head at once. -/
theorem completes_readRequest {n : { data : Bytes // data.length ≤
    (ReadBuffer.empty ctx.cfg.maxBuf).free }} (h0 : n.1 ≠ []) {headers : List Header}
    (hparse : ctx.parse n.1 = .complete headers) {tr : Trace} {r : Except Unit (Option Request)}
    (h : Completes (ctx.completeRequest n.1 headers) tr r) :
    Completes ctx.readRequest (⟨.readClient _, .ok n⟩ :: tr) r := by
  unfold readRequest
  rw [readLoop]
  refine completes_bind_iff.mpr (Or.inr ⟨n, [_], tr, rfl, completes_readClient.mpr rfl, ?_⟩)
  have hdata : ((ReadBuffer.empty ctx.cfg.maxBuf).push n).data = n.1 := rfl
  rw [dif_neg h0, hdata, hparse]
  exact h

theorem readRequest_outcome {tr : Trace} {r : Except Unit (Option Request)}
    (h : Completes ctx.readRequest tr r) : ReadOutcome ctx (delivered tr) (outputs tr) r := by
  have hempty : ctx.rejection (ReadBuffer.empty ctx.cfg.maxBuf).data = none := if_pos rfl
  exact readLoop_outcome hempty h

end Context

/-! ### Serving an accepted request -/

/-- The operation neither reads the request nor writes a page. -/
def Op.isProxyOp : Op → Bool
  | readClient _ => false
  | writeClient (.page _ _) => false
  | _ => true

/-- The operations of `relay_upstream_response`. -/
def Op.isRelayOp : Op → Bool
  | timerFires => true
  | writeClient (.relay _) => true
  | readUpstream _ => true
  | copyBidirectional => true
  | _ => false

theorem Op.isProxyOp_of_isRelayOp {op : Op} (h : op.isRelayOp = true) : op.isProxyOp = true := by
  unfold isRelayOp at h
  split at h <;> first | rfl | exact absurd h (by decide)

theorem only_timeout {P : Op → Prop} (ht : P .timerFires) {α : Type} {p : Io α}
    (hp : Only P p.run) (duration : Duration) : Only P (timeout duration p).run :=
  only_map (only_withTimer ht hp)

theorem only_timeoutIfSome {P : Op → Prop} (ht : P .timerFires) {α : Type} {p : Io α}
    (hp : Only P p.run) (duration : Option Duration) : Only P (timeoutIfSome duration p).run := by
  cases duration with
  | some d => exact only_timeout ht hp d
  | none => exact only_map (only_map hp)

section Relay

variable {P : Op → Prop} (hP : ∀ op : Op, op.isRelayOp = true → op ≠ .timerFires → P op)

include hP

theorem only_copyBidirectional : Only P copyBidirectional.run :=
  only_map (only_op (hP _ rfl nofun))

theorem only_relayLoop {extraHeaders : List (Str × Str)} {maxBuf : ℕ} (buf : ReadBuffer maxBuf) :
    Only P (relayLoop extraHeaders buf).run := by
  have hrelay : ∀ data, Only P (writeClient (.relay data)).run := fun data => only_op (hP _ rfl nofun)
  induction buf using relayLoop.induct with
  | case1 buf ih =>
    rw [relayLoop]
    refine only_bind_run (only_op (hP _ rfl nofun)) ?_
    intro n
    by_cases hn : n.1 = []
    · rw [dif_pos hn]
      exact hrelay _
    · rw [dif_neg hn]
      cases findWindow crlfCrlf (buf.push n).data with
      | some pos => exact only_bind_run (hrelay _) fun _ => only_copyBidirectional hP
      | none =>
        dsimp only
        split_ifs
        · exact only_bind_run (hrelay _) fun _ => only_copyBidirectional hP
        · exact ih n hn

/-- Relaying has no timer of its own. -/
theorem only_relay (extraHeaders : List (Str × Str)) (maxBuf : ℕ) :
    Only P (relayUpstreamResponse extraHeaders maxBuf).run := by
  unfold relayUpstreamResponse
  split_ifs
  · exact only_copyBidirectional hP
  · exact only_relayLoop hP _

end Relay

theorem only_relayUpstreamResponse (extraHeaders : List (Str × Str)) (maxBuf : ℕ) :
    Only (·.isRelayOp = true) (relayUpstreamResponse extraHeaders maxBuf).run :=
  only_relay (fun _ hop _ => hop) extraHeaders maxBuf

/-- The proxy writes the request once and then relays. -/
theorem proxyRequest_cases {ctx : Context} {request : Request} {tr : Trace} {r : Except Unit Unit}
    (h : Completes (ctx.proxyRequest request) tr r) :
    ∃ res tr', tr = ⟨.writeUpstream (finalBuf .plain
        (upstreamHeaders ctx.cfg request.headersConfig ctx.clientIp) request.buf), res⟩ :: tr' ∧
      ∀ ev ∈ tr', ev.1.isRelayOp = true := by
  rcases completes_bind_iff.mp h with ⟨e, hw, rfl⟩ | ⟨a, tr₁, tr₂, rfl, hw, hrest⟩
  · exact ⟨.error e, [], completes_writeUpstream.mp hw, by simp⟩
  · obtain rfl := completes_writeUpstream.mp hw
    refine ⟨.ok a, tr₂, rfl, ?_⟩
    dsimp only at hrest
    split_ifs at hrest
    · exact (only_relayUpstreamResponse _ _).of_runs hrest
    · have htimer : Op.timerFires.isRelayOp = true := rfl
      have honly := only_timeoutIfSome (P := (·.isRelayOp = true)) htimer
        (only_relayUpstreamResponse (responseHeaders ctx.cfg request.headersConfig)
          ctx.cfg.maxBuf) ctx.cfg.clientBodyTimeout
      refine (only_bind_run honly ?_).of_runs hrest
      intro res
      cases res <;> trivial

theorem only_proxyRequest (ctx : Context) (request : Request) :
    Only (·.isProxyOp = true) (ctx.proxyRequest request).run := by
  have hrelay : Only (·.isProxyOp = true) (relayUpstreamResponse
      (responseHeaders ctx.cfg request.headersConfig) ctx.cfg.maxBuf).run :=
    (only_relayUpstreamResponse _ _).mono fun _ => Op.isProxyOp_of_isRelayOp
  have htimer : Op.timerFires.isProxyOp = true := rfl
  refine only_bind_run (only_op rfl) fun _ => ?_
  dsimp only
  split_ifs
  · exact hrelay
  · refine only_bind_run (only_timeoutIfSome htimer hrelay ctx.cfg.clientBodyTimeout) ?_
    intro res
    cases res <;> trivial

/-- After the request is written, the response is relayed until that ends or the timer fires. -/
theorem relay_of_proxyRequest {ctx : Context} {request : Request} {tr : Trace}
    {r : Except Unit Unit} {data : Bytes}
    (h : Completes (ctx.proxyRequest request) (⟨.writeUpstream data, .ok ()⟩ :: tr) r) :
    ∃ tr' q, Reaches (relayUpstreamResponse (responseHeaders ctx.cfg request.headersConfig)
        ctx.cfg.maxBuf).run tr' q ∧
      SameUpToTimers tr tr' ∧ (Quiet tr → ∃ a, q = .pure a) := by
  rcases completes_bind_iff.mp h with ⟨e, hw, rfl⟩ | ⟨a, tr₁, tr₂, heq, hw, hrest⟩
  · cases completes_writeUpstream.mp hw
  · obtain rfl := completes_writeUpstream.mp hw
    obtain ⟨-, rfl⟩ := List.cons.inj heq
    dsimp only at hrest
    split_ifs at hrest
    · exact ⟨_, _, reaches_end_iff.mpr hrest, fun _ _ => rfl, fun _ => ⟨_, rfl⟩⟩
    · rcases completes_bind_iff.mp hrest with ⟨e, hrelay, rfl⟩ | ⟨res, tr₃, tr₄, rfl, hrelay, hend⟩
      · exact reaches_of_timeoutIfSome hrelay
      · have hnil : tr₄ = [] := by
          cases res with
          | none => exact (completes_pure_iff.mp hend).1
          | some result => exact (runs_pure_iff.mp hend).1
        rw [hnil]
        show ∃ tr' q, _ ∧ SameUpToTimers (tr₃ ++ []) tr' ∧ (Quiet (tr₃ ++ []) → _)
        rw [List.append_nil]
        exact reaches_of_timeoutIfSome hrelay

section Proxy

variable {tr : Trace}

theorem pagesOf_eq_nil (h : ∀ ev ∈ tr, ev.1.isProxyOp = true) : pagesOf tr = [] := by
  unfold pagesOf
  rw [List.filterMap_eq_nil_iff]
  intro ev hev
  have hop := h ev hev
  obtain ⟨op, answer⟩ := ev
  cases op with
  | writeClient output =>
    cases output with
    | page code v => exact absurd hop (by simp [Op.isProxyOp])
    | relay data => rfl
  | _ => rfl

theorem delivered_eq_nil_of_proxy (h : ∀ ev ∈ tr, ev.1.isProxyOp = true) : delivered tr = [] := by
  apply delivered_eq_nil
  intro ev hev
  have hop := h ev hev
  obtain ⟨op, answer⟩ := ev
  cases op with
  | readClient len => exact absurd hop (by simp [Op.isProxyOp])
  | _ => rfl

end Proxy

/-- The branches of an accepted request: a page at once, or the connection (`tr₁`) and then a page
or the proxy. -/
theorem acceptedRequest_cases {ctx : Context} {request : Request} {tr : Trace}
    {r : Except Unit Unit} (h : Completes (ctx.acceptedRequest request) tr r) :
    Completes (send 502 ctx.exposeVersion) tr r ∨
    ∃ tr₁ tr₂, tr = tr₁ ++ tr₂ ∧
      (∀ ev ∈ tr₁, ev.1 = .timerFires ∨ ∃ port, ev.1 = .connect port) ∧
      ((∃ code, Completes (send code ctx.exposeVersion) tr₂ r) ∨
        Completes (ctx.proxyRequest request) tr₂ r) := by
  unfold Context.acceptedRequest at h
  cases hport : request.targetPort with
  | none =>
    rw [hport] at h
    exact Or.inl h
  | some port =>
    rw [hport] at h
    right
    have hconnects : Only (fun op => op = .timerFires ∨ ∃ port, op = .connect port)
        (connectUpstream port).run := ⟨Or.inr ⟨port, rfl⟩, fun _ => trivial⟩
    have honly := only_timeout (Or.inl rfl) hconnects 30000000000
    rcases completes_bind_iff.mp h with ⟨e, hconnect, -⟩ | ⟨a, tr₁, tr₂, rfl, hconnect, hrest⟩
    · obtain ⟨b, hb, -⟩ := completes_lift_iff.mp hconnect
      exact absurd hb (by simp)
    · refine ⟨tr₁, tr₂, rfl, honly.of_runs hconnect, ?_⟩
      rcases a with _ | (_ | _)
      · exact Or.inl ⟨504, hrest⟩
      · exact Or.inl ⟨502, hrest⟩
      · exact Or.inr hrest

/-- A part of a run that reads nothing more of the request, and either sends no page, or sends one
and relays nothing. -/
structure IsReply (tr : Trace) : Prop where
  delivered : delivered tr = []
  pages : pagesOf tr = [] ∨ (pagesOf tr).length = 1 ∧ tr.any relays = false

theorem isReply_nil : IsReply [] := ⟨rfl, Or.inl rfl⟩

theorem IsSend.isReply {code : ℕ} {tr : Trace} {r : Except Unit Unit} (h : IsSend code tr r) :
    IsReply tr := ⟨h.delivered, Or.inr ⟨by rw [h.pages]; rfl, h.relays⟩⟩

/-- The connection to the upstream does not show. -/
theorem IsReply.append_connect {tr₁ tr₂ : Trace} (h : IsReply tr₂)
    (hconnect : ∀ ev ∈ tr₁, ev.1 = .timerFires ∨ ∃ port, ev.1 = .connect port) :
    IsReply (tr₁ ++ tr₂) := by
  have hproxy : ∀ ev ∈ tr₁, ev.1.isProxyOp = true := by
    intro ev hev
    rcases hconnect ev hev with hop | ⟨port, hop⟩ <;> rw [hop] <;> rfl
  have hrelays : tr₁.any relays = false := by
    rw [List.any_eq_false]
    intro ev hev
    rw [relays_eq_false]
    · simp
    · rcases hconnect ev hev with hop | ⟨port, hop⟩ <;> rw [hop] <;> rfl
  refine ⟨?_, ?_⟩
  · rw [delivered_append, delivered_eq_nil_of_proxy hproxy, h.delivered]
    rfl
  · rw [pagesOf_append, pagesOf_eq_nil hproxy, List.any_append, hrelays]
    exact h.pages

theorem isReply_proxyRequest {ctx : Context} {request : Request} {tr : Trace}
    {r : Except Unit Unit} (h : Completes (ctx.proxyRequest request) tr r) : IsReply tr := by
  obtain ⟨res, tr', rfl, hrelay⟩ := proxyRequest_cases h
  have hops : ∀ ev ∈ (⟨.writeUpstream _, res⟩ : Event Op Op.Answer) :: tr',
      ev.1.isProxyOp = true :=
    List.forall_mem_cons.mpr ⟨rfl, fun ev hev => Op.isProxyOp_of_isRelayOp (hrelay ev hev)⟩
  exact ⟨delivered_eq_nil_of_proxy hops, Or.inl (pagesOf_eq_nil hops)⟩

theorem isReply_acceptedRequest {ctx : Context} {request : Request} {tr : Trace}
    {r : Except Unit Unit} (h : Completes (ctx.acceptedRequest request) tr r) : IsReply tr := by
  rcases acceptedRequest_cases h with hsend | ⟨tr₁, tr₂, rfl, hconnect, ⟨code, hsend⟩ | hproxy⟩
  · exact (isSend hsend).isReply
  · exact (isSend hsend).isReply.append_connect hconnect
  · exact (isReply_proxyRequest hproxy).append_connect hconnect

/-! ### The two parts of a run -/

/-- The operations of `read_request`. -/
def Op.isRequestOp : Op → Bool
  | timerFires => true
  | readClient _ => true
  | writeClient _ => true
  | flushClient => true
  | _ => false

theorem only_send (code : ℕ) (exposeVersion : Bool) :
    Only (·.isRequestOp = true) (send code exposeVersion).run :=
  only_bind_run (only_op rfl) fun _ => only_op rfl

theorem only_completeRequest {P : Op → Prop} {ctx : Context}
    (hsend : ∀ code, Only P (send code ctx.exposeVersion).run) (data : Bytes)
    (headers : List Header) : Only P (ctx.completeRequest data headers).run := by
  rcases ctx.completeRequest_cases data headers with ⟨code, -, -, heq⟩ | ⟨request, heq, -⟩
  · rw [heq]
    exact only_bind_run (hsend code) fun _ => trivial
  · rw [heq]
    trivial

theorem only_readLoop {P : Op → Prop} {ctx : Context} (hread : ∀ len, P (.readClient len))
    (hsend : ∀ code, Only P (send code ctx.exposeVersion).run) (buf : ReadBuffer ctx.cfg.maxBuf) :
    Only P (ctx.readLoop buf).run := by
  induction buf using Context.readLoop.induct with
  | case1 buf ih =>
    rw [Context.readLoop]
    refine only_bind_run (only_op (hread _)) ?_
    intro n
    by_cases hn : n.1 = []
    · rw [dif_pos hn]
      trivial
    · rw [dif_neg hn]
      cases ctx.parse (buf.push n).data with
      | complete headers => exact only_completeRequest hsend _ _
      | incomplete =>
        dsimp only
        split_ifs
        · exact only_bind_run (hsend _) fun _ => trivial
        · exact ih n hn
      | error => trivial

/-- A run reads the request (`tr₁`, which is `tr'` with the events of the timer) and goes on with
the result, unless the timer fires. -/
theorem processRequestInner_cases {ctx : Context} {tr : Trace} {r : Except Unit Unit}
    (h : Completes ctx.processRequestInner tr r) :
    ∃ tr₁ tr₂, tr = tr₁ ++ tr₂ ∧ (∀ ev ∈ tr₁, ev.1.isRequestOp = true) ∧
      (((⟨.timerFires, true⟩ : Event Op Op.Answer) ∈ tr₁ ∧
          Completes (send 408 ctx.exposeVersion) tr₂ r) ∨
        ∃ a tr', Completes ctx.readRequest tr' a ∧ SameUpToTimers tr₁ tr' ∧
          ((a = .error () ∧ tr₂ = []) ∨
            (a = .ok none ∧ Completes (send 404 ctx.exposeVersion) tr₂ r) ∨
            ∃ request, a = .ok (some request) ∧
              Completes (ctx.acceptedRequest request) tr₂ r)) := by
  rcases completes_bind_iff.mp h with ⟨e, hread, -⟩ | ⟨b, tr₁, tr₂, rfl, hread, hrest⟩
  · rcases completes_timeoutIfSome hread with ⟨herr, -⟩ | ⟨a, tr', herr, -, -⟩
    · exact absurd herr (by simp)
    · exact absurd herr (by simp)
  have htimer : Op.timerFires.isRequestOp = true := rfl
  have honly := only_timeoutIfSome (P := (·.isRequestOp = true)) htimer
    (only_readLoop (fun _ => rfl) (fun code => only_send code _) (.empty ctx.cfg.maxBuf))
    ctx.cfg.clientHeadersTimeout
  refine ⟨tr₁, tr₂, rfl, honly.of_runs hread, ?_⟩
  rcases completes_timeoutIfSome hread with ⟨hb, hfired⟩ | ⟨a, tr', hb, hrun, hsame⟩
  · obtain rfl := Except.ok.inj hb
    exact Or.inl ⟨hfired, hrest⟩
  · obtain rfl := Except.ok.inj hb
    refine Or.inr ⟨a, tr', hrun, hsame, ?_⟩
    rcases a with _ | (_ | request)
    · obtain ⟨rfl, -⟩ := completes_throw_iff.mp hrest
      exact Or.inl ⟨rfl, rfl⟩
    · exact Or.inr (Or.inl ⟨rfl, hrest⟩)
    · exact Or.inr (Or.inr ⟨request, rfl, hrest⟩)

/-- A request is accepted only if there is room for its bytes. -/
theorem maxBuf_pos_of_accepted {ctx : Context} {tr : Trace} {request : Request}
    (h : Completes ctx.readRequest tr (.ok (some request))) : 0 < ctx.cfg.maxBuf := by
  rcases Context.readLoop_cases h with ⟨-, herr⟩ | ⟨n, -, -, herr⟩ | ⟨n, tr', hn, -, -⟩
  · exact absurd herr (by simp)
  · exact absurd herr (by simp)
  · have hpos := List.length_pos_of_ne_nil hn
    have hle : n.1.length ≤ min ctx.cfg.maxBuf 4096 := n.2
    omega

/-- A run that writes to the upstream reads the request (`tr₁`), connects, and then is a run of the
proxy for the accepted request. -/
theorem exists_proxyRequest_of_writeUpstream {ctx : Context} {tr : Trace} {r : Except Unit Unit}
    (h : Completes ctx.processRequestInner tr r) {data : Bytes} {res : Except Unit Unit}
    (hw : (⟨.writeUpstream data, res⟩ : Event Op Op.Answer) ∈ tr) :
    ∃ request tr₁ tr₂, tr = tr₁ ++ tr₂ ∧
      (∀ ev ∈ tr₁, ev.1.isRequestOp = true ∨ ∃ port, ev.1 = .connect port) ∧ outputs tr₁ = [] ∧
        Completes (ctx.proxyRequest request) tr₂ r ∧
          ctx.accepted (delivered tr) = some request ∧ 0 < ctx.cfg.maxBuf := by
  have hsend : ∀ {code tr}, Completes (send code ctx.exposeVersion) tr r →
      (⟨.writeUpstream data, res⟩ : Event Op Op.Answer) ∉ tr :=
    fun hrun hmem => absurd ((only_send _ _).of_runs hrun _ hmem) (by simp [Op.isRequestOp])
  obtain ⟨tr₁, tr₂, rfl, honly, hcases⟩ := processRequestInner_cases h
  have hw₂ : (⟨.writeUpstream data, res⟩ : Event Op Op.Answer) ∈ tr₂ := by
    rcases List.mem_append.mp hw with hmem | hmem
    · exact absurd (honly _ hmem) (by simp [Op.isRequestOp])
    · exact hmem
  rcases hcases with ⟨-, hrun⟩ | ⟨a, tr', hread, hsame, ⟨-, rfl⟩ | ⟨-, hrun⟩ | ⟨request, rfl, hrun⟩⟩
  · exact absurd hw₂ (hsend hrun)
  · exact absurd hw₂ (by simp)
  · exact absurd hw₂ (hsend hrun)
  have hout := Context.readRequest_outcome hread
  have hdelivered : delivered (tr₁ ++ tr₂) = delivered tr' := by
    rw [delivered_append, (isReply_acceptedRequest hrun).delivered, List.append_nil, hsame.delivered]
  generalize hwritten : outputs tr' = out at hout
  cases hout with
  | accepted hrej hacc =>
    rw [← hsame.outputs] at hwritten
    rcases acceptedRequest_cases hrun with hpage | ⟨tr₃, tr₄, rfl, hconnect, hrest⟩
    · exact absurd hw₂ (hsend hpage)
    rcases List.mem_append.mp hw₂ with hmem | hmem
    · rcases hconnect _ hmem with hop | ⟨port, hop⟩ <;> exact absurd hop (by simp)
    rcases hrest with ⟨code, hpage⟩ | hproxy
    · exact absurd hmem (hsend hpage)
    refine ⟨request, tr₁ ++ tr₃, tr₄, (List.append_assoc _ _ _).symm, ?_, ?_, hproxy, ?_,
      maxBuf_pos_of_accepted hread⟩
    · intro ev hev
      rcases List.mem_append.mp hev with hev | hev
      · exact Or.inl (honly ev hev)
      · rcases hconnect ev hev with hop | hop
        · exact Or.inl (by rw [hop]; rfl)
        · exact Or.inr hop
    · have hnil : outputs tr₃ = [] := by
        refine List.filter_eq_nil_iff.mpr fun ev hev => ?_
        rcases hconnect ev hev with hop | ⟨port, hop⟩ <;> rw [hop] <;> simp [Op.isOutput]
      unfold outputs at hwritten hnil ⊢
      rw [List.filter_append, hwritten, hnil]
      rfl
    · rw [hdelivered, hacc]

/-- What is written to the upstream is the accepted request, rewritten. -/
theorem exists_accepted_of_writeUpstream {ctx : Context} {tr : Trace} {r : Except Unit Unit}
    (h : Completes ctx.processRequestInner tr r) {data : Bytes} {res : Except Unit Unit}
    (hw : (⟨.writeUpstream data, res⟩ : Event Op Op.Answer) ∈ tr) :
    ∃ request, ctx.accepted (delivered tr) = some request ∧
      data = finalBuf .plain (upstreamHeaders ctx.cfg request.headersConfig ctx.clientIp)
        (delivered tr) := by
  obtain ⟨request, tr₁, tr₂, rfl, hops, -, hproxy, hacc, -⟩ :=
    exists_proxyRequest_of_writeUpstream h hw
  refine ⟨request, hacc, ?_⟩
  obtain ⟨res', tr₃, rfl, hrelay⟩ := proxyRequest_cases hproxy
  rcases List.mem_append.mp hw with hmem | hmem
  · rcases hops _ hmem with hop | ⟨port, hop⟩
    · exact absurd hop (by simp [Op.isRequestOp])
    · exact absurd hop (by simp)
  rcases List.mem_cons.mp hmem with heq | hmem
  · have hop : Op.writeUpstream data = .writeUpstream _ := congrArg Sigma.fst heq
    rw [← Context.accepted_buf hacc]
    exact Op.writeUpstream.inj hop
  · exact absurd (hrelay _ hmem) (by simp [Op.isRelayOp])

end Scety
