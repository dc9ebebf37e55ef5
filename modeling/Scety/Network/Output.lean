import Scety.Http.Response
import Scety.Lib.Moments
import Scety.Network.RequestRuns

/-!
# What `process_request` writes to the client

At every moment of a run the client has got the front of one response, unless `read_request` has rejected
its request: then the page of the rejection comes first, and the caller, which takes the rejection for a
missing service, writes the 404 page behind it.
-/

namespace Scety

open Effects

/-- The response that a byte on the client's socket belongs to. -/
inductive Source where
  | page (code : ℕ)
  | upstream
  deriving DecidableEq

namespace Context

variable (ctx : Context) (site : Site)

/-- The page that `send` writes, with the global headers for responses. -/
def page (code : ℕ) (exposeVersion : Bool) : List (UInt8 × Source) :=
  let headers := ctx.cfg.globalResponseHeaders.entries.map fun e => (e.1, e.2)
  (errorPage site headers code exposeVersion).map fun b => (b, .page code)

/-- The bytes of the upstream. -/
def ofUpstream (data : Bytes) : List (UInt8 × Source) := data.map fun b => (b, .upstream)

/-- What `write_all` writes. -/
def outputBytes : Output → List (UInt8 × Source)
  | .page code exposeVersion => ctx.page site code exposeVersion
  | .relay data => ofUpstream data

/-- The client's side of the operations: a write in progress has written a front of its bytes, and
one that fails leaves it there. -/
def clientSocket : Observer Op Op.Answer (UInt8 × Source) UInt8 where
  passes
    | .timerFires => some false
    | _ => none
  partly
    | .writeClient output, d => d <+: ctx.outputBytes site output
    | .copyBidirectional, d => ∀ b ∈ d, b.2 = .upstream
    | _, d => d = []
  wholly
    | .writeClient output, .ok _, d => d = ctx.outputBytes site output
    | .writeClient output, .error _, d => d <+: ctx.outputBytes site output
    | .copyBidirectional, copied, d => d = ofUpstream copied.toClient
    | _, _, d => d = []
  sees op r := deliveredBy ⟨op, r⟩

end Context

/-- What is written is the front of one page, or comes from the upstream. -/
def OfOneResponse (ctx : Context) (site : Site) (out : List (UInt8 × Source)) : Prop :=
  (∃ code, out <+: ctx.page site code ctx.exposeVersion) ∨ ∀ b ∈ out, b.2 = .upstream

/-- Nothing is written, unless the request is rejected; and never the 503 page. -/
structure NoOutput (ctx : Context) (seen : Bytes) (out : List (UInt8 × Source)) : Prop where
  not503 : ∀ b ∈ out, b.2 ≠ .page 503
  empty : ctx.rejection seen = none → out = []

/-- One response is written, unless the request is rejected; and never the 503 page. -/
structure OneOutput (ctx : Context) (site : Site) (seen : Bytes) (out : List (UInt8 × Source)) :
    Prop where
  not503 : ∀ b ∈ out, b.2 ≠ .page 503
  one : ctx.rejection seen = none → OfOneResponse ctx site out

/-- What a client whose request is rejected gets: the front of the page of the rejection, and behind it
the front of the 408 page, if the head is read under a timer, or of the 404 page, if the first page is
complete. -/
inductive OfRejection (ctx : Context) (site : Site) (code : ℕ) : List (UInt8 × Source) → Prop where
  | page {front} : front <+: ctx.page site code ctx.exposeVersion → OfRejection ctx site code front
  | late {front next} : ctx.cfg.clientHeadersTimeout.isSome = true →
      front <+: ctx.page site code ctx.exposeVersion → next <+: ctx.page site 408 ctx.exposeVersion →
        OfRejection ctx site code (front ++ next)
  | notFound {next} : next <+: ctx.page site 404 ctx.exposeVersion →
      OfRejection ctx site code (ctx.page site code ctx.exposeVersion ++ next)

/-- What a client has got. -/
structure ClientOutput (ctx : Context) (site : Site) (seen : Bytes) (out : List (UInt8 × Source)) :
    Prop extends OneOutput ctx site seen out where
  rejected : ∀ code, ctx.rejection seen = some code → OfRejection ctx site code out

section Output

variable {ctx : Context} {site : Site} {seen : Bytes} {out : List (UInt8 × Source)}

theorem NoOutput.oneOutput (h : NoOutput ctx seen out) : OneOutput ctx site seen out := by
  refine ⟨h.not503, ?_⟩
  intro hrej
  rw [h.empty hrej]
  exact Or.inr (by simp)

theorem source_of_front {code : ℕ} {exposeVersion : Bool} {d : List (UInt8 × Source)}
    (h : d <+: ctx.page site code exposeVersion) : ∀ b ∈ d, b.2 = .page code := by
  intro b hb
  obtain ⟨a, -, rfl⟩ := List.mem_map.mp (h.subset hb)
  rfl

/-- `send` keeps what holds for every front of its page, and has written all of it if nothing fails. -/
theorem keeps_send_ok {I : Bytes → List (UInt8 × Source) → Prop} {code : ℕ}
    (h : ∀ d, d <+: ctx.page site code ctx.exposeVersion → I seen (out ++ d)) :
    Keeps (ctx.clientSocket site) I
      (fun r seen' out' => r = .ok () → seen' = seen ∧ out' = out ++ ctx.page site code ctx.exposeVersion)
      (send code ctx.exposeVersion).run seen out := by
  have hnow : I seen out := by
    have hnil := h [] List.nil_prefix
    rwa [List.append_nil] at hnil
  have hpass : (ctx.clientSocket site).passes (.writeClient (.page code ctx.exposeVersion)) = none :=
    rfl
  refine (keeps_perform_iff hpass).mpr ⟨hnow, h, ?_⟩
  intro r d hd
  have hseen : seen ++ (ctx.clientSocket site).sees (.writeClient (.page code ctx.exposeVersion)) r =
      seen := List.append_nil seen
  rw [hseen]
  cases r with
  | error e => exact ⟨h d hd, fun herr => nomatch herr⟩
  | ok u =>
    obtain rfl : d = ctx.page site code ctx.exposeVersion := hd
    have hpage := h _ List.prefix_rfl
    have hflush : (ctx.clientSocket site).passes .flushClient = none := rfl
    refine (keeps_perform_iff hflush).mpr ⟨hpage, ?_, ?_⟩
    · rintro d' rfl
      rwa [List.append_nil]
    · rintro r' d' rfl
      have hseen' : seen ++ (ctx.clientSocket site).sees .flushClient r' = seen :=
        List.append_nil seen
      rw [hseen', List.append_nil]
      cases r' with
      | error e => exact ⟨hpage, fun herr => nomatch herr⟩
      | ok u' => exact ⟨hpage, fun _ => ⟨rfl, rfl⟩⟩

/-- `send` keeps what holds for every front of its page. -/
theorem keeps_send {I : Bytes → List (UInt8 × Source) → Prop} {code : ℕ}
    (h : ∀ d, d <+: ctx.page site code ctx.exposeVersion → I seen (out ++ d)) :
    Keeps (ctx.clientSocket site) I (fun _ => I) (send code ctx.exposeVersion).run seen out :=
  (keeps_send_ok h).mono (fun _ _ hI => hI) fun _ _ _ hI _ => hI

/-- A page other than the 503 page may follow nothing. -/
theorem NoOutput.keeps_send {code : ℕ} (h : NoOutput ctx seen out) (hcode : code ≠ 503) :
    Keeps (ctx.clientSocket site) (OneOutput ctx site) (fun _ => OneOutput ctx site)
      (send code ctx.exposeVersion).run seen out := by
  apply Scety.keeps_send
  intro d hd
  refine ⟨?_, ?_⟩
  · intro b hb
    rcases List.mem_append.mp hb with hb | hb
    · exact h.not503 b hb
    · rw [source_of_front hd b hb]
      exact fun heq => hcode (Source.page.inj heq)
  · intro hrej
    rw [h.empty hrej, List.nil_append]
    exact Or.inl ⟨code, hd⟩

/-- The page of a rejection. -/
theorem keeps_reject {code : ℕ} (hcode : code ≠ 503) (hrej : ctx.rejection seen = some code)
    (h : ∀ b ∈ out, b.2 ≠ .page 503) :
    Keeps (ctx.clientSocket site) (NoOutput ctx) (fun _ => NoOutput ctx)
      (do send code ctx.exposeVersion; return none : Io (Option Request)).run seen out := by
  have hsend : Keeps (ctx.clientSocket site) (NoOutput ctx) (fun _ => NoOutput ctx)
      (send code ctx.exposeVersion).run seen out := by
    apply Scety.keeps_send
    intro d hd
    refine ⟨?_, fun hnone => absurd (hrej.symm.trans hnone) (by simp)⟩
    intro b hb
    rcases List.mem_append.mp hb with hb | hb
    · exact h b hb
    · rw [source_of_front hd b hb]
      exact fun heq => hcode (Source.page.inj heq)
  have hguarded : TimersGuard (ctx.clientSocket site) (send code ctx.exposeVersion).run :=
    timersGuard_of_only ((only_bind_run (only_op rfl) fun _ => only_op rfl))
  exact hsend.bind_run hguarded (fun _ _ _ h => h) fun _ _ _ hQ h => ⟨hQ, h⟩

/-- Reading writes nothing but the page of a rejection. -/
theorem keeps_readLoop (buf : ReadBuffer ctx.cfg.maxBuf) :
    Keeps (ctx.clientSocket site) (NoOutput ctx) (fun _ => NoOutput ctx) (ctx.readLoop buf).run
      buf.data [] := by
  have hnil : ∀ seen, NoOutput ctx seen [] := fun _ => ⟨by simp, fun _ => rfl⟩
  induction buf using Context.readLoop.induct with
  | case1 buf ih =>
    rw [Context.readLoop]
    have hpass : (ctx.clientSocket site).passes (.readClient buf.free) = none := rfl
    refine (keeps_perform_iff hpass).mpr ⟨hnil _, ?_, ?_⟩
    · rintro d rfl
      exact hnil _
    · rintro r d rfl
      cases r with
      | error e => exact ⟨hnil _, hnil _⟩
      | ok n =>
        show Keeps _ _ _ (ExceptT.run (if _ : n.1 = [] then _ else _)) (buf.push n).data []
        by_cases hn : n.1 = []
        · rw [dif_pos hn]
          exact ⟨hnil _, hnil _⟩
        · rw [dif_neg hn]
          have h0 := buf.push_ne_nil hn
          cases hparse : ctx.parse (buf.push n).data with
          | complete headers =>
            dsimp only
            rcases ctx.completeRequest_cases (buf.push n).data headers with
              ⟨code, hcode, hrej, heq⟩ | ⟨request, heq, -⟩
            · rw [heq]
              exact keeps_reject hcode (hrej h0 hparse) (by simp)
            · rw [heq]
              exact ⟨hnil _, hnil _⟩
          | incomplete =>
            dsimp only
            split_ifs with hfull
            · refine keeps_reject (by decide) ?_ (by simp)
              unfold Context.rejection
              rw [if_neg h0, hparse]
              exact if_pos ((ReadBuffer.isFull_iff _).mp hfull)
            · have hloop := ih n hn
              rwa [ReadBuffer.data_growIfFull] at hloop
          | error => exact ⟨hnil _, hnil _⟩

/-- What is known after a program under a timer that may fire if `timed` holds. -/
def TimedPost {α : Type} (I : Bytes → List (UInt8 × Source) → Prop)
    (post : Except Unit α → Bytes → List (UInt8 × Source) → Prop) (timed : Prop) :
    Except Unit (Option (Except Unit α)) → Bytes → List (UInt8 × Source) → Prop
  | .ok none, seen, out => I seen out ∧ timed
  | .ok (some r), seen, out => post r seen out
  | .error _, _, _ => False

/-- The timers of the program, as the socket observes them. -/
theorem keeps_timeout {α : Type} (duration : Duration) {p : Io α}
    {I : Bytes → List (UInt8 × Source) → Prop}
    {post : Except Unit α → Bytes → List (UInt8 × Source) → Prop}
    (htimers : Only (fun op => (ctx.clientSocket site).passes op = none) p.run)
    (h : Keeps (ctx.clientSocket site) I post p.run seen out) :
    Keeps (ctx.clientSocket site) I (TimedPost I post True) (timeout duration p).run seen out := by
  have hpass : (ctx.clientSocket site).passes .timerFires = some false := rfl
  have hfires : ∀ r : Bool, id r = true ↔ r ≠ false := by simp
  have htimer : Keeps (ctx.clientSocket site) I (fun r => TimedPost I post True (.ok r))
      (withTimer Op.timerFires id p.run) seen out :=
    Keeps.withTimer hpass hfires htimers
      (h.mono (fun _ _ hI => ⟨hI, hI, trivial⟩) fun _ _ _ _ hpost => hpost)
  refine Keeps.bind (timersGuard_withTimer hpass rfl htimers) (htimer.mono (fun _ _ hI => hI) ?_)
  exact fun _ _ _ hQ hpost => ⟨hQ, hpost⟩

theorem timersGuard_timeout {α : Type} (duration : Duration) {p : Io α}
    (htimers : Only (fun op => (ctx.clientSocket site).passes op = none) p.run) :
    TimersGuard (ctx.clientSocket site) (timeout duration p).run := by
  have hpass : (ctx.clientSocket site).passes .timerFires = some false := rfl
  exact timersGuard_bind (timersGuard_withTimer hpass rfl htimers) fun _ => trivial

theorem timersGuard_timeoutIfSome {α : Type} {duration : Option Duration} {p : Io α}
    (htimers : Only (fun op => (ctx.clientSocket site).passes op = none) p.run) :
    TimersGuard (ctx.clientSocket site) (timeoutIfSome duration p).run := by
  cases duration with
  | some d => exact timersGuard_timeout d htimers
  | none =>
    refine timersGuard_bind (timersGuard_bind (timersGuard_of_only htimers) ?_) fun _ => trivial
    exact fun _ => trivial

theorem keeps_timeoutIfSome {α : Type} {duration : Option Duration} {p : Io α}
    {I : Bytes → List (UInt8 × Source) → Prop}
    {post : Except Unit α → Bytes → List (UInt8 × Source) → Prop}
    (htimers : Only (fun op => (ctx.clientSocket site).passes op = none) p.run)
    (h : Keeps (ctx.clientSocket site) I post p.run seen out) :
    Keeps (ctx.clientSocket site) I (TimedPost I post (duration.isSome = true))
      (timeoutIfSome duration p).run seen out := by
  cases duration with
  | some d =>
    refine (keeps_timeout d htimers h).mono (fun _ _ hI => hI) fun r _ _ _ hpost => ?_
    rcases r with _ | _ | _
    · exact hpost
    · exact ⟨hpost.1, rfl⟩
    · exact hpost
  | none =>
    have hguarded := timersGuard_of_only htimers
    have hsome : Keeps (ctx.clientSocket site) I (fun r => TimedPost I post False (.ok r))
        (some <$> p.run) seen out :=
      Keeps.bind hguarded (h.mono (fun _ _ hI => hI) fun _ _ _ hQ hpost => ⟨hQ, hpost⟩)
    refine Keeps.bind (timersGuard_bind hguarded fun _ => trivial) (hsome.mono (fun _ _ hI => hI) ?_)
    rintro (_ | r) _ _ hQ hpost
    · exact hpost.2.elim
    · exact ⟨hQ, hpost⟩

/-- What the proxy writes comes from the upstream, and it reads nothing of the request. -/
theorem proxyOp_upstream {op : Op} (h : op.isProxyOp = true) :
    (∀ d, (ctx.clientSocket site).partly op d → ∀ b ∈ d, b.2 = .upstream) ∧
      ∀ r, (ctx.clientSocket site).sees op r = [] ∧
        ∀ d, (ctx.clientSocket site).wholly op r d → ∀ b ∈ d, b.2 = .upstream := by
  have hnil : ∀ d : List (UInt8 × Source), d = [] → ∀ b ∈ d, b.2 = .upstream := by
    rintro d rfl b hb
    exact absurd hb List.not_mem_nil
  have hof : ∀ (data : Bytes), ∀ b ∈ Context.ofUpstream data, b.2 = .upstream := by
    intro data b hb
    obtain ⟨a, -, rfl⟩ := List.mem_map.mp hb
    rfl
  cases op with
  | readClient len => exact absurd h (by simp [Op.isProxyOp])
  | writeClient output =>
    cases output with
    | page code v => exact absurd h (by simp [Op.isProxyOp])
    | relay data =>
      have hfront : ∀ d, d <+: Context.ofUpstream data → ∀ b ∈ d, b.2 = .upstream :=
        fun d hd b hb => hof data b (hd.subset hb)
      refine ⟨hfront, fun r => ⟨rfl, ?_⟩⟩
      cases r with
      | error e => exact hfront
      | ok u =>
        rintro d rfl
        exact hof data
  | copyBidirectional =>
    refine ⟨fun d hd => hd, fun r => ⟨rfl, ?_⟩⟩
    rintro d rfl
    exact hof r.toClient
  | timerFires => exact ⟨hnil, fun r => ⟨rfl, hnil⟩⟩
  | flushClient => exact ⟨hnil, fun r => ⟨rfl, hnil⟩⟩
  | connect port => exact ⟨hnil, fun r => ⟨rfl, hnil⟩⟩
  | readUpstream len => exact ⟨hnil, fun r => ⟨rfl, hnil⟩⟩
  | writeUpstream data => exact ⟨hnil, fun r => ⟨rfl, hnil⟩⟩

theorem NoOutput.keeps_proxyRequest (h : NoOutput ctx seen out) (request : Request) :
    Keeps (ctx.clientSocket site) (OneOutput ctx site) (fun _ => OneOutput ctx site)
      (ctx.proxyRequest request).run seen out := by
  have hrelayed : Keeps (ctx.clientSocket site)
      (fun seen' out' => seen' = seen ∧ ∃ d, out' = out ++ d ∧ ∀ b ∈ d, b.2 = .upstream)
      (fun _ seen' out' => seen' = seen ∧ ∃ d, out' = out ++ d ∧ ∀ b ∈ d, b.2 = .upstream)
      (ctx.proxyRequest request).run seen out := by
    refine keeps_of_only ?_ ?_ (only_proxyRequest ctx request)
      ⟨rfl, [], (List.append_nil _).symm, by simp⟩
    · rintro op hop seen' out' d ⟨hseen, d₀, rfl, hd₀⟩ hd
      refine ⟨hseen, d₀ ++ d, List.append_assoc _ _ _, ?_⟩
      exact List.forall_mem_append.mpr ⟨hd₀, (proxyOp_upstream hop).1 d hd⟩
    · rintro op hop r seen' out' d ⟨rfl, d₀, rfl, hd₀⟩ hd
      obtain ⟨hsees, hwhole⟩ := (proxyOp_upstream hop).2 r
      rw [hsees, List.append_nil]
      refine ⟨rfl, d₀ ++ d, List.append_assoc _ _ _, ?_⟩
      exact List.forall_mem_append.mpr ⟨hd₀, hwhole d hd⟩
  have hone : ∀ seen' out', (seen' = seen ∧ ∃ d, out' = out ++ d ∧ ∀ b ∈ d, b.2 = .upstream) →
      OneOutput ctx site seen' out' := by
    rintro seen' out' ⟨rfl, d, rfl, hd⟩
    refine ⟨List.forall_mem_append.mpr ⟨h.not503, ?_⟩, ?_⟩
    · intro b hb
      rw [hd b hb]
      exact Source.noConfusion
    · intro hrej
      rw [h.empty hrej]
      exact Or.inr hd
  exact hrelayed.mono hone fun _ seen' out' _ => hone seen' out'

theorem NoOutput.keeps_acceptedRequest (h : NoOutput ctx seen out) (request : Request) :
    Keeps (ctx.clientSocket site) (OneOutput ctx site) (fun _ => OneOutput ctx site)
      (ctx.acceptedRequest request).run seen out := by
  unfold Context.acceptedRequest
  cases request.targetPort with
  | none => exact h.keeps_send (by decide)
  | some port =>
    have htimers : Only (fun op => (ctx.clientSocket site).passes op = none)
        (connectUpstream port).run := ⟨rfl, fun _ => trivial⟩
    have hconnect : Keeps (ctx.clientSocket site) (NoOutput ctx) (fun _ => NoOutput ctx)
        (connectUpstream port).run seen out := by
      have hpass : (ctx.clientSocket site).passes (.connect port) = none := rfl
      refine (keeps_perform_iff hpass).mpr ⟨h, ?_, ?_⟩
      · rintro d rfl
        rwa [List.append_nil]
      · rintro r d rfl
        have hseen : seen ++ (ctx.clientSocket site).sees (.connect port) r = seen :=
          List.append_nil seen
        rw [hseen, List.append_nil]
        exact ⟨h, h⟩
    refine Keeps.bind_run (timersGuard_timeout _ htimers) ((keeps_timeout _ htimers hconnect).mono
      (fun _ _ hno => hno.oneOutput) fun _ _ _ _ hpost => hpost) (fun _ _ _ hpost => hpost.elim) ?_
    intro res seen' out' _ hpost
    rcases res with _ | _ | _
    · exact hpost.1.keeps_send (by decide)
    · exact NoOutput.keeps_send hpost (by decide)
    · exact NoOutput.keeps_proxyRequest hpost request

/-- What is written at every moment of `process_request`. -/
theorem keeps_processRequestInner :
    Keeps (ctx.clientSocket site) (OneOutput ctx site) (fun _ => OneOutput ctx site)
      ctx.processRequestInner.run [] [] := by
  have htimers : Only (fun op => (ctx.clientSocket site).passes op = none) ctx.readRequest.run :=
    only_readLoop (P := fun op => (ctx.clientSocket site).passes op = none) (fun _ => rfl)
      (fun _ => only_bind_run (only_op rfl) fun _ => only_op rfl) _
  have hread : Keeps (ctx.clientSocket site) (NoOutput ctx) (fun _ => NoOutput ctx)
      ctx.readRequest.run [] [] := keeps_readLoop (.empty ctx.cfg.maxBuf)
  refine Keeps.bind_run (timersGuard_timeoutIfSome htimers) ((keeps_timeoutIfSome htimers hread).mono
    (fun _ _ hno => hno.oneOutput) fun _ _ _ _ hpost => hpost) (fun _ _ _ hpost => hpost.elim) ?_
  intro res seen out hone hpost
  rcases res with _ | _ | _ | request
  · exact hpost.1.keeps_send (by decide)
  · exact ⟨hone, hone⟩
  · exact NoOutput.keeps_send hpost (by decide)
  · exact NoOutput.keeps_acceptedRequest hpost request

/-! ### Rejections -/

/-- Only the page of a rejection is written while the request is read. -/
def RejectionFront (ctx : Context) (site : Site) (seen : Bytes) (out : List (UInt8 × Source)) : Prop :=
  ∀ code, ctx.rejection seen = some code → out <+: ctx.page site code ctx.exposeVersion

/-- What is written when `read_request` returns. -/
def ReadPost (ctx : Context) (site : Site) :
    Except Unit (Option Request) → Bytes → List (UInt8 × Source) → Prop
  | .error _, _, _ => True
  | .ok none, seen, out => ∀ code, ctx.rejection seen = some code →
    out = ctx.page site code ctx.exposeVersion
  | .ok (some _), seen, _ => ctx.rejection seen = none

theorem rejectionFront_nil : RejectionFront ctx site seen [] := fun _ _ => List.nil_prefix

/-- The page of a rejection that is written as the first. -/
theorem keeps_rejectionPage {code : ℕ} (hrej : ctx.rejection seen = some code) :
    Keeps (ctx.clientSocket site) (RejectionFront ctx site) (ReadPost ctx site)
      (do send code ctx.exposeVersion; return none : Io (Option Request)).run seen [] := by
  have hcode : ∀ {code'}, ctx.rejection seen = some code' → code' = code :=
    fun h => Option.some.inj (h.symm.trans hrej)
  have hsend : Keeps (ctx.clientSocket site) (RejectionFront ctx site)
      (fun r seen' out' => r = .ok () → seen' = seen ∧ out' = [] ++ ctx.page site code ctx.exposeVersion)
      (send code ctx.exposeVersion).run seen [] := by
    apply keeps_send_ok
    intro d hd code' hrej'
    rw [hcode hrej', List.nil_append]
    exact hd
  have hguarded : TimersGuard (ctx.clientSocket site) (send code ctx.exposeVersion).run :=
    timersGuard_of_only (only_bind_run (only_op rfl) fun _ => only_op rfl)
  refine hsend.bind_run hguarded (fun _ _ _ _ => trivial) fun _ _ _ hfront h => ⟨hfront, ?_⟩
  obtain ⟨rfl, rfl⟩ := h rfl
  intro code' hrej'
  rw [hcode hrej', List.nil_append]

/-- `read_request` returns after a complete page, or nothing is rejected. -/
theorem keeps_readLoop_rejection (buf : ReadBuffer ctx.cfg.maxBuf)
    (hbuf : ctx.rejection buf.data = none) :
    Keeps (ctx.clientSocket site) (RejectionFront ctx site) (ReadPost ctx site) (ctx.readLoop buf).run
      buf.data [] := by
  have hnone : ∀ {seen}, ctx.rejection seen = none → ReadPost ctx site (.ok none) seen [] :=
    fun h code hrej => absurd (hrej.symm.trans h) (Option.some_ne_none code)
  induction buf using Context.readLoop.induct with
  | case1 buf ih =>
    rw [Context.readLoop]
    have hpass : (ctx.clientSocket site).passes (.readClient buf.free) = none := rfl
    refine (keeps_perform_iff hpass).mpr ⟨rejectionFront_nil, ?_, ?_⟩
    · rintro d rfl
      exact rejectionFront_nil
    · rintro r d rfl
      cases r with
      | error e => exact ⟨rejectionFront_nil, trivial⟩
      | ok n =>
        show Keeps _ _ _ (ExceptT.run (if _ : n.1 = [] then _ else _)) (buf.push n).data []
        by_cases hn : n.1 = []
        · rw [dif_pos hn]
          refine ⟨rejectionFront_nil, hnone ?_⟩
          rw [ReadBuffer.data_push, hn, List.append_nil]
          exact hbuf
        · rw [dif_neg hn]
          have h0 := buf.push_ne_nil hn
          cases hparse : ctx.parse (buf.push n).data with
          | complete headers =>
            dsimp only
            rcases ctx.completeRequest_cases (buf.push n).data headers with
              ⟨code, -, hrej, heq⟩ | ⟨request, heq, hreturn⟩
            · rw [heq]
              exact keeps_rejectionPage (hrej h0 hparse)
            · rw [heq]
              have hrej := (hreturn h0 hparse).1
              cases request with
              | none => exact ⟨rejectionFront_nil, hnone hrej⟩
              | some found => exact ⟨rejectionFront_nil, hrej⟩
          | incomplete =>
            dsimp only
            have hrej : ctx.rejection (buf.push n).data =
                if ctx.cfg.maxBuf ≤ (buf.push n).data.length then some 431 else none := by
              unfold Context.rejection
              rw [if_neg h0, hparse]
            split_ifs with hfull
            · rw [if_pos ((ReadBuffer.isFull_iff _).mp hfull)] at hrej
              exact keeps_rejectionPage hrej
            · rw [if_neg fun hle => hfull ((ReadBuffer.isFull_iff _).mpr hle)] at hrej
              rw [← ReadBuffer.data_growIfFull] at hrej
              have hloop := ih n hn hrej
              rwa [ReadBuffer.data_growIfFull] at hloop
          | error =>
            refine ⟨rejectionFront_nil, hnone ?_⟩
            unfold Context.rejection
            rw [if_neg h0, hparse]

theorem Op.isClientRead_of_isProxyOp {op : Op} (h : op.isProxyOp = true) : op.isClientRead = false := by
  cases op with
  | readClient len => exact absurd h (by simp [Op.isProxyOp])
  | _ => rfl

/-- An accepted request has been read. -/
theorem only_acceptedRequest (ctx : Context) (request : Request) :
    Only (·.isClientRead = false) (ctx.acceptedRequest request).run := by
  have hsend : ∀ code, Only (·.isClientRead = false) (send code ctx.exposeVersion).run :=
    fun code => only_bind_run (only_op rfl) fun _ => only_op rfl
  have htimer : Op.timerFires.isClientRead = false := rfl
  unfold Context.acceptedRequest
  cases request.targetPort with
  | none => exact hsend 502
  | some port =>
    have hconnect : Only (·.isClientRead = false) (connectUpstream port).run := ⟨rfl, fun _ => trivial⟩
    refine only_bind_run (only_timeout htimer hconnect _) fun res => ?_
    rcases res with _ | _ | _
    · exact hsend 504
    · exact hsend 502
    · exact (only_proxyRequest ctx request).mono fun _ => Op.isClientRead_of_isProxyOp

/-- What follows an accepted request does not change what has been read. -/
theorem keeps_acceptedRequest_seen (request : Request) :
    Keeps (ctx.clientSocket site) (fun seen' _ => seen' = seen) (fun _ seen' _ => seen' = seen)
      (ctx.acceptedRequest request).run seen out := by
  refine keeps_of_only ?_ ?_ (only_acceptedRequest ctx request) rfl
  · rintro op - seen' out' d rfl -
    rfl
  · rintro op hop r seen' out' d rfl -
    have hsees : (ctx.clientSocket site).sees op r = deliveredBy ⟨op, r⟩ := rfl
    rw [hsees, deliveredBy_eq_nil hop, List.append_nil]

/-- At every moment a client whose request is rejected has got the page of the rejection and one of the
two that may follow it. -/
theorem keeps_processRequestInner_rejection :
    let Q := fun seen out => ∀ code, ctx.rejection seen = some code → OfRejection ctx site code out
    Keeps (ctx.clientSocket site) Q (fun _ => Q) ctx.processRequestInner.run [] [] := by
  intro Q
  have htimers : Only (fun op => (ctx.clientSocket site).passes op = none) ctx.readRequest.run :=
    only_readLoop (P := fun op => (ctx.clientSocket site).passes op = none) (fun _ => rfl)
      (fun _ => only_bind_run (only_op rfl) fun _ => only_op rfl) _
  have hread : Keeps (ctx.clientSocket site) (RejectionFront ctx site) (ReadPost ctx site)
      ctx.readRequest.run [] [] := keeps_readLoop_rejection (.empty ctx.cfg.maxBuf) (if_pos rfl)
  refine Keeps.bind_run (timersGuard_timeoutIfSome htimers) ((keeps_timeoutIfSome htimers hread).mono
    (fun _ _ hfront code hrej => .page (hfront code hrej)) fun _ _ _ _ hpost => hpost)
    (fun _ _ _ hpost => hpost.elim) ?_
  intro res seen out hQ hpost
  rcases res with _ | _ | _ | request
  · exact keeps_send fun d hd code hrej => .late hpost.2 (hpost.1 code hrej) hd
  · exact ⟨hQ, hQ⟩
  · refine keeps_send fun d hd code hrej => ?_
    have hpage : out = ctx.page site code ctx.exposeVersion := hpost code hrej
    rw [hpage]
    exact .notFound hd
  · have hnone : ctx.rejection seen = none := hpost
    have hvacuous : ∀ seen' out', seen' = seen → Q seen' out' := by
      rintro seen' out' rfl code hrej
      exact absurd (hrej.symm.trans hnone) (Option.some_ne_none code)
    exact (keeps_acceptedRequest_seen request).mono hvacuous fun _ seen' out' _ => hvacuous seen' out'

/-- What the client has got at every moment of `process_request`. -/
theorem keeps_clientOutput :
    Keeps (ctx.clientSocket site) (ClientOutput ctx site) (fun _ => ClientOutput ctx site)
      ctx.processRequestInner.run [] [] :=
  (keeps_processRequestInner.and keeps_processRequestInner_rejection).mono
    (fun _ _ h => ⟨h.1, h.2⟩) fun _ _ _ _ h => ⟨h.1, h.2⟩

end Output

end Scety
