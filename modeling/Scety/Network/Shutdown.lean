import Scety.Lib.Transition
import Scety.Network.Forwarding
import Scety.Network.Output

/-!
# `handle_client`: the token of the shutdown

`handle_client` drops `process_request` at whatever moment the token fires, and writes the 503 page
behind what the client has got so far.  So the page stands alone exactly if nothing was written
before; the program does not ask for that.
-/

namespace Scety

open Effects Transition

/-- `handle_client`: a moment of the branch of `select!` that was taken. -/
structure ClientTask where
  cancelled : Bool
  moment : Moment Op Op.Answer (Except Unit Unit) (UInt8 × Source) UInt8

inductive TaskAction where
  | advance
  /-- The token fires after these bytes were written. -/
  | cancel (written : List (UInt8 × Source))

/-- The token may fire at every moment before `process_request` has ended; what is done then cannot
be cancelled. -/
inductive TaskStep (ctx : Context) (site : Site) : ClientTask → TaskAction → ClientTask → Prop where
  | advance {s m} : Advance (ctx.clientSocket site) s.moment m →
      TaskStep ctx site s .advance { s with moment := m }
  | cancel {s} : s.cancelled = false → (∀ r, s.moment.program ≠ .pure r) →
      TaskStep ctx site s (.cancel s.moment.out)
        ⟨true, (send 503 ctx.exposeVersion).run, s.moment.seen, s.moment.out, []⟩

def handleClient (ctx : Context) (site : Site) : System ClientTask TaskAction where
  init s := s = ⟨false, ctx.processRequestInner.run, [], [], []⟩
  step := TaskStep ctx site

/-- If a byte of the 503 page is written, then no byte of another response is. -/
def PageAlone (out : List (UInt8 × Source)) : Prop :=
  (∃ b ∈ out, b.2 = .page 503) → ∀ b ∈ out, b.2 = .page 503

/-! ### Runs -/

section Runs

variable {ctx : Context} {site : Site} {s s' : ClientTask}

/-- `process_request` writes what a client gets that is not cancelled. -/
def ClientTask.Serves (ctx : Context) (site : Site) (s : ClientTask) : Prop :=
  s.moment.Keeps (ctx.clientSocket site) (ClientOutput ctx site) fun _ => ClientOutput ctx site

/-- What is written is the front of the 503 page. -/
def ClientTask.Closes (ctx : Context) (site : Site) (s : ClientTask) : Prop :=
  s.moment.Keeps (ctx.clientSocket site) (fun _ out => out <+: ctx.page site 503 ctx.exposeVersion)
    fun _ _ out => out <+: ctx.page site 503 ctx.exposeVersion

theorem serves_start : ClientTask.Serves ctx site
    ⟨false, ctx.processRequestInner.run, [], [], []⟩ :=
  ⟨[], rfl, keeps_clientOutput, Or.inl rfl⟩

theorem serves_of_reachable (h : (handleClient ctx site).Reachable s) (hs : s.cancelled = false) :
    s.Serves ctx site := by
  induction h with
  | init h =>
    obtain rfl := h
    exact serves_start
  | step _ hstep ih =>
    cases hstep with
    | advance hadvance => exact (ih hs).advance hadvance
    | cancel _ _ => exact absurd hs (by simp)

/-- A token that fires before anything is written. -/
theorem closes_of_cancel {written : List (UInt8 × Source)}
    (h : TaskStep ctx site s (.cancel written) s') (hnil : written = []) : s'.Closes ctx site := by
  cases h with
  | cancel _ _ =>
    refine ⟨[], hnil, ?_, Or.inl rfl⟩
    apply keeps_send
    exact fun d hd => hd

theorem ClientTask.Closes.advance (h : s.Closes ctx site) (hstep : TaskStep ctx site s .advance s') :
    s'.Closes ctx site := by
  cases hstep with
  | advance hadvance => exact Moment.Keeps.advance h hadvance

theorem ClientTask.Closes.pageAlone (h : s.Closes ctx site) : PageAlone s.moment.out := by
  have hfront := h.now
  exact fun _ => source_of_front hfront

/-- In runs where the token fires only before anything is written. -/
theorem serves_or_closes (h : ((handleClient ctx site).restrict
    fun a => ∀ written, a = .cancel written → written = []).Reachable s) :
    s.Serves ctx site ∨ s.Closes ctx site := by
  induction h with
  | init h =>
    obtain rfl := h
    exact Or.inl serves_start
  | step _ hstep ih =>
    obtain ⟨hlabel, hstep⟩ := hstep
    cases hstep with
    | advance hadvance =>
      exact ih.imp (fun h => h.advance hadvance) fun h => h.advance (.advance hadvance)
    | cancel hs hrun => exact Or.inr (closes_of_cancel (.cancel hs hrun) (hlabel _ rfl))

/-- A token that fires after something was written leaves the start of a page behind it. -/
theorem exists_mixed (h : (handleClient ctx site).Reachable s) (hs : s.cancelled = false)
    (hrun : ∀ r, s.moment.program ≠ .pure r) (hout : s.moment.out ≠ []) :
    ∃ s₁ s₂, TaskStep ctx site s (.cancel s.moment.out) s₁ ∧ TaskStep ctx site s₁ .advance s₂ ∧
      ¬ PageAlone s₂.moment.out := by
  obtain ⟨rest, hpage⟩ := errorPage_eq site
    (ctx.cfg.globalResponseHeaders.entries.map fun e => (e.1, e.2)) 503 ctx.exposeVersion
  have hfront : [(72, .page 503)] <+: ctx.page site 503 ctx.exposeVersion := by
    unfold Context.page
    dsimp only
    rw [hpage]
    exact ⟨_, rfl⟩
  have hemits : Advance (ctx.clientSocket site)
      ⟨(send 503 ctx.exposeVersion).run, s.moment.seen, s.moment.out, []⟩
      ⟨(send 503 ctx.exposeVersion).run, s.moment.seen, s.moment.out ++ [(72, .page 503)],
        [(72, .page 503)]⟩ := .emits rfl hfront
  refine ⟨_, _, .cancel hs hrun, .advance hemits, ?_⟩
  intro halone
  obtain ⟨b, hb⟩ := List.exists_mem_of_ne_nil _ hout
  have hpage503 := halone ⟨_, List.mem_append_right _ (List.mem_singleton.mpr rfl), rfl⟩ b
    (List.mem_append_left _ hb)
  exact (serves_of_reachable h hs).now.not503 b hb hpage503

/-- **Shutdown**: in every run in which the token fires only while nothing has been written, or
after `process_request` has ended, the 503 page stands alone, and the client gets the front of one
response unless its request is rejected; then a second page follows only if that of the rejection is
complete, or the head is read under a timer.  Where the token fires after something was written, the
page does not stand alone. -/
theorem shutdown_clean_iff (ctx : Context) (site : Site) :
    (∀ s, ((handleClient ctx site).restrict
        fun a => ∀ written, a = .cancel written → written = []).Reachable s →
      PageAlone s.moment.out ∧
        (ctx.rejection s.moment.seen = none → OfOneResponse ctx site s.moment.out) ∧
        ∀ code, ctx.rejection s.moment.seen = some code →
          s.moment.out <+: ctx.page site 503 ctx.exposeVersion ∨
            OfRejection ctx site code s.moment.out) ∧
    ∀ s, (handleClient ctx site).Reachable s → s.cancelled = false →
      (∀ r, s.moment.program ≠ .pure r) →
        ((∀ s₁ s₂, TaskStep ctx site s (.cancel s.moment.out) s₁ →
          Relation.ReflTransGen (fun t t' => TaskStep ctx site t .advance t') s₁ s₂ →
            PageAlone s₂.moment.out) ↔ s.moment.out = []) := by
  refine ⟨?_, ?_⟩
  · intro s hs
    rcases serves_or_closes hs with h | h
    · have hout := h.now
      refine ⟨?_, hout.one, fun code hrej => Or.inr (hout.rejected code hrej)⟩
      rintro ⟨b, hb, hpage⟩
      exact absurd hpage (hout.not503 b hb)
    · exact ⟨h.pageAlone, fun _ => Or.inl ⟨503, h.now⟩, fun _ _ => Or.inl h.now⟩
  · intro s hs hserving hrun
    refine ⟨?_, ?_⟩
    · intro hall
      by_contra hout
      obtain ⟨s₁, s₂, hcancel, hadvance, hmixed⟩ := exists_mixed hs hserving hrun hout
      exact hmixed (hall s₁ s₂ hcancel (.single hadvance))
    · intro hout s₁ s₂ hcancel hadvances
      have hcloses : s₂.Closes ctx site := by
        induction hadvances with
        | refl => exact closes_of_cancel hcancel hout
        | tail _ hstep ih => exact ih.advance hstep
      exact hcloses.pageAlone

/-- Every run of `process_request` is one of the task. -/
theorem reachable_of_reaches {tr : Trace} {q : Prog Op Op.Answer (Except Unit Unit)}
    (h : Reaches ctx.processRequestInner.run tr q) :
    ∃ seen out, (handleClient ctx site).Reachable ⟨false, q, seen, out, []⟩ := by
  have hshows : ∀ op (r : op.Answer), (ctx.clientSocket site).passes op = none →
      ∃ d, (ctx.clientSocket site).partly op d ∧ (ctx.clientSocket site).wholly op r d := by
    intro op r _
    cases op with
    | writeClient output =>
      cases r with
      | error e => exact ⟨[], List.nil_prefix, List.nil_prefix⟩
      | ok u => exact ⟨_, List.prefix_rfl, rfl⟩
    | copyBidirectional =>
      refine ⟨Context.ofUpstream r.toClient, ?_, rfl⟩
      intro b hb
      obtain ⟨a, -, rfl⟩ := List.mem_map.mp hb
      rfl
    | timerFires => exact ⟨[], rfl, rfl⟩
    | readClient len => exact ⟨[], rfl, rfl⟩
    | flushClient => exact ⟨[], rfl, rfl⟩
    | connect port => exact ⟨[], rfl, rfl⟩
    | readUpstream len => exact ⟨[], rfl, rfl⟩
    | writeUpstream data => exact ⟨[], rfl, rfl⟩
  obtain ⟨seen, out, hadvances⟩ := advances_of_reaches hshows h [] []
  refine ⟨seen, out, ?_⟩
  have hstart : (handleClient ctx site).Reachable
      ⟨false, ctx.processRequestInner.run, [], [], []⟩ := .init rfl
  generalize (⟨q, seen, out, []⟩ : Moment Op Op.Answer (Except Unit Unit) (UInt8 × Source) UInt8) = m
    at hadvances
  induction hadvances with
  | refl => exact hstart
  | tail _ hadvance ih => exact ih.step (.advance hadvance)

end Runs

/-- While a response is relayed, a shutdown writes its page behind the bytes of the upstream. -/
theorem shutdown_mixes :
    ¬ ∀ (ctx : Context) (site : Site) (s : ClientTask), (handleClient ctx site).Reachable s →
      PageAlone s.moment.out ∧ OfOneResponse ctx site s.moment.out := by
  intro hall
  have hrun : Runs proxyContext.processRequestInner.run
      ([⟨.readClient 4096, .ok ⟨crlfRequest, by decide⟩⟩, ⟨.timerFires, false⟩,
        ⟨.connect 3000, .ok ()⟩, ⟨.writeUpstream (finalBuf .plain proxyHeaders crlfRequest), .ok ()⟩]
        ++ ⟨.copyBidirectional, ⟨[], [], .ok ()⟩⟩ :: []) (.ok ()) :=
    completes_proxyEvents crlfRequest (by decide) (by decide) rfl
  obtain ⟨k, hreaches⟩ := hrun.reaches_front
  obtain ⟨seen, out, hs⟩ := @reachable_of_reaches proxyContext ⟨∅, [], fun _ => []⟩ _ _ hreaches
  have hemits : Advance (proxyContext.clientSocket ⟨∅, [], fun _ => []⟩)
      ⟨.perform .copyBidirectional k, seen, out, []⟩
      ⟨.perform .copyBidirectional k, seen, out ++ [(72, .upstream)], [(72, .upstream)]⟩ := by
    refine .emits rfl ?_
    intro b hb
    rw [List.mem_singleton.mp hb]
  have hrelays := hs.step (.advance hemits)
  obtain ⟨s₁, s₂, hcancel, hadvance, hmixed⟩ :=
    exists_mixed hrelays rfl (fun r => by simp) (by simp)
  exact hmixed (hall _ _ s₂ ((hrelays.step hcancel).step hadvance)).1

end Scety
