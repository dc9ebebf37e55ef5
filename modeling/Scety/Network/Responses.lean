import Scety.Network.RequestRuns

/-!
# How many responses a client gets

`read_request` answers a rejected request itself and then returns `Ok(None)`, which its caller
answers with 404.  So a run meets the law of one response exactly when it decides no rejection, or
the page of the rejection does not get through (`one_response_iff`).
-/

namespace Scety

open Effects

/-- One response for a connection: the program sends at most one page, none if bytes of the
upstream were written, and a rejected request gets the page of its rejection alone. -/
structure OneResponse (ctx : Context) (tr : Trace) : Prop where
  atMostOne : (pagesOf tr).length ≤ 1
  noneIfRelayed : tr.any relays = true → pagesOf tr = []
  rejection : ∀ code, ctx.rejection (delivered tr) = some code → pagesOf tr = [code]

/-- The client's socket fails at the first write to it, or at the first flush after it. -/
def FirstSendFails (tr : Trace) : Prop := false ∈ (outputResults tr).take 2

section Runs

variable {ctx : Context} {tr : Trace} {r : Except Unit Unit}

/-- Without a rejection, a reply is all that the client gets. -/
theorem OneResponse.of_isReply {tr₁ tr₂ : Trace} (hout : outputs tr₁ = []) (hreply : IsReply tr₂)
    (hrej : ctx.rejection (delivered tr₁) = none) :
    OneResponse ctx (tr₁ ++ tr₂) ∧ ctx.rejection (delivered (tr₁ ++ tr₂)) = none := by
  have hrej' : ctx.rejection (delivered (tr₁ ++ tr₂)) = none := by
    rw [delivered_append, hreply.delivered, List.append_nil, hrej]
  have hpages : pagesOf (tr₁ ++ tr₂) = pagesOf tr₂ := by
    rw [pagesOf_append, ← pagesOf_outputs, hout]
    rfl
  have hrelays : (tr₁ ++ tr₂).any relays = tr₂.any relays := by
    rw [List.any_append, ← any_relays_outputs, hout]
    rfl
  refine ⟨⟨?_, ?_, ?_⟩, hrej'⟩
  · rcases hreply.pages with hnone | ⟨hone, -⟩
    · rw [hpages, hnone]
      exact Nat.zero_le 1
    · rw [hpages, hone]
  · intro hrelayed
    rcases hreply.pages with hnone | ⟨-, hno⟩
    · rw [hpages, hnone]
    · rw [hrelays, hno] at hrelayed
      exact absurd hrelayed (by decide)
  · intro c hc
    exact absurd (hrej'.symm.trans hc) (by simp)

/-- The page of a rejection that does not get through is the only one. -/
theorem OneResponse.of_unsent {code : ℕ} (hsend : IsSend code (outputs tr) (.error ()))
    (hrej : ctx.rejection (delivered tr) = some code) : OneResponse ctx tr ∧ FirstSendFails tr := by
  have hpages : pagesOf tr = [code] := by
    rw [← pagesOf_outputs, hsend.pages]
  refine ⟨⟨?_, ?_, ?_⟩, ?_⟩
  · rw [hpages]
    exact le_refl 1
  · intro hrelayed
    rw [← any_relays_outputs, hsend.relays] at hrelayed
    exact absurd hrelayed (by decide)
  · intro c hc
    rw [hpages, Option.some.inj (hrej.symm.trans hc)]
  · unfold FirstSendFails
    rw [← outputResults_outputs]
    rcases hsend.results with ⟨hres, -⟩ | ⟨hres, -⟩ | ⟨-, hok⟩
    · simp [hres]
    · simp [hres]
    · exact absurd hok (by simp)

variable (ctx) in
/-- The page of a rejection that got through is followed by a second one. -/
theorem not_oneResponse_of_rejected {code code' : ℕ} {out tr₁ tr₂ : Trace} {r : Except Unit Unit}
    (hout : outputs tr₁ = out) (hsend : IsSend code out (.ok ())) (hsend' : IsSend code' tr₂ r) :
    ¬ OneResponse ctx (tr₁ ++ tr₂) ∧ ¬ FirstSendFails (tr₁ ++ tr₂) := by
  refine ⟨?_, ?_⟩
  · intro hone
    have hle := hone.atMostOne
    rw [pagesOf_append, ← pagesOf_outputs, hout, hsend.pages, hsend'.pages] at hle
    exact absurd hle (by simp)
  · intro hfails
    have hresults : outputResults tr₁ = [true, true] := by
      rw [← outputResults_outputs, hout]
      rcases hsend.results with ⟨-, herr⟩ | ⟨-, herr⟩ | ⟨hok, -⟩
      · exact absurd herr (by simp)
      · exact absurd herr (by simp)
      · exact hok
    unfold FirstSendFails at hfails
    rw [outputResults_append, hresults] at hfails
    exact absurd hfails (by simp)

/-- **One response for a connection**: in a run without timeouts the law holds if and only if
`read_request` decides no rejection, or the page of the rejection does not get through. -/
theorem one_response_iff (h : Completes ctx.processRequestInner tr r) (hq : Quiet tr) :
    OneResponse ctx tr ↔ ctx.rejection (delivered tr) = none ∨ FirstSendFails tr := by
  obtain ⟨tr₁, tr₂, rfl, -, ⟨hfired, -⟩ | ⟨a, tr', hread, hsame, hrest⟩⟩ :=
    processRequestInner_cases h
  · exact absurd (hq true (List.mem_append_left _ hfired)) (by decide)
  have hout := Context.readRequest_outcome hread
  rw [← hsame.outputs, ← hsame.delivered] at hout
  have hreplied : outputs tr₁ = [] → IsReply tr₂ → ctx.rejection (delivered tr₁) = none →
      (OneResponse ctx (tr₁ ++ tr₂) ↔
        ctx.rejection (delivered (tr₁ ++ tr₂)) = none ∨ FirstSendFails (tr₁ ++ tr₂)) :=
    fun hnil hreply hrej =>
      have hone := OneResponse.of_isReply hnil hreply hrej
      iff_of_true hone.1 (Or.inl hone.2)
  generalize hwritten : outputs tr₁ = out at hout
  cases hout with
  | lost hrej =>
    rcases hrest with ⟨-, rfl⟩ | ⟨herr, -⟩ | ⟨request, herr, -⟩
    · exact hreplied hwritten isReply_nil hrej
    · exact absurd herr (by simp)
    · exact absurd herr (by simp)
  | unmatched hrej =>
    rcases hrest with ⟨herr, -⟩ | ⟨-, hsend⟩ | ⟨request, herr, -⟩
    · exact absurd herr (by simp)
    · exact hreplied hwritten (isSend hsend).isReply hrej
    · exact absurd herr (by simp)
  | accepted hrej hacc =>
    rcases hrest with ⟨herr, -⟩ | ⟨herr, -⟩ | ⟨request', -, hrun⟩
    · exact absurd herr (by simp)
    · exact absurd herr (by simp)
    · exact hreplied hwritten (isReply_acceptedRequest hrun) hrej
  | @rejected code out hrej hs =>
    rcases hrest with ⟨herr, -⟩ | ⟨-, hsend⟩ | ⟨request, herr, -⟩
    · exact absurd herr (by simp)
    · have hs' := isSend hsend
      have hrej' : ctx.rejection (delivered (tr₁ ++ tr₂)) = some code := by
        rw [delivered_append, hs'.delivered, List.append_nil, hrej]
      obtain ⟨hnot, hsent⟩ := not_oneResponse_of_rejected ctx hwritten hs hs'
      apply iff_of_false hnot
      rintro (hnone | hfails)
      · exact absurd (hnone.symm.trans hrej') (by simp)
      · exact hsent hfails
    · exact absurd herr (by simp)
  | @unsent code out hrej hs =>
    rcases hrest with ⟨-, rfl⟩ | ⟨herr, -⟩ | ⟨request, herr, -⟩
    · rw [List.append_nil]
      rw [← hwritten] at hs
      obtain ⟨hone, hfails⟩ := OneResponse.of_unsent hs hrej
      exact iff_of_true hone (Or.inr hfails)
    · exact absurd herr (by simp)
    · exact absurd herr (by simp)

end Runs

/-! ### Concrete runs -/

/-- A port without services. -/
def emptyContext (parse : Bytes → ParseResult) : Context :=
  ⟨plainSettings, "10.0.0.1:5000".toList, false, HostRouter.new, [], parse⟩

/-- The events of `send` when all goes well. -/
def sendEvents (code : ℕ) : Trace :=
  [⟨.writeClient (.page code false), .ok ()⟩, ⟨.flushClient, .ok ()⟩]

theorem completes_sendEvents (code : ℕ) : Completes (send code false) (sendEvents code) (.ok ()) :=
  completes_bind_iff.mpr (Or.inr ⟨(), [_], [_], rfl, completes_writeClient.mpr rfl,
    completes_flushClient.mpr rfl⟩)

/-- A run of the empty port: one read, then what follows it, then the 404 page. -/
theorem completes_emptyContext {parse : Bytes → ParseResult} {tr : Trace}
    (h : Completes (emptyContext parse).readRequest tr (.ok none)) :
    Completes (emptyContext parse).processRequestInner (tr ++ sendEvents 404) (.ok ()) := by
  refine completes_bind_iff.mpr (Or.inr ⟨some (.ok none), tr, sendEvents 404, rfl, ?_, ?_⟩)
  · exact completes_timeoutIfSome_none h
  · exact completes_sendEvents 404

/-- A request for a host that is not there. -/
def strayRequest : Bytes := bytes "GET / HTTP/1.1\r\nHost: b\r\n\r\n".toList

/-- `httparse` on this request. -/
def parseStray (data : Bytes) : ParseResult :=
  if data = strayRequest then .complete [⟨"Host".toList, bytes "b".toList⟩] else .incomplete

def strayEvents : Trace := [⟨.readClient 4096, .ok ⟨strayRequest, by decide⟩⟩]

theorem one_response_iff_stray :
    OneResponse (emptyContext parseStray) (strayEvents ++ sendEvents 404) := by
  have hread : Completes (emptyContext parseStray).readRequest strayEvents (.ok none) :=
    @Context.completes_readRequest (emptyContext parseStray) ⟨strayRequest, by decide⟩ (by decide) _ rfl
      _ _ (completes_pure_iff.mpr ⟨rfl, rfl⟩)
  exact (one_response_iff (completes_emptyContext hread) (quiet_of_all rfl)).mpr (Or.inl rfl)

/-- A request with two framings. -/
def smuggledRequest : Bytes :=
  bytes "POST / HTTP/1.1\r\nHost: a\r\nContent-Length: 4\r\nTransfer-Encoding: chunked\r\n\r\n".toList

def smuggledHeaders : List Header :=
  [⟨"Host".toList, bytes "a".toList⟩, ⟨contentLengthName, bytes "4".toList⟩,
    ⟨transferEncodingName, bytes "chunked".toList⟩]

/-- `httparse` on this request. -/
def parseSmuggled (data : Bytes) : ParseResult :=
  if data = smuggledRequest then .complete smuggledHeaders else .incomplete

def smuggledEvents : Trace := [⟨.readClient 4096, .ok ⟨smuggledRequest, by decide⟩⟩]

theorem completes_smuggledEvents : Completes (emptyContext parseSmuggled).readRequest
    (smuggledEvents ++ sendEvents 400) (.ok none) := by
  refine @Context.completes_readRequest (emptyContext parseSmuggled)
    ⟨smuggledRequest, by decide⟩ (by decide) smuggledHeaders rfl _ _ ?_
  exact completes_bind_iff.mpr (Or.inr ⟨(), sendEvents 400, [], by simp,
    completes_sendEvents 400, completes_pure_iff.mpr ⟨rfl, rfl⟩⟩)

/-- The request is answered with 400 and then with 404. -/
theorem one_response_fails :
    ¬ ∀ (ctx : Context) (tr : Trace) (r : Except Unit Unit),
      Completes ctx.processRequestInner tr r → Quiet tr → OneResponse ctx tr := by
  intro hall
  have hone := hall _ _ _ (completes_emptyContext completes_smuggledEvents) (quiet_of_all rfl)
  exact absurd hone.atMostOne (by decide)

end Scety
