import Mathlib.Order.Bounds.Defs
import Scety.Network.FullTimeout

/-!
# The longest a connection can last

With a timeout for the head and one for the body, a connection that is not upgraded lasts at most as
long as both, the thirty seconds for the upstream and what is written without a timer together, and some
run of the program lasts that long.  Without one of the two timeouts there is no bound, and for a
connection that is upgraded to a WebSocket there never is one.
-/

namespace Scety

open Effects

namespace Phases

variable {run : Phases Timed} {cfg : ScetyConfig} {ctx : Context} {w head body : ℕ}

/-- No write that is under no timer takes longer. -/
structure WritesWithin (run : Phases Timed) (w : ℕ) : Prop where
  writeRequest : ∀ request, (run.writeRequest request).takes ≤ w
  send : ∀ code, (run.send code).takes ≤ w

/-! ### The bound -/

/-- What is under a timeout takes at most the timeout, and then what follows. -/
theorem takes_timeoutIfSome_bind_le {α β : Type} {d bound : ℕ} {x : Timed α}
    {f : Option α → ExceptT Unit Timed β} (hlate : (f none).run.takes ≤ bound)
    (hdone : (f (some x.result)).run.takes ≤ bound) :
    (timeoutIfSome (some d) x >>= f).run.takes ≤ d + bound := by
  by_cases hlt : d < x.takes
  · rw [takes_timeoutIfSome_bind_of_lt hlt]
    omega
  · rw [takes_timeoutIfSome_bind_of_le (Nat.not_lt.mp hlt)]
    omega

theorem takes_proxyRequest_le (hbody : cfg.clientBodyTimeout = some body) (hw : run.WritesWithin w)
    {request : Request} (hws : request.isWs = false) :
    (run.proxyRequest cfg request).run.takes ≤ w + body := by
  have hwrite := hw.writeRequest request
  unfold proxyRequest
  rw [hbody, hws]
  cases hresult : (run.writeRequest request).result with
  | error e =>
    rw [Timed.run_bind_error (x := ExceptT.mk (run.writeRequest request)) hresult]
    exact Nat.le_add_right_of_le hwrite
  | ok u =>
    rw [Timed.run_bind_ok (x := ExceptT.mk (run.writeRequest request)) hresult,
      if_neg Bool.false_ne_true]
    exact Nat.add_le_add hwrite
      (@takes_timeoutIfSome_bind_le _ _ body 0 _ _ (Nat.le_refl 0) (Nat.le_refl 0))

theorem takes_acceptedRequest_le (hbody : cfg.clientBodyTimeout = some body)
    (hw : run.WritesWithin w) {request : Request} (hws : request.isWs = false) :
    (run.acceptedRequest cfg request).run.takes ≤ connectTimeout + (w + body) := by
  have hsend : ∀ code, (run.send code).takes ≤ w + body :=
    fun code => Nat.le_add_right_of_le (hw.send code)
  unfold acceptedRequest
  cases request.targetPort with
  | none => exact Nat.le_add_left_of_le (hsend 502)
  | some port =>
    refine takes_timeoutIfSome_bind_le (hsend 504) ?_
    cases (run.connect port).result with
    | error e => exact hsend 502
    | ok u => exact takes_proxyRequest_le hbody hw hws

theorem takes_processRequestInner_le (hhead : cfg.clientHeadersTimeout = some head)
    (hbody : cfg.clientBodyTimeout = some body) (hws : run.NonWebSocket) (hw : run.WritesWithin w) :
    (run.processRequestInner cfg).run.takes ≤ head + (connectTimeout + (w + body)) := by
  have hsend : ∀ code, (run.send code).takes ≤ connectTimeout + (w + body) :=
    fun code => Nat.le_add_left_of_le (Nat.le_add_right_of_le (hw.send code))
  unfold processRequestInner
  rw [hhead]
  refine takes_timeoutIfSome_bind_le (hsend 408) ?_
  cases hresult : run.readRequest.result with
  | error e => exact Nat.zero_le _
  | ok accepted =>
    cases accepted with
    | none => exact hsend 404
    | some request => exact takes_acceptedRequest_le hbody hw (hws request hresult)

/-! ### The runs that last longest -/

/-- Some client gets the request accepted, and its service has the port. -/
def Proxies (ctx : Context) (request : Request) (port : UInt16) : Prop :=
  Realises (⟨0, .ok (some request)⟩ : Timed _) ctx.phases.readRequest ∧ request.targetPort = some port

/-- A request that is proxied, and how long its phases take. -/
def slowRun (request : Request) (head connect w body : ℕ) : Phases Timed where
  readRequest := ⟨head, .ok (some request)⟩
  connect _ := ⟨connect, .ok ()⟩
  writeRequest _ := ⟨w, .ok ()⟩
  relay _ := ⟨body, .ok ()⟩
  send _ := ⟨0, .ok ()⟩

theorem runOf_slowRun {request : Request} {port : UInt16} (h : Proxies ctx request port)
    (head connect w body : ℕ) : (slowRun request head connect w body).RunOf ctx :=
  .of_readRequest h.1

theorem nonWebSocket_slowRun {request : Request} (hws : request.isWs = false)
    (head connect w body : ℕ) : (slowRun request head connect w body).NonWebSocket := by
  intro request' heq
  obtain rfl := Option.some.inj (Except.ok.inj heq)
  exact hws

/-- The time of a computation that is done when its timeout is over, or that has none. -/
theorem takes_timeoutIfSome_bind_of_ok {α β : Type} {d : Option Duration} {x : Timed α}
    (h : ∀ t ∈ d, x.takes ≤ t) (f : Option α → ExceptT Unit Timed β) :
    (timeoutIfSome d x >>= f).run.takes = x.takes + (f (some x.result)).run.takes := by
  cases d with
  | none => rfl
  | some t => exact takes_timeoutIfSome_bind_of_le (h t rfl) f

/-- The body of a WebSocket is under no timer. -/
theorem takes_slowRun {request : Request} {port : UInt16} (h : Proxies ctx request port)
    {connect : ℕ} (hhead : ∀ t ∈ cfg.clientHeadersTimeout, head ≤ t) (hconnect : connect ≤ connectTimeout)
    (hbody : request.isWs = false → ∀ t ∈ cfg.clientBodyTimeout, body ≤ t) :
    ((slowRun request head connect w body).processRequestInner cfg).run.takes =
      head + (connect + (w + body)) := by
  have hproxy : ((slowRun request head connect w body).proxyRequest cfg request).run.takes =
      w + body := by
    unfold proxyRequest
    rw [Timed.run_bind_ok (x := ExceptT.mk ((slowRun request head connect w body).writeRequest request)) rfl]
    cases hws : request.isWs with
    | true => rfl
    | false =>
      rw [if_neg Bool.false_ne_true]
      exact congrArg (w + ·) (takes_timeoutIfSome_bind_of_ok (hbody hws) _)
  have haccepted : ((slowRun request head connect w body).acceptedRequest cfg request).run.takes =
      connect + (w + body) := by
    unfold acceptedRequest
    rw [h.2]
    refine (takes_timeoutIfSome_bind_of_le hconnect _).trans ?_
    exact congrArg (connect + ·) hproxy
  unfold processRequestInner
  refine (takes_timeoutIfSome_bind_of_ok hhead _).trans ?_
  exact congrArg (head + ·) haccepted

end Phases

open Phases

/-- **The longest a connection can last**: where both timeouts are set, the longest of the runs without a
WebSocket, whose writes outside the timers take at most `w`, lasts as long as the timeout of the head,
the thirty seconds of the upstream, `w` and the timeout of the body together.  Where one of the two is
off, and for an upgraded connection in any case, runs whose writes take no time last longer than any
bound. -/
theorem longest_connection (ctx : Context) {request : Request} {port : UInt16}
    (hproxy : Proxies ctx request port) (w : ℕ) :
    (request.isWs = false → ∀ head body, ctx.cfg.clientHeadersTimeout = some head →
      ctx.cfg.clientBodyTimeout = some body →
      IsGreatest {t | ∃ run : Phases Timed, run.RunOf ctx ∧ run.NonWebSocket ∧ run.WritesWithin w ∧
        t = (run.processRequestInner ctx.cfg).run.takes} (head + (connectTimeout + (w + body)))) ∧
    (request.isWs = false → ctx.cfg.clientHeadersTimeout = none ∨ ctx.cfg.clientBodyTimeout = none →
      ∀ bound, ∃ run : Phases Timed, run.RunOf ctx ∧ run.NonWebSocket ∧ run.WritesWithin 0 ∧
        bound < (run.processRequestInner ctx.cfg).run.takes) ∧
    (request.isWs = true → ∀ bound, ∃ run : Phases Timed, run.RunOf ctx ∧
      run.readRequest.result = .ok (some request) ∧ run.WritesWithin 0 ∧
        bound < (run.processRequestInner ctx.cfg).run.takes) := by
  have hwrites : ∀ head connect w body, (slowRun request head connect w body).WritesWithin w :=
    fun _ _ w _ => ⟨fun _ => Nat.le_refl w, fun _ => Nat.zero_le w⟩
  refine ⟨?_, ?_, ?_⟩
  · intro hws head body hhead hbody
    refine ⟨⟨slowRun request head connectTimeout w body, runOf_slowRun hproxy _ _ _ _,
      nonWebSocket_slowRun hws _ _ _ _, hwrites _ _ _ _, ?_⟩, ?_⟩
    · refine (takes_slowRun hproxy ?_ (Nat.le_refl _) fun _ => ?_).symm
      · rw [hhead]
        rintro t ⟨⟩
        exact Nat.le_refl _
      · rw [hbody]
        rintro t ⟨⟩
        exact Nat.le_refl _
    · rintro t ⟨run, -, hws, hw, rfl⟩
      exact takes_processRequestInner_le hhead hbody hws hw
  · rintro hws (hoff | hoff) bound
    · refine ⟨slowRun request (bound + 1) 0 0 0, runOf_slowRun hproxy _ _ _ _,
        nonWebSocket_slowRun hws _ _ _ _, hwrites _ _ _ _, ?_⟩
      rw [takes_slowRun hproxy (by rw [hoff]; simp) (Nat.zero_le _) fun _ _ _ => Nat.zero_le _]
      omega
    · refine ⟨slowRun request 0 0 0 (bound + 1), runOf_slowRun hproxy _ _ _ _,
        nonWebSocket_slowRun hws _ _ _ _, hwrites _ _ _ _, ?_⟩
      rw [takes_slowRun hproxy (fun _ _ => Nat.zero_le _) (Nat.zero_le _) (by rw [hoff]; simp)]
      omega
  · intro hws bound
    refine ⟨slowRun request 0 0 0 (bound + 1), runOf_slowRun hproxy _ _ _ _, rfl, hwrites _ _ _ _, ?_⟩
    rw [takes_slowRun hproxy (fun _ _ => Nat.zero_le _) (Nat.zero_le _) fun hno => by simp [hws] at hno]
    omega

theorem longest_connection_full : IsGreatest {t | ∃ run : Phases Timed,
    run.RunOf fullTimeoutContext ∧ run.NonWebSocket ∧ run.WritesWithin 0 ∧
      t = (run.processRequestInner fullTimeoutContext.cfg).run.takes} 40000000000 := by
  have hproxy : Proxies fullTimeoutContext ⟨crlfRequest, some 3000, none, false⟩ 3000 :=
    ⟨(runOf_proxiedRun 0 0).readRequest, rfl⟩
  exact (longest_connection fullTimeoutContext hproxy 0).1 rfl 5000000000 5000000000 rfl rfl

end Scety
