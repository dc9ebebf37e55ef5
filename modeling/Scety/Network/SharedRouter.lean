import Scety.Lib.Queries
import Scety.Network.Server

/-!
# The connections of a listener and its router

A listener has one `SearchRouter`, and all its connections ask it: between two of them the cache is as
the last one left it.  Here `find` is a query of the program of a connection, which the router answers
under its lock; a timer cannot fire at it.  The connections do what they would do without the cache.
-/

namespace Scety

open Cache Effects Transition

/-- Code that may ask for the service of a host. -/
abbrev RouterIo := ExceptT Unit (Prog (Op ⊕ Str) (Sum.elim Op.Answer fun _ => Option ClientConfig))

/-- `search_router.find`. -/
def findShared (host : Str) : RouterIo (Option ClientConfig) := ExceptT.lift (Prog.ask host)

/-- Code that does not ask. -/
def withoutFind {α : Type} (p : Io α) : RouterIo α := ExceptT.mk p.run.ofPlain

/-- The match on an optional timeout. -/
def timeoutIfSomeShared {α : Type} (duration : Option Duration) (future : RouterIo α) :
    RouterIo (Option (Except Unit α)) :=
  match duration with
  | some _ => ExceptT.lift (withTimerOnPlain .timerFires id future.run)
  | none => ExceptT.lift (some <$> future.run)

namespace Context

variable (ctx : Context)

/-- The branch of a complete head. -/
def completeRequestShared (data : Bytes) (headers : List Header) : RouterIo (Option Request) :=
  match validateFramingHeaders headers with
  | .error _ => do
    withoutFind (send 400 ctx.exposeVersion)
    return none
  | .ok () =>
    match requestHost headers with
    | some host =>
      if ctx.cfg.hostExceedsLabelLimit host then do
        withoutFind (send 423 ctx.exposeVersion)
        return none
      else do
        match ← findShared host with
        | some target =>
          return some ⟨data, target.upstream.bind (·.port), target.headers,
            isWebsocketUpgrade headers⟩
        | none => return none
    | none => return none

/-- The loop of `read_request`. -/
def readLoopShared (buf : ReadBuffer ctx.cfg.maxBuf) : RouterIo (Option Request) := do
  let n ← withoutFind (readClient buf.free)
  if _ : n.1 = [] then
    return none
  else
    match ctx.parse (buf.push n).data with
    | .complete headers => ctx.completeRequestShared (buf.push n).data headers
    | .incomplete =>
      if (buf.push n).isFull then
        withoutFind (send 431 ctx.exposeVersion)
        return none
      else
        readLoopShared (buf.push n).growIfFull
    | .error => return none
termination_by ctx.cfg.maxBuf - buf.data.length
decreasing_by exact buf.measure_push ‹_›

def readRequestShared : RouterIo (Option Request) := ctx.readLoopShared (.empty ctx.cfg.maxBuf)

/-- `process_request`. -/
def processRequestShared : RouterIo Unit := do
  match ← timeoutIfSomeShared ctx.cfg.clientHeadersTimeout ctx.readRequestShared with
  | none => withoutFind (send 408 ctx.exposeVersion)
  | some (.error e) => throw e
  | some (.ok none) => withoutFind (send 404 ctx.exposeVersion)
  | some (.ok (some request)) => withoutFind (ctx.acceptedRequest request)

end Context

/-! ### With the answers of the router -/

section Answers

variable {ctx : Context}

theorem answer_withoutFind {α : Type} (f : Str → Option ClientConfig) (p : Io α) :
    (withoutFind p).run.answer f = p.run := answer_ofPlain p.run

/-- The answer is that of the router. -/
theorem answer_findShared {α : Type} (f : Str → Option ClientConfig) (host : Str)
    (g : Option ClientConfig → RouterIo α) :
    (findShared host >>= g).run.answer f = (g (f host)).run.answer f := rfl

theorem answer_timeoutIfSomeShared {α : Type} {f : Str → Option ClientConfig}
    (duration : Option Duration) {future : RouterIo α} {future' : Io α}
    (h : future.run.answer f = future'.run) :
    (timeoutIfSomeShared duration future).run.answer f = (timeoutIfSome duration future').run := by
  cases duration with
  | none =>
    show (Except.ok <$> (some <$> future.run)).answer f = Except.ok <$> (some <$> future'.run)
    rw [answer_map, answer_map, h]
  | some d =>
    refine (answer_map _ _).trans (congrArg (Except.ok <$> ·) ?_)
    exact (answer_withTimerOnPlain _).trans (congrArg _ h)

theorem answer_completeRequest (data : Bytes) (headers : List Header) :
    (ctx.completeRequestShared data headers).run.answer ctx.find =
      (ctx.completeRequest data headers).run := by
  unfold Context.completeRequestShared Context.completeRequest
  cases validateFramingHeaders headers with
  | error e => exact answer_bind_run (answer_withoutFind _ _) fun _ => rfl
  | ok u =>
    dsimp only
    cases requestHost headers with
    | none => rfl
    | some host =>
      dsimp only
      split_ifs
      · exact answer_bind_run (answer_withoutFind _ _) fun _ => rfl
      · rw [answer_findShared]
        cases ctx.find host <;> rfl

theorem answer_readLoop (buf : ReadBuffer ctx.cfg.maxBuf) :
    (ctx.readLoopShared buf).run.answer ctx.find = (ctx.readLoop buf).run := by
  induction buf using Context.readLoop.induct with
  | case1 buf ih =>
    rw [Context.readLoop, Context.readLoopShared]
    refine answer_bind_run (answer_withoutFind _ _) ?_
    intro n
    by_cases hn : n.1 = []
    · rw [dif_pos hn, dif_pos hn]
      rfl
    · rw [dif_neg hn, dif_neg hn]
      cases ctx.parse (buf.push n).data with
      | complete headers => exact answer_completeRequest _ headers
      | incomplete =>
        dsimp only
        split_ifs
        · exact answer_bind_run (answer_withoutFind _ _) fun _ => rfl
        · exact ih n hn
      | error => rfl

/-- With the answers of the router without its cache, the program is that of `process_request`. -/
theorem answer_processRequest :
    ctx.processRequestShared.run.answer ctx.find = ctx.processRequestInner.run := by
  refine answer_bind_run (answer_timeoutIfSomeShared _ (answer_readLoop _)) ?_
  intro result
  rcases result with _ | _ | _ | request
  · exact answer_withoutFind _ _
  · rfl
  · exact answer_withoutFind _ _
  · exact answer_withoutFind _ _

end Answers

/-! ### The router and its cache -/

/-- What the router of a listener answers without its cache. -/
def Listener.find (l : Listener) (host : Str) : Option ClientConfig :=
  ((HostRouter.ofCalls (SearchRouter.registrations l.configs)).matches host).bind
    fun i => l.configs[i]?

/-- The router of a listener, with nothing in its cache but its answers. -/
structure Listener.RoutedBy {lru : LruCache Str (Option ℕ)} (l : Listener) (r : SearchRouter lru) :
    Prop where
  router : r.router = HostRouter.ofCalls (SearchRouter.registrations l.configs)
  configs : r.configs = l.configs
  cache : r.CacheCorrect

section Router

variable (lru : LruCache Str (Option ℕ)) (S : Server) (l : Listener)

theorem routedBy_new : l.RoutedBy (SearchRouter.new lru l.configs) where
  router := SearchRouter.router_new lru l.configs
  configs := rfl
  cache := SearchRouter.cacheCorrect_withCacheCapacity (SearchRouter.new lru l.configs) 128

/-- The cache is a store that answers as the router does. -/
theorem answers_find : Answers (@SearchRouter.find lru) l.find l.RoutedBy where
  answer host hr := by
    rw [(SearchRouter.find_spec hr.cache host).1, hr.router, hr.configs]
    rfl
  keeps host hr := by
    obtain ⟨-, hrouter, hconfigs, hcache⟩ := SearchRouter.find_spec hr.cache host
    exact ⟨hrouter.trans hr.router, hconfigs.trans hr.configs, hcache⟩

namespace Server

/-- The connections of a listener that ask the router without a cache, with the addresses of their
clients; the sockets answer anything. -/
def connections : System (Shared Str Op Op.Answer (Except Unit Unit) Unit) Unit :=
  sharedSystem (fun clientIp => (S.context l clientIp).processRequestInner.run) (fun _ => True)
    (fun _ _ _ => True) ()

/-- The connections of a listener that ask its `SearchRouter`. -/
def cachedConnections : System (Shared Str (Op ⊕ Str) (Sum.elim Op.Answer fun _ => Option ClientConfig)
    (Except Unit Unit) (Unit × SearchRouter lru)) Unit :=
  sharedSystem (fun clientIp => (S.context l clientIp).processRequestShared.run) (fun _ => True)
    (StoreStep (fun _ _ _ => True) (@SearchRouter.find lru)) ((), SearchRouter.new lru l.configs)

/-- **The cache is invisible to the connections**: in every interleaving they do what they would do if
each of them asked the router itself, and everything that they would do. -/
theorem connections_iff_cached (t : Shared Str Op Op.Answer (Except Unit Unit) Unit) :
    (S.connections l).Reachable t ↔
      ∃ s, (S.cachedConnections lru l).Reachable s ∧ s.answer l.find = t := by
  have hprograms : (fun clientIp => (S.context l clientIp).processRequestShared.run.answer l.find) =
      fun clientIp => (S.context l clientIp).processRequestInner.run :=
    funext fun clientIp => @answer_processRequest (S.context l clientIp)
  unfold connections
  rw [← hprograms]
  exact (answers_find lru l).reachable_iff (routedBy_new lru l)

end Server

end Router

end Scety
