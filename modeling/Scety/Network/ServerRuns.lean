import Scety.Network.ConnectionOrder
import Scety.Network.Server

/-!
# The runs of the process

What every step does to the tasks and to the listeners, and from it what holds in all interleavings: each
task is at a moment of its own program, the table counts the guards of the tasks, the exit code tells why
the process ended, and after Ctrl-C nothing but the listeners has to end.
-/

namespace Scety

open Effects Transition

variable {S : Server} {s s' : ServerState} {a : ServerAction}

/-! ### Accepting -/

/-- A task before its first step. -/
inductive Spawned (S : Server) (l : Listener) : Task → Prop where
  | client {ip clientIp guard} :
      Spawned S l ⟨l, ip, clientIp, guard, .client (Server.startClient (S.context l clientIp))⟩
  | handshake {ip clientIp guard} : Spawned S l ⟨l, ip, clientIp, guard, .handshake⟩
  | refusal {ip clientIp} : l.sslMode = .none →
      Spawned S l ⟨l, ip, clientIp, none, .refusal (Server.startRefusal (S.context l clientIp))⟩

/-- The connection that a task serves, as the connection table sees it. -/
def Task.connection (t : Task) : Option Connection :=
  match t.job with
  | .handshake => some ⟨t.ip, t.guard, .handshake⟩
  | .client _ => some ⟨t.ip, t.guard, .served⟩
  | .refusal _ => none

/-- An accept loop spawns at most one task, and does to the table what the accept loop of its mode
does. -/
theorem acceptTask_spec (S : Server) (l : Listener) (table : Connections) (ip : IpAddr)
    (clientIp : Str) :
    (∀ t, (S.acceptTask l table ip clientIp).1 = some t → Spawned S l t) ∧
    (S.acceptTask l table ip clientIp).1.bind Task.connection =
      (accept l.sslMode S.cfg.ipLimitation table ip).1 ∧
    (S.acceptTask l table ip clientIp).2 = (accept l.sslMode S.cfg.ipLimitation table ip).2 := by
  unfold Server.acceptTask accept
  cases hmode : l.sslMode with
  | none =>
    dsimp only
    unfold acceptPlain acceptGuarded
    cases hcheck : checkIpLimit S.cfg.ipLimitation table ip with
    | mk r table' =>
      cases r with
      | ok g =>
        refine ⟨?_, rfl, rfl⟩
        rintro t ⟨⟩
        exact .client
      | error u =>
        refine ⟨?_, rfl, rfl⟩
        rintro t ⟨⟩
        exact .refusal hmode
  | manual ssl =>
    dsimp only
    unfold acceptManualTls acceptGuarded
    cases hcheck : checkIpLimit S.cfg.ipLimitation table ip with
    | mk r table' =>
      cases r with
      | ok g =>
        refine ⟨?_, rfl, rfl⟩
        rintro t ⟨⟩
        exact .handshake
      | error u => exact ⟨fun t h => (nomatch h), rfl, rfl⟩
  | acme ssl =>
    refine ⟨?_, rfl, rfl⟩
    rintro t ⟨⟩
    exact .client

/-! ### What a step does -/

/-- To the tasks. -/
theorem pool_of_step (h : ServerStep S s a s') :
    PoolStep (fun t => ∃ l, (⟨l, .accepting⟩ : Loop) ∈ s.loops ∧ Spawned S l t)
      (JobStep S s.main) s.tasks s'.tasks := by
  cases h with
  | ctrlC _ => exact .idle _
  | died _ _ => exact .idle _
  | joined _ _ => exact .idle _
  | started _ _ _ => exact .idle _
  | failed _ _ => exact .idle _
  | stopped _ _ _ => exact .idle _
  | @accept l ip clientIp _ hloop =>
    have hspec := (acceptTask_spec S l s.table ip clientIp).1
    dsimp only
    cases htask : (S.acceptTask l s.table ip clientIp).1 with
    | none => exact .idle _
    | some t => exact .spawn ⟨l, hloop, hspec t htask⟩
  | task _ htasks hstep =>
    rw [htasks]
    exact .step hstep
  | ended _ htasks _ =>
    rw [htasks]
    exact .remove

/-- To `run`: it only leaves a state that it is in. -/
theorem main_of_step (h : ServerStep S s a s') : s.main.Alive ∧ (s'.main = s.main ∨
    (a = .ctrlC ∧ s.main = .running ∧ s'.main = .draining) ∨
    (a = .died ∧ s.main = .running ∧ s'.main = .exited 1 ∧ s'.loops = s.loops ∧
      (s.loops = [] ∨ ∃ loop ∈ s.loops, loop.phase = .ended)) ∨
    (a = .joined ∧ s.main = .draining ∧ s'.main = .exited 0 ∧ s'.loops = s.loops ∧
      ∀ loop ∈ s.loops, loop.phase = .ended)) := by
  cases h with
  | ctrlC hmain => exact ⟨Or.inl hmain, Or.inr (Or.inl ⟨rfl, hmain, rfl⟩)⟩
  | died hmain hended =>
    exact ⟨Or.inl hmain, Or.inr (Or.inr (Or.inl ⟨rfl, hmain, rfl, rfl, hended⟩))⟩
  | joined hmain hended =>
    exact ⟨Or.inr hmain, Or.inr (Or.inr (Or.inr ⟨rfl, hmain, rfl, rfl, hended⟩))⟩
  | started halive _ _ => exact ⟨halive, Or.inl rfl⟩
  | failed halive _ => exact ⟨halive, Or.inl rfl⟩
  | stopped halive _ _ => exact ⟨halive, Or.inl rfl⟩
  | accept halive _ => exact ⟨halive, Or.inl rfl⟩
  | task halive _ _ => exact ⟨halive, Or.inl rfl⟩
  | ended halive _ _ => exact ⟨halive, Or.inl rfl⟩

/-- The listener that a step starts or ends. -/
def ServerAction.listener : ServerAction → Option Listener
  | .started l => some l
  | .failed l => some l
  | .stopped l => some l
  | _ => none

/-- To the listeners: one of them goes on. -/
theorem loops_of_step (h : ServerStep S s a s') : (a.listener = none ∧ s'.loops = s.loops) ∨
    ∃ l before after, a.listener = some l ∧ s'.main = s.main ∧
      ∃ l₁ l₂, s.loops = l₁ ++ ⟨l, before⟩ :: l₂ ∧ s'.loops = l₁ ++ ⟨l, after⟩ :: l₂ ∧
        ((before = .starting ∧ after = .accepting ∧ S.Loads l) ∨
          (before = .starting ∧ after = .ended ∧ a = .failed l) ∨
          (before = .accepting ∧ after = .ended ∧ a = .stopped l ∧
            (s.main = .draining ∨ l.sslMode.isAcme = true))) := by
  cases h with
  | ctrlC _ => exact Or.inl ⟨rfl, rfl⟩
  | died _ _ => exact Or.inl ⟨rfl, rfl⟩
  | joined _ _ => exact Or.inl ⟨rfl, rfl⟩
  | @started l l₁ l₂ _ hloops hloads =>
    exact Or.inr ⟨l, _, _, rfl, rfl, l₁, l₂, hloops, rfl, Or.inl ⟨rfl, rfl, hloads⟩⟩
  | @failed l l₁ l₂ _ hloops =>
    exact Or.inr ⟨l, _, _, rfl, rfl, l₁, l₂, hloops, rfl, Or.inr (Or.inl ⟨rfl, rfl, rfl⟩)⟩
  | @stopped l l₁ l₂ _ hloops hwhy =>
    exact Or.inr ⟨l, _, _, rfl, rfl, l₁, l₂, hloops, rfl, Or.inr (Or.inr ⟨rfl, rfl, rfl, hwhy⟩)⟩
  | accept _ _ => exact Or.inl ⟨rfl, rfl⟩
  | task _ _ _ => exact Or.inl ⟨rfl, rfl⟩
  | ended _ _ _ => exact Or.inl ⟨rfl, rfl⟩

/-- The listeners of the process are those it was started with. -/
theorem listeners_of_reachable (h : (serverSystem S).Reachable s) :
    s.loops.map (·.listener) = S.listeners := by
  refine h.invariant (I := fun s => s.loops.map (·.listener) = S.listeners) ?_ ?_
  · rintro s rfl
    simp [Function.comp_def]
  · intro s a s' _ hs hstep
    rcases loops_of_step hstep with ⟨-, heq⟩ | ⟨l, before, after, -, -, l₁, l₂, hbefore, hafter, -⟩
    · rw [heq, hs]
    · rw [← hs, hbefore, hafter]
      simp

/-! ### The moments of one task -/

section Moments

variable {ctx : Context} {site : Site} {c c' : ClientTask}

theorem isClientRead_of_passes {op : Op} {r : op.Answer}
    (h : (ctx.clientSocket site).passes op = some r) : op.isClientRead = false := by
  cases op with
  | timerFires => rfl
  | _ => exact nomatch (h : none = some r)

theorem sees_eq_deliveredBy (op : Op) (r : op.Answer) :
    (ctx.clientSocket site).sees op r = deliveredBy ⟨op, r⟩ := rfl

/-- Until the token fires, a task is at a point of a run of `process_request`. -/
theorem reaches_of_handleClient (h : (handleClient ctx site).Reachable c)
    (hc : c.cancelled = false) : ∃ tr, Reaches ctx.processRequestInner.run tr c.moment.program ∧
      delivered tr = c.moment.seen := by
  induction h with
  | init h =>
    obtain rfl := h
    exact ⟨[], .refl _, rfl⟩
  | @step c₀ _ _ _ hstep ih =>
    cases hstep with
    | cancel _ _ => exact absurd hc (by simp)
    | advance hadvance =>
      obtain ⟨tr, hreach, hseen⟩ := ih hc
      cases hadvance with
      | emits he hd => exact ⟨tr, hreach, hseen⟩
      | @answers e k r hp hpass hd =>
        rw [hp] at hreach
        refine ⟨tr ++ [⟨e, r⟩], hreach.concat r, ?_⟩
        rw [delivered_append, hseen, sees_eq_deliveredBy]
        exact congrArg (c₀.moment.seen ++ ·) (List.append_nil _)
      | @passes e k r hp hpass =>
        rw [hp] at hreach
        refine ⟨tr ++ [⟨e, r⟩], hreach.concat r, ?_⟩
        rw [delivered_concat (isClientRead_of_passes hpass), hseen]
      | @fires e k r r' hp hpass hr =>
        rw [hp] at hreach
        refine ⟨tr ++ [⟨e, r'⟩], hreach.concat r', ?_⟩
        rw [delivered_concat (isClientRead_of_passes hpass), hseen]

end Moments

/-! ### The tasks of the process -/

/-- The token of the connections is cancelled. -/
def Main.Cancelled (main : Main) : Prop := main = .draining ∨ main = .exited 0

/-- A task of the process: it is at a moment of its own program, and the token fires only after
Ctrl-C. -/
structure Task.Sound (S : Server) (main : Main) (t : Task) : Prop where
  listener : t.listener ∈ S.listeners
  client : ∀ c, t.job = .client c →
    (handleClient (S.context t.listener t.clientIp) S.site).Reachable c ∧
      (c.cancelled = true → main.Cancelled)
  refusal : ∀ m, t.job = .refusal m → t.listener.sslMode = .none ∧ t.guard = none ∧
    m.Keeps ((S.context t.listener t.clientIp).clientSocket S.site)
      (fun _ out => out <+: (S.context t.listener t.clientIp).page S.site 429 t.listener.exposeVersion)
      fun _ _ out => out <+: (S.context t.listener t.clientIp).page S.site 429 t.listener.exposeVersion

theorem Task.Sound.spawn {l : Listener} {t : Task} {main : Main} (hl : l ∈ S.listeners)
    (h : Spawned S l t) : t.Sound S main := by
  cases h with
  | client =>
    refine ⟨hl, ?_, fun m hm => nomatch hm⟩
    rintro c ⟨⟩
    exact ⟨.init rfl, fun h => nomatch h⟩
  | handshake => exact ⟨hl, fun c hc => (nomatch hc), fun m hm => (nomatch hm)⟩
  | refusal hmode =>
    refine ⟨hl, fun c hc => (nomatch hc), ?_⟩
    rintro m ⟨⟩
    exact ⟨hmode, rfl, [], rfl, keeps_send fun d hd => hd, Or.inl rfl⟩

theorem Task.Sound.step {main : Main} {t t' : Task} (h : t.Sound S main)
    (hstep : JobStep S main t t') : t'.Sound S main := by
  cases hstep with
  | handshakeDone hjob =>
    refine ⟨h.listener, ?_, fun m hm => nomatch hm⟩
    rintro c ⟨⟩
    exact ⟨.init rfl, fun h => nomatch h⟩
  | @advance c c' hjob hc =>
    obtain ⟨hreach, hcancel⟩ := h.client c hjob
    refine ⟨h.listener, ?_, fun m hm => nomatch hm⟩
    rintro c'' ⟨⟩
    refine ⟨hreach.step hc, ?_⟩
    cases hc with
    | advance _ => exact hcancel
  | @cancel c c' written hmain hjob hc =>
    refine ⟨h.listener, ?_, fun m hm => nomatch hm⟩
    rintro c'' ⟨⟩
    exact ⟨(h.client c hjob).1.step hc, fun _ => Or.inl hmain⟩
  | @refuse m m' hjob hm =>
    refine ⟨h.listener, fun c hc => (nomatch hc), ?_⟩
    rintro m'' ⟨⟩
    obtain ⟨hmode, hguard, hkeeps⟩ := h.refusal m hjob
    exact ⟨hmode, hguard, hkeeps.advance hm⟩

theorem Task.Sound.main {main main' : Main} {t : Task} (h : t.Sound S main)
    (hmain : main.Cancelled → main'.Cancelled) : t.Sound S main' :=
  ⟨h.listener, fun c hc => ⟨(h.client c hc).1, fun hcancel => hmain ((h.client c hc).2 hcancel)⟩,
    h.refusal⟩

/-- The token stays cancelled. -/
theorem cancelled_of_step (h : ServerStep S s a s') (hs : s.main.Cancelled) : s'.main.Cancelled := by
  obtain ⟨-, heq | ⟨-, -, hmain⟩ | ⟨-, hrunning, -⟩ | ⟨-, -, hmain, -⟩⟩ := main_of_step h
  · rw [heq]
    exact hs
  · exact Or.inl hmain
  · rw [hrunning] at hs
    rcases hs with hs | hs <;> exact absurd hs (by simp)
  · exact Or.inr hmain

theorem sound_of_reachable (h : (serverSystem S).Reachable s) : ∀ t ∈ s.tasks, t.Sound S s.main := by
  refine h.invariant (I := fun s => ∀ t ∈ s.tasks, t.Sound S s.main) ?_ ?_
  · rintro s rfl
    simp
  · intro s a s' hr hs hstep t ht
    refine Task.Sound.main ((pool_of_step hstep).forall_mem ?_ ?_ hs t ht) (cancelled_of_step hstep)
    · rintro t ⟨l, hl, hspawned⟩
      refine Task.Sound.spawn ?_ hspawned
      rw [← listeners_of_reachable hr]
      exact List.mem_map_of_mem hl
    · exact fun t t' ht hstep => ht.step hstep

/-! ### A process with one listener -/

/-- Every moment of `handle_client` before the token fires is one of its task in the process. -/
theorem reachable_of_handleClient {l : Listener} {ip : IpAddr} {clientIp : Str}
    {guard : Option ConnectionGuard} {l₁ l₂ : List Task} {main : Main} {loops : List Loop}
    {table : Connections} {c : ClientTask}
    (h : (serverSystem S).Reachable ⟨main, loops, table,
      l₁ ++ ⟨l, ip, clientIp, guard, .client (Server.startClient (S.context l clientIp))⟩ :: l₂⟩)
    (halive : main.Alive) (hc : (handleClient (S.context l clientIp) S.site).Reachable c)
    (hfalse : c.cancelled = false) : (serverSystem S).Reachable ⟨main, loops, table,
      l₁ ++ ⟨l, ip, clientIp, guard, .client c⟩ :: l₂⟩ := by
  induction hc with
  | init hinit =>
    obtain rfl := hinit
    exact h
  | step _ hstep ih =>
    cases hstep with
    | cancel _ _ => exact absurd hfalse (by simp)
    | advance hadvance =>
      exact (ih hfalse).step (ServerStep.task halive rfl (JobStep.advance rfl (.advance hadvance)))

def oneListener : Listener := ⟨80, [proxiedService], false, .none⟩

def oneServer : Server where
  cfg := { plainSettings with
    ipLimitation := some 20
    clientFullTimeout := none
    clientUseFullTimeout := false
    trustedCaBundle := none }
  site := ⟨∅, [], fun _ => []⟩
  tls := ⟨fun _ => .ok [], fun _ => .ok (.pkcs8 []), fun _ _ => .ok ()⟩
  parse := parseSpoofing
  listeners := [oneListener]

/-- A client of the listener. -/
def oneTask (job : Job) : Task :=
  ⟨oneListener, .v4 1, "10.0.0.1:5000".toList, some ⟨.v4 1, true⟩, job⟩

def oneState (job : Job) : ServerState :=
  ⟨.running, [⟨oneListener, .accepting⟩], (tryAcquire ∅ (.v4 1) 20).2, [oneTask job]⟩

/-- The listener has started, and has accepted a client. -/
theorem reachable_oneState :
    (serverSystem oneServer).Reachable (oneState (.client (Server.startClient proxyContext))) := by
  have hinit : (serverSystem oneServer).Reachable
      ⟨.running, [⟨oneListener, .starting⟩], ∅, []⟩ := .init rfl
  have hstarted : ServerStep oneServer ⟨.running, [⟨oneListener, .starting⟩], ∅, []⟩
      (.started oneListener) ⟨.running, [] ++ ⟨oneListener, .accepting⟩ :: [], ∅, []⟩ :=
    .started (Or.inl rfl) rfl fun ssl hssl => nomatch hssl
  have haccepted := @ServerStep.accept oneServer ⟨.running, [⟨oneListener, .accepting⟩], ∅, []⟩
    oneListener (.v4 1) "10.0.0.1:5000".toList (Or.inl rfl) (List.mem_singleton.mpr rfl)
  exact (hinit.step hstarted).step haccepted

/-! ### What the clients get -/

end Scety
