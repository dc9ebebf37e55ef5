import Scety.Config.Limitation
import Scety.Core.SearchRouter
import Scety.Lib.Pool
import Scety.Network.Serving
import Scety.Network.Shutdown
import Scety.Network.Tls

/-!
# The running process

`run` starts the listeners, waits for Ctrl-C or for the end of a listener, and after Ctrl-C for the end
of all of them.  A listener loads its certificate, binds its port and accepts connections; every
connection is served by a task of its own, which nobody waits for.  The steps of all of them interleave
in any order.
-/

namespace Scety

open Effects Transition

/-- What the process is started with. -/
structure Server where
  cfg : LoadedConfig
  site : Site
  tls : TlsStack
  parse : Bytes → ParseResult
  listeners : List Listener

/-- What a task of an accept loop does. -/
inductive Job where
  /-- `acceptor.accept(socket)`. -/
  | handshake
  | client (task : ClientTask)
  /-- The 429 page of `start_plain_port`. -/
  | refusal (moment : Moment Op Op.Answer (Except Unit Unit) (UInt8 × Source) UInt8)

/-- A task, with the listener that spawned it and the guard it holds; `clientIp` is the text of the
address. -/
structure Task where
  listener : Listener
  ip : IpAddr
  clientIp : Str
  guard : Option ConnectionGuard
  job : Job

/-- Where a listener is. -/
inductive LoopPhase where
  /-- It loads its certificate and binds its port. -/
  | starting
  | accepting
  | ended
  deriving DecidableEq

structure Loop where
  listener : Listener
  phase : LoopPhase

/-- Where `run` is. -/
inductive Main where
  /-- In the `select!`. -/
  | running
  /-- In `join_all`, with the token cancelled. -/
  | draining
  | exited (code : ℕ)
  deriving DecidableEq

/-- The process has not exited. -/
def Main.Alive (main : Main) : Prop := main = .running ∨ main = .draining

structure ServerState where
  main : Main
  loops : List Loop
  table : Connections
  tasks : List Task

namespace Server

variable (S : Server)

/-- What a connection of the listener is served with: its router and its settings. -/
def context (l : Listener) (clientIp : Str) : Context :=
  ⟨S.cfg.toScetyConfig, clientIp, l.exposeVersion,
    HostRouter.ofCalls (SearchRouter.registrations l.configs), l.configs, S.parse⟩

/-- `handle_client` before its first step. -/
def startClient (ctx : Context) : ClientTask := ⟨false, ctx.processRequestInner.run, [], [], []⟩

/-- The task that writes the 429 page before its first step. -/
def startRefusal (ctx : Context) :
    Moment Op Op.Answer (Except Unit Unit) (UInt8 × Source) UInt8 :=
  ⟨(send 429 ctx.exposeVersion).run, [], [], []⟩

/-- The body of an accept loop: the task that it spawns, and the table after it. -/
def acceptTask (l : Listener) (table : Connections) (ip : IpAddr) (clientIp : Str) :
    Option Task × Connections :=
  let ctx := S.context l clientIp
  match l.sslMode with
  | .none =>
    match checkIpLimit S.cfg.ipLimitation table ip with
    | (.ok guard, table) => (some ⟨l, ip, clientIp, some guard, .client (startClient ctx)⟩, table)
    | (.error (), table) => (some ⟨l, ip, clientIp, none, .refusal (startRefusal ctx)⟩, table)
  | .manual _ =>
    match checkIpLimit S.cfg.ipLimitation table ip with
    | (.ok guard, table) => (some ⟨l, ip, clientIp, some guard, .handshake⟩, table)
    | (.error (), table) => (none, table)
  | .acme _ => (some ⟨l, ip, clientIp, none, .client (startClient ctx)⟩, table)

/-- The certificate of a listener with manual TLS loads. -/
def Loads (l : Listener) : Prop :=
  ∀ ssl, l.sslMode = .manual ssl → ∃ acceptor, loadManualTls S.tls ssl = .ok acceptor

end Server

/-- The end of a task drops its guard. -/
def Task.close (t : Task) (table : Connections) : Connections :=
  match t.guard with
  | some g => g.drop table
  | none => table

/-- A step of one task, but for its end. -/
inductive JobStep (S : Server) (main : Main) : Task → Task → Prop where
  | handshakeDone {t} : t.job = .handshake →
      JobStep S main t { t with job := .client (Server.startClient (S.context t.listener t.clientIp)) }
  | advance {t c c'} : t.job = .client c →
      TaskStep (S.context t.listener t.clientIp) S.site c .advance c' →
      JobStep S main t { t with job := .client c' }
  /-- The token of the connection is a child of the one that Ctrl-C cancels. -/
  | cancel {t c c' written} : main = .draining → t.job = .client c →
      TaskStep (S.context t.listener t.clientIp) S.site c (.cancel written) c' →
      JobStep S main t { t with job := .client c' }
  | refuse {t m m'} : t.job = .refusal m →
      Advance ((S.context t.listener t.clientIp).clientSocket S.site) m m' →
      JobStep S main t { t with job := .refusal m' }

/-- A task may end: its handshake fails, or its program has ended. -/
inductive Task.Ends (t : Task) : Prop where
  | handshakeFailed : t.job = .handshake → Ends t
  | served {c r} : t.job = .client c → c.moment.program = .pure r → Ends t
  | refused {m r} : t.job = .refusal m → m.program = .pure r → Ends t

inductive ServerAction where
  | ctrlC
  | died
  | joined
  | started (l : Listener)
  /-- The certificate does not load, or the port cannot be bound. -/
  | failed (l : Listener)
  /-- The token is cancelled, or the stream of an ACME listener has ended. -/
  | stopped (l : Listener)
  | accept (l : Listener) (ip : IpAddr)
  | task
  | ended

inductive ServerStep (S : Server) : ServerState → ServerAction → ServerState → Prop where
  | ctrlC {s} : s.main = .running → ServerStep S s .ctrlC { s with main := .draining }
  /-- `join_next` returns: a listener has ended, or there is none. -/
  | died {s} : s.main = .running → (s.loops = [] ∨ ∃ loop ∈ s.loops, loop.phase = .ended) →
      ServerStep S s .died { s with main := .exited 1 }
  | joined {s} : s.main = .draining → (∀ loop ∈ s.loops, loop.phase = .ended) →
      ServerStep S s .joined { s with main := .exited 0 }
  | started {s l l₁ l₂} : s.main.Alive → s.loops = l₁ ++ ⟨l, .starting⟩ :: l₂ → S.Loads l →
      ServerStep S s (.started l) { s with loops := l₁ ++ ⟨l, .accepting⟩ :: l₂ }
  | failed {s l l₁ l₂} : s.main.Alive → s.loops = l₁ ++ ⟨l, .starting⟩ :: l₂ →
      ServerStep S s (.failed l) { s with loops := l₁ ++ ⟨l, .ended⟩ :: l₂ }
  | stopped {s l l₁ l₂} : s.main.Alive → s.loops = l₁ ++ ⟨l, .accepting⟩ :: l₂ →
      (s.main = .draining ∨ l.sslMode.isAcme = true) →
      ServerStep S s (.stopped l) { s with loops := l₁ ++ ⟨l, .ended⟩ :: l₂ }
  | accept {s l ip clientIp} : s.main.Alive → ⟨l, .accepting⟩ ∈ s.loops →
      ServerStep S s (.accept l ip)
        { s with
          table := (S.acceptTask l s.table ip clientIp).2
          tasks := (S.acceptTask l s.table ip clientIp).1.toList ++ s.tasks }
  | task {s t t' l₁ l₂} : s.main.Alive → s.tasks = l₁ ++ t :: l₂ → JobStep S s.main t t' →
      ServerStep S s .task { s with tasks := l₁ ++ t' :: l₂ }
  | ended {s t l₁ l₂} : s.main.Alive → s.tasks = l₁ ++ t :: l₂ → t.Ends →
      ServerStep S s .ended { s with table := t.close s.table, tasks := l₁ ++ l₂ }

def serverSystem (S : Server) : System ServerState ServerAction where
  init s := s = ⟨.running, S.listeners.map fun l => ⟨l, .starting⟩, ∅, []⟩
  step := ServerStep S

end Scety
