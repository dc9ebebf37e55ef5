import Scety.Network.GlobalRouter
import Scety.Network.IpLimit

/-!
# `network/listeners.rs`: the accept loops and the connections they serve

All listeners of the process share the connection table.  The plain and the manual TLS loop take a
guard before they serve a connection and keep it until the connection ends; the ACME loop takes
none.  So the limit holds for an address in every run without an ACME connection from it, and in
all runs exactly when no listener is an ACME listener.
-/

namespace Scety

open Transition

/-- What a spawned task is doing: the TLS handshake of `start_manual_tls_port`, or
`handle_client`. -/
inductive Phase where
  | handshake
  | served
  deriving DecidableEq

/-- An accepted connection, with the guard its task holds. -/
structure Connection where
  ip : IpAddr
  guard : Option ConnectionGuard
  phase : Phase
  deriving DecidableEq

/-- `check_ip_limit`, with the table after the call. -/
def checkIpLimit (ipLimitation : Option Int32) (table : Connections) (ip : IpAddr) :
    Except Unit ConnectionGuard × Connections :=
  tryAcquire table ip (ipLimitation.getD 20)

/-- The guarded part of an accept loop: a connection in phase `phase`, or none if the limit is
reached (the plain loop then sends a 429 page from a task of its own). -/
def acceptGuarded (phase : Phase) (ipLimitation : Option Int32) (table : Connections)
    (ip : IpAddr) : Option Connection × Connections :=
  match checkIpLimit ipLimitation table ip with
  | (.ok guard, table) => (some ⟨ip, some guard, phase⟩, table)
  | (.error (), table) => (none, table)

def acceptPlain : Option Int32 → Connections → IpAddr → Option Connection × Connections :=
  acceptGuarded .served

def acceptManualTls : Option Int32 → Connections → IpAddr → Option Connection × Connections :=
  acceptGuarded .handshake

/-- The loop of `start_acme_port`, which gets its streams after the handshake and serves them
without a guard. -/
def acceptAcme (_ : Option Int32) (table : Connections) (ip : IpAddr) :
    Option Connection × Connections :=
  (some ⟨ip, none, .served⟩, table)

/-- The accept loop that `start_listen_port` chooses. -/
def accept : SslMode → Option Int32 → Connections → IpAddr → Option Connection × Connections
  | .none => acceptPlain
  | .manual _ => acceptManualTls
  | .acme _ => acceptAcme

/-- The end of a task drops its guard. -/
def Connection.close (c : Connection) (table : Connections) : Connections :=
  match c.guard with
  | some g => g.drop table
  | none => table

/-! ### The process -/

structure Process where
  table : Connections
  connections : List Connection

inductive ProcessAction where
  | connect (listener : SslMode) (ip : IpAddr)
  | handshakeDone
  | ended

inductive ProcessStep (listeners : List SslMode) (ipLimitation : Option Int32) :
    Process → ProcessAction → Process → Prop where
  | connect {s l ip} : l ∈ listeners →
      ProcessStep listeners ipLimitation s (.connect l ip)
        ⟨(accept l ipLimitation s.table ip).2,
          (accept l ipLimitation s.table ip).1.toList ++ s.connections⟩
  | handshakeDone {s c l₁ l₂} : s.connections = l₁ ++ c :: l₂ → c.phase = .handshake →
      ProcessStep listeners ipLimitation s .handshakeDone
        ⟨s.table, l₁ ++ { c with phase := .served } :: l₂⟩
  /-- A failed handshake or the end of `handle_client`. -/
  | ended {s c l₁ l₂} : s.connections = l₁ ++ c :: l₂ →
      ProcessStep listeners ipLimitation s .ended ⟨c.close s.table, l₁ ++ l₂⟩

def processSystem (listeners : List SslMode) (ipLimitation : Option Int32) :
    System Process ProcessAction where
  init s := s = ⟨∅, []⟩
  step := ProcessStep listeners ipLimitation

/-- The connections from `ip` that `handle_client` is serving. -/
def Process.servedCount (s : Process) (ip : IpAddr) : ℕ :=
  s.connections.countP fun c => decide (c.ip = ip ∧ c.phase = .served)

def SslMode.isAcme : SslMode → Bool
  | .acme _ => true
  | _ => false

/-- An ACME listener accepts a connection from `ip`. -/
def ProcessAction.isAcmeConnect (ip : IpAddr) : ProcessAction → Bool
  | .connect l ip' => l.isAcme && decide (ip' = ip)
  | _ => false

/-! ### Accepting -/

/-- What an accept loop can do: refuse, serve without a guard, or serve with the guard it got. -/
theorem accept_cases (l : SslMode) (ipLimitation : Option Int32) (table : Connections)
    (ip : IpAddr) :
    (l.isAcme = true ∧ accept l ipLimitation table ip = (some ⟨ip, none, .served⟩, table)) ∨
    (l.isAcme = false ∧ (checkIpLimit ipLimitation table ip).1 = .error () ∧
      accept l ipLimitation table ip = (none, (checkIpLimit ipLimitation table ip).2)) ∨
    (l.isAcme = false ∧ ∃ g phase, (checkIpLimit ipLimitation table ip).1 = .ok g ∧
      accept l ipLimitation table ip =
        (some ⟨ip, some g, phase⟩, (checkIpLimit ipLimitation table ip).2)) := by
  have hguarded : ∀ phase,
      ((checkIpLimit ipLimitation table ip).1 = .error () ∧
        acceptGuarded phase ipLimitation table ip =
          (none, (checkIpLimit ipLimitation table ip).2)) ∨
      ∃ g, (checkIpLimit ipLimitation table ip).1 = .ok g ∧
        acceptGuarded phase ipLimitation table ip =
          (some ⟨ip, some g, phase⟩, (checkIpLimit ipLimitation table ip).2) := by
    intro phase
    unfold acceptGuarded
    cases h : checkIpLimit ipLimitation table ip with
    | mk r t =>
      cases r with
      | error u => exact Or.inl ⟨rfl, rfl⟩
      | ok g => exact Or.inr ⟨g, rfl, rfl⟩
  cases l with
  | acme ssl => exact Or.inl ⟨rfl, rfl⟩
  | none =>
    right
    rcases hguarded .served with ⟨herr, heq⟩ | ⟨g, hok, heq⟩
    · exact Or.inl ⟨rfl, herr, heq⟩
    · exact Or.inr ⟨rfl, g, .served, hok, heq⟩
  | manual ssl =>
    right
    rcases hguarded .handshake with ⟨herr, heq⟩ | ⟨g, hok, heq⟩
    · exact Or.inl ⟨rfl, herr, heq⟩
    · exact Or.inr ⟨rfl, g, .handshake, hok, heq⟩

/-! ### The table of the process is a table of slots -/

/-- The guards that the tasks hold. -/
def Process.slots (s : Process) : Slots := ⟨s.table, s.connections.filterMap (·.guard)⟩

section Runs

variable {listeners : List SslMode} {ipLimitation : Option Int32}

/-- Every step of the process acquires a slot, drops one or leaves the slots alone. -/
theorem slots_step {s s' : Process} {a : ProcessAction}
    (h : ProcessStep listeners ipLimitation s a s') :
    s'.slots = s.slots ∨ ∃ b, SlotStep s.slots b s'.slots := by
  cases h with
  | @connect l ip _ =>
    obtain ⟨-, heq⟩ | ⟨-, herr, heq⟩ | ⟨-, g, phase, hok, heq⟩ :=
      accept_cases l ipLimitation s.table ip
    · left
      rw [heq]
      rfl
    · right
      rw [heq]
      exact ⟨_, SlotStep.refused (s := s.slots) herr⟩
    · right
      rw [heq]
      exact ⟨_, SlotStep.acquired (s := s.slots) hok⟩
  | @handshakeDone c l₁ l₂ hc _ =>
    left
    simp only [Process.slots, hc, List.filterMap_append, List.filterMap_cons]
  | @ended c l₁ l₂ hc =>
    cases hg : c.guard with
    | none =>
      left
      simp [Process.slots, hc, Connection.close, hg]
    | some g =>
      right
      refine ⟨.drop g, ?_⟩
      have hlive : s.slots.live = l₁.filterMap (·.guard) ++ g :: l₂.filterMap (·.guard) := by
        simp [Process.slots, hc, hg]
      have hstep := SlotStep.dropped hlive
      simpa [Process.slots, Connection.close, hg] using hstep

theorem counted_slots {s : Process}
    (h : (processSystem listeners ipLimitation).Reachable s) : s.slots.Counted := by
  refine counted_of_reachable (h.map ?_ fun _ _ _ _ hstep => slots_step hstep)
  rintro s rfl
  rfl

/-- The invariant of runs without an ACME connection from `ip`: its connections hold tracked guards
of its own, and its count is within the limit. -/
structure Guarded (limit : Int32) (ip : IpAddr) (s : Process) : Prop where
  guard : ∀ c ∈ s.connections, c.ip = ip → c.guard = some ⟨ip, true⟩
  count : (countOf s.table ip : ℤ) ≤ limit.toInt

/-- The check keeps the count of an address within the limit. -/
theorem countOf_checkIpLimit_le {limit : Int32} (h0 : 0 ≤ limit.toInt) {table : Connections}
    {ip : IpAddr} (h : (countOf table ip : ℤ) ≤ limit.toInt) (ip' : IpAddr) :
    (countOf (checkIpLimit (some limit) table ip').2 ip : ℤ) ≤ limit.toInt := by
  show (countOf (tryAcquire table ip' limit).2 ip : ℤ) ≤ limit.toInt
  obtain ⟨hneg, -⟩ | ⟨-, -, -, hcount⟩ | ⟨-, hfree, -, hcount⟩ := tryAcquire_cases table ip' limit
  · omega
  · rw [hcount ip]
    exact h
  · rw [hcount ip]
    split_ifs with hip
    · rw [← hip] at hfree
      push_cast
      omega
    · push_cast
      omega

/-- A guard that the check hands out is tracked. -/
theorem eq_of_checkIpLimit_eq_ok {limit : Int32} (h0 : 0 ≤ limit.toInt) {table : Connections}
    {ip : IpAddr} {g : ConnectionGuard} (h : (checkIpLimit (some limit) table ip).1 = .ok g) :
    g = ⟨ip, true⟩ := by
  obtain ⟨hneg, -⟩ | ⟨-, -, herr, -⟩ | ⟨-, -, hg, -⟩ := tryAcquire_cases table ip limit
  · omega
  · exact absurd (herr.symm.trans h) (by simp)
  · exact Except.ok.inj (h.symm.trans hg)

theorem Guarded.step {limit : Int32} {ip : IpAddr} (h0 : 0 ≤ limit.toInt) {s s' : Process}
    {a : ProcessAction} (h : Guarded limit ip s) (ha : ¬ a.isAcmeConnect ip = true)
    (hstep : ProcessStep listeners (some limit) s a s') : Guarded limit ip s' := by
  cases hstep with
  | @connect l ip' _ =>
    obtain ⟨hacme, heq⟩ | ⟨-, -, heq⟩ | ⟨-, g, phase, hok, heq⟩ :=
      accept_cases l (some limit) s.table ip'
    · rw [heq]
      refine ⟨?_, h.count⟩
      intro c hc hip
      rcases List.mem_cons.mp hc with rfl | hc
      · exact absurd (by simp [ProcessAction.isAcmeConnect, hacme]; exact hip) ha
      · exact h.guard c hc hip
    · rw [heq]
      exact ⟨h.guard, countOf_checkIpLimit_le h0 h.count ip'⟩
    · rw [heq]
      refine ⟨?_, countOf_checkIpLimit_le h0 h.count ip'⟩
      obtain rfl := eq_of_checkIpLimit_eq_ok h0 hok
      intro c hc hip
      rcases List.mem_cons.mp hc with rfl | hc
      · have hip' : ip' = ip := hip
        rw [hip']
      · exact h.guard c hc hip
  | @handshakeDone c l₁ l₂ hc _ =>
    refine ⟨?_, h.count⟩
    intro d hd hip
    have hall := h.guard
    rw [hc] at hall
    rcases List.mem_append.mp hd with hd | hd
    · exact hall d (List.mem_append_left _ hd) hip
    · rcases List.mem_cons.mp hd with rfl | hd
      · exact hall c (by simp) hip
      · exact hall d (by simp [hd]) hip
  | @ended c l₁ l₂ hc =>
    refine ⟨?_, ?_⟩
    · intro d hd hip
      refine h.guard d ?_ hip
      rw [hc]
      rcases List.mem_append.mp hd with hd | hd
      · exact List.mem_append_left _ hd
      · exact List.mem_append_right _ (List.mem_cons_of_mem _ hd)
    · have hold := h.count
      show (countOf (c.close s.table) ip : ℤ) ≤ limit.toInt
      unfold Connection.close
      cases c.guard with
      | none => exact hold
      | some g =>
        dsimp only
        rw [countOf_drop]
        omega

theorem guarded_of_reachable {limit : Int32} (h0 : 0 ≤ limit.toInt) {ip : IpAddr} {s : Process}
    (h : ((processSystem listeners (some limit)).restrict
      fun a => ¬ a.isAcmeConnect ip = true).Reachable s) : Guarded limit ip s := by
  refine h.invariant ?_ fun s a s' _ hg hstep => hg.step h0 hstep.1 hstep.2
  rintro s rfl
  exact ⟨by simp, h0⟩

/-- Connections that hold tracked guards of `ip` are at most the live guards of `ip`. -/
theorem servedCount_le_liveCount {s : Process} {ip : IpAddr}
    (h : ∀ c ∈ s.connections, c.ip = ip → c.guard = some ⟨ip, true⟩) :
    s.servedCount ip ≤ s.slots.liveCount ip := by
  unfold Process.servedCount Slots.liveCount Process.slots
  dsimp only
  rw [List.countP_filterMap]
  apply List.countP_mono_left
  intro c hc hserved
  have hip : c.ip = ip := (of_decide_eq_true hserved).1
  simp [h c hc hip, ConnectionGuard.holds]

theorem servedCount_le {limit : Int32} (h0 : 0 ≤ limit.toInt) {ip : IpAddr} {s : Process}
    (h : ((processSystem listeners (some limit)).restrict
      fun a => ¬ a.isAcmeConnect ip = true).Reachable s) :
    (s.servedCount ip : ℤ) ≤ limit.toInt := by
  have hg := guarded_of_reachable h0 h
  have hle := servedCount_le_liveCount hg.guard
  have hcounted : countOf s.table ip = s.slots.liveCount ip := counted_slots h.of_restrict ip
  have hcount := hg.count
  omega

/-- An ACME listener serves any number of connections from one address. -/
theorem exists_acme_run {l : SslMode} (hl : l ∈ listeners) (hacme : l.isAcme = true) (ip : IpAddr)
    (n : ℕ) : ∃ s, (processSystem listeners ipLimitation).Reachable s ∧ s.servedCount ip = n := by
  induction n with
  | zero => exact ⟨⟨∅, []⟩, .init rfl, rfl⟩
  | succ n ih =>
    obtain ⟨s, hs, hn⟩ := ih
    have hstep : ProcessStep listeners ipLimitation s (.connect l ip) _ := .connect hl
    refine ⟨_, hs.step hstep, ?_⟩
    obtain ⟨-, heq⟩ | ⟨hno, -⟩ | ⟨hno, -⟩ := accept_cases l ipLimitation s.table ip
    · rw [heq]
      unfold Process.servedCount at hn ⊢
      dsimp only [Option.toList_some, List.cons_append, List.nil_append]
      rw [List.countP_cons, hn]
      simp
    · exact absurd hacme (by simp [hno])
    · exact absurd hacme (by simp [hno])

/-! ### The limit -/

/-- **The limit per address** holds in every run in which no ACME listener accepts a connection
from that address, and in all runs if and only if no listener is an ACME listener. -/
theorem ip_limit_enforced_iff (listeners : List SslMode) (limit : Int32) (h0 : 0 ≤ limit.toInt) :
    (∀ ip s, ((processSystem listeners (some limit)).restrict
      fun a => ¬ a.isAcmeConnect ip = true).Reachable s → (s.servedCount ip : ℤ) ≤ limit.toInt) ∧
    ((∀ s, (processSystem listeners (some limit)).Reachable s →
      ∀ ip, (s.servedCount ip : ℤ) ≤ limit.toInt) ↔ ∀ l ∈ listeners, l.isAcme = false) := by
  refine ⟨fun ip s hs => servedCount_le h0 hs, ?_, ?_⟩
  · intro hall l hl
    by_contra hacme
    have hacme' : l.isAcme = true := by simpa using hacme
    obtain ⟨s, hs, hn⟩ := exists_acme_run hl hacme' (.v4 0) (limit.toInt.toNat + 1)
    have hle := hall s hs (.v4 0)
    rw [hn] at hle
    push_cast at hle
    omega
  · intro hno s hs ip
    refine servedCount_le h0 (hs.restrict ?_)
    intro s a s' hstep
    cases hstep with
    | connect hl => simp [ProcessAction.isAcmeConnect, hno _ hl]
    | handshakeDone => simp [ProcessAction.isAcmeConnect]
    | ended => simp [ProcessAction.isAcmeConnect]

end Runs

/-- Settings of an ACME listener. -/
def acmeSettings : SslConfig :=
  ⟨none, none, some true, some "a@b.c".toList, some ["b.c".toList], none⟩

theorem ip_limit_enforced_plain :
    (Process.servedCount ⟨(accept .none (some 2) ∅ (.v4 1)).2,
      [⟨.v4 1, some ⟨.v4 1, true⟩, .served⟩]⟩ (.v4 1) : ℤ) ≤ 2 := by
  have hinit : (processSystem [.none] (some 2)).Reachable ⟨∅, []⟩ := .init rfl
  have hstep : ProcessStep [.none] (some 2) ⟨∅, []⟩ (.connect .none (.v4 1))
      ⟨(accept .none (some 2) ∅ (.v4 1)).2, [⟨.v4 1, some ⟨.v4 1, true⟩, .served⟩]⟩ :=
    .connect (List.mem_singleton.mpr rfl)
  exact (ip_limit_enforced_iff [.none] 2 (by decide)).2.mpr (by decide) _ (hinit.step hstep) (.v4 1)

/-- With an ACME listener and a limit of 0, one connection is served. -/
theorem ip_limit_fails :
    ¬ ∀ (listeners : List SslMode) (limit : Int32), 0 ≤ limit.toInt → ∀ s,
      (processSystem listeners (some limit)).Reachable s →
        ∀ ip, (s.servedCount ip : ℤ) ≤ limit.toInt := by
  intro hall
  have hinit : (processSystem [.acme acmeSettings] (some 0)).Reachable ⟨∅, []⟩ := .init rfl
  have hstep : ProcessStep [.acme acmeSettings] (some 0) ⟨∅, []⟩
      (.connect (.acme acmeSettings) (.v4 1)) ⟨∅, [⟨.v4 1, none, .served⟩]⟩ :=
    .connect (List.mem_singleton.mpr rfl)
  have hle := hall [.acme acmeSettings] 0 (by decide) _ (hinit.step hstep) (.v4 1)
  exact absurd hle (by decide)

end Scety
