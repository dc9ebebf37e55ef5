import Scety.Network.ServerRuns

/-!
# The limit per address over the whole process

The process refines the model of the accept loops: what the connection table sees of the tasks is a run
of that model, whatever the tasks and the listeners do in between.  So the slots of an address are
counted over all listeners, and a slot is free again as soon as its task has ended.
-/

namespace Scety

open Transition

variable {S : Server} {s s' : ServerState} {a : ServerAction}

/-- What the connection table sees of the process. -/
def ServerState.process (s : ServerState) : Process := ⟨s.table, s.tasks.filterMap Task.connection⟩

/-- An ACME listener accepts a connection from `ip`. -/
def ServerAction.isAcmeAccept (ip : IpAddr) : ServerAction → Bool
  | .accept l ip' => l.sslMode.isAcme && decide (ip' = ip)
  | _ => false

/-- The task holds a slot of the address. -/
def Task.holds (ip : IpAddr) (t : Task) : Bool :=
  match t.guard with
  | some g => g.holds ip
  | none => false

/-! ### The refinement -/

/-- A step of a task leaves its connection alone, or ends its handshake. -/
theorem connection_of_jobStep {main : Main} {t t' : Task} (h : JobStep S main t t') :
    t'.connection = t.connection ∨ ∃ c, t.connection = some c ∧ c.phase = .handshake ∧
      t'.connection = some { c with phase := .served } := by
  cases h with
  | handshakeDone hjob =>
    right
    refine ⟨⟨t.ip, t.guard, .handshake⟩, ?_, rfl, rfl⟩
    unfold Task.connection
    rw [hjob]
  | advance hjob _ =>
    left
    unfold Task.connection
    rw [hjob]
  | cancel _ hjob _ =>
    left
    unfold Task.connection
    rw [hjob]
  | refuse hjob _ =>
    left
    unfold Task.connection
    rw [hjob]

/-- A task without a connection is a refusal, which holds no guard. -/
theorem Task.Sound.close_eq {main : Main} {t : Task} (h : t.Sound S main) (table : Connections) :
    t.close table = match t.connection with
      | some c => c.close table
      | none => table := by
  cases hjob : t.job with
  | handshake =>
    unfold Task.connection
    rw [hjob]
    rfl
  | client c =>
    unfold Task.connection
    rw [hjob]
    rfl
  | refusal m =>
    unfold Task.connection Task.close
    rw [hjob, (h.refusal m hjob).2.1]

theorem fields_of_connection {t : Task} {c : Connection} (h : t.connection = some c) :
    c.ip = t.ip ∧ c.guard = t.guard := by
  unfold Task.connection at h
  cases hjob : t.job with
  | refusal m =>
    rw [hjob] at h
    exact nomatch h
  | _ =>
    rw [hjob] at h
    obtain rfl := Option.some.inj h
    exact ⟨rfl, rfl⟩

theorem filterMap_toList {α β : Type*} (f : α → Option β) (o : Option α) :
    o.toList.filterMap f = (o.bind f).toList := by
  cases o with
  | none => rfl
  | some a =>
    show [a].filterMap f = (f a).toList
    cases h : f a with
    | none => rw [List.filterMap_cons_none h, List.filterMap_nil, Option.toList_none]
    | some b => rw [List.filterMap_cons_some h, List.filterMap_nil, Option.toList_some]

/-- A step of the process is one of the accept loops' model, or leaves what the table sees alone. -/
theorem process_of_step (hr : (serverSystem S).Reachable s) (h : ServerStep S s a s') :
    s'.process = s.process ∨
      ∃ b, ProcessStep (S.listeners.map (·.sslMode)) S.cfg.ipLimitation s.process b s'.process ∧
        ∀ ip, b.isAcmeConnect ip = a.isAcmeAccept ip := by
  cases h with
  | ctrlC _ => exact Or.inl rfl
  | died _ _ => exact Or.inl rfl
  | joined _ _ => exact Or.inl rfl
  | started _ _ _ => exact Or.inl rfl
  | failed _ _ => exact Or.inl rfl
  | stopped _ _ _ => exact Or.inl rfl
  | @accept l ip clientIp _ hloop =>
    right
    obtain ⟨-, hconnection, htable⟩ := acceptTask_spec S l s.table ip clientIp
    have hl : l.sslMode ∈ S.listeners.map (·.sslMode) := by
      rw [← listeners_of_reachable hr, List.map_map]
      exact List.mem_map_of_mem hloop
    have hstep : ProcessStep (S.listeners.map (·.sslMode)) S.cfg.ipLimitation s.process
      (.connect l.sslMode ip) _ := .connect hl
    refine ⟨.connect l.sslMode ip, ?_, fun _ => rfl⟩
    unfold ServerState.process at hstep ⊢
    dsimp only at hstep ⊢
    rw [List.filterMap_append, filterMap_toList, hconnection, htable]
    exact hstep
  | @task t t' l₁ l₂ _ htasks hstep =>
    unfold ServerState.process
    rcases connection_of_jobStep hstep with heq | ⟨c, hc, hphase, hc'⟩
    · left
      dsimp only
      rw [htasks, List.filterMap_append, List.filterMap_append, List.filterMap_cons,
        List.filterMap_cons, heq]
    · right
      refine ⟨.handshakeDone, ?_, fun _ => rfl⟩
      dsimp only
      rw [htasks, List.filterMap_append, List.filterMap_append, List.filterMap_cons_some hc,
        List.filterMap_cons_some hc']
      exact .handshakeDone rfl hphase
  | @ended t l₁ l₂ _ htasks _ =>
    have hclose := (sound_of_reachable hr t (by rw [htasks]; simp)).close_eq s.table
    unfold ServerState.process
    dsimp only
    cases hc : t.connection with
    | none =>
      left
      rw [hc] at hclose
      rw [htasks, hclose, List.filterMap_append, List.filterMap_append, List.filterMap_cons_none hc]
    | some c =>
      right
      rw [hc] at hclose
      refine ⟨.ended, ?_, fun _ => rfl⟩
      rw [htasks, hclose, List.filterMap_append, List.filterMap_append, List.filterMap_cons_some hc]
      exact .ended rfl

/-- **The process refines the model of the accept loops.** -/
theorem process_of_reachable (h : (serverSystem S).Reachable s) :
    (processSystem (S.listeners.map (·.sslMode)) S.cfg.ipLimitation).Reachable s.process := by
  refine h.map ?_ ?_
  · rintro s rfl
    rfl
  · intro s a s' hr hstep
    exact (process_of_step hr hstep).imp_right fun ⟨b, hb, _⟩ => ⟨b, hb⟩

/-- The runs without an ACME connection from an address are runs of the model without one. -/
theorem process_of_restrict {ip : IpAddr}
    (h : ((serverSystem S).restrict fun a => ¬ a.isAcmeAccept ip = true).Reachable s) :
    ((processSystem (S.listeners.map (·.sslMode)) S.cfg.ipLimitation).restrict
      fun b => ¬ b.isAcmeConnect ip = true).Reachable s.process := by
  refine h.map ?_ ?_
  · rintro s rfl
    rfl
  · intro s a s' hr hstep
    refine (process_of_step hr.of_restrict hstep.2).imp_right ?_
    rintro ⟨b, hb, hacme⟩
    have hb' : ¬ b.isAcmeConnect ip = true := by
      rw [hacme ip]
      exact hstep.1
    exact ⟨b, hb', hb⟩

/-! ### The slots -/

/-- The slots of an address in the table are those that tasks hold. -/
theorem countOf_of_reachable (h : (serverSystem S).Reachable s) (ip : IpAddr) :
    countOf s.table ip = s.tasks.countP (·.holds ip) := by
  have hcounted : countOf s.table ip = s.process.slots.liveCount ip :=
    counted_slots (process_of_reachable h) ip
  rw [hcounted]
  unfold Slots.liveCount Process.slots ServerState.process
  dsimp only
  rw [List.filterMap_filterMap, List.countP_filterMap]
  refine List.countP_congr fun t ht => ?_
  have hsound := sound_of_reachable h t ht
  unfold Task.connection Task.holds
  cases hjob : t.job with
  | handshake => cases t.guard <;> rfl
  | client c => cases t.guard <;> rfl
  | refusal m =>
    rw [(hsound.refusal m hjob).2.1]
    rfl

/-- A loop without ACME serves a connection if and only if the table has a free slot for it. -/
theorem isSome_acceptTask_iff {l : Listener} (hl : l.sslMode.isAcme = false) {limit : Int32}
    (hlimit : S.cfg.ipLimitation = some limit) (h0 : 0 ≤ limit.toInt) (table : Connections)
    (ip : IpAddr) (clientIp : Str) :
    ((S.acceptTask l table ip clientIp).1.bind Task.connection).isSome = true ↔
      (countOf table ip : ℤ) < limit.toInt := by
  rw [(acceptTask_spec S l table ip clientIp).2.1, hlimit, ← tryAcquire_ok_iff h0]
  obtain ⟨hacme, -⟩ | ⟨-, herr, heq⟩ | ⟨-, g, phase, hok, heq⟩ :=
    accept_cases l.sslMode (some limit) table ip
  · exact absurd (hl.symm.trans hacme) (by simp)
  · rw [heq]
    refine iff_of_false (by simp) ?_
    rintro ⟨g, hg⟩
    exact absurd (herr.symm.trans hg) (by simp)
  · rw [heq]
    exact iff_of_true rfl ⟨g, hok⟩

/-- Without an ACME connection from an address, its connections are at most the slots it may have. -/
theorem connections_le {limit : Int32} (hlimit : S.cfg.ipLimitation = some limit)
    (h0 : 0 ≤ limit.toInt) {ip : IpAddr}
    (h : ((serverSystem S).restrict fun a => ¬ a.isAcmeAccept ip = true).Reachable s) :
    (s.tasks.countP fun t => decide (t.ip = ip) && t.connection.isSome : ℤ) ≤ limit.toInt := by
  have hprocess := process_of_restrict h
  rw [hlimit] at hprocess
  have hguarded := guarded_of_reachable h0 hprocess
  have hcount := countOf_of_reachable h.of_restrict ip
  have hle : s.tasks.countP (fun t => decide (t.ip = ip) && t.connection.isSome) ≤
      s.tasks.countP (·.holds ip) := by
    refine List.countP_mono_left fun t ht hserved => ?_
    rw [Bool.and_eq_true, decide_eq_true_eq] at hserved
    obtain ⟨hip, hsome⟩ := hserved
    obtain ⟨c, hc⟩ := Option.isSome_iff_exists.mp hsome
    have hmem : c ∈ s.process.connections := List.mem_filterMap.mpr ⟨t, ht, hc⟩
    obtain ⟨hcip, hcguard⟩ := fields_of_connection hc
    have hguard := hguarded.guard c hmem (hcip.trans hip)
    unfold Task.holds
    rw [← hcguard, hguard]
    simp [ConnectionGuard.holds]
  have hmax := hguarded.count
  have htable : s.process.table = s.table := rfl
  rw [htable, hcount] at hmax
  exact le_trans (by exact_mod_cast hle) hmax

/-- **The limit per address, over all listeners**: in every state of the process the slots of an address
are the tasks that hold a guard for it, so that none is lost; a listener without ACME serves a
connection if and only if fewer than the limit are taken; and in the runs in which no ACME listener
accepts from an address, it never has more connections than the limit, those in a handshake
included. -/
theorem limit_of_process {limit : Int32} (hlimit : S.cfg.ipLimitation = some limit)
    (h0 : 0 ≤ limit.toInt) (ip : IpAddr) :
    (∀ s, (serverSystem S).Reachable s → countOf s.table ip = s.tasks.countP (·.holds ip) ∧
      ∀ l clientIp, l.sslMode.isAcme = false →
        (((S.acceptTask l s.table ip clientIp).1.bind Task.connection).isSome = true ↔
          (s.tasks.countP (·.holds ip) : ℤ) < limit.toInt)) ∧
    ∀ s, ((serverSystem S).restrict fun a => ¬ a.isAcmeAccept ip = true).Reachable s →
      (s.tasks.countP fun t => decide (t.ip = ip) && t.connection.isSome : ℤ) ≤ limit.toInt := by
  refine ⟨?_, fun s hs => connections_le hlimit h0 hs⟩
  intro s hs
  refine ⟨countOf_of_reachable hs ip, ?_⟩
  intro l clientIp hl
  rw [← countOf_of_reachable hs ip]
  exact isSome_acceptTask_iff hl hlimit h0 s.table ip clientIp

/-- The only client of a process holds the only slot that is taken. -/
theorem limit_of_process_one : countOf (tryAcquire ∅ (.v4 1) 20).2 (.v4 1) = 1 :=
  ((@limit_of_process oneServer 20 rfl (by decide) (.v4 1)).1 _ reachable_oneState).1

end Scety
