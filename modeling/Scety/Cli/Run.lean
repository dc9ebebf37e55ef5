import Scety.Config.Sections
import Scety.Config.SettingsFile
import Scety.Network.ServerRuns

/-!
# `cli/commands/run.rs`: what is started

`scety run` decides on the files what the process becomes.  A listener is started for each `listen_port`
of a valid file, so a directory that `scety check` accepts may have none, and then the process ends at
once (`run_outcome`).
-/

namespace Scety

open Transition

/-- What `run` learns of the machine: whether systemd has started it, the settings, the services, and
what a fallback server that binds `0.0.0.0:80` is told.  What `run` logs of the certificates decides
nothing. -/
structure Machine where
  invocationId : Bool
  settings : SettingsFile
  services : FileSystem
  fallbackBind : Except Str Unit

inductive RunError where
  | settings (error : SettingsError)
  /-- The `io::Error` of `TcpListener::bind`. -/
  | bind (text : Str)

inductive RunOutcome where
  /-- `install`, when a user has started it. -/
  | install
  /-- The error ends `run`, and the process exits with 1. -/
  | failed (error : RunError)
  /-- The fallback server accepts connections. -/
  | fallback (cfg : LoadedConfig)
  | listen (cfg : LoadedConfig) (listeners : List Listener)

section Run

variable (parseToml : Str → Except Str Table) (parseDuration : Str → Option Duration)

def run (m : Machine) (exposeVersion : Bool) : RunOutcome :=
  if m.invocationId then
    match getScetyConfig parseToml parseDuration m.settings with
    | .error e => .failed (.settings e)
    | .ok loaded =>
      let cfg := loaded.getD (LoadedConfig.new parseDuration .default .default .default .default)
      let allConfigs := getAllConfigs parseToml m.services none
      if allConfigs.isEmpty then
        match m.fallbackBind with
        | .error e => .failed (.bind e)
        | .ok () => .fallback cfg
      else .listen cfg (startListen allConfigs exposeVersion)
  else .install

variable {parseToml parseDuration} {m : Machine} {exposeVersion : Bool}

theorem run_of_error (hsystemd : m.invocationId = true) {e : SettingsError}
    (hload : getScetyConfig parseToml parseDuration m.settings = .error e) :
    run parseToml parseDuration m exposeVersion = .failed (.settings e) := by
  unfold run
  rw [if_pos hsystemd, hload]

theorem check_eq_ok_iff_isEmpty :
    check parseToml m.services = .ok () ↔ (getAllConfigs parseToml m.services none).isEmpty = false := by
  unfold check
  cases (getAllConfigs parseToml m.services none).isEmpty with
  | true => exact iff_of_false (fun h => nomatch h) (fun h => nomatch h)
  | false => exact iff_of_true rfl rfl

/-- With settings, `run` decides as `scety check` does. -/
theorem run_of_ok (hsystemd : m.invocationId = true) {cfg : LoadedConfig}
    (hload : getScetyConfig parseToml parseDuration m.settings = .ok (some cfg)) :
    (check parseToml m.services = .ok () ∧ run parseToml parseDuration m exposeVersion =
        .listen cfg (startListen (getAllConfigs parseToml m.services none) exposeVersion)) ∨
      (check parseToml m.services ≠ .ok () ∧
        ((m.fallbackBind = .ok () ∧ run parseToml parseDuration m exposeVersion = .fallback cfg) ∨
          ∃ e, m.fallbackBind = .error e ∧
            run parseToml parseDuration m exposeVersion = .failed (.bind e))) := by
  rw [Ne, check_eq_ok_iff_isEmpty]
  unfold run
  rw [if_pos hsystemd, hload]
  dsimp only [Option.getD_some]
  cases (getAllConfigs parseToml m.services none).isEmpty with
  | true =>
    refine Or.inr ⟨by simp, ?_⟩
    cases m.fallbackBind with
    | ok a => exact Or.inl ⟨rfl, rfl⟩
    | error e => exact Or.inr ⟨e, rfl, rfl⟩
  | false => exact Or.inl ⟨rfl, rfl⟩

/-- The settings are loaded, or their error ends `run`. -/
theorem run_cases (hsystemd : m.invocationId = true) :
    (∃ file t, UsableSettings parseToml m.settings file t ∧
      getScetyConfig parseToml parseDuration m.settings = .ok (some (t.load parseDuration))) ∨
    ((¬ ∃ file t, UsableSettings parseToml m.settings file t) ∧
      ∃ e, run parseToml parseDuration m exposeVersion = .failed e) := by
  cases hload : getScetyConfig parseToml parseDuration m.settings with
  | error e =>
    refine Or.inr ⟨?_, .settings e, run_of_error hsystemd hload⟩
    rintro ⟨file, t, husable⟩
    exact nomatch hload.symm.trans (getScetyConfig_eq_ok_iff.mpr ⟨file, t, husable, rfl⟩)
  | ok loaded =>
    obtain ⟨file, t, husable, rfl⟩ := getScetyConfig_eq_ok_iff.mp hload
    exact Or.inl ⟨file, t, husable, rfl⟩

/-- The ports of the listeners are those of the valid files. -/
theorem mem_ports_iff {port : UInt16} :
    port ∈ (startListen (getAllConfigs parseToml m.services none) exposeVersion).map (·.port) ↔
      ∃ conf ∈ getAllConfigPaths m.services, ∃ config, ValidFile parseToml m.services conf config ∧
        config.listenPort = some port := by
  rw [ports_startListen, uniquePorts_eq_keys, Grouping.mem_keys, getAllConfigs_eq]
  simp only [List.mem_filterMap, Option.getD_none, loadFile_eq_some_iff]
  refine ⟨?_, ?_⟩
  · rintro ⟨config, ⟨conf, hconf, hvalid⟩, hport⟩
    exact ⟨conf, hconf, config, hvalid, hport⟩
  · rintro ⟨conf, hconf, config, hvalid, hport⟩
    exact ⟨config, ⟨conf, hconf, hvalid⟩, hport⟩

/-- Without listeners there is never a task, and the process can end at once. -/
theorem idle_of_no_listeners {S : Server} (h : S.listeners = []) :
    (∀ s, (serverSystem S).Reachable s → s.tasks = []) ∧
      ∃ s, (serverSystem S).init s ∧ ServerStep S s .died { s with main := .exited 1 } := by
  refine ⟨?_, ?_⟩
  · intro s hs
    refine List.eq_nil_iff_forall_not_mem.mpr fun t ht => ?_
    have hl := (sound_of_reachable hs t ht).listener
    rw [h] at hl
    exact absurd hl List.not_mem_nil
  · refine ⟨_, rfl, .died rfl (Or.inl ?_)⟩
    rw [h]
    rfl

/-- If no valid file has a `listen_port`, there are no listeners. -/
theorem listeners_eq_nil (hnone : ∀ conf ∈ getAllConfigPaths m.services, ∀ config,
    ValidFile parseToml m.services conf config → config.listenPort = none) {listeners : List Listener}
    (hperm : listeners.Perm
      (startListen (getAllConfigs parseToml m.services none) exposeVersion)) : listeners = [] := by
  have hports : ∀ port, port ∉ listeners.map (·.port) := by
    intro port hport
    rw [(hperm.map _).mem_iff, mem_ports_iff] at hport
    obtain ⟨conf, hconf, config, hvalid, hsome⟩ := hport
    rw [hnone conf hconf config hvalid] at hsome
    exact nomatch hsome
  exact List.map_eq_nil_iff.mp (List.eq_nil_iff_forall_not_mem.mpr hports)

/-- **What a started process does**: it exits with 1 if the settings cannot be loaded, or if there is no
valid service file and the port of the fallback server is taken; with settings and no valid file, which
is when `scety check` fails, it is the fallback server if its port is free; otherwise it listens on the
`listen_port`s of the valid files, and if none of these has one, it never serves anybody and may exit
with 1 at once, although `scety check` succeeds. -/
theorem run_outcome (hsystemd : m.invocationId = true) :
    ((∃ e, run parseToml parseDuration m exposeVersion = .failed e) ↔
      (¬ ∃ file t, UsableSettings parseToml m.settings file t) ∨
        (check parseToml m.services ≠ .ok () ∧ m.fallbackBind ≠ .ok ())) ∧
    ((∃ cfg, run parseToml parseDuration m exposeVersion = .fallback cfg) ↔
      (∃ file t, UsableSettings parseToml m.settings file t) ∧ check parseToml m.services ≠ .ok () ∧
        m.fallbackBind = .ok ()) ∧
    ((∃ cfg listeners, run parseToml parseDuration m exposeVersion = .listen cfg listeners) ↔
      (∃ file t, UsableSettings parseToml m.settings file t) ∧ check parseToml m.services = .ok ()) ∧
    ∀ cfg listeners, run parseToml parseDuration m exposeVersion = .listen cfg listeners →
      (∀ port, port ∈ listeners.map (·.port) ↔ ∃ conf ∈ getAllConfigPaths m.services, ∃ config,
        ValidFile parseToml m.services conf config ∧ config.listenPort = some port) ∧
      ((∀ conf ∈ getAllConfigPaths m.services, ∀ config, ValidFile parseToml m.services conf config →
        config.listenPort = none) → ∀ S : Server, S.listeners.Perm listeners →
          (∀ s, (serverSystem S).Reachable s → s.tasks = []) ∧
            ∃ s, (serverSystem S).init s ∧ ServerStep S s .died { s with main := .exited 1 }) := by
  rcases @run_cases parseToml parseDuration m exposeVersion hsystemd with
    ⟨file, t, husable, hload⟩ | ⟨hno, e, hfailed⟩
  · have hsome : ∃ file t, UsableSettings parseToml m.settings file t := ⟨file, t, husable⟩
    rcases @run_of_ok parseToml parseDuration m exposeVersion hsystemd _ hload with
      ⟨hcheck, hrun⟩ | ⟨hcheck, ⟨hbind, hrun⟩ | ⟨e, hbind, hrun⟩⟩
    · rw [hrun]
      refine ⟨iff_of_false (fun ⟨e, h⟩ => nomatch h) ?_,
        iff_of_false (fun ⟨cfg, h⟩ => nomatch h) (fun h => h.2.1 hcheck),
        iff_of_true ⟨_, _, rfl⟩ ⟨hsome, hcheck⟩, ?_⟩
      · rintro (h | h)
        · exact h hsome
        · exact h.1 hcheck
      · rintro cfg listeners ⟨⟩
        exact ⟨fun port => mem_ports_iff, fun hnone S hperm =>
          idle_of_no_listeners (listeners_eq_nil hnone hperm)⟩
    · rw [hrun]
      refine ⟨iff_of_false (fun ⟨e, h⟩ => nomatch h) ?_, iff_of_true ⟨_, rfl⟩ ⟨hsome, hcheck, hbind⟩,
        iff_of_false (fun ⟨_, _, h⟩ => nomatch h) (fun h => hcheck h.2), fun cfg listeners h => nomatch h⟩
      rintro (h | h)
      · exact h hsome
      · exact h.2 hbind
    · have hbind' : m.fallbackBind ≠ .ok () := by
        rw [hbind]
        exact nofun
      rw [hrun]
      exact ⟨iff_of_true ⟨_, rfl⟩ (Or.inr ⟨hcheck, hbind'⟩),
        iff_of_false (fun ⟨cfg, h⟩ => nomatch h) (fun h => hbind' h.2.2),
        iff_of_false (fun ⟨_, _, h⟩ => nomatch h) (fun h => hcheck h.2), fun cfg listeners h => nomatch h⟩
  · rw [hfailed]
    exact ⟨iff_of_true ⟨e, rfl⟩ (Or.inl hno), iff_of_false (fun ⟨cfg, h⟩ => nomatch h) (fun h => hno h.1),
      iff_of_false (fun ⟨_, _, h⟩ => nomatch h) (fun h => hno h.1), fun cfg listeners h => nomatch h⟩

end Run

/-- Another web server has port 80, and there are no services yet. -/
def portTakenMachine : Machine :=
  ⟨true, ⟨true, .ok "# empty".toList⟩, ⟨[], fun _ => .ok []⟩, .error "Address already in use".toList⟩

/-- The settings file is empty, and the service has its port in `listens_port`. -/
def listensPortMachine : Machine := ⟨true, ⟨true, .ok "# empty".toList⟩, oneService, .ok ()⟩

def parseListensPort (content : Str) : Except Str Table :=
  if content = [] then .ok paddedSection else .ok []

theorem run_outcome_listensPort :
    (∃ e, run parseListensPort (fun _ => none) portTakenMachine true = .failed e) ∧
      ∃ cfg listeners, run parseListensPort (fun _ => none) listensPortMachine true =
        .listen cfg listeners ∧ 80 ∉ listeners.map (·.port) := by
  obtain ⟨config, hload⟩ := paddedSection_accepted
  have hvalid : ∀ conf c, ValidFile parseListensPort oneService conf c → c.listenPort = none := by
    rintro conf c ⟨content, file, hcontent, hparse, hread, -⟩
    obtain rfl := Except.ok.inj hcontent
    obtain rfl := Except.ok.inj hparse
    exact (ClientConfig.readFrom_of_ofToml hread).listenPort
  have husable : UsableSettings parseListensPort listensPortMachine.settings [] ⟨none, none, none, none⟩ :=
    ⟨rfl, _, rfl, if_neg (by decide), rfl⟩
  have hcheck : check parseListensPort oneService = .ok () :=
    check_eq_ok_iff.mpr ⟨_, List.mem_cons_self, config, validFile_iff.mpr ⟨[], _, rfl, rfl, hload⟩⟩
  obtain ⟨-, -, hlisten, hports⟩ := @run_outcome parseListensPort (fun _ => none) listensPortMachine true rfl
  obtain ⟨cfg, listeners, hrun⟩ := hlisten.mpr ⟨⟨[], _, husable⟩, hcheck⟩
  refine ⟨(run_outcome (m := portTakenMachine) rfl).1.mpr (Or.inr ⟨nofun, nofun⟩), cfg, listeners, hrun, ?_⟩
  rw [(hports cfg listeners hrun).1]
  rintro ⟨conf, -, c, hc, hport⟩
  rw [hvalid conf c hc] at hport
  exact nomatch hport

end Scety
