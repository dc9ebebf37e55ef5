import Scety.Config.Services
import Scety.Lib.Grouping

/-!
# `network/global_router.rs`: the listeners and the TLS mode of a port

A listener is spawned for each port that occurs, with the services on it in the order of the
configuration.  It serves TLS as soon as one of them declares TLS settings for the port
(`startListen_groups`).
-/

namespace Scety

open Grouping

inductive SslMode where
  | none
  | manual (ssl : SslConfig)
  | acme (ssl : SslConfig)
  deriving DecidableEq

def resolveMode (ssl : SslConfig) : SslMode :=
  if ssl.acme.getD false then .acme ssl else .manual ssl

/-- `c.ssl.clone().or_else(|| c.ssl_ports.get(&ssl_key).cloned())`. -/
def sslOf (port : UInt16) (c : ClientConfig) : Option SslConfig :=
  c.ssl.or (c.sslPorts.lookup (sslKey port))

/-- The first service on the port with TLS settings decides (the warning for the others is left
out). -/
def resolveSslMode (configs : List ClientConfig) (port : UInt16) : SslMode :=
  match configs.findSome? (sslOf port) with
  | some ssl => resolveMode ssl
  | none => .none

theorem resolveSslMode_append {before after : List ClientConfig} {port : UInt16}
    (h : resolveSslMode before port = .none) {c : ClientConfig} {ssl : SslConfig}
    (hc : sslOf port c = some ssl) :
    resolveSslMode (before ++ c :: after) port = resolveMode ssl := by
  have hnone : before.findSome? (sslOf port) = none := by
    cases hf : before.findSome? (sslOf port) with
    | none => rfl
    | some s =>
      unfold resolveSslMode at h
      rw [hf] at h
      dsimp only at h
      unfold resolveMode at h
      split_ifs at h
  unfold resolveSslMode
  rw [List.findSome?_append, hnone, Option.none_or, List.findSome?_cons, hc]

/-! ### `start_listen` -/

/-- What `start_listen_port` is called with. -/
structure Listener where
  port : UInt16
  configs : List ClientConfig
  exposeVersion : Bool
  sslMode : SslMode

/-- `all_config_for_this_port`. -/
def configsOn (port : UInt16) (configs : List ClientConfig) : List ClientConfig :=
  configs.filter fun c => c.listenPort = some port

/-- `unique_ports`, a set that the source visits in any order. -/
def uniquePorts (configs : List ClientConfig) : List UInt16 :=
  (configs.filterMap (·.listenPort)).dedup

def startListen (configs : List ClientConfig) (exposeVersion : Bool) : List Listener :=
  (uniquePorts configs).map fun port =>
    ⟨port, configsOn port configs, exposeVersion, resolveSslMode (configsOn port configs) port⟩

theorem mem_configsOn {port : UInt16} {configs : List ClientConfig} {c : ClientConfig} :
    c ∈ configsOn port configs ↔ c ∈ configs ∧ c.listenPort = some port := by
  unfold configsOn
  rw [List.mem_filter, decide_eq_true_eq]

/-- A service is in the list of the listener on its port, and in no other list. -/
theorem mem_startListen_iff {configs : List ClientConfig} {exposeVersion : Bool}
    {c : ClientConfig} {port : UInt16} (hc : c ∈ configs) (hport : c.listenPort = some port)
    {l : Listener} : l ∈ startListen configs exposeVersion ∧ c ∈ l.configs ↔
      l = ⟨port, configsOn port configs, exposeVersion,
        resolveSslMode (configsOn port configs) port⟩ := by
  unfold startListen uniquePorts
  rw [List.mem_map]
  refine ⟨?_, ?_⟩
  · rintro ⟨⟨port', -, rfl⟩, hmem⟩
    obtain rfl := Option.some.inj ((mem_configsOn.mp hmem).2.symm.trans hport)
    rfl
  · rintro rfl
    refine ⟨⟨port, ?_, rfl⟩, mem_configsOn.mpr ⟨hc, hport⟩⟩
    rw [List.mem_dedup, List.mem_filterMap]
    exact ⟨c, hc, hport⟩

/-! ### The services and the mode of each listener -/

/-- `ssl` are the settings that the service declares for the port: its `ssl`, or else its
`ssl_{port}`. -/
def ClientConfig.DeclaresSsl (c : ClientConfig) (port : UInt16) (ssl : SslConfig) : Prop :=
  c.ssl = some ssl ∨ c.ssl = none ∧ c.sslPorts.lookup (sslKey port) = some ssl

theorem sslOf_eq_some_iff {port : UInt16} {c : ClientConfig} {ssl : SslConfig} :
    sslOf port c = some ssl ↔ c.DeclaresSsl port ssl := by
  unfold sslOf ClientConfig.DeclaresSsl
  cases c.ssl <;> simp

theorem sslOf_eq_none_iff {port : UInt16} {c : ClientConfig} :
    sslOf port c = none ↔ c.ssl = none ∧ sslKey port ∉ c.sslPorts := by
  unfold sslOf
  rw [Option.or_eq_none_iff, AList.lookup_eq_none]

theorem resolveMode_eq (ssl : SslConfig) :
    resolveMode ssl = if ssl.acme = some true then .acme ssl else .manual ssl := by
  unfold resolveMode
  cases ssl.acme with
  | none => rfl
  | some b => cases b <;> rfl

theorem resolveMode_ne_none (ssl : SslConfig) : resolveMode ssl ≠ .none := by
  unfold resolveMode
  split_ifs <;> simp

theorem resolveSslMode_eq_none_iff {configs : List ClientConfig} {port : UInt16} :
    resolveSslMode configs port = .none ↔
      ∀ c ∈ configs, c.ssl = none ∧ sslKey port ∉ c.sslPorts := by
  simp only [← sslOf_eq_none_iff]
  rw [← List.findSome?_eq_none_iff]
  unfold resolveSslMode
  cases configs.findSome? (sslOf port) with
  | none => simp
  | some ssl => simp [resolveMode_ne_none]

/-- With TLS, the mode is that of the first service that declares settings. -/
theorem exists_first_of_resolveSslMode {configs : List ClientConfig} {port : UInt16}
    (h : resolveSslMode configs port ≠ .none) :
    ∃ before c after ssl, configs = before ++ c :: after ∧
      (∀ b ∈ before, b.ssl = none ∧ sslKey port ∉ b.sslPorts) ∧ c.DeclaresSsl port ssl ∧
        resolveSslMode configs port = if ssl.acme = some true then .acme ssl else .manual ssl := by
  cases hfirst : configs.findSome? (sslOf port) with
  | none =>
    refine absurd ?_ h
    unfold resolveSslMode
    rw [hfirst]
  | some ssl =>
    obtain ⟨before, c, after, hconfigs, hc, hbefore⟩ := List.findSome?_eq_some_iff.mp hfirst
    refine ⟨before, c, after, ssl, hconfigs, fun b hb => sslOf_eq_none_iff.mp (hbefore b hb),
      sslOf_eq_some_iff.mp hc, ?_⟩
    unfold resolveSslMode
    rw [hfirst, ← resolveMode_eq]

theorem configsOn_eq_group (port : UInt16) (configs : List ClientConfig) :
    configsOn port configs = group (·.listenPort) port configs := rfl

theorem uniquePorts_eq_keys (configs : List ClientConfig) :
    uniquePorts configs = keys (·.listenPort) configs := rfl

theorem ports_startListen (configs : List ClientConfig) (exposeVersion : Bool) :
    (startListen configs exposeVersion).map (·.port) = uniquePorts configs := by
  unfold startListen
  rw [List.map_map]
  exact List.map_id _

theorem flatMap_configs_startListen (configs : List ClientConfig) (exposeVersion : Bool) :
    (startListen configs exposeVersion).flatMap (·.configs) =
      (uniquePorts configs).flatMap fun port => configsOn port configs := by
  unfold startListen
  rw [List.flatMap_map]

theorem eq_of_mem_startListen {configs : List ClientConfig} {exposeVersion : Bool} {l : Listener}
    (h : l ∈ startListen configs exposeVersion) :
    l = ⟨l.port, configsOn l.port configs, exposeVersion,
      resolveSslMode (configsOn l.port configs) l.port⟩ := by
  obtain ⟨port, -, rfl⟩ := List.mem_map.mp h
  rfl

/-- **One listener for each port, with its services and their TLS settings**, in whichever order
the ports are visited: the listeners are on the distinct ports; each has the services on its port,
in their order and each as often as it occurs, and together they have all services with a port; a
listener is without TLS if and only if none of its services declares settings for the port, and
otherwise it has those of the first that does. -/
theorem startListen_groups (configs : List ClientConfig) (exposeVersion : Bool)
    {listeners : List Listener} (h : listeners.Perm (startListen configs exposeVersion)) :
    (listeners.map (·.port)).Nodup ∧
    (∀ port, port ∈ listeners.map (·.port) ↔ ∃ c ∈ configs, c.listenPort = some port) ∧
    (listeners.flatMap (·.configs)).Perm (configs.filter fun c => c.listenPort.isSome) ∧
    ∀ l ∈ listeners, l.exposeVersion = exposeVersion ∧
      l.configs = (configs.filter fun c => c.listenPort = some l.port) ∧
      (l.sslMode = .none ↔ ∀ c ∈ l.configs, c.ssl = none ∧ sslKey l.port ∉ c.sslPorts) ∧
      (l.sslMode ≠ .none → ∃ before c after ssl, l.configs = before ++ c :: after ∧
        (∀ b ∈ before, b.ssl = none ∧ sslKey l.port ∉ b.sslPorts) ∧ c.DeclaresSsl l.port ssl ∧
          l.sslMode = if ssl.acme = some true then .acme ssl else .manual ssl) := by
  have hports : (listeners.map (·.port)).Perm (keys (·.listenPort) configs) := by
    rw [← uniquePorts_eq_keys, ← ports_startListen configs exposeVersion]
    exact h.map _
  refine ⟨hports.nodup_iff.mpr nodup_keys, fun port => hports.mem_iff.trans mem_keys, ?_,
    fun l hl => ?_⟩
  · refine (h.flatMap_right _).trans ?_
    rw [flatMap_configs_startListen, uniquePorts_eq_keys]
    simp only [configsOn_eq_group]
    exact flatMap_group_keys_perm
  · rw [eq_of_mem_startListen (h.mem_iff.mp hl)]
    exact ⟨rfl, rfl, resolveSslMode_eq_none_iff, exists_first_of_resolveSslMode⟩

/-- Two services on port 443, the second of which declares TLS settings. -/
def sharedPort : List ClientConfig :=
  [⟨"proxy".toList, some "a.com".toList, none, some 443, none, some ⟨some 3000, none, none⟩, ∅, none,
      ∅, none⟩,
    ⟨"proxy".toList, some "b.com".toList, none, some 443, none, some ⟨some 3001, none, none⟩, ∅,
      some ⟨some "/b.pem".toList, some "/b.key".toList, none, none, none, none⟩, ∅, none⟩]

theorem startListen_groups_sharedPort :
    ((startListen sharedPort false).map (·.port)).Nodup ∧
      ((startListen sharedPort false).flatMap (·.configs)).Perm sharedPort :=
  have h := startListen_groups sharedPort false (List.Perm.refl _)
  ⟨h.1, h.2.2.1⟩

end Scety
