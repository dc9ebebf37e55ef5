import Scety.Config.Toml
import Scety.Network.GlobalRouter

/-!
# The per-port form of a service file

Both flattened maps receive every `[upstream_p]` and every `[ssl_p]` section, and `validateConfig`
checks all entries of both.  So a file in the documented per-port form is accepted exactly when
every section also has the fields of the other kind (`per_port_accepted_iff`).
-/

namespace Scety

open Toml

/-! ### The documented forms -/

/-- What both forms share: `mode`, one of `host` and `hosts`, and at most a `headers` table. -/
structure ServiceHead (file : Table) : Prop where
  nodup : (file.map Prod.fst).Nodup
  mode : ∃ s, file.lookup "mode".toList = some (.string s)
  host : (∃ s, file.lookup "host".toList = some (.string s)) ∧ file.lookup "hosts".toList = none ∨
    file.lookup "host".toList = none ∧
      ∃ ss : List Str, file.lookup "hosts".toList = some (.array (ss.map .string))
  headers : WellTyped HeadersConfig.ofToml file "headers".toList
  ssl : file.lookup "ssl".toList = none

/-- An upstream section with a `port`. -/
def DescribesUpstream (v : Toml) : Prop :=
  ∃ t, v = .table t ∧ HasUpstreamFields t ∧ (t.lookup "port".toList).isSome

/-- A TLS section with `cert` and `key`. -/
def DescribesSsl (v : Toml) : Prop :=
  ∃ t, v = .table t ∧ HasSslFields t ∧ (t.lookup "cert".toList).isSome ∧
    (t.lookup "key".toList).isSome

/-- `listens_port = ports` with one `[upstream_p]` for each port and `[ssl_p]` for some of them. -/
structure PerPortFile (ports : List UInt16) (file : Table) : Prop extends ServiceHead file where
  listenPort : file.lookup "listen_port".toList = none
  listensPort : file.lookup "listens_port".toList =
    some (.array (ports.map fun p => .integer p.toNat))
  upstream : file.lookup "upstream".toList = none
  upstreams : ∀ p ∈ ports, ∃ v, file.lookup (upstreamKey p) = some v ∧ DescribesUpstream v
  ssls : ∀ p ∈ ports, ∀ v, file.lookup (sslKey p) = some v → DescribesSsl v
  keys : ∀ e ∈ file, e.1 ∈ namedKeys ∨ ∃ p ∈ ports, e.1 = upstreamKey p ∨ e.1 = sslKey p

/-- `listen_port = port` with `[upstream]` and an `[ssl_port]` section. -/
structure SinglePortFile (port : UInt16) (file : Table) : Prop extends ServiceHead file where
  listenPort : file.lookup "listen_port".toList = some (.integer port.toNat)
  listensPort : file.lookup "listens_port".toList = none
  upstream : ∃ v, file.lookup "upstream".toList = some v ∧ DescribesUpstream v
  sslPort : ∃ v, file.lookup (sslKey port) = some v ∧ DescribesSsl v
  keys : ∀ e ∈ file, e.1 ∈ namedKeys ∨ e.1 = sslKey port

/-- Every `[upstream_p]` section has the fields of a TLS section too, and every `[ssl_p]` section
those of an upstream section. -/
def SectionsReadBothWays (file : Table) : Prop :=
  ∀ (p : UInt16) (t : Table),
    (file.lookup (upstreamKey p) = some (.table t) → HasSslFields t) ∧
      (file.lookup (sslKey p) = some (.table t) → HasUpstreamFields t)

/-! ### Leftover keys -/

theorem upstreamKey_notMem_namedKeys (p : UInt16) : upstreamKey p ∉ namedKeys := by
  intro h
  have hno : ∀ k ∈ namedKeys, ¬ upstreamPrefix <+: k := by decide
  exact hno _ h (List.prefix_append _ _)

theorem sslKey_notMem_namedKeys (p : UInt16) : sslKey p ∉ namedKeys := by
  intro h
  have hno : ∀ k ∈ namedKeys, ¬ sslPrefix <+: k := by decide
  exact hno _ h (List.prefix_append _ _)

theorem mem_leftover_iff {file : Table} {e : Str × Toml} :
    e ∈ leftover file ↔ e ∈ file ∧ e.1 ∉ namedKeys := by
  simp [leftover]

theorem leftover_nodup {file : Table} (h : (file.map Prod.fst).Nodup) :
    ((leftover file).map Prod.fst).Nodup :=
  h.sublist (List.filter_sublist.map Prod.fst)

/-- A leftover value that both maps can read and both checks accept. -/
def ReadsBothWays (v : Toml) : Prop :=
  ∃ t, v = .table t ∧ HasUpstreamFields t ∧ HasSslFields t

theorem exists_checked_upstream_iff {v : Toml} :
    (∃ u, UpstreamConfig.ofToml v = some u ∧ checkUpstream u = .ok ()) ↔
      ∃ t, v = .table t ∧ HasUpstreamFields t := by
  cases v with
  | table t => simp [← hasUpstreamFields_iff]
  | _ => simp [UpstreamConfig.ofToml]

theorem exists_checked_ssl_iff {v : Toml} :
    (∃ ssl, SslConfig.ofToml v = some ssl ∧ checkSsl ssl = .ok ()) ↔
      ∃ t, v = .table t ∧ HasSslFields t := by
  cases v with
  | table t => simp [← hasSslFields_iff]
  | _ => simp [SslConfig.ofToml]

/-- The two maps are built and pass their checks if and only if every leftover value reads both
ways. -/
theorem leftover_checked_iff {file : Table} (hnd : (file.map Prod.fst).Nodup) :
    ((∃ m, readEntries UpstreamConfig.ofToml (leftover file) = some m ∧
        ∀ e ∈ m.entries, checkUpstream e.2 = .ok ()) ∧
      ∃ m, readEntries SslConfig.ofToml (leftover file) = some m ∧
        ∀ e ∈ m.entries, checkSsl e.2 = .ok ()) ↔
      ∀ e ∈ leftover file, ReadsBothWays e.2 := by
  rw [readEntries_checked_iff (leftover_nodup hnd), readEntries_checked_iff (leftover_nodup hnd)]
  simp only [exists_checked_upstream_iff, exists_checked_ssl_iff]
  refine ⟨fun ⟨hu, hs⟩ e he => ?_, fun h => ⟨?_, ?_⟩⟩
  · obtain ⟨t, ht, hup⟩ := hu e he
    obtain ⟨t', ht', hssl⟩ := hs e he
    obtain rfl := Toml.table.inj (ht.symm.trans ht')
    exact ⟨t, ht, hup, hssl⟩
  · intro e he
    obtain ⟨t, ht, hup, -⟩ := h e he
    exact ⟨t, ht, hup⟩
  · intro e he
    obtain ⟨t, ht, -, hssl⟩ := h e he
    exact ⟨t, ht, hssl⟩

/-! ### Reading a file of either form -/

section Head

variable {file : Table} (hf : ServiceHead file)
include hf

theorem ServiceHead.checkHosts {c : ClientConfig} (hc : ClientConfig.ofToml file = some c) :
    checkHosts c = .ok () := by
  have hread := ClientConfig.readFrom_of_ofToml hc
  unfold Scety.checkHosts
  rw [hread.host, hread.hosts]
  rcases hf.host with ⟨⟨s, hs⟩, hnone⟩ | ⟨hnone, ss, hss⟩
  · rw [hs, hnone]
    rfl
  · rw [hss, hnone, Option.bind_some, asArray_strings]
    rfl

/-- A file of this head is read, given that its ports and `upstream` are well typed and the two
maps can be built. -/
theorem ServiceHead.exists_config (hport : WellTyped asPort file "listen_port".toList)
    (hports : WellTyped (asArray asPort) file "listens_port".toList)
    (hup : WellTyped UpstreamConfig.ofToml file "upstream".toList)
    {upstreams : HashMap Str UpstreamConfig} {sslPorts : HashMap Str SslConfig}
    (hu : readEntries UpstreamConfig.ofToml (leftover file) = some upstreams)
    (hs : readEntries SslConfig.ofToml (leftover file) = some sslPorts) :
    ∃ c, ClientConfig.ofToml file = some c := by
  obtain ⟨mode, hmode⟩ := hf.mode
  have hhost : WellTyped asString file "host".toList := by
    intro v hv
    rcases hf.host with ⟨⟨s, hs⟩, -⟩ | ⟨hnone, -⟩
    · obtain rfl := Option.some.inj (hs.symm.trans hv)
      rfl
    · exact absurd (hnone.symm.trans hv) (by simp)
  have hhosts : WellTyped (asArray asString) file "hosts".toList := by
    intro v hv
    rcases hf.host with ⟨-, hnone⟩ | ⟨-, ss, hss⟩
    · exact absurd (hnone.symm.trans hv) (by simp)
    · obtain rfl := Option.some.inj (hss.symm.trans hv)
      rw [asArray_strings]
      rfl
  have hssl : WellTyped SslConfig.ofToml file "ssl".toList := wellTyped_of_lookup_eq_none hf.ssl
  have hmode' : (file.lookup "mode".toList).bind asString = some mode := by
    rw [hmode]
    rfl
  exact ⟨⟨mode, _, _, _, _, _, upstreams, _, sslPorts, _⟩, ClientConfig.ofToml_eq_some_iff.mpr
    ⟨hmode', optionField_eq_some_iff.mpr ⟨hhost, rfl⟩, optionField_eq_some_iff.mpr ⟨hhosts, rfl⟩,
      optionField_eq_some_iff.mpr ⟨hport, rfl⟩, optionField_eq_some_iff.mpr ⟨hports, rfl⟩,
      optionField_eq_some_iff.mpr ⟨hup, rfl⟩, hu, optionField_eq_some_iff.mpr ⟨hssl, rfl⟩, hs,
      optionField_eq_some_iff.mpr ⟨hf.headers, rfl⟩⟩⟩

/-- What the last checks come to: `ssl` is absent, so only the maps are left. -/
theorem ServiceHead.checkSsls_iff {c : ClientConfig} (hc : ClientConfig.ofToml file = some c) :
    checkSsls c = .ok () ↔ ∀ e ∈ c.sslPorts.entries, checkSsl e.2 = .ok () := by
  have hssl := (ClientConfig.readFrom_of_ofToml hc).ssl
  rw [hf.ssl, Option.bind_none] at hssl
  unfold checkSsls
  rw [bind_eq_ok_iff, forM_option_eq_ok_iff, forM_list_eq_ok_iff, hssl]
  simp

end Head

theorem lookup_leftover {file : Table} {key : Str} (hkey : key ∉ namedKeys) :
    (leftover file).lookup key = file.lookup key := by
  induction file with
  | nil => rfl
  | cons e file ih =>
    obtain ⟨k, v⟩ := e
    by_cases hk : key = k
    · subst hk
      have hcons : leftover ((key, v) :: file) = (key, v) :: leftover file :=
        List.filter_cons_of_pos (by simpa using hkey)
      rw [hcons, List.lookup_cons_self, List.lookup_cons_self]
    · have hne : (key == k) = false := beq_eq_false_iff_ne.mpr hk
      rw [List.lookup_cons, hne]
      by_cases hn : k ∈ namedKeys
      · have hcons : leftover ((k, v) :: file) = leftover file :=
          List.filter_cons_of_neg (by simpa using hn)
        rw [hcons]
        exact ih
      · have hcons : leftover ((k, v) :: file) = (k, v) :: leftover file :=
          List.filter_cons_of_pos (by simpa using hn)
        rw [hcons, List.lookup_cons, hne]
        exact ih

/-! ### Section names -/

/-- A key that starts with another character has no port. -/
theorem sectionPort_of_head_ne {a b : Char} (h : a ≠ b) (pre rest : Str) :
    sectionPort (a :: pre) (b :: rest) = none := by
  have hno : ¬ a :: pre <+: b :: rest := fun hp => h (List.cons_prefix_cons.mp hp).1
  unfold sectionPort stripPrefix
  rw [if_neg hno, Option.bind_none]

theorem sectionPort_upstream_sslKey (p : UInt16) : sectionPort upstreamPrefix (sslKey p) = none :=
  sectionPort_of_head_ne (by decide : 'u' ≠ 's') _ _

theorem sectionPort_ssl_upstreamKey (p : UInt16) : sectionPort sslPrefix (upstreamKey p) = none :=
  sectionPort_of_head_ne (by decide : 's' ≠ 'u') _ _

/-- The keys of a per-port file never name an unlisted port. -/
theorem checkListed_of_listed {ports : List UInt16} {p : UInt16} (hp : p ∈ ports)
    {message : Str → UInt16 → Str} {key : Str} (hkey : key = upstreamKey p ∨ key = sslKey p) :
    checkListed upstreamPrefix ports message key = .ok () ∧
      checkListed sslPrefix ports message key = .ok () := by
  unfold checkListed
  rcases hkey with rfl | rfl
  · rw [sectionPort_ssl_upstreamKey]
    have hs : sectionPort upstreamPrefix (upstreamKey p) = some p := sectionPort_append _ _
    rw [hs]
    exact ⟨if_pos hp, rfl⟩
  · rw [sectionPort_upstream_sslKey]
    have hs : sectionPort sslPrefix (sslKey p) = some p := sectionPort_append _ _
    rw [hs]
    exact ⟨rfl, if_pos hp⟩

/-! ### Acceptance -/

section Accepted

variable {file : Table} (hf : ServiceHead file)
include hf

/-- When the checks on the other fields pass, the file is accepted if and only if every leftover
value reads both ways. -/
theorem ServiceHead.accepted_iff (hport : WellTyped asPort file "listen_port".toList)
    (hports : WellTyped (asArray asPort) file "listens_port".toList)
    (hup : WellTyped UpstreamConfig.ofToml file "upstream".toList)
    (hrest : ∀ c, ClientConfig.ofToml file = some c →
      checkListenPorts c = .ok () ∧ checkSections c = .ok () ∧
        (∀ u ∈ c.upstream, checkUpstream u = .ok ()) ∧ checkSslSections c = .ok ()) :
    (∃ c, loadConfig file = some c) ↔ ∀ e ∈ leftover file, ReadsBothWays e.2 := by
  rw [← leftover_checked_iff hf.nodup]
  have hups : ∀ c, ClientConfig.ofToml file = some c →
      (checkUpstreams c = .ok () ↔ ∀ e ∈ c.upstreams.entries, checkUpstream e.2 = .ok ()) := by
    intro c hc
    unfold checkUpstreams
    rw [bind_eq_ok_iff, forM_option_eq_ok_iff, forM_list_eq_ok_iff]
    simp only [inSection_eq_ok_iff]
    exact and_iff_right (hrest c hc).2.2.1
  refine ⟨?_, ?_⟩
  · rintro ⟨c, hload⟩
    obtain ⟨hc, hv⟩ := loadConfig_eq_some_iff.mp hload
    obtain ⟨-, -, -, hu, -, hs⟩ := validateConfig_eq_ok_iff.mp hv
    have hread := ClientConfig.readFrom_of_ofToml hc
    exact ⟨⟨_, hread.upstreams, (hups c hc).mp hu⟩,
      ⟨_, hread.sslPorts, (hf.checkSsls_iff hc).mp hs⟩⟩
  · rintro ⟨⟨mu, hmu, hu⟩, ⟨ms, hms, hs⟩⟩
    obtain ⟨c, hc⟩ := hf.exists_config hport hports hup hmu hms
    have hread := ClientConfig.readFrom_of_ofToml hc
    obtain rfl := Option.some.inj (hmu.symm.trans hread.upstreams)
    obtain rfl := Option.some.inj (hms.symm.trans hread.sslPorts)
    obtain ⟨hl, hsec, -, hsslsec⟩ := hrest c hc
    exact ⟨c, loadConfig_eq_some_iff.mpr ⟨hc, validateConfig_eq_ok_iff.mpr
      ⟨hf.checkHosts hc, hl, hsec, (hups c hc).mpr hu, hsslsec, (hf.checkSsls_iff hc).mpr hs⟩⟩⟩

/-- If the leftover keys are sections of their own kind, reading both ways is about the other
kind. -/
theorem ServiceHead.readsBothWays_iff
    (hdesc : ∀ e ∈ leftover file, ∃ p, e.1 = upstreamKey p ∧ DescribesUpstream e.2 ∨
      e.1 = sslKey p ∧ DescribesSsl e.2) :
    (∀ e ∈ leftover file, ReadsBothWays e.2) ↔ SectionsReadBothWays file := by
  refine ⟨fun h p t => ⟨?_, ?_⟩, ?_⟩
  · intro hl
    obtain ⟨t', ht, -, hssl⟩ :=
      h _ (mem_leftover_iff.mpr ⟨mem_of_lookup hl, upstreamKey_notMem_namedKeys p⟩)
    obtain rfl := Toml.table.inj ht
    exact hssl
  · intro hl
    obtain ⟨t', ht, hup, -⟩ :=
      h _ (mem_leftover_iff.mpr ⟨mem_of_lookup hl, sslKey_notMem_namedKeys p⟩)
    obtain rfl := Toml.table.inj ht
    exact hup
  · intro h e he
    have hlook : file.lookup e.1 = some e.2 :=
      lookup_eq_of_mem hf.nodup (mem_leftover_iff.mp he).1
    obtain ⟨p, ⟨hkey, t, ht, hup, -⟩ | ⟨hkey, t, ht, hssl, -⟩⟩ := hdesc e he
    · rw [hkey, ht] at hlook
      exact ⟨t, ht, hup, (h p t).1 hlook⟩
    · rw [hkey, ht] at hlook
      exact ⟨t, ht, (h p t).2 hlook, hssl⟩

end Accepted

theorem DescribesUpstream.exists_ofToml {v : Toml} (h : DescribesUpstream v) :
    ∃ u, UpstreamConfig.ofToml v = some u ∧ checkUpstream u = .ok () := by
  obtain ⟨t, rfl, hup, -⟩ := h
  exact hasUpstreamFields_iff.mp hup

section PerPort

variable {ports : List UInt16} {file : Table}

/-- The leftover keys are sections of the listed ports. -/
theorem PerPortFile.key_of_mem_leftover (hf : PerPortFile ports file) :
    ∀ e ∈ leftover file, ∃ p ∈ ports, e.1 = upstreamKey p ∨ e.1 = sslKey p := by
  intro e he
  obtain ⟨hm, hn⟩ := mem_leftover_iff.mp he
  exact (hf.keys e hm).resolve_left hn

/-- They are sections of their own kind. -/
theorem PerPortFile.describes (hf : PerPortFile ports file) :
    ∀ e ∈ leftover file, ∃ p, e.1 = upstreamKey p ∧ DescribesUpstream e.2 ∨
      e.1 = sslKey p ∧ DescribesSsl e.2 := by
  intro e he
  have hlook : file.lookup e.1 = some e.2 :=
    lookup_eq_of_mem hf.nodup (mem_leftover_iff.mp he).1
  obtain ⟨p, hpm, hkey | hkey⟩ := hf.key_of_mem_leftover e he
  · obtain ⟨v, hv, hdesc⟩ := hf.upstreams p hpm
    rw [hkey] at hlook
    obtain rfl := Option.some.inj (hv.symm.trans hlook)
    exact ⟨p, Or.inl ⟨hkey, hdesc⟩⟩
  · rw [hkey] at hlook
    exact ⟨p, Or.inr ⟨hkey, hf.ssls p hpm _ hlook⟩⟩

/-- The keys of a flattened map are those of sections of the listed ports. -/
theorem PerPortFile.listed (hf : PerPortFile ports file) {α : Type} {read : Toml → Option α}
    {m : HashMap Str α} (hm : readEntries read (leftover file) = some m) :
    ∀ key ∈ m.keys, ∃ p ∈ ports, key = upstreamKey p ∨ key = sslKey p := by
  intro key hk
  obtain ⟨a, ha⟩ := Option.isSome_iff_exists.mp (AList.lookup_isSome.mpr hk)
  rw [(readEntries_spec hm).2] at ha
  obtain ⟨v, hv, -⟩ := Option.bind_eq_some_iff.mp ha
  exact hf.key_of_mem_leftover _ (mem_of_lookup hv)

theorem PerPortFile.accepted_iff (hf : PerPortFile ports file) :
    (∃ c, loadConfig file = some c) ↔ SectionsReadBothWays file := by
  have hhead : ServiceHead file := hf.toServiceHead
  rw [← hhead.readsBothWays_iff hf.describes]
  refine hhead.accepted_iff (wellTyped_of_lookup_eq_none hf.listenPort) ?_
    (wellTyped_of_lookup_eq_none hf.upstream) fun c hc => ?_
  · intro v hv
    obtain rfl := Option.some.inj (hf.listensPort.symm.trans hv)
    rw [asArray_ports]
    rfl
  · obtain ⟨-, -, hp, hps, hu, hmu, -, hms⟩ := ClientConfig.readFrom_of_ofToml hc
    rw [hf.listenPort, Option.bind_none] at hp
    rw [hf.listensPort, Option.bind_some, asArray_ports] at hps
    rw [hf.upstream, Option.bind_none] at hu
    refine ⟨?_, ?_, ?_, ?_⟩
    · unfold checkListenPorts
      rw [hp, hps]
    · unfold checkSections
      rw [hps]
      dsimp only
      rw [bind_eq_ok_iff, forM_list_eq_ok_iff, forM_list_eq_ok_iff]
      refine ⟨?_, ?_⟩
      · intro p hpm
        obtain ⟨v, hv, hdesc⟩ := hf.upstreams p hpm
        obtain ⟨u, hu, -⟩ := hdesc.exists_ofToml
        refine if_pos (AList.lookup_isSome.mp ?_)
        rw [(readEntries_spec hmu).2, lookup_leftover (upstreamKey_notMem_namedKeys p), hv,
          Option.bind_some, hu]
        rfl
      · intro key hk
        obtain ⟨p, hpm, hkey⟩ := hf.listed hmu key hk
        exact (checkListed_of_listed hpm hkey).1
    · rw [hu]
      simp
    · unfold checkSslSections
      rw [hps, forM_option_eq_ok_iff]
      intro ports' hports'
      obtain rfl := Option.some.inj hports'
      rw [forM_list_eq_ok_iff]
      intro key hk
      obtain ⟨p, hpm, hkey⟩ := hf.listed hms key hk
      exact (checkListed_of_listed hpm hkey).2

end PerPort

theorem SinglePortFile.accepted_iff {port : UInt16} {file : Table} (hf : SinglePortFile port file) :
    (∃ c, loadConfig file = some c) ↔ SectionsReadBothWays file := by
  have hhead : ServiceHead file := hf.toServiceHead
  obtain ⟨up, hup, hupdesc⟩ := hf.upstream
  obtain ⟨u, hu, hcheck⟩ := hupdesc.exists_ofToml
  rw [← hhead.readsBothWays_iff]
  · refine hhead.accepted_iff ?_ (wellTyped_of_lookup_eq_none hf.listensPort) ?_ ?_
    · intro v hv
      obtain rfl := Option.some.inj (hf.listenPort.symm.trans hv)
      rw [asPort_integer]
      rfl
    · intro v hv
      obtain rfl := Option.some.inj (hup.symm.trans hv)
      rw [hu]
      rfl
    · intro c hc
      obtain ⟨-, -, hp, hps, hcu, -, -, -⟩ := ClientConfig.readFrom_of_ofToml hc
      rw [hf.listenPort, Option.bind_some, asPort_integer] at hp
      rw [hf.listensPort, Option.bind_none] at hps
      rw [hup, Option.bind_some, hu] at hcu
      refine ⟨?_, ?_, ?_, ?_⟩
      · unfold checkListenPorts
        rw [hp, hps]
      · unfold checkSections
        rw [hps, hcu]
        rfl
      · rw [hcu]
        intro u' hu'
        obtain rfl := Option.some.inj hu'
        exact hcheck
      · unfold checkSslSections
        rw [hps]
        rfl
  · intro e he
    obtain ⟨hm, hn⟩ := mem_leftover_iff.mp he
    have hkey := (hf.keys e hm).resolve_left hn
    have hlook : file.lookup e.1 = some e.2 := lookup_eq_of_mem hf.nodup hm
    obtain ⟨v, hv, hdesc⟩ := hf.sslPort
    rw [hkey] at hlook
    obtain rfl := Option.some.inj (hv.symm.trans hlook)
    exact ⟨port, Or.inr ⟨hkey, hdesc⟩⟩

/-- The TLS settings of an accepted single-port file are those of its `[ssl_port]` section. -/
theorem SinglePortFile.sslOf_eq {port : UInt16} {file : Table} (hf : SinglePortFile port file)
    {c : ClientConfig} (hc : loadConfig file = some c) :
    ∃ ssl, (file.lookup (sslKey port)).bind SslConfig.ofToml = some ssl ∧
      sslOf port c = some ssl := by
  obtain ⟨hread, -⟩ := loadConfig_eq_some_iff.mp hc
  obtain ⟨-, -, -, -, -, -, hssl, hms⟩ := ClientConfig.readFrom_of_ofToml hread
  rw [hf.ssl, Option.bind_none] at hssl
  obtain ⟨v, hv, t, rfl, hfields, -⟩ := hf.sslPort
  obtain ⟨ssl, hs, -⟩ := hasSslFields_iff.mp hfields
  have hfile : (file.lookup (sslKey port)).bind SslConfig.ofToml = some ssl := by
    rw [hv]
    exact hs
  refine ⟨ssl, hfile, ?_⟩
  unfold sslOf
  rw [hssl, Option.none_or, (readEntries_spec hms).2, lookup_leftover (sslKey_notMem_namedKeys port),
    hfile]

/-- **The per-port forms are accepted** if and only if every section also has the fields of the
other kind; for one port, `resolveSslMode` then takes the settings of `[ssl_port]`. -/
theorem per_port_accepted_iff (file : Table) :
    (∀ ports, PerPortFile ports file →
      ((∃ c, loadConfig file = some c) ↔ SectionsReadBothWays file)) ∧
    ∀ port (before after : List ClientConfig), SinglePortFile port file →
      resolveSslMode before port = .none →
        ((∃ c ssl, loadConfig file = some c ∧
          (file.lookup (sslKey port)).bind SslConfig.ofToml = some ssl ∧
            resolveSslMode (before ++ c :: after) port = resolveMode ssl) ↔
          SectionsReadBothWays file) := by
  refine ⟨fun ports hf => hf.accepted_iff, ?_⟩
  intro port before after hf hbefore
  rw [← hf.accepted_iff]
  refine ⟨fun ⟨c, _, hc, _⟩ => ⟨c, hc⟩, fun ⟨c, hc⟩ => ?_⟩
  obtain ⟨ssl, hfile, hssl⟩ := hf.sslOf_eq hc
  exact ⟨c, ssl, hc, hfile, resolveSslMode_append hbefore hssl⟩

/-- `listens_port = [80]` with one upstream section. -/
def minimalPerPort : Table :=
  [("mode".toList, .string "proxy".toList), ("host".toList, .string "a.com".toList),
    ("listens_port".toList, .array [.integer 80]),
    ("upstream_80".toList, .table [("port".toList, .integer 3000)])]

theorem minimalPerPort_form : PerPortFile [80] minimalPerPort where
  nodup := by decide
  mode := ⟨_, rfl⟩
  host := Or.inl ⟨⟨_, rfl⟩, rfl⟩
  headers := wellTyped_of_lookup_eq_none rfl
  ssl := rfl
  listenPort := rfl
  listensPort := rfl
  upstream := rfl
  upstreams := by
    intro p hp
    obtain rfl := List.mem_singleton.mp hp
    refine ⟨_, rfl, _, rfl, ⟨?_, ?_, ?_, ?_⟩, rfl⟩
    · intro v hv
      obtain rfl := Option.some.inj hv
      rfl
    · exact wellTyped_of_lookup_eq_none rfl
    · exact wellTyped_of_lookup_eq_none rfl
    · exact ⟨fun _ => rfl, fun _ => rfl⟩
  ssls := by
    intro p hp v hv
    obtain rfl := List.mem_singleton.mp hp
    have hnone : minimalPerPort.lookup (sslKey 80) = none := rfl
    exact absurd (hnone.symm.trans hv) (by simp)
  keys := by
    intro e he
    have hkeys : ∀ k ∈ minimalPerPort.map Prod.fst, k ∈ namedKeys ∨ k = upstreamKey 80 := by decide
    refine (hkeys _ (List.mem_map_of_mem he)).imp_right ?_
    intro hk
    exact ⟨80, List.mem_singleton.mpr rfl, Or.inl hk⟩

theorem per_port_accepted_minimal :
    (∃ c, loadConfig minimalPerPort = some c) ↔ SectionsReadBothWays minimalPerPort :=
  (per_port_accepted_iff minimalPerPort).1 [80] minimalPerPort_form

/-- The minimal per-port file is refused. -/
theorem per_port_refused :
    ¬ ∀ ports file, PerPortFile ports file → ∃ c, loadConfig file = some c := by
  intro hall
  have hread := minimalPerPort_form.accepted_iff.mp (hall [80] minimalPerPort minimalPerPort_form)
  have hssl : HasSslFields [("port".toList, .integer 3000)] := (hread 80 _).1 rfl
  have hcert := hssl.2
  rw [if_neg (by decide)] at hcert
  exact absurd hcert.1 (by decide)

end Scety
