import Scety.Config.PerPort

/-!
# `validate_config`: the sections of a service with `listens_port`

Ports are formatted into keys to look for missing sections, and keys are parsed into ports to look
for sections too many.  A key whose suffix does not parse is passed over, and one that parses but is
not written as its port is formatted is taken for that port.  So the sections of an accepted service
are those of its ports exactly when no such key is there (`sections_listed_iff`).
-/

namespace Scety

open Toml

variable {config : ClientConfig} {ports : List UInt16}

/-- A section name that is written as the name for some port is formatted. -/
def Canonical (name key : Str) : Prop := ∃ port, key = name ++ showPort port

theorem sectionPort_eq_none_of_not_prefix {name key : Str} (h : ¬ name <+: key) :
    sectionPort name key = none := by
  unfold sectionPort stripPrefix
  rw [if_neg h, Option.bind_none]

/-- The check passes over names that do not parse. -/
theorem checkListed_eq_ok_iff {name key : Str} {message : Str → UInt16 → Str} :
    checkListed name ports message key = .ok () ↔ ∀ port ∈ sectionPort name key, port ∈ ports := by
  unfold checkListed
  cases sectionPort name key with
  | none => simp
  | some port => by_cases h : port ∈ ports <;> simp [h]

theorem checkSection_eq_ok_iff {port : UInt16} :
    checkSection config port = .ok () ↔ upstreamKey port ∈ config.upstreams := by
  unfold checkSection
  by_cases h : upstreamKey port ∈ config.upstreams <;> simp [h]

theorem checkSections_eq_ok_iff (hports : config.listensPort = some ports) :
    checkSections config = .ok () ↔ (∀ port ∈ ports, upstreamKey port ∈ config.upstreams) ∧
      ∀ key ∈ config.upstreams, ∀ port ∈ sectionPort upstreamPrefix key, port ∈ ports := by
  unfold checkSections
  rw [hports]
  dsimp only
  rw [bind_eq_ok_iff, forM_list_eq_ok_iff, forM_list_eq_ok_iff]
  simp only [checkSection_eq_ok_iff, checkListed_eq_ok_iff]
  exact Iff.rfl

theorem checkSslSections_eq_ok_iff (hports : config.listensPort = some ports) :
    checkSslSections config = .ok () ↔
      ∀ key ∈ config.sslPorts, ∀ port ∈ sectionPort sslPrefix key, port ∈ ports := by
  unfold checkSslSections
  rw [hports, forM_option_eq_ok_iff]
  simp only [Option.mem_some_iff, forall_eq', forM_list_eq_ok_iff, checkListed_eq_ok_iff]
  exact Iff.rfl

/-- If the names for sections are canonical, those that pass are the names for listed ports. -/
theorem forall_listed_iff {α : Type} {m : HashMap Str α} {name : Str}
    (hpass : ∀ key ∈ m, ∀ port ∈ sectionPort name key, port ∈ ports) :
    (∀ key ∈ m, name <+: key → ∃ port ∈ ports, key = name ++ showPort port) ↔
      ∀ key ∈ m, name <+: key → Canonical name key := by
  refine forall₂_congr fun key hkey => imp_congr_right fun _ => ?_
  refine ⟨fun ⟨port, _, h⟩ => ⟨port, h⟩, ?_⟩
  rintro ⟨port, rfl⟩
  exact ⟨port, hpass _ hkey port (sectionPort_append name port), rfl⟩

/-- The `upstream_` sections are those of the ports, and the `ssl_` sections are for some of them. -/
def SectionsListed (config : ClientConfig) (ports : List UInt16) : Prop :=
  {key | key ∈ config.upstreams ∧ upstreamPrefix <+: key} =
      {key | ∃ port ∈ ports, key = upstreamKey port} ∧
    ∀ key ∈ config.sslPorts, sslPrefix <+: key → ∃ port ∈ ports, key = sslKey port

/-- **The sections of an accepted service** are those of its ports if and only if the names of all
its sections are canonical. -/
theorem sections_listed_iff (hports : config.listensPort = some ports)
    (hvalid : validateConfig config = .ok ()) :
    SectionsListed config ports ↔
      (∀ key ∈ config.upstreams, upstreamPrefix <+: key → Canonical upstreamPrefix key) ∧
        ∀ key ∈ config.sslPorts, sslPrefix <+: key → Canonical sslPrefix key := by
  obtain ⟨-, -, hsections, -, hssl, -⟩ := validateConfig_eq_ok_iff.mp hvalid
  obtain ⟨hthere, hlisted⟩ := (checkSections_eq_ok_iff hports).mp hsections
  rw [← forall_listed_iff hlisted, ← forall_listed_iff ((checkSslSections_eq_ok_iff hports).mp hssl)]
  refine and_congr_left fun _ => ⟨fun h key hkey hname => ?_, fun h => Set.ext fun key => ⟨?_, ?_⟩⟩
  · have hmem : key ∈ {key | ∃ port ∈ ports, key = upstreamKey port} := h ▸ ⟨hkey, hname⟩
    exact hmem
  · rintro ⟨hkey, hname⟩
    exact h key hkey hname
  · rintro ⟨port, hport, rfl⟩
    exact ⟨hthere port hport, List.prefix_append _ _⟩

/-- A section with the fields that both maps require. -/
def sectionBothWays (port : UInt16) : Toml :=
  .table [("port".toList, .integer port.toNat), ("cert".toList, .string "/a.pem".toList),
    ("key".toList, .string "/a.key".toList)]

/-- `listens_port = [80]` with `[upstream_80]` and `[upstream_080]`. -/
def paddedSection : Table :=
  [("mode".toList, .string "proxy".toList), ("host".toList, .string "a.com".toList),
    ("listens_port".toList, .array [.integer 80]), ("upstream_80".toList, sectionBothWays 3000),
    ("upstream_080".toList, sectionBothWays 3001)]

theorem leftover_paddedSection : leftover paddedSection =
    [("upstream_80".toList, sectionBothWays 3000), ("upstream_080".toList, sectionBothWays 3001)] :=
  rfl

/-- Both sections are in each map, and nothing else. -/
theorem mem_iff_of_paddedSection {α : Type} {read : Toml → Option α} {m : HashMap Str α}
    (hm : readEntries read (leftover paddedSection) = some m) {key : Str} :
    key ∈ m ↔ key = "upstream_80".toList ∨ key = "upstream_080".toList := by
  obtain ⟨hread, hlook⟩ := readEntries_spec hm
  rw [leftover_paddedSection] at hread hlook
  rw [← AList.lookup_isSome, hlook]
  refine ⟨fun h => ?_, ?_⟩
  · obtain ⟨a, ha⟩ := Option.isSome_iff_exists.mp h
    obtain ⟨v, hv, -⟩ := Option.bind_eq_some_iff.mp ha
    have hmem := mem_of_lookup hv
    simp only [List.mem_cons, Prod.mk.injEq, List.not_mem_nil, or_false] at hmem
    exact hmem.imp And.left And.left
  · rintro (rfl | rfl)
    · exact hread _ List.mem_cons_self
    · exact hread _ (List.mem_cons_of_mem _ List.mem_cons_self)

theorem listensPort_of_paddedSection {c : ClientConfig}
    (hc : ClientConfig.ofToml paddedSection = some c) : c.listensPort = some [80] :=
  (ClientConfig.readFrom_of_ofToml hc).listensPort

/-- Both keys name port 80 in the map of upstreams, and no port in the other map. -/
theorem sectionPort_of_paddedSection {key : Str}
    (h : key = "upstream_80".toList ∨ key = "upstream_080".toList) :
    sectionPort upstreamPrefix key = some 80 ∧ sectionPort sslPrefix key = none := by
  rcases h with rfl | rfl
  · exact ⟨sectionPort_append upstreamPrefix 80, sectionPort_eq_none_of_not_prefix (by decide)⟩
  · refine ⟨?_, sectionPort_eq_none_of_not_prefix (by decide)⟩
    have hstrip : stripPrefix upstreamPrefix "upstream_080".toList = some "080".toList :=
      stripPrefix_append upstreamPrefix _
    unfold sectionPort
    rw [hstrip, Option.bind_some]
    simp [parsePort, Nat.ofDigitChars, Char.isDigit, UInt16.size]

theorem serviceHead_paddedSection : ServiceHead paddedSection where
  nodup := by decide
  mode := ⟨_, rfl⟩
  host := Or.inl ⟨⟨_, rfl⟩, rfl⟩
  headers := wellTyped_of_lookup_eq_none rfl
  ssl := rfl

theorem paddedSection_accepted : ∃ c, loadConfig paddedSection = some c := by
  refine (serviceHead_paddedSection.accepted_iff (wellTyped_of_lookup_eq_none rfl) ?_
    (wellTyped_of_lookup_eq_none rfl) fun c hc => ?_).mpr ?_
  · intro v hv
    obtain rfl := Option.some.inj hv
    rfl
  · have hports := listensPort_of_paddedSection hc
    have hread := ClientConfig.readFrom_of_ofToml hc
    refine ⟨?_, ?_, ?_, ?_⟩
    · unfold checkListenPorts
      rw [hread.listenPort, hports]
      rfl
    · refine (checkSections_eq_ok_iff hports).mpr ⟨?_, fun key hkey => ?_⟩
      · intro port hport
        obtain rfl := List.mem_singleton.mp hport
        exact (mem_iff_of_paddedSection hread.upstreams).mpr (Or.inl rfl)
      · rw [(sectionPort_of_paddedSection ((mem_iff_of_paddedSection hread.upstreams).mp hkey)).1]
        simp
    · rw [hread.upstream]
      exact fun u hu => nomatch hu
    · refine (checkSslSections_eq_ok_iff hports).mpr fun key hkey => ?_
      rw [(sectionPort_of_paddedSection ((mem_iff_of_paddedSection hread.sslPorts).mp hkey)).2]
      simp
  · rw [leftover_paddedSection]
    refine List.forall_mem_cons.mpr ⟨?_, List.forall_mem_singleton.mpr ?_⟩
    all_goals
      exact ⟨_, rfl, hasUpstreamFields_iff.mpr ⟨_, rfl, rfl⟩, hasSslFields_iff.mpr ⟨_, rfl, rfl⟩⟩

theorem sections_listed_iff_paddedSection : ∃ c, loadConfig paddedSection = some c ∧
    (SectionsListed c [80] ↔
      (∀ key ∈ c.upstreams, upstreamPrefix <+: key → Canonical upstreamPrefix key) ∧
        ∀ key ∈ c.sslPorts, sslPrefix <+: key → Canonical sslPrefix key) := by
  obtain ⟨c, hc⟩ := paddedSection_accepted
  obtain ⟨hread, hvalid⟩ := loadConfig_eq_some_iff.mp hc
  exact ⟨c, hc, sections_listed_iff (listensPort_of_paddedSection hread) hvalid⟩

/-- `[upstream_080]` is accepted beside `[upstream_80]`. -/
theorem sections_not_listed : ¬ ∀ config ports, config.listensPort = some ports →
    validateConfig config = .ok () → SectionsListed config ports := by
  intro hall
  obtain ⟨c, hc⟩ := paddedSection_accepted
  obtain ⟨hread, hvalid⟩ := loadConfig_eq_some_iff.mp hc
  have hlisted := hall c [80] (listensPort_of_paddedSection hread) hvalid
  have hups := (ClientConfig.readFrom_of_ofToml hread).upstreams
  have hmem : "upstream_080".toList ∈ {key | ∃ port ∈ [80], key = upstreamKey port} :=
    hlisted.1 ▸ ⟨(mem_iff_of_paddedSection hups).mpr (Or.inr rfl), by decide⟩
  obtain ⟨port, hport, hkey⟩ := hmem
  obtain rfl := List.mem_singleton.mp hport
  exact absurd hkey (by decide)

end Scety
