import Scety.Config.Limitation
import Scety.Config.Toml

/-!
# `get_scety_config`: the settings file

How `scety.toml` is read.  A section that is missing has its defaults, a key of the wrong type fails the
whole file, and a text that is no duration is one of five seconds: so a timer is only off where the file
says `-1` (`timers_off_iff`).
-/

namespace Scety

open Toml

namespace Toml

def asI32 : Toml → Option Int32
  | integer n => if -2 ^ 31 ≤ n ∧ n < 2 ^ 31 then some (Int32.ofInt n) else none
  | _ => none

end Toml

def LimitationSection.ofToml : Toml → Option LimitationSection
  | .table t => do
    let ipLimitation ← optionField asI32 t "ip_limitation".toList
    let maxHostLabels ← optionField asI32 t "max_host_labels".toList
    let clientHeadersTimeout ← optionField asString t "client_headers_timeout".toList
    let clientBodyTimeout ← optionField asString t "client_body_timeout".toList
    let clientFullTimeout ← optionField asString t "client_full_timeout".toList
    return { ipLimitation, maxHostLabels, clientHeadersTimeout, clientBodyTimeout, clientFullTimeout }
  | _ => none

def LimitBuffersSection.ofToml : Toml → Option LimitBuffersSection
  | .table t => do
    let clientHeader ← optionField asI32 t "client_header".toList
    return { clientHeader }
  | _ => none

def TlsSection.ofToml : Toml → Option TlsSection
  | .table t => do
    let trustedCaBundle ← optionField asString t "trusted_ca_bundle".toList
    return { trustedCaBundle }
  | _ => none

def GlobalHeadersSection.ofToml : Toml → Option GlobalHeadersSection
  | .table t => do
    let upstream ← optionField (asMap asString) t "upstream".toList
    let response ← optionField (asMap asString) t "response".toList
    return { upstream, response }
  | _ => none

structure TomlConfig where
  limitation : Option LimitationSection
  limitBuffers : Option LimitBuffersSection
  tls : Option TlsSection
  headers : Option GlobalHeadersSection

/-- `toml::from_str` on the entries of the settings file. -/
def TomlConfig.ofToml (file : Table) : Option TomlConfig := do
  let limitation ← optionField LimitationSection.ofToml file "limitation".toList
  let limitBuffers ← optionField LimitBuffersSection.ofToml file "limit_buffers".toList
  let tls ← optionField TlsSection.ofToml file "tls".toList
  let headers ← optionField GlobalHeadersSection.ofToml file "headers".toList
  return { limitation, limitBuffers, tls, headers }

/-- The derived `Default` of the sections. -/
def LimitationSection.default : LimitationSection := ⟨none, none, none, none, none⟩

def LimitBuffersSection.default : LimitBuffersSection := ⟨none⟩

def TlsSection.default : TlsSection := ⟨none⟩

def GlobalHeadersSection.default : GlobalHeadersSection := ⟨none, none⟩

/-- `SCETY_CONFIG_PATH`: whether it exists, and what reading it gives. -/
structure SettingsFile where
  exist : Bool
  content : Except Str Str

/-- The `io::Error` of `get_scety_config`. -/
inductive SettingsError where
  | notFound (message : Str)
  | read (error : Str)
  /-- With the text of the `toml` crate. -/
  | invalidData

section Load

variable (parseToml : Str → Except Str Table) (parseDuration : Str → Option Duration)

/-- `ScetyConfig::new` on the sections of the file, those that are missing by default. -/
def TomlConfig.load (t : TomlConfig) : LoadedConfig :=
  LoadedConfig.new parseDuration (t.limitation.getD .default) (t.limitBuffers.getD .default)
    (t.tls.getD .default) (t.headers.getD .default)

def getScetyConfig (settings : SettingsFile) : Except SettingsError (Option LoadedConfig) :=
  if settings.exist then
    match settings.content with
    | .error e => .error (.read e)
    | .ok content =>
      match parseToml content with
      | .error _ => .error .invalidData
      | .ok file =>
        match TomlConfig.ofToml file with
        | none => .error .invalidData
        | some tomlData => .ok (some (tomlData.load parseDuration))
  else .error (.notFound "File scety.toml is missing!".toList)

/-- The settings can be loaded: the file is there, is readable and is TOML, and `file` are its entries,
with sections of the right types. -/
def UsableSettings (settings : SettingsFile) (file : Table) (t : TomlConfig) : Prop :=
  settings.exist = true ∧ ∃ content, settings.content = .ok content ∧ parseToml content = .ok file ∧
    TomlConfig.ofToml file = some t

variable {parseToml parseDuration}

/-- What is loaded is the settings of a usable file, also of one without sections. -/
theorem getScetyConfig_eq_ok_iff {settings : SettingsFile} {loaded : Option LoadedConfig} :
    getScetyConfig parseToml parseDuration settings = .ok loaded ↔
      ∃ file t, UsableSettings parseToml settings file t ∧ loaded = some (t.load parseDuration) := by
  unfold getScetyConfig UsableSettings
  cases settings.exist with
  | false => simp
  | true =>
    cases settings.content with
    | error e => simp
    | ok content =>
      cases hparse : parseToml content with
      | error e => simp [hparse]
      | ok file =>
        cases hread : TomlConfig.ofToml file with
        | none => simp [hparse, hread]
        | some t => simp [hparse, hread, eq_comm]

/-! ### The timers -/

/-- The text of a key of `[limitation]`. -/
def limitationText (file : Table) (key : Str) : Option Str :=
  match file.lookup "limitation".toList with
  | some (.table t) => (t.lookup key).bind asString
  | _ => none

/-- The texts of the timeouts in a usable file. -/
theorem timeouts_of_ofToml {file : Table} {t : TomlConfig} (h : TomlConfig.ofToml file = some t) :
    (t.limitation.getD .default).clientHeadersTimeout =
        limitationText file "client_headers_timeout".toList ∧
      (t.limitation.getD .default).clientBodyTimeout =
        limitationText file "client_body_timeout".toList ∧
      (t.limitation.getD .default).clientFullTimeout =
        limitationText file "client_full_timeout".toList := by
  obtain ⟨limitation, hlimitation, h⟩ := Option.bind_eq_some_iff.mp h
  obtain ⟨limitBuffers, -, h⟩ := Option.bind_eq_some_iff.mp h
  obtain ⟨tls, -, h⟩ := Option.bind_eq_some_iff.mp h
  obtain ⟨headers, -, h⟩ := Option.bind_eq_some_iff.mp h
  obtain rfl := Option.some.inj h
  have hread := (optionField_eq_some_iff.mp hlimitation).2
  have htyped := (optionField_eq_some_iff.mp hlimitation).1
  unfold limitationText
  dsimp only
  cases hsection : file.lookup "limitation".toList with
  | none =>
    rw [hsection] at hread
    obtain rfl : limitation = none := hread
    exact ⟨rfl, rfl, rfl⟩
  | some v =>
    rw [hsection, Option.bind_some] at hread
    obtain ⟨limits, hsome⟩ := Option.isSome_iff_exists.mp (htyped v hsection)
    rw [hread, hsome]
    cases v with
    | table t =>
      simp only [LimitationSection.ofToml, Option.bind_eq_bind, Option.bind_eq_some_iff,
        optionField_eq_some_iff, Option.pure_def, Option.some.injEq] at hsome
      obtain ⟨_, -, _, -, _, ⟨-, rfl⟩, _, ⟨-, rfl⟩, _, ⟨-, rfl⟩, rfl⟩ := hsome
      exact ⟨rfl, rfl, rfl⟩
    | _ => exact nomatch hsome

/-- The file switches the timeout off. -/
def SaysOff (file : Table) (key : Str) : Prop :=
  ∃ raw, limitationText file key = some raw ∧ trim raw = "-1".toList

theorem parseOptionalTimeout_eq_off_iff {raw : Option Str} :
    parseOptionalTimeout parseDuration raw = some none ↔ ∃ r, raw = some r ∧ trim r = "-1".toList := by
  unfold parseOptionalTimeout
  rw [Option.map_eq_some_iff]
  refine exists_congr fun r => and_congr_right fun _ => ?_
  split_ifs with hoff
  · exact iff_of_true rfl hoff
  · refine iff_of_false ?_ hoff
    cases parseDuration (trim r) <;> simp

theorem finalTimeouts_eq_off_iff {headersRaw bodyRaw fullRaw : Option (Option Duration)} :
    ((finalTimeouts headersRaw bodyRaw fullRaw).1 = none ↔ headersRaw = some none ∨
      (headersRaw = none ∧ bodyRaw = none ∧ fullRaw = some none)) ∧
    ((finalTimeouts headersRaw bodyRaw fullRaw).2.1 = none ↔ bodyRaw = some none ∨
      (headersRaw = none ∧ bodyRaw = none ∧ fullRaw = some none)) := by
  cases headersRaw <;> cases bodyRaw <;> cases fullRaw <;> simp [finalTimeouts, defaultTimeout]

/-- A timeout is off only where the file says so: a text that is no duration, a missing key, section or
value never switches one off. -/
theorem timeouts_off_iff {settings : SettingsFile} {file : Table} {t : TomlConfig}
    (h : UsableSettings parseToml settings file t) :
    let off := limitationText file "client_headers_timeout".toList = none ∧
      limitationText file "client_body_timeout".toList = none ∧
        SaysOff file "client_full_timeout".toList
    ((t.load parseDuration).clientHeadersTimeout = none ↔
      SaysOff file "client_headers_timeout".toList ∨ off) ∧
    ((t.load parseDuration).clientBodyTimeout = none ↔
      SaysOff file "client_body_timeout".toList ∨ off) := by
  intro off
  obtain ⟨-, content, -, -, hread⟩ := h
  obtain ⟨hheaders, hbody, hfull⟩ := timeouts_of_ofToml hread
  have hfinal := @finalTimeouts_eq_off_iff
    (parseOptionalTimeout parseDuration (limitationText file "client_headers_timeout".toList))
    (parseOptionalTimeout parseDuration (limitationText file "client_body_timeout".toList))
    (parseOptionalTimeout parseDuration (limitationText file "client_full_timeout".toList))
  simp only [parseOptionalTimeout_eq_off_iff, parseOptionalTimeout_eq_none_iff] at hfinal
  unfold TomlConfig.load LoadedConfig.new
  dsimp only
  rw [hheaders, hbody, hfull]
  exact hfinal

end Load

end Scety
