import Scety.Bytes
import Scety.Config.Global

/-!
# `config/get_scety_config.rs`: the sections of the settings

`ScetyConfig::new`, which fills the settings from the sections of the file.  Of the three timeouts of
a client the full one counts only if none of the others is set; then both take its value.
-/

namespace Scety

/-- `[limitation]`. -/
structure LimitationSection where
  ipLimitation : Option Int32
  maxHostLabels : Option Int32
  clientHeadersTimeout : Option Str
  clientBodyTimeout : Option Str
  clientFullTimeout : Option Str

/-- `[limit_buffers]`. -/
structure LimitBuffersSection where
  clientHeader : Option Int32

/-- `[tls]`. -/
structure TlsSection where
  trustedCaBundle : Option Str

/-- `[headers]`. -/
structure GlobalHeadersSection where
  upstream : Option (HashMap Str Str)
  response : Option (HashMap Str Str)

/-- The fields of `ScetyConfig` that serving a request does not read are added. -/
structure LoadedConfig extends ScetyConfig where
  ipLimitation : Option Int32
  clientFullTimeout : Option Duration
  clientUseFullTimeout : Bool
  trustedCaBundle : Option Str

/-- `DEFAULT`: five seconds. -/
def defaultTimeout : Duration := 5000000000

section New

-- `humantime::parse_duration`, which is not part of the repository
variable (parseDuration : Str → Option Duration)

/-- `parse_optional_timeout`. -/
def parseOptionalTimeout (raw : Option Str) : Option (Option Duration) :=
  raw.map fun raw =>
    if trim raw = "-1".toList then none
    else
      match parseDuration (trim raw) with
      | some d => some d
      | none => some 5000000000

/-- The match of `ScetyConfig::new`: the timeouts of the head and of the body, and whether the full
timeout is used. -/
def finalTimeouts : (headersRaw bodyRaw fullRaw : Option (Option Duration)) →
    Option Duration × Option Duration × Bool
  | some h, some b, _ => (h, b, false)
  | some h, none, _ => (h, some defaultTimeout, false)
  | none, some b, _ => (some defaultTimeout, b, false)
  | none, none, some f => (f, f, true)
  | none, none, none => (some defaultTimeout, some defaultTimeout, false)

/-- `ScetyConfig::new`. -/
def LoadedConfig.new (limitation : LimitationSection) (limitBuffers : LimitBuffersSection)
    (tls : TlsSection) (headers : GlobalHeadersSection) : LoadedConfig :=
  let headersRaw := parseOptionalTimeout parseDuration limitation.clientHeadersTimeout
  let bodyRaw := parseOptionalTimeout parseDuration limitation.clientBodyTimeout
  let fullRaw := parseOptionalTimeout parseDuration limitation.clientFullTimeout
  let final := finalTimeouts headersRaw bodyRaw fullRaw
  { ipLimitation := some (limitation.ipLimitation.getD 20)
    maxHostLabels := some (limitation.maxHostLabels.getD 20)
    clientHeadersTimeout := final.1
    clientBodyTimeout := final.2.1
    clientFullTimeout := fullRaw.join
    clientUseFullTimeout := final.2.2
    clientHeaderBuffer := some (limitBuffers.clientHeader.getD 16384)
    trustedCaBundle := tls.trustedCaBundle
    globalUpstreamHeaders := headers.upstream.getD ∅
    globalResponseHeaders := headers.response.getD ∅
    clientHeaderBuffer_isSome := rfl }

end New

section Full

variable {parseDuration : Str → Option Duration} {limitation : LimitationSection}
  {limitBuffers : LimitBuffersSection} {tls : TlsSection} {headers : GlobalHeadersSection}

theorem parseOptionalTimeout_eq_none_iff {raw : Option Str} :
    parseOptionalTimeout parseDuration raw = none ↔ raw = none := Option.map_eq_none_iff

/-- The full timeout is used if it is set and neither of the others is. -/
theorem finalTimeouts_full_iff {headersRaw bodyRaw fullRaw : Option (Option Duration)} :
    (finalTimeouts headersRaw bodyRaw fullRaw).2.2 = true ↔
      headersRaw = none ∧ bodyRaw = none ∧ fullRaw ≠ none := by
  cases headersRaw <;> cases bodyRaw <;> cases fullRaw <;> simp [finalTimeouts]

theorem clientUseFullTimeout_iff :
    (LoadedConfig.new parseDuration limitation limitBuffers tls headers).clientUseFullTimeout = true ↔
      limitation.clientHeadersTimeout = none ∧ limitation.clientBodyTimeout = none ∧
        limitation.clientFullTimeout ≠ none := by
  refine finalTimeouts_full_iff.trans ?_
  rw [parseOptionalTimeout_eq_none_iff, parseOptionalTimeout_eq_none_iff, Ne,
    parseOptionalTimeout_eq_none_iff]

/-- The head and the body each get the full timeout. -/
theorem timeouts_of_full {full : Duration}
    (hmode : (LoadedConfig.new parseDuration limitation limitBuffers tls
      headers).clientUseFullTimeout = true)
    (hfull : (LoadedConfig.new parseDuration limitation limitBuffers tls headers).clientFullTimeout =
      some full) :
    (LoadedConfig.new parseDuration limitation limitBuffers tls headers).clientHeadersTimeout =
        some full ∧
      (LoadedConfig.new parseDuration limitation limitBuffers tls headers).clientBodyTimeout =
        some full := by
  obtain ⟨hheaders, hbody, -⟩ := finalTimeouts_full_iff.mp hmode
  have hraw : parseOptionalTimeout parseDuration limitation.clientFullTimeout = some (some full) :=
    Option.join_eq_some_iff.mp hfull
  have hfinal : finalTimeouts (parseOptionalTimeout parseDuration limitation.clientHeadersTimeout)
      (parseOptionalTimeout parseDuration limitation.clientBodyTimeout)
      (parseOptionalTimeout parseDuration limitation.clientFullTimeout) =
        (some full, some full, true) := by
    rw [hheaders, hbody, hraw]
    rfl
  exact ⟨congrArg Prod.fst hfinal, congrArg (fun t => t.2.1) hfinal⟩

end Full

end Scety
