import Scety.Network.GlobalRouter

/-!
# `network/cert_check.rs`: which certificates are checked, and which are served

`check_all_configured_certs` visits the TLS settings of every service.  A listener serves the
settings of the first service on its port that has some.  So the certificate that is checked for a
service is the one served for it if and only if the first settings on the port are manual ones with
that certificate (`checked_cert_served_iff`).
-/

namespace Scety

/-! ### `check_all_configured_certs` -/

def expectedHosts (config : ClientConfig) : List Str :=
  match config.host with
  | some host => [host]
  | none => config.hosts.getD []

/-- `hosts.join(", ")`. -/
def hostsLabel (hosts : List Str) : Str := [',', ' '].intercalate hosts

/-- `check_certificate`, of its label, path, expected hosts and CA bundle. -/
abbrev CertificateCheck := Str → Str → List Str → Option Str → Bool

/-- The two variables of the loop. -/
structure CertTally where
  allOk : Bool
  checked : ℕ

section CheckAll

variable (checkCertificate : CertificateCheck) (extraCaBundle : Option Str)

/-- The closure `check_one`. -/
def checkOne (hosts : List Str) (tally : CertTally) (ssl : SslConfig) : CertTally :=
  if ssl.acme.getD false then tally
  else
    match ssl.cert with
    | some certPath =>
      ⟨tally.allOk && checkCertificate (hostsLabel hosts) certPath hosts extraCaBundle,
        tally.checked + 1⟩
    | none => tally

/-- The TLS settings of a service, in the order in which they are visited. -/
def sslSettings (config : ClientConfig) : List SslConfig :=
  config.ssl.toList ++ config.sslPorts.entries.map (·.2)

/-- The body of the loop over the services. -/
def checkConfig (tally : CertTally) (config : ClientConfig) : CertTally :=
  (sslSettings config).foldl
    (checkOne checkCertificate extraCaBundle (expectedHosts config)) tally

def checkAllConfiguredCerts (configs : List ClientConfig) : Bool :=
  (configs.foldl (checkConfig checkCertificate extraCaBundle) ⟨true, 0⟩).allOk

variable {checkCertificate} {extraCaBundle}

theorem allOk_checkOne {hosts : List Str} {tally : CertTally} {ssl : SslConfig} :
    (checkOne checkCertificate extraCaBundle hosts tally ssl).allOk = true ↔
      tally.allOk = true ∧ (ssl.acme.getD false = false → ∀ certPath ∈ ssl.cert,
        checkCertificate (hostsLabel hosts) certPath hosts extraCaBundle = true) := by
  unfold checkOne
  cases ssl.acme.getD false with
  | true => simp
  | false => cases ssl.cert <;> simp

theorem allOk_checkConfig {tally : CertTally} {config : ClientConfig} :
    (checkConfig checkCertificate extraCaBundle tally config).allOk = true ↔
      tally.allOk = true ∧ ∀ ssl ∈ sslSettings config, ssl.acme.getD false = false →
        ∀ certPath ∈ ssl.cert, checkCertificate (hostsLabel (expectedHosts config)) certPath
          (expectedHosts config) extraCaBundle = true := by
  unfold checkConfig
  generalize sslSettings config = settings
  induction settings generalizing tally with
  | nil => simp
  | cons ssl settings ih =>
    rw [List.foldl_cons, ih, allOk_checkOne, List.forall_mem_cons, and_assoc]

/-- All checks succeed if and only if every manual certificate passes for the hosts of its
service. -/
theorem checkAllConfiguredCerts_iff {configs : List ClientConfig} :
    checkAllConfiguredCerts checkCertificate extraCaBundle configs = true ↔
      ∀ config ∈ configs, ∀ ssl ∈ sslSettings config, ssl.acme.getD false = false →
        ∀ certPath ∈ ssl.cert, checkCertificate (hostsLabel (expectedHosts config)) certPath
          (expectedHosts config) extraCaBundle = true := by
  have hfold : ∀ tally : CertTally,
      (configs.foldl (checkConfig checkCertificate extraCaBundle) tally).allOk = true ↔
        tally.allOk = true ∧ ∀ config ∈ configs, ∀ ssl ∈ sslSettings config,
          ssl.acme.getD false = false → ∀ certPath ∈ ssl.cert,
            checkCertificate (hostsLabel (expectedHosts config)) certPath (expectedHosts config)
              extraCaBundle = true := by
    induction configs with
    | nil => simp
    | cons config configs ih =>
      intro tally
      rw [List.foldl_cons, ih, allOk_checkConfig, List.forall_mem_cons, and_assoc]
  unfold checkAllConfiguredCerts
  rw [hfold]
  simp

end CheckAll

/-! ### What is served -/

/-- The certificate that `load_manual_tls` loads for the mode. -/
def SslMode.certPath : SslMode → Option Str
  | .manual ssl => ssl.cert
  | _ => Option.none

/-- The settings of a service for its port are among those that are checked. -/
theorem sslOf_mem_sslSettings {c : ClientConfig} {port : UInt16} {ssl : SslConfig}
    (h : sslOf port c = some ssl) : ssl ∈ sslSettings c := by
  unfold sslOf at h
  unfold sslSettings
  cases hssl : c.ssl with
  | some own =>
    rw [hssl, Option.some_or] at h
    obtain rfl := Option.some.inj h
    simp
  | none =>
    rw [hssl, Option.none_or] at h
    have hentry := AList.mem_lookup_iff.mp h
    exact List.mem_append_right _ (List.mem_map.mpr ⟨_, hentry, rfl⟩)

/-- Valid manual settings name a certificate. -/
theorem exists_cert_of_validate {c : ClientConfig} (hval : validateConfig c = .ok ())
    {ssl : SslConfig} (hmem : ssl ∈ sslSettings c) (hmanual : ssl.acme ≠ some true) :
    ∃ path, ssl.cert = some path := by
  have hssls : checkSsls c = .ok () := (validateConfig_eq_ok_iff.mp hval).2.2.2.2.2
  unfold checkSsls at hssls
  rw [bind_eq_ok_iff, forM_option_eq_ok_iff, forM_list_eq_ok_iff] at hssls
  have hssl : checkSsl ssl = .ok () := by
    rcases List.mem_append.mp hmem with h | h
    · exact hssls.1 ssl (Option.mem_toList.mp h)
    · obtain ⟨e, he, rfl⟩ := List.mem_map.mp h
      exact inSection_eq_ok_iff.mp (hssls.2 e he)
  rw [checkSsl_eq_ok_iff, if_neg hmanual] at hssl
  exact Option.isSome_iff_exists.mp hssl.1

/-- The mode of a port with TLS serves the certificate of its first settings, if these are
manual. -/
theorem certPath_resolveMode {ssl : SslConfig} {path : Str} :
    (resolveMode ssl).certPath = some path ↔ ssl.acme ≠ some true ∧ ssl.cert = some path := by
  unfold resolveMode
  cases hacme : ssl.acme with
  | none => simp [SslMode.certPath]
  | some b => cases b <;> simp [SslMode.certPath]

/-- **Checked and served certificates**: the manual certificate of a service is checked for its
hosts; the one listener with the service serves the settings that are declared first on the port;
and so the checked certificate is served if and only if these are manual and name it. -/
theorem checked_cert_served_iff (configs : List ClientConfig)
    (hval : ∀ c ∈ configs, validateConfig c = .ok ()) (exposeVersion : Bool) {c : ClientConfig}
    (hc : c ∈ configs) {port : UInt16} (hport : c.listenPort = some port) {ssl : SslConfig}
    (hown : sslOf port c = some ssl) (hmanual : ssl.acme ≠ some true) :
    ∃ path l first, ssl.cert = some path ∧
      (∀ check bundle, checkAllConfiguredCerts check bundle configs = true →
        check (hostsLabel (expectedHosts c)) path (expectedHosts c) bundle = true) ∧
      (∀ l', l' ∈ startListen configs exposeVersion ∧ c ∈ l'.configs ↔ l' = l) ∧ l.port = port ∧
      (configsOn port configs).findSome? (sslOf port) = some first ∧
      l.sslMode = resolveMode first ∧
      (l.sslMode.certPath = some path ↔ first.acme ≠ some true ∧ first.cert = some path) := by
  have hmem := sslOf_mem_sslSettings hown
  obtain ⟨path, hpath⟩ := exists_cert_of_validate (hval c hc) hmem hmanual
  obtain ⟨first, hfirst⟩ :
      ∃ first, (configsOn port configs).findSome? (sslOf port) = some first := by
    refine Option.ne_none_iff_exists'.mp fun hnone => ?_
    have hno := List.findSome?_eq_none_iff.mp hnone c (mem_configsOn.mpr ⟨hc, hport⟩)
    exact absurd (hno.symm.trans hown) (by simp)
  have hmode : resolveSslMode (configsOn port configs) port = resolveMode first := by
    unfold resolveSslMode
    rw [hfirst]
  refine ⟨path, ⟨port, configsOn port configs, exposeVersion, resolveMode first⟩, first, hpath,
    ?_, ?_, rfl, hfirst, rfl, certPath_resolveMode⟩
  · intro check bundle hall
    refine checkAllConfiguredCerts_iff.mp hall c hc ssl hmem ?_ path hpath
    cases hacme : ssl.acme with
    | none => rfl
    | some b =>
      cases b with
      | false => rfl
      | true => exact absurd hacme hmanual
  · intro l'
    rw [mem_startListen_iff hc hport, hmode]

/-- A service on port 443 with its own certificate. -/
def tlsService (host cert : Str) : ClientConfig :=
  ⟨"proxy".toList, some host, none, some 443, none, some ⟨some 3000, none, none⟩, ∅,
    some ⟨some cert, some "/key.pem".toList, none, none, none, none⟩, ∅, none⟩

/-- Two services with certificates of their own. -/
def tlsServices : List ClientConfig :=
  [tlsService "a.com".toList "/a.pem".toList, tlsService "b.com".toList "/b.pem".toList]

theorem tlsServices_valid : ∀ c ∈ tlsServices, validateConfig c = .ok () := by
  intro c hc
  rcases List.mem_cons.mp hc with rfl | hc
  · rfl
  · obtain rfl := List.mem_singleton.mp hc
    rfl

theorem checked_cert_served_iff_first : ∃ path l first,
    (⟨some "/a.pem".toList, some "/key.pem".toList, none, none, none, none⟩ : SslConfig).cert =
        some path ∧
      (∀ check bundle, checkAllConfiguredCerts check bundle tlsServices = true →
        check (hostsLabel ["a.com".toList]) path ["a.com".toList] bundle = true) ∧
      (∀ l', l' ∈ startListen tlsServices false ∧
        tlsService "a.com".toList "/a.pem".toList ∈ l'.configs ↔ l' = l) ∧ l.port = 443 ∧
      (configsOn 443 tlsServices).findSome? (sslOf 443) = some first ∧
      l.sslMode = resolveMode first ∧
      (l.sslMode.certPath = some path ↔ first.acme ≠ some true ∧ first.cert = some path) :=
  checked_cert_served_iff tlsServices tlsServices_valid false List.mem_cons_self rfl rfl (by decide)

/-- The certificate of the second service is checked, and that of the first is served. -/
theorem checked_cert_not_served : ¬ ∀ (configs : List ClientConfig),
    (∀ c ∈ configs, validateConfig c = .ok ()) → ∀ (exposeVersion : Bool) (c : ClientConfig),
      c ∈ configs → ∀ (port : UInt16), c.listenPort = some port → ∀ (ssl : SslConfig),
        sslOf port c = some ssl → ssl.acme ≠ some true →
          ∃ l ∈ startListen configs exposeVersion, c ∈ l.configs ∧ l.sslMode.certPath = ssl.cert := by
  intro hall
  obtain ⟨l, hl, hmem, hcert⟩ := hall tlsServices tlsServices_valid false
    (tlsService "b.com".toList "/b.pem".toList) (by simp [tlsServices]) 443 rfl _ rfl (by decide)
  obtain rfl := (mem_startListen_iff (by simp [tlsServices]) rfl).mp ⟨hl, hmem⟩
  exact absurd hcert (by decide)

end Scety
