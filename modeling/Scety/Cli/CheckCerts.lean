import Scety.Cli.Run
import Scety.Network.CheckCertificate

/-!
# `cli/commands/check_certs.rs`: what a check before the start is worth

`scety check-certs` reads the files without validating them, so it checks at least the certificates that
`run` is going to check, with the same bundle: what the listeners serve has been checked, and the check
that `run` makes itself can only find what the time in between has changed.
-/

namespace Scety

inductive CheckCertsError where
  | settings (error : SettingsError)
  | message (text : Str)

section Clocks

variable {Roots Verifier ServerName : Type}

/-- What `ASN1Time::now()` and `UnixTime::now()` say. -/
structure ClockReading where
  now : ℤ
  unixNow : ℤ

/-- The same files and libraries at another time. -/
def CertWorld.atTime (w : CertWorld Roots Verifier ServerName) (t : ClockReading) :
    CertWorld Roots Verifier ServerName :=
  { w with now := t.now, unixNow := t.unixNow }

/-- `check_all_configured_certs`, which reads the clocks anew for each certificate: `clocks` says what it
reads for the first, the second, and so on. -/
def checkAllConfiguredCertsAt (w : CertWorld Roots Verifier ServerName) (clocks : ℕ → ClockReading)
    (configs : List ClientConfig) (extraCaBundle : Option Str) : Bool :=
  (configs.foldl (fun tally config => (sslSettings config).foldl (fun tally ssl =>
    checkOne (checkCertificate (w.atTime (clocks tally.checked))) extraCaBundle (expectedHosts config)
      tally ssl) tally) ⟨true, 0⟩).allOk

/-- The certificates that are checked, in turn, each with its service. -/
def certChecks (configs : List ClientConfig) : List (Str × ClientConfig) :=
  configs.flatMap fun config => (sslSettings config).flatMap fun ssl =>
    if ssl.acme.getD false then [] else ssl.cert.toList.map fun certPath => (certPath, config)

theorem mem_certChecks_iff {configs : List ClientConfig} {certPath : Str} {config : ClientConfig} :
    (certPath, config) ∈ certChecks configs ↔ config ∈ configs ∧ ∃ ssl ∈ sslSettings config,
      ssl.acme.getD false = false ∧ ssl.cert = some certPath := by
  unfold certChecks
  simp only [List.mem_flatMap]
  refine ⟨?_, ?_⟩
  · rintro ⟨config', hconfig, ssl, hssl, hmem⟩
    split_ifs at hmem with hacme
    · exact absurd hmem List.not_mem_nil
    · obtain ⟨certPath', hcert, heq⟩ := List.mem_map.mp hmem
      obtain ⟨rfl, rfl⟩ := Prod.mk.inj heq
      exact ⟨hconfig, ssl, hssl, Bool.not_eq_true _ ▸ hacme, Option.mem_toList.mp hcert⟩
  · rintro ⟨hconfig, ssl, hssl, hacme, hcert⟩
    refine ⟨config, hconfig, ssl, hssl, ?_⟩
    rw [hacme, hcert]
    exact List.mem_singleton.mpr rfl

/-- One check, of a certificate for its service. -/
def passesAt (w : CertWorld Roots Verifier ServerName) (t : ClockReading) (extraCaBundle : Option Str)
    (c : Str × ClientConfig) : Bool :=
  checkCertificate (w.atTime t) (hostsLabel (expectedHosts c.2)) c.1 (expectedHosts c.2) extraCaBundle

/-- A step of the loop, as one of the certificates that are checked. -/
theorem checkOne_eq_foldl (w : CertWorld Roots Verifier ServerName) (clocks : ℕ → ClockReading)
    (bundle : Option Str) (config : ClientConfig) (ssl : SslConfig) (tally : CertTally) :
    checkOne (checkCertificate (w.atTime (clocks tally.checked))) bundle (expectedHosts config) tally ssl =
      (if ssl.acme.getD false then [] else ssl.cert.toList.map fun certPath => (certPath, config)).foldl
        (fun tally c => ⟨tally.allOk && passesAt w (clocks tally.checked) bundle c, tally.checked + 1⟩)
        tally := by
  unfold checkOne
  cases ssl.acme.getD false with
  | true => rfl
  | false => cases ssl.cert <;> rfl

/-- All checks succeed if and only if each does, at its time. -/
theorem checkAllConfiguredCertsAt_iff {w : CertWorld Roots Verifier ServerName}
    {clocks : ℕ → ClockReading} {configs : List ClientConfig} {bundle : Option Str} :
    checkAllConfiguredCertsAt w clocks configs bundle = true ↔
      ∀ k c, (certChecks configs)[k]? = some c → passesAt w (clocks k) bundle c = true := by
  have hfold : ∀ (checks : List (Str × ClientConfig)) (tally : CertTally),
      (checks.foldl (fun tally c => (⟨tally.allOk && passesAt w (clocks tally.checked) bundle c,
        tally.checked + 1⟩ : CertTally)) tally).allOk = true ↔ tally.allOk = true ∧
          ∀ k c, checks[k]? = some c → passesAt w (clocks (tally.checked + k)) bundle c = true := by
    intro checks
    induction checks with
    | nil => simp
    | cons c checks ih =>
      intro tally
      rw [List.foldl_cons, ih, Bool.and_eq_true, and_assoc]
      refine and_congr_right' ⟨?_, ?_⟩
      · rintro ⟨hfirst, hrest⟩ (_ | k) c' hc'
        · obtain rfl := Option.some.inj hc'
          exact hfirst
        · rw [show tally.checked + (k + 1) = tally.checked + 1 + k by omega]
          exact hrest k c' hc'
      · intro hall
        refine ⟨hall 0 c rfl, fun k c' hc' => ?_⟩
        have hnext := hall (k + 1) c' hc'
        rwa [show tally.checked + (k + 1) = tally.checked + 1 + k by omega] at hnext
  unfold checkAllConfiguredCertsAt
  simp only [checkOne_eq_foldl, ← List.foldl_flatMap]
  rw [show (configs.flatMap fun config => (sslSettings config).flatMap fun ssl =>
    if ssl.acme.getD false then [] else ssl.cert.toList.map fun certPath => (certPath, config)) =
      certChecks configs from rfl, hfold]
  simp

/-- The checks whose result the time may change. -/
def TimeChecks (w : CertWorld Roots Verifier ServerName) (leaf : Der) (intermediates : List Der)
    (cert : X509Certificate) (hosts : List Str) (bundle : Option Str) : Prop :=
  notExpiring w cert = true ∧ checkTrustChain w leaf intermediates hosts bundle = .ok ()

/-- A certificate that passed at one time passes at another if and only if its time checks do. -/
theorem checkCertificate_atTime_iff {w : CertWorld Roots Verifier ServerName} {t t' : ClockReading}
    {label certPath : Str} {hosts : List Str} {bundle : Option Str}
    (hpassed : checkCertificate (w.atTime t) label certPath hosts bundle = true) :
    checkCertificate (w.atTime t') label certPath hosts bundle = true ↔
      ∀ leaf intermediates cert, LeafAt w certPath leaf intermediates cert →
        TimeChecks (w.atTime t') leaf intermediates cert hosts bundle := by
  refine ⟨?_, ?_⟩
  · intro hok leaf intermediates cert hleaf
    have hleaf' : LeafAt (w.atTime t') certPath leaf intermediates cert := hleaf
    obtain ⟨⟨hdate, -, hchain⟩, -⟩ := (checkCertificate_iff hleaf').mp hok
    exact ⟨hdate, hchain⟩
  · intro htime
    by_cases hleaf : ∃ leaf intermediates cert, LeafAt (w.atTime t) certPath leaf intermediates cert
    · obtain ⟨leaf, intermediates, cert, hleaf⟩ := hleaf
      have hleaf' : LeafAt (w.atTime t') certPath leaf intermediates cert := hleaf
      obtain ⟨⟨-, hself, -⟩, hsan⟩ := (checkCertificate_iff hleaf).mp hpassed
      obtain ⟨hdate, hchain⟩ := htime leaf intermediates cert hleaf
      exact (checkCertificate_iff hleaf').mpr ⟨⟨hdate, hself, hchain⟩, hsan⟩
    · rw [checkCertificate_of_not_leafAt hleaf] at hpassed
      exact nomatch hpassed

end Clocks

section CheckCerts

variable (parseToml : Str → Except Str Table) (parseDuration : Str → Option Duration)
  (checkAll : List ClientConfig → Option Str → Bool)

/-- `check_certs`; `checkAll` is `check_all_configured_certs` at the time of the command. -/
def checkCerts (m : Machine) : Except CheckCertsError Unit :=
  match getScetyConfig parseToml parseDuration m.settings with
  | .error e => .error (.settings e)
  | .ok loaded =>
    let trustedCaBundle := loaded.bind fun c => c.trustedCaBundle
    let allConfigs := getAllConfigs parseToml m.services (some false)
    if allConfigs.isEmpty then
      .error (.message "No valid configuration files found".toList)
    else if checkAll allConfigs trustedCaBundle then .ok ()
    else .error (.message "Issues with TLS certificates detected, see warnings above".toList)

variable {parseToml parseDuration checkAll} {m : Machine} {exposeVersion : Bool}
  {cfg : LoadedConfig} {listeners : List Listener}

theorem checkCerts_eq_ok_iff : checkCerts parseToml parseDuration checkAll m = .ok () ↔
    ∃ cfg, getScetyConfig parseToml parseDuration m.settings = .ok (some cfg) ∧
      getAllConfigs parseToml m.services (some false) ≠ [] ∧
      checkAll (getAllConfigs parseToml m.services (some false)) cfg.trustedCaBundle = true := by
  unfold checkCerts
  cases hload : getScetyConfig parseToml parseDuration m.settings with
  | error e => exact iff_of_false (fun h => nomatch h) fun ⟨cfg, h, _⟩ => nomatch h
  | ok loaded =>
    obtain ⟨file, t, -, rfl⟩ := getScetyConfig_eq_ok_iff.mp hload
    dsimp only [Option.bind_some]
    cases hconfigs : getAllConfigs parseToml m.services (some false) with
    | nil => exact iff_of_false (fun h => nomatch h) fun ⟨cfg, _, h, _⟩ => h rfl
    | cons c cs =>
      rw [if_neg (by simp)]
      refine ⟨?_, ?_⟩
      · intro h
        refine ⟨_, rfl, List.cons_ne_nil _ _, ?_⟩
        split_ifs at h with hok
        exact hok
      · rintro ⟨cfg, hcfg, -, hok⟩
        obtain rfl := Option.some.inj (Except.ok.inj hcfg)
        exact if_pos hok

/-- What `run` listens with. -/
theorem run_eq_listen (h : run parseToml parseDuration m exposeVersion = .listen cfg listeners) :
    getScetyConfig parseToml parseDuration m.settings = .ok (some cfg) ∧
      listeners = startListen (getAllConfigs parseToml m.services none) exposeVersion := by
  have hsystemd : m.invocationId = true := by
    cases hid : m.invocationId with
    | true => rfl
    | false =>
      unfold run at h
      rw [hid] at h
      exact nomatch h
  rcases @run_cases parseToml parseDuration m exposeVersion hsystemd with
    ⟨file, t, -, hload⟩ | ⟨-, e, hfailed⟩
  · rcases @run_of_ok parseToml parseDuration m exposeVersion hsystemd _ hload with
      ⟨-, hrun⟩ | ⟨-, hrun⟩
    · obtain ⟨rfl, rfl⟩ := RunOutcome.listen.inj (hrun.symm.trans h)
      exact ⟨hload, rfl⟩
    · rcases hrun with ⟨-, hrun⟩ | ⟨e, -, hrun⟩
      · exact nomatch hrun.symm.trans h
      · exact nomatch hrun.symm.trans h
  · exact nomatch hfailed.symm.trans h

/-- A valid file is loaded without validation too. -/
theorem mem_getAllConfigs_of_validated {config : ClientConfig}
    (h : config ∈ getAllConfigs parseToml m.services none) :
    config ∈ getAllConfigs parseToml m.services (some false) ∧ validateConfig config = .ok () := by
  rw [getAllConfigs_eq, Option.getD_none] at h
  obtain ⟨conf, hconf, hload⟩ := List.mem_filterMap.mp h
  obtain ⟨content, file, hcontent, hparse, hread, hvalid⟩ := loadFile_eq_some_iff.mp hload
  rw [getAllConfigs_eq, Option.getD_some]
  refine ⟨List.mem_filterMap.mpr ⟨conf, hconf, ?_⟩, hvalid⟩
  unfold loadFile
  rw [hcontent]
  dsimp only
  rw [hparse]
  dsimp only
  rw [hread]
  exact if_neg Bool.false_ne_true

/-- The settings that a listener serves are those of one of its services. -/
theorem exists_config_of_manual {l : Listener}
    (hl : l ∈ startListen (getAllConfigs parseToml m.services none) exposeVersion) {ssl : SslConfig}
    (hmanual : l.sslMode = .manual ssl) :
    ∃ config ∈ getAllConfigs parseToml m.services none, config ∈ l.configs ∧
      sslOf l.port config = some ssl ∧ ssl.acme ≠ some true := by
  have hconfigs : l.configs = configsOn l.port (getAllConfigs parseToml m.services none) :=
    congrArg Listener.configs (eq_of_mem_startListen hl)
  have hmode : l.sslMode =
      resolveSslMode (configsOn l.port (getAllConfigs parseToml m.services none)) l.port :=
    congrArg Listener.sslMode (eq_of_mem_startListen hl)
  rw [hmode] at hmanual
  have htls : resolveSslMode (configsOn l.port (getAllConfigs parseToml m.services none)) l.port ≠
      .none := by
    rw [hmanual]
    simp
  obtain ⟨before, c, after, ssl', hsplit, -, hdeclares, hfirst⟩ := exists_first_of_resolveSslMode htls
  have hc : c ∈ configsOn l.port (getAllConfigs parseToml m.services none) := by
    rw [hsplit]
    simp
  rw [hmanual] at hfirst
  split_ifs at hfirst with hacme
  obtain rfl := SslMode.manual.inj hfirst
  refine ⟨c, (mem_configsOn.mp hc).1, ?_, sslOf_eq_some_iff.mpr hdeclares, hacme⟩
  rw [hconfigs]
  exact hc

variable {Roots Verifier ServerName : Type} {w : CertWorld Roots Verifier ServerName}
  {before : ℕ → ClockReading}

/-- What `scety check-certs` has found of the files with which `run` listens. -/
theorem passed_of_checkCerts
    (hcheck : checkCerts parseToml parseDuration (checkAllConfiguredCertsAt w before) m = .ok ())
    (hload : getScetyConfig parseToml parseDuration m.settings = .ok (some cfg)) {c : Str × ClientConfig}
    (hc : c ∈ certChecks (getAllConfigs parseToml m.services none)) :
    ∃ k, (certChecks (getAllConfigs parseToml m.services (some false)))[k]? = some c ∧
      passesAt w (before k) cfg.trustedCaBundle c = true := by
  obtain ⟨cfg', hload', -, hall⟩ := checkCerts_eq_ok_iff.mp hcheck
  obtain rfl := Option.some.inj (Except.ok.inj (hload.symm.trans hload'))
  obtain ⟨hconfig, hssl⟩ := mem_certChecks_iff.mp hc
  obtain ⟨k, hk⟩ := List.mem_iff_getElem?.mp
    (mem_certChecks_iff.mpr ⟨(mem_getAllConfigs_of_validated hconfig).1, hssl⟩)
  exact ⟨k, hk, checkAllConfiguredCertsAt_iff.mp hall k c hk⟩

/-- **A check before the start**: if `scety check-certs` succeeds on the files with which `run` listens,
the check of `run` itself, later, finds a certificate if and only if its end has come near or its chain
is no longer accepted; and at the time of `check-certs` the certificate of every listener with manual TLS
could be read, passed all checks for the hosts of a service of the listener, and covered one of them. -/
theorem check_certs_before_run (w : CertWorld Roots Verifier ServerName)
    (before after : ℕ → ClockReading)
    (hcheck : checkCerts parseToml parseDuration (checkAllConfiguredCertsAt w before) m = .ok ())
    (hrun : run parseToml parseDuration m exposeVersion = .listen cfg listeners) :
    (checkAllConfiguredCertsAt w after (getAllConfigs parseToml m.services none) cfg.trustedCaBundle =
        true ↔
      ∀ k certPath config,
        (certChecks (getAllConfigs parseToml m.services none))[k]? = some (certPath, config) →
          ∀ leaf intermediates cert, LeafAt w certPath leaf intermediates cert →
            TimeChecks (w.atTime (after k)) leaf intermediates cert (expectedHosts config)
              cfg.trustedCaBundle) ∧
      ∀ l ∈ listeners, ∀ ssl, l.sslMode = .manual ssl →
        ∃ certPath leaf intermediates cert, ssl.cert = some certPath ∧
          LeafAt w certPath leaf intermediates cert ∧ ∃ config ∈ l.configs,
            sslOf l.port config = some ssl ∧ ∃ k,
              (certChecks (getAllConfigs parseToml m.services (some false)))[k]? =
                some (certPath, config) ∧
              OtherChecks (w.atTime (before k)) leaf intermediates cert (expectedHosts config)
                cfg.trustedCaBundle ∧
              ∃ h ∈ expectedHosts config, HasSan cert h := by
  obtain ⟨hload, rfl⟩ := run_eq_listen hrun
  refine ⟨?_, ?_⟩
  · rw [checkAllConfiguredCertsAt_iff, forall_congr']
    intro k
    rw [Prod.forall]
    refine forall₂_congr fun certPath config => forall_congr' fun hk => ?_
    obtain ⟨k', -, hpassed⟩ := passed_of_checkCerts hcheck hload (List.mem_of_getElem? hk)
    exact checkCertificate_atTime_iff hpassed
  · intro l hl ssl hmanual
    obtain ⟨config, hconfig, hmem, hssl, hacme⟩ := exists_config_of_manual hl hmanual
    have hsettings := sslOf_mem_sslSettings hssl
    have hvalid := (mem_getAllConfigs_of_validated hconfig).2
    obtain ⟨certPath, hcert⟩ := exists_cert_of_validate hvalid hsettings hacme
    have hfalse : ssl.acme.getD false = false := by
      cases hssl' : ssl.acme with
      | none => rfl
      | some acme =>
        cases acme with
        | false => rfl
        | true => exact absurd hssl' hacme
    obtain ⟨k, hk, hpassed⟩ := passed_of_checkCerts hcheck hload
      (mem_certChecks_iff.mpr ⟨hconfig, ssl, hsettings, hfalse, hcert⟩)
    by_cases hleaf : ∃ leaf intermediates cert,
        LeafAt (w.atTime (before k)) certPath leaf intermediates cert
    · obtain ⟨leaf, intermediates, cert, hleaf⟩ := hleaf
      obtain ⟨hother, hsan⟩ := (checkCertificate_iff hleaf).mp hpassed
      exact ⟨certPath, leaf, intermediates, cert, hcert, hleaf, config, hmem, hssl, k, hk, hother, hsan⟩
    · have hfailed : passesAt w (before k) cfg.trustedCaBundle (certPath, config) = false :=
        checkCertificate_of_not_leafAt hleaf
      rw [hfailed] at hpassed
      exact nomatch hpassed

end CheckCerts

/-- An empty settings file, and the service of `tlsFile`. -/
def tlsMachine : Machine := ⟨true, ⟨true, .ok "# empty".toList⟩, oneService, .ok ()⟩

def parseTls (content : Str) : Except Str Table := if content = [] then .ok tlsFile else .ok []

theorem exists_parseTls_config : ∃ config, loadConfig tlsFile = some config ∧
    getAllConfigs parseTls oneService (some false) = [config] ∧
    expectedHosts config = ["a.com".toList] ∧ sslSettings config =
      [⟨some "/a.pem".toList, some "/a.key".toList, none, none, none, none⟩] := by
  obtain ⟨config, hread, hvalid, hhosts, hssl⟩ : ∃ config, ClientConfig.ofToml tlsFile = some config ∧
      validateConfig config = .ok () ∧ expectedHosts config = ["a.com".toList] ∧
      sslSettings config =
        [⟨some "/a.pem".toList, some "/a.key".toList, none, none, none, none⟩] :=
    ⟨⟨_, _, _, _, _, _, _, _, _, _⟩, ClientConfig.ofToml_eq_some_iff.mpr
      ⟨rfl, rfl, rfl, rfl, rfl, rfl, rfl, rfl, rfl, rfl⟩, rfl, rfl, rfl⟩
  have hload : loadFile parseTls oneService false "services/a.toml".toList = some config := hread
  refine ⟨config, loadConfig_eq_some_iff.mpr ⟨hread, hvalid⟩, ?_, hhosts, hssl⟩
  rw [getAllConfigs_eq]
  show List.filterMap (loadFile parseTls oneService false) ["services/a.toml".toList] = _
  rw [List.filterMap_cons_some hload, List.filterMap_nil]

/-- Seven weeks are between the check and the start. -/
theorem check_certs_before_run_one : ∃ cfg listeners,
    run parseTls (fun _ => none) tlsMachine true = .listen cfg listeners ∧
      checkAllConfiguredCertsAt (trustedFor ["a.com".toList]) (fun _ => ⟨4233600, 4233600⟩)
        (getAllConfigs parseTls oneService none) cfg.trustedCaBundle = true := by
  obtain ⟨config, hload, hconfigs, hhosts, hssl⟩ := exists_parseTls_config
  have husable : UsableSettings parseTls tlsMachine.settings [] ⟨none, none, none, none⟩ :=
    ⟨rfl, _, rfl, if_neg (by decide), rfl⟩
  have hloaded := (@getScetyConfig_eq_ok_iff parseTls (fun _ => none) _ _).mpr ⟨[], _, husable, rfl⟩
  have hstarts : check parseTls oneService = .ok () :=
    check_eq_ok_iff.mpr ⟨_, List.mem_cons_self, config, validFile_iff.mpr ⟨[], _, rfl, rfl, hload⟩⟩
  have hrun := (@run_of_ok parseTls _ tlsMachine true rfl _ hloaded).resolve_right
    fun h => h.1 hstarts
  have hchecks : ∀ c ∈ certChecks (getAllConfigs parseTls oneService (some false)),
      c = ("/a.pem".toList, config) := by
    rintro ⟨certPath, config'⟩ hc
    rw [hconfigs] at hc
    obtain ⟨hconfig', ssl, hmem, -, hcert⟩ := mem_certChecks_iff.mp hc
    obtain rfl := List.mem_singleton.mp hconfig'
    rw [hssl] at hmem
    obtain rfl := List.mem_singleton.mp hmem
    rw [← Option.some.inj hcert]
  have hall : checkAllConfiguredCertsAt (trustedFor ["a.com".toList]) (fun _ => ⟨0, 0⟩)
      (getAllConfigs parseTls oneService (some false)) none = true := by
    rw [checkAllConfiguredCertsAt_iff]
    intro k c hk
    rw [hchecks c (List.mem_of_getElem? hk)]
    unfold passesAt
    rw [hhosts]
    show checkCertificate ((trustedFor ["a.com".toList]).atTime ⟨0, 0⟩) (hostsLabel ["a.com".toList])
      "/a.pem".toList ["a.com".toList] none = true
    decide
  have hcheck : checkCerts parseTls (fun _ => none)
      (checkAllConfiguredCertsAt (trustedFor ["a.com".toList]) fun _ => ⟨0, 0⟩) tlsMachine = .ok () :=
    checkCerts_eq_ok_iff.mpr ⟨_, hloaded, by
      show getAllConfigs parseTls oneService (some false) ≠ []
      rw [hconfigs]
      exact List.cons_ne_nil _ _, hall⟩
  refine ⟨_, _, hrun.2, (check_certs_before_run (trustedFor ["a.com".toList]) (fun _ => ⟨0, 0⟩)
    (fun _ => ⟨4233600, 4233600⟩) hcheck hrun.2).1.mpr ?_⟩
  intro k certPath config' hk leaf intermediates cert hleaf
  obtain ⟨hconfig', hcert⟩ := mem_certChecks_iff.mp (List.mem_of_getElem? hk)
  have hc := hchecks _ (mem_certChecks_iff.mpr ⟨(mem_getAllConfigs_of_validated hconfig').1, hcert⟩)
  obtain ⟨rfl, rfl⟩ := Prod.mk.inj hc
  rw [hhosts]
  obtain ⟨content, -, hpem, hder⟩ := hleaf
  obtain ⟨rfl, rfl⟩ := List.cons.inj (Except.ok.inj hpem)
  obtain rfl := Except.ok.inj hder
  exact ⟨by decide, by decide⟩

end Scety
