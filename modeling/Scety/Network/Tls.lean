import Scety.Cli.Install
import Scety.Config.ServiceFiles
import Scety.Network.GlobalRouter

/-!
# `network/tls.rs`: the TLS settings of a listener

`load_manual_tls` and `build_acme_config` read fields that a service may leave out.  Validation has
already asked for them: a listener of validated services fails to load its certificate only because of
the files, and its ACME settings need none of the defaults but that of the cache.
-/

namespace Scety

/-- `rustls_pki_types::PrivateKeyDer`. -/
inductive PrivateKeyDer where
  | pkcs1 (der : Bytes)
  | sec1 (der : Bytes)
  | pkcs8 (der : Bytes)

/-- The PEM files and `rustls`. -/
structure TlsStack where
  /-- `CertificateDer::pem_file_iter`. -/
  pemFileIter : Str → Except Str (List (Except Str Bytes))
  /-- `PrivateKeyDer::from_pem_file`. -/
  fromPemFile : Str → Except Str PrivateKeyDer
  /-- `with_single_cert`: an error, or none. -/
  withSingleCert : List Bytes → PrivateKeyDer → Except Str Unit

/-- A `TlsAcceptor`: the certificate chain and the key that it serves. -/
structure TlsAcceptor where
  certs : List Bytes
  key : PrivateKeyDer

section Load

variable (tls : TlsStack)

/-- `iter.collect::<Result<_, _>>()`. -/
def collectResults : List (Except Str Bytes) → Except Str (List Bytes)
  | [] => .ok []
  | r :: rs => do
    let cert ← r
    let certs ← collectResults rs
    return cert :: certs

def loadCerts (path : Str) : Except Str (List Bytes) := do
  let items ← tls.pemFileIter path
  let certs ← collectResults items
  if certs.isEmpty then .error ("No certificates found in ".toList ++ path)
  else .ok certs

def loadPrivateKey (path : Str) : Except Str PrivateKeyDer := tls.fromPemFile path

/-- `o.ok_or(message)`. -/
def okOr (o : Option Str) (message : Str) : Except Str Str :=
  match o with
  | some s => .ok s
  | none => .error message

def loadManualTls (ssl : SslConfig) : Except Str TlsAcceptor := do
  let certPath ← okOr ssl.cert "Missing cert path".toList
  let keyPath ← okOr ssl.key "Missing key path".toList
  let certs ← loadCerts tls certPath
  let key ← loadPrivateKey tls keyPath
  tls.withSingleCert certs key
  return ⟨certs, key⟩

end Load

/-- `tokio_rustls_acme::AcmeConfig`, with what `build_acme_config` sets. -/
structure AcmeConfig where
  domains : List Str
  contact : List Str
  cache : Str

def buildAcmeConfig (ssl : SslConfig) : AcmeConfig :=
  let email := ssl.acmeEmail.getD []
  let domains := ssl.acmeDomains.getD []
  ⟨domains, ["mailto:".toList ++ email], buildAcmeConfigCache ssl⟩

/-! ### When a certificate is loaded -/

section Results

variable {tls : TlsStack}

theorem except_bind_eq_ok_iff {α β : Type} {x : Except Str α} {f : α → Except Str β} {b : β} :
    (x >>= f) = .ok b ↔ ∃ a, x = .ok a ∧ f a = .ok b := by
  cases x with
  | error e => exact iff_of_false (fun h => nomatch h) (by simp)
  | ok a => exact ⟨fun h => ⟨a, rfl, h⟩, fun ⟨_, ha, h⟩ => Except.ok.inj ha ▸ h⟩

theorem collectResults_eq_ok_iff {rs : List (Except Str Bytes)} {certs : List Bytes} :
    collectResults rs = .ok certs ↔ rs = certs.map .ok := by
  induction rs generalizing certs with
  | nil =>
    unfold collectResults
    cases certs <;> simp
  | cons r rs ih =>
    rw [collectResults, except_bind_eq_ok_iff]
    simp only [except_bind_eq_ok_iff, ih]
    cases certs with
    | nil => simp [pure, Except.pure]
    | cons cert certs =>
      simp only [pure, Except.pure, Except.ok.injEq, List.cons.injEq, List.map_cons]
      refine ⟨?_, ?_⟩
      · rintro ⟨c, rfl, cs, rfl, rfl, rfl⟩
        exact ⟨rfl, rfl⟩
      · rintro ⟨rfl, rfl⟩
        exact ⟨cert, rfl, certs, rfl, rfl, rfl⟩

theorem loadCerts_eq_ok_iff {path : Str} {certs : List Bytes} :
    loadCerts tls path = .ok certs ↔ tls.pemFileIter path = .ok (certs.map .ok) ∧ certs ≠ [] := by
  unfold loadCerts
  simp only [except_bind_eq_ok_iff, collectResults_eq_ok_iff]
  refine ⟨?_, ?_⟩
  · rintro ⟨items, hitems, cs, rfl, hcs⟩
    cases cs with
    | nil => exact absurd hcs (by simp)
    | cons c cs =>
      obtain rfl := Except.ok.inj hcs
      exact ⟨hitems, by simp⟩
  · rintro ⟨hitems, hne⟩
    refine ⟨_, hitems, certs, rfl, ?_⟩
    cases certs with
    | nil => exact absurd rfl hne
    | cons c cs => rfl

/-- What must be there for a listener to serve a certificate. -/
theorem loadManualTls_eq_ok_iff {ssl : SslConfig} {acceptor : TlsAcceptor} :
    loadManualTls tls ssl = .ok acceptor ↔ ∃ cert key, ssl.cert = some cert ∧ ssl.key = some key ∧
      tls.pemFileIter cert = .ok (acceptor.certs.map .ok) ∧ acceptor.certs ≠ [] ∧
        tls.fromPemFile key = .ok acceptor.key ∧
          tls.withSingleCert acceptor.certs acceptor.key = .ok () := by
  have hok : ∀ {o : Option Str} {message s : Str}, okOr o message = .ok s ↔ o = some s := by
    intro o message s
    cases o <;> simp [okOr]
  unfold loadManualTls loadPrivateKey
  simp only [except_bind_eq_ok_iff, hok, loadCerts_eq_ok_iff]
  refine ⟨?_, ?_⟩
  · rintro ⟨cert, hcert, key, hkey, certs, ⟨hcerts, hne⟩, k, hk, u, hsingle, hacceptor⟩
    obtain rfl := Except.ok.inj hacceptor
    exact ⟨cert, key, hcert, hkey, hcerts, hne, hk, hsingle⟩
  · rintro ⟨cert, key, hcert, hkey, hcerts, hne, hk, hsingle⟩
    exact ⟨cert, hcert, key, hkey, acceptor.certs, ⟨hcerts, hne⟩, acceptor.key, hk, (), hsingle, rfl⟩

/-- The settings that decide the mode of a listener have passed their check. -/
theorem checkSsl_of_resolveSslMode {configs : List ClientConfig} {port : UInt16} {ssl : SslConfig}
    (hvalid : ∀ c ∈ configs, validateConfig c = .ok ())
    (h : resolveSslMode configs port = .manual ssl ∨ resolveSslMode configs port = .acme ssl) :
    checkSsl ssl = .ok () ∧ (resolveSslMode configs port = .acme ssl ↔ ssl.acme = some true) := by
  have htls : resolveSslMode configs port ≠ .none := by
    rintro hnone
    rcases h with h | h <;> exact absurd (hnone.symm.trans h) (by simp)
  obtain ⟨before, c, after, ssl', rfl, -, hdeclares, hmode⟩ := exists_first_of_resolveSslMode htls
  have hssl : ssl' = ssl ∧ (resolveSslMode (before ++ c :: after) port = .acme ssl ↔
      ssl.acme = some true) := by
    rw [hmode] at h ⊢
    split_ifs at h ⊢ with hacme
    · rcases h with h | h
      · exact absurd h (by simp)
      · obtain rfl := SslMode.acme.inj h
        exact ⟨rfl, iff_of_true rfl hacme⟩
    · rcases h with h | h
      · obtain rfl := SslMode.manual.inj h
        exact ⟨rfl, iff_of_false (by simp) hacme⟩
      · exact absurd h (by simp)
  obtain ⟨rfl, hiff⟩ := hssl
  refine ⟨?_, hiff⟩
  obtain ⟨-, -, -, -, -, hssls⟩ := validateConfig_eq_ok_iff.mp (hvalid c (by simp))
  unfold checkSsls at hssls
  rw [bind_eq_ok_iff, forM_option_eq_ok_iff, forM_list_eq_ok_iff] at hssls
  rcases hdeclares with hown | ⟨-, hsection⟩
  · exact hssls.1 ssl' hown
  · exact inSection_eq_ok_iff.mp (hssls.2 ⟨_, ssl'⟩ (AList.mem_lookup_iff.mp hsection))

/-- **Validation covers what TLS needs**: on a listener of validated services a certificate fails to
load only because of the files or of `rustls`, never because a path is missing, and the ACME settings
are those of the service, but for the directory of the cache. -/
theorem tls_settings_complete (tls : TlsStack) (parseToml : Str → Except Str Table) (fs : FileSystem)
    (exposeVersion : Bool) :
    ∀ l ∈ startListen (getAllConfigs parseToml fs none) exposeVersion, ∀ ssl,
      (l.sslMode = .manual ssl → ∃ cert key, ssl.cert = some cert ∧ ssl.key = some key ∧
        ∀ acceptor, loadManualTls tls ssl = .ok acceptor ↔
          tls.pemFileIter cert = .ok (acceptor.certs.map .ok) ∧ acceptor.certs ≠ [] ∧
            tls.fromPemFile key = .ok acceptor.key ∧
              tls.withSingleCert acceptor.certs acceptor.key = .ok ()) ∧
      (l.sslMode = .acme ssl → ∃ email domains, ssl.acmeEmail = some email ∧
        ssl.acmeDomains = some domains ∧ buildAcmeConfig ssl =
          ⟨domains, ["mailto:".toList ++ email], buildAcmeConfigCache ssl⟩) := by
  intro l hl ssl
  have hvalid : ∀ c ∈ configsOn l.port (getAllConfigs parseToml fs none),
      validateConfig c = .ok () := by
    intro c hc
    have hmem := (mem_configsOn.mp hc).1
    rw [getAllConfigs_eq, Option.getD_none] at hmem
    obtain ⟨conf, -, hload⟩ := List.mem_filterMap.mp hmem
    obtain ⟨content, file, -, -, -, hok⟩ := loadFile_eq_some_iff.mp hload
    exact hok
  have hmode : l.sslMode = resolveSslMode (configsOn l.port (getAllConfigs parseToml fs none)) l.port :=
    congrArg Listener.sslMode (eq_of_mem_startListen hl)
  rw [hmode]
  refine ⟨?_, ?_⟩
  · intro hmanual
    obtain ⟨hcheck, hacme⟩ := checkSsl_of_resolveSslMode hvalid (Or.inl hmanual)
    have hno : ¬ ssl.acme = some true := by
      rw [← hacme, hmanual]
      simp
    rw [checkSsl_eq_ok_iff, if_neg hno] at hcheck
    obtain ⟨cert, hcert⟩ := Option.isSome_iff_exists.mp hcheck.1
    obtain ⟨key, hkey⟩ := Option.isSome_iff_exists.mp hcheck.2
    refine ⟨cert, key, hcert, hkey, fun acceptor => ?_⟩
    rw [loadManualTls_eq_ok_iff, hcert, hkey]
    simp
  · intro hacmeMode
    obtain ⟨hcheck, hacme⟩ := checkSsl_of_resolveSslMode hvalid (Or.inr hacmeMode)
    rw [checkSsl_eq_ok_iff, if_pos (hacme.mp hacmeMode)] at hcheck
    obtain ⟨email, hemail⟩ := Option.isSome_iff_exists.mp hcheck.1
    obtain ⟨domains, hdomains⟩ := Option.isSome_iff_exists.mp hcheck.2
    refine ⟨email, domains, hemail, hdomains, ?_⟩
    unfold buildAcmeConfig
    rw [hemail, hdomains]
    rfl

end Results

/-! ### A service with a certificate of its own -/

def tlsFile : Table :=
  [("mode".toList, .string "reverse_proxy".toList), ("host".toList, .string "a.com".toList),
    ("listen_port".toList, .integer 443), ("upstream".toList, .table [("port".toList, .integer 3000)]),
    ("ssl".toList, .table [("cert".toList, .string "/a.pem".toList),
      ("key".toList, .string "/a.key".toList)])]

/-- A services directory with one file, whose text stands for its table. -/
def oneService : FileSystem where
  services := [.ok ⟨"services/a.toml".toList, true, some "toml".toList⟩]
  readToString _ := .ok []

theorem exists_tls_config : ∃ config, loadConfig tlsFile = some config ∧
    config.listenPort = some 443 ∧ config.ssl =
      some ⟨some "/a.pem".toList, some "/a.key".toList, none, none, none, none⟩ := by
  refine ⟨⟨_, _, _, _, _, _, _, _, _, _⟩, loadConfig_eq_some_iff.mpr
    ⟨ClientConfig.ofToml_eq_some_iff.mpr ⟨rfl, rfl, rfl, rfl, rfl, rfl, rfl, rfl, rfl, rfl⟩, ?_⟩,
    rfl, rfl⟩
  rfl

/-- The loader returns the service of the only file. -/
theorem getAllConfigs_oneService {file : Table} {config : ClientConfig}
    (h : loadConfig file = some config) :
    getAllConfigs (fun _ => .ok file) oneService none = [config] := by
  have hvalid : ValidFile (fun _ => .ok file) oneService "services/a.toml".toList config :=
    validFile_iff.mpr ⟨[], file, rfl, rfl, h⟩
  rw [getAllConfigs_eq, Option.getD_none]
  show List.filterMap _ ["services/a.toml".toList] = _
  rw [List.filterMap_cons_some (loadFile_eq_some_iff.mpr hvalid), List.filterMap_nil]

theorem configsOn_singleton {config : ClientConfig} {port : UInt16}
    (h : config.listenPort = some port) : configsOn port [config] = [config] := by
  unfold configsOn
  rw [List.filter_cons_of_pos (by simpa using h), List.filter_nil]

theorem tls_settings_complete_manual : ∃ l ∈ startListen
    (getAllConfigs (fun _ => .ok tlsFile) oneService none) true, ∃ ssl cert key,
      l.sslMode = .manual ssl ∧ ssl.cert = some cert ∧ ssl.key = some key := by
  obtain ⟨config, hload, hport, hssl⟩ := exists_tls_config
  have hconfigs := getAllConfigs_oneService hload
  have hl := ((@mem_startListen_iff [config] true config 443 (List.mem_singleton.mpr rfl) hport).mpr
    rfl).1
  have hmode : resolveSslMode (configsOn 443 [config]) 443 =
      .manual ⟨some "/a.pem".toList, some "/a.key".toList, none, none, none, none⟩ := by
    rw [configsOn_singleton hport]
    exact @resolveSslMode_append [] [] 443 rfl config _ (sslOf_eq_some_iff.mpr (Or.inl hssl))
  rw [← hconfigs] at hl hmode
  obtain ⟨cert, key, hcert, hkey, -⟩ := (tls_settings_complete
    ⟨fun _ => .ok [], fun _ => .ok (.pkcs8 []), fun _ _ => .ok ()⟩ _ _ true _ hl _).1 hmode
  exact ⟨_, hl, _, cert, key, hmode, hcert, hkey⟩

end Scety
