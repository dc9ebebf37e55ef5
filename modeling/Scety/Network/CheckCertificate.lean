import Scety.Bytes
import Scety.Network.CertCheck
import Scety.Network.TlsName

/-!
# `network/cert_check.rs`: the verdict on one certificate

`check_certificate` clears one flag wherever a check fails.  Files, clocks, the X.509 parser and the
chain verifier are parameters.  The SAN check asks for one matched host where it stands for all of
them (`covers_all_hosts_iff`), and the chain check hands the first host pattern to the verifier as
if it were a host name (`good_certificate_passes_iff`).
-/

namespace Scety

/-- `GeneralName`, as far as `extract_dns_sans` tells names apart. -/
inductive GeneralName where
  | dnsName (name : Str)
  | other

/-- What the X.509 parser reads from a certificate. -/
structure X509Certificate where
  notAfter : ℤ
  issuer : Str
  subject : Str
  subjectAlternativeName : Except Str (Option (List GeneralName))

/-- A DER block. -/
abbrev Der := Bytes

/-- The file system, the two clocks, and the certificate libraries. -/
structure CertWorld (Roots Verifier ServerName : Type) where
  read : Str → Except Str Bytes
  /-- `Pem::iter_from_buffer`, collected. -/
  pemBlocks : Bytes → Except Str (List Der)
  fromDer : Der → Except Str X509Certificate
  /-- `ASN1Time::now().timestamp()`. -/
  now : ℤ
  /-- `webpki_roots::TLS_SERVER_ROOTS`. -/
  serverRoots : Roots
  pemSliceIter : Bytes → List (Except Str Der)
  add : Roots → Der → Except Str Roots
  build : Roots → Except Str Verifier
  serverName : Str → Option ServerName
  /-- `UnixTime::now()`. -/
  unixNow : ℤ
  verifyServerCert : Verifier → Der → List Der → ServerName → ℤ → Except Str Unit

def expiryWarningDays : ℤ := 14

def extractDnsSans (cert : X509Certificate) : List Str :=
  match cert.subjectAlternativeName with
  | .ok (some generalNames) => generalNames.filterMap fun gn =>
    match gn with
    | .dnsName d => some d
    | .other => none
  | _ => []

section Check

variable {Roots Verifier ServerName : Type} (w : CertWorld Roots Verifier ServerName)

/-- The loop over the certificates of the bundle. -/
def addBundle (roots : Roots) : List (Except Str Der) → Except Str Roots
  | [] => .ok roots
  | cert :: rest => do
    let cert ← cert.mapError ("ошибка парсинга trusted_ca_bundle: ".toList ++ ·)
    let roots ← (w.add roots cert).mapError
      ("failed to add certificate from trusted_ca_bundle: ".toList ++ ·)
    addBundle roots rest

/-- The root store of `check_trust_chain`. -/
def rootStore (extraCaBundle : Option Str) : Except Str Roots :=
  match extraCaBundle with
  | none => .ok w.serverRoots
  | some bundlePath => do
    let bundleBytes ← (w.read bundlePath).mapError
      ("failed to read trusted_ca_bundle ".toList ++ bundlePath ++ ": ".toList ++ ·)
    addBundle w w.serverRoots (w.pemSliceIter bundleBytes)

def noDomains : Str :=
  "there are no domains for which the service is configured — nothing to check".toList

/-- `check_trust_chain`, of the blocks `leaf :: intermediates`. -/
def checkTrustChain (leaf : Der) (intermediates : List Der) (expectedHosts : List Str)
    (extraCaBundle : Option Str) : Except Str Unit := do
  let roots ← rootStore w extraCaBundle
  let verifier ← (w.build roots).mapError ("failed to build the chain verifier: ".toList ++ ·)
  match expectedHosts.head? with
  | none => .error noDomains
  | some host =>
    match w.serverName host with
    | none => .error ("invalid domain name in the config: ".toList ++ host)
    | some serverName => w.verifyServerCert verifier leaf intermediates serverName w.unixNow

/-- The time check. -/
def notExpiring (cert : X509Certificate) : Bool :=
  if cert.notAfter < w.now then false
  else !decide ((cert.notAfter - w.now).tdiv 86400 ≤ expiryWarningDays)

/-- The SAN check. -/
def sansMatch (sans expectedHosts : List Str) : Bool :=
  if sans.isEmpty then false
  else expectedHosts.any fun h => sans.any fun s => domainMatches s h

/-- What is left of `check_certificate` once the leaf is parsed: the flag after each check. -/
def checkLeaf (leaf : Der) (intermediates : List Der) (cert : X509Certificate)
    (expectedHosts : List Str) (extraCaBundle : Option Str) : Bool :=
  let ok := true
  let ok := if notExpiring w cert then ok else false
  let ok := if cert.issuer = cert.subject then false else ok
  let ok := if sansMatch (extractDnsSans cert) expectedHosts then ok else false
  match checkTrustChain w leaf intermediates expectedHosts extraCaBundle with
  | .error _ => false
  | .ok () => ok

def checkCertificate : CertificateCheck := fun _label certPath expectedHosts extraCaBundle =>
  match w.read certPath with
  | .error _ => false
  | .ok bytes =>
    match w.pemBlocks bytes with
    | .error _ => false
    | .ok [] => false
    | .ok (leaf :: intermediates) =>
      match w.fromDer leaf with
      | .error _ => false
      | .ok cert => checkLeaf w leaf intermediates cert expectedHosts extraCaBundle

variable {w}

/-- The file at the path starts with this leaf. -/
def LeafAt (w : CertWorld Roots Verifier ServerName) (certPath : Str) (leaf : Der)
    (intermediates : List Der) (cert : X509Certificate) : Prop :=
  ∃ bytes, w.read certPath = .ok bytes ∧ w.pemBlocks bytes = .ok (leaf :: intermediates) ∧
    w.fromDer leaf = .ok cert

theorem checkLeaf_iff {leaf : Der} {intermediates : List Der} {cert : X509Certificate}
    {hosts : List Str} {bundle : Option Str} :
    checkLeaf w leaf intermediates cert hosts bundle = true ↔
      notExpiring w cert = true ∧ cert.issuer ≠ cert.subject ∧
        sansMatch (extractDnsSans cert) hosts = true ∧
          checkTrustChain w leaf intermediates hosts bundle = .ok () := by
  unfold checkLeaf
  cases checkTrustChain w leaf intermediates hosts bundle with
  | error e => simp
  | ok u =>
    cases notExpiring w cert <;> cases sansMatch (extractDnsSans cert) hosts <;> simp

theorem checkCertificate_of_leafAt {label certPath : Str} {hosts : List Str} {bundle : Option Str}
    {leaf : Der} {intermediates : List Der} {cert : X509Certificate}
    (h : LeafAt w certPath leaf intermediates cert) :
    checkCertificate w label certPath hosts bundle =
      checkLeaf w leaf intermediates cert hosts bundle := by
  obtain ⟨bytes, hread, hpem, hder⟩ := h
  unfold checkCertificate
  rw [hread]
  dsimp only
  rw [hpem]
  dsimp only
  rw [hder]

/-- Without a readable leaf the check fails. -/
theorem checkCertificate_of_not_leafAt {label certPath : Str} {hosts : List Str}
    {bundle : Option Str} (h : ¬ ∃ leaf intermediates cert, LeafAt w certPath leaf intermediates cert) :
    checkCertificate w label certPath hosts bundle = false := by
  unfold checkCertificate
  split
  · rfl
  next bytes hread =>
    split
    · rfl
    · rfl
    next leaf intermediates hpem =>
      split
      · rfl
      next cert hder => exact absurd ⟨leaf, intermediates, cert, bytes, hread, hpem, hder⟩ h

/-- Some SAN of the certificate matches the host. -/
def HasSan (cert : X509Certificate) (h : Str) : Prop :=
  ∃ s ∈ extractDnsSans cert, domainMatches s h = true

/-- One matched host is enough for the SAN check. -/
theorem sansMatch_iff {cert : X509Certificate} {hosts : List Str} :
    sansMatch (extractDnsSans cert) hosts = true ↔ ∃ h ∈ hosts, HasSan cert h := by
  unfold sansMatch HasSan
  by_cases hempty : (extractDnsSans cert).isEmpty
  · rw [if_pos hempty]
    rw [List.isEmpty_iff] at hempty
    simp [hempty]
  · rw [if_neg hempty]
    simp only [List.any_eq_true]

/-- The checks other than the SAN check. -/
def OtherChecks (w : CertWorld Roots Verifier ServerName) (leaf : Der) (intermediates : List Der)
    (cert : X509Certificate) (hosts : List Str) (bundle : Option Str) : Prop :=
  notExpiring w cert = true ∧ cert.issuer ≠ cert.subject ∧
    checkTrustChain w leaf intermediates hosts bundle = .ok ()

/-- The verdict, for a file that starts with a leaf. -/
theorem checkCertificate_iff {label certPath : Str} {hosts : List Str} {bundle : Option Str}
    {leaf : Der} {intermediates : List Der} {cert : X509Certificate}
    (h : LeafAt w certPath leaf intermediates cert) :
    checkCertificate w label certPath hosts bundle = true ↔
      OtherChecks w leaf intermediates cert hosts bundle ∧ ∃ h ∈ hosts, HasSan cert h := by
  rw [checkCertificate_of_leafAt h, checkLeaf_iff, sansMatch_iff]
  unfold OtherChecks
  exact ⟨fun ⟨h1, h2, h3, h4⟩ => ⟨⟨h1, h2, h4⟩, h3⟩, fun ⟨⟨h1, h2, h4⟩, h3⟩ => ⟨h1, h2, h3, h4⟩⟩

/-- **A passed certificate covers all hosts** of the service if and only if another check rejects it
or its SANs cover all of them or none. -/
theorem covers_all_hosts_iff (w : CertWorld Roots Verifier ServerName) (label certPath : Str)
    (hosts : List Str) (bundle : Option Str) :
    (checkCertificate w label certPath hosts bundle = true →
      ∀ leaf intermediates cert, LeafAt w certPath leaf intermediates cert →
        ∀ h ∈ hosts, HasSan cert h) ↔
      ∀ leaf intermediates cert, LeafAt w certPath leaf intermediates cert →
        OtherChecks w leaf intermediates cert hosts bundle →
          (∀ h ∈ hosts, HasSan cert h) ∨ ∀ h ∈ hosts, ¬ HasSan cert h := by
  constructor
  · intro hall leaf inter cert hleaf hother
    by_cases hsome : ∃ h ∈ hosts, HasSan cert h
    · exact Or.inl (hall ((checkCertificate_iff hleaf).mpr ⟨hother, hsome⟩) leaf inter cert hleaf)
    · exact Or.inr fun h hh hsan => hsome ⟨h, hh, hsan⟩
  · intro hall hok leaf inter cert hleaf
    obtain ⟨hother, h, hh, hsan⟩ := (checkCertificate_iff hleaf).mp hok
    rcases hall leaf inter cert hleaf hother with hevery | hnone
    · exact hevery
    · exact absurd hsan (hnone h hh)

/-! ### Good certificates -/

/-- The file starts with a leaf that is valid for 15 more days, is not self-signed and has a SAN for
every host; the trusted roots load, and the verifier accepts the chain for every name that a SAN
covers. -/
def GoodCertificate (w : CertWorld Roots Verifier ServerName) (certPath : Str) (hosts : List Str)
    (bundle : Option Str) : Prop :=
  ∃ leaf intermediates cert roots verifier, LeafAt w certPath leaf intermediates cert ∧
    w.now + 15 * 86400 ≤ cert.notAfter ∧ cert.issuer ≠ cert.subject ∧
    (∀ h ∈ hosts, HasSan cert h) ∧ rootStore w bundle = .ok roots ∧ w.build roots = .ok verifier ∧
    ∀ host serverName, w.serverName host = some serverName →
      (∃ s ∈ extractDnsSans cert, TlsCovers s host) →
        w.verifyServerCert verifier leaf intermediates serverName w.unixNow = .ok ()

theorem notExpiring_of_le {cert : X509Certificate} (h : w.now + 15 * 86400 ≤ cert.notAfter) :
    notExpiring w cert = true := by
  unfold notExpiring expiryWarningDays
  rw [if_neg (by omega), Int.tdiv_eq_ediv_of_nonneg (by omega)]
  simp only [Bool.not_eq_true', decide_eq_false_iff_not]
  omega

/-- With roots and a verifier, the chain check is the verifier's for the first host. -/
theorem checkTrustChain_eq {leaf : Der} {intermediates : List Der} {hosts : List Str}
    {bundle : Option Str} {roots : Roots} {verifier : Verifier}
    (hroots : rootStore w bundle = .ok roots) (hbuild : w.build roots = .ok verifier) :
    checkTrustChain w leaf intermediates hosts bundle =
      match hosts.head? with
      | none => .error noDomains
      | some host =>
        match w.serverName host with
        | none => .error ("invalid domain name in the config: ".toList ++ host)
        | some serverName => w.verifyServerCert verifier leaf intermediates serverName w.unixNow := by
  unfold checkTrustChain
  rw [hroots]
  simp only [bind, Except.bind]
  rw [hbuild]
  rfl

/-- **Good certificates pass** if and only if the first host of the service is there and is a name
without `*`. -/
theorem good_certificate_passes_iff (w : CertWorld Roots Verifier ServerName)
    (hstar : ∀ host, '*' ∈ host → w.serverName host = none) (label certPath : Str)
    (hosts : List Str) (hvalid : ∀ host ∈ hosts, '*' ∉ host → (w.serverName host).isSome)
    (bundle : Option Str) (hgood : GoodCertificate w certPath hosts bundle) :
    checkCertificate w label certPath hosts bundle = true ↔
      ∃ host, hosts.head? = some host ∧ '*' ∉ host := by
  obtain ⟨leaf, inter, cert, roots, verifier, hleaf, hdate, hself, hsans, hroots, hbuild, hverify⟩ :=
    hgood
  rw [checkCertificate_iff hleaf]
  unfold OtherChecks
  rw [checkTrustChain_eq hroots hbuild]
  cases hosts with
  | nil => simp
  | cons host rest =>
    simp only [List.head?_cons, Option.some.injEq, exists_eq_left']
    refine ⟨fun h hm => ?_, fun hfree => ?_⟩
    · have hchain := h.1.2.2
      rw [hstar host hm] at hchain
      exact absurd hchain (by simp)
    · obtain ⟨name, hname⟩ := Option.isSome_iff_exists.mp (hvalid host List.mem_cons_self hfree)
      obtain ⟨s, hs, hmatch⟩ := hsans host List.mem_cons_self
      rw [hname]
      exact ⟨⟨notExpiring_of_le hdate, hself, hverify host name hname
        ⟨s, hs, domainMatches_iff.mp hmatch⟩⟩, host, List.mem_cons_self, s, hs, hmatch⟩

end Check

/-! ### A certificate with given names -/

/-- A world with one trusted certificate for the names, valid for 90 days. -/
def trustedFor (sans : List Str) : CertWorld Unit Unit Str where
  read _ := .ok (bytes "-----BEGIN CERTIFICATE-----".toList)
  pemBlocks _ := .ok [[0x30]]
  fromDer _ := .ok ⟨7776000, "CN=ca".toList, "CN=a.com".toList, .ok (some (sans.map .dnsName))⟩
  now := 0
  serverRoots := ()
  pemSliceIter _ := []
  add roots _ := .ok roots
  build roots := .ok roots
  serverName host := if '*' ∈ host then none else some host
  unixNow := 0
  verifyServerCert _ _ _ name _ :=
    if sans.any (domainMatches · name) then .ok () else .error "NotValidForName".toList

theorem leafAt_trustedFor (sans : List Str) (certPath : Str) :
    LeafAt (trustedFor sans) certPath [0x30] []
      ⟨7776000, "CN=ca".toList, "CN=a.com".toList, .ok (some (sans.map .dnsName))⟩ :=
  ⟨_, rfl, rfl, rfl⟩

theorem serverName_trustedFor_of_star (sans : List Str) {host : Str} (h : '*' ∈ host) :
    (trustedFor sans).serverName host = none := if_pos h

theorem serverName_trustedFor (sans : List Str) {host : Str} (h : '*' ∉ host) :
    (trustedFor sans).serverName host = some host := if_neg h

/-- The certificate is good for one of its names. -/
theorem goodCertificate_trustedFor (name certPath : Str) (hname : domainMatches name name = true) :
    GoodCertificate (trustedFor [name]) certPath [name] none := by
  have hdate : (0 : ℤ) + 15 * 86400 ≤ 7776000 := by decide
  have hself : "CN=ca".toList ≠ "CN=a.com".toList := by decide
  refine ⟨_, _, _, (), (), leafAt_trustedFor [name] certPath, hdate, hself, ?_, rfl, rfl, ?_⟩
  · intro h hh
    obtain rfl := List.mem_singleton.mp hh
    exact ⟨h, List.mem_singleton_self h, hname⟩
  · intro host serverName hs hcov
    by_cases hstar : '*' ∈ host
    · rw [serverName_trustedFor_of_star [name] hstar] at hs
      exact absurd hs (by simp)
    · rw [serverName_trustedFor [name] hstar] at hs
      obtain rfl := Option.some.inj hs
      obtain ⟨s, hmem, hcov⟩ := hcov
      obtain rfl : s = name := List.mem_singleton.mp hmem
      have hany : [s].any (domainMatches · host) = true := by
        simpa using domainMatches_iff.mpr hcov
      exact if_pos hany

/-- A certificate for the first of two hosts passes for both. -/
theorem covers_all_hosts_fails : ¬ ∀ (w : CertWorld Unit Unit Str) label certPath hosts bundle,
    hosts ≠ [] → checkCertificate w label certPath hosts bundle = true →
      ∀ leaf intermediates cert, LeafAt w certPath leaf intermediates cert →
        ∀ h ∈ hosts, HasSan cert h := by
  intro hall
  obtain ⟨s, hs, hmatch⟩ := hall (trustedFor ["a.com".toList]) "a.com, b.com".toList "/a.pem".toList
    ["a.com".toList, "b.com".toList] none (by simp) (by decide) _ _ _
    (leafAt_trustedFor _ _) "b.com".toList (by simp)
  obtain rfl : s = "a.com".toList := List.mem_singleton.mp hs
  exact absurd hmatch (by decide)

theorem good_certificate_passes_name : checkCertificate (trustedFor ["a.com".toList])
      "a.com".toList "/a.pem".toList ["a.com".toList] none = true ↔
    ∃ host, ["a.com".toList].head? = some host ∧ '*' ∉ host :=
  good_certificate_passes_iff (trustedFor ["a.com".toList])
    (fun _ => serverName_trustedFor_of_star _) "a.com".toList "/a.pem".toList ["a.com".toList]
    (fun _ _ h => by rw [serverName_trustedFor _ h]; rfl) none
    (goodCertificate_trustedFor "a.com".toList "/a.pem".toList (by decide))

/-- A good certificate of the service `*.example.com` fails. -/
theorem good_certificate_fails : ¬ ∀ (w : CertWorld Unit Unit Str),
    (∀ host, '*' ∈ host → w.serverName host = none) → ∀ label certPath hosts,
      (∀ host ∈ hosts, '*' ∉ host → (w.serverName host).isSome) → ∀ bundle,
        GoodCertificate w certPath hosts bundle →
          checkCertificate w label certPath hosts bundle = true := by
  intro hall
  have hok := hall (trustedFor ["*.example.com".toList]) (fun _ => serverName_trustedFor_of_star _)
    "*.example.com".toList "/a.pem".toList ["*.example.com".toList]
    (fun _ _ h => by rw [serverName_trustedFor _ h]; rfl) none
    (goodCertificate_trustedFor "*.example.com".toList "/a.pem".toList (by decide))
  exact absurd hok (by decide)

end Scety
