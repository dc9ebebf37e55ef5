import Scety.Basic

/-!
# `config/get_services_config.rs`: service files and their validation

`validateConfig` runs the checks of `validate_config` one after the other and returns the first
error.  The loops over the two maps of sections visit the entries in the order of the map, which
the source leaves open; which error comes first depends on it, whether there is one does not.
-/

namespace Scety

structure UpstreamConfig where
  port : Option UInt16
  ports : Option (List UInt16)
  serviceTimeout : Option Str
  deriving DecidableEq

structure SslConfig where
  cert : Option Str
  key : Option Str
  acme : Option Bool
  acmeEmail : Option Str
  acmeDomains : Option (List Str)
  acmeCache : Option Str
  deriving DecidableEq

structure HeadersConfig where
  upstream : Option (HashMap Str Str)
  response : Option (HashMap Str Str)

structure ClientConfig where
  mode : Str
  host : Option Str
  hosts : Option (List Str)
  listenPort : Option UInt16
  listensPort : Option (List UInt16)
  upstream : Option UpstreamConfig
  upstreams : HashMap Str UpstreamConfig
  ssl : Option SslConfig
  sslPorts : HashMap Str SslConfig
  headers : Option HeadersConfig

/-! ### Numbers and section names -/

/-- `format!("{}", port)`. -/
def showPort (port : UInt16) : Str := Nat.toDigits 10 port.toNat

/-- `format!("{:?}", ports)`. -/
def showPorts (ports : List UInt16) : Str :=
  ['['] ++ [',', ' '].intercalate (ports.map showPort) ++ [']']

/-- `s.parse::<u16>().ok()`: an optional `+`, then digits, without overflow. -/
def parsePort (s : Str) : Option UInt16 :=
  let digits := match s with
    | '+' :: rest => rest
    | _ => s
  if digits ≠ [] ∧ (∀ c ∈ digits, c.isDigit) ∧ Nat.ofDigitChars 10 digits 0 < UInt16.size then
    some (UInt16.ofNat (Nat.ofDigitChars 10 digits 0))
  else none

/-- `key.strip_prefix(name)`. -/
def stripPrefix (name key : Str) : Option Str :=
  if name <+: key then some (key.drop name.length) else none

def upstreamPrefix : Str := "upstream_".toList

def sslPrefix : Str := "ssl_".toList

/-- `format!("upstream_{}", port)`. -/
def upstreamKey (port : UInt16) : Str := upstreamPrefix ++ showPort port

/-- `format!("ssl_{}", port)`. -/
def sslKey (port : UInt16) : Str := sslPrefix ++ showPort port

/-! ### The checks -/

/-- The closure `check_upstream`. -/
def checkUpstream (u : UpstreamConfig) : Except Str Unit :=
  match u.port, u.ports with
  | none, none => .error "Either 'port' or 'ports' must be specified in [upstream]".toList
  | some _, some _ => .error "'port' and 'ports' are mutually exclusive in [upstream]".toList
  | _, _ => .ok ()

/-- The closure `check_ssl`. -/
def checkSsl (ssl : SslConfig) : Except Str Unit :=
  if ssl.acme.getD false then
    if ssl.acmeEmail.isNone then .error "acme=true requires acme_email".toList
    else if ssl.acmeDomains.isNone then .error "acme=true requires acme_domains".toList
    else .ok ()
  else if ssl.cert.isNone ∨ ssl.key.isNone then
    .error "SSL requires either acme=true or both cert and key".toList
  else .ok ()

/-- `map_err(|e| format!("[{}]: {}", key, e))`. -/
def inSection (key : Str) (r : Except Str Unit) : Except Str Unit :=
  r.mapError fun e => ['['] ++ key ++ "]: ".toList ++ e

def checkHosts (config : ClientConfig) : Except Str Unit :=
  match config.host, config.hosts with
  | none, none => .error "Either 'host' or 'hosts' must be specified".toList
  | some _, some _ => .error "'host' and 'hosts' are mutually exclusive".toList
  | _, _ => .ok ()

def checkListenPorts (config : ClientConfig) : Except Str Unit :=
  match config.listenPort, config.listensPort with
  | none, none => .error "Either 'listen_port' or 'listens_port' must be specified".toList
  | some _, some _ => .error "'listen_port' and 'listens_port' are mutually exclusive".toList
  | _, _ => .ok ()

/-- The port a section name belongs to. -/
def sectionPort (name key : Str) : Option UInt16 := (stripPrefix name key).bind parsePort

/-- The test that a section for a port is only there if the port is listened on. -/
def checkListed (name : Str) (ports : List UInt16) (message : Str → UInt16 → Str) (key : Str) :
    Except Str Unit :=
  match sectionPort name key with
  | some port => if port ∈ ports then .ok () else .error (message key port)
  | none => .ok ()

def unlistedUpstream (ports : List UInt16) (key : Str) (port : UInt16) : Str :=
  ['['] ++ key ++ "] found, but port ".toList ++ showPort port ++
    " is not in listens_port=".toList ++ showPorts ports ++
    ". Maybe listens_port should include ".toList ++ showPort port ++ ['?']

def unlistedSsl (ports : List UInt16) (key : Str) (port : UInt16) : Str :=
  ['['] ++ key ++ "] found, but port ".toList ++ showPort port ++
    " is not in listens_port=".toList ++ showPorts ports

/-- The first loop over `listens_port`: every port has its section. -/
def checkSection (config : ClientConfig) (port : UInt16) : Except Str Unit :=
  if upstreamKey port ∈ config.upstreams then .ok ()
  else .error ("Missing [".toList ++ upstreamKey port ++ "] section for port ".toList ++
    showPort port)

def checkSections (config : ClientConfig) : Except Str Unit :=
  match config.listensPort with
  | some ports => do
    forM ports (checkSection config)
    forM config.upstreams.keys (checkListed upstreamPrefix ports (unlistedUpstream ports))
  | none =>
    if config.upstream.isNone then .error "Missing [upstream] section".toList else .ok ()

def checkUpstreams (config : ClientConfig) : Except Str Unit := do
  config.upstream.forM checkUpstream
  forM config.upstreams.entries fun e => inSection e.1 (checkUpstream e.2)

def checkSslSections (config : ClientConfig) : Except Str Unit :=
  config.listensPort.forM fun ports =>
    forM config.sslPorts.keys (checkListed sslPrefix ports (unlistedSsl ports))

def checkSsls (config : ClientConfig) : Except Str Unit := do
  config.ssl.forM checkSsl
  forM config.sslPorts.entries fun e => inSection e.1 (checkSsl e.2)

def validateConfig (config : ClientConfig) : Except Str Unit := do
  checkHosts config
  checkListenPorts config
  checkSections config
  checkUpstreams config
  checkSslSections config
  checkSsls config

/-! ### When the checks succeed -/

theorem bind_eq_ok_iff {r : Except Str Unit} {f : Unit → Except Str Unit} :
    (r >>= f) = .ok () ↔ r = .ok () ∧ f () = .ok () := by
  cases r with
  | error e => exact ⟨fun h => absurd h (by simp [bind, Except.bind]), fun h => absurd h.1 (by simp)⟩
  | ok u => exact ⟨fun h => ⟨rfl, h⟩, fun h => h.2⟩

theorem forM_list_eq_ok_iff {α : Type} {l : List α} {f : α → Except Str Unit} :
    forM l f = .ok () ↔ ∀ a ∈ l, f a = .ok () := by
  induction l with
  | nil => simp [pure, Except.pure]
  | cons a l ih =>
    rw [List.forM_cons, bind_eq_ok_iff, List.forall_mem_cons]
    exact and_congr_right fun _ => ih

theorem forM_option_eq_ok_iff {α : Type} {o : Option α} {f : α → Except Str Unit} :
    o.forM f = .ok () ↔ ∀ a ∈ o, f a = .ok () := by
  cases o with
  | none => simp [Option.forM, pure, Except.pure]
  | some a => simp [Option.forM]

@[simp] theorem inSection_eq_ok_iff {key : Str} {r : Except Str Unit} :
    inSection key r = .ok () ↔ r = .ok () := by
  cases r <;> simp [inSection, Except.mapError]

theorem validateConfig_eq_ok_iff {config : ClientConfig} :
    validateConfig config = .ok () ↔
      checkHosts config = .ok () ∧ checkListenPorts config = .ok () ∧
        checkSections config = .ok () ∧ checkUpstreams config = .ok () ∧
          checkSslSections config = .ok () ∧ checkSsls config = .ok () := by
  unfold validateConfig
  simp only [bind_eq_ok_iff]

theorem checkUpstream_eq_ok_iff {u : UpstreamConfig} :
    checkUpstream u = .ok () ↔ (u.port.isSome ↔ u.ports = none) := by
  unfold checkUpstream
  cases u.port <;> cases u.ports <;> simp

theorem checkSsl_eq_ok_iff {ssl : SslConfig} :
    checkSsl ssl = .ok () ↔
      if ssl.acme = some true then ssl.acmeEmail.isSome ∧ ssl.acmeDomains.isSome
      else ssl.cert.isSome ∧ ssl.key.isSome := by
  obtain ⟨cert, key, acme, email, domains, cache⟩ := ssl
  unfold checkSsl
  cases acme with
  | none => cases cert <;> cases key <;> simp
  | some b =>
    cases b with
    | false => cases cert <;> cases key <;> simp
    | true => cases email <;> cases domains <;> simp

/-! ### Section names -/

theorem parsePort_showPort (port : UInt16) : parsePort (showPort port) = some port := by
  have hdigit : ∀ c ∈ showPort port, c.isDigit := fun c hc =>
    Nat.isDigit_of_mem_toDigits (by omega) le_rfl hc
  have hvalue : Nat.ofDigitChars 10 (showPort port) 0 = port.toNat := Nat.ofDigitChars_ten_toDigits
  have hplain : (match showPort port with
      | '+' :: rest => rest
      | _ => showPort port) = showPort port := by
    split
    next rest h => exact absurd (hdigit '+' (h ▸ List.mem_cons_self)) (by decide)
    next => rfl
  unfold parsePort
  simp only [hplain, hvalue]
  rw [if_pos ⟨Nat.toDigits_ne_nil, hdigit, port.toNat_lt⟩, UInt16.ofNat_toNat]

theorem stripPrefix_append (name rest : Str) : stripPrefix name (name ++ rest) = some rest := by
  unfold stripPrefix
  rw [if_pos (List.prefix_append name rest), List.drop_left]

theorem sectionPort_append (name : Str) (port : UInt16) :
    sectionPort name (name ++ showPort port) = some port := by
  unfold sectionPort
  rw [stripPrefix_append, Option.bind_some, parsePort_showPort]

end Scety
