import Scety.Config.Services

/-!
# Reading a service file

The values of a TOML file and how the derived deserialisers read them: a missing optional key is
`None`, a key of the wrong type fails the whole file, unknown keys of a section are ignored, and a
flattened map receives every top-level key that no named field claims.  `ClientConfig` has two such
maps, and each of them receives all of these keys.
-/

namespace Scety

inductive Toml where
  | string (s : Str)
  | integer (n : ℤ)
  | boolean (b : Bool)
  | float (literal : Str)
  | datetime (literal : Str)
  | array (items : List Toml)
  | table (entries : List (Str × Toml))

/-- The entries of a table, which have different keys. -/
abbrev Table := List (Str × Toml)

/-! ### Scalars and fields -/

namespace Toml

def asString : Toml → Option Str
  | string s => some s
  | _ => none

def asPort : Toml → Option UInt16
  | integer n => if 0 ≤ n ∧ n < UInt16.size then some (UInt16.ofNat n.toNat) else none
  | _ => none

def asBool : Toml → Option Bool
  | boolean b => some b
  | _ => none

def asArray {α : Type} (read : Toml → Option α) : Toml → Option (List α)
  | array items => items.mapM read
  | _ => none

/-- A `HashMap` field, or the keys a flattened one receives: every value must be readable. -/
def readEntries {α : Type} (read : Toml → Option α) : Table → Option (HashMap Str α)
  | [] => some ∅
  | (key, v) :: rest => do
    let a ← read v
    let m ← readEntries read rest
    return m.insert key a

def asMap {α : Type} (read : Toml → Option α) : Toml → Option (HashMap Str α)
  | table entries => readEntries read entries
  | _ => none

/-- A field of type `Option<T>`. -/
def optionField {α : Type} (read : Toml → Option α) (t : Table) (key : Str) : Option (Option α) :=
  match t.lookup key with
  | none => some none
  | some v => (read v).map some

end Toml

open Toml

/-! ### Sections and files -/

def UpstreamConfig.ofToml : Toml → Option UpstreamConfig
  | .table t => do
    let port ← optionField asPort t "port".toList
    let ports ← optionField (asArray asPort) t "ports".toList
    let serviceTimeout ← optionField asString t "service_timeout".toList
    return { port, ports, serviceTimeout }
  | _ => none

def SslConfig.ofToml : Toml → Option SslConfig
  | .table t => do
    let cert ← optionField asString t "cert".toList
    let key ← optionField asString t "key".toList
    let acme ← optionField asBool t "acme".toList
    let acmeEmail ← optionField asString t "acme_email".toList
    let acmeDomains ← optionField (asArray asString) t "acme_domains".toList
    let acmeCache ← optionField asString t "acme_cache".toList
    return { cert, key, acme, acmeEmail, acmeDomains, acmeCache }
  | _ => none

def HeadersConfig.ofToml : Toml → Option HeadersConfig
  | .table t => do
    let upstream ← optionField (asMap asString) t "upstream".toList
    let response ← optionField (asMap asString) t "response".toList
    return { upstream, response }
  | _ => none

/-- The keys claimed by the named fields of `ClientConfig`. -/
def namedKeys : List Str :=
  ["mode", "host", "hosts", "listen_port", "listens_port", "upstream", "ssl", "headers"].map
    String.toList

/-- What a flattened map receives. -/
def leftover (file : Table) : Table := file.filter fun e => e.1 ∉ namedKeys

/-- `toml::from_str` on the entries of a service file. -/
def ClientConfig.ofToml (file : Table) : Option ClientConfig := do
  let mode ← (file.lookup "mode".toList).bind asString
  let host ← optionField asString file "host".toList
  let hosts ← optionField (asArray asString) file "hosts".toList
  let listenPort ← optionField asPort file "listen_port".toList
  let listensPort ← optionField (asArray asPort) file "listens_port".toList
  let upstream ← optionField UpstreamConfig.ofToml file "upstream".toList
  let upstreams ← readEntries UpstreamConfig.ofToml (leftover file)
  let ssl ← optionField SslConfig.ofToml file "ssl".toList
  let sslPorts ← readEntries SslConfig.ofToml (leftover file)
  let headers ← optionField HeadersConfig.ofToml file "headers".toList
  return { mode, host, hosts, listenPort, listensPort, upstream, upstreams, ssl, sslPorts, headers }

/-- The loop body of `get_all_configs` with validation, which drops a file that cannot be
deserialised or does not pass (and logs why). -/
def loadConfig (file : Table) : Option ClientConfig :=
  (ClientConfig.ofToml file).bind fun config =>
    match validateConfig config with
    | .ok () => some config
    | .error _ => none

theorem loadConfig_eq_some_iff {file : Table} {config : ClientConfig} :
    loadConfig file = some config ↔
      ClientConfig.ofToml file = some config ∧ validateConfig config = .ok () := by
  unfold loadConfig
  rw [Option.bind_eq_some_iff]
  refine ⟨?_, fun ⟨hr, hv⟩ => ⟨config, hr, by rw [hv]⟩⟩
  rintro ⟨c, hr, hv⟩
  cases hc : validateConfig c with
  | error e => rw [hc] at hv; exact absurd hv (by simp)
  | ok u =>
    rw [hc] at hv
    obtain rfl := Option.some.inj hv
    exact ⟨hr, hc⟩

/-! ### When a field or a map can be read -/

/-- The key is absent or has a value of the right type. -/
def WellTyped {α : Type} (read : Toml → Option α) (t : Table) (key : Str) : Prop :=
  ∀ v, t.lookup key = some v → (read v).isSome

section Fields

variable {α : Type} {read : Toml → Option α} {t : Table} {key : Str}

theorem optionField_eq_some_iff {o : Option α} :
    optionField read t key = some o ↔ WellTyped read t key ∧ o = (t.lookup key).bind read := by
  unfold optionField WellTyped
  cases h : t.lookup key with
  | none =>
    refine ⟨fun ho => ⟨fun v hv => absurd hv (by simp), (Option.some.inj ho).symm⟩, ?_⟩
    intro ho
    exact congrArg some ho.2.symm
  | some v =>
    dsimp only
    rw [Option.map_eq_some_iff, Option.bind_some]
    refine ⟨?_, fun ⟨hw, ho⟩ => ?_⟩
    · rintro ⟨a, ha, rfl⟩
      refine ⟨?_, ha.symm⟩
      intro w hw
      obtain rfl := Option.some.inj hw
      rw [ha]
      rfl
    · obtain ⟨a, ha⟩ := Option.isSome_iff_exists.mp (hw v rfl)
      exact ⟨a, ha, by rw [ho, ha]⟩

/-- A well typed key has a value if it is there. -/
theorem WellTyped.isSome_bind (h : WellTyped read t key) :
    ((t.lookup key).bind read).isSome = (t.lookup key).isSome := by
  cases hv : t.lookup key with
  | none => rfl
  | some v => exact h v hv

theorem wellTyped_of_lookup_eq_none (h : t.lookup key = none) : WellTyped read t key := by
  intro v hv
  rw [h] at hv
  exact absurd hv (by simp)

end Fields

theorem asPort_integer (p : UInt16) : asPort (.integer p.toNat) = some p := by
  have hp := p.toNat_lt
  unfold asPort
  dsimp only
  rw [if_pos ⟨by omega, by unfold UInt16.size; omega⟩, Int.toNat_natCast, UInt16.ofNat_toNat]

/-- An array of values of one kind is read item by item. -/
theorem asArray_map {α : Type} {read : Toml → Option α} {f : α → Toml}
    (h : ∀ a, read (f a) = some a) (l : List α) : asArray read (.array (l.map f)) = some l := by
  show (l.map f).mapM read = some l
  induction l with
  | nil => rfl
  | cons a l ih => simp [List.mapM_cons, h a, ih]

theorem asArray_strings (ss : List Str) : asArray asString (.array (ss.map .string)) = some ss :=
  asArray_map (f := Toml.string) (fun _ => rfl) ss

theorem asArray_ports (ports : List UInt16) :
    asArray asPort (.array (ports.map fun p => .integer p.toNat)) = some ports :=
  asArray_map asPort_integer ports

section Maps

variable {α : Type} {read : Toml → Option α}

/-- The map that `readEntries` builds: all values are readable, and they are what it holds. -/
theorem readEntries_spec {t : Table} {m : HashMap Str α} (h : readEntries read t = some m) :
    (∀ e ∈ t, (read e.2).isSome) ∧ ∀ key, m.lookup key = (t.lookup key).bind read := by
  induction t generalizing m with
  | nil =>
    obtain rfl := Option.some.inj h
    exact ⟨by simp, fun key => by simp⟩
  | cons e t ih =>
    obtain ⟨k, v⟩ := e
    simp only [readEntries, Option.bind_eq_bind, Option.bind_eq_some_iff, Option.pure_def,
      Option.some.injEq] at h
    obtain ⟨a, ha, m', hm', rfl⟩ := h
    obtain ⟨hall, hlook⟩ := ih hm'
    refine ⟨List.forall_mem_cons.mpr ⟨by simp [ha], hall⟩, ?_⟩
    intro key
    by_cases hk : key = k
    · subst hk
      rw [AList.lookup_insert, List.lookup_cons_self, Option.bind_some, ha]
    · have hne : (key == k) = false := by simpa using hk
      rw [AList.lookup_insert_ne hk, hlook, List.lookup_cons, hne]

theorem exists_readEntries {t : Table} (h : ∀ e ∈ t, (read e.2).isSome) :
    ∃ m, readEntries read t = some m := by
  induction t with
  | nil => exact ⟨∅, rfl⟩
  | cons e t ih =>
    obtain ⟨k, v⟩ := e
    obtain ⟨hv, ht⟩ := List.forall_mem_cons.mp h
    obtain ⟨a, ha⟩ := Option.isSome_iff_exists.mp hv
    obtain ⟨m, hm⟩ := ih ht
    have ha' : read v = some a := ha
    exact ⟨m.insert k a, by simp [readEntries, ha', hm]⟩

theorem lookup_eq_of_mem {t : Table} (hnd : (t.map Prod.fst).Nodup) {e : Str × Toml} (he : e ∈ t) :
    t.lookup e.1 = some e.2 := by
  induction t with
  | nil => exact absurd he (by simp)
  | cons x t ih =>
    obtain ⟨k, v⟩ := x
    obtain ⟨hk, hnd'⟩ := List.nodup_cons.mp hnd
    rcases List.mem_cons.mp he with rfl | hm
    · exact List.lookup_cons_self
    · have hne : (e.1 == k) = false := by
        apply beq_eq_false_iff_ne.mpr
        intro heq
        exact hk (List.mem_map.mpr ⟨e, hm, heq⟩)
      rw [List.lookup_cons, hne]
      exact ih hnd' hm

theorem mem_of_lookup {t : Table} {key : Str} {v : Toml} (h : t.lookup key = some v) :
    (key, v) ∈ t := by
  obtain ⟨l₁, l₂, rfl, -⟩ := List.lookup_eq_some_iff.mp h
  simp

/-- Reading all entries and then checking what was read is reading and checking each entry. -/
theorem readEntries_checked_iff {t : Table} (hnd : (t.map Prod.fst).Nodup)
    {check : α → Except Str Unit} :
    (∃ m, readEntries read t = some m ∧ ∀ e ∈ m.entries, check e.2 = .ok ()) ↔
      ∀ e ∈ t, ∃ a, read e.2 = some a ∧ check a = .ok () := by
  refine ⟨?_, ?_⟩
  · rintro ⟨m, hm, hcheck⟩ e he
    obtain ⟨hread, hlook⟩ := readEntries_spec hm
    obtain ⟨a, ha⟩ := Option.isSome_iff_exists.mp (hread e he)
    have hmem : a ∈ m.lookup e.1 := by
      rw [Option.mem_def, hlook, lookup_eq_of_mem hnd he]
      exact ha
    exact ⟨a, ha, hcheck _ (AList.mem_lookup_iff.mp hmem)⟩
  · intro hall
    have hread : ∀ e ∈ t, (read e.2).isSome := by
      intro e he
      obtain ⟨a, ha, -⟩ := hall e he
      rw [ha]
      rfl
    obtain ⟨m, hm⟩ := exists_readEntries hread
    refine ⟨m, hm, ?_⟩
    intro e he
    have hmem : m.lookup e.1 = some e.2 := AList.mem_lookup_iff.mpr he
    rw [(readEntries_spec hm).2] at hmem
    obtain ⟨v, hv, hr⟩ := Option.bind_eq_some_iff.mp hmem
    obtain ⟨a, ha, hc⟩ := hall _ (mem_of_lookup hv)
    have haa : a = e.2 := Option.some.inj (ha.symm.trans hr)
    rw [← haa]
    exact hc

end Maps

/-! ### Sections -/

theorem UpstreamConfig.ofToml_eq_some_iff {t : Table} {u : UpstreamConfig} :
    UpstreamConfig.ofToml (.table t) = some u ↔
      WellTyped asPort t "port".toList ∧ WellTyped (asArray asPort) t "ports".toList ∧
        WellTyped asString t "service_timeout".toList ∧
          u = ⟨(t.lookup "port".toList).bind asPort, (t.lookup "ports".toList).bind (asArray asPort),
            (t.lookup "service_timeout".toList).bind asString⟩ := by
  simp only [UpstreamConfig.ofToml, Option.bind_eq_bind, Option.bind_eq_some_iff,
    optionField_eq_some_iff, Option.pure_def, Option.some.injEq]
  refine ⟨?_, ?_⟩
  · rintro ⟨_, ⟨h1, rfl⟩, _, ⟨h2, rfl⟩, _, ⟨h3, rfl⟩, rfl⟩
    exact ⟨h1, h2, h3, rfl⟩
  · rintro ⟨h1, h2, h3, rfl⟩
    exact ⟨_, ⟨h1, rfl⟩, _, ⟨h2, rfl⟩, _, ⟨h3, rfl⟩, rfl⟩

theorem SslConfig.ofToml_eq_some_iff {t : Table} {ssl : SslConfig} :
    SslConfig.ofToml (.table t) = some ssl ↔
      (WellTyped asString t "cert".toList ∧ WellTyped asString t "key".toList ∧
        WellTyped asBool t "acme".toList ∧ WellTyped asString t "acme_email".toList ∧
          WellTyped (asArray asString) t "acme_domains".toList ∧
            WellTyped asString t "acme_cache".toList) ∧
        ssl = ⟨(t.lookup "cert".toList).bind asString, (t.lookup "key".toList).bind asString,
          (t.lookup "acme".toList).bind asBool, (t.lookup "acme_email".toList).bind asString,
          (t.lookup "acme_domains".toList).bind (asArray asString),
          (t.lookup "acme_cache".toList).bind asString⟩ := by
  simp only [SslConfig.ofToml, Option.bind_eq_bind, Option.bind_eq_some_iff,
    optionField_eq_some_iff, Option.pure_def, Option.some.injEq]
  refine ⟨?_, ?_⟩
  · rintro ⟨_, ⟨h1, rfl⟩, _, ⟨h2, rfl⟩, _, ⟨h3, rfl⟩, _, ⟨h4, rfl⟩, _, ⟨h5, rfl⟩, _, ⟨h6, rfl⟩, rfl⟩
    exact ⟨⟨h1, h2, h3, h4, h5, h6⟩, rfl⟩
  · rintro ⟨⟨h1, h2, h3, h4, h5, h6⟩, rfl⟩
    exact ⟨_, ⟨h1, rfl⟩, _, ⟨h2, rfl⟩, _, ⟨h3, rfl⟩, _, ⟨h4, rfl⟩, _, ⟨h5, rfl⟩, _, ⟨h6, rfl⟩, rfl⟩

theorem ClientConfig.ofToml_eq_some_iff {file : Table} {c : ClientConfig} :
    ClientConfig.ofToml file = some c ↔
      (file.lookup "mode".toList).bind asString = some c.mode ∧
      optionField asString file "host".toList = some c.host ∧
      optionField (asArray asString) file "hosts".toList = some c.hosts ∧
      optionField asPort file "listen_port".toList = some c.listenPort ∧
      optionField (asArray asPort) file "listens_port".toList = some c.listensPort ∧
      optionField UpstreamConfig.ofToml file "upstream".toList = some c.upstream ∧
      readEntries UpstreamConfig.ofToml (leftover file) = some c.upstreams ∧
      optionField SslConfig.ofToml file "ssl".toList = some c.ssl ∧
      readEntries SslConfig.ofToml (leftover file) = some c.sslPorts ∧
      optionField HeadersConfig.ofToml file "headers".toList = some c.headers := by
  unfold ClientConfig.ofToml
  simp only [Option.bind_eq_bind, Option.bind_eq_some_iff, Option.pure_def, Option.some.injEq]
  refine ⟨?_, ?_⟩
  · rintro ⟨_, h1, _, h2, _, h3, _, h4, _, h5, _, h6, _, h7, _, h8, _, h9, _, h10, rfl⟩
    exact ⟨h1, h2, h3, h4, h5, h6, h7, h8, h9, h10⟩
  · rintro ⟨h1, h2, h3, h4, h5, h6, h7, h8, h9, h10⟩
    exact ⟨_, h1, _, h2, _, h3, _, h4, _, h5, _, h6, _, h7, _, h8, _, h9, _, h10, rfl⟩

/-- The fields of a config that was read from the file. -/
structure ClientConfig.ReadFrom (c : ClientConfig) (file : Table) : Prop where
  host : c.host = (file.lookup "host".toList).bind asString
  hosts : c.hosts = (file.lookup "hosts".toList).bind (asArray asString)
  listenPort : c.listenPort = (file.lookup "listen_port".toList).bind asPort
  listensPort : c.listensPort = (file.lookup "listens_port".toList).bind (asArray asPort)
  upstream : c.upstream = (file.lookup "upstream".toList).bind UpstreamConfig.ofToml
  upstreams : readEntries UpstreamConfig.ofToml (leftover file) = some c.upstreams
  ssl : c.ssl = (file.lookup "ssl".toList).bind SslConfig.ofToml
  sslPorts : readEntries SslConfig.ofToml (leftover file) = some c.sslPorts

theorem ClientConfig.readFrom_of_ofToml {file : Table} {c : ClientConfig}
    (h : ClientConfig.ofToml file = some c) : c.ReadFrom file := by
  obtain ⟨-, hhost, hhosts, hport, hports, hup, hups, hssl, hssls, -⟩ := ofToml_eq_some_iff.mp h
  refine ⟨?_, ?_, ?_, ?_, ?_, hups, ?_, hssls⟩
  · exact (optionField_eq_some_iff.mp hhost).2
  · exact (optionField_eq_some_iff.mp hhosts).2
  · exact (optionField_eq_some_iff.mp hport).2
  · exact (optionField_eq_some_iff.mp hports).2
  · exact (optionField_eq_some_iff.mp hup).2
  · exact (optionField_eq_some_iff.mp hssl).2

/-- The keys of a table read as a complete upstream section. -/
def HasUpstreamFields (t : Table) : Prop :=
  WellTyped asPort t "port".toList ∧ WellTyped (asArray asPort) t "ports".toList ∧
    WellTyped asString t "service_timeout".toList ∧
      ((t.lookup "port".toList).isSome ↔ t.lookup "ports".toList = none)

/-- The keys of a table read as a complete TLS section. -/
def HasSslFields (t : Table) : Prop :=
  (WellTyped asString t "cert".toList ∧ WellTyped asString t "key".toList ∧
    WellTyped asBool t "acme".toList ∧ WellTyped asString t "acme_email".toList ∧
      WellTyped (asArray asString) t "acme_domains".toList ∧
        WellTyped asString t "acme_cache".toList) ∧
    if (t.lookup "acme".toList).bind asBool = some true then
      (t.lookup "acme_email".toList).isSome ∧ (t.lookup "acme_domains".toList).isSome
    else (t.lookup "cert".toList).isSome ∧ (t.lookup "key".toList).isSome

theorem hasUpstreamFields_iff {t : Table} : HasUpstreamFields t ↔
    ∃ u, UpstreamConfig.ofToml (.table t) = some u ∧ checkUpstream u = .ok () := by
  simp only [UpstreamConfig.ofToml_eq_some_iff, checkUpstream_eq_ok_iff]
  have hports : ∀ h : WellTyped (asArray asPort) t "ports".toList,
      (t.lookup "ports".toList).bind (asArray asPort) = none ↔ t.lookup "ports".toList = none := by
    intro h
    rw [← Option.not_isSome_iff_eq_none, h.isSome_bind, Option.not_isSome_iff_eq_none]
  refine ⟨fun ⟨h1, h2, h3, h4⟩ => ⟨_, ⟨h1, h2, h3, rfl⟩, ?_⟩, ?_⟩
  · rw [h1.isSome_bind, hports h2]
    exact h4
  · rintro ⟨u, ⟨h1, h2, h3, rfl⟩, h4⟩
    rw [h1.isSome_bind, hports h2] at h4
    exact ⟨h1, h2, h3, h4⟩

theorem hasSslFields_iff {t : Table} : HasSslFields t ↔
    ∃ ssl, SslConfig.ofToml (.table t) = some ssl ∧ checkSsl ssl = .ok () := by
  simp only [SslConfig.ofToml_eq_some_iff, checkSsl_eq_ok_iff]
  refine ⟨fun ⟨hw, h⟩ => ⟨_, ⟨hw, rfl⟩, ?_⟩, ?_⟩
  · obtain ⟨h1, h2, -, h4, h5, -⟩ := hw
    rw [h1.isSome_bind, h2.isSome_bind, h4.isSome_bind, h5.isSome_bind]
    exact h
  · rintro ⟨ssl, ⟨hw, rfl⟩, h⟩
    have hw' := hw
    obtain ⟨h1, h2, -, h4, h5, -⟩ := hw'
    rw [h1.isSome_bind, h2.isSome_bind, h4.isSome_bind, h5.isSome_bind] at h
    exact ⟨hw, h⟩

end Scety
