import Scety.Config.Toml

/-!
# `get_all_configs` and `scety check`: the files of the services directory

The loader leaves out every file that cannot be read, is no TOML, has fields of other types or does
not pass `validate_config`, and the command only looks at whether anything is left.  So its verdict
is the one on all files exactly when they are all valid or all broken (`check_reports_iff`).
-/

namespace Scety

/-- What `walkdir` yields for one entry: its path, whether it is a file, and the extension of the
path. -/
structure DirEntry where
  path : Str
  isFile : Bool
  extension : Option Str

/-- The file system, as far as the loader sees it: the entries below `SERVICES_CONFIGS_PATH` in the
order of the walk (or the errors met on it), and the contents of files. -/
structure FileSystem where
  services : List (Except Str DirEntry)
  readToString : Str → Except Str Str

def getAllConfigPaths (fs : FileSystem) : List Str :=
  (((fs.services.filterMap Except.toOption).filter (·.isFile)).filter fun e =>
    e.extension.any (· = "toml".toList)).map (·.path)

section Load

-- The text level of the `toml` crate.
variable (parseToml : Str → Except Str Table) (fs : FileSystem)

/-- The body of the loop, with its three ways to skip the file. -/
def loadFile (validate : Bool) (conf : Str) : Option ClientConfig :=
  match fs.readToString conf with
  | .error _ => none
  | .ok content =>
    match parseToml content with
    | .error _ => none
    | .ok file =>
      match ClientConfig.ofToml file with
      | none => none
      | some config =>
        if validate then
          match validateConfig config with
          | .error _ => none
          | .ok () => some config
        else some config

/-- One round of the loop: `continue`, or `push`. -/
def pushConfig (validate : Bool) (vecConfs : List ClientConfig) (conf : Str) : List ClientConfig :=
  match loadFile parseToml fs validate conf with
  | none => vecConfs
  | some config => vecConfs ++ [config]

def getAllConfigs (validate : Option Bool) : List ClientConfig :=
  (getAllConfigPaths fs).foldl (pushConfig parseToml fs (validate.getD true)) []

/-- `cli/commands/check.rs`. -/
def check : Except Str Unit :=
  if (getAllConfigs parseToml fs none).isEmpty then
    .error "No valid configuration files found".toList
  else .ok ()

/-- The file is readable, is TOML, has the fields of a service, and passes `validate_config`. -/
def ValidFile (conf : Str) (config : ClientConfig) : Prop :=
  ∃ content file, fs.readToString conf = .ok content ∧ parseToml content = .ok file ∧
    ClientConfig.ofToml file = some config ∧ validateConfig config = .ok ()

variable {parseToml} {fs}

theorem loadFile_eq_some_iff {conf : Str} {config : ClientConfig} :
    loadFile parseToml fs true conf = some config ↔ ValidFile parseToml fs conf config := by
  unfold loadFile ValidFile
  cases fs.readToString conf with
  | error e => simp
  | ok content =>
    cases hparse : parseToml content with
    | error e => simp [hparse]
    | ok file =>
      cases hread : ClientConfig.ofToml file with
      | none => simp [hparse, hread]
      | some c =>
        cases hvalid : validateConfig c with
        | error e =>
          simp only [hvalid, if_true, hparse, hread, Except.ok.injEq, Option.some.injEq,
            exists_and_left, exists_eq_left', reduceCtorEq, false_iff, not_and]
          rintro rfl h
          exact absurd (hvalid.symm.trans h) (by simp)
        | ok u =>
          simp only [hvalid, if_true, hparse, hread, Except.ok.injEq, Option.some.injEq,
            exists_and_left, exists_eq_left']
          exact ⟨fun h => ⟨h, h ▸ hvalid⟩, And.left⟩

/-- A valid file is one whose table `loadConfig` accepts. -/
theorem validFile_iff {conf : Str} {config : ClientConfig} :
    ValidFile parseToml fs conf config ↔ ∃ content file, fs.readToString conf = .ok content ∧
      parseToml content = .ok file ∧ loadConfig file = some config := by
  unfold ValidFile
  simp only [loadConfig_eq_some_iff]

theorem isSome_loadFile_iff {conf : Str} :
    (loadFile parseToml fs true conf).isSome = true ↔
      ∃ config, ValidFile parseToml fs conf config := by
  rw [Option.isSome_iff_exists]
  exact exists_congr fun config => loadFile_eq_some_iff

theorem foldl_pushConfig (validate : Bool) (confs : List Str) (vecConfs : List ClientConfig) :
    confs.foldl (pushConfig parseToml fs validate) vecConfs =
      vecConfs ++ confs.filterMap (loadFile parseToml fs validate) := by
  induction confs generalizing vecConfs with
  | nil => simp
  | cons conf confs ih =>
    rw [List.foldl_cons, ih]
    unfold pushConfig
    cases hload : loadFile parseToml fs validate conf with
    | none => rw [List.filterMap_cons_none hload]
    | some config => rw [List.filterMap_cons_some hload, List.append_assoc, List.singleton_append]

/-- The loader keeps the files that load, in the order of the walk. -/
theorem getAllConfigs_eq (validate : Option Bool) :
    getAllConfigs parseToml fs validate =
      (getAllConfigPaths fs).filterMap (loadFile parseToml fs (validate.getD true)) := by
  unfold getAllConfigs
  rw [foldl_pushConfig, List.nil_append]

open Classical in
/-- With validation, the loader returns the configs of the valid files, in order. -/
theorem forall₂_getAllConfigs : List.Forall₂ (ValidFile parseToml fs)
    ((getAllConfigPaths fs).filter fun conf => decide (∃ config, ValidFile parseToml fs conf config))
    (getAllConfigs parseToml fs none) := by
  rw [getAllConfigs_eq, Option.getD_none]
  induction getAllConfigPaths fs with
  | nil => exact .nil
  | cons conf confs ih =>
    cases hload : loadFile parseToml fs true conf with
    | none =>
      have hno : ¬ ∃ config, ValidFile parseToml fs conf config := by
        rw [← isSome_loadFile_iff, hload]
        simp
      rw [List.filterMap_cons_none hload, List.filter_cons_of_neg (by simpa using hno)]
      exact ih
    | some config =>
      have hvalid := loadFile_eq_some_iff.mp hload
      have hsome : ∃ config, ValidFile parseToml fs conf config := ⟨config, hvalid⟩
      rw [List.filterMap_cons_some hload, List.filter_cons_of_pos (by simpa using hsome)]
      exact .cons hvalid ih

/-- The command succeeds as soon as one file is valid. -/
theorem check_eq_ok_iff : check parseToml fs = .ok () ↔
    ∃ conf ∈ getAllConfigPaths fs, ∃ config, ValidFile parseToml fs conf config := by
  have hempty : (getAllConfigs parseToml fs none).isEmpty = false ↔
      ∃ conf ∈ getAllConfigPaths fs, ∃ config, ValidFile parseToml fs conf config := by
    rw [getAllConfigs_eq, Option.getD_none, ← Bool.not_eq_true, List.isEmpty_iff,
      List.filterMap_eq_nil_iff]
    simp only [← loadFile_eq_some_iff, ← Option.isSome_iff_exists, ← Option.ne_none_iff_isSome,
      not_forall, exists_prop]
  unfold check
  rw [← hempty]
  cases (getAllConfigs parseToml fs none).isEmpty <;> simp

open Classical in
/-- **`scety check` reports every broken file**, while the loader returns the configs of the valid
ones, if and only if all files are valid or none is. -/
theorem check_reports_iff (parseToml : Str → Except Str Table) (fs : FileSystem) :
    ((check parseToml fs = .ok () ↔ getAllConfigPaths fs ≠ [] ∧
        ∀ conf ∈ getAllConfigPaths fs, ∃ config, ValidFile parseToml fs conf config) ∧
      List.Forall₂ (ValidFile parseToml fs)
        ((getAllConfigPaths fs).filter fun conf =>
          decide (∃ config, ValidFile parseToml fs conf config))
        (getAllConfigs parseToml fs none)) ↔
      (∀ conf ∈ getAllConfigPaths fs, ∃ config, ValidFile parseToml fs conf config) ∨
        ∀ conf ∈ getAllConfigPaths fs, ¬ ∃ config, ValidFile parseToml fs conf config := by
  rw [and_iff_left forall₂_getAllConfigs, check_eq_ok_iff]
  refine ⟨fun h => ?_, ?_⟩
  · by_cases hsome : ∃ conf ∈ getAllConfigPaths fs, ∃ config, ValidFile parseToml fs conf config
    · exact Or.inl (h.mp hsome).2
    · exact Or.inr fun conf hconf hvalid => hsome ⟨conf, hconf, hvalid⟩
  · rintro (hall | hnone)
    · refine ⟨fun ⟨conf, hconf, _⟩ => ⟨List.ne_nil_of_mem hconf, hall⟩, fun ⟨hne, _⟩ => ?_⟩
      obtain ⟨conf, hconf⟩ := List.exists_mem_of_ne_nil _ hne
      exact ⟨conf, hconf, hall conf hconf⟩
    · refine ⟨fun ⟨conf, hconf, h⟩ => absurd h (hnone conf hconf), fun ⟨hne, hall⟩ => ?_⟩
      obtain ⟨conf, hconf⟩ := List.exists_mem_of_ne_nil _ hne
      exact absurd (hall conf hconf) (hnone conf hconf)

end Load

/-! ### One valid and one broken file -/

def minimalText : Str :=
  ("mode = \"reverse_proxy\"\nhost = \"example.com\"\nlisten_port = 80\n\n" ++
    "[upstream]\nport = 3000\n").toList

def minimalFile : Table :=
  [("mode".toList, .string "reverse_proxy".toList), ("host".toList, .string "example.com".toList),
    ("listen_port".toList, .integer 80), ("upstream".toList, .table [("port".toList, .integer 3000)])]

/-- A parser that knows the minimal file. -/
def parseMinimal (content : Str) : Except Str Table :=
  if content = minimalText then .ok minimalFile else .error "expected `=`".toList

/-- The minimal file, and one that is no TOML. -/
def oneBroken : FileSystem where
  services := [.ok ⟨"services/a.toml".toList, true, some "toml".toList⟩,
    .ok ⟨"services/b.toml".toList, true, some "toml".toList⟩]
  readToString path := if path = "services/a.toml".toList then .ok minimalText else .ok "host".toList

theorem exists_minimal_config : ∃ config, loadConfig minimalFile = some config := by
  refine ⟨⟨_, _, _, _, _, _, _, _, _, _⟩, loadConfig_eq_some_iff.mpr
    ⟨ClientConfig.ofToml_eq_some_iff.mpr ⟨rfl, rfl, rfl, rfl, rfl, rfl, rfl, rfl, rfl, rfl⟩, ?_⟩⟩
  rfl

theorem parseMinimal_ne : parseMinimal "host".toList = .error "expected `=`".toList :=
  if_neg (by decide)

/-- The check succeeds although the second file is broken. -/
theorem check_not_reporting : ¬ ∀ parseToml fs, check parseToml fs = .ok () ↔
    getAllConfigPaths fs ≠ [] ∧
      ∀ conf ∈ getAllConfigPaths fs, ∃ config, ValidFile parseToml fs conf config := by
  intro hall
  obtain ⟨config, hload⟩ := exists_minimal_config
  have hvalid : ValidFile parseMinimal oneBroken "services/a.toml".toList config :=
    validFile_iff.mpr ⟨minimalText, minimalFile, rfl, if_pos rfl, hload⟩
  have hok : check parseMinimal oneBroken = .ok () :=
    check_eq_ok_iff.mpr ⟨_, List.mem_cons_self, config, hvalid⟩
  obtain ⟨-, hevery⟩ := (hall parseMinimal oneBroken).mp hok
  obtain ⟨config', content, file, hread, hparse, -⟩ :=
    hevery "services/b.toml".toList (List.mem_cons_of_mem _ List.mem_cons_self)
  obtain rfl : "host".toList = content := Except.ok.inj hread
  exact absurd (parseMinimal_ne.symm.trans hparse) (by simp)

end Scety
