import Scety.Config.Services
import Scety.Http.Response
import Scety.Lib.Split
import Scety.Lib.Template

/-!
# `cli/commands/install.rs`: the installed unit

The text of the systemd unit that `install` writes, and the two other places that expand the path of
the ACME cache.  `install` replaces the main path inside the path of the executable and not inside the
unit, so that the unit keeps its placeholder whatever the executable is called.
-/

namespace Scety

open Template

/-- `MAIN_SCETY_PATH`, which `setting.toml` sets. -/
def mainScetyPath : Str := "/etc/scety".toList

def exePathPlaceholder : Str := "\x7bexe_path\x7d".toList

def mainPathPlaceholder : Str := "\x7bmain_path\x7d".toList

/-- `ACME_CACHE_PATH`. -/
def acmeCachePath : Str := mainPathPlaceholder ++ "/acme-cache".toList

/-- The lines of `SERVICE_CONTENT` before `ExecStart`. -/
def unitLines : List Str :=
  ["[Unit]".toList,
    "Description=Scety reverse proxy".toList,
    "After=network.target".toList,
    [],
    "[Service]".toList]

def execStartKey : Str := "ExecStart=".toList

/-- The lines between `ExecStart` and `ReadWritePaths`. -/
def serviceLines : List Str :=
  ["Restart=on-failure".toList,
    "RestartSec=5".toList,
    [],
    "User=scety".toList,
    "Group=scety".toList,
    "AmbientCapabilities=CAP_NET_BIND_SERVICE".toList,
    "CapabilityBoundingSet=CAP_NET_BIND_SERVICE".toList,
    "NoNewPrivileges=true".toList,
    [],
    "ProtectSystem=strict".toList,
    "ProtectHome=true".toList,
    "PrivateTmp=true".toList]

def readWritePathsKey : Str := "ReadWritePaths=".toList

/-- The lines after `ReadWritePaths`. -/
def sandboxLines : List Str :=
  ["ProtectKernelTunables=true".toList,
    "ProtectKernelModules=true".toList,
    "ProtectKernelLogs=true".toList,
    "ProtectControlGroups=true".toList,
    "ProtectClock=true".toList,
    "ProtectHostname=true".toList,
    "RestrictSUIDSGID=true".toList,
    "RestrictRealtime=true".toList,
    "RestrictNamespaces=true".toList,
    "LockPersonality=true".toList,
    "MemoryDenyWriteExecute=true".toList,
    "RestrictAddressFamilies=AF_INET AF_INET6 AF_UNIX".toList,
    "SystemCallArchitectures=native".toList,
    "# SystemCallFilter=@system-service".toList,
    [],
    "[Install]".toList,
    "WantedBy=multi-user.target".toList]

/-- Lines joined by line feeds, without one at the end. -/
def joinLines (ls : List Str) : Str := ['\n'].intercalate ls

/-- `SERVICE_CONTENT`. -/
def serviceContent : Str :=
  joinLines (unitLines ++ [execStartKey ++ exePathPlaceholder ++ " run".toList] ++ serviceLines ++
    [readWritePathsKey ++ mainPathPlaceholder ++ "/acme-cache".toList] ++ sandboxLines)

/-- The `service_content` of `install`, which it writes to the unit file. -/
def installServiceContent (exePath : Str) : Str :=
  replace serviceContent exePathPlaceholder (replace exePath mainPathPlaceholder mainScetyPath)

/-- The `acme_cache_path` that `configure_permissions` creates. -/
def configurePermissionsCache : Str := replace acmeCachePath mainPathPlaceholder mainScetyPath

/-- The `cache` of `build_acme_config`. -/
def buildAcmeConfigCache (ssl : SslConfig) : Str :=
  ssl.acmeCache.getD
    (replace (mainPathPlaceholder ++ "/acme-cache".toList) mainPathPlaceholder mainScetyPath)

/-- The value of the first `ReadWritePaths` line of a unit. -/
def readWritePaths (unit : Str) : Option Str :=
  ((unit.splitOn '\n').find? fun l => readWritePathsKey.isPrefixOf l).map
    (·.drop readWritePathsKey.length)

/-- A unit in which everything is filled in, and which lets the service write where the certificates
are kept. -/
structure Instantiated (unit : Str) : Prop where
  exePath : ¬ exePathPlaceholder <:+: unit
  mainPath : ¬ mainPathPlaceholder <:+: unit
  elsewhere : DiffersOnlyAt [exePathPlaceholder, mainPathPlaceholder] serviceContent unit
  created : readWritePaths unit = some configurePermissionsCache
  used : ∀ ssl : SslConfig, ssl.acmeCache = none →
    readWritePaths unit = some (buildAcmeConfigCache ssl)

/-! ### The text of the unit -/

/-- The unit with texts for the executable and the main path. -/
def unitWith (exePath mainPath : Str) : Str :=
  joinLines (unitLines ++ [execStartKey ++ exePath ++ " run".toList] ++ serviceLines ++
    [readWritePathsKey ++ mainPath ++ "/acme-cache".toList] ++ sandboxLines)

/-- The part of the unit before the executable. -/
def unitFront : Str := joinLines unitLines ++ '\n' :: execStartKey

/-- The part between the executable and the main path. -/
def unitMiddle : Str :=
  " run".toList ++ '\n' :: joinLines serviceLines ++ '\n' :: readWritePathsKey

/-- The part after the main path. -/
def unitBack : Str := "/acme-cache".toList ++ '\n' :: joinLines sandboxLines

theorem serviceContent_eq :
    serviceContent = unitWith exePathPlaceholder mainPathPlaceholder := rfl

theorem unitWith_eq (exePath mainPath : Str) : unitWith exePath mainPath =
    unitFront ++ (exePath ++ (unitMiddle ++ (mainPath ++ unitBack))) := by
  have hunit : unitLines ≠ [] := List.cons_ne_nil _ _
  have hservice : serviceLines ≠ [] := List.cons_ne_nil _ _
  have hsandbox : sandboxLines ≠ [] := List.cons_ne_nil _ _
  unfold unitWith unitFront unitMiddle unitBack joinLines
  rw [Split.intercalate_append (by simp) hsandbox, Split.intercalate_append (by simp) (by simp),
    Split.intercalate_append (by simp) hservice, Split.intercalate_append hunit (by simp)]
  simp only [List.intercalate_singleton, List.append_assoc, List.cons_append]

/-- A line without a line feed and without a placeholder. -/
def PlainLines (ls : List Str) : Prop := ∀ l ∈ ls, '\n' ∉ l ∧ '{' ∉ l

instance (ls : List Str) : Decidable (PlainLines ls) :=
  inferInstanceAs (Decidable (∀ l ∈ ls, '\n' ∉ l ∧ '{' ∉ l))

theorem plainLines_unitLines : PlainLines unitLines := by decide

theorem plainLines_serviceLines : PlainLines serviceLines := by decide

theorem plainLines_sandboxLines : PlainLines sandboxLines := by decide

/-- The lines of a unit are found again. -/
theorem splitOn_unitWith {exePath mainPath : Str} (he : '\n' ∉ exePath) (hm : '\n' ∉ mainPath) :
    (unitWith exePath mainPath).splitOn '\n' =
      unitLines ++ [execStartKey ++ exePath ++ " run".toList] ++ serviceLines ++
        [readWritePathsKey ++ mainPath ++ "/acme-cache".toList] ++ sandboxLines := by
  have hfeed : ∀ {ls : List Str}, PlainLines ls → ∀ l ∈ ls, '\n' ∉ l := fun h l hl => (h l hl).1
  have hexec : '\n' ∉ execStartKey ++ exePath ++ " run".toList := by
    simp only [List.mem_append, not_or]
    exact ⟨⟨by decide, he⟩, by decide⟩
  have hpaths : '\n' ∉ readWritePathsKey ++ mainPath ++ "/acme-cache".toList := by
    simp only [List.mem_append, not_or]
    exact ⟨⟨by decide, hm⟩, by decide⟩
  refine List.splitOn_intercalate _ ?_ (by simp)
  simp only [List.forall_mem_append, List.forall_mem_singleton]
  exact ⟨⟨⟨⟨hfeed plainLines_unitLines, hexec⟩, hfeed plainLines_serviceLines⟩, hpaths⟩,
    hfeed plainLines_sandboxLines⟩

/-- What the unit lets the service write. -/
theorem readWritePaths_unitWith {exePath mainPath : Str} (he : '\n' ∉ exePath)
    (hm : '\n' ∉ mainPath) :
    readWritePaths (unitWith exePath mainPath) = some (mainPath ++ "/acme-cache".toList) := by
  have hu : (unitLines.find? fun l => readWritePathsKey.isPrefixOf l) = none := by decide
  have hs : (serviceLines.find? fun l => readWritePathsKey.isPrefixOf l) = none := by decide
  have hexec : readWritePathsKey.isPrefixOf (execStartKey ++ exePath ++ " run".toList) = false :=
    rfl
  have hpaths : readWritePathsKey.isPrefixOf
      (readWritePathsKey ++ mainPath ++ "/acme-cache".toList) = true := by
    rw [List.isPrefixOf_iff_prefix, List.append_assoc]
    exact List.prefix_append _ _
  unfold readWritePaths
  rw [splitOn_unitWith he hm]
  simp only [List.find?_append, hu, hs, List.find?_singleton, hexec, hpaths, Option.none_or,
    Option.some_or, Bool.false_eq_true, if_false, if_true, Option.map_some]
  rw [List.append_assoc, List.drop_left]

theorem brace_notMem_joinLines {ls : List Str} (h : PlainLines ls) : '{' ∉ joinLines ls :=
  Split.notMem_intercalate (by decide) fun l hl => (h l hl).2

theorem brace_notMem_unitFront : '{' ∉ unitFront := by
  unfold unitFront
  rw [List.mem_append, List.mem_cons, not_or, not_or]
  exact ⟨brace_notMem_joinLines plainLines_unitLines, by decide, by decide⟩

theorem brace_notMem_unitMiddle : '{' ∉ unitMiddle := by
  unfold unitMiddle
  rw [List.append_assoc, List.mem_append, List.cons_append, List.mem_cons, List.mem_append,
    List.mem_cons]
  simp only [not_or]
  exact ⟨by decide, by decide, brace_notMem_joinLines plainLines_serviceLines, by decide,
    by decide⟩

theorem brace_notMem_unitBack : '{' ∉ unitBack := by
  unfold unitBack
  rw [List.mem_append, List.mem_cons, not_or, not_or]
  exact ⟨by decide, by decide, brace_notMem_joinLines plainLines_sandboxLines⟩

/-! ### What `install` writes -/

theorem replace_exePath (t new : Str) :
    replace (exePathPlaceholder ++ t) exePathPlaceholder new =
      new ++ replace t exePathPlaceholder new := replace_append_self t

/-- The other placeholder is not taken for it. -/
theorem replace_mainPath {t : Str} (h : '{' ∉ t) (new : Str) :
    replace (mainPathPlaceholder ++ t) exePathPlaceholder new = mainPathPlaceholder ++ t := by
  have hrest : '{' ∉ "main_path\x7d".toList ++ t := by
    rw [List.mem_append, not_or]
    exact ⟨by decide, h⟩
  have hfirst : replace (mainPathPlaceholder ++ t) exePathPlaceholder new =
      '{' :: replace ("main_path\x7d".toList ++ t) exePathPlaceholder new := rfl
  rw [hfirst]
  exact congrArg ('{' :: ·) (replace_of_notMem hrest)

theorem installServiceContent_eq (exePath : Str) :
    installServiceContent exePath =
      unitWith (replace exePath mainPathPlaceholder mainScetyPath) mainPathPlaceholder := by
  have hstep : ∀ {s : Str} (t new : Str), '{' ∉ s →
      replace (s ++ t) exePathPlaceholder new = s ++ replace t exePathPlaceholder new :=
    fun t _ h => replace_append_of_notMem h t
  unfold installServiceContent
  rw [serviceContent_eq, unitWith_eq, unitWith_eq, hstep _ _ brace_notMem_unitFront,
    replace_exePath, hstep _ _ brace_notMem_unitMiddle, replace_mainPath brace_notMem_unitBack]

/-- Both other places expand the path. -/
theorem configurePermissionsCache_eq :
    configurePermissionsCache = mainScetyPath ++ "/acme-cache".toList := by
  have hself : replace acmeCachePath mainPathPlaceholder mainScetyPath =
      mainScetyPath ++ replace "/acme-cache".toList mainPathPlaceholder mainScetyPath :=
    replace_append_self _
  have hrest : replace "/acme-cache".toList mainPathPlaceholder mainScetyPath =
      "/acme-cache".toList := replace_of_notMem (by decide)
  exact hself.trans (congrArg (mainScetyPath ++ ·) hrest)

theorem buildAcmeConfigCache_eq {ssl : SslConfig} (h : ssl.acmeCache = none) :
    buildAcmeConfigCache ssl = configurePermissionsCache := by
  unfold buildAcmeConfigCache
  rw [h]
  rfl

theorem unitWith_differs (exePath mainPath : Str) :
    DiffersOnlyAt [exePathPlaceholder, mainPathPlaceholder] serviceContent
      (unitWith exePath mainPath) := by
  have hexe : exePathPlaceholder ∈ [exePathPlaceholder, mainPathPlaceholder] :=
    List.mem_cons_self
  have hmain : mainPathPlaceholder ∈ [exePathPlaceholder, mainPathPlaceholder] :=
    List.mem_cons_of_mem _ List.mem_cons_self
  have hback := DiffersOnlyAt.hole mainPath hmain (.refl unitBack)
  rw [serviceContent_eq, unitWith_eq, unitWith_eq]
  exact (DiffersOnlyAt.hole exePath hexe (hback.append unitMiddle)).append unitFront

/-- A unit with both texts filled in is what is asked for. -/
theorem instantiated_unitWith {exePath : Str} (hb : '{' ∉ exePath) (hn : '\n' ∉ exePath) :
    Instantiated (unitWith exePath mainScetyPath) := by
  have hbrace : '{' ∉ unitWith exePath mainScetyPath := by
    rw [unitWith_eq]
    simp only [List.mem_append, not_or]
    exact ⟨brace_notMem_unitFront, hb, brace_notMem_unitMiddle, by decide, brace_notMem_unitBack⟩
  have hpaths : readWritePaths (unitWith exePath mainScetyPath) =
      some configurePermissionsCache := by
    rw [readWritePaths_unitWith hn (by decide), configurePermissionsCache_eq]
  refine ⟨fun h => ?_, fun h => ?_, unitWith_differs _ _, hpaths, fun ssl hssl => ?_⟩
  · exact hbrace (h.mem List.mem_cons_self)
  · exact hbrace (h.mem List.mem_cons_self)
  · rw [hpaths, buildAcmeConfigCache_eq hssl]

/-- The installed unit names the path with its placeholder. -/
theorem readWritePaths_installed {exePath : Str} (hb : '{' ∉ exePath) (hn : '\n' ∉ exePath) :
    readWritePaths (installServiceContent exePath) = some acmeCachePath := by
  have hexe : replace exePath mainPathPlaceholder mainScetyPath = exePath := replace_of_notMem hb
  rw [installServiceContent_eq, hexe]
  exact readWritePaths_unitWith hn (by decide)

/-- **The installed unit is never fully instantiated**: whatever the path of the executable, the main
path is left as a placeholder. -/
theorem installed_unit_not_instantiated (exePath : Str) :
    ¬ Instantiated (installServiceContent exePath) := by
  intro h
  refine h.mainPath ?_
  rw [installServiceContent_eq, unitWith_eq]
  refine ⟨unitFront ++ (replace exePath mainPathPlaceholder mainScetyPath ++ unitMiddle), unitBack,
    ?_⟩
  simp only [List.append_assoc]

/-- A usual place of the executable. -/
theorem installed_unit_fails : ¬ ∀ exePath : Str, '{' ∉ exePath →
    Instantiated (installServiceContent exePath) := by
  intro hall
  exact (hall "/usr/local/bin/scety".toList (by decide)).mainPath
    ⟨unitFront ++ ("/usr/local/bin/scety".toList ++ unitMiddle), unitBack, by
      rw [installServiceContent_eq, unitWith_eq]
      simp only [List.append_assoc]
      rfl⟩

end Scety
