import Scety.Bytes
import Scety.Cli.Install
import Scety.Lib.Effects

/-!
# `cli/commands`: the commands of the administrator

`install`, `uninstall`, `stop`, `reload` and `status` as programs over what they ask the operating
system.  Any of it may fail, and the answers are any that the system may give.
-/

namespace Scety

open Effects

/-- The external programs that are started. -/
inductive Tool where
  /-- `useradd --system --no-create-home --shell /usr/sbin/nologin --user-group scety`. -/
  | useradd
  /-- `usermod -aG ssl-cert scety`. -/
  | usermod
  | systemctl (args : List Str)
  deriving DecidableEq

/-- `nix::unistd::User`, of the user that the service runs as. -/
structure User where
  uid : UInt32
  gid : UInt32

/-- `walkdir::DirEntry`. -/
structure WalkEntry where
  path : Str
  isDir : Bool

/-- `std::process::ExitStatus`, with the text that it is displayed as. -/
structure ExitStatus where
  success : Bool
  text : Str

/-- What the operating system is asked for, where an error ends the command. -/
inductive Call where
  /-- `User::from_name`. -/
  | user (name : Str)
  /-- `Group::from_name`. -/
  | group (name : Str)
  | createDirAll (path : Str)
  | write (path : Str) (contents : Bytes)
  | removeFile (path : Str)
  /-- The next entry that `WalkDir` yields. -/
  | nextEntry (dir : Str)
  | chown (path : Str) (owner group : Option UInt32)
  | setPermissions (path : Str) (mode : ℕ)
  /-- `Command::status`. -/
  | status (tool : Tool)
  /-- `Command::output`, of which the standard output is used. -/
  | output (tool : Tool)
  | currentExe

def Call.Value : Call → Type
  | user _ => Option User
  | group _ => Bool
  | nextEntry _ => WalkEntry
  | status _ => ExitStatus
  | output _ => Bytes
  | currentExe => Str
  | _ => Unit

inductive CliOp where
  /-- `Uid::effective().is_root()`. -/
  | isRoot
  | pathExists (path : Str)
  /-- `WalkDir::new`; the answer is how many entries the iterator is going to yield. -/
  | walk (dir : Str)
  | print (text : Str)
  | call (c : Call)

/-- The answers; an error is the text that it is displayed as. -/
def CliOp.Answer : CliOp → Type
  | isRoot => Bool
  | pathExists _ => Bool
  | walk _ => ℕ
  | print _ => Unit
  | call c => Except Str c.Value

abbrev CliEvent := Event CliOp CliOp.Answer

/-- How a command fails: with `std::process::exit(1)`, or with an error that `run_command` logs. -/
inductive Failure where
  | exit
  | error (text : Str)
  deriving DecidableEq

abbrev Cli := ExceptT Failure (Prog CliOp CliOp.Answer)

def request (op : CliOp) : Prog CliOp CliOp.Answer op.Answer := Prog.op op

/-- An operation that is answered in any case. -/
def ask (op : CliOp) : Cli op.Answer := ExceptT.lift (request op)

/-- The result of an operation that may fail. -/
def Failure.ofResult {α : Type} : Except Str α → Except Failure α
  | .ok a => .ok a
  | .error text => .error (.error text)

/-- An operation that is followed by `?`. -/
def attempt (c : Call) : Cli c.Value := ExceptT.mk (Failure.ofResult <$> request (.call c))

def isRoot : Cli Bool := ask .isRoot

def pathExists (path : Str) : Cli Bool := ask (.pathExists path)

def walkDir (dir : Str) : Cli ℕ := ask (.walk dir)

def print (text : Str) : Cli Unit := ask (.print text)

def userFromName (name : Str) : Cli (Option User) := attempt (.user name)

/-- Whether there is the group. -/
def groupFromName (name : Str) : Cli Bool := attempt (.group name)

def createDirAll (path : Str) : Cli Unit := attempt (.createDirAll path)

def writeFile (path : Str) (contents : Bytes) : Cli Unit := attempt (.write path contents)

def removeFile (path : Str) : Cli Unit := attempt (.removeFile path)

def nextEntry (dir : Str) : Cli WalkEntry := attempt (.nextEntry dir)

def chown (path : Str) (owner group : Option UInt32) : Cli Unit := attempt (.chown path owner group)

def setPermissions (path : Str) (mode : ℕ) : Cli Unit := attempt (.setPermissions path mode)

/-- `Command::new(..).status()?`. -/
def statusOf (tool : Tool) : Cli ExitStatus := attempt (.status tool)

/-- `Command::new(..).output()?.stdout`. -/
def stdoutOf (tool : Tool) : Cli Bytes := attempt (.output tool)

def currentExe : Cli Str := attempt .currentExe

/-! ### `install` -/

/-- `SCETY_USER`. -/
def scetyUser : Str := "scety".toList

/-- `SCETY_CONFIG_PATH`. -/
def scetyConfigPath : Str := mainScetyPath ++ "/scety.toml".toList

/-- `config_path.parent()`. -/
def scetyConfigDir : Str := mainScetyPath

def servicePath : Str := "/etc/systemd/system/scety.service".toList

def systemctl (args : List String) : Tool := .systemctl (args.map String.toList)

/-- `b.is_ascii_whitespace()`. -/
def isAsciiWhitespace (b : UInt8) : Bool := b = 0x20 ∨ b = 0x09 ∨ b = 0x0A ∨ b = 0x0C ∨ b = 0x0D

/-- `stdout.trim_ascii() == b"active"`. -/
def isActive (stdout : Bytes) : Bool := Trim.trim isAsciiWhitespace stdout = bytes "active".toList

def ensureSystemUser : Cli Unit := do
  if (← userFromName scetyUser).isSome then
    return
  let status ← statusOf .useradd
  if !status.success then
    throw (.error ("useradd exited with status ".toList ++ status.text))

def maybeJoinSslCertGroup : Cli Unit := do
  if !(← groupFromName "ssl-cert".toList) then
    return
  -- a status that is no success is only warned of
  let _ ← statusOf .usermod

/-- The `n` entries that the iterator has left. -/
def configureEntries (dir : Str) (gid : UInt32) : ℕ → Cli Unit
  | 0 => return
  | n + 1 => do
    let entry ← nextEntry dir
    chown entry.path none (some gid)
    let mode := if entry.isDir then 0o750 else 0o640
    setPermissions entry.path mode
    configureEntries dir gid n

/-- The part of `configure_permissions` about the cache of the certificates. -/
def prepareCache (scety : User) : Cli Unit := do
  createDirAll configurePermissionsCache
  chown configurePermissionsCache (some scety.uid) (some scety.gid)
  setPermissions configurePermissionsCache 0o700

def configurePermissions : Cli Unit := do
  match ← userFromName scetyUser with
  | none => throw (.error "scety user must exist by this point".toList)
  | some scety =>
    let n ← walkDir scetyConfigDir
    configureEntries scetyConfigDir scety.gid n
    prepareCache scety

/-- The default configuration file; `scetyConfig` is `SCETY_CONFIG`. -/
def ensureConfig (scetyConfig : Bytes) : Cli Unit := do
  if !(← pathExists scetyConfigPath) then
    createDirAll scetyConfigDir
    writeFile scetyConfigPath scetyConfig

/-- The service is installed, and is started if it is not active. -/
def startInstalled : Cli Unit := do
  let stdout ← stdoutOf (systemctl ["is-active", "scety"])
  if isActive stdout then
    return
  let _ ← statusOf (systemctl ["start", "scety"])

def installService : Cli Unit := do
  let exePath ← currentExe
  writeFile servicePath (bytes (installServiceContent exePath))
  let _ ← statusOf (systemctl ["daemon-reload"])
  let _ ← statusOf (systemctl ["enable", "--now", "scety"])

def ensureService : Cli Unit := do
  if ← pathExists servicePath then
    startInstalled
  else
    installService

def install (scetyConfig : Bytes) : Cli Unit := do
  if ← isRoot then
    ensureSystemUser
    maybeJoinSslCertGroup
    ensureConfig scetyConfig
    configurePermissions
    ensureService
  else
    throw .exit

/-! ### The other commands -/

def stopIfActive : Cli Unit := do
  let stdout ← stdoutOf (systemctl ["is-active", "scety"])
  if isActive stdout then
    let _ ← statusOf (systemctl ["stop", "scety"])

/-- The part of `uninstall` after the service was stopped. -/
def removeService : Cli Unit := do
  let _ ← statusOf (systemctl ["disable", "scety"])
  removeFile servicePath
  let _ ← statusOf (systemctl ["daemon-reload"])

def uninstall : Cli Unit := do
  if ← pathExists servicePath then
    stopIfActive
    removeService
  else
    throw (.error "Scety is not installed".toList)

/-- A command for an active service, which is refused with `message` if it is not active. -/
def control (verb message : String) : Cli Unit := do
  let stdout ← stdoutOf (systemctl ["is-active", "scety"])
  if isActive stdout then
    let _ ← statusOf (systemctl [verb, "scety"])
  else
    throw (.error message.toList)

def stop : Cli Unit := control "stop" "Scety is not running"

def reload : Cli Unit := control "restart" "Scety is not running yet! Use 'scety run' to start"

def status : Cli Unit := do
  let stdout ← stdoutOf (systemctl ["status", "scety"])
  if stdout.isEmpty then
    return
  print (fromUtf8Lossy stdout)

/-- The commands of `Commands` that are modelled here. -/
inductive Command where
  | install
  | uninstall
  | stop
  | reload
  | status
  deriving DecidableEq

def Command.program (scetyConfig : Bytes) : Command → Cli Unit
  | .install => Scety.install scetyConfig
  | .uninstall => Scety.uninstall
  | .stop => Scety.stop
  | .reload => Scety.reload
  | .status => Scety.status

/-- The exit code of the process, which `run_command` sets to 1 after an error. -/
def exitCode : Except Failure Unit → ℕ
  | .ok _ => 0
  | .error _ => 1

end Scety
