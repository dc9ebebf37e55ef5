import Scety.Cli.Commands
import Scety.Lib.History

/-!
# `cli/commands`: what a command may do

What a command may do is decided by what it has done: the administrator's files are written only where
there was none, the unit is written only when everything else is prepared, and nothing follows a
failure.  Every partial run of every command keeps to that.
-/

namespace Scety

open Effects

/-! ### Failures -/

/-- The error of an operation. -/
def osError : CliEvent → Option Str
  | ⟨.call _, .error text⟩ => some text
  | _ => none

/-- What a command that controls the service says when it is not active. -/
def Command.notActive : Command → Option Str
  | .stop => some "Scety is not running".toList
  | .reload => some "Scety is not running yet! Use 'scety run' to start".toList
  | _ => none

/-- An answer that is no error and ends the command nevertheless. -/
def Command.refusal (cmd : Command) (before : List CliEvent) : CliEvent → Option Failure
  | ⟨.isRoot, false⟩ => some .exit
  | ⟨.call (.user _), .ok none⟩ =>
    -- the first lookup only decides whether the user is created
    if before.any fun ev => ev.1 matches .pathExists _ then
      some (.error "scety user must exist by this point".toList)
    else none
  | ⟨.call (.status .useradd), .ok ended⟩ =>
    if ended.success then none
    else some (.error ("useradd exited with status ".toList ++ ended.text))
  | ⟨.pathExists _, false⟩ =>
    if cmd = .uninstall then some (.error "Scety is not installed".toList) else none
  | ⟨.call (.output _), .ok stdout⟩ =>
    if isActive stdout then none else cmd.notActive.map .error
  | _ => none

/-- How the command fails at an event, if it does. -/
def Command.failure (cmd : Command) (before : List CliEvent) (ev : CliEvent) : Option Failure :=
  match osError ev with
  | some text => some (.error text)
  | none => cmd.refusal before ev

/-- Nothing has failed. -/
def Command.Clean (cmd : Command) (tr : List CliEvent) : Prop :=
  ∀ tr₁ ev tr₂, tr = tr₁ ++ ev :: tr₂ → cmd.failure tr₁ ev = none

/-- The last event is the first one that has failed. -/
def Command.Failed (cmd : Command) (failure : Failure) (tr : List CliEvent) : Prop :=
  ∃ tr₁ ev, tr = tr₁ ++ [ev] ∧ cmd.Clean tr₁ ∧ cmd.failure tr₁ ev = some failure

/-! ### What a command may do -/

/-- The call has succeeded, with this answer. -/
def Done (c : Call) (a : c.Value) (before : List CliEvent) : Prop := ⟨.call c, .ok a⟩ ∈ before

/-- The path was looked for, and was found or not. -/
def Looked (path : Str) (found : Bool) (before : List CliEvent) : Prop :=
  ⟨.pathExists path, found⟩ ∈ before

def Rooted (before : List CliEvent) : Prop := ⟨.isRoot, true⟩ ∈ before

/-- The user is there, or was created. -/
def UserExists (before : List CliEvent) : Prop :=
  (∃ user, Done (.user scetyUser) (some user) before) ∨
    ∃ status, status.success = true ∧ Done (.status .useradd) status before

/-- The cache of the certificates belongs to the user, and only it may read it. -/
def CachePrepared (before : List CliEvent) : Prop :=
  (∃ user, Done (.user scetyUser) (some user) before ∧
    Done (.chown configurePermissionsCache (some user.uid) (some user.gid)) () before) ∧
  Done (.setPermissions configurePermissionsCache 0o700) () before

/-- The mode of an entry of the configuration directory. -/
def WalkEntry.mode (entry : WalkEntry) : ℕ := if entry.isDir then 0o750 else 0o640

def Active (before : List CliEvent) : Prop :=
  ∃ stdout, isActive stdout = true ∧
    Done (.output (systemctl ["is-active", "scety"])) stdout before

def Inactive (before : List CliEvent) : Prop :=
  ∃ stdout, isActive stdout = false ∧
    Done (.output (systemctl ["is-active", "scety"])) stdout before

/-- What `install` may do. -/
def MayInstall (scetyConfig : Bytes) (before : List CliEvent) : CliOp → Prop
  | .isRoot => before = []
  | .call (.user name) => name = scetyUser
  | .call (.group _) => UserExists before
  | .pathExists _ => UserExists before
  | .call (.createDirAll path) =>
    (path = scetyConfigDir ∧ Looked scetyConfigPath false before) ∨
      path = configurePermissionsCache
  | .call (.write path contents) => Looked path false before ∧
    ((path = scetyConfigPath ∧ contents = scetyConfig) ∨
      (path = servicePath ∧ CachePrepared before ∧ ∃ exePath,
        Done .currentExe exePath before ∧ contents = bytes (installServiceContent exePath)))
  | .walk dir => dir = scetyConfigDir
  | .call (.nextEntry dir) => dir = scetyConfigDir
  | .call (.chown path owner group) => ∃ user, Done (.user scetyUser) (some user) before ∧
    group = some user.gid ∧
    ((owner = none ∧ ∃ entry, Done (.nextEntry scetyConfigDir) entry before ∧
        path = entry.path) ∨
      (owner = some user.uid ∧ path = configurePermissionsCache))
  | .call (.setPermissions path mode) =>
    (∃ owner group, Done (.chown path owner group) () before) ∧
    ((mode = 0o700 ∧ path = configurePermissionsCache) ∨
      ∃ entry, Done (.nextEntry scetyConfigDir) entry before ∧ path = entry.path ∧
        mode = entry.mode)
  | .call (.status .useradd) => Done (.user scetyUser) none before
  | .call (.status .usermod) => Done (.group "ssl-cert".toList) true before
  | .call (.status tool) => CachePrepared before ∧
    ((tool = systemctl ["start", "scety"] ∧ Looked servicePath true before ∧ Inactive before) ∨
      ∃ contents, Done (.write servicePath contents) () before ∧
        (tool = systemctl ["daemon-reload"] ∨
          (tool = systemctl ["enable", "--now", "scety"] ∧
            ∃ status, Done (.status (systemctl ["daemon-reload"])) status before)))
  | .call (.output tool) => CachePrepared before ∧ tool = systemctl ["is-active", "scety"] ∧
    Looked servicePath true before
  | .call .currentExe => CachePrepared before ∧ Looked servicePath false before
  | _ => False

/-- What `uninstall` may do. -/
def MayUninstall (before : List CliEvent) : CliOp → Prop
  | .pathExists path => before = [] ∧ path = servicePath
  | .call (.output tool) => tool = systemctl ["is-active", "scety"] ∧
    Looked servicePath true before
  | .call (.removeFile path) => path = servicePath ∧ Looked servicePath true before ∧
    ∃ status, Done (.status (systemctl ["disable", "scety"])) status before
  | .call (.status tool) => Looked servicePath true before ∧
    ((tool = systemctl ["stop", "scety"] ∧ Active before) ∨ tool = systemctl ["disable", "scety"] ∨
      (tool = systemctl ["daemon-reload"] ∧ Done (.removeFile servicePath) () before))
  | _ => False

/-- What a command may do that asks for the state of the service, and then for `verb`. -/
def MayControl (verb : String) (before : List CliEvent) : CliOp → Prop
  | .call (.output tool) => before = [] ∧ tool = systemctl ["is-active", "scety"]
  | .call (.status tool) => tool = systemctl [verb, "scety"] ∧ Active before
  | _ => False

/-- What `status` may do. -/
def MayShow (before : List CliEvent) : CliOp → Prop
  | .call (.output tool) => before = [] ∧ tool = systemctl ["status", "scety"]
  | .print text => ∃ stdout, Done (.output (systemctl ["status", "scety"])) stdout before ∧
    stdout ≠ [] ∧ text = fromUtf8Lossy stdout
  | _ => False

def Command.May (scetyConfig : Bytes) : Command → List CliEvent → CliOp → Prop
  | .install => fun before op => MayInstall scetyConfig before op ∧
    (op ≠ .isRoot → Rooted before)
  | .uninstall => MayUninstall
  | .stop => MayControl "stop"
  | .reload => MayControl "restart"
  | .status => MayShow

/-! ### Rules -/

section Rules

variable {cmd : Command} {scetyConfig : Bytes} {tr : List CliEvent} {ev : CliEvent}
  {K K' : List CliEvent → Prop}

theorem Command.clean_nil : cmd.Clean [] := fun tr₁ _ _ h =>
  absurd h.symm (List.append_ne_nil_of_right_ne_nil tr₁ (List.cons_ne_nil _ _))

theorem Command.Clean.concat (h : cmd.Clean tr) (hev : cmd.failure tr ev = none) :
    cmd.Clean (tr ++ [ev]) := by
  intro tr₁ ev' tr₂ heq
  rcases List.eq_nil_or_concat' tr₂ with rfl | ⟨tr₃, ev'', rfl⟩
  · obtain ⟨rfl, hlast⟩ := List.append_inj' heq rfl
    obtain rfl := List.head_eq_of_cons_eq hlast
    exact hev
  · have heq' : tr ++ [ev] = (tr₁ ++ ev' :: tr₃) ++ [ev''] := by
      rw [heq, List.append_assoc, List.cons_append]
    exact h tr₁ ev' tr₃ (List.append_inj' heq' rfl).1

/-- Nothing has failed, and `K` holds. -/
def Command.Holds (cmd : Command) (K : List CliEvent → Prop) (tr : List CliEvent) : Prop :=
  cmd.Clean tr ∧ K tr

/-- The event has come after a history like that. -/
def Command.Now (cmd : Command) (K : List CliEvent → Prop) (ev : CliEvent) (tr : List CliEvent) :
    Prop :=
  ∃ before, tr = before ++ [ev] ∧ cmd.Holds K before

theorem Command.Now.holds (h : cmd.Now K ev tr)
    (hno : ∀ before, K before → cmd.failure before ev = none)
    (hK : ∀ before, K before → K' (before ++ [ev])) : cmd.Holds K' tr := by
  obtain ⟨before, rfl, hclean, hbefore⟩ := h
  exact ⟨hclean.concat (hno before hbefore), hK before hbefore⟩

theorem Command.Now.failed (h : cmd.Now K ev tr) {failure : Failure}
    (hf : ∀ before, K before → cmd.failure before ev = some failure) : cmd.Failed failure tr := by
  obtain ⟨before, rfl, hclean, hbefore⟩ := h
  exact ⟨before, ev, rfl, hclean, hf before hbefore⟩

/-- The assertions of a command's runs. -/
abbrev Command.Triple {α : Type} (cmd : Command) (scetyConfig : Bytes)
    (pre : List CliEvent → Prop) (p : Cli α) (post : α → List CliEvent → Prop) : Prop :=
  Effects.Triple (fun tr op => cmd.Clean tr ∧ cmd.May scetyConfig tr op) cmd.Failed pre p post

theorem triple_ask (op : CliOp) (hmay : ∀ tr, K tr → cmd.May scetyConfig tr op) :
    cmd.Triple scetyConfig (cmd.Holds K) (ask op) fun a => cmd.Now K ⟨op, a⟩ := by
  intro tr htr
  refine obeys_perform trivial ⟨htr.1, hmay tr htr.2⟩ ?_
  intro r
  exact ⟨tr, rfl, htr⟩

theorem triple_attempt {c : Call} (hmay : ∀ tr, K tr → cmd.May scetyConfig tr (.call c)) :
    cmd.Triple scetyConfig (cmd.Holds K) (attempt c) fun a => cmd.Now K ⟨.call c, .ok a⟩ := by
  intro tr htr
  refine obeys_perform trivial ⟨htr.1, hmay tr htr.2⟩ ?_
  intro r
  cases r with
  | error text => exact ⟨tr, _, rfl, htr.1, rfl⟩
  | ok a => exact ⟨tr, rfl, htr⟩

/-- A call that is not refused by what it answers. -/
theorem triple_call {c : Call} (hK : Persistent K)
    (hmay : ∀ tr, K tr → cmd.May scetyConfig tr (.call c))
    (hno : ∀ before a, cmd.failure before ⟨.call c, .ok a⟩ = none) :
    cmd.Triple scetyConfig (cmd.Holds K) (attempt c) fun a =>
      cmd.Holds fun tr => K tr ∧ Done c a tr := by
  refine (triple_attempt hmay).mono (fun _ h => h) ?_
  intro a tr h
  refine h.holds (fun before _ => hno before a) ?_
  intro before hbefore
  exact ⟨hK (List.prefix_append _ _) hbefore, List.mem_append_right _ List.mem_cons_self⟩

theorem persistent_done (c : Call) (a : c.Value) : Persistent (Done c a) := persistent_mem _

theorem persistent_looked (path : Str) (found : Bool) : Persistent (Looked path found) :=
  persistent_mem _

theorem persistent_rooted : Persistent Rooted := persistent_mem _

theorem persistent_userExists : Persistent UserExists := by
  rintro tr tr' hprefix (⟨user, h⟩ | ⟨status, hsuccess, h⟩)
  · exact Or.inl ⟨user, persistent_done _ _ hprefix h⟩
  · exact Or.inr ⟨status, hsuccess, persistent_done _ _ hprefix h⟩

theorem persistent_cachePrepared : Persistent CachePrepared := by
  rintro tr tr' hprefix ⟨⟨user, huser, hchown⟩, hmode⟩
  exact ⟨⟨user, persistent_done _ _ hprefix huser, persistent_done _ _ hprefix hchown⟩,
    persistent_done _ _ hprefix hmode⟩

end Rules

end Scety
