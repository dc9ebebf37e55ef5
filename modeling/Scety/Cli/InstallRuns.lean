import Scety.Cli.CommandRules

/-!
# `cli/commands/install.rs`: the runs of `install`

Every operation of `install` is one that it may do, and a run that succeeds has prepared everything: the
user, the configuration file and the permissions of its directory, the cache of the certificates, and a
service that is started.
-/

namespace Scety

open Effects

section Install

variable {scetyConfig : Bytes}

/-- A point of a run of `install` where nothing has failed. -/
def Installing (K : List CliEvent → Prop) : List CliEvent → Prop :=
  Command.install.Holds fun tr => Rooted tr ∧ K tr

abbrev InstallTriple {α : Type} (scetyConfig : Bytes) (pre : List CliEvent → Prop) (p : Cli α)
    (post : α → List CliEvent → Prop) : Prop :=
  Command.install.Triple scetyConfig pre p post

variable {K K' : List CliEvent → Prop} {tr : List CliEvent}

theorem Installing.mono (h : Installing K tr) (hK : ∀ tr, K tr → K' tr) : Installing K' tr :=
  ⟨h.1, h.2.1, hK tr h.2.2⟩

/-- A call that may be refused by what it answers. -/
theorem install_attempt {c : Call} (hmay : ∀ tr, K tr → MayInstall scetyConfig tr (.call c)) :
    InstallTriple scetyConfig (Installing K) (attempt c) fun a =>
      Command.install.Now (fun tr => Rooted tr ∧ K tr) ⟨.call c, .ok a⟩ :=
  triple_attempt fun tr h => ⟨hmay tr h.2, fun _ => h.1⟩

theorem install_call {c : Call} (hK : Persistent K)
    (hmay : ∀ tr, K tr → MayInstall scetyConfig tr (.call c))
    (hno : ∀ before a, Command.install.failure before ⟨.call c, .ok a⟩ = none) :
    InstallTriple scetyConfig (Installing K) (attempt c) fun a =>
      Installing fun tr => K tr ∧ Done c a tr := by
  refine (triple_call (persistent_rooted.and hK) ?_ hno).mono (fun _ h => h) ?_
  · rintro tr ⟨hroot, htr⟩
    exact ⟨hmay tr htr, fun _ => hroot⟩
  · rintro a tr ⟨hclean, ⟨hroot, htr⟩, hdone⟩
    exact ⟨hclean, hroot, htr, hdone⟩

theorem install_pathExists {path : Str} (hK : Persistent K) (hmay : ∀ tr, K tr → UserExists tr) :
    InstallTriple scetyConfig (Installing K) (pathExists path) fun found =>
      Installing fun tr => K tr ∧ Looked path found tr := by
  refine (triple_ask (.pathExists path) ?_).mono (fun _ h => h) ?_
  · rintro tr ⟨hroot, htr⟩
    exact ⟨hmay tr htr, fun _ => hroot⟩
  · intro found tr h
    refine h.holds (fun before _ => ?_) ?_
    · cases found <;> rfl
    · rintro before ⟨hroot, hbefore⟩
      exact ⟨persistent_rooted (List.prefix_append _ _) hroot, hK (List.prefix_append _ _) hbefore,
        List.mem_append_right _ List.mem_cons_self⟩

theorem triple_ensureSystemUser :
    InstallTriple scetyConfig (Command.install.Holds (· = [⟨.isRoot, true⟩])) ensureSystemUser
      fun _ => Installing UserExists := by
  unfold ensureSystemUser
  refine (triple_attempt (c := .user scetyUser) ?_).bind ?_
  · rintro tr rfl
    exact ⟨rfl, fun _ => List.mem_singleton.mpr rfl⟩
  rintro (_ | user)
  · have huseradd : InstallTriple scetyConfig (Installing (Done (.user scetyUser) none))
        (statusOf .useradd) fun status => Command.install.Now
          (fun tr => Rooted tr ∧ Done (.user scetyUser) none tr) ⟨.call (.status .useradd), .ok status⟩ :=
      install_attempt fun _ h => h
    simp only [Option.isSome_none, Bool.false_eq_true, if_false]
    refine (huseradd.bind ?_).mono (fun tr h => h.holds ?_ ?_) fun _ _ h => h
    · intro status
      cases hstatus : status.success with
      | false =>
        refine triple_throw fun tr h => h.failed fun before _ => ?_
        exact if_neg (by rw [hstatus]; exact Bool.false_ne_true)
      | true =>
        refine triple_pure fun tr h => h.holds (fun before _ => if_pos hstatus) ?_
        rintro before ⟨hroot, -⟩
        exact ⟨persistent_rooted (List.prefix_append _ _) hroot,
          Or.inr ⟨status, hstatus, List.mem_append_right _ List.mem_cons_self⟩⟩
    · rintro before rfl
      rfl
    · rintro before rfl
      exact ⟨List.mem_cons_self, List.mem_cons_of_mem _ List.mem_cons_self⟩
  · refine triple_pure fun tr h => h.holds (fun _ _ => rfl) ?_
    rintro before rfl
    exact ⟨List.mem_cons_self, Or.inl ⟨user, List.mem_cons_of_mem _ List.mem_cons_self⟩⟩

theorem triple_maybeJoinSslCertGroup :
    InstallTriple scetyConfig (Installing UserExists) maybeJoinSslCertGroup
      fun _ => Installing UserExists := by
  unfold maybeJoinSslCertGroup
  refine (install_call (c := .group "ssl-cert".toList) persistent_userExists (fun _ h => h)
    fun _ _ => rfl).bind ?_
  rintro (_ | _)
  · exact triple_pure fun tr h => h.mono fun _ h => h.1
  · refine (install_call (c := .status .usermod)
      (persistent_userExists.and (persistent_done (.group "ssl-cert".toList) true))
      (fun _ h => h.2) fun _ _ => rfl).bind fun _ => ?_
    exact triple_pure fun tr h => h.mono fun _ h => h.1.1

/-- The configuration file was there, or was written. -/
def ConfigWritten (scetyConfig : Bytes) (before : List CliEvent) : Prop :=
  Looked scetyConfigPath true before ∨
    (Looked scetyConfigPath false before ∧ Done (.write scetyConfigPath scetyConfig) () before)

theorem persistent_configWritten (scetyConfig : Bytes) : Persistent (ConfigWritten scetyConfig) := by
  rintro tr tr' hprefix (h | ⟨hlooked, hwritten⟩)
  · exact Or.inl (persistent_looked _ _ hprefix h)
  · exact Or.inr ⟨persistent_looked _ _ hprefix hlooked, persistent_done _ _ hprefix hwritten⟩

theorem ConfigWritten.any_pathExists (h : ConfigWritten scetyConfig tr) :
    (tr.any fun ev => ev.1 matches .pathExists _) = true := by
  rcases h with h | ⟨h, -⟩
  · exact List.any_eq_true.mpr ⟨_, h, rfl⟩
  · exact List.any_eq_true.mpr ⟨_, h, rfl⟩

theorem triple_ensureConfig :
    InstallTriple scetyConfig (Installing UserExists) (ensureConfig scetyConfig)
      fun _ => Installing fun tr => UserExists tr ∧ ConfigWritten scetyConfig tr := by
  unfold ensureConfig
  refine (install_pathExists persistent_userExists fun _ h => h).bind ?_
  rintro (_ | _)
  · have hK := persistent_userExists.and (persistent_looked scetyConfigPath false)
    refine (install_call (c := .createDirAll scetyConfigDir) hK (fun _ h => Or.inl ⟨rfl, h.2⟩)
      fun _ _ => rfl).bind fun _ => ?_
    refine (install_call (c := .write scetyConfigPath scetyConfig)
      (hK.and (persistent_done (.createDirAll scetyConfigDir) ()))
      (fun _ h => ⟨h.1.2, Or.inl ⟨rfl, rfl⟩⟩) fun _ _ => rfl).mono (fun _ h => h) ?_
    exact fun _ tr h => h.mono fun _ h => ⟨h.1.1.1, Or.inr ⟨h.1.1.2, h.2⟩⟩
  · exact triple_pure fun tr h => h.mono fun _ h => ⟨h.1, Or.inl h.2⟩

/-! #### The permissions -/

def CliOp.isNextEntry : CliOp → Bool
  | call (.nextEntry _) => true
  | _ => false

/-- What `configure_permissions` does to an entry. -/
def EntryConfigured (user : User) (entry : WalkEntry) (before : List CliEvent) : Prop :=
  Done (.chown entry.path none (some user.gid)) () before ∧
    Done (.setPermissions entry.path entry.mode) () before

/-- The walk has `left` entries left, and those before them are configured, but for the one at hand. -/
def Walked (user : User) (left : ℕ) (atHand : Option WalkEntry) (before : List CliEvent) : Prop :=
  ⟨.walk scetyConfigDir, before.countP (fun ev => ev.1.isNextEntry) + left⟩ ∈ before ∧
    ∀ entry : WalkEntry, Done (.nextEntry scetyConfigDir) entry before →
      entry ∈ atHand ∨ EntryConfigured user entry before

theorem Walked.concat {user : User} {left : ℕ} {atHand : Option WalkEntry} {ev : CliEvent}
    (hev : ev.1.isNextEntry = false) (h : Walked user left atHand tr) :
    Walked user left atHand (tr ++ [ev]) := by
  have hprefix : tr <+: tr ++ [ev] := List.prefix_append _ _
  refine ⟨?_, ?_⟩
  · rw [List.countP_append, List.countP_singleton, if_neg (by simp [hev]), Nat.add_zero]
    exact List.mem_append_left _ h.1
  · intro entry hentry
    rcases List.mem_append.mp hentry with hentry | hentry
    · refine (h.2 entry hentry).imp_right ?_
      rintro ⟨hchown, hmode⟩
      exact ⟨persistent_done _ _ hprefix hchown, persistent_done _ _ hprefix hmode⟩
    · obtain rfl := List.mem_singleton.mp hentry
      exact nomatch hev

/-- The next entry. -/
def yielded (entry : WalkEntry) : CliEvent := ⟨.call (.nextEntry scetyConfigDir), .ok entry⟩

theorem Walked.next {user : User} {left : ℕ} {entry : WalkEntry} (h : Walked user (left + 1) none tr) :
    Walked user left (some entry) (tr ++ [yielded entry]) := by
  have hprefix : tr <+: tr ++ [yielded entry] := List.prefix_append _ _
  refine ⟨?_, ?_⟩
  · have hcount : (tr ++ [yielded entry]).countP (fun ev => ev.1.isNextEntry) + left =
        tr.countP (fun ev => ev.1.isNextEntry) + (left + 1) := by
      have hyields : (yielded entry).1.isNextEntry = true := rfl
      rw [List.countP_append, List.countP_singleton, if_pos hyields]
      omega
    rw [hcount]
    exact List.mem_append_left _ h.1
  · intro entry' hentry'
    rcases List.mem_append.mp hentry' with hentry' | hentry'
    · obtain ⟨hchown, hmode⟩ := (h.2 entry' hentry').resolve_left (Option.not_mem_none _)
      exact Or.inr ⟨persistent_done _ _ hprefix hchown, persistent_done _ _ hprefix hmode⟩
    · cases List.mem_singleton.mp hentry'
      exact Or.inl rfl

/-- The entry at hand is configured. -/
theorem Walked.done {user : User} {left : ℕ} {entry : WalkEntry} (h : Walked user left (some entry) tr)
    (hentry : EntryConfigured user entry tr) : Walked user left none tr := by
  refine ⟨h.1, ?_⟩
  intro entry' hentry'
  rcases h.2 entry' hentry' with hat | hconfigured
  · obtain rfl := Option.some.inj hat
    exact Or.inr hentry
  · exact Or.inr hconfigured

theorem only_attempt {P : CliOp → Prop} {c : Call} (h : P (.call c)) : Only P (attempt c).run :=
  only_map (only_op h)

theorem triple_configureEntries (user : User) (n : ℕ) :
    InstallTriple scetyConfig
      (fun tr => Installing (Done (.user scetyUser) (some user)) tr ∧ Walked user n none tr)
      (configureEntries scetyConfigDir user.gid n)
      fun _ tr => Installing (Done (.user scetyUser) (some user)) tr ∧ Walked user 0 none tr := by
  have huser := persistent_done (.user scetyUser) (some user)
  induction n with
  | zero => exact triple_pure fun _ h => h
  | succ n ih =>
    have hnext : InstallTriple scetyConfig
        (fun tr => Installing (Done (.user scetyUser) (some user)) tr ∧ Walked user (n + 1) none tr)
        (nextEntry scetyConfigDir) fun entry tr => Installing (fun tr =>
          Done (.user scetyUser) (some user) tr ∧ Done (.nextEntry scetyConfigDir) entry tr) tr ∧
            Walked user n (some entry) tr := by
      refine (install_attempt (c := .nextEntry scetyConfigDir) (K := fun tr =>
        Done (.user scetyUser) (some user) tr ∧ Walked user (n + 1) none tr)
        fun _ _ => rfl).mono ?_ ?_
      · rintro tr ⟨⟨hclean, hroot, hdone⟩, hwalked⟩
        exact ⟨hclean, hroot, hdone, hwalked⟩
      · rintro entry _ ⟨before, rfl, hclean, hroot, hdone, hwalked⟩
        have hprefix : before <+: before ++ [yielded entry] := List.prefix_append _ _
        exact ⟨⟨hclean.concat rfl, persistent_rooted hprefix hroot, huser hprefix hdone,
          List.mem_append_right _ List.mem_cons_self⟩, hwalked.next⟩
    refine hnext.bind fun entry => ?_
    have hK := huser.and (persistent_done (.nextEntry scetyConfigDir) entry)
    have hchown : InstallTriple scetyConfig _ _ _ := (install_call
      (c := .chown entry.path none (some user.gid)) hK
      (fun _ h => ⟨user, h.1, rfl, Or.inl ⟨rfl, entry, h.2, rfl⟩⟩) fun _ _ => rfl).frame
      (P := fun op => op.isNextEntry = false) (K := Walked user n (some entry)) (only_attempt rfl)
      fun _ _ => Walked.concat
    refine hchown.bind fun _ => ?_
    have hmode : InstallTriple scetyConfig _ _ _ := (install_call
      (c := .setPermissions entry.path entry.mode)
      (hK.and (persistent_done (.chown entry.path none (some user.gid)) ()))
      (fun _ h => ⟨⟨none, some user.gid, h.2⟩, Or.inr ⟨entry, h.1.2, rfl, rfl⟩⟩) fun _ _ => rfl).frame
      (P := fun op => op.isNextEntry = false) (K := Walked user n (some entry)) (only_attempt rfl)
      fun _ _ => Walked.concat
    refine hmode.bind fun _ => ih.mono ?_ fun _ _ h => h
    rintro tr ⟨h, hwalked⟩
    exact ⟨h.mono fun _ h => h.1.1.1, hwalked.done ⟨h.2.2.1.2, h.2.2.2⟩⟩

/-- No entry was asked for. -/
def Unwalked (before : List CliEvent) : Prop := ∀ ev ∈ before, ev.1.isNextEntry = false

theorem Unwalked.concat {ev : CliEvent} (hev : ev.1.isNextEntry = false) (h : Unwalked tr) :
    Unwalked (tr ++ [ev]) := by
  intro ev' hev'
  rcases List.mem_append.mp hev' with hev' | hev'
  · exact h ev' hev'
  · rw [List.mem_singleton.mp hev']
    exact hev

theorem Unwalked.walked (h : Unwalked tr) (user : User) (n : ℕ) :
    Walked user n none (tr ++ [⟨.walk scetyConfigDir, n⟩]) := by
  have hnone : Unwalked (tr ++ [⟨.walk scetyConfigDir, n⟩]) := h.concat rfl
  refine ⟨?_, ?_⟩
  · rw [List.countP_eq_zero.mpr fun ev hev => by rw [hnone ev hev]; exact Bool.false_ne_true,
      Nat.zero_add]
    exact List.mem_append_right _ List.mem_cons_self
  · intro entry hentry
    exact nomatch hnone _ hentry

/-- Every entry of the configuration directory belongs to the group of the user. -/
def EntriesConfigured (before : List CliEvent) : Prop :=
  ∃ user, Done (.user scetyUser) (some user) before ∧ Walked user 0 none before

theorem triple_prepareCache (user : User) :
    InstallTriple scetyConfig (Installing (Done (.user scetyUser) (some user))) (prepareCache user)
      fun _ => Installing CachePrepared := by
  have huser := persistent_done (.user scetyUser) (some user)
  refine (install_call (c := .createDirAll configurePermissionsCache) huser
    (fun _ _ => Or.inr rfl) fun _ _ => rfl).bind fun _ => ?_
  have hdir := huser.and (persistent_done (.createDirAll configurePermissionsCache) ())
  refine (install_call (c := .chown configurePermissionsCache (some user.uid) (some user.gid)) hdir
    (fun _ h => ⟨user, h.1, rfl, Or.inr ⟨rfl, rfl⟩⟩) fun _ _ => rfl).bind fun _ => ?_
  refine (install_call (c := .setPermissions configurePermissionsCache 0o700)
    (hdir.and (persistent_done
      (.chown configurePermissionsCache (some user.uid) (some user.gid)) ()))
    (fun _ h => ⟨⟨_, _, h.2⟩, Or.inl ⟨rfl, rfl⟩⟩) fun _ _ => rfl).mono (fun _ h => h) ?_
  exact fun _ tr h => h.mono fun _ h => ⟨⟨user, h.1.1.1, h.1.2⟩, h.2⟩

theorem only_prepareCache (user : User) :
    Only (fun op => op.isNextEntry = false) (prepareCache user).run :=
  only_bind_run (only_attempt rfl) fun _ => only_bind_run (only_attempt rfl) fun _ => only_attempt rfl

/-- The second lookup of the user, for which there must be one. -/
theorem triple_lookup (scetyConfig : Bytes) :
    InstallTriple scetyConfig
      (fun tr => Installing (fun tr => UserExists tr ∧ ConfigWritten scetyConfig tr) tr ∧ Unwalked tr)
      (userFromName scetyUser) fun user => Command.install.Now
        (fun tr => Rooted tr ∧ (UserExists tr ∧ ConfigWritten scetyConfig tr) ∧ Unwalked tr)
        ⟨.call (.user scetyUser), .ok user⟩ := by
  refine (install_attempt (c := .user scetyUser) (K := fun tr =>
    (UserExists tr ∧ ConfigWritten scetyConfig tr) ∧ Unwalked tr) fun _ _ => rfl).mono ?_
    fun _ _ h => h
  rintro tr ⟨⟨hclean, hroot, hK⟩, hunwalked⟩
  exact ⟨hclean, hroot, hK, hunwalked⟩

theorem triple_configurePermissions :
    InstallTriple scetyConfig
      (fun tr => Installing (fun tr => UserExists tr ∧ ConfigWritten scetyConfig tr) tr ∧ Unwalked tr)
      configurePermissions
      fun _ tr => Installing (fun tr => UserExists tr ∧ ConfigWritten scetyConfig tr ∧ CachePrepared tr)
        tr ∧ EntriesConfigured tr := by
  have hK : Persistent fun tr => UserExists tr ∧ ConfigWritten scetyConfig tr :=
    persistent_userExists.and (persistent_configWritten scetyConfig)
  unfold configurePermissions
  refine (triple_lookup scetyConfig).bind ?_
  rintro (_ | user)
  · refine triple_throw fun tr h => h.failed ?_
    rintro before ⟨-, ⟨-, hconfig⟩, -⟩
    exact if_pos hconfig.any_pathExists
  have huser := persistent_done (.user scetyUser) (some user)
  have hwalk : InstallTriple scetyConfig
      (fun tr => Installing (fun tr => (UserExists tr ∧ ConfigWritten scetyConfig tr) ∧
        Done (.user scetyUser) (some user) tr) tr ∧ Unwalked tr)
      (walkDir scetyConfigDir) fun n tr => Installing (fun tr =>
        (UserExists tr ∧ ConfigWritten scetyConfig tr) ∧ Done (.user scetyUser) (some user) tr) tr ∧
          Walked user n none tr := by
    refine (triple_ask (K := fun tr => Rooted tr ∧
      ((UserExists tr ∧ ConfigWritten scetyConfig tr) ∧ Done (.user scetyUser) (some user) tr) ∧
        Unwalked tr) (.walk scetyConfigDir) ?_).mono ?_ ?_
    · exact fun _ h => ⟨rfl, fun _ => h.1⟩
    · rintro tr ⟨⟨hclean, hroot, hdone⟩, hunwalked⟩
      exact ⟨hclean, hroot, hdone, hunwalked⟩
    · rintro n _ ⟨before, rfl, hclean, hroot, hdone, hunwalked⟩
      have hprefix : before <+: before ++ [⟨.walk scetyConfigDir, n⟩] := List.prefix_append _ _
      exact ⟨⟨hclean.concat rfl, persistent_rooted hprefix hroot, (hK.and huser) hprefix hdone⟩,
        hunwalked.walked user n⟩
  have hentries (n : ℕ) : InstallTriple scetyConfig _ (configureEntries scetyConfigDir user.gid n) _ :=
    (triple_configureEntries user n).frame_persistent hK
  have hcache : InstallTriple scetyConfig _ (prepareCache user) _ :=
    ((triple_prepareCache user).frame_persistent (hK.and huser)).frame (K := Walked user 0 none)
      (only_prepareCache user) fun _ _ => Walked.concat
  refine (hwalk.bind fun n => ?_).mono ?_ fun _ _ h => h
  · refine (Triple.mono (hentries n) ?_ fun _ _ h => h).bind fun _ => hcache.mono ?_ ?_
    · rintro tr ⟨⟨hclean, hroot, hdone⟩, hwalked⟩
      exact ⟨⟨⟨hclean, hroot, hdone.2⟩, hwalked⟩, hdone.1⟩
    · rintro tr ⟨⟨h, hwalked⟩, hdone⟩
      exact ⟨⟨h, hdone, h.2.2⟩, hwalked⟩
    · rintro _ tr ⟨⟨h, hdone⟩, hwalked⟩
      exact ⟨⟨h.1, h.2.1, hdone.1.1, hdone.1.2, h.2.2⟩, user, hdone.2, hwalked⟩
  · rintro tr ⟨before, rfl, hclean, hroot, hconfig, hunwalked⟩
    have hprefix : before <+: before ++ [⟨.call (.user scetyUser), .ok (some user)⟩] :=
      List.prefix_append _ _
    exact ⟨⟨hclean.concat rfl, persistent_rooted hprefix hroot, hK hprefix hconfig,
      List.mem_append_right _ List.mem_cons_self⟩, hunwalked.concat rfl⟩

/-- The service runs, or was started, or was installed and started. -/
def ServiceStarted (before : List CliEvent) : Prop :=
  (Looked servicePath true before ∧ (Active before ∨
    ∃ status, Done (.status (systemctl ["start", "scety"])) status before)) ∨
  (Looked servicePath false before ∧ ∃ exePath, Done .currentExe exePath before ∧
    Done (.write servicePath (bytes (installServiceContent exePath))) () before ∧
    ∃ status, Done (.status (systemctl ["enable", "--now", "scety"])) status before)

theorem triple_startInstalled :
    InstallTriple scetyConfig (Installing fun tr => CachePrepared tr ∧ Looked servicePath true tr)
      startInstalled fun _ => Installing ServiceStarted := by
  have hK := persistent_cachePrepared.and (persistent_looked servicePath true)
  unfold startInstalled
  refine (install_call (c := .output (systemctl ["is-active", "scety"])) hK
    (fun _ h => ⟨h.1, rfl, h.2⟩) ?_).bind fun stdout => ?_
  · intro before stdout
    show (if isActive stdout then none else none) = none
    split_ifs <;> rfl
  have hout := hK.and (persistent_done (.output (systemctl ["is-active", "scety"])) stdout)
  cases hactive : isActive stdout with
  | true => exact triple_pure fun tr h => h.mono fun _ h => Or.inl ⟨h.1.2, Or.inl ⟨stdout, hactive, h.2⟩⟩
  | false =>
    refine (install_call (c := .status (systemctl ["start", "scety"])) hout
      (fun _ h => ⟨h.1.1, Or.inl ⟨rfl, h.1.2, stdout, hactive, h.2⟩⟩) fun _ _ => rfl).bind fun status => ?_
    exact triple_pure fun tr h => h.mono fun _ h => Or.inl ⟨h.1.1.2, Or.inr ⟨status, h.2⟩⟩

theorem triple_installService :
    InstallTriple scetyConfig (Installing fun tr => CachePrepared tr ∧ Looked servicePath false tr)
      installService fun _ => Installing ServiceStarted := by
  have hK := persistent_cachePrepared.and (persistent_looked servicePath false)
  unfold installService
  refine (install_call (c := .currentExe) hK (fun _ h => h) fun _ _ => rfl).bind fun exePath => ?_
  have hexe := hK.and (persistent_done .currentExe exePath)
  refine (install_call (c := .write servicePath (bytes (installServiceContent exePath))) hexe
    (fun _ h => ⟨h.1.2, Or.inr ⟨rfl, h.1.1, exePath, h.2, rfl⟩⟩) fun _ _ => rfl).bind fun _ => ?_
  have hwrite := hexe.and
    (persistent_done (.write servicePath (bytes (installServiceContent exePath))) ())
  refine (install_call (c := .status (systemctl ["daemon-reload"])) hwrite
    (fun _ h => ⟨h.1.1.1, Or.inr ⟨_, h.2, Or.inl rfl⟩⟩) fun _ _ => rfl).bind fun status => ?_
  refine (install_call (c := .status (systemctl ["enable", "--now", "scety"]))
    (hwrite.and (persistent_done (.status (systemctl ["daemon-reload"])) status))
    (fun _ h => ⟨h.1.1.1.1, Or.inr ⟨_, h.1.2, Or.inr ⟨rfl, status, h.2⟩⟩⟩)
    fun _ _ => rfl).bind fun status' => ?_
  exact triple_pure fun tr h => h.mono fun _ h =>
    Or.inr ⟨h.1.1.1.1.2, exePath, h.1.1.1.2, h.1.1.2, status', h.2⟩

theorem triple_ensureService :
    InstallTriple scetyConfig (Installing fun tr => UserExists tr ∧ CachePrepared tr) ensureService
      fun _ => Installing ServiceStarted := by
  unfold ensureService
  refine (install_pathExists (persistent_userExists.and persistent_cachePrepared)
    fun _ h => h.1).bind ?_
  rintro (_ | _)
  · exact triple_installService.mono (fun _ h => h.mono fun _ h => ⟨h.1.2, h.2⟩) fun _ _ h => h
  · exact triple_startInstalled.mono (fun _ h => h.mono fun _ h => ⟨h.1.2, h.2⟩) fun _ _ h => h

theorem EntriesConfigured.concat {ev : CliEvent} (hev : ev.1.isNextEntry = false)
    (h : EntriesConfigured tr) : EntriesConfigured (tr ++ [ev]) := by
  obtain ⟨user, huser, hwalked⟩ := h
  exact ⟨user, persistent_done _ _ (List.prefix_append _ _) huser, hwalked.concat hev⟩

/-- What a run of `install` has done when it has succeeded. -/
structure Installed (scetyConfig : Bytes) (tr : List CliEvent) : Prop where
  rooted : Rooted tr
  user : UserExists tr
  config : ConfigWritten scetyConfig tr
  entries : EntriesConfigured tr
  cache : CachePrepared tr
  service : ServiceStarted tr

theorem only_ensureSystemUser : Only (fun op => op.isNextEntry = false) ensureSystemUser.run := by
  refine only_bind_run (only_attempt rfl) fun user => ?_
  cases user with
  | some user => trivial
  | none =>
    refine only_bind_run (only_attempt rfl) fun status => ?_
    split_ifs <;> trivial

theorem only_maybeJoinSslCertGroup :
    Only (fun op => op.isNextEntry = false) maybeJoinSslCertGroup.run := by
  refine only_bind_run (only_attempt rfl) fun found => ?_
  cases found with
  | true => exact only_bind_run (only_attempt rfl) fun _ => trivial
  | false => trivial

theorem only_ensureConfig :
    Only (fun op => op.isNextEntry = false) (ensureConfig scetyConfig).run := by
  refine only_bind_run (only_map (only_op rfl)) fun found => ?_
  cases found with
  | true => trivial
  | false => exact only_bind_run (only_attempt rfl) fun _ => only_attempt rfl

theorem only_ensureService : Only (fun op => op.isNextEntry = false) ensureService.run := by
  refine only_bind_run (only_map (only_op rfl)) fun found => ?_
  cases found with
  | true =>
    refine only_bind_run (only_attempt rfl) fun stdout => ?_
    split_ifs
    · trivial
    · exact only_bind_run (only_attempt rfl) fun _ => trivial
  | false =>
    exact only_bind_run (only_attempt rfl) fun _ => only_bind_run (only_attempt rfl) fun _ =>
      only_bind_run (only_attempt rfl) fun _ => only_bind_run (only_attempt rfl) fun _ => trivial

theorem triple_install :
    Command.install.Triple scetyConfig (· = []) (install scetyConfig)
      fun _ tr => Command.install.Clean tr ∧ Installed scetyConfig tr := by
  have hframe : ∀ tr ev, CliOp.isNextEntry (Sigma.fst ev) = false → Unwalked tr → Unwalked (tr ++ [ev]) :=
    fun _ _ => Unwalked.concat
  have huser : InstallTriple scetyConfig _ _ _ := triple_ensureSystemUser.frame
    only_ensureSystemUser hframe
  have hgroup : InstallTriple scetyConfig _ _ _ := triple_maybeJoinSslCertGroup.frame
    only_maybeJoinSslCertGroup hframe
  have hconfig : InstallTriple scetyConfig _ _ _ := triple_ensureConfig.frame only_ensureConfig hframe
  have hservice : InstallTriple scetyConfig _ _ _ := ((triple_ensureService.frame_persistent
    (persistent_userExists.and (persistent_configWritten scetyConfig))).frame_persistent
      persistent_cachePrepared).frame (K := EntriesConfigured) only_ensureService
        fun _ _ => EntriesConfigured.concat
  refine Triple.mono (Triple.bind (triple_ask (K := (· = [])) .isRoot ?_) ?_) ?_ fun _ _ h => h
  · exact fun _ h => ⟨h, fun hop => absurd rfl hop⟩
  · rintro (_ | _)
    · exact triple_throw fun tr h => h.failed fun _ _ => rfl
    · refine (huser.bind fun _ => hgroup.bind fun _ => hconfig.bind fun _ =>
        triple_configurePermissions.bind fun _ => hservice.mono ?_ ?_).mono ?_ fun _ _ h => h
      · rintro tr ⟨⟨hclean, hroot, hexists, hwritten, hcache⟩, hentries⟩
        exact ⟨⟨⟨⟨hclean, hroot, hexists, hcache⟩, hexists, hwritten⟩, hcache⟩, hentries⟩
      · rintro _ tr ⟨⟨⟨⟨hclean, hroot, hstarted⟩, hexists, hwritten⟩, hcache⟩, hentries⟩
        exact ⟨hclean, hroot, hexists, hwritten, hentries, hcache, hstarted⟩
      · rintro tr ⟨before, rfl, hclean, rfl⟩
        refine ⟨⟨hclean.concat rfl, rfl⟩, ?_⟩
        intro ev hev
        obtain rfl := List.mem_singleton.mp hev
        rfl
  · rintro tr rfl
    exact ⟨Command.clean_nil, rfl⟩

end Install

end Scety
