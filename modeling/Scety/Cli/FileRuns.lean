import Scety.Cli.Files

/-!
# `cli/commands`: all interleavings of the commands

What becomes of the files in whatever order the commands take their steps.  Every byte of the configuration
file that is not yet the default one is owed by a command: one that is still to write it, or one whose write
has failed.
-/

namespace Scety

open Effects Transition Stepwise Disks

/-- What becomes of the files: the contents that were there stay, but for the unit if there are uninstalls,
and new ones are made of what `install` writes there. -/
structure FilesKept (scetyConfig : Bytes) (uninstalls : Prop) (d₀ d : Files) : Prop where
  config : d.read scetyConfigPath = d₀.read scetyConfigPath ∨ (d₀.read scetyConfigPath = none ∧
    ∀ contents ∈ d.read scetyConfigPath, MadeOf (· = scetyConfig) contents)
  unit : d.read servicePath = d₀.read servicePath ∨
    ((d₀.read servicePath = none ∨ uninstalls) ∧ ∀ contents ∈ d.read servicePath,
      MadeOf (fun text => ∃ exePath, text = bytes (installServiceContent exePath)) contents)
  others : ∀ path, path ≠ scetyConfigPath → path ≠ servicePath → d.read path = d₀.read path

/-- A write of the task to this path is not finished: it goes on, or was cut off where the command was
killed. -/
def Unfinished (path : Str) (t : CommandTask) : Prop :=
  t.progress.isSome = true ∧ ∃ contents k, t.rest = .perform (.call (.write path contents)) k

/-- A write to this path has failed. -/
def WriteFailed (path : Str) (tr : List CliEvent) : Prop :=
  ∃ contents text, ⟨.call (.write path contents), .error text⟩ ∈ tr

section Runs

variable {scetyConfig : Bytes} {Starts : Command → Prop} {d₀ d d' : Files} {path : Str} {file k : ℕ}

/-! ### The files that were there -/

theorem DiskKept.read_eq (h : DiskKept scetyConfig Starts d₀ d) (hentry : d.entry path = d₀.entry path) :
    d.read path = d₀.read path := by
  unfold Disk.read
  rw [hentry]
  cases hfile : d₀.entry path with
  | none => rfl
  | some file =>
    show some (d.data file) = some (d₀.data file)
    rw [h.data file (d₀.entry_lt hfile)]

theorem Renewed.madeOf (h : Renewed scetyConfig Starts d₀ d path) {contents : Bytes}
    (hread : contents ∈ d.read path) : MadeOf (Writes scetyConfig path) contents := by
  obtain ⟨file, hfile, rfl⟩ := Option.map_eq_some_iff.mp hread
  exact (h.contents file hfile).2

theorem read_of_missing (h : d₀.entry path = none) : d₀.read path = none := by
  unfold Disk.read
  rw [h]
  rfl

theorem DiskKept.filesKept (h : DiskKept scetyConfig Starts d₀ d) :
    FilesKept scetyConfig (Starts .uninstall) d₀ d := by
  refine ⟨?_, ?_, fun path hconfig hservice => ?_⟩
  · rcases h.entry scetyConfigPath with hold | hrenewed
    · exact Or.inl (h.read_eq hold)
    · refine Or.inr ⟨?_, fun contents hread => (hrenewed.madeOf hread).mono ?_⟩
      · rcases hrenewed.missing with hmissing | ⟨hservice, -⟩
        · exact read_of_missing hmissing
        · exact absurd hservice scetyConfigPath_ne_servicePath
      · rintro text (⟨-, rfl⟩ | ⟨hservice, -⟩)
        · rfl
        · exact absurd hservice scetyConfigPath_ne_servicePath
  · rcases h.entry servicePath with hold | hrenewed
    · exact Or.inl (h.read_eq hold)
    · refine Or.inr ⟨hrenewed.missing.imp read_of_missing And.right, fun contents hread =>
        (hrenewed.madeOf hread).mono ?_⟩
      rintro text (⟨hconfig, -⟩ | ⟨-, htext⟩)
      · exact absurd hconfig.symm scetyConfigPath_ne_servicePath
      · exact htext
  · rcases h.entry path with hold | hrenewed
    · exact h.read_eq hold
    · obtain ⟨contents, ⟨hpath, -⟩ | ⟨hpath, -⟩⟩ := hrenewed.written
      · exact absurd hpath hconfig
      · exact absurd hpath hservice

/-! ### What a new configuration file is owed -/

/-- The task has this place of the file before it, or is one whose write has failed. -/
def Owes (file k : ℕ) (t : CommandTask) : Prop :=
  WriteFailed scetyConfigPath t.events ∨ ∃ contents r offset,
    t.rest = .perform (.call (.write scetyConfigPath contents)) r ∧ t.progress = some ⟨file, offset⟩ ∧
      offset ≤ k

/-- A place of a new configuration file is that of the default one, or is owed. -/
def Accounted (scetyConfig : Bytes) (d₀ d : Files) (tasks : List CommandTask) : Prop :=
  ∀ file k, d.entry scetyConfigPath = some file → d₀.next ≤ file → k < scetyConfig.length →
    (d.data file)[k]? = scetyConfig[k]? ∨ ∃ t ∈ tasks, Owes file k t

variable {l₁ l₂ : List CommandTask} {t t' : CommandTask} {cmd : Command} {tr : List CliEvent}

theorem contents_of_may {contents : Bytes}
    (h : cmd.May scetyConfig tr (.call (.write scetyConfigPath contents))) : contents = scetyConfig := by
  obtain ⟨-, ⟨-, hcontents⟩ | ⟨hservice, -⟩⟩ := write_of_may h
  · exact hcontents
  · exact absurd hservice scetyConfigPath_ne_servicePath

/-- One task goes on: a place is settled, or is owed by the task now, or the task has not owed it and leaves
it alone. -/
theorem Accounted.step (h : Accounted scetyConfig d₀ d (l₁ ++ t :: l₂))
    (hstep : ∀ file k, d'.entry scetyConfigPath = some file → d₀.next ≤ file → k < scetyConfig.length →
      (d'.data file)[k]? = scetyConfig[k]? ∨ Owes file k t' ∨ (¬ Owes file k t ∧
        d.entry scetyConfigPath = some file ∧
          ((d.data file)[k]? = scetyConfig[k]? → (d'.data file)[k]? = scetyConfig[k]?))) :
    Accounted scetyConfig d₀ d' (l₁ ++ t' :: l₂) := by
  intro file k hentry hnew hk
  rcases hstep file k hentry hnew hk with hsettled | howes | ⟨hnot, hbefore, hkeeps⟩
  · exact Or.inl hsettled
  · exact Or.inr ⟨t', List.mem_append_right _ List.mem_cons_self, howes⟩
  · rcases h file k hbefore hnew hk with hsettled | ⟨other, hother, howes⟩
    · exact Or.inl (hkeeps hsettled)
    · refine Or.inr ⟨other, ?_, howes⟩
      rcases List.mem_append.mp hother with hleft | hright
      · exact List.mem_append_left _ hleft
      · rcases List.mem_cons.mp hright with rfl | hright
        · exact absurd howes hnot
        · exact List.mem_append_right _ (List.mem_cons_of_mem _ hright)

/-- A task that has not begun its operation, and whose writes have not failed, owes nothing. -/
theorem not_owes_none {q : Prog CliOp CliOp.Answer (Except Failure Unit)}
    (h : ¬ WriteFailed scetyConfigPath tr) : ¬ Owes file k ⟨cmd, tr, q, none⟩ := by
  rintro (hfailed | ⟨_, _, _, _, hprogress, _⟩)
  · exact h hfailed
  · exact nomatch hprogress

variable {op : CliOp} {r : op.Answer → Prog CliOp CliOp.Answer (Except Failure Unit)} {w : Option Writing}

theorem Accounted.works {w' : Writing}
    (hready : CommandReady scetyConfig Starts d₀ d cmd tr op w) (hact : FileAct d op w (.inl w') d')
    (h : Accounted scetyConfig d₀ d (l₁ ++ ⟨cmd, tr, .perform op r, w⟩ :: l₂)) :
    Accounted scetyConfig d₀ d' (l₁ ++ ⟨cmd, tr, .perform op r, some w'⟩ :: l₂) := by
  refine h.step fun file k hentry hnew hk => ?_
  by_cases hfailed : WriteFailed scetyConfigPath tr
  · exact Or.inr (Or.inl (Or.inl hfailed))
  cases hact with
  | @truncates path contents file' hfile' =>
    by_cases hpath : path = scetyConfigPath
    · -- the file is empty now, and the task has all of it before it
      subst hpath
      obtain rfl := Option.some.inj (hfile'.symm.trans hentry)
      exact Or.inr (Or.inl (Or.inr ⟨contents, r, 0, rfl, rfl, Nat.zero_le _⟩))
    · refine Or.inr (Or.inr ⟨not_owes_none hfailed, hentry, fun hsettled => ?_⟩)
      rw [Disk.put_data_of_ne]
      · exact hsettled
      · rintro rfl
        exact hpath (hready.device.names _ _ _ hnew hentry hfile')
  | @creates path contents hnone =>
    rcases d.entry_of_add hentry with ⟨rfl, rfl⟩ | ⟨-, hbefore⟩
    · exact Or.inr (Or.inl (Or.inr ⟨contents, r, 0, rfl, rfl, Nat.zero_le _⟩))
    · refine Or.inr (Or.inr ⟨not_owes_none hfailed, hbefore, fun hsettled => ?_⟩)
      rw [Disk.add_data_of_lt _ (d.entry_lt hbefore)]
      exact hsettled
  | @writes path contents file' offset n hn =>
    have hopened : Opened Starts d₀ path contents ⟨file', offset⟩ d := hready.progress _ rfl
    by_cases hfile : file = file'
    · subst hfile
      obtain rfl := hopened.names _ hentry
      obtain rfl := contents_of_may hready.allowed
      rw [Disk.put_data_self]
      by_cases hbehind : offset + n ≤ k
      · exact Or.inr (Or.inl (Or.inr ⟨_, r, offset + n, rfl, rfl, hbehind⟩))
      by_cases hfront : offset ≤ k
      · exact Or.inl (getElem?_writePiece_inside hfront (Nat.not_le.mp hbehind) hk)
      · refine Or.inr (Or.inr ⟨?_, hentry, writePiece_agrees hk⟩)
        rintro (h | ⟨_, _, offset', -, hprogress, hle⟩)
        · exact hfailed h
        · obtain ⟨-, rfl⟩ := Writing.mk.inj (Option.some.inj hprogress)
          exact hfront hle
    · refine Or.inr (Or.inr ⟨?_, hentry, fun hsettled => ?_⟩)
      · rintro (h | ⟨_, _, offset', -, hprogress, -⟩)
        · exact hfailed h
        · exact hfile (Writing.mk.inj (Option.some.inj hprogress)).1.symm
      · rw [Disk.put_data_of_ne _ hfile]
        exact hsettled

theorem WriteFailed.append (h : WriteFailed path tr) (tr' : List CliEvent) :
    WriteFailed path (tr ++ tr') := by
  obtain ⟨contents, text, hmem⟩ := h
  exact ⟨contents, text, List.mem_append_left _ hmem⟩

/-- A task whose operation is no write in progress, and whose writes have not failed, owes nothing. -/
theorem not_owes_of_ne_write (h : ¬ WriteFailed scetyConfigPath tr)
    (hop : ∀ contents, op ≠ .call (.write scetyConfigPath contents)) :
    ¬ Owes file k ⟨cmd, tr, .perform op r, w⟩ := by
  rintro (hfailed | ⟨contents, _, _, hrest, _, _⟩)
  · exact h hfailed
  · exact hop contents (Prog.perform.inj hrest).1

theorem Accounted.answers {a : op.Answer}
    (hready : CommandReady scetyConfig Starts d₀ d cmd tr op w) (hact : FileAct d op w (.inr a) d')
    (h : Accounted scetyConfig d₀ d (l₁ ++ ⟨cmd, tr, .perform op r, w⟩ :: l₂)) :
    Accounted scetyConfig d₀ d' (l₁ ++ ⟨cmd, tr ++ [⟨op, a⟩], r a, none⟩ :: l₂) := by
  refine h.step fun file k hentry hnew hk => ?_
  by_cases hfailed : WriteFailed scetyConfigPath tr
  · exact Or.inr (Or.inl (Or.inl (hfailed.append _)))
  have hother : (∀ contents, op ≠ .call (.write scetyConfigPath contents)) →
      ¬ Owes file k ⟨cmd, tr, .perform op r, w⟩ := not_owes_of_ne_write hfailed
  cases hact with
  | @written path contents file' =>
    refine Or.inr (Or.inr ⟨?_, hentry, id⟩)
    rintro (hfailed' | ⟨contents', _, offset, hrest, hprogress, hle⟩)
    · exact hfailed hfailed'
    · -- all of the default file is behind it
      obtain ⟨hop, -⟩ := Prog.perform.inj hrest
      obtain ⟨rfl, rfl⟩ := Call.write.inj (CliOp.call.inj hop)
      obtain rfl := contents_of_may hready.allowed
      obtain ⟨-, rfl⟩ := Writing.mk.inj (Option.some.inj hprogress)
      exact absurd hk (Nat.not_lt.mpr hle)
  | @fails c w text =>
    by_cases hc : ∃ contents, c = .write scetyConfigPath contents
    · obtain ⟨contents, rfl⟩ := hc
      exact Or.inr (Or.inl (Or.inl ⟨contents, text, List.mem_append_right _ List.mem_cons_self⟩))
    · exact Or.inr (Or.inr ⟨hother fun contents hop => hc ⟨contents, CliOp.call.inj hop⟩, hentry, id⟩)
  | @succeeds c a hc =>
    refine Or.inr (Or.inr ⟨hother fun contents hop => ?_, hentry, id⟩)
    obtain rfl := CliOp.call.inj hop
    exact nomatch hc
  | removes =>
    obtain ⟨-, rfl⟩ := removeFile_of_may hready.allowed
    rw [Disk.remove_entry_of_ne _ scetyConfigPath_ne_servicePath] at hentry
    exact Or.inr (Or.inr ⟨hother nofun, hentry, id⟩)
  | pathExists => exact Or.inr (Or.inr ⟨hother nofun, hentry, id⟩)
  | isRoot => exact Or.inr (Or.inr ⟨hother nofun, hentry, id⟩)
  | walk => exact Or.inr (Or.inr ⟨hother nofun, hentry, id⟩)
  | print => exact Or.inr (Or.inr ⟨hother nofun, hentry, id⟩)

/-! ### All interleavings -/

variable {s : State Command CliOp CliOp.Answer (Except Failure Unit) Writing Files}

/-- An operation that a command is about to perform, or performs, is one that it may. -/
theorem may_of_reaches_perform {q : op.Answer → Prog CliOp CliOp.Answer (Except Failure Unit)}
    (h : Reaches (cmd.program scetyConfig).run tr (.perform op q)) : cmd.May scetyConfig tr op := by
  have hanswer : ∃ a : op.Answer, True := by
    cases op with
    | isRoot => exact ⟨true, trivial⟩
    | pathExists path => exact ⟨true, trivial⟩
    | walk dir => exact ⟨(0 : ℕ), trivial⟩
    | print text => exact ⟨(), trivial⟩
    | call c => exact ⟨.error [], trivial⟩
  obtain ⟨a, -⟩ := hanswer
  exact may_of_reaches (h.concat a)

theorem diskKept_self (scetyConfig : Bytes) (Starts : Command → Prop) (d₀ : Files) :
    DiskKept scetyConfig Starts d₀ d₀ where
  next := Nat.le_refl _
  data _ _ := rfl
  entry _ := Or.inl rfl
  names _ _ _ hnew h _ := absurd (d₀.entry_lt h) (Nat.not_lt.mpr hnew)

theorem commandTasks_sound (h : (commandSystem scetyConfig Starts d₀).Reachable s) :
    DiskKept scetyConfig Starts d₀ s.device ∧ ∀ t ∈ s.tasks,
      t.Sound (fun cmd => (cmd.program scetyConfig).run) Starts (Shows Starts d₀) (Relies Starts d₀)
        s.device :=
  (guarantees_commands scetyConfig Starts d₀).of_reachable (diskKept_self scetyConfig Starts d₀)
    (fun _ _ _ _ h => may_of_reaches_perform h) h

theorem accounted_of_reachable (h : (commandSystem scetyConfig Starts d₀).Reachable s) :
    Accounted scetyConfig d₀ s.device s.tasks := by
  refine h.invariant (I := fun s => Accounted scetyConfig d₀ s.device s.tasks) ?_ ?_
  · rintro s rfl file k hentry hnew
    exact absurd (d₀.entry_lt hentry) (Nat.not_lt.mpr hnew)
  · intro s a s' hs haccounted hstep
    obtain ⟨hdevice, htasks⟩ := commandTasks_sound hs
    have hready : ∀ {i tr op} {q : op.Answer → Prog CliOp CliOp.Answer (Except Failure Unit)} {w},
        (⟨i, tr, .perform op q, w⟩ : CommandTask) ∈ s.tasks →
          CommandReady scetyConfig Starts d₀ s.device i tr op w :=
      fun ht => (htasks _ ht).ready (fun _ _ _ _ h => may_of_reaches_perform h) hdevice
    cases hstep with
    | start hi =>
      intro file k hentry hnew hk
      refine (haccounted file k hentry hnew hk).imp_right ?_
      rintro ⟨t, ht, howes⟩
      exact ⟨t, List.mem_cons_of_mem _ ht, howes⟩
    | works hact =>
      exact haccounted.works (hready (List.mem_append_right _ List.mem_cons_self)) hact
    | answers hact =>
      exact haccounted.answers (hready (List.mem_append_right _ List.mem_cons_self)) hact

/-- A new configuration file that nobody owes anything. -/
theorem eq_of_finished (h : (commandSystem scetyConfig Starts d₀).Reachable s)
    (hnone : d₀.read scetyConfigPath = none)
    (hfinished : ∀ t ∈ s.tasks, ¬ Unfinished scetyConfigPath t ∧ ¬ WriteFailed scetyConfigPath t.events)
    {contents : Bytes} (hread : contents ∈ s.device.read scetyConfigPath) : contents = scetyConfig := by
  obtain ⟨hkept, -⟩ := commandTasks_sound h
  obtain ⟨file, hentry, rfl⟩ := Option.map_eq_some_iff.mp hread
  rcases hkept.filesKept.config with hsame | ⟨-, hmade⟩
  · exact absurd (hread.symm.trans (hsame.trans hnone)) (Option.some_ne_none _)
  have hnew : d₀.next ≤ file := by
    rcases hkept.entry scetyConfigPath with hold | hrenewed
    · exact absurd (hread.symm.trans ((hkept.read_eq hold).trans hnone)) (Option.some_ne_none _)
    · exact (hrenewed.contents file hentry).1
  refine (hmade _ hread).eq_of_agrees fun k hk => ?_
  rcases accounted_of_reachable h file k hentry hnew hk with
    hsettled | ⟨t, ht, hfailed | ⟨contents, r, offset, hrest, hprogress, -⟩⟩
  · exact hsettled
  · exact absurd hfailed (hfinished t ht).2
  · refine absurd ⟨?_, contents, r, hrest⟩ (hfinished t ht).1
    rw [hprogress]
    rfl

end Runs

/-- An `uninstall` was started. -/
def Uninstalling (tasks : List CommandTask) : Prop := ∃ t ∈ tasks, t.label = .uninstall

/-- **What the commands do to the files**, in every interleaving of commands that may fail or be killed
anywhere: a file that was there before the first of them keeps its contents, but for the unit once an
`uninstall` was started; a new one is made of the text that `install` writes there, and a new configuration
file is the default one once every write to it is finished and none has failed; no other file is touched;
and as long as no `uninstall` was started, both files are there from the end of any `install` that succeeds
on. -/
theorem commands_interleaved (scetyConfig : Bytes) (d₀ : Files)
    {s : State Command CliOp CliOp.Answer (Except Failure Unit) Writing Files}
    (h : (commandSystem scetyConfig (fun _ => True) d₀).Reachable s) :
    FilesKept scetyConfig (Uninstalling s.tasks) d₀ s.device ∧
      (d₀.read scetyConfigPath = none →
        (∀ t ∈ s.tasks, ¬ Unfinished scetyConfigPath t ∧ ¬ WriteFailed scetyConfigPath t.events) →
        ∀ contents ∈ s.device.read scetyConfigPath, contents = scetyConfig) ∧
      (¬ Uninstalling s.tasks → ∀ t ∈ s.tasks, t.label = .install → t.rest = pure (.ok ()) →
        (s.device.read scetyConfigPath).isSome = true ∧ (s.device.read servicePath).isSome = true) := by
  have hstarted : (commandSystem scetyConfig (fun cmd => ∃ t ∈ s.tasks, t.label = cmd) d₀).Reachable s :=
    reachable_of_labels h fun t ht => ⟨t, ht, rfl⟩
  obtain ⟨hkept, htasks⟩ := commandTasks_sound hstarted
  refine ⟨hkept.filesKept, fun hnone hfinished contents hread => ?_, ?_⟩
  · exact eq_of_finished hstarted hnone hfinished hread
  · rintro hno ⟨label, events, rest, w⟩ ht rfl rfl
    obtain ⟨-, hreach, hshown, -⟩ := htasks _ ht
    have hinstalled : Installed scetyConfig events :=
      ((triple_program .install scetyConfig [] rfl).of_runs (reaches_end_iff.mp hreach)).2
    unfold Disk.read
    rw [Option.isSome_map, Option.isSome_map]
    refine ⟨?_, ?_⟩
    · rcases hinstalled.config with hlooked | ⟨-, hwritten⟩
      · exact hshown _ hlooked hno
      · exact hshown _ hwritten hno
    · rcases hinstalled.service with ⟨hlooked, -⟩ | ⟨-, exePath, -, hwritten, -⟩
      · exact hshown _ hlooked hno
      · exact hshown _ hwritten hno

/-- A configuration that says nothing. -/
def shortConfig : Bytes := bytes "[server]\n".toList

/-- An `install` on a machine without files, with one entry in the directory. -/
def installEvents : List CliEvent :=
  [⟨.isRoot, true⟩,
    ⟨.call (.user scetyUser), .ok (some ⟨998, 998⟩)⟩,
    ⟨.call (.group "ssl-cert".toList), .ok false⟩,
    ⟨.pathExists scetyConfigPath, false⟩,
    ⟨.call (.createDirAll scetyConfigDir), .ok ()⟩,
    ⟨.call (.write scetyConfigPath shortConfig), .ok ()⟩,
    ⟨.call (.user scetyUser), .ok (some ⟨998, 998⟩)⟩,
    ⟨.walk scetyConfigDir, (1 : ℕ)⟩,
    ⟨.call (.nextEntry scetyConfigDir), .ok ⟨scetyConfigDir, true⟩⟩,
    ⟨.call (.chown scetyConfigDir none (some 998)), .ok ()⟩,
    ⟨.call (.setPermissions scetyConfigDir 0o750), .ok ()⟩,
    ⟨.call (.createDirAll configurePermissionsCache), .ok ()⟩,
    ⟨.call (.chown configurePermissionsCache (some 998) (some 998)), .ok ()⟩,
    ⟨.call (.setPermissions configurePermissionsCache 0o700), .ok ()⟩,
    ⟨.pathExists servicePath, false⟩,
    ⟨.call .currentExe, .ok "/usr/bin/scety".toList⟩,
    ⟨.call (.write servicePath (bytes (installServiceContent "/usr/bin/scety".toList))), .ok ()⟩,
    ⟨.call (.status (systemctl ["daemon-reload"])), .ok ⟨true, "exit status: 0".toList⟩⟩,
    ⟨.call (.status (systemctl ["enable", "--now", "scety"])), .ok ⟨true, "exit status: 0".toList⟩⟩]

def emptyFiles : Files where
  entry _ := none
  data _ := []
  next := 0
  entry_lt h := nomatch h

/-- The disk with a new file. -/
def Files.created (d : Files) (path : Str) (contents : Bytes) : Files := (d.add path).put d.next contents

/-- The files after the `install`. -/
def installedFiles : Files :=
  Files.created (Files.created emptyFiles scetyConfigPath shortConfig) servicePath
    (bytes (installServiceContent "/usr/bin/scety".toList))

theorem reaches_install : Reaches (Command.install.program shortConfig).run installEvents (pure (.ok ())) := by
  refine reaches_end_iff.mpr ?_
  unfold installEvents
  refine Runs.perform _ (Runs.perform _ (Runs.perform _ (Runs.perform _ (Runs.perform _ ?_))))
  refine Runs.perform _ (Runs.perform _ (Runs.perform _ (Runs.perform _ (Runs.perform _ ?_))))
  refine Runs.perform _ (Runs.perform _ (Runs.perform _ (Runs.perform _ (Runs.perform _ ?_))))
  exact Runs.perform _ (Runs.perform _ (Runs.perform _ (Runs.perform _ (Runs.pure _))))

/-- A file that is created and written at once. -/
theorem answered_write {d : Files} {path : Str} (contents : Bytes) (h : d.entry path = none) :
    Answered FileAct (.call (.write path contents)) (.ok ()) d none (Files.created d path contents) := by
  have hwrites := @FileAct.writes (d.add path) path contents d.next 0 contents.length (by omega)
  rw [Disk.add_data_self, List.drop_zero, List.take_length, writePiece_nil_zero, Nat.zero_add] at hwrites
  exact .works (.creates h) (.works hwrites (.now .written))

theorem deviceRun_install : DeviceRun FileAct emptyFiles installEvents installedFiles := by
  have hservice : (Files.created emptyFiles scetyConfigPath shortConfig).entry servicePath = none :=
    Disk.add_entry_of_ne emptyFiles scetyConfigPath_ne_servicePath.symm
  have hlooked : FileAct (Files.created emptyFiles scetyConfigPath shortConfig) (.pathExists servicePath)
      none (.inr false) (Files.created emptyFiles scetyConfigPath shortConfig) := by
    have h := @FileAct.pathExists (Files.created emptyFiles scetyConfigPath shortConfig) servicePath
    rwa [hservice] at h
  unfold installEvents
  refine .cons (.now .isRoot) (.cons (.now (.succeeds rfl)) (.cons (.now (.succeeds rfl)) ?_))
  refine .cons (.now .pathExists) (.cons (.now (.succeeds rfl)) (.cons (answered_write _ rfl) ?_))
  refine .cons (.now (.succeeds rfl)) (.cons (.now .walk) (.cons (.now (.succeeds rfl)) ?_))
  refine .cons (.now (.succeeds rfl)) (.cons (.now (.succeeds rfl)) (.cons (.now (.succeeds rfl)) ?_))
  refine .cons (.now (.succeeds rfl)) (.cons (.now (.succeeds rfl)) (.cons (.now hlooked) ?_))
  refine .cons (.now (.succeeds rfl)) (.cons (answered_write _ hservice) ?_)
  exact .cons (.now (.succeeds rfl)) (.cons (.now (.succeeds rfl)) (.nil _))

theorem not_writeFailed_install : ¬ WriteFailed scetyConfigPath installEvents := by
  rintro ⟨contents, text, hmem⟩
  have hnone : ∀ ev ∈ installEvents, osError ev = none := by
    unfold installEvents
    simp [osError]
  exact nomatch hnone _ hmem

theorem commands_interleaved_install :
    (∀ contents ∈ installedFiles.read scetyConfigPath, contents = shortConfig) ∧
      (installedFiles.read scetyConfigPath).isSome = true ∧
      (installedFiles.read servicePath).isSome = true := by
  have h := commands_interleaved shortConfig emptyFiles
    (reachable_of_run (i := Command.install) trivial reaches_install deviceRun_install)
  refine ⟨h.2.1 rfl ?_, h.2.2 ?_ _ (List.mem_singleton.mpr rfl) rfl rfl⟩
  · intro t ht
    obtain rfl := List.mem_singleton.mp ht
    exact ⟨fun hunfinished => Bool.false_ne_true hunfinished.1, not_writeFailed_install⟩
  · rintro ⟨t, ht, hlabel⟩
    obtain rfl := List.mem_singleton.mp ht
    exact nomatch hlabel

end Scety
