import Scety.Cli.InstallRuns

/-!
# `cli/commands`: all runs of the commands

`uninstall`, `stop`, `reload` and `status` after `install`, and what holds of the runs of every command:
each operation is one that the command may do, and a command fails exactly at its last event.
-/

namespace Scety

open Effects

/-! ### The other commands -/

section Control

variable {cmd : Command} {scetyConfig : Bytes}

/-- A call that comes first. -/
theorem triple_first {c : Call} (hmay : cmd.May scetyConfig [] (.call c)) :
    cmd.Triple scetyConfig (· = []) (attempt c) fun a => cmd.Now (· = []) ⟨.call c, .ok a⟩ := by
  refine (triple_attempt (K := (· = [])) ?_).mono ?_ fun _ _ h => h
  · rintro tr rfl
    exact hmay
  · rintro tr rfl
    exact ⟨Command.clean_nil, rfl⟩

/-- The service was active and was told to `verb`. -/
def Controlled (verb : String) (before : List CliEvent) : Prop :=
  Active before ∧ ∃ status, Done (.status (systemctl [verb, "scety"])) status before

theorem triple_control {verb message : String} (hmay : cmd.May scetyConfig = MayControl verb)
    (hmessage : cmd.notActive = some message.toList) :
    cmd.Triple scetyConfig (· = []) (control verb message)
      fun _ => cmd.Holds (Controlled verb) := by
  unfold control
  refine (triple_first (c := .output (systemctl ["is-active", "scety"])) ?_).bind fun stdout => ?_
  · rw [hmay]
    exact ⟨rfl, rfl⟩
  cases hactive : isActive stdout with
  | false =>
    refine triple_throw fun tr h => h.failed fun before _ => ?_
    show (if isActive stdout then none else cmd.notActive.map Failure.error) = _
    rw [hactive, hmessage]
    rfl
  | true =>
    have hout := persistent_done (.output (systemctl ["is-active", "scety"])) stdout
    have hstatus : cmd.Triple scetyConfig _ _ _ :=
      triple_call (c := .status (systemctl [verb, "scety"])) hout
        (fun tr h => by rw [hmay]; exact ⟨rfl, stdout, hactive, h⟩) fun _ _ => rfl
    refine (hstatus.bind fun status => triple_pure fun tr h => ?_).mono ?_ fun _ _ h => h
    · exact ⟨h.1, ⟨stdout, hactive, h.2.1⟩, status, h.2.2⟩
    · refine fun tr h => h.holds (fun before _ => if_pos hactive) ?_
      rintro before rfl
      exact List.mem_singleton.mpr rfl

/-- The output of `systemctl status` was shown, if there was any. -/
def Shown (before : List CliEvent) : Prop :=
  ∃ stdout, Done (.output (systemctl ["status", "scety"])) stdout before ∧
    (stdout = [] ∨ ⟨.print (fromUtf8Lossy stdout), ()⟩ ∈ before)

theorem triple_status :
    Command.status.Triple scetyConfig (· = []) status fun _ => Command.status.Holds Shown := by
  unfold status
  refine (triple_first (c := .output (systemctl ["status", "scety"])) ?_).bind fun stdout => ?_
  · exact ⟨rfl, rfl⟩
  have hout := persistent_done (.output (systemctl ["status", "scety"])) stdout
  have hheld : ∀ tr, Command.status.Now (· = []) ⟨.call (.output (systemctl ["status", "scety"])),
      .ok stdout⟩ tr → Command.status.Holds
        (Done (.output (systemctl ["status", "scety"])) stdout) tr := by
    refine fun tr h => h.holds (fun before _ => ?_) ?_
    · show (if isActive stdout then none else none) = none
      split_ifs <;> rfl
    · rintro before rfl
      exact List.mem_singleton.mpr rfl
  cases hstdout : stdout.isEmpty with
  | true =>
    refine triple_pure fun tr h => ?_
    have h' := hheld tr h
    exact ⟨h'.1, stdout, h'.2, Or.inl (List.isEmpty_iff.mp hstdout)⟩
  | false =>
    have hne : stdout ≠ [] := fun h => by rw [h] at hstdout; exact nomatch hstdout
    refine (triple_ask (.print (fromUtf8Lossy stdout)) ?_).mono hheld ?_
    · exact fun tr h => ⟨stdout, h, hne, rfl⟩
    · refine fun _ tr h => h.holds (fun _ _ => rfl) fun before hbefore => ?_
      exact ⟨stdout, hout (List.prefix_append _ _) hbefore,
        Or.inr (List.mem_append_right _ List.mem_cons_self)⟩

/-- The unit is removed, and systemd knows. -/
structure Uninstalled (tr : List CliEvent) : Prop where
  installed : Looked servicePath true tr
  disabled : ∃ status, Done (.status (systemctl ["disable", "scety"])) status tr
  removed : Done (.removeFile servicePath) () tr
  reloaded : ∃ status, Done (.status (systemctl ["daemon-reload"])) status tr

theorem triple_stopIfActive :
    Command.uninstall.Triple scetyConfig (Command.uninstall.Holds (Looked servicePath true))
      stopIfActive fun _ => Command.uninstall.Holds (Looked servicePath true) := by
  have hlooked := persistent_looked servicePath true
  unfold stopIfActive
  refine (triple_call (c := .output (systemctl ["is-active", "scety"])) hlooked ?_ ?_).bind
    fun stdout => ?_
  · exact fun _ h => ⟨rfl, h⟩
  · intro before stdout
    show (if isActive stdout then none else none) = none
    split_ifs <;> rfl
  cases hactive : isActive stdout with
  | false => exact triple_pure fun tr h => ⟨h.1, h.2.1⟩
  | true =>
    refine (triple_call (c := .status (systemctl ["stop", "scety"])) (hlooked.and
      (persistent_done (.output (systemctl ["is-active", "scety"])) stdout)) ?_ fun _ _ => rfl).bind
        fun _ => triple_pure fun tr h => ⟨h.1, h.2.1.1⟩
    exact fun _ h => ⟨h.1, Or.inl ⟨rfl, stdout, hactive, h.2⟩⟩

theorem triple_removeService :
    Command.uninstall.Triple scetyConfig (Command.uninstall.Holds (Looked servicePath true))
      removeService fun _ => Command.uninstall.Holds Uninstalled := by
  have hlooked := persistent_looked servicePath true
  unfold removeService
  refine (triple_call (c := .status (systemctl ["disable", "scety"])) hlooked ?_
    fun _ _ => rfl).bind fun disabled => ?_
  · exact fun _ h => ⟨h, Or.inr (Or.inl rfl)⟩
  have hdisabled := hlooked.and (persistent_done (.status (systemctl ["disable", "scety"])) disabled)
  refine (triple_call (c := .removeFile servicePath) hdisabled ?_ fun _ _ => rfl).bind fun _ => ?_
  · exact fun _ h => ⟨rfl, h.1, disabled, h.2⟩
  refine (triple_call (c := .status (systemctl ["daemon-reload"]))
    (hdisabled.and (persistent_done (.removeFile servicePath) ())) ?_ fun _ _ => rfl).bind
      fun reloaded => triple_pure fun tr h => ?_
  · exact fun _ h => ⟨h.1.1, Or.inr (Or.inr ⟨rfl, h.2⟩)⟩
  · exact ⟨h.1, h.2.1.1.1, ⟨disabled, h.2.1.1.2⟩, h.2.1.2, reloaded, h.2.2⟩

theorem triple_uninstall :
    Command.uninstall.Triple scetyConfig (· = []) uninstall
      fun _ => Command.uninstall.Holds Uninstalled := by
  unfold uninstall
  refine Triple.mono (Triple.bind (triple_ask (K := (· = [])) (.pathExists servicePath) ?_) ?_)
    ?_ fun _ _ h => h
  · exact fun _ h => ⟨h, rfl⟩
  · rintro (_ | _)
    · exact triple_throw fun tr h => h.failed fun _ _ => rfl
    · refine (triple_stopIfActive.bind fun _ => triple_removeService).mono ?_ fun _ _ h => h
      refine fun tr h => h.holds (fun _ _ => rfl) ?_
      rintro before rfl
      exact List.mem_singleton.mpr rfl
  · rintro tr rfl
    exact ⟨Command.clean_nil, rfl⟩

end Control

/-! ### All runs -/

section Runs

variable {cmd : Command} {scetyConfig : Bytes} {tr tr₁ tr₂ : List CliEvent} {ev : CliEvent}
  {q : Prog CliOp CliOp.Answer (Except Failure Unit)} {r : Except Failure Unit}

/-- What a command has done when it has succeeded. -/
def Command.Succeeded (scetyConfig : Bytes) : Command → List CliEvent → Prop
  | .install => Installed scetyConfig
  | .uninstall => Uninstalled
  | .stop => Controlled "stop"
  | .reload => Controlled "restart"
  | .status => Shown

theorem triple_program (cmd : Command) (scetyConfig : Bytes) :
    cmd.Triple scetyConfig (· = []) (cmd.program scetyConfig)
      fun _ => cmd.Holds (cmd.Succeeded scetyConfig) := by
  cases cmd with
  | install => exact triple_install
  | uninstall => exact triple_uninstall
  | stop => exact triple_control rfl rfl
  | reload => exact triple_control rfl rfl
  | status => exact triple_status

theorem may_of_reaches (h : Reaches (cmd.program scetyConfig).run (tr₁ ++ ev :: tr₂) q) :
    cmd.May scetyConfig tr₁ ev.1 :=
  ((triple_program cmd scetyConfig [] rfl).allowed_of_reaches h).2

/-- A run of `uninstall` for a service that has stopped. -/
def uninstallEvents : List CliEvent :=
  [⟨.pathExists servicePath, true⟩,
    ⟨.call (.output (systemctl ["is-active", "scety"])), .ok (bytes "inactive\n".toList)⟩,
    ⟨.call (.status (systemctl ["disable", "scety"])), .ok ⟨true, "exit status: 0".toList⟩⟩,
    ⟨.call (.removeFile servicePath), .ok ()⟩,
    ⟨.call (.status (systemctl ["daemon-reload"])), .ok ⟨true, "exit status: 0".toList⟩⟩]

theorem completes_uninstall (scetyConfig : Bytes) :
    Completes (Command.uninstall.program scetyConfig) uninstallEvents (.ok ()) := by
  have hactive : isActive (bytes "inactive\n".toList) = false := by decide
  unfold uninstallEvents
  refine Runs.perform _ (Runs.perform _ ?_)
  show Runs (ExceptT.run (do
    if isActive (bytes "inactive\n".toList) then
      let _ ← statusOf (systemctl ["stop", "scety"])
    removeService : Cli Unit)) _ _
  rw [hactive]
  exact Runs.perform _ (Runs.perform _ (Runs.perform _ (Runs.pure _)))

/-- **The order of a command's operations**, at every point of every partial run: nothing has failed
before, and what was done before allows the operation. -/
theorem commands_order (h : Reaches (cmd.program scetyConfig).run (tr₁ ++ ev :: tr₂) q) :
    cmd.Clean tr₁ ∧ cmd.May scetyConfig tr₁ ev.1 :=
  (triple_program cmd scetyConfig [] rfl).allowed_of_reaches h

theorem commands_order_uninstall : Looked servicePath true (uninstallEvents.take 3) ∧
    ∃ status, Done (.status (systemctl ["disable", "scety"])) status (uninstallEvents.take 3) :=
  (@commands_order .uninstall [] (uninstallEvents.take 3) (uninstallEvents.drop 4)
    ⟨.call (.removeFile servicePath), .ok ()⟩ _
    (reaches_end_iff.mpr (completes_uninstall []))).2.2

/-- A command fails exactly with the failure of its last event. -/
theorem failed_iff_of_completes (h : Completes (cmd.program scetyConfig) tr r) (failure : Failure) :
    r = .error failure ↔ cmd.Failed failure tr := by
  have hpost := (triple_program cmd scetyConfig [] rfl).of_runs h
  cases r with
  | ok u =>
    refine iff_of_false (fun h => nomatch h) ?_
    rintro ⟨tr₁, ev, rfl, -, hfailure⟩
    rw [hpost.1 tr₁ ev [] rfl] at hfailure
    exact nomatch hfailure
  | error failure' =>
    refine ⟨?_, ?_⟩
    · rintro ⟨⟩
      exact hpost
    · rintro ⟨tr₁, ev, htr, -, hfailure⟩
      obtain ⟨tr₂, ev', rfl, -, hfailure'⟩ := hpost
      obtain ⟨rfl, hlast⟩ := List.append_inj' htr rfl
      obtain rfl := List.head_eq_of_cons_eq hlast
      rw [Option.some.inj (hfailure'.symm.trans hfailure)]

/-- **When a command fails, and what it has done when it succeeds**: it fails exactly with the failure
of its last event, and then the process exits with 1; otherwise nothing has failed, everything is done,
and it exits with 0. -/
theorem command_result (h : Completes (cmd.program scetyConfig) tr r) :
    (∀ failure, r = .error failure ↔ cmd.Failed failure tr) ∧
      (exitCode r = 1 ↔ ∃ failure, cmd.Failed failure tr) ∧
      (r = .ok () → exitCode r = 0 ∧ cmd.Clean tr ∧ cmd.Succeeded scetyConfig tr) := by
  have hfailed := failed_iff_of_completes h
  refine ⟨hfailed, ?_, ?_⟩
  · simp only [← hfailed]
    cases r with
    | ok u => exact iff_of_false Nat.zero_ne_one (fun ⟨_, h⟩ => nomatch h)
    | error failure => exact iff_of_true rfl ⟨failure, rfl⟩
  · rintro rfl
    exact ⟨rfl, (triple_program cmd scetyConfig [] rfl).of_runs h⟩

theorem command_result_uninstall : Uninstalled uninstallEvents :=
  ((command_result (completes_uninstall [])).2.2 rfl).2.2

end Runs

end Scety
