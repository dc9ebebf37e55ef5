import Scety.Cli.CommandRuns
import Scety.Lib.Disk
import Scety.Lib.Stepwise

/-!
# `cli/commands`: what the commands do to the files

Any number of commands run at the same time; each of their operations may fail, and a command may be
killed anywhere.  A file is written in steps: it is opened, which empties it or creates it, and then gets
its contents piece by piece, while the other commands go on.  What was there before all of them stays, but
two commands that both found a file missing may both write it, one into what the other has written.
-/

namespace Scety

open Effects Transition Stepwise Disks

/-- The disk, as far as these commands write files themselves; a path is the name of a file, not of a link. -/
abbrev Files := Disk Str UInt8

/-- A file that is being written, and how much it has got of the contents. -/
structure Writing where
  file : ℕ
  offset : ℕ

/-- Whether a call changes files. -/
def Call.changesFiles : Call → Bool
  | write _ _ => true
  | removeFile _ => true
  | _ => false

/-- What the operations do to the files, a step at a time, and what they answer. -/
inductive FileAct : Files → (op : CliOp) → Option Writing → Writing ⊕ op.Answer → Files → Prop where
  /-- `Path::exists`, which is also false where the system cannot look; here it can. -/
  | pathExists {d path} : FileAct d (.pathExists path) none (.inr (d.entry path).isSome) d
  /-- `std::fs::write` opens the file and empties it. -/
  | truncates {d path contents file} : d.entry path = some file →
      FileAct d (.call (.write path contents)) none (.inl ⟨file, 0⟩) (d.put file [])
  | creates {d path contents} : d.entry path = none →
      FileAct d (.call (.write path contents)) none (.inl ⟨d.next, 0⟩) (d.add path)
  /-- `write_all` writes what the system takes at once, and goes on behind it. -/
  | writes {d path contents file offset n} : offset + n ≤ contents.length →
      FileAct d (.call (.write path contents)) (some ⟨file, offset⟩) (.inl ⟨file, offset + n⟩)
        (d.put file (writePiece (d.data file) offset ((contents.drop offset).take n)))
  | written {d path contents file} :
      FileAct d (.call (.write path contents)) (some ⟨file, contents.length⟩) (.inr (.ok ())) d
  | removes {d path file} : d.entry path = some file →
      FileAct d (.call (.removeFile path)) none (.inr (.ok ())) (d.remove path)
  /-- The disk is full, for one, wherever the operation is. -/
  | fails {d c w text} : FileAct d (.call c) w (.inr (.error text)) d
  | succeeds {d c a} : c.changesFiles = false → FileAct d (.call c) none (.inr (.ok a)) d
  | isRoot {d root} : FileAct d .isRoot none (.inr root) d
  | walk {d dir n} : FileAct d (.walk dir) none (.inr n) d
  | print {d text} : FileAct d (.print text) none (.inr ()) d

/-- A command that was started, and how far it is. -/
abbrev CommandTask := Stepwise.Task Command CliOp CliOp.Answer (Except Failure Unit) Writing

/-- Commands are started at any time, on the disk `d₀`, those that satisfy `Starts`.  A command that is
killed takes no further step. -/
def commandSystem (scetyConfig : Bytes) (Starts : Command → Prop) (d₀ : Files) :
    System (State Command CliOp CliOp.Answer (Except Failure Unit) Writing Files) Unit :=
  system (fun cmd => (cmd.program scetyConfig).run) Starts FileAct d₀

/-- What `install` writes to a file. -/
def Writes (scetyConfig : Bytes) (path : Str) (contents : Bytes) : Prop :=
  (path = scetyConfigPath ∧ contents = scetyConfig) ∨
    (path = servicePath ∧ ∃ exePath, contents = bytes (installServiceContent exePath))

/-! ### What the steps keep -/

/-- The entry of a path that `install` writes, where there was none or an `uninstall` may have removed
it. -/
structure Renewed (scetyConfig : Bytes) (Starts : Command → Prop) (d₀ d : Files) (path : Str) : Prop where
  written : ∃ contents, Writes scetyConfig path contents
  missing : d₀.entry path = none ∨ (path = servicePath ∧ Starts .uninstall)
  contents : ∀ file, d.entry path = some file →
    d₀.next ≤ file ∧ MadeOf (Writes scetyConfig path) (d.data file)

/-- The files of `d₀` keep their contents, an entry is that of `d₀` or a new one, and a new file has one
name. -/
structure DiskKept (scetyConfig : Bytes) (Starts : Command → Prop) (d₀ d : Files) : Prop where
  next : d₀.next ≤ d.next
  data : ∀ file, file < d₀.next → d.data file = d₀.data file
  entry : ∀ path, d.entry path = d₀.entry path ∨ Renewed scetyConfig Starts d₀ d path
  names : ∀ path path' file, d₀.next ≤ file → d.entry path = some file → d.entry path' = some file →
    path' = path

/-- What an event shows of the disk: a file that is not there when it is looked for, or is there after it
was written, or, where nothing is removed, is there when it is looked for. -/
def Shows (Starts : Command → Prop) (d₀ : Files) : CliEvent → Files → Prop
  | ⟨.pathExists path, false⟩, d => ∀ file, d.entry path = some file → d₀.next ≤ file
  | ⟨.pathExists path, true⟩, d => ¬ Starts .uninstall → (d.entry path).isSome = true
  | ⟨.call (.write path _), .ok _⟩, d => ¬ Starts .uninstall → (d.entry path).isSome = true
  | _, _ => True

/-- What a write relies on: the file is a new one, nothing else has its name, and nothing removes it where
nobody uninstalls. -/
structure Opened (Starts : Command → Prop) (d₀ : Files) (path : Str) (contents : Bytes) (w : Writing)
    (d : Files) : Prop where
  new : d₀.next ≤ w.file
  lt : w.file < d.next
  offset : w.offset ≤ contents.length
  names : ∀ path', d.entry path' = some w.file → path' = path
  entry : ¬ Starts .uninstall → (d.entry path).isSome = true

def Relies (Starts : Command → Prop) (d₀ : Files) : CliOp → Writing → Files → Prop
  | .call (.write path contents), w, d => Opened Starts d₀ path contents w d
  | _, _, _ => True

/-- What is known before a step of a command. -/
abbrev CommandReady (scetyConfig : Bytes) (Starts : Command → Prop) (d₀ d : Files) (cmd : Command)
    (tr : List CliEvent) (op : CliOp) (w : Option Writing) : Prop :=
  Ready (fun cmd => cmd.May scetyConfig) Starts (DiskKept scetyConfig Starts d₀) (Shows Starts d₀)
    (Relies Starts d₀) d cmd tr op w

/-- The changes of the disk that the commands make: new files are written, a file is created where there is
none, and an `uninstall` removes the unit. -/
inductive Changes (scetyConfig : Bytes) (Starts : Command → Prop) (d₀ d : Files) : Files → Prop where
  | same : Changes scetyConfig Starts d₀ d d
  | puts {file c} : d₀.next ≤ file →
      (∀ path, d.entry path = some file → MadeOf (Writes scetyConfig path) c) →
      Changes scetyConfig Starts d₀ d (d.put file c)
  | adds {path contents} : d.entry path = none → Writes scetyConfig path contents →
      Changes scetyConfig Starts d₀ d (d.add path)
  | removes : Starts .uninstall → Changes scetyConfig Starts d₀ d (d.remove servicePath)

section Steps

variable {scetyConfig : Bytes} {Starts : Command → Prop} {d₀ d d' : Files} {cmd : Command}
  {tr : List CliEvent} {ev : CliEvent} {path : Str} {contents : Bytes} {file : ℕ}

theorem scetyConfigPath_ne_servicePath : scetyConfigPath ≠ servicePath := by decide

theorem write_of_may (h : cmd.May scetyConfig tr (.call (.write path contents))) :
    Looked path false tr ∧ Writes scetyConfig path contents := by
  cases cmd with
  | install =>
    obtain ⟨hlooked, hconfig | ⟨hservice, -, exePath, -, hcontents⟩⟩ := h.1
    · exact ⟨hlooked, Or.inl hconfig⟩
    · exact ⟨hlooked, Or.inr ⟨hservice, exePath, hcontents⟩⟩
  | uninstall => exact h.elim
  | stop => exact h.elim
  | reload => exact h.elim
  | status => exact h.elim

theorem removeFile_of_may (h : cmd.May scetyConfig tr (.call (.removeFile path))) :
    cmd = .uninstall ∧ path = servicePath := by
  cases cmd with
  | install => exact h.1.elim
  | uninstall => exact ⟨rfl, h.1⟩
  | stop => exact h.elim
  | reload => exact h.elim
  | status => exact h.elim

/-- A new file has the contents of a new one. -/
theorem DiskKept.madeOf (h : DiskKept scetyConfig Starts d₀ d) (hentry : d.entry path = some file)
    (hnew : d₀.next ≤ file) : MadeOf (Writes scetyConfig path) (d.data file) := by
  rcases h.entry path with hold | hrenewed
  · exact absurd (d₀.entry_lt (hold ▸ hentry)) (Nat.not_lt.mpr hnew)
  · exact (hrenewed.contents file hentry).2

theorem changes_of_fileAct {op : CliOp} {w : Option Writing} {next : Writing ⊕ op.Answer}
    (hready : CommandReady scetyConfig Starts d₀ d cmd tr op w) (h : FileAct d op w next d') :
    Changes scetyConfig Starts d₀ d d' := by
  cases h with
  | @truncates path contents file hfile =>
    obtain ⟨hlooked, -⟩ := write_of_may hready.allowed
    exact .puts (hready.shown _ hlooked file hfile) fun _ _ => madeOf_nil
  | creates hnone => exact .adds hnone (write_of_may hready.allowed).2
  | @writes path contents file offset n hn =>
    obtain ⟨-, hwrites⟩ := write_of_may hready.allowed
    have hopened : Opened Starts d₀ path contents ⟨file, offset⟩ d := hready.progress _ rfl
    refine .puts hopened.new fun path' hpath' => ?_
    obtain rfl := hopened.names path' hpath'
    exact (hready.device.madeOf hpath' hopened.new).writePiece hwrites hopened.offset n
  | removes hfile =>
    obtain ⟨rfl, rfl⟩ := removeFile_of_may hready.allowed
    exact .removes hready.starts
  | pathExists => exact .same
  | written => exact .same
  | fails => exact .same
  | succeeds hc => exact .same
  | isRoot => exact .same
  | walk => exact .same
  | print => exact .same

/-- An entry that is missing was missing from the start, or may have been removed. -/
theorem DiskKept.missing (h : DiskKept scetyConfig Starts d₀ d) (hnone : d.entry path = none) :
    d₀.entry path = none ∨ (path = servicePath ∧ Starts .uninstall) := by
  rcases h.entry path with hold | hrenewed
  · exact Or.inl (hold ▸ hnone)
  · exact hrenewed.missing

theorem DiskKept.put (hkept : DiskKept scetyConfig Starts d₀ d) {c : Bytes} (hnew : d₀.next ≤ file)
    (hmade : ∀ path, d.entry path = some file → MadeOf (Writes scetyConfig path) c) :
    DiskKept scetyConfig Starts d₀ (d.put file c) := by
  refine ⟨hkept.next, fun file' hlt => ?_, fun path => ?_, hkept.names⟩
  · rw [Disk.put_data_of_ne _ (by omega)]
    exact hkept.data file' hlt
  · rcases hkept.entry path with hold | hrenewed
    · exact Or.inl hold
    · refine Or.inr ⟨hrenewed.written, hrenewed.missing, fun file' hfile' => ⟨?_, ?_⟩⟩
      · exact (hrenewed.contents file' hfile').1
      · by_cases heq : file' = file
        · rw [heq, Disk.put_data_self]
          exact hmade path (heq ▸ hfile')
        · rw [Disk.put_data_of_ne _ heq]
          exact (hrenewed.contents file' hfile').2

theorem DiskKept.add (hkept : DiskKept scetyConfig Starts d₀ d) (hnone : d.entry path = none)
    (hwrites : Writes scetyConfig path contents) : DiskKept scetyConfig Starts d₀ (d.add path) := by
  refine ⟨Nat.le_succ_of_le hkept.next, fun file hlt => ?_, fun path' => ?_, ?_⟩
  · rw [Disk.add_data_of_lt _ (Nat.lt_of_lt_of_le hlt hkept.next)]
    exact hkept.data file hlt
  · by_cases heq : path' = path
    · subst heq
      refine Or.inr ⟨⟨contents, hwrites⟩, hkept.missing hnone, fun file hfile => ?_⟩
      rw [Disk.add_entry_self] at hfile
      obtain rfl := Option.some.inj hfile
      rw [Disk.add_data_self]
      exact ⟨hkept.next, madeOf_nil⟩
    · rw [Disk.add_entry_of_ne _ heq]
      rcases hkept.entry path' with hold | hrenewed
      · exact Or.inl hold
      · refine Or.inr ⟨hrenewed.written, hrenewed.missing, fun file hfile => ?_⟩
        rw [Disk.add_entry_of_ne _ heq] at hfile
        rw [Disk.add_data_of_lt _ (d.entry_lt hfile)]
        exact hrenewed.contents file hfile
  · -- the new file has the number that no entry had
    intro path₁ path₂ file hnew h₁ h₂
    rcases d.entry_of_add h₁ with ⟨rfl, hfile₁⟩ | ⟨-, h₁⟩
    · rcases d.entry_of_add h₂ with ⟨rfl, -⟩ | ⟨-, h₂⟩
      · rfl
      · exact absurd (d.entry_lt h₂) (hfile₁ ▸ Nat.lt_irrefl _)
    · rcases d.entry_of_add h₂ with ⟨-, hfile₂⟩ | ⟨-, h₂⟩
      · exact absurd (d.entry_lt h₁) (hfile₂ ▸ Nat.lt_irrefl _)
      · exact hkept.names path₁ path₂ file hnew h₁ h₂

theorem DiskKept.remove (hkept : DiskKept scetyConfig Starts d₀ d) (hstarts : Starts .uninstall) :
    DiskKept scetyConfig Starts d₀ (d.remove servicePath) := by
  refine ⟨hkept.next, hkept.data, fun path => ?_, ?_⟩
  · by_cases heq : path = servicePath
    · subst heq
      refine Or.inr ⟨⟨_, Or.inr ⟨rfl, [], rfl⟩⟩, Or.inr ⟨rfl, hstarts⟩, fun file hfile => ?_⟩
      rw [Disk.remove_entry_self] at hfile
      exact absurd hfile.symm (Option.some_ne_none file)
    · rw [Disk.remove_entry_of_ne _ heq]
      exact (hkept.entry path).imp_right fun hrenewed =>
        ⟨hrenewed.written, hrenewed.missing, fun file hfile =>
          hrenewed.contents file (d.entry_of_remove hfile)⟩
  · intro path path' file hnew h h'
    exact hkept.names path path' file hnew (d.entry_of_remove h) (d.entry_of_remove h')

theorem Changes.kept (h : Changes scetyConfig Starts d₀ d d') (hkept : DiskKept scetyConfig Starts d₀ d) :
    DiskKept scetyConfig Starts d₀ d' := by
  cases h with
  | same => exact hkept
  | puts hnew hmade => exact hkept.put hnew hmade
  | adds hnone hwrites => exact hkept.add hnone hwrites
  | removes hstarts => exact hkept.remove hstarts

/-- A new entry has the number of a new file. -/
theorem Changes.entry (h : Changes scetyConfig Starts d₀ d d') (hfile : d'.entry path = some file) :
    d.entry path = some file ∨ file = d.next := by
  cases h with
  | same => exact Or.inl hfile
  | puts => exact Or.inl hfile
  | adds =>
    rcases d.entry_of_add hfile with ⟨-, hnext⟩ | ⟨-, hbefore⟩
    · exact Or.inr hnext
    · exact Or.inl hbefore
  | removes => exact Or.inl (d.entry_of_remove hfile)

/-- No entry vanishes but by an `uninstall`. -/
theorem Changes.isSome (h : Changes scetyConfig Starts d₀ d d') (hno : ¬ Starts .uninstall)
    (hsome : (d.entry path).isSome = true) : (d'.entry path).isSome = true := by
  cases h with
  | same => exact hsome
  | puts => exact hsome
  | @adds path' _ hnone =>
    by_cases heq : path = path'
    · rw [heq, Disk.add_entry_self]
      rfl
    · rwa [Disk.add_entry_of_ne _ heq]
  | removes hstarts => exact absurd hstarts hno

theorem Changes.next_le (h : Changes scetyConfig Starts d₀ d d') : d.next ≤ d'.next := by
  cases h with
  | same => exact Nat.le_refl _
  | puts => exact Nat.le_refl _
  | adds => exact Nat.le_succ _
  | removes => exact Nat.le_refl _

theorem Changes.shows (h : Changes scetyConfig Starts d₀ d d') (hkept : DiskKept scetyConfig Starts d₀ d)
    (hev : Shows Starts d₀ ev d) : Shows Starts d₀ ev d' := by
  obtain ⟨op, a⟩ := ev
  cases op with
  | pathExists path =>
    cases a with
    | false =>
      intro file hfile
      rcases h.entry hfile with hbefore | rfl
      · exact hev file hbefore
      · exact hkept.next
    | true => exact fun hno => h.isSome hno (hev hno)
  | call c =>
    cases a with
    | error text => cases c <;> trivial
    | ok a =>
      cases c with
      | write path contents => exact fun hno => h.isSome hno (hev hno)
      | _ => trivial
  | isRoot => trivial
  | walk dir => trivial
  | print text => trivial

theorem Changes.relies (h : Changes scetyConfig Starts d₀ d d') {op : CliOp} {w : Writing}
    (hw : Relies Starts d₀ op w d) : Relies Starts d₀ op w d' := by
  cases op with
  | call c =>
    cases c with
    | write path contents =>
      obtain ⟨hnew, hlt, hoffset, hnames, hentry⟩ := hw
      refine ⟨hnew, Nat.lt_of_lt_of_le hlt h.next_le, hoffset, fun path' hpath' => ?_,
        fun hno => h.isSome hno (hentry hno)⟩
      rcases h.entry hpath' with hbefore | hnext
      · exact hnames path' hbefore
      · exact absurd hlt (hnext ▸ Nat.lt_irrefl _)
    | _ => trivial
  | _ => trivial

/-- What a write relies on when it goes on. -/
theorem relies_of_fileAct {op : CliOp} {w : Option Writing} {w' : Writing}
    (hready : CommandReady scetyConfig Starts d₀ d cmd tr op w) (h : FileAct d op w (.inl w') d') :
    Relies Starts d₀ op w' d' := by
  cases h with
  | @truncates path contents file hfile =>
    have hnew : d₀.next ≤ file := hready.shown _ (write_of_may hready.allowed).1 file hfile
    refine ⟨hnew, d.entry_lt hfile, Nat.zero_le _, fun path' hpath' => ?_, fun _ => ?_⟩
    · exact hready.device.names path path' file hnew hfile hpath'
    · show (d.entry path).isSome = true
      rw [hfile]
      rfl
  | @creates path contents hnone =>
    refine ⟨hready.device.next, Nat.lt_succ_self _, Nat.zero_le _, fun path' hpath' => ?_, fun _ => ?_⟩
    · rcases d.entry_of_add hpath' with ⟨rfl, -⟩ | ⟨-, hbefore⟩
      · rfl
      · exact absurd (d.entry_lt hbefore) (Nat.lt_irrefl _)
    · rw [Disk.add_entry_self]
      rfl
  | @writes path contents file offset n hn =>
    have hopened : Opened Starts d₀ path contents ⟨file, offset⟩ d := hready.progress _ rfl
    exact ⟨hopened.new, hopened.lt, hn, hopened.names, hopened.entry⟩

/-- What an answer shows. -/
theorem shows_of_fileAct {op : CliOp} {w : Option Writing} {a : op.Answer}
    (hready : CommandReady scetyConfig Starts d₀ d cmd tr op w) (h : FileAct d op w (.inr a) d') :
    Shows Starts d₀ ⟨op, a⟩ d' := by
  cases h with
  | @pathExists path =>
    cases hpath : d.entry path with
    | none =>
      intro file hfile
      rw [hpath] at hfile
      exact absurd hfile.symm (Option.some_ne_none _)
    | some file =>
      intro _
      rw [hpath]
      rfl
  | @written path contents file =>
    have hopened : Opened Starts d₀ path contents ⟨file, contents.length⟩ d := hready.progress _ rfl
    exact hopened.entry
  | removes => trivial
  | @fails c => cases c <;> trivial
  | @succeeds c a hc =>
    cases c with
    | write path contents => exact absurd hc.symm Bool.false_ne_true
    | _ => trivial
  | isRoot => trivial
  | walk => trivial
  | print => trivial

theorem guarantees_commands (scetyConfig : Bytes) (Starts : Command → Prop) (d₀ : Files) :
    Guarantees (fun cmd => cmd.May scetyConfig) Starts FileAct (DiskKept scetyConfig Starts d₀)
      (Shows Starts d₀) (Relies Starts d₀) where
  keeps hready h := (changes_of_fileAct hready h).kept hready.device
  relies := relies_of_fileAct
  shows := shows_of_fileAct
  shownStable hready h _ hev := (changes_of_fileAct hready h).shows hready.device hev
  progressStable hready h _ _ hw := (changes_of_fileAct hready h).relies hw

end Steps

end Scety
