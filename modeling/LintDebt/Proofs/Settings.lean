import LintDebt.Cli.Run
import LintDebt.Proofs.Ending
import LintDebt.Proofs.FileTree.Refusals
import LintDebt.Proofs.Faults
import LintDebt.Proofs.Text.Decoding

/-! # Settings that cannot be used

A settings file that is legible TOML of the wrong shape, or legible and no TOML, is an error of the
tool's with its path, and the command line answers it with exit code 2. What the reading leaves to
faults is listed in `Uncaught`: they are the faults of the way to the text, and two that the reader of
the text has beside its own error. -/

namespace LintDebt

open FileTree

namespace Settings

/-- The faults for which settings are not read although they are there, or may be. -/
inductive Uncaught (t : FileTree) (p : Path) : Fault → Prop
  | overlong (h : t.stat p.text = .error (.refused .nameTooLong p.text none)) :
      Uncaught t p (.os (.refused .nameTooLong p.text none))
  | noFile {n : Node} (h : t.stat p.text = .ok n) (hn : ∀ octets, n ≠ .file octets) :
      Uncaught t p (.os (.refused .isDirectory p.text none))
  | illegible {octets : List UInt8} {e : Utf8.Error} (h : t.read p.text = .ok octets)
      (he : Utf8.decode octets = .error e) : Uncaught t p (.undecodable e)
  | longNumber {text : List Char} {digits : Nat} (h : t.read p.text = .ok (Utf8.encode text))
      (he : Toml.parse (String.ofList (Text.normalize text)) = .error (.tooManyDigits digits)) :
      Uncaught t p (.tooManyDigits digits)
  | deep {text : List Char} (h : t.read p.text = .ok (Utf8.encode text))
      (he : Toml.parse (String.ofList (Text.normalize text)) = .error .tooDeep) :
      Uncaught t p (.tooDeep none)

variable {t : FileTree} {p : Path} {text : List Char} {f : Fault} {e : Failure}

theorem load_of_error {e : OsError} (h : t.existsAt p.text = .error e) :
    load t p = .error (.fault (.os e)) := by
  rw [load, h]
  rfl

theorem load_of_absent (h : t.existsAt p.text = .ok false) : load t p = .ok standard := by
  rw [load, h]
  rfl

theorem load_of_there (h : t.existsAt p.text = .ok true) : load t p = (do
    let text ← liftFault (TextFile.decode (← liftOs (t.read p.text)))
    ofToml p.text (Text.normalize text)) := by
  rw [load, h]
  rfl

theorem existsAt_of_stat {n : Node} (h : t.stat p.text = .ok n) : t.existsAt p.text = .ok true := by
  rw [existsAt, h]
  rfl

theorem load_of_encoded (h : t.read p.text = .ok (Utf8.encode text)) :
    load t p = ofToml p.text (Text.normalize text) := by
  rw [load_of_there (existsAt_of_stat (read_eq_ok.mp h)), h]
  simp only [liftOs, mapError_ok, TextFile.decode, Utf8.decode_encode, liftFault, bind, Except.bind]

/-- What is there and is no file is refused like a directory. -/
theorem read_of_noFile {n : Node} (h : t.stat p.text = .ok n) (hn : ∀ octets, n ≠ .file octets) :
    t.read p.text = .error (.refused .isDirectory p.text none) := by
  rw [FileTree.read, h]
  cases n with
  | file octets => exact absurd rfl (hn octets)
  | directory => rfl
  | link target => rfl

/-- A text is refused for what it says, or for what its reader cannot take. -/
theorem ofToml_error {path : String} (h : ofToml path text = .error e) :
    (∃ cause, e = .tool (.badSettings cause path)) ∨
      (∃ digits, Toml.parse (String.ofList text) = .error (.tooManyDigits digits) ∧
        e = .fault (.tooManyDigits digits)) ∨
      Toml.parse (String.ofList text) = .error .tooDeep ∧ e = .fault (.tooDeep none) := by
  rw [ofToml] at h
  split at h
  · cases h
    exact Or.inl ⟨_, rfl⟩
  · next digits hparse =>
    cases h
    exact Or.inr (Or.inl ⟨digits, hparse, rfl⟩)
  · next hparse =>
    cases h
    exact Or.inr (Or.inr ⟨hparse, rfl⟩)
  · obtain ⟨mismatch, -, rfl⟩ := mapError_eq_error.mp h
    exact Or.inl ⟨_, rfl⟩

theorem load_error (h : load t p = .error e) :
    (∃ cause, e = .tool (.badSettings cause p.text)) ∨ ∃ f, e = .fault f ∧ Uncaught t p f := by
  cases hexists : t.existsAt p.text with
  | error refusal =>
    rw [load_of_error hexists] at h
    cases h
    obtain ⟨rfl, hstat⟩ := existsAt_eq_error hexists
    exact Or.inr ⟨_, rfl, .overlong hstat⟩
  | ok there =>
  cases there with
  | false =>
    rw [load_of_absent hexists] at h
    cases h
  | true =>
  obtain ⟨n, hstat⟩ := exists_stat_of_existsAt hexists
  by_cases hfile : ∀ octets, n ≠ .file octets
  · rw [load_of_there hexists, read_of_noFile hstat hfile] at h
    cases h
    exact Or.inr ⟨_, rfl, .noFile hstat hfile⟩
  obtain ⟨octets, rfl⟩ := not_forall_not.mp hfile
  have hread := read_eq_ok.mpr hstat
  cases hdecode : Utf8.decode octets with
  | error cause =>
    rw [load_of_there hexists, hread] at h
    simp only [liftOs, mapError_ok, TextFile.decode, hdecode, liftFault, bind, Except.bind,
      mapError_error] at h
    cases h
    exact Or.inr ⟨_, rfl, .illegible hread hdecode⟩
  | ok text =>
    rw [Utf8.decode_eq_ok.mp hdecode] at hread
    rw [load_of_encoded hread] at h
    rcases ofToml_error h with hcause | ⟨digits, hparse, rfl⟩ | ⟨hparse, rfl⟩
    · exact Or.inl hcause
    · exact Or.inr ⟨_, rfl, .longNumber hread hparse⟩
    · exact Or.inr ⟨_, rfl, .deep hread hparse⟩

theorem load_of_uncaught (h : Uncaught t p f) : load t p = .error (.fault f) := by
  cases h with
  | overlong h =>
    apply load_of_error
    rw [existsAt, h]
    rfl
  | noFile h hn =>
    rw [load_of_there (existsAt_of_stat h), read_of_noFile h hn]
    rfl
  | illegible h he =>
    rw [load_of_there (existsAt_of_stat (read_eq_ok.mp h)), h]
    simp only [liftOs, mapError_ok, TextFile.decode, he, liftFault, bind, Except.bind, mapError_error]
  | longNumber h he => rw [load_of_encoded h, ofToml, he]
  | deep h he => rw [load_of_encoded h, ofToml, he]

theorem load_eq_fault_iff : load t p = .error (.fault f) ↔ Uncaught t p f := by
  constructor
  · intro h
    rcases load_error h with ⟨cause, hcause⟩ | ⟨f', hf', huncaught⟩
    · cases hcause
    · cases hf'
      exact huncaught
  · exact load_of_uncaught

end Settings

namespace Cli

open Job

variable {σ : Type} {launch : Stylelint.Launcher σ} {words : List String} {w : World σ} {c : Command}
  {a : Arguments} {path : String}

theorem runFrom_runCommand_tool {e : ToolError} (hconfig : a.config = some path)
    (h : Settings.load w.tree (Path.parse path) = .error (.tool e)) :
    (runCommand launch c a).runFrom w =
      (.ok ⟨[], .ok 2⟩, { w with log := w.log ++ [⟨.error, .commandLine, e.message⟩] }) := by
  rw [runCommand, runFrom_tree_bind, hconfig, pathOf]
  dsimp only [Except.bind]
  rw [h]
  dsimp only
  rw [runFrom_note_bind]
  rfl

theorem runFrom_runCommand_fault {f : Fault} (hconfig : a.config = some path)
    (h : Settings.load w.tree (Path.parse path) = .error (.fault f)) :
    (runCommand launch c a).runFrom w = (.ok ⟨[], .error (.fault f)⟩, w) := by
  rw [runCommand, runFrom_tree_bind, hconfig, pathOf]
  dsimp only [Except.bind]
  rw [h]
  rfl

/-- How a run ends whose settings cannot be read. -/
def endingOf : Failure → Except Failure Nat
  | .tool _ => .ok 2
  | .fault f => .error (.fault f)

/-- A run whose settings cannot be read prints nothing and changes nothing. -/
theorem run_of_error {e : Failure} (launch : Stylelint.Launcher σ) (hparse : Request.parse words = .run c a)
    (hconfig : a.config = some path) (h : Settings.load w.tree (Path.parse path) = .error e) :
    (run launch words w).2.tree = w.tree ∧ (run launch words w).2.state = w.state ∧
      (run launch words w).1.stdout = "" ∧ (run launch words w).1.ending = endingOf e := by
  rw [run, hparse]
  dsimp only
  cases e with
  | tool e =>
    rw [← runFrom, runFrom_runCommand_tool (w := { w with log := [] }) hconfig h]
    exact ⟨rfl, rfl, rfl, rfl⟩
  | fault f =>
    rw [← runFrom, runFrom_runCommand_fault (w := { w with log := [] }) hconfig h]
    exact ⟨rfl, rfl, rfl, rfl⟩

/-- Settings that are not read are an error of the tool's, which the command line answers with exit
code 2, unless one of the faults that nothing turns into an error is in the way, and exactly these end
the run. -/
theorem settings_turned_down (t : FileTree) (p : Path) :
    ((∃ s, Settings.load t p = .ok s) ∨
      (∃ cause, Settings.load t p = .error (.tool (.badSettings cause p.text))) ∨
      ∃ f, Settings.load t p = .error (.fault f)) ∧
    (∀ f, Settings.load t p = .error (.fault f) ↔ Settings.Uncaught t p f) ∧
    ∀ (σ : Type) (launch : Stylelint.Launcher σ) (words : List String) (w : World σ) (c : Command)
      (a : Arguments) (path : String), Request.parse words = .run c a → a.config = some path →
      w.tree = t → Path.parse path = p → (∀ s, Settings.load t p ≠ .ok s) →
      let run := Cli.run launch words w
      run.2.tree = w.tree ∧ run.2.state = w.state ∧ run.1.stdout = "" ∧
        (run.1.ending = .ok 2 ∨ ∃ f, run.1.ending = .error (.fault f)) ∧
        ∀ f, run.1.ending = .error (.fault f) ↔ Settings.Uncaught t p f := by
  refine ⟨?_, fun f => Settings.load_eq_fault_iff, ?_⟩
  · cases hload : Settings.load t p with
    | ok s => exact Or.inl ⟨s, rfl⟩
    | error e =>
      rcases Settings.load_error hload with ⟨cause, rfl⟩ | ⟨f, rfl, -⟩
      · exact Or.inr (Or.inl ⟨cause, rfl⟩)
      · exact Or.inr (Or.inr ⟨f, rfl⟩)
  · rintro σ launch words w c a path hparse hconfig rfl rfl hno
    cases hload : Settings.load w.tree (Path.parse path) with
    | ok s => exact absurd hload (hno s)
    | error e =>
      obtain ⟨htree, hstate, hprinted, hending⟩ := run_of_error launch hparse hconfig hload
      refine ⟨htree, hstate, hprinted, ?_⟩
      rw [hending]
      cases e with
      | tool e =>
        refine ⟨Or.inl rfl, fun f => iff_of_false nofun fun huncaught => ?_⟩
        have hfault := Settings.load_of_uncaught huncaught
        rw [hload] at hfault
        cases hfault
      | fault f' =>
        refine ⟨Or.inr ⟨f', rfl⟩, fun f => ?_⟩
        rw [← Settings.load_eq_fault_iff, hload, endingOf]
        simp

/-- A project with one entry, the settings file, or what is in its place. -/
def onlySettings (n : Node) : FileTree where
  nodes := Std.ExtTreeMap.ofList [(["slim.toml"], n)]
  here := []

/-- A linter that cannot be started. -/
def noLinter : Stylelint.Launcher Unit := fun _ => pure (.error .noProgram)

theorem settings_turned_down_unclosed :
    let w : World Unit := ⟨onlySettings (.file (Utf8.encode "[paths".toList)), (), []⟩
    Settings.load w.tree (Path.parse "slim.toml") =
      .error (.tool (.badSettings .malformed "slim.toml")) ∧
    (run noLinter ["compress"] w).1.ending = .ok 2 := by
  intro w
  have hload : Settings.load w.tree (Path.parse "slim.toml") =
      .error (.tool (.badSettings .malformed "slim.toml")) := by decide +kernel
  obtain ⟨-, hfaults, hrun⟩ := settings_turned_down w.tree (Path.parse "slim.toml")
  obtain ⟨-, -, -, hending, hescapes⟩ := hrun Unit noLinter ["compress"] w .compress .standard
    "slim.toml" (by decide +kernel) rfl rfl rfl (by rw [hload]; nofun)
  refine ⟨hload, hending.resolve_right ?_⟩
  rintro ⟨f, hf⟩
  have hfault := (hfaults f).mpr ((hescapes f).mp hf)
  rw [hload] at hfault
  cases hfault

theorem settings_escape :
    let p := Path.parse "slim.toml"
    let w : World Unit := ⟨onlySettings (.file [0xff]), (), []⟩
    Settings.load w.tree p = .error (.fault (.undecodable ⟨.invalidStart, 0, 1, 0xff⟩)) ∧
    (run noLinter ["compress"] w).1.ending =
      .error (.fault (.undecodable ⟨.invalidStart, 0, 1, 0xff⟩)) ∧
    Settings.load (onlySettings .directory) p =
      .error (.fault (.os (.refused .isDirectory "slim.toml" none))) := by
  decide +kernel

end Cli
end LintDebt
