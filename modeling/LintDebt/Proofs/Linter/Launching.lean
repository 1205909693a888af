import LintDebt.Linter.Stylelint
import LintDebt.Proofs.Query.Occupied
import LintDebt.Proofs.Workflow.Sample

/-! # Questions to a program

A question starts the program once, with the list out of sight, or not at all. Whatever the program
prints, and however its start fails, the question ends with its reports or with an error of the
tool's, and the list is back. `Concluded` tells the ways to end apart: it says what the end has to
do with what came of the start, and with nothing else. -/

namespace LintDebt.Stylelint

open Job Query

/-- The failure that kept a program from printing anything, if it was there at all. -/
def unstarted? : Except Failure (Except LaunchError Output) → Option Failure
  | .error f => some f
  | .ok (.error (.failed f)) => some f
  | .ok _ => none

/-- What comes of a start, and how the question ends. -/
inductive Concluded (program : String) :
    Except Failure (Except LaunchError Output) → Except Failure (List Report) → Prop where
  /-- The output holds reports. -/
  | reported (o : Output) (reports : List Report)
    (h : Reports.read o.stdout o.stderr o.code = .ok reports) :
    Concluded program (.ok (.ok o)) (.ok reports)
  /-- The output holds no list of reports. -/
  | unreported (o : Output) (e : ToolError)
    (h : Reports.read o.stdout o.stderr o.code = .error (.tool e)) :
    Concluded program (.ok (.ok o)) (.error (.tool e))
  /-- The output holds a list of something else. -/
  | illFormed (o : Output) (f : Fault)
    (h : Reports.read o.stdout o.stderr o.code = .error (.fault f)) :
    Concluded program (.ok (.ok o)) (.error (.tool (.linterFailed f)))
  | missing : Concluded program (.ok (.error .noProgram)) (.error (.tool (.noLinter program)))
  /-- An error of the tool's passes unchanged. -/
  | refused (start : Except Failure (Except LaunchError Output)) (e : ToolError)
    (h : unstarted? start = some (.tool e)) : Concluded program start (.error (.tool e))
  /-- Any other failure is blamed on the linter. -/
  | raised (start : Except Failure (Except LaunchError Output)) (f : Fault)
    (h : unstarted? start = some (.fault f)) :
    Concluded program start (.error (.tool (.linterFailed f)))

variable {σ : Type} {launch : Launcher σ} {command program : List String} {workDir : Option String}
  {config : Json.Fields} {names : List String} {files : List Path} {list hidden : Path}
  {w : World σ} {octets : List UInt8}

/-- No question ends with anything but reports or an error of the tool's. -/
theorem Concluded.typed {name : String} {start : Except Failure (Except LaunchError Output)}
    {r : Except Failure (List Report)} (h : Concluded name start r) {f : Failure}
    (hr : r = .error f) : ∃ e, f = .tool e := by
  cases h with
  | reported => cases hr
  | unreported | illFormed | missing | refused | raised => cases hr; exact ⟨_, rfl⟩

/-- The answer of a program, from what came of its start. -/
def answer (name : String) : Except Failure (Except LaunchError Output) → Except Failure (List Report)
  | .ok (.ok o) => Reports.read o.stdout o.stderr o.code
  | .ok (.error .noProgram) => .error (.tool (.noLinter name))
  | .ok (.error (.failed f)) => .error f
  | .error f => .error f

theorem concluded_answer (name : String) (start : Except Failure (Except LaunchError Output)) :
    Concluded name start (blameLinter (answer name start)) := by
  rcases start with (e | f) | (_ | e | f) | o
  · exact .refused _ e rfl
  · exact .raised _ f rfl
  · exact .missing
  · exact .refused _ e rfl
  · exact .raised _ f rfl
  · change Concluded name _ (blameLinter (Reports.read o.stdout o.stderr o.code))
    rcases hread : Reports.read o.stdout o.stderr o.code with (e | f) | reports
    · exact .unreported o e hread
    · exact .illFormed o f hread
    · exact .reported o reports hread

/-- What came of the start decides how the question ends. -/
theorem Concluded.eq_answer {name : String} {start : Except Failure (Except LaunchError Output)}
    {r : Except Failure (List Report)} (h : Concluded name start r) :
    r = blameLinter (answer name start) := by
  cases h with
  | reported o reports hread | unreported o e hread | illFormed o f hread =>
    rw [answer, hread]
    rfl
  | missing => rfl
  | refused start e hfailed | raised start f hfailed =>
    rcases start with f | (_ | f) | o <;> cases hfailed <;> rfl

/-- The program that a command stands for. -/
def programOf (command : List String) : List String :=
  if command.isEmpty then defaultProgram else command

/-- What is started for a question in a tree. -/
def Command.of (command : List String) (workDir : Option String) (config : Json.Fields)
    (names : List String) (t : FileTree) : Command :=
  ⟨programOf command, (Json.object config).write Json.compact, baseDirectory t workDir, names, workDir⟩

/-- The world in which a program starts. -/
def announced (w : World σ) (program : List String) (names : List String) : World σ :=
  let shown := " ".intercalate program
  { w with log := w.log ++ [⟨.debug, .linter, s!"Running {shown} on {names.length} file(s)"⟩] }

/-- A run starts the program once, and ends as the program does. -/
theorem runFrom_run : (run launch (programOf command) workDir config names).runFrom w =
    let start := (launch (.of command workDir config names w.tree)).runFrom
      (announced w (programOf command) names)
    (answer ((programOf command).headD "") start.1, start.2) := by
  rw [run]
  simp only
  rw [runFrom_note_bind, runFrom_tree_bind, runFrom_bind]
  simp only [Command.of, announced]
  generalize (launch _).runFrom _ = start
  rcases start with ⟨f | (_ | f) | o, w'⟩ <;> rfl

theorem runFrom_question (launch : Launcher σ) (command : List String) (workDir : Option String)
    (config : Json.Fields) (hnames : names ≠ []) (w : World σ) :
    (do
      let result ← ((linter launch command workDir).lint config names).observe
      Job.ofExcept (blameLinter result) : Job σ (List Report)).runFrom w =
    let start := (launch (.of command workDir config names w.tree)).runFrom
      (announced w (programOf command) names)
    (blameLinter (answer ((programOf command).headD "") start.1), start.2) := by
  rw [runFrom_observe_bind, linter]
  simp only [List.isEmpty_iff, if_neg hnames]
  rw [show (if command = [] then defaultProgram else command) = programOf command by
    simp [programOf], runFrom_run]
  rfl

/-- What is started does not depend on where the list is. -/
theorem Command.of_eq {t t' : FileTree} (h : FileTree.SameWays t t') :
    Command.of command workDir config names t = .of command workDir config names t' := by
  rw [Command.of, Command.of, baseDirectory, baseDirectory, h.absolute]

/-- A question to a program ends with reports or with an error of the tool's, and the list is back.
Nothing is started for no files, nor if the list cannot be moved. -/
theorem violations_concluded (launch : Launcher σ) (command : List String) (workDir : Option String)
    (config : Json.Fields) (list : Path) :
    (∀ w : World σ, (violations (linter launch command workDir) config [] list).runFrom w =
      (.ok [], w)) ∧
    ∀ (files : List Path) (w : World σ) (hidden : Path) (octets : List UInt8), files ≠ [] →
      (∀ c w, ((launch c).runFrom w).2.tree = w.tree) → hiddenPath list = .ok hidden →
      InPlace w.tree list hidden octets →
      let run := (violations (linter launch command workDir) config files list).runFrom w
      run.2.tree = w.tree ∧ (∀ f, run.1 = .error f → ∃ e, f = .tool e) ∧
      ((∃ e, w.tree.rename list.text hidden.text = .error e ∧
          run = (.error (.tool (.unmovable (.os e) list.text hidden.text)), w)) ∨
        ∃ before : World σ, before.state = w.state ∧
          w.tree.rename list.text hidden.text = .ok before.tree ∧
          OutOfSight before.tree list hidden octets ∧
          let start := (launch (.of command workDir config (files.map Path.text) w.tree)).runFrom before
          run.2.state = start.2.state ∧
            Concluded ((programOf command).headD "") start.1 run.1) := by
  refine ⟨fun w => rfl, ?_⟩
  intro files w hidden octets hfiles hquiet hhidden hplace
  have hnames : files.map Path.text ≠ [] := by simpa using hfiles
  simp only [violations, List.isEmpty_iff, if_neg hfiles]
  obtain ⟨directory, name, hentry, -⟩ := hplace.tree.exists_entry hplace.list (by simp)
  cases haway : w.tree.rename list.text hidden.text with
  | error e =>
    obtain ⟨code, -, hstuck⟩ := exists_stuck hentry.null (nonnull_hiddenPath hhidden hentry.null) haway
    rw [runFrom_whileHidden_of_stuck hplace.existsAt hhidden haway, hstuck]
    refine ⟨rfl, ?_, Or.inl ⟨e, rfl, rfl⟩⟩
    intro f hf
    cases hf
    exact ⟨_, rfl⟩
  | ok aside =>
    obtain ⟨hsight, hways⟩ := hplace.outOfSight hhidden haway
    have hquestion := runFrom_question launch command workDir config hnames
      (inside w list hidden aside)
    rw [show (inside w list hidden aside).tree = aside from rfl, ← Command.of_eq hways] at hquestion
    simp only at hquestion
    generalize hbefore : announced (inside w list hidden aside) (programOf command)
      (files.map Path.text) = before at hquestion
    generalize hstart : (launch (.of command workDir config (files.map Path.text) w.tree)).runFrom
      before = start at hquestion
    have htree : before.tree = aside := by rw [← hbefore]; rfl
    have hback : start.2.tree.rename hidden.text list.text = .ok w.tree := by
      rw [← hstart, hquiet, htree]
      exact hplace.restored hhidden haway
    have hconcluded := concluded_answer ((programOf command).headD "") start.1
    rw [runFrom_whileHidden_of_away hplace.existsAt hhidden haway (t := w.tree)
      (by rw [hquestion]; exact hback), hquestion]
    refine ⟨rfl, fun f hf => hconcluded.typed hf, Or.inr ⟨before, ?_, ?_, ?_, ?_⟩⟩
    · rw [← hbefore]
      rfl
    · rw [htree]
    · rw [htree]
      exact hsight
    · rw [hstart]
      exact ⟨rfl, hconcluded⟩

/-- A list with an item whose only violation is no object. -/
def Sample.printed : Output := ⟨"[\x7b\"source\":\"a.css\",\"warnings\":[null]\x7d]", "", 2⟩

/-- A program that counts its starts. -/
def Sample.launcher : Launcher Nat := fun _ => ExceptT.mk fun w =>
  (.ok (.ok Sample.printed), { w with state := w.state + 1 })

theorem Sample.runFrom_launcher (c : Command) (w : World Nat) :
    (Sample.launcher c).runFrom w = (.ok (.ok Sample.printed), { w with state := w.state + 1 }) :=
  rfl

def Sample.listPath : Path := ⟨.absolute, [".stylelintignore"]⟩

def Sample.hiddenListPath : Path := ⟨.absolute, [".stylelintignore.slim-hidden"]⟩

/-- A question about one file to that program. -/
def Sample.question : Job Nat (List Report) :=
  violations (linter Sample.launcher [] none) [] [⟨.absolute, ["a.css"]⟩] Sample.listPath

def Sample.counting : World Nat := ⟨Sample.tree, 0, []⟩

/-- What is no violation is blamed on the linter, after one start. -/
theorem violations_concluded_of_null :
    (∀ c w, ((Sample.launcher c).runFrom w).2.tree = w.tree) ∧
    hiddenPath Sample.listPath = .ok Sample.hiddenListPath ∧
    InPlace Sample.counting.tree Sample.listPath Sample.hiddenListPath Sample.list ∧
    (Sample.question.runFrom Sample.counting).2.tree = Sample.counting.tree ∧
    (Sample.question.runFrom Sample.counting).2.state = 1 ∧
    (Sample.question.runFrom Sample.counting).1 = .error (.tool (.linterFailed
      (.invalid ⟨"Violation", [.of (.modelType "Violation") .null]⟩))) := by
  have hplace : InPlace Sample.counting.tree Sample.listPath Sample.hiddenListPath Sample.list := by
    decide +kernel
  have hmoves : (Sample.counting.tree.rename Sample.listPath.text Sample.hiddenListPath.text).isOk := by
    decide +kernel
  have hread : Reports.read Sample.printed.stdout Sample.printed.stderr Sample.printed.code =
      .error (.fault (.invalid ⟨"Violation", [.of (.modelType "Violation") .null]⟩)) := by
    decide +kernel
  have hquiet : ∀ c w, ((Sample.launcher c).runFrom w).2.tree = w.tree := by
    simp [Sample.runFrom_launcher]
  have hhidden : hiddenPath Sample.listPath = .ok Sample.hiddenListPath := by decide +kernel
  unfold Sample.question
  obtain ⟨htree, -, hrun⟩ := (violations_concluded Sample.launcher [] none [] Sample.listPath).2
    [⟨.absolute, ["a.css"]⟩] Sample.counting Sample.hiddenListPath Sample.list (List.cons_ne_nil _ _)
    hquiet hhidden hplace
  refine ⟨hquiet, hhidden, hplace, htree, ?_⟩
  rcases hrun with ⟨e, he, -⟩ | ⟨before, hstate, -, -, hafter, hconcluded⟩
  · rw [he] at hmoves
    cases hmoves
  simp only [Sample.runFrom_launcher] at hafter hconcluded
  refine ⟨?_, ?_⟩
  · rw [hafter, hstate]
    rfl
  · rw [hconcluded.eq_answer, answer, hread]
    rfl

end LintDebt.Stylelint
