import LintDebt.Proofs.Json.RoundTrip
import LintDebt.Proofs.Linter.Launching
import LintDebt.Proofs.TextFile
import LintDebt.Settings

/-! # The configuration that the linter gets

The linter gets the configuration as a text of its own, not as the text that the project holds: what
that text was read as is written again. So it is read as the same object, with its fields in the same
order at every level, whatever the strings in it hold and however long its integers are. -/

namespace LintDebt

open Text

namespace TextFile

variable {t : FileTree} {p : Path} {text : List Char}

theorem read_of_encoded (h : t.read p.text = .ok (Utf8.encode text)) :
    read t p = .ok (normalize text) := by
  rw [read, octets_of_read h]
  simp only [bind, Except.bind, decode, Utf8.decode_encode, mapError_ok]
  rfl

end TextFile

namespace LintConfig

variable {t : FileTree} {path : String} {fields : Json.Fields} {text : List Char}

/-- A configuration that is read is what its text holds. -/
theorem load_eq_ok : load t path = .ok fields ↔ ∃ text, TextFile.read t (.parse path) = .ok text ∧
    Json.parse (String.ofList text) = .ok (.object fields) := by
  rw [load, bind_eq_ok]
  apply exists_congr
  intro text
  apply and_congr_right
  intro _
  split <;> simp_all

end LintConfig

namespace Stylelint

open Job Json

/-- A linter that is asked about files is started once, with the configuration as a text in printable
ASCII that is read as what was loaded, wherever it is read. -/
theorem config_verbatim {σ : Type} (launch : Launcher σ) (command : List String)
    (workDir : Option String) (t : FileTree) (path : String) (fields : Json.Fields)
    (names : List String) (w : World σ) (hload : LintConfig.load t path = .ok fields)
    (hfloat : floatless (.object fields) = true) (hnames : names ≠ []) :
    let c := Command.of command workDir fields names w.tree
    let start := (launch c).runFrom (announced w (programOf command) names)
    ((linter launch command workDir).lint fields names).runFrom w =
      (answer ((programOf command).headD "") start.1, start.2) ∧
    Json.parse c.config = .ok (.object fields) ∧ (∀ char ∈ c.config.toList, IsAscii char) ∧
    ∀ (t' : FileTree) (path' : String),
      t'.read (Path.parse path').text = .ok (Utf8.encode c.config.toList) →
        LintConfig.load t' path' = .ok fields := by
  obtain ⟨text, -, hparse⟩ := LintConfig.load_eq_ok.mp hload
  have hfits := fits_of_document? (parse_eq_ok.mp hparse)
  have hascii : ∀ char ∈ ((Json.object fields).write compact).toList, IsAscii char := by
    rw [write, String.toList_ofList]
    exact isAscii_writeAt hfits hfloat 0
  refine ⟨?_, parse_write hfits hfloat, hascii, ?_⟩
  · change (if names.isEmpty then pure [] else
      run launch (programOf command) workDir fields names).runFrom w = _
    rw [if_neg (by simpa using hnames), runFrom_run]
  · intro t' path' hread
    have hreturn : '\r' ∉ ((Json.object fields).write compact).toList := by
      intro hmem
      have hchar := hascii _ hmem
      revert hchar
      decide
    rw [LintConfig.load_eq_ok]
    refine ⟨_, TextFile.read_of_encoded hread, ?_⟩
    rw [Command.of, normalize_eq_self hreturn, String.ofList_toList]
    exact parse_write hfits hfloat

/-- A project with a configuration that has escapes, characters past U+FFFF, half of a pair, a long
integer, and a key that stands there twice. -/
def layered : FileTree where
  nodes := Std.ExtTreeMap.ofList [([".stylelintrc.json"], Node.file (Utf8.encode
    "\x7b\"é\\\"\": [-12345678901234567890, \"😀\"],\n\"k\": 1, \"\\ud800\":null,\"k\":[\x7b\x7d]\x7d".toList))]
  here := []

theorem config_verbatim_layered : ∃ fields,
    LintConfig.load layered ".stylelintrc.json" = .ok fields ∧
    floatless (.object fields) = true ∧
    let c := Command.of [] none fields ["a.css"] layered
    c.config = "\x7b\"\\u00e9\\\"\": [-12345678901234567890, \"\\ud83d\\ude00\"], " ++
      "\"k\": [\x7b\x7d], \"\\ud800\": null\x7d" ∧
    Json.parse c.config = .ok (.object fields) ∧ ∀ char ∈ c.config.toList, IsAscii char := by
  have hloads : (LintConfig.load layered ".stylelintrc.json").toOption.any (fun fields =>
      floatless (.object fields) && (Command.of [] none fields ["a.css"] layered).config ==
        "\x7b\"\\u00e9\\\"\": [-12345678901234567890, \"\\ud83d\\ude00\"], " ++
          "\"k\": [\x7b\x7d], \"\\ud800\": null\x7d") = true := by
    decide +kernel
  cases hload : LintConfig.load layered ".stylelintrc.json" with
  | error e =>
    rw [hload] at hloads
    cases hloads
  | ok fields =>
    rw [hload] at hloads
    obtain ⟨hfloat, hconfig⟩ := Bool.and_eq_true_iff.mp hloads
    obtain ⟨-, hparse, hascii, -⟩ := config_verbatim Sample.launcher [] none layered
      ".stylelintrc.json" fields ["a.css"] ⟨layered, 0, []⟩ hload hfloat (List.cons_ne_nil _ _)
    exact ⟨fields, rfl, hfloat, beq_iff_eq.mp hconfig, hparse, hascii⟩

end Stylelint
end LintDebt
