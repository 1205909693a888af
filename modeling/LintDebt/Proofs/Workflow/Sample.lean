import LintDebt.FileTree.Basic
import LintDebt.Linter.Basic
import LintDebt.Log.Record

/-! # A small project

A project with one stylesheet, which its ignore list names, and a linter that finds an error in every
file. Theorems about runs are applied to it. -/

namespace LintDebt.Sample

/-- The octets of an ASCII text. -/
def octets (text : String) : List UInt8 := Utf8.encode text.toList

/-- The list has a remark, a pattern that finds the stylesheet, and one that finds nothing. -/
def list : List UInt8 := octets "# debt\na.css\nb.css\n"

def tree : FileTree where
  nodes := Std.ExtTreeMap.ofList [
    ([".stylelintignore"], Node.file list),
    ([".stylelintrc.json"], Node.file (octets "\x7b\x7d")),
    (["a.css"], Node.file (octets "a\n"))]
  here := []

def base : Path := ⟨.absolute, []⟩

/-- A linter that finds an error on the first line of every file. -/
def strict : Linter Unit where
  lint _ files := pure (files.map fun f =>
    ⟨Text.unitsOf f, true, [⟨.error, 1, 1, Text.unitsOf "rule", []⟩]⟩)

/-- A linter that finds as many errors in a file as the file has line feeds. -/
def perLine : Linter Unit where
  lint _ files := do
    let t ← Job.tree
    return files.map fun f =>
      let n := ((t.read f).toOption.getD []).count 10
      ⟨Text.unitsOf f, 0 < n, List.replicate n ⟨.error, 1, 1, Text.unitsOf "rule", []⟩⟩

/-- A linter that gives these answers one after the other, and then has nothing to report. -/
def scripted : Linter (List (Except Failure (List Report))) where
  lint _ _ := ExceptT.mk fun w => match w.state with
    | [] => (.ok [], w)
    | answer :: rest => (answer, { w with state := rest })

/-- A linter that finds an error against a rule whose name is no text in every file, and that reports
in the other order every second time. -/
def wavering : Linter Bool where
  lint _ files := ExceptT.mk fun w =>
    let reports := files.map fun f => ⟨Text.unitsOf f, true, [⟨.error, 1, 1, [0xd800], []⟩]⟩
    (.ok (if w.state then reports.reverse else reports), { w with state := !w.state })

def world : World Unit := ⟨tree, (), []⟩

end LintDebt.Sample
