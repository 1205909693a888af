import LintDebt.Proofs.Distinct
import LintDebt.Proofs.IgnoreList

/-! # The files that are left of a list

Suppressed files may be left out of a list pattern by pattern, and the rest then put together, or left
out of all the files of the list at once: the same files are left, in the same order. Both ways ask
about the files in the order of the list and stop at the first about which the system refuses to
answer; what the one way asks again, because a file stands under several patterns, it has asked
before. -/

namespace LintDebt

/-- The error of a step that fails. -/
def error? {ε α : Type} : Except ε α → Option ε
  | .error e => some e
  | .ok _ => none

theorem error?_eq_none {ε α : Type} {x : Except ε α} : error? x = none ↔ ∃ a, x = .ok a := by
  cases x <;> simp [error?]

namespace Traced

variable {ε α β : Type}

theorem result_bind (x : Traced ε α) (f : α → Traced ε β) :
    (x >>= f).result = x.result >>= fun a => (f a).result := by
  rcases x with ⟨log, e | a⟩ <;> rfl

end Traced

namespace Blanket

variable {α β : Type} {t : FileTree} {p : Path}

/-- Why it cannot be told whether a file is kept, if it cannot. -/
def refusal? (t : FileTree) (p : Path) : Option Failure := error? (keeps t p).result

/-- The answer after questions about these files, if none of them is refused. -/
def answered (t : FileTree) (files : List Path) (a : α) : Except Failure α :=
  match files.findSome? (refusal? t) with
  | some e => .error e
  | none => .ok a

theorem answered_map (t : FileTree) (files : List Path) (a : α) (f : α → β) :
    (answered t files a >>= fun a => .ok (f a)) = answered t files (f a) := by
  rw [answered, answered]
  cases files.findSome? (refusal? t) <;> rfl

theorem answered_bind (t : FileTree) (files rest : List Path) (a : α) (f : α → β) :
    (answered t files a >>= fun a => answered t rest (f a)) = answered t (files ++ rest) (f a) := by
  rw [answered, answered, List.findSome?_append]
  cases files.findSome? (refusal? t) <;> rfl

/-- A question that was asked before is not refused now. -/
theorem answered_eraseDups (t : FileTree) (files : List Path) (a : α) :
    answered t files.eraseDups a = answered t files a := by
  rw [answered, answered, findSome?_eraseDups]

theorem answered_eq_ok {files : List Path} {a b : α} :
    answered t files a = .ok b ↔ (∀ p ∈ files, refusal? t p = none) ∧ a = b := by
  rw [answered, ← List.findSome?_eq_none_iff]
  cases files.findSome? (refusal? t) <;> simp

theorem keeps_eq_answered (t : FileTree) (p : Path) :
    (keeps t p).result = answered t [p] (isOpen t p) := by
  rw [answered, List.findSome?_singleton, refusal?]
  cases h : (keeps t p).result with
  | error e => rfl
  | ok kept => exact congrArg Except.ok (result_keeps h)

/-- The files that are left, unless a question about one of them is refused. -/
theorem filter_eq_answered (t : FileTree) (files : List Path) :
    (filter t files).result = answered t files (files.filter (isOpen t)) := by
  induction files with
  | nil => rfl
  | cons p rest ih =>
    have hrest : ∀ kept : Bool, (do
        let others ← filter t rest
        return if kept then p :: others else others).result =
        answered t rest (if kept then p :: rest.filter (isOpen t) else rest.filter (isOpen t)) := by
      intro kept
      rw [Traced.result_bind, ih]
      exact answered_map t rest _ _
    change (do
      let kept ← keeps t p
      let others ← filter t rest
      return if kept then p :: others else others).result = _
    rw [Traced.result_bind, keeps_eq_answered]
    simp only [hrest]
    rw [answered_bind, List.filter_cons]
    rfl

/-- A question about a file is refused exactly if it is not known whether the file is there. -/
theorem refusal?_eq_none : refusal? t p = none ↔ ∃ known, t.existsAt p.text = .ok known := by
  rw [refusal?, error?_eq_none]
  cases hexists : t.existsAt p.text with
  | error e =>
    have hrefused : covers t p = .error (.fault (.os e)) := by
      rw [covers, TextFile.stream, TextFile.octets, TextFile.require, hexists]
      rfl
    delta keeps
    rw [hrefused]
    simp
  | ok known =>
    cases hread : t.read p.text with
    | ok octets => simp [result_keeps_of_read hread]
    | error e =>
      obtain ⟨tool, htool⟩ : ∃ tool, covers t p = .error (.tool tool) := by
        rw [covers, TextFile.stream, TextFile.octets, TextFile.require, hexists, hread]
        cases known <;> exact ⟨_, rfl⟩
      delta keeps
      rw [htool]
      exact ⟨fun _ => ⟨known, rfl⟩, fun _ => ⟨true, rfl⟩⟩

end Blanket

namespace IgnoreList

open Blanket

/-- The list with only the files that pass a test, and only the patterns that still have files. -/
def keeping (test : Path → Bool) (m : IgnoreList) : IgnoreList :=
  (m.map fun e => { e with files := e.files.filter test }).filter (!·.files.isEmpty)

theorem files_keeping (test : Path → Bool) (m : IgnoreList) :
    (keeping test m).files = m.files.filter test := by
  have hflat : (keeping test m).flatMap Entry.files = (m.flatMap Entry.files).filter test := by
    induction m with
    | nil => rfl
    | cons e rest ih =>
      rw [List.flatMap_cons, List.filter_append, ← ih, keeping, List.map_cons, List.filter_cons]
      split
      · rw [List.flatMap_cons]
        rfl
      · next hempty =>
        have hnone : e.files.filter test = [] := by simpa using hempty
        rw [hnone]
        rfl
  rw [files, hflat, files, filter_eraseDups]

/-- What is left of a list, unless a question about one of its files is refused. -/
theorem withoutCovered_eq_answered (t : FileTree) (m : IgnoreList) :
    (m.withoutCovered t).result = answered t (m.flatMap Entry.files) (keeping (isOpen t) m) := by
  induction m with
  | nil => rfl
  | cons e rest ih =>
    have hrest : ∀ left : List Path, (do
        let others ← withoutCovered t rest
        return if left.isEmpty then others else { e with files := left } :: others).result =
        answered t (rest.flatMap Entry.files) (if left.isEmpty then keeping (isOpen t) rest
          else { e with files := left } :: keeping (isOpen t) rest) := by
      intro left
      rw [Traced.result_bind, ih]
      exact answered_map t _ _ _
    rw [withoutCovered, Traced.result_bind, filter_eq_answered]
    simp only [hrest]
    rw [answered_bind, List.flatMap_cons, keeping, keeping, List.map_cons, List.filter_cons]
    congr 1
    cases e.files.filter (isOpen t) <;> rfl

/-- To leave out suppressed files pattern by pattern and put the rest together is to leave them out of
all the files of the list. Each file is left once, and nothing stops that if the system answers for
every file whether it is there. -/
theorem files_withoutCovered (t : FileTree) (m : IgnoreList) :
    (m.withoutCovered t).result.map files = (Blanket.filter t m.files).result ∧
    (∀ left, (Blanket.filter t m.files).result = .ok left → left.Nodup) ∧
    ((∃ left, (Blanket.filter t m.files).result = .ok left) ↔
      ∀ e ∈ m, ∀ p ∈ e.files, ∃ known, t.existsAt p.text = .ok known) := by
  have hfilter : (Blanket.filter t m.files).result =
      answered t (m.flatMap Entry.files) (m.files.filter (isOpen t)) := by
    rw [filter_eq_answered, ← answered_eraseDups t (m.flatMap Entry.files)]
    rfl
  simp only [hfilter, answered_eq_ok]
  refine ⟨?_, ?_, ?_⟩
  · rw [withoutCovered_eq_answered, ← files_keeping]
    exact answered_map t _ _ _
  · rintro left ⟨-, rfl⟩
    exact (nodup_eraseDups _).filter _
  · simp only [refusal?_eq_none, List.mem_flatMap, exists_and_left, exists_eq', and_true]
    constructor
    · exact fun h e he p hp => h p ⟨e, he, hp⟩
    · rintro h p ⟨e, he, hp⟩
      exact h e he p hp

/-- A suppressed stylesheet, two others, and a list whose patterns share them. -/
def shared : FileTree where
  nodes := Std.ExtTreeMap.ofList [
    (["a.css"], Node.file (Utf8.encode "/* stylelint-disable */\n".toList)),
    (["b.css"], Node.file []), (["c.css"], Node.file (Utf8.encode "p".toList))]
  here := []

def sharing : IgnoreList :=
  let a := Path.parse "/a.css"
  let b := Path.parse "/b.css"
  let c := Path.parse "/c.css"
  [⟨"?.css", [a, b, c]⟩, ⟨"a.css", [a]⟩, ⟨"[cb].css", [c, b, c]⟩]

theorem files_withoutCovered_sharing :
    (sharing.withoutCovered shared).result.map files =
      .ok [Path.parse "/b.css", Path.parse "/c.css"] ∧
    [Path.parse "/b.css", Path.parse "/c.css"].Nodup ∧
    ∀ e ∈ sharing, ∀ p ∈ e.files, ∃ known, shared.existsAt p.text = .ok known := by
  obtain ⟨hsame, hnodup, hanswers⟩ := files_withoutCovered shared sharing
  have hleft : (Blanket.filter shared sharing.files).result =
      .ok [Path.parse "/b.css", Path.parse "/c.css"] := by decide +kernel
  exact ⟨hsame.trans hleft, hnodup _ hleft, hanswers.mp ⟨_, hleft⟩⟩

end IgnoreList
end LintDebt
