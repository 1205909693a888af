import LintDebt.Suppression.Plan

/-! # Comments around lines

A page is a text whose lines carry the comments put above and below them. So the number of a line
keeps its meaning while comments are added: a later comment above a line stands nearer to it, and so
does a later one below it. A comment for a line past the end goes to the end of the page, one for a
line before the first to the first line, and on a page without lines there is no first line. -/

namespace LintDebt.Suppression

/-- A line with the comments above it and below it, both from the top down. -/
structure Slot where
  above : List Comment
  line : Text.Units
  below : List Comment
  deriving DecidableEq, Repr

structure Page where
  slots : List Slot
  tail : List Comment
  deriving DecidableEq, Repr

namespace Slot

def bare (line : Text.Units) : Slot := ⟨[], line, []⟩

def addAbove (c : Comment) (s : Slot) : Slot := { s with above := s.above ++ [c] }

def addBelow (c : Comment) (s : Slot) : Slot := { s with below := c :: s.below }

def lines (s : Slot) : List Text.Units :=
  s.above.map Comment.text ++ s.line :: s.below.map Comment.text

end Slot

namespace Page

/-- The page of a text without comments of ours. -/
def ofLines (lines : List Text.Units) : Page := ⟨lines.map Slot.bare, []⟩

def lines (p : Page) : List Text.Units :=
  p.slots.flatMap Slot.lines ++ p.tail.map Comment.text

/-- Adds a comment at a line, counted from one. -/
def add (p : Page) (line : Int) (c : Comment) (put : Comment → Slot → Slot) : Except Fault Page :=
  if p.slots.length < line then .ok { p with tail := p.tail ++ [c] }
  else if p.slots.isEmpty then .error .indexOutOfRange
  else .ok { p with slots := p.slots.modify (line - 1).toNat (put c) }

def addAbove (p : Page) (line : Int) (c : Comment) : Except Fault Page := p.add line c Slot.addAbove

def addBelow (p : Page) (line : Int) (c : Comment) : Except Fault Page := p.add line c Slot.addBelow

/-- Puts a group between two comments. -/
def enclose (p : Page) (g : Group) : Except Fault Page := do
  let p ← p.addAbove g.start ⟨.disable, g.rules⟩
  p.addBelow g.stop ⟨.enable, g.rules⟩

def announce (p : Page) (entry : Int × List Text.Units) : Except Fault Page :=
  p.addAbove entry.1 ⟨.disableNextLine, entry.2⟩

end Page

/-- The lines with the comments of a plan. -/
def Plan.apply (plan : Plan) (style : Style) (lines : List Text.Units) :
    Except Fault (List Text.Units) := do
  let page := Page.ofLines lines
  let page ← match style with
    | .block => plan.foldlM Page.enclose page
    | .nextLine => plan.byStart.foldlM Page.announce page
  return page.lines

end LintDebt.Suppression
