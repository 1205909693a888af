import LintDebt.Proofs.Suppression.Gathering
import LintDebt.Suppression.Page

/-! # Comments put into a list of lines

Comments can be put straight into the list of lines, if a table says for each line of the text where
it is by now and every insertion moves what is behind it. That comes to the same as a page: the
table of a page counts the lines above each of its slots (`insertInto_eq_apply`). The rules for a
line can likewise be collected while the plan is walked (`merged_eq_byStart`). -/

namespace LintDebt.Suppression

/-- The lines so far and, for each line of the text, its index among them. -/
structure Buffer where
  lines : List Text.Units
  places : List Nat
  deriving DecidableEq, Repr

/-- Where a place is after an insertion. -/
def shifted (index place : Nat) : Nat := if index ≤ place then place + 1 else place

namespace Buffer

def ofLines (lines : List Text.Units) : Buffer := ⟨lines, List.range lines.length⟩

def insertAt (b : Buffer) (index : Nat) (line : Text.Units) : Buffer :=
  ⟨b.lines.insertIdx index line, b.places.map (shifted index)⟩

/-- The index so far behind a line number, counted from one. -/
def indexOf (b : Buffer) (number : Int) (behind : Nat) : Except Fault Nat :=
  if number - 1 < b.places.length then
    match b.places[(max number 1 - 1).toNat]? with
    | some place => .ok (place + behind)
    | none => .error .indexOutOfRange
  else .ok b.lines.length

def put (b : Buffer) (number : Int) (behind : Nat) (line : Text.Units) : Except Fault Buffer :=
  (b.indexOf number behind).map fun index => b.insertAt index line

def before (b : Buffer) (number : Int) (line : Text.Units) : Except Fault Buffer :=
  b.put number 0 line

def after (b : Buffer) (number : Int) (line : Text.Units) : Except Fault Buffer :=
  b.put number 1 line

def enclose (b : Buffer) (g : Group) : Except Fault Buffer := do
  let b ← b.before g.start (commentLine "disable" g.rules)
  b.after g.stop (commentLine "enable" g.rules)

def announce (b : Buffer) (entry : Int × List Text.Units) : Except Fault Buffer :=
  b.before entry.1 (commentLine "disable-next-line" entry.2)

end Buffer

/-- Adds the rules of a group to those at its first line. -/
def enter : List (Int × List Text.Units) → Group → List (Int × List Text.Units)
  | [], g => [(g.start, g.rules.foldl addRule [])]
  | (start, rules) :: rest, g =>
    if start = g.start then (start, g.rules.foldl addRule rules) :: rest
    else (start, rules) :: enter rest g

namespace Plan

def merged (plan : Plan) : List (Int × List Text.Units) := plan.foldl enter []

/-- The lines with the comments of a plan put into them. -/
def insertInto (plan : Plan) (style : Style) (lines : List Text.Units) :
    Except Fault (List Text.Units) := do
  let b := Buffer.ofLines lines
  let b ← match style with
    | .block => plan.foldlM Buffer.enclose b
    | .nextLine => plan.merged.foldlM Buffer.announce b
  return b.lines

end Plan

section merging

theorem enter_eq_gather (entries : List (Int × List Text.Units)) (g : Group) :
    enter entries g = gather entries (g.start, g.rules) := by
  induction entries with
  | nil => rfl
  | cons entry rest ih => rw [enter, gather, ih]

theorem tableOf_starts (plan : Plan) :
    tableOf (plan.map fun g => (g.start, g.rules)) = plan.byStart := by
  simp only [tableOf, rulesUnder, List.map_map, List.filter_map, List.flatMap_map]
  rfl

theorem merged_eq_byStart (plan : Plan) : plan.merged = plan.byStart := by
  rw [Plan.merged, funext fun entries => funext (enter_eq_gather entries), ← tableOf_starts,
    ← foldl_gather, List.foldl_map]

end merging

/-- The indices of the lines of a text among those of its slots. -/
def placesOf : List Slot → List Nat
  | [] => []
  | s :: rest => s.above.length :: (placesOf rest).map (s.lines.length + ·)

def Buffer.ofPage (p : Page) : Buffer := ⟨p.lines, placesOf p.slots⟩

section inserting

open Buffer

variable {slots : List Slot} {c : Comment} {put : Comment → Slot → Slot} {behind i place : Nat}

theorem insertIdx_append_left {α : Type} {l l' : List α} {a : α} (hi : i ≤ l.length) :
    (l ++ l').insertIdx i a = l.insertIdx i a ++ l' := by
  induction l generalizing i with
  | nil =>
    obtain rfl : i = 0 := Nat.le_zero.mp hi
    rfl
  | cons b l ih =>
    cases i with
    | zero => rfl
    | succ i =>
      rw [List.cons_append, List.insertIdx_succ_cons, List.insertIdx_succ_cons, List.cons_append,
        ih (Nat.le_of_succ_le_succ hi)]

theorem length_placesOf (slots : List Slot) : (placesOf slots).length = slots.length := by
  induction slots with
  | nil => rfl
  | cons s rest ih => rw [placesOf, List.length_cons, List.length_map, ih, List.length_cons]

theorem above_lt_lines (s : Slot) : s.above.length < s.lines.length := by
  rw [Slot.lines, List.length_append, List.length_map, List.length_cons]
  omega

theorem lt_of_mem_placesOf (hplace : place ∈ placesOf slots) :
    place < (slots.flatMap Slot.lines).length := by
  induction slots generalizing place with
  | nil => cases hplace
  | cons s rest ih =>
    have habove := above_lt_lines s
    rw [List.flatMap_cons, List.length_append]
    rw [placesOf, List.mem_cons, List.mem_map] at hplace
    rcases hplace with rfl | ⟨k, hk, rfl⟩
    · omega
    · have hlt := ih hk
      omega

/-- Says of a way to add a comment to a slot that it puts the comment directly before the line or
directly behind it. -/
structure Puts (put : Comment → Slot → Slot) (behind : Nat) : Prop where
  near : behind ≤ 1
  lines : ∀ c s, (put c s).lines = s.lines.insertIdx (s.above.length + behind) c.text
  above : ∀ c s, (put c s).above.length = shifted (s.above.length + behind) s.above.length

theorem puts_addAbove : Puts Slot.addAbove 0 where
  near := Nat.zero_le 1
  lines c s := by
    have hline := List.modifyTailIdx_add (List.cons c.text) 0 (s.above.map Comment.text)
      (s.line :: s.below.map Comment.text)
    rw [List.length_map] at hline
    exact (by simp [Slot.lines, Slot.addAbove] : _ = _).trans hline.symm
  above c s := by simp [Slot.addAbove, shifted]

theorem puts_addBelow : Puts Slot.addBelow 1 where
  near := Nat.le_refl 1
  lines c s := by
    have hline := List.modifyTailIdx_add (List.cons c.text) 1 (s.above.map Comment.text)
      (s.line :: s.below.map Comment.text)
    rw [List.length_map] at hline
    exact hline.symm
  above c s := by simp [Slot.addBelow, shifted]

/-- The comment goes next to its line, and the lines from there on move by one. -/
theorem modify_slots (hput : Puts put behind) (hi : i < slots.length) :
    ∃ place, (placesOf slots)[i]? = some place ∧ place < (slots.flatMap Slot.lines).length ∧
      (slots.modify i (put c)).flatMap Slot.lines =
        (slots.flatMap Slot.lines).insertIdx (place + behind) c.text ∧
      placesOf (slots.modify i (put c)) = (placesOf slots).map (shifted (place + behind)) := by
  induction slots generalizing i with
  | nil => cases hi
  | cons s rest ih =>
    have habove := above_lt_lines s
    have hnear := hput.near
    rw [List.flatMap_cons, List.length_append, placesOf]
    cases i with
    | zero =>
      have hle : s.above.length + behind ≤ s.lines.length := by omega
      refine ⟨s.above.length, rfl, by omega, ?_, ?_⟩
      · rw [List.modify_zero_cons, List.flatMap_cons, hput.lines, insertIdx_append_left hle]
      · rw [List.modify_zero_cons, placesOf, List.map_cons, hput.above, List.map_map]
        refine congrArg _ (List.map_congr_left fun k _ => ?_)
        rw [hput.lines, List.length_insertIdx_of_le_length hle, Function.comp_apply, shifted,
          if_pos (by omega)]
        omega
    | succ i =>
      obtain ⟨place, hplace, hlt, hlines, hplaces⟩ := ih (Nat.lt_of_succ_lt_succ hi)
      refine ⟨s.lines.length + place, ?_, by omega, ?_, ?_⟩
      · rw [List.getElem?_cons_succ, List.getElem?_map, hplace]
        rfl
      · rw [List.modify_succ_cons, List.flatMap_cons, hlines, Nat.add_assoc]
        exact (List.modifyTailIdx_add _ _ _ _).symm
      · have hbefore : shifted (s.lines.length + place + behind) s.above.length = s.above.length :=
          if_neg (by omega)
        have hafter : (fun k => s.lines.length + k) ∘ shifted (place + behind) =
            shifted (s.lines.length + place + behind) ∘ fun k => s.lines.length + k := by
          funext k
          simp only [Function.comp_apply, shifted]
          split <;> split <;> omega
        rw [List.modify_succ_cons, placesOf, hplaces, List.map_cons, hbefore, List.map_map,
          List.map_map, hafter]

/-- Adding a comment to a page and putting it into the lines of the page come to the same. -/
theorem put_ofPage (hput : Puts put behind) (p : Page) (number : Int) (c : Comment) :
    (ofPage p).put number behind c.text = (p.add number c put).map ofPage := by
  rw [Buffer.put, indexOf, Page.add, ofPage, length_placesOf]
  by_cases hpast : p.slots.length < number
  · have hstay : ∀ place ∈ placesOf p.slots, place = shifted p.lines.length place := by
      intro place hplace
      have hlt := lt_of_mem_placesOf hplace
      rw [shifted, if_neg]
      rw [Page.lines, List.length_append]
      omega
    rw [if_neg (by omega), if_pos hpast]
    have hlines : (Page.mk p.slots (p.tail ++ [c])).lines = p.lines ++ [c.text] := by
      rw [Page.lines, Page.lines, List.map_append, List.append_assoc]
      rfl
    have hplaces : (placesOf p.slots).map (shifted p.lines.length) = placesOf p.slots :=
      (List.map_congr_left hstay).symm.trans (List.map_id _)
    rw [Except.map, Except.map, insertAt, List.insertIdx_length_self, ofPage, hlines, hplaces]
  rw [if_pos (by omega), if_neg hpast]
  by_cases hempty : p.slots = []
  · rw [hempty]
    rfl
  · have hi : (max number 1 - 1).toNat < p.slots.length := by
      have hpos := List.length_pos_iff.mpr hempty
      omega
    obtain ⟨place, hplace, hlt, hlines, hplaces⟩ := modify_slots (c := c) hput hi
    have hnear := hput.near
    have hsame : (number - 1).toNat = (max number 1 - 1).toNat := by omega
    rw [hplace, if_neg (by simpa using hempty), hsame]
    rw [Except.map, Except.map, insertAt, ofPage, hplaces, Page.lines, Page.lines, hlines,
      insertIdx_append_left (by omega)]

theorem enclose_ofPage (p : Page) (g : Group) :
    (ofPage p).enclose g = (p.enclose g).map ofPage := by
  have habove := put_ofPage puts_addAbove p g.start ⟨.disable, g.rules⟩
  rw [Buffer.enclose, Page.enclose, before, Page.addAbove]
  rw [show commentLine "disable" g.rules = Comment.text ⟨.disable, g.rules⟩ from rfl, habove]
  cases p.add g.start ⟨.disable, g.rules⟩ Slot.addAbove with
  | error fault => rfl
  | ok p => exact put_ofPage puts_addBelow p g.stop ⟨.enable, g.rules⟩

theorem announce_ofPage (p : Page) (entry : Int × List Text.Units) :
    (ofPage p).announce entry = (p.announce entry).map ofPage :=
  put_ofPage puts_addAbove p entry.1 ⟨.disableNextLine, entry.2⟩

theorem ofPage_ofLines (lines : List Text.Units) :
    ofPage (Page.ofLines lines) = ofLines lines := by
  have hlines : (Page.ofLines lines).lines = lines := by
    simp [Page.ofLines, Page.lines, List.flatMap_map, Slot.lines, Slot.bare]
  have hplaces : placesOf (lines.map Slot.bare) = List.range lines.length := by
    clear hlines
    induction lines with
    | nil => rfl
    | cons line rest ih =>
      rw [List.map_cons, placesOf, ih, List.length_cons, List.range_succ_eq_map]
      simp [Slot.bare, Slot.lines, Nat.add_comm]
  rw [ofPage, hlines, Page.ofLines, hplaces, ofLines]

theorem foldlM_ofPage {α : Type} {onBuffer : Buffer → α → Except Fault Buffer}
    {onPage : Page → α → Except Fault Page}
    (hstep : ∀ p a, onBuffer (ofPage p) a = (onPage p a).map ofPage) (steps : List α) (p : Page) :
    steps.foldlM onBuffer (ofPage p) = (steps.foldlM onPage p).map ofPage := by
  induction steps generalizing p with
  | nil => rfl
  | cons a rest ih =>
    rw [List.foldlM_cons, List.foldlM_cons, hstep]
    cases onPage p a with
    | error fault => rfl
    | ok p => exact ih p

end inserting

/-- Putting the comments of a plan into the lines one by one gives the lines of its page, and fails
where that does. -/
theorem insertInto_eq_apply (plan : Plan) (style : Style) (lines : List Text.Units) :
    plan.insertInto style lines = plan.apply style lines := by
  cases style with
  | block =>
    rw [Plan.insertInto, Plan.apply, ← ofPage_ofLines]
    simp only [foldlM_ofPage enclose_ofPage]
    cases plan.foldlM Page.enclose (Page.ofLines lines) <;> rfl
  | nextLine =>
    rw [Plan.insertInto, Plan.apply, merged_eq_byStart, ← ofPage_ofLines]
    simp only [foldlM_ofPage announce_ofPage]
    cases plan.byStart.foldlM Page.announce (Page.ofLines lines) <;> rfl

end LintDebt.Suppression
