import LintDebt.Suppression.Page

/-! # Where comments stand

Block comments enclose their groups wherever the other groups are: above a line stand the comments
that open there, in the order of the plan, and below it those that close there, the other way round
(`foldlM_enclose`). A page is read from the top as marks, which are comments and numbered lines, and
a rule is concerned by the comments that name it. -/

namespace LintDebt.Suppression

def Group.opening (g : Group) : Comment := ⟨.disable, g.rules⟩

def Group.closing (g : Group) : Comment := ⟨.enable, g.rules⟩

/-- The line that a line number means on a page that has lines. -/
def lineOf (line : Int) : Nat := (max line 1).toNat

namespace Page

/-- The line with this number and the block comments of a plan around it. -/
def slotAt (plan : Plan) (line : Text.Units) (i : Nat) : Slot where
  above := (plan.filter (lineOf ·.start = i)).map Group.opening
  line
  below := ((plan.filter (lineOf ·.stop = i)).map Group.closing).reverse

/-- The comments of a group that go to the end of a page with so many lines. -/
def pastEnd (length : Nat) (g : Group) : List Comment :=
  (if length < g.start then [g.opening] else []) ++ (if length < g.stop then [g.closing] else [])

/-- A page whose slots are given by their lines and numbers. -/
def build (slotOf : Text.Units → Nat → Slot) (lines : List Text.Units) (tail : List Comment) : Page :=
  ⟨(lines.zipIdx 1).map fun p => slotOf p.1 p.2, tail⟩

/-- The page of a text with the block comments of a plan. -/
def around (plan : Plan) (lines : List Text.Units) : Page :=
  build (slotAt plan) lines (plan.flatMap (pastEnd lines.length))

end Page

open Page

variable {plan : Plan} {lines : List Text.Units} {g : Group} {i : Nat} {line : Text.Units}

theorem around_nil : around [] lines = ofLines lines := by
  rw [ofLines]
  conv => rhs; rw [← List.zipIdx_map_fst 1 lines, List.map_map]
  rfl

theorem slotAt_concat : slotAt (plan ++ [g]) line i =
    let s := if lineOf g.start = i then (slotAt plan line i).addAbove g.opening
      else slotAt plan line i
    if lineOf g.stop = i then s.addBelow g.closing else s := by
  simp only [slotAt, List.filter_append, List.map_append, List.reverse_append]
  by_cases hstart : lineOf g.start = i <;> by_cases hstop : lineOf g.stop = i <;>
    simp [hstart, hstop, Slot.addAbove, Slot.addBelow]

/-- A comment goes to the slot with its number, or past all of them. -/
theorem add_build {slotOf : Text.Units → Nat → Slot} {tail : List Comment} {number : Int}
    {c : Comment} {put : Comment → Slot → Slot} (hlines : lines ≠ []) :
    (build slotOf lines tail).add number c put = .ok (build (fun line i =>
        if lineOf number = i then put c (slotOf line i) else slotOf line i) lines
      (tail ++ if lines.length < number then [c] else [])) := by
  have hlength : (build slotOf lines tail).slots.length = lines.length := by simp [build]
  rw [add, hlength]
  by_cases hpast : (lines.length : Int) < number
  · have hslots : (lines.zipIdx 1).map (fun p => slotOf p.1 p.2) = (lines.zipIdx 1).map fun p =>
        if lineOf number = p.2 then put c (slotOf p.1 p.2) else slotOf p.1 p.2 := by
      refine List.map_congr_left fun p hp => ?_
      have hlt := List.snd_lt_of_mem_zipIdx hp
      have hne : lineOf number ≠ p.2 := by
        rw [lineOf]
        omega
      rw [if_neg hne]
    rw [if_pos hpast, if_pos hpast, build, build, hslots]
  have hempty : (build slotOf lines tail).slots.isEmpty = false := by
    cases lines with
    | nil => exact absurd rfl hlines
    | cons line rest => rfl
  rw [if_neg hpast, if_neg hpast, hempty, List.append_nil]
  refine congrArg (fun slots => Except.ok (Page.mk slots tail)) (List.ext_getElem? fun k => ?_)
  rw [List.getElem?_modify]
  simp only [build, List.getElem?_map, List.getElem?_zipIdx, Option.map_map]
  cases lines[k]? with
  | none => rfl
  | some line =>
    have hk : (number - 1).toNat = k ↔ lineOf number = 1 + k := by
      rw [lineOf]
      omega
    simp only [Option.map_some, Function.comp_apply, hk]
    split <;> rfl

theorem enclose_around (hlines : lines ≠ []) (plan : Plan) (g : Group) :
    (around plan lines).enclose g = .ok (around (plan ++ [g]) lines) := by
  have hslots : slotAt (plan ++ [g]) = fun line i =>
      if lineOf g.stop = i then
        (if lineOf g.start = i then (slotAt plan line i).addAbove g.opening
          else slotAt plan line i).addBelow g.closing
      else if lineOf g.start = i then (slotAt plan line i).addAbove g.opening
        else slotAt plan line i :=
    funext fun line => funext fun i => slotAt_concat
  have htail : (plan ++ [g]).flatMap (pastEnd lines.length) =
      plan.flatMap (pastEnd lines.length) ++ (if lines.length < g.start then [g.opening] else []) ++
        (if lines.length < g.stop then [g.closing] else []) := by
    simp [pastEnd]
  rw [enclose, addAbove, around, around, hslots, htail, add_build hlines]
  exact add_build hlines

theorem foldlM_enclose_around (hlines : lines ≠ []) (rest done : Plan) :
    rest.foldlM enclose (around done lines) = .ok (around (done ++ rest) lines) := by
  induction rest generalizing done with
  | nil => rw [List.append_nil]; rfl
  | cons g rest ih =>
    rw [List.foldlM_cons, enclose_around hlines, List.append_cons done g rest]
    exact ih (done ++ [g])

theorem foldlM_enclose (hlines : lines ≠ []) (plan : Plan) :
    plan.foldlM enclose (ofLines lines) = .ok (around plan lines) := by
  rw [← around_nil]
  exact foldlM_enclose_around hlines plan []

/-- What a page is read as: comments, and lines with their numbers. -/
inductive Mark where
  | comment (c : Comment)
  | line (text : Text.Units) (number : Nat)
  deriving DecidableEq, Repr

namespace Mark

def text : Mark → Text.Units
  | .comment c => c.text
  | .line text _ => text

def line? : Mark → Option (Text.Units × Nat)
  | .comment _ => none
  | .line text number => some (text, number)

def command? (r : Text.Units) : Mark → Option Command
  | .comment c => if r ∈ c.rules then some c.command else none
  | .line _ _ => none

end Mark

/-- The commands for a rule, from the top down. -/
def commandsFor (r : Text.Units) (marks : List Mark) : List Command :=
  marks.filterMap (Mark.command? r)

/-- What stands above a line. -/
def marksAbove (number : Nat) (marks : List Mark) : List Mark :=
  marks.takeWhile fun m => (m.line?.map Prod.snd) ≠ some number

def Slot.marks (s : Slot) (number : Nat) : List Mark :=
  s.above.map .comment ++ .line s.line number :: s.below.map .comment

/-- A page read from the top, its lines counted from one. -/
def Page.marks (p : Page) : List Mark :=
  (p.slots.zipIdx 1).flatMap (fun s => s.1.marks s.2) ++ p.tail.map .comment

theorem map_text_marks (p : Page) : p.marks.map Mark.text = p.lines := by
  have hslots : ∀ (slots : List Slot) k, ((slots.zipIdx k).flatMap fun s => s.1.marks s.2).map Mark.text =
      slots.flatMap Slot.lines := by
    intro slots
    induction slots with
    | nil => exact fun _ => rfl
    | cons s rest ih =>
      intro k
      rw [List.zipIdx_cons, List.flatMap_cons, List.map_append, ih, List.flatMap_cons]
      simp [Slot.marks, Slot.lines, Mark.text, Function.comp_def]
  rw [Page.marks, Page.lines, List.map_append, hslots, List.map_map]
  rfl

theorem line?_marks (p : Page) :
    p.marks.filterMap Mark.line? = (p.slots.map Slot.line).zipIdx 1 := by
  have hcomments : ∀ cs : List Comment, (cs.map Mark.comment).filterMap Mark.line? = [] := by
    intro cs
    rw [List.filterMap_map, List.filterMap_eq_nil_iff]
    exact fun _ _ => rfl
  have hslots : ∀ (slots : List Slot) k,
      ((slots.zipIdx k).flatMap fun s => s.1.marks s.2).filterMap Mark.line? =
        (slots.map Slot.line).zipIdx k := by
    intro slots
    induction slots with
    | nil => exact fun _ => rfl
    | cons s rest ih =>
      intro k
      rw [List.zipIdx_cons, List.flatMap_cons, List.filterMap_append, ih, Slot.marks,
        List.filterMap_append, hcomments, List.filterMap_cons_some (f := Mark.line?) rfl, hcomments]
      rfl
  rw [Page.marks, List.filterMap_append, hslots, hcomments, List.append_nil]

theorem lines_build {slotOf : Text.Units → Nat → Slot} {tail : List Comment}
    (hline : ∀ line i, (slotOf line i).line = line) :
    (build slotOf lines tail).slots.map Slot.line = lines := by
  rw [build, List.map_map]
  simp only [Function.comp_def, hline]
  exact List.zipIdx_map_fst 1 lines

theorem lines_around : (around plan lines).slots.map Slot.line = lines :=
  lines_build fun _ _ => rfl

theorem marks_build {slotOf : Text.Units → Nat → Slot} {tail : List Comment} :
    (build slotOf lines tail).marks =
      ((lines.zipIdx 1).flatMap fun p => (slotOf p.1 p.2).marks p.2) ++ tail.map .comment := by
  have hslots : ∀ (lines : List Text.Units) k,
      ((((lines.zipIdx k).map fun p => slotOf p.1 p.2).zipIdx k).flatMap fun s => s.1.marks s.2) =
        (lines.zipIdx k).flatMap fun p => (slotOf p.1 p.2).marks p.2 := by
    intro lines
    induction lines with
    | nil => exact fun _ => rfl
    | cons line rest ih =>
      intro k
      simp only [List.zipIdx_cons, List.map_cons, List.flatMap_cons, ih]
  rw [Page.marks, build, hslots]

theorem marks_around : (around plan lines).marks =
    ((lines.zipIdx 1).flatMap fun p => (slotAt plan p.1 p.2).marks p.2) ++
      (plan.flatMap (pastEnd lines.length)).map .comment :=
  marks_build

/-- Above a line stand the slots of the lines before it and its own comments. -/
theorem marksAbove_build {slotOf : Text.Units → Nat → Slot} {tail : List Comment}
    (hi : i < lines.length) :
    marksAbove (i + 1) (build slotOf lines tail).marks =
      (((lines.take i).zipIdx 1).flatMap fun p => (slotOf p.1 p.2).marks p.2) ++
        (slotOf lines[i] (i + 1)).above.map .comment := by
  have hlines : lines.zipIdx 1 = (lines.take i).zipIdx 1 ++ (lines[i], i + 1) ::
      (lines.drop (i + 1)).zipIdx (i + 2) := by
    conv => lhs; rw [← List.take_append_drop i lines, List.drop_eq_getElem_cons hi]
    rw [List.zipIdx_append, List.zipIdx_cons, List.length_take, Nat.min_eq_left (Nat.le_of_lt hi),
      Nat.add_comm 1 i]
  have habove : ∀ cs : List Comment, ∀ m ∈ cs.map Mark.comment,
      decide ((m.line?.map Prod.snd) ≠ some (i + 1)) = true := by
    rintro cs m hm
    obtain ⟨c, -, rfl⟩ := List.mem_map.mp hm
    rfl
  have hbefore : ∀ m ∈ ((lines.take i).zipIdx 1).flatMap fun p => (slotOf p.1 p.2).marks p.2,
      decide ((m.line?.map Prod.snd) ≠ some (i + 1)) = true := by
    intro m hm
    obtain ⟨p, hp, hm⟩ := List.mem_flatMap.mp hm
    have hlt := List.snd_lt_of_mem_zipIdx hp
    rw [List.length_take] at hlt
    rw [Slot.marks, List.mem_append, List.mem_cons] at hm
    rcases hm with hm | rfl | hm
    · exact habove _ m hm
    · rw [decide_eq_true_eq]
      simp only [Mark.line?, Option.map_some, ne_eq, Option.some.injEq]
      omega
    · exact habove _ m hm
  rw [marksAbove, marks_build, hlines, List.flatMap_append, List.flatMap_cons, Slot.marks,
    List.append_assoc, List.append_assoc, List.append_assoc, List.takeWhile_append_of_pos hbefore,
    List.takeWhile_append_of_pos (habove _), List.cons_append,
    List.takeWhile_cons_of_neg (by simp [Mark.line?]), List.append_nil]

variable {r : Text.Units}

def Plan.naming (plan : Plan) (r : Text.Units) : List Group := plan.filter fun g => r ∈ g.rules

theorem mem_naming : g ∈ plan.naming r ↔ g ∈ plan ∧ r ∈ g.rules := by
  rw [Plan.naming, List.mem_filter, decide_eq_true_eq]

theorem naming_cons_of_mem (h : r ∈ g.rules) :
    Plan.naming (g :: plan) r = g :: Plan.naming plan r :=
  List.filter_cons_of_pos (by rwa [decide_eq_true_eq])

theorem naming_cons_of_not_mem (h : r ∉ g.rules) :
    Plan.naming (g :: plan) r = Plan.naming plan r :=
  List.filter_cons_of_neg (by rwa [decide_eq_true_eq])

def opensAt (groups : List Group) (i : Nat) : Nat := groups.countP (lineOf ·.start = i)

def closesAt (groups : List Group) (i : Nat) : Nat := groups.countP (lineOf ·.stop = i)

/-- The commands at a line for a rule that these groups name. -/
def commandsAt (groups : List Group) (i : Nat) : List Command :=
  List.replicate (opensAt groups i) .disable ++ List.replicate (closesAt groups i) .enable

theorem commandsFor_append (marks marks' : List Mark) :
    commandsFor r (marks ++ marks') = commandsFor r marks ++ commandsFor r marks' :=
  List.filterMap_append

theorem commandsFor_comment (c : Comment) (marks : List Mark) :
    commandsFor r (.comment c :: marks) =
      (if r ∈ c.rules then [c.command] else []) ++ commandsFor r marks := by
  by_cases hr : r ∈ c.rules <;> simp [commandsFor, Mark.command?, hr]

theorem commandsFor_groups (commentOf : Group → Comment) (command : Command)
    (hcomment : ∀ g, commentOf g = ⟨command, g.rules⟩) (p : Group → Bool) (plan : Plan) :
    commandsFor r (((plan.filter p).map commentOf).map .comment) =
      List.replicate ((plan.naming r).countP p) command := by
  induction plan with
  | nil => rfl
  | cons g rest ih =>
    by_cases hp : p g = true
    · rw [List.filter_cons_of_pos hp, List.map_cons, List.map_cons, hcomment, commandsFor_comment,
        ih]
      by_cases hr : r ∈ g.rules
      · rw [if_pos hr, naming_cons_of_mem hr, List.countP_cons_of_pos hp, List.replicate_succ]
        rfl
      · rw [if_neg hr, naming_cons_of_not_mem hr, List.nil_append]
    · rw [List.filter_cons_of_neg hp, ih]
      by_cases hr : r ∈ g.rules
      · rw [naming_cons_of_mem hr, List.countP_cons_of_neg hp]
      · rw [naming_cons_of_not_mem hr]

theorem commandsFor_above : commandsFor r ((slotAt plan line i).above.map .comment) =
    List.replicate (opensAt (plan.naming r) i) .disable :=
  commandsFor_groups Group.opening .disable (fun _ => rfl) (lineOf ·.start = i) plan

theorem commandsFor_slot : commandsFor r ((slotAt plan line i).marks i) =
    commandsAt (plan.naming r) i := by
  have hbelow : commandsFor r ((slotAt plan line i).below.map .comment) =
      List.replicate (closesAt (plan.naming r) i) .enable := by
    have h := commandsFor_groups (r := r) Group.closing .enable (fun _ => rfl) (lineOf ·.stop = i) plan
    rw [commandsFor] at h ⊢
    rw [slotAt, List.map_reverse, List.filterMap_reverse, h, List.reverse_replicate, closesAt]
  rw [Slot.marks, commandsFor_append, commandsFor_above, commandsAt, ← hbelow]
  rfl

theorem commandsFor_lines (lines : List Text.Units) (k : Nat) :
    commandsFor r ((lines.zipIdx k).flatMap fun p => (slotAt plan p.1 p.2).marks p.2) =
      (List.range' k lines.length).flatMap (commandsAt (plan.naming r)) := by
  induction lines generalizing k with
  | nil => rfl
  | cons line rest ih =>
    rw [List.zipIdx_cons, List.flatMap_cons, commandsFor_append, commandsFor_slot, ih,
      List.length_cons, List.range'_succ, List.flatMap_cons]

theorem commandsFor_marksAbove (hi : i < lines.length) :
    commandsFor r (marksAbove (i + 1) (around plan lines).marks) =
      (List.range' 1 i).flatMap (commandsAt (plan.naming r)) ++
        List.replicate (opensAt (plan.naming r) (i + 1)) .disable := by
  rw [around, marksAbove_build hi, commandsFor_append, commandsFor_lines,
    commandsFor_above, List.length_take, Nat.min_eq_left (Nat.le_of_lt hi)]

end LintDebt.Suppression
