import LintDebt.Proofs.Suppression.Buffer
import Mathlib.Data.List.Chain

/-! # Comments placed by counting

Where the groups of a plan come one after the other, no table of places is needed to put its comments
into a text. All comments put in so far stand above the next line to be annotated, so that it is
enough to count them. The table of a buffer and the count march in step (`InStep`), also where a range
goes past the end of the text and both can only append. Nothing is said here of groups that overlap:
then the count puts comments on other lines than those they were reported on. -/

namespace LintDebt.Suppression

/-- The lines so far, and how many of them were put in. -/
structure Counter where
  lines : List Text.Units
  inserted : Nat
  deriving DecidableEq, Repr

/-- The lines with one more at an index. Past the end it is appended. -/
def insertedAt (lines : List Text.Units) (index : Int) (line : Text.Units) : List Text.Units :=
  lines.take index.toNat ++ line :: lines.drop index.toNat

namespace Counter

def put (c : Counter) (index : Int) (line : Text.Units) : Counter :=
  ⟨insertedAt c.lines index line, c.inserted + 1⟩

/-- Both indices are taken from the count before the group, so that the second one allows for the
first comment. -/
def enclose (c : Counter) (g : Group) : Counter :=
  let opened := insertedAt c.lines (g.start - 1 + c.inserted) (commentLine "disable" g.rules)
  ⟨insertedAt opened (g.stop + 1 + c.inserted) (commentLine "enable" g.rules), c.inserted + 2⟩

def announce (c : Counter) (entry : Int × List Text.Units) : Counter :=
  c.put (entry.1 - 1 + c.inserted) (commentLine "disable-next-line" entry.2)

end Counter

namespace Plan

/-- The lines with the comments of a plan, placed by counting. -/
def counted (plan : Plan) (style : Style) (lines : List Text.Units) : List Text.Units :=
  match style with
  | .block => (plan.foldl Counter.enclose ⟨lines, 0⟩).lines
  | .nextLine => (plan.byStart.foldl Counter.announce ⟨lines, 0⟩).lines

/-- Holds for a plan whose groups come one after the other. In the next-line style only the lines on
which they start matter, and several may start on one line. -/
def Successive (plan : Plan) : Style → Prop
  | .block => (∀ g ∈ plan, 1 ≤ g.start ∧ g.start ≤ g.stop) ∧
    plan.IsChain fun g g' => g.stop < g'.start
  | .nextLine => (∀ g ∈ plan, 1 ≤ g.start) ∧ plan.Pairwise fun g g' => g.start ≤ g'.start

end Plan

variable {length : Nat} {first number : Int} {behind : Nat} {b : Buffer} {c : Counter}
  {line : Text.Units} {lines : List Text.Units} {g : Group} {plan : Plan} {style : Style}

theorem insertIdx_eq_insertedAt {index : Nat} (h : index ≤ lines.length) :
    lines.insertIdx index line = insertedAt lines index line := by
  have hsplit := List.modifyTailIdx_add (List.cons line) 0 (lines.take index) (lines.drop index)
  rw [List.take_append_drop, List.length_take, Nat.min_eq_left h] at hsplit
  exact hsplit

theorem insertedAt_of_le {index : Int} (h : lines.length ≤ index) :
    insertedAt lines index line = lines ++ [line] := by
  rw [insertedAt, List.take_of_length_le (by omega), List.drop_of_length_le (by omega)]

theorem length_insertedAt (lines : List Text.Units) (index : Int) (line : Text.Units) :
    (insertedAt lines index line).length = lines.length + 1 := by
  rw [insertedAt, List.length_append, List.length_cons, List.length_take, List.length_drop]
  omega

/-- Holds for a buffer and a counter with the same lines, if from the first of these numbers on every
line of the text is where the count says. The numbers count from one. -/
structure InStep (length : Nat) (first : Int) (b : Buffer) (c : Counter) : Prop where
  lines : b.lines = c.lines
  total : c.lines.length = length + c.inserted
  places : b.places.length = length
  displaced : ∀ i : Nat, i < length → first ≤ i + 1 → b.places[i]? = some (i + c.inserted)

theorem inStep_ofLines (lines : List Text.Units) :
    InStep lines.length 1 (Buffer.ofLines lines) ⟨lines, 0⟩ where
  lines := rfl
  total := rfl
  places := List.length_range
  displaced _ hi _ := List.getElem?_range hi

/-- One comment more, next to a line that the count still holds for. It holds for the lines behind the
comment then. -/
theorem InStep.put (h : InStep length first b c) (hfirst : first ≤ number) (hpos : 1 ≤ number)
    (hnear : behind ≤ 1) (line : Text.Units) : ∃ b', b.put number behind line = .ok b' ∧
      InStep length (number + behind) b' (c.put (number - 1 + behind + c.inserted) line) := by
  have hlength : b.lines.length = length + c.inserted := h.lines ▸ h.total
  have htotal : (insertedAt c.lines (number - 1 + behind + c.inserted) line).length =
      length + (c.inserted + 1) := by
    rw [length_insertedAt, h.total]
    omega
  by_cases hpast : number - 1 < length
  · have hindex : b.indexOf number behind = .ok ((number - 1).toNat + c.inserted + behind) := by
      have hplace := h.displaced (number - 1).toNat (by omega) (by omega)
      rw [Buffer.indexOf, h.places, if_pos hpast, Int.max_eq_left hpos, hplace]
    have hcount : number - 1 + behind + c.inserted =
        ((number - 1).toNat + c.inserted + behind : Nat) := by omega
    refine ⟨b.insertAt ((number - 1).toNat + c.inserted + behind) line, ?_, ?_, htotal, ?_,
      fun i hi hle => ?_⟩
    · rw [Buffer.put, hindex]
      rfl
    · rw [Counter.put, hcount, ← h.lines]
      exact insertIdx_eq_insertedAt (by omega)
    · exact (List.length_map _).trans h.places
    · rw [Buffer.insertAt, List.getElem?_map, h.displaced i hi (by omega), Option.map_some, shifted,
        if_pos (by omega)]
      rfl
  · have hindex : b.indexOf number behind = .ok b.lines.length := by
      rw [Buffer.indexOf, h.places, if_neg hpast]
    refine ⟨b.insertAt b.lines.length line, ?_, ?_, htotal, ?_, fun i hi hle => ?_⟩
    · rw [Buffer.put, hindex]
      rfl
    · rw [Counter.put, insertedAt_of_le (by rw [h.total]; omega), ← h.lines]
      exact List.insertIdx_length_self
    · exact (List.length_map _).trans h.places
    · omega

theorem InStep.announce {entry : Int × List Text.Units} (h : InStep length first b c)
    (hfirst : first ≤ entry.1) (hpos : 1 ≤ entry.1) :
    ∃ b', b.announce entry = .ok b' ∧ InStep length entry.1 b' (c.announce entry) := by
  obtain ⟨b', hb', h'⟩ := h.put hfirst hpos (Nat.zero_le 1) (commentLine "disable-next-line" entry.2)
  refine ⟨b', hb', ?_⟩
  rwa [Int.natCast_zero, Int.add_zero, Int.add_zero] at h'

theorem InStep.enclose (h : InStep length first b c) (hfirst : first ≤ g.start) (hpos : 1 ≤ g.start)
    (hle : g.start ≤ g.stop) :
    ∃ b', b.enclose g = .ok b' ∧ InStep length (g.stop + 1) b' (c.enclose g) := by
  obtain ⟨b₁, hb₁, h₁⟩ := h.put hfirst hpos (Nat.zero_le 1) (commentLine "disable" g.rules)
  have hinside : g.start + (0 : Nat) ≤ g.stop := by omega
  obtain ⟨b₂, hb₂, h₂⟩ := h₁.put hinside (by omega) (Nat.le_refl 1) (commentLine "enable" g.rules)
  refine ⟨b₂, ?_, ?_⟩
  · rw [Buffer.enclose, Buffer.before, hb₁]
    exact hb₂
  · have hopen : g.start - 1 + (0 : Nat) + c.inserted = g.start - 1 + c.inserted := by omega
    have hclose : g.stop - 1 + (1 : Nat) + (c.inserted + 1 : Nat) = g.stop + 1 + c.inserted := by omega
    simp only [Counter.put, hopen, hclose] at h₂
    exact h₂

/-- Steps that each keep a buffer and a counter in step, from `opens` to `closes`, do so one after the
other if none opens before the last one has closed. -/
theorem InStep.foldlM {α : Type} {onBuffer : Buffer → α → Except Fault Buffer}
    {onCounter : Counter → α → Counter} (opens closes : α → Int) {steps : List α}
    (hstep : ∀ a ∈ steps, ∀ first b c, InStep length first b c → first ≤ opens a →
      ∃ b', onBuffer b a = .ok b' ∧ InStep length (closes a) b' (onCounter c a))
    (hchain : steps.IsChain fun a a' => closes a ≤ opens a') (h : InStep length first b c)
    (hfirst : ∀ a ∈ steps.head?, first ≤ opens a) :
    ∃ b', steps.foldlM onBuffer b = .ok b' ∧ b'.lines = (steps.foldl onCounter c).lines := by
  induction steps generalizing first b c with
  | nil => exact ⟨b, rfl, h.lines⟩
  | cons a rest ih =>
    obtain ⟨b₁, hb₁, h₁⟩ := hstep a List.mem_cons_self first b c h (hfirst a rfl)
    rw [List.isChain_cons] at hchain
    obtain ⟨b', hb', hlines⟩ :=
      ih (fun a' ha' => hstep a' (List.mem_cons_of_mem a ha')) hchain.2 h₁ hchain.1
    refine ⟨b', ?_, hlines⟩
    rw [List.foldlM_cons, hb₁]
    exact hb'

theorem insertInto_block_eq_counted (h : plan.Successive .block) (lines : List Text.Units) :
    plan.insertInto .block lines = .ok (plan.counted .block lines) := by
  obtain ⟨hranges, hchain⟩ := h
  have hfirst : ∀ g ∈ plan.head?, 1 ≤ g.start :=
    fun g hg => (hranges g (List.mem_of_mem_head? hg)).1
  obtain ⟨b', hb', hlines⟩ := InStep.foldlM Group.start (fun g => g.stop + 1)
    (fun g hg first b c h hle => h.enclose hle (hranges g hg).1 (hranges g hg).2) hchain
    (inStep_ofLines lines) hfirst
  rw [Plan.insertInto]
  simp only [hb']
  exact congrArg Except.ok hlines

theorem insertInto_nextLine_eq_counted (h : plan.Successive .nextLine) (lines : List Text.Units) :
    plan.insertInto .nextLine lines = .ok (plan.counted .nextLine lines) := by
  obtain ⟨hpos, hsorted⟩ := h
  have hstarts : ∀ entry ∈ plan.byStart, 1 ≤ entry.1 := by
    intro entry hentry
    obtain ⟨start, hstart, rfl⟩ := List.mem_map.mp hentry
    obtain ⟨g, hg, rfl⟩ := List.mem_map.mp (List.mem_eraseDups.mp hstart)
    exact hpos g hg
  have hchain : plan.byStart.IsChain fun entry entry' => entry.1 ≤ entry'.1 := by
    refine List.Pairwise.isChain (List.pairwise_map.mpr ?_)
    exact (List.pairwise_map.mpr hsorted).sublist (eraseDups_sublist _)
  obtain ⟨b', hb', hlines⟩ := InStep.foldlM Prod.fst Prod.fst
    (fun entry hentry first b c h hle => h.announce hle (hstarts entry hentry)) hchain
    (inStep_ofLines lines) fun entry hentry => hstarts entry (List.mem_of_mem_head? hentry)
  rw [Plan.insertInto, merged_eq_byStart]
  simp only [hb']
  exact congrArg Except.ok hlines

/-- If the groups of a plan come one after the other, counting places its comments as they belong, on
a text without lines too. -/
theorem counted_of_successive (h : plan.Successive style) (lines : List Text.Units) :
    plan.apply style lines = .ok (plan.counted style lines) ∧
      plan.insertInto style lines = .ok (plan.counted style lines) := by
  have hinsert : plan.insertInto style lines = .ok (plan.counted style lines) := by
    cases style with
    | block => exact insertInto_block_eq_counted h lines
    | nextLine => exact insertInto_nextLine_eq_counted h lines
  exact ⟨(insertInto_eq_apply plan style lines).symm.trans hinsert, hinsert⟩

/-- Three groups, the second of which ends past the end of the text and the third of which starts
there. -/
theorem counted_of_successive_sample :
    let plan : Plan := [⟨1, 1, [Text.unitsOf "a"]⟩, ⟨2, 4, [Text.unitsOf "b", Text.unitsOf "a"]⟩,
      ⟨5, 9, [Text.unitsOf "a"]⟩]
    let lines := ["x", "y"].map Text.unitsOf
    plan.Successive .block ∧ (plan.apply .block lines = .ok (plan.counted .block lines) ∧
      plan.insertInto .block lines = .ok (plan.counted .block lines)) ∧
      plan.counted .block lines = ["/* stylelint-disable a */", "x", "/* stylelint-enable a */",
        "/* stylelint-disable b,a */", "y", "/* stylelint-enable b,a */",
        "/* stylelint-disable a */", "/* stylelint-enable a */"].map Text.unitsOf := by
  have h : Plan.Successive [⟨1, 1, [Text.unitsOf "a"]⟩, ⟨2, 4, [Text.unitsOf "b", Text.unitsOf "a"]⟩,
      ⟨5, 9, [Text.unitsOf "a"]⟩] .block := by
    refine ⟨by decide, ?_⟩
    simp
  exact ⟨h, counted_of_successive h _, by decide +kernel⟩

-- The comments of a range inside another one go a line too low.
example :
    let plan : Plan := [⟨1, 3, [Text.unitsOf "a"]⟩, ⟨2, 2, [Text.unitsOf "b"]⟩]
    let lines := ["x", "y", "z"].map Text.unitsOf
    plan.apply .block lines ≠ .ok (plan.counted .block lines) := by decide +kernel

end LintDebt.Suppression
