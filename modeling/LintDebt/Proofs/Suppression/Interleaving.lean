import LintDebt.Proofs.Except
import LintDebt.Proofs.Suppression.Silencing

/-! # Lines that stay between comments

A page has the lines of its text in their order, and in between the comments that were put on it: to
put one more comment on it adds that comment somewhere and changes nothing else. So the lines with the
comments of a plan are an interleaving of the lines without them and the plan's comments, each of
which is there once (`interleaving_of_apply`). -/

namespace LintDebt.Suppression

/-- Holds for a list that is made of the elements of two lists, those of each in their order. -/
inductive Interleaving {α : Type} : (own added all : List α) → Prop where
  | nil : Interleaving [] [] []
  | own (a : α) {own added all : List α} (h : Interleaving own added all) :
    Interleaving (a :: own) added (a :: all)
  | added (a : α) {own added all : List α} (h : Interleaving own added all) :
    Interleaving own (a :: added) (a :: all)

namespace Interleaving

variable {α β : Type} {own added all own' added' all' : List α}

theorem of_added : ∀ l : List α, Interleaving [] l l
  | [] => .nil
  | a :: l => .added a (of_added l)

theorem append (h : Interleaving own added all) (h' : Interleaving own' added' all') :
    Interleaving (own ++ own') (added ++ added') (all ++ all') := by
  induction h with
  | nil => exact h'
  | own a _ ih => exact .own a ih
  | added a _ ih => exact .added a ih

theorem map (f : α → β) (h : Interleaving own added all) :
    Interleaving (own.map f) (added.map f) (all.map f) := by
  induction h with
  | nil => exact .nil
  | own a _ ih => exact .own (f a) ih
  | added a _ ih => exact .added (f a) ih

theorem perm (h : Interleaving own added all) : all.Perm (own ++ added) := by
  induction h with
  | nil => exact .nil
  | own a _ ih => exact ih.cons a
  | added a _ ih => exact (ih.cons a).trans List.perm_middle.symm

theorem sublist (h : Interleaving own added all) : own.Sublist all := by
  induction h with
  | nil => exact .slnil
  | own a _ ih => exact ih.cons_cons a
  | added a _ ih => exact ih.cons a

end Interleaving

def Slot.comments (s : Slot) : List Comment := s.above ++ s.below

/-- The comments on a page, from the top down. -/
def Page.comments (p : Page) : List Comment := p.slots.flatMap Slot.comments ++ p.tail

/-- The comments that a plan adds to a text. -/
def Plan.comments (plan : Plan) : Style → List Comment
  | .block => plan.flatMap fun g => [g.opening, g.closing]
  | .nextLine => plan.byStart.map announcement

variable {p p' : Page} {put : Comment → Slot → Slot} {slots : List Slot} {c : Comment} {i : Nat}
  {plan : Plan} {style : Style} {lines updated : List Text.Units}

theorem interleaving_lines (p : Page) :
    Interleaving (p.slots.map Slot.line) (p.comments.map Comment.text) p.lines := by
  have hslots : ∀ slots : List Slot, Interleaving (slots.map Slot.line)
      ((slots.flatMap Slot.comments).map Comment.text) (slots.flatMap Slot.lines) := by
    intro slots
    induction slots with
    | nil => exact .nil
    | cons s rest ih =>
      have hslot : Interleaving [s.line] (s.comments.map Comment.text) s.lines := by
        rw [Slot.comments, List.map_append, Slot.lines]
        exact (Interleaving.of_added _).append (.own s.line (.of_added _))
      rw [List.flatMap_cons, List.flatMap_cons, List.map_append]
      exact hslot.append ih
  have hpage := (hslots p.slots).append (Interleaving.of_added (p.tail.map Comment.text))
  rwa [List.append_nil, ← List.map_append] at hpage

/-- Says of a way to add a comment to a slot that it does that and nothing else. -/
structure Adds (put : Comment → Slot → Slot) : Prop where
  line : ∀ c s, (put c s).line = s.line
  comments : ∀ c s, (put c s).comments.Perm (c :: s.comments)

theorem adds_addAbove : Adds Slot.addAbove where
  line _ _ := rfl
  comments c s := by
    rw [Slot.comments, Slot.comments, Slot.addAbove, List.append_assoc]
    exact List.perm_middle

theorem adds_addBelow : Adds Slot.addBelow where
  line _ _ := rfl
  comments _ _ := List.perm_middle

theorem Adds.modify (hput : Adds put) (hi : i < slots.length) :
    (slots.modify i (put c)).map Slot.line = slots.map Slot.line ∧
      ((slots.modify i (put c)).flatMap Slot.comments).Perm (c :: slots.flatMap Slot.comments) := by
  induction slots generalizing i with
  | nil => cases hi
  | cons s rest ih =>
    cases i with
    | zero =>
      rw [List.modify_zero_cons, List.map_cons, List.map_cons, hput.line, List.flatMap_cons,
        List.flatMap_cons]
      exact ⟨rfl, (hput.comments c s).append_right _⟩
    | succ i =>
      obtain ⟨hline, hcomments⟩ := ih (Nat.lt_of_succ_lt_succ hi)
      rw [List.modify_succ_cons, List.map_cons, List.map_cons, hline, List.flatMap_cons,
        List.flatMap_cons]
      exact ⟨rfl, (hcomments.append_left _).trans List.perm_middle⟩

/-- Holds for pages of which the second is the first with these comments put on it. -/
structure Grown (p p' : Page) (added : List Comment) : Prop where
  lines : p'.slots.map Slot.line = p.slots.map Slot.line
  comments : p'.comments.Perm (added ++ p.comments)

theorem Grown.refl (p : Page) : Grown p p [] := ⟨rfl, .refl _⟩

theorem Grown.trans {p'' : Page} {added added' : List Comment} (h : Grown p p' added)
    (h' : Grown p' p'' added') : Grown p p'' (added ++ added') := by
  refine ⟨h'.lines.trans h.lines, h'.comments.trans ((h.comments.append_left added').trans ?_)⟩
  rw [← List.append_assoc]
  exact List.perm_append_comm.append_right _

/-- One step puts one comment on a page. -/
theorem Adds.grown (hput : Adds put) {number : Int} (h : p.add number c put = .ok p') :
    Grown p p' [c] := by
  rw [Page.add] at h
  split at h
  · cases h
    refine ⟨rfl, ?_⟩
    rw [Page.comments, ← List.append_assoc]
    exact List.perm_append_comm
  next hnot =>
  split at h
  · cases h
  next hempty =>
  cases h
  have hi : (number - 1).toNat < p.slots.length := by
    have hpos := List.length_pos_iff.mpr (fun hnil => hempty (List.isEmpty_iff.mpr hnil))
    omega
  obtain ⟨hline, hcomments⟩ := hput.modify (c := c) hi
  exact ⟨hline, hcomments.append_right _⟩

theorem grown_of_enclose {g : Group} (h : p.enclose g = .ok p') :
    Grown p p' [g.opening, g.closing] := by
  obtain ⟨p₁, h₁, h₂⟩ := bind_eq_ok.mp h
  exact (adds_addAbove.grown h₁).trans (adds_addBelow.grown h₂)

theorem grown_of_announce {entry : Int × List Text.Units} (h : p.announce entry = .ok p') :
    Grown p p' [announcement entry] :=
  adds_addAbove.grown h

/-- All steps together put the comments of all of them on a page. -/
theorem grown_of_foldlM {α : Type} (step : Page → α → Except Fault Page)
    {commentsOf : α → List Comment}
    (hstep : ∀ p a p', step p a = .ok p' → Grown p p' (commentsOf a)) {steps : List α}
    (h : steps.foldlM step p = .ok p') : Grown p p' (steps.flatMap commentsOf) := by
  induction steps generalizing p with
  | nil =>
    cases h
    exact .refl _
  | cons a rest ih =>
    rw [List.foldlM_cons] at h
    obtain ⟨p₁, h₁, h⟩ := bind_eq_ok.mp h
    exact (hstep p a p₁ h₁).trans (ih h)

theorem grown_page {page : Page} (h : plan.page style lines = .ok page) :
    Grown (Page.ofLines lines) page (plan.comments style) := by
  cases style with
  | block =>
    rw [Plan.page] at h
    exact grown_of_foldlM Page.enclose (fun _ _ _ => grown_of_enclose) h
  | nextLine =>
    rw [Plan.page] at h
    rw [Plan.comments, ← List.flatMap_singleton' (plan.byStart.map announcement), List.flatMap_map]
    exact grown_of_foldlM Page.announce (fun _ _ _ => grown_of_announce) h

/-- The lines with the comments of a plan are the lines as they were, in their order, and between them
each of the plan's comments once. -/
theorem interleaving_of_apply (h : plan.apply style lines = .ok updated) :
    ∃ comments : List Comment, comments.Perm (plan.comments style) ∧
      Interleaving lines (comments.map Comment.text) updated := by
  rw [apply_eq_page, map_eq_ok] at h
  obtain ⟨page, hpage, rfl⟩ := h
  obtain ⟨hlines, hcomments⟩ := grown_page hpage
  have hbare : (Page.ofLines lines).comments = [] := by
    simp [Page.ofLines, Page.comments, List.flatMap_map, Slot.comments, Slot.bare]
  rw [hbare, List.append_nil] at hcomments
  refine ⟨page.comments, hcomments, ?_⟩
  have hown : (Page.ofLines lines).slots.map Slot.line = lines := by
    rw [Page.ofLines, List.map_map]
    exact List.map_id lines
  rw [← hown, ← hlines]
  exact interleaving_lines page

end LintDebt.Suppression
