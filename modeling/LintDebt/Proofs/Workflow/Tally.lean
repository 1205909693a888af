import LintDebt.Proofs.Workflow.Elimination
import LintDebt.Proofs.Workflow.Independence

/-! # Annotations in any order

What becomes of a file that is annotated depends on its octets and its plan, so files may be annotated
in any order, and a file that no report is about may be another one. A tally is all that has to be known
of the annotations so far: the tree, and how many files were done and how many failed. -/

namespace LintDebt.Workflow

open Job FileTree Query

variable {σ : Type} {base p : Path} {style : Suppression.Style} {plan : Suppression.Plan}
  {plans : Location → Suppression.Plan} {t t' : FileTree} {l k : Location} {n : Node}
  {octets : List UInt8} {result : Except Failure Int}

/-- The octets of a file with the comments of a plan, and whether they could be added; nothing if that
ends the run. -/
def commented (style : Suppression.Style) (plan : Suppression.Plan) (octets : List UInt8) :
    Option (Bool × List UInt8) :=
  if plan = [] then some (true, octets)
  else match Utf8.decode octets with
    | .error _ => some (false, octets)
    | .ok text =>
      match plan.apply style (((Text.pieces (Text.normalize text)).map String.ofList).map
        Text.unitsOf) with
      | .error _ => none
      | .ok updated => (Utf8.encodeUnits (Text.unlines updated)).toOption.map (true, ·)

/-- What becomes of a file that can be read depends on its lines, if it has any. -/
theorem commented_eq (hread : t.read p.text = .ok octets) (hplan : plan ≠ []) :
    commented style plan octets = match TextFile.pieces t p with
      | .error _ => some (false, octets)
      | .ok lines =>
        match plan.apply style (lines.map Text.unitsOf) with
        | .error _ => none
        | .ok updated => (Utf8.encodeUnits (Text.unlines updated)).toOption.map (true, ·) := by
  rw [TextFile.pieces_of_read hread, commented, if_neg hplan]
  cases Utf8.decode octets <;> rfl

/-- If it has none, its octets are no text. -/
theorem exists_tool_of_pieces {e : Failure} (hread : t.read p.text = .ok octets)
    (hpieces : TextFile.pieces t p = .error e) : ∃ e', e = .tool e' := by
  rw [TextFile.pieces_of_read hread] at hpieces
  cases hdecode : Utf8.decode octets with
  | error _ => rw [hdecode] at hpieces; cases hpieces; exact ⟨_, rfl⟩
  | ok text => rw [hdecode] at hpieces; cases hpieces

/-- An annotation of a file that can be read does what its octets and its plan say. -/
theorem Annotated.commented (h : Annotated style p plan t result t')
    (htarget : t.target? p.text = some l) (hn : t.node? l = some (.file octets)) :
    match commented style plan octets with
    | none => ∃ f, result = .error (.fault f)
    | some (good, new) => t' = t.put l (.file new) ∧ result.isOk = good ∧ NoFault result := by
  have hread := read_of_target? htarget hn
  have hl : l ≠ [] := by
    rintro rfl
    cases hn
  have hsame : t = t.put l (.file octets) := (put_eq_self hl hn).symm
  cases h with
  | clean hplan =>
    rw [Workflow.commented, if_pos hplan]
    exact ⟨hsame, rfl, nofun⟩
  | unread hplan e hpieces =>
    obtain ⟨e', rfl⟩ := exists_tool_of_pieces hread hpieces
    rw [commented_eq hread hplan, hpieces]
    exact ⟨hsame, rfl, nofun⟩
  | refused hplan lines hpieces hno f =>
    rw [commented_eq hread hplan, hpieces]
    dsimp only
    cases happly : plan.apply style (lines.map Text.unitsOf) with
    | error _ => exact ⟨f, rfl⟩
    | ok updated =>
      dsimp only
      cases hencode : Utf8.encodeUnits (Text.unlines updated) with
      | error run => exact ⟨f, rfl⟩
      | ok new => exact absurd hencode (hno updated new happly)
  | written hplan lines hpieces updated happly new hencode _ hwrite =>
    obtain ⟨l', -, -, htarget', hput⟩ := write_of_read hread new
    cases htarget.symm.trans htarget'
    cases hput.symm.trans hwrite
    rw [commented_eq hread hplan, hpieces]
    simp only [happly, hencode]
    exact ⟨rfl, rfl, nofun⟩

/-- What becomes of the file at a place; nothing if no file is there, or if that ends the run. -/
def outcome? (style : Suppression.Style) (plans : Location → Suppression.Plan) (t : FileTree)
    (l : Location) : Option (Bool × List UInt8) :=
  match t.node? l with
  | some (.file octets) => commented style (plans l) octets
  | _ => none

theorem ne_nil_of_outcome? {x : Bool × List UInt8} (h : outcome? style plans t l = some x) : l ≠ [] := by
  rintro rfl
  cases h

/-- It does not depend on what is elsewhere. -/
theorem outcome?_put (hl : l ≠ []) (hlk : l ≠ k) :
    outcome? style plans (t.put l n) k = outcome? style plans t k := by
  rw [outcome?, outcome?, node?_put hl, if_neg (Ne.symm hlk)]

/-- The tree after some annotations, and how many of them worked and how many failed. -/
structure Tally where
  tree : FileTree
  done : Nat
  failed : Nat

namespace Tally

variable {b b' : Tally} {places places' : List Location}

/-- The tally after one more file. -/
def after (b : Tally) (l : Location) (x : Bool × List UInt8) : Tally :=
  ⟨b.tree.put l (.file x.2), b.done + x.1.toNat, b.failed + (!x.1).toNat⟩

/-- Annotates the file at a place. -/
def add (style : Suppression.Style) (plans : Location → Suppression.Plan) (b : Tally) (l : Location) :
    Option Tally :=
  (outcome? style plans b.tree l).map (b.after l)

/-- Annotates the files at some places. -/
def addAll (style : Suppression.Style) (plans : Location → Suppression.Plan) (b : Option Tally)
    (places : List Location) : Option Tally :=
  places.foldl (fun b l => b.bind fun b => b.add style plans l) b

/-- The tally of another tree. -/
def withTree (b : Tally) (f : FileTree → FileTree) : Tally := ⟨f b.tree, b.done, b.failed⟩

theorem after_comm (hlk : l ≠ k) (x y : Bool × List UInt8) :
    (b.after l x).after k y = (b.after k y).after l x := by
  rw [after, after, after, after, put_put_comm hlk]
  simp only [Tally.mk.injEq, true_and]
  omega

/-- Two files may be annotated in either order. -/
theorem add_comm (b : Tally) (l k : Location) :
    (b.add style plans l).bind (fun b => b.add style plans k) =
      (b.add style plans k).bind fun b => b.add style plans l := by
  by_cases hlk : l = k
  · rw [hlk]
  rw [add, add]
  cases hl : outcome? style plans b.tree l with
  | none =>
    cases hk : outcome? style plans b.tree k with
    | none => rfl
    | some y =>
      simp only [Option.map_none, Option.bind_none, Option.map_some, Option.bind_some, add, after]
      rw [outcome?_put (ne_nil_of_outcome? hk) (Ne.symm hlk), hl]
      rfl
  | some x =>
    have hleft : outcome? style plans (b.after l x).tree k = outcome? style plans b.tree k :=
      outcome?_put (ne_nil_of_outcome? hl) hlk
    simp only [Option.map_some, Option.bind_some, add, hleft]
    cases hk : outcome? style plans b.tree k with
    | none => rfl
    | some y =>
      have hright : outcome? style plans (b.after k y).tree l = outcome? style plans b.tree l :=
        outcome?_put (ne_nil_of_outcome? hk) (Ne.symm hlk)
      simp only [Option.map_some, Option.bind_some, hright, hl, after_comm hlk]

theorem addAll_perm (h : places.Perm places') (b : Option Tally) :
    addAll style plans b places = addAll style plans b places' := by
  refine h.foldl_eq' (fun l _ k _ b => ?_) b
  cases b with
  | none => rfl
  | some b => exact add_comm b l k

/-- A file that is not annotated does not matter, and stays. -/
theorem addAll_put (hl : l ≠ []) (hplaces : l ∉ places) (b : Option Tally) :
    addAll style plans (b.map (·.withTree (·.put l n))) places =
      (addAll style plans b places).map (·.withTree (·.put l n)) := by
  induction places generalizing b with
  | nil => rfl
  | cons k rest ih =>
    obtain ⟨hlk, hrest⟩ := not_or.mp (List.mem_cons.not.mp hplaces)
    have hstep : ((b.map (·.withTree (·.put l n))).bind fun b => b.add style plans k) =
        (b.bind fun b => b.add style plans k).map (·.withTree (·.put l n)) := by
      cases b with
      | none => rfl
      | some b =>
        simp only [Option.map_some, Option.bind_some, add, withTree, outcome?_put hl hlk, Option.map_map]
        refine congrArg (Option.map · _) (funext fun x => ?_)
        simp only [after, Function.comp_apply, put_put_comm hlk]
    rw [addAll, List.foldl_cons, hstep]
    exact ih hrest _

theorem sameShape_of_add (h : b.add style plans l = some b') : SameShape b.tree b'.tree := by
  obtain ⟨x, hx, rfl⟩ := Option.map_eq_some_iff.mp h
  have hl := ne_nil_of_outcome? hx
  rw [outcome?] at hx
  split at hx
  · next octets hn => exact .put hl hn x.2
  · cases hx

theorem addAll_cons : addAll style plans (some b) (l :: places) =
    addAll style plans (b.add style plans l) places := rfl

theorem addAll_none (places : List Location) : addAll style plans none places = none := by
  induction places with
  | nil => rfl
  | cons l rest ih => exact ih

/-- Annotations change no more than contents. -/
theorem sameShape_of_addAll (h : addAll style plans (some b) places = some b') :
    SameShape b.tree b'.tree := by
  induction places generalizing b with
  | nil =>
    cases h
    exact .refl _
  | cons l rest ih =>
    rw [addAll_cons] at h
    cases hc : b.add style plans l with
    | none =>
      rw [hc, addAll_none] at h
      cases h
    | some b₁ =>
      rw [hc] at h
      exact (sameShape_of_add hc).trans (ih h)

end Tally

/-- Holds of an outcome that says no more and no less than a tally. -/
structure Tallies (o : Outcome) (b : Tally) : Prop extends Fair o where
  done : o.filesProcessed = b.done
  failed : o.failures.length = b.failed

variable {o : Outcome} {b : Tally} {r : Report} {reports : List Report} {w : World σ}
  {places : List Location}

theorem Tallies.record (h : Tallies o b) (hgoes : NoFault result) (l : Location) (new : List UInt8) :
    Tallies (record o result) (b.after l (result.isOk, new)) := by
  refine ⟨h.toFair.record result, ?_, ?_⟩
  · cases result with
    | ok n => simp [Workflow.record, Tally.after, Except.isOk, Except.toBool, h.done]
    | error e => simp [Workflow.record, Outcome.addFailure, Tally.after, Except.isOk, Except.toBool, h.done]
  · cases result with
    | ok n => simp [Workflow.record, Tally.after, Except.isOk, Except.toBool, h.failed]
    | error e => simp [Workflow.record, Outcome.addFailure, Tally.after, Except.isOk, Except.toBool, h.failed]

theorem Tallies.status (h : Tallies o b) :
    o.status = if b.failed = 0 then .ok else .partly := by
  rw [h.toFair.status_eq, ← h.failed]
  simp only [List.length_eq_zero_iff]

/-- What annotations that add up to a tally end with; without one they end with a fault. -/
def Yields : Option Tally → Except Failure Outcome → FileTree → Prop
  | none, r, _ => ∃ f, r = .error (.fault f)
  | some b, r, t => b.tree = t ∧ ∃ o, r = .ok o ∧ Tallies o b

theorem Yields.eq_none {b : Option Tally} {e : Failure} (h : Yields b (.error e) t) : b = none := by
  cases b with
  | none => rfl
  | some b =>
    obtain ⟨-, o, ho, -⟩ := h
    cases ho

theorem Yields.eq_some {b : Option Tally} (h : Yields b (.ok o) t) :
    ∃ b', b = some b' ∧ b'.tree = t ∧ Tallies o b' := by
  cases b with
  | none =>
    obtain ⟨f, hf⟩ := h
    cases hf
  | some b =>
    obtain ⟨htree, o', ho', htallies⟩ := h
    cases ho'
    exact ⟨b, rfl, htree, htallies⟩

/-- Holds if a report is about the file at a place, which has this plan. -/
def About (base : Path) (plans : Location → Suppression.Plan) (t : FileTree) (r : Report)
    (l : Location) : Prop :=
  ∃ p octets, sourcePath t base r.source = .ok p ∧ t.target? p.text = some l ∧
    t.node? l = some (.file octets) ∧ Suppression.Plan.ofViolations r.warnings = plans l

theorem About.of_sameShape (h : About base plans t r l) (hshape : SameShape t t') :
    About base plans t' r l := by
  obtain ⟨p, octets, hpath, htarget, hn, hplan⟩ := h
  obtain ⟨octets', hn'⟩ := hshape.exists_file hn
  refine ⟨p, octets', ?_, ?_, hn', hplan⟩
  · rw [← hshape.sameWays.sourcePath, hpath]
  · rw [← hshape.target?_eq, htarget]

/-- One report adds its file to the tally, or ends the run. -/
theorem ends_annotateReport_add (h : About base plans w.tree r l) (hb : b.tree = w.tree)
    (htallies : Tallies o b) : (annotateReport base style o r).Ends w fun res t s =>
      s = w.state ∧ Yields (b.add style plans l) res t := by
  obtain ⟨p, octets, hpath, htarget, hn, hplan⟩ := h
  refine ends_annotateReport_of (fun f hf => ?_) fun p' hpath' => ?_
  · cases hpath.symm.trans hf
  cases hpath.symm.trans hpath'
  have houtcome : outcome? style plans b.tree l =
      commented style (.ofViolations r.warnings) octets := by
    rw [outcome?, hb, hn, hplan]
  rw [Tally.add, houtcome]
  refine ends_annotate.mono fun result t s ⟨hstate, hannotated⟩ => ?_
  have hwhat := hannotated.commented htarget hn
  cases hc : commented style (.ofViolations r.warnings) octets with
  | none =>
    rw [hc] at hwhat
    obtain ⟨f, rfl⟩ := hwhat
    exact ⟨fun f' _ => ⟨hstate, f', rfl⟩, fun hgoes => absurd rfl (hgoes f)⟩
  | some x =>
    obtain ⟨good, new⟩ := x
    rw [hc] at hwhat
    obtain ⟨htree, rfl, hgoes⟩ := hwhat
    have htree' : (b.after l (result.isOk, new)).tree = t := by
      rw [htree, ← hb]
      rfl
    exact ⟨fun f hf => absurd hf (hgoes f),
      fun _ => ⟨hstate, htree', _, rfl, htallies.record hgoes l new⟩⟩

/-- The reports are gone through to the end exactly if no file ends the run. -/
theorem ends_annotateAll_addAll
    (h : List.Forall₂ (About base plans w.tree) (reports.filter Report.errored) places)
    (hb : b.tree = w.tree) (htallies : Tallies o b) :
    (annotateAll base style o reports).Ends w fun res t s =>
      s = w.state ∧ Yields (Tally.addAll style plans (some b) places) res t := by
  refine ends_foldlM (fun rest o₁ t s => s = w.state ∧ ∃ b₁ left,
      List.Forall₂ (About base plans t) rest left ∧ b₁.tree = t ∧ Tallies o₁ b₁ ∧
        Tally.addAll style plans (some b₁) left = Tally.addAll style plans (some b) places)
    ?_ ?_ ⟨rfl, b, places, h, hb, htallies, rfl⟩
  · rintro r rest o₁ w₁ ⟨hstate, b₁, places₁, hall, hb₁, htallies₁, hleft⟩
    cases hall with
    | @cons _ l _ left hr hrest =>
      rw [Tally.addAll_cons] at hleft
      refine (ends_annotateReport_add hr hb₁ htallies₁).mono fun res t s ⟨hstate', hadd⟩ => ?_
      cases hc : b₁.add style plans l with
      | none =>
        rw [hc] at hadd hleft
        rw [Tally.addAll_none] at hleft
        obtain ⟨f, rfl⟩ := hadd
        exact ⟨hstate'.trans hstate, by rw [← hleft]; exact ⟨f, rfl⟩⟩
      | some b₂ =>
        rw [hc] at hadd hleft
        obtain ⟨htree, o₂, rfl, htallies₂⟩ := hadd
        have hshape : SameShape w₁.tree t := by
          rw [← hb₁, ← htree]
          exact Tally.sameShape_of_add hc
        exact ⟨hstate'.trans hstate, b₂, left, hrest.imp fun _ _ h => h.of_sameShape hshape, htree,
          htallies₂, hleft⟩
  · rintro o₁ t s ⟨hstate, b₁, _, ⟨⟩, htree, htallies₁, hleft⟩
    refine ⟨hstate, ?_⟩
    rw [← hleft]
    exact ⟨htree, o₁, rfl, htallies₁⟩

end LintDebt.Workflow
