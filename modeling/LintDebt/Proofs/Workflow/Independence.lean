import LintDebt.Proofs.FileTree.Shapes
import LintDebt.Proofs.Workflow.Annotating
import Mathlib.Data.List.Forall2

/-! # Files that are annotated one after the other

To annotate a file changes the content of that file and nothing else. So when the failing reports are
about different places, what becomes of each file is decided by what it was at the start: it is left
alone, gets its comments, or counts as one failure, whatever happens to the others. -/

namespace LintDebt

open FileTree

namespace TextFile

variable {t t' : FileTree} {p : Path}

/-- The text at a path depends on what the path leads to. -/
theorem pieces_congr (h : t.stat p.text = t'.stat p.text) : pieces t p = pieces t' p := by
  rw [pieces, pieces, read, read, octets_congr h]

/-- Holds where nothing is to be read as a text: nothing is there, or a directory, or octets that are
no text. -/
def Unreadable (t : FileTree) (p : Path) : Prop :=
  t.existsAt p.text = .ok false ∨ t.stat p.text = .ok .directory ∨
    ∃ octets e, t.read p.text = .ok octets ∧ Utf8.decode octets = .error e

theorem Unreadable.pieces_ne_ok (h : Unreadable t p) (lines : List String) :
    pieces t p ≠ .ok lines := by
  intro hpieces
  obtain ⟨old, hold⟩ := read_of_pieces hpieces
  rcases h with hnone | hdir | ⟨octets, e, hread, hdecode⟩
  · rw [existsAt, read_eq_ok.mp hold] at hnone
    cases hnone
  · rw [read_eq_ok.mp hold] at hdir
    cases hdir
  · rw [pieces, read] at hpieces
    obtain ⟨text, htext, -⟩ := bind_eq_ok.mp hpieces
    obtain ⟨octets', hoctets, htext⟩ := bind_eq_ok.mp htext
    obtain ⟨decoded, hdecoded, -⟩ := bind_eq_ok.mp htext
    cases hread.symm.trans (read_of_octets hoctets)
    rw [mapError_eq_ok, decode, mapError_eq_ok, hdecode] at hdecoded
    cases hdecoded

end TextFile

namespace FileTree

variable {t t' : FileTree} {path : String} {l : Location}

theorem Rewritten.sameShape (h : Rewritten t path t') : SameShape t t' := by
  rcases h with rfl | ⟨old, new, hold, hwrite⟩
  · exact .refl _
  · obtain ⟨l, hl, hn, -, hput⟩ := write_of_read hold new
    cases hput.symm.trans hwrite
    exact .put hl hn new

theorem Rewritten.node?_eq (h : Rewritten t path t') (hl : t.target? path ≠ some l) :
    t'.node? l = t.node? l := by
  rcases h with rfl | ⟨old, new, hold, hwrite⟩
  · rfl
  · obtain ⟨k, hk, -, htarget, hput⟩ := write_of_read hold new
    cases hput.symm.trans hwrite
    have hne : l ≠ k := by
      rintro rfl
      exact hl htarget
    rw [node?_put hk, if_neg hne]

end FileTree

namespace Workflow

open TextFile (Unreadable)

variable {σ : Type} {base p : Path} {style : Suppression.Style} {plan : Suppression.Plan}
  {t t₁ t₂ t' : FileTree} {result : Except Failure Int} {results : List (Except Failure Int)}
  {r : Report} {reports : List Report}

/-- What became of one file from `t` to `t'`, and how its annotation ended. A file without a plan is
left alone; one that can be read has its comments; one that cannot be read is as it was, and that is a
failure. -/
structure Handled (t t' : FileTree) (style : Suppression.Style) (p : Path) (plan : Suppression.Plan)
    (result : Except Failure Int) : Prop where
  clean : plan = [] →
    result = .ok 0 ∧ (t'.stat p.text).toOption = (t.stat p.text).toOption
  commented : plan ≠ [] → ∀ lines, TextFile.pieces t p = .ok lines →
    (∃ n, result = .ok n) ∧ ∃ updated octets,
      plan.apply style (lines.map Text.unitsOf) = .ok updated ∧
      Utf8.encodeUnits (Text.unlines updated) = .ok octets ∧ t'.read p.text = .ok octets
  failed : plan ≠ [] → Unreadable t p →
    (∃ e, result = .error (.tool e)) ∧ (t'.stat p.text).toOption = (t.stat p.text).toOption

theorem Annotated.handled (h : Annotated style p plan t result t') (hgoes : NoFault result) :
    Handled t t' style p plan result := by
  cases h with
  | clean hplan => exact ⟨fun _ => ⟨rfl, rfl⟩, fun hne => absurd hplan hne, fun hne => absurd hplan hne⟩
  | unread hplan e hpieces =>
    refine ⟨fun hnil => absurd hnil hplan, fun _ lines hlines => ?_, fun _ _ => ⟨?_, rfl⟩⟩
    · rw [hpieces] at hlines
      cases hlines
    · cases e with
      | tool e => exact ⟨e, rfl⟩
      | fault f => exact absurd rfl (hgoes f)
  | refused _ _ _ _ f => exact absurd rfl (hgoes f)
  | written hplan lines hpieces updated happly octets hencode _ hwrite =>
    refine ⟨fun hnil => absurd hnil hplan, fun _ lines' hlines => ⟨⟨_, rfl⟩, ?_⟩, fun _ hno => ?_⟩
    · cases hpieces.symm.trans hlines
      exact ⟨updated, octets, happly, hencode, read_of_write hwrite⟩
    · exact absurd hpieces (hno.pieces_ne_ok lines)

/-- An annotation that changes a place had a plan for the file there. -/
theorem Annotated.changed (h : Annotated style p plan t result t') {l : Location}
    (hl : t'.node? l ≠ t.node? l) : plan ≠ [] ∧ t.target? p.text = some l := by
  constructor
  · rintro rfl
    cases h with
    | clean => exact hl rfl
    | unread hplan | refused hplan | written hplan => exact hplan rfl
  · refine Decidable.byContradiction fun hne => hl ?_
    exact h.rewritten.node?_eq hne

namespace Handled

/-- What the file was before does not matter to what is done to it now. -/
theorem of_start (h : Handled t₁ t' style p plan result) (hstat : t.stat p.text = t₁.stat p.text) :
    Handled t t' style p plan result := by
  refine ⟨?_, ?_, ?_⟩
  · rw [hstat]
    exact h.clean
  · rw [TextFile.pieces_congr hstat]
    exact h.commented
  · rw [Unreadable, existsAt, FileTree.read, hstat]
    exact h.failed

/-- What is done to it does not matter to what is done elsewhere later. -/
theorem of_end (h : Handled t t₁ style p plan result) (hways : SameWays t₁ t')
    (hn : ∀ l, t₁.target? p.text = some l → t₁.node? l = t'.node? l) :
    Handled t t' style p plan result := by
  refine ⟨?_, fun hplan lines hlines => ?_, ?_⟩
  · rw [← hways.toOption_stat hn]
    exact h.clean
  · obtain ⟨hresult, updated, octets, happly, hencode, hread⟩ := h.commented hplan lines hlines
    exact ⟨hresult, updated, octets, happly, hencode,
      read_eq_ok.mpr (hways.stat_eq_ok hn (read_eq_ok.mp hread))⟩
  · rw [← hways.toOption_stat hn]
    exact h.failed

end Handled

/-- The place that a report is about, whether or not something stands there. -/
def reportPlace? (t : FileTree) (base : Path) (r : Report) : Option Location :=
  match sourcePath t base r.source with
  | .ok p => t.target? p.text
  | .error _ => none

theorem reportPlace?_of_sourcePath (h : sourcePath t base r.source = .ok p) :
    reportPlace? t base r = t.target? p.text := by
  rw [reportPlace?, h]

theorem SameWays.reportPlace?_eq (h : SameWays t t') (base : Path) :
    reportPlace? t base = reportPlace? t' base := by
  funext r
  rw [reportPlace?, reportPlace?, h.sourcePath]
  cases sourcePath t' base r.source with
  | error f => rfl
  | ok p => exact h.target?_eq p.text

namespace Annotations

theorem sameShape (h : Annotations σ base style t reports results t') : SameShape t t' := by
  induction h with
  | nil t => exact .refl t
  | @cons w r rest results t p hpath hrest ih =>
    have hannotated := annotated_runFrom p (.ofViolations r.warnings) style w
    exact hannotated.rewritten.sameShape.trans ih

/-- What annotations change is the files of reports that have a plan. -/
theorem changed (h : Annotations σ base style t reports results t') {l : Location}
    (hl : t'.node? l ≠ t.node? l) : ∃ r ∈ reports, ∃ p, sourcePath t base r.source = .ok p ∧
      t.target? p.text = some l ∧ Suppression.Plan.ofViolations r.warnings ≠ [] := by
  induction h with
  | nil t => exact absurd rfl hl
  | @cons w r rest results t p hpath hrest ih =>
    have hannotated := annotated_runFrom p (.ofViolations r.warnings) style w
    by_cases hfirst : ((annotate p (.ofViolations r.warnings) style).runFrom w).2.tree.node? l =
        w.tree.node? l
    · rw [← hfirst] at hl
      obtain ⟨r', hr', p', hpath', htarget, hplan⟩ := ih hl
      have hways := hannotated.rewritten.sameShape.sameWays
      rw [← hways.sourcePath] at hpath'
      rw [← hways.target?_eq] at htarget
      exact ⟨r', List.mem_cons_of_mem _ hr', p', hpath', htarget, hplan⟩
    · obtain ⟨hplan, htarget⟩ := hannotated.changed hfirst
      exact ⟨r, List.mem_cons_self, p, hpath, htarget, hplan⟩

/-- If all reports are about different places, each file is handled as it was found. -/
theorem each (h : Annotations σ base style t reports results t')
    (hgoes : ∀ result ∈ results, NoFault result)
    (hapart : (reports.filterMap (reportPlace? t base)).Nodup) :
    List.Forall₂ (fun r result => ∃ p, sourcePath t base r.source = .ok p ∧
      Handled t t' style p (.ofViolations r.warnings) result) reports results := by
  induction h with
  | nil t => exact .nil
  | @cons w r rest results t p hpath hrest ih =>
    have hannotated := annotated_runFrom p (.ofViolations r.warnings) style w
    obtain ⟨hgoes₁, hgoes⟩ := List.forall_mem_cons.mp hgoes
    have hshape := hannotated.rewritten.sameShape
    have hplaces := SameWays.reportPlace?_eq hshape.sameWays base
    have hrest_apart : (rest.filterMap (reportPlace? w.tree base)).Nodup ∧
        ∀ l, w.tree.target? p.text = some l → l ∉ rest.filterMap (reportPlace? w.tree base) := by
      rw [List.filterMap_cons, reportPlace?_of_sourcePath hpath] at hapart
      cases htarget : w.tree.target? p.text with
      | none =>
        rw [htarget] at hapart
        exact ⟨hapart, nofun⟩
      | some k =>
        rw [htarget] at hapart
        obtain ⟨hk, hnodup⟩ := List.nodup_cons.mp hapart
        refine ⟨hnodup, fun l hl => ?_⟩
        cases hl
        exact hk
    obtain ⟨hnodup, hother⟩ := hrest_apart
    refine .cons ⟨p, hpath, (hannotated.handled hgoes₁).of_end hrest.sameShape.sameWays fun l hl => ?_⟩ ?_
    · -- A later report that changed this place would be about it too.
      rw [← hshape.target?_eq] at hl
      refine Decidable.byContradiction fun hne => hother l hl ?_
      obtain ⟨r', hr', p', hpath', htarget, -⟩ := hrest.changed (Ne.symm hne)
      rw [hplaces]
      exact List.mem_filterMap.mpr ⟨r', hr', (reportPlace?_of_sourcePath hpath').trans htarget⟩
    · rw [hplaces] at hnodup
      have hall := (List.forall₂_and_left (p := (· ∈ rest)) _ _).mpr ⟨fun _ h => h, ih hgoes hnodup⟩
      refine hall.imp fun r' result ⟨hr', p', hpath', hhandled⟩ => ?_
      rw [← hshape.sameWays.sourcePath] at hpath'
      refine ⟨p', hpath', hhandled.of_start (hshape.stat_eq fun l hl => ?_)⟩
      refine Decidable.byContradiction fun hne => ?_
      obtain ⟨-, htarget⟩ := hannotated.changed (Ne.symm hne)
      refine hother l htarget (List.mem_filterMap.mpr ⟨r', hr', ?_⟩)
      rw [reportPlace?_of_sourcePath hpath', hl]

end Annotations
end Workflow
end LintDebt
