import LintDebt.Proofs.Faults
import LintDebt.Proofs.Suppression.Interleaving
import LintDebt.Proofs.Text.Octets
import LintDebt.Proofs.Workflow.Annotating
import LintDebt.Proofs.Workflow.Sample

/-! # What annotating leaves of a file

The octets of an annotated file, cut at LF, are the pieces of its text and between them the comments.
The text is the one that was read, so every line end in it is LF: a file keeps its own pieces exactly
if it had no CR. And it keeps nothing if the name of a rule is no text, because the file is emptied
before that shows. -/

namespace LintDebt

namespace Suppression

open Text

variable {c : Comment} {plan : Plan} {style : Style} {g : Group} {r : Units} {u : UInt16}
  {updated : List Units}

/-- The octets of a comment that is a text. -/
def Comment.octets (c : Comment) : List UInt8 := Utf8.encode (ofUnits c.text)

/-- Holds if the pieces of some octets between LFs are pieces of others, in their order, and all the
other pieces are among the added ones. -/
def KeepsPieces (added : List (List UInt8)) (before after : List UInt8) : Prop :=
  ∃ between, (∀ piece ∈ between, piece ∈ added) ∧
    Interleaving (before.splitOn 0x0a) between (after.splitOn 0x0a)

theorem isText_comment (c : Comment) : IsText c.text ↔ ∀ r ∈ c.rules, IsText r := by
  have hhead : (unitsOf " */").head? = some 0x20 := by decide
  have hend : ∀ v ∈ (unitsOf " */").head?, isLowSurrogate v = false := by
    rw [hhead]
    rintro v ⟨⟩
    rfl
  have hrules : IsText ((unitsOf ",").intercalate c.rules) ↔ ∀ r ∈ c.rules, IsText r :=
    isText_intercalate (c := ',') rfl ⟨rfl, rfl⟩ c.rules
  rw [Comment.text, commentLine, List.append_assoc, unitsOf, isText_units_append, isText_append hend,
    hrules]
  exact and_iff_left (isText_units _)

/-- A line end in a comment is one in the name of a rule. -/
theorem not_mem_comment (hu : u = 0x0a ∨ u = 0x0d) (h : ∀ r ∈ c.rules, u ∉ r) : u ∉ c.text := by
  have hfixed : ∀ u : UInt16, u = 0x0a ∨ u = 0x0d → ∀ command : Command,
      u ∉ unitsOf s!"/* stylelint-{command.text} " ∧ u ∉ unitsOf "," ∧ u ∉ unitsOf " */" := by
    rintro u (rfl | rfl) (_ | _ | _) <;> decide
  obtain ⟨hstart, hcomma, hend⟩ := hfixed u hu c.command
  rw [Comment.text, commentLine, List.mem_append, List.mem_append, not_or, not_or]
  refine ⟨⟨hstart, fun hmem => ?_⟩, hend⟩
  rcases mem_intercalate hmem with hmem | ⟨r, hr, hmem⟩
  · exact hcomma hmem
  · exact h r hr hmem

/-- The comments of a plan name the rules of its groups. -/
theorem mem_rules_comments (style : Style) :
    (∃ c ∈ plan.comments style, r ∈ c.rules) ↔ ∃ g ∈ plan, r ∈ g.rules := by
  cases style with
  | block =>
    constructor
    · rintro ⟨c, hc, hr⟩
      obtain ⟨g, hg, hc⟩ := List.mem_flatMap.mp hc
      refine ⟨g, hg, ?_⟩
      rw [List.mem_cons, List.mem_singleton] at hc
      rcases hc with rfl | rfl <;> exact hr
    · rintro ⟨g, hg, hr⟩
      exact ⟨g.opening, List.mem_flatMap.mpr ⟨g, hg, List.mem_cons_self⟩, hr⟩
  | nextLine =>
    have hrules : ∀ start, r ∈ plan.rulesAt start ↔ ∃ g ∈ plan, g.start = start ∧ r ∈ g.rules := by
      intro start
      simp only [Plan.rulesAt, List.mem_eraseDups, List.mem_flatMap, List.mem_filter,
        decide_eq_true_eq, and_assoc]
    rw [Plan.comments, Plan.byStart, List.map_map]
    constructor
    · rintro ⟨c, hc, hr⟩
      obtain ⟨start, -, rfl⟩ := List.mem_map.mp hc
      obtain ⟨g, hg, -, hr⟩ := (hrules start).mp hr
      exact ⟨g, hg, hr⟩
    · rintro ⟨g, hg, hr⟩
      refine ⟨_, List.mem_map.mpr ⟨g.start, ?_, rfl⟩, (hrules g.start).mpr ⟨g, hg, rfl, hr⟩⟩
      exact List.mem_eraseDups.mpr (List.mem_map_of_mem hg)

theorem isText_unlines (updated : List Units) :
    IsText (unlines updated) ↔ ∀ line ∈ updated, IsText line :=
  isText_intercalate (c := '\n') rfl ⟨rfl, rfl⟩ updated

theorem exists_parts (htexts : ∀ line ∈ updated, IsText line) :
    ∃ parts : List (List Char), updated = parts.map units := by
  refine ⟨updated.map ofUnits, ?_⟩
  have hunits : ∀ line ∈ updated, (units ∘ ofUnits) line = id line := by
    intro line hline
    obtain ⟨s, rfl⟩ := htexts line hline
    exact congrArg units (ofUnits_units s)
  rw [List.map_map, List.map_congr_left hunits, List.map_id]

theorem encodeUnits_unlines (parts : List (List Char)) :
    Utf8.encodeUnits (unlines (parts.map units)) = .ok (Utf8.encode (['\n'].intercalate parts)) := by
  have hunits : units (['\n'].intercalate parts) = unlines (parts.map units) :=
    units_intercalate rfl parts
  rw [← hunits, encodeUnits_units]

/-- The octets of lines that are texts, each of them in one piece. -/
theorem exists_octets_unlines (hne : updated ≠ []) (htexts : ∀ line ∈ updated, IsText line)
    (hwhole : ∀ line ∈ updated, 0x0a ∉ line) : ∃ octets,
      Utf8.encodeUnits (unlines updated) = .ok octets ∧
        octets.splitOn 0x0a = updated.map (Utf8.encode ∘ ofUnits) := by
  obtain ⟨parts, rfl⟩ := exists_parts htexts
  refine ⟨_, encodeUnits_unlines parts, ?_⟩
  rw [Utf8.splitOn_encode_intercalate (by simpa using hne), List.map_map]
  · exact List.map_congr_left fun part _ => congrArg Utf8.encode (ofUnits_units part).symm
  · exact fun part hpart hfeed => hwhole _ (List.mem_map_of_mem hpart)
      (lineFeed_mem_units.mpr hfeed)

end Suppression

namespace Workflow

open Job FileTree Suppression Text

variable {σ : Type} {p : Path} {plan : Plan} {style : Style} {w : World σ} {text : List Char}

/-- Holds for a plan whose rules have names without line ends. -/
def OneLined (plan : Plan) : Prop := ∀ g ∈ plan, ∀ r ∈ g.rules, 0x0a ∉ r ∧ 0x0d ∉ r

/-- The lines of a text with the comments of a plan are texts if the names of its rules are. -/
theorem isText_apply {lines : List (List Char)} {updated : List Units}
    (happly : plan.apply style (lines.map units) = .ok updated) :
    (∀ line ∈ updated, IsText line) ↔ ∀ g ∈ plan, ∀ r ∈ g.rules, IsText r := by
  obtain ⟨comments, hperm, hmix⟩ := interleaving_of_apply happly
  constructor
  · intro htexts g hg r hr
    obtain ⟨c, hc, hr⟩ := (mem_rules_comments style).mpr ⟨g, hg, hr⟩
    have hcomment : c.text ∈ updated := hmix.perm.mem_iff.mpr
      (List.mem_append_right _ (List.mem_map_of_mem (hperm.mem_iff.mpr hc)))
    exact (isText_comment c).mp (htexts _ hcomment) r hr
  · intro hrules line hline
    rcases List.mem_append.mp (hmix.perm.mem_iff.mp hline) with hown | hadded
    · obtain ⟨piece, -, rfl⟩ := List.mem_map.mp hown
      exact isText_units piece
    · obtain ⟨c, hc, rfl⟩ := List.mem_map.mp hadded
      refine (isText_comment c).mpr fun r hr => ?_
      obtain ⟨g, hg, hr⟩ := (mem_rules_comments style).mp ⟨c, hperm.mem_iff.mp hc, hr⟩
      exact hrules g hg r hr

theorem exists_apply_pieces (plan : Plan) (style : Style) (text : List Char) :
    ∃ updated, plan.apply style ((pieces (normalize text)).map units) = .ok updated :=
  exists_apply (map_pieces_ne_nil units (normalize text)) plan style

/-- The lines of a text with the comments of a plan, and what they are made of. -/
theorem exists_interleaving (style : Style) (hplan : OneLined plan) (text : List Char) :
    ∃ updated, plan.apply style ((pieces (normalize text)).map units) = .ok updated ∧
      (∀ line ∈ updated, 0x0a ∉ line ∧ 0x0d ∉ line) ∧
      ((∀ line ∈ updated, IsText line) ↔ ∀ g ∈ plan, ∀ r ∈ g.rules, IsText r) ∧
      ∃ comments : List Comment, comments.Perm (plan.comments style) ∧
        Interleaving ((pieces (normalize text)).map units) (comments.map Comment.text) updated := by
  obtain ⟨updated, happly⟩ := exists_apply_pieces plan style text
  obtain ⟨comments, hperm, hmix⟩ := interleaving_of_apply happly
  refine ⟨updated, happly, fun line hline => ?_, isText_apply happly, comments, hperm, hmix⟩
  rcases List.mem_append.mp (hmix.perm.mem_iff.mp hline) with hown | hadded
  · obtain ⟨piece, hpiece, rfl⟩ := List.mem_map.mp hown
    exact whole_iff_units.mp (whole_of_mem_pieces hpiece)
  · obtain ⟨c, hc, rfl⟩ := List.mem_map.mp hadded
    have hrules : ∀ r ∈ c.rules, 0x0a ∉ r ∧ 0x0d ∉ r := by
      intro r hr
      obtain ⟨g, hg, hr⟩ := (mem_rules_comments style).mp ⟨c, hperm.mem_iff.mp hc, hr⟩
      exact hplan g hg r hr
    exact ⟨not_mem_comment (Or.inl rfl) fun r hr => (hrules r hr).1,
      not_mem_comment (Or.inr rfl) fun r hr => (hrules r hr).2⟩

/-- The pieces of a file that is a text, as the lines that comments are put between. -/
theorem pieces_of_encoded (hread : w.tree.read p.text = .ok (Utf8.encode text)) :
    ∃ lines, TextFile.pieces w.tree p = .ok lines ∧
      lines.map unitsOf = (pieces (normalize text)).map units := by
  refine ⟨(pieces (normalize text)).map String.ofList, ?_, map_unitsOf _⟩
  rw [TextFile.pieces_of_read hread, Utf8.decode_encode]

/-- Octets without CR keep no piece that has one. -/
theorem not_keepsPieces {added : List (List UInt8)} {before after : List UInt8} (hbefore : 0x0d ∈ before)
    (hafter : ∀ piece ∈ after.splitOn 0x0a, 0x0d ∉ piece) : ¬ KeepsPieces added before after := by
  rintro ⟨between, -, hmix⟩
  have hparts : [0x0a].intercalate (before.splitOn 0x0a) = before := List.intercalate_splitOn 0x0a
  rw [← hparts] at hbefore
  rcases mem_intercalate hbefore with hmem | ⟨piece, hpiece, hmem⟩
  · exact absurd hmem (by decide)
  · exact hafter piece (hmix.sublist.subset hpiece) hmem

/-- What annotating made of a text, if all its rules are texts: the pieces of the text with LF at its
line ends, in their order, and between them each comment of the plan once. -/
structure Commented (plan : Plan) (style : Style) (text : List Char) (after : List UInt8) : Prop where
  pieces : ∃ comments, comments.Perm ((plan.comments style).map Comment.octets) ∧
    Interleaving ((Utf8.encode (normalize text)).splitOn 0x0a) comments (after.splitOn 0x0a)
  own : KeepsPieces ((plan.comments style).map Comment.octets) (Utf8.encode text) after ↔ '\r' ∉ text

theorem commented_of_interleaving {updated : List Units} {comments : List Comment}
    {after : List UInt8} (hperm : comments.Perm (plan.comments style))
    (hmix : Interleaving ((pieces (normalize text)).map units) (comments.map Comment.text) updated)
    (hwhole : ∀ line ∈ updated, 0x0d ∉ line) (htexts : ∀ line ∈ updated, IsText line)
    (hafter : after.splitOn 0x0a = updated.map (Utf8.encode ∘ ofUnits)) :
    Commented plan style text after := by
  have hpieces : Interleaving ((Utf8.encode (normalize text)).splitOn 0x0a)
      (comments.map Comment.octets) (after.splitOn 0x0a) := by
    have hown : (pieces (normalize text)).map ((Utf8.encode ∘ ofUnits) ∘ units) =
        (pieces (normalize text)).map Utf8.encode :=
      List.map_congr_left fun piece _ => congrArg Utf8.encode (ofUnits_units piece)
    have hadded : comments.map ((Utf8.encode ∘ ofUnits) ∘ Comment.text) =
        comments.map Comment.octets :=
      List.map_congr_left fun c _ => by simp only [Function.comp_apply, Comment.octets]
    have hmapped := hmix.map (Utf8.encode ∘ ofUnits)
    rwa [List.map_map, hown, List.map_map, hadded, ← Utf8.splitOn_encode, ← hafter] at hmapped
  have hcomments := hperm.map Comment.octets
  have hnone : ∀ piece ∈ after.splitOn 0x0a, 0x0d ∉ piece := by
    intro piece hpiece hmem
    rw [hafter] at hpiece
    obtain ⟨line, hline, rfl⟩ := List.mem_map.mp hpiece
    obtain ⟨s, rfl⟩ := htexts line hline
    rw [Function.comp_apply, ofUnits_units, Utf8.carriageReturn_mem_encode] at hmem
    exact hwhole _ hline (carriageReturn_mem_units.mpr hmem)
  refine ⟨⟨_, hcomments, hpieces⟩, fun hkeeps hreturn => ?_, fun hreturn => ?_⟩
  · have hbefore : 0x0d ∈ Utf8.encode text := Utf8.carriageReturn_mem_encode.mpr hreturn
    exact not_keepsPieces hbefore hnone hkeeps
  · rw [normalize_eq_self hreturn] at hpieces
    exact ⟨_, fun piece hpiece => hcomments.subset hpiece, hpieces⟩

theorem ends_annotate_encoded (hread : w.tree.read p.text = .ok (Utf8.encode text))
    (hplan : plan ≠ []) (hrules : OneLined plan) : (annotate p plan style).Ends w fun r t _ =>
      ((∀ g ∈ plan, ∀ r ∈ g.rules, IsText r) → ∃ after, r = .ok ((plan.comments style).length : Int) ∧
        t.read p.text = .ok after ∧ Commented plan style text after) ∧
      ((∃ g ∈ plan, ∃ r ∈ g.rules, ¬ IsText r) →
        (∃ f, r = .error (.fault f)) ∧ t.read p.text = .ok []) := by
  obtain ⟨lines, hlines, hunits⟩ := pieces_of_encoded hread
  obtain ⟨updated, happly, hwhole, htexts, comments, hperm, hmix⟩ :=
    exists_interleaving style hrules text
  rw [← hunits] at happly
  refine (ends_annotate_of_apply hplan hlines happly).mono fun r t _ ⟨_, h⟩ => ⟨fun hall => ?_, ?_⟩
  · have hne : updated ≠ [] := by
      rintro rfl
      exact map_pieces_ne_nil units (normalize text) (List.sublist_nil.mp hmix.sublist)
    obtain ⟨after, hencode, hafter⟩ := exists_octets_unlines hne (htexts.mpr hall)
      fun line hline => (hwhole line hline).1
    rw [hencode] at h
    obtain ⟨rfl, hwrite⟩ := h
    refine ⟨after, ?_, read_of_write hwrite, commented_of_interleaving hperm hmix
      (fun line hline => (hwhole line hline).2) (htexts.mpr hall) hafter⟩
    have hcount := hmix.perm.length_eq
    rw [List.length_append, ← hunits, List.length_map, List.length_map, hperm.length_eq] at hcount
    rw [hcount]
    exact congrArg Except.ok (by omega)
  · rintro ⟨g, hg, rule, hrule, hno⟩
    have hnot : ¬ IsText (unlines updated) :=
      fun hyes => hno (htexts.mp ((isText_unlines updated).mp hyes) g hg rule hrule)
    obtain ⟨run, hrun⟩ := exists_encodeUnits_error hnot
    rw [hrun] at h
    exact ⟨⟨_, h.1⟩, read_of_write h.2⟩

/-- Annotating puts the comments of a plan between the pieces of the text, and those are the pieces of
the file exactly if it had no CR; a rule whose name is no text costs the whole file. -/
theorem own_pieces (p : Path) (plan : Plan) (style : Style) (w : World σ) (text : List Char)
    (hread : w.tree.read p.text = .ok (Utf8.encode text)) (hplan : plan ≠ [])
    (hrules : OneLined plan) :
    let run := (annotate p plan style).runFrom w
    ((∀ g ∈ plan, ∀ r ∈ g.rules, IsText r) →
      ∃ after, run.1 = .ok ((plan.comments style).length : Int) ∧
        run.2.tree.read p.text = .ok after ∧ Commented plan style text after) ∧
    ((∃ g ∈ plan, ∃ r ∈ g.rules, ¬ IsText r) →
      (∃ f, run.1 = .error (.fault f)) ∧ run.2.tree.read p.text = .ok []) :=
  ends_annotate_encoded hread hplan hrules

/-- The project of `Sample` with another text as its stylesheet. -/
def sheetWorld (text : String) : World Unit :=
  ⟨Sample.tree.put ["a.css"] (.file (Sample.octets text)), (), []⟩

def samplePlan : Plan := [⟨1, 1, [unitsOf "r"]⟩]

theorem own_pieces_sample :
    let run := (annotate ⟨.absolute, ["a.css"]⟩ samplePlan .block).runFrom (sheetWorld "a{}\n")
    ∃ after, run.1 = .ok 2 ∧ run.2.tree.read "/a.css" = .ok after ∧
      Commented samplePlan .block "a{}\n".toList after :=
  (own_pieces ⟨.absolute, ["a.css"]⟩ samplePlan .block (sheetWorld "a{}\n") "a{}\n".toList
    (by decide +kernel) (by decide) (by unfold OneLined; decide)).1 fun g hg r hr => by
      obtain rfl := List.mem_singleton.mp hg
      obtain rfl := List.mem_singleton.mp hr
      exact isText_units _

/-- A stylesheet whose line ends with CR LF has no such line afterwards. -/
theorem line_end_rewritten_sample :
    let run := (annotate ⟨.absolute, ["a.css"]⟩ samplePlan .block).runFrom (sheetWorld "a{}\r\n")
    let after := Sample.octets "/* stylelint-disable r */\na{}\n/* stylelint-enable r */\n"
    run.1 = .ok 2 ∧ run.2.tree.read "/a.css" = .ok after ∧
      ¬ KeepsPieces ((samplePlan.comments .block).map Comment.octets) (Sample.octets "a{}\r\n")
        after := by
  exact ⟨by decide +kernel, by decide +kernel, not_keepsPieces (by decide) (by decide +kernel)⟩

end Workflow
end LintDebt
