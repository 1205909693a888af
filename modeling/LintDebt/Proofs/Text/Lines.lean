import LintDebt.IgnoreList
import LintDebt.Proofs.Text.Utf8

/-! # Lines that are read back

A line that was read holds no line end, so a text of such lines, each ended by LF, has these lines
again. Only a byte order mark at its start would not come back. -/

namespace LintDebt.Text

variable {s line : List Char} {lines : List String}

/-- Nothing between two separators is one, and nothing is there that was not in the whole. -/
theorem mem_splitOn {a : Char} {part : List Char} (h : part ∈ s.splitOn a) :
    a ∉ part ∧ ∀ c ∈ part, c ∈ s := by
  induction s generalizing part with
  | nil =>
    rw [List.splitOn_nil, List.mem_singleton] at h
    simp [h]
  | cons c s ih =>
    rw [List.splitOn_cons_eq_if_modifyHead] at h
    split at h
    · rcases List.mem_cons.mp h with rfl | h
      · simp
      · obtain ⟨hnot, hmem⟩ := ih h
        exact ⟨hnot, fun x hx => List.mem_cons_of_mem _ (hmem x hx)⟩
    · next hc =>
      obtain ⟨first, rest, hparts⟩ := List.exists_cons_of_ne_nil (List.splitOn_ne_nil a s)
      rw [hparts, List.modifyHead_cons, List.mem_cons] at h
      rw [hparts] at ih
      rcases h with rfl | h
      · obtain ⟨hnot, hmem⟩ := ih List.mem_cons_self
        refine ⟨?_, ?_⟩
        · simp only [beq_iff_eq] at hc
          simp [hnot, Ne.symm hc]
        · intro x hx
          rcases List.mem_cons.mp hx with rfl | hx
          · exact List.mem_cons_self
          · exact List.mem_cons_of_mem _ (hmem x hx)
      · obtain ⟨hnot, hmem⟩ := ih (List.mem_cons_of_mem _ h)
        exact ⟨hnot, fun x hx => List.mem_cons_of_mem _ (hmem x hx)⟩

theorem not_mem_normalize (s : List Char) : '\r' ∉ normalize s := by
  fun_induction normalize s with
  | case1 => simp
  | case2 s ih => simp [ih]
  | case3 c s _ ih =>
    rw [List.mem_cons, not_or]
    refine ⟨?_, ih⟩
    split
    · decide
    · next hc => exact Ne.symm hc

theorem normalize_eq_self (h : '\r' ∉ s) : normalize s = s := by
  fun_induction normalize s with
  | case1 => rfl
  | case2 s ih => simp at h
  | case3 c s _ ih =>
    rw [List.mem_cons, not_or] at h
    rw [if_neg (Ne.symm h.1), ih h.2]

/-- Holds for a line without a line end. -/
def Whole (line : List Char) : Prop := '\n' ∉ line ∧ '\r' ∉ line

theorem map_pieces_ne_nil {β : Type} (f : List Char → β) (s : List Char) : (pieces s).map f ≠ [] :=
  fun hnil => List.splitOn_ne_nil '\n' s (List.map_eq_nil_iff.mp hnil)

theorem whole_of_mem_pieces (h : line ∈ pieces (normalize s)) : Whole line := by
  obtain ⟨hnot, hmem⟩ := mem_splitOn h
  exact ⟨hnot, fun hr => not_mem_normalize s (hmem _ hr)⟩

theorem whole_of_mem_stream {octets : List UInt8} (h : line ∈ (stream octets).lines) : Whole line := by
  have hdrop : ∀ s, line ∈ (pieces (normalize s)).dropLast → Whole line :=
    fun s h => whole_of_mem_pieces (List.dropLast_subset _ h)
  rw [stream] at h
  split at h
  · rw [lines] at h
    split at h
    · exact hdrop _ h
    · exact whole_of_mem_pieces h
  · exact hdrop _ h
  · exact hdrop _ h

/-- The pieces of a text of lines that are each ended. -/
theorem pieces_renderLines (h : ∀ line ∈ lines, Whole line.toList) :
    pieces (IgnoreList.renderLines lines) = lines.map String.toList ++ [[]] := by
  induction lines with
  | nil => rfl
  | cons line rest ih =>
    obtain ⟨hline, hrest⟩ := List.forall_mem_cons.mp h
    have hcons : IgnoreList.renderLines (line :: rest) =
        line.toList ++ '\n' :: IgnoreList.renderLines rest := by
      simp [IgnoreList.renderLines]
    rw [hcons, pieces, List.splitOn_append_cons_self_of_not_mem hline.1]
    exact congrArg (line.toList :: ·) (ih hrest)

theorem not_mem_renderLines (h : ∀ line ∈ lines, Whole line.toList) :
    '\r' ∉ IgnoreList.renderLines lines := by
  intro hr
  obtain ⟨line, hline, hr⟩ := List.mem_flatMap.mp hr
  rcases List.mem_append.mp hr with hr | hr
  · exact (h line hline).2 hr
  · simp at hr

theorem lines_renderLines (h : ∀ line ∈ lines, Whole line.toList) :
    Text.lines (IgnoreList.renderLines lines) = lines.map String.toList := by
  rw [Text.lines, normalize_eq_self (not_mem_renderLines h), pieces_renderLines h]
  simp

theorem encode_byteOrderMark (rest : List UInt8) :
    Utf8.byteOrderMark ++ rest = String.utf8EncodeChar '\ufeff' ++ rest := rfl

/-- A text that begins with another character begins with other octets. -/
theorem not_mark_encode (h : s.head? ≠ some '\ufeff') :
    Utf8.byteOrderMark.isPrefixOf (Utf8.encode s) = false := by
  rw [Bool.eq_false_iff]
  intro hprefix
  obtain ⟨rest, hrest⟩ := List.isPrefixOf_iff_prefix.mp hprefix
  have hscan := Utf8.scan_encode s
  rw [← hrest, encode_byteOrderMark, Utf8.scan] at hscan
  obtain ⟨position, hpush⟩ := Utf8.scanFrom_encodeChar '\ufeff' 0 rest
  rw [hpush] at hscan
  have htext : '\ufeff' :: _ = s := congrArg Utf8.Scan.text hscan
  exact h (by rw [← htext]; rfl)

theorem mem_encode_of_mem (h : '\n' ∈ s) : 0x0a ∈ Utf8.encode s :=
  List.mem_flatMap.mpr ⟨'\n', h, by decide⟩

/-- Lines that are written out are read back. -/
theorem stream_renderLines (h : ∀ line ∈ lines, Whole line.toList)
    (hmark : ∀ line ∈ lines, line.toList.head? ≠ some '\ufeff') :
    stream (Utf8.encode (IgnoreList.renderLines lines)) = ⟨lines.map String.toList, none⟩ := by
  have hafter : afterMark (Utf8.encode (IgnoreList.renderLines lines)) =
      Utf8.encode (IgnoreList.renderLines lines) := by
    cases lines with
    | nil => rfl
    | cons line rest =>
      have hcons : IgnoreList.renderLines (line :: rest) =
          line.toList ++ '\n' :: IgnoreList.renderLines rest := by
        simp [IgnoreList.renderLines]
      have hlong : (Utf8.encode (IgnoreList.renderLines (line :: rest))).isPrefixOf
          Utf8.byteOrderMark = false := by
        rw [Bool.eq_false_iff]
        intro hprefix
        have hmem := (List.isPrefixOf_iff_prefix.mp hprefix).subset
          (mem_encode_of_mem (by simp [hcons]))
        revert hmem
        decide
      have hhead : (IgnoreList.renderLines (line :: rest)).head? ≠ some '\ufeff' := by
        have hline := hmark line List.mem_cons_self
        rw [hcons]
        cases hchars : line.toList with
        | nil => simp
        | cons c chars =>
          rw [hchars] at hline
          simpa using hline
      rw [afterMark, hlong, not_mark_encode hhead]
      rfl
  rw [stream, hafter, Utf8.scan_encode, ← lines_renderLines h]

end LintDebt.Text
