import LintDebt.Proofs.FileTree.Contents
import LintDebt.TextFile

/-! # Text files and the tree

What a success of an operation on text files says about the tree: a file that was read or measured
can be read, and to write a file is to write its octets. -/

namespace LintDebt.TextFile

variable {t t' : FileTree} {p : Path} {found : List UInt8}

theorem read_of_octets (h : octets t p = .ok found) : t.read p.text = .ok found := by
  rw [octets] at h
  obtain ⟨_, -, h⟩ := bind_eq_ok.mp h
  rwa [mapError_eq_ok] at h

theorem require_of_read (h : t.read p.text = .ok found) : require t p = .ok () := by
  rw [require, FileTree.existsAt, FileTree.read_eq_ok.mp h]
  rfl

theorem octets_of_read (h : t.read p.text = .ok found) : octets t p = .ok found := by
  rw [octets, require_of_read h, h]
  rfl

/-- The lines of a file that can be read. -/
theorem stream_of_read (h : t.read p.text = .ok found) : stream t p = .ok (Text.stream found) := by
  rw [stream, octets_of_read h]
  rfl

/-- The pieces of a file that can be read, if its octets are a text. -/
theorem pieces_of_read (h : t.read p.text = .ok found) : pieces t p = match Utf8.decode found with
    | .ok text => .ok ((Text.pieces (Text.normalize text)).map String.ofList)
    | .error e => .error (.tool (.unreadable (.undecodable e) p.text)) := by
  rw [pieces, read, octets_of_read h]
  simp only [bind, Except.bind, decode]
  cases Utf8.decode found <;> rfl

/-- The measures of a file that can be read, if its octets are a text. -/
theorem measure_of_read (h : t.read p.text = .ok found) : measure t p = match Utf8.decode found with
    | .ok text => .ok ⟨found.length, (Text.pieces (Text.normalize text)).length⟩
    | .error e => .error (.fault (.undecodable e)) := by
  rw [measure, require_of_read h, h]
  simp only [liftFault, mapError_ok, bind, Except.bind, decode]
  cases Utf8.decode found <;> rfl

/-- What is read at a path depends on what the path leads to. -/
theorem octets_congr (h : t.stat p.text = t'.stat p.text) : octets t p = octets t' p := by
  rw [octets, octets, require, require, FileTree.existsAt, FileTree.existsAt, FileTree.read,
    FileTree.read, h]

theorem read_of_lines {found : List String} (h : lines t p = .ok found) :
    ∃ old, t.read p.text = .ok old := by
  rw [lines, stream] at h
  obtain ⟨s, hs, -⟩ := bind_eq_ok.mp h
  obtain ⟨old, hold, -⟩ := bind_eq_ok.mp hs
  exact ⟨old, read_of_octets hold⟩

theorem read_of_pieces {found : List String} (h : pieces t p = .ok found) :
    ∃ old, t.read p.text = .ok old := by
  rw [pieces, read] at h
  obtain ⟨text, htext, -⟩ := bind_eq_ok.mp h
  obtain ⟨old, hold, -⟩ := bind_eq_ok.mp htext
  exact ⟨old, read_of_octets hold⟩

theorem read_of_measure {found : Stats} (h : measure t p = .ok found) :
    ∃ old, t.read p.text = .ok old := by
  rw [measure] at h
  obtain ⟨_, -, h⟩ := bind_eq_ok.mp h
  obtain ⟨old, hold, -⟩ := bind_eq_ok.mp h
  rw [mapError_eq_ok] at hold
  exact ⟨old, hold⟩

theorem replace_eq_ok : replace t p found = .ok t' ↔ t.write p.text found = .ok t' := by
  rw [replace, mapError_eq_ok]

theorem write_eq_ok {text : List Char} :
    write t p text = .ok t' ↔ t.write p.text (Utf8.encode text) = .ok t' :=
  replace_eq_ok

end LintDebt.TextFile
