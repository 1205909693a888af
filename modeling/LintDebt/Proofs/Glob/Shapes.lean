import LintDebt.Glob.Search
import LintDebt.Proofs.FileTree.Shapes

/-! # Searching trees that differ in contents only

A search asks a tree about names, directories and links, and at the end which paths lead to files. So a
pattern finds the same files whatever is in them. -/

namespace LintDebt

open FileTree

namespace FileTree.SameShape

open Glob

variable {t t' : FileTree}

theorem namesIn (h : SameShape t t') (directoriesOnly : Bool) (dir : String) :
    namesIn t directoriesOnly dir = namesIn t' directoriesOnly dir := by
  rw [Glob.namesIn, Glob.namesIn, h.list]

theorem under (h : SameShape t t') (directoriesOnly : Bool) (room : Nat) (dir : String) :
    under t directoriesOnly room dir = under t' directoriesOnly room dir := by
  induction room generalizing dir with
  | zero => rfl
  | succ room ih => simp only [Glob.under, h.namesIn, ih]

theorem select (h : SameShape t t') (directoriesOnly : Bool) (dir : String) (part : Part) :
    select t directoriesOnly dir part = select t' directoriesOnly dir part := by
  cases part with
  | plain name => simp only [Glob.select, h.isPresent]
  | deep => simp only [Glob.select, h.under]
  | wild hidden tokens => simp only [Glob.select, h.namesIn]
  | directory => simp only [Glob.select, h.isDirectory]

theorem selectAll (h : SameShape t t') (base : Path) (parts : List Part) (dirs : List String) :
    selectAll t base parts dirs = selectAll t' base parts dirs := by
  induction parts generalizing dirs with
  | nil => rfl
  | cons part rest ih => simp only [Glob.selectAll, h.select, ih]

theorem find (h : SameShape t t') (base : Path) (pattern : String) :
    find t base pattern = find t' base pattern := by
  simp only [Glob.find, h.isDirectory, h.isPresent, h.selectAll]

theorem resolvePattern (h : SameShape t t') (base : Path) (pattern : String) :
    resolvePattern t base pattern = resolvePattern t' base pattern := by
  simp only [Glob.resolvePattern, h.find, h.sameWays.resolve, h.isFile]

end FileTree.SameShape

namespace Glob

variable {t : FileTree} {base p : Path} {pattern : String} {files : List Path}

theorem exists_read_of_isFile {path : String} (h : t.isFile path = .ok true) :
    ∃ octets, t.read path = .ok octets := by
  rw [isFile] at h
  cases hs : t.stat path with
  | error e =>
    rw [hs] at h
    simp only [Except.map, holdsAt] at h
    split at h <;> cases h
  | ok n =>
    rw [hs] at h
    cases n with
    | file octets => exact ⟨octets, read_eq_ok.mpr hs⟩
    | directory | link _ => cases h

/-- What a pattern finds can be read. -/
theorem exists_read_of_resolvePattern (h : resolvePattern t base pattern = .ok files) (hp : p ∈ files) :
    ∃ octets, t.read p.text = .ok octets := by
  rw [resolvePattern] at h
  obtain ⟨found, -, h⟩ := bind_eq_ok.mp h
  obtain ⟨resolved, -, h⟩ := bind_eq_ok.mp h
  obtain ⟨kept, hkept, h⟩ := bind_eq_ok.mp h
  cases h
  obtain ⟨-, htest⟩ := of_mem_filterM hkept (List.mem_mergeSort.mp hp)
  rw [mapError_eq_ok] at htest
  exact exists_read_of_isFile htest

end Glob
end LintDebt
