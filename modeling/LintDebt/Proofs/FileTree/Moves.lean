import LintDebt.Proofs.FileTree.Entries

/-! # Moving an entry within its directory

What a rename does when both names are in one directory, and what becomes of a walk after it. The
move back looks the directory up again, in a tree in which the entry stands under its other name, and
an entry that is a link can be walked through there. `walk_back` says that this leads to no other
directory, as long as the entry leads to a file. -/

namespace LintDebt.FileTree

variable {t : FileTree} {directory : Location} {a b : String} {n : Node}

theorem concat_ne_nil : directory ++ [a] ≠ [] := by simp

theorem isPrefixOf_concat_self : (directory ++ [a]).isPrefixOf directory = false := by
  rw [Bool.eq_false_iff]
  intro h
  have hle := (List.isPrefixOf_iff_prefix.mp h).length_le
  simp only [List.length_append, List.length_singleton] at hle
  omega

theorem relocate_of_ne_directory {source target : Location} (hn : n ≠ .directory) :
    t.relocate source target n = (t.erase source).put target n := by
  cases n with
  | directory => exact absurd rfl hn
  | file octets => rfl
  | link target => rfl

/-- A rename of a file or a link within a directory. -/
theorem renameOn_sibling {source target : Route}
    (hs : t.splitLast source = .ok (directory, some a))
    (ht : t.splitLast target = .ok (directory, some b)) (hab : a ≠ b)
    (hsize : a.utf8ByteSize ≤ nameLimit) (hslash : source.slashed = false ∧ target.slashed = false)
    (hn : t.node? (directory ++ [a]) = some n) (hdir : n ≠ .directory) :
    t.renameOn source target =
      if nameLimit < b.utf8ByteSize then .error .nameTooLong
      else if t.node? (directory ++ [b]) = some .directory then .error .isDirectory
      else .ok ((t.erase (directory ++ [a])).put (directory ++ [b]) n) := by
  have hne : directory ++ [a] ≠ directory ++ [b] := by simpa using hab
  rw [renameOn, hs, ht]
  simp only [bind, Except.bind, Nat.not_lt.mpr hsize, ↓reduceIte, hn]
  by_cases hlong : nameLimit < b.utf8ByteSize
  · simp only [hlong, ↓reduceIte]
    rfl
  · simp only [hlong, ↓reduceIte, hdir, decide_false, Bool.not_false, hslash.1, hslash.2,
      Bool.false_eq_true, or_self, and_false, isPrefixOf_concat_self, hne,
      relocate_of_ne_directory hdir]
    cases hb : t.node? (directory ++ [b]) with
    | none => rfl
    | some m => cases m <;> rfl

/-- Where an entry leads to: a file, which it is itself or which its link leads to. -/
def LeadsToFile (t : FileTree) (directory : Location) (n : Node) : Prop :=
  ∀ target, n = .link target → ∃ k l octets,
    t.walk true k (if (Route.parse target).absolute then [] else directory)
      (Route.parse target).steps = .ok (.found l) ∧ t.node? l = some (.file octets)

/-- A directory that is found after a move is found without the entry that was moved, and was found
before. -/
theorem walk_back (ht : t.IsTree) (hself : t.node? directory = some .directory)
    (hn : n ≠ .directory) (hfile : t.LeadsToFile directory n) {l : Location}
    (hl : t.node? l = some .directory) (hne : l ≠ directory ++ [b]) : ∀ k p names,
    ((t.erase (directory ++ [a])).put (directory ++ [b]) n).walk true k p names =
      .ok (.found l) →
    ((t.erase (directory ++ [a])).erase (directory ++ [b])).walk true k p names = .ok (.found l) ∧
      t.walk true k p names = .ok (.found l) := by
  have hd : directory ++ [b] ≠ [] := concat_ne_nil
  have hnode : ((t.erase (directory ++ [a])).put (directory ++ [b]) n).node? (directory ++ [b]) =
      some n := by
    rw [node?_put hd, if_pos rfl]
  intro k
  induction k using Nat.strongRecOn with
  | _ k ih =>
    intro p names h
    rcases walk_erase_or hd (by rw [hnode]; simpa using hn) k p names h with
      h | h | ⟨target, k', rest, htarget, hk', h⟩
    · rw [put_erase] at h
      exact ⟨h, walk_of_erase concat_ne_nil _ _ _ (walk_of_erase hd _ _ _ h)⟩
    · exact absurd h hne
    · -- The walk goes through the moved link, so it goes on from the file that this leads to.
      rw [hnode] at htarget
      cases htarget
      replace h := (ih k' hk' _ _ h).2
      obtain ⟨j, l', octets, hwalk, hl'⟩ := hfile target rfl
      rw [List.dropLast_concat] at h
      have hstart : t.node? (if (Route.parse target).absolute then [] else directory) =
          some .directory := by
        split
        · rfl
        · exact hself
      rcases rest with _ | ⟨name, rest⟩
      · rw [List.append_nil] at h
        cases walk_unique h hwalk
        rw [hl] at hl'
        cases hl'
      · exact absurd h (ht.walk_past_file hstart hwalk hl' (List.cons_ne_nil name rest) _)

end LintDebt.FileTree
