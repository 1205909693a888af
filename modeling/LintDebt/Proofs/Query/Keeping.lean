import LintDebt.Proofs.FileTree.Canonical
import LintDebt.Proofs.Query.Asking
import LintDebt.Proofs.Query.Hiding

/-! # A list that is kept through questions

As long as the linter leaves the two places of the list alone, every question finds the list at its
place and puts it back there, and the linter sees it at its hidden path only. `Kept` is the
invariant that goes from question to question. A linter that also reports nothing on the list itself
is discreet; that matters only to a run that writes to the files of its reports. -/

namespace LintDebt

open FileTree Query

/-- Holds if a call leaves a tree in which the two places of the list are as they were. -/
structure Call.LeavesAlone (c : Call) (list hidden : Path) : Prop where
  tree : c.before.IsTree → c.after.IsTree
  place : c.after.lstat list.text = c.before.lstat list.text
  aside : c.after.lstat hidden.text = c.before.lstat hidden.text

/-- Holds if no report of a call is about the file at a path. -/
def Call.Spares (c : Call) (base list : Path) : Prop :=
  ∀ reports, c.answer = .ok reports → ∀ r ∈ reports, ∀ p, sourcePath c.after base r.source = .ok p →
    c.after.target? p.text ≠ c.after.target? list.text

/-- Holds if a call leaves the list alone and reports nothing on it. -/
structure Call.Discreet (c : Call) (base list hidden : Path) : Prop
    extends c.LeavesAlone list hidden where
  spares : c.Spares base list

variable {t t' : FileTree} {base list hidden : Path} {octets : List UInt8} {config : Json.Fields}
  {files : List Path} {calls : List Call} {r : Except Failure (List Report)}
  {reports : List Report}

instance {c : Call} : Decidable (c.LeavesAlone list hidden) :=
  decidable_of_iff ((c.before.IsTree → c.after.IsTree) ∧
      c.after.lstat list.text = c.before.lstat list.text ∧
      c.after.lstat hidden.text = c.before.lstat hidden.text)
    ⟨fun h => ⟨h.1, h.2.1, h.2.2⟩, fun h => ⟨h.tree, h.place, h.aside⟩⟩

theorem Call.spares_iff {c : Call} : c.Spares base list ↔
    ∀ r ∈ (c.answer.toOption).getD [], ∀ p ∈ (sourcePath c.after base r.source).toOption,
      c.after.target? p.text ≠ c.after.target? list.text := by
  constructor
  · intro h r hr p hp
    rcases ha : c.answer with f | reports
    · simp [ha, Except.toOption] at hr
    rw [ha] at hr
    refine h reports ha r hr p ?_
    cases hs : sourcePath c.after base r.source <;> rw [hs] at hp <;> cases hp
    rfl
  · intro h reports ha r hr p hp
    refine h r ?_ p ?_
    · rw [ha]
      exact hr
    · rw [hp]
      rfl

instance {c : Call} : Decidable (c.Spares base list) := decidable_of_iff _ Call.spares_iff.symm

instance {c : Call} : Decidable (c.Discreet base list hidden) :=
  decidable_of_iff (c.LeavesAlone list hidden ∧ c.Spares base list)
    ⟨fun h => ⟨h.1, h.2⟩, fun h => ⟨h.toLeavesAlone, h.spares⟩⟩

theorem Call.LeavesAlone.outOfSight {c : Call} (h : c.LeavesAlone list hidden)
    (hbefore : OutOfSight c.before list hidden octets) :
    OutOfSight c.after list hidden octets := by
  refine ⟨h.tree hbefore.tree, ?_, h.aside.trans hbefore.hidden⟩
  have hlist := hbefore.list
  unfold FileTree.isPresent at hlist ⊢
  rwa [h.place]

namespace Query

/-- One question about a list at its place. -/
theorem Asking.inPlace (h : Asking list config files t calls r t')
    (hplace : InPlace t list hidden octets) (hhidden : hiddenPath list = .ok hidden)
    (hcalls : ∀ c ∈ calls, c.LeavesAlone list hidden) :
    InPlace t' list hidden octets ∧
      ∀ c ∈ calls, OutOfSight c.before list hidden octets ∧ SameWays c.after t' := by
  obtain ⟨directory, name, hentry, hn⟩ := hplace.tree.exists_entry hplace.list nofun
  cases h with
  | idle hfiles => exact ⟨hplace, by simp⟩
  | refused hfiles e => exact ⟨hplace, by simp⟩
  | «open» hfiles c hasked hlist hbefore =>
    rw [hentry.existsAt hn] at hlist
    cases hlist
  | hidden hfiles c hasked hidden' hlist hhidden' haway t'' hback =>
    rw [hhidden] at hhidden'
    cases hhidden'
    obtain ⟨hsight, -⟩ := hplace.outOfSight hhidden haway
    have hafter := (hcalls c (by simp)).outOfSight hsight
    obtain ⟨t₁, hback', hplace', hways⟩ := hafter.inPlace hentry hhidden
    rw [hback'] at hback
    cases hback
    exact ⟨hplace', by simpa using ⟨hsight, hways⟩⟩
  | stranded hfiles c hasked hidden' hlist hhidden' haway e hback =>
    rw [hhidden] at hhidden'
    cases hhidden'
    obtain ⟨hsight, -⟩ := hplace.outOfSight hhidden haway
    have hafter := (hcalls c (by simp)).outOfSight hsight
    obtain ⟨t₁, hback', -, -⟩ := hafter.inPlace hentry hhidden
    rw [hback'] at hback
    cases hback

theorem Asking.answer (h : Asking list config files t calls (.ok reports) t') :
    files = [] ∧ calls = [] ∧ reports = [] ∧ t' = t ∨
      ∃ c, calls = [c] ∧ c.files = files.map Path.text ∧ c.answer = .ok reports := by
  cases h.toAnswered with
  | idle hfiles => exact Or.inl ⟨hfiles, rfl, rfl, rfl⟩
  | «open» _ c hasked _ _ _ hanswer => exact Or.inr ⟨c, rfl, hasked.2, hanswer⟩
  | hidden _ c hasked _ _ _ _ _ _ _ hanswer => exact Or.inr ⟨c, rfl, hasked.2, hanswer⟩

/-- Holds if some calls ago the list was at its place and still is, unless one of all the calls was
not discreet. -/
def Kept (base list hidden : Path) (octets : List UInt8) (earlier : List Call) (t : FileTree)
    (calls : List Call) : Prop :=
  ∃ later, calls = earlier ++ later ∧ ((∀ c ∈ calls, c.Discreet base list hidden) →
    InPlace t list hidden octets ∧ ∀ c ∈ later, OutOfSight c.before list hidden octets)

namespace Kept

variable {earlier : List Call}

theorem inPlace (h : Kept base list hidden octets earlier t calls)
    (hcalls : ∀ c ∈ calls, c.Discreet base list hidden) : InPlace t list hidden octets := by
  obtain ⟨_, -, h⟩ := h
  exact (h hcalls).1

theorem refl (h : (∀ c ∈ earlier, c.Discreet base list hidden) → InPlace t list hidden octets) :
    Kept base list hidden octets earlier t earlier :=
  ⟨[], (List.append_nil _).symm, fun hcalls => ⟨h hcalls, by simp⟩⟩

/-- A tree may change between two questions, if the list stays at its place. -/
theorem between (h : Kept base list hidden octets earlier t calls)
    (h' : (∀ c ∈ calls, c.Discreet base list hidden) → InPlace t' list hidden octets) :
    Kept base list hidden octets earlier t' calls := by
  obtain ⟨later, hlater, h⟩ := h
  exact ⟨later, hlater, fun hcalls => ⟨h' hcalls, (h hcalls).2⟩⟩

theorem asking {asked : List Call} (h : Kept base list hidden octets earlier t calls)
    (hhidden : hiddenPath list = .ok hidden) (hask : Asking list config files t asked r t') :
    Kept base list hidden octets earlier t' (calls ++ asked) := by
  obtain ⟨later, rfl, h⟩ := h
  refine ⟨later ++ asked, List.append_assoc _ _ _, fun hcalls => ?_⟩
  obtain ⟨hplace, hlater⟩ := h fun c hc => hcalls c (List.mem_append_left _ hc)
  obtain ⟨hplace', hsights⟩ := hask.inPlace hplace hhidden
    fun c hc => (hcalls c (List.mem_append_right _ hc)).toLeavesAlone
  refine ⟨hplace', fun c hc => ?_⟩
  rcases List.mem_append.mp hc with hc | hc
  · exact hlater c hc
  · exact (hsights c hc).1

end Kept
end Query
end LintDebt
