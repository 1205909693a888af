import Mathlib.Data.List.Induction
import Mathlib.Data.List.Nodup

/-! # Lists without repetitions

Each element stays in the place where it first came. So what is left out of a list may be left out
before or after its repetitions are. -/

namespace LintDebt

theorem nodup_eraseDups {α : Type} [BEq α] [LawfulBEq α] (l : List α) : l.eraseDups.Nodup := by
  generalize hn : l.length = n
  induction n using Nat.strongRecOn generalizing l with
  | ind n ih =>
    cases l with
    | nil => simp
    | cons a rest =>
      have hle := List.length_filter_le (fun b => !b == a) rest
      have hlt : (rest.filter fun b => !b == a).length < n := by
        rw [List.length_cons] at hn
        omega
      rw [List.eraseDups_cons, List.nodup_cons]
      refine ⟨fun ha => ?_, ih _ hlt _ rfl⟩
      rw [List.mem_eraseDups, List.mem_filter] at ha
      simp at ha

theorem eraseDups_sublist {α : Type} [BEq α] [LawfulBEq α] (l : List α) : l.eraseDups.Sublist l := by
  induction l using List.reverseRecOn with
  | nil => simp
  | append_singleton l a ih =>
    rw [List.eraseDups_append]
    refine ih.append ?_
    by_cases ha : a ∈ l <;> simp [List.removeAll, ha, List.eraseDups_cons]

theorem eraseDups_of_nodup {α : Type} [BEq α] [LawfulBEq α] {l : List α} (h : l.Nodup) :
    l.eraseDups = l := by
  induction l with
  | nil => rfl
  | cons a rest ih =>
    obtain ⟨ha, hrest⟩ := List.nodup_cons.mp h
    have hothers : rest.filter (fun b => !b == a) = rest := by
      apply List.filter_eq_self.mpr
      intro b hb
      rw [Bool.not_eq_true', beq_eq_false_iff_ne]
      exact ne_of_mem_of_not_mem hb ha
    rw [List.eraseDups_cons, hothers, ih hrest]

theorem filter_eraseDups {α : Type} [BEq α] [LawfulBEq α] (p : α → Bool) (l : List α) :
    l.eraseDups.filter p = (l.filter p).eraseDups := by
  induction l using List.reverseRecOn with
  | nil => rfl
  | append_singleton l a ih =>
    rw [List.filter_append, List.eraseDups_append, List.eraseDups_append, List.filter_append, ih]
    congr 1
    by_cases hp : p a = true
    · by_cases ha : a ∈ l <;> simp [List.removeAll, hp, ha, List.eraseDups_cons]
    · by_cases ha : a ∈ l <;> simp [List.removeAll, hp, ha, List.eraseDups_cons]

/-- What is found first is found where it first came. -/
theorem findSome?_eraseDups {α β : Type} [BEq α] [LawfulBEq α] (f : α → Option β) (l : List α) :
    l.eraseDups.findSome? f = l.findSome? f := by
  induction l using List.reverseRecOn with
  | nil => rfl
  | append_singleton l a ih =>
    rw [List.eraseDups_append, List.findSome?_append, List.findSome?_append, ih]
    by_cases ha : a ∈ l
    · have hfirst : l.findSome? f = none → f a = none :=
        fun hnone => List.findSome?_eq_none_iff.mp hnone a ha
      cases hl : l.findSome? f <;> simp_all [List.removeAll]
    · simp [List.removeAll, ha, List.eraseDups_cons]

/-- A part of a list without repetitions is found again by what is in it. -/
theorem filter_mem_of_sublist {α : Type} [DecidableEq α] {part l : List α} (h : part.Sublist l)
    (hl : l.Nodup) : l.filter (· ∈ part) = part := by
  have hall : part.filter (· ∈ part) = part := List.filter_eq_self.mpr fun a ha => decide_eq_true ha
  have hsub : part.Sublist (l.filter (· ∈ part)) := by
    have hfilter := h.filter (· ∈ part)
    rwa [hall] at hfilter
  have hperm : part.Perm (l.filter (· ∈ part)) := by
    apply (List.perm_ext_iff_of_nodup (hl.sublist h) (hl.filter _)).mpr
    intro a
    rw [List.mem_filter, decide_eq_true_eq]
    exact (and_iff_right_of_imp fun ha => h.subset ha).symm
  exact (hsub.eq_of_length hperm.length_eq).symm

/-- A partial map that reaches each element once, and no other, rearranges its list. -/
theorem perm_filterMap {α β : Type} [DecidableEq β] {f : α → Option β} {as : List α} {bs : List β}
    (hnodup : bs.Nodup) (hone : ∀ b ∈ bs, ∃ a, as.filter (fun a => f a = some b) = [a])
    (hmem : ∀ a ∈ as, ∀ b, f a = some b → b ∈ bs) : (as.filterMap f).Perm bs := by
  refine (List.perm_ext_iff_of_nodup ?_ hnodup).mpr fun b => ?_
  · rw [List.nodup_iff_count_le_one]
    intro b
    rw [List.count_filterMap]
    by_cases hb : b ∈ bs
    · obtain ⟨a, ha⟩ := hone b hb
      rw [List.countP_eq_length_filter]
      simp only [Bool.beq_eq_decide_eq, ha, List.length_singleton, Nat.le_refl]
    · rw [List.countP_eq_zero.mpr fun a ha heq => hb (hmem a ha b (by simpa using heq))]
      exact Nat.zero_le 1
  · rw [List.mem_filterMap]
    constructor
    · rintro ⟨a, ha, hb⟩
      exact hmem a ha b hb
    · intro hb
      obtain ⟨a, ha⟩ := hone b hb
      have hin : a ∈ as.filter fun a => f a = some b := by simp [ha]
      obtain ⟨hin, hab⟩ := List.mem_filter.mp hin
      exact ⟨a, hin, by simpa using hab⟩

end LintDebt
