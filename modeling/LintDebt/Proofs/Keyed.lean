import Mathlib.Data.List.Basic

/-! # Lists with keys

An element that is set under its key takes the place of the one that is there, and goes to the end if
none is. So keys stay distinct, and keep their order. -/

namespace LintDebt

variable {α κ : Type} [BEq κ]

/-- Sets an element under its key. -/
def setUnder (key : α → κ) (l : List α) (a : α) : List α :=
  if l.any (key · == key a) then l.map fun b => if key b == key a then a else b else l ++ [a]

variable [LawfulBEq κ] {key : α → κ} {l : List α} {a b : α}

theorem any_key_iff : l.any (key · == key a) = true ↔ key a ∈ l.map key := by
  simp [List.any_eq_true]

theorem map_setUnder (key : α → κ) (l : List α) (a : α) : (setUnder key l a).map key =
    if key a ∈ l.map key then l.map key else l.map key ++ [key a] := by
  rw [setUnder]
  by_cases h : key a ∈ l.map key
  · rw [if_pos (any_key_iff.mpr h), if_pos h, List.map_map]
    apply List.map_congr_left
    intro b _
    by_cases hb : key b = key a <;> simp [hb]
  · rw [if_neg (fun ha => h (any_key_iff.mp ha)), if_neg h, List.map_append]
    rfl

theorem nodup_setUnder (h : (l.map key).Nodup) : ((setUnder key l a).map key).Nodup := by
  rw [map_setUnder]
  split
  · exact h
  · next hnew =>
    apply List.nodup_append.mpr
    refine ⟨h, by simp, fun x hx y hy hxy => hnew ?_⟩
    rw [← List.mem_singleton.mp hy, ← hxy]
    exact hx

/-- What was there under another key is there still. -/
theorem mem_setUnder (key : α → κ) (l : List α) (a : α) :
    b ∈ setUnder key l a ↔ b = a ∨ b ∈ l ∧ key b ≠ key a := by
  rw [setUnder]
  split
  · next hany =>
    rw [List.mem_map]
    constructor
    · rintro ⟨c, hc, rfl⟩
      by_cases hkey : key c = key a
      · simp [hkey]
      · simp [hkey, hc]
    · rintro (rfl | ⟨hb, hne⟩)
      · obtain ⟨c, hc, hkey⟩ := List.any_eq_true.mp hany
        exact ⟨c, hc, if_pos hkey⟩
      · exact ⟨b, hb, if_neg (by simpa using hne)⟩
  · next hany =>
    rw [List.mem_append, List.mem_singleton, or_comm]
    apply or_congr_right
    refine ⟨fun hb => ⟨hb, fun hkey => hany (any_key_iff.mpr ?_)⟩, And.left⟩
    rw [← hkey]
    exact List.mem_map_of_mem hb

end LintDebt
