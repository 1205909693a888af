import LintDebt.Violation

/-! # Violations that there can be

Every violation comes out of `make`, also one that is read from a report. So its last line is never
before its first, and this is all that sets it apart. -/

namespace LintDebt

namespace Schema.Checked

variable {α β : Type} {x : Checked α} {b : β}

theorem map_eq_good {f : α → β} : f <$> x = .good b ↔ ∃ a, x = .good a ∧ f a = b := by
  cases x with
  | good a => simp [Functor.map, ap, Checked.map]
  | bad is => simp [Functor.map, ap, Checked.map]

theorem seq_eq_good {f : Checked (α → β)} :
    f <*> x = .good b ↔ ∃ g a, f = .good g ∧ x = .good a ∧ g a = b := by
  cases f with
  | good g => cases x <;> simp [Seq.seq, ap, Checked.map]
  | bad is => cases x <;> simp [Seq.seq, ap]

end Schema.Checked

namespace Violation

variable {v : Violation}

/-- Holds for the violations that `make` makes. -/
def Made (v : Violation) : Prop :=
  ∃ severity line endLine rule text, v = make severity line endLine rule text

theorem made_iff : v.Made ↔ v.line ≤ v.endLine := by
  constructor
  · rintro ⟨severity, line, endLine, rule, text, rfl⟩
    exact line_le_endLine_make severity line endLine rule text
  · intro h
    refine ⟨v.severity, v.line, some v.endLine, v.rule, v.text, ?_⟩
    simp only [make, if_neg (Int.not_lt.mpr h)]

open Schema Schema.Checked in
theorem made_of_decode {j : Json} (h : decode j = .good v) : v.Made := by
  cases j with
  | object fields =>
    obtain ⟨_, text, hrule, -, hv⟩ := seq_eq_good.mp h
    obtain ⟨_, rule, hend, -, rfl⟩ := seq_eq_good.mp hrule
    obtain ⟨_, endLine, hline, -, rfl⟩ := seq_eq_good.mp hend
    obtain ⟨_, line, hseverity, -, rfl⟩ := seq_eq_good.mp hline
    obtain ⟨severity, -, rfl⟩ := map_eq_good.mp hseverity
    exact ⟨severity, line, endLine, rule, text, hv.symm⟩
  | _ => cases h

end Violation
end LintDebt
