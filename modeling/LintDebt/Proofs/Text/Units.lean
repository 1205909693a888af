import LintDebt.Proofs.Text.Lines
import Mathlib.Data.List.Basic

/-! # Unit sequences that are texts

A character is spelled by one unit or by a pair, and no unit of one spelling passes for a unit of
another. So unit sequences are read point by point and spelled back as they were, and those that
have octets are the spellings of texts (`encodeUnits_units`, `exists_encodeUnits_error`). A sequence
that is put together with characters between its parts is a text if all its parts are. -/

namespace LintDebt.Text

variable {u v : UInt16} {us a b : Units} {s : List Char} {octets : List UInt8}

theorem isHighSurrogate_iff : isHighSurrogate u = true ↔ 0xd800 ≤ u.toNat ∧ u.toNat ≤ 0xdbff := by
  simp [isHighSurrogate, UInt16.le_iff_toNat_le]

theorem isLowSurrogate_iff : isLowSurrogate u = true ↔ 0xdc00 ≤ u.toNat ∧ u.toNat ≤ 0xdfff := by
  simp [isLowSurrogate, UInt16.le_iff_toNat_le]

theorem flatMap_intercalate {α β : Type} (f : α → List β) (sep : List α) (parts : List (List α)) :
    (sep.intercalate parts).flatMap f =
      (sep.flatMap f).intercalate (parts.map (List.flatMap f)) := by
  induction parts with
  | nil => rfl
  | cons part rest ih =>
    cases rest with
    | nil => simp
    | cons next rest =>
      rw [List.intercalate_cons_cons, List.map_cons, List.map_cons, List.intercalate_cons_cons,
        ← List.map_cons, ← ih, List.flatMap_append, List.flatMap_append]

theorem mem_intercalate {α : Type} {a : α} {sep : List α} {parts : List (List α)}
    (h : a ∈ sep.intercalate parts) : a ∈ sep ∨ ∃ part ∈ parts, a ∈ part := by
  induction parts with
  | nil => cases h
  | cons part rest ih =>
    cases rest with
    | nil => simpa using Or.inr h
    | cons next rest =>
      rw [List.intercalate_cons_cons, List.mem_append, List.mem_append] at h
      rcases h with (h | h) | h
      · exact Or.inr ⟨part, List.mem_cons_self, h⟩
      · exact Or.inl h
      · rcases ih h with h | ⟨other, hother, h⟩
        · exact Or.inl h
        · exact Or.inr ⟨other, List.mem_cons_of_mem _ hother, h⟩

/-- Holds for a unit that is no half of a pair. -/
def Single (u : UInt16) : Prop := isHighSurrogate u = false ∧ isLowSurrogate u = false

theorem single_iff : Single u ↔ u.toNat < 0xd800 ∨ 0xdfff < u.toNat := by
  rw [Single, ← Bool.not_eq_true, ← Bool.not_eq_true, isHighSurrogate_iff, isLowSurrogate_iff]
  omega

theorem Single.ofUnit (h : Single u) : Point.ofUnit u = .char (Char.ofNat u.toNat) := by
  rw [Point.ofUnit, h.1, h.2]
  rfl

theorem points_cons (h : isHighSurrogate u = false ∨ ∀ v ∈ us.head?, isLowSurrogate v = false) :
    points (u :: us) = .ofUnit u :: points us := by
  cases us with
  | nil => rfl
  | cons v rest =>
    rw [points, if_neg]
    rcases h with h | h
    · simp [h]
    · simp [h v rfl]

theorem points_pair (hu : isHighSurrogate u = true) (hv : isLowSurrogate v = true) :
    points (u :: v :: us) = .char (joinSurrogates u v) :: points us := by
  rw [points, if_pos (by rw [hu, hv]; rfl)]

/-- A character is spelled by one unit that is no half of a pair, or by a pair. -/
theorem charUnits_cases (c : Char) :
    (∃ u, charUnits c = [u] ∧ Single u ∧ Char.ofNat u.toNat = c) ∨
      ∃ u v, charUnits c = [u, v] ∧ isHighSurrogate u = true ∧ isLowSurrogate v = true ∧
        joinSurrogates u v = c := by
  have hvalid : c.toNat < 0xd800 ∨ 0xdfff < c.toNat ∧ c.toNat < 0x110000 := c.valid
  have hchar : Char.ofNat c.toNat = c := Char.ofNat_toNat c
  rw [charUnits]
  revert hvalid hchar
  generalize c.toNat = n
  rintro hvalid rfl
  split
  · next hn =>
    have hunit : n.toUInt16.toNat = n := by
      rw [Nat.toUInt16_eq, UInt16.toNat_ofNat']
      omega
    exact Or.inl ⟨n.toUInt16, rfl, single_iff.mpr (by omega), by rw [hunit]⟩
  · next hn =>
    have hhigh : (0xd800 + (n - 0x10000) / 0x400).toUInt16.toNat =
        0xd800 + (n - 0x10000) / 0x400 := by
      rw [Nat.toUInt16_eq, UInt16.toNat_ofNat']
      omega
    have hlow : (0xdc00 + (n - 0x10000) % 0x400).toUInt16.toNat =
        0xdc00 + (n - 0x10000) % 0x400 := by
      rw [Nat.toUInt16_eq, UInt16.toNat_ofNat']
      omega
    refine Or.inr ⟨_, _, rfl, isHighSurrogate_iff.mpr (by omega), isLowSurrogate_iff.mpr (by omega),
      ?_⟩
    rw [joinSurrogates, hhigh, hlow]
    rw [show 0x10000 + (0xd800 + (n - 0x10000) / 0x400 - 0xd800) * 0x400 +
      (0xdc00 + (n - 0x10000) % 0x400 - 0xdc00) = n by omega]

/-- A character is read back from its units. -/
theorem points_charUnits (c : Char) (us : Units) :
    points (charUnits c ++ us) = .char c :: points us := by
  obtain ⟨u, hunits, hsingle, hchar⟩ | ⟨u, v, hunits, hu, hv, hjoin⟩ := charUnits_cases c
  · rw [hunits, List.singleton_append, points_cons (Or.inl hsingle.1), hsingle.ofUnit, hchar]
  · rw [hunits, List.cons_append, List.singleton_append, points_pair hu hv, hjoin]

theorem points_units_append (s : List Char) (us : Units) :
    points (units s ++ us) = s.map .char ++ points us := by
  induction s with
  | nil => rfl
  | cons c s ih =>
    rw [units, List.flatMap_cons, List.append_assoc, points_charUnits]
    exact congrArg (Point.char c :: ·) ih

theorem points_units (s : List Char) : points (units s) = s.map .char := by
  have h := points_units_append s []
  rwa [List.append_nil, points, List.append_nil] at h

/-- A unit that spells a character by itself occurs exactly where the character does. -/
theorem mem_units {c : Char} (hc : charUnits c = [u]) (hu : Single u) : u ∈ units s ↔ c ∈ s := by
  have hsame : ∀ d, u ∈ charUnits d → d = c := by
    intro d hd
    obtain ⟨v, hunits, -, hchar⟩ | ⟨v, v', hunits, hv, hv', -⟩ := charUnits_cases d
    · rw [hunits, List.mem_singleton] at hd
      subst hd
      have hpoints := points_charUnits d []
      rw [hunits, ← hc, points_charUnits] at hpoints
      exact (Point.char.inj (List.cons.inj hpoints).1).symm
    · rw [hunits, List.mem_cons, List.mem_singleton] at hd
      rcases hd with rfl | rfl
      · exact absurd hv (Bool.eq_false_iff.mp hu.1)
      · exact absurd hv' (Bool.eq_false_iff.mp hu.2)
  rw [units, List.mem_flatMap]
  constructor
  · rintro ⟨d, hd, hmem⟩
    rwa [← hsame d hmem]
  · intro h
    exact ⟨c, h, by rw [hc]; exact List.mem_cons_self⟩

theorem lineFeed_mem_units : 0x0a ∈ units s ↔ '\n' ∈ s := mem_units rfl ⟨rfl, rfl⟩

theorem carriageReturn_mem_units : 0x0d ∈ units s ↔ '\r' ∈ s := mem_units rfl ⟨rfl, rfl⟩

theorem whole_iff_units : Whole s ↔ 0x0a ∉ units s ∧ 0x0d ∉ units s := by
  rw [Whole, lineFeed_mem_units, carriageReturn_mem_units]

/-- What follows does not matter if it does not begin with the second half of a pair. -/
theorem points_append (h : ∀ v ∈ b.head?, isLowSurrogate v = false) :
    points (a ++ b) = points a ++ points b := by
  fun_induction points a with
  | case1 => rfl
  | case2 u v rest hpair ih =>
    rw [Bool.and_eq_true] at hpair
    rw [List.cons_append, List.cons_append, points_pair hpair.1 hpair.2, ih, List.cons_append]
  | case3 u v rest hpair ih =>
    have hnext : isHighSurrogate u = false ∨ ∀ w ∈ (v :: rest ++ b).head?, isLowSurrogate w = false := by
      rw [Bool.not_eq_true, Bool.and_eq_false_iff] at hpair
      simpa using hpair
    rw [List.cons_append, points_cons hnext, ih, List.cons_append]
  | case4 u => exact points_cons (Or.inr h)

theorem charUnits_of_single (h : Single u) : charUnits (Char.ofNat u.toNat) = [u] := by
  have hu := u.toNat_lt
  have hrange := single_iff.mp h
  have hvalid : u.toNat.isValidChar := by
    rw [Nat.isValidChar]
    omega
  have hchar : (Char.ofNat u.toNat).toNat = u.toNat := by
    rw [Char.ofNat, dif_pos hvalid]
    rfl
  rw [charUnits, hchar, if_pos hu]
  simp

theorem charUnits_joinSurrogates (hu : isHighSurrogate u = true) (hv : isLowSurrogate v = true) :
    charUnits (joinSurrogates u v) = [u, v] := by
  rw [isHighSurrogate_iff] at hu
  rw [isLowSurrogate_iff] at hv
  have hvalid : (0x10000 + (u.toNat - 0xd800) * 0x400 + (v.toNat - 0xdc00)).isValidChar := by
    rw [Nat.isValidChar]
    omega
  have hchar : (joinSurrogates u v).toNat =
      0x10000 + (u.toNat - 0xd800) * 0x400 + (v.toNat - 0xdc00) := by
    rw [joinSurrogates, Char.ofNat, dif_pos hvalid]
    rfl
  have hhigh : 0xd800 + (0x10000 + (u.toNat - 0xd800) * 0x400 + (v.toNat - 0xdc00) - 0x10000) / 0x400 =
      u.toNat := by
    omega
  have hlow : 0xdc00 + (0x10000 + (u.toNat - 0xd800) * 0x400 + (v.toNat - 0xdc00) - 0x10000) % 0x400 =
      v.toNat := by
    omega
  rw [charUnits, hchar, if_neg (by omega)]
  simp only [hhigh, hlow]
  simp

/-- Units are spelled back from what they spell. -/
theorem flatMap_units_points (us : Units) : (points us).flatMap Point.units = us := by
  have hunit : ∀ u, (Point.ofUnit u).units = [u] := by
    intro u
    by_cases h : Single u
    · rw [h.ofUnit]
      exact charUnits_of_single h
    · rw [Single, ← Bool.or_eq_false_iff, Bool.not_eq_false] at h
      rw [Point.ofUnit, if_pos h]
      rfl
  fun_induction points us with
  | case1 => rfl
  | case2 u v rest hpair ih =>
    rw [Bool.and_eq_true] at hpair
    rw [List.flatMap_cons, ih]
    exact congrArg (· ++ rest) (charUnits_joinSurrogates hpair.1 hpair.2)
  | case3 u v rest hpair ih => rw [List.flatMap_cons, ih, hunit, List.singleton_append]
  | case4 u => rw [List.flatMap_singleton, hunit]

/-- Holds for a unit sequence in which every surrogate has its partner. -/
def IsText (us : Units) : Prop := ∃ s, us = units s

theorem isText_iff : IsText us ↔ ∀ p ∈ points us, ∃ c, p = .char c := by
  constructor
  · rintro ⟨s, rfl⟩ p hp
    rw [points_units] at hp
    obtain ⟨c, -, rfl⟩ := List.mem_map.mp hp
    exact ⟨c, rfl⟩
  · intro h
    refine ⟨(points us).map fun p => p.char?.getD '\ufffd', ?_⟩
    conv => lhs; rw [← flatMap_units_points us]
    rw [units, List.flatMap_map]
    refine List.flatMap_congr fun p hp => ?_
    obtain ⟨c, rfl⟩ := h p hp
    rfl

/-- A sequence is a text if it is one up to a unit that is no second half, and from there on. -/
theorem isText_append (h : ∀ v ∈ b.head?, isLowSurrogate v = false) :
    IsText (a ++ b) ↔ IsText a ∧ IsText b := by
  simp only [isText_iff, points_append h, List.mem_append, or_imp, forall_and]

theorem isText_units (s : List Char) : IsText (units s) := ⟨s, rfl⟩

theorem isText_units_append (s : List Char) : IsText (units s ++ us) ↔ IsText us := by
  have hchars : ∀ p ∈ s.map Point.char, ∃ c, p = .char c := by
    intro p hp
    obtain ⟨c, -, rfl⟩ := List.mem_map.mp hp
    exact ⟨c, rfl⟩
  rw [isText_iff, isText_iff, points_units_append]
  simp only [List.mem_append, or_imp, forall_and]
  exact and_iff_right hchars

/-- Parts with a character between them are a text if all of them are. -/
theorem isText_intercalate {c : Char} (hc : charUnits c = [u]) (hu : Single u) (parts : List Units) :
    IsText ([u].intercalate parts) ↔ ∀ part ∈ parts, IsText part := by
  induction parts with
  | nil =>
    rw [List.intercalate_nil]
    exact iff_of_true ⟨[], rfl⟩ (by simp)
  | cons part rest ih =>
    cases rest with
    | nil => simp
    | cons next rest =>
      have hhead : ∀ v ∈ ([u] ++ [u].intercalate (next :: rest)).head?, isLowSurrogate v = false := by
        intro v hv
        cases hv
        exact hu.2
      have hunit : [u] = units [c] := by rw [units, List.flatMap_singleton, hc]
      rw [List.intercalate_cons_cons, List.append_assoc, isText_append hhead, hunit,
        isText_units_append, ← hunit, ih, List.forall_mem_cons (l := next :: rest)]

theorem units_intercalate {c : Char} (hc : charUnits c = [u]) (parts : List (List Char)) :
    units ([c].intercalate parts) = [u].intercalate (parts.map units) := by
  rw [units, flatMap_intercalate, List.flatMap_singleton, hc]
  rfl

theorem map_unitsOf (parts : List (List Char)) :
    (parts.map String.ofList).map unitsOf = parts.map units := by
  rw [List.map_map]
  exact List.map_congr_left fun part _ => by rw [Function.comp_apply, unitsOf, String.toList_ofList]

theorem loneRun?_eq_none (position : Nat) {points : List Point} :
    loneRun? (fun _ => false) position points = none ↔ ∀ p ∈ points, ∃ c, p = .char c := by
  induction points generalizing position with
  | nil => simp [loneRun?]
  | cons p rest ih =>
    cases p with
    | char c => simp [loneRun?, ih]
    | lone u => simp [loneRun?]

theorem ofUnits_units (s : List Char) : ofUnits (units s) = s := by
  rw [ofUnits, points_units, List.map_map]
  exact (List.map_congr_left fun _ _ => rfl).trans (List.map_id s)

/-- The octets of a text. -/
theorem encodeUnits_units (s : List Char) : Utf8.encodeUnits (units s) = .ok (Utf8.encode s) := by
  have hnone : loneRun? (fun _ => false) 0 (points (units s)) = none :=
    (loneRun?_eq_none 0).mpr (isText_iff.mp (isText_units s))
  rw [Utf8.encodeUnits, hnone]
  exact congrArg (Except.ok ∘ Utf8.encode) (ofUnits_units s)

/-- There are no octets for what is no text. -/
theorem exists_encodeUnits_error (h : ¬ IsText us) : ∃ run, Utf8.encodeUnits us = .error run := by
  rw [isText_iff, ← loneRun?_eq_none 0] at h
  obtain ⟨run, hrun⟩ := Option.ne_none_iff_exists'.mp h
  exact ⟨run, by rw [Utf8.encodeUnits, hrun]⟩

end LintDebt.Text
