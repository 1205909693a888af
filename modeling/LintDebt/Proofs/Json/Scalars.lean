import LintDebt.Json.Reader
import LintDebt.Json.Writer
import LintDebt.Proofs.Text.Units
import Mathlib.Algebra.Group.Nat.Defs
import Mathlib.Data.List.TakeDrop

/-! # Strings and integers that are written and read back

A unit is written as a printable character or as an escape, and each way to write it is one step of
the reader of strings (`string?_unitAscii`). An integer is written with the digits of its absolute
value, without a zero in front, so that its reader takes all of them (`number?_intText`); it refuses
none whose digits it took before. -/

namespace LintDebt.Json

open Text

variable {u : UInt16} {us : Units} {opening rest left : List Char} {c x : Char} {n : Nat}

/-- Holds for a printable character of ASCII. -/
def IsAscii (c : Char) : Prop := 0x20 ≤ c.toNat ∧ c.toNat < 0x7f

instance (c : Char) : Decidable (IsAscii c) :=
  inferInstanceAs (Decidable (0x20 ≤ c.toNat ∧ c.toNat < 0x7f))

/-! ### Strings -/

theorem hexValue?_digitChar : ∀ d < 16, hexValue? (Nat.digitChar d) = some d := by decide

theorem hexDigits_four (n : Nat) : hexDigits n 4 = [Nat.digitChar (n / 16 / 16 / 16 % 16),
    Nat.digitChar (n / 16 / 16 % 16), Nat.digitChar (n / 16 % 16), Nat.digitChar (n % 16)] := rfl

/-- Four digits hold all of a unit. -/
theorem hexUnit?_digits (u : UInt16) : hexUnit? (Nat.digitChar (u.toNat / 16 / 16 / 16 % 16))
    (Nat.digitChar (u.toNat / 16 / 16 % 16)) (Nat.digitChar (u.toNat / 16 % 16))
    (Nat.digitChar (u.toNat % 16)) = some u := by
  have hu := u.toNat_lt
  have hvalue : ((u.toNat / 16 / 16 / 16 % 16 * 16 + u.toNat / 16 / 16 % 16) * 16 +
      u.toNat / 16 % 16) * 16 + u.toNat % 16 = u.toNat := by omega
  rw [hexUnit?, hexValue?_digitChar _ (Nat.mod_lt _ (by decide)),
    hexValue?_digitChar _ (Nat.mod_lt _ (by decide)), hexValue?_digitChar _ (Nat.mod_lt _ (by decide)),
    hexValue?_digitChar _ (Nat.mod_lt _ (by decide))]
  simp only [bind, Option.bind, hvalue]
  simp

theorem string?_plain (hquote : c ≠ '"') (hslash : c ≠ '\\') (hc : 0x20 ≤ c.toNat)
    (h : string? opening rest = .ok (us, left)) :
    string? opening (c :: rest) = .ok (charUnits c ++ us, left) := by
  rw [string?, if_neg (by omega), h]
  · rfl
  all_goals simp [hquote, hslash]

theorem string?_escape (hc : c ≠ 'u') (hescape : escape? c = some x)
    (h : string? opening rest = .ok (us, left)) :
    string? opening ('\\' :: c :: rest) = .ok (charUnits x ++ us, left) := by
  rw [string?, hescape]
  · simp only [h, Except.map]
  all_goals simp [hc]

theorem string?_hex {a b c d next : Char} (hunit : hexUnit? a b c d = some u)
    (h : string? opening (next :: rest) = .ok (us, left)) :
    string? opening ('\\' :: 'u' :: a :: b :: c :: d :: next :: rest) = .ok (u :: us, left) := by
  rw [string?, hunit]
  simp only [h, Except.map]

/-- The escape of a unit stands for a character of this unit, or gives its number. -/
theorem unitEscape_cases (u : UInt16) :
    (∃ c x, c ≠ 'u' ∧ escape? c = some x ∧ charUnits x = [u] ∧ unitEscape u = ['\\', c]) ∨
      unitEscape u = '\\' :: 'u' :: hexDigits u.toNat 4 := by
  rw [unitEscape]
  split
  · next hu => subst hu; exact Or.inl ⟨'b', '\x08', by decide, rfl, rfl, rfl⟩
  split
  · next hu => subst hu; exact Or.inl ⟨'t', '\t', by decide, rfl, rfl, rfl⟩
  split
  · next hu => subst hu; exact Or.inl ⟨'n', '\n', by decide, rfl, rfl, rfl⟩
  split
  · next hu => subst hu; exact Or.inl ⟨'f', '\x0c', by decide, rfl, rfl, rfl⟩
  split
  · next hu => subst hu; exact Or.inl ⟨'r', '\r', by decide, rfl, rfl, rfl⟩
  split
  · next hu => subst hu; exact Or.inl ⟨'"', '"', by decide, rfl, rfl, rfl⟩
  split
  · next hu => subst hu; exact Or.inl ⟨'\\', '\\', by decide, rfl, rfl, rfl⟩
  · exact Or.inr rfl

theorem toNat_ofNat_unit (hu : u.toNat ≤ 0x7e) : (Char.ofNat u.toNat).toNat = u.toNat := by
  rw [Char.ofNat, dif_pos (by rw [Nat.isValidChar]; omega)]
  rfl

/-- A unit is written as an escape, or as the character that it is if that is printable. -/
theorem unitAscii_cases (u : UInt16) : unitAscii u = unitEscape u ∨ ∃ c, c ≠ '"' ∧ c ≠ '\\' ∧
    IsAscii c ∧ charUnits c = [u] ∧ unitAscii u = [c] := by
  rw [unitAscii]
  split
  · next hu =>
    obtain ⟨hlow, hhigh, hquote, hslash⟩ := hu
    rw [UInt16.le_iff_toNat_le] at hlow hhigh
    have hlow : 0x20 ≤ u.toNat := hlow
    have hhigh : u.toNat ≤ 0x7e := hhigh
    have hc := toNat_ofNat_unit hhigh
    have hne : ∀ v : UInt16, u ≠ v → u.toNat ≠ v.toNat := fun v hv heq => hv (UInt16.toNat_inj.mp heq)
    refine Or.inr ⟨_, ?_, ?_, ⟨by omega, by omega⟩, ?_, rfl⟩
    · intro heq
      rw [heq] at hc
      exact hne _ hquote hc.symm
    · intro heq
      rw [heq] at hc
      exact hne _ hslash hc.symm
    · exact charUnits_of_single (single_iff.mpr (Or.inl (by omega)))
  · exact Or.inl rfl

/-- What one unit is written as is one step of the reader. -/
theorem string?_unitAscii (h : string? opening rest = .ok (us, left)) :
    string? opening (unitAscii u ++ rest) = .ok (u :: us, left) := by
  rcases unitAscii_cases u with hu | ⟨c, hquote, hslash, hc, hunits, hu⟩
  · rw [hu]
    rcases unitEscape_cases u with ⟨c, x, hc, hescape, hunits, hu⟩ | hu
    · rw [hu, ← List.singleton_append (l := us), ← hunits]
      exact string?_escape hc hescape h
    · -- The reader looks for a character behind the digits, and there is one.
      obtain ⟨next, more, rfl⟩ : ∃ next more, rest = next :: more := by
        cases rest with
        | nil => rw [string?] at h; cases h
        | cons next more => exact ⟨next, more, rfl⟩
      rw [hu, hexDigits_four]
      exact string?_hex (hexUnit?_digits u) h
  · rw [hu, ← List.singleton_append (l := us), ← hunits]
    exact string?_plain hquote hslash hc.1 h

theorem string?_flatMap_unitAscii (opening : List Char) (us : Units) (rest : List Char) :
    string? opening (us.flatMap unitAscii ++ '"' :: rest) = .ok (us, rest) := by
  induction us with
  | nil => rw [List.flatMap_nil, List.nil_append, string?]
  | cons u us ih =>
    rw [List.flatMap_cons, List.append_assoc]
    exact string?_unitAscii ih

theorem isAscii_of_all {s : List Char} (h : (s.all fun c => decide (IsAscii c)) = true) :
    ∀ c ∈ s, IsAscii c := by
  simpa using h

theorem isAscii_digitChar : ∀ d < 16, IsAscii (Nat.digitChar d) := by decide

theorem isAscii_escape : ∀ c x, escape? c = some x → IsAscii c := by
  intro c x h
  unfold escape? at h
  split at h <;> first | decide | cases h

theorem isAscii_unitEscape : ∀ c ∈ unitEscape u, IsAscii c := by
  rcases unitEscape_cases u with ⟨c, x, -, hescape, -, hu⟩ | hu
  · rw [hu]
    simp [isAscii_escape c x hescape, show IsAscii '\\' by decide]
  · rw [hu, hexDigits_four]
    simp [isAscii_digitChar _ (Nat.mod_lt _ _), show IsAscii '\\' by decide, show IsAscii 'u' by decide]

theorem isAscii_stringAscii : ∀ c ∈ stringAscii us, IsAscii c := by
  have hunit : ∀ u, ∀ c ∈ unitAscii u, IsAscii c := by
    intro u
    rcases unitAscii_cases u with hu | ⟨c, -, -, hc, -, hu⟩
    · rw [hu]
      exact isAscii_unitEscape
    · rw [hu]
      simpa using hc
  have hquote : IsAscii '"' := by decide
  intro c hc
  rw [stringAscii, List.mem_append, List.mem_cons, List.mem_singleton, List.mem_flatMap] at hc
  rcases hc with (rfl | ⟨u, -, hc⟩) | rfl
  · exact hquote
  · exact hunit u c hc
  · exact hquote

/-! ### Integers -/

/-- Holds for what can stand behind a value. -/
def Follows (rest : List Char) : Prop := ∀ c ∈ rest.head?, c = ',' ∨ c = ']' ∨ c = '}'

theorem digitsValue_lt {ds : List Char} (h : ∀ c ∈ ds, c.isDigit = true) :
    digitsValue ds < 10 ^ ds.length := by
  rw [digitsValue]
  induction ds with
  | nil => decide
  | cons c ds ih =>
    obtain ⟨hc, hds⟩ := List.forall_mem_cons.mp h
    have hdigit : 10 * 0 + (c.toNat - '0'.toNat) ≤ 9 := by
      have hnine : '9'.toNat - '0'.toNat = 9 := rfl
      have hlast := (Char.isDigit_iff_toNat.mp hc).2
      omega
    have hfirst := Nat.mul_le_mul_left (10 ^ ds.length) hdigit
    have hrest := ih hds
    rw [Nat.ofDigitChars_cons, Nat.ofDigitChars_eq_ofDigitChars_zero, List.length_cons, Nat.pow_succ]
    omega

theorem head?_toDigits (h : 0 < n) : (Nat.toDigits 10 n).head? ≠ some '0' := by
  have hdigit : ∀ d < 10, 0 < d → Nat.digitChar d ≠ '0' := by decide
  induction n using Nat.strongRecOn with
  | ind n ih =>
    rw [Nat.toDigits_eq_if (by decide)]
    split
    · next hn =>
      intro hzero
      exact hdigit n hn h (Option.some.inj hzero)
    · next hn =>
      rw [List.head?_append_of_ne_nil _ Nat.toDigits_ne_nil]
      exact ih (n / 10) (by omega) (by omega)

/-- The reader takes all digits of a number. -/
theorem integerPart_natText (hrest : ∀ c ∈ rest.head?, c.isDigit = false) :
    integerPart (natText n ++ rest) = (natText n, rest) := by
  have hspan : (natText n ++ rest).span Char.isDigit = (natText n, rest) := by
    have hdigits : ∀ c ∈ natText n, c.isDigit = true :=
      fun c hc => Nat.isDigit_of_mem_toDigits (by decide) (by decide) hc
    have htaken : rest.takeWhile Char.isDigit = [] ∧ rest.dropWhile Char.isDigit = rest := by
      cases rest with
      | nil => exact ⟨rfl, rfl⟩
      | cons c rest => simp [hrest c rfl]
    rw [List.span_eq_takeWhile_dropWhile, List.takeWhile_append_of_pos hdigits,
      List.dropWhile_append_of_pos hdigits, htaken.1, htaken.2, List.append_nil]
  rcases Nat.eq_zero_or_pos n with rfl | hn
  · rw [natText, Nat.toDigits_zero]
    rfl
  · -- No zero stands in front, so that the digits are taken as far as they go.
    have hfirst : (natText n ++ rest).head? ≠ some '0' := by
      rw [natText, List.head?_append_of_ne_nil _ Nat.toDigits_ne_nil]
      exact head?_toDigits hn
    rw [← hspan, integerPart]
    intro rest' hzero
    rw [hzero] at hfirst
    exact hfirst rfl

theorem exists_natText (n : Nat) : ∃ c ds, natText n = c :: ds ∧ c.isDigit = true := by
  obtain ⟨c, ds, hds⟩ := List.exists_cons_of_ne_nil (Nat.toDigits_ne_nil (n := n) (b := 10))
  refine ⟨c, ds, hds, Nat.isDigit_of_mem_toDigits (b := 10) (n := n) (by decide) (by decide) ?_⟩
  rw [hds]
  exact List.mem_cons_self

theorem Follows.ne (h : Follows rest) (hc : c ≠ ',' ∧ c ≠ ']' ∧ c ≠ '}') (s : List Char) :
    rest ≠ c :: s := by
  rintro rfl
  rcases h c rfl with heq | heq | heq
  · exact hc.1 heq
  · exact hc.2.1 heq
  · exact hc.2.2 heq

theorem fractionPart_of_follows (h : Follows rest) : fractionPart rest = ([], rest) := by
  rw [fractionPart]
  exact h.ne (by decide)

theorem exponentPart_of_follows (h : Follows rest) : exponentPart rest = (none, rest) := by
  rw [exponentPart]
  all_goals exact fun s => h.ne (by decide) _

/-- A number without a fraction and an exponent is an integer. -/
theorem number?_of_digits {unsigned whole : List Char} (negative : Bool)
    (hsign : ∀ s, unsigned ≠ '-' :: s) (hwhole : integerPart unsigned = (whole, rest))
    (hne : whole ≠ []) (hlength : whole.length ≤ digitLimit) (hrest : Follows rest) :
    number? (if negative then '-' :: unsigned else unsigned) =
      some (.ok (.int (if negative then -(digitsValue whole : Int) else digitsValue whole), rest)) := by
  obtain ⟨c, ds, rfl⟩ := List.exists_cons_of_ne_nil hne
  have hfraction := fractionPart_of_follows hrest
  have hexponent := exponentPart_of_follows hrest
  cases negative with
  | true =>
    unfold number?
    simp only [if_true, hwhole, hfraction, hexponent, if_neg (Nat.not_lt.mpr hlength)]
    rfl
  | false =>
    unfold number?
    split
    next negative' unsigned' hsigned =>
    split at hsigned
    · next s hs => exact absurd hs (hsign s)
    · cases hsigned
      simp only [Bool.false_eq_true, if_false, hwhole, hfraction, hexponent,
        if_neg (Nat.not_lt.mpr hlength)]
      rfl

/-- An integer that is not too long is read back. -/
theorem number?_intText {n : Int} (hn : n.natAbs < 10 ^ digitLimit) (hrest : Follows rest) :
    number? (intText n ++ rest) = some (.ok (.int n, rest)) := by
  have hdigit : ∀ c ∈ rest.head?, c.isDigit = false := by
    intro c hc
    rcases hrest c hc with rfl | rfl | rfl <;> rfl
  have hlength : (natText n.natAbs).length ≤ digitLimit :=
    (Nat.length_toDigits_le_iff (by decide) (by decide)).mpr hn
  have hvalue : digitsValue (natText n.natAbs) = n.natAbs := Nat.ofDigitChars_ten_toDigits
  have hwhole := integerPart_natText (n := n.natAbs) hdigit
  have hsign : ∀ s, natText n.natAbs ++ rest ≠ '-' :: s := by
    obtain ⟨c, ds, hds, hc⟩ := exists_natText n.natAbs
    rw [hds]
    rintro s hs
    cases hs
    cases hc
  have htext : intText n ++ rest = if decide (n < 0) then '-' :: (natText n.natAbs ++ rest)
      else natText n.natAbs ++ rest := by
    rw [intText]
    split <;> simp [*]
  have hint : (if decide (n < 0) then -(n.natAbs : Int) else n.natAbs) = n := by
    by_cases hneg : n < 0
    · rw [decide_eq_true hneg, if_pos rfl]
      omega
    · rw [decide_eq_false hneg, if_neg Bool.false_ne_true]
      omega
  rw [htext, number?_of_digits _ hsign hwhole Nat.toDigits_ne_nil hlength hrest, hvalue, hint]

/-- An integer begins with a digit, or with a minus and a digit. -/
theorem intText_cases (n : Int) : ∃ c ds, c.isDigit = true ∧
    (intText n = c :: ds ∨ intText n = '-' :: c :: ds) := by
  obtain ⟨c, ds, hds, hc⟩ := exists_natText n.natAbs
  refine ⟨c, ds, hc, ?_⟩
  rw [intText, hds]
  split
  · exact Or.inr rfl
  · exact Or.inl rfl

theorem isAscii_intText {n : Int} : ∀ c ∈ intText n, IsAscii c := by
  have hdigit : ∀ c ∈ natText n.natAbs, IsAscii c := by
    intro c hc
    have hdigit := Nat.isDigit_of_mem_toDigits (by decide) (by decide) hc
    rw [Char.isDigit_iff_toNat] at hdigit
    have hzero : '0'.toNat = 0x30 := rfl
    have hnine : '9'.toNat = 0x39 := rfl
    exact ⟨by omega, by omega⟩
  rw [intText]
  split
  · exact List.forall_mem_cons.mpr ⟨by decide, hdigit⟩
  · exact hdigit

end LintDebt.Json
