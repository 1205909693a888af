import LintDebt.Text.Utf8

/-! # Reading back what was encoded

The octets of a character lead the reader through one sequence, with the bits of the character split
among them. So a text that was encoded is read back as it was, whatever follows it. -/

namespace LintDebt.Utf8

variable {position : Nat} {b : UInt8} {rest : List UInt8} {p : Pending}

theorem scanFrom_ascii (hb : b.toNat < 0x80) : scanFrom position none (b :: rest) =
    (scanFrom (position + 1) none rest).push (Char.ofNat b.toNat) := by
  rw [scanFrom, if_pos (UInt8.lt_iff_toNat_lt.mpr hb)]

theorem scanFrom_lead (hb : 0x80 ≤ b.toNat) (hlead : lead? position b = some p) :
    scanFrom position none (b :: rest) = scanFrom (position + 1) (some p) rest := by
  rw [scanFrom, if_neg (fun h => Nat.not_lt.mpr hb (UInt8.lt_iff_toNat_lt.mp h)), hlead]

/-- Holds for an octet that a sequence under way can go on with. -/
def Pending.Takes (p : Pending) (b : UInt8) : Prop :=
  p.least.toNat ≤ b.toNat ∧ b.toNat ≤ p.greatest.toNat

theorem Pending.Takes.not_refused (h : p.Takes b) : ¬ (b < p.least ∨ p.greatest < b) := by
  rw [UInt8.lt_iff_toNat_lt, UInt8.lt_iff_toNat_lt]
  have := h.1
  have := h.2
  omega

theorem scanFrom_last (h : p.Takes b) (howed : p.owed ≤ 1) :
    scanFrom position (some p) (b :: rest) =
      (scanFrom (position + 1) none rest).push (Char.ofNat (p.bits * 64 + (b.toNat - 0x80))) := by
  rw [scanFrom, if_neg h.not_refused]
  simp only [howed, ↓reduceIte]

theorem scanFrom_more (h : p.Takes b) (howed : 1 < p.owed) :
    scanFrom position (some p) (b :: rest) = scanFrom (position + 1)
      (some { p with taken := p.taken + 1, owed := p.owed - 1
                     bits := p.bits * 64 + (b.toNat - 0x80), least := 0x80, greatest := 0xbf })
      rest := by
  rw [scanFrom, if_neg h.not_refused]
  simp only [Nat.not_le.mpr howed, ↓reduceIte]

/-- An octet that carries six more bits. -/
theorem toNat_continuation (n : Nat) : (UInt8.ofNat (n % 0x40 + 0x80)).toNat = n % 0x40 + 0x80 := by
  rw [UInt8.toNat_ofNat']
  omega

/-- The first octet of a sequence of two. -/
theorem lead?_two (h : 0xc2 ≤ b.toNat) (h' : b.toNat ≤ 0xdf) :
    lead? position b = some ⟨position, b, 1, 1, b.toNat - 0xc0, 0x80, 0xbf⟩ := by
  rw [lead?]
  simp only [h, h', and_self, ↓reduceIte]

/-- The first octet of a sequence of three, with what the bounds on the second one rule out: numbers
that have a shorter form, and surrogates. -/
theorem lead?_three (position : Nat) (b : UInt8) (h : 0xe0 ≤ b.toNat) (h' : b.toNat ≤ 0xef) :
    ∃ least greatest, lead? position b =
      some ⟨position, b, 1, 2, b.toNat - 0xe0, least, greatest⟩ ∧
      least.toNat = (if b.toNat = 0xe0 then 0xa0 else 0x80) ∧
      greatest.toNat = (if b.toNat = 0xed then 0x9f else 0xbf) := by
  rw [lead?]
  have hnot : ¬ (0xc2 ≤ b.toNat ∧ b.toNat ≤ 0xdf) := by omega
  rw [if_neg hnot]
  by_cases h0 : b.toNat = 0xe0
  · exact ⟨0xa0, 0xbf, by simp [h0], by simp [h0], by simp [h0]⟩
  by_cases hd : b.toNat = 0xed
  · exact ⟨0x80, 0x9f, by simp [hd], by simp [hd], by simp [hd]⟩
  · refine ⟨0x80, 0xbf, ?_, by simp [h0], by simp [hd]⟩
    rw [if_neg h0, if_neg hd, if_pos (by omega)]

/-- The first octet of a sequence of four. The bounds on the second one also rule out what is past the
last code point. -/
theorem lead?_four (position : Nat) (b : UInt8) (h : 0xf0 ≤ b.toNat) (h' : b.toNat ≤ 0xf4) :
    ∃ least greatest, lead? position b =
      some ⟨position, b, 1, 3, b.toNat - 0xf0, least, greatest⟩ ∧
      least.toNat = (if b.toNat = 0xf0 then 0x90 else 0x80) ∧
      greatest.toNat = (if b.toNat = 0xf4 then 0x8f else 0xbf) := by
  rw [lead?]
  have hnot : ¬ (0xc2 ≤ b.toNat ∧ b.toNat ≤ 0xdf) := by omega
  have hnot' : ¬ (0xe1 ≤ b.toNat ∧ b.toNat ≤ 0xef) := by omega
  rw [if_neg hnot, if_neg (by omega), if_neg (by omega), if_neg hnot']
  by_cases h0 : b.toNat = 0xf0
  · exact ⟨0x90, 0xbf, by simp [h0], by simp [h0], by simp [h0]⟩
  by_cases h4 : b.toNat = 0xf4
  · exact ⟨0x80, 0x8f, by simp [h4], by simp [h4], by simp [h4]⟩
  · refine ⟨0x80, 0xbf, ?_, by simp [h0], by simp [h4]⟩
    rw [if_neg h0, if_pos (by omega)]

section sequences

variable {v : Nat}

theorem scanFrom_one (h : v ≤ 0x7f) : scanFrom position none (UInt8.ofNat v :: rest) =
    (scanFrom (position + 1) none rest).push (Char.ofNat v) := by
  have hb : (UInt8.ofNat v).toNat = v := by rw [UInt8.toNat_ofNat']; omega
  rw [scanFrom_ascii (by omega), hb]

theorem scanFrom_two (h : 0x7f < v) (h' : v ≤ 0x7ff) :
    scanFrom position none (UInt8.ofNat (v / 64 % 0x20 + 0xc0) ::
      UInt8.ofNat (v % 0x40 + 0x80) :: rest) =
      (scanFrom (position + 1 + 1) none rest).push (Char.ofNat v) := by
  have hb : (UInt8.ofNat (v / 64 % 0x20 + 0xc0)).toNat = v / 64 + 0xc0 := by
    rw [UInt8.toNat_ofNat']; omega
  have hlast := toNat_continuation v
  rw [scanFrom_lead (by omega) (lead?_two (by omega) (by omega)), scanFrom_last ⟨?_, ?_⟩ (Nat.le_refl 1),
    hb, hlast]
  · rw [show (v / 64 + 0xc0 - 0xc0) * 64 + (v % 0x40 + 0x80 - 0x80) = v by omega]
  · show 0x80 ≤ _
    omega
  · show _ ≤ 0xbf
    omega

theorem scanFrom_three (h : 0x7ff < v) (h' : v ≤ 0xffff) (hvalid : v < 0xd800 ∨ 0xdfff < v) :
    scanFrom position none (UInt8.ofNat (v / 4096 % 0x10 + 0xe0) ::
      UInt8.ofNat (v / 64 % 0x40 + 0x80) :: UInt8.ofNat (v % 0x40 + 0x80) :: rest) =
      (scanFrom (position + 1 + 1 + 1) none rest).push (Char.ofNat v) := by
  have hb : (UInt8.ofNat (v / 4096 % 0x10 + 0xe0)).toNat = v / 4096 + 0xe0 := by
    rw [UInt8.toNat_ofNat']; omega
  have hmid := toNat_continuation (v / 64)
  have hlast := toNat_continuation v
  obtain ⟨least, greatest, hlead, hleast, hgreatest⟩ := lead?_three position
    (UInt8.ofNat (v / 4096 % 0x10 + 0xe0)) (by omega) (by omega)
  rw [scanFrom_lead (by omega) hlead, scanFrom_more ⟨?_, ?_⟩ (by simp),
    scanFrom_last ⟨?_, ?_⟩ (Nat.le_refl 1)]
  · simp only [hb, hmid, hlast]
    rw [show ((v / 4096 + 0xe0 - 0xe0) * 64 + (v / 64 % 0x40 + 0x80 - 0x80)) * 64 +
      (v % 0x40 + 0x80 - 0x80) = v by omega]
  · show 0x80 ≤ _
    omega
  · show _ ≤ 0xbf
    omega
  · show least.toNat ≤ _
    rw [hleast, hb, hmid]
    split <;> omega
  · show _ ≤ greatest.toNat
    rw [hgreatest, hb, hmid]
    split <;> omega

theorem scanFrom_four (h : 0xffff < v) (hvalid : v < 0x110000) :
    scanFrom position none (UInt8.ofNat (v / 262144 % 0x08 + 0xf0) ::
      UInt8.ofNat (v / 4096 % 0x40 + 0x80) :: UInt8.ofNat (v / 64 % 0x40 + 0x80) ::
      UInt8.ofNat (v % 0x40 + 0x80) :: rest) =
      (scanFrom (position + 1 + 1 + 1 + 1) none rest).push (Char.ofNat v) := by
  have hb : (UInt8.ofNat (v / 262144 % 0x08 + 0xf0)).toNat = v / 262144 + 0xf0 := by
    rw [UInt8.toNat_ofNat']; omega
  have hsecond := toNat_continuation (v / 4096)
  have hthird := toNat_continuation (v / 64)
  have hlast := toNat_continuation v
  obtain ⟨least, greatest, hlead, hleast, hgreatest⟩ := lead?_four position
    (UInt8.ofNat (v / 262144 % 0x08 + 0xf0)) (by omega) (by omega)
  rw [scanFrom_lead (by omega) hlead, scanFrom_more ⟨?_, ?_⟩ (by simp), scanFrom_more ⟨?_, ?_⟩ (by simp),
    scanFrom_last ⟨?_, ?_⟩ (Nat.le_refl 1)]
  · simp only [hb, hsecond, hthird, hlast]
    rw [show (((v / 262144 + 0xf0 - 0xf0) * 64 + (v / 4096 % 0x40 + 0x80 - 0x80)) * 64 +
      (v / 64 % 0x40 + 0x80 - 0x80)) * 64 + (v % 0x40 + 0x80 - 0x80) = v by omega]
  · show 0x80 ≤ _
    omega
  · show _ ≤ 0xbf
    omega
  · show 0x80 ≤ _
    omega
  · show _ ≤ 0xbf
    omega
  · show least.toNat ≤ _
    rw [hleast, hb, hsecond]
    split <;> omega
  · show _ ≤ greatest.toNat
    rw [hgreatest, hb, hsecond]
    split <;> omega

end sequences

/-- The octets of one character are read as that character. -/
theorem scanFrom_encodeChar (c : Char) (position : Nat) (rest : List UInt8) :
    ∃ position', scanFrom position none (String.utf8EncodeChar c ++ rest) =
      (scanFrom position' none rest).push c := by
  have hvalid : c.val.toNat < 0xd800 ∨ 0xdfff < c.val.toNat ∧ c.val.toNat < 0x110000 := c.valid
  have hchar : Char.ofNat c.val.toNat = c := Char.ofNat_toNat c
  rw [String.utf8EncodeChar]
  revert hvalid hchar
  generalize c.val.toNat = v
  rintro hvalid rfl
  split
  · next h1 => exact ⟨_, scanFrom_one h1⟩
  split
  · next h1 h2 => exact ⟨_, scanFrom_two (by omega) h2⟩
  split
  · next h1 h2 h3 => exact ⟨_, scanFrom_three (by omega) h3 (by omega)⟩
  · next h1 h2 h3 => exact ⟨_, scanFrom_four (Nat.lt_of_not_le h3) (by omega)⟩

theorem scanFrom_encode (text : List Char) (position : Nat) :
    scanFrom position none (encode text) = ⟨text, .complete⟩ := by
  induction text generalizing position with
  | nil => rfl
  | cons c text ih =>
    obtain ⟨position', h⟩ := scanFrom_encodeChar c position (encode text)
    rw [encode, List.flatMap_cons]
    exact h.trans (by rw [ih]; rfl)

/-- A text is read back from its octets. -/
theorem scan_encode (text : List Char) : scan (encode text) = ⟨text, .complete⟩ :=
  scanFrom_encode text 0

theorem decode_encode (text : List Char) : decode (encode text) = .ok text := by
  rw [decode, scan_encode]

end LintDebt.Utf8
