import LintDebt.Proofs.Text.Utf8

/-! # What a text is read from

A text is read from its own octets and from no others: the bounds on the octets of a sequence leave
one sequence for each character. So octets are the encoding of a text exactly if they can be read. -/

namespace LintDebt.Utf8

variable {position v : Nat} {b₁ b₂ b₃ b₄ : UInt8} {octets : List UInt8} {p : Pending}
  {text : List Char}

theorem push_eq_complete {c : Char} {r : Scan} :
    r.push c = ⟨text, .complete⟩ ↔ ∃ text', text = c :: text' ∧ r = ⟨text', .complete⟩ := by
  obtain ⟨read, stop⟩ := r
  constructor
  · rintro ⟨⟩
    exact ⟨read, rfl, rfl⟩
  · rintro ⟨_, rfl, ⟨⟩⟩
    rfl

/-- No other octets begin a sequence. -/
theorem lead?_eq_some (h : lead? position b₁ = some p) :
    (0xc2 ≤ b₁.toNat ∧ b₁.toNat ≤ 0xdf) ∨ (0xe0 ≤ b₁.toNat ∧ b₁.toNat ≤ 0xef) ∨
      (0xf0 ≤ b₁.toNat ∧ b₁.toNat ≤ 0xf4) := by
  refine Decidable.byContradiction fun hnot => ?_
  rw [lead?, if_neg (by omega), if_neg (by omega), if_neg (by omega), if_neg (by omega),
    if_neg (by omega), if_neg (by omega), if_neg (by omega)] at h
  cases h

/-- A sequence under way that is completed goes on with an octet that it takes. -/
theorem exists_takes (h : scanFrom position (some p) octets = ⟨text, .complete⟩) :
    ∃ b rest, octets = b :: rest ∧ p.Takes b := by
  cases octets with
  | nil => cases h
  | cons b rest =>
    refine ⟨b, rest, rfl, Classical.byContradiction fun hrefused => ?_⟩
    have hbounds : b < p.least ∨ p.greatest < b := by
      rw [UInt8.lt_iff_toNat_lt, UInt8.lt_iff_toNat_lt]
      rw [Pending.Takes] at hrefused
      omega
    rw [scanFrom, if_pos hbounds] at h
    cases h

theorem toNat_ofNat (hv : v.isValidChar) : (Char.ofNat v).val.toNat = v := by
  rw [Char.ofNat, dif_pos hv]
  rfl

theorem ofNat_eq (b : UInt8) (h : v % 256 = b.toNat) : UInt8.ofNat v = b := by
  rw [← UInt8.toNat_inj, UInt8.toNat_ofNat', h]

theorem encodeChar_one (h : b₁.toNat < 0x80) :
    String.utf8EncodeChar (Char.ofNat b₁.toNat) = [b₁] := by
  rw [String.utf8EncodeChar, toNat_ofNat (Or.inl (by omega)), if_pos (by omega), ofNat_eq b₁ (by omega)]

theorem encodeChar_two (h₁ : 0xc2 ≤ b₁.toNat ∧ b₁.toNat ≤ 0xdf)
    (h₂ : 0x80 ≤ b₂.toNat ∧ b₂.toNat ≤ 0xbf) :
    String.utf8EncodeChar (Char.ofNat ((b₁.toNat - 0xc0) * 64 + (b₂.toNat - 0x80))) = [b₁, b₂] := by
  rw [String.utf8EncodeChar, toNat_ofNat (Or.inl (by omega)), if_neg (by omega), if_pos (by omega), ofNat_eq b₁ (by omega), ofNat_eq b₂ (by omega)]

theorem encodeChar_three (h₁ : 0xe0 ≤ b₁.toNat ∧ b₁.toNat ≤ 0xef)
    (h₂ : (if b₁.toNat = 0xe0 then 0xa0 else 0x80) ≤ b₂.toNat ∧
      b₂.toNat ≤ if b₁.toNat = 0xed then 0x9f else 0xbf)
    (h₃ : 0x80 ≤ b₃.toNat ∧ b₃.toNat ≤ 0xbf) :
    String.utf8EncodeChar (Char.ofNat
      (((b₁.toNat - 0xe0) * 64 + (b₂.toNat - 0x80)) * 64 + (b₃.toNat - 0x80))) = [b₁, b₂, b₃] := by
  have hsecond : 0x80 ≤ b₂.toNat ∧ b₂.toNat ≤ 0xbf ∧ (b₁.toNat = 0xe0 → 0xa0 ≤ b₂.toNat) ∧
      (b₁.toNat = 0xed → b₂.toNat ≤ 0x9f) := by
    split at h₂ <;> split at h₂ <;> omega
  have hvalid : (((b₁.toNat - 0xe0) * 64 + (b₂.toNat - 0x80)) * 64 +
      (b₃.toNat - 0x80)).isValidChar := by
    rw [Nat.isValidChar]
    omega
  rw [String.utf8EncodeChar, toNat_ofNat hvalid, if_neg (by omega), if_neg (by omega), if_pos (by omega), ofNat_eq b₁ (by omega),
    ofNat_eq b₂ (by omega), ofNat_eq b₃ (by omega)]

theorem encodeChar_four (h₁ : 0xf0 ≤ b₁.toNat ∧ b₁.toNat ≤ 0xf4)
    (h₂ : (if b₁.toNat = 0xf0 then 0x90 else 0x80) ≤ b₂.toNat ∧
      b₂.toNat ≤ if b₁.toNat = 0xf4 then 0x8f else 0xbf)
    (h₃ : 0x80 ≤ b₃.toNat ∧ b₃.toNat ≤ 0xbf) (h₄ : 0x80 ≤ b₄.toNat ∧ b₄.toNat ≤ 0xbf) :
    String.utf8EncodeChar (Char.ofNat
      ((((b₁.toNat - 0xf0) * 64 + (b₂.toNat - 0x80)) * 64 + (b₃.toNat - 0x80)) * 64 +
        (b₄.toNat - 0x80))) = [b₁, b₂, b₃, b₄] := by
  have hsecond : 0x80 ≤ b₂.toNat ∧ b₂.toNat ≤ 0xbf ∧ (b₁.toNat = 0xf0 → 0x90 ≤ b₂.toNat) ∧
      (b₁.toNat = 0xf4 → b₂.toNat ≤ 0x8f) := by
    split at h₂ <;> split at h₂ <;> omega
  have hvalid : ((((b₁.toNat - 0xf0) * 64 + (b₂.toNat - 0x80)) * 64 + (b₃.toNat - 0x80)) * 64 +
      (b₄.toNat - 0x80)).isValidChar := by
    rw [Nat.isValidChar]
    omega
  rw [String.utf8EncodeChar, toNat_ofNat hvalid, if_neg (by omega), if_neg (by omega), if_neg (by omega), ofNat_eq b₁ (by omega),
    ofNat_eq b₂ (by omega), ofNat_eq b₃ (by omega), ofNat_eq b₄ (by omega)]

/-- A reading that does not stop early begins with the octets of one character. -/
theorem exists_encodeChar {b : UInt8} {rest : List UInt8}
    (h : scanFrom position none (b :: rest) = ⟨text, .complete⟩) :
    ∃ c text' position' rest', text = c :: text' ∧ b :: rest = String.utf8EncodeChar c ++ rest' ∧
      scanFrom position' none rest' = ⟨text', .complete⟩ := by
  by_cases hascii : b.toNat < 0x80
  · rw [scanFrom_ascii hascii] at h
    obtain ⟨text', rfl, hrest⟩ := push_eq_complete.mp h
    exact ⟨_, text', _, rest, rfl, by rw [encodeChar_one hascii]; rfl, hrest⟩
  cases hlead : lead? position b with
  | none =>
    rw [scanFrom, if_neg (fun hlt => hascii (UInt8.lt_iff_toNat_lt.mp hlt)), hlead] at h
    cases h
  | some p =>
  rw [scanFrom_lead (by omega) hlead] at h
  obtain ⟨b₂, rest, rfl, htakes₂⟩ := exists_takes h
  rcases lead?_eq_some hlead with ⟨hle, hge⟩ | ⟨hle, hge⟩ | ⟨hle, hge⟩
  · rw [lead?_two hle hge] at hlead
    cases hlead
    rw [scanFrom_last htakes₂ (Nat.le_refl 1)] at h
    obtain ⟨text', rfl, hrest⟩ := push_eq_complete.mp h
    exact ⟨_, text', _, rest, rfl, by rw [encodeChar_two ⟨hle, hge⟩ htakes₂]; rfl, hrest⟩
  · obtain ⟨least, greatest, hp, hleast, hgreatest⟩ := lead?_three position b hle hge
    rw [hp] at hlead
    cases hlead
    rw [scanFrom_more htakes₂ (by simp)] at h
    obtain ⟨b₃, rest, rfl, htakes₃⟩ := exists_takes h
    rw [scanFrom_last htakes₃ (Nat.le_refl 1)] at h
    obtain ⟨text', rfl, hrest⟩ := push_eq_complete.mp h
    rw [Pending.Takes, hleast, hgreatest] at htakes₂
    exact ⟨_, text', _, rest, rfl, by rw [encodeChar_three ⟨hle, hge⟩ htakes₂ htakes₃]; rfl, hrest⟩
  · obtain ⟨least, greatest, hp, hleast, hgreatest⟩ := lead?_four position b hle hge
    rw [hp] at hlead
    cases hlead
    rw [scanFrom_more htakes₂ (by simp)] at h
    obtain ⟨b₃, rest, rfl, htakes₃⟩ := exists_takes h
    rw [scanFrom_more htakes₃ (by simp)] at h
    obtain ⟨b₄, rest, rfl, htakes₄⟩ := exists_takes h
    rw [scanFrom_last htakes₄ (Nat.le_refl 1)] at h
    obtain ⟨text', rfl, hrest⟩ := push_eq_complete.mp h
    rw [Pending.Takes, hleast, hgreatest] at htakes₂
    exact ⟨_, text', _, rest, rfl,
      by rw [encodeChar_four ⟨hle, hge⟩ htakes₂ htakes₃ htakes₄]; rfl, hrest⟩

theorem eq_encode_of_scanFrom (h : scanFrom position none octets = ⟨text, .complete⟩) :
    octets = encode text := by
  induction text generalizing position octets with
  | nil =>
    cases octets with
    | nil => rfl
    | cons b rest =>
      obtain ⟨_, _, _, _, htext, -⟩ := exists_encodeChar h
      cases htext
  | cons c text ih =>
    cases octets with
    | nil => cases h
    | cons b rest =>
      obtain ⟨_, _, _, rest', ⟨⟩, hoctets, h⟩ := exists_encodeChar h
      rw [hoctets, ih h]
      rfl

theorem decode_eq_ok : decode octets = .ok text ↔ octets = encode text := by
  constructor
  · intro h
    rw [decode] at h
    split at h
    · next hscan =>
      cases h
      exact eq_encode_of_scanFrom hscan
    · cases h
    · cases h
  · rintro rfl
    exact decode_encode text

end LintDebt.Utf8
