import LintDebt.Proofs.Text.Units

/-! # Octets between line feeds

An octet below 0x80 stands for its own character wherever it occurs, because the longer sequences
have none. So the octets of a text, cut at LF, are the octets of its pieces (`splitOn_encode`). -/

namespace LintDebt.Utf8

variable {b : UInt8} {c : Char} {s : List Char}

/-- The octets of a character are the one of its own number, or all at least 0x80. -/
theorem toNat_of_mem_encodeChar (h : b ∈ String.utf8EncodeChar c) :
    c.toNat = b.toNat ∨ 0x80 ≤ b.toNat ∧ 0x80 ≤ c.toNat := by
  have hv : c.val.toNat = c.toNat := rfl
  rw [String.utf8EncodeChar, hv] at h
  generalize c.toNat = n at h ⊢
  split at h
  · next h1 =>
    rw [List.mem_singleton.mp h, UInt8.toNat_ofNat']
    omega
  · next h1 =>
    refine Or.inr ⟨?_, by omega⟩
    split at h
    · simp only [List.mem_cons, List.not_mem_nil, or_false] at h
      rcases h with rfl | rfl <;> rw [UInt8.toNat_ofNat'] <;> omega
    split at h
    · simp only [List.mem_cons, List.not_mem_nil, or_false] at h
      rcases h with rfl | rfl | rfl <;> rw [UInt8.toNat_ofNat'] <;> omega
    · simp only [List.mem_cons, List.not_mem_nil, or_false] at h
      rcases h with rfl | rfl | rfl | rfl <;> rw [UInt8.toNat_ofNat'] <;> omega

/-- An octet below 0x80 occurs exactly where its character does. -/
theorem mem_encode (hb : b.toNat < 0x80) (hc : c.toNat = b.toNat)
    (hchar : String.utf8EncodeChar c = [b]) : b ∈ encode s ↔ c ∈ s := by
  rw [encode, List.mem_flatMap]
  constructor
  · rintro ⟨d, hd, hmem⟩
    rcases toNat_of_mem_encodeChar hmem with hsame | ⟨hhigh, -⟩
    · rwa [← Char.toNat_inj.mp (hsame.trans hc.symm)]
    · omega
  · intro h
    exact ⟨c, h, by rw [hchar]; exact List.mem_cons_self⟩

theorem lineFeed_mem_encode : 0x0a ∈ encode s ↔ '\n' ∈ s := mem_encode (by decide) rfl rfl

theorem carriageReturn_mem_encode : 0x0d ∈ encode s ↔ '\r' ∈ s := mem_encode (by decide) rfl rfl

/-- The pieces of the octets of a text that is put together from pieces. -/
theorem splitOn_encode_intercalate {parts : List (List Char)} (hparts : parts ≠ [])
    (hwhole : ∀ part ∈ parts, '\n' ∉ part) :
    (encode (['\n'].intercalate parts)).splitOn 0x0a = parts.map encode := by
  have hencode : encode (['\n'].intercalate parts) = [0x0a].intercalate (parts.map encode) :=
    Text.flatMap_intercalate String.utf8EncodeChar ['\n'] parts
  rw [hencode, List.splitOn_intercalate]
  · intro octets hoctets
    obtain ⟨part, hpart, rfl⟩ := List.mem_map.mp hoctets
    exact fun hmem => hwhole part hpart (lineFeed_mem_encode.mp hmem)
  · simpa using hparts

/-- The pieces of the octets of a text. -/
theorem splitOn_encode (s : List Char) : (encode s).splitOn 0x0a = (Text.pieces s).map encode := by
  have hparts := splitOn_encode_intercalate (List.splitOn_ne_nil '\n' s)
    fun part hpart => (Text.mem_splitOn hpart).1
  rwa [List.intercalate_splitOn] at hparts

end LintDebt.Utf8
