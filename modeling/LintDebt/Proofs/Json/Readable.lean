import LintDebt.Proofs.Except
import LintDebt.Proofs.Json.Scalars
import LintDebt.Proofs.Keyed
import Mathlib.Data.List.Induction
import Mathlib.Data.List.Nodup
import Mathlib.Data.List.TakeWhile

/-! # What a text can hold

The reader gives no value that lies deeper than its limit, no integer with more digits than it takes,
and no object with a key twice (`Fits`): a key that a text lists again has its last value in its first
place. -/

namespace LintDebt.Json

open Text

/-- Holds for a value that can be read with so many levels left. -/
inductive Fits : Nat → Json → Prop
  | null {room : Nat} : Fits room .null
  | bool {room : Nat} (b : Bool) : Fits room (.bool b)
  | int {room : Nat} {n : Int} (h : n.natAbs < 10 ^ digitLimit) : Fits room (.int n)
  | float {room : Nat} (x : Binary64) : Fits room (.float x)
  | string {room : Nat} (us : Units) : Fits room (.string us)
  | array {room : Nat} {items : List Json} (h : ∀ v ∈ items, Fits room v) :
      Fits (room + 1) (.array items)
  | object {room : Nat} {fields : Fields} (hkeys : (fields.map Prod.fst).Nodup)
      (h : ∀ f ∈ fields, Fits room f.2) : Fits (room + 1) (.object fields)

variable {s rest : List Char} {v : Json} {room depth : Nat}

/-! ### Fields -/

namespace Fields

/-- What is kept of listed fields has each key once, and holds nothing that was not listed. -/
theorem ofListed_spec (listed : List (Units × Json)) :
    ((ofListed listed).map Prod.fst).Nodup ∧ ∀ f ∈ ofListed listed, f ∈ listed := by
  rw [ofListed]
  induction listed using List.reverseRecOn with
  | nil => exact ⟨List.nodup_nil, fun f hf => hf⟩
  | append_singleton listed g ih =>
    obtain ⟨hkeys, hmem⟩ := ih
    rw [List.foldl_append, List.foldl_cons, List.foldl_nil]
    refine ⟨nodup_setUnder (a := g) hkeys, ?_⟩
    intro f hf
    rw [List.mem_append, List.mem_singleton]
    rcases (mem_setUnder Prod.fst _ g).mp hf with rfl | ⟨hold, -⟩
    · exact Or.inr rfl
    · exact Or.inl (hmem f hold)

theorem ofListed_of_nodup {listed : List (Units × Json)} (h : (listed.map Prod.fst).Nodup) :
    ofListed listed = listed := by
  rw [ofListed]
  induction listed using List.reverseRecOn with
  | nil => rfl
  | append_singleton listed g ih =>
    rw [List.map_append, List.map_singleton, ← List.concat_eq_append, List.nodup_concat] at h
    have hnew : listed.any (·.1 == g.1) = false :=
      Bool.eq_false_iff.mpr fun hany => h.1 (any_key_iff.mp hany)
    rw [List.foldl_append, List.foldl_cons, List.foldl_nil, ih h.2, put, hnew]
    rfl

end Fields

/-! ### The reader -/

/-- The digits that are taken for the whole part of a number are digits. -/
theorem isDigit_of_integerPart {s whole rest : List Char} (h : integerPart s = (whole, rest)) :
    ∀ c ∈ whole, c.isDigit = true := by
  rw [integerPart.eq_def] at h
  split at h
  · cases h
    simp
  · rw [List.span_eq_takeWhile_dropWhile] at h
    cases h
    exact fun c hc => List.mem_takeWhile_imp hc

theorem fits_of_number? (h : number? s = some (.ok (v, rest))) : Fits room v := by
  unfold number? at h
  dsimp only at h
  split at h
  · cases h
  next whole rest' hwhole =>
  injection h with h
  split at h
  · split at h
    · cases h
    next hlength =>
    cases h
    apply Fits.int
    have hvalue := digitsValue_lt (isDigit_of_integerPart hwhole)
    have hlimit := Nat.pow_le_pow_right (n := 10) (by decide) (Nat.not_lt.mp hlength)
    split <;> omega
  · cases h
    exact .float _

theorem fits_of_scalar? (h : scalar? s = .ok (v, rest)) : Fits room v := by
  rw [scalar?] at h
  split at h
  · next found hfound =>
    cases h
    unfold word? at hfound
    split at hfound <;> cases hfound <;> constructor
  · cases hnumber : number? s with
    | none =>
      rw [hnumber] at h
      cases h
    | some found =>
      rw [hnumber, Option.getD_some] at h
      rw [h] at hnumber
      exact fits_of_number? hnumber

/-- Holds if the three readers of this depth give only what fits. -/
structure GivesFitting (depth : Nat) : Prop where
  value {room : Nat} {s rest : List Char} {v : Json} (h : value? depth room s = .ok (v, rest)) :
    Fits room v
  items {room : Nat} {s rest : List Char} {items : List Json}
    (h : items? depth room s = .ok (items, rest)) : ∀ v ∈ items, Fits room v
  fields {room : Nat} {s rest : List Char} {listed : Fields}
    (h : fields? depth room s = .ok (listed, rest)) : ∀ f ∈ listed, Fits room f.2

theorem GivesFitting.value_succ (ih : GivesFitting depth)
    (h : value? (depth + 1) room s = .ok (v, rest)) : Fits room v := by
  rw [value?.eq_def] at h
  dsimp only at h
  split at h
  · obtain ⟨⟨us, _⟩, -, h⟩ := map_eq_ok.mp h
    cases h
    exact .string us
  · cases h
  · split at h
    · cases h
      exact .array (by simp)
    · obtain ⟨⟨items, _⟩, hitems, h⟩ := map_eq_ok.mp h
      cases h
      exact .array (ih.items hitems)
  · cases h
  · split at h
    · cases h
      exact .object List.nodup_nil (by simp)
    · obtain ⟨⟨listed, _⟩, hlisted, h⟩ := map_eq_ok.mp h
      cases h
      obtain ⟨hkeys, hmem⟩ := Fields.ofListed_spec listed
      exact .object hkeys fun f hf => ih.fields hlisted f (hmem f hf)
  · exact fits_of_scalar? h

theorem GivesFitting.items_succ (ih : GivesFitting depth) {items : List Json}
    (h : items? (depth + 1) room s = .ok (items, rest)) : ∀ v ∈ items, Fits room v := by
  rw [items?] at h
  obtain ⟨⟨item, rest'⟩, hitem, h⟩ := bind_eq_ok.mp h
  dsimp only at h
  split at h
  · cases h
    simpa using ih.value hitem
  · obtain ⟨⟨more, _⟩, hmore, h⟩ := bind_eq_ok.mp h
    cases h
    exact List.forall_mem_cons.mpr ⟨ih.value hitem, ih.items hmore⟩
  · cases h

theorem GivesFitting.fields_succ (ih : GivesFitting depth) {listed : Fields}
    (h : fields? (depth + 1) room s = .ok (listed, rest)) : ∀ f ∈ listed, Fits room f.2 := by
  rw [fields?.eq_def] at h
  dsimp only at h
  split at h
  · obtain ⟨⟨key, _⟩, -, h⟩ := bind_eq_ok.mp h
    dsimp only at h
    split at h
    · obtain ⟨⟨value, _⟩, hvalue, h⟩ := bind_eq_ok.mp h
      dsimp only at h
      split at h
      · cases h
        simpa using ih.value hvalue
      · obtain ⟨⟨more, _⟩, hmore, h⟩ := bind_eq_ok.mp h
        cases h
        exact List.forall_mem_cons.mpr ⟨ih.value hvalue, ih.fields hmore⟩
      · cases h
    · cases h
  · cases h

theorem givesFitting (depth : Nat) : GivesFitting depth := by
  induction depth with
  | zero => exact ⟨fun h => (by rw [value?] at h; cases h), fun h => (by rw [items?] at h; cases h),
      fun h => (by rw [fields?] at h; cases h)⟩
  | succ depth ih => exact ⟨ih.value_succ, ih.items_succ, ih.fields_succ⟩

theorem fits_of_document? (h : document? s = .ok v) : Fits nestingLimit v := by
  rw [document?] at h
  split at h
  · cases h
  obtain ⟨⟨value, rest⟩, hvalue, h⟩ := bind_eq_ok.mp h
  dsimp only at h
  split at h
  · cases h
    exact (givesFitting _).value hvalue
  · cases h

/-- A text that is read has one value. -/
theorem parse_eq_ok {text : String} : parse text = .ok v ↔ document? text.toList = .ok v := by
  rw [parse]
  cases document? text.toList with
  | ok value => simp
  | error stop => cases stop <;> simp

end LintDebt.Json
