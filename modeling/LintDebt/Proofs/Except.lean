import Mathlib.Control.Monad.Basic
import Mathlib.Data.List.Forall2

/-! # Steps that succeed

A chain of steps succeeds if each of them does, and no change of its errors makes a step succeed. -/

namespace LintDebt

universe u v

variable {ε ε' : Type u} {α β : Type v} {x : Except ε α} {a : α} {b : β}

@[simp] theorem mapError_ok (f : ε → ε') (a : α) :
    (Except.ok a).mapError f = .ok a := rfl

@[simp] theorem mapError_error (f : ε → ε') (e : ε) :
    (Except.error e : Except ε α).mapError f = .error (f e) := rfl

theorem mapError_eq_ok {f : ε → ε'} : x.mapError f = .ok a ↔ x = .ok a := by
  cases x <;> simp

theorem bind_eq_ok {f : α → Except ε β} : x >>= f = .ok b ↔ ∃ a, x = .ok a ∧ f a = .ok b := by
  cases x with
  | error e => simp [bind, Except.bind]
  | ok a => simp [bind, Except.bind]

theorem mapError_eq_error {f : ε → ε'} {e : ε'} :
    x.mapError f = .error e ↔ ∃ e', x = .error e' ∧ f e' = e := by
  cases x <;> simp

theorem bind_eq_error {f : α → Except ε β} {e : ε} :
    x >>= f = .error e ↔ x = .error e ∨ ∃ a, x = .ok a ∧ f a = .error e := by
  cases x with
  | error e' => simp [bind, Except.bind]
  | ok a => simp [bind, Except.bind]

theorem map_eq_ok {f : α → β} : x.map f = .ok b ↔ ∃ a, x = .ok a ∧ f a = b := by
  cases x <;> simp [Except.map]

theorem map_eq_error {f : α → β} {e : ε} : x.map f = .error e ↔ x = .error e := by
  cases x <;> simp [Except.map]

@[simp] theorem toOption_mapError {f : ε → ε'} : (x.mapError f).toOption = x.toOption := by
  cases x <;> rfl

theorem mem_toOption {ε : Type u} {α : Type v} {x : Except ε α} {a : α} :
    a ∈ x.toOption ↔ x = .ok a := by
  cases x <;> simp [Except.toOption]

/-- What comes out of a list of steps comes from one of them. -/
theorem mem_of_mapM {f : α → Except ε β} {as : List α} {bs : List β} (h : as.mapM f = .ok bs)
    (b : β) : b ∈ bs ↔ ∃ a ∈ as, f a = .ok b := by
  induction as generalizing bs with
  | nil =>
    cases h
    simp
  | cons a rest ih =>
    rw [List.mapM_cons] at h
    obtain ⟨b', hb', h⟩ := bind_eq_ok.mp h
    obtain ⟨bs', hbs', h⟩ := bind_eq_ok.mp h
    cases h
    simp [ih hbs', hb', eq_comm (a := b)]

/-- A list of steps succeeds with what each of them gives, in their order. -/
theorem mapM_eq_ok {f : α → Except ε β} {as : List α} {bs : List β} :
    as.mapM f = .ok bs ↔ List.Forall₂ (fun a b => f a = .ok b) as bs := by
  induction as generalizing bs with
  | nil => cases bs <;> simp [pure, Except.pure]
  | cons a rest ih =>
    rw [List.mapM_cons, bind_eq_ok]
    simp only [bind_eq_ok, ih]
    constructor
    · rintro ⟨b, hb, bs', hbs', h⟩
      cases h
      exact .cons hb hbs'
    · rintro (_ | ⟨hb, hbs'⟩)
      exact ⟨_, hb, _, hbs', rfl⟩

/-- A list of steps succeeds if each of them does. -/
theorem exists_mapM {f : α → Except ε β} {as : List α} (h : ∀ a ∈ as, ∃ b, f a = .ok b) :
    ∃ bs, as.mapM f = .ok bs := by
  simp only [mapM_eq_ok]
  induction as with
  | nil => exact ⟨[], .nil⟩
  | cons a rest ih =>
    obtain ⟨⟨b, hb⟩, hrest⟩ := List.forall_mem_cons.mp h
    obtain ⟨bs, hbs⟩ := ih hrest
    exact ⟨b :: bs, .cons hb hbs⟩

/-- A list of steps succeeds only if each of them does. -/
theorem exists_of_mapM {f : α → Except ε β} {as : List α} {bs : List β} (h : as.mapM f = .ok bs)
    {a : α} (ha : a ∈ as) : ∃ b, f a = .ok b := by
  replace h := mapM_eq_ok.mp h
  induction h with
  | nil => cases ha
  | cons hab _ ih =>
    rcases List.mem_cons.mp ha with rfl | ha
    · exact ⟨_, hab⟩
    · exact ih ha

/-- What a list of steps collects is what each of them collects. -/
theorem mem_flatten_of_mapM {f : α → Except ε (List β)} {as : List α} {bs : List (List β)}
    (h : as.mapM f = .ok bs) {has : α → β → Prop}
    (hf : ∀ a ∈ as, ∀ found, f a = .ok found → ∀ b, b ∈ found ↔ has a b) :
    b ∈ bs.flatten ↔ ∃ a ∈ as, has a b := by
  rw [List.mem_flatten]
  constructor
  · rintro ⟨found, hfound, hb⟩
    obtain ⟨a, ha, hfa⟩ := (mem_of_mapM h found).mp hfound
    exact ⟨a, ha, (hf a ha found hfa b).mp hb⟩
  · rintro ⟨a, ha, hb⟩
    obtain ⟨found, hfa⟩ := exists_of_mapM h ha
    exact ⟨found, (mem_of_mapM h found).mpr ⟨a, ha, hfa⟩, (hf a ha found hfa b).mpr hb⟩

/-- A list of steps fails with the error of one of them. -/
theorem exists_of_mapM_error {f : α → Except ε β} {as : List α} {e : ε} (h : as.mapM f = .error e) :
    ∃ a ∈ as, f a = .error e := by
  induction as with
  | nil => cases h
  | cons a rest ih =>
    rw [List.mapM_cons] at h
    rcases bind_eq_error.mp h with h | ⟨b, -, h⟩
    · exact ⟨a, List.mem_cons_self, h⟩
    rcases bind_eq_error.mp h with h | ⟨bs, -, h⟩
    · obtain ⟨a', ha', h⟩ := ih h
      exact ⟨a', List.mem_cons_of_mem _ ha', h⟩
    · cases h

/-- To test a list is to filter it, if no test fails. -/
theorem filterM_eq_ok {ε α : Type} {test : α → Except ε Bool} {as bs : List α} :
    as.filterM test = .ok bs ↔
      (∀ a ∈ as, ∃ passes, test a = .ok passes) ∧ bs = as.filter fun a => (test a).toOption = some true := by
  have hauxiliary : ∀ as acc found, List.filterAuxM test as acc = .ok found ↔
      (∀ a ∈ as, ∃ passes, test a = .ok passes) ∧
        found = (as.filter fun a => (test a).toOption = some true).reverse ++ acc := by
    intro as
    induction as with
    | nil =>
      intro acc found
      show Except.ok acc = .ok found ↔ _
      simp [eq_comm]
    | cons a rest ih =>
      intro acc found
      rw [List.filterAuxM, List.forall_mem_cons]
      rcases ha : test a with e | passes
      · simp [bind, Except.bind]
      · cases passes <;> simp [ha, bind, Except.bind, Except.toOption, ih]
  rw [List.filterM]
  constructor
  · intro h
    obtain ⟨found, hfound, h⟩ := bind_eq_ok.mp h
    obtain ⟨htests, rfl⟩ := (hauxiliary as [] found).mp hfound
    cases h
    exact ⟨htests, by simp⟩
  · rintro ⟨htests, rfl⟩
    rw [(hauxiliary as [] _).mpr ⟨htests, rfl⟩]
    simp [bind, Except.bind, pure, Except.pure]

/-- To filter a list fails with the error of one of the tests. -/
theorem exists_of_filterM_error {ε α : Type} {test : α → Except ε Bool} {as : List α} {e : ε}
    (h : as.filterM test = .error e) : ∃ a ∈ as, test a = .error e := by
  have hauxiliary : ∀ as acc, List.filterAuxM test as acc = .error e → ∃ a ∈ as, test a = .error e := by
    intro as
    induction as with
    | nil => nofun
    | cons a rest ih =>
      intro acc h
      rw [List.filterAuxM] at h
      rcases bind_eq_error.mp h with h | ⟨passes, -, h⟩
      · exact ⟨a, List.mem_cons_self, h⟩
      · obtain ⟨a', ha', h⟩ := ih _ h
        exact ⟨a', List.mem_cons_of_mem a ha', h⟩
  rw [List.filterM] at h
  rcases bind_eq_error.mp h with h | ⟨_, -, h⟩
  · exact hauxiliary as [] h
  · cases h

/-- What passes a test that may fail was tested, and passed. -/
theorem of_mem_filterM {ε α : Type} {test : α → Except ε Bool} {as bs : List α}
    (h : as.filterM test = .ok bs) {a : α} (ha : a ∈ bs) : a ∈ as ∧ test a = .ok true := by
  obtain ⟨-, rfl⟩ := filterM_eq_ok.mp h
  obtain ⟨hmem, hpasses⟩ := List.mem_filter.mp ha
  exact ⟨hmem, mem_toOption.mp (of_decide_eq_true hpasses)⟩

end LintDebt
