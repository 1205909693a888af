import LintDebt.Proofs.Suppression.Plan

/-! # Rules collected under keys

A table holds rules under keys. Its keys stand in the order in which they first came, and so do the
rules under each key, none of them twice. To add entries to a table one by one is to list their keys
once each and to take the rules of a key from all entries that have it (`foldl_gather`). -/

namespace LintDebt.Suppression

/-- Adds a rule that is not there yet. -/
def addRule (rules : List Text.Units) (r : Text.Units) : List Text.Units :=
  if rules.contains r then rules else rules ++ [r]

variable {κ : Type} [DecidableEq κ]

/-- Adds the rules of an entry to those under its key. -/
def gather : List (κ × List Text.Units) → κ × List Text.Units → List (κ × List Text.Units)
  | [], e => [(e.1, e.2.foldl addRule [])]
  | (key, rules) :: rest, e =>
    if key = e.1 then (key, e.2.foldl addRule rules) :: rest else (key, rules) :: gather rest e

/-- The rules that come with a key in some entries. -/
def rulesUnder (entries : List (κ × List Text.Units)) (key : κ) : List Text.Units :=
  ((entries.filter (·.1 = key)).flatMap Prod.snd).eraseDups

/-- The table of some entries. -/
def tableOf (entries : List (κ × List Text.Units)) : List (κ × List Text.Units) :=
  (entries.map Prod.fst).eraseDups.map fun key => (key, rulesUnder entries key)

variable {keys : List κ} {rulesOf : κ → List Text.Units} {e : κ × List Text.Units}

theorem foldl_addRule (rules more : List Text.Units) :
    more.foldl addRule rules.eraseDups = (rules ++ more).eraseDups := by
  induction more generalizing rules with
  | nil => rw [List.foldl_nil, List.append_nil]
  | cons r more ih =>
    have hstep : addRule rules.eraseDups r = (rules ++ [r]).eraseDups := by
      rw [addRule, List.eraseDups_append]
      by_cases hr : r ∈ rules <;> simp [List.mem_eraseDups, List.removeAll, hr, List.eraseDups_cons]
    rw [List.foldl_cons, hstep, ih, List.append_assoc, List.singleton_append]

theorem gather_of_not_mem (hnew : e.1 ∉ keys) :
    gather (keys.map fun key => (key, rulesOf key)) e =
      keys.map (fun key => (key, rulesOf key)) ++ [(e.1, e.2.foldl addRule [])] := by
  induction keys with
  | nil => rfl
  | cons key rest ih =>
    rw [List.mem_cons, not_or] at hnew
    rw [List.map_cons, gather, if_neg (Ne.symm hnew.1), ih hnew.2, List.cons_append]

theorem gather_of_mem (hnodup : keys.Nodup) (hmem : e.1 ∈ keys) :
    gather (keys.map fun key => (key, rulesOf key)) e = keys.map fun key =>
      (key, if key = e.1 then e.2.foldl addRule (rulesOf key) else rulesOf key) := by
  induction keys with
  | nil => cases hmem
  | cons key rest ih =>
    rw [List.nodup_cons] at hnodup
    rw [List.map_cons, List.map_cons, gather]
    by_cases hkey : key = e.1
    · have hrest : ∀ other ∈ rest, other ≠ e.1 := by
        rintro other hother rfl
        exact hnodup.1 (hkey ▸ hother)
      rw [if_pos hkey, if_pos hkey]
      refine congrArg _ (List.map_congr_left fun other hother => ?_)
      rw [if_neg (hrest other hother)]
    · rw [if_neg hkey, if_neg hkey,
        ih hnodup.2 ((List.mem_cons.mp hmem).resolve_left (Ne.symm hkey))]

theorem rulesUnder_concat (entries : List (κ × List Text.Units)) (e : κ × List Text.Units) (key : κ) :
    rulesUnder (entries ++ [e]) key =
      if key = e.1 then e.2.foldl addRule (rulesUnder entries key) else rulesUnder entries key := by
  rw [rulesUnder, List.filter_append, List.flatMap_append]
  by_cases hkey : key = e.1
  · rw [if_pos hkey, List.filter_cons_of_pos (by rw [decide_eq_true_eq, hkey]), List.filter_nil,
      List.flatMap_singleton, rulesUnder, foldl_addRule]
  · rw [if_neg hkey, List.filter_cons_of_neg (by rw [decide_eq_true_eq]; exact Ne.symm hkey),
      List.filter_nil, List.flatMap_nil, List.append_nil, rulesUnder]

/-- An entry adds its rules to those under its key, and its key if it is new. -/
theorem gather_tableOf (entries : List (κ × List Text.Units)) (e : κ × List Text.Units) :
    gather (tableOf entries) e = tableOf (entries ++ [e]) := by
  have hrules : (fun key => (key, rulesUnder (entries ++ [e]) key)) = fun key =>
      (key, if key = e.1 then e.2.foldl addRule (rulesUnder entries key)
        else rulesUnder entries key) :=
    funext fun key => congrArg (Prod.mk key) (rulesUnder_concat entries e key)
  rw [tableOf, tableOf, hrules, List.map_append, List.eraseDups_append]
  by_cases hmem : e.1 ∈ entries.map Prod.fst
  · have hnone : ([e].map Prod.fst).removeAll (entries.map Prod.fst) = [] := by
      simpa [List.removeAll] using hmem
    rw [hnone, List.eraseDups_nil, List.append_nil]
    exact gather_of_mem (nodup_eraseDups _) (List.mem_eraseDups.mpr hmem)
  · have hone : ([e].map Prod.fst).removeAll (entries.map Prod.fst) = [e.1] := by
      simpa [List.removeAll] using hmem
    have hfirst : rulesUnder entries e.1 = [] := by
      have hnone : entries.filter (·.1 = e.1) = [] := by
        refine List.filter_eq_nil_iff.mpr fun other hother heq => hmem ?_
        exact List.mem_map.mpr ⟨other, hother, of_decide_eq_true heq⟩
      rw [rulesUnder, hnone]
      rfl
    have hothers : ∀ key ∈ (entries.map Prod.fst).eraseDups, key ≠ e.1 := by
      rintro key hkey rfl
      exact hmem (List.mem_eraseDups.mp hkey)
    rw [hone, List.map_append, List.eraseDups_cons, List.filter_nil, List.eraseDups_nil,
      List.map_singleton, if_pos rfl, hfirst,
      gather_of_not_mem fun hin => hmem (List.mem_eraseDups.mp hin)]
    refine congrArg (· ++ _) (List.map_congr_left fun key hkey => ?_)
    rw [if_neg (hothers key hkey)]

theorem foldl_gather_tableOf (rest done : List (κ × List Text.Units)) :
    rest.foldl gather (tableOf done) = tableOf (done ++ rest) := by
  induction rest generalizing done with
  | nil => rw [List.append_nil]; rfl
  | cons e rest ih => rw [List.foldl_cons, gather_tableOf, ih, List.append_assoc]; rfl

theorem foldl_gather (entries : List (κ × List Text.Units)) :
    entries.foldl gather [] = tableOf entries :=
  foldl_gather_tableOf entries []

end LintDebt.Suppression
