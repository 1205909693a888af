import LintDebt.FileTree.Access
import LintDebt.Proofs.Except

/-! # What stands where after a change

The view of a tree is `node?`: one equation for each change of a tree. A walk goes through
directories and links only, so the part of the view that matters to it is `way?`; trees with the
same ways lead every path to the same place. -/

namespace LintDebt

/-- Holds for what a walk can go on from. -/
def Node.isWay : Node → Bool
  | .file _ => false
  | .directory | .link _ => true

namespace FileTree

variable {t t' : FileTree} {l k : Location} {n : Node}

@[simp] theorem node?_nil : t.node? [] = some .directory := rfl

theorem nodes_put : (t.put l n).nodes[k]? = if k = l then some n else t.nodes[k]? := by
  rw [put, Std.ExtTreeMap.getElem?_insert]
  simp only [Std.LawfulEqCmp.compare_eq_iff_eq, @eq_comm _ l k]

theorem nodes_erase : (t.erase l).nodes[k]? = if k = l then none else t.nodes[k]? := by
  rw [erase, Std.ExtTreeMap.getElem?_erase]
  simp only [Std.LawfulEqCmp.compare_eq_iff_eq, @eq_comm _ l k]

theorem node?_put (hl : l ≠ []) : (t.put l n).node? k = if k = l then some n else t.node? k := by
  by_cases hk : k = []
  · subst hk
    simp [hl.symm]
  · simp only [node?, hk, ↓reduceIte, nodes_put]

theorem node?_erase (hl : l ≠ []) : (t.erase l).node? k = if k = l then none else t.node? k := by
  by_cases hk : k = []
  · subst hk
    simp [hl.symm]
  · simp only [node?, hk, ↓reduceIte, nodes_erase]

theorem nodes_of_node? (hl : l ≠ []) : t.nodes[l]? = t.node? l := by
  simp only [node?, hl, ↓reduceIte]

theorem ext_nodes (hnodes : ∀ k : Location, t.nodes[k]? = t'.nodes[k]?) (hhere : t.here = t'.here) :
    t = t' := by
  cases t
  cases t'
  simp only [mk.injEq] at *
  exact ⟨Std.ExtTreeMap.ext_getElem? hnodes, hhere⟩

instance : DecidableEq FileTree := fun t t' =>
  decidable_of_iff (t.nodes = t'.nodes ∧ t.here = t'.here) <| by
    cases t
    cases t'
    simp

/-- A node that is moved away and back leaves nothing where it was in between. -/
theorem put_erase_put_erase (hl : l ≠ []) (hlk : l ≠ k) (hn : t.node? l = some n) :
    (((t.erase l).put k n).erase k).put l n = t.erase k := by
  refine ext_nodes (fun j => ?_) rfl
  rw [nodes_put, nodes_erase, nodes_put, nodes_erase, nodes_erase]
  by_cases hj : j = l
  · subst hj
    rw [if_pos rfl, if_neg hlk, nodes_of_node? hl, hn]
  · simp only [hj, ↓reduceIte]
    split <;> rfl

/-- What was put at a place does not matter once it is taken away. -/
theorem put_erase : (t.put l n).erase l = t.erase l := by
  refine ext_nodes (fun j => ?_) rfl
  rw [nodes_erase, nodes_erase, nodes_put]
  split <;> rfl

theorem erase_erase_comm : (t.erase l).erase k = (t.erase k).erase l := by
  refine ext_nodes (fun j => ?_) rfl
  simp only [nodes_erase]
  split <;> split <;> rfl

theorem erase_erase_self : (t.erase l).erase l = t.erase l := by
  refine ext_nodes (fun j => ?_) rfl
  simp only [nodes_erase]
  split <;> rfl

theorem put_put_comm {m : Node} (hlk : l ≠ k) : (t.put l n).put k m = (t.put k m).put l n := by
  refine ext_nodes (fun j => ?_) rfl
  simp only [nodes_put]
  by_cases hj : j = k
  · rw [if_pos hj, if_neg (fun hl => hlk (hl.symm.trans hj)), if_pos hj]
  · simp only [hj, ↓reduceIte]

theorem put_put_self {m : Node} : (t.put l n).put l m = t.put l m := by
  refine ext_nodes (fun j => ?_) rfl
  simp only [nodes_put]
  split <;> rfl

/-- To put what is there already changes nothing. -/
theorem put_eq_self (hl : l ≠ []) (hn : t.node? l = some n) : t.put l n = t := by
  refine ext_nodes (fun j => ?_) rfl
  rw [nodes_put]
  split
  · next hj => rw [hj, nodes_of_node? hl, hn]
  · rfl

/-- To take away what is not there changes nothing. -/
theorem erase_eq_self (hl : l ≠ []) (hn : t.node? l = none) : t.erase l = t := by
  refine ext_nodes (fun j => ?_) rfl
  rw [nodes_erase]
  split
  · next hj => rw [hj, nodes_of_node? hl, hn]
  · rfl

/-- What a walk can go on from at a location. -/
def way? (t : FileTree) (l : Location) : Option Node := (t.node? l).filter Node.isWay

theorem way?_eq_some : t.way? l = some n ↔ t.node? l = some n ∧ n.isWay := by
  simp only [way?, Option.filter_eq_some_iff]

/-- Holds for trees that differ in files only. -/
structure SameWays (t t' : FileTree) : Prop where
  here : t.here = t'.here
  way? : ∀ l, t.way? l = t'.way? l

theorem SameWays.refl (t : FileTree) : SameWays t t := ⟨rfl, fun _ => rfl⟩

theorem SameWays.symm (h : SameWays t t') : SameWays t' t :=
  ⟨h.here.symm, fun l => (h.way? l).symm⟩

theorem SameWays.trans {t'' : FileTree} (h : SameWays t t') (h' : SameWays t' t'') :
    SameWays t t'' :=
  ⟨h.here.trans h'.here, fun l => (h.way? l).trans (h'.way? l)⟩

theorem SameWays.node?_eq (h : SameWays t t') (hn : t.node? l = some n) (hway : n.isWay) :
    t'.node? l = some n := by
  have hl := way?_eq_some.mpr ⟨hn, hway⟩
  rw [h.way? l] at hl
  exact (way?_eq_some.mp hl).1

/-- A file that comes, goes or changes leaves all ways as they are. -/
theorem sameWays_put (hl : l ≠ []) (hn : t.way? l = none) (octets : List UInt8) :
    SameWays t (t.put l (.file octets)) := by
  refine ⟨rfl, fun k => ?_⟩
  rw [way?, way?, node?_put hl]
  split
  · next hk => rw [hk]; exact hn
  · rfl

theorem sameWays_erase (hl : l ≠ []) (hn : t.way? l = none) : SameWays t (t.erase l) := by
  refine ⟨rfl, fun k => ?_⟩
  rw [way?, way?, node?_erase hl]
  split
  · next hk => rw [hk]; exact hn
  · rfl

theorem SameWays.erase (h : SameWays t t') (hl : l ≠ []) : SameWays (t.erase l) (t'.erase l) := by
  refine ⟨h.here, fun k => ?_⟩
  have hk := h.way? k
  rw [FileTree.way?, FileTree.way?] at hk ⊢
  rw [node?_erase hl, node?_erase hl]
  split
  · rfl
  · exact hk

/-- Holds for what is a tree indeed: every node stands in a directory, and relative paths start
from one. -/
structure IsTree (t : FileTree) : Prop where
  here : t.node? t.here = some .directory
  parent : ∀ l name, t.node? (l ++ [name]) ≠ none → t.node? l = some .directory

theorem IsTree.dropLast (h : t.IsTree) (hl : t.node? l = some .directory) :
    t.node? l.dropLast = some .directory := by
  rcases l.eq_nil_or_concat with rfl | ⟨k, name, rfl⟩
  · exact hl
  · rw [List.concat_eq_append] at hl ⊢
    rw [List.dropLast_concat]
    exact h.parent k name (by rw [hl]; simp)

theorem mem_locations : l ∈ t.locations ↔ t.nodes[l]? ≠ none := by
  rw [locations, Std.ExtTreeMap.mem_keys, Std.ExtTreeMap.mem_iff_isSome_getElem?,
    Option.isSome_iff_ne_none]

theorem mem_locations_iff (hl : l ≠ []) : l ∈ t.locations ↔ t.node? l ≠ none := by
  rw [mem_locations, nodes_of_node? hl]

theorem node?_of_mem_locations (h : l ∈ t.locations) : t.node? l ≠ none := by
  by_cases hnil : l = []
  · simp [hnil, node?]
  · exact (mem_locations_iff hnil).mp h

/-- Trees with nodes at the same places list them in the same order. -/
theorem locations_congr (h : ∀ l : Location, t.nodes[l]? = none ↔ t'.nodes[l]? = none) :
    t.locations = t'.locations := by
  have hperm : t.locations.Perm t'.locations := by
    refine (List.perm_ext_iff_of_nodup Std.ExtTreeMap.nodup_keys Std.ExtTreeMap.nodup_keys).mpr
      fun l => ?_
    exact mem_locations.trans ((not_congr (h l)).trans mem_locations.symm)
  refine hperm.eq_of_pairwise (fun a b _ _ hab hba => ?_) Std.ExtTreeMap.ordered_keys
    Std.ExtTreeMap.ordered_keys
  rw [Std.OrientedCmp.gt_of_lt hab] at hba
  cases hba

/-- A finite tree can be checked. -/
theorem isTree_iff : t.IsTree ↔ t.node? t.here = some .directory ∧
    ∀ l ∈ t.locations, t.node? l.dropLast = some .directory := by
  constructor
  · intro h
    refine ⟨h.here, fun l hl => ?_⟩
    rcases l.eq_nil_or_concat with rfl | ⟨k, name, rfl⟩
    · rfl
    · rw [List.concat_eq_append] at hl ⊢
      rw [List.dropLast_concat]
      exact h.parent k name (node?_of_mem_locations hl)
  · rintro ⟨hhere, hall⟩
    refine ⟨hhere, fun l name hn => ?_⟩
    have hl := hall (l ++ [name]) ((mem_locations_iff (by simp)).mpr hn)
    rwa [List.dropLast_concat] at hl

instance : Decidable t.IsTree := decidable_of_iff _ isTree_iff.symm

/-- A file may come to any place in a directory where no directory is. -/
theorem IsTree.put (h : t.IsTree) {name : String} (hl : t.node? l = some .directory)
    (hn : t.node? (l ++ [name]) ≠ some .directory) : (t.put (l ++ [name]) n).IsTree := by
  have hne : l ++ [name] ≠ [] := by simp
  have hkeep : ∀ k, t.node? k = some .directory →
      (t.put (l ++ [name]) n).node? k = some .directory := by
    intro k hk
    rw [node?_put hne, if_neg, hk]
    rintro rfl
    exact hn hk
  refine ⟨hkeep _ h.here, fun k m hk => ?_⟩
  rw [node?_put hne] at hk
  by_cases hkm : k ++ [m] = l ++ [name]
  · obtain ⟨rfl, -⟩ := List.append_inj' hkm rfl
    exact hkeep k hl
  · rw [if_neg hkm] at hk
    exact hkeep k (h.parent k m hk)

theorem IsTree.put_over (h : t.IsTree) (hl : l ≠ []) {octets : List UInt8}
    (hn : t.node? l = some (.file octets)) : (t.put l n).IsTree := by
  obtain ⟨k, name, rfl⟩ := l.eq_nil_or_concat.resolve_left hl
  rw [List.concat_eq_append] at hn ⊢
  exact h.put (h.parent k name (by rw [hn]; simp)) (by rw [hn]; simp)

theorem IsTree.erase (h : t.IsTree) (hl : l ≠ []) (hn : t.node? l ≠ some .directory) :
    (t.erase l).IsTree := by
  have hkeep : ∀ k, t.node? k = some .directory → (t.erase l).node? k = some .directory := by
    intro k hk
    rw [node?_erase hl, if_neg, hk]
    rintro rfl
    exact hn hk
  refine ⟨hkeep _ h.here, fun k m hk => ?_⟩
  rw [node?_erase hl] at hk
  split at hk
  · exact absurd rfl hk
  · exact hkeep k (h.parent k m hk)

end FileTree
end LintDebt
