import LintDebt.Proofs.Query.Occupied
import LintDebt.Proofs.Workflow.Sample

/-! # What hiding does to a job

A job that leaves the list and its hidden path alone, and does not look at them, should end alike
whether or not the list is hidden meanwhile. It does: result, state and the rest of the tree are
those of the job alone, and the list is back. But whatever stood at the hidden path is gone, because
the move away replaces it; so the tree is the one of the job alone exactly if nothing stood there. -/

namespace LintDebt

namespace FileTree

variable {t t' : FileTree} {j l k : Location}

/-- The tree without what stands at two places. -/
def elsewhere (t : FileTree) (l k : Location) : FileTree := (t.erase l).erase k

/-- Holds for a place at which a file stands, or nothing. -/
def Plain (t : FileTree) (l : Location) : Prop :=
  ∀ n, t.node? l = some n → ∃ octets, n = .file octets

theorem plain_of_none (h : t.node? l = none) : t.Plain l := by
  intro n hn
  rw [h] at hn
  cases hn

theorem plain_of_file {octets : List UInt8} (h : t.node? l = some (.file octets)) : t.Plain l := by
  intro n hn
  exact ⟨octets, Option.some.inj (hn.symm.trans h)⟩

theorem Plain.way?_eq_none (h : t.Plain l) : t.way? l = none := by
  rw [way?]
  cases hn : t.node? l with
  | none => rfl
  | some n =>
    obtain ⟨octets, rfl⟩ := h n hn
    rfl

theorem nodes_elsewhere :
    (t.elsewhere l k).nodes[j]? = if j = k then none else if j = l then none else t.nodes[j]? := by
  rw [elsewhere, nodes_erase, nodes_erase]

/-- Files do not matter to where the paths lead. -/
theorem sameWays_elsewhere (hl : l ≠ []) (hk : k ≠ []) (hpl : t.Plain l) (hpk : t.Plain k) :
    SameWays t (t.elsewhere l k) := by
  have hplain : (t.erase l).Plain k := by
    intro n hn
    rw [node?_erase hl] at hn
    split at hn
    · cases hn
    · exact hpk n hn
  exact (sameWays_erase hl hpl.way?_eq_none).trans (sameWays_erase hk hplain.way?_eq_none)

theorem elsewhere_put {n : Node} (hjl : j ≠ l) (hjk : j ≠ k) :
    (t.put j n).elsewhere l k = (t.elsewhere l k).put j n := by
  refine ext_nodes (fun i => ?_) rfl
  simp only [nodes_elsewhere, nodes_put]
  by_cases hi : i = j
  · rw [if_pos hi, if_neg (fun h => hjk (hi.symm.trans h)), if_neg (fun h => hjl (hi.symm.trans h)),
      if_pos hi]
  · simp only [hi, ↓reduceIte]

/-- What moves between two places is not seen elsewhere. -/
theorem elsewhere_move {n : Node} : ((t.erase l).put k n).elsewhere l k = t.elsewhere l k := by
  refine ext_nodes (fun j => ?_) rfl
  simp only [nodes_elsewhere, nodes_put, nodes_erase]
  split
  · rfl
  · split <;> rfl

/-- A tree with a file at one place and nothing at the other, from a tree that agrees elsewhere. -/
theorem move_of_elsewhere {n : Node} (hl : l ≠ []) (hlk : l ≠ k)
    (h : t'.elsewhere l k = t.elsewhere l k) (hn : t.node? l = some n) :
    (t'.erase k).put l n = t.erase k := by
  have hhere : (t'.elsewhere l k).here = (t.elsewhere l k).here := by rw [h]
  refine ext_nodes (fun j => ?_) hhere
  have hj := congrArg (fun t : FileTree => t.nodes[j]?) h
  simp only [nodes_elsewhere] at hj
  rw [nodes_put, nodes_erase, nodes_erase]
  by_cases hjl : j = l
  · rw [if_pos hjl, hjl, if_neg hlk, nodes_of_node? hl, hn]
  · rw [if_neg hjl]
    rw [if_neg hjl, if_neg hjl] at hj
    exact hj

end FileTree

open FileTree Query

variable {σ α : Type} {x : Job σ α} {w w' : World σ} {l k : Location}

/-- Holds for worlds that differ in the log, and in files at two places. -/
structure World.Alike (w w' : World σ) (l k : Location) : Prop where
  state : w'.state = w.state
  elsewhere : w'.tree.elsewhere l k = w.tree.elsewhere l k
  first : w'.tree.Plain l
  second : w'.tree.Plain k

/-- Holds for a job that neither changes two places nor depends on what stands there. -/
structure Job.Heedless (x : Job σ α) (w : World σ) (l k : Location) : Prop where
  result : ∀ w', w.Alike w' l k → (x.runFrom w').1 = (x.runFrom w).1
  state : ∀ w', w.Alike w' l k → (x.runFrom w').2.state = (x.runFrom w).2.state
  elsewhere : ∀ w', w.Alike w' l k →
    (x.runFrom w').2.tree.elsewhere l k = (x.runFrom w).2.tree.elsewhere l k
  first : ∀ w', w.Alike w' l k → (x.runFrom w').2.tree.node? l = w'.tree.node? l
  second : ∀ w', w.Alike w' l k → (x.runFrom w').2.tree.node? k = w'.tree.node? k

namespace Query

variable {t₁ : FileTree} {list hidden : Path} {directory : Location} {name : String}
  {octets : List UInt8}

/-- The world in which a job runs while the list is hidden is like the one from which it was
hidden. -/
theorem alike_inside
    (heq : t₁ = (w.tree.erase (directory ++ [name])).put (directory ++ [name ++ hiddenSuffix])
      (.file octets)) :
    w.Alike (inside w list hidden t₁) (directory ++ [name]) (directory ++ [name ++ hiddenSuffix]) := by
  have hl : directory ++ [name] ≠ [] := concat_ne_nil
  have hk : directory ++ [name ++ hiddenSuffix] ≠ [] := concat_ne_nil
  refine ⟨rfl, ?_, plain_of_none ?_, @plain_of_file _ _ octets ?_⟩
  · rw [inside, heq]
    exact elsewhere_move
  · rw [inside, heq, node?_put hk, if_neg concat_ne_hidden, node?_erase hl, if_pos rfl]
  · rw [inside, heq, node?_put hk, if_pos rfl]

/-- A file that was hidden during a heedless job is moved back to where the job alone leaves it. -/
theorem rename_back_of_heedless {t' t : FileTree} (hentry : t.Entry list.text directory name)
    (hentry' : w.tree.Entry hidden.text directory (name ++ hiddenSuffix))
    (hhidden : hiddenPath list = .ok hidden)
    (helsewhere : t'.elsewhere (directory ++ [name]) (directory ++ [name ++ hiddenSuffix]) =
      t.elsewhere (directory ++ [name]) (directory ++ [name ++ hiddenSuffix]))
    (hn : t.node? (directory ++ [name]) = some (.file octets))
    (hplain : t.Plain (directory ++ [name ++ hiddenSuffix]))
    (hvacant : t'.node? (directory ++ [name]) = none)
    (hn' : t'.node? (directory ++ [name ++ hiddenSuffix]) = some (.file octets)) :
    t'.rename hidden.text list.text = .ok (t.erase (directory ++ [name ++ hiddenSuffix])) := by
  have hl : directory ++ [name] ≠ [] := concat_ne_nil
  have hk : directory ++ [name ++ hiddenSuffix] ≠ [] := concat_ne_nil
  have hways : SameWays t t' := by
    refine (sameWays_elsewhere hl hk (plain_of_file hn) hplain).trans ?_
    rw [← helsewhere]
    exact (sameWays_elsewhere hl hk (plain_of_none hvacant) (plain_of_file hn')).symm
  have hlist := hentry.of_sameWays hways
  have haside := hidden_of_entry hentry' hhidden hlist
  rw [haside.rename hlist ne_hidden_name.symm hn' nofun (by rw [hvacant]; simp)]
  exact congrArg Except.ok (move_of_elsewhere hl concat_ne_hidden helsewhere hn)

/-- Holds for a path at which a file stands, or nothing. -/
def PlainAt (t : FileTree) (path : Path) : Prop :=
  t.isPresent path.text = false ∨ ∃ octets, t.lstat path.text = .ok (.file octets)

theorem PlainAt.plain {t : FileTree} {path : Path} (h : PlainAt t path)
    (hentry : t.Entry path.text directory name) : t.Plain (directory ++ [name]) := by
  rcases h with h | ⟨octets, h⟩
  · exact plain_of_none (hentry.isPresent_eq_false.mp h)
  · exact plain_of_file (hentry.lstat_eq_ok.mp h)

/-- A file that is at its place can be looked for; where nothing is, nothing is found. -/
theorem PlainAt.cases {t : FileTree} {path : Path} (h : PlainAt t path) (ht : t.IsTree)
    (hexists : t.existsAt path.text = .ok true) :
    ∃ directory name octets, t.Entry path.text directory name ∧
      t.node? (directory ++ [name]) = some (.file octets) := by
  rcases h with h | ⟨octets, h⟩
  · obtain ⟨n, hn⟩ := exists_stat_of_existsAt hexists
    rw [isPresent_of_stat hn] at h
    cases h
  · obtain ⟨directory, name, hentry, hn⟩ := ht.exists_entry h nofun
    exact ⟨directory, name, octets, hentry, hn⟩

section

variable (hentry : w.tree.Entry list.text directory name) (hhidden : hiddenPath list = .ok hidden)
  (hn : w.tree.node? (directory ++ [name]) = some (.file octets)) (haside : PlainAt w.tree hidden)
  (haway : w.tree.rename list.text hidden.text = .ok t₁)
  (hheedless : x.Heedless w (directory ++ [name]) (directory ++ [name ++ hiddenSuffix]))
  (hafter : (x.runFrom w).2.tree.Entry list.text directory name)
include hentry hhidden hn haside haway hheedless hafter

/-- The run of a heedless job while the list is hidden. -/
theorem runFrom_whileHidden_of_heedless :
    let inner := x.runFrom (inside w list hidden t₁)
    (whileHidden list x).runFrom w =
      (inner.1, { inner.2 with tree := (x.runFrom w).2.tree.vacate hidden.text }) ∧
    inner.1 = (x.runFrom w).1 ∧ inner.2.state = (x.runFrom w).2.state ∧
    ((x.runFrom w).2.tree.vacate hidden.text = (x.runFrom w).2.tree ↔
      w.tree.isPresent hidden.text = false) := by
  have hl : directory ++ [name] ≠ [] := concat_ne_nil
  have hk : directory ++ [name ++ hiddenSuffix] ≠ [] := concat_ne_nil
  have hentry' := entry_hidden_of_rename hentry hhidden haway
  have hplain := haside.plain hentry'
  obtain ⟨-, heq⟩ := eq_of_rename_hidden hentry hhidden hn nofun haway
  have hself : w.Alike w (directory ++ [name]) (directory ++ [name ++ hiddenSuffix]) :=
    ⟨rfl, rfl, plain_of_file hn, hplain⟩
  have hinside : w.Alike (inside w list hidden t₁) (directory ++ [name])
    (directory ++ [name ++ hiddenSuffix]) := alike_inside heq
  have hback := rename_back_of_heedless hafter hentry' hhidden (hheedless.elsewhere _ hinside)
    ((hheedless.first _ hself).trans hn)
    (fun m hm => hplain m ((hheedless.second _ hself).symm.trans hm))
    ((hheedless.first _ hinside).trans
      (by rw [inside, heq, node?_put hk, if_neg concat_ne_hidden, node?_erase hl, if_pos rfl]))
    ((hheedless.second _ hinside).trans (by rw [inside, heq, node?_put hk, if_pos rfl]))
  have hvacate := (hidden_of_entry hentry' hhidden hafter).vacate_eq
  rw [← hvacate] at hback
  refine ⟨runFrom_whileHidden_of_away (hentry.existsAt hn) hhidden haway hback,
    hheedless.result _ hinside, hheedless.state _ hinside, ?_⟩
  rw [hvacate, hentry'.isPresent_eq_false, ← hheedless.second _ hself]
  constructor
  · intro h
    rw [← h, node?_erase hk, if_pos rfl]
  · exact erase_eq_self hk

end

/-- A heedless job ends as it would alone, and so does the tree, but for what stood at the hidden
path. If the list is not there, or cannot be moved, nothing is hidden and nothing is lost. -/
theorem whileHidden_transparent (x : Job σ α) (w : World σ) (list hidden : Path)
    (ht : w.tree.IsTree) (hhidden : hiddenPath list = .ok hidden)
    (hlist : PlainAt w.tree list) (haside : PlainAt w.tree hidden) :
    let run := (whileHidden list x).runFrom w
    let alone := x.runFrom w
    (∀ e, w.tree.existsAt list.text = .error e → run = (.error (.fault (.os e)), w)) ∧
    (w.tree.existsAt list.text = .ok false → run = alone) ∧
    (w.tree.existsAt list.text = .ok true → ∃ directory name, w.tree.Entry list.text directory name ∧
      (∀ e, w.tree.rename list.text hidden.text = .error e →
        run = (.error (.tool (.unmovable (.os e) list.text hidden.text)), w)) ∧
      ∀ t₁, w.tree.rename list.text hidden.text = .ok t₁ →
        x.Heedless w (directory ++ [name]) (directory ++ [name ++ hiddenSuffix]) →
        alone.2.tree.Entry list.text directory name →
        run.1 = alone.1 ∧ run.2.state = alone.2.state ∧
        run.2.tree = alone.2.tree.vacate hidden.text ∧
        (run.2.tree = alone.2.tree ↔ w.tree.isPresent hidden.text = false)) := by
  intro run alone
  refine ⟨fun e h => runFrom_whileHidden_of_unknown h, fun h => runFrom_whileHidden_of_absent h, ?_⟩
  intro hexists
  obtain ⟨directory, name, octets, hentry, hn⟩ := hlist.cases ht hexists
  refine ⟨directory, name, hentry, fun e haway => ?_, fun t₁ haway hheedless hafter => ?_⟩
  · obtain ⟨code, -, hstuck⟩ := exists_stuck hentry.null (nonnull_hiddenPath hhidden hentry.null) haway
    rw [← hstuck]
    exact runFrom_whileHidden_of_stuck hexists hhidden haway
  · obtain ⟨hrun, hresult, hstate, htree⟩ := runFrom_whileHidden_of_heedless hentry hhidden hn haside
      haway hheedless hafter
    rw [show run = _ from hrun]
    exact ⟨hresult, hstate, rfl, htree⟩

/-- A job that writes a stylesheet and then fails. -/
def Sample.writer : Job Unit Unit := do
  Job.changeTree fun t => .ok (t.put ["x.css"] (.file (Sample.octets "x")))
  throw (.fault (.raised "ValueError" "stop"))

theorem Sample.runFrom_writer (w : World Unit) : Sample.writer.runFrom w =
    (.error (.fault (.raised "ValueError" "stop")),
      { w with tree := w.tree.put ["x.css"] (.file (Sample.octets "x")) }) :=
  rfl

theorem Sample.heedless_writer (w : World Unit) (hl : ["x.css"] ≠ l) (hk : ["x.css"] ≠ k) :
    Sample.writer.Heedless w l k := by
  have hne : ["x.css"] ≠ ([] : Location) := List.cons_ne_nil _ _
  constructor
  · intro w' h
    rfl
  · intro w' h
    exact h.state
  · intro w' h
    simp only [Sample.runFrom_writer, elsewhere_put hl hk, h.elsewhere]
  · intro w' h
    simp only [Sample.runFrom_writer, node?_put hne, if_neg hl.symm]
  · intro w' h
    simp only [Sample.runFrom_writer, node?_put hne, if_neg hk.symm]

/-- A list beside other files. -/
def Sample.listed (others : List (Location × Node)) : World Unit :=
  ⟨⟨Std.ExtTreeMap.ofList ((["m"], Node.file (Sample.octets "a")) :: others), []⟩, (), []⟩

def Sample.listedPath : Path := ⟨.relative, ["m"]⟩

def Sample.asidePath : Path := ⟨.relative, ["m.slim-hidden"]⟩

/-- The job fails, and the list is back beside the new stylesheet. -/
theorem whileHidden_transparent_alone :
    (Sample.listed []).tree.IsTree ∧ hiddenPath Sample.listedPath = .ok Sample.asidePath ∧
    PlainAt (Sample.listed []).tree Sample.listedPath ∧
    PlainAt (Sample.listed []).tree Sample.asidePath ∧
    ((whileHidden Sample.listedPath Sample.writer).runFrom (Sample.listed [])).1 =
      .error (.fault (.raised "ValueError" "stop")) ∧
    ((whileHidden Sample.listedPath Sample.writer).runFrom (Sample.listed [])).2.tree =
      (Sample.listed []).tree.put ["x.css"] (.file (Sample.octets "x")) := by
  have ht : (Sample.listed []).tree.IsTree := by decide +kernel
  have hhidden : hiddenPath Sample.listedPath = .ok Sample.asidePath := by decide +kernel
  have hlist : PlainAt (Sample.listed []).tree Sample.listedPath :=
    Or.inr ⟨Sample.octets "a", by decide +kernel⟩
  have hfree : (Sample.listed []).tree.isPresent Sample.asidePath.text = false := by decide +kernel
  have hexists : (Sample.listed []).tree.existsAt Sample.listedPath.text = .ok true := by
    decide +kernel
  have haway : ((Sample.listed []).tree.rename Sample.listedPath.text Sample.asidePath.text).isOk := by
    decide +kernel
  have hafter : (Sample.writer.runFrom (Sample.listed [])).2.tree.Entry Sample.listedPath.text [] "m" :=
    ⟨by decide, by decide +kernel, by decide +kernel, by decide⟩
  have hbefore : (Sample.listed []).tree.Entry Sample.listedPath.text [] "m" :=
    ⟨by decide, by decide +kernel, by decide +kernel, by decide⟩
  obtain ⟨-, -, hrun⟩ := whileHidden_transparent Sample.writer (Sample.listed []) Sample.listedPath
    Sample.asidePath ht hhidden hlist (Or.inl hfree)
  obtain ⟨directory, name, hentry, -, hmoved⟩ := hrun hexists
  obtain ⟨rfl, rfl⟩ := hbefore.unique hentry
  cases hrename : (Sample.listed []).tree.rename Sample.listedPath.text Sample.asidePath.text with
  | error e =>
    rw [hrename] at haway
    cases haway
  | ok t₁ =>
    obtain ⟨hresult, -, -, htree⟩ := hmoved t₁ hrename
      (Sample.heedless_writer _ (by decide) (by decide)) hafter
    exact ⟨ht, hhidden, hlist, Or.inl hfree, hresult, htree.mpr hfree⟩

/-- A file that was left at the hidden path is gone, though the job alone keeps it. -/
theorem leftover_lost :
    let w := Sample.listed [(["m.slim-hidden"], .file (Sample.octets "b"))]
    w.tree.IsTree ∧ hiddenPath Sample.listedPath = .ok Sample.asidePath ∧
    w.tree.lstat Sample.listedPath.text = .ok (.file (Sample.octets "a")) ∧
    w.tree.lstat Sample.asidePath.text = .ok (.file (Sample.octets "b")) ∧
    Sample.writer.Heedless w ["m"] ["m.slim-hidden"] ∧
    (Sample.writer.runFrom w).2.tree.lstat Sample.asidePath.text = .ok (.file (Sample.octets "b")) ∧
    ((whileHidden Sample.listedPath Sample.writer).runFrom w).2.tree.isPresent
      Sample.asidePath.text = false := by
  refine ⟨by decide +kernel, by decide +kernel, by decide +kernel, by decide +kernel,
    Sample.heedless_writer _ (by decide) (by decide), by decide +kernel, by decide +kernel⟩

end Query
end LintDebt
