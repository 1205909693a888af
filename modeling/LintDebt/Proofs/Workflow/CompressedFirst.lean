import LintDebt.Proofs.Suppression.Plan
import LintDebt.Proofs.Workflow.Compressed

/-! # Compressing before eliminating

A linter that looks at one file at a time says the same of a file before and after a compression, and a
compression keeps every pattern that finds a failing file. So an elimination comes to the same whether
or not the list was compressed before: the failing files are the same, and in what order they are
annotated does not matter. -/

namespace LintDebt.Workflow

open Job FileTree Query

variable {σ : Type} {l : Linter σ} {s : Settings} {base list p : Path} {style : Suppression.Style}
  {opinion : Opinion} {t t₀ t' : FileTree} {config : Json.Fields} {lines : List String}
  {entries : IgnoreList} {files asked : List Path} {b : Tally}

/-- Holds if each of these files that fails in `t₀` is asked about in another tree, which differs from
`t₀` in contents only, and not in the content of one of these files. -/
structure Inquiry (t₀ t : FileTree) (list : Path) (config : Json.Fields) (opinion : Opinion)
    (asked files : List Path) : Prop where
  shape : SameShape t₀ t
  nodup : files.Nodup
  read : ∀ p ∈ files, (∃ octets, t₀.read p.text = .ok octets ∧ t.read p.text = .ok octets) ∧
    t.target? p.text ≠ t.target? list.text
  all : ∀ p ∈ files, fails opinion config t₀ p = true → p ∈ asked

/-- Holds for the tree with the list emptied, if nothing failed, and for the tree as it is otherwise. -/
def Emptied (list : Path) (b : Tally) (t : FileTree) : Prop :=
  if b.failed = 0 then b.tree.write list.text [] = .ok t else t = b.tree

/-- What an elimination comes to by its tally; without one it has no outcome. -/
def ComesTo (list : Path) : Option Tally → Except Failure Outcome → FileTree → Prop
  | none, r, _ => ∀ o, r ≠ .ok o
  | some b, r, t => ∃ o, r = .ok o ∧ o.filesProcessed = b.done ∧
    o.status = (if b.failed = 0 then .ok else .partly) ∧ Emptied list b t

variable {w : World (σ × List Call)}

/-- Holds for a tree in which questions about files are answered whenever the linter answers. -/
structure Ready (t : FileTree) (list : Path) (asked : List Path) : Prop where
  tree : t.IsTree
  read : ∃ octets, t.read list.text = .ok octets
  free : ∀ hidden, hiddenPath list = .ok hidden → t.isPresent hidden.text = false
  hideable : asked ≠ [] → Hideable t list

theorem Ready.of_sameShape (h : Ready t list asked) (hshape : SameShape t t') : Ready t' list asked := by
  refine ⟨hshape.isTree h.tree, ?_, fun hidden hhidden => ?_,
    fun hne => (h.hideable hne).of_sameShape hshape⟩
  · obtain ⟨octets, hread⟩ := h.read
    obtain ⟨l, -, hn, htarget, -⟩ := write_of_read hread []
    obtain ⟨octets', hn'⟩ := hshape.exists_file hn
    exact ⟨octets', read_of_target? (by rw [← hshape.target?_eq, htarget]) hn'⟩
  · rw [← hshape.isPresent]
    exact h.free hidden hhidden

theorem Ready.write (h : Ready t list asked) (new : List UInt8) :
    ∃ t', t.write list.text new = .ok t' ∧ SameShape t t' := by
  obtain ⟨octets, hread⟩ := h.read
  obtain ⟨l, hl, hn, -, hwrite⟩ := write_of_read hread new
  exact ⟨_, hwrite, .put hl hn new⟩

theorem Emptied.sameShape (h : Emptied list b t) (hready : Ready b.tree list asked) :
    SameShape b.tree t := by
  rw [Emptied] at h
  split at h
  · obtain ⟨t', hwrite, hshape⟩ := hready.write []
    cases hwrite.symm.trans h
    exact hshape
  · rw [h]
    exact .refl _

/-- Holds for a call that changes nothing and is answered. -/
def Answers (c : Call) : Prop := c.after = c.before ∧ ∃ reports, c.answer = .ok reports

/-- A question in such a tree. -/
theorem Ready.asking {calls : List Call} {r : Except Failure (List Report)} (h : Ready t list asked)
    (hask : Asking list config asked t calls r t') (hanswers : ∀ c ∈ calls, Answers c) :
    t' = t ∧ ∃ reports, r = .ok reports := by
  obtain ⟨reports, rfl⟩ := hask.answered h.hideable hanswers
  obtain ⟨octets, hread⟩ := h.read
  exact ⟨(hask.seen h.tree hread (fun c hc => (hanswers c hc).1) h.free).1, reports, rfl⟩

variable {c : Call} {reports : List Report}

/-- The last question changes nothing of what an elimination comes to. It is asked in a tree of which
something is known under a condition. -/
theorem ends_recount_comesTo {o : Outcome} {result : Option Tally} {P : Prop}
    (h : P → ∃ b, result = some b ∧ Tallies o b ∧ Ready b.tree list asked ∧ Emptied list b w.tree) :
    (recount l.watched config asked list o).Ends w fun r t x => ∃ calls, x.2 = w.state.2 ++ calls ∧
      (P → (∀ c ∈ calls, Answers c) → ComesTo list result r t) := by
  refine ends_recount.mono fun r t x ⟨calls, answer, hcalls, hask, _, hgood⟩ =>
    ⟨calls, hcalls, fun hP hanswers => ?_⟩
  obtain ⟨b, rfl, htallies, hready, hemptied⟩ := h hP
  obtain ⟨rfl, remaining, rfl⟩ :=
    (hready.of_sameShape (hemptied.sameShape hready)).asking hask hanswers
  exact ⟨_, hgood remaining rfl, htallies.done, htallies.status, hemptied⟩

theorem tallies_assessed (reports : List Report) (t : FileTree) :
    Tallies (assessed reports) ⟨t, 0, 0⟩ := ⟨fair_assessed reports, rfl, rfl⟩

theorem Emptied.of_truncated {o : Outcome} (h : Truncated list o b.tree t) (htallies : Tallies o b) :
    Emptied list b t := by
  have hfailed : b.failed = 0 ↔ o.failures = [] := by
    rw [← htallies.failed, List.length_eq_zero_iff]
  rw [Emptied]
  cases h with
  | emptied hnone hwrite => rwa [if_pos (hfailed.mpr hnone)]
  | kept hsome htree => rwa [if_neg fun hzero => hsome (hfailed.mp hzero)]

/-- What comes after the survey comes to the tally of the places that the failing reports are about. -/
theorem ends_work_comesTo {P : Prop} (plans : Location → Suppression.Plan) (places : List Location)
    (hready : P → Ready w.tree (listPath s base) asked ∧
      List.Forall₂ (About base plans w.tree) (reports.filter Report.errored) places) :
    (work l.watched s base style config asked reports).Ends w fun r t x =>
      ∃ calls, x.2 = w.state.2 ++ calls ∧ (P → (∀ c ∈ calls, Answers c) → ComesTo (listPath s base)
        (Tally.addAll style plans (some ⟨w.tree, 0, 0⟩) places) r t) := by
  have hyields : (annotateAll base style (assessed reports) reports).Ends w fun r t _ =>
      P → Yields (Tally.addAll style plans (some ⟨w.tree, 0, 0⟩) places) r t :=
    fun hP => (ends_annotateAll_addAll (hready hP).2 rfl (tallies_assessed reports w.tree)).2
  have hsome : ∀ {o t₁}, (P → Yields (Tally.addAll style plans (some ⟨w.tree, 0, 0⟩) places) (.ok o) t₁) →
      P → ∃ b, Tally.addAll style plans (some ⟨w.tree, 0, 0⟩) places = some b ∧ b.tree = t₁ ∧
        Tallies o b ∧ Ready b.tree (listPath s base) asked := by
    intro o t₁ hr hP
    obtain ⟨b, hb, htree, htallies⟩ := (hr hP).eq_some
    exact ⟨b, hb, htree, htallies, (hready hP).1.of_sameShape (Tally.sameShape_of_addAll hb)⟩
  refine ends_work hyields (fun e t hr => ⟨[], (List.append_nil _).symm, fun hP _ => ?_⟩)
    (fun results o t₁ _ hr _ e hwrite => ?_)
    fun results o t₁ _ hr t₂ htruncated log => ends_recount_comesTo fun hP => ?_
  · rw [(hr hP).eq_none]
    nofun
  · -- The list can be emptied, as it could be read.
    refine .of_forall fun r => ⟨[], (List.append_nil _).symm, fun hP _ => ?_⟩
    obtain ⟨b, -, rfl, -, hready₁⟩ := hsome hr hP
    obtain ⟨t₂, hwrite₂, -⟩ := hready₁.write []
    cases (TextFile.write_eq_ok.mpr hwrite₂).symm.trans hwrite
  · obtain ⟨b, hb, rfl, htallies, hready₁⟩ := hsome hr hP
    exact ⟨b, hb, htallies, hready₁, .of_truncated htruncated htallies⟩

theorem answers_of_tells (h : c.Tells t₀ base files opinion) : Answers c := by
  obtain ⟨hquiet, reports, hanswer, -⟩ := h
  exact ⟨hquiet, reports, hanswer⟩

/-- What the first question tells about the failing reports. -/
theorem Inquiry.reported {calls : List Call} (h : Inquiry t₀ t list config opinion asked files)
    (hready : Ready t list asked) (hask : Asking list config asked t calls (.ok reports) t')
    (htells : ∀ c ∈ calls, c.Tells t₀ base files opinion) : t' = t ∧
      List.Forall₂ (About base (planAt opinion config t₀) t) (reports.filter Report.errored)
        (reportedPlaces t₀ base reports) ∧
      (reportedPlaces t₀ base reports).Perm (failingPlaces opinion config t₀ files) := by
  obtain ⟨octets, hread⟩ := hready.read
  obtain ⟨rfl, hidle | ⟨-, c, rfl, hconfig, hpaths, hanswer, hsees⟩⟩ :=
    hask.seen hready.tree hread (fun c hc => (htells c hc).1) hready.free
  · obtain ⟨rfl, -, rfl⟩ := hidle
    have hnone : files.filter (fails opinion config t₀) = [] :=
      List.filter_eq_nil_iff.mpr fun p hp hfails => absurd (h.all p hp hfails) List.not_mem_nil
    refine ⟨rfl, .nil, ?_⟩
    rw [failingPlaces, hnone]
    exact .nil
  · have hsees' : c.Sees t₀ config files := by
      refine ⟨hconfig, fun p hp => ?_⟩
      obtain ⟨⟨old, hold, hold'⟩, hother⟩ := h.read p hp
      exact ⟨old, hold, hsees p.text old hother hold'⟩
    have hc := htells c List.mem_cons_self
    refine ⟨rfl, (about_reportedPlaces hc hsees' hanswer).imp fun _ _ h' => h'.of_sameShape h.shape, ?_⟩
    refine perm_reportedPlaces hc hsees' hanswer h.nodup fun p hp hfails => ?_
    rw [hpaths]
    exact List.mem_map_of_mem (h.all p hp hfails)

/-- An elimination comes to the tally of the files that fail. -/
theorem ends_eliminate_comesTo (h : Surveyed w.tree s base config asked)
    (hinquiry : Inquiry t₀ w.tree (listPath s base) config opinion asked files)
    (hready : Ready w.tree (listPath s base) asked) (hcalls : w.state.2 = []) :
    (eliminate l.watched s base style).Ends w fun r t' x =>
      (∀ c ∈ x.2, c.Tells t₀ base files opinion) → ComesTo (listPath s base)
        (Tally.addAll style (planAt opinion config t₀) (some ⟨w.tree, 0, 0⟩)
          (failingPlaces opinion config t₀ files)) r t' := by
  refine ends_eliminate_of hcalls ends_true (fun e _ he _ => absurd he h.not_unsurveyed)
    (fun config' files' h' first e t state hask _ => ?_)
    fun config' files' h' first reports t state hask _ log => ?_
  · obtain ⟨rfl, rfl⟩ := h.unique h'
    refine .of_forall fun r htells => ?_
    obtain ⟨-, reports, hreports⟩ := hready.asking hask fun c hc => answers_of_tells (htells c hc)
    cases hreports
  obtain ⟨rfl, rfl⟩ := h.unique h'
  have hreported := fun htells : ∀ c ∈ first, c.Tells t₀ base files opinion =>
    hinquiry.reported hready hask htells
  refine (ends_work_comesTo (P := ∀ c ∈ first, c.Tells t₀ base files opinion)
    (planAt opinion config t₀) (reportedPlaces t₀ base reports) fun htells => ?_).mono
      fun r t' x hends htells => ?_
  · obtain ⟨rfl, habout, -⟩ := hreported htells
    exact ⟨hready, habout⟩
  · obtain ⟨later, hlater, hcomes⟩ := hends
    obtain ⟨state', all⟩ := x
    obtain rfl : all = first ++ later := hlater
    have hfirst : ∀ c ∈ first, c.Tells t₀ base files opinion :=
      fun c hc => htells c (List.mem_append_left _ hc)
    have hcomes' := hcomes hfirst fun c hc => answers_of_tells (htells c (List.mem_append_right _ hc))
    obtain ⟨rfl, -, hperm⟩ := hreported hfirst
    rwa [Tally.addAll_perm hperm] at hcomes'

/-- Holds of the ends of two runs if one of them returns exactly if the other does, and then they say
the same and leave the same everywhere but at one place; and there too if they ended well. -/
structure Alike (place : Option Location) (r r' : Except Failure Outcome) (t t' : FileTree) : Prop where
  returns : r.isOk = r'.isOk
  told : ∀ o o', r = .ok o → r' = .ok o' →
    o.status = o'.status ∧ o.filesProcessed = o'.filesProcessed
  elsewhere : r.isOk = true → ∀ k, place ≠ some k → t.node? k = t'.node? k
  everywhere : ∀ o, r = .ok o → o.status = .ok → t = t'

variable {r r' : Except Failure Outcome} {t₁ t₂ : FileTree} {x : Location} {new : List UInt8}
  {result : Option Tally}

/-- What stands at the place of the list does not matter. -/
theorem ComesTo.alike (h : ComesTo list result r t₁)
    (h' : ComesTo list (result.map (·.withTree (·.put x (.file new)))) r' t₂) (hx : x ≠ [])
    (htarget : ∀ b, result = some b → b.tree.target? list.text = some x ∧
      (b.tree.put x (.file new)).target? list.text = some x) :
    Alike (some x) r r' t₁ t₂ := by
  cases result with
  | none =>
    rcases r with e | o
    · rcases r' with e' | o'
      · refine ⟨rfl, ?_, ?_, ?_⟩
        · rintro o o' ⟨⟩
        · intro hisOk
          cases hisOk
        · rintro o ⟨⟩
      · exact absurd rfl (h' o')
    · exact absurd rfl (h o)
  | some b =>
    obtain ⟨o, rfl, hdone, hstatus, hemptied⟩ := h
    obtain ⟨o', rfl, hdone', hstatus', hemptied'⟩ := h'
    replace hstatus' : o'.status = if b.failed = 0 then .ok else .partly := hstatus'
    replace hemptied' : if b.failed = 0 then (b.tree.put x (.file new)).write list.text [] = .ok t₂
      else t₂ = b.tree.put x (.file new) := hemptied'
    obtain ⟨hplace, hplace'⟩ := htarget b rfl
    have htold : o.status = o'.status ∧ o.filesProcessed = o'.filesProcessed :=
      ⟨hstatus.trans hstatus'.symm, hdone.trans hdone'.symm⟩
    have htold' : ∀ o₁ o₂, (Except.ok o : Except Failure Outcome) = .ok o₁ →
        (Except.ok o' : Except Failure Outcome) = .ok o₂ →
          o₁.status = o₂.status ∧ o₁.filesProcessed = o₂.filesProcessed := by
      rintro _ _ ⟨⟩ ⟨⟩
      exact htold
    rw [Emptied] at hemptied
    by_cases hzero : b.failed = 0
    · rw [if_pos hzero] at hemptied hemptied'
      have htree : t₁ = t₂ := by
        rw [eq_put_of_write hplace hemptied, eq_put_of_write hplace' hemptied', put_put_self]
      exact ⟨rfl, htold', fun _ _ _ => by rw [htree], fun _ _ _ => htree⟩
    · rw [if_neg hzero] at hemptied hemptied' hstatus
      refine ⟨rfl, htold', fun _ k hk => ?_, ?_⟩
      · rw [hemptied, hemptied', node?_put hx, if_neg fun heq => hk (congrArg some heq.symm)]
      · rintro _ ⟨⟩ hok
        rw [hstatus] at hok
        cases hok

/-- What every elimination by such a linter comes to, when all can be read that it needs. -/
theorem eliminate_comesTo (l : Linter σ) (s : Settings) (base : Path) (style : Suppression.Style)
    (w : World σ) (h : Surveyed w.tree s base config asked)
    (hinquiry : Inquiry t₀ w.tree (listPath s base) config opinion asked files)
    (hready : Ready w.tree (listPath s base) asked)
    (hcalls : ∀ c ∈ (Task.eliminate style).calls l s base w, c.Tells t₀ base files opinion) :
    ComesTo (listPath s base) (Tally.addAll style (planAt opinion config t₀) (some ⟨w.tree, 0, 0⟩)
      (failingPlaces opinion config t₀ files)) ((eliminate l s base style).runFrom w).1
      ((eliminate l s base style).runFrom w).2.tree :=
  (Task.eliminate style).of_watched l s base w (P := fun r t calls =>
    (∀ c ∈ calls, c.Tells t₀ base files opinion) → ComesTo (listPath s base)
      (Tally.addAll style (planAt opinion config t₀) (some ⟨w.tree, 0, 0⟩)
        (failingPlaces opinion config t₀ files)) r t)
    (ends_eliminate_comesTo h hinquiry hready rfl) hcalls

namespace Compressed

/-- Before a compression all is there that an elimination asks for. -/
theorem ready (h : Compressed s base opinion t t' config entries lines) (hapart : ListApart t s base)
    (hsub : ∀ p ∈ asked, p ∈ openFiles t s base) : Ready t (listPath s base) asked where
  tree := hapart.tree
  read := TextFile.read_of_lines h.found
  free := hapart.free
  hideable := fun hne => by
    obtain ⟨p, hp⟩ := List.exists_mem_of_ne_nil asked hne
    exact h.hideable (List.ne_nil_of_mem (hsub p hp))

theorem not_mem_failingPlaces (h : Compressed s base opinion t t' config entries lines)
    (hapart : ListApart t s base) (htarget : t.target? (listPath s base).text = some x) :
    x ∉ failingPlaces opinion config t (openFiles t s base) := by
  intro hmem
  obtain ⟨p, hp, hplace⟩ := List.mem_filterMap.mp hmem
  obtain ⟨-, hother⟩ := hapart.openFiles h.opened h.found p (List.mem_filter.mp hp).1
  exact hother (hplace.trans htarget.symm)

/-- What is asked about before a compression. -/
theorem inquiry (h : Compressed s base opinion t t' config entries lines)
    (hapart : ListApart t s base) (hall : ∀ p ∈ openFiles t s base, p ∈ asked) :
    Inquiry t t (listPath s base) config opinion asked (openFiles t s base) where
  shape := .refl t
  nodup := nodup_openFiles h.opened
  read := fun p hp => by
    obtain ⟨⟨octets, hread⟩, hother⟩ := hapart.openFiles h.opened h.found p hp
    exact ⟨⟨octets, hread, hread⟩, hother⟩
  all := fun p hp _ => hall p hp

/-- What is asked about after a compression. -/
theorem inquiry_after (h : Compressed s base opinion t t' config entries lines)
    (hapart : ListApart t s base) (hmem : ∀ p, p ∈ asked ↔ p ∈ openFiles t s base ∧
      Named t s base (keptLines t s base opinion config lines) p) :
    Inquiry t t' (listPath s base) config opinion asked (openFiles t s base) where
  shape := h.sameShape
  nodup := nodup_openFiles h.opened
  read := fun p hp => by
    obtain ⟨⟨octets, hread⟩, hother⟩ := hapart.openFiles h.opened h.found p hp
    refine ⟨⟨octets, hread, ?_⟩, ?_⟩
    · rw [read_eq_ok, ← h.stat_eq hother]
      exact read_eq_ok.mp hread
    · rwa [← h.sameShape.target?_eq, ← h.sameShape.target?_eq]
  all := fun p hp hfails => by
    obtain ⟨hisOpen, hnamed⟩ := (mem_openFiles h.opened h.found).mp hp
    exact (hmem p).mpr ⟨hp, named_of_fails hisOpen hnamed hfails⟩

end Compressed

/-- Holds if a linter tells this opinion in a compression that ends well, and in an elimination without
it and one after it. -/
structure TellsThroughout (l : Linter σ) (s : Settings) (base : Path) (style : Suppression.Style)
    (w : World σ) (opinion : Opinion) : Prop where
  ended : ((compress l s base).runFrom w).1.map Outcome.status = .ok .ok
  first : ∀ c ∈ Task.compress.calls l s base w, c.Tells w.tree base (openFiles w.tree s base) opinion
  without : ∀ c ∈ (Task.eliminate style).calls l s base w,
    c.Tells w.tree base (openFiles w.tree s base) opinion
  after : ∀ c ∈ (Task.eliminate style).calls l s base ((compress l s base).runFrom w).2,
    c.Tells w.tree base (openFiles w.tree s base) opinion

instance {l : Linter σ} {s : Settings} {base : Path} {style : Suppression.Style} {w : World σ}
    {opinion : Opinion} : Decidable (TellsThroughout l s base style w opinion) :=
  decidable_of_iff (((compress l s base).runFrom w).1.map Outcome.status = .ok .ok ∧
    (∀ c ∈ Task.compress.calls l s base w, c.Tells w.tree base (openFiles w.tree s base) opinion) ∧
    (∀ c ∈ (Task.eliminate style).calls l s base w,
      c.Tells w.tree base (openFiles w.tree s base) opinion) ∧
    ∀ c ∈ (Task.eliminate style).calls l s base ((compress l s base).runFrom w).2,
      c.Tells w.tree base (openFiles w.tree s base) opinion)
    ⟨fun ⟨hended, hfirst, hwithout, hafter⟩ => ⟨hended, hfirst, hwithout, hafter⟩,
      fun ⟨hended, hfirst, hwithout, hafter⟩ => ⟨hended, hfirst, hwithout, hafter⟩⟩

/-- By a linter that looks at one file at a time, an elimination after a compression that ended well
does what it does without: it returns exactly if the other does, with the same status and the same count
of files, and leaves the same everywhere but in the list. -/
theorem eliminates_alike_of_compressed (l : Linter σ) (s : Settings) (base : Path)
    (style : Suppression.Style) (w : World σ) (opinion : Opinion) (hapart : ListApart w.tree s base)
    (htells : TellsThroughout l s base style w opinion) :
    Alike (w.tree.target? (listPath s base).text)
      ((eliminate l s base style).runFrom w).1
      ((eliminate l s base style).runFrom ((compress l s base).runFrom w).2).1
      ((eliminate l s base style).runFrom w).2.tree
      ((eliminate l s base style).runFrom ((compress l s base).runFrom w).2).2.tree := by
  obtain ⟨o, ho, hok⟩ := map_eq_ok.mp htells.ended
  obtain ⟨config, entries, lines, hcompressed⟩ := exists_compressed l s base w hapart htells.first ho hok
  have hafter := htells.after
  revert hcompressed hafter
  generalize ((compress l s base).runFrom w).2 = w'
  intro hcompressed hafter
  -- Before and after, the survey finds all that it needs, and asks about every file that fails.
  obtain ⟨asked, hsurveyed, hmem⟩ :=
    exists_surveyed hcompressed.loaded hcompressed.found hcompressed.resolves
  have hmem' : ∀ p, p ∈ asked ↔ p ∈ openFiles w.tree s base := fun p => by
    rw [hmem, mem_openFiles hcompressed.opened hcompressed.found]
  obtain ⟨asked', hsurveyed', hmem''⟩ := hcompressed.exists_surveyed_after hapart
  have hbefore := eliminate_comesTo l s base style w hsurveyed
    (hcompressed.inquiry hapart fun p hp => (hmem' p).mpr hp)
    (hcompressed.ready hapart fun p hp => (hmem' p).mp hp) htells.without
  have hlater := eliminate_comesTo l s base style w' hsurveyed' (hcompressed.inquiry_after hapart hmem'')
    ((hcompressed.ready hapart fun p hp => ((hmem'' p).mp hp).1).of_sameShape hcompressed.sameShape) hafter
  -- The failing files are tallied in trees that differ in the list only.
  obtain ⟨x, new, hx, htarget, htree, hshape⟩ := hcompressed.exists_place
  have htally : Tally.addAll style (planAt opinion config w.tree) (some ⟨w'.tree, 0, 0⟩)
        (failingPlaces opinion config w.tree (openFiles w.tree s base)) =
      (Tally.addAll style (planAt opinion config w.tree) (some ⟨w.tree, 0, 0⟩)
        (failingPlaces opinion config w.tree (openFiles w.tree s base))).map
          (·.withTree (·.put x (.file new))) := by
    rw [htree]
    exact Tally.addAll_put hx (hcompressed.not_mem_failingPlaces hapart htarget) (some ⟨w.tree, 0, 0⟩)
  rw [htally] at hlater
  rw [htarget]
  refine hbefore.alike hlater hx fun b hb => ⟨?_, ?_⟩
  · rw [← (Tally.sameShape_of_addAll hb).target?_eq, htarget]
  · rw [hb, Option.map_some, Tally.withTree] at htally
    have hshape' : SameShape w'.tree (b.tree.put x (.file new)) := Tally.sameShape_of_addAll htally
    rw [← hshape'.target?_eq, ← hshape.target?_eq, htarget]

/-- What `Sample.strict` has to say of every file. -/
def strictOpinion : Opinion := fun _ _ => (true, [⟨.error, 1, 1, Text.unitsOf "rule", []⟩])

theorem eliminates_alike_of_compressed_sample :
    Alike (some [".stylelintignore"])
      ((eliminate Sample.strict .standard Sample.base .block).runFrom Sample.world).1
      ((eliminate Sample.strict .standard Sample.base .block).runFrom
        ((compress Sample.strict .standard Sample.base).runFrom Sample.world).2).1
      ((eliminate Sample.strict .standard Sample.base .block).runFrom Sample.world).2.tree
      ((eliminate Sample.strict .standard Sample.base .block).runFrom
        ((compress Sample.strict .standard Sample.base).runFrom Sample.world).2).2.tree := by
  have hplace : Sample.world.tree.target? (listPath .standard Sample.base).text =
      some [".stylelintignore"] := by
    decide +kernel
  rw [← hplace]
  exact eliminates_alike_of_compressed Sample.strict .standard Sample.base .block Sample.world
    strictOpinion (by decide +kernel) (by decide +kernel)

/-- Where the lint configuration is the list, a compression takes it away. Where a stylesheet is at the
hidden path, it takes that. And runs that end with a fault leave behind what was reported before it. -/
theorem eliminates_unlike_sample :
    (let w : World Unit := ⟨(Sample.tree.put [".stylelintignore"] (.file (Sample.octets "\x7b\x7d\n"))).put
        [".stylelintrc.json"] (.link ".stylelintignore"), (), []⟩
      let w' := ((compress Sample.strict .standard Sample.base).runFrom w).2
      ListPlain w.tree .standard Sample.base ∧
        TellsThroughout Sample.strict .standard Sample.base .block w strictOpinion ∧
        ((eliminate Sample.strict .standard Sample.base .block).runFrom w).1.map Outcome.status = .ok .ok ∧
        ((eliminate Sample.strict .standard Sample.base .block).runFrom w').1.map Outcome.status =
          .ok .aborted) ∧
    (let w : World Unit := ⟨((Sample.tree.put [".stylelintignore"] (.file (Sample.octets "x.css\n"))).put
        [".stylelintignore.slim-hidden"] (.file (Sample.octets "a\n"))).put
          ["x.css"] (.link ".stylelintignore.slim-hidden"), (), []⟩
      let w' := ((compress Sample.strict .standard Sample.base).runFrom w).2
      ListPlain w.tree .standard Sample.base ∧
        TellsThroughout Sample.strict .standard Sample.base .block w strictOpinion ∧
        ((eliminate Sample.strict .standard Sample.base .block).runFrom w).1.map Outcome.status =
          .ok .partly ∧
        ((eliminate Sample.strict .standard Sample.base .block).runFrom w').1.map Outcome.status = .ok .ok) ∧
    let w : World Bool := ⟨Sample.tree.put ["b.css"] (.file (Sample.octets "a\n")), false, []⟩
    let w' := ((compress Sample.wavering .standard Sample.base).runFrom w).2
    ListApart w.tree .standard Sample.base ∧
      TellsThroughout Sample.wavering .standard Sample.base .block w
        (fun _ _ => (true, [⟨.error, 1, 1, [0xd800], []⟩])) ∧
      ((eliminate Sample.wavering .standard Sample.base .block).runFrom w).2.tree.node? ["b.css"] ≠
        ((eliminate Sample.wavering .standard Sample.base .block).runFrom w').2.tree.node? ["b.css"] := by
  decide +kernel

end LintDebt.Workflow
