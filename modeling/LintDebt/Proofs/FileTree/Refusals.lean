import LintDebt.Proofs.FileTree.Contents

/-! # Why a path is refused

A walk stops where there is nothing, at a file that it would have to enter, at too many links, or at
a name that is too long. The first three mean that the path leads to nothing, so only the last one
keeps the system from telling whether it does. -/

namespace LintDebt.FileTree

/-- The causes for which a walk stops. -/
inductive StopsWalk : OsCode → Prop where
  | noEntry : StopsWalk .noEntry
  | notDirectory : StopsWalk .notDirectory
  | tooManyLinks : StopsWalk .tooManyLinks
  | nameTooLong : StopsWalk .nameTooLong

variable {t : FileTree} {f : Bool} {p : Location} {code : OsCode} {path : String} {e : OsError}

theorem stopsWalk_of_enter {name : String} {last : Bool}
    (h : t.enter f p name last = .stop (.error code)) : StopsWalk code := by
  rw [enter] at h
  split at h
  · cases last with
    | false => cases h; exact .noEntry
    | true => cases h
  · cases h
  · cases last with
    | false => cases h; exact .notDirectory
    | true => cases h
  · split at h
    · cases h
    split at h
    · cases h; exact .noEntry
    · cases h

theorem stopsWalk_of_move {name : String} {last : Bool}
    (h : t.move f p name last = .stop (.error code)) : StopsWalk code := by
  rw [move] at h
  split at h
  · cases h
  split at h
  · cases h
  split at h
  · cases h; exact .nameTooLong
  · exact stopsWalk_of_enter h

theorem stopsWalk_of_walk : ∀ k p names, t.walk f k p names = .error code → StopsWalk code := by
  refine walk_induction (fun k p h => ?_) fun k p name rest ih ihk h => ?_
  · rw [walk_nil] at h
    cases h
  · rw [walk_cons] at h
    cases hmove : t.move f p name rest.isEmpty with
    | stop r =>
      rw [hmove] at h
      cases h
      exact stopsWalk_of_move hmove
    | go p' =>
      rw [hmove] at h
      exact ih p' h
    | follow p' names =>
      rw [hmove] at h
      cases k with
      | zero => cases h; exact .tooManyLinks
      | succ k => exact ihk k p' _ rfl h

theorem stopsWalk_of_lookup {r : Route} (h : t.lookup f r = .error code) : StopsWalk code := by
  rcases bind_eq_error.mp h with h | ⟨spot, -, h⟩
  · rcases bind_eq_error.mp h with h | ⟨_, -, h⟩
    · rw [checkRoute] at h
      split at h
      · cases h; exact .noEntry
      split at h
      · cases h; exact .nameTooLong
      · cases h
    · exact stopsWalk_of_walk _ _ _ h
  · cases spot with
    | vacant directory name => cases h; exact .noEntry
    | found l =>
      dsimp only at h
      split at h
      · cases h
      · cases h; exact .noEntry

/-- What the system refuses, it refuses of the very path that it was asked about. -/
theorem refused_of_stat (h : t.stat path = .error e) :
    e = .nullCharacter ∨ ∃ code, e = .refused code path none ∧ StopsWalk code := by
  rcases bind_eq_error.mp h with hroute | ⟨r, -, hfound⟩
  · rw [Route.of] at hroute
    split at hroute
    · exact Or.inl (Except.error.inj hroute).symm
    · cases hroute
  rcases bind_eq_error.mp hfound with hlookup | ⟨_, -, hfound⟩
  · obtain ⟨code, hcode, rfl⟩ := mapError_eq_error.mp hlookup
    exact Or.inr ⟨code, rfl, stopsWalk_of_lookup hcode⟩
  · cases hfound

/-- A path that leads through too many links is one that is walked through too many. -/
theorem exists_walk_of_stat {given : String} {target : Option String}
    (h : t.stat path = .error (.refused .tooManyLinks given target)) :
    ∃ r, t.walk true linkLimit (t.start r) r.steps = .error .tooManyLinks := by
  rcases bind_eq_error.mp h with hroute | ⟨r, -, hfound⟩
  · rw [Route.of] at hroute
    split at hroute <;> cases hroute
  refine ⟨r, ?_⟩
  rcases bind_eq_error.mp hfound with hlookup | ⟨_, -, hfound⟩
  · obtain ⟨code, hcode, hrefused⟩ := mapError_eq_error.mp hlookup
    cases hrefused
    rcases bind_eq_error.mp hcode with hseek | ⟨spot, -, hspot⟩
    · rcases bind_eq_error.mp hseek with hcheck | ⟨_, -, hwalk⟩
      · rw [checkRoute] at hcheck
        split at hcheck
        · cases hcheck
        · split at hcheck <;> cases hcheck
      · exact hwalk
    · cases spot with
      | vacant directory name => cases hspot
      | found l =>
        dsimp only at hspot
        split at hspot <;> cases hspot
  · cases hfound

theorem null_of_list (h : t.list path = .error .nullCharacter) : '\x00' ∈ path.toList := by
  rcases bind_eq_error.mp h with hroute | ⟨r, -, h⟩
  · rw [Route.of] at hroute
    split at hroute
    · next hnull => exact List.contains_iff_mem.mp hnull
    · cases hroute
  rcases bind_eq_error.mp h with h | ⟨⟨l, n⟩, -, h⟩
  · obtain ⟨code, -, h⟩ := mapError_eq_error.mp h
    cases h
  · cases n <;> cases h

/-- The system answers a question about a path unless the path has a name that is too long, or is too
long itself. -/
theorem holdsAt_stat_eq_error {holds : Node → Bool} (h : holdsAt ((t.stat path).map holds) = .error e) :
    e = .refused .nameTooLong path none ∧ t.stat path = .error e := by
  cases hstat : t.stat path with
  | ok n =>
    rw [hstat] at h
    cases h
  | error e' =>
    rw [hstat] at h
    simp only [Except.map, holdsAt] at h
    split at h
    · cases h
    next hpresent =>
    cases h
    refine ⟨?_, rfl⟩
    obtain rfl | ⟨code, rfl, hstop⟩ := refused_of_stat hstat
    · exact absurd rfl hpresent
    · cases hstop with
      | noEntry | notDirectory | tooManyLinks => exact absurd rfl hpresent
      | nameTooLong => rfl

theorem existsAt_eq_error (h : t.existsAt path = .error e) :
    e = .refused .nameTooLong path none ∧ t.stat path = .error e :=
  holdsAt_stat_eq_error h

/-- The route to a name in the root. -/
theorem parse_root_name {name : String} (hname : name ≠ "") (hslash : '/' ∉ name.toList) :
    Route.parse (Path.text ⟨.absolute, [name]⟩) = ⟨true, [name], false, name.utf8ByteSize + 1⟩ := by
  have htext : Path.text ⟨.absolute, [name]⟩ = "/" ++ name := by
    rw [← String.toList_inj]
    simp [Path.text, joinSlash]
  have hchars : ("/" ++ name).toList = '/' :: name.toList := by
    rw [String.toList_append]
    rfl
  have hsize : "/".utf8ByteSize = 1 := by decide
  have hlast : name.toList.getLast? ≠ some '/' := fun h => hslash (List.mem_of_getLast? h)
  have hends : ('/' :: name.toList).getLast? = name.toList.getLast? := by
    rw [List.getLast?_cons, Option.getD_of_ne_none (by simpa using hname)]
  rw [htext, Route.parse, slashParts, hchars, String.utf8ByteSize_append,
    List.splitOn_cons_eq_if_modifyHead, if_pos (beq_self_eq_true '/'), List.splitOn_eq_singleton hslash]
  simp [hname, hends, hlast, hsize, Nat.add_comm]

/-- A name that is too long is refused by every tree. -/
theorem stat_of_overlong (t : FileTree) {name : String} (hnull : '\x00' ∉ name.toList)
    (hslash : '/' ∉ name.toList) (hlong : nameLimit < name.utf8ByteSize)
    (hfits : name.utf8ByteSize < pathLimit) : t.stat (Path.text ⟨.absolute, [name]⟩) =
      .error (.refused .nameTooLong (Path.text ⟨.absolute, [name]⟩) none) := by
  have hne : ∀ short : String, short.utf8ByteSize ≤ nameLimit → name ≠ short := by
    rintro _ hshort rfl
    exact absurd hlong (Nat.not_lt.mpr hshort)
  have hwalk : ∀ k p, t.walk true k p [name] = .error .nameTooLong := by
    intro k p
    rw [walk_cons, move, if_neg (hne "." (by decide)), if_neg (hne ".." (by decide)), if_pos hlong]
  have hroute : Route.of (Path.text ⟨.absolute, [name]⟩) =
      .ok ⟨true, [name], false, name.utf8ByteSize + 1⟩ := by
    rw [← parse_root_name (hne "" (by decide)) hslash]
    refine route_of_eq_ok.mpr ⟨?_, rfl⟩
    simpa [Path.text, joinSlash] using hnull
  have hcheck : checkRoute ⟨true, [name], false, name.utf8ByteSize + 1⟩ = .ok () := by
    rw [checkRoute, if_neg (by simp [Route.isEmpty]), if_neg (Nat.not_lt.mpr hfits)]
  have hlookup : t.lookup true ⟨true, [name], false, name.utf8ByteSize + 1⟩ =
      .error .nameTooLong := by
    rw [lookup, seek, hcheck]
    exact congrArg (· >>= _) (hwalk _ _)
  rw [stat, hroute]
  simp only [bind, Except.bind, hlookup]
  rfl

end LintDebt.FileTree
