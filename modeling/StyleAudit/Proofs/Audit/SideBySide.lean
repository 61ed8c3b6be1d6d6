import StyleAudit.Audit.Run

/-!
# Checking files side by side

Files can be checked one after the other or side by side, and what a run comes to is put
together from the outcomes of the single files in either case.  How far do the two agree?

A run depends on its outcomes through two things only: what was found in the files that could
be checked (`allFound`), and the first file that could not, with its failure (`firstFailure?`).

* If every file could be checked, or if failures are passed over, both ways give all that was
  found, in the order of the files (`gather_of_firstFailure?_eq_none`, `gather_false`).
* If a failure ends the run, it is the first one in either way (`gather_true_of_firstFailure?`).
  But a run side by side wraps it in a failure of its own that names the file and quotes the
  first, so the two never end with the same failure (`analysis_message_ne`).

Together this says exactly when the two ways agree (`gatherAll_parallel`).  A run that passes over
failures gives the same report in both (`checkPaths_parallel`).
-/

namespace StyleAudit.Audit

/-! ## What a run depends on -/

/-- The failure of a file that could not be checked, with its path. -/
def Outcome.failure? (o : Outcome) : Option (Path × Failure) :=
  match o.found with
  | .ok _ => none
  | .error e => some (o.path, e)

/-- The first file that could not be checked, with its failure. -/
def firstFailure? (outcomes : List Outcome) : Option (Path × Failure) :=
  outcomes.findSome? Outcome.failure?

/-- Everything found in the files that could be checked, in their order. -/
def allFound (outcomes : List Outcome) : List Diagnostic :=
  outcomes.flatMap fun o => o.found.toOption.getD []

/-- If every file could be checked, everything found is gathered. -/
theorem gather_of_firstFailure?_eq_none (reword : Path → Failure → Failure) (failFast : Bool) :
    ∀ {outcomes : List Outcome}, firstFailure? outcomes = none →
      gather reword failFast outcomes = .ok (allFound outcomes)
  | [], _ => rfl
  | ⟨path, .error e⟩ :: rest, h => by cases h
  | ⟨path, .ok ds⟩ :: rest, h => by
    have hrest : firstFailure? rest = none := h
    rw [gather, gather_of_firstFailure?_eq_none reword failFast hrest]
    rfl

/-- If failures end the run, the first one does, in other words. -/
theorem gather_true_of_firstFailure? (reword : Path → Failure → Failure) {path : Path}
    {e : Failure} :
    ∀ {outcomes : List Outcome}, firstFailure? outcomes = some (path, e) →
      gather reword true outcomes = .error (reword path e)
  | [], h => by cases h
  | ⟨_, .error _⟩ :: rest, h => by
    cases h
    rfl
  | ⟨_, .ok ds⟩ :: rest, h => by
    have hrest : firstFailure? rest = some (path, e) := h
    rw [gather, gather_true_of_firstFailure? reword hrest]
    rfl

/-! ## The two ways -/

section Ways

variable {o : Options} {outcomes : List Outcome}

theorem gatherAll_of_failFast_eq_false (h : o.failFast = false) :
    gatherAll o outcomes = .ok (allFound outcomes) := by
  rw [gatherAll, h]
  split
  · exact gather_false _ outcomes
  · exact gather_false _ outcomes

theorem gatherAll_of_firstFailure?_eq_none (h : firstFailure? outcomes = none) :
    gatherAll o outcomes = .ok (allFound outcomes) := by
  rw [gatherAll]
  split
  · exact gather_of_firstFailure?_eq_none _ _ h
  · exact gather_of_firstFailure?_eq_none _ _ h

/-- The failure that ends a run, as the way in which the files were checked words it. -/
theorem gatherAll_of_firstFailure? {path : Path} {e : Failure} (hfast : o.failFast = true)
    (h : firstFailure? outcomes = some (path, e)) :
    gatherAll o outcomes = .error
      (if o.parallel && 1 < outcomes.length then .analysis (String.ofList path.text) e.message
        else e) := by
  rw [gatherAll, hfast]
  split
  · exact gather_true_of_firstFailure? _ h
  · exact gather_true_of_firstFailure? _ h

/-- No failure is the one that quotes it, whatever file that names. -/
theorem analysis_message_ne (file : String) (e : Failure) : .analysis file e.message ≠ e := by
  intro h
  have hquoted : "Analysis error in " ++ file ++ ": " ++ e.message = e.message :=
    congrArg Failure.message h
  have hlength := congrArg String.length hquoted
  simp only [String.length_append] at hlength
  have hcolon : ": ".length = 2 := by decide
  omega

/-- **Whether files are checked one after the other or side by side makes no difference, except
to the words of a failure that ends the run.**  That failure belongs to the same file, the first
that could not be checked; side by side, and with more than one file, it is quoted by another
failure that names this file, and never the same. -/
theorem gatherAll_parallel (o : Options) (outcomes : List Outcome) :
    (gatherAll { o with parallel := true } outcomes =
        gatherAll { o with parallel := false } outcomes ↔
      o.failFast = false ∨ outcomes.length ≤ 1 ∨ firstFailure? outcomes = none) ∧
    (o.failFast = false ∨ firstFailure? outcomes = none → ∀ parallel,
      gatherAll { o with parallel := parallel } outcomes = .ok (allFound outcomes)) ∧
    (o.failFast = true → ∀ path e, firstFailure? outcomes = some (path, e) →
      gatherAll { o with parallel := false } outcomes = .error e ∧
      gatherAll { o with parallel := true } outcomes = .error
        (if 1 < outcomes.length then .analysis (String.ofList path.text) e.message else e)) := by
  have hgathered : o.failFast = false ∨ firstFailure? outcomes = none → ∀ parallel,
      gatherAll { o with parallel := parallel } outcomes = .ok (allFound outcomes) := by
    rintro (hpass | hnone) parallel
    · exact gatherAll_of_failFast_eq_false hpass
    · exact gatherAll_of_firstFailure?_eq_none hnone
  have hended : o.failFast = true → ∀ path e, firstFailure? outcomes = some (path, e) →
      gatherAll { o with parallel := false } outcomes = .error e ∧
      gatherAll { o with parallel := true } outcomes = .error
        (if 1 < outcomes.length then .analysis (String.ofList path.text) e.message else e) := by
    intro hfast path e hfirst
    refine ⟨gatherAll_of_firstFailure? hfast hfirst, ?_⟩
    rw [gatherAll_of_firstFailure? (o := { o with parallel := true }) hfast hfirst, Bool.true_and]
    simp only [decide_eq_true_eq]
  refine ⟨⟨fun heq => ?_, ?_⟩, hgathered, hended⟩
  · cases hfirst : firstFailure? outcomes with
    | none => exact .inr (.inr rfl)
    | some first =>
      obtain ⟨path, e⟩ := first
      cases hfast : o.failFast with
      | false => exact .inl rfl
      | true =>
        refine .inr (.inl (Nat.not_lt.mp fun hmany => ?_))
        obtain ⟨hturn, hside⟩ := hended hfast path e hfirst
        rw [hturn, hside, if_pos hmany] at heq
        exact analysis_message_ne _ e (Except.error.inj heq)
  · rintro (hpass | hfew | hnone)
    · exact (hgathered (.inl hpass) true).trans (hgathered (.inl hpass) false).symm
    · have hone : decide (1 < outcomes.length) = false := decide_eq_false (Nat.not_lt.mpr hfew)
      rw [gatherAll, gatherAll, hone, Bool.and_false, Bool.and_false]
    · exact (hgathered (.inr hnone) true).trans (hgathered (.inr hnone) false).symm

/-- A run that passes over failures gives one report in either way. -/
theorem checkPaths_parallel (a : Auditor) (tree : Node) (now : Moment) {o : Options}
    (h : o.failFast = false) (paths : List Path) :
    a.checkPaths tree now { o with parallel := true } paths =
      a.checkPaths tree now { o with parallel := false } paths := by
  have hselect : select a.filter tree { o with parallel := true } paths =
      select a.filter tree { o with parallel := false } paths := rfl
  rw [Auditor.checkPaths, Auditor.checkPaths, hselect]
  cases select a.filter tree { o with parallel := false } paths with
  | error e => rfl
  | ok files =>
    simp only [bind, Except.bind,
      gatherAll_of_failFast_eq_false (o := { o with parallel := true }) h,
      gatherAll_of_failFast_eq_false (o := { o with parallel := false }) h]

end Ways

/-! ## A file that is gone -/

/-- The outcomes of two files of which the first is gone when it is to be read. -/
def oneFileGone : List Outcome :=
  [⟨⟨"a.css".toList⟩, checkFile .standard (.folder []) default none ⟨"a.css".toList⟩⟩,
    ⟨⟨"b.css".toList⟩, .ok []⟩]

theorem firstFailure?_oneFileGone :
    firstFailure? oneFileGone = some (⟨"a.css".toList⟩,
      .analysis "a.css" "Failed to read file: No such file or directory (os error 2)") :=
  rfl

/-- The failure that ends a run over these files, in either way. -/
theorem gatherAll_parallel_oneFileGone :
    gatherAll { parallel := false, failFast := true } oneFileGone = .error
        (.analysis "a.css" "Failed to read file: No such file or directory (os error 2)") ∧
      gatherAll { parallel := true, failFast := true } oneFileGone = .error
        (.analysis "a.css" ("Analysis error in a.css: Failed to read file: " ++
          "No such file or directory (os error 2)")) :=
  (gatherAll_parallel { failFast := true } oneFileGone).2.2 rfl _ _ firstFailure?_oneFileGone

/-- The two ways do not always come to the same. -/
theorem exists_gatherAll_parallel_ne :
    ¬ ∀ (o : Options) (outcomes : List Outcome),
      gatherAll { o with parallel := true } outcomes =
        gatherAll { o with parallel := false } outcomes := by
  intro hall
  have hends : gatherAll { parallel := true, failFast := true } oneFileGone =
      .error (.analysis "a.css" (Failure.analysis "a.css"
        "Failed to read file: No such file or directory (os error 2)").message) :=
    gatherAll_of_firstFailure? rfl firstFailure?_oneFileGone
  rw [hall { failFast := true } oneFileGone,
    gatherAll_of_firstFailure? rfl firstFailure?_oneFileGone] at hends
  exact analysis_message_ne _ _ (Except.error.inj hends).symm

end StyleAudit.Audit
