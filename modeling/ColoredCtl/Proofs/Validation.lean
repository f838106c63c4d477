import ColoredCtl.Color.Truth
import ColoredCtl.Proofs.Check.Failures

namespace ColoredCtl

open Color

variable {C α : Type}

/-- The errors of validation. -/
def CheckError.OfValidation : CheckError → Prop
  | .unboundVariable _ | .unknownAtom _ _ => True
  | _ => False

theorem CheckError.OfValidation.ofFormula {cause : CheckError} (h : cause.OfValidation) : cause.OfFormula := by
  cases cause <;> trivial

namespace ExplicitModel

variable {M : ExplicitModel C}

theorem ofValidation_of_violation? {place : List String × Formula} {cause : CheckError}
    (h : M.violation? place = some cause) : cause.OfValidation := by
  unfold violation? at h
  split at h
  · split at h
    · cases h
    · cases h
      trivial
  · split at h
    · cases h
    · cases h
      trivial
  · split at h
    · cases h
    · cases h
      trivial
  · cases h

theorem ofValidation_of_firstViolation? {f : Formula} {cause : CheckError}
    (h : M.firstViolation? f = some cause) : cause.OfValidation := by
  obtain ⟨_, _, hplace⟩ := List.exists_of_findSome?_eq_some h
  exact ofValidation_of_violation? hplace

/-- Something is wrong with one of the formulas unless all of them can be evaluated. -/
theorem findSome?_eq_none_iff {formulas : List Formula} :
    formulas.findSome? M.firstViolation? = none ↔ ∀ f ∈ formulas, f.Evaluable M := by
  rw [List.findSome?_eq_none_iff]
  exact forall₂_congr fun f _ => firstViolation?_eq_none_iff

theorem findSome?_eq_some_iff {formulas : List Formula} :
    (∃ cause, formulas.findSome? M.firstViolation? = some cause) ↔ ∃ f ∈ formulas, ¬f.Evaluable M := by
  rw [← Option.isSome_iff_exists, List.findSome?_isSome_iff]
  simp only [← firstViolation?_eq_none_iff, Option.isSome_iff_ne_none, ne_eq]

end ExplicitModel

namespace Checker

theorem spares_report {x : Attempt α} (h : x.Spares) (id : Nat) :
    FailsOnly (fun cause => ¬cause.OfFormula) (report id x) := by
  cases x with
  | ok a => exact .of_ok a
  | error failure =>
    cases failure with
    | misuse cause => exact .of_error fun h => h
    | error cause => exact .of_error (h _ rfl cause rfl)

/-- The first failure is one of the failures. -/
theorem firstFailure_failsOnly {P : CheckError → Prop} {outcomes : List (Except CheckError α)}
    (h : ∀ outcome ∈ outcomes, FailsOnly P outcome) : FailsOnly P (firstFailure outcomes) := by
  unfold firstFailure
  dsimp only
  split
  · next cause hfound => exact .of_error (h _ (List.mem_of_find?_eq_some hfound) cause rfl)
  · exact .mapM h

variable {A : Algebra C} {M : ExplicitModel C} {config : Config} {formulas : List Formula}

/-- What is wrong with the formulas is found before anything else. -/
theorem verifyAll_of_violation {cause : CheckError} (h : formulas.findSome? M.firstViolation? = some cause) :
    verifyAll ⟨A, M.toModel A, config⟩ formulas = .error (.error cause) := by
  have hvalidate : (formulas.forM fun f => f.validate (M.toModel A) []) = .error cause := by
    rw [ExplicitModel.forM_validate_eq_refuse, refuse_eq_error_iff]
    exact h
  rw [verifyAll, hvalidate]
  rfl

/-- A check of formulas that can be evaluated does not fail on account of them. -/
theorem verifyAll_spares (h : ∀ f ∈ formulas, f.Evaluable M) :
    FailsOnly Failure.Spares (verifyAll ⟨A, M.toModel A, config⟩ formulas) := by
  have hforM : (formulas.forM fun f => f.validate (M.toModel A) []) = .ok () := by
    rw [ExplicitModel.forM_validate_eq_refuse, refuse_eq_ok_iff]
    exact ExplicitModel.findSome?_eq_none_iff.2 h
  rw [verifyAll, hforM, lift_ok, ok_bind]
  by_cases hzero : config.partitions = 0
  · simp only [if_pos hzero]
    exact .of_error (Failure.spares_error id)
  simp only [if_neg hzero]
  refine .bind ?_ fun partitions => .bind ?_ fun channel => .bind ?_ fun results => .of_ok _
  · exact (FailsOnly.of_any _).mapError fun failure _ =>
      Failure.spares_map (f := .partition) (fun _ h => h) failure
  · exact (FailsOnly.of_any _).mapError fun cause _ => Failure.spares_misuse cause
  · refine .mapError (firstFailure_failsOnly fun outcome houtcome => ?_) fun cause => Failure.spares_error
    obtain ⟨⟨x, id⟩, hx, rfl⟩ := List.mem_map.1 houtcome
    refine spares_report (Crew.spares_run (fun w hw => ?_) x (List.fst_mem_of_mem_zipIdx hx)) id
    obtain ⟨p, _, rfl⟩ := List.mem_map.1 hw
    exact spares_worker rfl (fun f hf => ExplicitModel.validate_eq_ok_iff.2 (h f hf)) p

theorem violation_of_verifyAll {cause : CheckError} (hcause : cause.OfValidation)
    (h : verifyAll ⟨A, M.toModel A, config⟩ formulas = .error (.error cause)) :
    formulas.findSome? M.firstViolation? = some cause := by
  cases hfound : formulas.findSome? M.firstViolation? with
  | none =>
    have hall := ExplicitModel.findSome?_eq_none_iff.1 hfound
    exact absurd hcause.ofFormula (verifyAll_spares hall _ h cause rfl)
  | some found =>
    cases h.symm.trans (verifyAll_of_violation hfound)
    rfl

/-- Validation accepts exactly the formulas that can be evaluated. A check of several formulas, with whatever
configuration, gives an error of validation exactly if one of them cannot be evaluated, and the error is the first
thing that is wrong, from left to right, with the first such formula. If all of them can be evaluated, no
worker of any partition fails because a name is not bound or because of an atom, whatever it receives, and
neither does the check. -/
theorem verifyAll_error_iff_not_evaluable (A : Algebra C) (M : ExplicitModel C) (config : Config)
    (formulas : List Formula) :
    (∀ f : Formula, f.validate (M.toModel A) [] = .ok () ↔ f.Evaluable M) ∧
    ((∃ cause, cause.OfValidation ∧ verifyAll ⟨A, M.toModel A, config⟩ formulas = .error (.error cause)) ↔
      ∃ f ∈ formulas, ¬f.Evaluable M) ∧
    (∀ cause, cause.OfValidation →
      (verifyAll ⟨A, M.toModel A, config⟩ formulas = .error (.error cause) ↔
        formulas.findSome? M.firstViolation? = some cause)) ∧
    ((∀ f ∈ formulas, f.Evaluable M) →
      (∀ p, (worker ⟨A, M.toModel A, config⟩ formulas p).Spares) ∧
      FailsOnly Failure.Spares (verifyAll ⟨A, M.toModel A, config⟩ formulas)) := by
  refine ⟨fun f => ExplicitModel.validate_eq_ok_iff, ⟨?_, ?_⟩, fun cause hcause => ?_, fun h => ⟨?_, ?_⟩⟩
  · rintro ⟨cause, hcause, hverify⟩
    exact ExplicitModel.findSome?_eq_some_iff.1 ⟨cause, violation_of_verifyAll hcause hverify⟩
  · intro hnot
    obtain ⟨cause, hfound⟩ := ExplicitModel.findSome?_eq_some_iff.2 hnot
    obtain ⟨f, _, hfirst⟩ := List.exists_of_findSome?_eq_some hfound
    exact ⟨cause, ExplicitModel.ofValidation_of_firstViolation? hfirst, verifyAll_of_violation hfound⟩
  · exact ⟨violation_of_verifyAll hcause, verifyAll_of_violation⟩
  · exact spares_worker rfl fun f hf => ExplicitModel.validate_eq_ok_iff.2 (h f hf)
  · exact verifyAll_spares h

/-- The bound of a quantifier is not under its name. A name that is not bound is found in the second formula before
the atom that stands behind it, and without partitions; the first formula by itself can be evaluated. -/
theorem verifyAll_error_iff_not_evaluable_bound :
    verifyAll ⟨.truth, (⟨1, [], [], some ["x"]⟩ : ExplicitModel Bool).toModel .truth, { partitions := 0 }⟩
        [.bind "s" (.and (.reference "s") (.atom (.transition "x" .out .up))),
          .forSome "s" (.reference "s") (.atom (.transition "y" .out .up)), .reference "t"] =
      .error (.error (.unboundVariable "s")) ∧
    ∀ p, (worker ⟨.truth, (⟨1, [], [], some ["x"]⟩ : ExplicitModel Bool).toModel .truth, {}⟩
      [.bind "s" (.and (.reference "s") (.atom (.transition "x" .out .up)))] p).Spares := by
  constructor
  · exact ((verifyAll_error_iff_not_evaluable _ _ _ _).2.2.1 (.unboundVariable "s") trivial).2 (by decide)
  · exact ((verifyAll_error_iff_not_evaluable _ _ _ _).2.2.2
      (ExplicitModel.findSome?_eq_none_iff.1 (by decide))).1

end Checker

end ColoredCtl
