import DcopSearch.Proofs.Constraint.WellFormed

/-! Problems that are changed in place.  An edit works on the problem itself, so that what it has
changed stays changed when it fails later on; the operations check everything before they change
anything.  Whatever calls are made on an empty problem, also calls that fail, its spaces lie over
declared variables and have full tables, and it has a total just where these variables have values
of their domains. -/

namespace DcopSearch

open CostArithmetic

variable {K : Type}

/-- A change of a problem, which is left as it is by then when the change fails. -/
abbrev Edit (K : Type) := EStateM ProblemError (Problem K)

namespace Edit

def addVariable (name owner : String) (domain : List Value) : Edit K Unit := do
  if domain.isEmpty then throw (.emptyDomain name)
  if (← get).declarations.contains name then throw (.declaredTwice name)
  modify fun problem =>
    { problem with declarations := problem.declarations.insert name { name, owner, domain } }

/-- Fails on an axis that does not agree with a declaration. -/
def checkAxis (space : String) (axis : Axis) : Edit K Unit := do
  match (← get).declarations[axis.name]? with
  | none => throw (.unknownVariable axis.name)
  | some declared =>
    if declared.domain ≠ axis.domain then throw (.foreignDomain space axis.name)

def addSpace (space : CostSpace K) : Edit K Unit := do
  forM space.axes (checkAxis space.name)
  modify fun problem => { problem with spaces := problem.spaces ++ [space] }

def domain (name : String) : Edit K (List Value) := do
  match (← get).domain? name with
  | none => throw (.unknownVariable name)
  | some domain => return domain

def addFunction (name : String) (scope : List String) (cost : List Value → K) : Edit K Unit := do
  let domains ← scope.mapM domain
  let space ← ofExcept (CostSpace.tabulate name scope domains cost)
  addSpace space

variable {problem : Problem K}

/-- The result of an edit that finds something out and changes nothing. -/
def found {A : Type} (problem : Problem K) :
    Except ProblemError A → EStateM.Result ProblemError (Problem K) A
  | .ok answer => .ok answer problem
  | .error error => .error error problem

/-- The result of an edit that does what an operation does, or fails with its error and changes
nothing. -/
def changed (problem : Problem K) :
    Except ProblemError (Problem K) → EStateM.Result ProblemError (Problem K) Unit
  | .ok next => .ok () next
  | .error error => .error error problem

/-- The problem that an edit leaves, whether or not it fails. -/
def left {A : Type} : EStateM.Result ProblemError (Problem K) A → Problem K
  | .ok _ problem | .error _ problem => problem

theorem run_addVariable (problem : Problem K) (name owner : String) (domain : List Value) :
    (addVariable name owner domain).run problem
      = changed problem (problem.addVariable name owner domain) := by
  unfold addVariable Problem.addVariable
  by_cases he : domain.isEmpty = true
  · rw [if_pos he, if_pos he]
    rfl
  · rw [if_neg he, if_neg he]
    simp only [EStateM.run_bind, EStateM.run_get]
    by_cases hd : problem.declarations.contains name = true
    · rw [if_pos hd, if_pos hd]
      rfl
    · rw [if_neg hd, if_neg hd]
      rfl

theorem run_checkAxis (problem : Problem K) (space : String) (axis : Axis) :
    (checkAxis space axis).run problem
      = found problem ((problem.axisError? space axis).elim (.ok ()) .error) := by
  unfold checkAxis Problem.axisError?
  simp only [EStateM.run_bind, EStateM.run_get]
  cases problem.declarations[axis.name]? with
  | none => rfl
  | some declared =>
    by_cases hd : declared.domain = axis.domain
    · simp only [ne_eq, hd, not_true_eq_false, if_true, if_false]
      rfl
    · simp only [ne_eq, hd, not_false_eq_true, if_true, if_false]
      rfl

theorem run_forM_checkAxis (problem : Problem K) (space : String) (axes : List Axis) :
    (forM axes (checkAxis space)).run problem
      = found problem ((axes.findSome? (problem.axisError? space)).elim (.ok ()) .error) := by
  induction axes with
  | nil => rfl
  | cons axis rest ih =>
    rw [List.forM_cons, EStateM.run_bind, run_checkAxis, List.findSome?_cons]
    cases problem.axisError? space axis with
    | none => exact ih
    | some error => rfl

theorem run_addSpace (problem : Problem K) (space : CostSpace K) :
    (addSpace space).run problem = changed problem (problem.addSpace space) := by
  rw [addSpace, EStateM.run_bind, run_forM_checkAxis, Problem.addSpace]
  cases space.axes.findSome? (problem.axisError? space.name) <;> rfl

theorem run_domain (problem : Problem K) (name : String) :
    (domain name).run problem
      = found problem ((problem.domain? name).elim (.error (.unknownVariable name)) .ok) := by
  unfold domain
  simp only [EStateM.run_bind, EStateM.run_get]
  cases problem.domain? name <;> rfl

theorem run_mapM_domain (problem : Problem K) (names : List String) :
    (names.mapM domain).run problem = found problem (problem.domainsOf names) := by
  induction names with
  | nil => rfl
  | cons name rest ih =>
    rw [List.mapM_cons, EStateM.run_bind, run_domain, Problem.domainsOf]
    cases problem.domain? name with
    | none => rfl
    | some values =>
      show (rest.mapM domain >>= fun others => pure (values :: others)).run problem = _
      rw [EStateM.run_bind, ih]
      cases problem.domainsOf rest <;> rfl

theorem run_addFunction (problem : Problem K) (name : String) (scope : List String)
    (cost : List Value → K) :
    (addFunction name scope cost).run problem
      = changed problem (problem.addFunction name scope cost) := by
  rw [addFunction, EStateM.run_bind, run_mapM_domain, Problem.addFunction]
  cases problem.domainsOf scope with
  | error error => rfl
  | ok domains =>
    simp only [found]
    rw [EStateM.run_bind]
    cases CostSpace.tabulate name scope domains cost with
    | error error => rfl
    | ok space => exact run_addSpace problem space

end Edit

/-- A space that was accepted when it was made, from a table or from a function. -/
inductive CostSpace.Accepted : CostSpace K → Prop where
  | ofTable {name : String} {scope : List String} {domains : List (List Value)} {table : Array K}
      {space : CostSpace K} :
      CostSpace.ofTable name scope domains table = .ok space → Accepted space
  | tabulate {name : String} {scope : List String} {domains : List (List Value)}
      {cost : List Value → K} {space : CostSpace K} :
      CostSpace.tabulate name scope domains cost = .ok space → Accepted space

namespace Problem

/-- What may be asked of a problem while it is put together. -/
inductive Call (K : Type) where
  | addVariable (name owner : String) (domain : List Value)
  | addSpace (space : CostSpace K) (accepted : space.Accepted)
  | addUnary (name x : String) (cost : Value → K)
  | addBinary (name x y : String) (cost : Value → Value → K)

namespace Call

/-- What a call does to a problem in place. -/
def edit : Call K → Edit K Unit
  | addVariable name owner domain => Edit.addVariable name owner domain
  | addSpace space _ => Edit.addSpace space
  | addUnary name x cost => Edit.addFunction name [x] fun values => cost (values.headD 0)
  | addBinary name x y cost =>
    Edit.addFunction name [x, y] fun values => cost (values.headD 0) (values.tail.headD 0)

/-- What the operation of the call gives. -/
def result (problem : Problem K) : Call K → Except ProblemError (Problem K)
  | addVariable name owner domain => problem.addVariable name owner domain
  | addSpace space _ => problem.addSpace space
  | addUnary name x cost => problem.addUnary name x cost
  | addBinary name x y cost => problem.addBinary name x y cost

/-- A call in place does what the operation does, and changes nothing when it fails. -/
theorem run_edit (problem : Problem K) (call : Call K) :
    call.edit.run problem = Edit.changed problem (call.result problem) := by
  cases call with
  | addVariable name owner domain => exact Edit.run_addVariable problem name owner domain
  | addSpace space _ => exact Edit.run_addSpace problem space
  | addUnary name x cost => exact Edit.run_addFunction problem name [x] _
  | addBinary name x y cost => exact Edit.run_addFunction problem name [x, y] _

theorem eq_of_error {problem left : Problem K} {call : Call K} {error : ProblemError}
    (h : call.edit.run problem = .error error left) : left = problem := by
  rw [run_edit] at h
  cases hresult : call.result problem with
  | ok next => rw [hresult] at h; cases h
  | error cause => rw [hresult] at h; cases h; rfl

end Call

/-- The problem after calls in turn, some of which may fail. -/
def after (problem : Problem K) (calls : List (Call K)) : Problem K :=
  calls.foldl (fun problem call => Edit.left (call.edit.run problem)) problem

theorem Built.addAccepted {problem next : Problem K} {space : CostSpace K} (h : problem.Built)
    (haccepted : space.Accepted) (hnext : problem.addSpace space = .ok next) : next.Built := by
  cases haccepted with
  | ofTable htable => exact h.addSpace htable hnext
  | tabulate htable => exact h.addSpace htable hnext

theorem Built.addFunction {problem next : Problem K} {name : String} {scope : List String}
    {cost : List Value → K} (h : problem.Built)
    (hnext : problem.addFunction name scope cost = .ok next) : next.Built := by
  unfold Problem.addFunction at hnext
  split at hnext
  · cases hnext
  split at hnext
  · cases hnext
  next space htable => exact h.addAccepted (.tabulate htable) hnext

theorem Built.call {problem next : Problem K} (h : problem.Built) (call : Call K)
    (hnext : call.result problem = .ok next) : next.Built := by
  cases call with
  | addVariable name owner domain => exact h.addVariable hnext
  | addSpace space haccepted => exact h.addAccepted haccepted hnext
  | addUnary name x cost => exact h.addFunction hnext
  | addBinary name x y cost => exact h.addFunction hnext

theorem Built.after {problem : Problem K} (h : problem.Built) (calls : List (Call K)) :
    (problem.after calls).Built := by
  induction calls generalizing problem with
  | nil => exact h
  | cons call rest ih =>
    refine ih ?_
    show (Edit.left (call.edit.run problem)).Built
    rw [Call.run_edit]
    cases hresult : call.result problem with
    | ok next => exact h.call call hresult
    | error _ => exact h

end Problem

/-- A result for each element, in order, is the list of all results, none of which is missing. -/
theorem forall₂_eq_some_iff {A B : Type} {f : A → Option B} {xs : List A} {ys : List B} :
    List.Forall₂ (fun x y => f x = some y) xs ys ↔
      (∀ x ∈ xs, (f x).isSome) ∧ ys = xs.filterMap f := by
  induction xs generalizing ys with
  | nil => simp
  | cons x rest ih =>
    rw [List.forall₂_cons_left_iff, List.forall_mem_cons, List.filterMap_cons]
    simp only [ih]
    cases f x with
    | none => simp
    | some y => simp

theorem CostSpace.Fits.exists_lookup_iff {problem : Problem K} {space : CostSpace K}
    (h : space.Fits problem) {value? : String → Option Value} :
    (∃ entry, space.lookup? value? = some entry) ↔
      problem.Assigns {name | name ∈ space.scope} value? := by
  refine ⟨fun ⟨entry, he⟩ name hn => ?_, h.exists_entry⟩
  obtain ⟨point, hread, -⟩ := lookup?_eq_some_iff.mp he
  obtain ⟨axis, ha, rfl⟩ := List.mem_map.mp hn
  obtain ⟨value, hm, hv⟩ := exists_reads_iff.mp ⟨point, hread⟩ axis ha
  exact ⟨value, hv, axis.domain, h.declared axis ha, hm⟩

namespace Problem

variable [CostArithmetic K]

/-- A total is the one of an entry of each space. -/
theorem evaluate?_eq_some_iff {problem : Problem K} {assignment : Assignment} {value : K} :
    problem.evaluate? assignment = some value ↔
      ∃ entries, List.Forall₂ (fun space entry => space.utilityOf? assignment = some entry)
        problem.spaces entries ∧ value = total entries := by
  simp only [forall₂_eq_some_iff, evaluate?, List.all_eq_true]
  grind

/-- There is a total just where the variables of all scopes have values of their domains. -/
theorem WellFormed.exists_evaluate_iff {problem : Problem K} (wf : problem.WellFormed)
    (assignment : Assignment) : (∃ value, problem.evaluate? assignment = some value) ↔
      problem.Assigns {name | ∃ space ∈ problem.spaces, name ∈ space.scope} (assignment[·]?) := by
  have hsome : (∃ value, problem.evaluate? assignment = some value) ↔
      ∀ space ∈ problem.spaces, ∃ entry, space.lookup? (assignment[·]?) = some entry := by
    simp only [← Option.isSome_iff_exists, ← List.all_eq_true]
    rw [evaluate?, Option.isSome_ite]
    rfl
  rw [hsome]
  constructor
  · rintro h name ⟨space, hs, hn⟩
    exact (wf.fits space hs).exists_lookup_iff.mp (h space hs) name hn
  · intro h space hs
    exact (wf.fits space hs).exists_lookup_iff.mpr fun name hn => h name ⟨space, hs, hn⟩

/-- What holds of a problem after calls. -/
structure Kept (problem : Problem K) : Prop where
  /-- A call in place does what the operation does. -/
  agrees : ∀ call : Call K, call.edit.run problem = Edit.changed problem (call.result problem)
  /-- A call that fails leaves the problem as it is. -/
  unchanged : ∀ (call : Call K) (error : ProblemError) (left : Problem K),
    call.edit.run problem = .error error left → left = problem
  /-- The scopes name declared variables, each once and with its declared domain, and the tables have
  an entry for each joint value. -/
  fits : ∀ space ∈ problem.spaces, space.Fits problem
  /-- There is a total just if every variable of a scope has a value of its domain. -/
  evaluates : ∀ assignment : Assignment, (∃ value, problem.evaluate? assignment = some value) ↔
    problem.Assigns {name | ∃ space ∈ problem.spaces, name ∈ space.scope} (assignment[·]?)
  /-- The total is that of one entry of each space, the one beside the values of its scope. -/
  adds : ∀ (assignment : Assignment) (value : K), problem.evaluate? assignment = some value →
    ∃ entries, value = total entries ∧ List.Forall₂ (fun space entry =>
      ∃ point, CostSpace.Reads (assignment[·]?) space.axes point ∧
        space.beside? point = some entry) problem.spaces entries

/-- Whatever calls are made on an empty problem, and whichever of them fail. -/
theorem kept_after (objective : Objective) (calls : List (Call K)) :
    ((empty objective).after calls).Kept := by
  have wf := ((Built.empty objective).after calls).wellFormed
  generalize (empty objective).after calls = problem at wf
  refine {
    agrees := Call.run_edit problem
    unchanged := fun _ _ _ => Call.eq_of_error
    fits := wf.fits
    evaluates := wf.exists_evaluate_iff
    adds := fun assignment value hvalue => ?_ }
  obtain ⟨entries, hentries, rfl⟩ := evaluate?_eq_some_iff.mp hvalue
  exact ⟨entries, rfl, hentries.imp fun _ _ he => CostSpace.lookup?_eq_some_iff.mp he⟩

/-- Of these calls the second and the third fail, and the others have their effect. -/
example : ((empty .minimize).after [.addVariable "x" "a" [1, 2], .addVariable "x" "b" [3],
    .addBinary "xy" "x" "y" (· + ·), .addUnary "u" "x" (10 * ·)]).spaces.map CostSpace.table
      = [#[10, 20]] := by
  decide +kernel

end Problem

end DcopSearch
