import DcopSearch.Proofs.Normalization.Exact
import DcopSearch.Proofs.Protocol.Scaled
import DcopSearch.Proofs.Protocol.Subtree
import DcopSearch.Proofs.Sampling.Coherent

/-! When a variable is refuted in a context.  Either each of its values meets an infinite cost in its
own spaces, or one value leaves a child refuted, which is enough where values are pruned.  The first
leaves no feasible assignment of the subtree; the second says so of the one value alone. -/

namespace DcopSearch

open CostArithmetic

variable {K : Type} [CostArithmetic K]

namespace CostSpace

omit [CostArithmetic K] in
theorem lookup?_mono {space : CostSpace K} {value? value'? : String → Option Value}
    (h : ∀ name value, value? name = some value → value'? name = some value) {entry : K}
    (he : space.lookup? value? = some entry) : space.lookup? value'? = some entry := by
  have hposition : ∀ (axes : List Axis) (index i : Nat), position? value? axes index = some i →
      position? value'? axes index = some i := by
    intro axes
    induction axes with
    | nil => exact fun _ _ hi => hi
    | cons axis rest ih =>
      intro index i hi
      cases hv : value? axis.name with
      | none => simp [position?, hv] at hi
      | some value =>
        cases hj : axis.domain.idxOf? value with
        | none => simp [position?, hv, hj] at hi
        | some j =>
          simp only [position?, hv, h _ _ hv, Option.bind_some, hj] at hi ⊢
          exact ih _ _ hi
  obtain ⟨i, hi, hentry⟩ := Option.bind_eq_some_iff.mp he
  exact Option.bind_eq_some_iff.mpr ⟨i, hposition _ _ _ hi, hentry⟩

end CostSpace

namespace Setup

variable {setup : Setup K} {name : String} {context : String → Option Value}

/-- A space that the variable enforces is infeasible at the values. -/
def Blocked (setup : Setup K) (name : String) (value? : String → Option Value) : Prop :=
  ∃ space ∈ setup.enforced name, ∃ entry, space.lookup? value? = some entry ∧
    isInfinite entry = true

/-- On what grounds a variable is given up in a context. -/
inductive Refuted (setup : Setup K) : String → (String → Option Value) → Prop where
  | barren {name : String} {context : String → Option Value} :
      setup.config.ignoreInfeasible = true →
      (∀ own ∈ setup.domain name, setup.Blocked name (Function.update context name (some own))) →
      Refuted setup name context
  | pruned {name child : String} {context : String → Option Value} {own : Value} :
      setup.config.pruning = true → own ∈ setup.domain name → child ∈ setup.children name →
      Refuted setup child (Function.update context name (some own)) → Refuted setup name context

/-- Whatever values extend the context, some normalized space of the subtree is infeasible. -/
def Infeasible (setup : Setup K) (divisor : K) (name : String)
    (context : String → Option Value) : Prop :=
  ∀ value? : String → Option Value,
    (∀ other value, context other = some value → value? other = some value) →
    (∀ other ∈ setup.subtree name, ∃ own ∈ setup.domain other, value? other = some own) →
    ∃ other ∈ setup.subtree name, ∃ space ∈ setup.normalizedSpaces divisor other, ∃ entry,
      space.lookup? value? = some entry ∧ isInfinite entry = true

/-- No value is pruned, or a variable with children has no other one to choose. -/
def Decisive (setup : Setup K) (name : String) : Prop :=
  setup.config.pruning = false ∨ ∀ other ∈ setup.subtree name, setup.children other = [] ∨
    ∀ own ∈ setup.domain other, ∀ own' ∈ setup.domain other, own = own'

/-- The values, of which one is the variable's own, leave a child refuted. -/
def Dead (setup : Setup K) (name : String) (value? : String → Option Value) : Prop :=
  setup.config.pruning = true ∧ ∃ child ∈ setup.children name, setup.Refuted child value?

theorem Blocked.mono {value? value'? : String → Option Value} (h : setup.Blocked name value?)
    (hle : ∀ other value, value? other = some value → value'? other = some value) :
    setup.Blocked name value'? := by
  obtain ⟨space, hs, entry, he, hi⟩ := h
  exact ⟨space, hs, entry, CostSpace.lookup?_mono hle he, hi⟩

omit [CostArithmetic K] in
theorem update_mono {value? value'? : String → Option Value}
    (hle : ∀ other value, value? other = some value → value'? other = some value) (own : Value) :
    ∀ other value, Function.update value? name (some own) other = some value →
      Function.update value'? name (some own) other = some value := by
  intro other value
  rw [Function.update_apply, Function.update_apply]
  split
  · exact id
  · exact hle other value

theorem Refuted.mono (h : setup.Refuted name context) {context' : String → Option Value}
    (hle : ∀ other value, context other = some value → context' other = some value) :
    setup.Refuted name context' := by
  induction h generalizing context' with
  | barren hignore hall =>
    exact .barren hignore fun own hown => (hall own hown).mono (update_mono hle own)
  | pruned hprune hown hc _ ih => exact .pruned hprune hown hc (ih (update_mono hle _))

/-- Without ignoring what is infeasible nothing is refuted. -/
theorem Refuted.ignoring (h : setup.Refuted name context) :
    setup.config.ignoreInfeasible = true := by
  induction h with
  | barren hignore _ => exact hignore
  | pruned _ _ _ _ ih => exact ih

/-- A variable each of whose values is infinite by itself or dead is refuted. -/
theorem refuted_of_values (hignore : setup.config.ignoreInfeasible = true)
    (h : ∀ own ∈ setup.domain name,
      setup.Blocked name (Function.update context name (some own)) ∨
        setup.Dead name (Function.update context name (some own))) :
    setup.Refuted name context := by
  by_cases hdead : ∃ own ∈ setup.domain name,
      setup.Dead name (Function.update context name (some own))
  · obtain ⟨own, hown, hprune, child, hc, hrefuted⟩ := hdead
    exact .pruned hprune hown hc hrefuted
  · exact .barren hignore fun own hown => (h own hown).resolve_right fun hd =>
      hdead ⟨own, hown, hd⟩

end Setup

section Exact

open Exact

variable {F : Type} [Field F] [LinearOrder F] [LnSqrt F]

theorem Config.exists_penalty {config checked : Config (Exact F)}
    (h : config.validate = .ok checked) (objective : Objective) :
    ∃ p, config.penaltyFor objective = number p := by
  unfold Config.penaltyFor
  cases hp : config.penalty with
  | none => cases objective <;> exact ⟨_, rfl⟩
  | some penalty =>
    refine Exact.exists_number ?_
    unfold Config.validate at h
    rw [hp] at h
    cases hf : isFinite penalty with
    | true => exact hf
    | false =>
      simp only [hf, Option.any_some, Bool.not_false, if_true] at h
      split at h
      · cases h
      · split at h <;> cases h

/-- What replaces infeasible costs is a number if the penalty is one. -/
theorem Setup.exists_substitute {setup : Setup (Exact F)}
    (h : ∃ p, setup.config.penaltyFor setup.problem.objective = number p) (penalty : Exact F)
    (hs : setup.substitute = some penalty) : ∃ p, penalty = number p := by
  unfold Setup.substitute at hs
  split at hs
  · cases hs
  · obtain ⟨p, hp⟩ := h
    exact ⟨p, (Option.some.inj hs).symm.trans hp⟩

/-- The tables have numbers and the worst cost only, and the penalty is a number. -/
structure Setup.Priced (setup : Setup (Exact F)) : Prop where
  spaces : ∀ space ∈ setup.problem.spaces, space.Priced setup.problem.objective
  penalty : ∃ p, setup.config.penaltyFor setup.problem.objective = number p

namespace Setup.Priced

variable {setup : Setup (Exact F)} {name : String} {divisor : Exact F}

/-- An entry of a normalized space comes from an entry of the space, and is infinite just if that one
is and infinite ones are ignored. -/
theorem normalized (h : setup.Priced) (hd : Range.Divides divisor) {space : CostSpace (Exact F)}
    (hs : space ∈ setup.enforced name) {value? : String → Option Value} {entry : Exact F}
    (he : space.lookup? value? = some entry) :
    ∃ rescaled, (space.rescale (Range.shift setup.substitute space) divisor
        setup.substitute).lookup? value? = some rescaled ∧
      Exact.Priced setup.problem.objective rescaled ∧
      isInfinite rescaled = (isInfinite entry && setup.config.ignoreInfeasible) := by
  have hspace := h.spaces space (List.mem_filter.mp hs).1
  obtain ⟨shift, hshift⟩ := Range.exists_shift hspace (exists_substitute h.penalty)
  obtain ⟨range, rfl⟩ := hd
  obtain ⟨d, hne, hd⟩ := Range.exists_divisor range
  obtain ⟨hpriced, hinfinite⟩ := CostSpace.rescaleEntry_priced shift hne
    (exists_substitute h.penalty) (hspace entry (CostSpace.mem_table_of_lookup he))
  refine ⟨_, by rw [CostSpace.lookup?_rescale, he, hshift, hd]; rfl, hpriced, ?_⟩
  rw [hinfinite, Setup.substitute]
  cases setup.config.ignoreInfeasible <;> rfl

/-- A variable whose own cost is infinite is blocked. -/
theorem costAt (h : setup.Priced) (hd : Range.Divides divisor) {s : SamplingState (Exact F)}
    (hspaces : s.spaces = setup.normalizedSpaces divisor name) (key : List Value) (own : Value) :
    Exact.Priced setup.problem.objective (s.costAt key own) ∧
      (isInfinite (s.costAt key own) = true →
        setup.config.ignoreInfeasible = true ∧ setup.Blocked name (s.under key own)) := by
  have hentry : ∀ cost ∈ s.spaces.filterMap (·.lookup? (s.under key own)),
      Exact.Priced setup.problem.objective cost ∧ (isInfinite cost = true →
        setup.config.ignoreInfeasible = true ∧ setup.Blocked name (s.under key own)) := by
    intro cost hc
    obtain ⟨rescaled, hm, hlookup⟩ := List.mem_filterMap.mp hc
    rw [hspaces, Setup.normalizedSpaces, List.mem_map] at hm
    obtain ⟨space, hs, rfl⟩ := hm
    obtain ⟨entry, he⟩ : ∃ entry, space.lookup? (s.under key own) = some entry := by
      rw [CostSpace.lookup?_rescale] at hlookup
      obtain ⟨entry, he, -⟩ := Option.map_eq_some_iff.mp hlookup
      exact ⟨entry, he⟩
    obtain ⟨cost', hlookup', hpriced, hinfinite⟩ := h.normalized hd hs he
    obtain rfl := Option.some.inj (hlookup'.symm.trans hlookup)
    refine ⟨hpriced, fun hc => ?_⟩
    rw [hinfinite, Bool.and_eq_true] at hc
    exact ⟨hc.2, space, hs, entry, he, hc.1⟩
  obtain ⟨hpriced, hsum⟩ := Exact.Priced.sum fun cost hc => (hentry cost hc).1
  rw [SamplingState.costAt, total_eq_sum]
  refine ⟨hpriced, fun hi => ?_⟩
  rw [hsum, List.any_eq_true] at hi
  obtain ⟨cost, hc, hinfinite⟩ := hi
  exact (hentry cost hc).2 hinfinite

theorem of_blocked (h : setup.Priced) (hd : Range.Divides divisor)
    (hignore : setup.config.ignoreInfeasible = true) {value? : String → Option Value}
    (hb : setup.Blocked name value?) : ∃ space ∈ setup.normalizedSpaces divisor name, ∃ entry,
      space.lookup? value? = some entry ∧ isInfinite entry = true := by
  obtain ⟨space, hs, entry, he, hi⟩ := hb
  obtain ⟨rescaled, hlookup, -, hinfinite⟩ := h.normalized hd hs he
  exact ⟨_, List.mem_map_of_mem hs, rescaled, hlookup, by rw [hinfinite, hi, hignore]; rfl⟩

end Setup.Priced

namespace Setup

variable {setup : Setup (Exact F)} {name : String} {divisor : Exact F}
  {context : String → Option Value}

theorem Blocked.infeasible (h : setup.Blocked name context) (priced : setup.Priced)
    (hd : Range.Divides divisor) (hignore : setup.config.ignoreInfeasible = true)
    (hn : name ∈ setup.problem.names) : setup.Infeasible divisor name context := fun _ hle _ =>
  ⟨name, mem_subtree_self hn, priced.of_blocked hd hignore (h.mono hle)⟩

theorem infeasible_of_child {child : String} (valid : setup.Valid)
    (hc : child ∈ setup.children name) (h : setup.Infeasible divisor child context) :
    setup.Infeasible divisor name context := by
  intro value? hle hvalues
  obtain ⟨other, ho, hspace⟩ := h value? hle fun other ho =>
    hvalues other (valid.subtree_child hc ho).1
  exact ⟨other, (valid.subtree_child hc ho).1, hspace⟩

theorem infeasible_of_values (hn : name ∈ setup.problem.names)
    (h : ∀ own ∈ setup.domain name,
      setup.Infeasible divisor name (Function.update context name (some own))) :
    setup.Infeasible divisor name context := by
  intro value? hle hvalues
  obtain ⟨own, hown, hv⟩ := hvalues name (mem_subtree_self hn)
  refine h own hown value? (fun other value ho => ?_) hvalues
  rw [Function.update_apply] at ho
  split at ho
  next he => rw [he, hv, ho]
  next => exact hle other value ho

/-- A variable that is refuted leaves its subtree infeasible, if that is decisive. -/
theorem Refuted.infeasible (h : setup.Refuted name context) (valid : setup.Valid)
    (priced : setup.Priced) (hd : Range.Divides divisor) (hn : name ∈ setup.problem.names)
    (decisive : setup.Decisive name) : setup.Infeasible divisor name context := by
  induction h with
  | barren hignore hall =>
    exact infeasible_of_values hn fun own hown => (hall own hown).infeasible priced hd hignore hn
  | @pruned name child context own hprune hown hc _ ih =>
    have hchoice := decisive.resolve_left (by simp [hprune])
    -- the variable has a child, so that there is no other value
    have hone : ∀ held ∈ setup.domain name, own = held := by
      rcases hchoice name (mem_subtree_self hn) with hleaf | hone
      · rw [hleaf] at hc
        cases hc
      · exact hone own hown
    refine infeasible_of_values hn fun held hheld => ?_
    rw [← hone held hheld]
    exact infeasible_of_child valid hc (ih (valid.mem_names_of_child hc)
      (.inr fun other ho => hchoice other (valid.subtree_child hc ho).1))

end Setup

section Chain

/-- Three variables in a row.  The last one has no choice, and the first value of the one in the middle
is infeasible with it. -/
def Problem.chain : Problem (Exact ℚ) where
  objective := .minimize
  declarations := (((∅ : Std.ExtTreeMap String Variable).insert "a" ⟨"a", "x", [0, 1]⟩).insert
    "b" ⟨"b", "y", [0, 1]⟩).insert "c" ⟨"c", "z", [0]⟩
  spaces := [
    ⟨"ab", [⟨"a", [0, 1]⟩, ⟨"b", [0, 1]⟩], #[number 0, number 0, number 5, number 5]⟩,
    ⟨"bc", [⟨"b", [0, 1]⟩, ⟨"c", [0]⟩], #[high, number 0]⟩]

theorem Problem.built_chain : Problem.chain.Built := by
  have hempty : Problem.Built (.empty .minimize : Problem (Exact ℚ)) := .empty .minimize
  have ha := hempty.declare "a" "x" [0, 1] rfl (by decide +kernel)
  have hb := ha.declare "b" "y" [0, 1] rfl (by decide +kernel)
  have hc := hb.declare "c" "z" [0] rfl (by decide +kernel)
  exact (hc.enforce (by decide) rfl (by decide +kernel)).enforce (by decide) rfl
    (by decide +kernel)

theorem Problem.priced_chain :
    ∀ space ∈ Problem.chain.spaces, space.Priced Problem.chain.objective := by
  have hcosts : ∀ space ∈ Problem.chain.spaces, ∀ entry ∈ space.table.toList,
      entry ≠ low ∧ entry ≠ undefined := by decide +kernel
  intro space hs entry he
  cases entry with
  | number a => exact .inl ⟨a, rfl⟩
  | high => exact .inr rfl
  | low => exact absurd rfl (hcosts space hs _ he).1
  | undefined => exact absurd rfl (hcosts space hs _ he).2

/-- What is infeasible is ignored and pruned. -/
def Config.severe : Config (Exact ℚ) :=
  { Config.standard with ignoreInfeasible := true, pruning := true }

theorem Config.validate_severe : Config.severe.validate = .ok Config.severe := by
  rw [Config.validate, if_neg (by decide +kernel), if_neg (by decide +kernel),
    if_neg (by decide +kernel), if_neg (by decide +kernel)]

end Chain

end Exact

end DcopSearch
