import DcopSearch.Normalization.Normalizer
import DcopSearch.Proofs.Sampling.Acts
import DcopSearch.Proofs.Tree.Spanning
import Mathlib.Algebra.BigOperators.Group.Finset.Basic
import Mathlib.Algebra.Order.Group.Multiset

/-! The search as a system of variables.  A world gives every variable a cell: what it has gathered,
the state of its sampling, and where it stands with its parent.  The last decides which messages
between the two are under way, so that nothing else needs to be known of them. -/

namespace DcopSearch

open CostArithmetic

/-- What is given to a search: a problem, a tree for it, and the parameters. -/
structure Setup (K : Type) where
  problem : Problem K
  tree : PseudoTree
  config : Config K

namespace Setup

variable {K : Type}

def view (setup : Setup K) (name : String) : View := setup.tree.view name

def children (setup : Setup K) (name : String) : List String := (setup.view name).children

def parent (setup : Setup K) (name : String) : Option String := (setup.view name).parent

def domain (setup : Setup K) (name : String) : List Value := (setup.problem.domain? name).getD []

/-- The spaces that a variable enforces. -/
def enforced (setup : Setup K) (name : String) : List (CostSpace K) :=
  setup.problem.spacesEnforcedBy name (setup.view name).below

variable [CostArithmetic K]

/-- The settings of the agent that owns a variable. -/
def settings (setup : Setup K) (name : String) : SamplingSettings K :=
  .ofConfig ((setup.problem.owner? name).getD "") setup.problem.objective setup.config

/-- What replaces infeasible costs. -/
def substitute (setup : Setup K) : Option K :=
  if setup.config.ignoreInfeasible then none
  else some (setup.config.penaltyFor setup.problem.objective)

/-- The state of a variable whose view has just come. -/
def registered (setup : Setup K) (name : String) : SamplingState K :=
  .ofView (setup.settings name) name (setup.domain name) (setup.view name)

end Setup

/-- How far the normalization of a variable has come. -/
inductive Ascent (K : Type) where
  /-- Its view is under way. -/
  | unseen
  /-- It waits for the reports of its children. -/
  | gathering
  /-- Its own report is under way. -/
  | reporting
  /-- Its parent has its report. -/
  | reported
  /-- Its divisor is known, to a root, or under way. -/
  | dividing (divisor : K)
  | normalized

/-- The stages of normalization, as far as the children of a variable can tell. -/
inductive Stage where
  | unseen
  | gathering
  | closed
  | normalized
deriving DecidableEq

def Ascent.stage {K : Type} : Ascent K → Stage
  | unseen => .unseen
  | gathering => .gathering
  | reporting | reported | dividing _ => .closed
  | normalized => .normalized

theorem Ascent.stage_eq_normalized {K : Type} {ascent : Ascent K} :
    ascent.stage = .normalized ↔ ascent = .normalized := by
  cases ascent <;> simp [stage]

def Ascent.isReported {K : Type} : Ascent K → Bool
  | reported => true
  | _ => false

/-- Where a variable stands in the exchange of contexts and costs with its parent. -/
inductive Exchange (K : Type) where
  /-- It waits for a context. -/
  | idle
  /-- A context for it is under way. -/
  | asked (context : Context)
  /-- It keeps a context until it is normalized. -/
  | kept (context : Context)
  /-- It has taken a context over and is about to react. -/
  | poised (final : Bool)
  /-- It waits for its children. -/
  | busy (final : Bool)
  /-- Its report is under way. -/
  | answered (cost : Option K)
  /-- It has terminated. -/
  | ended

/-- What a variable does, as far as its children can tell. -/
inductive Stance where
  | waiting
  | busy
  | ended
deriving DecidableEq

def Exchange.stance {K : Type} : Exchange K → Stance
  | busy _ => .busy
  | ended => .ended
  | _ => .waiting

theorem Exchange.stance_eq_ended {K : Type} {exchange : Exchange K} :
    exchange.stance = .ended ↔ exchange = .ended := by
  cases exchange <;> simp [stance]

def Exchange.isIdle {K : Type} : Exchange K → Bool
  | idle => true
  | _ => false

/-- The context kept until normalization. -/
def Exchange.buffered {K : Type} : Exchange K → Option Context
  | kept context => some context
  | _ => none

/-- The context that is under way or kept. -/
def Exchange.context? {K : Type} : Exchange K → Option Context
  | asked context | kept context => some context
  | _ => none

/-- What there is to know about one variable.  `state` is the one after its view has come. -/
structure Cell (K : Type) where
  range : Range K
  state : SamplingState K
  ascent : Ascent K
  exchange : Exchange K

/-- The cells of all variables. -/
abbrev World (K : Type) := String → Cell K

/-- Where an act leaves a variable with its parent. -/
def Act.exchange {K : Type} (final : Bool) : Act K → Exchange K
  | report cost => .answered cost
  | sample => .busy final
  | finish => .ended

/-- The children that an act sends a context to. -/
def Act.addressees {K : Type} (children : List String) : Act K → List String
  | report _ => []
  | sample | finish => children

theorem Act.mem_of_addressed {K : Type} {act : Act K} {children : List String} {child : String}
    (h : child ∈ act.addressees children) : child ∈ children := by
  cases act with
  | report cost => cases h
  | sample => exact h
  | finish => exact h

/-- The state of a variable whose round is over. -/
def SamplingState.settled {K : Type} [CostArithmetic K] (s : SamplingState K) : SamplingState K :=
  { s with round := .empty }

namespace Cell

variable {K : Type} [CostArithmetic K]

/-- The cell of a variable at the beginning. -/
def initial (setup : Setup K) (name : String) : Cell K where
  range := .empty
  state := setup.registered name
  ascent := .unseen
  exchange := .idle

/-- The messages of normalization that are under way between a variable and its parent, or to the
variable alone. -/
def ascentFlight (setup : Setup K) (name : String) (cell : Cell K) : Multiset (Outgoing K) :=
  match cell.ascent with
  | .unseen => {⟨setup.problem.address name, .view name (setup.view name)⟩}
  | .reporting =>
    ((setup.parent name).toList.map fun parent =>
      ⟨setup.problem.address parent, .range (Normalizer.reportTo parent cell.range)⟩ :
        List (Outgoing K))
  | .dividing divisor =>
    if (setup.parent name).isSome then {⟨setup.problem.address name, .divisor name divisor⟩} else 0
  | .gathering | .reported | .normalized => 0

/-- The contexts and costs that are under way between a variable and its parent. -/
def exchangeFlight (setup : Setup K) (name : String) (cell : Cell K) : Multiset (Outgoing K) :=
  match cell.exchange with
  | .asked context => {⟨setup.problem.address name, .context context⟩}
  | .answered cost =>
    ((setup.parent name).toList.map fun parent =>
      ⟨setup.problem.address parent, .cost parent cost⟩ : List (Outgoing K))
  | .idle | .kept _ | .poised _ | .busy _ | .ended => 0

/-- All messages under way between a variable and its parent. -/
def flight (setup : Setup K) (name : String) (cell : Cell K) : Multiset (Outgoing K) :=
  cell.ascentFlight setup name + cell.exchangeFlight setup name

/-- The view has come. -/
def seen (setup : Setup K) (name : String) (cell : Cell K) : Cell K :=
  { cell with
    range := cell.range.addView setup.substitute (setup.view name) (setup.enforced name)
      (setup.domain name).length
    ascent := .gathering }

/-- The report of a child has come. -/
def told (report : RangeReport K) (cell : Cell K) : Cell K :=
  { cell with range := cell.range.addReport report }

/-- The range is complete: it is reported or, by a root, turned into the divisor. -/
def closed (setup : Setup K) (name : String) (cell : Cell K) : Cell K :=
  let range := cell.range.close name (setup.view name)
  { cell with
    range
    ascent := if (setup.parent name).isSome then .reporting else .dividing range.divisor }

/-- The divisor has come.  A root starts to sample; a context that was kept is under way again. -/
def normalized (setup : Setup K) (name : String) (divisor : K) (cell : Cell K) : Cell K :=
  let range := cell.range.rescale setup.substitute divisor
  let state := cell.state.prepare (setup.settings name) (range.normalized name divisor)
  if (setup.parent name).isSome then
    { range
      state := { state with phase := .awaitingParentValue }
      ascent := .normalized
      exchange := cell.exchange.buffered.elim cell.exchange .asked }
  else
    { range
      state := { state with phase := .sampling }
      ascent := .normalized
      exchange := .poised true }

/-- A context has come before normalization. -/
def keeping (context : Context) (cell : Cell K) : Cell K :=
  { cell with
    state := { cell.state with phase := .awaitingNormalization (some context) }
    exchange := .kept context }

/-- A context has come. -/
def taking (context : Context) (cell : Cell K) : Cell K :=
  { cell with
    state := { cell.state.assign context.entries with phase := .sampling }
    exchange := .poised context.final }

/-- The report of a child has come. -/
def counting (cost : Option K) (cell : Cell K) : Cell K :=
  { cell with
    state := { cell.state with round := cell.state.round.add cell.state.penalty cost } }

/-- The variable has acted. -/
def acting (act : Act K) (final : Bool) (state : SamplingState K) (cell : Cell K) : Cell K :=
  { cell with state, exchange := act.exchange final }

section Normalized

variable {setup : Setup K} {name : String} {divisor : K} {cell : Cell K}

theorem normalized_ascent : (cell.normalized setup name divisor).ascent = .normalized := by
  unfold normalized
  split <;> rfl

theorem normalized_range :
    (cell.normalized setup name divisor).range = cell.range.rescale setup.substitute divisor := by
  unfold normalized
  split <;> rfl

theorem exists_normalized_state (setup : Setup K) (name : String) (divisor : K) (cell : Cell K) :
    ∃ phase, (cell.normalized setup name divisor).state
      = { cell.state.prepare (setup.settings name)
            ((cell.range.rescale setup.substitute divisor).normalized name divisor) with
          phase := phase } := by
  unfold normalized
  split <;> exact ⟨_, rfl⟩

/-- A root goes on to sample. -/
theorem normalized_root (hp : setup.parent name = none) :
    (cell.normalized setup name divisor).exchange = .poised true := by
  simp [normalized, hp]

theorem normalized_child {parent : String} (hp : setup.parent name = some parent) :
    (cell.normalized setup name divisor).exchange
      = cell.exchange.buffered.elim cell.exchange .asked := by
  simp [normalized, hp]

end Normalized

end Cell

namespace World

variable {K : Type}

/-- Replaces the cell of a variable and changes those of some children. -/
def rewrite (w : World K) (name : String) (cell : Cell K) (children : List String)
    (change : String → Cell K → Cell K) : World K :=
  fun other =>
    if other = name then cell else if other ∈ children then change other (w other) else w other

/-- Replaces the cell of a variable. -/
def update (w : World K) (name : String) (cell : Cell K) : World K :=
  w.rewrite name cell [] fun _ cell => cell

/-- A sum over the cells of all variables. -/
def total {M : Type} [AddCommMonoid M] (w : World K) (setup : Setup K) (f : String → Cell K → M) :
    M :=
  ∑ name ∈ setup.problem.names.toFinset, f name (w name)

/-- All messages under way between variables. -/
def flight (w : World K) (setup : Setup K) : Multiset (Outgoing K) :=
  ∑ name ∈ setup.problem.names.toFinset, (w name).flight setup name

section Rewrite

variable {w : World K} {name : String} {cell : Cell K} {children : List String}
  {change : String → Cell K → Cell K}

@[simp] theorem rewrite_self : w.rewrite name cell children change name = cell := by
  simp [rewrite]

@[simp] theorem update_self : w.update name cell name = cell := rewrite_self

theorem rewrite_child {child : String} (hc : child ∈ children) (hne : child ≠ name) :
    w.rewrite name cell children change child = change child (w child) := by
  simp [rewrite, hc, hne]

theorem rewrite_other {other : String} (hne : other ≠ name) (hc : other ∉ children) :
    w.rewrite name cell children change other = w other := by
  simp [rewrite, hne, hc]

/-- Only the cells that change make a difference to a sum over all cells. -/
theorem total_rewrite {M : Type} [AddCommMonoid M] (f : String → Cell K → M) (setup : Setup K)
    (hn : name ∈ setup.problem.names) (hc : ∀ child ∈ children, child ∈ setup.problem.names)
    (hself : name ∉ children) (hnodup : children.Nodup) :
    (w.rewrite name cell children change).total setup f
        + (f name (w name) + (children.map fun child => f child (w child)).sum)
      = w.total setup f
        + (f name cell + (children.map fun child => f child (change child (w child))).sum) := by
  have hsub : insert name children.toFinset ⊆ setup.problem.names.toFinset := by
    intro other ho
    rw [Finset.mem_insert, List.mem_toFinset] at ho
    rw [List.mem_toFinset]
    exact ho.elim (fun h => h ▸ hn) (hc other)
  have hself : name ∉ children.toFinset := by simpa using hself
  have hsplit : ∀ v : World K, v.total setup f
      = ∑ other ∈ setup.problem.names.toFinset \ insert name children.toFinset, f other (v other)
        + (f name (v name) + (children.map fun child => f child (v child)).sum) := by
    intro v
    rw [total, ← Finset.sum_sdiff hsub, Finset.sum_insert hself, List.sum_toFinset _ hnodup]
  have hrest : ∑ other ∈ setup.problem.names.toFinset \ insert name children.toFinset,
        f other (w.rewrite name cell children change other)
      = ∑ other ∈ setup.problem.names.toFinset \ insert name children.toFinset,
        f other (w other) := by
    refine Finset.sum_congr rfl fun other ho => ?_
    simp only [Finset.mem_sdiff, Finset.mem_insert, List.mem_toFinset, not_or] at ho
    rw [rewrite_other ho.2.1 ho.2.2]
  have hchanged : (children.map fun child => f child (w.rewrite name cell children change child))
      = children.map fun child => f child (change child (w child)) := by
    refine List.map_congr_left fun child hm => ?_
    rw [rewrite_child hm fun he => hself (by simpa [← he] using hm)]
  rw [hsplit w, hsplit (w.rewrite name cell children change), hrest, hchanged, rewrite_self]
  ac_rfl

end Rewrite

variable [CostArithmetic K]

/-- The world before anything has happened. -/
def initial (setup : Setup K) : World K := Cell.initial setup

/-- The report of a variable has come to its parent. -/
def tell (w : World K) (parent name : String) : World K :=
  w.rewrite parent ((w parent).told (Normalizer.reportTo parent (w name).range)) [name]
    fun _ cell => { cell with ascent := .reported }

/-- A variable is normalized and passes its divisor on. -/
def normalize (w : World K) (setup : Setup K) (name : String) (divisor : K) : World K :=
  w.rewrite name ((w name).normalized setup name divisor) (setup.children name)
    fun _ cell => { cell with ascent := .dividing divisor }

/-- The report of a cost has come to the parent. -/
def count (w : World K) (parent name : String) (cost : Option K) : World K :=
  w.rewrite parent ((w parent).counting cost) [name] fun _ cell => { cell with exchange := .idle }

/-- A variable has acted, and its state is the given one. -/
def act (w : World K) (setup : Setup K) (name : String) (act : Act K) (final : Bool)
    (state : SamplingState K) : World K :=
  w.rewrite name ((w name).acting act final state) (act.addressees (setup.children name))
    fun child cell => { cell with exchange := .asked (state.contextTo child act.isFinish) }

section

variable {w : World K} {setup : Setup K} {name other : String} {final : Bool}
  {state : SamplingState K} {cost : Option K}

theorem count_self : w.count other name cost other = (w other).counting cost := rewrite_self

theorem tell_self : w.tell other name other
    = (w other).told (Normalizer.reportTo other (w name).range) := rewrite_self

theorem normalize_self {divisor : K} : w.normalize setup name divisor name
    = (w name).normalized setup name divisor := rewrite_self

omit [CostArithmetic K]

theorem act_self {act : Act K} :
    w.act setup name act final state name = (w name).acting act final state := rewrite_self

theorem act_report (hne : other ≠ name) :
    w.act setup name (.report cost) final state other = w other :=
  rewrite_other hne (List.not_mem_nil)

theorem act_sample (hc : other ∈ setup.children name) (hne : other ≠ name) :
    w.act setup name .sample final state other
      = { w other with exchange := .asked (state.contextTo other false) } := rewrite_child hc hne

theorem act_finish (hc : other ∈ setup.children name) (hne : other ≠ name) :
    w.act setup name .finish final state other
      = { w other with exchange := .asked (state.contextTo other true) } := rewrite_child hc hne

end

/-- What can happen next: a message is taken in, or a variable that knows enough goes on. -/
inductive Step (setup : Setup K) (G : Type) [Generator G] : World K → World K → Prop where
  | see {w : World K} {name : String} :
      name ∈ setup.problem.names → (w name).ascent = .unseen →
      Step setup G w (w.update name ((w name).seen setup name))
  | tell {w : World K} {parent name : String} :
      setup.parent name = some parent → (w name).ascent = .reporting →
      Step setup G w (w.tell parent name)
  | close {w : World K} {name : String} :
      name ∈ setup.problem.names → (w name).ascent = .gathering →
      (w name).range.isComplete (setup.view name) = true →
      Step setup G w (w.update name ((w name).closed setup name))
  | normalize {w : World K} {name : String} {divisor : K} :
      name ∈ setup.problem.names → (w name).ascent = .dividing divisor →
      Step setup G w (w.normalize setup name divisor)
  | keep {w : World K} {name : String} {context : Context} :
      name ∈ setup.problem.names → (w name).exchange = .asked context →
      (w name).ascent.stage ≠ .normalized →
      Step setup G w (w.update name ((w name).keeping context))
  | take {w : World K} {name : String} {context : Context} :
      name ∈ setup.problem.names → (w name).exchange = .asked context →
      (w name).ascent.stage = .normalized →
      Step setup G w (w.update name ((w name).taking context))
  | answer {w : World K} {name : String} {final : Bool} {act : Act K} (generator : G) :
      name ∈ setup.problem.names → (w name).exchange = .poised final →
      ((w name).state.answers (setup.settings name) setup.problem generator final).Acts
        setup.problem setup.config.delta (w name).state final act →
      Step setup G w (w.act setup name act final
        ((w name).state.answers (setup.settings name) setup.problem generator final).state)
  | count {w : World K} {parent name : String} {cost : Option K} :
      setup.parent name = some parent → (w name).exchange = .answered cost →
      Step setup G w (w.count parent name cost)
  | join {w : World K} {name : String} {final : Bool} {act : Act K} (generator : G) :
      name ∈ setup.problem.names → (w name).exchange = .busy final →
      (w name).state.round.received = (setup.children name).length →
      ((w name).state.settled.joins (setup.settings name) setup.problem generator
        (w name).state.round).Acts setup.problem setup.config.delta (w name).state.settled final
        act →
      Step setup G w (w.act setup name act final
        ((w name).state.settled.joins (setup.settings name) setup.problem generator
          (w name).state.round).state)

/-- Any number of steps. -/
abbrev Steps (setup : Setup K) (G : Type) [Generator G] : World K → World K → Prop :=
  Relation.ReflTransGen (Step setup G)

end World

end DcopSearch
