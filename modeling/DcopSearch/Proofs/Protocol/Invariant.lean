import DcopSearch.Proofs.Protocol.World

/-! What holds in every world that the search can reach.  The invariant has three parts: what each
cell keeps to, how a variable and its parent move in step, and how many children a variable has heard
of.  A step changes one cell and a few of its children, so that only facts around this cell have to be
looked at again. -/

namespace DcopSearch

variable {K : Type}

/-- Where the children of a variable can stand in their normalization. -/
def Stage.Admits : Stage → Ascent K → Prop
  | unseen, ascent | gathering, ascent =>
    ascent = .unseen ∨ ascent = .gathering ∨ ascent = .reporting ∨ ascent = .reported
  | closed, ascent => ascent = .reported
  | normalized, ascent => (∃ divisor, ascent = .dividing divisor) ∨ ascent = .normalized

/-- Where the children of a variable can stand in the exchange with it. -/
def Stance.Admits : Stance → Exchange K → Prop
  | waiting, .idle => True
  | busy, .idle | busy, .asked _ | busy, .kept _ | busy, .poised false | busy, .busy false
  | busy, .answered _ => True
  | ended, .asked _ | ended, .kept _ | ended, .poised true | ended, .busy true | ended, .ended => True
  | _, _ => False

/-- The parent has taken in the report of the range. -/
def Ascent.isHeard : Ascent K → Bool
  | reported | dividing _ | normalized => true
  | unseen | gathering | reporting => false

/-- The axes of a space and the size of its table, which rescaling leaves alone. -/
def CostSpace.shape (space : CostSpace K) : List Axis × Nat := (space.axes, space.table.size)

theorem CostSpace.Fits.of_shape {problem : Problem K} {space space' : CostSpace K}
    (h : space.Fits problem) (hs : space'.shape = space.shape) : space'.Fits problem := by
  obtain ⟨haxes, hsize⟩ := Prod.mk.inj hs
  refine ⟨?_, fun axis ha => h.declared axis (haxes ▸ ha), by rw [hsize, h.full, haxes]⟩
  rw [CostSpace.scope, haxes]
  exact h.nodup

namespace Setup

variable {setup : Setup K}

/-- What a search relies on. -/
structure Valid (setup : Setup K) : Prop where
  wellFormed : setup.problem.WellFormed
  spans : setup.tree.Spans setup.problem

/-- The search over the depth-first tree of a problem. -/
def generated (problem : Problem K) (config : Config K) : Setup K :=
  { problem, tree := .generate problem, config }

theorem valid_generated {problem : Problem K} (built : problem.Built) (config : Config K) :
    (generated problem config).Valid :=
  ⟨built.wellFormed, PseudoTree.spans_generate built.wellFormed⟩

theorem Valid.mem_children (valid : setup.Valid) {parent name : String} :
    name ∈ setup.children parent ↔ setup.parent name = some parent :=
  valid.spans.child_iff parent name

theorem Valid.nodup_children (valid : setup.Valid) (name : String) :
    (setup.children name).Nodup :=
  valid.spans.nodup_children name

theorem Valid.mem_names (valid : setup.Valid) {parent name : String}
    (h : setup.parent name = some parent) :
    parent ∈ setup.problem.names ∧ name ∈ setup.problem.names :=
  valid.spans.mem_names_of_parent h

theorem Valid.mem_names_of_child (valid : setup.Valid) {parent name : String}
    (h : name ∈ setup.children parent) : name ∈ setup.problem.names :=
  (valid.mem_names (valid.mem_children.mp h)).2

theorem Valid.not_mem_children_self (valid : setup.Valid) (name : String) :
    name ∉ setup.children name := fun h =>
  valid.spans.above_irrefl name (.single (valid.mem_children.mp h))

theorem Valid.not_mem_children_of_parent (valid : setup.Valid) {parent name : String}
    (h : setup.parent name = some parent) : parent ∉ setup.children name := fun hc =>
  valid.spans.above_irrefl name (.tail (.single (valid.mem_children.mp hc)) h)

theorem domain?_eq {name : String} (hn : name ∈ setup.problem.names) :
    setup.problem.domain? name = some (setup.domain name) := by
  obtain ⟨declared, hd⟩ := Problem.mem_names.mp hn
  simp [Setup.domain, Problem.domain?, hd]

theorem above_parent {parent name other : String} (h : setup.parent name = some parent)
    (ha : setup.tree.Above other name) : other = parent ∨ setup.tree.Above other parent :=
  PseudoTree.above_parent h ha

theorem not_above_root {name other : String} (h : setup.parent name = none) :
    ¬setup.tree.Above other name :=
  PseudoTree.not_above_root h

end Setup

namespace Cell

/-- The cells agree in all that a child can tell. -/
structure Alike (c d : Cell K) : Prop where
  range : d.range = c.range
  state : d.state = c.state
  stage : d.ascent.stage = c.ascent.stage
  stance : d.exchange.stance = c.exchange.stance
  poised : ∀ final, d.exchange = .poised final → c.exchange = .poised final

theorem Alike.refl (c : Cell K) : Alike c c := ⟨rfl, rfl, rfl, rfl, fun _ => id⟩

theorem Alike.trans {c d e : Cell K} (h : Alike c d) (h' : Alike d e) : Alike c e :=
  ⟨h'.range.trans h.range, h'.state.trans h.state, h'.stage.trans h.stage,
    h'.stance.trans h.stance, fun final he => h.poised final (h'.poised final he)⟩

theorem Alike.asked {c : Cell K} (hx : c.exchange = .idle) (context : Context) :
    Alike c { c with exchange := .asked context } :=
  ⟨rfl, rfl, rfl, by rw [hx]; rfl, fun _ he => by cases he⟩

theorem Alike.reported {c : Cell K} (ha : c.ascent = .reporting) :
    Alike c { c with ascent := .reported } :=
  ⟨rfl, rfl, by rw [ha]; rfl, rfl, fun _ => id⟩

theorem Alike.dividing {c : Cell K} (ha : c.ascent = .reported) (divisor : K) :
    Alike c { c with ascent := .dividing divisor } :=
  ⟨rfl, rfl, by rw [ha]; rfl, rfl, fun _ => id⟩

/-- How the cell of a variable and the one of its parent fit together. -/
structure Linked (setup : Setup K) (parent : Cell K) (name : String) (c : Cell K) : Prop where
  ascent : parent.ascent.stage.Admits c.ascent
  exchange : parent.exchange.stance.Admits c.exchange
  /-- The parent knows the separator of its child, itself aside. -/
  covers : c.ascent.isHeard = true → ∀ other ∈ c.range.separator,
    other ∈ parent.range.separator ∨ setup.parent name = some other
  context : ∀ context, c.exchange.context? = some context →
    context = parent.state.contextTo name (decide (parent.exchange.stance = .ended))

theorem Linked.of_alike {setup : Setup K} {parent parent' : Cell K} {name : String} {c : Cell K}
    (h : Linked setup parent name c) (ha : Alike parent parent') :
    Linked setup parent' name c := by
  refine ⟨?_, ?_, ?_, ?_⟩
  · rw [ha.stage]; exact h.ascent
  · rw [ha.stance]; exact h.exchange
  · rw [ha.range]; exact h.covers
  · rw [ha.state, ha.stance]; exact h.context

/-- How many children a variable has heard of: of their ranges while it gathers, and of their costs
while it waits for them. -/
structure Counts (setup : Setup K) (w : World K) (name : String) (c : Cell K) : Prop where
  gathering : c.range.reported = false →
    c.range.received = (if c.ascent.stage = .unseen then 0 else 1)
      + (setup.children name).countP fun child => (w child).ascent.isReported
  busy : c.exchange.stance = .busy →
    c.state.round.received
      = (setup.children name).countP fun child => (w child).exchange.isIdle

theorem Counts.congr {setup : Setup K} {w w' : World K} {name : String} {c d : Cell K}
    (h : c.Counts setup w name) (halike : Alike c d)
    (hw : ∀ child ∈ setup.children name,
      (w' child).ascent.isReported = (w child).ascent.isReported ∧
        (w' child).exchange.isIdle = (w child).exchange.isIdle) : d.Counts setup w' name := by
  refine ⟨fun hr => ?_, fun hb => ?_⟩
  · rw [halike.range] at hr ⊢
    rw [halike.stage, h.gathering hr]
    congr 1
    exact List.countP_congr fun child hm => by rw [(hw child hm).1]
  · rw [halike.stance] at hb
    rw [halike.state, h.busy hb]
    exact List.countP_congr fun child hm => by rw [(hw child hm).2]

variable [CostArithmetic K]

/-- No report has been taken in, and the parent still waits for an answer unless there is none. -/
structure Quiet (setup : Setup K) (name : String) (c : Cell K) : Prop where
  round : c.state.round = .empty
  parentFinished : c.state.parentFinished = (setup.parent name).isNone

/-- The variable waits for a context. -/
structure Waiting (setup : Setup K) (name : String) (c : Cell K) : Prop
    extends Quiet setup name c where
  phase : c.ascent.stage = .normalized →
    c.state.phase = .awaitingParentValue ∨ c.state.phase = .sampling

/-- The variable has taken a context over.  Only a final one is left without an answer. -/
structure Working (setup : Setup K) (name : String) (final : Bool) (c : Cell K) : Prop where
  stage : c.ascent.stage = .normalized
  informed : c.state.Informed
  phase : c.state.phase = .sampling
  root : setup.parent name = none → final = true

/-- The variable waits for the reports of its children. -/
structure Busy (setup : Setup K) (name : String) (final : Bool) (c : Cell K) : Prop
    extends Working setup name final c where
  parentFinished : c.state.parentFinished = final
  nonleaf : setup.children name ≠ []
  current : c.state.current.isSome
  active : c.state.active.isSome

/-- What the state keeps to, depending on where the variable stands with its parent. -/
def Exchanging (setup : Setup K) (name : String) (c : Cell K) : Prop :=
  match c.exchange with
  | .idle =>
    c.Waiting setup name ∧ (c.ascent.stage = .normalized → setup.parent name ≠ none)
  | .asked _ => c.Waiting setup name ∧ setup.parent name ≠ none
  | .kept _ => c.Quiet setup name ∧ setup.parent name ≠ none ∧ c.ascent.stage ≠ .normalized
  | .poised final => c.Working setup name final ∧ c.Quiet setup name
  | .busy final => c.Busy setup name final
  | .answered _ => c.Working setup name false ∧ c.Quiet setup name
  | .ended =>
    c.ascent.stage = .normalized ∧ c.state.Informed ∧ c.state.phase = .converged

/-- What a cell keeps to. -/
structure Sound (setup : Setup K) (name : String) (c : Cell K) : Prop where
  view : c.range.view = if c.ascent.stage = .unseen then none else some (setup.view name)
  reported : c.range.reported
    = (decide (c.ascent.stage = .closed) || decide (c.ascent.stage = .normalized))
  done : c.range.done = decide (c.ascent.stage = .normalized)
  shapes : c.range.spaces.map (fun entry => entry.1.shape)
    = if c.ascent.stage = .unseen then [] else (setup.enforced name).map CostSpace.shape
  above : ∀ other ∈ c.range.separator,
    setup.tree.Above other name ∨ other = name ∧ c.range.reported = false
  own : c.ascent.stage ≠ .unseen →
    ∀ other ∈ (setup.view name).separator, other ∈ c.range.separator
  named : c.state.name = name
  parent : c.state.parent = setup.parent name
  children : c.state.children = setup.children name
  registered : c.ascent.stage ≠ .normalized → c.state
    = { setup.registered name with phase := .awaitingNormalization c.exchange.buffered }
  sampling : c.ascent.stage = .normalized → c.state.Sound setup.problem
  slots : c.ascent.stage = .normalized →
    c.state.slots.map Slot.name = c.range.separator.toList
  exchanging : c.Exchanging setup name

theorem Sound.domain_eq {setup : Setup K} {name : String} {c : Cell K} (h : c.Sound setup name)
    (hs : c.ascent.stage = .normalized) : c.state.domain = setup.domain name := by
  have hd := (h.sampling hs).domain
  rw [h.named] at hd
  rw [Setup.domain, hd, Option.getD_some]

/-! What is known of a cell by where its variable stands with its parent. -/

section Exchanging

variable {setup : Setup K} {name : String} {c : Cell K} (h : c.Sound setup name)

include h

theorem Sound.of_idle (hx : c.exchange = .idle) :
    c.Waiting setup name ∧ (c.ascent.stage = .normalized → setup.parent name ≠ none) := by
  have he := h.exchanging
  rwa [Exchanging, hx] at he

theorem Sound.of_asked {context : Context} (hx : c.exchange = .asked context) :
    c.Waiting setup name ∧ setup.parent name ≠ none := by
  have he := h.exchanging
  rwa [Exchanging, hx] at he

theorem Sound.of_kept {context : Context} (hx : c.exchange = .kept context) :
    c.Quiet setup name ∧ setup.parent name ≠ none ∧ c.ascent.stage ≠ .normalized := by
  have he := h.exchanging
  rwa [Exchanging, hx] at he

theorem Sound.of_poised {final : Bool} (hx : c.exchange = .poised final) :
    c.Working setup name final ∧ c.Quiet setup name := by
  have he := h.exchanging
  rwa [Exchanging, hx] at he

theorem Sound.of_busy {final : Bool} (hx : c.exchange = .busy final) :
    c.Busy setup name final := by
  have he := h.exchanging
  rwa [Exchanging, hx] at he

theorem Sound.of_answered {cost : Option K} (hx : c.exchange = .answered cost) :
    c.Working setup name false ∧ c.Quiet setup name := by
  have he := h.exchanging
  rwa [Exchanging, hx] at he

theorem Sound.of_ended (hx : c.exchange = .ended) :
    c.ascent.stage = .normalized ∧ c.state.Informed ∧ c.state.phase = .converged := by
  have he := h.exchanging
  rwa [Exchanging, hx] at he

end Exchanging

end Cell

namespace World

variable [CostArithmetic K]

/-- Nothing but the cell of one variable has changed, as far as the others can tell. -/
def Near (name : String) (w w' : World K) : Prop :=
  ∀ other, other ≠ name → Cell.Alike (w other) (w' other)

omit [CostArithmetic K] in
theorem Near.trans {name : String} {w w' w'' : World K} (h : Near name w w')
    (h' : Near name w' w'') : Near name w w'' :=
  fun other hne => (h other hne).trans (h' other hne)

omit [CostArithmetic K] in
theorem Near.refl (name : String) (w : World K) : Near name w w := fun _ _ => .refl _

omit [CostArithmetic K] in
theorem near_rewrite {w : World K} {name : String} {cell : Cell K} {children : List String}
    {change : String → Cell K → Cell K}
    (halike : ∀ child ∈ children, Cell.Alike (w child) (change child (w child))) :
    Near name w (w.rewrite name cell children change) := by
  intro other hne
  by_cases hc : other ∈ children
  · rw [rewrite_child hc hne]; exact halike other hc
  · rw [rewrite_other hne hc]; exact .refl _

omit [CostArithmetic K] in
theorem near_update (w : World K) (name : String) (cell : Cell K) :
    Near name w (w.update name cell) := near_rewrite (by simp)

/-- What holds in every world that the search can reach. -/
structure Inv (setup : Setup K) (w : World K) : Prop where
  sound : ∀ name ∈ setup.problem.names, (w name).Sound setup name
  linked : ∀ parent name, setup.parent name = some parent →
    Cell.Linked setup (w parent) name (w name)
  counts : ∀ name ∈ setup.problem.names, (w name).Counts setup w name

variable {setup : Setup K} {w : World K}

/-- A variable that waits has heard from all its children. -/
theorem Inv.child_idle (valid : setup.Valid) (h : w.Inv setup) {name child : String}
    (hs : (w name).exchange.stance = .waiting) (hc : child ∈ setup.children name) :
    (w child).exchange = .idle := by
  have hl := (h.linked name child (valid.mem_children.mp hc)).exchange
  rw [hs] at hl
  cases hx : (w child).exchange <;> simp [hx, Stance.Admits] at hl ⊢

omit [CostArithmetic K] in
/-- What is so of each cell has to be shown of the changed cells only. -/
theorem forall_cells_rewrite {P : String → Cell K → Prop}
    (hP : ∀ name ∈ setup.problem.names, P name (w name)) {name : String} {cell : Cell K}
    {children : List String} {change : String → Cell K → Cell K} (hcell : P name cell)
    (hchildren : ∀ child ∈ children, P child (change child (w child))) :
    ∀ other ∈ setup.problem.names, P other (w.rewrite name cell children change other) := by
  intro other ho
  by_cases hn : other = name
  · rw [hn, rewrite_self]; exact hcell
  by_cases hc : other ∈ children
  · rw [rewrite_child hc hn]; exact hchildren other hc
  · rw [rewrite_other hn hc]; exact hP other ho

omit [CostArithmetic K] in
/-- What is so of each cell, and of each variable together with its parent, has to be shown around
the changed cell only, if a parent is looked at only for what a child can tell of it. -/
theorem forall_rewrite {P : String → Cell K → Prop} {L : String → Cell K → Cell K → Prop}
    (valid : setup.Valid) (hP : ∀ name ∈ setup.problem.names, P name (w name))
    (hL : ∀ parent name, setup.parent name = some parent → L name (w parent) (w name))
    (hlike : ∀ {name : String} {parent parent' c : Cell K}, L name parent c →
      Cell.Alike parent parent' → L name parent' c)
    {name : String} {cell : Cell K} {children : List String} {change : String → Cell K → Cell K}
    (hsub : ∀ child ∈ children, child ∈ setup.children name)
    (halike : ∀ child ∈ children, Cell.Alike (w child) (change child (w child)))
    (hcell : P name cell) (hchildren : ∀ child ∈ children, P child (change child (w child)))
    (hup : ∀ parent, setup.parent name = some parent → L name (w parent) cell)
    (hdown : ∀ child ∈ setup.children name,
      L child cell (w.rewrite name cell children change child)) :
    (∀ name' ∈ setup.problem.names, P name' (w.rewrite name cell children change name')) ∧
    ∀ parent name', setup.parent name' = some parent →
      L name' (w.rewrite name cell children change parent)
        (w.rewrite name cell children change name') := by
  have hforeign : ∀ parent other, setup.parent other = some parent → parent ≠ name →
      other ∉ children := by
    intro parent other ho hne hm
    rw [valid.mem_children.mp (hsub other hm)] at ho
    exact hne (Option.some.inj ho).symm
  refine ⟨forall_cells_rewrite hP hcell hchildren, fun parent other hp => ?_⟩
  by_cases hn : parent = name
  · subst hn
    rw [rewrite_self]
    exact hdown other (valid.mem_children.mpr hp)
  have hc := hforeign parent other hp hn
  by_cases ho : other = name
  · subst ho
    have hpc : parent ∉ children := fun hm =>
      valid.not_mem_children_of_parent hp (hsub parent hm)
    rw [rewrite_self, rewrite_other hn hpc]
    exact hup parent hp
  rw [rewrite_other ho hc]
  by_cases hpc : parent ∈ children
  · rw [rewrite_child hpc hn]
    exact hlike (hL parent other hp) (halike parent hpc)
  · rw [rewrite_other hn hpc]
    exact hL parent other hp

/-- The invariant has to be shown around the changed cell only. -/
theorem Inv.rewrite (valid : setup.Valid) (h : w.Inv setup) {name : String} {cell : Cell K}
    {children : List String} {change : String → Cell K → Cell K}
    (hsub : ∀ child ∈ children, child ∈ setup.children name)
    (halike : ∀ child ∈ children, Cell.Alike (w child) (change child (w child)))
    (hsound : cell.Sound setup name)
    (hchildren : ∀ child ∈ children, (change child (w child)).Sound setup child)
    (hup : ∀ parent, setup.parent name = some parent → Cell.Linked setup (w parent) name cell ∧
      cell.ascent.isReported = (w name).ascent.isReported ∧
      cell.exchange.isIdle = (w name).exchange.isIdle)
    (hdown : ∀ child ∈ setup.children name,
      Cell.Linked setup cell child (w.rewrite name cell children change child))
    (hcounts : cell.Counts setup (w.rewrite name cell children change) name) :
    (w.rewrite name cell children change).Inv setup := by
  obtain ⟨hsounds, hlinks⟩ := forall_rewrite (P := fun name c => c.Sound setup name)
    (L := fun name parent c => Cell.Linked setup parent name c) valid h.sound h.linked
    (fun hl ha => hl.of_alike ha) hsub halike hsound hchildren (fun parent hp => (hup parent hp).1)
    hdown
  refine ⟨hsounds, hlinks, fun other ho => ?_⟩
  by_cases hn : other = name
  · rw [hn, rewrite_self]; exact hcounts
  have halike : Cell.Alike (w other) (w.rewrite name cell children change other) := by
    by_cases hc : other ∈ children
    · rw [rewrite_child hc hn]; exact halike other hc
    · rw [rewrite_other hn hc]; exact .refl _
  refine (h.counts other ho).congr halike fun child hm => ?_
  -- the children of another variable look the same, also if the changed one is among them
  have hp := valid.mem_children.mp hm
  by_cases hcn : child = name
  · subst hcn
    rw [rewrite_self]
    exact (hup other hp).2
  · have hc : child ∉ children := fun hm => hn
      (Option.some.inj (hp.symm.trans (valid.mem_children.mp (hsub child hm))))
    rw [rewrite_other hcn hc]
    exact ⟨rfl, rfl⟩

theorem Inv.update (valid : setup.Valid) (h : w.Inv setup) {name : String} {cell : Cell K}
    (hsound : cell.Sound setup name)
    (hup : ∀ parent, setup.parent name = some parent → Cell.Linked setup (w parent) name cell ∧
      cell.ascent.isReported = (w name).ascent.isReported ∧
      cell.exchange.isIdle = (w name).exchange.isIdle)
    (hdown : ∀ child ∈ setup.children name, Cell.Linked setup cell child (w child))
    (hcounts : cell.Counts setup w name) : (w.update name cell).Inv setup := by
  have hother : ∀ child ∈ setup.children name, w.update name cell child = w child := by
    intro child hm
    exact rewrite_other (fun he => valid.not_mem_children_self name (he ▸ hm)) (by simp)
  unfold World.update at hother ⊢
  refine h.rewrite valid (by simp) (by simp) hsound (by simp) hup (fun child hm => ?_) ?_
  · rw [hother child hm]
    exact hdown child hm
  · refine hcounts.congr (.refl _) fun child hm => ?_
    rw [hother child hm]
    exact ⟨rfl, rfl⟩

end World

end DcopSearch
