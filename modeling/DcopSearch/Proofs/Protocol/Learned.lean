import DcopSearch.Proofs.Protocol.Held
import DcopSearch.Proofs.Sampling.Learned

/-! The two lowest levels of the tree learn what their values cost.  With finite tables nothing is
refuted and every report is a number.  A leaf holds its best value, so that what the children of a
variable report depends on its context alone if they are leaves; such a variable comes to know these
costs, and ends with the best value by them. -/

namespace DcopSearch

open CostArithmetic Exact

variable {F : Type} [Field F] [LinearOrder F] [LnSqrt F]

omit [LinearOrder F] [LnSqrt F] in
theorem Exact.exists_number_sum {costs : List (Exact F)}
    (h : ∀ cost ∈ costs, ∃ a, cost = number a) : ∃ a, costs.sum = number a := by
  induction costs with
  | nil => exact ⟨0, rfl⟩
  | cons cost rest ih =>
    obtain ⟨a, ha⟩ := h cost (by simp)
    obtain ⟨b, hb⟩ := ih fun other ho => h other (by simp [ho])
    exact ⟨a + b, by rw [List.sum_cons, ha, hb, number_add]⟩

omit [LinearOrder F] [LnSqrt F] in
theorem Exact.exists_number_finsetSum {names : Finset String} {f : String → Exact F}
    (h : ∀ name ∈ names, ∃ a, f name = number a) : ∃ a, ∑ name ∈ names, f name = number a := by
  have hcosts : ∀ cost ∈ names.toList.map f, ∃ a, cost = number a := by
    intro cost hc
    obtain ⟨name, hn, rfl⟩ := List.mem_map.mp hc
    exact h name (Finset.mem_toList.mp hn)
  obtain ⟨a, ha⟩ := exists_number_sum hcosts
  exact ⟨a, by rw [← ha, Finset.sum_map_toList]⟩

namespace Setup

variable {setup : Setup (Exact F)} {name : String} {divisor : Exact F}
  {value? : String → Option Value}

/-- The tables have numbers only, and the penalty is a number. -/
structure Finite (setup : Setup (Exact F)) : Prop where
  entries : ∀ space ∈ setup.problem.spaces, ∀ entry ∈ space.table.toList, ∃ a, entry = number a
  penalty : ∃ p, setup.config.penaltyFor setup.problem.objective = number p

/-- What the normalized spaces of a variable come to at the values. -/
def charge (setup : Setup (Exact F)) (divisor : Exact F) (name : String)
    (value? : String → Option Value) : Exact F :=
  ((setup.normalizedSpaces divisor name).filterMap (·.lookup? value?)).sum

/-- What the spaces of a variable come to with the best of its values. -/
def cheapest (setup : Setup (Exact F)) (divisor : Exact F) (name : String)
    (value? : String → Option Value) : Exact F :=
  setup.problem.objective.best ((setup.domain name).map fun own =>
    setup.charge divisor name (Function.update value? name (some own)))

/-- What the children of a variable cost with their best values. -/
def below (setup : Setup (Exact F)) (divisor : Exact F) (name : String)
    (value? : String → Option Value) : Exact F :=
  ∑ child ∈ (setup.children name).toFinset, setup.cheapest divisor child value?

/-- The variable is a leaf, or all its children are leaves. -/
def Low (setup : Setup (Exact F)) (name : String) : Prop :=
  ∀ child ∈ setup.children name, setup.children child = []

omit [Field F] [LinearOrder F] [LnSqrt F] in
theorem Low.child {child : String} (h : setup.Low name) (hc : child ∈ setup.children name) :
    setup.Low child := by
  intro below hb
  rw [h child hc] at hb
  cases hb

theorem below_of_leaf (hleaf : setup.children name = []) : setup.below divisor name value? = 0 := by
  rw [below, hleaf]
  rfl

theorem Finite.priced (h : setup.Finite) : setup.Priced :=
  ⟨fun space hs entry he => .inl (h.entries space hs entry he), h.penalty⟩

omit [Field F] [LinearOrder F] [LnSqrt F] in
theorem domain_ne_nil (valid : setup.Valid) (hn : name ∈ setup.problem.names) :
    setup.domain name ≠ [] :=
  valid.wellFormed.valued name _ (domain?_eq hn)

/-- With finite tables nothing is refuted. -/
theorem Finite.not_refuted (h : setup.Finite) (valid : setup.Valid)
    (hn : name ∈ setup.problem.names) (context : String → Option Value) :
    ¬setup.Refuted name context := by
  intro hr
  induction hr with
  | barren _ hall =>
    obtain ⟨own, hown⟩ := List.exists_mem_of_ne_nil _ (domain_ne_nil valid hn)
    obtain ⟨space, hs, entry, he, hinfinite⟩ := hall own hown
    obtain ⟨a, rfl⟩ := h.entries space (List.mem_filter.mp hs).1 entry
      (CostSpace.mem_table_of_lookup he)
    cases hinfinite
  | pruned _ _ hc _ ih => exact ih (valid.mem_names_of_child hc)

theorem Finite.alive (h : setup.Finite) (valid : setup.Valid) (value? : String → Option Value) :
    ¬setup.Dead name value? := by
  rintro ⟨-, child, hc, hrefuted⟩
  exact h.not_refuted valid (valid.mem_names_of_child hc) value? hrefuted

theorem Finite.exists_charge (h : setup.Finite) (hd : Range.Divides divisor) (name : String)
    (value? : String → Option Value) : ∃ a, setup.charge divisor name value? = number a := by
  refine exists_number_sum fun cost hc => ?_
  obtain ⟨rescaled, hm, hlookup⟩ := List.mem_filterMap.mp hc
  obtain ⟨space, hs, rfl⟩ := List.mem_map.mp hm
  obtain ⟨entry, he⟩ : ∃ entry, space.lookup? value? = some entry := by
    rw [CostSpace.lookup?_rescale] at hlookup
    obtain ⟨entry, he, -⟩ := Option.map_eq_some_iff.mp hlookup
    exact ⟨entry, he⟩
  obtain ⟨a, rfl⟩ := h.entries space (List.mem_filter.mp hs).1 entry
    (CostSpace.mem_table_of_lookup he)
  obtain ⟨cost', hlookup', hpriced, hinfinite⟩ := h.priced.normalized hd hs he
  obtain rfl := Option.some.inj (hlookup'.symm.trans hlookup)
  exact hpriced.exists_number (by simpa using hinfinite)

theorem Finite.exists_cheapest (h : setup.Finite) (valid : setup.Valid)
    (hd : Range.Divides divisor) (hn : name ∈ setup.problem.names) (value? : String → Option Value) :
    ∃ a, setup.cheapest divisor name value? = number a := by
  have hnumbers : ∀ cost ∈ (setup.domain name).map fun own =>
      setup.charge divisor name (Function.update value? name (some own)), ∃ a, cost = number a := by
    intro cost hc
    obtain ⟨own, -, rfl⟩ := List.mem_map.mp hc
    exact h.exists_charge hd name _
  exact hnumbers _ (Objective.best_prefers (by simpa using domain_ne_nil valid hn) hnumbers).1

theorem Finite.exists_below (h : setup.Finite) (valid : setup.Valid) (hd : Range.Divides divisor)
    (name : String) (value? : String → Option Value) :
    ∃ a, setup.below divisor name value? = number a :=
  exists_number_finsetSum fun _ hc =>
    h.exists_cheapest valid hd (valid.mem_names_of_child (List.mem_toFinset.mp hc)) value?

end Setup

variable {setup : Setup (Exact F)} {w w' : World (Exact F)} {name : String}
  {s t : SamplingState (Exact F)} {problem : Problem (Exact F)}

namespace SamplingState

/-- What the children of a variable cost with their best values, under a key with an own value. -/
def below (setup : Setup (Exact F)) (s : SamplingState (Exact F)) (key : List Value) (own : Value) :
    Exact F :=
  setup.below s.scalingFactor s.name (s.under key own)

theorem Keeps.below (h : s.Keeps t) (setup : Setup (Exact F)) :
    t.below setup = s.below setup := by
  funext key own
  rw [SamplingState.below, SamplingState.below, h.scalingFactor, h.name, h.costAt.2.1]

/-- What a value costs can be found out from any values that extend the context. -/
theorem Sound.costAt_eq (h : s.Sound problem) (hi : s.Informed) {own : Value}
    (hown : own ∈ s.domain) {value? : String → Option Value}
    (hle : ∀ other value, s.under s.contextKey own other = some value → value? other = some value) :
    s.costAt s.contextKey own = (s.spaces.filterMap (·.lookup? value?)).sum := by
  rw [costAt, total_eq_sum]
  refine congrArg List.sum (List.filterMap_congr fun space hs => ?_)
  obtain ⟨entry, he⟩ := h.exists_entry hi hown hs
  rw [funext (h.lookup_entries own)] at he
  rw [he, CostSpace.lookup?_mono hle he]

end SamplingState

namespace Cell

variable {c d : Cell (Exact F)}

/-- What the cell of a variable of the two lowest levels keeps to.  Its nodes know the costs below, as
far as values were drawn; a leaf that has reacted holds the best value, and so does any variable that
has ended. -/
structure Learned (setup : Setup (Exact F)) (name : String) (c : Cell (Exact F)) : Prop where
  learned : c.ascent.stage = .normalized → setup.Low name → setup.children name ≠ [] →
    c.state.Learned (c.state.below setup)
      (if c.exchange.stance = .busy then c.state.current else none)
  chooses : setup.Low name → (c.exchange = .ended ∨ setup.children name = [] ∧
      c.state.current.isSome ∧ ∀ final, c.exchange ≠ .poised final) →
    c.state.Chooses setup.problem.objective (c.state.below setup c.state.contextKey)

theorem Learned.of_early (hs : c.ascent.stage ≠ .normalized) (hc : c.state.current = none)
    (hx : c.exchange.stance = .waiting) : c.Learned setup name := by
  refine ⟨fun hd => absurd hd hs, fun _ ho => ?_⟩
  rcases ho with ho | ⟨-, hsome, -⟩
  · rw [ho] at hx
    cases hx
  · rw [hc] at hsome
    cases hsome

/-- Only the round has changed, or what is under way between the variable and its parent. -/
theorem Learned.congr (h : c.Learned setup name)
    (hstage : d.ascent.stage = .normalized → c.ascent.stage = .normalized)
    (hstate : d.state = { c.state with round := d.state.round })
    (hstance : d.exchange.stance = c.exchange.stance)
    (hpoised : ∀ final, c.exchange = .poised final → d.exchange = .poised final) :
    d.Learned setup name := by
  have hbelow : d.state.below setup = c.state.below setup := by rw [hstate]; rfl
  have hcurrent : d.state.current = c.state.current := by rw [hstate]
  have hended : d.exchange = .ended → c.exchange = .ended := by
    intro hd
    rw [← Exchange.stance_eq_ended, ← hstance, hd]
    rfl
  refine ⟨fun hs hlow hne => ?_, fun hlow hd => ?_⟩
  · rw [hbelow, hstance, hcurrent]
    have hlearned := h.learned (hstage hs) hlow hne
    rw [hstate]
    exact hlearned.congr rfl rfl rfl (.inl rfl)
  · have hchooses := by
      refine h.chooses hlow (hd.imp hended ?_)
      rintro ⟨hleaf, hsome, hx⟩
      exact ⟨hleaf, hcurrent ▸ hsome, fun final hc => hx final (hpoised final hc)⟩
    rw [hbelow]
    rw [hstate]
    exact ⟨hchooses.current, hchooses.best⟩

theorem Sound.current_early (h : c.Sound setup name) (hs : c.ascent.stage ≠ .normalized) :
    c.state.current = none := by
  rw [h.registered hs]
  rfl

theorem Sound.learned_normalized (h : c.Sound setup name) (hs : c.ascent.stage ≠ .normalized)
    (divisor : Exact F) : (c.normalized setup name divisor).Learned setup name := by
  obtain ⟨-, hindex, hcurrent⟩ := h.unmet_normalized hs divisor
  refine ⟨fun _ _ _ key place node hk => ?_, fun _ hx => ?_⟩
  · simp [hindex] at hk
  · rcases hx with hx | ⟨-, hsome, -⟩
    · have hwaiting := (h.exchange_normalized hs divisor).1
      rw [hx] at hwaiting
      cases hwaiting
    · rw [hcurrent] at hsome
      cases hsome

end Cell

namespace World

/-- The variables of the two lowest levels have learned what they can. -/
def Learned (setup : Setup (Exact F)) (w : World (Exact F)) : Prop :=
  ∀ name ∈ setup.problem.names, (w name).Learned setup name

theorem learned_initial (setup : Setup (Exact F)) : (World.initial setup).Learned setup :=
  fun _ _ => .of_early (by simp [World.initial, Cell.initial, Ascent.stage]) rfl rfl

theorem Learned.rewrite (h : w.Learned setup) {cell : Cell (Exact F)} {children : List String}
    {change : String → Cell (Exact F) → Cell (Exact F)} (hcell : cell.Learned setup name)
    (hchildren : ∀ child ∈ children, (change child (w child)).Learned setup child) :
    (w.rewrite name cell children change).Learned setup :=
  forall_cells_rewrite (P := fun name c => c.Learned setup name) h hcell hchildren

/-- Normalization is no concern of the exchange, as long as a variable gathers. -/
theorem Learned.prepares (h : w.Learned setup) (valid : setup.Valid) (hinv : w.Inv setup)
    {cell : Cell (Exact F)} {children : List String}
    {change : String → Cell (Exact F) → Cell (Exact F)}
    (ha : w.Prepares setup name cell children change) :
    (w.rewrite name cell children change).Learned setup := by
  have hsound := hinv.sound name ha.mem_names
  refine h.rewrite (.of_early ha.after ?_ ?_) fun child hm => ?_
  · rw [ha.state]
    exact hsound.current_early ha.before
  · rw [ha.exchange]
    exact (hsound.waiting_of_early ha.before).1
  · have halike := ha.alike child hm
    exact (h child (valid.mem_names_of_child (ha.below child hm))).congr
      (fun hd => halike.stage ▸ hd) (by rw [halike.state]) halike.stance
      fun final hx => (ha.answers child hm).trans hx

theorem Learned.normalize (h : w.Learned setup) (valid : setup.Valid) (hinv : w.Inv setup)
    {divisor : Exact F} (hn : name ∈ setup.problem.names)
    (ha : (w name).ascent = .dividing divisor) : (w.normalize setup name divisor).Learned setup := by
  have hclosed : (w name).ascent.stage = .closed := by rw [ha]; rfl
  have hs : (w name).ascent.stage ≠ .normalized := by simp [hclosed]
  refine h.rewrite ((hinv.sound name hn).learned_normalized hs divisor) fun child hc => ?_
  exact (h child (valid.mem_names_of_child hc)).congr (by simp [Ascent.stage]) rfl rfl
    fun _ hx => hx

theorem Learned.take (h : w.Learned setup) (valid : setup.Valid) (hinv : w.Inv setup)
    {context : Context} (hn : name ∈ setup.problem.names)
    (hx : (w name).exchange = .asked context) (hs : (w name).ascent.stage = .normalized) :
    (w.update name ((w name).taking context)).Learned setup := by
  have hstate := (hinv.sound name hn).sampling hs
  obtain ⟨hkeys, -⟩ := hinv.covers_of_asked valid hn hx hs
  have hbelow : ((w name).taking context).state.below setup = (w name).state.below setup := by
    funext key own
    rw [SamplingState.below, SamplingState.under_congr
      (show ((w name).taking context).state.name = (w name).state.name from rfl)
      (hstate.map_name_assign hkeys)]
    rfl
  refine h.rewrite ⟨fun _ hlow hne => ?_, fun _ ho => ?_⟩ (by simp)
  · have hlearned := (h name hn).learned hs hlow hne
    rw [hx] at hlearned
    rw [hbelow]
    exact hlearned.congr rfl rfl rfl (.inl rfl)
  · rcases ho with ho | ⟨-, -, ho⟩
    · cases ho
    · exact absurd rfl (ho context.final)

theorem Learned.count (h : w.Learned setup) (valid : setup.Valid) {parent : String}
    {cost : Option (Exact F)} (hp : setup.parent name = some parent)
    (hx : (w name).exchange = .answered cost) : (w.count parent name cost).Learned setup := by
  obtain ⟨hpn, hn⟩ := valid.mem_names hp
  refine h.rewrite ((h parent hpn).congr id rfl rfl fun _ ho => ho) fun child hc => ?_
  obtain rfl := List.mem_singleton.mp hc
  exact (h child hn).congr id rfl (by rw [hx]; rfl) (by simp [hx])

theorem Learned.act (h : w.Learned setup) (valid : setup.Valid) {final : Bool}
    {act : Act (Exact F)} {state : SamplingState (Exact F)}
    (hidle : ∀ child ∈ setup.children name, (w child).exchange = .idle)
    (hlearned : setup.Low name → setup.children name ≠ [] →
      state.Learned (state.below setup) (act.pending state))
    (hchooses : setup.Low name → act = .finish ∨ setup.children name = [] →
      state.Chooses setup.problem.objective (state.below setup state.contextKey)) :
    (w.act setup name act final state).Learned setup := by
  have hcell : ((w name).acting act final state).Learned setup name := by
    refine ⟨fun _ hlow hne => ?_, fun hlow ho => hchooses hlow ?_⟩
    · have hl := hlearned hlow hne
      cases act <;> exact hl
    · rcases ho with ho | ⟨hleaf, -⟩
      · cases act with
        | finish => exact .inl rfl
        | report _ => cases ho
        | sample => cases ho
      · exact .inr hleaf
  refine h.rewrite hcell fun child hc => ?_
  have hc := Act.mem_of_addressed hc
  exact (h child (valid.mem_names_of_child hc)).congr id rfl (by rw [hidle child hc]; rfl)
    (by simp [hidle child hc])

/-- The costs of a normalized variable are numbers. -/
theorem Kept.tame (h : w.Kept setup) (valid : setup.Valid) (finite : setup.Finite)
    (hn : name ∈ setup.problem.names) (hs : (w name).ascent.stage = .normalized) :
    (w name).state.Tame (setup.Dead name) ((w name).state.below setup) := by
  obtain ⟨hdivides, hspaces⟩ := (h.scaled.cells name hn).normalized hs
  refine ⟨finite.alive valid, fun key own => ?_, fun key own => finite.exists_below valid hdivides _ _⟩
  rw [SamplingState.costAt, total_eq_sum, hspaces]
  exact finite.exists_charge hdivides name _

/-- What a value of a variable costs that has taken over the context of its parent. -/
theorem Kept.costAt_eq (h : w.Kept setup) (valid : setup.Valid) {parent : String}
    (hp : setup.parent name = some parent) (hs : (w name).ascent.stage = .normalized)
    (hi : (w name).state.Informed) (hf : (w name).state.Follows (w parent).state)
    (hparent : (w parent).state.Sound setup.problem) {own : Value}
    (hown : own ∈ setup.domain name) : (w name).state.costAt (w name).state.contextKey own
      = setup.charge (w parent).state.scalingFactor name (Function.update ((w parent).state.under
          (w parent).state.contextKey (w parent).state.currentValue) name (some own)) := by
  have hn := (valid.mem_names hp).2
  have hsound := h.inv.sound name hn
  rw [Setup.charge, ← (h.scaled.shares parent name hp).normalized hs,
    ← ((h.scaled.cells name hn).normalized hs).2]
  refine (hsound.sampling hs).costAt_eq hi (hsound.domain_eq hs ▸ hown) fun other value hv => ?_
  rw [SamplingState.under, hsound.named] at hv
  exact Setup.update_mono (hf.context_le hparent hi) own other value hv

/-- A leaf that holds its best value costs what the best value of it does. -/
theorem Learned.cheapest_eq (h : w.Learned setup) (valid : setup.Valid) (hkept : w.Kept setup)
    {parent : String} (hp : setup.parent name = some parent) (hleaf : setup.children name = [])
    (hs : (w name).ascent.stage = .normalized) (hi : (w name).state.Informed)
    (hc : (w name).state.current.isSome) (hx : ∀ final, (w name).exchange ≠ .poised final)
    (hf : (w name).state.Follows (w parent).state)
    (hparent : (w parent).state.Sound setup.problem) :
    setup.cheapest (w parent).state.scalingFactor name ((w parent).state.under
        (w parent).state.contextKey (w parent).state.currentValue)
      = (w name).state.costAt (w name).state.contextKey (w name).state.currentValue := by
  have hn := (valid.mem_names hp).2
  have hsound := hkept.inv.sound name hn
  have hdomain := hsound.domain_eq hs
  have hcost := fun own (hown : own ∈ setup.domain name) =>
    hkept.costAt_eq valid hp hs hi hf hparent hown
  have hchooses := (h name hn).chooses (by simp [Setup.Low, hleaf]) (.inr ⟨hleaf, hc, hx⟩)
  have hcurrent : (w name).state.currentValue ∈ setup.domain name :=
    hdomain ▸ (hsound.sampling hs).currentValue_mem valid.wellFormed
  refine Objective.best_eq ?_ fun other ho => ?_
  · rw [hcost _ hcurrent]
    exact List.mem_map_of_mem hcurrent
  · obtain ⟨own, hown, rfl⟩ := List.mem_map.mp ho
    rw [← hcost own hown]
    have hbest := hchooses.best own (hdomain ▸ hown)
    simpa only [SamplingState.below, hsound.named, Setup.below_of_leaf hleaf, zero_add] using hbest

section

variable {G : Type} [Generator G]

theorem Learned.answer (h : w.Learned setup) (valid : setup.Valid) (finite : setup.Finite)
    (hkept : w.Kept setup) {final : Bool} {act : Act (Exact F)} (generator : G)
    (hn : name ∈ setup.problem.names) (hx : (w name).exchange = .poised final)
    (hacts : ((w name).state.answers (setup.settings name) setup.problem generator final).Acts
      setup.problem setup.config.delta (w name).state final act) :
    (w.act setup name act final ((w name).state.answers (setup.settings name) setup.problem
      generator final).state).Learned setup := by
  have hsound := hkept.inv.sound name hn
  have hworking := (hsound.of_poised hx).1
  have hs := hworking.stage
  have hstate := hsound.sampling hs
  have htame := hkept.tame valid finite hn hs
  have hcost : ∀ own, ∃ a, (w name).state.ownCost own = number a := by
    intro own
    rw [hstate.ownCost_eq]
    exact htame.costs _ own
  have hbelow := hacts.keeps.below setup
  have hnodes : setup.Low name → setup.children name ≠ [] →
      ((w name).state.answers (setup.settings name) setup.problem generator final).Learns
        setup.problem.objective ((w name).state.below setup) act := by
    intro hlow hne
    have hleaf : (w name).state.isLeaf = false := by
      rw [SamplingState.isLeaf, hsound.children]
      simpa using hne
    have hlearned := (h name hn).learned hs hlow hne
    rw [hx] at hlearned
    exact SamplingState.Learned.answers hlearned ((hkept.honest name hn).coherent hs) hstate
      valid.wellFormed hworking.informed hleaf htame
      (.inr fun own _ => by obtain ⟨a, ha⟩ := hcost own; rw [ha]; rfl) final generator hacts
  refine h.act valid
    (fun child hc => hkept.inv.child_idle valid (by simp [hx, Exchange.stance]) hc)
    (fun hlow hne => hbelow ▸ (hnodes hlow hne).learned) fun hlow ho => ?_
  -- a leaf has its best value at once, from its own costs alone
  by_cases hne : setup.children name = []
  · have hleaf : (w name).state.isLeaf = true := by
      rw [SamplingState.isLeaf, hsound.children]
      simpa using hne
    have hchooses := hstate.chooses_answers valid.wellFormed hworking.informed hleaf hcost final
      (setup.settings name) generator
    have hzero : ∀ key own, (w name).state.below setup key own = 0 := by
      intro key own
      rw [SamplingState.below, hsound.named, Setup.below_of_leaf hne]
    rw [hbelow, funext (hzero _)]
    exact hchooses
  · rw [hbelow]
    exact (hnodes hlow hne).chooses (ho.resolve_right hne)

/-- The reports of children that are leaves sum up to what they cost with their best values. -/
theorem Learned.sum_eq (h : w.Learned setup) (valid : setup.Valid) (finite : setup.Finite)
    (hkept : w.Kept setup) (hn : name ∈ setup.problem.names) (hlow : setup.Low name)
    {final : Bool} (hx : (w name).exchange = .busy final)
    (hround : (w name).state.round.received = (setup.children name).length)
    (hopen : (w name).state.round.infeasible = false) :
    (w name).state.round.sum
      = (w name).state.below setup (w name).state.contextKey (w name).state.currentValue := by
  have hstrict : Strict setup := .inr fun name hn context => finite.not_refuted valid hn context
  have htallied := hkept.tallied hstrict name hn
  have hsound := hkept.inv.sound name hn
  have hstance : (w name).exchange.stance = .busy := by rw [hx]; rfl
  have hidle := hkept.inv.idle_of_received hn hx hround
  have hisidle : ∀ child ∈ setup.children name, (w child).exchange.isIdle = true :=
    fun child hc => Exchange.isIdle_iff.mpr (hidle child hc)
  have hall : (setup.children name).toFinset.filter
      (fun child => (w child).exchange.isIdle = true) = (setup.children name).toFinset :=
    Finset.filter_true_of_mem fun child hc => hisidle child (List.mem_toFinset.mp hc)
  have hs := (hkept.inv.handing hn (by simp [hstance])).1
  rw [htallied.sum hstance hopen, hall, SamplingState.below, Setup.below, hsound.named]
  refine Finset.sum_congr rfl fun child hc => ?_
  have hc := List.mem_toFinset.mp hc
  have hp := valid.mem_children.mp hc
  have hcn := valid.mem_names_of_child hc
  obtain ⟨hcs, hci, hcurrent, -, -⟩ := htallied.rests hstance hopen child hc (hisidle child hc)
  have hfollows := (hkept.attuned name child hp (by simp [hstance]) (by rw [hidle child hc]; rfl)).2
  rw [h.cheapest_eq valid hkept hp (hlow child hc) hcs hci hcurrent (by simp [hidle child hc])
    hfollows (hsound.sampling hs), cost_eq valid hcn, hlow child hc]
  simp only [List.toFinset_nil, Finset.sum_empty, add_zero]
  exact ((hkept.inv.sound child hcn).sampling hcs).ownCost_eq _

theorem Learned.join [IsStrictOrderedRing F] (h : w.Learned setup) (valid : setup.Valid)
    (finite : setup.Finite) (hkept : w.Kept setup) {final : Bool} {act : Act (Exact F)}
    (generator : G) (hn : name ∈ setup.problem.names) (hx : (w name).exchange = .busy final)
    (hround : (w name).state.round.received = (setup.children name).length)
    (hacts : ((w name).state.settled.joins (setup.settings name) setup.problem generator
      (w name).state.round).Acts setup.problem setup.config.delta (w name).state.settled final act) :
    (w.act setup name act final ((w name).state.settled.joins (setup.settings name) setup.problem
      generator (w name).state.round).state).Learned setup := by
  have hsound := hkept.inv.sound name hn
  have hbusy := hsound.of_busy hx
  have hs := hbusy.stage
  have hstance : (w name).exchange.stance = .busy := by rw [hx]; rfl
  have hhonest := hkept.honest name hn
  have hopen := hkept.honest.unspoiled hn hstance fun child hc =>
    finite.not_refuted valid (valid.mem_names_of_child hc)
  have hbelow := hacts.keeps.below setup
  have hsettled : (w name).state.settled.below setup = (w name).state.below setup := rfl
  have hnodes : setup.Low name →
      ((w name).state.settled.joins (setup.settings name) setup.problem generator
        (w name).state.round).Learns setup.problem.objective ((w name).state.below setup) act := by
    intro hlow
    have hleaf : (w name).state.settled.isLeaf = false := by
      show (w name).state.children.isEmpty = false
      rw [hsound.children]
      simpa using hbusy.nonleaf
    have hlearned := (h name hn).learned hs hlow hbusy.nonleaf
    rw [if_pos hstance] at hlearned
    obtain ⟨hopened, hheld⟩ := hhonest.samples hstance
    have htame := hkept.tame valid finite hn hs
    obtain rfl : (w name).state.settled.parentFinished = final := hbusy.parentFinished
    have hsettled : (w name).state.settled.Learned ((w name).state.below setup)
        (w name).state.settled.current := hlearned.congr rfl rfl rfl (.inl rfl)
    exact hsettled.joins ((hhonest.coherent hs).congr rfl rfl rfl rfl rfl rfl)
      ((hsound.sampling hs).setPhase (w name).state.phase (w name).state.parentFinished .empty)
      valid.wellFormed hbusy.informed hleaf
      (fun hp => hbusy.parentFinished.trans (hbusy.root (hsound.parent.symm.trans hp)))
      ⟨hopened, hheld⟩ ⟨htame.alive, htame.costs, htame.reports⟩ _ hopen
      (h.sum_eq valid finite hkept hn hlow hx hround hopen) generator hacts
  refine h.act valid (hkept.inv.idle_of_received hn hx hround) (fun hlow _ => ?_) fun hlow ho => ?_
  · rw [hbelow, hsettled]
    exact (hnodes hlow).learned
  · rw [hbelow, hsettled]
    exact (hnodes hlow).chooses (ho.resolve_right hbusy.nonleaf)

/-- Every step leaves what was learned. -/
theorem Learned.step [IsStrictOrderedRing F] (h : w.Learned setup) (valid : setup.Valid)
    (finite : setup.Finite) (hkept : w.Kept setup) (hs : Step setup G w w') : w'.Learned setup := by
  have hinv := hkept.inv
  cases hs with
  | see hn ha => exact h.prepares valid hinv (prepares_see hn ha)
  | tell hp ha => exact h.prepares valid hinv (hinv.prepares_tell valid hp ha)
  | close hn ha _ => exact h.prepares valid hinv (prepares_close hn ha)
  | normalize hn ha => exact h.normalize valid hinv hn ha
  | keep hn hx hs =>
    exact h.rewrite (.of_early hs ((hinv.sound _ hn).current_early hs) rfl) (by simp)
  | take hn hx hs => exact h.take valid hinv hn hx hs
  | answer generator hn hx hacts => exact h.answer valid finite hkept generator hn hx hacts
  | count hp hx => exact h.count valid hp hx
  | join generator hn hx hr hacts => exact h.join valid finite hkept generator hn hx hr hacts

/-- A run leaves what was learned. -/
theorem Learned.steps [IsStrictOrderedRing F] (h : w.Learned setup) (valid : setup.Valid)
    (finite : setup.Finite) (hkept : w.Kept setup) (hs : Steps setup G w w') :
    w'.Learned setup := by
  induction hs with
  | refl => exact h
  | tail hs hstep ih =>
    exact ih.step valid finite (hkept.steps valid finite.priced hs) hstep

end

end World

end DcopSearch
