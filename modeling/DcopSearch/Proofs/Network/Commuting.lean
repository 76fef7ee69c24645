import DcopSearch.Proofs.Network.Agents
import DcopSearch.Proofs.Normalization.Shape

/-! Messages that meet.  When two messages for one variable are under way at once, it does not matter
which of them its agent handles first: reports of ranges and of costs are added up, the view adds what
the variable has itself, and a context that comes before the divisor is kept. -/

namespace DcopSearch

open CostArithmetic World

variable {F G : Type} [Field F] [LinearOrder F] [LnSqrt F] [Generator G]

/-- Two things done in turn, and the messages sent by both. -/
def inTurn {S E M : Type} (first second : S → S × Except E (List M)) (s : S) :
    S × Except E (Multiset M) :=
  ((second (first s).1).1,
    (first s).2.bind fun sent => (second (first s).1).2.map fun more => ↑(sent ++ more))

namespace Range

variable {range : Range (Exact F)} {report report' : RangeReport (Exact F)}

theorem addReport_comm : (range.addReport report).addReport report'
    = (range.addReport report').addReport report := by
  have hunion : range.separator ∪ report.separator ∪ report'.separator
      = range.separator ∪ report'.separator ∪ report.separator :=
    NameSet.ext fun name => by simp [or_right_comm]
  simp only [addReport, Range.mk.injEq, true_and, and_true]
  exact ⟨add_right_comm _ _ _, add_right_comm _ _ _, Nat.add_right_comm _ _ _,
    max_right_comm _ _ _, hunion⟩

theorem addReport_addView {substitute : Option (Exact F)} {view : View}
    {spaces : List (CostSpace (Exact F))} {values : Nat} :
    (range.addReport report).addView substitute view spaces values
      = (range.addView substitute view spaces values).addReport report := by
  have hlower : ∀ range : Range (Exact F), (spaces.foldl (addSpace substitute) range).lower
      = range.lower + (spaces.map (shift substitute)).sum :=
    fun range => congrArg Prod.fst (ends_foldl substitute spaces range)
  have hupper : ∀ range : Range (Exact F), (spaces.foldl (addSpace substitute) range).upper
      = range.upper + (spaces.map (crest substitute)).sum :=
    fun range => congrArg Prod.snd (ends_foldl substitute spaces range)
  have hunion : range.separator ∪ report.separator ∪ view.separator
      = range.separator ∪ view.separator ∪ report.separator :=
    NameSet.ext fun name => by simp [or_right_comm]
  rw [addView_eq, addView_eq, hlower, hlower, hupper, hupper]
  simp only [addReport, Range.mk.injEq, true_and, and_true]
  exact ⟨add_right_comm _ _ _, add_right_comm _ _ _, Nat.add_right_comm _ _ _,
    max_right_comm _ _ _, hunion⟩

end Range

theorem Round.add_comm {penalty : Exact F} {cost cost' : Option (Exact F)} {round : Round (Exact F)} :
    (round.add penalty cost).add penalty cost' = (round.add penalty cost').add penalty cost := by
  simp only [Round.add, Round.mk.injEq, Bool.or_right_comm, and_true]
  exact add_right_comm _ _ _

theorem countP_add_two_le {α : Type} {p : α → Bool} {xs : List α} {x y : α} (hx : x ∈ xs)
    (hy : y ∈ xs) (hne : x ≠ y) (hpx : p x = false) (hpy : p y = false) :
    xs.countP p + 2 ≤ xs.length := by
  have hsub : [x, y] ⊆ xs.filter fun z => !p z := by
    intro z hz
    rcases List.mem_cons.mp hz with rfl | hz
    · simp [hx, hpx]
    · obtain rfl := List.mem_singleton.mp hz
      simp [hy, hpy]
  have hlength := (List.subperm_of_subset (by simpa using hne) hsub).length_le
  have htotal := List.length_eq_countP_add_countP p (l := xs)
  rw [← List.countP_eq_length_filter] at hlength
  simp only [List.length_cons, List.length_nil] at hlength
  simp_all

section

variable {K : Type} [CostArithmetic K] {problem : Problem K} {name : String}

theorem inTurn_of_silent {S E M : Type} {first second : S → S × Except E (List M)} {s s' : S}
    (h : first s = (s', .ok [])) :
    inTurn first second s = ((second s').1, (second s').2.map fun sent => ↑sent) := by
  simp only [inTurn, h]
  rfl

namespace Normalizer

variable {normalizer : Normalizer K} {range range' : Range K}

theorem advance_setRange :
    (normalizer.setRange name range').advance problem name range
      = normalizer.advance problem name range := by
  unfold advance
  split
  · rw [setRange_setRange]
  · split
    · simp only [setRange_setRange]
    · rw [setRange_setRange]

omit [CostArithmetic K] in
theorem range_setRange [CostArithmetic K] :
    (normalizer.setRange name range).range name = range := by
  simp [Normalizer.range, setRange]

end Normalizer

def Sampler.setState (sampler : Sampler K G) (name : String) (state : SamplingState K) :
    Sampler K G :=
  { sampler with states := sampler.states.insert name state }

def Agent.setRange (a : Agent K G) (name : String) (range : Range K) : Agent K G :=
  { a with normalizer := a.normalizer.setRange name range }

/-- The state that has been normalized and is ready for a context. -/
def SamplingState.ready (state : SamplingState K) (settings : SamplingSettings K)
    (normalized : Normalized K) : SamplingState K :=
  { state.prepare settings normalized with phase := .awaitingParentValue }

/-- The state that keeps a context until it has been normalized. -/
def SamplingState.keeping (state : SamplingState K) (context : Context) : SamplingState K :=
  { state with phase := .awaitingNormalization (some context) }

/-- The state in which one more report has been counted. -/
def SamplingState.counting (state : SamplingState K) (cost : Option K) : SamplingState K :=
  { state with round := state.round.add state.penalty cost }

/-- What comes of a report to a variable that samples. -/
theorem SamplingState.onCost_of_sampling {state : SamplingState K}
    (hphase : state.phase = .sampling) (hleaf : state.isLeaf = false)
    (settings : SamplingSettings K) (problem : Problem K) (generator : G) (cost : Option K) :
    state.onCost settings problem generator cost =
      if state.round.received + 1 < state.children.length then
        (state.counting cost).sends generator (.ok [])
      else SamplingState.joins { state with round := .empty } settings problem generator
        (state.round.add state.penalty cost) := by
  have hguard : ¬(state.phase ≠ .sampling ∨ state.isLeaf = true) := by simp [hphase, hleaf]
  rw [SamplingState.onCost, if_neg hguard]
  rfl

namespace Sampler

variable {sampler : Sampler K G} {state : SamplingState K}

omit [CostArithmetic K] [Generator G] in
theorem absorb_setState {reaction : Reaction K G} :
    (sampler.setState name state).absorb name reaction = sampler.absorb name reaction := by
  simp only [absorb, setState, insert_insert]

omit [CostArithmetic K] [Generator G] in
theorem react_setState {reaction : SamplingState K → Reaction K G} :
    (sampler.setState name state).react name reaction = sampler.absorb name (reaction state) := by
  rw [react, show (sampler.setState name state).states[name]? = some state by simp [setState]]
  exact absorb_setState

theorem onNormalized_of_early {normalized : Normalized K}
    (hstate : sampler.states[normalized.name]? = some state)
    (hphase : state.phase = .awaitingNormalization none) (hroot : state.isRoot = false) :
    sampler.onNormalized problem normalized
      = (sampler.setState normalized.name (state.ready sampler.settings normalized), .ok []) := by
  simp only [onNormalized, react, hstate, SamplingState.onNormalized, hphase]
  rw [if_neg (by exact Bool.eq_false_iff.mp hroot)]
  rfl

/-- A context that comes before the variable is normalized is kept. -/
theorem handle_context_of_early {context : Context}
    (hstate : sampler.states[context.receiver]? = some state)
    (hphase : state.phase = .awaitingNormalization none) :
    sampler.handle problem (.context context)
      = (sampler.setState context.receiver (state.keeping context), .ok []) := by
  simp only [handle, react, hstate, SamplingState.onContext, hphase]
  rfl

theorem handle_context_ready {normalized : Normalized K} {context : Context} :
    (sampler.setState context.receiver (state.ready sampler.settings normalized)).handle problem
        (.context context)
      = sampler.absorb context.receiver ((state.ready sampler.settings normalized).takes
          sampler.settings problem sampler.generator context) := by
  simp only [handle, react_setState]
  rfl

/-- A variable that has kept a context takes it over when it is normalized. -/
theorem onNormalized_keeping {normalized : Normalized K} {context : Context}
    (hroot : state.isRoot = false) :
    (sampler.setState normalized.name (state.keeping context)).onNormalized problem normalized
      = sampler.absorb normalized.name ((state.ready sampler.settings normalized).takes
          sampler.settings problem sampler.generator context) := by
  simp only [onNormalized, react_setState]
  exact congrArg (sampler.absorb normalized.name) (if_neg (Bool.eq_false_iff.mp hroot))

/-- A report that is not the last one of its round is counted. -/
theorem handle_cost_of_open (hstate : sampler.states[name]? = some state)
    (hphase : state.phase = .sampling) (hleaf : state.isLeaf = false) (cost : Option K)
    (hopen : state.round.received + 1 < state.children.length) :
    sampler.handle problem (.cost name cost)
      = (sampler.setState name (state.counting cost), .ok []) := by
  simp only [handle, react, hstate, SamplingState.onCost_of_sampling hphase hleaf, if_pos hopen]
  rfl

end Sampler

namespace Agent

variable {a : Agent K G} {range : Range K} {report : RangeReport K} {view : View}
  {sampler : Sampler K G} {message : Message K}

theorem takeStep_of_incomplete
    (h : ∀ view, range.view = some view → range.isComplete view = false) :
    a.takeStep problem (a.normalizer.advance problem name range) = (a.setRange name range, .ok []) := by
  rw [Normalizer.advance_of_incomplete h]
  exact takeStep_nil problem _ []

theorem takeStep_setRange :
    (a.setRange name range).takeStep problem = a.takeStep problem := rfl

theorem handle_range (hstarted : a.started = true)
    (howner : a.normalizer.ownershipError? problem name = none) (hr : report.receiver = name) :
    a.handle problem (.range report) = a.takeStep problem
      (a.normalizer.advance problem name ((a.normalizer.range name).addReport report)) := by
  simp only [handle, hstarted, if_true, receive, Normalizer.handle, Normalizer.onRange, hr, howner]

theorem handle_range_setRange (hstarted : a.started = true)
    (howner : a.normalizer.ownershipError? problem name = none) (hr : report.receiver = name) :
    (a.setRange name range).handle problem (.range report)
      = a.takeStep problem (a.normalizer.advance problem name (range.addReport report)) := by
  rw [handle_range (a := a.setRange name range) hstarted howner hr, takeStep_setRange,
    show (a.setRange name range).normalizer = a.normalizer.setRange name range from rfl,
    Normalizer.range_setRange, Normalizer.advance_setRange]

theorem handle_view (hstarted : a.started = true)
    (howner : a.normalizer.ownershipError? problem name = none)
    (hregister : a.sampler.register problem name view = .ok sampler)
    (hview : (a.normalizer.range name).view = none) :
    a.handle problem (.view name view) = takeStep { a with sampler } problem
      (a.normalizer.advance problem name ((a.normalizer.range name).addView a.normalizer.substitute
        view (problem.spacesEnforcedBy name view.below)
        ((problem.domain? name).elim 0 List.length))) := by
  simp only [handle, hstarted, if_true, receive, onView, hregister, Normalizer.handle,
    Normalizer.onView, howner, hview, Option.isSome_none, Bool.false_eq_true, if_false]

theorem handle_view_setRange (hstarted : a.started = true)
    (howner : a.normalizer.ownershipError? problem name = none)
    (hregister : a.sampler.register problem name view = .ok sampler) (hview : range.view = none) :
    (a.setRange name range).handle problem (.view name view) = takeStep { a with sampler } problem
      (a.normalizer.advance problem name (range.addView a.normalizer.substitute
        view (problem.spacesEnforcedBy name view.below)
        ((problem.domain? name).elim 0 List.length))) := by
  rw [handle_view (a := a.setRange name range) hstarted howner hregister,
    show (a.setRange name range).normalizer = a.normalizer.setRange name range from rfl,
    Normalizer.range_setRange, Normalizer.advance_setRange]
  · rfl
  · rw [show (a.setRange name range).normalizer = a.normalizer.setRange name range from rfl,
      Normalizer.range_setRange]
    exact hview

theorem handle_cost {cost : Option K} (hstarted : a.started = true) :
    a.handle problem (.cost name cost)
      = ({ a with sampler := (a.sampler.handle problem (.cost name cost)).1 },
        (a.sampler.handle problem (.cost name cost)).2) := by
  simp only [handle, hstarted, if_true, receive]

theorem handle_context {context : Context} (hstarted : a.started = true) :
    a.handle problem (.context context)
      = ({ a with sampler := (a.sampler.handle problem (.context context)).1 },
        (a.sampler.handle problem (.context context)).2) := by
  simp only [handle, hstarted, if_true, receive]

theorem takeStep_completed {normalizer : Normalizer K} {messages : List (Outgoing K)}
    {normalized : Normalized K} :
    a.takeStep problem (normalizer, .ok { messages, completed := [normalized] })
      = ({ a with normalizer, sampler := (a.sampler.onNormalized problem normalized).1 },
        (a.sampler.onNormalized problem normalized).2.map (messages ++ ·)) := by
  simp only [takeStep, Sampler.onAllNormalized]
  rcases a.sampler.onNormalized problem normalized with ⟨sampler, outcome | sent⟩
  · rfl
  · simp [Except.map]

/-- A divisor completes its variable and is passed on, whatever the sampler holds. -/
theorem handle_divisor (divisor : K) (hstarted : a.started = true)
    (howner : a.normalizer.ownershipError? problem name = none)
    (hranges : a.normalizer.ranges[name]? = some range) (hview : range.view = some view)
    (hdone : range.done = false) (hchildren : ∀ child ∈ view.children, child ∈ problem.names) :
    ∃ normalizer messages normalized, normalized.name = name ∧ ∀ sampler : Sampler K G,
      handle { a with sampler } problem (.divisor name divisor)
        = ({ a with normalizer, sampler := (sampler.onNormalized problem normalized).1 },
          (sampler.onNormalized problem normalized).2.map (messages ++ ·)) := by
  refine ⟨a.normalizer.setRange name (range.rescale a.normalizer.substitute divisor),
    view.children.map fun child => ⟨problem.address child, .divisor child divisor⟩,
    (range.rescale a.normalizer.substitute divisor).normalized name divisor, rfl, fun sampler => ?_⟩
  simp only [handle, hstarted, if_true, receive, Normalizer.handle, Normalizer.onDivisor, howner,
    hranges, Normalizer.applyDivisor_eq rfl hview hdone hchildren]
  exact takeStep_completed

/-- A context that comes before the divisor is taken over when the divisor has come. -/
theorem divisor_context {state : SamplingState K} {divisor : K} {context : Context}
    (hstarted : a.started = true) (howner : a.normalizer.ownershipError? problem name = none)
    (hranges : a.normalizer.ranges[name]? = some range) (hview : range.view = some view)
    (hdone : range.done = false) (hchildren : ∀ child ∈ view.children, child ∈ problem.names)
    (hstate : a.sampler.states[name]? = some state)
    (hphase : state.phase = .awaitingNormalization none) (hroot : state.isRoot = false)
    (hreceiver : context.receiver = name) :
    inTurn (·.handle problem (.divisor name divisor)) (·.handle problem (.context context)) a
      = inTurn (·.handle problem (.context context)) (·.handle problem (.divisor name divisor))
          a := by
  obtain ⟨normalizer, messages, normalized, hname, hdivisor⟩ :=
    handle_divisor divisor hstarted howner hranges hview hdone hchildren
  have hreceived : normalized.name = context.receiver := hname.trans hreceiver.symm
  let ready := a.sampler.setState context.receiver (state.ready a.sampler.settings normalized)
  let taken := a.sampler.absorb context.receiver ((state.ready a.sampler.settings normalized).takes
    a.sampler.settings problem a.sampler.generator context)
  have hfirst : a.handle problem (.divisor name divisor)
      = ({ a with normalizer, sampler := ready }, .ok messages) := by
    refine (hdivisor a.sampler).trans ?_
    rw [Sampler.onNormalized_of_early (hname ▸ hstate) hphase hroot, hreceived]
    simp [ready, Except.map]
  have hthen : handle { a with normalizer, sampler := ready } problem (.context context)
      = ({ a with normalizer, sampler := taken.1 }, taken.2) := by
    rw [handle_context (by exact hstarted), Sampler.handle_context_ready]
  have hsecond : a.handle problem (.context context)
      = ({ a with sampler := a.sampler.setState context.receiver (state.keeping context) },
        .ok []) := by
    rw [handle_context hstarted, Sampler.handle_context_of_early (hreceiver ▸ hstate) hphase]
  have hlate : handle
        { a with sampler := a.sampler.setState context.receiver (state.keeping context) } problem
        (.divisor name divisor)
      = ({ a with normalizer, sampler := taken.1 }, taken.2.map (messages ++ ·)) := by
    rw [hdivisor, ← hreceived, Sampler.onNormalized_keeping hroot, hreceived]
  refine Eq.trans ?_ (inTurn_of_silent hsecond).symm
  simp only [inTurn, hfirst, hthen, hlate]
  rcases taken with ⟨sampler, error | sent⟩ <;> rfl

end Agent

end

namespace Agent

variable {a : Agent (Exact F) G} {problem : Problem (Exact F)} {name : String}

theorem range_range {report report' : RangeReport (Exact F)} (hstarted : a.started = true)
    (howner : a.normalizer.ownershipError? problem name = none) (hr : report.receiver = name)
    (hr' : report'.receiver = name)
    (h : ∀ report : RangeReport (Exact F), ∀ view,
      ((a.normalizer.range name).addReport report).view = some view →
        ((a.normalizer.range name).addReport report).isComplete view = false) :
    inTurn (·.handle problem (.range report)) (·.handle problem (.range report')) a
      = inTurn (·.handle problem (.range report')) (·.handle problem (.range report)) a := by
  have hsilent : ∀ report : RangeReport (Exact F), report.receiver = name →
      a.handle problem (.range report)
        = (a.setRange name ((a.normalizer.range name).addReport report), .ok []) :=
    fun report hr => (handle_range hstarted howner hr).trans (takeStep_of_incomplete (h report))
  rw [inTurn_of_silent (hsilent report hr), inTurn_of_silent (hsilent report' hr'),
    handle_range_setRange hstarted howner hr, handle_range_setRange hstarted howner hr',
    Range.addReport_comm]

theorem view_range {report : RangeReport (Exact F)} {view : View} {sampler : Sampler (Exact F) G}
    (hstarted : a.started = true) (howner : a.normalizer.ownershipError? problem name = none)
    (hr : report.receiver = name) (hregister : a.sampler.register problem name view = .ok sampler)
    (hview : (a.normalizer.range name).view = none)
    (h : ((a.normalizer.range name).addView a.normalizer.substitute view
      (problem.spacesEnforcedBy name view.below)
      ((problem.domain? name).elim 0 List.length)).isComplete view = false) :
    inTurn (·.handle problem (.view name view)) (·.handle problem (.range report)) a
      = inTurn (·.handle problem (.range report)) (·.handle problem (.view name view)) a := by
  have hfirst := (handle_view hstarted howner hregister hview).trans
    (takeStep_of_incomplete (a := { a with sampler }) fun v hv => by
      obtain rfl : view = v := by simpa [Range.addView_eq] using hv
      exact h)
  have hsecond := (handle_range hstarted howner hr).trans (takeStep_of_incomplete fun v hv => by
    have hv : (a.normalizer.range name).view = some v := hv
    rw [hview] at hv
    cases hv)
  rw [inTurn_of_silent hfirst, inTurn_of_silent hsecond,
    handle_view_setRange hstarted howner hregister (by exact hview),
    handle_range_setRange (a := { a with sampler }) hstarted howner hr, Range.addReport_addView]

theorem cost_cost {cost cost' : Option (Exact F)} {state : SamplingState (Exact F)}
    (hstarted : a.started = true) (hstate : a.sampler.states[name]? = some state)
    (hphase : state.phase = .sampling) (hleaf : state.isLeaf = false)
    (hlt : state.round.received + 1 < state.children.length) :
    inTurn (·.handle problem (.cost name cost)) (·.handle problem (.cost name cost')) a
      = inTurn (·.handle problem (.cost name cost')) (·.handle problem (.cost name cost)) a := by
  have hguard : ∀ cost, ¬((state.counting cost).phase ≠ .sampling
      ∨ (state.counting cost).isLeaf = true) := fun _ => not_or.mpr
    ⟨not_not.mpr hphase, Bool.eq_false_iff.mp hleaf⟩
  have hsilent : ∀ cost, a.handle problem (.cost name cost)
      = ({ a with sampler := a.sampler.setState name (state.counting cost) }, .ok []) := by
    intro cost
    rw [handle_cost hstarted, Sampler.handle_cost_of_open hstate hphase hleaf cost hlt]
  have hnext : ∀ cost cost', handle
        { a with sampler := a.sampler.setState name (state.counting cost) } problem (.cost name cost')
      = ({ a with sampler := (a.sampler.absorb name ((state.counting cost).onCost a.sampler.settings
            problem a.sampler.generator cost')).1 },
        (a.sampler.absorb name ((state.counting cost).onCost a.sampler.settings problem
          a.sampler.generator cost')).2) := by
    intro cost cost'
    rw [handle_cost (a := { a with sampler := a.sampler.setState name (state.counting cost) })
      hstarted]
    simp only [Sampler.handle, Sampler.react_setState]
    rfl
  have hreaction : ∀ cost cost',
      (state.counting cost).onCost a.sampler.settings problem a.sampler.generator cost'
      = (state.counting cost').onCost a.sampler.settings problem a.sampler.generator cost := by
    intro cost cost'
    have hround : (state.counting cost).round.add (state.counting cost).penalty cost'
        = (state.counting cost').round.add (state.counting cost').penalty cost := Round.add_comm
    simp only [SamplingState.onCost, if_neg (hguard cost), if_neg (hguard cost'), hround]
    rfl
  rw [inTurn_of_silent (hsilent cost), inTurn_of_silent (hsilent cost'), hnext, hnext, hreaction]

end Agent

namespace Agent.Shows

variable {setup : Setup (Exact F)} {w : World (Exact F)} {agent name child child' : String}
  {a : Agent (Exact F) G}

theorem ranges (h : a.Shows setup w agent) (hinv : w.Inv setup) (valid : setup.Valid)
    (hn : setup.problem.owner? name = some agent) (hp : setup.parent child = some name)
    (hp' : setup.parent child' = some name) (hne : child ≠ child')
    (ha : (w child).ascent = .reporting) (ha' : (w child').ascent = .reporting) :
    inTurn (·.handle setup.problem (.range (Normalizer.reportTo name (w child).range)))
        (·.handle setup.problem (.range (Normalizer.reportTo name (w child').range))) a
      = inTurn (·.handle setup.problem (.range (Normalizer.reportTo name (w child').range)))
        (·.handle setup.problem (.range (Normalizer.reportTo name (w child).range))) a := by
  have hnames := Problem.mem_names_of_owner hn
  have hsound := hinv.sound name hnames
  refine range_range h.started (h.normalizer.ownershipError?_eq_none hn) rfl rfl
    fun report view hv => ?_
  rw [h.normalizer.ranges name hn] at hv ⊢
  have hreported := hinv.unreported_of_reporting valid hp ha
  have hview : view = setup.view name := by
    have hv : (w name).range.view = some view := hv
    rw [hsound.view] at hv
    split at hv
    · cases hv
    · exact (Option.some.inj hv).symm
  -- two of the reports are still under way
  have hcount := countP_add_two_le (p := fun child => (w child).ascent.isReported)
    (valid.mem_children.mpr hp) (valid.mem_children.mpr hp') hne (by simp [ha, Ascent.isReported])
    (by simp [ha', Ascent.isReported])
  have hreceived := (hinv.counts name hnames).gathering hreported
  have hone : (if (w name).ascent.stage = .unseen then 0 else 1) ≤ 1 := by split <;> simp
  rw [← Bool.not_eq_true, Range.isComplete_iff, hview]
  rintro ⟨-, hle⟩
  have hle : (setup.children name).length + 1 ≤ (w name).range.received + 1 := hle
  omega

theorem view_and_range (h : a.Shows setup w agent) (hinv : w.Inv setup) (valid : setup.Valid)
    (hn : setup.problem.owner? name = some agent) (hp : setup.parent child = some name)
    (ha : (w name).ascent = .unseen) (hc : (w child).ascent = .reporting) :
    inTurn (·.handle setup.problem (.view name (setup.view name)))
        (·.handle setup.problem (.range (Normalizer.reportTo name (w child).range))) a
      = inTurn (·.handle setup.problem (.range (Normalizer.reportTo name (w child).range)))
        (·.handle setup.problem (.view name (setup.view name))) a := by
  have hnames := Problem.mem_names_of_owner hn
  have hsound := hinv.sound name hnames
  have hs : (w name).ascent.stage = .unseen := by rw [ha]; rfl
  refine view_range h.started (h.normalizer.ownershipError?_eq_none hn) rfl
    (h.sampler.register_eq hn hs) ?_ ?_
  · rw [h.normalizer.ranges name hn, hsound.view, if_pos hs]
  · rw [h.normalizer.ranges name hn, ← Bool.not_eq_true, Range.isComplete_iff, Range.addView_eq]
    rintro ⟨hreported, hle⟩
    have hreceived := (hinv.counts name hnames).gathering hreported
    have hcount : (setup.children name).countP (fun child => (w child).ascent.isReported)
        < (setup.children name).length :=
      List.countP_lt_length_iff.mpr
        ⟨child, valid.mem_children.mpr hp, by simp [hc, Ascent.isReported]⟩
    have hle : (setup.children name).length + 1 ≤ (w name).range.received + 1 := hle
    rw [if_pos hs] at hreceived
    omega

theorem costs (h : a.Shows setup w agent) (hinv : w.Inv setup) (valid : setup.Valid)
    (hn : setup.problem.owner? name = some agent) (hp : setup.parent child = some name)
    (hp' : setup.parent child' = some name) (hne : child ≠ child') {cost cost' : Option (Exact F)}
    (hx : (w child).exchange = .answered cost) (hx' : (w child').exchange = .answered cost') :
    inTurn (·.handle setup.problem (.cost name cost)) (·.handle setup.problem (.cost name cost')) a
      = inTurn (·.handle setup.problem (.cost name cost'))
        (·.handle setup.problem (.cost name cost)) a := by
  have hnames := Problem.mem_names_of_owner hn
  have hsound := hinv.sound name hnames
  obtain ⟨final, hb, hbusy⟩ := hinv.busy_of_answered valid hp hx
  refine cost_cost h.started ?_ hbusy.phase ?_ ?_
  · rw [h.sampler.states name hn, if_neg (by simp [hbusy.stage])]
  · rw [SamplingState.isLeaf, hsound.children]
    simpa using hbusy.nonleaf
  · have hcount := countP_add_two_le (p := fun child => (w child).exchange.isIdle)
      (valid.mem_children.mpr hp) (valid.mem_children.mpr hp') hne (by simp [hx, Exchange.isIdle])
      (by simp [hx', Exchange.isIdle])
    have hreceived := (hinv.counts name hnames).busy (by rw [hb]; rfl)
    rw [hsound.children]
    omega

theorem divisor_and_context (h : a.Shows setup w agent) (hinv : w.Inv setup) (valid : setup.Valid)
    (hn : setup.problem.owner? name = some agent) {divisor : Exact F} {context : Context}
    (ha : (w name).ascent = .dividing divisor) (hx : (w name).exchange = .asked context) :
    inTurn (·.handle setup.problem (.divisor name divisor))
        (·.handle setup.problem (.context context)) a
      = inTurn (·.handle setup.problem (.context context))
        (·.handle setup.problem (.divisor name divisor)) a := by
  have hnames := Problem.mem_names_of_owner hn
  have hsound := hinv.sound name hnames
  obtain ⟨parent, hp, -, hreceiver, -⟩ := hinv.context_of_asked valid hnames hx
  have hview : (w name).range.view = some (setup.view name) := by
    rw [hsound.view, ha]
    rfl
  have hregistered := hsound.registered (by simp [ha, Ascent.stage])
  have hstate : a.sampler.states[name]? = some (w name).state := by
    rw [h.sampler.states name hn, if_neg (by simp [ha, Ascent.stage])]
  refine divisor_context h.started (h.normalizer.ownershipError?_eq_none hn)
    (h.normalizer.getElem?_eq hn hview) hview (by simp [hsound.done, ha, Ascent.stage])
    (fun child hc => valid.mem_names_of_child hc) hstate ?_ ?_ hreceiver
  · rw [hregistered, hx]
    rfl
  · simp [SamplingState.isRoot, hsound.parent, hp]

/-- It does not matter which of two messages for a variable is handled first. -/
theorem handles_comm (h : a.Shows setup w agent) (hinv : w.Inv setup) (valid : setup.Valid)
    (hn : setup.problem.owner? name = some agent) {first second : Outgoing (Exact F)}
    (hfirst : w.Sends setup name first) (hsecond : w.Sends setup name second) (hne : first ≠ second) :
    inTurn (·.handle setup.problem first.message) (·.handle setup.problem second.message) a
      = inTurn (·.handle setup.problem second.message) (·.handle setup.problem first.message) a := by
  have hnames := Problem.mem_names_of_owner hn
  -- a view meets reports, a divisor a context, and answers meet answers; the stage rules out the rest
  cases hfirst with
  | view ha =>
    cases hsecond with
    | view _ => exact absurd rfl hne
    | range hp hc => exact h.view_and_range hinv valid hn hp ha hc
    | divisor _ hd => simp [ha] at hd
    | context hx => rcases hinv.ascent_of_asked valid hnames hx with ⟨_, hd⟩ | hd <;> simp [ha] at hd
    | cost hp hx =>
      obtain ⟨_, -, hbusy⟩ := hinv.busy_of_answered valid hp hx
      simpa [ha, Ascent.stage] using hbusy.stage
  | @range child hp hc =>
    have hgathering := hinv.gathering_of_reporting hp hc
    cases hsecond with
    | view ha => exact (h.view_and_range hinv valid hn hp ha hc).symm
    | @range child' hp' hc' =>
      have hother : child ≠ child' := by
        rintro rfl
        exact hne rfl
      exact h.ranges hinv valid hn hp hp' hother hc hc'
    | divisor _ hd => rcases hgathering with hg | hg <;> simp [hg] at hd
    | context hx =>
      rcases hinv.ascent_of_asked valid hnames hx with ⟨_, hd⟩ | hd <;>
        rcases hgathering with hg | hg <;> simp [hg] at hd
    | cost hp hx =>
      obtain ⟨_, -, hbusy⟩ := hinv.busy_of_answered valid hp hx
      have hs := hbusy.stage
      rcases hgathering with hg | hg <;> simp [hg, Ascent.stage] at hs
  | divisor _ hd =>
    cases hsecond with
    | view ha => simp [ha] at hd
    | range hp hc => rcases hinv.gathering_of_reporting hp hc with hg | hg <;> simp [hg] at hd
    | divisor _ hd' =>
      obtain rfl := Ascent.dividing.inj (hd.symm.trans hd')
      exact absurd rfl hne
    | context hx => exact h.divisor_and_context hinv valid hn hd hx
    | cost hp hx =>
      obtain ⟨_, -, hbusy⟩ := hinv.busy_of_answered valid hp hx
      simpa [hd, Ascent.stage] using hbusy.stage
  | context hx =>
    have hascent := hinv.ascent_of_asked valid hnames hx
    cases hsecond with
    | view ha => rcases hascent with ⟨_, hd⟩ | hd <;> simp [ha] at hd
    | range hp hc =>
      rcases hascent with ⟨_, hd⟩ | hd <;>
        rcases hinv.gathering_of_reporting hp hc with hg | hg <;> simp [hg] at hd
    | divisor _ hd => exact (h.divisor_and_context hinv valid hn hd hx).symm
    | context hx' =>
      obtain rfl := Exchange.asked.inj (hx.symm.trans hx')
      exact absurd rfl hne
    | cost hp hx' =>
      obtain ⟨_, hb, -⟩ := hinv.busy_of_answered valid hp hx'
      simp [hb] at hx
  | @cost child cost hp hx =>
    obtain ⟨_, hb, hbusy⟩ := hinv.busy_of_answered valid hp hx
    have hs := hbusy.stage
    cases hsecond with
    | view ha => simp [ha, Ascent.stage] at hs
    | range hp hc =>
      rcases hinv.gathering_of_reporting hp hc with hg | hg <;> simp [hg, Ascent.stage] at hs
    | divisor _ hd => simp [hd, Ascent.stage] at hs
    | context hx' => simp [hb] at hx'
    | @cost child' cost' hp' hx' =>
      have hother : child ≠ child' := by
        rintro rfl
        obtain rfl := Exchange.answered.inj (hx.symm.trans hx')
        exact hne rfl
      exact h.costs hinv valid hn hp hp' hother hx hx'

end Agent.Shows

end DcopSearch
