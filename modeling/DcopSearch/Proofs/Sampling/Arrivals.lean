import DcopSearch.Proofs.Network.Commuting
import DcopSearch.Proofs.Sampling.Calls

/-! The order in which messages come.  A context that comes before its variable has been normalized is
kept, and is taken over afterwards just as if it came then.  The reports of a round are added up, so that
they count the same in any order: nothing comes of them before the last one, and what comes of that
depends on all of them together.  The round is empty whenever no report has been received, since no other
call touches it. -/

namespace DcopSearch

open CostArithmetic

variable {K G : Type} [CostArithmetic K]

namespace Round

/-- The round in which these reports have come. -/
def ofReports (penalty : K) (reports : List (Option K)) : Round K where
  sum := total (reports.map (·.getD penalty))
  received := reports.length
  infeasible := reports.any Option.isNone

theorem foldl_add (penalty : K) (reports : List (Option K)) (round : Round K) :
    reports.foldl (fun round report => round.add penalty report) round
      = { sum := (reports.map (·.getD penalty)).foldl (· + ·) round.sum
          received := round.received + reports.length
          infeasible := round.infeasible || reports.any Option.isNone } := by
  induction reports generalizing round with
  | nil => simp
  | cons report rest ih =>
    rw [List.foldl_cons, ih]
    simp [Round.add, Nat.add_assoc, Nat.add_comm 1, Bool.or_assoc]

theorem foldl_add_empty (penalty : K) (reports : List (Option K)) :
    reports.foldl (fun round report => round.add penalty report) .empty
      = ofReports penalty reports := by
  rw [foldl_add]
  simp [Round.empty, ofReports, total]

/-- Reports that come in another order make the same round. -/
theorem ofReports_perm (horder : OrderFree K) (penalty : K) {reports other : List (Option K)}
    (h : other.Perm reports) : ofReports penalty other = ofReports penalty reports := by
  rw [ofReports, ofReports, horder.total_perm (h.map _), h.length_eq, h.any_eq]

end Round

variable [Generator G]

namespace SamplingState

variable {settings : SamplingSettings K} {problem : Problem K} {s t : SamplingState K}

omit [Generator G] in
theorem round_of_activate (h : s.activate settings = .ok t) : t.round = s.round := by
  unfold activate at h
  split at h
  · cases h
  · split at h
    · cases h
      rfl
    · obtain ⟨costs, -, rfl⟩ := exists_of_map_eq_ok h
      rfl

omit [Generator G] in
theorem round_of_solveLeaf {objective : Objective} {cost : Option K}
    (h : s.solveLeaf objective = .ok (cost, t)) : t.round = s.round := by
  obtain ⟨costs, -, heq⟩ := exists_of_map_eq_ok h
  cases heq
  rfl

theorem round_of_sample {generator : G} {sample : Sample K G}
    (h : s.sample settings generator = .ok sample) : sample.state.round = s.round := by
  unfold SamplingState.sample at h
  split at h
  · cases h
  · simp only at h
    split at h <;> (cases h; rfl)

theorem round_samplesOr (generator : G) {otherwise : SamplingState K → G → Reaction K G}
    (h : ∀ t generator, t.round = s.round → (otherwise t generator).state.round = s.round) :
    (s.samplesOr settings problem generator otherwise).state.round = s.round := by
  unfold samplesOr
  split
  · rfl
  next sample hsample =>
    have hround := round_of_sample hsample
    split
    · exact hround
    · exact h _ _ hround

theorem round_proceeds (generator : G) :
    (s.proceeds settings problem generator).state.round = s.round := by
  unfold proceeds
  split
  · exact (keeps_adoptLeader s).round
  · exact round_samplesOr generator fun _ _ hround => hround

omit [Generator G] in
theorem round_solves (generator : G) (final : Bool) :
    (s.solves settings problem generator final).state.round = s.round := by
  unfold solves
  split
  · rfl
  next cost t hsolved =>
    have hround := round_of_solveLeaf hsolved
    split <;> exact hround

theorem round_answers (generator : G) (final : Bool) :
    (s.answers settings problem generator final).state.round = s.round := by
  unfold answers
  split
  · exact round_solves generator final
  · split
    · rfl
    next t hactive =>
      have hround := round_of_activate hactive
      split
      · exact (round_proceeds generator).trans hround
      · exact (round_samplesOr generator fun _ _ hsampled => hsampled).trans hround

theorem round_takes (generator : G) (context : Context) :
    (s.takes settings problem generator context).state.round = s.round := by
  unfold takes
  split
  · exact round_answers generator context.final
  · rfl

/-- A context leaves the round as it is. -/
theorem round_onContext (generator : G) (context : Context) :
    (s.onContext settings problem generator context).state.round = s.round := by
  unfold SamplingState.onContext
  split <;> first | rfl | exact round_takes generator context

/-- Normalization leaves the round as it is. -/
theorem round_onNormalized (generator : G) (normalized : Normalized K) :
    (s.onNormalized settings problem generator normalized).state.round = s.round := by
  unfold SamplingState.onNormalized
  split
  · simp only
    split
    · exact round_answers generator true
    · split
      · rfl
      · exact round_onContext generator _
  · rfl

theorem round_joins (generator : G) (round : Round K) :
    (s.joins settings problem generator round).state.round = s.round := by
  cases hc : s.current with
  | none => simp only [joins, hc, fails]
  | some index =>
    cases hn : s.node? with
    | none => simp only [joins, hc, hn, fails]
    | some node =>
      rw [joins_eq hc hn]
      split
      · exact round_proceeds generator
      · rfl

/-- The round is empty as long as no report has been received. -/
def Fresh (s : SamplingState K) : Prop := s.round.received = 0 → s.round = .empty

omit [Generator G] in
theorem Fresh.congr (h : s.Fresh) (hround : t.round = s.round) : t.Fresh := by
  rw [Fresh, hround]
  exact h

theorem Fresh.onCost (h : s.Fresh) (generator : G) (cost : Option K) :
    (s.onCost settings problem generator cost).state.Fresh := by
  unfold SamplingState.onCost
  split
  · exact h
  · simp only
    split
    · intro hnone
      have hsome : s.round.received + 1 = 0 := hnone
      omega
    · exact fun _ => round_joins generator _

end SamplingState

namespace Sampler

variable {sampler next : Sampler K G} {name : String} {state : SamplingState K}
  {problem : Problem K}

/-- A context that comes before its variable has been normalized is taken over afterwards as if it came
then: nothing is sent before, and the sampling and what is sent in the end are the same. -/
theorem replays (problem : Problem K) (normalized : Normalized K) (context : Context)
    (hstate : sampler.states[normalized.name]? = some state)
    (hreceiver : context.receiver = normalized.name)
    (hphase : state.phase = .awaitingNormalization none) (hroot : state.isRoot = false) :
    ∃ kept ready : Sampler K G,
      sampler.handle problem (.context context) = (kept, .ok []) ∧
      sampler.onNormalized problem normalized = (ready, .ok []) ∧
      kept.onNormalized problem normalized = ready.handle problem (.context context) := by
  refine ⟨_, _, handle_context_of_early (hreceiver ▸ hstate) hphase,
    onNormalized_of_early hstate hphase hroot, ?_⟩
  rw [hreceiver, onNormalized_keeping hroot, ← hreceiver, handle_context_ready]

/-- The variable in the middle of the chain hears from its parent before it has been normalized. -/
theorem replays_chain :
    let sampler := (new "y" Problem.chain .severe 1 : Sampler (Exact ℚ) ChaCha.Stream).after
      [.register .chain "b" { parent := some "a", children := ["c"] }]
    let normalized : Normalized (Exact ℚ) := ⟨"b", ofNat 1, [], ["a"], 2⟩
    let context : Context := ⟨"a", "b", [("a", 1)], false⟩
    ∃ kept ready : Sampler (Exact ℚ) ChaCha.Stream,
      sampler.handle .chain (.context context) = (kept, .ok []) ∧
      sampler.onNormalized .chain normalized = (ready, .ok []) ∧
      kept.onNormalized .chain normalized = ready.handle .chain (.context context) := by
  have hearly : (((new "y" Problem.chain .severe 1 : Sampler (Exact ℚ) ChaCha.Stream).after
      [.register .chain "b" { parent := some "a", children := ["c"] }]).states["b"]?.any fun s =>
        s.phase == .awaitingNormalization none && !s.isRoot) = true := by
    decide +kernel
  obtain ⟨state, hstate, hearly⟩ := (Option.any_eq_true _ _).mp hearly
  simp only [Bool.and_eq_true, beq_iff_eq, Bool.not_eq_true'] at hearly
  exact replays .chain ⟨"b", ofNat 1, [], ["a"], 2⟩ ⟨"a", "b", [("a", 1)], false⟩ hstate rfl
    hearly.1 hearly.2

/-- The round of each variable is empty as long as no report has been received. -/
def Fresh (sampler : Sampler K G) : Prop :=
  ∀ (name : String) (s : SamplingState K), sampler.states[name]? = some s → s.Fresh

omit [Generator G] in
theorem Fresh.insert (h : sampler.Fresh) (hs : state.Fresh)
    (hstates : next.states = sampler.states.insert name state) : next.Fresh := by
  intro other t ht
  rw [hstates, Std.ExtTreeMap.getElem?_insert] at ht
  split at ht
  · obtain rfl := Option.some.inj ht
    exact hs
  · exact h other t ht

omit [Generator G] in
theorem Fresh.react (h : sampler.Fresh) {reaction : SamplingState K → Reaction K G}
    (hr : ∀ s : SamplingState K, s.Fresh → (reaction s).state.Fresh) :
    (sampler.react name reaction).1.Fresh := by
  unfold Sampler.react
  split
  · exact h
  next s hs => exact h.insert (hr s (h name s hs)) (absorb_frame sampler name (reaction s)).2

theorem Fresh.perform (h : sampler.Fresh) (call : Call K) : (sampler.perform call).Fresh := by
  cases call with
  | register problem name view =>
    simp only [Sampler.perform, register]
    split
    · exact h
    · split
      · exact h
      · exact h.insert (fun _ => rfl) rfl
  | normalized problem outcome =>
    exact h.react fun s hs => hs.congr (SamplingState.round_onNormalized sampler.generator outcome)
  | message problem message =>
    cases message with
    | context context =>
      exact h.react fun s hs => hs.congr (SamplingState.round_onContext sampler.generator context)
    | cost receiver cost => exact h.react fun s hs => hs.onCost sampler.generator cost
    | _ => exact h

theorem Fresh.after (h : sampler.Fresh) (calls : List (Call K)) : (sampler.after calls).Fresh := by
  induction calls generalizing sampler with
  | nil => exact h
  | cons call rest ih => exact ih (h.perform call)

theorem fresh_new (agent : String) (problem : Problem K) (config : Config K) (seed : UInt64) :
    (new agent problem config seed : Sampler K G).Fresh := by
  intro name s hs
  simp [new] at hs

/-- The sampling after messages in turn, and what came of each of them. -/
def handleEach (sampler : Sampler K G) (problem : Problem K) :
    List (Message K) → Sampler K G × List (Except AgentError (List (Outgoing K)))
  | [] => (sampler, [])
  | message :: rest =>
    let handled := sampler.handle problem message
    let others := handled.1.handleEach problem rest
    (others.1, handled.2 :: others.2)

/-- What comes of the reports that complete a round. -/
def join (sampler : Sampler K G) (problem : Problem K) (name : String) (state : SamplingState K)
    (round : Round K) : Sampler K G × Except AgentError (List (Outgoing K)) :=
  sampler.absorb name (SamplingState.joins { state with round := .empty } sampler.settings problem
    sampler.generator round)

theorem handle_cost_of_last (problem : Problem K) (hstate : sampler.states[name]? = some state)
    (hphase : state.phase = .sampling) (hleaf : state.isLeaf = false) (cost : Option K)
    (hlast : state.children.length ≤ state.round.received + 1) :
    sampler.handle problem (.cost name cost)
      = sampler.join problem name state (state.round.add state.penalty cost) := by
  simp only [handle, react, hstate, SamplingState.onCost_of_sampling hphase hleaf,
    if_neg (Nat.not_lt.mpr hlast)]
  rfl

/-- A report that has been counted does not matter to a join, which has a round of its own. -/
theorem join_setState (cost : Option K) (round : Round K) :
    (sampler.setState name (state.counting cost)).join problem name (state.counting cost) round
      = sampler.join problem name state round :=
  absorb_setState

/-- Nothing comes of the reports before the last one, and what comes of that is what comes of the round
they make. -/
theorem handleEach_costs (problem : Problem K) (hstate : sampler.states[name]? = some state)
    (hphase : state.phase = .sampling) (hleaf : state.isLeaf = false) (report : Option K)
    (rest : List (Option K))
    (hlength : state.round.received + 1 + rest.length = state.children.length) :
    let joined := sampler.join problem name state
      (rest.foldl (fun round report => round.add state.penalty report)
        (state.round.add state.penalty report))
    sampler.handleEach problem ((report :: rest).map (.cost name))
      = (joined.1, List.replicate rest.length (.ok []) ++ [joined.2]) := by
  induction rest generalizing sampler state report with
  | nil =>
    have hlast := handle_cost_of_last problem hstate hphase hleaf report
      (Nat.le_of_eq hlength.symm)
    simp only [List.map_cons, List.map_nil, handleEach, hlast]
    rfl
  | cons second others ih =>
    rw [List.length_cons] at hlength
    have hopen : sampler.handle problem (.cost name report)
        = (sampler.setState name (state.counting report), .ok []) :=
      handle_cost_of_open hstate hphase hleaf report (by omega)
    have hcounted : (state.counting report).round.received + 1 + others.length
        = state.children.length := by
      rw [show (state.counting report).round.received = state.round.received + 1 from rfl]
      omega
    have hself : (sampler.setState name (state.counting report)).states[name]?
        = some (state.counting report) := by
      simp [setState]
    have hnext := ih hself hphase hleaf second hcounted
    simp only [join_setState] at hnext
    rw [List.map_cons, handleEach, hopen]
    simp only [hnext, List.length_cons, List.replicate_succ, List.cons_append]
    rfl

/-- The reports to a variable that samples may come in any order.  If it has received none yet and there
is one for each child, then nothing is sent before the last one, and the sampling and what is sent in the
end, or the error, are those that the round of all of them leads to. -/
theorem joins_in_any_order (horder : OrderFree K) (agent : String) (problem : Problem K)
    (config : Config K) (seed : UInt64) (calls : List (Call K))
    (hstate : ((new agent problem config seed : Sampler K G).after calls).states[name]? = some state)
    (hphase : state.phase = .sampling) (hleaf : state.isLeaf = false)
    (hround : state.round.received = 0) (board : Problem K) {reports other : List (Option K)}
    (hlength : reports.length = state.children.length) (hperm : other.Perm reports) :
    let sampler := (new agent problem config seed : Sampler K G).after calls
    let joined := sampler.join board name state (.ofReports state.penalty reports)
    sampler.handleEach board (other.map (.cost name))
      = (joined.1, List.replicate (state.children.length - 1) (.ok []) ++ [joined.2]) := by
  have hempty : state.round = .empty :=
    (fresh_new agent problem config seed).after calls name state hstate hround
  have hother : other.length = state.children.length := hperm.length_eq.trans hlength
  cases other with
  | nil =>
    have hnil : state.children = [] := List.length_eq_zero_iff.mp hother.symm
    simp [SamplingState.isLeaf, hnil] at hleaf
  | cons report rest =>
    have hfold : rest.foldl (fun round report => round.add state.penalty report)
        (state.round.add state.penalty report) = .ofReports state.penalty reports := by
      rw [hempty, ← Round.ofReports_perm horder state.penalty hperm, ← Round.foldl_add_empty,
        List.foldl_cons]
    have heach := handleEach_costs board hstate hphase hleaf report rest
      (by rw [hround, ← hother, List.length_cons]; omega)
    rw [hfold] at heach
    rw [← hother, List.length_cons, Nat.add_sub_cancel]
    exact heach

/-- A root with two children becomes known and starts to sample. -/
def Call.forking : List (Call (Exact ℚ)) :=
  [.register .chain "a" { children := ["b", "c"] }, .normalized .chain ⟨"a", ofNat 1, [], [], 1⟩]

/-- The root with two children hears of the one that has a cost first. -/
theorem joins_in_any_order_fork :
    let sampler := (new "x" Problem.chain .severe 1 : Sampler (Exact ℚ) ChaCha.Stream).after
      Call.forking
    ∃ state, sampler.states["a"]? = some state ∧ state.children.length = 2 ∧
      let joined := sampler.join .chain "a" state (.ofReports state.penalty [none, some (ofNat 2)])
      sampler.handleEach .chain [.cost "a" (some (ofNat 2)), .cost "a" none]
        = (joined.1, [.ok [], joined.2]) := by
  have hready : (((new "x" Problem.chain .severe 1 : Sampler (Exact ℚ) ChaCha.Stream).after
      Call.forking).states["a"]?.any fun s => s.phase == .sampling && s.children == ["b", "c"]
        && s.round.received == 0) = true := by
    decide +kernel
  obtain ⟨state, hstate, hready⟩ := (Option.any_eq_true _ _).mp hready
  simp only [Bool.and_eq_true, beq_iff_eq] at hready
  obtain ⟨⟨hphase, hchildren⟩, hround⟩ := hready
  have hlength : state.children.length = 2 := by rw [hchildren]; rfl
  have hperm : [some (ofNat 2 : Exact ℚ), none].Perm [none, some (ofNat 2)] := List.Perm.swap _ _ _
  have hreports : [none, some (ofNat 2 : Exact ℚ)].length = state.children.length := hlength.symm
  refine ⟨state, hstate, hlength, ?_⟩
  have hjoins := joins_in_any_order Exact.orderFree "x" Problem.chain .severe 1 Call.forking hstate
    hphase (by simp [SamplingState.isLeaf, hchildren]) hround .chain hreports hperm
  rw [hlength] at hjoins
  exact hjoins

end Sampler

end DcopSearch
