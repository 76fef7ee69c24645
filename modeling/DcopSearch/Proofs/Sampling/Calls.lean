import DcopSearch.Proofs.Protocol.Refuted
import DcopSearch.Proofs.Sampling.Working
import DcopSearch.Random.ChaCha

/-! The sampling of an agent under calls of any kind and in any order, with any arguments and whether or
not they fail.  Each variable has one bandit node for each joint value of its slots that it has met, a
call changes the node that is active for its variable alone, and a value that was given up in a node is
never drawn there again. -/

namespace DcopSearch

open CostArithmetic

variable {K G : Type} [CostArithmetic K] [Generator G]

namespace Sampler

/-- A call from outside, which may be made for any problem. -/
inductive Call (K : Type) where
  | register (problem : Problem K) (name : String) (view : View)
  | normalized (problem : Problem K) (outcome : Normalized K)
  | message (problem : Problem K) (message : Message K)

/-- The variable that a call is for. -/
def Call.subject? : Call K → Option String
  | register _ name _ => some name
  | normalized _ outcome => some outcome.name
  | message _ (.context context) => some context.receiver
  | message _ (.cost receiver _) => some receiver
  | message _ _ => none

/-- The sampling after a call.  One that fails may still have changed it. -/
def perform (sampler : Sampler K G) : Call K → Sampler K G
  | .register problem name view => (sampler.register problem name view).toOption.getD sampler
  | .normalized problem outcome => (sampler.onNormalized problem outcome).1
  | .message problem message => (sampler.handle problem message).1

/-- The sampling after calls in turn. -/
def after (sampler : Sampler K G) (calls : List (Call K)) : Sampler K G :=
  calls.foldl perform sampler

/-- The bandit node of a variable for values of its slots. -/
def node? (sampler : Sampler K G) (name : String) (key : List Value) : Option (BanditNode K) :=
  sampler.states[name]?.bind fun s => s.index[key]?.bind (s.nodes[·]?)

/-- The index of the value that a call makes a variable give up. -/
def pruned? (sampler : Sampler K G) (call : Call K) (name : String) : Option Nat :=
  match call with
  | .message _ (.cost receiver cost) =>
    if name = receiver then sampler.states[receiver]?.bind (·.prunes sampler.settings cost) else none
  | _ => none

/-- The active node of a variable is the one for these values of its slots. -/
def Active (sampler : Sampler K G) (name : String) (key : List Value) : Prop :=
  ∃ s place, sampler.states[name]? = some s ∧ s.active = some place ∧ s.index[key]? = some place

/-- A call completes a round of reports, one of which is without a cost, and prunes the value of that
index in the node for these values of the slots. -/
def Prunes (sampler : Sampler K G) (call : Call K) (name : String) (key : List Value)
    (index : Nat) : Prop :=
  sampler.pruned? call name = some index ∧ sampler.Active name key

/-- One of the calls has pruned the value. -/
def HasPruned (first : Sampler K G) (calls : List (Call K)) (name : String) (key : List Value)
    (index : Nat) : Prop :=
  ∃ earlier call later, calls = earlier ++ call :: later ∧
    (first.after earlier).Prunes call name key index

/-- What the variables of an agent keep to. -/
def Files (before : String → List Value → Nat → Prop) (sampler : Sampler K G) : Prop :=
  ∀ (name : String) (s : SamplingState K), sampler.states[name]? = some s →
    s.Ledger sampler.settings.objective (before name) ∧ s.Held sampler.settings

/-- What a call makes of the variables. -/
structure Turns (before : String → List Value → Nat → Prop) (subject : Option String)
    (pruned : String → Option Nat) (sampler next : Sampler K G) : Prop where
  settings : next.settings = sampler.settings
  files : next.Files fun name key i =>
    before name key i ∨ pruned name = some i ∧ sampler.Active name key
  tends : ∀ (name : String) (s : SamplingState K), sampler.states[name]? = some s →
    ∃ t, next.states[name]? = some t ∧
      s.Tends sampler.settings.objective (before name) (pruned name) t ∧
      (subject ≠ some name → t = s)

variable {before : String → List Value → Nat → Prop} {sampler next : Sampler K G} {name : String}

omit [Generator G] in
theorem Files.mono {after : String → List Value → Nat → Prop} (h : sampler.Files before)
    (hle : ∀ name key i, before name key i → after name key i) : sampler.Files after :=
  fun name s hs => (h name s hs).imp_left fun hl => hl.mono (hle name)

omit [Generator G] in
/-- A call that changes nothing. -/
theorem Files.turns_same (h : sampler.Files before) (subject : Option String) :
    Turns before subject (fun _ => none) sampler sampler := by
  refine ⟨rfl, h.mono fun _ _ _ => .inl, fun name s hs => ⟨s, hs, ?_, fun _ => rfl⟩⟩
  exact (h name s hs).1.works_refl.tends (h name s hs).1

omit [Generator G] in
/-- One variable has changed. -/
theorem Files.turns_insert (h : sampler.Files before) {s t : SamplingState K} {pruned : Option Nat}
    (hs : sampler.states[name]? = some s)
    (ht : s.Tends sampler.settings.objective (before name) pruned t) (hh : t.Held sampler.settings)
    (hsettings : next.settings = sampler.settings)
    (hstates : next.states = sampler.states.insert name t) :
    Turns before (some name) (fun other => if other = name then pruned else none) sampler next := by
  have hself : next.states[name]? = some t := by simp [hstates]
  have hother : ∀ other, other ≠ name → next.states[other]? = sampler.states[other]? := by
    intro other hne
    simp [hstates, Std.ExtTreeMap.getElem?_insert, Ne.symm hne]
  refine ⟨hsettings, fun other u hu => ?_, fun other u hu => ?_⟩
  · rw [hsettings]
    by_cases he : other = name
    · subst he
      obtain rfl := Option.some.inj (hself.symm.trans hu)
      refine ⟨ht.ledger.mono fun key i hb => hb.imp_right ?_, hh⟩
      rintro ⟨hp, place, ha, hk⟩
      exact ⟨by simpa using hp, s, place, hs, ha, hk⟩
    · rw [hother other he] at hu
      exact (h other u hu).imp_left fun hl => hl.mono fun _ _ => .inl
  · by_cases he : other = name
    · subst he
      obtain rfl := Option.some.inj (hs.symm.trans hu)
      exact ⟨t, hself, by simpa using ht, fun hne => absurd rfl hne⟩
    · refine ⟨u, (hother other he).trans hu, ?_, fun _ => rfl⟩
      rw [if_neg he]
      exact (h other u hu).1.works_refl.tends (h other u hu).1

omit [CostArithmetic K] [Generator G] in
theorem absorb_frame (sampler : Sampler K G) (name : String) (reaction : Reaction K G) :
    (sampler.absorb name reaction).1.settings = sampler.settings ∧
      (sampler.absorb name reaction).1.states = sampler.states.insert name reaction.state := by
  unfold absorb
  simp only
  split
  · exact ⟨rfl, rfl⟩
  · simp only [settle]
    split <;> exact ⟨rfl, rfl⟩

omit [Generator G] in
theorem Files.react (h : sampler.Files before) {reaction : SamplingState K → Reaction K G}
    {pruned : Option Nat} (hr : ∀ s, sampler.states[name]? = some s →
      (reaction s).Tends sampler.settings (before name) pruned s) :
    Turns before (some name) (fun other => if other = name then pruned else none) sampler
      (sampler.react name reaction).1 := by
  unfold Sampler.react
  split
  next hnone =>
    obtain ⟨hsettings, hfiles, htends⟩ := h.turns_same (some name)
    refine ⟨hsettings, hfiles.mono fun _ _ _ hb => .inl (hb.resolve_right (by simp)),
      fun other s hs => ?_⟩
    have hne : other ≠ name := by
      rintro rfl
      rw [hnone] at hs
      cases hs
    rw [if_neg hne]
    exact htends other s hs
  next s hs =>
    obtain ⟨hsettings, hstates⟩ := absorb_frame sampler name (reaction s)
    exact h.turns_insert hs (hr s hs).tends (hr s hs).held hsettings hstates

omit [Generator G] in
/-- A variable whose place becomes known has no node yet. -/
theorem Files.register (h : sampler.Files before) {problem : Problem K} {view : View}
    (hnext : sampler.register problem name view = .ok next) :
    Turns before (some name) (fun _ => none) sampler next := by
  unfold Sampler.register at hnext
  split at hnext
  · cases hnext
  next hnew =>
    split at hnext
    · cases hnext
    next domain hdomain =>
      cases hnext
      have hnone : sampler.states[name]? = none := Std.ExtTreeMap.getElem?_eq_none (by simpa using hnew)
      refine ⟨rfl, fun other u hu => ?_, fun other u hu => ?_⟩
      · by_cases he : name = other
        · subst he
          obtain rfl : SamplingState.ofView sampler.settings name domain view = u := by simpa using hu
          exact ⟨SamplingState.ledger_ofView _ _ _ _, SamplingState.held_ofView _ _ _ _⟩
        · have hu : sampler.states[other]? = some u := by
            simpa [Std.ExtTreeMap.getElem?_insert, he] using hu
          exact (h other u hu).imp_left fun hl => hl.mono fun _ _ => .inl
      · have hne : name ≠ other := by
          rintro rfl
          rw [hnone] at hu
          cases hu
        refine ⟨u, ?_, (h other u hu).1.works_refl.tends (h other u hu).1, fun _ => rfl⟩
        simpa [Std.ExtTreeMap.getElem?_insert, hne] using hu

theorem Files.onNormalized (h : sampler.Files before) (problem : Problem K) (outcome : Normalized K) :
    Turns before (some outcome.name) (fun _ => none) sampler
      (sampler.onNormalized problem outcome).1 := by
  have hreact : Turns before (some outcome.name)
      (fun other => if other = outcome.name then none else none) sampler
      (sampler.onNormalized problem outcome).1 :=
    h.react fun s hs =>
      (h outcome.name s hs).1.onNormalized (h outcome.name s hs).2 sampler.generator outcome
  simpa only [ite_self] using hreact

/-- A context is answered, and a report credited, by the variable it is for. -/
theorem Files.handle (h : sampler.Files before) (problem : Problem K) (message : Message K)
    (hworst : isInfinite (sampler.settings.objective.worst : K) = true) :
    Turns before (Call.message problem message).subject?
      (sampler.pruned? (.message problem message)) sampler (sampler.handle problem message).1 := by
  cases message with
  | context context =>
    have hreact : Turns before (some context.receiver)
        (fun other => if other = context.receiver then none else none) sampler
        (sampler.handle problem (.context context)).1 :=
      h.react fun s hs =>
        (h context.receiver s hs).1.onContext (h context.receiver s hs).2 sampler.generator context
    simp only [ite_self] at hreact
    exact hreact
  | cost receiver cost =>
    refine h.react fun s hs => ?_
    rw [hs, Option.bind_some]
    exact (h receiver s hs).1.onCost (h receiver s hs).2 hworst sampler.generator cost
  | _ => exact h.turns_same none

/-- Every call keeps the files. -/
theorem Files.perform (h : sampler.Files before)
    (hworst : isInfinite (sampler.settings.objective.worst : K) = true) (call : Call K) :
    Turns before call.subject? (sampler.pruned? call) sampler (sampler.perform call) := by
  cases call with
  | register problem name view =>
    simp only [Sampler.perform]
    cases hnext : sampler.register problem name view with
    | error error => exact h.turns_same (some name)
    | ok next => exact h.register hnext
  | normalized problem outcome => exact h.onNormalized problem outcome
  | message problem message => exact h.handle problem message hworst

theorem files_new (agent : String) (problem : Problem K) (config : Config K) (seed : UInt64) :
    (new agent problem config seed : Sampler K G).Files before := by
  intro name s hs
  simp [new] at hs

theorem after_append (sampler : Sampler K G) (earlier later : List (Call K)) :
    sampler.after (earlier ++ later) = (sampler.after earlier).after later :=
  List.foldl_append

/-- After any calls the files are in order, as far as no value has been pruned. -/
theorem Files.after (h : sampler.Files fun _ _ _ => False)
    (hworst : isInfinite (sampler.settings.objective.worst : K) = true) (calls : List (Call K)) :
    (sampler.after calls).settings = sampler.settings ∧
      (sampler.after calls).Files (sampler.HasPruned calls) := by
  induction calls using List.reverseRecOn with
  | nil => exact ⟨rfl, h.mono fun _ _ _ hf => hf.elim⟩
  | append_singleton earlier call ih =>
    obtain ⟨hsettings, hfiles⟩ := ih
    have hturns := hfiles.perform (hsettings ▸ hworst) call
    rw [after_append]
    refine ⟨hturns.settings.trans hsettings, hturns.files.mono fun name key i hb => ?_⟩
    rcases hb with ⟨before, pruning, rest, rfl, hpruned⟩ | hpruned
    · exact ⟨before, pruning, rest ++ [call], by simp, hpruned⟩
    · exact ⟨earlier, call, [], rfl, hpruned⟩

/-- The files after calls in turn, and what further calls change in them. -/
structure Isolated (first : Sampler K G) (calls : List (Call K)) : Prop where
  /-- Each variable has one node for each joint value of its slots that it has met.  The costs in it are
  the sums of its spaces there, but the worst cost for a value that has been pruned. -/
  filed : ∀ (name : String) (s : SamplingState K), (first.after calls).states[name]? = some s →
    s.Filed first.settings.objective (first.HasPruned calls name)
  /-- A call leaves each node of each variable as it is and where it is filed, unless the call is for
  the variable and the node is the active one. -/
  kept : ∀ (call : Call K) (name : String) (s : SamplingState K),
    (first.after calls).states[name]? = some s →
      ∃ t, ((first.after calls).perform call).states[name]? = some t ∧
        (∀ (key : List Value) (place : Nat), s.index[key]? = some place → t.index[key]? = some place) ∧
        ∀ (place : Nat) (node : BanditNode K), s.nodes[place]? = some node →
          t.nodes[place]? = some node ∨ call.subject? = some name ∧ t.active = some place

/-- The nodes of different contexts are kept apart, whatever the sampling of an agent is called for. -/
theorem isolated_new (hworst : ∀ objective : Objective, isInfinite (objective.worst : K) = true)
    (agent : String) (problem : Problem K) (config : Config K) (seed : UInt64)
    (calls : List (Call K)) :
    Isolated (new agent problem config seed : Sampler K G) calls := by
  have hnew : (new agent problem config seed : Sampler K G).Files fun _ _ _ => False :=
    files_new agent problem config seed
  generalize (new agent problem config seed : Sampler K G) = first at hnew ⊢
  obtain ⟨hsettings, hfiles⟩ := hnew.after (hworst _) calls
  refine ⟨fun name s hs => ?_, fun call name s hs => ?_⟩
  · rw [← hsettings]
    exact (hfiles name s hs).1.toFiled
  · obtain ⟨t, ht, htends, hother⟩ := (hfiles.perform (hworst _) call).tends name s hs
    refine ⟨t, ht, htends.index, fun place node hp => ?_⟩
    by_cases hsubject : call.subject? = some name
    · by_cases hactive : t.active = some place
      · exact .inr ⟨hsubject, hactive⟩
      · exact .inl (htends.others place node hp hactive)
    · rw [hother hsubject]
      exact .inl hp

open Exact in
/-- The variable in the middle of the chain samples while the one before it has its first value, and
again while that has the other one. -/
def Call.visiting : List (Call (Exact ℚ)) :=
  let context (value : Value) : Call (Exact ℚ) :=
    .message .chain (.context ⟨"a", "b", [("a", value)], false⟩)
  [.register .chain "b" { parent := some "a", children := ["c"] },
    .normalized .chain ⟨"b", number 1, Problem.chain.spaces.take 1, ["a"], 2⟩,
    context 0, .message .chain (.cost "b" none), context 1, .message .chain (.cost "b" (some (number 2)))]

open Exact in
/-- The value that is given up where the variable before it has its first value is not given up in the
other node. -/
theorem isolated_chain :
    let first : Sampler (Exact ℚ) ChaCha.Stream := new "y" Problem.chain .severe 1
    let last := first.after Call.visiting
    Isolated first Call.visiting ∧ last.nodeCount "b" = 2 ∧
      (last.node? "b" [0]).map BanditNode.costs = some [high, number 0] ∧
      (last.node? "b" [1]).map BanditNode.costs = some [number 5, number 5] := by
  refine ⟨isolated_new Exact.isInfinite_worst "y" Problem.chain .severe 1 Call.visiting, ?_⟩
  decide +kernel

/-- The node of a value that is out of play stays, and the value is not drawn in it. -/
theorem Files.bars_after (h : sampler.Files before)
    (hworst : ∀ objective : Objective, isInfinite (objective.worst : K) = true)
    {key : List Value} {node : BanditNode K} {index : Nat} (hn : sampler.node? name key = some node)
    (hb : node.Bars index) (calls : List (Call K)) :
    ∃ last n, (sampler.after calls).node? name key = some last ∧ last.Steady n ∧ last.Bars index ∧
      last.visits index = node.visits index := by
  induction calls generalizing sampler before node with
  | nil =>
    obtain ⟨s, hs, hk⟩ := Option.bind_eq_some_iff.mp hn
    obtain ⟨place, -, hp⟩ := Option.bind_eq_some_iff.mp hk
    exact ⟨node, _, hn, ((h name s hs).1.steady node (List.mem_of_getElem? hp)).1, hb, rfl⟩
  | cons call rest ih =>
    have hturns := h.perform (hworst _) call
    obtain ⟨s, hs, hk⟩ := Option.bind_eq_some_iff.mp hn
    obtain ⟨place, hindex, hp⟩ := Option.bind_eq_some_iff.mp hk
    obtain ⟨t, ht, htends, -⟩ := hturns.tends name s hs
    obtain ⟨later, hl, hages⟩ := htends.ages place node hp
    obtain ⟨hbars, hvisits⟩ := hages.bars index (.inl hb)
    have hlater : (sampler.perform call).node? name key = some later := by
      rw [Sampler.node?, ht, Option.bind_some, htends.index key place hindex]
      exact hl
    obtain ⟨last, n, hlast, hsteady, hbarred, hsame⟩ := ih hturns.files hlater hbars
    exact ⟨last, n, hlast, hsteady, hbarred, hsame.trans hvisits⟩

/-- A value that was pruned in a node is never drawn there again.  From before the call that prunes it
to after whatever calls follow, no visit of it is counted; it is infeasible, it is neither the leading
value of the node nor the next one, and no method chooses it, by whatever chance. -/
theorem stays_pruned (hworst : ∀ objective : Objective, isInfinite (objective.worst : K) = true)
    (agent : String) (problem : Problem K) (config : Config K) (seed : UInt64)
    (earlier : List (Call K)) (call : Call K) (later : List (Call K)) {name : String}
    {key : List Value} {index : Nat}
    (hpruned : ((new agent problem config seed : Sampler K G).after earlier).Prunes call name key index) :
    ∃ node last,
      ((new agent problem config seed : Sampler K G).after earlier).node? name key = some node ∧
      ((new agent problem config seed : Sampler K G).after (earlier ++ call :: later)).node? name key
        = some last ∧
      last.visits index = node.visits index ∧ last.isFeasible index = false ∧
      (∀ score, last.leader ≠ some (index, score) ∧ last.next ≠ some (index, score)) ∧
      ∀ (H : Type) [Generator H] (method : SamplingMethod) (generator : H),
        (last.draw method generator).chosen ≠ some index := by
  have hnew : (new agent problem config seed : Sampler K G).Files fun _ _ _ => False :=
    files_new agent problem config seed
  generalize (new agent problem config seed : Sampler K G) = first at hnew hpruned ⊢
  obtain ⟨-, hfiles⟩ := hnew.after (hworst _) earlier
  obtain ⟨hindex, s, place, hs, hactive, hk⟩ := hpruned
  have hplace := (hfiles name s hs).1.active place hactive
  have hp : s.nodes[place]? = some s.nodes[place] := List.getElem?_eq_getElem hplace
  have hturns := hfiles.perform (hworst _) call
  obtain ⟨t, ht, htends, -⟩ := hturns.tends name s hs
  obtain ⟨credited, hc, hages⟩ := htends.ages place _ hp
  rw [if_pos hactive, hindex] at hages
  -- from here on the value is barred, which every later call keeps
  obtain ⟨hbars, hvisits⟩ := hages.bars index (.inr rfl)
  have hcredited : ((first.after earlier).perform call).node? name key = some credited := by
    rw [Sampler.node?, ht, Option.bind_some, htends.index key place hk]
    exact hc
  obtain ⟨last, n, hlast, hsteady, hbarred, hsame⟩ :=
    hturns.files.bars_after hworst hcredited hbars later
  refine ⟨s.nodes[place], last, ?_, ?_, hsame.trans hvisits, hbarred.infeasible,
    hsteady.not_named hbarred, fun H _ method generator => hsteady.chosen_ne hbarred method generator⟩
  · rw [Sampler.node?, hs, Option.bind_some, hk]
    exact hp
  · rw [after_append]
    exact hlast

/-- The first variable of the chain becomes known and starts to sample. -/
def Call.opening : List (Call (Exact ℚ)) :=
  [.register .chain "a" { children := ["b"] }, .normalized .chain ⟨"a", ofNat 1, [], [], 1⟩]

/-- The value that the first variable of the chain has drawn is reported to be infeasible. -/
theorem prunes_opening :
    ((new "x" Problem.chain .severe 1 : Sampler (Exact ℚ) ChaCha.Stream).after Call.opening).Prunes
      (.message .chain (.cost "a" none)) "a" [] 1 := by
  refine ⟨by decide +kernel, ?_⟩
  have hactive : (((new "x" Problem.chain .severe 1 : Sampler (Exact ℚ) ChaCha.Stream).after
      Call.opening).states["a"]?.any fun s => s.active == some 0 && s.index[([] : List Value)]? == some 0)
        = true := by
    decide +kernel
  obtain ⟨s, hs, hactive⟩ := (Option.any_eq_true _ _).mp hactive
  simp only [Bool.and_eq_true, beq_iff_eq] at hactive
  exact ⟨s, 0, hs, hactive⟩

/-- The first variable of the chain does not draw the value again, of which it has been told that it is
infeasible, when it hears of the other one. -/
theorem stays_pruned_chain : ∃ node last,
    ((new "x" Problem.chain .severe 1 : Sampler (Exact ℚ) ChaCha.Stream).after Call.opening).node? "a" []
      = some node ∧
    ((new "x" Problem.chain .severe 1 : Sampler (Exact ℚ) ChaCha.Stream).after (Call.opening ++
      [.message .chain (.cost "a" none), .message .chain (.cost "a" (some (ofNat 2)))])).node? "a" []
      = some last ∧
    last.visits 1 = node.visits 1 ∧ last.isFeasible 1 = false ∧
    (∀ score, last.leader ≠ some (1, score) ∧ last.next ≠ some (1, score)) ∧
    ∀ (H : Type) [Generator H] (method : SamplingMethod) (generator : H),
      (last.draw method generator).chosen ≠ some 1 :=
  stays_pruned Exact.isInfinite_worst "x" Problem.chain .severe 1 Call.opening
    (.message .chain (.cost "a" none)) [.message .chain (.cost "a" (some (ofNat 2)))] prunes_opening

end Sampler

end DcopSearch
