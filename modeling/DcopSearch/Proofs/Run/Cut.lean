import DcopSearch.Proofs.Run.Solved

/-! What a limit on messages makes of a run along simulated clocks.  The run takes the same course as
without the limit, and is stopped only if messages are left when the limit is reached; the values that
have been reported by then are those that the whole run reports, since no variable is reported twice. -/

namespace DcopSearch

open Outgoing

variable {K G : Type} [CostArithmetic K] [Generator G]

namespace Simulation

variable {outOfTime : Nat → Bool} {simulation next last : Simulation K G} {event : Event K}
  {queue : Timeline K} {events : List (Event K)} {limit : Nat}

/-- What a run does with the next message, if nothing stops it. -/
theorem run_succ (hq : simulation.queue = event :: queue) (htime : simulation.isUp outOfTime = false)
    (hd : deliver { simulation with queue } event = .ok next) (limit : Nat) :
    simulation.run outOfTime (limit + 1)
        = (if next.isOver event then .ok next else next.run outOfTime limit) ∧
      simulation.delivered outOfTime (limit + 1)
        = event :: if next.isOver event then [] else next.delivered outOfTime limit := by
  rw [isUp] at htime
  constructor
  · rw [run, hq]
    simp only [htime, hd]
    rfl
  · rw [delivered, hq]
    simp only [htime, hd]
    rfl

/-- Every delivery is counted, and none stops the run. -/
theorem Delivers.counts (h : simulation.Delivers events last) :
    last.statistics.messages = simulation.statistics.messages + events.length ∧
      last.statistics.timedOut = simulation.statistics.timedOut := by
  induction h with
  | nil => exact ⟨rfl, rfl⟩
  | @cons simulation next last event queue events hq hd _ ih =>
    have hstatistics : next.statistics = simulation.statistics.record event.outgoing.message.kind := by
      obtain ⟨team, sent, -, rfl⟩ := exists_of_deliver hd
      rfl
    rw [ih.1, ih.2, hstatistics]
    refine ⟨?_, rfl⟩
    show simulation.statistics.messages + 1 + events.length = _
    rw [List.length_cons]
    omega

namespace Finishes

/-- A limit that leaves room for all deliveries does not matter. -/
theorem run_of_le (h : simulation.Finishes outOfTime events last) (hle : events.length ≤ limit) :
    simulation.run outOfTime limit = .ok last ∧ simulation.delivered outOfTime limit = events := by
  induction h generalizing limit with
  | emptied hq hall =>
    constructor
    · cases limit <;> rw [run, hq] <;> exact if_pos hall
    · cases limit <;> rw [delivered, hq]
  | ends hq htime hd hover =>
    obtain ⟨limit, rfl⟩ := Nat.exists_eq_add_of_le' hle
    obtain ⟨hrun, hdelivered⟩ := run_succ hq htime hd limit
    rw [if_pos hover] at hrun hdelivered
    exact ⟨hrun, hdelivered⟩
  | continues hq htime hd hover _ ih =>
    cases limit with
    | zero => cases hle
    | succ limit =>
      obtain ⟨hrun, hdelivered⟩ := run_succ hq htime hd limit
      obtain ⟨hrest, hevents⟩ := ih (Nat.le_of_succ_le_succ hle)
      rw [hover, if_neg Bool.false_ne_true] at hrun hdelivered
      exact ⟨hrun.trans hrest, hdelivered.trans (congrArg _ hevents)⟩

/-- A limit that leaves deliveries over stops the run on its way. -/
theorem run_of_lt (h : simulation.Finishes outOfTime events last) (hlt : limit < events.length) :
    simulation.delivered outOfTime limit = events.take limit ∧
      ∃ cut, simulation.run outOfTime limit = .ok cut.stop ∧
        simulation.Delivers (events.take limit) cut ∧ cut.Delivers (events.drop limit) last := by
  induction h generalizing limit with
  | emptied hq hall => cases hlt
  | ends hq htime hd hover =>
    obtain rfl : limit = 0 := Nat.lt_one_iff.mp hlt
    exact ⟨by rw [delivered, hq]; rfl, _, by rw [run, hq], .nil _, .cons hq hd (.nil _)⟩
  | continues hq htime hd hover h ih =>
    cases limit with
    | zero =>
      exact ⟨by rw [delivered, hq]; rfl, _, by rw [run, hq], .nil _, .cons hq hd h.toDelivers⟩
    | succ limit =>
      obtain ⟨hrun, hdelivered⟩ := run_succ hq htime hd limit
      obtain ⟨hevents, cut, hcut, hfirst, hrest⟩ := ih (Nat.lt_of_succ_lt_succ hlt)
      rw [hover, if_neg Bool.false_ne_true] at hrun hdelivered
      exact ⟨hdelivered.trans (congrArg _ hevents), cut, hrun.trans hcut, .cons hq hd hfirst, hrest⟩

end Finishes

end Simulation

omit [CostArithmetic K] [Generator G] in
/-- What was reported first is what is reported in the end, since no variable is reported twice. -/
theorem Team.Truthful.assignments_of_append {problem : Problem K} {team later : Team K G}
    {journal after : Journal K} {rest : List (Outgoing K)} {clock : String → Nat}
    (h : team.Truthful problem journal) (hlater : later.Truthful problem after)
    (hkept : after.Kept clock) (hrest : after.deliveries = journal.deliveries ++ rest)
    {name : String} {value : Value} (hv : team.collector.assignments[name]? = some value) :
    later.collector.assignments[name]? = some value := by
  obtain ⟨report, hreport, hm⟩ := h.collector.values name value hv
  have hreport : report ∈ after.deliveries := hrest ▸ List.mem_append_left _ hreport
  have hassigns : report.message.assigns? = some name := by rw [hm]; rfl
  have hcount : later.collector.reports[name]?.getD 0 ≠ 0 := by
    rw [hlater.collector.reports]
    exact (List.count_pos_iff.mpr (List.mem_filterMap.mpr ⟨report, hreport, hassigns⟩)).ne'
  obtain ⟨last, hlast⟩ := Option.isSome_iff_exists.mp (hlater.collector.valued name hcount)
  obtain ⟨other, hother, hm'⟩ := hlater.collector.values name last hlast
  have hassigns' : other.message.assigns? = some name := by rw [hm']; rfl
  have honce := hlater.count_le_one hkept name
  rw [assigned, List.count_filterMap, List.countP_eq_length_filter] at honce
  have hreports : ∀ outgoing ∈ after.deliveries, outgoing.message.assigns? = some name →
      outgoing ∈ after.deliveries.filter fun outgoing => outgoing.message.assigns? == some name :=
    fun outgoing ho ha => List.mem_filter.mpr ⟨ho, by rw [ha]; exact BEq.rfl⟩
  have hsame : report = other := by
    have hfirst := hreports report hreport hassigns
    have hsecond := hreports other hother hassigns'
    cases hfound : after.deliveries.filter fun outgoing => outgoing.message.assigns? == some name with
    | nil => simp [hfound] at hfirst
    | cons only more =>
      obtain rfl : more = [] := by simpa [hfound] using honce
      rw [hfound] at hfirst hsecond
      exact (List.mem_singleton.mp hfirst).trans (List.mem_singleton.mp hsecond).symm
  rw [hsame, hm'] at hm
  cases hm
  exact hlast

/-- A value that has been reported stays, whatever is delivered later. -/
theorem Simulation.Delivers.assignments {problem : Problem K} (wf : problem.WellFormed)
    {config : Config K} {seed : UInt64} {messages : List (Outgoing K)} {cut last : Simulation K G}
    {events rest : List (Event K)} (hletters : ∀ outgoing ∈ messages, outgoing.message.isResult = false)
    (hfirst : (Simulation.new (.new problem config seed) messages).Delivers events cut)
    (hrest : cut.Delivers rest last) {name : String} {value : Value}
    (hv : cut.team.collector.assignments[name]? = some value) :
    last.team.collector.assignments[name]? = some value := by
  obtain ⟨journal, hcourse, -⟩ := hfirst.exists_course .start
  obtain ⟨after, hlast, hevents⟩ := hrest.exists_course hcourse
  have hdeliveries : after.deliveries = journal.deliveries ++ rest.map Event.outgoing := by
    rw [after.deliveries_eq, hevents, List.map_append, journal.deliveries_eq]
  exact (hcourse.truthful wf hletters).assignments_of_append (hlast.truthful wf hletters)
    hlast.kept.1 hdeliveries hv

def Config.limitedTo (config : Config K) (limit : Nat) : Config K :=
  { config with maxMessages := some limit }

namespace Problem

/-- The events that a run along simulated clocks delivers, in turn. -/
def delivered (G : Type) [Generator G] (problem : Problem K) (tree : PseudoTree) (config : Config K)
    (seed : UInt64) (clock : Nat → Nat) : List (Event K) :=
  match firstMessages problem tree with
  | .error _ => []
  | .ok messages =>
    (Simulation.new (.new problem config seed : Team K G) messages).delivered
      (config.isOutOfTime clock) config.messageLimit

variable {problem : Problem K} {tree : PseudoTree} {config : Config K} {messages : List (Outgoing K)}

/-- Without a timeout the time is never up, whatever the clock tells. -/
theorem solveWith_eq (hbackend : config.backend = .simulated) (htimeout : config.timeout = none)
    (hfirst : firstMessages problem tree = .ok messages) (seed : UInt64) (clock : Nat → Nat) :
    problem.solveWith G tree config seed clock
        = ((Simulation.new (.new problem config seed : Team K G) messages).run (fun _ => false)
            config.messageLimit).map (fun final => .ofTeam final.team final.statistics) ∧
      problem.delivered G tree config seed clock
        = (Simulation.new (.new problem config seed : Team K G) messages).delivered (fun _ => false)
            config.messageLimit := by
  have hnever : config.isOutOfTime clock = fun _ => false := by
    funext count
    rw [Config.isOutOfTime, htimeout]
    rfl
  constructor
  · simp only [solveWith, hfirst, hbackend, hnever]
  · simp only [delivered, hfirst, hnever]

/-- A run that is completed is the same under a limit that it does not pass.  Under a lower limit the
run is stopped after as many of the same deliveries, and every value that has been reported by then is
the one that is reported in the end. -/
theorem cuts_short (built : problem.Built) (tree : PseudoTree) (config : Config K)
    (hbackend : config.backend = .simulated) (htimeout : config.timeout = none) (seed : UInt64)
    (clock clock' : Nat → Nat) {solution : Solution K}
    (h : problem.solveWith G tree config seed clock = .ok solution)
    (hcompleted : solution.outcome = .completed) (limit : Nat) :
    (problem.delivered G tree config seed clock).length = solution.statistics.messages ∧
    (solution.statistics.messages ≤ limit →
      problem.solveWith G tree (config.limitedTo limit) seed clock' = .ok solution ∧
      problem.delivered G tree (config.limitedTo limit) seed clock'
        = problem.delivered G tree config seed clock) ∧
    (limit < solution.statistics.messages → ∃ stopped,
      problem.solveWith G tree (config.limitedTo limit) seed clock' = .ok stopped ∧
      stopped.outcome = .timedOut ∧ stopped.statistics.messages = limit ∧
      problem.delivered G tree (config.limitedTo limit) seed clock'
        = (problem.delivered G tree config seed clock).take limit ∧
      ∀ (name : String) (value : Value), stopped.assignments[name]? = some value →
        solution.assignments[name]? = some value) := by
  obtain ⟨messages, hfirst⟩ : ∃ messages, firstMessages problem tree = .ok messages := by
    cases hfirst : firstMessages problem tree with
    | ok messages => exact ⟨messages, rfl⟩
    | error error => simp [solveWith, hfirst] at h
  -- the limit is no matter to the agents, so both runs begin alike
  let begun : Simulation K G := .new (.new problem config seed) messages
  obtain ⟨hsolve, hdelivered⟩ := solveWith_eq (G := G) hbackend htimeout hfirst seed clock
  obtain ⟨hlimited, hcut⟩ : problem.solveWith G tree (config.limitedTo limit) seed clock'
        = (begun.run (fun _ => false) limit).map
            (fun final => .ofTeam final.team final.statistics) ∧
      problem.delivered G tree (config.limitedTo limit) seed clock'
        = begun.delivered (fun _ => false) limit :=
    solveWith_eq (show (config.limitedTo limit).backend = .simulated from hbackend)
      (show (config.limitedTo limit).timeout = none from htimeout) hfirst seed clock'
  rw [hsolve] at h
  obtain ⟨final, hrun, rfl⟩ := exists_of_map_eq_ok h
  have hfinal := Solution.timedOut_of_completed hcompleted
  obtain ⟨events, hfinishes⟩ := Simulation.exists_finishes hrun hfinal
  have hmessages : final.statistics.messages = events.length :=
    hfinishes.toDelivers.counts.1.trans (Nat.zero_add _)
  have hroom : events.length ≤ config.messageLimit := by
    by_contra hlt
    obtain ⟨-, cut, hstopped, -⟩ := hfinishes.run_of_lt (not_le.mp hlt)
    rw [hrun] at hstopped
    obtain rfl := Except.ok.inj hstopped
    cases hfinal
  rw [hlimited, hcut, hdelivered, (hfinishes.run_of_le hroom).2]
  refine ⟨hmessages.symm, fun hle => ?_, fun hlt => ?_⟩
  · obtain ⟨hsame, hevents⟩ := hfinishes.run_of_le (hmessages ▸ hle)
    exact ⟨congrArg _ hsame, hevents⟩
  · have hlt : limit < events.length := hmessages ▸ hlt
    obtain ⟨hevents, cut, hstopped, hbefore, hafter⟩ := hfinishes.run_of_lt hlt
    refine ⟨_, congrArg _ hstopped, rfl, ?_, hevents, fun name value hv => ?_⟩
    · have hcount := hbefore.counts.1
      rw [List.length_take_of_le hlt.le] at hcount
      exact hcount.trans (Nat.zero_add _)
    · exact hbefore.assignments built.wellFormed (isResult_of_firstMessages hfirst) hafter hv

end Problem

/-- The chain takes twenty-eight messages; after twenty-five of them two values have been reported. -/
theorem Problem.cuts_short_chain : ∃ solution stopped : Solution (Exact ℚ),
    Problem.chain.solveWith ChaCha.Stream (.generate .chain) .content 1 (fun _ => 0)
      = .ok solution ∧ solution.outcome = .completed ∧ solution.statistics.messages = 28 ∧
    Problem.chain.solveWith ChaCha.Stream (.generate .chain) (Config.content.limitedTo 28) 1
      (fun _ => 0) = .ok solution ∧
    Problem.chain.solveWith ChaCha.Stream (.generate .chain) (Config.content.limitedTo 25) 1
      (fun _ => 0) = .ok stopped ∧ stopped.outcome = .timedOut ∧ stopped.statistics.messages = 25 ∧
    Problem.chain.delivered ChaCha.Stream (.generate .chain) (Config.content.limitedTo 25) 1
        (fun _ => 0)
      = (Problem.chain.delivered ChaCha.Stream (.generate .chain) .content 1 (fun _ => 0)).take 25 ∧
    ∀ (name : String) (value : Value), stopped.assignments[name]? = some value →
      solution.assignments[name]? = some value := by
  have hany : (Problem.chain.solveWith (K := Exact ℚ) ChaCha.Stream (.generate .chain) .content 1
      fun _ => 0).toOption.any fun solution =>
        decide (solution.outcome = .completed ∧ solution.statistics.messages = 28) := by
    decide +kernel
  obtain ⟨solution, hsolution, hends⟩ := exists_of_any hany
  obtain ⟨hcompleted, hmessages⟩ := of_decide_eq_true hends
  have hcut := Problem.cuts_short Problem.built_chain (.generate .chain) .content rfl rfl 1
    (fun _ => 0) (fun _ => 0) hsolution hcompleted
  obtain ⟨-, hsame, -⟩ := hcut 28
  obtain ⟨-, -, hstopped⟩ := hcut 25
  obtain ⟨stopped, hrun, houtcome, hcount, hdelivered, hvalues⟩ := hstopped (by omega)
  exact ⟨solution, stopped, hsolution, hcompleted, hmessages, (hsame hmessages.le).1, hrun, houtcome,
    hcount, hdelivered, hvalues⟩

end DcopSearch
