import DcopSearch.Proofs.Network.Reckoned
import DcopSearch.Proofs.Run.Backends
import Mathlib.Algebra.BigOperators.Group.Finset.Piecewise

/-! The counts of a run that has delivered everything.  They add up, kind by kind, to the messages of
the run, and each of them is known from the problem and its tree, but for the requests and the bounds:
there are as many answers as requests, and no more bounds than roots that have children. -/

namespace DcopSearch

open World

variable {K G : Type}

namespace Statistics

variable {statistics : Statistics} {kind other : String}

/-- The counts of the kinds add up to the number of messages. -/
def Total (statistics : Statistics) : Prop :=
  statistics.messages = (statistics.perKind.toList.map Prod.snd).sum

theorem sum_perKind (statistics : Statistics) : (statistics.perKind.toList.map Prod.snd).sum
    = ∑ kind ∈ statistics.perKind.keys.toFinset, statistics.count kind := by
  rw [List.sum_toFinset _ Std.ExtTreeMap.nodup_keys, ← Std.ExtTreeMap.map_fst_toList_eq_keys,
    List.map_map]
  refine congrArg _ (List.map_congr_left fun ⟨kind, number⟩ hm => ?_)
  have hget : statistics.perKind[kind]? = some number := by simpa using hm
  simp [count, hget]

theorem total_empty : empty.Total := rfl

theorem Total.add (h : statistics.Total) (kind : String) (number : Nat) :
    (statistics.add kind number).Total := by
  have hkeys : (statistics.add kind number).perKind.keys.toFinset
      = insert kind statistics.perKind.keys.toFinset := by
    ext other
    rw [List.mem_toFinset, Finset.mem_insert, List.mem_toFinset, Std.ExtTreeMap.mem_keys,
      Std.ExtTreeMap.mem_keys, Statistics.add, Std.ExtTreeMap.mem_insert,
      Std.LawfulEqCmp.compare_eq_iff_eq, eq_comm]
  have hnew : kind ∉ statistics.perKind.keys.toFinset → statistics.count kind = 0 := by
    intro hn
    rw [List.mem_toFinset, Std.ExtTreeMap.mem_keys] at hn
    simp [count, hn]
  unfold Total at h ⊢
  rw [sum_perKind, hkeys]
  calc statistics.messages + number
      = ∑ other ∈ statistics.perKind.keys.toFinset, statistics.count other + number := by
        rw [h, sum_perKind]
    _ = ∑ other ∈ insert kind statistics.perKind.keys.toFinset, statistics.count other + number := by
        rw [Finset.sum_insert_of_eq_zero_if_notMem hnew]
    _ = ∑ other ∈ insert kind statistics.perKind.keys.toFinset,
          (statistics.add kind number).count other := by
        simp only [count_add, Finset.sum_add_distrib, Finset.sum_ite_eq, Finset.mem_insert_self,
          if_true]

theorem Total.record (h : statistics.Total) (kind : String) : (statistics.record kind).Total :=
  h.add kind 1

theorem Total.recordAll (h : statistics.Total) (messages : List (Outgoing K)) :
    (statistics.recordAll messages).Total := by
  induction messages generalizing statistics with
  | nil => exact h
  | cons outgoing rest ih => exact ih (h.record outgoing.message.kind)

theorem count_recordAll (statistics : Statistics) (messages : List (Outgoing K)) (kind : String) :
    (statistics.recordAll messages).count kind
      = statistics.count kind + messages.countP (fun outgoing => outgoing.message.kind = kind) := by
  induction messages generalizing statistics with
  | nil => rfl
  | cons outgoing rest ih =>
    rw [recordAll, List.foldl_cons, ← recordAll, ih, record, count_add, List.countP_cons]
    by_cases h : outgoing.message.kind = kind <;> simp [h]
    omega

end Statistics

/-- The counts of a run that has delivered everything. -/
structure Setup.Counted (setup : Setup K) (statistics : Statistics) : Prop where
  costs : statistics.count "COST" = statistics.count "VALUE"
  /-- One for every variable but the roots. -/
  ranges : statistics.count "BOUND" + setup.roots.length = setup.problem.names.length
  divisors : statistics.count "NORM" + setup.roots.length = setup.problem.names.length
  finals : statistics.count "VALUE_FINAL" + setup.roots.length = setup.problem.names.length
  views : statistics.count "DFS_OUTPUT" = setup.problem.names.length
  values : statistics.count "ASSIGNMENT" = setup.problem.names.length
  starts : statistics.count "START" = setup.problem.agents.length
  finishes : statistics.count "AGENT_FINISHED" = setup.problem.agents.length
  bounds : statistics.count "BOUND_STATS" ≤ setup.heads.length
  total : statistics.Total

/-- What can be read from a message tells its kind. -/
structure Message.Named (message : Message K) : Prop where
  views : message.kind = "DFS_OUTPUT" ↔ message.views?.isSome
  ranges : message.kind = "BOUND" ↔ message.ranges?.isSome
  divisors : message.kind = "NORM" ↔ message.divides?.isSome
  finals : message.kind = "VALUE_FINAL" ↔ message.closes?.isSome
  requests : message.kind = "VALUE" ↔ message.asks?.isSome
  costs : message.kind = "COST" ↔ message.answers?.isSome
  values : message.kind = "ASSIGNMENT" ↔ message.assigns?.isSome
  finishes : message.kind = "AGENT_FINISHED" ↔ message.finishes?.isSome
  bounds : message.kind = "BOUND_STATS" ↔ message.bounds?.isSome
  starts : message.kind = "START" ↔ message = .start

theorem Message.named (message : Message K) : message.Named := by
  cases message with
  | context c =>
    cases hf : c.final <;> constructor <;>
      simp [kind, hf, views?, ranges?, divides?, closes?, asks?, answers?, assigns?, finishes?,
        bounds?]
  | _ =>
    constructor <;>
      simp [kind, views?, ranges?, divides?, closes?, asks?, answers?, assigns?, finishes?, bounds?]

namespace Setup.Reckons

open Statistics

variable {setup : Setup K} {messages : List (Outgoing K)}

/-- Messages of a kind are those that something can be read from; the starts are none of them. -/
theorem count_eq {α : Type} (read : Message K → Option α) {kind : String}
    (hkind : ∀ message : Message K, message.kind = kind ↔ (read message).isSome)
    (hstart : read .start = none) (problem : Problem K) (messages : List (Outgoing K)) :
    (Statistics.empty.recordAll (Team.startMessages problem ++ messages)).count kind
      = (messages.filterMap (read ·.message)).length := by
  have hstarts : (Team.startMessages problem).countP
      (fun outgoing => outgoing.message.kind = kind) = 0 := by
    refine List.countP_eq_zero.mpr fun outgoing hm hk => ?_
    obtain ⟨agent, -, rfl⟩ := List.mem_map.mp hm
    rw [decide_eq_true_eq, hkind, hstart] at hk
    cases hk
  rw [count_recordAll, List.countP_append, hstarts, List.length_filterMap_eq_countP]
  have hempty : Statistics.empty.count kind = 0 := rfl
  rw [hempty, Nat.zero_add, Nat.zero_add]
  exact List.countP_congr fun outgoing _ => by simp [hkind]

theorem count_starts (h : setup.Reckons messages) :
    (Statistics.empty.recordAll (Team.startMessages setup.problem ++ messages)).count "START"
      = setup.problem.agents.length := by
  have hmessages : messages.countP (fun outgoing => outgoing.message.kind = "START") = 0 := by
    refine List.countP_eq_zero.mpr fun outgoing hm hk => h.started outgoing hm ?_
    exact outgoing.message.named.starts.mp (of_decide_eq_true hk)
  have hstarts : (Team.startMessages (K := K) setup.problem).countP
      (fun outgoing => outgoing.message.kind = "START") = setup.problem.agents.length := by
    rw [List.countP_eq_length.mpr fun outgoing hm => ?_, Team.startMessages, List.length_map]
    obtain ⟨agent, -, rfl⟩ := List.mem_map.mp hm
    rfl
  rw [count_recordAll, List.countP_append, hstarts, hmessages]
  exact Nat.zero_add _

/-- All kinds can be counted. -/
theorem counted (h : setup.Reckons messages) : setup.Counted
    (Statistics.empty.recordAll (Team.startMessages setup.problem ++ messages)) := by
  have hparents := h.ranges.length_eq
  have hchildren := h.divisors.length_eq
  rw [List.length_map] at hparents hchildren
  refine ⟨?_, ?_, ?_, ?_, ?_, ?_, h.count_starts, ?_, ?_, total_empty.recordAll _⟩
  · rw [count_eq Message.answers? (·.named.costs) rfl, count_eq Message.asks? (·.named.requests) rfl,
      h.costs.length_eq]
  · rw [count_eq Message.ranges? (·.named.ranges) rfl, hparents, setup.length_edges]
  · rw [count_eq Message.divides? (·.named.divisors) rfl, hchildren, setup.length_edges]
  · rw [count_eq Message.closes? (·.named.finals) rfl, h.finals.length_eq, setup.length_edges]
  · rw [count_eq Message.views? (·.named.views) rfl, h.views.length_eq]
  · rw [count_eq Message.assigns? (·.named.values) rfl, h.values.length_eq]
  · rw [count_eq Message.finishes? (·.named.finishes) rfl, h.finishes.length_eq]
  · rw [count_eq Message.bounds? (·.named.bounds) rfl]
    exact h.bounds

end Setup.Reckons

variable [CostArithmetic K] [Generator G] {setup : Setup K} {w : World K}

/-- Deliveries from the situation of a network are those of one of its runs. -/
theorem Situation.Delivered.exists_runs {s last : Situation K G} {messages : List (Outgoing K)}
    (h : s.Delivered messages last) (valid : setup.Valid) {network : Network K G}
    (hshows : network.Shows setup w) (hs : network.situation = s) :
    ∃ log final, network.Runs log final ∧ final.situation = last ∧
      log.map Delivery.outgoing = messages := by
  induction h generalizing network w with
  | nil => exact ⟨[], network, .refl, hs, rfl⟩
  | @cons s next last outgoing messages hd _ ih =>
    have hm : outgoing ∈ network.pool := by
      obtain ⟨rest, _, hpool, -⟩ := id hd
      rw [← hs] at hpool
      rw [← Multiset.mem_coe, show (↑network.pool : Multiset (Outgoing K)) = outgoing ::ₘ rest
        from hpool]
      simp
    obtain ⟨position, mid, hdeliver, -⟩ := network.exists_deliverAt hm
    obtain ⟨hdelivers, w', hmid⟩ := hshows.delivers_deliverAt valid hdeliver
    obtain ⟨log, final, hruns, hfinal, hlog⟩ := ih hmid (hdelivers.unique (hs ▸ hd))
    exact ⟨_ :: log, final, .head hdeliver hruns, hfinal, by rw [List.map_cons, hlog]⟩

/-- At the beginning the views are under way. -/
theorem Network.pool_of_start (valid : setup.Valid) {seed : UInt64} {first : Network K G}
    (h : start setup seed = .ok first) :
    (↑first.pool : Multiset (Outgoing K)) = (World.initial setup).flight setup := by
  obtain ⟨views, hviews, hpool⟩ := exists_views valid
  rw [start, hviews] at h
  obtain rfl := Except.ok.inj h
  exact hpool

/-- When everything has been delivered, in whatever order, then every edge of the tree has carried one
range up and one divisor and one final context down, every request has been answered, and every
variable and agent has reported once.  The counts of a run that is completed say so. -/
theorem Problem.accounted {problem : Problem K} (built : problem.Built) (config : Config K)
    (seed : UInt64) :
    (∃ first : Network K G, Network.start (.generated problem config) seed = .ok first ∧
      ∀ log last, first.Runs log last → last.pool = [] →
        (Setup.generated problem config).Reckons (log.map Delivery.outgoing) ∧
        (Setup.generated problem config).Counted (Statistics.empty.recordAll
          (Team.startMessages problem ++ log.map Delivery.outgoing))) ∧
    ∀ clock solution, problem.solve G config seed clock = .ok solution →
      solution.outcome = .completed →
      (Setup.generated problem config).Counted solution.statistics := by
  have valid := Setup.valid_generated built config
  constructor
  · obtain ⟨first, hfirst, hshows⟩ := Network.exists_start (G := G) valid seed
    refine ⟨first, hfirst, fun log last hruns hlast => ?_⟩
    have hreckons := hruns.reckons valid hshows (Network.pool_of_start valid hfirst) hlast
    exact ⟨hreckons, hreckons.counted⟩
  · intro clock solution hsolve hcompleted
    obtain ⟨first, team, final, hfirst, ⟨messages, hdelivered, rfl⟩, rfl⟩ :=
      built.leads_of_solve config seed clock hsolve hcompleted
    obtain ⟨first', hfirst', hshows⟩ := Network.exists_start (G := G) valid seed
    obtain rfl := Except.ok.inj (hfirst'.symm.trans hfirst)
    obtain ⟨log, last, hruns, hlast, rfl⟩ := hdelivered.exists_runs valid hshows rfl
    have hempty : last.pool = [] := (Multiset.coe_eq_zero _).mp (congrArg Prod.snd hlast)
    have hpool := Network.pool_of_start valid hfirst
    have hcounted := (hruns.reckons valid hshows hpool hempty).counted
    rw [Statistics.recordAll, List.foldl_append] at hcounted
    -- the number of contexts is no count of messages
    exact { hcounted with }

/-- All 25 messages of the chain are accounted for, and those of its solution. -/
theorem Problem.accounted_chain :
    (∃ (first last : Network (Exact ℚ) ChaCha.Stream) (log : List (Delivery (Exact ℚ))),
      Network.start (.generated .chain .content) 1 = .ok first ∧ first.Runs log last ∧
      last.pool = [] ∧ log.length = 25 ∧
      (Setup.generated .chain .content).Reckons (log.map Delivery.outgoing) ∧
      (Setup.generated .chain .content).Counted (Statistics.empty.recordAll
        (Team.startMessages Problem.chain ++ log.map Delivery.outgoing))) ∧
    ∃ solution : Solution (Exact ℚ),
      Problem.chain.solve ChaCha.Stream .content 1 (fun _ => 0) = .ok solution ∧
      solution.outcome = .completed ∧
      (Setup.generated .chain .content).Counted solution.statistics := by
  obtain ⟨⟨first, hfirst, h⟩, hsolved⟩ :=
    Problem.accounted (G := ChaCha.Stream) Problem.built_chain .content 1
  have hrun : (Network.start (G := ChaCha.Stream) (.generated .chain .content) 1).toOption.any
      fun first => (first.follow [] 0 30).2.pool.isEmpty
        && (first.follow [] 0 30).1.length == 25 := by
    decide +kernel
  rw [hfirst] at hrun
  obtain ⟨hempty, hlength⟩ := (Bool.and_eq_true _ _).mp hrun
  have hruns := Network.runs_follow first [] 0 30
  obtain ⟨hreckons, hcounted⟩ := h _ _ hruns (List.isEmpty_iff.mp hempty)
  have hany : (Problem.chain.solve (K := Exact ℚ) ChaCha.Stream .content 1
      fun _ => 0).toOption.any fun solution => solution.outcome = .completed := by
    decide +kernel
  obtain ⟨solution, hsolution, hcompleted⟩ := exists_of_any hany
  have hcompleted := of_decide_eq_true hcompleted
  exact ⟨⟨first, _, _, hfirst, hruns, List.isEmpty_iff.mp hempty, beq_iff_eq.mp hlength, hreckons,
    hcounted⟩, solution, hsolution, hcompleted, hsolved _ _ hsolution hcompleted⟩

end DcopSearch
