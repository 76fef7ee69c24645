import DcopSearch.Proofs.Network.Reachable
import DcopSearch.Proofs.Protocol.Account
import DcopSearch.Random.ChaCha

/-! Normalizers without the sampling.  The normalizers of all agents exchange the messages of
normalization, any of which may be the next one to be handled.  What they do is what the variables of a
world do, and all of it is accounted for. -/

namespace DcopSearch

open World

variable {K : Type}

/-- The normalizers by the names of their agents, and the messages under way between them. -/
structure Normalizing (K : Type) where
  normalizers : String → Normalizer K
  pool : List (Outgoing K)

/-- A message that was handled, and what came of it. -/
structure Handling (K : Type) where
  message : Message K
  outcome : Except AgentError (NormalizationStep K)

/-- A report that a variable sends. -/
def Outgoing.report? (sender : String) (outgoing : Outgoing K) : Option (String × RangeReport K) :=
  match outgoing.message with
  | .range report => some (sender, report)
  | _ => none

namespace Handling

def reports (handling : Handling K) : List (String × RangeReport K) :=
  match handling.outcome, handling.message.subject? with
  | .ok step, some name => step.messages.filterMap (Outgoing.report? name)
  | _, _ => []

def completed (handling : Handling K) : List (Normalized K) :=
  match handling.outcome with
  | .ok step => step.completed
  | .error _ => []

end Handling

namespace Normalizing

variable [CostArithmetic K]

def start (setup : Setup K) : Except AgentError (Normalizing K) :=
  (Team.viewMessages setup.problem setup.tree.views.toList).map fun views =>
    { normalizers := fun agent => .new agent setup.substitute, pool := views }

/-- Lets the addressee handle the message at a position of the pool; what it sends in answer comes to
the end. -/
def deliverAt (net : Normalizing K) (problem : Problem K) (position : Nat) :
    Option (Handling K × Normalizing K) :=
  net.pool[position]?.bind fun outgoing =>
    match outgoing.destination with
    | .agent agent =>
      let (normalizer, outcome) := (net.normalizers agent).handle problem outgoing.message
      let sent := match outcome with
        | .ok step => step.messages
        | .error _ => []
      some ({ message := outgoing.message, outcome },
        { normalizers := Function.update net.normalizers agent normalizer
          pool := net.pool.eraseIdx position ++ sent })
    | .collector | .orchestrator => none

/-- Messages are handled in any order; the log has what was handled. -/
inductive Runs (problem : Problem K) (first : Normalizing K) :
    List (Handling K) → Normalizing K → Prop where
  | refl : Runs problem first [] first
  | deliver {log : List (Handling K)} {net next : Normalizing K} {handling : Handling K}
      (position : Nat) : Runs problem first log net →
      net.deliverAt problem position = some (handling, next) →
      Runs problem first (log ++ [handling]) next

end Normalizing

variable [CostArithmetic K] {setup : Setup K} {w₀ w w' : World K} {agent name : String}

/-- A message was handled for a variable, and the step that came of it is accounted for. -/
structure World.Ascends (setup : Setup K) (G : Type) [Generator G] (w : World K) (name : String)
    (taken : Account K) (step : NormalizationStep K) (w' : World K) : Prop where
  steps : Steps setup G w w'
  near : Near name w w'
  calm : (w' name).Calm setup name
  account : w'.account setup + taken = w.account setup
    + .of step.messages (step.messages.filterMap (Outgoing.report? name)) step.completed 0

variable {G : Type} [Generator G]

/-- What comes under way and is taken in at once is not accounted for. -/
theorem World.Ascends.after {taken between : Account K} {step : NormalizationStep K}
    (h : Ascends setup G w name between step w') (hsteps : Steps setup G w₀ w)
    (hnear : Near name w₀ w)
    (haccount : w.account setup + taken = w₀.account setup + between) :
    Ascends setup G w₀ name taken step w' := by
  refine ⟨hsteps.trans h.steps, hnear.trans h.near, h.calm, add_right_cancel (b := between) ?_⟩
  calc w'.account setup + taken + between = w'.account setup + between + taken := by ac_rfl
    _ = w.account setup + taken + .of step.messages
          (step.messages.filterMap (Outgoing.report? name)) step.completed 0 := by
        rw [h.account]; ac_rfl
    _ = _ := by rw [haccount]; ac_rfl

namespace Normalizer.Shows

variable {normalizer : Normalizer K}

theorem applyDivisor (h : normalizer.Shows setup w agent) (valid : setup.Valid) (hinv : w.Inv setup)
    (hn : setup.problem.owner? name = some agent) {divisor : K}
    (ha : (w name).ascent = .dividing divisor) :
    ∃ next step w', normalizer.applyDivisor setup.problem name divisor (w name).range
        = (next, .ok step) ∧ next.Shows setup w' agent ∧
      Ascends setup G w name (if (setup.parent name).isSome then
        .of [⟨setup.problem.address name, .divisor name divisor⟩] [] [] 1 else 0) step w' := by
  have hnames := Problem.mem_names_of_owner hn
  have hsound := hinv.sound name hnames
  have hview : (w name).range.view = some (setup.view name) := by
    rw [hsound.view, ha]
    rfl
  have hdone : (w name).range.done = false := by simp [hsound.done, ha, Ascent.stage]
  have hstep : Step setup G w (w.normalize setup name divisor) := .normalize hnames ha
  have hnear := hinv.near_normalize valid ha
  have hself : w.normalize setup name divisor name = (w name).normalized setup name divisor :=
    normalize_self
  have hrange : ((w name).normalized setup name divisor).range
      = (w name).range.rescale setup.substitute divisor := Cell.normalized_range
  have hascent : ((w name).normalized setup name divisor).ascent = .normalized :=
    Cell.normalized_ascent
  rw [Normalizer.applyDivisor_eq h.substitute hview hdone
    fun child hc => valid.mem_names_of_child hc]
  refine ⟨_, _, w.normalize setup name divisor, rfl, ?_, .single hstep, hnear, ?_, ?_⟩
  · rw [← hrange, ← hself]
    exact h.setRange hnear
  · rw [hself]
    refine ⟨by simp [hascent], by simp [hascent, Ascent.stage]⟩
  · have hnone : ((setup.view name).children.map fun child =>
          (⟨setup.problem.address child, .divisor child divisor⟩ : Outgoing K)).filterMap
            (Outgoing.report? name) = [] := by
      rw [List.filterMap_eq_nil_iff]
      intro outgoing hm
      obtain ⟨child, -, rfl⟩ := List.mem_map.mp hm
      rfl
    rw [hnone]
    exact account_normalize valid hinv hnames ha

theorem advance (h : normalizer.Shows setup w₀ agent) (valid : setup.Valid) (hinv : w.Inv setup)
    (hn : setup.problem.owner? name = some agent) (hnear : Near name w₀ w)
    (ha : (w name).ascent = .unseen ∨ (w name).ascent = .gathering) :
    ∃ next step w', normalizer.advance setup.problem name (w name).range = (next, .ok step) ∧
      next.Shows setup w' agent ∧ Ascends setup G w name 0 step w' := by
  have hnames := Problem.mem_names_of_owner hn
  have hsound := hinv.sound name hnames
  by_cases hcomplete : (w name).ascent = .gathering ∧
      (w name).range.isComplete (setup.view name) = true
  · obtain ⟨hg, hcomplete⟩ := hcomplete
    have hview : (w name).range.view = some (setup.view name) := by
      rw [hsound.view, hg]; rfl
    have hstep : Step setup G w (w.update name ((w name).closed setup name)) :=
      .close hnames hg hcomplete
    have hnear' : Near name w (w.update name ((w name).closed setup name)) := near_update _ _ _
    have hself : w.update name ((w name).closed setup name) name = (w name).closed setup name :=
      update_self
    have hshows : (normalizer.setRange name ((w name).range.close name (setup.view name))).Shows
        setup (w.update name ((w name).closed setup name)) agent := by
      have hset := h.setRange (hnear.trans hnear')
      rw [hself] at hset
      exact hset
    have haccount := account_close valid hnames hg
    simp only [Normalizer.advance, hview, hcomplete, if_true]
    cases hp : setup.parent name with
    | some parent =>
      have hparent : (setup.view name).parent = some parent := hp
      have hascent : ((w name).closed setup name).ascent = .reporting := by simp [Cell.closed, hp]
      simp only [hparent, Problem.toOwner_eq (valid.mem_names hp).1, Except.map]
      refine ⟨_, _, _, rfl, hshows, .single hstep, hnear', ?_, ?_⟩
      · rw [hself]
        exact ⟨by simp [hascent], by simp [hp]⟩
      · rw [add_zero, haccount, hp]
        rfl
    | none =>
      have hparent : (setup.view name).parent = none := hp
      have hascent : (w.update name ((w name).closed setup name) name).ascent
          = .dividing ((w name).range.close name (setup.view name)).divisor := by
        rw [hself]; simp [Cell.closed, hp]
      -- a root does not report its range, it divides by it at once
      obtain ⟨next, step, w', happly, hnext, hascends⟩ :=
        hshows.applyDivisor valid (hinv.step valid hstep) hn hascent (G := G)
      rw [hself] at happly
      simp only [hparent]
      refine ⟨next, step, w', happly, hnext, hascends.after (.single hstep) hnear' ?_⟩
      rw [add_zero, haccount, hp]
      rfl
  · have hwait : (w name).ascent = .gathering →
        (w name).range.isComplete (setup.view name) = false := fun hg => by
      simpa using fun hc => hcomplete ⟨hg, hc⟩
    rw [Normalizer.advance_of_incomplete (hsound.incomplete_of_waiting ha hwait)]
    exact ⟨_, _, w, rfl, h.setRange hnear, .refl, .refl _ _, hsound.calm_of_waiting ha hwait, rfl⟩

/-- A normalizer handles every message of normalization that is under way to one of its variables. -/
theorem handle (h : normalizer.Shows setup w agent) (valid : setup.Valid) (hinv : w.Inv setup)
    (hn : setup.problem.owner? name = some agent) {outgoing : Outgoing K}
    (hsends : w.Sends setup name outgoing) (hkind : outgoing.message.normalizes = true) :
    ∃ next step w', normalizer.handle setup.problem outgoing.message = (next, .ok step) ∧
      next.Shows setup w' agent ∧ Ascends setup G w name (.of [outgoing] [] [] 1) step w' := by
  have hnames := Problem.mem_names_of_owner hn
  have hsound := hinv.sound name hnames
  cases hsends with
  | view ha =>
    have hstep : Step setup G w (w.update name ((w name).seen setup name)) := .see hnames ha
    have hnear : Near name w (w.update name ((w name).seen setup name)) := near_update _ _ _
    have hself : w.update name ((w name).seen setup name) name = (w name).seen setup name :=
      update_self
    have hview : (w name).range.view = none := by
      rw [hsound.view, if_pos (by rw [ha]; rfl)]
    obtain ⟨next, step, w', hadvance, hshows, hascends⟩ := h.advance valid (hinv.step valid hstep) hn
      hnear (.inr (by rw [hself]; rfl)) (G := G)
    refine ⟨next, step, w', ?_, hshows, hascends.after (.single hstep) hnear ?_⟩
    · rw [← hadvance, hself]
      simp only [Normalizer.handle, Normalizer.onView, h.ownershipError?_eq_none hn, h.ranges name hn,
        hview, Setup.domain?_eq hnames, h.substitute]
      rfl
    · rw [add_zero]
      exact account_see valid hnames ha
  | @range child hp ha =>
    have hstep : Step setup G w (w.tell name child) := .tell hp ha
    have hnear : Near name w (w.tell name child) := near_tell ha
    have hself : w.tell name child name
        = (w name).told (Normalizer.reportTo name (w child).range) := tell_self
    obtain ⟨next, step, w', hadvance, hshows, hascends⟩ := h.advance valid (hinv.step valid hstep) hn
      hnear (by rw [hself]; exact hinv.gathering_of_reporting hp ha) (G := G)
    refine ⟨next, step, w', ?_, hshows, hascends.after (.single hstep) hnear ?_⟩
    · have hreceiver : (Normalizer.reportTo name (w child).range).receiver = name := rfl
      rw [← hadvance, hself]
      simp only [Normalizer.handle, Normalizer.onRange, hreceiver, h.ownershipError?_eq_none hn,
        h.ranges name hn, Cell.told]
    · rw [add_zero]
      exact account_tell valid hinv hp ha
  | divisor hp ha =>
    have hranges := h.getElem?_eq hn (by
      rw [hsound.view, ha]
      rfl)
    obtain ⟨next, step, w', happly, hshows, hascends⟩ := h.applyDivisor valid hinv hn ha (G := G)
    rw [if_pos (Option.isSome_iff_ne_none.mpr hp)] at hascends
    refine ⟨next, step, w', ?_, hshows, hascends⟩
    simp only [Normalizer.handle, Normalizer.onDivisor, h.ownershipError?_eq_none hn, hranges, happly]
  | context _ => cases hkind
  | cost _ _ => cases hkind

end Normalizer.Shows

namespace World

/-- How many messages of normalization are still to be handled. -/
def awaited (w : World K) (setup : Setup K) : ℕ :=
  w.total setup fun name cell => cell.ascent.awaited (setup.parent name).isNone

theorem account_initial (setup : Setup K) {views : List (Outgoing K)}
    (hviews : ↑views = (World.initial setup).flight setup) :
    (World.initial setup).account setup = .of views [] [] ((World.initial setup).awaited setup) := by
  have hflight : (World.initial setup).total setup (Cell.ascentFlight setup) = ↑views := by
    rw [hviews]
    exact Finset.sum_congr rfl fun name _ => (add_zero _).symm
  have hreports : (World.initial setup).total setup (Cell.reports setup) = 0 :=
    Finset.sum_eq_zero fun _ _ => rfl
  have houtputs : (World.initial setup).total setup Cell.outputs = 0 :=
    Finset.sum_eq_zero fun _ _ => rfl
  rw [account_eq, hflight, hreports, houtputs]
  rfl

end World

namespace Normalizing

variable {w : World K} {first net : Normalizing K} {log : List (Handling K)}

/-- The normalizers have the ranges of the world, which accounts for what is under way and for what
has been handled. -/
structure Shows (setup : Setup K) (w : World K) (log : List (Handling K)) (net : Normalizing K) :
    Prop where
  normalizers : ∀ agent, (net.normalizers agent).Shows setup w agent
  inv : w.Inv setup
  calm : ∀ name ∈ setup.problem.names, (w name).Calm setup name
  succeeds : ∀ handling ∈ log, ∃ step, handling.outcome = .ok step
  account : ∃ rest, log.length + rest = (World.initial setup).awaited setup ∧
    w.account setup
      = .of net.pool (log.flatMap Handling.reports) (log.flatMap Handling.completed) rest

/-- Normalization takes steps of the world; any generator will do for them, as none is asked. -/
abbrev Steps (setup : Setup K) : World K → World K → Prop :=
  World.Steps setup ChaCha.Stream

theorem exists_start (valid : setup.Valid) :
    ∃ first, start setup = .ok first ∧ first.Shows setup (.initial setup) [] := by
  obtain ⟨views, hviews, hpool⟩ := Network.exists_views valid
  refine ⟨_, by rw [start, hviews]; rfl, fun agent => ⟨rfl, rfl, fun name _ => rfl⟩,
    inv_initial setup, fun name _ => ⟨?_, fun _ => ?_⟩, by simp, _, by simp,
    account_initial setup hpool⟩
  · simp [World.initial, Cell.initial]
  · simp [World.initial, Cell.initial, Ascent.stage]

theorem Shows.handles (h : net.Shows setup w log) (valid : setup.Valid) {position : Nat}
    (hlt : position < net.pool.length) :
    ∃ handling next w', net.deliverAt setup.problem position = some (handling, next) ∧
      next.Shows setup w' (log ++ [handling]) ∧ Steps setup w w' := by
  obtain ⟨rest, hcount, haccount⟩ := h.account
  have hmem : net.pool[position] ∈ w.total setup (Cell.ascentFlight setup) := by
    have hpool := congrArg Prod.fst ((account_eq w setup).symm.trans haccount)
    rw [show w.total setup (Cell.ascentFlight setup) = ↑net.pool from hpool]
    exact List.getElem_mem hlt
  obtain ⟨name, hn, hm⟩ := Multiset.mem_sum.mp hmem
  obtain ⟨addressee, ho, hsends, hkind⟩ := sends_of_ascentFlight valid (List.mem_toFinset.mp hn) hm
  obtain ⟨agent, howner⟩ := Problem.exists_owner ho
  obtain ⟨normalizer, step, w', hhandle, hshows, hascends⟩ :=
    (h.normalizers agent).handle valid h.inv howner hsends hkind (G := ChaCha.Stream)
  have hdestination : net.pool[position].destination = .agent agent :=
    hsends.destination.trans (by simp [Problem.address, howner])
  have hsubject : net.pool[position].message.subject? = some addressee :=
    hsends.subject? valid h.inv ho
  have hdeliver : net.deliverAt setup.problem position
      = some ({ message := net.pool[position].message, outcome := .ok step },
        { normalizers := Function.update net.normalizers agent normalizer
          pool := net.pool.eraseIdx position ++ step.messages }) := by
    rw [deliverAt, List.getElem?_eq_getElem hlt]
    simp only [Option.bind_some, hdestination, hhandle]
  refine ⟨_, _, w', hdeliver, ⟨fun other => ?_, h.inv.steps valid hascends.steps, fun x hx => ?_,
    fun handling hm => ?_, (w'.account setup).2.2.2, ?_⟩, hascends.steps⟩
  · by_cases he : other = agent
    · subst he
      simpa using hshows
    · simp only [Function.update_of_ne he]
      refine (h.normalizers other).congr fun x hx => (hascends.near x ?_).range
      rintro rfl
      exact he (Option.some.inj (hx.symm.trans howner))
  · by_cases he : x = addressee
    · exact he ▸ hascends.calm
    · exact (h.calm x hx).of_alike (hascends.near x he)
  · rcases List.mem_append.mp hm with hm | hm
    · exact h.succeeds handling hm
    · obtain rfl := List.mem_singleton.mp hm
      exact ⟨step, rfl⟩
  · have hbooked := hascends.account
    rw [haccount, Account.of_add] at hbooked
    have hrest : (w'.account setup).2.2.2 + 1 = rest :=
      congrArg (fun account : Account K => account.2.2.2) hbooked
    refine ⟨by rw [List.length_append, List.length_singleton]; omega,
      add_right_cancel (b := .of [net.pool[position]] [] [] 1) ?_⟩
    have hperm : (net.pool ++ step.messages).Perm
        (net.pool.eraseIdx position ++ step.messages ++ [net.pool[position]]) := by
      refine ((List.getElem_cons_eraseIdx_perm hlt).symm.append_right _).trans ?_
      exact (List.perm_append_singleton _ _).symm
    rw [hbooked, Account.of_add, Account.of_perm hperm, Nat.add_zero, hrest]
    simp [Handling.reports, Handling.completed, hsubject]

/-- Every run of the normalizers shows a world. -/
theorem Runs.shows (valid : setup.Valid) (hfirst : first.Shows setup (.initial setup) [])
    (h : first.Runs setup.problem log net) :
    ∃ w, net.Shows setup w log ∧ Steps setup (.initial setup) w := by
  induction h with
  | refl => exact ⟨_, hfirst, .refl⟩
  | @deliver log net next handling position _ hd ih =>
    obtain ⟨w, hshows, hsteps⟩ := ih
    have hlt : position < net.pool.length := by
      by_contra hge
      rw [deliverAt, List.getElem?_eq_none (not_lt.mp hge)] at hd
      cases hd
    obtain ⟨handling', next', w', hd', hnext, hmore⟩ := hshows.handles valid hlt
    obtain ⟨rfl, rfl⟩ := Prod.mk.inj (Option.some.inj (hd.symm.trans hd'))
    exact ⟨w', hnext, hsteps.trans hmore⟩

theorem Shows.total_outputs (h : net.Shows setup w log) :
    w.total setup Cell.outputs = ↑(log.flatMap Handling.completed) := by
  obtain ⟨rest, -, haccount⟩ := h.account
  exact congrArg (fun account : Account K => account.2.2.1) ((account_eq w setup).symm.trans haccount)

/-- When no message is left every variable has been normalized. -/
theorem Shows.normalized (h : net.Shows setup w log) (valid : setup.Valid) (hempty : net.pool = []) :
    ∀ name ∈ setup.problem.names, (w name).ascent = .normalized := by
  obtain ⟨rest, -, haccount⟩ := h.account
  have hpool : w.total setup (Cell.ascentFlight setup) = ↑net.pool :=
    congrArg Prod.fst ((account_eq w setup).symm.trans haccount)
  rw [hempty] at hpool
  exact normalized_of_quiet valid h.inv h.calm fun name hn =>
    Finset.sum_eq_zero_iff.mp hpool name (List.mem_toFinset.mpr hn)

/-- As long as messages are under way there is a next one; if there is a bound to the messages, some run
is complete. -/
theorem exists_end {problem : Problem K} {bound : ℕ} (h : ∀ log net, first.Runs problem log net →
      (∀ position < net.pool.length, (net.deliverAt problem position).isSome) ∧ log.length ≤ bound) :
    ∃ log net, first.Runs problem log net ∧ net.pool = [] := by
  have hmore : ∀ k log net, first.Runs problem log net → log.length + k = bound →
      ∃ log net, first.Runs problem log net ∧ net.pool = [] := by
    intro k
    induction k with
    | zero =>
      intro log net hruns hk
      refine ⟨log, net, hruns, List.eq_nil_of_length_eq_zero ?_⟩
      by_contra hpool
      obtain ⟨⟨handling, next⟩, hd⟩ := Option.isSome_iff_exists.mp
        ((h log net hruns).1 0 (Nat.pos_of_ne_zero hpool))
      have hbound := (h _ _ (hruns.deliver 0 hd)).2
      rw [List.length_append, List.length_singleton] at hbound
      omega
    | succ k ih =>
      intro log net hruns hk
      by_cases hpool : net.pool = []
      · exact ⟨log, net, hruns, hpool⟩
      · obtain ⟨⟨handling, next⟩, hd⟩ := Option.isSome_iff_exists.mp
          ((h log net hruns).1 0 (List.length_pos_iff.mpr hpool))
        refine ih _ _ (hruns.deliver 0 hd) ?_
        rw [List.length_append, List.length_singleton]
        omega
  exact hmore bound [] first .refl (by simp)

end Normalizing

end DcopSearch
