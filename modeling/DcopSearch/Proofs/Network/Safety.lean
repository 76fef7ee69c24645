import DcopSearch.Proofs.Network.Reachable
import DcopSearch.Proofs.Protocol.Refuted
import DcopSearch.Random.ChaCha

/-! No message goes wrong.  Whatever the order of the deliveries, an agent handles every message for
one of its variables and the collector takes every result in, and none is for a variable that has
converged. -/

namespace DcopSearch

open World

variable {K G : Type} [CostArithmetic K]

namespace Team

/-- The sampler that a variable is sampled by. -/
def sampler? (team : Team K G) (name : String) : Option (Sampler K G) :=
  (team.problem.owner? name).bind fun agent => team.agents[agent]?.map (·.sampler)

/-- The state of a variable, once its agent has got its view. -/
def state? (team : Team K G) (name : String) : Option (SamplingState K) :=
  (team.sampler? name).bind (·.states[name]?)

def phase? (team : Team K G) (name : String) : Option Phase :=
  (team.sampler? name).bind (·.phase? name)

/-- The value that a variable holds. -/
def value? (team : Team K G) (name : String) : Option Value :=
  (team.sampler? name).bind (·.currentValue? name)

omit [CostArithmetic K] in
theorem phase?_eq_map (team : Team K G) (name : String) :
    team.phase? name = (team.state? name).map SamplingState.phase := by
  rw [phase?, state?, Option.map_bind]
  rfl

omit [CostArithmetic K] in
theorem value?_eq_bind (team : Team K G) (name : String) :
    team.value? name
      = (team.state? name).bind fun state => state.current.bind (state.domain[·]?) := by
  rw [value?, state?, Option.bind_assoc]
  rfl

end Team

variable {setup : Setup K} {w : World K}

theorem Team.Shows.state?_eq {team : Team K G} (h : team.Shows setup w) {name : String}
    (hn : name ∈ setup.problem.names) :
    team.state? name = if (w name).ascent.stage = .unseen then none else some (w name).state := by
  obtain ⟨agent, ho⟩ := Problem.exists_owner hn
  have hmember : agent ∈ team.agents := (h.members agent).mpr (Problem.mem_agents_of_owner ho)
  have ha := Std.ExtTreeMap.getElem?_eq_some_getElem hmember
  have hstate := (h.agents agent _ ha).sampler.states name ho
  rw [Team.state?, Team.sampler?, h.problem, ho, Option.bind_some, ha, Option.map_some,
    Option.bind_some, hstate]

theorem Team.Shows.state?_eq_some {team : Team K G} (h : team.Shows setup w) {name : String}
    (hn : name ∈ setup.problem.names) (hs : (w name).ascent.stage = .normalized) :
    team.state? name = some (w name).state := by
  rw [h.state?_eq hn, if_neg (by simp [hs])]

theorem Team.Shows.phase?_eq {team : Team K G} (h : team.Shows setup w) {name : String}
    (hn : name ∈ setup.problem.names) :
    team.phase? name
      = if (w name).ascent.stage = .unseen then none else some (w name).state.phase := by
  rw [Team.phase?_eq_map, h.state?_eq hn]
  split <;> rfl

theorem Cell.Sound.phase_eq_converged {name : String} {c : Cell K} (h : c.Sound setup name) :
    c.state.phase = .converged ↔ c.exchange = .ended := by
  constructor
  · intro hphase
    have hs : c.ascent.stage = .normalized := by
      by_contra hs
      rw [h.registered hs] at hphase
      cases hphase
    cases hx : c.exchange with
    | ended => rfl
    | idle => rcases (h.of_idle hx).1.phase hs with hp | hp <;> simp [hp] at hphase
    | asked context => rcases (h.of_asked hx).1.phase hs with hp | hp <;> simp [hp] at hphase
    | kept context => exact absurd hs (h.of_kept hx).2.2
    | poised final => simp [(h.of_poised hx).1.phase] at hphase
    | busy final => simp [(h.of_busy hx).phase] at hphase
    | answered cost => simp [(h.of_answered hx).1.phase] at hphase
  · exact fun hx => (h.of_ended hx).2.2

theorem Team.Shows.phase?_eq_converged {team : Team K G} (h : team.Shows setup w)
    (hinv : w.Inv setup) {name : String} : team.phase? name = some .converged ↔
      name ∈ setup.problem.names ∧ (w name).exchange = .ended := by
  constructor
  · intro hphase
    have hn : name ∈ setup.problem.names := by
      cases ho : setup.problem.owner? name with
      | none => simp [Team.phase?, Team.sampler?, h.problem, ho] at hphase
      | some agent => exact Problem.mem_names_of_owner ho
    rw [h.phase?_eq hn] at hphase
    split at hphase
    · cases hphase
    · exact ⟨hn, (hinv.sound name hn).phase_eq_converged.mp (Option.some.inj hphase)⟩
  · rintro ⟨hn, hx⟩
    have hsound := hinv.sound name hn
    rw [h.phase?_eq hn, if_neg (by simp [(hsound.of_ended hx).1]),
      hsound.phase_eq_converged.mpr hx]

variable [Generator G]

theorem Network.exists_deliverAt (network : Network K G) {outgoing : Outgoing K}
    (hm : outgoing ∈ network.pool) :
    ∃ position next, network.deliverAt position
        = some ({ outgoing, outcome := (network.team.deliver outgoing).2 }, next) ∧
      next.team = (network.team.deliver outgoing).1 := by
  obtain ⟨position, hlt, rfl⟩ := List.mem_iff_getElem.mp hm
  exact ⟨position, _, by rw [deliverAt, List.getElem?_eq_getElem hlt]; rfl, rfl⟩

/-- In whatever order the messages are delivered, none fails and none is for a variable that has
converged. -/
theorem Network.delivers {problem : Problem K} (built : problem.Built) (config : Config K)
    (seed : UInt64) :
    ∃ first : Network K G, start (Setup.generated problem config) seed = .ok first ∧
      ∀ network, first.Reaches network → ∀ outgoing ∈ network.pool,
        (∃ sent, (network.team.deliver outgoing).2 = .ok sent) ∧
        ∀ name, outgoing.message.subject? = some name →
          name ∈ problem.names ∧ network.team.phase? name ≠ some .converged := by
  have valid := Setup.valid_generated built config
  obtain ⟨first, hfirst, hshows⟩ := exists_start (G := G) valid seed
  refine ⟨first, hfirst, fun network hreaches outgoing hm => ?_⟩
  obtain ⟨w, hshows, -⟩ := hreaches.shows valid hshows
  obtain ⟨position, next, hd, -⟩ := network.exists_deliverAt hm
  obtain ⟨sent, w', houtcome, -, hcase⟩ := hshows.deliverAt valid hd
  refine ⟨⟨sent, houtcome⟩, fun name hsubject => ?_⟩
  rcases hcase with ⟨hresult, -⟩ | ⟨other, agent, ho, hsends, hhandled⟩
  · simp only at hresult
    cases hmessage : outgoing.message <;>
      simp [hmessage, Message.isResult, Message.subject?] at hresult hsubject
  · have hn := Problem.mem_names_of_owner ho
    have hother := hsends.subject? valid hshows.inv hn
    obtain rfl : other = name := Option.some.inj (hother.symm.trans hsubject)
    refine ⟨hn, fun hphase => ?_⟩
    obtain ⟨-, hover⟩ := (hshows.team.phase?_eq_converged hshows.inv).mp hphase
    exact hhandled.opened (by rw [hover]; rfl)

theorem Network.delivers_chain :
    ∃ first : Network (Exact ℚ) ChaCha.Stream,
      start (.generated .chain .severe) 1 = .ok first ∧
      ∀ network, first.Reaches network → ∀ outgoing ∈ network.pool,
        (∃ sent, (network.team.deliver outgoing).2 = .ok sent) ∧
        ∀ name, outgoing.message.subject? = some name →
          name ∈ Problem.chain.names ∧ network.team.phase? name ≠ some .converged :=
  Network.delivers Problem.built_chain .severe 1

end DcopSearch
