import DcopSearch.Proofs.Network.Agreement
import DcopSearch.Proofs.Network.Completion
import DcopSearch.Proofs.Network.Reports
import DcopSearch.Proofs.Protocol.Optimal

/-! With finite tables the two lowest levels of the tree end with their best values, in whatever order
the messages are delivered; so a component that has no more levels is solved. -/

namespace DcopSearch

open CostArithmetic Exact World

variable {K G : Type}

/-- The value that a message reports of a variable. -/
def Message.assignment? (name : String) : Message K → Option Value
  | .assignment other value => if other = name then some value else none
  | _ => none

/-- The value that was reported of a variable: the collector has it, or will get it. -/
def Network.reported? (network : Network K G) (name : String) : Option Value :=
  network.team.collector.assignments[name]?.or
    (network.pool.findSome? (·.message.assignment? name))

theorem Message.assignment?_eq_some {message : Message K} {name : String} {value : Value} :
    message.assignment? name = some value ↔ message = .assignment name value := by
  cases message <;> simp [assignment?]

section

variable {network : Network K G} {name : String}

theorem Network.reported_of_reported? {value : Value} (h : network.reported? name = some value) :
    network.Reported name value := by
  rcases Option.or_eq_some_iff.mp h with h | ⟨-, h⟩
  · exact .inl h
  · obtain ⟨outgoing, hm, he⟩ := List.exists_of_findSome?_eq_some h
    exact .inr ⟨outgoing, hm, Message.assignment?_eq_some.mp he⟩

theorem Network.Reported.isSome {value : Value} (h : network.Reported name value) :
    (network.reported? name).isSome := by
  rw [reported?, Option.isSome_or, Bool.or_eq_true]
  rcases h with h | ⟨outgoing, hm, he⟩
  · exact .inl (by simp [h])
  · exact .inr (List.findSome?_isSome_iff.mpr
      ⟨outgoing, hm, by simp [Message.assignment?_eq_some.mpr he]⟩)

variable [CostArithmetic K] {setup : Setup K} {w : World K}

theorem Network.Tells.reported?_eq (h : network.Tells w) (hshows : network.Shows setup w)
    (hn : name ∈ setup.problem.names) (hx : (w name).exchange = .ended) :
    network.reported? name = some (w name).state.currentValue := by
  have hreported := (h.reported_iff hshows hn hx _).mpr rfl
  obtain ⟨value, hv⟩ := Option.isSome_iff_exists.mp hreported.isSome
  rw [hv, (h.reported_iff hshows hn hx value).mp (reported_of_reported? hv)]

end

variable {F : Type} [Field F] [LinearOrder F] [LnSqrt F]

/-- What is best in a network.  A variable of the two lowest levels and its children have the best of
their values once they have converged, the values above being those that were reported.  A component
that consists of a root and its children has the best of all values, and when no message is left it is
these that were collected. -/
structure Network.Attains (setup : Setup (Exact F)) (network : Network (Exact F) G) : Prop where
  levels : ∀ name, setup.Low name →
    (∀ other ∈ name :: setup.children name, network.team.phase? other = some .converged) →
    setup.problem.Optimal {other | other ∈ name :: setup.children name}
      ((name :: setup.children name).flatMap setup.enforced) network.reported?
  components : ∀ root ∈ setup.problem.names, setup.parent root = none → setup.Low root →
    (∀ other ∈ setup.problem.component root, network.team.phase? other = some .converged) →
    setup.problem.Optimal (setup.problem.component root)
      (setup.problem.spacesOver (setup.problem.component root)) network.reported?
  collected : network.pool = [] → ∀ root ∈ setup.problem.names, setup.parent root = none →
    setup.Low root → setup.problem.Optimal (setup.problem.component root)
      (setup.problem.spacesOver (setup.problem.component root))
      (network.team.collector.assignments[·]?)

theorem Network.Attains.of_learned [IsStrictOrderedRing F] {setup : Setup (Exact F)}
    {network : Network (Exact F) G} {w : World (Exact F)} (valid : setup.Valid)
    (traced : setup.Traced) (finite : setup.Finite) (hkept : w.Kept setup)
    (hgathered : w.Gathered setup) (hlearned : w.Learned setup) (hshows : network.Shows setup w)
    (htells : network.Tells w) : network.Attains setup := by
  have hphase : ∀ name, network.team.phase? name = some .converged →
      name ∈ setup.problem.names ∧ (w name).exchange = .ended :=
    fun name => (hshows.team.phase?_eq_converged hkept.inv).mp
  have hvalue : ∀ other ∈ setup.problem.names, (w other).exchange = .ended →
      network.reported? other = some (w other).state.currentValue :=
    fun other ho hx => htells.reported?_eq hshows ho hx
  have hcomponents : ∀ root ∈ setup.problem.names, setup.parent root = none → setup.Low root →
      (∀ other ∈ setup.problem.component root, network.team.phase? other = some .converged) →
      setup.problem.Optimal (setup.problem.component root)
        (setup.problem.spacesOver (setup.problem.component root)) network.reported? := by
    intro root hn hp hlow hended
    exact hlearned.optimal_component valid traced finite hkept hgathered hn hp hlow
      (fun other ho => (hphase other (hended other ho)).2) hvalue
  refine ⟨fun name hlow hended => ?_, hcomponents, fun hpool root hn hp hlow => ?_⟩
  · exact hlearned.optimal valid traced hkept (fun other ho => (hphase other (hended other ho)).2)
      hvalue finite hgathered hlow (hphase name (hended name List.mem_cons_self)).1
  · have hconverged := (hshows.complete valid hpool).converged
    have hbest := hcomponents root hn hp hlow fun other ho =>
      hconverged other (Problem.mem_component.mp ho).1
    have hcollected : network.reported? = (network.team.collector.assignments[·]?) := by
      funext other
      rw [Network.reported?, hpool, List.findSome?_nil, Option.or_none]
    exact hcollected ▸ hbest

variable [Generator G] {problem : Problem (Exact F)} {config : Config (Exact F)}

theorem Setup.finite_generated
    (finite : ∀ space ∈ problem.spaces, ∀ entry ∈ space.table.toList, isFinite entry = true)
    (checked : config.validate = .ok config) : (Setup.generated problem config).Finite :=
  ⟨fun space hs entry he => Exact.exists_number (finite space hs entry he),
    Config.exists_penalty checked problem.objective⟩

/-- In whatever order the messages are delivered, a variable of the two lowest levels and its children
have the best of their values once they have converged, and a component without further levels is
solved. -/
theorem Network.attains [IsStrictOrderedRing F] (built : problem.Built)
    (finite : ∀ space ∈ problem.spaces, ∀ entry ∈ space.table.toList, isFinite entry = true)
    (checked : config.validate = .ok config) (seed : UInt64) :
    ∃ first : Network (Exact F) G, start (.generated problem config) seed = .ok first ∧
      ∀ network, first.Reaches network → network.Attains (.generated problem config) := by
  have valid := Setup.valid_generated built config
  have traced := Setup.traced_generated built config
  have finite := Setup.finite_generated finite checked
  obtain ⟨first, hfirst, hshows⟩ := exists_start (G := G) valid seed
  refine ⟨first, hfirst, fun network hreaches => ?_⟩
  obtain ⟨w, hsteps, hshows, htells⟩ := hreaches.tells valid hshows (tells_start valid hfirst)
  exact .of_learned valid traced finite ((kept_initial _).steps valid finite.priced hsteps)
    ((gathered_initial _).steps valid (inv_initial _) hsteps)
    ((learned_initial _).steps valid finite (kept_initial _) hsteps) hshows htells

section Star

/-- Two variables that each share a space with a third one.  The best total is six, with one for the
third variable, one for the first of the two and zero for the other. -/
def Problem.star : Problem (Exact ℚ) where
  objective := .maximize
  declarations := (((∅ : Std.ExtTreeMap String Variable).insert "a" ⟨"a", "x", [0, 1]⟩).insert
    "b" ⟨"b", "y", [0, 1]⟩).insert "c" ⟨"c", "z", [0, 1]⟩
  spaces := [
    ⟨"ab", [⟨"a", [0, 1]⟩, ⟨"b", [0, 1]⟩], #[number 3, number 0, number 1, number 2]⟩,
    ⟨"ac", [⟨"a", [0, 1]⟩, ⟨"c", [0, 1]⟩], #[number 0, number 1, number 4, number 2]⟩]

theorem Problem.built_star : Problem.star.Built := by
  have hempty : Problem.Built (.empty .maximize : Problem (Exact ℚ)) := .empty .maximize
  have ha := hempty.declare "a" "x" [0, 1] rfl (by decide +kernel)
  have hb := ha.declare "b" "y" [0, 1] rfl (by decide +kernel)
  have hc := hb.declare "c" "z" [0, 1] rfl (by decide +kernel)
  exact (hc.enforce (by decide) rfl (by decide +kernel)).enforce (by decide) rfl
    (by decide +kernel)

/-- A wide error is allowed, so that few samples are drawn. -/
def Config.loose : Config (Exact ℚ) := { Config.standard with error := number 2 }

theorem Config.validate_loose : Config.loose.validate = .ok Config.loose := by
  rw [Config.validate, if_neg (by decide +kernel), if_neg (by decide +kernel),
    if_neg (by decide +kernel), if_neg (by decide +kernel)]

/-- The values that are collected of the star are the best of all. -/
theorem Network.attains_star :
    ∃ first network : Network (Exact ℚ) ChaCha.Stream,
      start (.generated .star .loose) 1 = .ok first ∧ first.Reaches network ∧
      network.pool = [] ∧ network.team.collector.assignments.toList = [("a", 1), ("b", 1), ("c", 0)] ∧
      network.Attains (.generated .star .loose) ∧
      Problem.star.Optimal (Problem.star.component "a")
        (Problem.star.spacesOver (Problem.star.component "a"))
        (network.team.collector.assignments[·]?) := by
  obtain ⟨first, hfirst, h⟩ := attains (G := ChaCha.Stream) Problem.built_star
    (by decide +kernel) Config.validate_loose 1
  have hrun : (start (G := ChaCha.Stream) (.generated .star .loose) 1).toOption.any fun first =>
      let network := (first.follow [] 0 40).2
      network.pool.isEmpty &&
        network.team.collector.assignments.toList == [("a", 1), ("b", 1), ("c", 0)] := by
    decide +kernel
  rw [hfirst] at hrun
  obtain ⟨hpool, hvalues⟩ := (Bool.and_eq_true _ _).mp hrun
  have hreaches := reaches_follow first [] 0 40
  have hattains := h _ hreaches
  refine ⟨first, _, hfirst, hreaches, List.isEmpty_iff.mp hpool, beq_iff_eq.mp hvalues, hattains,
    hattains.collected (List.isEmpty_iff.mp hpool) "a" (by decide +kernel) (by decide +kernel) ?_⟩
  have hlow : ∀ child ∈ (Setup.generated .star .loose).children "a",
      (Setup.generated .star .loose).children child = [] := by
    decide +kernel
  exact hlow

end Star

end DcopSearch
