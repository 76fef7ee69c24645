import DcopSearch.Proofs.Protocol.Honest

/-! A cost that is reported is the cost of the values held.  When a variable has answered, its subtree
is at rest: every variable below holds the value that it was told of last, and nothing moves there
until the parent has counted the answer and asks again.  What a parent has counted is the sum over the
subtrees that are at rest. -/

namespace DcopSearch

open CostArithmetic

theorem Exchange.isIdle_iff {K : Type} {x : Exchange K} : x.isIdle = true ↔ x = .idle := by
  cases x <;> simp [isIdle]

section

variable {K : Type} {setup : Setup K} {w w' : World K} {name : String}

namespace World

/-- The variables of a subtree hold values and follow each other's. -/
inductive Rests (setup : Setup K) (w : World K) : String → Prop where
  | intro {name : String} : (w name).ascent.stage = .normalized → (w name).state.Informed →
      (w name).state.current.isSome →
      (∀ child ∈ setup.children name, (w child).state.Follows (w name).state) →
      (∀ child ∈ setup.children name, Rests setup w child) → Rests setup w name

/-- The variable waits for a context, or for its parent to count its answer. -/
def Still (c : Cell K) : Prop :=
  c.ascent.stage = .normalized ∧ (c.exchange = .idle ∨ ∃ cost, c.exchange = .answered cost)

/-- Below a variable that is still all are. -/
theorem Rests.still [CostArithmetic K] (h : Rests setup w name) (valid : setup.Valid)
    (hinv : w.Inv setup) (hn : name ∈ setup.problem.names)
    (hx : (w name).exchange = .idle ∨ ∃ cost, (w name).exchange = .answered cost) :
    ∀ other ∈ setup.subtree name, Still (w other) := by
  induction h with
  | @intro name hs _ _ _ _ ih =>
    intro other ho
    rcases (valid.mem_subtree_iff hn).mp ho with rfl | ⟨child, hc, hm⟩
    · exact ⟨hs, hx⟩
    · have hwaiting : (w name).exchange.stance = .waiting := by
        rcases hx with hx | ⟨cost, hx⟩ <;> rw [hx] <;> rfl
      exact ih child hc (valid.mem_names_of_child hc) (.inl (hinv.child_idle valid hwaiting hc))
        other hm

/-- What changes elsewhere leaves a subtree at rest alone. -/
theorem Rests.alike [CostArithmetic K] (h : Rests setup w name) (valid : setup.Valid)
    (hinv : w.Inv setup) (hn : name ∈ setup.problem.names)
    (hx : (w name).exchange = .idle ∨ ∃ cost, (w name).exchange = .answered cost) {actor : String}
    (hactor : ¬Still (w actor)) (hnear : Near actor w w') :
    ∀ other ∈ setup.subtree name, Cell.Alike (w other) (w' other) := by
  intro other ho
  refine hnear other ?_
  rintro rfl
  exact hactor (h.still valid hinv hn hx other ho)

theorem Rests.frame (h : Rests setup w name) (valid : setup.Valid)
    (hn : name ∈ setup.problem.names)
    (hsame : ∀ other ∈ setup.subtree name, Cell.Alike (w other) (w' other)) :
    Rests setup w' name := by
  induction h with
  | @intro name hs hi hc hf _ ih =>
    have hself := hsame name (Setup.mem_subtree_self hn)
    have hbelow : ∀ child ∈ setup.children name, ∀ other ∈ setup.subtree child,
        Cell.Alike (w other) (w' other) := fun child hm other ho =>
      hsame other (valid.subtree_child hm ho).1
    refine .intro ?_ ?_ ?_ (fun child hm => ?_) fun child hm => ?_
    · rw [hself.stage, hs]
    · rw [hself.state]; exact hi
    · rw [hself.state]; exact hc
    · have hchild := hbelow child hm child
        (Setup.mem_subtree_self (valid.mem_names_of_child hm))
      rw [hself.state, hchild.state]
      exact hf child hm
    · exact ih child hm (valid.mem_names_of_child hm) (hbelow child hm)

end World

end

section Exact

variable {F : Type} [Field F] [LinearOrder F] [LnSqrt F] {setup : Setup (Exact F)}
  {w w' : World (Exact F)}

namespace World

/-- What the values held in a subtree cost. -/
noncomputable def cost (setup : Setup (Exact F)) (w : World (Exact F)) (name : String) : Exact F :=
  ∑ other ∈ setup.subtree name, (w other).state.ownCost (w other).state.currentValue

theorem cost_frame {name : String}
    (hsame : ∀ other ∈ setup.subtree name, Cell.Alike (w other) (w' other)) :
    w'.cost setup name = w.cost setup name :=
  Finset.sum_congr rfl fun other ho => by rw [(hsame other ho).state]

theorem cost_eq (valid : setup.Valid) {name : String} (hn : name ∈ setup.problem.names) :
    w.cost setup name = (w name).state.ownCost (w name).state.currentValue
      + ∑ child ∈ (setup.children name).toFinset, w.cost setup child :=
  valid.sum_subtree hn fun other => (w other).state.ownCost (w other).state.currentValue

/-- What has been counted, and what is about to be, are the costs of the values held. -/
structure Tallied (setup : Setup (Exact F)) (w : World (Exact F)) (name : String) : Prop where
  rests : (w name).exchange.stance = .busy → (w name).state.round.infeasible = false →
    ∀ child ∈ setup.children name, (w child).exchange.isIdle = true → Rests setup w child
  sum : (w name).exchange.stance = .busy → (w name).state.round.infeasible = false →
    (w name).state.round.sum = ∑ child ∈ (setup.children name).toFinset.filter
      fun child => (w child).exchange.isIdle = true, w.cost setup child
  answered : ∀ cost, (w name).exchange = .answered (some cost) →
    Rests setup w name ∧ cost = w.cost setup name

theorem Rests.unmoved {name actor : String} (h : Rests setup w name) (valid : setup.Valid)
    (hinv : w.Inv setup) (hn : name ∈ setup.problem.names)
    (hx : (w name).exchange = .idle ∨ ∃ cost, (w name).exchange = .answered cost)
    (hactor : ¬Still (w actor)) (hnear : Near actor w w') :
    Rests setup w' name ∧ w'.cost setup name = w.cost setup name :=
  have hsame := h.alike valid hinv hn hx hactor hnear
  ⟨h.frame valid hn hsame, cost_frame hsame⟩

/-- The subtree of a child that has been counted stays at rest, and at its cost. -/
theorem Tallied.unmoved {name child actor : String} (h : w.Tallied setup name)
    (valid : setup.Valid) (hinv : w.Inv setup) (hactor : ¬Still (w actor))
    (hnear : Near actor w w') (hb : (w name).exchange.stance = .busy)
    (hi : (w name).state.round.infeasible = false) (hc : child ∈ setup.children name)
    (hidle : (w child).exchange.isIdle = true) :
    Rests setup w' child ∧ w'.cost setup child = w.cost setup child :=
  (h.rests hb hi child hc hidle).unmoved valid hinv (valid.mem_names_of_child hc)
    (.inl (Exchange.isIdle_iff.mp hidle)) hactor hnear

/-- Of a variable that has not changed there is nothing new to tell. -/
theorem Tallied.frame {name actor : String} (h : w.Tallied setup name) (valid : setup.Valid)
    (hinv : w.Inv setup) (hn : name ∈ setup.problem.names) (hactor : ¬Still (w actor))
    (hnear : Near actor w w') (hne : name ≠ actor)
    (hanswered : ∀ cost, (w' name).exchange = .answered (some cost) →
      (w name).exchange = .answered (some cost))
    (hidle : (w name).exchange.stance = .busy → ∀ child ∈ setup.children name,
      (w' child).exchange.isIdle = (w child).exchange.isIdle) : w'.Tallied setup name := by
  have hself := hnear name hne
  refine ⟨fun hb hi child hc hx => ?_, fun hb hi => ?_, fun cost hx => ?_⟩
  · rw [hself.stance] at hb
    rw [hself.state] at hi
    rw [hidle hb child hc] at hx
    exact (h.unmoved valid hinv hactor hnear hb hi hc hx).1
  · rw [hself.stance] at hb
    rw [hself.state] at hi ⊢
    rw [h.sum hb hi]
    refine Finset.sum_congr (Finset.filter_congr fun child hc => ?_) fun child hc => ?_
    · rw [hidle hb child (List.mem_toFinset.mp hc)]
    · obtain ⟨hc, hx⟩ := Finset.mem_filter.mp hc
      have hc := List.mem_toFinset.mp hc
      rw [hidle hb child hc] at hx
      exact (h.unmoved valid hinv hactor hnear hb hi hc hx).2.symm
  · obtain ⟨hrests, rfl⟩ := h.answered cost (hanswered cost hx)
    obtain ⟨hrests', hcost⟩ :=
      hrests.unmoved valid hinv hn (.inr ⟨_, hanswered _ hx⟩) hactor hnear
    exact ⟨hrests', hcost.symm⟩

theorem Tallied.of_waiting {name : String} (hs : (w name).exchange.stance ≠ .busy)
    (hx : ∀ cost, (w name).exchange ≠ .answered cost) : w.Tallied setup name :=
  ⟨fun hb => absurd hb hs, fun hb => absurd hb hs, fun _ ha => absurd ha (hx _)⟩

theorem tallied_rewrite (h : ∀ name ∈ setup.problem.names, w.Tallied setup name)
    (valid : setup.Valid) (hinv : w.Inv setup) {name : String} {cell : Cell (Exact F)}
    {children : List String} {change : String → Cell (Exact F) → Cell (Exact F)}
    (hsub : ∀ child ∈ children, child ∈ setup.children name)
    (halike : ∀ child ∈ children, Cell.Alike (w child) (change child (w child)))
    (hactor : ¬Still (w name))
    (hchange : ∀ child ∈ children, ∀ cost,
      (change child (w child)).exchange = .answered (some cost) →
      (w child).exchange = .answered (some cost))
    (hidle : setup.parent name ≠ none →
      cell.exchange.isIdle = (w name).exchange.isIdle)
    (hcell : (w.rewrite name cell children change).Tallied setup name) :
    ∀ other ∈ setup.problem.names, (w.rewrite name cell children change).Tallied setup other := by
  intro other ho
  by_cases he : other = name
  · rw [he]
    exact hcell
  refine (h other ho).frame valid hinv ho hactor (near_rewrite halike) he (fun cost hx => ?_)
    fun _ child hc => ?_
  · by_cases hm : other ∈ children
    · rw [rewrite_child hm he] at hx
      exact hchange other hm cost hx
    · rwa [rewrite_other he hm] at hx
  · have hp := valid.mem_children.mp hc
    by_cases hcn : child = name
    · subst hcn
      rw [rewrite_self]
      exact hidle (by simp [hp])
    · have hm : child ∉ children := fun hm => he
        (Option.some.inj (hp.symm.trans (valid.mem_children.mp (hsub child hm))))
      rw [rewrite_other hcn hm]

/-- A variable that acts reports what the values held cost. -/
theorem tallied_act (h : ∀ name ∈ setup.problem.names, w.Tallied setup name)
    (valid : setup.Valid) (hinv : w.Inv setup) {name : String} {final : Bool}
    {act : Act (Exact F)} {state : SamplingState (Exact F)}
    (hx : (w name).exchange = .poised final ∨ (w name).exchange = .busy final)
    (hidle : ∀ child ∈ setup.children name, (w child).exchange = .idle)
    (hk : (w name).state.settled.Keeps state)
    (hreport : ∀ cost, act = .report (some cost) →
      Rests setup (w.act setup name act final state) name ∧
        cost = (w.act setup name act final state).cost setup name) :
    ∀ other ∈ setup.problem.names, (w.act setup name act final state).Tallied setup other := by
  have haddressees : ∀ child ∈ act.addressees (setup.children name),
      child ∈ setup.children name := by
    cases act <;> simp [Act.addressees]
  have hself : w.act setup name act final state name = (w name).acting act final state :=
    act_self
  have hasked : act = .sample → ∀ child ∈ setup.children name,
      (w.act setup name act final state child).exchange.isIdle = false := by
    rintro rfl child hc
    have hne : child ≠ name := fun he => valid.not_mem_children_self name (he ▸ hc)
    rw [World.act, rewrite_child (show child ∈ Act.addressees (setup.children name)
      (.sample : Act (Exact F)) from hc) hne]
    rfl
  have hsample : (w.act setup name act final state name).exchange.stance = .busy →
      act = .sample := by
    rw [hself]
    intro hb
    cases act with
    | sample => rfl
    | report cost => cases hb
    | finish => cases hb
  have hcell : (w.act setup name act final state).Tallied setup name := by
    refine ⟨fun hb _ child hc hi => ?_, fun hb _ => ?_, fun cost ha => hreport cost ?_⟩
    · rw [hasked (hsample hb) child hc] at hi
      cases hi
    · rw [Finset.filter_false_of_mem fun child hc => by
        rw [hasked (hsample hb) child (List.mem_toFinset.mp hc)]
        exact Bool.false_ne_true, Finset.sum_empty, Exact.zero_eq, hself]
      exact congrArg Round.sum hk.round
    · rw [hself] at ha
      cases act with
      | report told => exact congrArg Act.report (Exchange.answered.inj ha)
      | sample => cases ha
      | finish => cases ha
  refine tallied_rewrite h valid hinv haddressees (fun child hc => ?_) ?_ (by simp) (fun _ => ?_)
    hcell
  · exact ⟨rfl, rfl, rfl, by simp [hidle child (haddressees child hc), Exchange.stance], by simp⟩
  · rintro ⟨-, hc⟩
    rcases hx with hx | hx <;> simp [hx] at hc
  · rcases hx with hx | hx <;> cases act <;> simp [hx, Cell.acting, Act.exchange, Exchange.isIdle]

/-- Counting the answer of a child makes it one of the idle ones. -/
theorem idle_count {parent name : String} {cost : Option (Exact F)} (valid : setup.Valid)
    (hp : setup.parent name = some parent) :
    (setup.children parent).toFinset.filter
        (fun child => (w.count parent name cost child).exchange.isIdle = true)
      = insert name ((setup.children parent).toFinset.filter
          fun child => (w child).exchange.isIdle = true) := by
  have hchild := valid.mem_children.mpr hp
  have hne : ∀ child ∈ setup.children parent, child ≠ parent := fun child hc he =>
    valid.not_mem_children_self parent (he ▸ hc)
  ext child
  simp only [Finset.mem_filter, Finset.mem_insert, List.mem_toFinset]
  by_cases hcn : child = name
  · subst hcn
    have hname : w.count parent child cost child = { w child with exchange := .idle } :=
      rewrite_child (by simp) (hne child hchild)
    simp [hname, hchild, Exchange.isIdle]
  · have hother : child ∈ setup.children parent → w.count parent name cost child = w child :=
      fun hc => rewrite_other (hne child hc) (by simpa using hcn)
    constructor
    · rintro ⟨hc, hidle⟩
      rw [hother hc] at hidle
      exact .inr ⟨hc, hidle⟩
    · intro hm
      obtain ⟨hc, hidle⟩ := hm.resolve_left hcn
      rw [hother hc]
      exact ⟨hc, hidle⟩

/-- An answer that is counted is added to the sum. -/
theorem Tallied.count {parent name : String} {cost : Option (Exact F)}
    (h : w.Tallied setup parent) (hchild : w.Tallied setup name) (valid : setup.Valid)
    (hinv : w.Inv setup) (hp : setup.parent name = some parent)
    (hx : (w name).exchange = .answered cost) {final : Bool}
    (hb : (w parent).exchange = .busy final) :
    (w.count parent name cost).Tallied setup parent := by
  have hself : w.count parent name cost parent = (w parent).counting cost := count_self
  have hstance : (w parent).exchange.stance = .busy := by rw [hb]; rfl
  have hactor : ¬Still (w parent) := by
    rintro ⟨-, hc⟩
    simp [hb] at hc
  -- with the round still unspoiled, the answer has a cost and the others were unspoiled too
  have hround : (w.count parent name cost parent).state.round.infeasible = false →
      (w parent).state.round.infeasible = false ∧ ∃ told, cost = some told := by
    intro hi
    rw [hself] at hi
    have hi : ((w parent).state.round.infeasible || cost.isNone) = false := hi
    rw [Bool.or_eq_false_iff] at hi
    exact ⟨hi.1, Option.isSome_iff_exists.mp (by simpa using hi.2)⟩
  have hanswer : ∀ told, cost = some told → Rests setup (w.count parent name cost) name ∧
      (w.count parent name cost).cost setup name = told := by
    rintro told rfl
    obtain ⟨hrests, rfl⟩ := hchild.answered told hx
    exact hrests.unmoved valid hinv (valid.mem_names hp).2 (.inr ⟨_, hx⟩) hactor (near_count hx)
  have hcounted : (w parent).state.round.infeasible = false → ∀ child ∈ setup.children parent,
      (w child).exchange.isIdle = true → Rests setup (w.count parent name cost) child ∧
        (w.count parent name cost).cost setup child = w.cost setup child := fun hi child hc =>
    h.unmoved valid hinv hactor (near_count hx) hstance hi hc
  refine ⟨fun _ hi child hc hidle => ?_, fun _ hi => ?_, fun told ha => ?_⟩
  · obtain ⟨hopen, told, htold⟩ := hround hi
    have hm : child ∈ (setup.children parent).toFinset.filter
        fun child => (w.count parent name cost child).exchange.isIdle = true :=
      Finset.mem_filter.mpr ⟨List.mem_toFinset.mpr hc, hidle⟩
    rw [idle_count valid hp, Finset.mem_insert, Finset.mem_filter] at hm
    rcases hm with rfl | ⟨-, hm⟩
    · exact (hanswer told htold).1
    · exact (hcounted hopen child hc hm).1
  · obtain ⟨hopen, told, htold⟩ := hround hi
    have hfresh : name ∉ (setup.children parent).toFinset.filter
        fun child => (w child).exchange.isIdle = true := by
      rw [Finset.mem_filter, hx]
      simp [Exchange.isIdle]
    have hrest : ∑ child ∈ (setup.children parent).toFinset.filter
          (fun child => (w child).exchange.isIdle = true),
          (w.count parent name cost).cost setup child = (w parent).state.round.sum := by
      rw [h.sum hstance hopen]
      refine Finset.sum_congr rfl fun child hc => ?_
      obtain ⟨hc, hidle⟩ := Finset.mem_filter.mp hc
      exact (hcounted hopen child (List.mem_toFinset.mp hc) hidle).2
    rw [idle_count valid hp, Finset.sum_insert hfresh, (hanswer told htold).2, hrest, hself,
      add_comm, htold]
    rfl
  · rw [hself] at ha
    have ha : (w parent).exchange = .answered (some told) := ha
    simp [hb] at ha

theorem tallied_count (h : ∀ name ∈ setup.problem.names, w.Tallied setup name)
    (valid : setup.Valid) (hinv : w.Inv setup) {parent name : String} {cost : Option (Exact F)}
    (hp : setup.parent name = some parent) (hx : (w name).exchange = .answered cost) :
    ∀ other ∈ setup.problem.names, (w.count parent name cost).Tallied setup other := by
  obtain ⟨hpn, hn⟩ := valid.mem_names hp
  obtain ⟨final, hb, _⟩ := hinv.busy_of_answered valid hp hx
  refine tallied_rewrite h valid hinv (by simpa using valid.mem_children.mpr hp)
    (fun child hc => ?_) ?_ (by simp) (fun _ => rfl)
    ((h parent hpn).count (h name hn) valid hinv hp hx hb)
  · obtain rfl := List.mem_singleton.mp hc
    exact ⟨rfl, rfl, rfl, by simp [hx, Exchange.stance], by simp⟩
  · rintro ⟨-, hc⟩
    simp [hb] at hc

section

variable {G : Type} [Generator G]

/-- A leaf reports the cost of the value that it holds. -/
theorem tallied_answer (h : ∀ name ∈ setup.problem.names, w.Tallied setup name)
    (valid : setup.Valid) (hinv : w.Inv setup) {name : String} {final : Bool}
    {act : Act (Exact F)} {state : SamplingState (Exact F)} (hn : name ∈ setup.problem.names)
    (hx : (w name).exchange = .poised final)
    (hk : (w name).state.settled.Keeps state)
    (htells : ∀ cost, act = .report cost → SamplingState.Solves (setup.settings name)
      (setup.Dead name) (w name).state cost state) :
    ∀ other ∈ setup.problem.names, (w.act setup name act final state).Tallied setup other := by
  have hsound := hinv.sound name hn
  have hworking := (hsound.of_poised hx).1
  refine tallied_act h valid hinv (.inl hx)
    (fun child hc => hinv.child_idle valid (by simp [hx, Exchange.stance]) hc) hk
    fun cost hreport => ?_
  have hself : w.act setup name act final state name = (w name).acting act final state :=
    act_self
  have hsolves := htells _ hreport
  generalize htold : some cost = told at hsolves
  cases hsolves with
  | barren _ => cases htold
  | @best _ i best hleaf hcurrent _ hcost =>
    rw [hsound.children] at hleaf
    obtain rfl : best = cost := by
      cases hi : isInfinite best with
      | true => simp [hi] at htold
      | false => simpa [hi] using htold.symm
    refine ⟨.intro ?_ ?_ ?_ (by simp [hleaf]) (by simp [hleaf]), ?_⟩
    · rw [hself]; exact hworking.stage
    · rw [hself]; exact hk.informed hworking.informed
    · rw [hself]
      show state.current.isSome
      rw [hcurrent]
      rfl
    · rw [cost_eq valid hn, hleaf, hself]
      simp only [List.toFinset_nil, Finset.sum_empty, add_zero]
      show best = state.ownCost state.currentValue
      rw [List.getElem?_map] at hcost
      obtain ⟨own, hown, rfl⟩ := Option.map_eq_some_iff.mp hcost
      rw [hk.ownCost, SamplingState.currentValue, hcurrent, Option.getD_some, hk.domain,
        show (w name).state.settled.domain[i]? = some own from hown, Option.getD_some]
      rfl

/-- Reports without a cost do not count as costs: they spoil the round, or there are none. -/
def Strict (setup : Setup (Exact F)) : Prop :=
  setup.config.pruning = true ∨ ∀ name ∈ setup.problem.names, ∀ context,
    ¬setup.Refuted name context

/-- A round that ends in a cost was not spoiled. -/
theorem Strict.joins (strict : Strict setup) (valid : setup.Valid) (honest : w.Honest setup)
    {name : String} (hn : name ∈ setup.problem.names) (hs : (w name).exchange.stance = .busy)
    {cost : Exact F} {state : SamplingState (Exact F)}
    (h : SamplingState.Joins (setup.settings name) (w name).state.round (w name).state.settled
      (some cost) state) :
    (w name).state.round.infeasible = false ∧ cost = (w name).state.round.sum
      + (w name).state.settled.ownCost (w name).state.settled.currentValue := by
  have hcost := h.2
  split at hcost
  next => cases hcost
  next hspoiled =>
    refine ⟨?_, Option.some.inj hcost⟩
    rcases strict with hprune | hnone
    · simpa [show (setup.settings name).pruning = true from hprune] using hspoiled
    · exact honest.unspoiled hn hs fun child hc => hnone child (valid.mem_names_of_child hc)

/-- When all children have been counted, the subtree is at rest, whatever the variable does that
keeps to the value held. -/
theorem Tallied.joined {name : String} (h : w.Tallied setup name) (act : Act (Exact F))
    (valid : setup.Valid) (hinv : w.Inv setup) (hattuned : w.Attuned setup) {final : Bool}
    {state : SamplingState (Exact F)} (hn : name ∈ setup.problem.names)
    (hx : (w name).exchange = .busy final) (hopen : (w name).state.round.infeasible = false)
    (hidle : ∀ child ∈ setup.children name, (w child).exchange = .idle)
    (hk : (w name).state.settled.Keeps state)
    (hcurrent : state.current = (w name).state.settled.current) :
    Rests setup (w.act setup name act final state) name ∧
      (w.act setup name act final state).cost setup name = (w name).state.round.sum
        + (w name).state.settled.ownCost (w name).state.settled.currentValue := by
  have hbusy := (hinv.sound name hn).of_busy hx
  have hstance : (w name).exchange.stance = .busy := by rw [hx]; rfl
  have hisidle : ∀ child ∈ setup.children name, (w child).exchange.isIdle = true :=
    fun child hc => Exchange.isIdle_iff.mpr (hidle child hc)
  have hactor : ¬Still (w name) := by
    rintro ⟨-, hc⟩
    simp [hx] at hc
  have hnear : Near name w (w.act setup name act final state) := near_act hidle
  have hself : w.act setup name act final state name = (w name).acting act final state :=
    act_self
  have hunmoved : ∀ child ∈ setup.children name,
      Rests setup (w.act setup name act final state) child ∧
        (w.act setup name act final state).cost setup child = w.cost setup child :=
    fun child hc => h.unmoved valid hinv hactor hnear hstance hopen hc (hisidle child hc)
  obtain ⟨hhanded, hvalue⟩ := hk.handed hcurrent
  refine ⟨.intro ?_ ?_ ?_ (fun child hc => ?_) fun child hc => (hunmoved child hc).1, ?_⟩
  · rw [hself]; exact hbusy.stage
  · rw [hself]; exact hk.informed hbusy.informed
  · rw [hself]
    show state.current.isSome
    rw [hcurrent]
    exact hbusy.current
  · have hfollows := (hattuned name child (valid.mem_children.mp hc) (by simp [hstance])
      (by rw [hidle child hc]; rfl)).2
    have hne : child ≠ name := fun he => valid.not_mem_children_self name (he ▸ hc)
    rw [hself, (hnear child hne).state]
    intro slot hslot
    show slot.value = state.handed.lookup slot.name
    rw [hhanded]
    exact hfollows slot hslot
  · have hall : (setup.children name).toFinset.filter
        (fun child => (w child).exchange.isIdle = true) = (setup.children name).toFinset :=
      Finset.filter_true_of_mem fun child hc => hisidle child (List.mem_toFinset.mp hc)
    have hsum := h.sum hstance hopen
    rw [hall] at hsum
    rw [cost_eq valid hn, hself, hsum, add_comm]
    refine congrArg₂ (· + ·) (Finset.sum_congr rfl fun child hc => ?_) ?_
    · exact (hunmoved child (List.mem_toFinset.mp hc)).2
    · show state.ownCost state.currentValue = _
      rw [hk.ownCost, hvalue]

/-- After a round a variable reports what its children have, and its own cost. -/
theorem tallied_join (h : ∀ name ∈ setup.problem.names, w.Tallied setup name)
    (valid : setup.Valid) (strict : Strict setup) (hinv : w.Inv setup) (honest : w.Honest setup)
    (hattuned : w.Attuned setup) {name : String} {final : Bool} {act : Act (Exact F)}
    {state : SamplingState (Exact F)}
    (hn : name ∈ setup.problem.names) (hx : (w name).exchange = .busy final)
    (hround : (w name).state.round.received = (setup.children name).length)
    (hk : (w name).state.settled.Keeps state)
    (htells : ∀ cost, act = .report cost → SamplingState.Joins (setup.settings name)
      (w name).state.round (w name).state.settled cost state) :
    ∀ other ∈ setup.problem.names, (w.act setup name act final state).Tallied setup other := by
  have hstance : (w name).exchange.stance = .busy := by rw [hx]; rfl
  have hidle := hinv.idle_of_received hn hx hround
  refine tallied_act h valid hinv (.inr hx) hidle hk fun cost hreport => ?_
  have hjoins := htells _ hreport
  obtain ⟨hopen, rfl⟩ := strict.joins valid honest hn hstance hjoins
  obtain ⟨hrests, hcost⟩ :=
    (h name hn).joined act valid hinv hattuned hn hx hopen hidle hk hjoins.1
  exact ⟨hrests, hcost.symm⟩

theorem tallied_waiting (h : ∀ name ∈ setup.problem.names, w.Tallied setup name)
    (valid : setup.Valid) (hinv : w.Inv setup) {name : String} {cell : Cell (Exact F)}
    {children : List String} {change : String → Cell (Exact F) → Cell (Exact F)}
    (hsub : ∀ child ∈ children, child ∈ setup.children name)
    (halike : ∀ child ∈ children, Cell.Alike (w child) (change child (w child)))
    (hchange : ∀ child ∈ children, (change child (w child)).exchange = (w child).exchange)
    (hactor : ¬Still (w name)) (hs : cell.exchange.stance = .waiting)
    (hx : ∀ cost, cell.exchange ≠ .answered cost)
    (hidle : setup.parent name ≠ none → cell.exchange.isIdle = (w name).exchange.isIdle) :
    ∀ other ∈ setup.problem.names, (w.rewrite name cell children change).Tallied setup other := by
  refine tallied_rewrite h valid hinv hsub halike hactor
    (fun child hc _ ha => (hchange child hc).symm.trans ha) hidle (.of_waiting ?_ ?_)
  · rw [rewrite_self, hs]
    simp
  · rw [rewrite_self]
    exact hx

theorem tallied_prepares (h : ∀ name ∈ setup.problem.names, w.Tallied setup name)
    (valid : setup.Valid) (hinv : w.Inv setup) {name : String} {cell : Cell (Exact F)}
    {children : List String} {change : String → Cell (Exact F) → Cell (Exact F)}
    (ha : w.Prepares setup name cell children change) :
    ∀ other ∈ setup.problem.names, (w.rewrite name cell children change).Tallied setup other := by
  obtain ⟨hwaiting, hanswered⟩ := (hinv.sound name ha.mem_names).waiting_of_early ha.before
  rw [← ha.exchange] at hwaiting hanswered
  exact tallied_waiting h valid hinv ha.below ha.alike ha.answers (fun hc => ha.before hc.1)
    hwaiting hanswered fun _ => by rw [ha.exchange]

/-- Every step leaves the sums what they should be. -/
theorem tallied_step (h : ∀ name ∈ setup.problem.names, w.Tallied setup name)
    (valid : setup.Valid) (priced : setup.Priced) (strict : Strict setup) (hinv : w.Inv setup)
    (hscaled : w.Scaled setup) (honest : w.Honest setup) (hattuned : w.Attuned setup)
    (hs : Step setup G w w') : ∀ name ∈ setup.problem.names, w'.Tallied setup name := by
  cases hs with
  | see hn ha => exact tallied_prepares h valid hinv (prepares_see hn ha)
  | tell hp ha => exact tallied_prepares h valid hinv (hinv.prepares_tell valid hp ha)
  | close hn ha _ => exact tallied_prepares h valid hinv (prepares_close hn ha)
  | @normalize name divisor hn ha =>
    have hclosed : (w name).ascent.stage = .closed := by rw [ha]; rfl
    have hearly : (w name).ascent.stage ≠ .normalized := by simp [hclosed]
    obtain ⟨hwaiting, hanswered, hparent⟩ :=
      (hinv.sound name hn).exchange_normalized hearly divisor
    exact tallied_waiting h valid hinv (fun _ => id)
      (fun child hc => .dividing (hinv.child_reported valid hclosed hc) divisor) (fun _ _ => rfl)
      (fun hc => hearly hc.1) hwaiting hanswered fun hp => (hparent hp).1
  | keep hn hx hs =>
    exact tallied_waiting h valid hinv (by simp) (by simp) (by simp) (fun hc => hs hc.1) rfl
      (by simp [Cell.keeping]) fun _ => by simp [Cell.keeping, hx, Exchange.isIdle]
  | take hn hx hs =>
    refine tallied_waiting h valid hinv (by simp) (by simp) (by simp) ?_ rfl
      (by simp [Cell.taking]) fun _ => by simp [Cell.taking, hx, Exchange.isIdle]
    rintro ⟨-, hc⟩
    simp [hx] at hc
  | answer generator hn hx hacts =>
    exact tallied_answer h valid hinv hn hx (hinv.keeps_answer hn hx hacts.keeps)
      (honest.grounded_answer valid priced hinv hscaled generator hn hx hacts).tells
  | count hp hx => exact tallied_count h valid hinv hp hx
  | join generator hn hx hr hacts =>
    exact tallied_join h valid strict hinv honest hattuned hn hx hr hacts.keeps
      (honest.grounded_join hinv generator hn hx hacts).tells

end

end World

end Exact

end DcopSearch
