import DcopSearch.Proofs.Normalization.Settled
import DcopSearch.Proofs.Protocol.Divisor
import DcopSearch.Proofs.Protocol.Learned

/-! The two lowest levels of the tree end with their best values.  What a variable and its children have
learned are costs after normalization, in which every space is moved by a number of its own and all are
divided by one positive number; so the values that are best for them are best for the spaces as they
were. -/

namespace DcopSearch

open CostArithmetic Exact

variable {F : Type} [Field F] [LinearOrder F] [LnSqrt F]

/-- Of all values for the names, the given ones have the best total over the spaces. -/
structure Problem.Optimal (problem : Problem (Exact F)) (names : Set String)
    (spaces : List (CostSpace (Exact F))) (value? : String → Option Value) : Prop where
  assigns : problem.Assigns names value?
  best : ∀ other? : String → Option Value, (∀ name ∉ names, other? name = value? name) →
    problem.Assigns names other? → ∃ cost other, CostSpace.totalAt? spaces value? = some cost ∧
      CostSpace.totalAt? spaces other? = some other ∧ problem.objective.Prefers cost other

theorem Problem.Optimal.perm {problem : Problem (Exact F)} {names : Set String}
    {spaces spaces' : List (CostSpace (Exact F))} {value? : String → Option Value}
    (h : problem.Optimal names spaces value?) (hp : spaces.Perm spaces') :
    problem.Optimal names spaces' value? := by
  refine ⟨h.assigns, fun other? hagree hassigns => ?_⟩
  rw [← CostSpace.totalAt?_perm hp, ← CostSpace.totalAt?_perm hp]
  exact h.best other? hagree hassigns

variable {setup : Setup (Exact F)} {w : World (Exact F)} {name child : String}
  {value? : String → Option Value}

namespace Setup

omit [Field F] [LinearOrder F] [LnSqrt F] in
/-- The subtree of a variable of the two lowest levels. -/
theorem Low.mem_subtree_iff (hlow : setup.Low name) (valid : setup.Valid)
    (hn : name ∈ setup.problem.names) {other : String} :
    other ∈ setup.subtree name ↔ other ∈ name :: setup.children name := by
  rw [valid.mem_subtree_iff hn, List.mem_cons]
  refine or_congr_right ⟨fun ⟨child, hc, hm⟩ => ?_, fun hc => ⟨other, hc, ?_⟩⟩
  · rcases (valid.mem_subtree_iff (valid.mem_names_of_child hc)).mp hm with rfl | ⟨x, hx, -⟩
    · exact hc
    · rw [hlow child hc] at hx
      cases hx
  · exact mem_subtree_self (valid.mem_names_of_child hc)

theorem Finite.defined (finite : setup.Finite) : setup.Defined := by
  refine ⟨fun space hs hm => ?_, finite.penalty⟩
  obtain ⟨a, ha⟩ := finite.entries space hs _ hm
  cases ha

/-- Moved and divided, finite spaces come to their total, moved and divided. -/
theorem Finite.exists_sum_rescaled (finite : setup.Finite) {low high : CostSpace (Exact F) → F}
    (extents : setup.Extents low high) {divisor : F} (hd : divisor ≠ 0)
    {spaces : List (CostSpace (Exact F))} (hspaces : ∀ space ∈ spaces, space ∈ setup.problem.spaces)
    (h : ∀ space ∈ spaces, ∃ entry, space.lookup? value? = some entry) :
    ∃ cost, (spaces.filterMap (·.lookup? value?)).sum = number cost ∧
      ((spaces.map fun space => space.rescale (Range.shift setup.substitute space) (number divisor)
        setup.substitute).filterMap (·.lookup? value?)).sum
        = number ((cost - (spaces.map low).sum) / divisor) := by
  have hsettled : ∀ space ∈ spaces, (space.settled setup.substitute).lookup? value?
      = space.lookup? value? := by
    intro space hs
    obtain ⟨entry, he⟩ := h space hs
    obtain ⟨a, rfl⟩ :=
      finite.entries space (hspaces space hs) entry (CostSpace.mem_table_of_lookup he)
    rw [CostSpace.lookup?_settled, he]
    rfl
  have hfeasible : ¬CostSpace.Meets (spaces.map (CostSpace.settled setup.substitute)) value? := by
    rintro ⟨settled, hm, entry, he, hinfinite⟩
    obtain ⟨space, hs, rfl⟩ := List.mem_map.mp hm
    rw [hsettled space hs] at he
    obtain ⟨a, rfl⟩ :=
      finite.entries space (hspaces space hs) entry (CostSpace.mem_table_of_lookup he)
    cases hinfinite
  obtain ⟨cost, hcost, hrescaled⟩ := CostSpace.exists_sum_rescaled low hd
    (exists_substitute finite.penalty)
    (fun space hs => finite.defined.spaces space (hspaces space hs)) h hfeasible
  rw [List.filterMap_map] at hcost
  refine ⟨cost, ?_, ?_⟩
  · rw [← hcost]
    exact congrArg List.sum (List.filterMap_congr fun space hs => (hsettled space hs).symm)
  · rw [← hrescaled, List.map_congr_left fun space hs => by
      rw [extents.shift space (hspaces space hs)]]

theorem sum_charge (names : List String) (divisor : Exact F) :
    (names.map fun name => setup.charge divisor name value?).sum
      = (((names.flatMap setup.enforced).map fun space => space.rescale
          (Range.shift setup.substitute space) divisor setup.substitute).filterMap
          (·.lookup? value?)).sum := by
  induction names with
  | nil => rfl
  | cons name rest ih =>
    rw [List.map_cons, List.sum_cons, ih, List.flatMap_cons, List.map_append, List.filterMap_append,
      List.sum_append]
    rfl

end Setup

namespace World

/-- All that is above a variable that has ended has ended. -/
theorem Inv.ended_above (h : w.Inv setup) {other : String} (ha : setup.tree.Above other name)
    (hx : (w name).exchange = .ended) : (w other).exchange = .ended := by
  induction ha with
  | single hp => exact h.ended_parent hp hx
  | tail _ hp ih => exact ih (h.ended_parent hp hx)

/-- The values extend what a variable knows of its ancestors. -/
def Extends (w : World (Exact F)) (name : String) (value? : String → Option Value) : Prop :=
  ∀ other value, (w name).state.contextOf (w name).state.contextKey other = some value →
    value? other = some value

omit [Field F] [LinearOrder F] [LnSqrt F] in
theorem Extends.under (h : w.Extends name value?) (hnamed : (w name).state.name = name) {own : Value}
    (hown : value? name = some own) (other : String) (value : Value)
    (hv : (w name).state.under (w name).state.contextKey own other = some value) :
    value? other = some value := by
  rw [SamplingState.under, hnamed, Function.update_apply] at hv
  split at hv
  next he => rw [he, hown, hv]
  next => exact h other value hv

/-- What a variable charges at values that extend its context. -/
theorem Kept.charge_eq (h : w.Kept setup) (hn : name ∈ setup.problem.names)
    (hs : (w name).ascent.stage = .normalized) (hi : (w name).state.Informed)
    (hextends : w.Extends name value?) {own : Value} (hown : value? name = some own)
    (hm : own ∈ setup.domain name) :
    setup.charge (w name).state.scalingFactor name value?
      = (w name).state.costAt (w name).state.contextKey own := by
  have hsound := h.inv.sound name hn
  rw [Setup.charge, ← ((h.scaled.cells name hn).normalized hs).2]
  exact ((hsound.sampling hs).costAt_eq hi (hsound.domain_eq hs ▸ hm)
    (hextends.under hsound.named hown)).symm

/-- What a child charges depends only on what its parent knows and on the values of the two. -/
theorem Kept.charge_child (h : w.Kept setup) (valid : setup.Valid) {parent : String}
    (hp : setup.parent name = some parent) (hs : (w name).ascent.stage = .normalized)
    (hi : (w name).state.Informed) (hf : (w name).state.Follows (w parent).state)
    (hparent : (w parent).state.Sound setup.problem) (hextends : w.Extends parent value?)
    {above own : Value} (habove : value? parent = some above) (hown : value? name = some own) :
    setup.charge (w parent).state.scalingFactor name (Function.update
        ((w parent).state.under (w parent).state.contextKey above) name (some own))
      = setup.charge (w parent).state.scalingFactor name value? := by
  obtain ⟨hpn, hn⟩ := valid.mem_names hp
  have hsound := h.inv.sound name hn
  have hnamed := (h.inv.sound parent hpn).named
  rw [Setup.charge, Setup.charge, ← (h.scaled.shares parent name hp).normalized hs,
    ← ((h.scaled.cells name hn).normalized hs).2]
  refine congrArg List.sum (List.filterMap_congr fun space hspace => ?_)
  refine CostSpace.lookup?_congr fun other ho => ?_
  rw [Function.update_apply]
  split
  next he => rw [he, hown]
  next hne =>
    -- any other name of the scope is a slot, of which the parent has handed the value down
    have hm := (hsound.sampling hs).scopes space hspace other ho
    rw [SamplingState.contextNames, List.mem_append, hsound.named, List.mem_singleton] at hm
    obtain ⟨slot, hslot, rfl⟩ := List.mem_map.mp (hm.resolve_right hne)
    obtain ⟨value, hv⟩ := Option.isSome_iff_exists.mp (hi slot hslot)
    have hheld := (hf slot hslot).symm.trans hv
    rw [SamplingState.handed, hparent.lookup_entries, SamplingState.under, hnamed,
      Function.update_apply] at hheld
    rw [SamplingState.under, hnamed, Function.update_apply]
    split
    next he => rw [he, habove]
    next hnp =>
      rw [if_neg hnp] at hheld
      rw [hheld, hextends _ _ hheld]

/-- The values that variables have ended with extend what is known of them. -/
theorem Kept.extends (h : w.Kept setup) (valid : setup.Valid) (hn : name ∈ setup.problem.names)
    (hx : (w name).exchange = .ended)
    (hvalue : ∀ other ∈ setup.problem.names, (w other).exchange = .ended →
      value? other = some (w other).state.currentValue) : w.Extends name value? := by
  intro other value hv
  rw [SamplingState.contextOf_contextKey] at hv
  obtain ⟨before, after, hsplit, -⟩ := List.lookup_eq_some_iff.mp hv
  obtain ⟨slot, hm, he⟩ : ∃ slot ∈ (w name).state.slots,
      (slot.name, slot.value.getD 0) = (other, value) :=
    List.mem_map.mp (by simp [hsplit])
  obtain ⟨rfl, rfl⟩ := Prod.mk.inj he
  obtain ⟨ho, hended, hslot⟩ := h.attuned.ended valid h.inv hn hx slot hm
  rw [hvalue slot.name ho hended, hslot, Option.getD_some]

/-- Other values for a variable and its children still extend what the variable knows. -/
theorem Extends.of_agree (h : w.Extends name value?) (valid : setup.Valid) (hinv : w.Inv setup)
    (hn : name ∈ setup.problem.names) (hs : (w name).ascent.stage = .normalized)
    {other? : String → Option Value}
    (hagree : ∀ other ∉ name :: setup.children name, other? other = value? other) :
    w.Extends name other? := by
  intro other value hv
  have habove := hinv.above_of_context hn hs hv
  rw [hagree other, h other value hv]
  intro hm
  rcases List.mem_cons.mp hm with rfl | hc
  · exact valid.spans.above_irrefl other habove
  · exact valid.spans.above_irrefl other (habove.tail (valid.mem_children.mp hc))

/-- A space that a variable or one of its children enforces lies over these and over variables that
have ended before. -/
theorem Inv.ended_of_scope (h : w.Inv setup) (valid : setup.Valid) (traced : setup.Traced)
    (hended : ∀ other ∈ name :: setup.children name, (w other).exchange = .ended)
    {space : CostSpace (Exact F)}
    (hspace : space ∈ (name :: setup.children name).flatMap setup.enforced) {other : String}
    (ho : other ∈ space.scope) : (w other).exchange = .ended := by
  obtain ⟨enforcer, hm, hs⟩ := List.mem_flatMap.mp hspace
  obtain ⟨-, -, hscope⟩ := (valid.mem_enforced_iff traced).mp hs
  rcases hscope other ho with rfl | ha
  · exact hended other hm
  · exact h.ended_above ha (hended enforcer hm)

section Ended

variable (valid : setup.Valid) (hkept : w.Kept setup)
  (hended : ∀ other ∈ name :: setup.children name, (w other).exchange = .ended)
include valid hkept hended

/-- A child that has ended is at rest under the values of its parent. -/
theorem Kept.child_ended (hc : child ∈ setup.children name) :
    (w child).ascent.stage = .normalized ∧ (w child).state.Informed ∧
      (w child).state.Follows (w name).state := by
  have hx := hended child (List.mem_cons_of_mem _ hc)
  obtain ⟨hs, hi, -⟩ := hkept.inv.handing (valid.mem_names_of_child hc)
    (by simp [hx, Exchange.stance])
  exact ⟨hs, hi, (hkept.attuned name child (valid.mem_children.mp hc)
    (by simp [hended name List.mem_cons_self, Exchange.stance]) (by rw [hx]; rfl)).2⟩

/-- What the children charge with the values held is the least that they can. -/
theorem Learned.below_eq (h : w.Learned setup) (hlow : setup.Low name)
    (hn : name ∈ setup.problem.names)
    (hvalue : ∀ other ∈ name :: setup.children name,
      value? other = some (w other).state.currentValue)
    (hextends : w.Extends name value?) :
    (w name).state.below setup (w name).state.contextKey (w name).state.currentValue
      = ∑ child ∈ (setup.children name).toFinset,
          setup.charge (w name).state.scalingFactor child value? := by
  have hx := hended name List.mem_cons_self
  obtain ⟨-, -, hstate⟩ := hkept.inv.handing hn (by simp [hx, Exchange.stance])
  rw [SamplingState.below, (hkept.inv.sound name hn).named, Setup.below]
  refine Finset.sum_congr rfl fun child hc => ?_
  have hc := List.mem_toFinset.mp hc
  have hp := valid.mem_children.mp hc
  have hcn := valid.mem_names_of_child hc
  have hcx := hended child (List.mem_cons_of_mem _ hc)
  obtain ⟨hcs, hci, hf⟩ := hkept.child_ended valid hended hc
  have hcsound := hkept.inv.sound child hcn
  have hcurrent : (w child).state.currentValue ∈ setup.domain child :=
    hcsound.domain_eq hcs ▸ (hcsound.sampling hcs).currentValue_mem valid.wellFormed
  calc setup.cheapest (w name).state.scalingFactor child
        ((w name).state.under (w name).state.contextKey (w name).state.currentValue)
      = (w child).state.costAt (w child).state.contextKey (w child).state.currentValue :=
        h.cheapest_eq valid hkept hp (hlow child hc) hcs hci
          ((h child hcn).chooses (hlow.child hc) (.inl hcx)).current (by simp [hcx]) hf hstate
    _ = setup.charge (w name).state.scalingFactor child (Function.update
          ((w name).state.under (w name).state.contextKey (w name).state.currentValue) child
          (some (w child).state.currentValue)) :=
        hkept.costAt_eq valid hp hcs hci hf hstate hcurrent
    _ = setup.charge (w name).state.scalingFactor child value? :=
        hkept.charge_child valid hp hcs hci hf hstate hextends (hvalue name List.mem_cons_self)
          (hvalue child (List.mem_cons_of_mem _ hc))

/-- With no values the children charge less than the least that they can. -/
theorem Kept.below_prefers [IsStrictOrderedRing F] (finite : setup.Finite)
    (hn : name ∈ setup.problem.names) {own : Value} (hown : value? name = some own)
    (hextends : w.Extends name value?)
    (hassigns : ∀ child ∈ setup.children name, ∃ value ∈ setup.domain child,
      value? child = some value) :
    setup.problem.objective.Prefers
      ((w name).state.below setup (w name).state.contextKey own)
      (∑ child ∈ (setup.children name).toFinset,
        setup.charge (w name).state.scalingFactor child value?) := by
  have hx := hended name List.mem_cons_self
  obtain ⟨hs, -, hstate⟩ := hkept.inv.handing hn (by simp [hx, Exchange.stance])
  rw [SamplingState.below, (hkept.inv.sound name hn).named, Setup.below]
  refine Objective.Prefers.sum fun child hc => ?_
  have hc := List.mem_toFinset.mp hc
  obtain ⟨hcs, hci, hf⟩ := hkept.child_ended valid hended hc
  obtain ⟨value, hm, hv⟩ := hassigns child hc
  rw [← hkept.charge_child valid (valid.mem_children.mp hc) hcs hci hf hstate hextends hown hv]
  refine (Objective.best_prefers (List.ne_nil_of_mem (List.mem_map_of_mem hm)) ?_).2 _
    (List.mem_map_of_mem hm)
  intro cost hcost
  obtain ⟨other, -, rfl⟩ := List.mem_map.mp hcost
  exact finite.exists_charge ((hkept.scaled.cells name hn).normalized hs).1 child _

/-- The values held are the best ones for what a variable and its children charge. -/
theorem Learned.prefers [IsStrictOrderedRing F] (h : w.Learned setup) (finite : setup.Finite)
    (hlow : setup.Low name) (hn : name ∈ setup.problem.names) {other? : String → Option Value}
    (hvalue : ∀ other ∈ name :: setup.children name,
      value? other = some (w other).state.currentValue)
    (hextends : w.Extends name value?) (hother : w.Extends name other?)
    (hassigns : ∀ other ∈ name :: setup.children name, ∃ own ∈ setup.domain other,
      other? other = some own) :
    setup.problem.objective.Prefers
      (∑ child ∈ (setup.children name).toFinset,
          setup.charge (w name).state.scalingFactor child value?
        + setup.charge (w name).state.scalingFactor name value?)
      (∑ child ∈ (setup.children name).toFinset,
          setup.charge (w name).state.scalingFactor child other?
        + setup.charge (w name).state.scalingFactor name other?) := by
  have hx := hended name List.mem_cons_self
  obtain ⟨hs, hi, hstate⟩ := hkept.inv.handing hn (by simp [hx, Exchange.stance])
  have hdomain := (hkept.inv.sound name hn).domain_eq hs
  obtain ⟨own, hown, hoother⟩ := hassigns name List.mem_cons_self
  have hcurrent : (w name).state.currentValue ∈ setup.domain name :=
    hdomain ▸ hstate.currentValue_mem valid.wellFormed
  have hbest := ((h name hn).chooses hlow (.inl hx)).best own (hdomain ▸ hown)
  rw [← hkept.charge_eq hn hs hi hextends (hvalue name List.mem_cons_self) hcurrent,
    ← hkept.charge_eq hn hs hi hother hoother hown,
    h.below_eq valid hkept hended hlow hn hvalue hextends] at hbest
  obtain ⟨a, ha⟩ := finite.exists_charge ((hkept.scaled.cells name hn).normalized hs).1 name other?
  have hbelow := hkept.below_prefers valid hended finite hn hoother hother fun child hc =>
    hassigns child (List.mem_cons_of_mem _ hc)
  refine hbest.trans (hbelow.add ?_)
  rw [ha]
  exact setup.problem.objective.prefers_self a

end Ended

/-- The values that variables have ended with are declared ones. -/
theorem Kept.allows (h : w.Kept setup) (valid : setup.Valid) (hn : name ∈ setup.problem.names)
    (hx : (w name).exchange = .ended) : setup.problem.Allows name (w name).state.currentValue := by
  obtain ⟨-, -, hstate⟩ := h.inv.handing hn (by simp [hx, Exchange.stance])
  have hallows := hstate.allows_own (hstate.currentValue_mem valid.wellFormed)
  rwa [(h.inv.sound name hn).named] at hallows

section Ended

variable (valid : setup.Valid) (traced : setup.Traced) (hkept : w.Kept setup)
  (hended : ∀ other ∈ name :: setup.children name, (w other).exchange = .ended)
  (hvalue : ∀ other ∈ setup.problem.names, (w other).exchange = .ended →
    value? other = some (w other).state.currentValue)
include valid traced hkept hended hvalue

/-- Where a variable and its children have values, the spaces that they enforce have entries. -/
theorem Kept.exists_entry {other? : String → Option Value}
    (hagree : ∀ other ∉ name :: setup.children name, other? other = value? other)
    (hassigns : setup.problem.Assigns {other | other ∈ name :: setup.children name} other?) :
    ∀ space ∈ (name :: setup.children name).flatMap setup.enforced,
      ∃ entry, space.lookup? other? = some entry := by
  intro space hspace
  obtain ⟨enforcer, -, hs⟩ := List.mem_flatMap.mp hspace
  have hs := (List.mem_filter.mp hs).1
  refine (valid.wellFormed.fits space hs).exists_entry fun other ho => ?_
  by_cases hm : other ∈ name :: setup.children name
  · exact hassigns other hm
  · have hn := PseudoTree.mem_scope_names valid.wellFormed hs ho
    have hx := hkept.inv.ended_of_scope valid traced hended hspace ho
    exact ⟨_, (hagree other hm).trans (hvalue other hn hx), hkept.allows valid hn hx⟩

/-- A variable that has ended after its children, which are leaves, holds with them the best values for
the spaces that they enforce. -/
theorem Learned.optimal [IsStrictOrderedRing F] (h : w.Learned setup) (finite : setup.Finite)
    (hgathered : w.Gathered setup) (hlow : setup.Low name) (hn : name ∈ setup.problem.names) :
    setup.problem.Optimal {other | other ∈ name :: setup.children name}
      ((name :: setup.children name).flatMap setup.enforced) value? := by
  have hx := hended name List.mem_cons_self
  obtain ⟨hs, -, -⟩ := hkept.inv.handing hn (by simp [hx, Exchange.stance])
  have hnames : ∀ other ∈ name :: setup.children name, other ∈ setup.problem.names := by
    intro other ho
    rcases List.mem_cons.mp ho with rfl | hc
    · exact hn
    · exact valid.mem_names_of_child hc
  have hheld := fun other ho => hvalue other (hnames other ho) (hended other ho)
  have hown : setup.problem.Assigns {other | other ∈ name :: setup.children name} value? :=
    fun other ho => ⟨_, hheld other ho, hkept.allows valid (hnames other ho) (hended other ho)⟩
  refine ⟨hown, fun other? hagree hassigns => ?_⟩
  have hentries := hkept.exists_entry valid traced hended hvalue (fun _ _ => rfl) hown
  have hentries' := hkept.exists_entry valid traced hended hvalue hagree hassigns
  have hextends := hkept.extends valid hn hx hvalue
  have hprefers := h.prefers valid hkept hended finite hlow hn hheld hextends
    (hextends.of_agree valid hkept.inv hn hs hagree) fun other ho => by
      obtain ⟨own, hown, domain, hd, hm⟩ := hassigns other ho
      rw [Setup.domain?_eq (hnames other ho)] at hd
      exact ⟨own, Option.some.inj hd ▸ hm, hown⟩
  -- in the costs as they were, this is a comparison of what is left when they are moved and divided
  obtain ⟨low, high, extents⟩ := finite.defined.exists_extents valid
  have hdivisor : 0 < setup.divisor low high name := extents.divisor_pos
  have hspaces : ∀ space ∈ (name :: setup.children name).flatMap setup.enforced,
      space ∈ setup.problem.spaces := by
    intro space hspace
    obtain ⟨enforcer, -, hs⟩ := List.mem_flatMap.mp hspace
    exact (List.mem_filter.mp hs).1
  obtain ⟨cost, hcost, hrescaled⟩ :=
    finite.exists_sum_rescaled extents hdivisor.ne' hspaces hentries
  obtain ⟨cost', hcost', hrescaled'⟩ :=
    finite.exists_sum_rescaled extents hdivisor.ne' hspaces hentries'
  have hcharges : ∀ v? : String → Option Value,
      ∑ child ∈ (setup.children name).toFinset,
          setup.charge (w name).state.scalingFactor child v?
        + setup.charge (w name).state.scalingFactor name v?
      = ((((name :: setup.children name).flatMap setup.enforced).map fun space => space.rescale
          (Range.shift setup.substitute space) (number (setup.divisor low high name))
          setup.substitute).filterMap (·.lookup? v?)).sum := by
    intro v?
    rw [← Setup.sum_charge, List.map_cons, List.sum_cons, add_comm,
      List.sum_toFinset _ (valid.nodup_children name),
      hgathered.scalingFactor_eq valid traced hkept.inv hkept.scaled extents hn hs]
  rw [hcharges, hcharges, hrescaled, hrescaled'] at hprefers
  exact ⟨number cost, number cost', (CostSpace.totalAt?_eq hentries).trans (congrArg some hcost),
    (CostSpace.totalAt?_eq hentries').trans (congrArg some hcost'), (Objective.Prefers.rescaled_iff hdivisor).mp hprefers⟩

end Ended

/-- A component of which all has ended, with a tree that is no deeper than its root and the children of
this, has the best of all its values. -/
theorem Learned.optimal_component [IsStrictOrderedRing F] (h : w.Learned setup) (valid : setup.Valid)
    (traced : setup.Traced) (finite : setup.Finite) (hkept : w.Kept setup)
    (hgathered : w.Gathered setup) (hn : name ∈ setup.problem.names)
    (hp : setup.parent name = none) (hlow : setup.Low name)
    (hended : ∀ other ∈ setup.problem.component name, (w other).exchange = .ended)
    (hvalue : ∀ other ∈ setup.problem.names, (w other).exchange = .ended →
      value? other = some (w other).state.currentValue) :
    setup.problem.Optimal (setup.problem.component name)
      (setup.problem.spacesOver (setup.problem.component name)) value? := by
  have hmem : ∀ other, other ∈ name :: setup.children name ↔ other ∈ setup.problem.component name := by
    intro other
    rw [valid.component_root traced hp, hlow.mem_subtree_iff valid hn]
  have hnodup : (name :: setup.children name).Nodup :=
    List.nodup_cons.mpr ⟨valid.not_mem_children_self name, valid.nodup_children name⟩
  have hlist := h.optimal valid traced hkept (fun other ho => hended other ((hmem other).mp ho))
    hvalue finite hgathered hlow hn
  rw [show {other | other ∈ name :: setup.children name} = (setup.problem.component name : Set String)
    from Set.ext hmem] at hlist
  exact hlist.perm (valid.enforced_perm traced hn hnodup hmem)

end World

end DcopSearch
