import DcopSearch.Proofs.Protocol.Tally

/-! The values held in a subtree.  In a subtree at rest all variables agree about the values of the
others, so that what they hold costs the entries of their spaces at one assignment.  Whatever steps are
taken, a report that is under way is about such a subtree or about a refuted one. -/

namespace DcopSearch

open CostArithmetic

variable {K : Type}

namespace SamplingState

variable {s : SamplingState K}

/-- The value of an ancestor, as far as the variable knows it. -/
def context (s : SamplingState K) (name : String) : Option Value :=
  (s.slots.find? (·.name == name)).bind Slot.value

theorem Informed.contextOf_eq (h : s.Informed) : s.contextOf s.contextKey = s.context := by
  funext name
  rw [contextOf_contextKey, context]
  have hall : ∀ slots : List Slot, (∀ slot ∈ slots, slot.value.isSome) →
      (slots.map fun slot => (slot.name, slot.value.getD 0)).lookup name
        = (slots.find? (·.name == name)).bind Slot.value := by
    intro slots
    induction slots with
    | nil => exact fun _ => rfl
    | cons slot rest ih =>
      intro hslots
      obtain ⟨value, hv⟩ := Option.isSome_iff_exists.mp (hslots slot (by simp))
      rw [List.map_cons, List.lookup_cons, List.find?_cons, BEq.comm]
      cases he : slot.name == name with
      | true => simp [hv]
      | false => exact ih fun other ho => hslots other (by simp [ho])
  exact hall s.slots h

theorem mem_of_contextOf {key : List Value} {name : String} {value : Value}
    (h : s.contextOf key name = some value) : name ∈ s.slots.map Slot.name := by
  obtain ⟨before, after, hsplit, -⟩ := List.lookup_eq_some_iff.mp h
  exact (List.of_mem_zip (a := name) (b := value) (by rw [hsplit]; simp)).1

end SamplingState

section

variable [CostArithmetic K] {setup : Setup K} {w : World K} {name child : String}

namespace World

/-- The values held in the subtree of a variable, and above it those that the variable knows. -/
noncomputable def held (setup : Setup K) (w : World K) (name other : String) : Option Value :=
  if other ∈ setup.subtree name then some (w other).state.currentValue
  else (w name).state.contextOf (w name).state.contextKey other

/-- The slots of a variable are above it. -/
theorem Inv.above_of_context (h : w.Inv setup) (hn : name ∈ setup.problem.names)
    (hs : (w name).ascent.stage = .normalized) {other : String} {value : Value}
    (hv : (w name).state.contextOf (w name).state.contextKey other = some value) :
    setup.tree.Above other name := by
  have hsound := h.sound name hn
  have hm := SamplingState.mem_of_contextOf hv
  rw [hsound.slots hs, Std.ExtTreeSet.mem_toList] at hm
  rcases hsound.above other hm with ha | ⟨-, hr⟩
  · exact ha
  · rw [hsound.reported, hs] at hr
    cases hr

/-- A variable's own view of things is part of what is held. -/
theorem Inv.under_le_held (h : w.Inv setup) (valid : setup.Valid)
    (hn : name ∈ setup.problem.names) (hs : (w name).ascent.stage = .normalized) {other : String}
    {value : Value} (hv : (w name).state.under (w name).state.contextKey
      (w name).state.currentValue other = some value) :
    w.held setup name other = some value := by
  rw [SamplingState.under, (h.sound name hn).named, Function.update_apply] at hv
  unfold held
  split at hv
  next he =>
    rw [he, if_pos (Setup.mem_subtree_self hn)]
    exact hv
  next he =>
    rw [if_neg fun hm => valid.not_above_of_mem hm (h.above_of_context hn hs hv)]
    exact hv

/-- What is held below a variable at rest is held by it. -/
theorem Rests.held_le (h : Rests setup w name) (valid : setup.Valid) (hinv : w.Inv setup)
    (hn : name ∈ setup.problem.names) (hc : child ∈ setup.children name) {other : String}
    {value : Value} (hv : w.held setup child other = some value) :
    w.held setup name other = some value := by
  obtain ⟨hs, hi, -, hfollows, hbelow⟩ := h
  unfold held at hv
  split at hv
  next hm =>
    rw [held, if_pos (valid.subtree_child hc hm).1]
    exact hv
  next hm =>
    obtain ⟨-, hinformed, -⟩ := hbelow child hc
    exact hinv.under_le_held valid hn hs ((hfollows child hc).context_le
      ((hinv.sound name hn).sampling hs) hinformed other value hv)

/-- Of a subtree at rest every variable has a value, the divisor of the others, and a view of things
that is part of what is held. -/
theorem Rests.agree (h : Rests setup w name) (valid : setup.Valid) (hinv : w.Inv setup)
    (hscaled : w.Scaled setup) (hn : name ∈ setup.problem.names) :
    ∀ other ∈ setup.subtree name, (w other).ascent.stage = .normalized ∧
      (w other).state.Informed ∧ (w other).state.current.isSome ∧
      (w other).state.scalingFactor = (w name).state.scalingFactor ∧
      ∀ another value, (w other).state.under (w other).state.contextKey
        (w other).state.currentValue another = some value →
        w.held setup name another = some value := by
  have hrests := h
  induction h with
  | @intro name hs hi hcurrent _ hbelow ih =>
    intro other ho
    rcases (valid.mem_subtree_iff hn).mp ho with rfl | ⟨child, hc, hm⟩
    · exact ⟨hs, hi, hcurrent, rfl, fun _ _ => hinv.under_le_held valid hn hs⟩
    · obtain ⟨hos, hoi, hocurrent, hfactor, hle⟩ :=
        ih child hc (valid.mem_names_of_child hc) (hbelow child hc) other hm
      obtain ⟨hchild, -⟩ := hbelow child hc
      have hshare := (hscaled.shares name child (valid.mem_children.mp hc)).normalized hchild
      exact ⟨hos, hoi, hocurrent, hfactor.trans hshare, fun another value hv =>
        hrests.held_le valid hinv hn hc (hle another value hv)⟩

end World

end

section Exact

variable {F G : Type} [Field F] [LinearOrder F] [LnSqrt F] [Generator G]
  {setup : Setup (Exact F)} {w w' : World (Exact F)} {name : String}

/-- The cost is what the normalized spaces of a subtree sum up to at the values, and none of them is
without an entry there. -/
structure Setup.CostsAt (setup : Setup (Exact F)) (divisor : Exact F) (name : String)
    (value? : String → Option Value) (cost : Exact F) : Prop where
  entries : ∀ other ∈ setup.subtree name, ∀ space ∈ setup.normalizedSpaces divisor other,
    ∃ entry, space.lookup? value? = some entry
  sum : cost = ∑ other ∈ setup.subtree name,
    ((setup.normalizedSpaces divisor other).filterMap (·.lookup? value?)).sum

namespace World

omit [Generator G] in
/-- The cost of a subtree at rest is that of the values held. -/
theorem Rests.costsAt (h : Rests setup w name) (valid : setup.Valid) (hinv : w.Inv setup)
    (hscaled : w.Scaled setup) (hn : name ∈ setup.problem.names) :
    setup.CostsAt (w name).state.scalingFactor name (w.held setup name) (w.cost setup name) := by
  have hentry : ∀ other ∈ setup.subtree name,
      ∀ space ∈ setup.normalizedSpaces (w name).state.scalingFactor other,
      ∃ entry, space.lookup? ((w other).state.under (w other).state.contextKey
          (w other).state.currentValue) = some entry ∧
        space.lookup? (w.held setup name) = some entry := by
    intro other ho space hspace
    obtain ⟨hs, hi, -, hfactor, hle⟩ := h.agree valid hinv hscaled hn other ho
    have hon := (Setup.mem_subtree.mp ho).1
    have hsound := (hinv.sound other hon).sampling hs
    rw [← hfactor, ← ((hscaled.cells other hon).normalized hs).2] at hspace
    obtain ⟨entry, he⟩ :=
      hsound.exists_entry hi (hsound.currentValue_mem valid.wellFormed) hspace
    rw [funext (hsound.lookup_entries _)] at he
    exact ⟨entry, he, CostSpace.lookup?_mono hle he⟩
  refine ⟨fun other ho space hspace => ?_, Finset.sum_congr rfl fun other ho => ?_⟩
  · obtain ⟨entry, -, he⟩ := hentry other ho space hspace
    exact ⟨entry, he⟩
  · obtain ⟨hs, -, -, hfactor, -⟩ := h.agree valid hinv hscaled hn other ho
    have hon := (Setup.mem_subtree.mp ho).1
    rw [((hinv.sound other hon).sampling hs).ownCost_eq, SamplingState.costAt, Exact.total_eq_sum,
      ((hscaled.cells other hon).normalized hs).2, hfactor]
    refine congrArg List.sum (List.filterMap_congr fun space hspace => ?_)
    obtain ⟨entry, hunder, hheld⟩ := hentry other ho space hspace
    rw [hunder, hheld]

/-- What holds in every world that the search can reach, of its costs in particular. -/
structure Kept (setup : Setup (Exact F)) (w : World (Exact F)) : Prop where
  inv : w.Inv setup
  scaled : w.Scaled setup
  attuned : w.Attuned setup
  honest : w.Honest setup
  tallied : Strict setup → ∀ name ∈ setup.problem.names, w.Tallied setup name

omit [Generator G] in
theorem kept_initial (setup : Setup (Exact F)) : (World.initial setup).Kept setup where
  inv := inv_initial setup
  scaled := scaled_initial setup
  attuned := attuned_initial setup
  honest := honest_initial setup
  tallied _ _ _ := .of_waiting (by simp [World.initial, Cell.initial, Exchange.stance])
    (by simp [World.initial, Cell.initial])

theorem Kept.step (h : w.Kept setup) (valid : setup.Valid) (priced : setup.Priced)
    (hs : Step setup G w w') : w'.Kept setup where
  inv := h.inv.step valid hs
  scaled := h.scaled.step valid h.inv hs
  attuned := h.attuned.step valid h.inv hs
  honest := h.honest.step valid priced h.inv h.scaled h.attuned hs
  tallied strict :=
    tallied_step (h.tallied strict) valid priced strict h.inv h.scaled h.honest h.attuned hs

/-- A run keeps to it. -/
theorem Kept.steps (h : w.Kept setup) (valid : setup.Valid) (priced : setup.Priced)
    (hs : Steps setup G w w') : w'.Kept setup := by
  induction hs with
  | refl => exact h
  | tail _ hs ih => exact ih.step valid priced hs

end World

end Exact

end DcopSearch
