import DcopSearch.Proofs.Bandit.Values
import DcopSearch.Proofs.Constraint.WellFormed
import DcopSearch.Sampling.Reaction

/-! What a variable knows while it samples.  A sound state holds values of declared domains only, and
its spaces lie over the names that its context speaks of.  Once it is informed, that is once every
slot has a value, all look-ups succeed: the context can be handed down and every value of the
variable has a cost. -/

namespace DcopSearch

open CostArithmetic

variable {K : Type}

/-- Two parallel lists give a name the value that the list of their pairs gives it. -/
theorem CostSpace.pairedValue?_eq_lookup (names : List String) (values : List Value)
    (name : String) : pairedValue? names values name = (names.zip values).lookup name := by
  induction names generalizing values with
  | nil => simp [pairedValue?]
  | cons first rest ih =>
    cases values with
    | nil =>
      simp only [pairedValue?, List.zip_nil_right, List.lookup_nil]
      cases (first :: rest).idxOf? name <;> simp
    | cons value values =>
      rw [List.zip_cons_cons, List.lookup_cons, pairedValue?, List.idxOf?_cons]
      by_cases h : first = name
      · subst h; simp
      · have hne : (name == first) = false := by simpa using Ne.symm h
        rw [← ih, pairedValue?]
        simp only [beq_iff_eq, h, if_false, hne, Option.bind_map]
        rfl

namespace Slot

/-- With each name once, assigning changes the slot of the name alone. -/
theorem assign_eq_map {slots : List Slot} (h : (slots.map Slot.name).Nodup) (name : String)
    (value : Value) :
    assign name value slots
      = slots.map fun slot => if slot.name = name then { slot with value := some value } else slot := by
  induction slots with
  | nil => rfl
  | cons slot rest ih =>
    rw [List.map_cons, List.nodup_cons] at h
    have hrest : ∀ other ∈ rest, slot.name = name → other.name ≠ name := by
      rintro other ho hs rfl
      exact h.1 (hs ▸ List.mem_map_of_mem ho)
    unfold assign
    by_cases hs : slot.name = name
    · have hany : (rest.any fun other => other.name == name) = false := by
        simpa using fun other ho => hrest other ho hs
      rw [if_pos ⟨hs, by simp [hany]⟩, List.map_cons, if_pos hs, hs]
      have hid : rest.map (fun slot : Slot => if slot.name = name then
          { slot with value := some value } else slot) = rest.map id :=
        List.map_congr_left fun other ho => if_neg (hrest other ho hs)
      rw [hid, List.map_id]
    · rw [if_neg (fun hc => hs hc.1), List.map_cons, if_neg hs, ih h.2]

/-- Assigning entries one after the other gives each slot the value that the entries have for it. -/
theorem foldl_assign {slots : List Slot} (h : (slots.map Slot.name).Nodup)
    {entries : List (String × Value)} (he : (entries.map Prod.fst).Nodup) :
    entries.foldl (fun slots entry => assign entry.1 entry.2 slots) slots
      = slots.map fun slot => { slot with value := (entries.lookup slot.name).or slot.value } := by
  induction entries generalizing slots with
  | nil => simp
  | cons entry rest ih =>
    obtain ⟨name, value⟩ := entry
    rw [List.map_cons, List.nodup_cons] at he
    rw [List.foldl_cons, ih (by rwa [map_name_assign]) he.2, assign_eq_map h, List.map_map]
    refine List.map_congr_left fun slot _ => ?_
    by_cases hs : slot.name = name
    · have hnone : rest.lookup name = none := by
        rw [List.lookup_eq_none_iff]
        intro other ho
        simpa using fun hc : name = other.1 => he.1 (List.mem_map.mpr ⟨other, ho, hc.symm⟩)
      simp [hs, hnone]
    · have hne : (slot.name == name) = false := by simpa using hs
      simp [hs, List.lookup_cons, hne]

end Slot

namespace SamplingState

/-- Every slot has a value. -/
def Informed (s : SamplingState K) : Prop := ∀ slot ∈ s.slots, slot.value.isSome

/-- The context with an own value.  Slots without a value count as zero. -/
def entries (s : SamplingState K) (own : Value) : List (String × Value) :=
  s.slots.map (fun slot => (slot.name, slot.value.getD 0)) ++ [(s.name, own)]

/-- The context that is handed down. -/
def handed (s : SamplingState K) : List (String × Value) := s.entries s.currentValue

/-- What a sound state of a variable keeps to. -/
structure Sound (problem : Problem K) (s : SamplingState K) : Prop where
  domain : problem.domain? s.name = some s.domain
  current : ∀ i, s.current = some i → i < s.domain.length
  names : s.contextNames.Nodup
  slots : ∀ slot ∈ s.slots, ∀ value, slot.value = some value → problem.Allows slot.name value
  fits : ∀ space ∈ s.spaces, space.Fits problem
  scopes : ∀ space ∈ s.spaces, ∀ name ∈ space.scope, name ∈ s.contextNames
  nodes : ∀ node ∈ s.nodes, node.Over s.domain.length
  index : ∀ (key : List Value) (place : Nat), s.index[key]? = some place → place < s.nodes.length
  active : ∀ place, s.active = some place → place < s.nodes.length
  parent : ∀ parent, s.parent = some parent → parent ∈ problem.names
  children : ∀ child ∈ s.children, child ∈ problem.names

variable {problem : Problem K} {s : SamplingState K}

theorem map_fst_entries (s : SamplingState K) (own : Value) :
    (s.entries own).map Prod.fst = s.contextNames := by
  simp [entries, contextNames, Function.comp_def]

theorem slotValues_of_informed {slots : List Slot} (h : ∀ slot ∈ slots, slot.value.isSome)
    (name : String) : slotValues name slots = .ok (slots.map fun slot => slot.value.getD 0) := by
  induction slots with
  | nil => rfl
  | cons slot rest ih =>
    obtain ⟨value, hv⟩ := Option.isSome_iff_exists.mp (h slot (by simp))
    rw [slotValues, hv, ih fun other ho => h other (by simp [ho])]
    simp [hv, Except.map]

theorem Informed.key (h : s.Informed) :
    s.key = .ok (s.slots.map fun slot => slot.value.getD 0) :=
  slotValues_of_informed h s.name

theorem zip_contextNames (s : SamplingState K) (own : Value) :
    s.contextNames.zip ((s.slots.map fun slot => slot.value.getD 0) ++ [own]) = s.entries own := by
  rw [contextNames, entries, List.zip_append (by simp), List.zip_map']
  rfl

theorem Informed.contextEntries (h : s.Informed) (own : Value) :
    s.contextEntries own = .ok (s.entries own) := by
  rw [SamplingState.contextEntries, h.key, ← zip_contextNames]
  rfl

theorem Sound.domain_ne_nil (h : s.Sound problem) (wf : problem.WellFormed) : s.domain ≠ [] :=
  wf.valued _ _ h.domain

theorem Sound.allows_own (h : s.Sound problem) {value : Value} (hv : value ∈ s.domain) :
    problem.Allows s.name value :=
  ⟨s.domain, h.domain, hv⟩

theorem Sound.currentValue_mem (h : s.Sound problem) (wf : problem.WellFormed) :
    s.currentValue ∈ s.domain := by
  have hlt : s.current.getD 0 < s.domain.length := by
    cases hc : s.current with
    | none => exact List.length_pos_iff.mpr (h.domain_ne_nil wf)
    | some i => exact h.current i hc
  rw [currentValue, List.getElem?_eq_getElem hlt, Option.getD_some]
  exact List.getElem_mem hlt

theorem Sound.getElem?_current (h : s.Sound problem) {i : Nat} (hi : s.current = some i) :
    s.domain[i]? = some s.currentValue := by
  have hlt := h.current i hi
  rw [currentValue, hi, Option.getD_some, List.getElem?_eq_getElem hlt, Option.getD_some]

theorem Sound.allows_entries (h : s.Sound problem) (hi : s.Informed) {own : Value}
    (hown : own ∈ s.domain) {name : String} {value : Value}
    (hm : (name, value) ∈ s.entries own) : problem.Allows name value := by
  rcases List.mem_append.mp hm with hm | hm
  · obtain ⟨slot, hs, he⟩ := List.mem_map.mp hm
    obtain ⟨v, hv⟩ := Option.isSome_iff_exists.mp (hi slot hs)
    obtain ⟨rfl, rfl⟩ : slot.name = name ∧ v = value := by simpa [hv] using he
    exact h.slots slot hs v hv
  · obtain ⟨rfl, rfl⟩ : name = s.name ∧ value = own := by simpa using hm
    exact h.allows_own hown

theorem lookup_of_mem_contextNames {name : String} (h : name ∈ s.contextNames) (own : Value) :
    ∃ value, (s.entries own).lookup name = some value ∧ (name, value) ∈ s.entries own := by
  rw [← map_fst_entries s own, List.mem_map] at h
  obtain ⟨entry, hm, rfl⟩ := h
  obtain ⟨value, hv⟩ : ∃ value, (s.entries own).lookup entry.1 = some value :=
    Option.isSome_iff_exists.mp (List.lookup_isSome_iff.mpr ⟨entry, hm, by simp⟩)
  obtain ⟨before, after, he, _⟩ := List.lookup_eq_some_iff.mp hv
  exact ⟨value, hv, by simp [he]⟩

/-- A variable's space has an entry for every context. -/
theorem Sound.exists_entry (h : s.Sound problem) (hi : s.Informed) {own : Value}
    (hown : own ∈ s.domain) {space : CostSpace K} (hs : space ∈ s.spaces) :
    ∃ entry, space.lookup? ((s.entries own).lookup ·) = some entry := by
  refine (h.fits space hs).exists_entry fun other ho => ?_
  obtain ⟨value, hv, hm⟩ := lookup_of_mem_contextNames (h.scopes space hs other ho) own
  exact ⟨value, hv, h.allows_entries hi hown hm⟩

theorem Sound.nodup_slots (h : s.Sound problem) : (s.slots.map Slot.name).Nodup :=
  (List.nodup_append.mp h.names).1

/-- A context gives the slots the values that it has for them. -/
theorem Sound.slots_assign (h : s.Sound problem) {entries : List (String × Value)}
    (he : (entries.map Prod.fst).Nodup) :
    (s.assign entries).slots
      = s.slots.map fun slot => { slot with value := (entries.lookup slot.name).or slot.value } :=
  Slot.foldl_assign h.nodup_slots he

theorem Sound.map_name_assign (h : s.Sound problem) {entries : List (String × Value)}
    (he : (entries.map Prod.fst).Nodup) :
    (s.assign entries).slots.map Slot.name = s.slots.map Slot.name := by
  rw [h.slots_assign he, List.map_map]
  rfl

theorem Sound.assign (h : s.Sound problem) {entries : List (String × Value)}
    (he : (entries.map Prod.fst).Nodup)
    (hallowed : ∀ entry ∈ entries, problem.Allows entry.1 entry.2) :
    (s.assign entries).Sound problem := by
  have hnames : (s.assign entries).contextNames = s.contextNames := by
    rw [contextNames, h.map_name_assign he]
    rfl
  refine ⟨h.domain, h.current, hnames ▸ h.names, fun slot hs value hv => ?_, h.fits,
    fun space hs other ho => hnames ▸ h.scopes space hs other ho, h.nodes, h.index, h.active,
    h.parent, h.children⟩
  rw [h.slots_assign he, List.mem_map] at hs
  obtain ⟨old, hold, rfl⟩ := hs
  rcases Option.or_eq_some_iff.mp hv with hl | ⟨_, ho⟩
  · obtain ⟨before, after, hsplit, _⟩ := List.lookup_eq_some_iff.mp hl
    exact hallowed (old.name, value) (by simp [hsplit])
  · exact h.slots old hold value ho

theorem Sound.informed_assign (h : s.Sound problem) {entries : List (String × Value)}
    (he : (entries.map Prod.fst).Nodup)
    (hcovers : ∀ slot ∈ s.slots, slot.name ∈ entries.map Prod.fst) :
    (s.assign entries).Informed := by
  intro slot hs
  rw [h.slots_assign he, List.mem_map] at hs
  obtain ⟨old, hold, rfl⟩ := hs
  obtain ⟨entry, hm, hn⟩ := List.mem_map.mp (hcovers old hold)
  have hsome : (entries.lookup old.name).isSome :=
    List.lookup_isSome_iff.mpr ⟨entry, hm, by simp [hn]⟩
  simp [Option.isSome_or, hsome]

variable [CostArithmetic K]

/-- What a value costs in the variable's own spaces under its context. -/
def ownCost (s : SamplingState K) (own : Value) : K :=
  total (s.spaces.filterMap fun space => space.lookup? ((s.entries own).lookup ·))

theorem addEntries_eq {spaces : List (CostSpace K)} {values : List Value}
    {value? : String → Option Value}
    (heq : ∀ name, CostSpace.pairedValue? s.contextNames values name = value? name)
    (h : ∀ space ∈ spaces, ∃ entry, space.lookup? value? = some entry) (start : K) :
    s.addEntries values spaces start
      = .ok ((spaces.filterMap (·.lookup? value?)).foldl (· + ·) start) := by
  induction spaces generalizing start with
  | nil => rfl
  | cons space rest ih =>
    obtain ⟨entry, he⟩ := h space (by simp)
    have hu : space.utility? s.contextNames values = some entry := by
      rw [CostSpace.utility?, ← he]
      exact CostSpace.lookup?_congr fun name _ => heq name
    rw [addEntries, hu]
    simp [he, ih fun other ho => h other (by simp [ho])]

theorem Sound.localCost (h : s.Sound problem) (hi : s.Informed) {own : Value}
    (hown : own ∈ s.domain) : s.localCost own = .ok (s.ownCost own) := by
  rw [SamplingState.localCost, hi.key]
  refine addEntries_eq (fun name => ?_) (fun space hs => h.exists_entry hi hown hs) (ofNat 0)
  rw [CostSpace.pairedValue?_eq_lookup, zip_contextNames]

theorem Sound.localCosts (h : s.Sound problem) (hi : s.Informed) :
    s.localCosts = .ok (s.domain.map s.ownCost) := by
  rw [SamplingState.localCosts]
  have hall : ∀ values : List Value, (∀ own ∈ values, own ∈ s.domain) →
      values.mapM s.localCost = .ok (values.map s.ownCost) := by
    intro values hv
    induction values with
    | nil => rfl
    | cons own rest ih =>
      rw [List.mapM_cons, h.localCost hi (hv own (by simp)),
        ih fun other ho => hv other (by simp [ho])]
      rfl
  exact hall s.domain fun _ hv => hv

end SamplingState

end DcopSearch
