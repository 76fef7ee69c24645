import DcopSearch.Constraint.Problem
import DcopSearch.Proofs.Constraint.JointValues
import Mathlib.Data.List.Nodup
import Mathlib.Data.Set.Basic

/-! Problems that the operations put together.  Their variables have values, their spaces lie over
declared variables and have full tables, so that every look-up at values of the domains succeeds. -/

namespace DcopSearch

variable {K : Type}

namespace Problem

/-- The value is one of the declared values of the variable. -/
def Allows (problem : Problem K) (name : String) (value : Value) : Prop :=
  ∃ domain, problem.domain? name = some domain ∧ value ∈ domain

/-- Every one of the names has one of its declared values. -/
def Assigns (problem : Problem K) (names : Set String) (value? : String → Option Value) : Prop :=
  ∀ name ∈ names, ∃ value, value? name = some value ∧ problem.Allows name value

end Problem

namespace CostSpace

/-- The space has no variable twice, its domains are the declared ones, and its table has an entry
for every joint value. -/
structure Fits (problem : Problem K) (space : CostSpace K) : Prop where
  nodup : space.scope.Nodup
  declared : ∀ axis ∈ space.axes, problem.domain? axis.name = some axis.domain
  full : space.table.size = jointSize (space.axes.map Axis.domain)

theorem exists_lookup {space : CostSpace K} {value? : String → Option Value}
    (full : space.table.size = jointSize (space.axes.map Axis.domain))
    (h : ∀ axis ∈ space.axes, ∃ value ∈ axis.domain, value? axis.name = some value) :
    ∃ entry, space.lookup? value? = some entry := by
  obtain ⟨point, hread⟩ := exists_reads_iff.mpr h
  obtain ⟨entry, he⟩ := exists_beside? full hread.mem
  exact ⟨entry, hread.lookup?.trans he⟩

/-- Where its variables have values, a space has an entry. -/
theorem Fits.exists_entry {problem : Problem K} {space : CostSpace K} (h : space.Fits problem)
    {value? : String → Option Value}
    (hassigns : problem.Assigns {name | name ∈ space.scope} value?) :
    ∃ entry, space.lookup? value? = some entry := by
  refine exists_lookup h.full fun axis ha => ?_
  obtain ⟨value, hv, domain, hd, hm⟩ := hassigns axis.name (List.mem_map_of_mem ha)
  obtain rfl := Option.some.inj (hd.symm.trans (h.declared axis ha))
  exact ⟨value, hm, hv⟩

theorem position?_congr {value? value'? : String → Option Value} {axes : List Axis}
    (h : ∀ axis ∈ axes, value? axis.name = value'? axis.name) (index : Nat) :
    position? value? axes index = position? value'? axes index := by
  induction axes generalizing index with
  | nil => rfl
  | cons axis rest ih =>
    have ih := fun j => ih (fun a ha => h a (by simp [ha])) j
    simp only [position?, h axis (by simp), ih]

theorem lookup?_congr {space : CostSpace K} {value? value'? : String → Option Value}
    (h : ∀ name ∈ space.scope, value? name = value'? name) :
    space.lookup? value? = space.lookup? value'? := by
  unfold lookup?
  rw [position?_congr fun axis ha => h axis.name (List.mem_map_of_mem ha)]

theorem Fits.mono {problem problem' : Problem K} {space : CostSpace K} (h : space.Fits problem)
    (hd : ∀ name domain, problem.domain? name = some domain →
      problem'.domain? name = some domain) : space.Fits problem' :=
  ⟨h.nodup, fun axis ha => hd _ _ (h.declared axis ha), h.full⟩

theorem map_domain_zipWith {scope : List String} {domains : List (List Value)}
    (h : scope.length = domains.length) :
    (scope.zipWith Axis.mk domains).map Axis.domain = domains := by
  rw [List.map_zipWith]
  exact List.ext_getElem (by simp [h]) (by simp)

theorem ofTable_ok {name : String} {scope : List String} {domains : List (List Value)}
    {table : Array K} {space : CostSpace K} (h : ofTable name scope domains table = .ok space) :
    space.scope.Nodup ∧ space.table.size = jointSize (space.axes.map Axis.domain) := by
  unfold ofTable at h
  split at h
  · cases h
  next hlen =>
    split at h
    · cases h
    next hsize =>
      split at h
      next hnodup =>
        obtain rfl := Except.ok.inj h
        have hl : scope.length = domains.length := by omega
        have hnames : (scope.zipWith Axis.mk domains).map Axis.name = scope := by
          rw [List.map_zipWith]
          exact List.ext_getElem (by simp [hl]) (by simp)
        refine ⟨by simpa [CostSpace.scope, hnames] using hnodup, ?_⟩
        rw [map_domain_zipWith hl]
        exact (not_not.mp hsize).symm
      · cases h

end CostSpace

namespace Problem

/-- The problems that the operations put together, beginning with none of anything. -/
inductive Built : Problem K → Prop where
  | empty (objective : Objective) : Built (.empty objective)
  | addVariable {problem next : Problem K} {name owner : String} {domain : List Value} :
      Built problem → problem.addVariable name owner domain = .ok next → Built next
  | addSpace {problem next : Problem K} {name : String} {scope : List String}
      {domains : List (List Value)} {table : Array K} {space : CostSpace K} :
      Built problem → CostSpace.ofTable name scope domains table = .ok space →
      problem.addSpace space = .ok next → Built next

theorem Built.declare {problem : Problem K} (h : problem.Built) (name owner : String)
    (domain : List Value) (hd : domain.isEmpty = false)
    (hn : problem.declarations.contains name = false) :
    Built { problem with
      declarations := problem.declarations.insert name { name, owner, domain } } :=
  h.addVariable (by rw [Problem.addVariable, hd, hn]; rfl)

theorem Built.enforce {problem : Problem K} (h : problem.Built) {space : CostSpace K}
    (hn : space.scope.Nodup) (hsize : jointSize (space.axes.map Axis.domain) = space.table.size)
    (ha : space.axes.findSome? (problem.axisError? space.name) = none) :
    Built { problem with spaces := problem.spaces ++ [space] } := by
  have hlength : space.scope.length = (space.axes.map Axis.domain).length := by
    simp [CostSpace.scope]
  have haxes : space.scope.zipWith Axis.mk (space.axes.map Axis.domain) = space.axes := by
    rw [CostSpace.scope, List.zipWith_map, List.zipWith_self]
    exact List.map_id _
  have hspace : CostSpace.ofTable space.name space.scope (space.axes.map Axis.domain) space.table
      = .ok space := by
    rw [CostSpace.ofTable, if_neg (not_not.mpr hlength), if_neg (not_not.mpr hsize), if_pos hn, haxes]
  exact h.addSpace hspace (by rw [Problem.addSpace, ha])

/-- Declarations carry their names and have values, and every space fits. -/
structure WellFormed (problem : Problem K) : Prop where
  named : ∀ name declared, problem.declared? name = some declared → declared.name = name
  valued : ∀ name domain, problem.domain? name = some domain → domain ≠ []
  fits : ∀ space ∈ problem.spaces, space.Fits problem

theorem wellFormed_empty (objective : Objective) :
    (Problem.empty objective : Problem K).WellFormed :=
  ⟨by simp [empty, declared?], by simp [empty, domain?, declared?], by simp [empty]⟩

theorem declared?_addVariable {problem next : Problem K} {name owner : String}
    {domain : List Value} (h : problem.addVariable name owner domain = .ok next) (other : String) :
    next.declared? other
      = if name = other then some { name, owner, domain } else problem.declared? other := by
  unfold addVariable at h
  split at h
  · cases h
  split at h
  · cases h
  obtain rfl := Except.ok.inj h
  simp [declared?, Std.ExtTreeMap.getElem?_insert]

theorem wellFormed_addVariable {problem next : Problem K} {name owner : String}
    {domain : List Value} (wf : problem.WellFormed)
    (h : problem.addVariable name owner domain = .ok next) : next.WellFormed := by
  have hd := declared?_addVariable h
  unfold addVariable at h
  split at h
  · cases h
  next hne =>
    split at h
    · cases h
    next hnew =>
      obtain rfl := Except.ok.inj h
      have hold : problem.declared? name = none := by simpa [declared?] using hnew
      refine ⟨fun other declared ho => ?_, fun other values ho => ?_, fun space hs => ?_⟩
      · rw [hd] at ho
        split at ho
        next he => cases ho; exact he
        next => exact wf.named other declared ho
      · rw [domain?, hd] at ho
        split at ho
        next => cases ho; simpa using hne
        next => exact wf.valued other values ho
      · refine (wf.fits space hs).mono fun other values ho => ?_
        rw [domain?, hd, if_neg]
        · exact ho
        · rintro rfl
          simp [domain?, hold] at ho

theorem axisError?_eq_none {problem : Problem K} {space : String} {axis : Axis} :
    problem.axisError? space axis = none ↔ problem.domain? axis.name = some axis.domain := by
  unfold axisError? domain? declared?
  cases h : problem.declarations[axis.name]? with
  | none => simp
  | some declared => by_cases hd : declared.domain = axis.domain <;> simp [hd]

theorem wellFormed_addSpace {problem next : Problem K} {space : CostSpace K}
    (wf : problem.WellFormed) (hn : space.scope.Nodup)
    (hf : space.table.size = jointSize (space.axes.map Axis.domain))
    (h : problem.addSpace space = .ok next) : next.WellFormed := by
  unfold addSpace at h
  split at h
  · cases h
  next hnone =>
    obtain rfl := Except.ok.inj h
    have hfits : space.Fits problem :=
      ⟨hn, fun axis ha => axisError?_eq_none.mp (List.findSome?_eq_none_iff.mp hnone axis ha), hf⟩
    refine ⟨wf.named, wf.valued, fun other hs => ?_⟩
    rcases List.mem_append.mp hs with hs | hs
    · exact (wf.fits other hs).mono fun _ _ ho => ho
    · obtain rfl := List.mem_singleton.mp hs
      exact hfits.mono fun _ _ ho => ho

/-- Whatever the operations put together is well-formed. -/
theorem Built.wellFormed {problem : Problem K} (h : problem.Built) : problem.WellFormed := by
  induction h with
  | empty objective => exact wellFormed_empty objective
  | addVariable _ hadd ih => exact wellFormed_addVariable ih hadd
  | addSpace _ htable hadd ih =>
    obtain ⟨hn, hf⟩ := CostSpace.ofTable_ok htable
    exact wellFormed_addSpace ih hn hf hadd

theorem values_eq_map_snd {V : Type} (map : Std.ExtTreeMap String V) :
    map.values = map.toList.map Prod.snd := by
  obtain ⟨⟨map⟩⟩ := map
  induction map using Quotient.inductionOn with
  | h map =>
    show map.inner.values = (Std.DTreeMap.Internal.Impl.Const.toList map.inner).map Prod.snd
    simp [Std.DTreeMap.Internal.Impl.values_eq_map_snd,
      Std.DTreeMap.Internal.Impl.Const.toList_eq_toListModel_map]

theorem mem_names {problem : Problem K} {name : String} :
    name ∈ problem.names ↔ ∃ declared, problem.declared? name = some declared := by
  rw [names, Std.ExtTreeMap.mem_keys, Std.ExtTreeMap.mem_iff_isSome_getElem?, declared?,
    Option.isSome_iff_exists]

theorem nodup_names (problem : Problem K) : problem.names.Nodup := Std.ExtTreeMap.nodup_keys

theorem exists_owner {problem : Problem K} {name : String} (h : name ∈ problem.names) :
    ∃ owner, problem.owner? name = some owner := by
  obtain ⟨declared, hd⟩ := mem_names.mp h
  exact ⟨declared.owner, by simp [owner?, hd]⟩

theorem mem_names_of_owner {problem : Problem K} {name owner : String}
    (h : problem.owner? name = some owner) : name ∈ problem.names := by
  obtain ⟨declared, hd, _⟩ := Option.map_eq_some_iff.mp h
  exact mem_names.mpr ⟨declared, hd⟩

theorem mem_names_of_domain {problem : Problem K} {name : String} {domain : List Value}
    (h : problem.domain? name = some domain) : name ∈ problem.names := by
  obtain ⟨declared, hd, _⟩ := Option.map_eq_some_iff.mp h
  exact mem_names.mpr ⟨declared, hd⟩

theorem mem_agents_of_owner {problem : Problem K} {name owner : String}
    (h : problem.owner? name = some owner) : owner ∈ problem.agents := by
  obtain ⟨declared, hd, rfl⟩ := Option.map_eq_some_iff.mp h
  simp only [agents, Std.ExtTreeSet.mem_toList, Std.ExtTreeSet.mem_ofList, List.contains_iff_mem,
    List.mem_map]
  refine ⟨declared, ?_, rfl⟩
  rw [values_eq_map_snd]
  exact List.mem_map.mpr ⟨(name, declared), by simpa [declared?] using hd, rfl⟩

theorem WellFormed.variablesOf {problem : Problem K} (wf : problem.WellFormed) (agent : String) :
    problem.variablesOf agent
      = problem.names.filter fun name => problem.owner? name == some agent := by
  have hentry : ∀ entry ∈ problem.declarations.toList, entry.2.name = entry.1 ∧
      problem.owner? entry.1 = some entry.2.owner := by
    rintro ⟨name, declared⟩ he
    have hd : problem.declared? name = some declared := by
      simpa [declared?] using he
    exact ⟨wf.named name declared hd, by simp [owner?, hd]⟩
  rw [Problem.variablesOf, values_eq_map_snd, names, ← Std.ExtTreeMap.map_fst_toList_eq_keys,
    List.filter_map, List.filter_map, List.map_map]
  rw [List.filter_congr (q := (fun name => problem.owner? name == some agent) ∘ Prod.fst)]
  · exact List.map_congr_left fun entry he => (hentry entry (List.mem_filter.mp he).1).1
  · intro entry he
    simp [(hentry entry he).2]

theorem WellFormed.mem_variablesOf {problem : Problem K} (wf : problem.WellFormed)
    {name agent : String} :
    name ∈ problem.variablesOf agent ↔ problem.owner? name = some agent := by
  rw [wf.variablesOf, List.mem_filter, beq_iff_eq]
  exact ⟨And.right, fun ho => ⟨mem_names_of_owner ho, ho⟩⟩

theorem mem_agents {problem : Problem K} {agent : String} :
    agent ∈ problem.agents ↔ ∃ name ∈ problem.names, problem.owner? name = some agent := by
  constructor
  · intro h
    simp only [agents, Std.ExtTreeSet.mem_toList, Std.ExtTreeSet.mem_ofList, List.contains_iff_mem,
      List.mem_map, values_eq_map_snd] at h
    obtain ⟨_, ⟨⟨name, declared⟩, he, rfl⟩, rfl⟩ := h
    have hd : problem.declared? name = some declared := by simpa [declared?] using he
    exact ⟨name, mem_names.mpr ⟨declared, hd⟩, by simp [owner?, hd]⟩
  · rintro ⟨name, _, ho⟩
    exact mem_agents_of_owner ho

end Problem

end DcopSearch
