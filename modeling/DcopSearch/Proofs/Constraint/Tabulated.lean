import DcopSearch.Proofs.Constraint.WellFormed

/-! Tables of functions.  A space that is made from a function gives the function back: a look-up
finds what the function gives for the values of the scope, whether they come from parallel lists or
from an assignment, and whatever else is named there and in which order. -/

namespace DcopSearch

namespace CostSpace

variable {K : Type} {value? : String → Option Value} {point : List Value}

/-- Two parallel lists give each name the value beside it, if no name is repeated. -/
theorem pairedValue?_eq_some_iff {names : List String} (h : names.Nodup)
    {values : List Value} {name : String} {value : Value} :
    pairedValue? names values name = some value ↔ (name, value) ∈ names.zip values := by
  have hplace : ∀ i, names.idxOf? name = some i ↔ names[i]? = some name := by
    intro i
    rw [List.idxOf?_eq_some_iff, List.getElem?_eq_some_iff]
    constructor
    · rintro ⟨hi, he, -⟩
      exact ⟨hi, he⟩
    · rintro ⟨hi, rfl⟩
      refine ⟨hi, rfl, fun j hj he => ?_⟩
      have := (h.getElem_inj_iff).mp he
      omega
  rw [pairedValue?, Option.bind_eq_some_iff, List.mem_iff_getElem?]
  simp only [hplace, List.getElem?_zip_eq_some]

/-- The pairs give the variables of the scope the values of a point, each of its domain. -/
def Picks (pairs : List (String × Value)) (scope : List String) (domains : List (List Value))
    (point : List Value) : Prop :=
  List.Forall₂ (fun name value => (name, value) ∈ pairs) scope point ∧
    List.Forall₂ (· ∈ ·) point domains

/-- The space is the table of a function over the joint values. -/
structure Tabulates (space : CostSpace K) (scope : List String) (domains : List (List Value))
    (cost : List Value → K) : Prop where
  axes : space.axes = scope.zipWith Axis.mk domains
  size : space.table.size = jointSize domains
  /-- The entries are in the order in which an odometer shows the joint values. -/
  filled : ∀ moves < jointSize domains, ∃ point,
    Odometer.shown? domains (Odometer.wheels (domains.map List.length) moves) = some point ∧
      space.table[moves]? = some (cost point)
  /-- A look-up at parallel lists, in which no name is repeated, gives what the function gives for
  the values in the order of the scope. -/
  found : ∀ (names : List String) (values : List Value) (point : List Value), names.Nodup →
    names.length = values.length → Picks (names.zip values) scope domains point →
      space.utility? names values = some (cost point)
  /-- It gives nothing if a variable of the scope is missing or its value is foreign to the domain. -/
  missed : ∀ (names : List String) (values : List Value), names.Nodup →
    names.length = values.length → (¬∃ point, Picks (names.zip values) scope domains point) →
      space.utility? names values = none
  /-- So does a look-up in an assignment of the same pairs. -/
  assigned : ∀ (names : List String) (values : List Value) (assignment : Assignment), names.Nodup →
    names.length = values.length →
    (∀ name value, assignment[name]? = some value ↔ (name, value) ∈ names.zip values) →
      space.utilityOf? assignment = space.utility? names values
  /-- No look-up that finds its values goes past the table. -/
  within : ∀ (value? : String → Option Value) (i : Nat), position? value? space.axes 0 = some i →
    i < space.table.size

theorem reads_zipWith {scope : List String} {domains : List (List Value)}
    (h : scope.length = domains.length) :
    Reads value? (scope.zipWith Axis.mk domains) point ↔
      List.Forall₂ (fun name value => value? name = some value) scope point ∧
        List.Forall₂ (· ∈ ·) point domains := by
  induction scope generalizing domains point with
  | nil =>
    obtain rfl := List.length_eq_zero_iff.mp h.symm
    simp [Reads]
  | cons name scope ih =>
    obtain ⟨domain, domains, rfl⟩ := List.exists_cons_of_length_eq_add_one h.symm
    have hrest := fun point => @ih point domains (Nat.succ.inj h)
    simp only [Reads] at hrest
    rw [Reads, List.zipWith_cons_cons, List.forall₂_cons_left_iff, List.forall₂_cons_left_iff]
    constructor
    · rintro ⟨value, rest, ⟨hv, hm⟩, hr, rfl⟩
      obtain ⟨hvalues, hdomains⟩ := (hrest rest).mp hr
      exact ⟨⟨value, rest, hv, hvalues, rfl⟩, .cons hm hdomains⟩
    · rintro ⟨⟨value, rest, hv, hvalues, rfl⟩, hdomains⟩
      rw [List.forall₂_cons] at hdomains
      exact ⟨value, rest, ⟨hv, hdomains.1⟩, (hrest rest).mpr ⟨hvalues, hdomains.2⟩, rfl⟩

/-- Beside a joint value stands what the function gives for it. -/
theorem beside?_of_table {space : CostSpace K} {cost : List Value → K}
    (h : space.table = ((jointValues (space.axes.map Axis.domain)).map cost).toArray)
    (hm : point ∈ jointValues (space.axes.map Axis.domain)) :
    space.beside? point = some (cost point) := by
  obtain ⟨i, hi⟩ := Option.isSome_iff_exists.mp (List.isSome_idxOf?.mpr hm)
  obtain ⟨hlt, he, -⟩ := List.idxOf?_eq_some_iff.mp hi
  rw [beside?, hi, Option.bind_some, h]
  simp [hlt, he]

/-- The space made from a function over names that are not repeated, each with a domain, is the table
of the function, and all look-ups in it agree with the function. -/
theorem tabulates {scope : List String} {domains : List (List Value)} (hscope : scope.Nodup)
    (hlength : scope.length = domains.length) (name : String) (cost : List Value → K) :
    ∃ space, tabulate name scope domains cost = .ok space ∧ space.name = name ∧
      space.Tabulates scope domains cost := by
  let space : CostSpace K :=
    { name
      axes := scope.zipWith Axis.mk domains
      table := ((jointValues domains).map cost).toArray }
  have hsize : space.table.size = jointSize domains := by simp [space, length_jointValues]
  have hdomains : space.axes.map Axis.domain = domains := map_domain_zipWith hlength
  have hok : tabulate name scope domains cost = .ok space := by
    rw [tabulate, ofTable, if_neg (not_not.mpr hlength), if_neg (not_not.mpr hsize.symm),
      if_pos hscope]
  have hentry : ∀ point, point ∈ jointValues (space.axes.map Axis.domain) →
      space.beside? point = some (cost point) :=
    fun point hm => beside?_of_table (by rw [hdomains]) hm
  have hreads : ∀ {names : List String} {values point : List Value}, names.Nodup →
      (Picks (names.zip values) scope domains point ↔
        Reads (pairedValue? names values) space.axes point) := by
    intro names values point hnames
    rw [reads_zipWith hlength]
    simp only [pairedValue?_eq_some_iff hnames]
    rfl
  refine ⟨space, hok, rfl, rfl, hsize, fun moves hmoves => ?_, ?_, ?_, ?_, ?_⟩
  · have hlt : moves < (jointValues domains).length := by rwa [length_jointValues]
    refine ⟨(jointValues domains)[moves], ?_, by simp [space, hlt]⟩
    rw [Odometer.shown?_wheels hmoves, List.getElem?_eq_getElem hlt]
  · intro names values point hnames _ hpicks
    have hread := (hreads hnames).mp hpicks
    exact hread.lookup?.trans (hentry point hread.mem)
  · intro names values hnames _ hnone
    rw [Option.eq_none_iff_forall_ne_some]
    intro entry he
    obtain ⟨point, hread, -⟩ := lookup?_eq_some_iff.mp he
    exact hnone ⟨point, (hreads hnames).mpr hread⟩
  · intro names values assignment hnames _ hsame
    refine lookup?_congr fun name _ => Option.ext fun value => ?_
    rw [hsame, pairedValue?_eq_some_iff hnames]
  · exact fun value? i hi => position?_lt (by rw [hsize, hdomains]) hi

/-- A domain repeats a value, and the names come in another order, with one that is not in the
scope. -/
theorem tabulates_pair :
    let cost : List Value → Int := List.foldl (10 * · + ·) 0
    ∃ space, tabulate "xy" ["x", "y"] [[5, 7, 5], [1, 2]] cost = .ok space ∧
      space.Tabulates ["x", "y"] [[5, 7, 5], [1, 2]] cost ∧
      space.utility? ["y", "z", "x"] [2, 9, 5] = some 52 := by
  intro cost
  have hlength : ["x", "y"].length = ([[5, 7, 5], [1, 2]] : List (List Value)).length := rfl
  obtain ⟨space, hok, -, htable⟩ := tabulates (by decide) hlength "xy" cost
  have hpicks : Picks (["y", "z", "x"].zip [2, 9, 5]) ["x", "y"] [[5, 7, 5], [1, 2]] [5, 2] := by
    simp [Picks]
  exact ⟨space, hok, htable, htable.found _ _ [5, 2] (by decide) rfl hpicks⟩

end CostSpace

end DcopSearch
