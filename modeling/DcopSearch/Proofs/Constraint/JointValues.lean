import DcopSearch.Constraint.Space
import Mathlib.Data.List.Forall2
import Mathlib.Data.Nat.ModEq

/-! Joint values and look-ups.  The joint values of some domains stand in the order in which an
odometer that counts through them shows them, and a look-up finds the entry beside the joint value
that it reads, the first one if a domain repeats a value. -/

namespace DcopSearch

variable {K : Type}

/-! ### The order of the joint values -/

/-- The place of a joint value, from the place of its first value and the place of the others. -/
theorem idxOf?_cons_jointValues (domain : List Value) (rest : List (List Value)) (value : Value)
    (point : List Value) : (jointValues (domain :: rest)).idxOf? (value :: point)
      = (domain.idxOf? value).bind fun i =>
          ((jointValues rest).idxOf? point).map (i * jointSize rest + ·) := by
  rw [jointValues_cons, ← length_jointValues rest]
  generalize jointValues rest = tails
  have hblock : ∀ first : Value, (tails.map (first :: ·)).idxOf? (value :: point)
      = if first = value then tails.idxOf? point else none := by
    intro first
    rw [List.idxOf?, List.findIdx?_map]
    split
    next he => simp [he, List.idxOf?, Function.comp_def]
    next hne => simp [hne, Function.comp_def]
  induction domain with
  | nil => rfl
  | cons first domain ih =>
    have happend : ∀ xs ys : List (List Value), (xs ++ ys).idxOf? (value :: point)
        = (xs.idxOf? (value :: point)).or ((ys.idxOf? (value :: point)).map (· + xs.length)) :=
      fun xs ys => List.findIdx?_append
    rw [List.flatMap_cons, happend, hblock, ih, List.length_map, List.idxOf?_cons]
    by_cases he : first = value
    · -- where the others have no place, no later block gives them one
      cases tails.idxOf? point <;> simp [he]
    · cases domain.idxOf? value <;> cases tails.idxOf? point <;>
        simp [he, Nat.succ_mul, Nat.add_right_comm]

theorem mem_jointValues {domains : List (List Value)} {point : List Value} :
    point ∈ jointValues domains ↔ List.Forall₂ (· ∈ ·) point domains := by
  induction domains generalizing point with
  | nil => simp [jointValues]
  | cons domain rest ih =>
    rw [jointValues_cons, List.mem_flatMap, List.forall₂_cons_right_iff]
    simp only [List.mem_map, ih]
    constructor
    · rintro ⟨value, hv, tail, ht, rfl⟩
      exact ⟨value, tail, hv, ht, rfl⟩
    · rintro ⟨value, tail, hv, ht, rfl⟩
      exact ⟨value, hv, tail, ht, rfl⟩

/-- The joint value in some place, by its first value and the others. -/
theorem getElem?_cons_jointValues (domain : List Value) {rest : List (List Value)}
    (h : jointSize rest ≠ 0) (i : Nat) : (jointValues (domain :: rest))[i]?
      = (domain[i / jointSize rest]?).bind fun value =>
          ((jointValues rest)[i % jointSize rest]?).map (value :: ·) := by
  rw [jointValues_cons]
  have hpos : 0 < (jointValues rest).length := by rw [length_jointValues]; omega
  rw [← length_jointValues rest]
  induction domain generalizing i with
  | nil => simp
  | cons first domain ih =>
    rw [List.flatMap_cons]
    by_cases hi : i < (jointValues rest).length
    · rw [List.getElem?_append_left (by simpa using hi), Nat.div_eq_of_lt hi, Nat.mod_eq_of_lt hi,
        List.getElem?_map]
      rfl
    · obtain ⟨j, rfl⟩ := Nat.exists_eq_add_of_le' (Nat.le_of_not_lt hi)
      rw [List.getElem?_append_right (by simp), List.length_map, Nat.add_sub_cancel, ih,
        Nat.add_div_right _ hpos, Nat.add_mod_right]
      rfl

/-! ### The odometer -/

namespace Odometer

/-- The places of the wheels, which are given by their sizes, after the last wheel is moved on by one,
and whether all of them have come full circle.  A wheel that does goes back to its first place and
moves the one before it. -/
def turn : List Nat → List Nat → List Nat × Bool
  | size :: sizes, place :: places =>
    let (turned, full) := turn sizes places
    if full then
      if place + 1 < size then ((place + 1) :: turned, false) else (0 :: turned, true)
    else (place :: turned, false)
  | _, _ => ([], true)

/-- The places of the wheels after a number of moves.  At the beginning all are at their first one. -/
def wheels (sizes : List Nat) (moves : Nat) : List Nat :=
  (fun places => (turn sizes places).1)^[moves] (sizes.map fun _ => 0)

/-- The values that wheels with the values of the domains show. -/
def shown? : List (List Value) → List Nat → Option (List Value)
  | domain :: rest, place :: places =>
    (domain[place]?).bind fun value => (shown? rest places).map (value :: ·)
  | _, _ => some []

/-- The places of the wheels, from the number of moves alone.  For each move of a wheel those after it
come full circle once. -/
def places : List Nat → Nat → List Nat
  | [], _ => []
  | size :: sizes, moves => moves / sizes.prod % size :: places sizes moves

/-- One move by carrying over and one move by division come to the same. -/
theorem turn_places {sizes : List Nat} (h : sizes.prod ≠ 0) (moves : Nat) :
    turn sizes (places sizes moves)
      = (places sizes (moves + 1), decide (sizes.prod ∣ moves + 1)) := by
  induction sizes with
  | nil => simp [turn, places]
  | cons size sizes ih =>
    obtain ⟨hsize, hprod⟩ : size ≠ 0 ∧ sizes.prod ≠ 0 := by simpa [List.prod_cons] using h
    simp only [turn, places, ih hprod, decide_eq_true_eq]
    by_cases hd : sizes.prod ∣ moves + 1
    · -- the wheels behind this one have come full circle
      have hquotient := Nat.succ_div_of_dvd hd
      have hnext : (moves / sizes.prod + 1) % size = (moves / sizes.prod % size + 1) % size :=
        (Nat.mod_add_mod _ _ _).symm
      have hfull : (size :: sizes).prod ∣ moves + 1 ↔
          (moves / sizes.prod % size + 1) % size = 0 := by
        rw [List.prod_cons, ← Nat.div_mul_cancel hd, hquotient,
          Nat.mul_dvd_mul_iff_right (Nat.pos_of_ne_zero hprod), Nat.dvd_iff_mod_eq_zero, hnext]
      have hlt := Nat.mod_lt (moves / sizes.prod) (Nat.pos_of_ne_zero hsize)
      rw [if_pos hd, hquotient, hnext]
      split
      next hmore =>
        have hmod := Nat.mod_eq_of_lt hmore
        rw [hmod, decide_eq_false fun hf => by rw [hfull, hmod] at hf; omega]
      next hlast =>
        have hmod : (moves / sizes.prod % size + 1) % size = 0 := by
          rw [show moves / sizes.prod % size + 1 = size by omega, Nat.mod_self]
        rw [hmod, decide_eq_true (hfull.mpr hmod)]
    · have hfull : ¬(size :: sizes).prod ∣ moves + 1 :=
        fun hf => hd ((Dvd.intro_left size List.prod_cons.symm).trans hf)
      rw [if_neg hd, Nat.succ_div_of_not_dvd hd, decide_eq_false hfull]

theorem wheels_eq_places {sizes : List Nat} (h : sizes.prod ≠ 0) (moves : Nat) :
    wheels sizes moves = places sizes moves := by
  induction moves with
  | zero =>
    rw [wheels, Function.iterate_zero, id]
    clear h
    induction sizes with
    | nil => rfl
    | cons size sizes ih => simp [places, ih]
  | succ moves ih =>
    rw [wheels] at ih
    rw [wheels, Function.iterate_succ_apply', ih, turn_places h]

theorem shown?_places {domains : List (List Value)} (h : jointSize domains ≠ 0) (moves : Nat) :
    shown? domains (places (domains.map List.length) moves)
      = (jointValues domains)[moves % jointSize domains]? := by
  induction domains with
  | nil => simp [shown?, jointSize, jointValues, Nat.mod_one]
  | cons domain rest ih =>
    have hsize : jointSize (domain :: rest) = domain.length * jointSize rest := rfl
    have hprod : (rest.map List.length).prod = jointSize rest := rfl
    rw [hsize, Nat.mul_ne_zero_iff] at h
    rw [List.map_cons, places, shown?, ih h.2, hsize, hprod, getElem?_cons_jointValues _ h.2,
      Nat.mod_mul_left_div_self, Nat.mod_mul_left_mod]

/-- The joint values are listed as an odometer shows them. -/
theorem shown?_wheels {domains : List (List Value)} {moves : Nat} (h : moves < jointSize domains) :
    shown? domains (wheels (domains.map List.length) moves) = (jointValues domains)[moves]? := by
  have hne : jointSize domains ≠ 0 := by omega
  rw [wheels_eq_places hne, shown?_places hne, Nat.mod_eq_of_lt h]

end Odometer

/-! ### Look-ups -/

namespace CostSpace

/-- The values of the axes, each of its domain, that a source of values gives. -/
def Reads (value? : String → Option Value) (axes : List Axis) (point : List Value) : Prop :=
  List.Forall₂ (fun axis value => value? axis.name = some value ∧ value ∈ axis.domain) axes point

/-- The entry beside a joint value, and beside the first one if a domain repeats a value. -/
def beside? (space : CostSpace K) (point : List Value) : Option K :=
  ((jointValues (space.axes.map Axis.domain)).idxOf? point).bind (space.table[·]?)

variable {value? : String → Option Value} {axes : List Axis} {point : List Value}

theorem Reads.mem (h : Reads value? axes point) : point ∈ jointValues (axes.map Axis.domain) := by
  rw [mem_jointValues, List.forall₂_map_right_iff]
  exact h.flip.imp fun _ _ hv => hv.2

/-- The index of a look-up is the place of the joint value it reads. -/
theorem Reads.position? (h : Reads value? axes point) (index : Nat) :
    CostSpace.position? value? axes index
      = ((jointValues (axes.map Axis.domain)).idxOf? point).map
          (index * jointSize (axes.map Axis.domain) + ·) := by
  induction h generalizing index with
  | nil => simp [CostSpace.position?, jointValues, jointSize]
  | @cons axis value rest point hv _ ih =>
    have hsize : jointSize (axis.domain :: rest.map Axis.domain)
        = axis.domain.length * jointSize (rest.map Axis.domain) := rfl
    rw [CostSpace.position?, hv.1, Option.bind_some, List.map_cons, idxOf?_cons_jointValues, hsize]
    cases axis.domain.idxOf? value with
    | none => rfl
    | some i =>
      simp only [ih, Option.bind_some, Option.map_map]
      congr 1
      funext j
      simp only [Function.comp_apply, Nat.add_mul, Nat.mul_assoc, Nat.add_assoc]

/-- A joint value is read just if every axis is given a value of its domain. -/
theorem exists_reads_iff : (∃ point, Reads value? axes point) ↔
      ∀ axis ∈ axes, ∃ value ∈ axis.domain, value? axis.name = some value := by
  induction axes with
  | nil => exact ⟨by simp, fun _ => ⟨[], .nil⟩⟩
  | cons axis rest ih =>
    rw [List.forall_mem_cons, ← ih]
    constructor
    · rintro ⟨_, _ | ⟨hv, hrest⟩⟩
      exact ⟨⟨_, hv.2, hv.1⟩, _, hrest⟩
    · rintro ⟨⟨value, hm, hv⟩, point, hrest⟩
      exact ⟨value :: point, .cons ⟨hv, hm⟩ hrest⟩

/-- There is no index unless there is a joint value to read. -/
theorem exists_reads {index i : Nat} (h : position? value? axes index = some i) :
    ∃ point, Reads value? axes point := by
  induction axes generalizing index with
  | nil => exact ⟨[], .nil⟩
  | cons axis rest ih =>
    rw [position?] at h
    split at h
    · cases h
    next j hj =>
      obtain ⟨value, hv, hplace⟩ := Option.bind_eq_some_iff.mp hj
      obtain ⟨point, hrest⟩ := ih h
      have hm : value ∈ axis.domain := List.isSome_idxOf?.mp (by rw [hplace]; rfl)
      exact ⟨value :: point, .cons ⟨hv, hm⟩ hrest⟩

/-- A look-up that reads a joint value finds the entry beside it. -/
theorem Reads.lookup? {space : CostSpace K} (h : Reads value? space.axes point) :
    space.lookup? value? = space.beside? point := by
  rw [CostSpace.lookup?, h.position? 0, beside?, Option.bind_map]
  simp

theorem lookup?_eq_some_iff {space : CostSpace K} {entry : K} :
    space.lookup? value? = some entry ↔
      ∃ point, Reads value? space.axes point ∧ space.beside? point = some entry := by
  constructor
  · intro h
    obtain ⟨i, hi, -⟩ := Option.bind_eq_some_iff.mp h
    obtain ⟨point, hread⟩ := exists_reads hi
    exact ⟨point, hread, hread.lookup?.symm.trans h⟩
  · rintro ⟨point, hread, he⟩
    exact hread.lookup?.trans he

/-- A full table has an entry beside every joint value. -/
theorem exists_beside? {space : CostSpace K}
    (full : space.table.size = jointSize (space.axes.map Axis.domain))
    (h : point ∈ jointValues (space.axes.map Axis.domain)) :
    ∃ entry, space.beside? point = some entry := by
  obtain ⟨i, hi⟩ := Option.isSome_iff_exists.mp (List.isSome_idxOf?.mpr h)
  obtain ⟨hlt, -⟩ := List.idxOf?_eq_some_iff.mp hi
  rw [length_jointValues, ← full] at hlt
  exact ⟨space.table[i], by simp [beside?, hi, hlt]⟩

/-- No look-up that finds its values goes past a full table. -/
theorem position?_lt {space : CostSpace K}
    (full : space.table.size = jointSize (space.axes.map Axis.domain)) {i : Nat}
    (h : position? value? space.axes 0 = some i) : i < space.table.size := by
  obtain ⟨point, hread⟩ := exists_reads h
  rw [hread.position? 0, Option.map_eq_some_iff] at h
  obtain ⟨j, hj, rfl⟩ := h
  obtain ⟨hlt, -⟩ := List.idxOf?_eq_some_iff.mp hj
  rw [length_jointValues, ← full] at hlt
  simpa using hlt

end CostSpace

end DcopSearch
