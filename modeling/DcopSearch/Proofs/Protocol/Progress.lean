import DcopSearch.Proofs.Protocol.Exchange
import Mathlib.Algebra.Order.BigOperators.Group.Finset

/-! No deadlock.  In a world in which no variable can go on by itself and no message is under way,
every variable has terminated: from the leaves up every range has been reported, from the roots down
every variable is normalized, from the leaves up no variable waits for its children any more, and from
the roots down each has got its final context. -/

namespace DcopSearch

variable {K : Type} [CostArithmetic K] {setup : Setup K} {w : World K}

/-- The variable can do nothing before a message comes. -/
structure Cell.Settled (setup : Setup K) (name : String) (c : Cell K) : Prop where
  gathering : c.ascent = .gathering → c.range.received ≤ (setup.children name).length
  root : setup.parent name = none → c.ascent.stage ≠ .closed
  poised : ∀ final, c.exchange ≠ .poised final
  busy : ∀ final, c.exchange = .busy final →
    c.state.round.received < (setup.children name).length

/-- The variable can do nothing for its normalization before a message comes. -/
structure Cell.Calm (setup : Setup K) (name : String) (c : Cell K) : Prop where
  gathering : c.ascent = .gathering → c.range.received ≤ (setup.children name).length
  root : setup.parent name = none → c.ascent.stage ≠ .closed

omit [CostArithmetic K] in
theorem Cell.Settled.calm {name : String} {c : Cell K} (h : c.Settled setup name) :
    c.Calm setup name := ⟨h.gathering, h.root⟩

/-- Before normalization a variable can do nothing for its sampling. -/
theorem Cell.Sound.settled_of_early {name : String} {c : Cell K} (h : c.Sound setup name)
    (hs : c.ascent.stage ≠ .normalized) (hcalm : c.Calm setup name) : c.Settled setup name := by
  refine ⟨hcalm.gathering, hcalm.root, fun final hx => ?_, fun final hx => ?_⟩
  · rcases h.exchange_early hs with he | ⟨context, he | he⟩ <;> simp [he] at hx
  · rcases h.exchange_early hs with he | ⟨context, he | he⟩ <;> simp [he] at hx

/-- A variable that misses its view or a report has nothing complete to go on with. -/
theorem Cell.Sound.incomplete_of_waiting {name : String} {c : Cell K} (h : c.Sound setup name)
    (ha : c.ascent = .unseen ∨ c.ascent = .gathering)
    (hwait : c.ascent = .gathering → c.range.isComplete (setup.view name) = false) :
    ∀ view, c.range.view = some view → c.range.isComplete view = false := by
  intro view hv
  rw [h.view] at hv
  split at hv
  · cases hv
  next hs =>
    obtain rfl := Option.some.inj hv
    exact hwait (ha.resolve_left fun hu => hs (by rw [hu]; rfl))

theorem Cell.Sound.calm_of_waiting {name : String} {c : Cell K} (h : c.Sound setup name)
    (ha : c.ascent = .unseen ∨ c.ascent = .gathering)
    (hwait : c.ascent = .gathering → c.range.isComplete (setup.view name) = false) :
    c.Calm setup name := by
  refine ⟨fun hg => ?_, fun _ => ?_⟩
  · have hr : c.range.reported = false := by simp [h.reported, hg, Ascent.stage]
    have hmissing : ¬c.range.isComplete (setup.view name) = true := by simp [hwait hg]
    rw [Range.isComplete_iff] at hmissing
    have : ¬(setup.children name).length + 1 ≤ c.range.received := fun hle => hmissing ⟨hr, hle⟩
    omega
  · rcases ha with ha | ha <;> simp [ha, Ascent.stage]

omit [CostArithmetic K] in
theorem Cell.Calm.of_alike {name : String} {c d : Cell K} (h : c.Calm setup name)
    (ha : Cell.Alike c d) : d.Calm setup name := by
  refine ⟨fun hg => ?_, fun hp => ?_⟩
  · have hs : c.ascent.stage = .gathering := by rw [← ha.stage, hg]; rfl
    have hg : c.ascent = .gathering := by
      cases hc : c.ascent <;> simp [hc, Ascent.stage] at hs ⊢
    rw [ha.range]
    exact h.gathering hg
  · rw [ha.stage]
    exact h.root hp

omit [CostArithmetic K] in
theorem Cell.Settled.of_alike {name : String} {c d : Cell K}
    (h : c.Settled setup name) (ha : Cell.Alike c d) : d.Settled setup name := by
  obtain ⟨hgathering, hroot⟩ := h.calm.of_alike ha
  refine ⟨hgathering, hroot, fun final hx => ?_, fun final hx => ?_⟩
  · exact h.poised final (ha.poised final hx)
  · have hs : c.exchange.stance = .busy := by rw [← ha.stance, hx]; rfl
    obtain ⟨f, hb⟩ : ∃ f, c.exchange = .busy f := by
      cases hc : c.exchange <;> simp [hc, Exchange.stance] at hs ⊢
    rw [ha.state]
    exact h.busy f hb

namespace World

/-- No variable can do anything before a message comes. -/
def Settled (setup : Setup K) (w : World K) : Prop :=
  ∀ name ∈ setup.problem.names, (w name).Settled setup name

omit [CostArithmetic K] in
theorem flight_eq_zero (h : w.flight setup = 0) {name : String}
    (hn : name ∈ setup.problem.names) :
    (w name).ascentFlight setup name = 0 ∧ (w name).exchangeFlight setup name = 0 := by
  have hcell : (w name).flight setup name = 0 :=
    Finset.sum_eq_zero_iff.mp h name (List.mem_toFinset.mpr hn)
  exact add_eq_zero.mp hcell

omit [CostArithmetic K] in
/-- Without messages under way normalization stands still or is over. -/
theorem ascent_of_quiet {name : String} (hcalm : (w name).Calm setup name)
    (ha : (w name).ascentFlight setup name = 0) :
    (w name).ascent = .gathering ∨ (w name).ascent = .normalized ∨
      (w name).ascent = .reported ∧ setup.parent name ≠ none := by
  have hroot := hcalm.root
  unfold Cell.ascentFlight at ha
  cases hx : (w name).ascent with
  | unseen => simp [hx] at ha
  | gathering => exact .inl rfl
  | reporting =>
    cases hp : setup.parent name with
    | none => exact absurd (by simp [hx, Ascent.stage]) (hroot hp)
    | some parent => simp [hx, hp] at ha
  | reported =>
    exact .inr (.inr ⟨rfl, fun hp => absurd (by simp [hx, Ascent.stage]) (hroot hp)⟩)
  | dividing divisor =>
    cases hp : setup.parent name with
    | none => exact absurd (by simp [hx, Ascent.stage]) (hroot hp)
    | some parent => simp [hx, hp] at ha
  | normalized => exact .inr (.inl rfl)

theorem normalized_of_quiet (valid : setup.Valid) (h : w.Inv setup)
    (hcalm : ∀ name ∈ setup.problem.names, (w name).Calm setup name)
    (hflight : ∀ name ∈ setup.problem.names, (w name).ascentFlight setup name = 0) :
    ∀ name ∈ setup.problem.names, (w name).ascent = .normalized := by
  have hgathered : ∀ name ∈ setup.problem.names, (w name).ascent ≠ .gathering := by
    refine valid.spans.induction_up fun name hn ih hg => ?_
    have hreported : (w name).range.reported = false := by
      simp [(h.sound name hn).reported, hg, Ascent.stage]
    -- one report is missing, and the child it comes from is gathering itself
    have hcount := (h.counts name hn).gathering hreported
    have hlt := (hcalm name hn).gathering hg
    have hmissing : ¬∀ child ∈ setup.children name, (w child).ascent.isReported = true := by
      intro hall
      rw [List.countP_eq_length.mpr hall] at hcount
      simp [hg, Ascent.stage] at hcount
      omega
    simp only [not_forall] at hmissing
    obtain ⟨child, hc, hr⟩ := hmissing
    have hl := (h.linked name child (valid.mem_children.mp hc)).ascent
    have hcn := valid.mem_names_of_child hc
    rcases ascent_of_quiet (hcalm child hcn) (hflight child hcn) with ha | ha | ⟨ha, _⟩
    · exact ih child hc ha
    · simp [ha, hg, Ascent.stage, Stage.Admits] at hl
    · simp [ha, Ascent.isReported] at hr
  refine fun name => valid.spans.induction_down (P := fun name =>
    name ∈ setup.problem.names → (w name).ascent = .normalized) (fun name ih hn => ?_) name
  rcases ascent_of_quiet (hcalm name hn) (hflight name hn) with ha | ha | ⟨ha, hp⟩
  · exact absurd ha (hgathered name hn)
  · exact ha
  · obtain ⟨parent, hp⟩ := Option.ne_none_iff_exists'.mp hp
    have hl := (h.linked parent name hp).ascent
    rw [ih parent hp (valid.mem_names hp).1, ha] at hl
    simp [Ascent.stage, Stage.Admits] at hl

/-- Without messages under way a variable waits for its parent, for its children, or for nothing. -/
theorem exchange_of_quiet (valid : setup.Valid) (h : w.Inv setup) (hsettled : w.Settled setup)
    (hflight : w.flight setup = 0) {name : String} (hn : name ∈ setup.problem.names) :
    (w name).exchange = .idle ∧ setup.parent name ≠ none ∨
      (∃ final, (w name).exchange = .busy final) ∨ (w name).exchange = .ended := by
  have hx := (flight_eq_zero hflight hn).2
  have hnormalized := normalized_of_quiet valid h (fun name hn => (hsettled name hn).calm)
    (fun name hn => (flight_eq_zero hflight hn).1) name hn
  have hs : (w name).ascent.stage = .normalized := by rw [hnormalized]; rfl
  have hsound := h.sound name hn
  unfold Cell.exchangeFlight at hx
  cases hc : (w name).exchange with
  | idle => exact .inl ⟨rfl, (hsound.of_idle hc).2 hs⟩
  | asked context => simp [hc] at hx
  | kept context => exact absurd hs (hsound.of_kept hc).2.2
  | poised final => exact absurd hc ((hsettled name hn).poised final)
  | busy final => exact .inr (.inl ⟨final, rfl⟩)
  | answered cost =>
    cases hp : setup.parent name with
    | none => simpa using (hsound.of_answered hc).1.root hp
    | some parent => simp [hc, hp] at hx
  | ended => exact .inr (.inr rfl)

/-- Without messages under way every variable has terminated. -/
theorem ended_of_quiet (valid : setup.Valid) (h : w.Inv setup) (hsettled : w.Settled setup)
    (hflight : w.flight setup = 0) :
    ∀ name ∈ setup.problem.names, (w name).exchange = .ended := by
  have hbusy : ∀ name ∈ setup.problem.names, ∀ final, (w name).exchange ≠ .busy final := by
    refine valid.spans.induction_up fun name hn ih final hb => ?_
    -- one report is missing, and the child it comes from waits itself
    have hcount := (h.counts name hn).busy (by simp [hb, Exchange.stance])
    have hlt := (hsettled name hn).busy final hb
    have hmissing : ¬∀ child ∈ setup.children name, (w child).exchange.isIdle = true := by
      intro hall
      rw [List.countP_eq_length.mpr hall] at hcount
      omega
    simp only [not_forall] at hmissing
    obtain ⟨child, hc, hr⟩ := hmissing
    have hl := (h.linked name child (valid.mem_children.mp hc)).exchange
    rcases exchange_of_quiet valid h hsettled hflight (valid.mem_names_of_child hc) with
      ⟨he, _⟩ | ⟨f, he⟩ | he
    · simp [he, Exchange.isIdle] at hr
    · exact ih child hc f he
    · simp [he, hb, Exchange.stance, Stance.Admits] at hl
  refine fun name => valid.spans.induction_down (P := fun name =>
    name ∈ setup.problem.names → (w name).exchange = .ended) (fun name ih hn => ?_) name
  rcases exchange_of_quiet valid h hsettled hflight hn with ⟨he, hp⟩ | ⟨f, he⟩ | he
  · obtain ⟨parent, hp⟩ := Option.ne_none_iff_exists'.mp hp
    have hl := (h.linked parent name hp).exchange
    rw [ih parent hp (valid.mem_names hp).1, he] at hl
    simp [Exchange.stance, Stance.Admits] at hl
  · exact absurd he (hbusy name hn f)
  · exact he

end World

end DcopSearch
