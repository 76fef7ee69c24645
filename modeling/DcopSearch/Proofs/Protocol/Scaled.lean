import DcopSearch.Proofs.Protocol.Exchange

/-! What normalization makes of the spaces.  Every variable of a component gets one and the same
divisor, and its spaces are those that it enforces, each moved by its own shift and divided. -/

namespace DcopSearch

variable {K : Type} [CostArithmetic K] {setup : Setup K} {w : World K}

/-- The spaces of a variable as the divisor of its component leaves them. -/
def Setup.normalizedSpaces (setup : Setup K) (divisor : K) (name : String) : List (CostSpace K) :=
  (setup.enforced name).map fun space =>
    space.rescale (Range.shift setup.substitute space) divisor setup.substitute

/-- The divisor comes from the range of a component. -/
def Range.Divides (divisor : K) : Prop := ∃ range : Range K, range.divisor = divisor

namespace Cell

/-- The spaces of a variable are as its stage asks for. -/
structure Scaled (setup : Setup K) (name : String) (c : Cell K) : Prop where
  gathered : c.ascent.stage = .gathering ∨ c.ascent.stage = .closed →
    c.range.spaces
      = (setup.enforced name).map fun space => (space, Range.shift setup.substitute space)
  dividing : ∀ divisor, c.ascent = .dividing divisor → Range.Divides divisor
  normalized : c.ascent.stage = .normalized → Range.Divides c.state.scalingFactor ∧
    c.state.spaces = setup.normalizedSpaces c.state.scalingFactor name

/-- The divisor of a variable is the one of its parent. -/
structure Shares (parent c : Cell K) : Prop where
  dividing : ∀ divisor, c.ascent = .dividing divisor → divisor = parent.state.scalingFactor
  normalized : c.ascent.stage = .normalized →
    c.state.scalingFactor = parent.state.scalingFactor

/-- The cells agree in all that normalization is about. -/
structure Level (c d : Cell K) : Prop where
  stage : d.ascent.stage = c.ascent.stage
  dividing : ∀ divisor, d.ascent = .dividing divisor → c.ascent = .dividing divisor
  ranged : d.range.spaces = c.range.spaces
  spaces : d.state.spaces = c.state.spaces
  scalingFactor : d.state.scalingFactor = c.state.scalingFactor

omit [CostArithmetic K] in
theorem Level.refl (c : Cell K) : Level c c :=
  ⟨rfl, fun _ => id, rfl, rfl, rfl⟩

theorem Scaled.of_level {name : String} {c d : Cell K} (h : c.Scaled setup name) (hl : Level c d) :
    d.Scaled setup name := by
  refine ⟨fun hs => ?_, fun divisor ha => ?_, fun hs => ?_⟩
  · rw [hl.stage] at hs
    exact hl.ranged.trans (h.gathered hs)
  · exact h.dividing divisor (hl.dividing divisor ha)
  · rw [hl.stage] at hs
    rw [hl.scalingFactor, hl.spaces]
    exact h.normalized hs

omit [CostArithmetic K] in
theorem Shares.of_level {parent parent' c d : Cell K} (h : Shares parent c) (hl : Level c d)
    (hp : parent'.state.scalingFactor = parent.state.scalingFactor) : Shares parent' d := by
  refine ⟨fun divisor ha => ?_, fun hs => ?_⟩
  · rw [hp]
    exact h.dividing divisor (hl.dividing divisor ha)
  · rw [hl.stage] at hs
    rw [hp, hl.scalingFactor]
    exact h.normalized hs

theorem Scaled.seen {name : String} {c : Cell K} (hsound : c.Sound setup name)
    (ha : c.ascent = .unseen) : (c.seen setup name).Scaled setup name := by
  refine ⟨fun _ => ?_, by simp [Cell.seen], by simp [Cell.seen, Ascent.stage]⟩
  have hnone : c.range.spaces = [] := by simpa [ha, Ascent.stage] using hsound.shapes
  simp [Cell.seen, Range.addView_eq, hnone]

theorem Scaled.closed {name : String} {c : Cell K} (h : c.Scaled setup name)
    (ha : c.ascent = .gathering) : (c.closed setup name).Scaled setup name := by
  have hspaces := h.gathered (.inl (by rw [ha]; rfl))
  refine ⟨fun _ => hspaces, fun divisor hd => ?_, fun hs => ?_⟩
  · unfold Cell.closed at hd
    simp only at hd
    split at hd
    · cases hd
    · exact ⟨_, Ascent.dividing.inj hd⟩
  · unfold Cell.closed at hs
    simp only at hs
    split at hs <;> cases hs

theorem normalized_eq (setup : Setup K) (name : String) (divisor : K) (c : Cell K) :
    (c.normalized setup name divisor).ascent = .normalized ∧
    (c.normalized setup name divisor).state.scalingFactor = divisor ∧
    (c.normalized setup name divisor).state.spaces = c.range.spaces.map fun entry =>
      entry.1.rescale entry.2 divisor setup.substitute := by
  obtain ⟨phase, hphase⟩ := exists_normalized_state setup name divisor c
  refine ⟨normalized_ascent, by rw [hphase]; rfl, ?_⟩
  rw [hphase]
  simp [SamplingState.prepare, Range.normalized, Range.rescale, Function.comp_def]

theorem Scaled.normalize {name : String} {c : Cell K} (h : c.Scaled setup name) {divisor : K}
    (ha : c.ascent = .dividing divisor) : (c.normalized setup name divisor).Scaled setup name := by
  obtain ⟨hascent, hfactor, hspaces⟩ := normalized_eq setup name divisor c
  refine ⟨fun hs => ?_, fun other hd => ?_, fun _ => ?_⟩
  · rw [hascent] at hs
    rcases hs with hs | hs <;> cases hs
  · rw [hascent] at hd
    cases hd
  · rw [hfactor, hspaces, h.gathered (.inr (by rw [ha]; rfl)), List.map_map]
    exact ⟨h.dividing divisor ha, rfl⟩

end Cell

namespace World

/-- The divisors and the spaces of all variables are as they should. -/
structure Scaled (setup : Setup K) (w : World K) : Prop where
  cells : ∀ name ∈ setup.problem.names, (w name).Scaled setup name
  shares : ∀ parent name, setup.parent name = some parent → Cell.Shares (w parent) (w name)

theorem scaled_initial (setup : Setup K) : (World.initial setup).Scaled setup where
  cells name _ := by
    refine ⟨?_, ?_, ?_⟩ <;> simp [World.initial, Cell.initial, Ascent.stage]
  shares parent name _ := by
    refine ⟨?_, ?_⟩ <;> simp [World.initial, Cell.initial, Ascent.stage]

theorem Scaled.of_level (h : w.Scaled setup) {w' : World K}
    (hl : ∀ name, Cell.Level (w name) (w' name)) : w'.Scaled setup :=
  ⟨fun name hn => (h.cells name hn).of_level (hl name),
    fun parent name hp => (h.shares parent name hp).of_level (hl name) (hl parent).scalingFactor⟩

theorem Scaled.rewrite (h : w.Scaled setup) (valid : setup.Valid) {name : String} {cell : Cell K}
    {children : List String} {change : String → Cell K → Cell K}
    (hsub : ∀ child ∈ children, child ∈ setup.children name)
    (halike : ∀ child ∈ children, Cell.Alike (w child) (change child (w child)))
    (hcell : cell.Scaled setup name)
    (hchildren : ∀ child ∈ children, (change child (w child)).Scaled setup child)
    (hup : ∀ parent, setup.parent name = some parent → Cell.Shares (w parent) cell)
    (hdown : ∀ child ∈ setup.children name,
      Cell.Shares cell (w.rewrite name cell children change child)) :
    (w.rewrite name cell children change).Scaled setup := by
  obtain ⟨hcells, hshares⟩ := forall_rewrite (P := fun name c => c.Scaled setup name)
    (L := fun _ parent c => Cell.Shares parent c) valid h.cells h.shares
    (fun hl ha => hl.of_level (.refl _) (by rw [ha.state])) hsub halike hcell hchildren hup hdown
  exact ⟨hcells, hshares⟩

theorem Scaled.update (h : w.Scaled setup) (valid : setup.Valid) {name : String} {cell : Cell K}
    (hcell : cell.Scaled setup name) (hup : ∀ parent, setup.parent name = some parent →
      Cell.Shares (w parent) cell)
    (hfactor : cell.state.scalingFactor = (w name).state.scalingFactor) :
    (w.update name cell).Scaled setup := by
  refine h.rewrite valid (by simp) (by simp) hcell (by simp) hup fun child hc => ?_
  have hne : child ≠ name := fun he => valid.not_mem_children_self name (he ▸ hc)
  rw [rewrite_other hne (by simp)]
  exact (h.shares name child (valid.mem_children.mp hc)).of_level (.refl _) hfactor

theorem Scaled.normalize (h : w.Scaled setup) (valid : setup.Valid) (hinv : w.Inv setup)
    {name : String} {divisor : K} (hn : name ∈ setup.problem.names)
    (ha : (w name).ascent = .dividing divisor) : (w.normalize setup name divisor).Scaled setup := by
  obtain ⟨hascent, hfactor, -⟩ := Cell.normalized_eq setup name divisor (w name)
  have hclosed : (w name).ascent.stage = .closed := by rw [ha]; rfl
  have hscaled := h.cells name hn
  refine h.rewrite valid (fun _ => id)
    (fun child hc => .dividing (hinv.child_reported valid hclosed hc) divisor) (hscaled.normalize ha)
    (fun child hc => ⟨fun _ => ?_, fun d hd => ?_, by simp [Ascent.stage]⟩) (fun parent hp => ?_)
    fun child hc => ?_
  · refine (h.cells child (valid.mem_names_of_child hc)).gathered (.inr ?_)
    rw [hinv.child_reported valid hclosed hc]
    rfl
  · obtain rfl := Ascent.dividing.inj hd
    exact hscaled.dividing divisor ha
  · refine ⟨fun d hd => ?_, fun _ => ?_⟩
    · rw [hascent] at hd
      cases hd
    · rw [hfactor]
      exact (h.shares parent name hp).dividing divisor ha
  · have hne : child ≠ name := fun he => valid.not_mem_children_self name (he ▸ hc)
    rw [rewrite_child hc hne]
    refine ⟨fun d hd => ?_, by simp [Ascent.stage]⟩
    rw [hfactor]
    exact (Ascent.dividing.inj hd).symm

omit [CostArithmetic K] in
/-- Exchanging contexts and costs does not touch what normalization is about. -/
theorem level_rewrite {name : String} {cell : Cell K} {children : List String}
    {change : String → Cell K → Cell K} (hcell : Cell.Level (w name) cell)
    (hchange : ∀ child ∈ children, Cell.Level (w child) (change child (w child))) (other : String) :
    Cell.Level (w other) (w.rewrite name cell children change other) := by
  by_cases hn : other = name
  · rw [hn, rewrite_self]
    exact hcell
  by_cases hc : other ∈ children
  · rw [rewrite_child hc hn]
    exact hchange other hc
  · rw [rewrite_other hn hc]
    exact .refl _

omit [CostArithmetic K] in
theorem level_act {name : String} {act : Act K} {final : Bool} {state : SamplingState K}
    (hspaces : state.spaces = (w name).state.spaces)
    (hfactor : state.scalingFactor = (w name).state.scalingFactor) (other : String) :
    Cell.Level (w other) (w.act setup name act final state other) := by
  have hcell : Cell.Level (w name) ((w name).acting act final state) :=
    ⟨rfl, fun _ => id, rfl, hspaces, hfactor⟩
  unfold World.act
  refine level_rewrite hcell (fun _ _ => ?_) other
  exact ⟨rfl, fun _ => id, rfl, rfl, rfl⟩

/-- Every step leaves the spaces as they should be. -/
theorem Scaled.step {G : Type} [Generator G] (h : w.Scaled setup) (valid : setup.Valid)
    (hinv : w.Inv setup) {w' : World K} (hs : Step setup G w w') : w'.Scaled setup := by
  cases hs with
  | @see name hn ha =>
    exact h.update valid (Cell.Scaled.seen (hinv.sound name hn) ha)
      (fun parent hp => ⟨by simp [Cell.seen], by simp [Cell.seen, Ascent.stage]⟩) rfl
  | @tell parent name hp ha =>
    refine h.of_level (level_rewrite ⟨rfl, fun _ => id, rfl, rfl, rfl⟩ fun child hc => ?_)
    obtain rfl := List.mem_singleton.mp hc
    exact ⟨by simp [ha, Ascent.stage], by simp, rfl, rfl, rfl⟩
  | @close name hn ha hc =>
    refine h.update valid ((h.cells name hn).closed ha) (fun parent hp => ?_) rfl
    have hr : ((w name).closed setup name).ascent = .reporting := by simp [Cell.closed, hp]
    exact ⟨by simp [hr], by simp [hr, Ascent.stage]⟩
  | normalize hn ha => exact h.normalize valid hinv hn ha
  | keep hn hx hs => exact h.of_level (level_rewrite ⟨rfl, fun _ => id, rfl, rfl, rfl⟩ (by simp))
  | take hn hx hs => exact h.of_level (level_rewrite ⟨rfl, fun _ => id, rfl, rfl, rfl⟩ (by simp))
  | answer _ hn hx hacts =>
    exact h.of_level (level_act hacts.keeps.spaces hacts.keeps.scalingFactor)
  | count hp hx =>
    exact h.of_level (level_rewrite ⟨rfl, fun _ => id, rfl, rfl, rfl⟩
      fun _ _ => ⟨rfl, fun _ => id, rfl, rfl, rfl⟩)
  | join _ hn hx hr hacts =>
    exact h.of_level (level_act hacts.keeps.spaces hacts.keeps.scalingFactor)

theorem Scaled.steps {G : Type} [Generator G] (h : w.Scaled setup) (valid : setup.Valid)
    (hinv : w.Inv setup) {w' : World K} (hs : Steps setup G w w') : w'.Scaled setup := by
  induction hs with
  | refl => exact h
  | tail hs hstep ih => exact ih.step valid (hinv.steps valid hs) hstep

end World

end DcopSearch
