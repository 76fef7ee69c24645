import DcopSearch.Proofs.Protocol.Scaled
import DcopSearch.Proofs.Protocol.Totals

/-! What the variables gather.  A range is at every moment the sum of what the variable itself adds and
of what it has heard from its children, closed on top of that once it is reported.  So it does not
matter in which order the reports come: a range that is reported is the total of its subtree, and the
divisor that all variables of a component get is the one of this total at the root. -/

namespace DcopSearch

open CostArithmetic World

variable {K : Type} [CostArithmetic K]

/-- A measure of ranges: what a variable adds to it, what becomes of it in a report, and what it is of a
whole subtree. -/
structure Measure (setup : Setup K) (M : Type) [AddCommMonoid M] where
  of : Range K → M
  own : String → M
  close : String → M → M
  total : String → M
  of_empty : of .empty = 0
  of_view : ∀ name range, of (range.addView setup.substitute (setup.view name)
    (setup.enforced name) (setup.domain name).length) = of range + own name
  of_report : ∀ parent report range,
    of (range.addReport (Normalizer.reportTo parent report)) = of range + of report
  of_close : ∀ name range, of (range.close name (setup.view name)) = close name (of range)
  of_rescale : ∀ divisor range, of (range.rescale setup.substitute divisor) = of range
  total_eq : ∀ name ∈ setup.problem.names, total name
    = close name (own name + ∑ child ∈ (setup.children name).toFinset, total child)

namespace Measure

/-- The number of spaces, the size and the separator. -/
noncomputable def shape (setup : Setup K) (valid : setup.Valid) (traced : setup.Traced) :
    Measure setup Shape where
  of := Range.shape
  own := setup.ownShape
  close name := Shape.close name (setup.view name).isLeaf
  total := setup.shape
  of_empty := rfl
  of_view _ range := Range.shape_addView _ _ _ _ range
  of_report _ _ _ := rfl
  of_close _ _ := rfl
  of_rescale _ _ := rfl
  total_eq _ := valid.shape_eq traced

/-- The ends, which a report leaves as they are. -/
noncomputable def ends {F : Type} [Field F] [LinearOrder F] [LnSqrt F] (setup : Setup (Exact F))
    (valid : setup.Valid) : Measure setup (Exact F × Exact F) where
  of := Range.ends
  own := setup.ownEnds
  close _ ends := ends
  total := setup.ends
  of_empty := Range.ends_empty
  of_view _ range := Range.ends_addView _ _ _ _ range
  of_report _ _ _ := rfl
  of_close _ _ := rfl
  of_rescale _ _ := rfl
  total_eq _ hn := valid.sum_subtree hn setup.ownEnds

end Measure

variable {setup : Setup K} {M : Type} [AddCommMonoid M] {w : World K} {name : String}

namespace Cell

/-- What the parent has heard of a variable. -/
def heard (m : Measure setup M) (c : Cell K) : M := if c.ascent.isHeard then m.of c.range else 0

/-- The divisor of a root is the one of its range, and the spaces are sampled as they are rescaled. -/
structure Divides (setup : Setup K) (name : String) (c : Cell K) : Prop where
  dividing : setup.parent name = none → ∀ divisor, c.ascent = .dividing divisor →
    divisor = c.range.divisor
  normalized : setup.parent name = none → c.ascent.stage = .normalized →
    c.state.scalingFactor = c.range.divisor
  spaces : c.ascent.stage = .normalized → c.state.spaces = c.range.spaces.map Prod.fst

/-- The cells have the same range and the same place in normalization. -/
structure Same (c d : Cell K) : Prop where
  range : d.range = c.range
  ascent : d.ascent = c.ascent
  scalingFactor : d.state.scalingFactor = c.state.scalingFactor
  spaces : d.state.spaces = c.state.spaces

end Cell

namespace World

/-- What a variable has heard of, from its children and of itself. -/
def gathered (w : World K) (m : Measure setup M) (name : String) : M :=
  (if (w name).ascent.stage = .unseen then 0 else m.own name)
    + ∑ child ∈ (setup.children name).toFinset, (w child).heard m

/-- The range of a variable is what it has heard of. -/
def Gathers (w : World K) (m : Measure setup M) (name : String) : Prop :=
  m.of (w name).range = if (w name).range.reported then m.close name (w.gathered m name)
    else w.gathered m name

/-- All ranges are what has been heard of, and the divisors what the ranges give. -/
structure Gathered (setup : Setup K) (w : World K) : Prop where
  ranges : ∀ {M : Type} [AddCommMonoid M] (m : Measure setup M), ∀ name ∈ setup.problem.names,
    w.Gathers m name
  divisors : ∀ name ∈ setup.problem.names, (w name).Divides setup name

theorem gathered_initial (setup : Setup K) : (World.initial setup).Gathered setup where
  ranges m name _ := by
    have hnone : ∀ child, (World.initial setup child).heard m = 0 := fun _ => rfl
    simp only [Gathers, gathered, hnone, Finset.sum_const_zero]
    show m.of .empty = 0 + 0
    rw [m.of_empty, add_zero]
  divisors name _ := by
    refine ⟨fun _ divisor hd => ?_, fun _ hs => ?_, fun hs => ?_⟩
    · cases hd
    · cases hs
    · cases hs

/-- A step that leaves the ranges and the places in normalization alone. -/
theorem Gathered.of_same (h : w.Gathered setup) {w' : World K}
    (hs : ∀ name, Cell.Same (w name) (w' name)) : w'.Gathered setup := by
  refine ⟨fun m name hn => ?_, fun name hn => ⟨fun hp divisor hd => ?_, fun hp hstage => ?_,
    fun hstage => ?_⟩⟩
  · have hheard : ∀ child, (w' child).heard m = (w child).heard m := by
      intro child
      rw [Cell.heard, (hs child).ascent, (hs child).range, Cell.heard]
    have hr := h.ranges m name hn
    unfold Gathers gathered at hr ⊢
    simp only [hheard]
    rw [(hs name).range, (hs name).ascent]
    exact hr
  · rw [(hs name).ascent] at hd
    rw [(hs name).range]
    exact (h.divisors name hn).dividing hp divisor hd
  · rw [(hs name).ascent] at hstage
    rw [(hs name).range, (hs name).scalingFactor]
    exact (h.divisors name hn).normalized hp hstage
  · rw [(hs name).ascent] at hstage
    rw [(hs name).range, (hs name).spaces]
    exact (h.divisors name hn).spaces hstage

/-- What has been gathered has to be shown of the changed variable only, if its parent has heard the
same of it as before. -/
theorem Gathered.rewrite (h : w.Gathered setup) (valid : setup.Valid) {cell : Cell K}
    {children : List String} {change : String → Cell K → Cell K}
    (hsub : ∀ child ∈ children, child ∈ setup.children name)
    (halike : ∀ child ∈ children, Cell.Alike (w child) (change child (w child)))
    (hself : ∀ {M : Type} [AddCommMonoid M] (m : Measure setup M),
      (w.rewrite name cell children change).Gathers m name)
    (hdivides : cell.Divides setup name)
    (hchildren : ∀ child ∈ children, (change child (w child)).ascent.stage ≠ .normalized)
    (hup : ∀ parent, setup.parent name = some parent → ∀ {M : Type} [AddCommMonoid M]
      (m : Measure setup M), cell.heard m = (w name).heard m) :
    (w.rewrite name cell children change).Gathered setup := by
  have hchild : ∀ child ∈ children, setup.parent child = some name :=
    fun child hc => valid.mem_children.mp (hsub child hc)
  refine ⟨fun m other ho => ?_, fun other ho => ?_⟩
  · by_cases hn : other = name
    · exact hn ▸ hself m
    have hlike : Cell.Alike (w other) (w.rewrite name cell children change other) :=
      near_rewrite halike other hn
    have hheard : ∀ child ∈ setup.children other,
        (w.rewrite name cell children change child).heard m = (w child).heard m := by
      intro child hc
      have hp := valid.mem_children.mp hc
      by_cases hcn : child = name
      · subst hcn
        rw [rewrite_self]
        exact hup other hp m
      · rw [rewrite_other hcn fun hm => hn (Option.some.inj (hp.symm.trans (hchild child hm)))]
    have hsum : (w.rewrite name cell children change).gathered m other = w.gathered m other := by
      rw [gathered, gathered, hlike.stage]
      exact congrArg _ (Finset.sum_congr rfl fun child hc => hheard child (List.mem_toFinset.mp hc))
    rw [Gathers, hsum, hlike.range]
    exact h.ranges m other ho
  · by_cases hn : other = name
    · rw [hn, rewrite_self]
      exact hdivides
    by_cases hc : other ∈ children
    · rw [rewrite_child hc hn]
      refine ⟨fun hp => ?_, fun hp => ?_, fun hs => absurd hs (hchildren other hc)⟩ <;>
        simp [hchild other hc] at hp
    · rw [rewrite_other hn hc]
      exact h.divisors other ho

theorem Gathered.see (h : w.Gathered setup) (valid : setup.Valid) (hinv : w.Inv setup)
    (hn : name ∈ setup.problem.names) (ha : (w name).ascent = .unseen) :
    (w.update name ((w name).seen setup name)).Gathered setup := by
  refine h.rewrite valid (by simp) (by simp) (fun m => ?_) ⟨by simp [Cell.seen],
    by simp [Cell.seen, Ascent.stage], by simp [Cell.seen, Ascent.stage]⟩ (by simp)
    fun parent hp _ _ m => by simp [Cell.heard, Cell.seen, ha, Ascent.isHeard]
  have hreported : (w name).range.reported = false := by
    simp [(hinv.sound name hn).reported, ha, Ascent.stage]
  have hr := h.ranges m name hn
  have hchildren : ∀ child ∈ (setup.children name).toFinset,
      w.rewrite name ((w name).seen setup name) [] (fun _ cell => cell) child = w child := by
    intro child hc
    refine rewrite_other (fun he => ?_) (by simp)
    subst he
    exact valid.not_mem_children_self _ (List.mem_toFinset.mp hc)
  have hsum : (w.rewrite name ((w name).seen setup name) [] fun _ cell => cell).gathered m name
      = m.own name + ∑ child ∈ (setup.children name).toFinset, (w child).heard m := by
    rw [gathered, rewrite_self, Finset.sum_congr rfl fun child hc => by rw [hchildren child hc]]
    rfl
  rw [Gathers, hreported, if_neg Bool.false_ne_true, gathered, ha,
    show (Ascent.unseen : Ascent K).stage = .unseen from rfl, if_pos rfl, zero_add] at hr
  have hseen : ((w name).seen setup name).range.reported = false := by
    simpa [Cell.seen, Range.addView_eq] using hreported
  rw [Gathers, hsum, rewrite_self, hseen, if_neg Bool.false_ne_true, ← hr, add_comm]
  exact m.of_view name (w name).range

theorem Gathered.tell (h : w.Gathered setup) (valid : setup.Valid) (hinv : w.Inv setup)
    {parent : String} (hp : setup.parent name = some parent) (ha : (w name).ascent = .reporting) :
    (w.tell parent name).Gathered setup := by
  obtain ⟨hpn, hn⟩ := valid.mem_names hp
  have hchild := valid.mem_children.mpr hp
  have hne : name ≠ parent := fun he => valid.not_mem_children_self parent (he ▸ hchild)
  have hgathering := hinv.gathering_of_reporting hp ha
  have hreported := hinv.unreported_of_reporting valid hp ha
  have hearly := (hinv.prepares_tell valid hp ha).after
  refine h.rewrite valid (by simpa using hchild) (alike_tell ha) (fun m => ?_)
    ⟨fun _ divisor hd => ?_, fun _ hs => absurd hs hearly, fun hs => absurd hs hearly⟩
    (by simp [Ascent.stage]) fun q hq _ _ m => ?_
  · have hr := h.ranges m parent hpn
    rw [Gathers, hreported, if_neg Bool.false_ne_true] at hr
    have hold : (w name).heard m = 0 := by simp [Cell.heard, ha, Ascent.isHeard]
    have hnew : (w.tell parent name name).heard m = m.of (w name).range := by
      rw [World.tell, rewrite_child (by simp) hne]
      rfl
    have hother : ∀ child ∈ (setup.children parent).toFinset.erase name,
        (w.tell parent name child).heard m = (w child).heard m := by
      intro child hc
      obtain ⟨hcn, hc⟩ := Finset.mem_erase.mp hc
      have hcp : child ≠ parent := by
        rintro rfl
        exact valid.not_mem_children_self _ (List.mem_toFinset.mp hc)
      rw [World.tell, rewrite_other hcp (by simpa using hcn)]
    have hsum : (w.tell parent name).gathered m parent
        = w.gathered m parent + m.of (w name).range := by
      have hmem : name ∈ (setup.children parent).toFinset := List.mem_toFinset.mpr hchild
      rw [gathered, gathered, ← Finset.add_sum_erase _ _ hmem, ← Finset.add_sum_erase _ _ hmem,
        hnew, hold, Finset.sum_congr rfl hother, zero_add, World.tell, rewrite_self]
      have hstage : ((w parent).told (Normalizer.reportTo parent (w name).range)).ascent.stage
          = (w parent).ascent.stage := rfl
      rw [hstage]
      ac_rfl
    rw [show w.rewrite parent _ _ _ = w.tell parent name from rfl, Gathers, hsum, ← hr, World.tell,
      rewrite_self, show ((w parent).told _).range.reported = (w parent).range.reported from rfl,
      hreported]
    exact m.of_report parent (w name).range (w parent).range
  · have hd : (w parent).ascent = .dividing divisor := hd
    rcases hgathering with hg | hg <;> simp [hg] at hd
  · have hold : (w parent).ascent.isHeard = false := by
      rcases hgathering with hg | hg <;> simp [hg, Ascent.isHeard]
    rw [Cell.heard, Cell.heard, hold, show ((w parent).told _).ascent = (w parent).ascent from rfl,
      hold]
    rfl

theorem Gathered.close (h : w.Gathered setup) (valid : setup.Valid) (hinv : w.Inv setup)
    (hn : name ∈ setup.problem.names) (ha : (w name).ascent = .gathering) :
    (w.update name ((w name).closed setup name)).Gathered setup := by
  have hreported : (w name).range.reported = false := by
    simp [(hinv.sound name hn).reported, ha, Ascent.stage]
  have hstage : ((w name).closed setup name).ascent.stage = .closed := by
    unfold Cell.closed
    simp only
    split <;> rfl
  refine h.rewrite valid (by simp) (by simp) (fun m => ?_) ⟨fun hp divisor hd => ?_,
    fun _ hs => by simp [hstage] at hs, fun hs => by simp [hstage] at hs⟩ (by simp)
    fun parent hp _ _ m => ?_
  · have hr := h.ranges m name hn
    rw [Gathers, hreported, if_neg Bool.false_ne_true] at hr
    have hchildren : ∀ child ∈ (setup.children name).toFinset,
        (w.rewrite name ((w name).closed setup name) [] (fun _ cell => cell) child).heard m
          = (w child).heard m := by
      intro child hc
      refine congrArg (Cell.heard m) (rewrite_other (fun he => ?_) (by simp))
      subst he
      exact valid.not_mem_children_self _ (List.mem_toFinset.mp hc)
    have hsum : (w.rewrite name ((w name).closed setup name) [] fun _ cell => cell).gathered m name
        = w.gathered m name := by
      rw [gathered, gathered, rewrite_self, hstage, ha, Finset.sum_congr rfl hchildren]
      rfl
    rw [Gathers, hsum, ← hr, rewrite_self]
    exact m.of_close name (w name).range
  · rw [Cell.closed, hp] at hd
    exact (Ascent.dividing.inj hd).symm
  · have hreporting : ((w name).closed setup name).ascent = .reporting := by simp [Cell.closed, hp]
    simp [Cell.heard, hreporting, ha, Ascent.isHeard]

theorem Gathered.normalize (h : w.Gathered setup) (valid : setup.Valid) (hinv : w.Inv setup)
    {divisor : K} (hn : name ∈ setup.problem.names)
    (ha : (w name).ascent = .dividing divisor) : (w.normalize setup name divisor).Gathered setup := by
  obtain ⟨hascent, hfactor, hspaces⟩ := Cell.normalized_eq setup name divisor (w name)
  have hclosed : (w name).ascent.stage = .closed := by rw [ha]; rfl
  have hrange : ((w name).normalized setup name divisor).range
      = (w name).range.rescale setup.substitute divisor := Cell.normalized_range
  have hreported : ∀ child ∈ setup.children name, (w child).ascent = .reported :=
    fun child hc => hinv.child_reported valid hclosed hc
  refine h.rewrite valid (fun _ => id) (fun child hc => ?_) (fun m => ?_) ⟨fun _ d hd => ?_,
    fun hp _ => ?_, fun _ => ?_⟩ (by simp [Ascent.stage]) fun parent hp _ _ m => ?_
  · exact ⟨rfl, rfl, by simp [hreported child hc, Ascent.stage], rfl, fun _ => id⟩
  · have hchildren : ∀ child ∈ (setup.children name).toFinset,
        (w.normalize setup name divisor child).heard m = (w child).heard m := by
      intro child hc
      have hc := List.mem_toFinset.mp hc
      have hne : child ≠ name := fun he => valid.not_mem_children_self name (he ▸ hc)
      rw [World.normalize, rewrite_child hc hne, Cell.heard, Cell.heard, hreported child hc]
      rfl
    have hsum : (w.normalize setup name divisor).gathered m name = w.gathered m name := by
      rw [gathered, gathered, Finset.sum_congr rfl hchildren, World.normalize, rewrite_self, hascent,
        hclosed]
      rfl
    have hr := h.ranges m name hn
    rw [show w.rewrite name _ _ _ = w.normalize setup name divisor from rfl, Gathers, hsum,
      World.normalize, rewrite_self, hrange, m.of_rescale]
    exact hr
  · rw [hascent] at hd
    cases hd
  · rw [hfactor, hrange]
    exact (h.divisors name hn).dividing hp divisor ha
  · rw [hspaces, hrange, Range.rescale, List.map_map]
    rfl
  · rw [Cell.heard, Cell.heard, hascent, ha, hrange, m.of_rescale]
    rfl

omit [CostArithmetic K] in
theorem same_rewrite {cell : Cell K} {children : List String}
    {change : String → Cell K → Cell K} (hcell : Cell.Same (w name) cell)
    (hchange : ∀ child, Cell.Same (w child) (change child (w child))) (other : String) :
    Cell.Same (w other) (w.rewrite name cell children change other) := by
  unfold World.rewrite
  split
  next hn => exact hn ▸ hcell
  next =>
    split
    · exact hchange other
    · exact ⟨rfl, rfl, rfl, rfl⟩

/-- Every step leaves the ranges the sums of what has been heard. -/
theorem Gathered.step {G : Type} [Generator G] (h : w.Gathered setup) (valid : setup.Valid)
    (hinv : w.Inv setup) {w' : World K} (hs : Step setup G w w') : w'.Gathered setup := by
  cases hs with
  | see hn ha => exact h.see valid hinv hn ha
  | tell hp ha => exact h.tell valid hinv hp ha
  | close hn ha _ => exact h.close valid hinv hn ha
  | normalize hn ha => exact h.normalize valid hinv hn ha
  | keep _ _ _ => exact h.of_same (same_rewrite ⟨rfl, rfl, rfl, rfl⟩ fun _ => ⟨rfl, rfl, rfl, rfl⟩)
  | take _ _ _ => exact h.of_same (same_rewrite ⟨rfl, rfl, rfl, rfl⟩ fun _ => ⟨rfl, rfl, rfl, rfl⟩)
  | answer _ _ _ hacts =>
    exact h.of_same (same_rewrite ⟨rfl, rfl, hacts.keeps.scalingFactor, hacts.keeps.spaces⟩
      fun _ => ⟨rfl, rfl, rfl, rfl⟩)
  | count _ _ => exact h.of_same (same_rewrite ⟨rfl, rfl, rfl, rfl⟩ fun _ => ⟨rfl, rfl, rfl, rfl⟩)
  | join _ _ _ _ hacts =>
    exact h.of_same (same_rewrite ⟨rfl, rfl, hacts.keeps.scalingFactor, hacts.keeps.spaces⟩
      fun _ => ⟨rfl, rfl, rfl, rfl⟩)

theorem Gathered.steps {G : Type} [Generator G] (h : w.Gathered setup) (valid : setup.Valid)
    (hinv : w.Inv setup) {w' : World K} (hs : Steps setup G w w') : w'.Gathered setup := by
  induction hs with
  | refl => exact h
  | tail hs hstep ih => exact ih.step valid (hinv.steps valid hs) hstep

/-- The range of a variable that has reported is the total of its subtree. -/
theorem Gathered.of_eq (h : w.Gathered setup) (valid : setup.Valid) (hinv : w.Inv setup)
    (m : Measure setup M) (hn : name ∈ setup.problem.names)
    (hr : (w name).range.reported = true) : m.of (w name).range = m.total name := by
  refine valid.spans.induction_up (P := fun name => (w name).range.reported = true →
    m.of (w name).range = m.total name) (fun name hn ih hr => ?_) name hn hr
  have hstage : (w name).ascent.stage = .closed ∨ (w name).ascent.stage = .normalized := by
    simpa [(hinv.sound name hn).reported] using hr
  have hseen : (w name).ascent.stage ≠ .unseen := by
    rcases hstage with hs | hs <;> simp [hs]
  have hchildren : ∀ child ∈ (setup.children name).toFinset,
      (w child).heard m = m.total child := by
    intro child hc
    have hc := List.mem_toFinset.mp hc
    have hadmits := (hinv.linked name child (valid.mem_children.mp hc)).ascent
    have hheard : (w child).ascent.isHeard = true ∧
        ((w child).ascent.stage = .closed ∨ (w child).ascent.stage = .normalized) := by
      rcases hstage with hs | hs <;> rw [hs] at hadmits
      · rw [show (w child).ascent = .reported from hadmits]
        exact ⟨rfl, .inl rfl⟩
      · rcases hadmits with ⟨divisor, hd⟩ | hd <;> rw [hd]
        · exact ⟨rfl, .inl rfl⟩
        · exact ⟨rfl, .inr rfl⟩
    rw [Cell.heard, if_pos hheard.1]
    refine ih child hc ?_
    simpa [(hinv.sound child (valid.mem_names_of_child hc)).reported] using hheard.2
  have hgathers := h.ranges m name hn
  rw [Gathers, if_pos hr, gathered, if_neg hseen, Finset.sum_congr rfl hchildren] at hgathers
  rw [hgathers, m.total_eq name hn]

/-- The separator of a variable that has reported has the ancestors that matter to its subtree. -/
theorem Gathered.separator_eq (h : w.Gathered setup) (valid : setup.Valid) (traced : setup.Traced)
    (hinv : w.Inv setup) (hn : name ∈ setup.problem.names)
    (hr : (w name).range.reported = true) :
    (w name).range.separator.toList = setup.separator name := by
  refine valid.toList_eq_separator fun other => ?_
  rw [← Setup.mem_separator_shape valid,
    ← show (w name).range.shape = setup.shape name from
      h.of_eq valid hinv (.shape setup valid traced) hn hr]
  rfl

end World

end DcopSearch
