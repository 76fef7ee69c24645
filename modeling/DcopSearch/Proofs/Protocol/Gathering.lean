import DcopSearch.Proofs.Normalization.Range
import DcopSearch.Proofs.Protocol.Invariant

/-! Normalization keeps the invariant.  Views and reports come in, a complete range is closed, and the
divisor makes a variable ready to sample. -/

namespace DcopSearch

variable {K : Type} [CostArithmetic K] {setup : Setup K} {w : World K}

namespace Cell

/-- What the exchange keeps to depends on the stage only as far as normalization is concerned. -/
theorem Exchanging.of_stage {name : String} {c d : Cell K} (h : c.Exchanging setup name)
    (hstate : d.state = c.state) (hexchange : d.exchange = c.exchange)
    (hstage : d.ascent.stage = .normalized ↔ c.ascent.stage = .normalized) :
    d.Exchanging setup name := by
  have hquiet : c.Quiet setup name → d.Quiet setup name := fun hq =>
    ⟨hstate ▸ hq.round, hstate ▸ hq.parentFinished⟩
  have hwaiting : c.Waiting setup name → d.Waiting setup name := fun hw =>
    ⟨hquiet hw.toQuiet, fun hd => hstate ▸ hw.phase (hstage.mp hd)⟩
  have hworking : ∀ final, c.Working setup name final → d.Working setup name final := fun _ hw =>
    ⟨hstage.mpr hw.stage, hstate ▸ hw.informed, hstate ▸ hw.phase, hw.root⟩
  unfold Exchanging at h ⊢
  rw [hexchange]
  cases he : c.exchange with
  | idle =>
    simp only [he] at h ⊢
    exact ⟨hwaiting h.1, fun hd => h.2 (hstage.mp hd)⟩
  | asked context =>
    simp only [he] at h ⊢
    exact ⟨hwaiting h.1, h.2⟩
  | kept context =>
    simp only [he] at h ⊢
    exact ⟨hquiet h.1, h.2.1, fun hd => h.2.2 (hstage.mp hd)⟩
  | poised final =>
    simp only [he] at h ⊢
    exact ⟨hworking final h.1, hquiet h.2⟩
  | busy final =>
    simp only [he] at h ⊢
    exact ⟨hworking final h.toWorking, hstate ▸ h.parentFinished, h.nonleaf, hstate ▸ h.current,
      hstate ▸ h.active⟩
  | answered cost =>
    simp only [he] at h ⊢
    exact ⟨hworking false h.1, hquiet h.2⟩
  | ended =>
    simp only [he] at h ⊢
    exact ⟨hstage.mpr h.1, hstate ▸ h.2.1, hstate ▸ h.2.2⟩

theorem sound_initial (setup : Setup K) (name : String) :
    (Cell.initial setup name).Sound setup name where
  view := rfl
  reported := rfl
  done := rfl
  shapes := rfl
  above := by simp [initial, Range.empty]
  own := by simp [initial, Ascent.stage]
  named := rfl
  parent := rfl
  children := rfl
  registered _ := rfl
  sampling := by simp [initial, Ascent.stage]
  slots := by simp [initial, Ascent.stage]
  exchanging := ⟨⟨⟨rfl, rfl⟩, by simp [initial, Ascent.stage]⟩, by simp [initial, Ascent.stage]⟩

theorem Sound.seen (valid : setup.Valid) {name : String} {c : Cell K} (h : c.Sound setup name)
    (ha : c.ascent = .unseen) : (c.seen setup name).Sound setup name where
  view := by simp [Cell.seen, Range.addView_eq, Ascent.stage]
  reported := by simp [Cell.seen, Range.addView_eq, Ascent.stage, h.reported, ha]
  done := by simp [Cell.seen, Range.addView_eq, Ascent.stage, h.done, ha]
  shapes := by
    have hnone : c.range.spaces = [] := by simpa [ha, Ascent.stage] using h.shapes
    simp [Cell.seen, Range.addView_eq, Ascent.stage, hnone, Function.comp_def]
  above := by
    intro other ho
    simp only [Cell.seen, Range.addView_eq, Std.ExtTreeSet.mem_union_iff] at ho ⊢
    rcases ho with ho | ho
    · exact h.above other ho
    · exact .inl (valid.spans.separator_above name other ho)
  own := by
    intro _ other ho
    simp only [Cell.seen, Range.addView_eq, Std.ExtTreeSet.mem_union_iff]
    exact .inr ho
  named := h.named
  parent := h.parent
  children := h.children
  registered _ := h.registered (by simp [ha, Ascent.stage])
  sampling := by simp [Cell.seen, Ascent.stage]
  slots := by simp [Cell.seen, Ascent.stage]
  exchanging := h.exchanging.of_stage rfl rfl (by simp [Cell.seen, ha, Ascent.stage])

theorem Sound.of_stage {name : String} {c : Cell K} (h : c.Sound setup name) {ascent : Ascent K}
    (hs : ascent.stage = c.ascent.stage) :
    Cell.Sound setup name { c with ascent := ascent } where
  view := by rw [h.view, hs]
  reported := by rw [h.reported, hs]
  done := by rw [h.done, hs]
  shapes := by rw [h.shapes, hs]
  above := h.above
  own hn := h.own (hs ▸ hn)
  named := h.named
  parent := h.parent
  children := h.children
  registered hn := h.registered (hs ▸ hn)
  sampling hn := h.sampling (hs ▸ hn)
  slots hn := h.slots (hs ▸ hn)
  exchanging := h.exchanging.of_stage rfl rfl (by rw [hs])

theorem Sound.told {parent name : String} {c d : Cell K} (h : d.Sound setup parent)
    (hp : setup.parent name = some parent) (hd : d.range.reported = false)
    (hc : c.Sound setup name) (ha : c.ascent = .reporting) :
    (d.told (Normalizer.reportTo parent c.range)).Sound setup parent where
  view := h.view
  reported := h.reported
  done := h.done
  shapes := h.shapes
  above := by
    intro other ho
    simp only [Cell.told, Range.addReport, Normalizer.reportTo,
      Std.ExtTreeSet.mem_union_iff] at ho ⊢
    rcases ho with ho | ho
    · exact h.above other ho
    · have hr : c.range.reported = true := by simp [hc.reported, ha, Ascent.stage]
      rcases hc.above other ho with hab | ⟨_, hf⟩
      · exact (Setup.above_parent hp hab).symm.imp_right fun he => ⟨he, hd⟩
      · simp [hr] at hf
  own hn other ho := by
    simp only [Cell.told, Range.addReport, Std.ExtTreeSet.mem_union_iff]
    exact .inl (h.own hn other ho)
  named := h.named
  parent := h.parent
  children := h.children
  registered := h.registered
  sampling := h.sampling
  slots hn := by
    have hr := h.reported
    simp [hd, show d.ascent.stage = .normalized from hn] at hr
  exchanging := h.exchanging.of_stage rfl rfl Iff.rfl

theorem Sound.closed (valid : setup.Valid) {name : String} {c : Cell K} (h : c.Sound setup name)
    (ha : c.ascent = .gathering) : (c.closed setup name).Sound setup name := by
  have hs : (c.closed setup name).ascent.stage = .closed := by
    simp only [Cell.closed]
    split <;> rfl
  have hg : c.ascent.stage = .gathering := by rw [ha]; rfl
  refine ⟨?_, ?_, ?_, ?_, ?_, ?_, h.named, h.parent, h.children, fun _ => ?_, ?_, ?_, ?_⟩
  · rw [hs]; exact h.view.trans (by simp [hg])
  · rw [hs]; rfl
  · rw [hs]; exact h.done.trans (by simp [hg])
  · rw [hs]; exact h.shapes.trans (by simp [hg])
  · intro other ho
    simp only [Cell.closed, Range.close, Std.ExtTreeSet.mem_erase] at ho ⊢
    rcases h.above other ho.2 with hab | ⟨rfl, _⟩
    · exact .inl hab
    · simp at ho
  · intro _ other ho
    have hne : name ≠ other := by
      rintro rfl
      exact valid.spans.above_irrefl name (valid.spans.separator_above name name ho)
    simp only [Cell.closed, Range.close, Std.ExtTreeSet.mem_erase]
    exact ⟨by simpa using hne, h.own (by simp [hg]) other ho⟩
  · exact h.registered (by simp [hg])
  · simp [hs]
  · simp [hs]
  · exact h.exchanging.of_stage rfl rfl (by simp [hs, hg])

/-- Before normalization a variable at most keeps a context. -/
theorem Sound.exchange_early {name : String} {c : Cell K} (h : c.Sound setup name)
    (hs : c.ascent.stage ≠ .normalized) :
    c.exchange = .idle ∨ ∃ context, c.exchange = .asked context ∨ c.exchange = .kept context := by
  cases hx : c.exchange with
  | idle => exact .inl rfl
  | asked context => exact .inr ⟨context, .inl rfl⟩
  | kept context => exact .inr ⟨context, .inr rfl⟩
  | poised final => exact absurd (h.of_poised hx).1.stage hs
  | busy final => exact absurd (h.of_busy hx).stage hs
  | answered cost => exact absurd (h.of_answered hx).1.stage hs
  | ended => exact absurd (h.of_ended hx).1 hs

theorem Sound.waiting_of_early {name : String} {c : Cell K} (h : c.Sound setup name)
    (hs : c.ascent.stage ≠ .normalized) :
    c.exchange.stance = .waiting ∧ ∀ cost, c.exchange ≠ .answered cost := by
  rcases h.exchange_early hs with hx | ⟨context, hx | hx⟩ <;> simp [hx, Exchange.stance]

theorem Sound.not_ended_of_early {name : String} {c : Cell K} (h : c.Sound setup name)
    (hs : c.ascent.stage ≠ .normalized) : c.exchange.stance ≠ .ended := by
  simp [(h.waiting_of_early hs).1]

/-- Nobody asks a root. -/
theorem Sound.idle_of_root {name : String} {c : Cell K} (h : c.Sound setup name)
    (hs : c.ascent.stage ≠ .normalized) (hp : setup.parent name = none) : c.exchange = .idle := by
  rcases h.exchange_early hs with hx | ⟨context, hx | hx⟩
  · exact hx
  · exact absurd hp (h.of_asked hx).2
  · exact absurd hp (h.of_kept hx).2.1

end Cell

namespace World

theorem inv_initial (setup : Setup K) : (World.initial setup).Inv setup where
  sound name _ := Cell.sound_initial setup name
  linked parent name _ := by
    refine ⟨.inl rfl, trivial, ?_, ?_⟩
    · simp [World.initial, Cell.initial, Ascent.isHeard]
    · simp [World.initial, Cell.initial, Exchange.context?]
  counts name _ := by
    refine ⟨fun _ => ?_, ?_⟩
    · have hnone : ∀ child, (World.initial setup child).ascent.isReported = false := fun _ => rfl
      simp only [hnone, List.countP_false]
      rfl
    · simp [World.initial, Cell.initial, Exchange.stance]

theorem Inv.see (valid : setup.Valid) (h : w.Inv setup) {name : String}
    (hn : name ∈ setup.problem.names) (ha : (w name).ascent = .unseen) :
    (w.update name ((w name).seen setup name)).Inv setup := by
  have hsound := h.sound name hn
  refine h.update valid (hsound.seen valid ha) (fun parent hp => ⟨?_, ?_, rfl⟩) (fun child hc => ?_) ?_
  · have hl := h.linked parent name hp
    refine ⟨?_, hl.exchange, by simp [Cell.seen, Ascent.isHeard], hl.context⟩
    have hadmit := hl.ascent
    rw [ha] at hadmit
    revert hadmit
    cases (w parent).ascent.stage <;> simp [Stage.Admits, Cell.seen]
  · simp [Cell.seen, ha, Ascent.isReported]
  · have hl := h.linked name child (valid.mem_children.mp hc)
    refine ⟨?_, hl.exchange, fun hh other ho => ?_, hl.context⟩
    · simpa [ha, Ascent.stage, Stage.Admits, Cell.seen] using hl.ascent
    · refine (hl.covers hh other ho).imp_left fun hm => ?_
      simp only [Cell.seen, Range.addView_eq, Std.ExtTreeSet.mem_union_iff]
      exact .inl hm
  · have hc := h.counts name hn
    refine ⟨fun hr => ?_, hc.busy⟩
    have hr : (w name).range.reported = false := by simpa [Cell.seen, Range.addView_eq] using hr
    simp only [Cell.seen, Range.addView_eq, hc.gathering hr, ha, Ascent.stage]
    simp
    omega

/-- A variable whose child is reporting has not reported itself. -/
theorem Inv.gathering_of_reporting (h : w.Inv setup) {parent name : String}
    (hp : setup.parent name = some parent) (ha : (w name).ascent = .reporting) :
    (w parent).ascent = .unseen ∨ (w parent).ascent = .gathering := by
  have hadmit := (h.linked parent name hp).ascent
  rw [ha] at hadmit
  revert hadmit
  cases (w parent).ascent <;> simp [Ascent.stage, Stage.Admits]

theorem Inv.unreported_of_reporting (valid : setup.Valid) (h : w.Inv setup) {parent name : String}
    (hp : setup.parent name = some parent) (ha : (w name).ascent = .reporting) :
    (w parent).range.reported = false := by
  rw [(h.sound parent (valid.mem_names hp).1).reported]
  rcases h.gathering_of_reporting hp ha with hg | hg <;> simp [hg, Ascent.stage]

theorem Inv.early_of_reporting (h : w.Inv setup) {parent name : String}
    (hp : setup.parent name = some parent) (ha : (w name).ascent = .reporting) :
    (w parent).ascent.stage ≠ .normalized := by
  rcases h.gathering_of_reporting hp ha with hg | hg <;> simp [hg, Ascent.stage]

omit [CostArithmetic K] in
theorem alike_tell {name : String} (ha : (w name).ascent = .reporting) :
    ∀ child ∈ [name], Cell.Alike (w child) { w child with ascent := .reported } := by
  intro child hc
  obtain rfl := List.mem_singleton.mp hc
  exact .reported ha

theorem near_tell {parent name : String} (ha : (w name).ascent = .reporting) :
    Near parent w (w.tell parent name) := near_rewrite (alike_tell ha)

/-- A variable that is not normalized and some of its children get new cells, in which nothing of the
exchange is another than before. -/
structure Prepares (setup : Setup K) (w : World K) (name : String) (cell : Cell K)
    (children : List String) (change : String → Cell K → Cell K) : Prop where
  mem_names : name ∈ setup.problem.names
  before : (w name).ascent.stage ≠ .normalized
  after : cell.ascent.stage ≠ .normalized
  state : cell.state = (w name).state
  exchange : cell.exchange = (w name).exchange
  below : ∀ child ∈ children, child ∈ setup.children name
  alike : ∀ child ∈ children, Cell.Alike (w child) (change child (w child))
  answers : ∀ child ∈ children, (change child (w child)).exchange = (w child).exchange

theorem prepares_see {name : String} (hn : name ∈ setup.problem.names)
    (ha : (w name).ascent = .unseen) :
    w.Prepares setup name ((w name).seen setup name) [] fun _ cell => cell where
  mem_names := hn
  before := by simp [ha, Ascent.stage]
  after := by simp [Cell.seen, Ascent.stage]
  state := rfl
  exchange := rfl
  below := by simp
  alike := by simp
  answers := by simp

theorem Inv.prepares_tell (valid : setup.Valid) (h : w.Inv setup) {parent name : String}
    (hp : setup.parent name = some parent) (ha : (w name).ascent = .reporting) :
    w.Prepares setup parent ((w parent).told (Normalizer.reportTo parent (w name).range)) [name]
      fun _ cell => { cell with ascent := .reported } where
  mem_names := (valid.mem_names hp).1
  before := h.early_of_reporting hp ha
  after := h.early_of_reporting hp ha
  state := rfl
  exchange := rfl
  below := by simpa using valid.mem_children.mpr hp
  alike := alike_tell ha
  answers _ _ := rfl

theorem prepares_close {name : String} (hn : name ∈ setup.problem.names)
    (ha : (w name).ascent = .gathering) :
    w.Prepares setup name ((w name).closed setup name) [] fun _ cell => cell where
  mem_names := hn
  before := by simp [ha, Ascent.stage]
  after := by
    unfold Cell.closed
    simp only
    split <;> simp [Ascent.stage]
  state := rfl
  exchange := rfl
  below := by simp
  alike := by simp
  answers := by simp

theorem Inv.tell (valid : setup.Valid) (h : w.Inv setup) {parent name : String}
    (hp : setup.parent name = some parent) (ha : (w name).ascent = .reporting) :
    (w.tell parent name).Inv setup := by
  obtain ⟨hpn, hn⟩ := valid.mem_names hp
  have hlinked := h.linked parent name hp
  have hgathering := h.gathering_of_reporting hp ha
  have hreported := h.unreported_of_reporting valid hp ha
  have hne : name ≠ parent := fun he =>
    valid.not_mem_children_self parent (valid.mem_children.mpr (he ▸ hp))
  have hchild := valid.mem_children.mpr hp
  refine h.rewrite valid (by simpa using hchild) (alike_tell ha)
    ((h.sound parent hpn).told hp hreported (h.sound name hn) ha) (fun child hc => ?_)
    (fun q hq => ⟨?_, rfl, rfl⟩) (fun child hc => ?_) ?_
  · obtain rfl := List.mem_singleton.mp hc
    exact (h.sound child hn).of_stage (by simp [ha, Ascent.stage])
  · have hl := h.linked q parent hq
    refine ⟨hl.ascent, hl.exchange, fun hh => ?_, hl.context⟩
    have hh : (w parent).ascent.isHeard = true := hh
    rcases hgathering with hs | hs <;> simp [hs, Ascent.isHeard] at hh
  · by_cases hcn : child = name
    · subst hcn
      rw [rewrite_child (by simp) hne]
      refine ⟨?_, hlinked.exchange, fun _ other ho => .inl ?_, hlinked.context⟩
      · rcases hgathering with hs | hs <;> simp [Cell.told, hs, Ascent.stage, Stage.Admits]
      · simp only [Cell.told, Range.addReport, Std.ExtTreeSet.mem_union_iff]
        exact .inr ho
    · have hcp : child ≠ parent := fun he => valid.not_mem_children_self parent (he ▸ hc)
      rw [rewrite_other hcp (by simpa using hcn)]
      have hl := h.linked parent child (valid.mem_children.mp hc)
      refine ⟨hl.ascent, hl.exchange, fun hh other ho => (hl.covers hh other ho).imp_left ?_,
        hl.context⟩
      intro hm
      simp only [Cell.told, Range.addReport, Std.ExtTreeSet.mem_union_iff]
      exact .inl hm
  · have hcounts := h.counts parent hpn
    have hother : ∀ child ∈ setup.children parent, child ≠ name →
        w.tell parent name child = w child := fun child hc hcn =>
      rewrite_other (fun he => valid.not_mem_children_self parent (he ▸ hc)) (by simpa using hcn)
    have hself : w.tell parent name name = { w name with ascent := .reported } :=
      rewrite_child (by simp) hne
    -- one report more is received, and one child more has reported
    refine ⟨fun _ => ?_, fun hb => (hcounts.busy hb).trans ?_⟩
    · have hflip := countP_eq_succ (p := fun child => (w child).ascent.isReported)
        (q := fun child => (w.tell parent name child).ascent.isReported)
        (valid.nodup_children parent) hchild (by simp [ha, Ascent.isReported])
        (by simp [hself, Ascent.isReported]) fun child hc hcn => by simp [hother child hc hcn]
      have hold := hcounts.gathering hreported
      calc (w parent).range.received + 1
          = (if (w parent).ascent.stage = .unseen then 0 else 1)
              + ((setup.children parent).countP (fun child => (w child).ascent.isReported) + 1) := by
            rw [hold, Nat.add_assoc]
        _ = _ := by rw [← hflip]; rfl
    · refine List.countP_congr fun child hc => ?_
      by_cases hcn : child = name
      · subst hcn; rw [show w.rewrite _ _ _ _ child = _ from hself]
      · rw [show w.rewrite _ _ _ _ child = _ from hother child hc hcn]

/-- A complete range is closed.  All children have reported by then. -/
theorem Inv.close (valid : setup.Valid) (h : w.Inv setup) {name : String}
    (hn : name ∈ setup.problem.names) (ha : (w name).ascent = .gathering)
    (hcomplete : (w name).range.isComplete (setup.view name) = true) :
    (w.update name ((w name).closed setup name)).Inv setup := by
  have hsound := h.sound name hn
  obtain ⟨hreported, hlen⟩ := Range.isComplete_iff.mp hcomplete
  have hcounts := h.counts name hn
  have hall : ∀ child ∈ setup.children name, (w child).ascent.isReported = true := by
    have hc := hcounts.gathering hreported
    simp only [ha, Ascent.stage] at hc
    refine List.countP_eq_length.mp (Nat.le_antisymm List.countP_le_length ?_)
    have : (setup.children name).length + 1 ≤ (w name).range.received := hlen
    simp at hc
    omega
  refine h.update valid (hsound.closed valid ha) (fun parent hp => ⟨?_, ?_, rfl⟩)
    (fun child hc => ?_) ⟨?_, hcounts.busy⟩
  · have hl := h.linked parent name hp
    have hr : ((w name).closed setup name).ascent = .reporting := by simp [Cell.closed, hp]
    refine ⟨?_, hl.exchange, by simp [hr, Ascent.isHeard], hl.context⟩
    have hadmit := hl.ascent
    rw [ha] at hadmit
    rw [hr]
    revert hadmit
    cases (w parent).ascent.stage <;> simp [Stage.Admits]
  · simp only [Cell.closed, hp, ha]
    rfl
  · have hl := h.linked name child (valid.mem_children.mp hc)
    have hr : (w child).ascent = .reported := by
      have := hall child hc
      cases hx : (w child).ascent <;> simp [hx, Ascent.isReported] at this ⊢
    have hs : ((w name).closed setup name).ascent.stage = .closed := by
      simp only [Cell.closed]
      split <;> rfl
    refine ⟨by rw [hs, hr]; rfl, hl.exchange, fun hh other ho => ?_, hl.context⟩
    rcases hl.covers hh other ho with hm | hm
    · by_cases he : name = other
      · exact .inr (he ▸ valid.mem_children.mp hc)
      · refine .inl ?_
        simp only [Cell.closed, Range.close, Std.ExtTreeSet.mem_erase]
        exact ⟨by simpa using he, hm⟩
    · exact .inr hm
  · simp [Cell.closed, Range.close]

end World

theorem CostSpace.shape_rescale (space : CostSpace K) (shift divisor : K) (substitute : Option K) :
    (space.rescale shift divisor substitute).shape = space.shape := by
  simp [CostSpace.shape, CostSpace.rescale]

namespace Cell

/-- The spaces that a variable takes along have the shapes of those that it enforces. -/
theorem Sound.exists_enforced {name : String} {c : Cell K} (h : c.Sound setup name)
    (hs : c.ascent.stage ≠ .unseen) (divisor : K) {space : CostSpace K}
    (hm : space ∈ ((c.range.rescale setup.substitute divisor).normalized name divisor).spaces) :
    ∃ original ∈ setup.enforced name, space.shape = original.shape := by
  simp only [Range.normalized, Range.rescale, List.map_map, List.mem_map] at hm
  obtain ⟨entry, he, rfl⟩ := hm
  have hshape : entry.1.shape ∈ c.range.spaces.map fun entry => entry.1.shape :=
    List.mem_map.mpr ⟨entry, he, rfl⟩
  rw [h.shapes, if_neg hs, List.mem_map] at hshape
  obtain ⟨original, ho, hshape⟩ := hshape
  exact ⟨original, ho, by rw [Function.comp_apply, CostSpace.shape_rescale, hshape]⟩

theorem Sound.prepare (valid : setup.Valid) {name : String} {c : Cell K}
    (hn : name ∈ setup.problem.names) (h : c.Sound setup name) {divisor : K}
    (ha : c.ascent = .dividing divisor) (phase : Phase) :
    SamplingState.Sound setup.problem
      { c.state.prepare (setup.settings name)
          ((c.range.rescale setup.substitute divisor).normalized name divisor) with
        phase := phase } := by
  have hstate := h.registered (by simp [ha, Ascent.stage])
  have habove : ∀ other ∈ c.range.separator, setup.tree.Above other name := by
    intro other ho
    rcases h.above other ho with hab | ⟨_, hr⟩
    · exact hab
    · simp [h.reported, ha, Ascent.stage] at hr
  have hfresh : name ∉ c.range.separator.toList := fun hm =>
    valid.spans.above_irrefl name (habove name (Std.ExtTreeSet.mem_toList.mp hm))
  have hslots : (c.range.separator.toList.map fun other => ({ name := other, value := none } :
      Slot)).map Slot.name = c.range.separator.toList := by
    simp [Function.comp_def]
  rw [hstate]
  refine ⟨Setup.domain?_eq hn, by simp [SamplingState.prepare, Setup.registered,
    SamplingState.ofView], ?_, ?_, fun space hs => ?_, fun space hs other ho => ?_, ?_, ?_, ?_,
    fun parent hp => (valid.mem_names hp).1, fun child hc => valid.mem_names_of_child hc⟩
  · show (_ ++ [name]).Nodup
    refine List.Nodup.append ?_ (List.nodup_singleton name) ?_
    · show (List.map Slot.name (List.map _ c.range.separator.toList)).Nodup
      rw [hslots]
      exact Std.ExtTreeSet.distinct_toList.imp Std.ReflCmp.ne_of_cmp_ne_eq
    · show (List.map Slot.name (List.map _ c.range.separator.toList)).Disjoint [name]
      rw [hslots]
      simpa using hfresh
  · intro slot hs value hv
    obtain ⟨other, _, rfl⟩ := List.mem_map.mp hs
    cases hv
  · obtain ⟨original, ho, hshape⟩ := h.exists_enforced (by simp [ha, Ascent.stage]) divisor hs
    exact (valid.wellFormed.fits original (List.mem_filter.mp ho).1).of_shape hshape
  · obtain ⟨original, hm, hshape⟩ := h.exists_enforced (by simp [ha, Ascent.stage]) divisor hs
    have hscope : other ∈ original.scope := by
      rw [CostSpace.scope, ← (Prod.mk.inj hshape).1]
      exact ho
    show other ∈ List.map Slot.name (List.map _ c.range.separator.toList) ++ [name]
    rw [hslots, List.mem_append, List.mem_singleton, Std.ExtTreeSet.mem_toList]
    rcases valid.spans.scope name original hm other hscope with he | hsep
    · exact .inr he
    · exact .inl (h.own (by simp [ha, Ascent.stage]) other hsep)
  · simp [SamplingState.prepare, Setup.registered, SamplingState.ofView]
  · simp [SamplingState.prepare, Setup.registered, SamplingState.ofView]
  · simp [SamplingState.prepare, Setup.registered, SamplingState.ofView]

/-- A root that is normalized can begin, any other variable waits for a context. -/
theorem Sound.exchanging_normalized {name : String} {c : Cell K} (h : c.Sound setup name)
    (hs : c.ascent.stage ≠ .normalized) (hreported : c.range.reported = true) (divisor : K) :
    (c.normalized setup name divisor).Exchanging setup name := by
  unfold Cell.normalized
  rw [h.registered hs]
  cases hp : setup.parent name with
  | none =>
    have hempty : c.range.separator.toList = [] := by
      refine List.eq_nil_iff_forall_not_mem.mpr fun other ho => ?_
      rcases h.above other (Std.ExtTreeSet.mem_toList.mp ho) with hab | ⟨_, hr⟩
      · exact Setup.not_above_root hp hab
      · simp [hreported] at hr
    simp only [Option.isSome_none, Bool.false_eq_true, if_false]
    refine ⟨⟨rfl, fun slot hm => ?_, rfl, fun _ => rfl⟩, rfl, rfl⟩
    simp [SamplingState.prepare, Range.normalized, Range.rescale, hempty] at hm
  | some parent =>
    simp only [Option.isSome_some, if_true]
    have hq : ∀ exchange, Cell.Quiet setup name
        { range := c.range.rescale setup.substitute divisor
          state := { (SamplingState.prepare (setup.settings name)
              ((c.range.rescale setup.substitute divisor).normalized name divisor)
              { setup.registered name with
                phase := .awaitingNormalization c.exchange.buffered }) with
            phase := .awaitingParentValue }
          ascent := .normalized
          exchange := exchange } := fun _ => ⟨rfl, rfl⟩
    rcases h.exchange_early hs with he | ⟨context, he | he⟩
    · rw [he] at hq ⊢
      exact ⟨⟨hq _, fun _ => .inl rfl⟩, fun _ => by simp [hp]⟩
    · rw [he] at hq ⊢
      exact ⟨⟨hq _, fun _ => .inl rfl⟩, by simp [hp]⟩
    · rw [he] at hq ⊢
      exact ⟨⟨hq _, fun _ => .inl rfl⟩, by simp [hp]⟩

theorem Sound.normalized (valid : setup.Valid) {name : String} {c : Cell K}
    (hn : name ∈ setup.problem.names) (h : c.Sound setup name) {divisor : K}
    (ha : c.ascent = .dividing divisor) : (c.normalized setup name divisor).Sound setup name := by
  have hclosed : c.ascent.stage = .closed := by rw [ha]; rfl
  have hstage : (c.normalized setup name divisor).ascent.stage = .normalized := by
    rw [normalized_ascent]
    rfl
  have hrange : (c.normalized setup name divisor).range
      = c.range.rescale setup.substitute divisor := normalized_range
  obtain ⟨phase, hphase⟩ := exists_normalized_state setup name divisor c
  refine ⟨?_, ?_, ?_, ?_, ?_, ?_, ?_, ?_, ?_, ?_, ?_, ?_, ?_⟩
  · rw [hrange, hstage]; exact h.view.trans (by simp [hclosed])
  · rw [hrange, hstage]; exact h.reported.trans (by simp [hclosed])
  · rw [hrange, hstage]; rfl
  · rw [hrange, hstage]
    refine Eq.trans ?_ (h.shapes.trans (by simp [hclosed]))
    simp [Range.rescale, Function.comp_def, CostSpace.shape_rescale]
  · rw [hrange]; exact h.above
  · rw [hrange]; exact fun _ => h.own (by simp [hclosed])
  · rw [hphase]; exact h.named
  · rw [hphase]; exact h.parent
  · rw [hphase]; exact h.children
  · simp [hstage]
  · intro _; rw [hphase]; exact h.prepare valid hn ha phase
  · intro _
    rw [hphase, hrange]
    simp [SamplingState.prepare, Range.normalized, Function.comp_def, Range.rescale]
  · exact h.exchanging_normalized (by simp [hclosed]) (by simp [h.reported, hclosed]) divisor

/-- A variable that is normalized has met no context yet. -/
theorem Sound.unmet_normalized {name : String} {c : Cell K} (h : c.Sound setup name)
    (hs : c.ascent.stage ≠ .normalized) (divisor : K) :
    (c.normalized setup name divisor).state.nodes = [] ∧
    (c.normalized setup name divisor).state.index = ∅ ∧
    (c.normalized setup name divisor).state.current = none := by
  obtain ⟨phase, hphase⟩ := exists_normalized_state setup name divisor c
  rw [hphase, h.registered hs]
  exact ⟨rfl, rfl, rfl⟩

/-- Being normalized leaves a variable waiting, and one that is not a root with its context. -/
theorem Sound.exchange_normalized {name : String} {c : Cell K} (h : c.Sound setup name)
    (hs : c.ascent.stage ≠ .normalized) (divisor : K) :
    (c.normalized setup name divisor).exchange.stance = .waiting ∧
    (∀ cost, (c.normalized setup name divisor).exchange ≠ .answered cost) ∧
    (setup.parent name ≠ none →
      (c.normalized setup name divisor).exchange.isIdle = c.exchange.isIdle ∧
      ((c.normalized setup name divisor).exchange.context? = none →
        c.exchange.context? = none)) := by
  cases hp : setup.parent name with
  | none => simp [normalized_root hp, Exchange.stance]
  | some parent =>
    rw [normalized_child hp]
    rcases h.exchange_early hs with hx | ⟨context, hx | hx⟩ <;>
      simp [hx, Exchange.buffered, Exchange.stance, Exchange.context?, Exchange.isIdle]

/-- Towards its parent a variable that is normalized shows no less than before. -/
theorem Linked.normalized {name : String} {p c : Cell K} {parent : String}
    (hl : Linked setup p name c) (h : c.Sound setup name) (hp : setup.parent name = some parent)
    {divisor : K} (ha : c.ascent = .dividing divisor) :
    Linked setup p name (c.normalized setup name divisor) := by
  have hx : (c.normalized setup name divisor).exchange
      = c.exchange.buffered.elim c.exchange .asked := normalized_child hp
  have hearly := h.exchange_early (by simp [ha, Ascent.stage])
  refine ⟨?_, ?_, fun _ => ?_, ?_⟩
  · have hadmit := hl.ascent
    rw [ha] at hadmit
    rw [normalized_ascent]
    revert hadmit
    cases p.ascent.stage <;> simp [Stage.Admits]
  · have hadmit := hl.exchange
    rw [hx]
    revert hadmit
    rcases hearly with he | ⟨context, he | he⟩ <;>
      cases p.exchange.stance <;> simp [he, Exchange.buffered, Stance.Admits]
  · rw [normalized_range]
    exact hl.covers (by simp [ha, Ascent.isHeard])
  · rw [hx]
    intro context hcontext
    refine hl.context context ?_
    rcases hearly with he | ⟨other, he | he⟩
    · simp [he, Exchange.buffered, Exchange.context?] at hcontext
    · simpa [he, Exchange.buffered, Exchange.context?] using hcontext
    · simpa [he, Exchange.buffered, Exchange.context?] using hcontext

end Cell

namespace World

/-- Until it is normalized a variable asks nothing of its children. -/
theorem Inv.child_idle_of_early (valid : setup.Valid) (h : w.Inv setup) {name child : String}
    (hn : name ∈ setup.problem.names) (hs : (w name).ascent.stage ≠ .normalized)
    (hc : child ∈ setup.children name) : (w child).exchange = .idle := by
  exact h.child_idle valid ((h.sound name hn).waiting_of_early hs).1 hc

/-- Nothing is asked of a variable that has not got its view. -/
theorem Inv.idle_of_unseen (valid : setup.Valid) (h : w.Inv setup) {name : String}
    (hn : name ∈ setup.problem.names) (ha : (w name).ascent = .unseen) :
    (w name).exchange = .idle := by
  cases hp : setup.parent name with
  | none => exact (h.sound name hn).idle_of_root (by simp [ha, Ascent.stage]) hp
  | some parent =>
    refine h.child_idle_of_early valid (valid.mem_names hp).1 ?_ (valid.mem_children.mpr hp)
    intro hs
    have hl := (h.linked parent name hp).ascent
    simp [hs, ha, Stage.Admits] at hl

/-- The children of a variable that has reported have reported, too. -/
theorem Inv.child_reported (valid : setup.Valid) (h : w.Inv setup) {name child : String}
    (hs : (w name).ascent.stage = .closed) (hc : child ∈ setup.children name) :
    (w child).ascent = .reported := by
  have hl := (h.linked name child (valid.mem_children.mp hc)).ascent
  rw [hs] at hl
  exact hl

theorem Inv.near_normalize (valid : setup.Valid) (h : w.Inv setup) {name : String} {divisor : K}
    (ha : (w name).ascent = .dividing divisor) : Near name w (w.normalize setup name divisor) :=
  near_rewrite fun _ hc => .dividing (h.child_reported valid (by rw [ha]; rfl) hc) divisor

theorem Inv.normalize (valid : setup.Valid) (h : w.Inv setup) {name : String} {divisor : K}
    (hn : name ∈ setup.problem.names) (ha : (w name).ascent = .dividing divisor) :
    (w.normalize setup name divisor).Inv setup := by
  have hsound := h.sound name hn
  have hclosed : (w name).ascent.stage = .closed := by rw [ha]; rfl
  obtain ⟨hwaiting, -, hparent⟩ := hsound.exchange_normalized (by simp [hclosed]) divisor
  have hreported : ∀ child ∈ setup.children name, (w child).ascent = .reported :=
    fun _ hc => h.child_reported valid hclosed hc
  have hstage : ((w name).normalized setup name divisor).ascent = .normalized :=
    Cell.normalized_ascent
  have hrange : ((w name).normalized setup name divisor).range
      = (w name).range.rescale setup.substitute divisor := Cell.normalized_range
  refine h.rewrite valid (fun child hc => hc)
    (fun child hc => .dividing (hreported child hc) divisor) (hsound.normalized valid hn ha)
    (fun child hc => ?_) (fun parent hp => ?_) (fun child hc => ?_) ⟨?_, ?_⟩
  · exact (h.sound child (valid.mem_names_of_child hc)).of_stage
      (by simp [hreported child hc, Ascent.stage])
  · refine ⟨(h.linked parent name hp).normalized hsound hp ha, by simp [hstage, ha, Ascent.isReported],
      ?_⟩
    exact (hparent (by simp [hp])).1
  · have hne : child ≠ name := fun he => valid.not_mem_children_self name (he ▸ hc)
    have hl := h.linked name child (valid.mem_children.mp hc)
    have hidle := h.child_idle_of_early valid hn (by simp [hclosed]) hc
    rw [rewrite_child hc hne]
    refine ⟨?_, ?_, fun _ => ?_, ?_⟩
    · rw [hstage]; exact .inl ⟨divisor, rfl⟩
    · rw [hwaiting, hidle]
      trivial
    · rw [hrange]
      exact hl.covers (by simp [hreported child hc, Ascent.isHeard])
    · simp [hidle, Exchange.context?]
  · rw [hrange]
    simp [Range.rescale, hsound.reported, hclosed]
  · intro hb
    rw [hwaiting] at hb
    cases hb

end World

end DcopSearch
