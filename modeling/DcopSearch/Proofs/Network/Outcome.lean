import DcopSearch.Proofs.Network.Normalizers
import DcopSearch.Proofs.Protocol.Divisor

/-! The outcome of normalization.  In whatever order the messages are handled, every variable is
completed once, with the divisor of its component and the ancestors that matter to its subtree, and
reports to its parent once, what its subtree adds up to. -/

namespace DcopSearch

open CostArithmetic Exact World

variable {F : Type} [Field F] [LinearOrder F] [LnSqrt F]

theorem coe_flatMap {α β : Type} (xs : List α) (f : α → List β) :
    (xs.map fun x => (f x : Multiset β)).sum = ↑(xs.flatMap f) := by
  induction xs with
  | nil => rfl
  | cons x rest ih => rw [List.map_cons, List.sum_cons, ih, List.flatMap_cons, Multiset.coe_add]

namespace Setup

variable (setup : Setup (Exact F)) (low high : CostSpace (Exact F) → F) (name : String)

/-- What a variable reports to its parent. -/
noncomputable def report (parent : String) : RangeReport (Exact F) where
  receiver := parent
  lower := number (setup.sumOver (setup.subtree name) low)
  upper := number (setup.sumOver (setup.subtree name) high)
  spaceCount := ∑ below ∈ setup.subtree name, (setup.enforced below).length
  size := setup.size name
  separator := .ofList (setup.separator name)

/-- The reports of all variables, a root has none. -/
noncomputable def reports : List (String × RangeReport (Exact F)) :=
  setup.problem.names.flatMap fun name =>
    (setup.parent name).toList.map fun parent => (name, setup.report low high name parent)

/-- What a variable takes along into sampling. -/
noncomputable def output : Normalized (Exact F) where
  name := name
  scalingFactor := number (setup.divisor low high name)
  spaces := setup.normalizedSpaces (number (setup.divisor low high name)) name
  separator := setup.separator name
  size := setup.size name

omit [LinearOrder F] [LnSqrt F] in
theorem coe_reports : (↑(setup.reports low high) : Multiset (String × RangeReport (Exact F)))
    = ∑ name ∈ setup.problem.names.toFinset,
        ↑((setup.parent name).toList.map fun parent => (name, setup.report low high name parent)) := by
  rw [List.sum_toFinset _ setup.problem.nodup_names, coe_flatMap]
  rfl

theorem coe_outputs :
    (↑(setup.problem.names.map (setup.output low high)) : Multiset (Normalized (Exact F)))
      = ∑ name ∈ setup.problem.names.toFinset, {setup.output low high name} := by
  rw [List.sum_toFinset _ setup.problem.nodup_names, List.map_eq_flatMap, ← coe_flatMap]
  rfl

/-- How many messages normalization takes: a view for each variable, and for one with a parent the
report to it and the divisor from it. -/
def workload : Nat :=
  (setup.problem.names.map fun name => if (setup.parent name).isNone then 1 else 3).sum

end Setup

namespace Normalizing

variable {setup : Setup (Exact F)} {w : World (Exact F)} {first net next : Normalizing (Exact F)}
  {log : List (Handling (Exact F))} {low high : CostSpace (Exact F) → F}

/-- What holds of every run of the normalizers. -/
structure Accords (setup : Setup (Exact F)) (low high : CostSpace (Exact F) → F)
    (log : List (Handling (Exact F))) (net : Normalizing (Exact F)) : Prop where
  succeeds : ∀ handling ∈ log, ∃ step, handling.outcome = .ok step
  continues : ∀ position < net.pool.length, (net.deliverAt setup.problem position).isSome
  bounded : log.length ≤ setup.workload
  reports : (log.flatMap Handling.reports).Subperm (setup.reports low high)
  outputs : (log.flatMap Handling.completed).Subperm
    (setup.problem.names.map (setup.output low high))
  ends : net.pool = [] → log.length = setup.workload ∧
    (log.flatMap Handling.reports).Perm (setup.reports low high) ∧
    (log.flatMap Handling.completed).Perm (setup.problem.names.map (setup.output low high))

end Normalizing

namespace World

variable {setup : Setup (Exact F)} {w : World (Exact F)} {low high : CostSpace (Exact F) → F}
  {name : String}

section Totals

variable (valid : setup.Valid) (traced : setup.Traced) (extents : setup.Extents low high)
  (hinv : w.Inv setup) (hgathered : w.Gathered setup)
include valid traced extents hinv hgathered

theorem Gathered.reportTo_eq (hn : name ∈ setup.problem.names)
    (hr : (w name).range.reported = true) (parent : String) :
    Normalizer.reportTo parent (w name).range = setup.report low high name parent := by
  have hends := (hgathered.of_eq valid hinv (.ends setup valid) hn hr).trans (extents.ends name)
  have hshape := hgathered.of_eq valid hinv (.shape setup valid traced) hn hr
  simp only [Normalizer.reportTo, Setup.report, RangeReport.mk.injEq, true_and]
  exact ⟨congrArg Prod.fst hends, congrArg Prod.snd hends, congrArg Shape.spaceCount hshape,
    congrArg Shape.size hshape, congrArg Shape.separator hshape⟩

theorem Gathered.output_eq [IsStrictOrderedRing F] (hscaled : w.Scaled setup)
    (hn : name ∈ setup.problem.names) (hs : (w name).ascent.stage = .normalized) :
    (w name).range.normalized name (w name).state.scalingFactor = setup.output low high name := by
  have hr : (w name).range.reported = true := by simp [(hinv.sound name hn).reported, hs]
  have hshape := hgathered.of_eq valid hinv (.shape setup valid traced) hn hr
  have hfactor := hgathered.scalingFactor_eq valid traced hinv hscaled extents hn hs
  have hseparator := hgathered.separator_eq valid traced hinv hn hr
  simp only [Range.normalized, Setup.output, hfactor, hseparator, Normalized.mk.injEq, true_and]
  refine ⟨?_, congrArg Shape.size hshape⟩
  rw [← hfactor, ← ((hscaled.cells name hn).normalized hs).2]
  exact ((hgathered.divisors name hn).spaces hs).symm

theorem Gathered.cell_reports (hn : name ∈ setup.problem.names)
    (hr : (w name).ascent.hasReported = true) : (w name).reports setup name
      = ↑((setup.parent name).toList.map fun parent =>
          (name, setup.report low high name parent)) := by
  have hreported : (w name).range.reported = true := by
    rw [(hinv.sound name hn).reported]
    cases ha : (w name).ascent <;> simp [ha, Ascent.hasReported, Ascent.stage] at hr ⊢
  rw [Cell.reports, if_pos hr]
  congr 2
  funext parent
  rw [hgathered.reportTo_eq valid traced extents hinv hn hreported]

theorem Gathered.cell_outputs [IsStrictOrderedRing F] (hscaled : w.Scaled setup)
    (hn : name ∈ setup.problem.names) (hs : (w name).ascent.stage = .normalized) :
    (w name).outputs name = {setup.output low high name} := by
  rw [Cell.outputs, if_pos hs, hgathered.output_eq valid traced extents hinv hscaled hn hs]

theorem Gathered.reports_le :
    w.total setup (Cell.reports setup) ≤ ↑(setup.reports low high) := by
  rw [Setup.coe_reports]
  refine Finset.sum_le_sum fun name hn => ?_
  cases hr : (w name).ascent.hasReported with
  | false => simp [Cell.reports, hr]
  | true => exact (hgathered.cell_reports valid traced extents hinv (List.mem_toFinset.mp hn) hr).le

theorem Gathered.outputs_le [IsStrictOrderedRing F] (hscaled : w.Scaled setup) :
    w.total setup Cell.outputs ≤ ↑(setup.problem.names.map (setup.output low high)) := by
  rw [Setup.coe_outputs]
  refine Finset.sum_le_sum fun name hn => ?_
  by_cases hs : (w name).ascent.stage = .normalized
  · exact (hgathered.cell_outputs valid traced extents hinv hscaled (List.mem_toFinset.mp hn) hs).le
  · simp [Cell.outputs, hs]

/-- In the end all is reported and completed. -/
theorem Gathered.totals_of_normalized [IsStrictOrderedRing F] (hscaled : w.Scaled setup)
    (hall : ∀ name ∈ setup.problem.names, (w name).ascent = .normalized) :
    w.total setup (Cell.reports setup) = ↑(setup.reports low high) ∧
      w.total setup Cell.outputs = ↑(setup.problem.names.map (setup.output low high)) := by
  rw [Setup.coe_reports, Setup.coe_outputs]
  refine ⟨Finset.sum_congr rfl fun name hn => ?_, Finset.sum_congr rfl fun name hn => ?_⟩ <;>
    rw [List.mem_toFinset] at hn
  · exact hgathered.cell_reports valid traced extents hinv hn (by rw [hall name hn]; rfl)
  · exact hgathered.cell_outputs valid traced extents hinv hscaled hn (by rw [hall name hn]; rfl)

end Totals

end World

namespace Normalizing

variable {setup : Setup (Exact F)} {w : World (Exact F)} {first net next : Normalizing (Exact F)}
  {log : List (Handling (Exact F))} {low high : CostSpace (Exact F) → F}

theorem Shows.accords [IsStrictOrderedRing F] (h : net.Shows setup w log) (valid : setup.Valid)
    (traced : setup.Traced) (extents : setup.Extents low high) (hscaled : w.Scaled setup)
    (hgathered : w.Gathered setup) : Accords setup low high log net := by
  obtain ⟨rest, hcount, haccount⟩ := h.account
  have hfields := (account_eq w setup).symm.trans haccount
  have hreports : w.total setup (Cell.reports setup) = ↑(log.flatMap Handling.reports) :=
    congrArg (fun account : Account (Exact F) => account.2.1) hfields
  have houtputs := h.total_outputs
  have hawaited : w.awaited setup = rest :=
    congrArg (fun account : Account (Exact F) => account.2.2.2) hfields
  have hworkload : (World.initial setup).awaited setup = setup.workload :=
    List.sum_toFinset _ setup.problem.nodup_names
  refine ⟨h.succeeds, fun position hlt => ?_, by omega, ?_, ?_, fun hempty => ?_⟩
  · obtain ⟨handling, next, w', hd, -⟩ := h.handles valid hlt
    simp [hd]
  · rw [← Multiset.coe_le, ← hreports]
    exact hgathered.reports_le valid traced extents h.inv
  · rw [← Multiset.coe_le, ← houtputs]
    exact hgathered.outputs_le valid traced extents h.inv hscaled
  · have hnormalized := h.normalized valid hempty
    have hzero : rest = 0 := by
      rw [← hawaited, World.awaited, World.total]
      refine Finset.sum_eq_zero fun name hn => ?_
      simp only [hnormalized name (List.mem_toFinset.mp hn), Ascent.awaited]
    have htotals :=
      hgathered.totals_of_normalized valid traced extents h.inv hscaled hnormalized
    rw [hreports, houtputs] at htotals
    exact ⟨by omega, Multiset.coe_eq_coe.mp htotals.1, Multiset.coe_eq_coe.mp htotals.2⟩

/-- In whatever order the messages are handled, nothing fails, and every variable reports once and is
completed once, with what its subtree and its component add up to. -/
theorem outcome [IsStrictOrderedRing F] {problem : Problem (Exact F)} (built : problem.Built)
    (defined : ∀ space ∈ problem.spaces, space.Defined) (config : Config (Exact F))
    (finite : isFinite (config.penaltyFor problem.objective) = true) :
    ∃ (first : Normalizing (Exact F)) (low high : CostSpace (Exact F) → F),
      start (.generated problem config) = .ok first ∧
      (∀ space ∈ problem.spaces,
        space.Spread (Setup.generated problem config).substitute (low space) (high space)) ∧
      ∀ log net, first.Runs problem log net →
        Accords (.generated problem config) low high log net := by
  have valid := Setup.valid_generated built config
  have traced := Setup.traced_generated built config
  obtain ⟨low, high, extents⟩ :=
    Setup.Defined.exists_extents ⟨defined, Exact.exists_number finite⟩ valid
  obtain ⟨first, hstart, hfirst⟩ := exists_start valid
  refine ⟨first, low, high, hstart, extents.spread, fun log net hruns => ?_⟩
  obtain ⟨w, hshows, hsteps⟩ := hruns.shows valid hfirst
  exact hshows.accords valid traced extents ((scaled_initial _).steps valid (inv_initial _) hsteps)
    ((gathered_initial _).steps valid (inv_initial _) hsteps)

/-- As long as messages are under way there is a next one, so that some run is complete. -/
theorem Accords.exists_end (setup : Setup (Exact F)) (h : ∀ log net,
    first.Runs setup.problem log net → Accords setup low high log net) :
    ∃ log net, first.Runs setup.problem log net ∧ net.pool = [] :=
  Normalizing.exists_end fun log net hruns => ⟨(h log net hruns).continues, (h log net hruns).bounded⟩

/-- The normalizers of the chain handle seven messages: three views, two reports and two divisors. -/
theorem outcome_chain :
    ∃ (first last : Normalizing (Exact ℚ)) (low high : CostSpace (Exact ℚ) → ℚ)
      (log : List (Handling (Exact ℚ))),
      start (.generated .chain .severe) = .ok first ∧ first.Runs .chain log last ∧ last.pool = [] ∧
      log.length = 7 ∧ Accords (.generated .chain .severe) low high log last := by
  have hdefined : ∀ space ∈ Problem.chain.spaces, space.Defined := by
    unfold CostSpace.Defined
    decide +kernel
  obtain ⟨first, low, high, hstart, -, haccords⟩ := outcome Problem.built_chain hdefined .severe
    (by decide +kernel)
  obtain ⟨log, last, hruns, hpool⟩ :=
    Accords.exists_end (.generated .chain .severe) haccords
  have haccord := haccords log last hruns
  refine ⟨first, last, low, high, log, hstart, hruns, hpool, ?_, haccord⟩
  rw [(haccord.ends hpool).1]
  decide +kernel

end Normalizing

end DcopSearch
