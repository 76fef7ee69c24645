import DcopSearch.Proofs.Network.Normalizers
import DcopSearch.Proofs.Protocol.Gathered
import DcopSearch.Proofs.Protocol.Height

/-! The size measures that come out of normalization.  In whatever order the messages are handled, each
variable is completed with the size of its subtree.  It is at most the width and the height of the
subtree together, and less unless a domain of full width is at the bottom. -/

namespace DcopSearch

open World

variable {K : Type}

/-- How the size of a completed variable compares with width and height of its subtree. -/
structure Setup.Sizes (setup : Setup K) (output : Normalized K) : Prop where
  name : output.name ∈ setup.problem.names
  /-- Each domain counts with the levels down to it, its own included if there is one below. -/
  size : output.size = (setup.subtree output.name).sup fun below => (setup.domain below).length
    + (setup.depth output.name below + if setup.children below = [] then 0 else 1)
  le : output.size ≤ setup.width output.name + setup.height output.name
  eq_iff : output.size = setup.width output.name + setup.height output.name
    ↔ ∃ below ∈ setup.subtree output.name, (setup.domain below).length = setup.width output.name ∧
      (setup.depth output.name below = setup.height output.name ∨
        ∃ child ∈ setup.children below, setup.depth output.name child = setup.height output.name)
  leaf : setup.children output.name = [] → output.size = (setup.domain output.name).length
  flat : (∀ child ∈ setup.children output.name, setup.children child = []) →
    output.size = setup.width output.name + setup.height output.name

theorem Setup.Valid.sizes {setup : Setup K} (valid : setup.Valid) {output : Normalized K}
    (hn : output.name ∈ setup.problem.names) (h : output.size = setup.size output.name) :
    setup.Sizes output where
  name := hn
  size := by
    rw [h, Setup.size]
    exact Finset.sup_congr rfl fun below hb => by rw [valid.card_levels hb]
  le := h ▸ valid.size_le output.name
  eq_iff := h ▸ valid.size_eq_iff hn
  leaf hleaf := by
    rw [h, valid.size_eq hn, hleaf]
    simp
  flat hflat := h ▸ valid.size_of_flat hn hflat

namespace Normalizing

variable [CostArithmetic K] {setup : Setup K} {w : World K} {first net : Normalizing K}
  {log : List (Handling K)} {output : Normalized K}

/-- What holds of every run of the normalizers: none of its messages is stuck, it comes to an end, and
then each variable has been completed once, with the size of its subtree. -/
structure Sized (setup : Setup K) (log : List (Handling K)) (net : Normalizing K) : Prop where
  continues : ∀ position < net.pool.length, (net.deliverAt setup.problem position).isSome
  bounded : log.length ≤ setup.problem.names.length * 3
  sizes : ∀ output ∈ log.flatMap Handling.completed, setup.Sizes output
  once : net.pool = [] →
    ((log.flatMap Handling.completed).map Normalized.name).Perm setup.problem.names

theorem Shows.exists_completed (h : net.Shows setup w log)
    (hm : output ∈ log.flatMap Handling.completed) : ∃ name ∈ setup.problem.names,
      (w name).ascent.stage = .normalized ∧
      output = (w name).range.normalized name (w name).state.scalingFactor := by
  have htotal : output ∈ w.total setup Cell.outputs := by
    rw [h.total_outputs]
    exact hm
  obtain ⟨name, hn, hcell⟩ := Multiset.mem_sum.mp htotal
  by_cases hs : (w name).ascent.stage = .normalized
  · rw [Cell.outputs, if_pos hs] at hcell
    exact ⟨name, List.mem_toFinset.mp hn, hs, Multiset.mem_singleton.mp hcell⟩
  · rw [Cell.outputs, if_neg hs] at hcell
    simp at hcell

theorem Shows.sizes (h : net.Shows setup w log) (valid : setup.Valid) (traced : setup.Traced)
    (hgathered : w.Gathered setup) (hm : output ∈ log.flatMap Handling.completed) :
    setup.Sizes output := by
  obtain ⟨name, hn, hs, rfl⟩ := h.exists_completed hm
  have hr : (w name).range.reported = true := by simp [(h.inv.sound name hn).reported, hs]
  have hshape := hgathered.of_eq valid h.inv (.shape setup valid traced) hn hr
  exact valid.sizes hn (congrArg Shape.size hshape)

theorem Shows.names_perm (h : net.Shows setup w log) (valid : setup.Valid) (hempty : net.pool = []) :
    ((log.flatMap Handling.completed).map Normalized.name).Perm setup.problem.names := by
  have hnormalized := h.normalized valid hempty
  have hcell : ∀ name ∈ setup.problem.names.toFinset,
      ((w name).outputs name).map Normalized.name = {name} := by
    intro name hn
    rw [Cell.outputs, if_pos (by rw [hnormalized name (List.mem_toFinset.mp hn)]; rfl)]
    rfl
  have htotal : (w.total setup Cell.outputs).map Normalized.name = setup.problem.names.toFinset.val := by
    rw [World.total, ← Multiset.coe_mapAddMonoidHom, map_sum, ← Finset.sum_multiset_singleton]
    exact Finset.sum_congr rfl hcell
  rw [h.total_outputs, List.toFinset_val, setup.problem.nodup_names.dedup] at htotal
  exact Multiset.coe_eq_coe.mp htotal

theorem Shows.length_le (h : net.Shows setup w log) : log.length ≤ setup.problem.names.length * 3 := by
  obtain ⟨rest, hcount, -⟩ := h.account
  have hawaited : (World.initial setup).awaited setup ≤ setup.problem.names.toFinset.card * 3 := by
    rw [← smul_eq_mul, World.awaited, World.total]
    refine Finset.sum_le_card_nsmul _ _ 3 fun name _ => ?_
    show (if (setup.parent name).isNone then 1 else 3) ≤ 3
    split <;> omega
  have hcard := List.toFinset_card_le setup.problem.names
  omega

/-- Whatever the costs are, every order of the messages gives each variable the size of its subtree. -/
theorem subtree_sizes {problem : Problem K} (built : problem.Built) (config : Config K) :
    ∃ first, start (.generated problem config) = .ok first ∧
      ∀ log net, first.Runs problem log net → Sized (.generated problem config) log net := by
  have valid := Setup.valid_generated built config
  have traced := Setup.traced_generated built config
  obtain ⟨first, hstart, hfirst⟩ := exists_start valid
  refine ⟨first, hstart, fun log net hruns => ?_⟩
  obtain ⟨w, hshows, hsteps⟩ := hruns.shows valid hfirst
  have hgathered := (gathered_initial _).steps valid (inv_initial _) hsteps
  exact {
    continues := fun position hlt => by
      obtain ⟨handling, next, w', hd, -⟩ := hshows.handles valid hlt
      exact Option.isSome_iff_exists.mpr ⟨_, hd⟩
    bounded := hshows.length_le
    sizes := fun output hm => hshows.sizes valid traced hgathered hm
    once := hshows.names_perm valid }

end Normalizing

open Exact

/-- Three variables in a row, the first of which has the largest domain. -/
def Problem.tapering : Problem (Exact ℚ) where
  objective := .minimize
  declarations := (((∅ : Std.ExtTreeMap String Variable).insert "a" ⟨"a", "x", [0, 1, 2]⟩).insert
    "b" ⟨"b", "y", [0]⟩).insert "c" ⟨"c", "y", [0]⟩
  spaces := [
    ⟨"ab", [⟨"a", [0, 1, 2]⟩, ⟨"b", [0]⟩], #[number 0, number 1, number 2]⟩,
    ⟨"bc", [⟨"b", [0]⟩, ⟨"c", [0]⟩], #[number 1]⟩]

theorem Problem.built_tapering : Problem.tapering.Built := by
  have hempty : Problem.Built (.empty .minimize : Problem (Exact ℚ)) := .empty .minimize
  have ha := hempty.declare "a" "x" [0, 1, 2] rfl (by decide +kernel)
  have hb := ha.declare "b" "y" [0] rfl (by decide +kernel)
  have hc := hb.declare "c" "y" [0] rfl (by decide +kernel)
  exact (hc.enforce (by decide) rfl (by decide +kernel)).enforce (by decide) rfl
    (by decide +kernel)

theorem Setup.children_tapering : (Setup.generated .tapering .standard).children "a" = ["b"] ∧
    (Setup.generated .tapering .standard).children "b" = ["c"] ∧
    (Setup.generated .tapering .standard).children "c" = [] := by
  decide +kernel

/-- The largest value in the subtree of the first variable is the largest one of all. -/
theorem Setup.sup_tapering (f : String → Nat) :
    ((Setup.generated .tapering .standard).subtree "a").sup f = max (f "a") (max (f "b") (f "c")) := by
  have valid := Setup.valid_generated Problem.built_tapering .standard
  obtain ⟨ha, hb, hc⟩ := Setup.children_tapering
  rw [valid.sup_subtree (by decide +kernel), ha, List.toFinset_cons, List.toFinset_nil,
    Finset.sup_insert, Finset.sup_empty, valid.sup_subtree (by decide +kernel), hb,
    List.toFinset_cons, List.toFinset_nil, Finset.sup_insert, Finset.sup_empty,
    valid.sup_subtree (by decide +kernel), hc]
  simp

/-- The first of the three variables is on top of two levels and has three values, but its size is less
than their sum. -/
theorem Normalizing.subtree_sizes_tapering :
    ∃ (first last : Normalizing (Exact ℚ)) (log : List (Handling (Exact ℚ))),
      start (.generated .tapering .standard) = .ok first ∧ first.Runs .tapering log last ∧
      last.pool = [] ∧ Sized (.generated .tapering .standard) log last ∧
      ∃ output ∈ log.flatMap Handling.completed, output.name = "a" ∧ output.size = 4 ∧
        (Setup.generated .tapering .standard).width "a" = 3 ∧
        (Setup.generated .tapering .standard).height "a" = 2 := by
  have valid := Setup.valid_generated Problem.built_tapering .standard
  obtain ⟨first, hstart, hsized⟩ := subtree_sizes Problem.built_tapering .standard
  obtain ⟨log, last, hruns, hpool⟩ := exists_end fun log net hruns =>
    ⟨(hsized log net hruns).continues, (hsized log net hruns).bounded⟩
  have hlast := hsized log last hruns
  obtain ⟨output, ho, hname⟩ := List.mem_map.mp
    ((hlast.once hpool).mem_iff.mpr (by decide +kernel : "a" ∈ Problem.tapering.names))
  have hself : "a" ∈ (Setup.generated .tapering .standard).subtree "a" :=
    Setup.mem_subtree_self (by decide +kernel)
  obtain ⟨ha, hb, hc⟩ := Setup.children_tapering
  have hfirst := valid.depth_self "a"
  have hnext : "b" ∈ (Setup.generated .tapering .standard).children "a" := by simp [ha]
  have hsecond := valid.depth_child hself hnext
  have hthird := valid.depth_child (valid.mem_subtree_of_child hself hnext)
    (by rw [hb]; exact List.mem_singleton_self "c")
  rw [hfirst] at hsecond
  rw [hsecond] at hthird
  have hwidth : (Setup.generated .tapering .standard).width "a" = 3 := by
    rw [Setup.width, Setup.sup_tapering]
    decide +kernel
  refine ⟨first, last, log, hstart, hruns, hpool, hlast, output, ho, hname, ?_, hwidth, ?_⟩
  · rw [(hlast.sizes output ho).size, hname, Setup.sup_tapering, hfirst, hsecond, hthird, ha, hb, hc]
    decide +kernel
  · rw [Setup.height, Setup.sup_tapering, hfirst, hsecond, hthird]
    rfl

end DcopSearch
