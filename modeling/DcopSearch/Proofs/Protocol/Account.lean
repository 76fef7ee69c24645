import DcopSearch.Proofs.Protocol.Flight
import Mathlib.Algebra.BigOperators.Pi
import Mathlib.Algebra.GroupWithZero.Nat

/-! What normalization has to show for itself.  A world accounts for the messages of normalization that
are under way, the ranges reported so far, the variables completed so far, and the number of messages
that are still to be handled.  Every step is booked on both sides. -/

namespace DcopSearch

variable {K : Type}

/-- Messages under way, reports with their senders, completed variables, and how many messages are
still to come. -/
abbrev Account (K : Type) : Type :=
  Multiset (Outgoing K) × Multiset (String × RangeReport K) × Multiset (Normalized K) × ℕ

/-- The account with the given entries. -/
def Account.of (letters : List (Outgoing K)) (reports : List (String × RangeReport K))
    (outputs : List (Normalized K)) (awaited : ℕ) : Account K :=
  (↑letters, ↑reports, ↑outputs, awaited)

theorem Account.of_add (letters letters' : List (Outgoing K))
    (reports reports' : List (String × RangeReport K)) (outputs outputs' : List (Normalized K))
    (n n' : ℕ) : of letters reports outputs n + of letters' reports' outputs' n'
      = of (letters ++ letters') (reports ++ reports') (outputs ++ outputs') (n + n') := by
  simp [of]

theorem Account.of_perm {letters letters' : List (Outgoing K)} (h : letters.Perm letters')
    (reports : List (String × RangeReport K)) (outputs : List (Normalized K)) (n : ℕ) :
    of letters reports outputs n = of letters' reports outputs n := by
  rw [of, of, Multiset.coe_eq_coe.mpr h]

namespace Ascent

/-- Whether a variable has sent its report. -/
def hasReported : Ascent K → Bool
  | unseen | gathering => false
  | reporting | reported | dividing _ | normalized => true

/-- The messages of normalization that a variable still has to do with: its view, its report and its
divisor; a root has its view only. -/
def awaited (root : Bool) : Ascent K → ℕ
  | unseen => if root then 1 else 3
  | gathering | reporting => if root then 0 else 2
  | reported | dividing _ => if root then 0 else 1
  | normalized => 0

end Ascent

namespace Cell

/-- The report that a variable has sent. -/
def reports (setup : Setup K) (name : String) (c : Cell K) : Multiset (String × RangeReport K) :=
  if c.ascent.hasReported then
    ((setup.parent name).toList.map fun parent => (name, Normalizer.reportTo parent c.range) :
      List (String × RangeReport K))
  else 0

/-- What a variable takes along into sampling. -/
def outputs (name : String) (c : Cell K) : Multiset (Normalized K) :=
  if c.ascent.stage = .normalized then {c.range.normalized name c.state.scalingFactor} else 0

def account (setup : Setup K) (name : String) (c : Cell K) : Account K :=
  (c.ascentFlight setup name, c.reports setup name, c.outputs name,
    c.ascent.awaited (setup.parent name).isNone)

end Cell

namespace World

/-- What all variables account for. -/
def account (w : World K) (setup : Setup K) : Account K := w.total setup (Cell.account setup)

theorem account_eq (w : World K) (setup : Setup K) :
    w.account setup = (w.total setup (Cell.ascentFlight setup), w.total setup (Cell.reports setup),
      w.total setup Cell.outputs,
      w.total setup fun name cell => cell.ascent.awaited (setup.parent name).isNone) := by
  simp only [account, total, Prod.ext_iff, Prod.fst_sum, Prod.snd_sum]
  exact ⟨rfl, rfl, rfl, rfl⟩

variable [CostArithmetic K] {setup : Setup K} {w : World K} {name : String}

theorem account_see (valid : setup.Valid) (hn : name ∈ setup.problem.names)
    (ha : (w name).ascent = .unseen) :
    (w.update name ((w name).seen setup name)).account setup
        + .of [⟨setup.problem.address name, .view name (setup.view name)⟩] [] [] 1
      = w.account setup := by
  have h := total_rewrite_of (w := w) (Cell.account setup) ((w name).seen setup name) []
    (fun _ cell => cell) (.of [⟨setup.problem.address name, .view name (setup.view name)⟩] [] [] 1) 0
    valid hn (by simp) (by simp) (by
      cases hp : setup.parent name <;>
        simp [Cell.account, Cell.ascentFlight, Cell.reports, Cell.outputs, Cell.seen, ha, hp,
          Ascent.awaited, Ascent.hasReported, Ascent.stage, Account.of])
  simpa [account, update] using h

theorem account_tell (valid : setup.Valid) (hinv : w.Inv setup) {parent : String}
    (hp : setup.parent name = some parent) (ha : (w name).ascent = .reporting) :
    (w.tell parent name).account setup + .of [⟨setup.problem.address parent,
        .range (Normalizer.reportTo parent (w name).range)⟩] [] [] 1 = w.account setup := by
  have hparent : ((w parent).told (Normalizer.reportTo parent (w name).range)).account setup parent
      = (w parent).account setup parent := by
    rcases hinv.gathering_of_reporting hp ha with hg | hg <;>
      simp [Cell.account, Cell.ascentFlight, Cell.reports, Cell.outputs, Cell.told, hg,
        Ascent.awaited, Ascent.hasReported, Ascent.stage]
  have hname : Cell.account setup name { w name with ascent := .reported }
        + .of [⟨setup.problem.address parent,
          .range (Normalizer.reportTo parent (w name).range)⟩] [] [] 1
      = (w name).account setup name := by
    simp [Cell.account, Cell.ascentFlight, Cell.reports, Cell.outputs, ha, hp, Ascent.awaited,
      Ascent.hasReported, Ascent.stage, Account.of]
  have h := total_rewrite_of (w := w) (Cell.account setup)
    ((w parent).told (Normalizer.reportTo parent (w name).range)) [name]
    (fun _ cell => { cell with ascent := .reported }) (.of [⟨setup.problem.address parent,
      .range (Normalizer.reportTo parent (w name).range)⟩] [] [] 1) 0
    valid (valid.mem_names hp).1 (by simpa using valid.mem_children.mpr hp) (by simp) (by
      simp only [List.map_cons, List.map_nil, List.sum_singleton, hparent]
      rw [add_assoc, hname, add_zero])
  exact h.trans (add_zero _)

theorem account_close (valid : setup.Valid) (hn : name ∈ setup.problem.names)
    (ha : (w name).ascent = .gathering) :
    (w.update name ((w name).closed setup name)).account setup
      = w.account setup
        + .of ((setup.parent name).toList.map fun parent =>
            ⟨setup.problem.address parent, .range (Normalizer.reportTo parent
              ((w name).closed setup name).range)⟩)
          ((setup.parent name).toList.map fun parent =>
            (name, Normalizer.reportTo parent ((w name).closed setup name).range)) [] 0 := by
  have h := total_rewrite_of (w := w) (Cell.account setup) ((w name).closed setup name) []
    (fun _ cell => cell) 0 (.of ((setup.parent name).toList.map fun parent =>
      ⟨setup.problem.address parent, .range (Normalizer.reportTo parent
        ((w name).closed setup name).range)⟩)
      ((setup.parent name).toList.map fun parent =>
        (name, Normalizer.reportTo parent ((w name).closed setup name).range)) [] 0)
    valid hn (by simp) (by simp) (by
      cases hp : setup.parent name <;>
        simp [Cell.account, Cell.ascentFlight, Cell.reports, Cell.outputs, Cell.closed, ha, hp,
          Ascent.awaited, Ascent.hasReported, Ascent.stage, Account.of])
  simpa [account, update] using h

/-- The divisor is taken in, unless the variable is a root, and passed on. -/
theorem account_normalize (valid : setup.Valid) (hinv : w.Inv setup) {divisor : K}
    (hn : name ∈ setup.problem.names) (ha : (w name).ascent = .dividing divisor) :
    (w.normalize setup name divisor).account setup
        + (if (setup.parent name).isSome then
            .of [⟨setup.problem.address name, .divisor name divisor⟩] [] [] 1 else 0)
      = w.account setup
        + .of ((setup.children name).map fun child =>
            ⟨setup.problem.address child, .divisor child divisor⟩) []
          [((w name).range.rescale setup.substitute divisor).normalized name divisor] 0 := by
  have hclosed : (w name).ascent.stage = .closed := by rw [ha]; rfl
  have hchild : ∀ child ∈ setup.children name,
      Cell.account setup child { w child with ascent := .dividing divisor }
        = (w child).account setup child
          + .of [⟨setup.problem.address child, .divisor child divisor⟩] [] [] 0 := by
    intro child hc
    have hp := valid.mem_children.mp hc
    have hr := hinv.child_reported valid hclosed hc
    simp [Cell.account, Cell.ascentFlight, Cell.reports, Cell.outputs, hr, hp, Ascent.awaited,
      Ascent.hasReported, Ascent.stage, Account.of]
  have hchildren : ∀ children : List String, (∀ child ∈ children, child ∈ setup.children name) →
      (children.map fun child =>
        Cell.account setup child { w child with ascent := .dividing divisor }).sum
      = (children.map fun child => (w child).account setup child).sum
        + .of (children.map fun child =>
            ⟨setup.problem.address child, .divisor child divisor⟩) [] [] 0 := by
    intro children
    induction children with
    | nil => intro _; rfl
    | cons child rest ih =>
      intro hsub
      rw [List.map_cons, List.sum_cons, ih fun other ho => hsub other (by simp [ho]),
        hchild child (hsub child (by simp)), List.map_cons, List.sum_cons, List.map_cons]
      have hfirst := Account.of_add [⟨setup.problem.address child, .divisor child divisor⟩]
        (rest.map fun child => ⟨setup.problem.address child, .divisor child divisor⟩) [] [] [] [] 0 0
      simp only [List.singleton_append, List.append_nil, Nat.add_zero] at hfirst
      rw [← hfirst]
      ac_rfl
  have hself : ((w name).normalized setup name divisor).account setup name
        + (if (setup.parent name).isSome then
            .of [⟨setup.problem.address name, .divisor name divisor⟩] [] [] 1 else 0)
      = (w name).account setup name
        + .of [] [] [((w name).range.rescale setup.substitute divisor).normalized name divisor] 0 := by
    cases hp : setup.parent name <;>
      simp [Cell.account, Cell.ascentFlight, Cell.reports, Cell.outputs, Cell.normalized, ha, hp,
        Ascent.awaited, Ascent.hasReported, Ascent.stage, SamplingState.prepare, Range.normalized,
        Range.rescale, Normalizer.reportTo, Account.of]
  have hsplit : Account.of ((setup.children name).map fun child =>
        ⟨setup.problem.address child, .divisor child divisor⟩) []
        [((w name).range.rescale setup.substitute divisor).normalized name divisor] 0
      = .of [] [] [((w name).range.rescale setup.substitute divisor).normalized name divisor] 0
        + .of ((setup.children name).map fun child =>
          ⟨setup.problem.address child, .divisor child divisor⟩) [] [] 0 := by
    simp [Account.of_add]
  refine total_rewrite_of (Cell.account setup) _ _ _ _ _ valid hn (fun child hc => hc)
    (valid.nodup_children name) ?_
  rw [hchildren _ fun _ => id, add_right_comm, hself, hsplit]
  ac_rfl

end World

end DcopSearch
