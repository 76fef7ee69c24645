import DcopSearch.Proofs.Protocol.Flight
import Mathlib.Algebra.Group.Prod

/-! Books of the messages that have come.  Every edge of the tree carries one range up, and one divisor
and one final context down; any other context is a request, which is open until its answer has come.
Where a variable stands tells what is in the books for it, so that they can be closed at the end. -/

namespace DcopSearch

variable {K : Type}

/-- The variables whose views have come; those that a child has sent its range to; those whose divisors
have come; the edges that a final context has come along; and for every request its sender. -/
abbrev Books : Type :=
  Multiset String × Multiset String × Multiset String × Multiset (String × String) × Multiset String

namespace Books

def view (name : String) : Books := ({name}, 0, 0, 0, 0)

def range (parent : String) : Books := (0, {parent}, 0, 0, 0)

def divisor (name : String) : Books := (0, 0, {name}, 0, 0)

def final (parent name : String) : Books := (0, 0, 0, {(parent, name)}, 0)

def request (parent : String) : Books := (0, 0, 0, 0, {parent})

/-- What a context is: the final one of its edge, or a request. -/
def handed (isFinal : Bool) (parent name : String) : Books :=
  if isFinal then final parent name else request parent

end Books

/-- What is entered when a message comes. -/
def Message.credit : Message K → Books
  | .view name _ => .view name
  | .range report => .range report.receiver
  | .divisor receiver _ => .divisor receiver
  | .context c => .handed c.final c.sender c.receiver
  | .start | .cost _ _ | .finalBound _ | .assignment _ _ | .agentFinished _ => 0

/-- What is struck out when a message comes: the request that it answers. -/
def Message.debit : Message K → Books
  | .cost receiver _ => .request receiver
  | _ => 0

namespace Outgoing

def credits (messages : Multiset (Outgoing K)) : Books := (messages.map (·.message.credit)).sum

def debits (messages : Multiset (Outgoing K)) : Books := (messages.map (·.message.debit)).sum

variable (messages messages' : Multiset (Outgoing K)) (outgoing : Outgoing K)

@[simp] theorem credits_zero : credits (0 : Multiset (Outgoing K)) = 0 := by simp [credits]

@[simp] theorem debits_zero : debits (0 : Multiset (Outgoing K)) = 0 := by simp [debits]

@[simp] theorem credits_singleton : credits {outgoing} = outgoing.message.credit := by
  simp [credits]

@[simp] theorem debits_singleton : debits {outgoing} = outgoing.message.debit := by
  simp [debits]

theorem credits_add : credits (messages + messages') = credits messages + credits messages' := by
  simp [credits]

theorem debits_add : debits (messages + messages') = debits messages + debits messages' := by
  simp [debits]

end Outgoing

/-- The view, and what normalization has sent along the edge from the parent. -/
def Ascent.booked (name : String) (parent : Option String) : Ascent K → Books
  | unseen => 0
  | gathering | reporting => .view name
  | reported | dividing _ => .view name + parent.elim 0 .range
  | normalized => .view name + parent.elim 0 fun parent => .range parent + .divisor name

/-- The request along the edge from the parent that is not answered yet, or the final context. -/
def Exchange.booked (name : String) (parent : Option String) : Exchange K → Books
  | idle | asked _ => 0
  | kept context => parent.elim 0 (.handed context.final · name)
  | poised final | busy final => parent.elim 0 (.handed final · name)
  | answered _ => parent.elim 0 .request
  | ended => parent.elim 0 (.final · name)

/-- What stands in the books for a variable. -/
def Cell.booked (setup : Setup K) (name : String) (c : Cell K) : Books :=
  c.ascent.booked name (setup.parent name) + c.exchange.booked name (setup.parent name)

namespace World

/-- The books of all variables. -/
def booked (w : World K) (setup : Setup K) : Books := w.total setup (Cell.booked setup)

variable {setup : Setup K} {w : World K} {name parent : String}

/-- A change of one cell makes the entries in which the cells differ. -/
theorem booked_update_of (cell : Cell K) (loss gain : Books) (valid : setup.Valid)
    (hn : name ∈ setup.problem.names)
    (h : cell.booked setup name + loss = (w name).booked setup name + gain) :
    (w.update name cell).booked setup + loss = w.booked setup + gain :=
  total_rewrite_of (Cell.booked setup) cell [] _ loss gain valid hn (by simp) (by simp)
    (by simpa using h)

/-- What children have not taken in yet does not stand in the books. -/
theorem booked_rewrite_of (cell : Cell K) (children : List String)
    (change : String → Cell K → Cell K) (loss gain : Books) (valid : setup.Valid)
    (hn : name ∈ setup.problem.names) (hc : ∀ child ∈ children, child ∈ setup.children name)
    (hnodup : children.Nodup)
    (hchildren : ∀ child ∈ children,
      (change child (w child)).booked setup child = (w child).booked setup child)
    (h : cell.booked setup name + loss = (w name).booked setup name + gain) :
    (w.rewrite name cell children change).booked setup + loss = w.booked setup + gain := by
  refine total_rewrite_of (Cell.booked setup) cell children change loss gain valid hn hc hnodup ?_
  rw [List.map_congr_left hchildren, add_right_comm, h]
  ac_rfl

/-- A context has come, whether it is kept or taken over. -/
theorem booked_asked (cell : Cell K) (valid : setup.Valid) {context : Context}
    (hn : name ∈ setup.problem.names) (hp : setup.parent name = some parent)
    (hx : (w name).exchange = .asked context) (ha : cell.ascent = (w name).ascent)
    (he : cell.exchange = .kept context ∨ cell.exchange = .poised context.final) :
    (w.update name cell).booked setup = w.booked setup + .handed context.final parent name := by
  have h := booked_update_of (w := w) cell 0 (.handed context.final parent name) valid hn
    (by rcases he with he | he <;> simp [Cell.booked, Exchange.booked, ha, hp, hx, he])
  simpa using h

variable [CostArithmetic K]

/-- An act takes nothing in.  A request stays open, and what is final stays so. -/
theorem booked_act (valid : setup.Valid) {final : Bool} {act : Act K} {state : SamplingState K}
    (hn : name ∈ setup.problem.names)
    (hx : (w name).exchange = .poised final ∨ (w name).exchange = .busy final)
    (hidle : ∀ child ∈ setup.children name, (w child).exchange = .idle)
    (hleaves : act.Leaves final (w name).state.settled state) :
    (w.act setup name act final state).booked setup = w.booked setup := by
  have hexchange : (act.exchange final).booked name (setup.parent name)
      = (w name).exchange.booked name (setup.parent name) := by
    have hbefore : (w name).exchange.booked name (setup.parent name)
        = (setup.parent name).elim 0 (.handed final · name) := by
      rcases hx with hx | hx <;> rw [hx] <;> rfl
    rw [hbefore]
    cases act with
    | report cost => rw [hleaves.1]; rfl
    | sample => rfl
    | finish => rw [hleaves.1]; rfl
  have h := booked_rewrite_of (w := w) ((w name).acting act final state)
    (act.addressees (setup.children name))
    (fun child cell => { cell with exchange := .asked (state.contextTo child act.isFinish) })
    0 0 valid hn (fun child => Act.mem_of_addressed)
    (by cases act <;> simp [Act.addressees, valid.nodup_children])
    (fun child hm => by
      simp [Cell.booked, Exchange.booked, hidle child (Act.mem_of_addressed hm)])
    (by simp [Cell.booked, Cell.acting, hexchange])
  simpa [World.act] using h

theorem booked_see (valid : setup.Valid) (hn : name ∈ setup.problem.names)
    (ha : (w name).ascent = .unseen) :
    (w.update name ((w name).seen setup name)).booked setup = w.booked setup + .view name := by
  have h := booked_update_of (w := w) ((w name).seen setup name) 0 (.view name) valid hn
    (by simp [Cell.booked, Cell.seen, Ascent.booked, ha, add_comm])
  simpa using h

theorem booked_close (valid : setup.Valid) (hn : name ∈ setup.problem.names)
    (ha : (w name).ascent = .gathering) :
    (w.update name ((w name).closed setup name)).booked setup = w.booked setup := by
  have h := booked_update_of (w := w) ((w name).closed setup name) 0 0 valid hn (by
    cases hp : setup.parent name <;> simp [Cell.booked, Cell.closed, Ascent.booked, ha, hp])
  simpa using h

theorem booked_tell (valid : setup.Valid) (hp : setup.parent name = some parent)
    (ha : (w name).ascent = .reporting) :
    (w.tell parent name).booked setup = w.booked setup + .range parent := by
  have hname : Cell.booked setup name { w name with ascent := .reported }
      = (w name).booked setup name + .range parent := by
    simp [Cell.booked, Ascent.booked, ha, hp, add_right_comm]
  have h := total_rewrite_of (w := w) (Cell.booked setup)
    ((w parent).told (Normalizer.reportTo parent (w name).range)) [name]
    (fun _ cell => { cell with ascent := .reported }) 0 (.range parent) valid
    (valid.mem_names hp).1 (by simpa using valid.mem_children.mpr hp) (by simp) (by
      simp only [List.map_cons, List.map_nil, List.sum_singleton, hname, add_zero]
      exact (add_assoc _ _ _).symm)
  exact (add_zero _).symm.trans h

/-- The divisor has come, unless the variable is a root; a context that was kept is under way again. -/
theorem booked_normalize (valid : setup.Valid) (hinv : w.Inv setup) {divisor : K}
    (hn : name ∈ setup.problem.names) (ha : (w name).ascent = .dividing divisor) :
    (w.normalize setup name divisor).booked setup
        + (w name).exchange.buffered.elim 0 (fun context =>
          (setup.parent name).elim 0 (.handed context.final · name))
      = w.booked setup + (setup.parent name).elim 0 fun _ => .divisor name := by
  have hclosed : (w name).ascent.stage = .closed := by rw [ha]; rfl
  refine booked_rewrite_of _ _ _ _ _ valid hn (fun child => id) (valid.nodup_children name)
    (fun child hc => ?_) ?_
  · have hr := hinv.child_reported valid hclosed hc
    simp [Cell.booked, hr, Ascent.booked]
  · have hsound := hinv.sound name hn
    have hearly : (w name).ascent.stage ≠ .normalized := by simp [hclosed]
    cases hp : setup.parent name with
    | none =>
      have hx := hsound.idle_of_root hearly hp
      simp [Cell.booked, Cell.normalized_ascent, Cell.normalized_root hp, ha, hp, hx, Ascent.booked,
        Exchange.booked, Exchange.buffered]
    | some parent =>
      rcases hsound.exchange_early hearly with hx | ⟨context, hx | hx⟩ <;>
        simp [Cell.booked, Cell.normalized_ascent, Cell.normalized_child hp, ha, hp, hx,
          Ascent.booked, Exchange.buffered, Exchange.booked, add_assoc, add_comm (Books.divisor name)]

/-- The answer has come, and the request is closed. -/
theorem booked_count (valid : setup.Valid) {cost : Option K}
    (hp : setup.parent name = some parent) (hx : (w name).exchange = .answered cost) :
    (w.count parent name cost).booked setup + .request parent = w.booked setup := by
  have hname : Cell.booked setup name { w name with exchange := .idle } + .request parent
      = (w name).booked setup name := by
    simp [Cell.booked, Exchange.booked, hx, hp]
  have h := total_rewrite_of (w := w) (Cell.booked setup) ((w parent).counting cost) [name]
    (fun _ cell => { cell with exchange := .idle }) (.request parent) 0 valid
    (valid.mem_names hp).1 (by simpa using valid.mem_children.mpr hp) (by simp) (by
      simp only [List.map_cons, List.map_nil, List.sum_singleton, add_zero]
      rw [add_assoc, hname]
      rfl)
  exact h.trans (add_zero _)

theorem booked_initial (setup : Setup K) : (World.initial setup).booked setup = 0 := by
  have hcell : ∀ name, (World.initial setup name).booked setup name = 0 := fun _ => rfl
  simp [booked, total, hcell]

end World

end DcopSearch
