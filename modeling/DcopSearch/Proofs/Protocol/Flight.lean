import DcopSearch.Proofs.Protocol.Exchange

/-! What each step does to the messages under way: which one it takes in, and which it sends.  Every
message under way is for one variable, and is there for one of five reasons. -/

namespace DcopSearch

variable {K : Type}

namespace Act

/-- The messages of an act to other variables. -/
def letters (problem : Problem K) (t : SamplingState K) : Act K → List (Outgoing K)
  | report cost =>
    t.parent.toList.map fun parent => ⟨problem.address parent, .cost parent cost⟩
  | sample => t.asks problem false
  | finish => t.asks problem true

variable [CostArithmetic K]

/-- The messages of an act to those who collect the results. -/
def results (delta : K) (t : SamplingState K) : Act K → List (Outgoing K)
  | finish => t.results delta
  | report _ | sample => []

theorem messages_eq (problem : Problem K) (delta : K) (t : SamplingState K) (act : Act K) :
    act.messages problem delta t = act.letters problem t ++ act.results delta t := by
  cases act <;> simp [messages, letters, results]

end Act

namespace World

variable {setup : Setup K} {w : World K} {name : String} {cell : Cell K}

/-- What a change of cells adds to a sum over all cells, and what it takes away. -/
theorem total_rewrite_of {M : Type} [AddCancelCommMonoid M] (f : String → Cell K → M)
    (cell : Cell K) (children : List String) (change : String → Cell K → Cell K) (loss gain : M)
    (valid : setup.Valid) (hn : name ∈ setup.problem.names)
    (hc : ∀ child ∈ children, child ∈ setup.children name) (hnodup : children.Nodup)
    (h : f name cell + (children.map fun child => f child (change child (w child))).sum + loss
        = f name (w name) + (children.map fun child => f child (w child)).sum + gain) :
    (w.rewrite name cell children change).total setup f + loss = w.total setup f + gain := by
  have hsum := @total_rewrite K w name cell children change M _ f setup hn
    (fun child hm => valid.mem_names_of_child (hc child hm))
    (fun hm => valid.not_mem_children_self name (hc name hm)) hnodup
  refine add_right_cancel (b := f name (w name)
    + (children.map fun child => f child (w child)).sum) ?_
  calc (w.rewrite name cell children change).total setup f + loss
        + (f name (w name) + (children.map fun child => f child (w child)).sum)
      = (w.rewrite name cell children change).total setup f + (f name (w name)
          + (children.map fun child => f child (w child)).sum) + loss := by ac_rfl
    _ = w.total setup f + (f name cell
          + (children.map fun child => f child (change child (w child))).sum + loss) := by
        rw [hsum]; ac_rfl
    _ = _ := by rw [h]; ac_rfl

/-- What a change of cells adds to the messages under way, and what it takes away. -/
theorem flight_rewrite_of (cell : Cell K) (children : List String)
    (change : String → Cell K → Cell K) (loss gain : Multiset (Outgoing K)) (valid : setup.Valid)
    (hn : name ∈ setup.problem.names)
    (hc : ∀ child ∈ children, child ∈ setup.children name) (hnodup : children.Nodup)
    (h : cell.flight setup name
          + (children.map fun child => (change child (w child)).flight setup child).sum + loss
        = (w name).flight setup name
          + (children.map fun child => (w child).flight setup child).sum + gain) :
    (w.rewrite name cell children change).flight setup + loss = w.flight setup + gain :=
  total_rewrite_of (fun name cell => cell.flight setup name) cell children change loss gain valid hn
    hc hnodup h

theorem flight_update_of (cell : Cell K) (loss gain : Multiset (Outgoing K))
    (valid : setup.Valid) (hn : name ∈ setup.problem.names)
    (h : cell.flight setup name + loss = (w name).flight setup name + gain) :
    (w.update name cell).flight setup + loss = w.flight setup + gain :=
  flight_rewrite_of cell [] _ loss gain valid hn (by simp) (by simp) (by simpa using h)

theorem flight_keep (valid : setup.Valid) {context : Context} (hn : name ∈ setup.problem.names)
    (hx : (w name).exchange = .asked context) :
    (w.update name ((w name).keeping context)).flight setup
        + {⟨setup.problem.address name, .context context⟩} = w.flight setup := by
  have h := flight_update_of (w := w) ((w name).keeping context)
    {⟨setup.problem.address name, .context context⟩} 0 valid hn (by
      simp only [Cell.flight, Cell.ascentFlight, Cell.exchangeFlight, Cell.keeping, hx]
      ac_rfl)
  simpa using h

theorem flight_take (valid : setup.Valid) {context : Context} (hn : name ∈ setup.problem.names)
    (hx : (w name).exchange = .asked context) :
    (w.update name ((w name).taking context)).flight setup
        + {⟨setup.problem.address name, .context context⟩} = w.flight setup := by
  have h := flight_update_of (w := w) ((w name).taking context)
    {⟨setup.problem.address name, .context context⟩} 0 valid hn (by
      simp only [Cell.flight, Cell.ascentFlight, Cell.exchangeFlight, Cell.taking, hx]
      ac_rfl)
  simpa using h

theorem sum_flight_sent {f g : String → Multiset (Outgoing K)} {children : List String}
    (message : String → Outgoing K) (h : ∀ child ∈ children, f child = g child + {message child}) :
    (children.map f).sum = (children.map g).sum + ↑(children.map message) := by
  induction children with
  | nil => simp
  | cons child rest ih =>
    have hrest := ih fun other ho => h other (by simp [ho])
    simp only [List.map_cons, List.sum_cons, hrest, h child (by simp)]
    rw [← Multiset.cons_coe, ← Multiset.singleton_add]
    ac_rfl

/-- What a variable sends to others in an act is what comes under way. -/
theorem flight_act (valid : setup.Valid) {final : Bool} {act : Act K} {state : SamplingState K}
    (hn : name ∈ setup.problem.names)
    (hx : (w name).exchange = .poised final ∨ (w name).exchange = .busy final)
    (hidle : ∀ child ∈ setup.children name, (w child).exchange = .idle)
    (hparent : state.parent = setup.parent name) (hchildren : state.children = setup.children name) :
    (w.act setup name act final state).flight setup
      = w.flight setup + ↑(act.letters setup.problem state) := by
  have hself : ∀ exchange, Cell.flight setup name { w name with state := state, exchange := exchange }
      = (w name).flight setup name + Cell.exchangeFlight setup name
          { w name with state := state, exchange := exchange } := by
    intro exchange
    rcases hx with hx | hx <;> simp [Cell.flight, Cell.exchangeFlight, Cell.ascentFlight, hx]
  have hchild : ∀ final, ((setup.children name).map fun child =>
        Cell.flight setup child
          { w child with exchange := .asked (state.contextTo child final) }).sum
      = ((setup.children name).map fun child => (w child).flight setup child).sum
        + ↑(state.asks setup.problem final) := by
    intro final
    rw [SamplingState.asks, hchildren]
    refine sum_flight_sent _ fun child hc => ?_
    simp [Cell.flight, Cell.exchangeFlight, Cell.ascentFlight, hidle child hc]
  have h := flight_rewrite_of (w := w) ((w name).acting act final state)
    (act.addressees (setup.children name))
    (fun child cell => { cell with exchange := .asked (state.contextTo child act.isFinish) })
    0 ↑(act.letters setup.problem state) valid hn
    (by cases act <;> simp [Act.addressees])
    (by cases act <;> simp [Act.addressees, valid.nodup_children]) (by
      cases act with
      | report cost =>
        simp only [Act.addressees, List.map_nil, List.sum_nil, add_zero, Cell.acting, Act.exchange,
          hself]
        simp [Cell.exchangeFlight, Act.letters, hparent]
      | sample =>
        simp only [Act.addressees, Cell.acting, Act.exchange, hself, Act.isFinish, hchild,
          Act.letters]
        simp [Cell.exchangeFlight, add_assoc]
      | finish =>
        simp only [Act.addressees, Cell.acting, Act.exchange, hself, Act.isFinish, hchild,
          Act.letters]
        simp [Cell.exchangeFlight, add_assoc])
  simpa [World.act] using h

variable [CostArithmetic K]

theorem flight_see (valid : setup.Valid) (hn : name ∈ setup.problem.names)
    (ha : (w name).ascent = .unseen) :
    (w.update name ((w name).seen setup name)).flight setup
        + {⟨setup.problem.address name, .view name (setup.view name)⟩} = w.flight setup := by
  have h := flight_update_of (w := w) ((w name).seen setup name)
    {⟨setup.problem.address name, .view name (setup.view name)⟩} 0 valid hn (by
      simp only [Cell.flight, Cell.ascentFlight, Cell.exchangeFlight, Cell.seen, ha]
      ac_rfl)
  simpa using h

theorem flight_close (valid : setup.Valid) (hn : name ∈ setup.problem.names)
    (ha : (w name).ascent = .gathering) :
    (w.update name ((w name).closed setup name)).flight setup
      = w.flight setup + ↑((setup.parent name).toList.map fun parent =>
          (⟨setup.problem.address parent, .range (Normalizer.reportTo parent
            ((w name).closed setup name).range)⟩ : Outgoing K)) := by
  have h := flight_update_of (w := w) ((w name).closed setup name) 0
    ↑((setup.parent name).toList.map fun parent =>
      (⟨setup.problem.address parent, .range (Normalizer.reportTo parent
        ((w name).closed setup name).range)⟩ : Outgoing K)) valid hn (by
      cases hp : setup.parent name with
      | none =>
        simp [Cell.flight, Cell.ascentFlight, Cell.exchangeFlight, Cell.closed, ha, hp]
      | some parent =>
        simp only [Cell.flight, Cell.ascentFlight, Cell.exchangeFlight, Cell.closed, ha, hp,
          Option.isSome_some, if_true]
        ac_rfl)
  simpa using h

theorem flight_tell (valid : setup.Valid) (hinv : w.Inv setup) {parent : String}
    (hp : setup.parent name = some parent) (ha : (w name).ascent = .reporting) :
    (w.tell parent name).flight setup
        + {⟨setup.problem.address parent, .range (Normalizer.reportTo parent (w name).range)⟩}
      = w.flight setup := by
  have h := flight_rewrite_of (w := w)
    ((w parent).told (Normalizer.reportTo parent (w name).range)) [name]
    (fun _ cell => { cell with ascent := .reported })
    {⟨setup.problem.address parent, .range (Normalizer.reportTo parent (w name).range)⟩} 0
    valid (valid.mem_names hp).1 (by simpa using valid.mem_children.mpr hp) (by simp) (by
      have hgathering := hinv.gathering_of_reporting hp ha
      have hparent : ((w parent).told (Normalizer.reportTo parent (w name).range)).flight setup
          parent = (w parent).flight setup parent := by
        rcases hgathering with hg | hg <;>
          simp [Cell.flight, Cell.ascentFlight, Cell.exchangeFlight, Cell.told, hg]
      have hname : (w name).flight setup name
          = {⟨setup.problem.address parent,
              .range (Normalizer.reportTo parent (w name).range)⟩}
            + (w name).exchangeFlight setup name := by
        simp [Cell.flight, Cell.ascentFlight, ha, hp]
      have hreported : Cell.flight setup name { w name with ascent := .reported }
          = (w name).exchangeFlight setup name := by
        simp [Cell.flight, Cell.ascentFlight, Cell.exchangeFlight]
      simp only [List.map_cons, List.map_nil, List.sum_singleton, hparent, hname, hreported]
      ac_rfl)
  rw [World.tell, h, add_zero]

theorem flight_count (valid : setup.Valid) {parent : String} {cost : Option K}
    (hp : setup.parent name = some parent) (hx : (w name).exchange = .answered cost) :
    (w.count parent name cost).flight setup
        + {⟨setup.problem.address parent, .cost parent cost⟩} = w.flight setup := by
  have h := flight_rewrite_of (w := w) ((w parent).counting cost) [name]
    (fun _ cell => { cell with exchange := .idle })
    {⟨setup.problem.address parent, .cost parent cost⟩} 0 valid
    (valid.mem_names hp).1 (by simpa using valid.mem_children.mpr hp) (by simp) (by
      have hparent : ((w parent).counting cost).flight setup parent
          = (w parent).flight setup parent := rfl
      have hname : (w name).flight setup name
          = (w name).ascentFlight setup name
            + {⟨setup.problem.address parent, .cost parent cost⟩} := by
        simp [Cell.flight, Cell.exchangeFlight, hx, hp]
      have hidle : Cell.flight setup name { w name with exchange := .idle }
          = (w name).ascentFlight setup name := by
        simp [Cell.flight, Cell.ascentFlight, Cell.exchangeFlight]
      simp only [List.map_cons, List.map_nil, List.sum_singleton, hparent, hname, hidle]
      ac_rfl)
  rw [World.count, h, add_zero]

/-- The divisor is taken in and passed on; a context that was kept is under way again. -/
theorem flight_normalize (valid : setup.Valid) (hinv : w.Inv setup) {divisor : K}
    (hn : name ∈ setup.problem.names) (ha : (w name).ascent = .dividing divisor) :
    (w.normalize setup name divisor).flight setup
        + (if (setup.parent name).isSome then
            {⟨setup.problem.address name, .divisor name divisor⟩} else 0)
      = w.flight setup
        + (↑((setup.children name).map fun child =>
            (⟨setup.problem.address child, .divisor child divisor⟩ : Outgoing K))
          + ↑((w name).exchange.buffered.toList.map fun context =>
            (⟨setup.problem.address name, .context context⟩ : Outgoing K))) := by
  refine flight_rewrite_of _ _ _ _ _ valid hn (fun child hc => hc) (valid.nodup_children name) ?_
  have hclosed : (w name).ascent.stage ≠ .normalized := by simp [ha, Ascent.stage]
  have hsent : ∀ child ∈ setup.children name,
      Cell.flight setup child { w child with ascent := .dividing divisor }
        = (w child).flight setup child + {⟨setup.problem.address child, .divisor child divisor⟩} := by
    intro child hc
    have hp := valid.mem_children.mp hc
    have hl := (hinv.linked name child hp).ascent
    have hr : (w child).ascent = .reported := by
      simpa [ha, Ascent.stage, Stage.Admits] using hl
    simp only [Cell.flight, Cell.ascentFlight, Cell.exchangeFlight, hr, hp, Option.isSome_some,
      if_true]
    ac_rfl
  have hchildren := sum_flight_sent
    (fun child => ⟨setup.problem.address child, .divisor child divisor⟩) hsent
  have hself : ((w name).normalized setup name divisor).flight setup name
        + (if (setup.parent name).isSome then
            {⟨setup.problem.address name, .divisor name divisor⟩} else 0)
      = (w name).flight setup name
        + ↑((w name).exchange.buffered.toList.map fun context =>
            (⟨setup.problem.address name, .context context⟩ : Outgoing K)) := by
    have hsound := hinv.sound name hn
    cases hp : setup.parent name with
    | none =>
      have hidle := hsound.idle_of_root hclosed hp
      simp [Cell.flight, Cell.ascentFlight, Cell.exchangeFlight, Cell.normalized, ha, hp, hidle,
        Exchange.buffered]
    | some parent =>
      rcases hsound.exchange_early hclosed with hx | ⟨context, hx | hx⟩ <;>
        simp [Cell.flight, Cell.ascentFlight, Cell.exchangeFlight, Cell.normalized, ha, hp, hx,
          Exchange.buffered, add_comm]
  rw [hchildren, add_right_comm, hself]
  ac_rfl

end World

/-- The variable that a message is for. -/
def Message.subject? : Message K → Option String
  | .view name _ => some name
  | .range report => some report.receiver
  | .divisor receiver _ => some receiver
  | .context c => some c.receiver
  | .cost receiver _ => some receiver
  | .start | .finalBound _ | .assignment _ _ | .agentFinished _ => none

/-- Whether a message is one of normalization. -/
def Message.normalizes : Message K → Bool
  | .view _ _ | .range _ | .divisor _ _ => true
  | _ => false

/-- A message is under way to a variable, for one of these reasons. -/
inductive World.Sends (setup : Setup K) (w : World K) : String → Outgoing K → Prop where
  | view {name : String} :
      (w name).ascent = .unseen →
      Sends setup w name ⟨setup.problem.address name, .view name (setup.view name)⟩
  | range {parent name : String} :
      setup.parent name = some parent → (w name).ascent = .reporting →
      Sends setup w parent ⟨setup.problem.address parent,
        .range (Normalizer.reportTo parent (w name).range)⟩
  | divisor {name : String} {divisor : K} :
      setup.parent name ≠ none → (w name).ascent = .dividing divisor →
      Sends setup w name ⟨setup.problem.address name, .divisor name divisor⟩
  | context {name : String} {context : Context} :
      (w name).exchange = .asked context →
      Sends setup w name ⟨setup.problem.address name, .context context⟩
  | cost {parent name : String} {cost : Option K} :
      setup.parent name = some parent → (w name).exchange = .answered cost →
      Sends setup w parent ⟨setup.problem.address parent, .cost parent cost⟩

namespace World

variable {setup : Setup K} {w : World K} {name : String} {outgoing : Outgoing K}

theorem sends_of_ascentFlight (valid : setup.Valid) (hn : name ∈ setup.problem.names)
    (hm : outgoing ∈ (w name).ascentFlight setup name) :
    ∃ other ∈ setup.problem.names, w.Sends setup other outgoing ∧
      outgoing.message.normalizes = true := by
  unfold Cell.ascentFlight at hm
  cases ha : (w name).ascent with
  | unseen =>
    rw [ha, Multiset.mem_singleton] at hm
    exact ⟨name, hn, hm ▸ .view ha, hm ▸ rfl⟩
  | reporting =>
    rw [ha] at hm
    cases hp : setup.parent name with
    | none => simp [hp] at hm
    | some parent =>
      have hm : outgoing = ⟨setup.problem.address parent,
          .range (Normalizer.reportTo parent (w name).range)⟩ := by
        simpa [hp] using hm
      exact ⟨parent, (valid.mem_names hp).1, hm ▸ .range hp ha, hm ▸ rfl⟩
  | dividing divisor =>
    cases hp : setup.parent name with
    | none => simp [ha, hp] at hm
    | some parent =>
      have hm : outgoing = ⟨setup.problem.address name, .divisor name divisor⟩ := by
        simpa [ha, hp] using hm
      exact ⟨name, hn, hm ▸ .divisor (by simp [hp]) ha, hm ▸ rfl⟩
  | gathering => simp [ha] at hm
  | reported => simp [ha] at hm
  | normalized => simp [ha] at hm

theorem exists_sends (valid : setup.Valid) (h : outgoing ∈ w.flight setup) :
    ∃ name ∈ setup.problem.names, w.Sends setup name outgoing := by
  obtain ⟨name, hn, hm⟩ := Multiset.mem_sum.mp h
  have hn : name ∈ setup.problem.names := List.mem_toFinset.mp hn
  rcases Multiset.mem_add.mp hm with hm | hm
  · obtain ⟨other, ho, hsends, -⟩ := sends_of_ascentFlight valid hn hm
    exact ⟨other, ho, hsends⟩
  · unfold Cell.exchangeFlight at hm
    cases hx : (w name).exchange with
    | asked context =>
      rw [hx, Multiset.mem_singleton] at hm
      exact ⟨name, hn, hm ▸ .context hx⟩
    | answered cost =>
      rw [hx] at hm
      cases hp : setup.parent name with
      | none => simp [hp] at hm
      | some parent =>
        have hm : outgoing = ⟨setup.problem.address parent, .cost parent cost⟩ := by
          simpa [hp] using hm
        exact ⟨parent, (valid.mem_names hp).1, hm ▸ .cost hp hx⟩
    | idle => simp [hx] at hm
    | kept context => simp [hx] at hm
    | poised final => simp [hx] at hm
    | busy final => simp [hx] at hm
    | ended => simp [hx] at hm

theorem Sends.destination (h : w.Sends setup name outgoing) :
    outgoing.destination = setup.problem.address name := by
  cases h <;> rfl

theorem Sends.destination_of_owner (h : w.Sends setup name outgoing) {agent : String}
    (ho : setup.problem.owner? name = some agent) : outgoing.destination = .agent agent := by
  simp [h.destination, Problem.address, ho]

theorem Sends.subject? [CostArithmetic K] (valid : setup.Valid) (hinv : w.Inv setup)
    (hn : name ∈ setup.problem.names) (h : w.Sends setup name outgoing) :
    outgoing.message.subject? = some name := by
  cases h with
  | context hx =>
    obtain ⟨_, _, _, hreceiver, _⟩ := hinv.context_of_asked valid hn hx
    exact congrArg some hreceiver
  | _ => rfl

end World

end DcopSearch
