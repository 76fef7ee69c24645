import DcopSearch.Proofs.Protocol.Exchange

/-! What a variable knows of its ancestors.  As long as its parent samples, and from its parent's end on,
a variable that has taken the context over knows what its parent has handed down.  So in the end it
knows the values that its ancestors have ended with. -/

namespace DcopSearch

variable {K : Type}

/-- The slots have the values that the parent has handed down. -/
def SamplingState.Follows (s parent : SamplingState K) : Prop :=
  ∀ slot ∈ s.slots, slot.value = parent.handed.lookup slot.name

theorem SamplingState.Follows.of_slots {s t parent : SamplingState K} (h : s.Follows parent)
    (hslots : t.slots = s.slots) : t.Follows parent := by
  intro slot hs
  exact h slot (hslots ▸ hs)

/-- A variable whose parent samples or has ended has taken the context over, unless that is still to
come. -/
def Cell.Attuned (parent c : Cell K) : Prop :=
  parent.exchange.stance ≠ .waiting → c.exchange.context? = none →
    c.ascent.stage = .normalized ∧ c.state.Follows parent.state

theorem Cell.Attuned.of_alike {parent parent' c : Cell K} (h : Attuned parent c)
    (ha : Alike parent parent') : Attuned parent' c := by
  intro hs hx
  rw [ha.stance] at hs
  rw [ha.state]
  exact h hs hx

variable [CostArithmetic K] {setup : Setup K} {w : World K} {name : String}

namespace World

/-- All variables know what their parents have handed down. -/
def Attuned (setup : Setup K) (w : World K) : Prop :=
  ∀ parent name, setup.parent name = some parent → Cell.Attuned (w parent) (w name)

theorem attuned_initial (setup : Setup K) : (World.initial setup).Attuned setup :=
  fun _ _ _ hs => absurd rfl hs

omit [CostArithmetic K] in
theorem Attuned.rewrite (h : w.Attuned setup) (valid : setup.Valid) {cell : Cell K}
    {children : List String} {change : String → Cell K → Cell K}
    (hsub : ∀ child ∈ children, child ∈ setup.children name)
    (halike : ∀ child ∈ children, Cell.Alike (w child) (change child (w child)))
    (hup : ∀ parent, setup.parent name = some parent → Cell.Attuned (w parent) cell)
    (hdown : ∀ child ∈ setup.children name,
      Cell.Attuned cell (w.rewrite name cell children change child)) :
    (w.rewrite name cell children change).Attuned setup :=
  (forall_rewrite (P := fun _ _ => True) (L := fun _ parent c => Cell.Attuned parent c) valid
    (fun _ _ => trivial) h (fun hl ha => hl.of_alike ha) hsub halike trivial (fun _ _ => trivial) hup
    hdown).2

omit [CostArithmetic K] in
/-- A variable that waits has nothing to hand down. -/
theorem Attuned.rewrite_waiting (h : w.Attuned setup) (valid : setup.Valid) {cell : Cell K}
    {children : List String} {change : String → Cell K → Cell K}
    (hsub : ∀ child ∈ children, child ∈ setup.children name)
    (halike : ∀ child ∈ children, Cell.Alike (w child) (change child (w child)))
    (hup : ∀ parent, setup.parent name = some parent → Cell.Attuned (w parent) cell)
    (hs : cell.exchange.stance = .waiting) :
    (w.rewrite name cell children change).Attuned setup :=
  h.rewrite valid hsub halike hup fun _ _ hb => absurd hs hb

/-- Normalization is no concern of the exchange, as long as a variable gathers. -/
theorem Attuned.prepares (h : w.Attuned setup) (valid : setup.Valid) (hinv : w.Inv setup)
    {cell : Cell K} {children : List String} {change : String → Cell K → Cell K}
    (ha : w.Prepares setup name cell children change) :
    (w.rewrite name cell children change).Attuned setup := by
  refine h.rewrite_waiting valid ha.below ha.alike (fun parent hp hb hx => ?_)
    (ha.exchange ▸ ((hinv.sound name ha.mem_names).waiting_of_early ha.before).1)
  exact absurd (h parent name hp hb (ha.exchange ▸ hx)).1 ha.before

theorem Attuned.normalize (h : w.Attuned setup) (valid : setup.Valid) (hinv : w.Inv setup)
    {divisor : K} (hn : name ∈ setup.problem.names) (ha : (w name).ascent = .dividing divisor) :
    (w.normalize setup name divisor).Attuned setup := by
  have hclosed : (w name).ascent.stage = .closed := by rw [ha]; rfl
  have hs : (w name).ascent.stage ≠ .normalized := by simp [hclosed]
  obtain ⟨hwaiting, -, hparent⟩ := (hinv.sound name hn).exchange_normalized hs divisor
  refine h.rewrite_waiting valid (fun _ => id)
    (fun child hc => .dividing (hinv.child_reported valid hclosed hc) divisor)
    (fun parent hp hb hx => ?_) hwaiting
  exact absurd (h parent name hp hb ((hparent (by simp [hp])).2 hx)).1 hs

/-- A variable that takes a context over knows what it says, which is what its parent has handed
down. -/
theorem Attuned.take (h : w.Attuned setup) (valid : setup.Valid) (hinv : w.Inv setup)
    {context : Context} (hn : name ∈ setup.problem.names) (hx : (w name).exchange = .asked context)
    (hs : (w name).ascent.stage = .normalized) :
    (w.update name ((w name).taking context)).Attuned setup := by
  have hstate := (hinv.sound name hn).sampling hs
  obtain ⟨hkeys, hslots⟩ := hinv.covers_of_asked valid hn hx hs
  obtain ⟨parent, hp, -, -, hentries, -⟩ := hinv.context_of_asked valid hn hx
  refine h.rewrite_waiting valid (by simp) (by simp) (fun q hq hb _ => ⟨hs, ?_⟩) rfl
  obtain rfl : parent = q := Option.some.inj (hp.symm.trans hq)
  intro slot hslot
  have hmem : slot ∈ ((w name).state.assign context.entries).slots := hslot
  rw [hstate.slots_assign hkeys, List.mem_map] at hmem
  obtain ⟨old, hold, rfl⟩ := hmem
  obtain ⟨entry, hm, hname⟩ := List.mem_map.mp (hslots old hold)
  obtain ⟨value, hv⟩ := Option.isSome_iff_exists.mp
    (List.lookup_isSome_iff.mpr ⟨entry, hm, by simp [hname]⟩ :
      (context.entries.lookup old.name).isSome)
  show (context.entries.lookup old.name).or old.value = (w parent).state.handed.lookup old.name
  rw [← hentries, hv, Option.some_or]

theorem Attuned.count (h : w.Attuned setup) (valid : setup.Valid) (hinv : w.Inv setup)
    {parent : String} {cost : Option K} (hp : setup.parent name = some parent)
    (hx : (w name).exchange = .answered cost) : (w.count parent name cost).Attuned setup := by
  obtain ⟨final, hb, -⟩ := hinv.busy_of_answered valid hp hx
  have hchild := valid.mem_children.mpr hp
  have hknows := h parent name hp (by simp [hb, Exchange.stance]) (by rw [hx]; rfl)
  refine h.rewrite valid (by simpa using hchild) (fun child hc => ?_) (h · parent)
    fun child hc hcb hcx => ?_
  · obtain rfl := List.mem_singleton.mp hc
    exact ⟨rfl, rfl, rfl, by simp [hx, Exchange.stance], by simp⟩
  · have hne : child ≠ parent := fun he => valid.not_mem_children_self parent (he ▸ hc)
    by_cases hcn : child = name
    · subst hcn
      rw [rewrite_child (by simp) hne]
      exact hknows
    · rw [rewrite_other hne (by simpa using hcn)] at hcx ⊢
      exact h parent child (valid.mem_children.mp hc) hcb hcx

omit [CostArithmetic K] in
theorem Attuned.act (h : w.Attuned setup) (valid : setup.Valid) {final : Bool} {act : Act K}
    {state : SamplingState K}
    (hx : (w name).exchange = .poised final ∨ (w name).exchange = .busy final)
    (hidle : ∀ child ∈ setup.children name, (w child).exchange = .idle)
    (hslots : state.slots = (w name).state.slots) :
    (w.act setup name act final state).Attuned setup := by
  have haddressees : ∀ child ∈ act.addressees (setup.children name),
      child ∈ setup.children name := fun _ => Act.mem_of_addressed
  refine h.rewrite valid haddressees (fun child hc => ?_) (fun parent hp hb _ => ?_)
    fun child hc hb hcx => ?_
  · exact .asked (hidle child (haddressees child hc)) _
  · have hcontext : (w name).exchange.context? = none := by
      rcases hx with hx | hx <;> rw [hx] <;> rfl
    obtain ⟨hs, hfollows⟩ := h parent name hp hb hcontext
    exact ⟨hs, hfollows.of_slots hslots⟩
  · have hne : child ≠ name := fun he => valid.not_mem_children_self name (he ▸ hc)
    cases act with
    | report cost => exact absurd rfl hb
    | sample =>
      rw [rewrite_child (by exact hc) hne] at hcx
      cases hcx
    | finish =>
      rw [rewrite_child (by exact hc) hne] at hcx
      cases hcx

/-- Every step leaves the variables knowing what their parents have handed down. -/
theorem Attuned.step {G : Type} [Generator G] (h : w.Attuned setup) (valid : setup.Valid)
    (hinv : w.Inv setup) {w' : World K} (hs : Step setup G w w') : w'.Attuned setup := by
  cases hs with
  | see hn ha => exact h.prepares valid hinv (prepares_see hn ha)
  | tell hp ha => exact h.prepares valid hinv (hinv.prepares_tell valid hp ha)
  | close hn ha _ => exact h.prepares valid hinv (prepares_close hn ha)
  | normalize hn ha => exact h.normalize valid hinv hn ha
  | keep hn hx hs =>
    refine h.rewrite_waiting valid (by simp) (by simp) (fun parent hp hb hx => ?_) rfl
    cases hx
  | take hn hx hs => exact h.take valid hinv hn hx hs
  | answer _ hn hx hacts =>
    exact h.act valid (.inl hx)
      (fun child hc => hinv.child_idle valid (by simp [hx, Exchange.stance]) hc) hacts.keeps.slots
  | count hp hx => exact h.count valid hinv hp hx
  | join _ hn hx hr hacts =>
    exact h.act valid (.inr hx) (hinv.idle_of_received hn hx hr) hacts.keeps.slots

theorem Attuned.steps {G : Type} [Generator G] (h : w.Attuned setup) (valid : setup.Valid)
    (hinv : w.Inv setup) {w' : World K} (hs : Steps setup G w w') : w'.Attuned setup := by
  induction hs with
  | refl => exact h
  | tail hs hstep ih => exact ih.step valid (hinv.steps valid hs) hstep

/-- The parent of a variable that has ended has ended before. -/
theorem Inv.ended_parent (h : w.Inv setup) {parent : String} (hp : setup.parent name = some parent)
    (hx : (w name).exchange = .ended) : (w parent).exchange = .ended := by
  have hadmits := (h.linked parent name hp).exchange
  rw [hx] at hadmits
  cases hpx : (w parent).exchange <;> simp [hpx, Exchange.stance, Stance.Admits] at hadmits ⊢

/-- A variable that has ended knows the values that its ancestors have ended with. -/
theorem Attuned.ended (h : w.Attuned setup) (valid : setup.Valid) (hinv : w.Inv setup)
    (hn : name ∈ setup.problem.names) (hx : (w name).exchange = .ended) :
    ∀ slot ∈ (w name).state.slots, slot.name ∈ setup.problem.names ∧
      (w slot.name).exchange = .ended ∧ slot.value = some (w slot.name).state.currentValue := by
  revert hn hx
  induction name using valid.spans.induction_down with
  | step name ih =>
    intro hn hx slot hslot
    have hsound := hinv.sound name hn
    obtain ⟨hs, hinformed, -⟩ := hsound.of_ended hx
    cases hp : setup.parent name with
    | none =>
      have hm := List.mem_map_of_mem (f := Slot.name) hslot
      rw [hsound.slots hs, Std.ExtTreeSet.mem_toList] at hm
      rcases hsound.above _ hm with ha | ⟨-, hr⟩
      · exact absurd ha (Setup.not_above_root hp)
      · simp [hsound.reported, hs] at hr
    | some parent =>
      have hpn := (valid.mem_names hp).1
      have hpx := hinv.ended_parent hp hx
      obtain ⟨-, hfollows⟩ := h parent name hp (by simp [hpx, Exchange.stance]) (by rw [hx]; rfl)
      obtain ⟨value, hv⟩ := Option.isSome_iff_exists.mp (hinformed slot hslot)
      have hlookup := (hfollows slot hslot).symm.trans hv
      obtain ⟨before, after, hsplit, -⟩ := List.lookup_eq_some_iff.mp hlookup
      have hm : (slot.name, value) ∈ (w parent).state.handed := by simp [hsplit]
      rcases List.mem_append.mp hm with hm | hm
      · obtain ⟨upper, hupper, he⟩ := List.mem_map.mp hm
        obtain ⟨hname, hvalue⟩ := Prod.mk.inj he
        have hended := ih parent hp hpn hpx upper hupper
        rw [hended.2.2, Option.getD_some] at hvalue
        rw [← hname, hv, ← hvalue]
        exact ⟨hended.1, hended.2.1, rfl⟩
      · obtain ⟨hname, hvalue⟩ : slot.name = (w parent).state.name ∧
            value = (w parent).state.currentValue := by simpa using hm
        rw [hname, (hinv.sound parent hpn).named, hv, hvalue]
        exact ⟨hpn, hpx, rfl⟩

end World

end DcopSearch
