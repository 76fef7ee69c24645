import DcopSearch.Proofs.Protocol.Gathering

/-! The exchange of contexts and costs keeps the invariant.  A variable that takes a context over knows
all it has to know, since its parent knew it; while it waits for its children nothing that they were
told changes. -/

namespace DcopSearch

variable {K : Type}

/-- The parent of a variable at work waits for it, and has ended if the work is final. -/
theorem Stance.Admits.stance_eq {stance : Stance} {exchange : Exchange K} {final : Bool}
    (h : stance.Admits exchange) (hx : exchange = .poised final ∨ exchange = .busy final) :
    stance = if final then .ended else .busy := by
  rcases hx with rfl | rfl <;> cases stance <;> cases final <;> first | rfl | exact h.elim

variable [CostArithmetic K] {setup : Setup K} {w : World K}

namespace Cell

/-- An act leaves a variable where it says. -/
theorem Sound.acting {c : Cell K} {name : String} {final : Bool} {act : Act K} {G : Type}
    {reaction : Reaction K G} (h : c.Sound setup name) (hworking : c.Working setup name final)
    (hparent : c.state.parentFinished = final ∨
      c.state.parentFinished = (setup.parent name).isNone)
    (hacts : reaction.Acts setup.problem setup.config.delta c.state.settled final act) :
    (c.acting act final reaction.state).Sound setup name := by
  have hkeeps := hacts.keeps
  have hleaves := hacts.leaves
  have hinformed : reaction.state.Informed := hkeeps.informed hworking.informed
  have hexchanging : (c.acting act final reaction.state).Exchanging setup name := by
    cases act with
    | report cost =>
      obtain ⟨rfl, hphase, hpf⟩ := hleaves
      have hsome : (setup.parent name).isNone = false := by
        cases hp : setup.parent name with
        | none => simpa using hworking.root hp
        | some parent => rfl
      refine ⟨⟨hworking.stage, hinformed, hphase.trans hworking.phase, hworking.root⟩,
        hkeeps.round, hpf.trans ?_⟩
      exact hparent.elim (fun hpf => hpf.trans hsome.symm) id
    | sample =>
      obtain ⟨hleaf, hphase, hpf, hcurrent, hactive⟩ := hleaves
      refine ⟨⟨hworking.stage, hinformed, hphase.trans hworking.phase, hworking.root⟩, ?_, ?_,
        hcurrent, hactive⟩
      · have hroot : (setup.parent name).isNone = true → final = true := fun hr =>
          hworking.root (Option.isNone_iff_eq_none.mp hr)
        have hpf : reaction.state.parentFinished = (final || c.state.parentFinished) := hpf
        rcases hparent with hpf' | hpf' <;> rw [hpf'] at hpf
        · exact hpf.trans (Bool.or_self final)
        · refine hpf.trans ?_
          cases hs : (setup.parent name).isNone with
          | true => rw [hroot hs]; rfl
          | false => simp
      · have hc : reaction.state.children = setup.children name :=
          hkeeps.children.trans h.children
        rw [← hc]
        simpa [SamplingState.isLeaf] using hleaf
    | finish => exact ⟨hworking.stage, hinformed, hleaves.2⟩
  exact { h with
    named := hkeeps.name.trans h.named
    parent := hkeeps.parent.trans h.parent
    children := hkeeps.children.trans h.children
    registered := fun hd => absurd hworking.stage hd
    sampling := fun _ => hacts.sound
    slots := fun hd => (congrArg _ hkeeps.slots).trans (h.slots hd)
    exchanging := hexchanging }

theorem Sound.asked {c : Cell K} {name : String} (h : c.Sound setup name)
    (hx : c.exchange = .idle) (hp : setup.parent name ≠ none) (context : Context) :
    Sound setup name { c with exchange := .asked context } := by
  have hwaiting := (h.of_idle hx).1
  exact { h with
    registered := fun hd => (h.registered hd).trans (by rw [hx]; rfl)
    exchanging := ⟨⟨⟨hwaiting.round, hwaiting.parentFinished⟩, hwaiting.phase⟩, hp⟩ }

/-- A parent that waits for a variable at work can make something of its act. -/
theorem Linked.acting {parent c : Cell K} {name : String} {final : Bool} {act : Act K}
    {G : Type} {reaction : Reaction K G} (h : Linked setup parent name c)
    (hx : c.exchange = .poised final ∨ c.exchange = .busy final)
    (hacts : reaction.Acts setup.problem setup.config.delta c.state.settled final act) :
    Linked setup parent name (c.acting act final reaction.state) := by
  have hleaves := hacts.leaves
  refine ⟨h.ascent, ?_, h.covers, ?_⟩
  · rw [h.exchange.stance_eq hx]
    cases act with
    | report cost =>
      obtain ⟨rfl, -, -⟩ := hleaves
      trivial
    | sample => cases final <;> trivial
    | finish =>
      obtain ⟨rfl, -⟩ := hleaves
      trivial
  · cases act <;> simp [Cell.acting, Act.exchange, Exchange.context?]

/-- A variable stays at work when it counts the answer of a child. -/
theorem Sound.counting {name : String} {c : Cell K} {final : Bool} {cost : Option K}
    (h : c.Sound setup name) (hx : c.exchange = .busy final) (hbusy : c.Busy setup name final) :
    (c.counting cost).Sound setup name :=
  { h with
    registered := fun hd => absurd hbusy.stage hd
    sampling := fun hd => (h.sampling hd).setPhase _ _ _
    exchanging := by
      simp only [Cell.Exchanging, Cell.counting, hx]
      exact ⟨⟨hbusy.stage, hbusy.informed, hbusy.phase, hbusy.root⟩, hbusy.parentFinished,
        hbusy.nonleaf, hbusy.current, hbusy.active⟩ }

/-- A variable whose answer has been counted waits for the next context. -/
theorem Sound.counted {name parent : String} {c : Cell K} {cost : Option K}
    (h : c.Sound setup name) (hp : setup.parent name = some parent)
    (hx : c.exchange = .answered cost) :
    Cell.Sound setup name { c with exchange := .idle } := by
  obtain ⟨hworking, hquiet⟩ := h.of_answered hx
  exact { h with
    registered := fun hd => absurd hworking.stage hd
    exchanging := ⟨⟨⟨hquiet.round, hquiet.parentFinished⟩, fun _ => .inr hworking.phase⟩,
      fun _ => by simp [hp]⟩ }

end Cell

namespace World

theorem Inv.keep (valid : setup.Valid) (h : w.Inv setup) {name : String} {context : Context}
    (hn : name ∈ setup.problem.names) (hx : (w name).exchange = .asked context)
    (hs : (w name).ascent.stage ≠ .normalized) :
    (w.update name ((w name).keeping context)).Inv setup := by
  have hsound := h.sound name hn
  obtain ⟨hwaiting, hparent⟩ := hsound.of_asked hx
  have hnew : ((w name).keeping context).Sound setup name :=
    { hsound with
      registered := fun _ => by simp only [Cell.keeping, hsound.registered hs, Exchange.buffered]
      sampling := fun hd => absurd hd hs
      exchanging := ⟨⟨hwaiting.round, hwaiting.parentFinished⟩, hparent, hs⟩ }
  refine h.update valid hnew (fun parent hp => ?_) (fun child hc => ?_) ?_
  · have hl := h.linked parent name hp
    refine ⟨⟨hl.ascent, ?_, hl.covers, ?_⟩, rfl, by simp [hx, Cell.keeping, Exchange.isIdle]⟩
    · have hadmit := hl.exchange
      rw [hx] at hadmit
      revert hadmit
      cases (w parent).exchange.stance <;> simp [Cell.keeping, Stance.Admits]
    · intro other ho
      exact hl.context other (by rw [hx]; exact ho)
  · have hl := h.linked name child (valid.mem_children.mp hc)
    have hidle := h.child_idle_of_early valid hn hs hc
    refine ⟨hl.ascent, ?_, hl.covers, by simp [hidle, Exchange.context?]⟩
    rw [hidle]
    trivial
  · exact ⟨(h.counts name hn).gathering, fun hb => by simp [Cell.keeping, Exchange.stance] at hb⟩

/-- A variable with children at work is informed and sound, and knows the separator that it was
normalized with. -/
theorem Inv.handing (h : w.Inv setup) {name : String} (hn : name ∈ setup.problem.names)
    (hs : (w name).exchange.stance ≠ .waiting) :
    (w name).ascent.stage = .normalized ∧ (w name).state.Informed ∧
      (w name).state.Sound setup.problem := by
  have hsound := h.sound name hn
  cases hx : (w name).exchange with
  | busy final =>
    have hbusy := hsound.of_busy hx
    exact ⟨hbusy.stage, hbusy.informed, hsound.sampling hbusy.stage⟩
  | ended =>
    obtain ⟨hstage, hinformed, -⟩ := hsound.of_ended hx
    exact ⟨hstage, hinformed, hsound.sampling hstage⟩
  | _ => simp [hx, Exchange.stance] at hs

/-- The context that is under way comes from a parent that knows what it says, and speaks of all that
matters to the receiver. -/
theorem Inv.context_of_asked (valid : setup.Valid) (h : w.Inv setup) {name : String}
    {context : Context} (hn : name ∈ setup.problem.names)
    (hx : (w name).exchange = .asked context) :
    ∃ parent, setup.parent name = some parent ∧ context.sender = parent ∧
      context.receiver = name ∧ context.entries = (w parent).state.handed ∧
      (w parent).exchange.stance = (if context.final then .ended else .busy) ∧
      (w parent).state.Informed ∧ (w parent).state.Sound setup.problem ∧
      ∀ other ∈ (w name).range.separator, (w name).ascent.isHeard = true →
        other ∈ (w parent).state.contextNames := by
  obtain ⟨parent, hp⟩ := Option.ne_none_iff_exists'.mp ((h.sound name hn).of_asked hx).2
  have hl := h.linked parent name hp
  have hpn := (valid.mem_names hp).1
  have hstance : (w parent).exchange.stance ≠ .waiting := by
    intro hs
    have := hl.exchange
    simp [hx, hs, Stance.Admits] at this
  obtain ⟨hstage, hinformed, hsound⟩ := h.handing hpn hstance
  have hcontext := hl.context context (by simp [hx, Exchange.context?])
  refine ⟨parent, hp, ?_, by rw [hcontext]; rfl, by rw [hcontext]; rfl, ?_, hinformed, hsound,
    fun other ho hh => ?_⟩
  · rw [hcontext]; exact (h.sound parent hpn).named
  · rw [hcontext]
    cases hs : (w parent).exchange.stance <;> simp [SamplingState.contextTo, hs] at hstance ⊢
  · rw [SamplingState.contextNames, (h.sound parent hpn).slots hstage, List.mem_append,
      Std.ExtTreeSet.mem_toList, List.mem_singleton, (h.sound parent hpn).named]
    rcases hl.covers hh other ho with hm | hm
    · exact .inl hm
    · exact .inr (Option.some.inj (hp.symm.trans hm)).symm

/-- A variable that is asked has a parent that is normalized, so that its divisor is on the way. -/
theorem Inv.ascent_of_asked (valid : setup.Valid) (h : w.Inv setup) {name : String}
    {context : Context} (hn : name ∈ setup.problem.names)
    (hx : (w name).exchange = .asked context) :
    (∃ divisor, (w name).ascent = .dividing divisor) ∨ (w name).ascent = .normalized := by
  obtain ⟨parent, hp, -, -, -, hstance, -⟩ := h.context_of_asked valid hn hx
  have hstage := (h.handing (valid.mem_names hp).1 (by rw [hstance]; split <;> simp)).1
  have hl := (h.linked parent name hp).ascent
  rwa [hstage] at hl

/-- A context that is taken over speaks of each name once, and of all slots. -/
theorem Inv.covers_of_asked (valid : setup.Valid) (h : w.Inv setup) {name : String}
    {context : Context} (hn : name ∈ setup.problem.names)
    (hx : (w name).exchange = .asked context) (hs : (w name).ascent.stage = .normalized) :
    (context.entries.map Prod.fst).Nodup ∧
      ∀ slot ∈ (w name).state.slots, slot.name ∈ context.entries.map Prod.fst := by
  obtain ⟨parent, -, -, -, hentries, -, -, hpsound, hcovers⟩ := h.context_of_asked valid hn hx
  have hheard : (w name).ascent.isHeard = true := by
    cases ha : (w name).ascent <;> simp [ha, Ascent.stage, Ascent.isHeard] at hs ⊢
  rw [hentries, SamplingState.handed, SamplingState.map_fst_entries]
  refine ⟨hpsound.names, fun slot hslot => hcovers slot.name ?_ hheard⟩
  rw [← Std.ExtTreeSet.mem_toList, ← (h.sound name hn).slots hs]
  exact List.mem_map_of_mem hslot

theorem Inv.take (valid : setup.Valid) (h : w.Inv setup) {name : String} {context : Context}
    (hn : name ∈ setup.problem.names) (hx : (w name).exchange = .asked context)
    (hs : (w name).ascent.stage = .normalized) :
    (w.update name ((w name).taking context)).Inv setup := by
  have hsound := h.sound name hn
  obtain ⟨hwaiting, hparent⟩ := hsound.of_asked hx
  obtain ⟨parent, hp, -, -, hentries, hstance, hpinformed, hpsound, -⟩ :=
    h.context_of_asked valid hn hx
  obtain ⟨hkeys, hslots⟩ := h.covers_of_asked valid hn hx hs
  have hstate := hsound.sampling hs
  have hallowed : ∀ entry ∈ context.entries, setup.problem.Allows entry.1 entry.2 := by
    intro entry he
    rw [hentries] at he
    exact hpsound.allows_entries hpinformed (hpsound.currentValue_mem valid.wellFormed) he
  have hinformed := hstate.informed_assign hkeys hslots
  have hnew : ((w name).taking context).Sound setup name :=
    { hsound with
      registered := fun hd => absurd hs hd
      sampling := fun _ => (hstate.assign hkeys hallowed).setPhase .sampling _ _
      slots := fun _ => (hstate.map_name_assign hkeys).trans (hsound.slots hs)
      exchanging := ⟨⟨hs, hinformed, rfl, fun hr => absurd hr hparent⟩,
        ⟨hwaiting.round, hwaiting.parentFinished⟩⟩ }
  refine h.update valid hnew (fun q hq => ?_) (fun child hc => ?_) ?_
  · obtain rfl : parent = q := Option.some.inj (hp.symm.trans hq)
    have hl := h.linked parent name hp
    refine ⟨⟨hl.ascent, ?_, hl.covers, by simp [Cell.taking, Exchange.context?]⟩, rfl,
      by simp [hx, Cell.taking, Exchange.isIdle]⟩
    rw [hstance]
    cases hf : context.final <;> simp [Cell.taking, hf, Stance.Admits]
  · have hl := h.linked name child (valid.mem_children.mp hc)
    have hidle := h.child_idle valid (by simp [hx, Exchange.stance]) hc
    refine ⟨hl.ascent, ?_, hl.covers, by simp [hidle, Exchange.context?]⟩
    rw [hidle]
    trivial
  · exact ⟨(h.counts name hn).gathering, fun hb => by simp [Cell.taking, Exchange.stance] at hb⟩

/-- Only a variable at work has children whose reports are under way. -/
theorem Inv.busy_of_answered (valid : setup.Valid) (h : w.Inv setup) {parent name : String}
    {cost : Option K} (hp : setup.parent name = some parent)
    (hx : (w name).exchange = .answered cost) :
    ∃ final, (w parent).exchange = .busy final ∧ (w parent).Busy setup parent final := by
  have hl := (h.linked parent name hp).exchange
  rw [hx] at hl
  cases hb : (w parent).exchange with
  | busy final => exact ⟨final, rfl, (h.sound parent (valid.mem_names hp).1).of_busy hb⟩
  | _ => simp [hb, Exchange.stance, Stance.Admits] at hl

omit [CostArithmetic K] in
theorem near_act {name : String} {act : Act K} {final : Bool} {state : SamplingState K}
    (hidle : ∀ child ∈ setup.children name, (w child).exchange = .idle) :
    Near name w (w.act setup name act final state) := by
  exact near_rewrite fun child hc => .asked (hidle child (Act.mem_of_addressed hc)) _

theorem near_count {parent name : String} {cost : Option K}
    (hx : (w name).exchange = .answered cost) : Near parent w (w.count parent name cost) := by
  refine near_rewrite fun child hc => ?_
  obtain rfl := List.mem_singleton.mp hc
  exact ⟨rfl, rfl, rfl, by simp [hx, Exchange.stance], by simp⟩

theorem Inv.count (valid : setup.Valid) (h : w.Inv setup) {parent name : String}
    {cost : Option K} (hp : setup.parent name = some parent)
    (hx : (w name).exchange = .answered cost) : (w.count parent name cost).Inv setup := by
  obtain ⟨hpn, hn⟩ := valid.mem_names hp
  obtain ⟨final, hb, hbusy⟩ := h.busy_of_answered valid hp hx
  have hsound := h.sound parent hpn
  have hchild := valid.mem_children.mpr hp
  have hne : name ≠ parent := fun he => valid.not_mem_children_self parent (he ▸ hchild)
  have hother : ∀ child ∈ setup.children parent, child ≠ name →
      w.count parent name cost child = w child := fun child hc hcn =>
    rewrite_other (fun he => valid.not_mem_children_self parent (he ▸ hc)) (by simpa using hcn)
  have hself : w.count parent name cost name = { w name with exchange := .idle } :=
    rewrite_child (by simp) hne
  unfold World.count at hother hself ⊢
  refine h.rewrite valid (by simpa using hchild) (fun child hc => ?_) (hsound.counting hb hbusy)
    (fun child hc => ?_) (fun q hq => ⟨?_, rfl, rfl⟩) (fun child hc => ?_) ⟨?_, fun _ => ?_⟩
  · obtain rfl := List.mem_singleton.mp hc
    exact ⟨rfl, rfl, rfl, by simp [hx, Exchange.stance], by simp⟩
  · obtain rfl := List.mem_singleton.mp hc
    exact (h.sound child hn).counted hp hx
  · have hl := h.linked q parent hq
    exact ⟨hl.ascent, hl.exchange, hl.covers, hl.context⟩
  · have hl := h.linked parent child (valid.mem_children.mp hc)
    by_cases hcn : child = name
    · subst hcn
      rw [hself]
      refine ⟨hl.ascent, ?_, hl.covers, by simp [Exchange.context?]⟩
      simp [Cell.counting, hb, Exchange.stance, Stance.Admits]
    · rw [hother child hc hcn]
      exact ⟨hl.ascent, hl.exchange, hl.covers, hl.context⟩
  · simp [Cell.counting, hsound.reported, hbusy.stage]
  · have hflip := countP_eq_succ (p := fun child => (w child).exchange.isIdle)
      (q := fun child => (w.count parent name cost child).exchange.isIdle)
      (valid.nodup_children parent) hchild (by simp [hx, Exchange.isIdle])
      (by
        unfold World.count
        rw [hself]
        rfl)
      fun child hc hcn => by
        unfold World.count
        rw [hother child hc hcn]
    have hold := (h.counts parent hpn).busy (by simp [hb, Exchange.stance])
    calc (w parent).state.round.received + 1
        = (setup.children parent).countP (fun child => (w child).exchange.isIdle) + 1 := by
          rw [hold]
      _ = _ := hflip.symm

/-- A variable that has heard from all its children acts. -/
theorem Inv.act (valid : setup.Valid) (h : w.Inv setup) {name : String} {final : Bool}
    {act : Act K} {G : Type} {reaction : Reaction K G} (hn : name ∈ setup.problem.names)
    (hworking : (w name).Working setup name final)
    (hx : (w name).exchange = .poised final ∨ (w name).exchange = .busy final)
    (hidle : ∀ child ∈ setup.children name, (w child).exchange = .idle)
    (hparent : (w name).state.parentFinished = final ∨
      (w name).state.parentFinished = (setup.parent name).isNone)
    (hacts : reaction.Acts setup.problem setup.config.delta (w name).state.settled final act) :
    (w.act setup name act final reaction.state).Inv setup := by
  have hsound := h.sound name hn
  have hne : ∀ child ∈ setup.children name, child ≠ name := fun child hc he =>
    valid.not_mem_children_self name (he ▸ hc)
  refine h.rewrite valid (fun _ => Act.mem_of_addressed) (fun child hc => ?_)
    (hsound.acting hworking hparent hacts) (fun child hc => ?_)
    (fun parent hp => ⟨(h.linked parent name hp).acting hx hacts, rfl, ?_⟩) (fun child hc => ?_)
    ⟨?_, fun hb => ?_⟩
  · exact .asked (hidle child (Act.mem_of_addressed hc)) _
  · have hc := Act.mem_of_addressed hc
    exact (h.sound child (valid.mem_names_of_child hc)).asked (hidle child hc)
      (by simp [valid.mem_children.mp hc]) _
  · rcases hx with hx | hx <;> cases act <;> simp [hx, Cell.acting, Act.exchange, Exchange.isIdle]
  · have hl := h.linked name child (valid.mem_children.mp hc)
    show Cell.Linked setup _ child (w.act setup name act final reaction.state child)
    cases act with
    | report cost =>
      rw [act_report (hne child hc)]
      refine ⟨hl.ascent, ?_, hl.covers, by simp [hidle child hc, Exchange.context?]⟩
      rw [hidle child hc]
      trivial
    | sample =>
      rw [act_sample hc (hne child hc)]
      refine ⟨hl.ascent, trivial, hl.covers, fun context hcontext => ?_⟩
      exact (Option.some.inj hcontext).symm
    | finish =>
      rw [act_finish hc (hne child hc)]
      refine ⟨hl.ascent, trivial, hl.covers, fun context hcontext => ?_⟩
      exact (Option.some.inj hcontext).symm
  · simp [Cell.acting, hsound.reported, hworking.stage]
  · cases act with
    | report cost => cases hb
    | finish => cases hb
    | sample =>
      have hround : reaction.state.round.received = 0 := by
        rw [hacts.keeps.round]
        rfl
      refine hround.trans (List.countP_eq_zero.mpr fun child hc => ?_).symm
      show ¬(w.act setup name .sample final reaction.state child).exchange.isIdle = true
      rw [act_sample hc (hne child hc)]
      exact Bool.false_ne_true

theorem Inv.idle_of_received (h : w.Inv setup) {name : String} {final : Bool}
    (hn : name ∈ setup.problem.names) (hx : (w name).exchange = .busy final)
    (hround : (w name).state.round.received = (setup.children name).length) :
    ∀ child ∈ setup.children name, (w child).exchange = .idle := by
  intro child hc
  have hcount := (h.counts name hn).busy (by simp [hx, Exchange.stance])
  have hidle := List.countP_eq_length.mp (hcount.symm.trans hround) child hc
  cases he : (w child).exchange <;> simp [he, Exchange.isIdle] at hidle ⊢

theorem Inv.answer (valid : setup.Valid) (h : w.Inv setup) {name : String} {final : Bool}
    {act : Act K} {G : Type} {reaction : Reaction K G} (hn : name ∈ setup.problem.names)
    (hx : (w name).exchange = .poised final)
    (hacts : reaction.Acts setup.problem setup.config.delta (w name).state final act) :
    (w.act setup name act final reaction.state).Inv setup := by
  obtain ⟨hworking, hquiet⟩ := (h.sound name hn).of_poised hx
  have hsettled : (w name).state.settled = (w name).state := by
    rw [SamplingState.settled, ← hquiet.round]
  exact h.act valid hn hworking (.inl hx)
    (fun child hc => h.child_idle valid (by simp [hx, Exchange.stance]) hc)
    (.inr hquiet.parentFinished) (hsettled.symm ▸ hacts)

theorem Inv.join (valid : setup.Valid) (h : w.Inv setup) {name : String} {final : Bool}
    {act : Act K} {G : Type} {reaction : Reaction K G} (hn : name ∈ setup.problem.names)
    (hx : (w name).exchange = .busy final)
    (hround : (w name).state.round.received = (setup.children name).length)
    (hacts : reaction.Acts setup.problem setup.config.delta (w name).state.settled final act) :
    (w.act setup name act final reaction.state).Inv setup := by
  have hbusy := (h.sound name hn).of_busy hx
  exact h.act valid hn hbusy.toWorking (.inr hx) (h.idle_of_received hn hx hround)
    (.inl hbusy.parentFinished) hacts

/-- Every step keeps the invariant. -/
theorem Inv.step {G : Type} [Generator G] (valid : setup.Valid) {w' : World K} (h : w.Inv setup)
    (hs : Step setup G w w') : w'.Inv setup := by
  cases hs with
  | see hn ha => exact h.see valid hn ha
  | tell hp ha => exact h.tell valid hp ha
  | close hn ha hc => exact h.close valid hn ha hc
  | normalize hn ha => exact h.normalize valid hn ha
  | keep hn hx hs => exact h.keep valid hn hx hs
  | take hn hx hs => exact h.take valid hn hx hs
  | answer _ hn hx hacts => exact h.answer valid hn hx hacts
  | count hp hx => exact h.count valid hp hx
  | join _ hn hx hr hacts => exact h.join valid hn hx hr hacts

theorem Inv.steps {G : Type} [Generator G] (valid : setup.Valid) {w' : World K} (h : w.Inv setup)
    (hs : Steps setup G w w') : w'.Inv setup := by
  induction hs with
  | refl => exact h
  | tail _ hs ih => exact ih.step valid hs

/-- After normalization the range stays as it is. -/
theorem Inv.range_of_step {G : Type} [Generator G] (valid : setup.Valid) {w' : World K}
    (h : w.Inv setup) (hs : Step setup G w w') {name : String}
    (hn : (w name).ascent.stage = .normalized) :
    (w' name).range = (w name).range ∧ (w' name).ascent.stage = .normalized := by
  have hnear : ∀ actor, Near actor w w' →
      ((w' actor).range = (w actor).range ∧ (w' actor).ascent = (w actor).ascent ∨
        (w actor).ascent.stage ≠ .normalized) →
      (w' name).range = (w name).range ∧ (w' name).ascent.stage = .normalized := by
    intro actor hnear hactor
    by_cases he : name = actor
    · subst he
      obtain ⟨hr, ha⟩ := hactor.resolve_right fun hc => hc hn
      exact ⟨hr, by rw [ha, hn]⟩
    · exact ⟨(hnear name he).range, by rw [(hnear name he).stage, hn]⟩
  cases hs with
  | @see actor _ ha => exact hnear actor (near_update _ _ _) (.inr (by simp [ha, Ascent.stage]))
  | @tell parent child hp ha => exact hnear parent (near_tell ha) (.inr (h.early_of_reporting hp ha))
  | @close actor _ ha => exact hnear actor (near_update _ _ _) (.inr (by simp [ha, Ascent.stage]))
  | @normalize actor divisor _ ha =>
    exact hnear actor (h.near_normalize valid ha) (.inr (by simp [ha, Ascent.stage]))
  | @keep actor context _ _ hs => exact hnear actor (near_update _ _ _) (.inr hs)
  | @take actor context => exact hnear actor (near_update _ _ _) (.inl (by simp [Cell.taking]))
  | @answer actor final act generator _ hx _ =>
    refine hnear actor (near_act fun child hc =>
      h.child_idle valid (by simp [hx, Exchange.stance]) hc) (.inl ?_)
    simp [World.act, Cell.acting]
  | @count parent child cost hp hx =>
    exact hnear parent (near_count hx) (.inl (by simp [World.count, Cell.counting]))
  | @join actor final act generator hna hx hr _ =>
    refine hnear actor (near_act (h.idle_of_received hna hx hr)) (.inl ?_)
    simp [World.act, Cell.acting]

theorem Inv.range_of_steps {G : Type} [Generator G] (valid : setup.Valid) {w' : World K}
    (h : w.Inv setup) (hs : Steps setup G w w') {name : String}
    (hn : (w name).ascent.stage = .normalized) :
    (w' name).range = (w name).range ∧ (w' name).ascent.stage = .normalized := by
  induction hs with
  | refl => exact ⟨rfl, hn⟩
  | tail hsteps hs ih =>
    obtain ⟨hr, ha⟩ := (h.steps valid hsteps).range_of_step valid hs ih.2
    exact ⟨hr.trans ih.1, ha⟩

end World

end DcopSearch
