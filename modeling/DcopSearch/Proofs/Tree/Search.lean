import DcopSearch.Tree.DepthFirst
import Mathlib.Data.List.Nodup
import Mathlib.Logic.Relation

/-! What a depth-first search finds out.  Every vertex is found once, after the vertex that it is a
child of; a back link leads to an ancestor; and two neighbours are joined by a link in one direction
or the other.  The last holds since a vertex is left only when all its neighbours have been looked
at, and a neighbour that was left before is a descendant which has looked at the vertex itself. -/

namespace DcopSearch

namespace Link

/-- The vertex that a link finds. -/
def found? : Link → Option String
  | root name => some name
  | tree _ child => some child
  | back _ _ => none

/-- The vertices that links find, in the order of the links. -/
def found (links : List Link) : List String := links.filterMap found?

/-- The first vertex is a proper ancestor of the second one by the tree links. -/
def Above (links : List Link) : String → String → Prop :=
  Relation.TransGen fun parent child => tree parent child ∈ links

/-- Two vertices are joined by a tree link or a back link. -/
def Joined (links : List Link) (x y : String) : Prop :=
  tree x y ∈ links ∨ tree y x ∈ links ∨ back x y ∈ links ∨ back y x ∈ links

theorem found_append (links more : List Link) :
    found (links ++ more) = found links ++ found more := List.filterMap_append

theorem Joined.symm {links : List Link} {x y : String} (h : Joined links x y) :
    Joined links y x := by
  unfold Joined at *; tauto

theorem Joined.append {links : List Link} {x y : String} (h : Joined links x y)
    (more : List Link) : Joined (links ++ more) x y := by
  unfold Joined at *; simp only [List.mem_append]; tauto

theorem Above.append {links : List Link} {x y : String} (h : Above links x y)
    (more : List Link) : Above (links ++ more) x y :=
  Relation.TransGen.mono (fun _ _ hl => List.mem_append_left _ hl) _ _ h

theorem mem_found_of_tree {links : List Link} {x y : String} (h : tree x y ∈ links) :
    y ∈ found links := List.mem_filterMap.mpr ⟨_, h, rfl⟩

/-- What determines something that is read off the links once is itself read off once. -/
theorem nodup_of_determines {A B : Type} {links : List Link} {f : Link → Option A}
    {g : Link → Option B} (hn : (links.filterMap f).Nodup) (determined : B → A)
    (hg : ∀ link x, g link = some x → f link = some (determined x)) :
    (links.filterMap g).Nodup := by
  rw [List.nodup_iff_pairwise_ne, List.pairwise_filterMap] at hn ⊢
  refine hn.imp fun {first second} h x hx y hy he => ?_
  exact h _ (hg first x hx) _ (hg second y hy) (congrArg determined he)

end Link

namespace Search

open Link

/-- Each frame is the child of the frame below it, and the innermost one a root. -/
def Chain (links : List Link) : List Frame → Prop
  | [] => True
  | [frame] => .root frame.name ∈ links
  | frame :: parent :: rest =>
    .tree parent.name frame.name ∈ links ∧ Chain links (parent :: rest)

/-- What holds throughout a search of a graph. -/
structure Inv (adjacent : String → List String) (names : List String) (s : Search) : Prop where
  /-- Every vertex is unvisited or found, and found once. -/
  partition : (found s.links ++ s.unvisited).Perm names
  chain : Chain s.links s.path
  /-- A parent is found before its child. -/
  early : ∀ before after parent child, s.links = before ++ .tree parent child :: after →
    parent ∈ found before
  backs : ∀ x y, .back x y ∈ s.links → Above s.links y x
  /-- A vertex is joined with each of its neighbours that is not pending any more. -/
  joined : ∀ x ∈ found s.links, ∀ y ∈ adjacent x,
    Joined s.links x y ∨ ∃ frame ∈ s.path, frame.name = x ∧ y ∈ frame.pending

variable {adjacent : String → List String} {names : List String} {s t : Search}

theorem Chain.append {links : List Link} {path : List Frame} (h : Chain links path)
    (more : List Link) : Chain (links ++ more) path := by
  induction path with
  | nil => trivial
  | cons frame rest ih =>
    cases rest with
    | nil => exact List.mem_append_left _ h
    | cons parent rest => exact ⟨List.mem_append_left _ h.1, ih h.2⟩

theorem Chain.tail {links : List Link} {frame : Frame} {path : List Frame}
    (h : Chain links (frame :: path)) : Chain links path := by
  cases path with
  | nil => trivial
  | cons parent rest => exact h.2

theorem Chain.rename {links : List Link} {frame : Frame} {path : List Frame}
    (h : Chain links (frame :: path)) (other : Frame) (hn : other.name = frame.name) :
    Chain links (other :: path) := by
  cases path with
  | nil => simpa [Chain, hn] using h
  | cons parent rest => simpa [Chain, hn] using h

theorem Chain.mem_found {links : List Link} {frame : Frame} {path : List Frame}
    (h : Chain links (frame :: path)) : frame.name ∈ found links := by
  cases path with
  | nil => exact List.mem_filterMap.mpr ⟨_, h, rfl⟩
  | cons parent rest => exact mem_found_of_tree h.1

/-- The frames below the first one are its ancestors. -/
theorem Chain.above {links : List Link} {frame : Frame} {path : List Frame}
    (h : Chain links (frame :: path)) : ∀ other ∈ path, Above links other.name frame.name := by
  induction path generalizing frame with
  | nil => simp
  | cons parent rest ih =>
    intro other ho
    rcases List.mem_cons.mp ho with rfl | ho
    · exact .single h.1
    · exact (ih h.2 other ho).tail h.1

theorem Inv.start (adjacent : String → List String) (names : List String) :
    Inv adjacent names { unvisited := names } where
  partition := by simp [found]
  chain := trivial
  early := by simp
  backs := by simp
  joined := by simp [found]

theorem Inv.nodup (h : Inv adjacent names s) (hn : names.Nodup) :
    (found s.links ++ s.unvisited).Nodup := h.partition.nodup_iff.mpr hn

/-- A new link that finds a vertex after its parent keeps parents early. -/
theorem early_append {links : List Link} {link : Link}
    (h : ∀ before after parent child, links = before ++ .tree parent child :: after →
      parent ∈ found before)
    (hl : ∀ parent child, link = .tree parent child → parent ∈ found links) :
    ∀ before after parent child, links ++ [link] = before ++ .tree parent child :: after →
      parent ∈ found before := by
  intro before after parent child he
  rcases List.eq_nil_or_concat after with rfl | ⟨rest, last, rfl⟩
  · obtain ⟨rfl, hlink⟩ := List.append_inj' he rfl
    exact hl parent child (by simpa using hlink)
  · rw [List.concat_eq_append, ← List.cons_append, ← List.append_assoc] at he
    obtain ⟨rfl, _⟩ := List.append_inj' he rfl
    exact h before rest parent child rfl

/-- The next component: its first vertex becomes a root. -/
theorem Inv.enterRoot {root : String} {rest : List String} (h : Inv adjacent names s)
    (hp : s.path = []) (hu : s.unvisited = root :: rest) :
    Inv adjacent names { unvisited := rest, path := [⟨root, adjacent root⟩],
                         links := s.links ++ [.root root] } where
  partition := by
    have := h.partition
    rw [hu] at this
    simpa [found_append, found, found?] using this
  chain := by simp [Chain]
  early := early_append h.early (by simp)
  backs := by
    intro x y hb
    exact (h.backs x y (by simpa using hb)).append _
  joined := by
    intro x hx y hy
    rw [found_append] at hx
    rcases List.mem_append.mp hx with hx | hx
    · rcases h.joined x hx y hy with hj | ⟨frame, hf, _⟩
      · exact .inl (hj.append _)
      · simp [hp] at hf
    · obtain rfl : x = root := by simpa [found, found?] using hx
      exact .inr ⟨⟨x, adjacent x⟩, by simp, rfl, hy⟩

theorem Inv.leave {name : String} {below : List Frame} (h : Inv adjacent names s)
    (hp : s.path = ⟨name, []⟩ :: below) : Inv adjacent names { s with path := below } where
  partition := h.partition
  chain := (hp ▸ h.chain).tail
  early := h.early
  backs := h.backs
  joined := by
    intro x hx y hy
    rcases h.joined x hx y hy with hj | ⟨frame, hf, hn, hy⟩
    · exact .inl hj
    · rw [hp] at hf
      rcases List.mem_cons.mp hf with rfl | hf
      · simp at hy
      · exact .inr ⟨frame, hf, hn, hy⟩

theorem Inv.enterChild {name next : String} {pending : List String} {below : List Frame}
    (h : Inv adjacent names s) (hp : s.path = ⟨name, next :: pending⟩ :: below)
    (hu : next ∈ s.unvisited) :
    Inv adjacent names { unvisited := s.unvisited.erase next,
                         path := ⟨next, adjacent next⟩ :: ⟨name, pending⟩ :: below,
                         links := s.links ++ [.tree name next] } where
  partition := by
    have hperm : (next :: s.unvisited.erase next).Perm s.unvisited :=
      (List.perm_cons_erase hu).symm
    have := (hperm.append_left (found s.links)).trans h.partition
    simpa [found_append, found, found?] using this
  chain := by
    have hc := h.chain
    rw [hp] at hc
    exact ⟨by simp, (hc.rename ⟨name, pending⟩ rfl).append _⟩
  early := early_append h.early (by
    intro parent child he
    obtain ⟨rfl, rfl⟩ := Link.tree.inj he
    have hc := h.chain
    rw [hp] at hc
    exact hc.mem_found)
  backs := by
    intro x y hb
    exact (h.backs x y (by simpa using hb)).append _
  joined := by
    intro x hx y hy
    rw [found_append] at hx
    rcases List.mem_append.mp hx with hx | hx
    · rcases h.joined x hx y hy with hj | ⟨frame, hf, hn, hy⟩
      · exact .inl (hj.append _)
      · rw [hp] at hf
        rcases List.mem_cons.mp hf with rfl | hf
        · rcases List.mem_cons.mp hy with rfl | hy
          · exact .inl (.inl (by simp [← hn]))
          · exact .inr ⟨⟨name, pending⟩, by simp, hn, hy⟩
        · exact .inr ⟨frame, by simp [hf], hn, hy⟩
    · obtain rfl : x = next := by simpa [found, found?] using hx
      exact .inr ⟨⟨x, adjacent x⟩, by simp, rfl, hy⟩

/-- Pending are neighbours only. -/
def Pending (adjacent : String → List String) (s : Search) : Prop :=
  ∀ frame ∈ s.path, ∀ y ∈ frame.pending, y ∈ adjacent frame.name

/-- Neighbourhood in a graph without loops, given by the neighbours of each of its vertices. -/
structure Graph (adjacent : String → List String) (names : List String) : Prop where
  irrefl : ∀ x, x ∉ adjacent x
  symm : ∀ x y, y ∈ adjacent x → x ∈ adjacent y
  closed : ∀ x y, y ∈ adjacent x → y ∈ names

/-- Looking at a neighbour that was visited before leaves the two joined.  This is where the order of
leaving counts. -/
theorem Inv.joined_lookAt {name next : String} {pending : List String} {below : List Frame}
    (graph : Graph adjacent names) (h : Inv adjacent names s) (hpend : Pending adjacent s)
    (hp : s.path = ⟨name, next :: pending⟩ :: below) (hu : next ∉ s.unvisited) :
    Joined (s.links ++ if isFarAncestor below next then [.back name next] else [])
      name next := by
  have hc := h.chain
  rw [hp] at hc
  have hadj : next ∈ adjacent name := by
    have hm : (⟨name, next :: pending⟩ : Frame) ∈ s.path := by simp [hp]
    exact hpend _ hm next (by simp)
  have hne : next ≠ name := fun he => graph.irrefl name (he ▸ hadj)
  have hfound : next ∈ found s.links := by
    have hm : next ∈ found s.links ++ s.unvisited :=
      h.partition.mem_iff.mpr (graph.closed name next hadj)
    exact (List.mem_append.mp hm).resolve_right hu
  by_cases hfar : isFarAncestor below next = true
  · exact .inr (.inr (.inl (by simp [hfar])))
  rcases h.joined next hfound name (graph.symm name next hadj) with hj | ⟨frame, hf, hn, _⟩
  · exact hj.symm.append _
  rw [hp] at hf
  rcases List.mem_cons.mp hf with rfl | hf
  · exact absurd hn.symm hne
  cases below with
  | nil => simp at hf
  | cons parent rest =>
    rcases List.mem_cons.mp hf with rfl | hf
    · exact .inr (.inl (List.mem_append_left _ (hn ▸ hc.1)))
    · exact absurd (List.any_eq_true.mpr ⟨frame, hf, by simp [hn]⟩) hfar

/-- A neighbour that was visited before is looked at.  It is the parent, a far ancestor, or a vertex
that has looked at this one already. -/
theorem Inv.lookAt {name next : String} {pending : List String} {below : List Frame}
    (graph : Graph adjacent names) (h : Inv adjacent names s) (hpend : Pending adjacent s)
    (hp : s.path = ⟨name, next :: pending⟩ :: below) (hu : next ∉ s.unvisited) :
    Inv adjacent names { s with
      path := ⟨name, pending⟩ :: below
      links := s.links ++ if isFarAncestor below next then [.back name next] else [] } := by
  have hc := h.chain
  rw [hp] at hc
  have hjoin := h.joined_lookAt graph hpend hp hu
  refine ⟨?_, ?_, ?_, ?_, ?_⟩
  · have hnone : found (if isFarAncestor below next then [.back name next] else []) = [] := by
      split <;> simp [found, found?]
    simpa [found_append, hnone] using h.partition
  · exact (hc.rename ⟨name, pending⟩ rfl).append _
  · split
    · exact early_append h.early (by simp)
    · simpa using h.early
  · intro x y hb
    rcases List.mem_append.mp hb with hb | hb
    · exact (h.backs x y hb).append _
    · split at hb
      next hfar =>
        obtain ⟨rfl, rfl⟩ : x = name ∧ y = next := by simpa using hb
        obtain ⟨frame, hf, hn⟩ := List.any_eq_true.mp hfar
        obtain rfl : frame.name = y := by simpa using hn
        exact (hc.above frame (List.mem_of_mem_tail hf)).append _
      next => simp at hb
  · intro x hx y hy
    have hx : x ∈ found s.links := by
      rw [found_append] at hx
      refine (List.mem_append.mp hx).resolve_right fun hx => ?_
      split at hx <;> simp [found, found?] at hx
    rcases h.joined x hx y hy with hj | ⟨frame, hf, hn, hy⟩
    · exact .inl (hj.append _)
    · rw [hp] at hf
      rcases List.mem_cons.mp hf with rfl | hf
      · rcases List.mem_cons.mp hy with rfl | hy
        · exact .inl (hn ▸ hjoin)
        · exact .inr ⟨⟨name, pending⟩, by simp, hn, hy⟩
      · exact .inr ⟨frame, by simp [hf], hn, hy⟩

theorem Pending.step (h : Pending adjacent s) (hs : s.step adjacent = some t) :
    Pending adjacent t := by
  unfold Search.step at hs
  split at hs
  next hp =>
    split at hs
    · cases hs
    · obtain rfl := Option.some.inj hs
      simp [Pending]
  next hp =>
    obtain rfl := Option.some.inj hs
    exact fun frame hf => h frame (by simp [hp, hf])
  next name next pending below hp =>
    have htop : ∀ y ∈ next :: pending, y ∈ adjacent name :=
      h ⟨name, next :: pending⟩ (by simp [hp])
    have hbelow : ∀ frame ∈ below, ∀ y ∈ frame.pending, y ∈ adjacent frame.name :=
      fun frame hf => h frame (by simp [hp, hf])
    split at hs <;> obtain rfl := Option.some.inj hs
    · simp only [Pending, List.forall_mem_cons] at htop ⊢
      exact ⟨fun y hy => hy, htop.2, hbelow⟩
    · simp only [Pending, List.forall_mem_cons] at htop ⊢
      exact ⟨htop.2, hbelow⟩

theorem Inv.step (graph : Graph adjacent names) (h : Inv adjacent names s)
    (hpend : Pending adjacent s) (hs : s.step adjacent = some t) : Inv adjacent names t := by
  unfold Search.step at hs
  split at hs
  next hp =>
    split at hs
    · cases hs
    next hu =>
      obtain rfl := Option.some.inj hs
      exact h.enterRoot hp hu
  next hp =>
    obtain rfl := Option.some.inj hs
    exact h.leave hp
  next hp =>
    split at hs
    next hu =>
      obtain rfl := Option.some.inj hs
      exact h.enterChild hp hu
    next hu =>
      obtain rfl := Option.some.inj hs
      exact h.lookAt graph hpend hp hu

/-- What every step keeps holds at the end. -/
theorem finish_keeps {P : Search → Prop}
    (hstep : ∀ s t : Search, P s → s.step adjacent = some t → P t) (h : P s) :
    P (s.finish adjacent) := by
  induction s using Search.finish.induct adjacent with
  | case1 s hs =>
    rw [Search.finish]
    split
    · exact h
    next t ht => simp [hs] at ht
  | case2 s t hs ih =>
    rw [Search.finish]
    split
    next hnone => simp [hs] at hnone
    next u hu =>
      obtain rfl : t = u := by simpa [hs] using hu
      exact ih (hstep s t h hs)

/-- At the end there is no further step. -/
theorem step_finish (s : Search) : (s.finish adjacent).step adjacent = none := by
  induction s using Search.finish.induct adjacent with
  | case1 s hs =>
    rw [Search.finish]
    split
    · exact hs
    next t ht => simp [hs] at ht
  | case2 s t hs ih =>
    rw [Search.finish]
    split
    next hnone => simp [hs] at hnone
    next u hu =>
      obtain rfl : t = u := by simpa [hs] using hu
      exact ih

/-- What holds at the end, when there is no further step. -/
theorem Inv.finish (graph : Graph adjacent names) (h : Inv adjacent names s)
    (hpend : Pending adjacent s) :
    Inv adjacent names (s.finish adjacent) ∧ (s.finish adjacent).step adjacent = none := by
  refine ⟨(finish_keeps (P := fun s => Inv adjacent names s ∧ Pending adjacent s)
    (fun s t h hs => ?_) ⟨h, hpend⟩).1, step_finish s⟩
  exact ⟨h.1.step graph h.2 hs, h.2.step hs⟩

theorem eq_nil_of_step_eq_none (h : s.step adjacent = none) : s.path = [] ∧ s.unvisited = [] := by
  unfold Search.step at h
  split at h
  next hp =>
    split at h
    next hu => exact ⟨hp, hu⟩
    · cases h
  · cases h
  · split at h <;> cases h

/-- The links of a depth-first search. -/
structure Explored (adjacent : String → List String) (names : List String) (links : List Link) :
    Prop where
  found : (found links).Perm names
  early : ∀ before after parent child, links = before ++ .tree parent child :: after →
    parent ∈ Link.found before
  backs : ∀ x y, .back x y ∈ links → Above links y x
  joined : ∀ x ∈ names, ∀ y ∈ adjacent x, Joined links x y

theorem explored (graph : Graph adjacent names) :
    Explored adjacent names (explore adjacent names) := by
  obtain ⟨h, hnone⟩ := (Inv.start adjacent names).finish graph (by simp [Pending])
  obtain ⟨hp, hu⟩ := eq_nil_of_step_eq_none hnone
  have hfound : (Link.found (explore adjacent names)).Perm names := by
    simpa [explore, hu] using h.partition
  refine ⟨hfound, h.early, h.backs, fun x hx y hy => ?_⟩
  rcases h.joined x (hfound.mem_iff.mpr hx) y hy with hj | ⟨frame, hf, _⟩
  · exact hj
  · simp [hp] at hf

end Search

end DcopSearch
