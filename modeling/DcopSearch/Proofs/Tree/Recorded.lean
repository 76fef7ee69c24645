import DcopSearch.Proofs.Tree.Search
import Mathlib.Data.List.Pairwise
import Mathlib.Data.String.Basic

/-! What a search records once.  A vertex looks at each neighbour once, and of two neighbours only
the lower one records the other as an ancestor that is not its parent; so no pair of vertices is
joined by two links.  The roots come in the order of the vertices, each before all that is found
later. -/

namespace DcopSearch

namespace Link

/-- The vertices that a link joins, the upper one first. -/
def ends? : Link → Option (String × String)
  | root _ => none
  | tree parent child => some (parent, child)
  | back descendant ancestor => some (ancestor, descendant)

/-- The pairs of vertices that links join, in the order of the links. -/
def ends (links : List Link) : List (String × String) := links.filterMap ends?

theorem ends_append (links more : List Link) :
    ends (links ++ more) = ends links ++ ends more := List.filterMap_append

theorem mem_ends {links : List Link} {upper lower : String} :
    (upper, lower) ∈ ends links ↔ tree upper lower ∈ links ∨ back lower upper ∈ links := by
  rw [ends, List.mem_filterMap]
  constructor
  · rintro ⟨link, hl, he⟩
    cases link with
    | root name => cases he
    | tree parent child =>
      obtain ⟨rfl, rfl⟩ := Prod.mk.inj (Option.some.inj he)
      exact .inl hl
    | back descendant ancestor =>
      obtain ⟨rfl, rfl⟩ := Prod.mk.inj (Option.some.inj he)
      exact .inr hl
  · rintro (hl | hl)
    · exact ⟨_, hl, rfl⟩
    · exact ⟨_, hl, rfl⟩

/-- What is read off the links once has one link that it is read off. -/
theorem eq_of_nodup {A : Type} {links : List Link} {f : Link → Option A}
    (hn : (links.filterMap f).Nodup) {first second : Link} {x : A} (hf : first ∈ links)
    (hs : second ∈ links) (h : f first = some x) (h' : f second = some x) : first = second := by
  by_contra hne
  rw [List.nodup_iff_pairwise_ne, List.pairwise_filterMap] at hn
  have hsymm : Std.Symm fun x y : Link => ∀ a, f x = some a → ∀ b, f y = some b → a ≠ b :=
    ⟨fun _ _ hxy a ha b hb he => hxy b hb a ha he.symm⟩
  exact hn.forall hf hs hne x h x h' rfl

end Link

namespace Search

open Link

variable {adjacent : String → List String} {names : List String} {s t : Search}
  {name next upper lower : String} {pending : List String} {below : List Frame}

theorem Chain.forall_found {links : List Link} {path : List Frame} (h : Chain links path) :
    ∀ frame ∈ path, frame.name ∈ found links := by
  induction path with
  | nil => simp
  | cons frame rest ih => exact List.forall_mem_cons.mpr ⟨h.mem_found, ih h.tail⟩

theorem Inv.not_found (h : Inv adjacent names s) (hn : names.Nodup) (hu : next ∈ s.unvisited) :
    next ∉ found s.links := fun hf => (List.nodup_append.mp (h.nodup hn)).2.2 next hf next hu rfl

theorem Inv.nodup_found (h : Inv adjacent names s) (hn : names.Nodup) : (found s.links).Nodup :=
  (List.nodup_append.mp (h.nodup hn)).1

/-- The lower end of a link has been found. -/
theorem Inv.lower_found (h : Inv adjacent names s) (he : (upper, lower) ∈ ends s.links) :
    lower ∈ found s.links := by
  rcases mem_ends.mp he with hl | hl
  · exact mem_found_of_tree hl
  · obtain ⟨_, _, hlast⟩ := Relation.TransGen.tail'_iff.mp (h.backs lower upper hl)
    exact mem_found_of_tree hlast

/-- A vertex that has not been entered has recorded nothing. -/
theorem Inv.unrecorded (h : Inv adjacent names s) (hn : names.Nodup) (hu : next ∈ s.unvisited)
    (y : String) : tree next y ∉ s.links ∧ back next y ∉ s.links := by
  have hnot := h.not_found hn hu
  refine ⟨fun hl => hnot ?_, fun hl => hnot (h.lower_found (mem_ends.mpr (.inr hl)))⟩
  obtain ⟨before, after, he⟩ := List.append_of_mem hl
  rw [he, found_append]
  exact List.mem_append_left _ (h.early before after next y he)

/-- What is recorded once throughout a search.  A pending neighbour is one that the frame has not
recorded yet. -/
structure Tidy (s : Search) : Prop where
  path : (s.path.map Frame.name).Nodup
  pending : ∀ frame ∈ s.path, frame.pending.Nodup
  unrecorded : ∀ frame ∈ s.path, ∀ y ∈ frame.pending,
    tree frame.name y ∉ s.links ∧ back frame.name y ∉ s.links
  once : (ends s.links).Nodup

theorem Tidy.start (names : List String) : Tidy { unvisited := names } :=
  ⟨by simp, by simp, by simp, by simp [Link.ends]⟩

theorem Tidy.enterRoot {root : String} {rest : List String} (h : Tidy s)
    (hinv : Inv adjacent names s) (hn : names.Nodup) (hadj : (adjacent root).Nodup)
    (hu : s.unvisited = root :: rest) :
    Tidy { unvisited := rest, path := [⟨root, adjacent root⟩],
           links := s.links ++ [.root root] } where
  path := by simp
  pending := by simpa using hadj
  unrecorded := by
    have hunvisited : root ∈ s.unvisited := by simp [hu]
    simpa using fun y _ => hinv.unrecorded hn hunvisited y
  once := by
    have hnone : ends [.root root] = [] := rfl
    rw [ends_append, hnone, List.append_nil]
    exact h.once

theorem Tidy.leave (h : Tidy s) (hp : s.path = ⟨name, []⟩ :: below) :
    Tidy { s with path := below } where
  path := by
    have hpath := h.path
    rw [hp] at hpath
    exact hpath.of_cons
  pending frame hf := h.pending frame (by simp [hp, hf])
  unrecorded frame hf := h.unrecorded frame (by simp [hp, hf])
  once := h.once

/-- A frame has a neighbour less to look at, and the link that it has recorded is about this one. -/
theorem Tidy.unrecorded_tail (h : Tidy s) (hp : s.path = ⟨name, next :: pending⟩ :: below)
    {more : List Link} (hmore : ∀ link ∈ more, link = .tree name next ∨ link = .back name next) :
    ∀ frame ∈ (⟨name, pending⟩ : Frame) :: below, ∀ y ∈ frame.pending,
      tree frame.name y ∉ s.links ++ more ∧ back frame.name y ∉ s.links ++ more := by
  have hpath := h.path
  have hfirst := h.pending ⟨name, next :: pending⟩ (by simp [hp])
  have hold := h.unrecorded
  rw [hp] at hpath hold
  obtain ⟨htop, hrest⟩ := List.forall_mem_cons.mp hold
  have hother : ∀ frame ∈ below, frame.name ≠ name :=
    fun frame hf he => (List.nodup_cons.mp hpath).1 (List.mem_map.mpr ⟨frame, hf, he⟩)
  refine List.forall_mem_cons.mpr ⟨fun y hy => ?_, fun frame hf y hy => ?_⟩
  · have hne : y ≠ next := fun he => (List.nodup_cons.mp hfirst).1 (he ▸ hy)
    have hold := htop y (List.mem_cons_of_mem _ hy)
    simp only [List.mem_append, not_or]
    refine ⟨⟨hold.1, fun hm => ?_⟩, hold.2, fun hm => ?_⟩ <;>
      rcases hmore _ hm with he | he <;> cases he <;> exact hne rfl
  · have hold := hrest frame hf y hy
    simp only [List.mem_append, not_or]
    refine ⟨⟨hold.1, fun hm => ?_⟩, hold.2, fun hm => ?_⟩ <;>
      rcases hmore _ hm with he | he <;> cases he <;> exact hother frame hf rfl

theorem Tidy.enterChild (h : Tidy s) (hinv : Inv adjacent names s) (hn : names.Nodup)
    (hadj : (adjacent next).Nodup) (hp : s.path = ⟨name, next :: pending⟩ :: below)
    (hu : next ∈ s.unvisited) :
    Tidy { unvisited := s.unvisited.erase next,
           path := ⟨next, adjacent next⟩ :: ⟨name, pending⟩ :: below,
           links := s.links ++ [.tree name next] } where
  path := by
    have hpath := h.path
    have hfound := hinv.chain.forall_found
    rw [hp] at hpath hfound
    refine List.nodup_cons.mpr ⟨fun hm => hinv.not_found hn hu ?_, hpath⟩
    obtain ⟨frame, hf, rfl⟩ := List.mem_map.mp (show next ∈
      ((⟨name, next :: pending⟩ : Frame) :: below).map Frame.name from hm)
    exact hfound frame hf
  pending := by
    have hpending := h.pending
    rw [hp] at hpending
    obtain ⟨hfirst, hrest⟩ := List.forall_mem_cons.mp hpending
    exact List.forall_mem_cons.mpr ⟨hadj, List.forall_mem_cons.mpr ⟨hfirst.of_cons, hrest⟩⟩
  unrecorded := by
    have hself : name ≠ next := by
      rintro rfl
      exact hinv.not_found hn hu (hinv.chain.forall_found _ (by rw [hp]; exact List.mem_cons_self))
    refine List.forall_mem_cons.mpr ⟨fun y _ => ?_, h.unrecorded_tail hp (by simp)⟩
    have hnone := hinv.unrecorded hn hu y
    simp [hnone, hself.symm]
  once := by
    rw [ends_append]
    refine List.nodup_append.mpr ⟨h.once, by simp [Link.ends, ends?], fun pair hm other ho => ?_⟩
    obtain rfl : other = (name, next) := by simpa [Link.ends, ends?] using ho
    rintro rfl
    exact hinv.not_found hn hu (hinv.lower_found hm)

/-- An ancestor that is not the parent has not been recorded before. -/
theorem Tidy.not_mem_ends (h : Tidy s) (hinv : Inv adjacent names s) (hn : names.Nodup)
    (hp : s.path = ⟨name, next :: pending⟩ :: below) (hfar : isFarAncestor below next = true) :
    (next, name) ∉ ends s.links := by
  intro he
  rcases mem_ends.mp he with hl | hl
  · obtain ⟨frame, hf, hname⟩ := List.any_eq_true.mp hfar
    obtain rfl : frame.name = next := by simpa using hname
    have hc := hinv.chain
    have hpath := h.path
    rw [hp] at hc hpath
    cases below with
    | nil => cases hf
    | cons parent rest =>
      -- the parent of a vertex is the frame below it, which the frames further down do not repeat
      obtain ⟨hparent, -⟩ := Link.tree.inj
        (eq_of_nodup (hinv.nodup_found hn) hl hc.1 rfl rfl)
      have hrest := (List.nodup_cons.mp hpath.of_cons).1
      exact hrest (hparent ▸ List.mem_map_of_mem hf)
  · exact (h.unrecorded ⟨name, next :: pending⟩ (by simp [hp]) next (by simp)).2 hl

theorem Tidy.lookAt (h : Tidy s) (hinv : Inv adjacent names s) (hn : names.Nodup)
    (hp : s.path = ⟨name, next :: pending⟩ :: below) :
    Tidy { s with
      path := ⟨name, pending⟩ :: below
      links := s.links ++ if isFarAncestor below next then [.back name next] else [] } where
  path := by
    have hpath := h.path
    rw [hp] at hpath
    exact hpath
  pending := by
    have hpending := h.pending
    rw [hp] at hpending
    obtain ⟨hfirst, hrest⟩ := List.forall_mem_cons.mp hpending
    exact List.forall_mem_cons.mpr ⟨hfirst.of_cons, hrest⟩
  unrecorded := by
    refine h.unrecorded_tail hp fun link hm => ?_
    split at hm
    · exact .inr (List.mem_singleton.mp hm)
    · cases hm
  once := by
    split
    next hfar =>
      rw [ends_append]
      refine List.nodup_append.mpr ⟨h.once, by simp [Link.ends, ends?], fun pair hm other ho => ?_⟩
      obtain rfl : other = (next, name) := by simpa [Link.ends, ends?] using ho
      rintro rfl
      exact h.not_mem_ends hinv hn hp hfar hm
    next => simpa using h.once

theorem Tidy.step (h : Tidy s) (hinv : Inv adjacent names s) (hn : names.Nodup)
    (hadj : ∀ x, (adjacent x).Nodup) (hs : s.step adjacent = some t) : Tidy t := by
  unfold Search.step at hs
  split at hs
  next hp =>
    split at hs
    · cases hs
    next root rest hu =>
      obtain rfl := Option.some.inj hs
      exact h.enterRoot hinv hn (hadj root) hu
  next hp =>
    obtain rfl := Option.some.inj hs
    exact h.leave hp
  next name next pending below hp =>
    split at hs
    next hu =>
      obtain rfl := Option.some.inj hs
      exact h.enterChild hinv hn (hadj next) hp hu
    next =>
      obtain rfl := Option.some.inj hs
      exact h.lookAt hinv hn hp

/-- What is left to visit keeps its order, and a root comes before all that is found later. -/
structure Leads (names : List String) (s : Search) : Prop where
  unvisited : s.unvisited.Sublist names
  roots : ∀ before after root, s.links = before ++ .root root :: after →
    ∀ x ∈ found after ++ s.unvisited, root < x

theorem Leads.start (names : List String) : Leads names { unvisited := names } :=
  ⟨.refl _, by simp⟩

/-- A link that finds something of what was left keeps roots before all that comes later. -/
theorem early_root {links : List Link} {unvisited rest : List String}
    (h : ∀ before after root, links = before ++ .root root :: after →
      ∀ x ∈ found after ++ unvisited, root < x) {link : Link}
    (hlink : ∀ root, link = .root root → ∀ x ∈ rest, root < x)
    (hrest : ∀ x ∈ found [link] ++ rest, x ∈ unvisited) :
    ∀ before after root, links ++ [link] = before ++ .root root :: after →
      ∀ x ∈ found after ++ rest, root < x := by
  intro before after root he x hx
  rcases List.eq_nil_or_concat after with rfl | ⟨more, last, rfl⟩
  · obtain ⟨-, hroot⟩ := List.append_inj' he rfl
    exact hlink root (List.singleton_inj.mp hroot) x (by simpa [found] using hx)
  · rw [List.concat_eq_append, ← List.cons_append, ← List.append_assoc] at he
    obtain ⟨rfl, hlast⟩ := List.append_inj' he rfl
    obtain rfl := List.singleton_inj.mp hlast
    rw [List.concat_eq_append, found_append, List.append_assoc] at hx
    refine h before more root rfl x (List.mem_append.mpr ?_)
    exact (List.mem_append.mp hx).imp_right (hrest x)

theorem Leads.step (h : Leads names s) (hsorted : names.Pairwise (· < ·))
    (hs : s.step adjacent = some t) : Leads names t := by
  unfold Search.step at hs
  split at hs
  next hp =>
    split at hs
    · cases hs
    next root rest hu =>
      obtain rfl := Option.some.inj hs
      have hsub := h.unvisited
      rw [hu] at hsub
      refine ⟨(List.sublist_cons_self root rest).trans hsub, early_root h.roots ?_ ?_⟩
      · intro other he
        obtain rfl := Link.root.inj he
        exact (List.pairwise_cons.mp (hsorted.sublist hsub)).1
      · rw [hu]
        exact fun x hx => hx
  next hp =>
    obtain rfl := Option.some.inj hs
    exact ⟨h.unvisited, h.roots⟩
  next name next pending below hp =>
    split at hs
    next hu =>
      obtain rfl := Option.some.inj hs
      refine ⟨(List.erase_sublist).trans h.unvisited, early_root h.roots (by simp) fun x hx => ?_⟩
      rcases List.mem_cons.mp hx with rfl | hx
      · exact hu
      · exact List.mem_of_mem_erase hx
    next =>
      obtain rfl := Option.some.inj hs
      refine ⟨h.unvisited, ?_⟩
      simp only
      split
      · exact early_root h.roots (by simp) fun x hx => hx
      · simpa using h.roots

/-- The links of a search join no two vertices twice, and roots come before what is found later. -/
structure Recorded (links : List Link) : Prop where
  once : (ends links).Nodup
  roots : ∀ before after root, links = before ++ .root root :: after →
    ∀ x ∈ found after, root < x

theorem recorded (graph : Graph adjacent names) (hadj : ∀ x, (adjacent x).Nodup)
    (hsorted : names.Pairwise (· < ·)) : Recorded (explore adjacent names) := by
  have hn : names.Nodup := hsorted.imp fun hlt => ne_of_lt hlt
  have hstart : Inv adjacent names { unvisited := names } ∧
      Pending adjacent { unvisited := names } ∧ Tidy { unvisited := names } :=
    ⟨.start adjacent names, by simp [Pending], .start names⟩
  obtain ⟨-, -, htidy⟩ := finish_keeps
    (P := fun s => Inv adjacent names s ∧ Pending adjacent s ∧ Tidy s)
    (fun s t h hs => ⟨h.1.step graph h.2.1 hs, h.2.1.step hs, h.2.2.step h.1 hn hadj hs⟩) hstart
  have hleads : Leads names (Search.finish adjacent { unvisited := names }) :=
    finish_keeps (fun s t h hs => h.step hsorted hs) (.start names)
  exact ⟨htidy.once, fun before after root he x hx =>
    hleads.roots before after root he x (List.mem_append_left _ hx)⟩

/-- So many steps lead from one state to the other. -/
inductive Takes (adjacent : String → List String) : Nat → Search → Search → Prop where
  | none {s : Search} : Takes adjacent 0 s s
  | step {n : Nat} {s t u : Search} :
      s.step adjacent = some t → Takes adjacent n t u → Takes adjacent (n + 1) s u

/-- The end is reached after no more steps than there is work. -/
theorem takes_finish (adjacent : String → List String) (s : Search) :
    ∃ n ≤ s.work adjacent, Takes adjacent n s (s.finish adjacent) := by
  induction s using Search.finish.induct adjacent with
  | case1 s hs =>
    rw [Search.finish]
    split
    · exact ⟨0, Nat.zero_le _, .none⟩
    next t ht => simp [hs] at ht
  | case2 s t hs ih =>
    obtain ⟨n, hle, htakes⟩ := ih
    have hlt := work_step_lt adjacent hs
    rw [Search.finish]
    split
    next hnone => simp [hs] at hnone
    next u hu =>
      obtain rfl : t = u := by simpa [hs] using hu
      exact ⟨n + 1, by omega, .step hs htakes⟩

end Search

end DcopSearch
