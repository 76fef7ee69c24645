/-! Depth-first search of a graph as a machine that makes one small step at a time.  Its state is the
path from the root of the current component to the variable it stands on, with the neighbours that
each variable on it has still to look at.  The links it finds are recorded in the order in which it
finds them. -/

namespace DcopSearch

inductive Link where
  | root (name : String)
  | tree (parent child : String)
  /-- A neighbour of the descendant is an ancestor of it other than its parent. -/
  | back (descendant ancestor : String)
deriving DecidableEq, Repr

/-- A variable on the path, with the neighbours it has still to look at. -/
structure Frame where
  name : String
  pending : List String
deriving DecidableEq, Repr

/-- The state of the search; the innermost frame of the path comes first. -/
structure Search where
  unvisited : List String
  path : List Frame := []
  links : List Link := []
deriving DecidableEq, Repr

namespace Search

variable (adjacent : String → List String)

/-- Whether a neighbour of the variable above the frames `below` is an ancestor of it other than its
parent, which is the first of these frames. -/
def isFarAncestor (below : List Frame) (name : String) : Bool :=
  below.tail.any (·.name == name)

/-- One step; there is none when the search is over. -/
def step (s : Search) : Option Search :=
  match s.path with
  | [] =>
    match s.unvisited with
    | [] => none
    | root :: rest =>
      -- a new component
      some { unvisited := rest, path := [⟨root, adjacent root⟩], links := s.links ++ [.root root] }
  | ⟨_, []⟩ :: below => some { s with path := below }
  | ⟨name, next :: pending⟩ :: below =>
    if next ∈ s.unvisited then
      some { unvisited := s.unvisited.erase next
             path := ⟨next, adjacent next⟩ :: ⟨name, pending⟩ :: below
             links := s.links ++ [.tree name next] }
    else
      -- only a far ancestor makes a link of its own: the parent and the descendants have theirs
      some { s with
             path := ⟨name, pending⟩ :: below
             links := s.links ++ if isFarAncestor below next then [.back name next] else [] }

/-- The steps that a variable can cause at most: entering it, looking at each neighbour and leaving
it. -/
def effort (name : String) : Nat := 2 + (adjacent name).length

/-- The steps that can still follow. -/
def work (s : Search) : Nat :=
  (s.unvisited.map (effort adjacent)).foldr (· + ·) 0
    + (s.path.map fun f => 1 + f.pending.length).foldr (· + ·) 0

theorem effort_add_sum_erase {names : List String} {name : String} (h : name ∈ names) :
    effort adjacent name + ((names.erase name).map (effort adjacent)).foldr (· + ·) 0
      = (names.map (effort adjacent)).foldr (· + ·) 0 := by
  induction names with
  | nil => simp at h
  | cons first rest ih =>
    by_cases hf : first = name
    · subst hf; simp
    · have hr : name ∈ rest := by simpa [Ne.symm hf] using h
      have := ih hr
      simp only [List.erase_cons, beq_iff_eq, hf, if_false, List.map_cons, List.foldr_cons]
      omega

theorem work_step_lt {s t : Search} (h : s.step adjacent = some t) :
    t.work adjacent < s.work adjacent := by
  unfold step at h
  split at h
  next hp =>
    split at h
    · simp at h
    next root rest hu =>
      obtain rfl := Option.some.inj h
      simp [work, hp, hu, effort]
      omega
  next below hp =>
    obtain rfl := Option.some.inj h
    simp [work, hp]
  next name next pending below hp =>
    split at h
    next hm =>
      obtain rfl := Option.some.inj h
      have := effort_add_sum_erase adjacent hm
      simp only [effort] at this
      simp only [work, hp, List.map_cons, List.foldr_cons, List.length_cons]
      omega
    next =>
      obtain rfl := Option.some.inj h
      simp [work, hp]

def finish (s : Search) : Search :=
  match _h : s.step adjacent with
  | none => s
  | some t => t.finish
termination_by s.work adjacent
decreasing_by exact work_step_lt adjacent _h

/-- The links of a graph with the given vertices, which are entered in their order. -/
def explore (names : List String) : List Link :=
  (Search.finish adjacent { unvisited := names }).links

end Search

end DcopSearch
