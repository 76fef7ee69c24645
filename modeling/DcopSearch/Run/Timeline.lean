import DcopSearch.Protocol.Message

/-! Messages under way with the times of their sending.  The earliest one is delivered first, and of
equally early ones the one that was sent first. -/

namespace DcopSearch

/-- A message and the time on the sender's clock when it was sent. -/
structure Event (K : Type) where
  time : Nat
  outgoing : Outgoing K

/-- The events under way, in the order of their delivery. -/
abbrev Timeline (K : Type) := List (Event K)

namespace Timeline

section

variable {α : Type} {time : α → Nat}

/-- Adds an item after all that are not later. -/
def push (time : α → Nat) (item : α) : List α → List α
  | [] => [item]
  | first :: rest =>
    if time first ≤ time item then first :: push time item rest else item :: first :: rest

theorem push_perm (time : α → Nat) (item : α) (items : List α) :
    (push time item items).Perm (item :: items) := by
  induction items with
  | nil => exact .refl _
  | cons first rest ih =>
    unfold push
    split
    · exact (ih.cons first).trans (.swap item first rest)
    · exact .refl _

theorem mem_push {item other : α} {items : List α} :
    other ∈ push time item items ↔ other = item ∨ other ∈ items := by
  rw [(push_perm time item items).mem_iff, List.mem_cons]

theorem map_push {β : Type} (f : β → α) (item : β) (items : List β) :
    (push (fun x => time (f x)) item items).map f = push time (f item) (items.map f) := by
  induction items with
  | nil => rfl
  | cons first rest ih =>
    rw [push, List.map_cons, push]
    split
    · rw [List.map_cons, ih]
    · rfl

/-- Among items in the order of their times, the item stands after those that are not later and before
those that are. -/
theorem pairwise_push {R : α → α → Prop} {item : α} {items : List α}
    (hsorted : items.Pairwise (time · ≤ time ·)) (h : items.Pairwise R)
    (hbefore : ∀ other ∈ items, time other ≤ time item → R other item)
    (hafter : ∀ other ∈ items, time item < time other → R item other) :
    (push time item items).Pairwise R := by
  induction items with
  | nil => simp [push]
  | cons first rest ih =>
    obtain ⟨hfirst, hrest⟩ := List.pairwise_cons.mp hsorted
    obtain ⟨hf, hr⟩ := List.pairwise_cons.mp h
    unfold push
    split
    next hle =>
      have hpush := ih hrest hr (fun other ho => hbefore other (List.mem_cons_of_mem first ho))
        fun other ho => hafter other (List.mem_cons_of_mem first ho)
      refine List.pairwise_cons.mpr ⟨fun other ho => ?_, hpush⟩
      rcases mem_push.mp ho with rfl | ho
      · exact hbefore first List.mem_cons_self hle
      · exact hf other ho
    next hlt =>
      refine List.pairwise_cons.mpr ⟨fun other ho => hafter other ho ?_, h⟩
      rcases List.mem_cons.mp ho with rfl | ho
      · omega
      · have := hfirst other ho
        omega

end

variable {K : Type}

def pushAll (time : Nat) (messages : List (Outgoing K)) (timeline : Timeline K) : Timeline K :=
  messages.foldl (fun timeline outgoing => push Event.time { time, outgoing } timeline) timeline

end Timeline

end DcopSearch
