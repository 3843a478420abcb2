import Mathlib.Data.List.Perm.Basic

/-!
# Sorting from the back

A list `low ++ top` whose end is settled: `top` is sorted and nothing of `low` belongs behind its first
entry. A pass carries the largest entry it has met through `low`, which makes it the next one to settle
(`Passed`); a pass that has exchanged nothing has seen a sorted list.
-/

namespace OsExercises.Sorting

variable {α : Type*} {le : α → α → Prop} {low low' top front : List α} {m b : α} {swapped : Prop}

structure Settled (le : α → α → Prop) (low top : List α) : Prop where
  sorted : top.Pairwise le
  below : ∀ a ∈ low, ∀ b ∈ top, le a b

namespace Settled

theorem nil : Settled le low [] := ⟨.nil, fun _ _ => List.forall_mem_nil _⟩

theorem of_perm (h : Settled le low top) (hp : low.Perm low') : Settled le low' top :=
  ⟨h.sorted, fun a ha => h.below a (hp.mem_iff.mpr ha)⟩

theorem push (h : Settled le (front ++ [m]) top) (hm : ∀ a ∈ front, le a m) : Settled le front (m :: top) := by
  refine ⟨List.pairwise_cons.mpr ⟨h.below m (List.mem_append_right _ (List.mem_singleton_self m)), h.sorted⟩, ?_⟩
  intro a ha b hb
  rcases List.mem_cons.mp hb with rfl | hb
  · exact hm a ha
  · exact h.below a (List.mem_append_left _ ha) b hb

theorem pairwise (h : Settled le low top) (hlow : low.Pairwise le) : (low ++ top).Pairwise le :=
  List.pairwise_append.mpr ⟨hlow, h.sorted, h.below⟩

end Settled

/-- A pass has left `front` behind and holds `m`. -/
structure Passed (le : α → α → Prop) (swapped : Prop) (front : List α) (m : α) : Prop where
  below : ∀ a ∈ front, le a m
  sorted : ¬ swapped → (front ++ [m]).Pairwise le

namespace Passed

theorem nil : Passed le swapped [] m := ⟨List.forall_mem_nil _, fun _ => List.pairwise_singleton _ m⟩

theorem keep (htrans : ∀ a b c, le a b → le b c → le a c) (h : Passed le swapped front m) (hle : le m b) :
    Passed le swapped (front ++ [m]) b := by
  have hfront : ∀ a ∈ front ++ [m], le a b := by
    refine List.forall_mem_append.mpr ⟨fun a ha => htrans a m b (h.below a ha) hle, ?_⟩
    exact List.forall_mem_singleton.mpr hle
  refine ⟨hfront, fun hs => List.pairwise_append.mpr ⟨h.sorted hs, List.pairwise_singleton _ b, ?_⟩⟩
  exact fun a ha => List.forall_mem_singleton.mpr (hfront a ha)

theorem swap (h : Passed le swapped front m) (hle : le b m) : Passed le True (front ++ [b]) m := by
  refine ⟨List.forall_mem_append.mpr ⟨h.below, List.forall_mem_singleton.mpr hle⟩, ?_⟩
  exact fun hs => absurd trivial hs

end Passed

end OsExercises.Sorting
