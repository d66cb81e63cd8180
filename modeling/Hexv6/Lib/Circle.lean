import Mathlib.Data.List.Chain
import Mathlib.Tactic

/-!
# Circular doubly linked lists

Nodes with two pointers `next` and `prev`, and a node `h`, the head.  `Circle next prev h l`
says that following `next` from `h` visits the nodes of `l`, in this order and each once, and
comes back to `h`, and that `prev` leads back along the same way.

The operations are the usual pointer assignments: `unlink` takes a node out
(`Circle.unlink`), `insertAfter` puts one behind the head (`Circle.insertAfter`), and `walk`
is the loop that visits all nodes from the head on (`Circle.walk_eq`).
-/

namespace Hexv6.Lib

open List Function

variable {ν : Type*} {x : ν}

/-- The two pointers between `a` and its successor `b`. -/
def Linked (next prev : ν → ν) (a b : ν) : Prop := next a = b ∧ prev b = a

structure Circle (next prev : ν → ν) (h : ν) (l : List ν) : Prop where
  chain : (h :: l ++ [h]).IsChain (Linked next prev)
  nodup : (h :: l).Nodup

/-- The nodes that the loop `for(b = …; b != stop; b = b->next)` visits, in at most `n`
turns. -/
def walk [DecidableEq ν] (next : ν → ν) (stop : ν) : ℕ → ν → List ν
  | 0, _ => []
  | n + 1, b => if b = stop then [] else b :: walk next stop n (next b)

section Pointers

variable [DecidableEq ν]

/-- `x->next->prev = x->prev; x->prev->next = x->next;` -/
def unlink (next prev : ν → ν) (x : ν) : (ν → ν) × (ν → ν) :=
  let prev := update prev (next x) (prev x)
  (update next (prev x) (next x), prev)

/-- `x->next = h->next; x->prev = h; h->next->prev = x; h->next = x;` -/
def insertAfter (next prev : ν → ν) (h x : ν) : (ν → ν) × (ν → ν) :=
  let next := update next x (next h)
  let prev := update prev x h
  let prev := update prev (next h) x
  (update next h x, prev)

end Pointers

/-! ### Chains -/

section Chain

variable {next prev next' prev' : ν → ν} {l : List ν}

/-- A chain depends on the `next` of all its nodes but the last, and on the `prev` of all but
the first. -/
lemma isChain_congr (hn : ∀ u ∈ l.dropLast, next' u = next u)
    (hp : ∀ v ∈ l.tail, prev' v = prev v) (h : l.IsChain (Linked next prev)) :
    l.IsChain (Linked next' prev') := by
  induction l with
  | nil => exact .nil
  | cons a l ih =>
    cases l with
    | nil => exact .singleton a
    | cons b l =>
      obtain ⟨⟨hab, hba⟩, hl⟩ := isChain_cons_cons.1 h
      refine isChain_cons_cons.2 ⟨⟨?_, ?_⟩, ih ?_ ?_ hl⟩
      · rw [hn a (by simp), hab]
      · rw [hp b (by simp), hba]
      · intro u hu
        exact hn u (by simpa using .inr hu)
      · intro v hv
        exact hp v (mem_cons_of_mem b hv)

/-- Every node of a chain but the last has a successor. -/
lemma exists_linked {b : ν} (h : (l ++ [b]).IsChain (Linked next prev)) (hx : x ∈ l) :
    ∃ y, Linked next prev x y := by
  obtain ⟨l1, l2, rfl⟩ := append_of_mem hx
  rw [append_assoc, cons_append] at h
  have hx' := (isChain_append.1 h).2.1
  cases l2 with
  | nil => exact ⟨b, (isChain_cons_cons.1 hx').1⟩
  | cons y l2 => exact ⟨y, (isChain_cons_cons.1 hx').1⟩

end Chain

/-! ### Circles -/

namespace Circle

variable {next prev : ν → ν} {h : ν} {l : List ν}

/-- The same circle in the other direction. -/
lemma reverse (hc : Circle next prev h l) : Circle prev next h l.reverse := by
  constructor
  · have hrev : h :: l.reverse ++ [h] = (h :: l ++ [h]).reverse := by simp
    rw [hrev, isChain_reverse]
    exact hc.chain.imp fun a b hab => ⟨hab.2, hab.1⟩
  · simpa using hc.nodup

lemma prev_next (hc : Circle next prev h l) (hx : x ∈ h :: l) : prev (next x) = x := by
  obtain ⟨y, hy⟩ := exists_linked hc.chain hx
  rw [hy.1, hy.2]

lemma next_prev (hc : Circle next prev h l) (hx : x ∈ h :: l) : next (prev x) = x :=
  hc.reverse.prev_next (by simpa using hx)

variable [DecidableEq ν]

/-- The loop from the head on visits the nodes of the circle. -/
theorem walk_eq (hc : Circle next prev h l) {n : ℕ} (hn : l.length < n) :
    walk next h n (next h) = l := by
  -- the same for every rest of the circle, by induction on the rest
  suffices hrest : ∀ (r : List ν) (a : ν) (n : ℕ), (a :: r ++ [h]).IsChain (Linked next prev) →
      h ∉ r → r.length < n → walk next h n (next a) = r from
    hrest l h n hc.chain (nodup_cons.1 hc.nodup).1 hn
  intro r
  induction r with
  | nil =>
    intro a n hchain _ hn
    obtain ⟨m, rfl⟩ := Nat.exists_eq_succ_of_ne_zero (by omega : n ≠ 0)
    have hah := (isChain_cons_cons.1 hchain).1
    rw [walk, hah.1, if_pos rfl]
  | cons b r ih =>
    intro a n hchain hmem hn
    obtain ⟨m, rfl⟩ := Nat.exists_eq_succ_of_ne_zero (by omega : n ≠ 0)
    obtain ⟨hab, hb⟩ := isChain_cons_cons.1 hchain
    have hbh : b ≠ h := fun hbh => hmem (by simp [hbh])
    rw [walk, hab.1, if_neg hbh, ih b m hb (fun hr => hmem (by simp [hr])) (by simpa using hn)]

/-- Taking a node out. -/
theorem unlink {l₁ l₂ : List ν} (hc : Circle next prev h (l₁ ++ x :: l₂)) :
    Circle (Lib.unlink next prev x).1 (Lib.unlink next prev x).2 h (l₁ ++ l₂) := by
  -- the nodes before and after `x`, with the head at both ends
  obtain ⟨A, a, hA⟩ : ∃ A a, h :: l₁ = A ++ [a] := by
    obtain ⟨A, a, hA⟩ := eq_nil_or_concat (h :: l₁) |>.resolve_left (by simp)
    exact ⟨A, a, by simpa using hA⟩
  obtain ⟨b, B, hB⟩ : ∃ b B, l₂ ++ [h] = b :: B := exists_cons_of_ne_nil (by simp)
  have hall : h :: (l₁ ++ x :: l₂) ++ [h] = (A ++ [a]) ++ x :: (b :: B) := by
    rw [← hA, ← hB]
    simp
  have hchain := hc.chain
  rw [hall, isChain_append] at hchain
  obtain ⟨hchA, hchB, hjoin⟩ := hchain
  obtain ⟨hxb, hchB⟩ := isChain_cons_cons.1 hchB
  have hax : Linked next prev a x := hjoin a (by simp) x (by simp)
  have hnodup : (h :: (l₁ ++ x :: l₂)).Nodup := hc.nodup
  have hnd : (A ++ [a]).Nodup ∧ x ∉ A ++ [a] ∧ (∀ u ∈ A ++ [a], u ∉ l₂) ∧ x ∉ l₂ ∧ l₂.Nodup := by
    rw [← cons_append, hA] at hnodup
    obtain ⟨h1, h2, h3⟩ := nodup_append.1 hnodup
    obtain ⟨h4, h5⟩ := nodup_cons.1 h2
    exact ⟨h1, fun hx => h3 x hx x (by simp) rfl, fun u hu hu' => h3 u hu u (by simp [hu']) rfl,
      h4, h5⟩
  obtain ⟨hndA, hxA, hdisj, hxl2, hndl2⟩ := hnd
  have hxh : x ≠ h := by
    rintro rfl
    exact hxA (hA ▸ by simp)
  have hbx : b ≠ x := by
    have hb : b ∈ l₂ ++ [h] := hB ▸ by simp
    rcases mem_append.1 hb with hb | hb
    · rintro rfl
      exact hxl2 hb
    · rw [mem_singleton.1 hb]
      exact hxh.symm
  have hpointers : Lib.unlink next prev x = (update next a b, update prev b a) := by
    simp only [Lib.unlink, hxb.1, hax.2]
    rw [update_of_ne hbx.symm, hax.2]
  rw [hpointers]
  constructor
  · have hnew : h :: (l₁ ++ l₂) ++ [h] = (A ++ [a]) ++ (b :: B) := by
      rw [← hA, ← hB]
      simp
    rw [hnew, isChain_append]
    refine ⟨isChain_congr ?_ ?_ hchA, isChain_congr ?_ ?_ hchB, ?_⟩
    · -- the sources before `a`
      intro u hu
      rw [dropLast_concat] at hu
      refine update_of_ne ?_ ..
      rintro rfl
      exact (nodup_append.1 hndA).2.2 u hu u (by simp) rfl
    · intro v hv
      refine update_of_ne ?_ ..
      rintro rfl
      have hv1 : v ∈ l₁ := by simpa [← hA] using hv
      have hb : v ∈ l₂ ++ [h] := hB ▸ by simp
      rcases mem_append.1 hb with hb | hb
      · exact hdisj v (hA ▸ mem_cons_of_mem _ hv1) hb
      rw [mem_singleton.1 hb] at hv1
      rw [← hA] at hndA
      exact (nodup_cons.1 hndA).1 hv1
    · intro u hu
      rw [← hB, dropLast_concat] at hu
      refine update_of_ne ?_ ..
      rintro rfl
      exact hdisj u (by simp) hu
    · intro v hv
      refine update_of_ne ?_ ..
      rintro rfl
      have hndB : (v :: B).Nodup := by
        rw [← hB]
        refine nodup_append.2 ⟨hndl2, by simp, ?_⟩
        intro u hu w hw huw
        rw [huw, mem_singleton.1 hw] at hu
        exact hdisj h (hA ▸ by simp) hu
      exact (nodup_cons.1 hndB).1 hv
    · intro u hu v hv
      obtain rfl : a = u := by simpa using hu
      obtain rfl : b = v := by simpa using hv
      exact ⟨update_self .., update_self ..⟩
  · refine hnodup.sublist ?_
    simp

/-- Putting a new node behind the head. -/
theorem insertAfter (hc : Circle next prev h l) (hx : x ∉ h :: l) :
    Circle (Lib.insertAfter next prev h x).1 (Lib.insertAfter next prev h x).2 h (x :: l) := by
  obtain ⟨b, B, hB⟩ : ∃ b B, l ++ [h] = b :: B := exists_cons_of_ne_nil (by simp)
  have hchain := hc.chain
  rw [cons_append, hB] at hchain
  obtain ⟨hhb, hchB⟩ := isChain_cons_cons.1 hchain
  obtain ⟨hhl, hndl⟩ := nodup_cons.1 hc.nodup
  have hxh : h ≠ x := fun hxh => hx (by simp [hxh])
  have hmemB : ∀ u ∈ b :: B, u ≠ x := by
    rintro u hu rfl
    rw [← hB] at hu
    exact hx (by simpa [or_comm] using hu)
  have hndB : (b :: B).Nodup := by
    rw [← hB]
    refine nodup_append.2 ⟨hndl, by simp, ?_⟩
    rintro u hu w hw rfl
    rw [mem_singleton.1 hw] at hu
    exact hhl hu
  have hpointers : Lib.insertAfter next prev h x = (update (update next x b) h x,
        update (update prev x h) b x) := by
    simp only [Lib.insertAfter, hhb.1, update_of_ne hxh]
  rw [hpointers]
  dsimp only
  constructor
  · have hnew : h :: (x :: l) ++ [h] = h :: x :: b :: B := by
      rw [← hB]
      simp
    rw [hnew, isChain_cons_cons, isChain_cons_cons]
    refine ⟨⟨update_self .., ?_⟩, ⟨?_, update_self ..⟩, isChain_congr ?_ ?_ hchB⟩
    · rw [update_of_ne (hmemB b (by simp)).symm, update_self]
    · rw [update_of_ne hxh.symm, update_self]
    · intro u hu
      have hu' : u ∈ l := by rwa [← hB, dropLast_concat] at hu
      have huh : u ≠ h := by
        rintro rfl
        exact hhl hu'
      have hux : u ≠ x := by
        rintro rfl
        exact hx (by simp [hu'])
      rw [update_of_ne huh, update_of_ne hux]
    · intro v hv
      have hvb : v ≠ b := by
        rintro rfl
        exact (nodup_cons.1 hndB).1 hv
      rw [update_of_ne hvb, update_of_ne (hmemB v (mem_cons_of_mem b hv))]
  · refine nodup_cons.2 ⟨?_, nodup_cons.2 ⟨fun hxl => hx (by simp [hxl]), hndl⟩⟩
    simp [hxh, hhl]

end Circle

end Hexv6.Lib
