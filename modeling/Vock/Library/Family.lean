import Mathlib.Data.List.Perm.Basic

/-!
# Families of sets

A list of things, each with a list of elements. The degree of an element is the number of the things that have it
(`degree`); an element that only the thing at one place has, is of degree 1 (`lone_iff`). A thing may be taken out
by putting the last one in its place (`swapRemove`).
-/

namespace Vock.Library

open List

variable {i : Nat}

section

variable {α : Type}

/-- Takes a thing out of a list; the last one gets its place. -/
def swapRemove (l : List α) (i : Nat) : List α := (l.getLast?.elim l (l.set i)).dropLast

theorem swapRemove_concat (front : List α) (z : α) (i : Nat) :
    swapRemove (front ++ [z]) i = ((front ++ [z]).set i z).dropLast := by
  rw [swapRemove, getLast?_concat, Option.elim_some]

theorem perm_swapRemove {l : List α} {x : α} (hi : l[i]? = some x) : l.Perm (x :: swapRemove l i) := by
  obtain ⟨front, z, rfl⟩ := (eq_nil_or_concat' l).resolve_left (by rintro rfl; cases hi)
  have hlast := perm_append_singleton z front
  rw [swapRemove_concat]
  rcases Nat.lt_or_ge i front.length with hlt | hge
  · rw [getElem?_append_left hlt] at hi
    obtain ⟨_, rfl⟩ := List.getElem?_eq_some_iff.mp hi
    rw [set_append_left _ _ hlt, dropLast_concat]
    have hrest := (set_perm_cons_eraseIdx hlt z).symm.cons front[i]
    exact hlast.trans (((getElem_cons_eraseIdx_perm hlt).symm.cons z).trans ((Perm.swap _ _ _).trans hrest))
  · rw [getElem?_append_right hge] at hi
    obtain ⟨hlen, rfl⟩ := List.getElem?_eq_some_iff.mp hi
    have hzero : i - front.length = 0 := Nat.lt_one_iff.mp hlen
    simp only [hzero, getElem_cons_zero]
    rw [set_append_right _ _ hge, hzero, set_cons_zero, dropLast_concat]
    exact hlast

/-- What is in front of the place stays. -/
theorem getElem?_swapRemove {l : List α} {j : Nat} (hi : i < l.length) (hj : j < i) : (swapRemove l i)[j]? = l[j]? := by
  obtain ⟨front, z, rfl⟩ := (eq_nil_or_concat' l).resolve_left (by rintro rfl; cases hi)
  rw [length_append, length_singleton] at hi
  rw [swapRemove_concat, getElem?_dropLast, length_set, length_append, length_singleton,
    if_pos (by omega), getElem?_set_ne (by omega)]

theorem length_swapRemove {l : List α} (hi : i < l.length) : (swapRemove l i).length + 1 = l.length := by
  have hlen := (perm_swapRemove (getElem?_eq_getElem hi)).length_eq
  exact hlen.symm

end

section

variable {α ε : Type} [DecidableEq ε] (S : α → List ε)

/-- The number of the things that have an element. -/
def degree (l : List α) (e : ε) : Nat := l.countP fun x => e ∈ S x

/-- The thing at a place has the element, and no other one has it. -/
def Lone (l : List α) (i : Nat) (e : ε) : Prop :=
  (∃ x, l[i]? = some x ∧ e ∈ S x) ∧ ∀ j y, j ≠ i → l[j]? = some y → e ∉ S y

variable {S} {e : ε}

theorem degree_cons (x : α) (l : List α) (e : ε) : degree S (x :: l) e = degree S l e + if e ∈ S x then 1 else 0 := by
  rw [degree, degree, countP_cons]
  simp

theorem degree_perm {l l' : List α} (h : l.Perm l') (e : ε) : degree S l e = degree S l' e := h.countP_eq _

theorem degree_le_length (l : List α) (e : ε) : degree S l e ≤ l.length := countP_le_length

theorem degree_pos_iff {l : List α} : 0 < degree S l e ↔ ∃ x ∈ l, e ∈ S x := by
  rw [degree]
  simp

/-- The elements of one thing alone are those of degree 1. -/
theorem lone_iff {l : List α} {x : α} (hi : l[i]? = some x) :
    Lone S l i e ↔ e ∈ S x ∧ degree S l e = 1 := by
  obtain ⟨hlt, hget⟩ := List.getElem?_eq_some_iff.mp hi
  have hperm := getElem_cons_eraseIdx_perm hlt
  rw [hget] at hperm
  have hothers : degree S (l.eraseIdx i) e = 0 ↔ ∀ j y, j ≠ i → l[j]? = some y → e ∉ S y := by
    rw [← Nat.le_zero, ← Nat.not_lt, degree_pos_iff]
    constructor
    · intro h j y hj hy he
      exact h ⟨y, mem_eraseIdx_iff_getElem?.mpr ⟨j, hj, hy⟩, he⟩
    · rintro h ⟨y, hy, he⟩
      obtain ⟨j, hj, hy⟩ := mem_eraseIdx_iff_getElem?.mp hy
      exact h j y hj hy he
  rw [Lone, ← degree_perm hperm, degree_cons, ← hothers]
  constructor
  · rintro ⟨⟨y, hy, he⟩, hzero⟩
    obtain rfl := Option.some.inj (hi.symm.trans hy)
    exact ⟨he, by rw [hzero, if_pos he]⟩
  · rintro ⟨he, hone⟩
    rw [if_pos he] at hone
    exact ⟨⟨x, hi, he⟩, by omega⟩

omit [DecidableEq ε] in
/-- Only what the things have matters. -/
theorem lone_map {f : α → α} (hf : ∀ x, S (f x) = S x) {l : List α} :
    Lone S (l.map f) i e ↔ Lone S l i e := by
  simp only [Lone, getElem?_map, Option.map_eq_some_iff, exists_exists_and_eq_and, forall_exists_index, and_imp, hf]
  refine and_congr_right fun _ => ⟨fun h j y hj hy => ?_, fun h j y hj x hx hxy => ?_⟩
  · have hnot := h j (f y) hj y hy rfl
    rwa [hf] at hnot
  · rw [← hxy, hf]
    exact h j x hj hx

end

end Vock.Library
