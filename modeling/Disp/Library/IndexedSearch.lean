import Mathlib.Algebra.Order.Ring.Int
import Mathlib.Data.List.Forall2
import Mathlib.Tactic.Linarith
import Mathlib.Tactic.Ring

/-!
# Searching a list by position

Two ways of looking a partial function up over a list, with the position of the
hit: the first element on which it is defined, and all of them.  Each search is
characterised by what holds at every position.
-/

namespace Disp.Library.IndexedSearch

open List

variable {α β : Type}

/-- The first element, counted from `start`, on which `f` is defined. -/
def firstHit (f : α → Option β) : List α → Nat → Option (Nat × β)
  | [], _ => none
  | x :: xs, start =>
    match f x with
    | some b => some (start, b)
    | none => firstHit f xs (start + 1)

/-- Every element, counted from `start`, on which `f` is defined. -/
def allHits (f : α → Option β) : List α → Nat → List (Nat × β)
  | [], _ => []
  | x :: xs, start =>
    match f x with
    | some b => (start, b) :: allHits f xs (start + 1)
    | none => allHits f xs (start + 1)

section

variable (f : α → Option β) (xs : List α) (start k : Nat) (b : β)

include f xs start k b

private theorem firstHit_ne_of_lt (h : k < start) : firstHit f xs start ≠ some (k, b) := by
  induction xs generalizing start with
  | nil => simp [firstHit]
  | cons x xs ih =>
    simp only [firstHit]
    split
    · simp only [ne_eq, Option.some.injEq, Prod.mk.injEq]
      omega
    · exact ih (start + 1) (by omega)

theorem firstHit_eq_some_iff :
    firstHit f xs start = some (start + k, b) ↔
      (∃ x, xs[k]? = some x ∧ f x = some b) ∧ ∀ i < k, ∀ y, xs[i]? = some y → f y = none := by
  induction xs generalizing start k with
  | nil => simp [firstHit]
  | cons x xs ih =>
    cases hx : f x with
    | some c =>
      cases k with
      | zero => simp [firstHit, hx]
      | succ k =>
        simp only [firstHit, hx, Option.some.injEq, Prod.mk.injEq]
        constructor
        · omega
        · rintro ⟨-, h⟩
          have := h 0 (by omega) x rfl
          simp_all
    | none =>
      cases k with
      | zero =>
        simp only [firstHit, hx]
        constructor
        · intro h
          exact absurd h (firstHit_ne_of_lt f xs (start + 1) start b (by omega))
        · simp_all
      | succ k =>
        have hstep := ih (start + 1) k
        rw [show start + 1 + k = start + (k + 1) by omega] at hstep
        simp only [firstHit, hx, hstep]
        refine and_congr_right fun _ => ⟨fun h i hi y hy => ?_, fun h i hi y hy => ?_⟩
        · cases i with
          | zero => simp_all
          | succ i => exact h i (by omega) y (by simpa using hy)
        · exact h (i + 1) (by omega) y (by simpa using hy)

theorem mem_allHits :
    (k, b) ∈ allHits f xs start ↔ start ≤ k ∧ ∃ x, xs[k - start]? = some x ∧ f x = some b := by
  induction xs generalizing start with
  | nil => simp [allHits]
  | cons x xs ih =>
    have hrest : (k, b) ∈ allHits f xs (start + 1) ↔
        start + 1 ≤ k ∧ ∃ y, (x :: xs)[k - start]? = some y ∧ f y = some b := by
      rw [ih (start + 1)]
      refine and_congr_right fun hk => ?_
      rw [show k - start = (k - (start + 1)) + 1 by omega, List.getElem?_cons_succ]
    have hsplit : start ≤ k ↔ k = start ∨ start + 1 ≤ k := by omega
    cases hx : f x with
    | some c =>
      simp only [allHits, hx, mem_cons, hrest]
      constructor
      · rintro (⟨rfl, rfl⟩ | ⟨hk, h⟩)
        · exact ⟨Nat.le_refl _, x, by simp, hx⟩
        · exact ⟨by omega, h⟩
      · rintro ⟨hk, y, hy, hb⟩
        rcases hsplit.mp hk with rfl | hk
        · simp_all
        · exact Or.inr ⟨hk, y, hy, hb⟩
    | none =>
      simp only [allHits, hx, hrest]
      constructor
      · rintro ⟨hk, h⟩
        exact ⟨by omega, h⟩
      · rintro ⟨hk, y, hy, hb⟩
        rcases hsplit.mp hk with rfl | hk
        · simp_all
        · exact ⟨hk, y, hy, hb⟩

end

theorem nodup_allHits (f : α → Option β) (xs : List α) (start : Nat) :
    (allHits f xs start).Nodup := by
  induction xs generalizing start with
  | nil => simp [allHits]
  | cons x xs ih =>
    cases hx : f x with
    | some c =>
      simp only [allHits, hx, nodup_cons]
      refine ⟨fun h => ?_, ih _⟩
      have := ((mem_allHits f xs (start + 1) start c).mp h).1
      omega
    | none =>
      simp only [allHits, hx]
      exact ih _

private theorem eq_singleton_of_nodup {γ : Type} {l : List γ} {a : γ}
    (hall : ∀ e ∈ l, e = a) (hnd : l.Nodup) (hin : a ∈ l) : l = [a] := by
  match l, hall, hnd, hin with
  | [x], hall, _, _ => rw [hall x (by simp)]
  | x :: y :: rest, hall, hnd, _ =>
    have hx := hall x (by simp)
    have hy := hall y (by simp)
    simp [hx, hy] at hnd

/-- The search has one hit exactly when `f` is defined at one position only. -/
theorem allHits_eq_singleton_iff (f : α → Option β) (xs : List α) (k : Nat) (b : β) :
    allHits f xs 0 = [(k, b)] ↔
      (∃ x, xs[k]? = some x ∧ f x = some b) ∧ ∀ i, i ≠ k → ∀ y, xs[i]? = some y → f y = none := by
  have hmem : ∀ i c, (i, c) ∈ allHits f xs 0 ↔ ∃ x, xs[i]? = some x ∧ f x = some c := by
    intro i c
    simpa using mem_allHits f xs 0 i c
  constructor
  · intro h
    refine ⟨(hmem k b).mp (by simp [h]), fun i hi y hy => ?_⟩
    cases hf : f y with
    | none => rfl
    | some c =>
      have := (hmem i c).mpr ⟨y, hy, hf⟩
      simp [h, hi] at this
  · rintro ⟨hk, hother⟩
    have hin : (k, b) ∈ allHits f xs 0 := (hmem k b).mpr hk
    have hall : ∀ e ∈ allHits f xs 0, e = (k, b) := by
      rintro ⟨i, c⟩ he
      obtain ⟨x, hx, hc⟩ := (hmem i c).mp he
      by_cases hi : i = k
      · simp_all
      · simp [hother i hi x hx] at hc
    exact eq_singleton_of_nodup hall (nodup_allHits f xs 0) hin

theorem mem_of_lookup {κ α : Type} [BEq κ] [LawfulBEq κ] {table : List (κ × α)} {key : κ}
    {value : α} (h : table.lookup key = some value) : (key, value) ∈ table := by
  obtain ⟨before, after, rfl, -⟩ := lookup_eq_some_iff.mp h
  simp

theorem lookup_of_mem {κ α : Type} [BEq κ] [LawfulBEq κ] {table : List (κ × α)}
    (hnodup : (table.map Prod.fst).Nodup) {entry : κ × α} (hmem : entry ∈ table) :
    table.lookup entry.1 = some entry.2 := by
  induction table with
  | nil => cases hmem
  | cons first table ih =>
    obtain ⟨key, value⟩ := first
    rcases mem_cons.mp hmem with rfl | hrest
    · simp
    · simp only [map_cons, nodup_cons] at hnodup
      have hne : entry.1 ≠ key := by
        rintro rfl
        exact hnodup.1 (mem_map_of_mem hrest)
      rw [lookup_cons, beq_false_of_ne hne]
      exact ih hnodup.2 hrest

end Disp.Library.IndexedSearch
