import Mathlib.Data.List.Infix
import Mathlib.Data.Nat.Basic
import Mathlib.Order.Basic

/-!
# Input that arrives in pieces

A stream is received in pieces of any size.  `find` looks for a mark in what was received, and
`fill` receives pieces until a number of items is there.  The lemmas say how a search in a part
of the stream relates to the search in the whole of it.
-/

namespace Disp.Library.Fragments

open List

section

variable {α : Type} {mark left : List α} {i : Nat} {items right : List α}

/-! ## Searching for a mark -/

theorem prefix_drop_append (h : i + mark.length ≤ left.length) (right : List α) :
    mark <+: (left ++ right).drop i ↔ mark <+: left.drop i := by
  rw [drop_append_of_le_length (by omega)]
  constructor
  · exact fun hmatch => prefix_of_prefix_length_le hmatch (prefix_append _ _)
      (by rw [length_drop]; omega)
  · exact fun hmatch => hmatch.trans (prefix_append _ _)

variable [DecidableEq α]

def find (mark : List α) : List α → Option Nat
  | [] => none
  | item :: items =>
    if mark.isPrefixOf (item :: items) then some 0 else (find mark items).map (· + 1)

section

variable (hmark : mark ≠ [])

include hmark

theorem find_eq_none_iff : find mark items = none ↔ ∀ j, ¬mark <+: items.drop j := by
  induction items with
  | nil => simp [find, hmark]
  | cons item items ih =>
    rw [find]
    split_ifs with hmatch
    · constructor
      · intro h
        cases h
      · exact fun h => absurd (List.isPrefixOf_iff_prefix.mp hmatch) (h 0)
    · rw [List.isPrefixOf_iff_prefix] at hmatch
      rw [Option.map_eq_none_iff, ih]
      refine ⟨fun h j => ?_, fun h j => h (j + 1)⟩
      cases j with
      | zero => exact hmatch
      | succ j => exact h j

theorem find_eq_some_iff :
    find mark items = some i ↔ mark <+: items.drop i ∧ ∀ j < i, ¬mark <+: items.drop j := by
  induction items generalizing i with
  | nil => simp [find, hmark]
  | cons item items ih =>
    rw [find]
    split_ifs with hmatch
    · rw [List.isPrefixOf_iff_prefix] at hmatch
      constructor
      · rintro h
        cases h
        exact ⟨hmatch, fun j hj => absurd hj (Nat.not_lt_zero j)⟩
      · rintro ⟨-, hnone⟩
        cases i with
        | zero => rfl
        | succ i => exact absurd hmatch (hnone 0 (Nat.succ_pos i))
    · rw [List.isPrefixOf_iff_prefix] at hmatch
      rw [Option.map_eq_some_iff]
      cases i with
      | zero =>
        refine ⟨fun ⟨_, _, h⟩ => absurd h (Nat.succ_ne_zero _), fun h => absurd h.1 hmatch⟩
      | succ i =>
        constructor
        · rintro ⟨k, hk, hsucc⟩
          cases hsucc
          obtain ⟨hfound, hnone⟩ := ih.mp hk
          refine ⟨hfound, fun j hj => ?_⟩
          cases j with
          | zero => exact hmatch
          | succ j => exact hnone j (Nat.lt_of_succ_lt_succ hj)
        · rintro ⟨hfound, hnone⟩
          exact ⟨i, ih.mpr ⟨hfound, fun j hj => hnone (j + 1) (Nat.succ_lt_succ hj)⟩, rfl⟩

theorem find_length_le (h : find mark items = some i) : i + mark.length ≤ items.length := by
  have hmatch := ((find_eq_some_iff hmark).mp h).1.length_le
  have hpos := length_pos_iff.mpr hmark
  rw [length_drop] at hmatch
  omega

theorem find_split (h : find mark items = some i) :
    ∃ rest, items = items.take i ++ (mark ++ rest) ∧ (items.take i).length = i := by
  have hlen := find_length_le hmark h
  obtain ⟨rest, hrest⟩ := ((find_eq_some_iff hmark).mp h).1
  refine ⟨rest, ?_, length_take_of_le (by omega)⟩
  rw [hrest, take_append_drop]

theorem find_append (h : find mark (left ++ right) = some i) :
    find mark left = if i + mark.length ≤ left.length then some i else none := by
  obtain ⟨hfound, hnone⟩ := (find_eq_some_iff hmark).mp h
  split_ifs with hinside
  · refine (find_eq_some_iff hmark).mpr
      ⟨(prefix_drop_append hinside right).mp hfound, fun j hj => ?_⟩
    rw [← prefix_drop_append (by omega) right]
    exact hnone j hj
  · refine (find_eq_none_iff hmark).mpr fun j hmatch => ?_
    have hpos := length_pos_iff.mpr hmark
    have hlen := hmatch.length_le
    rw [length_drop] at hlen
    have hwhole := (prefix_drop_append (by omega) right).mpr hmatch
    exact hnone j (by omega) hwhole

theorem find_append_of_some (h : find mark left = some i) (right : List α) :
    find mark (left ++ right) = some i := by
  have hlen := find_length_le hmark h
  obtain ⟨hfound, hnone⟩ := (find_eq_some_iff hmark).mp h
  refine (find_eq_some_iff hmark).mpr ⟨(prefix_drop_append hlen right).mpr hfound, fun j hj => ?_⟩
  rw [prefix_drop_append (by omega) right]
  exact hnone j hj

theorem find_append_of_none (hleft : find mark left = none)
    (h : find mark (left ++ right) = some i) : left.length < i + mark.length := by
  rw [find_append hmark h] at hleft
  split_ifs at hleft with hinside
  omega

end

end

/-! ## Receiving pieces -/

section

variable {α : Type} {count : Nat} {received : List α} {pieces : List (List α)}

/-- Receive pieces until `count` items are there. -/
def fill (count : Nat) : List α → List (List α) → List α × List (List α)
  | received, [] => (received, [])
  | received, piece :: pieces =>
    if count ≤ received.length then (received, piece :: pieces)
    else fill count (received ++ piece) pieces

theorem fill_of_le (h : count ≤ received.length) (pieces : List (List α)) :
    fill count received pieces = (received, pieces) := by
  cases pieces with
  | nil => rfl
  | cons piece pieces => rw [fill, if_pos h]

theorem fill_of_lt (h : received.length < count) (piece : List α) (pieces : List (List α)) :
    fill count received (piece :: pieces) = fill count (received ++ piece) pieces := by
  rw [fill, if_neg (by omega)]

theorem fill_flatten (count : Nat) (received : List α) (pieces : List (List α)) :
    (fill count received pieces).1 ++ (fill count received pieces).2.flatten =
      received ++ pieces.flatten := by
  induction pieces generalizing received with
  | nil => rfl
  | cons piece pieces ih =>
    by_cases h : count ≤ received.length
    · rw [fill_of_le h]
    · rw [fill_of_lt (by omega), ih, append_assoc, flatten_cons]

theorem le_length_fill (h : count ≤ (received ++ pieces.flatten).length) :
    count ≤ (fill count received pieces).1.length := by
  induction pieces generalizing received with
  | nil => simpa [fill] using h
  | cons piece pieces ih =>
    by_cases hle : count ≤ received.length
    · rw [fill_of_le hle]
      exact hle
    · rw [fill_of_lt (by omega)]
      refine ih ?_
      rwa [append_assoc, ← flatten_cons]

theorem length_le_fill (count : Nat) (received : List α) (pieces : List (List α)) :
    received.length ≤ (fill count received pieces).1.length := by
  induction pieces generalizing received with
  | nil => exact le_rfl
  | cons piece pieces ih =>
    by_cases hle : count ≤ received.length
    · rw [fill_of_le hle]
    · rw [fill_of_lt (by omega)]
      have := ih (received ++ piece)
      rw [length_append] at this
      omega

theorem fill_drop {skip : Nat} (count : Nat) (h : skip ≤ received.length) (pieces : List (List α)) :
    fill count (received.drop skip) pieces =
      ((fill (skip + count) received pieces).1.drop skip,
        (fill (skip + count) received pieces).2) := by
  induction pieces generalizing received with
  | nil => rfl
  | cons piece pieces ih =>
    have hlen : (received.drop skip).length = received.length - skip := length_drop
    by_cases hle : count ≤ (received.drop skip).length
    · rw [fill_of_le hle, fill_of_le (by omega)]
    · rw [fill_of_lt (by omega), fill_of_lt (by omega),
        ← drop_append_of_le_length h, ih (by rw [length_append]; omega)]

theorem mem_of_mem_fill {piece : List α} (h : piece ∈ (fill count received pieces).2) :
    piece ∈ pieces := by
  induction pieces generalizing received with
  | nil => exact h
  | cons first pieces ih =>
    by_cases hle : count ≤ received.length
    · rwa [fill_of_le hle] at h
    · rw [fill_of_lt (by omega)] at h
      exact mem_cons_of_mem _ (ih h)

theorem fill_fill {first second : Nat} (h : first ≤ second) (received : List α)
    (pieces : List (List α)) :
    fill second (fill first received pieces).1 (fill first received pieces).2 =
      fill second received pieces := by
  induction pieces generalizing received with
  | nil => rfl
  | cons piece pieces ih =>
    by_cases hle : first ≤ received.length
    · rw [fill_of_le hle]
    · rw [fill_of_lt (by omega), fill_of_lt (by omega), ih]

/-- Where the stream is cut after `count` items, nothing more is received. -/
theorem fill_cut {first : List (List α)} (hpieces : ∀ piece ∈ first, piece ≠ [])
    (h : received.length + first.flatten.length = count) (second : List (List α)) :
    fill count received (first ++ second) = (received ++ first.flatten, second) := by
  induction first generalizing received with
  | nil => simpa using fill_of_le (by simpa using h.ge) second
  | cons piece first ih =>
    have hpiece := length_pos_iff.mpr (hpieces piece mem_cons_self)
    rw [flatten_cons, length_append] at h
    rw [cons_append, fill_of_lt (by omega),
      ih (fun other hother => hpieces other (mem_cons_of_mem _ hother))
        (by rw [length_append]; omega),
      append_assoc, flatten_cons]

theorem length_fill_lt {count limit : Nat} {received : List α} {pieces : List (List α)}
    (hpieces : ∀ piece ∈ pieces, piece.length ≤ limit) (h : received.length < count + limit) :
    (fill count received pieces).1.length < count + limit := by
  induction pieces generalizing received with
  | nil => exact h
  | cons piece pieces ih =>
    by_cases hle : count ≤ received.length
    · rw [fill_of_le hle]
      exact h
    · rw [fill_of_lt (by omega)]
      have hpiece := hpieces piece mem_cons_self
      refine ih (fun other hother => hpieces other (mem_cons_of_mem _ hother)) ?_
      rw [length_append]
      omega

end

end Disp.Library.Fragments
