import Mathlib.Data.List.Forall2

/-!
# Pattern matrices

Patterns over a set of constructors, rows of them, and the values they cover.  How a value
is built is given by a view: its constructor and its parts, if it has any.
-/

namespace Disp.Library.PatternMatrix

open List

inductive Pattern (κ : Type)
  | wildcard
  | constructor (head : κ) (arguments : List (Pattern κ))

/-- What is known of a column's values: nothing, or the constructors they are built with and
the shapes of their parts. -/
inductive Shape (κ : Type)
  | opened
  | finite (constructors : List (κ × List (Shape κ)))

section

variable {κ V : Type} (view : V → Option (κ × List V))

mutual

def Covers : Pattern κ → V → Prop
  | .wildcard, _ => True
  | .constructor head arguments, value =>
    ∃ parts, view value = some (head, parts) ∧ CoversAll arguments parts

def CoversAll : List (Pattern κ) → List V → Prop
  | [], values => values = []
  | pattern :: patterns, values =>
    ∃ value rest, values = value :: rest ∧ Covers pattern value ∧ CoversAll patterns rest

end

/-- The values of a shape. -/
inductive Fits : Shape κ → V → Prop
  | opened (value : V) : Fits .opened value
  | finite {constructors : List (κ × List (Shape κ))} {head : κ} {shapes : List (Shape κ)}
      {value : V} {parts : List V} : (head, shapes) ∈ constructors →
      view value = some (head, parts) → parts.length = shapes.length →
      (∀ pair ∈ parts.zip shapes, Fits pair.2 pair.1) → Fits (.finite constructors) value

end

mutual

/-- A pattern only has constructors that its shape has, with as many arguments; below an open
shape it may have any. -/
def Respects {κ : Type} : Pattern κ → Shape κ → Prop
  | .wildcard, _ => True
  | .constructor _ _, .opened => True
  | .constructor head arguments, .finite constructors =>
    (∃ shapes, (head, shapes) ∈ constructors) ∧
      ∀ shapes, (head, shapes) ∈ constructors → RespectsAll arguments shapes

def RespectsAll {κ : Type} : List (Pattern κ) → List (Shape κ) → Prop
  | [], shapes => shapes = []
  | pattern :: patterns, shapes =>
    ∃ shape rest, shapes = shape :: rest ∧ Respects pattern shape ∧ RespectsAll patterns rest

end

mutual

def Agree {κ : Type} : Pattern κ → Pattern κ → Prop
  | .constructor c xs, .constructor d ys => c = d → AgreeAll xs ys
  | _, _ => True

def AgreeAll {κ : Type} : List (Pattern κ) → List (Pattern κ) → Prop
  | [], ys => ys = []
  | x :: xs, ys => ∃ y rest, ys = y :: rest ∧ Agree x y ∧ AgreeAll xs rest

end

section

variable {κ V : Type} {view : V → Option (κ × List V)} {pattern : Pattern κ}
  {patterns xs ys : List (Pattern κ)} {us : List (Shape κ)} {count : Nat} {vs : List V}

theorem respectsAll_cons {shape : Shape κ} {shapes : List (Shape κ)} :
    RespectsAll (pattern :: patterns) (shape :: shapes) ↔
      Respects pattern shape ∧ RespectsAll patterns shapes := by
  simp [RespectsAll]

theorem RespectsAll.append {vs : List (Shape κ)} (hxs : RespectsAll xs us)
    (hys : RespectsAll ys vs) : RespectsAll (xs ++ ys) (us ++ vs) := by
  induction xs generalizing us with
  | nil =>
    obtain rfl : us = [] := by simpa [RespectsAll] using hxs
    exact hys
  | cons x xs ih =>
    obtain ⟨u, rest, rfl, hx, hrest⟩ := hxs
    exact ⟨u, rest ++ vs, rfl, hx, ih hrest⟩

theorem RespectsAll.length_eq (h : RespectsAll xs us) : xs.length = us.length := by
  induction xs generalizing us with
  | nil =>
    obtain rfl : us = [] := by simpa [RespectsAll] using h
    rfl
  | cons x xs ih =>
    obtain ⟨u, rest, rfl, -, hrest⟩ := h
    simp [ih hrest]

theorem respectsAll_wildcards (shapes : List (Shape κ)) :
    RespectsAll (List.replicate shapes.length .wildcard) shapes := by
  induction shapes with
  | nil => simp [RespectsAll]
  | cons shape shapes ih =>
    rw [length_cons, replicate_succ, respectsAll_cons]
    exact ⟨by simp [Respects], ih⟩

theorem agreeAll_cons {x y : Pattern κ} :
    AgreeAll (x :: xs) (y :: ys) ↔ Agree x y ∧ AgreeAll xs ys := by
  simp [AgreeAll]

theorem AgreeAll.append {us vs : List (Pattern κ)} (hxs : AgreeAll xs us) (hys : AgreeAll ys vs) :
    AgreeAll (xs ++ ys) (us ++ vs) := by
  induction xs generalizing us with
  | nil =>
    obtain rfl : us = [] := by simpa [AgreeAll] using hxs
    exact hys
  | cons x xs ih =>
    obtain ⟨u, rest, rfl, hx, hrest⟩ := hxs
    exact ⟨u, rest ++ vs, rfl, hx, ih hrest⟩

theorem agree_wildcard (x : Pattern κ) : Agree x .wildcard := by
  cases x <;> simp [Agree]

theorem agreeAll_wildcards (h : xs.length = count) :
    AgreeAll xs (List.replicate count .wildcard) := by
  subst h
  induction xs with
  | nil => simp [AgreeAll]
  | cons x xs ih =>
    rw [length_cons, replicate_succ, agreeAll_cons]
    exact ⟨agree_wildcard x, ih⟩

theorem wildcards_agreeAll (h : xs.length = count) :
    AgreeAll (List.replicate count .wildcard) xs := by
  subst h
  induction xs with
  | nil => simp [AgreeAll]
  | cons x xs ih =>
    rw [length_cons, replicate_succ, agreeAll_cons]
    exact ⟨by simp [Agree], ih⟩

theorem coversAll_cons {value : V} {values : List V} :
    CoversAll view (pattern :: patterns) (value :: values) ↔
      Covers view pattern value ∧ CoversAll view patterns values := by
  simp [CoversAll]

theorem coversAll_append {us : List V} (hlen : xs.length = us.length) :
    CoversAll view (xs ++ ys) (us ++ vs) ↔ CoversAll view xs us ∧ CoversAll view ys vs := by
  induction xs generalizing us with
  | nil =>
    obtain rfl : us = [] := length_eq_zero_iff.mp hlen.symm
    simp [CoversAll]
  | cons x xs ih =>
    cases us with
    | nil => cases hlen
    | cons u us =>
      simp only [cons_append, coversAll_cons, ih (Nat.succ.inj hlen), and_assoc]

theorem forall₂_fits_append {xs ys : List (Shape κ)} {us : List V}
    (hlen : us.length = xs.length) (hparts : ∀ pair ∈ us.zip xs, Fits view pair.2 pair.1)
    (hrest : List.Forall₂ (Fits view) ys vs) : List.Forall₂ (Fits view) (xs ++ ys) (us ++ vs) := by
  induction xs generalizing us with
  | nil =>
    obtain rfl : us = [] := length_eq_zero_iff.mp hlen
    exact hrest
  | cons x xs ih =>
    cases us with
    | nil => cases hlen
    | cons u us =>
      simp only [zip_cons_cons, mem_cons, forall_eq_or_imp] at hparts
      exact .cons hparts.1 (ih (Nat.succ.inj hlen) hparts.2)

end

end Disp.Library.PatternMatrix
