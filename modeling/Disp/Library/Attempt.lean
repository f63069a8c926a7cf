import Mathlib.Data.List.Basic

/-!
# Computations that keep their state when they fail

A computation on a state ends with a value or a failure, and with a state in both cases.  The
rules below say what all of its ends have in common.
-/

namespace Disp.Library

/-- A computation on states `σ` with values `α` and failures `φ`. -/
def Attempt (σ φ α : Type) : Type :=
  σ → Except φ α × σ

namespace Attempt

variable {σ φ α β : Type} {computation : Attempt σ φ α} {state after : σ} {value : α}
  {body : Attempt σ φ α}

instance : Monad (Attempt σ φ) where
  pure value := fun state => (.ok value, state)
  bind computation next := fun state =>
    match computation state with
    | (.ok value, state) => next value state
    | (.error failure, state) => (.error failure, state)

def fail (failure : φ) : Attempt σ φ α :=
  fun state => (.error failure, state)

def inspect (f : σ → α) : Attempt σ φ α :=
  fun state => (.ok (f state), state)

def modify (f : σ → σ) : Attempt σ φ Unit :=
  fun state => (.ok (), f state)

def ofOption (failure : φ) (result : Option α) : Attempt σ φ α :=
  match result with
  | some value => pure value
  | none => fail failure

def within (enter exit : σ → σ) (body : Attempt σ φ α) : Attempt σ φ α := fun state =>
  let result := body (enter state)
  (result.1, exit result.2)

/-- Run a computation and, however it ends, another one whose failure takes its place. -/
def followedBy (body : Attempt σ φ α) (next : Attempt σ φ Unit) : Attempt σ φ α := fun state =>
  let result := body state
  match next result.2 with
  | (.ok _, state) => (result.1, state)
  | (.error failure, state) => (.error failure, state)

/-! ## Ends with a value -/

theorem bind_eq_ok {next : α → Attempt σ φ β} {value : β}
    (h : (computation >>= next) state = (.ok value, after)) :
    ∃ middle first, computation state = (.ok first, middle) ∧
      next first middle = (.ok value, after) := by
  change (match computation state with
    | (.ok value, state) => next value state
    | (.error failure, state) => (.error failure, state)) = _ at h
  split at h
  case h_1 first middle hfirst => exact ⟨middle, first, hfirst, h⟩
  case h_2 => cases h

theorem bind_of_ok (next : α → Attempt σ φ β) {middle : σ} {first : α}
    (h : computation state = (.ok first, middle)) :
    (computation >>= next) state = next first middle := by
  change (match computation state with
    | (.ok value, state) => next value state
    | (.error failure, state) => (.error failure, state)) = _
  rw [h]

theorem pure_eq_ok {other : α} (h : (pure value : Attempt σ φ α) state = (.ok other, after)) :
    value = other ∧ state = after := by
  cases h
  exact ⟨rfl, rfl⟩

theorem within_eq_ok {enter exit : σ → σ} (h : within enter exit body state = (.ok value, after)) :
    ∃ inside, body (enter state) = (.ok value, inside) ∧ after = exit inside := by
  obtain ⟨hval, hafter⟩ := Prod.mk.inj h
  exact ⟨(body (enter state)).2, Prod.ext hval rfl, hafter.symm⟩

theorem followedBy_eq_ok {next : Attempt σ φ Unit}
    (h : followedBy body next state = (.ok value, after)) :
    ∃ middle, body state = (.ok value, middle) ∧ next middle = (.ok (), after) := by
  unfold followedBy at h
  dsimp only at h
  split at h
  case h_1 _ middle hnext =>
      obtain ⟨hval, rfl⟩ := Prod.mk.inj h
      exact ⟨(body state).2, Prod.ext hval rfl, hnext⟩
  case h_2 => cases h

/-! ## What every end keeps -/

/-- However the computation ends, with a value or with a failure that counts, its last state is
related to its first one. -/
def Keeps (R : σ → σ → Prop) (counts : φ → Prop) (computation : Attempt σ φ α) : Prop :=
  ∀ state, (∀ failure, (computation state).1 = .error failure → counts failure) →
    R state (computation state).2

section Rules

variable {R : σ → σ → Prop} {counts : φ → Prop}

theorem Keeps.of_ok (h : Keeps R counts computation)
    (hok : computation state = (.ok value, after)) : R state after := by
  have hkeeps := h state (by rw [hok]; nofun)
  rwa [hok] at hkeeps

section

variable (hrefl : ∀ state, R state state)

include hrefl

theorem keeps_pure (value : α) : Keeps R counts (pure value : Attempt σ φ α) :=
  fun state _ => hrefl state

theorem keeps_fail (failure : φ) : Keeps R counts (fail failure : Attempt σ φ α) :=
  fun state _ => hrefl state

theorem keeps_inspect (f : σ → α) : Keeps R counts (inspect f : Attempt σ φ α) :=
  fun state _ => hrefl state

theorem keeps_ofOption (failure : φ) (result : Option α) :
    Keeps R counts (ofOption failure result : Attempt σ φ α) := by
  cases result with
  | none => exact keeps_fail hrefl failure
  | some value => exact keeps_pure hrefl value

end

theorem keeps_modify {f : σ → σ} (h : ∀ state, R state (f state)) :
    Keeps R counts (modify f : Attempt σ φ Unit) :=
  fun state _ => h state

theorem Keeps.bind (htrans : ∀ a b c, R a b → R b c → R a c) {next : α → Attempt σ φ β}
    (h : Keeps R counts computation) (hnext : ∀ value, Keeps R counts (next value)) :
    Keeps R counts (computation >>= next) := by
  intro state hcounts
  have hfirst := h state
  change ∀ failure, (match computation state with
    | (.ok value, state) => next value state
    | (.error failure, state) => (.error failure, state)).1 = .error failure → counts failure
    at hcounts
  change R state (match computation state with
    | (.ok value, state) => next value state
    | (.error failure, state) => (.error failure, state)).2
  rcases hres : computation state with ⟨value | value, middle⟩
  · rw [hres] at hfirst hcounts
    refine hfirst fun failure hfailure => hcounts failure ?_
    cases hfailure
    rfl
  · rw [hres] at hfirst hcounts
    exact htrans _ _ _ (hfirst nofun) (hnext value middle hcounts)

theorem Keeps.mono {R' : σ → σ → Prop} (h : Keeps R counts computation)
    (hsub : ∀ a b, R a b → R' a b) : Keeps R' counts computation :=
  fun state hcounts => hsub _ _ (h state hcounts)

theorem Keeps.within {R' : σ → σ → Prop} {enter exit : σ → σ} {body : Attempt σ φ α}
    (h : Keeps R' counts body) (hexit : ∀ a b, R' (enter a) b → R a (exit b)) :
    Keeps R counts (within enter exit body) :=
  fun state hcounts => hexit _ _ (h (enter state) hcounts)

theorem Keeps.followedBy (htrans : ∀ a b c, R a b → R b c → R a c)
    {body : Attempt σ φ α} {next : Attempt σ φ Unit} (h : Keeps R counts body)
    (hnext : Keeps R counts next)
    (hfails : ∀ state failure, (next state).1 = .error failure → ¬ counts failure) :
    Keeps R counts (followedBy body next) := by
  intro state hcounts
  unfold Attempt.followedBy at hcounts ⊢
  dsimp only at hcounts ⊢
  have hafter := hnext (body state).2
  have hno := hfails (body state).2
  rcases hres : next (body state).2 with ⟨failure | value, after⟩
  · rw [hres] at hcounts hno
    exact absurd (hcounts failure rfl) (hno failure rfl)
  · rw [hres] at hcounts hafter
    exact htrans _ _ _ (h state hcounts) (hafter nofun)

end Rules

end Attempt

end Disp.Library
