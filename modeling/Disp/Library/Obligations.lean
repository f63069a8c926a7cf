import Mathlib.Data.List.Basic

/-!
# Computations that collect obligations

A logged computation has a value together with the obligations met on the way to it, or it has
no value.  A fallible computation *realizes* a logged one if it succeeds exactly where all the
obligations hold.  The relation is kept by sequencing, so that two evaluators of one shape are
compared operation by operation.
-/

namespace Disp.Library.Obligations

open List

variable {ρ ε α β : Type}

def Logged (ρ α : Type) := Option (α × List ρ)

namespace Logged

variable {log : List ρ}

def andThen (x : Logged ρ α) (f : α → Logged ρ β) : Logged ρ β :=
  match x with
  | none => none
  | some (a, log) =>
    match f a with
    | none => none
    | some (b, later) => some (b, log ++ later)

instance : Monad (Logged ρ) where
  pure a := some (a, [])
  bind := andThen

def owing (a : α) (obligation : ρ) : Logged ρ α := some (a, [obligation])

theorem pure_eq_some {a b : α} : (pure a : Logged ρ α) = some (b, log) ↔ b = a ∧ log = [] := by
  change some (a, []) = some (b, log) ↔ _
  simp [eq_comm]

theorem bind_eq_some {x : Logged ρ α} {f : α → Logged ρ β} {b : β} :
    x >>= f = some (b, log) ↔
      ∃ a first later, x = some (a, first) ∧ f a = some (b, later) ∧ log = first ++ later := by
  change andThen x f = some (b, log) ↔ _
  unfold andThen
  constructor
  · intro h
    split at h
    · cases h
    · rename_i a first
      split at h
      · cases h
      · rename_i b later hf
        cases h
        exact ⟨a, first, later, rfl, hf, rfl⟩
  · rintro ⟨a, first, later, rfl, hf, rfl⟩
    simp only [hf]
    rfl

end Logged

/-! ## Realization -/

/-- `x` succeeds exactly where all the obligations of `y` hold, and with its value. -/
def Realizes (holds : ρ → Prop) (x : Except ε α) (y : Logged ρ α) : Prop :=
  ∀ a, x = .ok a ↔ ∃ log, y = some (a, log) ∧ ∀ obligation ∈ log, holds obligation

namespace Realizes

variable {holds : ρ → Prop} {x : Except ε α} {y : Logged ρ α}

theorem pure (a : α) : Realizes holds (.ok a : Except ε α) (Pure.pure a : Logged ρ α) := by
  intro b
  constructor
  · intro h
    cases h
    exact ⟨[], rfl, by simp⟩
  · rintro ⟨log, h, -⟩
    rw [(Logged.pure_eq_some.mp h).1]

theorem stuck (error : ε) : Realizes holds (.error error : Except ε α) (none : Logged ρ α) := by
  intro b
  constructor
  · intro h
    cases h
  · rintro ⟨log, h, -⟩
    cases h

theorem bind {f : α → Except ε β} {g : α → Logged ρ β} (hx : Realizes holds x y)
    (hf : ∀ a, Realizes holds (f a) (g a)) : Realizes holds (x >>= f) (y >>= g) := by
  intro b
  constructor
  · intro h
    cases hxa : x with
    | error error =>
      rw [hxa] at h
      cases h
    | ok a =>
      rw [hxa] at h
      obtain ⟨first, hy, hfirst⟩ := (hx a).mp hxa
      obtain ⟨later, hg, hlater⟩ := (hf a b).mp h
      refine ⟨first ++ later, Logged.bind_eq_some.mpr ⟨a, first, later, hy, hg, rfl⟩, ?_⟩
      intro obligation hmem
      exact (mem_append.mp hmem).elim (hfirst obligation) (hlater obligation)
  · rintro ⟨log, h, hlog⟩
    obtain ⟨a, first, later, hy, hg, rfl⟩ := Logged.bind_eq_some.mp h
    have hxa : x = .ok a :=
      (hx a).mpr ⟨first, hy, fun o ho => hlog o (mem_append_left _ ho)⟩
    have hfb : f a = .ok b :=
      (hf a b).mpr ⟨later, hg, fun o ho => hlog o (mem_append_right _ ho)⟩
    rw [hxa]
    exact hfb

theorem map (hx : Realizes holds x y) (f : α → β) : Realizes holds (f <$> x) (f <$> y) := by
  have h : Realizes holds (x >>= fun a => .ok (f a)) (y >>= fun a => Pure.pure (f a)) :=
    hx.bind fun a => pure (f a)
  cases x <;> exact h

end Realizes

end Disp.Library.Obligations
