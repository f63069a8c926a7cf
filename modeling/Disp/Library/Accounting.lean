import Mathlib.Data.Nat.Basic
import Disp.Library.Codec

/-!
# Paying for what is built

Computations that may fail and that keep a counter in their state.  Such a computation accounts
for its result if the result is worth no more than what was given to it plus what the counter
went up by.  The worth of a result and the counter are arbitrary; the rules say how accounts of
parts make up the account of the whole.
-/

namespace Disp.Library.Accounting

open Disp.Library.Codec (bind_eq_ok)

variable {σ ε α β : Type} (spent : σ → Nat) (limit : Nat) {run : StateT σ (Except ε) α}
  {worth' : β → Nat} {ensured' : β → Prop} {extra : Nat}

/-- Whenever `run` returns, what it returns is worth no more than `given` and the rise of the
counter, the counter has not passed the limit, and the result is as `ensured`. -/
structure Accounts (run : StateT σ (Except ε) α) (worth : α → Nat) (given : Nat)
    (ensured : α → Prop) : Prop where
  pays : ∀ {state value state'}, run state = .ok (value, state') →
    worth value + spent state ≤ given + spent state'
  bounded : ∀ {state value state'}, run state = .ok (value, state') →
    spent state ≤ limit → spent state' ≤ limit
  ensures : ∀ {state value state'}, run state = .ok (value, state') → ensured value

variable {spent limit} {worth : α → Nat} {given : Nat} {ensured : α → Prop}

theorem Accounts.pure {value : α} (hworth : worth value ≤ given) (hval : ensured value) :
    Accounts spent limit (Pure.pure value : StateT σ (Except ε) α) worth given ensured where
  pays h := by
    obtain ⟨rfl, rfl⟩ := Prod.mk.inj (Except.ok.inj h)
    omega
  bounded h hlimit := by
    obtain ⟨rfl, rfl⟩ := Prod.mk.inj (Except.ok.inj h)
    exact hlimit
  ensures h := by
    obtain ⟨rfl, rfl⟩ := Prod.mk.inj (Except.ok.inj h)
    exact hval

theorem Accounts.throw (error : ε) :
    Accounts spent limit (MonadExcept.throw error : StateT σ (Except ε) α) worth given ensured where
  pays h := nomatch h
  bounded h := nomatch h
  ensures h := nomatch h

theorem Accounts.bind {next : α → StateT σ (Except ε) β} {more : Nat}
    (hrun : Accounts spent limit run worth given ensured) (hnext : ∀ value, ensured value →
      Accounts spent limit (next value) worth' (worth value + more) ensured') :
    Accounts spent limit (run >>= next) worth' (given + more) ensured' where
  pays h := by
    obtain ⟨⟨value, middle⟩, hval, h⟩ := bind_eq_ok h
    have hfirst := hrun.pays hval
    have hsecond := (hnext value (hrun.ensures hval)).pays h
    omega
  bounded h hlimit := by
    obtain ⟨⟨value, middle⟩, hval, h⟩ := bind_eq_ok h
    exact (hnext value (hrun.ensures hval)).bounded h (hrun.bounded hval hlimit)
  ensures h := by
    obtain ⟨⟨value, middle⟩, hval, h⟩ := bind_eq_ok h
    exact (hnext value (hrun.ensures hval)).ensures h

theorem Accounts.mono {given' : Nat} {ensured' : α → Prop}
    (hrun : Accounts spent limit run worth given ensured) (hgiven : given ≤ given')
    (hensured : ∀ value, ensured value → ensured' value) :
    Accounts spent limit run worth given' ensured' where
  pays h := (hrun.pays h).trans (by omega)
  bounded h := hrun.bounded h
  ensures h := hensured _ (hrun.ensures h)

theorem Accounts.map {build : α → β} (hrun : Accounts spent limit run worth given ensured)
    (hworth : ∀ value, worth' (build value) ≤ extra + worth value)
    (hensured : ∀ value, ensured value → ensured' (build value)) :
    Accounts spent limit (run >>= fun value => Pure.pure (build value)) worth' (extra + given)
      ensured' := by
  rw [Nat.add_comm]
  refine .bind hrun fun value hval => .pure ?_ (hensured value hval)
  have := hworth value
  omega

theorem Accounts.map₂ {γ : Type} {first : StateT σ (Except ε) α} {second : StateT σ (Except ε) β}
    {worth₂ : β → Nat} {given₂ : Nat} {ensured₂ : β → Prop} {worth' : γ → Nat}
    {ensured' : γ → Prop} {build : α → β → γ}
    (hfirst : Accounts spent limit first worth given ensured)
    (hsecond : Accounts spent limit second worth₂ given₂ ensured₂)
    (hworth : ∀ a b, worth' (build a b) ≤ extra + (worth a + worth₂ b))
    (hensured : ∀ a b, ensured a → ensured₂ b → ensured' (build a b)) :
    Accounts spent limit
      (first >>= fun a => second >>= fun b => Pure.pure (build a b)) worth'
      (extra + (given + given₂)) ensured' := by
  have hsum : extra + (given + given₂) = given + (extra + given₂) := by omega
  rw [hsum]
  refine .bind hfirst fun a ha => ?_
  rw [← Nat.add_assoc]
  refine .map hsecond (fun b => ?_) fun b hb => hensured a b ha hb
  have := hworth a b
  omega

end Disp.Library.Accounting
