import Disp.TypeChecker.Matching

/-!
# Matching types

The backend finds the type arguments of a call with `match_type` and applies them with
`substitute`.  The two descend into different constructors: `match_type` not into function types,
and `substitute` not into maps, sets, futures and tasks.  They are inverse to each other on the
types in which every generic parameter is reached by both.
-/

namespace Disp.Mono

open Disp.TypeChecker List Option

/-! ## The two functions -/

abbrev Inferred := String → Option Ty

/-- The constructors whose arguments `substitute` descends into. -/
def substitutes : Con → Bool
  | .reference _ | .rawPointer _ | .memoryPointer _ | .struct _ | .enum _ | .option | .result
  | .function | .cFunction | .array _ | .slice | .list | .thread | .mutex | .mutexGuard
  | .channel => true
  | _ => false

/-- The constructors whose arguments `match_type` descends into. -/
def descends : Con → Bool
  | .struct _ | .enum _ | .option | .reference _ | .rawPointer _ | .memoryPointer _ | .array _
  | .slice | .list | .map | .set | .thread | .future | .task | .mutex | .mutexGuard | .channel
  | .result | .cFunction => true
  | _ => false

/-- Equal, or a mutable reference where a shared one is expected. -/
def Stands (pattern concrete : Con) : Prop :=
  pattern = concrete ∨ pattern = .reference false ∧ concrete = .reference true

instance (pattern concrete : Con) : Decidable (Stands pattern concrete) :=
  inferInstanceAs (Decidable (_ ∨ _))

mutual

def substitute (substitutions : Inferred) : Ty → Ty
  | .generic name => (substitutions name).getD (.generic name)
  | .app c xs => .app c (if substitutes c then substituteAll substitutions xs else xs)

def substituteAll (substitutions : Inferred) : List Ty → List Ty
  | [] => []
  | x :: xs => substitute substitutions x :: substituteAll substitutions xs

end

mutual

def matchType : Ty → Ty → Inferred → Option Inferred
  | .generic name, concrete, inferred =>
    if inferred name = none ∨ inferred name = some concrete then
      some (Function.update inferred name (some concrete))
    else
      none
  | .app c xs, .app d ys, inferred =>
    if descends c ∧ Stands c d ∧ xs.length = ys.length then
      matchAll xs ys inferred
    else if c = d ∧ xs = ys then
      some inferred
    else
      none
  | .app _ _, .generic _, _ => none

def matchAll : List Ty → List Ty → Inferred → Option Inferred
  | x :: xs, y :: ys, inferred => (matchType x y inferred).bind (matchAll xs ys)
  | _, _, inferred => some inferred

end

/-- The type on the right is the one on the left, up to mutable references. -/
inductive Accepts : Ty → Ty → Prop
  | generic (name : String) : Accepts (.generic name) (.generic name)
  | app {c d : Con} {xs ys : List Ty} (hcon : Stands c d) (hargs : List.Forall₂ Accepts xs ys) :
      Accepts (.app c xs) (.app d ys)

/-! ## Which parameters are reached -/

mutual

/-- The parameters that `match_type` reaches. -/
def matchedGenerics : Ty → List String
  | .generic name => [name]
  | .app c xs => if descends c then allMatchedGenerics xs else []

def allMatchedGenerics : List Ty → List String
  | [] => []
  | x :: xs => matchedGenerics x ++ allMatchedGenerics xs

end

mutual

/-- Every parameter is reached by both functions or by none, if `substituted` and `matched` say
which of them reach the type. -/
def alike (substituted matched : Bool) : Ty → Bool
  | .generic _ => substituted == matched
  | .app c xs => allAlike (substituted && substitutes c) (matched && descends c) xs

def allAlike (substituted matched : Bool) : List Ty → Bool
  | [] => true
  | x :: xs => alike substituted matched x && allAlike substituted matched xs

end

mutual

/-- Replace the parameters below constructors in `enter`, if `on`. -/
def fillIn (enter : Con → Bool) (substitutions : Inferred) (on : Bool) : Ty → Ty
  | .generic name => if on then (substitutions name).getD (.generic name) else .generic name
  | .app c xs => .app c (fillAll enter substitutions (on && enter c) xs)

def fillAll (enter : Con → Bool) (substitutions : Inferred) (on : Bool) : List Ty → List Ty
  | [] => []
  | x :: xs => fillIn enter substitutions on x :: fillAll enter substitutions on xs

end

variable {s : Inferred}

mutual

theorem fillIn_off (enter : Con → Bool) (p : Ty) : fillIn enter s false p = p := by
  match p with
  | .generic _ => rfl
  | .app c xs => rw [fillIn, Bool.false_and, fillAll_off enter xs]

theorem fillAll_off (enter : Con → Bool) (ps : List Ty) : fillAll enter s false ps = ps := by
  match ps with
  | [] => rfl
  | x :: xs => rw [fillAll, fillIn_off enter x, fillAll_off enter xs]

end

theorem length_fillAll (enter : Con → Bool) (on : Bool) (ps : List Ty) :
    (fillAll enter s on ps).length = ps.length := by
  induction ps with
  | nil => rfl
  | cons x xs ih => rw [fillAll, length_cons, ih, length_cons]

mutual

theorem substitute_eq (p : Ty) : substitute s p = fillIn substitutes s true p := by
  match p with
  | .generic _ => rfl
  | .app c xs =>
    rw [substitute, fillIn, substituteAll_eq xs, Bool.true_and]
    cases substitutes c with
    | true => rfl
    | false => rw [fillAll_off]; rfl

theorem substituteAll_eq (ps : List Ty) : substituteAll s ps = fillAll substitutes s true ps := by
  match ps with
  | [] => rfl
  | x :: xs => rw [substituteAll, fillAll, substitute_eq x, substituteAll_eq xs]

end

mutual

theorem fillIn_alike (s : Inferred) (a b : Bool) (p : Ty) (h : alike a b p = true) :
    fillIn substitutes s a p = fillIn descends s b p := by
  match p with
  | .generic _ => rw [fillIn, fillIn, eq_of_beq h]
  | .app c xs => rw [fillIn, fillIn, fillAll_alike s _ _ xs h]

theorem fillAll_alike (s : Inferred) (a b : Bool) (ps : List Ty) (h : allAlike a b ps = true) :
    fillAll substitutes s a ps = fillAll descends s b ps := by
  match ps with
  | [] => rfl
  | x :: xs =>
    rw [allAlike, Bool.and_eq_true] at h
    rw [fillAll, fillAll, fillIn_alike s a b x h.1, fillAll_alike s a b xs h.2]

end

/-! ## Matching -/

mutual

theorem Accepts.refl (p : Ty) : Accepts p p := by
  match p with
  | .generic name => exact .generic name
  | .app c xs => exact .app (.inl rfl) (Accepts.refl_all xs)

theorem Accepts.refl_all (ps : List Ty) : List.Forall₂ Accepts ps ps := by
  match ps with
  | [] => exact .nil
  | x :: xs => exact .cons (Accepts.refl x) (Accepts.refl_all xs)

end

def Extends (before after : Inferred) : Prop :=
  ∀ name ty, before name = some ty → after name = some ty

theorem Extends.trans {first second third : Inferred} (h : Extends first second)
    (h' : Extends second third) : Extends first third :=
  fun name ty hty => h' name ty (h name ty hty)

mutual

/-- A match keeps what was inferred, and replacing the parameters that it reaches gives the type
that was matched. -/
theorem matchType_sound {before after : Inferred} (p c : Ty)
    (h : matchType p c before = some after) :
    Extends before after ∧ ∀ t, Extends after t → Accepts (fillIn descends t true p) c := by
  match p, c with
  | .generic name, c =>
    rw [matchType] at h
    split_ifs at h with hfree
    cases h
    refine ⟨fun other ty hty => ?_, fun t ht => ?_⟩
    · rcases eq_or_ne other name with rfl | hne
      · rw [hty] at hfree
        rw [Function.update_self, hfree.resolve_left (some_ne_none ty)]
      · rwa [Function.update_of_ne hne]
    · rw [fillIn, if_pos rfl, ht name c (Function.update_self ..)]
      exact Accepts.refl c
  | .app c xs, .app d ys =>
    rw [matchType] at h
    split_ifs at h with hdescends hequal
    · obtain ⟨hkept, haccepts⟩ := matchAll_sound xs ys hdescends.2.2 h
      refine ⟨hkept, fun t ht => ?_⟩
      rw [fillIn, hdescends.1]
      exact .app hdescends.2.1 (haccepts t ht)
    · cases h
      obtain ⟨rfl, rfl⟩ := hequal
      have hclosed : descends c = false := by
        by_contra hopen
        exact hdescends ⟨by simpa using hopen, .inl rfl, rfl⟩
      refine ⟨fun _ _ h => h, fun t _ => ?_⟩
      rw [fillIn, hclosed, Bool.and_false, fillAll_off]
      exact Accepts.refl _
  | .app _ _, .generic _ => cases h

theorem matchAll_sound {before after : Inferred} (ps cs : List Ty)
    (hlen : ps.length = cs.length) (h : matchAll ps cs before = some after) :
    Extends before after ∧
      ∀ t, Extends after t → List.Forall₂ Accepts (fillAll descends t true ps) cs := by
  match ps, cs with
  | [], [] =>
    cases h
    exact ⟨fun _ _ h => h, fun _ _ => .nil⟩
  | x :: xs, y :: ys =>
    obtain ⟨middle, hfirst, hrest⟩ := bind_eq_some_iff.mp h
    obtain ⟨hkept, haccepts⟩ := matchType_sound x y hfirst
    obtain ⟨hkept', haccepts'⟩ := matchAll_sound xs ys (Nat.succ.inj hlen) hrest
    exact ⟨hkept.trans hkept', fun t ht => .cons (haccepts t (hkept'.trans ht)) (haccepts' t ht)⟩

end

/-- What was inferred, with the values of `s` for some names. -/
def assigned (names : List String) (s inferred : Inferred) : Inferred :=
  fun name => if name ∈ names then s name else inferred name

mutual

theorem matchType_complete {s inferred : Inferred} (p : Ty)
    (hs : ∀ name ∈ p.generics, s name ≠ none) (hinferred : Extends inferred s) :
    matchType p (fillIn descends s true p) inferred =
      some (assigned (matchedGenerics p) s inferred) := by
  match p with
  | .generic name =>
    obtain ⟨ty, hty⟩ := ne_none_iff_exists'.mp (hs name mem_cons_self)
    have hfree : inferred name = none ∨ inferred name = some ty := by
      cases hbefore : inferred name with
      | none => exact .inl rfl
      | some previous => exact .inr ((hinferred name previous hbefore).symm.trans hty)
    rw [fillIn, if_pos rfl, hty, getD_some, matchType, if_pos hfree]
    congr 1
    funext other
    rcases eq_or_ne other name with rfl | hne
    · simp [assigned, matchedGenerics, hty]
    · simp [assigned, matchedGenerics, hne]
  | .app c xs =>
    rw [fillIn, matchType, matchedGenerics, Bool.true_and]
    cases hopen : descends c with
    | true =>
      rw [if_pos ⟨rfl, .inl rfl, (length_fillAll ..).symm⟩, if_pos rfl]
      exact matchAll_complete xs hs hinferred
    | false =>
      rw [fillAll_off, if_neg (by simp), if_pos ⟨rfl, rfl⟩]
      rfl

theorem matchAll_complete {s inferred : Inferred} (ps : List Ty)
    (hs : ∀ name ∈ allGenerics ps, s name ≠ none) (hinferred : Extends inferred s) :
    matchAll ps (fillAll descends s true ps) inferred =
      some (assigned (allMatchedGenerics ps) s inferred) := by
  match ps with
  | [] => rfl
  | x :: xs =>
    rw [allGenerics, forall_mem_append] at hs
    have hnext : Extends (assigned (matchedGenerics x) s inferred) s := by
      intro name ty hty
      unfold assigned at hty
      split_ifs at hty with hmem
      · exact hty
      · exact hinferred name ty hty
    rw [fillAll, matchAll, matchType_complete x hs.1 hinferred, bind_some,
      matchAll_complete xs hs.2 hnext]
    congr 1
    funext name
    by_cases hmem : name ∈ allMatchedGenerics xs <;> simp [assigned, allMatchedGenerics, hmem]

end

/-! ## When they are inverse -/

mutual

/-- Types in which unit stands for the parameters tell which of them were replaced. -/
theorem alike_of_accepts {s : Inferred} (a b : Bool) (p : Ty)
    (hs : ∀ name ∈ p.generics, s name = some (.app .unit []))
    (h : Accepts (fillIn descends s b p) (fillIn substitutes s a p)) : alike a b p = true := by
  match p with
  | .generic name =>
    rw [fillIn, fillIn, hs name mem_cons_self] at h
    cases a <;> cases b <;> first | rfl | cases h
  | .app c xs =>
    cases h with
    | app _ hargs => exact allAlike_of_accepts _ _ xs hs hargs

theorem allAlike_of_accepts {s : Inferred} (a b : Bool) (ps : List Ty)
    (hs : ∀ name ∈ allGenerics ps, s name = some (.app .unit []))
    (h : List.Forall₂ Accepts (fillAll descends s b ps) (fillAll substitutes s a ps)) :
    allAlike a b ps = true := by
  match ps with
  | [] => rfl
  | x :: xs =>
    rw [allGenerics, forall_mem_append] at hs
    cases h with
    | cons hfirst hrest =>
      rw [allAlike, alike_of_accepts a b x hs.1 hfirst, allAlike_of_accepts a b xs hs.2 hrest]
      rfl

end

def noInferences : Inferred := fun _ => none

/-- Types without generic parameters for the parameters of a pattern. -/
structure Assigns (p : Ty) (s : Inferred) : Prop where
  closed : ∀ name ty, s name = some ty → ty.generics = []
  exactly : ∀ name, s name ≠ none ↔ name ∈ p.generics

/-- `match_type` recovers the types that were substituted, and substituting those it finds gives
the type that it was given, exactly if both functions reach the same parameters, each one at some
place. -/
theorem matching_inverts_substitution_iff (p : Ty) :
    ((∀ s, Assigns p s → matchType p (substitute s p) noInferences = some s) ∧
      ∀ c s, c.generics = [] → matchType p c noInferences = some s →
        Accepts (substitute s p) c) ↔
    alike true true p = true ∧ ∀ name ∈ p.generics, name ∈ matchedGenerics p := by
  have hdone : alike true true p = true → ∀ s, Assigns p s →
      matchType p (substitute s p) noInferences =
        some (assigned (matchedGenerics p) s noInferences) := by
    intro halike s hs
    rw [substitute_eq, fillIn_alike s true true p halike]
    refine matchType_complete p (fun name => (hs.exactly name).mpr) ?_
    intro _ _ h
    cases h
  constructor
  · rintro ⟨hrecovers, -⟩
    let units : Inferred := fun name => if name ∈ p.generics then some (.app .unit []) else none
    have hunits : Assigns p units := by
      refine ⟨fun name ty hty => ?_, fun name => ?_⟩
      · obtain ⟨-, hunit⟩ := ite_none_right_eq_some.mp hty
        cases hunit
        rfl
      · simp [units]
    have haccepts := (matchType_sound _ _ (hrecovers units hunits)).2 units fun _ _ h => h
    rw [substitute_eq] at haccepts
    have halike := alike_of_accepts true true p (fun name hname => if_pos hname) haccepts
    refine ⟨halike, fun name hname => ?_⟩
    have hrecov := (hrecovers units hunits).symm.trans (hdone halike units hunits)
    by_contra hmem
    refine (hunits.exactly name).mpr hname ?_
    rw [Option.some.inj hrecov]
    exact if_neg hmem
  · rintro ⟨halike, hreached⟩
    refine ⟨fun s hs => ?_, fun c s _ hmatch => ?_⟩
    · rw [hdone halike s hs]
      congr 1
      funext name
      unfold assigned
      split_ifs with hmem
      · rfl
      · by_contra hsome
        exact hmem (hreached name ((hs.exactly name).mp (Ne.symm hsome)))
    · rw [substitute_eq, fillIn_alike s true true p halike]
      exact (matchType_sound p c hmatch).2 s fun _ _ h => h

/-- `Set<K>` is left as it is by `substitute`, so its own parameter is inferred for it, and a
function type with a parameter does not match its instance. -/
theorem matching_misses_parameters :
    let units : Inferred := fun name => if name = "K" then some (.app .unit []) else none
    let set : Ty := .app .set [.generic "K"]
    let function : Ty := .app .function [.generic "K"]
    (Assigns set units ∧ (matchType set (substitute units set) noInferences).map (· "K") =
        some (some (.generic "K")) ∧
      (matchType set (.app .set [.app .unit []]) noInferences).map (substitute · set) = some set) ∧
    Assigns function units ∧
      (matchType function (substitute units function) noInferences).isSome = false := by
  refine ⟨⟨⟨?_, ?_⟩, by decide, by decide⟩, ⟨?_, ?_⟩, by decide⟩
  all_goals simp [Ty.generics, allGenerics]

end Disp.Mono
