import Disp.Expansion.Bound
import Disp.Patterns.Values

/-!
# Arms with `|` patterns

Expansion makes one arm of each alternative.  The arms it makes have no `|` pattern, and they
choose what the arm would choose that tries its alternatives one after the other, with the guard
tried on each of them.
-/

namespace Disp.Expansion

open List

open Disp.Library.Codec (bind_eq_ok)
open Disp.Patterns (Value Bindings)

/-! ## Matching at run time -/

def constantMatches : Pattern → Value → Bool
  | .wildcard, _ => true
  | .integer pattern, .number _ n => n = pattern
  | .negativeInteger pattern, .number kind n =>
    match kind with
    | .int | .signed _ => n = -(pattern : Int)
    | .uint | .unsigned _ => pattern = 0 ∧ n = 0
  | .string pattern, .string value => value = pattern
  | .character pattern, .character value => value = pattern
  | .bool pattern, .bool value => value = pattern
  | _, _ => false

/-- The parts that a struct pattern looks at, where it applies to the value. -/
def structParts (typeName : String) (fields : List String) : Value → Option (List (Option Value))
  | .struct valueType values =>
    if valueType = typeName then some (fields.map (List.lookup · values)) else none
  | _ => none

def variantParts (typeName : Option String) (variant : String) (arity : Nat) :
    Value → Option (List (Option Value))
  | .enum valueType valueVariant payload =>
    if valueVariant = variant ∧ typeName.all (· = valueType) ∧ arity = payload.length then
      some (payload.map some)
    else none
  | _ => none

mutual

/-- `pattern_matches`: the bindings of a match, the last one first. -/
def patternMatches : Pattern → Value → Bindings → Option Bindings
  | .binding name, value, bindings => some ((name, value) :: bindings)
  | .or alternatives, value, bindings => anyMatches alternatives value bindings
  | .struct typeName fields patterns _, value, bindings =>
    (structParts typeName fields value).bind (partsMatch patterns · bindings)
  | .variant typeName variant arguments, value, bindings =>
    (variantParts typeName variant arguments.length value).bind (partsMatch arguments · bindings)
  | pattern, value, bindings => if constantMatches pattern value then some bindings else none

def anyMatches : List Pattern → Value → Bindings → Option Bindings
  | [], _, _ => none
  | alternative :: rest, value, bindings =>
    (patternMatches alternative value bindings).or (anyMatches rest value bindings)

/-- Every pattern matches its part, where there is one. -/
def partsMatch : List Pattern → List (Option Value) → Bindings → Option Bindings
  | [], _, bindings => some bindings
  | pattern :: rest, some value :: parts, bindings =>
    (patternMatches pattern value bindings).bind (partsMatch rest parts)
  | _ :: _, _, _ => none

end

mutual

/-- The bindings of every way in which the pattern matches, an earlier alternative first. -/
def ways : Pattern → Value → Bindings → List Bindings
  | .binding name, value, bindings => [(name, value) :: bindings]
  | .or alternatives, value, bindings => waysAny alternatives value bindings
  | .struct typeName fields patterns _, value, bindings =>
    (structParts typeName fields value).toList.flatMap (waysParts patterns · bindings)
  | .variant typeName variant arguments, value, bindings =>
    (variantParts typeName variant arguments.length value).toList.flatMap
      (waysParts arguments · bindings)
  | pattern, value, bindings => if constantMatches pattern value then [bindings] else []

def waysAny : List Pattern → Value → Bindings → List Bindings
  | [], _, _ => []
  | alternative :: rest, value, bindings =>
    ways alternative value bindings ++ waysAny rest value bindings

def waysParts : List Pattern → List (Option Value) → Bindings → List Bindings
  | [], _, bindings => [bindings]
  | pattern :: rest, some value :: parts, bindings =>
    (ways pattern value bindings).flatMap (waysParts rest parts)
  | _ :: _, _, _ => []

end

/-! ## The first way is the one that is taken -/

/-- The ways add bindings to those that are there, and the first of them is the match. -/
structure TakesFirst (taken : Bindings → Option Bindings) (found : Bindings → List Bindings) :
    Prop where
  adds : ∀ bindings, found bindings = (found []).map (· ++ bindings)
  first : ∀ bindings, taken bindings = (found bindings).head?

theorem TakesFirst.parts {taken : List (Option Value) → Bindings → Option Bindings}
    {found : List (Option Value) → Bindings → List Bindings}
    (h : ∀ parts, TakesFirst (taken parts) (found parts)) (parts : Option (List (Option Value))) :
    TakesFirst (fun bindings => parts.bind (taken · bindings))
      fun bindings => parts.toList.flatMap (found · bindings) := by
  cases parts with
  | none => exact ⟨fun _ => rfl, fun _ => rfl⟩
  | some parts => simpa using h parts

theorem TakesFirst.constant (matched : Bool) :
    TakesFirst (fun bindings => if matched then some bindings else none)
      fun bindings => if matched then [bindings] else [] := by
  cases matched <;> exact ⟨fun _ => rfl, fun _ => rfl⟩

theorem TakesFirst.bind {taken next : Bindings → Option Bindings}
    {found later : Bindings → List Bindings} (h : TakesFirst taken found)
    (hnext : TakesFirst next later) :
    TakesFirst (fun bindings => (taken bindings).bind next)
      fun bindings => (found bindings).flatMap later where
  adds := by
    intro bindings
    rw [h.adds bindings, flatMap_map, map_flatMap]
    congr 1
    funext added
    rw [hnext.adds, hnext.adds added, map_map]
    congr 1
    funext last
    exact (append_assoc last added bindings).symm
  first := by
    intro bindings
    rw [h.first]
    cases found bindings with
    | nil => rfl
    | cons added rest =>
      rw [List.head?_cons, Option.bind_some, hnext.first, flatMap_cons]
      -- where nothing comes after one way, nothing comes after the others
      cases hlater : later [] with
      | nil =>
        have hnone : ∀ bindings, later bindings = [] := by
          intro bindings
          rw [hnext.adds, hlater]
          rfl
        rw [hnone, flatMap_eq_nil_iff.mpr fun other _ => hnone other]
        rfl
      | cons first others =>
        rw [hnext.adds, hlater]
        rfl

mutual

theorem takesFirst : ∀ (pattern : Pattern) (value : Value),
    TakesFirst (patternMatches pattern value) (ways pattern value)
  | .or alternatives, value => takesFirst_any alternatives value
  | .struct _ _ patterns _, _ => .parts (takesFirst_parts patterns) _
  | .variant _ _ arguments, _ => .parts (takesFirst_parts arguments) _
  | .binding _, _ => ⟨fun _ => rfl, fun _ => rfl⟩
  | .wildcard, _ => .constant true
  | .integer _, _ | .negativeInteger _, _ | .string _, _ | .character _, _ | .bool _, _ =>
    .constant _

theorem takesFirst_any : ∀ (alternatives : List Pattern) (value : Value),
    TakesFirst (anyMatches alternatives value) (waysAny alternatives value)
  | [], _ => ⟨fun _ => rfl, fun _ => rfl⟩
  | alternative :: rest, value => by
      have hfirst := takesFirst alternative value
      have hrest := takesFirst_any rest value
      refine ⟨fun bindings => ?_, fun bindings => ?_⟩
      · rw [waysAny, waysAny, map_append, ← hfirst.adds, ← hrest.adds]
      · rw [anyMatches, waysAny, List.head?_append, hfirst.first, hrest.first]

theorem takesFirst_parts : ∀ (patterns : List Pattern) (parts : List (Option Value)),
    TakesFirst (partsMatch patterns parts) (waysParts patterns parts)
  | [], _ | _ :: _, none :: _ | _ :: _, [] => ⟨fun _ => rfl, fun _ => rfl⟩
  | pattern :: rest, some value :: parts =>
    (takesFirst pattern value).bind (takesFirst_parts rest parts)

end

/-! ## Alternatives without `|` -/

/-- The bindings of the alternatives that match, one after the other. -/
def matching (alternatives : List Pattern) (value : Value) (bindings : Bindings) :
    List Bindings :=
  alternatives.flatMap fun pattern => (patternMatches pattern value bindings).toList

theorem patternsOrFree_append (first second : List Pattern) :
    patternsOrFree (first ++ second) = (patternsOrFree first && patternsOrFree second) := by
  induction first with
  | nil => rfl
  | cons pattern rest ih => rw [cons_append, patternsOrFree, patternsOrFree, ih, Bool.and_assoc]

theorem partsMatch_append (first second : List Pattern) (parts : List (Option Value))
    (bindings : Bindings) :
    partsMatch (first ++ second) parts bindings =
      (partsMatch first parts bindings).bind (partsMatch second (parts.drop first.length)) := by
  induction first generalizing parts bindings with
  | nil => rfl
  | cons pattern rest ih =>
    match parts with
    | some value :: parts =>
      rw [cons_append, partsMatch, partsMatch, Option.bind_assoc]
      congr 1
      funext found
      rw [ih]
      rfl
    | none :: _ => rfl
    | [] => rfl

/-- One more argument: the alternatives of the argument, each after each product. -/
theorem flatMap_products {alternatives : List Pattern} {argument : Pattern}
    (hways : ∀ value bindings, matching alternatives value bindings = ways argument value bindings)
    (product rest : List Pattern) (parts : List (Option Value)) (bindings : Bindings) :
    (alternatives.flatMap fun pattern =>
        (partsMatch (product ++ [pattern]) parts bindings).toList.flatMap
          (waysParts rest (parts.drop (product.length + 1)))) =
      (partsMatch product parts bindings).toList.flatMap
        (waysParts (argument :: rest) (parts.drop product.length)) := by
  simp only [partsMatch_append]
  cases partsMatch product parts bindings with
  | none => simp
  | some found =>
    rw [← drop_drop]
    simp only [Option.toList_some, flatMap_singleton]
    match parts.drop product.length with
    | some value :: later =>
      rw [waysParts, ← hways, matching, flatMap_assoc]
      congr 1
      funext pattern
      cases hpat : patternMatches pattern value found with
      | none | some matched => simp [partsMatch, hpat]
    | none :: _ | [] => simp [partsMatch, waysParts]

/-- What the alternatives of a pattern are: without `|`, and one for each way to match. -/
structure Splits (pattern : Pattern) (alternatives : List Pattern) : Prop where
  orFree : ∀ alternative ∈ alternatives, alternative.orFree = true
  ways_eq : ∀ value bindings, matching alternatives value bindings = ways pattern value bindings

variable {pattern : Pattern}

theorem Splits.self (hfree : pattern.orFree = true) (h : ∀ value bindings,
      (patternMatches pattern value bindings).toList = ways pattern value bindings) :
    Splits pattern [pattern] where
  orFree := by
    intro alternative halt
    rwa [mem_singleton.mp halt]
  ways_eq := by
    intro value bindings
    rw [matching, flatMap_singleton, h]

/-- The products of the arguments after those of the patterns before them. -/
structure Multiplies (products : List (List Pattern)) (arguments : List Pattern)
    (result : List (List Pattern)) (before : Nat) : Prop where
  length_eq : ∀ product ∈ result, product.length = before + arguments.length
  orFree : ∀ product ∈ result, patternsOrFree product = true
  ways_eq : ∀ parts bindings,
    (result.flatMap fun product => (partsMatch product parts bindings).toList) =
      products.flatMap fun product =>
        (partsMatch product parts bindings).toList.flatMap
          (waysParts arguments (parts.drop before))

/-- A pattern with parts: its alternatives are the products of its patterns. -/
theorem Multiplies.splits {patterns : List Pattern}
    {products : List (List Pattern)} {make : List Pattern → Pattern}
    {look : Value → Option (List (Option Value))} (h : Multiplies [[]] patterns products 0)
    (hfree : ∀ product ∈ products, (make product).orFree = patternsOrFree product)
    (hmake : ∀ product ∈ products, ∀ value bindings, patternMatches (make product) value bindings =
      (look value).bind (partsMatch product · bindings))
    (hpat : ∀ value bindings, ways pattern value bindings =
      (look value).toList.flatMap (waysParts patterns · bindings)) :
    Splits pattern (products.map make) where
  orFree := by
    intro alternative halt
    obtain ⟨product, hproduct, rfl⟩ := mem_map.mp halt
    rw [hfree product hproduct, h.orFree product hproduct]
  ways_eq := by
    intro value bindings
    rw [matching, flatMap_map, hpat, flatMap_congr fun product hproduct => by
      rw [hmake product hproduct]]
    cases look value with
    | none => simp
    | some parts =>
      have hways := h.ways_eq parts bindings
      simpa [partsMatch] using hways

theorem toList_ite {α : Type} {value : α} (matched : Bool) :
    (if matched then some value else none).toList = if matched then [value] else [] := by
  cases matched <;> rfl

theorem no_products : ∀ product ∈ [([] : List Pattern)],
    product.length = 0 ∧ patternsOrFree product = true := by
  intro product hproduct
  rw [mem_singleton.mp hproduct]
  exact ⟨rfl, rfl⟩

mutual

theorem splits_patternAlternatives : ∀ {pattern : Pattern} {alternatives : List Pattern},
    patternAlternatives pattern = .ok alternatives → Splits pattern alternatives
  | .or options, alternatives, h => by
      obtain ⟨hfree, hways⟩ := orAlternatives_splits (by intro _ h; cases h) h
      exact ⟨hfree, fun value bindings => hways value bindings⟩
  | .variant typeName variant arguments, alternatives, h => by
      obtain ⟨products, hproducts, h⟩ := bind_eq_ok h
      cases h
      have hmultiplies := patternProducts_multiplies no_products hproducts
      refine hmultiplies.splits (fun _ _ => rfl) (fun product hproduct value bindings => ?_)
        fun _ _ => rfl
      rw [patternMatches, hmultiplies.length_eq product hproduct, Nat.zero_add]
  | .struct typeName fields patterns rest, alternatives, h => by
      obtain ⟨products, hproducts, h⟩ := bind_eq_ok h
      cases h
      exact (patternProducts_multiplies no_products hproducts).splits (fun _ _ => rfl)
        (fun _ _ _ _ => rfl) fun _ _ => rfl
  | .binding _, _, rfl | .wildcard, _, rfl => .self rfl fun _ _ => rfl
  | .integer _, _, rfl | .negativeInteger _, _, rfl | .string _, _, rfl | .character _, _, rfl
  | .bool _, _, rfl => .self rfl fun _ _ => toList_ite _

theorem orAlternatives_splits : ∀ {options : List Pattern} {expected : List String}
    {expanded result : List Pattern},
    (∀ alternative ∈ expanded, alternative.orFree = true) →
    orAlternatives expected expanded options = .ok result →
      (∀ alternative ∈ result, alternative.orFree = true) ∧
        ∀ value bindings, matching result value bindings =
          matching expanded value bindings ++ waysAny options value bindings
  | [], expected, expanded, result, hfree, h => by
      cases h
      exact ⟨hfree, fun _ _ => (append_nil _).symm⟩
  | option :: rest, expected, expanded, result, hfree, h => by
      rw [orAlternatives] at h
      split at h
      · obtain ⟨alternatives, halts, h⟩ := bind_eq_ok h
        obtain ⟨next, hnext, h⟩ := bind_eq_ok h
        rw [bounded_eq_ok hnext] at h
        have hsplits := splits_patternAlternatives halts
        have hboth : ∀ alternative ∈ expanded ++ alternatives, alternative.orFree = true := by
          intro alternative halt
          obtain h | h := mem_append.mp halt
          · exact hfree alternative h
          · exact hsplits.orFree alternative h
        obtain ⟨hres, hways⟩ := orAlternatives_splits hboth h
        refine ⟨hres, fun value bindings => ?_⟩
        rw [hways, waysAny, ← hsplits.ways_eq, matching, flatMap_append, append_assoc]
        rfl
      · cases h

theorem patternProducts_multiplies : ∀ {arguments : List Pattern}
    {products result : List (List Pattern)} {before : Nat},
    (∀ product ∈ products, product.length = before ∧ patternsOrFree product = true) →
    patternProducts products arguments = .ok result → Multiplies products arguments result before
  | [], products, result, before, hproducts, h => by
      cases h
      refine ⟨fun product hproduct => (hproducts product hproduct).1,
        fun product hproduct => (hproducts product hproduct).2, fun parts bindings => ?_⟩
      congr 1
      funext product
      cases partsMatch product parts bindings <;> rfl
  | argument :: rest, products, result, before, hproducts, h => by
      obtain ⟨alternatives, halts, h⟩ := bind_eq_ok h
      obtain ⟨next, hnext, h⟩ := bind_eq_ok h
      rw [bounded_eq_ok hnext] at h
      have hsplits := splits_patternAlternatives halts
      have hlonger : ∀ product ∈ products.flatMap fun product => alternatives.map (product ++ [·]),
          product.length = before + 1 ∧ patternsOrFree product = true := by
        intro longer hlonger
        obtain ⟨product, hproduct, hlonger⟩ := mem_flatMap.mp hlonger
        obtain ⟨alternative, halt, rfl⟩ := mem_map.mp hlonger
        obtain ⟨hlen, hfree⟩ := hproducts product hproduct
        rw [length_append, hlen, patternsOrFree_append, hfree]
        exact ⟨rfl, by simp [patternsOrFree, hsplits.orFree alternative halt]⟩
      have hrest := patternProducts_multiplies hlonger h
      refine ⟨?_, hrest.orFree, fun parts bindings => ?_⟩
      · intro product hproduct
        rw [hrest.length_eq product hproduct, length_cons]
        omega
      · rw [hrest.ways_eq, flatMap_assoc]
        refine flatMap_congr fun product hproduct => ?_
        obtain ⟨hlen, -⟩ := hproducts product hproduct
        rw [flatMap_map, ← hlen]
        exact flatMap_products hsplits.ways_eq product rest parts bindings

end

/-! ## Choosing an arm -/

section Selection

variable {σ ε : Type} (holds : Expr → Bindings → StateT σ (Except ε) Bool)

def admits : Option Expr → Bindings → StateT σ (Except ε) Bool
  | none, _ => pure true
  | some guard, bindings => holds guard bindings

/-- The first bindings that the guard admits. -/
def firstAdmitted (guard : Option Expr) :
    List Bindings → StateT σ (Except ε) (Option Bindings)
  | [] => pure none
  | bindings :: rest => do
      if ← admits holds guard bindings then pure (some bindings) else firstAdmitted guard rest

/-- The value of the arm that is chosen, with its bindings; `candidates` are the bindings that an
arm tries. -/
def selectArm (candidates : Pattern → List Bindings) :
    List Arm → StateT σ (Except ε) (Option (Expr × Bindings))
  | [] => pure none
  | .mk pattern _ guard value :: rest => do
      match ← firstAdmitted holds guard (candidates pattern) with
      | some bindings => pure (some (value, bindings))
      | none => selectArm candidates rest

/-- The loop over the arms in the interpreter: one try for each. -/
def evaluateMatch (value : Value) : List Arm → StateT σ (Except ε) (Option (Expr × Bindings)) :=
  selectArm holds fun pattern => (patternMatches pattern value []).toList

/-- Every way to match is tried before the next arm. -/
def evaluateMatchDirectly (value : Value) :
    List Arm → StateT σ (Except ε) (Option (Expr × Bindings)) :=
  selectArm holds fun pattern => ways pattern value []

theorem firstAdmitted_append (guard : Option Expr) (first second : List Bindings) :
    firstAdmitted holds guard (first ++ second) = (do
      match ← firstAdmitted holds guard first with
      | some bindings => pure (some bindings)
      | none => firstAdmitted holds guard second) := by
  induction first with
  | nil => simp [firstAdmitted]
  | cons bindings rest ih =>
    simp only [cons_append, firstAdmitted, bind_assoc]
    congr 1
    funext admitted
    cases admitted with
    | false => simpa using ih
    | true => simp

theorem selectArm_alternatives (candidates : Pattern → List Bindings)
    (alternatives : List Pattern) (group : Option Nat) (guard : Option Expr) (value : Expr)
    (rest : List Arm) :
    selectArm holds candidates (alternatives.map (Arm.mk · group guard value) ++ rest) = (do
      match ← firstAdmitted holds guard (alternatives.flatMap candidates) with
      | some bindings => pure (some (value, bindings))
      | none => selectArm holds candidates rest) := by
  induction alternatives with
  | nil => simp [firstAdmitted]
  | cons pattern others ih =>
    simp only [map_cons, cons_append, selectArm, flatMap_cons, firstAdmitted_append, bind_assoc, ih]
    congr 1
    funext admitted
    cases admitted <;> simp

end Selection

/-- The arm with its guard and its value expanded. -/
def Prepares (expandMeta : MetaName → List Expr → ExpandM Expr) : Arm → Arm → Prop
  | .mk pattern _ guard value, .mk pattern' _ guard' value' =>
    pattern' = pattern ∧ ∃ first second third : Expander,
      expandGuard expandMeta guard first = .ok (guard', second) ∧
        expandExpr expandMeta value second = .ok (value', third)

def Arm.orFree : Arm → Bool
  | .mk pattern _ _ _ => pattern.orFree

theorem splitArm_eq_ok {done result : List Arm} {guard : Option Expr}
    {value : Expr} {state after : Expander}
    (h : splitArm done pattern guard value state = .ok (result, after)) :
    ∃ alternatives group, patternAlternatives pattern = .ok alternatives ∧
      result = done ++ alternatives.map (Arm.mk · group guard value) := by
  obtain ⟨⟨alternatives, given⟩, halts, h⟩ := bind_eq_ok h
  obtain ⟨_, hsplit, hgiven⟩ := bind_eq_ok halts
  cases hgiven
  simp only at h
  split at h
  · cases h
  · obtain ⟨⟨group, grouped⟩, -, h⟩ := bind_eq_ok h
    cases h
    exact ⟨alternatives, group, hsplit, rfl⟩

theorem expandArms_splits {expandMeta : MetaName → List Expr → ExpandM Expr} {arms : List Arm}
    {done result : List Arm} {state after : Expander}
    (h : expandArms expandMeta done arms state = .ok (result, after)) :
    ∃ made prepared : List Arm, result = done ++ made ∧
      List.Forall₂ (Prepares expandMeta) arms prepared ∧ (∀ arm ∈ made, arm.orFree = true) ∧
      ∀ (σ ε : Type) (holds : Expr → Bindings → StateT σ (Except ε) Bool) (value : Value),
        evaluateMatch holds value made = evaluateMatchDirectly holds value prepared := by
  induction arms generalizing done state with
  | nil =>
    cases h
    exact ⟨[], [], (append_nil _).symm, .nil, by simp, fun _ _ _ _ => rfl⟩
  | cons arm rest ih =>
    obtain ⟨pattern, group, guard, body⟩ := arm
    obtain ⟨⟨next, expanded⟩, hnext, h⟩ := bind_eq_ok h
    obtain ⟨⟨guard', second⟩, hguard, hnext⟩ := bind_eq_ok hnext
    obtain ⟨⟨body', third⟩, hbody, hnext⟩ := bind_eq_ok hnext
    obtain ⟨alternatives, group', halts, rfl⟩ := splitArm_eq_ok hnext
    obtain ⟨made, prepared, rfl, hprepared, hfree, hselect⟩ := ih h
    have hsplits := splits_patternAlternatives halts
    refine ⟨alternatives.map (Arm.mk · group' guard' body') ++ made,
      .mk pattern group guard' body' :: prepared, append_assoc .., ?_, ?_, ?_⟩
    · exact .cons ⟨rfl, state, second, third, hguard, hbody⟩ hprepared
    · intro arm harm
      obtain harm | harm := mem_append.mp harm
      · obtain ⟨alternative, halt, rfl⟩ := mem_map.mp harm
        exact hsplits.orFree alternative halt
      · exact hfree arm harm
    · intro σ ε holds value
      have hways := hsplits.ways_eq value []
      have hrest := hselect σ ε holds value
      rw [matching] at hways
      rw [evaluateMatch, selectArm_alternatives, hways, ← evaluateMatch, hrest,
        evaluateMatchDirectly, selectArm]

/-- The arms that expansion makes of a `match` have no `|` pattern, and for every value and every
guard they choose the arm value and the bindings that the arms choose when every alternative of a
pattern is tried, of which `pattern_matches` takes the first. -/
theorem expandExpr_matching_preserves_choice
    (expandMeta : MetaName → List Expr → ExpandM Expr) (scrutinee : Expr) (arms : List Arm)
    (state : Expander) (result : Expr × Expander)
    (h : expandExpr expandMeta (.matching scrutinee arms) state = .ok result) :
    ∃ scrutinee' made prepared, result.1 = .matching scrutinee' made ∧
      List.Forall₂ (Prepares expandMeta) arms prepared ∧ (∀ arm ∈ made, arm.orFree = true) ∧
      (∀ pattern value,
        patternMatches pattern value [] = (ways pattern value []).head?) ∧
      ∀ (σ ε : Type) (holds : Expr → Bindings → StateT σ (Except ε) Bool) (value : Value),
        evaluateMatch holds value made = evaluateMatchDirectly holds value prepared := by
  obtain ⟨⟨scrutinee', first⟩, -, h⟩ := bind_eq_ok h
  obtain ⟨⟨made, second⟩, hmade, h⟩ := bind_eq_ok h
  cases h
  obtain ⟨made, prepared, rfl, hprepared, hfree, hselect⟩ := expandArms_splits hmade
  exact ⟨scrutinee', made, prepared, rfl, hprepared, hfree,
    fun pattern value => (takesFirst pattern value).first [], hselect⟩

theorem expandExpr_matching_preserves_choice_pair :
    ∃ scrutinee' made prepared, (Expr.matching (.identifier "x")
        [.mk (.integer 1) (some 0) none (.identifier "y"),
          .mk (.integer 2) (some 0) none (.identifier "y")]) = .matching scrutinee' made ∧
      List.Forall₂ (Prepares expandTopMeta)
        [.mk (.or [.integer 1, .integer 2]) none none (.identifier "y")] prepared ∧
      (∀ arm ∈ made, arm.orFree = true) ∧
      (∀ pattern value,
        patternMatches pattern value [] = (ways pattern value []).head?) ∧
      ∀ (σ ε : Type) (holds : Expr → Bindings → StateT σ (Except ε) Bool) (value : Value),
        evaluateMatch holds value made = evaluateMatchDirectly holds value prepared :=
  expandExpr_matching_preserves_choice expandTopMeta (.identifier "x")
    [.mk (.or [.integer 1, .integer 2]) none none (.identifier "y")] ⟨[], 0, 0⟩
    (.matching (.identifier "x") [.mk (.integer 1) (some 0) none (.identifier "y"),
        .mk (.integer 2) (some 0) none (.identifier "y")], ⟨[], 0, 1⟩) rfl

end Disp.Expansion
