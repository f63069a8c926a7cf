import Disp.Library.IndexedSearch
import Mathlib.Data.List.Nodup
import Mathlib.Data.Option.NAry
import Mathlib.Logic.Function.Basic

/-!
# Stacks of scopes

A stack of scopes, the innermost first, each of which binds names to values.  A name
stands for its binding in the innermost scope that has one; an update changes
that binding and no other.
-/

namespace Disp.Library

open List Option

open IndexedSearch (mem_of_lookup)

abbrev Frames (κ α : Type) := List (List (κ × α))

namespace Frames

section

variable {κ α β : Type} {f : α → β} {frames : Frames κ α} {name : κ} {scope : List (κ × α)}
  {value : α} {depth : Nat} {address : Nat × κ} {left : Frames κ α} {right : Frames κ β}
  {p : α → β → Bool} {a : α} {b : β}

def declare (name : κ) (value : α) : Frames κ α → Frames κ α
  | [] => [[(name, value)]]
  | scope :: frames => ((name, value) :: scope) :: frames

def map (f : α → β) (frames : Frames κ α) : Frames κ β :=
  List.map (List.map (Prod.map id f)) frames

def values (frames : Frames κ α) : List α :=
  frames.flatten.map Prod.snd

theorem map_declare (f : α → β) (name : κ) (value : α) (frames : Frames κ α) :
    map f (declare name value frames) = declare name (f value) (map f frames) := by
  cases frames <;> rfl

theorem map_congr {g : α → β} (h : ∀ value ∈ values frames, f value = g value) :
    map f frames = map g frames := by
  apply map_congr_left
  intro scope hscope
  apply map_congr_left
  rintro ⟨name, value⟩ hentry
  have hval := h value (List.mem_map.mpr ⟨_, mem_flatten.mpr ⟨scope, hscope, hentry⟩, rfl⟩)
  rw [Prod.map_apply, Prod.map_apply, hval]

variable [DecidableEq κ]

/-- The binding a name stands for, and the depth of its scope. -/
def lookup (name : κ) : Frames κ α → Option (Nat × α)
  | [] => none
  | scope :: frames =>
    match List.lookup name scope with
    | some value => some (frames.length, value)
    | none => lookup name frames

def updateScope (name : κ) (f : α → α) : List (κ × α) → List (κ × α)
  | [] => []
  | (other, value) :: scope =>
    if name = other then (other, f value) :: scope
    else (other, value) :: updateScope name f scope

/-- Change the binding a name stands for. -/
def update (name : κ) (f : α → α) : Frames κ α → Frames κ α
  | [] => []
  | scope :: frames =>
    if (List.lookup name scope).isSome then updateScope name f scope :: frames
    else scope :: update name f frames

/-! ## Mapping -/

theorem lookup_scope_map (f : α → β) (name : κ) (scope : List (κ × α)) :
    List.lookup name (scope.map (Prod.map id f)) = (List.lookup name scope).map f := by
  induction scope with
  | nil => rfl
  | cons entry scope ih =>
    obtain ⟨other, value⟩ := entry
    simp only [map_cons, Prod.map_apply, id_eq, lookup_cons, ih]
    cases name == other <;> rfl

theorem lookup_map (f : α → β) (name : κ) (frames : Frames κ α) :
    lookup name (map f frames) = (lookup name frames).map (Prod.map id f) := by
  induction frames with
  | nil => rfl
  | cons scope frames ih =>
    simp only [map, map_cons, lookup] at ih ⊢
    rw [lookup_scope_map]
    cases List.lookup name scope with
    | some value => simp
    | none => simpa using ih

theorem lookup_mem (h : lookup name frames = some (depth, value)) :
    (name, value) ∈ frames.flatten := by
  induction frames with
  | nil => cases h
  | cons scope frames ih =>
    rw [lookup] at h
    rw [flatten_cons, mem_append]
    cases hscope : List.lookup name scope with
    | some found =>
      rw [hscope] at h
      cases h
      exact .inl (mem_of_lookup hscope)
    | none =>
      rw [hscope] at h
      exact .inr (ih h)

/-! ## Updating by value

Where all values are distinct, changing what a value is mapped to is an update of
the one binding that has it. -/

theorem map_scope_update [DecidableEq α] (h : List.lookup name scope = some value)
    (hnodup : (scope.map Prod.snd).Nodup) (new : β) :
    scope.map (Prod.map id (Function.update f value new)) =
      updateScope name (fun _ => new) (scope.map (Prod.map id f)) := by
  induction scope with
  | nil => cases h
  | cons entry scope ih =>
    obtain ⟨other, first⟩ := entry
    rw [map_cons, nodup_cons] at hnodup
    rw [lookup_cons] at h
    by_cases heq : name = other
    · subst heq
      rw [beq_self_eq_true] at h
      cases h
      have hrest : scope.map (Prod.map id (Function.update f value new)) =
          scope.map (Prod.map id f) := by
        apply map_congr_left
        rintro ⟨key, other⟩ hentry
        have hne : other ≠ value := by
          rintro rfl
          exact hnodup.1 (List.mem_map.mpr ⟨_, hentry, rfl⟩)
        rw [Prod.map_apply, Prod.map_apply, Function.update_of_ne hne]
      simp [updateScope, hrest]
    · have hbeq : (name == other) = false := by simpa using heq
      rw [hbeq] at h
      have hne : first ≠ value := by
        rintro rfl
        exact hnodup.1 (List.mem_map.mpr ⟨_, mem_of_lookup h, rfl⟩)
      simp only [map_cons, Prod.map_apply, id_eq, updateScope, if_neg heq,
        Function.update_of_ne hne, ih h hnodup.2]

theorem map_update [DecidableEq α] (h : lookup name frames = some (depth, value))
    (hnodup : (values frames).Nodup) (new : β) :
    map (Function.update f value new) frames = update name (fun _ => new) (map f frames) := by
  induction frames with
  | nil => cases h
  | cons scope frames ih =>
    simp only [values, flatten_cons, map_append] at hnodup
    rw [nodup_append'] at hnodup
    obtain ⟨hscope, hframes, hdisjoint⟩ := hnodup
    rw [lookup] at h
    simp only [map, map_cons, update, lookup_scope_map]
    cases hlook : List.lookup name scope with
    | some found =>
      rw [hlook] at h
      cases h
      have hrest : map (Function.update f value new) frames = map f frames := by
        apply map_congr
        intro other hother
        apply Function.update_of_ne
        rintro rfl
        exact hdisjoint (List.mem_map.mpr ⟨_, mem_of_lookup hlook, rfl⟩) hother
      rw [map_scope_update hlook hscope]
      simpa [map] using hrest
    | none =>
      rw [hlook] at h
      have hval : value ∈ values frames := List.mem_map.mpr ⟨_, lookup_mem h, rfl⟩
      have hkeep : scope.map (Prod.map id (Function.update f value new)) =
          scope.map (Prod.map id f) := by
        apply map_congr_left
        rintro ⟨key, other⟩ hentry
        have hne : other ≠ value := by
          rintro rfl
          exact hdisjoint (List.mem_map.mpr ⟨_, hentry, rfl⟩) hval
        rw [Prod.map_apply, Prod.map_apply, Function.update_of_ne hne]
      rw [hkeep]
      simpa [map] using ih h hframes

theorem update_congr {f g : α → α} (h : lookup name frames = some (depth, value))
    (hfg : f value = g value) : update name f frames = update name g frames := by
  have hscope : ∀ scope : List (κ × α), List.lookup name scope = some value →
      updateScope name f scope = updateScope name g scope := by
    intro scope hlook
    induction scope with
    | nil => cases hlook
    | cons entry scope ih =>
      obtain ⟨other, first⟩ := entry
      rw [lookup_cons] at hlook
      simp only [updateScope]
      by_cases heq : name = other
      · rw [if_pos heq, if_pos heq]
        subst heq
        rw [beq_self_eq_true] at hlook
        rw [Option.some.inj hlook, hfg]
      · have hbeq : (name == other) = false := by simpa using heq
        rw [hbeq] at hlook
        rw [if_neg heq, if_neg heq, ih hlook]
  induction frames with
  | nil => cases h
  | cons scope frames ih =>
    rw [lookup] at h
    simp only [update]
    cases hlook : List.lookup name scope with
    | some found =>
      rw [hlook] at h
      cases h
      simp [hscope scope hlook]
    | none =>
      rw [hlook] at h
      simp [ih h]

/-! ## Variables

A binding is addressed by the depth of its scope and its name. -/

def get : Frames κ α → Nat × κ → Option α
  | [], _ => none
  | scope :: frames, address =>
    if address.1 = frames.length then List.lookup address.2 scope else get frames address

theorem get_eq_none (h : frames.length ≤ address.1) : get frames address = none := by
  induction frames with
  | nil => rfl
  | cons scope frames ih =>
    rw [length_cons] at h
    rw [get, if_neg (by omega)]
    exact ih (by omega)

theorem get_push (frames : Frames κ α) (address : Nat × κ) :
    get ([] :: frames) address = get frames address := by
  rw [get]
  split_ifs with h
  · rw [get_eq_none (by omega)]
    rfl
  · rfl

theorem get_tail (h : address.1 < frames.length) :
    get (scope :: frames) address = get frames address := by
  rw [get, if_neg (by omega)]

theorem get_lookup (h : lookup name frames = some (depth, value)) :
    get frames (depth, name) = some value := by
  induction frames with
  | nil => cases h
  | cons scope frames ih =>
    rw [lookup] at h
    cases hscope : List.lookup name scope with
    | some found =>
      rw [hscope] at h
      cases h
      rw [get, if_pos rfl]
      exact hscope
    | none =>
      rw [hscope] at h
      have hget := ih h
      have hlt : depth < frames.length := by
        by_contra hge
        rw [get_eq_none (by simpa using hge)] at hget
        cases hget
      rw [get_tail hlt]
      exact hget

theorem lookup_updateScope (name other : κ) (f : α → α) (scope : List (κ × α)) :
    List.lookup other (updateScope name f scope) =
      if other = name then (List.lookup other scope).map f else List.lookup other scope := by
  induction scope with
  | nil => simp [updateScope]
  | cons entry scope ih =>
    obtain ⟨key, value⟩ := entry
    simp only [updateScope]
    by_cases hkey : name = key
    · subst hkey
      rw [if_pos rfl, lookup_cons, lookup_cons]
      by_cases hother : other = name
      · subst hother
        simp
      · have hbeq : (other == name) = false := by simpa using hother
        rw [hbeq, if_neg hother]
    · rw [if_neg hkey, lookup_cons, lookup_cons, ih]
      by_cases hother : other = name
      · subst hother
        have hbeq : (other == key) = false := by simpa using hkey
        rw [hbeq]
      · rw [if_neg hother, if_neg hother]

@[simp] theorem length_update (name : κ) (f : α → α) (frames : Frames κ α) :
    (update name f frames).length = frames.length := by
  induction frames with
  | nil => rfl
  | cons scope frames ih =>
    simp only [update]
    split_ifs
    · rfl
    · simp [ih]

/-- An update changes the one binding its name stands for. -/
theorem get_update (name : κ) (f : α → α) (frames : Frames κ α) (address : Nat × κ) :
    get (update name f frames) address =
      if (lookup name frames).map Prod.fst = some address.1 ∧ address.2 = name then
        (get frames address).map f
      else get frames address := by
  induction frames with
  | nil => simp [update, get]
  | cons scope frames ih =>
    rw [update, lookup]
    cases hscope : List.lookup name scope with
    | some value =>
      simp only [isSome_some, if_true, get, map_some, Option.some.injEq]
      by_cases hdepth : address.1 = frames.length
      · rw [if_pos hdepth, if_pos hdepth, lookup_updateScope]
        by_cases hname : address.2 = name
        · rw [if_pos hname, if_pos ⟨hdepth.symm, hname⟩]
        · rw [if_neg hname, if_neg (fun h => hname h.2)]
      · rw [if_neg hdepth, if_neg hdepth, if_neg (fun h => hdepth h.1.symm)]
    | none =>
      simp only [isSome_none, Bool.false_eq_true, if_false, get, length_update]
      by_cases hdepth : address.1 = frames.length
      · split_ifs with h
        · rw [h.2, hscope]
          rfl
        · rfl
      · rw [if_neg hdepth, if_neg hdepth]
        exact ih

theorem get_declare (name : κ) (value : α) (scope : List (κ × α)) (frames : Frames κ α)
    (address : Nat × κ) :
    get (declare name value (scope :: frames)) address =
      if address = (frames.length, name) then some value
      else get (scope :: frames) address := by
  obtain ⟨depth, other⟩ := address
  simp only [declare, get, lookup_cons]
  by_cases hdepth : depth = frames.length
  · by_cases hname : other = name
    · simp [hdepth, hname]
    · have hbeq : (other == name) = false := by simpa using hname
      simp [hname, hbeq]
  · simp [hdepth]

/-! ## Stacks with the same names -/

def names (frames : Frames κ α) : List (List κ) :=
  List.map (List.map Prod.fst) frames

omit [DecidableEq κ] in
theorem length_eq_of_names (h : names left = names right) : left.length = right.length := by
  have hlen := congrArg List.length h
  simpa [names] using hlen

omit [DecidableEq κ] in
theorem forall₂_of_map_eq {γ δ ι : Type} {f : γ → ι} {g : δ → ι} {left : List γ} {right : List δ}
    (h : left.map f = right.map g) : List.Forall₂ (fun a b => f a = g b) left right := by
  rwa [← forall₂_eq_eq_eq, forall₂_map_left_iff, forall₂_map_right_iff] at h

theorem lookup_isSome_of_names {left : List (κ × α)} {right : List (κ × β)}
    (h : left.map Prod.fst = right.map Prod.fst) (name : κ) :
    (List.lookup name left).isSome = (List.lookup name right).isSome := by
  replace h := forall₂_of_map_eq h
  induction h with
  | nil => rfl
  | @cons entry _ _ _ hname _ ih =>
    rw [lookup_cons, lookup_cons, ← hname]
    cases name == entry.1 with
    | true => rfl
    | false => exact ih

theorem get_isSome_of_names (h : names left = names right) (address : Nat × κ) :
    (get left address).isSome = (get right address).isSome := by
  replace h := forall₂_of_map_eq h
  induction h with
  | nil => rfl
  | cons hscope hrest ih =>
    rw [get, get, hrest.length_eq]
    split_ifs
    · exact lookup_isSome_of_names hscope address.2
    · exact ih

theorem names_updateScope (name : κ) (f : α → α) (scope : List (κ × α)) :
    (updateScope name f scope).map Prod.fst = scope.map Prod.fst := by
  induction scope with
  | nil => rfl
  | cons entry scope ih =>
    simp only [updateScope]
    split_ifs
    · rfl
    · simp [ih]

theorem names_update (name : κ) (f : α → α) (frames : Frames κ α) :
    names (update name f frames) = names frames := by
  induction frames with
  | nil => rfl
  | cons scope frames ih =>
    simp only [update]
    split_ifs
    · simp [names, names_updateScope]
    · simpa [names] using ih

/-- A name of the outermost scope is found there. -/
theorem get_outermost {inner : List (List κ)} {outer : List κ}
    (h : names frames = inner ++ [outer]) (hname : name ∈ outer) :
    (get frames (0, name)).isSome = true := by
  induction inner generalizing frames with
  | nil =>
    cases frames with
    | nil => cases h
    | cons scope frames =>
      obtain ⟨hscope, hrest⟩ := List.cons.inj h
      obtain rfl := map_eq_nil_iff.mp hrest
      obtain ⟨entry, hentry, rfl⟩ := List.mem_map.mp (hscope ▸ hname)
      exact lookup_isSome_iff.mpr ⟨entry, hentry, beq_self_eq_true _⟩
  | cons scope' inner ih =>
    cases frames with
    | nil => cases h
    | cons scope frames =>
      have hrest := (List.cons.inj h).2
      have hpos : 0 < frames.length := by
        cases frames with
        | nil => cases inner <;> cases hrest
        | cons _ _ => exact Nat.succ_pos _
      rw [get_tail hpos]
      exact ih hrest

theorem lookup_isSome_of_get (h : (get frames address).isSome = true) :
    (lookup address.2 frames).isSome = true := by
  induction frames with
  | nil => cases h
  | cons scope frames ih =>
    rw [lookup]
    cases hscope : List.lookup address.2 scope with
    | some value => rfl
    | none =>
      rw [get] at h
      split_ifs at h
      · rw [hscope] at h
        cases h
      · exact ih h

/-- Another value for the binding at an address. -/
def set (value : α) : Nat × κ → Frames κ α → Frames κ α
  | _, [] => []
  | address, scope :: frames =>
    if address.1 = frames.length then updateScope address.2 (fun _ => value) scope :: frames
    else scope :: set value address frames

theorem names_set (value : α) (address : Nat × κ) (frames : Frames κ α) :
    names (set value address frames) = names frames := by
  induction frames with
  | nil => rfl
  | cons scope frames ih =>
    simp only [set]
    split_ifs
    · simp [names, names_updateScope]
    · simpa [names] using ih

/-- The binding of a name, found in one stack, is found at the same depth in another stack
with the same names. -/
theorem lookup_of_names (h : names left = names right) (name : κ) :
    (lookup name left).map Prod.fst = (lookup name right).map Prod.fst := by
  replace h := forall₂_of_map_eq h
  induction h with
  | nil => rfl
  | @cons scope scope' _ _ hscope hrest ih =>
    have hsome := lookup_isSome_of_names hscope name
    rw [lookup, lookup]
    cases hl : List.lookup name scope with
    | some value =>
      obtain ⟨value', hr⟩ := isSome_iff_exists.mp (by rw [← hsome, hl]; rfl)
      simp [hr, hrest.length_eq]
    | none =>
      have hr : List.lookup name scope' = none := by
        rw [hl] at hsome
        simpa using hsome.symm
      rw [hr]
      exact ih

/-! ## Related stacks -/

/-- Two stacks with the same names whose bindings are related address by address. -/
structure Rel (R : Nat × κ → α → β → Prop) (left : Frames κ α) (right : Frames κ β) :
    Prop where
  names : names left = names right
  related : ∀ address a b, get left address = some a → get right address = some b →
    R address a b

namespace Rel

variable {γ : Type} {R : Nat × κ → α → β → Prop} {left : Frames κ α} {right : Frames κ β}
  {g : β → β}

theorem length_eq (h : Rel R left right) : left.length = right.length :=
  length_eq_of_names h.names

theorem weaken {R' : Nat × κ → α → β → Prop} (h : Rel R left right)
    (hR : ∀ address a b, get left address = some a → get right address = some b →
      R address a b → R' address a b) : Rel R' left right :=
  ⟨h.names, fun address a b ha hb => hR address a b ha hb (h.related address a b ha hb)⟩

theorem get_some (h : Rel R left right) (ha : get left address = some a) :
    ∃ b, get right address = some b ∧ R address a b := by
  have hsome := get_isSome_of_names h.names address
  rw [ha] at hsome
  obtain ⟨b, hb⟩ := isSome_iff_exists.mp hsome.symm
  exact ⟨b, hb, h.related address a b ha hb⟩

theorem symm (h : Rel R left right) : Rel (fun address b a => R address a b) right left :=
  ⟨h.names.symm, fun address b a hb ha => h.related address a b ha hb⟩

theorem refl {R : Nat × κ → α → α → Prop} (hR : ∀ address a, R address a a)
    (frames : Frames κ α) : Rel R frames frames := by
  refine ⟨rfl, fun address a b ha hb => ?_⟩
  rw [ha] at hb
  cases hb
  exact hR address a

section

variable (h : Rel R left right)

include h

theorem trans {S : Nat × κ → β → γ → Prop} {T : Nat × κ → α → γ → Prop} {last : Frames κ γ}
    (h' : Rel S right last)
    (hT : ∀ address a b c, R address a b → S address b c → T address a c) : Rel T left last := by
  refine ⟨h.names.trans h'.names, fun address a c ha hc => ?_⟩
  obtain ⟨b, hb, hab⟩ := h.get_some ha
  exact hT address a b c hab (h'.related address b c hb hc)

theorem lookup (ha : Frames.lookup name left = some (depth, a)) :
    ∃ b, Frames.lookup name right = some (depth, b) ∧ R (depth, name) a b := by
  have hfst := lookup_of_names h.names name
  rw [ha] at hfst
  obtain ⟨⟨depth', b⟩, hb, hdepth⟩ := map_eq_some_iff.mp hfst.symm
  cases hdepth
  exact ⟨b, hb, h.related _ a b (get_lookup ha) (get_lookup hb)⟩

theorem of_lookup {depth' : Nat} (ha : Frames.lookup name left = some (depth, a))
    (hb : Frames.lookup name right = some (depth', b)) : R (depth, name) a b := by
  obtain ⟨found, hfound, hrel⟩ := h.lookup ha
  rw [hb] at hfound
  cases hfound
  exact hrel

theorem update (name : κ) {f : α → α}
    (hR : ∀ address a b, get left address = some a → get right address = some b →
      R address a b → R address (f a) (g b)) :
    Rel R (Frames.update name f left) (Frames.update name g right) := by
  refine ⟨by rw [names_update, names_update, h.names], fun address a b ha hb => ?_⟩
  rw [get_update] at ha hb
  rw [← lookup_of_names h.names name] at hb
  split_ifs at ha hb with hhit
  · obtain ⟨a', ha', rfl⟩ := map_eq_some_iff.mp ha
    obtain ⟨b', hb', rfl⟩ := map_eq_some_iff.mp hb
    exact hR address a' b' ha' hb' (h.related address a' b' ha' hb')
  · exact h.related address a b ha hb

theorem update_right (name : κ) (hR : ∀ address a b, R address a b → R address a (g b)) :
    Rel R left (Frames.update name g right) := by
  refine ⟨by rw [names_update, h.names], fun address a b ha hb => ?_⟩
  rw [get_update] at hb
  split_ifs at hb with hhit
  · obtain ⟨b', hb', rfl⟩ := map_eq_some_iff.mp hb
    exact hR address a b' (h.related address a b' ha hb')
  · exact h.related address a b ha hb

theorem declare (hne : left ≠ []) (hR : R (left.length - 1, name) a b) :
    Rel R (Frames.declare name a left) (Frames.declare name b right) := by
  cases left with
  | nil => exact absurd rfl hne
  | cons scope left =>
    cases right with
    | nil => cases h.names
    | cons scope' right =>
      have hlen : left.length = right.length := Nat.succ.inj h.length_eq
      obtain ⟨hscope, hrest⟩ := List.cons.inj h.names
      refine ⟨?_, fun address a' b' ha hb => ?_⟩
      · have hcons : name :: scope.map Prod.fst = name :: scope'.map Prod.fst := by
          rw [hscope]
        exact congrArg₂ List.cons hcons hrest
      · rw [get_declare] at ha hb
        rw [← hlen] at hb
        split_ifs at ha hb with hhit
        · cases ha
          cases hb
          rw [hhit]
          exact hR
        · exact h.related address a' b' ha hb

theorem push : Rel R ([] :: left) ([] :: right) := by
  refine ⟨congrArg (List.cons []) h.names, fun address a b ha hb => ?_⟩
  rw [get_push] at ha hb
  exact h.related address a b ha hb

theorem tail : Rel R left.tail right.tail := by
  cases left with
  | nil =>
    have hnil : right = [] := map_eq_nil_iff.mp h.names.symm
    rw [hnil]
    rwa [hnil] at h
  | cons scope left =>
    cases right with
    | nil => cases h.names
    | cons scope' right =>
      have hrest := (List.cons.inj h.names).2
      refine ⟨hrest, fun address a b ha hb => ?_⟩
      have hlt : address.1 < left.length := by
        by_contra hge
        rw [tail_cons, get_eq_none (by omega)] at ha
        cases ha
      apply h.related address a b
      · rwa [get_tail hlt]
      · rwa [get_tail (length_eq_of_names hrest ▸ hlt)]

theorem drop (n : Nat) : Rel R (left.drop n) (right.drop n) := by
  induction n generalizing left right with
  | zero => exact h
  | succ n ih =>
    rw [← drop_tail, ← drop_tail]
    exact ih h.tail

end

end Rel

def all₂ (p : α → β → Bool) (left : Frames κ α) (right : Frames κ β) : Bool :=
  (left.zip right).all fun (scope, scope') =>
    (scope.zip scope').all fun (a, b) => p a.2 b.2

theorem lookup_of_all₂ {left : List (κ × α)} {right : List (κ × β)}
    (hnames : left.map Prod.fst = right.map Prod.fst)
    (h : (left.zip right).all (fun (a, b) => p a.2 b.2) = true)
    (ha : List.lookup name left = some a) (hb : List.lookup name right = some b) :
    p a b = true := by
  replace hnames := forall₂_of_map_eq hnames
  induction hnames with
  | nil => cases ha
  | @cons entry _ _ _ hname _ ih =>
    rw [zip_cons_cons, all_cons, Bool.and_eq_true] at h
    rw [lookup_cons] at ha hb
    rw [← hname] at hb
    cases heq : name == entry.1 with
    | true =>
      rw [heq] at ha hb
      cases ha
      cases hb
      exact h.1
    | false =>
      rw [heq] at ha hb
      exact ih h.2 ha hb

theorem get_of_all₂ (hnames : names left = names right) (h : all₂ p left right = true)
    (ha : get left address = some a) (hb : get right address = some b) : p a b = true := by
  replace hnames := forall₂_of_map_eq hnames
  induction hnames with
  | nil => cases ha
  | cons hscope hrest ih =>
    unfold all₂ at h
    rw [zip_cons_cons, all_cons, Bool.and_eq_true] at h
    rw [get] at ha hb
    rw [← hrest.length_eq] at hb
    split_ifs at ha hb
    · exact lookup_of_all₂ hscope h.1 ha hb
    · exact ih h.2 ha hb

def zipWith (f : α → β → α) (left : Frames κ α) (right : Frames κ β) : Frames κ α :=
  List.zipWith (List.zipWith fun a b => (a.1, f a.2 b.2)) left right

theorem lookup_scope_zipWith {f : α → β → α} {left : List (κ × α)} {right : List (κ × β)}
    (h : left.map Prod.fst = right.map Prod.fst) (name : κ) :
    List.lookup name (List.zipWith (fun a b => (a.1, f a.2 b.2)) left right) =
      Option.map₂ f (List.lookup name left) (List.lookup name right) := by
  replace h := forall₂_of_map_eq h
  induction h with
  | nil => rfl
  | @cons entry _ _ _ hname _ ih =>
    rw [zipWith_cons_cons, lookup_cons, lookup_cons, lookup_cons, ← hname]
    cases name == entry.1 with
    | true => rfl
    | false => exact ih

omit [DecidableEq κ] in
theorem names_zipWith {f : α → β → α} (h : names left = names right) :
    names (zipWith f left right) = names left := by
  have hscope (scope : List (κ × α)) (scope' : List (κ × β))
      (hnames : scope.map Prod.fst = scope'.map Prod.fst) :
      (List.zipWith (fun a b => (a.1, f a.2 b.2)) scope scope').map Prod.fst =
        scope.map Prod.fst := by
    replace hnames := forall₂_of_map_eq hnames
    induction hnames with
    | nil => rfl
    | cons _ _ ih => exact congrArg (List.cons _) ih
  replace h := forall₂_of_map_eq h
  induction h with
  | nil => rfl
  | cons hhead _ ih => exact congrArg₂ List.cons (hscope _ _ hhead) ih

/-- The bindings of a combined stack are the combined bindings. -/
theorem get_zipWith {f : α → β → α} (h : names left = names right) (address : Nat × κ) :
    get (zipWith f left right) address = Option.map₂ f (get left address) (get right address) := by
  have hzip := length_eq_of_names (names_zipWith (f := f) h)
  replace h := forall₂_of_map_eq h
  induction h with
  | nil => rfl
  | @cons scope scope' left right hscope hrest ih =>
    have hzip : (zipWith f left right).length = left.length := Nat.succ.inj hzip
    have hcons : zipWith f (scope :: left) (scope' :: right) =
        List.zipWith (fun a b => (a.1, f a.2 b.2)) scope scope' :: zipWith f left right := rfl
    rw [hcons, get, get, get, hzip, ← hrest.length_eq]
    split_ifs
    · exact lookup_scope_zipWith hscope address.2
    · exact ih hzip

end

end Frames

end Disp.Library
