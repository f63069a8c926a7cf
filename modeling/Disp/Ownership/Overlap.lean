import Mathlib.Order.Lattice
import Mathlib.Data.List.Basic

/-!
# Overlapping places

`places_overlap` compares the paths of two places of a variable up to the first segments that
differ.  A place stands for the cells of storage that it covers in some run, where an index that
is not a literal may be any and a sub-slice may begin anywhere.  The answer is exact but for three
cases: the end of the literal index `2 ^ 128 - 1` overflows, an empty range inside of another
region counts as overlapping it, and literal regions of sub-slices with unknown bounds are compared
as if the sub-slices were the same.
-/

namespace Disp.Ownership.Overlap

/-- A component of a path: the name of a field, or what the source writes as `@i:7` or `@i:*`,
`@k:*`, and `@r:2:5` or `@r:*`. -/
inductive Segment
  | field (name : String)
  | index (literal : Option (BitVec 128))
  | key
  | range (literals : Option (BitVec 128 × BitVec 128))
deriving DecidableEq

structure Place where
  root : Nat
  fields : List Segment

/-- The text of the segment starts with `@`. -/
def Segment.isRegion : Segment → Bool
  | .field _ => false
  | _ => true

/-- The bounds of a literal region, unless the addition overflows. -/
def Segment.region : Segment → Option (Option (BitVec 128 × BitVec 128))
  | .index (some x) => if x.uaddOverflow 1 then none else some (some (x, x + 1))
  | .range (some (a, b)) => some (some (a, b))
  | _ => some none

def regionsOverlap (left right : Segment) : Option Bool := do
  match ← left.region, ← right.region with
  | some (a, b), some (x, y) => return decide (a < y) && decide (x < b)
  | _, _ => return true

def fieldsOverlap : List Segment → List Segment → Option Bool
  | a :: left, b :: right =>
    if a = b then fieldsOverlap left right
    else if a.isRegion || b.isRegion then regionsOverlap a b
    else some false
  | _, _ => some true

def placesOverlap (left right : Place) : Option Bool :=
  if left.root ≠ right.root then some false else fieldsOverlap left.fields right.fields

/-! ## Storage -/

inductive Step
  | field (name : String)
  | element (position : Nat)
  | entry (key : String)

/-- In some run the cell, a list of steps from the variable, belongs to the place.  The elements of
a sub-slice are counted from its start. -/
def Covers : List Segment → List Step → Prop
  | [], _ => True
  | .field name :: path, .field name' :: cell => name = name' ∧ Covers path cell
  | .index literal :: path, .element position :: cell =>
    (∀ x ∈ literal, x.toNat = position) ∧ Covers path cell
  | .key :: path, .entry _ :: cell => Covers path cell
  | .range (some (a, b)) :: path, .element position :: cell =>
    (a.toNat ≤ position ∧ position < b.toNat) ∧
      Covers path (.element (position - a.toNat) :: cell)
  | .range none :: path, .element position :: cell =>
    ∃ start ≤ position, Covers path (.element (position - start) :: cell)
  | _, _ => False

def Share (left right : List Segment) : Prop := ∃ cell, Covers left cell ∧ Covers right cell

/-- The first and the end position of a literal region. -/
def Segment.bounds : Segment → Option (Nat × Nat)
  | .index (some x) => some (x.toNat, x.toNat + 1)
  | .range (some (a, b)) => some (a.toNat, b.toNat)
  | _ => none

/-- The paths agree on `common` and go on with different segments. -/
def Differ (left right common : List Segment) (a b : Segment) : Prop :=
  common ++ [a] <+: left ∧ common ++ [b] <+: right ∧ a ≠ b

/-- Distinct fields, or literal regions with no position in common. -/
def Segment.Apart (a b : Segment) : Prop :=
  a.isRegion = false ∧ b.isRegion = false ∨ ∃ r s, a.bounds = some r ∧ b.bounds = some s ∧
    ∀ position, ¬((r.1 ≤ position ∧ position < r.2) ∧ s.1 ≤ position ∧ position < s.2)

structure Exact (left right : Place) : Prop where
  no_overflow : placesOverlap left right ≠ none
  symmetric : placesOverlap left right = placesOverlap right left
  sound : Share left.fields right.fields → placesOverlap left right = some true
  precise : ∀ {common a b}, Differ left.fields right.fields common a b → a.Apart b →
    placesOverlap left right = some false

variable {left right common : List Segment} {a b segment : Segment}
  {r s : Nat × Nat}

/-! ## The first difference -/

theorem fieldsOverlap_append (common left right : List Segment) :
    fieldsOverlap (common ++ left) (common ++ right) = fieldsOverlap left right := by
  induction common with
  | nil => rfl
  | cons segment common ih => rw [List.cons_append, List.cons_append, fieldsOverlap, if_pos rfl, ih]

theorem Differ.fieldsOverlap_eq (h : Differ left right common a b) :
    fieldsOverlap left right =
      if a.isRegion || b.isRegion then regionsOverlap a b else some false := by
  obtain ⟨⟨_, rfl⟩, ⟨_, rfl⟩, hne⟩ := h
  rw [List.append_assoc, List.append_assoc, fieldsOverlap_append, List.singleton_append,
    List.singleton_append, fieldsOverlap, if_neg hne]

theorem differ_or_overlap (left right : List Segment) :
    (∃ common a b, Differ left right common a b) ∨ fieldsOverlap left right = some true := by
  fun_induction fieldsOverlap left right with
  | case1 left a right ih =>
    refine ih.imp_left fun ⟨common, b, c, hleft, hright, hne⟩ => ⟨a :: common, b, c, ?_, ?_, hne⟩
    · exact List.cons_prefix_cons.mpr ⟨rfl, hleft⟩
    · exact List.cons_prefix_cons.mpr ⟨rfl, hright⟩
  | case2 a left b right hne | case3 a left b right hne =>
    exact .inl ⟨[], a, b, by simp, by simp, hne⟩
  | case4 => exact .inr rfl

theorem regionsOverlap_comm (a b : Segment) : regionsOverlap a b = regionsOverlap b a := by
  unfold regionsOverlap
  rcases a.region with _ | _ | ⟨_, _⟩ <;> rcases b.region with _ | _ | ⟨_, _⟩ <;> try rfl
  simp [Bool.and_comm]

theorem fieldsOverlap_comm (left right : List Segment) :
    fieldsOverlap left right = fieldsOverlap right left := by
  fun_induction fieldsOverlap left right with
  | case1 a left right ih => rw [fieldsOverlap, if_pos rfl, ih]
  | case2 a left b right hne hregion =>
    rw [fieldsOverlap, if_neg (Ne.symm hne), Bool.or_comm, if_pos hregion, regionsOverlap_comm]
  | case3 a left b right hne hfields =>
    rw [fieldsOverlap, if_neg (Ne.symm hne), Bool.or_comm, if_neg hfields]
  | case4 left right hnot =>
    rw [fieldsOverlap]
    exact fun _ _ _ _ hleft hright => hnot _ _ _ _ hright hleft

/-! ## Literal regions -/

/-- The literal index whose end overflows. -/
def lastIndex : Segment := .index (some (BitVec.allOnes 128))

/-- One segment is a region, and no literal bounds keep them apart. -/
def Meet (a b : Segment) : Prop :=
  (a.isRegion || b.isRegion) = true ∧
    ∀ r s, a.bounds = some r → b.bounds = some s → r.1 < s.2 ∧ s.1 < r.2

theorem region_eq (h : segment ≠ lastIndex) : ∃ region, segment.region = some region ∧
    region.map (fun bounds => (bounds.1.toNat, bounds.2.toNat)) = segment.bounds := by
  match segment with
  | .index (some x) =>
    have hne : x.toNat ≠ 2 ^ 128 - 1 := fun heq =>
      h (congrArg (Segment.index ∘ some) (BitVec.eq_of_toNat_eq (by simpa using heq)))
    have hlt : x.toNat + 1 < 2 ^ 128 := by omega
    refine ⟨some (x, x + 1), if_neg ?_, ?_⟩
    · simpa [BitVec.uaddOverflow] using Nat.lt_sub_of_add_lt hlt
    · have hsum : (x + 1).toNat = x.toNat + 1 := Nat.mod_eq_of_lt hlt
      simp only [Option.map_some, Segment.bounds, hsum]
  | .range (some (_, _)) | .index none | .range none | .key | .field _ => exact ⟨_, rfl, rfl⟩

theorem regionsOverlap_last (h : a = lastIndex ∨ b = lastIndex) : regionsOverlap a b = none := by
  rw [regionsOverlap]
  rcases h with rfl | rfl
  · rfl
  · cases a.region <;> rfl

/-- Without an overflow the answer is whether the first segments that differ meet. -/
theorem Differ.answer (h : Differ left right common a b)
    (hlast : (a.isRegion || b.isRegion) = true → a ≠ lastIndex ∧ b ≠ lastIndex) :
    ∃ answer, fieldsOverlap left right = some answer ∧ (answer = true ↔ Meet a b) := by
  rw [h.fieldsOverlap_eq]
  split
  · next hregion =>
    obtain ⟨region, hleft, hbounds⟩ := region_eq (hlast hregion).1
    obtain ⟨region', hright, hbounds'⟩ := region_eq (hlast hregion).2
    rw [regionsOverlap, hleft, hright, Meet, ← hbounds, ← hbounds', hregion]
    cases region <;> cases region' <;> simp [BitVec.lt_def]
  · next hfields => exact ⟨false, rfl, iff_of_false nofun fun hmeet => hfields hmeet.1⟩

/-! ## Common storage -/

theorem share_of_cons (h : segment ≠ .range none)
    (hshare : Share (segment :: left) (segment :: right)) : Share left right := by
  obtain ⟨_ | ⟨step, cell⟩, hleft, hright⟩ := hshare
  · cases segment <;> simp [Covers] at hleft
  · match segment, step with
    | .field _, .field _ | .index _, .element _ | .range (some _), .element _ =>
      exact ⟨_, hleft.2, hright.2⟩
    | .key, .entry _ => exact ⟨_, hleft, hright⟩

theorem share_of_append (h : .range none ∉ common)
    (hshare : Share (common ++ left) (common ++ right)) : Share left right := by
  induction common with
  | nil => exact hshare
  | cons segment common ih =>
    rw [List.mem_cons, not_or] at h
    exact ih h.2 (share_of_cons (Ne.symm h.1) hshare)

theorem covers_bounds {cell : List Step} (h : Covers (segment :: left) cell)
    (hbounds : segment.bounds = some r) :
    ∃ position rest, cell = .element position :: rest ∧ r.1 ≤ position ∧ position < r.2 := by
  match segment, cell with
  | .index (some _), .element position :: rest =>
    cases hbounds
    have heq := h.1 _ rfl
    exact ⟨position, rest, rfl, by omega, by omega⟩
  | .range (some (_, _)), .element position :: rest =>
    cases hbounds
    exact ⟨position, rest, rfl, h.1⟩

theorem meet_of_share (hne : a ≠ b) (h : Share (a :: left) (b :: right)) : Meet a b := by
  obtain ⟨cell, hleft, hright⟩ := h
  constructor
  · match a, b, cell with
    | .field name, .field name', .field _ :: _ =>
      exact absurd (congrArg Segment.field (hleft.1.trans hright.1.symm)) hne
    | .index _, _, _ | .key, _, _ | .range _, _, _ => rfl
    | _, .index _, _ | _, .key, _ | _, .range _, _ => simp [Segment.isRegion]
  · intro r s hr hs
    obtain ⟨position, rest, rfl, hlow, hhigh⟩ := covers_bounds hleft hr
    obtain ⟨_, _, heq, hlow', hhigh'⟩ := covers_bounds hright hs
    cases heq
    omega

/-! ## Positions -/

/-- What a path admits at one step of a cell: a field, any entry, or the elements from `low` on,
below `high` if there is a bound. -/
inductive Span
  | field (name : String)
  | entry
  | elements (low : Nat) (high : Option Nat)
deriving DecidableEq

/-- The elements of a collection that a span of its sub-slice stands for.  A sub-slice with unknown
bounds may begin at any element. -/
def Span.within : Option (BitVec 128 × BitVec 128) → Span → Option Span
  | some (a, b), .elements low high =>
    some (.elements (low + a.toNat) (some ((high.map (· + a.toNat)).elim b.toNat (min b.toNat))))
  | none, .elements low high =>
    if ∀ bound ∈ high, low < bound then some (.elements low none) else none
  | _, _ => none

/-- The spans of a path from the variable on; none if no cell is in a sub-slice of it. -/
def spans : List Segment → Option (List Span)
  | [] => some []
  | .field name :: path => (spans path).map (.field name :: ·)
  | .key :: path => (spans path).map (.entry :: ·)
  | .index none :: path => (spans path).map (.elements 0 none :: ·)
  | .index (some x) :: path => (spans path).map (.elements x.toNat (some (x.toNat + 1)) :: ·)
  | .range literals :: path =>
    (spans path).bind fun inner =>
      ((inner.headD (.elements 0 none)).within literals).map (· :: inner.tail)

/-- The spans have a step in common. -/
def Span.meets : Span → Span → Bool
  | .field a, .field b => a == b
  | .entry, .entry => true
  | .elements low high, .elements low' high' =>
    decide (∀ bound ∈ high.toList ++ high'.toList, low < bound ∧ low' < bound)
  | _, _ => false

/-- The spans meet at every step that both paths take, and each admits a step after that. -/
def collide : List Span → List Span → Bool
  | a :: left, b :: right => a.meets b && collide left right
  | left, [] => left.all fun span => span.meets span
  | [], right => right.all fun span => span.meets span

/-- Some cell belongs to both paths, by their segments alone. -/
def Collide (left right : List Segment) : Prop :=
  ∃ s ∈ spans left, ∃ t ∈ spans right, collide s t = true

def Span.Admits : Span → Step → Prop
  | .field name, .field name' => name = name'
  | .entry, .entry _ => True
  | .elements low high, .element position => low ≤ position ∧ ∀ bound ∈ high, position < bound
  | _, _ => False

def Matches : List Span → List Step → Prop
  | [], _ => True
  | span :: spans, step :: cell => span.Admits step ∧ Matches spans cell
  | _ :: _, [] => False

theorem meets_iff {a b : Span} : a.meets b = true ↔ ∃ step, a.Admits step ∧ b.Admits step := by
  cases a with
  | field name =>
    cases b with
    | field name' =>
      simp only [Span.meets, beq_iff_eq]
      constructor
      · rintro rfl
        exact ⟨.field name, rfl, rfl⟩
      · rintro ⟨_ | _ | _, ha, hb⟩ <;> first | exact Eq.trans ha (Eq.symm hb) | exact False.elim ha
    | entry | elements low high =>
      exact iff_of_false nofun fun ⟨step, ha, hb⟩ => by cases step <;> first | exact ha | exact hb
  | entry =>
    cases b with
    | entry => exact iff_of_true rfl ⟨.entry "", trivial, trivial⟩
    | field name | elements low high =>
      exact iff_of_false nofun fun ⟨step, ha, hb⟩ => by cases step <;> first | exact ha | exact hb
  | elements low high =>
    cases b with
    | field name | entry =>
      exact iff_of_false nofun fun ⟨step, ha, hb⟩ => by cases step <;> first | exact ha | exact hb
    | elements low' high' =>
      simp only [Span.meets, decide_eq_true_eq]
      constructor
      · intro h
        refine ⟨.element (max low low'), ⟨le_max_left _ _, fun bound hbound => ?_⟩,
          le_max_right _ _, fun bound hbound => ?_⟩
        · have := h bound (by simp_all)
          omega
        · have := h bound (by simp_all)
          omega
      · rintro ⟨_ | position | _, ha, hb⟩ bound hbound
        · exact False.elim ha
        · have hlt : position < bound := by
            rcases List.mem_append.mp hbound with hmem | hmem
            · exact ha.2 bound (Option.mem_toList.mp hmem)
            · exact hb.2 bound (Option.mem_toList.mp hmem)
          exact ⟨ha.1.trans_lt hlt, hb.1.trans_lt hlt⟩
        · exact False.elim ha

theorem all_meets_iff {spans : List Span} :
    (spans.all fun span => span.meets span) = true ↔ ∃ cell, Matches spans cell := by
  induction spans with
  | nil => exact iff_of_true rfl ⟨[], trivial⟩
  | cons span spans ih =>
    rw [List.all_cons, Bool.and_eq_true, ih, meets_iff]
    constructor
    · rintro ⟨⟨step, hstep, -⟩, cell, hcell⟩
      exact ⟨step :: cell, hstep, hcell⟩
    · rintro ⟨_ | ⟨step, cell⟩, hcell⟩
      · exact False.elim hcell
      · exact ⟨⟨step, hcell.1, hcell.1⟩, cell, hcell.2⟩

theorem collide_iff {s t : List Span} :
    collide s t = true ↔ ∃ cell, Matches s cell ∧ Matches t cell := by
  fun_induction collide s t with
  | case1 a left b right ih =>
    rw [Bool.and_eq_true, meets_iff, ih]
    constructor
    · rintro ⟨⟨step, ha, hb⟩, cell, hleft, hright⟩
      exact ⟨step :: cell, ⟨ha, hleft⟩, hb, hright⟩
    · rintro ⟨_ | ⟨step, cell⟩, hleft, hright⟩
      · exact False.elim hleft
      · exact ⟨⟨step, hleft.1, hright.1⟩, cell, hleft.2, hright.2⟩
  | case2 left => simp only [all_meets_iff, Matches, and_true]
  | case3 right => simp only [all_meets_iff, Matches, true_and]

theorem admits_within_some {a b : BitVec 128} {span : Span} {step : Step} :
    (∃ outer ∈ span.within (some (a, b)), outer.Admits step) ↔
      ∃ position, step = .element position ∧ (a.toNat ≤ position ∧ position < b.toNat) ∧
        span.Admits (.element (position - a.toNat)) := by
  cases span with
  | field name | entry => simp [Span.within, Span.Admits]
  | elements low high =>
    cases step with
    | field name | entry key => simp [Span.within, Span.Admits]
    | element position =>
      cases high <;> simp [Span.within, Span.Admits] <;> omega

/-- The first element that the span admits may be any later one of the collection. -/
theorem admits_within_none {span : Span} {step : Step} :
    (∃ outer ∈ span.within none, outer.Admits step) ↔
      ∃ position, step = .element position ∧
        ∃ start ≤ position, span.Admits (.element (position - start)) := by
  cases span with
  | field name | entry => simp [Span.within, Span.Admits]
  | elements low high =>
    cases step with
    | field name | entry key => simp [Span.within, Span.Admits]
    | element position =>
      simp only [Span.within, Option.mem_ite_none_right, Step.element.injEq, exists_eq_left']
      constructor
      · rintro ⟨_, ⟨hbound, ⟨⟩⟩, hlow, -⟩
        refine ⟨position - low, Nat.sub_le _ _, ?_, fun bound hmem => ?_⟩
        · omega
        · have := hbound bound hmem
          omega
      · rintro ⟨start, hstart, hlow, hhigh⟩
        refine ⟨_, ⟨fun bound hmem => hlow.trans_lt (hhigh bound hmem), rfl⟩, ?_, nofun⟩
        omega

theorem matches_cons {inner : List Span} {position : Nat} {cell : List Step} :
    Matches inner (.element position :: cell) ↔
      (inner.headD (.elements 0 none)).Admits (.element position) ∧ Matches inner.tail cell := by
  cases inner with
  | nil => simp [Matches, Span.Admits]
  | cons span rest => exact Iff.rfl

theorem matches_map {span : Span} {inner : Option (List Span)} {cell : List Step} :
    (∃ s ∈ inner.map (span :: ·), Matches s cell) ↔
      ∃ step rest, cell = step :: rest ∧ span.Admits step ∧ ∃ s ∈ inner, Matches s rest := by
  cases inner with
  | none => simp
  | some inner => cases cell <;> simp [Matches]

theorem matches_range {literals : Option (BitVec 128 × BitVec 128)} {path : List Segment}
    {cell : List Step} :
    (∃ s ∈ spans (.range literals :: path), Matches s cell) ↔
      ∃ step rest, cell = step :: rest ∧ ∃ inner ∈ spans path,
        (∃ outer ∈ (inner.headD (.elements 0 none)).within literals, outer.Admits step) ∧
          Matches inner.tail rest := by
  cases hspans : spans path with
  | none => simp [spans, hspans]
  | some inner =>
    simp only [spans, hspans, Option.bind_some, Option.mem_some_iff, exists_eq_left']
    cases (inner.headD (.elements 0 none)).within literals with
    | none => simp
    | some outer => cases cell <;> simp [Matches]

/-- The spans of a path describe the cells that it covers. -/
theorem covers_iff {path : List Segment} {cell : List Step} :
    Covers path cell ↔ ∃ s ∈ spans path, Matches s cell := by
  induction path generalizing cell with
  | nil => exact iff_of_true trivial ⟨[], rfl, trivial⟩
  | cons segment path ih =>
    match segment with
    | .field name | .key | .index none =>
      simp only [spans, matches_map, ← ih]
      rcases cell with _ | ⟨_ | _ | _, rest⟩ <;> simp [Covers, Span.Admits]
    | .index (some x) =>
      simp only [spans, matches_map, ← ih]
      rcases cell with _ | ⟨_ | _ | _, rest⟩ <;> simp [Covers, Span.Admits]
      omega
    | .range (some (a, b)) =>
      simp only [matches_range, admits_within_some]
      rcases cell with _ | ⟨_ | position | _, rest⟩
      case cons.element =>
        simp only [Covers, ih, matches_cons]
        constructor
        · rintro ⟨hbounds, s, hs, hadmits, hrest⟩
          exact ⟨_, _, rfl, s, hs, ⟨position, rfl, hbounds, hadmits⟩, hrest⟩
        · rintro ⟨_, _, ⟨⟩, s, hs, ⟨_, ⟨⟩, hbounds, hadmits⟩, hrest⟩
          exact ⟨hbounds, s, hs, hadmits, hrest⟩
      all_goals simp [Covers]
    | .range none =>
      simp only [matches_range, admits_within_none]
      rcases cell with _ | ⟨_ | position | _, rest⟩
      case cons.element =>
        simp only [Covers, ih, matches_cons]
        constructor
        · rintro ⟨start, hstart, s, hs, hadmits, hrest⟩
          exact ⟨_, _, rfl, s, hs, ⟨position, rfl, start, hstart, hadmits⟩, hrest⟩
        · rintro ⟨_, _, ⟨⟩, s, hs, ⟨_, ⟨⟩, start, hstart, hadmits⟩, hrest⟩
          exact ⟨start, hstart, s, hs, hadmits, hrest⟩
      all_goals simp [Covers]

theorem share_iff_collide {left right : List Segment} : Share left right ↔ Collide left right := by
  simp only [Share, covers_iff, Collide, collide_iff]
  constructor
  · rintro ⟨cell, ⟨s, hs, hleft⟩, t, ht, hright⟩
    exact ⟨s, hs, t, ht, cell, hleft, hright⟩
  · rintro ⟨s, hs, t, ht, cell, hleft, hright⟩
    exact ⟨cell, ⟨s, hs, hleft⟩, t, ht, hright⟩

/-! ## When the answer is exact -/

theorem apart_of_not_meet (h : ¬ Meet a b) : a.Apart b := by
  by_cases hregion : (a.isRegion || b.isRegion) = true
  · simp only [Meet, hregion, true_and, not_forall] at h
    obtain ⟨r, s, hr, hs, hmeet⟩ := h
    exact .inr ⟨r, s, hr, hs, by omega⟩
  · exact .inl (by simpa using hregion)

/-- No end overflows, no region has an empty range inside of it, and paths do not collide in
sub-slices with unknown bounds if they differ first in segments that keep apart. -/
def Regular (left right : List Segment) : Prop :=
  ∀ common a b, Differ left right common a b →
    ((a.isRegion || b.isRegion) = true → a ≠ lastIndex ∧ b ≠ lastIndex) ∧
    (Meet a b → ∀ r s, a.bounds = some r → b.bounds = some s → r.1 < r.2 ∧ s.1 < s.2) ∧
    (.range none ∈ common → a.Apart b → ¬ Collide left right)

theorem placesOverlap_exact_iff (root : Nat) (left right : List Segment) :
    Exact ⟨root, left⟩ ⟨root, right⟩ ↔ Regular left right := by
  have hplaces : ∀ left right, placesOverlap ⟨root, left⟩ ⟨root, right⟩ =
      fieldsOverlap left right := fun _ _ => if_neg (not_not.mpr rfl)
  constructor
  · intro h common a b hdiffer
    have hlast : (a.isRegion || b.isRegion) = true → a ≠ lastIndex ∧ b ≠ lastIndex := by
      intro hregion
      rw [← not_or]
      intro hlast
      apply h.no_overflow
      rw [hplaces, hdiffer.fieldsOverlap_eq, if_pos hregion, regionsOverlap_last hlast]
    obtain ⟨answer, hanswer, hmeet⟩ := hdiffer.answer hlast
    refine ⟨hlast, fun hmeets r s hr hs => ?_, fun _ hapart hcollide => ?_⟩
    · by_contra hempty
      have hfalse := h.precise hdiffer (.inr ⟨r, s, hr, hs, by omega⟩)
      rw [hplaces, hanswer, hmeet.mpr hmeets] at hfalse
      cases hfalse
    · have htrue := h.sound (share_iff_collide.mpr hcollide)
      rw [h.precise hdiffer hapart] at htrue
      cases htrue
  · intro h
    refine ⟨?_, ?_, fun hshare => ?_, fun {common a b} hdiffer hapart => ?_⟩
    · rw [hplaces]
      rcases differ_or_overlap left right with ⟨common, a, b, hdiffer⟩ | htrue
      · obtain ⟨answer, hanswer, -⟩ := hdiffer.answer (h common a b hdiffer).1
        simp [hanswer]
      · simp [htrue]
    · rw [hplaces, hplaces, fieldsOverlap_comm]
    · rw [hplaces]
      rcases differ_or_overlap left right with ⟨common, a, b, hdiffer⟩ | htrue
      · obtain ⟨hlast, -, hunknown⟩ := h common a b hdiffer
        obtain ⟨answer, hanswer, hmeet⟩ := hdiffer.answer hlast
        rw [hanswer, hmeet.mpr]
        by_cases hmem : .range none ∈ common
        · by_contra hnot
          exact hunknown hmem (apart_of_not_meet hnot) (share_iff_collide.mp hshare)
        · obtain ⟨⟨_, rfl⟩, ⟨_, rfl⟩, hne⟩ := hdiffer
          rw [List.append_assoc, List.append_assoc] at hshare
          exact meet_of_share hne (share_of_append hmem hshare)
      · exact htrue
    · obtain ⟨hlast, hempty, -⟩ := h common a b hdiffer
      obtain ⟨answer, hanswer, hmeet⟩ := hdiffer.answer hlast
      rw [hplaces, hanswer, Option.some_inj, ← Bool.not_eq_true, hmeet]
      intro hmeets
      rcases hapart with ⟨ha, hb⟩ | ⟨r, s, hr, hs, hnone⟩
      · simp [Meet, ha, hb] at hmeets
      · have hmeet := hmeets.2 r s hr hs
        have hranges := hempty hmeets r s hr hs
        exact hnone (max r.1 s.1) (by omega)

/-- The end of the last index overflows; `x[2..2]` and `x[0..5]` share nothing; and `x[a..b][0]` and
`x[c..d][1]` are one element for `a = 1` and `c = 0`. -/
theorem placesOverlap_not_exact :
    placesOverlap ⟨0, [lastIndex]⟩ ⟨0, [.index (some 0)]⟩ = none ∧
    (¬ Share [.range (some (2, 2))] [.range (some (0, 5))] ∧
      placesOverlap ⟨0, [.range (some (2, 2))]⟩ ⟨0, [.range (some (0, 5))]⟩ = some true) ∧
    Share [.range none, .index (some 0)] [.range none, .index (some 1)] ∧
      placesOverlap ⟨0, [.range none, .index (some 0)]⟩ ⟨0, [.range none, .index (some 1)]⟩ =
        some false := by
  refine ⟨by decide, ⟨?_, by decide⟩, ⟨[.element 1], ?_, ?_⟩, by decide⟩
  · rintro ⟨cell, hleft, -⟩
    obtain ⟨position, rest, -, hlow, hhigh⟩ := covers_bounds hleft rfl
    omega
  · exact ⟨1, by simp [Covers]⟩
  · exact ⟨0, by simp [Covers]⟩

end Disp.Ownership.Overlap
