import Mathlib.Data.List.Basic

/-!
# Canonical names

`link` names the definitions of the entry module by their own names, and those of other modules by
the path of the module and their name, after `$disp$`.  A variant has the name of its enum in
between, as if the enum were a module.
-/

namespace Disp.Linking

open List

structure EnumDeclaration where
  name : String
  variants : List String
deriving DecidableEq

/-- What `link` names in a `Unit` of the source. -/
structure LoadedUnit where
  root : Bool
  path : List String
  structs : List String
  enums : List EnumDeclaration
  traits : List String
  functions : List String
deriving DecidableEq

def LoadedUnit.items (unit : LoadedUnit) : List String :=
  unit.structs ++ unit.enums.map EnumDeclaration.name ++ unit.traits ++ unit.functions

def canonicalNameParts (root : Bool) (path : List String) (name : String) : String :=
  if root then name else "$disp$" ++ "$".intercalate path ++ "$" ++ name

def canonicalVariantParts (root : Bool) (path : List String) (owner variant : String) : String :=
  if root then variant else "$disp$" ++ "$".intercalate path ++ "$" ++ owner ++ "$" ++ variant

/-- A definition is found by its unit and its name, since `insert_definition` rejects a second item
of a name; a variant is found by its enum, too, and the resolver rejects a second one there. -/
inductive Definition
  | item (unit : LoadedUnit) (name : String)
  | variant (unit : LoadedUnit) (owner name : String)

def Definition.canonical : Definition → String
  | .item unit name => canonicalNameParts unit.root unit.path name
  | .variant unit owner name => canonicalVariantParts unit.root unit.path owner name

def Definition.unit : Definition → LoadedUnit
  | .item unit _ | .variant unit _ _ => unit

/-- The names after the path of the unit. -/
def Definition.localNames : Definition → List String
  | .item _ name => [name]
  | .variant _ owner name => [owner, name]

/-- The unit has this definition. -/
def Definition.Declared : Definition → Prop
  | .item unit name => name ∈ unit.items
  | .variant unit owner name =>
    ∃ declaration ∈ unit.enums, declaration.name = owner ∧ name ∈ declaration.variants

/-- An identifier, or `package:` with the name and version of a package: none has a `$`. -/
def Plain (name : String) : Prop := '$' ∉ name.toList

instance : DecidablePred Plain := fun _ => inferInstanceAs (Decidable (_ ∉ _))

/-- The units that the loader hands to `link`: one for each path, and the entry has none. -/
structure Loaded (units : List LoadedUnit) : Prop where
  paths : ∀ unit ∈ units, ∀ other ∈ units, unit.path = other.path → unit = other
  entry : ∀ unit ∈ units, unit.root = true ↔ unit.path = []
  plain_path : ∀ unit ∈ units, ∀ part ∈ unit.path, Plain part
  plain_item : ∀ unit ∈ units, ∀ name ∈ unit.items, Plain name
  plain_variant : ∀ unit ∈ units, ∀ declaration ∈ unit.enums, ∀ name ∈ declaration.variants,
    Plain name

/-! ## Names as lists of segments -/

/-- The canonical name between its `$`. -/
def Definition.segments (definition : Definition) : List String :=
  if definition.unit.root then definition.localNames.getLast?.toList
  else "" :: "disp" :: (definition.unit.path ++ definition.localNames)

variable {units : List LoadedUnit} {definition other : Definition} {unit : LoadedUnit}

theorem canonical_eq (h : definition.unit.root = false → definition.unit.path ≠ []) :
    definition.canonical = "$".intercalate definition.segments := by
  have hmodule : definition.unit.root = false → "$".intercalate definition.segments =
      "$disp$" ++ "$".intercalate definition.unit.path ++ "$" ++
        "$".intercalate definition.localNames := by
    intro hroot
    have hlocal : definition.localNames ≠ [] := by cases definition <;> simp [Definition.localNames]
    have happend := String.intercalate_append_of_ne_nil (s := "$") (h hroot) hlocal
    simp [Definition.segments, hroot, String.intercalate_cons_of_ne_nil, h hroot, happend,
      ← String.append_assoc]
  cases hroot : definition.unit.root with
  | true =>
    cases definition <;> simp_all [Definition.canonical, canonicalNameParts,
      canonicalVariantParts, Definition.segments, Definition.unit, Definition.localNames]
  | false =>
    cases definition <;> simp_all [Definition.canonical, canonicalNameParts,
      canonicalVariantParts, Definition.unit, Definition.localNames, String.append_assoc]

theorem Loaded.plain_segments (h : Loaded units) (hunit : definition.unit ∈ units)
    (hdecl : definition.Declared) : ∀ segment ∈ definition.segments, Plain segment := by
  have hlocal : ∀ name ∈ definition.localNames, Plain name := by
    cases definition with
    | item unit name => simpa [Definition.localNames] using h.plain_item unit hunit name hdecl
    | variant unit owner name =>
      obtain ⟨declaration, hmem, rfl, hname⟩ := hdecl
      have howner : declaration.name ∈ unit.items := by
        simp [LoadedUnit.items, mem_map_of_mem hmem]
      simpa [Definition.localNames] using ⟨h.plain_item unit hunit _ howner,
        h.plain_variant unit hunit declaration hmem name hname⟩
  intro segment hseg
  unfold Definition.segments at hseg
  split at hseg
  · exact hlocal segment (List.mem_of_getLast? (Option.mem_toList.mp hseg))
  · rcases mem_cons.mp hseg with rfl | hseg
    · simp [Plain]
    rcases mem_cons.mp hseg with rfl | hseg
    · simp [Plain]
    rcases mem_append.mp hseg with hpath | hname
    · exact h.plain_path _ hunit segment hpath
    · exact hlocal segment hname

/-- The canonical name determines its segments. -/
theorem Loaded.segments_eq (h : Loaded units) (hunit : definition.unit ∈ units)
    (hdecl : definition.Declared) (hunit' : other.unit ∈ units) (hdecl' : other.Declared)
    (heq : definition.canonical = other.canonical) : definition.segments = other.segments := by
  have hsplit : ∀ {definition : Definition}, definition.unit ∈ units → definition.Declared →
      definition.canonical.toList.splitOn '$' = definition.segments.map String.toList := by
    intro definition hunit hdecl
    have hpath : definition.unit.root = false → definition.unit.path ≠ [] := by
      simp [← h.entry _ hunit]
    rw [canonical_eq hpath, String.toList_intercalate]
    refine splitOn_intercalate '$' ?_ ?_
    · intro segment hseg
      obtain ⟨name, hname, rfl⟩ := mem_map.mp hseg
      exact h.plain_segments hunit hdecl name hname
    · cases definition <;> simp only [Definition.segments, Definition.localNames] <;> split <;> simp
  have hmap := hsplit hunit hdecl
  rw [heq, hsplit hunit' hdecl'] at hmap
  exact map_injective_iff.mpr (fun _ _ => String.toList_injective) hmap.symm

/-! ## Which names differ -/

/-- A variant shares its name with no item of the unit and no variant of another enum. -/
def LoadedUnit.Separate (unit : LoadedUnit) : Prop :=
  ∀ declaration ∈ unit.enums, ∀ name ∈ declaration.variants, name ∉ unit.items ∧
    ∀ other ∈ unit.enums, name ∈ other.variants → other.name = declaration.name

/-- No module at the path of an enum has an item with the name of a variant. -/
def LoadedUnit.Apart (units : List LoadedUnit) (unit : LoadedUnit) : Prop :=
  ∀ declaration ∈ unit.enums, ∀ name ∈ declaration.variants, ∀ child ∈ units,
    child.path = unit.path ++ [declaration.name] → name ∉ child.items

theorem eq_of_segments_entry (hseparate : unit.Separate) (hroot : unit.root = true)
    (hunit : definition.unit = unit) (hunit' : other.unit = unit)
    (hdecl : definition.Declared) (hdecl' : other.Declared)
    (heq : definition.segments = other.segments) : definition = other := by
  simp only [Definition.segments] at heq
  cases definition with
  | item unit name =>
    cases other with
    | item unit' name' => simp_all [Definition.localNames, Definition.unit]
    | variant unit' owner' name' =>
      obtain ⟨declaration, hmem, -, hname⟩ := hdecl'
      simp_all [Definition.localNames, Definition.unit]
      exact absurd hdecl (hseparate declaration hmem _ hname).1
  | variant unit owner name =>
    obtain ⟨declaration, hmem, rfl, hname⟩ := hdecl
    cases other with
    | item unit' name' =>
      simp_all [Definition.localNames, Definition.unit]
      exact absurd hdecl' (hseparate declaration hmem _ hname).1
    | variant unit' owner' name' =>
      obtain ⟨declaration', hmem', rfl, hname'⟩ := hdecl'
      simp_all [Definition.localNames, Definition.unit]
      exact ((hseparate declaration hmem _ hname).2 declaration' hmem' hname').symm

theorem eq_of_segments_module (h : Loaded units) (hapart : ∀ unit ∈ units, unit.root = false →
    unit.Apart units) (hunit : definition.unit ∈ units) (hunit' : other.unit ∈ units)
    (hroot : definition.unit.root = false) (hroot' : other.unit.root = false)
    (hdecl : definition.Declared) (hdecl' : other.Declared)
    (heq : definition.segments = other.segments) : definition = other := by
  simp only [Definition.segments, hroot, hroot', Bool.false_eq_true, if_false, List.cons.injEq,
    true_and] at heq
  -- A variant of an enum and an item of a module: the path of the module ends with the enum.
  have hmixed : ∀ {unit child : LoadedUnit} {owner name item : String}, unit ∈ units →
      unit.root = false → child ∈ units → (Definition.variant unit owner name).Declared →
      item ∈ child.items → unit.path ++ [owner, name] = child.path ++ [item] → False := by
    rintro unit child owner name item hunit hroot hchild ⟨declaration, hmem, rfl, hname⟩ hitem heq
    rw [← singleton_append, ← append_assoc] at heq
    obtain ⟨hpath, hlast⟩ := append_inj' heq rfl
    obtain rfl : name = item := by simpa using hlast
    exact hapart unit hunit hroot declaration hmem name hname child hchild hpath.symm hitem
  cases definition with
  | item unit name =>
    cases other with
    | item unit' name' =>
      obtain ⟨hpath, hname⟩ := append_inj' heq rfl
      have hsame : unit = unit' := h.paths _ hunit _ hunit' hpath
      simp_all [Definition.localNames]
    | variant unit' owner' name' =>
      exact (hmixed hunit' hroot' hunit hdecl' hdecl heq.symm).elim
  | variant unit owner name =>
    cases other with
    | item unit' name' => exact (hmixed hunit hroot hunit' hdecl hdecl' heq).elim
    | variant unit' owner' name' =>
      obtain ⟨hpath, hname⟩ := append_inj' heq rfl
      have hsame : unit = unit' := h.paths _ hunit _ hunit' hpath
      simp_all [Definition.localNames]

/-- Different definitions of the units have different canonical names. -/
def CanonicalUnique (units : List LoadedUnit) : Prop :=
  ∀ definition other : Definition, definition.unit ∈ units → other.unit ∈ units →
    definition.Declared → other.Declared →
    definition.canonical = other.canonical → definition = other

/-- Canonical names are unique exactly when the variants of the entry module have names of their
own, and no module is at the path of an enum with an item named like one of its variants. -/
theorem canonical_unique_iff (units : List LoadedUnit) (h : Loaded units) :
    CanonicalUnique units ↔ (∀ unit ∈ units, unit.root = true → unit.Separate) ∧
      ∀ unit ∈ units, unit.root = false → unit.Apart units := by
  constructor
  · intro huniq
    refine ⟨fun unit hunit hroot declaration hmem name hname => ⟨fun hitem => ?_,
        fun other hother hname' => ?_⟩,
      fun unit hunit hroot declaration hmem name hname child hchild hpath hitem => ?_⟩
    · have := huniq (.item unit name) (.variant unit declaration.name name) hunit hunit hitem
        ⟨declaration, hmem, rfl, hname⟩
        (by simp [Definition.canonical, canonicalNameParts, canonicalVariantParts, hroot])
      cases this
    · have := huniq (.variant unit other.name name) (.variant unit declaration.name name)
        hunit hunit ⟨other, hother, rfl, hname'⟩ ⟨declaration, hmem, rfl, hname⟩
        (by simp [Definition.canonical, canonicalVariantParts, hroot])
      exact (Definition.variant.inj this).2.1
    · have hpaths : ∀ unit ∈ units, unit.root = false → unit.path ≠ [] := by
        intro unit hunit
        simp [← h.entry _ hunit]
      have hroot' : child.root = false := by
        rw [Bool.eq_false_iff, Ne, h.entry _ hchild, hpath]
        simp
      have := huniq (.item child name) (.variant unit declaration.name name) hchild hunit hitem
        ⟨declaration, hmem, rfl, hname⟩ (by
          rw [canonical_eq (by exact hpaths child hchild),
            canonical_eq (by exact hpaths unit hunit)]
          simp [Definition.segments, Definition.unit, Definition.localNames, hroot, hroot', hpath])
      cases this
  · intro ⟨hseparate, hapart⟩ definition other hunit hunit' hdecl hdecl' heq
    have heq := h.segments_eq hunit hdecl hunit' hdecl' heq
    -- The names of the entry module are one segment, those of other modules at least three.
    have hroots : definition.unit.root = other.unit.root := by
      have hlen := congrArg List.length heq
      cases definition <;> cases other <;>
        simp only [Definition.segments, Definition.localNames] at hlen <;>
        split at hlen <;> split at hlen <;> simp_all
    cases hroot : definition.unit.root with
    | true =>
      have hsame := h.paths _ hunit' _ hunit (((h.entry _ hunit').mp (hroots ▸ hroot)).trans
        ((h.entry _ hunit).mp hroot).symm)
      exact eq_of_segments_entry (hseparate _ hunit hroot) hroot rfl hsame hdecl hdecl' heq
    | false =>
      exact eq_of_segments_module h hapart hunit hunit' hroot (hroots ▸ hroot) hdecl hdecl' heq

theorem canonical_unique_shape :
    let units : List LoadedUnit := [⟨true, [], ["Point"], [⟨"Shape", ["Circle"]⟩], [], ["main"]⟩,
      ⟨false, ["geometry"], [], [⟨"Kind", ["Circle"]⟩], [], ["area"]⟩]
    Loaded units ∧ CanonicalUnique units := by
  intro units
  have h : Loaded units := by constructor <;> decide
  exact ⟨h, (canonical_unique_iff _ h).mpr (by
    simp [units, LoadedUnit.Separate, LoadedUnit.Apart, LoadedUnit.items])⟩

/-- The variant `Same` of the enum `Left` in module `a` and the struct `Same` of module `a.Left` are
both `$disp$a$Left$Same`. -/
theorem canonical_not_unique :
    let outer : LoadedUnit := ⟨false, ["a"], [], [⟨"Left", ["Same"]⟩], [], []⟩
    let inner : LoadedUnit := ⟨false, ["a", "Left"], ["Same"], [], [], []⟩
    let units : List LoadedUnit := [⟨true, [], [], [], [], ["main"]⟩, outer, inner]
    Loaded units ∧ ¬CanonicalUnique units := by
  intro outer inner units
  refine ⟨by constructor <;> decide, fun huniq => ?_⟩
  have := huniq (.variant outer "Left" "Same") (.item inner "Same") (by decide) (by decide)
    ⟨⟨"Left", ["Same"]⟩, by decide⟩ mem_cons_self (by decide)
  cases this

end Disp.Linking
