import Disp.Patterns.Values

/-!
# Accepted matches are exhaustive

The rows of a matrix that respect the types of their columns cover every list of values of
these types for which the wildcard is not useful.  The coverage type of a scrutinee fits its
values, and a checked pattern respects it, so a match that is accepted has an arm for every
value.
-/

namespace Disp.Patterns

open List

open Disp.Library.Codec (bind_eq_ok)
open Disp.Library.IndexedSearch (lookup_of_mem mem_of_lookup)
open Disp.Library.PatternMatrix
open Disp.TypeChecker

variable {registry : Registry} {ty : Ty} {arguments : List Ty} {value : Value} {variant : String}
  {tys : List Ty} {matrix : List (List CoveragePattern)} {head : CoverageConstructor}
  {shapes types : List CoverageType} {constructors : List (CoverageConstructor × List CoverageType)}
  {values : List Value} {scrutinee : Ty} {arms : List Arm} {rows : List (List CoveragePattern)}
  {arm : Arm} {checked : Checked} {coverage after : MatchCoverage}

/-! ## Coverage types -/

theorem coverageType_unknown (h : known ty = false) (levels : Nat) (visiting : List Ty) :
    coverageType registry levels visiting ty = .opened := by
  cases levels with
  | zero => rfl
  | succ levels =>
    unfold coverageType
    split <;> first | rfl | cases h

def fieldTypes (registry : Registry) (levels : Nat) (visiting : List Ty) (info : StructInfo)
    (arguments : List Ty) : List CoverageType :=
  (sortByName info.fields).map fun field =>
    coverageType registry levels visiting (substitute (info.generics.zip arguments) field.2)

def payloadTypes (registry : Registry) (levels : Nat) (visiting : List Ty) (info : EnumInfo)
    (arguments payload : List Ty) : List CoverageType :=
  payload.map fun ty =>
    coverageType registry levels visiting (substitute (info.generics.zip arguments) ty)

theorem coverageType_struct {id : Nat} {info : StructInfo}
    (hinfo : registry.structs.lookup id = some info) (levels : Nat) (visiting : List Ty) :
    coverageType registry (levels + 1) visiting (.app (.struct id) arguments) = .opened ∨
      coverageType registry (levels + 1) visiting (.app (.struct id) arguments) =
        .finite [(.struct (registry.structName id), fieldTypes registry levels
          (.app (.struct id) arguments :: visiting) info arguments)] := by
  by_cases hvisit : .app (.struct id) arguments ∈ visiting
  · exact .inl (by simp [coverageType, hvisit])
  · exact .inr (by simp [coverageType, hvisit, hinfo, fieldTypes])

theorem coverageType_enum {id : Nat} {info : EnumInfo}
    (hinfo : registry.enums.lookup id = some info) (levels : Nat) (visiting : List Ty) :
    coverageType registry (levels + 1) visiting (.app (.enum id) arguments) = .opened ∨
      coverageType registry (levels + 1) visiting (.app (.enum id) arguments) =
        .finite ((sortByName info.variants).map fun variant => (.variant variant.1,
          payloadTypes registry levels (.app (.enum id) arguments :: visiting) info arguments
            variant.2)) := by
  by_cases hvisit : .app (.enum id) arguments ∈ visiting
  · exact .inl (by simp [coverageType, hvisit])
  · exact .inr (by simp [coverageType, hvisit, hinfo, payloadTypes])

/-- The values of a type fit its coverage type. -/
theorem fits_coverageType (h : HasType registry value ty) (levels : Nat) (visiting : List Ty) :
    Fits view (coverageType registry levels visiting ty) value := by
  induction levels generalizing value ty visiting with
  | zero => exact .opened value
  | succ levels ih =>
    cases h with
    | bool value =>
      have hmem : (CoverageConstructor.bool value, ([] : List CoverageType)) ∈
          [(.bool false, []), (.bool true, [])] := by cases value <;> simp
      exact .finite hmem rfl rfl (by simp)
    | some hval =>
      exact .finite mem_cons_self rfl rfl (by simpa using ih hval visiting)
    | none => exact .finite (mem_cons_of_mem _ mem_cons_self) rfl rfl (by simp)
    | ok hval => exact .finite mem_cons_self rfl rfl (by simpa using ih hval visiting)
    | err hval =>
      exact .finite (mem_cons_of_mem _ mem_cons_self) rfl rfl (by simpa using ih hval visiting)
    | struct hinfo hnames hfields =>
      rcases coverageType_struct hinfo levels visiting with hopen | hfinite
      · rw [hopen]
        exact .opened _
      · rw [hfinite]
        have hlen := congrArg List.length hnames
        simp only [length_map] at hlen
        refine .finite mem_cons_self rfl (by simp [fieldTypes, hlen]) ?_
        intro pair hpair
        rw [fieldTypes, zip_map, mem_map] at hpair
        obtain ⟨pair, hmem, rfl⟩ := hpair
        exact ih (hfields pair hmem) _
    | enum hinfo hvariant hlen hpay =>
      rcases coverageType_enum hinfo levels visiting with hopen | hfinite
      · rw [hopen]
        exact .opened _
      · rw [hfinite]
        refine .finite (mem_map.mpr ⟨_, (mem_sortByName _ _).mpr hvariant, rfl⟩) rfl
          (by simp [payloadTypes, hlen]) ?_
        intro pair hpair
        rw [payloadTypes, zip_map_right, mem_map] at hpair
        obtain ⟨pair, hmem, rfl⟩ := hpair
        exact ih (hpay pair hmem) _
    | other hknown =>
      rw [coverageType_unknown hknown]
      exact .opened value

/-! ## Checked patterns -/

def isLiteral : Con → Bool
  | .string | .char | .intLiteral _ | .negativeIntLiteral _ => true
  | _ => false

theorem known_of_literal {con : Con} (hcon : isLiteral con = true)
    (h : typesCompatible ty (.app con []) = true ∨ typesCompatible (.app con []) ty = true) :
    known ty = false := by
  unfold known
  cases con with
  | string | char | intLiteral value | negativeIntLiteral value =>
    split <;> simp_all [typesCompatible, scalarCompatible, Con.comparesArguments]
  | _ => cases hcon

theorem respects_unknown (h : known ty = false) (head : CoverageConstructor) (levels : Nat)
    (visiting : List Ty) :
    Respects (.constructor head []) (coverageType registry levels visiting ty) := by
  rw [coverageType_unknown h]
  simp [Respects]

theorem requireSame_inv {context : String} {expected actual : Ty}
    (h : requireSame context expected actual = .ok ()) :
    typesCompatible expected actual = true := by
  rw [requireSame] at h
  split_ifs at h with hcompat
  exact hcompat

theorem known_of_bool (h : typesCompatible .bool ty = true) : ty = .bool ∨ known ty = false := by
  cases ty with
  | generic name => simp [typesCompatible] at h
  | app con arguments =>
    by_cases hinfer : con = .infer
    · exact .inr (by subst hinfer; rfl)
    · simp only [typesCompatible, scalarCompatible, Con.comparesArguments, reduceCtorEq, hinfer,
        or_self, if_false, Bool.false_eq_true, Bool.and_eq_true, beq_iff_eq,
        decide_eq_true_eq] at h
      exact .inl (by rw [← h.1, ← h.2])

theorem mem_variants_iff {table : List (String × List Ty)} (hnodup : (table.map Prod.fst).Nodup)
    (h : table.lookup variant = some tys) (f : List Ty → List CoverageType)
    (shapes : List CoverageType) :
    (CoverageConstructor.variant variant, shapes) ∈
        table.map (fun entry => (CoverageConstructor.variant entry.1, f entry.2)) ↔
      shapes = f tys := by
  constructor
  · intro hmem
    obtain ⟨entry, hentry, heq⟩ := mem_map.mp hmem
    cases heq
    rw [lookup_of_mem hnodup hentry] at h
    rw [Option.some.inj h]
  · rintro rfl
    exact mem_map.mpr ⟨_, mem_of_lookup h, rfl⟩

/-- The coverage type of a type with the variant of a pattern. -/
theorem coverageType_variant {typeName : Option String}
    (h : variantPayload registry typeName variant ty = .ok tys) (levels : Nat)
    (visiting : List Ty) :
    coverageType registry (levels + 1) visiting ty = .opened ∨
      ∃ constructors inner, coverageType registry (levels + 1) visiting ty = .finite constructors ∧
        ∀ shapes, (CoverageConstructor.variant variant, shapes) ∈ constructors ↔
          shapes = tys.map (coverageType registry levels inner) := by
  unfold variantPayload at h
  split at h
  case h_1 | h_2 =>
    obtain ⟨-, htys⟩ := ownedPayload_inv h
    exact .inr ⟨_, visiting, rfl,
      mem_variants_iff (by simp) htys (List.map (coverageType registry levels visiting))⟩
  · split at h
    · rename_i id arguments _ info hinfo
      obtain ⟨-, htys⟩ := ownedPayload_inv h
      obtain ⟨payload, hpay, rfl⟩ := Option.map_eq_some_iff.mp htys
      rcases coverageType_enum hinfo levels visiting with hopen | hfinite
      · exact .inl hopen
      · refine .inr ⟨_, .app (.enum id) arguments :: visiting, hfinite, fun shapes => ?_⟩
        have hiff := mem_variants_iff (registry.variantsOnce _ (mem_of_lookup hinfo)) hpay
          (payloadTypes registry levels (.app (.enum id) arguments :: visiting) info arguments)
          shapes
        simpa only [mem_map, mem_sortByName, payloadTypes, map_map, Function.comp_def] using hiff
    · cases h
  · cases h

/-- The patterns of a struct's fields respect the types of the fields. -/
theorem respectsAll_checkNamed {checks : List (String × (Ty → Except PatternError Checked))}
    {substitutions : Substitutions} {declared : List (String × Ty)}
    {named : List CoveragePattern × List (String × Ty)} {levels : Nat} {visiting : List Ty}
    (hchecks : ∀ entry ∈ checks, ∀ ty checked, entry.2 ty = .ok checked →
      Respects checked.1 (coverageType registry levels visiting ty))
    (h : checkNamed checks substitutions declared = .ok named) :
    RespectsAll named.1 (declared.map fun field =>
      coverageType registry levels visiting (substitute substitutions field.2)) := by
  induction declared generalizing named with
  | nil =>
    cases h
    simp [RespectsAll]
  | cons field declared ih =>
    obtain ⟨first, hfirst, h⟩ := bind_eq_ok h
    obtain ⟨rest, hrest, h⟩ := bind_eq_ok h
    cases h
    rw [map_cons, respectsAll_cons]
    refine ⟨?_, ih hrest⟩
    rw [checkField] at hfirst
    split at hfirst
    · exact hchecks _ (mem_of_lookup ‹_›) _ _ hfirst
    · cases hfirst
      simp [Respects]

mutual

/-- A checked pattern respects the coverage type it was checked against. -/
theorem respects_checkPattern (pattern : Pattern) {ty : Ty} {checked : Checked}
    (hcheck : checkPattern registry pattern ty = .ok checked) (levels : Nat)
    (visiting : List Ty) : Respects checked.1 (coverageType registry levels visiting ty) := by
  match pattern with
  | .wildcard | .binding _ =>
    cases hcheck
    simp [Respects]
  | .or _ => cases hcheck
  | .integer _ =>
    obtain ⟨_, hsame, h⟩ := bind_eq_ok hcheck
    cases h
    exact respects_unknown (known_of_literal rfl (.inl (requireSame_inv hsame))) _ _ _
  | .negativeInteger _ =>
    rw [checkPattern] at hcheck
    split_ifs at hcheck
    obtain ⟨_, hsame, h⟩ := bind_eq_ok hcheck
    cases h
    exact respects_unknown (known_of_literal rfl (.inl (requireSame_inv hsame))) _ _ _
  | .string _ | .character _ =>
    obtain ⟨_, hsame, h⟩ := bind_eq_ok hcheck
    cases h
    exact respects_unknown (known_of_literal rfl (.inr (requireSame_inv hsame))) _ _ _
  | .bool b =>
    obtain ⟨_, hsame, h⟩ := bind_eq_ok hcheck
    cases h
    rcases known_of_bool (requireSame_inv hsame) with rfl | hknown
    · cases levels with
      | zero => simp [coverageType, Respects]
      | succ levels => cases b <;> simp [coverageType, Respects, RespectsAll]
    · exact respects_unknown hknown _ _ _
  | .struct typeName fields rest =>
    obtain ⟨id, arguments, info, named, rfl, hinfo, rfl, -, hnamed, rfl⟩ := checkStruct_inv hcheck
    cases levels with
    | zero => simp [coverageType, Respects]
    | succ levels =>
      rcases coverageType_struct hinfo levels visiting with hopen | hfinite
      · rw [hopen]
        simp [Respects]
      · rw [hfinite]
        refine ⟨⟨_, mem_cons_self⟩, fun shapes hshapes => ?_⟩
        cases mem_singleton.mp hshapes
        exact respectsAll_checkNamed
          (fun entry hentry => respects_checkFields fields entry hentry _ _) hnamed
  | .variant typeName variant arguments =>
    obtain ⟨tys, inner, hpay, hcount, hinner, rfl⟩ := checkVariant_inv hcheck
    cases levels with
    | zero => simp [coverageType, Respects]
    | succ levels =>
      rcases coverageType_variant hpay levels visiting with
        hopen | ⟨constructors, entered, hfinite, hshapes⟩
      · rw [hopen]
        simp [Respects]
      · rw [hfinite]
        refine ⟨⟨_, (hshapes _).mpr rfl⟩, fun shapes hmem => ?_⟩
        rw [(hshapes shapes).mp hmem]
        exact respectsAll_checkArguments arguments hinner hcount levels entered

theorem respects_checkFields (fields : List (String × Pattern)) :
    ∀ entry ∈ checkFields registry fields, ∀ (levels : Nat) (visiting : List Ty) (ty : Ty)
      (checked : Checked), entry.2 ty = .ok checked →
      Respects checked.1 (coverageType registry levels visiting ty) := by
  match fields with
  | [] => simp [checkFields]
  | (name, pattern) :: fields =>
    intro entry hentry levels visiting ty checked hcheck
    rcases mem_cons.mp hentry with rfl | hentry
    · exact respects_checkPattern pattern hcheck levels visiting
    · exact respects_checkFields fields entry hentry levels visiting ty checked hcheck

theorem respectsAll_checkArguments (arguments : List Pattern) {tys : List Ty}
    {checked : List CoveragePattern × List (String × Ty)}
    (hcheck : checkArguments registry arguments tys = .ok checked)
    (hcount : tys.length = arguments.length) (levels : Nat) (visiting : List Ty) :
    RespectsAll checked.1 (tys.map (coverageType registry levels visiting)) := by
  match arguments, tys with
  | [], [] =>
    cases hcheck
    simp [RespectsAll]
  | pattern :: arguments, ty :: tys =>
    obtain ⟨first, hfirst, hcheck⟩ := bind_eq_ok hcheck
    obtain ⟨rest, hrest, hcheck⟩ := bind_eq_ok hcheck
    cases hcheck
    rw [map_cons, respectsAll_cons]
    exact ⟨respects_checkPattern pattern hfirst levels visiting,
      respectsAll_checkArguments arguments hrest (Nat.succ.inj hcount) levels visiting⟩

end

/-! ## Usefulness -/

section

variable (hrows : ∀ row ∈ matrix, RespectsAll row (.finite constructors :: types))
  (hhead : (head, shapes) ∈ constructors)

include hrows hhead

theorem respects_arguments (arguments rest : List CoveragePattern)
    (hmem : .constructor head arguments :: rest ∈ matrix) : RespectsAll arguments shapes :=
  (respectsAll_cons.mp (hrows _ hmem)).1.2 shapes hhead

/-- A row of the specialised matrix that covers the parts of a value comes from a row that
covers the value. -/
theorem covers_of_specialize {parts : List Value}
    (hview : view value = some (head, parts)) (hlen : parts.length = shapes.length)
    (h : ∃ row ∈ specializeMatrix matrix head shapes.length, CoversAll view row (parts ++ values)) :
    ∃ row ∈ matrix, CoversAll view row (value :: values) := by
  obtain ⟨specialized, hmem, hcovers⟩ := h
  obtain ⟨row, hrow, hspec⟩ := mem_filterMap.mp hmem
  refine ⟨row, hrow, ?_⟩
  cases row with
  | nil => cases hspec
  | cons pattern rest =>
    cases pattern with
    | wildcard =>
      cases hspec
      rw [coversAll_append (by simp [hlen])] at hcovers
      exact coversAll_cons.mpr ⟨by simp [Covers], hcovers.2⟩
    | constructor candidate arguments =>
      simp only at hspec
      split_ifs at hspec with heq
      cases hspec
      subst heq
      have hrespects := respects_arguments hrows hhead arguments rest hrow
      rw [coversAll_append (hrespects.length_eq.trans hlen.symm)] at hcovers
      exact coversAll_cons.mpr ⟨⟨parts, hview, hcovers.1⟩, hcovers.2⟩

end

theorem covers_of_default (h : ∃ row ∈ defaultMatrix matrix, CoversAll view row values) :
    ∃ row ∈ matrix, CoversAll view row (value :: values) := by
  obtain ⟨rest, hmem, hcovers⟩ := h
  obtain ⟨row, hrow, hrest⟩ := mem_filterMap.mp hmem
  refine ⟨row, hrow, ?_⟩
  split at hrest
  · cases hrest
    exact coversAll_cons.mpr ⟨by simp [Covers], hcovers⟩
  · cases hrest

theorem respects_specialize {ty : CoverageType}
    (hrows : ∀ row ∈ matrix, RespectsAll row (ty :: types))
    (hargs : ∀ arguments rest, .constructor head arguments :: rest ∈ matrix →
      RespectsAll arguments shapes) :
    ∀ row ∈ specializeMatrix matrix head shapes.length, RespectsAll row (shapes ++ types) := by
  intro specialized hmem
  obtain ⟨row, hrow, hspec⟩ := mem_filterMap.mp hmem
  cases row with
  | nil => cases hspec
  | cons pattern rest =>
    obtain ⟨-, hrest⟩ := respectsAll_cons.mp (hrows _ hrow)
    cases pattern with
    | wildcard =>
      cases hspec
      exact (respectsAll_wildcards shapes).append hrest
    | constructor candidate arguments =>
      simp only at hspec
      split_ifs at hspec with heq
      cases hspec
      subst heq
      exact (hargs arguments rest hrow).append hrest

theorem respects_default {ty : CoverageType}
    (hrows : ∀ row ∈ matrix, RespectsAll row (ty :: types)) :
    ∀ row ∈ defaultMatrix matrix, RespectsAll row types := by
  intro rest hmem
  obtain ⟨row, hrow, hrest⟩ := mem_filterMap.mp hmem
  split at hrest
  · cases hrest
    exact (respectsAll_cons.mp (hrows _ hrow)).2
  · cases hrest

theorem anyM_eq_false {α : Type} {f : α → Option Bool} {items : List α}
    (h : items.anyM f = some false) : ∀ item ∈ items, f item = some false := by
  induction items with
  | nil => simp
  | cons item items ih =>
    obtain ⟨useful, huseful, h⟩ := Option.bind_eq_some_iff.mp h
    cases useful with
    | true => cases h
    | false => simpa [huseful] using ih h

/-- Where the wildcards are not useful, a row covers the values. -/
theorem exists_row_covers {steps : Nat} (hrows : ∀ row ∈ matrix, RespectsAll row types)
    (hfits : List.Forall₂ (Fits view) types values)
    (h : patternIsUseful steps matrix (List.replicate types.length .wildcard) types = some false) :
    ∃ row ∈ matrix, CoversAll view row values := by
  induction steps generalizing matrix types values with
  | zero => cases h
  | succ steps ih =>
    cases hfits with
    | nil =>
      obtain ⟨row, rows, rfl⟩ : ∃ row rows, matrix = row :: rows := by
        cases matrix with
        | nil => cases h
        | cons row rows => exact ⟨row, rows, rfl⟩
      have hrow := hrows row mem_cons_self
      refine ⟨row, mem_cons_self, ?_⟩
      cases row with
      | nil => rfl
      | cons pattern rest => exact absurd hrow.length_eq (by simp)
    | @cons ty value types values hfirst hrest =>
      cases hfirst with
      | opened =>
        exact covers_of_default (ih (respects_default hrows) hrest h)
      | @finite constructors head shapes _ parts hhead hview hlen hparts =>
        have hbranch := anyM_eq_false h _ hhead
        simp only [← replicate_add, ← length_append] at hbranch
        exact covers_of_specialize hrows hhead hview hlen
          (ih (respects_specialize hrows (respects_arguments hrows hhead))
            (forall₂_fits_append hlen hparts hrest) hbranch)

/-! ## Matches -/

/-- Every row of the coverage stems from an arm without a guard. -/
def RowsOf (registry : Registry) (scrutinee : Ty) (arms : List Arm)
    (rows : List (List CoveragePattern)) : Prop :=
  ∀ row ∈ rows, ∃ arm ∈ arms, arm.guarded = false ∧ ∃ checked,
    checkPattern registry arm.pattern scrutinee = .ok checked ∧ row = [checked.1]

theorem RowsOf.add (h : RowsOf registry scrutinee arms rows) (harm : arm ∈ arms)
    (hcheck : checkPattern registry arm.pattern scrutinee = .ok checked)
    (hguard : arm.guarded = false) : RowsOf registry scrutinee arms (rows ++ [[checked.1]]) := by
  intro row hrow
  rcases mem_append.mp hrow with hrow | hrow
  · exact h row hrow
  · exact ⟨arm, harm, hguard, checked, hcheck, mem_singleton.mp hrow⟩

theorem RowsOf.respects (h : RowsOf registry scrutinee arms rows) (levels : Nat)
    (visiting : List Ty) :
    ∀ row ∈ rows, RespectsAll row [coverageType registry levels visiting scrutinee] := by
  intro row hrow
  obtain ⟨arm, -, -, checked, hcheck, rfl⟩ := h row hrow
  exact ⟨_, [], rfl, respects_checkPattern arm.pattern hcheck levels visiting, rfl⟩

theorem add_inv {pattern : CoveragePattern} {contributes : Bool}
    (h : coverage.add pattern contributes = .ok after) :
    after = if contributes then { coverage with rows := coverage.rows ++ [[pattern]] }
      else coverage := by
  unfold MatchCoverage.add at h
  split at h
  · cases h
  · cases h
  · split_ifs at h <;> cases h <;> simp_all

/-- The state of the coverage between two arms. -/
structure Tracks (registry : Registry) (scrutinee : Ty) (arms : List Arm)
    (coverage : MatchCoverage) : Prop where
  ty : coverage.ty = coverageType registry 64 [] scrutinee
  rows : RowsOf registry scrutinee arms coverage.rows

theorem Tracks.new (registry : Registry) (scrutinee : Ty) (arms : List Arm) :
    Tracks registry scrutinee arms (.new registry scrutinee) :=
  ⟨rfl, by simp [RowsOf, MatchCoverage.new]⟩

theorem Tracks.add (h : Tracks registry scrutinee arms coverage) (harm : arm ∈ arms)
    (hcheck : checkPattern registry arm.pattern scrutinee = .ok checked)
    (hadd : coverage.add checked.1 (!arm.guarded) = .ok after) :
    Tracks registry scrutinee arms after := by
  rw [add_inv hadd]
  split_ifs with hguard
  · exact ⟨h.ty, h.rows.add harm hcheck (by simpa using hguard)⟩
  · exact h

theorem Tracks.checkArms {all : List Arm} (hsub : arms ⊆ all)
    (h : Tracks registry scrutinee all coverage)
    (hcheck : checkArms registry scrutinee coverage arms = .ok after) :
    Tracks registry scrutinee all after := by
  induction arms generalizing coverage with
  | nil =>
    cases hcheck
    exact h
  | cons arm arms ih =>
    obtain ⟨harm, hsub⟩ := cons_subset.mp hsub
    rw [Patterns.checkArms] at hcheck
    split at hcheck
    · cases hcheck
    · rename_i hpat
      split at hcheck
      · cases hcheck
      · exact ih hsub (h.add harm hpat ‹_›) hcheck

/-- A match that is accepted has an arm without a guard for every value. -/
theorem checkMatch_exhaustive (h : checkMatch registry scrutinee arms = .ok ())
    (hval : HasType registry value scrutinee) :
    ∃ arm ∈ arms, arm.guarded = false ∧ Matches arm.pattern value := by
  unfold checkMatch at h
  split at h
  · cases h
  · rename_i coverage hcoverage
    obtain ⟨hty, hrows⟩ := (Tracks.new registry scrutinee arms).checkArms (List.Subset.refl arms)
      hcoverage
    have huseful : patternIsUseful 128 coverage.rows [.wildcard] [coverage.ty] = some false := by
      unfold MatchCoverage.finish at h
      split at h
      · cases h
      · assumption
      · split at h
        · split at h <;> cases h
        · cases h
    rw [hty] at huseful
    obtain ⟨row, hrow, hcovers⟩ := exists_row_covers (hrows.respects 64 [])
      (.cons (fits_coverageType hval 64 []) .nil) huseful
    obtain ⟨arm, harm, hguard, checked, hcheck, rfl⟩ := hrows row hrow
    exact ⟨arm, harm, hguard,
      matches_of_covers arm.pattern hcheck hval (coversAll_cons.mp hcovers).1 []⟩

end Disp.Patterns
