import Disp.Copying.Stages
import Disp.Library.Pointwise
import Mathlib.Data.List.Nodup
import Mathlib.Data.List.Perm.Subperm

/-!
# Implementations of Copy

A block that implements `Copy` covers every permitted instantiation of the type it names, so
the checker's search among the implementations comes down to the name, and so does the
representation's table, if the stages read names alike.
-/

namespace Disp.Copying

open Disp.TypeChecker Disp.Dispatch Disp.Library.Pointwise List Option

variable {program : Program} {name : String} {con : Con} {arity : Nat} {arguments : List TypeName}
  {names : List String} {ty : Ty} {scope : List String} {declarations : List TypeDeclaration}
  {generics : List GenericParameter} {block : Implementation} {registered : List ImplInfo}
  {info : ImplInfo}

/-! ## Names that every stage reads alike -/

/-- A name that no stage knows without looking at the declarations. -/
structure Free (name : String) : Prop where
  special : name ∉ ["fn", "CFunction", "unit", "float", "Self"]
  builtin : builtinTypes.lookup name = none
  error : errorTypes.lookup name = none
  signed : integerWidth 'i' name = none
  unsigned : integerWidth 'u' name = none
  array : ∀ length, name ≠ (TypeHead.array length).text

def Declares (program : Program) (name : String) : Prop :=
  name ∈ program.structs.map (·.name) ∨ name ∈ program.enums.map (·.name)

/-- A block whose target and generic names are told apart from the built-in names and from
each other, and whose target has no qualifier. -/
structure ReadBlock (program : Program) (block : Implementation) : Prop where
  declared : Declares program block.target.head.text → Free block.target.head.text
  generics : ∀ generic ∈ block.generics, Free generic.name ∧ ¬ Declares program generic.name
  owned : block.target.qualifier = .owned

/-- The trait `Copy` is the built-in one, and the stages read its implementations alike. -/
structure ReadAlike (program : Program) : Prop where
  builtinTrait : ∀ declaration ∈ program.traits, declaration.name ≠ "Copy"
  blocks : ∀ block ∈ program.implementations, implementsCopy block = true →
    ReadBlock program block

/-- The checker has registered the implementations, and the ownership checker has validated
those of `Copy`. -/
structure Implemented (program : Program) (infos : List ImplInfo) : Prop where
  registered : registerAll program program.implementations [] = .ok infos
  validated : validateCopyImplementations program = true
  alike : ReadAlike program

theorem findIdx?_name_eq_none :
    declarations.findIdx? (·.name == name) = none ↔ name ∉ declarations.map (·.name) := by
  simp

theorem mem_names {declaration : TypeDeclaration}
    (h : declarations.find? (·.name == name) = some declaration) :
    name ∈ declarations.map (·.name) :=
  List.mem_map.mpr ⟨declaration, List.mem_of_find?_eq_some h, by simpa using List.find?_some h⟩

theorem find?_of_findIdx? {id : Nat} (h : declarations.findIdx? (·.name == name) = some id) :
    ∃ declaration, declarations[id]? = some declaration ∧
      declarations.find? (·.name == name) = some declaration := by
  obtain ⟨hlt, hname, hbefore⟩ := List.findIdx?_eq_some_iff_getElem.mp h
  refine ⟨declarations[id], List.getElem?_eq_getElem hlt, List.find?_eq_some_iff_getElem.mpr
    ⟨hname, id, hlt, rfl, fun j hj => ?_⟩⟩
  simpa using hbefore j hj

theorem declares_of_nominal (h : program.nominal name = some (con, arity)) :
    Declares program name := by
  obtain ⟨id, hid, -⟩ | ⟨-, id, hid, -⟩ := Program.nominal_eq_some h
  all_goals obtain ⟨declaration, -, hfind⟩ := find?_of_findIdx? hid
  · exact .inl (mem_names hfind)
  · exact .inr (mem_names hfind)

theorem nominal_isNominal (h : program.nominal name = some (con, arity)) :
    isNominal con = true := by
  obtain ⟨id, -, rfl, -⟩ | ⟨-, id, -, rfl, -⟩ := Program.nominal_eq_some h <;> rfl

theorem compared_of_isNominal (h : isNominal con = true) : con.compared = true := by
  cases con with
  | struct id | enum id => simp [Con.compared, Con.comparesArguments]
  | _ => cases h

theorem eq_of_compatible {c d : Con} {xs ys : List Ty} (hc : isNominal c = true)
    (hd : isNominal d = true) (h : typesCompatible (.app c xs) (.app d ys) = true) : c = d := by
  cases c with
  | struct id | enum id =>
    cases d with
    | struct id' | enum id' =>
      simp_all [typesCompatible, scalarCompatible, Con.comparesArguments]
    | _ => cases hd
  | _ => cases hc

/-- A nominal constructor belongs to one name. -/
theorem nominal_inj {other : String} {arity' : Nat} (h : program.nominal name = some (con, arity))
    (h' : program.nominal other = some (con, arity')) : name = other := by
  obtain ⟨id, hid, rfl, -⟩ | ⟨-, id, hid, rfl, -⟩ := Program.nominal_eq_some h
  all_goals
    obtain ⟨id', hid', heq, -⟩ | ⟨-, id', hid', heq, -⟩ := Program.nominal_eq_some h'
    all_goals cases heq
    exact findIdx?_name_inj hid hid'

/-! ## Both readings of a declared name -/

theorem resolveType_owned {generics : List String} {head : TypeHead} :
    resolveType program generics (.mk head arguments .owned) =
      (resolveTypes program generics arguments).bind (resolveHead program generics head) := by
  rw [resolveType]
  cases resolveTypes program generics arguments <;> rfl

theorem resolveHead_free {generics : List String} (h : Free name) (arguments : List Ty) :
    resolveHead program generics (.named name) arguments =
      resolveDeclared program generics name arguments := by
  have hspecial := h.special
  simp only [mem_cons, not_or] at hspecial
  simp [resolveHead, hspecial, h.builtin, h.error]

theorem lowerHead_free (h : Free name) (arguments : List Ty) :
    lowerHead program (.named name) arguments = lowerDeclared program name arguments := by
  have hspecial := h.special
  simp only [mem_cons, not_or] at hspecial
  simp [lowerHead, hspecial, h.builtin, h.error, h.signed, h.unsigned]

theorem lowerDeclared_nominal (h : program.nominal name = some (con, arity)) (arguments : List Ty) :
    lowerDeclared program name arguments = .app con arguments := by
  obtain ⟨id, hid, rfl, -⟩ | ⟨hstruct, id, hid, rfl, -⟩ := Program.nominal_eq_some h
  · simp [lowerDeclared, hid]
  · simp [lowerDeclared, hstruct, hid]

theorem lowerDeclared_undeclared (h : ¬ Declares program name) (arguments : List Ty) :
    lowerDeclared program name arguments = .generic name := by
  obtain ⟨hstructs, henums⟩ := not_or.mp h
  have hstruct : program.structId name = none := findIdx?_name_eq_none.mpr hstructs
  have henum : program.enumId name = none := findIdx?_name_eq_none.mpr henums
  simp [lowerDeclared, hstruct, henum]

theorem exists_nominal (h : Declares program name) :
    ∃ con arity, program.nominal name = some (con, arity) := by
  rw [Program.nominal]
  cases hstruct : program.structId name with
  | some id => exact ⟨_, _, rfl⟩
  | none =>
    cases henum : program.enumId name with
    | some id => exact ⟨_, _, rfl⟩
    | none => exact absurd h (not_or.mpr
        ⟨findIdx?_name_eq_none.mp hstruct, findIdx?_name_eq_none.mp henum⟩)

/-! ## The checker's search among the implementations -/

section Search

variable {implementations : List ImplInfo} {genericTypes : GenericTypes}

theorem Copies.exists_succ (h : Copies implementations genericTypes ty) :
    ∃ fuel, typeIsCopy implementations genericTypes (fuel + 1) [] ty = true := by
  obtain ⟨fuel, h⟩ := h
  cases fuel with
  | zero => simp [typeIsCopy] at h
  | succ fuel => exact ⟨fuel, h⟩

theorem not_copies_generic (name : String) :
    ¬ Copies implementations genericTypes (.generic name) := by
  intro h
  obtain ⟨fuel, h⟩ := h.exists_succ
  simp [typeIsCopy] at h

theorem copies_of_copies (h : copies con = true) (arguments : List Ty) :
    Copies implementations genericTypes (.app con arguments) :=
  ⟨1, typeIsCopy_app.mpr (.inl h)⟩

/-- The search succeeds precisely when a block of the trait applies. -/
theorem copies_nominal_iff (hcon : isNominal con = true) {arguments : List Ty} :
    Copies implementations genericTypes (.app con arguments) ↔
      ∃ block ∈ implementations, block.traitName = "Copy" ∧
        Applies implementations genericTypes [] block (.app con arguments) := by
  have hcopies : copies con = false := by cases con <;> first | rfl | cases hcon
  constructor
  · intro h
    obtain ⟨fuel, h⟩ := h.exists_succ
    rcases typeIsCopy_app.mp h with h | ⟨rfl, -⟩ | ⟨rfl, -⟩ | ⟨-, -, block, hmem, hname, h⟩
    · rw [hcopies] at h
      cases h
    · cases hcon
    · cases hcon
    · exact ⟨block, hmem, hname, Applies.nil ⟨fuel, h⟩⟩
  · rintro ⟨block, hmem, hname, fuel, h⟩
    have hbelow : ∀ {fuel}, implementationApplies implementations genericTypes fuel
        [("Copy", .app con arguments)] block (.app con arguments) = true →
        Copies implementations genericTypes (.app con arguments) := fun {fuel} h =>
      ⟨fuel + 1, typeIsCopy_app.mpr (.inr (.inr (.inr ⟨hcon, not_mem_nil, block, hmem, hname, h⟩)))⟩
    -- the block applies below the open query, or the query succeeds without it
    rcases queries_cut ("Copy", .app con arguments) (.applies block _) h with h | ⟨n, hn⟩
    · exact hbelow h
    · cases n with
      | zero => simp [typeSatisfies] at hn
      | succ n =>
        rcases typeSatisfies_app.mp hn with ⟨-, hn⟩ | ⟨-, other, hother, hname', hn⟩
        · exact ⟨n, hn⟩
        · exact ⟨n + 1, typeIsCopy_app.mpr
            (.inr (.inr (.inr ⟨hcon, not_mem_nil, other, hother, hname', hn⟩)))⟩

theorem copies_option {value : Ty} :
    Copies implementations genericTypes (.app .option [value]) ↔
      Copies implementations genericTypes value := by
  constructor
  · intro h
    obtain ⟨fuel, h⟩ := h.exists_succ
    exact ⟨fuel, by simpa [typeIsCopy] using h⟩
  · rintro ⟨fuel, h⟩
    exact ⟨fuel + 1, by simpa [typeIsCopy] using h⟩

theorem copies_result {ok error : Ty} :
    Copies implementations genericTypes (.app .result [ok, error]) ↔
      Copies implementations genericTypes ok ∧ Copies implementations genericTypes error := by
  constructor
  · intro h
    obtain ⟨fuel, h⟩ := h.exists_succ
    simp only [typeIsCopy, Bool.and_eq_true] at h
    exact ⟨⟨fuel, h.1⟩, fuel, h.2⟩
  · rintro ⟨⟨n, hok⟩, m, herror⟩
    have hok' := queries_mono (.copies _) (le_max_left n m) (List.Subset.refl _) hok
    have herror' := queries_mono (.copies _) (le_max_right n m) (List.Subset.refl _) herror
    exact ⟨max n m + 1, by rw [typeIsCopy, Bool.and_eq_true]; exact ⟨hok', herror'⟩⟩

theorem not_copies (hcopies : copies con = false) (hnom : isNominal con = false)
    (hoption : con ≠ .option) (hres : con ≠ .result) (arguments : List Ty) :
    ¬ Copies implementations genericTypes (.app con arguments) := by
  intro h
  obtain ⟨fuel, h⟩ := h.exists_succ
  rcases typeIsCopy_app.mp h with h | ⟨h, -⟩ | ⟨h, -⟩ | ⟨h, -⟩
  · rw [hcopies] at h
    cases h
  · exact hoption h
  · exact hres h
  · rw [hnom] at h
    cases h

end Search

/-! ## Matching a target of distinct generic names -/

theorem materializeLiteral_written (h : ty.written names = true) : materializeLiteral ty = ty := by
  unfold materializeLiteral
  split
  · cases h
  · cases h
  · cases h
  · rfl

theorem inferAll_generics {arguments : List Ty} (hnodup : names.Nodup)
    (hlen : names.length = arguments.length) (hargs : allWritten scope arguments = true)
    (before : Substitutions) (hbefore : ∀ name ∈ names, before.lookup name = none) :
    ∃ after, inferAll (names.map .generic) arguments before = some after ∧
      List.Forall₂ (fun name argument => after.lookup name = some argument) names arguments ∧
      ∀ name, name ∉ names → after.lookup name = before.lookup name := by
  induction names generalizing arguments before with
  | nil =>
    obtain rfl : arguments = [] := length_eq_zero_iff.mp hlen.symm
    exact ⟨before, by simp [inferAll], .nil, fun _ _ => rfl⟩
  | cons name names ih =>
    obtain ⟨argument, rest, rfl⟩ := exists_cons_of_length_eq_add_one hlen.symm
    simp only [allWritten, Bool.and_eq_true] at hargs
    obtain ⟨hnew, hnodup⟩ := nodup_cons.mp hnodup
    have hrest : ∀ other ∈ names, List.lookup other ((name, argument) :: before) = none := by
      intro other hother
      have hne : other ≠ name := fun heq => hnew (heq ▸ hother)
      rw [lookup_cons_ne hne]
      exact hbefore other (mem_cons_of_mem _ hother)
    obtain ⟨after, hafter, hbound, hkept⟩ :=
      ih hnodup (by simpa using hlen) hargs.2 _ hrest
    refine ⟨after, ?_, .cons ?_ hbound, fun other hother => ?_⟩
    · simp only [map_cons, inferAll, inferSubstitutions,
        hbefore name mem_cons_self, materializeLiteral_written hargs.1,
        bind_some]
      exact hafter
    · rw [hkept name hnew, lookup_cons_self]
    · rw [mem_cons, not_or] at hother
      rw [hkept other hother.2, lookup_cons_ne hother.1]

theorem substituteAll_generics {arguments : List Ty} {inferred : Substitutions}
    (h : List.Forall₂ (fun name argument => inferred.lookup name = some argument) names arguments) :
    substituteAll inferred (names.map .generic) = arguments := by
  induction h with
  | nil => rfl
  | cons hhead _ ih => simp [substituteAll, substitute, hhead, ih]

/-! ## What a validated block covers -/

def declaredConstraints (program : Program) : Con → List (List String)
  | .struct id => ((program.structs[id]?.map (·.generics)).getD []).map (·.constraints)
  | .enum id => ((program.enums[id]?.map (·.generics)).getD []).map (·.constraints)
  | _ => []

theorem find?_of_findIdx?_none (h : declarations.findIdx? (·.name == name) = none) :
    declarations.find? (·.name == name) = none := by
  simpa using h

theorem declaredGenerics_nominal (h : program.nominal name = some (con, arity)) :
    ∃ generics, declaredGenerics program name = some generics ∧ generics.length = arity ∧
      declaredConstraints program con = generics.map (·.constraints) := by
  obtain ⟨id, hid, rfl, rfl⟩ | ⟨hnone, id, hid, rfl, rfl⟩ := Program.nominal_eq_some h
  all_goals obtain ⟨declaration, hget, hfind⟩ := find?_of_findIdx? hid
  · exact ⟨declaration.generics, by simp [declaredGenerics, hfind], by simp [hget],
      by simp [declaredConstraints, hget]⟩
  · exact ⟨declaration.generics,
      by simp [declaredGenerics, find?_of_findIdx?_none hnone, hfind], by simp [hget],
      by simp [declaredConstraints, hget]⟩

theorem declares_of_declaredGenerics (h : declaredGenerics program name = some generics) :
    Declares program name := by
  rw [declaredGenerics, or_eq_some_iff] at h
  rcases h with h | ⟨-, h⟩
  · obtain ⟨declaration, hfind, -⟩ := map_eq_some_iff.mp h
    exact .inl (mem_names hfind)
  · obtain ⟨declaration, hfind, -⟩ := map_eq_some_iff.mp h
    exact .inr (mem_names hfind)

/-- The block has this name with the constraints of the declared parameter. -/
def Mirrors (block : Implementation) (name : String) (declaration : GenericParameter) : Prop :=
  ∃ actual, blockConstraints block name = some actual ∧
    ∀ constraint, constraint ∈ actual ↔ constraint ∈ declaration.constraints

/-- A written argument that is one of the block's generic names. -/
structure GenericArgument (block : Implementation) (argument : TypeName)
    (declaration : GenericParameter) : Prop where
  owned : argument.qualifier = .owned
  bare : argument.arguments = []
  mirrors : Mirrors block argument.head.text declaration

theorem coversArguments_spec {used : List String} (hlen : arguments.length = generics.length)
    (h : coversArguments block used (arguments.zip generics) = true) :
    (arguments.map (·.head.text)).Nodup ∧ (∀ argument ∈ arguments, argument.head.text ∉ used) ∧
      List.Forall₂ (GenericArgument block) arguments generics := by
  induction arguments generalizing used generics with
  | nil =>
    obtain rfl : generics = [] := length_eq_zero_iff.mp hlen.symm
    exact ⟨nodup_nil, fun _ h => (not_mem_nil h).elim, .nil⟩
  | cons argument arguments ih =>
    obtain ⟨declaration, generics, rfl⟩ := exists_cons_of_length_eq_add_one hlen.symm
    simp only [zip_cons_cons, coversArguments, Bool.and_eq_true, beq_iff_eq,
      List.isEmpty_iff, Bool.not_eq_true', contains_eq_mem, decide_eq_false_iff_not,
      Option.any_eq_true] at h
    obtain ⟨⟨⟨⟨howned, hbare⟩, hnew⟩, actual, hact, hsame⟩, hrest⟩ := h
    simp only [List.all_eq_true, decide_eq_true_eq] at hsame
    obtain ⟨hnodup, hunused, hall⟩ := ih (by simpa using hlen) hrest
    refine ⟨nodup_cons.mpr ⟨fun hmem => ?_, hnodup⟩, fun other hother => ?_, .cons ?_ hall⟩
    · obtain ⟨other, hother, htext⟩ := List.mem_map.mp hmem
      exact hunused other hother (mem_cons.mpr (.inl htext))
    · rcases mem_cons.mp hother with rfl | hother
      · exact hnew
      · exact fun hused => hunused other hother (mem_cons_of_mem _ hused)
    · exact ⟨howned, hbare, actual, hact, fun constraint =>
        ⟨hsame.1 constraint, hsame.2 constraint⟩⟩

theorem registerImplementation_spec
    (h : registerImplementation program registered block = .ok info) :
    (∃ traitName, block.traitName = some traitName ∧ info.traitName = traitName.head.text) ∧
      resolveType program (block.generics.map (·.name)) block.target = some info.target ∧
      info.constraints = block.generics.map fun g => (g.name, g.constraints) := by
  simp only [registerImplementation] at h
  repeat' split at h
  all_goals cases h
  rename_i htgt htrait _ _ _ _ _ _ _ _ _ _
  exact ⟨⟨_, htrait, rfl⟩, htgt, rfl⟩

/-- A registered implementation of `Copy`, with the generic names its target applies the
declared type to. -/
structure CopyBlock (program : Program) (block : Implementation) (info : ImplInfo) (con : Con)
    (names : List String) : Prop where
  copyTrait : info.traitName = "Copy"
  nominal : ∃ arity, program.nominal block.target.head.text = some (con, arity)
  target : info.target = .app con (names.map .generic)
  constraints : info.constraints = block.generics.map fun g => (g.name, g.constraints)
  distinct : names.Nodup
  complete : block.generics.length = names.length
  mirrors : ∃ generics, declaredConstraints program con = generics.map (·.constraints) ∧
    List.Forall₂ (Mirrors block) names generics

theorem mem_of_blockConstraints {actual : List String}
    (h : blockConstraints block name = some actual) :
    ∃ generic ∈ block.generics, generic.name = name ∧ generic.constraints = actual := by
  obtain ⟨generic, hfind, hconstrs⟩ := map_eq_some_iff.mp h
  have hname := List.find?_some hfind
  exact ⟨generic, by simpa using List.mem_of_find?_eq_some hfind, by simpa using hname,
    hconstrs⟩

/-- The arguments of a covering target are read as the generic names they are. -/
theorem resolveTypes_generics (hgens : ∀ generic ∈ block.generics, Free generic.name)
    (h : List.Forall₂ (GenericArgument block) arguments generics) :
    resolveTypes program (block.generics.map (·.name)) arguments =
      some ((arguments.map (·.head.text)).map .generic) := by
  induction h with
  | nil => rfl
  | @cons argument declaration arguments generics harg hrest ih =>
    obtain ⟨howned, hbare, actual, hact, -⟩ := harg
    obtain ⟨generic, hmem, hname, -⟩ := mem_of_blockConstraints hact
    have hfree : Free argument.head.text := hname ▸ hgens generic hmem
    obtain ⟨head, inner, qualifier⟩ := argument
    cases howned
    cases hbare
    cases head with
    | array length => exact absurd rfl (hfree.array length)
    | named text =>
      have htext : Free text := hfree
      have hin : text ∈ block.generics.map (·.name) :=
        List.mem_map.mpr ⟨generic, hmem, hname⟩
      have hhead : resolveType program (block.generics.map (·.name))
          (.mk (.named text) [] .owned) = some (.generic text) := by
        rw [resolveType_owned]
        simp [resolveTypes, resolveHead_free htext, resolveDeclared, hin]
      simp only [resolveTypes, hhead, ih]
      rfl

theorem resolveType_declared (hfree : Free name) (hscope : name ∉ scope)
    (hnom : program.nominal name = some (con, arity))
    (h : resolveType program scope (.mk (.named name) arguments .owned) = some ty) :
    ∃ resolved, resolveTypes program scope arguments = some resolved ∧
      resolved.length = arity ∧ ty = .app con resolved := by
  rw [resolveType_owned] at h
  obtain ⟨resolved, hresolved, h⟩ := bind_eq_some_iff.mp h
  rw [resolveHead_free hfree, resolveDeclared, if_neg (fun h => hscope h.2), hnom] at h
  obtain ⟨hlen, hty⟩ := ite_none_right_eq_some.mp h
  exact ⟨resolved, hresolved, hlen, (Option.some.inj hty).symm⟩

theorem CopyBlock.of_registered (hread : ReadBlock program block)
    (hcopy : implementsCopy block = true)
    (hcovers : coversDeclaration program block = true)
    (hinfo : registerImplementation program registered block = .ok info) :
    ∃ con names, CopyBlock program block info con names := by
  obtain ⟨⟨traitName, htrait, hname⟩, htgt, hconstrs⟩ := registerImplementation_spec hinfo
  have hcopyTrait : info.traitName = "Copy" := by
    simpa [implementsCopy, htrait, hname] using hcopy
  have howned := hread.owned
  have hfree := hread.declared
  cases htgt' : block.target with
  | mk head arguments qualifier =>
    rw [htgt'] at htgt howned hfree
    cases howned
    cases hgens : declaredGenerics program head.text with
    | none => simp [coversDeclaration, htgt', TypeName.head, hgens] at hcovers
    | some generics =>
      simp only [coversDeclaration, htgt', TypeName.head, TypeName.arguments, hgens,
        Bool.and_eq_true, beq_iff_eq] at hcovers
      obtain ⟨⟨hlen, hdone⟩, hcovers⟩ := hcovers
      obtain ⟨hdist, -, hall⟩ := coversArguments_spec hlen hcovers
      have hdeclares := declares_of_declaredGenerics hgens
      replace hfree := hfree hdeclares
      obtain ⟨con, arity, hnom⟩ := exists_nominal hdeclares
      obtain ⟨_, hsame, -, hdecl⟩ := declaredGenerics_nominal hnom
      obtain rfl : generics = _ := Option.some.inj (hgens.symm.trans hsame)
      cases head with
      | array length => exact absurd rfl (hfree.array length)
      | named name =>
        have hscope : name ∉ block.generics.map (·.name) := by
          intro hin
          obtain ⟨generic, hgen, rfl⟩ := List.mem_map.mp hin
          exact (hread.generics generic hgen).2 hdeclares
        obtain ⟨resolved, hresolved, -, hty⟩ :=
          resolveType_declared hfree hscope hnom htgt
        rw [resolveTypes_generics (fun generic hgen =>
          (hread.generics generic hgen).1) hall] at hresolved
        cases hresolved
        refine ⟨con, arguments.map (·.head.text), hcopyTrait, ⟨arity, ?_⟩, hty,
          hconstrs, hdist, by simp [hdone, hlen], generics, hdecl, ?_⟩
        · rw [htgt']
          exact hnom
        · rw [forall₂_map_left_iff]
          exact hall.imp fun _ _ h => h.mirrors

/-! ## Permitted instantiations -/

/-- `require_constraints` at a declared type: each argument satisfies the constraints of its
parameter. -/
def RequireConstraints (program : Program) (infos : List ImplInfo) (genericTypes : GenericTypes)
    (con : Con) (arguments : List Ty) : Prop :=
  ∀ entry ∈ (declaredConstraints program con).zip arguments, ∀ requirement ∈ entry.1,
    Satisfied infos genericTypes entry.2 requirement

section Permitted

variable {program : Program} {infos : List ImplInfo} {genericTypes : GenericTypes}
  {block : Implementation}

theorem satisfied_of_mirrors (hmirrors : List.Forall₂ (Mirrors block) names generics)
    {arguments : List Ty} (hlen : names.length = arguments.length)
    (hrequire : ∀ entry ∈ (generics.map (·.constraints)).zip arguments,
      ∀ requirement ∈ entry.1, Satisfied infos genericTypes entry.2 requirement) :
    List.Forall₂ (fun name argument => ∀ actual, blockConstraints block name = some actual →
      ∀ constraint ∈ actual, Satisfied infos genericTypes argument constraint) names arguments := by
  induction hmirrors generalizing arguments with
  | nil =>
    obtain rfl : arguments = [] := length_eq_zero_iff.mp hlen.symm
    exact .nil
  | @cons name declaration names generics hhead hrest ih =>
    obtain ⟨argument, arguments, rfl⟩ := exists_cons_of_length_eq_add_one hlen.symm
    simp only [map_cons, zip_cons_cons, forall_mem_cons] at hrequire
    refine .cons (fun actual hact constraint hconstr => ?_) (ih (by simpa using hlen) hrequire.2)
    obtain ⟨_, hfound, hsame⟩ := hhead
    obtain rfl := Option.some.inj (hact.symm.trans hfound)
    exact hrequire.1 constraint ((hsame constraint).mp hconstr)

theorem blockConstraints_of_nodup (h : (block.generics.map (·.name)).Nodup)
    {generic : GenericParameter} (hmem : generic ∈ block.generics) :
    blockConstraints block generic.name = some generic.constraints := by
  obtain ⟨found, hfound⟩ : ∃ found,
      block.generics.reverse.find? (·.name == generic.name) = some found := by
    rw [← isSome_iff_exists, List.find?_isSome]
    exact ⟨generic, by simpa using hmem, by simp⟩
  have hname : found.name = generic.name := by simpa using List.find?_some hfound
  have hin : found ∈ block.generics := by simpa using List.mem_of_find?_eq_some hfound
  obtain rfl := inj_on_of_nodup_map h hin hmem hname
  simp [blockConstraints, hfound]

theorem CopyBlock.perm (h : CopyBlock program block info con names) :
    names.Perm (block.generics.map (·.name)) := by
  obtain ⟨generics, -, hmirrors⟩ := h.mirrors
  have hsub : names ⊆ block.generics.map (·.name) := by
    intro name hname
    obtain ⟨i, hi, rfl⟩ := getElem_of_mem hname
    obtain ⟨_, -, ⟨actual, hact, -⟩, -⟩ :=
      exists_getElem?_right hmirrors (List.getElem?_eq_getElem hi)
    obtain ⟨generic, hgen, hgname, -⟩ := mem_of_blockConstraints hact
    exact List.mem_map.mpr ⟨generic, hgen, hgname⟩
  exact (List.Nodup.subperm h.distinct hsub).perm_of_length_le (by simp [h.complete])

/-- The block applies to every permitted instantiation. -/
theorem CopyBlock.applies (h : CopyBlock program block info con names) {arguments : List Ty}
    (hargs : allWritten scope arguments = true) (hlen : names.length = arguments.length)
    (hrequire : RequireConstraints program infos genericTypes con arguments) :
    Applies infos genericTypes [] info (.app con arguments) := by
  obtain ⟨generics, hdecl, hmirrors⟩ := h.mirrors
  obtain ⟨arity, hnom⟩ := h.nominal
  have hcon := nominal_isNominal hnom
  obtain ⟨inferred, hinfer, hbound, -⟩ :=
    inferAll_generics h.distinct hlen hargs [] fun _ _ => rfl
  have hsat := satisfied_of_mirrors hmirrors hlen (by rw [← hdecl]; exact hrequire)
  have hnodup : (block.generics.map (·.name)).Nodup := h.perm.nodup_iff.mp h.distinct
  -- every generic name of the block is inferred, and its argument satisfies its constraints
  have hgens : ∀ generic ∈ block.generics, ∃ n, ∃ argument,
      inferred.lookup generic.name = some argument ∧ ∀ constraint ∈ generic.constraints,
        typeSatisfies infos genericTypes n [] argument constraint = true := by
    intro generic hgen
    have hname : generic.name ∈ names :=
      h.perm.mem_iff.mpr (List.mem_map.mpr ⟨generic, hgen, rfl⟩)
    obtain ⟨i, hi, hgname⟩ := getElem_of_mem hname
    have hget := hgname ▸ List.getElem?_eq_getElem hi
    obtain ⟨argument, harg, hlook, -⟩ := exists_getElem?_right hbound hget
    obtain ⟨other, hother, hall, -⟩ := exists_getElem?_right hsat hget
    obtain rfl := Option.some.inj (harg.symm.trans hother)
    obtain ⟨n, hn⟩ := exists_fuel generic.constraints
      (fun constraint n => typeSatisfies infos genericTypes n [] argument constraint = true)
      (fun _ n m hle h => queries_mono (.satisfies _ _) hle (List.Subset.refl _) h)
      (hall _ (blockConstraints_of_nodup hnodup hgen))
    exact ⟨n, argument, hlook, hn⟩
  obtain ⟨fuel, hfuel⟩ := exists_fuel block.generics _ (fun generic n m hle hquery => by
      obtain ⟨argument, hlook, hall⟩ := hquery
      exact ⟨argument, hlook, fun constraint hconstr =>
        queries_mono (.satisfies _ _) hle (List.Subset.refl _) (hall constraint hconstr)⟩) hgens
  refine ⟨fuel + 1, implementationApplies_succ.mpr ⟨inferred, ?_, ?_, ?_⟩⟩
  · rw [h.target, inferSubstitutions]
    have hinfers := Con.infersArguments_compared (compared_of_isNominal hcon)
    simpa [hinfers, hlen] using hinfer
  · rw [h.target, substitute, substituteAll_generics hbound]
    exact compatible_refl _
  · intro name constraints hmem
    rw [h.constraints] at hmem
    obtain ⟨generic, hgen, heq⟩ := List.mem_map.mp hmem
    cases heq
    exact hfuel generic hgen

end Permitted

/-! ## The two tables of names -/

section Tables

variable {program : Program} {infos : List ImplInfo} {genericTypes : GenericTypes}

theorem Implemented.covers (h : Implemented program infos) (hmem : block ∈ program.implementations)
    (hcopy : implementsCopy block = true) : coversDeclaration program block = true := by
  have hvalid := h.validated
  simp only [validateCopyImplementations, List.all_eq_true, mem_filter] at hvalid
  exact hvalid block ⟨hmem, hcopy⟩

/-- Every `Copy` implementation of the program has its registered block. -/
theorem Implemented.exists_info (h : Implemented program infos)
    (hmem : block ∈ program.implementations) (hcopy : implementsCopy block = true) :
    ∃ info ∈ infos, ∃ con names, CopyBlock program block info con names := by
  obtain ⟨added, rfl, hall⟩ := registerAll_append h.registered
  obtain ⟨i, hi, hblock⟩ := getElem_of_mem hmem
  obtain ⟨info, hinfo, ⟨before, hok⟩, -⟩ :=
    exists_getElem?_right hall (hblock ▸ List.getElem?_eq_getElem hi)
  exact ⟨info, by simpa using mem_of_getElem? hinfo,
    CopyBlock.of_registered (h.alike.blocks block hmem hcopy) hcopy (h.covers hmem hcopy) hok⟩

/-- Every registered block of `Copy` is one of the program's. -/
theorem Implemented.exists_block (h : Implemented program infos) (hmem : info ∈ infos)
    (hname : info.traitName = "Copy") :
    ∃ block ∈ program.implementations, implementsCopy block = true ∧
      ∃ con names, CopyBlock program block info con names := by
  obtain ⟨added, rfl, hall⟩ := registerAll_append h.registered
  obtain ⟨block, hblock, before, hok⟩ := exists_of_mem_right hall (by simpa using hmem)
  obtain ⟨⟨traitName, htrait, hname'⟩, -⟩ := registerImplementation_spec hok
  have hcopy : implementsCopy block = true := by
    simp [implementsCopy, htrait, ← hname', hname]
  exact ⟨block, hblock, hcopy,
    CopyBlock.of_registered (h.alike.blocks block hblock hcopy) hcopy (h.covers hblock hcopy) hok⟩

theorem mem_copyTypes :
    name ∈ copyTypes program ↔ ∃ block ∈ program.implementations,
      implementsCopy block = true ∧ block.target.head.text = name := by
  simp [copyTypes, and_assoc]

/-- The checker copies a permitted instantiation of a declared type precisely when the type
has an implementation of `Copy`. -/
theorem Implemented.copies_declared_iff (h : Implemented program infos)
    (hnom : program.nominal name = some (con, arity)) {arguments : List Ty}
    (hargs : allWritten scope arguments = true) (hlen : arguments.length = arity)
    (hrequire : RequireConstraints program infos genericTypes con arguments) :
    Copies infos genericTypes (.app con arguments) ↔ name ∈ copyTypes program := by
  have hcon := nominal_isNominal hnom
  rw [copies_nominal_iff hcon, mem_copyTypes]
  constructor
  · rintro ⟨info, hmem, hname, fuel, happlies⟩
    obtain ⟨block, hblock, hcopy, con', names, hcopyBlock⟩ := h.exists_block hmem hname
    obtain ⟨arity', hnom'⟩ := hcopyBlock.nominal
    cases fuel with
    | zero => simp [implementationApplies] at happlies
    | succ fuel =>
      obtain ⟨inferred, -, hcompat, -⟩ := implementationApplies_succ.mp happlies
      rw [hcopyBlock.target] at hcompat
      obtain rfl := eq_of_compatible (nominal_isNominal hnom') hcon hcompat
      exact ⟨block, hblock, hcopy, nominal_inj hnom' hnom⟩
  · rintro ⟨block, hblock, hcopy, rfl⟩
    obtain ⟨info, hmem, con', names, hcopyBlock⟩ := h.exists_info hblock hcopy
    obtain ⟨arity', hnom'⟩ := hcopyBlock.nominal
    obtain ⟨rfl, rfl⟩ := Prod.mk.inj (Option.some.inj (hnom.symm.trans hnom'))
    obtain ⟨generics, -, harity, hdecl⟩ := declaredGenerics_nominal hnom
    obtain ⟨others, hothers, hmirrors⟩ := hcopyBlock.mirrors
    have hnames : names.length = arguments.length := by
      have hsame : generics.length = others.length := by
        simpa using congrArg List.length (hdecl.symm.trans hothers)
      rw [hmirrors.length_eq, ← hsame, harity, hlen]
    exact ⟨info, hmem, hcopyBlock.copyTrait, hcopyBlock.applies hargs hnames hrequire⟩

theorem lowerType_owned {head : TypeHead} :
    lowerType program (.mk head arguments .owned) =
      lowerHead program head (lowerTypes program arguments) := by
  rw [lowerType]

/-- A declared target is lowered to its type. -/
theorem ReadBlock.lowerType_target (h : ReadBlock program block)
    (hnom : program.nominal block.target.head.text = some (con, arity)) :
    ∃ arguments, lowerType program block.target = .app con arguments := by
  have howned := h.owned
  have hfree := h.declared (declares_of_nominal hnom)
  generalize block.target = target at howned hfree hnom ⊢
  obtain ⟨head, arguments, qualifier⟩ := target
  cases howned
  cases head with
  | array length => exact absurd rfl (hfree.array length)
  | named name =>
    simp only [TypeName.head, TypeHead.text] at hfree hnom
    rw [lowerType_owned, lowerHead_free hfree, lowerDeclared_nominal hnom]
    exact ⟨_, rfl⟩

/-- The representation's table has the declared types with an implementation of `Copy`. -/
theorem Implemented.mem_hirCopyTypes (h : Implemented program infos)
    (hnom : program.nominal name = some (con, arity)) :
    con ∈ hirCopyTypes program ↔ name ∈ copyTypes program := by
  have htrait : program.traits.any (·.name == "Copy") = false := by
    simpa using h.alike.builtinTrait
  rw [mem_copyTypes, hirCopyTypes, if_neg (by simp [htrait])]
  simp only [mem_filterMap, mem_filter]
  constructor
  · rintro ⟨block, ⟨hmem, hcopy⟩, hlowered⟩
    obtain ⟨_, -, con', _, hcopyBlock⟩ := h.exists_info hmem hcopy
    obtain ⟨arity', hnom'⟩ := hcopyBlock.nominal
    obtain ⟨arguments, hty⟩ := (h.alike.blocks block hmem hcopy).lowerType_target hnom'
    obtain rfl : con' = con := by
      rw [hty] at hlowered
      cases con' with
      | struct id | enum id => exact Option.some.inj hlowered
      | _ => cases hlowered
    exact ⟨block, hmem, hcopy, nominal_inj hnom' hnom⟩
  · rintro ⟨block, hmem, hcopy, rfl⟩
    obtain ⟨arguments, hty⟩ := (h.alike.blocks block hmem hcopy).lowerType_target hnom
    refine ⟨block, ⟨hmem, hcopy⟩, ?_⟩
    have hcon := nominal_isNominal hnom
    rw [hty]
    cases con with
    | struct id | enum id => rfl
    | _ => cases hcon

end Tables

end Disp.Copying
