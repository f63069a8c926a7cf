import Disp.Copying.Implementations

/-!
# One notion of Copy

The three stages answer alike at every written type of an accepted program precisely when
no type of the program is one of those they are written differently for: mutable references,
slices and strings that are not behind a reference, C functions, arrays of Copy values,
generic names with the constraint, Copy types applied to types that are not Copy, and `Self`
in a block for a Copy type without an implementation.
-/

namespace Disp.Copying

open Disp.TypeChecker Disp.Dispatch Disp.Library.IndexedSearch List Option

variable {program : Program} {infos : List ImplInfo} {name : String}

/-! ## The notion the stages share -/

/-- The arms of `type_is_copy_inner`. -/
def checkerRule (con : Con) : CopyRule :=
  if copies con then .always
  else
    match con with
    | .option | .result => .parts
    | .struct _ | .enum _ => .declared
    | _ => .never

mutual

/-- A written type whose values are copied. -/
def copyable (program : Program) : TypeName → Bool
  | .mk head arguments qualifier =>
    match qualifier with
    | .sharedReference | .rawConstPointer | .rawMutPointer => true
    | .mutableReference => false
    | .owned =>
      match head with
      | .array _ => false
      | .named name =>
        match (builtinTypes.lookup name).map fun entry => checkerRule entry.1 with
        | some .always => true
        | some .parts => allCopyable program arguments
        | some _ => false
        | none => (copyTypes program).contains name && allCopyable program arguments

def allCopyable (program : Program) : List TypeName → Bool
  | [] => true
  | x :: xs => copyable program x && allCopyable program xs

end

/-- A written type on which the stages cannot differ, if they do not differ on its parts. -/
def Regular (program : Program) (scope : Scope) : TypeName → Prop
  | .mk head arguments qualifier =>
    match qualifier with
    | .sharedReference | .rawConstPointer | .rawMutPointer => True
    | .mutableReference => False
    | .owned =>
      match head with
      | .array _ => allCopyable program arguments = false
      | .named name =>
        name ∉ ["CFunction", "str", "[]"] ∧ name ∉ scope.genericCopy ∧
          (name ∈ copyTypes program → allCopyable program arguments = true) ∧
          (name = "Self" → ∀ block, scope.block = some block →
            copyable program block.target = true →
              block.target.head.text ∈ copyTypes program)

/-! ## The types of a program -/

/-- A written type with the generic names in force at it. -/
structure Occurrence where
  scope : Scope
  ty : TypeName

/-- The arguments of a type, and for `Self` the target of the block. -/
inductive Part : Occurrence → Occurrence → Prop
  | argument {scope : Scope} {head : TypeHead} {arguments : List TypeName}
      {qualifier : TypeQualifier} {argument : TypeName} (h : argument ∈ arguments) :
      Part ⟨scope, .mk head arguments qualifier⟩ ⟨scope, argument⟩
  | target {scope : Scope} {block : Implementation} {qualifier : TypeQualifier}
      (h : scope.block = some block) :
      Part ⟨scope, .mk (.named "Self") [] qualifier⟩ ⟨scope, block.target⟩

/-- The generic names in force. -/
abbrev Scope.names (scope : Scope) : List String := scope.genericTypes.map (·.1)

/-- A name that is told apart from the others where it occurs. -/
structure Placed (program : Program) (scope : Scope) (name : String) : Prop where
  declared : Declares program name → Free name
  generics : name ∈ scope.names → Free name ∧ ¬ Declares program name

/-- The types of a program that the checkers accept: each is resolved and has arguments that
satisfy the constraints of its parameters. A name that occurs in one of them is a generic, a
declared or a built-in one, and not two of these. -/
structure Accepted (program : Program) (infos : List ImplInfo) (types : Occurrence → Prop) :
    Prop where
  implemented : Implemented program infos
  closed : ∀ {occurrence part}, types occurrence → Part occurrence part → types part
  resolved : ∀ {occurrence}, types occurrence →
    ∃ ty, checkedType program occurrence.scope occurrence.ty = some ty
  permitted : ∀ {occurrence con arguments}, types occurrence →
    resolveType program (occurrence.scope.genericTypes.map (·.1)) occurrence.ty =
      some (.app con arguments) →
    RequireConstraints program infos occurrence.scope.genericTypes con arguments
  placed : ∀ {occurrence}, types occurrence →
    Placed program occurrence.scope occurrence.ty.head.text

/-- The three stages give one answer. -/
def Alike (program : Program) (infos : List ImplInfo) (occurrence : Occurrence) : Prop :=
  ∃ ty, checkedType program occurrence.scope occurrence.ty = some ty ∧
    (Copies infos occurrence.scope.genericTypes ty ↔
      ownerCopies program occurrence.scope occurrence.ty = true) ∧
    ownerCopies program occurrence.scope occurrence.ty =
      hirCopies program occurrence.scope occurrence.ty

/-! ## The tables of the stages -/

theorem builtin_rules : ∀ entry ∈ builtinTypes, entry.1 ∉ ["str", "[]"] →
    hirRule entry.2.1 = checkerRule entry.2.1 ∧ checkerRule entry.2.1 ≠ .declared ∧
      (ownerTypes.lookup entry.1 = none → checkerRule entry.2.1 = .never) ∧
      ∀ found ∈ ownerTypes.lookup entry.1, ownerRule found.1 = checkerRule entry.2.1 ∧
        (found.2 = 0 ∧ checkerRule entry.2.1 ≠ .parts ∨ found.2 = entry.2.2) := by
  decide +kernel

theorem unsized_rules : ∀ entry ∈ builtinTypes, entry.1 ∈ ["str", "[]"] →
    checkerRule entry.2.1 = .never ∧ ownerTypes.lookup entry.1 ≠ none ∧
      ∀ found ∈ ownerTypes.lookup entry.1, ownerRule found.1 = .always ∧
        (found.2 = 0 ∨ found.2 = entry.2.2) := by
  decide +kernel

theorem builtin_pointers : ∀ entry ∈ builtinTypes, entry.1 ∈ ["MemoryPtr", "MemoryMutPtr"] →
    entry.2.2 = 1 := by
  decide +kernel

theorem builtin_special : ∀ entry ∈ builtinTypes,
    entry.1 ∉ ["fn", "CFunction", "unit", "float", "Self"] := by
  decide +kernel

theorem owner_builtin : ∀ entry ∈ ownerTypes, (builtinTypes.lookup entry.1).isSome := by
  decide +kernel

theorem error_owner : ∀ entry ∈ errorTypes,
    ownerTypes.lookup entry.1 = none ∧ builtinTypes.lookup entry.1 = none ∧
      entry.1 ∉ ["fn", "CFunction", "unit", "float", "Self"] ∧ checkerRule entry.2 = .never := by
  decide +kernel

/-! ## The answers by the rules -/

section Rules

variable {program : Program} {infos : List ImplInfo} {genericTypes : GenericTypes} {con : Con}
  {arguments : List Ty}

theorem copies_always (h : checkerRule con = .always) (arguments : List Ty) :
    Copies infos genericTypes (.app con arguments) := by
  refine copies_of_copies ?_ arguments
  by_contra hcopies
  unfold checkerRule at h
  rw [if_neg hcopies] at h
  split at h <;> cases h

theorem not_copies_never (h : checkerRule con = .never) (arguments : List Ty) :
    ¬ Copies infos genericTypes (.app con arguments) := by
  by_cases hcopies : copies con = true
  · unfold checkerRule at h
    rw [if_pos hcopies] at h
    cases h
  rw [Bool.not_eq_true] at hcopies
  refine not_copies hcopies ?_ ?_ ?_ arguments
  · cases con with
    | struct id | enum id => cases h
    | _ => rfl
  · rintro rfl
    cases h
  · rintro rfl
    cases h

theorem copies_parts (h : checkerRule con = .parts) (htakes : con.takes arguments.length = true) :
    Copies infos genericTypes (.app con arguments) ↔
      ∀ argument ∈ arguments, Copies infos genericTypes argument := by
  have hcon : con = .option ∨ con = .result := by
    unfold checkerRule at h
    split_ifs at h
    split at h
    · exact .inl rfl
    · exact .inr rfl
    all_goals cases h
  rcases hcon with rfl | rfl
  · obtain ⟨value, rfl⟩ := length_eq_one_iff.mp (by simpa [Con.takes] using htakes)
    simp [copies_option]
  · obtain ⟨ok, error, rfl⟩ := length_eq_two.mp (by simpa [Con.takes] using htakes)
    simp [copies_result]

theorem isCopy_app (h : hirRule con ≠ .declared) :
    isCopy program (.app con arguments) =
      (hirRule con == .always || hirRule con == .parts && allIsCopy program arguments) := by
  rw [isCopy]
  cases hrule : hirRule con <;> simp_all

theorem tyIsCopy_app {scope : Scope} {con : OwnerCon} {arguments : List OwnerTy}
    (h : ownerRule con ≠ .declared) :
    tyIsCopy program scope (.app con arguments) =
      (ownerRule con == .always ||
        ownerRule con == .parts && allTyIsCopy program scope arguments) := by
  unfold tyIsCopy
  cases hrule : ownerRule con <;> simp_all

end Rules

theorem Implemented.declares_copyTypes (h : Implemented program infos)
    (hname : name ∈ copyTypes program) : Declares program name := by
  obtain ⟨block, hmem, hcopy, rfl⟩ := mem_copyTypes.mp hname
  obtain ⟨_, -, con, names, hblock⟩ := h.exists_info hmem hcopy
  obtain ⟨arity, hnom⟩ := hblock.nominal
  exact declares_of_nominal hnom

/-- A name outside the ownership checker's table is Copy by its constraint or by its
implementation. -/
theorem tyIsCopy_ownerDeclared (h : Implemented program infos) {scope : Scope}
    (hself : name ≠ "Self") (arguments : List OwnerTy) :
    tyIsCopy program scope (ownerDeclared program scope name arguments) =
      (scope.genericCopy.contains name ||
        (copyTypes program).contains name && allTyIsCopy program scope arguments) := by
  have hnamed : ownerDeclared program scope name arguments =
      ownerNamed program scope name arguments := by
    rw [ownerDeclared]
    cases scope.block <;> simp [hself]
  rw [hnamed, ownerNamed]
  by_cases hgen : name ∈ scope.genericCopy
  · simp [hgen, tyIsCopy, ownerRule]
  by_cases hdeclares : Declares program name
  · have hcond : name ∈ program.structs.map (·.name) ∨
        name ∈ program.enums.map (·.name) := hdeclares
    rw [if_pos hcond]
    simp [tyIsCopy, ownerRule, hgen]
  · have hcopy : name ∉ copyTypes program := fun hname =>
      hdeclares (h.declares_copyTypes hname)
    split_ifs <;> simp [tyIsCopy, ownerRule, hgen, hcopy]

/-! ## The answers at one type -/

/-- The checker's, the ownership checker's and the representation's answer at a type other
than `Self`. -/
def Answers (program : Program) (infos : List ImplInfo) (scope : Scope) (name : TypeName)
    (checker owner hir : Bool) : Prop :=
  ∃ ty, resolveType program (scope.genericTypes.map (·.1)) name = some ty ∧
    (Copies infos scope.genericTypes ty ↔ checker = true) ∧
    ownerCopies program scope name = owner ∧ isCopy program (lowerType program name) = hir

/-- The stages share the answer at a type. -/
abbrev Shared (program : Program) (infos : List ImplInfo) (scope : Scope) (name : TypeName) :
    Prop :=
  Answers program infos scope name (copyable program name) (copyable program name)
    (copyable program name)

/-- The answers at the arguments of a type, taken together. -/
structure AnswersAll (program : Program) (infos : List ImplInfo) (scope : Scope)
    (names : List TypeName) (tys : List Ty) : Prop where
  checker : (∀ ty ∈ tys, Copies infos scope.genericTypes ty) ↔ allCopyable program names = true
  owner : allTyIsCopy program scope (tyFromNames program scope names) = allCopyable program names
  hir : allIsCopy program (lowerTypes program names) = allCopyable program names

section Answers

variable {program : Program} {infos : List ImplInfo} {scope : Scope} {names : List TypeName}
  {tys : List Ty} {generics : List String}

theorem AnswersAll.of_arguments
    (h : ∀ name ∈ names, Shared program infos scope name)
    (hresolved : resolveTypes program scope.names names = some tys) :
    AnswersAll program infos scope names tys := by
  induction names generalizing tys with
  | nil =>
    cases hresolved
    exact ⟨by simp [allCopyable], rfl, rfl⟩
  | cons name names ih =>
    obtain ⟨ty, hty, hchecker, howner, hhir⟩ := h name mem_cons_self
    rw [resolveTypes, hty] at hresolved
    cases hrest : resolveTypes program scope.names names with
    | none => simp [hrest] at hresolved
    | some rest =>
      rw [hrest] at hresolved
      cases hresolved
      have hall := ih (fun other hother => h other (mem_cons_of_mem _ hother)) hrest
      refine ⟨?_, ?_, ?_⟩
      · rw [forall_mem_cons, hall.checker, hchecker, allCopyable, Bool.and_eq_true]
      · rw [tyFromNames, allTyIsCopy, hall.owner, allCopyable, ← howner, ownerCopies]
      · rw [lowerTypes, allIsCopy, hall.hir, allCopyable, hhir]

theorem length_resolveTypes (h : resolveTypes program generics names = some tys) :
    tys.length = names.length := by
  induction names generalizing tys with
  | nil =>
    cases h
    rfl
  | cons name names ih =>
    rw [resolveTypes] at h
    split at h
    · rename_i ty rest hty hrest
      cases h
      simp [ih hrest]
    · cases h

theorem length_lowerTypes (names : List TypeName) :
    (lowerTypes program names).length = names.length := by
  induction names with
  | nil => rfl
  | cons name names ih => simp [lowerTypes, ih]

theorem length_tyFromNames (names : List TypeName) :
    (tyFromNames program scope names).length = names.length := by
  induction names with
  | nil => rfl
  | cons name names ih => simp [tyFromNames, ih]

theorem takeArguments_length (tys : List Ty) : takeArguments tys.length tys = tys := by
  apply ext_getElem?
  intro i
  by_cases hi : i < tys.length <;> simp [takeArguments, hi]

end Answers

/-! ## One name at a time -/

section Named

variable {program : Program} {infos : List ImplInfo} {scope : Scope} {head : TypeHead} {con : Con}
  {qualifier : TypeQualifier} {ty : Ty} {arguments : List TypeName} {tys : List Ty} {name : String}

theorem Scope.mem_genericTypes (h : name ∈ scope.genericCopy) : name ∈ scope.names := by
  obtain ⟨generic, hmem, rfl⟩ := List.mem_map.mp h
  exact List.mem_map.mpr ⟨_, List.mem_map.mpr
    ⟨generic, mem_append_left _ (mem_filter.mp hmem).1, rfl⟩, rfl⟩

theorem not_free_of_builtin {entry : Con × Nat} (h : builtinTypes.lookup name = some entry) :
    ¬ Free name := by
  intro hfree
  rw [hfree.builtin] at h
  cases h

theorem Free.owner (h : Free name) : ownerTypes.lookup name = none := by
  cases hfound : ownerTypes.lookup name with
  | none => rfl
  | some found =>
    have hbuiltin := owner_builtin _ (mem_of_lookup hfound)
    rw [h.builtin] at hbuiltin
    cases hbuiltin

theorem ownerCopies_owned :
    ownerCopies program scope (.mk head arguments .owned) =
      tyIsCopy program scope
        (ownerHead program scope head (tyFromNames program scope arguments)) := by
  rw [ownerCopies, tyFromName]

/-- The answers at a type, which are one answer precisely when the type is regular. -/
def Settled (program : Program) (infos : List ImplInfo) (scope : Scope) (name : TypeName) :
    Prop :=
  ∃ checker owner hir, Answers program infos scope name checker owner hir ∧
    (Regular program scope name → checker = copyable program name ∧
      owner = copyable program name ∧ hir = copyable program name) ∧
    (checker = owner → owner = hir → Regular program scope name)

theorem not_special_of_builtin (h : builtinTypes.lookup name = none) (hname : name ≠ "CFunction") :
    name ∉ ["CFunction", "str", "[]"] := by
  intro hmem
  simp only [mem_cons, not_mem_nil, or_false] at hmem
  rcases hmem with rfl | rfl | rfl
  · exact hname rfl
  all_goals cases h

theorem Free.regular (h : Free name) :
    Regular program scope (.owned name arguments) ↔
      name ∉ scope.genericCopy ∧
        (name ∈ copyTypes program → allCopyable program arguments = true) := by
  have hself : name ≠ "Self" := fun heq => h.special (by simp [heq])
  have hknown := not_special_of_builtin h.builtin fun heq => h.special (by simp [heq])
  simp [Regular, hself, hknown]

theorem Free.copyable {name : String} (h : Free name) :
    copyable program (.owned name arguments) =
      ((copyTypes program).contains name && allCopyable program arguments) := by
  simp [Copying.copyable, h.builtin]

theorem ownerCopies_listed {con : OwnerCon} {arity : Nat} (hfn : name ≠ "fn")
    (hfound : ownerTypes.lookup name = some (con, arity)) (hrule : ownerRule con ≠ .declared)
    (harity : arity = 0 ∧ ownerRule con ≠ .parts ∨ arity = arguments.length) :
    ownerCopies program scope (.owned name arguments) =
      (ownerRule con == .always || ownerRule con == .parts &&
        allTyIsCopy program scope (tyFromNames program scope arguments)) := by
  have hlen : (tyFromNames program scope arguments).length = arguments.length :=
    length_tyFromNames arguments
  rw [ownerCopies_owned, ownerHead, if_neg hfn, hfound]
  by_cases hzero : arity = 0
  · have hempty : ownerRule con = .parts → allTyIsCopy program scope [] =
        allTyIsCopy program scope (tyFromNames program scope arguments) := by
      intro hparts
      have hnone := (harity.resolve_left fun h => h.2 hparts).symm.trans hzero
      rw [length_eq_zero_iff.mp (hlen.trans hnone)]
    simp only [hzero, if_true]
    rw [tyIsCopy_app hrule]
    cases hparts : ownerRule con with
    | parts => simp [hempty hparts]
    | _ => rfl
  · have hsame : (tyFromNames program scope arguments).length = arity := by
      rw [hlen]
      exact (harity.resolve_left fun h => hzero h.1).symm
    simp only [hzero, hsame]
    exact tyIsCopy_app hrule

theorem lowerHead_builtin {lowered : List Ty}
    (hbuiltin : builtinTypes.lookup name = some (con, lowered.length)) :
    lowerHead program (.named name) lowered = .app con lowered := by
  have hspecial := builtin_special _ (mem_of_lookup hbuiltin)
  simp only [mem_cons, not_or] at hspecial
  obtain ⟨hfn, hcFunction, hunit, hfloat, -⟩ := hspecial
  have hpointer : ¬ (name ∈ ["MemoryPtr", "MemoryMutPtr"] ∧ lowered.length ≠ 1) := by
    rintro ⟨hname, hlen⟩
    exact hlen (builtin_pointers _ (mem_of_lookup hbuiltin) hname)
  unfold lowerHead
  simp only [hfn, hcFunction, hunit, hfloat, hpointer, hbuiltin, takeArguments_length, false_and,
    if_false]

theorem settled_array {length : Nat}
    (hresolved : resolveTypes program scope.names arguments = some tys)
    (hall : AnswersAll program infos scope arguments tys)
    (hty : resolveType program scope.names (.mk (.array length) arguments .owned) = some ty) :
    Settled program infos scope (.mk (.array length) arguments .owned) := by
  have hread := hty
  rw [resolveType_owned, hresolved] at hread
  obtain ⟨hone, hty'⟩ := ite_none_right_eq_some.mp hread
  cases hty'
  have hargs : arguments.length = 1 := (length_resolveTypes hresolved).symm.trans hone
  have hchecker : ¬ Copies infos scope.genericTypes (.app (.array length) tys) :=
    not_copies_never rfl tys
  refine ⟨false, allCopyable program arguments, allCopyable program arguments,
    ⟨_, hty, by simp [hchecker], ?_, ?_⟩, fun hreg => ?_, fun heq _ => heq.symm⟩
  · have howned : (tyFromNames program scope arguments).length = 1 := by
      rw [length_tyFromNames, hargs]
    rw [ownerCopies_owned, ownerHead, if_pos howned, tyIsCopy_app (by decide), hall.owner]
    rfl
  · have hlowered : takeArguments 1 (lowerTypes program arguments) =
        lowerTypes program arguments := by
      have hlen : (lowerTypes program arguments).length = 1 := by
        rw [length_lowerTypes, hargs]
      rw [← hlen]
      exact takeArguments_length _
    rw [lowerType_owned, lowerHead, hlowered, isCopy_app (by simp [hirRule]), hall.hir]
    rfl
  · have hfalse : allCopyable program arguments = false := hreg
    simp [copyable, hfalse]

theorem Implemented.ownerCopies_other (h : Implemented program infos) (hfn : name ≠ "fn")
    (hself : name ≠ "Self") (howner : ownerTypes.lookup name = none) (arguments : List TypeName) :
    ownerCopies program scope (.owned name arguments) =
      (scope.genericCopy.contains name || (copyTypes program).contains name &&
        allTyIsCopy program scope (tyFromNames program scope arguments)) := by
  rw [ownerCopies_owned, ownerHead, if_neg hfn, howner]
  exact tyIsCopy_ownerDeclared h hself _

theorem Implemented.ownerCopies_free (h : Implemented program infos) (hfree : Free name)
    (arguments : List TypeName) :
    ownerCopies program scope (.owned name arguments) =
      (scope.genericCopy.contains name || (copyTypes program).contains name &&
        allTyIsCopy program scope (tyFromNames program scope arguments)) :=
  h.ownerCopies_other (fun heq => hfree.special (by simp [heq]))
    (fun heq => hfree.special (by simp [heq])) hfree.owner arguments

variable (himpl : Implemented program infos) (h : Placed program scope name)

include himpl h

theorem Placed.unknown (hname : ¬ Free name) :
    name ∉ scope.genericCopy ∧ name ∉ copyTypes program ∧ ¬ Declares program name := by
  have hdeclares : ¬ Declares program name := fun hdeclares =>
    hname (h.declared hdeclares)
  exact ⟨fun hcopy => hname (h.generics (Scope.mem_genericTypes hcopy)).1,
    fun hcopy => hdeclares (himpl.declares_copyTypes hcopy), hdeclares⟩

theorem Placed.ownerCopies_unknown (hname : ¬ Free name)
    (hfn : name ≠ "fn") (hself : name ≠ "Self") (howner : ownerTypes.lookup name = none)
    (arguments : List TypeName) : ownerCopies program scope (.owned name arguments) = false := by
  obtain ⟨hgen, hcopy, -⟩ := h.unknown himpl hname
  rw [himpl.ownerCopies_other hfn hself howner]
  simp [hgen, hcopy]

theorem Placed.regular_of_unknown (hname : ¬ Free name) (hself : name ≠ "Self") :
    Regular program scope (.owned name arguments) ↔ name ∉ ["CFunction", "str", "[]"] := by
  obtain ⟨hgen, hcopy, -⟩ := h.unknown himpl hname
  simp [Regular, hgen, hcopy, hself]

theorem Placed.copyable_of_unknown (hname : ¬ Free name)
    (hbuiltin : builtinTypes.lookup name = none) :
    copyable program (.owned name arguments) = false := by
  obtain ⟨-, hcopy, -⟩ := h.unknown himpl hname
  simp [copyable, hbuiltin, hcopy]

theorem Placed.settled_function (hname : name = "fn")
    (hlen : tys.length = arguments.length) (hsome : tys ≠ [])
    (hty : resolveType program scope.names (.owned name arguments) = some (.app .function tys)) :
    Settled program infos scope (.owned name arguments) := by
  subst hname
  have hfree : ¬ Free "fn" := fun hfree => hfree.special (by simp)
  have hlowered : lowerTypes program arguments ≠ [] := by
    rwa [Ne, ← length_eq_zero_iff, length_lowerTypes, ← hlen, length_eq_zero_iff]
  have hchecker : ¬ Copies infos scope.genericTypes (.app .function tys) :=
    not_copies_never rfl tys
  refine ⟨false, false, false, ⟨_, hty, by simp [hchecker], ?_, ?_⟩, fun _ => ?_, fun _ _ => ?_⟩
  · rfl
  · rw [lowerType_owned]
    simp [lowerHead, hlowered, isCopy, hirRule]
  · simp [h.copyable_of_unknown himpl hfree rfl]
  · rw [h.regular_of_unknown himpl hfree (by decide)]
    decide

theorem Placed.settled_cFunction (hname : name = "CFunction")
    {signature : List Ty} (hty : resolveType program scope.names
      (.owned name arguments) = some (.app .cFunction signature)) :
    Settled program infos scope (.owned name arguments) := by
  subst hname
  have hfree : ¬ Free "CFunction" := fun hfree => hfree.special (by simp)
  have howner : ownerTypes.lookup "CFunction" = none := by decide
  have hchecker : Copies infos scope.genericTypes (.app .cFunction signature) :=
    copies_always rfl signature
  refine ⟨true, false, _, ⟨_, hty, by simp [hchecker], ?_, rfl⟩, fun hreg => ?_,
    fun heq => by cases heq⟩
  · exact h.ownerCopies_unknown himpl hfree (by decide) (by decide) howner arguments
  · rw [h.regular_of_unknown himpl hfree (by decide)] at hreg
    exact absurd (by decide) hreg

theorem Placed.settled_error (herror : errorTypes.lookup name = some con)
    (hty : resolveType program scope.names (.owned name arguments) = some (.app con [])) :
    Settled program infos scope (.owned name arguments) := by
  obtain ⟨howner, hbuiltin, hspecial, hrule⟩ := error_owner _ (mem_of_lookup herror)
  have hfree : ¬ Free name := fun hfree => by
    have hnone := hfree.error
    rw [herror] at hnone
    cases hnone
  simp only [mem_cons, not_mem_nil, or_false, not_or] at hspecial
  obtain ⟨hfn, hcFunction, hunit, hfloat, hself⟩ := hspecial
  have hundecl := (h.unknown himpl hfree).2.2
  have hchecker : ¬ Copies infos scope.genericTypes (.app con []) := not_copies_never hrule []
  refine ⟨false, false, false, ⟨_, hty, by simp [hchecker],
    h.ownerCopies_unknown himpl hfree hfn hself howner arguments, ?_⟩, fun _ => ?_, fun _ _ => ?_⟩
  · rw [lowerType_owned]
    simp only [lowerHead, hfn, hcFunction, hbuiltin, herror, false_and, if_false]
    split_ifs <;> simp [lowerDeclared_undeclared hundecl, isCopy]
  · simp [h.copyable_of_unknown himpl hfree hbuiltin]
  · rw [h.regular_of_unknown himpl hfree hself]
    exact not_special_of_builtin hbuiltin hcFunction

theorem Placed.settled_generic (hname : name ∈ scope.names)
    (hty : resolveType program scope.names (.owned name arguments) = some (.generic name)) :
    Settled program infos scope (.owned name arguments) := by
  obtain ⟨hfree, hundecl⟩ := h.generics hname
  have hcopy : name ∉ copyTypes program := fun hcopy =>
    hundecl (himpl.declares_copyTypes hcopy)
  have hchecker : ¬ Copies infos scope.genericTypes (.generic name) := not_copies_generic name
  refine ⟨false, scope.genericCopy.contains name, false, ⟨_, hty, by simp [hchecker], ?_, ?_⟩,
    fun hreg => ?_, fun heq _ => ?_⟩
  · rw [himpl.ownerCopies_free hfree]
    simp [hcopy]
  · rw [lowerType_owned, lowerHead_free hfree, lowerDeclared_undeclared hundecl, isCopy]
  · rw [hfree.regular] at hreg
    simp [hfree.copyable, hcopy, hreg.1]
  · rw [hfree.regular]
    exact ⟨by simpa using heq, fun hmem => absurd hmem hcopy⟩

/-- At a declared type the checker and the representation look at the implementations, the
ownership checker at the arguments as well. -/
theorem Placed.settled_declared (hnom : program.nominal name = some (con, tys.length))
    (hresolved : resolveTypes program scope.names arguments = some tys)
    (hall : AnswersAll program infos scope arguments tys)
    (hrequire : RequireConstraints program infos scope.genericTypes con tys)
    (hty : resolveType program scope.names (.owned name arguments) = some (.app con tys)) :
    Settled program infos scope (.owned name arguments) := by
  have hdeclares := declares_of_nominal hnom
  have hfree := h.declared hdeclares
  have hgen : name ∉ scope.genericCopy := fun hmem =>
    (h.generics (Scope.mem_genericTypes hmem)).2 hdeclares
  have hchecker := himpl.copies_declared_iff hnom
    (written_resolveTypes arguments hresolved) rfl hrequire
  have hhir := himpl.mem_hirCopyTypes hnom
  refine ⟨(copyTypes program).contains name,
    (copyTypes program).contains name && allCopyable program arguments,
    (copyTypes program).contains name, ⟨_, hty, by simp [hchecker], ?_, ?_⟩,
    fun hreg => ?_, fun heq _ => ?_⟩
  · rw [himpl.ownerCopies_free hfree, hall.owner]
    simp [hgen]
  · rw [lowerType_owned, lowerHead_free hfree, lowerDeclared_nominal hnom, isCopy]
    have hcon := nominal_isNominal hnom
    cases con with
    | struct id | enum id => simp [hirRule, hhir]
    | _ => cases hcon
  · rw [hfree.regular] at hreg
    rw [hfree.copyable]
    by_cases hcopy : name ∈ copyTypes program
    · simp [hreg.2 hcopy]
    · simp [hcopy]
  · rw [hfree.regular]
    refine ⟨hgen, fun hcopy => ?_⟩
    simpa [hcopy] using heq.symm

/-- Slices and strings that are not behind a reference. -/
theorem Placed.settled_unsized (hname : name ∈ ["str", "[]"])
    (hbuiltin : builtinTypes.lookup name = some (con, tys.length))
    (hlen : tys.length = arguments.length) (hty : resolveType program scope.names
      (.owned name arguments) = some (.app con tys)) :
    Settled program infos scope (.owned name arguments) := by
  have hfree := not_free_of_builtin hbuiltin
  have hmem := mem_of_lookup hbuiltin
  have hspecial : name ∉ ["fn", "CFunction", "unit", "float", "Self"] := builtin_special _ hmem
  have hirregular : ¬ Regular program scope (.owned name arguments) := by
    rw [h.regular_of_unknown himpl hfree (fun heq => hspecial (by simp [heq])), not_not]
    exact mem_cons_of_mem _ hname
  obtain ⟨hrule, hsome, hlisted⟩ := unsized_rules _ hmem hname
  have hchecker : ¬ Copies infos scope.genericTypes (.app con tys) := not_copies_never hrule tys
  have howner : ownerCopies program scope (.owned name arguments) = true := by
    have hfn : name ≠ "fn" := fun heq => hspecial (by simp [heq])
    obtain ⟨⟨ownerCon, arity⟩, hfound⟩ := ne_none_iff_exists'.mp hsome
    obtain ⟨hownerRule, harity⟩ := hlisted _ hfound
    rw [ownerCopies_listed hfn hfound (by simp [hownerRule])
      (harity.imp (fun h => ⟨h, by simp [hownerRule]⟩) fun h => h.trans hlen)]
    simp [hownerRule]
  exact ⟨false, true, _, ⟨_, hty, by simp [hchecker], howner, rfl⟩,
    fun hreg => absurd hreg hirregular, fun heq => by cases heq⟩

/-- A built-in type on which the three tables agree. -/
theorem Placed.settled_builtin (hname : name ∉ ["str", "[]"])
    (hbuiltin : builtinTypes.lookup name = some (con, tys.length))
    (hlen : tys.length = arguments.length) (hall : AnswersAll program infos scope arguments tys)
    (hty : resolveType program scope.names (.owned name arguments) = some (.app con tys)) :
    Settled program infos scope (.owned name arguments) := by
  have hmem := mem_of_lookup hbuiltin
  obtain ⟨hhirRule, hdecl, hunlisted, hlisted⟩ := builtin_rules _ hmem hname
  have hspecial := builtin_special _ hmem
  have htakes := (written_builtinTypes _ hmem).2
  simp only [mem_cons, not_mem_nil, or_false, not_or] at hspecial hname
  obtain ⟨hfn, hcFunction, -, -, hself⟩ := hspecial
  have hfree := not_free_of_builtin hbuiltin
  have hcopyable : copyable program (.owned name arguments) = (checkerRule con == .always ||
        checkerRule con == .parts && allCopyable program arguments) := by
    simp only [copyable, hbuiltin, map_some]
    cases hrule : checkerRule con <;> simp
  have hchecker : Copies infos scope.genericTypes (.app con tys) ↔
      copyable program (.owned name arguments) = true := by
    rw [hcopyable]
    cases hrule : checkerRule con with
    | always => simp [copies_always hrule]
    | never => simp [not_copies_never hrule]
    | parts => simp [copies_parts hrule htakes, hall.checker]
    | declared => exact absurd hrule hdecl
  have howner : ownerCopies program scope (.owned name arguments) =
      copyable program (.owned name arguments) := by
    rw [hcopyable]
    cases hfound : ownerTypes.lookup name with
    | none => rw [h.ownerCopies_unknown himpl hfree hfn hself hfound, hunlisted hfound]; rfl
    | some found =>
      obtain ⟨hrule, harity⟩ := hlisted _ hfound
      rw [ownerCopies_listed hfn hfound (by rwa [hrule])
        (by rw [hrule]; exact harity.imp_right fun h => h.trans hlen), hrule, hall.owner]
  refine ⟨_, _, _, ⟨_, hty, hchecker, howner, ?_⟩, fun _ => ⟨rfl, rfl, rfl⟩, fun _ _ => ?_⟩
  · have hlowered : builtinTypes.lookup name =
        some (con, (lowerTypes program arguments).length) := by
      rwa [length_lowerTypes, ← hlen]
    rw [lowerType_owned, lowerHead_builtin hlowered, isCopy_app (by rwa [hhirRule]), hhirRule,
      hall.hir, hcopyable]
  · rw [h.regular_of_unknown himpl hfree hself]
    simp [hcFunction, hname]

theorem Placed.settled_named (hresolved : resolveTypes program scope.names arguments = some tys)
    (hall : AnswersAll program infos scope arguments tys)
    (hrequire : ∀ {con arguments}, ty = .app con arguments →
      RequireConstraints program infos scope.genericTypes con arguments)
    (hty : resolveType program scope.names (.owned name arguments) = some ty) :
    Settled program infos scope (.owned name arguments) := by
  have hlen := length_resolveTypes hresolved
  have hread := hty
  rw [resolveType_owned, hresolved] at hread
  cases ReadAs.of_resolveHead hread with
  | function hname hsome => exact h.settled_function himpl hname hlen hsome hty
  | cFunction hname => exact h.settled_cFunction himpl hname hty
  | builtin hbuiltin =>
    by_cases hname : name ∈ ["str", "[]"]
    · exact h.settled_unsized himpl hname hbuiltin hlen hty
    · exact h.settled_builtin himpl hname hbuiltin hlen hall hty
  | error herror hnone => exact h.settled_error himpl herror hty
  | generic hname hnone => exact h.settled_generic himpl hname hty
  | declared hnom =>
    exact h.settled_declared himpl hnom hresolved hall (hrequire rfl) hty

omit himpl h

/-- The checker reads `Self` only where it stands for a target. -/
theorem Placed.ne_self (h : Placed program scope head.text)
    (hty : resolveType program scope.names (.mk head arguments qualifier) = some ty) :
    head ≠ .named "Self" := by
  rintro rfl
  have hfree : ¬ Free "Self" := fun hfree => hfree.special (by simp)
  have hhead : ∀ tys, resolveHead program scope.names (.named "Self") tys = none := by
    intro tys
    cases hread : resolveHead program scope.names (.named "Self") tys with
    | none => rfl
    | some ty =>
      exfalso
      cases ReadAs.of_resolveHead hread with
      | function hname | cFunction hname => exact absurd hname (by decide)
      | builtin hname => exact builtin_special _ (mem_of_lookup hname) (by simp)
      | error hname => exact (error_owner _ (mem_of_lookup hname)).2.2.1 (by simp)
      | generic hname => exact hfree (h.generics hname).1
      | declared hname => exact hfree (h.declared (declares_of_nominal hname))
  rw [resolveType] at hty
  split at hty
  · cases hty
  · cases qualifier <;> simp [hhead] at hty

theorem Placed.settled (himpl : Implemented program infos) (h : Placed program scope head.text)
    (hty : resolveType program scope.names (.mk head arguments qualifier) = some ty)
    (hargs : ∀ argument ∈ arguments, Shared program infos scope argument)
    (hrequire : ∀ {con arguments}, ty = .app con arguments →
      RequireConstraints program infos scope.genericTypes con arguments) :
    Settled program infos scope (.mk head arguments qualifier) := by
  have hread := hty
  rw [resolveType] at hread
  cases hresolved : resolveTypes program scope.names arguments with
  | none => simp [hresolved] at hread
  | some tys =>
    have hall := AnswersAll.of_arguments hargs hresolved
    rw [hresolved] at hread
    cases qualifier with
    | owned =>
      cases head with
      | array length => exact settled_array hresolved hall hty
      | named name => exact h.settled_named himpl hresolved hall hrequire hty
    | sharedReference =>
      obtain ⟨inner, -, rfl⟩ := map_eq_some_iff.mp hread
      exact ⟨true, true, true, ⟨_, hty, iff_of_true (copies_always rfl _) rfl, rfl, rfl⟩,
        fun _ => ⟨rfl, rfl, rfl⟩, fun _ _ => trivial⟩
    | mutableReference =>
      obtain ⟨inner, -, rfl⟩ := map_eq_some_iff.mp hread
      exact ⟨false, false, true,
        ⟨_, hty, iff_of_false (not_copies_never rfl _) (by simp), rfl, rfl⟩,
        fun hreg => hreg.elim, fun _ heq => by cases heq⟩
    | rawConstPointer | rawMutPointer =>
      obtain ⟨-, hread⟩ := ite_none_right_eq_some.mp hread
      cases hread
      exact ⟨true, true, true, ⟨_, hty, iff_of_true (copies_always rfl _) rfl, rfl, rfl⟩,
        fun _ => ⟨rfl, rfl, rfl⟩, fun _ _ => trivial⟩

end Named

/-! ## All types of a program -/

section Program

variable {program : Program} {infos : List ImplInfo} {types : Occurrence → Prop} {scope : Scope}
  {head : TypeHead} {arguments : List TypeName} {qualifier : TypeQualifier} {generics : List String}
  {tys : List Ty} {ty : Ty} {small big : List String} {block : Implementation}

theorem checkedType_other (hhead : head ≠ .named "Self") :
    checkedType program scope (.mk head arguments qualifier) =
      resolveType program scope.names (.mk head arguments qualifier) := by
  rw [checkedType]
  cases scope.block <;> simp [TypeName.head, hhead]

theorem loweredType_other (hhead : head ≠ .named "Self") :
    loweredType program scope (.mk head arguments qualifier) =
      lowerType program (.mk head arguments qualifier) := by
  rw [loweredType, if_neg (by simpa [TypeName.head] using hhead)]

theorem alike_iff (hhead : head ≠ .named "Self") {checker owner hir : Bool}
    (h : Answers program infos scope (.mk head arguments qualifier) checker owner hir) :
    Alike program infos ⟨scope, .mk head arguments qualifier⟩ ↔ checker = owner ∧ owner = hir := by
  obtain ⟨ty, hty, hchecker, howner, hhir⟩ := h
  simp only [Alike, checkedType_other hhead, hirCopies, loweredType_other hhead, hty, howner,
    hhir, Option.some.injEq, exists_eq_left', hchecker, Bool.coe_iff_coe]

theorem resolveTypes_mem {names : List TypeName}
    (h : resolveTypes program generics names = some tys) {name : TypeName} (hmem : name ∈ names) :
    ∃ ty, resolveType program generics name = some ty := by
  induction names generalizing tys with
  | nil => cases hmem
  | cons first names ih =>
    rw [resolveTypes] at h
    split at h
    · rename_i ty rest hty hrest
      rcases mem_cons.mp hmem with rfl | hmem
      · exact ⟨ty, hty⟩
      · exact ih hrest hmem
    · cases h

theorem resolveType_argument
    (h : resolveType program generics (.mk head arguments qualifier) = some ty)
    {argument : TypeName} (hmem : argument ∈ arguments) :
    ∃ ty, resolveType program generics argument = some ty := by
  rw [resolveType] at h
  split at h
  · cases h
  · rename_i tys htys
    exact resolveTypes_mem htys hmem

/-- If every type of the program is regular or judged alike, every type that the checker
resolves by itself is regular, and the stages share the answer there. -/
theorem Accepted.answers (h : Accepted program infos types)
    (heither : ∀ {occurrence}, types occurrence →
      Regular program occurrence.scope occurrence.ty ∨ Alike program infos occurrence)
    (name : TypeName) (ht : types ⟨scope, name⟩)
    (hresolved : ∃ ty, resolveType program scope.names name = some ty) :
    Regular program scope name ∧ Shared program infos scope name := by
  match name with
  | .mk head arguments qualifier =>
    obtain ⟨ty, hty⟩ := hresolved
    have hplaced : Placed program scope head.text := h.placed ht
    obtain ⟨checker, owner, hir, hanswers, hreg, halike⟩ := hplaced.settled h.implemented hty
      (fun argument hmem => (h.answers heither argument (h.closed ht (.argument hmem))
        (resolveType_argument hty hmem)).2)
      fun heq => h.permitted ht (heq ▸ hty)
    have hhead := hplaced.ne_self hty
    have hreg' : Regular program scope (.mk head arguments qualifier) := by
      rcases heither ht with hreg | hsame
      · exact hreg
      · obtain ⟨hco, hoh⟩ := (alike_iff hhead hanswers).mp hsame
        exact halike hco hoh
    obtain ⟨rfl, rfl, rfl⟩ := hreg hreg'
    exact ⟨hreg', hanswers⟩
termination_by sizeOf name
decreasing_by
  have := sizeOf_lt_of_mem hmem
  simp
  omega

/-! ## `Self` -/

theorem resolveDeclared_mono (hsub : small ⊆ big) (hbig : name ∈ big → ¬ Declares program name)
    (h : resolveDeclared program small name tys = some ty) :
    resolveDeclared program big name tys = some ty := by
  rw [resolveDeclared] at h ⊢
  split_ifs at h with hgen
  · rw [if_pos ⟨hgen.1, hsub hgen.2⟩]
    exact h
  · split at h
    · rename_i con arity hnom
      rw [if_neg fun hin => hbig hin.2 (declares_of_nominal hnom)]
      exact h
    · cases h

theorem resolveHead_mono (hsub : small ⊆ big)
    (hbig : head.text ∈ big → ¬ Declares program head.text)
    (h : resolveHead program small head tys = some ty) :
    resolveHead program big head tys = some ty := by
  cases head with
  | array length => exact h
  | named name =>
    unfold resolveHead at h ⊢
    dsimp only at h ⊢
    by_cases hfn : name = "fn" ∧ tys ≠ []
    · rwa [if_pos hfn] at h ⊢
    rw [if_neg hfn] at h ⊢
    by_cases hcFunction : name = "CFunction" ∧ tys.length = 1
    · rwa [if_pos hcFunction] at h ⊢
    rw [if_neg hcFunction] at h ⊢
    split at h
    · split_ifs at h ⊢ with hlen
      · exact h
      · exact resolveDeclared_mono hsub hbig h
    · split_ifs at h ⊢ with hnone
      · exact h
      · exact resolveDeclared_mono hsub hbig h
    · exact resolveDeclared_mono hsub hbig h

mutual

/-- More generic names do not change the reading of an accepted type. -/
theorem Accepted.resolveType_mono (h : Accepted program infos types) (hsub : small ⊆ scope.names)
    (name : TypeName) (ht : types ⟨scope, name⟩) {ty : Ty}
    (hty : resolveType program small name = some ty) :
    resolveType program scope.names name = some ty := by
  match name with
  | .mk head arguments qualifier =>
    have hbig : head.text ∈ scope.names → ¬ Declares program head.text := fun hmem =>
      ((h.placed ht).generics hmem).2
    rw [resolveType] at hty ⊢
    cases hargs : resolveTypes program small arguments with
    | none => simp [hargs] at hty
    | some tys =>
      rw [hargs] at hty
      rw [Accepted.resolveTypes_mono h hsub arguments
        (fun argument hmem => h.closed ht (.argument hmem)) hargs]
      cases qualifier with
      | owned => exact resolveHead_mono hsub hbig hty
      | sharedReference | mutableReference =>
        obtain ⟨inner, hinner, rfl⟩ := map_eq_some_iff.mp hty
        exact map_eq_some_iff.mpr ⟨inner, resolveHead_mono hsub hbig hinner, rfl⟩
      | rawConstPointer | rawMutPointer => exact hty

theorem Accepted.resolveTypes_mono (h : Accepted program infos types)
    (hsub : small ⊆ scope.names) (names : List TypeName)
    (ht : ∀ name ∈ names, types ⟨scope, name⟩) {tys : List Ty}
    (htys : resolveTypes program small names = some tys) :
    resolveTypes program scope.names names = some tys := by
  match names with
  | [] => exact htys
  | first :: rest =>
    rw [resolveTypes] at htys ⊢
    split at htys
    · rename_i ty others hty hothers
      rw [Accepted.resolveType_mono h hsub first (ht first mem_cons_self) hty,
        Accepted.resolveTypes_mono h hsub rest
          (fun name hmem => ht name (mem_cons_of_mem first hmem)) hothers]
      exact htys
    · cases htys

end

theorem Scope.block_generics (h : scope.block = some block) :
    block.generics.map (·.name) ⊆ scope.names := by
  intro name hname
  obtain ⟨generic, hmem, rfl⟩ := List.mem_map.mp hname
  refine List.mem_map.mpr ⟨_, List.mem_map.mpr ⟨generic, mem_append_right _ ?_, rfl⟩, rfl⟩
  simpa [h] using hmem

/-- An accepted `Self` stands in a method, and the target of its block is resolved there. -/
theorem Accepted.self_target (h : Accepted program infos types)
    (ht : types ⟨scope, .mk (.named "Self") arguments qualifier⟩) :
    arguments = [] ∧ ∃ block base, scope.block = some block ∧
      resolveType program scope.names block.target = some base ∧
      checkedType program scope (.mk (.named "Self") arguments qualifier) =
        some (qualified qualifier base) := by
  obtain ⟨ty, hty⟩ := h.resolved ht
  have hunresolved : ∀ {ty}, resolveType program scope.names
      (.mk (.named "Self") arguments qualifier) ≠ some ty := fun hty =>
    Placed.ne_self (h.placed ht) hty rfl
  have hchecked := hty
  simp only [checkedType] at hty
  split at hty
  · rename_i block hblock
    split_ifs at hty with hself
    · obtain ⟨base, hbase, rfl⟩ := map_eq_some_iff.mp hty
      obtain rfl := hself.2
      exact ⟨rfl, block, base, hblock, h.resolveType_mono (Scope.block_generics hblock) _
        (h.closed ht (.target hblock)) hbase, hchecked⟩
    · exact absurd hty hunresolved
  · exact absurd hty hunresolved

theorem ownerCopies_self (hblock : scope.block = some block) :
    ownerCopies program scope (.mk (.named "Self") [] .owned) =
      (copyTypes program).contains block.target.head.text := by
  have howner : ownerTypes.lookup "Self" = none := by decide
  rw [ownerCopies_owned, ownerHead, howner]
  simp [ownerDeclared, hblock, tyIsCopy, ownerRule]

theorem Placed.regular_self (himpl : Implemented program infos)
    (h : Placed program scope "Self") (hblock : scope.block = some block) :
    Regular program scope (.mk (.named "Self") [] .owned) ↔
      (copyable program block.target = true → block.target.head.text ∈ copyTypes program) := by
  obtain ⟨hgen, hcopy, -⟩ := h.unknown himpl fun hfree : Free "Self" => hfree.special (by simp)
  simp [Regular, hgen, hcopy, hblock]

theorem Implemented.free_of_mem_copyTypes (h : Implemented program infos)
    (hname : name ∈ copyTypes program) : Free name := by
  obtain ⟨block, hmem, hcopy, rfl⟩ := mem_copyTypes.mp hname
  exact (h.alike.blocks block hmem hcopy).declared (h.declares_copyTypes hname)

theorem copyable_of_mem (h : Implemented program infos) {name : TypeName}
    (hreg : Regular program scope name) (hcopy : name.head.text ∈ copyTypes program) :
    copyable program name = true := by
  obtain ⟨head, arguments, qualifier⟩ := name
  have hfree := h.free_of_mem_copyTypes hcopy
  cases qualifier with
  | owned =>
    cases head with
    | array length => exact absurd rfl (hfree.array length)
    | named text =>
      have hfree : Free text := hfree
      have hcopy : text ∈ copyTypes program := hcopy
      rw [hfree.copyable]
      simp [hcopy, (hfree.regular.mp hreg).2 hcopy]
  | mutableReference => exact hreg.elim
  | sharedReference | rawConstPointer | rawMutPointer => rfl

/-- At `Self` the ownership checker only has the name of the target. -/
theorem Accepted.alike_self_iff (h : Accepted program infos types)
    (heither : ∀ {occurrence}, types occurrence →
      Regular program occurrence.scope occurrence.ty ∨ Alike program infos occurrence)
    (ht : types ⟨scope, .mk (.named "Self") arguments qualifier⟩) :
    Alike program infos ⟨scope, .mk (.named "Self") arguments qualifier⟩ ↔
      Regular program scope (.mk (.named "Self") arguments qualifier) := by
  obtain ⟨rfl, block, base, hblock, hbase, hchecked⟩ := h.self_target ht
  have htgt : types ⟨scope, block.target⟩ := h.closed ht (.target hblock)
  have hplaced : Placed program scope "Self" := h.placed ht
  obtain ⟨hreg, ty, hty, hchecker, -, hhir⟩ :=
    h.answers heither block.target htgt ⟨base, hbase⟩
  obtain rfl := Option.some.inj (hbase.symm.trans hty)
  have hlowered : loweredType program scope (.mk (.named "Self") [] qualifier) =
      qualified qualifier (lowerType program block.target) := by
    simp [loweredType, TypeName.head, TypeName.qualifier, hblock]
  simp only [Alike, hchecked, Option.some.injEq, exists_eq_left', hirCopies, hlowered]
  cases qualifier with
  | owned =>
    have hback := copyable_of_mem h.implemented hreg
    rw [hplaced.regular_self h.implemented hblock, ownerCopies_self hblock]
    simp only [qualified, hchecker, hhir, contains_eq_mem, decide_eq_true_eq]
    constructor
    · exact fun hsame => hsame.1.mp
    · intro hforth
      refine ⟨⟨hforth, hback⟩, ?_⟩
      rw [Bool.eq_iff_iff, decide_eq_true_eq]
      exact ⟨hback, hforth⟩
  | mutableReference => exact iff_of_false (fun hsame => by cases hsame.2) id
  | sharedReference | rawConstPointer | rawMutPointer =>
    exact iff_of_true ⟨iff_of_true (copies_always rfl _) rfl, rfl⟩ trivial

/-- The stages give one answer at every type of an accepted program precisely when every
type of the program is regular. -/
theorem copy_answers_alike_iff (h : Accepted program infos types) :
    (∀ occurrence, types occurrence → Alike program infos occurrence) ↔
      ∀ occurrence, types occurrence → Regular program occurrence.scope occurrence.ty := by
  have hboth : (∀ {occurrence}, types occurrence →
        Regular program occurrence.scope occurrence.ty ∨ Alike program infos occurrence) →
      ∀ occurrence, types occurrence →
        (Alike program infos occurrence ↔ Regular program occurrence.scope occurrence.ty) := by
    rintro heither ⟨scope, head, arguments, qualifier⟩ ht
    by_cases hhead : head = .named "Self"
    · subst hhead
      exact h.alike_self_iff heither ht
    · obtain ⟨ty, hty⟩ := h.resolved ht
      rw [checkedType_other hhead] at hty
      obtain ⟨hreg, hanswers⟩ := h.answers heither (.mk head arguments qualifier) ht ⟨ty, hty⟩
      exact iff_of_true ((alike_iff hhead hanswers).mpr ⟨rfl, rfl⟩) hreg
  constructor
  · intro halike occurrence ht
    exact (hboth (fun ht => .inr (halike _ ht)) occurrence ht).mp (halike occurrence ht)
  · intro hreg occurrence ht
    exact (hboth (fun ht => .inl (hreg _ ht)) occurrence ht).mpr (hreg occurrence ht)

end Program

/-! ## Programs with and without a difference -/

def outside : Scope := ⟨[], none⟩

/-- The types of a list, outside of any generic function. -/
def among (names : List TypeName) (occurrence : Occurrence) : Prop :=
  occurrence.scope = outside ∧ occurrence.ty ∈ names

def pointProgram : Program where
  structs := [⟨"Point", []⟩]
  enums := []
  traits := []
  implementations := [⟨[], some (.owned "Copy" []), .owned "Point" [], []⟩]

def pointInfos : List ImplInfo := [⟨"Copy", .app (.struct 0) [], []⟩]

theorem ne_array_text (h : name.toList.head? ≠ some '[') (length : Nat) :
    name ≠ (TypeHead.array length).text := by
  rintro rfl
  refine h ?_
  simp only [TypeHead.text, String.toList_append]
  rfl

theorem point_declaredConstraints (con : Con) : declaredConstraints pointProgram con = [] := by
  cases con with
  | struct id => cases id <;> rfl
  | _ => rfl

theorem point_free : Free "Point" :=
  ⟨by decide, by decide, by decide, by decide, by decide, ne_array_text (by decide)⟩

theorem point_implemented : Implemented pointProgram pointInfos := by
  refine ⟨rfl, rfl, ⟨by simp [pointProgram], fun block hmem _ => ?_⟩⟩
  obtain rfl := mem_singleton.mp hmem
  exact ⟨fun _ => point_free, by simp, rfl⟩

/-- Types without a difference of readings: all are resolved, and their arguments are among
them. -/
theorem point_accepted {names : List TypeName}
    (hclosed : ∀ name ∈ names, ∀ argument ∈ name.arguments, argument ∈ names)
    (hresolved : ∀ name ∈ names, name.head ≠ .named "Self" ∧
      ∃ ty, resolveType pointProgram [] name = some ty) :
    Accepted pointProgram pointInfos (among names) := by
  refine ⟨point_implemented, ?_, ?_, ?_, ?_⟩
  · rintro _ _ ⟨hscope, hmem⟩ hpart
    cases hpart with
    | argument h => exact ⟨hscope, hclosed _ hmem _ h⟩
    | target h => cases (congrArg Scope.block hscope).symm.trans h
  · rintro ⟨scope, ty⟩ ⟨hscope, hmem⟩
    cases hscope
    obtain ⟨hself, ty', hty⟩ := hresolved _ hmem
    exact ⟨ty', hty⟩
  · simp [RequireConstraints, point_declaredConstraints]
  · rintro ⟨scope, ty⟩ ⟨hscope, -⟩
    cases hscope
    refine ⟨fun hdeclares => ?_, fun hgen => by cases hgen⟩
    obtain hname : ty.head.text = "Point" := by simpa [Declares, pointProgram] using hdeclares
    exact hname ▸ point_free

def intType : TypeName := .owned "int" []

def intArray : TypeName := .mk (.array 3) [intType] .owned

def mutableInt : TypeName := .mk (.named "int") [] .mutableReference

/-- The checker moves an array of integers that the other two stages copy, and only the
representation copies a mutable reference. -/
theorem arrays_and_mutable_references_differ :
    Accepted pointProgram pointInfos (among [intArray, mutableInt, intType]) ∧
      (checkedType pointProgram outside intArray = some (.app (.array 3) [.int]) ∧
        ¬ Copies pointInfos [] (.app (.array 3) [.int]) ∧
        ownerCopies pointProgram outside intArray = true ∧
        hirCopies pointProgram outside intArray = true) ∧
      checkedType pointProgram outside mutableInt = some (.app (.reference true) [.int]) ∧
        ¬ Copies pointInfos [] (.app (.reference true) [.int]) ∧
        ownerCopies pointProgram outside mutableInt = false ∧
        hirCopies pointProgram outside mutableInt = true := by
  refine ⟨point_accepted ?_ ?_, ⟨rfl, not_copies_never rfl _, rfl, rfl⟩, rfl,
    not_copies_never rfl _, rfl, rfl⟩
  · simp [TypeName.arguments, intArray, mutableInt, intType]
  · simp only [forall_mem_cons, not_mem_nil, false_imp_iff, implies_true, and_true]
    exact ⟨⟨by decide, _, rfl⟩, ⟨by decide, _, rfl⟩, by decide, _, rfl⟩

def pointType : TypeName := .owned "Point" []

def maybePoint : TypeName := .owned "Option" [pointType]

def sharedPoint : TypeName := .mk (.named "Point") [] .sharedReference

theorem points_answered_alike :
    Accepted pointProgram pointInfos (among [maybePoint, sharedPoint, pointType]) ∧
      Alike pointProgram pointInfos ⟨outside, maybePoint⟩ ∧
      Alike pointProgram pointInfos ⟨outside, sharedPoint⟩ ∧
      Alike pointProgram pointInfos ⟨outside, pointType⟩ := by
  have hacc : Accepted pointProgram pointInfos (among [maybePoint, sharedPoint, pointType]) := by
    refine point_accepted ?_ ?_
    · simp [TypeName.arguments, maybePoint, sharedPoint, pointType]
    · simp only [forall_mem_cons, not_mem_nil, false_imp_iff, implies_true, and_true]
      exact ⟨⟨by decide, _, rfl⟩, ⟨by decide, _, rfl⟩, by decide, _, rfl⟩
  have halike := (copy_answers_alike_iff hacc).mpr (by
    rintro ⟨scope, ty⟩ ⟨hscope, hmem⟩
    cases hscope
    simp only [mem_cons, not_mem_nil, or_false] at hmem
    rcases hmem with rfl | rfl | rfl
    · exact ⟨by decide, by decide, by decide, by decide⟩
    · trivial
    · exact ⟨by decide, by decide, by decide, by decide⟩)
  exact ⟨hacc, halike ⟨outside, maybePoint⟩ ⟨rfl, by simp⟩,
    halike ⟨outside, sharedPoint⟩ ⟨rfl, by simp⟩, halike ⟨outside, pointType⟩ ⟨rfl, by simp⟩⟩

end Disp.Copying
