import Disp.Dispatch.Stages
import Disp.TypeChecker.Matching

/-!
# Coherence of implementations

Two implementations of one trait are rejected when their targets overlap, and an
implementation applies to a type that its target accepts.  The two relations differ: the
overlap test does not look below a reference, a pointer or a function type, and a target
also accepts the narrower types.  The registered implementations are coherent if their targets
leave no room for a narrower type, and do not meet where the overlap test does not look.
-/

namespace Disp.Dispatch

open Disp.TypeChecker Disp.Library.IndexedSearch List

variable {program : Program} {name : String} {generics : List String} {arguments : List Ty}
  {ty : Ty} {registered : List ImplInfo}

/-! ## Targets of registered blocks -/

theorem written_builtinTypes :
    ∀ entry ∈ builtinTypes, entry.2.1.written = true ∧ entry.2.1.takes entry.2.2 = true := by
  decide

theorem written_errorTypes :
    ∀ entry ∈ errorTypes, entry.2.written = true ∧ entry.2.takes 0 = true := by
  decide

theorem written_nominal {con : Con} {arity : Nat} (h : program.nominal name = some (con, arity))
    (count : Nat) : con.written = true ∧ con.takes count = true := by
  obtain ⟨id, -, rfl, -⟩ | ⟨-, id, -, rfl, -⟩ := Program.nominal_eq_some h <;> exact ⟨rfl, rfl⟩

theorem written_resolveHead {head : TypeHead} (hargs : allWritten generics arguments = true)
    (h : resolveHead program generics head arguments = some ty) : ty.written generics = true := by
  cases head with
  | array length =>
    rw [resolveHead] at h
    split_ifs at h with hlen
    cases h
    exact written_app.mpr ⟨rfl, by simp [Con.takes, hlen], hargs⟩
  | named name =>
    cases ReadAs.of_resolveHead h with
    | function => exact written_app.mpr ⟨rfl, rfl, hargs⟩
    | cFunction _ hsignature =>
      subst hsignature
      simp only [allWritten, Bool.and_true] at hargs
      exact written_app.mpr ⟨rfl, rfl, (written_app.mp hargs).2.2⟩
    | builtin hbuiltin =>
      obtain ⟨hcon, htakes⟩ := written_builtinTypes _ (mem_of_lookup hbuiltin)
      exact written_app.mpr ⟨hcon, htakes, hargs⟩
    | error herror =>
      obtain ⟨hcon, htakes⟩ := written_errorTypes _ (mem_of_lookup herror)
      exact written_app.mpr ⟨hcon, htakes, rfl⟩
    | generic hgen => simpa [Ty.written] using hgen
    | declared hnom =>
      obtain ⟨hcon, htakes⟩ := written_nominal hnom arguments.length
      exact written_app.mpr ⟨hcon, htakes, hargs⟩

mutual

/-- A resolved type is a written one. -/
theorem written_resolveType (name : TypeName) {ty : Ty}
    (h : resolveType program generics name = some ty) : ty.written generics = true := by
  match name with
  | .mk head arguments qualifier =>
    rw [resolveType] at h
    cases hresolved : resolveTypes program generics arguments with
    | none => simp [hresolved] at h
    | some resolved =>
      rw [hresolved] at h
      have hargs := written_resolveTypes arguments hresolved
      cases qualifier with
      | owned => exact written_resolveHead hargs h
      | sharedReference | mutableReference =>
        obtain ⟨inner, hinner, rfl⟩ := Option.map_eq_some_iff.mp h
        exact written_app.mpr ⟨rfl, rfl, by
          simp [allWritten, written_resolveHead hargs hinner]⟩
      | rawConstPointer | rawMutPointer =>
        obtain ⟨⟨-, hlen⟩, hty⟩ := Option.ite_none_right_eq_some.mp h
        cases hty
        exact written_app.mpr ⟨rfl, by simp [Con.takes, hlen], hargs⟩

theorem written_resolveTypes (names : List TypeName) {tys : List Ty}
    (h : resolveTypes program generics names = some tys) : allWritten generics tys = true := by
  match names with
  | [] =>
    cases h
    rfl
  | x :: xs =>
    rw [resolveTypes] at h
    split at h
    · rename_i ty rest hty hrest
      cases h
      simp [allWritten, written_resolveType x hty, written_resolveTypes xs hrest]
    · cases h

end

theorem registerImplementation_checked {block : Implementation} {info : ImplInfo}
    (h : registerImplementation program registered block = .ok info) :
    info.target.written (info.constraints.map (·.1)) = true ∧
      ∀ existing ∈ registered, existing.traitName = info.traitName →
        typesOverlap existing.target info.target = false := by
  simp only [registerImplementation] at h
  repeat' split at h
  all_goals cases h
  rename_i htgt _ _ _ _ _ _ _ _ _ hoverlap _
  refine ⟨?_, fun existing hex hname => ?_⟩
  · simpa [Function.comp_def] using written_resolveType _ htgt
  · simpa [hname] using any_eq_false.mp (Bool.eq_false_iff.mpr hoverlap) existing hex

/-- The registered blocks, in pairs. -/
structure Registered (implementations : List ImplInfo) : Prop where
  written : ∀ block ∈ implementations,
    block.target.written (block.constraints.map (·.1)) = true
  apart : implementations.Pairwise fun a b =>
    a.traitName = b.traitName → typesOverlap a.target b.target = false

theorem registered_registerAll {blocks : List Implementation} {infos : List ImplInfo}
    (hreg : Registered registered) (h : registerAll program blocks registered = .ok infos) :
    Registered infos := by
  induction blocks generalizing registered with
  | nil =>
    cases h
    exact hreg
  | cons block blocks ih =>
    rw [registerAll] at h
    cases hinfo : registerImplementation program registered block with
    | error problem => simp [hinfo] at h
    | ok info =>
      rw [hinfo] at h
      obtain ⟨hwritten, hapart⟩ := registerImplementation_checked hinfo
      refine ih ⟨fun other hother => ?_, ?_⟩ h
      · rcases mem_append.mp hother with hother | hother
        · exact hreg.written other hother
        · rwa [mem_singleton.mp hother]
      · refine pairwise_append.mpr ⟨hreg.apart, pairwise_singleton _ _, ?_⟩
        intro existing hex other hother
        rw [mem_singleton.mp hother]
        exact hapart existing hex

theorem registered_nil : Registered [] := ⟨fun _ h => (not_mem_nil h).elim, .nil⟩

/-! ## Constraint queries -/

section Queries

variable {implementations : List ImplInfo} {genericTypes : GenericTypes} {fuel : Nat}
  {visiting : Visiting} {con : Con} {requirement : String} {block : ImplInfo} {a b : Substitutions}

/-- The query is not open yet, and a block of the trait applies below it. -/
def Granted (implementations : List ImplInfo) (genericTypes : GenericTypes) (fuel : Nat)
    (visiting : Visiting) (key : String × Ty) : Prop :=
  key ∉ visiting ∧ ∃ block ∈ implementations, block.traitName = key.1 ∧
    implementationApplies implementations genericTypes fuel (key :: visiting) block key.2 = true

theorem typeSatisfies_app :
    typeSatisfies implementations genericTypes (fuel + 1) visiting (.app con arguments)
        requirement = true ↔
      requirement = "Copy" ∧
          typeIsCopy implementations genericTypes fuel visiting (.app con arguments) = true ∨
        Granted implementations genericTypes fuel visiting (requirement, .app con arguments) := by
  rw [typeSatisfies, Granted]
  split_ifs with hcopy hvisit
  · simp [hcopy]
  · simp [hcopy, hvisit]
  · simp [hcopy, hvisit]

theorem implementationApplies_succ :
    implementationApplies implementations genericTypes (fuel + 1) visiting block ty = true ↔
      ∃ inferred, inferSubstitutions block.target ty [] = some inferred ∧
        typesCompatible (substitute inferred block.target) ty = true ∧
        ∀ generic constraints, (generic, constraints) ∈ block.constraints →
          ∃ argument, inferred.lookup generic = some argument ∧ ∀ constraint ∈ constraints,
            typeSatisfies implementations genericTypes fuel visiting argument constraint =
              true := by
  rw [implementationApplies]
  cases inferSubstitutions block.target ty [] with
  | none => simp
  | some inferred =>
    simp only [Option.some.injEq, exists_eq_left', Bool.and_eq_true, all_eq_true, Prod.forall]
    refine and_congr_right fun _ => forall_congr' fun generic => forall_congr' fun constraints =>
      imp_congr_right fun _ => ?_
    cases inferred.lookup generic <;> simp

/-- The built-in types that `type_is_copy_inner` accepts at once. -/
def copies : Con → Bool
  | .int | .intLiteral _ | .negativeIntLiteral _ | .uint | .signed _ | .unsigned _ | .float
  | .float32 | .floatLiteral | .char | .bool | .instant | .duration | .ipAddress | .cStr
  | .unit | .reference false | .rawPointer _ | .memoryPointer _ | .cFunction => true
  | _ => false

def isNominal : Con → Bool
  | .struct _ | .enum _ => true
  | _ => false

theorem typeIsCopy_app :
    typeIsCopy implementations genericTypes (fuel + 1) visiting (.app con arguments) = true ↔
      copies con = true ∨
        (con = .option ∧ ∃ value, arguments = [value] ∧
          typeIsCopy implementations genericTypes fuel visiting value = true) ∨
        (con = .result ∧ ∃ ok error, arguments = [ok, error] ∧
          typeIsCopy implementations genericTypes fuel visiting ok = true ∧
          typeIsCopy implementations genericTypes fuel visiting error = true) ∨
        (isNominal con = true ∧
          Granted implementations genericTypes fuel visiting ("Copy", .app con arguments)) := by
  unfold Granted
  cases con
  case option =>
    rcases arguments with _ | ⟨value, _ | ⟨other, rest⟩⟩ <;> simp [typeIsCopy, copies, isNominal]
  case result =>
    rcases arguments with _ | ⟨ok, _ | ⟨error, _ | ⟨other, rest⟩⟩⟩ <;>
      simp [typeIsCopy, copies, isNominal]
  case reference mutable => cases mutable <;> simp [typeIsCopy, copies, isNominal]
  all_goals simp [typeIsCopy, copies, isNominal]

/-- The queries that call each other. -/
inductive Query where
  | satisfies (ty : Ty) (requirement : String)
  | copies (ty : Ty)
  | applies (block : ImplInfo) (ty : Ty)

def Query.succeeds (implementations : List ImplInfo) (genericTypes : GenericTypes) (fuel : Nat)
    (visiting : Visiting) : Query → Bool
  | .satisfies ty requirement =>
    typeSatisfies implementations genericTypes fuel visiting ty requirement
  | .copies ty => typeIsCopy implementations genericTypes fuel visiting ty
  | .applies block ty => implementationApplies implementations genericTypes fuel visiting block ty

theorem Query.not_succeeds_zero (query : Query) :
    query.succeeds implementations genericTypes 0 visiting = false := by
  cases query with
  | satisfies ty requirement => rw [succeeds, typeSatisfies]
  | copies ty => rw [succeeds, typeIsCopy]
  | applies block ty => rw [succeeds, implementationApplies]

/-- A query that succeeds also succeeds with more fuel and fewer open queries. -/
theorem queries_mono (query : Query) {fuel' : Nat} {visiting' : Visiting} (hle : fuel ≤ fuel')
    (hsub : visiting' ⊆ visiting)
    (h : query.succeeds implementations genericTypes fuel visiting = true) :
    query.succeeds implementations genericTypes fuel' visiting' = true := by
  induction fuel generalizing fuel' visiting visiting' query with
  | zero => simp [Query.not_succeeds_zero] at h
  | succ fuel ih =>
    obtain ⟨fuel', rfl⟩ : ∃ n, fuel' = n + 1 := ⟨fuel' - 1, by omega⟩
    have hfuel : fuel ≤ fuel' := by omega
    have hcopy {ty : Ty} := ih (.copies ty) hfuel hsub
    have hgranted {key : String × Ty} :
        Granted implementations genericTypes fuel visiting key →
          Granted implementations genericTypes fuel' visiting' key := by
      rintro ⟨hkey, block, hmem, hname, happlies⟩
      exact ⟨fun hin => hkey (hsub hin), block, hmem, hname,
        ih (.applies _ _) hfuel (cons_subset_cons _ hsub) happlies⟩
    match query with
    | .satisfies (.generic name) _ | .copies (.generic name) => exact h
    | .satisfies (.app con arguments) _ =>
      exact typeSatisfies_app.mpr ((typeSatisfies_app.mp h).imp (And.imp_right hcopy) hgranted)
    | .copies (.app con arguments) =>
      refine typeIsCopy_app.mpr ((typeIsCopy_app.mp h).imp_right (Or.imp ?_ (Or.imp ?_ ?_)))
      · rintro ⟨hcon, value, hval, h⟩
        exact ⟨hcon, value, hval, hcopy h⟩
      · rintro ⟨hcon, ok, error, hval, hok, herror⟩
        exact ⟨hcon, ok, error, hval, hcopy hok, hcopy herror⟩
      · exact And.imp_right hgranted
    | .applies block ty =>
      obtain ⟨inferred, hinfer, hcompat, hconstrs⟩ := implementationApplies_succ.mp h
      refine implementationApplies_succ.mpr
        ⟨inferred, hinfer, hcompat, fun generic constraints hmem => ?_⟩
      obtain ⟨argument, hlook, harg⟩ := hconstrs generic constraints hmem
      exact ⟨argument, hlook, fun constraint hconstr =>
        ih (.satisfies _ _) hfuel hsub (harg constraint hconstr)⟩

/-- A successful query does not need an open query, unless that one succeeds by itself:
the answer `false` for a query that is met again loses nothing. -/
theorem queries_cut (key : String × Ty) (query : Query)
    (h : query.succeeds implementations genericTypes fuel visiting = true) :
    query.succeeds implementations genericTypes fuel (key :: visiting) = true ∨
      ∃ n, typeSatisfies implementations genericTypes n visiting key.2 key.1 = true := by
  induction fuel generalizing visiting query with
  | zero => simp [Query.not_succeeds_zero] at h
  | succ fuel ih =>
    have hcopy {ty : Ty} := @ih visiting (.copies ty)
    have hgranted {other : String × Ty} (hother : other ≠ key)
        (h : Granted implementations genericTypes fuel visiting other) :
        Granted implementations genericTypes fuel (key :: visiting) other ∨
          ∃ n, typeSatisfies implementations genericTypes n visiting key.2 key.1 = true := by
      obtain ⟨hnew, block, hmem, hname, happlies⟩ := h
      rcases ih (.applies _ _) happlies with happlies | ⟨n, hn⟩
      · refine .inl ⟨by simp [hother, hnew], block, hmem, hname, ?_⟩
        exact queries_mono (.applies _ _) le_rfl (by simp) happlies
      · exact .inr ⟨n, queries_mono (.satisfies _ _) le_rfl (subset_cons_self _ _) hn⟩
    match query with
    | .satisfies (.generic name) _ | .copies (.generic name) => exact .inl h
    | .satisfies (.app con arguments) requirement =>
      by_cases hkey : (requirement, Ty.app con arguments) = key
      · exact .inr ⟨fuel + 1, by rw [← hkey]; exact h⟩
      rcases typeSatisfies_app.mp h with ⟨hreq, h⟩ | h
      · exact (hcopy h).imp_left fun h => typeSatisfies_app.mpr (.inl ⟨hreq, h⟩)
      · exact (hgranted hkey h).imp_left fun h => typeSatisfies_app.mpr (.inr h)
    | .copies (.app con arguments) =>
      by_cases hkey : ("Copy", Ty.app con arguments) = key
      · refine .inr ⟨fuel + 2, ?_⟩
        rw [← hkey, typeSatisfies_app]
        exact .inl ⟨rfl, h⟩
      rw [Query.succeeds, typeIsCopy_app] at h ⊢
      rcases h with h | ⟨hcon, value, hval, h⟩ | ⟨hcon, ok, error, hval, hok, herror⟩ | h
      · exact .inl (.inl h)
      · exact (hcopy h).imp_left fun h => .inr (.inl ⟨hcon, value, hval, h⟩)
      · rcases hcopy hok with hok | hright
        · exact (hcopy herror).imp_left fun herror =>
            .inr (.inr (.inl ⟨hcon, ok, error, hval, hok, herror⟩))
        · exact .inr hright
      · exact (hgranted hkey h.2).imp_left fun h' => .inr (.inr (.inr ⟨h.1, h'⟩))
    | .applies block ty =>
      by_cases hright : ∃ n,
          typeSatisfies implementations genericTypes n visiting key.2 key.1 = true
      · exact .inr hright
      obtain ⟨inferred, hinfer, hcompat, hconstrs⟩ := implementationApplies_succ.mp h
      refine .inl (implementationApplies_succ.mpr
        ⟨inferred, hinfer, hcompat, fun generic constraints hmem => ?_⟩)
      obtain ⟨argument, hlook, harg⟩ := hconstrs generic constraints hmem
      exact ⟨argument, hlook, fun constraint hconstr =>
        (ih (.satisfies _ _) (harg constraint hconstr)).resolve_right hright⟩

/-- `type_satisfies_constraint`: the query succeeds with nothing else open. -/
def Satisfied (implementations : List ImplInfo) (genericTypes : GenericTypes) (ty : Ty)
    (requirement : String) : Prop :=
  ∃ fuel, typeSatisfies implementations genericTypes fuel [] ty requirement = true

/-- `implementation_applies_inner` succeeds below the open queries. -/
def Applies (implementations : List ImplInfo) (genericTypes : GenericTypes) (visiting : Visiting)
    (block : ImplInfo) (ty : Ty) : Prop :=
  ∃ fuel, implementationApplies implementations genericTypes fuel visiting block ty = true

/-- The arguments stand for the block's generic names: each name occurs in the target and its
argument satisfies its constraints. -/
def Admits (implementations : List ImplInfo) (genericTypes : GenericTypes) (block : ImplInfo)
    (arguments : Substitutions) : Prop :=
  ∀ generic constraints, (generic, constraints) ∈ block.constraints →
    generic ∈ block.target.generics ∧ ∃ argument : Ty,
      arguments.lookup generic = some argument ∧ argument.Concrete ∧
      ∀ constraint ∈ constraints, Satisfied implementations genericTypes argument constraint

/-- The type is the target of the block for some arguments of its generic names. -/
def IsInstance (implementations : List ImplInfo) (genericTypes : GenericTypes) (block : ImplInfo)
    (ty : Ty) : Prop :=
  ∃ arguments, Admits implementations genericTypes block arguments ∧
    substitute arguments block.target = ty

theorem Applies.nil (h : Applies implementations genericTypes visiting block ty) :
    Applies implementations genericTypes [] block ty :=
  h.imp fun _ h => queries_mono (.applies _ _) le_rfl (nil_subset _) h

theorem exists_fuel {α : Type} (items : List α) (query : α → Nat → Prop)
    (hmono : ∀ item n m, n ≤ m → query item n → query item m)
    (h : ∀ item ∈ items, ∃ n, query item n) : ∃ n, ∀ item ∈ items, query item n := by
  induction items with
  | nil => exact ⟨0, fun _ h => (not_mem_nil h).elim⟩
  | cons item items ih =>
    obtain ⟨n, hn⟩ := h item mem_cons_self
    obtain ⟨m, hm⟩ := ih fun other hother => h other (mem_cons_of_mem _ hother)
    refine ⟨max n m, fun other hother => ?_⟩
    rcases mem_cons.mp hother with rfl | hother
    · exact hmono _ _ _ (le_max_left _ _) hn
    · exact hmono _ _ _ (le_max_right _ _) (hm other hother)

/-- The target of a block that applies to a concrete type, with the arguments inferred from it,
accepts the type, and the arguments satisfy the constraints. -/
theorem Applies.accepts (hty : ty.Concrete)
    (h : Applies implementations genericTypes [] block ty) :
    ∃ arguments, Admits implementations genericTypes block arguments ∧
      inferSubstitutions block.target ty [] = some arguments ∧
      typesCompatible (substitute arguments block.target) ty = true := by
  obtain ⟨fuel, h⟩ := h
  cases fuel with
  | zero => simp [implementationApplies] at h
  | succ fuel =>
    obtain ⟨inferred, hinfer, hcompat, hconstrs⟩ := implementationApplies_succ.mp h
    have hinferred := inferSubstitutions_inferred _ _ hty hinfer
    refine ⟨inferred, fun generic constraints hmem => ?_, hinfer, hcompat⟩
    obtain ⟨argument, hlook, harg⟩ := hconstrs generic constraints hmem
    refine ⟨(hinferred.names _ _ hlook).resolve_right (by simp), argument, hlook,
      hinferred.concrete (by simp [ConcreteArguments]) _ _ hlook, fun constraint hmem =>
        ⟨fuel, harg constraint hmem⟩⟩

theorem Satisfied.applies (hty : ty.Concrete) (hreq : requirement ≠ "Copy")
    (h : Satisfied implementations genericTypes ty requirement) :
    ∃ block ∈ implementations, block.traitName = requirement ∧
      Applies implementations genericTypes [] block ty := by
  obtain ⟨fuel, h⟩ := h
  cases ty with
  | generic name => exact absurd hty not_concrete_generic
  | app con arguments =>
    cases fuel with
    | zero => simp [typeSatisfies] at h
    | succ fuel =>
      rcases typeSatisfies_app.mp h with ⟨hcopy, -⟩ | ⟨-, block, hmem, hname, h⟩
      · exact absurd hcopy hreq
      · exact ⟨block, hmem, hname, Applies.nil ⟨fuel, h⟩⟩

end Queries

/-! ## Coherence -/

/-- At most one block of a trait applies to a type, and a type that satisfies a constraint is
the target of a block of that trait, for some arguments of its generic names. -/
structure Coherent (implementations : List ImplInfo) (genericTypes : GenericTypes) : Prop where
  unique : ∀ {visiting : Visiting} {ty : Ty} {i j : Nat} {a b : ImplInfo}, ty.Concrete →
    implementations[i]? = some a → implementations[j]? = some b → a.traitName = b.traitName →
    Applies implementations genericTypes visiting a ty →
    Applies implementations genericTypes visiting b ty → i = j
  exact : ∀ {ty : Ty} {requirement : String}, ty.Concrete → requirement ≠ "Copy" →
    Satisfied implementations genericTypes ty requirement →
    ∃ block ∈ implementations, block.traitName = requirement ∧
      IsInstance implementations genericTypes block ty

/-- The target leaves no room for a narrower type: neither a constructor does, nor a generic name
that it mentions again. -/
def fixed (target : Ty) : Bool := target.steady && (target.revisited []).isEmpty

/-- A target with instances that the overlap test does not tell from those of others. -/
def loose (target : Ty) : Bool := !fixed target || target.hides

/-- The targets of all traits but `Copy` are fixed, and where one of two targets of a trait is
loose, they do not meet. -/
structure Discerning (implementations : List ImplInfo) : Prop where
  fixed : ∀ block ∈ implementations, block.traitName ≠ "Copy" → fixed block.target = true
  apart : ∀ {i j : Nat} {a b : ImplInfo}, implementations[i]? = some a →
    implementations[j]? = some b → a.traitName = b.traitName → i ≠ j →
    loose a.target = true ∨ loose b.target = true → ¬ a.target.meets true b.target

section Coherence

variable {implementations : List ImplInfo} {genericTypes : GenericTypes}

theorem eq_instance_of_fixed (hreg : Registered implementations) {block : ImplInfo}
    (hblock : block ∈ implementations) (hfixed : fixed block.target = true) (hty : ty.Concrete)
    {arguments : Substitutions} (hinfer : inferSubstitutions block.target ty [] = some arguments)
    (hcompat : typesCompatible (substitute arguments block.target) ty = true) :
    ty = substitute arguments block.target := by
  obtain ⟨hsteady, hrevisited⟩ : block.target.steady = true ∧ block.target.revisited [] = [] := by
    simpa [fixed] using hfixed
  exact eq_substitute_of_steady block.target ty (hreg.written block hblock) hty hsteady
    (fun _ _ hfound => by cases hfound) (fun _ _ hfound => by cases hfound) hinfer
    (fun _ _ hfound => hfound) hrevisited hcompat

theorem Registered.eq_of_instance (h : Registered implementations) {i j : Nat} {a b : ImplInfo}
    (ha : implementations[i]? = some a) (hb : implementations[j]? = some b)
    (hname : a.traitName = b.traitName) (hhides : a.target.hides = false)
    (hhides' : b.target.hides = false) {x y : Substitutions}
    (heq : substitute x a.target = substitute y b.target) : i = j := by
  obtain ⟨hi, rfl⟩ := List.getElem?_eq_some_iff.mp ha
  obtain ⟨hj, rfl⟩ := List.getElem?_eq_some_iff.mp hb
  have hapart := pairwise_iff_getElem.mp h.apart
  rcases Nat.lt_trichotomy i j with hlt | heq' | hlt
  · have hoverlap := overlap_of_instance _ _ hhides hhides' heq
    rw [hapart i j hi hj hlt hname] at hoverlap
    cases hoverlap
  · exact heq'
  · have hoverlap := overlap_of_instance _ _ hhides' hhides heq.symm
    rw [hapart j i hj hi hlt hname.symm] at hoverlap
    cases hoverlap

end Coherence

/-- A program with one trait, `Show`, and implementations of it without methods. -/
def showing (blocks : List (List String × TypeName)) : Program where
  structs := []
  enums := []
  traits := [⟨"Show", [], []⟩]
  implementations := blocks.map fun (generics, target) =>
    ⟨generics.map (⟨·, []⟩), some (.owned "Show" []), target, []⟩

end Disp.Dispatch
