import Disp.Library.Frames
import Disp.TypeChecker.Types
import Mathlib.Data.List.Perm.Subperm

/-!
# Thread transfer

`type_is_send` follows the fields and payloads of structs and enums and counts one that
it is already inside of as transferable, whatever its arguments are.  What it decides is
a question about simple paths: paths from a type to the types it can hold that enter
each struct and enum at most once.  It is right about a type as far as what it skips is.
-/

namespace Disp.TypeChecker

open List

variable {con : Con} {arguments : List Ty} {visiting : List Con}

structure StructInfo where
  generics : List String
  fields : List (String × Ty)

structure EnumInfo where
  generics : List String
  variants : List (String × List Ty)

/-- The structs and enums of a program, by identity. -/
structure Declarations where
  structs : List (Nat × StructInfo)
  enums : List (Nat × EnumInfo)

namespace Declarations

/-- The types of the fields, or of all payloads, of an instance of a struct or enum. -/
def parts (declarations : Declarations) : Con → List Ty → Option (List Ty)
  | .struct id, arguments =>
    (declarations.structs.lookup id).map fun info =>
      info.fields.map fun field => substitute (info.generics.zip arguments) field.2
  | .enum id, arguments =>
    (declarations.enums.lookup id).map fun info =>
      (info.variants.flatMap Prod.snd).map (substitute (info.generics.zip arguments))
  | _, _ => none

def constructors (declarations : Declarations) : List Con :=
  declarations.structs.map (fun entry => .struct entry.1) ++
    declarations.enums.map fun entry => .enum entry.1

end Declarations

/-! ## The check -/

/-- The arms of `type_is_send`. -/
inductive Transfer
  | never
  | arguments
  | nominal
  | always
  deriving DecidableEq, Repr

def Con.transfer : Con → Transfer
  | .reference _ | .rawPointer _ | .memoryPointer _ | .mutexGuard | .slice | .str | .cStr
  | .secretBytes | .aeadEnvelope | .ed25519SigningKey | .function | .cFunction
  | .cRegistration | .infer => .never
  | .array _ | .list | .set | .option | .thread | .mutex | .channel | .map | .result =>
    .arguments
  | .struct _ | .enum _ => .nominal
  | _ => .always

mutual

def sendWith (nominal : Con → List Ty → Bool) : Ty → Bool
  | .generic _ => false
  | .app con arguments =>
    match con.transfer with
    | .never => false
    | .arguments => sendAll nominal arguments
    | .nominal => nominal con arguments
    | .always => true

def sendAll (nominal : Con → List Ty → Bool) : List Ty → Bool
  | [] => true
  | ty :: tys => sendWith nominal ty && sendAll nominal tys

end

/-- The struct and enum arms, inside of the types `visiting`.  The check enters every
declared type at most once, so it never runs out of as much fuel as there are
declarations; an identity that is not declared has no entry to index. -/
def sendNominal (declarations : Declarations) : Nat → List Con → Con → List Ty → Bool
  | 0, visiting, con, _ => visiting.contains con
  | fuel + 1, visiting, con, arguments =>
    visiting.contains con ||
      match declarations.parts con arguments with
      | none => false
      | some parts =>
        parts.all (sendWith (sendNominal declarations fuel (con :: visiting)))

/-- `type_is_send`, from no type visited. -/
def typeIsSend (declarations : Declarations) (ty : Ty) : Bool :=
  sendWith (sendNominal declarations declarations.constructors.length []) ty

/-! ## What a value can hold -/

def Con.holdsArguments (con : Con) : Bool :=
  decide (con.transfer = .arguments) || (con matches .slice | .future | .task)

def Ty.forbidden : Ty → Bool
  | .app (.reference _) _ | .app (.rawPointer _) _ | .app (.memoryPointer _) _
  | .app .mutexGuard _ | .app .function _ | .app .cFunction _ => true
  | _ => false

/-- A value of the first type can hold, at some depth, a value of the second. -/
inductive Reaches (declarations : Declarations) : Ty → Ty → Prop
  | here (ty : Ty) : Reaches declarations ty ty
  | argument {con : Con} {arguments : List Ty} {ty last : Ty}
      (hcon : con.holdsArguments = true) (hty : ty ∈ arguments)
      (hrest : Reaches declarations ty last) : Reaches declarations (.app con arguments) last
  | part {con : Con} {arguments parts : List Ty} {ty last : Ty}
      (hparts : declarations.parts con arguments = some parts) (hty : ty ∈ parts)
      (hrest : Reaches declarations ty last) : Reaches declarations (.app con arguments) last

/-- The paths that enter no struct or enum twice, nor one of `visiting`. -/
inductive Simple (declarations : Declarations) : List Con → Ty → Ty → Prop
  | here (visiting : List Con) (ty : Ty) : Simple declarations visiting ty ty
  | argument {visiting : List Con} {con : Con} {arguments : List Ty} {ty last : Ty}
      (hcon : con.transfer = .arguments) (hty : ty ∈ arguments)
      (hrest : Simple declarations visiting ty last) :
      Simple declarations visiting (.app con arguments) last
  | part {visiting : List Con} {con : Con} {arguments parts : List Ty} {ty last : Ty}
      (hnew : con ∉ visiting) (hparts : declarations.parts con arguments = some parts)
      (hty : ty ∈ parts) (hrest : Simple declarations (con :: visiting) ty last) :
      Simple declarations visiting (.app con arguments) last

/-- The types the check rejects wherever it meets them. -/
def Rejected (declarations : Declarations) : Ty → Prop
  | .generic _ => True
  | .app con arguments =>
    con.transfer = .never ∨
      (con.transfer = .nominal ∧ declarations.parts con arguments = none)

variable {declarations : Declarations}

theorem transfer_of_parts {parts : List Ty} (h : declarations.parts con arguments = some parts) :
    con.transfer = .nominal ∧ con ∈ declarations.constructors := by
  cases con with
  | struct id | enum id =>
    obtain ⟨info, hinfo, -⟩ := Option.map_eq_some_iff.mp h
    have hmem := Library.IndexedSearch.mem_of_lookup hinfo
    exact ⟨rfl, by simpa [Declarations.constructors] using ⟨info, hmem⟩⟩
  | _ => cases h

theorem parts_of_declared (h : con ∈ declarations.constructors) (arguments : List Ty) :
    ∃ parts, declarations.parts con arguments = some parts := by
  have hlook : ∀ {α : Type} {entries : List (Nat × α)} {entry : Nat × α},
      entry ∈ entries → ∃ info, entries.lookup entry.1 = some info := by
    intro α entries entry hentry
    cases hlook : entries.lookup entry.1 with
    | some info => exact ⟨info, rfl⟩
    | none =>
      have hne := lookup_eq_none_iff.mp hlook entry hentry
      simp at hne
  rcases mem_append.mp h with h | h
  all_goals
    obtain ⟨entry, hentry, rfl⟩ := mem_map.mp h
    obtain ⟨info, hinfo⟩ := hlook hentry
    exact ⟨_, congrArg (Option.map _) hinfo⟩

/-! ## What the check decides -/

/-- The visited types are declared, each once, and the fuel covers the others. -/
structure Fuelled (declarations : Declarations) (fuel : Nat) (visiting : List Con) : Prop where
  nodup : visiting.Nodup
  declared : ∀ con ∈ visiting, con ∈ declarations.constructors
  enough : declarations.constructors.length ≤ fuel + visiting.length

theorem Fuelled.cons {fuel : Nat} {visiting : List Con} {con : Con}
    (h : Fuelled declarations (fuel + 1) visiting) (hnew : con ∉ visiting)
    (hcon : con ∈ declarations.constructors) : Fuelled declarations fuel (con :: visiting) := by
  refine ⟨nodup_cons.mpr ⟨hnew, h.nodup⟩, ?_, ?_⟩
  · intro other hother
    rcases mem_cons.mp hother with rfl | hother
    · exact hcon
    · exact h.declared other hother
  · have henough := h.enough
    rw [length_cons]
    omega

theorem Fuelled.all_visited (h : Fuelled declarations 0 visiting)
    (hcon : con ∈ declarations.constructors) : con ∈ visiting := by
  have hsub : visiting.Subperm declarations.constructors :=
    subperm_of_subset h.nodup h.declared
  have henough := h.enough
  exact (hsub.perm_of_length_le (by omega)).mem_iff.mpr hcon

section Decides

variable {visiting : List Con} {nominal : Con → List Ty → Bool}

/-- The struct and enum arms are right about an instance. -/
def Decides (declarations : Declarations) (visiting : List Con)
    (nominal : Con → List Ty → Bool) : Prop :=
  ∀ con arguments, con.transfer = .nominal →
    (nominal con arguments = true ↔
      ∀ last, Simple declarations visiting (.app con arguments) last →
        ¬ Rejected declarations last)

mutual

theorem sendWith_iff (h : Decides declarations visiting nominal) (ty : Ty) :
    sendWith nominal ty = true ↔
      ∀ last, Simple declarations visiting ty last → ¬ Rejected declarations last := by
  match ty with
  | .generic name =>
    refine iff_of_false (by simp [sendWith]) fun hall => ?_
    exact hall _ (.here visiting (.generic name)) trivial
  | .app con arguments =>
    rw [sendWith]
    cases hcon : con.transfer with
    | never =>
      refine iff_of_false (by simp) fun hall => ?_
      exact hall _ (.here visiting _) (.inl hcon)
    | always =>
      refine iff_of_true rfl fun last hlast => ?_
      cases hlast with
      | here => simp [Rejected, hcon]
      | argument hcon' => rw [hcon] at hcon'; cases hcon'
      | part _ hparts =>
        rw [(transfer_of_parts hparts).1] at hcon
        cases hcon
    | nominal => exact h con arguments hcon
    | arguments =>
      rw [sendAll_iff h arguments]
      constructor
      · intro hall last hlast
        cases hlast with
        | here => simp [Rejected, hcon]
        | argument _ hty hrest => exact hall _ hty last hrest
        | part _ hparts =>
          rw [(transfer_of_parts hparts).1] at hcon
          cases hcon
      · intro hall ty hty last hlast
        exact hall last (.argument hcon hty hlast)

theorem sendAll_iff (h : Decides declarations visiting nominal) (tys : List Ty) :
    sendAll nominal tys = true ↔ ∀ ty ∈ tys,
      ∀ last, Simple declarations visiting ty last → ¬ Rejected declarations last := by
  match tys with
  | [] => simp [sendAll]
  | ty :: tys =>
    rw [sendAll, Bool.and_eq_true, sendWith_iff h ty, sendAll_iff h tys, forall_mem_cons]

end

end Decides

theorem not_rejected_of_visiting (hcon : con ∈ visiting)
    (hdecl : con ∈ declarations.constructors) {last : Ty}
    (h : Simple declarations visiting (.app con arguments) last) :
    ¬ Rejected declarations last := by
  obtain ⟨parts, hparts⟩ := parts_of_declared hdecl arguments
  have htransfer := (transfer_of_parts hparts).1
  cases h with
  | here => simp [Rejected, htransfer, hparts]
  | argument hcon' =>
    rw [htransfer] at hcon'
    cases hcon'
  | part hnew => exact absurd hcon hnew

theorem decides_sendNominal {fuel : Nat} (h : Fuelled declarations fuel visiting) :
    Decides declarations visiting (sendNominal declarations fuel visiting) := by
  induction fuel generalizing visiting with
  | zero =>
    intro con arguments hcon
    rw [sendNominal, contains_iff_mem]
    constructor
    · exact fun hmem last hlast =>
        not_rejected_of_visiting hmem (h.declared con hmem) hlast
    · intro hall
      by_contra hnew
      cases hparts : declarations.parts con arguments with
      | none => exact hall _ (.here visiting _) (.inr ⟨hcon, hparts⟩)
      | some parts => exact hnew (h.all_visited (transfer_of_parts hparts).2)
  | succ fuel ih =>
    intro con arguments hcon
    by_cases hmem : con ∈ visiting
    · refine iff_of_true ?_ fun last hlast =>
        not_rejected_of_visiting hmem (h.declared con hmem) hlast
      rw [sendNominal, contains_iff_mem.mpr hmem, Bool.true_or]
    · have hcontains : visiting.contains con = false := by
        rw [← Bool.not_eq_true, contains_iff_mem]
        exact hmem
      rw [sendNominal, hcontains, Bool.false_or]
      cases hparts : declarations.parts con arguments with
      | none =>
        refine iff_of_false (by simp) fun hall => ?_
        exact hall _ (.here visiting _) (.inr ⟨hcon, hparts⟩)
      | some parts =>
        have hbelow := ih (h.cons hmem (transfer_of_parts hparts).2)
        rw [all_eq_true]
        constructor
        · intro hall last hlast
          cases hlast with
          | here => simp [Rejected, hcon, hparts]
          | argument hcon' =>
            rw [hcon] at hcon'
            cases hcon'
          | part _ hparts' hty hrest =>
            rw [hparts] at hparts'
            cases hparts'
            exact (sendWith_iff hbelow _).mp (hall _ hty) last hrest
        · intro hall ty hty
          rw [sendWith_iff hbelow ty]
          exact fun last hlast => hall last (.part hmem hparts hty hlast)

/-- `type_is_send` accepts a type iff no simple path from it leads to a rejected one. -/
theorem typeIsSend_iff (ty : Ty) :
    typeIsSend declarations ty = true ↔
      ∀ last, Simple declarations [] ty last → ¬ Rejected declarations last := by
  have hfuelled : Fuelled declarations declarations.constructors.length [] :=
    ⟨nodup_nil, fun _ h => (not_mem_nil h).elim, by simp⟩
  exact sendWith_iff (decides_sendNominal hfuelled) ty

/-! ## What the check skips -/

/-- Inside of the instances `visiting`, the check of the first type comes to the second and does
not look into it: a struct or enum that it is inside of with other arguments, or what a
future or a task will hold. -/
inductive Skips (declarations : Declarations) : List (Con × List Ty) → Ty → Ty → Prop
  | again {visiting : List (Con × List Ty)} {con : Con} {arguments previous : List Ty}
      (hmem : (con, previous) ∈ visiting) (hother : previous ≠ arguments) :
      Skips declarations visiting (.app con arguments) (.app con arguments)
  | suspended {visiting : List (Con × List Ty)} {con : Con} {arguments : List Ty} {ty : Ty}
      (hcon : con = .future ∨ con = .task) (hty : ty ∈ arguments) :
      Skips declarations visiting (.app con arguments) ty
  | argument {visiting : List (Con × List Ty)} {con : Con} {arguments : List Ty} {ty skipped : Ty}
      (hcon : con.transfer = .arguments) (hty : ty ∈ arguments)
      (hrest : Skips declarations visiting ty skipped) :
      Skips declarations visiting (.app con arguments) skipped
  | part {visiting : List (Con × List Ty)} {con : Con} {arguments parts : List Ty}
      {ty skipped : Ty} (hnew : con ∉ visiting.map Prod.fst)
      (hparts : declarations.parts con arguments = some parts) (hty : ty ∈ parts)
      (hrest : Skips declarations ((con, arguments) :: visiting) ty skipped) :
      Skips declarations visiting (.app con arguments) skipped

/-- A value of the type can hold no reference, pointer, guard or closure. -/
def Clean (declarations : Declarations) (ty : Ty) : Prop :=
  ∀ last, Reaches declarations ty last → last.forbidden = false

/-- A type that must not be transferred is `steps` holdings away. -/
inductive Away (declarations : Declarations) : Nat → Ty → Prop
  | here {ty : Ty} (h : ty.forbidden = true) : Away declarations 0 ty
  | argument {steps : Nat} {con : Con} {arguments : List Ty} {ty : Ty}
      (hcon : con.holdsArguments = true) (hty : ty ∈ arguments)
      (hrest : Away declarations steps ty) : Away declarations (steps + 1) (.app con arguments)
  | part {steps : Nat} {con : Con} {arguments parts : List Ty} {ty : Ty}
      (hparts : declarations.parts con arguments = some parts) (hty : ty ∈ parts)
      (hrest : Away declarations steps ty) : Away declarations (steps + 1) (.app con arguments)

theorem not_clean_iff {ty : Ty} :
    ¬ Clean declarations ty ↔ ∃ steps, Away declarations steps ty := by
  constructor
  · intro h
    simp only [Clean, not_forall, Bool.not_eq_false] at h
    obtain ⟨last, hreaches, hforbidden⟩ := h
    induction hreaches with
    | here ty => exact ⟨0, .here hforbidden⟩
    | argument hcon hty _ ih =>
      obtain ⟨steps, haway⟩ := ih hforbidden
      exact ⟨steps + 1, .argument hcon hty haway⟩
    | part hparts hty _ ih =>
      obtain ⟨steps, haway⟩ := ih hforbidden
      exact ⟨steps + 1, .part hparts hty haway⟩
  · rintro ⟨steps, haway⟩ hclean
    induction haway with
    | here hforbidden =>
      rw [hclean _ (.here _)] at hforbidden
      cases hforbidden
    | argument hcon hty _ ih => exact ih fun last hlast => hclean last (.argument hcon hty hlast)
    | part hparts hty _ ih => exact ih fun last hlast => hclean last (.part hparts hty hlast)

theorem Skips.clean {visiting : List (Con × List Ty)} {ty skipped : Ty}
    (h : Skips declarations visiting ty skipped) (hclean : Clean declarations ty) :
    Clean declarations skipped := by
  induction h with
  | again => exact hclean
  | suspended hcon hty =>
    refine fun last hlast => hclean last (.argument ?_ hty hlast)
    rcases hcon with rfl | rfl <;> rfl
  | argument hcon hty _ ih =>
    refine ih fun last hlast => hclean last (.argument ?_ hty hlast)
    simp [Con.holdsArguments, hcon]
  | part _ hparts hty _ ih => exact ih fun last hlast => hclean last (.part hparts hty hlast)

theorem forbidden_rejected {ty : Ty} (h : ty.forbidden = true) : Rejected declarations ty := by
  unfold Ty.forbidden at h
  split at h
  all_goals first | exact .inl rfl | cases h

theorem holdsArguments_cases (h : con.holdsArguments = true) :
    con.transfer = .arguments ∨ con = .slice ∨ con = .future ∨ con = .task := by
  cases con with
  | slice => exact .inr (.inl rfl)
  | future => exact .inr (.inr (.inl rfl))
  | task => exact .inr (.inr (.inr rfl))
  | _ => first | exact .inl rfl | cases h

/-- A shortest way to a forbidden type comes through no instance twice, so the check follows it
to a type that it rejects, or skips a type on it. -/
theorem rejected_or_skipped {steps : Nat} {visiting : List (Con × List Ty)} {ty : Ty}
    (haway : Away declarations steps ty) (hshortest : ∀ fewer < steps, ¬ Away declarations fewer ty)
    (hvisiting : ∀ entry ∈ visiting, ∀ fewer ≤ steps,
      ¬ Away declarations fewer (.app entry.1 entry.2)) :
    (∃ last, Simple declarations (visiting.map Prod.fst) ty last ∧ Rejected declarations last) ∨
      ∃ skipped, Skips declarations visiting ty skipped ∧ ¬ Clean declarations skipped := by
  induction haway generalizing visiting with
  | here hforbidden => exact .inl ⟨_, .here _ _, forbidden_rejected hforbidden⟩
  | @argument steps con arguments ty hcon hty hrest ih =>
    obtain htransfer | rfl | hsuspended := holdsArguments_cases hcon
    · have hbelow := ih (fun fewer hlt haway => hshortest _ (by omega) (.argument hcon hty haway))
        (fun entry hentry fewer hle => hvisiting entry hentry fewer (by omega))
      obtain ⟨last, hsimple, hrejected⟩ | ⟨skipped, hskips, hunclean⟩ := hbelow
      · exact .inl ⟨last, .argument htransfer hty hsimple, hrejected⟩
      · exact .inr ⟨skipped, .argument htransfer hty hskips, hunclean⟩
    · exact .inl ⟨_, .here _ _, .inl rfl⟩
    · exact .inr ⟨ty, .suspended hsuspended hty, not_clean_iff.mpr ⟨steps, hrest⟩⟩
  | @part steps con arguments parts ty hparts hty hrest ih =>
    by_cases hnew : con ∈ visiting.map Prod.fst
    · obtain ⟨⟨_, previous⟩, hmem, rfl⟩ := List.mem_map.mp hnew
      refine .inr ⟨_, .again hmem ?_, not_clean_iff.mpr ⟨steps + 1, .part hparts hty hrest⟩⟩
      rintro rfl
      exact hvisiting _ hmem (steps + 1) le_rfl (.part hparts hty hrest)
    · have hbelow := @ih ((con, arguments) :: visiting)
        (fun fewer hlt haway => hshortest _ (by omega) (.part hparts hty haway)) ?_
      · obtain ⟨last, hsimple, hrejected⟩ | ⟨skipped, hskips, hunclean⟩ := hbelow
        · exact .inl ⟨last, .part hnew hparts hty hsimple, hrejected⟩
        · exact .inr ⟨skipped, .part hnew hparts hty hskips, hunclean⟩
      · intro entry hentry fewer hle
        obtain rfl | hentry := List.mem_cons.mp hentry
        · exact hshortest fewer (by omega)
        · exact hvisiting entry hentry fewer (by omega)

theorem skipped_of_not_clean {ty : Ty} (h : typeIsSend declarations ty = true)
    (hunclean : ¬ Clean declarations ty) :
    ∃ skipped, Skips declarations [] ty skipped ∧ ¬ Clean declarations skipped := by
  classical
  have hexists := not_clean_iff.mp hunclean
  have hfound := @rejected_or_skipped _ _ [] _ (Nat.find_spec hexists)
    (fun fewer hlt => Nat.find_min hexists hlt) nofun
  refine hfound.resolve_left ?_
  rintro ⟨last, hsimple, hrejected⟩
  exact (typeIsSend_iff ty).mp h last hsimple hrejected

/-- In particular a type is sound in which no struct or enum occurs inside of itself with other
arguments, and no future or task does. -/
theorem send_sound_of_uniform {ty : Ty} (h : typeIsSend declarations ty = true)
    (huniform : ∀ skipped, ¬ Skips declarations [] ty skipped) : Clean declarations ty := by
  by_contra hunclean
  obtain ⟨skipped, hskips, -⟩ := skipped_of_not_clean h hunclean
  exact huniform skipped hskips

/-- `struct Box<T> { value: T }`. -/
def boxed : Declarations where
  structs := [(0, ⟨["T"], [("value", .generic "T")]⟩)]
  enums := []

theorem box_parts (ty : Ty) : boxed.parts (.struct 0) [ty] = some [ty] := rfl

theorem box_of_int_clean : Clean boxed (.app (.struct 0) [.int]) := by
  rintro last (_ | ⟨⟨⟩⟩ | ⟨hparts, hty, hrest⟩)
  · rfl
  · cases (box_parts _).symm.trans hparts
    obtain rfl := mem_singleton.mp hty
    obtain _ | ⟨⟨⟩⟩ | ⟨⟨⟩⟩ := hrest
    rfl

end Disp.TypeChecker
