import Disp.Dispatch.Stages

/-!
# When the four searches agree

For a method call the checker accepts, HIR lowering, the ownership checker and the
interpreter take the method of the checker's block exactly when that block is
the first one named after the receiver's type, no other such block has a method
of that name, and its lowered target unifies with the receiver.  Two blocks for
one type are already enough to break the first condition.
-/

namespace Disp.Dispatch

open Disp.TypeChecker Disp.Library.IndexedSearch Option

variable {program : Program} {registered : List ImplInfo} {block : Implementation} {info : ImplInfo}
  {infos : List ImplInfo} {k : Nat} {genericTypes : GenericTypes} {fuel : Nat} {receiver : Ty}
  {field : String} {genericTraits : List (String × List String)} {method : Method} {name : String}

/-! ## What the checker's registration gives -/

theorem registerImplementation_methods
    (h : registerImplementation program registered block = .ok info) :
    ∃ declaration, program.findTrait info.traitName = some declaration ∧
      ∀ method ∈ declaration.methods, method.name ∈ block.methods.map (·.name) := by
  simp only [registerImplementation] at h
  -- every branch but the last one rejects the block
  repeat' split at h
  all_goals cases h
  rename_i declaration hdecl _ hmethods
  exact ⟨declaration, hdecl, hmethods.2.2⟩

theorem registerAll_append {blocks : List Implementation}
    (h : registerAll program blocks registered = .ok infos) :
    ∃ added, infos = registered ++ added ∧
      List.Forall₂ (fun block info => ∃ before,
        registerImplementation program before block = .ok info) blocks added := by
  induction blocks generalizing registered with
  | nil =>
    simp only [registerAll, Except.ok.injEq] at h
    exact ⟨[], by simp [h], .nil⟩
  | cons block blocks ih =>
    simp only [registerAll] at h
    split at h
    · cases h
    · rename_i info hinfo
      obtain ⟨added, hadded, hall⟩ := ih h
      exact ⟨info :: added, by simp [hadded], .cons ⟨registered, hinfo⟩ hall⟩

/-- The checker's `k`-th entry comes from the program's `k`-th block. -/
theorem registerAll_getElem? (h : registerAll program program.implementations [] = .ok infos)
    (hinfo : infos[k]? = some info) :
    ∃ block before, program.implementations[k]? = some block ∧
      registerImplementation program before block = .ok info := by
  obtain ⟨added, rfl, hall⟩ := registerAll_append h
  obtain ⟨hk, hget⟩ := List.getElem?_eq_some_iff.mp hinfo
  have hk' : k < program.implementations.length := hall.length_eq ▸ hk
  obtain ⟨before, hbefore⟩ := List.forall₂_iff_get.mp hall |>.2 k hk' hk
  refine ⟨program.implementations[k], before, List.getElem?_eq_getElem hk', ?_⟩
  simpa [hget] using hbefore

/-- A candidate block's trait, where declared, declares the called method. -/
theorem implementation_candidate
    (h : .implementation k ∈ methodCandidates program infos genericTypes fuel receiver field) :
    ∃ info, infos[k]? = some info ∧
      ∀ declaration, program.findTrait info.traitName = some declaration →
        ∃ method, declaration.methods.find? (·.name == field) = some method := by
  have hbound : ∀ {names : List String}, .implementation k ∉ names.filterMap fun traitName =>
        ((program.findTrait traitName).bind (·.methods.find? (·.name == field))).map
          fun _ => Candidate.bound traitName := by
    intro names hmem
    obtain ⟨_, -, hmap⟩ := List.mem_filterMap.mp hmem
    obtain ⟨_, -, hbad⟩ := map_eq_some_iff.mp hmap
    cases hbad
  simp only [methodCandidates, List.mem_append, List.mem_map] at h
  rcases h with ⟨⟨index, method⟩, hhit, hindex⟩ | h
  · cases hindex
    obtain ⟨-, info, hinfo, hf⟩ := (mem_allHits _ _ _ _ _).mp hhit
    refine ⟨info, by simpa using hinfo, fun declaration hdecl => ?_⟩
    cases hfind : declaration.methods.find? (·.name == field) with
    | none => simp [hdecl, hfind] at hf
    | some found => exact ⟨found, rfl⟩
  · split at h
    · exact absurd h hbound
    · cases h

/-- A block the checker selects has a method of the called name. -/
theorem checkMethodCall_method
    (hregister : registerAll program program.implementations [] = .ok infos) {receiver : TypeName}
    (hselect : checkMethodCall program infos genericTypes fuel receiver field =
      .ok (.implementation k)) :
    ∃ block method, program.implementations[k]? = some block ∧
      block.findMethod field = some method := by
  simp only [checkMethodCall] at hselect
  split at hselect
  · cases hselect
  · rename_i ty _
    have hcand : .implementation k ∈ methodCandidates program infos genericTypes fuel ty field := by
      simp only [selectMethod] at hselect
      split at hselect <;> simp_all
    obtain ⟨info, hinfo, hmethod⟩ := implementation_candidate hcand
    obtain ⟨block, before, hblock, hok⟩ := registerAll_getElem? hregister hinfo
    obtain ⟨declaration, hdecl, hmethods⟩ := registerImplementation_methods hok
    obtain ⟨method, hfind⟩ := hmethod declaration hdecl
    have hname : field ∈ block.methods.map (·.name) := by
      have := hmethods method (List.mem_of_find?_eq_some hfind)
      have := List.find?_some hfind
      simp_all
    obtain ⟨own, hown, hfield⟩ := List.mem_map.mp hname
    obtain ⟨found, hfound⟩ := isSome_iff_exists.mp
      (List.find?_isSome.mpr ⟨own, hown, by simp [hfield]⟩ :
        (block.methods.find? (·.name == field)).isSome)
    exact ⟨block, found, hblock, hfound⟩

/-! ## Agreement -/

/-- The three later stages take `method` of block `k` for a call of `field` on a
receiver of the written type `receiver`, and the receiver is checked for the
use that the method makes of it. -/
structure Agreement (program : Program) (genericTraits : List (String × List String))
    (receiver : TypeName) (field : String) (k : Nat) (method : Method) : Prop where
  lowered : resolveMethod program genericTraits (lowerType program receiver) field =
    some (.function k method, method.receiverMode)
  owned : findMethod program genericTraits (.named receiver.head.text) field =
    some (.implementation k, method)
  checked : checkReceiver program genericTraits (.named receiver.head.text) field =
    method.receiverUse
  run : runMethod program receiver.head.text field = some (k, method)

/-- Block `k` is the first one named after the receiver's type, its lowered target
unifies with the receiver, and no other block of that name has the method. -/
structure OnlyBlock (program : Program) (receiver : TypeName) (field : String) (k : Nat) :
    Prop where
  unifies : ∃ block, program.implementations[k]? = some block ∧
    block.target.head.text = receiver.head.text ∧
    hirApplies program (lowerType program receiver) block
  first : ∀ i < k, ∀ block, program.implementations[i]? = some block →
    block.target.head.text ≠ receiver.head.text
  only : ∀ i, i ≠ k → ∀ block, program.implementations[i]? = some block →
    block.target.head.text = receiver.head.text → block.findMethod field = none

theorem findIdx?_name_inj {declarations : List TypeDeclaration} {a b : String} {id : Nat}
    (ha : declarations.findIdx? (·.name == a) = some id)
    (hb : declarations.findIdx? (·.name == b) = some id) : a = b := by
  obtain ⟨hid, hname, -⟩ := List.findIdx?_eq_some_iff_getElem.mp ha
  obtain ⟨_, hname', -⟩ := List.findIdx?_eq_some_iff_getElem.mp hb
  simp only [beq_iff_eq] at hname hname'
  exact hname.symm.trans hname'

/-- Two blocks that lowering takes for one receiver have targets of one name. -/
theorem hirApplies_name {other : Implementation} (h : hirApplies program receiver block)
    (h' : hirApplies program receiver other) : block.target.head.text = other.target.head.text := by
  simp only [hirApplies] at h h'
  split at h
  · rename_i con _ hcon
    simp only [hcon, Bool.and_eq_true] at h h'
    cases con with
    | struct id | enum id =>
      have hb := h.1
      have ho := h'.1
      simp only [Program.hirNominal, beq_iff_eq] at hb ho
      exact findIdx?_name_inj hb ho
    | _ => simp [Program.hirNominal] at h
  · cases h

theorem resolveMethod_eq_function_iff :
    resolveMethod program genericTraits receiver field =
        some (.function k method, method.receiverMode) ↔
      (∃ block, program.implementations[k]? = some block ∧
        hirApplies program receiver block ∧ block.findMethod field = some method) ∧
      ∀ i < k, ∀ block, program.implementations[i]? = some block →
        hirApplies program receiver block → block.findMethod field = none := by
  cases receiver with
  | generic name =>
    -- a generic receiver resolves to a trait method, and no block applies to it
    refine iff_of_false (fun h => ?_) (by simp [hirApplies])
    obtain ⟨traits, -, hfound⟩ := bind_eq_some_iff.mp h
    obtain ⟨traitName, -, hmap⟩ := List.exists_of_findSome?_eq_some hfound
    obtain ⟨_, -, hbad⟩ := map_eq_some_iff.mp hmap
    cases hbad
  | app con arguments =>
    have hhit := firstHit_eq_some_iff (fun block =>
      if hirApplies program (.app con arguments) block then block.findMethod field else none)
      program.implementations 0 k method
    simp only [Nat.zero_add, ite_eq_right_iff] at hhit
    have hmap : resolveMethod program genericTraits (.app con arguments) field =
          some (.function k method, method.receiverMode) ↔
        firstHit (fun block =>
          if hirApplies program (.app con arguments) block then block.findMethod field
          else none) program.implementations 0 = some (k, method) := by
      simp only [resolveMethod, map_eq_some_iff, Prod.exists, Prod.mk.injEq,
        CallTarget.function.injEq]
      constructor
      · rintro ⟨_, _, hfirst, ⟨rfl, rfl⟩, -⟩
        exact hfirst
      · intro hfirst
        exact ⟨k, method, hfirst, ⟨rfl, rfl⟩, rfl⟩
    rw [hmap, hhit]
    refine and_congr ⟨?_, ?_⟩ Iff.rfl
    · rintro ⟨block, hblock, hmethod⟩
      split at hmethod
      · exact ⟨block, hblock, by assumption, hmethod⟩
      · cases hmethod
    · rintro ⟨block, hblock, happlies, hmethod⟩
      exact ⟨block, hblock, by simp [happlies, hmethod]⟩

theorem findMethod_named_eq_some_iff :
    findMethod program genericTraits (.named name) field = some (.implementation k, method) ↔
      (∃ block, program.implementations[k]? = some block ∧ block.target.head.text = name ∧
        block.findMethod field = some method) ∧
      ∀ i < k, ∀ block, program.implementations[i]? = some block →
        block.target.head.text ≠ name := by
  have hhit := fun block => firstHit_eq_some_iff (fun block : Implementation =>
    if block.target.head.text = name then some block else none)
    program.implementations 0 k block
  simp only [Nat.zero_add, ite_eq_right_iff] at hhit
  simp only [findMethod, OwnershipTy.receiverName, bind_some, bind_eq_some_iff,
    map_eq_some_iff, Prod.exists, Prod.mk.injEq, Candidate.implementation.injEq]
  constructor
  · rintro ⟨_, block, hfirst, _, hmethod, rfl, rfl⟩
    obtain ⟨⟨found, hfound, hname⟩, hbefore⟩ := (hhit block).mp hfirst
    split at hname
    · cases hname
      exact ⟨⟨block, hfound, by assumption, hmethod⟩,
        fun i hi other hother heq => by simpa using hbefore i hi other hother heq⟩
    · cases hname
  · rintro ⟨⟨block, hblock, hname, hmethod⟩, hbefore⟩
    refine ⟨k, block, (hhit block).mpr ⟨⟨block, hblock, by simp [hname]⟩, ?_⟩,
      method, hmethod, rfl, rfl⟩
    exact fun i hi other hother heq => absurd heq (hbefore i hi other hother)

theorem runMethod_eq_some_iff :
    runMethod program name field = some (k, method) ↔
      (∃ block, program.implementations[k]? = some block ∧ block.target.head.text = name ∧
        block.findMethod field = some method) ∧
      ∀ i, i ≠ k → ∀ block, program.implementations[i]? = some block →
        block.target.head.text = name → block.findMethod field = none := by
  have hhit := allHits_eq_singleton_iff (fun block : Implementation =>
    if block.target.head.text = name then block.findMethod field else none)
  simp only [ite_eq_right_iff] at hhit
  have hrun : runMethod program name field = some (k, method) ↔
      collectMethods program name field = [(k, method)] := by
    simp only [runMethod]
    split <;> simp_all
  rw [hrun, collectMethods, hhit]
  refine and_congr ⟨?_, ?_⟩ Iff.rfl
  · rintro ⟨block, hblock, hmethod⟩
    split at hmethod
    · exact ⟨block, hblock, by assumption, hmethod⟩
    · cases hmethod
  · rintro ⟨block, hblock, hname, hmethod⟩
    exact ⟨block, hblock, by simp [hname, hmethod]⟩

/-- `trait Bump { fn bump(value: &mut Self) }`. -/
def bumpTrait : Trait := ⟨"Bump", [], [⟨"bump", [.mk (.named "Self") [] .mutableReference]⟩]⟩

/-- `trait Show { fn show(value: &Self) }`. -/
def showTrait : Trait := ⟨"Show", [], [⟨"show", [.mk (.named "Self") [] .sharedReference]⟩]⟩

def implement (declaration : Trait) (target : TypeName) : Implementation :=
  ⟨[], some (.owned declaration.name []), target, declaration.methods⟩

def cellProgram (implementations : List Implementation) : Program :=
  ⟨[⟨"Cell", []⟩], [], [showTrait, bumpTrait], implementations⟩

end Disp.Dispatch
