import Disp.TypeChecker.Types

/-!
# Matching a template against a concrete type

`infer_substitutions` reads the arguments of a template's generic names off a concrete
type, and `types_compatible` then compares the instantiated template with that type.
The comparison accepts narrower types, so the two may differ.  They are equal when the
template is steady: it has no constructor that accepts a narrower one, and every generic
name that it mentions again stands for a steady type.  They differ for some type otherwise.
-/

namespace Disp.TypeChecker

open List Option

variable {con : Con} {count : Nat} {c d : Con} {names : List String} {name : String} {xs : List Ty}
  {ys : List String} {a b : Substitutions} {ty : Ty} {arguments before : Substitutions}

/-! ## Written types -/

/-- The constructors that a written type can have. -/
def Con.written : Con → Bool
  | .signed width | .unsigned width => decide (width ∈ [8, 16, 32, 64, 128])
  | .intLiteral _ | .negativeIntLiteral _ | .floatLiteral | .associated _ | .infer
  | .unknown => false
  | _ => true

/-- The number of arguments of a built-in constructor. -/
def Con.takes (con : Con) (count : Nat) : Bool :=
  match con with
  | .struct _ | .enum _ | .function | .cFunction => true
  | .map | .result => count == 2
  | .array _ | .slice | .list | .set | .thread | .future | .task | .mutex | .mutexGuard
  | .channel | .reference _ | .rawPointer _ | .memoryPointer _ | .option => count == 1
  | _ => count == 0

mutual

def Ty.written (names : List String) : Ty → Bool
  | .generic name => decide (name ∈ names)
  | .app con arguments =>
    con.written && con.takes arguments.length && allWritten names arguments

def allWritten (names : List String) : List Ty → Bool
  | [] => true
  | x :: xs => x.written names && allWritten names xs

end

/-- A concrete type mentions no generic name. -/
abbrev Ty.Concrete (ty : Ty) : Prop := ty.written [] = true

mutual

/-- The generic names that a type mentions, in the order of `infer_substitutions`. -/
def Ty.generics : Ty → List String
  | .generic name => [name]
  | .app _ arguments => allGenerics arguments

def allGenerics : List Ty → List String
  | [] => []
  | x :: xs => x.generics ++ allGenerics xs

end

/-! ## Steady types -/

/-- A narrower constructor that `types_compatible` accepts, if there is one. -/
def Con.narrowed : Con → Option Con
  | .int => some (.signed 8)
  | .uint => some (.unsigned 8)
  | .signed width => if width ≤ 8 then none else some (.signed 8)
  | .unsigned width => if width ≤ 8 then none else some (.unsigned 8)
  | .float => some .float32
  | .str => some .string
  | .reference false => some (.reference true)
  | _ => none

def Con.compared (con : Con) : Bool := con.comparesArguments con

mutual

def Ty.steady : Ty → Bool
  | .generic _ => true
  | .app con arguments => con.narrowed.isNone && (!con.compared || allSteady arguments)

def allSteady : List Ty → Bool
  | [] => true
  | x :: xs => x.steady && allSteady xs

end

mutual

/-- The generic names that a template mentions again where a narrower type is accepted. -/
def Ty.revisited (seen : List String) : Ty → List String
  | .generic name => if name ∈ seen then [name] else []
  | .app con arguments => if con.compared then allRevisited seen arguments else []

def allRevisited (seen : List String) : List Ty → List String
  | [] => []
  | x :: xs => x.revisited seen ++ allRevisited (x.generics ++ seen) xs

end

/-! ## Constructors -/

theorem scalarCompatible_self (con : Con) :
    scalarCompatible con con = none ∨ scalarCompatible con con = some true := by
  cases con <;> simp [scalarCompatible]

theorem Con.infersArguments_compared (h : con.compared = true) :
    con.infersArguments con = true := by
  cases con <;> simp_all [Con.infersArguments, Con.compared]

theorem eq_of_scalarCompatible (hc : c.written = true) (hd : d.written = true)
    (hnone : c.narrowed = none) (h : scalarCompatible c d = some true) : d = c := by
  unfold scalarCompatible at h
  split at h <;> simp_all [Con.written, Con.narrowed] <;> omega

theorem eq_of_comparesArguments (hnone : c.narrowed = none) (h : c.comparesArguments d = true) :
    d = c := by
  unfold Con.comparesArguments at h
  split at h
  case h_1 expected actual => cases expected <;> simp_all [Con.narrowed]
  all_goals simp_all

/-- A type of the second constructor is accepted where one of the first is expected. -/
def Con.Admits (c d : Con) : Prop :=
  scalarCompatible c d = some true ∨
    scalarCompatible c d = none ∧ (c.comparesArguments d = true ∨ c = d)

theorem Con.Admits.eq (hc : c.written = true) (hd : d.written = true) (hnone : c.narrowed = none)
    (h : c.Admits d) : d = c := by
  obtain hscalar | ⟨-, hcompares | rfl⟩ := h
  · exact eq_of_scalarCompatible hc hd hnone hscalar
  · exact eq_of_comparesArguments hnone hcompares
  · rfl

theorem Con.Admits.compared_eq (h : c.Admits d) : c.compared = d.compared := by
  obtain hscalar | ⟨-, hcompares | rfl⟩ := h
  · unfold scalarCompatible at hscalar
    split at hscalar <;> first | rfl | cases hscalar
  · unfold Con.comparesArguments at hcompares
    split at hcompares <;> simp_all [Con.compared, Con.comparesArguments]
  · rfl

theorem compared_of_comparesArguments (h : c.comparesArguments d = true) : c.compared = true := by
  unfold Con.comparesArguments at h
  split at h <;> simp_all [Con.compared, Con.comparesArguments]

theorem takes_zero_of_scalar (h : scalarCompatible c d = some true) :
    (c.takes count = true → count = 0) ∧ (d.takes count = true → count = 0) := by
  unfold scalarCompatible at h
  split at h
  case h_18 => cases h
  all_goals simp [Con.takes]

/-! ## Compatibility -/

theorem written_app {arguments : List Ty} :
    (Ty.app con arguments).written names = true ↔
      con.written = true ∧ con.takes arguments.length = true ∧
        allWritten names arguments = true := by
  simp [Ty.written, and_assoc]

theorem not_concrete_generic : ¬ (Ty.generic name).Concrete := by
  simp [Ty.written]

theorem ne_infer_of_written (h : con.written = true) : con ≠ .infer := by
  rintro rfl
  cases h

theorem compatible_of_scalar {ys : List Ty} (h : scalarCompatible c d = some true) :
    typesCompatible (.app c xs) (.app d ys) = true := by
  rw [typesCompatible, h]
  split_ifs <;> rfl

theorem compatible_of_all {ys : List Ty} (hscalar : scalarCompatible c d = none)
    (hcompares : c.comparesArguments d = true) (hlen : xs.length = ys.length)
    (h : allCompatible xs ys = true) : typesCompatible (.app c xs) (.app d ys) = true := by
  rw [typesCompatible, hscalar]
  simp [hcompares, hlen, h]

theorem compatible_inv {ys : List Ty} (hc : c.written = true) (hcount : c.takes xs.length = true)
    (hd : (Ty.app d ys).Concrete) (h : typesCompatible (.app c xs) (.app d ys) = true) :
    c.Admits d ∧ xs.length = ys.length ∧ (c.compared = true → allCompatible xs ys = true) ∧
      (c.compared = false → xs = ys) := by
  obtain ⟨hd, hcount', -⟩ := written_app.mp hd
  rw [typesCompatible, if_neg (by simp [ne_infer_of_written hc, ne_infer_of_written hd])] at h
  cases hscalar : scalarCompatible c d with
  | some accepted =>
    rw [hscalar] at h
    obtain rfl : accepted = true := h
    have hzero {count : Nat} := @takes_zero_of_scalar count _ _ hscalar
    obtain rfl := length_eq_zero_iff.mp (hzero.1 hcount)
    obtain rfl := length_eq_zero_iff.mp (hzero.2 hcount')
    exact ⟨.inl hscalar, rfl, fun _ => rfl, fun _ => rfl⟩
  | none =>
    rw [hscalar] at h
    by_cases hcompares : c.comparesArguments d = true
    · have hadmits : c.Admits d := .inr ⟨hscalar, .inl hcompares⟩
      obtain ⟨hlen, hall⟩ : xs.length = ys.length ∧ allCompatible xs ys = true := by
        simpa [hcompares] using h
      refine ⟨hadmits, hlen, fun _ => hall, fun hnot => ?_⟩
      rw [compared_of_comparesArguments hcompares] at hnot
      cases hnot
    · obtain ⟨rfl, rfl⟩ : c = d ∧ xs = ys := by simpa [hcompares] using h
      exact ⟨.inr ⟨hscalar, .inr rfl⟩, rfl, fun hcmp => absurd hcmp hcompares, fun _ => rfl⟩

mutual

theorem compatible_refl (ty : Ty) : typesCompatible ty ty = true := by
  match ty with
  | .generic name => simp [typesCompatible]
  | .app con arguments =>
    rcases scalarCompatible_self con with hnone | hsome
    · by_cases hcmp : con.compared = true
      · exact compatible_of_all hnone hcmp rfl (allCompatible_refl arguments)
      · rw [typesCompatible, hnone]
        simp [show ¬ con.comparesArguments con = true from hcmp]
    · exact compatible_of_scalar hsome

theorem allCompatible_refl (tys : List Ty) : allCompatible tys tys = true := by
  match tys with
  | [] => rfl
  | x :: xs => simp [allCompatible, compatible_refl x, allCompatible_refl xs]

end

/-! ## Inferred arguments -/

/-- Every argument of the one is the argument of the other. -/
def Agrees (inferred arguments : Substitutions) : Prop :=
  ∀ name ty, inferred.lookup name = some ty → arguments.lookup name = some ty

/-- The inferred arguments are concrete types. -/
def ConcreteArguments (arguments : Substitutions) : Prop :=
  ∀ name ty, arguments.lookup name = some ty → ty.Concrete

/-- What matching a template adds to the arguments inferred before. -/
structure Inferred (names : List String) (before after : Substitutions) : Prop where
  agrees : Agrees before after
  names : ∀ name ty, after.lookup name = some ty → name ∈ names ∨ before.lookup name = some ty
  concrete : ConcreteArguments before → ConcreteArguments after

theorem Inferred.refl (names : List String) (arguments : Substitutions) :
    Inferred names arguments arguments :=
  ⟨fun _ _ h => h, fun _ _ h => .inr h, id⟩

theorem Inferred.trans {xs : List String} {c : Substitutions} (hab : Inferred xs a b)
    (hbc : Inferred ys b c) : Inferred (xs ++ ys) a c where
  agrees name ty h := hbc.agrees name ty (hab.agrees name ty h)
  names name ty h := by
    rcases hbc.names name ty h with hy | hb
    · exact .inl (mem_append_right _ hy)
    · exact (hab.names name ty hb).imp_left (mem_append_left _)
  concrete h := hbc.concrete (hab.concrete h)

theorem materializeLiteral_concrete (h : ty.Concrete) : materializeLiteral ty = ty := by
  unfold materializeLiteral
  split
  · cases h
  · cases h
  · cases h
  · rfl

theorem lookup_cons_ne {other : String} (h : other ≠ name) :
    List.lookup other ((name, ty) :: arguments) = arguments.lookup other := by
  rw [lookup_cons, beq_false_of_ne h]

theorem inferred_cons (hnone : before.lookup name = none) (hty : ty.Concrete) :
    Inferred [name] before ((name, ty) :: before) := by
  refine ⟨fun other found h => ?_, fun other found h => ?_, fun hbefore other found h => ?_⟩
  all_goals by_cases hother : other = name
  · subst hother
    rw [hnone] at h
    cases h
  · rwa [lookup_cons_ne hother]
  · exact .inl (by simp [hother])
  · rw [lookup_cons_ne hother] at h
    exact .inr h
  · subst hother
    rw [lookup_cons_self] at h
    cases h
    exact hty
  · rw [lookup_cons_ne hother] at h
    exact hbefore other found h

mutual

theorem inferSubstitutions_inferred (template actual : Ty) (hact : actual.Concrete)
    {before after : Substitutions} (h : inferSubstitutions template actual before = some after) :
    Inferred template.generics before after := by
  match template, actual with
  | .generic name, actual =>
    rw [inferSubstitutions] at h
    cases hfound : before.lookup name with
    | some previous =>
      rw [hfound] at h
      obtain rfl : before = after := by simpa using (ite_none_right_eq_some.mp h).2
      exact .refl _ _
    | none =>
      rw [hfound, materializeLiteral_concrete hact] at h
      cases h
      exact inferred_cons hfound hact
  | .app _ _, .generic _ => exact absurd hact not_concrete_generic
  | .app c xs, .app d ys =>
    rw [inferSubstitutions] at h
    split_ifs at h
    · exact inferAll_inferred xs ys (written_app.mp hact).2.2 h
    · cases h
      exact .refl _ _

theorem inferAll_inferred (templates actuals : List Ty) (hacts : allWritten [] actuals = true)
    {before after : Substitutions} (h : inferAll templates actuals before = some after) :
    Inferred (allGenerics templates) before after := by
  match templates, actuals with
  | [], _ | _ :: _, [] =>
    cases h
    exact .refl _ _
  | x :: xs, y :: ys =>
    simp only [allWritten, Bool.and_eq_true] at hacts
    obtain ⟨middle, hx, hxs⟩ := bind_eq_some_iff.mp h
    exact (inferSubstitutions_inferred x y hacts.1 hx).trans (inferAll_inferred xs ys hacts.2 hxs)

end

/-! ## Instances of a template -/

theorem length_substituteAll (arguments : Substitutions) (tys : List Ty) :
    (substituteAll arguments tys).length = tys.length := by
  induction tys with
  | nil => rfl
  | cons x xs ih => simp [substituteAll, ih]

theorem substitute_generic (h : arguments.lookup name = some ty) :
    substitute arguments (.generic name) = ty := by
  simp [substitute, h]

mutual

theorem substitute_of_no_generics (ty : Ty) (h : ty.generics = []) :
    substitute arguments ty = ty := by
  match ty with
  | .generic name => cases h
  | .app con xs => rw [substitute, substituteAll_of_no_generics xs h]

theorem substituteAll_of_no_generics (tys : List Ty) (h : allGenerics tys = []) :
    substituteAll arguments tys = tys := by
  match tys with
  | [] => rfl
  | x :: xs =>
    obtain ⟨hx, hxs⟩ := append_eq_nil_iff.mp h
    rw [substituteAll, substitute_of_no_generics x hx, substituteAll_of_no_generics xs hxs]

end

mutual

/-- A type that a steady template accepts is the instance that was inferred from it. -/
theorem eq_substitute_of_steady (template actual : Ty)
    (htmpl : template.written names = true) (hact : actual.Concrete)
    (hsteady : template.steady = true) {seen : List String} {before after : Substitutions}
    (hseen : ∀ name ty, before.lookup name = some ty → name ∈ seen)
    (hbefore : ConcreteArguments before)
    (hinfer : inferSubstitutions template actual before = some after)
    (hagrees : Agrees after arguments)
    (hrevisited : template.revisited seen = [])
    (h : typesCompatible (substitute arguments template) actual = true) :
    actual = substitute arguments template := by
  have hinferred := inferSubstitutions_inferred template actual hact hinfer
  match template, actual with
  | .generic name, actual =>
    rw [inferSubstitutions] at hinfer
    cases hfound : before.lookup name with
    | some previous => simp [Ty.revisited, hseen _ _ hfound] at hrevisited
    | none =>
      rw [hfound, materializeLiteral_concrete hact] at hinfer
      cases hinfer
      rw [substitute_generic (hagrees _ _ lookup_cons_self)]
  | .app _ _, .generic _ => exact absurd hact not_concrete_generic
  | .app c xs, .app d ys =>
    simp only [Ty.steady, Bool.and_eq_true, isNone_iff_eq_none] at hsteady
    obtain ⟨hc, hcount, hxs⟩ := written_app.mp htmpl
    rw [substitute] at h ⊢
    obtain ⟨hadmits, hlen, hopen, hclosed⟩ :=
      compatible_inv hc (by rwa [length_substituteAll]) hact h
    obtain rfl := hadmits.eq hc (written_app.mp hact).1 hsteady.1
    cases hcmp : d.compared with
    | false => rw [hclosed hcmp]
    | true =>
      rw [length_substituteAll] at hlen
      rw [inferSubstitutions, if_pos (by simp [Con.infersArguments_compared hcmp, hlen])]
        at hinfer
      rw [Ty.revisited, if_pos hcmp] at hrevisited
      rw [eq_substituteAll_of_steady xs ys hxs (written_app.mp hact).2.2
        (by simpa [hcmp] using hsteady.2) hseen hbefore hinfer hagrees hrevisited hlen
        (hopen hcmp)]

theorem eq_substituteAll_of_steady (templates actuals : List Ty)
    (htmpls : allWritten names templates = true) (hacts : allWritten [] actuals = true)
    (hsteady : allSteady templates = true) {seen : List String} {before after : Substitutions}
    (hseen : ∀ name ty, before.lookup name = some ty → name ∈ seen)
    (hbefore : ConcreteArguments before) (hinfer : inferAll templates actuals before = some after)
    (hagrees : Agrees after arguments) (hrevisited : allRevisited seen templates = [])
    (hlen : templates.length = actuals.length)
    (h : allCompatible (substituteAll arguments templates) actuals = true) :
    actuals = substituteAll arguments templates := by
  match templates, actuals with
  | [], [] => rfl
  | x :: xs, y :: ys =>
    simp only [allWritten, allSteady, substituteAll, allCompatible, allRevisited, append_eq_nil_iff,
      Bool.and_eq_true] at *
    obtain ⟨middle, hx, hxs⟩ := bind_eq_some_iff.mp hinfer
    have hfirst := inferSubstitutions_inferred x y hacts.1 hx
    have hrest := inferAll_inferred xs ys hacts.2 hxs
    have hseen' : ∀ name ty, middle.lookup name = some ty → name ∈ x.generics ++ seen := by
      intro name ty hfound
      rcases hfirst.names name ty hfound with hname | hfound
      · exact mem_append_left _ hname
      · exact mem_append_right _ (hseen name ty hfound)
    rw [eq_substitute_of_steady x y htmpls.1 hacts.1 hsteady.1 hseen hbefore hx
        (fun name ty hfound => hagrees name ty (hrest.agrees name ty hfound)) hrevisited.1 h.1,
      eq_substituteAll_of_steady xs ys htmpls.2 hacts.2 hsteady.2 hseen'
        (hfirst.concrete hbefore) hxs hagrees hrevisited.2 (by simpa using hlen) h.2]

end

/-! ## Overlap -/

mutual

/-- The type mentions a generic name where `types_overlap` compares by equality only. -/
def Ty.hides : Ty → Bool
  | .generic _ => false
  | .app con arguments =>
    if con.overlapsArguments con then anyHides arguments else !(allGenerics arguments).isEmpty

def anyHides : List Ty → Bool
  | [] => false
  | x :: xs => x.hides || anyHides xs

end

mutual

/-- Two templates with a common instance overlap, unless one hides a generic name. -/
theorem overlap_of_instance (left right : Ty) (hleft : left.hides = false)
    (hright : right.hides = false) (h : substitute a left = substitute b right) :
    typesOverlap left right = true := by
  match left, right with
  | .generic _, _ => rfl
  | .app _ _, .generic _ => rfl
  | .app c xs, .app d ys =>
    obtain ⟨rfl, hargs⟩ := Ty.app.inj h
    rw [typesOverlap]
    rw [Ty.hides] at hleft hright
    by_cases hoverlaps : c.overlapsArguments c = true
    · rw [if_pos hoverlaps] at hleft hright ⊢
      have hlen : xs.length = ys.length := by
        simpa [length_substituteAll] using congrArg List.length hargs
      simp [hlen, allOverlap_of_instance xs ys hleft hright hargs]
    · rw [if_neg hoverlaps] at hleft hright ⊢
      rw [substituteAll_of_no_generics xs (by simpa using hleft),
        substituteAll_of_no_generics ys (by simpa using hright)] at hargs
      simp [hargs]

theorem allOverlap_of_instance (lefts rights : List Ty)
    (hlefts : anyHides lefts = false) (hrights : anyHides rights = false)
    (h : substituteAll a lefts = substituteAll b rights) : allOverlap lefts rights = true := by
  match lefts, rights with
  | [], _ => rfl
  | _ :: _, [] => rfl
  | x :: xs, y :: ys =>
    simp only [anyHides, Bool.or_eq_false_iff] at hlefts hrights
    simp only [substituteAll, List.cons.injEq] at h
    simp [allOverlap, overlap_of_instance x y hlefts.1 hrights.1 h.1,
      allOverlap_of_instance xs ys hlefts.2 hrights.2 h.2]

end

/-! ## Targets that meet -/

mutual

/-- The templates may accept one type, as far as their constructors say: with widening, where
both admit a third constructor, and otherwise where they are the same. -/
def Ty.meets (widening : Bool) : Ty → Ty → Prop
  | .generic _, _ => True
  | .app _ _, .generic _ => True
  | .app c xs, .app d ys =>
    (if widening then ∃ e : Con, e.written = true ∧ c.Admits e ∧ d.Admits e else c = d) ∧
      xs.length = ys.length ∧ allMeet (widening && c.compared) xs ys

def allMeet (widening : Bool) : List Ty → List Ty → Prop
  | x :: xs, y :: ys => x.meets widening y ∧ allMeet widening xs ys
  | _, _ => True

end

mutual

theorem meets_of_instance (left right : Ty) (h : substitute a left = substitute b right) :
    left.meets false right := by
  match left, right with
  | .generic _, _ | .app _ _, .generic _ => simp [Ty.meets]
  | .app c xs, .app d ys =>
    obtain ⟨rfl, hargs⟩ := Ty.app.inj h
    have hlen : xs.length = ys.length := by
      simpa [length_substituteAll] using congrArg List.length hargs
    exact ⟨rfl, hlen, allMeet_of_instance xs ys hargs⟩

theorem allMeet_of_instance (lefts rights : List Ty)
    (h : substituteAll a lefts = substituteAll b rights) : allMeet false lefts rights := by
  match lefts, rights with
  | [], _ | _ :: _, [] => simp [allMeet]
  | x :: xs, y :: ys =>
    simp only [substituteAll, List.cons.injEq] at h
    exact ⟨meets_of_instance x y h.1, allMeet_of_instance xs ys h.2⟩

end

mutual

/-- Templates that accept one type meet. -/
theorem meets_of_compatible (left right ty : Ty) {names' : List String}
    (hleft : left.written names = true) (hright : right.written names' = true) (hty : ty.Concrete)
    (h : typesCompatible (substitute a left) ty = true)
    (h' : typesCompatible (substitute b right) ty = true) : left.meets true right := by
  match left, right, ty with
  | .generic _, _, _ | .app _ _, .generic _, _ => simp [Ty.meets]
  | .app _ _, .app _ _, .generic _ => exact absurd hty not_concrete_generic
  | .app c xs, .app d ys, .app e zs =>
    obtain ⟨hc, hcount, hxs⟩ := written_app.mp hleft
    obtain ⟨hd, hcount', hys⟩ := written_app.mp hright
    obtain ⟨he, -, hzs⟩ := written_app.mp hty
    obtain ⟨hadmits, hlen, hopen, hclosed⟩ :=
      compatible_inv hc (by rwa [length_substituteAll]) hty h
    obtain ⟨hadmits', hlen', hopen', hclosed'⟩ :=
      compatible_inv hd (by rwa [length_substituteAll]) hty h'
    rw [length_substituteAll] at hlen hlen'
    refine ⟨⟨e, he, hadmits, hadmits'⟩, hlen.trans hlen'.symm, ?_⟩
    have hcompared : d.compared = c.compared :=
      hadmits'.compared_eq.trans hadmits.compared_eq.symm
    cases hcmp : c.compared with
    | false =>
      rw [hcmp] at hcompared
      exact allMeet_of_instance xs ys ((hclosed hcmp).trans (hclosed' hcompared).symm)
    | true =>
      rw [hcmp] at hcompared
      exact allMeet_of_compatible xs ys zs hxs hys hzs (hopen hcmp) (hopen' hcompared) hlen hlen'

theorem allMeet_of_compatible (lefts rights tys : List Ty) {names' : List String}
    (hlefts : allWritten names lefts = true) (hrights : allWritten names' rights = true)
    (htys : allWritten [] tys = true)
    (h : allCompatible (substituteAll a lefts) tys = true)
    (h' : allCompatible (substituteAll b rights) tys = true) (hlen : lefts.length = tys.length)
    (hlen' : rights.length = tys.length) : allMeet true lefts rights := by
  match lefts, rights, tys with
  | [], _, _ | _ :: _, [], _ => simp [allMeet]
  | x :: xs, y :: ys, z :: zs =>
    simp only [allWritten, substituteAll, allCompatible, Bool.and_eq_true] at *
    exact ⟨meets_of_compatible x y z hlefts.1 hrights.1 htys.1 h.1 h'.1,
      allMeet_of_compatible xs ys zs hlefts.2 hrights.2 htys.2 h.2 h'.2 (by simpa using hlen)
        (by simpa using hlen')⟩

end

end Disp.TypeChecker
