import Disp.Ownership.Flow

/-!
# Monotonicity of the analysis

What the analysis knows of a variable after a statement depends, among flows it
accepts, only on what it knew of that variable before, and monotonically so.  This is
why two passes over the body of a loop reach a fixed point.
-/

namespace Disp.Ownership.Flow

open Disp.Library Disp.Library.Frames Option

variable {program : Program} {mode : UseMode} {name : String} {flow after : Flow} {ty : Ty}
  {info : Info} {before : Flow} {head : Flow → Option Flow} {address : Nat × String} {a b c : Info}
  {value : Expr} {base left right : Flow} {body : List Statement} {opening : Flow → Option Flow}
  {entry : Flow}

/-! ## Inversion -/

theorem use_eq_some (h : use program mode name flow = some (ty, after)) :
    ∃ depth info, lookup name flow = some (depth, info) ∧ info.state = .initialized ∧
      ty = info.ty ∧
      after = if mode = .consume ∧ program.tyIsCopy info.ty = false then
        update name (Info.become .moved) flow else flow := by
  obtain ⟨⟨depth, info⟩, hlook, h⟩ := bind_eq_some_iff.mp h
  refine ⟨depth, info, hlook, ?_⟩
  dsimp only at h
  split_ifs at h with hstate hmove
  · cases h
    exact ⟨hstate, rfl, (if_pos hmove).symm⟩
  · cases h
    exact ⟨hstate, rfl, (if_neg hmove).symm⟩

theorem borrow_eq_some {mutable : Bool} {place : PlaceExpr}
    (h : expr program mode (.borrow mutable place) flow = some (ty, after)) :
    ∃ depth info, lookup place.root flow = some (depth, info) ∧ info.state = .initialized ∧
      ty = .reference info.ty mutable ∧ after = flow := by
  obtain ⟨⟨depth, info⟩, hlook, h⟩ := bind_eq_some_iff.mp h
  refine ⟨depth, info, hlook, ?_⟩
  dsimp only at h
  split_ifs at h with hstate
  cases h
  exact ⟨hstate, rfl, rfl⟩

theorem declare_eq_some (h : declare name info flow = some after) :
    flow ≠ [] ∧ after = Frames.declare name info flow ∧ after.tail = flow.tail := by
  unfold declare at h
  match flow with
  | [] => cases h
  | scope :: rest =>
    dsimp only at h
    split_ifs at h
    cases h
    exact ⟨List.cons_ne_nil _ _, rfl, rfl⟩

theorem twice_eq_some {body : Flow → Option Flow} (h : twice before head body = some after) :
    ∃ once entry again, body before = some once ∧
      head (join State.mergeLoopInit before once.tail) = some entry ∧
      body entry = some again ∧ after = join State.mergeLoopInit before again.tail := by
  obtain ⟨once, honce, h⟩ := bind_eq_some_iff.mp h
  obtain ⟨entry, hentry, h⟩ := bind_eq_some_iff.mp h
  obtain ⟨again, hagain, h⟩ := bind_eq_some_iff.mp h
  cases h
  exact ⟨once, entry, again, honce, hentry, hagain, rfl⟩

/-! ## What a statement keeps -/

/-- A variable keeps its type and, once set, is never unset. -/
def Kept (_ : Nat × String) (a b : Info) : Prop :=
  b.ty = a.ty ∧ (a.state ≠ .uninitialized → b.state ≠ .uninitialized)

theorem Kept.refl (address : Nat × String) (a : Info) : Kept address a a :=
  ⟨rfl, id⟩

theorem Kept.trans (h : Kept address a b) (h' : Kept address b c) : Kept address a c :=
  ⟨h'.1.trans h.1, fun ha => h'.2 (h.2 ha)⟩

/-- The outer scopes after a statement, in terms of those before. -/
structure Keeps (before after : Flow) : Prop where
  length : after.length = before.length
  tail : Rel Kept before.tail after.tail

theorem Keeps.of_rel (h : Rel Kept before after) : Keeps before after :=
  ⟨h.length_eq.symm, h.tail⟩

theorem Keeps.trans {middle : Flow} (h : Keeps before middle) (h' : Keeps middle after) :
    Keeps before after :=
  ⟨h'.length.trans h.length, h.tail.trans h'.tail fun _ _ _ _ => Kept.trans⟩

theorem rel_refl (flow : Flow) : Rel Kept flow flow :=
  Rel.refl Kept.refl flow

theorem rel_trans {middle : Flow} (h : Rel Kept before middle) (h' : Rel Kept middle after) :
    Rel Kept before after :=
  h.trans h' fun _ _ _ _ => Kept.trans

theorem rel_use (h : use program mode name flow = some (ty, after)) : Rel Kept flow after := by
  obtain ⟨depth, info, -, -, -, rfl⟩ := use_eq_some h
  have hrefl := rel_refl flow
  split_ifs
  · exact hrefl.update_right name fun _ _ _ hkept => ⟨hkept.1, fun _ => InitState.noConfusion⟩
  · exact hrefl

theorem rel_expr (h : expr program mode value flow = some (ty, after)) : Rel Kept flow after := by
  cases value with
  | value valueTy =>
    cases h
    exact rel_refl flow
  | use place | move place => exact rel_use h
  | borrow mutable place =>
    obtain ⟨depth, info, -, -, -, rfl⟩ := borrow_eq_some h
    exact rel_refl after

theorem keeps_declare (h : declare name info flow = some after) : Keeps flow after := by
  obtain ⟨hne, rfl, htail⟩ := declare_eq_some h
  refine ⟨?_, htail ▸ rel_refl _⟩
  cases flow with
  | nil => exact absurd rfl hne
  | cons scope rest => rfl

theorem keeps_bind {annotated : Option Ty} {value : Option Expr}
    (h : bind program name annotated value flow = some after) : Keeps flow after := by
  cases value with
  | none => exact keeps_declare h
  | some value =>
    obtain ⟨⟨ty, middle⟩, hexpr, h⟩ := bind_eq_some_iff.mp h
    exact (Keeps.of_rel (rel_expr hexpr)).trans (keeps_declare h)

theorem rel_set (h : set program name value flow = some after) : Rel Kept flow after := by
  obtain ⟨⟨ty, middle⟩, hexpr, h⟩ := bind_eq_some_iff.mp h
  cases h
  exact (rel_expr hexpr).update_right name fun _ _ _ hkept =>
    ⟨hkept.1, fun _ => InitState.noConfusion⟩

theorem keeps_assign (h : assign program name value flow = some after) : Keeps flow after := by
  unfold assign at h
  cases hlookup : Frames.lookup name flow with
  | none =>
    rw [hlookup] at h
    exact keeps_bind h
  | some found =>
    rw [hlookup] at h
    exact Keeps.of_rel (rel_set h)

variable {f : InitState → InitState → InitState}

theorem rel_join {R S T : Nat × String → Info → Info → Prop} (hleft : Rel R base left)
    (hright : Rel S base right)
    (hT : ∀ address a b c, R address a b → S address a c → T address a ⟨b.ty, f b.state c.state⟩) :
    Rel T base (join f left right) := by
  have hnames : names left = names right := hleft.names.symm.trans hright.names
  refine ⟨hleft.names.trans (names_zipWith hnames).symm, fun address a d ha hd => ?_⟩
  obtain ⟨b, hb, hab⟩ := hleft.get_some ha
  obtain ⟨c, hc, hac⟩ := hright.get_some ha
  unfold join at hd
  rw [get_zipWith hnames, hb, hc] at hd
  cases hd
  exact hT address a b c hab hac

/-- A join of set states that is set keeps what both paths keep. -/
theorem Kept.join (hf : ∀ x y, x ≠ .uninitialized → y ≠ .uninitialized → f x y ≠ .uninitialized)
    (h : Kept address a b) (h' : Kept address a c) : Kept address a ⟨b.ty, f b.state c.state⟩ :=
  ⟨h.1, fun ha => hf _ _ (h.2 ha) (h'.2 ha)⟩

theorem mergeInit_ne_uninitialized (x y : InitState) (hx : x ≠ .uninitialized)
    (hy : y ≠ .uninitialized) : State.mergeInit x y ≠ .uninitialized := by
  cases x <;> cases y <;> simp_all [State.mergeInit]

theorem mergeLoopInit_ne_uninitialized (x y : InitState) (hx : x ≠ .uninitialized)
    (hy : y ≠ .uninitialized) : State.mergeLoopInit x y ≠ .uninitialized := by
  cases x <;> cases y <;> simp_all [State.mergeLoopInit]

/-- Opening the scope of a pass leaves the other scopes alone. -/
def Opens (opening : Flow → Option Flow) : Prop :=
  ∀ flow opened, opening flow = some opened → ∃ scope, opened = scope :: flow

theorem opens_enter : Opens enter := by
  intro flow opened h
  cases h
  exact ⟨[], rfl⟩

theorem opens_range (name : String) : Opens (range name) := by
  intro flow opened h
  obtain ⟨-, rfl, -⟩ := declare_eq_some h
  exact ⟨_, rfl⟩

theorem opens_item (name : String) (element : Ty) : Opens (item program name element) := by
  intro flow opened h
  obtain ⟨-, rfl, -⟩ := declare_eq_some h
  exact ⟨_, rfl⟩

theorem rel_round (hopening : Opens opening)
    (hbody : ∀ flow after, contents program body flow = some after → Keeps flow after)
    (h : (opening flow).bind (contents program body) = some after) : Rel Kept flow after.tail := by
  obtain ⟨opened, hopened, h⟩ := bind_eq_some_iff.mp h
  obtain ⟨scope, rfl⟩ := hopening flow opened hopened
  exact (hbody (scope :: flow) after h).tail

section

variable (hhead : ∀ flow after, head flow = some after → Rel Kept flow after)
  (hopening : Opens opening)
  (hbody : ∀ flow after, contents program body flow = some after → Keeps flow after)

include hhead hopening hbody

theorem rel_again {once again : Flow}
    (honce : (opening before).bind (contents program body) = some once)
    (hentry : head (join State.mergeLoopInit before once.tail) = some entry)
    (hagain : (opening entry).bind (contents program body) = some again) :
    Rel Kept before again.tail := by
  have hjoin := rel_join (rel_refl before) (rel_round hopening hbody honce)
    fun _ _ _ _ => Kept.join mergeLoopInit_ne_uninitialized
  exact rel_trans (rel_trans hjoin (hhead _ _ hentry)) (rel_round hopening hbody hagain)

theorem rel_twice
    (h : twice before head (fun flow => (opening flow).bind (contents program body)) = some after) :
    Rel Kept before after := by
  obtain ⟨once, entry, again, honce, hentry, hagain, rfl⟩ := twice_eq_some h
  exact rel_join (rel_refl before) (rel_again hhead hopening hbody honce hentry hagain)
    fun _ _ _ _ => Kept.join mergeLoopInit_ne_uninitialized

end

theorem rel_some (flow after : Flow) (h : some flow = some after) : Rel Kept flow after := by
  cases h
  exact rel_refl flow

theorem rel_condition {condition : Expr} (flow after : Flow)
    (h : (expr program .read condition flow).map Prod.snd = some after) : Rel Kept flow after := by
  obtain ⟨⟨ty, _⟩, hexpr, rfl⟩ := map_eq_some_iff.mp h
  exact rel_expr hexpr

mutual

theorem keeps_statement (statement : Statement) {flow after : Flow}
    (h : Flow.statement program statement flow = some after) : Keeps flow after := by
  match statement with
  | .binding _ _ _ _ => exact keeps_bind h
  | .assignment _ _ => exact keeps_assign h
  | .placeAssignment target value =>
    obtain ⟨_, -, h⟩ := bind_eq_some_iff.mp h
    exact Keeps.of_rel (rel_set h)
  | .expression value | .returns (some value) =>
    obtain ⟨⟨ty, middle⟩, hexpr, h⟩ := bind_eq_some_iff.mp h
    cases h
    exact Keeps.of_rel (rel_expr hexpr)
  | .returns none | .breaks | .continues =>
    cases h
    exact Keeps.of_rel (rel_refl flow)
  | .ifElse condition thenBranch elseBranch =>
    obtain ⟨⟨ty, middle⟩, hexpr, h⟩ := bind_eq_some_iff.mp h
    obtain ⟨thenFlow, hthen, h⟩ := bind_eq_some_iff.mp h
    obtain ⟨elseFlow, helse, h⟩ := bind_eq_some_iff.mp h
    cases h
    have hjoin := rel_join (keeps_contents thenBranch hthen).tail
      (keeps_contents elseBranch helse).tail fun _ _ _ _ => Kept.join mergeInit_ne_uninitialized
    exact Keeps.of_rel (rel_trans (rel_expr hexpr) hjoin)
  | .whileLoop condition body =>
    obtain ⟨⟨ty, before⟩, hexpr, h⟩ := bind_eq_some_iff.mp h
    have hloop := rel_twice rel_condition opens_enter (fun _ _ => keeps_contents body) h
    exact Keeps.of_rel (rel_trans (rel_expr hexpr) hloop)
  | .forRange name first last body =>
    obtain ⟨⟨firstTy, middle⟩, hfirst, h⟩ := bind_eq_some_iff.mp h
    obtain ⟨⟨lastTy, before⟩, hlast, h⟩ := bind_eq_some_iff.mp h
    have hloop := rel_twice rel_some (opens_range name) (fun _ _ => keeps_contents body) h
    exact Keeps.of_rel (rel_trans (rel_trans (rel_expr hfirst) (rel_expr hlast)) hloop)
  | .forEach name iterable body =>
    obtain ⟨⟨ty, before⟩, huse, h⟩ := bind_eq_some_iff.mp h
    obtain ⟨element, -, h⟩ := bind_eq_some_iff.mp h
    have hloop := rel_twice rel_some (opens_item name element) (fun _ _ => keeps_contents body) h
    exact Keeps.of_rel (rel_trans (rel_use huse) hloop)
  | .loop body =>
    exact Keeps.of_rel (rel_twice rel_some opens_enter (fun _ _ => keeps_contents body) h)

theorem keeps_contents (statements : List Statement) {flow after : Flow}
    (h : contents program statements flow = some after) : Keeps flow after := by
  match statements with
  | [] =>
    cases h
    exact Keeps.of_rel (rel_refl flow)
  | statement :: statements =>
    obtain ⟨middle, hfirst, hrest⟩ := bind_eq_some_iff.mp h
    exact (keeps_statement statement hfirst).trans (keeps_contents statements hrest)

end

/-! ## Monotonicity -/

/-- Among the addresses `P`, a variable known to hold a value on the left is known to on
the right. -/
def Below (P : Nat × String → Prop) (address : Nat × String) (a b : Info) : Prop :=
  b.ty = a.ty ∧ (P address → a.state = .initialized → b.state = .initialized)

/-- Two flows that a step accepts stay related. -/
def Monotone (step : Flow → Option Flow) : Prop :=
  ∀ ⦃P : Nat × String → Prop⦄ ⦃flow flow' after after' : Flow⦄, Rel (Below P) flow flow' →
    step flow = some after → step flow' = some after' → Rel (Below P) after after'

/-- Two flows in which an evaluation succeeds give one value and stay related. -/
def MonotoneEval {α : Type} (eval : Flow → Option (α × Flow)) : Prop :=
  ∀ ⦃P : Nat × String → Prop⦄ ⦃flow flow' : Flow⦄ ⦃result result' : α × Flow⦄,
    Rel (Below P) flow flow' → eval flow = some result → eval flow' = some result' →
    result'.1 = result.1 ∧ Rel (Below P) result.2 result'.2

section Rules

variable {α : Type}

theorem Monotone.bind {first second : Flow → Option Flow} (hfirst : Monotone first)
    (hsecond : Monotone second) : Monotone fun flow => (first flow).bind second := by
  intro P flow flow' after after' hrel h h'
  obtain ⟨middle, hmid, h⟩ := bind_eq_some_iff.mp h
  obtain ⟨middle', hmid', h'⟩ := bind_eq_some_iff.mp h'
  exact hsecond (hfirst hrel hmid hmid') h h'

theorem MonotoneEval.bind {eval : Flow → Option (α × Flow)} {next : α × Flow → Option Flow}
    (heval : MonotoneEval eval) (hnext : ∀ value, Monotone fun flow => next (value, flow)) :
    Monotone fun flow => (eval flow).bind next := by
  intro P flow flow' after after' hrel h h'
  obtain ⟨⟨value, middle⟩, hval, h⟩ := bind_eq_some_iff.mp h
  obtain ⟨⟨value', middle'⟩, hval', h'⟩ := bind_eq_some_iff.mp h'
  obtain ⟨rfl, hmid⟩ := heval hrel hval hval'
  exact hnext _ hmid h h'

/-- A step after a test that gives it nothing. -/
theorem Monotone.guarded {test : Flow → Option α} {step : Flow → Option Flow} (h : Monotone step) :
    Monotone fun flow => (test flow).bind fun _ => step flow := by
  intro P flow flow' after after' hrel hstep hstep'
  obtain ⟨-, -, hstep⟩ := bind_eq_some_iff.mp hstep
  obtain ⟨-, -, hstep'⟩ := bind_eq_some_iff.mp hstep'
  exact h hrel hstep hstep'

theorem Monotone.of_option {step : α → Flow → Option Flow} (h : ∀ value, Monotone (step value))
    (value : Option α) : Monotone fun flow => value.bind fun value => step value flow := by
  cases value with
  | none => exact fun _ _ _ _ _ _ h => nomatch h
  | some value => exact h value

theorem monotone_some : Monotone some := by
  intro P flow flow' after after' hrel h h'
  cases h
  cases h'
  exact hrel

end Rules

theorem monotone_use (mode : UseMode) (name : String) : MonotoneEval (use program mode name) := by
  rintro P flow flow' ⟨ty, after⟩ ⟨ty', after'⟩ hrel h h'
  obtain ⟨depth, info, hlook, -, rfl, rfl⟩ := use_eq_some h
  obtain ⟨depth', info', hlook', -, rfl, rfl⟩ := use_eq_some h'
  have hty := (hrel.of_lookup hlook hlook').1
  refine ⟨hty, ?_⟩
  dsimp only
  rw [hty]
  split_ifs
  · exact hrel.update name fun _ _ _ _ _ hbelow => ⟨hbelow.1, fun _ => InitState.noConfusion⟩
  · exact hrel

theorem monotone_expr (mode : UseMode) (value : Expr) : MonotoneEval (expr program mode value) := by
  cases value with
  | value valueTy =>
    intro P flow flow' result result' hrel h h'
    cases h
    cases h'
    exact ⟨rfl, hrel⟩
  | use place | move place => exact monotone_use _ _
  | borrow mutable place =>
    rintro P flow flow' ⟨ty, after⟩ ⟨ty', after'⟩ hrel h h'
    obtain ⟨depth, info, hlook, -, rfl, rfl⟩ := borrow_eq_some h
    obtain ⟨depth', info', hlook', -, rfl, rfl⟩ := borrow_eq_some h'
    exact ⟨congrArg (Ty.reference · mutable) (hrel.of_lookup hlook hlook').1, hrel⟩

theorem monotone_declare (name : String) (info : Info) : Monotone (declare name info) := by
  intro P flow flow' after after' hrel h h'
  obtain ⟨hne, rfl, -⟩ := declare_eq_some h
  obtain ⟨-, rfl, -⟩ := declare_eq_some h'
  exact hrel.declare hne ⟨rfl, fun _ => id⟩

theorem monotone_bind (name : String) (annotated : Option Ty) (value : Option Expr) :
    Monotone (bind program name annotated value) := by
  cases value with
  | none => exact monotone_declare name _
  | some value => exact (monotone_expr .consume value).bind fun _ => monotone_declare name _

theorem monotone_set (name : String) (value : Expr) : Monotone (set program name value) := by
  refine (monotone_expr .consume value).bind fun _ P flow flow' after after' hrel h h' => ?_
  cases h
  cases h'
  exact hrel.update name fun _ _ _ _ _ hbelow => ⟨hbelow.1, fun _ _ => rfl⟩

theorem monotone_assign (name : String) (value : Expr) : Monotone (assign program name value) := by
  intro P flow flow' after after' hrel h h'
  have hlook := lookup_of_names hrel.names name
  unfold assign at h h'
  cases hl : Frames.lookup name flow with
  | none =>
    have hl' : Frames.lookup name flow' = none := by
      rw [hl] at hlook
      exact map_eq_none_iff.mp hlook.symm
    rw [hl] at h
    rw [hl'] at h'
    exact monotone_bind name none (some value) hrel h h'
  | some found =>
    obtain ⟨found', hl', -⟩ := hrel.lookup hl
    rw [hl] at h
    rw [hl'] at h'
    exact monotone_set name value hrel h h'

section

variable {P : Nat × String → Prop}

/-- A join knows that a variable holds a value if both paths do. -/
theorem below_join {f : InitState → InitState → InitState} {K : Nat × String → Info → Info → Prop}
    {left' right' : Flow} (hK : Rel K left right) (hleft : Rel (Below P) left left')
    (hright : Rel (Below P) right right')
    (hf : ∀ address a b, K address a b → f a.state b.state = .initialized →
      a.state = .initialized ∧ b.state = .initialized)
    (hf' : f .initialized .initialized = .initialized) :
    Rel (Below P) (join f left right) (join f left' right') := by
  have hnames' : names left' = names right' :=
    hleft.names.symm.trans (hK.names.trans hright.names)
  refine ⟨?_, fun address c c' hc hc' => ?_⟩
  · exact (names_zipWith hK.names).trans (hleft.names.trans (names_zipWith hnames').symm)
  · unfold join at hc hc'
    rw [get_zipWith hK.names] at hc
    rw [get_zipWith hnames'] at hc'
    obtain ⟨a, b, ha, hb, rfl⟩ := map₂_eq_some_iff.mp hc
    obtain ⟨a', b', ha', hb', rfl⟩ := map₂_eq_some_iff.mp hc'
    obtain ⟨hty, ha⟩ := hleft.related address a a' ha ha'
    obtain ⟨-, hb⟩ := hright.related address b b' hb hb'
    refine ⟨hty, fun hP hstate => ?_⟩
    obtain ⟨hastate, hbstate⟩ := hf address a b (hK.related address a b ‹_› ‹_›) hstate
    rw [ha hP hastate, hb hP hbstate]
    exact hf'

theorem mergeInit_eq_initialized {a b : InitState}
    (h : State.mergeInit a b = .initialized) : a = .initialized ∧ b = .initialized := by
  cases a <;> cases b <;> simp_all [State.mergeInit]

theorem mergeLoopInit_eq_initialized (hkept : Kept address a b)
    (h : State.mergeLoopInit a.state b.state = .initialized) :
    a.state = .initialized ∧ b.state = .initialized := by
  have hset := hkept.2
  obtain ⟨aTy, aState⟩ := a
  obtain ⟨bTy, bState⟩ := b
  cases aState <;> cases bState <;> simp_all [State.mergeLoopInit]

end

theorem monotone_enter : Monotone enter := by
  intro P flow flow' after after' hrel h h'
  cases h
  cases h'
  exact hrel.push

theorem monotone_range (name : String) : Monotone (range name) :=
  fun _ _ _ _ _ hrel => monotone_declare name _ hrel.push

theorem monotone_item (name : String) (element : Ty) : Monotone (item program name element) :=
  fun _ _ _ _ _ hrel => monotone_declare name _ hrel.push

theorem monotone_observe (mode : UseMode) (value : Expr) :
    Monotone fun flow => (expr program mode value flow).map Prod.snd := by
  intro P flow flow' after after' hrel h h'
  obtain ⟨⟨ty, _⟩, hexpr, rfl⟩ := map_eq_some_iff.mp h
  obtain ⟨⟨ty', _⟩, hexpr', rfl⟩ := map_eq_some_iff.mp h'
  exact (monotone_expr mode value hrel hexpr hexpr').2

theorem Monotone.twice (hhead : Monotone head)
    (hkept : ∀ flow after, head flow = some after → Rel Kept flow after)
    (hopening : Monotone opening) (hopens : Opens opening)
    (hbody : Monotone (contents program body)) :
    Monotone fun before =>
      Flow.twice before head fun flow => (opening flow).bind (contents program body) := by
  intro P before before' after after' hrel h h'
  obtain ⟨once, entry, again, honce, hentry, hagain, rfl⟩ := twice_eq_some h
  obtain ⟨once', entry', again', honce', hentry', hagain', rfl⟩ := twice_eq_some h'
  have hround := hopening.bind hbody
  have hkeeps : ∀ flow after, contents program body flow = some after → Keeps flow after :=
    fun _ _ => keeps_contents body
  have hjoin := below_join (rel_round hopens hkeeps honce) hrel
    (hround hrel honce honce').tail (fun _ _ _ => mergeLoopInit_eq_initialized) rfl
  have hentered := hhead hjoin hentry hentry'
  exact below_join (rel_again hkept hopens hkeeps honce hentry hagain) hrel
    (hround hentered hagain hagain').tail (fun _ _ _ => mergeLoopInit_eq_initialized) rfl

mutual

theorem monotone_statement (statement : Statement) :
    Monotone (Flow.statement program statement) := by
  match statement with
  | .binding _ name annotated value => exact monotone_bind name annotated value
  | .assignment name value => exact monotone_assign name value
  | .placeAssignment target value => exact (monotone_set target.root value).guarded
  | .expression value | .returns (some value) =>
    exact (monotone_expr _ value).bind fun _ => monotone_some
  | .returns none | .breaks | .continues => exact monotone_some
  | .ifElse condition thenBranch elseBranch =>
    refine (monotone_expr .read condition).bind fun _ P flow flow' after after' hrel h h' => ?_
    obtain ⟨thenFlow, hthen, h⟩ := bind_eq_some_iff.mp h
    obtain ⟨elseFlow, helse, h⟩ := bind_eq_some_iff.mp h
    obtain ⟨thenFlow', hthen', h'⟩ := bind_eq_some_iff.mp h'
    obtain ⟨elseFlow', helse', h'⟩ := bind_eq_some_iff.mp h'
    cases h
    cases h'
    have hbranches : Rel (fun _ _ _ => True) thenFlow.tail elseFlow.tail :=
      (keeps_contents thenBranch hthen).tail.symm.trans
        (keeps_contents elseBranch helse).tail fun _ _ _ _ _ _ => trivial
    exact below_join hbranches (monotone_contents thenBranch hrel.push hthen hthen').tail
      (monotone_contents elseBranch hrel.push helse helse').tail
      (fun _ _ _ _ => mergeInit_eq_initialized) rfl
  | .whileLoop condition body =>
    exact (monotone_expr .read condition).bind fun _ =>
      (monotone_observe .read condition).twice rel_condition monotone_enter opens_enter
        (monotone_contents body)
  | .forRange name first last body =>
    exact (monotone_expr .read first).bind fun _ => (monotone_expr .read last).bind fun _ =>
      monotone_some.twice rel_some (monotone_range name) (opens_range name) (monotone_contents body)
  | .forEach name iterable body =>
    exact (monotone_use .read iterable.root).bind fun _ => .of_option (fun element =>
      monotone_some.twice rel_some (monotone_item name element) (opens_item name element)
        (monotone_contents body)) _
  | .loop body =>
    exact monotone_some.twice rel_some monotone_enter opens_enter (monotone_contents body)

theorem monotone_contents (statements : List Statement) :
    Monotone (contents program statements) := by
  match statements with
  | [] => exact monotone_some
  | statement :: statements =>
    exact (monotone_statement statement).bind (monotone_contents statements)

end

/-! ## Fixed points

The two passes over the body of a loop, from `before` and from the join of `before` with
the end of the first pass. -/

abbrev Under : Flow → Flow → Prop :=
  Rel (Below fun _ => True)

theorem Under.refl (flow : Flow) : Under flow flow :=
  Rel.refl (fun _ _ => ⟨rfl, fun _ => id⟩) flow

theorem under_join_left {last : Flow} (hkept : Rel Kept before last) :
    Under (join State.mergeLoopInit before last) before := by
  refine ⟨names_zipWith hkept.names, fun address c a hc ha => ?_⟩
  obtain ⟨b, hb, hkept'⟩ := hkept.get_some ha
  unfold join at hc
  rw [get_zipWith hkept.names, ha, hb] at hc
  cases hc
  exact ⟨rfl, fun _ hstate => (mergeLoopInit_eq_initialized hkept' hstate).1⟩

theorem under_mergeInit_left (hleft : Rel Kept base left) (hright : Rel Kept base right) :
    Under (join State.mergeInit left right) left := by
  have hnames : names left = names right := hleft.names.symm.trans hright.names
  refine ⟨names_zipWith hnames, fun address c a hc ha => ?_⟩
  unfold join at hc
  rw [get_zipWith hnames] at hc
  obtain ⟨a', b, ha', hb, rfl⟩ := map₂_eq_some_iff.mp hc
  rw [ha] at ha'
  cases ha'
  exact ⟨rfl, fun _ hstate => (mergeInit_eq_initialized hstate).1⟩

theorem under_mergeInit_right (hleft : Rel Kept base left) (hright : Rel Kept base right) :
    Under (join State.mergeInit left right) right := by
  have hnames : names left = names right := hleft.names.symm.trans hright.names
  refine ⟨(names_zipWith hnames).trans hnames, fun address c b hc hb => ?_⟩
  unfold join at hc
  rw [get_zipWith hnames] at hc
  obtain ⟨a, b', ha, hb', rfl⟩ := map₂_eq_some_iff.mp hc
  rw [hb] at hb'
  cases hb'
  obtain ⟨info, hinfo, hkept⟩ := hleft.symm.get_some ha
  have hkept' := hright.related address info b hinfo hb
  exact ⟨hkept'.1.trans hkept.1.symm, fun _ hstate => (mergeInit_eq_initialized hstate).2⟩

section FixedPoint

variable {before once again : Flow} {opening : Flow → Option Flow} {body : List Statement}

section

variable (hopening : Monotone opening) (hopens : Opens opening)
  (honce : (opening before).bind (contents program body) = some once)
  (hagain : (opening (join State.mergeLoopInit before once.tail)).bind (contents program body) =
    some again)

include hopening hopens honce hagain

/-- What holds at the start of every round is known again at its end. -/
theorem under_round : Under (join State.mergeLoopInit before once.tail) again.tail := by
  have hkept := rel_round hopens (fun _ _ => keeps_contents body) honce
  have hbelow := under_join_left hkept
  -- Only the variables known at the start of the round matter, and on those the first
  -- pass started with no more than the second.
  let known : Nat × String → Prop := fun address =>
    ∃ info, get (join State.mergeLoopInit before once.tail) address = some info ∧
      info.state = .initialized
  have hstart : Rel (Below known) before (join State.mergeLoopInit before once.tail) := by
    refine ⟨hbelow.names.symm, fun address a c ha hc => ?_⟩
    refine ⟨(hbelow.related address c a hc ha).1.symm, ?_⟩
    rintro ⟨info, hinfo, hstate⟩ -
    rw [hc] at hinfo
    cases hinfo
    exact hstate
  have hend := ((hopening.bind (monotone_contents body)) hstart honce hagain).tail
  have hjoined : names (join State.mergeLoopInit before once.tail) = names once.tail :=
    hbelow.names.trans hkept.names
  refine ⟨hjoined.trans hend.names, fun address c d hc hd => ?_⟩
  have hc' := hc
  unfold join at hc'
  rw [get_zipWith hkept.names] at hc'
  obtain ⟨a, b, ha, hb, rfl⟩ := map₂_eq_some_iff.mp hc'
  obtain ⟨hty, hstate⟩ := hend.related address b d hb hd
  have hab := hkept.related address a b ha hb
  refine ⟨hty.trans hab.1, fun _ hinit => ?_⟩
  exact hstate ⟨_, hc, hinit⟩ (mergeLoopInit_eq_initialized hab hinit).2

theorem under_exit : Under (join State.mergeLoopInit before again.tail)
      (join State.mergeLoopInit before once.tail) := by
  have hkeeps : ∀ flow after, contents program body flow = some after → Keeps flow after :=
    fun _ _ => keeps_contents body
  have hstart := under_join_left (rel_round hopens hkeeps honce)
  have hend := ((hopening.bind (monotone_contents body)) hstart hagain honce).tail
  exact below_join (rel_again rel_some hopens hkeeps honce rfl hagain) (Under.refl before)
    hend (fun _ _ _ => mergeLoopInit_eq_initialized) rfl

end

end FixedPoint

/-- A condition that is evaluated again where no more is known moves nothing. -/
theorem expr_again {ty' : Ty} (h : expr program mode value flow = some (ty, before))
    (hunder : Under entry before) (h' : expr program mode value entry = some (ty', after)) :
    before = flow ∧ after = entry := by
  have huse : ∀ {mode : UseMode} {name : String}, use program mode name flow = some (ty, before) →
      use program mode name entry = some (ty', after) → before = flow ∧ after = entry := by
    intro mode name h h'
    have hrel := rel_use h
    obtain ⟨depth, info, hlook, -, -, hbefore⟩ := use_eq_some h
    obtain ⟨depth', info', hlook', hstate', -, hafter⟩ := use_eq_some h'
    obtain ⟨found, hfound, hty, hstate⟩ := hunder.lookup hlook'
    obtain ⟨found', hfound', hkept⟩ := hrel.lookup hlook
    rw [hfound] at hfound'
    cases hfound'
    rw [← hty, hkept.1] at hafter
    by_cases hmove : mode = .consume ∧ program.tyIsCopy info.ty = false
    · rw [if_pos hmove] at hbefore
      have hget := get_lookup hfound
      rw [hbefore, get_update, if_pos ⟨by rw [hlook]; rfl, rfl⟩, get_lookup hlook] at hget
      cases hget
      cases hstate trivial hstate'
    · rw [if_neg hmove] at hbefore hafter
      exact ⟨hbefore, hafter⟩
  cases value with
  | value valueTy =>
    cases h
    cases h'
    exact ⟨rfl, rfl⟩
  | use place | move place => exact huse h h'
  | borrow mutable place =>
    obtain ⟨depth, info, -, -, -, rfl⟩ := borrow_eq_some h
    obtain ⟨depth', info', -, -, -, rfl⟩ := borrow_eq_some h'
    exact ⟨rfl, rfl⟩

end Disp.Ownership.Flow
