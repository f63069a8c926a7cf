import Disp.Ownership.Flow

/-!
# The checker computes definite initialization

Whenever the checker accepts a function over whole variables, forgetting its loans
and origins turns each of its steps into the one of the analysis.
-/

namespace Disp.Ownership

open Disp.Library List
open Disp.Library.Codec (bind_eq_ok)

variable {program : Program} {function : Function}

def infoOf : Option Slot → Info
  | some slot => ⟨slot.ty, slot.state⟩
  | none => ⟨.copy, .uninitialized⟩

namespace State

variable {before state after : State} {name : String} {depth : Nat} {ty : Ty}
  {mutable initialized : Bool} {origin : Option Place} {target : PlaceExpr} {mode : UseMode}
  {result : Unit} {e : Expr} {middle : State}

def view (state : State) : Flow :=
  Frames.map (fun id => infoOf (state.slots id)) state.scopes

theorem infoOf_eq_of_core {left right : Option Slot}
    (h : left.map Slot.core = right.map Slot.core) : infoOf left = infoOf right := by
  cases left with
  | none =>
    cases right with
    | none => rfl
    | some _ => cases h
  | some slot =>
    cases right with
    | none => cases h
    | some slot' =>
      have hcore : slot.core = slot'.core := Option.some.inj h
      have hty : slot.core.ty = slot'.core.ty := by rw [hcore]
      have hstate : slot.core.state = slot'.core.state := by rw [hcore]
      exact congrArg₂ Info.mk hty hstate

theorem view_sameCore (h : SameCore before after) : after.view = before.view := by
  unfold view
  rw [h.scopes]
  congr 1
  funext id
  exact infoOf_eq_of_core (h.slots id)

theorem lookup_view (state : State) (name : String) :
    Frames.lookup name state.view =
      (Frames.lookup name state.scopes).map
        (Prod.map id fun id => infoOf (state.slots id)) :=
  Frames.lookup_map _ name state.scopes

theorem view_pushScope (state : State) : state.pushScope.view = [] :: state.view := rfl

theorem view_popScope (h : state.Wf) : state.popScope.view = state.view.tail := by
  unfold State.popScope
  cases hscopes : state.scopes with
  | nil => simp [view, hscopes, Frames.map]
  | cons scope scopes =>
    have hdistinct := h.distinct
    rw [hscopes, values_cons, nodup_append'] at hdistinct
    have htail : state.view.tail = Frames.map (fun id => infoOf (state.slots id)) scopes := by
      simp [view, hscopes, Frames.map]
    rw [htail]
    apply Frames.map_congr
    intro id hid
    have hnot : (scope.map Prod.snd).contains id = false := by
      rw [← Bool.not_eq_true, contains_iff_mem]
      exact fun hin => hdistinct.2.2 hin hid
    simp only [hnot]
    rfl

variable {id : SlotId} {place : Place}

theorem view_setState (hwf : state.Wf) {slot : Slot}
    (hlook : Frames.lookup name state.scopes = some (depth, id))
    (hslot : state.slots id = some slot) (new : InitState) :
    (state.setSlot id { slot with state := new }).view =
      Frames.update name (Info.become new) state.view := by
  have hview : (fun other => infoOf ((state.setSlot id { slot with state := new }).slots other)) =
      Function.update (fun other => infoOf (state.slots other)) id ⟨slot.ty, new⟩ := by
    funext other
    by_cases heq : other = id
    · rw [heq, slots_setSlot_self, Function.update_self]
      rfl
    · rw [slots_setSlot_of_ne state _ heq, Function.update_of_ne heq]
  unfold view
  rw [hview]
  refine (Frames.map_update hlook hwf.distinct _).trans ?_
  apply Frames.update_congr
  · rw [Frames.lookup_map, hlook]
    rfl
  · simp [Info.become, hslot, infoOf]

theorem view_declare (hwf : state.Wf) {new : SlotId}
    (h : state.declare name ty mutable initialized origin = .ok (new, after)) :
    Flow.declare name ⟨ty, if initialized then .initialized else .uninitialized⟩ state.view =
      some after.view := by
  obtain ⟨scope, scopes, slot, hscopes, hlook, -, hty, hstate, rfl⟩ := declare_eq_ok h
  have hview : ∀ other ∈ Frames.values state.scopes,
      infoOf ((state.setSlot state.nextSlot slot).slots other) = infoOf (state.slots other) := by
    intro other hother
    rw [slots_setSlot_of_ne state slot (Nat.ne_of_lt (hwf.allocated other hother))]
  have hafter : Frames.map (fun id => infoOf ((state.setSlot state.nextSlot slot).slots id))
        (Frames.declare name state.nextSlot state.scopes) =
      Frames.declare name ⟨ty, if initialized then .initialized else .uninitialized⟩
        state.view := by
    rw [Frames.map_declare, Frames.map_congr hview, slots_setSlot_self]
    simp [infoOf, hty, hstate, view]
  have hcons : state.view = scope.map (Prod.map id fun id => infoOf (state.slots id)) ::
      Frames.map (fun id => infoOf (state.slots id)) scopes := by
    simp [view, hscopes, Frames.map]
  unfold Flow.declare
  rw [hcons]
  simp only [Frames.lookup_scope_map, hlook]
  rw [← hcons]
  exact congrArg some hafter.symm

/-! ## Expressions -/

/-- An accepted step: it leaves a well-formed state, and the analysis follows it. -/
structure Tracked (before after : State) (flow : Option Flow) : Prop where
  wf : after.Wf
  evolves : Evolves before after
  flow : flow = some after.view

theorem place_whole (hwhole : target.whole = true) (h : state.place target = .ok place) :
    ∃ depth id, Frames.lookup target.root state.scopes = some (depth, id) ∧ place = ⟨id, []⟩ := by
  have hfields : target.fields = [] := List.isEmpty_iff.mp hwhole
  unfold State.place State.lookup at h
  cases hlook : Frames.lookup target.root state.scopes with
  | none =>
    rw [hlook] at h
    cases h
  | some found =>
    rw [hlook, hfields] at h
    cases h
    exact ⟨found.1, found.2, rfl, rfl⟩

theorem usePlace_whole (h : state.usePlace program ⟨id, []⟩ mode = .ok (ty, after)) :
    ∃ slot, state.slots id = some slot ∧ slot.state = .initialized ∧ ty = slot.ty ∧
      after = if mode = .consume ∧ program.tyIsCopy slot.ty = false then
          state.setSlot id { slot with state := .moved }
        else state := by
  obtain ⟨slot, hslot, h⟩ := bind_eq_ok h
  obtain ⟨_, husable, h⟩ := bind_eq_ok h
  obtain ⟨-, -, h⟩ := bind_eq_ok h
  obtain ⟨ty', hty, h⟩ := bind_eq_ok h
  have hslot' := slot_eq_ok hslot
  have hstate : slot.state = .initialized := by
    unfold ensureUsable at husable
    cases hstate : slot.state with
    | initialized => rfl
    | uninitialized | moved | partially _ => rw [hstate] at husable; cases husable
  have hty' : ty' = slot.ty := by
    obtain ⟨slot', hslot'', hplace⟩ := bind_eq_ok hty
    rw [hslot] at hslot''
    cases hslot''
    exact (Except.ok.inj hplace).symm
  subst hty'
  split_ifs at h with hmoves
  · obtain ⟨middle, hmove, hres⟩ := bind_eq_ok h
    obtain ⟨-, -, hmove⟩ := bind_eq_ok hmove
    obtain ⟨-, -, hmove⟩ := bind_eq_ok hmove
    cases hmove
    cases hres
    exact ⟨slot, hslot', hstate, rfl, (if_pos hmoves).symm⟩
  · cases h
    exact ⟨slot, hslot', hstate, rfl, (if_neg hmoves).symm⟩

theorem tracked_use (hwf : state.Wf) (hlook : Frames.lookup name state.scopes = some (depth, id))
    (h : state.usePlace program ⟨id, []⟩ mode = .ok (ty, after)) :
    after.Wf ∧ Evolves state after ∧
      Flow.use program mode name state.view = some (ty, after.view) := by
  obtain ⟨slot, hslot, hstate, rfl, rfl⟩ := usePlace_whole h
  have hview : Frames.lookup name state.view = some (depth, ⟨slot.ty, .initialized⟩) := by
    rw [lookup_view, hlook, Option.map_some, Prod.map_apply, hslot, infoOf, hstate]
    rfl
  unfold Flow.use
  rw [hview]
  split_ifs with hmoves
  · refine ⟨hwf.setSlot id _, evolves_setState hslot .moved, ?_⟩
    rw [view_setState hwf hlook hslot]
    simp [hmoves]
  · refine ⟨hwf, Evolves.refl state, ?_⟩
    simp [hmoves]

theorem checkBorrow_whole (h : state.checkBorrow ⟨id, []⟩ mutable = .ok result) :
    ∃ slot, state.slots id = some slot ∧ slot.state = .initialized := by
  obtain ⟨slot, hslot, h⟩ := bind_eq_ok h
  obtain ⟨-, -, h⟩ := bind_eq_ok h
  obtain ⟨_, hinit, -⟩ := bind_eq_ok h
  refine ⟨slot, slot_eq_ok hslot, ?_⟩
  unfold ensureInitialized at hinit
  cases hstate : slot.state with
  | initialized => rfl
  | uninitialized | moved | partially _ => rw [hstate] at hinit; cases hinit

theorem lookup_of_borrow (hwhole : target.whole = true) (hplace : state.place target = .ok place)
    (hborrow : state.checkBorrow place mutable = .ok result)
    (hty : state.placeTy program place = .ok ty) :
    ∃ depth, Frames.lookup target.root state.view = some (depth, ⟨ty, .initialized⟩) := by
  obtain ⟨depth, id, hlook, rfl⟩ := place_whole hwhole hplace
  obtain ⟨slot, hslot, hstate⟩ := checkBorrow_whole hborrow
  obtain ⟨slot', hslot', hty'⟩ := bind_eq_ok hty
  have heq : slot' = slot := Option.some.inj ((slot_eq_ok hslot').symm.trans hslot)
  subst heq
  cases hty'
  refine ⟨depth, ?_⟩
  rw [lookup_view, hlook, Option.map_some, Prod.map_apply, hslot, infoOf, hstate]
  rfl

theorem scopes_checkExpr (hwhole : e.whole = true)
    (h : state.checkExpr program mode e = .ok (ty, after)) : after.scopes = state.scopes := by
  cases e with
  | value _ =>
    cases h
    rfl
  | use target | move target =>
    obtain ⟨place, hplace, h⟩ := bind_eq_ok h
    obtain ⟨depth, id, -, rfl⟩ := place_whole hwhole hplace
    obtain ⟨slot, -, -, -, rfl⟩ := usePlace_whole h
    split_ifs <;> rfl
  | borrow mutable target =>
    obtain ⟨place, -, h⟩ := bind_eq_ok h
    obtain ⟨_, -, h⟩ := bind_eq_ok h
    obtain ⟨inner, -, h⟩ := bind_eq_ok h
    cases h
    rfl

theorem tracked_expr (hwf : state.Wf) (hwhole : e.whole = true)
    (h : state.checkExpr program mode e = .ok (ty, after)) :
    after.Wf ∧ Evolves state after ∧
      Flow.expr program mode e state.view = some (ty, after.view) := by
  cases e with
  | value ty' =>
    cases h
    exact ⟨hwf, Evolves.refl state, rfl⟩
  | use target | move target =>
    obtain ⟨place, hplace, huse⟩ := bind_eq_ok h
    obtain ⟨depth, id, hlook, rfl⟩ := place_whole hwhole hplace
    exact tracked_use hwf hlook huse
  | borrow mutable target =>
    obtain ⟨place, hplace, h⟩ := bind_eq_ok h
    obtain ⟨_, hborrow, h⟩ := bind_eq_ok h
    obtain ⟨inner, hinner, h⟩ := bind_eq_ok h
    cases h
    obtain ⟨depth, hlook⟩ := lookup_of_borrow hwhole hplace hborrow hinner
    have hcore := sameCore_addLoan state place mutable none
    refine ⟨hwf.sameCore hcore, hcore.evolves, ?_⟩
    rw [view_sameCore hcore]
    simp [Flow.expr, hlook]

/-! ## Simple statements -/

theorem Tracked.ofEval {evaluated : Option (Ty × Flow)} {next : Ty × Flow → Option Flow}
    (heval : middle.Wf ∧ Evolves before middle ∧ evaluated = some (ty, middle.view))
    (h : Tracked middle after (next (ty, middle.view))) :
    Tracked before after (evaluated.bind next) := by
  obtain ⟨-, hevolves, rfl⟩ := heval
  exact ⟨h.wf, hevolves.trans h.evolves, h.flow⟩

theorem Tracked.sameCore {flow : Option Flow} (h : Tracked before middle flow)
    (hcore : SameCore middle after) : Tracked before after flow where
  wf := h.wf.sameCore hcore
  evolves := h.evolves.trans hcore.evolves
  flow := by rw [h.flow, view_sameCore hcore]

theorem tracked_declare (hwf : state.Wf)
    (h : state.declare name ty mutable initialized origin = .ok (id, after)) :
    Tracked state after
      (Flow.declare name ⟨ty, if initialized then .initialized else .uninitialized⟩
        state.view) :=
  ⟨hwf.declare h, evolves_declare h, view_declare hwf h⟩

section Statements

variable {program : Program} {state after : State} {index : Nat} {lastUses : String → Option Nat}
  {annotated : Option Ty} {value : Expr}

theorem tracked_bindBorrow (hwf : state.Wf) {borrowMutable : Bool} (hwhole : target.whole = true)
    (h : state.bindBorrow program mutable name annotated borrowMutable target index lastUses =
      .ok after) :
    Tracked state after
      (Flow.bind program name annotated (some (.borrow borrowMutable target)) state.view) := by
  obtain ⟨place, hplace, h⟩ := bind_eq_ok h
  obtain ⟨_, hborrow, h⟩ := bind_eq_ok h
  obtain ⟨inner, hinner, h⟩ := bind_eq_ok h
  obtain ⟨⟨id, declared⟩, hdeclare, h⟩ := bind_eq_ok h
  cases h
  obtain ⟨depth, hlook⟩ := lookup_of_borrow hwhole hplace hborrow hinner
  have htracked := tracked_declare hwf hdeclare
  have hbind : Flow.bind program name annotated (some (.borrow borrowMutable target)) state.view =
      Flow.declare name ⟨annotated.getD (.reference inner borrowMutable), .initialized⟩
        state.view := by
    simp [Flow.bind, Flow.expr, hlook]
  rw [hbind]
  exact (htracked.sameCore (sameCore_addLoan _ _ _ _)).sameCore (sameCore_releaseUnused _ _ _ _ _)

theorem tracked_bindValue (hwf : state.Wf) (hwhole : value.whole = true)
    (h : state.bindValue program mutable name annotated value index lastUses = .ok after) :
    Tracked state after (Flow.bind program name annotated (some value) state.view) := by
  obtain ⟨⟨ty, middle⟩, hexpr, h⟩ := bind_eq_ok h
  obtain ⟨⟨id, declared⟩, hdeclare, h⟩ := bind_eq_ok h
  have heval := tracked_expr hwf hwhole hexpr
  have hdecl : Tracked state declared (Flow.bind program name annotated (some value) state.view) :=
    .ofEval heval (tracked_declare heval.1 hdeclare)
  split_ifs at h
  · cases h
    exact hdecl
  · obtain ⟨attached, hattach, h⟩ := bind_eq_ok h
    cases h
    exact (hdecl.sameCore (sameCore_attachBorrowOrigins hattach)).sameCore
      (sameCore_releaseUnused _ _ _ _ _)

theorem tracked_binding (hwf : state.Wf) {value : Option Expr}
    (hwhole : value.all Expr.whole = true)
    (h : state.checkBinding program mutable name annotated value index lastUses = .ok after) :
    Tracked state after (Flow.bind program name annotated value state.view) := by
  cases value with
  | none =>
    obtain ⟨⟨id, declared⟩, hdeclare, h⟩ := bind_eq_ok h
    cases h
    exact tracked_declare hwf hdeclare
  | some value =>
    cases value with
    | borrow borrowMutable target => exact tracked_bindBorrow hwf hwhole h
    | value ty | use target | move target => exact tracked_bindValue hwf hwhole h

theorem sameCore_carryOrigins {place : Place} {slot : Slot} {origins : List Origin}
    (hslot : state.slots place.root = some slot)
    (h : state.carryOrigins place slot origins = .ok after) : SameCore state after := by
  unfold carryOrigins at h
  dsimp only at h
  generalize (if place.fields.isEmpty then [] else slot.borrowOrigins) ++ origins = carried at h
  split_ifs at h
  · cases h
    exact (sameCore_dropLoans state place.root).trans (sameCore_setSlot hslot rfl)
  · exact (sameCore_dropLoans state place.root).trans (sameCore_attachBorrowOrigins h)
  · cases h
    exact SameCore.refl state

theorem tracked_assignment (hwf : state.Wf) {id : SlotId}
    (hlook : Frames.lookup name state.scopes = some (depth, id)) (hwhole : value.whole = true)
    (h : state.checkAssignment program ⟨id, []⟩ value = .ok after) :
    Tracked state after (Flow.set program name value state.view) := by
  obtain ⟨_, -, h⟩ := bind_eq_ok h
  obtain ⟨_, -, h⟩ := bind_eq_ok h
  obtain ⟨_, -, h⟩ := bind_eq_ok h
  obtain ⟨⟨ty, middle⟩, hexpr, h⟩ := bind_eq_ok h
  obtain ⟨_, -, h⟩ := bind_eq_ok h
  obtain ⟨slot, hslot, h⟩ := bind_eq_ok h
  have hslot' := slot_eq_ok hslot
  obtain ⟨hmid, hevolves, hflow⟩ := tracked_expr hwf hwhole hexpr
  have hscopes : middle.scopes = state.scopes := scopes_checkExpr hwhole hexpr
  have hset : Tracked state (middle.setSlot id { slot with state := .initialized })
      (Flow.set program name value state.view) := by
    refine ⟨hmid.setSlot id _, hevolves.trans (evolves_setState hslot' .initialized), ?_⟩
    rw [view_setState hmid (hscopes ▸ hlook) hslot']
    simp [Flow.set, hflow]
  exact hset.sameCore (sameCore_carryOrigins (slots_setSlot_self _ _ _) h)

theorem tracked_nameAssignment (hwf : state.Wf) (hwhole : value.whole = true)
    (h : state.checkNameAssignment program name value index lastUses = .ok after) :
    Tracked state after (Flow.assign program name value state.view) := by
  unfold checkNameAssignment State.lookup at h
  unfold Flow.assign
  rw [lookup_view]
  cases hlook : Frames.lookup name state.scopes with
  | none =>
    rw [hlook] at h
    exact tracked_bindValue hwf hwhole h
  | some found =>
    rw [hlook] at h
    obtain ⟨assigned, hassign, h⟩ := bind_eq_ok h
    cases h
    exact (tracked_assignment hwf hlook hwhole hassign).sameCore (sameCore_dropLoans _ _)

theorem tracked_read (hwf : state.Wf) (hwhole : value.whole = true)
    (h : state.checkExpr program mode value = .ok (ty, after)) :
    Tracked state after ((Flow.expr program mode value state.view).map Prod.snd) := by
  obtain ⟨hafter, hevolves, hflow⟩ := tracked_expr hwf hwhole h
  exact ⟨hafter, hevolves, by rw [hflow]; rfl⟩

end Statements

/-! ## Branches and loops -/

theorem join_map (f : InitState → InitState → InitState) (left right : SlotId → Info)
    (scopes : Frames String SlotId) :
    Flow.join f (Frames.map left scopes) (Frames.map right scopes) =
      Frames.map (fun id => ⟨(left id).ty, f (left id).state (right id).state⟩) scopes := by
  unfold Flow.join Frames.zipWith Frames.map
  rw [zipWith_map, zipWith_self]
  congr 1
  funext scope
  rw [zipWith_map, zipWith_self]
  rfl

theorem view_mergeWith {join : InitState → InitState → InitState} {left right : State}
    (hwf : state.Wf) (hleft : Restores state left) (hright : Restores state right) :
    (mergeWith join state left right).view = Flow.join join left.view right.view := by
  have hview : ∀ other : State, Restores state other →
      other.view = Frames.map (fun id => infoOf (other.slots id)) state.scopes := by
    intro other hother
    unfold view
    rw [hother.scopes]
  rw [hview left hleft, hview right hright, join_map]
  apply Frames.map_congr
  intro id hid
  obtain ⟨slot, a, b, ha, hb, hmerged, hafixed, -⟩ := slots_mergeWith hwf hleft hright hid
  have hty : a.fixed.ty = slot.fixed.ty := by rw [hafixed]
  rw [hmerged, ha, hb]
  exact congrArg (Info.mk · _) hty.symm

/-- The checker's treatment of a loop, given its two passes over the body. -/
theorem tracked_loop {once entry again : State} (head body : Flow → Option Flow) (hwf : before.Wf)
    (honce : Tracked before.pushScope once (body before.view))
    (hentry : Tracked (before.mergeLoop before once.popScope) entry
      (head (before.mergeLoop before once.popScope).view)) (hscopes : entry.scopes = before.scopes)
    (hagain : Tracked entry.pushScope again (body entry.view)) :
    Tracked before (before.mergeLoop before again.popScope) (Flow.twice before.view head body) := by
  have hentered : Evolves before entry := evolves_mergeWith.trans hentry.evolves
  have hjoin : (before.mergeLoop before once.popScope).view =
      Flow.join mergeLoopInit before.view once.view.tail := by
    unfold mergeLoop
    rw [view_mergeWith hwf (Restores.refl before) honce.evolves.popScope, view_popScope honce.wf]
  have hres : (before.mergeLoop before again.popScope).view =
      Flow.join mergeLoopInit before.view again.view.tail := by
    unfold mergeLoop
    rw [view_mergeWith hwf (Restores.refl before)
      (hentered.restores hscopes hagain.evolves.popScope), view_popScope hagain.wf]
  have hhead := hentry.flow
  rw [hjoin] at hhead
  refine ⟨hwf.mergeWith, evolves_mergeWith, ?_⟩
  rw [hres]
  simp [Flow.twice, honce.flow, hhead, hagain.flow]

theorem Tracked.andThen {first : Option Flow} {second : Flow → Option Flow}
    (hfirst : Tracked before middle first) (hsecond : Tracked middle after (second middle.view)) :
    Tracked before after (first.bind second) := by
  refine ⟨hsecond.wf, hfirst.evolves.trans hsecond.evolves, ?_⟩
  rw [hfirst.flow, ← hsecond.flow]
  rfl

theorem tracked_openForRange (hwf : state.Wf) (h : state.openForRange name = .ok after) :
    Tracked state.pushScope after (Flow.range name state.view) := by
  obtain ⟨⟨id, declared⟩, hdeclare, h⟩ := bind_eq_ok h
  cases h
  exact tracked_declare hwf.pushScope hdeclare

theorem tracked_openForEach (hwf : state.Wf) {element : Ty}
    (h : state.openForEach program name element origin = .ok after) :
    Tracked state.pushScope after (Flow.item program name element state.view) := by
  obtain ⟨⟨id, declared⟩, hdeclare, h⟩ := bind_eq_ok h
  have hdecl := tracked_declare hwf.pushScope hdeclare
  cases origin with
  | none =>
    cases h
    exact hdecl
  | some place =>
    cases h
    exact hdecl.sameCore (sameCore_addLoan _ _ _ _)

mutual

theorem tracked_statement {returnHasReference : Bool} {index : Nat}
    {lastUses : String → Option Nat} (statement : Statement) (hwhole : statement.whole = true)
    {state after : State} (hwf : state.Wf)
    (h : checkStatement program returnHasReference index lastUses statement state = .ok after) :
    Tracked state after (Flow.statement program statement state.view) := by
  match statement with
  | .binding _ _ _ _ => exact tracked_binding hwf hwhole h
  | .assignment _ _ => exact tracked_nameAssignment hwf hwhole h
  | .placeAssignment target value =>
    rw [Statement.whole, Bool.and_eq_true] at hwhole
    obtain ⟨place, hplace, h⟩ := bind_eq_ok h
    obtain ⟨depth, id, hlook, rfl⟩ := place_whole hwhole.1 hplace
    have htracked := tracked_assignment hwf hlook hwhole.2 h
    have hflow : Flow.statement program (.placeAssignment target value) state.view =
        Flow.set program target.root value state.view := by
      simp [Flow.statement, lookup_view, hlook]
    rw [hflow]
    exact htracked
  | .expression value =>
    obtain ⟨⟨ty, middle⟩, hexpr, h⟩ := bind_eq_ok h
    cases h
    obtain ⟨hmid, hevolves, hflow⟩ := tracked_expr hwf hwhole hexpr
    exact ⟨hmid, hevolves, by simp [Flow.statement, hflow]⟩
  | .returns none | .breaks | .continues =>
    cases h
    exact ⟨hwf, Evolves.refl state, rfl⟩
  | .returns (some value) =>
    obtain ⟨⟨ty, middle⟩, hexpr, h⟩ := bind_eq_ok h
    obtain ⟨_, -, h⟩ := bind_eq_ok h
    cases h
    obtain ⟨hmid, hevolves, hflow⟩ := tracked_expr hwf hwhole hexpr
    exact ⟨hmid, hevolves, by simp [Flow.statement, hflow]⟩
  | .ifElse condition thenBranch elseBranch =>
    rw [Statement.whole, Bool.and_eq_true, Bool.and_eq_true] at hwhole
    obtain ⟨⟨ty, middle⟩, hexpr, h⟩ := bind_eq_ok h
    obtain ⟨thenState, hthen, h⟩ := bind_eq_ok h
    obtain ⟨elseState, helse, h⟩ := bind_eq_ok h
    cases h
    obtain ⟨hmid, hevolves, hflow⟩ := tracked_expr hwf hwhole.1 hexpr
    have hthen' := tracked_contents thenBranch hwhole.2.1 hmid.pushScope hthen
    have helse' := tracked_contents elseBranch hwhole.2.2 hmid.pushScope helse
    refine ⟨hmid.mergeWith, hevolves.trans evolves_mergeWith, ?_⟩
    rw [view_pushScope] at hthen' helse'
    have hview : (middle.mergeFrom thenState.popScope elseState.popScope).view =
        Flow.join mergeInit thenState.view.tail elseState.view.tail := by
      unfold mergeFrom
      rw [view_mergeWith hmid hthen'.evolves.popScope helse'.evolves.popScope,
        view_popScope hthen'.wf, view_popScope helse'.wf]
    simp [Flow.statement, hflow, hthen'.flow, helse'.flow, hview]
  | .whileLoop condition body =>
    rw [Statement.whole, Bool.and_eq_true] at hwhole
    obtain ⟨⟨ty, before⟩, hexpr, h⟩ := bind_eq_ok h
    obtain ⟨once, honce, h⟩ := bind_eq_ok h
    obtain ⟨⟨entryTy, entry⟩, hentry, h⟩ := bind_eq_ok h
    obtain ⟨again, hagain, h⟩ := bind_eq_ok h
    cases h
    have heval := tracked_expr hwf hwhole.1 hexpr
    have hbefore := heval.1
    have hentry' := tracked_read hbefore.mergeWith hwhole.1 hentry
    have hscopes : entry.scopes = (before.mergeLoop before once.popScope).scopes :=
      scopes_checkExpr hwhole.1 hentry
    exact .ofEval heval (tracked_loop
      (fun entry => (Flow.expr program .read condition entry).map Prod.snd)
      (fun flow => (Flow.enter flow).bind (Flow.contents program body)) hbefore
      (tracked_contents body hwhole.2 hbefore.pushScope honce) hentry' hscopes
      (tracked_contents body hwhole.2 hentry'.wf.pushScope hagain))
  | .forRange name first last body =>
    rw [Statement.whole, Bool.and_eq_true, Bool.and_eq_true] at hwhole
    obtain ⟨⟨firstTy, middle⟩, hfirst, h⟩ := bind_eq_ok h
    obtain ⟨⟨lastTy, before⟩, hlast, h⟩ := bind_eq_ok h
    obtain ⟨opened, hopened, h⟩ := bind_eq_ok h
    obtain ⟨once, honce, h⟩ := bind_eq_ok h
    obtain ⟨reopened, hreopened, h⟩ := bind_eq_ok h
    obtain ⟨again, hagain, h⟩ := bind_eq_ok h
    cases h
    have heval := tracked_expr hwf hwhole.1 hfirst
    have heval' := tracked_expr heval.1 hwhole.2.1 hlast
    have hbefore := heval'.1
    have hopened' := tracked_openForRange hbefore hopened
    have hreopened' := tracked_openForRange hbefore.mergeWith hreopened
    exact .ofEval heval (.ofEval heval' (tracked_loop some (fun flow =>
        (Flow.range name flow).bind (Flow.contents program body)) hbefore
      (hopened'.andThen (tracked_contents body hwhole.2.2 hopened'.wf honce))
      ⟨hbefore.mergeWith, Evolves.refl _, rfl⟩ rfl
      (hreopened'.andThen (tracked_contents body hwhole.2.2 hreopened'.wf hagain))))
  | .forEach name iterable body =>
    rw [Statement.whole, Bool.and_eq_true] at hwhole
    obtain ⟨⟨ty, before⟩, hexpr, h⟩ := bind_eq_ok h
    obtain ⟨element, helem, h⟩ := bind_eq_ok h
    obtain ⟨opened, hopened, h⟩ := bind_eq_ok h
    obtain ⟨once, honce, h⟩ := bind_eq_ok h
    obtain ⟨reopened, hreopened, h⟩ := bind_eq_ok h
    obtain ⟨again, hagain, h⟩ := bind_eq_ok h
    cases h
    have heval := tracked_expr hwf (show (Expr.use iterable).whole = true from hwhole.1) hexpr
    have hbefore := heval.1
    have hopened' := tracked_openForEach hbefore hopened
    have hreopened' := tracked_openForEach hbefore.mergeWith hreopened
    refine .ofEval heval ?_
    dsimp only
    rw [helem]
    exact tracked_loop some (fun flow =>
        (Flow.item program name element flow).bind (Flow.contents program body)) hbefore
      (hopened'.andThen (tracked_contents body hwhole.2 hopened'.wf honce))
      ⟨hbefore.mergeWith, Evolves.refl _, rfl⟩ rfl
      (hreopened'.andThen (tracked_contents body hwhole.2 hreopened'.wf hagain))
  | .loop body =>
    obtain ⟨once, honce, h⟩ := bind_eq_ok h
    obtain ⟨again, hagain, h⟩ := bind_eq_ok h
    cases h
    exact tracked_loop some (fun flow => (Flow.enter flow).bind (Flow.contents program body)) hwf
      (tracked_contents body hwhole hwf.pushScope honce)
      ⟨hwf.mergeWith, Evolves.refl _, rfl⟩ rfl
      (tracked_contents body hwhole hwf.mergeWith.pushScope hagain)

theorem tracked_contents {returnHasReference : Bool} {index : Nat}
    {lastUses : String → Option Nat} (statements : List Statement)
    (hwhole : wholeAll statements = true) {state after : State} (hwf : state.Wf)
    (h : checkContents program returnHasReference lastUses index statements state = .ok after) :
    Tracked state after (Flow.contents program statements state.view) := by
  match statements with
  | [] =>
    cases h
    exact ⟨hwf, Evolves.refl state, rfl⟩
  | statement :: statements =>
    rw [wholeAll, Bool.and_eq_true] at hwhole
    obtain ⟨middle, hfirst, hrest⟩ := bind_eq_ok h
    have hcore := sameCore_expireLoans state index lastUses
    have hstmt := tracked_statement statement hwhole.1 (hwf.sameCore hcore) hfirst
    have hcont := tracked_contents statements hwhole.2 hstmt.wf hrest
    refine ⟨hcont.wf, (hcore.evolves.trans hstmt.evolves).trans hcont.evolves, ?_⟩
    have hflow := hstmt.flow
    rw [view_sameCore hcore] at hflow
    simp [Flow.contents, hflow, hcont.flow]

end

/-! ## Functions -/

theorem view_declareParameter (hwf : state.Wf) (h : state.declareParameter name ty = .ok after) :
    after.Wf ∧ Flow.declare name ⟨ty, .initialized⟩ state.view = some after.view := by
  obtain ⟨⟨id, declared⟩, hdeclare, h⟩ := bind_eq_ok h
  obtain ⟨slot, hslot, h⟩ := bind_eq_ok h
  cases h
  have hslot' := slot_eq_ok hslot
  refine ⟨(hwf.declare hdeclare).setSlot id _, (view_declare hwf hdeclare).trans ?_⟩
  unfold view
  congr 2
  funext other
  by_cases heq : other = id
  · rw [heq, slots_setSlot_self, hslot']
    rfl
  · rw [slots_setSlot_of_ne declared _ heq]

theorem view_declareParameters {parameters : List (String × Ty)} (hwf : state.Wf)
    (h : declareParameters parameters state = .ok after) :
    after.Wf ∧ Flow.parameters parameters state.view = some after.view := by
  induction parameters generalizing state with
  | nil =>
    cases h
    exact ⟨hwf, rfl⟩
  | cons parameter parameters ih =>
    obtain ⟨middle, hfirst, hrest⟩ := bind_eq_ok h
    obtain ⟨hmid, hview⟩ := view_declareParameter hwf hfirst
    obtain ⟨hafter, hviews⟩ := ih hmid hrest
    refine ⟨hafter, ?_⟩
    rw [Flow.parameters, hview]
    exact hviews

end State

theorem flow_of_checkFunction {nextSlot : SlotId} {after : State}
    (hwhole : wholeAll function.body = true)
    (h : checkFunction program nextSlot function = .ok after) :
    ∃ flow, Flow.function program function = some flow := by
  obtain ⟨_, -, h⟩ := bind_eq_ok h
  obtain ⟨opened, hopened, h⟩ := bind_eq_ok h
  obtain ⟨last, hlast, -⟩ := bind_eq_ok h
  have hempty : State.Wf ⟨fun _ => none, [[]], [], nextSlot⟩ :=
    ⟨nodup_nil, fun _ h => (not_mem_nil h).elim, fun _ h => (not_mem_nil h).elim⟩
  obtain ⟨hwf, hparams⟩ := State.view_declareParameters hempty hopened
  have hbody := State.tracked_contents function.body hwhole hwf hlast
  refine ⟨last.view, ?_⟩
  unfold Flow.function
  rw [show Flow.parameters function.parameters [[]] = some opened.view from hparams]
  exact hbody.flow

theorem checkFunction_of_checkFunctions {functions : List Function} {nextSlot : SlotId}
    (hmem : function ∈ functions) (h : checkFunctions program nextSlot functions = .ok ()) :
    ∃ first after, checkFunction program first function = .ok after := by
  induction functions generalizing nextSlot with
  | nil => cases hmem
  | cons other functions ih =>
    obtain ⟨after, hother, hrest⟩ := bind_eq_ok h
    rcases mem_cons.mp hmem with rfl | hmem
    · exact ⟨nextSlot, after, hother⟩
    · exact ih hmem hrest

end Disp.Ownership
