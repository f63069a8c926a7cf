import Disp.Ownership.Machine
import Disp.Ownership.Monotone
import Disp.Ownership.Refinement

/-!
# No use of a moved value

In every run of an accepted function, a variable that the analysis knows to hold a
value holds one, as long as no `break` or `continue` leaves a loop with an outer
variable moved out: where that happens, the state of the checker after the loop does
not cover the run.
-/

namespace Disp.Ownership

open Disp.Library Disp.Library.Frames Disp.Library.Structured List Option

variable {flow : Flow} {cells : Frames String Cell} {base after : Flow}
  {parameters : List (String × Ty)}

/-- Not the use of a variable whose value was moved out. -/
def Event.unmoved (event : Event) : Prop :=
  event ≠ .touch .moved

/-- Not a `break` or `continue` that leaves an outer variable moved out. -/
def Event.keepsOuter (event : Event) : Prop :=
  event ≠ .leave false

abbrev Sound : Flow → Frames String Cell → Prop :=
  Rel fun _ info cell =>
    cell.ty = info.ty ∧ (info.state = .initialized → cell.status = .held)

theorem Sound.mono {flow' : Flow} (h : Sound flow cells) (hunder : Flow.Under flow' flow) :
    Sound flow' cells :=
  hunder.trans h fun _ _ _ _ hbelow hcell =>
    ⟨hcell.1.trans hbelow.1, fun hstate => hcell.2 (hbelow.2 trivial hstate)⟩

/-- A step of the machine along a step of the analysis. -/
structure Step (flow after : Flow) (machine machine' : Machine) : Prop where
  events : ∃ events, machine'.log = machine.log ++ events ∧
    (Sound flow machine.frames → ∀ event ∈ events, event.unmoved)
  sound : Sound flow machine.frames → Sound after machine'.frames

namespace Step

variable {flow middle after : Flow} {a b c : Machine}

theorem trans (hab : Step flow middle a b) (hbc : Step middle after b c) : Step flow after a c := by
  obtain ⟨first, hfirst, hfirstSafe⟩ := hab.events
  obtain ⟨second, hsecond, hsecondSafe⟩ := hbc.events
  refine ⟨⟨first ++ second, ?_, fun hsound event hevent => ?_⟩, hbc.sound ∘ hab.sound⟩
  · rw [hsecond, hfirst, append_assoc]
  · rcases mem_append.mp hevent with hevent | hevent
    · exact hfirstSafe hsound event hevent
    · exact hsecondSafe (hab.sound hsound) event hevent

theorem quiet (hframes : b.frames = a.frames) (hlog : b.log = a.log) : Step flow flow a b :=
  ⟨⟨[], by rw [hlog, append_nil], fun _ _ h => (not_mem_nil h).elim⟩,
    fun hsound => hframes ▸ hsound⟩

theorem of_some (h : some a = some b) : Step flow flow a b := by
  cases h
  exact quiet rfl rfl

theorem emit {event : Event} (hsafe : Sound flow a.frames → event.unmoved) :
    Step flow flow a (a.emit event) := by
  refine ⟨⟨[event], rfl, fun hsound other hother => ?_⟩, id⟩
  rw [mem_singleton.mp hother]
  exact hsafe hsound

theorem thenSet (hab : Step flow middle a b) (hlog : c.log = b.log)
    (hsound : Sound flow a.frames → Sound middle b.frames → Sound after c.frames) :
    Step flow after a c := by
  obtain ⟨events, hevents, hsafe⟩ := hab.events
  exact ⟨⟨events, hlog.trans hevents, hsafe⟩, fun h => hsound h (hab.sound h)⟩

end Step

/-! ## Expressions -/

namespace Machine

variable {program : Program} {flow after : Flow} {machine machine' : Machine} {mode : UseMode}
  {place : PlaceExpr} {produced : Produced} {ty : Ty} {value : Expr} {name : String}

theorem step_readVariable {cell : Cell} (hcell : Sound flow machine.frames →
    cell.status = .held) : Step flow flow machine (machine.readVariable cell) := by
  have htouch : Step flow flow machine (machine.emit (.touch cell.status)) := by
    apply Step.emit
    intro hsound hmoved
    rw [hcell hsound] at hmoved
    cases hmoved
  unfold readVariable
  cases cell.val with
  | plain => exact htouch
  | reference id =>
    refine htouch.trans ?_
    dsimp only
    split
    · exact Step.quiet rfl rfl
    · exact (Step.emit fun _ => Event.noConfusion).trans (Step.quiet rfl rfl)

theorem step_access (hwhole : place.whole = true)
    (hflow : Flow.use program mode place.root flow = some (ty, after))
    (h : machine.access program place mode = some (produced, machine')) :
    Step flow after machine machine' ∧ (Sound flow machine.frames → produced.ty = ty) := by
  obtain ⟨depth, info, hlook, hstate, rfl, rfl⟩ := Flow.use_eq_some hflow
  obtain ⟨root, fields⟩ := place
  obtain rfl : fields = [] := List.isEmpty_iff.mp hwhole
  obtain ⟨⟨depth', cell⟩, hcell, h⟩ := bind_eq_some_iff.mp h
  have hfound (hsound : Sound flow machine.frames) : cell.ty = info.ty ∧ cell.status = .held :=
    (hsound.of_lookup hlook hcell).imp_right (· hstate)
  have hread : Step flow flow machine
      ((machine.readVariable cell).readStorage (depth', root) [] none) :=
    (step_readVariable fun hsound => (hfound hsound).2).trans (Step.quiet rfl rfl)
  dsimp only at h
  split_ifs at h with hmove
  all_goals
    cases h
    refine ⟨hread.thenSet rfl fun hsound hsound' => ?_, fun hsound => (hfound hsound).1⟩
    rw [(hfound hsound).1] at hmove
  · rw [if_pos hmove]
    exact hsound'.update root fun _ _ _ _ _ hcell => ⟨hcell.1, InitState.noConfusion⟩
  · rw [if_neg hmove]
    exact hsound'

theorem step_borrow {mutable : Bool} (hwhole : place.whole = true)
    (hflow : Flow.expr program mode (.borrow mutable place) flow = some (ty, after))
    (h : machine.borrow program mutable place = some (produced, machine')) :
    Step flow after machine machine' ∧ (Sound flow machine.frames → produced.ty = ty) := by
  obtain ⟨depth, info, hlook, hstate, rfl, rfl⟩ := Flow.borrow_eq_some hflow
  obtain ⟨root, fields⟩ := place
  obtain rfl : fields = [] := List.isEmpty_iff.mp hwhole
  obtain ⟨⟨depth', cell⟩, hcell, h⟩ := bind_eq_some_iff.mp h
  have hfound (hsound : Sound after machine.frames) : cell.ty = info.ty ∧ cell.status = .held :=
    (hsound.of_lookup hlook hcell).imp_right (· hstate)
  cases h
  refine ⟨(Step.emit fun hsound hmoved => ?_).trans (Step.quiet rfl rfl), fun hsound => ?_⟩
  · rw [(hfound hsound).2] at hmoved
    cases hmoved
  · exact congrArg (Ty.reference · mutable) (hfound hsound).1

theorem step_evaluate (hwhole : value.whole = true)
    (hflow : Flow.expr program mode value flow = some (ty, after))
    (h : machine.evaluate program mode value = some (produced, machine')) :
    Step flow after machine machine' ∧ (Sound flow machine.frames → produced.ty = ty) := by
  cases value with
  | value valueTy =>
    cases hflow
    cases h
    exact ⟨Step.quiet rfl rfl, fun _ => rfl⟩
  | use place | move place => exact step_access hwhole hflow h
  | borrow mutable place => exact step_borrow hwhole hflow h

theorem step_observe (hwhole : value.whole = true)
    (hflow : Flow.expr program mode value flow = some (ty, after))
    (h : machine.observe program mode value = some machine') :
    Step flow after machine machine' := by
  obtain ⟨⟨produced, _⟩, heval, rfl⟩ := map_eq_some_iff.mp h
  exact (step_evaluate hwhole hflow heval).1

/-! ## Bindings and assignments -/

theorem step_bind {annotated : Option Ty} {value : Option Expr}
    (hwhole : value.all Expr.whole = true)
    (hflow : Flow.bind program name annotated value flow = some after)
    (h : bind program name annotated value machine = some machine') :
    Step flow after machine machine' := by
  cases value with
  | none =>
    cases h
    obtain ⟨hne, rfl, -⟩ := Flow.declare_eq_some hflow
    exact (Step.quiet rfl rfl).thenSet rfl fun _ hsound =>
      hsound.declare hne ⟨rfl, InitState.noConfusion⟩
  | some value =>
    obtain ⟨⟨ty, middle⟩, hexpr, hflow⟩ := bind_eq_some_iff.mp hflow
    obtain ⟨⟨produced, evaluated⟩, heval, h⟩ := bind_eq_some_iff.mp h
    cases h
    obtain ⟨hstep, hty⟩ := step_evaluate hwhole hexpr heval
    obtain ⟨hne, rfl, -⟩ := Flow.declare_eq_some hflow
    refine hstep.thenSet rfl fun hsound hsound' => ?_
    exact hsound'.declare hne ⟨by rw [hty hsound], fun _ => rfl⟩

theorem step_hold {target : Variable} {val : Val} :
    Step flow (Frames.update name (Info.become .initialized) flow) machine
      ((machine.writeStorage target []).update name fun cell =>
        { cell with status := .held, val }) :=
  (Step.quiet rfl rfl).thenSet rfl fun _ hsound =>
    hsound.update name fun _ _ _ _ _ hcell => ⟨hcell.1, fun _ => rfl⟩

theorem step_assign (hwhole : value.whole = true)
    (hflow : Flow.assign program name value flow = some after)
    (h : assign program name value machine = some machine') : Step flow after machine machine' := by
  -- A stack that is not as the analysis says may disagree on whether the name is bound.
  have hbound : Sound flow machine.frames →
      (lookup name flow).isSome = (lookup name machine.frames).isSome := by
    intro hsound
    have hnames := congrArg Option.isSome (lookup_of_names hsound.names name)
    rwa [isSome_map, isSome_map] at hnames
  unfold Flow.assign at hflow
  unfold assign at h
  by_cases hsome : (lookup name machine.frames).isSome
  · rw [if_pos hsome] at h
    obtain ⟨⟨produced, evaluated⟩, heval, h⟩ := bind_eq_some_iff.mp h
    obtain ⟨⟨depth, cell⟩, hlook, h⟩ := bind_eq_some_iff.mp h
    cases h
    cases hname : lookup name flow with
    | none =>
      rw [hname] at hflow hbound
      obtain ⟨⟨ty, middle⟩, hexpr, -⟩ := bind_eq_some_iff.mp hflow
      obtain ⟨hstep, -⟩ := step_evaluate hwhole hexpr heval
      refine (hstep.trans step_hold).thenSet rfl fun hsound => ?_
      cases (hbound hsound).trans hsome
    | some found =>
      rw [hname] at hflow
      obtain ⟨⟨ty, middle⟩, hexpr, hflow⟩ := bind_eq_some_iff.mp hflow
      cases hflow
      obtain ⟨hstep, -⟩ := step_evaluate hwhole hexpr heval
      exact hstep.trans step_hold
  · rw [if_neg hsome] at h
    cases hname : lookup name flow with
    | none =>
      rw [hname] at hflow
      exact step_bind (show (some value).all Expr.whole = true from hwhole) hflow h
    | some found =>
      rw [hname] at hflow hbound
      obtain ⟨⟨produced, evaluated⟩, heval, h⟩ := bind_eq_some_iff.mp h
      obtain ⟨⟨ty, middle⟩, hexpr, -⟩ := bind_eq_some_iff.mp hflow
      cases h
      obtain ⟨hstep, -⟩ := step_evaluate hwhole hexpr heval
      refine hstep.thenSet rfl fun hsound => ?_
      exact absurd (hbound hsound).symm hsome

theorem step_assignPlace {target : PlaceExpr} (htgt : target.whole = true)
    (hwhole : value.whole = true) (hflow : Flow.set program target.root value flow = some after)
    (h : assignPlace program target value machine = some machine') :
    Step flow after machine machine' := by
  obtain ⟨root, fields⟩ := target
  obtain rfl : fields = [] := List.isEmpty_iff.mp htgt
  obtain ⟨⟨ty, middle⟩, hexpr, hflow⟩ := bind_eq_some_iff.mp hflow
  cases hflow
  obtain ⟨⟨produced, evaluated⟩, heval, h⟩ := bind_eq_some_iff.mp h
  obtain ⟨⟨depth, cell⟩, hlook, h⟩ := bind_eq_some_iff.mp h
  obtain ⟨hstep, -⟩ := step_evaluate hwhole hexpr heval
  cases h
  exact hstep.trans step_hold

/-! ## Scopes -/

theorem log_drops (scope : List (String × Cell)) (depth : Nat) (machine : Machine) :
    (scope.foldl (fun machine entry => machine.writeStorage (depth, entry.1) [])
      machine).log = machine.log := by
  induction scope generalizing machine with
  | nil => rfl
  | cons entry scope ih => exact ih (machine.writeStorage (depth, entry.1) [])

theorem log_exit (machine : Machine) : machine.exit.log = machine.log := by
  unfold exit
  split
  · rfl
  · exact log_drops _ _ machine

theorem frames_exit (machine : Machine) : machine.exit.frames = machine.frames.tail := by
  unfold exit
  split
  all_goals
    rename_i hframes
    rw [hframes]
    rfl

end Machine

/-! ## Runs -/

/-- The scopes outside the loop that began at `base`, seen from inside it. -/
structure Enclosed (base flow : Flow) : Prop where
  deeper : base.length < flow.length
  types : Rel (fun _ a b => b.ty = a.ty) base (flow.drop (flow.length - base.length))

theorem Enclosed.keeps (h : Enclosed base flow) (hkeeps : Flow.Keeps flow after) :
    Enclosed base after := by
  obtain ⟨hdeeper, htypes⟩ := h
  refine ⟨hkeeps.length ▸ hdeeper, ?_⟩
  obtain ⟨n, hn⟩ : ∃ n, flow.length - base.length = n + 1 :=
    ⟨flow.length - base.length - 1, by omega⟩
  rw [hkeeps.length, hn, ← drop_tail]
  rw [hn, ← drop_tail] at htypes
  exact htypes.trans (hkeeps.tail.drop n) fun _ _ _ _ hab hbc => hbc.1.trans hab

theorem Enclosed.push (h : Enclosed base flow) : Enclosed base ([] :: flow) := by
  refine ⟨by rw [length_cons]; exact h.deeper.trans (Nat.lt_succ_self _), ?_⟩
  have hlen : ([] :: flow).length - base.length = flow.length - base.length + 1 := by
    have := h.deeper
    rw [length_cons]
    omega
  rw [hlen]
  exact h.types

/-- Where the analysis stands at a step of a run, under an assumption `Q` about the start
of the enclosing loop. -/
def Ready (Q : Prop) (flow : Flow) (machine : Machine) : Prop :=
  Q ∧ Sound flow machine.frames

/-- The enclosing loop is left, with what was known at its start. -/
def Leaves (Q : Prop) (base : Flow) (depth : Nat) (machine : Machine) : Prop :=
  Q ∧ machine.frames.length = depth ∧ Sound base (machine.frames.drop (depth - base.length))

/-- As long as no `break` or `continue` leaves an outer variable moved out. -/
abbrev Safe (core : Machine → Prop) : Machine → Prop :=
  Safely Event.keepsOuter Event.unmoved Machine.log core

/-- How a statement with the given effect ends. -/
def Ends (Q : Prop) (base after : Flow) : Outcome → Machine → Prop
  | .next, machine => Safe (Ready Q after) machine
  | .broke, machine | .continued, machine => Safe (Leaves Q base after.length) machine
  | .returned, machine | .stopped, machine =>
    Guarded Event.keepsOuter Event.unmoved machine.log

section Runs

variable {program : Program} {Q : Prop} {base flow middle after : Flow} {machine machine' : Machine}
  {f : Machine → Option Machine} {second : Runner Machine} {outcome : Outcome} {before once : Flow}
  {opening : Flow → Option Flow} {body : List Statement} {name : String}

theorem Step.ready (h : Step flow after machine machine') (hready : Safe (Ready Q flow) machine) :
    Safe (Ready Q after) machine' := by
  obtain ⟨events, hlog, hsafe⟩ := h.events
  exact hready.step hlog (fun hcore => hsafe hcore.2) fun hcore _ =>
    ⟨hcore.1, h.sound hcore.2⟩

theorem triple_step
    (hstep : ∀ machine machine', f machine = some machine' → Step flow after machine machine') :
    Triple (Safe (Ready Q flow)) (attempt .next f) (Ends Q base after) := by
  apply triple_attempt
  · intro machine machine' hready hf
    exact (hstep machine machine' hf).ready hready
  · intro machine hready _
    exact hready.guarded

theorem triple_stepThen
    (hstep : ∀ machine machine', f machine = some machine' → Step flow middle machine machine')
    (hsecond : Triple (Safe (Ready Q middle)) second (Ends Q base after)) :
    Triple (Safe (Ready Q flow)) (andThen (attempt .next f) second) (Ends Q base after) := by
  refine triple_andThen (triple_attempt ?_ ?_) hsecond
  · intro machine machine' hready hf
    exact (hstep machine machine' hf).ready hready
  · intro machine hready _
    exact hready.guarded

theorem triple_returns
    (hstep : ∀ machine machine', f machine = some machine' → Step flow after machine machine') :
    Triple (Safe (Ready Q flow)) (attempt .returned f) (Ends Q base after) := by
  apply triple_attempt
  · intro machine machine' hready hf
    exact ((hstep machine machine' hf).ready hready).guarded
  · intro machine hready _
    exact hready.guarded

theorem Ends.onNext (h : Ends Q base middle outcome machine) (hlen : after.length = middle.length) :
    Structured.onNext (Safe (Ready Q middle)) (Ends Q base after) outcome machine := by
  cases outcome with
  | next | returned | stopped => exact h
  | broke | continued =>
    have hleaves : Safe (Leaves Q base middle.length) machine := h
    rw [← hlen] at hleaves
    exact hleaves

theorem Ends.under (h : Ends Q base middle outcome machine) (hunder : Flow.Under after middle) :
    Ends Q base after outcome machine := by
  cases outcome with
  | next =>
    have hready : Safe (Ready Q middle) machine := h
    exact hready.weaken fun hcore => ⟨hcore.1, hcore.2.mono hunder⟩
  | broke | continued =>
    have hleaves : Safe (Leaves Q base middle.length) machine := h
    rw [← hunder.length_eq] at hleaves
    exact hleaves
  | returned | stopped => exact h

theorem triple_sequence {first : Runner Machine} (hlen : after.length = middle.length)
    (hfirst : Triple (Safe (Ready Q flow)) first (Ends Q base middle))
    (hsecond : Triple (Safe (Ready Q middle)) second (Ends Q base after)) :
    Triple (Safe (Ready Q flow)) (andThen first second) (Ends Q base after) :=
  triple_andThen (hfirst.weaken (fun _ => id) fun _ _ h => Ends.onNext h hlen) hsecond

/-- Leaving a scope. -/
theorem Ends.exit (h : Ends Q base after outcome machine) (hdeep : base.length < after.length) :
    Ends Q base after.tail outcome machine.exit := by
  have hlog := Machine.log_exit machine
  have hstep : ∀ {core core' : Machine → Prop}, (core machine → core' machine.exit) →
      Safe core machine → Safe core' machine.exit := by
    intro core core' hcore hsafe
    have hnone : machine.exit.log = machine.log ++ [] := by rw [hlog, append_nil]
    exact hsafe.step hnone (fun _ _ h => (not_mem_nil h).elim) fun hmachine _ => hcore hmachine
  cases outcome with
  | next =>
    refine hstep (fun hready => ⟨hready.1, ?_⟩) h
    rw [Machine.frames_exit]
    exact hready.2.tail
  | broke | continued =>
    refine hstep (fun hleaves => ⟨hleaves.1, ?_, ?_⟩) h
    · rw [Machine.frames_exit, length_tail, length_tail, hleaves.2.1]
    · rw [Machine.frames_exit, length_tail, drop_tail]
      have hdepth : after.length - 1 - base.length + 1 = after.length - base.length := by
        omega
      rw [hdepth]
      exact hleaves.2.2
  | returned | stopped =>
    have hguarded : Guarded Event.keepsOuter Event.unmoved machine.log := h
    rw [← hlog] at hguarded
    exact hguarded

theorem triple_scope {opened inner : Flow} {enter : Machine → Machine} {body : Runner Machine}
    (henter : ∀ machine, Step flow opened machine (enter machine))
    (hdeep : base.length < inner.length)
    (hbody : Triple (Safe (Ready Q opened)) body (Ends Q base inner)) :
    Triple (Safe (Ready Q flow)) (within enter Machine.exit body) (Ends Q base inner.tail) := by
  apply triple_within
  refine hbody.weaken ?_ fun _ _ h => Ends.exit h hdeep
  rintro _ ⟨machine, hready, rfl⟩
  exact (henter machine).ready hready

/-- `break` and `continue`. -/
theorem leaves_leaveLoop {entry : Frames String Cell} (hQ : Q → Sound base entry)
    (hencl : Enclosed base flow) (hready : Safe (Ready Q flow) machine) :
    Safe (Leaves Q base flow.length) (machine.leaveLoop entry) := by
  refine hready.step rfl ?_ fun hcore hmet => ?_
  · intro _ event hevent
    rw [mem_singleton.mp hevent]
    exact Event.noConfusion
  · obtain ⟨hq, hsound⟩ := hcore
    have hentry := hQ hq
    have hlen := hsound.length_eq
    refine ⟨hq, hlen.symm, ?_⟩
    have hkeeps : Machine.keeps entry (machine.frames.drop (flow.length - base.length)) = true := by
      rw [hlen, hentry.length_eq, ← Bool.not_eq_false]
      intro hfalse
      apply hmet _ (mem_singleton.mpr rfl)
      rw [hfalse]
    have houter : Rel (fun _ info cell => cell.ty = info.ty) base
        (machine.frames.drop (flow.length - base.length)) :=
      hencl.types.trans (hsound.drop _) fun _ _ _ _ hab hbc => hbc.1.trans hab
    refine houter.weaken fun address info cell hinfo hcell hty => ⟨hty, fun hstate => ?_⟩
    obtain ⟨cell', hcell', -, hheld⟩ := hentry.get_some hinfo
    have hnames : names entry = names (machine.frames.drop (flow.length - base.length)) :=
      hentry.names.symm.trans houter.names
    have hkept := get_of_all₂ hnames hkeeps hcell' hcell
    exact of_decide_eq_true hkept (hheld hstate)

/-- A loop, from the two passes of the analysis over its body. -/
theorem triple_loop {again : Flow} (hopening : Flow.Monotone opening) (hopens : Flow.Opens opening)
    (honce : (opening before).bind (Flow.contents program body) = some once)
    (hagain : (opening (Flow.join State.mergeLoopInit before once.tail)).bind
      (Flow.contents program body) = some again) {asks : Bool} {head : Machine → Option Machine}
    {round : Runner Machine} (hhead : ∀ machine machine', head machine = some machine' →
      Step (Flow.join State.mergeLoopInit before once.tail)
        (Flow.join State.mergeLoopInit before once.tail) machine machine') {start : Machine}
    (hround : Triple (Safe (Ready (Q ∧ Sound before start.frames)
        (Flow.join State.mergeLoopInit before once.tail))) round
      (Ends (Q ∧ Sound before start.frames) before again.tail)) (fuel : Nat) (choices : List Bool)
    (hstart : Safe (Ready Q before) start) :
    Ends Q base (Flow.join State.mergeLoopInit before again.tail)
      (iterate asks head round fuel start choices).outcome
      (iterate asks head round fuel start choices).state := by
  have hkeeps : ∀ flow after, Flow.contents program body flow = some after →
      Flow.Keeps flow after := fun _ _ => Flow.keeps_contents body
  have hentry := Flow.under_join_left (Flow.rel_round hopens hkeeps honce)
  have hexit := Flow.under_exit hopening hopens honce hagain
  have hlast := Flow.rel_again Flow.rel_some hopens hkeeps honce rfl hagain
  have hagainRound := Flow.under_round hopening hopens honce hagain
  have hinvariant : Safe (Ready (Q ∧ Sound before start.frames)
      (Flow.join State.mergeLoopInit before once.tail)) start :=
    hstart.weaken fun hready => ⟨hready, hready.2.mono hentry⟩
  refine triple_iterate (fun machine machine' hinv hhead' => ?_) (fun _ machine hmid => ?_)
    (hround.weaken (fun _ => id) fun outcome machine hends => ?_)
    (fun machine hinv => hinv.guarded) (fun machine hmid => hmid.guarded) fuel start choices
    hinvariant
  · exact (hhead machine machine' hhead').ready hinv
  · exact hmid.weaken fun hready => ⟨hready.1.1, hready.2.mono hexit⟩
  · have hleft : Safe (Leaves (Q ∧ Sound before start.frames) before again.tail.length)
        machine → Safe (Ready (Q ∧ Sound before start.frames) before) machine := by
      intro hleaves
      refine hleaves.weaken fun hcore => ⟨hcore.1, ?_⟩
      have hsound := hcore.2.2
      rwa [← hlast.length_eq, Nat.sub_self, drop_zero] at hsound
    cases outcome with
    | next => exact hends.weaken fun hready => ⟨hready.1, hready.2.mono hagainRound⟩
    | continued => exact (hleft hends).weaken fun hready => ⟨hready.1, hready.2.mono hentry⟩
    | broke =>
      exact (hleft hends).weaken fun hready =>
        ⟨hready.1.1, hready.2.mono (Flow.under_join_left hlast)⟩
    | returned | stopped => exact hends

theorem enclosed_opened (hkept : Rel Flow.Kept before once.tail) (scope : List (String × Info)) :
    Enclosed before (scope :: Flow.join State.mergeLoopInit before once.tail) := by
  have hunder := Flow.under_join_left hkept
  have hlen := hunder.length_eq
  refine ⟨by rw [length_cons]; omega, ?_⟩
  have hdrop : (scope :: Flow.join State.mergeLoopInit before once.tail).length -
      before.length = 1 := by
    rw [length_cons]
    omega
  rw [hdrop]
  exact hunder.symm.weaken fun _ _ _ _ _ hbelow => hbelow.1.symm

theorem step_enter (machine : Machine) : Step flow ([] :: flow) machine machine.enter :=
  (Step.quiet rfl rfl).thenSet rfl fun _ hsound => hsound.push

theorem step_enterRange (h : Flow.range name flow = some after) (machine : Machine) :
    Step flow after machine (machine.enter.declare name ⟨.copy, .held, .plain⟩) := by
  obtain ⟨hne, rfl, -⟩ := Flow.declare_eq_some h
  exact (step_enter machine).thenSet rfl fun _ hsound =>
    hsound.declare hne ⟨rfl, fun _ => rfl⟩

theorem step_enterItem {iterable : PlaceExpr} (hwhole : iterable.whole = true) {depth : Nat}
    {info : Info} (hlook : lookup iterable.root flow = some (depth, info)) {element : Ty}
    (helem : (State.elementTy info.ty).toOption = some element)
    (h : Flow.item program name element flow = some after)
    (hitem : machine.enterItem program name iterable = some machine') :
    Step flow after machine machine' := by
  obtain ⟨root, fields⟩ := iterable
  obtain rfl : fields = [] := List.isEmpty_iff.mp hwhole
  obtain ⟨hne, rfl, -⟩ := Flow.declare_eq_some h
  obtain ⟨⟨depth', cell⟩, hcell, hitem⟩ := bind_eq_some_iff.mp hitem
  obtain ⟨ty, hty, hitem⟩ := bind_eq_some_iff.mp hitem
  obtain rfl : cell.ty = ty := Option.some.inj hty
  obtain ⟨element', helem', hitem⟩ := bind_eq_some_iff.mp hitem
  have hsame : Sound flow machine.frames → element' = element := by
    intro hsound
    rw [(hsound.of_lookup hlook hcell).1, helem] at helem'
    exact (Option.some.inj helem').symm
  split_ifs at hitem with hcopy
  all_goals
    cases hitem
    refine (step_enter machine).thenSet rfl fun hsound hsound' => ?_
    rw [hsame hsound] at hcopy ⊢
    exact hsound'.declare hne ⟨by simp [hcopy], fun _ => rfl⟩

/-- A loop whose rounds run the body after opening a scope. -/
theorem loop_sound {head : Flow → Option Flow} (hopening : Flow.Monotone opening)
    (hopens : Flow.Opens opening) (h : Flow.twice before head (fun flow => (opening flow).bind
      (Flow.contents program body)) = some after)
    (hhead : ∀ entry entry', Flow.Under entry before → head entry = some entry' → entry' = entry)
    (asks : Bool) (ask : Machine → Option Machine) (round : Frames String Cell → Runner Machine)
    (hask : ∀ entry, head entry = some entry → ∀ machine machine',
      ask machine = some machine' → Step entry entry machine machine')
    (hround : ∀ (Q' : Prop) (start : Machine) (entry opened again : Flow),
      (Q' → Sound before start.frames) → Flow.Under entry before →
      opening entry = some opened → Flow.contents program body opened = some again →
      Enclosed before opened → before.length < again.length →
      Triple (Safe (Ready Q' entry)) (round start.frames) (Ends Q' before again.tail))
    (fuel : Nat) : Triple (Safe (Ready Q before))
      (fun machine => iterate asks ask (round machine.frames) fuel machine)
      (Ends Q base after) := by
  intro start choices hstart
  obtain ⟨once, entry, again, honce, hentry, hagain, rfl⟩ := Flow.twice_eq_some h
  have hkept := Flow.rel_round hopens (fun _ _ => Flow.keeps_contents body) honce
  have hunder := Flow.under_join_left hkept
  have hsame := hhead _ _ hunder hentry
  subst hsame
  refine triple_loop hopening hopens honce hagain (hask _ hentry) ?_ fuel choices hstart
  obtain ⟨opened, hopened, hcont⟩ := bind_eq_some_iff.mp hagain
  obtain ⟨scope, rfl⟩ := hopens _ _ hopened
  have hencl := enclosed_opened hkept scope
  exact hround _ start _ _ again And.right hunder hopened hcont hencl
    ((Flow.keeps_contents body hcont).length ▸ hencl.deeper)

end Runs

mutual

theorem run_sound {Q : Prop} {base flow after : Flow} (statement : Statement)
    (hwhole : statement.whole = true)
    {entry : Frames String Cell} (hQ : Q → Sound base entry) (hencl : Enclosed base flow)
    (h : Flow.statement program statement flow = some after) (fuel : Nat) :
    Triple (Safe (Ready Q flow)) (Machine.run program fuel entry statement)
      (Ends Q base after) := by
  match statement with
  | .binding _ _ _ _ => exact triple_step fun _ _ hstep => Machine.step_bind hwhole h hstep
  | .assignment _ _ => exact triple_step fun _ _ hstep => Machine.step_assign hwhole h hstep
  | .placeAssignment target value =>
    rw [Statement.whole, Bool.and_eq_true] at hwhole
    obtain ⟨_, -, h⟩ := bind_eq_some_iff.mp h
    exact triple_step fun _ _ hstep =>
      Machine.step_assignPlace hwhole.1 hwhole.2 h hstep
  | .expression value =>
    obtain ⟨⟨ty, _⟩, hexpr, h⟩ := bind_eq_some_iff.mp h
    cases h
    exact triple_step fun _ _ hstep => Machine.step_observe hwhole hexpr hstep
  | .returns none =>
    cases h
    exact triple_returns fun _ _ => Step.of_some
  | .returns (some value) =>
    obtain ⟨⟨ty, _⟩, hexpr, h⟩ := bind_eq_some_iff.mp h
    cases h
    exact triple_returns fun _ _ hstep => Machine.step_observe hwhole hexpr hstep
  | .ifElse condition thenBranch elseBranch =>
    rw [Statement.whole, Bool.and_eq_true, Bool.and_eq_true] at hwhole
    obtain ⟨⟨ty, middle⟩, hexpr, h⟩ := bind_eq_some_iff.mp h
    obtain ⟨thenFlow, hthen, h⟩ := bind_eq_some_iff.mp h
    obtain ⟨elseFlow, helse, h⟩ := bind_eq_some_iff.mp h
    cases h
    have hmid := hencl.keeps (Flow.Keeps.of_rel (Flow.rel_expr hexpr))
    have hpush : Enclosed base ([] :: middle) := hmid.push
    have hthenKeeps := Flow.keeps_contents thenBranch hthen
    have helseKeeps := Flow.keeps_contents elseBranch helse
    refine triple_stepThen (fun _ _ hstep => Machine.step_observe hwhole.1 hexpr hstep)
      (triple_choose ?_ ?_ fun machine hready => hready.guarded)
    · exact (triple_scope step_enter (hthenKeeps.length ▸ hpush.deeper)
        (runAll_sound thenBranch hwhole.2.1 hQ hpush hthen fuel)).weaken (fun _ => id)
        fun _ _ hends => Ends.under hends
          (Flow.under_mergeInit_left hthenKeeps.tail helseKeeps.tail)
    · exact (triple_scope step_enter (helseKeeps.length ▸ hpush.deeper)
        (runAll_sound elseBranch hwhole.2.2 hQ hpush helse fuel)).weaken (fun _ => id)
        fun _ _ hends => Ends.under hends
          (Flow.under_mergeInit_right hthenKeeps.tail helseKeeps.tail)
  | .whileLoop condition body =>
    rw [Statement.whole, Bool.and_eq_true] at hwhole
    obtain ⟨⟨ty, before⟩, hexpr, hloop⟩ := bind_eq_some_iff.mp h
    obtain ⟨once, first, again, honce, hfirst, -, -⟩ := Flow.twice_eq_some hloop
    obtain ⟨⟨firstTy, _⟩, hfirstExpr, -⟩ := map_eq_some_iff.mp hfirst
    -- The condition moves nothing, so the first round starts like the others.
    have hsame := (Flow.expr_again hexpr (Flow.under_join_left
      (Flow.rel_round Flow.opens_enter (fun _ _ => Flow.keeps_contents body) honce))
      hfirstExpr).1
    subst hsame
    refine loop_sound Flow.monotone_enter Flow.opens_enter hloop
      (fun entry entry' hunder hhead => ?_) true (Machine.observe program .read condition)
      (fun entry => within Machine.enter Machine.exit (Machine.runAll program fuel entry body))
      (fun entry hhead machine machine' hask => ?_) ?_ fuel
    · obtain ⟨⟨ty', _⟩, hexpr', rfl⟩ := map_eq_some_iff.mp hhead
      exact (Flow.expr_again hexpr hunder hexpr').2
    · obtain ⟨⟨ty', _⟩, hexpr', rfl⟩ := map_eq_some_iff.mp hhead
      exact Machine.step_observe hwhole.1 hexpr' hask
    · intro Q' start entry opened again hQ' _ hopened hagain hencl hdeep
      cases hopened
      exact triple_scope step_enter hdeep (runAll_sound body hwhole.2 hQ' hencl hagain fuel)
  | .forRange name first last body =>
    rw [Statement.whole, Bool.and_eq_true, Bool.and_eq_true] at hwhole
    obtain ⟨⟨firstTy, middle⟩, hfirst, h⟩ := bind_eq_some_iff.mp h
    obtain ⟨⟨lastTy, before⟩, hlast, h⟩ := bind_eq_some_iff.mp h
    refine triple_stepThen (fun _ _ hstep => Machine.step_observe hwhole.1 hfirst hstep)
      (triple_stepThen (fun _ _ hstep => Machine.step_observe hwhole.2.1 hlast hstep) ?_)
    refine loop_sound (Flow.monotone_range name) (Flow.opens_range name) h
      (fun _ _ _ hhead => (Option.some.inj hhead).symm) true some
      (fun entry => within (fun machine => machine.enter.declare name ⟨.copy, .held, .plain⟩)
        Machine.exit (Machine.runAll program fuel entry body))
      (fun _ _ _ _ => Step.of_some) ?_ fuel
    intro Q' start entry opened again hQ' _ hopened hagain hencl hdeep
    exact triple_scope (step_enterRange hopened) hdeep
      (runAll_sound body hwhole.2.2 hQ' hencl hagain fuel)
  | .forEach name iterable body =>
    rw [Statement.whole, Bool.and_eq_true] at hwhole
    obtain ⟨⟨ty, before⟩, huse, h⟩ := bind_eq_some_iff.mp h
    obtain ⟨element, helem, h⟩ := bind_eq_some_iff.mp h
    have hwholeUse : (Expr.use iterable).whole = true := hwhole.1
    refine triple_stepThen (fun _ _ hstep => Machine.step_observe hwholeUse huse hstep) ?_
    obtain ⟨depth, info, hlook, -, hty, -⟩ := Flow.use_eq_some huse
    obtain ⟨info', hlook', hkept⟩ := (Flow.rel_use huse).lookup hlook
    refine loop_sound (Flow.monotone_item name element) (Flow.opens_item name element) h
      (fun _ _ _ hhead => (Option.some.inj hhead).symm) true some
      (fun entry => andThen (attempt .next (Machine.enterItem program name iterable))
        (within id Machine.exit (Machine.runAll program fuel entry body)))
      (fun _ _ _ _ => Step.of_some) ?_ fuel
    intro Q' start entry opened again hQ' hunder hopened hagain hencl hdeep
    obtain ⟨info'', hlook'', hbelow⟩ := hunder.symm.lookup hlook'
    have helem' : (State.elementTy info''.ty).toOption = some element := by
      rw [← hbelow.1, hkept.1, ← hty, helem]
    exact triple_stepThen (fun _ _ hstep =>
      step_enterItem hwhole.1 hlook'' helem' hopened hstep)
      (triple_scope (fun _ => Step.quiet rfl rfl) hdeep
        (runAll_sound body hwhole.2 hQ' hencl hagain fuel))
  | .loop body =>
    refine loop_sound Flow.monotone_enter Flow.opens_enter h
      (fun _ _ _ hhead => (Option.some.inj hhead).symm) false some
      (fun entry => within Machine.enter Machine.exit (Machine.runAll program fuel entry body))
      (fun _ _ _ _ => Step.of_some) ?_ fuel
    intro Q' start entry opened again hQ' _ hopened hagain hencl hdeep
    cases hopened
    exact triple_scope step_enter hdeep (runAll_sound body hwhole hQ' hencl hagain fuel)
  | .breaks | .continues =>
    cases h
    apply triple_attempt
    · intro machine machine' hready hstep
      cases hstep
      exact leaves_leaveLoop hQ hencl hready
    · intro machine _ hnone
      cases hnone

theorem runAll_sound {Q : Prop} {base flow after : Flow} (statements : List Statement)
    (hwhole : wholeAll statements = true)
    {entry : Frames String Cell} (hQ : Q → Sound base entry) (hencl : Enclosed base flow)
    (h : Flow.contents program statements flow = some after) (fuel : Nat) :
    Triple (Safe (Ready Q flow)) (Machine.runAll program fuel entry statements)
      (Ends Q base after) := by
  match statements with
  | [] =>
    cases h
    exact triple_step fun _ _ => Step.of_some
  | statement :: statements =>
    rw [wholeAll, Bool.and_eq_true] at hwhole
    obtain ⟨middle, hfirst, hrest⟩ := bind_eq_some_iff.mp h
    have hkeeps := Flow.keeps_statement statement hfirst
    exact triple_sequence (Flow.keeps_contents statements hrest).length
      (run_sound statement hwhole.1 hQ hencl hfirst fuel)
      (runAll_sound statements hwhole.2 hQ (hencl.keeps hkeeps) hrest fuel)

end

/-! ## Functions -/

theorem sound_parameters (hsound : Sound flow cells)
    (h : Flow.parameters parameters flow = some after) :
    Sound after (parameters.foldl
      (fun frames (name, ty) => Frames.declare name ⟨ty, .held, .plain⟩ frames) cells) := by
  induction parameters generalizing flow cells with
  | nil =>
    cases h
    exact hsound
  | cons parameter parameters ih =>
    obtain ⟨middle, hfirst, hrest⟩ := bind_eq_some_iff.mp h
    obtain ⟨hne, rfl, -⟩ := Flow.declare_eq_some hfirst
    exact ih (hsound.declare hne ⟨rfl, fun _ => rfl⟩) hrest

theorem keeps_parameters (h : Flow.parameters parameters flow = some after) :
    Flow.Keeps flow after := by
  induction parameters generalizing flow with
  | nil =>
    cases h
    exact Flow.Keeps.of_rel (Rel.refl Flow.Kept.refl _)
  | cons parameter parameters ih =>
    obtain ⟨middle, hfirst, hrest⟩ := bind_eq_some_iff.mp h
    exact (Flow.keeps_declare hfirst).trans (ih hrest)

theorem sound_nil : Sound [] [] :=
  ⟨rfl, fun _ _ _ h => nomatch h⟩

/-- In every run of a function the checker accepts, no step uses a variable whose value was
moved out, as long as every `break` and `continue` before it kept the variables from
outside its loop that held their values when the loop began. -/
theorem no_use_of_moved (program : Program) (function : Function)
    (hcheck : check program = .ok ()) (hmem : function ∈ program.functions)
    (hwhole : wholeAll function.body = true) (fuel : Nat) (choices : List Bool)
    (earlier later : List Event) (event : Event)
    (hlog : Machine.logOf program function fuel choices = earlier ++ event :: later)
    (hkept : ∀ other ∈ earlier, other ≠ .leave false) : event ≠ .touch .moved := by
  obtain ⟨first, last, hfn⟩ := checkFunction_of_checkFunctions hmem hcheck
  obtain ⟨after, hflow⟩ := flow_of_checkFunction hwhole hfn
  obtain ⟨flow, hparams, hbody⟩ := bind_eq_some_iff.mp hflow
  have hlen := (keeps_parameters hparams).length
  have hencl : Enclosed [] flow := by
    refine ⟨by simp [hlen], ?_⟩
    rw [length_nil, Nat.sub_zero, drop_length]
    exact ⟨rfl, fun _ _ _ h => nomatch h⟩
  have hstart : Safe (Ready True flow) (Machine.start function) :=
    ⟨fun earlier event later h => by simp [Machine.start] at h,
      fun _ => ⟨trivial, sound_parameters sound_nil.push hparams⟩⟩
  have hends := runAll_sound function.body hwhole (fun _ => sound_nil) hencl hbody fuel
    (Machine.start function) choices hstart
  have hguarded : Guarded Event.keepsOuter Event.unmoved
      (Machine.logOf program function fuel choices) := by
    unfold Machine.logOf
    generalize Machine.runAll program fuel [] function.body (Machine.start function) choices =
      result at hends ⊢
    obtain ⟨outcome, machine, rest⟩ := result
    cases outcome with
    | next | broke | continued => exact hends.guarded
    | returned | stopped => exact hends
  exact hguarded earlier event later hlog hkept

/-- `var x = ..; loop { x = ..; break }; x`, where the loop leaves `x` as it found it. -/
def refilling : Function where
  parameters := []
  returnType := none
  body := [
    .binding true "x" none (some (.value (.owned "Text"))),
    .loop [.assignment "x" (.value (.owned "Text")), .breaks],
    .expression (.use ⟨"x", []⟩)]

theorem refilling_reads_held :
    Machine.logOf ⟨[], [], [refilling]⟩ refilling 1 [] =
        [.leave true] ++ .touch .held :: [] ∧ Event.touch .held ≠ .touch .moved := by
  refine ⟨?log, no_use_of_moved ⟨[], [], [refilling]⟩ refilling (by decide +kernel)
    mem_cons_self (by decide +kernel) 1 [] _ _ _ ?log (by decide)⟩
  decide +kernel

/-- `var x = ..; loop { let y = x; if .. { break }; x = .. }; x`. -/
def breaking : Function where
  parameters := []
  returnType := none
  body := [
    .binding true "x" none (some (.value (.owned "Text"))),
    .loop [
      .binding false "y" none (some (.use ⟨"x", []⟩)),
      .ifElse (.value .copy) [.breaks] [],
      .assignment "x" (.value (.owned "Text"))],
    .expression (.use ⟨"x", []⟩)]

/-- The checker accepts a function that reads `x` after a `break` left it moved out. -/
theorem break_reads_moved :
    check ⟨[], [], [breaking]⟩ = .ok () ∧ wholeAll breaking.body = true ∧
      Machine.logOf ⟨[], [], [breaking]⟩ breaking 1 [true] =
        [.touch .held, .leave false, .touch .moved] := by
  refine ⟨?_, ?_, ?_⟩ <;> decide +kernel

end Disp.Ownership
