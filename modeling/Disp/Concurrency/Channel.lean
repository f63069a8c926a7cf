import Disp.Library.Monitor

/-!
# Bounded channels

`RuntimeChannel` is a monitor: `send` sleeps while the queue is full, `receive` while it is
empty, and each wakes one thread of the other kind.  For any number of threads and any schedule
the values received are a prefix of the values sent, and no wake-up is lost.
-/

namespace Disp.Concurrency.Channel

open Disp.Library.Monitor List

/-! ## The channel -/

/-- `permit` says whether the channel still holds its handle permit. -/
structure RuntimeChannelQueue (α : Type) where
  values : List α
  capacity : Nat
  closed : Bool
  permit : Bool
  deriving DecidableEq

inductive Condvar where
  | notEmpty
  | notFull
  deriving DecidableEq

inductive Call (α : Type) where
  | send (value : α)
  | receive
  | close
  | inspect
  deriving DecidableEq

inductive Result (α : Type) where
  | sent (accepted : Bool)
  | received (value : Option α)
  | closed
  | inspected (length capacity : Nat) (closed : Bool)
  deriving DecidableEq

section

variable {α : Type} {call : Call α} {next : RuntimeChannelQueue α} {signals : List (Signal Condvar)}
  {result : Result α} {before after : List (Call α × Result α)}

def bounded (capacity : Nat) : Except String (RuntimeChannelQueue α) :=
  if capacity = 0 then
    .error "Channel capacity must be greater than zero"
  else
    .ok ⟨[], capacity, false, true⟩

abbrev ChannelSection (α : Type) := Section (RuntimeChannelQueue α) Condvar (Result α)

def send (value : α) (queue : RuntimeChannelQueue α) : ChannelSection α :=
  if queue.values.length = queue.capacity ∧ queue.closed = false then
    .wait .notFull
  else if queue.closed then
    .done queue [] (.sent false)
  else
    .done { queue with values := queue.values ++ [value] } [.one .notEmpty] (.sent true)

def receive (queue : RuntimeChannelQueue α) : ChannelSection α :=
  if queue.values = [] ∧ queue.closed = false then
    .wait .notEmpty
  else
    match queue.values with
    | [] => .done queue [] (.received none)
    | value :: values => .done { queue with values } [.one .notFull] (.received (some value))

def close (queue : RuntimeChannelQueue α) : ChannelSection α :=
  .done (if queue.closed then queue else { queue with closed := true, permit := false })
    [.all .notEmpty, .all .notFull] .closed

def inspect (queue : RuntimeChannelQueue α) : ChannelSection α :=
  .done queue [] (.inspected queue.values.length queue.capacity queue.closed)

/-- What a call does from taking the lock to waiting or returning. -/
def perform : Call α → RuntimeChannelQueue α → ChannelSection α
  | .send value => send value
  | .receive => receive
  | .close => close
  | .inspect => inspect

/-- The calls that wait. -/
inductive Waiting : Call α → RuntimeChannelQueue α → Condvar → Prop where
  | send {value : α} {queue : RuntimeChannelQueue α} :
      queue.values.length = queue.capacity → queue.closed = false →
        Waiting (.send value) queue .notFull
  | receive {queue : RuntimeChannelQueue α} :
      queue.values = [] → queue.closed = false → Waiting .receive queue .notEmpty

/-- The calls that return, with the queue they leave and their signals. -/
inductive Finished : Call α → RuntimeChannelQueue α → RuntimeChannelQueue α →
    List (Signal Condvar) → Result α → Prop where
  | refused {value : α} {queue : RuntimeChannelQueue α} :
      queue.closed = true → Finished (.send value) queue queue [] (.sent false)
  | accepted {value : α} {queue : RuntimeChannelQueue α} :
      queue.closed = false → queue.values.length ≠ queue.capacity →
        Finished (.send value) queue { queue with values := queue.values ++ [value] }
          [.one .notEmpty] (.sent true)
  | ended {queue : RuntimeChannelQueue α} :
      queue.closed = true → queue.values = [] →
        Finished .receive queue queue [] (.received none)
  | delivered {queue : RuntimeChannelQueue α} {value : α} {values : List α} :
      queue.values = value :: values →
        Finished .receive queue { queue with values } [.one .notFull] (.received (some value))
  | closed {queue next : RuntimeChannelQueue α} :
      next.closed = true → next.values = queue.values → next.capacity = queue.capacity →
        Finished .close queue next [.all .notEmpty, .all .notFull] .closed
  | inspected {queue : RuntimeChannelQueue α} :
      Finished .inspect queue queue []
        (.inspected queue.values.length queue.capacity queue.closed)

variable {queue : RuntimeChannelQueue α}

theorem waiting_of_perform {on : Condvar}
    (h : perform call queue = .wait on) : Waiting call queue on := by
  cases call with
  | send value =>
    simp only [perform, send] at h
    split_ifs at h with hfull hclosed
    cases h
    exact .send hfull.1 hfull.2
  | receive =>
    simp only [perform, receive] at h
    split_ifs at h with hempty
    · cases h
      exact .receive hempty.1 hempty.2
    · split at h <;> cases h
  | close | inspect => cases h

theorem finished_of_perform (h : perform call queue = .done next signals result) :
    Finished call queue next signals result := by
  cases call with
  | send value =>
    simp only [perform, send] at h
    split_ifs at h with hfull hclosed
    · cases h
      exact .refused hclosed
    · cases h
      rw [Bool.not_eq_true] at hclosed
      exact .accepted hclosed fun h => hfull ⟨h, hclosed⟩
  | receive =>
    simp only [perform, receive] at h
    split_ifs at h with hempty
    split at h
    · next hvals =>
        cases h
        refine .ended ?_ hvals
        by_contra hopen
        exact hempty ⟨hvals, by simpa using hopen⟩
    · next value values hvals =>
        cases h
        exact .delivered hvals
  | close =>
    cases h
    by_cases hclosed : queue.closed = true
    · rw [if_pos hclosed]
      exact .closed hclosed rfl rfl
    · rw [if_neg hclosed]
      exact .closed rfl rfl rfl
  | inspect =>
    cases h
    exact .inspected

/-! ## Histories -/

def acceptedValue : Call α × Result α → Option α
  | (.send value, .sent true) => some value
  | _ => none

def receivedValue : Call α × Result α → Option α
  | (.receive, .received (some value)) => some value
  | _ => none

/-- The values whose `send` returned true, in order. -/
def accepted (returned : List (Call α × Result α)) : List α := returned.filterMap acceptedValue

/-- The values that `receive` returned, in order. -/
def received (returned : List (Call α × Result α)) : List α := returned.filterMap receivedValue

theorem acceptedValue_eq_some {event : Call α × Result α} {value : α}
    (h : acceptedValue event = some value) : event = (.send value, .sent true) := by
  unfold acceptedValue at h
  split at h
  · cases h
    rfl
  · cases h

/-- What the queue has to do with the calls that returned. -/
structure Consistent (capacity : Nat) (queue : RuntimeChannelQueue α)
    (returned : List (Call α × Result α)) : Prop where
  order : accepted returned = received returned ++ queue.values
  capacity_eq : queue.capacity = capacity
  length_le : queue.values.length ≤ capacity
  closed_iff : queue.closed = true ↔ (.close, .closed) ∈ returned

theorem consistent_bounded {capacity : Nat}
    (h : bounded capacity = .ok queue) : Consistent capacity queue [] := by
  rw [bounded] at h
  split_ifs at h
  cases h
  exact ⟨rfl, rfl, Nat.zero_le _, by simp⟩

theorem Consistent.done {capacity : Nat}
    {returned : List (Call α × Result α)} (hqueue : Consistent capacity queue returned)
    (h : perform call queue = .done next signals result) :
    Consistent capacity next (returned ++ [(call, result)]) := by
  obtain ⟨horder, hcap, hlen, hclosed⟩ := hqueue
  have happend : ∀ event, accepted (returned ++ [event]) =
      accepted returned ++ (acceptedValue event).toList := fun event => by
    cases hevent : acceptedValue event <;> simp [accepted, hevent]
  have hreceived : ∀ event, received (returned ++ [event]) =
      received returned ++ (receivedValue event).toList := fun event => by
    cases hevent : receivedValue event <;> simp [received, hevent]
  cases finished_of_perform h with
  | refused hflag | ended hflag hempty | inspected =>
    refine ⟨?_, hcap, hlen, ?_⟩
    · simp [happend, hreceived, acceptedValue, receivedValue, horder]
    · simp [hclosed]
  | accepted hopen hroom =>
    refine ⟨?_, hcap, ?_, ?_⟩
    · simp [happend, hreceived, acceptedValue, receivedValue, horder]
    · simp only [length_append, length_singleton]
      omega
    · simp [← hclosed]
  | delivered hvals =>
    refine ⟨?_, hcap, ?_, ?_⟩
    · simp [happend, hreceived, acceptedValue, receivedValue, horder, hvals]
    · rw [hvals] at hlen
      exact Nat.le_of_succ_le hlen
    · simp [← hclosed]
  | closed hflag hvals hsame =>
    refine ⟨?_, hsame.trans hcap, hvals ▸ hlen, ?_⟩
    · simp [happend, hreceived, acceptedValue, receivedValue, horder, hvals]
    · simp [hflag]

/-! ## Wake-ups -/

def receiverDemand (queue : RuntimeChannelQueue α) : Nat :=
  if queue.closed then 0 else queue.values.length

def senderDemand (queue : RuntimeChannelQueue α) : Nat :=
  if queue.closed then 0 else queue.capacity - queue.values.length

theorem final_or_all (h : Finished call queue next signals result)
    (hclosed : next.closed = true) (on : Condvar) : queue.closed = true ∨ .all on ∈ signals := by
  cases h with
  | closed => exact .inr (by cases on <;> simp)
  | _ => exact .inl hclosed

theorem accounts_notEmpty : Accounts (perform (α := α)) (fun _ => True) .notEmpty receiverDemand
    (·.closed = true) where
  wait := fun {queue call} _ h => by
    cases waiting_of_perform h with
    | receive hempty hopen => simp [receiverDemand, hempty, hopen]
  one_variable := fun {queue call other} ⟨_, hwaits⟩ h => by
    cases waiting_of_perform hwaits
    cases waiting_of_perform h
    rfl
  done := fun {queue call next signals result} _ h => by
    cases finished_of_perform h with
    | accepted hopen hroom => simp [receiverDemand, hopen]
    | delivered hvals =>
      by_cases hclosed : queue.closed <;> simp [receiverDemand, hclosed, hvals]
    | closed hflag => simp [receiverDemand, hflag]
    | _ => exact Nat.le_add_right _ _
  waiter := fun {queue call next signals result} _ ⟨_, hwaits⟩ h => by
    cases waiting_of_perform hwaits
    cases finished_of_perform h with
    | ended hflag hempty => exact .inr (by simp [receiverDemand, hflag])
    | delivered hvals =>
      by_cases hclosed : queue.closed <;> simp [receiverDemand, hclosed, hvals]
  final := fun _ h hlast => final_or_all (finished_of_perform h) hlast _

theorem accounts_notFull : Accounts (perform (α := α))
    (fun queue => queue.values.length ≤ queue.capacity) .notFull senderDemand
    (·.closed = true) where
  wait := fun {queue call} _ h => by
    cases waiting_of_perform h with
    | send hfull hopen => simp [senderDemand, hfull, hopen]
  one_variable := fun {queue call other} ⟨_, hwaits⟩ h => by
    cases waiting_of_perform hwaits
    cases waiting_of_perform h
    rfl
  done := fun {queue call next signals result} hfits h => by
    cases finished_of_perform h with
    | accepted hopen hroom =>
      simp only [senderDemand, hopen, length_append, length_singleton]
      split <;> omega
    | delivered hvals =>
      rw [hvals, length_cons] at hfits
      by_cases hclosed : queue.closed <;> simp [senderDemand, hclosed, hvals]
      omega
    | closed hflag => simp [senderDemand, hflag]
    | _ => exact Nat.le_add_right _ _
  waiter := fun {queue call next signals result} hfits ⟨_, hwaits⟩ h => by
    cases waiting_of_perform hwaits
    cases finished_of_perform h with
    | refused hflag => exact .inr (by simp [senderDemand, hflag])
    | accepted hopen hroom =>
      refine .inl ?_
      simp [senderDemand, hopen]
      omega
  final := fun _ h hlast => final_or_all (finished_of_perform h) hlast _

/-! ## Every run -/

variable {capacity count : Nat} {queue : RuntimeChannelQueue α}
  {config : Config (RuntimeChannelQueue α) Condvar (Call α) (Result α)}

section

variable (hbounded : bounded capacity = .ok queue) (h : Reachable perform queue count config)

include hbounded h

theorem consistent_of_reachable : Consistent capacity config.state config.returned :=
  h.keeps (consistent_bounded hbounded) Consistent.done

theorem not_accepted_after_close
    (hret : config.returned = before ++ (.close, .closed) :: after) (value : α) :
    (.send value, .sent true) ∉ after := by
  intro hmember
  obtain ⟨early, late, rfl⟩ := append_of_mem hmember
  rw [← cons_append, ← append_assoc] at hret
  obtain ⟨entry, next, signals, hentry, hbefore, hbody⟩ := h.entry hret
  have hclosed : entry.state.closed = true :=
    (consistent_of_reachable hbounded hentry).closed_iff.mpr (by rw [hbefore]; simp)
  cases finished_of_perform hbody with
  | accepted hopen => rw [hclosed] at hopen; cases hopen

/-- A receive that returns no value comes after a close and after every accepted value. -/
theorem delivered_before_end
    (hret : config.returned = before ++ (.receive, .received none) :: after) :
    (.close, .closed) ∈ before ∧ received before = accepted config.returned := by
  obtain ⟨entry, next, signals, hentry, hbefore, hbody⟩ := h.entry hret
  obtain ⟨horder, -, -, hclosed⟩ := consistent_of_reachable hbounded hentry
  rw [hbefore] at horder hclosed
  cases finished_of_perform hbody with
  | ended hflag hempty =>
    have hclose := hclosed.mp hflag
    have hlater : accepted ((.receive, .received none) :: after) = [] := by
      rw [accepted, filterMap_eq_nil_iff]
      intro event hevent
      by_contra hacc
      obtain ⟨value, hval⟩ := Option.ne_none_iff_exists'.mp hacc
      rw [acceptedValue_eq_some hval] at hevent
      obtain ⟨first, second, rfl⟩ := append_of_mem hclose
      rw [append_assoc] at hret
      exact not_accepted_after_close hbounded h hret value (mem_append_right _ hevent)
    rw [hempty, append_nil] at horder
    refine ⟨hclose, ?_⟩
    rw [hret, accepted, filterMap_append]
    exact horder.symm.trans (by rw [← accepted, ← accepted, hlater, append_nil])

end

/-- A sleeping sender has no room and a sleeping receiver no value that no woken thread is
about to take, and neither sleeps once the channel is closed. -/
structure NoLostWakeup
    (config : Config (RuntimeChannelQueue α) Condvar (Call α) (Result α)) : Prop where
  sender : ∀ {value on}, .sleeping (.send value) on ∈ config.threads →
    config.state.closed = false ∧ (config.state.values.length < config.state.capacity →
      ∃ other, .woken (.send other) on ∈ config.threads)
  receiver : ∀ {on}, .sleeping .receive on ∈ config.threads →
    config.state.closed = false ∧ (config.state.values ≠ [] →
      .woken .receive on ∈ config.threads)

theorem noLostWakeup_of_reachable (hbounded : bounded capacity = .ok queue)
    (h : Reachable perform queue count config) : NoLostWakeup config := by
  have hfull := h.awake accounts_notFull fun hrun => by
    have hcons := consistent_of_reachable hbounded hrun
    rw [hcons.capacity_eq]
    exact hcons.length_le
  have hempty := h.awake accounts_notEmpty fun _ => trivial
  constructor
  · intro value on hsleeping
    obtain ⟨_, hwaits⟩ := proper_sleeping.mp (hfull.proper _ hsleeping)
    cases waiting_of_perform hwaits
    obtain ⟨hopen, hwoken⟩ := hfull.sleeper hsleeping
    rw [Bool.not_eq_true] at hopen
    refine ⟨hopen, fun hroom => ?_⟩
    obtain ⟨call, hmember, _, hcall⟩ := hwoken (by
      rw [senderDemand, hopen]
      exact Nat.sub_pos_of_lt hroom)
    cases waiting_of_perform hcall
    exact ⟨_, hmember⟩
  · intro on hsleeping
    obtain ⟨_, hwaits⟩ := proper_sleeping.mp (hempty.proper _ hsleeping)
    cases waiting_of_perform hwaits
    obtain ⟨hopen, hwoken⟩ := hempty.sleeper hsleeping
    rw [Bool.not_eq_true] at hopen
    refine ⟨hopen, fun hvals => ?_⟩
    obtain ⟨call, hmember, _, hcall⟩ := hwoken (by
      rw [receiverDemand, hopen]
      exact length_pos_iff.mpr hvals)
    cases waiting_of_perform hcall
    exact hmember

/-- Whatever any number of threads do with a channel: values are received in the order in which
they were accepted, at most `capacity` of them are under way, none is accepted after a close,
all are delivered before a receive returns none, and no wake-up is lost. -/
theorem channel_correct (hbounded : bounded capacity = .ok queue)
    (h : Reachable perform queue count config) :
    received config.returned <+: accepted config.returned ∧
    (accepted config.returned).length ≤ (received config.returned).length + capacity ∧
    (∀ before after, config.returned = before ++ (.close, .closed) :: after →
      ∀ value, (.send value, .sent true) ∉ after) ∧
    (∀ before after, config.returned = before ++ (.receive, .received none) :: after →
      (.close, .closed) ∈ before ∧ received before = accepted config.returned) ∧
    NoLostWakeup config := by
  obtain ⟨horder, -, hlen, -⟩ := consistent_of_reachable hbounded h
  refine ⟨⟨config.state.values, horder.symm⟩, ?_, fun before after hret =>
    not_accepted_after_close hbounded h hret, fun before after hret =>
    delivered_before_end hbounded h hret, noLostWakeup_of_reachable hbounded h⟩
  rw [horder, length_append]
  omega

end

/-- A receiver sleeps, a sender puts a value and wakes it up, and the receiver takes the value. -/
theorem handed_over :
    bounded 1 = .ok (⟨[], 1, false, true⟩ : RuntimeChannelQueue Nat) ∧
    ∃ config : Config (RuntimeChannelQueue Nat) Condvar (Call Nat) (Result Nat),
      Reachable perform ⟨[], 1, false, true⟩ 2 config ∧
      config.returned = [(.send 5, .sent true), (.receive, .received (some 5))] ∧
      received config.returned <+: accepted config.returned ∧ NoLostWakeup config := by
  have hbounded : bounded 1 = .ok (⟨[], 1, false, true⟩ : RuntimeChannelQueue Nat) := rfl
  have hrun : Reachable perform (⟨[], 1, false, true⟩ : RuntimeChannelQueue Nat) 2
      ⟨⟨[], 1, false, true⟩, [.idle, .idle],
        [(.send 5, .sent true), (.receive, .received (some 5))]⟩ :=
    .head (@Step.call _ _ _ _ _ perform _ [] [.idle] [] .receive) <|
    .head (@Step.sleep _ _ _ _ _ perform _ [] [.idle] [] _ _ _ (.calling Call.receive) rfl) <|
    .head (@Step.call _ _ _ _ _ perform _ [.sleeping .receive .notEmpty] [] [] (.send 5)) <|
    .head (@Step.finish _ _ _ _ _ perform _ _ [.sleeping .receive .notEmpty] [] _ [] _ _ _ _
      (.calling (Call.send 5)) rfl (.cons (@Signalled.one _ _ _ _ [] [.idle] _) .nil)) <|
    .single (@Step.finish _ _ _ _ _ perform _ _ [] [.idle] _ _ _ _ _ _
      (.woken Call.receive Condvar.notEmpty) rfl
      (.cons (.unheard (by simp [Thread.sleepsOn])) .nil))
  have hcorrect := channel_correct hbounded hrun
  exact ⟨hbounded, _, hrun, rfl, hcorrect.1, hcorrect.2.2.2.2⟩

end Disp.Concurrency.Channel
