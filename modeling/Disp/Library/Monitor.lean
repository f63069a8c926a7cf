import Mathlib.Data.List.Count
import Mathlib.Logic.Relation
import Mathlib.Order.Basic
import Mathlib.Data.Nat.Basic

/-!
# Monitors with condition variables

A monitor is a state behind one lock.  A call takes the lock, and either sleeps on a condition
variable, or changes the state, signals condition variables and returns.  Any thread whose turn
it is may go next, a signal to one thread wakes any of the sleeping ones, and a sleeping thread
may wake up without a signal.

`Accounts` lists what the calls of a monitor owe to one condition variable, and
`Reachable.awake` draws the conclusion for every run: while a thread sleeps on it, at least as
many threads as the state has work for are awake.
-/

namespace Disp.Library.Monitor

open List

inductive Signal (κ : Type) where
  | one (on : κ)
  | all (on : κ)
  deriving DecidableEq

/-- What a call does while it holds the lock. -/
inductive Section (σ κ ρ : Type) where
  | wait (on : κ)
  | done (state : σ) (signals : List (Signal κ)) (result : ρ)

/-- A thread between two sections.  One that is `woken` waits for the lock again. -/
inductive Thread (κ γ : Type) where
  | idle
  | calling (call : γ)
  | sleeping (call : γ) (on : κ)
  | woken (call : γ) (on : κ)

/-- The state, the threads, and the calls that returned so far with their results. -/
structure Config (σ κ γ ρ : Type) where
  state : σ
  threads : List (Thread κ γ)
  returned : List (γ × ρ)

/-! ## Threads and the variables of their calls -/

section

variable {σ κ γ ρ : Type}

open Thread

variable {call : γ} {signal : Signal κ} {first second : List (Thread κ γ)}
  {signals : List (Signal κ)}

/-- A call can sleep on a variable. -/
def Waits (body : γ → σ → Section σ κ ρ) (call : γ) (on : κ) : Prop :=
  ∃ state, body call state = .wait on

/-- A thread sleeps on, or was woken on, a variable of its call. -/
def Proper (body : γ → σ → Section σ κ ρ) (thread : Thread κ γ) : Prop :=
  ∀ call on, thread = sleeping call on ∨ thread = woken call on → Waits body call on

variable {body : γ → σ → Section σ κ ρ}

theorem proper_idle : Proper body (idle : Thread κ γ) := by
  rintro call on (h | h) <;> cases h

theorem proper_calling (call : γ) : Proper body (calling call : Thread κ γ) := by
  rintro call on (h | h) <;> cases h

variable {on : κ}

theorem proper_sleeping : Proper body (sleeping call on) ↔ Waits body call on := by
  constructor
  · intro h
    exact h call on (.inl rfl)
  · rintro h call' on' (heq | heq) <;> cases heq
    exact h

theorem proper_woken : Proper body (woken call on) ↔ Waits body call on := by
  constructor
  · intro h
    exact h call on (.inr rfl)
  · rintro h call' on' (heq | heq) <;> cases heq
    exact h

theorem proper_middle {before after : List (Thread κ γ)} {thread : Thread κ γ} :
    (∀ t ∈ before ++ thread :: after, Proper body t) ↔
      Proper body thread ∧ ∀ t ∈ before ++ after, Proper body t := by
  simp only [mem_append]
  grind

/-! ## Steps -/

variable [DecidableEq κ]

namespace Thread

variable {thread : Thread κ γ}

def wakeOn (on : κ) : Thread κ γ → Thread κ γ
  | sleeping call other => if other = on then woken call other else sleeping call other
  | thread => thread

def sleepsOn (on : κ) : Thread κ γ → Bool
  | sleeping _ other => decide (other = on)
  | _ => false

def wokenOn (on : κ) : Thread κ γ → Bool
  | woken _ other => decide (other = on)
  | _ => false

/-- The thread is about to take the lock for a call. -/
inductive Entering : Thread κ γ → γ → Prop where
  | calling (call : γ) : Entering (calling call) call
  | woken (call : γ) (on : κ) : Entering (woken call on) call

theorem Entering.not_sleeping (h : Entering thread call) (on : κ) : sleepsOn on thread = false := by
  cases h <;> rfl

theorem Entering.waits {on : κ} (h : Entering thread call) (hwoken : wokenOn on thread = true)
    (hproper : Proper body thread) : Waits body call on := by
  cases h with
  | calling => cases hwoken
  | woken call other =>
    obtain rfl : other = on := of_decide_eq_true hwoken
    exact proper_woken.mp hproper

end Thread

inductive Signalled : Signal κ → List (Thread κ γ) → List (Thread κ γ) → Prop where
  | unheard {on : κ} {threads : List (Thread κ γ)} :
      (∀ thread ∈ threads, sleepsOn on thread = false) → Signalled (.one on) threads threads
  | one {on : κ} {before after : List (Thread κ γ)} {call : γ} :
      Signalled (.one on) (before ++ sleeping call on :: after)
        (before ++ woken call on :: after)
  | all {on : κ} {threads : List (Thread κ γ)} :
      Signalled (.all on) threads (threads.map (wakeOn on))

inductive SignalledAll : List (Signal κ) → List (Thread κ γ) → List (Thread κ γ) → Prop where
  | nil {threads : List (Thread κ γ)} : SignalledAll [] threads threads
  | cons {signal : Signal κ} {signals : List (Signal κ)} {first second third : List (Thread κ γ)} :
      Signalled signal first second → SignalledAll signals second third →
        SignalledAll (signal :: signals) first third

inductive Step (body : γ → σ → Section σ κ ρ) : Config σ κ γ ρ → Config σ κ γ ρ → Prop where
  | call {state : σ} {before after : List (Thread κ γ)} {returned : List (γ × ρ)} (call : γ) :
      Step body ⟨state, before ++ idle :: after, returned⟩
        ⟨state, before ++ calling call :: after, returned⟩
  | sleep {state : σ} {before after : List (Thread κ γ)} {returned : List (γ × ρ)}
      {thread : Thread κ γ} {call : γ} {on : κ} :
      Entering thread call → body call state = .wait on →
        Step body ⟨state, before ++ thread :: after, returned⟩
          ⟨state, before ++ sleeping call on :: after, returned⟩
  | finish {state next : σ} {before after threads : List (Thread κ γ)} {returned : List (γ × ρ)}
      {thread : Thread κ γ} {call : γ} {signals : List (Signal κ)} {result : ρ} :
      Entering thread call → body call state = .done next signals result →
        SignalledAll signals (before ++ idle :: after) threads →
          Step body ⟨state, before ++ thread :: after, returned⟩
            ⟨next, threads, returned ++ [(call, result)]⟩
  | spurious {state : σ} {before after : List (Thread κ γ)} {returned : List (γ × ρ)}
      {call : γ} {on : κ} :
      Step body ⟨state, before ++ sleeping call on :: after, returned⟩
        ⟨state, before ++ woken call on :: after, returned⟩

def Reachable (body : γ → σ → Section σ κ ρ) (start : σ) (count : Nat) :
    Config σ κ γ ρ → Prop :=
  Relation.ReflTransGen (Step body) ⟨start, List.replicate count idle, []⟩

/-! ## Results over runs -/

variable {start : σ} {count : Nat} {config : Config σ κ γ ρ}

theorem Reachable.keeps {holds : σ → List (γ × ρ) → Prop} (hstart : holds start [])
    (hdone : ∀ {state next : σ} {returned : List (γ × ρ)} {call : γ} {signals : List (Signal κ)}
      {result : ρ}, holds state returned → body call state = .done next signals result →
        holds next (returned ++ [(call, result)]))
    (h : Reachable body start count config) : holds config.state config.returned := by
  induction h with
  | refl => exact hstart
  | tail _ hstep ih =>
    cases hstep with
    | call call | sleep hentering hbody | spurious => exact ih
    | finish hentering hbody hsignals => exact hdone ih hbody

/-- Every returned call was finished from a configuration of the run. -/
theorem Reachable.entry (h : Reachable body start count config)
    {before after : List (γ × ρ)} {call : γ} {result : ρ}
    (hret : config.returned = before ++ (call, result) :: after) :
    ∃ entry next signals, Reachable body start count entry ∧ entry.returned = before ∧
      body call entry.state = .done next signals result := by
  induction h generalizing after with
  | refl => exact absurd hret (by simp)
  | @tail middle last hrun hstep ih =>
    cases hstep with
    | call call | sleep hentering hbody | spurious => exact ih hret
    | @finish state next _ _ _ returned _ finished signals answer hentering hbody hsignals =>
      -- Either the last call returned is the one asked for, or it returned before.
      rcases eq_nil_or_concat after with rfl | ⟨earlier, last, rfl⟩
      · obtain ⟨rfl, hlast⟩ := append_inj' hret rfl
        cases hlast
        exact ⟨_, next, signals, hrun, rfl, hbody⟩
      · rw [concat_eq_append, ← cons_append, ← append_assoc] at hret
        exact ih (append_inj' hret rfl).1

/-! ## Sleeping and woken threads -/

def sleepers (on : κ) (threads : List (Thread κ γ)) : Nat := threads.countP (sleepsOn on)

def wakers (on : κ) (threads : List (Thread κ γ)) : Nat := threads.countP (wokenOn on)

@[simp] theorem sleepers_middle (on : κ) (before after : List (Thread κ γ)) (thread : Thread κ γ) :
    sleepers on (before ++ thread :: after) =
      sleepers on (before ++ after) + (if sleepsOn on thread then 1 else 0) := by
  simp only [sleepers, countP_append, countP_cons]
  omega

@[simp] theorem wakers_middle (on : κ) (before after : List (Thread κ γ)) (thread : Thread κ γ) :
    wakers on (before ++ thread :: after) =
      wakers on (before ++ after) + (if wokenOn on thread then 1 else 0) := by
  simp only [wakers, countP_append, countP_cons]
  omega

theorem sleepers_eq_zero {threads : List (Thread κ γ)} :
    sleepers on threads = 0 ↔ ∀ thread ∈ threads, sleepsOn on thread = false := by
  simp [sleepers]

/-- Signals to one variable leave no sleeping thread, or wake one thread each. -/
structure Roused (on : κ) (ones : Nat) (first second : List (Thread κ γ)) : Prop where
  sleepers_le : sleepers on second ≤ sleepers on first
  wakers_le : 0 < sleepers on second → wakers on first + ones ≤ wakers on second

theorem sleepsOn_wakeOn (on other : κ) (thread : Thread κ γ) :
    sleepsOn on (wakeOn other thread) = (sleepsOn on thread && !decide (other = on)) := by
  cases thread with
  | sleeping call variant =>
    by_cases h : variant = other
    · subst h
      simp [wakeOn, sleepsOn]
    · by_cases hon : variant = on
      · subst hon
        simp [wakeOn, h, Ne.symm h]
      · simp [wakeOn, sleepsOn, h, hon]
  | _ => rfl

theorem wokenOn_le_wakeOn (on other : κ) (thread : Thread κ γ) (h : wokenOn on thread) :
    wokenOn on (wakeOn other thread) := by
  cases thread with
  | woken call variant => exact h
  | _ => cases h

theorem Signalled.roused (h : Signalled signal first second) (on : κ) :
    Roused on (if signal = .one on then 1 else 0) first second := by
  cases h with
  | unheard hnone =>
    refine ⟨le_rfl, fun hpos => ?_⟩
    split_ifs with hon
    · cases hon
      exact absurd (sleepers_eq_zero.mpr hnone) hpos.ne'
    · exact le_rfl
  | @one other before after call =>
    refine ⟨by simp [sleepsOn], fun _ => ?_⟩
    by_cases hon : other = on <;> simp [wokenOn]
  | @all other =>
    constructor
    · rw [sleepers, countP_map]
      refine countP_mono_left fun thread _ hthread => ?_
      rw [Function.comp_apply, sleepsOn_wakeOn, Bool.and_eq_true] at hthread
      exact hthread.1
    · intro _
      rw [wakers, wakers, countP_map]
      exact countP_mono_left fun thread _ hthread =>
        wokenOn_le_wakeOn on other thread hthread

theorem SignalledAll.roused (h : SignalledAll signals first second) (on : κ) :
    Roused on (signals.count (.one on)) first second := by
  induction h with
  | nil => exact ⟨le_rfl, fun _ => by simp⟩
  | @cons signal signals first second third hsignal _ ih =>
    have hhead := hsignal.roused on
    refine ⟨ih.sleepers_le.trans hhead.sleepers_le, fun hpos => ?_⟩
    have hwoken := hhead.wakers_le (hpos.trans_le ih.sleepers_le)
    have hrest := ih.wakers_le hpos
    rw [count_cons]
    simp only [beq_iff_eq]
    omega

theorem SignalledAll.none_sleeps (h : SignalledAll signals first second)
    (hall : .all on ∈ signals) : sleepers on second = 0 := by
  induction h with
  | nil => cases hall
  | @cons signal signals first second third hsignal hrest ih =>
    rcases mem_cons.mp hall with rfl | hlater
    · -- The first signal leaves no sleeper, and the others add none.
      cases hsignal
      have hnone : sleepers on (first.map (wakeOn on)) = 0 := by
        simp [sleepers, sleepsOn_wakeOn]
      exact Nat.eq_zero_of_le_zero (hnone ▸ (hrest.roused on).sleepers_le)
    · exact ih hlater

/-! ## Wake-ups are not lost -/

theorem Proper.wakeOn {thread : Thread κ γ} (h : Proper body thread) (on : κ) :
    Proper body (wakeOn on thread) := by
  cases thread with
  | sleeping call other =>
    by_cases hon : other = on
    · rw [Thread.wakeOn, if_pos hon]
      exact proper_woken.mpr (proper_sleeping.mp h)
    · rw [Thread.wakeOn, if_neg hon]
      exact h
  | _ => exact h

theorem Signalled.proper (h : Signalled signal first second)
    (hproper : ∀ thread ∈ first, Proper body thread) : ∀ thread ∈ second, Proper body thread := by
  cases h with
  | unheard => exact hproper
  | one =>
    intro thread hthread
    simp only [mem_append, mem_cons] at hthread hproper
    rcases hthread with hbefore | rfl | hafter
    · exact hproper thread (.inl hbefore)
    · exact proper_woken.mpr (proper_sleeping.mp (hproper _ (.inr (.inl rfl))))
    · exact hproper thread (.inr (.inr hafter))
  | all =>
    intro thread hthread
    obtain ⟨earlier, hearlier, rfl⟩ := mem_map.mp hthread
    exact (hproper earlier hearlier).wakeOn _

theorem SignalledAll.proper (h : SignalledAll signals first second)
    (hproper : ∀ thread ∈ first, Proper body thread) : ∀ thread ∈ second, Proper body thread := by
  induction h with
  | nil => exact hproper
  | cons hsignal _ ih => exact ih (hsignal.proper hproper)

/-- What the calls of a monitor owe to one condition variable.  `demand` is the number of
threads the state has work for, `final` says that no thread may sleep any more, and `keeps` is
what the states of a run are known to satisfy. -/
structure Accounts (body : γ → σ → Section σ κ ρ) (keeps : σ → Prop) (on : κ)
    (demand : σ → Nat) (final : σ → Prop) : Prop where
  wait : ∀ {state call}, keeps state → body call state = .wait on →
    demand state = 0 ∧ ¬final state
  one_variable : ∀ {state call other}, Waits body call on → body call state = .wait other →
    other = on
  done : ∀ {state call next signals result}, keeps state →
    body call state = .done next signals result →
      demand next ≤ demand state + signals.count (.one on)
  waiter : ∀ {state call next signals result}, keeps state → Waits body call on →
    body call state = .done next signals result →
      demand next + 1 ≤ demand state + signals.count (.one on) ∨ demand next = 0
  final : ∀ {state call next signals result}, keeps state →
    body call state = .done next signals result → final next → final state ∨ .all on ∈ signals

/-- While a thread sleeps on the variable, the state is not final, and as many threads are
awake as there is demand. -/
structure Awake (body : γ → σ → Section σ κ ρ) (on : κ) (demand : σ → Nat) (final : σ → Prop)
    (config : Config σ κ γ ρ) : Prop where
  proper : ∀ thread ∈ config.threads, Proper body thread
  demand_le : 0 < sleepers on config.threads → demand config.state ≤ wakers on config.threads
  none_sleeps : final config.state → sleepers on config.threads = 0

theorem Awake.sleeper {demand : σ → Nat} {final : σ → Prop}
    (h : Awake body on demand final config) (hsleeping : sleeping call on ∈ config.threads) :
    ¬final config.state ∧ (0 < demand config.state →
      ∃ other, woken other on ∈ config.threads ∧ Waits body other on) := by
  have hpos : 0 < sleepers on config.threads :=
    countP_pos_iff.mpr ⟨_, hsleeping, decide_eq_true rfl⟩
  refine ⟨fun hfinal => hpos.ne' (h.none_sleeps hfinal), fun hdemand => ?_⟩
  obtain ⟨thread, hthread, hwoken⟩ :=
    countP_pos_iff.mp (hdemand.trans_le (h.demand_le hpos))
  cases thread with
  | woken other variant =>
    obtain rfl : variant = on := of_decide_eq_true hwoken
    exact ⟨other, hthread, proper_woken.mp (h.proper _ hthread)⟩
  | _ => cases hwoken

theorem awake_start (body : γ → σ → Section σ κ ρ) (on : κ) (demand : σ → Nat)
    (final : σ → Prop) (state : σ) (count : Nat) :
    Awake body on demand final ⟨state, List.replicate count idle, []⟩ := by
  have hnone : sleepers on (List.replicate count (idle : Thread κ γ)) = 0 :=
    sleepers_eq_zero.mpr fun thread hthread => by
      rw [eq_of_mem_replicate hthread]
      rfl
  refine ⟨fun thread hthread => ?_, fun hpos => absurd hnone hpos.ne', fun _ => hnone⟩
  rw [eq_of_mem_replicate hthread]
  exact proper_idle

variable {keeps : σ → Prop} {on : κ} {demand : σ → Nat} {final : σ → Prop}

theorem Awake.step {next : Config σ κ γ ρ} (haccounts : Accounts body keeps on demand final)
    (hkeeps : keeps config.state) (h : Awake body on demand final config)
    (hstep : Step body config next) : Awake body on demand final next := by
  obtain ⟨hproper, hdemand, hfinal⟩ := h
  cases hstep with
  | call call =>
    rw [proper_middle] at hproper
    refine ⟨proper_middle.mpr ⟨proper_calling call, hproper.2⟩, ?_, ?_⟩
    · simpa [sleepsOn, wokenOn] using hdemand
    · simpa [sleepsOn] using hfinal
  | @sleep state before after returned thread call other hentering hbody =>
    rw [proper_middle] at hproper
    simp only [sleepers_middle, wakers_middle] at hdemand hfinal
    rw [hentering.not_sleeping on] at hdemand hfinal
    refine ⟨proper_middle.mpr ⟨proper_sleeping.mpr ⟨state, hbody⟩, hproper.2⟩, ?_, ?_⟩
    all_goals by_cases hon : other = on
    · subst hon
      rw [(haccounts.wait hkeeps hbody).1]
      exact fun _ => Nat.zero_le _
    · -- A thread woken on the variable can only go back to sleep on it.
      have hwoken : wokenOn on thread = false := by
        by_contra hwoken
        rw [Bool.not_eq_false] at hwoken
        exact hon (haccounts.one_variable (hentering.waits hwoken hproper.1) hbody)
      rw [hwoken] at hdemand
      simpa [sleepsOn, wokenOn, hon] using hdemand
    · subst hon
      exact fun hlast => absurd hlast (haccounts.wait hkeeps hbody).2
    · simpa [sleepsOn, hon] using hfinal
  | @finish state next before after threads returned thread call signals result hentering hbody
      hsignals =>
      change keeps state at hkeeps
      rw [proper_middle] at hproper
      simp only [sleepers_middle] at hdemand hfinal
      obtain ⟨hsleepers, hwakers⟩ := hsignals.roused on
      rw [hentering.not_sleeping on] at hdemand hfinal
      simp only [sleepers_middle, wakers_middle] at hsleepers hwakers hdemand hfinal
      refine ⟨hsignals.proper (proper_middle.mpr ⟨proper_idle, hproper.2⟩), ?_, ?_⟩
      · intro hpos
        have hwoken := hwakers hpos
        have hearlier := hdemand (hpos.trans_le hsleepers)
        have hdone := haccounts.done hkeeps hbody
        by_cases hthread : wokenOn on thread = true
        · rw [if_pos hthread] at hearlier
          rcases haccounts.waiter hkeeps (hentering.waits hthread hproper.1) hbody with h | h
          all_goals simp only
          all_goals omega
        · rw [if_neg hthread] at hearlier
          simp only
          omega
      · intro hlast
        rcases haccounts.final hkeeps hbody hlast with hbefore | hall
        · exact Nat.eq_zero_of_le_zero ((hfinal hbefore) ▸ hsleepers)
        · exact hsignals.none_sleeps hall
  | @spurious state before after returned call other =>
    rw [proper_middle] at hproper
    simp only [sleepers_middle] at hdemand hfinal
    refine ⟨proper_middle.mpr ⟨proper_woken.mpr (proper_sleeping.mp hproper.1), hproper.2⟩, ?_, ?_⟩
    all_goals simp only [sleepers_middle]
    · by_cases hon : other = on <;> simp [sleepsOn, wokenOn] at hdemand ⊢ <;> omega
    · intro hlast
      have hnone := hfinal hlast
      simp only [sleepsOn, Bool.false_eq_true, if_false]
      omega

theorem Reachable.awake (haccounts : Accounts body keeps on demand final)
    (hkeeps : ∀ {config}, Reachable body start count config → keeps config.state)
    (h : Reachable body start count config) : Awake body on demand final config := by
  induction h with
  | refl => exact awake_start body on demand final start count
  | tail hrun hstep ih => exact ih.step haccounts (hkeeps hrun) hstep

end

end Disp.Library.Monitor
