import Mathlib.Data.List.Basic
import Mathlib.Order.Basic

/-!
# Resource accounting

A `RuntimeBudget` counts what the interpreter and its threads hold: tasks, threads, handles,
explicit memory and the memory of objects.  Every operation on a counter is one atomic event,
and those on memory are made under a gate, so a run is a sequence of such events, whichever
thread they come from.  The stores of `reset`, made when a second run starts, are events as well.

The counters agree with what is held at every point of a run, exactly if no counter is reset
while something it counts is held and no thread ends with object memory on its account.
-/

namespace Disp.Concurrency.Budget

open List

variable {counter amount limit next : UInt64} {sizes : List UInt64} {index : Nat} {size : UInt64}
  {thread : Option Nat} {previous bytes : UInt64}

/-! ## Counters -/

def checkedAdd (a b : UInt64) : Option UInt64 :=
  if a.toNat + b.toNat < UInt64.size then some (a + b) else none

/-- `RuntimeBudget::charge`: the new value of the counter. -/
def charge (counter amount limit : UInt64) : Option UInt64 :=
  (checkedAdd counter amount).filter (· ≤ limit)

structure RuntimeLimits where
  maxSteps : UInt64
  maxOutputBytes : UInt64
  maxTasks : UInt64
  maxThreads : UInt64
  maxProcessStarts : UInt64
  maxHandles : UInt64
  maxMemoryBytes : UInt64
  deriving DecidableEq

structure RuntimeBudget where
  limits : RuntimeLimits
  steps : UInt64
  outputBytes : UInt64
  liveTasks : UInt64
  liveThreads : UInt64
  processStarts : UInt64
  liveHandles : UInt64
  liveMemoryBytes : UInt64
  liveObjectBytes : UInt64
  deriving DecidableEq

namespace RuntimeBudget

def new (limits : RuntimeLimits) : RuntimeBudget := ⟨limits, 0, 0, 0, 0, 0, 0, 0, 0⟩

/-- The memory in use after `amount` more bytes keeps within the limit. -/
def fits (budget : RuntimeBudget) (amount : UInt64) : Bool :=
  match (checkedAdd budget.liveMemoryBytes budget.liveObjectBytes).bind (checkedAdd · amount) with
  | none => false
  | some total => decide (total ≤ budget.limits.maxMemoryBytes)

def chargeExplicitMemory (budget : RuntimeBudget) (amount : UInt64) : Option RuntimeBudget :=
  if budget.fits amount then
    (checkedAdd budget.liveMemoryBytes amount).map fun bytes =>
      { budget with liveMemoryBytes := bytes }
  else
    none

def releaseExplicitMemory (budget : RuntimeBudget) (amount : UInt64) : RuntimeBudget :=
  { budget with liveMemoryBytes := budget.liveMemoryBytes - amount }

def reconcileObjectMemory (budget : RuntimeBudget) (previous next : UInt64) :
    Option RuntimeBudget :=
  if previous < next then
    if budget.fits (next - previous) then
      some { budget with liveObjectBytes := budget.liveObjectBytes + (next - previous) }
    else
      none
  else if next < previous then
    some { budget with liveObjectBytes := budget.liveObjectBytes - (previous - next) }
  else
    some budget

end RuntimeBudget

/-! ## Runs -/

/-- The counters that `reset` stores zero in, in its order. -/
inductive Counter where
  | steps
  | outputBytes
  | liveTasks
  | liveThreads
  | processStarts
  | liveHandles
  | liveMemoryBytes
  | liveObjectBytes
  deriving DecidableEq

/-- The budget and what is held: tasks and handles, memory regions with their sizes, the object
memory on the account of the interpreter, and that on the account of each running thread. -/
structure Runtime where
  budget : RuntimeBudget
  tasks : Nat
  handles : Nat
  regions : List UInt64
  accounted : UInt64
  threads : List UInt64
  deriving DecidableEq

/-- An atomic operation of the interpreter or one of its threads.  In `reconcile` a thread is
given by its position, and none is the interpreter itself. -/
inductive Event where
  | chargeSteps (amount : UInt64)
  | chargeOutput (amount : UInt64)
  | chargeProcessStart
  | spawnTask
  | dropTask
  | acquireHandle
  | dropHandle
  | spawnThread
  | endThread (thread : Nat)
  | allocate (size : UInt64)
  | free (region : Nat)
  | reconcile (thread : Option Nat) (next : UInt64)
  | store (counter : Counter)
  deriving DecidableEq

namespace Runtime

def start (limits : RuntimeLimits) : Runtime := ⟨.new limits, 0, 0, [], 0, []⟩

def account (runtime : Runtime) : Option Nat → Option UInt64
  | none => some runtime.accounted
  | some thread => runtime.threads[thread]?

def setAccount (runtime : Runtime) (next : UInt64) : Option Nat → Runtime
  | none => { runtime with accounted := next }
  | some thread => { runtime with threads := runtime.threads.set thread next }

/-- A store of `reset`.  The interpreter forgets its own account with the last one. -/
def reset (runtime : Runtime) : Counter → Runtime
  | .steps => { runtime with budget := { runtime.budget with steps := 0 } }
  | .outputBytes => { runtime with budget := { runtime.budget with outputBytes := 0 } }
  | .liveTasks => { runtime with budget := { runtime.budget with liveTasks := 0 } }
  | .liveThreads => { runtime with budget := { runtime.budget with liveThreads := 0 } }
  | .processStarts => { runtime with budget := { runtime.budget with processStarts := 0 } }
  | .liveHandles => { runtime with budget := { runtime.budget with liveHandles := 0 } }
  | .liveMemoryBytes => { runtime with budget := { runtime.budget with liveMemoryBytes := 0 } }
  | .liveObjectBytes =>
    { runtime with budget := { runtime.budget with liveObjectBytes := 0 }, accounted := 0 }

end Runtime

/-- The runtime after an event, or nothing if there is nothing to drop.  An operation that is
refused leaves everything as it is. -/
def step (runtime : Runtime) : Event → Option Runtime
  | .chargeSteps amount =>
    match charge runtime.budget.steps amount runtime.budget.limits.maxSteps with
    | none => some runtime
    | some steps => some { runtime with budget := { runtime.budget with steps } }
  | .chargeOutput amount =>
    match charge runtime.budget.outputBytes amount runtime.budget.limits.maxOutputBytes with
    | none => some runtime
    | some outputBytes => some { runtime with budget := { runtime.budget with outputBytes } }
  | .chargeProcessStart =>
    match charge runtime.budget.processStarts 1 runtime.budget.limits.maxProcessStarts with
    | none => some runtime
    | some processStarts =>
      some { runtime with budget := { runtime.budget with processStarts } }
  | .spawnTask =>
    match charge runtime.budget.liveTasks 1 runtime.budget.limits.maxTasks with
    | none => some runtime
    | some liveTasks => some { runtime with
        budget := { runtime.budget with liveTasks }, tasks := runtime.tasks + 1 }
  | .dropTask =>
    if runtime.tasks = 0 then none
    else some { runtime with
      budget := { runtime.budget with liveTasks := runtime.budget.liveTasks - 1 },
      tasks := runtime.tasks - 1 }
  | .acquireHandle =>
    match charge runtime.budget.liveHandles 1 runtime.budget.limits.maxHandles with
    | none => some runtime
    | some liveHandles => some { runtime with
        budget := { runtime.budget with liveHandles }, handles := runtime.handles + 1 }
  | .dropHandle =>
    if runtime.handles = 0 then none
    else some { runtime with
      budget := { runtime.budget with liveHandles := runtime.budget.liveHandles - 1 },
      handles := runtime.handles - 1 }
  | .spawnThread =>
    match charge runtime.budget.liveThreads 1 runtime.budget.limits.maxThreads with
    | none => some runtime
    | some liveThreads => some { runtime with
        budget := { runtime.budget with liveThreads }, threads := runtime.threads ++ [0] }
  | .endThread thread =>
    match runtime.threads[thread]? with
    | none => none
    | some _ => some { runtime with
        budget := { runtime.budget with liveThreads := runtime.budget.liveThreads - 1 },
        threads := runtime.threads.eraseIdx thread }
  | .allocate size =>
    match runtime.budget.chargeExplicitMemory size with
    | none => some runtime
    | some budget => some { runtime with budget, regions := runtime.regions ++ [size] }
  | .free region =>
    match runtime.regions[region]? with
    | none => none
    | some size => some { runtime with
        budget := runtime.budget.releaseExplicitMemory size,
        regions := runtime.regions.eraseIdx region }
  | .reconcile thread next =>
    match runtime.account thread with
    | none => none
    | some previous =>
      match runtime.budget.reconcileObjectMemory previous next with
      | none => some runtime
      | some budget => some ({ runtime with budget }.setAccount next thread)
  | .store counter => some (runtime.reset counter)

/-! ## Accuracy -/

variable {runtime : Runtime} {event : Event}

def total : List UInt64 → Nat
  | [] => 0
  | size :: sizes => size.toNat + total sizes

/-- The counters are what is held, and within their limits. -/
structure Accurate (runtime : Runtime) : Prop where
  tasks_eq : runtime.budget.liveTasks.toNat = runtime.tasks
  threads_eq : runtime.budget.liveThreads.toNat = runtime.threads.length
  handles_eq : runtime.budget.liveHandles.toNat = runtime.handles
  memory_eq : runtime.budget.liveMemoryBytes.toNat = total runtime.regions
  objects_eq : runtime.budget.liveObjectBytes.toNat =
    runtime.accounted.toNat + total runtime.threads
  steps_le : runtime.budget.steps ≤ runtime.budget.limits.maxSteps
  output_le : runtime.budget.outputBytes ≤ runtime.budget.limits.maxOutputBytes
  tasks_le : runtime.budget.liveTasks ≤ runtime.budget.limits.maxTasks
  threads_le : runtime.budget.liveThreads ≤ runtime.budget.limits.maxThreads
  starts_le : runtime.budget.processStarts ≤ runtime.budget.limits.maxProcessStarts
  handles_le : runtime.budget.liveHandles ≤ runtime.budget.limits.maxHandles
  memory_le : runtime.budget.liveMemoryBytes.toNat + runtime.budget.liveObjectBytes.toNat ≤
    runtime.budget.limits.maxMemoryBytes.toNat

/-- An event subtracts more from a counter than the counter holds. -/
def Wraps (runtime : Runtime) : Event → Prop
  | .dropTask => runtime.tasks ≠ 0 ∧ runtime.budget.liveTasks < 1
  | .dropHandle => runtime.handles ≠ 0 ∧ runtime.budget.liveHandles < 1
  | .endThread thread => thread < runtime.threads.length ∧ runtime.budget.liveThreads < 1
  | .free region => ∃ size, runtime.regions[region]? = some size ∧
      runtime.budget.liveMemoryBytes < size
  | .reconcile thread next => ∃ previous, runtime.account thread = some previous ∧
      next < previous ∧ runtime.budget.liveObjectBytes < previous - next
  | _ => False

/-- No counter is reset while something it counts is held, and no thread ends with object
memory on its account. -/
def Clean (runtime : Runtime) : Event → Prop
  | .store .liveTasks => runtime.tasks = 0
  | .store .liveThreads => runtime.threads = []
  | .store .liveHandles => runtime.handles = 0
  | .store .liveMemoryBytes => total runtime.regions = 0
  | .store .liveObjectBytes => total runtime.threads = 0
  | .endThread thread => ∀ bytes, runtime.threads[thread]? = some bytes → bytes = 0
  | _ => True

def Sound : Runtime → List Event → Prop
  | runtime, [] => Accurate runtime
  | runtime, event :: events => Accurate runtime ∧ ¬Wraps runtime event ∧
      ∀ next, step runtime event = some next → Sound next events

def CleanRun : Runtime → List Event → Prop
  | _, [] => True
  | runtime, event :: events => Clean runtime event ∧
      ∀ next, step runtime event = some next → CleanRun next events

/-! ## Arithmetic of the counters -/

theorem checkedAdd_eq_some {a b sum : UInt64} (h : checkedAdd a b = some sum) :
    sum.toNat = a.toNat + b.toNat := by
  rw [checkedAdd] at h
  split_ifs at h with hsize
  cases h
  exact Nat.mod_eq_of_lt hsize

theorem charge_eq_some (h : charge counter amount limit = some next) :
    next.toNat = counter.toNat + amount.toNat ∧ next ≤ limit := by
  obtain ⟨hadd, hlimit⟩ := Option.filter_eq_some_iff.mp h
  exact ⟨checkedAdd_eq_some hadd, of_decide_eq_true hlimit⟩

theorem fits_eq_true {budget : RuntimeBudget} (h : budget.fits amount = true) :
    budget.liveMemoryBytes.toNat + budget.liveObjectBytes.toNat + amount.toNat ≤
      budget.limits.maxMemoryBytes.toNat := by
  rw [RuntimeBudget.fits] at h
  split at h
  · cases h
  · next sum hsum =>
      obtain ⟨part, hpart, hwhole⟩ := Option.bind_eq_some_iff.mp hsum
      have hle : sum.toNat ≤ budget.limits.maxMemoryBytes.toNat :=
        UInt64.le_iff_toNat_le.mp (of_decide_eq_true h)
      rw [checkedAdd_eq_some hwhole, checkedAdd_eq_some hpart] at hle
      exact hle

theorem toNat_sub_one (h : counter.toNat ≠ 0) : (counter - 1).toNat = counter.toNat - 1 :=
  UInt64.toNat_sub_of_le _ _ (UInt64.le_iff_toNat_le.mpr (Nat.one_le_iff_ne_zero.mpr h))

theorem total_eraseIdx (h : sizes[index]? = some size) :
    total (sizes.eraseIdx index) + size.toNat = total sizes := by
  induction sizes generalizing index with
  | nil => cases h
  | cons first sizes ih =>
    cases index with
    | zero =>
      cases h
      simp only [total, eraseIdx_cons_zero]
      omega
    | succ index =>
      have hrest := ih h
      simp only [total, eraseIdx_cons_succ]
      omega

theorem total_set (h : sizes[index]? = some size) (next : UInt64) :
    total (sizes.set index next) + size.toNat = total sizes + next.toNat := by
  induction sizes generalizing index with
  | nil => cases h
  | cons first sizes ih =>
    cases index with
    | zero =>
      cases h
      simp only [total, set_cons_zero]
      omega
    | succ index =>
      have hrest := ih h
      simp only [total, set_cons_succ]
      omega

theorem total_append_singleton (sizes : List UInt64) (size : UInt64) :
    total (sizes ++ [size]) = total sizes + size.toNat := by
  induction sizes with
  | nil => simp [total]
  | cons first sizes ih => rw [cons_append, total, ih, total, Nat.add_assoc]

theorem length_eraseIdx_of_some (h : sizes[index]? = some size) :
    (sizes.eraseIdx index).length + 1 = sizes.length := by
  obtain ⟨hlt, -⟩ := List.getElem?_eq_some_iff.mp h
  rw [length_eraseIdx_of_lt hlt]
  omega

theorem account_le (h : runtime.account thread = some previous) :
    previous.toNat ≤ runtime.accounted.toNat + total runtime.threads := by
  cases thread with
  | none =>
    cases h
    exact Nat.le_add_right _ _
  | some thread =>
    have hset := total_eraseIdx h
    omega

theorem account_setAccount (h : runtime.account thread = some previous) (next : UInt64) :
    (runtime.setAccount next thread).accounted.toNat +
        total (runtime.setAccount next thread).threads + previous.toNat =
      runtime.accounted.toNat + total runtime.threads + next.toNat := by
  cases thread with
  | none =>
    cases h
    simp only [Runtime.setAccount]
    omega
  | some thread =>
    have hset := total_set h next
    simp only [Runtime.setAccount]
    omega

/-! ## Steps -/

theorem accurate_start (limits : RuntimeLimits) : Accurate (Runtime.start limits) := by
  constructor <;> simp [Runtime.start, RuntimeBudget.new, total]

/-- An accurate state has in each counter what an event can subtract from it. -/
theorem Accurate.not_wraps (h : Accurate runtime) (event : Event) : ¬Wraps runtime event := by
  have hone : ∀ {counter : UInt64}, counter < 1 → counter.toNat = 0 := fun hlt => by
    have := UInt64.lt_iff_toNat_lt.mp hlt
    simpa using this
  cases event with
  | dropTask =>
    rintro ⟨hheld, hlt⟩
    exact hheld (h.tasks_eq ▸ hone hlt)
  | dropHandle =>
    rintro ⟨hheld, hlt⟩
    exact hheld (h.handles_eq ▸ hone hlt)
  | endThread thread =>
    rintro ⟨hheld, hlt⟩
    have := h.threads_eq ▸ hone hlt
    omega
  | free region =>
    rintro ⟨size, hsize, hlt⟩
    have herase := total_eraseIdx hsize
    have hlt := UInt64.lt_iff_toNat_lt.mp hlt
    have := h.memory_eq
    omega
  | reconcile thread next =>
    rintro ⟨previous, hprev, hshrinks, hlt⟩
    have hle := account_le hprev
    have hlt := UInt64.lt_iff_toNat_lt.mp hlt
    rw [UInt64.toNat_sub_of_le _ _ (UInt64.le_of_lt hshrinks)] at hlt
    have := h.objects_eq
    omega
  | _ => exact fun hwraps => hwraps

/-- A reconciliation moves the counter by as much as it moves the account. -/
theorem reconcileObjectMemory_eq_some {budget next : RuntimeBudget}
    (h : budget.reconcileObjectMemory previous bytes = some next)
    (hheld : previous.toNat ≤ budget.liveObjectBytes.toNat)
    (hlimit : budget.liveMemoryBytes.toNat + budget.liveObjectBytes.toNat ≤
      budget.limits.maxMemoryBytes.toNat) :
    ∃ objects, next = { budget with liveObjectBytes := objects } ∧
      objects.toNat + previous.toNat = budget.liveObjectBytes.toNat + bytes.toNat ∧
      budget.liveMemoryBytes.toNat + objects.toNat ≤ budget.limits.maxMemoryBytes.toNat := by
  rw [RuntimeBudget.reconcileObjectMemory] at h
  split_ifs at h with hgrows hfits hshrinks
  · cases h
    have hroom := fits_eq_true hfits
    have hsize := budget.limits.maxMemoryBytes.toNat_lt
    have hgrowth := UInt64.toNat_sub_of_le _ _ (UInt64.le_of_lt hgrows)
    have hless := UInt64.lt_iff_toNat_lt.mp hgrows
    have hsum : (budget.liveObjectBytes + (bytes - previous)).toNat =
        budget.liveObjectBytes.toNat + (bytes - previous).toNat := by
      rw [UInt64.toNat_add]
      exact Nat.mod_eq_of_lt (by omega)
    exact ⟨_, rfl, by omega, by omega⟩
  · cases h
    have hloss := UInt64.toNat_sub_of_le _ _ (UInt64.le_of_lt hshrinks)
    have hless := UInt64.lt_iff_toNat_lt.mp hshrinks
    have hdifference := UInt64.toNat_sub_of_le budget.liveObjectBytes (previous - bytes)
      (UInt64.le_iff_toNat_le.mpr (by omega))
    exact ⟨_, rfl, by omega, by omega⟩
  · cases h
    have hsame : previous.toNat = bytes.toNat := by
      have hle := UInt64.le_iff_toNat_le.mp (UInt64.not_lt.mp hgrows)
      have hge := UInt64.le_iff_toNat_le.mp (UInt64.not_lt.mp hshrinks)
      omega
    exact ⟨_, rfl, by omega, hlimit⟩

theorem Accurate.reconcile (h : Accurate runtime)
    (hprev : runtime.account thread = some previous) {budget : RuntimeBudget}
    (hbudget : runtime.budget.reconcileObjectMemory previous bytes = some budget) :
    Accurate ({ runtime with budget }.setAccount bytes thread) := by
  have hheld := account_le hprev
  obtain ⟨objects, rfl, hobjects, hlimit⟩ := reconcileObjectMemory_eq_some hbudget
    (h.objects_eq ▸ hheld) h.memory_le
  have hmoved := account_setAccount hprev bytes
  have hequal := h.objects_eq
  cases thread with
  | none =>
    simp only [Runtime.setAccount] at hmoved
    exact { h with
      objects_eq := by simp only [Runtime.setAccount]; omega
      memory_le := hlimit }
  | some thread =>
    simp only [Runtime.setAccount] at hmoved
    exact { h with
      threads_eq := by simpa [Runtime.setAccount] using h.threads_eq
      objects_eq := by simp only [Runtime.setAccount]; omega
      memory_le := hlimit }

theorem chargeExplicitMemory_eq_some {budget next : RuntimeBudget}
    (h : budget.chargeExplicitMemory amount = some next) :
    ∃ bytes, next = { budget with liveMemoryBytes := bytes } ∧
      bytes.toNat = budget.liveMemoryBytes.toNat + amount.toNat ∧
      bytes.toNat + budget.liveObjectBytes.toNat ≤ budget.limits.maxMemoryBytes.toNat := by
  rw [RuntimeBudget.chargeExplicitMemory] at h
  split_ifs at h with hfits
  obtain ⟨bytes, hbytes, rfl⟩ := Option.map_eq_some_iff.mp h
  have hroom := fits_eq_true hfits
  have hsum := checkedAdd_eq_some hbytes
  exact ⟨bytes, rfl, hsum, by omega⟩

theorem Accurate.store {counter : Counter} (h : Accurate runtime)
    (hclean : Clean runtime (.store counter)) : Accurate (runtime.reset counter) := by
  have hzero : ∀ limit : UInt64, 0 ≤ limit := fun limit =>
    UInt64.le_iff_toNat_le.mpr (Nat.zero_le _)
  have hmem := h.memory_le
  cases counter with
  | steps => exact { h with steps_le := hzero _ }
  | outputBytes => exact { h with output_le := hzero _ }
  | liveTasks => exact { h with tasks_eq := hclean.symm, tasks_le := hzero _ }
  | liveThreads =>
    exact { h with threads_eq := (congrArg List.length hclean).symm, threads_le := hzero _ }
  | processStarts => exact { h with starts_le := hzero _ }
  | liveHandles => exact { h with handles_eq := hclean.symm, handles_le := hzero _ }
  | liveMemoryBytes =>
    exact { h with
      memory_eq := hclean.symm
      memory_le := by simp only [Runtime.reset, UInt64.toNat_zero]; omega }
  | liveObjectBytes =>
    have hnone : total runtime.threads = 0 := hclean
    exact { h with
      objects_eq := by simp only [Runtime.reset]; omega
      memory_le := by simp only [Runtime.reset, UInt64.toNat_zero]; omega }

theorem le_of_toNat_eq_sub (h : next.toNat = counter.toNat - 1) (hlimit : counter ≤ limit) :
    next ≤ limit := by
  have hle := UInt64.le_iff_toNat_le.mp hlimit
  exact UInt64.le_iff_toNat_le.mpr (by omega)

/-- A charge is refused, or its counter stays within the limit. -/
theorem Accurate.charged {apply : UInt64 → Runtime} {next : Runtime} (h : Accurate runtime)
    (hstep : (match charge counter amount limit with
      | none => some runtime
      | some value => some (apply value)) = some next)
    (happly : ∀ value, value.toNat = counter.toNat + amount.toNat → value ≤ limit →
      Accurate (apply value)) : Accurate next := by
  split at hstep
  · cases hstep
    exact h
  · next value hcharge =>
      cases hstep
      obtain ⟨hsum, hlimit⟩ := charge_eq_some hcharge
      exact happly value hsum hlimit

theorem Accurate.step {next : Runtime} (h : Accurate runtime) (hclean : Clean runtime event)
    (hstep : step runtime event = some next) : Accurate next := by
  cases event with
  | chargeSteps amount => exact h.charged hstep fun _ _ hlimit => { h with steps_le := hlimit }
  | chargeOutput amount => exact h.charged hstep fun _ _ hlimit => { h with output_le := hlimit }
  | chargeProcessStart => exact h.charged hstep fun _ _ hlimit => { h with starts_le := hlimit }
  | spawnTask =>
    exact h.charged hstep fun _ hsum hlimit =>
      { h with tasks_eq := hsum.trans (congrArg (· + 1) h.tasks_eq), tasks_le := hlimit }
  | dropTask =>
    simp only [Budget.step] at hstep
    split_ifs at hstep with hnone
    cases hstep
    have hsub := toNat_sub_one (h.tasks_eq.trans_ne hnone)
    exact { h with
      tasks_eq := hsub.trans (congrArg (· - 1) h.tasks_eq)
      tasks_le := le_of_toNat_eq_sub hsub h.tasks_le }
  | acquireHandle =>
    exact h.charged hstep fun _ hsum hlimit =>
      { h with handles_eq := hsum.trans (congrArg (· + 1) h.handles_eq), handles_le := hlimit }
  | dropHandle =>
    simp only [Budget.step] at hstep
    split_ifs at hstep with hnone
    cases hstep
    have hsub := toNat_sub_one (h.handles_eq.trans_ne hnone)
    exact { h with
      handles_eq := hsub.trans (congrArg (· - 1) h.handles_eq)
      handles_le := le_of_toNat_eq_sub hsub h.handles_le }
  | spawnThread =>
    refine h.charged hstep fun _ hsum hlimit => { h with
      threads_eq := ?_
      objects_eq := ?_
      threads_le := hlimit }
    · rw [hsum, h.threads_eq, length_append]
      rfl
    · rw [h.objects_eq, total_append_singleton]
      rfl
  | endThread thread =>
    simp only [Budget.step] at hstep
    split at hstep
    · cases hstep
    · next bytes hbytes =>
        cases hstep
        obtain rfl := hclean bytes hbytes
        have hlen := length_eraseIdx_of_some hbytes
        have herase := total_eraseIdx hbytes
        have hequal := h.threads_eq
        have hsub := toNat_sub_one (show runtime.budget.liveThreads.toNat ≠ 0 by omega)
        have hobjects := h.objects_eq
        rw [UInt64.toNat_zero] at herase
        exact { h with
          threads_eq := by simp only; omega
          objects_eq := by simp only; omega
          threads_le := le_of_toNat_eq_sub hsub h.threads_le }
  | allocate size =>
    simp only [Budget.step] at hstep
    split at hstep
    · cases hstep
      exact h
    · next budget hcharge =>
        cases hstep
        obtain ⟨bytes, rfl, hsum, hlimit⟩ := chargeExplicitMemory_eq_some hcharge
        exact { h with
          memory_eq := by rw [hsum, h.memory_eq, total_append_singleton]
          memory_le := hlimit }
  | free region =>
    simp only [Budget.step] at hstep
    split at hstep
    · cases hstep
    · next size hsize =>
        cases hstep
        have herase := total_eraseIdx hsize
        have hequal := h.memory_eq
        have hlimit := h.memory_le
        have hsub := UInt64.toNat_sub_of_le runtime.budget.liveMemoryBytes size
          (UInt64.le_iff_toNat_le.mpr (by omega))
        exact { h with
          memory_eq := by simp only [RuntimeBudget.releaseExplicitMemory]; omega
          memory_le := by simp only [RuntimeBudget.releaseExplicitMemory]; omega }
  | reconcile thread bytes =>
    simp only [Budget.step] at hstep
    split at hstep
    · cases hstep
    · next previous hprev =>
        split at hstep
        · cases hstep
          exact h
        · next budget hbudget =>
            cases hstep
            exact h.reconcile hprev hbudget
  | store counter =>
    cases hstep
    exact h.store hclean

/-- A step between accurate states is clean. -/
theorem clean_of_accurate {next : Runtime} (h : Accurate runtime)
    (hstep : step runtime event = some next) (hnext : Accurate next) : Clean runtime event := by
  cases event with
  | store counter =>
    cases hstep
    cases counter with
    | liveTasks => exact hnext.tasks_eq.symm
    | liveThreads => exact eq_nil_of_length_eq_zero hnext.threads_eq.symm
    | liveHandles => exact hnext.handles_eq.symm
    | liveMemoryBytes => exact hnext.memory_eq.symm
    | liveObjectBytes =>
      have hobjects := hnext.objects_eq
      exact Nat.eq_zero_of_add_eq_zero_left hobjects.symm
    | _ => trivial
  | endThread thread =>
    intro bytes hbytes
    simp only [Budget.step, hbytes] at hstep
    cases hstep
    have herase := total_eraseIdx hbytes
    have hbefore := h.objects_eq
    have hafter := hnext.objects_eq
    simp only at hafter
    exact UInt64.toNat_inj.mp (by rw [UInt64.toNat_zero]; omega)
  | _ => trivial

theorem clean_of_impossible (h : step runtime event = none) : Clean runtime event := by
  cases event with
  | store counter => cases h
  | endThread thread =>
    intro bytes hbytes
    simp only [step, hbytes] at h
    cases h
  | _ => trivial

/-! ## Every run -/

theorem Sound.accurate {events : List Event} (h : Sound runtime events) : Accurate runtime := by
  cases events with
  | nil => exact h
  | cons event events => exact h.1

theorem sound_iff_cleanRun (h : Accurate runtime) (events : List Event) :
    Sound runtime events ↔ CleanRun runtime events := by
  induction events generalizing runtime with
  | nil => exact ⟨fun _ => trivial, fun _ => h⟩
  | cons event events ih =>
    constructor
    · rintro ⟨-, -, hrest⟩
      cases hstep : step runtime event with
      | none =>
        refine ⟨clean_of_impossible hstep, fun next hnext => ?_⟩
        rw [hstep] at hnext
        cases hnext
      | some next =>
        have hnext := (hrest next hstep).accurate
        refine ⟨clean_of_accurate h hstep hnext, fun other hother => ?_⟩
        exact (ih (hrest other hother).accurate).mp (hrest other hother)
    · rintro ⟨hclean, hrest⟩
      exact ⟨h, h.not_wraps event, fun next hstep =>
        (ih (h.step hclean hstep)).mpr (hrest next hstep)⟩

/-- From a new budget, whatever events follow: the counters are what is held and within their
limits at every point, and none wraps, exactly if every step is clean. -/
theorem accounting_sound_iff (limits : RuntimeLimits) (events : List Event) :
    Sound (Runtime.start limits) events ↔ CleanRun (Runtime.start limits) events :=
  sound_iff_cleanRun (accurate_start limits) events

/-- The stores of `reset`, in order. -/
def resetStores : List Event :=
  [.store .steps, .store .outputBytes, .store .liveTasks, .store .liveThreads,
    .store .processStarts, .store .liveHandles, .store .liveMemoryBytes, .store .liveObjectBytes]

def runEvents (runtime : Runtime) (events : List Event) : Option Runtime :=
  events.foldlM step runtime

def sixtyFour : RuntimeLimits := ⟨64, 64, 64, 64, 64, 64, 64⟩

/-- A second run starts while a handle is held: the handle is not counted any more, its drop
wraps the counter, and no handle can be acquired afterwards.  And a thread that ends with
object memory on its account leaves it in the counter. -/
theorem reset_while_held :
    ((runEvents (Runtime.start sixtyFour) (.acquireHandle :: resetStores)).map fun runtime =>
      (runtime.budget.liveHandles, runtime.handles)) = some (0, 1) ∧
    ((runEvents (Runtime.start sixtyFour)
      (.acquireHandle :: resetStores ++ [.dropHandle, .acquireHandle])).map fun runtime =>
        (runtime.budget.liveHandles, runtime.handles)) = some (18446744073709551615, 0) ∧
    ((runEvents (Runtime.start sixtyFour)
      [.spawnThread, .reconcile (some 0) 8, .endThread 0]).map fun runtime =>
        (runtime.budget.liveObjectBytes, runtime.accounted, runtime.threads)) =
      some (8, 0, []) := by
  decide

end Disp.Concurrency.Budget
