import Disp.Library.FinishOrder
import Disp.Library.Pointwise
import Disp.Package.Depth
import Mathlib.Data.List.Range

/-!
# The graph that resolution returns

The invariant of the search: the marks, the identities and the recorded packages fit
together, and the packages are recorded in a finishing order.  From it follow the shape of
the graph and that no reachable cycle of manifests resolves.  The depth test is made when a
directory is first met, so a chain that re-enters a complete package is not bounded by it.
-/

namespace Disp.Package

open Disp.Library.Codec Disp.Library.FinishOrder Disp.Library.Pointwise List

variable {s t : Resolver} {host : Host} {root : Path} {s' : Resolver} {package : ResolvedPackage}
  {α β : Type*} {map : AList fun _ : α => β} {key : α} {value : β}

/-! ## Chains of manifests and of packages -/

/-- The manifest in `directory` asks for the package in `other`. -/
def Requires (host : Host) (directory other : Path) : Prop :=
  ∃ manifest, host.parseManifest (manifestPath directory) = .ok manifest ∧
    ∃ dependency ∈ manifest.dependencies,
      host.canonicalize (directory ++ dependency.2.path) = .ok other

/-- The package `id` has `other` in its dependency map. -/
def PackageGraph.DependsOn (graph : PackageGraph) (id other : String) : Prop :=
  ∃ package, graph.packages.lookup id = some package ∧
    ∃ dependency ∈ package.dependencies, dependency.2 = other

/-- No chain of manifests from `root` is longer than the depth limit. -/
def Shallow (host : Host) (root : Path) : Prop :=
  ∀ rest, List.IsChain (Requires host) (root :: rest) → (root :: rest).length ≤ maxDependencyDepth

/-- What a resolved graph is to be. -/
structure WellResolved (host : Host) (graph : PackageGraph) : Prop where
  root : ∃ package, graph.packages.lookup graph.rootId = some package ∧
    package.root = graph.projectRoot
  /-- The dependency map of a package is that of its manifest, and leads to packages. -/
  closed : ∀ {id package}, graph.packages.lookup id = some package →
    host.parseManifest (manifestPath package.root) = .ok package.manifest ∧
      List.Forall₂ (fun specification dependency => specification.1 = dependency.1 ∧
          ∃ target, graph.packages.lookup dependency.2 = some target ∧
            host.canonicalize (package.root ++ specification.2.path) = .ok target.root)
        package.manifest.dependencies package.dependencies
  acyclic : ∀ id, ¬ Relation.TransGen graph.DependsOn id id
  identified : ∀ {id package}, graph.packages.lookup id = some package →
    package.id = id ∧ id = package.manifest.identity
  oneIdentity : ∀ {id id' package package'}, graph.packages.lookup id = some package →
    graph.packages.lookup id' = some package' → package.root = package'.root → id = id'
  bounded : graph.packages.entries.length ≤ maxPackages
  depth : ∀ rest, List.IsChain graph.DependsOn (graph.rootId :: rest) →
    (graph.rootId :: rest).length ≤ maxDependencyDepth

/-! ## The invariant of the search -/

/-- A dependency of the map answers to the one of the manifest. -/
def Answers (host : Host) (packages : AList fun _ : String => ResolvedPackage) (root : Path)
    (specification : String × DependencySpec) (dependency : String × String) : Prop :=
  specification.1 = dependency.1 ∧
    ∃ target, packages.lookup dependency.2 = some target ∧
      host.canonicalize (root ++ specification.2.path) = .ok target.root

structure Recorded (host : Host) (s : Resolver) (id : String) (package : ResolvedPackage) :
    Prop where
  named : package.id = id
  parsed : host.parseManifest (manifestPath package.root) = .ok package.manifest
  identity : id = package.manifest.identity
  complete : s.visits.lookup package.root = some .complete
  placed : s.paths.lookup package.root = some id
  answers : List.Forall₂ (Answers host s.packages package.root) package.manifest.dependencies
    package.dependencies

def order (packages : AList fun _ : String => ResolvedPackage) : List (String × List String) :=
  packages.entries.map fun entry => (entry.1, entry.2.dependencies.map Prod.snd)

structure Invariant (host : Host) (s : Resolver) : Prop where
  complete : ∀ {directory}, s.visits.lookup directory = some .complete →
    ∃ id package, s.paths.lookup directory = some id ∧ s.packages.lookup id = some package ∧
      package.root = directory
  marked : ∀ {directory}, directory ∈ s.visits ↔ directory ∈ s.paths
  identified : ∀ {id directory},
    s.identities.lookup id = some directory ↔ s.paths.lookup directory = some id
  recorded : ∀ {id package}, s.packages.lookup id = some package → Recorded host s id package
  topological : Topological (order s.packages)
  counted : s.packages.entries.length + s.stack.length = s.visits.entries.length
  bounded : s.visits.entries.length ≤ maxPackages

/-- What a visit leaves alone: it adds to the maps and restores the stack. -/
structure Extends (s s' : Resolver) : Prop where
  stack : s'.stack = s.stack
  visits : ∀ {directory mark}, s.visits.lookup directory = some mark →
    s'.visits.lookup directory = some mark
  paths : ∀ {directory id}, s.paths.lookup directory = some id →
    s'.paths.lookup directory = some id
  packages : ∀ {id package}, s.packages.lookup id = some package →
    s'.packages.lookup id = some package

theorem Extends.refl (s : Resolver) : Extends s s :=
  ⟨rfl, id, id, id⟩

theorem Extends.trans {u : Resolver} (hst : Extends s t) (htu : Extends t u) : Extends s u :=
  ⟨htu.stack.trans hst.stack, fun h => htu.visits (hst.visits h),
    fun h => htu.paths (hst.paths h), fun h => htu.packages (hst.packages h)⟩

theorem Answers.mono {packages packages' : AList fun _ : String => ResolvedPackage}
    {specification : String × DependencySpec} {dependency : String × String}
    (hmono : ∀ {id package}, packages.lookup id = some package → packages'.lookup id = some package)
    (h : Answers host packages root specification dependency) :
    Answers host packages' root specification dependency :=
  ⟨h.1, h.2.choose, hmono h.2.choose_spec.1, h.2.choose_spec.2⟩

variable {id : String}

theorem Recorded.mono (h : Recorded host s id package)
    (hvisits : s.visits.lookup package.root = some .complete →
      s'.visits.lookup package.root = some .complete)
    (hpaths : s.paths.lookup package.root = some id → s'.paths.lookup package.root = some id)
    (hpackages : ∀ {id package}, s.packages.lookup id = some package →
      s'.packages.lookup id = some package) : Recorded host s' id package :=
  ⟨h.named, h.parsed, h.identity, hvisits h.complete, hpaths h.placed,
    h.answers.imp fun _ _ => Answers.mono hpackages⟩

theorem mem_of_lookup [DecidableEq α] (h : map.lookup key = some value) : key ∈ map :=
  AList.lookup_isSome.mp (by rw [h]; rfl)

theorem lookup_insert_of_fresh [DecidableEq α] {other : α} {found : β} (hfresh : other ∉ map)
    (h : map.lookup key = some found) : (map.insert other value).lookup key = some found := by
  rw [AList.lookup_insert_ne, h]
  rintro rfl
  exact hfresh (mem_of_lookup h)

theorem length_insert_of_fresh [DecidableEq α] (hfresh : key ∉ map) :
    (map.insert key value).entries.length = map.entries.length + 1 := by
  rw [AList.entries_insert_of_notMem hfresh, length_cons]

theorem length_insert_of_mem [DecidableEq α] (hmem : key ∈ map) :
    (map.insert key value).entries.length = map.entries.length := by
  have hkeys := congrArg List.length (AList.keys_insert (a := key) (b := value) map)
  rw [length_cons, length_erase_of_mem (AList.mem_keys.mp hmem)] at hkeys
  simp only [AList.keys, List.keys, length_map] at hkeys
  have hpos : 0 < map.entries.length := by
    have h := length_pos_of_mem (AList.mem_keys.mp hmem)
    simpa [AList.keys, List.keys] using h
  omega

theorem invariant_initial (host : Host) : Invariant host Resolver.initial where
  complete h := by simp [Resolver.initial] at h
  marked := by simp [Resolver.initial]
  identified := by simp [Resolver.initial]
  recorded h := by simp [Resolver.initial] at h
  topological := trivial
  counted := rfl
  bounded := Nat.zero_le _

/-- Entering a directory met for the first time keeps the invariant. -/
theorem Invariant.enter {manifest : PackageManifest} (h : Invariant host s)
    (hfresh : s.visits.lookup root = none) (hcount : s.visits.entries.length < maxPackages)
    (hinspected : Inspected host s root manifest) :
    Invariant host (s.enter root manifest.identity) := by
  have hvisits : root ∉ s.visits := AList.lookup_eq_none.mp hfresh
  have hpaths : root ∉ s.paths := fun hmem => hvisits (h.marked.mpr hmem)
  -- an identity taken before belongs to this very directory, which has not been met yet
  have hidentity : manifest.identity ∉ s.identities := by
    intro hmem
    obtain ⟨previous, hprev⟩ := Option.isSome_iff_exists.mp (AList.lookup_isSome.mpr hmem)
    rw [hinspected.identified hprev] at hprev
    exact hpaths (mem_of_lookup (h.identified.mp hprev))
  refine ⟨?_, ?_, ?_, ?_, h.topological, ?_, ?_⟩
  · intro directory hdone
    have hne : directory ≠ root := by
      rintro rfl
      simp [Resolver.enter] at hdone
    simp only [Resolver.enter, AList.lookup_insert_ne hne] at hdone ⊢
    exact h.complete hdone
  · intro directory
    simp only [Resolver.enter, AList.mem_insert, h.marked]
  · intro id directory
    simp only [Resolver.enter]
    by_cases hid : id = manifest.identity <;> by_cases hdir : directory = root
    · subst hid hdir
      simp
    · subst hid
      rw [AList.lookup_insert_ne hdir, ← h.identified, AList.lookup_eq_none.mpr hidentity]
      simp [Ne.symm hdir]
    · subst hdir
      rw [AList.lookup_insert_ne hid, h.identified, AList.lookup_eq_none.mpr hpaths]
      simp [Ne.symm hid]
    · rw [AList.lookup_insert_ne hid, AList.lookup_insert_ne hdir, h.identified]
  · intro id package hpackage
    exact (h.recorded hpackage).mono (lookup_insert_of_fresh hvisits)
      (lookup_insert_of_fresh hpaths) fun hother => hother
  · simp only [Resolver.enter, length_insert_of_fresh hvisits, length_append,
      length_singleton, ← h.counted, Nat.add_assoc]
  · simp only [Resolver.enter, length_insert_of_fresh hvisits]
    exact hcount

theorem Invariant.fresh (h : Invariant host s)
    (hvisit : s.visits.lookup root = some .visiting) (hpath : s.paths.lookup root = some id) :
    id ∉ s.packages := by
  intro hmem
  obtain ⟨other, hother⟩ := Option.isSome_iff_exists.mp (AList.lookup_isSome.mpr hmem)
  have hrecorded := h.recorded hother
  have hroot : other.root = root := by
    have hid := h.identified.mpr hrecorded.placed
    rw [h.identified.mpr hpath] at hid
    exact (Option.some.inj hid).symm
  have hdone := hrecorded.complete
  rw [hroot, hvisit] at hdone
  cases hdone

/-- Leaving a directory whose dependencies are recorded keeps the invariant. -/
theorem Invariant.leave (h : Invariant host s)
    (hvisit : s.visits.lookup package.root = some .visiting)
    (hpath : s.paths.lookup package.root = some package.id) (hstack : s.stack ≠ [])
    (hparsed : host.parseManifest (manifestPath package.root) = .ok package.manifest)
    (hidentity : package.id = package.manifest.identity)
    (hanswers : List.Forall₂ (Answers host s.packages package.root) package.manifest.dependencies
      package.dependencies) : Invariant host (s.leave package) := by
  have hfresh := h.fresh hvisit hpath
  have hpackages : ∀ {id other}, s.packages.lookup id = some other →
      (s.leave package).packages.lookup id = some other := lookup_insert_of_fresh hfresh
  refine ⟨?_, ?_, h.identified, ?_, ?_, ?_, ?_⟩
  · intro directory hdone
    by_cases hdir : directory = package.root
    · subst hdir
      exact ⟨package.id, package, hpath, AList.lookup_insert _, rfl⟩
    · simp only [Resolver.leave, AList.lookup_insert_ne hdir] at hdone
      obtain ⟨id, other, hplaced, hother, hroot⟩ := h.complete hdone
      exact ⟨id, other, hplaced, hpackages hother, hroot⟩
  · intro directory
    simp only [Resolver.leave, AList.mem_insert, h.marked]
    constructor
    · rintro (rfl | hmem)
      · exact mem_of_lookup hpath
      · exact hmem
    · exact .inr
  · intro id other hother
    by_cases hid : id = package.id
    · subst hid
      simp only [Resolver.leave, AList.lookup_insert, Option.some.injEq] at hother
      subst hother
      exact ⟨rfl, hparsed, hidentity, AList.lookup_insert _, hpath,
        hanswers.imp fun _ _ => Answers.mono hpackages⟩
    · simp only [Resolver.leave, AList.lookup_insert_ne hid] at hother
      refine (h.recorded hother).mono (fun hdone => ?_) (fun hplaced => hplaced) hpackages
      have hne : other.root ≠ package.root := by
        intro hroot
        rw [hroot, hvisit] at hdone
        cases hdone
      simpa only [Resolver.leave, AList.lookup_insert_ne hne] using hdone
  · simp only [order, Resolver.leave, AList.entries_insert_of_notMem hfresh]
    refine ⟨?_, h.topological⟩
    intro other hmem
    obtain ⟨dependency, hdep, rfl⟩ := mem_map.mp hmem
    obtain ⟨specification, -, -, target, htgt, -⟩ := exists_of_mem_right hanswers hdep
    simpa [AList.keys, List.keys] using AList.mem_keys.mp (mem_of_lookup htgt)
  · have hpos : 0 < s.stack.length := length_pos_iff.mpr hstack
    have hcounted := h.counted
    simp only [Resolver.leave, length_insert_of_fresh hfresh, length_dropLast,
      length_insert_of_mem (mem_of_lookup hvisit)]
    omega
  · simpa only [Resolver.leave, length_insert_of_mem (mem_of_lookup hvisit)] using h.bounded

/-! ## What a visit preserves -/

theorem extends_leave (hvisits : root ∉ s.visits) (hpaths : root ∉ s.paths)
    (ht : Extends (s.enter root id) t) (hroot : package.root = root)
    (hfresh : package.id ∉ t.packages) : Extends s (t.leave package) where
  stack := by
    simp only [Resolver.leave, ht.stack, Resolver.enter, dropLast_concat]
  visits h := by
    have hne : _ ≠ package.root := fun heq => hvisits (hroot ▸ heq ▸ mem_of_lookup h)
    simp only [Resolver.leave, AList.lookup_insert_ne hne]
    exact ht.visits (lookup_insert_of_fresh hvisits h)
  paths h := ht.paths (lookup_insert_of_fresh hpaths h)
  packages h := lookup_insert_of_fresh hfresh (ht.packages h)

/-- What a visit guarantees: the invariant, the frame, and the package that was asked for. -/
structure Visited (host : Host) (s : Resolver) (requested : Path) (id : String) (s' : Resolver) :
    Prop where
  invariant : Invariant host s'
  extends_ : Extends s s'
  found : ∃ package, s'.packages.lookup id = some package ∧
    host.canonicalize requested = .ok package.root

/-- A search procedure that guarantees this of every successful visit. -/
def Sound (host : Host)
    (visit : Path → Bool → Path → Nat → Resolver → Except Diagnostic (String × Resolver)) : Prop :=
  ∀ {requested rootPackage requestedFrom requestedLine s id s'}, Invariant host s →
    visit requested rootPackage requestedFrom requestedLine s = .ok (id, s') →
    Visited host s requested id s'

theorem visitDependencies_sound
    {visit : Path → Bool → Path → Nat → Resolver → Except Diagnostic (String × Resolver)}
    (hvisit : Sound host visit) {specifications : List (String × DependencySpec)}
    {dependencies : List (String × String)} (h : Invariant host s)
    (hrun : visitDependencies visit root specifications s = .ok (dependencies, s')) :
    Invariant host s' ∧ Extends s s' ∧
      List.Forall₂ (Answers host s'.packages root) specifications dependencies := by
  induction specifications generalizing s dependencies with
  | nil =>
    cases hrun
    exact ⟨h, .refl _, .nil⟩
  | cons specification rest ih =>
    obtain ⟨id, between, others, hfirst, hrest, rfl⟩ := visitDependencies_cons_eq_ok hrun
    obtain ⟨hbetween, hextends, package, hpackage, hroot⟩ := hvisit h hfirst
    obtain ⟨hlast, hextends', hothers⟩ := ih hbetween hrest
    exact ⟨hlast, hextends.trans hextends',
      .cons ⟨rfl, package, hextends'.packages hpackage, hroot⟩ hothers⟩

/-- One visit is sound when the visits one level deeper are. -/
theorem visit_sound_of_deeper {remaining : Nat}
    (hdeeper : ∀ {left}, remaining = left + 1 → Sound host (visit host left)) :
    Sound host (visit host remaining) := by
  intro requested rootPackage requestedFrom requestedLine s id s' h hrun
  obtain ⟨root, hroot, ⟨hdone, rfl, rfl⟩ | ⟨hfresh, hcount, left, manifest, sourceRoot,
    dependencies, between, digest, hleft, hinspected, rfl, -, hdeps, -, rfl⟩⟩ :=
    visit_eq_ok hrun
  · obtain ⟨id, package, hpath, hpackage, rfl⟩ := h.complete hdone
    rw [hpath]
    exact ⟨h, .refl _, package, hpackage, hroot⟩
  · obtain ⟨hbetween, hextends, hanswers⟩ := visitDependencies_sound (hdeeper hleft)
      (h.enter hfresh hcount hinspected) hdeps
    have hvisits : root ∉ s.visits := AList.lookup_eq_none.mp hfresh
    have hpaths : root ∉ s.paths := fun hmem => hvisits (h.marked.mpr hmem)
    have hvisit : between.visits.lookup root = some .visiting :=
      hextends.visits (AList.lookup_insert _)
    have hplaced : between.paths.lookup root = some manifest.identity :=
      hextends.paths (AList.lookup_insert _)
    have hstack : between.stack ≠ [] := by
      rw [hextends.stack]
      simp [Resolver.enter]
    exact ⟨hbetween.leave hvisit hplaced hstack hinspected.parsed rfl hanswers,
      extends_leave hvisits hpaths hextends rfl (hbetween.fresh hvisit hplaced),
      _, AList.lookup_insert _, hroot⟩

theorem visit_sound (host : Host) (remaining : Nat) : Sound host (visit host remaining) := by
  induction remaining with
  | zero => exact visit_sound_of_deeper fun hleft => by cases hleft
  | succ remaining ih =>
    refine visit_sound_of_deeper fun hleft => ?_
    cases hleft
    exact ih

/-! ## The resolved graph -/

theorem resolve_invariant {projectRoot : Path} {graph : PackageGraph}
    (h : resolve host projectRoot = .ok graph) :
    (∃ s, Invariant host s ∧ s.packages = graph.packages) ∧
      ∃ package, graph.packages.lookup graph.rootId = some package ∧
        package.root = graph.projectRoot := by
  obtain ⟨hroot, -, s, hvisit, hpackages⟩ := resolveWithin_eq_ok h
  obtain ⟨hinv, -, package, hpackage, hcanon⟩ :=
    visit_sound host _ (invariant_initial host) hvisit
  rw [host.canonicalize_canonical hroot] at hcanon
  exact ⟨⟨s, hinv, hpackages.symm⟩, package, by rw [hpackages, hpackage],
    (Except.ok.inj hcanon).symm⟩

section Graph

variable {host : Host} {s : Resolver} {graph : PackageGraph}

theorem edge_order_iff (hpackages : s.packages = graph.packages) (id other : String) :
    Edge (order s.packages) id other ↔ graph.DependsOn id other := by
  constructor
  · rintro ⟨next, hmem, hnext⟩
    obtain ⟨⟨key, package⟩, hentry, heq⟩ := mem_map.mp hmem
    cases heq
    obtain ⟨dependency, hdep, rfl⟩ := mem_map.mp hnext
    exact ⟨package, hpackages ▸ AList.mem_lookup_iff.mpr hentry, dependency, hdep, rfl⟩
  · rintro ⟨package, hpackage, dependency, hdep, rfl⟩
    rw [← hpackages] at hpackage
    exact ⟨_, mem_map.mpr ⟨⟨id, package⟩, AList.mem_lookup_iff.mp hpackage, rfl⟩,
      mem_map.mpr ⟨dependency, hdep, rfl⟩⟩

theorem Invariant.acyclic (h : Invariant host s) (hpackages : s.packages = graph.packages)
    (id : String) : ¬ Relation.TransGen graph.DependsOn id id := by
  have hnodup : ((order s.packages).map Prod.fst).Nodup := by
    have hkeys := s.packages.keys_nodup
    simpa [order, AList.keys, List.keys, Function.comp_def] using hkeys
  intro hcycle
  have hmono := Relation.TransGen.mono fun id other => (edge_order_iff hpackages id other).mpr
  exact h.topological.acyclic hnodup id (hmono id id hcycle)

variable {id : String}

section

variable (h : Invariant host s) (hpackages : s.packages = graph.packages)
  (hpackage : graph.packages.lookup id = some package)

include h hpackages hpackage

/-- The manifests of recorded directories ask for the directories of the dependencies. -/
theorem Invariant.requires_iff {directory : Path} :
    Requires host package.root directory ↔
      ∃ other target, graph.DependsOn id other ∧ graph.packages.lookup other = some target ∧
        target.root = directory := by
  rw [← hpackages] at hpackage
  have hrecorded := h.recorded hpackage
  constructor
  · rintro ⟨manifest, hmanifest, specification, hspec, hdir⟩
    rw [hrecorded.parsed] at hmanifest
    cases hmanifest
    obtain ⟨dependency, hdep, -, target, htgt, hcanon⟩ :=
      exists_of_mem_right hrecorded.answers.flip hspec
    rw [hdir] at hcanon
    cases hcanon
    exact ⟨dependency.2, target, ⟨package, hpackages ▸ hpackage, dependency, hdep, rfl⟩,
      hpackages ▸ htgt, rfl⟩
  · rintro ⟨other, target, ⟨package', hpackage', dependency, hdep, rfl⟩, htgt, rfl⟩
    rw [← hpackages, hpackage] at hpackage'
    cases hpackage'
    obtain ⟨specification, hspec, -, target', htgt', hcanon⟩ :=
      exists_of_mem_right hrecorded.answers hdep
    rw [hpackages, htgt] at htgt'
    cases htgt'
    exact ⟨package.manifest, hrecorded.parsed, specification, hspec, hcanon⟩

theorem Invariant.oneIdentity {id' : String} {package' : ResolvedPackage}
    (hpackage' : graph.packages.lookup id' = some package') (hroot : package.root = package'.root) :
    id = id' := by
  rw [← hpackages] at hpackage hpackage'
  have hplaced := (h.recorded hpackage).placed
  rw [hroot, (h.recorded hpackage').placed] at hplaced
  exact (Option.some.inj hplaced).symm

theorem Invariant.reaches {directory : Path}
    (hreach : Relation.ReflTransGen (Requires host) package.root directory) :
    ∃ other target, Relation.ReflTransGen graph.DependsOn id other ∧
      graph.packages.lookup other = some target ∧ target.root = directory := by
  induction hreach with
  | refl => exact ⟨id, package, .refl, hpackage, rfl⟩
  | tail _ hstep ih =>
    obtain ⟨other, target, hpath, htgt, rfl⟩ := ih
    obtain ⟨last, final, hdepends, hfinal, hroot⟩ := (h.requires_iff hpackages htgt).mp hstep
    exact ⟨last, final, hpath.tail hdepends, hfinal, hroot⟩

theorem Invariant.no_cycle : ¬ Relation.TransGen (Requires host) package.root package.root := by
  intro hcycle
  obtain ⟨directory, hfirst, hrest⟩ := Relation.TransGen.head'_iff.mp hcycle
  obtain ⟨other, target, hdepends, htgt, rfl⟩ := (h.requires_iff hpackages hpackage).mp hfirst
  obtain ⟨last, final, hpath, hfinal, hroot⟩ := h.reaches hpackages htgt hrest
  cases h.oneIdentity hpackages hfinal hpackage hroot
  exact h.acyclic hpackages id (.head' hdepends hpath)

theorem Invariant.chain_of_manifests {rest : List Path}
    (hchain : List.IsChain (Requires host) (package.root :: rest)) :
    ∃ ids, List.IsChain graph.DependsOn (id :: ids) ∧ ids.length = rest.length := by
  induction rest generalizing id package with
  | nil => exact ⟨[], .singleton _, rfl⟩
  | cons directory rest ih =>
    rw [isChain_cons_cons] at hchain
    obtain ⟨other, target, hdepends, htgt, rfl⟩ :=
      (h.requires_iff hpackages hpackage).mp hchain.1
    obtain ⟨ids, hids, hlen⟩ := ih htgt hchain.2
    exact ⟨other :: ids, .cons_cons hdepends hids, congrArg Nat.succ hlen⟩

theorem Invariant.chain_of_packages {ids : List String}
    (hchain : List.IsChain graph.DependsOn (id :: ids)) :
    ∃ rest, List.IsChain (Requires host) (package.root :: rest) ∧ rest.length = ids.length := by
  induction ids generalizing id package with
  | nil => exact ⟨[], .singleton _, rfl⟩
  | cons other ids ih =>
    rw [isChain_cons_cons] at hchain
    have hmem := h.topological.mem_of_edge ((edge_order_iff hpackages _ _).mpr hchain.1)
    have htgt : ∃ target, graph.packages.lookup other = some target := by
      rw [← Option.isSome_iff_exists, AList.lookup_isSome, AList.mem_keys, ← hpackages]
      simpa [order, AList.keys, List.keys] using hmem
    obtain ⟨target, htgt⟩ := htgt
    obtain ⟨rest, hrest, hlen⟩ := ih htgt hchain.2
    have hstep := (h.requires_iff hpackages hpackage).mpr ⟨other, target, hchain.1, htgt, rfl⟩
    exact ⟨target.root :: rest, .cons_cons hstep hrest, congrArg Nat.succ hlen⟩

end

end Graph

/-- A resolved graph is as it is to be if and only if no chain of manifests from the root exceeds
the depth limit. -/
theorem wellResolved_iff_shallow {projectRoot : Path} {graph : PackageGraph}
    (hresolve : resolve host projectRoot = .ok graph) :
    WellResolved host graph ↔ Shallow host graph.projectRoot := by
  obtain ⟨⟨s, h, hpackages⟩, package, hpackage, hroot⟩ := resolve_invariant hresolve
  constructor
  · intro hwell rest hchain
    rw [← hroot] at hchain
    obtain ⟨ids, hids, hlen⟩ := h.chain_of_manifests hpackages hpackage hchain
    have hdepth := hwell.depth ids hids
    simpa only [length_cons, hlen] using hdepth
  · intro hshallow
    refine ⟨⟨package, hpackage, hroot⟩, ?_, h.acyclic hpackages, ?_,
      fun hpackage => h.oneIdentity hpackages hpackage, ?_, ?_⟩
    · intro id other hother
      have hrecorded := h.recorded (hpackages ▸ hother)
      exact ⟨hrecorded.parsed, hpackages ▸ hrecorded.answers⟩
    · intro id other hother
      have hrecorded := h.recorded (hpackages ▸ hother)
      exact ⟨hrecorded.named, hrecorded.identity⟩
    · have hcounted := h.counted
      have hbdd := h.bounded
      rw [hpackages] at hcounted
      omega
    · intro ids hchain
      obtain ⟨rest, hrest, hlen⟩ := h.chain_of_packages hpackages hpackage hchain
      rw [hroot] at hrest
      have hdepth := hshallow rest hrest
      simpa only [length_cons, hlen] using hdepth

theorem resolve_cycle_error {projectRoot directory : Path}
    (hroot : host.canonicalize projectRoot = .ok root)
    (hreach : Relation.ReflTransGen (Requires host) root directory)
    (hcycle : Relation.TransGen (Requires host) directory directory) :
    ∃ diagnostic, resolve host projectRoot = .error diagnostic := by
  cases hresolve : resolve host projectRoot with
  | error diagnostic => exact ⟨diagnostic, rfl⟩
  | ok graph =>
    obtain ⟨⟨s, h, hpackages⟩, package, hpackage, hdir⟩ := resolve_invariant hresolve
    have hcanon := (resolveWithin_eq_ok hresolve).1
    rw [hroot] at hcanon
    cases hcanon
    rw [← hdir] at hreach
    obtain ⟨other, target, -, htgt, rfl⟩ := h.reaches hpackages hpackage hreach
    exact absurd hcycle (h.no_cycle hpackages htgt)

/-- A reachable cycle of manifests is an error.  The depth test bounds the first visits: it is
passed exactly if none of them is too deep.  So what resolves is as it is to be exactly if shallow
first visits leave no chain of manifests beyond the limit. -/
theorem resolve_wellResolved_iff (host : Host) (projectRoot : Path) :
    (∀ {root directory}, host.canonicalize projectRoot = .ok root →
      Relation.ReflTransGen (Requires host) root directory →
      Relation.TransGen (Requires host) directory directory →
      ∃ diagnostic, resolve host projectRoot = .error diagnostic) ∧
    (∀ graph, resolve host projectRoot = .ok graph ↔
      resolveWithin host (maxPackages + 1) projectRoot = .ok graph ∧
        FirstVisitsShallow host graph.projectRoot) ∧
    ((∀ graph, resolve host projectRoot = .ok graph → WellResolved host graph) ↔
      ∀ graph, resolveWithin host (maxPackages + 1) projectRoot = .ok graph →
        FirstVisitsShallow host graph.projectRoot → Shallow host graph.projectRoot) := by
  refine ⟨resolve_cycle_error, resolve_eq_ok_iff host projectRoot, ?_⟩
  refine forall_congr' fun graph => ?_
  rw [← and_imp, ← resolve_eq_ok_iff]
  exact imp_congr_right wellResolved_iff_shallow

section Shared

/-- A host with three packages, of which the root and its dependency share the third. -/
def shared : Host where
  canonicalize path := .ok path
  canonicalize_canonical h := by
    cases h
    rfl
  read _ := .ok []
  parseManifest path :=
    match path with
    | ["DISP.toml"] =>
      .ok ⟨"root", "1.0.0", ["main.disp"], [("a", ⟨["a"], 6⟩), ("b", ⟨["a", "b"], 7⟩)], by decide⟩
    | ["a", "DISP.toml"] => .ok ⟨"a", "1.0.0", ["main.disp"], [("b", ⟨["b"], 6⟩)], by decide⟩
    | ["a", "b", "DISP.toml"] => .ok ⟨"b", "1.0.0", ["main.disp"], [], .nil⟩
    | _ => .error (packageError path "could not open required package manifest")
  hashPackage _ := .ok ""
  sha256Text _ := .ok ""

theorem shared_requires {directory other : Path} (h : Requires shared directory other) :
    directory.length < other.length ∧ other.length ≤ 2 := by
  obtain ⟨manifest, hmanifest, dependency, hmem, hother⟩ := h
  cases hother
  have hdirectory {parents : Path} (h : manifestPath directory = parents ++ ["DISP.toml"]) :
      directory = parents := append_cancel_right h
  simp only [shared] at hmanifest
  split at hmanifest
  · next hpath =>
    obtain rfl : directory = [] := hdirectory hpath
    cases hmanifest
    revert dependency
    decide
  · next hpath =>
    obtain rfl : directory = ["a"] := hdirectory hpath
    cases hmanifest
    revert dependency
    decide
  · cases hmanifest
    cases hmem
  · cases hmanifest

theorem shared_chain {directory : Path} {rest : List Path}
    (h : List.IsChain (Requires shared) (directory :: rest)) :
    rest = [] ∨ directory.length + rest.length ≤ 2 := by
  induction rest generalizing directory with
  | nil => exact .inl rfl
  | cons other rest ih =>
    rw [isChain_cons_cons] at h
    obtain ⟨hlt, hle⟩ := shared_requires h.1
    obtain rfl | hrest := ih h.2
    · exact .inr (by simp only [length_cons, length_nil]; omega)
    · exact .inr (by simp only [length_cons]; omega)

theorem shared_shallow : Shallow shared [] := by
  intro rest hchain
  obtain rfl | hle := shared_chain hchain
  · decide
  · simp only [length_nil, length_cons, maxDependencyDepth] at hle ⊢
    omega

theorem shared_resolves : ∃ graph, resolve shared [] = .ok graph ∧
    graph.packages.entries.length = 3 := by
  have hlength : (resolve shared []).toOption.map (·.packages.entries.length) = some 3 := by
    decide +kernel
  cases hresolve : resolve shared [] with
  | error diagnostic =>
    rw [hresolve] at hlength
    cases hlength
  | ok graph =>
    rw [hresolve] at hlength
    exact ⟨graph, rfl, Option.some.inj hlength⟩

theorem shared_wellResolved : ∃ graph, resolve shared [] = .ok graph ∧
    graph.packages.entries.length = 3 ∧ WellResolved shared graph := by
  obtain ⟨graph, hresolve, hlength⟩ := shared_resolves
  refine ⟨graph, hresolve, hlength, (resolve_wellResolved_iff shared []).2.2.mpr ?_ graph hresolve⟩
  intro graph hgraph _
  obtain ⟨hroot, -⟩ := resolveWithin_eq_ok hgraph
  exact Except.ok.inj hroot ▸ shared_shallow

end Shared

/-- The packages that the root depends on are those whose manifests can be reached from it. -/
theorem resolve_reaches_iff {projectRoot : Path} {graph : PackageGraph}
    (h : resolve host projectRoot = .ok graph) (directory : Path) :
    Relation.ReflTransGen (Requires host) graph.projectRoot directory ↔
      ∃ id package, Relation.ReflTransGen graph.DependsOn graph.rootId id ∧
        graph.packages.lookup id = some package ∧ package.root = directory := by
  obtain ⟨⟨s, hinv, hpackages⟩, root, hroot, hproject⟩ := resolve_invariant h
  rw [← hproject]
  constructor
  · exact hinv.reaches hpackages hroot
  · rintro ⟨id, package, hreach, hpackage, rfl⟩
    induction hreach generalizing package with
    | refl =>
      rw [hroot] at hpackage
      cases hpackage
      exact .refl
    | tail _ hstep ih =>
      have ⟨parent, hparent, _⟩ := hstep
      have hrequires := (hinv.requires_iff hpackages hparent).mpr ⟨_, package, hstep, hpackage, rfl⟩
      exact (ih parent hparent).tail hrequires

/-- The third package is reached through the second and through the root alike. -/
theorem shared_reaches : ∃ graph, resolve shared [] = .ok graph ∧
    ∃ id package, Relation.ReflTransGen graph.DependsOn graph.rootId id ∧
      graph.packages.lookup id = some package ∧ package.root = ["a", "b"] := by
  obtain ⟨graph, hresolve, -⟩ := shared_resolves
  refine ⟨graph, hresolve, (resolve_reaches_iff hresolve ["a", "b"]).mp ?_⟩
  obtain ⟨hroot, -⟩ := resolveWithin_eq_ok hresolve
  rw [← Except.ok.inj hroot]
  have hfirst : Requires shared [] ["a"] := ⟨_, rfl, ("a", ⟨["a"], 6⟩), by decide, rfl⟩
  have hsecond : Requires shared ["a"] ["a", "b"] := ⟨_, rfl, ("b", ⟨["b"], 6⟩), by decide, rfl⟩
  exact .head hfirst (.single hsecond)

/-! ## A chain through a complete package

Two lines of sixty-four packages under one root, each package but the last depending on the
one in its subdirectory.  The last package of the second line depends on the first package of
the first line, which is complete by then, so the depth test is not made.
-/

section Ladder

variable {path : Path} {n k k' left requestedLine : Nat} {requestedFrom : Path} {between : Resolver}
  {dependencies : List (String × String)}

/-- A file system without links: `..` drops a component. -/
def normalize (path : Path) : Path :=
  path.foldl (fun done component =>
    if component = ".." then done.dropLast else done ++ [component]) []

theorem foldl_normalize (h : ".." ∉ path) (done : Path) :
    path.foldl (fun done component =>
      if component = ".." then done.dropLast else done ++ [component]) done = done ++ path := by
  induction path generalizing done with
  | nil => simp
  | cons component path ih =>
    rw [mem_cons, not_or] at h
    rw [foldl_cons, if_neg (Ne.symm h.1), ih h.2, append_assoc, singleton_append]

theorem normalize_eq_self (h : ".." ∉ path) : normalize path = path :=
  foldl_normalize h []

theorem foldl_up {done : Path} (h : done.length = n) :
    (List.replicate n "..").foldl (fun done component =>
      if component = ".." then done.dropLast else done ++ [component]) done = [] := by
  induction n generalizing done with
  | zero => exact length_eq_zero_iff.mp h
  | succ n ih =>
    rw [replicate_succ, foldl_cons, if_pos rfl]
    exact ih (by rw [length_dropLast, h, Nat.add_sub_cancel])

theorem normalize_up {rest : Path} (hpath : ".." ∉ path) (hrest : ".." ∉ rest)
    (hlen : path.length = n) : normalize (path ++ (List.replicate n ".." ++ rest)) = rest := by
  rw [normalize, foldl_append, foldl_append, foldl_normalize hpath, nil_append,
    foldl_up hlen, foldl_normalize hrest, nil_append]

theorem up_notMem_normalize (path : Path) : ".." ∉ normalize path := by
  have hstep : ∀ (path done : Path), ".." ∉ done → ".." ∉ path.foldl (fun done component =>
        if component = ".." then done.dropLast else done ++ [component]) done := by
    intro path
    induction path with
    | nil => exact fun done h => h
    | cons component path ih =>
      intro done h
      rw [foldl_cons]
      apply ih
      split
      · exact fun hmem => h (dropLast_subset _ hmem)
      · rename_i hne
        simp [h, Ne.symm hne]
  exact hstep path [] not_mem_nil

/-- The two lines, in the order in which the root names them. -/
inductive Line
  | first
  | second
  deriving DecidableEq

def Line.letter : Line → Char
  | .first => 'a'
  | .second => 'b'

def directory (line : Line) (k : Nat) : Path :=
  String.singleton line.letter :: List.replicate k "x"

/-- The dependency of the package number `k` of a line. -/
def ladderDependency (line : Line) (k : Nat) : List (String × DependencySpec) :=
  if k < 63 then
    [("next", ⟨["x"], 6⟩)]
  else
    match line with
    | .first => []
    | .second => [("next", ⟨List.replicate 64 ".." ++ ["a"], 6⟩)]

def ladderManifest (line : Line) (k : Nat) : PackageManifest where
  name := String.ofList (List.replicate (k + 1) line.letter)
  version := "1.0.0"
  entry := ["main.disp"]
  dependencies := ladderDependency line k
  aliases_sorted := by
    unfold ladderDependency
    split
    · simp
    · cases line <;> simp

def rootManifest : PackageManifest where
  name := "root"
  version := "1.0.0"
  entry := ["main.disp"]
  dependencies := [("first", ⟨["a"], 6⟩), ("second", ⟨["b"], 7⟩)]
  aliases_sorted := by decide

def ladder : Host where
  canonicalize path := .ok (normalize path)
  canonicalize_canonical h := by
    cases h
    exact congrArg Except.ok (normalize_eq_self (up_notMem_normalize _))
  read _ := .ok []
  parseManifest path :=
    match path with
    | ["DISP.toml"] => .ok rootManifest
    | "a" :: rest => .ok (ladderManifest .first (rest.length - 1))
    | "b" :: rest => .ok (ladderManifest .second (rest.length - 1))
    | _ => .error (packageError path "could not open required package manifest")
  hashPackage _ := .ok ""
  sha256Text _ := .ok ""

theorem up_notMem_directory (line : Line) (k : Nat) : ".." ∉ directory line k := by
  cases line <;> simp [directory, Line.letter]

theorem normalize_directory_up :
    normalize (directory .second 63 ++ (List.replicate 64 ".." ++ ["a"])) = directory .first 0 :=
  normalize_up (up_notMem_directory .second 63) (by simp) (by simp [directory])

theorem parseManifest_directory (line : Line) (k : Nat) :
    ladder.parseManifest (manifestPath (directory line k)) = .ok (ladderManifest line k) := by
  cases line <;> simp [ladder, manifestPath, directory, Line.letter]

theorem directory_next (line : Line) (k : Nat) :
    directory line k ++ ["x"] = directory line (k + 1) := by
  rw [directory, directory, cons_append, replicate_succ']

variable {line line' : Line}

theorem directory_injective (h : directory line k = directory line' k') :
    line = line' ∧ k = k' := by
  have hlen := congrArg List.length h
  simp only [directory, length_cons, length_replicate, Nat.add_right_cancel_iff]
    at hlen
  refine ⟨?_, hlen⟩
  have hhead := congrArg List.head? h
  cases line <;> cases line' <;> first | rfl | (simp [directory, Line.letter] at hhead)

theorem identity_injective
    (h : (ladderManifest line k).identity = (ladderManifest line' k').identity) :
    line = line' ∧ k = k' := by
  have hlist := congrArg String.toList h
  simp only [PackageManifest.identity, ladderManifest, String.toList_append,
    String.toList_ofList] at hlist
  have hlen := congrArg List.length hlist
  simp only [length_append, length_replicate] at hlen
  refine ⟨?_, by omega⟩
  have hhead := congrArg List.head? hlist
  cases line <;> cases line' <;> first | rfl | (simp [replicate_succ, Line.letter] at hhead)

/-- Nothing of the line from the package number `k` on has been met. -/
def Unmet (line : Line) (k : Nat) (s : Resolver) : Prop :=
  ∀ j, k ≤ j → directory line j ∉ s.visits ∧ (ladderManifest line j).identity ∉ s.identities

theorem Unmet.enter (h : Unmet line k s) (hne : line ≠ line' ∨ k' < k) :
    Unmet line k (s.enter (directory line' k') (ladderManifest line' k').identity) := by
  intro j hj
  obtain ⟨hvisits, hids⟩ := h j hj
  simp only [Resolver.enter, AList.mem_insert, not_or]
  refine ⟨⟨fun heq => ?_, hvisits⟩, fun heq => ?_, hids⟩
  · obtain ⟨rfl, rfl⟩ := directory_injective heq
    rcases hne with hne | hlt
    · exact hne rfl
    · omega
  · obtain ⟨rfl, rfl⟩ := identity_injective heq
    rcases hne with hne | hlt
    · exact hne rfl
    · omega

theorem Unmet.leave (h : Unmet line k s) (hmem : package.root ∈ s.visits) :
    Unmet line k (s.leave package) := by
  intro j hj
  obtain ⟨hvisits, hids⟩ := h j hj
  refine ⟨?_, hids⟩
  simp only [Resolver.leave, AList.mem_insert, not_or]
  exact ⟨fun heq => hvisits (heq ▸ hmem), hvisits⟩

theorem sourceRootOf_directory (h : ".." ∉ root) (manifest : PackageManifest)
    (hentry : manifest.entry = ["main.disp"]) : sourceRootOf ladder root manifest = .ok root := by
  have hnormal : normalize (root ++ ["main.disp"]) = root ++ ["main.disp"] :=
    normalize_eq_self (by simp [h])
  simp [sourceRootOf, ladder, hentry, hnormal]

theorem visit_last (line : Line) (left : Nat) (s : Resolver)
    (hdone : line = .second → s.visits.lookup (directory .first 0) = some .complete) :
    ∃ dependencies, visitDependencies (visit ladder left) (directory line 63)
      (ladderDependency line 63) s = .ok (dependencies, s) := by
  cases line with
  | first => exact ⟨[], rfl⟩
  | second =>
    refine ⟨[("next", (s.paths.lookup (directory .first 0)).getD "")], ?_⟩
    have hvisit : visit ladder left (directory .second 63 ++ (List.replicate 64 ".." ++ ["a"]))
        false (manifestPath (directory .second 63)) 6 s =
          .ok ((s.paths.lookup (directory .first 0)).getD "", s) :=
      visit_complete (congrArg Except.ok normalize_directory_up) (hdone rfl) left false
    exact visitDependencies_cons hvisit rfl

/-- One package of a line resolves when its dependencies do. -/
theorem visit_directory (h : Invariant ladder s) (hunmet : Unmet line k s)
    (hcount : s.visits.entries.length < maxPackages)
    (hdeps : visitDependencies (visit ladder left) (directory line k)
      (ladderDependency line k) (s.enter (directory line k) (ladderManifest line k).identity) =
        .ok (dependencies, between)) :
    ∃ s', visit ladder (left + 1) (directory line k) false requestedFrom requestedLine s =
        .ok ((ladderManifest line k).identity, s') ∧
      s'.visits.entries.length = between.visits.entries.length ∧
      ∀ {line'}, Unmet line' 0 between → Unmet line' 0 s' := by
  obtain ⟨hvisits, hid⟩ := hunmet k le_rfl
  have hinspected : Inspected ladder s (directory line k) (ladderManifest line k) :=
    ⟨parseManifest_directory line k, fun hprev => absurd (mem_of_lookup hprev) hid⟩
  have hentered := h.enter (AList.lookup_eq_none.mpr hvisits) hcount hinspected
  have hextends := (visitDependencies_sound (visit_sound ladder left) hentered hdeps).2.1
  have hmem : directory line k ∈ between.visits :=
    mem_of_lookup (hextends.visits (AList.lookup_insert _))
  have hroot : ladder.canonicalize (directory line k) = .ok (directory line k) :=
    congrArg Except.ok (normalize_eq_self (up_notMem_directory line k))
  exact ⟨_, visit_fresh hroot hvisits hcount hinspected
      (sourceRootOf_directory (up_notMem_directory line k) (ladderManifest line k) rfl)
      hdeps rfl,
    length_insert_of_mem hmem, fun hother => hother.leave hmem⟩

/-- The packages from number `k` to the end of a line resolve. -/
theorem visit_line (hend : k + n = 63) (hleft : n ≤ left) (h : Invariant ladder s)
    (hunmet : Unmet line k s) (hcount : s.visits.entries.length + n < maxPackages)
    (hdone : line = .second → s.visits.lookup (directory .first 0) = some .complete) :
    ∃ s', visit ladder (left + 1) (directory line k) false requestedFrom requestedLine s =
        .ok ((ladderManifest line k).identity, s') ∧
      s'.visits.entries.length ≤ s.visits.entries.length + n + 1 ∧
      ∀ {line'}, line' ≠ line → Unmet line' 0 s → Unmet line' 0 s' := by
  induction n generalizing k s left requestedFrom requestedLine with
  | zero =>
    obtain rfl : k = 63 := by omega
    have hvisits := (hunmet 63 le_rfl).1
    obtain ⟨dependencies, hdeps⟩ := visit_last line left
      (s.enter (directory line 63) (ladderManifest line 63).identity) fun hline =>
        lookup_insert_of_fresh hvisits (hdone hline)
    obtain ⟨s', hvisit, hlen, hother⟩ := visit_directory h hunmet hcount hdeps
    refine ⟨s', hvisit, ?_, fun hne hs => hother (hs.enter (.inl hne))⟩
    rw [hlen, Resolver.enter, length_insert_of_fresh hvisits]
  | succ n ih =>
    obtain ⟨left, rfl⟩ : ∃ deeper, left = deeper + 1 := ⟨left - 1, by omega⟩
    obtain ⟨hvisits, hid⟩ := hunmet k le_rfl
    have hlen : (s.enter (directory line k)
        (ladderManifest line k).identity).visits.entries.length = s.visits.entries.length + 1 :=
      length_insert_of_fresh hvisits
    have hentered := h.enter (AList.lookup_eq_none.mpr hvisits) (by omega)
      ⟨parseManifest_directory line k, fun hprev => absurd (mem_of_lookup hprev) hid⟩
    have hrest : Unmet line (k + 1) s := fun j hj => hunmet j (by omega)
    obtain ⟨between, hvisit, hbetween, hother⟩ : ∃ between,
        visit ladder (left + 1) (directory line (k + 1)) false (manifestPath (directory line k)) 6
            (s.enter (directory line k) (ladderManifest line k).identity) =
          .ok ((ladderManifest line (k + 1)).identity, between) ∧ _ :=
      ih (by omega) (by omega) hentered (hrest.enter (.inr (Nat.lt_succ_self k))) (by omega)
        fun hline => lookup_insert_of_fresh hvisits (hdone hline)
    have hdeps : visitDependencies (visit ladder (left + 1)) (directory line k)
        (ladderDependency line k) (s.enter (directory line k) (ladderManifest line k).identity) =
          .ok ([("next", (ladderManifest line (k + 1)).identity)], between) := by
      have hlt : k < 63 := by omega
      rw [show ladderDependency line k = [("next", ⟨["x"], 6⟩)] from if_pos hlt]
      exact visitDependencies_cons (by rw [directory_next, hvisit]) rfl
    obtain ⟨s', hvisit', hlen', hother'⟩ :=
      visit_directory h hunmet (by omega) hdeps
    refine ⟨s', hvisit', by omega, fun hne hs => hother' (hother hne (hs.enter (.inl hne)))⟩

theorem requires_next (line : Line) (h : k < 63) :
    Requires ladder (directory line k) (directory line (k + 1)) := by
  refine ⟨_, parseManifest_directory line k, ("next", ⟨["x"], 6⟩), ?_, ?_⟩
  · simp [ladderManifest, ladderDependency, h]
  · rw [directory_next]
    exact congrArg Except.ok (normalize_eq_self (up_notMem_directory line (k + 1)))

theorem requires_last : Requires ladder (directory .second 63) (directory .first 0) :=
  ⟨_, parseManifest_directory .second 63, ("next", ⟨List.replicate 64 ".." ++ ["a"], 6⟩),
    mem_cons_self, congrArg Except.ok normalize_directory_up⟩

theorem ladder_chain : List.IsChain (Requires ladder) ([] ::
    ((List.range 64).map (directory .second) ++ (List.range 64).map (directory .first))) := by
  have hline : ∀ line, List.IsChain (Requires ladder) ((List.range 64).map (directory line)) :=
    fun line => (isChain_map _).mpr
      ((isChain_range_succ _ 63).mpr fun _ hlt => requires_next line hlt)
  have hroot : Requires ladder [] (directory .second 0) :=
    ⟨rootManifest, rfl, ("second", ⟨["b"], 7⟩), by simp [rootManifest], by decide +kernel⟩
  refine isChain_cons.mpr ⟨?_, isChain_append.mpr ⟨hline _, hline _, ?_⟩⟩
  · simpa [range_succ_eq_map] using hroot
  · simpa [range_succ, range_succ_eq_map] using requires_last

theorem unmet_entered (line : Line) :
    Unmet line 0 (Resolver.initial.enter [] rootManifest.identity) := by
  intro j _
  simp only [Resolver.enter, Resolver.initial, AList.mem_insert, AList.notMem_empty, or_false]
  refine ⟨by simp [directory], fun heq => ?_⟩
  have hhead := congrArg (fun id : String => id.toList.head?) heq
  cases line <;> simp [PackageManifest.identity, ladderManifest, rootManifest, replicate_succ,
      Line.letter] at hhead

theorem ladder_resolves : ∃ graph, resolve ladder [] = .ok graph ∧ graph.projectRoot = [] := by
  have hentered : Invariant ladder (Resolver.initial.enter [] rootManifest.identity) :=
    (invariant_initial ladder).enter (AList.lookup_empty _) (by decide)
      ⟨rfl, fun hprev => by simp [Resolver.initial] at hprev⟩
  have hcount : (Resolver.initial.enter [] rootManifest.identity).visits.entries.length = 1 := rfl
  -- the first line, after which its head is complete
  obtain ⟨s, hfirst, hlen, hother⟩ : ∃ s,
      visit ladder 127 (directory .first 0) false (manifestPath []) 6
          (Resolver.initial.enter [] rootManifest.identity) =
        .ok ((ladderManifest .first 0).identity, s) ∧ _ :=
    visit_line (Nat.zero_add 63) (by decide) hentered (unmet_entered .first) (by decide) (by simp)
  obtain ⟨hinv, -, package, hpackage, hroot⟩ := visit_sound ladder 127 hentered hfirst
  have hdone : s.visits.lookup (directory .first 0) = some .complete := by
    have hmark := (hinv.recorded hpackage).complete
    rwa [← Except.ok.inj hroot, normalize_eq_self (up_notMem_directory .first 0)] at hmark
  have hroom : s.visits.entries.length + 63 < maxPackages := by
    simp only [maxPackages]
    omega
  -- the second line, which ends at that head
  obtain ⟨s', hsecond, -⟩ : ∃ s',
      visit ladder 127 (directory .second 0) false (manifestPath []) 7 s =
        .ok ((ladderManifest .second 0).identity, s') ∧ _ :=
    visit_line (Nat.zero_add 63) (by decide) hinv
      (hother (by decide) (unmet_entered .second)) hroom fun _ => hdone
  have hdeps : visitDependencies (visit ladder 127) [] rootManifest.dependencies
      (Resolver.initial.enter [] rootManifest.identity) =
        .ok ([("first", (ladderManifest .first 0).identity),
          ("second", (ladderManifest .second 0).identity)], s') := by
    exact visitDependencies_cons hfirst (visitDependencies_cons hsecond rfl)
  have hvisit : visit ladder (127 + 1) [] true (manifestPath []) 1 Resolver.initial = _ :=
    visit_fresh rfl (AList.notMem_empty _) (by decide)
      ⟨rfl, fun hprev => by simp [Resolver.initial] at hprev⟩
      (sourceRootOf_directory not_mem_nil rootManifest rfl) hdeps rfl
  exact ⟨_, resolveWithin_of_visit rfl rfl rfl hvisit, rfl⟩

/-- Resolution accepts a graph with a dependency chain beyond the depth limit. -/
theorem ladder_resolves_beyond_depth :
    ∃ graph ids, resolve ladder [] = .ok graph ∧
      List.IsChain graph.DependsOn (graph.rootId :: ids) ∧
      maxDependencyDepth < (graph.rootId :: ids).length := by
  obtain ⟨graph, hgraph, hempty⟩ := ladder_resolves
  obtain ⟨⟨s, h, hpackages⟩, package, hpackage, hroot⟩ := resolve_invariant hgraph
  have hchain := ladder_chain
  rw [← hempty, ← hroot] at hchain
  obtain ⟨ids, hids, hlen⟩ := h.chain_of_manifests hpackages hpackage hchain
  exact ⟨graph, ids, hgraph, hids, by simp [hlen, maxDependencyDepth]⟩

end Ladder

end Disp.Package
