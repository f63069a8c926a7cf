import Disp.Package.Resolve

/-!
# First visits

The order in which a depth-first search over manifests meets the directories, and the depth at
which it meets each of them first.  The depth test of `visit` is made then and at no other time,
so it bounds exactly these depths: where the search succeeds without a limit, it succeeds with
one if and only if no first visit is deeper.
-/

namespace Disp.Package

variable {host : Host} {root requestedFrom : Path} {s s' : Resolver} {requestedLine : Nat}

/-- The directories that dependencies written in `directory` ask for. -/
def directoriesOf (host : Host) (directory : Path)
    (specifications : List (String × DependencySpec)) : List Path :=
  specifications.filterMap fun dependency =>
    (host.canonicalize (directory ++ dependency.2.path)).toOption

/-- The directories that the manifest in `directory` asks for, in the order of its aliases. -/
def dependencyDirectories (host : Host) (directory : Path) : List Path :=
  match host.parseManifest (manifestPath directory) with
  | .error _ => []
  | .ok manifest => directoriesOf host directory manifest.dependencies

/-- The directories that a search from `directory` on has met, each with the depth of its first
visit, after those of `met`. -/
def firstVisits (host : Host) : Nat → Nat → Path → List (Path × Nat) → List (Path × Nat)
  | 0, _, _, met => met
  | fuel + 1, depth, directory, met =>
    if directory ∈ met.map Prod.fst then
      met
    else
      (dependencyDirectories host directory).foldl
        (fun met other => firstVisits host fuel (depth + 1) other met) (met ++ [(directory, depth)])

/-- No first visit of the search from `root` is deeper than the limit.  A root that resolves has
no more directories than there may be packages. -/
def FirstVisitsShallow (host : Host) (root : Path) : Prop :=
  ∀ visit ∈ firstVisits host (maxPackages + 1) 1 root [], visit.2 ≤ maxDependencyDepth

/-! ## A limit on the depth -/

theorem visitDependencies_mono
    {visit visit' : Path → Bool → Path → Nat → Resolver → Except Diagnostic (String × Resolver)}
    (hvisit : ∀ {requested rootPackage requestedFrom requestedLine s id s'},
      visit requested rootPackage requestedFrom requestedLine s = .ok (id, s') →
        visit' requested rootPackage requestedFrom requestedLine s = .ok (id, s'))
    {specifications : List (String × DependencySpec)} {dependencies : List (String × String)}
    (h : visitDependencies visit root specifications s = .ok (dependencies, s')) :
    visitDependencies visit' root specifications s = .ok (dependencies, s') := by
  induction specifications generalizing s dependencies with
  | nil => exact h
  | cons specification rest ih =>
    obtain ⟨id, between, others, hfirst, hrest, rfl⟩ := visitDependencies_cons_eq_ok h
    exact visitDependencies_cons (hvisit hfirst) (ih hrest)

/-- A visit that succeeds within a limit succeeds alike within a greater one. -/
theorem visit_mono {left fuel : Nat} (hle : left ≤ fuel) {requested : Path} {rootPackage : Bool}
    {id : String}
    (h : visit host left requested rootPackage requestedFrom requestedLine s = .ok (id, s')) :
    visit host fuel requested rootPackage requestedFrom requestedLine s = .ok (id, s') := by
  induction left generalizing fuel requested rootPackage requestedFrom requestedLine s id s' with
  | zero =>
    obtain ⟨root, hroot, ⟨hdone, rfl, rfl⟩ | ⟨-, -, left, -, -, -, -, -, hleft, -⟩⟩ := visit_eq_ok h
    · exact visit_complete hroot hdone fuel rootPackage
    · cases hleft
  | succ left ih =>
    obtain ⟨root, hroot, ⟨hdone, rfl, rfl⟩ | ⟨hfresh, hcount, left', manifest, sourceRoot,
      dependencies, between, digest, hleft, hinspected, rfl, hsrc, hdeps, hdigest, rfl⟩⟩ :=
      visit_eq_ok h
    · exact visit_complete hroot hdone fuel rootPackage
    · obtain rfl := Nat.succ.inj hleft
      obtain ⟨fuel, rfl⟩ : ∃ more, fuel = more + 1 := ⟨fuel - 1, by omega⟩
      exact visit_fresh hroot (AList.lookup_eq_none.mp hfresh) hcount hinspected hsrc
        (visitDependencies_mono (ih (Nat.le_of_succ_le_succ hle)) hdeps) hdigest

/-! ## The search and its first visits -/

/-- The directories marked by the search are those met. -/
def Tracks (s : Resolver) (met : List (Path × Nat)) : Prop :=
  ∀ directory, directory ∈ s.visits ↔ directory ∈ met.map Prod.fst

/-- What was met after `met` was met above the bound. -/
def MetAbove (bound : Nat) (met met' : List (Path × Nat)) : Prop :=
  ∀ visit ∈ met', visit ∈ met ∨ visit.2 < bound

theorem subset_foldl {α β : Type} {f : List α → β → List α} (h : ∀ met x, met ⊆ f met x)
    (xs : List β) (met : List α) : met ⊆ xs.foldl f met := by
  induction xs generalizing met with
  | nil => exact List.Subset.refl _
  | cons x xs ih => exact List.Subset.trans (h met x) (ih _)

theorem subset_firstVisits (fuel depth : Nat) (directory : Path) (met : List (Path × Nat)) :
    met ⊆ firstVisits host fuel depth directory met := by
  induction fuel generalizing depth directory met with
  | zero => exact List.Subset.refl _
  | succ fuel ih =>
    rw [firstVisits]
    split_ifs
    · exact List.Subset.refl _
    · exact List.Subset.trans (List.subset_append_left _ _)
        (subset_foldl (fun met other => ih (depth + 1) other met) _ _)

theorem metAbove_trans {bound : Nat} {met between met' : List (Path × Nat)} (h : met ⊆ between)
    (h' : between ⊆ met') :
    MetAbove bound met met' ↔ MetAbove bound met between ∧ MetAbove bound between met' := by
  constructor
  · intro hall
    exact ⟨fun visit hmem => hall visit (h' hmem),
      fun visit hmem => (hall visit hmem).imp_left fun hmet => h hmet⟩
  · rintro ⟨hfirst, hrest⟩ visit hmem
    obtain hmem | hlt := hrest visit hmem
    · exact hfirst visit hmem
    · exact .inr hlt

/-- A visit within `fuel` meets what the search over manifests meets, and it succeeds within a
smaller limit exactly if that limit admits every new first visit. -/
def Follows (host : Host) (fuel : Nat) : Prop :=
  ∀ {requested root : Path} {rootPackage : Bool} {requestedFrom : Path} {requestedLine : Nat}
    {s s' : Resolver} {id : String} {met : List (Path × Nat)} (depth : Nat),
    visit host fuel requested rootPackage requestedFrom requestedLine s = .ok (id, s') →
    host.canonicalize requested = .ok root → Tracks s met →
    Tracks s' (firstVisits host fuel depth root met) ∧
      ∀ left ≤ fuel,
        visit host left requested rootPackage requestedFrom requestedLine s = .ok (id, s') ↔
          MetAbove (depth + left) met (firstVisits host fuel depth root met)

theorem visitDependencies_follows {fuel depth : Nat} (h : Follows host fuel)
    {specifications : List (String × DependencySpec)} {dependencies : List (String × String)}
    {met : List (Path × Nat)}
    (hdeps : visitDependencies (visit host fuel) root specifications s = .ok (dependencies, s'))
    (htracks : Tracks s met) :
    let met' := (directoriesOf host root specifications).foldl
      (fun met other => firstVisits host fuel depth other met) met
    Tracks s' met' ∧ met ⊆ met' ∧ ∀ left ≤ fuel,
      (visitDependencies (visit host left) root specifications s = .ok (dependencies, s') ↔
        MetAbove (depth + left) met met') := by
  induction specifications generalizing s dependencies met with
  | nil =>
    cases hdeps
    exact ⟨htracks, List.Subset.refl _, fun left _ => iff_of_true rfl fun _ hmem => .inl hmem⟩
  | cons specification rest ih =>
    obtain ⟨id, between, others, hfirst, hrest, rfl⟩ := visitDependencies_cons_eq_ok hdeps
    obtain ⟨directory, hdirectory, -⟩ := visit_eq_ok hfirst
    obtain ⟨hbetween, hiff⟩ := h depth hfirst hdirectory htracks
    obtain ⟨htracks', hsubset, hiff'⟩ := ih hrest hbetween
    have hmore := @subset_firstVisits host fuel depth directory met
    have hdirectories : directoriesOf host root (specification :: rest) =
        directory :: directoriesOf host root rest := by
      simp only [directoriesOf, List.filterMap_cons, hdirectory, Except.toOption]
    rw [hdirectories, List.foldl_cons]
    refine ⟨htracks', List.Subset.trans hmore hsubset, fun left hle => ?_⟩
    rw [metAbove_trans hmore hsubset, ← hiff left hle, ← hiff' left hle]
    constructor
    · intro hsmall
      obtain ⟨id', between', others', hfirst', hrest', heq⟩ := visitDependencies_cons_eq_ok hsmall
      cases hfirst.symm.trans (visit_mono hle hfirst')
      cases heq
      exact ⟨hfirst', hrest'⟩
    · rintro ⟨hfirst', hrest'⟩
      exact visitDependencies_cons hfirst' hrest'

theorem metAbove_concat {bound : Nat} {met : List (Path × Nat)} {visit : Path × Nat} :
    MetAbove bound met (met ++ [visit]) ↔ visit ∈ met ∨ visit.2 < bound := by
  constructor
  · intro h
    exact h visit (by simp)
  · intro h other hmem
    obtain hmem | hmem := List.mem_append.mp hmem
    · exact .inl hmem
    · obtain rfl := List.mem_singleton.mp hmem
      exact h

/-- A directory that was not met is entered, and its dependencies are visited. -/
theorem visit_enters {requested : Path} {rootPackage : Bool} {remaining : Nat} {id : String}
    {manifest : PackageManifest} (hroot : host.canonicalize requested = .ok root)
    (hnew : root ∉ s.visits) (hparsed : host.parseManifest (manifestPath root) = .ok manifest)
    (h : visit host remaining requested rootPackage requestedFrom requestedLine s = .ok (id, s')) :
    ∃ left visited, remaining = left + 1 ∧
      visitDependencies (visit host left) root manifest.dependencies
        (s.enter root manifest.identity) = .ok visited := by
  obtain ⟨_, hroot', ⟨hdone, -⟩ | ⟨-, -, left, manifest', _, dependencies, between, _, hleft,
    hinspected, rfl, -, hdeps, -⟩⟩ := visit_eq_ok h
  · cases hroot.symm.trans hroot'
    rw [AList.lookup_eq_none.mpr hnew] at hdone
    cases hdone
  · cases hroot.symm.trans hroot'
    cases hparsed.symm.trans hinspected.parsed
    exact ⟨left, (dependencies, between), hleft, hdeps⟩

/-- A directory is entered within a smaller limit exactly if its dependencies are visited within
it. -/
theorem visit_fresh_iff {requested sourceRoot : Path} {rootPackage : Bool} {left fuel : Nat}
    {manifest : PackageManifest} {digest : String} {dependencies : List (String × String)}
    {between : Resolver} (hroot : host.canonicalize requested = .ok root)
    (hnew : root ∉ s.visits) (hcount : s.visits.entries.length < maxPackages)
    (hinspected : Inspected host s root manifest)
    (hsrc : sourceRootOf host root manifest = .ok sourceRoot)
    (hdeps : visitDependencies (visit host fuel) root manifest.dependencies
      (s.enter root manifest.identity) = .ok (dependencies, between))
    (hdigest : digestOf host root rootPackage = .ok digest) (hle : left ≤ fuel) :
    visit host (left + 1) requested rootPackage requestedFrom requestedLine s =
        .ok (manifest.identity, between.leave
          ⟨manifest.identity, root, sourceRoot, manifest, dependencies, digest, rootPackage⟩) ↔
      visitDependencies (visit host left) root manifest.dependencies
        (s.enter root manifest.identity) = .ok (dependencies, between) := by
  constructor
  · intro hok
    obtain ⟨left', visited, hleft, hdeps'⟩ := visit_enters hroot hnew hinspected.parsed hok
    obtain rfl := Nat.succ.inj hleft
    cases hdeps.symm.trans (visitDependencies_mono (visit_mono hle) hdeps')
    exact hdeps'
  · intro hdeps'
    exact visit_fresh hroot hnew hcount hinspected hsrc hdeps' hdigest

theorem visit_follows (host : Host) (fuel : Nat) : Follows host fuel := by
  induction fuel with
  | zero =>
    intro requested root rootPackage requestedFrom requestedLine s s' id met depth h hroot htracks
    obtain ⟨_, hroot', ⟨hdone, rfl, rfl⟩ | ⟨-, -, left, -, -, -, -, -, hleft, -⟩⟩ := visit_eq_ok h
    · refine ⟨htracks, fun left _ => iff_of_true (visit_complete hroot' hdone left _) ?_⟩
      exact fun _ hmem => .inl hmem
    · cases hleft
  | succ fuel ih =>
    intro requested root rootPackage requestedFrom requestedLine s s' id met depth h hroot htracks
    obtain ⟨_, hroot', hcases⟩ := visit_eq_ok h
    cases hroot.symm.trans hroot'
    obtain ⟨hdone, rfl, rfl⟩ | ⟨hfresh, hcount, fuel', manifest, sourceRoot, dependencies, between,
      digest, hfuel, hinspected, rfl, hsrc, hdeps, hdigest, rfl⟩ := hcases
    · have hmet : root ∈ met.map Prod.fst :=
        (htracks root).mp (AList.lookup_isSome.mp (by rw [hdone]; rfl))
      rw [firstVisits, if_pos hmet]
      refine ⟨htracks, fun left _ => iff_of_true (visit_complete hroot hdone left _) ?_⟩
      exact fun _ hmem => .inl hmem
    · obtain rfl := Nat.succ.inj hfuel
      have hnew : root ∉ s.visits := AList.lookup_eq_none.mp hfresh
      have hunmet : root ∉ met.map Prod.fst := fun hmem => hnew ((htracks root).mpr hmem)
      have hentered : Tracks (s.enter root manifest.identity) (met ++ [(root, depth)]) := by
        intro directory
        simp [Resolver.enter, htracks directory, or_comm]
      obtain ⟨hbetween, hsubset, hiff⟩ :=
        @visitDependencies_follows _ _ _ _ _ (depth + 1) ih _ _ _ hdeps hentered
      rw [firstVisits, if_neg hunmet, dependencyDirectories, hinspected.parsed]
      have hroot_met : root ∈ between.visits :=
        (hbetween root).mpr (List.mem_map.mpr ⟨(root, depth), hsubset (by simp), rfl⟩)
      refine ⟨fun directory => ?_, fun left hle => ?_⟩
      · rw [← hbetween directory]
        simp only [Resolver.leave, AList.mem_insert]
        exact ⟨fun hmem => hmem.elim (fun heq => heq ▸ hroot_met) id, .inr⟩
      · -- A limit of zero does not admit the visit of the directory itself.
        rw [metAbove_trans (List.subset_append_left met [(root, depth)]) hsubset, metAbove_concat,
          or_iff_right fun hmem => hunmet (List.mem_map_of_mem hmem)]
        cases left with
        | zero =>
          refine iff_of_false (fun hok => ?_) fun habove => Nat.lt_irrefl depth habove.1
          obtain ⟨_, _, hzero, -⟩ := visit_enters hroot hnew hinspected.parsed hok
          cases hzero
        | succ left =>
          have hbound : depth + (left + 1) = depth + 1 + left := by omega
          rw [and_iff_right (by simp), hbound, ← hiff left (Nat.le_of_succ_le_succ hle)]
          exact visit_fresh_iff hroot hnew hcount hinspected hsrc hdeps hdigest
            (Nat.le_of_succ_le_succ hle)

/-- The depth test rejects exactly the roots with a first visit beyond the limit, among those
that resolve without it. -/
theorem resolve_eq_ok_iff (host : Host) (projectRoot : Path) (graph : PackageGraph) :
    resolve host projectRoot = .ok graph ↔
      resolveWithin host (maxPackages + 1) projectRoot = .ok graph ∧
        FirstVisitsShallow host graph.projectRoot := by
  have hfollows {s : Resolver} (hroot : host.canonicalize projectRoot = .ok graph.projectRoot)
      (hvisit : visit host (maxPackages + 1) graph.projectRoot true
        (manifestPath graph.projectRoot) 1 Resolver.initial = .ok (graph.rootId, s)) :
      visit host maxDependencyDepth graph.projectRoot true (manifestPath graph.projectRoot) 1
          Resolver.initial = .ok (graph.rootId, s) ↔ FirstVisitsShallow host graph.projectRoot := by
    have hinitial : Tracks Resolver.initial [] := fun directory => by simp [Resolver.initial]
    obtain ⟨-, hiff⟩ := visit_follows host (maxPackages + 1) 1 hvisit
      (host.canonicalize_canonical hroot) hinitial
    rw [hiff maxDependencyDepth (by decide)]
    simp only [MetAbove, List.not_mem_nil, false_or, FirstVisitsShallow]
    exact forall₂_congr fun visit _ => by omega
  constructor
  · intro h
    obtain ⟨hroot, ⟨bytes, hbytes, hdigest⟩, s, hvisit, hpackages⟩ := resolveWithin_eq_ok h
    have hdeep := visit_mono (show maxDependencyDepth ≤ maxPackages + 1 by decide) hvisit
    refine ⟨?_, (hfollows hroot hdeep).mp hvisit⟩
    rw [resolveWithin_of_visit hroot hbytes hdigest hdeep, ← hpackages]
  · rintro ⟨h, hshallow⟩
    obtain ⟨hroot, ⟨bytes, hbytes, hdigest⟩, s, hdeep, hpackages⟩ := resolveWithin_eq_ok h
    have hvisit := (hfollows hroot hdeep).mpr hshallow
    rw [resolve, resolveWithin_of_visit hroot hbytes hdigest hvisit, ← hpackages]

end Disp.Package
