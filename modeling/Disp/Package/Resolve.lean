import Disp.Library.Codec
import Mathlib.Data.List.AList

/-!
# Package resolution

`package::resolve` and `Resolver::visit`: a depth-first search over package directories,
from the manifest of the root along the local dependencies.  A directory is marked when
it is first met, a package is recorded when all its dependencies are.  The two limits are
tested when a directory is met for the first time.
-/

namespace Disp.Package

open Disp.Library.Codec

variable {requestedLine : Nat}

abbrev Path := List String

namespace Path

def display (path : Path) : String :=
  "/" ++ "/".intercalate path

/-- `Path::file_name`, with the fallback of the cycle message. -/
def fileName (path : Path) : String :=
  path.getLast?.getD "<package>"

end Path

structure Diagnostic where
  message : String
  file : String
  line : Nat
  help : Option String
  deriving DecidableEq, Repr

structure DependencySpec where
  path : Path
  line : Nat
  deriving DecidableEq, Repr

/-- A parsed manifest; the dependency map is listed in the order of its aliases. -/
structure PackageManifest where
  name : String
  version : String
  entry : Path
  dependencies : List (String × DependencySpec)
  aliases_sorted : (dependencies.map Prod.fst).Pairwise (· < ·)

def PackageManifest.identity (manifest : PackageManifest) : String :=
  manifest.name ++ "@" ++ manifest.version

/-- What resolution asks of the file system, the manifest parser and the hash. -/
structure Host where
  canonicalize : Path → Except String Path
  /-- A canonical path resolves to itself. -/
  canonicalize_canonical : ∀ {path real : Path},
    canonicalize path = .ok real → canonicalize real = .ok real
  read : Path → Except String Bytes
  parseManifest : Path → Except Diagnostic PackageManifest
  hashPackage : Path → Except Diagnostic String
  sha256Text : Bytes → Except String String

structure ResolvedPackage where
  id : String
  root : Path
  sourceRoot : Path
  manifest : PackageManifest
  dependencies : List (String × String)
  digest : String
  rootPackage : Bool

structure PackageGraph where
  projectRoot : Path
  rootId : String
  packages : AList fun _ : String => ResolvedPackage
  manifestDigest : String

inductive Visit
  | visiting
  | complete
  deriving DecidableEq, Repr

def maxPackages : Nat := 512

def maxDependencyDepth : Nat := 128

structure Resolver where
  packages : AList fun _ : String => ResolvedPackage
  paths : AList fun _ : Path => String
  identities : AList fun _ : String => Path
  visits : AList fun _ : Path => Visit
  stack : List Path

namespace Resolver

def initial : Resolver := ⟨∅, ∅, ∅, ∅, []⟩

/-- The marks set before the dependencies of a package are visited. -/
def enter (s : Resolver) (root : Path) (id : String) : Resolver :=
  { s with
    visits := s.visits.insert root .visiting
    stack := s.stack ++ [root]
    identities := s.identities.insert id root
    paths := s.paths.insert root id }

/-- What is recorded once all dependencies of a package are. -/
def leave (s : Resolver) (package : ResolvedPackage) : Resolver :=
  { s with
    stack := s.stack.dropLast
    visits := s.visits.insert package.root .complete
    packages := s.packages.insert package.id package }

end Resolver

/-! ## One package -/

variable {host : Host} {root requestedFrom : Path} {s s' : Resolver}

def manifestPath (root : Path) : Path :=
  root ++ ["DISP.toml"]

def packageError (path : Path) (message : String) : Diagnostic :=
  ⟨message, path.display, 1, none⟩

/-- The directory a package is requested at. -/
def locate (host : Host) (root requestedFrom : Path) (requestedLine : Nat) :
    Except Diagnostic Path :=
  match host.canonicalize root with
  | .ok real => .ok real
  | .error cause =>
    .error ⟨s!"could not resolve local dependency `{root.display}`: {cause}",
      requestedFrom.display, requestedLine, none⟩

def cycleMessage (stack : List Path) (root : Path) : String :=
  let names := (stack.drop (stack.idxOf root)).map Path.fileName ++ [root.fileName]
  "package dependency cycle: " ++ " -> ".intercalate names

/-- One name and version stands for one directory. -/
def checkIdentity (s : Resolver) (id : String) (root requestedFrom : Path) (requestedLine : Nat) :
    Except Diagnostic Unit :=
  match s.identities.lookup id with
  | none => .ok ()
  | some previous =>
    if previous = root then
      .ok ()
    else
      .error ⟨s!"package identity `{id}` resolves to both " ++
          s!"`{previous.display}` and `{root.display}`",
        requestedFrom.display, requestedLine,
        some "package name and version together must identify exactly one source tree"⟩

/-- The directory of the entry file, which has to lie inside the package. -/
def sourceRootOf (host : Host) (root : Path) (manifest : PackageManifest) :
    Except Diagnostic Path :=
  let written := root ++ manifest.entry
  match host.canonicalize written with
  | .error cause =>
    .error (packageError (manifestPath root)
      s!"could not resolve package entry `{written.display}`: {cause}")
  | .ok entry =>
    if ¬ root <+: entry then
      .error (packageError (manifestPath root) "package entry resolves outside its package root")
    else if entry = [] then
      .error (packageError (manifestPath root) "package entry has no source root")
    else
      .ok entry.dropLast

/-- The digest of the root covers its manifest only, that of a dependency its sources. -/
def digestOf (host : Host) (root : Path) (rootPackage : Bool) : Except Diagnostic String :=
  if rootPackage then
    match host.read (manifestPath root) with
    | .error cause =>
      .error (packageError (manifestPath root) s!"could not hash package manifest: {cause}")
    | .ok bytes => (host.sha256Text bytes).mapError (packageError (manifestPath root))
  else
    host.hashPackage root

/-! ## The search -/

/-- The dependencies of the package in `root`, in the order of their aliases. -/
def visitDependencies
    (visit : Path → Bool → Path → Nat → Resolver → Except Diagnostic (String × Resolver))
    (root : Path) :
    List (String × DependencySpec) → Resolver →
      Except Diagnostic (List (String × String) × Resolver)
  | [], s => .ok ([], s)
  | (name, specification) :: rest, s => do
      let (id, s) ← visit (root ++ specification.path) false (manifestPath root)
        specification.line s
      let (dependencies, s) ← visitDependencies visit root rest s
      return ((name, id) :: dependencies, s)

/-- `Resolver::visit`.  `remaining` is the depth limit less the length of the stack, so its
zero case is the test `stack.len() >= MAX_DEPENDENCY_DEPTH`. -/
def visit (host : Host) (remaining : Nat) (requested : Path) (rootPackage : Bool)
    (requestedFrom : Path) (requestedLine : Nat) (s : Resolver) :
    Except Diagnostic (String × Resolver) := do
  let root ← locate host requested requestedFrom requestedLine
  match s.visits.lookup root with
  | some .complete => .ok ((s.paths.lookup root).getD "", s)
  | some .visiting =>
    .error ⟨cycleMessage s.stack root, requestedFrom.display, requestedLine, none⟩
  | none =>
    if maxPackages ≤ s.visits.entries.length then
      .error ⟨s!"package graph exceeds the safety limit of {maxPackages} packages",
        requestedFrom.display, requestedLine, none⟩
    else
      match remaining with
      | 0 =>
        .error ⟨s!"package graph exceeds the maximum depth of {maxDependencyDepth}",
          requestedFrom.display, requestedLine, none⟩
      | remaining + 1 => do
          let manifest ← host.parseManifest (manifestPath root)
          let id := manifest.identity
          checkIdentity s id root requestedFrom requestedLine
          let sourceRoot ← sourceRootOf host root manifest
          let (dependencies, s) ←
            visitDependencies (visit host remaining) root manifest.dependencies (s.enter root id)
          let digest ← digestOf host root rootPackage
          return (id, s.leave ⟨id, root, sourceRoot, manifest, dependencies, digest, rootPackage⟩)

/-- `package::resolve` with the limit on the depth as a parameter. -/
def resolveWithin (host : Host) (limit : Nat) (projectRoot : Path) :
    Except Diagnostic PackageGraph := do
  let root ← (host.canonicalize projectRoot).mapError fun cause =>
    packageError (manifestPath projectRoot) s!"could not resolve package root: {cause}"
  let bytes ← (host.read (manifestPath root)).mapError fun cause =>
    packageError (manifestPath root) s!"could not read root package manifest: {cause}"
  let manifestDigest ← (host.sha256Text bytes).mapError fun message =>
    packageError (manifestPath root) s!"could not hash manifest: {message}"
  let (rootId, resolver) ←
    visit host limit root true (manifestPath root) 1 Resolver.initial
  return ⟨root, rootId, resolver.packages, manifestDigest⟩

/-- `package::resolve`. -/
def resolve (host : Host) (projectRoot : Path) : Except Diagnostic PackageGraph :=
  resolveWithin host maxDependencyDepth projectRoot

/-! ## What a successful run did -/

/-- The parts of a package that are read before its dependencies are visited. -/
structure Inspected (host : Host) (s : Resolver) (root : Path) (manifest : PackageManifest) :
    Prop where
  parsed : host.parseManifest (manifestPath root) = .ok manifest
  identified : ∀ {previous : Path}, s.identities.lookup manifest.identity = some previous →
    previous = root

theorem locate_eq_ok {real : Path} (h : locate host root requestedFrom requestedLine = .ok real) :
    host.canonicalize root = .ok real := by
  unfold locate at h
  split at h
  · cases h
    assumption
  · cases h

theorem checkIdentity_eq_ok {id : String}
    (h : checkIdentity s id root requestedFrom requestedLine = .ok ()) {previous : Path}
    (hlook : s.identities.lookup id = some previous) : previous = root := by
  rw [checkIdentity, hlook] at h
  by_contra hne
  simp [hne] at h

/-- A visit that succeeds found the directory complete, or entered it and left it. -/
theorem visit_eq_ok {remaining : Nat} {requested : Path} {rootPackage : Bool} {id : String}
    (h : visit host remaining requested rootPackage requestedFrom requestedLine s = .ok (id, s')) :
    ∃ root, host.canonicalize requested = .ok root ∧
      ((s.visits.lookup root = some .complete ∧ id = (s.paths.lookup root).getD "" ∧ s' = s) ∨
        (s.visits.lookup root = none ∧ s.visits.entries.length < maxPackages ∧
          ∃ left manifest sourceRoot dependencies between digest,
            remaining = left + 1 ∧ Inspected host s root manifest ∧ id = manifest.identity ∧
            sourceRootOf host root manifest = .ok sourceRoot ∧
            visitDependencies (visit host left) root manifest.dependencies (s.enter root id) =
              .ok (dependencies, between) ∧
            digestOf host root rootPackage = .ok digest ∧
            s' = between.leave
              ⟨id, root, sourceRoot, manifest, dependencies, digest, rootPackage⟩)) := by
  unfold visit at h
  obtain ⟨root, hroot, h⟩ := bind_eq_ok h
  refine ⟨root, locate_eq_ok hroot, ?_⟩
  split at h
  · rename_i hdone
    cases h
    exact .inl ⟨hdone, rfl, rfl⟩
  · cases h
  · rename_i hfresh
    split at h
    · cases h
    · rename_i hcount
      cases remaining with
      | zero => cases h
      | succ left =>
        obtain ⟨manifest, hmanifest, h⟩ := bind_eq_ok h
        obtain ⟨_, hid, h⟩ := bind_eq_ok h
        obtain ⟨sourceRoot, hsrc, h⟩ := bind_eq_ok h
        obtain ⟨⟨dependencies, between⟩, hdeps, h⟩ := bind_eq_ok h
        obtain ⟨digest, hdigest, h⟩ := bind_eq_ok h
        cases h
        exact .inr ⟨hfresh, Nat.lt_of_not_le hcount, left, manifest, sourceRoot, dependencies,
          between, digest, rfl, ⟨hmanifest, checkIdentity_eq_ok hid⟩, rfl, hsrc,
          hdeps, hdigest, rfl⟩

theorem visitDependencies_cons_eq_ok
    {visit : Path → Bool → Path → Nat → Resolver → Except Diagnostic (String × Resolver)}
    {name : String} {specification : DependencySpec} {rest : List (String × DependencySpec)}
    {dependencies : List (String × String)}
    (h : visitDependencies visit root ((name, specification) :: rest) s = .ok (dependencies, s')) :
    ∃ id between others,
      visit (root ++ specification.path) false (manifestPath root) specification.line s =
        .ok (id, between) ∧
      visitDependencies visit root rest between = .ok (others, s') ∧
      dependencies = (name, id) :: others := by
  obtain ⟨⟨id, between⟩, hvisit, h⟩ := bind_eq_ok h
  obtain ⟨⟨others, last⟩, hrest, h⟩ := bind_eq_ok h
  cases h
  exact ⟨id, between, others, hvisit, hrest, rfl⟩

theorem visitDependencies_cons
    {visit : Path → Bool → Path → Nat → Resolver → Except Diagnostic (String × Resolver)}
    {name id : String} {specification : DependencySpec} {rest : List (String × DependencySpec)}
    {others : List (String × String)} {between : Resolver}
    (hfirst : visit (root ++ specification.path) false (manifestPath root) specification.line s =
      .ok (id, between)) (hrest : visitDependencies visit root rest between = .ok (others, s')) :
    visitDependencies visit root ((name, specification) :: rest) s =
      .ok ((name, id) :: others, s') := by
  simp only [visitDependencies, hfirst, hrest, bind, Except.bind]
  rfl

/-- A visit of a complete directory leaves everything as it is. -/
theorem visit_complete {requested : Path} (hroot : host.canonicalize requested = .ok root)
    (hdone : s.visits.lookup root = some .complete) (remaining : Nat) (rootPackage : Bool) :
    visit host remaining requested rootPackage requestedFrom requestedLine s =
      .ok ((s.paths.lookup root).getD "", s) := by
  unfold visit
  simp only [locate, hroot, hdone, bind, Except.bind]

/-- A visit that enters a directory succeeds when each of its steps does. -/
theorem visit_fresh {requested sourceRoot : Path} {rootPackage : Bool} {left : Nat}
    {manifest : PackageManifest} {digest : String} {dependencies : List (String × String)}
    {between : Resolver} (hroot : host.canonicalize requested = .ok root)
    (hfresh : root ∉ s.visits) (hcount : s.visits.entries.length < maxPackages)
    (hinspected : Inspected host s root manifest)
    (hsrc : sourceRootOf host root manifest = .ok sourceRoot)
    (hdeps : visitDependencies (visit host left) root manifest.dependencies
      (s.enter root manifest.identity) = .ok (dependencies, between))
    (hdigest : digestOf host root rootPackage = .ok digest) :
    visit host (left + 1) requested rootPackage requestedFrom requestedLine s =
      .ok (manifest.identity, between.leave
        ⟨manifest.identity, root, sourceRoot, manifest, dependencies, digest, rootPackage⟩) := by
  have hid : checkIdentity s manifest.identity root requestedFrom requestedLine = .ok () := by
    unfold checkIdentity
    split
    · rfl
    · next previous hprevious => rw [if_pos (hinspected.identified hprevious)]
  unfold visit
  simp only [locate, hroot, AList.lookup_eq_none.mpr hfresh, Nat.not_le.mpr hcount,
    hinspected.parsed, hid, hsrc, hdeps, hdigest, bind, Except.bind]
  rfl

theorem resolveWithin_of_visit {projectRoot : Path} {limit : Nat} {bytes : Bytes}
    {manifestDigest rootId : String} (hroot : host.canonicalize projectRoot = .ok root)
    (hread : host.read (manifestPath root) = .ok bytes)
    (hdigest : host.sha256Text bytes = .ok manifestDigest)
    (hvisit : visit host limit root true (manifestPath root) 1 Resolver.initial =
      .ok (rootId, s)) :
    resolveWithin host limit projectRoot = .ok ⟨root, rootId, s.packages, manifestDigest⟩ := by
  simp only [resolveWithin, hroot, hread, hdigest, hvisit, Except.mapError, bind, Except.bind]
  rfl

theorem mapError_eq_ok {ε ε' α : Type} {result : Except ε α} {f : ε → ε'} {value : α}
    (h : result.mapError f = .ok value) : result = .ok value := by
  cases result with
  | error error => cases h
  | ok value' => exact congrArg Except.ok (Except.ok.inj h)

/-- A resolution that succeeds is the visit of the canonical root. -/
theorem resolveWithin_eq_ok {projectRoot : Path} {limit : Nat} {graph : PackageGraph}
    (h : resolveWithin host limit projectRoot = .ok graph) :
    host.canonicalize projectRoot = .ok graph.projectRoot ∧
      (∃ bytes, host.read (manifestPath graph.projectRoot) = .ok bytes ∧
        host.sha256Text bytes = .ok graph.manifestDigest) ∧
      ∃ s, visit host limit graph.projectRoot true (manifestPath graph.projectRoot) 1
          Resolver.initial = .ok (graph.rootId, s) ∧ graph.packages = s.packages := by
  obtain ⟨root, hroot, h⟩ := bind_eq_ok h
  obtain ⟨bytes, hbytes, h⟩ := bind_eq_ok h
  obtain ⟨manifestDigest, hdigest, h⟩ := bind_eq_ok h
  obtain ⟨⟨rootId, s⟩, hvisit, h⟩ := bind_eq_ok h
  cases h
  exact ⟨mapError_eq_ok hroot, ⟨bytes, mapError_eq_ok hbytes, mapError_eq_ok hdigest⟩, s, hvisit,
    rfl⟩

end Disp.Package
