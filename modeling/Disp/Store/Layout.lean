import Disp.Library.Pointwise
import Disp.Store.Pages

/-!
# The flag bytes of an image

Where the flags of the fields lie in the payload of a page image, found by the counts and
lengths in it alone, without any of the decoder's tests.  The decoder goes the same way, so in
every image that it accepts all these bytes are within the mask of the image's version.
-/

namespace Disp.Store

open Library.Codec Library.Pointwise List

/-! ## The layout -/

/-- Past one text or row, by its length. -/
def skipData (context : String) : Reader Invalid Unit := do
  let length ← Reader.u32 context
  let _ ← Reader.takeBytes length context
  return ()

def fieldFlags (_ : List UInt8) : Reader Invalid UInt8 := do
  skipData "field name"
  skipData "field storage type"
  Reader.u8 "field flags"

def skipConstraint (_ : List Unit) : Reader Invalid Unit := do
  skipData "constraint name"
  let _ ← Reader.u8 "constraint flags"
  let fieldCount ← Reader.u32 "constraint field count"
  let _ ← repeated (fun _ => skipData "constraint field") fieldCount []
  return ()

def skipConstraints (supportsConstraints : Bool) : Reader Invalid Unit := do
  let count ← if supportsConstraints then Reader.u32 "constraint count" else pure 0
  let _ ← repeated skipConstraint count []
  return ()

def tableFlags (supportsConstraints : Bool) (_ : List (List UInt8)) :
    Reader Invalid (List UInt8) := do
  skipData "table name"
  let fieldCount ← Reader.u32 "field count"
  let flags ← repeated fieldFlags fieldCount []
  skipConstraints supportsConstraints
  let rowCount ← Reader.u64 "row count"
  let _ ← repeated (fun _ => skipData "stored row") rowCount []
  return flags

/-- The flag bytes of the fields of each table. -/
def payloadFlags (supportsConstraints : Bool) : Reader Invalid (List (List UInt8)) := do
  let tableCount ← Reader.u32 "table count"
  repeated (tableFlags supportsConstraints) tableCount []

/-- The used parts of the data pages, as many as the header counts. -/
def pagedPayload (image : Bytes) : Bytes :=
  (List.range' 1 (readU64 image 32 - 1)).flatMap fun page =>
    slice image (page * pageSize + pageHeaderSize) (readU32 image (page * pageSize + 8))

/-- The image is laid out as a list of tables, and no flag of a field is outside the mask. -/
def FlagsWithin (allowedFlags : UInt8) (supportsConstraints : Bool) (image : Bytes) : Prop :=
  ∃ flags, payloadFlags supportsConstraints (pagedPayload image) = .ok (flags, []) ∧
    ∀ fields ∈ flags, ∀ flag ∈ fields, flag &&& ~~~allowedFlags = 0

/-! ## The decoder follows the layout -/

section

variable {allowedFlags : UInt8} {supportsConstraints : Bool} {bytes image payload : Bytes}
  {snapshot : Snapshot}

theorem follows_data (limit : Nat) (context : String) :
    Follows (fun _ _ => True) (Reader.data limit context) (skipData context) := by
  refine (Follows.refl _).bind fun length _ heq => heq ▸ .require_bind fun _ => ?_
  intro bytes value rest h
  refine ⟨(), ?_, trivial⟩
  rw [bind_apply, h]
  rfl

theorem follows_text (limit : Nat) (context : String) :
    Follows (fun _ _ => True) (Reader.text limit context) (skipData context) := by
  intro bytes value rest h
  obtain ⟨⟨read, between⟩, hdata, h⟩ := bind_eq_ok h
  have hrest : between = rest := by
    cases hutf8 : String.fromUTF8? ⟨read.toArray⟩ with
    | none =>
      simp only [Reader.fromUtf8, hutf8] at h
      cases h
    | some text =>
      simp only [Reader.fromUtf8, hutf8] at h
      cases h
      rfl
  exact hrest ▸ follows_data limit context _ _ _ hdata

theorem follows_field (allowedFlags : UInt8) (done : List Field) (done' : List UInt8) :
    Follows (fun _ flags => flags &&& ~~~allowedFlags = 0) (decodeField allowedFlags done)
      (fieldFlags done') := by
  refine (follows_text _ _).bind fun _ _ _ => .require_bind fun _ => ?_
  refine (follows_text _ _).bind fun _ _ _ => ?_
  intro bytes field rest h
  obtain ⟨flags, hflags, read, hread, hmask⟩ := (Follows.refl _).checked _ _ _ h
  exact ⟨flags, hflags, hread ▸ eq_of_beq hmask⟩

theorem follows_constraintField (names done : List String) :
    Follows (fun _ _ => True) (decodeConstraintField names done) (skipData "constraint field") := by
  intro bytes field rest h
  obtain ⟨_, hskip, -⟩ := (follows_text _ _).checked _ _ _ h
  exact ⟨(), hskip, trivial⟩

theorem follows_constraint (names : List String) (done : List Constraint) (done' : List Unit) :
    Follows (fun _ _ => True) (decodeConstraint names done) (skipConstraint done') := by
  refine (follows_text _ _).bind fun _ _ _ => .require_bind fun _ => ?_
  refine (Follows.refl _).bind fun _ _ _ => .require_bind fun _ => ?_
  refine (Follows.refl _).bind fun count _ heq => heq ▸ .require_bind fun _ => ?_
  exact (Follows.repeated (fun done _ => follows_constraintField names done) count .nil).bind
    fun _ _ _ => follows_pure trivial

theorem follows_constraints (supportsConstraints : Bool) (fields : List Field) :
    Follows (fun _ _ => True) (decodeConstraints supportsConstraints fields)
      (skipConstraints supportsConstraints) := by
  have hcount (count : Nat) : Follows (fun _ _ => True)
      (require (decide (count ≤ maxFields)) ⟨"DISP Data table exceeds 4096 constraints"⟩ >>=
        fun _ => repeated (decodeConstraint (fields.map Field.name)) count [])
      (repeated skipConstraint count [] >>= fun _ => pure ()) := by
    refine .require_bind fun _ bytes constraints rest h => ⟨(), ?_, trivial⟩
    obtain ⟨_, hskip, -⟩ := Follows.repeated (follows_constraint _) count .nil _ _ _ h
    rw [bind_apply, hskip]
    rfl
  cases supportsConstraints with
  | false => exact hcount 0
  | true => exact (Follows.refl (Reader.u32 _)).bind fun count _ heq => heq ▸ hcount count

theorem follows_table (allowedFlags : UInt8) (supportsConstraints : Bool) (done : List Table)
    (done' : List (List UInt8)) :
    Follows (fun _ fields => ∀ flag ∈ fields, flag &&& ~~~allowedFlags = 0)
      (decodeTable allowedFlags supportsConstraints done)
      (tableFlags supportsConstraints done') := by
  refine (follows_text _ _).bind fun _ _ _ => .require_bind fun _ => ?_
  refine (Follows.refl _).bind fun count _ heq => heq ▸ .require_bind fun _ => ?_
  refine (Follows.repeated (follows_field allowedFlags) count .nil).bind
    fun fields flags hflags => ?_
  refine .require_bind fun _ => (follows_constraints _ _).bind fun _ _ _ => ?_
  refine (Follows.refl _).bind fun count _ heq => heq ▸ .require_bind fun _ => ?_
  refine (Follows.repeated (fun _ _ => follows_data _ _) count .nil).bind fun _ _ _ => ?_
  refine follows_pure fun flag hmem => ?_
  obtain ⟨field, -, hwithin⟩ := exists_of_mem_right hflags hmem
  exact hwithin

theorem decodePayload_flags
    (h : decodePayload payload allowedFlags supportsConstraints = .ok snapshot) :
    ∃ flags, payloadFlags supportsConstraints payload = .ok (flags, []) ∧
      ∀ fields ∈ flags, ∀ flag ∈ fields, flag &&& ~~~allowedFlags = 0 := by
  obtain ⟨⟨tables, rest⟩, htables, h⟩ := bind_eq_ok h
  obtain ⟨hempty, -⟩ := ensure_bind_ok h
  obtain rfl : rest = [] := List.isEmpty_iff.mp hempty
  have hfollows : Follows
      (Forall₂ fun _ fields => ∀ flag ∈ fields, flag &&& ~~~allowedFlags = 0)
      (decodeTables allowedFlags supportsConstraints) (payloadFlags supportsConstraints) :=
    (Follows.refl _).bind fun count _ heq => heq ▸ .require_bind fun _ =>
      Follows.repeated (follows_table allowedFlags supportsConstraints) count .nil
  obtain ⟨flags, hflags, hwithin⟩ := hfollows _ _ _ htables
  refine ⟨flags, hflags, fun fields hmem => ?_⟩
  obtain ⟨table, -, hfields⟩ := exists_of_mem_right hwithin hmem
  exact hfields

/-! ## Pages -/

theorem decodePage_eq_ok {payloadLength pageCount page : Nat} {payload' : Bytes}
    (h : decodePage image payloadLength pageCount payload page = .ok payload') :
    payload' = payload ++
      slice image (page * pageSize + pageHeaderSize) (readU32 image (page * pageSize + 8)) := by
  obtain ⟨-, h⟩ := ensure_bind_ok h
  obtain ⟨-, h⟩ := ensure_bind_ok h
  obtain ⟨-, h⟩ := ensure_bind_ok h
  obtain ⟨-, h⟩ := ensure_bind_ok h
  obtain ⟨-, h⟩ := ensure_bind_ok h
  obtain ⟨-, h⟩ := ensure_bind_ok h
  cases h
  rfl

theorem foldlM_decodePage {payloadLength pageCount : Nat} {pages : List Nat} {payload' : Bytes}
    (h : pages.foldlM (decodePage image payloadLength pageCount) payload = .ok payload') :
    payload' = payload ++ pages.flatMap fun page =>
      slice image (page * pageSize + pageHeaderSize) (readU32 image (page * pageSize + 8)) := by
  induction pages generalizing payload with
  | nil =>
    cases h
    simp
  | cons page pages ih =>
    obtain ⟨between, hpage, h⟩ := bind_eq_ok h
    rw [ih h, decodePage_eq_ok hpage, flatMap_cons, append_assoc]

theorem decodePages_eq_ok
    (h : decodePages image allowedFlags supportsConstraints = .ok snapshot) :
    decodePayload (pagedPayload image) allowedFlags supportsConstraints = .ok snapshot := by
  obtain ⟨-, h⟩ := ensure_bind_ok h
  obtain ⟨-, h⟩ := ensure_bind_ok h
  obtain ⟨-, h⟩ := ensure_bind_ok h
  obtain ⟨-, h⟩ := ensure_bind_ok h
  obtain ⟨-, h⟩ := ensure_bind_ok h
  obtain ⟨-, h⟩ := ensure_bind_ok h
  obtain ⟨-, h⟩ := ensure_bind_ok h
  obtain ⟨payload, hpages, h⟩ := bind_eq_ok h
  obtain ⟨-, h⟩ := ensure_bind_ok h
  rw [pagedPayload]
  rwa [foldlM_decodePage hpages, nil_append] at h

/-- An image of any of the page formats with a flag outside the mask of its version, or without
the layout of a payload, is refused. -/
theorem decode_error_of_flags {number : Nat}
    (hformat : PageFormat number allowedFlags supportsConstraints)
    (hnumber : readU32 image 8 = number)
    (hflags : ¬ FlagsWithin allowedFlags supportsConstraints image) :
    ∃ error, decode image = .error error := by
  cases hdecode : decode image with
  | error error => exact ⟨error, rfl⟩
  | ok snapshot =>
    refine absurd ?_ hflags
    obtain ⟨-, h⟩ := ensure_bind_ok hdecode
    obtain ⟨-, h⟩ := ensure_bind_ok h
    obtain ⟨-, h⟩ := ensure_bind_ok h
    rw [hnumber] at h
    have hpages : decodePages image allowedFlags supportsConstraints = .ok snapshot := by
      cases hformat <;> exact h
    exact decodePayload_flags (decodePages_eq_ok hpages)

end

end Disp.Store
