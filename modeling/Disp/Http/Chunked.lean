import Disp.Library.Codec
import Disp.Library.Fragments

/-!
# Chunked bodies

`decode_chunked_body` reads the chunks that have arrived.  It is called again on more bytes as
long as it asks for more.  `decodeChunkedBody_append` compares what it says about a part of the
bytes with what it says about all of them: they agree, unless the part ends within the line
break after a chunk line of exactly 8192 bytes.

Sizes are those of a host with 64-bit addresses.
-/

namespace Disp.Http

open Disp.Library.Codec Disp.Library.Fragments List

variable {bytes : Bytes} {start lineEnd position size consumed : Nat} {decoded next : Bytes}
  {following : Nat} {result : Bytes}

inductive ErrorKind where
  | invalidData
  | unexpectedEof
  deriving DecidableEq

/-- An `io::Error` made by `http_error`. -/
structure HttpError where
  kind : ErrorKind
  message : String
  deriving DecidableEq

def invalidData (message : String) : HttpError := ⟨.invalidData, message⟩

def unexpectedEof (message : String) : HttpError := ⟨.unexpectedEof, message⟩

def httpBodyLimit : Nat := 16 * 1024 * 1024

def lineLimit : Nat := 8192

def usizeSize : Nat := 2 ^ 64

/-! ## Text -/

def isContinuation (byte : UInt8) : Bool := decide (0x80 ≤ byte ∧ byte ≤ 0xbf)

def continuationBits (byte : UInt8) : Nat := byte.toNat % 64

/-- `str::from_utf8`: the characters of well-formed UTF-8. -/
def fromUtf8 : Bytes → Option (List Char)
  | [] => some []
  | first :: rest =>
    if first < 0x80 then
      (fromUtf8 rest).map (Char.ofNat first.toNat :: ·)
    else
      match rest with
      | [] => none
      | second :: rest =>
        if 0xc2 ≤ first ∧ first ≤ 0xdf then
          if isContinuation second then
            (fromUtf8 rest).map
              (Char.ofNat (first.toNat % 32 * 64 + continuationBits second) :: ·)
          else
            none
        else
          match rest with
          | [] => none
          | third :: rest =>
            if 0xe0 ≤ first ∧ first ≤ 0xef then
              if isContinuation second ∧ isContinuation third ∧
                  (first = 0xe0 → 0xa0 ≤ second) ∧ (first = 0xed → second ≤ 0x9f) then
                (fromUtf8 rest).map (Char.ofNat (first.toNat % 16 * 4096 +
                  continuationBits second * 64 + continuationBits third) :: ·)
              else
                none
            else
              match rest with
              | [] => none
              | fourth :: rest =>
                if 0xf0 ≤ first ∧ first ≤ 0xf4 ∧ isContinuation second ∧
                    isContinuation third ∧ isContinuation fourth ∧
                    (first = 0xf0 → 0x90 ≤ second) ∧ (first = 0xf4 → second ≤ 0x8f) then
                  (fromUtf8 rest).map (Char.ofNat (first.toNat % 8 * 262144 +
                    continuationBits second * 4096 + continuationBits third * 64 +
                    continuationBits fourth) :: ·)
                else
                  none

/-! ## Chunk lines -/

def crlf : Bytes := [13, 10]

def findCrlf (bytes : Bytes) (start : Nat) : Option Nat :=
  (find crlf (bytes.drop start)).map (start + ·)

def hexDigit (byte : UInt8) : Option Nat :=
  if 48 ≤ byte ∧ byte ≤ 57 then some (byte.toNat - 48)
  else if 65 ≤ byte ∧ byte ≤ 70 then some (byte.toNat - 55)
  else if 97 ≤ byte ∧ byte ≤ 102 then some (byte.toNat - 87)
  else none

def hexValue (digits : List Nat) : Nat := digits.foldl (fun value digit => value * 16 + digit) 0

/-- The size on a chunk line, without its extensions. -/
def chunkSize (line : Bytes) : Except HttpError Nat :=
  if (fromUtf8 line).isNone then
    .error (invalidData "HTTP chunk size is not ASCII")
  else
    let digits := line.takeWhile (· ≠ 59)
    match digits.mapM hexDigit with
    | none => .error (invalidData "invalid HTTP chunk size")
    | some [] => .error (invalidData "invalid HTTP chunk size")
    | some values =>
      if usizeSize ≤ hexValue values then
        .error (invalidData "HTTP chunk size overflow")
      else
        .ok (hexValue values)

/-- The chunk line at a position: where the chunk starts, and its size. -/
def chunkLine (bytes : Bytes) (position : Nat) : Except HttpError (Option (Nat × Nat)) :=
  match findCrlf bytes position with
  | none =>
    if lineLimit < bytes.length - position then
      .error (invalidData "HTTP chunk line exceeds 8192 bytes")
    else
      .ok none
  | some lineEnd =>
    if lineLimit < lineEnd - position then
      .error (invalidData "HTTP chunk line exceeds 8192 bytes")
    else
      (chunkSize (slice bytes position (lineEnd - position))).map fun size =>
        some (lineEnd + 2, size)

theorem crlf_ne_nil : crlf ≠ [] := by decide

theorem findCrlf_bounds (h : findCrlf bytes start = some lineEnd) :
    start ≤ lineEnd ∧ lineEnd + 2 ≤ bytes.length := by
  obtain ⟨offset, hoffset, rfl⟩ := Option.map_eq_some_iff.mp h
  have hlen := find_length_le crlf_ne_nil hoffset
  rw [length_drop, crlf, length_cons, length_singleton] at hlen
  omega

theorem findCrlf_split (h : findCrlf bytes start = some lineEnd) :
    ∃ before rest, bytes = before ++ 13 :: 10 :: rest ∧ before.length = lineEnd := by
  have hbounds := findCrlf_bounds h
  obtain ⟨offset, hoffset, rfl⟩ := Option.map_eq_some_iff.mp h
  obtain ⟨rest, hsplit, hlen⟩ := find_split crlf_ne_nil hoffset
  refine ⟨bytes.take start ++ (bytes.drop start).take offset, rest, ?_, ?_⟩
  · rw [append_assoc]
    exact (take_append_drop start bytes).symm.trans (congrArg _ hsplit)
  · rw [length_append, hlen, length_take_of_le (by omega)]

/-- The end of the trailers that follow the last chunk. -/
def skipTrailers (bytes : Bytes) (position : Nat) : Except HttpError (Option Nat) :=
  match hfind : findCrlf bytes position with
  | none => .ok none
  | some trailerEnd =>
    if trailerEnd = position then
      .ok (some (trailerEnd + 2))
    else if lineLimit < trailerEnd - position then
      .error (invalidData "HTTP trailer line exceeds 8192 bytes")
    else
      skipTrailers bytes (trailerEnd + 2)
termination_by bytes.length - position
decreasing_by
  have := findCrlf_bounds hfind
  omega

/-! ## Decoding -/

/-- What one round of the loop of `decode_chunked_body` comes to. -/
inductive Round where
  | more
  | failed (error : HttpError)
  | again (position : Nat) (decoded : Bytes)
  | finished (decoded : Bytes) (consumed : Nat)
  deriving DecidableEq

def decodeRound (bytes : Bytes) (position : Nat) (decoded : Bytes) : Round :=
  match chunkLine bytes position with
  | .error error => .failed error
  | .ok none => .more
  | .ok (some (start, size)) =>
    if size = 0 then
      match skipTrailers bytes start with
      | .error error => .failed error
      | .ok none => .more
      | .ok (some consumed) => .finished decoded consumed
    else if usizeSize ≤ start + size + 2 then
      .failed (invalidData "HTTP chunk size overflow")
    else if bytes.length < start + size + 2 then
      .more
    else if slice bytes (start + size) 2 ≠ crlf then
      .failed (invalidData "HTTP chunk is missing its terminator")
    else if httpBodyLimit < decoded.length + size then
      .failed (invalidData "HTTP response body exceeds the 16 MiB limit")
    else
      .again (start + size + 2) (decoded ++ slice bytes start size)

theorem chunkLine_eq_some (h : chunkLine bytes position = .ok (some (start, size))) :
    ∃ lineEnd, findCrlf bytes position = some lineEnd ∧ start = lineEnd + 2 ∧
      lineEnd - position ≤ lineLimit ∧
      chunkSize (slice bytes position (lineEnd - position)) = .ok size := by
  rw [chunkLine] at h
  split at h
  · split at h <;> cases h
  · next lineEnd hfind =>
      split at h
      · cases h
      · next hlimit =>
          cases hsize : chunkSize (slice bytes position (lineEnd - position)) with
          | error error => rw [hsize] at h; cases h
          | ok value =>
            rw [hsize] at h
            cases h
            exact ⟨lineEnd, hfind, rfl, Nat.le_of_not_lt hlimit, hsize⟩

theorem chunkLine_bounds (h : chunkLine bytes position = .ok (some (start, size))) :
    position + 2 ≤ start ∧ start ≤ bytes.length := by
  obtain ⟨lineEnd, hfind, rfl, -⟩ := chunkLine_eq_some h
  have hbounds := findCrlf_bounds hfind
  omega

theorem skipTrailers_bounds (h : skipTrailers bytes position = .ok (some consumed)) :
    position ≤ consumed ∧ consumed ≤ bytes.length := by
  fun_induction skipTrailers bytes position with
  | case1 | case3 => cases h
  | case2 trailerEnd hfind =>
    cases h
    have hbounds := findCrlf_bounds hfind
    omega
  | case4 position trailerEnd hfind _ _ ih =>
    have hbounds := findCrlf_bounds hfind
    have hlater := ih h
    omega

theorem skipTrailers_split (h : skipTrailers bytes position = .ok (some consumed)) :
    ∃ before rest, bytes = before ++ 13 :: 10 :: rest ∧ before.length + 2 = consumed := by
  fun_induction skipTrailers bytes position with
  | case1 | case3 => cases h
  | case2 trailerEnd hfind =>
    cases h
    obtain ⟨before, rest, hsplit, hlen⟩ := findCrlf_split hfind
    exact ⟨before, rest, hsplit, by rw [hlen]⟩
  | case4 position trailerEnd hfind _ _ ih => exact ih h

theorem decodeRound_again (h : decodeRound bytes position decoded = .again following next) :
    ∃ start size, chunkLine bytes position = .ok (some (start, size)) ∧ size ≠ 0 ∧
      following = start + size + 2 ∧ start + size + 2 < usizeSize ∧
      start + size + 2 ≤ bytes.length ∧ slice bytes (start + size) 2 = crlf ∧
      decoded.length + size ≤ httpBodyLimit ∧ next = decoded ++ slice bytes start size := by
  rw [decodeRound] at h
  split at h
  · cases h
  · cases h
  · next start size hline =>
      split_ifs at h with hzero hoverflow hshort hmark hlimit
      · split at h <;> cases h
      · cases h
        exact ⟨start, size, hline, hzero, rfl, by omega, by omega, not_not.mp hmark, by omega, rfl⟩

theorem decodeRound_finished (h : decodeRound bytes position decoded = .finished result consumed) :
    ∃ start, chunkLine bytes position = .ok (some (start, 0)) ∧
      skipTrailers bytes start = .ok (some consumed) ∧ result = decoded := by
  rw [decodeRound] at h
  split at h
  · cases h
  · cases h
  · next start size hline =>
      split_ifs at h with hzero
      subst hzero
      split at h
      · cases h
      · cases h
      · next hskip =>
          cases h
          exact ⟨start, hline, hskip, rfl⟩

theorem decodeRound_again_bounds (h : decodeRound bytes position decoded = .again following next) :
    position + 2 ≤ following ∧ following ≤ bytes.length := by
  obtain ⟨start, size, hline, -, rfl, -, hlen, -⟩ := decodeRound_again h
  have hbounds := chunkLine_bounds hline
  omega

theorem decodeRound_finished_bounds
    (h : decodeRound bytes position decoded = .finished result consumed) :
    position + 2 ≤ consumed ∧ consumed ≤ bytes.length := by
  obtain ⟨start, hline, hskip, -⟩ := decodeRound_finished h
  have hbounds := chunkLine_bounds hline
  have htrailers := skipTrailers_bounds hskip
  omega

def decodeFrom (bytes : Bytes) (position : Nat) (decoded : Bytes) :
    Except HttpError (Option (Bytes × Nat)) :=
  match _ : decodeRound bytes position decoded with
  | .more => .ok none
  | .failed error => .error error
  | .again following next => decodeFrom bytes following next
  | .finished result consumed => .ok (some (result, consumed))
termination_by bytes.length - position
decreasing_by
  have := decodeRound_again_bounds ‹_›
  omega

/-- The decoded body and the number of bytes it took, or nothing if bytes are missing. -/
def decodeChunkedBody (bytes : Bytes) : Except HttpError (Option (Bytes × Nat)) :=
  decodeFrom bytes 0 []

/-! ## A part and the whole -/

section

variable {part : Bytes} {rest whole body : Bytes} {outcome : Bytes × Nat}

theorem findCrlf_append (hstart : start ≤ part.length)
    (h : findCrlf (part ++ rest) start = some lineEnd) :
    findCrlf part start = if lineEnd + 2 ≤ part.length then some lineEnd else none := by
  obtain ⟨offset, hoffset, rfl⟩ := Option.map_eq_some_iff.mp h
  rw [drop_append_of_le_length hstart] at hoffset
  have hlen : (part.drop start).length = part.length - start := length_drop
  rw [findCrlf, find_append crlf_ne_nil hoffset]
  have hcrlf : crlf.length = 2 := rfl
  by_cases hinside : start + offset + 2 ≤ part.length
  · rw [if_pos (by omega), if_pos hinside]
    rfl
  · rw [if_neg (by omega), if_neg hinside]
    rfl

theorem findCrlf_append_of_some (h : findCrlf part start = some lineEnd) (rest : Bytes) :
    findCrlf (part ++ rest) start = some lineEnd := by
  have hbounds := findCrlf_bounds h
  obtain ⟨offset, hoffset, rfl⟩ := Option.map_eq_some_iff.mp h
  rw [findCrlf, drop_append_of_le_length (by omega),
    find_append_of_some crlf_ne_nil hoffset]
  rfl

theorem findCrlf_append_of_none (hstart : start ≤ part.length)
    (hpart : findCrlf part start = none) (h : findCrlf (part ++ rest) start = some lineEnd) :
    part.length < lineEnd + 2 := by
  rw [findCrlf_append hstart h] at hpart
  split_ifs at hpart with hinside
  omega

theorem chunkLine_append_of_some (h : findCrlf part position = some lineEnd) (rest : Bytes) :
    chunkLine (part ++ rest) position = chunkLine part position := by
  have hbounds := findCrlf_bounds h
  rw [chunkLine, chunkLine, findCrlf_append_of_some h, h]
  simp only
  rw [slice_append_left rest (by omega)]

theorem chunkLine_append (hpos : position ≤ part.length)
    (h : chunkLine (part ++ rest) position = .ok (some (start, size))) :
    chunkLine part position = .ok (some (start, size)) ∨
    (chunkLine part position = .ok none ∧ part.length < start) ∨
    ((∃ error, chunkLine part position = .error error) ∧ part.length = position + lineLimit + 1 ∧
      findCrlf (part ++ rest) position = some (position + lineLimit)) := by
  obtain ⟨lineEnd, hfind, rfl, hlimit, -⟩ := chunkLine_eq_some h
  cases hpart : findCrlf part position with
  | some found =>
    rw [chunkLine_append_of_some hpart] at h
    exact .inl h
  | none =>
    have hbeyond := findCrlf_append_of_none hpos hpart hfind
    by_cases hlong : lineLimit < part.length - position
    · refine .inr (.inr ⟨⟨_, by rw [chunkLine, hpart]; exact if_pos hlong⟩, ?_, ?_⟩)
      · omega
      · rw [hfind]
        congr 1
        omega
    · refine .inr (.inl ⟨?_, hbeyond⟩)
      rw [chunkLine, hpart]
      exact if_neg hlong

theorem skipTrailers_append_of_some (h : skipTrailers part position = .ok (some consumed))
    (rest : Bytes) : skipTrailers (part ++ rest) position = .ok (some consumed) := by
  fun_induction skipTrailers part position with
  | case1 | case3 => cases h
  | case2 trailerEnd hfind =>
    rw [skipTrailers, findCrlf_append_of_some hfind]
    simpa using h
  | case4 position trailerEnd hfind hother hlimit ih =>
    rw [skipTrailers, findCrlf_append_of_some hfind]
    simp only
    rw [if_neg hother, if_neg hlimit]
    exact ih h

theorem skipTrailers_append (hwhole : whole = part ++ rest) (hpos : position ≤ part.length)
    (h : skipTrailers whole position = .ok (some consumed)) :
    (skipTrailers part position = .ok (some consumed) ∧ consumed ≤ part.length) ∨
    (skipTrailers part position = .ok none ∧ part.length < consumed) := by
  fun_induction skipTrailers whole position with
  | case1 | case3 => cases h
  | case2 trailerEnd hfind =>
    cases h
    rw [hwhole] at hfind
    have hpart := findCrlf_append hpos hfind
    by_cases hinside : trailerEnd + 2 ≤ part.length
    · rw [if_pos hinside] at hpart
      refine .inl ⟨?_, hinside⟩
      rw [skipTrailers, hpart]
      simp
    · rw [if_neg hinside] at hpart
      refine .inr ⟨?_, by omega⟩
      rw [skipTrailers, hpart]
  | case4 position trailerEnd hfind hother hlimit ih =>
    have hbounds := skipTrailers_bounds h
    rw [hwhole] at hfind
    have hpart := findCrlf_append hpos hfind
    by_cases hinside : trailerEnd + 2 ≤ part.length
    · rw [if_pos hinside] at hpart
      have hskip : skipTrailers part position = skipTrailers part (trailerEnd + 2) := by
        rw [skipTrailers, hpart]
        simp only
        rw [if_neg hother, if_neg hlimit]
      rw [hskip]
      exact ih hinside h
    · rw [if_neg hinside] at hpart
      refine .inr ⟨?_, by omega⟩
      rw [skipTrailers, hpart]

/-! ### Rounds -/

theorem decodeRound_of_again (hline : chunkLine bytes position = .ok (some (start, size)))
    (hsize : size ≠ 0) (hoverflow : start + size + 2 < usizeSize)
    (hlen : start + size + 2 ≤ bytes.length) (hmark : slice bytes (start + size) 2 = crlf)
    (hlimit : decoded.length + size ≤ httpBodyLimit) :
    decodeRound bytes position decoded =
      .again (start + size + 2) (decoded ++ slice bytes start size) := by
  rw [decodeRound, hline]
  simp only
  rw [if_neg hsize, if_neg (by omega), if_neg (by omega), if_neg (not_not.mpr hmark),
    if_neg (by omega)]

theorem decodeRound_append_of_again
    (h : decodeRound part position decoded = .again following next) (rest : Bytes) :
    decodeRound (part ++ rest) position decoded = .again following next := by
  obtain ⟨start, size, hline, hsize, rfl, hoverflow, hlen, hmark, hlimit, rfl⟩ :=
    decodeRound_again h
  obtain ⟨lineEnd, hfind, -⟩ := chunkLine_eq_some hline
  have hwhole : chunkLine (part ++ rest) position = .ok (some (start, size)) := by
    rw [chunkLine_append_of_some hfind, hline]
  rw [decodeRound_of_again hwhole hsize hoverflow (by rw [length_append]; omega)
    (by rw [slice_append_left rest (by omega), hmark]) hlimit,
    slice_append_left rest (by omega)]

theorem decodeRound_append_of_finished
    (h : decodeRound part position decoded = .finished result consumed) (rest : Bytes) :
    decodeRound (part ++ rest) position decoded = .finished result consumed := by
  obtain ⟨start, hline, hskip, rfl⟩ := decodeRound_finished h
  obtain ⟨lineEnd, hfind, -⟩ := chunkLine_eq_some hline
  rw [decodeRound, chunkLine_append_of_some hfind, hline]
  simp only [if_true, skipTrailers_append_of_some hskip]

/-- The chunk line at a position has as many bytes as a line may have. -/
def FullLine (bytes : Bytes) (position : Nat) : Prop :=
  findCrlf bytes position = some (position + lineLimit)

/-- What a part comes to in a round of which the whole needs the first `needed` bytes. -/
def RoundStarved (whole part : Bytes) (position : Nat) (decoded : Bytes) (needed : Nat) : Prop :=
  part.length < needed ∧ (decodeRound part position decoded = .more ∨
    ((∃ error, decodeRound part position decoded = .failed error) ∧ FullLine whole position ∧
      part.length = position + lineLimit + 1))

theorem roundStarved_of_line (hpos : position ≤ part.length)
    (h : chunkLine (part ++ rest) position = .ok (some (start, size))) (decoded : Bytes) :
    chunkLine part position = .ok (some (start, size)) ∨
      RoundStarved (part ++ rest) part position decoded start := by
  rcases chunkLine_append hpos h with hpart | ⟨hpart, hshort⟩ | ⟨⟨error, hpart⟩, hlen, hfull⟩
  · exact .inl hpart
  · refine .inr ⟨hshort, .inl ?_⟩
    rw [decodeRound, hpart]
  · obtain ⟨lineEnd, hfind, rfl, -⟩ := chunkLine_eq_some h
    rw [hfull] at hfind
    cases hfind
    refine .inr ⟨by omega, .inr ⟨⟨error, ?_⟩, hfull, hlen⟩⟩
    rw [decodeRound, hpart]

theorem RoundStarved.mono {needed more : Nat}
    (h : RoundStarved whole part position decoded needed) (hle : needed ≤ more) :
    RoundStarved whole part position decoded more :=
  ⟨h.1.trans_le hle, h.2⟩

theorem decodeRound_append_again (hpos : position ≤ part.length)
    (h : decodeRound (part ++ rest) position decoded = .again following next) :
    decodeRound part position decoded = .again following next ∨
      RoundStarved (part ++ rest) part position decoded following := by
  obtain ⟨start, size, hline, hsize, rfl, hoverflow, -, hmark, hlimit, rfl⟩ := decodeRound_again h
  rcases roundStarved_of_line hpos hline decoded with hpart | hstarved
  · by_cases hlen : start + size + 2 ≤ part.length
    · left
      rw [slice_append_left rest (by omega)] at hmark ⊢
      exact decodeRound_of_again hpart hsize hoverflow hlen hmark hlimit
    · refine .inr ⟨by omega, .inl ?_⟩
      rw [decodeRound, hpart]
      simp only
      rw [if_neg hsize, if_neg (by omega), if_pos (by omega)]
  · exact .inr (hstarved.mono (by omega))

theorem decodeRound_append_finished (hpos : position ≤ part.length)
    (h : decodeRound (part ++ rest) position decoded = .finished result consumed) :
    (decodeRound part position decoded = .finished result consumed ∧ consumed ≤ part.length) ∨
      RoundStarved (part ++ rest) part position decoded consumed := by
  obtain ⟨start, hline, hskip, rfl⟩ := decodeRound_finished h
  rcases roundStarved_of_line hpos hline result with hpart | hstarved
  · have hround : ∀ outcome, skipTrailers part start = .ok outcome →
        decodeRound part position result = match outcome with
          | none => .more
          | some consumed => .finished result consumed := by
      intro outcome hskip
      rw [decodeRound, hpart]
      simp only [hskip]
      cases outcome <;> rfl
    rcases skipTrailers_append rfl (chunkLine_bounds hpart).2 hskip with ⟨hsome, hinside⟩ |
      ⟨hnone, hshort⟩
    · exact .inl ⟨hround _ hsome, hinside⟩
    · exact .inr ⟨hshort, .inl (hround _ hnone)⟩
  · exact .inr (hstarved.mono (skipTrailers_bounds hskip).1)

/-! ### The loop -/

theorem decodeFrom_more (h : decodeRound bytes position decoded = .more) :
    decodeFrom bytes position decoded = .ok none := by
  rw [decodeFrom, h]

theorem decodeFrom_failed {error : HttpError}
    (h : decodeRound bytes position decoded = .failed error) :
    decodeFrom bytes position decoded = .error error := by
  rw [decodeFrom, h]

theorem decodeFrom_again (h : decodeRound bytes position decoded = .again following next) :
    decodeFrom bytes position decoded = decodeFrom bytes following next := by
  rw [decodeFrom, h]

theorem decodeFrom_finished (h : decodeRound bytes position decoded = .finished result consumed) :
    decodeFrom bytes position decoded = .ok (some (result, consumed)) := by
  rw [decodeFrom, h]

theorem decodeFrom_bounds (h : decodeFrom bytes position decoded = .ok (some (body, consumed))) :
    position ≤ consumed ∧ consumed ≤ bytes.length := by
  fun_induction decodeFrom bytes position decoded with
  | case1 | case2 => cases h
  | case3 position decoded following next hround ih =>
    have hbounds := decodeRound_again_bounds hround
    have hlater := ih h
    omega
  | case4 position decoded result consumed hround =>
    cases h
    have hbounds := decodeRound_finished_bounds hround
    omega

theorem decodeFrom_split (h : decodeFrom bytes position decoded = .ok (some (body, consumed))) :
    ∃ before rest, bytes = before ++ 13 :: 10 :: rest ∧ before.length + 2 = consumed := by
  fun_induction decodeFrom bytes position decoded with
  | case1 | case2 => cases h
  | case3 position decoded following next hround ih => exact ih h
  | case4 position decoded result consumed hround =>
    cases h
    obtain ⟨start, -, hskip, -⟩ := decodeRound_finished hround
    exact skipTrailers_split hskip

theorem decodeFrom_append_of_some (h : decodeFrom part position decoded = .ok (some outcome))
    (rest : Bytes) : decodeFrom (part ++ rest) position decoded = .ok (some outcome) := by
  fun_induction decodeFrom part position decoded with
  | case1 | case2 => cases h
  | case3 position decoded following next hround ih =>
    rw [decodeFrom_again (decodeRound_append_of_again hround rest)]
    exact ih h
  | case4 position decoded result consumed hround =>
    cases h
    exact decodeFrom_finished (decodeRound_append_of_finished hround rest)

/-- The positions at which the loop of `decode_chunked_body` looks for a chunk line. -/
inductive Visits (bytes : Bytes) : Nat → Bytes → Prop where
  | start : Visits bytes 0 []
  | again {position following : Nat} {decoded next : Bytes} : Visits bytes position decoded →
      decodeRound bytes position decoded = .again following next → Visits bytes following next

/-- The first `length` bytes end between the two bytes after a chunk line of the limit. -/
def Trapped (bytes : Bytes) (length : Nat) : Prop :=
  ∃ position decoded, Visits bytes position decoded ∧ FullLine bytes position ∧
    length = position + lineLimit + 1

/-- What a part says about a body that the whole decodes: the same, or that bytes are missing,
or an error if the part is trapped. -/
theorem decodeFrom_append (hwhole : whole = part ++ rest) (hpos : position ≤ part.length)
    (hvisits : Visits whole position decoded)
    (h : decodeFrom whole position decoded = .ok (some (body, consumed))) :
    (decodeFrom part position decoded = .ok (some (body, consumed)) ∧ consumed ≤ part.length) ∨
    (part.length < consumed ∧ (decodeFrom part position decoded = .ok none ∨
      ((∃ error, decodeFrom part position decoded = .error error) ∧
        Trapped whole part.length))) := by
  fun_induction decodeFrom whole position decoded with
  | case1 | case2 => cases h
  | case3 position decoded following next hround ih =>
    have hbounds := decodeFrom_bounds h
    have hnext := hvisits.again hround
    subst hwhole
    rcases decodeRound_append_again hpos hround with hpart |
      ⟨hshort, hmore | ⟨⟨error, hfailed⟩, hfull, hlen⟩⟩
    · rw [decodeFrom_again hpart]
      exact ih (decodeRound_again_bounds hpart).2 hnext h
    · exact .inr ⟨by omega, .inl (decodeFrom_more hmore)⟩
    · exact .inr ⟨by omega, .inr ⟨⟨error, decodeFrom_failed hfailed⟩, position, decoded, hvisits,
        hfull, hlen⟩⟩
  | case4 position decoded result used hround =>
    cases h
    subst hwhole
    rcases decodeRound_append_finished hpos hround with ⟨hpart, hinside⟩ |
      ⟨hshort, hmore | ⟨⟨error, hfailed⟩, hfull, hlen⟩⟩
    · exact .inl ⟨decodeFrom_finished hpart, hinside⟩
    · exact .inr ⟨hshort, .inl (decodeFrom_more hmore)⟩
    · exact .inr ⟨hshort, .inr ⟨⟨error, decodeFrom_failed hfailed⟩, position, decoded, hvisits,
        hfull, hlen⟩⟩

theorem decodeChunkedBody_append_of_some (h : decodeChunkedBody part = .ok (some outcome))
    (rest : Bytes) : decodeChunkedBody (part ++ rest) = .ok (some outcome) :=
  decodeFrom_append_of_some h rest

theorem decodeChunkedBody_append
    (h : decodeChunkedBody (part ++ rest) = .ok (some (body, consumed))) :
    (decodeChunkedBody part = .ok (some (body, consumed)) ∧ consumed ≤ part.length) ∨
    (part.length < consumed ∧ (decodeChunkedBody part = .ok none ∨
      ((∃ error, decodeChunkedBody part = .error error) ∧ Trapped (part ++ rest) part.length))) :=
  decodeFrom_append rfl (Nat.zero_le _) .start h

theorem Visits.decode (h : Visits bytes position decoded) :
    decodeChunkedBody bytes = decodeFrom bytes position decoded := by
  induction h with
  | start => rfl
  | again _ hround ih => rw [ih, decodeFrom_again hround]

/-- A trap lies within the body. -/
theorem Trapped.length_lt {length : Nat} (h : Trapped bytes length)
    (hdec : decodeChunkedBody bytes = .ok (some (body, consumed))) : length < consumed := by
  obtain ⟨position, decoded, hvisits, hfull, rfl⟩ := h
  rw [hvisits.decode] at hdec
  have hstart : ∀ {start size}, chunkLine bytes position = .ok (some (start, size)) →
      start = position + lineLimit + 2 := by
    intro start size hline
    obtain ⟨lineEnd, hfind, rfl, -⟩ := chunkLine_eq_some hline
    rw [hfull] at hfind
    cases hfind
    rfl
  cases hround : decodeRound bytes position decoded with
  | more => rw [decodeFrom_more hround] at hdec; cases hdec
  | failed error => rw [decodeFrom_failed hround] at hdec; cases hdec
  | again following next =>
    obtain ⟨start, size, hline, -, rfl, -⟩ := decodeRound_again hround
    rw [decodeFrom_again hround] at hdec
    have hbounds := decodeFrom_bounds hdec
    have := hstart hline
    omega
  | finished result used =>
    obtain ⟨start, hline, hskip, -⟩ := decodeRound_finished hround
    rw [decodeFrom_finished hround] at hdec
    cases hdec
    have hbounds := skipTrailers_bounds hskip
    have := hstart hline
    omega

/-- A trapped part is refused. -/
theorem decodeChunkedBody_of_trapped (h : Trapped (part ++ rest) part.length) :
    ∃ error, decodeChunkedBody part = .error error := by
  obtain ⟨position, decoded, hvisits, hfull, hlen⟩ := h
  -- The loop reaches the line in the part as it does in the whole.
  have hreach : ∀ {position decoded}, Visits (part ++ rest) position decoded →
      position + lineLimit < part.length →
        decodeChunkedBody part = decodeFrom part position decoded := by
    intro position decoded hvisits hinside
    induction hvisits with
    | start => rfl
    | @again position following decoded next _ hround ih =>
      have hbounds := decodeRound_again_bounds hround
      rw [ih (by omega)]
      rcases decodeRound_append_again (by omega) hround with hpart | ⟨hshort, -⟩
      · exact decodeFrom_again hpart
      · omega
  have hnone : findCrlf part position = none := by
    rw [findCrlf_append (by omega) hfull, if_neg (by omega)]
  refine ⟨invalidData "HTTP chunk line exceeds 8192 bytes", ?_⟩
  rw [hreach hvisits (by omega)]
  refine decodeFrom_failed ?_
  rw [decodeRound, chunkLine, hnone]
  rw [if_pos (by omega)]

end

end Disp.Http
