import Disp.Http.Response

/-!
# Fragmentation

What a response is must not depend on the pieces in which it arrives.  `wholeResponse` reads a
stream as a whole.  Heads, sized bodies and bodies that end with the connection are read the
same from any pieces.  A chunked body is, unless a chunk line has exactly as many bytes as it
may have, or bytes that follow the body can push the last read over the wire limit.
-/

namespace Disp.Http

open Disp.Library.Codec Disp.Library.Fragments List Option

variable {parser : HeaderParser} {stream : Bytes} {head : Head} {length : Nat} {bytes : Bytes}
  {position : Nat} {left right : Bytes}

/-! ## The stream as a whole -/

/-- The final head of a stream and the number of bytes to its end. -/
def headOf (parser : HeaderParser) (stream : Bytes) : Option (Head × Nat) :=
  match _ : find headerMark stream with
  | none => none
  | some position =>
    if httpHeaderLimit < position + 4 then
      none
    else
      match parseHttpHeaders parser (stream.take (position + 4)) with
      | .error _ => none
      | .ok (head, consumed) =>
        if consumed ≠ position + 4 then
          none
        else if isInterim head.status then
          (headOf parser (stream.drop (position + 4))).map fun (head, length) =>
            (head, position + 4 + length)
        else
          some (head, position + 4)
termination_by stream.length
decreasing_by
  have hlength := find_length_le headerMark_ne_nil ‹_›
  rw [headerMark] at hlength
  simp only [List.length_cons, List.length_nil] at hlength
  rw [List.length_drop]
  omega

/-- The body that the bytes after the head make up. -/
def wholeBody (headRequest : Bool) (head : Head) (framing : Framing) (rest : Bytes) :
    Option Bytes :=
  if hasNoBody headRequest head.status then
    some []
  else
    match framing.contentLength with
    | some length =>
      if httpBodyLimit < length ∨ rest.length < length then none else some (rest.take length)
    | none =>
      if framing.chunked then
        match decodeChunkedBody rest with
        | .ok (some (body, consumed)) =>
          if consumed ≤ httpChunkedWireLimit then some body else none
        | _ => none
      else if httpBodyLimit < rest.length then
        none
      else
        some rest

def wholeResponse (parser : HeaderParser) (headRequest : Bool) (stream : Bytes) :
    Option (Nat × List (Text × Text) × Bytes) :=
  match headOf parser stream with
  | none => none
  | some (head, length) =>
    match bodyFraming head.headers with
    | .error _ => none
    | .ok framing =>
      (wholeBody headRequest head framing (stream.drop length)).map fun body =>
        (head.status, head.headers, body)

/-! ## Heads -/

/-- A head is read from pieces as it is from the whole, and not more is received for it than
the piece in which it ends. -/
def HeadAgrees (wire : Bytes) (pieces : List Bytes)
    (result : Except HttpError (Head × Nat × Bytes × List Bytes)) : Option (Head × Nat) → Prop
  | none => ∃ error, result = .error error
  | some (head, length) => ∃ bodyStart received,
      result = .ok (head, bodyStart, received, (fill length wire pieces).2) ∧
      bodyStart ≤ received.length ∧
      received.drop bodyStart = (fill length wire pieces).1.drop length

theorem headOf_of_find_none (h : find headerMark stream = none) : headOf parser stream = none := by
  rw [headOf, h]

theorem headOf_some (h : headOf parser stream = some (head, length)) :
    ∃ position, find headerMark stream = some position ∧ position + 4 ≤ length ∧
      position + 4 ≤ httpHeaderLimit := by
  rw [headOf] at h
  split at h
  · cases h
  · next position hfind =>
      split_ifs at h with hlimit
      split at h
      · cases h
      · split_ifs at h with hconsumed hinterim
        · obtain ⟨later, -, hlater⟩ := map_eq_some_iff.mp h
          cases hlater
          exact ⟨position, hfind, by omega, by omega⟩
        · cases h
          exact ⟨position, hfind, le_rfl, by omega⟩

theorem find_headerMark_le (h : find headerMark bytes = some position) :
    position + 4 ≤ bytes.length :=
  find_length_le headerMark_ne_nil h

/-- A block that was received is the first block of the stream. -/
theorem headOf_block (parser : HeaderParser) {wire : Bytes}
    (h : find headerMark wire = some position) (rest : Bytes) :
    headOf parser (wire ++ rest) =
      if httpHeaderLimit < position + 4 then
        none
      else
        match parseHttpHeaders parser (wire.take (position + 4)) with
        | .error _ => none
        | .ok (head, consumed) =>
          if consumed ≠ position + 4 then
            none
          else if isInterim head.status then
            (headOf parser (wire.drop (position + 4) ++ rest)).map fun (head, length) =>
              (head, position + 4 + length)
          else
            some (head, position + 4) := by
  have hlen := find_headerMark_le h
  rw [headOf, find_append_of_some headerMark_ne_nil h]
  simp only
  rw [take_append_of_le_length hlen, drop_append_of_le_length hlen]

theorem readHead_agrees (parser : HeaderParser) (wire : Bytes) (pieces : List Bytes) :
    HeadAgrees wire pieces (readHead parser wire pieces)
      (headOf parser (wire ++ pieces.flatten)) := by
  fun_induction readHead parser wire pieces with
  | case1 wire pieces position hfind headerEnd hlimit =>
    rw [headOf_block parser hfind, if_pos hlimit]
    exact ⟨_, rfl⟩
  | case2 wire pieces position hfind headerEnd hlimit error hparse =>
    rw [headOf_block parser hfind, if_neg hlimit, hparse]
    exact ⟨_, rfl⟩
  | case3 wire pieces position hfind headerEnd hlimit head consumed hparse hconsumed =>
    rw [headOf_block parser hfind, if_neg hlimit, hparse]
    simp only
    rw [if_pos hconsumed]
    exact ⟨_, rfl⟩
  | case4 wire pieces position hfind headerEnd hlimit head consumed hparse hconsumed hinterim ih =>
    rw [headOf_block parser hfind, if_neg hlimit, hparse]
    simp only
    rw [if_neg hconsumed, if_pos hinterim]
    cases hlater : headOf parser (wire.drop headerEnd ++ pieces.flatten) with
    | none =>
      rw [hlater] at ih
      exact ih
    | some later =>
      obtain ⟨last, length⟩ := later
      rw [hlater] at ih
      obtain ⟨bodyStart, received, hres, hstart, hdrop⟩ := ih
      have hfill := fill_drop length (find_headerMark_le hfind) pieces
      refine ⟨bodyStart, received, ?_, hstart, ?_⟩
      · rw [hres, hfill]
      · rw [hdrop, hfill, drop_drop]
  | case5 wire pieces position hfind headerEnd hlimit head consumed hparse hconsumed hinterim =>
    rw [headOf_block parser hfind, if_neg hlimit, hparse]
    simp only
    rw [if_neg hconsumed, if_neg hinterim]
    have hlen := find_headerMark_le hfind
    refine ⟨headerEnd, wire, ?_, hlen, ?_⟩
    all_goals rw [fill_of_le hlen]
  | case6 wire pieces hfind hlimit =>
    -- A head that ends beyond what was received is over the limit too.
    have hnone : headOf parser (wire ++ pieces.flatten) = none := by
      by_contra hsome
      obtain ⟨⟨head, length⟩, hhead⟩ := ne_none_iff_exists'.mp hsome
      obtain ⟨position, hpos, -, hinside⟩ := headOf_some hhead
      have hbeyond := find_append_of_none headerMark_ne_nil hfind hpos
      rw [headerMark] at hbeyond
      simp only [length_cons, length_nil] at hbeyond
      omega
    rw [hnone]
    exact ⟨_, rfl⟩
  | case7 wire hfind hlimit =>
    rw [flatten_nil, append_nil, headOf_of_find_none hfind]
    exact ⟨_, rfl⟩
  | case8 wire hfind hlimit piece pieces ih =>
    rw [append_assoc, ← flatten_cons] at ih
    cases hhead : headOf parser (wire ++ (piece :: pieces).flatten) with
    | none =>
      rw [hhead] at ih
      exact ih
    | some found =>
      obtain ⟨position, hpos, hlen, -⟩ := headOf_some hhead
      have hbeyond := find_append_of_none headerMark_ne_nil hfind hpos
      rw [headerMark] at hbeyond
      simp only [length_cons, length_nil] at hbeyond
      rw [hhead] at ih
      obtain ⟨bodyStart, received, hres, hstart, hdrop⟩ := ih
      rw [← fill_of_lt (by omega)] at hres hdrop
      exact ⟨bodyStart, received, hres, hstart, hdrop⟩

/-! ## Bodies -/

section

variable {bodyStart : Nat} {wire : Bytes}

section

variable (hstart : bodyStart ≤ wire.length) (pieces : List Bytes)

include hstart pieces

theorem readSized_eq :
    ((readSized bodyStart length wire pieces).toOption.map (slice · bodyStart length)) =
      if (wire.drop bodyStart ++ pieces.flatten).length < length then none
      else some ((wire.drop bodyStart ++ pieces.flatten).take length) := by
  have hdrop : (wire.drop bodyStart).length = wire.length - bodyStart := length_drop
  induction pieces generalizing wire with
  | nil =>
    rw [readSized, flatten_nil, append_nil, hdrop]
    by_cases hshort : wire.length - bodyStart < length
    · rw [if_pos hshort, if_pos hshort]
      rfl
    · rw [if_neg hshort, if_neg hshort]
      rfl
  | cons piece pieces ih =>
    rw [readSized]
    by_cases hshort : wire.length - bodyStart < length
    · rw [if_pos hshort, ih (by rw [length_append]; omega) length_drop,
        drop_append_of_le_length hstart, append_assoc, ← flatten_cons]
    · rw [if_neg hshort, if_neg (by rw [length_append, hdrop]; omega),
        take_append_of_le_length (by omega)]
      rfl

theorem readToEnd_eq :
    (readToEnd bodyStart wire pieces).toOption =
      if httpBodyLimit < (wire.drop bodyStart ++ pieces.flatten).length then none
      else some (wire.drop bodyStart ++ pieces.flatten) := by
  have hdrop : (wire.drop bodyStart).length = wire.length - bodyStart := length_drop
  induction pieces generalizing wire with
  | nil =>
    rw [readToEnd, flatten_nil, append_nil, hdrop]
    by_cases hlong : httpBodyLimit < wire.length - bodyStart
    · rw [if_pos hlong, if_pos hlong]
      rfl
    · rw [if_neg hlong, if_neg hlong]
      rfl
  | cons piece pieces ih =>
    rw [readToEnd]
    by_cases hlong : httpBodyLimit < wire.length - bodyStart
    · rw [if_pos hlong, if_pos (by rw [length_append, hdrop]; omega)]
      rfl
    · rw [if_neg hlong, ih (by rw [length_append]; omega) length_drop,
        drop_append_of_le_length hstart, append_assoc, ← flatten_cons]

theorem readChunked_drop :
    readChunked bodyStart wire pieces = readChunked 0 (wire.drop bodyStart) pieces := by
  induction pieces generalizing wire with
  | nil => rw [readChunked, readChunked, drop_zero]
  | cons piece pieces ih =>
    rw [readChunked, readChunked, drop_zero]
    rw [ih (by rw [length_append]; omega), drop_append_of_le_length hstart]

end

end

/-! ## Chunked bodies -/

section

variable {encoded body : Bytes} {consumed : Nat} {pieces : List Bytes}

/-- A body that is returned is the one that all bytes decode to, and within the limit. -/
theorem readChunked_sound {atEnd : Bool} (h : readChunked 0 encoded pieces = .ok (body, atEnd)) :
    ∃ consumed, decodeChunkedBody (encoded ++ pieces.flatten) = .ok (some (body, consumed)) ∧
      consumed ≤ httpChunkedWireLimit := by
  induction pieces generalizing encoded with
  | nil =>
    rw [readChunked] at h
    split_ifs at h with hlimit
    split at h
    · cases h
    · next result used hdec =>
        cases h
        have hbounds := decodeFrom_bounds hdec
        exact ⟨used, decodeChunkedBody_append_of_some hdec _, by omega⟩
    · cases h
  | cons piece pieces ih =>
    rw [readChunked] at h
    split_ifs at h with hlimit
    split at h
    · cases h
    · next result used hdec =>
        cases h
        have hbounds := decodeFrom_bounds hdec
        exact ⟨used, decodeChunkedBody_append_of_some hdec _, by omega⟩
    · obtain ⟨used, hdec, hinside⟩ := ih h
      rw [append_assoc] at hdec
      exact ⟨used, hdec, hinside⟩

/-- Some chunk line has as many bytes as it may have. -/
def HasFullLine (bytes : Bytes) : Prop :=
  ∃ position decoded, Visits bytes position decoded ∧ FullLine bytes position

theorem Trapped.hasFullLine (h : Trapped bytes length) : HasFullLine bytes := by
  obtain ⟨position, decoded, hvisits, hfull, -⟩ := h
  exact ⟨position, decoded, hvisits, hfull⟩

/-- A read ends in a trap. -/
def TrappedRead (whole encoded : Bytes) (pieces : List Bytes) : Prop :=
  ∃ first second, pieces = first ++ second ∧ Trapped whole (encoded ++ first.flatten).length

theorem trappedRead_cons {whole piece : Bytes} {pieces : List Bytes} :
    TrappedRead whole encoded (piece :: pieces) ↔
      Trapped whole encoded.length ∨ TrappedRead whole (encoded ++ piece) pieces := by
  constructor
  · rintro ⟨first, second, hsplit, htrapped⟩
    rcases cons_eq_append_iff.mp hsplit with ⟨rfl, -⟩ | ⟨first, rfl, rfl⟩
    · exact .inl (by simpa using htrapped)
    · exact .inr ⟨first, second, rfl, by simpa using htrapped⟩
  · rintro (htrapped | ⟨first, second, rfl, htrapped⟩)
    · exact ⟨[], _, rfl, by simpa using htrapped⟩
    · exact ⟨piece :: first, second, rfl, by simpa using htrapped⟩

/-- A body that all bytes decode to is refused exactly if a read ends in a trap or the read in
which the body ends goes over the limit. -/
theorem readChunked_error_iff {pieces : List Bytes}
    (h : decodeChunkedBody (encoded ++ pieces.flatten) = .ok (some (body, consumed))) :
    (∃ error, readChunked 0 encoded pieces = .error error) ↔
      TrappedRead (encoded ++ pieces.flatten) encoded pieces ∨
        httpChunkedWireLimit < (fill consumed encoded pieces).1.length := by
  -- Once the body is complete, only its length can be wrong.
  have hdone : ∀ {encoded : Bytes} {pieces : List Bytes},
      decodeChunkedBody (encoded ++ pieces.flatten) = .ok (some (body, consumed)) →
      consumed ≤ encoded.length → ¬httpChunkedWireLimit < encoded.length →
      ¬(TrappedRead (encoded ++ pieces.flatten) encoded pieces ∨
        httpChunkedWireLimit < (fill consumed encoded pieces).1.length) := by
    intro encoded pieces h hle hinside
    rw [fill_of_le hle]
    rintro (⟨first, second, -, htrapped⟩ | hover)
    · have hlen := htrapped.length_lt h
      rw [length_append] at hlen
      omega
    · exact hinside hover
  induction pieces generalizing encoded with
  | nil =>
    have hpart : decodeChunkedBody encoded = .ok (some (body, consumed)) := by simpa using h
    have hle := (decodeFrom_bounds hpart).2
    rw [readChunked, drop_zero, hpart]
    split_ifs with hover
    · exact iff_of_true ⟨_, rfl⟩ (.inr (by rwa [fill_of_le hle]))
    · exact iff_of_false nofun (hdone h hle hover)
  | cons piece pieces ih =>
    rw [readChunked, drop_zero]
    split_ifs with hover
    · exact iff_of_true ⟨_, rfl⟩ (.inr (hover.trans_le (length_le_fill _ _ _)))
    rcases decodeChunkedBody_append h with ⟨hpart, hle⟩ | ⟨hshort, hnone | ⟨⟨_, herror⟩, htrap⟩⟩
    · rw [hpart]
      exact iff_of_false nofun (hdone h hle hover)
    · have hfree : ¬Trapped (encoded ++ (piece :: pieces).flatten) encoded.length := by
        intro htrapped
        obtain ⟨error, herror⟩ := decodeChunkedBody_of_trapped htrapped
        rw [hnone] at herror
        cases herror
      rw [hnone, fill_of_lt hshort, trappedRead_cons, or_iff_right hfree]
      rw [flatten_cons, ← append_assoc] at h ⊢
      exact ih h
    · rw [herror]
      exact iff_of_true ⟨_, rfl⟩ (.inl (trappedRead_cons.mpr (.inl htrap)))

end

/-! ## Cuts of a stream -/

/-- A way in which the bytes of a stream can be read. -/
structure Cut (stream : Bytes) (pieces : List Bytes) : Prop where
  flatten_eq : pieces.flatten = stream
  ne_nil : ∀ piece ∈ pieces, piece ≠ []
  length_le : ∀ piece ∈ pieces, piece.length ≤ readLimit

theorem Cut.append {first second : Bytes} {left right : List Bytes} (hleft : Cut first left)
    (hright : Cut second right) : Cut (first ++ second) (left ++ right) where
  flatten_eq := by rw [flatten_append, hleft.flatten_eq, hright.flatten_eq]
  ne_nil := fun piece hpiece => (mem_append.mp hpiece).elim (hleft.ne_nil piece)
    (hright.ne_nil piece)
  length_le := fun piece hpiece => (mem_append.mp hpiece).elim (hleft.length_le piece)
    (hright.length_le piece)

def singly (bytes : Bytes) : List Bytes := bytes.map ([·])

theorem cut_singly (bytes : Bytes) : Cut bytes (singly bytes) where
  flatten_eq := by
    induction bytes with
    | nil => rfl
    | cons byte bytes ih => rw [singly, map_cons, flatten_cons, ← singly, ih]; rfl
  ne_nil := fun piece hpiece => by
    obtain ⟨byte, -, rfl⟩ := List.mem_map.mp hpiece
    exact cons_ne_nil _ _
  length_le := fun piece hpiece => by
    obtain ⟨byte, -, rfl⟩ := List.mem_map.mp hpiece
    exact (by decide : 1 ≤ readLimit)

/-- One byte at a time, but line breaks as one piece. -/
def byBreaks : Bytes → List Bytes
  | [] => []
  | [byte] => [[byte]]
  | first :: second :: bytes =>
    if first = 13 ∧ second = 10 then [first, second] :: byBreaks bytes
    else [first] :: byBreaks (second :: bytes)

theorem cut_byBreaks (bytes : Bytes) : Cut bytes (byBreaks bytes) := by
  fun_induction byBreaks bytes with
  | case1 => exact ⟨rfl, by simp, by simp⟩
  | case2 byte => exact cut_singly [byte]
  | case3 first second bytes hbreak ih =>
    have hpair : Cut [first, second] [[first, second]] := ⟨rfl, by simp, by simp [readLimit]⟩
    exact hpair.append ih
  | case4 first second bytes hbreak ih =>
    have hfirst : Cut [first] [[first]] := ⟨rfl, by simp, by simp [readLimit]⟩
    exact hfirst.append ih

/-- A line break lies across the seam. -/
def BrokenAt (left right : Bytes) : Prop := left.getLast? = some 13 ∧ right.head? = some 10

theorem byBreaks_append (h : ¬BrokenAt left right) :
    byBreaks (left ++ right) = byBreaks left ++ byBreaks right := by
  fun_induction byBreaks left with
  | case1 => rfl
  | case2 byte =>
    cases right with
    | nil => rfl
    | cons second bytes =>
      rw [singleton_append, byBreaks, if_neg]
      · rfl
      · rintro ⟨rfl, rfl⟩
        exact h ⟨rfl, rfl⟩
  | case3 first second bytes hbreak ih =>
    rw [cons_append, cons_append, byBreaks, if_pos hbreak, ih, cons_append]
    rintro ⟨hleft, hright⟩
    refine h ⟨?_, hright⟩
    cases bytes with
    | nil => cases hleft
    | cons byte bytes => simpa [List.getLast?_cons_cons] using hleft
  | case4 first second bytes hbreak ih =>
    rw [cons_append, cons_append, byBreaks, if_neg hbreak, ← cons_append, ih, cons_append]
    rintro ⟨hleft, hright⟩
    exact h ⟨by rwa [List.getLast?_cons_cons], hright⟩

/-- No piece ends within a line break. -/
theorem not_brokenAt_byBreaks {first second : List Bytes} (h : byBreaks bytes = first ++ second) :
    ¬BrokenAt first.flatten second.flatten := by
  have hempty : ∀ {left right : Bytes}, left = [] → ¬BrokenAt left right := by
    rintro _ right rfl ⟨hleft, -⟩
    cases hleft
  -- The last byte of a piece, or of the pieces after it.
  have hlast : ∀ {piece rest : Bytes}, rest ≠ [] → (piece ++ rest).getLast? = rest.getLast? :=
    fun hrest => List.getLast?_append_of_ne_nil _ hrest
  fun_induction byBreaks bytes generalizing first with
  | case1 =>
    rw [(append_eq_nil_iff.mp h.symm).1]
    exact hempty rfl
  | case2 byte =>
    cases first with
    | nil => exact hempty rfl
    | cons piece first =>
      rw [cons_append, List.cons.injEq] at h
      rw [(append_eq_nil_iff.mp h.2.symm).2]
      rintro ⟨-, hright⟩
      cases hright
  | case3 one two bytes hbreak ih =>
    cases first with
    | nil => exact hempty rfl
    | cons piece first =>
      rw [cons_append, List.cons.injEq] at h
      obtain ⟨rfl, hrest⟩ := h
      rintro ⟨hleft, hright⟩
      by_cases hnil : first.flatten = []
      · rw [flatten_cons, hnil, hbreak.2] at hleft
        simp at hleft
      · rw [flatten_cons, hlast hnil] at hleft
        exact ih hrest ⟨hleft, hright⟩
  | case4 one two bytes hbreak ih =>
    cases first with
    | nil => exact hempty rfl
    | cons piece first =>
      rw [cons_append, List.cons.injEq] at h
      obtain ⟨rfl, hrest⟩ := h
      rintro ⟨hleft, hright⟩
      by_cases hnil : first.flatten = []
      · have hflatten := (cut_byBreaks (two :: bytes)).flatten_eq
        rw [hrest, flatten_append, hnil, nil_append] at hflatten
        rw [flatten_cons, hnil] at hleft
        rw [hflatten] at hright
        simp only [append_nil, List.getLast?_singleton, Option.some.injEq] at hleft
        simp only [List.head?_cons, Option.some.injEq] at hright
        exact hbreak ⟨hleft, hright⟩
      · rw [flatten_cons, hlast hnil] at hleft
        exact ih hrest ⟨hleft, hright⟩

theorem not_brokenAt_of_getLast (h : left.getLast? = some 10) : ¬BrokenAt left right := by
  rintro ⟨hleft, -⟩
  rw [h] at hleft
  exact absurd (Option.some.inj hleft) (by decide)

theorem Trapped.brokenAt {part rest : Bytes} (h : Trapped (part ++ rest) part.length) :
    BrokenAt part rest := by
  obtain ⟨position, decoded, -, hfull, hlen⟩ := h
  obtain ⟨before, after, hsplit, hbefore⟩ := findCrlf_split hfull
  rw [append_cons] at hsplit
  obtain ⟨rfl, rfl⟩ := append_inj hsplit (by rw [length_append, hbefore]; exact hlen)
  exact ⟨by simp, rfl⟩

/-! ## Responses -/

def response (parser : HeaderParser) (headRequest : Bool) (pieces : List Bytes) :
    Option (Nat × List (Text × Text) × Bytes) :=
  (readHttpResponse parser headRequest pieces).toOption.map fun response =>
    (response.status, response.headers, response.body)

def isChunked (headRequest : Bool) (head : Head) (framing : Framing) : Bool :=
  !hasNoBody headRequest head.status && framing.contentLength.isNone && framing.chunked

/-- The bytes after the head of a response with a chunked body. -/
def chunkedRest (parser : HeaderParser) (headRequest : Bool) (stream : Bytes) : Option Bytes :=
  match headOf parser stream with
  | none => none
  | some (head, length) =>
    match bodyFraming head.headers with
    | .error _ => none
    | .ok framing =>
      if isChunked headRequest head framing then some (stream.drop length) else none

/-- A head ends with a line break. -/
theorem headOf_split (h : headOf parser stream = some (head, length)) :
    ∃ before rest, stream = before ++ rest ∧ before.length = length ∧
      before.getLast? = some 10 := by
  fun_induction headOf parser stream generalizing length with
  | case1 | case2 | case3 | case4 => cases h
  | case5 stream position hfind _ _ _ _ _ _ ih =>
    obtain ⟨⟨last, later⟩, hlater, heq⟩ := map_eq_some_iff.mp h
    cases heq
    obtain ⟨before, rest, hsplit, hlen, hlast⟩ := ih hlater
    have hnonempty : before ≠ [] := by
      rintro rfl
      cases hlast
    refine ⟨stream.take (position + 4) ++ before, rest, ?_, ?_, ?_⟩
    · rw [append_assoc, ← hsplit, take_append_drop]
    · rw [length_append, hlen, length_take_of_le (find_headerMark_le hfind)]
    · rw [List.getLast?_append_of_ne_nil _ hnonempty, hlast]
  | case6 stream position hfind _ _ _ _ _ _ =>
    cases h
    obtain ⟨rest, hsplit, hlen⟩ := find_split headerMark_ne_nil hfind
    refine ⟨stream.take position ++ headerMark, rest, ?_, ?_, ?_⟩
    · rw [append_assoc, ← hsplit]
    · rw [length_append, hlen]
      rfl
    · rw [List.getLast?_append_of_ne_nil _ headerMark_ne_nil]
      rfl

theorem readBody_eq {headRequest : Bool} {head : Head} {framing : Framing} {bodyStart : Nat}
    {wire : Bytes} (hstart : bodyStart ≤ wire.length) (pieces : List Bytes) :
    ((readBody headRequest head framing bodyStart wire pieces).toOption.map (·.1)) =
      if isChunked headRequest head framing then
        (readChunked 0 (wire.drop bodyStart) pieces).toOption.map (·.1)
      else
        wholeBody headRequest head framing (wire.drop bodyStart ++ pieces.flatten) := by
  have hfirst : ∀ {β : Type} (result : Except HttpError β) (f : β → Bytes) (g : β → Bool),
      (result.map fun value => (f value, g value)).toOption.map (·.1) = result.toOption.map f := by
    intro β result f g
    cases result <;> rfl
  rw [readBody, wholeBody, isChunked]
  by_cases hnone : hasNoBody headRequest head.status = true
  · rw [hnone]
    rfl
  · rw [Bool.not_eq_true] at hnone
    rw [hnone]
    cases hlen : framing.contentLength with
    | some length =>
      by_cases hlimit : httpBodyLimit < length
      · simp [hlimit, Except.toOption]
      · simp only [hlimit, Bool.false_eq_true, if_false, false_or, isNone_some,
          Bool.and_false, Bool.false_and]
        exact (hfirst _ _ _).trans (readSized_eq hstart pieces)
    | none =>
      cases hchunked : framing.chunked with
      | true =>
        rw [← readChunked_drop hstart]
        exact hfirst _ _ _
      | false =>
        refine (hfirst _ _ _).trans ?_
        rw [Option.map_id']
        exact readToEnd_eq hstart pieces

theorem fill_rest {pieces : List Bytes} (h : length ≤ pieces.flatten.length) :
    (fill length [] pieces).1.drop length ++ (fill length [] pieces).2.flatten =
      pieces.flatten.drop length := by
  have hfill := fill_flatten length [] pieces
  rw [nil_append] at hfill
  rw [← hfill, drop_append_of_le_length (le_length_fill (by rwa [nil_append]))]

theorem response_eq (parser : HeaderParser) (headRequest : Bool) (pieces : List Bytes) :
    response parser headRequest pieces =
      match headOf parser pieces.flatten with
      | none => none
      | some (head, length) =>
        match bodyFraming head.headers with
        | .error _ => none
        | .ok framing =>
          (if isChunked headRequest head framing then
            (readChunked 0 ((fill length [] pieces).1.drop length)
              (fill length [] pieces).2).toOption.map (·.1)
          else
            wholeBody headRequest head framing (pieces.flatten.drop length)).map fun body =>
              (head.status, head.headers, body) := by
  have hhead := readHead_agrees parser [] pieces
  rw [nil_append] at hhead
  rw [response, readHttpResponse]
  cases hstream : headOf parser pieces.flatten with
  | none =>
    rw [hstream] at hhead
    obtain ⟨error, herror⟩ := hhead
    rw [herror]
    rfl
  | some found =>
    obtain ⟨head, length⟩ := found
    rw [hstream] at hhead
    obtain ⟨bodyStart, received, hres, hstart, hdrop⟩ := hhead
    rw [hres]
    cases hframe : bodyFraming head.headers with
    | error error =>
      simp only [Except.toOption, hframe, bind, Except.bind, map_none]
    | ok framing =>
      obtain ⟨before, rest, hsplit, hlen, -⟩ := headOf_split hstream
      have hbody := @readBody_eq headRequest head framing bodyStart received hstart
        (fill length [] pieces).2
      rw [hdrop, fill_rest (by rw [hsplit, length_append]; omega)] at hbody
      simp only [hframe, bind, Except.bind]
      rw [← hbody]
      cases readBody headRequest head framing bodyStart received (fill length [] pieces).2 with
      | error error => rfl
      | ok result => rfl

/-! ## When fragmentation does not matter -/

/-- No chunk line of a complete body has as many bytes as it may have, and what follows the
body cannot be read together with its end to more than the wire limit. -/
def SteadyChunks (encoded : Bytes) : Prop :=
  ∀ body consumed, decodeChunkedBody encoded = .ok (some (body, consumed)) →
    consumed ≤ httpChunkedWireLimit →
      ¬HasFullLine encoded ∧ (encoded.length ≤ httpChunkedWireLimit ∨
        consumed + readLimit < httpChunkedWireLimit + 2)

def Steady (parser : HeaderParser) (headRequest : Bool) (stream : Bytes) : Prop :=
  ∀ encoded, chunkedRest parser headRequest stream = some encoded → SteadyChunks encoded

section

variable {parser : HeaderParser} {headRequest : Bool} {stream encoded : Bytes} {pieces : List Bytes}
  {body : Bytes} {consumed : Nat}

theorem chunkedRest_eq_some (h : chunkedRest parser headRequest stream = some encoded) :
    ∃ head before framing, stream = before ++ encoded ∧ before.getLast? = some 10 ∧
      headOf parser stream = some (head, before.length) ∧
      bodyFraming head.headers = .ok framing ∧ isChunked headRequest head framing = true := by
  rw [chunkedRest] at h
  split at h
  · cases h
  · next head length hhead =>
      split at h
      · cases h
      · next framing hframe =>
          split_ifs at h with hchunked
          cases h
          obtain ⟨before, rest, hsplit, hlen, hlast⟩ := headOf_split hhead
          have hdrop : stream.drop length = rest := by rw [hsplit, ← hlen, drop_left]
          rw [hdrop]
          exact ⟨head, before, framing, hsplit, hlast, hlen ▸ hhead, hframe, hchunked⟩

theorem response_of_not_chunked (h : chunkedRest parser headRequest stream = none)
    (hpieces : pieces.flatten = stream) :
    response parser headRequest pieces = wholeResponse parser headRequest stream := by
  subst hpieces
  rw [response_eq, wholeResponse]
  rw [chunkedRest] at h
  cases hhead : headOf parser pieces.flatten with
  | none => rfl
  | some found =>
    obtain ⟨head, length⟩ := found
    rw [hhead] at h
    simp only at h ⊢
    cases hframe : bodyFraming head.headers with
    | error error => rfl
    | ok framing =>
      rw [hframe] at h
      simp only at h ⊢
      split_ifs at h with hchunked
      rw [if_neg hchunked]

theorem length_leftover (hcut : Cut stream pieces) (length : Nat) :
    ((fill length [] pieces).1.drop length).length < readLimit := by
  have hpos : 0 < readLimit := by decide
  have hfill := @length_fill_lt _ length readLimit [] pieces hcut.length_le
    (Nat.lt_add_left length hpos)
  rw [length_drop]
  omega

theorem wholeBody_of_chunked {framing : Framing} (h : isChunked headRequest head framing = true)
    (rest : Bytes) :
    wholeBody headRequest head framing rest =
      match decodeChunkedBody rest with
      | .ok (some (body, consumed)) =>
        if consumed ≤ httpChunkedWireLimit then some body else none
      | _ => none := by
  simp only [isChunked, Bool.and_eq_true, Bool.not_eq_true', isNone_iff_eq_none] at h
  rw [wholeBody, h.1.1, h.1.2, h.2]
  rfl

theorem response_of_steady (hsteady : Steady parser headRequest stream) (hcut : Cut stream pieces) :
    response parser headRequest pieces = wholeResponse parser headRequest stream := by
  cases hrest : chunkedRest parser headRequest stream with
  | none => exact response_of_not_chunked hrest hcut.flatten_eq
  | some encoded =>
    obtain ⟨head, before, framing, hsplit, -, hhead, hframe, hchunked⟩ :=
      chunkedRest_eq_some hrest
    have hdrop : stream.drop before.length = encoded := by rw [hsplit, drop_left]
    rw [response_eq, wholeResponse, hcut.flatten_eq, hhead]
    simp only [hframe, hchunked, if_true, hdrop, wholeBody_of_chunked hchunked]
    -- The bytes after the head, as they are received.
    set leftover := (fill before.length [] pieces).1.drop before.length with hleftover
    set later := (fill before.length [] pieces).2 with hlater
    have hencoded : leftover ++ later.flatten = encoded := by
      have hle : before.length ≤ pieces.flatten.length := by
        rw [hcut.flatten_eq, hsplit, length_append]
        omega
      rw [fill_rest hle, hcut.flatten_eq, hdrop]
    have hshort : leftover.length < readLimit := length_leftover hcut before.length
    have hlen : ∀ piece ∈ later, piece.length ≤ readLimit := fun piece hpiece =>
      hcut.length_le piece (mem_of_mem_fill hpiece)
    cases hread : readChunked 0 leftover later with
    | ok result =>
      obtain ⟨consumed, hdec, hinside⟩ := readChunked_sound hread
      rw [hencoded] at hdec
      rw [hdec]
      simp [hinside, Except.toOption]
    | error error =>
      split
      · next body consumed hdec =>
          split_ifs with hinside
          · -- The conditions keep every read out of a trap and within the limit.
            obtain ⟨hfull, hover⟩ := hsteady encoded hrest body consumed hdec hinside
            have hfill := length_fill_lt hlen (show leftover.length < consumed + readLimit by
              omega)
            have hwhole := congrArg List.length (fill_flatten consumed leftover later)
            rw [hencoded, length_append] at hwhole
            rw [← hencoded] at hdec
            rcases (readChunked_error_iff hdec).mp ⟨error, hread⟩ with ⟨_, _, _, htrapped⟩ | hlong
            · exact absurd (hencoded ▸ htrapped.hasFullLine) hfull
            · omega
          · rfl
      · rfl

theorem response_of_cut {head : Head} {framing : Framing} {before : Bytes}
    {first second : List Bytes}
    (hhead : headOf parser (before ++ encoded) = some (head, before.length))
    (hframe : bodyFraming head.headers = .ok framing)
    (hchunked : isChunked headRequest head framing = true)
    (hfirst : Cut before first) (hsecond : Cut encoded second) :
    response parser headRequest (first ++ second) =
      (readChunked 0 [] second).toOption.map fun result =>
        (head.status, head.headers, result.1) := by
  have hfill : fill before.length [] (first ++ second) = (before, second) := by
    have hlen : ([] : Bytes).length + first.flatten.length = before.length := by
      rw [hfirst.flatten_eq, length_nil, Nat.zero_add]
    rw [fill_cut hfirst.ne_nil hlen, hfirst.flatten_eq, nil_append]
  rw [response_eq, flatten_append, hfirst.flatten_eq, hsecond.flatten_eq, hhead]
  simp only [hframe, hchunked, if_true, hfill, drop_length, Option.map_map]
  rfl

theorem readChunked_byBreaks (h : decodeChunkedBody encoded = .ok (some (body, consumed)))
    (hlimit : consumed ≤ httpChunkedWireLimit) :
    ∃ atEnd, readChunked 0 [] (byBreaks encoded) = .ok (body, atEnd) := by
  have hflatten := (cut_byBreaks encoded).flatten_eq
  obtain ⟨before, rest, hsplit, hlen⟩ := decodeFrom_split h
  have hpieces : byBreaks encoded = byBreaks (before ++ [13, 10]) ++ byBreaks rest := by
    rw [← byBreaks_append (not_brokenAt_of_getLast (by simp)), append_assoc, hsplit]
    rfl
  have hdec : decodeChunkedBody ([] ++ (byBreaks encoded).flatten) =
      .ok (some (body, consumed)) := by rwa [nil_append, hflatten]
  cases hread : readChunked 0 [] (byBreaks encoded) with
  | ok result =>
    obtain ⟨used, hsame, -⟩ := readChunked_sound hread
    rw [hdec] at hsame
    cases hsame
    exact ⟨result.2, rfl⟩
  | error error =>
    rcases (readChunked_error_iff hdec).mp ⟨error, hread⟩ with ⟨first, second, hsplit, htrapped⟩ |
      hlong
    · refine absurd (Trapped.brokenAt ?_) (not_brokenAt_byBreaks hsplit)
      rwa [nil_append, nil_append, hsplit, flatten_append] at htrapped
    · have hcut := cut_byBreaks (before ++ [13, 10])
      rw [hpieces, fill_cut hcut.ne_nil (by
        rw [hcut.flatten_eq, length_append, length_nil, Nat.zero_add]
        exact hlen), hcut.flatten_eq, nil_append, length_append] at hlong
      simp only [length_cons, length_nil] at hlong
      omega

theorem readChunked_singly (h : decodeChunkedBody encoded = .ok (some (body, consumed)))
    (hfull : HasFullLine encoded) : ∃ error, readChunked 0 [] (singly encoded) = .error error := by
  obtain ⟨position, decoded, hvisits, hline⟩ := hfull
  have hbounds := findCrlf_bounds hline
  set first := encoded.take (position + lineLimit + 1) with hfirst
  set second := encoded.drop (position + lineLimit + 1) with hsecond
  have hsplit : first ++ second = encoded := take_append_drop _ _
  have hlen : first.length = position + lineLimit + 1 := length_take_of_le (by omega)
  have hpieces : singly encoded = singly first ++ singly second := by
    rw [← hsplit, singly, map_append]
    rfl
  have hflatten : ([] : Bytes) ++ (singly first ++ singly second).flatten = encoded := by
    rw [← hpieces, (cut_singly encoded).flatten_eq, nil_append]
  rw [hpieces]
  refine (@readChunked_error_iff [] body consumed _ (by rwa [hflatten])).mpr
    (.inl ⟨singly first, singly second, rfl, ?_⟩)
  rw [hflatten, (cut_singly first).flatten_eq]
  exact ⟨position, decoded, hvisits, hline, hlen⟩

/-- A cut of bytes in which the read after the first `count` bytes is as long as it can be. -/
def longReadAfter (count : Nat) (bytes : Bytes) : List Bytes :=
  singly (bytes.take count) ++ ((bytes.drop count).take readLimit ::
    singly (bytes.drop (count + readLimit)))

theorem cut_longReadAfter {count : Nat} (h : count < bytes.length) :
    Cut bytes (longReadAfter count bytes) := by
  have hread : Cut ((bytes.drop count).take readLimit) [(bytes.drop count).take readLimit] := by
    refine ⟨by simp, fun piece hpiece => ?_, fun piece hpiece => ?_⟩
    · rw [mem_singleton.mp hpiece, ← length_pos_iff, length_take, length_drop]
      exact Nat.lt_min.mpr ⟨by decide, by omega⟩
    · rw [mem_singleton.mp hpiece, length_take]
      exact Nat.min_le_left _ _
  have hcut := (cut_singly (bytes.take count)).append
    (hread.append (cut_singly (bytes.drop (count + readLimit))))
  rw [← drop_drop, take_append_drop, take_append_drop] at hcut
  rwa [longReadAfter, ← drop_drop]

/-- If bytes beyond the wire limit can be read together with the end of the body, they can make
it refused. -/
theorem readChunked_longRead (h : decodeChunkedBody encoded = .ok (some (body, consumed)))
    (hlong : httpChunkedWireLimit < encoded.length)
    (hnear : httpChunkedWireLimit + 2 ≤ consumed + readLimit) :
    ∃ error, readChunked 0 [] (longReadAfter (consumed - 1) encoded) = .error error := by
  obtain ⟨start, -, -, hconsumed⟩ := decodeFrom_split h
  have hbounds := decodeFrom_bounds h
  have hcut := cut_longReadAfter (show consumed - 1 < encoded.length by omega)
  refine (@readChunked_error_iff [] body consumed _
    (by rwa [nil_append, hcut.flatten_eq])).mpr (.inr ?_)
  set first := encoded.take (consumed - 1) with hfirst
  set piece := (encoded.drop (consumed - 1)).take readLimit with hpiece
  have hfirstLength : first.length = consumed - 1 := length_take_of_le (by omega)
  have hpieceLength : piece.length = min readLimit (encoded.length - (consumed - 1)) := by
    rw [length_take, length_drop]
  have hfill : fill (consumed - 1) [] (longReadAfter (consumed - 1) encoded) =
      (first, piece :: singly (encoded.drop (consumed - 1 + readLimit))) := by
    rw [longReadAfter, fill_cut (cut_singly first).ne_nil (by
      rw [(cut_singly first).flatten_eq, hfirstLength, length_nil, Nat.zero_add]),
      (cut_singly first).flatten_eq, nil_append]
  have hlater := fill_fill (show consumed - 1 ≤ consumed by omega) []
    (longReadAfter (consumed - 1) encoded)
  rw [hfill] at hlater
  simp only at hlater
  rw [← hlater, fill_of_lt (by omega)]
  refine Nat.lt_of_lt_of_le ?_ (length_le_fill _ _ _)
  rw [length_append]
  omega

/-- Any two cuts of a stream give the same status, headers and body, or an error both, exactly
if the stream is steady. -/
theorem fragmentation_irrelevant_iff (parser : HeaderParser) (headRequest : Bool) (stream : Bytes) :
    (∀ first second, Cut stream first → Cut stream second →
      response parser headRequest first = response parser headRequest second) ↔
      Steady parser headRequest stream := by
  constructor
  · intro hsame encoded hrest body consumed hdec hinside
    obtain ⟨head, before, framing, rfl, -, hhead, hframe, hchunked⟩ := chunkedRest_eq_some hrest
    have hread := fun {second} hsecond =>
      @response_of_cut parser headRequest encoded head framing before (singly before) second hhead
        hframe hchunked (cut_singly before) hsecond
    -- One cut returns the body, so every cut does.
    obtain ⟨atEnd, hbreaks⟩ := readChunked_byBreaks hdec hinside
    have hret : ∀ {second}, Cut encoded second → ∀ error,
        readChunked 0 [] second ≠ .error error := by
      intro second hsecond error herror
      have hequal := hsame _ _ ((cut_singly before).append (cut_byBreaks encoded))
        ((cut_singly before).append hsecond)
      rw [hread (cut_byBreaks encoded), hread hsecond, hbreaks, herror] at hequal
      cases hequal
    constructor
    · intro hfull
      obtain ⟨error, herror⟩ := readChunked_singly hdec hfull
      exact hret (cut_singly encoded) error herror
    · by_contra hover
      obtain ⟨error, herror⟩ := readChunked_longRead hdec (by omega) (by omega)
      exact hret (cut_longReadAfter (by omega)) error herror
  · intro hsteady first second hfirst hsecond
    rw [response_of_steady hsteady hfirst, response_of_steady hsteady hsecond]

end

/-! ## A chunk line of 8192 bytes -/

def ascii (text : String) : Bytes := text.toList.map fun c => UInt8.ofNat c.toNat

def chunkedParser : HeaderParser := fun _ bytes =>
  .ok (some (bytes.length,
    ⟨some 200, some 1, [⟨"Transfer-Encoding".toList, ascii "chunked"⟩]⟩))

def chunkedHead : Bytes := ascii "HTTP/1.1 200 OK\r\nTransfer-Encoding: chunked\r\n\r\n"

def longLine : Bytes := 49 :: 59 :: List.replicate 8190 97

def longLineBody : Bytes := longLine ++ 13 :: 10 :: 120 :: 13 :: 10 :: ascii "0\r\n\r\n"

theorem find_crlf_of_not_mem {line : Bytes} (h : 13 ∉ line) (rest : Bytes) :
    find crlf (line ++ 13 :: 10 :: rest) = some line.length := by
  induction line with
  | nil => rfl
  | cons byte line ih =>
    rw [mem_cons, not_or] at h
    rw [cons_append, find, ih h.2, if_neg]
    · rfl
    · simp [crlf, h.1]

theorem fromUtf8_of_ascii (h : ∀ byte ∈ bytes, byte < 0x80) : (fromUtf8 bytes).isNone = false := by
  induction bytes with
  | nil => rfl
  | cons byte bytes ih =>
    rw [fromUtf8.eq_def]
    simp only
    rw [if_pos (h byte mem_cons_self)]
    have hrest := ih fun other hother => h other (mem_cons_of_mem _ hother)
    simpa using hrest

theorem length_longLine : longLine.length = lineLimit := by
  rw [longLine, length_cons, length_cons, length_replicate]
  rfl

theorem chunkSize_longLine : chunkSize longLine = .ok 1 := by
  have hascii : (fromUtf8 longLine).isNone = false := by
    refine fromUtf8_of_ascii fun byte hbyte => ?_
    rcases mem_cons.mp hbyte with rfl | hbyte
    · decide
    rcases mem_cons.mp hbyte with rfl | hbyte
    · decide
    rw [eq_of_mem_replicate hbyte]
    decide
  rw [chunkSize, hascii]
  rfl

theorem findCrlf_longLineBody : findCrlf longLineBody 0 = some lineLimit := by
  have hbreak : (13 : UInt8) ∉ longLine := by
    intro hmember
    rcases mem_cons.mp hmember with h | hmember
    · cases h
    rcases mem_cons.mp hmember with h | hmember
    · cases h
    cases eq_of_mem_replicate hmember
  rw [findCrlf, drop_zero, longLineBody, find_crlf_of_not_mem hbreak, length_longLine]
  rfl

theorem drop_longLineBody (count : Nat) :
    longLineBody.drop (lineLimit + count) =
      ((13 : UInt8) :: 10 :: 120 :: 13 :: 10 :: ascii "0\r\n\r\n").drop count := by
  rw [longLineBody, ← length_longLine, drop_length_add_append]

theorem decode_longLineBody :
    decodeChunkedBody longLineBody = .ok (some ([120], lineLimit + 10)) := by
  have hlen : longLineBody.length = lineLimit + 10 := by
    rw [longLineBody, length_append, length_longLine]
    rfl
  have hline : chunkLine longLineBody 0 = .ok (some (lineLimit + 2, 1)) := by
    rw [chunkLine, findCrlf_longLineBody]
    simp only
    rw [Nat.sub_zero, longLineBody, slice_start _ _ length_longLine, chunkSize_longLine]
    rfl
  have hfirst : decodeRound longLineBody 0 [] = .again (lineLimit + 2 + 1 + 2) [120] := by
    rw [decodeRound_of_again hline (by decide) (by decide) (by omega)]
    · rw [slice, drop_longLineBody 2]
      rfl
    · rw [slice, drop_longLineBody 3]
      rfl
    · decide
  have hsecond : chunkLine longLineBody (lineLimit + 5) = .ok (some (lineLimit + 8, 0)) := by
    have hfind : findCrlf longLineBody (lineLimit + 5) = some (lineLimit + 6) := by
      rw [findCrlf, drop_longLineBody 5]
      rfl
    rw [chunkLine, hfind]
    simp only
    rw [slice, drop_longLineBody 5]
    rfl
  have hskip : skipTrailers longLineBody (lineLimit + 8) = .ok (some (lineLimit + 10)) := by
    rw [skipTrailers, findCrlf, drop_longLineBody 8]
    rfl
  rw [decodeChunkedBody, decodeFrom_again hfirst]
  refine decodeFrom_finished ?_
  rw [decodeRound, hsecond]
  simp only [if_true, hskip]

theorem parse_chunkedParser (bytes : Bytes) :
    parseHttpHeaders chunkedParser bytes =
      .ok (⟨200, [("transfer-encoding".toList, "chunked".toList)], true⟩, bytes.length) := by
  have hheader : headerText ⟨"Transfer-Encoding".toList, ascii "chunked"⟩ =
      .ok ("transfer-encoding".toList, "chunked".toList) := by
    rw [show ascii "chunked" = [99, 104, 117, 110, 107, 101, 100] by decide]
    rfl
  simp only [parseHttpHeaders, chunkedParser, mapM_cons, hheader]
  rfl

theorem headOf_chunkedHead (rest : Bytes) :
    headOf chunkedParser (chunkedHead ++ rest) =
      some (⟨200, [("transfer-encoding".toList, "chunked".toList)], true⟩, chunkedHead.length) := by
  have hfind : find headerMark chunkedHead = some 43 := by decide
  have hlen : chunkedHead.length = 43 + 4 := by decide
  rw [headOf_block chunkedParser hfind, if_neg (by decide), parse_chunkedParser]
  simp only
  rw [length_take, hlen, if_neg (by simp), if_neg (by decide)]

/-- The same bytes, once with every line break in one read and once byte by byte. -/
theorem read_between_cr_and_lf :
    ∃ first second, Cut (chunkedHead ++ longLineBody) first ∧
      Cut (chunkedHead ++ longLineBody) second ∧
      response chunkedParser false first =
        some (200, [("transfer-encoding".toList, "chunked".toList)], [120]) ∧
      response chunkedParser false second = none := by
  have hhead := headOf_chunkedHead longLineBody
  have hbefore := cut_singly chunkedHead
  have hread := fun {second} hsecond =>
    @response_of_cut chunkedParser false longLineBody _ ⟨none, true⟩ chunkedHead _ second hhead
      rfl rfl hbefore hsecond
  obtain ⟨atEnd, hbreaks⟩ := readChunked_byBreaks decode_longLineBody (by decide)
  obtain ⟨error, hsingly⟩ := readChunked_singly decode_longLineBody
    ⟨0, [], .start, by rw [FullLine, findCrlf_longLineBody, Nat.zero_add]⟩
  refine ⟨_, _, hbefore.append (cut_byBreaks longLineBody),
    hbefore.append (cut_singly longLineBody), ?_, ?_⟩
  · rw [hread (cut_byBreaks longLineBody), hbreaks]
    rfl
  · rw [hread (cut_singly longLineBody), hsingly]
    rfl

end Disp.Http
