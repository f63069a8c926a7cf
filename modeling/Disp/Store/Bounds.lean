import Disp.Store.Wal

/-!
# Reading within range

The decoders of files and logs once more, with every slice and every product or difference of
machine integers as a step that may panic.  None does: the checks before each step leave it in
range, so the two versions agree.
-/

namespace Disp.Store

open Library.Codec

/-- How a decoder stops, the message of a refusal apart. -/
inductive Stop where
  | refused
  /-- An index out of range, or arithmetic that does not fit. -/
  | panicked

abbrev Checked := Except Stop

section Steps

variable {α β : Type} {bytes : Bytes} {start length : Nat}

/-- `&bytes[start..stop]`. -/
def range (bytes : Bytes) (start stop : Nat) : Checked Bytes :=
  if start ≤ stop ∧ stop ≤ bytes.length then .ok (slice bytes start (stop - start))
  else .error .panicked

def rangeU32 (bytes : Bytes) (start : Nat) : Checked Nat := do
  let field ← range bytes start (start + 4)
  return ofLe field

def rangeU64 (bytes : Bytes) (start : Nat) : Checked Nat := do
  let field ← range bytes start (start + 8)
  return ofLe field

def times (left right : Nat) : Checked Nat :=
  if left * right < 2 ^ 64 then .ok (left * right) else .error .panicked

def minus (left right : Nat) : Checked Nat :=
  if right ≤ left then .ok (left - right) else .error .panicked

def refuse (condition : Bool) : Checked Unit :=
  if condition then .ok () else .error .refused

/-- A result that is not a panic. -/
def settled (result : Except Invalid α) : Checked α := result.mapError fun _ => .refused

/-- `Reader::take`: the next bytes of a payload, with the position after them. -/
def takeAt (payload : Bytes) (start length : Nat) : Checked (Bytes × Nat) := do
  refuse (decide (start + length < 2 ^ 64) && decide (start + length ≤ payload.length))
  let value ← range payload start (start + length)
  return (value, start + length)

theorem range_ok (h : start + length ≤ bytes.length) :
    range bytes start (start + length) = .ok (slice bytes start length) := by
  rw [range, if_pos ⟨Nat.le_add_right _ _, h⟩, Nat.add_sub_cancel_left]

/-- The reader of a payload stays in range, and takes the same bytes of what is left. -/
theorem takeAt_eq {payload : Bytes} (h : payload.length ≤ maxFileBytes)
    (hstart : start ≤ payload.length) (error : Invalid) :
    takeAt payload start length = settled ((take length error (payload.drop start)).map
      fun taken => (taken.1, payload.length - taken.2.length)) := by
  have hmax : maxFileBytes = 67108864 := rfl
  unfold takeAt take
  rw [List.length_drop]
  by_cases hlen : length ≤ payload.length - start
  · have hfits : (decide (start + length < 2 ^ 64) &&
        decide (start + length ≤ payload.length)) = true := by
      rw [Bool.and_eq_true, decide_eq_true_eq, decide_eq_true_eq]
      omega
    have hleft : start + length = payload.length - ((payload.drop start).drop length).length := by
      rw [List.length_drop, List.length_drop]
      omega
    rw [if_pos hlen, hfits, range_ok (by omega), Except.map, ← hleft]
    rfl
  · have hfits : (decide (start + length < 2 ^ 64) &&
        decide (start + length ≤ payload.length)) = false := by
      rw [Bool.and_eq_false_iff, decide_eq_false_iff_not, decide_eq_false_iff_not]
      omega
    rw [if_neg hlen, hfits]
    rfl

theorem range_rest (h : start ≤ bytes.length) :
    range bytes start bytes.length = .ok (bytes.drop start) := by
  rw [range, if_pos ⟨h, le_rfl⟩, slice, List.take_of_length_le (by simp)]

theorem rangeU32_ok (h : start + 4 ≤ bytes.length) :
    rangeU32 bytes start = .ok (readU32 bytes start) := by
  rw [rangeU32, range_ok h]
  rfl

theorem rangeU64_ok (h : start + 8 ≤ bytes.length) :
    rangeU64 bytes start = .ok (readU64 bytes start) := by
  rw [rangeU64, range_ok h]
  rfl

theorem times_ok {left right : Nat} (h : left * right < 2 ^ 64) :
    times left right = .ok (left * right) :=
  if_pos h

theorem refuse_eq {condition : Bool} {message : String} {next : Unit → Checked α}
    {plain : Unit → Except Invalid α} (h : condition = true → next () = settled (plain ())) :
    (refuse condition >>= next) = settled (ensure condition message >>= plain) := by
  cases condition with
  | false => rfl
  | true => exact h rfl

theorem foldlM_settled (invariant : β → Prop) {checked : β → α → Checked β}
    {plain : β → α → Except Invalid β} {items : List α} {start : β} (hstart : invariant start)
    (hstep : ∀ item ∈ items, ∀ before, invariant before →
      checked before item = settled (plain before item) ∧
        ∀ after, plain before item = .ok after → invariant after) :
    items.foldlM checked start = settled (items.foldlM plain start) := by
  induction items generalizing start with
  | nil => rfl
  | cons item items ih =>
    obtain ⟨hitem, hnext⟩ := hstep item List.mem_cons_self start hstart
    rw [List.foldlM_cons, List.foldlM_cons, hitem]
    cases hplain : plain start item with
    | error error => rfl
    | ok next =>
      exact ih (hnext next hplain) fun other hother =>
        hstep other (List.mem_cons_of_mem item hother)

theorem bind_settled {first : Except Invalid α} {next : α → Checked β}
    {plain : α → Except Invalid β}
    (h : ∀ value, first = .ok value → next value = settled (plain value)) :
    (settled first >>= next) = settled (first >>= plain) := by
  cases first with
  | error error => rfl
  | ok value => exact h value rfl

end Steps

/-! ## The decoder of a file -/

def checkedPage (bytes : Bytes) (payloadLength pageCount : Nat) (payload : Bytes) (page : Nat) :
    Checked Bytes := do
  let start ← times page pageSize
  let kind ← range bytes start (start + 1)
  let flags ← range bytes (start + 1) (start + 1 + 3)
  refuse (kind == [1] && flags == [0, 0, 0])
  let identity ← rangeU32 bytes (start + 4)
  refuse (identity == page)
  let used ← rangeU32 bytes (start + 8)
  let remaining ← minus payloadLength payload.length
  refuse (used == min remaining pagePayloadSize)
  let expectedNext := if page + 1 = pageCount then 0 else page + 1
  let next ← rangeU32 bytes (start + 12)
  let reserved ← rangeU64 bytes (start + 24)
  refuse (next == expectedNext && reserved == 0)
  let data ← range bytes (start + pageHeaderSize) (start + pageHeaderSize + used)
  let checksum ← rangeU64 bytes (start + 16)
  refuse ((fnv1a data).toNat == checksum)
  let unused ← range bytes (start + pageHeaderSize + used) (start + pageSize)
  refuse (allZero unused)
  return payload ++ data

def checkedPages (bytes : Bytes) (allowedFlags : UInt8) (supportsConstraints : Bool) :
    Checked Snapshot := do
  refuse (decide (pageSize ≤ bytes.length))
  let size ← rangeU32 bytes 12
  refuse (size == pageSize)
  let reserved ← rangeU64 bytes 48
  refuse (reserved == 0)
  let fields ← range bytes 0 (0 + 56)
  let checksum ← rangeU64 bytes 56
  refuse ((fnv1a fields).toNat == checksum)
  let rest ← range bytes 64 (64 + (pageSize - 64))
  refuse (allZero rest)
  let payloadLength ← rangeU64 bytes 24
  let pageCount ← rangeU64 bytes 32
  refuse (decide (2 ≤ pageCount) && decide (pageCount ≤ maxPages) &&
      bytes.length == pageCount * pageSize)
  let dataPages ← minus pageCount 1
  let capacity ← times dataPages pagePayloadSize
  refuse (decide (payloadLength ≤ capacity))
  let payload ← (List.range' 1 dataPages).foldlM (checkedPage bytes payloadLength pageCount) []
  let total ← rangeU64 bytes 40
  refuse ((fnv1a payload).toNat == total)
  settled (decodePayload payload allowedFlags supportsConstraints)

def checkedLegacy (bytes : Bytes) : Checked Snapshot := do
  refuse (decide (legacyHeaderSize ≤ bytes.length))
  let flags ← rangeU32 bytes 12
  refuse (flags == 0)
  let payloadLength ← rangeU64 bytes 16
  let remaining ← minus bytes.length legacyHeaderSize
  refuse (payloadLength == remaining)
  let payload ← range bytes legacyHeaderSize bytes.length
  let checksum ← rangeU64 bytes 24
  refuse ((fnv1a payload).toNat == checksum)
  settled (decodePayload payload 0b11 false)

def checkedDecode (bytes : Bytes) : Checked Snapshot := do
  refuse (decide (12 ≤ bytes.length))
  refuse (decide (bytes.length ≤ maxFileBytes))
  let found ← range bytes 0 (0 + 8)
  refuse (found == magic)
  let found ← rangeU32 bytes 8
  if found = legacyVersion then checkedLegacy bytes
  else if found = pageVersion then checkedPages bytes 0b11 false
  else if found = uniqueVersion then checkedPages bytes 0b111 false
  else if found = indexVersion then checkedPages bytes 0b1111 false
  else if found = version then checkedPages bytes 0b1111 true
  else .error .refused

theorem checkedPage_eq {bytes payload : Bytes} {payloadLength pageCount page : Nat}
    (hbytes : bytes.length ≤ maxFileBytes) (hpage : (page + 1) * pageSize ≤ bytes.length)
    (hpay : payload.length ≤ payloadLength) :
    checkedPage bytes payloadLength pageCount payload page =
      settled (decodePage bytes payloadLength pageCount payload page) := by
  have hsize : pageSize = 4096 := rfl
  have hpart : pagePayloadSize = 4064 := rfl
  have hheader : pageHeaderSize = 32 := rfl
  have hmax : maxFileBytes = 67108864 := rfl
  rw [Nat.succ_mul] at hpage
  unfold checkedPage decodePage
  rw [times_ok (by omega), ok_bind, range_ok (by omega), range_ok (by omega)]
  refine refuse_eq fun _ => ?_
  rw [rangeU32_ok (by omega)]
  refine refuse_eq fun _ => ?_
  rw [rangeU32_ok (by omega), minus, if_pos hpay]
  refine refuse_eq fun hused => ?_
  have hused := beq_iff_eq.mp hused
  rw [rangeU32_ok (by omega), rangeU64_ok (by omega)]
  refine refuse_eq fun _ => ?_
  rw [range_ok (by omega), rangeU64_ok (by omega)]
  refine refuse_eq fun _ => ?_
  have hrest : page * pageSize + pageSize = page * pageSize + pageHeaderSize +
      readU32 bytes (page * pageSize + 8) +
        (pageSize - pageHeaderSize - readU32 bytes (page * pageSize + 8)) := by
    omega
  rw [hrest, range_ok (by omega)]
  exact refuse_eq fun _ => rfl

theorem decodePage_length {bytes payload after : Bytes} {payloadLength pageCount page : Nat}
    (hpage : (page + 1) * pageSize ≤ bytes.length) (hpay : payload.length ≤ payloadLength)
    (h : decodePage bytes payloadLength pageCount payload page = .ok after) :
    after.length ≤ payloadLength := by
  have hsize : pageSize = 4096 := rfl
  have hpart : pagePayloadSize = 4064 := rfl
  have hheader : pageHeaderSize = 32 := rfl
  obtain ⟨-, h⟩ := ensure_bind_ok h
  obtain ⟨-, h⟩ := ensure_bind_ok h
  obtain ⟨hused, h⟩ := ensure_bind_ok h
  obtain ⟨-, h⟩ := ensure_bind_ok h
  obtain ⟨-, h⟩ := ensure_bind_ok h
  obtain ⟨-, h⟩ := ensure_bind_ok h
  cases h
  have hused := beq_iff_eq.mp hused
  rw [Nat.succ_mul] at hpage
  rw [List.length_append, length_slice (by omega)]
  omega

theorem checkedPages_eq {bytes : Bytes} (hbytes : bytes.length ≤ maxFileBytes)
    (allowedFlags : UInt8) (supportsConstraints : Bool) :
    checkedPages bytes allowedFlags supportsConstraints =
      settled (decodePages bytes allowedFlags supportsConstraints) := by
  have hsize : pageSize = 4096 := rfl
  have hpart : pagePayloadSize = 4064 := rfl
  have hpages : maxPages = 16384 := rfl
  refine refuse_eq fun hlen => ?_
  have hlen := of_decide_eq_true hlen
  rw [rangeU32_ok (by omega)]
  refine refuse_eq fun _ => ?_
  rw [rangeU64_ok (by omega)]
  refine refuse_eq fun _ => ?_
  rw [range_ok (by omega), rangeU64_ok (by omega)]
  refine refuse_eq fun _ => ?_
  rw [range_ok (by omega)]
  refine refuse_eq fun _ => ?_
  rw [rangeU64_ok (by omega), rangeU64_ok (by omega)]
  refine refuse_eq fun hcount => ?_
  simp only [Bool.and_eq_true, decide_eq_true_eq, beq_iff_eq] at hcount
  rw [minus, if_pos (by omega), ok_bind, times_ok (by rw [hpart]; omega), ok_bind]
  refine refuse_eq fun _ => ?_
  rw [foldlM_settled (fun payload => payload.length ≤ readU64 bytes 24) (Nat.zero_le _)]
  · refine bind_settled fun payload _ => ?_
    rw [rangeU64_ok (by omega)]
    exact refuse_eq fun _ => rfl
  · intro page hpage payload hpay
    have hpage : (page + 1) * pageSize ≤ bytes.length := by
      have hmem := List.mem_range'_1.mp hpage
      rw [hcount.2]
      exact Nat.mul_le_mul_right _ (by omega)
    exact ⟨checkedPage_eq hbytes hpage hpay, fun after => decodePage_length hpage hpay⟩

theorem checkedLegacy_eq (bytes : Bytes) : checkedLegacy bytes = settled (decodeLegacy bytes) := by
  have hheader : legacyHeaderSize = 32 := rfl
  refine refuse_eq fun hlen => ?_
  have hlen := of_decide_eq_true hlen
  rw [rangeU32_ok (by omega)]
  refine refuse_eq fun _ => ?_
  rw [rangeU64_ok (by omega), minus, if_pos hlen]
  refine refuse_eq fun _ => ?_
  rw [range_rest hlen, rangeU64_ok (by omega)]
  exact refuse_eq fun _ => rfl

theorem checkedDecode_eq (bytes : Bytes) : checkedDecode bytes = settled (decode bytes) := by
  refine refuse_eq fun hlen => ?_
  have hlen := of_decide_eq_true hlen
  refine refuse_eq fun hbytes => ?_
  have hbytes := of_decide_eq_true hbytes
  rw [range_ok (by omega)]
  refine refuse_eq fun _ => ?_
  rw [rangeU32_ok (by omega), ok_bind]
  simp only [checkedLegacy_eq, checkedPages_eq hbytes]
  split_ifs <;> rfl

end Disp.Store
