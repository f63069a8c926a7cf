import Disp.Store.Decode

/-!
# Pages

A file of pages written by the encoder passes every check of the page decoder, which
hands the payload on unchanged.
-/

namespace Disp.Store

open Library.Codec List

variable {bytes : Bytes} {start value : Nat} {payload : Bytes} {dataPages page : Nat}
  {generation : UInt64}

/-! ## The header page -/

section

variable (version : Nat) (generation : UInt64) (payload : Bytes) (pageCount : Nat)

@[simp] theorem length_headerFields :
    (headerFields version generation payload pageCount).length = 56 := by
  simp [headerFields, magic]

@[simp] theorem length_zeros (length : Nat) : (zeros length).length = length :=
  length_replicate

@[simp] theorem length_headerPage :
    (headerPage version generation payload pageCount).length = pageSize := by
  simp [headerPage, pageSize]

theorem headerPage_magic : slice (headerPage version generation payload pageCount) 0 8 = magic := by
  rw [headerPage, headerFields, append_assoc]
  exact slice_start _ _ rfl

theorem headerPage_fields :
    slice (headerPage version generation payload pageCount) 0 56 =
      headerFields version generation payload pageCount :=
  slice_start _ _ (length_headerFields version generation payload pageCount)

theorem headerPage_number :
    slice (headerPage version generation payload pageCount) 8 4 = le 4 version ∧
    slice (headerPage version generation payload pageCount) 12 4 = le 4 pageSize ∧
    slice (headerPage version generation payload pageCount) 16 8 = le 8 generation.toNat ∧
    slice (headerPage version generation payload pageCount) 24 8 = le 8 payload.length ∧
    slice (headerPage version generation payload pageCount) 32 8 = le 8 pageCount ∧
    slice (headerPage version generation payload pageCount) 40 8 =
      le 8 (fnv1a payload).toNat ∧
    slice (headerPage version generation payload pageCount) 48 8 = le 8 0 := by
  have hmagic : magic.length = 8 := rfl
  rw [headerPage, headerFields]
  simp [slice_append_left, slice_append_right, slice_all, hmagic]

theorem headerPage_checksum :
    slice (headerPage version generation payload pageCount) 56 8 =
      le 8 (fnv1a (headerFields version generation payload pageCount)).toNat := by
  simp [headerPage, slice_append_left, slice_append_right, slice_all]

theorem headerPage_rest :
    slice (headerPage version generation payload pageCount) 64 (pageSize - 64) =
      zeros (pageSize - 64) := by
  simp [headerPage, slice_append_right, slice_all]

end

/-! ## Data pages -/

section

variable (payload : Bytes) (dataPages page : Nat)

def pageData : Bytes := slice payload (page * pagePayloadSize) pagePayloadSize

theorem length_pageData :
    (pageData payload page).length =
      min (payload.length - page * pagePayloadSize) pagePayloadSize := by
  rw [pageData, slice, length_take, length_drop, Nat.min_comm]

theorem length_pageData_le : (pageData payload page).length ≤ pagePayloadSize :=
  (length_pageData payload page).trans_le (Nat.min_le_right _ _)

theorem dataPage_eq :
    dataPage payload dataPages page =
      [1, 0, 0, 0] ++ (le 4 (page + 1) ++ (le 4 (pageData payload page).length ++
        (le 4 (if page + 1 = dataPages then 0 else page + 2) ++
          (le 8 (fnv1a (pageData payload page)).toNat ++ (le 8 0 ++ (pageData payload page ++
            zeros (pagePayloadSize - (pageData payload page).length))))))) :=
  rfl

@[simp] theorem length_dataPage : (dataPage payload dataPages page).length = pageSize := by
  have hle := length_pageData_le payload page
  rw [dataPage_eq]
  simp only [length_append, length_le, length_zeros, length_cons, length_nil]
  simp only [pagePayloadSize, pageSize, pageHeaderSize] at *
  omega

theorem dataPage_fields :
    slice (dataPage payload dataPages page) 0 1 = [1] ∧
    slice (dataPage payload dataPages page) 1 3 = [0, 0, 0] ∧
    slice (dataPage payload dataPages page) 4 4 = le 4 (page + 1) ∧
    slice (dataPage payload dataPages page) 8 4 = le 4 (pageData payload page).length ∧
    slice (dataPage payload dataPages page) 12 4 =
      le 4 (if page + 1 = dataPages then 0 else page + 2) ∧
    slice (dataPage payload dataPages page) 16 8 =
      le 8 (fnv1a (pageData payload page)).toNat ∧
    slice (dataPage payload dataPages page) 24 8 = le 8 0 := by
  have htag : ([1, 0, 0, 0] : Bytes).length = 4 := rfl
  rw [dataPage_eq]
  refine ⟨rfl, rfl, ?_⟩
  simp only [slice_append_left, slice_append_right, slice_all, htag, length_le, Nat.reduceSub,
    Nat.reduceLeDiff, and_self]

theorem dataPage_split :
    ∃ header : Bytes, header.length = pageHeaderSize ∧
      dataPage payload dataPages page = header ++ (pageData payload page ++
        zeros (pagePayloadSize - (pageData payload page).length)) := by
  refine ⟨[1, 0, 0, 0] ++ (le 4 (page + 1) ++ (le 4 (pageData payload page).length ++
    (le 4 (if page + 1 = dataPages then 0 else page + 2) ++
      (le 8 (fnv1a (pageData payload page)).toNat ++ le 8 0)))), ?_, ?_⟩
  · simp [pageHeaderSize]
  · rw [dataPage_eq]
    simp only [append_assoc]

theorem dataPage_data :
    slice (dataPage payload dataPages page) pageHeaderSize (pageData payload page).length =
      pageData payload page ∧
    slice (dataPage payload dataPages page) (pageHeaderSize + (pageData payload page).length)
        (pagePayloadSize - (pageData payload page).length) =
      zeros (pagePayloadSize - (pageData payload page).length) := by
  obtain ⟨header, hheader, hpage⟩ := dataPage_split payload dataPages page
  rw [hpage]
  constructor
  · rw [slice_append_right _ hheader.le, hheader]
    exact slice_start _ _ rfl
  · rw [slice_append_right _ (hheader.le.trans (Nat.le_add_right _ _)), hheader,
      Nat.add_sub_cancel_left, slice_append_right _ le_rfl, Nat.sub_self]
    exact slice_all _ (length_zeros _).le

end

/-! ## The page chain -/

theorem readU32_of_slice (h : slice bytes start 4 = le 4 value) (hval : value < 2 ^ 32) :
    readU32 bytes start = value := by
  rw [readU32, h, ofLe_le hval]

theorem readU64_of_slice (h : slice bytes start 8 = le 8 value) (hval : value < 2 ^ 64) :
    readU64 bytes start = value := by
  rw [readU64, h, ofLe_le hval]

theorem readU64_of_checksum {value : UInt64} (h : slice bytes start 8 = le 8 value.toNat) :
    readU64 bytes start = value.toNat :=
  readU64_of_slice h value.toNat_lt

theorem allZero_zeros (length : Nat) : allZero (zeros length) = true := by
  simp [allZero, zeros]

theorem take_succ_pageData (payload : Bytes) (page : Nat) :
    payload.take (page * pagePayloadSize) ++ pageData payload page =
      payload.take ((page + 1) * pagePayloadSize) := by
  rw [Nat.succ_mul, take_add]
  rfl

/-- A page of the chain passes its checks and adds its part of the payload. -/
theorem decodePage_encoded (hpage : page < dataPages) (hcount : dataPages + 1 ≤ maxPages)
    (hslice : slice bytes ((page + 1) * pageSize) pageSize = dataPage payload dataPages page) :
    decodePage bytes payload.length (dataPages + 1) (payload.take (page * pagePayloadSize))
      (page + 1) = .ok (payload.take ((page + 1) * pagePayloadSize)) := by
  obtain ⟨htag, hflags, hnum, hused, hnext, hchecksum, hzero⟩ :=
    dataPage_fields payload dataPages page
  obtain ⟨hdata, hunused⟩ := dataPage_data payload dataPages page
  have hle := length_pageData_le payload page
  have hpages : maxPages = 16384 := rfl
  have hread (offset length : Nat) (h : offset + length ≤ pageSize) :
      slice bytes ((page + 1) * pageSize + offset) length =
        slice (dataPage payload dataPages page) offset length := by
    rw [← hslice, slice_slice bytes h]
  have hfirst := (hread 0 1 (by decide)).trans htag
  rw [Nat.add_zero] at hfirst
  have hsecond := (hread 1 3 (by decide)).trans hflags
  have hnum := readU32_of_slice ((hread 4 4 (by decide)).trans hnum) (by omega)
  have hused := readU32_of_slice ((hread 8 4 (by decide)).trans hused)
    (hle.trans_lt (by decide))
  have hnext := readU32_of_slice ((hread 12 4 (by decide)).trans hnext) (by split <;> omega)
  have hchecksum := readU64_of_checksum ((hread 16 8 (by decide)).trans hchecksum)
  have hzero := readU64_of_slice ((hread 24 8 (by decide)).trans hzero) (by decide)
  have hdata := (hread pageHeaderSize (pageData payload page).length
    (Nat.add_le_add_left hle pageHeaderSize)).trans hdata
  have hunused := (hread (pageHeaderSize + (pageData payload page).length)
    (pagePayloadSize - (pageData payload page).length)
      (by rw [Nat.add_assoc, Nat.add_sub_cancel' hle]; exact Nat.le_refl pageSize)).trans hunused
  have hexp : (pageData payload page).length =
      min (payload.length - (payload.take (page * pagePayloadSize)).length) pagePayloadSize := by
    rw [length_pageData, length_take]
    omega
  rw [← Nat.add_assoc] at hunused
  rw [decodePage]
  simp only [hfirst, hsecond, hnum, hused, hnext, hzero, hdata, hchecksum,
    Nat.add_right_cancel_iff, beq_self_eq_true, Bool.and_self, ensure_pass]
  rw [ensure_pass (beq_iff_eq.mpr hexp), ensure_pass, take_succ_pageData]
  · rfl
  · exact hunused ▸ allZero_zeros _

theorem decodeChain_encoded (hcount : dataPages + 1 ≤ maxPages) (hslice : ∀ page < dataPages,
      slice bytes ((page + 1) * pageSize) pageSize = dataPage payload dataPages page)
    {remaining : Nat} (h : page + remaining = dataPages) :
    (List.range' (page + 1) remaining).foldlM (decodePage bytes payload.length (dataPages + 1))
        (payload.take (page * pagePayloadSize)) =
      .ok (payload.take (dataPages * pagePayloadSize)) := by
  induction remaining generalizing page with
  | zero =>
    rw [← h]
    rfl
  | succ remaining ih =>
    have hpage : page < dataPages := by omega
    rw [List.range'_succ, foldlM_cons, decodePage_encoded hpage hcount (hslice page hpage)]
    exact ih (by omega)

/-! ## Whole files -/

theorem length_le_dataPageCount (payload : Bytes) :
    payload.length ≤ dataPageCount payload * pagePayloadSize := by
  have hsize : pagePayloadSize = 4064 := rfl
  rw [dataPageCount, hsize]
  omega

theorem dataPageCount_pos (payload : Bytes) : 1 ≤ dataPageCount payload :=
  Nat.le_max_right _ _

def pagesOf (version : Nat) (generation : UInt64) (payload : Bytes) : Bytes :=
  headerPage version generation payload (dataPageCount payload + 1) ++
    (List.range (dataPageCount payload)).flatMap (dataPage payload (dataPageCount payload))

theorem encodePagesVersion_eq_ok {snapshot : Snapshot} {version : Nat} {supportsConstraints : Bool}
    (h : encodePagesVersion snapshot generation version supportsConstraints = .ok bytes) :
    ∃ payload, encodePayloadWithConstraints snapshot supportsConstraints = .ok payload ∧
      dataPageCount payload + 1 ≤ maxPages ∧ bytes = pagesOf version generation payload := by
  obtain ⟨payload, hpay, h⟩ := bind_eq_ok h
  obtain ⟨hcount, h⟩ := ensure_bind_ok h
  cases h
  exact ⟨payload, hpay, of_decide_eq_true hcount, rfl⟩

section

variable (version : Nat) (generation : UInt64) (payload : Bytes)

theorem length_pagesOf :
    (pagesOf version generation payload).length = (dataPageCount payload + 1) * pageSize := by
  rw [pagesOf, length_append, length_headerPage,
    length_flatMap fun page _ => length_dataPage _ _ page, length_range, Nat.succ_mul,
    Nat.add_comm]

theorem slice_pagesOf_header {length : Nat} (h : start + length ≤ pageSize) :
    slice (pagesOf version generation payload) start length =
      slice (headerPage version generation payload (dataPageCount payload + 1)) start length :=
  slice_append_left _ (by rwa [length_headerPage])

theorem slice_pagesOf_page (h : page < dataPageCount payload) :
    slice (pagesOf version generation payload) ((page + 1) * pageSize) pageSize =
      dataPage payload (dataPageCount payload) page := by
  rw [pagesOf, slice_append_right, length_headerPage, Nat.succ_mul, Nat.add_sub_cancel]
  · exact slice_flatMap (fun page _ => length_dataPage _ _ page) (List.getElem?_range h)
  · rw [length_headerPage, Nat.succ_mul]
    exact Nat.le_add_left _ _

end

/-- The page decoder hands on the payload of a file of pages. -/
theorem decodePages_pagesOf {version : Nat} (hcount : dataPageCount payload + 1 ≤ maxPages)
    (allowedFlags : UInt8) (supportsConstraints : Bool) :
    decodePages (pagesOf version generation payload) allowedFlags supportsConstraints =
      decodePayload payload allowedFlags supportsConstraints := by
  have hpay := length_le_dataPageCount payload
  have hpos := dataPageCount_pos payload
  have hpages : maxPages = 16384 := rfl
  have hbound : payload.length < 2 ^ 64 := by
    have hpart : pagePayloadSize = 4064 := rfl
    rw [hpart] at hpay
    omega
  have hread {start length : Nat} {value : Bytes} (h : start + length ≤ pageSize)
      (hval : slice (headerPage version generation payload (dataPageCount payload + 1))
        start length = value) :
      slice (pagesOf version generation payload) start length = value :=
    (slice_pagesOf_header version generation payload h).trans hval
  obtain ⟨-, hsize, -, hlen, hnum, hchecksum, hzero⟩ :=
    headerPage_number version generation payload (dataPageCount payload + 1)
  have hsize := readU32_of_slice (hread (by decide) hsize) (by decide)
  have hlen := readU64_of_slice (hread (by decide) hlen) hbound
  have hnum := readU64_of_slice (hread (by decide) hnum) (by omega)
  have hchecksum := readU64_of_checksum (hread (by decide) hchecksum)
  have hzero := readU64_of_slice (hread (by decide) hzero) (by decide)
  have hfields := hread (by decide) (headerPage_fields version generation payload _)
  have hheader := readU64_of_checksum (hread (by decide)
    (headerPage_checksum version generation payload _))
  have hrest := hread (by decide) (headerPage_rest version generation payload _)
  have hchain := decodeChain_encoded hcount
    (fun page => slice_pagesOf_page version generation payload) (Nat.zero_add _)
  rw [Nat.zero_mul, take_zero, take_of_length_le hpay] at hchain
  have htotal := length_pagesOf version generation payload
  rw [decodePages]
  simp only [hsize, hlen, hnum, hchecksum, hzero, hfields, hheader, hrest, htotal,
    hchain, beq_self_eq_true, allZero_zeros, Nat.add_sub_cancel, ensure_pass]
  rw [ensure_pass (decide_eq_true ?_), ensure_pass, ensure_pass (decide_eq_true hpay)]
  · exact ensure_pass (beq_self_eq_true _) _ _
  · simp [hcount, hpos]
  · exact Nat.le_mul_of_pos_left _ (Nat.succ_pos _)

/-- The versions of the page format, with the flags that a field may have and whether a table
has a constraint section. -/
inductive PageFormat : Nat → UInt8 → Bool → Prop where
  | first : PageFormat pageVersion 0b11 false
  | unique : PageFormat uniqueVersion 0b111 false
  | index : PageFormat indexVersion 0b1111 false
  | current : PageFormat version 0b1111 true

theorem readU32_pagesOf {number : Nat} (hnum : number < 2 ^ 32) (generation : UInt64)
    (payload : Bytes) : readU32 (pagesOf number generation payload) 8 = number :=
  readU32_of_slice ((slice_pagesOf_header number generation payload (by decide)).trans
    (headerPage_number number generation payload _).1) hnum

theorem decode_pagesOf {number : Nat} {allowedFlags : UInt8} {supportsConstraints : Bool}
    (hformat : PageFormat number allowedFlags supportsConstraints)
    (hcount : dataPageCount payload + 1 ≤ maxPages) :
    decode (pagesOf number generation payload) =
      decodePayload payload allowedFlags supportsConstraints := by
  have htotal := length_pagesOf number generation payload
  have hsmall : 12 ≤ (dataPageCount payload + 1) * pageSize :=
    (by decide : 12 ≤ pageSize).trans (Nat.le_mul_of_pos_left _ (Nat.succ_pos _))
  have hlarge : (dataPageCount payload + 1) * pageSize ≤ maxFileBytes :=
    (Nat.mul_le_mul_right pageSize hcount).trans (by decide)
  have hmagic := (slice_pagesOf_header number generation payload (by decide)).trans
    (headerPage_magic number generation payload _)
  have hnum : number < 2 ^ 32 := by cases hformat <;> decide
  rw [decode, htotal, ensure_pass (decide_eq_true hsmall), ensure_pass (decide_eq_true hlarge),
    hmagic, ensure_pass (beq_self_eq_true _)]
  cases hformat <;> exact decodePages_pagesOf hcount _ _

end Disp.Store
