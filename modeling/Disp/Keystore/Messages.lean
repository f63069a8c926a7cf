import Disp.Library.Codec

/-!
# Key-provider messages

The compiler talks to an external key provider in frames of the component transport.  A frame
holds one request or one response, each with a header of its own.  The decoders of frames and
requests accept what the encoders write and nothing else.

Lengths are those of a host with 64-bit addresses, where no addition of the source overflows.
-/

namespace Disp.Keystore

open Disp.Library.Codec List

variable {operation : UInt8} {handle message request : Bytes}

/-! ## Component frames -/

/-- The bytes of `DISPCMP1`. -/
def componentMagic : Bytes := [0x44, 0x49, 0x53, 0x50, 0x43, 0x4d, 0x50, 0x31]

def frameHeaderBytes : Nat := 16

/-- `COMPONENT_MESSAGE_BYTES`. -/
def componentMessageBytes : Nat := 8 * 1024 * 1024

inductive ComponentError
  | requestTooLarge (bytes limit : Nat)
  | failed
  | protocol (message : String)
  deriving DecidableEq

def encodeFrame (payload : Bytes) : Bytes :=
  componentMagic ++ (be 8 payload.length ++ payload)

def decodeFrame (frame : Bytes) : Except ComponentError Bytes :=
  if frame.length < frameHeaderBytes then
    .error (.protocol "response header is truncated")
  else if slice frame 0 8 ≠ componentMagic then
    .error (.protocol "response magic is not DISPCMP1")
  else
    let length := ofBe (slice frame 8 8)
    if componentMessageBytes < length then
      .error (.protocol
        s!"response declares {length} bytes; the limit is {componentMessageBytes}")
    else if frame.length < frameHeaderBytes + length then
      let received := frame.length - frameHeaderBytes
      .error (.protocol
        s!"response body is truncated: expected {length} bytes, received {received}")
    else if frame.length ≠ frameHeaderBytes + length then
      let trailing := frame.length - (frameHeaderBytes + length)
      .error (.protocol s!"response has {trailing} trailing bytes")
    else
      .ok (frame.drop frameHeaderBytes)

theorem length_encodeFrame (payload : Bytes) :
    (encodeFrame payload).length = frameHeaderBytes + payload.length := by
  simp only [encodeFrame, componentMagic, frameHeaderBytes, length_append, length_be,
    length_cons, length_nil]
  omega

/-- A frame is accepted exactly if it is that of a payload within the limit. -/
theorem decodeFrame_eq_ok_iff {frame payload : Bytes} :
    decodeFrame frame = .ok payload ↔
      payload.length ≤ componentMessageBytes ∧ frame = encodeFrame payload := by
  constructor
  · intro h
    simp only [decodeFrame, ite_not] at h
    split_ifs at h with hshort hmagic hlimit htruncated hlen
    cases h
    have hlow : frameHeaderBytes ≤ frame.length := by omega
    have hpay : (frame.drop frameHeaderBytes).length = ofBe (slice frame 8 8) := by
      rw [length_drop]
      omega
    have hnum : (slice frame 8 8).length = 8 :=
      length_slice (by rw [frameHeaderBytes] at hlow; omega)
    refine ⟨by omega, ?_⟩
    rw [encodeFrame, hpay, be_ofBe hnum, ← hmagic, frameHeaderBytes,
      slice_append_drop frame 8 8, slice_append_drop frame 0 8, drop_zero]
  · rintro ⟨hlimit, rfl⟩
    have hlen := length_encodeFrame payload
    have hmagic : slice (encodeFrame payload) 0 8 = componentMagic := slice_start _ _ rfl
    have hnum : ofBe (slice (encodeFrame payload) 8 8) = payload.length := by
      have hmagic : componentMagic.length = 8 := rfl
      rw [encodeFrame, slice_field payload hmagic (length_be 8 _)]
      exact ofBe_be (hlimit.trans_lt (by decide))
    have hpay : (encodeFrame payload).drop frameHeaderBytes = payload := by
      rw [encodeFrame, ← append_assoc]
      exact drop_left' (by simp [componentMagic, frameHeaderBytes])
    simp only [decodeFrame, hmagic, hnum, hlen, hpay]
    rw [if_neg (by omega), if_neg (by simp), if_neg (by omega), if_neg (by omega), if_neg (by simp)]

/-! ## Requests and responses -/

/-- The bytes of `DISPKS1` and a zero. -/
def magic : Bytes := [0x44, 0x49, 0x53, 0x50, 0x4b, 0x53, 0x31, 0x00]

def headerBytes : Nat := 16

def publicKeyOperation : UInt8 := 1

def signOperation : UInt8 := 2

def maxHandleBytes : Nat := 1024

def maxKeystoreMessageBytes : Nat :=
  componentMessageBytes - headerBytes - 2 - maxHandleBytes

inductive KeystoreError
  | invalidConfiguration (message : String)
  | providerRejected (status : UInt8)
  | protocol (message : String)
  | component (error : ComponentError)
  deriving DecidableEq

def knownOperation (operation : UInt8) : Bool :=
  operation == publicKeyOperation || operation == signOperation

def validHandleLength (length : Nat) : Bool := decide (1 ≤ length ∧ length ≤ maxHandleBytes)

def validMessage (operation : UInt8) (message : Bytes) : Bool :=
  decide (message.length ≤ maxKeystoreMessageBytes) &&
    !(operation == publicKeyOperation && !message.isEmpty)

def encodeRequest (operation : UInt8) (handle message : Bytes) : Except KeystoreError Bytes :=
  if knownOperation operation && validHandleLength handle.length &&
      validMessage operation message then
    .ok (magic ++ ([operation, 0, 0, 0] ++ (be 4 (2 + handle.length + message.length) ++
      (be 2 handle.length ++ (handle ++ message)))))
  else
    .error (.invalidConfiguration "invalid provider operation, handle, or message bounds")

def decodeRequest (request : Bytes) : Except KeystoreError (UInt8 × Bytes × Bytes) :=
  if request.length < headerBytes + 2 then
    .error (.protocol "request is truncated")
  else
    let operation := request.getD 8 0
    if slice request 0 8 ≠ magic ∨ knownOperation operation = false ∨
        slice request 9 3 ≠ [0, 0, 0] then
      .error (.protocol "request magic, operation, or reserved fields are invalid")
    else
      let payloadLength := ofBe (slice request 12 4)
      if request.length ≠ headerBytes + payloadLength then
        .error (.protocol "request length is truncated or has trailing bytes")
      else
        let handleLength := ofBe (slice request 16 2)
        if validHandleLength handleLength = false ∨ payloadLength < 2 + handleLength then
          .error (.protocol "request opaque-handle length is invalid")
        else
          let handle := slice request (headerBytes + 2) handleLength
          let message := request.drop (headerBytes + 2 + handleLength)
          if validMessage operation message = false then
            .error (.protocol "request message is invalid for its operation")
          else
            .ok (operation, handle, message)

def encodeResponse (operation status : UInt8) (payload : Bytes) : Bytes :=
  magic ++ ([operation, status, 0, 0] ++ (be 4 payload.length ++ payload))

def answerBytes (operation : UInt8) : Nat := if operation = publicKeyOperation then 32 else 64

def decodeResponse (operation : UInt8) (response : Bytes) : Except KeystoreError Bytes :=
  if response.length < headerBytes then
    .error (.protocol "response header is truncated")
  else if slice response 0 8 ≠ magic ∨ response.getD 8 0 ≠ operation ∨
      response.getD 10 0 ≠ 0 ∨ response.getD 11 0 ≠ 0 then
    .error (.protocol "response magic, operation, or reserved fields are invalid")
  else
    let status := response.getD 9 0
    let payloadLength := ofBe (slice response 12 4)
    if response.length ≠ headerBytes + payloadLength then
      .error (.protocol "response length is truncated or has trailing bytes")
    else if status ≠ 0 then
      if payloadLength ≠ 0 then
        .error (.protocol "rejected response must not contain a payload")
      else
        .error (.providerRejected status)
    else
      let required := answerBytes operation
      if payloadLength ≠ required then
        .error (.protocol (s!"successful operation {operation} returned {payloadLength} bytes; " ++
          s!"expected {required}"))
      else
        .ok (response.drop headerBytes)

/-! ## What the decoders accept -/

theorem length_encodeRequest (h : encodeRequest operation handle message = .ok request) :
    request.length = headerBytes + (2 + handle.length + message.length) := by
  rw [encodeRequest] at h
  split_ifs at h
  cases h
  simp only [magic, headerBytes, length_append, length_be, length_cons, length_nil]
  omega

theorem encodeRequest_fits (h : encodeRequest operation handle message = .ok request) :
    request.length ≤ componentMessageBytes := by
  have hlen := length_encodeRequest h
  rw [encodeRequest] at h
  split_ifs at h with hvalid
  simp only [validHandleLength, validMessage, Bool.and_eq_true, decide_eq_true_eq] at hvalid
  have hbound : maxKeystoreMessageBytes + (headerBytes + 2 + maxHandleBytes) =
      componentMessageBytes := by decide
  omega

/-- The fields of a message with a header: magic, four bytes, the length and the payload. -/
theorem header_fields (a b c d : UInt8) (length : Nat) (payload : Bytes) {bytes : Bytes}
    (h : bytes = magic ++ ([a, b, c, d] ++ (be 4 length ++ payload))) :
    slice bytes 0 8 = magic ∧ slice bytes 12 4 = be 4 length ∧ bytes.drop 16 = payload ∧
      bytes.length = headerBytes + payload.length ∧
      bytes.getD 8 0 = a ∧ bytes.getD 9 0 = b ∧ bytes.getD 10 0 = c ∧ bytes.getD 11 0 = d := by
  have hfour : (be 4 length).length = 4 := length_be 4 length
  refine ⟨?_, ?_, ?_, ?_, ?_, ?_, ?_, ?_⟩
  · rw [h]
    exact slice_start _ _ rfl
  · have htwelve : (magic ++ [a, b, c, d]).length = 12 := rfl
    rw [h, ← append_assoc, slice_field payload htwelve hfour]
  · rw [h, ← append_assoc, ← append_assoc]
    exact drop_left' (by rw [length_append]; rfl)
  · rw [h, length_append, length_append, length_append, headerBytes]
    simp only [magic, length_cons, length_nil]
    omega
  all_goals
    rw [h]
    rfl

/-- A request is decoded exactly to what it was encoded from. -/
theorem decodeRequest_eq_ok_iff :
    decodeRequest request = .ok (operation, handle, message) ↔
      encodeRequest operation handle message = .ok request := by
  constructor
  · intro h
    simp only [decodeRequest] at h
    split_ifs at h with hshort hheader hlen hhandle hmsg
    cases h
    simp only [not_or, not_not, Bool.not_eq_false] at hheader hhandle hmsg hlen
    obtain ⟨hmagic, hop, hreserved⟩ := hheader
    rw [headerBytes] at hshort hlen
    set payload := ofBe (slice request 12 4) with hpay
    set size := ofBe (slice request 16 2) with hsize
    have hhandleLength : (slice request (headerBytes + 2) size).length = size :=
      length_slice (by rw [headerBytes]; omega)
    have hmessageLength : (request.drop (headerBytes + 2 + size)).length = payload - 2 - size := by
      rw [length_drop, headerBytes]
      omega
    have htotal : 2 + size + (payload - 2 - size) = payload := by omega
    have hfour : slice request 8 4 = [request.getD 8 0, 0, 0, 0] := by
      rw [slice_succ (by omega) 3, hreserved]
    rw [encodeRequest, hhandleLength, hmessageLength, htotal, hpay, hsize,
      be_ofBe (length_slice (by omega)), be_ofBe (length_slice (by omega)), ← hsize,
      if_pos (by rw [hop, hhandle.1, hmsg]; rfl)]
    rw [← hfour, ← hmagic, headerBytes, slice_append_drop request 18 size,
      slice_append_drop request 16 2, slice_append_drop request 12 4, slice_append_drop request 8 4,
      slice_append_drop request 0 8, drop_zero]
  · intro h
    have hlen := length_encodeRequest h
    rw [encodeRequest] at h
    split_ifs at h with hvalid
    simp only [Bool.and_eq_true] at hvalid
    obtain ⟨⟨hop, hhandle⟩, hmsg⟩ := hvalid
    have hreq := (Except.ok.inj h).symm
    obtain ⟨hmagic, hsize, hpay, -, hfirst, hsecond, hthird, hfourth⟩ :=
      header_fields operation 0 0 0 _ _ hreq
    have hbound : 1 ≤ handle.length ∧ handle.length ≤ maxHandleBytes := of_decide_eq_true hhandle
    rw [maxHandleBytes] at hbound
    have hmessageBound : message.length ≤ maxKeystoreMessageBytes := by
      simp only [validMessage, Bool.and_eq_true, decide_eq_true_eq] at hmsg
      exact hmsg.1
    have hreserved : slice request 9 3 = [0, 0, 0] := by
      rw [slice_succ (by rw [hlen, headerBytes]; omega) 2,
        slice_succ (by rw [hlen, headerBytes]; omega) 1,
        slice_succ (by rw [hlen, headerBytes]; omega) 0, hsecond, hthird, hfourth]
      rfl
    have hpayloadNumber : ofBe (slice request 12 4) = 2 + handle.length + message.length := by
      have hlimit : maxKeystoreMessageBytes + 1026 < 256 ^ 4 := by decide
      rw [hsize, ofBe_be (by omega)]
    have hhandleNumber : ofBe (slice request 16 2) = handle.length := by
      rw [slice, hpay, take_left' (length_be 2 _), ofBe_be (by omega)]
    have hrest : request.drop (headerBytes + 2) = handle ++ message := by
      rw [← drop_drop, headerBytes, hpay, drop_left' (length_be 2 _)]
    have hhandleBytes : slice request (headerBytes + 2) handle.length = handle := by
      rw [slice, hrest, take_left]
    have hmessageBytes : request.drop (headerBytes + 2 + handle.length) = message := by
      rw [← drop_drop, hrest, drop_left]
    simp only [decodeRequest, hmagic, hfirst, hreserved, hpayloadNumber, hhandleNumber,
      hhandleBytes, hmessageBytes, hop, hhandle, hmsg, hlen]
    rw [if_neg (by omega), if_neg (by simp), if_neg (by simp), if_neg (by simp), if_neg (by simp)]

theorem decodeResponse_rejected (operation : UInt8) {status : UInt8} (h : status ≠ 0) :
    decodeResponse operation (encodeResponse operation status []) =
      .error (.providerRejected status) := by
  obtain ⟨hmagic, hsize, hpay, hlen, hfirst, hsecond, hthird, hfourth⟩ :=
    header_fields operation status 0 0 0 [] (rfl : encodeResponse operation status [] = _)
  have hnum : ofBe (be 4 0) = 0 := by decide
  simp only [decodeResponse, hmagic, hsize, hlen, hfirst, hsecond, hthird, hfourth, hnum]
  simp [h]

theorem decodeResponse_answer {answer : Bytes} (h : answer.length = answerBytes operation) :
    decodeResponse operation (encodeResponse operation 0 answer) = .ok answer := by
  obtain ⟨hmagic, hsize, hpay, hlen, hfirst, hsecond, hthird, hfourth⟩ :=
    header_fields operation 0 0 0 answer.length answer (rfl : encodeResponse operation 0 answer = _)
  have hanswer : answerBytes operation < 256 ^ 4 := by
    unfold answerBytes
    split <;> decide
  have hnum : ofBe (be 4 answer.length) = answer.length := ofBe_be (by omega)
  simp only [decodeResponse, hmagic, hsize, hlen, hfirst, hsecond, hthird, hfourth, hnum]
  simp [h, headerBytes, hpay]

end Disp.Keystore
