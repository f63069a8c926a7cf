import Disp.Keystore.Messages

/-!
# Exchanges with a key provider

A call goes out as a framed request, is served once by the provider and comes back as a framed
response.  The transport delivers both frames unchanged.
-/

namespace Disp.Keystore

open Disp.Library.Codec

/-! ## Providers -/

/-- A `NonZeroU8`. -/
abbrev Status := {status : UInt8 // status ≠ 0}

/-- An array of `size` bytes. -/
abbrev Answer (size : Nat) := {answer : Bytes // answer.length = size}

/-- The trait `Ed25519KeyProvider`, each method over the provider's own state. -/
structure Provider (σ : Type) where
  publicKey : Bytes → σ → Except Status (Answer 32) × σ
  sign : Bytes → Bytes → σ → Except Status (Answer 64) × σ

/-! ## Serving a request -/

section

variable {σ : Type}

def respond {size : Nat} (operation : UInt8) : Except Status (Answer size) → Bytes
  | .ok answer => encodeResponse operation 0 answer.1
  | .error status => encodeResponse operation status.1 []

def dispatchProviderRequest (provider : Provider σ) (request : Bytes) (state : σ) :
    Except KeystoreError Bytes × σ :=
  match decodeRequest request with
  | .error error => (.error error, state)
  | .ok (operation, handle, message) =>
    if operation = publicKeyOperation then
      let (answer, state) := provider.publicKey handle state
      (.ok (respond operation answer), state)
    else if operation = signOperation then
      let (answer, state) := provider.sign handle message state
      (.ok (respond operation answer), state)
    else
      (.error (.protocol "provider request has an unknown operation"), state)

/-- The value `invoke` gives to `DISP_COMPONENT_PROTOCOL`. -/
def componentProtocol : String := "disp.component.v1"

/-- What the provider process writes, from its environment and its input. -/
def serveEd25519ProviderOnce (provider : Provider σ) (protocol : Option String) (input : Bytes)
    (state : σ) : Except KeystoreError Bytes × σ :=
  if protocol ≠ some componentProtocol then
    (.error (.invalidConfiguration
      "provider requires DISP_COMPONENT_PROTOCOL=disp.component.v1"), state)
  else
    let maximumFrameBytes := componentMessageBytes + 16
    let framedRequest := input.take (maximumFrameBytes + 1)
    if maximumFrameBytes < framedRequest.length then
      (.error (.protocol "component request exceeds its framing limit"), state)
    else
      match decodeFrame framedRequest with
      | .error error => (.error (.component error), state)
      | .ok request =>
        let (response, state) := dispatchProviderRequest provider request state
        (response.map encodeFrame, state)

/-! ## Calling the provider -/

/-- `ComponentCommand::invoke`: the process is given the frame and succeeds if serving does. -/
def invokeComponent (provider : Provider σ) (request : Bytes) (state : σ) :
    Except ComponentError Bytes × σ :=
  if componentMessageBytes < request.length then
    (.error (.requestTooLarge request.length componentMessageBytes), state)
  else
    match serveEd25519ProviderOnce provider (some componentProtocol) (encodeFrame request)
      state with
    | (.error _, state) => (.error .failed, state)
    | (.ok output, state) => (decodeFrame output, state)

/-- `HardwareEd25519Key::invoke`, for a provider whose digest it has found to be the pinned one:
the check of the executable's digest before the call is left out. -/
def invoke (provider : Provider σ) (operation : UInt8) (handle message : Bytes) (state : σ) :
    Except KeystoreError Bytes × σ :=
  match encodeRequest operation handle message with
  | .error error => (.error error, state)
  | .ok request =>
    match invokeComponent provider request state with
    | (.error error, state) => (.error (.component error), state)
    | (.ok response, state) => (decodeResponse operation response, state)

def delivered {size : Nat} : Except Status (Answer size) → Except KeystoreError Bytes
  | .ok answer => .ok answer.1
  | .error status => .error (.providerRejected status.1)

/-! ## The exchange end to end -/

theorem length_respond_le {size : Nat} (operation : UInt8) (answer : Except Status (Answer size)) :
    (respond operation answer).length ≤ headerBytes + size := by
  cases answer with
  | ok answer =>
    have hlen := header_fields operation 0 0 0 _ _ (rfl : respond operation (.ok answer) = _)
    rw [hlen.2.2.2.1, answer.2]
  | error status =>
    exact Nat.add_le_add_left (Nat.zero_le _) _

theorem decodeResponse_respond {size : Nat} {operation : UInt8}
    (answer : Except Status (Answer size)) (hsize : size = answerBytes operation) :
    decodeResponse operation (respond operation answer) = delivered answer := by
  cases answer with
  | ok answer => exact decodeResponse_answer (answer.2.trans hsize)
  | error status => exact decodeResponse_rejected operation status.2

theorem serve_encodeFrame (provider : Provider σ) {request : Bytes} (state : σ)
    (h : request.length ≤ componentMessageBytes) :
    serveEd25519ProviderOnce provider (some componentProtocol) (encodeFrame request) state =
      let (response, state) := dispatchProviderRequest provider request state
      (response.map encodeFrame, state) := by
  have hlen := length_encodeFrame request
  rw [frameHeaderBytes] at hlen
  have htake : (encodeFrame request).take (componentMessageBytes + 16 + 1) = encodeFrame request :=
    List.take_of_length_le (by omega)
  have hframe : decodeFrame (encodeFrame request) = .ok request :=
    decodeFrame_eq_ok_iff.mpr ⟨h, rfl⟩
  rw [serveEd25519ProviderOnce, if_neg (by simp)]
  simp only [htake, hframe]
  rw [if_neg (by omega)]

/-- An exchange whose request is dispatched to an answer delivers that answer. -/
theorem invoke_dispatched {provider : Provider σ} {operation : UInt8}
    {handle message request : Bytes} {state next : σ} {size : Nat}
    {answer : Except Status (Answer size)}
    (hreq : encodeRequest operation handle message = .ok request)
    (hdispatch : dispatchProviderRequest provider request state =
      (.ok (respond operation answer), next)) (hsize : size = answerBytes operation) :
    invoke provider operation handle message state = (delivered answer, next) := by
  have hfits := encodeRequest_fits hreq
  have hanswer : (respond operation answer).length ≤ componentMessageBytes := by
    refine (length_respond_le operation answer).trans ?_
    rw [hsize, answerBytes]
    split <;> decide
  have hframe : decodeFrame (encodeFrame (respond operation answer)) =
      .ok (respond operation answer) := decodeFrame_eq_ok_iff.mpr ⟨hanswer, rfl⟩
  have hcomponent : invokeComponent provider request state =
      (.ok (respond operation answer), next) := by
    rw [invokeComponent, if_neg (by omega), serve_encodeFrame provider state hfits, hdispatch]
    exact congrArg (·, next) hframe
  simp only [invoke, hreq, hcomponent, decodeResponse_respond answer hsize]

/-- For every provider, handle and message within the limits, the provider's method receives the
handle and the message, and the caller obtains its answer or its status. -/
theorem exchange_delivers (provider : Provider σ) (state : σ) (handle message : Bytes)
    (hhandle : 1 ≤ handle.length ∧ handle.length ≤ maxHandleBytes)
    (hmessage : message.length ≤ maxKeystoreMessageBytes) :
    (invoke provider publicKeyOperation handle [] state =
      (delivered (provider.publicKey handle state).1, (provider.publicKey handle state).2)) ∧
    (invoke provider signOperation handle message state =
      (delivered (provider.sign handle message state).1,
        (provider.sign handle message state).2)) := by
  have hlen : validHandleLength handle.length = true := decide_eq_true hhandle
  constructor
  · have hvalid : (knownOperation publicKeyOperation && validHandleLength handle.length &&
        validMessage publicKeyOperation []) = true := by
      rw [hlen]
      decide
    refine invoke_dispatched (if_pos hvalid) ?_ rfl
    rw [dispatchProviderRequest, decodeRequest_eq_ok_iff.mpr (if_pos hvalid)]
    rfl
  · have hvalid : (knownOperation signOperation && validHandleLength handle.length &&
        validMessage signOperation message) = true := by
      rw [hlen, validMessage, decide_eq_true hmessage]
      rfl
    refine invoke_dispatched (if_pos hvalid) ?_ rfl
    rw [dispatchProviderRequest, decodeRequest_eq_ok_iff.mpr (if_pos hvalid)]
    rfl

/-- One call of the method that a request asks for, and the frame of its answer. -/
def served (provider : Provider σ) (operation : UInt8) (handle message : Bytes) (state : σ) :
    Except KeystoreError Bytes × σ :=
  if operation = publicKeyOperation then
    (provider.publicKey handle state).map (.ok <| encodeFrame <| respond operation ·) id
  else
    (provider.sign handle message state).map (.ok <| encodeFrame <| respond operation ·) id

theorem dispatch_encoded (provider : Provider σ) {operation : UInt8}
    {handle message request : Bytes} (state : σ)
    (hreq : encodeRequest operation handle message = .ok request) :
    (dispatchProviderRequest provider request state).map (·.map encodeFrame) id =
      served provider operation handle message state := by
  rw [dispatchProviderRequest, decodeRequest_eq_ok_iff.mpr hreq]
  rw [encodeRequest] at hreq
  split_ifs at hreq with hvalid
  simp only [knownOperation, Bool.and_eq_true, Bool.or_eq_true, beq_iff_eq] at hvalid
  obtain rfl | rfl := hvalid.1.1
  · rfl
  · rfl

/-- The input is the frame of an encoded request, and the protocol is announced. -/
def WellAddressed (protocol : Option String) (input : Bytes) : Prop :=
  protocol = some componentProtocol ∧ ∃ operation handle message request,
    encodeRequest operation handle message = .ok request ∧ input = encodeFrame request

theorem wellAddressed_of_request {protocol : Option String} {input request : Bytes}
    (hprotocol : protocol = some componentProtocol)
    (hlong : (input.take (componentMessageBytes + 16 + 1)).length ≤ componentMessageBytes + 16)
    (hframe : decodeFrame (input.take (componentMessageBytes + 16 + 1)) = .ok request)
    {parts : UInt8 × Bytes × Bytes} (hreq : decodeRequest request = .ok parts) :
    WellAddressed protocol input := by
  -- the input was not cut off, so it is the frame itself
  have hinput : input = encodeFrame request := by
    rw [← (decodeFrame_eq_ok_iff.mp hframe).2, List.take_of_length_le]
    rw [List.length_take] at hlong
    omega
  exact ⟨hprotocol, parts.1, parts.2.1, parts.2.2, request, decodeRequest_eq_ok_iff.mp hreq, hinput⟩

/-- The provider process calls the method that an encoded request asks for, once, and frames its
answer; given anything else, it reports an error and leaves the provider alone. -/
theorem serve_guarded (provider : Provider σ) (state : σ) :
    (∀ operation handle message request, encodeRequest operation handle message = .ok request →
      serveEd25519ProviderOnce provider (some componentProtocol) (encodeFrame request) state =
        served provider operation handle message state) ∧
    ∀ protocol input, ¬ WellAddressed protocol input →
      ∃ error, serveEd25519ProviderOnce provider protocol input state = (.error error, state) := by
  constructor
  · intro operation handle message request hreq
    rw [serve_encodeFrame provider state (encodeRequest_fits hreq)]
    exact dispatch_encoded provider state hreq
  · intro protocol input hother
    simp only [serveEd25519ProviderOnce]
    split_ifs with hprotocol hlong
    · exact ⟨_, rfl⟩
    · exact ⟨_, rfl⟩
    cases hframe : decodeFrame (input.take (componentMessageBytes + 16 + 1)) with
    | error error => exact ⟨_, rfl⟩
    | ok request =>
      simp only [dispatchProviderRequest]
      cases hreq : decodeRequest request with
      | error error => exact ⟨_, rfl⟩
      | ok parts =>
        exact absurd (wellAddressed_of_request (not_not.mp hprotocol) (not_lt.mp hlong) hframe hreq)
          hother

end

/-- A provider that keeps the messages it is asked to sign and knows one handle. -/
def recorder : Provider (List Bytes) where
  publicKey := fun handle state =>
    (if handle = [7] then .ok ⟨List.replicate 32 1, rfl⟩ else .error ⟨9, by decide⟩, state)
  sign := fun handle message state =>
    (if handle = [7] then .ok ⟨List.replicate 64 2, rfl⟩ else .error ⟨9, by decide⟩,
      state ++ [message])

theorem recorder_signs :
    (1 ≤ [(7 : UInt8)].length ∧ [(7 : UInt8)].length ≤ maxHandleBytes) ∧
      [(1 : UInt8), 2].length ≤ maxKeystoreMessageBytes ∧
      invoke recorder publicKeyOperation [8] [] [] = (.error (.providerRejected 9), []) ∧
      invoke recorder signOperation [7] [1, 2] [] = (.ok (List.replicate 64 2), [[1, 2]]) :=
  ⟨by decide, by decide, (exchange_delivers recorder [] [8] [] (by decide) (by decide)).1,
    (exchange_delivers recorder [] [7] [1, 2] (by decide) (by decide)).2⟩

/-- A request to sign is served by one call; without the protocol it is an error. -/
theorem recorder_serves :
    ∃ request, encodeRequest signOperation [7] [1, 2] = .ok request ∧
      serveEd25519ProviderOnce recorder (some componentProtocol) (encodeFrame request) [] =
        (.ok (encodeFrame (encodeResponse signOperation 0 (List.replicate 64 2))), [[1, 2]]) ∧
      ∃ error,
        serveEd25519ProviderOnce recorder none (encodeFrame request) [] = (.error error, []) :=
  ⟨_, rfl, (serve_guarded recorder []).1 signOperation [7] [1, 2] _ rfl,
    (serve_guarded recorder []).2 none _ nofun⟩

end Disp.Keystore
