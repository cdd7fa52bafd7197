import Diem.Theory.Crypto
import Diem.Types.Basic

/-!
# The Noise IK handshake

`crypto/crypto/src/noise.rs`: the handshake `Noise_IK_25519_AESGCM_SHA256` and
the session it produces, with the HKDF of `crypto/crypto/src/hkdf.rs`.

The initiator knows the responder's static public key. Its first message
carries an ephemeral public key, its own static public key encrypted, and a
payload (`-> e, es, s, ss`); the responder answers with its own ephemeral key
and a payload (`<- e, ee, se`). Both sides keep a rolling hash `h`, the
associated data of every encryption, and a chaining key `ck`, which each
Diffie-Hellman output is mixed into; the last chaining key is split into the two
session keys.

x25519, AES-256-GCM and SHA-256 with HKDF are abstract (`X25519`,
`Crypto.Aead`, `Sha256`, together `Primitives`), and the random ephemeral keys
are arguments. AES-GCM fails only on plaintexts of more than 2^36 bytes, far
beyond the 65535-byte messages here, so the model's encryption always succeeds.
A response buffer is given by its length, and a cursor read past the end is
`NoiseError::MsgTooShort`. The two `u64` nonces are checked against `u64::MAX`
as `checked_add` does.
-/

namespace Diem

namespace Noise

/-- `MAX_SIZE_NOISE_MSG`: the largest Noise message. -/
def MAX_SIZE_NOISE_MSG : ℕ := 65535

/-- `AES_GCM_TAGLEN`. -/
def AES_GCM_TAGLEN : ℕ := 16

/-- `x25519::PUBLIC_KEY_SIZE`. -/
def PUBLIC_KEY_SIZE : ℕ := 32

/-- `AES_NONCE_SIZE`. -/
def AES_NONCE_SIZE : ℕ := 12

/-- `PROTOCOL_NAME`, padded with four zero bytes to the 32 bytes of a hash. -/
def PROTOCOL_NAME : List UInt8 := (String.toUTF8 "Noise_IK_25519_AESGCM_SHA256").toList ++ [0, 0, 0, 0]

/-- `encrypted_len`. -/
def encryptedLen (plaintextLen : ℕ) : ℕ := plaintextLen + AES_GCM_TAGLEN

/-- `handshake_init_msg_len`: an ephemeral key, the encrypted static key and
the encrypted payload. -/
def handshakeInitMsgLen (payloadLen : ℕ) : ℕ :=
  PUBLIC_KEY_SIZE + encryptedLen PUBLIC_KEY_SIZE + encryptedLen payloadLen

/-- `handshake_resp_msg_len`: an ephemeral key and the encrypted payload. -/
def handshakeRespMsgLen (payloadLen : ℕ) : ℕ := PUBLIC_KEY_SIZE + encryptedLen payloadLen

/-- `NoiseError`. -/
inductive NoiseError where
  /-- The received message is too short to contain the expected data. -/
  | MsgTooShort
  /-- HKDF has failed. -/
  | Hkdf
  /-- Encryption has failed. -/
  | Encrypt
  /-- The received data could not be decrypted. -/
  | Decrypt
  /-- The public key received is of the wrong format. -/
  | WrongPublicKeyReceived
  /-- The session was closed after a decryption error. -/
  | SessionClosed
  /-- The payload to send is too large. -/
  | PayloadTooLarge
  /-- The message received is too large. -/
  | ReceivedMsgTooLarge
  /-- The response buffer is too small. -/
  | ResponseBufferTooSmall
  /-- The nonce exceeds `u64::MAX`. -/
  | NonceOverflow
  deriving DecidableEq, Repr

/-- `x25519::PublicKey`: 32 bytes. -/
@[ext] structure PublicKey where
  /-- `as_slice`. -/
  bytes : List UInt8
  /-- A key has `PUBLIC_KEY_SIZE` bytes. -/
  length_bytes : bytes.length = PUBLIC_KEY_SIZE

instance : DecidableEq PublicKey := fun a b => decidable_of_iff (a.bytes = b.bytes) PublicKey.ext_iff.symm

/-- `x25519::PublicKey::try_from(&[u8])`. -/
def PublicKey.tryFrom (bytes : List UInt8) : Option PublicKey :=
  if h : bytes.length = PUBLIC_KEY_SIZE then some ⟨bytes, h⟩ else none

@[simp] theorem PublicKey.tryFrom_bytes (k : PublicKey) : PublicKey.tryFrom k.bytes = some k := by
  simp [PublicKey.tryFrom, k.length_bytes]

/-- `Cursor::read_exact` of `n` bytes: the bytes and the rest. -/
def readExact (n : ℕ) (bytes : List UInt8) : Option (List UInt8 × List UInt8) :=
  if n ≤ bytes.length then some (bytes.take n, bytes.drop n) else none

theorem readExact_append {n : ℕ} {front : List UInt8} (rest : List UInt8) (hfront : front.length = n) :
    readExact n (front ++ rest) = some (front, rest) := by
  have henough : n ≤ (front ++ rest).length := by simp [hfront]
  rw [readExact, if_pos henough, List.take_left' hfront, List.drop_left' hfront]

/-- `read_exact` into a `[u8; PUBLIC_KEY_SIZE]`, then `x25519::PublicKey::from`. -/
def readPublicKey (bytes : List UInt8) : Option (PublicKey × List UInt8) :=
  if h : PUBLIC_KEY_SIZE ≤ bytes.length then
    some (⟨bytes.take PUBLIC_KEY_SIZE, by rw [List.length_take]; omega⟩, bytes.drop PUBLIC_KEY_SIZE)
  else none

theorem readPublicKey_append (k : PublicKey) (rest : List UInt8) :
    readPublicKey (k.bytes ++ rest) = some (k, rest) := by
  have henough : PUBLIC_KEY_SIZE ≤ (k.bytes ++ rest).length := by simp [k.length_bytes]
  rw [readPublicKey, dif_pos henough, Option.some.injEq, Prod.mk.injEq]
  exact ⟨PublicKey.ext (List.take_left' k.length_bytes), List.drop_left' k.length_bytes⟩

/-- `Option::ok_or`. -/
def okOr {α : Type} (o : Option α) (e : NoiseError) : Except NoiseError α :=
  match o with
  | some a => .ok a
  | none => .error e

@[simp] theorem okOr_some {α : Type} (a : α) (e : NoiseError) : okOr (some a) e = .ok a := rfl

@[simp] theorem okOr_none {α : Type} (e : NoiseError) : okOr (none : Option α) e = .error e := rfl

/-- x25519: a Diffie-Hellman function with 32-byte secrets. -/
structure X25519 (κ : Type) extends Crypto.DiffieHellman κ PublicKey (List UInt8) where
  /-- A shared secret has 32 bytes. -/
  length_dh : ∀ a p, (dh a p).length = 32

/-- SHA-256, and the two halves of HKDF-SHA-256 that `hkdf::Hkdf` computes. -/
structure Sha256 where
  /-- `sha2::Sha256::digest`. -/
  digest : List UInt8 → List UInt8
  /-- HKDF-Extract: the pseudorandom key of a salt and input key material. -/
  extract : Option (List UInt8) → List UInt8 → List UInt8
  /-- HKDF-Expand: `length` bytes from a pseudorandom key and an info string. -/
  expand : List UInt8 → List UInt8 → ℕ → List UInt8
  /-- A pseudorandom key is one SHA-256 output long. -/
  length_extract : ∀ salt ikm, (extract salt ikm).length = 32

/-- The primitives of `Noise_IK_25519_AESGCM_SHA256`. -/
structure Primitives (κ : Type) where
  /-- x25519. -/
  x25519 : X25519 κ
  /-- AES-256-GCM. -/
  aead : Crypto.Aead AES_GCM_TAGLEN
  /-- SHA-256. -/
  sha256 : Sha256

/-- Primitives that hide nothing, to run the handshake on: a constant secret
and hash, and encryption that appends a zero tag. -/
def plainPrimitives : Primitives Unit where
  x25519 :=
    { pub := fun _ => ⟨List.replicate 32 0, by simp [PUBLIC_KEY_SIZE]⟩
      dh := fun _ _ => List.replicate 32 0
      dh_comm := fun _ _ => rfl
      length_dh := fun _ _ => by simp }
  aead :=
    { encryptDetached := fun _ _ _ msg => (msg, List.replicate AES_GCM_TAGLEN 0)
      decryptDetached := fun _ _ _ ciphertext tag =>
        if tag = List.replicate AES_GCM_TAGLEN 0 then some ciphertext else none
      length_encryptDetached_fst := fun _ _ _ _ => rfl
      length_encryptDetached_snd := fun _ _ _ _ => by simp
      decryptDetached_encryptDetached := fun _ _ _ _ => if_pos rfl
      encryptDetached_of_decryptDetached := by
        intro _ _ _ ciphertext tag msg h
        by_cases htag : tag = List.replicate AES_GCM_TAGLEN 0
        · rw [if_pos htag, Option.some.injEq] at h
          rw [h, htag]
        · rw [if_neg htag] at h
          cases h }
  sha256 :=
    { digest := fun _ => List.replicate 32 0
      extract := fun _ _ => List.replicate 32 0
      expand := fun _ _ length => List.replicate length 0
      length_extract := fun _ _ => by simp }

/-! ### HKDF (`hkdf.rs`) -/

/-- `HkdfError`. -/
inductive HkdfError where
  /-- The requested output is empty or too long. -/
  | InvalidOutputLengthError
  /-- The pseudorandom key is shorter than a hash. -/
  | WrongPseudorandomKeyError
  /-- An HMAC key error. -/
  | MACKeyError
  /-- The input key material is shorter than `MINIMUM_SEED_LENGTH`. -/
  | InvalidSeedLengthError
  deriving DecidableEq, Repr

namespace Hkdf

variable (H : Sha256)

/-- `MINIMUM_SEED_LENGTH`. -/
def MINIMUM_SEED_LENGTH : ℕ := 16

/-- `Hkdf::extract`. -/
def extract (salt : Option (List UInt8)) (ikm : List UInt8) : Except HkdfError (List UInt8) :=
  if ikm.length < MINIMUM_SEED_LENGTH then .error .InvalidSeedLengthError else .ok (H.extract salt ikm)

/-- `Hkdf::expand`: `from_prk` rejects a key shorter than a hash, and the
output is at most 255 hashes long. -/
def expand (prk : List UInt8) (info : Option (List UInt8)) (length : ℕ) : Except HkdfError (List UInt8) :=
  if length = 0 then .error .InvalidOutputLengthError
  else if prk.length < 32 then .error .WrongPseudorandomKeyError
  else if length > 32 * 255 then .error .InvalidOutputLengthError
  else .ok (H.expand prk (info.getD []) length)

/-- `Hkdf::extract_then_expand`. -/
def extractThenExpand (salt : Option (List UInt8)) (ikm : List UInt8) (info : Option (List UInt8)) (length : ℕ) :
    Except HkdfError (List UInt8) := do
  let prk ← extract H salt ikm
  expand H prk info length

/-- `Hkdf::extract_then_expand_no_ikm`. -/
def extractThenExpandNoIkm (salt : Option (List UInt8)) (info : Option (List UInt8)) (length : ℕ) :
    Except HkdfError (List UInt8) :=
  expand H (H.extract salt []) info length

end Hkdf

/-! ### The handshake -/

variable {κ : Type} (P : Primitives κ)

/-- `hash`: SHA-256. -/
def hash (data : List UInt8) : List UInt8 := P.sha256.digest data

/-- `hkdf`: 64 bytes from the chaining key and a Diffie-Hellman output, split
in two keys of 32 bytes. -/
def hkdf (ck : List UInt8) (dhOutput : Option (List UInt8)) : Except NoiseError (List UInt8 × List UInt8) :=
  let dhOutput := dhOutput.getD []
  let hkdfOutput :=
    if dhOutput.isEmpty then Hkdf.extractThenExpandNoIkm P.sha256 (some ck) none 64
    else Hkdf.extractThenExpand P.sha256 (some ck) dhOutput none 64
  match hkdfOutput with
  | .error _ => .error .Hkdf
  | .ok hkdfOutput => .ok (hkdfOutput.take 32, hkdfOutput.drop 32)

/-- `mix_hash`. -/
def mixHash (h data : List UInt8) : List UInt8 := hash P (h ++ data)

/-- `mix_key`: the new chaining key and the key to encrypt with. -/
def mixKey (ck dhOutput : List UInt8) : Except NoiseError (List UInt8 × List UInt8) := hkdf P ck (some dhOutput)

/-- The all-zero nonce of the handshake's encryptions. -/
def zeroNonce : List UInt8 := List.replicate AES_NONCE_SIZE 0

/-- `NoiseConfig`: our static private key; `new` derives the public key from it. -/
structure NoiseConfig (κ : Type) where
  /-- `private_key`. -/
  privateKey : κ

/-- `NoiseConfig::public_key`. -/
def NoiseConfig.publicKey (c : NoiseConfig κ) : PublicKey := P.x25519.pub c.privateKey

/-- `InitiatorHandshakeState`. -/
structure InitiatorHandshakeState (κ : Type) where
  /-- The rolling hash. -/
  h : List UInt8
  /-- The chaining key. -/
  ck : List UInt8
  /-- The ephemeral private key. -/
  e : κ
  /-- The remote static key used. -/
  rs : PublicKey

/-- `ResponderHandshakeState`. -/
structure ResponderHandshakeState where
  /-- The rolling hash. -/
  h : List UInt8
  /-- The chaining key. -/
  ck : List UInt8
  /-- The remote static key received. -/
  rs : PublicKey
  /-- The remote ephemeral key received. -/
  re : PublicKey

/-- `NoiseSession`. -/
structure NoiseSession where
  /-- Cleared after a decryption failure. -/
  valid : Bool
  /-- The other peer's static public key. -/
  remotePublicKey : PublicKey
  /-- The key messages to the other peer are encrypted with. -/
  writeKey : List UInt8
  /-- Its nonce. -/
  writeNonce : ℕ
  /-- The key messages from the other peer are decrypted with. -/
  readKey : List UInt8
  /-- Its nonce. -/
  readNonce : ℕ

/-- `NoiseSession::new`. -/
def NoiseSession.new (writeKey readKey : List UInt8) (remotePublicKey : PublicKey) : NoiseSession :=
  ⟨true, remotePublicKey, writeKey, 0, readKey, 0⟩

variable (c : NoiseConfig κ)

/-- `initiate_connection`: the first message (`-> e, es, s, ss` and the
payload), written into a buffer of `responseBufferLen` bytes, with the state to
finalize with. -/
def initiateConnection (e : κ) (prologue : List UInt8) (remotePublic : PublicKey) (payload : Option (List UInt8))
    (responseBufferLen : ℕ) : Except NoiseError (InitiatorHandshakeState κ × List UInt8) := do
  let payloadLen := (payload.map List.length).getD 0
  let bufferSizeRequired := handshakeInitMsgLen payloadLen
  if bufferSizeRequired > MAX_SIZE_NOISE_MSG then throw .PayloadTooLarge
  if responseBufferLen < bufferSizeRequired then throw .ResponseBufferTooSmall
  let rs := remotePublic
  let h := mixHash P (mixHash P PROTOCOL_NAME prologue) rs.bytes
  let ePub := P.x25519.pub e
  let h := mixHash P h ePub.bytes
  let (ck, k) ← mixKey P PROTOCOL_NAME (P.x25519.dh e rs)
  let encryptedStatic := P.aead.encrypt k zeroNonce h (c.publicKey P).bytes
  let h := mixHash P h encryptedStatic
  let (ck, k) ← mixKey P ck (P.x25519.dh c.privateKey rs)
  let encryptedPayload := P.aead.encrypt k zeroNonce h (payload.getD [])
  let h := mixHash P h encryptedPayload
  pure (⟨h, ck, e, rs⟩, ePub.bytes ++ encryptedStatic ++ encryptedPayload)

/-- `finalize_connection`: the second message read (`<- e, ee, se` and the
payload), the responder's payload and the initiator's session, split from the
last chaining key. -/
def finalizeConnection (handshakeState : InitiatorHandshakeState κ) (receivedMessage : List UInt8) :
    Except NoiseError (List UInt8 × NoiseSession) := do
  if receivedMessage.length > MAX_SIZE_NOISE_MSG then throw .ReceivedMsgTooLarge
  let (re, receivedEncryptedPayload) ← okOr (readPublicKey receivedMessage) .MsgTooShort
  let h := mixHash P handshakeState.h re.bytes
  let (ck, _) ← mixKey P handshakeState.ck (P.x25519.dh handshakeState.e re)
  let (ck, k) ← mixKey P ck (P.x25519.dh c.privateKey re)
  let receivedPayload ← okOr (P.aead.decrypt k zeroNonce h receivedEncryptedPayload) .Decrypt
  let (k1, k2) ← hkdf P ck none
  pure (receivedPayload, NoiseSession.new k1 k2 handshakeState.rs)

/-- `parse_client_init_message`: the first message read (`<- e, es, s, ss`
and the payload), the initiator's static key, the state to respond with, and
the initiator's payload. -/
def parseClientInitMessage (prologue receivedMessage : List UInt8) :
    Except NoiseError (PublicKey × ResponderHandshakeState × List UInt8) := do
  if receivedMessage.length > MAX_SIZE_NOISE_MSG then throw .ReceivedMsgTooLarge
  let h := mixHash P (mixHash P PROTOCOL_NAME prologue) (c.publicKey P).bytes
  let (re, rest) ← okOr (readPublicKey receivedMessage) .MsgTooShort
  let h := mixHash P h re.bytes
  let (ck, k) ← mixKey P PROTOCOL_NAME (P.x25519.dh c.privateKey re)
  let (encryptedRemoteStatic, receivedEncryptedPayload) ←
    okOr (readExact (PUBLIC_KEY_SIZE + AES_GCM_TAGLEN) rest) .MsgTooShort
  let rs ← okOr (P.aead.decrypt k zeroNonce h encryptedRemoteStatic) .Decrypt
  let rs ← okOr (PublicKey.tryFrom rs) .WrongPublicKeyReceived
  let h := mixHash P h encryptedRemoteStatic
  let (ck, k) ← mixKey P ck (P.x25519.dh c.privateKey rs)
  let receivedPayload ← okOr (P.aead.decrypt k zeroNonce h receivedEncryptedPayload) .Decrypt
  let h := mixHash P h receivedEncryptedPayload
  pure (rs, ⟨h, ck, rs, re⟩, receivedPayload)

/-- `respond_to_client`: the second message (`-> e, ee, se` and the payload),
written into a buffer of `responseBufferLen` bytes, and the responder's
session, with the two split keys the other way round from the initiator's.
The code mixes the encrypted payload into the rolling hash once more, and
never reads it again. -/
def respondToClient (e : κ) (handshakeState : ResponderHandshakeState) (payload : Option (List UInt8))
    (responseBufferLen : ℕ) : Except NoiseError (NoiseSession × List UInt8) := do
  let payloadLen := (payload.map List.length).getD 0
  let bufferSizeRequired := handshakeRespMsgLen payloadLen
  if bufferSizeRequired > MAX_SIZE_NOISE_MSG then throw .PayloadTooLarge
  if responseBufferLen < bufferSizeRequired then throw .ResponseBufferTooSmall
  let ePub := P.x25519.pub e
  let h := mixHash P handshakeState.h ePub.bytes
  let (ck, _) ← mixKey P handshakeState.ck (P.x25519.dh e handshakeState.re)
  let (ck, k) ← mixKey P ck (P.x25519.dh e handshakeState.rs)
  let encryptedPayload := P.aead.encrypt k zeroNonce h (payload.getD [])
  let (k1, k2) ← hkdf P ck none
  pure (NoiseSession.new k2 k1 handshakeState.rs, ePub.bytes ++ encryptedPayload)

/-- `respond_to_client_and_finalize`. -/
def respondToClientAndFinalize (e : κ) (prologue receivedMessage : List UInt8) (payload : Option (List UInt8))
    (responseBufferLen : ℕ) : Except NoiseError (List UInt8 × NoiseSession × List UInt8) := do
  let (_, handshakeState, receivedPayload) ← parseClientInitMessage P c prologue receivedMessage
  let (session, response) ← respondToClient P e handshakeState payload responseBufferLen
  pure (receivedPayload, session, response)

/-! ### The session -/

/-- `u64::to_be_bytes`. -/
def toBeBytes (n : ℕ) : List UInt8 := (List.range 8).map fun i => UInt8.ofNat (n / 256 ^ (7 - i))

/-- The nonce of a session message: four zero bytes and the counter, big-endian. -/
def sessionNonce (n : ℕ) : List UInt8 := [0, 0, 0, 0] ++ toBeBytes n

namespace NoiseSession

/-- `write_message_in_place`: the session afterwards, the message encrypted in
place, and the tag. -/
def writeMessageInPlace (s : NoiseSession) (message : List UInt8) :
    Except NoiseError (NoiseSession × List UInt8 × List UInt8) := do
  if !s.valid then throw .SessionClosed
  if message.length > MAX_SIZE_NOISE_MSG - AES_GCM_TAGLEN then throw .PayloadTooLarge
  let (ciphertext, authenticationTag) := P.aead.encryptDetached s.writeKey (sessionNonce s.writeNonce) [] message
  if s.writeNonce + 1 > U64_MAX then throw .NonceOverflow
  pure ({ s with writeNonce := s.writeNonce + 1 }, ciphertext, authenticationTag)

/-- `read_message_in_place`: the session afterwards, invalid after a message
too long, too short or not authentic, and the plaintext. -/
def readMessageInPlace (s : NoiseSession) (message : List UInt8) : NoiseSession × Except NoiseError (List UInt8) :=
  if !s.valid then (s, .error .SessionClosed)
  else if message.length > MAX_SIZE_NOISE_MSG then ({ s with valid := false }, .error .ReceivedMsgTooLarge)
  else if message.length < AES_GCM_TAGLEN then ({ s with valid := false }, .error .ResponseBufferTooSmall)
  else
    let buffer := message.take (message.length - AES_GCM_TAGLEN)
    let authenticationTag := message.drop (message.length - AES_GCM_TAGLEN)
    match P.aead.decryptDetached s.readKey (sessionNonce s.readNonce) [] buffer authenticationTag with
    | none => ({ s with valid := false }, .error .Decrypt)
    | some plaintext =>
      if s.readNonce + 1 > U64_MAX then (s, .error .NonceOverflow)
      else ({ s with readNonce := s.readNonce + 1 }, .ok plaintext)

end NoiseSession

end Noise

end Diem
