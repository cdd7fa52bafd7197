import Diem.Crypto.Noise
import Diem.Theory.Runs
import Diem.Theory.Monads

/-!
# The handshake agrees, and the session carries messages

An initiator and a responder that run `Noise_IK_25519_AESGCM_SHA256` with
each other, over any primitives with the laws of `Crypto.DiffieHellman` and
`Crypto.Aead`, end with sessions whose keys are crossed: what one writes with,
the other reads with. Each then reads, in order, the messages the other
wrote, in either direction and in any interleaving of the two.

The proof goes through what the two parties agree on. `firstMessage` and
`secondMessage` compute each message, with the rolling hash and chaining key
after it, from the values both sides hold once the Diffie-Hellman secrets are
equal; the initiator's functions compute them from its private keys, and the
responder's parse them back from its own (`initiateConnection_eq`,
`parseClientInitMessage_firstMessage`, `respondToClient_eq`,
`finalizeConnection_secondMessage`). The commutativity of Diffie-Hellman is
used only where the two are put together (`handshake_agrees`).

After the handshake, a message sent from one session to the other
(`NoiseSession.transmit`) is read back as long as the writer's key and nonce
are the reader's (`Mirrored`), and this holds of the channel in both
directions along every run (`ChannelOk`, `trace_send`).
-/

namespace Diem

namespace Noise

variable {κ : Type} (P : Primitives κ)

/-! ### Key derivation -/

/-- The two 32-byte halves of the 64 bytes HKDF-SHA-256 derives from the
chaining key `ck` and the input key material `ikm`. -/
def kdf (ck ikm : List UInt8) : List UInt8 × List UInt8 :=
  ((P.sha256.expand (P.sha256.extract (some ck) ikm) [] 64).take 32,
    (P.sha256.expand (P.sha256.extract (some ck) ikm) [] 64).drop 32)

theorem hkdf_none (ck : List UInt8) : hkdf P ck none = .ok (kdf P ck []) := by
  simp [hkdf, Hkdf.extractThenExpandNoIkm, Hkdf.expand, P.sha256.length_extract, kdf]

theorem hkdf_some {ck ikm : List UInt8} (hikm : Hkdf.MINIMUM_SEED_LENGTH ≤ ikm.length) :
    hkdf P ck (some ikm) = .ok (kdf P ck ikm) := by
  have hne : ikm.isEmpty = false := by
    rw [List.isEmpty_eq_false_iff, ← List.length_pos_iff]
    exact lt_of_lt_of_le (by decide) hikm
  simp [hkdf, hne, Hkdf.extractThenExpand, Hkdf.extract, Hkdf.expand, P.sha256.length_extract, kdf,
    not_lt.mpr hikm]

/-- Mixing a Diffie-Hellman secret into the chaining key never fails: the
secret is long enough for HKDF. -/
theorem mixKey_dh (ck : List UInt8) (a : κ) (p : PublicKey) :
    mixKey P ck (P.x25519.dh a p) = .ok (kdf P ck (P.x25519.dh a p)) :=
  hkdf_some P (by rw [P.x25519.length_dh]; decide)

/-! ### The two messages -/

/-- The first message as both parties compute it, from what they agree on: the
prologue, the responder's static key `rs`, the initiator's ephemeral and static
keys `e` and `s`, the secrets `es` and `ss`, and the payload. The rolling hash
and the chaining key after it, and the message. -/
def firstMessage (prologue : List UInt8) (rs e s : PublicKey) (es ss payload : List UInt8) :
    List UInt8 × List UInt8 × List UInt8 :=
  let h₁ := mixHash P (mixHash P (mixHash P PROTOCOL_NAME prologue) rs.bytes) e.bytes
  let encryptedStatic := P.aead.encrypt (kdf P PROTOCOL_NAME es).2 zeroNonce h₁ s.bytes
  let h₂ := mixHash P h₁ encryptedStatic
  let keys := kdf P (kdf P PROTOCOL_NAME es).1 ss
  let encryptedPayload := P.aead.encrypt keys.2 zeroNonce h₂ payload
  (mixHash P h₂ encryptedPayload, keys.1, e.bytes ++ encryptedStatic ++ encryptedPayload)

/-- The second message from the rolling hash `h` and chaining key `ck` after
the first, the responder's ephemeral key `e`, the secrets `ee` and `se`, and
the payload: the message and the two keys split from the last chaining key. -/
def secondMessage (h ck : List UInt8) (e : PublicKey) (ee se payload : List UInt8) :
    List UInt8 × List UInt8 × List UInt8 :=
  let keys := kdf P (kdf P ck ee).1 se
  let encryptedPayload := P.aead.encrypt keys.2 zeroNonce (mixHash P h e.bytes) payload
  (e.bytes ++ encryptedPayload, (kdf P keys.1 []).1, (kdf P keys.1 []).2)

theorem length_firstMessage (prologue : List UInt8) (rs e s : PublicKey) (es ss payload : List UInt8) :
    (firstMessage P prologue rs e s es ss payload).2.2.length = handshakeInitMsgLen payload.length := by
  simp [firstMessage, handshakeInitMsgLen, encryptedLen, e.length_bytes, s.length_bytes]
  omega

theorem length_secondMessage (h ck : List UInt8) (e : PublicKey) (ee se payload : List UInt8) :
    (secondMessage P h ck e ee se payload).1.length = handshakeRespMsgLen payload.length := by
  simp [secondMessage, handshakeRespMsgLen, encryptedLen, e.length_bytes]

/-! ### Each side's computation -/

variable (c : NoiseConfig κ)

theorem initiateConnection_eq (e : κ) (prologue : List UInt8) (rs : PublicKey) (payload : Option (List UInt8))
    (len : ℕ) (hmax : handshakeInitMsgLen ((payload.map List.length).getD 0) ≤ MAX_SIZE_NOISE_MSG)
    (hbuf : handshakeInitMsgLen ((payload.map List.length).getD 0) ≤ len) :
    let m := firstMessage P prologue rs (P.x25519.pub e) (c.publicKey P) (P.x25519.dh e rs)
      (P.x25519.dh c.privateKey rs) (payload.getD [])
    initiateConnection P c e prologue rs payload len = .ok (⟨m.1, m.2.1, e, rs⟩, m.2.2) := by
  simp [initiateConnection, firstMessage, mixKey_dh, not_lt.mpr hmax, not_lt.mpr hbuf]

/-- The responder reads the first message back with its own private key, when
the secrets it computes are the ones the message was made with. -/
theorem parseClientInitMessage_firstMessage (prologue payload : List UInt8) (e s : PublicKey)
    (hmax : handshakeInitMsgLen payload.length ≤ MAX_SIZE_NOISE_MSG) :
    let m := firstMessage P prologue (c.publicKey P) e s (P.x25519.dh c.privateKey e)
      (P.x25519.dh c.privateKey s) payload
    parseClientInitMessage P c prologue m.2.2 = .ok (s, ⟨m.1, m.2.1, s, e⟩, payload) := by
  intro m
  have hlen : ¬ MAX_SIZE_NOISE_MSG < m.2.2.length := by
    rw [length_firstMessage]
    omega
  have hstatic : ∀ k h, (P.aead.encrypt k zeroNonce h s.bytes).length = PUBLIC_KEY_SIZE + AES_GCM_TAGLEN := by
    intro k h
    rw [Crypto.Aead.length_encrypt, s.length_bytes]
  simp only [parseClientInitMessage, gt_iff_lt, hlen, if_false]
  simp [m, firstMessage, readPublicKey_append, readExact_append _ (hstatic _ _), mixKey_dh,
    Crypto.Aead.decrypt_encrypt]

theorem respondToClient_eq (e : κ) (hs : ResponderHandshakeState) (payload : Option (List UInt8)) (len : ℕ)
    (hmax : handshakeRespMsgLen ((payload.map List.length).getD 0) ≤ MAX_SIZE_NOISE_MSG)
    (hbuf : handshakeRespMsgLen ((payload.map List.length).getD 0) ≤ len) :
    let m := secondMessage P hs.h hs.ck (P.x25519.pub e) (P.x25519.dh e hs.re) (P.x25519.dh e hs.rs)
      (payload.getD [])
    respondToClient P e hs payload len = .ok (NoiseSession.new m.2.2 m.2.1 hs.rs, m.1) := by
  simp [respondToClient, secondMessage, mixKey_dh, hkdf_none, not_lt.mpr hmax, not_lt.mpr hbuf]

/-- The initiator reads the second message back with its own private keys,
when the secrets it computes are the ones the message was made with. -/
theorem finalizeConnection_secondMessage (hs : InitiatorHandshakeState κ) (e : PublicKey) (payload : List UInt8)
    (hmax : handshakeRespMsgLen payload.length ≤ MAX_SIZE_NOISE_MSG) :
    let m := secondMessage P hs.h hs.ck e (P.x25519.dh hs.e e) (P.x25519.dh c.privateKey e) payload
    finalizeConnection P c hs m.1 = .ok (payload, NoiseSession.new m.2.1 m.2.2 hs.rs) := by
  intro m
  have hlen : ¬ MAX_SIZE_NOISE_MSG < m.1.length := by
    rw [length_secondMessage]
    omega
  simp only [finalizeConnection, gt_iff_lt, hlen, if_false]
  simp [m, secondMessage, readPublicKey_append, mixKey_dh, hkdf_none, Crypto.Aead.decrypt_encrypt]

/-! ### The session -/

namespace NoiseSession

theorem writeMessageInPlace_eq {s : NoiseSession} {message : List UInt8} (hvalid : s.valid = true)
    (hlen : message.length ≤ MAX_SIZE_NOISE_MSG - AES_GCM_TAGLEN) (hnonce : s.writeNonce < U64_MAX) :
    s.writeMessageInPlace P message =
      .ok ({ s with writeNonce := s.writeNonce + 1 },
        P.aead.encryptDetached s.writeKey (sessionNonce s.writeNonce) [] message) := by
  have hroom : ¬ U64_MAX < s.writeNonce + 1 := by omega
  simp [writeMessageInPlace, hvalid, not_lt.mpr hlen, hroom]

/-- A session reads what was written with its read key and nonce: the
ciphertext followed by its tag. -/
theorem readMessageInPlace_encryptDetached {s : NoiseSession} {key : List UInt8} {nonce : ℕ}
    {message : List UInt8} (hvalid : s.valid = true) (hkey : key = s.readKey) (hnonce : nonce = s.readNonce)
    (hlen : message.length ≤ MAX_SIZE_NOISE_MSG - AES_GCM_TAGLEN) (hroom : nonce < U64_MAX) :
    let sealed := P.aead.encryptDetached key (sessionNonce nonce) [] message
    s.readMessageInPlace P (sealed.1 ++ sealed.2) = ({ s with readNonce := s.readNonce + 1 }, .ok message) := by
  intro sealed
  have hct : sealed.1.length = message.length := P.aead.length_encryptDetached_fst _ _ _ _
  have htag : sealed.2.length = AES_GCM_TAGLEN := P.aead.length_encryptDetached_snd _ _ _ _
  have hsplit : (sealed.1 ++ sealed.2).length - AES_GCM_TAGLEN = sealed.1.length := by
    rw [List.length_append, htag]
    omega
  have hshort : ¬ (sealed.1 ++ sealed.2).length < AES_GCM_TAGLEN := by
    rw [List.length_append, htag]
    omega
  have hlong : ¬ MAX_SIZE_NOISE_MSG < (sealed.1 ++ sealed.2).length := by
    rw [List.length_append, htag, hct]
    unfold MAX_SIZE_NOISE_MSG AES_GCM_TAGLEN at *
    omega
  have hnext : ¬ U64_MAX < s.readNonce + 1 := by omega
  subst hkey hnonce
  simp only [readMessageInPlace, hvalid, Bool.not_true, Bool.false_eq_true, if_false, gt_iff_lt, hlong, hshort,
    hsplit, List.take_left, List.drop_left, sealed, P.aead.decryptDetached_encryptDetached, hnext]

/-- A message passed from `writer` to `reader`: what `write_message_in_place`
makes of it, the ciphertext followed by its tag, is given to
`read_message_in_place`. The answer is what the reader obtains. -/
def transmit (writer reader : NoiseSession) (message : List UInt8) :
    Except NoiseError (List UInt8) × NoiseSession × NoiseSession :=
  match writer.writeMessageInPlace P message with
  | .error e => (.error e, writer, reader)
  | .ok (writer', ciphertext, authenticationTag) =>
    let (reader', plaintext) := reader.readMessageInPlace P (ciphertext ++ authenticationTag)
    (plaintext, writer', reader')

/-- `reader` reads what `writer` writes: both are valid, and the writer's key
and nonce are the reader's. -/
structure Mirrored (writer reader : NoiseSession) : Prop where
  valid_writer : writer.valid = true
  valid_reader : reader.valid = true
  key_eq : writer.writeKey = reader.readKey
  nonce_eq : writer.writeNonce = reader.readNonce

/-- A message passed moves both nonces of its direction on by one. -/
theorem Mirrored.advance {writer reader : NoiseSession} (h : Mirrored writer reader) :
    Mirrored { writer with writeNonce := writer.writeNonce + 1 } { reader with readNonce := reader.readNonce + 1 } :=
  ⟨h.valid_writer, h.valid_reader, h.key_eq, congrArg (· + 1) h.nonce_eq⟩

/-- The other direction does not see it: it reads no field of either that the
message changed. -/
theorem Mirrored.frame {writer reader : NoiseSession} (h : Mirrored writer reader) (m n : ℕ) :
    Mirrored { writer with readNonce := m } { reader with writeNonce := n } :=
  ⟨h.valid_writer, h.valid_reader, h.key_eq, h.nonce_eq⟩

theorem transmit_of_mirrored {writer reader : NoiseSession} {message : List UInt8} (h : Mirrored writer reader)
    (hlen : message.length ≤ MAX_SIZE_NOISE_MSG - AES_GCM_TAGLEN) (hnonce : writer.writeNonce < U64_MAX) :
    transmit P writer reader message =
      (.ok message, { writer with writeNonce := writer.writeNonce + 1 },
        { reader with readNonce := reader.readNonce + 1 }) := by
  rw [transmit, writeMessageInPlace_eq P h.valid_writer hlen hnonce]
  simp only [readMessageInPlace_encryptDetached P h.valid_reader h.key_eq h.nonce_eq hlen hnonce]

end NoiseSession

open NoiseSession

/-- A direction of the channel between an initiator's session and a responder's. -/
inductive Direction where
  | initiatorToResponder
  | responderToInitiator
  deriving DecidableEq, Repr

/-- The channel between the initiator's session and the responder's, on one
message in one direction: the answer is what the receiving side reads. -/
def send (sessions : NoiseSession × NoiseSession) (m : Direction × List UInt8) :
    Except NoiseError (List UInt8) × (NoiseSession × NoiseSession) :=
  match m.1 with
  | .initiatorToResponder =>
    let (answer, initiator, responder) := transmit P sessions.1 sessions.2 m.2
    (answer, initiator, responder)
  | .responderToInitiator =>
    let (answer, responder, initiator) := transmit P sessions.2 sessions.1 m.2
    (answer, initiator, responder)

/-- The channel's invariant before the messages `rest`: each session reads
what the other writes, every message fits in a frame, and each writer's nonce
leaves room for the messages it has still to send. -/
structure ChannelOk (sessions : NoiseSession × NoiseSession) (rest : List (Direction × List UInt8)) : Prop where
  toResponder : Mirrored sessions.1 sessions.2
  toInitiator : Mirrored sessions.2 sessions.1
  fits : ∀ m ∈ rest, m.2.length ≤ MAX_SIZE_NOISE_MSG - AES_GCM_TAGLEN
  budget_initiator : sessions.1.writeNonce + rest.countP (·.1 = .initiatorToResponder) ≤ U64_MAX
  budget_responder : sessions.2.writeNonce + rest.countP (·.1 = .responderToInitiator) ≤ U64_MAX

theorem send_of_channelOk {s : NoiseSession × NoiseSession} {m : Direction × List UInt8}
    {rest : List (Direction × List UInt8)} (h : ChannelOk s (m :: rest)) :
    (send P s m).1 = .ok m.2 ∧ ChannelOk (send P s m).2 rest := by
  obtain ⟨d, message⟩ := m
  have hfits : message.length ≤ MAX_SIZE_NOISE_MSG - AES_GCM_TAGLEN := h.fits _ List.mem_cons_self
  have hrest : ∀ m ∈ rest, m.2.length ≤ MAX_SIZE_NOISE_MSG - AES_GCM_TAGLEN :=
    fun m hm => h.fits m (List.mem_cons_of_mem _ hm)
  have hi := h.budget_initiator
  have hr := h.budget_responder
  -- the message spends the budget of its own direction only
  cases d with
  | initiatorToResponder =>
    simp only [List.countP_cons, decide_true, decide_false, reduceCtorEq, if_true, if_false] at hi hr
    simp only [send, transmit_of_mirrored P h.toResponder hfits (by omega)]
    exact ⟨trivial, h.toResponder.advance, h.toInitiator.frame _ _, hrest, by dsimp only; omega, hr⟩
  | responderToInitiator =>
    simp only [List.countP_cons, decide_true, decide_false, reduceCtorEq, if_true, if_false] at hi hr
    simp only [send, transmit_of_mirrored P h.toInitiator hfits (by omega)]
    exact ⟨trivial, h.toResponder.frame _ _, h.toInitiator.advance, hrest, hi, by dsimp only; omega⟩

/-- **The channel delivers.** Along every run from a channel whose invariant
holds, in any interleaving of the two directions, each message is read by the
other side as it was written. -/
theorem trace_send {s : NoiseSession × NoiseSession} {ms : List (Direction × List UInt8)} (h : ChannelOk s ms) :
    ∀ t ∈ Mealy.trace (send P) s ms, t.output = .ok t.input.2 := by
  refine Mealy.forall_trace_of_remaining (send P) ?_ ?_ h
  · intro s m rest hs
    exact (send_of_channelOk P hs).2
  · intro s m rest hs
    exact (send_of_channelOk P hs).1

/-! ### Agreement -/

/-- Two fresh sessions with the keys the other way round read what each other write. -/
theorem mirrored_new (k₁ k₂ : List UInt8) (a b : PublicKey) :
    Mirrored (NoiseSession.new k₁ k₂ a) (NoiseSession.new k₂ k₁ b) :=
  ⟨rfl, rfl, rfl, rfl⟩

/-- The handshake between an initiator with configuration `ci` and ephemeral
key `ei` and a responder with `cr` and `er`, on a prologue, payloads `p1` and
`p2` and response buffers of `len1` and `len2` bytes, agrees: the responder
reads the initiator's static key and payload from the first message, the
initiator reads the responder's payload from the second, the sessions' keys are
crossed and each names the other's static key, and the channel between the
two sessions then delivers, in both directions and in any interleaving, every
sequence of messages that fit in a frame and in the nonces. -/
def HandshakeAgrees (ci cr : NoiseConfig κ) (ei er : κ) (prologue : List UInt8) (p1 p2 : Option (List UInt8))
    (len1 len2 : ℕ) : Prop :=
  ∃ st m1 rst m2 sr si,
    initiateConnection P ci ei prologue (cr.publicKey P) p1 len1 = .ok (st, m1) ∧
    parseClientInitMessage P cr prologue m1 = .ok (ci.publicKey P, rst, p1.getD []) ∧
    respondToClient P er rst p2 len2 = .ok (sr, m2) ∧
    finalizeConnection P ci st m2 = .ok (p2.getD [], si) ∧
    si.writeKey = sr.readKey ∧ si.readKey = sr.writeKey ∧
    si.remotePublicKey = cr.publicKey P ∧ sr.remotePublicKey = ci.publicKey P ∧
    ∀ ms : List (Direction × List UInt8), (∀ m ∈ ms, m.2.length ≤ MAX_SIZE_NOISE_MSG - AES_GCM_TAGLEN) →
      ms.countP (·.1 = .initiatorToResponder) ≤ U64_MAX → ms.countP (·.1 = .responderToInitiator) ≤ U64_MAX →
      ∀ t ∈ Mealy.trace (send P) (si, sr) ms, t.output = .ok t.input.2

theorem handshake_agrees (ci cr : NoiseConfig κ) (ei er : κ) (prologue : List UInt8) (p1 p2 : Option (List UInt8))
    (len1 len2 : ℕ) (hmax1 : handshakeInitMsgLen ((p1.map List.length).getD 0) ≤ MAX_SIZE_NOISE_MSG)
    (hbuf1 : handshakeInitMsgLen ((p1.map List.length).getD 0) ≤ len1)
    (hmax2 : handshakeRespMsgLen ((p2.map List.length).getD 0) ≤ MAX_SIZE_NOISE_MSG)
    (hbuf2 : handshakeRespMsgLen ((p2.map List.length).getD 0) ≤ len2) :
    HandshakeAgrees P ci cr ei er prologue p1 p2 len1 len2 := by
  have hpayload : ∀ p : Option (List UInt8), (p.map List.length).getD 0 = (p.getD []).length := by
    intro p
    cases p <;> rfl
  -- each secret as the other side computes it
  have hes : P.x25519.dh ei (cr.publicKey P) = P.x25519.dh cr.privateKey (P.x25519.pub ei) :=
    P.x25519.dh_comm ei cr.privateKey
  have hss : P.x25519.dh ci.privateKey (cr.publicKey P) = P.x25519.dh cr.privateKey (ci.publicKey P) :=
    P.x25519.dh_comm ci.privateKey cr.privateKey
  have hee : P.x25519.dh er (P.x25519.pub ei) = P.x25519.dh ei (P.x25519.pub er) := P.x25519.dh_comm er ei
  have hse : P.x25519.dh er (ci.publicKey P) = P.x25519.dh ci.privateKey (P.x25519.pub er) :=
    P.x25519.dh_comm er ci.privateKey
  -- the first message, as the initiator writes it and the responder reads it
  have hinit := initiateConnection_eq P ci ei prologue (cr.publicKey P) p1 len1 hmax1 hbuf1
  rw [hes, hss] at hinit
  have hparse := parseClientInitMessage_firstMessage P cr prologue (p1.getD []) (P.x25519.pub ei) (ci.publicKey P)
    (by rw [← hpayload]; exact hmax1)
  set m₁ := firstMessage P prologue (cr.publicKey P) (P.x25519.pub ei) (ci.publicKey P)
    (P.x25519.dh cr.privateKey (P.x25519.pub ei)) (P.x25519.dh cr.privateKey (ci.publicKey P)) (p1.getD [])
  -- the second message, as the responder writes it and the initiator reads it
  have hresp := respondToClient_eq P er ⟨m₁.1, m₁.2.1, ci.publicKey P, P.x25519.pub ei⟩ p2 len2 hmax2 hbuf2
  dsimp only at hresp
  rw [hee, hse] at hresp
  have hfin := finalizeConnection_secondMessage P ci ⟨m₁.1, m₁.2.1, ei, cr.publicKey P⟩ (P.x25519.pub er)
    (p2.getD []) (by rw [← hpayload]; exact hmax2)
  refine ⟨_, _, _, _, _, _, hinit, hparse, hresp, hfin, rfl, rfl, rfl, rfl, ?_⟩
  intro ms hfits hi hr
  exact trace_send P ⟨mirrored_new _ _ _ _, mirrored_new _ _ _ _, hfits, by simpa [NoiseSession.new] using hi,
    by simpa [NoiseSession.new] using hr⟩

/-- A handshake with a prologue and a payload in each direction, over the
plain primitives. -/
theorem handshake_agrees_plain :
    handshakeInitMsgLen 3 ≤ MAX_SIZE_NOISE_MSG ∧ handshakeRespMsgLen 2 ≤ MAX_SIZE_NOISE_MSG ∧
      HandshakeAgrees plainPrimitives ⟨()⟩ ⟨()⟩ () () [7] (some [1, 2, 3]) (some [4, 5]) (handshakeInitMsgLen 3)
        (handshakeRespMsgLen 2) :=
  ⟨by decide, by decide,
    handshake_agrees plainPrimitives ⟨()⟩ ⟨()⟩ () () [7] (some [1, 2, 3]) (some [4, 5]) _ _ (by decide) le_rfl
      (by decide) le_rfl⟩

end Noise

end Diem
