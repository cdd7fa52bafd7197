import Diem.Crypto.Noise
import Diem.Theory.Runs
import Diem.Theory.Monads

/-!
# Inbound Noise upgrades

`NoiseUpgrader::upgrade_inbound` of `network/src/noise/handshake.rs`, the server
side of a connection upgrade. The client sends a prologue (its peer id and the
server key it expects) and the first Noise message, whose payload is, in
mutually authenticated networks, a timestamp. The server rejects self-dials and
messages meant for another key, authenticates the client's static key against
its trusted peers and, in `Mutual` mode, rejects timestamps not greater than the
last one it stored for that key. Then it answers and returns the session, the
client's peer id and its role.

One upgrader serves many connections at once. Each `upgrade_inbound` is a
suspended computation whose locals are its `Stage`, and it touches shared state
in three atomic sections, each an event of one machine (`step`): `receive` reads
and parses the client's bytes and the trusted peers, `checkTimestamp` is the
anti-replay block under the timestamps' write lock, and `respond` writes the
answer. The trusted peers change between any two events (`setTrustedPeers`). An
`io::Error` and the network addresses of peers are left out.
-/

namespace Diem

namespace Network

open Noise

/-- `PeerId`: the account address a peer is known by. -/
abbrev PeerId := AccountAddress

/-- `AccountAddress::LENGTH`. -/
def ADDRESS_LENGTH : ℕ := 16

/-- An address from its bytes, most significant first. -/
def addressOfBytes (bytes : List UInt8) : AccountAddress :=
  ⟨bytes.foldl (fun acc b => 256 * acc + b.toNat) 0⟩

/-- `AccountAddress::try_from(&[u8])`: exactly `LENGTH` bytes. -/
def peerIdTryFrom (bytes : List UInt8) : Option PeerId :=
  if bytes.length = ADDRESS_LENGTH then some (addressOfBytes bytes) else none

/-- `account_address::from_identity_public_key`: the last 16 bytes of the key. -/
def fromIdentityPublicKey (identityPublicKey : PublicKey) : PeerId :=
  addressOfBytes (identityPublicKey.bytes.drop (PUBLIC_KEY_SIZE - ADDRESS_LENGTH))

/-- `PeerRole`. -/
inductive PeerRole where
  | Validator
  | PreferredUpstream
  | Upstream
  | ValidatorFullNode
  | Downstream
  | Known
  | Unknown
  deriving DecidableEq, Repr

/-- `Peer`: the keys a peer may authenticate with, and its role. -/
structure Peer where
  /-- `keys`. -/
  keys : List PublicKey
  /-- `role`. -/
  role : PeerRole

/-- `PeerSet`. -/
abbrev PeerSet := AList fun _ : PeerId => Peer

/-- `u64::from_le_bytes`. -/
def fromLeBytes (bytes : List UInt8) : ℕ := bytes.foldr (fun b acc => b.toNat + 256 * acc) 0

/-- `AntiReplayTimestamps`: the last timestamp accepted for each client key. -/
structure AntiReplayTimestamps where
  /-- The map. -/
  timestamps : AList fun _ : PublicKey => ℕ

namespace AntiReplayTimestamps

/-- `TIMESTAMP_SIZE`. -/
def TIMESTAMP_SIZE : ℕ := 8

/-- `is_replay`: the timestamp is not greater than the last one stored for the key. -/
def isReplay (t : AntiReplayTimestamps) (pubkey : PublicKey) (timestamp : ℕ) : Bool :=
  match t.timestamps.lookup pubkey with
  | some lastTimestamp => decide (timestamp ≤ lastTimestamp)
  | none => false

/-- `store_timestamp`. -/
def storeTimestamp (t : AntiReplayTimestamps) (pubkey : PublicKey) (timestamp : ℕ) : AntiReplayTimestamps :=
  ⟨t.timestamps.insert pubkey timestamp⟩

@[simp] theorem lookup_storeTimestamp (t : AntiReplayTimestamps) (pubkey key : PublicKey) (timestamp : ℕ) :
    (t.storeTimestamp pubkey timestamp).timestamps.lookup key =
      if key = pubkey then some timestamp else t.timestamps.lookup key := by
  by_cases h : key = pubkey
  · subst h
    simp [storeTimestamp]
  · simp [storeTimestamp, AList.lookup_insert_ne h, h]

/-- A timestamp that is not a replay is above the one stored. -/
theorem lt_of_not_isReplay {t : AntiReplayTimestamps} {pubkey : PublicKey} {timestamp v : ℕ}
    (h : t.isReplay pubkey timestamp = false) (hv : t.timestamps.lookup pubkey = some v) : v < timestamp := by
  simp only [isReplay, hv, decide_eq_false_iff_not, not_le] at h
  exact h

end AntiReplayTimestamps

/-- `HandshakeAuthMode`; the trusted peers and the timestamps its variants
hold behind locks are the shared state of `Upgrading`. -/
inductive HandshakeAuthMode where
  /-- Both sides authenticate each other, with anti-replay timestamps. -/
  | Mutual
  /-- Clients not among the trusted peers are accepted with the peer id of their key. -/
  | MaybeMutual
  deriving DecidableEq, Repr

/-- `NoiseHandshakeError`, the variants `upgrade_inbound` returns. -/
inductive NoiseHandshakeError where
  | ServerReadFailed
  | InvalidClientPeerId (remotePeerId : List UInt8)
  | SelfDialDetected
  | ClientExpectingDifferentPubkey (remotePeerShort : PeerId) (selfExpectedPublicKey : List UInt8)
  | ServerParseClient (remotePeerShort : PeerId) (err : NoiseError)
  | UnauthenticatedClientPubkey (remotePeerShort : PeerId) (remotePublicKey : List UInt8)
  | UnauthenticatedClient (remotePeerShort : PeerId) (remotePeerId : PeerId)
  | ClientPeerIdMismatch (remotePeerShort : PeerId) (remotePeerId derivedRemotePeerId : PeerId)
  | MissingAntiReplayTimestamp (remotePeerShort : PeerId)
  | ServerReplayDetected (remotePeerShort : PeerId) (clientTimestamp : ℕ)
  | BuildServerHandshakeMessageFailed (remotePeerShort : PeerId) (err : NoiseError)
  | ServerWriteFailed (remotePeerShort : PeerId)
  deriving DecidableEq, Repr

/-- `NoiseUpgrader`: our peer id, our Noise configuration and the mode. -/
structure NoiseUpgrader (κ : Type) where
  /-- `network_context.peer_id()`. -/
  peerId : PeerId
  /-- `noise_config`. -/
  noiseConfig : NoiseConfig κ
  /-- `auth_mode`. -/
  authMode : HandshakeAuthMode

/-- `PROLOGUE_SIZE`: the client's peer id and the key it expects. -/
def PROLOGUE_SIZE : ℕ := ADDRESS_LENGTH + PUBLIC_KEY_SIZE

/-- `CLIENT_MESSAGE_SIZE`: the prologue and a Noise message with a timestamp. -/
def CLIENT_MESSAGE_SIZE : ℕ := PROLOGUE_SIZE + handshakeInitMsgLen AntiReplayTimestamps.TIMESTAMP_SIZE

/-- `SERVER_MESSAGE_SIZE`: the answer carries no payload. -/
def SERVER_MESSAGE_SIZE : ℕ := handshakeRespMsgLen 0

/-- `authenticate_inbound`: the client's key is among the peer's. -/
def authenticateInbound (remotePeerShort : PeerId) (peer : Peer) (remotePublicKey : PublicKey) :
    Except NoiseHandshakeError PeerRole :=
  if remotePublicKey ∉ peer.keys then .error (.UnauthenticatedClientPubkey remotePeerShort remotePublicKey.bytes)
  else .ok peer.role

/-- The role `upgrade_inbound` gives the client, from the trusted peers as read. -/
def peerRole (authMode : HandshakeAuthMode) (trustedPeers : PeerSet) (remotePeerId : PeerId)
    (remotePublicKey : PublicKey) : Except NoiseHandshakeError PeerRole :=
  match authMode, trustedPeers.lookup remotePeerId with
  | _, some peer => authenticateInbound remotePeerId peer remotePublicKey
  | .Mutual, none => .error (.UnauthenticatedClient remotePeerId remotePeerId)
  | .MaybeMutual, none =>
    let derivedRemotePeerId := fromIdentityPublicKey remotePublicKey
    if derivedRemotePeerId ≠ remotePeerId then
      .error (.ClientPeerIdMismatch remotePeerId remotePeerId derivedRemotePeerId)
    else .ok .Unknown

/-- The locals of an `upgrade_inbound` once the client is authenticated. -/
structure Authenticated where
  /-- `client_message`: the prologue and the Noise message. -/
  clientMessage : List UInt8
  /-- `remote_peer_id`. -/
  remotePeerId : PeerId
  /-- `remote_public_key`: the client's static key, decrypted. -/
  remotePublicKey : PublicKey
  /-- `handshake_state`. -/
  handshakeState : ResponderHandshakeState
  /-- `payload`. -/
  payload : List UInt8
  /-- `peer_role`. -/
  peerRole : PeerRole

variable {κ : Type} (P : Primitives κ) (u : NoiseUpgrader κ)

/-- `upgrade_inbound` from the read of the client message to the peer role,
against the trusted peers `trustedPeers` as they are read. -/
def acceptClient (trustedPeers : PeerSet) (clientBytes : List UInt8) : Except NoiseHandshakeError Authenticated :=
  if clientBytes.length < CLIENT_MESSAGE_SIZE then .error .ServerReadFailed else
  let clientMessage := clientBytes.take CLIENT_MESSAGE_SIZE
  let remotePeerIdBytes := clientMessage.take ADDRESS_LENGTH
  let selfExpectedPublicKey := (clientMessage.take PROLOGUE_SIZE).drop ADDRESS_LENGTH
  match peerIdTryFrom remotePeerIdBytes with
  | none => .error (.InvalidClientPeerId remotePeerIdBytes)
  | some remotePeerId =>
    -- reject accidental self-dials
    if remotePeerId = u.peerId then .error .SelfDialDetected else
    if selfExpectedPublicKey ≠ (u.noiseConfig.publicKey P).bytes then
      .error (.ClientExpectingDifferentPubkey remotePeerId selfExpectedPublicKey) else
    match parseClientInitMessage P u.noiseConfig (clientMessage.take PROLOGUE_SIZE)
      (clientMessage.drop PROLOGUE_SIZE) with
    | .error err => .error (.ServerParseClient remotePeerId err)
    | .ok (remotePublicKey, handshakeState, payload) =>
      match peerRole u.authMode trustedPeers remotePeerId remotePublicKey with
      | .error err => .error err
      | .ok role => .ok ⟨clientMessage, remotePeerId, remotePublicKey, handshakeState, payload, role⟩

/-- The anti-replay block: the client timestamp it accepts, or the error. -/
def checkAntiReplay (antiReplayTimestamps : AntiReplayTimestamps) (a : Authenticated) :
    Except NoiseHandshakeError ℕ :=
  if a.payload.length ≠ AntiReplayTimestamps.TIMESTAMP_SIZE then .error (.MissingAntiReplayTimestamp a.remotePeerId)
  else if antiReplayTimestamps.isReplay a.remotePublicKey (fromLeBytes a.payload) then
    .error (.ServerReplayDetected a.remotePeerId (fromLeBytes a.payload))
  else .ok (fromLeBytes a.payload)

/-- The end of `upgrade_inbound`: the response to the client with ephemeral key
`e`, and what it returns once `write_all` has or has not succeeded. -/
def respond (e : κ) (written : Bool) (a : Authenticated) :
    Except NoiseHandshakeError (NoiseSession × PeerId × PeerRole) :=
  match respondToClient P e a.handshakeState none SERVER_MESSAGE_SIZE with
  | .error err => .error (.BuildServerHandshakeMessageFailed a.remotePeerId err)
  | .ok (session, _) => if written then .ok (session, a.remotePeerId, a.peerRole) else .error (.ServerWriteFailed a.remotePeerId)

/-- Where one `upgrade_inbound` is. -/
inductive Stage where
  /-- Not started. -/
  | idle
  /-- Authenticated, before the anti-replay block. -/
  | authenticated (a : Authenticated)
  /-- After the anti-replay block, before the response. -/
  | timestamped (a : Authenticated)
  /-- Returned. -/
  | returned

/-- The upgrader's shared state and its upgrades in progress, by connection. -/
structure Upgrading where
  /-- The trusted peers, behind their lock. -/
  trustedPeers : PeerSet
  /-- The anti-replay timestamps, behind theirs. -/
  antiReplayTimestamps : AntiReplayTimestamps
  /-- The upgrade of each connection. -/
  handshakes : ℕ → Stage

/-- Move connection `c` to `stage`. -/
def Upgrading.setStage (s : Upgrading) (c : ℕ) (stage : Stage) : Upgrading :=
  { s with handshakes := Function.update s.handshakes c stage }

@[simp] theorem Upgrading.setStage_handshakes (s : Upgrading) (c c' : ℕ) (stage : Stage) :
    (s.setStage c stage).handshakes c' = if c' = c then stage else s.handshakes c' := by
  by_cases h : c' = c
  · subst h
    simp [setStage]
  · simp [setStage, h]

@[simp] theorem Upgrading.setStage_trustedPeers (s : Upgrading) (c : ℕ) (stage : Stage) :
    (s.setStage c stage).trustedPeers = s.trustedPeers := rfl

@[simp] theorem Upgrading.setStage_antiReplayTimestamps (s : Upgrading) (c : ℕ) (stage : Stage) :
    (s.setStage c stage).antiReplayTimestamps = s.antiReplayTimestamps := rfl

/-- An atomic section of one upgrade, or a change of the trusted peers. -/
inductive Event (κ : Type) where
  /-- Connection `c` reads `clientBytes` and authenticates the client. -/
  | receive (c : ℕ) (clientBytes : List UInt8)
  /-- Connection `c` runs the anti-replay block. -/
  | checkTimestamp (c : ℕ)
  /-- Connection `c` answers with ephemeral key `e`; `written` is whether `write_all` succeeded. -/
  | respond (c : ℕ) (e : κ) (written : Bool)
  /-- The trusted peers are replaced. -/
  | setTrustedPeers (peers : PeerSet)

/-- What `upgrade_inbound` returns, if an event ends it. -/
abbrev Outcome := Option (Except NoiseHandshakeError (NoiseSession × PeerId × PeerRole))

/-- One event of the upgrader. -/
def step (s : Upgrading) : Event κ → Outcome × Upgrading
  | .receive c clientBytes =>
    match s.handshakes c with
    | .idle =>
      match acceptClient P u s.trustedPeers clientBytes with
      | .error err => (some (.error err), s.setStage c .returned)
      | .ok a => (none, s.setStage c (.authenticated a))
    | _ => (none, s)
  | .checkTimestamp c =>
    match s.handshakes c, u.authMode with
    | .authenticated a, .MaybeMutual => (none, s.setStage c (.timestamped a))
    | .authenticated a, .Mutual =>
      match checkAntiReplay s.antiReplayTimestamps a with
      | .error err => (some (.error err), s.setStage c .returned)
      | .ok clientTimestamp =>
        (none, { s.setStage c (.timestamped a) with
          antiReplayTimestamps := s.antiReplayTimestamps.storeTimestamp a.remotePublicKey clientTimestamp })
    | _, _ => (none, s)
  | .respond c e written =>
    match s.handshakes c with
    | .timestamped a => (some (respond P e written a), s.setStage c .returned)
    | _ => (none, s)
  | .setTrustedPeers peers => (none, { s with trustedPeers := peers })

/-- The client key and timestamp an event's anti-replay block stores. -/
def acceptedTimestamp (s : Upgrading) : Event κ → Option (PublicKey × ℕ)
  | .checkTimestamp c =>
    match s.handshakes c, u.authMode with
    | .authenticated a, .Mutual =>
      match checkAntiReplay s.antiReplayTimestamps a with
      | .ok clientTimestamp => some (a.remotePublicKey, clientTimestamp)
      | .error _ => none
    | _, _ => none
  | _ => none

end Network

end Diem
