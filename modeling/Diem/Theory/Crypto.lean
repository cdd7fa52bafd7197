import Mathlib.Data.List.TakeDrop

/-!
# Abstract Diffie-Hellman and authenticated encryption

The two primitives of a key-exchange handshake, as functions with the laws
that correctness of the handshake rests on, and nothing of their security:

* a Diffie-Hellman function, where a private key and another party's public key
  give the same secret as the other party's private key and the first public key;
* an authenticated encryption with associated data (AEAD) with detached tags:
  encrypting a message gives a ciphertext of the message's length and a tag of a
  fixed length, and decrypting under the same key, nonce and associated data
  gives the message back; decryption succeeds only on what encryption produced.

`Aead.encrypt` and `Aead.decrypt` are the combined forms, with the tag after the
ciphertext, as `aead::Aead` builds them from the detached ones.
-/

namespace Crypto

/-- A Diffie-Hellman function: `dh a (pub b) = dh b (pub a)`. -/
structure DiffieHellman (Priv Pub Secret : Type*) where
  /-- The public key of a private key. -/
  pub : Priv → Pub
  /-- The shared secret of a private key and a public key. -/
  dh : Priv → Pub → Secret
  /-- Both parties compute the same secret. -/
  dh_comm : ∀ a b, dh a (pub b) = dh b (pub a)

/-- An AEAD over byte strings with tags of `tagLen` bytes, in detached form. -/
structure Aead (tagLen : ℕ) where
  /-- Encrypt `msg` under `key` and `nonce`, authenticating `aad`: the ciphertext and the tag. -/
  encryptDetached : (key nonce aad msg : List UInt8) → List UInt8 × List UInt8
  /-- Decrypt and check a ciphertext and its tag. -/
  decryptDetached : (key nonce aad ciphertext tag : List UInt8) → Option (List UInt8)
  /-- The ciphertext is as long as the message. -/
  length_encryptDetached_fst : ∀ key nonce aad msg, (encryptDetached key nonce aad msg).1.length = msg.length
  /-- The tag has `tagLen` bytes. -/
  length_encryptDetached_snd : ∀ key nonce aad msg, (encryptDetached key nonce aad msg).2.length = tagLen
  /-- Decrypting what was encrypted under the same key, nonce and associated data gives the message. -/
  decryptDetached_encryptDetached : ∀ key nonce aad msg,
    decryptDetached key nonce aad (encryptDetached key nonce aad msg).1 (encryptDetached key nonce aad msg).2 = some msg
  /-- Decryption succeeds only on what encryption produced. -/
  encryptDetached_of_decryptDetached : ∀ key nonce aad ciphertext tag msg,
    decryptDetached key nonce aad ciphertext tag = some msg →
    encryptDetached key nonce aad msg = (ciphertext, tag)

namespace Aead

variable {tagLen : ℕ} (A : Aead tagLen)

/-- Combined encryption: the ciphertext followed by the tag. -/
def encrypt (key nonce aad msg : List UInt8) : List UInt8 :=
  (A.encryptDetached key nonce aad msg).1 ++ (A.encryptDetached key nonce aad msg).2

/-- Combined decryption: the last `tagLen` bytes are the tag. -/
def decrypt (key nonce aad ciphertext : List UInt8) : Option (List UInt8) :=
  if ciphertext.length < tagLen then none
  else A.decryptDetached key nonce aad (ciphertext.take (ciphertext.length - tagLen)) (ciphertext.drop (ciphertext.length - tagLen))

@[simp] theorem length_encrypt (key nonce aad msg : List UInt8) :
    (A.encrypt key nonce aad msg).length = msg.length + tagLen := by
  rw [encrypt, List.length_append, A.length_encryptDetached_fst, A.length_encryptDetached_snd]

theorem decrypt_encrypt (key nonce aad msg : List UInt8) :
    A.decrypt key nonce aad (A.encrypt key nonce aad msg) = some msg := by
  have hlen := A.length_encrypt key nonce aad msg
  have hsplit : (A.encrypt key nonce aad msg).length - tagLen = (A.encryptDetached key nonce aad msg).1.length := by
    rw [hlen, A.length_encryptDetached_fst]
    omega
  unfold decrypt
  rw [if_neg (by omega), hsplit]
  unfold encrypt
  rw [List.take_left, List.drop_left]
  exact A.decryptDetached_encryptDetached key nonce aad msg

end Aead

end Crypto
