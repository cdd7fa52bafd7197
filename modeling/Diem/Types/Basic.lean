import Mathlib

/-!
# Primitive values

The values the modelled code only stores, compares and hands to cryptography:
hash values (`diem_crypto::HashValue`), account addresses
(`diem_types::account_address::AccountAddress`) and Ed25519 keys and
signatures (`diem_crypto::ed25519`). Their bytes never matter to the code
modelled here, so each is a wrapper around a number, compared for equality.
Cryptographic functions over them (signing, verifying, hashing structured
data) are parameters of the modules that call them.

Unsigned 64-bit quantities (`u64`: epochs, rounds, versions, voting power)
are natural numbers; where the code can overflow one, the module that
models it says how (`u64::checked_add`, a wrapping multiplication).
-/

namespace Diem

/-- `u64::MAX`. -/
def U64_MAX : ℕ := 2 ^ 64 - 1

/-- `HashValue`: 32 bytes, read as a number. -/
structure HashValue where
  /-- The bytes of the hash. -/
  val : ℕ
  deriving DecidableEq, Repr

/-- `HashValue::zero()`. -/
def HashValue.zero : HashValue := ⟨0⟩

/-- `AccountAddress`: 16 bytes, read as a number. -/
structure AccountAddress where
  /-- The bytes of the address. -/
  val : ℕ
  deriving DecidableEq, Repr

/-- `impl Display for AccountAddress`: the 16 bytes as 32 upper-case hex digits
(`{:X}`). -/
def AccountAddress.toString (a : AccountAddress) : String :=
  String.ofList (List.ofFn fun i : Fin 32 => (Nat.digitChar (a.val / 16 ^ (31 - i.val) % 16)).toUpper)

/-- `Author` of consensus messages (`consensus_types::common::Author`). -/
abbrev Author := AccountAddress

/-- `Ed25519PublicKey`. -/
structure Ed25519PublicKey where
  /-- The key bytes. -/
  val : ℕ
  deriving DecidableEq, Repr

/-- `impl Display for Ed25519PublicKey`: `hex::encode` of the 32 key bytes,
64 lower-case hex digits. -/
def Ed25519PublicKey.toString (k : Ed25519PublicKey) : String :=
  String.ofList (List.ofFn fun i : Fin 64 => Nat.digitChar (k.val / 16 ^ (63 - i.val) % 16))

/-- `Ed25519PrivateKey`. -/
structure Ed25519PrivateKey where
  /-- The key bytes. -/
  val : ℕ
  deriving DecidableEq, Repr

/-- `Ed25519Signature`. -/
structure Ed25519Signature where
  /-- The signature bytes. -/
  val : ℕ
  deriving DecidableEq, Repr

end Diem
