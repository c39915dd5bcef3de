import StakeConsensus.Arithmetic.Checked
import StakeConsensus.Crypto.Blake3
import StakeConsensus.Crypto.Ed25519
import StakeConsensus.Text.Hex

/-!
# Validator keys

A key signs for the account that its public key names: the last twenty bytes of
the key's digest. A signature carries the public key, so it says who claims to
have made it; the claim holds once it verifies.
-/

namespace StakeConsensus

abbrev PublicKey := FixedBytes 32

/-- The account of a public key. -/
def PublicKey.address (key : PublicKey) : Address :=
  ⟨(blake3 key.toList).toList.drop 12, by simp [FixedBytes.length_toList]⟩

/-- What a signature covers: the block hash bound to its parent, so that a vote
cannot be replayed on another fork of the same height. -/
def signingMessage (hash parent : Digest) : Digest :=
  blake3 (hash.toList ++ parent.toList)

/-- A signature and the key it claims to be made with. The bytes may have any
length; only 64 of them can verify. -/
structure Signature where
  publicKey : PublicKey
  bytes : Bytes
deriving DecidableEq, Inhabited

namespace Signature

def signer (s : Signature) : Address := PublicKey.address s.publicKey

def verify (s : Signature) (message : Bytes) : Bool :=
  Ed25519.verify s.publicKey message s.bytes

def inspect (s : Signature) : String := "Signature(signer=" ++ s.signer.display ++ ")"

end Signature

inductive KeyError where
  | invalidSecretKey
deriving DecidableEq

def KeyError.message : KeyError → String
  | .invalidSecretKey => "invalid secret key bytes: wrong length or not a valid scalar"

/-- A secret seed with its public key. -/
structure Keypair where
  seed : FixedBytes 32
  publicKey : PublicKey

namespace Keypair

def ofSeed (seed : FixedBytes 32) : Keypair := ⟨seed, Ed25519.publicKey seed⟩

/-- Sixty-four digits, without a mark in front. -/
def ofHex (s : String) : Except KeyError Keypair :=
  match Hex.decodeFixed 32 s with
  | .ok seed => .ok (ofSeed seed)
  | .error _ => .error .invalidSecretKey

def address (k : Keypair) : Address := PublicKey.address k.publicKey

def sign (k : Keypair) (message : Bytes) : Signature :=
  ⟨k.publicKey, Ed25519.sign k.seed k.publicKey message⟩

/-- Shows the account only. -/
def inspect (k : Keypair) : String := "ValidatorKeypair(address=" ++ k.address.display ++ ")"

/-- The seed of the validator with number `index` of a local network: the number
after it, a mark, and zeros. -/
def validatorSeed (index : Nat) : Except Overflow (FixedBytes 32) :=
  (Checked.word (index + 1)).map fun n =>
    .ofListPadded (LittleEndian.encode 8 n ++ "strata-v".toUTF8.toList)

def validator (index : Nat) : Except Overflow Keypair :=
  (validatorSeed index).map ofSeed

end Keypair

end StakeConsensus
