import StakeConsensus.Crypto.Key
import StakeConsensus.Report.Block

/-!
# Reports of hashes, addresses and keys

All forms in which a value is written: its digits, the text for messages, and the
short texts for logs.
-/

namespace StakeConsensus

def Address.formsJson (a : Address) : Json :=
  .object [("hex", toJson a), ("display", toJson a.display), ("debug", toJson a.inspect),
    ("zero", toJson a.isZero)]

/-- The forms of a hash and of an address. -/
def Digest.formsJson (h : Digest) (a : Address) : Json :=
  .object [("hex", toJson h), ("display", toJson h.display), ("short", toJson h.short),
    ("debug", toJson h.inspect), ("zero", toJson h.isZero), ("address", toJson a.display),
    ("address_debug", toJson a.inspect), ("address_zero", toJson a.isZero)]

namespace Keypair

def parts (k : Keypair) : List (String × Json) :=
  [("public", toJson k.publicKey), ("secret", toJson k.seed), ("address", toJson k.address)]

def formsJson (k : Keypair) : Json := .object (("debug", toJson k.inspect) :: k.parts)

end Keypair

/-- The report of a signature over a message. -/
def Signature.formsJson (s : Signature) (message : Bytes) : Json :=
  .object [("signature", toJson s), ("signer", toJson s.signer),
    ("verifies", toJson (s.verify message)), ("debug", toJson s.inspect)]

/-- The report of a signature that came with a message. -/
def Signature.checkJson (s : Signature) (message : Bytes) : Json :=
  .object [("valid", toJson (s.verify message)), ("signer", toJson s.signer),
    ("address", toJson (PublicKey.address s.publicKey))]

/-- The forms of a turn, and how it compares with another one. -/
def ConsensusTurn.formsJson (other t : ConsensusTurn) : Json :=
  let order := match compare t other with
    | .lt => "Less"
    | .eq => "Equal"
    | .gt => "Greater"
  .object [("turn", toJson t), ("total", toJson t.total), ("text", toJson t.display),
    ("cmp", toJson order)]

/-- The fields in which each of two headers departs from the other one. -/
def Header.comparisonJson (a b : Header) : Json :=
  .object [("a", toJson a.hash), ("b", toJson b.hash), ("equal", toJson (a == b)),
    ("fields", toJson (a.mismatches b)), ("back", toJson (b.mismatches a))]

/-- Two sets of roles, the first one given as a list. -/
def RoleSet.comparisonJson (list : List Role) (b : RoleSet) : Json :=
  let a := RoleSet.ofList list
  .object [("a", toJson a), ("b", toJson b), ("union", toJson (a.union b)),
    ("intersects", toJson (a.intersects b)), ("equal", toJson (a == b)),
    ("verifies", toJson (list.map fun r => (r, r.verifies)))]

end StakeConsensus
