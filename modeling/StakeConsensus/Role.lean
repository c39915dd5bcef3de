import StakeConsensus.Bytes.Fixed

/-!
# Roles

What a node does at a height, sets of roles that address messages, and the
entries of the validator topology.
-/

namespace StakeConsensus

inductive Role where
  /-- Verifies proposals and votes on them. -/
  | validator
  /-- Produces broadcast blocks and relays final ones. -/
  | broadcast
  /-- Seals final headers. -/
  | miner
  /-- Follows the chain without taking part. -/
  | follower
deriving DecidableEq, Inhabited

namespace Role

def all : List Role := [validator, broadcast, miner, follower]

def display : Role → String
  | validator => "validator"
  | broadcast => "broadcast"
  | miner => "miner"
  | follower => "follower"

/-- Whether the role runs the verification of proposals. -/
def verifies : Role → Bool
  | validator | broadcast => true
  | miner | follower => false

end Role

/-- A set of roles. -/
structure RoleSet where
  validator : Bool := false
  broadcast : Bool := false
  miner : Bool := false
  follower : Bool := false
deriving DecidableEq, Inhabited

namespace RoleSet

def none : RoleSet := {}

def single : Role → RoleSet
  | .validator => { validator := true }
  | .broadcast => { broadcast := true }
  | .miner => { miner := true }
  | .follower => { follower := true }

def contains (s : RoleSet) : Role → Bool
  | .validator => s.validator
  | .broadcast => s.broadcast
  | .miner => s.miner
  | .follower => s.follower

def union (s t : RoleSet) : RoleSet :=
  ⟨s.validator || t.validator, s.broadcast || t.broadcast, s.miner || t.miner,
    s.follower || t.follower⟩

def ofList (rs : List Role) : RoleSet := rs.foldl (fun s r => s.union (single r)) none

def toList (s : RoleSet) : List Role := Role.all.filter s.contains

def intersects (s t : RoleSet) : Bool := Role.all.any fun r => s.contains r && t.contains r

@[simp] theorem contains_single (r q : Role) : (single r).contains q = decide (r = q) := by
  cases r <;> cases q <;> rfl

@[simp] theorem contains_union (s t : RoleSet) (r : Role) :
    (s.union t).contains r = (s.contains r || t.contains r) := by
  cases r <;> rfl

/-- The nodes that take part in voting. -/
def voters : RoleSet := (single .validator).union (single .broadcast)

end RoleSet

/-- An entry of the validator topology. -/
structure Validator where
  address : Address
  stake : UInt64
  role : Role
deriving DecidableEq, Inhabited

/-- The first listed stake of an account. -/
def Validator.stakeOf (vs : List Validator) (account : Address) : Option UInt64 :=
  (vs.find? fun v => v.address == account).map (·.stake)

end StakeConsensus
