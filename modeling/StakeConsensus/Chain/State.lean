import StakeConsensus.Block.Basic
import StakeConsensus.OrderedMap
import StakeConsensus.Schedule.Basic

/-!
# Account state

Balances and nonces, the number of blocks that each validator led, a running
digest of derived state, and the consensus settings that the schedule is read
from. The state root covers the first three.
-/

namespace StakeConsensus

structure Account where
  balance : UInt64
  /-- The nonce the next transaction has to carry. -/
  nonce : UInt64
deriving DecidableEq, Inhabited

/-- Why a transfer changed nothing. -/
inductive TransferError where
  | insufficientBalance (balance amount : UInt64)
  | nonceMismatch (expected got : UInt64)
deriving DecidableEq

def TransferError.message : TransferError → String
  | insufficientBalance balance amount =>
    "insufficient balance: have " ++ toString balance ++ ", need " ++ toString amount
  | nonceMismatch expected got =>
    "nonce mismatch: expected " ++ toString expected ++ ", got " ++ toString got

/-- The state after a block. -/
structure ChainState where
  accounts : OrderedMap Address Account
  /-- Blocks led, by validator. -/
  uptime : OrderedMap Address UInt64
  /-- The running digest of derived state. -/
  matrix : Digest
  topology : List Validator
  broadcast : Address
  timing : TurnTiming
  interval : BroadcastInterval

namespace ChainState

def encodeAccount (e : Address × Account) : Bytes :=
  e.1.toList ++ Encoding.u64 e.2.balance ++ Encoding.u64 e.2.nonce

def encodeUptime (e : Address × UInt64) : Bytes := e.1.toList ++ Encoding.u64 e.2

/-- Accounts, uptime and the matrix digest, maps in key order. -/
def encode (s : ChainState) : Bytes :=
  Encoding.list encodeAccount s.accounts.toList ++ Encoding.list encodeUptime s.uptime.toList
    ++ s.matrix.toList

def root (s : ChainState) : Digest := blake3 s.encode

/-- An account that is not listed has neither balance nor transactions. -/
def account (s : ChainState) (a : Address) : Account := (s.accounts.get? a).getD ⟨0, 0⟩

def balance (s : ChainState) (a : Address) : UInt64 := (s.account a).balance

def setAccount (s : ChainState) (a : Address) (v : Account) : ChainState :=
  { s with accounts := s.accounts.insert a v }

/-- A balance with an amount added, up to the largest word. -/
def credit (balance amount : UInt64) : UInt64 := (saturatingAdd balance.toNat amount.toNat).toUInt64

/-- Moves an amount and counts the sender's transaction. The nonce is checked
before the balance, and sender and receiver may be the same. -/
def transfer (s : ChainState) (t : Transaction) : Except TransferError ChainState :=
  let sender := s.account t.sender
  if sender.nonce ≠ t.nonce then .error (.nonceMismatch sender.nonce t.nonce)
  else if sender.balance < t.amount then .error (.insufficientBalance sender.balance t.amount)
  else
    let s := s.setAccount t.sender ⟨sender.balance - t.amount, sender.nonce + 1⟩
    let receiver := s.account t.receiver
    .ok (s.setAccount t.receiver { receiver with balance := credit receiver.balance t.amount })

def recordUptime (s : ChainState) (leader : Address) : ChainState :=
  { s with uptime := s.uptime.insert leader ((s.uptime.get? leader).getD 0 + 1) }

/-- Folds a block into the running digest. -/
def foldMatrix (s : ChainState) (h : Header) : ChainState :=
  { s with matrix := blake3 (s.matrix.toList ++ h.txRoot.toList ++ Encoding.u64 h.height) }

/-- All settings are known. -/
def view (s : ChainState) : StateView :=
  ⟨some s.topology, some s.broadcast, some s.timing, some s.interval⟩

end ChainState

end StakeConsensus
