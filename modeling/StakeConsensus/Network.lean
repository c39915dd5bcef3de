import StakeConsensus.Message
import StakeConsensus.OrderedMap

/-!
# The network

Messages go from one account to all joined peers whose roles are addressed, or to
one peer. A message over a cut link is lost without notice, and nobody sends to
itself. Each peer has an inbox, in which messages stand in the order in which they
were sent.
-/

namespace StakeConsensus

structure Peer where
  roles : RoleSet
  /-- Whether somebody still reads the inbox. -/
  live : Bool
  /-- Messages not read yet, oldest first. -/
  inbox : List Message
deriving Inhabited

structure Network where
  peers : OrderedMap Address Peer
  /-- Links that are cut, from the sender to the receiver. -/
  cuts : List (Address × Address)
  /-- The kinds of all messages that reached an inbox, latest first. -/
  log : List MessageKind

namespace Network

def empty : Network := ⟨.empty, [], []⟩

instance : Inhabited Network := ⟨empty⟩

/-- Joins with an empty inbox; an earlier one is gone. -/
def join (n : Network) (account : Address) (roles : RoleSet) : Network :=
  { n with peers := n.peers.insert account ⟨roles, true, []⟩ }

def leave (n : Network) (account : Address) : Network :=
  { n with peers := n.peers.filterKeys (· ≠ account) }

def modifyPeer (n : Network) (account : Address) (f : Peer → Peer) : Network :=
  match n.peers.get? account with
  | none => n
  | some p => { n with peers := n.peers.insert account (f p) }

/-- The inbox of a joined peer is read no more. -/
def abandon (n : Network) (account : Address) : Network :=
  n.modifyPeer account fun p => { p with live := false, inbox := [] }

/-- Cuts one direction of a link. -/
def cut (n : Network) (sender receiver : Address) : Network :=
  { n with cuts := (sender, receiver) :: n.cuts }

/-- Cuts both directions between an account and every peer joined now. -/
def isolate (n : Network) (account : Address) : Network :=
  { n with
    cuts := (n.peers.keys.filter (· ≠ account)).flatMap
      (fun peer => [(account, peer), (peer, account)]) ++ n.cuts }

/-- Mends all links. -/
def heal (n : Network) : Network := { n with cuts := [] }

def isCut (n : Network) (sender receiver : Address) : Bool := n.cuts.contains (sender, receiver)

/-- Whether a message can reach a peer. -/
def reaches (n : Network) (sender receiver : Address) : Bool :=
  sender != receiver && !n.isCut sender receiver
    && match n.peers.get? receiver with
      | some p => p.live
      | none => false

/-- Puts a message into an inbox. -/
def deliver (n : Network) (receiver : Address) (m : Message) : Network :=
  { n.modifyPeer receiver (fun p => { p with inbox := p.inbox ++ [m] }) with
    log := m.kind :: n.log }

/-- Sends to one peer, whatever its roles, and says whether it arrives. -/
def send (n : Network) (sender receiver : Address) (m : Message) : Network × Bool :=
  if n.reaches sender receiver then (n.deliver receiver m, true) else (n, false)

/-- The peers that a message to some roles reaches. -/
def audience (n : Network) (sender : Address) (roles : RoleSet) : List Address :=
  (n.peers.toList.filter fun e => e.2.roles.intersects roles && n.reaches sender e.1).map (·.1)

/-- Sends to every peer with one of the roles. -/
def broadcast (n : Network) (sender : Address) (m : Message) (roles : RoleSet) : Network :=
  (n.audience sender roles).foldl (fun n receiver => n.deliver receiver m) n

/-- The messages of a kind that ever reached an inbox. -/
def delivered (n : Network) (kind : MessageKind) : Nat := n.log.count kind

/-- Reads an inbox to its end. -/
def read (n : Network) (account : Address) : Network × List Message :=
  match n.peers.get? account with
  | none => (n, [])
  | some p => ({ n with peers := n.peers.insert account { p with inbox := [] } }, p.inbox)

/-- Reads the oldest message of an inbox. -/
def readOne (n : Network) (account : Address) : Network × Option Message :=
  match n.peers.get? account with
  | none => (n, none)
  | some p =>
    ({ n with peers := n.peers.insert account { p with inbox := p.inbox.tail } }, p.inbox.head?)

def size (n : Network) : Nat := n.peers.size

end Network

end StakeConsensus
