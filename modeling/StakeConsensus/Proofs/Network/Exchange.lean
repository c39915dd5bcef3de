import Mathlib.Data.List.Induction
import StakeConsensus.Network

/-!
# A network and its mailboxes

Accounts join, leave and join again, receivers are dropped, and links are cut and healed one
direction at a time. Beside the network stand the mailboxes of all joins, with all that the
network ever put into them, those that nobody reads and those that were replaced included. A
mailbox takes down what it finds in the inbox of its owner, so what it holds is what the
network did, and not what its rules say that it should do.

The joined mailboxes are the peers of the network, and its counters count the letters of all
mailboxes, whatever the calls are.
-/

namespace StakeConsensus

/-- A call of the network, or of a receiver that it handed out. -/
inductive NetworkCall where
  | join (account : Address) (roles : RoleSet)
  | leave (account : Address)
  /-- The receiver of a join, by the number of that join, is dropped. -/
  | drop (receiver : Nat)
  /-- The receiver of a join takes the oldest message. -/
  | read (receiver : Nat)
  | cut (sender receiver : Address)
  | isolate (account : Address)
  | heal
  | broadcast (sender : Address) (m : Message) (roles : RoleSet)
  | send (sender receiver : Address) (m : Message)

/-- The call sends a message for an account. -/
def NetworkCall.Sends (c : NetworkCall) (sender : Address) (m : Message) : Prop :=
  match c with
  | .broadcast s m' _ | .send s _ m' => s = sender ∧ m' = m
  | _ => False

/-- A message in a mailbox. -/
structure Letter where
  /-- The number of the call that sent it. -/
  call : Nat
  sender : Address
  message : Message

/-- The inbox of one join. -/
structure Mailbox where
  owner : Address
  roles : RoleSet
  /-- Whether the network still sends into it: the owner neither left nor joined again. -/
  joined : Bool
  /-- Whether the receiver is still there. -/
  held : Bool
  taken : List Letter
  waiting : List Letter

namespace Mailbox

def opened (owner : Address) (roles : RoleSet) : Mailbox := ⟨owner, roles, true, true, [], []⟩

/-- All that was ever put into a mailbox. -/
def mail (b : Mailbox) : List Letter := b.taken ++ b.waiting

/-- How the network keeps the mailbox while it is joined. -/
def peer (b : Mailbox) : Peer :=
  ⟨b.roles, b.held, if b.held then b.waiting.map Letter.message else []⟩

/-- The network knows the mailboxes of an account no more. -/
def withdraw (account : Address) (b : Mailbox) : Mailbox :=
  { b with joined := b.joined && b.owner != account }

def discard (b : Mailbox) : Mailbox := { b with held := false }

def take (b : Mailbox) : Mailbox :=
  if b.held then
    { b with taken := b.taken ++ b.waiting.take 1, waiting := b.waiting.drop 1 }
  else b

def put (b : Mailbox) (l : Letter) : Mailbox := { b with waiting := b.waiting ++ [l] }

/-- A letter to some accounts: it is put into a joined mailbox of one of them. -/
def receive (receivers : List Address) (l : Letter) (b : Mailbox) : Mailbox :=
  if b.joined ∧ b.owner ∈ receivers then b.put l else b

@[simp] theorem owner_receive (receivers : List Address) (l : Letter) (b : Mailbox) :
    (b.receive receivers l).owner = b.owner := by
  rw [receive]
  split <;> rfl

@[simp] theorem joined_receive (receivers : List Address) (l : Letter) (b : Mailbox) :
    (b.receive receivers l).joined = b.joined := by
  rw [receive]
  split <;> rfl

@[simp] theorem mail_put (b : Mailbox) (l : Letter) : (b.put l).mail = b.mail ++ [l] := by
  simp [mail, put]

@[simp] theorem owner_take (b : Mailbox) : b.take.owner = b.owner := by
  rw [take]
  split <;> rfl

@[simp] theorem joined_take (b : Mailbox) : b.take.joined = b.joined := by
  rw [take]
  split <;> rfl

@[simp] theorem mail_take (b : Mailbox) : b.take.mail = b.mail := by
  rw [take]
  split
  · simp only [mail, List.append_assoc, List.take_append_drop]
  · rfl

theorem peer_take (b : Mailbox) :
    b.take.peer = { b.peer with inbox := b.peer.inbox.tail } := by
  rw [take]
  split <;> rename_i held <;> simp [peer, held]

theorem peer_put {b : Mailbox} (held : b.held) (l : Letter) :
    (b.put l).peer = { b.peer with inbox := b.peer.inbox ++ [l.message] } := by
  simp [peer, put, held]

/-- The letters of one sort are as many more as mailboxes received one. -/
theorem countP_receive (boxes : List Mailbox) (receivers : List Address) (l : Letter)
    (p : Letter → Bool) : ((boxes.map (receive receivers l)).flatMap mail).countP p =
      (if p l then boxes.countP fun b => b.joined ∧ b.owner ∈ receivers else 0) +
        (boxes.flatMap mail).countP p := by
  induction boxes with
  | nil => simp
  | cons b boxes ih =>
      rw [List.map_cons, List.flatMap_cons, List.flatMap_cons, List.countP_append,
        List.countP_append, ih, List.countP_cons, receive]
      by_cases hb : b.joined ∧ b.owner ∈ receivers
      · by_cases hl : p l
        · simp [hb, hl]
          omega
        · simp [hb, hl]
      · simp only [hb, if_false, decide_false, Bool.false_eq_true, Nat.add_zero]
        omega

end Mailbox

/-! ### The network -/

namespace Network

variable {n : Network} {sender receiver account : Address} {roles : RoleSet} {m : Message}

/-- The messages that wait for an account. -/
def inbox (n : Network) (account : Address) : List Message :=
  ((n.peers.get? account).map Peer.inbox).getD []

/-- What got into the inbox of an account between two states of the network. -/
def arrivals (n n' : Network) (account : Address) : List Message :=
  (n'.inbox account).drop (n.inbox account).length

/-- A message put into the inboxes of several accounts. -/
def spread (n : Network) (receivers : List Address) (m : Message) : Network :=
  receivers.foldl (fun n receiver => n.deliver receiver m) n

theorem broadcast_eq (n : Network) (sender : Address) (m : Message) (roles : RoleSet) :
    n.broadcast sender m roles = n.spread (n.audience sender roles) m := rfl

/-- The receiver of a message to one peer, if it arrives. -/
def target (n : Network) (sender receiver : Address) : List Address :=
  if n.reaches sender receiver then [receiver] else []

theorem send_eq (n : Network) (sender receiver : Address) (m : Message) :
    n.send sender receiver m =
      (n.spread (n.target sender receiver) m, n.reaches sender receiver) := by
  rw [send, target]
  split <;> rename_i h <;> simp [h, spread]

theorem get?_modifyPeer (n : Network) (account : Address) (f : Peer → Peer) (a : Address) :
    (n.modifyPeer account f).peers.get? a =
      if a = account then (n.peers.get? a).map f else n.peers.get? a := by
  unfold modifyPeer
  cases h : n.peers.get? account with
  | none =>
      by_cases ha : a = account
      · simp [ha, h]
      · simp [ha]
  | some p =>
      by_cases ha : a = account
      · simp [ha, h]
      · simp [ha]

@[simp] theorem cuts_modifyPeer (n : Network) (account : Address) (f : Peer → Peer) :
    (n.modifyPeer account f).cuts = n.cuts := by
  rw [modifyPeer]
  split <;> rfl

@[simp] theorem log_modifyPeer (n : Network) (account : Address) (f : Peer → Peer) :
    (n.modifyPeer account f).log = n.log := by
  rw [modifyPeer]
  split <;> rfl

/-- Reading takes the oldest message, if there is a peer. -/
theorem readOne_eq (n : Network) (account : Address) :
    (n.readOne account).1 = n.modifyPeer account fun p => { p with inbox := p.inbox.tail } := by
  rw [readOne, modifyPeer]
  split <;> rfl

@[simp] theorem cuts_spread (n : Network) (receivers : List Address) (m : Message) :
    (n.spread receivers m).cuts = n.cuts := by
  induction receivers generalizing n with
  | nil => rfl
  | cons r receivers ih => exact (ih _).trans (cuts_modifyPeer ..)

theorem log_spread (n : Network) (receivers : List Address) (m : Message) :
    (n.spread receivers m).log = List.replicate receivers.length m.kind ++ n.log := by
  induction receivers generalizing n with
  | nil => rfl
  | cons r receivers ih =>
      refine (ih _).trans ?_
      simp [deliver, List.replicate_succ']

theorem get?_spread {receivers : List Address} (nodup : receivers.Nodup) (n : Network)
    (m : Message) (a : Address) :
    (n.spread receivers m).peers.get? a = (n.peers.get? a).map fun p =>
      if a ∈ receivers then { p with inbox := p.inbox ++ [m] } else p := by
  induction receivers generalizing n with
  | nil => simp [spread]
  | cons r receivers ih =>
      obtain ⟨hr, hrest⟩ := List.nodup_cons.mp nodup
      refine (ih hrest _).trans ?_
      simp only [deliver, get?_modifyPeer]
      by_cases ha : a = r
      · subst ha
        cases n.peers.get? a <;> simp [hr]
      · simp [ha]

theorem reaches_iff : n.reaches sender receiver ↔
    sender ≠ receiver ∧ n.isCut sender receiver = false ∧
      ∃ p, n.peers.get? receiver = some p ∧ p.live := by
  rw [reaches]
  cases n.peers.get? receiver <;> simp [and_assoc]

theorem mem_audience_iff : account ∈ n.audience sender roles ↔
    ∃ p, n.peers.get? account = some p ∧ p.roles.intersects roles ∧
      n.reaches sender account := by
  simp only [audience, List.mem_map, List.mem_filter, Bool.and_eq_true]
  constructor
  · rintro ⟨⟨a, p⟩, ⟨hmem, hp⟩, rfl⟩
    exact ⟨p, OrderedMap.get?_of_mem hmem, hp⟩
  · rintro ⟨p, hfound, hp⟩
    exact ⟨(account, p), ⟨OrderedMap.mem_of_get? hfound, hp⟩, rfl⟩

theorem nodup_audience (n : Network) (sender : Address) (roles : RoleSet) :
    (n.audience sender roles).Nodup :=
  n.peers.nodup_keys.sublist (List.filter_sublist.map Prod.fst)

theorem mem_target_iff : account ∈ n.target sender receiver ↔
    account = receiver ∧ n.reaches sender account := by
  rw [target]
  split
  · rename_i h
    rw [List.mem_singleton]
    exact ⟨fun ha => ⟨ha, ha ▸ h⟩, And.left⟩
  · rename_i h
    exact ⟨fun ha => (List.not_mem_nil ha).elim, fun ha => absurd (ha.1 ▸ ha.2) h⟩

theorem nodup_target (n : Network) (sender receiver : Address) :
    (n.target sender receiver).Nodup := by
  rw [target]
  split
  · exact List.pairwise_singleton ..
  · exact List.nodup_nil

theorem isCut_isolate_iff : (n.isolate account).isCut sender receiver ↔
    (sender = account ∧ receiver ≠ account ∧ receiver ∈ n.peers.keys) ∨
      (receiver = account ∧ sender ≠ account ∧ sender ∈ n.peers.keys) ∨
      n.isCut sender receiver := by
  simp only [isCut, isolate, List.contains_iff_mem, List.mem_append, List.mem_flatMap,
    List.mem_filter, decide_eq_true_eq, List.mem_cons, List.not_mem_nil, or_false, Prod.mk.injEq]
  constructor
  · rintro (⟨peer, ⟨hmem, hne⟩, ⟨rfl, rfl⟩ | ⟨rfl, rfl⟩⟩ | h)
    · exact .inl ⟨rfl, hne, hmem⟩
    · exact .inr (.inl ⟨rfl, hne, hmem⟩)
    · exact .inr (.inr h)
  · rintro (⟨rfl, hne, hmem⟩ | ⟨rfl, hne, hmem⟩ | h)
    · exact .inl ⟨receiver, ⟨hmem, hne⟩, .inl ⟨rfl, rfl⟩⟩
    · exact .inl ⟨sender, ⟨hmem, hne⟩, .inr ⟨rfl, rfl⟩⟩
    · exact .inr h

end Network

/-! ### The network with its mailboxes -/

/-- A network, and the mailboxes of all joins in their order. -/
structure Exchange where
  network : Network
  boxes : List Mailbox

namespace Exchange

variable {e : Exchange} {calls : List NetworkCall} {sender receiver : Address}
  {roles : RoleSet} {m : Message}

/-- A receiver acts on its own mailbox, and on the network only while that one is joined. -/
def handle (e : Exchange) (receiver : Nat) (act : Network → Address → Network)
    (f : Mailbox → Mailbox) : Exchange where
  network := match e.boxes[receiver]? with
    | some b => if b.joined then act e.network b.owner else e.network
    | none => e.network
  boxes := e.boxes.modify receiver f

/-- The joined mailboxes take down what the network put into the inboxes of their owners. -/
def convey (e : Exchange) (n : Network) (call : Nat) (sender : Address) : Exchange where
  network := n
  boxes := e.boxes.map fun b =>
    if b.joined then
      { b with waiting := b.waiting ++
                (e.network.arrivals n b.owner).map fun m => ⟨call, sender, m⟩ }
    else b

def perform (e : Exchange) (call : Nat) : NetworkCall → Exchange
  | .join account roles =>
      ⟨e.network.join account roles,
        e.boxes.map (·.withdraw account) ++ [.opened account roles]⟩
  | .leave account => ⟨e.network.leave account, e.boxes.map (·.withdraw account)⟩
  | .drop receiver => e.handle receiver .abandon .discard
  | .read receiver => e.handle receiver (fun n account => (n.readOne account).1) .take
  | .cut sender receiver => { e with network := e.network.cut sender receiver }
  | .isolate account => { e with network := e.network.isolate account }
  | .heal => { e with network := e.network.heal }
  | .broadcast sender m roles => e.convey (e.network.broadcast sender m roles) call sender
  | .send sender receiver m => e.convey (e.network.send sender receiver m).1 call sender

/-- What a list of calls leads to; the calls are numbered from zero. -/
def run (calls : List NetworkCall) : Exchange :=
  calls.zipIdx.foldl (fun e c => e.perform c.2 c.1) ⟨.empty, []⟩

theorem run_concat (calls : List NetworkCall) (call : NetworkCall) :
    run (calls ++ [call]) = (run calls).perform calls.length call := by
  simp [run, List.zipIdx_append]

/-- All that was ever put into a mailbox. -/
def letters (e : Exchange) : List Letter := e.boxes.flatMap Mailbox.mail

/-- The network and the mailboxes agree. -/
structure Consistent (e : Exchange) : Prop where
  /-- A joined mailbox is a peer of the network. -/
  kept : ∀ b ∈ e.boxes, b.joined → e.network.peers.get? b.owner = some b.peer
  known : ∀ a p, e.network.peers.get? a = some p → ∃ b ∈ e.boxes, b.joined ∧ b.owner = a
  /-- An account has one joined mailbox at most. -/
  alone : e.boxes.Pairwise fun b b' => b.joined → b'.joined → b.owner ≠ b'.owner
  /-- The counters count the letters of all mailboxes. -/
  counted : ∀ kind, e.network.delivered kind =
    e.letters.countP fun l => l.message.kind = kind

namespace Consistent

theorem get?_iff (h : e.Consistent) {a : Address} {p : Peer} :
    e.network.peers.get? a = some p ↔ ∃ b ∈ e.boxes, b.joined ∧ b.owner = a ∧ b.peer = p := by
  constructor
  · intro hp
    obtain ⟨b, hb, hjoined, rfl⟩ := h.known a p hp
    exact ⟨b, hb, hjoined, rfl, Option.some.inj ((h.kept b hb hjoined).symm.trans hp)⟩
  · rintro ⟨b, hb, hjoined, rfl, rfl⟩
    exact h.kept b hb hjoined

/-- Only the look-ups and the counters of the network matter. -/
theorem of_network (h : e.Consistent) {n : Network}
    (peers : ∀ a, n.peers.get? a = e.network.peers.get? a) (log : n.log = e.network.log) :
    (⟨n, e.boxes⟩ : Exchange).Consistent where
  kept b hb hjoined := (peers b.owner).trans (h.kept b hb hjoined)
  known a p hp := h.known a p ((peers a).symm.trans hp)
  alone := h.alone
  counted kind := (congrArg (List.count kind) log).trans (h.counted kind)

theorem leave (h : e.Consistent) (a : Address) :
    (⟨e.network.leave a, e.boxes.map (·.withdraw a)⟩ : Exchange).Consistent := by
  have hget : ∀ a', (e.network.leave a).peers.get? a' =
      if a' ≠ a then e.network.peers.get? a' else none := fun a' => by
    simp [Network.leave]
  refine ⟨fun b' hb' hjoined => ?_, fun a' p hp => ?_, ?_, fun kind => ?_⟩
  · obtain ⟨b, hb, rfl⟩ := List.mem_map.mp hb'
    obtain ⟨hjoined, howner⟩ := Bool.and_eq_true_iff.mp hjoined
    exact (hget b.owner).trans ((if_pos (bne_iff_ne.mp howner)).trans (h.kept b hb hjoined))
  · rw [hget] at hp
    obtain ⟨hne, hp⟩ := Option.ite_none_right_eq_some.mp hp
    obtain ⟨b, hb, hjoined, rfl⟩ := h.known a' p hp
    exact ⟨b.withdraw a, List.mem_map_of_mem hb, by simp [Mailbox.withdraw, hjoined, hne], rfl⟩
  · refine List.pairwise_map.mpr (h.alone.imp fun hne hb hb' => ?_)
    exact hne (Bool.and_eq_true_iff.mp hb).1 (Bool.and_eq_true_iff.mp hb').1
  · refine (h.counted kind).trans ?_
    simp only [letters, List.flatMap_map]
    rfl

theorem join (h : e.Consistent) {a : Address} (free : ∀ b ∈ e.boxes, b.joined → b.owner ≠ a)
    (roles : RoleSet) :
    (⟨e.network.join a roles, e.boxes ++ [.opened a roles]⟩ : Exchange).Consistent := by
  refine ⟨fun b hb hjoined => ?_, fun a' p hp => ?_, ?_, fun kind => ?_⟩
  · rw [Network.join, OrderedMap.get?_insert]
    obtain hb | hb := List.mem_append.mp hb
    · rw [if_neg (free b hb hjoined), h.kept b hb hjoined]
    · obtain rfl := List.mem_singleton.mp hb
      exact if_pos rfl
  · rw [Network.join, OrderedMap.get?_insert] at hp
    by_cases ha : a' = a
    · exact ⟨.opened a roles, List.mem_append_right _ List.mem_cons_self, rfl, ha.symm⟩
    · obtain ⟨b, hb, hjoined, howner⟩ := h.known a' p ((if_neg ha).symm.trans hp)
      exact ⟨b, List.mem_append_left _ hb, hjoined, howner⟩
  · refine List.pairwise_append.mpr ⟨h.alone, List.pairwise_singleton .., ?_⟩
    intro b hb b' hb' hjoined _
    obtain rfl := List.mem_singleton.mp hb'
    exact free b hb hjoined
  · refine (h.counted kind).trans ?_
    simp [letters, Mailbox.opened, Mailbox.mail]

theorem perm (h : e.Consistent) {boxes : List Mailbox} (p : e.boxes.Perm boxes) :
    (⟨e.network, boxes⟩ : Exchange).Consistent where
  kept b hb := h.kept b (p.mem_iff.mpr hb)
  known a peer hpeer := by
    obtain ⟨b, hb, hjoined⟩ := h.known a peer hpeer
    exact ⟨b, p.mem_iff.mp hb, hjoined⟩
  alone := (p.pairwise_iff fun hne hb' hb => (hne hb hb').symm).mp h.alone
  counted kind := (h.counted kind).trans ((p.flatMap_right _).countP_eq _)

/-- A mailbox changes as its peer does. -/
theorem replace {n : Network} {b : Mailbox} {rest : List Mailbox}
    (h : (⟨n, b :: rest⟩ : Exchange).Consistent) {b' : Mailbox} {g : Peer → Peer}
    (owner : b'.owner = b.owner) (joined : b'.joined = b.joined) (mail : b'.mail = b.mail)
    (peer : b'.peer = g b.peer) :
    (⟨if b.joined then n.modifyPeer b.owner g else n, b' :: rest⟩ : Exchange).Consistent := by
  obtain ⟨hfirst, hrest⟩ := List.pairwise_cons.mp h.alone
  have hget : ∀ a, (if b.joined then n.modifyPeer b.owner g else n).peers.get? a =
      if b.joined ∧ a = b.owner then (n.peers.get? a).map g else n.peers.get? a := fun a => by
    by_cases hjoined : b.joined <;> simp [hjoined, Network.get?_modifyPeer]
  have hlog : (if b.joined then n.modifyPeer b.owner g else n).log = n.log := by
    split <;> simp
  refine ⟨fun c hc hjoined => ?_, fun a p hp => ?_, ?_, fun kind => ?_⟩
  · rw [hget]
    obtain rfl | hc := List.mem_cons.mp hc
    · rw [joined] at hjoined
      rw [if_pos ⟨hjoined, owner⟩, owner, h.kept b List.mem_cons_self hjoined, peer]
      rfl
    · rw [if_neg fun hb => hfirst c hc hb.1 hjoined hb.2.symm]
      exact h.kept c (List.mem_cons_of_mem _ hc) hjoined
  · rw [hget] at hp
    by_cases hb : b.joined ∧ a = b.owner
    · exact ⟨b', List.mem_cons_self, joined.trans hb.1, owner.trans hb.2.symm⟩
    · obtain ⟨c, hc, hjoined, rfl⟩ := h.known a p ((if_neg hb).symm.trans hp)
      obtain rfl | hc := List.mem_cons.mp hc
      · exact absurd ⟨hjoined, rfl⟩ hb
      · exact ⟨c, List.mem_cons_of_mem _ hc, hjoined, rfl⟩
  · exact List.pairwise_cons.mpr ⟨by simpa only [owner, joined] using hfirst, hrest⟩
  · refine ((congrArg (List.count kind) hlog).trans (h.counted kind)).trans ?_
    simp only [letters, List.flatMap_cons, mail]

/-- What a receiver does changes the peer as it changes the mailbox. -/
theorem handle (h : e.Consistent) (k : Nat) {act : Network → Address → Network}
    {f : Mailbox → Mailbox} {g : Peer → Peer} (hact : ∀ n a, act n a = n.modifyPeer a g)
    (owner : ∀ b, (f b).owner = b.owner) (joined : ∀ b, (f b).joined = b.joined)
    (mail : ∀ b, (f b).mail = b.mail) (peer : ∀ b, (f b).peer = g b.peer) :
    (e.handle k act f).Consistent := by
  by_cases hk : k < e.boxes.length
  · obtain ⟨before, b, after, hboxes, hlength, hmodify⟩ := List.exists_of_modify f hk
    have hb : e.boxes[k]? = some b := by simp [hboxes, ← hlength]
    have hfirst := h.perm (hboxes ▸ List.perm_middle)
    rw [Exchange.handle, hb, hmodify]
    simp only [hact]
    exact (hfirst.replace (owner b) (joined b) (mail b) (peer b)).perm List.perm_middle.symm
  · have hnone : e.boxes[k]? = none := List.getElem?_eq_none (Nat.le_of_not_lt hk)
    rw [Exchange.handle, hnone, List.modify_eq_self (Nat.le_of_not_lt hk)]
    exact h

/-- A joined mailbox takes down the message if its owner is among the receivers. -/
theorem boxes_convey (h : e.Consistent) {receivers : List Address} (nodup : receivers.Nodup)
    (m : Message) (call : Nat) (sender : Address) :
    (e.convey (e.network.spread receivers m) call sender).boxes =
      e.boxes.map (.receive receivers ⟨call, sender, m⟩) := by
  refine List.map_congr_left fun b hb => ?_
  by_cases hjoined : b.joined
  · rw [if_pos hjoined, Network.arrivals, Network.inbox, Network.inbox,
      Network.get?_spread nodup, h.kept b hb hjoined]
    by_cases ha : b.owner ∈ receivers
    · simp [ha, hjoined, Mailbox.receive, Mailbox.put]
    · simp [ha, Mailbox.receive]
  · rw [if_neg hjoined, Mailbox.receive, if_neg (mt And.left hjoined)]

/-- Receivers are counted by their mailboxes. -/
theorem countP_receivers (h : e.Consistent) {receivers : List Address} (nodup : receivers.Nodup)
    (live : ∀ a ∈ receivers, ∃ p, e.network.peers.get? a = some p ∧ p.live) :
    (e.boxes.countP fun b => b.joined ∧ b.owner ∈ receivers) = receivers.length := by
  have hnodup : ((e.boxes.filter fun b => b.joined ∧ b.owner ∈ receivers).map
      Mailbox.owner).Nodup := by
    refine List.pairwise_map.mpr (List.pairwise_filter.mpr (h.alone.imp fun hne hb hb' => ?_))
    exact hne (of_decide_eq_true hb).1 (of_decide_eq_true hb').1
  have hperm := (List.perm_ext_iff_of_nodup hnodup nodup).mpr fun a => by
    simp only [List.mem_map, List.mem_filter, decide_eq_true_eq]
    constructor
    · rintro ⟨b, ⟨-, -, hb⟩, rfl⟩
      exact hb
    · intro ha
      obtain ⟨p, hp, -⟩ := live a ha
      obtain ⟨b, hb, hjoined, rfl⟩ := h.known a p hp
      exact ⟨b, ⟨hb, hjoined, ha⟩, rfl⟩
  rw [List.countP_eq_length_filter, ← hperm.length_eq, List.length_map]

theorem convey (h : e.Consistent) {receivers : List Address} (nodup : receivers.Nodup)
    (live : ∀ a ∈ receivers, ∃ p, e.network.peers.get? a = some p ∧ p.live) (m : Message)
    (call : Nat) (sender : Address) :
    (e.convey (e.network.spread receivers m) call sender).Consistent := by
  suffices hput : (⟨e.network.spread receivers m,
      e.boxes.map (.receive receivers ⟨call, sender, m⟩)⟩ : Exchange).Consistent by
    rw [← h.boxes_convey nodup] at hput
    exact hput
  refine ⟨fun b' hb' hjoined => ?_, fun a p hp => ?_, ?_, fun kind => ?_⟩
  · obtain ⟨b, hb, rfl⟩ := List.mem_map.mp hb'
    rw [Mailbox.joined_receive] at hjoined
    have hkept := h.kept b hb hjoined
    rw [Mailbox.owner_receive, Network.get?_spread nodup, hkept, Option.map_some, Mailbox.receive]
    by_cases ha : b.owner ∈ receivers
    · obtain ⟨p, hp, hlive⟩ := live b.owner ha
      obtain rfl := Option.some.inj (hkept.symm.trans hp)
      rw [if_pos ha, if_pos ⟨hjoined, ha⟩, Mailbox.peer_put hlive]
    · rw [if_neg ha, if_neg (mt And.right ha)]
  · rw [Network.get?_spread nodup, Option.map_eq_some_iff] at hp
    obtain ⟨q, hq, -⟩ := hp
    obtain ⟨b, hb, hjoined, rfl⟩ := h.known a q hq
    exact ⟨_, List.mem_map_of_mem hb, (Mailbox.joined_receive ..).trans hjoined,
      Mailbox.owner_receive ..⟩
  · refine List.pairwise_map.mpr (h.alone.imp fun hne => ?_)
    simpa only [Mailbox.owner_receive, Mailbox.joined_receive] using hne
  · rw [Network.delivered, Network.log_spread, List.count_append, List.count_replicate, letters,
      Mailbox.countP_receive, h.countP_receivers nodup live]
    simpa [Network.delivered, letters] using h.counted kind

end Consistent

/-- Whether what an account sends gets into a mailbox: the mailbox is joined and read, belongs
to somebody else, and the link to its owner is whole. -/
def hears (e : Exchange) (sender : Address) (b : Mailbox) : Bool :=
  b.joined && b.held && sender != b.owner && !e.network.isCut sender b.owner

namespace Consistent

theorem hears_iff (h : e.Consistent) {b : Mailbox} (hb : b ∈ e.boxes) :
    e.hears sender b ↔ b.joined ∧ e.network.reaches sender b.owner := by
  by_cases hjoined : b.joined
  · simp [hears, Network.reaches, h.kept b hb hjoined, hjoined, Mailbox.peer, Bool.and_comm,
      and_assoc]
  · simp [hears, hjoined]

theorem mem_audience_iff (h : e.Consistent) {b : Mailbox} (hb : b ∈ e.boxes) :
    b.joined ∧ b.owner ∈ e.network.audience sender roles ↔
      e.hears sender b ∧ b.roles.intersects roles := by
  rw [h.hears_iff hb, and_assoc]
  refine and_congr_right fun hjoined => ?_
  simp [Network.mem_audience_iff, h.kept b hb hjoined, Mailbox.peer, and_comm]

theorem mem_target_iff (h : e.Consistent) {b : Mailbox} (hb : b ∈ e.boxes) :
    b.joined ∧ b.owner ∈ e.network.target sender receiver ↔
      e.hears sender b ∧ b.owner = receiver := by
  rw [h.hears_iff hb, Network.mem_target_iff, and_assoc, and_comm (a := b.owner = receiver)]

theorem boxes_broadcast (h : e.Consistent) (call : Nat) (sender : Address) (m : Message)
    (roles : RoleSet) : (e.perform call (.broadcast sender m roles)).boxes = e.boxes.map fun b =>
      if e.hears sender b ∧ b.roles.intersects roles then b.put ⟨call, sender, m⟩ else b := by
  rw [perform, Network.broadcast_eq]
  refine (h.boxes_convey (Network.nodup_audience ..) m call sender).trans ?_
  refine List.map_congr_left fun b hb => ?_
  simp only [Mailbox.receive, h.mem_audience_iff hb]

theorem boxes_send (h : e.Consistent) (call : Nat) (sender receiver : Address) (m : Message) :
    (e.perform call (.send sender receiver m)).boxes = e.boxes.map fun b =>
      if e.hears sender b ∧ b.owner = receiver then b.put ⟨call, sender, m⟩ else b := by
  rw [perform, Network.send_eq]
  refine (h.boxes_convey (Network.nodup_target ..) m call sender).trans ?_
  refine List.map_congr_left fun b hb => ?_
  simp only [Mailbox.receive, h.mem_target_iff hb]

/-- A message to one peer arrives exactly if a mailbox of that peer hears it. -/
theorem reaches_iff (h : e.Consistent) : e.network.reaches sender receiver ↔
    ∃ b ∈ e.boxes, e.hears sender b ∧ b.owner = receiver := by
  constructor
  · intro hreach
    obtain ⟨-, -, p, hp, -⟩ := Network.reaches_iff.mp hreach
    obtain ⟨b, hb, hjoined, rfl⟩ := h.known receiver p hp
    exact ⟨b, hb, (h.hears_iff hb).mpr ⟨hjoined, hreach⟩, rfl⟩
  · rintro ⟨b, hb, hhears, rfl⟩
    exact ((h.hears_iff hb).mp hhears).2

theorem perform (h : e.Consistent) (call : Nat) (c : NetworkCall) :
    (e.perform call c).Consistent := by
  cases c with
  | join account roles =>
      have hleft := h.leave account
      have hjoined := hleft.join (a := account) (fun b' hb' hjoined => ?_) roles
      · refine hjoined.of_network (fun a => ?_) rfl
        simp only [Network.join, OrderedMap.get?_insert, Network.leave,
          OrderedMap.get?_filterKeys]
        by_cases ha : a = account <;> simp [ha]
      · obtain ⟨b, -, rfl⟩ := List.mem_map.mp hb'
        exact bne_iff_ne.mp (Bool.and_eq_true_iff.mp hjoined).2
  | leave account => exact h.leave account
  | drop receiver =>
      exact h.handle receiver (fun _ _ => rfl) (fun _ => rfl) (fun _ => rfl) (fun _ => rfl)
        fun _ => rfl
  | read receiver =>
      exact h.handle receiver Network.readOne_eq Mailbox.owner_take Mailbox.joined_take
        Mailbox.mail_take Mailbox.peer_take
  | cut sender receiver => exact h.of_network (fun _ => rfl) rfl
  | isolate account => exact h.of_network (fun _ => rfl) rfl
  | heal => exact h.of_network (fun _ => rfl) rfl
  | broadcast sender m roles =>
      rw [Exchange.perform, Network.broadcast_eq]
      refine h.convey (Network.nodup_audience ..) (fun a ha => ?_) m call sender
      obtain ⟨-, -, -, hreach⟩ := Network.mem_audience_iff.mp ha
      exact (Network.reaches_iff.mp hreach).2.2
  | send sender receiver m =>
      rw [Exchange.perform, Network.send_eq]
      refine h.convey (Network.nodup_target ..) (fun a ha => ?_) m call sender
      exact (Network.reaches_iff.mp (Network.mem_target_iff.mp ha).2).2.2

end Consistent

theorem consistent_run (calls : List NetworkCall) : (run calls).Consistent := by
  induction calls using List.reverseRecOn with
  | nil =>
      exact ⟨fun _ hb => (List.not_mem_nil hb).elim, nofun, List.Pairwise.nil, fun _ => rfl⟩
  | append_singleton calls call ih =>
      rw [run_concat]
      exact ih.perform calls.length call

end Exchange

end StakeConsensus
