import StakeConsensus.Proofs.Network.Exchange

/-!
# What a network delivers

A broadcast gets once into each mailbox that hears its sender and is addressed, a message to
one peer into the mailbox of that peer. Nothing else gets into a mailbox, and the letters stand
there in the order in which they were sent. A link is cut if one of the calls cut it and the
links were not healed since: so an account that was isolated exchanges nothing with those that
were joined then, whoever leaves and joins in the meantime.
-/

namespace StakeConsensus.Exchange

variable {e : Exchange} {calls : List NetworkCall} {sender receiver : Address} {m : Message}

/-! ### The letters of a mailbox -/

/-- The mailbox after a call has the letters of the one before it, and perhaps one more, from
somebody who reaches its owner. -/
def Continues (e : Exchange) (call : Nat) (c : NetworkCall) (b b' : Mailbox) : Prop :=
  b'.owner = b.owner ∧ (b'.mail = b.mail ∨ ∃ sender m, c.Sends sender m ∧
    e.network.reaches sender b.owner ∧ b'.mail = b.mail ++ [⟨call, sender, m⟩])

theorem continues_of_mem_handle {call k : Nat} {c : NetworkCall}
    {act : Network → Address → Network} {f : Mailbox → Mailbox}
    (owner : ∀ b, (f b).owner = b.owner) (mail : ∀ b, (f b).mail = b.mail) {b' : Mailbox}
    (hb' : b' ∈ (e.handle k act f).boxes) : ∃ b ∈ e.boxes, e.Continues call c b b' := by
  obtain ⟨i, hi, rfl⟩ := List.mem_iff_getElem.mp hb'
  have hbound : i < e.boxes.length := List.length_modify .. ▸ hi
  refine ⟨e.boxes[i], List.getElem_mem hbound, ?_⟩
  simp only [Exchange.handle, List.getElem_modify]
  split
  · exact ⟨owner _, .inl (mail _)⟩
  · exact ⟨rfl, .inl rfl⟩

theorem Consistent.continues_of_mem_put (h : e.Consistent) {call : Nat} {c : NetworkCall}
    (sends : c.Sends sender m) {p : Mailbox → Prop} [DecidablePred p] {b' : Mailbox}
    (hb' : b' ∈ e.boxes.map fun b =>
      if e.hears sender b ∧ p b then b.put ⟨call, sender, m⟩ else b) :
    ∃ b ∈ e.boxes, e.Continues call c b b' := by
  obtain ⟨b, hb, rfl⟩ := List.mem_map.mp hb'
  refine ⟨b, hb, ?_⟩
  split
  · rename_i hput
    have hreach := ((h.hears_iff hb).mp hput.1).2
    exact ⟨rfl, .inr ⟨sender, m, sends, hreach, Mailbox.mail_put ..⟩⟩
  · exact ⟨rfl, .inl rfl⟩

/-- A mailbox after a call is new and empty, or continues one from before. -/
theorem Consistent.continues (h : e.Consistent) {call : Nat} {c : NetworkCall} {b' : Mailbox}
    (hb' : b' ∈ (e.perform call c).boxes) :
    b'.mail = [] ∨ ∃ b ∈ e.boxes, e.Continues call c b b' := by
  cases c with
  | join account roles =>
      obtain hb' | hb' := List.mem_append.mp hb'
      · obtain ⟨b, hb, rfl⟩ := List.mem_map.mp hb'
        exact .inr ⟨b, hb, rfl, .inl rfl⟩
      · obtain rfl := List.mem_singleton.mp hb'
        exact .inl rfl
  | leave account =>
      obtain ⟨b, hb, rfl⟩ := List.mem_map.mp hb'
      exact .inr ⟨b, hb, rfl, .inl rfl⟩
  | drop receiver =>
      have howner (b : Mailbox) : b.discard.owner = b.owner := rfl
      have hmail (b : Mailbox) : b.discard.mail = b.mail := rfl
      exact .inr (continues_of_mem_handle howner hmail hb')
  | read receiver =>
      exact .inr (continues_of_mem_handle Mailbox.owner_take Mailbox.mail_take hb')
  | cut sender receiver => exact .inr ⟨b', hb', rfl, .inl rfl⟩
  | isolate account => exact .inr ⟨b', hb', rfl, .inl rfl⟩
  | heal => exact .inr ⟨b', hb', rfl, .inl rfl⟩
  | broadcast sender m roles =>
      have hsends : (NetworkCall.broadcast sender m roles).Sends sender m := ⟨rfl, rfl⟩
      exact .inr (h.continues_of_mem_put hsends (h.boxes_broadcast .. ▸ hb'))
  | send sender receiver m =>
      have hsends : (NetworkCall.send sender receiver m).Sends sender m := ⟨rfl, rfl⟩
      exact .inr (h.continues_of_mem_put hsends (h.boxes_send .. ▸ hb'))

/-- The letter was sent by one of the calls, when its sender reached the account. -/
structure Sent (calls : List NetworkCall) (account : Address) (l : Letter) : Prop where
  said : ∃ c, calls[l.call]? = some c ∧ c.Sends l.sender l.message
  reached : (run (calls.take l.call)).network.reaches l.sender account

theorem Sent.lt {account : Address} {l : Letter} (sent : Sent calls account l) :
    l.call < calls.length := by
  obtain ⟨c, hc, -⟩ := sent.said
  exact (List.getElem?_eq_some_iff.mp hc).1

theorem Sent.append {account : Address} {l : Letter} (sent : Sent calls account l)
    (later : List NetworkCall) : Sent (calls ++ later) account l where
  said := by
    rw [List.getElem?_append_left sent.lt]
    exact sent.said
  reached := by
    rw [List.take_append_of_le_length (Nat.le_of_lt sent.lt)]
    exact sent.reached

/-- Every letter was sent, and a mailbox has its letters in the order of the calls. -/
theorem sent_run (calls : List NetworkCall) : ∀ b ∈ (run calls).boxes,
    (∀ l ∈ b.mail, Sent calls b.owner l) ∧ b.mail.Pairwise fun l l' => l.call < l'.call := by
  induction calls using List.reverseRecOn with
  | nil => exact fun _ hb => (List.not_mem_nil hb).elim
  | append_singleton calls call ih =>
      intro b' hb'
      rw [run_concat] at hb'
      obtain hnew | ⟨b, hb, howner, hmail⟩ := (consistent_run calls).continues hb'
      · rw [hnew]
        exact ⟨fun l hl => (List.not_mem_nil hl).elim, List.Pairwise.nil⟩
      obtain ⟨hsent, hordered⟩ := ih b hb
      rw [howner]
      obtain hmail | ⟨sender, m, hsends, hreach, hmail⟩ := hmail <;> rw [hmail]
      · exact ⟨fun l hl => (hsent l hl).append [call], hordered⟩
      · refine ⟨fun l hl => ?_, List.pairwise_append.mpr
          ⟨hordered, List.pairwise_singleton .., fun l hl l' hl' => ?_⟩⟩
        · obtain hl | hl := List.mem_append.mp hl
          · exact (hsent l hl).append [call]
          · obtain rfl := List.mem_singleton.mp hl
            exact ⟨⟨call, List.getElem?_concat_length, hsends⟩, by simpa using hreach⟩
        · obtain rfl := List.mem_singleton.mp hl'
          exact (hsent l hl).lt

/-! ### Cut links -/

/-- The call cuts a link of the network. -/
def Cuts (n : Network) (sender receiver : Address) : NetworkCall → Prop
  | .cut s r => sender = s ∧ receiver = r
  | .isolate a => (sender = a ∧ receiver ≠ a ∧ receiver ∈ n.peers.keys) ∨
      (receiver = a ∧ sender ≠ a ∧ sender ∈ n.peers.keys)
  | _ => False

/-- One of the calls cut the link, and the links were not healed since. -/
def Severed (calls : List NetworkCall) (sender receiver : Address) : Prop :=
  ∃ before call after, calls = before ++ call :: after ∧
    Cuts (run before).network sender receiver call ∧ .heal ∉ after

theorem cuts_handle (e : Exchange) (k : Nat) (f : Mailbox → Mailbox)
    {act : Network → Address → Network} (kept : ∀ n a, (act n a).cuts = n.cuts) :
    (e.handle k act f).network.cuts = e.network.cuts := by
  rw [handle]
  repeat' split
  · exact kept ..
  · rfl
  · rfl

theorem isCut_perform_iff {call : Nat} {c : NetworkCall} :
    (e.perform call c).network.isCut sender receiver ↔
      Cuts e.network sender receiver c ∨ c ≠ .heal ∧ e.network.isCut sender receiver := by
  have hplain (kept : (e.perform call c).network.cuts = e.network.cuts)
      (hcuts : ¬ Cuts e.network sender receiver c) (hheal : c ≠ .heal) :
      (e.perform call c).network.isCut sender receiver ↔
        Cuts e.network sender receiver c ∨ c ≠ .heal ∧ e.network.isCut sender receiver := by
    simp [Network.isCut, kept, hcuts, hheal]
  cases c with
  | join account roles => exact hplain rfl id (by simp)
  | leave account => exact hplain rfl id (by simp)
  | drop k =>
      exact hplain (e.cuts_handle k _ fun n a => Network.cuts_modifyPeer n a _) id (by simp)
  | read k =>
      exact hplain (e.cuts_handle k _ fun n a => by simp [Network.readOne_eq]) id (by simp)
  | cut s r => simp [perform, Network.cut, Network.isCut, Cuts]
  | isolate account => simp [perform, Network.isCut_isolate_iff, Cuts, or_assoc]
  | heal => simp [perform, Network.heal, Network.isCut, Cuts]
  | broadcast s m roles => exact hplain (Network.cuts_spread ..) id (by simp)
  | send s r m =>
      exact hplain (by simp [perform, convey, Network.send_eq]) id (by simp)

theorem severed_concat_iff {call : NetworkCall} : Severed (calls ++ [call]) sender receiver ↔
    Cuts (run calls).network sender receiver call ∨
      call ≠ .heal ∧ Severed calls sender receiver := by
  constructor
  · rintro ⟨before, c, after, heq, hcuts, hheal⟩
    obtain rfl | ⟨after, last, rfl⟩ := List.eq_nil_or_concat after
    · obtain ⟨rfl, rfl⟩ := List.append_singleton_inj.mp heq
      exact .inl hcuts
    · rw [List.concat_eq_append, ← List.cons_append, ← List.append_assoc] at heq
      obtain ⟨rfl, rfl⟩ := List.append_singleton_inj.mp heq
      rw [List.concat_eq_append, List.mem_append, not_or, List.mem_singleton] at hheal
      exact .inr ⟨Ne.symm hheal.2, before, c, after, rfl, hcuts, hheal.1⟩
  · rintro (hcuts | ⟨hne, before, c, after, rfl, hcuts, hheal⟩)
    · exact ⟨calls, call, [], rfl, hcuts, List.not_mem_nil⟩
    · refine ⟨before, c, after ++ [call], by simp, hcuts, ?_⟩
      simpa [hheal] using Ne.symm hne

theorem isCut_run_iff : (run calls).network.isCut sender receiver ↔
    Severed calls sender receiver := by
  induction calls using List.reverseRecOn with
  | nil => simp [run, Network.empty, Network.isCut, Severed]
  | append_singleton calls call ih =>
      rw [severed_concat_iff, ← ih, run_concat, isCut_perform_iff]

/-- An isolated account and a peer that was joined then stay apart until the links are healed. -/
theorem severed_of_isolate {before after : List NetworkCall} {a peer : Address} (hne : peer ≠ a)
    (joined : peer ∈ (run before).network.peers.keys) (unhealed : .heal ∉ after) :
    Severed (before ++ .isolate a :: after) a peer ∧
      Severed (before ++ .isolate a :: after) peer a :=
  ⟨⟨before, _, after, rfl, .inl ⟨rfl, hne, joined⟩, unhealed⟩,
    ⟨before, _, after, rfl, .inr ⟨rfl, hne, joined⟩, unhealed⟩⟩

theorem Sent.not_severed {account : Address} {l : Letter} (sent : Sent calls account l) :
    ¬ Severed (calls.take l.call) l.sender account := by
  have hopen := (Network.reaches_iff.mp sent.reached).2.1
  rw [← isCut_run_iff, hopen]
  exact Bool.false_ne_true

/-! ### The rules of the network -/

/-- What the network delivers over some calls, and with the next call. -/
structure Delivers (calls : List NetworkCall) : Prop where
  /-- The peers of the network are the joined mailboxes, and the inboxes hold what waits there. -/
  peers : ∀ a p, (run calls).network.peers.get? a = some p ↔
    ∃ b ∈ (run calls).boxes, b.joined ∧ b.owner = a ∧ b.peer = p
  alone : (run calls).boxes.Pairwise fun b b' => b.joined → b'.joined → b.owner ≠ b'.owner
  /-- A broadcast is put once into every mailbox that hears it and has one of the roles. -/
  broadcast : ∀ sender m roles, (run (calls ++ [.broadcast sender m roles])).boxes =
    (run calls).boxes.map fun b =>
      if (run calls).hears sender b ∧ b.roles.intersects roles then
        b.put ⟨calls.length, sender, m⟩
      else b
  /-- A message to one peer is put into its mailbox if that hears it, whatever its roles. -/
  send : ∀ sender receiver m, (run (calls ++ [.send sender receiver m])).boxes =
    (run calls).boxes.map fun b =>
      if (run calls).hears sender b ∧ b.owner = receiver then b.put ⟨calls.length, sender, m⟩
      else b
  arrived : ∀ sender receiver m, ((run calls).network.send sender receiver m).2 ↔
    ∃ b ∈ (run calls).boxes, (run calls).hears sender b ∧ b.owner = receiver
  cut : ∀ sender receiver, (run calls).network.isCut sender receiver ↔
    Severed calls sender receiver
  /-- Nothing is in a mailbox but what was sent to it. -/
  sent : ∀ b ∈ (run calls).boxes, ∀ l ∈ b.mail, Sent calls b.owner l
  ordered : ∀ b ∈ (run calls).boxes, b.mail.Pairwise fun l l' => l.call < l'.call
  /-- The counters count the letters of all mailboxes, those out of use included. -/
  delivered : ∀ kind, (run calls).network.delivered kind =
    (run calls).letters.countP fun l => l.message.kind = kind
  /-- Between an isolated account and those joined then no letter passes until the links are
  healed, whoever leaves and joins. -/
  isolated : ∀ before a after, calls = before ++ .isolate a :: after → .heal ∉ after →
    ∀ peer ∈ (run before).network.peers.keys, ∀ b ∈ (run calls).boxes, ∀ l ∈ b.mail,
      before.length < l.call →
        ¬ (l.sender = a ∧ b.owner = peer) ∧ ¬ (l.sender = peer ∧ b.owner = a)

/-- The network delivers what its rules say, over all calls. -/
theorem network_delivers (calls : List NetworkCall) : Delivers calls := by
  have hcons := consistent_run calls
  have hsent := sent_run calls
  refine { peers := fun _ _ => hcons.get?_iff, alone := hcons.alone,
           broadcast := fun sender m roles => ?_, send := fun sender receiver m => ?_,
           arrived := fun sender receiver m => ?_, cut := fun _ _ => isCut_run_iff,
           sent := fun b hb => (hsent b hb).1, ordered := fun b hb => (hsent b hb).2,
           delivered := hcons.counted, isolated := ?_ }
  · rw [run_concat, hcons.boxes_broadcast]
  · rw [run_concat, hcons.boxes_send]
  · rw [Network.send_eq]
    exact hcons.reaches_iff
  · intro before a after hcalls unhealed peer joined b hb l hl later
    have hl := (hsent b hb).1 l hl
    have hapart := (Network.reaches_iff.mp hl.reached).1
    obtain ⟨k, hk⟩ := Nat.exists_eq_add_of_lt later
    have htake : calls.take l.call = before ++ .isolate a :: after.take k := by
      rw [hcalls, hk, Nat.add_assoc, List.take_length_add_append, List.take_succ_cons]
    have hsevered := hl.not_severed
    rw [htake] at hsevered
    have hunhealed : .heal ∉ after.take k := fun h => unhealed (List.mem_of_mem_take h)
    constructor
    · rintro ⟨rfl, rfl⟩
      exact hsevered (severed_of_isolate hapart.symm joined hunhealed).1
    · rintro ⟨rfl, rfl⟩
      exact hsevered (severed_of_isolate hapart joined hunhealed).2

end StakeConsensus.Exchange
