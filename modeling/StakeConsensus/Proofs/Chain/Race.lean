import StakeConsensus.Proofs.Chain.Lineage

/-!
# Commits that race

A commit takes the lock of the chain three times: to read the head, to read the state of the
parent, and to append the block. Between that other commits may do the same. Only the height
is compared again before the block is appended, and that suffices: heights grow by one, so a
block of the next height that was built on an earlier head was built on the head that is
still there.
-/

namespace StakeConsensus

/-- How far a commit has come when it does not hold the lock. -/
inductive CommitStage where
  | called
  /-- The header follows the head that was read. -/
  | following
  /-- The block is the one of the header. -/
  | built (block : Block) (state : ChainState)
  | returned (result : Except BackendError Bool)

/-- A commit on its way. -/
structure CommitCall where
  header : Header
  txs : List Transaction
  stage : CommitStage

namespace Chain

/-- Compares a header with the head. -/
def readHead (c : Chain) (h : Header) : CommitStage :=
  if h.height ≤ c.height then .returned (.ok false)
  else if h.height.toNat ≠ c.height.toNat + 1 ∨ h.parent ≠ c.head.hash then
    .returned (.error (.unknownState h.parent))
  else .following

/-- Reads the state of the parent and builds the block. -/
def readState (c : Chain) (h : Header) (txs : List Transaction) : CommitStage :=
  match c.build h txs with
  | .error e => .returned (.error e)
  | .ok b =>
    if b.block.hash = h.hash then .built (b.sealedBy h) b.state
    else .returned (.error (.execution (.divergent b.block.hash h.hash)))

variable {g : Genesis} {c c' : Chain} {line newer : List BuiltBlock}

/-- Blocks, head and states of a chain fit each other. -/
structure Coherent (c : Chain) : Prop where
  heights : ∀ (i : Nat) (block : Block), c.blocks[i]? = some block →
    block.header.height.toNat = i
  links : ∀ (i : Nat) (block next : Block), c.blocks[i]? = some block →
    c.blocks[i + 1]? = some next → next.header.parent = block.hash
  last : c.blocks.getLast? = some c.head
  known : ∀ hash, (∃ s, c.stateAt hash = .ok s) ↔ ∃ block ∈ c.blocks, block.hash = hash
  roots : ∀ block ∈ c.blocks, ∀ s, c.stateAt block.hash = .ok s → block.header.stateRoot = s.root

/-- What a chain has stored, another one has as well. -/
structure ExtendedBy (c c' : Chain) : Prop where
  blocks : c.blocks <+: c'.blocks
  states : ∀ hash s, c.stateAt hash = .ok s → c'.stateAt hash = .ok s

theorem Descends.coherent (h : c.Descends g line) (free : CollisionFree c.HashesHeader) :
    c.Coherent where
  heights := by
    intro i block hget
    obtain ⟨newer, b, older, rfl, rfl, rfl⟩ := h.blocks_get?_iff.mp hget
    exact h.lineage.of_append.height
  links := by
    intro i block next hget hnext
    obtain ⟨newer, b, older, rfl, hi, rfl⟩ := h.blocks_get?_iff.mp hnext
    cases older with
    | nil => cases hi
    | cons parent older =>
        have hparent : c.blocks[i]? = some parent.block :=
          h.blocks_get?_iff.mpr ⟨newer ++ [b], parent, older, by simp, by simpa using hi, rfl⟩
        obtain rfl := Option.some.inj (hget.symm.trans hparent)
        exact h.lineage.of_append.follows.links
  last := by
    rw [h.blocks, List.getLast?_reverse, List.head?_map]
    exact h.head
  known := by
    intro hash
    constructor
    · rintro ⟨s, hs⟩
      obtain ⟨newer, b, older, hline, hhash, -, -⟩ := h.stateAt_ok_iff.mp hs
      exact ⟨b.block, h.mem_blocks_iff.mpr ⟨newer, b, older, hline, rfl⟩, hhash⟩
    · rintro ⟨block, hmem, rfl⟩
      obtain ⟨newer, b, older, hline, rfl⟩ := h.mem_blocks_iff.mp hmem
      exact ⟨b.state, h.stateAt_block free hline⟩
  roots := by
    intro block hmem s hs
    obtain ⟨newer, b, older, rfl, rfl⟩ := h.mem_blocks_iff.mp hmem
    obtain rfl := Except.ok.inj (hs.symm.trans (h.stateAt_block free rfl))
    exact h.lineage.of_append.root_eq

theorem Descends.extendedBy (h : c.Descends g line) (h' : c'.Descends g (newer ++ line))
    (free : CollisionFree c'.HashesHeader) : c.ExtendedBy c' where
  blocks := by
    rw [h.blocks, h'.blocks, List.map_append, List.reverse_append]
    exact List.prefix_append _ _
  states := by
    intro hash s hs
    obtain ⟨above, b, older, rfl, rfl, rfl, -⟩ := h.stateAt_ok_iff.mp hs
    exact h'.stateAt_block free (List.append_assoc newer above (b :: older)).symm

/-- A header that is accepted has a parent, and so the state after it. -/
theorem Coherent.stateAt_parent {h : Header} (coherent : c.Coherent)
    (accepted : c.verifyHeader h = .ok ()) : ∃ s, c.stateAt h.parent = .ok s := by
  unfold verifyHeader at accepted
  split at accepted
  · cases accepted
  · rename_i parent hfind
    apply (coherent.known h.parent).mpr
    have hmem := List.mem_of_find?_eq_some hfind
    exact ⟨parent, List.mem_reverse.mp hmem, by simpa using List.find?_some hfind⟩

end Chain

namespace CommitCall

/-- What a commit does the next time it has the lock. -/
def step (call : CommitCall) (c : Chain) : Chain × CommitStage :=
  match call.stage with
  | .called => (c, c.readHead call.header)
  | .following => (c, c.readState call.header call.txs)
  | .built block state =>
    let (c, grew) := c.append block state
    (c, .returned (.ok grew))
  | .returned result => (c, .returned result)

/-- Takes the lock a number of times. -/
def steps (c : Chain) (call : CommitCall) : Nat → Chain × CommitCall
  | 0 => (c, call)
  | n + 1 =>
    let (c, stage) := call.step c
    steps c { call with stage } n

/-- A commit that nothing comes between. -/
theorem steps_alone (c : Chain) (h : Header) (txs : List Transaction) :
    ((steps c ⟨h, txs, .called⟩ 3).1, (steps c ⟨h, txs, .called⟩ 3).2.stage) =
      ((c.commit h txs).1, .returned (c.commit h txs).2) := by
  by_cases hpast : h.height ≤ c.height
  · simp only [steps, step, Chain.readHead, Chain.commit, Chain.prepare, if_pos hpast]
  by_cases hfar : h.height.toNat ≠ c.height.toNat + 1 ∨ h.parent ≠ c.head.hash
  · simp only [steps, step, Chain.readHead, Chain.commit, Chain.prepare, if_neg hpast, if_pos hfar]
  simp only [steps, step, Chain.readHead, Chain.readState, Chain.commit, Chain.prepare,
    if_neg hpast, if_neg hfar]
  cases c.build h txs with
  | error e => rfl
  | ok b =>
      by_cases hsame : b.block.hash = h.hash
      · simp only [if_pos hsame, BuiltBlock.sealedBy]
      · simp only [if_neg hsame]

/-- The commit has made the chain grow. -/
def Grew (call : CommitCall) : Prop := call.stage = .returned (.ok true)

/-- What a commit can do when it has the lock. -/
inductive Move (c : Chain) (h : Header) (txs : List Transaction) :
    CommitStage → Chain → CommitStage → Prop where
  | rest {result : Except BackendError Bool} : Move c h txs (.returned result) c (.returned result)
  | fail {stage : CommitStage} {result : Except BackendError Bool} (failed : result ≠ .ok true) :
      Move c h txs stage c (.returned result)
  | follow (next : h.height.toNat = c.height.toNat + 1) (links : h.parent = c.head.hash) :
      Move c h txs .called c .following
  | build {b : BuiltBlock} (builds : c.build h txs = .ok b) (same : b.block.hash = h.hash) :
      Move c h txs .following c (.built (b.sealedBy h) b.state)
  | grow {block : Block} {state : ChainState} (higher : c.height < block.header.height) :
      Move c h txs (.built block state) (c.extend block state) (.returned (.ok true))

theorem Move.chain_eq {c c' : Chain} {h : Header} {txs : List Transaction}
    {stage stage' : CommitStage} (move : Move c h txs stage c' stage') :
    c' = c ∨ stage' = .returned (.ok true) := by
  cases move with
  | grow higher => exact .inr rfl
  | _ => exact .inl rfl

theorem step_move (call : CommitCall) (c : Chain) :
    Move c call.header call.txs call.stage (call.step c).1 (call.step c).2 := by
  obtain ⟨h, txs, stage⟩ := call
  cases stage with
  | called =>
      simp only [step, Chain.readHead]
      split
      · exact .fail (by simp)
      split
      · exact .fail (by simp)
      · rename_i hfar
        obtain ⟨hnext, hparent⟩ : h.height.toNat = c.height.toNat + 1 ∧ h.parent = c.head.hash := by
          simpa using hfar
        exact .follow hnext hparent
  | following =>
      simp only [step, Chain.readState]
      split
      · exact .fail (by simp)
      · rename_i hbuild
        split
        · rename_i hsame
          exact .build hbuild hsame
        · exact .fail (by simp)
  | built block state =>
      simp only [step, Chain.append]
      split
      · exact .fail (by simp)
      · rename_i hheight
        exact .grow (UInt64.not_le.mp hheight)
  | returned result => exact .rest

/-- How the stage of a commit fits the lineage of the chain. -/
inductive Fits (line : List BuiltBlock) (h : Header) (txs : List Transaction) :
    CommitStage → Prop where
  | called : Fits line h txs .called
  | following (newer : List BuiltBlock) {older : List BuiltBlock} {parent : BuiltBlock}
      (place : line = newer ++ parent :: older)
      (next : h.height.toNat = parent.block.header.height.toNat + 1)
      (links : h.parent = parent.block.hash) : Fits line h txs .following
  | built (newer : List BuiltBlock) {older : List BuiltBlock} {parent b : BuiltBlock}
      (place : line = newer ++ parent :: older)
      (next : h.height.toNat = parent.block.header.height.toNat + 1)
      (links : h.parent = parent.block.hash) (height : b.block.header.height = h.height)
      (same : b.block.hash = h.hash) (builds : newer = [] → parent.state.build h txs = .ok b) :
      Fits line h txs (.built (b.sealedBy h) b.state)
  | failed {result : Except BackendError Bool} (failed : result ≠ .ok true) :
      Fits line h txs (.returned result)
  | grew (newer : List BuiltBlock) {older : List BuiltBlock} {b : BuiltBlock}
      (place : line = newer ++ b :: older)
      (height : b.block.header.height = h.height) (same : b.block.hash = h.hash) :
      Fits line h txs (.returned (.ok true))

variable {g : Genesis} {c c' : Chain} {line : List BuiltBlock} {h : Header}
variable {txs : List Transaction} {stage stage' : CommitStage}

/-- When a block has been added, no commit builds on the newest block any more. -/
theorem Fits.push (fits : Fits line h txs stage) (b : BuiltBlock) :
    Fits (b :: line) h txs stage := by
  cases fits with
  | called => exact .called
  | following newer place next links =>
      exact .following (b :: newer) (congrArg (b :: ·) place) next links
  | built newer place next links height same builds =>
      exact .built (b :: newer) (congrArg (b :: ·) place) next links height same (by simp)
  | failed failed => exact .failed failed
  | grew newer place height same =>
      exact .grew (b :: newer) (congrArg (b :: ·) place) height same

theorem Fits.height_lt (fits : Fits line h txs (.returned (.ok true))) (lineage : Lineage g line) :
    h.height.toNat < line.length := by
  cases fits with
  | failed failed => exact absurd rfl failed
  | @grew newer older b place height same =>
      have hb := (place ▸ lineage).of_append.height
      rw [← height, hb, place, List.length_append, List.length_cons]
      omega

/-- The block of a commit that has made the chain grow is there. -/
theorem Fits.stored (fits : Fits line h txs (.returned (.ok true))) (descends : c.Descends g line) :
    ∃ block, c.blockAt h.height = some block ∧ block.hash = h.hash := by
  cases fits with
  | failed failed => exact absurd rfl failed
  | @grew newer older b place height same =>
      have hb := (place ▸ descends.lineage).of_append.height
      rw [height] at hb
      exact ⟨b.block, descends.blocks_get?_iff.mpr ⟨newer, b, older, place, hb.symm, rfl⟩, same⟩

/-- What has the lock either leaves the chain as it is or adds a block of its own height. -/
theorem Move.keeps (move : Move c h txs stage c' stage') (descends : c.Descends g line)
    (fits : Fits line h txs stage) :
    (c' = c ∧ Fits line h txs stage' ∧
        (stage' = .returned (.ok true) → stage = .returned (.ok true))) ∨
      ∃ b, c'.Descends g (b :: line) ∧ Fits (b :: line) h txs stage' ∧
        b.block.header.height = h.height ∧ stage' = .returned (.ok true) := by
  cases move with
  | rest => exact .inl ⟨rfl, fits, id⟩
  | fail failed =>
      refine .inl ⟨rfl, .failed failed, ?_⟩
      intro hgrew
      cases hgrew
      exact absurd rfl failed
  | follow next links =>
      obtain ⟨b, older, rfl⟩ := descends.exists_newest
      rw [Chain.height, descends.head_eq] at next
      rw [descends.head_eq] at links
      exact .inl ⟨rfl, .following [] rfl next links, by simp⟩
  | @build b builds same =>
      cases fits with
      | @following newer older parent place next links =>
          obtain ⟨hheight, -⟩ := Chain.build_header builds
          refine .inl ⟨rfl, .built newer place next links hheight same ?_, by simp⟩
          rintro rfl
          have hknown : c.stateAt h.parent = .ok parent.state := by
            rw [List.nil_append] at place
            rw [links]
            exact (place ▸ descends).stateAt_head
          rw [← Chain.build_eq txs hknown, builds]
  | @grow block state higher =>
      cases fits with
      | @built newer older parent b place next links height same builds =>
          -- The head is no higher than the parent, so nothing has been added above it.
          have hparent := (place ▸ descends.lineage).of_append.height
          have hlower : c.height.toNat < h.height.toNat := by
            rw [← height]
            exact UInt64.lt_iff_toNat_lt.mp higher
          have htop := descends.height_add_one
          rw [place, List.length_append, List.length_cons] at htop
          obtain rfl : newer = [] := List.eq_nil_of_length_eq_zero (by omega)
          obtain rfl := place
          exact .inr ⟨b.finalized h, descends.extend next links (builds rfl),
            .grew [] rfl height same, height, rfl⟩

end CommitCall

/-- A chain with the commits that are under way. -/
structure Race where
  chain : Chain
  calls : List CommitCall

namespace Race

inductive Action where
  | call (h : Header) (txs : List Transaction)
  /-- The commit at some place gets the lock. -/
  | step (i : Nat)

/-- The chain of a genesis, before the first commit. -/
def ofGenesis (g : Genesis) : Race := ⟨.ofGenesis g, []⟩

def act (r : Race) : Action → Race
  | .call h txs => { r with calls := r.calls ++ [⟨h, txs, .called⟩] }
  | .step i =>
    match r.calls[i]? with
    | none => r
    | some call =>
      ⟨(call.step r.chain).1, r.calls.set i { call with stage := (call.step r.chain).2 }⟩

def run (r : Race) (actions : List Action) : Race := actions.foldl act r

@[simp] theorem run_nil (r : Race) : r.run [] = r := rfl

@[simp] theorem run_cons (r : Race) (a : Action) (actions : List Action) :
    r.run (a :: actions) = (r.act a).run actions := rfl

theorem run_append (r : Race) (before after : List Action) :
    r.run (before ++ after) = (r.run before).run after := List.foldl_append

variable {g : Genesis} {r : Race} {line : List BuiltBlock} {i j : Nat} {call a b : CommitCall}

theorem act_step (found : r.calls[i]? = some call) : r.act (.step i) =
    ⟨(call.step r.chain).1, r.calls.set i { call with stage := (call.step r.chain).2 }⟩ := by
  simp only [act, found]

/-- A commit that has returned stays as it is. -/
theorem act_returned {result : Except BackendError Bool} (found : r.calls[i]? = some call)
    (returned : call.stage = .returned result) (action : Action) :
    (r.act action).calls[i]? = some call := by
  have hi := (List.getElem?_eq_some_iff.mp found).1
  cases action with
  | call h txs =>
      show (r.calls ++ _)[i]? = _
      rw [List.getElem?_append_left hi, found]
  | step j =>
      cases hcall : r.calls[j]? with
      | none => simpa only [act, hcall] using found
      | some other =>
          rw [act_step hcall]
          show (r.calls.set j _)[i]? = _
          by_cases hj : j = i
          · subst hj
            obtain rfl := Option.some.inj (found.symm.trans hcall)
            have hstage : (call.step r.chain).2 = call.stage := by
              rw [CommitCall.step, returned]
            rw [List.getElem?_set_self hi, hstage]
          · rw [List.getElem?_set_ne hj, found]

theorem run_returned {result : Except BackendError Bool} (found : r.calls[i]? = some call)
    (returned : call.stage = .returned result) (actions : List Action) :
    (r.run actions).calls[i]? = some call := by
  induction actions generalizing r with
  | nil => exact found
  | cons action actions ih => exact ih (act_returned found returned action)

theorem set_cases (found : r.calls[i]? = some call) (got : (r.calls.set i b)[j]? = some a) :
    i = j ∧ a = b ∨ r.calls[j]? = some a := by
  by_cases hj : i = j
  · subst hj
    rw [List.getElem?_set_self (List.getElem?_eq_some_iff.mp found).1] at got
    exact .inl ⟨rfl, (Option.some.inj got).symm⟩
  · rw [List.getElem?_set_ne hj] at got
    exact .inr got

/-- The chain has a lineage, which the commits under way fit, and no two of them have made it
grow at one height. -/
structure Traced (g : Genesis) (line : List BuiltBlock) (r : Race) : Prop where
  descends : r.chain.Descends g line
  fits : ∀ call ∈ r.calls, CommitCall.Fits line call.header call.txs call.stage
  unique : ∀ (i j : Nat) (a b : CommitCall), r.calls[i]? = some a → r.calls[j]? = some b →
    a.Grew → b.Grew → a.header.height = b.header.height → i = j

theorem traced_ofGenesis (g : Genesis) : (ofGenesis g).Traced g [g.built] := by
  refine ⟨Chain.descends_ofGenesis g, ?_, ?_⟩
  · intro call hmem
    cases hmem
  · intro i j a b ha
    simp [ofGenesis] at ha

namespace Traced

theorem enter (traced : r.Traced g line) (h : Header) (txs : List Transaction) :
    (r.act (.call h txs)).Traced g line := by
  have hold : ∀ {i : Nat} {a : CommitCall}, (r.calls ++ [⟨h, txs, .called⟩])[i]? = some a →
      a.Grew → r.calls[i]? = some a := by
    intro i a hget hgrew
    rw [List.getElem?_append] at hget
    split at hget
    · exact hget
    · rw [List.getElem?_singleton] at hget
      split at hget
      · cases hget
        cases hgrew
      · cases hget
  refine ⟨traced.descends, ?_, ?_⟩
  · intro call hmem
    obtain hmem | hmem := List.mem_append.mp hmem
    · exact traced.fits call hmem
    · obtain rfl := List.mem_singleton.mp hmem
      exact .called
  · intro i j a b ha hb hgrew hgrew' hheight
    exact traced.unique i j a b (hold ha hgrew) (hold hb hgrew') hgrew hgrew' hheight

/-- A commit that had the lock and left the chain as it is. -/
theorem stay {stage : CommitStage} (traced : r.Traced g line) (found : r.calls[i]? = some call)
    (fits : CommitCall.Fits line call.header call.txs stage)
    (before : stage = .returned (.ok true) → call.Grew) :
    Traced g line ⟨r.chain, r.calls.set i { call with stage }⟩ := by
  have hold : ∀ {j : Nat} {a : CommitCall}, (r.calls.set i { call with stage })[j]? = some a →
      a.Grew → ∃ a', r.calls[j]? = some a' ∧ a'.Grew ∧ a'.header = a.header := by
    intro j a hget hgrew
    obtain ⟨rfl, rfl⟩ | hget := set_cases found hget
    · exact ⟨call, found, before hgrew, rfl⟩
    · exact ⟨a, hget, hgrew, rfl⟩
  refine ⟨traced.descends, ?_, ?_⟩
  · intro other hmem
    obtain hmem | rfl := List.mem_or_eq_of_mem_set hmem
    · exact traced.fits other hmem
    · exact fits
  · intro j k a b ha hb hgrew hgrew' hheight
    obtain ⟨a', ha', hgrewa, hheadera⟩ := hold ha hgrew
    obtain ⟨b', hb', hgrewb, hheaderb⟩ := hold hb hgrew'
    apply traced.unique j k a' b' ha' hb' hgrewa hgrewb
    rw [hheadera, hheaderb, hheight]

/-- A commit that had the lock and added a block. -/
theorem grow {c : Chain} {b : BuiltBlock} {stage : CommitStage} (traced : r.Traced g line)
    (found : r.calls[i]? = some call) (descends : c.Descends g (b :: line))
    (fits : CommitCall.Fits (b :: line) call.header call.txs stage)
    (height : b.block.header.height = call.header.height) :
    Traced g (b :: line) ⟨c, r.calls.set i { call with stage }⟩ := by
  have hcall : call.header.height.toNat = line.length := by
    rw [← height]
    exact descends.lineage.height
  -- Those that had grown before are lower.
  have hlower : ∀ {j : Nat} {a : CommitCall}, r.calls[j]? = some a → a.Grew →
      a.header.height ≠ call.header.height := by
    intro j a hget hgrew hheight
    have ha := traced.fits a (List.mem_of_getElem? hget)
    rw [hgrew] at ha
    have hlt := ha.height_lt traced.descends.lineage
    rw [hheight, hcall] at hlt
    exact Nat.lt_irrefl _ hlt
  refine ⟨descends, ?_, ?_⟩
  · intro other hmem
    obtain hmem | rfl := List.mem_or_eq_of_mem_set hmem
    · exact (traced.fits other hmem).push b
    · exact fits
  · intro j k a b ha hb hgrew hgrew' hheight
    obtain ⟨rfl, rfl⟩ | ha := set_cases found ha <;>
      obtain ⟨rfl, rfl⟩ | hb := set_cases found hb
    · rfl
    · exact absurd hheight.symm (hlower hb hgrew')
    · exact absurd hheight (hlower ha hgrew)
    · exact traced.unique j k a b ha hb hgrew hgrew' hheight

/-- Whatever happens, the chain grows from its lineage. -/
theorem act (traced : r.Traced g line) (action : Action) :
    ∃ newer, (r.act action).Traced g (newer ++ line) := by
  cases action with
  | call h txs => exact ⟨[], traced.enter h txs⟩
  | step i =>
      cases found : r.calls[i]? with
      | none => exact ⟨[], by simpa only [Race.act, found, List.nil_append] using traced⟩
      | some call =>
          rw [act_step found]
          obtain ⟨hchain, hfits, hbefore⟩ | ⟨b, hdescends, hfits, hheight, -⟩ :=
            (call.step_move r.chain).keeps traced.descends
              (traced.fits call (List.mem_of_getElem? found))
          · rw [hchain]
            exact ⟨[], traced.stay found hfits hbefore⟩
          · exact ⟨[b], traced.grow found hdescends hfits hheight⟩

theorem run (traced : r.Traced g line) (actions : List Action) :
    ∃ newer, (r.run actions).Traced g (newer ++ line) := by
  induction actions generalizing r line with
  | nil => exact ⟨[], traced⟩
  | cons action actions ih =>
      obtain ⟨newer, hact⟩ := traced.act action
      obtain ⟨newest, hrun⟩ := ih hact
      refine ⟨newest ++ newer, ?_⟩
      rw [List.append_assoc]
      exact hrun

end Traced

/-- Only a commit that says so changes the chain. -/
theorem act_chain (r : Race) (i : Nat) : (r.act (.step i)).chain = r.chain ∨
    ∃ call, (r.act (.step i)).calls[i]? = some call ∧ call.Grew := by
  cases found : r.calls[i]? with
  | none => exact .inl (by simp only [act, found])
  | some call =>
      rw [act_step found]
      obtain hchain | hgrew := (call.step_move r.chain).chain_eq
      · exact .inl hchain
      · refine .inr ⟨{ call with stage := (call.step r.chain).2 }, ?_, hgrew⟩
        exact List.getElem?_set_self (List.getElem?_eq_some_iff.mp found).1

/-- From genesis on, commits that race keep the chain coherent and only ever extend it. Those
that say that it has grown have their block in it, at most one of them at each height, and
those that report anything else have not changed it. A header is only accepted if the state of
its parent is there. -/
theorem racing_commits_coherent (g : Genesis) (actions : List Action)
    (free : CollisionFree ((ofGenesis g).run actions).chain.HashesHeader) :
    let r := (ofGenesis g).run actions
    r.chain.Coherent ∧
      (∀ before after, actions = before ++ after →
        ((ofGenesis g).run before).chain.ExtendedBy r.chain) ∧
      (∀ call ∈ r.calls, call.stage = .returned (.ok true) →
        ∃ block, r.chain.blockAt call.header.height = some block ∧
          block.hash = call.header.hash) ∧
      (∀ (i j : Nat) (a b : CommitCall), r.calls[i]? = some a → r.calls[j]? = some b →
        a.stage = .returned (.ok true) → b.stage = .returned (.ok true) →
        a.header.height = b.header.height → i = j) ∧
      (∀ (i : Nat) (call : CommitCall) (result : Except BackendError Bool),
        r.calls[i]? = some call → call.stage = .returned result → result ≠ .ok true →
        ∀ before after, actions = before ++ .step i :: after →
          ((ofGenesis g).run (before ++ [.step i])).chain = ((ofGenesis g).run before).chain) ∧
      ∀ h, r.chain.verifyHeader h = .ok () → ∃ s, r.chain.stateAt h.parent = .ok s := by
  intro r
  obtain ⟨newer, traced⟩ := (traced_ofGenesis g).run actions
  have hcoherent := traced.descends.coherent free
  refine ⟨hcoherent, ?_, ?_, traced.unique, ?_, ?_⟩
  · rintro before after rfl
    obtain ⟨newer, traced⟩ := (traced_ofGenesis g).run before
    obtain ⟨newest, traced'⟩ := traced.run after
    rw [← run_append] at traced'
    exact traced.descends.extendedBy traced'.descends free
  · intro call hmem grew
    have hfits := traced.fits call hmem
    rw [grew] at hfits
    exact hfits.stored traced.descends
  · rintro i call result found returned failed before after rfl
    rw [run_append]
    obtain hchain | ⟨call', found', grew⟩ := ((ofGenesis g).run before).act_chain i
    · exact hchain
    · have hlast := run_returned found' grew after
      rw [← run_cons, ← run_append] at hlast
      obtain rfl := Option.some.inj (found.symm.trans hlast)
      obtain rfl := CommitStage.returned.inj (returned.symm.trans grew)
      exact absurd rfl failed
  · intro h accepted
    exact hcoherent.stateAt_parent accepted

/-- Two commits of one header that both see the chain without its block. -/
def twice (h : Header) (txs : List Transaction) : List Action :=
  [.call h txs, .call h txs, .step 0, .step 1, .step 0, .step 1, .step 1, .step 0]

/-- The chain grows by one block, and one of them is told that it was there already. -/
theorem run_twice {c : Chain} {h : Header} {txs : List Transaction} {b : BuiltBlock}
    (next : h.height.toNat = c.height.toNat + 1) (links : h.parent = c.head.hash)
    (builds : c.build h txs = .ok b) (same : b.block.hash = h.hash) :
    (Race.mk c []).run (twice h txs) = ⟨c.extend (b.sealedBy h) b.state,
      [⟨h, txs, .returned (.ok false)⟩, ⟨h, txs, .returned (.ok true)⟩]⟩ := by
  have hpast : ¬ h.height ≤ c.height := by
    rw [UInt64.le_iff_toNat_le]
    omega
  have hheight : (b.sealedBy h).header.height = h.height := (Chain.build_header builds).1
  have hreads : c.readHead h = .following := by
    rw [Chain.readHead, if_neg hpast, if_neg (by simp [next, links])]
  have hbuilds : c.readState h txs = .built (b.sealedBy h) b.state := by
    simp only [Chain.readState, builds, if_pos same]
  have hgrows : c.append (b.sealedBy h) b.state = (c.extend (b.sealedBy h) b.state, true) := by
    rw [Chain.append, hheight, if_neg hpast]
    rfl
  have hlate : (c.extend (b.sealedBy h) b.state).append (b.sealedBy h) b.state =
      (c.extend (b.sealedBy h) b.state, false) := by
    apply if_pos
    exact UInt64.le_refl (b.sealedBy h).header.height
  simp [twice, act, CommitCall.step, hreads, hbuilds, hgrows, hlate]

theorem collisionFree_pair {c : Chain} {a b : Block} (blocks : c.blocks = [a, b])
    (different : b.hash ≠ a.hash) : CollisionFree c.HashesHeader := by
  rintro x y ⟨p, hp, rfl⟩ ⟨q, hq, rfl⟩ same
  simp only [blocks, List.mem_cons, List.not_mem_nil, or_false] at hp hq
  obtain rfl | rfl := hp <;> obtain rfl | rfl := hq
  · rfl
  · exact absurd same.symm different
  · exact absurd same different
  · rfl

theorem first_hash_ne : (Chain.emptyBlock Chain.firstTemplate Chain.bareGenesis.state).block.hash ≠
    Chain.bareGenesis.block.hash := by
  decide +kernel

/-- Two commits of the first block of a network race, and the later one does nothing. -/
theorem racing_commits_coherent_first :
    ∃ built, (Chain.ofGenesis Chain.bareGenesis).build Chain.firstTemplate [] = .ok built ∧
      let r := (ofGenesis Chain.bareGenesis).run (twice built.block.header [])
      r.chain.blocks = [Chain.bareGenesis.block, built.block] ∧
        r.calls.map (·.stage) = [.returned (.ok false), .returned (.ok true)] ∧
        r.chain.Coherent := by
  have known : (Chain.ofGenesis Chain.bareGenesis).stateAt Chain.firstTemplate.parent =
      .ok Chain.bareGenesis.state := Chain.stateAt_ofGenesis Chain.bareGenesis
  have hbuild := Chain.build_nil known
  have hne := first_hash_ne
  generalize Chain.emptyBlock Chain.firstTemplate Chain.bareGenesis.state = built at hbuild hne
  obtain ⟨hheight, hparent, -⟩ := Chain.build_header hbuild
  have hnext : built.block.header.height.toNat =
      (Chain.ofGenesis Chain.bareGenesis).height.toNat + 1 := congrArg UInt64.toNat hheight
  have hlinks : built.block.header.parent = (Chain.ofGenesis Chain.bareGenesis).head.hash := by
    rw [hparent]
    simp only [Chain.firstTemplate, Chain.ofGenesis]
  have hrun : (ofGenesis Chain.bareGenesis).run (twice built.block.header []) = _ :=
    run_twice hnext hlinks (Chain.build_again hbuild) rfl
  have hblocks : ((ofGenesis Chain.bareGenesis).run (twice built.block.header [])).chain.blocks =
      [Chain.bareGenesis.block, built.block] := by
    rw [hrun]
    rfl
  refine ⟨built, hbuild, hblocks, by rw [hrun]; rfl, ?_⟩
  exact (racing_commits_coherent Chain.bareGenesis _ (collisionFree_pair hblocks hne)).1

end Race

end StakeConsensus
