import StakeConsensus.Chain.Basic
import StakeConsensus.Reexecution

/-!
# What a hash mismatch names

The stages that rebuild a block write the five execution results of its header and leave the
other hashed fields alone. So a rebuilt header whose hash is not the one of the remote header
differs from it in an execution result. The fields that are reported are those in which the two
differ, and never the one that stands for the rest.
-/

namespace StakeConsensus

/-- What execution determines in a header, in header order. -/
def HeaderField.results : List HeaderField := [.stateRoot, .txRoot, .receiptRoot, .bloom, .gasUsed]

namespace Header

/-- Whether two headers differ in an execution result. -/
def differs (a b : Header) : HeaderField → Bool
  | .stateRoot => a.stateRoot != b.stateRoot
  | .txRoot => a.txRoot != b.txRoot
  | .receiptRoot => a.receiptRoot != b.receiptRoot
  | .bloom => a.bloom != b.bloom
  | .gasUsed => a.gasUsed != b.gasUsed
  | .other => false

/-- Two headers agree in every hashed field that execution does not determine. -/
structure SameFrame (a b : Header) : Prop where
  height : a.height = b.height
  parent : a.parent = b.parent
  time : a.time = b.time
  leader : a.leader = b.leader
  gasLimit : a.gasLimit = b.gasLimit
  version : a.version = b.version
  vrf : a.vrf = b.vrf
  topology : a.topology = b.topology
  elect : a.elect = b.elect
  turn : a.turn = b.turn

variable {a b c : Header}

theorem SameFrame.refl (a : Header) : SameFrame a a :=
  ⟨rfl, rfl, rfl, rfl, rfl, rfl, rfl, rfl, rfl, rfl⟩

theorem SameFrame.trans (h : SameFrame a b) (h' : SameFrame b c) : SameFrame a c :=
  ⟨h.height.trans h'.height, h.parent.trans h'.parent, h.time.trans h'.time,
    h.leader.trans h'.leader, h.gasLimit.trans h'.gasLimit, h.version.trans h'.version,
    h.vrf.trans h'.vrf, h.topology.trans h'.topology, h.elect.trans h'.elect,
    h.turn.trans h'.turn⟩

/-- Filling in the commitments leaves the rest of a header alone. -/
theorem SameFrame.commitTo (h : Header) (s : ChainState) (txs : List Transaction)
    (receipts : List Receipt) : SameFrame h (h.commitTo s txs receipts) :=
  ⟨rfl, rfl, rfl, rfl, rfl, rfl, rfl, rfl, rfl, rfl⟩

theorem SameFrame.unexecuted (h : Header) :
    SameFrame h { h with gasUsed := 0, signatures := [] } :=
  ⟨rfl, rfl, rfl, rfl, rfl, rfl, rfl, rfl, rfl, rfl⟩

/-- The hash covers the frame and the execution results, and nothing else. -/
theorem SameFrame.hash_eq (h : SameFrame a b)
    (results : ∀ field ∈ HeaderField.results, a.differs b field = false) : a.hash = b.hash := by
  obtain ⟨hstate, htx, hreceipt, hbloom, hgas⟩ : a.stateRoot = b.stateRoot ∧
      a.txRoot = b.txRoot ∧ a.receiptRoot = b.receiptRoot ∧ a.bloom = b.bloom ∧
      a.gasUsed = b.gasUsed := by
    simpa [HeaderField.results, differs] using results
  simp only [hash, encode, h.height, h.parent, h.time, h.leader, h.gasLimit, h.version, h.vrf,
    h.topology, h.elect, h.turn, hstate, htx, hreceipt, hbloom, hgas]

/-- Headers of one frame and different hashes differ in a result. -/
theorem SameFrame.exists_differs (h : SameFrame a b) (different : a.hash ≠ b.hash) :
    HeaderField.results.filter (a.differs b) ≠ [] := by
  intro hnone
  refine different (h.hash_eq fun field hfield => ?_)
  simpa using List.filter_eq_nil_iff.mp hnone field hfield

/-- If any result differs, the results that differ are what is reported. -/
theorem mismatches_eq_filter (explained : HeaderField.results.filter (a.differs b) ≠ []) :
    a.mismatches b = HeaderField.results.filter (a.differs b) := by
  have hfields : ((if a.stateRoot ≠ b.stateRoot then [HeaderField.stateRoot] else [])
      ++ (if a.txRoot ≠ b.txRoot then [.txRoot] else [])
      ++ (if a.receiptRoot ≠ b.receiptRoot then [.receiptRoot] else [])
      ++ (if a.bloom ≠ b.bloom then [.bloom] else [])
      ++ (if a.gasUsed ≠ b.gasUsed then [.gasUsed] else [])) =
        HeaderField.results.filter (a.differs b) := by
    have hcons : ∀ field rest, List.filter (a.differs b) (field :: rest) =
        (if a.differs b field then [field] else []) ++ rest.filter (a.differs b) := by
      intro field rest
      rw [List.filter_cons]
      split <;> rfl
    simp only [HeaderField.results, hcons, differs, bne_iff_ne, List.filter_nil,
      List.append_nil, List.append_assoc]
  rw [mismatches, hfields]
  have hsome : (HeaderField.results.filter (a.differs b)).isEmpty = false := by
    simpa using explained
  simp only [hsome, Bool.false_and, Bool.false_eq_true, if_false]

theorem other_not_mem_filter (p : HeaderField → Bool) :
    HeaderField.other ∉ HeaderField.results.filter p := by
  intro h
  simp [HeaderField.results] at h

end Header

namespace Chain

variable {c : Chain} {h : Header} {txs : List Transaction} {s : ChainState}

/-- Executing transactions counts their gas in the header and writes nothing else there. -/
theorem applyTxs_frame {header : Header} {after : ChainState} {receipts : List Receipt}
    (applied : c.backend.applyTxs h s txs = .ok (header, after, receipts)) :
    h.SameFrame header := by
  simp only [backend] at applied
  cases hexecuted : ChainState.executeAll h.gasLimit h.gasUsed s txs with
  | error e => simp [hexecuted, Except.map] at applied
  | ok result =>
      simp only [hexecuted, Except.map, Except.ok.injEq, Prod.mk.injEq] at applied
      obtain ⟨rfl, -, -⟩ := applied
      exact ⟨rfl, rfl, rfl, rfl, rfl, rfl, rfl, rfl, rfl, rfl⟩

/-- Rebuilding a block leaves the frame of its header alone. -/
theorem rebuild_frame {r : Reexecuted ChainState} (rebuilt : c.backend.rebuild h txs s = .ok r) :
    h.SameFrame r.block.header := by
  cases happlied : c.backend.applyTxs h (s.recordUptime h.leader) txs with
  | error e =>
      simp only [Backend.rebuild, backend, bind, Except.bind] at rebuilt happlied
      simp [happlied] at rebuilt
  | ok result =>
      obtain ⟨header, after, receipts⟩ := result
      have hframe := applyTxs_frame happlied
      simp only [Backend.rebuild, backend, bind, Except.bind, pure, Except.pure] at rebuilt happlied
      simp only [happlied, Except.ok.injEq] at rebuilt
      subst rebuilt
      exact (hframe.trans (.commitTo ..)).trans (.commitTo ..)

end Chain

/-- What the report of a mismatch says about a remote header and the one rebuilt for it. -/
structure Diagnosis (remote rebuilt : Header) (expected computed : Digest)
    (fields : List HeaderField) : Prop where
  expected_eq : expected = remote.hash
  computed_eq : computed = rebuilt.hash
  different : expected ≠ computed
  /-- The fields are the execution results in which the headers differ, in header order. -/
  exact : fields = HeaderField.results.filter (remote.differs rebuilt)
  nonempty : fields ≠ []
  explained : HeaderField.other ∉ fields
  /-- All else that is hashed is as it was. -/
  frame : remote.SameFrame rebuilt

namespace Chain

/-- A remote header is refused for its hash exactly if a block was rebuilt for it, with results
of elections that are accepted, and has another hash. The report then names the two hashes and
the execution results in which the headers differ, of which there is one at least. -/
theorem mismatch_exact (c : Chain) (topology : TopologyPolicy ChainState) (remote : Header)
    (txs : List Transaction) (state : ChainState) (expected computed : Digest)
    (fields : List HeaderField) :
    reexecute c.backend topology remote txs state =
        .error (.hashMismatch expected computed fields) ↔
      ∃ r, c.backend.rebuild { remote with gasUsed := 0, signatures := [] } txs state = .ok r ∧
        topology.verifyElection r.block.header r.state = .ok () ∧
        Diagnosis remote r.block.header expected computed fields := by
  unfold reexecute
  cases hrebuilt : c.backend.rebuild { remote with gasUsed := 0, signatures := [] } txs state with
  | error e => simp
  | ok r =>
      have hframe : remote.SameFrame r.block.header :=
        (Header.SameFrame.unexecuted remote).trans (rebuild_frame hrebuilt)
      cases helection : topology.verifyElection r.block.header r.state with
      | error e => simp [helection]
      | ok _ =>
          by_cases hsame : r.block.hash = remote.hash
          · have hnone : ¬ Diagnosis remote r.block.header expected computed fields :=
              fun d => d.different (d.expected_eq.trans (hsame.symm.trans d.computed_eq.symm))
            simp [helection, hsame, hnone]
          · have hexplained := hframe.exists_differs (Ne.symm hsame)
            simp only [helection, hsame, if_false, Except.error.injEq, Except.ok.injEq,
              StateFailure.hashMismatch.injEq, exists_eq_left', true_and,
              Header.mismatches_eq_filter hexplained]
            constructor
            · rintro ⟨rfl, rfl, rfl⟩
              exact ⟨rfl, rfl, Ne.symm hsame, rfl, hexplained, Header.other_not_mem_filter _,
                hframe⟩
            · rintro ⟨rfl, rfl, -, rfl, -, -, -⟩
              exact ⟨rfl, rfl, rfl⟩

end Chain

end StakeConsensus
