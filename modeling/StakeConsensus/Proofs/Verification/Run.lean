import Mathlib.Data.List.Induction
import StakeConsensus.Proofs.Verification.Chain

/-!
# Runs of a process

A run gives one input after the other to a new process. The collaborators may answer
differently each time, since a chain grows and a signing service may stop: each
occasion brings them along. What the process wants done and the calls of the signing
service are counted over the whole run, so a fact about all that was ever done is a
fact about the state that the run ends in.
-/

namespace StakeConsensus

variable {σ : Type}

/-- An input, and the collaborators as they are when it is given. -/
structure Occasion (σ : Type) where
  collaborators : Collaborators σ
  input : Input σ

/-- Collaborators that object to nothing, for the node of an account. Execution does not
change a block and leaves no state. -/
def Collaborators.lenient (account : Address) (quorum : QuorumRule) : Collaborators Unit where
  backend := {
    stateAt _ := .ok ()
    verifyHeader _ := .ok ()
    recordUptime _ _ := .ok ()
    applyTxs header _ _ := .ok (header, (), [])
    finalize header _ txs _ := .ok (⟨header, txs⟩, ())
    foldAuxiliary _ _ := .ok () }
  signer := {
    address := account
    sign _ _ _ := .ok default
    verify _ _ _ := (account, true) }
  quorum
  topology := .permissive Unit
  executor := .ok ()
  order := .ascending

/-- The service of an account whose signatures consist of its name and are believed. -/
def Signer.trusting (account : Address) : Signer where
  address := account
  sign _ _ _ := .ok ⟨default, account.toList⟩
  verify _ signature _ := (.ofListPadded signature.bytes, true)

/-- One account that holds all the stake. -/
def Verification.soleValidator : List Validator := [⟨default, 1, .validator⟩]

namespace Step

open Verification Relation

/-- A step that is part of a longer course of events. -/
def after (es : List Effect) (s : Step σ) : Step σ := { s with effects := es ++ s.effects }

section After

variable {es : List Effect} {s t : Step σ} {c : Collaborators σ} {i : Input σ}

@[simp] theorem after_process : (s.after es).process = s.process := rfl

@[simp] theorem after_effects : (s.after es).effects = es ++ s.effects := rfl

@[simp] theorem after_signings : (s.after es).signings = s.signings := rfl

theorem update_after (f : Verification σ → Verification σ) :
    (s.after es).update f = (s.update f).after es := rfl

theorem modifyProposal_after (k : ProposalKey) (f : Proposal σ → Proposal σ) :
    (s.after es).modifyProposal k f = (s.modifyProposal k f).after es := rfl

theorem emit_after (e : Effect) : (s.after es).emit e = (s.emit e).after es := by
  simp [emit, after]

theorem sign_after (signer : Signer) (cause : SigningCause) (hash parent : Digest) :
    ((s.after es).sign signer cause hash parent).1 =
      (s.sign signer cause hash parent).1.after es := by
  simp [sign, emit, after]

theorem reset_after : (s.after es).reset = s.reset.after es := by
  simp only [reset, update_after, emit_after]

theorem close_after : (s.after es).close = s.close.after es := by
  simp only [close, after_process, update_after, emit_after]
  split
  · rfl
  · split <;> rfl

theorem judge_after (k : ProposalKey) (q : Proposal σ) (verdict : Verdict) :
    (s.after es).judge k q verdict = (s.judge k q verdict).after es := by
  cases verdict <;>
    simp only [judge, update_after, modifyProposal_after, emit_after, after_process]

theorem castVote_after (me : Address) (k : ProposalKey) (q : Proposal σ) (weight : UInt64)
    (signature : Signature) :
    (s.after es).castVote me k q weight signature =
      (s.castVote me k q weight signature).after es := by
  simp only [castVote, modifyProposal_after, emit_after, after_process]

theorem forward_after (q : Proposal σ) (header : Header) :
    (s.after es).forward c q header = (s.forward c q header).after es := by
  cases hs : c.signer.sign s.signings q.hash header.parent <;>
    simp [forward, sign, hs, emit, after]

theorem certify_after (k : ProposalKey) (signatures : List Signature) :
    (s.after es).certify k signatures = (s.certify k signatures).after es := by
  simp only [certify, modifyProposal_after, update_after, emit_after]

theorem report_after (q : Proposal σ) (header : Header) :
    (s.after es).report c q header = (s.report c q header).after es := by
  simp only [report, emit_after, after_process]
  split
  · split
    · rfl
    · exact forward_after q header
  · rfl
  · rfl
  · rfl

theorem finish_after (k : ProposalKey) (signatures : List Signature) :
    (s.after es).finish c k signatures = (s.finish c k signatures).after es := by
  cases hq : s.process.cache.get? k with
  | none => simp only [finish, after_process, hq]
  | some q => simp only [finish, after_process, hq, certify_after, report_after]

/-- Moves do not depend on what was to be done before. -/
theorem Prepare.after (h : Prepare c i s t) : Prepare c i (s.after es) (t.after es) := by
  cases h with
  | enroll given opened idle => exact .enroll given opened idle
  | park given opened => exact .park given opened
  | unpark known cached => exact .unpark known cached
  | count cached endorses signed stake => exact .count cached endorses signed stake
  | reset cause current unfinished => exact reset_after ▸ .reset cause current unfinished
  | note given opened unfinished ofHeight agrees =>
      exact .note given opened unfinished ofHeight agrees
  | store offered opened unfinished notRunning stored =>
      exact .store offered opened unfinished notRunning stored
  | recover given opened runs ofHash unfinished usable =>
      exact .recover given opened runs ofHash unfinished usable
  | close given opened => exact close_after ▸ .close given opened

theorem Proceed.after (h : Proceed c i s t) : Proceed c i (s.after es) (t.after es) := by
  cases h with
  | execute ready remote passed =>
      rw [← emit_after, ← update_after]
      exact .execute ready remote passed
  | settle ready ground later =>
      rw [← judge_after, ← update_after]
      exact .settle ready ground later
  | verified given awaited runs =>
      rw [← judge_after, ← modifyProposal_after]
      exact .verified given awaited runs
  | refuted given awaited runs =>
      rw [← judge_after]
      exact .refuted given awaited runs
  | abstain voting role runs endorsed stake =>
      rw [← sign_after]
      exact .abstain voting role runs endorsed stake
  | cast voting role runs endorsed stake signed =>
      rw [← castVote_after, ← sign_after]
      exact .cast voting role runs endorsed stake signed
  | finishQuorum voting role runs unfinished accepted =>
      rw [← finish_after]
      exact .finishQuorum voting role runs unfinished accepted
  | finishBroadcast voting role runs endorsed =>
      rw [← finish_after]
      exact .finishBroadcast voting role runs endorsed

theorem Chain.after (h : Chain c i s t) (es : List Effect) :
    Chain c i (s.after es) (t.after es) := by
  obtain ⟨m, hm, ht⟩ := h
  exact ⟨m.after es, hm.lift _ fun _ _ => Prepare.after, ht.lift _ fun _ _ => Proceed.after⟩

end After

/-- The state after one more input, with all that was to be done so far. -/
def next (s : Step σ) (o : Occasion σ) : Step σ :=
  (s.process.step o.collaborators s.signings o.input).after s.effects

theorem next_chain (s : Step σ) (o : Occasion σ) :
    Chain o.collaborators o.input s (s.next o) := by
  have h := (give_chain o.collaborators ⟨s.process, [], s.signings⟩ o.input).after s.effects
  have hs : (⟨s.process, [], s.signings⟩ : Step σ).after s.effects = s := by
    simp only [after, List.append_nil]
  rwa [hs] at h

theorem next_preserves {P : Step σ → Prop} {s : Step σ} {o : Occasion σ}
    (prepare : ∀ s t, Prepare o.collaborators o.input s t → P s → P t)
    (proceed : ∀ s t, Proceed o.collaborators o.input s t → P s → P t) (h : P s) :
    P (s.next o) := by
  obtain ⟨m, hm, ht⟩ := next_chain s o
  exact moves_preserve proceed ht (moves_preserve prepare hm h)

end Step

namespace Verification

/-- A process that was given a list of inputs, with all that was to be done. -/
def run (height : UInt64) (settings : VerifierSettings) (os : List (Occasion σ)) : Step σ :=
  os.foldl Step.next ⟨.new height settings, [], 0⟩

variable {height : UInt64} {settings : VerifierSettings} {os : List (Occasion σ)}

@[simp] theorem run_nil : run height settings ([] : List (Occasion σ)) =
    ⟨.new height settings, [], 0⟩ := rfl

@[simp] theorem run_concat (os : List (Occasion σ)) (o : Occasion σ) :
    run height settings (os ++ [o]) = (run height settings os).next o := by
  simp [run]

/-- What holds of a new process and is preserved by every move holds after every run. -/
theorem run_invariant {P : Step σ → Prop} (start : P ⟨.new height settings, [], 0⟩)
    (prepare : ∀ o ∈ os, ∀ s t, Step.Prepare o.collaborators o.input s t → P s → P t)
    (proceed : ∀ o ∈ os, ∀ s t, Step.Proceed o.collaborators o.input s t → P s → P t) :
    P (run height settings os) := by
  induction os using List.reverseRecOn with
  | nil => exact start
  | append_singleton os o ih =>
      rw [run_concat]
      have hlast : o ∈ os ++ [o] := by simp
      refine Step.next_preserves (prepare o hlast) (proceed o hlast) (ih ?_ ?_)
      · exact fun o' h => prepare o' (List.mem_append_left _ h)
      · exact fun o' h => proceed o' (List.mem_append_left _ h)

/-- What an input keeps that does not drop the running proposal holds until one drops it. -/
theorem holds_until_dropped {P : Verification σ → Prop}
    (keeps : ∀ (s : Step σ) (o : Occasion σ), P s.process → ¬ s.process.Resets o.input →
      P (s.next o).process)
    (holds : P (run height settings os).process) (later : List (Occasion σ)) :
    P (run height settings (os ++ later)).process ∨
      ∃ pre o post, later = pre ++ o :: post ∧ P (run height settings (os ++ pre)).process ∧
        (run height settings (os ++ pre)).process.Resets o.input := by
  induction later using List.reverseRecOn with
  | nil => exact .inl (by simpa using holds)
  | append_singleton later o ih =>
      obtain hkept | ⟨pre, o', post, rfl, hdropped⟩ := ih
      · by_cases hresets : (run height settings (os ++ later)).process.Resets o.input
        · exact .inr ⟨later, o, [], rfl, hkept, hresets⟩
        · refine .inl ?_
          rw [← List.append_assoc, run_concat]
          exact keeps _ o hkept hresets
      · exact .inr ⟨pre, o', post ++ [o], by simp, hdropped⟩

end Verification

end StakeConsensus
