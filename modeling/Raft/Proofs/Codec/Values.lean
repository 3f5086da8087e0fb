import Raft.Codec.Values
import Raft.Proofs.Codec.Wire

/-!
# The wire form of every value

Whatever is stored or sent is read back from its bytes, and a byte string that is read is the form
of what was read from it. A value fits if its numbers fit into their widths, and the lengths of its
texts, byte strings and lists into a word.

* `Entry.Fits` and its like say which values fit.
* `command_inverts` and its like: the decoder of a type undoes its encoder.
* `binary_round_trip` is the result.
-/

namespace Raft

open Codec

/-! ## Values that fit -/

def Command.Fits (c : Command) : Prop :=
  FitsText c.client ∧ c.sequence < wordSize ∧ c.data.length < wordSize

/-- Only a command has parts. -/
def Payload.Fits : Payload → Prop
  | .noop => True
  | .command c => c.Fits

def Entry.Fits (e : Entry) : Prop := e.index < wordSize ∧ e.term < wordSize ∧ e.payload.Fits

instance (c : Command) : Decidable c.Fits := by
  unfold Command.Fits FitsText
  infer_instance

instance (e : Entry) : Decidable e.Fits := by
  unfold Entry.Fits Payload.Fits
  cases e.payload <;> infer_instance

def LogId.Fits (l : LogId) : Prop := l.index < wordSize ∧ l.term < wordSize

def Vote.Fits (v : Vote) : Prop := v.candidate < halfWordSize ∧ v.term < wordSize

def HardState.Fits (h : HardState) : Prop := h.term < wordSize ∧ FitsOptional Vote.Fits h.vote

def VoteRequest.Fits (r : VoteRequest) : Prop :=
  r.term < wordSize ∧ r.candidate < halfWordSize ∧ r.lastIndex < wordSize ∧ r.lastTerm < wordSize

def VoteResponse.Fits (r : VoteResponse) : Prop :=
  r.term < wordSize ∧ r.lastIndex < wordSize ∧ r.lastTerm < wordSize

def AppendRequest.Fits (r : AppendRequest) : Prop :=
  r.term < wordSize ∧ r.leader < halfWordSize ∧ r.prevIndex < wordSize ∧ r.prevTerm < wordSize
    ∧ FitsItems Entry.Fits r.entries ∧ r.commit < wordSize

def ConflictHint.Fits (h : ConflictHint) : Prop :=
  h.index < wordSize ∧ FitsOptional (· < wordSize) h.term

def AppendResponse.Fits (r : AppendResponse) : Prop :=
  r.node < halfWordSize ∧ r.term < wordSize ∧ r.matchIndex < wordSize
    ∧ FitsOptional ConflictHint.Fits r.conflict

def TimeoutNowRequest.Fits (r : TimeoutNowRequest) : Prop :=
  r.term < wordSize ∧ r.leader < halfWordSize

def TimeoutNowResponse.Fits (r : TimeoutNowResponse) : Prop := r.term < wordSize

def ClientRequest.Fits (r : ClientRequest) : Prop :=
  FitsText r.client ∧ r.sequence < wordSize ∧ r.command.length < wordSize

def CommitResult.Fits (r : CommitResult) : Prop :=
  r.term < wordSize ∧ r.index < wordSize ∧ r.result.length < wordSize

def ClientResponse.Fits : ClientResponse → Prop
  | .committed r => r.Fits
  | .notLeader hint => FitsOptional (· < halfWordSize) hint
  | .stale last => last < wordSize

namespace Codec

/-! ## Entries -/

theorem command_inverts : Inverts command ofCommand Command.Fits := by
  refine Inverts.congr (text_inverts.first Command.client fun client _ =>
    word_inverts.field Command.sequence fun sequence _ =>
    byteString_inverts.last Command.data fun data c => ?_) (fun _ => Iff.rfl) ?_
  · cases c
    simp [and_assoc]
  · simp [ofCommand]

def payloadTag : Payload → Nat
  | .noop => 0
  | .command _ => 1

/-- The bytes of a payload behind its variant. -/
def ofPayloadBody : Payload → Bytes
  | .noop => []
  | .command c => ofCommand c

theorem payload_inverts : Inverts payload ofPayload Payload.Fits := by
  have h : Inverts payload (fun p => ofVariantTag (payloadTag p) ++ ofPayloadBody p)
      fun p => payloadTag p < 2 ∧ p.Fits := by
    refine (variantTag_inverts (by decide)).first payloadTag fun n hn => ?_
    match n with
    | 0 =>
      refine Inverts.done (fun p => ?_) rfl
      cases p <;> simp [payloadTag, Payload.Fits]
    | 1 =>
      refine command_inverts.wrap Payload.command (fun _ _ => rfl) fun p => ?_
      cases p <;> simp [payloadTag, Payload.Fits]
  refine h.congr (fun p => ?_) fun p _ => ?_
  · cases p <;> simp [payloadTag]
  · cases p <;> simp [payloadTag, ofPayloadBody, ofPayload]

theorem entry_inverts : Inverts entry ofEntry Entry.Fits := by
  refine Inverts.congr (word_inverts.first Entry.index fun index _ =>
    word_inverts.field Entry.term fun term _ =>
    payload_inverts.last Entry.payload fun body e => ?_) (fun _ => Iff.rfl) ?_
  · cases e
    simp [and_assoc]
  · simp [ofEntry]

/-- An entry takes at least a byte. -/
theorem one_le_length_ofEntry (e : Entry) : 1 ≤ (ofEntry e).length := by
  simp [ofEntry, ofWord]
  omega

theorem logId_inverts : Inverts logId ofLogId LogId.Fits := by
  refine Inverts.congr (word_inverts.first LogId.index fun index _ =>
    word_inverts.last LogId.term fun term l => ?_) (fun _ => Iff.rfl) ?_
  · cases l
    simp
  · simp [ofLogId]

/-! ## Terms and votes -/

theorem vote_inverts : Inverts vote ofVote Vote.Fits := by
  refine Inverts.congr (nodeId_inverts.first Vote.candidate fun candidate _ =>
    word_inverts.last Vote.term fun term v => ?_) (fun _ => Iff.rfl) ?_
  · cases v
    simp
  · simp [ofVote]

theorem hardState_inverts : Inverts hardState ofHardState HardState.Fits := by
  refine Inverts.congr (word_inverts.first HardState.term fun term _ =>
    (optional_inverts vote_inverts).last HardState.vote fun vote h => ?_) (fun _ => Iff.rfl) ?_
  · cases h
    simp
  · simp [ofHardState]

theorem voteRequest_inverts : Inverts voteRequest ofVoteRequest VoteRequest.Fits := by
  refine Inverts.congr (word_inverts.first VoteRequest.term fun term _ =>
    nodeId_inverts.field VoteRequest.candidate fun candidate _ =>
    word_inverts.field VoteRequest.lastIndex fun lastIndex _ =>
    word_inverts.last VoteRequest.lastTerm fun lastTerm r => ?_) (fun _ => Iff.rfl) ?_
  · cases r
    simp [and_assoc]
  · simp [ofVoteRequest]

theorem voteResponse_inverts : Inverts voteResponse ofVoteResponse VoteResponse.Fits := by
  refine Inverts.congr (word_inverts.first VoteResponse.term fun term _ =>
    flag_inverts.field VoteResponse.granted fun granted _ =>
    word_inverts.field VoteResponse.lastIndex fun lastIndex _ =>
    word_inverts.last VoteResponse.lastTerm fun lastTerm r => ?_)
    (by simp [VoteResponse.Fits]) ?_
  · cases r
    simp [and_assoc]
  · simp [ofVoteResponse]

/-! ## Replication -/

theorem appendRequest_inverts : Inverts appendRequest ofAppendRequest AppendRequest.Fits := by
  have hentries : Inverts (items entry) (ofItems ofEntry) (FitsItems Entry.Fits) :=
    items_inverts entry_inverts fun e _ => one_le_length_ofEntry e
  refine Inverts.congr (word_inverts.first AppendRequest.term fun term _ =>
    nodeId_inverts.field AppendRequest.leader fun leader _ =>
    word_inverts.field AppendRequest.prevIndex fun prevIndex _ =>
    word_inverts.field AppendRequest.prevTerm fun prevTerm _ =>
    hentries.field AppendRequest.entries fun entries _ =>
    word_inverts.last AppendRequest.commit fun commit r => ?_) (fun _ => Iff.rfl) ?_
  · cases r
    simp [and_assoc]
  · simp [ofAppendRequest]

theorem conflictHint_inverts : Inverts conflictHint ofConflictHint ConflictHint.Fits := by
  refine Inverts.congr (word_inverts.first ConflictHint.index fun index _ =>
    (optional_inverts word_inverts).last ConflictHint.term fun term h => ?_) (fun _ => Iff.rfl) ?_
  · cases h
    simp
  · simp [ofConflictHint]

theorem appendResponse_inverts : Inverts appendResponse ofAppendResponse AppendResponse.Fits := by
  refine Inverts.congr (nodeId_inverts.first AppendResponse.node fun node _ =>
    word_inverts.field AppendResponse.term fun term _ =>
    flag_inverts.field AppendResponse.success fun success _ =>
    word_inverts.field AppendResponse.matchIndex fun matchIndex _ =>
    (optional_inverts conflictHint_inverts).last AppendResponse.conflict fun conflict r => ?_)
    (by simp [AppendResponse.Fits]) ?_
  · cases r
    simp [and_assoc]
  · simp [ofAppendResponse]

/-! ## Transfers -/

theorem timeoutNowRequest_inverts :
    Inverts timeoutNowRequest ofTimeoutNowRequest TimeoutNowRequest.Fits := by
  refine Inverts.congr (word_inverts.first TimeoutNowRequest.term fun term _ =>
    nodeId_inverts.last TimeoutNowRequest.leader fun leader r => ?_) (fun _ => Iff.rfl) ?_
  · cases r
    simp
  · simp [ofTimeoutNowRequest]

theorem timeoutNowResponse_inverts :
    Inverts timeoutNowResponse ofTimeoutNowResponse TimeoutNowResponse.Fits := by
  refine Inverts.congr (word_inverts.first TimeoutNowResponse.term fun term _ =>
    flag_inverts.last TimeoutNowResponse.accepted fun accepted r => ?_)
    (by simp [TimeoutNowResponse.Fits]) ?_
  · cases r
    simp
  · simp [ofTimeoutNowResponse]

/-! ## Clients -/

theorem clientRequest_inverts : Inverts clientRequest ofClientRequest ClientRequest.Fits := by
  refine Inverts.congr (text_inverts.first ClientRequest.client fun client _ =>
    word_inverts.field ClientRequest.sequence fun sequence _ =>
    byteString_inverts.last ClientRequest.command fun command r => ?_) (fun _ => Iff.rfl) ?_
  · cases r
    simp [and_assoc]
  · simp [ofClientRequest]

theorem commitResult_inverts : Inverts commitResult ofCommitResult CommitResult.Fits := by
  refine Inverts.congr (word_inverts.first CommitResult.term fun term _ =>
    word_inverts.field CommitResult.index fun index _ =>
    byteString_inverts.last CommitResult.result fun result r => ?_) (fun _ => Iff.rfl) ?_
  · cases r
    simp [and_assoc]
  · simp [ofCommitResult]

def clientResponseTag : ClientResponse → Nat
  | .committed _ => 0
  | .notLeader _ => 1
  | .stale _ => 2

/-- The bytes of a client response behind its variant. -/
def ofClientResponseBody : ClientResponse → Bytes
  | .committed r => ofCommitResult r
  | .notLeader hint => ofOptional ofNodeId hint
  | .stale last => ofWord last

theorem clientResponse_inverts : Inverts clientResponse ofClientResponse ClientResponse.Fits := by
  have h : Inverts clientResponse
      (fun r => ofVariantTag (clientResponseTag r) ++ ofClientResponseBody r)
      fun r => clientResponseTag r < 3 ∧ r.Fits := by
    refine (variantTag_inverts (by decide)).first clientResponseTag fun n hn => ?_
    match n with
    | 0 =>
      refine commitResult_inverts.wrap ClientResponse.committed (fun _ _ => rfl) fun r => ?_
      cases r <;> simp [clientResponseTag, ClientResponse.Fits]
    | 1 =>
      refine (optional_inverts nodeId_inverts).wrap ClientResponse.notLeader (fun _ _ => rfl)
        fun r => ?_
      cases r <;> simp [clientResponseTag, ClientResponse.Fits]
    | 2 =>
      refine word_inverts.wrap ClientResponse.stale (fun _ _ => rfl) fun r => ?_
      cases r <;> simp [clientResponseTag, ClientResponse.Fits]
  refine h.congr (fun r => ?_) fun r _ => ?_
  · cases r <;> simp [clientResponseTag]
  · cases r <;> simp [clientResponseTag, ofClientResponseBody, ofClientResponse]

/-! ## The result -/

/-- **Binary round trip.** Every value of every type that is stored or sent is read back from its
bytes, whatever follows them, and exactly its bytes are taken. Whatever a decoder takes from a byte
string are the bytes of the value that it gives. -/
theorem binary_round_trip :
    (Inverts entry ofEntry Entry.Fits ∧ Inverts payload ofPayload Payload.Fits
        ∧ Inverts command ofCommand Command.Fits ∧ Inverts logId ofLogId LogId.Fits)
      ∧ (Inverts hardState ofHardState HardState.Fits ∧ Inverts vote ofVote Vote.Fits
        ∧ Inverts voteRequest ofVoteRequest VoteRequest.Fits
        ∧ Inverts voteResponse ofVoteResponse VoteResponse.Fits)
      ∧ (Inverts appendRequest ofAppendRequest AppendRequest.Fits
        ∧ Inverts appendResponse ofAppendResponse AppendResponse.Fits
        ∧ Inverts conflictHint ofConflictHint ConflictHint.Fits
        ∧ Inverts timeoutNowRequest ofTimeoutNowRequest TimeoutNowRequest.Fits
        ∧ Inverts timeoutNowResponse ofTimeoutNowResponse TimeoutNowResponse.Fits)
      ∧ Inverts clientRequest ofClientRequest ClientRequest.Fits
        ∧ Inverts commitResult ofCommitResult CommitResult.Fits
        ∧ Inverts clientResponse ofClientResponse ClientResponse.Fits :=
  ⟨⟨entry_inverts, payload_inverts, command_inverts, logId_inverts⟩,
    ⟨hardState_inverts, vote_inverts, voteRequest_inverts, voteResponse_inverts⟩,
    ⟨appendRequest_inverts, appendResponse_inverts, conflictHint_inverts,
      timeoutNowRequest_inverts, timeoutNowResponse_inverts⟩,
    clientRequest_inverts, commitResult_inverts, clientResponse_inverts⟩

end Codec

end Raft
