import Mathlib
import Raft.Proofs.Solo.Sound

/-!
# Write-ahead

A node answers and sends only what it has stored, under any events and any pattern of failures. A
write that fails ends its event loop.

* `write_ahead` says so of every run of a node by itself.
* `confirms_past_the_log`: a follower that is sent entries with gaps confirms more than it holds.

Runs on fixed acts are evaluated by `cbv`, here and in the modules that build on this one. It unfolds
the state monad by equations which only the whole of Mathlib brings along.
-/

namespace Raft.Solo

variable {n : Solo} {s : Server}

theorem sound_down (r : Node.Remains) : Sound { site := .down r } := by
  constructor
  · intro d hd
    cases hd
  · rintro s ⟨⟩
  · rintro s ⟨⟩

theorem sound_run (r : Node.Remains) (acts : List Act) : (run r acts).Sound :=
  (keeps_steps (sound_down r) acts).1

/-! ## After the end of the event loop -/

/-- What the event loop takes up: a role event, a tick or an inbound event. -/
inductive Act.IsWork : Act → Prop
  | role : IsWork .role
  | tick : IsWork .tick
  | event (e : Event) : IsWork (.event e)

theorem settle_of_taken (h : n.Sound) (hs : n.site = .up s) : n.settle s = n := by
  obtain ⟨heffects, hanswers⟩ := h.taken s hs
  have htake : s.takeEffects.2 = s := by
    unfold Server.takeEffects Node.takeEffects
    dsimp only
    rw [← heffects, ← hanswers]
  unfold settle
  rw [htake, heffects, List.append_nil, ← hs]

theorem onServer_of_still {f : Server → Server} (h : n.Sound) (hs : n.site = .up s)
    (hf : f s = s) : n.onServer f = n := by
  unfold onServer
  rw [hs]
  dsimp only
  rw [hf]
  exact settle_of_taken h hs

/-- A node whose event loop ended handles nothing more. -/
theorem step_of_ended {a : Act} (h : n.Sound) (hs : n.site = .up s) (hend : s.ended.isSome = true)
    (ha : a.IsWork) : (n.step a).site = .up s ∧ (n.step a).history = n.history := by
  cases ha with
  | role =>
    have hstep : n.step .role = n := onServer_of_still h hs (Server.workRole_of_ended hend)
    rw [hstep]
    exact ⟨hs, rfl⟩
  | tick =>
    have hstep : n.step .tick = n := onServer_of_still h hs (Server.workFree_of_ended hend)
    rw [hstep]
    exact ⟨hs, rfl⟩
  | event e =>
    have hstep : n.step (.event e) = n.receive e :=
      onServer_of_still (keeps_receive h e).1 hs (Server.workFree_of_ended hend)
    rw [hstep]
    exact ⟨hs, rfl⟩

/-! ## The result -/

/-- **Write-ahead.** Whatever comes in and whatever fails: what left the node carries the stored
term, was in memory as it was stored, and binds the node only to what was stored with it. After a
write that failed the event loop has ended with a fatal error, and an event loop that has ended
handles nothing more. -/
theorem write_ahead (r : Node.Remains) (acts : List Act) :
    (∀ d ∈ (run r acts).history, d.WrittenAhead (run r acts).inbound)
      ∧ (∀ s, (run r acts).site = .up s → s.node.writeFailed = true →
        ∃ e, s.ended = some (.error e) ∧ e.isFatal = true)
      ∧ ∀ s, (run r acts).site = .up s → s.ended.isSome = true → ∀ a : Act, a.IsWork →
        (run r (acts ++ [a])).site = .up s
          ∧ (run r (acts ++ [a])).history = (run r acts).history := by
  have h := sound_run r acts
  refine ⟨h.history, ?_, ?_⟩
  · intro s hs
    exact (h.works s hs).ended
  · intro s hs hend a ha
    rw [run_append]
    exact step_of_ended h hs hend ha

/-- A node of three that starts over what is left. -/
def startOne : Act := .start (Settings.forNode {} 1) 16 0 1 false

/-- A node votes. Then its hard state cannot be stored any more, when it is asked again. -/
def voteThenFail : List Act :=
  [startOne, .event (.voteRequest ⟨2, 2, 0, 0⟩ 0), .disturb {} (some 0) false,
    .event (.voteRequest ⟨3, 3, 0, 0⟩ 0)]

/-- A node that could not store its vote says nothing and handles nothing more. -/
theorem write_ahead_of_voteThenFail :
    (∃ d ∈ (run {} voteThenFail).history, d.WrittenAhead (run {} voteThenFail).inbound)
      ∧ ∃ s, (run {} voteThenFail).site = .up s ∧ s.node.writeFailed = true
        ∧ (∃ e, s.ended = some (.error e) ∧ e.isFatal = true)
        ∧ (run {} (voteThenFail ++ [.tick])).site = .up s
        ∧ (run {} (voteThenFail ++ [.tick])).history.length = 1 := by
  obtain ⟨hahead, hfailed, hended⟩ := write_ahead {} voteThenFail
  have hlength : (run {} voteThenFail).history.length = 1 := by decide +kernel
  have hlook : (run {} voteThenFail).server?.any
      (fun s => s.node.writeFailed && s.ended.isSome) = true := by decide +kernel
  constructor
  · obtain ⟨d, hd⟩ := List.length_eq_one_iff.1 hlength
    have hmem : d ∈ (run {} voteThenFail).history := by
      rw [hd]
      exact List.mem_singleton_self d
    exact ⟨d, hmem, hahead d hmem⟩
  · unfold server? at hlook
    cases hsite : (run {} voteThenFail).site with
    | down r =>
      rw [hsite] at hlook
      cases hlook
    | up s =>
      rw [hsite] at hlook
      obtain ⟨hwrite, hend⟩ := (Bool.and_eq_true _ _).mp hlook
      obtain ⟨hstay, hquiet⟩ := hended s hsite hend .tick .tick
      rw [← hquiet] at hlength
      exact ⟨s, rfl, hwrite, hfailed s hsite hwrite, hstay, hlength⟩

/-! ## Entries with gaps -/

/-- Storage of a node in the first term, with five entries. -/
def fiveEntries : Node.Remains where
  log := { entries := [1, 2, 3, 4, 5].map fun i => ⟨i, 1, .noop⟩ }
  stored := some ⟨1, none⟩

/-- A request whose entries go back: the fifth entry is already there, and the third is another. -/
def backwards : AppendRequest :=
  ⟨2, 2, 4, 1, [⟨5, 1, .command ⟨"c", 1, [0x61]⟩⟩, ⟨3, 2, .command ⟨"c", 2, [0x62]⟩⟩], 0⟩

/-- Where the entries of a request do not follow each other, what is confirmed need not be stored:
six entries are confirmed by a node that holds three. -/
theorem confirms_past_the_log :
    ∃ d a, d ∈ (run fiveEntries [startOne, .event (.appendRequest backwards 0)]).history
      ∧ d.effect = .answer 0 (.append (.ok a)) ∧ a.success = true ∧ a.matchIndex = 6
      ∧ d.log.entries.length = 3 ∧ ¬ backwards.HeldBy d.log.entries := by
  have hhistory : (run fiveEntries [startOne, .event (.appendRequest backwards 0)]).history
      = [⟨.answer 0 (.append (.ok (.accepted 1 2 6))), ⟨2, none⟩, some ⟨2, none⟩,
        { entries := [⟨1, 1, .noop⟩, ⟨2, 1, .noop⟩,
            ⟨3, 2, .command ⟨"c", 2, [0x62]⟩⟩] }⟩] := by cbv
  rw [hhistory]
  refine ⟨_, _, List.mem_singleton_self _, rfl, rfl, rfl, rfl, ?_⟩
  intro hheld
  have hlast := hheld.entries ⟨5, 1, .command ⟨"c", 1, [0x61]⟩⟩ (List.mem_cons_self ..)
  cases hlast

end Raft.Solo
