import Raft.Proofs.Network.Runs
import Raft.Proofs.Network.Turns
import Raft.Proofs.Tenure.Books

/-!
# One outcome for each letter

A letter may reach its target often, and be answered each time; but whoever sent it asked once, and
learns of one outcome: of an answer, or that there is none. It does so when its event loop is free
to take it up, and whatever else comes of the letter is no longer heard.

* `Exchange` is a cluster with the letters whose outcome was learned.
* `Exchange.awaiting x p q t`: how many append requests of a term to a peer have no outcome yet.
* `Exchange.run cluster whole acts` is a run; `Exchange.exists_steps` finds what it does among all
  runs of the cluster.
-/

namespace Raft

/-- A cluster, with the letters whose senders have learned what came of them. -/
structure Exchange where
  net : Network
  /-- These letters, by their places among all that were sent. -/
  concluded : List Nat := []
  /-- The letter that a caller stands for, if it stands for one. -/
  origin : Caller → Option Nat := fun _ => none

/-- Whether a letter offers entries to a member in a term. -/
def Network.Letter.offers (p q : NodeId) (t : Nat) (l : Letter) : Bool :=
  l.source == p && (Effect.send l.target l.request).offers q t

namespace Exchange

open Network (Letter)

/-- The letter that an act brings the outcome of. -/
def outcome? (x : Exchange) : Network.Act → Option Nat
  | .result j =>
    match x.net.replies[j]? with
    | some y => if y.answer.response?.isSome then x.origin y.caller else none
    | none => none
  | .failure k _ => if k < x.net.sent.length then some k else none
  | _ => none

/-- Whether the sender of a letter can take up what came of it. -/
def hears (x : Exchange) (k : Nat) : Bool :=
  match x.net.sent[k]? with
  | some l => x.net.look l.source fun s => s.isRunning && s.node.queue.isEmpty
  | none => false

/-- The letters that callers stand for after an act. -/
def track (x : Exchange) : Network.Act → Caller → Option Nat
  | .request k =>
    if k < x.net.sent.length then Function.update x.origin x.net.nextCaller (some k) else x.origin
  | _ => x.origin

/-- One act. What comes of a letter is learned once. -/
def step (cluster : List Member) (x : Exchange) (a : Network.Act) : Exchange :=
  match x.outcome? a with
  | some k =>
    if k ∉ x.concluded ∧ x.hears k = true then
      { x with net := x.net.step cluster a, concluded := x.concluded ++ [k] }
    else x
  | none => { x with net := x.net.step cluster a, origin := x.track a }

def steps (cluster : List Member) (x : Exchange) (acts : List Network.Act) : Exchange :=
  acts.foldl (step cluster) x

def run (cluster : List Member) (whole : NodeId → Bool) (acts : List Network.Act) : Exchange :=
  steps cluster { net := Network.init whole } acts

theorem run_append (cluster : List Member) (whole : NodeId → Bool) (acts later : List Network.Act) :
    run cluster whole (acts ++ later) = (run cluster whole acts).steps cluster later :=
  List.foldl_append

/-- How many append requests of a term from one member to another have an outcome that the sender
has still to learn. -/
def awaiting (x : Exchange) (p q : NodeId) (t : Nat) : Nat :=
  x.net.sent.zipIdx.countP fun y => y.1.offers p q t && !x.concluded.contains y.2

/-! ## Among all runs -/

/-- An act is one of the cluster, or nothing happens. -/
theorem net_step (cluster : List Member) (x : Exchange) (a : Network.Act) :
    (x.step cluster a).net = x.net.step cluster a ∨ x.step cluster a = x := by
  unfold step
  split
  · split
    · exact Or.inl rfl
    · exact Or.inr rfl
  · exact Or.inl rfl

/-- What is true of every run of a cluster is true of these. -/
theorem exists_steps (cluster : List Member) (x : Exchange) (acts : List Network.Act) :
    ∃ acts', (x.steps cluster acts).net = x.net.steps cluster acts' := by
  induction acts generalizing x with
  | nil => exact ⟨[], rfl⟩
  | cons a acts ih =>
    obtain ⟨acts', hacts⟩ := ih (x.step cluster a)
    rcases net_step cluster x a with hnet | hsame
    · rw [hnet] at hacts
      exact ⟨a :: acts', hacts⟩
    · rw [hsame] at hacts
      refine ⟨acts', ?_⟩
      show ((x.step cluster a).steps cluster acts).net = _
      rwa [hsame]

/-! ## What is awaited -/

variable {x x' : Exchange} {p q : NodeId} {t k : Nat} {l : Letter}

theorem countP_zipIdx_at {α : Type} (f : α → Bool) (l : List α) (j k : Nat) :
    (l.zipIdx j).countP (fun y => f y.1 && y.2 == j + k) = if l[k]?.any f then 1 else 0 := by
  induction l generalizing j k with
  | nil => rfl
  | cons a l ih =>
    rw [List.zipIdx_cons, List.countP_cons]
    cases k with
    | zero =>
      have hrest : (l.zipIdx (j + 1)).countP (fun y => f y.1 && y.2 == j + 0) = 0 := by
        refine List.countP_eq_zero.2 fun y hy => ?_
        have hle := List.le_snd_of_mem_zipIdx hy
        simp
        omega
      rw [hrest]
      simp
    | succ k =>
      have := ih (j + 1) k
      rw [show j + 1 + k = j + (k + 1) by omega] at this
      rw [this]
      simp

/-- The sender of a letter learns what came of it. -/
def conclude (x : Exchange) (k : Nat) : Exchange := { x with concluded := x.concluded ++ [k] }

theorem awaiting_conclude (hk : x.net.sent[k]? = some l) (hnew : k ∉ x.concluded) (p q : NodeId)
    (t : Nat) : x.awaiting p q t
      = (x.conclude k).awaiting p q t + if l.offers p q t then 1 else 0 := by
  unfold awaiting conclude
  dsimp only
  rw [List.countP_eq_countP_filter_add _ _ fun y : Letter × Nat => y.2 == k, List.countP_filter,
    List.countP_filter, Nat.add_comm]
  congr 1
  · refine List.countP_congr fun y _ => ?_
    simp [and_assoc]
  · have hat := countP_zipIdx_at (fun l : Letter => l.offers p q t) x.net.sent 0 k
    rw [hk, Nat.zero_add] at hat
    refine Eq.trans (List.countP_congr fun y _ => ?_) hat
    simp only [Bool.and_eq_true, Bool.not_eq_true', List.contains_eq_mem, decide_eq_false_iff_not,
      beq_iff_eq]
    constructor
    · exact fun h => ⟨h.1.1, h.2⟩
    · rintro ⟨h, rfl⟩
      exact ⟨⟨h, hnew⟩, rfl⟩

theorem awaiting_send (hconcluded : ∀ k ∈ x.concluded, k < x.net.sent.length) {new : List Letter}
    (hsent : x'.net.sent = x.net.sent ++ new) (hsame : x'.concluded = x.concluded) (p q : NodeId)
    (t : Nat) : x'.awaiting p q t = x.awaiting p q t + new.countP (·.offers p q t) := by
  unfold awaiting
  rw [hsent, hsame, List.zipIdx_append, List.countP_append]
  congr 1
  have hall : (new.zipIdx (0 + x.net.sent.length)).countP
      (fun y => y.1.offers p q t && !x.concluded.contains y.2)
      = (new.zipIdx (0 + x.net.sent.length)).countP ((·.offers p q t) ∘ Prod.fst) := by
    refine List.countP_congr fun y hy => ?_
    have hle := List.le_snd_of_mem_zipIdx hy
    have hopen : y.2 ∉ x.concluded := fun hmem => by
      have := hconcluded y.2 hmem
      omega
    simp [hopen]
  rw [hall, ← List.countP_map, List.zipIdx_map_fst]

/-- Only a member's own letters offer something for it. -/
theorem countP_lettersOf (p p' q : NodeId) (t : Nat) (es : List Effect) :
    (Network.lettersOf p es).countP (·.offers p' q t)
      = if p' = p then es.countP (·.offers q t) else 0 := by
  induction es with
  | nil => simp [Network.lettersOf]
  | cons e es ih =>
    cases e with
    | answer caller y =>
      rw [List.countP_cons_of_neg (by exact Bool.false_ne_true), ← ih]
      rfl
    | send target r =>
      have hcons : Network.lettersOf p (.send target r :: es)
          = ⟨p, target, r⟩ :: Network.lettersOf p es := rfl
      rw [hcons, List.countP_cons, List.countP_cons, ih]
      by_cases hp : p' = p
      · subst hp
        simp [Letter.offers]
      · simp [Letter.offers, hp, Ne.symm hp]

end Exchange

end Raft
