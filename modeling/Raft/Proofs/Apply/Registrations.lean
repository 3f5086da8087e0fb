import Mathlib.Data.List.Induction
import Mathlib.Data.List.Perm.Basic
import Raft.Proofs.Apply.Registry

/-!
# Registrations are conserved

Waiters are kept twice: in lists by index, and in an index of request ids. As long as no request id
is registered again while it waits, the two stay in step, and who waits can be read off the calls
that were made.

* `Waiters.Call`: what is done to waiting callers; `Call.names` says whom a call sends away.
* `Waiters.standing calls`: who was registered and not sent away since.
* `Waiters.InStep w`: the index of request ids tells where everybody waits.
* `InStep.run` is what one call does, and `Waiters.registrations_conserved` the result.
-/

namespace Raft.Waiters

/-- What is done to waiting callers. -/
inductive Call where
  | register (index : Nat) (x : Waiter)
  | take (index : Nat)
  | cancel (request : String)
  | failAll
  deriving DecidableEq, Repr

namespace Call

/-- Makes a call. Returns who leaves, and who stays. -/
def run (w : Waiters) : Call → List Waiter × Waiters
  | .register index x => ([], w.register index x)
  | .take index => w.take index
  | .cancel request => ((w.cancel request).1.toList, (w.cancel request).2)
  | .failAll => w.takeAll

/-- Whom a call sends away: who waits on its index, who has its request id, or everybody. -/
def names : Call → Nat × Waiter → Bool
  | .register .., _ => false
  | .take index, a => a.1 = index
  | .cancel request, a => a.2.request = request
  | .failAll, _ => true

/-- Who waits from a call on. -/
def enters : Call → List (Nat × Waiter)
  | .register index x => [(index, x)]
  | _ => []

end Call

/-- Who was registered and not sent away since. -/
def standing (calls : List Call) : List (Nat × Waiter) :=
  calls.foldl (fun s c => s.filter (!c.names ·) ++ c.enters) []

/-- No request id is registered again while it waits. -/
def Proper (calls : List Call) : Prop :=
  ∀ k, (hk : k < calls.length) → ∀ b ∈ calls[k].enters, ∀ a ∈ standing (calls.take k),
    a.2.request ≠ b.2.request

instance (calls : List Call) : Decidable (Proper calls) :=
  inferInstanceAs (Decidable (∀ k, (hk : k < calls.length) → ∀ b ∈ calls[k].enters,
    ∀ a ∈ standing (calls.take k), a.2.request ≠ b.2.request))

/-- Makes one call after the other. Returns everybody who left, and who waits then. -/
def runAll (calls : List Call) : List Waiter × Waiters :=
  calls.foldl (fun r c => (r.1 ++ (c.run r.2).1, (c.run r.2).2)) ([], {})

variable {calls : List Call} {c : Call} {w : Waiters} {a : Nat × Waiter} {request : String}
  {i : Nat} {x : Waiter}

theorem standing_concat (calls : List Call) (c : Call) :
    standing (calls ++ [c]) = (standing calls).filter (!c.names ·) ++ c.enters := by
  unfold standing
  rw [List.foldl_append]
  rfl

/-- Who stands was registered by some call, and no later call sent it away. -/
theorem mem_standing :
    a ∈ standing calls ↔ ∃ before c after, calls = before ++ c :: after ∧ a ∈ c.enters
      ∧ ∀ c' ∈ after, c'.names a = false := by
  induction calls using List.reverseRecOn with
  | nil => simp [standing]
  | append_singleton calls c ih =>
    rw [standing_concat, List.mem_append, List.mem_filter, ih]
    constructor
    · rintro (⟨⟨before, c₀, after, rfl, ha, hafter⟩, hc⟩ | ha)
      · refine ⟨before, c₀, after ++ [c], by simp, ha, fun c' hc' => ?_⟩
        rcases List.mem_append.1 hc' with hc' | hc'
        · exact hafter c' hc'
        · rw [List.mem_singleton.1 hc']
          simpa using hc
      · exact ⟨calls, c, [], rfl, ha, nofun⟩
    · rintro ⟨before, c₀, after, hcalls, ha, hafter⟩
      -- the last call registered it, or spared it
      rcases List.eq_nil_or_concat after with rfl | ⟨middle, last, rfl⟩
      · obtain ⟨-, heq⟩ := List.append_inj' hcalls rfl
        rw [List.singleton_inj.1 heq]
        exact Or.inr ha
      · rw [List.concat_eq_append] at hcalls hafter
        rw [← List.cons_append, ← List.append_assoc] at hcalls
        obtain ⟨rfl, heq⟩ := List.append_inj' hcalls rfl
        rw [List.singleton_inj.1 heq]
        refine Or.inl ⟨⟨before, c₀, middle, rfl, ha, fun c' hc' => ?_⟩, ?_⟩
        · exact hafter c' (List.mem_append_left _ hc')
        · rw [hafter last (by simp)]
          rfl

theorem proper_concat :
    Proper (calls ++ [c])
      ↔ Proper calls ∧ ∀ b ∈ c.enters, ∀ a ∈ standing calls, a.2.request ≠ b.2.request := by
  unfold Proper
  constructor
  · intro h
    refine ⟨fun k hk => ?_, ?_⟩
    · have hk' : k < (calls ++ [c]).length := by
        rw [List.length_append]
        omega
      have hlast := h k hk'
      rwa [List.getElem_append_left hk, List.take_append_of_le_length (Nat.le_of_lt hk)] at hlast
    · have hlast := h calls.length (by simp)
      rwa [List.getElem_concat_length rfl, List.take_left' rfl] at hlast
  · rintro ⟨hcalls, hc⟩ k hk
    rcases Nat.lt_or_ge k calls.length with hlt | hge
    · rw [List.getElem_append_left hlt, List.take_append_of_le_length (Nat.le_of_lt hlt)]
      exact hcalls k hlt
    · rw [List.length_append, List.length_singleton] at hk
      obtain rfl : k = calls.length := by omega
      rw [List.getElem_concat_length rfl, List.take_left' rfl]
      exact hc

theorem runAll_concat (calls : List Call) (c : Call) :
    runAll (calls ++ [c])
      = ((runAll calls).1 ++ (c.run (runAll calls).2).1, (c.run (runAll calls).2).2) := by
  unfold runAll
  rw [List.foldl_append]
  rfl

/-! ## The two books -/

/-- What the index of request ids holds for a waiter. -/
def entry (a : Nat × Waiter) : String × Nat := (a.2.request, a.1)

/-- Everybody waits once, and the index of request ids tells where. -/
structure InStep (w : Waiters) : Prop where
  keyed : w.Keyed
  requests : (w.items.map (·.2.request)).Nodup
  index : w.indexOf.Perm (w.items.map entry)

theorem inStep_empty : InStep {} := ⟨keyed_empty, List.nodup_nil, List.Perm.refl _⟩

theorem Keyed.mem_on_iff (h : w.Keyed) : x ∈ w.on i ↔ (i, x) ∈ w.items :=
  ⟨fun hx => has_iff_mem_items.1 (has_of_mem_on hx), fun hx => by
    have hmem : (i, x) ∈ w.items.filter (·.1 = i) := List.mem_filter.2 ⟨hx, by simp⟩
    rw [h.filter_eq] at hmem
    simpa using hmem⟩

theorem InStep.eq_of_request {b : Nat × Waiter} (h : w.InStep) (ha : a ∈ w.items)
    (hb : b ∈ w.items) (heq : a.2.request = b.2.request) : a = b :=
  List.inj_on_of_nodup_map h.requests ha hb heq

theorem InStep.indexOf_filter (h : w.InStep) (p : String × Nat → Bool) :
    (w.indexOf.filter p).Perm ((w.items.filter fun a => p (a.2.request, a.1)).map entry) := by
  have hfilter := h.index.filter p
  rwa [List.filter_map] at hfilter

theorem InStep.lookup_eq_some_iff (h : w.InStep) :
    w.indexOf.lookup request = some i ↔ ∃ x, (i, x) ∈ w.items ∧ x.request = request := by
  have hnodup : (w.indexOf.map (·.1)).Nodup := by
    rw [(h.index.map (·.1)).nodup_iff, List.map_map]
    exact h.requests
  rw [lookup_eq_some_iff_mem hnodup, h.index.mem_iff, List.mem_map]
  constructor
  · rintro ⟨⟨j, x⟩, hx, heq⟩
    obtain ⟨hrequest, rfl⟩ := Prod.mk.inj heq
    exact ⟨x, hx, hrequest⟩
  · rintro ⟨x, hx, rfl⟩
    exact ⟨(i, x), hx, rfl⟩

/-- Where everybody waits once, a request id stands for one waiter. -/
theorem InStep.filter_eq_singleton_iff (h : w.InStep) :
    w.items.filter (·.2.request = request) = [(i, x)] ↔ (i, x) ∈ w.items ∧ x.request = request := by
  constructor
  · intro hone
    have hmem : (i, x) ∈ w.items.filter (·.2.request = request) := by
      rw [hone]
      exact List.mem_singleton_self _
    simpa using hmem
  · rintro ⟨hx, rfl⟩
    refine List.perm_singleton.1 ((List.perm_ext_iff_of_nodup (h.requests.of_map.filter _)
      (List.nodup_singleton _)).2 fun b => ?_)
    rw [List.mem_filter, List.mem_singleton, decide_eq_true_eq]
    exact ⟨fun hb => h.eq_of_request hb.1 hx hb.2, fun hb => ⟨hb ▸ hx, hb ▸ rfl⟩⟩

/-! ## One call -/

theorem InStep.register (h : w.InStep) (hnew : ∀ a ∈ w.items, a.2.request ≠ x.request) :
    (w.register i x).InStep where
  keyed := h.keyed.register i x
  requests := by
    rw [((items_register w i x).map _).nodup_iff, List.map_cons, List.nodup_cons]
    refine ⟨fun hmem => ?_, h.requests⟩
    obtain ⟨a, ha, heq⟩ := List.mem_map.1 hmem
    exact hnew a ha heq
  index := by
    have hkeep : w.items.filter (fun a => a.2.request ≠ x.request) = w.items :=
      List.filter_eq_self.2 fun a ha => decide_eq_true (hnew a ha)
    have hrest := h.indexOf_filter (·.1 ≠ x.request)
    rw [hkeep] at hrest
    exact (hrest.cons _).trans ((items_register w i x).map entry).symm

theorem InStep.take (h : w.InStep) (i : Nat) : (w.take i).2.InStep where
  keyed := h.keyed.take i
  requests := by
    rw [items_take]
    exact h.requests.sublist (List.filter_sublist.map _)
  index := by
    have hkeep : w.items.filter (fun a => !((w.on i).any fun x => x.request = a.2.request))
        = (w.take i).2.items := by
      rw [items_take]
      refine List.filter_congr fun a ha => ?_
      -- who has the request id of somebody on the index is on the index
      have hon : (∃ x ∈ w.on i, x.request = a.2.request) ↔ a.1 = i := by
        constructor
        · rintro ⟨x, hx, heq⟩
          rw [h.eq_of_request ha (h.keyed.mem_on_iff.1 hx) heq.symm]
        · rintro rfl
          exact ⟨a.2, h.keyed.mem_on_iff.2 ha, rfl⟩
      rw [Bool.eq_iff_iff, Bool.not_eq_true', List.any_eq_false]
      simpa using not_congr hon
    have hrest := h.indexOf_filter fun item => !((w.on i).any fun x => x.request = item.1)
    rwa [hkeep] at hrest

/-- A list gives away the first that passes the test, if there is any. -/
theorem exists_swapOut {p : Waiter → Bool} {ws : List Waiter} (hx : x ∈ ws) (hp : p x = true) :
    ∃ y rest, swapOut p ws = some (y, rest) := by
  have hsome : (ws.findIdx? p).isSome := List.findIdx?_isSome.trans (List.any_eq_true.2 ⟨x, hx, hp⟩)
  obtain ⟨k, hk⟩ := Option.isSome_iff_exists.1 hsome
  obtain ⟨hlt, -, -⟩ := List.findIdx?_eq_some_iff_getElem.1 hk
  unfold swapOut
  rw [hk]
  dsimp only
  rw [List.getElem?_eq_getElem hlt, List.getLast?_eq_some_getLast (List.ne_nil_of_mem hx)]
  exact ⟨_, _, rfl⟩

theorem fst_cancel (w : Waiters) (request : String) :
    (w.cancel request).1 = (w.indexOf.lookup request).bind fun i =>
      (swapOut (fun x => x.request == request) (w.on i)).map (·.1) := by
  unfold Waiters.cancel
  split
  · rename_i hnone
    rw [hnone]
    rfl
  · rename_i i hi
    rw [hi, Option.bind_some]
    dsimp only
    split <;> rename_i hswap <;> exact (congrArg (Option.map (·.1)) hswap).symm

theorem indexOf_cancel (w : Waiters) (request : String) :
    (w.cancel request).2.indexOf = w.indexOf.filter (·.1 ≠ request) := by
  unfold Waiters.cancel
  split
  · rename_i hnone
    refine (List.filter_eq_self.2 fun item hitem => ?_).symm
    have hne := List.lookup_eq_none_iff.1 hnone item hitem
    rw [decide_eq_true_eq]
    rintro rfl
    simp at hne
  · dsimp only
    split <;> rfl

theorem InStep.exists_cancel (h : w.InStep) (ha : a ∈ w.items) :
    ∃ y, (w.cancel a.2.request).1 = some y := by
  obtain ⟨y, rest, hswap⟩ := exists_swapOut (p := fun x => x.request == a.2.request)
    (h.keyed.mem_on_iff.2 ha) (by simp)
  rw [fst_cancel, h.lookup_eq_some_iff.2 ⟨a.2, ha, rfl⟩, Option.bind_some, hswap]
  exact ⟨y, rfl⟩

/-- Who has the request id leaves, and the others stay. -/
theorem InStep.perm_cancel (h : w.InStep) (request : String) :
    (w.cancel request).1.toList = (w.items.filter (·.2.request = request)).map (·.2)
      ∧ (w.cancel request).2.items.Perm (w.items.filter (·.2.request ≠ request)) := by
  obtain ⟨-, ⟨hnone, hsame⟩ | ⟨i, x, hx, rfl, hperm⟩⟩ := h.keyed.cancel request
  · -- nobody has the request id: the call finds no one, and nobody leaves
    have hnot : ∀ a ∈ w.items, a.2.request ≠ request := by
      rintro a ha rfl
      obtain ⟨y, hy⟩ := h.exists_cancel ha
      rw [hnone] at hy
      cases hy
    have hleaves : w.items.filter (·.2.request = request) = [] :=
      List.filter_eq_nil_iff.2 fun a ha => by simpa using hnot a ha
    have hstays : w.items.filter (·.2.request ≠ request) = w.items :=
      List.filter_eq_self.2 fun a ha => decide_eq_true (hnot a ha)
    rw [hnone, hsame, hleaves, hstays]
    exact ⟨rfl, List.Perm.refl _⟩
  · have hmem : (i, x) ∈ w.items := hperm.mem_iff.2 (List.mem_cons_self ..)
    -- request ids are told apart, so that nobody else is named
    have hrequests := h.requests
    rw [(hperm.map (·.2.request)).nodup_iff, List.map_cons, List.nodup_cons] at hrequests
    have hstays : (w.cancel x.request).2.items.filter (·.2.request ≠ x.request)
        = (w.cancel x.request).2.items :=
      List.filter_eq_self.2 fun a ha => decide_eq_true fun heq =>
        hrequests.1 (List.mem_map.2 ⟨a, ha, heq⟩)
    have hrest := hperm.filter (·.2.request ≠ x.request)
    rw [List.filter_cons_of_neg (by simp), hstays] at hrest
    rw [hx, h.filter_eq_singleton_iff.2 ⟨hmem, rfl⟩]
    exact ⟨rfl, hrest.symm⟩

theorem InStep.cancel (h : w.InStep) (request : String) : (w.cancel request).2.InStep where
  keyed := (h.keyed.cancel request).1
  requests := by
    rw [((h.perm_cancel request).2.map _).nodup_iff]
    exact h.requests.sublist (List.filter_sublist.map _)
  index := by
    rw [indexOf_cancel]
    exact (h.indexOf_filter (·.1 ≠ request)).trans ((h.perm_cancel request).2.map entry).symm

theorem InStep.foldl_take (h : w.InStep) (indexes : List Nat) (taken : List Waiter) :
    (indexes.foldl (fun acc i => (acc.1 ++ (acc.2.take i).1, (acc.2.take i).2))
      (taken, w)).2.InStep := by
  induction indexes generalizing taken w with
  | nil => exact h
  | cons i rest ih => exact ih (h.take i) (taken ++ (w.take i).1)

theorem InStep.takeAll (h : w.InStep) : w.takeAll.2.InStep := by
  have hfold := h.foldl_take (w.byIndex.map (·.1)) []
  exact hfold

theorem InStep.run (h : w.InStep)
    (hnew : ∀ b ∈ c.enters, ∀ a ∈ w.items, a.2.request ≠ b.2.request) :
    (c.run w).2.InStep := by
  cases c with
  | register i x => exact h.register (hnew (i, x) (List.mem_singleton_self _))
  | take i => exact h.take i
  | cancel request => exact h.cancel request
  | failAll => exact h.takeAll

theorem InStep.leave (h : w.InStep) (c : Call) :
    (c.run w).1.Perm ((w.items.filter c.names).map (·.2)) := by
  cases c with
  | register i x =>
    have hnone : w.items.filter (Call.register i x).names = [] :=
      List.filter_eq_nil_iff.2 fun _ _ => nofun
    rw [hnone]
    exact List.Perm.refl _
  | take i =>
    have htaken : (w.items.filter (·.1 = i)).map (·.2) = w.on i := by
      rw [h.keyed.filter_eq, List.map_map]
      exact List.map_id _
    exact .of_eq htaken.symm
  | cancel request => exact .of_eq (h.perm_cancel request).1
  | failAll =>
    have hall : w.items.filter Call.failAll.names = w.items :=
      List.filter_eq_self.2 fun _ _ => rfl
    rw [hall, ← all_eq]
    exact h.keyed.takeAll.1.symm

theorem InStep.stay (h : w.InStep) (c : Call) :
    (c.run w).2.items.Perm (w.items.filter (!c.names ·) ++ c.enters) := by
  cases c with
  | register i x =>
    have hall : w.items.filter (!(Call.register i x).names ·) = w.items :=
      List.filter_eq_self.2 fun _ _ => rfl
    rw [hall]
    exact (items_register w i x).trans (List.perm_append_singleton ..).symm
  | take i =>
    have hrest : w.items.filter (!(Call.take i).names ·) = (w.take i).2.items := by
      rw [items_take]
      exact List.filter_congr fun a _ => (decide_not ..).symm
    rw [hrest]
    exact .of_eq (List.append_nil _).symm
  | cancel request =>
    have hrest : w.items.filter (!(Call.cancel request).names ·)
        = w.items.filter (·.2.request ≠ request) :=
      List.filter_congr fun a _ => (decide_not ..).symm
    rw [hrest]
    exact (h.perm_cancel request).2.trans (.of_eq (List.append_nil _).symm)
  | failAll =>
    have hnone : w.items.filter (!Call.failAll.names ·) = [] :=
      List.filter_eq_nil_iff.2 fun _ _ => nofun
    have hempty : w.takeAll.2.items = [] := congrArg itemsOf h.keyed.takeAll.2
    rw [hnone]
    exact .of_eq hempty

/-! ## Call after call -/

/-- Whoever stands is kept, once, and both books know it. -/
theorem inStep_runAll (h : Proper calls) :
    (runAll calls).2.InStep ∧ (runAll calls).2.items.Perm (standing calls) := by
  induction calls using List.reverseRecOn with
  | nil => exact ⟨inStep_empty, List.Perm.refl _⟩
  | append_singleton calls c ih =>
    obtain ⟨hcalls, hc⟩ := proper_concat.1 h
    obtain ⟨hstep, hperm⟩ := ih hcalls
    rw [runAll_concat, standing_concat]
    refine ⟨hstep.run fun b hb a ha => hc b hb a (hperm.mem_iff.1 ha), ?_⟩
    exact (hstep.stay c).trans ((hperm.filter _).append_right _)

/-- Everybody who was registered left once, or waits. -/
theorem perm_runAll (h : Proper calls) :
    ((calls.flatMap Call.enters).map (·.2)).Perm ((runAll calls).1 ++ (runAll calls).2.all) := by
  induction calls using List.reverseRecOn with
  | nil => exact List.Perm.refl _
  | append_singleton calls c ih =>
    obtain ⟨hcalls, -⟩ := proper_concat.1 h
    have hstep := (inStep_runAll hcalls).1
    have hsplit : (runAll calls).2.all.Perm
        ((c.run (runAll calls).2).1 ++ ((runAll calls).2.items.filter (!c.names ·)).map (·.2)) := by
      rw [all_eq]
      refine ((List.filter_append_perm c.names _).symm.map (·.2)).trans ?_
      rw [List.map_append]
      exact (hstep.leave c).symm.append_right _
    have hstay := (hstep.stay c).map (·.2)
    rw [List.map_append, ← all_eq] at hstay
    rw [runAll_concat, List.flatMap_append, List.flatMap_singleton, List.map_append]
    calc ((calls.flatMap Call.enters).map (·.2) ++ c.enters.map (·.2)).Perm
          ((runAll calls).1 ++ (runAll calls).2.all ++ c.enters.map (·.2)) :=
            (ih hcalls).append_right _
      _ |>.Perm ((runAll calls).1 ++ ((c.run (runAll calls).2).1
            ++ ((runAll calls).2.items.filter (!c.names ·)).map (·.2)) ++ c.enters.map (·.2)) :=
          (hsplit.append_left _).append_right _
      _ = (runAll calls).1 ++ (c.run (runAll calls).2).1
            ++ (((runAll calls).2.items.filter (!c.names ·)).map (·.2) ++ c.enters.map (·.2)) := by
          simp only [List.append_assoc]
      _ |>.Perm ((runAll calls).1 ++ (c.run (runAll calls).2).1
            ++ (c.run (runAll calls).2).2.all) := hstay.symm.append_left _

/-- The waiters that were registered are accounted for. -/
structure Conserved (calls : List Call) : Prop where
  /-- A request id is found on an index where the one waiter that has it is kept. -/
  lookup_iff : ∀ request i, (runAll calls).2.indexOf.lookup request = some i
    ↔ ∃ x, (runAll calls).2.items.filter (·.2.request = request) = [(i, x)]
  size_eq : (runAll calls).2.size = (runAll calls).2.items.length
  stored : (runAll calls).2.items.Perm (standing calls)
  /-- Who is kept was registered, and no later call named it. -/
  mem_iff : ∀ a, a ∈ (runAll calls).2.items ↔ ∃ before c after, calls = before ++ c :: after
    ∧ a ∈ c.enters ∧ ∀ c' ∈ after, c'.names a = false
  /-- Everybody leaves once. -/
  ledger : ((calls.flatMap Call.enters).map (·.2)).Perm ((runAll calls).1 ++ (runAll calls).2.all)
  /-- A call returns those who stand and are named. -/
  leave : ∀ c : Call, (c.run (runAll calls).2).1.Perm (((standing calls).filter c.names).map (·.2))
  /-- A call keeps those who are not named, each on its index. -/
  stay : ∀ c : Call, (c.run (runAll calls).2).2.items.Perm
    ((runAll calls).2.items.filter (!c.names ·) ++ c.enters)

/-- **Registrations are conserved.** Whatever is registered, taken, withdrawn and failed, as long as
no request id is registered again while it waits: request ids are found where their only waiters
are, everybody who was registered leaves once, with the call that names it, and no call touches
anybody else. -/
theorem registrations_conserved (calls : List Call) (h : Proper calls) : Conserved calls := by
  obtain ⟨hstep, hperm⟩ := inStep_runAll h
  refine ⟨fun request i => ?_, ?_, hperm, fun a => hperm.mem_iff.trans mem_standing,
    perm_runAll h, fun c => ?_, hstep.stay⟩
  · rw [hstep.lookup_eq_some_iff]
    exact exists_congr fun x => hstep.filter_eq_singleton_iff.symm
  · exact hstep.index.length_eq.trans (List.length_map _)
  · exact (hstep.leave c).trans ((hperm.filter _).map _)

/-- Three wait on one index, the first withdraws and comes back, and the others are taken. -/
def churn : List Call :=
  [.register 5 ⟨"r1", 1, 1⟩, .register 5 ⟨"r2", 1, 2⟩, .register 5 ⟨"r3", 1, 3⟩, .cancel "r1",
    .register 7 ⟨"r1", 2, 4⟩, .take 5, .cancel "r2", .register 8 ⟨"r2", 2, 5⟩]

theorem registrations_conserved_of_churn :
    Proper churn ∧ (runAll churn).2.size = 2
      ∧ (runAll churn).2.indexOf.lookup "r1" = some 7
      ∧ (Call.failAll.run (runAll churn).2).1.Perm [⟨"r1", 2, 4⟩, ⟨"r2", 2, 5⟩] := by
  have hproper : Proper churn := by decide
  have h := registrations_conserved churn hproper
  refine ⟨hproper, ?_, (h.lookup_iff "r1" 7).2 ⟨⟨"r1", 2, 4⟩, by decide⟩, h.leave .failAll⟩
  rw [h.size_eq, h.stored.length_eq]
  decide

end Raft.Waiters
