import Raft.Error

/-!
# Runs of actions

What holds when a run ends, said of its result and its last state if it succeeds, and of its
failure and its last state if it fails. An action is followed through one step at a time: what
holds after the first part is what the rest starts from.

* `Action.Ensures x s Q E`: the run of `x` from `s` ends in `Q` or fails in `E`.
* `Action.Keeps P E x s Q`: a run that starts where `P` holds ends there too, and in `Q`.
-/

namespace Raft.Action

variable {σ α β : Type} {s : σ} {Q : α → σ → Prop} {R : β → σ → Prop}
  {E : Failure Error → σ → Prop}

/-- A run that succeeds ends in `Q`, one that fails ends in `E`. -/
def Ensures (x : Action σ α) (s : σ) (Q : α → σ → Prop) (E : Failure Error → σ → Prop) : Prop :=
  match x.run s with
  | .ok a s' => Q a s'
  | .error f s' => E f s'

theorem Ensures.mono {x : Action σ α} {Q' : α → σ → Prop} {E' : Failure Error → σ → Prop}
    (h : Ensures x s Q E) (hQ : ∀ a s', Q a s' → Q' a s') (hE : ∀ f s', E f s' → E' f s') :
    Ensures x s Q' E' := by
  unfold Ensures at h ⊢
  cases hx : x.run s with
  | ok a s' =>
    rw [hx] at h
    exact hQ a s' h
  | error f s' =>
    rw [hx] at h
    exact hE f s' h

theorem Ensures.weaken {x : Action σ α} {Q' : α → σ → Prop} (h : Ensures x s Q E)
    (hQ : ∀ a s', Q a s' → Q' a s') : Ensures x s Q' E := h.mono hQ fun _ _ h => h

theorem Ensures.bind {x : Action σ α} {f : α → Action σ β} (h : Ensures x s Q E)
    (hf : ∀ a s', Q a s' → Ensures (f a) s' R E) : Ensures (x >>= f) s R E := by
  unfold Ensures at h ⊢
  rw [EStateM.run_bind]
  cases hx : x.run s with
  | ok a s' =>
    rw [hx] at h
    exact hf a s' h
  | error e s' =>
    rw [hx] at h
    exact h

/-- What holds when a run ends holds together with what else does. -/
theorem Ensures.and {x : Action σ α} {Q' : α → σ → Prop} {E' : Failure Error → σ → Prop}
    (h : Ensures x s Q E) (h' : Ensures x s Q' E') :
    Ensures x s (fun a s' => Q a s' ∧ Q' a s') fun f s' => E f s' ∧ E' f s' := by
  unfold Ensures at h h' ⊢
  cases hx : x.run s with
  | ok a s' =>
    rw [hx] at h h'
    exact ⟨h, h'⟩
  | error f s' =>
    rw [hx] at h h'
    exact ⟨h, h'⟩

theorem Ensures.ok {x : Action σ α} (h : Ensures x s Q E) {a : α} {s' : σ}
    (hx : x.run s = .ok a s') : Q a s' := by
  unfold Ensures at h
  rwa [hx] at h

theorem Ensures.error {x : Action σ α} (h : Ensures x s Q E) {f : Failure Error} {s' : σ}
    (hx : x.run s = .error f s') : E f s' := by
  unfold Ensures at h
  rwa [hx] at h

/-- A run that cannot fail succeeds. -/
theorem Ensures.exists_ok {x : Action σ α} (h : Ensures x s Q fun _ _ => False) :
    ∃ a s', x.run s = .ok a s' ∧ Q a s' := by
  unfold Ensures at h
  cases hx : x.run s with
  | ok a s' =>
    rw [hx] at h
    exact ⟨a, s', rfl, h⟩
  | error f s' =>
    rw [hx] at h
    exact h.elim

theorem Ensures.exists_error {x : Action σ α} (h : Ensures x s (fun _ _ => False) E) :
    ∃ f s', x.run s = .error f s' ∧ E f s' := by
  unfold Ensures at h
  cases hx : x.run s with
  | ok a s' =>
    rw [hx] at h
    exact h.elim
  | error f s' =>
    rw [hx] at h
    exact ⟨f, s', rfl, h⟩

theorem exists_of_outcome_eq_ok {r : EStateM.Result (Failure Error) σ α} {a : α}
    (h : outcome r = .ok a) : ∃ s', r = .ok a s' := by
  cases r with
  | ok b s' =>
    obtain rfl := Except.ok.inj h
    exact ⟨s', rfl⟩
  | error f s' => cases h

/-- A part that cannot fail may be said to end in anything if it did. -/
theorem Ensures.mono_of_sure {x : Action σ α} {Q' : α → σ → Prop}
    (h : Ensures x s Q fun _ _ => False) (hQ : ∀ a s', Q a s' → Q' a s') : Ensures x s Q' E :=
  h.mono hQ fun _ _ hf => hf.elim

/-- What follows a part that cannot fail. -/
theorem Ensures.bind_of_sure {x : Action σ α} {f : α → Action σ β}
    (h : Ensures x s Q fun _ _ => False) (hf : ∀ a s', Q a s' → Ensures (f a) s' R E) :
    Ensures (x >>= f) s R E :=
  Ensures.bind (h.mono_of_sure fun _ _ h => h) hf

theorem ensures_true (x : Action σ α) (s : σ) :
    Ensures x s (fun _ _ => True) fun _ _ => True := by
  unfold Ensures
  split <;> trivial

theorem ensures_bind_of_run {x : Action σ α} {f : α → Action σ β} {a : α} {s' : σ}
    (hx : x.run s = .ok a s') (h : Ensures (f a) s' R E) : Ensures (x >>= f) s R E := by
  unfold Ensures
  rw [EStateM.run_bind, hx]
  exact h

theorem ensures_pure {a : α} (h : Q a s) : Ensures (pure a) s Q E := h

theorem ensures_set {s' : σ} {Q : PUnit → σ → Prop} (h : Q ⟨⟩ s') :
    Ensures (set s' : Action σ PUnit) s Q E := h

theorem ensures_modify {g : σ → σ} {Q : PUnit → σ → Prop} (h : Q ⟨⟩ (g s)) :
    Ensures (modify g : Action σ PUnit) s Q E := h

theorem ensures_fail {e : Error} (h : E (.error e) s) :
    Ensures (fail e : Action σ α) s Q E := h

theorem ensures_ofExcept {x : Except (Failure Error) α} (hok : ∀ a, x = .ok a → Q a s)
    (herror : ∀ f, x = .error f → E f s) : Ensures (ofExcept x) s Q E := by
  cases x with
  | ok a => exact hok a rfl
  | error f => exact herror f rfl

theorem ensures_get_bind {f : σ → Action σ α} (h : Ensures (f s) s Q E) :
    Ensures (get >>= f) s Q E := h

theorem ensures_set_bind {s' : σ} {f : PUnit → Action σ α} (h : Ensures (f ⟨⟩) s' Q E) :
    Ensures (set s' >>= f) s Q E := h

theorem ensures_modify_bind {g : σ → σ} {f : PUnit → Action σ α}
    (h : Ensures (f ⟨⟩) (g s) Q E) : Ensures (modify g >>= f) s Q E := h

theorem ite_bind (c : Prop) [Decidable c] (y : Action σ PUnit) (f : PUnit → Action σ α) :
    (if c then y >>= f else f ⟨⟩) = (if c then y else pure ⟨⟩) >>= f := by
  split <;> rfl

/-! ## Runs that keep to something -/

section Keeps

variable {P : σ → Prop} {Q' : α → σ → Prop}

/-- A run from where `P` holds ends where `P` holds, and in `Q`; one that fails ends in `E`. -/
def Keeps (P : σ → Prop) (E : Failure Error → σ → Prop) (x : Action σ α) (s : σ)
    (Q : α → σ → Prop) : Prop :=
  P s → Ensures x s (fun a s' => P s' ∧ Q a s') E

theorem Keeps.bind {x : Action σ α} {f : α → Action σ β} (h : Keeps P E x s Q)
    (hf : ∀ a s', Q a s' → Keeps P E (f a) s' R) : Keeps P E (x >>= f) s R := by
  intro hs
  refine Ensures.bind (h hs) ?_
  rintro a s' ⟨hs', hQ⟩
  exact hf a s' hQ hs'

theorem Keeps.weaken {x : Action σ α} (h : Keeps P E x s Q) (hQ : ∀ a s', Q a s' → Q' a s') :
    Keeps P E x s Q' :=
  fun hs => (h hs).weaken fun a s' hs' => ⟨hs'.1, hQ a s' hs'.2⟩

theorem keeps_pure {a : α} (h : Q a s) : Keeps P E (pure a) s Q := fun hs => ⟨hs, h⟩

theorem keeps_get_bind {f : σ → Action σ α} (h : Keeps P E (f s) s Q) :
    Keeps P E (get >>= f) s Q := h

theorem keeps_modify_bind {g : σ → σ} {f : PUnit → Action σ α} (hg : P s → P (g s))
    (h : Keeps P E (f ⟨⟩) (g s) Q) : Keeps P E (modify g >>= f) s Q := fun hs => h (hg hs)

theorem keeps_set_bind {s' : σ} {f : PUnit → Action σ α} (hs' : P s → P s')
    (h : Keeps P E (f ⟨⟩) s' Q) : Keeps P E (set s' >>= f) s Q := fun hs => h (hs' hs)

theorem keeps_ite {c : Prop} [Decidable c] {x y : Action σ α} (hx : c → Keeps P E x s Q)
    (hy : ¬ c → Keeps P E y s Q) : Keeps P E (if c then x else y) s Q := by
  split
  · rename_i hc
    exact hx hc
  · rename_i hc
    exact hy hc

theorem keeps_ite_bind {c : Prop} [Decidable c] {y : Action σ PUnit} {f : PUnit → Action σ α}
    (h : Keeps P E ((if c then y else pure ⟨⟩) >>= f) s Q) :
    Keeps P E (if c then y >>= f else f ⟨⟩) s Q := by
  rwa [ite_bind]

theorem keeps_fail {e : Error} (h : P s → E (.error e) s) : Keeps P E (fail e : Action σ α) s Q := h

/-- A computation without state is passed over if it gives a result. -/
theorem keeps_ofExcept_bind {x : Except (Failure Error) β} {f : β → Action σ α}
    (h : ∀ b, x = .ok b → Keeps P E (f b) s Q) (herror : ∀ e, x = .error e → P s → E e s) :
    Keeps P E (ofExcept x >>= f) s Q := by
  cases x with
  | ok b => exact h b rfl
  | error e => exact herror e rfl

theorem keeps_ofResult_bind {x : Except Error β} {f : β → Action σ α}
    (h : ∀ b, x = .ok b → Keeps P E (f b) s Q)
    (herror : ∀ e, x = .error e → P s → E (.error e) s) :
    Keeps P E (ofResult x >>= f) s Q := by
  cases x with
  | ok b => exact h b rfl
  | error e => exact herror e rfl

end Keeps

end Raft.Action

namespace Raft

/-- A failure after which the node does not go on. -/
def Failure.Stops (f : Failure Error) : Prop :=
  f = .overflow ∨ ∃ e, f = .error e ∧ e.isFatal = true

/-- A sum fails only if it is too large. -/
theorem eq_overflow_of_sum_eq_error {a b : Nat} {f : Failure Error} (h : sum a b = .error f) :
    f = .overflow := (sum_eq_error_iff.1 h).1

/-- A computation without state succeeds if all its parts do. -/
theorem exists_of_bind_eq_ok {ε α β : Type} {x : Except ε α} {f : α → Except ε β} {b : β}
    (h : (x >>= f) = .ok b) : ∃ a, x = .ok a ∧ f a = .ok b := by
  cases x with
  | ok a => exact ⟨a, rfl, h⟩
  | error e => cases h

/-- A computation without state fails where one of its parts does. -/
theorem of_bind_eq_error {ε α β : Type} {x : Except ε α} {f : α → Except ε β} {e : ε}
    (h : (x >>= f) = .error e) : x = .error e ∨ ∃ a, x = .ok a ∧ f a = .error e := by
  cases x with
  | ok a => exact Or.inr ⟨a, rfl, h⟩
  | error e' =>
    obtain rfl := Except.error.inj h
    exact Or.inl rfl

end Raft
