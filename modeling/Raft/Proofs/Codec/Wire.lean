import Raft.Codec.Wire
import Raft.Proofs.Codec.Digits
import Raft.Proofs.Codec.Utf8

/-!
# Decoders that undo encoders

A decoder and an encoder belong together when each undoes the other: what was written is read back,
whatever follows it, and what is read has been written that way. The primitives of the wire form
belong together, and so does what is built of parts that do.

* `Inverts d write fits`: the decoder `d` and the encoder `write` undo each other, on the values
  that `fits` admits.
* `Inverts.field` puts a part in front of the rest, `Inverts.done` ends a value.
* `items_inverts`: lists of what is written in at least one byte.
-/

namespace Raft.Codec

/-- A decoder undoes an encoder: it reads back every value that fits and leaves what follows, and
what it takes from a byte string is the form of a value that fits. -/
structure Inverts {α : Type} (d : Decoder α) (write : α → Bytes) (fits : α → Prop) : Prop where
  reads : ∀ a, fits a → ∀ rest, d.run (write a ++ rest) = .ok (a, rest)
  takes : ∀ bytes a rest, d.run bytes = .ok (a, rest) → fits a ∧ bytes = write a ++ rest

variable {α β : Type} {d : Decoder α} {write write' : α → Bytes} {fits fits' : α → Prop}

theorem Inverts.congr (h : Inverts d write fits) (hfits : ∀ a, fits' a ↔ fits a)
    (hwrite : ∀ a, fits a → write' a = write a) : Inverts d write' fits' where
  reads a ha rest := by
    rw [hfits] at ha
    rw [hwrite a ha]
    exact h.reads a ha rest
  takes bytes a rest hrun := by
    obtain ⟨ha, hbytes⟩ := h.takes bytes a rest hrun
    rw [hfits, hwrite a ha]
    exact ⟨ha, hbytes⟩

/-! ## Putting parts together -/

/-- A first part, and a rest that depends on it: `known` is what the parts before say of the
value. -/
theorem Inverts.field {known more : β → Prop} {f : α → Decoder β} {after : β → Bytes}
    (h : Inverts d write fits) (part : β → α)
    (hf : ∀ a, fits a → Inverts (f a) after fun b => (known b ∧ part b = a) ∧ more b) :
    Inverts (d >>= f) (fun b => write (part b) ++ after b)
      fun b => known b ∧ fits (part b) ∧ more b where
  reads b hb rest := by
    obtain ⟨hknown, hpart, hmore⟩ := hb
    have hrest := (hf (part b) hpart).reads b ⟨⟨hknown, rfl⟩, hmore⟩ rest
    rw [StateT.run_bind, List.append_assoc, h.reads _ hpart]
    exact hrest
  takes bytes b rest hrun := by
    rw [StateT.run_bind] at hrun
    obtain ⟨⟨a, middle⟩, ha, hb⟩ := exists_of_bind_eq_ok hrun
    obtain ⟨hfits, rfl⟩ := h.takes _ _ _ ha
    obtain ⟨⟨⟨hknown, rfl⟩, hmore⟩, rfl⟩ := (hf a hfits).takes _ _ _ hb
    exact ⟨⟨hknown, hfits, hmore⟩, by rw [List.append_assoc]⟩

/-- Nothing is left to read: the parts before determine the value. -/
theorem Inverts.done {a : α} (hfits : ∀ b, fits b ↔ b = a) (hwrite : write a = []) :
    Inverts (pure a) write fits where
  reads b hb rest := by
    obtain rfl := (hfits b).1 hb
    rw [hwrite]
    rfl
  takes bytes b rest hrun := by
    obtain ⟨rfl, rfl⟩ := Prod.mk.inj (Except.ok.inj hrun)
    exact ⟨(hfits _).2 rfl, by rw [hwrite, List.nil_append]⟩

theorem Inverts.first {more : β → Prop} {f : α → Decoder β} {after : β → Bytes}
    (h : Inverts d write fits) (part : β → α)
    (hf : ∀ a, fits a → Inverts (f a) after fun b => part b = a ∧ more b) :
    Inverts (d >>= f) (fun b => write (part b) ++ after b) fun b => fits (part b) ∧ more b := by
  have hfield : Inverts (d >>= f) (fun b => write (part b) ++ after b)
      fun b => True ∧ fits (part b) ∧ more b :=
    h.field part fun a ha => (hf a ha).congr (by simp) fun _ _ => rfl
  exact hfield.congr (by simp) fun _ _ => rfl

theorem Inverts.last {known : β → Prop} {f : α → β} (h : Inverts d write fits) (part : β → α)
    (hf : ∀ a b, known b ∧ part b = a ↔ b = f a) :
    Inverts (do return f (← d)) (fun b => write (part b)) fun b => known b ∧ fits (part b) := by
  have hfield : Inverts (do return f (← d)) (fun b => write (part b) ++ [])
      fun b => known b ∧ fits (part b) ∧ True :=
    h.field part fun a _ => Inverts.done (fun b => by simp [hf]) rfl
  exact hfield.congr (by simp) (by simp)

/-- A value that is read as another one is. -/
theorem Inverts.wrap {after : β → Bytes} {fits' : β → Prop} (h : Inverts d write fits)
    (wrap : α → β) (hafter : ∀ a, fits a → after (wrap a) = write a)
    (hfits : ∀ b, fits' b ↔ ∃ a, b = wrap a ∧ fits a) :
    Inverts (do return wrap (← d)) after fits' where
  reads b hb rest := by
    obtain ⟨a, rfl, ha⟩ := (hfits b).1 hb
    rw [StateT.run_bind, hafter a ha, h.reads a ha]
    rfl
  takes bytes b rest hrun := by
    rw [StateT.run_bind] at hrun
    obtain ⟨⟨a, rest'⟩, ha, hb⟩ := exists_of_bind_eq_ok hrun
    obtain ⟨rfl, rfl⟩ := Prod.mk.inj (Except.ok.inj hb)
    obtain ⟨hfit, rfl⟩ := h.takes _ _ _ ha
    exact ⟨(hfits _).2 ⟨a, rfl, hfit⟩, by rw [hafter a hfit]⟩

/-- What is refused is the form of no value. -/
theorem Inverts.refuse {e : DecodeError} (h : ∀ a, ¬ fits a) : Inverts (throw e) write fits where
  reads a ha := absurd ha (h a)
  takes _ _ _ hrun := by cases hrun

/-- A check in front that there are enough bytes. -/
theorem Inverts.guard {n : Nat} {e : DecodeError} (h : Inverts d write fits)
    (hn : ∀ a, fits a → n ≤ (write a).length) :
    Inverts (do if n ≤ (← get).length then d else throw e) write fits where
  reads a ha rest := by
    have hle : n ≤ (write a ++ rest).length := by
      have := hn a ha
      simp
      omega
    rw [StateT.run_bind]
    show StateT.run (if n ≤ (write a ++ rest).length then d else throw e) (write a ++ rest) = _
    rw [if_pos hle]
    exact h.reads a ha rest
  takes bytes a rest hrun := by
    rw [StateT.run_bind] at hrun
    replace hrun : StateT.run (if n ≤ bytes.length then d else throw e) bytes = .ok (a, rest) :=
      hrun
    split at hrun
    · exact h.takes bytes a rest hrun
    · cases hrun

/-! ## Primitives -/

theorem takeBytes_inverts (width : Nat) :
    Inverts (takeBytes width) (fun bytes => bytes) fun bytes => bytes.length = width where
  reads bytes hlength rest := by
    show (if width ≤ (bytes ++ rest).length then _ else _) = _
    rw [if_pos (by simp [← hlength]), ← hlength, List.take_left, List.drop_left]
  takes bytes a rest hrun := by
    replace hrun : (if width ≤ bytes.length then Except.ok (bytes.take width, bytes.drop width)
      else .error DecodeError.endOfInput) = .ok (a, rest) := hrun
    split at hrun
    · obtain ⟨rfl, rfl⟩ := Prod.mk.inj (Except.ok.inj hrun)
      refine ⟨?_, (List.take_append_drop width bytes).symm⟩
      rw [List.length_take]
      omega
    · cases hrun

theorem number_inverts (width : Nat) :
    Inverts (number width) (littleEndian width) fun n => n < capacity width := by
  refine (takeBytes_inverts width).wrap ofLittleEndian ?_ ?_
  · rintro bytes rfl
    exact littleEndian_ofLittleEndian bytes
  · intro n
    constructor
    · intro hn
      exact ⟨littleEndian width n, (ofLittleEndian_littleEndian hn).symm, by simp⟩
    · rintro ⟨bytes, rfl, rfl⟩
      exact ofLittleEndian_lt bytes

theorem word_inverts : Inverts word ofWord fun n => n < wordSize := number_inverts 8

theorem nodeId_inverts : Inverts nodeId ofNodeId fun n => n < halfWordSize := number_inverts 4

theorem flag_inverts : Inverts flag ofFlag fun _ => True := by
  have h : Inverts flag (fun b => littleEndian 1 (if b then 1 else 0) ++ [])
      fun b => True ∧ (if b then 1 else 0) < capacity 1 ∧ True := by
    refine (number_inverts 1).field (fun b : Bool => if b then 1 else 0) fun n _ => ?_
    match n with
    | 0 => exact Inverts.done (by decide) rfl
    | 1 => exact Inverts.done (by decide) rfl
    | n + 2 =>
      refine Inverts.refuse fun b hb => ?_
      have := hb.1.2
      split at this <;> omega
  exact h.congr (by decide) (by decide)

/-- The values that may be absent. -/
def FitsOptional (fits : α → Prop) (o : Option α) : Prop := ∀ a, o = some a → fits a

theorem optional_inverts (hd : Inverts d write fits) :
    Inverts (optional d) (ofOptional write) (FitsOptional fits) := by
  have h : Inverts (optional d)
      (fun o => littleEndian 1 (if o.isSome then 1 else 0) ++ (o.map write).getD [])
      fun o => True ∧ (if o.isSome then 1 else 0) < capacity 1 ∧ FitsOptional fits o := by
    refine (number_inverts 1).field (fun o : Option α => if o.isSome then 1 else 0) fun n _ => ?_
    match n with
    | 0 =>
      refine Inverts.done (fun o => ?_) rfl
      cases o <;> simp [FitsOptional]
    | 1 =>
      refine hd.wrap some (fun _ _ => rfl) fun o => ?_
      cases o <;> simp [FitsOptional]
    | n + 2 =>
      refine Inverts.refuse fun b hb => ?_
      have := hb.1.2
      split at this <;> omega
  refine h.congr (fun o => ?_) fun o _ => ?_
  · cases o <;> simp [capacity]
  · cases o <;> rfl

theorem variantTag_inverts {count : Nat} (hcount : count ≤ capacity 4) :
    Inverts (variantTag count) ofVariantTag fun tag => tag < count := by
  have h : Inverts (variantTag count) (fun tag => littleEndian 4 tag ++ [])
      fun tag => True ∧ tag < capacity 4 ∧ tag < count := by
    refine (number_inverts 4).field (fun tag => tag) fun n _ => ?_
    split
    · rename_i hn
      refine Inverts.done (fun tag => ⟨fun htag => htag.1.2, ?_⟩) rfl
      rintro rfl
      exact ⟨⟨trivial, rfl⟩, hn⟩
    · rename_i hn
      refine Inverts.refuse fun tag htag => hn ?_
      rw [← htag.1.2]
      exact htag.2
  refine h.congr (fun tag => ?_) fun tag _ => ?_
  · simp
    omega
  · simp [ofVariantTag]

theorem byteString_inverts : Inverts byteString ofByteString fun b => b.length < wordSize := by
  have h : Inverts byteString (fun b => ofWord b.length ++ b)
      fun b => True ∧ b.length < wordSize ∧ True := by
    refine word_inverts.field List.length fun n _ => ?_
    exact (takeBytes_inverts n).congr (by simp) fun _ _ => rfl
  exact h.congr (by simp) fun _ _ => rfl

def FitsText (s : String) : Prop := (Utf8.encode s).length < wordSize

theorem utf8_inverts (n : Nat) :
    Inverts
      (do
        match Utf8.decode (← takeBytes n) with
        | .ok s => return s
        | .error e => throw (.badUtf8 e))
      Utf8.encode fun s => (Utf8.encode s).length = n := by
  have h : Inverts
      (do
        match Utf8.decode (← takeBytes n) with
        | .ok s => return s
        | .error e => throw (.badUtf8 e))
      (fun s => Utf8.encode s ++ []) fun s => True ∧ (Utf8.encode s).length = n ∧ True := by
    -- first the bytes, which then determine the text
    refine (takeBytes_inverts n).field Utf8.encode fun bytes _ => ?_
    cases hdecode : Utf8.decode bytes with
    | ok s =>
      refine Inverts.done (fun t => ?_) rfl
      constructor
      · rintro ⟨⟨-, rfl⟩, -⟩
        exact Except.ok.inj ((Utf8.decode_encode t).symm.trans hdecode)
      · rintro rfl
        exact ⟨⟨trivial, Utf8.encode_of_decode hdecode⟩, trivial⟩
    | error e =>
      refine Inverts.refuse ?_
      rintro t ⟨⟨-, rfl⟩, -⟩
      rw [Utf8.decode_encode] at hdecode
      cases hdecode
  exact h.congr (by simp) (by simp)

theorem text_inverts : Inverts text ofText FitsText := by
  have h : Inverts text (fun s => ofWord (Utf8.encode s).length ++ Utf8.encode s)
      fun s => True ∧ (Utf8.encode s).length < wordSize ∧ True := by
    refine word_inverts.field (fun s => (Utf8.encode s).length) fun n _ => ?_
    exact ((utf8_inverts n).guard fun s hs => Nat.le_of_eq hs.symm).congr (by simp) fun _ _ => rfl
  exact h.congr (by simp [FitsText]) fun _ _ => rfl

/-! ## Lists -/

theorem repeated_inverts (h : Inverts d write fits) (count : Nat) :
    Inverts (repeated d count) (fun l => l.flatMap write)
      fun l => l.length = count ∧ ∀ a ∈ l, fits a := by
  induction count with
  | zero =>
    refine Inverts.done (fun l => ?_) rfl
    rw [List.length_eq_zero_iff]
    constructor
    · exact And.left
    · rintro rfl
      exact ⟨rfl, by simp⟩
  | succ count ih =>
    constructor
    · rintro l ⟨hlength, hfits⟩ rest
      cases l with
      | nil => simp at hlength
      | cons a l =>
        obtain ⟨ha, hl⟩ := List.forall_mem_cons.1 hfits
        have htail := ih.reads l ⟨by simpa using hlength, hl⟩ rest
        rw [repeated, List.flatMap_cons, List.append_assoc, StateT.run_bind, h.reads a ha]
        show ((repeated d count) >>= fun rest => pure (a :: rest)).run _ = _
        rw [StateT.run_bind, htail]
        rfl
    · intro bytes l rest hrun
      rw [repeated, StateT.run_bind] at hrun
      obtain ⟨⟨a, middle⟩, ha, hrun⟩ := exists_of_bind_eq_ok hrun
      dsimp only at hrun
      rw [StateT.run_bind] at hrun
      obtain ⟨⟨tail, rest'⟩, htail, hl⟩ := exists_of_bind_eq_ok hrun
      obtain ⟨rfl, rfl⟩ := Prod.mk.inj (Except.ok.inj hl)
      obtain ⟨hfit, rfl⟩ := h.takes _ _ _ ha
      obtain ⟨⟨rfl, hfits⟩, rfl⟩ := ih.takes _ _ _ htail
      refine ⟨⟨rfl, List.forall_mem_cons.2 ⟨hfit, hfits⟩⟩, ?_⟩
      rw [List.flatMap_cons, List.append_assoc]

/-- The lists whose length fits, and whose items do. -/
def FitsItems (fits : α → Prop) (l : List α) : Prop := l.length < wordSize ∧ ∀ a ∈ l, fits a

/-- A list takes at least a byte for every item. -/
theorem length_le_flatMap {l : List α} (h : ∀ a ∈ l, 1 ≤ (write a).length) :
    l.length ≤ (l.flatMap write).length := by
  induction l with
  | nil => simp
  | cons a l ih =>
    obtain ⟨ha, hl⟩ := List.forall_mem_cons.1 h
    have := ih hl
    simp only [List.flatMap_cons, List.length_append, List.length_cons]
    omega

/-- The number of items that are tried is bounded by the bytes that are left. This makes no
difference, as every item takes one. -/
theorem bounded_inverts (h : Inverts d write fits) (hsize : ∀ a, fits a → 1 ≤ (write a).length)
    (n : Nat) :
    Inverts (do repeated d (min n ((← get).length + 1))) (fun l => l.flatMap write)
      fun l => l.length = n ∧ ∀ a ∈ l, fits a where
  reads l hl rest := by
    have hle : l.length ≤ (l.flatMap write).length :=
      length_le_flatMap fun a ha => hsize a (hl.2 a ha)
    have hn : min n ((l.flatMap write ++ rest).length + 1) = n := by
      rw [← hl.1, List.length_append]
      omega
    have hreads := (repeated_inverts h n).reads l hl rest
    rw [StateT.run_bind]
    show (repeated d (min n ((l.flatMap write ++ rest).length + 1))).run _ = _
    rw [hn, hreads]
  takes bytes l rest hrun := by
    rw [StateT.run_bind] at hrun
    replace hrun : (repeated d (min n (bytes.length + 1))).run bytes = .ok (l, rest) := hrun
    obtain ⟨⟨hlength, hfits⟩, rfl⟩ := (repeated_inverts h _).takes _ _ _ hrun
    have hle : l.length ≤ (l.flatMap write).length :=
      length_le_flatMap fun a ha => hsize a (hfits a ha)
    rw [List.length_append] at hlength
    exact ⟨⟨by omega, hfits⟩, rfl⟩

theorem items_inverts (h : Inverts d write fits) (hsize : ∀ a, fits a → 1 ≤ (write a).length) :
    Inverts (items d) (ofItems write) (FitsItems fits) := by
  have hitems : Inverts (items d) (fun l => ofWord l.length ++ l.flatMap write)
      fun l => True ∧ l.length < wordSize ∧ ∀ a ∈ l, fits a := by
    refine word_inverts.field List.length fun n _ => ?_
    exact (bounded_inverts h hsize n).congr (by simp) fun _ _ => rfl
  exact hitems.congr (by simp [FitsItems]) fun _ _ => rfl

end Raft.Codec
